/-
The flags that `recompute_cpu_simd_alignment_state` caches are exact.  The injectivity
test is sound, and complete for nested strides; the contiguous flag is set exactly when
every flat index is its own offset.
-/
import Vectorization.Injectivity
import Vectorization.ReshapeSemantics

namespace Vectorization

open StridedSpace MachineInteger

variable {T : ElementType}

section NonOverlapping

/-- A layout that counts its elements, without negative strides, whose extent is a signed
64-bit value. -/
structure StridedRef.Spanned (s : StridedRef T) : Prop where
  numel_eq : s.numel = s.sizes.prod
  stride_nonneg : ∀ a ∈ s.dims, 0 ≤ a.stride
  extent_le : s.numel ≠ 0 → (extent (natAxes s.dims) : Int) ≤ int64Max

/-- Distinct multi-indices have distinct offsets. -/
def StridedRef.Injective (s : StridedRef T) : Prop :=
  ∀ i, InBounds i s.sizes → ∀ j, InBounds j s.sizes → dot s.dims i = dot s.dims j → i = j

/-- The axes of more than one element, sorted by stride; equal strides come in any
order. -/
def SortedByStride (sorted dims : List (Axis Int)) : Prop :=
  sorted.Perm (wideAxes dims) ∧ sorted.Pairwise fun a b => a.stride ≤ b.stride

/-- Positive strides, each dividing the next. -/
def NestedStrides (sorted : List (Axis Int)) : Prop :=
  (∀ a ∈ sorted, 0 < a.stride) ∧ sorted.IsChain fun a b => a.stride ∣ b.stride

theorem natAxes_isChain {axes : List (Axis Int)} (hpos : ∀ a ∈ axes, 0 < a.stride)
    (h : axes.IsChain fun a b => a.stride ∣ b.stride) :
    (natAxes axes).IsChain fun a b => a.stride ∣ b.stride := by
  induction axes with
  | nil => exact List.IsChain.nil
  | cons a axes ih =>
      cases axes with
      | nil => exact List.IsChain.singleton _
      | cons b axes =>
          obtain ⟨hdvd, htail⟩ := List.isChain_cons_cons.1 h
          have ha := hpos a List.mem_cons_self
          have hb := hpos b (List.mem_cons_of_mem a List.mem_cons_self)
          have htail' := ih (fun c hc => hpos c (List.mem_cons_of_mem a hc)) htail
          rw [natAxes_cons, natAxes_cons, List.isChain_cons_cons]
          refine ⟨?_, htail'⟩
          rw [← Int.natCast_dvd_natCast, Int.toNat_of_nonneg ha.le, Int.toNat_of_nonneg hb.le]
          exact hdvd

namespace StridedRef.Spanned

variable {s : StridedRef T} (h : s.Spanned)
include h

theorem size_pos (hne : s.numel ≠ 0) : ∀ a ∈ s.dims, a.size ≠ 0 :=
  size_ne_zero_of_prod (h.numel_eq ▸ hne)

theorem extent_lt (hne : s.numel ≠ 0) : extent (natAxes s.dims) < 2 ^ 64 := by
  have hle := h.extent_le hne
  unfold int64Max at hle
  omega

theorem injective_iff : s.Injective ↔ (enumerate (natAxes s.dims)).Nodup := by
  rw [nodup_enumerate_iff, natAxes_sizes]
  unfold Injective
  simp only [dot_eq_natAxes h.stride_nonneg, Int.natCast_inj]
  exact Iff.rfl

/-- Dropping the axes of one element and sorting the others keeps the offsets. -/
theorem injective_iff_sorted (hne : s.numel ≠ 0) {sorted : List (Axis Int)}
    (hsorted : SortedByStride sorted s.dims) :
    s.Injective ↔ (enumerate (natAxes sorted)).Nodup := by
  have hwide : wideAxes s.dims = s.dims.filter fun a => decide (a.size ≠ 1) := by
    refine List.filter_congr fun a ha => decide_eq_decide.2 ?_
    have := h.size_pos hne a ha
    omega
  have hfilter : natAxes (wideAxes s.dims) =
      (natAxes s.dims).filter fun a => decide (a.size ≠ 1) := by
    rw [hwide, natAxes_filter fun n => decide (n ≠ 1)]
  rw [h.injective_iff, (enumerate_perm (natAxes_perm hsorted.1)).nodup_iff, hfilter,
    enumerate_filter_ne_one]

/-- Every order of equal strides gives the same verdict. -/
theorem isNonOverlapping_eq_sorted (hne : s.numel ≠ 0) {sorted : List (Axis Int)}
    (hsorted : SortedByStride sorted s.dims) :
    isNonOverlapping s = strideExceedsExtent 0 sorted := by
  have hnonneg : ∀ a ∈ s.dims, 1 < a.size → 0 ≤ a.stride := fun a ha _ => h.stride_nonneg a ha
  rw [isNonOverlapping, if_neg hne, Bool.eq_iff_iff,
    strideExceedsExtent_iff_stackable (overlapAxes_perm s) (List.pairwise_insertionSort _ _)
      hnonneg (h.extent_lt hne),
    strideExceedsExtent_iff_stackable hsorted.1 hsorted.2 hnonneg (h.extent_lt hne)]

theorem strideExceedsExtent_iff (hne : s.numel ≠ 0) {sorted : List (Axis Int)}
    (hsorted : SortedByStride sorted s.dims) :
    strideExceedsExtent 0 sorted = true ↔ Stacked 0 (natAxes sorted) := by
  have hmem : ∀ a ∈ sorted, a ∈ s.dims ∧ 1 < a.size := fun a ha =>
    mem_wideAxes.1 (hsorted.1.mem_iff.1 ha)
  refine Vectorization.strideExceedsExtent_iff (fun a ha => (hmem a ha).2)
    (fun a ha => h.stride_nonneg a (hmem a ha).1) ?_
  rw [Nat.zero_add, extent_perm (natAxes_perm hsorted.1), extent_wideAxes]
  exact h.extent_lt hne

theorem injective_of_isNonOverlapping (hflag : isNonOverlapping s = true)
    {sorted : List (Axis Int)} (hsorted : SortedByStride sorted s.dims) : s.Injective := by
  by_cases hne : s.numel = 0
  · intro i hi
    have hlt := flatten_lt hi
    rw [← h.numel_eq, hne] at hlt
    exact absurd hlt (Nat.not_lt_zero _)
  · rw [h.isNonOverlapping_eq_sorted hne hsorted, h.strideExceedsExtent_iff hne hsorted] at hflag
    exact (h.injective_iff_sorted hne hsorted).2 hflag.nodup_enumerate

theorem isNonOverlapping_of_injective {sorted : List (Axis Int)}
    (hsorted : SortedByStride sorted s.dims) (hnested : NestedStrides sorted)
    (hinj : s.Injective) : isNonOverlapping s = true := by
  by_cases hne : s.numel = 0
  · exact if_pos hne
  · rw [h.isNonOverlapping_eq_sorted hne hsorted, h.strideExceedsExtent_iff hne hsorted,
      ← nested_nodup_iff_stacked, ← h.injective_iff_sorted hne hsorted]
    · exact hinj
    · intro a ha
      obtain ⟨b, hb, rfl⟩ := List.mem_map.1 ha
      exact (mem_wideAxes.1 (hsorted.1.mem_iff.1 hb)).2
    · intro a ha
      obtain ⟨b, hb, rfl⟩ := List.mem_map.1 ha
      exact Int.pos_iff_toNat_pos.1 (hnested.1 b hb)
    · exact natAxes_isChain hnested.1 hnested.2

end StridedRef.Spanned

namespace TensorImpl

variable {S : SimdTarget T} {t : TensorImpl T}

theorem Cached.nonOverlapping_of_empty (h : t.Cached S) (hrank : t.rank ≠ 0)
    (hempty : t.numel = 0) : t.nonOverlapping = true := by
  have hfield := congrArg nonOverlapping h
  rw [recompute, if_neg hrank] at hfield
  dsimp only at hfield
  rw [← h.numel_eq hrank, if_neg (by simp [hempty])] at hfield
  exact hfield.symm

theorem Cached.nonOverlapping_of_scalar (h : t.Cached S) (hrank : t.rank = 0) :
    t.numel = 1 ∧ t.nonOverlapping = true := by
  have hnumel := congrArg numel h
  have hflag := congrArg nonOverlapping h
  rw [recompute, if_pos hrank] at hnumel hflag
  exact ⟨hnumel.symm, hflag.symm⟩

/-- The flag of a view is the verdict on its descriptor. -/
theorem Readable.isNonOverlapping_strided (h : t.Readable S) (hview : t.isView = true) :
    isNonOverlapping t.strided = t.nonOverlapping := by
  by_cases hrank : t.rank = 0
  · obtain ⟨hnumel, hflag⟩ := h.cached.nonOverlapping_of_scalar hrank
    have hne : t.strided.numel ≠ 0 := by
      change t.numel ≠ 0
      omega
    have haxes : overlapAxes t.strided = [] := by
      rw [overlapAxes, strided, List.length_eq_zero_iff.1 hrank]
      rfl
    rw [hflag, isNonOverlapping, if_neg hne, haxes]
    rfl
  by_cases hempty : t.numel = 0
  · rw [h.cached.nonOverlapping_of_empty hrank hempty]
    exact if_pos hempty
  · have hprod : t.strided.sizes.prod ≠ 0 := h.numel_eq ▸ hempty
    have hnonneg := h.laid.nonneg hprod
    have hlt := h.laid.extent_lt hprod
    have hne : t.strided.numel ≠ 0 := hempty
    rw [h.cached.nonOverlapping_eq hview hempty hrank, isNonOverlapping, if_neg hne,
      Bool.eq_iff_iff, strideExceedsExtent_sortedAxes _ hlt,
      strideExceedsExtent_iff_stackable (overlapAxes_perm t.strided)
        (List.pairwise_insertionSort _ _) (fun a ha _ => hnonneg a ha) hlt]
    · rfl
    · intro d hd
      exact hnonneg d.axis (List.mem_map_of_mem hd)

end TensorImpl

/-- The injectivity proof is sound, and complete for nested strides; no order of equal
strides changes its verdict, and it is the one cached by a view. -/
theorem isNonOverlapping_exact {s : StridedRef T} (h : s.Spanned) :
    (isNonOverlapping s = true → s.Injective) ∧
      (∀ sorted, SortedByStride sorted s.dims →
        (s.numel ≠ 0 → isNonOverlapping s = strideExceedsExtent 0 sorted) ∧
          (NestedStrides sorted → s.Injective → isNonOverlapping s = true)) ∧
      ∀ (S : SimdTarget T) (t : TensorImpl T) (r : StridedRef T), t.Readable S →
        t.isView = true → t.toStridedRef = .ok r → isNonOverlapping r = t.nonOverlapping := by
  refine ⟨fun hflag => ?_, fun sorted hsorted => ⟨fun hne => ?_, fun hnested hinj => ?_⟩, ?_⟩
  · exact h.injective_of_isNonOverlapping hflag
      ⟨overlapAxes_perm s, List.pairwise_insertionSort _ _⟩
  · exact h.isNonOverlapping_eq_sorted hne hsorted
  · exact h.isNonOverlapping_of_injective hsorted hnested hinj
  · intro S t r ht hview hr
    rw [TensorImpl.toStridedRef] at hr
    split at hr
    · cases hr
      exact ht.isNonOverlapping_strided hview
    · cases hr

end NonOverlapping

section Contiguous

/-- The loop accepts exactly the layouts whose positions, times the expected stride, are
their own offsets modulo the word. -/
theorem contiguousLoop_iff {dims : List Dim} {expected : Int}
    (hsizes : ∀ d ∈ dims, 0 < d.size ∧ d.size ≤ int64Max)
    (hstrides : ∀ d ∈ dims, InInt64 d.stride) (hexpected : InInt64 expected) :
    contiguousLoop dims expected = true ↔
      ∀ i < elementCount dims, decode (residues dims) i = i • (expected : Offset) := by
  constructor
  · intro h i hi
    rw [decode_of_contiguousLoop h, Nat.mod_eq_of_lt hi]
  intro h
  induction dims generalizing expected with
  | nil => rfl
  | cons d dims ih =>
      have hd := hsizes d List.mem_cons_self
      have hsizes' := fun b hb => hsizes b (List.mem_cons_of_mem d hb)
      have hstrides' := fun b hb => hstrides b (List.mem_cons_of_mem d hb)
      have hu := toU64_of_nonneg hd.1.le hd.2
      have hrest := elementCount_pos fun b hb => toU64_size_ne_zero (hsizes' b hb)
      rw [elementCount_cons, residues_cons] at h
      rw [contiguousLoop]
      by_cases hone : d.size = 1
      · have hunit : toU64 d.size = 1 := by
          rw [hone]
          rfl
        rw [if_pos hone]
        apply ih hsizes' hstrides' hexpected
        intro i hi
        rw [← h i (by rwa [hunit, Nat.one_mul]), decode_cons_one hunit]
      · have hwide : 1 < toU64 d.size := by omega
        -- the second element lies one stride from the first
        have hstride : d.stride = expected := by
          have hsecond := h 1 (Nat.lt_of_lt_of_le hwide (Nat.le_mul_of_pos_right _ hrest))
          rw [decode] at hsecond
          change (1 % toU64 d.size) • (d.stride : Offset) +
            decode (residues dims) (1 / toU64 d.size) = _ at hsecond
          rw [Nat.mod_eq_of_lt hwide, Nat.div_eq_of_lt hwide, decode_zero, add_zero, one_smul,
            one_smul, ← wrapI64_eq_iff, wrapI64_eq_self (hstrides d List.mem_cons_self),
            wrapI64_eq_self hexpected] at hsecond
          exact hsecond
        rw [if_neg hone, if_neg (not_not.2 hstride)]
        apply ih hsizes' hstrides' (wrapI64_inInt64 _)
        -- whole turns of this dimension move along the others
        intro i hi
        have hturn := h (toU64 d.size * i)
          (Nat.mul_lt_mul_of_pos_left hi (Nat.zero_lt_of_lt hwide))
        rw [decode] at hturn
        change (toU64 d.size * i % toU64 d.size) • (d.stride : Offset) +
          decode (residues dims) (toU64 d.size * i / toU64 d.size) = _ at hturn
        rw [Nat.mul_mod_right, Nat.mul_div_cancel_left _ (Nat.zero_lt_of_lt hwide), zero_smul,
          zero_add] at hturn
        rw [hturn, intCast_wrapI64, Int.cast_mul, ← natCast_toU64 d.size]
        simp only [nsmul_eq_mul, Nat.cast_mul]
        ring

variable {S : SimdTarget T} {t : TensorImpl T}

/-- The contiguous flag of a non-empty tensor is the verdict of the loop. -/
theorem TensorImpl.recompute_contiguous_eq
    (hfit : elementCount t.sizesAndStrides < 2 ^ 64)
    (hne : elementCount t.sizesAndStrides ≠ 0) :
    (t.recompute S).contiguous = contiguousLoop t.sizesAndStrides.reverse 1 := by
  rw [recompute]
  by_cases hrank : t.rank = 0
  · have hdims : t.sizesAndStrides = [] := List.length_eq_zero_iff.1 hrank
    rw [if_pos hrank, hdims]
    rfl
  · rw [if_neg hrank]
    exact if_neg (by rwa [t.totalSize_eq_count, wrapU64_eq_self hfit])

/-- The contiguous flag of a non-empty tensor is set exactly when every flat index is
its own offset; so neither shortcut changes an address. -/
theorem recompute_contiguous_exact
    (hsizes : ∀ d ∈ t.sizesAndStrides, 0 < d.size ∧ d.size ≤ int64Max)
    (hstrides : ∀ d ∈ t.sizesAndStrides, 0 ≤ d.stride ∧ d.stride ≤ int64Max)
    (hcount : elementCount t.sizesAndStrides < 2 ^ 64) :
    ((t.recompute S).contiguous = true ↔ ∀ i < elementCount t.sizesAndStrides,
        logicalOffsetLoop t.sizesAndStrides.reverse 0 i = i) ∧
      ∀ i < elementCount t.sizesAndStrides,
        (t.recompute S).logicalOffset i = logicalOffsetLoop t.sizesAndStrides.reverse 0 i ∧
          stridedOffset (t.recompute S).strided i =
            stridedOffsetLoop (t.recompute S).strided.dims.reverse 0 i := by
  have hpos : ∀ d ∈ t.sizesAndStrides.reverse, toU64 d.size ≠ 0 := fun d hd =>
    toU64_size_ne_zero (hsizes d (List.mem_reverse.1 hd))
  have hperm := elementCount_perm (List.reverse_perm t.sizesAndStrides)
  have hne := Nat.ne_of_gt (hperm ▸ elementCount_pos hpos)
  have hoffset (i : Nat) (hi : i < elementCount t.sizesAndStrides) :
      logicalOffsetLoop t.sizesAndStrides.reverse 0 i = i ↔
        decode (residues t.sizesAndStrides.reverse) i = i • ((1 : Int) : Offset) := by
    rw [← natCast_offset_inj (logicalOffsetLoop_lt (by norm_num) i) (hi.trans hcount),
      logicalOffsetLoop_residue hpos]
    simp
  have hflag : (t.recompute S).contiguous = true ↔ ∀ i < elementCount t.sizesAndStrides,
      logicalOffsetLoop t.sizesAndStrides.reverse 0 i = i := by
    rw [TensorImpl.recompute_contiguous_eq hcount hne, contiguousLoop_iff
      (fun d hd => hsizes d (List.mem_reverse.1 hd)) _ (by decide), hperm]
    · exact forall₂_congr fun i hi => (hoffset i hi).symm
    · intro d hd
      have := hstrides d (List.mem_reverse.1 hd)
      exact ⟨by unfold int64Min; omega, this.2⟩
  have hloop (i : Nat) : stridedOffsetLoop (t.recompute S).strided.dims.reverse 0 i =
      logicalOffsetLoop t.sizesAndStrides.reverse 0 i := by
    rw [TensorImpl.strided, TensorImpl.recompute_sizesAndStrides, ← List.map_reverse]
    refine (logicalOffsetLoop_eq_stridedOffsetLoop (fun d hd => ?_) 0 i).symm
    obtain ⟨hd₀, hd₁⟩ := hsizes d (List.mem_reverse.1 hd)
    exact toU64_of_nonneg hd₀.le hd₁
  refine ⟨hflag, fun i hi => ?_⟩
  rw [hloop, TensorImpl.logicalOffset, stridedOffset, TensorImpl.recompute_sizesAndStrides]
  change _ ∧ (if (t.recompute S).contiguous = true then i else _) = _
  rw [hloop]
  split <;> rename_i hcontig
  · have hself := hflag.1 hcontig i hi
    exact ⟨hself.symm, hself.symm⟩
  · exact ⟨rfl, rfl⟩

end Contiguous

namespace CachedFlagsWitness

open Sample

/-- Two rows of three, stored by columns. -/
def transposed : StridedRef float := cpuRef 4096 [⟨2, 1⟩, ⟨3, 2⟩]

/-- Two windows of three elements that share one. -/
def windows : StridedRef float := cpuRef 4096 [⟨2, 2⟩, ⟨3, 1⟩]

def windowsView : TensorImpl float :=
  TensorImpl.recompute fourLanes (.bare true ⟨4096, 5, .cpu, 0⟩ [⟨2, 2⟩, ⟨3, 1⟩])

theorem isNonOverlapping_exact_windows :
    transposed.Injective ∧ ¬ windows.Injective ∧
      isNonOverlapping windowsView.strided = windowsView.nonOverlapping := by
  have htransposed : transposed.Spanned := ⟨by decide, by decide, by decide⟩
  have hwindows : windows.Spanned := ⟨by decide, by decide, by decide⟩
  have hview : windowsView.Readable fourLanes :=
    ⟨TensorImpl.recompute_cached _ _, ⟨by decide, rfl, rfl⟩, by decide⟩
  obtain ⟨-, hnested, hcached⟩ := isNonOverlapping_exact hwindows
  refine ⟨(isNonOverlapping_exact htransposed).1 (by decide), fun hinj => ?_,
    hcached fourLanes windowsView _ hview rfl rfl⟩
  have hsorted : SortedByStride [⟨3, 1⟩, ⟨2, 2⟩] windows.dims :=
    ⟨List.Perm.swap _ _ _, by decide⟩
  have hflag := (hnested _ hsorted).2 ⟨by decide, by decide⟩ hinj
  exact absurd hflag (by decide)

/-- A row whose leading dimension of one element has a stride of its own. -/
def row : TensorImpl float := .bare true ⟨4096, 4, .cpu, 0⟩ [⟨1, 7⟩, ⟨4, 1⟩]

theorem recompute_contiguous_exact_row : (row.recompute fourLanes).contiguous = true := by
  have hexact := recompute_contiguous_exact (S := fourLanes) (t := row) (by decide) (by decide)
    (by decide)
  exact hexact.1.2 (by decide)

end CachedFlagsWitness

end Vectorization
