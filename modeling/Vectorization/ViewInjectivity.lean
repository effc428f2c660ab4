/-
Views of packed tensors stay injective.  The axes of more than one element of a packed
tensor are stacked, and slicing, reordering, dropping and adding axes of one element
and regrouping by `view` keep them so; the cached flag of a view finds the stacking.
-/
import Vectorization.Assignment
import Vectorization.Injectivity
import Vectorization.ViewCompatibility
import Vectorization.ViewComposition
import Vectorization.Foundation.StackedRegrouping

namespace Vectorization

open StridedSpace MachineInteger AtomicRun

variable {T : ElementType}

/-- A non-empty layout whose axes of more than one element are stacked. -/
structure Interleaved (dims : List Dim) : Prop where
  sizes : ∀ d ∈ dims, 0 < d.size ∧ d.size ≤ int64Max
  strides : ∀ d ∈ dims, InInt64 d.stride
  nonneg : ∀ d ∈ dims, 1 < d.size → 0 ≤ d.stride
  extent_lt : extent (unsignedAxes dims) < 2 ^ 64
  stackable : Stackable (wide (unsignedAxes dims))

/-- Empty, or stacked; a view that is not contiguous has passed the geometry check. -/
structure TensorImpl.Stacks (t : TensorImpl T) : Prop where
  sizes : ∀ d ∈ t.sizesAndStrides, InInt64 d.size
  interleaved : elementCount t.sizesAndStrides ≠ 0 → Interleaved t.sizesAndStrides
  checked : t.contiguous = false → elementCount t.sizesAndStrides ≠ 0 →
    (∀ d ∈ t.sizesAndStrides, 0 ≤ d.stride) ∧
      (extent (unsignedAxes t.sizesAndStrides) : Int) ≤ int64Max

/-- The operations that repeat no element, with 64-bit arguments. -/
def ViewOp.Narrows : ViewOp → Prop
  | .expand _ => False
  | .broadcastTo _ => False
  | .slice _ start stop step =>
      (∀ v ∈ start, InInt64 v) ∧ (∀ v ∈ stop, InInt64 v) ∧ InInt64 step
  | _ => True

section Flag

theorem unsigned_size {d : Dim} (h : 0 < d.size ∧ d.size ≤ int64Max) :
    d.unsigned.size = d.axis.size :=
  toU64_of_nonneg h.1.le h.2

/-- The wide axes of the injectivity test are those of the unsigned layout. -/
theorem natAxes_wideAxes {dims : List Dim} (hsizes : ∀ d ∈ dims, 0 < d.size ∧ d.size ≤ int64Max)
    (hstrides : ∀ d ∈ dims, InInt64 d.stride) (hnonneg : ∀ d ∈ dims, 1 < d.size → 0 ≤ d.stride) :
    natAxes (wideAxes (dims.map Dim.axis)) = wide (unsignedAxes dims) := by
  rw [wideAxes, List.filter_map, wide, unsignedAxes, List.filter_map, natAxes, List.map_map]
  have hfilter : dims.filter ((fun a => decide (1 < a.size)) ∘ Dim.axis) =
      dims.filter ((fun a => decide (1 < a.size)) ∘ Dim.unsigned) := by
    refine List.filter_congr fun d hd => ?_
    rw [Function.comp_apply, Function.comp_apply, unsigned_size (hsizes d hd)]
  rw [hfilter]
  refine List.map_congr_left fun d hd => ?_
  obtain ⟨hd, hwide⟩ := List.mem_filter.1 hd
  have hsize := hsizes d hd
  rw [Function.comp_apply, decide_eq_true_iff, unsigned_size hsize] at hwide
  have hstride : 0 ≤ d.stride := hnonneg d hd (by
    change 1 < d.size.toNat at hwide
    omega)
  rw [Function.comp_apply, Dim.unsigned, toU64_of_nonneg hsize.1.le hsize.2,
    toU64_of_nonneg hstride (hstrides d hd).2]
  rfl

theorem Interleaved.strideExceedsExtent {dims : List Dim} (h : Interleaved dims) :
    strideExceedsExtent 0 (sortedAxes dims) = true := by
  have haxes := natAxes_wideAxes h.sizes h.strides h.nonneg
  have hperm : (sortedAxes dims).Perm (wideAxes (dims.map Dim.axis)) := by
    rw [← map_axis_filter]
    exact List.perm_insertionSort _ _
  have hfit : extent (natAxes (dims.map Dim.axis)) < 2 ^ 64 := by
    rw [← extent_wideAxes, haxes, wide, extent_filter_one_lt]
    exact h.extent_lt
  refine (strideExceedsExtent_iff_stackable hperm (sortedAxes_pairwise dims) ?_ hfit).2 ?_
  · intro a ha hwide
    obtain ⟨d, hd, rfl⟩ := List.mem_map.1 ha
    change 1 < d.size.toNat at hwide
    exact h.nonneg d hd (by omega)
  · rw [haxes]
    exact h.stackable

/-- The flag of a tensor whose axes are stacked. -/
theorem TensorImpl.Stacks.nonOverlapping {S : SimdTarget T} {t : TensorImpl T} (h : t.Stacks)
    (hcached : t.Cached S) : t.nonOverlapping = true := by
  have hfield := congrArg TensorImpl.nonOverlapping hcached
  by_cases hrank : t.rank = 0
  · rw [recompute, if_pos hrank] at hfield
    exact hfield.symm
  · rw [recompute, if_neg hrank] at hfield
    dsimp only at hfield
    rw [← hfield]
    split <;> rename_i hview
    · obtain ⟨-, hne⟩ := hview
      rw [t.totalSize_eq_count] at hne
      refine (h.interleaved fun hzero => hne ?_).strideExceedsExtent
      rw [hzero]
      rfl
    · rfl

end Flag

section Slice

/-- A stride that a step of less than `2 ^ 63` wraps to zero spans too many elements. -/
theorem step_ne_zero_of_wrap {s r : Nat} (hs : 0 < s) (hr : 0 < r) (hlt : r < 2 ^ 63)
    (hfit : s * r < 2 ^ 64) : ¬ 2 ^ 64 ∣ s * (2 ^ 63 - r) := by
  rintro ⟨k, hk⟩
  have hsplit : s * (2 ^ 63 - r) + s * r = s * 2 ^ 63 := by
    rw [← Nat.mul_add]
    congr 1
    omega
  have hdvd : 2 ^ 63 ∣ s * r := by
    have hleft : 2 ^ 63 ∣ s * (2 ^ 63 - r) := by
      rw [hk, show (2 : Nat) ^ 64 = 2 ^ 63 * 2 by norm_num, Nat.mul_assoc]
      exact Nat.dvd_mul_right _ _
    exact (Nat.dvd_add_right hleft).1 (hsplit ▸ Nat.dvd_mul_left _ _)
  have hpos : 0 < s * r := Nat.mul_pos hs hr
  have heq : s * r = 2 ^ 63 := by
    obtain ⟨q, hq⟩ := hdvd
    have : q = 1 := by omega
    rw [hq, this, Nat.mul_one]
  -- the stride would be an odd power of two
  obtain ⟨j, -, rfl⟩ := (Nat.dvd_prime_pow Nat.prime_two).1 (heq ▸ Nat.dvd_mul_right s r)
  cases j with
  | zero => omega
  | succ j =>
      rw [heq, hk, Nat.pow_succ] at hsplit
      omega

/-- What a slice that passes the checks leaves of its axis. -/
theorem slice_narrows {d : Dim} {start stop : Option Int} {step : Int}
    (hsize : 0 < d.size ∧ d.size ≤ int64Max) (hstride : InInt64 d.stride)
    (hpos : 1 < d.size → 0 < d.stride)
    (hextent : (d.unsigned.size - 1) * d.unsigned.stride < 2 ^ 64)
    (hstart : ∀ v ∈ start, InInt64 v) (hstop : ∀ v ∈ stop, InInt64 v)
    (hstep : 1 ≤ step ∧ step ≤ int64Max) {b : Dim}
    (hb : b = ⟨sliceSize (sliceFirst d.size start) (sliceLast d.size stop) step,
      wrapI64 (d.stride * step)⟩)
    (hne : toU64 b.size ≠ 0) (hnonneg : 0 ≤ b.stride)
    (hcheck : ((b.unsigned.size - 1) * b.unsigned.stride : Nat) ≤ int64Max) :
    0 < b.size ∧ b.size ≤ int64Max ∧
      (1 < b.size → 1 < d.size ∧ d.unsigned.stride ≤ b.unsigned.stride ∧
        (b.unsigned.size - 1) * b.unsigned.stride ≤
          (d.unsigned.size - 1) * d.unsigned.stride) := by
  have hu : d.unsigned.size = d.size.toNat := toU64_of_nonneg hsize.1.le hsize.2
  rw [hu] at hextent ⊢
  obtain ⟨n, hn⟩ : ∃ n : Nat, d.size = n := ⟨d.size.toNat, (Int.toNat_of_nonneg hsize.1.le).symm⟩
  obtain ⟨k, rfl⟩ : ∃ k : Nat, step = k := ⟨step.toNat, (Int.toNat_of_nonneg (by omega)).symm⟩
  have hfirst := sliceFirst_eq ⟨hsize.1.le, hsize.2⟩ hstart
  have hlast := sliceLast_eq ⟨hsize.1.le, hsize.2⟩ hstop
  have hlastLe := pythonBound_le (toU64 d.size) (stop.getD (toU64 d.size : Nat))
  rw [hfirst, hlast] at hb
  generalize pythonBound (toU64 d.size) (start.getD 0) = first at hb
  generalize pythonBound (toU64 d.size) (stop.getD (toU64 d.size : Nat)) = last at hb hlastLe
  change last ≤ d.unsigned.size at hlastLe
  rw [hu, hn, Int.toNat_natCast] at hlastLe
  rw [hn, Int.toNat_natCast] at hextent ⊢
  have hwide : 1 < n → ∃ s : Nat, d.stride = s ∧ 0 < s ∧ d.unsigned.stride = s ∧
      (n - 1) * s < 2 ^ 64 := by
    intro hlt
    have hp := hpos (by omega)
    have hs : d.unsigned.stride = d.stride.toNat := toU64_of_nonneg hp.le hstride.2
    exact ⟨d.stride.toNat, (Int.toNat_of_nonneg hp.le).symm, by omega, hs, hs ▸ hextent⟩
  by_cases hfit : (first : Int) < last → InInt64 (last - first + k - 1)
  · rw [sliceSize_eq hstep.1 hfit, Int.toNat_natCast] at hb
    have hk : 0 < k := by omega
    have hle := steppedCount_le first last hk
    generalize hcount : steppedCount first last k = c at hb hle
    subst hb
    have hc : c ≠ 0 := by
      rintro rfl
      exact hne rfl
    unfold int64Max at *
    refine ⟨by dsimp only; omega, by dsimp only; omega, fun hmany => ?_⟩
    dsimp only at hmany
    have hlastFits : first + k * (c - 1) < last := steppedCount_fits hk (by omega)
    have hreach : k ≤ k * (c - 1) := Nat.le_mul_of_pos_right _ (by omega)
    obtain ⟨s, hs, hspos, hus, hsfit⟩ := hwide (by omega)
    have hcu : (⟨(c : Int), wrapI64 (d.stride * k)⟩ : Dim).unsigned.size = c := by
      rw [Dim.unsigned, toU64_natCast]
      exact wrapU64_eq_self (by omega)
    -- the product of the strides does not wrap, or the result would be negative
    have hsteps : (c - 1) * (k * s) ≤ (n - 1) * s := by
      rw [← Nat.mul_assoc, Nat.mul_comm (c - 1)]
      exact Nat.mul_le_mul_right s (by omega)
    have hone : k * s ≤ (c - 1) * (k * s) := Nat.le_mul_of_pos_left _ (by omega)
    have hcast : d.stride * k = ((k * s : Nat) : Int) := by rw [hs, Nat.cast_mul, mul_comm]
    have hstored : (⟨(c : Int), wrapI64 (d.stride * k)⟩ : Dim).unsigned.stride = k * s := by
      rw [Dim.unsigned, toU64_wrapI64, hcast, toU64_natCast]
      exact wrapU64_eq_self (Nat.lt_of_le_of_lt (hone.trans hsteps) hsfit)
    rw [hcu, hstored, hus]
    exact ⟨by omega, Nat.le_mul_of_pos_left s hk, hsteps⟩
  · -- the rounding up wrapped: the size is negative, so the stride must be zero
    exfalso
    rw [Classical.not_imp] at hfit
    obtain ⟨hlt, hwrap⟩ := hfit
    unfold InInt64 int64Min int64Max at hwrap
    unfold int64Max at *
    obtain ⟨y, hy, hyle⟩ : ∃ y : Nat, wrapI64 ((last : Int) - first + k - 1) = -(y : Int) ∧
        y ≤ 2 ^ 63 := by
      refine ⟨(2 ^ 64 - (last - first + k - 1 : Int)).toNat, ?_, by omega⟩
      have hcongr : wrapI64 ((last : Int) - first + k - 1) =
          wrapI64 ((last : Int) - first + k - 1 - 2 ^ 64) := wrapI64_congr (by omega)
      rw [hcongr, wrapI64_eq_self (by unfold InInt64 int64Min int64Max; omega)]
      omega
    have hbsize : b.size = -((y / k : Nat) : Int) := by
      rw [hb, sliceSize, if_pos hlt, hy, Int.neg_tdiv, ← Int.ofNat_tdiv]
    have hquot : y / k ≤ 2 ^ 62 := by
      refine (Nat.div_le_div hyle (show 2 ≤ k by omega) (by norm_num)).trans ?_
      norm_num
    generalize y / k = q at hbsize hquot
    have hbig : 2 ^ 63 < b.unsigned.size - 1 := by
      change 2 ^ 63 < toU64 b.size - 1
      unfold toU64 at hne ⊢
      omega
    have hzero : b.unsigned.stride = 0 := by
      by_contra hstride
      have := Nat.le_mul_of_pos_right (b.unsigned.size - 1) (Nat.pos_of_ne_zero hstride)
      omega
    obtain ⟨s, hs, hspos, -, hsfit⟩ := hwide (by omega)
    have hreach : s * (2 ^ 63 - k) ≤ (n - 1) * s := by
      rw [Nat.mul_comm]
      exact Nat.mul_le_mul_right s (by omega)
    refine step_ne_zero_of_wrap (r := 2 ^ 63 - k) hspos (by omega) (by omega)
      (Nat.lt_of_le_of_lt hreach hsfit) ?_
    rw [show 2 ^ 63 - (2 ^ 63 - k) = k by omega]
    rw [hb, Dim.unsigned, toU64_wrapI64, hs, ← Nat.cast_mul, toU64_natCast] at hzero
    exact Nat.dvd_of_mod_eq_zero hzero

end Slice

section Retained

variable {S : SimdTarget T} {subview : Subview T} {t r : TensorImpl T} {view : DataView T}
  {dims : List Dim}

/-- A view whose layout is stacked when it is not empty. -/
theorem stacks_of_retain (h : retain S true view dims = .ok r)
    (hsizes : ∀ d ∈ dims, InInt64 d.size)
    (hstacked : elementCount dims ≠ 0 → (∀ d ∈ dims, 0 < d.size ∧ InInt64 d.stride) ∧
      Stackable (wide (unsignedAxes dims))) : r.Stacks := by
  obtain ⟨hdims, -, hcheck⟩ := retain_ok h
  subst hdims
  refine ⟨hsizes, fun hne => ?_, fun _ hne => ?_⟩
  · obtain ⟨haxes, hstackable⟩ := hstacked hne
    obtain ⟨hnonneg, hbound, -⟩ := hcheck hne
    unfold int64Max at hbound
    exact ⟨fun d hd => ⟨(haxes d hd).1, (hsizes d hd).2⟩, fun d hd => (haxes d hd).2,
      fun d hd _ => hnonneg d hd, by omega, hstackable⟩
  · obtain ⟨hnonneg, hbound, -⟩ := hcheck hne
    exact ⟨hnonneg, hbound⟩

/-- A view with the same wide axes, in any order. -/
theorem TensorImpl.Stacks.rearranged (ht : t.Stacks) (h : retain S true view dims = .ok r)
    (hcount : elementCount dims = elementCount t.sizesAndStrides)
    (hmem : ∀ d ∈ dims, d ∈ t.sizesAndStrides ∨ d.size = 1 ∧ InInt64 d.stride)
    (hperm : (wide (unsignedAxes t.sizesAndStrides)).Perm (wide (unsignedAxes dims))) :
    r.Stacks := by
  refine stacks_of_retain h (fun d hd => ?_) fun hne => ?_
  · rcases hmem d hd with hd | ⟨hone, -⟩
    · exact ht.sizes d hd
    · rw [hone]
      exact (show InInt64 1 by decide)
  · have hlayout := ht.interleaved (hcount ▸ hne)
    refine ⟨fun d hd => ?_, hlayout.stackable.perm hperm⟩
    rcases hmem d hd with hd | ⟨hone, hstride⟩
    · exact ⟨(hlayout.sizes d hd).1, hlayout.strides d hd⟩
    · exact ⟨by omega, hstride⟩

theorem TensorImpl.Stacks.permuted (ht : t.Stacks) (h : retain S true view dims = .ok r)
    (hperm : t.sizesAndStrides.Perm dims) : r.Stacks :=
  ht.rearranged h (elementCount_perm hperm.symm) (fun _ hd => .inl (hperm.mem_iff.2 hd))
    (wide_perm (unsignedAxes_perm hperm))

theorem wide_unsignedAxes_one {d : Dim} (h : d.size = 1) (dims : List Dim) :
    wide (unsignedAxes (d :: dims)) = wide (unsignedAxes dims) := by
  rw [unsignedAxes_cons]
  refine wide_cons_of_le ?_ _
  change toU64 d.size ≤ 1
  rw [h]
  decide

theorem elementCount_one {d : Dim} (h : d.size = 1) (dims : List Dim) :
    elementCount (d :: dims) = elementCount dims := by
  rw [elementCount_cons, h]
  exact Nat.one_mul _

/-- A view without one of the axes of one element. -/
theorem TensorImpl.Stacks.dropped (ht : t.Stacks) (h : retain S true view dims = .ok r)
    {d : Dim} (hone : d.size = 1) (hperm : t.sizesAndStrides.Perm (d :: dims)) : r.Stacks := by
  refine ht.rearranged h ?_ (fun b hb => .inl (hperm.mem_iff.2 (List.mem_cons_of_mem d hb))) ?_
  · rw [elementCount_perm hperm, elementCount_one hone]
  · rw [← wide_unsignedAxes_one hone dims]
    exact wide_perm (unsignedAxes_perm hperm)

/-- A view with one more axis of one element. -/
theorem TensorImpl.Stacks.added (ht : t.Stacks) (h : retain S true view dims = .ok r)
    {d : Dim} (hone : d.size = 1) (hstride : InInt64 d.stride)
    (hperm : dims.Perm (d :: t.sizesAndStrides)) : r.Stacks := by
  refine ht.rearranged h ?_ (fun b hb => ?_) ?_
  · rw [elementCount_perm hperm, elementCount_one hone]
  · rcases List.mem_cons.1 (hperm.mem_iff.1 hb) with rfl | hb
    · exact .inr ⟨hone, hstride⟩
    · exact .inl hb
  · rw [← wide_unsignedAxes_one hone t.sizesAndStrides]
    exact wide_perm (unsignedAxes_perm hperm.symm)

theorem squeeze_rearranges (dims : List Dim) :
    elementCount (dims.filter fun d => d.size ≠ 1) = elementCount dims ∧
      wide (unsignedAxes (dims.filter fun d => d.size ≠ 1)) = wide (unsignedAxes dims) := by
  induction dims with
  | nil => exact ⟨rfl, rfl⟩
  | cons d dims ih =>
      by_cases hone : d.size = 1
      · rw [List.filter_cons_of_neg (by simp [hone]), wide_unsignedAxes_one hone,
          elementCount_one hone]
        exact ih
      · rw [List.filter_cons_of_pos (by simp [hone]), elementCount_cons, elementCount_cons, ih.1,
          unsignedAxes_cons, unsignedAxes_cons]
        exact ⟨rfl, by rw [← List.singleton_append, wide_append, ih.2, ← wide_append]; rfl⟩

theorem sliceSize_inInt64 (first last : Int) {step : Int} (hstep : 1 ≤ step) :
    InInt64 (sliceSize first last step) := by
  rw [sliceSize]
  split
  · obtain ⟨hlo, hhi⟩ := wrapI64_inInt64 (last - first + step - 1)
    generalize wrapI64 (last - first + step - 1) = x at hlo hhi
    rcases Int.le_total 0 x with hx | hx
    · have hle := Int.tdiv_le_self step hx
      have hnonneg := Int.tdiv_nonneg hx (show 0 ≤ step by omega)
      exact ⟨le_trans (by decide) hnonneg, hle.trans hhi⟩
    · have hle := Int.tdiv_le_self step (show 0 ≤ -x by omega)
      have hnonneg := Int.tdiv_nonneg (show 0 ≤ -x by omega) (show 0 ≤ step by omega)
      rw [Int.neg_tdiv] at hle hnonneg
      unfold InInt64 int64Min int64Max at *
      omega
  · exact (show InInt64 0 by decide)

/-- A slice of an axis without elements has none. -/
theorem sliceSize_of_empty {d : Dim} {start stop : Option Int} {step : Int}
    (hsize : InInt64 d.size) (h : toU64 d.size = 0) :
    sliceSize (sliceFirst d.size start) (sliceLast d.size stop) step = 0 := by
  have hzero : d.size = 0 := by
    unfold InInt64 int64Min int64Max at hsize
    unfold toU64 at h
    omega
  have hclamp (v : Int) : sliceClamp 0 v = 0 := min_eq_right (le_max_right _ _)
  rw [hzero, sliceFirst, sliceLast, hclamp, hclamp, sliceSize, if_neg (lt_irrefl 0)]

/-- Replacing an axis by a narrower one, where they have more than one element. -/
theorem stackable_of_narrowed {d b : Dim} {axes : List (Axis Nat)}
    (hd : 0 < d.size ∧ d.size ≤ int64Max) (hb : 0 < b.size ∧ b.size ≤ int64Max)
    (hkept : 1 < b.size → 1 < d.size ∧ d.unsigned.stride ≤ b.unsigned.stride ∧
      (b.unsigned.size - 1) * b.unsigned.stride ≤ (d.unsigned.size - 1) * d.unsigned.stride)
    (h : Stackable (wide (d.unsigned :: axes))) : Stackable (wide (b.unsigned :: axes)) := by
  have hwide {a : Dim} (ha : 0 < a.size ∧ a.size ≤ int64Max) :
      1 < a.unsigned.size ↔ 1 < a.size := by
    rw [unsigned_size ha]
    change 1 < a.size.toNat ↔ _
    omega
  by_cases hmany : 1 < b.size
  · obtain ⟨hdmany, hstride, hextent⟩ := hkept hmany
    rw [wide_cons_of_lt ((hwide hd).2 hdmany)] at h
    rw [wide_cons_of_lt ((hwide hb).2 hmany)]
    exact h.narrow hstride hextent
  · rw [wide_cons_of_le (Nat.not_lt.1 fun hlt => hmany ((hwide hb).1 hlt))]
    by_cases hdmany : 1 < d.unsigned.size
    · rw [wide_cons_of_lt hdmany] at h
      exact h.tail
    · rwa [wide_cons_of_le (Nat.not_lt.1 hdmany)] at h

/-- A slice keeps the axes stacked. -/
theorem TensorImpl.Stacks.sliced (ht : t.Stacks) {dim : Nat} {start stop : Option Int}
    {step : Int} (hnarrows : (ViewOp.slice dim start stop step).Narrows)
    (h : t.slice S subview dim start stop step = .ok r) : r.Stacks := by
  obtain ⟨hstart, hstop, hstep⟩ := hnarrows
  obtain ⟨d, offset, hd, hstep1, rfl, h⟩ := slice_ok h
  generalize hb : (⟨sliceSize (sliceFirst d.size start) (sliceLast d.size stop) step,
    wrapI64 (d.stride * step)⟩ : Dim) = b at h
  obtain ⟨hlt, hget⟩ := List.getElem?_eq_some_iff.1 hd
  have hmem := List.mem_of_getElem? hd
  have hold : t.sizesAndStrides.Perm (d :: t.sizesAndStrides.eraseIdx dim) := by
    rw [← hget]
    exact (List.getElem_cons_eraseIdx_perm hlt).symm
  have hnew : (t.sizesAndStrides.set dim b).Perm (b :: t.sizesAndStrides.eraseIdx dim) :=
    List.set_perm_cons_eraseIdx hlt b
  generalize t.sizesAndStrides.eraseIdx dim = rest at hold hnew
  have hcheck := (retain_ok h).2.2
  rw [elementCount_perm hnew] at hcheck
  have hbsize : b.size = sliceSize (sliceFirst d.size start) (sliceLast d.size stop) step :=
    hb ▸ rfl
  refine stacks_of_retain h (fun a ha => ?_) fun hne => ?_
  · rcases List.mem_cons.1 (hnew.mem_iff.1 ha) with rfl | ha
    · rw [hbsize]
      exact sliceSize_inInt64 _ _ (by omega)
    · exact ht.sizes a (hold.mem_iff.2 (List.mem_cons_of_mem d ha))
  · rw [elementCount_perm hnew] at hne
    obtain ⟨hnonneg, hbound, -⟩ := hcheck hne
    rw [elementCount_cons] at hne
    have hrest := right_ne_zero_of_mul hne
    have hnonempty : elementCount t.sizesAndStrides ≠ 0 := by
      rw [elementCount_perm hold, elementCount_cons]
      refine Nat.mul_ne_zero (fun hzero => left_ne_zero_of_mul hne ?_) hrest
      rw [hbsize, sliceSize_of_empty (ht.sizes d hmem) hzero]
      rfl
    have hlayout := ht.interleaved hnonempty
    have hstackable := hlayout.stackable.perm (wide_perm (unsignedAxes_perm hold))
    have hsize := hlayout.sizes d hmem
    have hstride := hlayout.strides d hmem
    rw [unsignedAxes_cons] at hstackable
    have hpos : 1 < d.size → 0 < d.stride := by
      intro hwide
      have hunsigned : 1 < d.unsigned.size := by
        rw [unsigned_size hsize]
        change 1 < d.size.toNat
        omega
      rw [wide_cons_of_lt hunsigned] at hstackable
      have := hstackable.stride_pos _ List.mem_cons_self
      have hnn := hlayout.nonneg d hmem hwide
      change 0 < toU64 d.stride at this
      rw [toU64_of_nonneg hnn hstride.2] at this
      omega
    have hextent : (d.unsigned.size - 1) * d.unsigned.stride < 2 ^ 64 := by
      have := hlayout.extent_lt
      rw [extent_perm (unsignedAxes_perm hold), unsignedAxes_cons, extent_cons] at this
      omega
    have hbextent : ((b.unsigned.size - 1) * b.unsigned.stride : Nat) ≤ int64Max := by
      rw [extent_perm (unsignedAxes_perm hnew), unsignedAxes_cons, extent_cons] at hbound
      omega
    obtain ⟨hbpos, hbmax, hkept⟩ := slice_narrows hsize hstride hpos hextent hstart hstop
      ⟨by omega, hstep.2⟩ hb.symm (left_ne_zero_of_mul hne)
      (hnonneg b (hnew.mem_iff.2 List.mem_cons_self)) hbextent
    refine ⟨fun a ha => ?_, ?_⟩
    · rcases List.mem_cons.1 (hnew.mem_iff.1 ha) with rfl | ha
      · exact ⟨hbpos, hb ▸ wrapI64_inInt64 _⟩
      · have ha := hold.mem_iff.2 (List.mem_cons_of_mem d ha)
        exact ⟨(hlayout.sizes a ha).1, hlayout.strides a ha⟩
    · refine Stackable.perm ?_ (wide_perm (unsignedAxes_perm hnew.symm))
      rw [unsignedAxes_cons]
      exact stackable_of_narrowed hsize ⟨hbpos, hbmax⟩ hkept hstackable

end Retained

section View

/-- Dimensions whose residues are packed are packed where they have more than one
element. -/
theorem wide_of_packed {dims : List Dim} {b : Nat} {run : List Nat} (hpos : ∀ n ∈ run, 0 < n)
    (h : residues dims = packedAxes (b : Offset) run) (hfit : (run.prod - 1) * b < 2 ^ 64) :
    wide (unsignedAxes dims) = wide (packedAxes b run) := by
  induction run generalizing dims b with
  | nil =>
      obtain rfl := List.map_eq_nil_iff.1 h
      rfl
  | cons n run ih =>
      obtain ⟨d, dims, rfl, hd, hrest⟩ := List.map_eq_cons_iff.1 h
      have hpos' := fun m hm => hpos m (List.mem_cons_of_mem n hm)
      have hn := hpos n List.mem_cons_self
      have hprod : 0 < run.prod := List.prod_pos hpos'
      rw [Dim.residue, Axis.mk.injEq] at hd
      obtain ⟨hsize, hstride⟩ := hd
      rw [List.prod_cons] at hfit
      have hnext : residues dims = packedAxes ((n * b : Nat) : Offset) run := by
        rw [Nat.cast_mul, ← nsmul_eq_mul]
        exact hrest
      have hle : (run.prod - 1) * (n * b) ≤ (n * run.prod - 1) * b := by
        rw [← Nat.mul_assoc, Nat.sub_mul, Nat.one_mul, Nat.mul_comm run.prod]
        exact Nat.mul_le_mul_right b (by omega)
      have htail := ih hpos' hnext (Nat.lt_of_le_of_lt hle hfit)
      rw [unsignedAxes_cons, packedAxes, smul_eq_mul]
      rcases Nat.eq_or_lt_of_le hn with hone | hmany
      · rw [wide_cons_of_le (show toU64 d.size ≤ 1 by omega),
          wide_cons_of_le (show n ≤ 1 by omega), htail]
      · have hb : b ≤ (n * run.prod - 1) * b := by
          refine Nat.le_mul_of_pos_left b ?_
          have := Nat.le_mul_of_pos_right n hprod
          omega
        have hstored : toU64 d.stride = b := by
          rw [← natCast_offset_inj (toU64_lt _) (Nat.lt_of_le_of_lt hb hfit), natCast_toU64]
          exact hstride
        have haxis : d.unsigned = ⟨n, b⟩ := by rw [Dim.unsigned, hsize, hstored]
        rw [haxis, wide_cons_of_lt (show 1 < n from hmany),
          wide_cons_of_lt (show 1 < n from hmany), htail]

/-- Packing chunks keeps them stacked. -/
theorem stackable_of_packs {chunks : List (Axis Int)} {out : List Dim} {axes : List (Axis Nat)}
    (hpacks : Packs (chunkResidues chunks) (residues out))
    (hpos : ∀ d ∈ out, toU64 d.size ≠ 0) (hnonneg : ∀ a ∈ chunks, 0 ≤ a.stride)
    (hfit : extent (natAxes chunks) < 2 ^ 64)
    (h : Stackable (wide (natAxes chunks) ++ axes)) :
    Stackable (wide (unsignedAxes out) ++ axes) := by
  generalize hchunks : chunkResidues chunks = packed at hpacks
  generalize hout : residues out = split at hpacks
  induction hpacks generalizing chunks out axes with
  | nil =>
      obtain rfl := List.map_eq_nil_iff.1 hout
      obtain rfl := List.map_eq_nil_iff.1 hchunks
      exact h
  | cons s run hrest ih =>
      obtain ⟨a, chunks, rfl, ha, hchunks⟩ := List.map_eq_cons_iff.1 hchunks
      obtain ⟨inner, outer, rfl, hinner, houter⟩ := List.map_eq_append_iff.1 hout
      rw [Axis.mk.injEq] at ha
      obtain ⟨hsize, hstride⟩ := ha
      have hnn := hnonneg a List.mem_cons_self
      have hbase : ((a.stride.toNat : Nat) : Offset) = s := by
        rw [← hstride, ← Int.cast_natCast, Int.toNat_of_nonneg hnn]
      have hrun : ∀ n ∈ run, 0 < n := by
        intro n hn
        have hn : n ∈ StridedSpace.sizes (residues inner) := by
          rw [residues, hinner, sizes_packedAxes]
          exact hn
        rw [sizes_residues] at hn
        obtain ⟨d, hd, rfl⟩ := List.mem_map.1 hn
        exact Nat.pos_of_ne_zero (hpos d (List.mem_append_left _ hd))
      rw [natAxes_cons, extent_cons] at hfit
      dsimp only at hfit
      have hinner' : residues inner = packedAxes ((a.stride.toNat : Nat) : Offset) run := by
        rw [hbase]
        exact hinner
      have hwide := wide_of_packed hrun hinner' (by rw [← hsize]; omega)
      have hhead : Stackable (wide [⟨run.prod, a.stride.toNat⟩] ++
          (wide (natAxes chunks) ++ axes)) := by
        rw [← List.append_assoc, ← wide_append, ← hsize]
        exact h
      have hsplit : Stackable (wide (natAxes chunks) ++
          (wide (packedAxes a.stride.toNat run) ++ axes)) := by
        refine (Stackable.packed hrun hhead).perm ?_
        rw [← List.append_assoc, ← List.append_assoc]
        exact List.perm_append_comm.append_right axes
      have hdone := ih (fun d hd => hpos d (List.mem_append_right _ hd))
        (fun b hb => hnonneg b (List.mem_cons_of_mem a hb)) (by omega) hsplit hchunks houter
      rw [unsignedAxes_append, wide_append, hwide, List.append_assoc]
      refine hdone.perm ?_
      rw [← List.append_assoc, ← List.append_assoc]
      exact List.perm_append_comm.append_right axes

/-- A dimension that continues an axis is merged into it. -/
theorem stackable_continues (rest : List (Axis Nat)) {d : Dim} {base : Int} {count : Nat}
    {axes : List (Axis Nat)}
    (hcount : 0 < count) (hbase : 0 ≤ base) (hsize : 0 < d.size ∧ d.size ≤ int64Max)
    (hstride : 0 ≤ d.stride ∧ d.stride ≤ int64Max)
    (hcontinues : d.size = 1 ∨ d.stride = count * base) (haxes : ∀ a ∈ axes, 1 < a.size) :
    extent (⟨count, base.toNat⟩ :: d.unsigned :: rest) =
        extent (⟨count * toU64 d.size, base.toNat⟩ :: rest) ∧
      (Stackable (wide (⟨count, base.toNat⟩ :: d.unsigned :: rest) ++ axes) →
        Stackable (wide (⟨count * toU64 d.size, base.toNat⟩ :: rest) ++ axes)) := by
  have hu := toU64_of_nonneg hsize.1.le hsize.2
  by_cases hone : d.size = 1
  · have hunit : toU64 d.size = 1 := by
      rw [hone]
      rfl
    have hd : d.unsigned.size = 1 := hunit
    rw [hunit, Nat.mul_one, extent_cons, extent_cons, extent_cons, hd, Nat.sub_self,
      Nat.zero_mul, Nat.zero_add]
    refine ⟨rfl, fun h => ?_⟩
    rw [← List.singleton_append, wide_append, wide_cons_of_le hd.le] at h
    rwa [← List.singleton_append, wide_append]
  · have hexact := hcontinues.resolve_left hone
    obtain ⟨b, rfl⟩ : ∃ b : Nat, base = b := ⟨base.toNat, (Int.toNat_of_nonneg hbase).symm⟩
    obtain ⟨n, hn⟩ : ∃ n : Nat, toU64 d.size = n := ⟨_, rfl⟩
    have hmany : 1 < n := by omega
    have hd : d.unsigned = ⟨n, count * b⟩ := by
      have hs := toU64_of_nonneg hstride.1 hstride.2
      rw [Dim.unsigned, hn, hs, hexact, ← Nat.cast_mul, Int.toNat_natCast]
    rw [hd, hn, Int.toNat_natCast]
    have hcons (a : Axis Nat) (ha : 1 < a.size) (xs : List (Axis Nat)) :
        wide (a :: xs) ++ axes = a :: (wide xs ++ axes) := by
      rw [wide_cons_of_lt ha]
      rfl
    have hwide : ∀ a ∈ wide rest ++ axes, 1 < a.size := by
      intro a ha
      rcases List.mem_append.1 ha with ha | ha
      · exact (mem_wide.1 ha).2
      · exact haxes a ha
    constructor
    · obtain ⟨k, rfl⟩ := Nat.exists_eq_succ_of_ne_zero hcount.ne'
      obtain ⟨l, rfl⟩ : ∃ l, n = l + 1 := ⟨n - 1, by omega⟩
      have hprod : (k + 1) * (l + 1) - 1 = k + l * (k + 1) := by
        rw [Nat.mul_succ, Nat.mul_comm (k + 1) l]
        omega
      simp only [extent_cons, Nat.succ_eq_add_one, Nat.add_sub_cancel, hprod]
      ring
    · intro h
      have hboth : 1 < count * n := Nat.lt_of_lt_of_le hmany (Nat.le_mul_of_pos_left _ hcount)
      rw [hcons _ hboth]
      rcases Nat.eq_or_lt_of_le hcount with hfirst | hmore
      · obtain rfl : count = 1 := hfirst.symm
        rw [wide_cons_of_le le_rfl, hcons _ hmany, Nat.one_mul] at h
        rwa [Nat.one_mul]
      · rw [hcons _ hmore, hcons _ hmany] at h
        exact h.merge hmore hmany hwide

/-- The next dimension continues the chunk exactly: a product out of range would wrap
to a negative stride. -/
theorem exact_of_continues {base : Int} {count : Nat} {b : Dim} {dims : List Dim}
    (hends : ¬ chunkEnds base (wrapI64 count) (b :: dims) = true)
    (hbase : 0 ≤ base ∧ base ≤ int64Max) (hstride : 0 ≤ b.stride)
    (hfit : ((count - 1 : Nat) * base : Int) ≤ int64Max) :
    b.size = 1 ∨ b.stride = count * base := by
  rw [chunkEnds, decide_eq_true_iff, not_and_or, not_not, not_not] at hends
  refine hends.imp_right fun heq => ?_
  have hwrap : wrapI64 (wrapI64 count * base) = wrapI64 (count * base) := by
    rw [wrapI64_eq_iff, Int.cast_mul, Int.cast_mul, intCast_wrapI64]
  rw [hwrap] at heq
  have hprod : (count * base : Int) ≤ 2 ^ 64 - 2 := by
    have hstep : (count * base : Int) ≤ (count - 1 : Nat) * base + base := by
      rcases Nat.eq_zero_or_pos count with rfl | hpos
      · simpa using hbase.1
      · obtain ⟨k, rfl⟩ := Nat.exists_eq_succ_of_ne_zero hpos.ne'
        rw [Nat.succ_sub_one, Nat.succ_eq_add_one, Nat.cast_add, Nat.cast_one, add_mul, one_mul]
    obtain ⟨-, hmax⟩ := hbase
    unfold int64Max at *
    omega
  have hnonneg : (0 : Int) ≤ count * base := Int.mul_nonneg (Int.natCast_nonneg _) hbase.1
  generalize (count * base : Int) = x at heq hprod hnonneg ⊢
  by_cases hin : x ≤ int64Max
  · rwa [wrapI64_eq_self ⟨le_trans (by decide) hnonneg, hin⟩] at heq
  · lift x to Nat using hnonneg
    have hneg := wrapI64_natCast_neg (Int.not_le.1 hin) (by omega)
    rw [← heq] at hneg
    omega

/-- The chunks of stacked dimensions are stacked. -/
theorem stackable_viewChunks {d : Dim} {dims : List Dim} {base : Int} {count : Nat}
    {axes : List (Axis Nat)} (hcount : 0 < count) (hbase : 0 ≤ base ∧ base ≤ int64Max)
    (hsizes : ∀ b ∈ d :: dims, 0 < b.size ∧ b.size ≤ int64Max)
    (hstrides : ∀ b ∈ d :: dims, 0 ≤ b.stride ∧ b.stride ≤ int64Max)
    (hcontinues : d.size = 1 ∨ d.stride = count * base)
    (hfit : (extent (⟨count, base.toNat⟩ :: unsignedAxes (d :: dims)) : Int) ≤ int64Max)
    (haxes : ∀ a ∈ axes, 1 < a.size)
    (h : Stackable (wide (⟨count, base.toNat⟩ :: unsignedAxes (d :: dims)) ++ axes)) :
    extent (natAxes (viewChunks (d :: dims) base count)) =
        extent (⟨count, base.toNat⟩ :: unsignedAxes (d :: dims)) ∧
      (∀ a ∈ viewChunks (d :: dims) base count, 0 ≤ a.stride) ∧
      Stackable (wide (natAxes (viewChunks (d :: dims) base count)) ++ axes) := by
  induction dims generalizing d base count axes with
  | nil =>
      obtain ⟨hextent, hmerged⟩ := stackable_continues [] hcount hbase.1
        (hsizes d List.mem_cons_self) (hstrides d List.mem_cons_self) hcontinues haxes
      refine ⟨hextent.symm, ?_, hmerged h⟩
      intro a ha
      obtain rfl := List.mem_singleton.1 ha
      exact hbase.1
  | cons b dims ih =>
      have hsizes' := fun c hc => hsizes c (List.mem_cons_of_mem d hc)
      have hstrides' := fun c hc => hstrides c (List.mem_cons_of_mem d hc)
      have hsize := hsizes d List.mem_cons_self
      obtain ⟨hextent, hmerged⟩ := stackable_continues (unsignedAxes (b :: dims)) hcount
        hbase.1 hsize (hstrides d List.mem_cons_self) hcontinues haxes
      have hnext : 0 < count * toU64 d.size :=
        Nat.mul_pos hcount (Nat.pos_of_ne_zero (toU64_size_ne_zero hsize))
      have hstacked := hmerged h
      rw [unsignedAxes_cons d, hextent] at hfit ⊢
      rw [viewChunks]
      generalize count * toU64 d.size = n at hfit hnext hstacked ⊢
      split <;> rename_i hends
      · have hb := hstrides' b List.mem_cons_self
        have hfirst : b.size = 1 ∨ b.stride = (1 : Nat) * b.stride :=
          .inr (by rw [Nat.cast_one, Int.one_mul])
        have hdone : ∀ a ∈ wide [⟨n, base.toNat⟩] ++ axes, 1 < a.size := by
          intro a ha
          rcases List.mem_append.1 ha with ha | ha
          · exact (mem_wide.1 ha).2
          · exact haxes a ha
        have hrest : Stackable (wide (⟨1, b.stride.toNat⟩ :: unsignedAxes (b :: dims)) ++
            (wide [⟨n, base.toNat⟩] ++ axes)) := by
          rw [wide_cons_of_le (le_refl 1)]
          refine hstacked.perm ?_
          rw [← List.singleton_append, wide_append, ← List.append_assoc]
          exact List.perm_append_comm.append_right axes
        have hfit' : (extent (⟨1, b.stride.toNat⟩ :: unsignedAxes (b :: dims)) : Int) ≤
            int64Max := by
          rw [extent_cons] at hfit ⊢
          dsimp only at hfit ⊢
          omega
        obtain ⟨hspan, hnonneg, hchunks⟩ :=
          ih Nat.one_pos hb hsizes' hstrides' hfirst hfit' hdone hrest
        refine ⟨?_, ?_, ?_⟩
        · rw [natAxes_cons, extent_cons]
          change _ + extent (natAxes (viewChunks (b :: dims) b.stride 1)) = _
          rw [hspan, extent_cons, extent_cons]
          dsimp only
          omega
        · intro a ha
          rcases List.mem_cons.1 ha with rfl | ha
          · exact hbase.1
          · exact hnonneg a ha
        · rw [natAxes_cons, ← List.singleton_append, wide_append]
          refine hchunks.perm ?_
          rw [← List.append_assoc]
          exact List.perm_append_comm.append_right axes
      · have hroom : ((n - 1 : Nat) * base : Int) ≤ int64Max := by
          rw [extent_cons] at hfit
          dsimp only at hfit
          rw [← Int.toNat_of_nonneg hbase.1, ← Nat.cast_mul]
          omega
        exact ih hnext hbase hsizes' hstrides' (exact_of_continues hends hbase
          (hstrides' b List.mem_cons_self).1 hroom) hfit haxes hstacked

variable {S : SimdTarget T} {subview : Subview T} {t r : TensorImpl T}

/-- C-order strides of a shape without zeros are stacked. -/
theorem stackable_contiguousDims {newDims : List Nat} (hpos : ∀ n ∈ newDims, 0 < n)
    (hstored : ∀ n ∈ newDims, (n : Int) ≤ int64Max) (hfit : newDims.prod < 2 ^ 64) :
    Stackable (wide (unsignedAxes (contiguousDims (storedSizes newDims)))) := by
  have hres := residues_contiguousDims hstored
  rw [← Nat.cast_one] at hres
  have hpos' : ∀ n ∈ newDims.reverse, 0 < n := fun n hn => hpos n (List.mem_reverse.1 hn)
  have hwide := wide_of_packed hpos' hres (by
    rw [List.prod_reverse, Nat.mul_one]
    omega)
  have hone : Stackable (wide [⟨newDims.reverse.prod, 1⟩] ++ []) := by
    by_cases hmany : 1 < newDims.reverse.prod
    · rw [wide_cons_of_lt (show 1 < newDims.reverse.prod from hmany)]
      exact ⟨_, List.Perm.refl _, Nat.one_pos, trivial⟩
    · rw [wide_cons_of_le (show newDims.reverse.prod ≤ 1 from Nat.not_lt.1 hmany)]
      exact stackable_nil
  have hpacked := Stackable.packed hpos' hone
  rw [List.append_nil, ← hwide] at hpacked
  exact hpacked.perm (wide_perm (unsignedAxes_perm (List.reverse_perm _)))

/-- Strides that the walk finds for stacked dimensions are stacked. -/
theorem TensorImpl.Stacks.regrouped (ht : t.Stacks) (hwindow : t.Windowed S)
    (hne : t.numel ≠ 0) {newDims : List Nat} (hcount : newDims.prod = t.numel)
    (hcontig : t.contiguous = false) {dims : List Dim}
    (h : t.computeViewStrides newDims = .ok (some dims)) :
    dims.map Dim.size = storedSizes newDims ∧ (∀ d ∈ dims, InInt64 d.stride) ∧
      Stackable (wide (unsignedAxes dims)) := by
  have hstored := Readable.stored_of_computeViewStrides h
  have hpos := Readable.newDims_pos hne hcount
  have hnonempty : elementCount t.sizesAndStrides ≠ 0 := hwindow.numel_eq ▸ hne
  have hlayout := ht.interleaved hnonempty
  obtain ⟨hnonneg, hbound⟩ := ht.checked hcontig hnonempty
  obtain ⟨d, rest, hdims⟩ := hwindow.cached.exists_reverse hcontig
  have hperm : (d :: rest).Perm t.sizesAndStrides := hdims ▸ List.reverse_perm _
  have hsizes : ∀ b ∈ d :: rest, 0 < b.size ∧ b.size ≤ int64Max := fun b hb =>
    hlayout.sizes b (hperm.mem_iff.1 hb)
  have hstrides : ∀ b ∈ d :: rest, 0 ≤ b.stride ∧ b.stride ≤ int64Max := fun b hb =>
    ⟨hnonneg b (hperm.mem_iff.1 hb), (hlayout.strides b (hperm.mem_iff.1 hb)).2⟩
  have hnumel : elementCount (d :: rest) = t.numel := by
    rw [elementCount_perm hperm, hwindow.numel_eq]
  have hlt : t.numel < 2 ^ 64 := hwindow.numel_eq ▸ hwindow.count_lt
  rw [computeViewStrides_strided hne hcontig hstored hdims, Except.ok.injEq,
    Option.map_eq_some_iff] at h
  obtain ⟨out, hout, rfl⟩ := h
  obtain ⟨-, hmap, hstored', hpacks⟩ := viewStridesLoop_some
    (fun n hn => ⟨hpos n (List.mem_reverse.1 hn), hstored n (List.mem_reverse.1 hn)⟩)
    (by rw [List.prod_reverse, hcount]; exact hlt)
    (fun b hb => toU64_size_ne_zero (hsizes b hb)) Nat.one_pos
    (by rw [Nat.one_mul, hnumel]; exact hlt) hout
  have hfirst : d.size = 1 ∨ d.stride = (1 : Nat) * d.stride :=
    .inr (by rw [Nat.cast_one, Int.one_mul])
  have hspan : extent (⟨1, d.stride.toNat⟩ :: unsignedAxes (d :: rest)) =
      extent (unsignedAxes t.sizesAndStrides) := by
    rw [extent_cons, Nat.sub_self, Nat.zero_mul, Nat.zero_add,
      extent_perm (unsignedAxes_perm hperm)]
  have hstart : Stackable (wide (⟨1, d.stride.toNat⟩ :: unsignedAxes (d :: rest)) ++ []) := by
    rw [wide_cons_of_le (le_refl 1), List.append_nil]
    exact hlayout.stackable.perm (wide_perm (unsignedAxes_perm hperm.symm))
  obtain ⟨hextent, hbases, hchunks⟩ := stackable_viewChunks Nat.one_pos
    (hstrides d List.mem_cons_self) hsizes hstrides hfirst (hspan ▸ hbound)
    (List.forall_mem_nil _) hstart
  refine ⟨?_, fun b hb => hstored' b (List.mem_reverse.1 hb), ?_⟩
  · rw [List.map_reverse, hmap, storedSizes, List.map_reverse, List.reverse_reverse]
  have hsizesNew : ∀ b ∈ out, toU64 b.size ≠ 0 := by
    intro b hb
    have hmem : b.size ∈ storedSizes newDims.reverse := hmap ▸ List.mem_map_of_mem hb
    obtain ⟨n, hn, hsize⟩ := List.mem_map.1 hmem
    have := hpos n (List.mem_reverse.1 hn)
    rw [← hsize, toU64_stored (hstored n (List.mem_reverse.1 hn))]
    omega
  have hstacked := stackable_of_packs hpacks hsizesNew hbases
    (by rw [hextent, hspan]; exact hlayout.extent_lt) hchunks
  rw [List.append_nil] at hstacked
  exact hstacked.perm (wide_perm (unsignedAxes_perm (List.reverse_perm out).symm))

theorem TensorImpl.Stacks.viewed (ht : t.Stacks) (hwindow : t.Windowed S) {newDims : List Nat}
    (h : t.viewAs S newDims = .ok r) : r.Stacks := by
  obtain ⟨htotal, dims, hstrides, h⟩ := viewAs_ok h
  obtain ⟨hcount, hlt⟩ := computeTotal_ok htotal
  have hstored := Readable.stored_of_computeViewStrides hstrides
  have hpositive : elementCount dims ≠ 0 → dims.map Dim.size = storedSizes newDims →
      ∀ n ∈ newDims, 0 < n := by
    intro hne hsizes n hn
    have hmem : (n : Int) ∈ dims.map Dim.size := hsizes ▸ List.mem_map_of_mem hn
    obtain ⟨d, hd, hsize⟩ := List.mem_map.1 hmem
    have hzero := size_ne_zero_of_numel hne d hd
    rw [hsize, toU64_stored (hstored n hn)] at hzero
    exact Nat.pos_of_ne_zero hzero
  have hview : dims.map Dim.size = storedSizes newDims ∧ (elementCount dims ≠ 0 →
      (∀ d ∈ dims, InInt64 d.stride) ∧ Stackable (wide (unsignedAxes dims))) := by
    by_cases hflat : t.numel = 0 ∨ t.rank = 0 ∨ t.contiguous = true
    · obtain ⟨_, -, hdims⟩ := exceptBind_ok.1 hstrides
      rw [if_pos hflat] at hdims
      obtain ⟨dims', hdims', hdims⟩ := exceptBind_ok.1 hdims
      cases hdims
      obtain ⟨rfl, -, -⟩ := makeContiguousSas_ok hdims'
      have hsizes := contiguousDims_sizes (storedSizes newDims)
      exact ⟨hsizes, fun hne => ⟨contiguousDims_inInt64 _,
        stackable_contiguousDims (hpositive hne hsizes) hstored hlt⟩⟩
    · rw [not_or, not_or, Bool.not_eq_true] at hflat
      obtain ⟨hne, -, hcontig⟩ := hflat
      obtain ⟨hsizes, hstacked⟩ := ht.regrouped hwindow hne hcount.symm hcontig hstrides
      exact ⟨hsizes, fun _ => hstacked⟩
  obtain ⟨hsizes, hstacked⟩ := hview
  refine stacks_of_retain h (inInt64_of_stored hsizes hstored) fun hne => ?_
  obtain ⟨hstridesNew, hstackable⟩ := hstacked hne
  refine ⟨fun d hd => ⟨?_, hstridesNew d hd⟩, hstackable⟩
  have hmem : d.size ∈ storedSizes newDims := hsizes ▸ List.mem_map_of_mem hd
  obtain ⟨n, hn, hsize⟩ := List.mem_map.1 hmem
  have := hpositive hne hsizes n hn
  omega

end View

section Run

variable {S : SimdTarget T} {subview : Subview T} {t r : TensorImpl T}

/-- Each operation that repeats no element keeps the axes stacked. -/
theorem ViewOp.apply_stacks {op : ViewOp} (hop : op.Narrows) (ht : t.Stacks)
    (hwindow : t.Windowed S) (h : op.apply S subview t = .ok r) : r.Stacks := by
  cases op with
  | asView => exact ht.permuted h (List.Perm.refl _)
  | t =>
      obtain ⟨d₀, d₁, hdims, h⟩ := TensorImpl.t_ok h
      exact ht.permuted h (hdims ▸ List.Perm.swap _ _ _)
  | permute order =>
      obtain ⟨hlen, dims, hloop, h⟩ := TensorImpl.permute_ok h
      obtain ⟨hmap, hnodup, hlt⟩ := permuteLoop_ok hloop
      have hperm := perm_range_of_nodup hlen hnodup fun axis hmem => (hlt axis hmem).1
      have hsome : (dims.map some).Perm (t.sizesAndStrides.map some) := by
        rw [hmap, ← map_range_getElem? t.sizesAndStrides]
        exact hperm.map _
      exact ht.permuted h ((List.map_perm_map_iff (Option.some_injective _)).1 hsome).symm
  | view newDims => exact ht.viewed hwindow h
  | expand newDims => exact hop.elim
  | broadcastTo newDims => exact hop.elim
  | squeeze =>
      obtain ⟨hcount, hwide⟩ := squeeze_rearranges t.sizesAndStrides
      exact ht.rearranged h hcount (fun d hd => .inl (List.mem_of_mem_filter hd))
        (hwide ▸ List.Perm.refl _)
  | squeezeDim dim =>
      obtain ⟨d, hd, h⟩ := TensorImpl.squeezeDim_ok h
      by_cases hone : d.size = 1
      · rw [if_neg (not_not.2 hone)] at h
        obtain ⟨hlt, hget⟩ := List.getElem?_eq_some_iff.1 hd
        refine ht.dropped h hone ?_
        rw [← hget]
        exact (List.getElem_cons_eraseIdx_perm hlt).symm
      · rw [if_pos hone] at h
        exact ht.permuted h (List.Perm.refl _)
  | unsqueeze dim =>
      obtain ⟨hdim, h⟩ := TensorImpl.unsqueeze_ok h
      refine ht.added h rfl ?_ (List.perm_insertIdx _ _ hdim)
      cases t.sizesAndStrides[dim]? with
      | none => exact (show InInt64 1 by decide)
      | some d => exact wrapI64_inInt64 _
  | slice dim start stop step => exact ht.sliced hop h

theorem applyViews_stacks {ops : List ViewOp} (hops : ∀ op ∈ ops, op.Narrows) (ht : t.Stacks)
    (hwindow : t.Windowed S) (h : applyViews S subview t ops = .ok r) :
    r.Stacks ∧ r.Windowed S := by
  induction ops generalizing t with
  | nil =>
      cases h
      exact ⟨ht, hwindow⟩
  | cons op ops ih =>
      obtain ⟨next, hnext, h⟩ := exceptBind_ok.1 h
      obtain ⟨view, dims, hret⟩ := op.apply_retain hnext
      exact ih (fun op' hop' => hops op' (List.mem_cons_of_mem op hop'))
        (op.apply_stacks (hops op List.mem_cons_self) ht hwindow hnext) (retain_windowed hret) h

/-- The axes of a packed tensor are stacked. -/
theorem TensorImpl.Packed.stacks (h : t.Packed S)
    (hstrides : ∀ d ∈ t.sizesAndStrides, InInt64 d.stride) : t.Stacks := by
  refine ⟨fun d hd => ⟨le_trans (by decide) (h.sizes d hd).1, (h.sizes d hd).2⟩, fun hne => ?_,
    fun hcontig => ?_⟩
  · have hsizes : ∀ d ∈ t.sizesAndStrides, 0 < d.size ∧ d.size ≤ int64Max := by
      intro d hd
      obtain ⟨hnonneg, hmax⟩ := h.sizes d hd
      have hzero := size_ne_zero_of_numel hne d hd
      rw [toU64_of_nonneg hnonneg hmax] at hzero
      exact ⟨by omega, hmax⟩
    have hprod : t.strided.sizes.prod = elementCount t.sizesAndStrides := by
      rw [elementCount, TensorImpl.strided, StridedRef.sizes, StridedSpace.sizes, List.map_map]
      congr 1
      exact List.map_congr_left fun d hd => (unsigned_size (hsizes d hd)).symm
    have hdescribed := h.windowed.cached.described (fun d hd => (h.sizes d hd).1)
      (hprod ▸ h.windowed.count_lt)
    have hpacked := hdescribed.packed h.contiguous
      (show t.numel ≠ 0 from h.windowed.numel_eq ▸ hne)
    have hstackable := stackable_of_isPacked hpacked (by
      intro a ha
      obtain ⟨d, hd, rfl⟩ := List.mem_map.1 ha
      have := (hsizes d hd).1
      change d.size.toNat ≠ 0
      omega)
    change Stackable (natAxes (wideAxes (t.sizesAndStrides.map Dim.axis))) at hstackable
    have hnonneg : ∀ d ∈ t.sizesAndStrides, 1 < d.size → 0 ≤ d.stride := by
      intro d hd hwide
      have hmem : d.axis ∈ wideAxes (t.sizesAndStrides.map Dim.axis) := by
        refine mem_wideAxes.2 ⟨List.mem_map_of_mem hd, ?_⟩
        change 1 < d.size.toNat
        omega
      have := hstackable.stride_pos _ (List.mem_map_of_mem hmem)
      change 0 < d.stride.toNat at this
      omega
    rw [natAxes_wideAxes hsizes hstrides hnonneg] at hstackable
    exact ⟨hsizes, hstrides, hnonneg, (h.spanned.extent_lt hne).2, hstackable⟩
  · rw [h.contiguous] at hcontig
    cases hcontig

/-- Views of a packed tensor stay writable: after any sequence of the operations that
repeat no element the cached flag is set, and no assignment finds the view to overlap
itself. -/
theorem applyViews_writable {ops : List ViewOp} (hpacked : t.Packed S)
    (hstrides : ∀ d ∈ t.sizesAndStrides, InInt64 d.stride) (hops : ∀ op ∈ ops, op.Narrows)
    (h : applyViews S subview t ops = .ok r) :
    r.nonOverlapping = true ∧ validateDestination r = .ok () := by
  obtain ⟨hstacks, hwindow⟩ := applyViews_stacks hops (hpacked.stacks hstrides) hpacked.windowed h
  have hflag := hstacks.nonOverlapping hwindow.cached
  exact ⟨hflag, if_pos hflag⟩

end Run

namespace ViewInjectivityWitness

open Sample ViewCompositionWitness

/-- Every other column of a matrix, turned around and regrouped. -/
def regrouped : List ViewOp :=
  [.slice 1 (some 1) none 2, .t, .unsqueeze 1, .permute [2, 1, 0], .squeeze, .view [6]]

theorem applyViews_writable_regrouped : ∃ view,
    applyViews fourLanes windowAt matrix regrouped = .ok view ∧
      view.sizesAndStrides = [⟨6, 2⟩] ∧
      view.nonOverlapping = true ∧ validateDestination view = .ok () := by
  have hshape : setShape [3, 4] = .ok [⟨3, 4⟩, ⟨4, 1⟩] := rfl
  have hpacked : matrix.Packed fourLanes := packed_of_setShape hshape rfl (by decide)
  have hnarrows : ∀ op ∈ regrouped, op.Narrows := by
    have hrange : InInt64 1 ∧ InInt64 2 := by decide
    simp [regrouped, ViewOp.Narrows, hrange]
  obtain ⟨view, hview, hdims⟩ : ∃ view,
      applyViews fourLanes windowAt matrix regrouped = .ok view ∧
        view.sizesAndStrides = [⟨6, 2⟩] := ⟨_, rfl, rfl⟩
  exact ⟨view, hview, hdims, applyViews_writable hpacked (by decide) hnarrows hview⟩

end ViewInjectivityWitness

end Vectorization
