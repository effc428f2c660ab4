/-
The state of `tensor_impl`: sizes and strides as signed 64-bit values, the data
view and the cached element count, contiguity, injectivity and alignment bounds,
which `recompute_cpu_simd_alignment_state` derives from the geometry.
-/
import Vectorization.ExpressionShape
import Vectorization.SimdTarget

namespace Vectorization

open StridedSpace MachineInteger LoopTiling

variable {T : ElementType}

/-- One dimension of a tensor as stored. -/
structure Dim where
  size : Int
  stride : Int
deriving Repr, DecidableEq

/-- The dimension as an axis of an index space. -/
def Dim.axis (d : Dim) : Axis Int := ⟨d.size.toNat, d.stride⟩

/-- An owning tensor or a view of one. -/
structure TensorImpl (T : ElementType) where
  isView : Bool
  sizesAndStrides : List Dim
  view : DataView T
  alignStart : Nat
  alignEnd : Nat
  numel : Nat
  contiguous : Bool
  nonOverlapping : Bool
deriving Repr, DecidableEq

/-- `first_aligned`: the number of elements before the first one at a multiple of
the SIMD alignment, at most `size`. -/
def firstAligned (S : SimdTarget T) (array size : Nat) : Nat :=
  if S.alignment / T.size ≤ 1 then 0
  else if array &&& (T.size - 1) ≠ 0 then size
  else
    let mask := S.simdAlignSize - 1
    let first := (S.simdAlignSize - (array / T.size &&& mask)) &&& mask
    if first < size then first else size

def lastAligned (alignedStart size packetSize : Nat) : Nat :=
  alignedStart + (size - alignedStart) / packetSize * packetSize

/-- The axes of more than one element, in the order of `std::sort` on
stride-size pairs. -/
def sortedAxes (dims : List Dim) : List (Axis Int) :=
  ((dims.filter fun d => decide (1 < d.size)).map Dim.axis).insertionSort
    fun a b => a.stride < b.stride ∨ (a.stride = b.stride ∧ a.size ≤ b.size)

/-- Sizes with C-order strides, each the product of what follows it in wrapping
arithmetic. -/
def contiguousDims : List Int → List Dim
  | [] => []
  | n :: sizes =>
      match contiguousDims sizes with
      | [] => [⟨n, 1⟩]
      | d :: dims => ⟨n, wrapI64 (d.stride * d.size)⟩ :: d :: dims

/-- The contiguity loop, innermost dimension first. -/
def contiguousLoop : List Dim → Int → Bool
  | [], _ => true
  | d :: dims, expected =>
      if d.size = 1 then contiguousLoop dims expected
      else if d.stride ≠ expected then false
      else contiguousLoop dims (wrapI64 (expected * d.size))

/-- The loop of `logical_offset`, innermost dimension first. -/
def logicalOffsetLoop : List Dim → Nat → Nat → Nat
  | [], off, _ => off
  | d :: dims, off, rem =>
      if toU64 d.size = 0 then 0
      else
        logicalOffsetLoop dims (wrapU64 (off + rem % toU64 d.size * toU64 d.stride))
          (rem / toU64 d.size)

namespace TensorImpl

variable (S : SimdTarget T)

def rank (t : TensorImpl T) : Nat := t.sizesAndStrides.length

def sizes (t : TensorImpl T) : List Int := t.sizesAndStrides.map Dim.size

def data (t : TensorImpl T) : Nat := t.view.data

def device (t : TensorImpl T) : DeviceEnum := t.view.device

def deviceIndex (t : TensorImpl T) : Int := t.view.deviceIndex

/-- The product of the sizes in unsigned 64-bit arithmetic. -/
def totalSize (t : TensorImpl T) : Nat :=
  t.sizesAndStrides.foldl (fun total d => wrapU64 (total * toU64 d.size)) 1

/-- `recompute_cpu_simd_alignment_state`. -/
def recompute (t : TensorImpl T) : TensorImpl T :=
  if t.rank = 0 then
    { t with
      nonOverlapping := true
      numel := 1
      contiguous := true
      alignStart := 0
      alignEnd := 0 }
  else
    let total := t.totalSize
    let nonOverlapping :=
      if t.isView ∧ total ≠ 0 then strideExceedsExtent 0 (sortedAxes t.sizesAndStrides)
      else true
    let contiguous :=
      if total = 0 then true else contiguousLoop t.sizesAndStrides.reverse 1
    let alignStart :=
      if ¬ S.vectorized ∨ t.device ≠ .cpu ∨ total = 0 ∨ ¬ contiguous then 0
      else firstAligned S t.data total
    let alignEnd :=
      if ¬ S.vectorized ∨ t.device ≠ .cpu ∨ total = 0 ∨ ¬ contiguous then 0
      else lastAligned alignStart total S.length
    { t with
      nonOverlapping := nonOverlapping
      numel := total
      contiguous := contiguous
      alignStart := alignStart
      alignEnd := alignEnd }

/-- The element offset of a flat index; the index itself when contiguous. -/
def logicalOffset (t : TensorImpl T) (flat : Nat) : Nat :=
  if t.contiguous then flat else logicalOffsetLoop t.sizesAndStrides.reverse 0 flat

/-- The descriptor of the tensor's layout. -/
def strided (t : TensorImpl T) : StridedRef T where
  view := t.view
  dims := t.sizesAndStrides.map Dim.axis
  numel := t.numel
  contiguous := t.contiguous
  alignStart := t.alignStart
  alignEnd := t.alignEnd

def toStridedRef (t : TensorImpl T) : Except Raise (StridedRef T) :=
  if t.rank ≤ kMaxRank then .ok t.strided else .error (.rankLimit t.rank)

/-- The cached fields are those of the geometry. -/
def Cached (t : TensorImpl T) : Prop := t.recompute S = t

/-- Recomputing brings the fields up to date. -/
theorem recompute_cached (t : TensorImpl T) : (t.recompute S).Cached S := by
  by_cases hrank : t.rank = 0
  · have hrec : (t.recompute S).rank = 0 := by
      rw [recompute, if_pos hrank]
      exact hrank
    rw [Cached, recompute, if_pos hrec, recompute, if_pos hrank]
  · have hrec : (t.recompute S).rank ≠ 0 := by
      rw [recompute, if_neg hrank]
      exact hrank
    rw [Cached, recompute, if_neg hrec, recompute, if_neg hrank]
    rfl

end TensorImpl

section Cached

theorem foldl_totalSize {dims : List Dim} (h : ∀ d ∈ dims, 0 ≤ d.size) (total : Nat) :
    dims.foldl (fun total d => wrapU64 (total * toU64 d.size)) total =
      (sizes (dims.map Dim.axis)).foldl (fun n size => wrapU64 (n * size)) total := by
  induction dims generalizing total with
  | nil => rfl
  | cons d dims ih =>
      have hd : toU64 d.size = wrapU64 d.size.toNat := by
        rw [← toU64_natCast, Int.toNat_of_nonneg (h d List.mem_cons_self)]
      rw [List.foldl_cons, ih fun d' hd' => h d' (List.mem_cons_of_mem d hd'), hd,
        Nat.mul_comm total, wrapU64_wrapU64_mul, Nat.mul_comm _ total]
      rfl

namespace TensorImpl

variable {S : SimdTarget T} {t : TensorImpl T}

theorem totalSize_eq (h : ∀ d ∈ t.sizesAndStrides, 0 ≤ d.size) :
    t.totalSize = wrapU64 t.strided.sizes.prod := by
  rw [← shapeNumel_eq, totalSize, foldl_totalSize h]
  rfl

/-- A checked result shape is the shape of the strided reference. -/
theorem strided_sizes {shape : List Nat} (h : t.sizes = shape.map Nat.cast) :
    t.strided.sizes = shape := by
  have hsizes : t.strided.sizes = t.sizes.map Int.toNat := by
    rw [sizes, List.map_map, StridedRef.sizes, StridedSpace.sizes, strided, List.map_map]
    rfl
  rw [hsizes, h, List.map_map]
  exact List.map_id' shape

theorem sizes_nonneg {shape : List Nat} (h : t.sizes = shape.map Nat.cast) :
    ∀ d ∈ t.sizesAndStrides, 0 ≤ d.size := by
  intro d hd
  have hmem : d.size ∈ t.sizes := List.mem_map_of_mem hd
  rw [h] at hmem
  obtain ⟨n, -, hn⟩ := List.mem_map.1 hmem
  omega

theorem Cached.numel_eq (h : t.Cached S) (hrank : t.rank ≠ 0) :
    t.numel = t.totalSize := by
  have hfield := congrArg numel h
  rw [recompute, if_neg hrank] at hfield
  exact hfield.symm

theorem Cached.contiguous_eq (h : t.Cached S) (hrank : t.rank ≠ 0) :
    t.contiguous =
      if t.numel = 0 then true else contiguousLoop t.sizesAndStrides.reverse 1 := by
  rw [h.numel_eq hrank]
  have hfield := congrArg contiguous h
  rw [recompute, if_neg hrank] at hfield
  exact hfield.symm

end TensorImpl

theorem prod_pos_of_sizes {dims : List Dim} (h : ∀ d ∈ dims, 0 < d.size) :
    0 < (sizes (dims.map Dim.axis)).prod := by
  refine Nat.pos_of_ne_zero fun hzero => ?_
  obtain ⟨a, ha, hsize⟩ := List.mem_map.1 (List.prod_eq_zero_iff.1 hzero)
  obtain ⟨d, hd, rfl⟩ := List.mem_map.1 ha
  have := h d hd
  change d.size.toNat = 0 at hsize
  omega

theorem isPackedLoop_of_ones {axes : List (Axis Int)} (h : ∀ a ∈ axes, a.size = 1)
    (expected : Int) : isPackedLoop axes expected = true := by
  induction axes with
  | nil => rfl
  | cons a axes ih =>
      have ha := h a List.mem_cons_self
      rw [isPackedLoop, if_neg (by omega), if_pos ha]
      exact ih fun b hb => h b (List.mem_cons_of_mem a hb)

/-- What the contiguity loop accepts in one step. -/
theorem contiguousLoop_cons {d : Dim} {dims : List Dim} {expected : Int}
    (h : contiguousLoop (d :: dims) expected = true) :
    (d.size = 1 ∧ contiguousLoop dims expected = true) ∨
      (d.size ≠ 1 ∧ d.stride = expected ∧
        contiguousLoop dims (wrapI64 (expected * d.size)) = true) := by
  rw [contiguousLoop] at h
  split at h <;> rename_i hone
  · exact Or.inl ⟨hone, h⟩
  · split at h <;> rename_i hstride
    · cases h
    · exact Or.inr ⟨hone, not_not.1 hstride, h⟩

/-- The contiguity loop accepts packed layouts only: where the expected stride wraps,
nothing but dimensions of one element is left. -/
theorem contiguousLoop_isPackedLoop {dims : List Dim} {expected : Int}
    (hpos : ∀ d ∈ dims, 0 < d.size) (hexpected : 0 < expected) (hint : expected ≤ int64Max)
    (hfit : expected * ((sizes (dims.map Dim.axis)).prod : Nat) < 2 ^ 64)
    (h : contiguousLoop dims expected = true) :
    isPackedLoop (dims.map Dim.axis) expected = true := by
  induction dims generalizing expected with
  | nil => rfl
  | cons d dims ih =>
      have hd := hpos d List.mem_cons_self
      have hpos' := fun d' hd' => hpos d' (List.mem_cons_of_mem d hd')
      have hcast : ((d.size.toNat : Nat) : Int) = d.size := Int.toNat_of_nonneg (by omega)
      rw [List.map_cons, sizes_cons, List.prod_cons, Nat.cast_mul] at hfit
      change expected * ((d.size.toNat : Nat) * _) < _ at hfit
      rw [hcast, ← Int.mul_assoc] at hfit
      rw [List.map_cons, isPackedLoop]
      change (if d.size.toNat = 0 then true else if d.size.toNat = 1 then _ else
        if d.stride ≠ expected then false else isPackedLoop _ (expected * (d.size.toNat : Nat)))
          = true
      rw [if_neg (by omega)]
      rcases contiguousLoop_cons h with ⟨hone, h⟩ | ⟨hone, hstride, h⟩
      · rw [if_pos (by omega)]
        rw [hone, Int.mul_one] at hfit
        exact ih hpos' hexpected hint hfit h
      · rw [if_neg (by omega)]
        have hnext : 0 < expected * d.size := Int.mul_pos hexpected hd
        rw [if_neg (not_not.2 hstride), hcast]
        rcases Int.lt_or_le int64Max (expected * d.size) with hlarge | hle
        · refine isPackedLoop_of_ones (fun a ha => ?_) _
          have hprod : (sizes (dims.map Dim.axis)).prod < 2 := by
            by_contra hge
            have htwo : (2 : Int) ≤ (sizes (dims.map Dim.axis)).prod := by
              exact_mod_cast Nat.le_of_not_lt hge
            have hmul := Int.mul_le_mul_of_nonneg_left htwo hnext.le
            unfold int64Max at hlarge
            omega
          have hone := prod_pos_of_sizes hpos'
          have hdvd := List.dvd_prod (List.mem_map_of_mem (f := Axis.size) ha)
          change a.size ∣ (sizes (dims.map Dim.axis)).prod at hdvd
          rw [show (sizes (dims.map Dim.axis)).prod = 1 by omega] at hdvd
          exact Nat.dvd_one.1 hdvd
        · have hmin : int64Min ≤ expected * d.size := by
            refine le_trans ?_ hnext.le
            decide
          rw [wrapI64_eq_self ⟨hmin, hle⟩] at h
          exact ih hpos' hnext hle hfit h

/-- A tensor with up-to-date fields whose elements can be counted is described by its
strided reference. -/
theorem TensorImpl.Cached.described {S : SimdTarget T} {t : TensorImpl T}
    (h : t.Cached S) (hsizes : ∀ d ∈ t.sizesAndStrides, 0 ≤ d.size)
    (hfit : t.strided.sizes.prod < 2 ^ 64) : t.strided.Described := by
  by_cases hrank : t.rank = 0
  · have hdims : t.sizesAndStrides = [] := List.length_eq_zero_iff.1 hrank
    have hnumel : t.numel = 1 := by
      have hfield := congrArg numel h
      rw [recompute, if_pos hrank] at hfield
      exact hfield.symm
    refine ⟨?_, fun _ _ => ?_⟩
    · change t.numel = (StridedSpace.sizes (t.sizesAndStrides.map Dim.axis)).prod
      rw [hnumel, hdims]
      rfl
    · change isPacked (t.sizesAndStrides.map Dim.axis) = true
      rw [hdims]
      rfl
  have hnumel : t.numel = t.strided.sizes.prod := by
    rw [h.numel_eq hrank, totalSize_eq hsizes]
    exact wrapU64_eq_self hfit
  refine ⟨hnumel, fun hcontig hne => ?_⟩
  change t.contiguous = true at hcontig
  change t.numel ≠ 0 at hne
  rw [h.contiguous_eq hrank, if_neg hne] at hcontig
  rw [hnumel] at hne
  have hpos : ∀ d ∈ t.sizesAndStrides, 0 < d.size := by
    intro d hd
    have hne' : d.size.toNat ≠ 0 :=
      size_ne_zero_of_prod hne d.axis (List.mem_map_of_mem hd)
    have := hsizes d hd
    omega
  have hperm : (StridedSpace.sizes (t.sizesAndStrides.reverse.map Dim.axis)).prod =
      t.strided.sizes.prod := by
    rw [List.map_reverse, sizes_reverse, List.prod_reverse]
    rfl
  have := contiguousLoop_isPackedLoop (fun d hd => hpos d (List.mem_reverse.1 hd))
    Int.one_pos (by decide) (by rw [hperm, Int.one_mul]; exact_mod_cast hfit) hcontig
  rwa [List.map_reverse] at this

/-- A tensor with up-to-date fields whose elements fit in memory is described by
its strided reference. -/
theorem TensorImpl.Cached.strided_described {S : SimdTarget T} {t : TensorImpl T}
    (h : t.Cached S) (hsizes : ∀ d ∈ t.sizesAndStrides, 0 ≤ d.size)
    (hfit : (t.strided.sizes.prod : Int) ≤ int64Max) : t.strided.Described := by
  refine h.described hsizes ?_
  unfold int64Max at hfit
  omega

end Cached

section Alignment

/-- Scalar sizes and SIMD alignments are powers of two. -/
theorem SimdTarget.size_pow (S : SimdTarget T) : ∃ k, T.size = 2 ^ k := by
  obtain ⟨n, hn⟩ := S.simdAlign_pow
  obtain ⟨k, -, hk⟩ := (Nat.dvd_prime_pow Nat.prime_two).1 (hn ▸ S.size_dvd_simdAlign)
  exact ⟨k, hk⟩

variable (S : SimdTarget T)

theorem SimdTarget.simdAlignSize_mul : S.simdAlignSize * T.size = S.simdAlign :=
  Nat.div_mul_cancel S.size_dvd_simdAlign

theorem SimdTarget.simdAlignSize_pow : ∃ k, S.simdAlignSize = 2 ^ k := by
  obtain ⟨n, hn⟩ := S.simdAlign_pow
  have hdvd : S.simdAlignSize ∣ 2 ^ n := hn ▸ Dvd.intro _ S.simdAlignSize_mul
  obtain ⟨k, -, hk⟩ := (Nat.dvd_prime_pow Nat.prime_two).1 hdvd
  exact ⟨k, hk⟩

/-- Up to `first_aligned` there is room, and a body that starts there is
aligned. -/
theorem firstAligned_spec (array size : Nat) :
    firstAligned S array size ≤ size ∧
      (firstAligned S array size < size →
        S.simdAlign ∣ array + firstAligned S array size * T.size) := by
  obtain ⟨j, hj⟩ := S.size_pow
  obtain ⟨k, hk⟩ := S.simdAlignSize_pow
  rw [firstAligned, if_neg (Nat.not_le.2 S.one_lt_alignment)]
  split <;> rename_i hmis
  · exact ⟨Nat.le_refl _, fun h => absurd h (Nat.lt_irrefl _)⟩
  rw [not_not, hj, Nat.and_two_pow_sub_one_eq_mod, ← hj] at hmis
  simp only [hk, Nat.and_two_pow_sub_one_eq_mod]
  split <;> rename_i hfirst
  · refine ⟨Nat.le_of_lt hfirst, fun _ => ?_⟩
    have hlt := Nat.mod_lt (array / T.size) (Nat.two_pow_pos k)
    have hdvd : 2 ^ k ∣ array / T.size + (2 ^ k - array / T.size % 2 ^ k) % 2 ^ k := by
      refine Nat.dvd_of_mod_eq_zero ?_
      rw [Nat.add_mod_mod, ← Nat.mod_add_mod, Nat.add_sub_cancel' (Nat.le_of_lt hlt),
        Nat.mod_self]
    have harray : array / T.size * T.size = array :=
      Nat.div_mul_cancel (Nat.dvd_of_mod_eq_zero hmis)
    have := Nat.mul_dvd_mul_right hdvd T.size
    rwa [← hk, S.simdAlignSize_mul, hk, Nat.add_mul, harray] at this
  · exact ⟨Nat.le_refl _, fun h => absurd h (Nat.lt_irrefl _)⟩

/-- The alignment bounds of a tensor with up-to-date fields: a number of whole
registers within its elements, at an aligned address. -/
theorem TensorImpl.Cached.align_spec {S : SimdTarget T} {t : TensorImpl T}
    (h : t.Cached S) : ∃ q, t.alignEnd = t.alignStart + q * S.length ∧
      t.alignStart + q * S.length ≤ t.numel ∧
      (0 < q → S.simdAlign ∣ t.data + t.alignStart * T.size) := by
  have hstart := congrArg alignStart h
  have hend := congrArg alignEnd h
  by_cases hrank : t.rank = 0
  · rw [recompute, if_pos hrank] at hstart hend
    exact ⟨0, by simp [← hstart, ← hend], by simp [← hstart], by simp⟩
  have hnumel := h.numel_eq hrank
  rw [recompute, if_neg hrank] at hstart hend
  simp only at hstart hend
  rw [← hnumel, ← h.contiguous_eq hrank] at hstart hend
  split at hstart <;> rename_i hskip
  · rw [if_pos hskip] at hend
    exact ⟨0, by simp [← hstart, ← hend], by simp [← hstart], by simp⟩
  · rw [if_neg hskip, if_neg hskip, hstart, lastAligned] at hend
    obtain ⟨hle, hdvd⟩ := firstAligned_spec S t.data t.numel
    rw [hstart] at hle hdvd
    refine ⟨(t.numel - t.alignStart) / S.length, hend.symm, add_div_mul_le hle,
      fun hq => hdvd ?_⟩
    have := Nat.div_pos_iff.1 hq
    omega

end Alignment

end Vectorization
