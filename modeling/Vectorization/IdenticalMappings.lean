/-
Identical elementwise mappings.  Two injective layouts that map every multi-index
to the same address have the same strides wherever a dimension takes more than one
step; the classifier compares the strides of single-step dimensions as well.
-/
import Vectorization.OverlapExact
import Vectorization.Foundation.AxisMaps

namespace Vectorization

open StridedSpace MachineInteger

variable {T : ElementType}

/-- Both layouts have one shape and map each multi-index to one address. -/
structure StridedRef.SameMapping (a b : StridedRef T) : Prop where
  sizes_eq : a.sizes = b.sizes
  address_eq : ∀ idx, InBounds idx a.sizes → a.address idx = b.address idx

/-- The dimensions of a single step have the same strides on both sides. -/
def SingleStepStridesAgree (a b : List (Axis Int)) : Prop :=
  List.Forall₂ (fun x y => x.size = 1 → x.stride = y.stride) a b

section Mapping

variable {a b : StridedRef T}

theorem StridedRef.SameMapping.data_eq (h : a.SameMapping b) (ha : a.Addressable)
    (hne : a.numel ≠ 0) : a.data = b.data := by
  have hpos : ∀ n ∈ a.sizes, 0 < n := fun n hn => by
    obtain ⟨x, hx, rfl⟩ := List.mem_map.1 hn
    exact ha.size_pos hne x hx
  have hlen : a.sizes.length = a.dims.length := sizes_length _
  have hlen' : a.sizes.length = b.dims.length := by
    rw [h.sizes_eq]
    exact sizes_length _
  have hzero := h.address_eq _ (inBounds_zeros hpos)
  rw [StridedRef.address, StridedRef.address] at hzero
  conv at hzero =>
    lhs
    rw [hlen]
  rw [hlen', dot_zeros, dot_zeros, Int.zero_mul] at hzero
  omega

theorem StridedRef.SameMapping.dims_eq (h : a.SameMapping b) (ha : a.Addressable)
    (hne : a.numel ≠ 0) (hone : SingleStepStridesAgree a.dims b.dims) : a.dims = b.dims := by
  have hT : (T.size : Int) ≠ 0 := by
    have := T.size_pos
    omega
  have hdata := h.data_eq ha hne
  refine eq_of_dot_eq h.sizes_eq (fun n hn => ?_) (fun idx hidx => ?_) hone
  · obtain ⟨x, hx, rfl⟩ := List.mem_map.1 hn
    exact ha.size_pos hne x hx
  · have := h.address_eq idx hidx
    rwa [StridedRef.address, StridedRef.address, hdata, Int.add_right_inj,
      Int.mul_eq_mul_right_iff hT] at this

/-- An injective mapping seen twice is recognised exactly when the strides of the
single-step dimensions agree too. -/
theorem classifyOverlap_full_iff (ha : a.Addressable) (hna : a.numel ≠ 0) (hda : a.data ≠ 0)
    (hnb : b.numel ≠ 0) (hdev : a.device = b.device) (hindex : a.deviceIndex = b.deviceIndex)
    (hinj : isNonOverlapping a = true) (hmap : a.SameMapping b) :
    classifyOverlap a b = .full ↔ SingleStepStridesAgree a.dims b.dims := by
  have hdata := hmap.data_eq ha hna
  constructor
  · intro hfull
    obtain ⟨-, -, hdims, -⟩ := classifyOverlap_full hfull
    rw [SingleStepStridesAgree, hdims]
    exact List.forall₂_same.2 fun x _ _ => rfl
  · intro hone
    have hdims := hmap.dims_eq ha hna hone
    have hextent : overlapExtent b = overlapExtent a := by
      rw [overlapExtent, overlapExtent, hdims]
    have hfits := ha.fits hna
    have hT := T.size_pos
    have hgrow : 0 < (extent (natAxes a.dims) + 1) * T.size := Nat.mul_pos (Nat.succ_pos _) hT
    have hempty : ¬ (a.numel = 0 ∨ b.numel = 0 ∨ a.data = 0 ∨ b.data = 0 ∨
        a.device ≠ b.device ∨ a.deviceIndex ≠ b.deviceIndex) := by
      rw [← hdata]
      simp [hna, hnb, hda, hdev, hindex]
    have hrange : ¬ (wrapU64 (a.data + (overlapExtent a + 1) * T.size) ≤ b.data ∨
        wrapU64 (b.data + (overlapExtent b + 1) * T.size) ≤ a.data) := by
      rw [hextent, ← hdata, ha.overlapExtent_eq hna, wrapU64_eq_self hfits]
      omega
    simp only [classifyOverlap]
    rw [if_neg hempty, if_neg hrange, if_neg (not_not.2 rfl), if_pos ⟨hdata, hdims, hinj⟩]

end Mapping

namespace IdenticalMappingsWitness

open Sample

/-- The first row of a matrix of four columns, sliced with steps one and two. -/
def row : StridedRef float := cpuRef 4096 [⟨1, 4⟩, ⟨4, 1⟩]

def rowStepTwo : StridedRef float := cpuRef 4096 [⟨1, 8⟩, ⟨4, 1⟩]

theorem sameMapping_rowStepTwo : row.SameMapping rowStepTwo := by
  refine ⟨rfl, fun idx hidx => ?_⟩
  obtain _ | ⟨hi, htail⟩ := hidx
  rename_i i idx
  have : i = 0 := Nat.lt_one_iff.1 hi
  subst this
  rfl

theorem addressable_row : row.Addressable := ⟨by decide, by decide, fun _ => by decide⟩

theorem classifyOverlap_full_iff_row : classifyOverlap row row = .full :=
  (classifyOverlap_full_iff addressable_row (by decide) (by decide) (by decide) rfl rfl
    (by decide) ⟨rfl, fun _ _ => rfl⟩).2 (List.forall₂_same.2 fun _ _ _ => rfl)

/-- The same row under another stride of its single-step dimension is reported as a
partial overlap. -/
theorem classifyOverlap_full_rowStepTwo : ¬ ∀ a b : StridedRef float, a.Addressable →
    b.Addressable → a.numel ≠ 0 → b.numel ≠ 0 → a.data ≠ 0 → a.device = b.device →
    a.deviceIndex = b.deviceIndex → isNonOverlapping a = true → a.SameMapping b →
    classifyOverlap a b = .full := by
  intro h
  have hfull := h row rowStepTwo addressable_row ⟨by decide, by decide, fun _ => by decide⟩
    (by decide) (by decide) (by decide) rfl rfl (by decide) sameMapping_rowStepTwo
  exact absurd hfull (by decide)

end IdenticalMappingsWitness

end Vectorization
