/-
The injectivity proof of a layout.  The sorted stride test of the overlap
classifier and the cached flag of a view both decide whether the axes of more
than one element can be stacked; those of a packed layout can.
-/
import Vectorization.OverlapExact
import Vectorization.Tensor

namespace Vectorization

open StridedSpace MachineInteger

variable {T : ElementType}

/-- The axes of more than one element. -/
def wideAxes (dims : List (Axis Int)) : List (Axis Int) :=
  dims.filter fun a => decide (1 < a.size)

theorem mem_wideAxes {dims : List (Axis Int)} {a : Axis Int} :
    a ∈ wideAxes dims ↔ a ∈ dims ∧ 1 < a.size := by
  rw [wideAxes, List.mem_filter, decide_eq_true_iff]

theorem extent_wideAxes (dims : List (Axis Int)) :
    extent (natAxes (wideAxes dims)) = extent (natAxes dims) := by
  rw [wideAxes, natAxes_filter (fun n => decide (1 < n)), extent_filter_one_lt]

theorem natAxes_pairwise {axes : List (Axis Int)}
    (h : axes.Pairwise fun a b => a.stride ≤ b.stride) :
    (natAxes axes).Pairwise fun a b => a.stride ≤ b.stride :=
  List.pairwise_map.2 (h.imp fun hab => Int.toNat_le_toNat hab)

/-- The stride test on sorted axes decides stackability. -/
theorem strideExceedsExtent_iff_stackable {sorted dims : List (Axis Int)}
    (hperm : sorted.Perm (wideAxes dims))
    (hsorted : sorted.Pairwise fun a b => a.stride ≤ b.stride)
    (hnonneg : ∀ a ∈ dims, 1 < a.size → 0 ≤ a.stride) (hfit : extent (natAxes dims) < 2 ^ 64) :
    strideExceedsExtent 0 sorted = true ↔ Stackable (natAxes (wideAxes dims)) := by
  have hmem : ∀ a ∈ sorted, a ∈ dims ∧ 1 < a.size := fun a ha =>
    mem_wideAxes.1 (hperm.mem_iff.1 ha)
  rw [strideExceedsExtent_iff (fun a ha => (hmem a ha).2)
    (fun a ha => hnonneg a (hmem a ha).1 (hmem a ha).2)]
  · refine stacked_iff_stackable (natAxes_pairwise hsorted) (natAxes_perm hperm) ?_
    intro a ha
    obtain ⟨b, hb, rfl⟩ := List.mem_map.1 ha
    exact (mem_wideAxes.1 hb).2
  · rw [extent_perm (natAxes_perm hperm), extent_wideAxes, Nat.zero_add]
    exact hfit

theorem StridedRef.Addressable.isNonOverlapping_iff_stackable {s : StridedRef T}
    (hs : s.Addressable) (hne : s.numel ≠ 0) :
    isNonOverlapping s = true ↔ Stackable (natAxes (wideAxes s.dims)) := by
  have := hs.extent_lt hne
  rw [isNonOverlapping, if_neg hne]
  refine strideExceedsExtent_iff_stackable (overlapAxes_perm s) ?_
    (fun a ha _ => hs.stride_nonneg a ha) (by omega)
  exact List.pairwise_insertionSort _ _

section Tensor

theorem map_axis_filter (dims : List Dim) :
    (dims.filter fun d => decide (1 < d.size)).map Dim.axis =
      wideAxes (dims.map Dim.axis) := by
  rw [wideAxes, List.filter_map]
  congr 1
  refine List.filter_congr fun d _ => ?_
  rw [Function.comp_apply, decide_eq_decide, Dim.axis]
  simp only
  omega

instance : Std.Total fun a b : Axis Int =>
    a.stride < b.stride ∨ (a.stride = b.stride ∧ a.size ≤ b.size) where
  total a b := by omega

instance : IsTrans (Axis Int) fun a b =>
    a.stride < b.stride ∨ (a.stride = b.stride ∧ a.size ≤ b.size) where
  trans a b c := by omega

theorem sortedAxes_pairwise (dims : List Dim) :
    (sortedAxes dims).Pairwise fun a b => a.stride ≤ b.stride := by
  refine (List.pairwise_insertionSort _ _).imp fun {a b} hab => ?_
  omega

/-- The injectivity test of a tensor decides stackability. -/
theorem strideExceedsExtent_sortedAxes {dims : List Dim}
    (hnonneg : ∀ d ∈ dims, 0 ≤ d.stride)
    (hfit : extent (natAxes (dims.map Dim.axis)) < 2 ^ 64) :
    strideExceedsExtent 0 (sortedAxes dims) = true ↔
      Stackable (natAxes (wideAxes (dims.map Dim.axis))) := by
  refine strideExceedsExtent_iff_stackable ?_ (sortedAxes_pairwise dims) ?_ hfit
  · rw [← map_axis_filter]
    exact List.perm_insertionSort _ _
  · intro a ha _
    obtain ⟨d, hd, rfl⟩ := List.mem_map.1 ha
    exact hnonneg d hd

theorem TensorImpl.Cached.nonOverlapping_eq {S : SimdTarget T} {t : TensorImpl T}
    (h : t.Cached S) (hview : t.isView = true) (hne : t.numel ≠ 0) (hrank : t.rank ≠ 0) :
    t.nonOverlapping = strideExceedsExtent 0 (sortedAxes t.sizesAndStrides) := by
  have hfield := congrArg nonOverlapping h
  rw [recompute, if_neg hrank] at hfield
  simp only at hfield
  rw [if_pos ⟨hview, h.numel_eq hrank ▸ hne⟩] at hfield
  exact hfield.symm

end Tensor

section Packed

/-- Walking a packed layout innermost first, the expected stride is one past the
extent so far. -/
theorem stacked_of_isPackedLoop {axes : List (Axis Int)} {expected : Nat}
    (h : isPackedLoop axes expected = true) (hexpected : 0 < expected)
    (hpos : ∀ a ∈ axes, a.size ≠ 0) : Stacked (expected - 1) (natAxes (wideAxes axes)) := by
  induction axes generalizing expected with
  | nil => exact stacked_nil _
  | cons a axes ih =>
      have hne := hpos a List.mem_cons_self
      have hpos' := fun b hb => hpos b (List.mem_cons_of_mem a hb)
      rw [isPackedLoop, if_neg hne] at h
      split at h <;> rename_i hone
      · rw [wideAxes, List.filter_cons_of_neg (by simp [hone])]
        exact ih h hexpected hpos'
      · rw [wideAxes, List.filter_cons_of_pos (by simp; omega), natAxes_cons, stacked_cons]
        split at h <;> rename_i hstride
        · cases h
        · rw [not_not] at hstride
          rw [← Nat.cast_mul] at h
          rw [hstride, Int.toNat_natCast]
          have hmul : expected - 1 + (a.size - 1) * expected = expected * a.size - 1 := by
            obtain ⟨k, hk⟩ := Nat.exists_eq_succ_of_ne_zero hne
            rw [hk, Nat.succ_sub_one, Nat.mul_succ, Nat.mul_comm]
            omega
          have hnext := ih h (Nat.mul_pos hexpected (Nat.pos_of_ne_zero hne)) hpos'
          rw [← hmul] at hnext
          exact ⟨Nat.sub_lt hexpected Nat.one_pos, hnext⟩

theorem stackable_of_isPacked {dims : List (Axis Int)} (h : isPacked dims = true)
    (hpos : ∀ a ∈ dims, a.size ≠ 0) : Stackable (natAxes (wideAxes dims)) := by
  have hstacked := stacked_of_isPackedLoop h Nat.one_pos
    fun a ha => hpos a (List.mem_reverse.1 ha)
  refine ⟨_, ?_, hstacked⟩
  exact natAxes_perm ((List.reverse_perm dims).filter _)

/-- A contiguous layout passes the injectivity test. -/
theorem StridedRef.Described.isNonOverlapping {s : StridedRef T} (h : s.Described)
    (hadr : s.Addressable) (hcontig : s.contiguous = true) :
    Vectorization.isNonOverlapping s = true := by
  by_cases hne : s.numel = 0
  · exact if_pos hne
  · rw [hadr.isNonOverlapping_iff_stackable hne]
    exact stackable_of_isPacked (h.packed hcontig hne) fun a ha =>
      Nat.ne_of_gt (hadr.size_pos hne a ha)

end Packed

end Vectorization
