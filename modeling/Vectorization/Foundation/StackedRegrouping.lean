/-
Regrouping of stacked axes.  Stacking survives what narrows an axis or drops it, the
merge of two axes that continue each other and the split of one axis into packed
ones: no other axis fits between two that continue each other.
-/
import Vectorization.Foundation.Regrouping
import Vectorization.Foundation.StackedStrides

namespace StridedSpace

/-- The axes of more than one element. -/
def wide (axes : List (Axis Nat)) : List (Axis Nat) := axes.filter fun a => decide (1 < a.size)

theorem mem_wide {axes : List (Axis Nat)} {a : Axis Nat} :
    a ∈ wide axes ↔ a ∈ axes ∧ 1 < a.size := by
  rw [wide, List.mem_filter, decide_eq_true_iff]

theorem wide_cons_of_le {a : Axis Nat} (h : a.size ≤ 1) (axes : List (Axis Nat)) :
    wide (a :: axes) = wide axes :=
  List.filter_cons_of_neg (by simp [h])

theorem wide_cons_of_lt {a : Axis Nat} (h : 1 < a.size) (axes : List (Axis Nat)) :
    wide (a :: axes) = a :: wide axes :=
  List.filter_cons_of_pos (by simp [h])

@[simp] theorem wide_append (xs ys : List (Axis Nat)) : wide (xs ++ ys) = wide xs ++ wide ys :=
  List.filter_append xs ys

theorem wide_perm {xs ys : List (Axis Nat)} (h : xs.Perm ys) : (wide xs).Perm (wide ys) :=
  h.filter _

theorem stackable_nil : Stackable [] := ⟨[], List.Perm.refl _, trivial⟩

/-- An axis may grow its stride while it keeps within its extent. -/
theorem Stacked.narrow {reach : Nat} {xs ys : List (Axis Nat)} {a b : Axis Nat}
    (h : Stacked reach (xs ++ a :: ys)) (hstride : a.stride ≤ b.stride)
    (hextent : (b.size - 1) * b.stride ≤ (a.size - 1) * a.stride) :
    Stacked reach (xs ++ b :: ys) := by
  obtain ⟨hxs, hlt, hys⟩ := stacked_append.1 h
  exact stacked_append.2 ⟨hxs, Nat.lt_of_lt_of_le hlt hstride,
    hys.mono (Nat.add_le_add_left hextent _)⟩

/-- The place of an axis in a stacking order. -/
theorem Stackable.exists_order {a : Axis Nat} {axes : List (Axis Nat)}
    (h : Stackable (a :: axes)) :
    ∃ xs ys, (xs ++ ys).Perm axes ∧ Stacked 0 (xs ++ a :: ys) := by
  obtain ⟨order, hperm, hstacked⟩ := h
  obtain ⟨xs, ys, rfl⟩ := List.append_of_mem (hperm.mem_iff.2 List.mem_cons_self)
  exact ⟨xs, ys, (List.perm_middle.symm.trans hperm).cons_inv, hstacked⟩

theorem Stackable.narrow {a b : Axis Nat} {axes : List (Axis Nat)} (h : Stackable (a :: axes))
    (hstride : a.stride ≤ b.stride)
    (hextent : (b.size - 1) * b.stride ≤ (a.size - 1) * a.stride) :
    Stackable (b :: axes) := by
  obtain ⟨xs, ys, hperm, hstacked⟩ := h.exists_order
  exact ⟨xs ++ b :: ys, List.perm_middle.trans (hperm.cons b), hstacked.narrow hstride hextent⟩

theorem Stackable.tail {a : Axis Nat} {axes : List (Axis Nat)} (h : Stackable (a :: axes)) :
    Stackable axes := by
  obtain ⟨xs, ys, hperm, hstacked⟩ := h.exists_order
  obtain ⟨hxs, -, hys⟩ := stacked_append.1 hstacked
  exact ⟨xs ++ ys, hperm, stacked_append.2 ⟨hxs, hys.mono (Nat.le_add_right _ _)⟩⟩

theorem Stackable.stride_pos {axes : List (Axis Nat)} (h : Stackable axes) :
    ∀ a ∈ axes, 0 < a.stride := by
  obtain ⟨order, hperm, hstacked⟩ := h
  exact fun a ha => hstacked.reach_lt a (hperm.mem_iff.2 ha)

/-- Two axes that continue each other reach what their merge reaches. -/
theorem stacked_pair {reach m n b : Nat} (hm : 0 < m) (hn : 0 < n) (ys : List (Axis Nat)) :
    Stacked reach (⟨m, b⟩ :: ⟨n, m * b⟩ :: ys) ↔ Stacked reach (⟨m * n, b⟩ :: ys) := by
  obtain ⟨k, rfl⟩ := Nat.exists_eq_succ_of_ne_zero hm.ne'
  obtain ⟨l, rfl⟩ := Nat.exists_eq_succ_of_ne_zero hn.ne'
  have hreach : reach + k * b + l * ((k + 1) * b) = reach + ((k + 1) * (l + 1) - 1) * b := by
    have : (k + 1) * (l + 1) - 1 = k + l * (k + 1) := by
      rw [Nat.mul_succ, Nat.mul_comm (k + 1) l]
      omega
    rw [this]
    ring
  simp only [stacked_cons, Nat.succ_sub_one, Nat.succ_eq_add_one, hreach]
  rw [Nat.succ_mul]
  constructor
  · rintro ⟨hlt, _, hys⟩
    exact ⟨hlt, hys⟩
  · rintro ⟨hlt, hys⟩
    refine ⟨hlt, ?_, hys⟩
    omega

/-- Merging two axes that continue each other; no other axis lies between them. -/
theorem Stackable.merge {m n b : Nat} {axes : List (Axis Nat)} (hm : 1 < m) (hn : 1 < n)
    (hwide : ∀ a ∈ axes, 1 < a.size) (h : Stackable (⟨m, b⟩ :: ⟨n, m * b⟩ :: axes)) :
    Stackable (⟨m * n, b⟩ :: axes) := by
  obtain ⟨xs, ys, hperm, hstacked⟩ := h.exists_order
  have hsize : ∀ a ∈ xs ++ ys, 1 < a.size := by
    intro a ha
    rcases List.mem_cons.1 (hperm.mem_iff.1 ha) with rfl | ha
    · exact hn
    · exact hwide a ha
  have hb : 0 < b := hstacked.reach_lt ⟨m, b⟩ (List.mem_append_right _ List.mem_cons_self)
  have hincreasing := hstacked.pairwise_stride fun a ha => by
    rcases List.mem_append.1 ha with ha | ha
    · exact hsize a (List.mem_append_left _ ha)
    · rcases List.mem_cons.1 ha with rfl | ha
      · exact hm
      · exact hsize a (List.mem_append_right _ ha)
  have hnext : b < m * b := (Nat.lt_mul_iff_one_lt_left hb).2 hm
  have hmem : (⟨n, m * b⟩ : Axis Nat) ∈ ys := by
    rcases List.mem_append.1 (hperm.mem_iff.2 List.mem_cons_self) with hxs | hys
    · have hlt := (List.pairwise_append.1 hincreasing).2.2 _ hxs _ List.mem_cons_self
      exact absurd hlt (Nat.not_lt.2 hnext.le)
    · exact hys
  obtain ⟨between, zs, rfl⟩ := List.append_of_mem hmem
  obtain ⟨hxs, hlt, hrest⟩ := stacked_append.1 hstacked
  have hnone : between = [] := by
    cases between with
    | nil => rfl
    | cons c between =>
        -- the stride of `c` exceeds the extent of the first axis, so its own extent
        -- reaches past the stride of the second
        have hc : 1 < c.size := hsize c (by simp)
        obtain ⟨hcstride, hover⟩ := stacked_cons.1 hrest
        have hsecond := hover.reach_lt ⟨n, m * b⟩ (by simp)
        have hle : c.stride ≤ (c.size - 1) * c.stride := Nat.le_mul_of_pos_left _ (by omega)
        obtain ⟨k, rfl⟩ : ∃ k, m = k + 2 := ⟨m - 2, by omega⟩
        change _ < (k + 2) * b at hsecond
        change _ + (k + 1) * b < c.stride at hcstride
        change _ + (k + 1) * b + _ < _ at hsecond
        rw [Nat.succ_mul] at hcstride hsecond
        rw [Nat.add_mul] at hsecond
        omega
  subst hnone
  refine ⟨xs ++ ⟨m * n, b⟩ :: zs, ?_, ?_⟩
  · refine List.perm_middle.trans (List.Perm.cons _ ?_)
    exact (List.perm_middle.symm.trans hperm).cons_inv
  · refine stacked_append.2 ⟨hxs, (stacked_pair (by omega) (by omega) zs).1 ⟨hlt, hrest⟩⟩

theorem Stackable.split {m n b : Nat} {axes : List (Axis Nat)} (hm : 0 < m) (hn : 0 < n)
    (h : Stackable (⟨m * n, b⟩ :: axes)) : Stackable (⟨m, b⟩ :: ⟨n, m * b⟩ :: axes) := by
  obtain ⟨xs, ys, hperm, hstacked⟩ := h.exists_order
  obtain ⟨hxs, hys⟩ := stacked_append.1 hstacked
  refine ⟨xs ++ ⟨m, b⟩ :: ⟨n, m * b⟩ :: ys, ?_,
    stacked_append.2 ⟨hxs, (stacked_pair hm hn ys).2 hys⟩⟩
  exact List.perm_middle.trans ((List.perm_middle.trans (hperm.cons _)).cons _)

/-- One wide axis may be replaced by packed axes of the same number of elements. -/
theorem Stackable.packed {ns : List Nat} {b : Nat} {axes : List (Axis Nat)}
    (hns : ∀ n ∈ ns, 0 < n) (h : Stackable (wide [⟨ns.prod, b⟩] ++ axes)) :
    Stackable (wide (packedAxes b ns) ++ axes) := by
  induction ns generalizing b axes with
  | nil => exact h
  | cons n ns ih =>
      have hns' := fun m hm => hns m (List.mem_cons_of_mem n hm)
      have hprod : 0 < ns.prod := List.prod_pos hns'
      rw [packedAxes, smul_eq_mul]
      rw [List.prod_cons] at h
      rcases Nat.eq_or_lt_of_le (hns n List.mem_cons_self) with hone | hmany
      · obtain rfl : n = 1 := hone.symm
        rw [wide_cons_of_le le_rfl, Nat.one_mul]
        rw [Nat.one_mul] at h
        exact ih hns' h
      · rw [wide_cons_of_lt (show 1 < n from hmany)]
        have hfirst : Stackable (wide [⟨ns.prod, n * b⟩] ++ ⟨n, b⟩ :: axes) := by
          rcases Nat.eq_or_lt_of_le hprod with hone | hrest
          · rw [← hone, Nat.mul_one, wide_cons_of_lt (show 1 < n from hmany)] at h
            rw [← hone, wide_cons_of_le le_rfl]
            exact h
          · have hboth : 1 < n * ns.prod :=
              Nat.lt_of_lt_of_le hmany (Nat.le_mul_of_pos_right _ hprod)
            rw [wide_cons_of_lt (show 1 < n * ns.prod from hboth)] at h
            rw [wide_cons_of_lt (show 1 < ns.prod from hrest)]
            exact (Stackable.split (hns n List.mem_cons_self) hprod h).perm (List.Perm.swap _ _ _)
        exact (ih hns' hfirst).perm List.perm_middle

end StridedSpace
