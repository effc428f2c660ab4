/-
Index maps of rearranged axes.  Permuting axes, inserting or dropping axes of one
step and narrowing an axis each come with a map from the new multi-indices to the
old ones that keeps the point, or moves it by a fixed amount.
-/
import Vectorization.Foundation.StridedSpace

namespace StridedSpace

universe u

variable {M : Type u}

section Index

/-- The source coordinate of an axis is the one at the place the order gives it. -/
def permuteIndex (order idx : List Nat) : List Nat :=
  (List.range order.length).map fun axis => idx.getD (order.idxOf axis) 0

/-- A zero coordinate for every axis of one step that was dropped. -/
def restoreUnits : (sizes idx : List Nat) → List Nat
  | [], idx => idx
  | n :: sizes, idx =>
      if n = 1 then 0 :: restoreUnits sizes idx
      else idx.headD 0 :: restoreUnits sizes idx.tail

theorem permuteIndex_length (order idx : List Nat) :
    (permuteIndex order idx).length = order.length := by
  rw [permuteIndex, List.length_map, List.length_range]

theorem perm_range_of_nodup {order : List Nat} {n : Nat} (hlen : order.length = n)
    (hnodup : order.Nodup) (hlt : ∀ axis ∈ order, axis < n) :
    order.Perm (List.range n) := by
  have hsub : order ⊆ List.range n := fun axis h => List.mem_range.2 (hlt axis h)
  exact (List.subperm_of_subset hnodup hsub).perm_of_length_le
    (by rw [List.length_range, hlen])

/-- An index is read off a duplicate-free order entry by entry. -/
theorem map_idxOf_getD {order idx : List Nat} (hnodup : order.Nodup)
    (hlen : idx.length = order.length) :
    order.map (fun axis => idx.getD (order.idxOf axis) 0) = idx := by
  refine List.ext_getElem (by rw [List.length_map, hlen]) fun k hk hk' => ?_
  rw [List.getElem_map, hnodup.idxOf_getElem, List.getD_eq_getElem idx 0 hk']

theorem map_range_getElem? {β : Type u} (xs : List β) :
    (List.range xs.length).map (xs[·]?) = xs.map some := by
  refine List.ext_getElem (by simp) fun k hk hk' => ?_
  rw [List.getElem_map, List.getElem_map, List.getElem_range, List.getElem?_eq_getElem]

/-- The pairs of permuted axes are those of the source. -/
theorem zip_permute {axes permuted : List (Axis M)} {order idx : List Nat}
    (hperm : order.Perm (List.range axes.length)) (hidx : idx.length = order.length)
    (haxes : permuted.map some = order.map (axes[·]?)) :
    (permuted.zip idx).Perm (axes.zip (permuteIndex order idx)) := by
  let source := fun axis => (axes[axis]?, idx.getD (order.idxOf axis) 0)
  have hsome : Function.Injective (Prod.map (some : Axis M → _) (id : Nat → Nat)) :=
    (Option.some_injective _).prodMap Function.injective_id
  have hlen : order.length = axes.length := by
    rw [hperm.length_eq, List.length_range]
  have hleft : (permuted.zip idx).map (Prod.map some id) = order.map source := by
    rw [← List.zip_map, List.map_id, haxes]
    conv_lhs =>
      arg 2
      rw [← map_idxOf_getD (hperm.nodup_iff.2 List.nodup_range) hidx]
    exact List.zip_map' ..
  have hright : (axes.zip (permuteIndex order idx)).map (Prod.map some id) =
      (List.range axes.length).map source := by
    rw [← List.zip_map, List.map_id, ← map_range_getElem?, permuteIndex, hlen]
    exact List.zip_map' ..
  rw [← List.map_perm_map_iff hsome, hleft, hright]
  exact hperm.map source

theorem inBounds_iff_zip {axes : List (Axis M)} {idx : List Nat} :
    InBounds idx (sizes axes) ↔
      idx.length = axes.length ∧ ∀ p ∈ axes.zip idx, p.2 < p.1.size := by
  induction axes generalizing idx with
  | nil => cases idx <;> simp [InBounds]
  | cons a axes ih =>
      cases idx with
      | nil => simp [InBounds]
      | cons i idx =>
          rw [sizes_cons, inBounds_cons, ih]
          simp only [List.length_cons, Nat.add_right_cancel_iff, List.zip_cons_cons,
            List.forall_mem_cons]
          tauto

theorem InBounds.of_perm {axes axes' : List (Axis M)} {idx idx' : List Nat}
    (h : (axes.zip idx).Perm (axes'.zip idx')) (hlen : idx'.length = axes'.length)
    (hidx : InBounds idx (sizes axes)) : InBounds idx' (sizes axes') := by
  rw [inBounds_iff_zip] at hidx ⊢
  exact ⟨hlen, fun p hp => hidx.2 p (h.mem_iff.2 hp)⟩

theorem InBounds.drop {idx ns : List Nat} (n : Nat) (h : InBounds idx ns) :
    InBounds (idx.drop n) (ns.drop n) :=
  List.forall₂_drop n h

end Index

section Points

variable [AddCommMonoid M]

/-- A point is the sum over the pairs of axis and coordinate. -/
theorem dot_eq_sum (axes : List (Axis M)) (idx : List Nat) :
    dot axes idx = ((axes.zip idx).map fun p => p.2 • p.1.stride).sum := by
  induction axes generalizing idx with
  | nil => simp
  | cons a axes ih =>
      cases idx with
      | nil => rfl
      | cons i idx => rw [dot_cons, ih, List.zip_cons_cons, List.map_cons, List.sum_cons]

/-- The same pairs in another order are the same point. -/
theorem dot_of_perm {axes axes' : List (Axis M)} {idx idx' : List Nat}
    (h : (axes.zip idx).Perm (axes'.zip idx')) : dot axes idx = dot axes' idx' := by
  rw [dot_eq_sum, dot_eq_sum]
  exact (h.map _).sum_eq

theorem dot_of_stride_zero {axes : List (Axis M)} (h : ∀ a ∈ axes, a.stride = 0)
    (idx : List Nat) : dot axes idx = 0 := by
  rw [dot_eq_sum]
  refine List.sum_eq_zero fun x hx => ?_
  obtain ⟨⟨a, i⟩, hp, rfl⟩ := List.mem_map.1 hx
  rw [h a (List.of_mem_zip hp).1, smul_zero]

theorem dot_zeros (axes : List (Axis M)) : dot axes (List.replicate axes.length 0) = 0 := by
  induction axes with
  | nil => rfl
  | cons a axes ih => rw [List.length_cons, List.replicate_succ, dot_cons, ih, zero_smul, zero_add]

theorem inBounds_zeros {ns : List Nat} (h : ∀ n ∈ ns, 0 < n) :
    InBounds (List.replicate ns.length 0) ns := by
  induction ns with
  | nil => exact inBounds_nil
  | cons n ns ih =>
      rw [List.length_cons, List.replicate_succ, inBounds_cons]
      exact ⟨h n List.mem_cons_self, ih fun m hm => h m (List.mem_cons_of_mem n hm)⟩

/-- The points determine every stride but those of axes of one step. -/
theorem eq_of_dot_eq {axes axes' : List (Axis M)} (hsizes : sizes axes = sizes axes')
    (hpos : ∀ n ∈ sizes axes, 0 < n)
    (hdot : ∀ idx, InBounds idx (sizes axes) → dot axes idx = dot axes' idx)
    (hone : List.Forall₂ (fun a b => a.size = 1 → a.stride = b.stride) axes axes') :
    axes = axes' := by
  induction hone with
  | nil => rfl
  | @cons a b axes axes' hab _ ih =>
      rw [sizes_cons, sizes_cons, List.cons.injEq] at hsizes
      rw [sizes_cons] at hpos hdot
      obtain ⟨hsize, hsizes⟩ := hsizes
      have hpos' : ∀ n ∈ sizes axes, 0 < n := fun n hn => hpos n (List.mem_cons_of_mem _ hn)
      have hzeros := inBounds_zeros hpos'
      have ha := hpos a.size List.mem_cons_self
      have hlen : axes.length = axes'.length := by
        rw [← sizes_length axes, hsizes, sizes_length]
      rw [sizes_length] at hzeros
      have hstride : a.stride = b.stride := by
        by_cases hwide : a.size = 1
        · exact hab hwide
        · have hunit := hdot (1 :: List.replicate axes.length 0)
            (inBounds_cons.2 ⟨by omega, hzeros⟩)
          conv at hunit =>
            rhs
            rw [hlen]
          rwa [dot_cons, dot_cons, dot_zeros, dot_zeros, one_smul, one_smul, add_zero,
            add_zero] at hunit
      have htail := ih hsizes hpos' fun idx hidx => by
        have := hdot (0 :: idx) (inBounds_cons.2 ⟨ha, hidx⟩)
        rwa [dot_cons, dot_cons, zero_smul, zero_smul, zero_add, zero_add] at this
      cases a
      cases b
      cases hsize
      cases hstride
      rw [htail]

theorem dot_restoreUnits {axes : List (Axis M)} {idx : List Nat}
    (hidx : InBounds idx (sizes (axes.filter fun a => decide (a.size ≠ 1)))) :
    InBounds (restoreUnits (sizes axes) idx) (sizes axes) ∧
      dot (axes.filter fun a => decide (a.size ≠ 1)) idx =
        dot axes (restoreUnits (sizes axes) idx) := by
  induction axes generalizing idx with
  | nil => exact ⟨hidx, rfl⟩
  | cons a axes ih =>
      rw [sizes_cons, restoreUnits]
      by_cases hone : a.size = 1
      · rw [List.filter_cons_of_neg (by simp [hone])] at hidx ⊢
        obtain ⟨hin, hdot⟩ := ih hidx
        rw [if_pos hone, inBounds_cons, dot_cons, zero_smul, zero_add]
        exact ⟨⟨by omega, hin⟩, hdot⟩
      · rw [List.filter_cons_of_pos (by simp [hone])] at hidx ⊢
        cases idx with
        | nil => cases hidx
        | cons i idx =>
            rw [sizes_cons, inBounds_cons] at hidx
            obtain ⟨hi, hidx⟩ := hidx
            obtain ⟨hin, hdot⟩ := ih hidx
            rw [if_neg hone, inBounds_cons, dot_cons, dot_cons, hdot]
            exact ⟨⟨hi, hin⟩, rfl⟩

/-- A dropped axis of one step is read at zero. -/
theorem dot_eraseIdx {axes : List (Axis M)} {k : Nat} {a : Axis M} (ha : axes[k]? = some a)
    (hone : a.size = 1) {idx : List Nat} (hidx : InBounds idx (sizes (axes.eraseIdx k))) :
    InBounds (idx.insertIdx k 0) (sizes axes) ∧
      dot (axes.eraseIdx k) idx = dot axes (idx.insertIdx k 0) := by
  induction axes generalizing k idx with
  | nil => cases ha
  | cons b axes ih =>
      cases k with
      | zero =>
          cases ha
          rw [List.eraseIdx_cons_zero] at hidx ⊢
          rw [List.insertIdx_zero, sizes_cons, inBounds_cons, dot_cons, zero_smul, zero_add]
          exact ⟨⟨by omega, hidx⟩, rfl⟩
      | succ k =>
          rw [List.eraseIdx_cons_succ] at hidx ⊢
          cases idx with
          | nil => cases hidx
          | cons i idx =>
              rw [sizes_cons, inBounds_cons] at hidx
              obtain ⟨hin, hdot⟩ := ih ha hidx.2
              rw [List.insertIdx_succ_cons, sizes_cons, inBounds_cons, dot_cons, dot_cons, hdot]
              exact ⟨⟨hidx.1, hin⟩, rfl⟩

/-- An inserted axis of one step is not read. -/
theorem dot_insertIdx {axes : List (Axis M)} {k : Nat} {a : Axis M} (hk : k ≤ axes.length)
    (hone : a.size = 1) {idx : List Nat} (hidx : InBounds idx (sizes (axes.insertIdx k a))) :
    InBounds (idx.eraseIdx k) (sizes axes) ∧
      dot (axes.insertIdx k a) idx = dot axes (idx.eraseIdx k) := by
  induction k generalizing axes idx with
  | zero =>
      rw [List.insertIdx_zero] at hidx ⊢
      cases idx with
      | nil => cases hidx
      | cons i idx =>
          rw [sizes_cons, inBounds_cons] at hidx
          have : i = 0 := by omega
          rw [List.eraseIdx_cons_zero, dot_cons, this, zero_smul, zero_add]
          exact ⟨hidx.2, rfl⟩
  | succ k ih =>
      cases axes with
      | nil => cases hk
      | cons b axes =>
          rw [List.insertIdx_succ_cons] at hidx ⊢
          cases idx with
          | nil => cases hidx
          | cons i idx =>
              rw [sizes_cons, inBounds_cons] at hidx
              obtain ⟨hin, hdot⟩ := ih (Nat.le_of_succ_le_succ hk) hidx.2
              rw [List.eraseIdx_cons_succ, sizes_cons, inBounds_cons, dot_cons, dot_cons, hdot]
              exact ⟨⟨hidx.1, hin⟩, rfl⟩

/-- A narrowed axis starts at `first` and takes `step` steps of its source at a time. -/
theorem dot_narrow {axes : List (Axis M)} {k n first step : Nat} {a : Axis M}
    (ha : axes[k]? = some a) (hfit : ∀ i < n, first + step * i < a.size) {idx : List Nat}
    (hidx : InBounds idx (sizes (axes.set k ⟨n, step • a.stride⟩))) :
    InBounds (idx.modify k fun i => first + step * i) (sizes axes) ∧
      first • a.stride + dot (axes.set k ⟨n, step • a.stride⟩) idx =
        dot axes (idx.modify k fun i => first + step * i) := by
  induction axes generalizing k idx with
  | nil => cases ha
  | cons b axes ih =>
      cases idx with
      | nil => cases k <;> cases hidx
      | cons i idx =>
          cases k with
          | zero =>
              cases ha
              rw [List.set_cons_zero, sizes_cons, inBounds_cons] at hidx
              rw [List.set_cons_zero, List.modify_zero_cons, sizes_cons, inBounds_cons,
                dot_cons, dot_cons, add_smul, Nat.mul_comm, mul_smul, add_assoc]
              exact ⟨⟨Nat.mul_comm step i ▸ hfit i hidx.1, hidx.2⟩, rfl⟩
          | succ k =>
              rw [List.set_cons_succ, sizes_cons, inBounds_cons] at hidx
              obtain ⟨hin, hdot⟩ := ih ha hidx.2
              rw [List.set_cons_succ, List.modify_succ_cons, sizes_cons, inBounds_cons,
                dot_cons, dot_cons, ← hdot, add_left_comm]
              exact ⟨⟨hidx.1, hin⟩, rfl⟩

end Points

end StridedSpace
