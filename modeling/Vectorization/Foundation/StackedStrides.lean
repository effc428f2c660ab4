/-
Injectivity of natural strides.  Axes listed innermost first are stacked when
every stride exceeds the extent of the axes before it; a stacked space never
meets a point twice, and it fills its whole span once it has as many
multi-indices as its extent leaves room for.
-/
import Vectorization.Foundation.StridedSpace

namespace StridedSpace

/-- The largest offset an in-bounds multi-index reaches. -/
def extent : List (Axis Nat) → Nat
  | [] => 0
  | a :: axes => (a.size - 1) * a.stride + extent axes

@[simp] theorem extent_nil : extent [] = 0 := rfl

@[simp] theorem extent_cons (a : Axis Nat) (axes : List (Axis Nat)) :
    extent (a :: axes) = (a.size - 1) * a.stride + extent axes := rfl

@[simp] theorem extent_append (xs ys : List (Axis Nat)) :
    extent (xs ++ ys) = extent xs + extent ys := by
  induction xs with
  | nil => simp
  | cons a xs ih => simp [ih, Nat.add_assoc]

theorem span_le_extent {a : Axis Nat} {axes : List (Axis Nat)} (ha : a ∈ axes) :
    (a.size - 1) * a.stride ≤ extent axes := by
  induction axes with
  | nil => cases ha
  | cons b axes ih =>
      rw [extent_cons]
      rcases List.mem_cons.1 ha with rfl | ha
      · exact Nat.le_add_right _ _
      · exact Nat.le_add_left_of_le (ih ha)

theorem extent_perm {xs ys : List (Axis Nat)} (h : xs.Perm ys) :
    extent xs = extent ys := by
  induction h with
  | nil => rfl
  | cons a _ ih => simp [ih]
  | swap a b axes => simp only [extent_cons]; omega
  | trans _ _ ih₁ ih₂ => exact ih₁.trans ih₂

/-- Axes of at most one step contribute no extent. -/
theorem extent_filter_one_lt (axes : List (Axis Nat)) :
    extent (axes.filter fun a => decide (1 < a.size)) = extent axes := by
  induction axes with
  | nil => rfl
  | cons a axes ih =>
      by_cases h : 1 < a.size
      · rw [List.filter_cons_of_pos (by simp [h]), extent_cons, extent_cons, ih]
      · rw [List.filter_cons_of_neg (by simp [h]), ih, extent_cons,
          show a.size - 1 = 0 by omega, Nat.zero_mul, Nat.zero_add]

theorem dot_le_extent {axes : List (Axis Nat)} {idx : List Nat}
    (h : InBounds idx (sizes axes)) : dot axes idx ≤ extent axes := by
  induction axes generalizing idx with
  | nil => simp
  | cons a axes ih =>
      cases idx with
      | nil => simp [dot]
      | cons i idx =>
          rw [sizes_cons, inBounds_cons] at h
          have hhead : i * a.stride ≤ (a.size - 1) * a.stride :=
            Nat.mul_le_mul_right _ (by omega)
          have htail := ih h.2
          simp only [dot_cons, extent_cons, smul_eq_mul]
          omega

/-- The last multi-index lies at the extent. -/
theorem exists_dot_eq_extent {axes : List (Axis Nat)} (hpos : ∀ a ∈ axes, a.size ≠ 0) :
    ∃ idx, InBounds idx (sizes axes) ∧ dot axes idx = extent axes := by
  induction axes with
  | nil => exact ⟨[], by simp, by simp⟩
  | cons a axes ih =>
      obtain ⟨idx, hidx, hdot⟩ := ih fun b hb => hpos b (List.mem_cons_of_mem a hb)
      have ha := hpos a List.mem_cons_self
      refine ⟨(a.size - 1) :: idx, ?_, ?_⟩
      · rw [sizes_cons, inBounds_cons]
        exact ⟨by omega, hidx⟩
      · rw [dot_cons, hdot, extent_cons, smul_eq_mul]

theorem le_extent_of_mem_enumerate {axes : List (Axis Nat)} {x : Nat}
    (h : x ∈ enumerate axes) : x ≤ extent axes := by
  obtain ⟨idx, hidx, rfl⟩ := mem_enumerate.1 h
  exact dot_le_extent hidx

theorem zero_mem_enumerate {axes : List (Axis Nat)}
    (hpos : ∀ a ∈ axes, 0 < a.size) : 0 ∈ enumerate axes := by
  induction axes with
  | nil => simp
  | cons a axes ih =>
      rw [enumerate_cons, List.mem_flatMap]
      refine ⟨0, List.mem_range.2 (hpos a List.mem_cons_self), ?_⟩
      rw [List.mem_map]
      exact ⟨0, ih fun b hb => hpos b (List.mem_cons_of_mem a hb), by simp⟩

/-- Every stride exceeds `reach` plus the extent of the axes before it. -/
def Stacked : Nat → List (Axis Nat) → Prop
  | _, [] => True
  | reach, a :: axes =>
      reach < a.stride ∧ Stacked (reach + (a.size - 1) * a.stride) axes

instance Stacked.decidable : (reach : Nat) → (axes : List (Axis Nat)) →
    Decidable (Stacked reach axes)
  | _, [] => isTrue trivial
  | reach, a :: axes =>
      have := Stacked.decidable (reach + (a.size - 1) * a.stride) axes
      inferInstanceAs (Decidable (_ ∧ _))

@[simp] theorem stacked_nil (reach : Nat) : Stacked reach [] := trivial

@[simp] theorem stacked_cons {reach : Nat} {a : Axis Nat} {axes : List (Axis Nat)} :
    Stacked reach (a :: axes) ↔
      reach < a.stride ∧ Stacked (reach + (a.size - 1) * a.stride) axes := Iff.rfl

theorem stacked_append {reach : Nat} {xs ys : List (Axis Nat)} :
    Stacked reach (xs ++ ys) ↔ Stacked reach xs ∧ Stacked (reach + extent xs) ys := by
  induction xs generalizing reach with
  | nil => simp
  | cons a xs ih => simp only [List.cons_append, stacked_cons, ih, extent_cons,
      Nat.add_assoc, and_assoc]

theorem Stacked.mono {reach reach' : Nat} {axes : List (Axis Nat)}
    (h : Stacked reach axes) (hle : reach' ≤ reach) : Stacked reach' axes := by
  induction axes generalizing reach reach' with
  | nil => trivial
  | cons a axes ih =>
      exact ⟨Nat.lt_of_le_of_lt hle h.1, ih h.2 (Nat.add_le_add_right hle _)⟩

theorem Stacked.reach_lt {reach : Nat} {axes : List (Axis Nat)}
    (h : Stacked reach axes) : ∀ a ∈ axes, reach < a.stride := by
  induction axes generalizing reach with
  | nil => simp
  | cons a axes ih =>
      intro b hb
      rcases List.mem_cons.1 hb with rfl | hb
      · exact h.1
      · exact Nat.lt_of_le_of_lt (Nat.le_add_right _ _) (ih h.2 b hb)

/-- The induction behind injectivity: offsets that start within `reach` of the
origin stay apart once the stacked axes are added. -/
theorem Stacked.dot_inj {reach : Nat} {axes : List (Axis Nat)}
    (h : Stacked reach axes) {x y : Nat} (hx : x ≤ reach) (hy : y ≤ reach)
    {i j : List Nat} (hi : InBounds i (sizes axes)) (hj : InBounds j (sizes axes))
    (heq : x + dot axes i = y + dot axes j) : x = y ∧ i = j := by
  induction axes generalizing reach x y i j with
  | nil =>
      cases hi
      cases hj
      exact ⟨by simpa using heq, rfl⟩
  | cons a axes ih =>
      obtain _ | ⟨hi₀, hi⟩ := hi
      obtain _ | ⟨hj₀, hj⟩ := hj
      rename_i i₀ is j₀ js
      simp only [dot_cons, smul_eq_mul, ← Nat.add_assoc] at heq
      have bound : ∀ {z k : Nat}, z ≤ reach → k < a.size →
          z + k * a.stride ≤ reach + (a.size - 1) * a.stride := by
        intro z k hz hk
        exact Nat.add_le_add hz (Nat.mul_le_mul_right _ (by omega))
      obtain ⟨hhead, htail⟩ := ih h.2 (bound hx hi₀) (bound hy hj₀) hi hj heq
      have hx' : x < a.stride := Nat.lt_of_le_of_lt hx h.1
      have hy' : y < a.stride := Nat.lt_of_le_of_lt hy h.1
      have hxy : x = y := by
        have := congrArg (· % a.stride) hhead
        simpa [Nat.mod_eq_of_lt hx', Nat.mod_eq_of_lt hy'] using this
      have hij : i₀ = j₀ := by
        subst hxy
        exact Nat.eq_of_mul_eq_mul_right (Nat.zero_lt_of_lt h.1)
          (Nat.add_left_cancel hhead)
      exact ⟨hxy, by rw [hij, htail]⟩

theorem Stacked.nodup_enumerate {axes : List (Axis Nat)} (h : Stacked 0 axes) :
    (enumerate axes).Nodup := by
  rw [nodup_enumerate_iff]
  intro i hi j hj heq
  exact (h.dot_inj (Nat.le_refl 0) (Nat.le_refl 0) hi hj (by simpa using heq)).2

/-- The axes are stacked in some order. -/
def Stackable (axes : List (Axis Nat)) : Prop :=
  ∃ order : List (Axis Nat), order.Perm axes ∧ Stacked 0 order

theorem Stackable.perm {xs ys : List (Axis Nat)} (h : Stackable xs) (hp : xs.Perm ys) :
    Stackable ys := by
  obtain ⟨order, hperm, hstacked⟩ := h
  exact ⟨order, hperm.trans hp, hstacked⟩

theorem Stacked.pairwise_stride {reach : Nat} {axes : List (Axis Nat)}
    (h : Stacked reach axes) (hsize : ∀ a ∈ axes, 1 < a.size) :
    axes.Pairwise fun a b => a.stride < b.stride := by
  induction axes generalizing reach with
  | nil => exact List.Pairwise.nil
  | cons a axes ih =>
      refine List.Pairwise.cons (fun b hb => ?_)
        (ih h.2 fun b hb => hsize b (List.mem_cons_of_mem a hb))
      have hlt := h.2.reach_lt b hb
      have hle : a.stride ≤ (a.size - 1) * a.stride :=
        Nat.le_mul_of_pos_left _ (by have := hsize a List.mem_cons_self; omega)
      omega

/-- Sorting by stride finds the order in which the axes are stacked. -/
theorem stacked_iff_stackable {sorted axes : List (Axis Nat)}
    (hsorted : sorted.Pairwise fun a b => a.stride ≤ b.stride) (hperm : sorted.Perm axes)
    (hsize : ∀ a ∈ axes, 1 < a.size) : Stacked 0 sorted ↔ Stackable axes := by
  refine ⟨fun h => ⟨sorted, hperm, h⟩, ?_⟩
  rintro ⟨order, horder, hstacked⟩
  have hlt := hstacked.pairwise_stride fun a ha => hsize a (horder.mem_iff.1 ha)
  have hinj : ∀ a ∈ order, ∀ b ∈ order, a.stride = b.stride → a = b :=
    fun a ha b hb => List.inj_on_of_nodup_map
      (List.pairwise_map.2 (hlt.imp fun h => Nat.ne_of_lt h)) ha hb
  have heq : order = sorted := by
    have hle : order.Pairwise fun a b => a.stride ≤ b.stride := hlt.imp Nat.le_of_lt
    refine List.Perm.eq_of_pairwise ?_ hle hsorted (horder.trans hperm.symm)
    intro a b ha hb hab hba
    refine hinj a ha b ?_ (Nat.le_antisymm hab hba)
    exact (horder.trans hperm.symm).mem_iff.2 hb
  exact heq ▸ hstacked

section Nested

theorem inBounds_origin {axes : List (Axis Nat)} (h : ∀ a ∈ axes, 1 < a.size) :
    InBounds (List.replicate axes.length 0) (sizes axes) := by
  induction axes with
  | nil => exact inBounds_nil
  | cons a axes ih =>
      have hsize := h a List.mem_cons_self
      rw [List.length_cons, List.replicate_succ, sizes_cons, inBounds_cons]
      exact ⟨by omega, ih fun b hb => h b (List.mem_cons_of_mem a hb)⟩

theorem nodup_enumerate_tail {a : Axis Nat} {axes : List (Axis Nat)} (hsize : 1 < a.size)
    (h : (enumerate (a :: axes)).Nodup) : (enumerate axes).Nodup := by
  rw [nodup_enumerate_iff] at h ⊢
  intro i hi j hj heq
  have hzero : 0 < a.size := by omega
  have hcons := h (0 :: i) (List.Forall₂.cons hzero hi) (0 :: j) (List.Forall₂.cons hzero hj)
    (by rw [dot_cons, dot_cons, heq])
  exact (List.cons.inj hcons).2

/-- A stride that is a multiple of the one before it and lies within its axis is reached
along that axis, too. -/
theorem span_le_of_nodup {a b : Axis Nat} {axes : List (Axis Nat)}
    (hsize : ∀ c ∈ a :: b :: axes, 1 < c.size) (hdvd : a.stride ∣ b.stride)
    (h : (enumerate (a :: b :: axes)).Nodup) : a.size * a.stride ≤ b.stride := by
  obtain ⟨q, hq⟩ := hdvd
  by_contra hlt
  have hqa : q < a.size := by
    rw [hq, Nat.mul_comm a.stride] at hlt
    exact Nat.lt_of_mul_lt_mul_right (Nat.lt_of_not_le hlt)
  have hzeros := inBounds_origin fun c hc =>
    hsize c (List.mem_cons_of_mem a (List.mem_cons_of_mem b hc))
  have ha := hsize a List.mem_cons_self
  have hb := hsize b (List.mem_cons_of_mem a List.mem_cons_self)
  have hcollide := (nodup_enumerate_iff.1 h)
    (q :: 0 :: List.replicate axes.length 0) (.cons hqa (.cons (by omega) hzeros))
    (0 :: 1 :: List.replicate axes.length 0) (.cons (by omega) (.cons hb hzeros))
    (by simp only [dot_cons, smul_eq_mul]; rw [hq]; ring)
  exact Nat.zero_ne_one (List.cons.inj (List.cons.inj hcollide).2).1

/-- Injective nested strides exceed the extent so far: it stays below the span of the
axis before. -/
theorem stacked_of_nested {a : Axis Nat} {axes : List (Axis Nat)} {reach : Nat}
    (hsize : ∀ b ∈ a :: axes, 1 < b.size)
    (hnested : (a :: axes).IsChain fun b c => b.stride ∣ c.stride)
    (hreach : reach < a.size * a.stride) (h : (enumerate (a :: axes)).Nodup) :
    Stacked reach axes := by
  induction axes generalizing a reach with
  | nil => exact stacked_nil reach
  | cons b axes ih =>
      obtain ⟨hdvd, hnested'⟩ := List.isChain_cons_cons.1 hnested
      have hspan := span_le_of_nodup hsize hdvd h
      have hlt : reach < b.stride := by omega
      have hone := hsize b (List.mem_cons_of_mem a List.mem_cons_self)
      refine ⟨hlt, ih (fun c hc => hsize c (List.mem_cons_of_mem a hc)) hnested' ?_
        (nodup_enumerate_tail (hsize a List.mem_cons_self) h)⟩
      have hsplit : b.stride + (b.size - 1) * b.stride = b.size * b.stride := by
        obtain ⟨k, hk⟩ := Nat.exists_eq_succ_of_ne_zero (Nat.ne_of_gt (Nat.zero_lt_of_lt hone))
        rw [hk, Nat.succ_sub_one, Nat.succ_mul, Nat.add_comm]
      omega

/-- Nested positive strides are injective exactly when they are stacked. -/
theorem nested_nodup_iff_stacked {axes : List (Axis Nat)} (hsize : ∀ a ∈ axes, 1 < a.size)
    (hpos : ∀ a ∈ axes, 0 < a.stride)
    (hnested : axes.IsChain fun a b => a.stride ∣ b.stride) :
    (enumerate axes).Nodup ↔ Stacked 0 axes := by
  constructor
  · intro h
    cases axes with
    | nil => exact stacked_nil 0
    | cons a axes =>
        have ha := hpos a List.mem_cons_self
        have hone := hsize a List.mem_cons_self
        refine ⟨ha, ?_⟩
        apply stacked_of_nested hsize hnested _ h
        rw [Nat.zero_add]
        exact Nat.mul_lt_mul_of_pos_right (by omega) ha
  · exact Stacked.nodup_enumerate

end Nested

/-- Injective axes have no more multi-indices than their span has places. -/
theorem prod_sizes_le_extent {axes : List (Axis Nat)} (h : (enumerate axes).Nodup) :
    (sizes axes).prod ≤ extent axes + 1 := by
  have hsub : enumerate axes ⊆ List.range (extent axes + 1) := fun x hx =>
    List.mem_range.2 (Nat.lt_succ_of_le (le_extent_of_mem_enumerate hx))
  have hle := (List.subperm_of_subset h hsub).length_le
  rwa [length_enumerate, List.length_range] at hle

/-- An injective space with as many multi-indices as places fills its span. -/
theorem mem_enumerate_of_dense {axes : List (Axis Nat)} (h : (enumerate axes).Nodup)
    (hdense : extent axes + 1 = (sizes axes).prod) {x : Nat} (hx : x ≤ extent axes) :
    x ∈ enumerate axes := by
  have hsub : enumerate axes ⊆ List.range (extent axes + 1) := fun y hy =>
    List.mem_range.2 (Nat.lt_succ_of_le (le_extent_of_mem_enumerate hy))
  have hperm : (enumerate axes).Perm (List.range (extent axes + 1)) :=
    (List.subperm_of_subset h hsub).perm_of_length_le
      (by rw [length_enumerate, List.length_range, hdense])
  exact hperm.mem_iff.2 (List.mem_range.2 (Nat.lt_succ_of_le hx))

end StridedSpace
