/-
Combinations in which a right operand can discard all that it is combined with.  Some terms
are void; a combination whose right operand ends in a void term is void itself, and a leaf
survives when no combination discards it.
-/
import Vectorization.Foundation.Combining

namespace Combining

namespace CombineTree

variable {ι σ : Type} {void : ι → Bool}

/-- The leaves of a tree that no void term discards, none for an identity. -/
def survivors (void : ι → Bool) : CombineTree ι → List (Option ι)
  | .identity => [none]
  | .term i => if void i then [] else [some i]
  | .node lhs rhs =>
      if survivors void rhs = [] then [] else survivors void lhs ++ survivors void rhs

/-- The last term decides whether anything survives. -/
def endsVoid (void : ι → Bool) : CombineTree ι → Bool
  | .identity => false
  | .term i => void i
  | .node _ rhs => endsVoid void rhs

theorem survivors_eq_nil {t : CombineTree ι} : survivors void t = [] ↔ endsVoid void t = true := by
  induction t with
  | identity => simp [survivors, endsVoid]
  | term i => simp [survivors, endsVoid]
  | node lhs rhs _ ihr =>
      rw [survivors, endsVoid]
      split <;> rename_i hr
      · exact iff_of_true rfl (ihr.1 hr)
      · rw [List.append_eq_nil_iff, ← ihr]
        exact and_iff_right_of_imp fun h => absurd h hr

theorem mem_survivors_term {leaf : Option ι} {i : ι} :
    leaf ∈ survivors void (.term i) ↔ leaf = some i ∧ void i = false := by
  rw [survivors]
  cases void i <;> simp

theorem mem_survivors_node {leaf : Option ι} {lhs rhs : CombineTree ι} :
    leaf ∈ survivors void (.node lhs rhs) ↔
      endsVoid void rhs = false ∧ leaf ∈ survivors void lhs ∨ leaf ∈ survivors void rhs := by
  rw [survivors]
  split <;> rename_i hr
  · rw [hr, survivors_eq_nil.1 hr]
    simp
  · rw [survivors_eq_nil, Bool.not_eq_true] at hr
    rw [List.mem_append, hr]
    simp

theorem endsVoid_bind (f : ι → CombineTree σ) (void : σ → Bool) (t : CombineTree ι) :
    endsVoid void (t.bind f) = endsVoid (fun i => endsVoid void (f i)) t := by
  induction t with
  | identity => rfl
  | term i => rfl
  | node lhs rhs _ ihr => exact ihr

/-- A leaf of a tree over trees survives when its tree does and it survives in that tree. -/
theorem mem_survivors_bind {f : ι → CombineTree σ} {void : σ → Bool} {t : CombineTree ι}
    {leaf : Option σ} :
    leaf ∈ survivors void (t.bind f) ↔
      leaf = none ∧ none ∈ survivors (fun i => endsVoid void (f i)) t ∨
        ∃ i, some i ∈ survivors (fun i => endsVoid void (f i)) t ∧
          leaf ∈ survivors void (f i) := by
  induction t with
  | identity => simp [bind, survivors]
  | term i =>
      rw [bind]
      simp only [mem_survivors_term, Option.some.injEq, reduceCtorEq, false_and, and_false,
        false_or]
      constructor
      · intro hleaf
        refine ⟨i, ⟨rfl, ?_⟩, hleaf⟩
        rw [← Bool.not_eq_true, ← survivors_eq_nil]
        exact List.ne_nil_of_mem hleaf
      · rintro ⟨j, ⟨rfl, -⟩, hleaf⟩
        exact hleaf
  | node lhs rhs ihl ihr =>
      rw [bind, mem_survivors_node, ihl, ihr, endsVoid_bind]
      simp only [mem_survivors_node]
      constructor
      · rintro (⟨hends, ⟨rfl, hnone⟩ | ⟨i, hi, hleaf⟩⟩ | ⟨rfl, hnone⟩ | ⟨i, hi, hleaf⟩)
        · exact Or.inl ⟨rfl, Or.inl ⟨hends, hnone⟩⟩
        · exact Or.inr ⟨i, Or.inl ⟨hends, hi⟩, hleaf⟩
        · exact Or.inl ⟨rfl, Or.inr hnone⟩
        · exact Or.inr ⟨i, Or.inr hi, hleaf⟩
      · rintro (⟨rfl, ⟨hends, hnone⟩ | hnone⟩ | ⟨i, ⟨hends, hi⟩ | hi, hleaf⟩)
        · exact Or.inl ⟨hends, Or.inl ⟨rfl, hnone⟩⟩
        · exact Or.inr (Or.inl ⟨rfl, hnone⟩)
        · exact Or.inl ⟨hends, Or.inr ⟨i, hi, hleaf⟩⟩
        · exact Or.inr (Or.inr ⟨i, hi, hleaf⟩)

section Accumulation

variable {is : List ℕ} {void : ℕ → Bool}

/-- In an accumulation from the left a term survives if no term from it on is void. -/
theorem mem_survivors_foldl (hsorted : is.Pairwise (· < ·)) {i : ℕ} :
    some i ∈ survivors void (is.foldl (fun acc i => node acc (.term i)) .identity) ↔
      i ∈ is ∧ ∀ j ∈ is, i ≤ j → void j = false := by
  induction is using List.reverseRecOn with
  | nil => simp [survivors]
  | append_singleton is k ih =>
      obtain ⟨hsorted, -, hlast⟩ := List.pairwise_append.1 hsorted
      have hlast : ∀ j ∈ is, j < k := fun j hj => hlast j hj k (List.mem_singleton_self k)
      rw [List.foldl_append, List.foldl_cons, List.foldl_nil, mem_survivors_node, ih hsorted,
        endsVoid, mem_survivors_term, Option.some.injEq]
      simp only [List.mem_append, List.mem_singleton]
      constructor
      · rintro (⟨hk, hi, hrest⟩ | ⟨rfl, hk⟩)
        · refine ⟨Or.inl hi, fun j hj hle => ?_⟩
          rcases hj with hj | rfl
          · exact hrest j hj hle
          · exact hk
        · refine ⟨Or.inr rfl, fun j hj hle => ?_⟩
          rcases hj with hj | rfl
          · exact absurd hle (Nat.not_le_of_lt (hlast j hj))
          · exact hk
      · rintro ⟨hi | rfl, hrest⟩
        · have hk : void k = false := hrest k (Or.inr rfl) (Nat.le_of_lt (hlast i hi))
          exact Or.inl ⟨hk, hi, fun j hj => hrest j (Or.inl hj)⟩
        · exact Or.inr ⟨rfl, hrest i (Or.inr rfl) le_rfl⟩

theorem none_mem_survivors_foldl :
    none ∈ survivors void (is.foldl (fun acc i => node acc (.term i)) .identity) ↔
      ∀ j ∈ is, void j = false := by
  induction is using List.reverseRecOn with
  | nil => simp [survivors]
  | append_singleton is k ih =>
      rw [List.foldl_append, List.foldl_cons, List.foldl_nil, mem_survivors_node, ih, endsVoid,
        mem_survivors_term, List.forall_mem_append, List.forall_mem_singleton]
      simp only [reduceCtorEq, false_and, or_false]
      exact and_comm

theorem endsVoid_foldl :
    endsVoid void (is.foldl (fun acc i => node acc (.term i)) .identity) =
      is.getLast?.elim false void := by
  cases is using List.reverseRecOn with
  | nil => rfl
  | append_singleton is k => simp [endsVoid]

end Accumulation

end CombineTree

end Combining
