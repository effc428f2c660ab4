/-
Reductions whose order of combination is left open.  A tree records how a result was
combined from the identity and from numbered terms; an operation that is exact on a
set of values gives every tree the value of the sequential fold over its terms.
-/
import Mathlib

namespace Combining

variable {ι ρ σ : Type}

inductive CombineTree (ι : Type)
  | identity
  | term (i : ι)
  | node (lhs rhs : CombineTree ι)
deriving Repr, DecidableEq

namespace CombineTree

def eval (combine : ρ → ρ → ρ) (identity : ρ) (term : ι → ρ) : CombineTree ι → ρ
  | .identity => identity
  | .term i => term i
  | node lhs rhs => combine (lhs.eval combine identity term) (rhs.eval combine identity term)

/-- The terms from left to right. -/
def terms : CombineTree ι → List ι
  | .identity => []
  | .term i => [i]
  | node lhs rhs => lhs.terms ++ rhs.terms

/-- A tree over terms that are trees themselves. -/
def bind (f : ι → CombineTree σ) : CombineTree ι → CombineTree σ
  | .identity => .identity
  | .term i => f i
  | node lhs rhs => node (lhs.bind f) (rhs.bind f)

theorem terms_bind (f : ι → CombineTree σ) (t : CombineTree ι) :
    (t.bind f).terms = t.terms.flatMap fun i => (f i).terms := by
  induction t with
  | identity => rfl
  | term i => simp [bind, terms]
  | node lhs rhs ihl ihr => simp [bind, terms, ihl, ihr]

theorem eval_bind (combine : ρ → ρ → ρ) (identity : ρ) (term : σ → ρ) (f : ι → CombineTree σ)
    (t : CombineTree ι) :
    (t.bind f).eval combine identity term =
      t.eval combine identity fun i => (f i).eval combine identity term := by
  induction t with
  | identity => rfl
  | term i => rfl
  | node lhs rhs ihl ihr => simp only [bind, eval, ihl, ihr]

theorem eval_congr {combine : ρ → ρ → ρ} {identity : ρ} {term term' : ι → ρ} {t : CombineTree ι}
    (h : ∀ i ∈ t.terms, term i = term' i) :
    t.eval combine identity term = t.eval combine identity term' := by
  induction t with
  | identity => rfl
  | term i => exact h i (by simp [terms])
  | node lhs rhs ihl ihr =>
      simp only [eval, ihl fun i hi => h i (List.mem_append_left _ hi),
        ihr fun i hi => h i (List.mem_append_right _ hi)]

/-- A value accumulated from the left. -/
theorem eval_foldl (combine : ρ → ρ → ρ) (identity : ρ) (term : ι → ρ) (is : List ι)
    (t : CombineTree ι) :
    (is.foldl (fun acc i => node acc (.term i)) t).eval combine identity term =
      is.foldl (fun acc i => combine acc (term i)) (t.eval combine identity term) := by
  induction is generalizing t with
  | nil => rfl
  | cons i is ih => exact ih _

theorem terms_foldl (is : List ι) (t : CombineTree ι) :
    (is.foldl (fun acc i => node acc (.term i)) t).terms = t.terms ++ is := by
  induction is generalizing t with
  | nil => simp
  | cons i is ih =>
      rw [List.foldl_cons, ih, terms, terms, List.append_assoc, List.singleton_append]

end CombineTree

section Distribution

/-- A list dealt out by a key and gathered again. -/
theorem flatMap_filter_perm {key : ι → Nat} {bound : Nat} {l : List ι}
    (h : ∀ a ∈ l, key a < bound) (g : ι → List σ) :
    ((List.range bound).flatMap fun k => (l.filter fun a => key a = k).flatMap g).Perm
      (l.flatMap g) := by
  induction l with
  | nil => simp
  | cons a l ih =>
      have hsplit (k : Nat) : ((a :: l).filter fun b => key b = k).flatMap g =
          (if key a = k then g a else []) ++ (l.filter fun b => key b = k).flatMap g := by
        rw [List.filter_cons]
        split <;> simp_all
      have hone : ((List.range bound).flatMap fun k => if key a = k then g a else []) = g a := by
        have hlt : key a < bound := h a List.mem_cons_self
        clear ih h hsplit
        induction bound with
        | zero => exact absurd hlt (Nat.not_lt_zero _)
        | succ bound ih =>
            rw [List.range_succ, List.flatMap_append, List.flatMap_singleton]
            rcases Nat.lt_succ_iff_lt_or_eq.1 hlt with hlt | heq
            · rw [ih hlt, if_neg (Nat.ne_of_lt hlt), List.append_nil]
            · rw [if_pos heq, List.flatMap_eq_nil_iff.2, List.nil_append]
              intro k hk
              rw [if_neg (heq ▸ (Nat.ne_of_lt (List.mem_range.1 hk)).symm)]
      simp only [hsplit, List.flatMap_cons]
      refine (List.flatMap_append_perm _ _ _).symm.trans ?_
      rw [hone]
      exact (ih fun b hb => h b (List.mem_cons_of_mem _ hb)).append_left _

/-- Rows against columns. -/
theorem flatMap_map_perm (l : List ι) (m : List σ) (f : ι → σ → ρ) :
    (l.flatMap fun a => m.map (f a)).Perm (m.flatMap fun b => l.map fun a => f a b) := by
  induction l with
  | nil => simp
  | cons a l ih =>
      rw [List.flatMap_cons]
      exact (ih.append_left _).trans (List.map_append_flatMap_perm _ _ _)

/-- Either of two loops may be the outer one. -/
theorem flatMap_flatMap_perm {τ : Type} (l : List ι) (m : List σ) (f : ι → σ → List τ) :
    (l.flatMap fun a => m.flatMap (f a)).Perm (m.flatMap fun b => l.flatMap fun a => f a b) := by
  induction l with
  | nil => simp
  | cons a l ih =>
      simp only [List.flatMap_cons]
      exact (ih.append_left _).trans (List.flatMap_append_perm _ _ _)

end Distribution

/-- On the values of `P` the operation is a commutative monoid. -/
structure ExactOn (combine : ρ → ρ → ρ) (identity : ρ) (P : ρ → Prop) : Prop where
  identity_mem : P identity
  combine_mem : ∀ {a b}, P a → P b → P (combine a b)
  assoc : ∀ {a b c}, P a → P b → P c → combine (combine a b) c = combine a (combine b c)
  comm : ∀ {a b}, P a → P b → combine a b = combine b a
  identity_combine : ∀ {a}, P a → combine identity a = a

namespace ExactOn

variable {combine : ρ → ρ → ρ} {identity : ρ} {P : ρ → Prop}
  (h : ExactOn combine identity P)
include h

theorem combine_identity {a : ρ} (ha : P a) : combine a identity = a := by
  rw [h.comm ha h.identity_mem, h.identity_combine ha]

theorem foldl_mem {l : List ρ} (hl : ∀ b ∈ l, P b) {a : ρ} (ha : P a) :
    P (l.foldl combine a) := by
  induction l generalizing a with
  | nil => exact ha
  | cons b l ih =>
      exact ih (fun c hc => hl c (List.mem_cons_of_mem _ hc))
        (h.combine_mem ha (hl b List.mem_cons_self))

theorem foldl_combine {l : List ρ} (hl : ∀ b ∈ l, P b) {a b : ρ} (ha : P a) (hb : P b) :
    l.foldl combine (combine a b) = combine a (l.foldl combine b) := by
  induction l generalizing b with
  | nil => rfl
  | cons c l ih =>
      have hc := hl c List.mem_cons_self
      rw [List.foldl_cons, List.foldl_cons, h.assoc ha hb hc]
      exact ih (fun c hc => hl c (List.mem_cons_of_mem _ hc)) (h.combine_mem hb hc)

/-- The start of a fold can be combined at the end. -/
theorem foldl_eq {l : List ρ} (hl : ∀ b ∈ l, P b) {a : ρ} (ha : P a) :
    l.foldl combine a = combine a (l.foldl combine identity) := by
  rw [← h.foldl_combine hl ha h.identity_mem, h.combine_identity ha]

theorem foldl_cons {l : List ρ} {a : ρ} (hl : ∀ b ∈ a :: l, P b) :
    (a :: l).foldl combine identity = combine a (l.foldl combine identity) := by
  have ha := hl a List.mem_cons_self
  rw [List.foldl_cons, h.identity_combine ha,
    h.foldl_eq (fun b hb => hl b (List.mem_cons_of_mem _ hb)) ha]

theorem foldl_append {l l' : List ρ} (hl : ∀ b ∈ l, P b) (hl' : ∀ b ∈ l', P b) :
    (l ++ l').foldl combine identity =
      combine (l.foldl combine identity) (l'.foldl combine identity) := by
  rw [List.foldl_append, h.foldl_eq hl' (h.foldl_mem hl h.identity_mem)]

/-- The order of the values does not matter. -/
theorem foldl_perm {l l' : List ρ} (hperm : l.Perm l') (hl : ∀ b ∈ l, P b) :
    l.foldl combine identity = l'.foldl combine identity := by
  induction hperm with
  | nil => rfl
  | @cons a l l' hperm ih =>
      have hl' : ∀ b ∈ a :: l', P b := fun b hb =>
        hl b ((hperm.cons a).mem_iff.2 hb)
      rw [h.foldl_cons hl, h.foldl_cons hl', ih fun b hb => hl b (List.mem_cons_of_mem _ hb)]
  | swap a b l =>
      have hb := hl b List.mem_cons_self
      have ha := hl a (List.mem_cons_of_mem _ List.mem_cons_self)
      rw [List.foldl_cons, List.foldl_cons, List.foldl_cons, List.foldl_cons,
        h.identity_combine ha, h.identity_combine hb, h.comm ha hb]
  | trans hperm _ ih ih' =>
      rw [ih hl, ih' fun b hb => hl b (hperm.mem_iff.2 hb)]

/-- A fold of folds. -/
theorem foldl_flatMap {f : ι → List ρ} {l : List ι} (hf : ∀ i ∈ l, ∀ b ∈ f i, P b) :
    (l.flatMap f).foldl combine identity =
      (l.map fun i => (f i).foldl combine identity).foldl combine identity := by
  induction l with
  | nil => rfl
  | cons i l ih =>
      have hi : ∀ b ∈ f i, P b := hf i List.mem_cons_self
      have hl : ∀ j ∈ l, ∀ b ∈ f j, P b := fun j hj => hf j (List.mem_cons_of_mem _ hj)
      have hmap : ∀ b ∈ (i :: l).map fun i => (f i).foldl combine identity, P b := by
        intro b hb
        obtain ⟨j, hj, rfl⟩ := List.mem_map.1 hb
        exact h.foldl_mem (hf j hj) h.identity_mem
      rw [List.flatMap_cons, h.foldl_append hi fun b hb => by
        obtain ⟨j, hj, hb⟩ := List.mem_flatMap.1 hb
        exact hl j hj b hb]
      rw [List.map_cons] at hmap ⊢
      rw [h.foldl_cons hmap, ih hl]

/-- Every tree has the value of the sequential fold over its terms. -/
theorem eval_eq_foldl {term : ι → ρ} {t : CombineTree ι} (hterm : ∀ i ∈ t.terms, P (term i)) :
    t.eval combine identity term = (t.terms.map term).foldl combine identity := by
  induction t with
  | identity => rfl
  | term i =>
      have hi : P (term i) := hterm i (by simp [CombineTree.terms])
      exact (h.identity_combine hi).symm
  | node lhs rhs ihl ihr =>
      have hl : ∀ i ∈ lhs.terms, P (term i) := fun i hi =>
        hterm i (List.mem_append_left _ hi)
      have hr : ∀ i ∈ rhs.terms, P (term i) := fun i hi =>
        hterm i (List.mem_append_right _ hi)
      rw [CombineTree.eval, ihl hl, ihr hr, CombineTree.terms, List.map_append,
        h.foldl_append (by simpa using hl) (by simpa using hr)]

end ExactOn

section Semigroups

/-- On the values of `P` the operation is a commutative semigroup. -/
structure SemigroupOn (combine : ρ → ρ → ρ) (P : ρ → Prop) : Prop where
  combine_mem : ∀ {a b}, P a → P b → P (combine a b)
  assoc : ∀ {a b c}, P a → P b → P c → combine (combine a b) c = combine a (combine b c)
  comm : ∀ {a b}, P a → P b → combine a b = combine b a

/-- The combination of the values of a list, if there are any. -/
def combineAll (combine : ρ → ρ → ρ) : List ρ → Option ρ
  | [] => none
  | a :: l => some (l.foldl combine a)

variable {combine : ρ → ρ → ρ}

theorem foldl_merge (l : List ρ) (a : ρ) :
    (l.map some).foldl (Option.merge combine) (some a) = some (l.foldl combine a) := by
  induction l generalizing a with
  | nil => rfl
  | cons b l ih => exact ih _

/-- `none` is an identity for the missing one. -/
theorem combineAll_eq_merge (l : List ρ) :
    combineAll combine l = (l.map some).foldl (Option.merge combine) none := by
  cases l with
  | nil => rfl
  | cons a l => exact (foldl_merge l a).symm

theorem combineAll_eq_foldl {identity : ρ} {l : List ρ} (hne : l ≠ [])
    (hidentity : ∀ a ∈ l, combine identity a = a) :
    combineAll combine l = some (l.foldl combine identity) := by
  cases l with
  | nil => exact absurd rfl hne
  | cons a l => rw [combineAll, List.foldl_cons, hidentity a List.mem_cons_self]

/-- Combination commutes with what respects the operation. -/
theorem combineAll_map {f : ι → ρ} {combine' : ι → ι → ι}
    (hf : ∀ a b, f (combine' a b) = combine (f a) (f b)) (l : List ι) :
    combineAll combine (l.map f) = (combineAll combine' l).map f := by
  cases l with
  | nil => rfl
  | cons a l =>
      refine congrArg some ?_
      induction l generalizing a with
      | nil => rfl
      | cons b l ih =>
          rw [List.map_cons, List.foldl_cons, List.foldl_cons, ← hf]
          exact ih _

theorem SemigroupOn.adjoin {P : ρ → Prop} (h : SemigroupOn combine P) :
    ExactOn (Option.merge combine) none fun o => ∀ a ∈ o, P a where
  identity_mem := by
    intro a ha
    cases ha
  combine_mem := by
    intro o o' ho ho' a ha
    cases o <;> cases o' <;> cases ha
    · exact ho' _ rfl
    · exact ho _ rfl
    · exact h.combine_mem (ho _ rfl) (ho' _ rfl)
  assoc := by
    intro o o' o'' ho ho' ho''
    cases o <;> cases o' <;> cases o'' <;> try rfl
    exact congrArg some (h.assoc (ho _ rfl) (ho' _ rfl) (ho'' _ rfl))
  comm := by
    intro o o' ho ho'
    cases o <;> cases o' <;> try rfl
    exact congrArg some (h.comm (ho _ rfl) (ho' _ rfl))
  identity_combine := by
    intro o _
    cases o <;> rfl

end Semigroups

section Counting

/-- A counter whose values `count n` stay exact up to `bound` counts the hits. -/
theorem foldl_counts {add : ρ → ρ → ρ} {zero one : ρ} {count : Nat → ρ} {bound : Nat}
    (hone : ∀ n < bound, add (count n) one = count (n + 1))
    (hzero : ∀ n ≤ bound, add (count n) zero = count n) (hit : ι → Bool) {l : List ι} {n : Nat}
    (hbound : n + l.length ≤ bound) :
    l.foldl (fun c i => add c (if hit i then one else zero)) (count n) =
      count (n + l.countP hit) := by
  induction l generalizing n with
  | nil => rfl
  | cons i l ih =>
      rw [List.length_cons] at hbound
      rw [List.foldl_cons, List.countP_cons]
      cases hit i with
      | true =>
          rw [if_pos rfl, if_pos rfl, hone n (by omega), ih (by omega)]
          congr 1
          omega
      | false =>
          rw [if_neg Bool.false_ne_true, if_neg Bool.false_ne_true, hzero n (by omega),
            ih (by omega), Nat.add_zero]

end Counting

end Combining
