/-
Broadcast shape inference is a join.  Shapes are ordered by broadcasting; the shape of a
tree is the least one all its leaves broadcast to, it exists exactly when their sizes
agree, and neither depends on the order or the nesting of the leaves.
-/
import Vectorization.ExpressionShape

namespace Vectorization

open StridedSpace

universe u

variable {T : ElementType} {α : Type u}

/-- `try_expression_shape`. -/
def tryExpressionShape (e : Expr (Leaf T) α) : Option (List Nat) :=
  accumulateShape e []

/-- The shapes of the leaves in tree order. -/
def Expr.leafShapes (e : Expr (Leaf T) α) : List (List Nat) :=
  e.leaves.map fun l => l.toRef.sizes

/-- Aligned from the right, all sizes other than one agree in each dimension. -/
def SizesAgree (shapes : List (List Nat)) : Prop :=
  ∀ a ∈ shapes, ∀ b ∈ shapes, ∀ k n m : Nat, a.reverse[k]? = some n →
    b.reverse[k]? = some m → n ≠ 1 → m ≠ 1 → n = m

/-- The least shape that all shapes broadcast to. -/
structure IsBroadcastJoin (shapes : List (List Nat)) (out : List Nat) : Prop where
  upper : ∀ s ∈ shapes, BroadcastsTo s out
  least : ∀ other, (∀ s ∈ shapes, BroadcastsTo s other) → BroadcastsTo out other

section Order

theorem FitsInto.antisymm {ns ms : List Nat} (h : FitsInto ns ms) (h' : FitsInto ms ns) :
    ns = ms := by
  induction ns generalizing ms with
  | nil =>
      cases ms with
      | nil => rfl
      | cons m ms => exact absurd h' (by simp [FitsInto])
  | cons n ns ih =>
      cases ms with
      | nil => exact absurd h (by simp [FitsInto])
      | cons m ms =>
          obtain ⟨hn, htail⟩ := h
          obtain ⟨hm, htail'⟩ := h'
          rw [ih htail htail', show n = m by omega]

theorem BroadcastsTo.antisymm {a b : List Nat} (h : BroadcastsTo a b)
    (h' : BroadcastsTo b a) : a = b :=
  List.reverse_injective (FitsInto.antisymm h h')

theorem IsBroadcastJoin.unique {shapes : List (List Nat)} {out out' : List Nat}
    (h : IsBroadcastJoin shapes out) (h' : IsBroadcastJoin shapes out') : out = out' :=
  BroadcastsTo.antisymm (h.least out' h'.upper) (h'.least out h.upper)

theorem IsBroadcastJoin.perm {shapes shapes' : List (List Nat)} {out : List Nat}
    (h : IsBroadcastJoin shapes out) (hperm : shapes.Perm shapes') :
    IsBroadcastJoin shapes' out :=
  ⟨fun s hs => h.upper s (hperm.mem_iff.2 hs), fun other hother =>
    h.least other fun s hs => hother s (hperm.mem_iff.1 hs)⟩

theorem SizesAgree.perm {shapes shapes' : List (List Nat)} (h : SizesAgree shapes)
    (hperm : shapes.Perm shapes') : SizesAgree shapes' :=
  fun a ha b hb => h a (hperm.mem_iff.2 ha) b (hperm.mem_iff.2 hb)

end Order

section Pairs

/-- Innermost first: sizes other than one agree. -/
def Compatible : List Nat → List Nat → Prop
  | a :: as, b :: bs => (a = 1 ∨ b = 1 ∨ a = b) ∧ Compatible as bs
  | _, _ => True

theorem compatible_nil_left (bs : List Nat) : Compatible [] bs := by
  cases bs <;> trivial

theorem compatible_nil_right (as : List Nat) : Compatible as [] := by
  cases as <;> trivial

theorem compatible_iff {as bs : List Nat} :
    Compatible as bs ↔
      ∀ k n m : Nat, as[k]? = some n → bs[k]? = some m → n ≠ 1 → m ≠ 1 → n = m := by
  induction as generalizing bs with
  | nil => simp [compatible_nil_left]
  | cons a as ih =>
      cases bs with
      | nil => simp [compatible_nil_right]
      | cons b bs =>
          rw [Compatible, ih]
          constructor
          · rintro ⟨hhead, htail⟩ k n m hn hm hn1 hm1
            cases k with
            | zero =>
                cases hn
                cases hm
                omega
            | succ k => exact htail k n m hn hm hn1 hm1
          · intro h
            refine ⟨?_, fun k n m => h (k + 1) n m⟩
            have hzero := h 0 a b rfl rfl
            omega

theorem Compatible.symm {as bs : List Nat} (h : Compatible as bs) : Compatible bs as := by
  rw [compatible_iff] at h ⊢
  intro k n m hn hm hn1 hm1
  exact (h k m n hm hn hm1 hn1).symm

/-- A pair of shapes is joined exactly when it is compatible. -/
theorem broadcastPairs_isSome {as bs : List Nat} :
    (∃ cs, broadcastPairs as bs = some cs) ↔ Compatible as bs := by
  induction as generalizing bs with
  | nil => exact ⟨fun _ => compatible_nil_left bs, fun _ => ⟨bs, by simp [broadcastPairs]⟩⟩
  | cons a as ih =>
      cases bs with
      | nil => exact ⟨fun _ => trivial, fun _ => ⟨a :: as, by simp [broadcastPairs]⟩⟩
      | cons b bs =>
          rw [broadcastPairs, Compatible, ← ih]
          split <;> rename_i hclash
          · constructor
            · rintro ⟨cs, hcs⟩
              cases hcs
            · rintro ⟨hhead, -⟩
              omega
          · simp only [Option.map_eq_some_iff]
            constructor
            · rintro ⟨cs, ds, hds, -⟩
              exact ⟨by omega, ds, hds⟩
            · rintro ⟨-, ds, hds⟩
              exact ⟨_, ds, hds, rfl⟩

/-- What is compatible with both shapes is compatible with their join. -/
theorem compatible_broadcastPairs {as bs cs xs : List Nat}
    (h : broadcastPairs as bs = some cs) :
    Compatible cs xs ↔ Compatible as xs ∧ Compatible bs xs := by
  induction as generalizing bs cs xs with
  | nil =>
      obtain rfl : bs = cs := by simpa [broadcastPairs] using h
      simp [compatible_nil_left]
  | cons a as ih =>
      cases bs with
      | nil =>
          obtain rfl : a :: as = cs := by simpa [broadcastPairs] using h
          simp [compatible_nil_left]
      | cons b bs =>
          rw [broadcastPairs] at h
          split at h <;> rename_i hclash
          · cases h
          · obtain ⟨ds, hds, rfl⟩ := Option.map_eq_some_iff.1 h
            cases xs with
            | nil => simp [compatible_nil_right]
            | cons x xs =>
                rw [Compatible, Compatible, Compatible, ih hds]
                split <;> grind

theorem broadcastPairs_least {as bs cs ds : List Nat} (h : broadcastPairs as bs = some cs)
    (ha : FitsInto as ds) (hb : FitsInto bs ds) : FitsInto cs ds := by
  induction as generalizing bs cs ds with
  | nil =>
      obtain rfl : bs = cs := by simpa [broadcastPairs] using h
      exact hb
  | cons a as ih =>
      cases bs with
      | nil =>
          obtain rfl : a :: as = cs := by simpa [broadcastPairs] using h
          exact ha
      | cons b bs =>
          rw [broadcastPairs] at h
          split at h <;> rename_i hclash
          · cases h
          · obtain ⟨cs', hcs, rfl⟩ := Option.map_eq_some_iff.1 h
            cases ds with
            | nil => exact absurd ha (by simp [FitsInto])
            | cons d ds =>
                refine ⟨?_, ih hcs ha.2 hb.2⟩
                split
                · exact hb.1
                · exact ha.1

end Pairs

section Leaves

theorem broadcastInto_isSome {acc sizes : List Nat} :
    (∃ out, broadcastInto acc sizes = some out) ↔
      sizes.length ≤ kMaxRank ∧ Compatible acc.reverse sizes.reverse := by
  rw [broadcastInto, ← broadcastPairs_isSome]
  split <;> rename_i hrank
  · constructor
    · rintro ⟨out, hout⟩
      cases hout
    · rintro ⟨hle, -⟩
      omega
  · simp only [Option.map_eq_some_iff]
    constructor
    · rintro ⟨out, cs, hcs, -⟩
      exact ⟨by omega, cs, hcs⟩
    · rintro ⟨-, cs, hcs⟩
      exact ⟨_, cs, hcs, rfl⟩

theorem broadcastInto_pairs {acc sizes out : List Nat} (h : broadcastInto acc sizes = some out) :
    broadcastPairs acc.reverse sizes.reverse = some out.reverse := by
  rw [broadcastInto] at h
  split at h
  · cases h
  · obtain ⟨cs, hcs, rfl⟩ := Option.map_eq_some_iff.1 h
    rw [hcs, List.reverse_reverse]

/-- The leaves are accumulated one by one, however the nodes nest them. -/
theorem accumulateShape_eq_foldlM (e : Expr (Leaf T) α) (acc : List Nat) :
    accumulateShape e acc = e.leafShapes.foldlM broadcastInto acc := by
  induction e generalizing acc with
  | scalar _ => rfl
  | leaf l =>
      change broadcastInto acc l.toRef.sizes = [l.toRef.sizes].foldlM broadcastInto acc
      rw [List.foldlM_cons]
      simp
  | unary functor rhs ih => exact ih acc
  | binary functor lhs rhs ihl ihr =>
      rw [accumulateShape, Expr.leafShapes, Expr.leaves, List.map_append, List.foldlM_append, ihl]
      exact Option.bind_congr fun mid _ => ihr mid
  | trinary functor lhs mhs rhs ihl ihm ihr =>
      rw [accumulateShape, Expr.leafShapes, Expr.leaves, List.map_append, List.map_append,
        List.foldlM_append, ihl, Option.bind_assoc]
      refine Option.bind_congr fun mid _ => ?_
      rw [List.foldlM_append, ihm]
      exact Option.bind_congr fun mid' _ => ihr mid'

/-- Accumulation succeeds when no rank exceeds the limit and no two shapes clash. -/
theorem foldlM_broadcastInto_isSome {shapes : List (List Nat)} {acc : List Nat} :
    (∃ out, shapes.foldlM broadcastInto acc = some out) ↔
      (∀ s ∈ shapes, s.length ≤ kMaxRank) ∧
        (acc :: shapes).Pairwise fun a b => Compatible a.reverse b.reverse := by
  induction shapes generalizing acc with
  | nil => exact ⟨fun _ => ⟨by simp, List.pairwise_singleton _ _⟩, fun _ => ⟨acc, rfl⟩⟩
  | cons s shapes ih =>
      rw [List.foldlM_cons, List.forall_mem_cons, List.pairwise_cons, List.pairwise_cons,
        List.forall_mem_cons]
      constructor
      · rintro ⟨out, hout⟩
        obtain ⟨mid, hmid, hout⟩ := Option.bind_eq_some_iff.1 hout
        obtain ⟨hrank, hhead⟩ := broadcastInto_isSome.1 ⟨mid, hmid⟩
        obtain ⟨hranks, htail⟩ := ih.1 ⟨out, hout⟩
        obtain ⟨hmids, hpairs⟩ := List.pairwise_cons.1 htail
        have hboth := fun r hr =>
          (compatible_broadcastPairs (broadcastInto_pairs hmid)).1 (hmids r hr)
        exact ⟨⟨hrank, hranks⟩, ⟨hhead, fun r hr => (hboth r hr).1⟩,
          fun r hr => (hboth r hr).2, hpairs⟩
      · rintro ⟨⟨hrank, hranks⟩, ⟨hhead, haccs⟩, hss, hpairs⟩
        obtain ⟨mid, hmid⟩ := broadcastInto_isSome.2 ⟨hrank, hhead⟩
        obtain ⟨out, hout⟩ := ih.2 ⟨hranks, List.pairwise_cons.2 ⟨fun r hr =>
          (compatible_broadcastPairs (broadcastInto_pairs hmid)).2 ⟨haccs r hr, hss r hr⟩,
          hpairs⟩⟩
        exact ⟨out, Option.bind_eq_some_iff.2 ⟨mid, hmid, hout⟩⟩

/-- What is accumulated is the join. -/
theorem foldlM_broadcastInto_join {shapes : List (List Nat)} {acc out : List Nat}
    (h : shapes.foldlM broadcastInto acc = some out) : IsBroadcastJoin (acc :: shapes) out := by
  induction shapes generalizing acc with
  | nil =>
      cases h
      refine ⟨fun s hs => ?_, fun other hother => hother out List.mem_cons_self⟩
      obtain rfl := List.mem_singleton.1 hs
      exact BroadcastsTo.refl s
  | cons s shapes ih =>
      rw [List.foldlM_cons] at h
      obtain ⟨mid, hmid, hout⟩ := Option.bind_eq_some_iff.1 h
      obtain ⟨hupper, hleast⟩ := ih hout
      obtain ⟨hacc, hs⟩ := broadcastInto_fits hmid
      have hmidout := hupper mid List.mem_cons_self
      refine ⟨?_, fun other hother => hleast other ?_⟩
      · rw [List.forall_mem_cons, List.forall_mem_cons]
        exact ⟨hacc.trans hmidout, hs.trans hmidout, fun r hr =>
          hupper r (List.mem_cons_of_mem mid hr)⟩
      · rw [List.forall_mem_cons, List.forall_mem_cons] at hother
        rw [List.forall_mem_cons]
        exact ⟨broadcastPairs_least (broadcastInto_pairs hmid) hother.1 hother.2.1,
          hother.2.2⟩

end Leaves

section Tree

theorem isBroadcastJoin_cons_nil {shapes : List (List Nat)} {out : List Nat} :
    IsBroadcastJoin ([] :: shapes) out ↔ IsBroadcastJoin shapes out := by
  have hnil (s : List Nat) : BroadcastsTo [] s := by
    unfold BroadcastsTo
    rw [List.reverse_nil]
    trivial
  constructor
  · rintro ⟨hupper, hleast⟩
    exact ⟨fun s hs => hupper s (List.mem_cons_of_mem [] hs), fun other hother =>
      hleast other (List.forall_mem_cons.2 ⟨hnil other, hother⟩)⟩
  · rintro ⟨hupper, hleast⟩
    exact ⟨List.forall_mem_cons.2 ⟨hnil out, hupper⟩, fun other hother =>
      hleast other fun s hs => hother s (List.mem_cons_of_mem [] hs)⟩

instance : Std.Symm fun a b : List Nat => Compatible a.reverse b.reverse where
  symm _ _ h := h.symm

theorem sizesAgree_iff_pairwise {shapes : List (List Nat)} :
    SizesAgree shapes ↔ shapes.Pairwise fun a b => Compatible a.reverse b.reverse := by
  constructor
  · intro h
    apply List.pairwise_of_forall_mem_list
    intro a ha b hb
    exact compatible_iff.2 (h a ha b hb)
  · intro h a ha b hb
    rw [← compatible_iff]
    have hself : ∀ a ∈ shapes, Compatible a.reverse a.reverse := by
      intro a _
      rw [compatible_iff]
      intro k n m hn hm _ _
      rw [hn] at hm
      exact Option.some.inj hm
    exact h.forall_of_forall hself ha hb

theorem tryExpressionShape_isSome {e : Expr (Leaf T) α} :
    (∃ out, tryExpressionShape e = some out) ↔
      (∀ s ∈ e.leafShapes, s.length ≤ kMaxRank) ∧ SizesAgree e.leafShapes := by
  rw [tryExpressionShape, accumulateShape_eq_foldlM, foldlM_broadcastInto_isSome,
    sizesAgree_iff_pairwise, List.pairwise_cons]
  exact and_congr_right fun _ => and_iff_right fun s _ => compatible_nil_left _

theorem tryExpressionShape_isJoin {e : Expr (Leaf T) α} {out : List Nat}
    (h : tryExpressionShape e = some out) : IsBroadcastJoin e.leafShapes out := by
  rw [tryExpressionShape, accumulateShape_eq_foldlM] at h
  exact isBroadcastJoin_cons_nil.1 (foldlM_broadcastInto_join h)

/-- Broadcast shape inference is a join of the leaf shapes: it succeeds when their sizes
agree, yields the least shape they broadcast to, and depends on nothing else. -/
theorem tryExpressionShape_join (e : Expr (Leaf T) α) :
    ((∃ out, tryExpressionShape e = some out) ↔
        (∀ s ∈ e.leafShapes, s.length ≤ kMaxRank) ∧ SizesAgree e.leafShapes) ∧
      (∀ out, tryExpressionShape e = some out → IsBroadcastJoin e.leafShapes out) ∧
      ∀ (T' : ElementType) (α' : Type u) (e' : Expr (Leaf T') α'),
        e.leafShapes.Perm e'.leafShapes → tryExpressionShape e' = tryExpressionShape e := by
  refine ⟨tryExpressionShape_isSome, fun out => tryExpressionShape_isJoin, ?_⟩
  intro T' α' e' hperm
  cases hshape : tryExpressionShape e with
  | some out =>
      obtain ⟨hranks, hagree⟩ := tryExpressionShape_isSome.1 ⟨out, hshape⟩
      obtain ⟨out', hshape'⟩ := tryExpressionShape_isSome.2
        ⟨fun s hs => hranks s (hperm.mem_iff.2 hs), hagree.perm hperm⟩
      have hjoin := (tryExpressionShape_isJoin hshape).perm hperm
      rw [hshape', (tryExpressionShape_isJoin hshape').unique hjoin]
  | none =>
      cases hshape' : tryExpressionShape e' with
      | none => rfl
      | some out' =>
          obtain ⟨hranks, hagree⟩ := tryExpressionShape_isSome.1 ⟨out', hshape'⟩
          obtain ⟨out, hout⟩ := (tryExpressionShape_isSome (e := e)).2
            ⟨fun s hs => hranks s (hperm.mem_iff.1 hs), hagree.perm hperm.symm⟩
          rw [hshape] at hout
          cases hout

end Tree

end Vectorization
