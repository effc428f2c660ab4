/-
The two lowerings of an expression agree.  A tree whose leaves are rebased into the
result's index space, as reductions and kernels read it, yields at every flat index what
the planner writes at that position.
-/
import Vectorization.CachedFlags
import Vectorization.PlannedEvaluation

namespace Vectorization

open StridedSpace MachineInteger ByteMemory AtomicRun

variable {T : ElementType} {α : Type}

/-- A tree that rebases is rebased leaf by leaf. -/
theorem rebaseLeaves_ok {out : List Nat} {e lowered : Expr (Leaf T) α}
    (h : rebaseLeaves out e = .ok lowered) :
    List.Forall₂ (fun l l' => rebaseLeaf out l = .ok l') e.leaves lowered.leaves := by
  induction e generalizing lowered with
  | scalar value =>
      cases h
      exact List.Forall₂.nil
  | leaf l =>
      obtain ⟨l', hl, h⟩ := exceptBind_ok.1 h
      cases h
      exact List.Forall₂.cons hl List.Forall₂.nil
  | unary functor rhs ih =>
      obtain ⟨rhs', hrhs, h⟩ := exceptBind_ok.1 h
      cases h
      have hleaves := ih hrhs
      exact hleaves
  | binary functor lhs rhs ihl ihr =>
      obtain ⟨lhs', hlhs, h⟩ := exceptBind_ok.1 h
      obtain ⟨rhs', hrhs, h⟩ := exceptBind_ok.1 h
      cases h
      exact List.rel_append (ihl hlhs) (ihr hrhs)
  | trinary functor lhs mhs rhs ihl ihm ihr =>
      obtain ⟨lhs', hlhs, h⟩ := exceptBind_ok.1 h
      obtain ⟨mhs', hmhs, h⟩ := exceptBind_ok.1 h
      obtain ⟨rhs', hrhs, h⟩ := exceptBind_ok.1 h
      cases h
      exact List.rel_append (ihl hlhs) (List.rel_append (ihm hmhs) (ihr hrhs))

/-- Every rebased leaf is read where the broadcast of the flat index lies. -/
def ReadsBroadcast (out : List Nat) (l l' : Leaf T) : Prop :=
  ∀ i < out.prod,
    (l'.data : Int) + (l'.leafOffset i : Nat) * T.size = l.readAddress (unflatten out i)

theorem rebaseLeaves_readsBroadcast {out : List Nat} {e lowered : Expr (Leaf T) α}
    (hlaid : ∀ l ∈ e.leaves, l.Laid) (hfit : ∀ l ∈ e.leaves, BroadcastsTo l.toRef.sizes out)
    (hviews : ∀ v, Leaf.view v ∈ e.leaves → v.size = out.prod)
    (h : rebaseLeaves out e = .ok lowered) :
    List.Forall₂ (ReadsBroadcast out) e.leaves lowered.leaves := by
  have hleaves := (List.forall₂_and_left _ _).2 ⟨fun l hl => hl, rebaseLeaves_ok h⟩
  refine hleaves.imp fun l l' hl => ?_
  obtain ⟨hmem, hrebased⟩ := hl
  obtain ⟨r, hr, haddress⟩ := rebaseLeaf_address (hlaid l hmem) (hfit l hmem)
    fun v hv => hviews v (hv ▸ hmem)
  rw [hrebased, Except.ok.injEq] at hr
  exact hr ▸ haddress

section Agreement

variable (S : SimdTarget T) (threads : ParallelFor) (c : Codec α T.size)
  {e : Expr (Leaf T) α} {shape : List Nat}

/-- The flat-lowered tree agrees with the planner: each leaf is read at the right-aligned
broadcast of the flat index, and the value is the one a planned run writes there. -/
theorem flatLowered_agrees (hshape : expressionResultShape e = .ok shape)
    (hleaves : ∀ l ∈ e.leaves, ∃ s : StridedRef T, l = .ref s ∧ s.Laid) :
    ∃ lowered, rebaseLeaves shape e = .ok lowered ∧
      List.Forall₂ (ReadsBroadcast shape) e.leaves lowered.leaves ∧
      (∀ m, ∀ i < shape.prod,
        lowered.evaluate (Leaf.read c m i) = logicalValue c m e (unflatten shape i)) ∧
      (e.LaneWise → ∀ (dst : StridedRef T) (ops : List (StoreOp StoreKind α)), dst.sizes = shape →
        dst.Stored → isNonOverlapping dst = true → runPlanned S threads c e dst shape = .ok ops →
        (∀ m, (writesOf T.size m ops).Perm ((List.range shape.prod).map fun i =>
          (dst.address (unflatten shape i), lowered.evaluate (Leaf.read c m i)))) ∧
        ((∀ l ∈ e.leaves, AliasSafe dst l) → ∀ m, ∀ i < shape.prod,
          load c (run c ops m) (dst.address (unflatten shape i)) =
            lowered.evaluate (Leaf.read c m i))) := by
  have hfit := expressionResultShape_fits hshape
  have hlaid : ∀ l ∈ e.leaves, l.Laid := by
    intro l hl
    obtain ⟨s, rfl, hs⟩ := hleaves l hl
    exact hs
  have hviews : ∀ v, Leaf.view v ∈ e.leaves → v.size = shape.prod := by
    intro v hv
    obtain ⟨s, hs, -⟩ := hleaves _ hv
    cases hs
  obtain ⟨lowered, hlowered, hread⟩ := rebaseLeaves_evaluate c hlaid hfit hviews
  refine ⟨lowered, hlowered, rebaseLeaves_readsBroadcast hlaid hfit hviews hlowered, hread, ?_⟩
  intro hlanes dst ops hdst hstored hinj hrun
  subst hdst
  have hadr := hstored.toAddressable
  have hlen := leaves_lt_of_runPlanned hrun
  have hint := hstored.prod_le hinj
  have hstride : dst.sizes.prod ≠ 0 → ∀ a ∈ dst.dims, 1 < a.size → a.stride ≠ 0 :=
    fun hne => hadr.stride_ne_zero (hadr.numel_eq ▸ hne) hinj
  constructor
  · obtain ⟨ops', hrun', hwrites⟩ :=
      runPlanned_writes S threads c hlanes hlen hfit rfl hint hstride
    rw [hrun, Except.ok.injEq] at hrun'
    subst hrun'
    intro m
    refine (hwrites m).trans (List.Perm.of_eq ?_)
    rw [indices_eq_map_unflatten, List.map_map]
    refine List.map_congr_left fun i hi => ?_
    rw [Function.comp_apply, hread m i (List.mem_range.1 hi)]
  · intro hsafe m i hi
    obtain ⟨ops', hrun', hsnap⟩ :=
      runPlanned_holdsSnapshot S threads c hlanes hlen hfit hint hstride hsafe
        (address_apart hadr fun _ => hinj)
    rw [hrun, Except.ok.injEq] at hrun'
    subst hrun'
    rw [(hsnap m).load (unflatten_inBounds hi), hread m i hi]

end Agreement

namespace FlatLoweringWitness

open Sample PlannedEvaluationWitness

theorem row_laid : row.Laid := ⟨by decide, by decide, by decide⟩

theorem column_laid : column.Laid := ⟨by decide, by decide, by decide⟩

/-- The last sum of the row and the column, in the kernel's reading and the planner's: a
planned run stores in the matrix what the lowered tree computes. -/
theorem flatLowered_agrees_outerSum :
    ∃ lowered ops, rebaseLeaves [3, 4] outerSum = .ok lowered ∧
      runPlanned fourLanes twoThreads (Codec.bytes 4) outerSum matrix [3, 4] = .ok ops ∧
      ∀ m, lowered.evaluate (Leaf.read (Codec.bytes 4) m 11) =
          logicalValue (Codec.bytes 4) m outerSum [2, 3] ∧
        load (Codec.bytes 4) (run (Codec.bytes 4) ops m) (matrix.address [2, 3]) =
          lowered.evaluate (Leaf.read (Codec.bytes 4) m 11) := by
  have hleaves : ∀ l ∈ outerSum.leaves, ∃ s : StridedRef float, l = .ref s ∧ s.Laid := by
    intro l hl
    rcases List.mem_cons.1 hl with rfl | hl
    · exact ⟨row, rfl, row_laid⟩
    · obtain rfl := List.mem_singleton.1 hl
      exact ⟨column, rfl, column_laid⟩
  have hshape : expressionResultShape outerSum = .ok [3, 4] := rfl
  obtain ⟨lowered, hlowered, -, hread, hplanned⟩ :=
    flatLowered_agrees fourLanes twoThreads (Codec.bytes 4) hshape hleaves
  obtain ⟨ops, hrun, -⟩ :=
    runPlanned_writes fourLanes twoThreads (Codec.bytes 4) outerSum_laneWise
      (by decide) (expressionResultShape_fits hshape) (show matrix.sizes = [3, 4] from rfl)
      (by decide) (fun _ => by decide)
  have hsafe : ∀ l ∈ outerSum.leaves, AliasSafe matrix l :=
    fun l hl => Or.inl (outerSum_disjoint l hl)
  have hstored := (hplanned outerSum_laneWise matrix ops rfl matrix_stored (by decide) hrun).2
    hsafe
  exact ⟨lowered, ops, hlowered, hrun,
    fun m => ⟨hread m 11 (by decide), hstored m 11 (by decide)⟩⟩

end FlatLoweringWitness

end Vectorization
