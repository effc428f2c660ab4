/-
What optimising keeps of a plan, wherever it comes from: the tuples of operand offsets, the
number of elements, and a tier that the innermost strides bear out.
-/
import Vectorization.PlanSpace

namespace Vectorization

open StridedSpace MachineInteger

section Offsets

/-- The offsets of the first `n` operands, the others set to zero. -/
def truncateOffsets (n : Nat) : (Nat → Int) →+ (Nat → Int) where
  toFun offsets op := if op < n then offsets op else 0
  map_zero' := by
    funext op
    exact ite_self 0
  map_add' a b := by
    funext op
    by_cases hop : op < n <;> simp [hop]

theorem mergesUnder_truncateOffsets (n : Nat) :
    MergesUnder n (fun _ => True) (truncateOffsets n) := by
  intro outer inner _ _ h
  simp only [mergeable, List.all_eq_true, List.mem_range, beq_iff_eq] at h
  funext op
  change (if op < n then outer.stride op else 0) =
    inner.size • (if op < n then inner.stride op else 0)
  by_cases hop : op < n
  · rw [if_pos hop, if_pos hop, h op hop, nsmul_eq_mul, mul_comm]
  · rw [if_neg hop, if_neg hop, smul_zero]

/-- One offset for every operand of a plan. -/
def operandTuple (n : Nat) (offsets : Nat → Int) : List Int := (List.range n).map offsets

theorem operandTuple_truncateOffsets (n : Nat) (offsets : Nat → Int) :
    operandTuple n (truncateOffsets n offsets) = operandTuple n offsets := by
  refine List.map_congr_left fun op hop => ?_
  exact if_pos (List.mem_range.1 hop)

/-- The tuples of operand offsets of a plan, one for every point of its index space. -/
def IterationPlan.offsetTuples (plan : IterationPlan) : Multiset (List Int) :=
  (points plan.dims).map (operandTuple plan.nOperands)

theorem sortMergeClassify_offsetTuples (plan : IterationPlan) :
    (sortMergeClassify plan).offsetTuples = plan.offsetTuples := by
  have hmap : ((enumerate (sortMergeClassify plan).dims).map
      (truncateOffsets plan.nOperands)).Perm
        ((enumerate plan.dims).map (truncateOffsets plan.nOperands)) :=
    sortMergeClassify_enumerate_map (mergesUnder_truncateOffsets _) fun _ _ => trivial
  have hperm := hmap.map (operandTuple plan.nOperands)
  simp only [List.map_map, Function.comp_def, operandTuple_truncateOffsets] at hperm
  rw [IterationPlan.offsetTuples, IterationPlan.offsetTuples, sortMergeClassify_nOperands]
  exact Multiset.coe_eq_coe.2 hperm

/-- The number of points of the index space. -/
def IterationPlan.elementCount (plan : IterationPlan) : Nat := (sizes plan.dims).prod

/-- There is a tuple for every element. -/
theorem IterationPlan.card_offsetTuples (plan : IterationPlan) :
    plan.offsetTuples.card = plan.elementCount := by
  rw [offsetTuples, Multiset.card_map, elementCount, ← length_enumerate]
  rfl

theorem sortMergeClassify_elementCount (plan : IterationPlan) :
    (sortMergeClassify plan).elementCount = plan.elementCount := by
  rw [← IterationPlan.card_offsetTuples, sortMergeClassify_offsetTuples,
    IterationPlan.card_offsetTuples]

end Offsets

section Tier

/-- What a tier says of the innermost strides; operand 0 is the destination. -/
structure IterationPlan.TierHolds (plan : IterationPlan) : Prop where
  destination : plan.tier ≤ 2 → 0 < plan.nOperands → plan.innerStride 0 = 1
  sources : plan.tier ≤ 2 → ∀ op < plan.nOperands, 0 < op →
    plan.innerStride op = 0 ∨ plan.innerStride op = 1
  single : plan.tier = 0 → plan.dims.length = 1 ∧
    ∀ op < plan.nOperands, plan.innerStride op = 1

theorem classifyTier_eq_zero {n : Nat} {dims : List PlanDim} (h : classifyTier n dims = 0) :
    dims.length = 1 ∧
      ∀ op < n, ((dims.getLast?.map Axis.stride).getD 0 : Nat → Int) op = 1 := by
  rw [classifyTier] at h
  split at h <;> rename_i hall
  · simp only [List.all_eq_true, List.mem_range, beq_iff_eq] at hall
    split at h <;> rename_i hlength
    · exact ⟨hlength, hall⟩
    · cases h
  · split at h <;> cases h

theorem classifyTier_holds (plan : IterationPlan) (dims : List PlanDim) :
    IterationPlan.TierHolds
      { plan with dims := dims, tier := classifyTier plan.nOperands dims } where
  destination htier hn := (classifyTier_tierSound hn dims htier).1
  sources htier op hop hpos := by
    have hn : 0 < plan.nOperands := Nat.zero_lt_of_lt hop
    exact (classifyTier_tierSound hn dims htier).2 op hop hpos
  single htier := classifyTier_eq_zero htier

/-- A plan of one element keeps the tier of the scalar rows. -/
theorem tierHolds_scalar {plan : IterationPlan} (h : plan.tier = 3) : plan.TierHolds where
  destination htier := by omega
  sources htier := by omega
  single htier := by omega

theorem sortMergeClassify_tierHolds (plan : IterationPlan) :
    (sortMergeClassify plan).TierHolds := by
  rw [sortMergeClassify]
  split
  · exact tierHolds_scalar rfl
  · exact classifyTier_holds plan _

end Tier

/-- What optimising is to keep of a plan, and to say of the result. -/
structure IterationPlan.PreservedBy (plan optimised : IterationPlan) : Prop where
  offsetTuples : optimised.offsetTuples = plan.offsetTuples
  elementCount : optimised.elementCount = plan.elementCount
  tierHolds : optimised.TierHolds

/-- In exact arithmetic optimising keeps the iteration space of every plan. -/
theorem sortMergeClassify_preserves (plan : IterationPlan) :
    plan.PreservedBy (sortMergeClassify plan) where
  offsetTuples := sortMergeClassify_offsetTuples plan
  elementCount := sortMergeClassify_elementCount plan
  tierHolds := sortMergeClassify_tierHolds plan

end Vectorization
