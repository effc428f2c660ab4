/-
The index space of a plan.  Dropping, sorting and merging dimensions keeps the
tuples of operand offsets with their multiplicity, the tier bounds the inner
strides, and the row counter visits the offsets that division would give.
-/
import Vectorization.IterationPlan

namespace Vectorization

open StridedSpace

/-- Operands beyond the last one have stride zero. -/
def ZeroBeyond (nOperands : Nat) (dims : List PlanDim) : Prop :=
  ∀ d ∈ dims, ∀ op, nOperands ≤ op → d.stride op = 0

section SortMerge

variable {M : Type} [AddCommMonoid M]

theorem insertDim_perm (n : Nat) (d : PlanDim) (dims : List PlanDim) :
    (insertDim n d dims).Perm (d :: dims) := by
  induction dims with
  | nil => exact List.Perm.refl _
  | cons e dims ih =>
      rw [insertDim]
      split
      · exact (ih.cons e).trans (List.Perm.swap d e dims)
      · exact List.Perm.refl _

theorem sortDims_perm (n : Nat) (dims : List PlanDim) : (sortDims n dims).Perm dims := by
  have fold : ∀ dims sorted : List PlanDim,
      (dims.foldl (fun sorted d => insertDim n d sorted) sorted).Perm (dims ++ sorted) := by
    intro dims
    induction dims with
    | nil => exact fun sorted => List.Perm.refl _
    | cons d dims ih =>
        intro sorted
        refine (ih (insertDim n d sorted)).trans ?_
        exact ((insertDim_perm n d sorted).append_left dims).trans List.perm_middle
  have h := fold dims []
  rw [List.append_nil] at h
  exact (List.reverse_perm _).trans h

/-- A homomorphism `f` sees a merge as one where the outer stride spans the inner
dimension, as far as strides satisfy `P`. -/
def MergesUnder (n : Nat) (P : (Nat → Int) → Prop) (f : (Nat → Int) →+ M) : Prop :=
  ∀ outer inner : PlanDim, P outer.stride → P inner.stride →
    mergeable n outer inner = true → f outer.stride = inner.size • f inner.stride

theorem enumerate_mergeDims {n : Nat} {P : (Nat → Int) → Prop} {f : (Nat → Int) →+ M}
    (hmerge : MergesUnder n P f) {cur : PlanDim} {dims : List PlanDim}
    (h : ∀ d ∈ cur :: dims, P d.stride) :
    (enumerate (mergeDims n cur dims)).map f = (enumerate (cur :: dims)).map f := by
  induction dims generalizing cur with
  | nil => rfl
  | cons d dims ih =>
      obtain ⟨hcur, hrest⟩ := List.forall_mem_cons.1 h
      obtain ⟨hd, hdims⟩ := List.forall_mem_cons.1 hrest
      rw [mergeDims]
      split <;> rename_i hm
      · have hmerged : ∀ e ∈ (⟨cur.size * d.size, d.stride⟩ : PlanDim) :: dims, P e.stride :=
          List.forall_mem_cons.2 ⟨hd, hdims⟩
        rw [ih hmerged]
        simp only [← enumerate_map, List.map_cons]
        rw [hmerge cur d hcur hd hm, enumerate_merge]
      · have htail := ih hrest
        rw [← enumerate_map, ← enumerate_map] at htail
        rw [← enumerate_map, ← enumerate_map, List.map_cons, List.map_cons, enumerate_cons,
          htail, ← enumerate_cons]

/-- Optimising a plan keeps the images of the offsets. -/
theorem sortMergeClassify_enumerate_map {plan : IterationPlan} {P : (Nat → Int) → Prop}
    {f : (Nat → Int) →+ M} (hmerge : MergesUnder plan.nOperands P f)
    (h : ∀ d ∈ plan.dims, P d.stride) :
    ((enumerate (sortMergeClassify plan).dims).map f).Perm ((enumerate plan.dims).map f) := by
  have hperm := sortDims_perm plan.nOperands
    (plan.dims.filter fun d => decide (d.size ≠ 1))
  rw [← enumerate_filter_ne_one plan.dims]
  refine List.Perm.trans ?_ ((enumerate_perm hperm).map f)
  rw [sortMergeClassify]
  split <;> rename_i hsort
  · rw [hsort]
    simp [enumerate_cons]
  · rw [hsort, enumerate_mergeDims hmerge]
    intro d hd
    rw [← hsort, hperm.mem_iff] at hd
    exact h d (List.mem_filter.1 hd).1

/-- Merged strides agree for every operand, and beyond the last one they are zero. -/
theorem mergesUnder_zeroBeyond (n : Nat) :
    MergesUnder n (fun stride => ∀ op, n ≤ op → stride op = 0)
      (AddMonoidHom.id (Nat → Int)) := by
  intro outer inner houter hinner h
  simp only [mergeable, List.all_eq_true, List.mem_range, beq_iff_eq] at h
  funext op
  simp only [AddMonoidHom.id_apply, Pi.smul_apply, nsmul_eq_mul]
  rcases Nat.lt_or_ge op n with hop | hop
  · rw [h op hop, mul_comm]
  · rw [houter op hop, hinner op hop, mul_zero]

/-- Optimising a plan keeps the tuples of operand offsets. -/
theorem sortMergeClassify_enumerate {plan : IterationPlan}
    (hz : ZeroBeyond plan.nOperands plan.dims) :
    (enumerate (sortMergeClassify plan).dims).Perm (enumerate plan.dims) := by
  have h := sortMergeClassify_enumerate_map (mergesUnder_zeroBeyond plan.nOperands) hz
  rwa [AddMonoidHom.coe_id, List.map_id, List.map_id] at h

theorem sortMergeClassify_dims_ne_nil (plan : IterationPlan) :
    (sortMergeClassify plan).dims ≠ [] := by
  have merged : ∀ (n : Nat) (cur : PlanDim) (dims : List PlanDim),
      mergeDims n cur dims ≠ [] := by
    intro n cur dims
    induction dims generalizing cur with
    | nil => simp [mergeDims]
    | cons d dims ih =>
        rw [mergeDims]
        split
        · exact ih _
        · simp
  rw [sortMergeClassify]
  split
  · simp
  · exact merged _ _ _

@[simp] theorem sortMergeClassify_nOperands (plan : IterationPlan) :
    (sortMergeClassify plan).nOperands = plan.nOperands := by
  rw [sortMergeClassify]
  split <;> rfl

@[simp] theorem sortMergeClassify_numel (plan : IterationPlan) :
    (sortMergeClassify plan).numel = plan.numel := by
  rw [sortMergeClassify]
  split <;> rfl

@[simp] theorem sortMergeClassify_bases (plan : IterationPlan) :
    (sortMergeClassify plan).bases = plan.bases := by
  rw [sortMergeClassify]
  split <;> rfl

/-- A SIMD tier promises a unit-stride destination row and source rows that are
unit-stride or broadcast. -/
def TierSound (plan : IterationPlan) : Prop :=
  plan.tier ≤ 2 → plan.innerStride 0 = 1 ∧
    ∀ op < plan.nOperands, 0 < op → plan.innerStride op = 0 ∨ plan.innerStride op = 1

theorem classifyTier_tierSound {plan : IterationPlan} (hn : 0 < plan.nOperands)
    (dims : List PlanDim) :
    TierSound { plan with dims := dims, tier := classifyTier plan.nOperands dims } := by
  intro htier
  simp only [IterationPlan.innerStride, classifyTier] at htier ⊢
  generalize ((dims.getLast?.map Axis.stride).getD 0 : Nat → Int) = inner at htier ⊢
  split at htier <;> rename_i hall
  · simp only [List.all_eq_true, List.mem_range, beq_iff_eq] at hall
    exact ⟨hall 0 hn, fun op hop _ => Or.inr (hall op hop)⟩
  · split at htier <;> rename_i hsimd
    · simp only [List.all_eq_true, List.mem_range, Bool.or_eq_true, beq_iff_eq] at hsimd
      refine ⟨hsimd.1, fun op hop hpos => ?_⟩
      have := hsimd.2 op hop
      omega
    · omega

theorem sortMergeClassify_tierSound {plan : IterationPlan} (hn : 0 < plan.nOperands) :
    TierSound (sortMergeClassify plan) := by
  rw [sortMergeClassify]
  split
  · intro htier
    simp only at htier
    omega
  · exact classifyTier_tierSound hn _

end SortMerge

section Rows

theorem startRow_offsets (dims : List PlanDim) (r : Nat) :
    (startRow dims r).2 = decode dims r := by
  induction dims generalizing r with
  | nil => rfl
  | cons a dims ih => rw [startRow, decode, ih]

/-- The counter step reaches the coordinates and offsets of the next row. -/
theorem nextRow_startRow {dims : List PlanDim} (hpos : ∀ d ∈ dims, 0 < d.size) (r : Nat)
    (base : Nat → Int) :
    nextRow dims (startRow dims r).1 (base + decode dims r) =
      ((startRow dims (r + 1)).1, base + decode dims (r + 1)) := by
  induction dims generalizing r base with
  | nil => rfl
  | cons a dims ih =>
      have hsize := hpos a List.mem_cons_self
      have hlt := Nat.mod_lt r hsize
      rw [startRow, startRow]
      simp only [nextRow, decode]
      split <;> rename_i hcarry
      · have hmod : (r + 1) % a.size = r % a.size + 1 := by
          rw [Nat.add_mod, Nat.mod_eq_of_lt (b := a.size) (a := 1) (by omega)]
          exact Nat.mod_eq_of_lt hcarry
        have hdiv : (r + 1) / a.size = r / a.size := by
          rw [Nat.succ_div, if_neg, Nat.add_zero]
          exact fun hdvd => by
            have := Nat.mod_eq_zero_of_dvd hdvd
            omega
        rw [hmod, hdiv, succ_nsmul]
        refine Prod.ext rfl ?_
        simp only
        abel
      · have hfull : r % a.size + 1 = a.size := by omega
        have hdvd : a.size ∣ r + 1 := by
          refine Nat.dvd_of_mod_eq_zero ?_
          rw [← Nat.mod_add_mod, hfull, Nat.mod_self]
        have hmod : (r + 1) % a.size = 0 := Nat.mod_eq_zero_of_dvd hdvd
        have hdiv : (r + 1) / a.size = r / a.size + 1 := by
          rw [Nat.succ_div, if_pos hdvd]
        have hback : base + ((r % a.size) • a.stride + decode dims (r / a.size)) +
            a.stride - (r % a.size + 1) • a.stride = base + decode dims (r / a.size) := by
          rw [succ_nsmul]
          abel
        rw [hback, ih (fun d hd => hpos d (List.mem_cons_of_mem a hd)), hmod, hdiv,
          zero_nsmul, zero_add]

/-- The rows of a chunk are those that decoding gives. -/
theorem rowOffsets_eq {dims : List PlanDim} (hpos : ∀ d ∈ dims, 0 < d.size)
    (r count : Nat) :
    rowOffsets dims count (startRow dims r).1 (startRow dims r).2 =
      (List.range' r count).map (decode dims) := by
  induction count generalizing r with
  | zero => rfl
  | succ count ih =>
      have hnext := nextRow_startRow hpos r 0
      rw [zero_add, zero_add, ← startRow_offsets dims (r + 1),
        ← startRow_offsets dims r] at hnext
      rw [rowOffsets, hnext, List.range'_succ, List.map_cons, ih, startRow_offsets]

end Rows

end Vectorization
