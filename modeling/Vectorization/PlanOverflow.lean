/-
The planner in the arithmetic of its code.  Where merging is exact the code optimises as
`sortMergeClassify` does, and only there it keeps the iteration space; for operands that are
stored in memory it always is.
-/
import Vectorization.PlanMerge
import Vectorization.PlannedEvaluation

namespace Vectorization

open StridedSpace MachineInteger StableOrder

section Optimise

theorem toNat_wrapI64_le (k : Nat) : (wrapI64 k).toNat ≤ k := by
  simp only [wrapI64, Int.bmod]
  split <;> omega

theorem le_of_toNat_wrapI64 {k : Nat} (hk : 0 < k) (h : (wrapI64 k).toNat = k) :
    (k : Int) ≤ int64Max := by
  have hle := (wrapI64_inInt64 (k : Int)).2
  omega

theorem wrapSize_size_le (d : PlanDim) : (wrapSize d).size ≤ d.size := by
  rw [wrapSize_size]
  exact toNat_wrapI64_le d.size

theorem wrapSize_eq_self {d : PlanDim} (h : (d.size : Int) ≤ int64Max) : wrapSize d = d := by
  rw [wrapSize, wrapI64_eq_self (inInt64_of_nonneg (Int.natCast_nonneg _) h), Int.toNat_natCast]

/-- A size that wraps loses points: no product of the others makes up for it. -/
theorem size_le_of_prod_wrapSize {dims : List PlanDim} (hpos : ∀ d ∈ dims, 0 < d.size)
    (h : (sizes (dims.map wrapSize)).prod = (sizes dims).prod) :
    ∀ d ∈ dims, (d.size : Int) ≤ int64Max := by
  have prod_le : ∀ dims : List PlanDim,
      (sizes (dims.map wrapSize)).prod ≤ (sizes dims).prod := by
    intro dims
    induction dims with
    | nil => exact le_rfl
    | cons d dims ih => exact Nat.mul_le_mul (wrapSize_size_le d) ih
  induction dims with
  | nil => exact fun d hd => by cases hd
  | cons d dims ih =>
      obtain ⟨hd, hdims⟩ := List.forall_mem_cons.1 hpos
      have hrest : 0 < (sizes dims).prod := by
        apply Nat.pos_of_ne_zero
        intro hzero
        obtain ⟨e, he, hsize⟩ := List.mem_map.1 (List.prod_eq_zero_iff.1 hzero)
        exact Nat.ne_of_gt (hdims e he) hsize
      have hhead := wrapSize_size_le d
      have htail := prod_le dims
      simp only [List.map_cons, sizes_cons, List.prod_cons] at h
      have hsize : (wrapSize d).size = d.size := by
        apply Nat.le_antisymm hhead
        apply Nat.le_of_mul_le_mul_right _ hrest
        rw [← h]
        exact Nat.mul_le_mul_left _ htail
      rw [hsize] at h
      rw [wrapSize_size] at hsize
      exact List.forall_mem_cons.2
        ⟨le_of_toNat_wrapI64 hd hsize, ih hdims (Nat.eq_of_mul_eq_mul_left hd h)⟩

variable {plan : IterationPlan}

/-- Sizes and strides are non-negative 64-bit values, and no size is zero. -/
structure IterationPlan.Represented (plan : IterationPlan) : Prop where
  size_ne : ∀ d ∈ plan.dims, d.size ≠ 0
  size_le : ∀ d ∈ plan.dims, (d.size : Int) ≤ int64Max
  stride_nonneg : ∀ d ∈ plan.dims, ∀ op < plan.nOperands, 0 ≤ d.stride op
  stride_le : ∀ d ∈ plan.dims, ∀ op < plan.nOperands, d.stride op ≤ int64Max

/-- The dimensions that are sorted and merged. -/
def IterationPlan.sorted (plan : IterationPlan) : List PlanDim :=
  sortDims plan.nOperands (plan.dims.filter fun d => decide (d.size ≠ 1))

theorem IterationPlan.Represented.of_mem_sorted (h : plan.Represented) :
    ∀ d ∈ plan.sorted, Proper plan.nOperands d ∧ (d.size : Int) ≤ int64Max := by
  intro d hd
  obtain ⟨hmem, hone⟩ := List.mem_filter.1 ((sortDims_perm _ _).mem_iff.1 hd)
  have hsize := h.size_ne d hmem
  have hone := of_decide_eq_true hone
  have hlt : 1 < d.size := by omega
  exact ⟨⟨hlt, h.stride_nonneg d hmem, h.stride_le d hmem⟩, h.size_le d hmem⟩

/-- The sorted dimensions are the only ones to look at. -/
theorem IterationPlan.mergesExactly_iff : plan.MergesExactly ↔
    (plan.sorted.IsChain fun outer inner =>
        AdjacentMod plan.nOperands outer inner → Adjacent plan.nOperands outer inner) ∧
      RunsFit plan.nOperands plan.sorted := by
  have hlisting := sortDims_listing plan.nOperands
    (plan.dims.filter fun d => decide (d.size ≠ 1))
  constructor
  · exact fun h => h _ hlisting
  · intro h sorted hsorted
    rw [hsorted.unique hlisting]
    exact h

/-- Sorting and dropping keep the points. -/
theorem IterationPlan.points_sorted (plan : IterationPlan) :
    points plan.sorted = points plan.dims := by
  rw [sorted, points_perm (sortDims_perm _ _), points, points, enumerate_filter_ne_one]

@[simp] theorem sortMergeClassify64_nOperands (plan : IterationPlan) :
    (sortMergeClassify64 plan).nOperands = plan.nOperands := by
  rw [sortMergeClassify64]
  split <;> rfl

theorem sortMergeClassify64_dims (h : plan.Represented) {d : PlanDim} {dims : List PlanDim}
    (hsort : plan.sorted = d :: dims) :
    (sortMergeClassify64 plan).dims =
      (mergeDimsBy (mergeTest64 plan.nOperands) d dims).map wrapSize := by
  have hsizes : ∀ e ∈ d :: dims, (e.size : Int) ≤ int64Max := fun e he =>
    (h.of_mem_sorted e (hsort ▸ he)).2
  obtain ⟨hd, hdims⟩ := List.forall_mem_cons.1 hsizes
  have hmerge := mergeDims64_eq plan.nOperands d hdims
  rw [wrapI64_eq_self (inInt64_of_nonneg (Int.natCast_nonneg _) hd)] at hmerge
  rw [IterationPlan.sorted] at hsort
  rw [sortMergeClassify64, hsort]
  exact hmerge

/-- Where merging is exact, the code computes the plan of exact arithmetic. -/
theorem sortMergeClassify64_eq (h : plan.Represented) (hexact : plan.MergesExactly) :
    sortMergeClassify64 plan = sortMergeClassify plan := by
  obtain ⟨hchain, hruns⟩ := IterationPlan.mergesExactly_iff.1 hexact
  cases hsort : plan.sorted with
  | nil =>
      rw [IterationPlan.sorted] at hsort
      rw [sortMergeClassify64, sortMergeClassify, hsort]
  | cons d dims =>
      have hproper : ∀ e ∈ d :: dims, Proper plan.nOperands e := fun e he =>
        (h.of_mem_sorted e (hsort ▸ he)).1
      rw [hsort] at hchain hruns
      have hdims := sortMergeClassify64_dims h hsort
      rw [mergeDimsBy_eq_mergeDims hproper hchain] at hdims
      have hself : (mergeDims plan.nOperands d dims).map wrapSize =
          mergeDims plan.nOperands d dims := by
        rw [List.map_congr_left fun e he => ?_, List.map_id]
        exact wrapSize_eq_self ((mergeDims_size_le hproper).2 hruns e he)
      rw [hself] at hdims
      rw [IterationPlan.sorted] at hsort
      rw [sortMergeClassify64, hsort] at hdims ⊢
      rw [sortMergeClassify, hsort]
      simp only at hdims ⊢
      rw [hdims]

/-- A plan whose iteration space is kept has been merged exactly. -/
theorem mergesExactly_of_offsetTuples (h : plan.Represented)
    (hkept : (sortMergeClassify64 plan).offsetTuples = plan.offsetTuples) :
    plan.MergesExactly := by
  rw [IterationPlan.mergesExactly_iff]
  cases hsort : plan.sorted with
  | nil =>
      refine ⟨List.isChain_nil, fun run hrun _ => ?_⟩
      obtain rfl := List.infix_nil.1 hrun
      decide
  | cons d dims =>
      have hproper : ∀ e ∈ d :: dims, Proper plan.nOperands e := fun e he =>
        (h.of_mem_sorted e (hsort ▸ he)).1
      have hmerged := mergeDimsBy_forall (mergeTest64 plan.nOperands) hproper
      have hcount : ((mergeDimsBy (mergeTest64 plan.nOperands) d dims).map wrapSize |>
          sizes).prod = (sizes (mergeDimsBy (mergeTest64 plan.nOperands) d dims)).prod := by
        rw [← sortMergeClassify64_dims h hsort, sizes_mergeDimsBy, ← hsort, ← length_enumerate,
          ← length_enumerate]
        have hcard := congrArg Multiset.card hkept
        rw [IterationPlan.offsetTuples, IterationPlan.offsetTuples, Multiset.card_map,
          Multiset.card_map, ← plan.points_sorted] at hcard
        exact hcard
      have hsize := size_le_of_prod_wrapSize
        (fun e he => Nat.zero_lt_of_lt (hmerged e he).one_lt) hcount
      have hself : (mergeDimsBy (mergeTest64 plan.nOperands) d dims).map wrapSize =
          mergeDimsBy (mergeTest64 plan.nOperands) d dims := by
        rw [List.map_congr_left fun e he => wrapSize_eq_self (hsize e he), List.map_id']
      rw [IterationPlan.offsetTuples, IterationPlan.offsetTuples, ← plan.points_sorted, hsort,
        sortMergeClassify64_nOperands, sortMergeClassify64_dims h hsort, hself] at hkept
      have hchain := isChain_of_extent_le hproper fun op hop =>
        extent_le_of_points hop (fun e he => Nat.ne_of_gt (Nat.zero_lt_of_lt (hmerged e he).one_lt))
          (fun e he => (hmerged e he).stride_nonneg op hop)
          (fun e he => (hproper e he).stride_nonneg op hop) hkept
      rw [mergeDimsBy_eq_mergeDims hproper hchain] at hsize
      exact ⟨hchain, (mergeDims_size_le hproper).1 hsize⟩

theorem sortMergeClassify64_tierHolds (plan : IterationPlan) :
    (sortMergeClassify64 plan).TierHolds := by
  rw [sortMergeClassify64]
  split
  · exact tierHolds_scalar rfl
  · exact classifyTier_holds plan _

/-- Optimising keeps the tuples of operand offsets and the element count, and settles on a
tier that holds, exactly when the merges of the plan are exact. -/
theorem sortMergeClassify64_preserves_iff (h : plan.Represented) :
    plan.PreservedBy (sortMergeClassify64 plan) ↔ plan.MergesExactly := by
  constructor
  · intro hkept
    exact mergesExactly_of_offsetTuples h hkept.offsetTuples
  · intro hexact
    rw [sortMergeClassify64_eq h hexact]
    exact sortMergeClassify_preserves plan

end Optimise

section Stored

variable {T : ElementType} {α : Type}

/-- `make_iteration_plan`, on 64-bit products. -/
def makeIterationPlan64 (e : Expr (Leaf T) α) (dst : StridedRef T) (shape : List Nat) :
    Except Raise IterationPlan := do
  let numel := wrapI64 (shapeNumel shape)
  match firstStrideZero numel 0 dst.dims with
  | some d => throw (.strideZero d)
  | none =>
      let dstStrides := dst.dims.map fun a => if a.size = 1 then 0 else a.stride
      let operands ← planLeaves shape e [⟨dst.data, dstStrides⟩]
      let plan : IterationPlan :=
        { dims := planDims shape (operands.map PlanOperand.strides)
          nOperands := operands.length
          tier := 3
          numel := numel
          bases := operands.map PlanOperand.base }
      if numel = 0 then pure { plan with dims := [], tier := 0 }
      else pure (sortMergeClassify64 plan)

variable {plan : IterationPlan}

/-- The element count is a 64-bit value, and no dimension spans `2 ^ 64`. -/
structure IterationPlan.FitsInt64 (plan : IterationPlan) : Prop where
  count : (plan.elementCount : Int) ≤ int64Max
  span : ∀ d ∈ plan.dims, d.size ≠ 1 → ∀ op < plan.nOperands, d.stride op * d.size < 2 ^ 64

theorem IterationPlan.FitsInt64.mergesExactly (h : plan.Represented) (hfits : plan.FitsInt64) :
    plan.MergesExactly := by
  rw [mergesExactly_iff]
  constructor
  · apply List.Pairwise.isChain
    apply List.pairwise_of_forall_mem_list
    intro outer houter inner hinner hmod op hop
    obtain ⟨hmem, hone⟩ := List.mem_filter.1 ((sortDims_perm _ _).mem_iff.1 hinner)
    have hspan := hfits.span inner hmem (of_decide_eq_true hone) op hop
    have hproper := (h.of_mem_sorted inner hinner).1
    have hlo : 0 ≤ inner.stride op * inner.size :=
      Int.mul_nonneg (hproper.stride_nonneg op hop) (Int.natCast_nonneg _)
    have houter := (h.of_mem_sorted outer houter).1
    have hnonneg := houter.stride_nonneg op hop
    have hle := houter.stride_le op hop
    have heq := hmod op hop
    unfold int64Max at hle
    rwa [Int.ModEq, Int.emod_eq_of_lt hnonneg (by omega), Int.emod_eq_of_lt hlo hspan] at heq
  · intro run hrun _
    apply le_trans (Int.ofNat_le.2 _) hfits.count
    have hcount : plan.elementCount = (sizes plan.sorted).prod := by
      rw [← card_offsetTuples, offsetTuples, Multiset.card_map, ← points_sorted,
        ← length_enumerate]
      rfl
    rw [hcount]
    apply Nat.le_of_dvd
    · apply List.prod_pos
      intro size hsize
      obtain ⟨d, hd, rfl⟩ := List.mem_map.1 hsize
      exact Nat.zero_lt_of_lt (h.of_mem_sorted d hd).1.one_lt
    · exact (hrun.sublist.map Axis.size).prod_dvd_prod

/-- Along every dimension of a plan an operand walks an axis of its own. -/
theorem mem_planDims {out : List Nat} {strides : List (List Int)} {d : PlanDim}
    (hd : d ∈ planDims out strides) (op : Nat) :
    d.stride op = 0 ∨
      ⟨d.size, d.stride op⟩ ∈ List.zipWith Axis.mk out (strides.getD op []) := by
  induction out generalizing strides with
  | nil => cases hd
  | cons n out ih =>
      have htail : (strides.map List.tail).getD op [] = (strides.getD op []).tail :=
        List.getD_map strides [] List.tail
      rcases List.mem_cons.1 hd with rfl | hd
      · simp only
        cases strides.getD op [] with
        | nil => exact Or.inl rfl
        | cons s rest => exact Or.inr List.mem_cons_self
      · rcases ih hd with hzero | hmem
        · exact Or.inl hzero
        · right
          rw [htail] at hmem
          cases hop : strides.getD op [] with
          | nil =>
              rw [hop] at hmem
              simp at hmem
          | cons s rest =>
              rw [hop] at hmem
              exact List.mem_cons_of_mem _ hmem

variable {e : Expr (Leaf T) α} {dst : StridedRef T} {shape : List Nat}

/-- A stored operand that the shape broadcasts steps within its object. -/
theorem StridedRef.Stored.step_le {s : StridedRef T} (hs : s.Stored)
    (hfit : BroadcastsTo s.sizes shape) (hne : shape.prod ≠ 0) {a : Axis Int}
    (ha : a ∈ s.dims) (hone : a.size ≠ 1) :
    0 ≤ a.stride ∧ a.stride ≤ int64Max ∧ a.stride * a.size < 2 ^ 64 := by
  have hnonneg := hs.stride_nonneg a ha
  have hprod := hfit.prod_ne_zero hne
  have hsize : a.size ≠ 0 := fun hzero =>
    hprod (List.prod_eq_zero (List.mem_map.2 ⟨a, ha, hzero⟩))
  have hobject := hs.object (by rwa [hs.numel_eq])
  have hmem : (⟨a.size, a.stride.toNat⟩ : Axis Nat) ∈ natAxes s.dims :=
    List.mem_map.2 ⟨a, ha, rfl⟩
  have hspan : (a.size - 1) * a.stride.toNat ≤ extent (natAxes s.dims) := span_le_extent hmem
  have hbytes := Nat.le_mul_of_pos_right (extent (natAxes s.dims) + 1) T.size_pos
  obtain ⟨k, hk⟩ := Nat.exists_eq_add_of_le (show 2 ≤ a.size by omega)
  have hstep : a.stride.toNat ≤ (a.size - 1) * a.stride.toNat :=
    Nat.le_mul_of_pos_left _ (by omega)
  have hsplit : a.stride.toNat * a.size = (a.size - 1) * a.stride.toNat + a.stride.toNat := by
    rw [hk, show 2 + k - 1 = 1 + k by omega]
    ring
  have hcast : a.stride * a.size = (a.stride.toNat * a.size : Nat) := by
    rw [Nat.cast_mul, Int.toNat_of_nonneg hnonneg]
  unfold int64Max at hobject ⊢
  refine ⟨hnonneg, by omega, ?_⟩
  rw [hcast, hsplit]
  omega

theorem step_of_mem_planDims (hfit : ∀ l ∈ Leaf.ref dst :: e.leaves,
      l.toRef.Stored ∧ BroadcastsTo l.toRef.sizes shape) (hne : shape.prod ≠ 0) {d : PlanDim}
    (hd : d ∈ planDims shape (operandStrides e dst shape)) {op : Nat}
    (hop : op < 1 + e.leaves.length) :
    0 ≤ d.stride op ∧ d.stride op ≤ int64Max ∧ d.stride op * d.size < 2 ^ 64 := by
  have hlt : op < (Leaf.ref dst :: e.leaves).length := by
    rw [List.length_cons]
    omega
  have hl := List.getElem?_eq_getElem hlt
  obtain ⟨hstored, hbroadcast⟩ := hfit _ (List.getElem_mem hlt)
  have hstrides : (operandStrides e dst shape).getD op [] =
      broadcastStrides shape (Leaf.ref dst :: e.leaves)[op].toRef.dims := by
    rw [operandStrides, List.getD_eq_getElem?_getD, List.getElem?_map, hl]
    rfl
  have hzero (hstride : d.stride op = 0) :
      0 ≤ d.stride op ∧ d.stride op ≤ int64Max ∧ d.stride op * d.size < 2 ^ 64 := by
    rw [hstride, zero_mul]
    decide
  rcases mem_planDims hd op with hstride | hmem
  · exact hzero hstride
  · rw [hstrides] at hmem
    rcases mem_broadcastStrides hbroadcast hmem with hstride | ⟨hdim, hone⟩
    · exact hzero hstride
    · exact hstored.step_le hbroadcast hne hdim hone

/-- What the code sorts and merges for stored operands is represented and fits. -/
theorem planDims_fits {tier : Nat} {numel : Int} {bases : List Nat}
    (hfit : ∀ l ∈ Leaf.ref dst :: e.leaves, l.toRef.Stored ∧ BroadcastsTo l.toRef.sizes shape)
    (hne : shape.prod ≠ 0) (hint : (shape.prod : Int) ≤ int64Max) :
    IterationPlan.Represented ⟨planDims shape (operandStrides e dst shape),
        1 + e.leaves.length, tier, numel, bases⟩ ∧
      IterationPlan.FitsInt64 ⟨planDims shape (operandStrides e dst shape),
        1 + e.leaves.length, tier, numel, bases⟩ := by
  have hsize : ∀ d ∈ planDims shape (operandStrides e dst shape), d.size ∈ shape := by
    intro d hd
    have hmem := List.mem_map_of_mem (f := Axis.size) hd
    rwa [← sizes, sizes_planDims] at hmem
  constructor
  · refine ⟨fun d hd hzero => hne ?_, fun d hd => ?_,
      fun d hd op hop => (step_of_mem_planDims hfit hne hd hop).1,
      fun d hd op hop => (step_of_mem_planDims hfit hne hd hop).2.1⟩
    · exact List.prod_eq_zero (hzero ▸ hsize d hd)
    · have hdvd := List.dvd_prod (hsize d hd)
      exact le_trans (Int.ofNat_le.2 (Nat.le_of_dvd (Nat.pos_of_ne_zero hne) hdvd)) hint
  · refine ⟨?_, fun d hd _ op hop => (step_of_mem_planDims hfit hne hd hop).2.2⟩
    rw [IterationPlan.elementCount, sizes_planDims]
    exact hint

/-- The code plans stored operands as exact arithmetic does. -/
theorem makeIterationPlan64_eq (hshape : expressionResultShape e = .ok shape)
    (hdst : dst.sizes = shape) (hstored : dst.Stored) (hinj : isNonOverlapping dst = true)
    (hleaves : ∀ l ∈ e.leaves, l.toRef.Stored) :
    makeIterationPlan64 e dst shape = makeIterationPlan e dst shape := by
  subst hdst
  have hint := hstored.prod_le hinj
  have hbroadcasts := expressionResultShape_fits hshape
  have hfit : ∀ l ∈ Leaf.ref dst :: e.leaves,
      l.toRef.Stored ∧ BroadcastsTo l.toRef.sizes dst.sizes :=
    List.forall_mem_cons.2
      ⟨⟨hstored, BroadcastsTo.refl _⟩, fun l hl => ⟨hleaves l hl, hbroadcasts l hl⟩⟩
  rw [makeIterationPlan64, makeIterationPlan, wrapI64_shapeNumel hint]
  simp only [← broadcastStrides_self rfl]
  cases firstStrideZero (dst.sizes.prod : Int) 0 dst.dims with
  | some d => rfl
  | none =>
      cases hoperands : planLeaves dst.sizes e
          [⟨dst.data, broadcastStrides dst.sizes dst.dims⟩] with
      | error raise => rfl
      | ok operands =>
          obtain ⟨hlength, hmax⟩ := planLeaves_length hoperands (by simp [kMaxOperands])
          rw [hlength] at hmax
          have hlist := planLeaves_eq dst.sizes hmax
          rw [hoperands, Except.ok.injEq] at hlist
          rw [List.length_singleton] at hlength
          have hstrides : operands.map PlanOperand.strides = operandStrides e dst dst.sizes := by
            rw [hlist, operandStrides, List.map_append, List.map_map, List.map_cons]
            rfl
          simp only [bind, Except.bind, pure, Except.pure, hstrides, hlength]
          split
          · rfl
          · rename_i hne
            obtain ⟨hrepresented, hplan⟩ := planDims_fits hfit (by exact_mod_cast hne) hint
            rw [sortMergeClassify64_eq hrepresented (hplan.mergesExactly hrepresented)]

end Stored

namespace PlanWitness

/-- A row of four that is added to every row of a block of two by three, whose rows lie
apart. -/
def rowBroadcast : IterationPlan where
  dims := [⟨2, fun op => if op = 1 then 0 else 24⟩, ⟨3, fun op => if op = 1 then 0 else 8⟩,
    ⟨1, fun _ => 7⟩, ⟨4, fun _ => 1⟩]
  nOperands := 3
  tier := 3
  numel := 24
  bases := [0, 4096, 8192]

theorem rowBroadcast_represented : rowBroadcast.Represented where
  size_ne := by decide
  size_le := by decide
  stride_nonneg := by decide
  stride_le := by decide

theorem rowBroadcast_fits : rowBroadcast.FitsInt64 where
  count := by decide
  span := by decide

theorem sortMergeClassify64_preserves_rowBroadcast :
    sizes (sortMergeClassify64 rowBroadcast).dims = [6, 4] ∧
      rowBroadcast.PreservedBy (sortMergeClassify64 rowBroadcast) := by
  have hexact := rowBroadcast_fits.mergesExactly rowBroadcast_represented
  exact ⟨by decide, (sortMergeClassify64_preserves_iff rowBroadcast_represented).2 hexact⟩

/-- A plan of one operand. -/
def single (dims : List (Nat × Int)) : IterationPlan where
  dims := dims.map fun d => ⟨d.1, fun _ => d.2⟩
  nOperands := 1
  tier := 3
  numel := wrapI64 (dims.map Prod.fst).prod
  bases := [0]

/-- Rows of `2 ^ 32` elements, one after the other. -/
def packedRows : IterationPlan := single [(2 ^ 32, 2 ^ 32), (2 ^ 32, 1)]

/-- Two rows of `2 ^ 32 + 1` elements; rows and elements are `2 ^ 32` apart. -/
def wideSteps : IterationPlan := single [(2, 2 ^ 32), (2 ^ 32 + 1, 2 ^ 32)]

theorem packedRows_represented : packedRows.Represented where
  size_ne := by decide
  size_le := by decide
  stride_nonneg := by decide
  stride_le := by decide

theorem wideSteps_represented : wideSteps.Represented where
  size_ne := by decide
  size_le := by decide
  stride_nonneg := by decide
  stride_le := by decide

/-- The merged size of the rows wraps to zero; the two rows are merged although the second
does not begin where the first ends. -/
theorem not_preservedBy_wide :
    (packedRows.Represented ∧ ¬ packedRows.PreservedBy (sortMergeClassify64 packedRows)) ∧
      wideSteps.Represented ∧ ¬ wideSteps.PreservedBy (sortMergeClassify64 wideSteps) := by
  refine ⟨⟨packedRows_represented, fun h => ?_⟩, wideSteps_represented, fun h => ?_⟩
  · have hcount := h.elementCount
    revert hcount
    decide
  · have hreach : extent (operandAxes 0 (sortMergeClassify64 wideSteps).dims) ≤
        extent (operandAxes 0 wideSteps.dims) :=
      extent_le_of_points (n := 1) (by decide) (by decide) (by decide) (by decide) h.offsetTuples
    revert hreach
    decide

end PlanWitness

end Vectorization
