/-
The planner implements broadcasting.  A plan's stores are those of its tuples of
operand offsets, one tuple per multi-index of the result, so every split of the
rows stores each logical element once, with the value of the tree there.
-/
import Vectorization.PlanSpace
import Vectorization.Snapshot
import Vectorization.Foundation.AtomicRun

namespace Vectorization

open StridedSpace MachineInteger ByteMemory LoopTiling AtomicRun

variable {T : ElementType} {α : Type}

section Rows

variable (S : SimdTarget T) (c : Codec α T.size)

/-- The destination cell of a tuple of operand offsets. -/
def tupleCell (T : ElementType) (dst : Nat) (t : Nat → Int) : Int :=
  dst + t 0 * T.size

/-- The load of one operand at a tuple of offsets. -/
def operandRead (c : Codec α T.size) (bases : List Nat) (m : Memory) (t : Nat → Int)
    (op : Nat) : α :=
  load c m (bases.getD op 0 + t op * T.size)

/-- The value of the tree at a tuple of offsets, leaves numbered from 1. -/
def tupleValue (c : Codec α T.size) (bases : List Nat) (e : Expr (Leaf T) α)
    (m : Memory) (t : Nat → Int) : α :=
  (e.numbered 1).evaluate (operandRead c bases m t)

theorem bindRow_lowerRows (plan : IterationPlan) (offsets : Nat → Int)
    (e : Expr (Leaf T) α) (op : Nat) :
    bindRow T plan offsets (lowerRows e) op =
      ((e.numbered op).map (rowRefOf T plan offsets), op + e.leaves.length) := by
  induction e generalizing op with
  | scalar _ | leaf _ => rfl
  | unary f rhs ih => simp only [lowerRows, bindRow, ih, Expr.numbered, Expr.map, Expr.leaves]
  | binary f lhs rhs ihl ihr =>
      simp only [lowerRows, bindRow, ihl, ihr, Expr.numbered, Expr.map, Expr.leaves,
        List.length_append, Nat.add_assoc]
  | trinary f lhs mhs rhs ihl ihm ihr =>
      simp only [lowerRows, bindRow, ihl, ihm, ihr, Expr.numbered, Expr.map, Expr.leaves,
        List.length_append, Nat.add_assoc]

theorem tuple_apply (t stride : Nat → Int) (i op : Nat) :
    (t + i • stride) op = t op + i * stride op := by
  rw [Pi.add_apply, Pi.smul_apply, nsmul_eq_mul]

theorem read_rowRefOf (plan : IterationPlan) (offsets : Nat → Int) (m : Memory)
    (i op : Nat) :
    RowRef.read c m i (rowRefOf T plan offsets op) =
      operandRead c plan.bases m (offsets + i • plan.innerStride) op := by
  simp only [RowRef.read, rowRefOf, operandRead, tuple_apply, IterationPlan.innerStride]
  congr 1
  ring

/-- A register of a row that is unit-stride or broadcast holds the elements at
consecutive tuples. -/
theorem readPacket_rowRefOf {plan : IterationPlan} {offsets : Nat → Int} {op : Nat}
    (h : plan.innerStride op = 0 ∨ plan.innerStride op = 1) (m : Memory) (i lane : Nat) :
    RowRef.readPacket c m i (rowRefOf T plan offsets op) lane =
      operandRead c plan.bases m (offsets + (i + lane) • plan.innerStride) op := by
  have hstride : (rowRefOf T plan offsets op).stride = plan.innerStride op := rfl
  simp only [RowRef.readPacket, hstride, operandRead, tuple_apply]
  rcases h with h | h
  · rw [if_pos h, h, mul_zero, add_zero]
    rfl
  · rw [if_neg (by omega), h]
    simp only [rowRefOf]
    congr 1
    ring

theorem evaluate_row (plan : IterationPlan) (offsets : Nat → Int) (e : Expr (Leaf T) α)
    (m : Memory) (i : Nat) :
    (bindRow T plan offsets (lowerRows e) 1).1.evaluate (RowRef.read c m i) =
      tupleValue c plan.bases e m (offsets + i • plan.innerStride) := by
  rw [bindRow_lowerRows, Expr.evaluate_map, tupleValue]
  simp only [read_rowRefOf]

/-- Binding the rows leaves the functors as they are. -/
theorem laneWise_bindRow (plan : IterationPlan) (offsets : Nat → Int) {e : Expr (Leaf T) α}
    (h : e.LaneWise) : (bindRow T plan offsets (lowerRows e) 1).1.LaneWise := by
  rw [bindRow_lowerRows]
  exact (Expr.laneWise_map _ _).2 ((Expr.laneWise_numbered e 1).2 h)

theorem evaluatePacket_row {plan : IterationPlan} {offsets : Nat → Int}
    {e : Expr (Leaf T) α} (hlanes : e.LaneWise) (hn : plan.nOperands = 1 + e.leaves.length)
    (h : ∀ op < plan.nOperands, 0 < op →
      plan.innerStride op = 0 ∨ plan.innerStride op = 1) (m : Memory) (i lane : Nat) :
    (bindRow T plan offsets (lowerRows e) 1).1.evaluatePacket (RowRef.readPacket c m i)
        lane =
      tupleValue c plan.bases e m (offsets + (i + lane) • plan.innerStride) := by
  rw [Expr.evaluatePacket_lane (laneWise_bindRow plan offsets hlanes), bindRow_lowerRows,
    Expr.evaluate_map, tupleValue]
  refine Expr.evaluate_congr fun op hop => ?_
  rw [Expr.leaves_numbered, List.mem_range'_1] at hop
  exact readPacket_rowRefOf c (h op (by omega) (by omega)) m i lane

/-- The tuples of a row, grouped as the row kernel stores them. -/
def rowGroups (innerN tier : Nat) (t : Nat → (Nat → Int)) : List (List (Nat → Int)) :=
  if tier ≤ 2 then
    ((starts 0 (simdRowEnd S innerN) S.length).map fun i =>
        (List.range S.length).map fun lane => t (i + lane)) ++
      (starts (simdRowEnd S innerN) innerN 1).map fun i => [t i]
  else (starts 0 innerN 1).map fun i => [t i]

theorem simdRowEnd_spec (innerN : Nat) :
    simdRowEnd S innerN ≤ innerN ∧ ∃ k, simdRowEnd S innerN = 0 + k * S.length := by
  rw [simdRowEnd]
  split
  · exact ⟨Nat.div_mul_le_self _ _, innerN / S.length, (Nat.zero_add _).symm⟩
  · exact ⟨Nat.zero_le _, 0, by simp⟩

theorem flatten_singletons {β γ : Type} (l : List β) (f : β → γ) :
    (l.map fun b => [f b]).flatten = l.map f := by
  rw [← List.flatMap_def, ← List.map_eq_flatMap]

/-- The groups of a row hold its tuples in order. -/
theorem rowGroups_flatten (innerN tier : Nat) (t : Nat → (Nat → Int)) :
    (rowGroups S innerN tier t).flatten = (List.range innerN).map t := by
  rw [rowGroups]
  split
  · obtain ⟨hle, k, hk⟩ := simdRowEnd_spec S innerN
    have hpackets : ((starts 0 (simdRowEnd S innerN) S.length).map fun i =>
        (List.range S.length).map fun lane => t (i + lane)).flatten =
          (List.range' 0 (k * S.length)).map t := by
      rw [hk, starts_exact S.length_pos, ← flatMap_range', List.map_flatMap,
        ← List.flatMap_def]
      simp only [List.range'_eq_map_range, List.map_map, Function.comp_def]
    rw [List.flatten_append, starts_one, flatten_singletons, hpackets,
      ← List.map_append, hk, Nat.zero_add]
    rw [hk, Nat.zero_add] at hle
    have happend := List.range'_append_1 (s := 0) (m := k * S.length)
      (n := innerN - k * S.length)
    rw [Nat.zero_add, Nat.add_sub_cancel' hle] at happend
    rw [happend, List.range_eq_range']
  · rw [starts_one, flatten_singletons, Nat.sub_zero,
      List.range_eq_range']

/-- The row kernel stores the row's tuples. -/
theorem loopRow_realizes {plan : IterationPlan} {e : Expr (Leaf T) α} (hlanes : e.LaneWise)
    (hn : plan.nOperands = 1 + e.leaves.length) (htier : TierSound plan) (dst innerN : Nat)
    (offsets : Nat → Int) :
    Realizes T.size (tupleCell T dst) (tupleValue c plan.bases e)
      (loopRow S c (bindRow T plan offsets (lowerRows e) 1).1 (dst + offsets 0 * T.size)
        (plan.innerStride 0) innerN plan.tier)
      (rowGroups S innerN plan.tier fun i => offsets + i • plan.innerStride) := by
  rw [loopRow, rowGroups]
  split <;> rename_i hsimd
  · obtain ⟨hunit, hsources⟩ := htier hsimd
    refine Realizes.append (Realizes.map fun i _ m => ?_) (Realizes.map fun i _ m => ?_)
    · simp only [StoreOp.writes, rowPacket, List.map_map]
      refine List.map_congr_left fun lane _ => ?_
      simp only [Function.comp_apply]
      rw [evaluatePacket_row c hlanes hn hsources, tupleCell, tuple_apply, hunit]
      refine Prod.ext ?_ rfl
      simp only
      push_cast
      ring
    · simp only [StoreOp.writes, rowScalar, List.range_one, List.map_cons, List.map_nil]
      rw [evaluate_row, tupleCell, tuple_apply, hunit]
      congr 2
      push_cast
      ring
  · refine Realizes.map fun i _ m => ?_
    simp only [StoreOp.writes, rowScalar, List.range_one, List.map_cons, List.map_nil]
    rw [evaluate_row, tupleCell, tuple_apply]
    congr 2
    push_cast
    ring

/-- The tuples of one row of a plan. -/
def rowTuples (plan : IterationPlan) (row : Nat) : List (Nat → Int) :=
  (List.range plan.rowSize).map fun i =>
    decode plan.dims.dropLast.reverse row + i • plan.innerStride

/-- A chunk of rows stores the tuples of its rows. -/
theorem loop2d_realizes {plan : IterationPlan} {e : Expr (Leaf T) α} (hlanes : e.LaneWise)
    (hn : plan.nOperands = 1 + e.leaves.length) (htier : TierSound plan)
    (hpos : ∀ d ∈ plan.dims, 0 < d.size) (dst rowBegin rowEnd : Nat) :
    ∃ groups, Realizes T.size (tupleCell T dst) (tupleValue c plan.bases e)
        (loop2d S c (lowerRows e) dst plan rowBegin rowEnd) groups ∧
      groups.flatten =
        (List.range' rowBegin (rowEnd - rowBegin)).flatMap (rowTuples plan) := by
  have houter : ∀ d ∈ plan.dims.dropLast.reverse, 0 < d.size := fun d hd =>
    hpos d (List.dropLast_subset _ (List.mem_reverse.1 hd))
  refine ⟨(List.range' rowBegin (rowEnd - rowBegin)).flatMap fun row =>
    rowGroups S plan.rowSize plan.tier fun i =>
      decode plan.dims.dropLast.reverse row + i • plan.innerStride, ?_, ?_⟩
  · rw [loop2d, rowOffsets_eq houter, List.flatMap_map]
    exact Realizes.flatMap fun row _ => loopRow_realizes S c hlanes hn htier dst _ _
  · rw [List.flatMap_def, List.flatten_flatten, List.map_map, ← List.flatMap_def]
    refine List.flatMap_congr fun row _ => ?_
    rw [Function.comp_apply, rowGroups_flatten, rowTuples]

theorem dims_eq_dropLast_append {plan : IterationPlan} (h : plan.dims ≠ []) :
    plan.dims = plan.dims.dropLast ++ [⟨plan.rowSize, plan.innerStride⟩] := by
  conv_lhs => rw [← List.dropLast_append_getLast h]
  simp [IterationPlan.rowSize, IterationPlan.innerStride, List.getLast?_eq_getLast_of_ne_nil h]

/-- All rows together hold the tuples of the plan. -/
theorem flatMap_rowTuples {plan : IterationPlan} (h : plan.dims ≠ []) :
    (List.range (sizes plan.dims.dropLast).prod).flatMap (rowTuples plan) =
      enumerate plan.dims := by
  conv_rhs => rw [dims_eq_dropLast_append h]
  rw [enumerate_append_singleton, enumerate_eq_map_decode, List.flatMap_map]
  rfl

end Rows

section Plan

/-- The broadcast strides of the destination and the leaves, in operand order. -/
def operandStrides (e : Expr (Leaf T) α) (dst : StridedRef T) (shape : List Nat) :
    List (List Int) :=
  (Leaf.ref dst :: e.leaves).map fun l => broadcastStrides shape l.toRef.dims

/-- What a plan for `dst = e` over a non-empty shape provides. -/
structure PlanOf (e : Expr (Leaf T) α) (dst : StridedRef T) (shape : List Nat)
    (plan : IterationPlan) : Prop where
  nOperands_eq : plan.nOperands = 1 + e.leaves.length
  bases_eq : plan.bases = (Leaf.ref dst :: e.leaves).map Leaf.data
  numel_eq : plan.numel = shape.prod
  tierSound : TierSound plan
  dims_ne : plan.dims ≠ []
  tuples : (enumerate plan.dims).Perm
    (enumerate (planDims shape (operandStrides e dst shape)))

theorem planLeaves_eq (out : List Nat) {e : Expr (Leaf T) α} {operands : List PlanOperand}
    (h : operands.length + e.leaves.length ≤ kMaxOperands) :
    planLeaves out e operands = .ok (operands ++
      e.leaves.map fun l => ⟨l.data, broadcastStrides out l.toRef.dims⟩) := by
  induction e generalizing operands with
  | scalar _ => simp [planLeaves, Expr.leaves]
  | leaf l =>
      rw [Expr.leaves, List.length_singleton] at h
      rw [planLeaves, if_pos (by omega)]
      rfl
  | unary f rhs ih => exact ih h
  | binary f lhs rhs ihl ihr =>
      rw [Expr.leaves, List.length_append] at h
      rw [planLeaves, ihl (by omega)]
      change planLeaves out rhs _ = _
      rw [ihr (by rw [List.length_append, List.length_map]; omega), Expr.leaves,
        List.map_append, List.append_assoc]
  | trinary f lhs mhs rhs ihl ihm ihr =>
      rw [Expr.leaves, List.length_append, List.length_append] at h
      rw [planLeaves, ihl (by omega)]
      change (planLeaves out mhs _).bind _ = _
      rw [ihm (by rw [List.length_append, List.length_map]; omega)]
      change planLeaves out rhs _ = _
      rw [ihr (by simp only [List.length_append, List.length_map]; omega), Expr.leaves,
        List.map_append, List.map_append, List.append_assoc, List.append_assoc]

/-- A plan that was made has room for its operands. -/
theorem planLeaves_length {out : List Nat} {e : Expr (Leaf T) α}
    {operands operands' : List PlanOperand} (h : planLeaves out e operands = .ok operands')
    (hle : operands.length ≤ kMaxOperands) :
    operands'.length = operands.length + e.leaves.length ∧
      operands'.length ≤ kMaxOperands := by
  induction e generalizing operands operands' with
  | scalar _ =>
      cases h
      exact ⟨by simp [Expr.leaves], hle⟩
  | leaf l =>
      rw [planLeaves] at h
      split at h
      · cases h
        exact ⟨by simp [Expr.leaves], by rw [List.length_append, List.length_singleton]; omega⟩
      · cases h
  | unary f rhs ih => exact ih h hle
  | binary f lhs rhs ihl ihr =>
      obtain ⟨mid, hl, hr⟩ := exceptBind_ok.1 h
      obtain ⟨hlen, hmid⟩ := ihl hl hle
      obtain ⟨hlen', hlast⟩ := ihr hr hmid
      exact ⟨by rw [Expr.leaves, List.length_append]; omega, hlast⟩
  | trinary f lhs mhs rhs ihl ihm ihr =>
      obtain ⟨mid, hl, hmr⟩ := exceptBind_ok.1 h
      obtain ⟨mid', hm, hr⟩ := exceptBind_ok.1 hmr
      obtain ⟨hlen, hmid⟩ := ihl hl hle
      obtain ⟨hlen', hmid'⟩ := ihm hm hmid
      obtain ⟨hlen'', hlast⟩ := ihr hr hmid'
      exact ⟨by rw [Expr.leaves, List.length_append, List.length_append]; omega, hlast⟩

theorem planDims_zeroBeyond (out : List Nat) (strides : List (List Int)) :
    ZeroBeyond strides.length (planDims out strides) := by
  induction out generalizing strides with
  | nil => simp [ZeroBeyond, planDims]
  | cons n out ih =>
      intro d hd op hop
      rcases List.mem_cons.1 hd with rfl | hd
      · simp only [List.getD_eq_default _ _ hop]
        rfl
      · exact ih (strides.map List.tail) d hd op (by simpa using hop)

/-- One operand of a plan walks the result shape with its own strides. -/
theorem dot_planDims (out : List Nat) (strides : List (List Int)) (idx : List Nat)
    (op : Nat) :
    dot (planDims out strides) idx op =
      dot (List.zipWith Axis.mk out (strides.getD op [])) idx := by
  induction out generalizing strides idx with
  | nil => simp [planDims]
  | cons n out ih =>
      cases idx with
      | nil => simp [dot]
      | cons i idx =>
          have htail : (strides.map List.tail).getD op [] = (strides.getD op []).tail :=
            List.getD_map strides [] List.tail
          rw [planDims, dot_cons, Pi.add_apply, Pi.smul_apply, ih, htail]
          simp only
          cases strides.getD op [] with
          | nil => simp
          | cons s rest => rfl

theorem firstStrideZero_eq_none {numel : Int} {dims : List (Axis Int)}
    (h : ∀ a ∈ dims, 1 < a.size → a.stride ≠ 0) (d : Nat) :
    firstStrideZero numel d dims = none := by
  induction dims generalizing d with
  | nil => rfl
  | cons a dims ih =>
      have ha := h a List.mem_cons_self
      rw [firstStrideZero, if_pos, ih fun b hb => h b (List.mem_cons_of_mem a hb)]
      by_cases hs : 1 < a.size
      · exact Or.inl (ha hs)
      · exact Or.inr (Or.inl (by omega))

theorem broadcastStrides_self {shape : List Nat} {dst : StridedRef T}
    (h : dst.sizes = shape) :
    broadcastStrides shape dst.dims =
      dst.dims.map fun a => if a.size = 1 then 0 else a.stride := by
  have hlen : shape.length = dst.dims.length := by
    rw [← h, StridedRef.sizes, sizes_length]
  rw [broadcastStrides, hlen, Nat.sub_self, List.replicate_zero, List.nil_append]

variable {e : Expr (Leaf T) α} {dst : StridedRef T} {shape : List Nat}

theorem makeIterationPlan_eq (hlen : e.leaves.length < kMaxOperands)
    (hdst : dst.sizes = shape) {numel : Int} (hnumel : wrapI64 (shapeNumel shape) = numel)
    (hstride : numel = 0 ∨ ∀ a ∈ dst.dims, 1 < a.size → a.stride ≠ 0) :
    makeIterationPlan e dst shape =
      .ok (let plan : IterationPlan :=
            { dims := planDims shape (operandStrides e dst shape)
              nOperands := 1 + e.leaves.length
              tier := 3
              numel := numel
              bases := (Leaf.ref dst :: e.leaves).map Leaf.data }
        if numel = 0 then { plan with dims := [], tier := 0 }
        else sortMergeClassify plan) := by
  have hfirst : firstStrideZero numel 0 dst.dims = none := by
    rcases hstride with rfl | hstride
    · generalize (0 : Nat) = d
      induction dst.dims generalizing d with
      | nil => rfl
      | cons a dims ih => rw [firstStrideZero, if_pos (Or.inr (Or.inr rfl)), ih]
    · exact firstStrideZero_eq_none hstride 0
  have hmax : [PlanOperand.mk dst.data (broadcastStrides shape dst.dims)].length +
      e.leaves.length ≤ kMaxOperands := by
    rw [List.length_singleton]
    omega
  have hleaves := planLeaves_eq shape hmax
  rw [makeIterationPlan]
  simp only [hnumel, hfirst, ← broadcastStrides_self hdst, hleaves]
  simp only [bind, Except.bind, List.map_append, List.map_map, List.length_append,
    List.length_map, List.map_cons, List.map_nil, List.length_singleton, pure,
    Except.pure]
  split <;> rfl

theorem wrapI64_shapeNumel (h : (shape.prod : Int) ≤ int64Max) :
    wrapI64 (shapeNumel shape) = shape.prod := by
  unfold int64Max at h
  rw [shapeNumel_eq, wrapU64_eq_self (by omega), wrapI64_eq_self]
  unfold InInt64 int64Min int64Max
  omega

@[simp] theorem sizes_planDims (out : List Nat) (strides : List (List Int)) :
    sizes (planDims out strides) = out := by
  induction out generalizing strides with
  | nil => rfl
  | cons n out ih => rw [planDims, sizes_cons, ih]

/-- Within the operand limit a destination without stride-0 steps gets a plan. -/
theorem exists_planOf (hlen : e.leaves.length < kMaxOperands) (hdst : dst.sizes = shape)
    (hpos : shape.prod ≠ 0) (hint : (shape.prod : Int) ≤ int64Max)
    (hstride : ∀ a ∈ dst.dims, 1 < a.size → a.stride ≠ 0) :
    ∃ plan, makeIterationPlan e dst shape = .ok plan ∧ PlanOf e dst shape plan := by
  rw [makeIterationPlan_eq hlen hdst (wrapI64_shapeNumel hint) (Or.inr hstride)]
  rw [if_neg (by exact_mod_cast hpos)]
  have hz : ZeroBeyond (1 + e.leaves.length)
      (planDims shape (operandStrides e dst shape)) := by
    have := planDims_zeroBeyond shape (operandStrides e dst shape)
    rwa [operandStrides, List.length_map, List.length_cons, Nat.add_comm] at this
  exact ⟨_, rfl,
    { nOperands_eq := sortMergeClassify_nOperands _
      bases_eq := sortMergeClassify_bases _
      numel_eq := sortMergeClassify_numel _
      tierSound := sortMergeClassify_tierSound (Nat.succ_le_of_lt (by simp only; omega))
      dims_ne := sortMergeClassify_dims_ne_nil _
      tuples := sortMergeClassify_enumerate hz }⟩

variable {plan : IterationPlan}

theorem PlanOf.prod_sizes (h : PlanOf e dst shape plan) :
    (sizes plan.dims).prod = shape.prod := by
  rw [← length_enumerate, h.tuples.length_eq, length_enumerate, sizes_planDims]

theorem PlanOf.size_pos (h : PlanOf e dst shape plan) (hpos : shape.prod ≠ 0) :
    ∀ d ∈ plan.dims, 0 < d.size := by
  intro d hd
  rw [← h.prod_sizes] at hpos
  refine Nat.pos_of_ne_zero fun hzero => hpos (List.prod_eq_zero ?_)
  exact hzero ▸ List.mem_map_of_mem hd

theorem PlanOf.rows_eq (h : PlanOf e dst shape plan) (hpos : shape.prod ≠ 0) :
    plan.rows = (sizes plan.dims.dropLast).prod := by
  have hsplit : (sizes plan.dims.dropLast).prod * plan.rowSize = shape.prod := by
    rw [← h.prod_sizes]
    conv_rhs => rw [dims_eq_dropLast_append h.dims_ne]
    simp
  have hrow : 0 < plan.rowSize := by
    refine Nat.pos_of_ne_zero fun hzero => hpos ?_
    rw [← hsplit, hzero, Nat.mul_zero]
  rw [IterationPlan.rows, if_pos hrow, h.numel_eq, ← hsplit, Nat.cast_mul,
    Int.mul_tdiv_cancel _ (by omega)]

end Plan

/-- A planned run that does not raise has at most 31 leaves. -/
theorem leaves_lt_of_runPlanned {S : SimdTarget T} {threads : ParallelFor}
    {c : Codec α T.size} {ops : List (StoreOp StoreKind α)}
    (h : runPlanned S threads c e dst shape = .ok ops) :
    e.leaves.length < kMaxOperands := by
  obtain ⟨plan, hplan, -⟩ := exceptBind_ok.1 h
  rw [makeIterationPlan] at hplan
  simp only at hplan
  split at hplan
  · cases hplan
  · obtain ⟨operands, hoperands, -⟩ := exceptBind_ok.1 hplan
    obtain ⟨hlen, hle⟩ := planLeaves_length hoperands (by simp [kMaxOperands])
    rw [List.length_singleton] at hlen
    omega

section Run

variable (S : SimdTarget T) (threads : ParallelFor) (c : Codec α T.size)
  {e : Expr (Leaf T) α} {dst : StridedRef T} {shape : List Nat}

/-- The offsets of all operands at a multi-index of the result. -/
def tupleOf (e : Expr (Leaf T) α) (dst : StridedRef T) (shape idx : List Nat) :
    Nat → Int :=
  dot (planDims shape (operandStrides e dst shape)) idx

/-- The stores of a planned run are those of the result's multi-indices, each
once, however the rows are split. -/
theorem runPlanned_realizes (hlanes : e.LaneWise) (hlen : e.leaves.length < kMaxOperands)
    (hdst : dst.sizes = shape) (hint : (shape.prod : Int) ≤ int64Max)
    (hstride : shape.prod ≠ 0 → ∀ a ∈ dst.dims, 1 < a.size → a.stride ≠ 0) :
    ∃ ops groups, runPlanned S threads c e dst shape = .ok ops ∧
      Realizes T.size (tupleCell T dst.data)
        (tupleValue c ((Leaf.ref dst :: e.leaves).map Leaf.data) e) ops groups ∧
      groups.flatten.Perm ((indices shape).map (tupleOf e dst shape)) := by
  by_cases hpos : shape.prod = 0
  · have hempty : indices shape = [] := List.length_eq_zero_iff.1 (by rw [length_indices, hpos])
    refine ⟨[], [], ?_, List.Forall₂.nil, by simp [hempty]⟩
    have hnumel := wrapI64_shapeNumel hint
    rw [hpos] at hnumel
    rw [runPlanned, makeIterationPlan_eq hlen hdst hnumel (Or.inl rfl)]
    rfl
  have htuples : (indices shape).map (tupleOf e dst shape) =
      enumerate (planDims shape (operandStrides e dst shape)) := by
    rw [enumerate, sizes_planDims]
    rfl
  obtain ⟨plan, hplan, hof⟩ := exists_planOf hlen hdst hpos hint (hstride hpos)
  have hrows : plan.rows.toNat = (sizes plan.dims.dropLast).prod := by
    rw [hof.rows_eq hpos, Int.toNat_natCast]
  have hnumel : plan.numel ≠ 0 := by
    rw [hof.numel_eq]
    exact_mod_cast hpos
  have chunk := fun b n => loop2d_realizes S c hlanes hof.nOperands_eq hof.tierSound
    (hof.size_pos hpos) dst.data b n
  simp only [runPlanned, hplan, bind, Except.bind, if_neg hnumel, pure, Except.pure]
  rw [htuples, ← hof.bases_eq]
  split
  · obtain ⟨groups, hreal, hflat⟩ := chunk 0 plan.rows.toNat
    refine ⟨_, groups, rfl, hreal, ?_⟩
    rw [hflat, Nat.sub_zero, ← List.range_eq_range', hrows, flatMap_rowTuples hof.dims_ne]
    exact hof.tuples
  · choose groups hreal hflat using chunk
    refine ⟨_, (threads.pieces plan.rows.toNat (max 1 (kGrainSize / plan.rowSize))).flatMap
      fun piece => groups piece.1 piece.2, rfl, ?_, ?_⟩
    · exact Realizes.flatMap fun piece _ => hreal piece.1 piece.2
    · rw [List.flatMap_def, List.flatten_flatten, List.map_map, ← List.flatMap_def]
      simp only [Function.comp_def, hflat]
      rw [← List.flatMap_assoc]
      refine ((threads.isSplit _ _).flatMap_range'_perm.flatMap_right _).trans ?_
      rw [hrows, flatMap_rowTuples hof.dims_ne]
      exact hof.tuples

theorem tupleOf_operand {idx : List Nat} (hidx : InBounds idx shape) {op : Nat}
    {l : Leaf T} (hl : (Leaf.ref dst :: e.leaves)[op]? = some l)
    (hfit : BroadcastsTo l.toRef.sizes shape) :
    (((Leaf.ref dst :: e.leaves).map Leaf.data).getD op 0 : Int) +
        tupleOf e dst shape idx op * T.size = l.readAddress idx := by
  have hdata : ((Leaf.ref dst :: e.leaves).map Leaf.data).getD op 0 = l.data := by
    rw [List.getD_eq_getElem?_getD, List.getElem?_map, hl]
    rfl
  have hstrides : (operandStrides e dst shape).getD op [] =
      broadcastStrides shape l.toRef.dims := by
    rw [operandStrides, List.getD_eq_getElem?_getD, List.getElem?_map, hl]
    rfl
  rw [hdata, tupleOf, dot_planDims, hstrides, dot_broadcastStrides hfit hidx]
  rfl

theorem tupleCell_tupleOf {idx : List Nat} (hdst : dst.sizes = shape)
    (hidx : InBounds idx shape) :
    tupleCell T dst.data (tupleOf e dst shape idx) = dst.address idx := by
  have hfit : BroadcastsTo (Leaf.ref dst).toRef.sizes shape := hdst ▸ BroadcastsTo.refl _
  have hhead : (Leaf.ref dst :: e.leaves)[0]? = some (Leaf.ref dst) := rfl
  have h := tupleOf_operand hidx hhead hfit
  have hself : broadcastIndex (Leaf.ref dst).toRef.sizes idx = idx := by
    subst hdst
    exact broadcastIndex_self hidx
  rw [Leaf.readAddress, hself] at h
  exact h

theorem tupleValue_tupleOf {idx : List Nat} (hidx : InBounds idx shape)
    (hfit : ∀ l ∈ e.leaves, BroadcastsTo l.toRef.sizes shape) (m : Memory) :
    tupleValue c ((Leaf.ref dst :: e.leaves).map Leaf.data) e m (tupleOf e dst shape idx) =
      logicalValue c m e idx := by
  refine Expr.evaluate_numbered _ fun j l hj => ?_
  rw [operandRead, tupleOf_operand hidx (l := l) ?_ (hfit l (List.mem_of_getElem? hj))]
  rw [Nat.add_comm]
  exact hj

/-- A planned run stores, at every multi-index, the value of the tree there. -/
theorem runPlanned_writes (hlanes : e.LaneWise) (hlen : e.leaves.length < kMaxOperands)
    (hfit : ∀ l ∈ e.leaves, BroadcastsTo l.toRef.sizes shape) (hdst : dst.sizes = shape)
    (hint : (shape.prod : Int) ≤ int64Max)
    (hstride : shape.prod ≠ 0 → ∀ a ∈ dst.dims, 1 < a.size → a.stride ≠ 0) :
    ∃ ops, runPlanned S threads c e dst shape = .ok ops ∧
      ∀ m, (writesOf T.size m ops).Perm
        ((indices shape).map fun idx => (dst.address idx, logicalValue c m e idx)) := by
  obtain ⟨ops, groups, hrun, hreal, hflat⟩ :=
    runPlanned_realizes S threads c hlanes hlen hdst hint hstride
  refine ⟨ops, hrun, fun m => ?_⟩
  rw [hreal.writesOf]
  refine (hflat.map _).trans (List.Perm.of_eq ?_)
  rw [List.map_map]
  refine List.map_congr_left fun idx hidx => ?_
  rw [mem_indices] at hidx
  rw [Function.comp_apply, tupleCell_tupleOf hdst hidx, tupleValue_tupleOf c hidx hfit]

/-- A planned run leaves the snapshot when every leaf is safe to read meanwhile. -/
theorem runPlanned_holdsSnapshot (hlanes : e.LaneWise) (hlen : e.leaves.length < kMaxOperands)
    (hfit : ∀ l ∈ e.leaves, BroadcastsTo l.toRef.sizes dst.sizes)
    (hint : (dst.sizes.prod : Int) ≤ int64Max)
    (hstride : dst.sizes.prod ≠ 0 → ∀ a ∈ dst.dims, 1 < a.size → a.stride ≠ 0)
    (hsafe : ∀ l ∈ e.leaves, AliasSafe dst l)
    (hap : (indices dst.sizes).Pairwise fun i j =>
      Apart T.size (dst.address i) (dst.address j)) :
    ∃ ops, runPlanned S threads c e dst dst.sizes = .ok ops ∧
      ∀ m, HoldsSnapshot c e dst m (run c ops m) := by
  obtain ⟨ops, groups, hrun, hreal, hflat⟩ :=
    runPlanned_realizes S threads c hlanes hlen rfl hint hstride
  refine ⟨ops, hrun, fun m => ?_⟩
  exact holdsSnapshot_of_realizes (tupleOf e dst dst.sizes) hreal hflat
    (fun idx hidx => tupleCell_tupleOf rfl hidx)
    (fun idx hidx m => tupleValue_tupleOf c hidx hfit m) hfit hsafe hap m

/-- The planner implements broadcasting: it stores every logical element of the
destination once, with the value of the tree at the right-aligned multi-index of
each leaf, and nothing else; how the rows are split does not matter. -/
theorem runPlanned_broadcasts (hshape : expressionResultShape e = .ok shape)
    (hlanes : e.LaneWise) (hleaves : e.leaves.length ≤ 31) (hdst : dst.sizes = shape)
    (hstored : dst.Stored) (hinj : isNonOverlapping dst = true)
    (hdisj : ∀ l ∈ e.leaves, Disjoint l.toRef.region dst.region) :
    ∃ ops, runPlanned S threads c e dst shape = .ok ops ∧
      ((indices shape).map dst.address).Nodup ∧
      (∀ m, ((writesOf T.size m ops).map Prod.fst).Perm
        ((indices shape).map dst.address)) ∧
      (∀ m, (∀ idx, InBounds idx shape →
          load c (run c ops m) (dst.address idx) = logicalValue c m e idx) ∧
        ∀ x ∉ dst.region, run c ops m x = m x) ∧
      ∀ (threads' : ParallelFor) (ops' : List (StoreOp StoreKind α)),
        runPlanned S threads' c e dst shape = .ok ops' →
          ∀ m, run c ops' m = run c ops m := by
  subst hdst
  have hlen : e.leaves.length < kMaxOperands := by
    unfold kMaxOperands
    omega
  have hfit := expressionResultShape_fits hshape
  have hadr := hstored.toAddressable
  have hint := hstored.prod_le hinj
  have hstride : dst.sizes.prod ≠ 0 → ∀ a ∈ dst.dims, 1 < a.size → a.stride ≠ 0 :=
    fun hne => hadr.stride_ne_zero (hadr.numel_eq ▸ hne) hinj
  have hsafe : ∀ l ∈ e.leaves, AliasSafe dst l := fun l hl => Or.inl (hdisj l hl)
  have hap := address_apart hadr fun _ => hinj
  obtain ⟨ops, hrun, hsnap⟩ :=
    runPlanned_holdsSnapshot S threads c hlanes hlen hfit hint hstride hsafe hap
  obtain ⟨ops', hrun', hwrites⟩ := runPlanned_writes S threads c hlanes hlen hfit rfl hint hstride
  rw [hrun, Except.ok.injEq] at hrun'
  subst hrun'
  refine ⟨ops, hrun, address_nodup hadr fun _ => hinj, fun m => ?_,
    fun m => ⟨fun idx hidx => (hsnap m).load hidx, fun x hx => (hsnap m).frame hx⟩, ?_⟩
  · refine ((hwrites m).map _).trans (List.Perm.of_eq ?_)
    rw [List.map_map]
    rfl
  intro threads' ops' hrun' m
  obtain ⟨ops'', hrun'', hsnap'⟩ :=
    runPlanned_holdsSnapshot S threads' c hlanes hlen hfit hint hstride hsafe hap
  rw [hrun'', Except.ok.injEq] at hrun'
  subst hrun'
  exact (hsnap' m).unique (hsnap m)

end Run

namespace PlannedEvaluationWitness

open Sample

/-- A row of four elements. -/
def row : StridedRef float := cpuRef 8192 [⟨4, 1⟩]

/-- A column of three elements; the stride of its last dimension is never used. -/
def column : StridedRef float := cpuRef 16384 [⟨3, 1⟩, ⟨1, 7⟩]

def matrix : StridedRef float := cpuRef 4096 [⟨3, 4⟩, ⟨4, 1⟩]

/-- Bytewise sum of the row and the column. -/
def outerSum : Expr (Leaf float) (Fin 4 → UInt8) :=
  .binary (.lanes fun x y k => x k + y k) (.leaf (.ref row)) (.leaf (.ref column))

theorem outerSum_laneWise : outerSum.LaneWise :=
  ⟨BinaryFunctor.lanes_laneWise _, trivial, trivial⟩

theorem matrix_stored : matrix.Stored :=
  ⟨⟨by decide, by decide, fun _ => by decide⟩, fun _ => by decide⟩

theorem outerSum_disjoint : ∀ l ∈ outerSum.leaves, Disjoint l.toRef.region matrix.region := by
  intro l hl
  have hrow : row.Addressable := ⟨by decide, by decide, fun _ => by decide⟩
  have hcolumn : column.Addressable := ⟨by decide, by decide, fun _ => by decide⟩
  rcases List.mem_cons.1 hl with rfl | hl
  · exact disjoint_region_of_range hrow matrix_stored.toAddressable (Or.inr (by decide))
  · obtain rfl := List.mem_singleton.1 hl
    exact disjoint_region_of_range hcolumn matrix_stored.toAddressable (Or.inr (by decide))

theorem runPlanned_broadcasts_outerSum :
    ∃ ops, runPlanned fourLanes twoThreads (Codec.bytes 4) outerSum matrix [3, 4] =
        .ok ops ∧
      ∀ m, load (Codec.bytes 4) (run (Codec.bytes 4) ops m) (matrix.address [2, 1]) =
        fun k => load (Codec.bytes 4) m (row.address [1]) k +
          load (Codec.bytes 4) m (column.address [2, 0]) k := by
  have hshape : expressionResultShape outerSum = .ok [3, 4] := rfl
  obtain ⟨ops, hrun, -, -, hvalues, -⟩ :=
    runPlanned_broadcasts fourLanes twoThreads (Codec.bytes 4) hshape outerSum_laneWise
      (by decide) rfl matrix_stored (by decide) outerSum_disjoint
  exact ⟨ops, hrun, fun m => (hvalues m).1 [2, 1] (by decide)⟩

end PlannedEvaluationWitness

end Vectorization
