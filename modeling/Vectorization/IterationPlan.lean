/-
The CPU iteration planner of `iteration_plan.h`.  Every dimension of a plan has
one stride per operand, the destination being operand 0; dimensions are sorted,
merged where all operands allow it, and walked row by row with a counter.
Integer arithmetic is exact here; `PlanOverflow` models the 64-bit products of the code and
shows that for stored operands they are the exact ones.
-/
import Vectorization.ExpressionShape
import Vectorization.SimdTarget

namespace Vectorization

open StridedSpace MachineInteger ByteMemory LoopTiling

variable {T : ElementType} {α : Type}

/-- A dimension with the stride of every operand. -/
abbrev PlanDim := Axis (Nat → Int)

structure IterationPlan where
  /-- Outermost first; the last dimension is the row. -/
  dims : List PlanDim
  nOperands : Nat
  tier : Nat
  numel : Int
  /-- Address of the first element of each operand. -/
  bases : List Nat

/-- One operand while the leaves are collected. -/
structure PlanOperand where
  base : Nat
  strides : List Int
deriving Repr, DecidableEq

namespace IterationPlan

def rowSize (plan : IterationPlan) : Nat :=
  (plan.dims.getLast?.map Axis.size).getD 0

/-- The innermost stride of each operand. -/
def innerStride (plan : IterationPlan) : Nat → Int :=
  (plan.dims.getLast?.map Axis.stride).getD 0

def rows (plan : IterationPlan) : Int :=
  if 0 < plan.rowSize then plan.numel.tdiv plan.rowSize else 0

end IterationPlan

/-- `plan_leaves`: the operands of the leaves in tree order. -/
def planLeaves (out : List Nat) : Expr (Leaf T) α → List PlanOperand →
    Except Raise (List PlanOperand)
  | .scalar _, operands => .ok operands
  | .leaf l, operands =>
      if operands.length < kMaxOperands then
        .ok (operands ++ [⟨l.data, broadcastStrides out l.toRef.dims⟩])
      else .error .tooManyOperands
  | .unary _ rhs, operands => planLeaves out rhs operands
  | .binary _ lhs rhs, operands => do
      let operands ← planLeaves out lhs operands
      planLeaves out rhs operands
  | .trinary _ lhs mhs rhs, operands => do
      let operands ← planLeaves out lhs operands
      let operands ← planLeaves out mhs operands
      planLeaves out rhs operands

/-- The dimensions of the result shape with the operands' strides; operands
beyond the last one have stride zero. -/
def planDims : List Nat → List (List Int) → List PlanDim
  | [], _ => []
  | n :: out, strides =>
      ⟨n, fun op => (strides.getD op []).headD 0⟩ :: planDims out (strides.map List.tail)

/-- `dim_outer_than`: the first operand whose strides differ decides. -/
def dimOuterThan (nOperands : Nat) (a b : PlanDim) : Bool :=
  match (List.range nOperands).find? fun op => a.stride op ≠ b.stride op with
  | some op => decide (b.stride op < a.stride op)
  | none => false

/-- One pass of the insertion sort, on the sorted part read from the right. -/
def insertDim (nOperands : Nat) (d : PlanDim) : List PlanDim → List PlanDim
  | [] => [d]
  | e :: es =>
      if dimOuterThan nOperands d e then e :: insertDim nOperands d es else d :: e :: es

def sortDims (nOperands : Nat) (dims : List PlanDim) : List PlanDim :=
  (dims.foldl (fun sorted d => insertDim nOperands d sorted) []).reverse

/-- Neighbours merge when the outer stride spans the inner dimension for every
operand. -/
def mergeable (nOperands : Nat) (outer inner : PlanDim) : Bool :=
  (List.range nOperands).all fun op => outer.stride op == inner.stride op * inner.size

def mergeDims (nOperands : Nat) : PlanDim → List PlanDim → List PlanDim
  | cur, [] => [cur]
  | cur, d :: dims =>
      if mergeable nOperands cur d then
        mergeDims nOperands ⟨cur.size * d.size, d.stride⟩ dims
      else cur :: mergeDims nOperands d dims

/-- The loop tier of a merged plan, from its innermost strides. -/
def classifyTier (nOperands : Nat) (dims : List PlanDim) : Nat :=
  let inner : Nat → Int := (dims.getLast?.map Axis.stride).getD 0
  if (List.range nOperands).all fun op => inner op == 1 then
    if dims.length = 1 then 0 else 1
  else if inner 0 = 1 ∧
      (List.range nOperands).all fun op => op == 0 || inner op == 0 || inner op == 1 then 2
  else 3

def sortMergeClassify (plan : IterationPlan) : IterationPlan :=
  match sortDims plan.nOperands (plan.dims.filter fun d => decide (d.size ≠ 1)) with
  | [] => { plan with dims := [⟨1, 0⟩], tier := 3 }
  | d :: dims =>
      let merged := mergeDims plan.nOperands d dims
      { plan with dims := merged, tier := classifyTier plan.nOperands merged }

/-- The first dimension whose stride-0 steps would write one element twice. -/
def firstStrideZero (numel : Int) : Nat → List (Axis Int) → Option Nat
  | _, [] => none
  | d, a :: dims =>
      if a.stride ≠ 0 ∨ a.size ≤ 1 ∨ numel = 0 then firstStrideZero numel (d + 1) dims
      else some d

def makeIterationPlan (e : Expr (Leaf T) α) (dst : StridedRef T) (shape : List Nat) :
    Except Raise IterationPlan := do
  let numel := wrapI64 (shapeNumel shape)
  match firstStrideZero numel 0 dst.dims with
  | some d => throw (.strideZero d)
  | none =>
      let dstStrides := dst.dims.map fun a => if a.size = 1 then 0 else a.stride
      let operands ← planLeaves shape e [⟨dst.data, dstStrides⟩]
      let plan : IterationPlan :=
        { dims := planDims shape (operands.map PlanOperand.strides)
          nOperands := operands.length
          tier := 3
          numel := numel
          bases := operands.map PlanOperand.base }
      if numel = 0 then pure { plan with dims := [], tier := 0 }
      else pure (sortMergeClassify plan)

/-- A leaf bound to one row: address of its first element and inner stride. -/
structure RowRef where
  ptr : Int
  stride : Int
deriving Repr, DecidableEq

namespace RowRef

def read (c : Codec α T.size) (m : Memory) (index : Nat) (r : RowRef) : α :=
  load c m (r.ptr + index * r.stride * T.size)

/-- A row register: a splat when the row broadcasts the leaf, else a load. -/
def readPacket (c : Codec α T.size) (m : Memory) (index : Nat) (r : RowRef)
    (lane : Nat) : α :=
  if r.stride = 0 then load c m r.ptr
  else load c m (r.ptr + (index + lane : Nat) * T.size)

end RowRef

/-- `lower_rows`: the tree with unbound row leaves. -/
def lowerRows : Expr (Leaf T) α → Expr RowRef α
  | .scalar value => .scalar value
  | .leaf _ => .leaf ⟨0, 0⟩
  | .unary functor rhs => .unary functor (lowerRows rhs)
  | .binary functor lhs rhs => .binary functor (lowerRows lhs) (lowerRows rhs)
  | .trinary functor lhs mhs rhs =>
      .trinary functor (lowerRows lhs) (lowerRows mhs) (lowerRows rhs)

/-- The row leaf of an operand at the given offsets. -/
def rowRefOf (T : ElementType) (plan : IterationPlan) (offsets : Nat → Int) (op : Nat) :
    RowRef where
  ptr := plan.bases.getD op 0 + offsets op * T.size
  stride := plan.innerStride op

/-- `bind_row`: the leaves take the operands in tree order, from `op` on. -/
def bindRow (T : ElementType) (plan : IterationPlan) (offsets : Nat → Int) :
    Expr RowRef α → Nat → Expr RowRef α × Nat
  | .scalar value, op => (.scalar value, op)
  | .leaf _, op => (.leaf (rowRefOf T plan offsets op), op + 1)
  | .unary functor rhs, op =>
      let (rhs, op) := bindRow T plan offsets rhs op
      (.unary functor rhs, op)
  | .binary functor lhs rhs, op =>
      let (lhs, op) := bindRow T plan offsets lhs op
      let (rhs, op) := bindRow T plan offsets rhs op
      (.binary functor lhs rhs, op)
  | .trinary functor lhs mhs rhs, op =>
      let (lhs, op) := bindRow T plan offsets lhs op
      let (mhs, op) := bindRow T plan offsets mhs op
      let (rhs, op) := bindRow T plan offsets rhs op
      (.trinary functor lhs mhs rhs, op)

section Rows

variable (S : SimdTarget T) (c : Codec α T.size)

/-- `data[i] = …` for one element of a row. -/
def rowScalar (row : Expr RowRef α) (address : Int) (i : Nat) : StoreOp StoreKind α where
  kind := .scalar
  address := address
  lanes := 1
  value m _ := row.evaluate (RowRef.read c m i)

/-- `storeu` of one register of a row. -/
def rowPacket (row : Expr RowRef α) (address : Int) (i : Nat) : StoreOp StoreKind α where
  kind := .unaligned
  address := address
  lanes := S.length
  value m := row.evaluatePacket (RowRef.readPacket c m i)

/-- Where the SIMD loop `i + length <= inner_n` of a row ends. -/
def simdRowEnd (innerN : Nat) : Nat :=
  if S.vectorized then innerN / S.length * S.length else 0

def loopRow (row : Expr RowRef α) (dstRow dstStride : Int) (innerN tier : Nat) :
    List (StoreOp StoreKind α) :=
  if tier ≤ 2 then
    ((starts 0 (simdRowEnd S innerN) S.length).map fun (i : Nat) =>
        rowPacket S c row (dstRow + i * T.size) i) ++
      (starts (simdRowEnd S innerN) innerN 1).map fun (i : Nat) =>
        rowScalar c row (dstRow + i * T.size) i
  else
    (starts 0 innerN 1).map fun (i : Nat) =>
      rowScalar c row (dstRow + i * dstStride * T.size) i

end Rows

/-- The coordinates and offsets of a row number, innermost dimension first. -/
def startRow : List PlanDim → Nat → List Nat × (Nat → Int)
  | [], _ => ([], 0)
  | a :: dims, rem =>
      let next := startRow dims (rem / a.size)
      (rem % a.size :: next.1, (rem % a.size) • a.stride + next.2)

/-- The counter step to the next row, innermost dimension first. -/
def nextRow : List PlanDim → List Nat → (Nat → Int) → List Nat × (Nat → Int)
  | a :: dims, i :: coord, offsets =>
      let i := i + 1
      let offsets := offsets + a.stride
      if i < a.size then (i :: coord, offsets)
      else
        let next := nextRow dims coord (offsets - i • a.stride)
        (0 :: next.1, next.2)
  | _, coord, offsets => (coord, offsets)

/-- The offsets of `count` consecutive rows. -/
def rowOffsets (dims : List PlanDim) : Nat → List Nat → (Nat → Int) → List (Nat → Int)
  | 0, _, _ => []
  | count + 1, coord, offsets =>
      let next := nextRow dims coord offsets
      offsets :: rowOffsets dims count next.1 next.2

def loop2d (S : SimdTarget T) (c : Codec α T.size) (lowered : Expr RowRef α) (dst : Nat)
    (plan : IterationPlan) (rowBegin rowEnd : Nat) : List (StoreOp StoreKind α) :=
  let outer := plan.dims.dropLast.reverse
  let start := startRow outer rowBegin
  (rowOffsets outer (rowEnd - rowBegin) start.1 start.2).flatMap fun offsets =>
    loopRow S c (bindRow T plan offsets lowered 1).1 (dst + offsets 0 * T.size)
      (plan.innerStride 0) plan.rowSize plan.tier

/-- `run_planned`: the stores of `dst = e` in the order in which they run. -/
def runPlanned (S : SimdTarget T) (threads : ParallelFor) (c : Codec α T.size)
    (e : Expr (Leaf T) α) (dst : StridedRef T) (shape : List Nat) :
    Except Raise (List (StoreOp StoreKind α)) := do
  let plan ← makeIterationPlan e dst shape
  if plan.numel = 0 then return []
  let lowered := lowerRows e
  let rows := plan.rows
  if ¬ threads.enabled ∨ plan.numel < kGrainSize ∨ rows < 2 then
    return loop2d S c lowered dst.data plan 0 rows.toNat
  let rowGrain := max 1 (kGrainSize / plan.rowSize)
  return (threads.pieces rows.toNat rowGrain).flatMap fun piece =>
    loop2d S c lowered dst.data plan piece.1 piece.2

end Vectorization
