/-
`expressions_evaluator`: the loops of the contiguous fast path as flat steps, and
the choice between them and the planner.
-/
import Vectorization.IterationPlan
import Vectorization.Tensor

namespace Vectorization

open MachineInteger ByteMemory LoopTiling

variable {T : ElementType} {α : Type}

/-- One evaluation of the flat loops, stored at once: `lanes` elements from
`first` on. -/
structure FlatStep where
  kind : StoreKind
  first : Nat
  lanes : Nat
deriving Repr, DecidableEq

namespace FlatStep

def indices (s : FlatStep) : List Nat := List.range' s.first s.lanes

/-- The tree is loaded by element for a scalar store and by register otherwise. -/
def op (c : Codec α T.size) (e : Expr (Leaf T) α) (data : Nat) (s : FlatStep) :
    StoreOp StoreKind α where
  kind := s.kind
  address := data + s.first * T.size
  lanes := s.lanes
  value m lane :=
    match s.kind with
    | .scalar => e.evaluate (Leaf.read c m (s.first + lane))
    | .unaligned | .aligned => e.evaluatePacket (Leaf.readPacket c m s.first) lane

end FlatStep

section Loops

variable (S : SimdTarget T) (threads : ParallelFor)

/-- `for (; i < stop; ++i)`. -/
def scalarSteps (i stop : Nat) : List FlatStep :=
  (starts i stop 1).map fun i => ⟨.scalar, i, 1⟩

/-- `for (; i < stop; i += length)`, one register at a time. -/
def packetSteps (kind : StoreKind) (i stop : Nat) : List FlatStep :=
  (starts i stop S.length).map fun i => ⟨kind, i, S.length⟩

/-- `for (; i < stop; i += block)`, compiled only for more than one register. -/
def blockSteps (kind : StoreKind) (i stop : Nat) : List FlatStep :=
  if 1 < S.packet then
    (starts i stop S.block).flatMap fun i =>
      (List.range S.packet).map fun k => ⟨kind, i + k * S.length, S.length⟩
  else []

/-- The counter after the unrolled loop. -/
def blockExit (i stop : Nat) : Nat :=
  if 1 < S.packet then counterAfter i stop S.block else i

/-- `run_chunk_contiguous` over `[first, last)`. -/
def runChunkContiguous (first last : Nat) : List FlatStep :=
  if S.vectorized then
    let loopPeel := first + (last - first) / S.block * S.block
    let i := blockExit S first loopPeel
    let loopPeel2 := first + (last - first) / S.length * S.length
    blockSteps S .unaligned first loopPeel ++ packetSteps S .unaligned i loopPeel2 ++
      scalarSteps (counterAfter i loopPeel2 S.length) last
  else scalarSteps first last

/-- The aligned body from `i` up to `align_end`, the unaligned registers after it
and the scalar tail. -/
def runAligned (i n alignEnd : Nat) : List FlatStep :=
  let blockEnd := i + (alignEnd - i) / S.block * S.block
  let i₁ := blockExit S i blockEnd
  let i₂ := counterAfter i₁ alignEnd S.length
  let loopPeel2 := i₂ + (n - i₂) / S.length * S.length
  let blockEnd2 := i₂ + (loopPeel2 - i₂) / S.block * S.block
  let i₃ := blockExit S i₂ blockEnd2
  blockSteps S .aligned i blockEnd ++ packetSteps S .aligned i₁ alignEnd ++
    blockSteps S .unaligned i₂ blockEnd2 ++ packetSteps S .unaligned i₃ loopPeel2 ++
    scalarSteps (counterAfter i₃ loopPeel2 S.length) n

/-- The contiguous loops of `fill` over `n` elements. -/
def fillSteps (n alignStart alignEnd : Nat) : List FlatStep :=
  if S.vectorized then
    let i := counterAfter 0 alignStart 1
    let i₂ := counterAfter i alignEnd S.length
    let loopPeel2 := i₂ + (n - i₂) / S.length * S.length
    scalarSteps 0 alignStart ++ packetSteps S .aligned i alignEnd ++
      packetSteps S .unaligned i₂ loopPeel2 ++
      scalarSteps (counterAfter i₂ loopPeel2 S.length) n
  else scalarSteps 0 n

/-- The contiguous loops of `run_lowered` over `n` elements. -/
def flatSteps (n alignStart alignEnd : Nat) : List FlatStep :=
  if S.vectorized then
    let peel := scalarSteps 0 alignStart
    let i := counterAfter 0 alignStart 1
    if n ≤ i then peel
    else if threads.enabled ∧ (kGrainSize : Int) ≤ wrapI64 (n - i : Nat) then
      peel ++ (threads.pieces (n - i) kGrainSize).flatMap fun piece =>
        runChunkContiguous S (i + piece.1) (i + piece.2)
    else peel ++ runAligned S i n alignEnd
  else scalarSteps 0 n

end Loops

/-- `check_result_shape`: the destination is never broadcast. -/
def checkResultShape (shape : List Nat) (rhs : TensorImpl T) : Except Raise Unit :=
  if shape.map Nat.cast = rhs.sizes then .ok ()
  else .error (.shapeMismatch shape rhs.sizes)

def checkCpuReachable (rhs : TensorImpl T) (caller : String) : Except Raise Unit :=
  if rhs.device = .cpu then .ok () else .error (.notCpu caller)

def checkContiguous (rhs : TensorImpl T) (caller : String) : Except Raise Unit :=
  if rhs.contiguous then .ok () else .error (.notContiguous caller)

/-- `run_lowered`: the stores of the evaluation in the order in which they run. -/
def runLowered (S : SimdTarget T) (threads : ParallelFor) (c : Codec α T.size)
    (e : Expr (Leaf T) α) (rhs : TensorImpl T) :
    Except Raise (List (StoreOp StoreKind α)) := do
  let shape ← expressionResultShape e
  checkResultShape shape rhs
  let flat := leavesFlat rhs.numel e
  checkCpuReachable rhs "expressions_evaluator::run"
  if ¬ flat ∨ ¬ rhs.contiguous then
    let dst ← rhs.toStridedRef
    runPlanned S threads c e dst shape
  else
    return (flatSteps S threads rhs.numel rhs.alignStart rhs.alignEnd).map
      (FlatStep.op c e rhs.data)

/-- A store of one value to consecutive elements. -/
def fillOp (value : α) (data first : Nat) (kind : StoreKind) (lanes : Nat) :
    StoreOp StoreKind α where
  kind := kind
  address := data + first * T.size
  lanes := lanes
  value _ _ := value

/-- `fill`: the stores of one value to every element. -/
def fill (S : SimdTarget T) (value : α) (rhs : TensorImpl T) :
    Except Raise (List (StoreOp StoreKind α)) := do
  if ¬ rhs.nonOverlapping then throw .fillInternalOverlap
  if ¬ rhs.contiguous ∧ rhs.device = .cpu then
    let ref ← rhs.toStridedRef
    return (List.range ref.numel).map fun i =>
      fillOp (T := T) value ref.data (stridedOffset ref i) .scalar 1
  checkContiguous rhs "expressions_evaluator::fill"
  checkCpuReachable rhs "expressions_evaluator::fill"
  return (fillSteps S rhs.numel rhs.alignStart rhs.alignEnd).map fun s =>
    fillOp (T := T) value rhs.data s.first s.kind s.lanes

end Vectorization
