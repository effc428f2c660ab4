/-
Assignment to a tensor: the checks of destination, placement and overlap in the
order of the source, then the stores.  The state is the shared memory and the
destination object; an exception keeps the state it is raised in.
-/
import Vectorization.Clone
import Vectorization.Evaluator

namespace Vectorization

open ByteMemory AtomicRun

variable {T : ElementType} {α : Type}

/-- What is fixed when the library is compiled and linked. -/
structure Build (T : ElementType) where
  simd : SimdTarget T
  threads : ParallelFor
  /-- `NDEBUG`. -/
  ndebug : Bool
  heap : Heap T

/-- The right-hand side of an assignment: a tree, or a tensor itself. -/
inductive Source (T : ElementType) (α : Type)
  | expression (e : Expr (Leaf T) α)
  | tensor (t : TensorImpl T)

namespace Source

def tree : Source T α → Expr (Leaf T) α
  | expression e => e
  | tensor t => .leaf (.ref t.strided)

/-- The tree with a tensor taken as its strided reference. -/
def lower : Source T α → Except Raise (Expr (Leaf T) α)
  | expression e => .ok e
  | tensor t => do
      let leaf ← t.toStridedRef
      return .leaf (.ref leaf)

end Source

/-- `accumulate_expression_placement`: the device and index of the leaves seen so
far. -/
def accumulateExpressionPlacement : Expr (Leaf T) α → Option (DeviceEnum × Int) →
    Except Raise (Option (DeviceEnum × Int))
  | .scalar _, seen => .ok seen
  | .leaf l, none => .ok (some (l.device, l.deviceIndex))
  | .leaf l, some place =>
      if (l.device, l.deviceIndex) = place then .ok (some place)
      else .error .mixedPlacement
  | .unary _ rhs, seen => accumulateExpressionPlacement rhs seen
  | .binary _ lhs rhs, seen => do
      let seen ← accumulateExpressionPlacement lhs seen
      accumulateExpressionPlacement rhs seen
  | .trinary _ lhs mhs rhs, seen => do
      let seen ← accumulateExpressionPlacement lhs seen
      let seen ← accumulateExpressionPlacement mhs seen
      accumulateExpressionPlacement rhs seen

def validatePlacement (dst : TensorImpl T) (e : Expr (Leaf T) α) : Except Raise Unit := do
  match ← accumulateExpressionPlacement e none with
  | none => return ()
  | some place =>
      if place = (dst.device, dst.deviceIndex) then return ()
      else throw .destinationPlacement

def validateDestination (dst : TensorImpl T) : Except Raise Unit :=
  if dst.nonOverlapping then .ok () else .error .internalOverlap

/-- The leaf case of `check_assignment_overlap`. -/
def checkLeafOverlap (noalias : Bool) (dst : StridedRef T) (l : Leaf T) :
    Except Raise Unit :=
  let status := classifyOverlap dst l.toRef
  if status = .partialOverlap then .error .partialOverlap
  else if ¬ noalias ∧ status = .tooHard then .error .overlapTooHard
  else .ok ()

/-- `check_assignment_overlap`: a release build skips the walk when the caller
asserts that nothing aliases. -/
def checkAssignmentOverlap (ndebug noalias : Bool) (dst : StridedRef T) :
    Expr (Leaf T) α → Except Raise Unit
  | .scalar _ => .ok ()
  | .leaf l => if ndebug ∧ noalias then .ok () else checkLeafOverlap noalias dst l
  | .unary _ rhs => checkAssignmentOverlap ndebug noalias dst rhs
  | .binary _ lhs rhs => do
      checkAssignmentOverlap ndebug noalias dst lhs
      checkAssignmentOverlap ndebug noalias dst rhs
  | .trinary _ lhs mhs rhs => do
      checkAssignmentOverlap ndebug noalias dst lhs
      checkAssignmentOverlap ndebug noalias dst mhs
      checkAssignmentOverlap ndebug noalias dst rhs

/-- The shared memory and the destination object. -/
structure AssignState (T : ElementType) where
  memory : Memory
  dst : TensorImpl T

abbrev Assign (T : ElementType) := EStateM Raise (AssignState T)

/-- The destination object. -/
def destination : Assign T (TensorImpl T) := do
  return (← get).dst

/-- A computation on the memory alone. -/
def onMemory {β : Type} (x : EStateM Raise Memory β) : Assign T β := fun s =>
  match x s.memory with
  | .ok b m => .ok b { s with memory := m }
  | .error e m => .error e { s with memory := m }

section Operations

variable (b : Build T) (c : Codec α T.size)

/-- Stores, in order; row kernels and thread pool do not raise. -/
def store (ops : List (StoreOp StoreKind α)) : Assign T Unit :=
  modify fun s => { s with memory := run c ops s.memory }

/-- `tensor_impl::assign`. -/
def assign (src : Source T α) (uncheckedAlias : Bool) : Assign T Unit := do
  let dst ← destination
  raising (validateDestination dst)
  raising (validatePlacement dst src.tree)
  let e ← raising src.lower
  let ref ← raising dst.toStridedRef
  raising (checkAssignmentOverlap b.ndebug uncheckedAlias ref e)
  let ops ← raising (runLowered b.simd b.threads c e dst)
  store c ops

/-- `operator=(scalar)` and `fill_async`. -/
def assignScalar (value : α) : Assign T Unit := do
  let dst ← destination
  raising (validateDestination dst)
  let ops ← raising (fill b.simd value dst)
  store c ops

/-- `dst = dst op src`, as the compound assignments build it. -/
def assignUpdate (functor : BinaryFunctor α) (src : Source T α) (uncheckedAlias : Bool) :
    Assign T Unit := do
  let dst ← destination
  let lhs ← raising dst.toStridedRef
  let rhs ← raising src.lower
  assign b c (.expression (.binary functor (.leaf (.ref lhs)) rhs)) uncheckedAlias

/-- `move_from`: the object takes over geometry, window and cached fields. -/
def moveFrom (rhs : TensorImpl T) : Assign T Unit :=
  modify fun s => { s with dst := { rhs with isView := s.dst.isView } }

/-- `operator=(tensor_impl<U, V> const&)`: a view writes its elements, an owner
takes a packed copy. -/
def assignTensor (rhs : TensorImpl T) : Assign T Unit := do
  let dst ← destination
  if dst.isView then assign b c (.tensor rhs) false
  else
    let packed ← onMemory (clone b.simd b.heap c rhs)
    moveFrom packed

/-- Copy assignment. -/
def copyAssign (isSelf : Bool) (rhs : TensorImpl T) : Assign T Unit :=
  if isSelf then pure () else assignTensor b c rhs

/-- Move assignment. -/
def moveAssign (isSelf : Bool) (rhs : TensorImpl T) : Assign T Unit := do
  let dst ← destination
  if isSelf then pure ()
  else if dst.isView then assign b c (.tensor rhs) false
  else moveFrom rhs

end Operations

/-- The assignments a program can make to one tensor. -/
inductive AssignCall (T : ElementType) (α : Type)
  /-- `dst = expr` and `assign(expr, unchecked_alias)`. -/
  | assign (src : Source T α) (uncheckedAlias : Bool)
  /-- `dst = value` and `dst.noalias() = value`. -/
  | scalar (value : α)
  /-- `dst.noalias() = expr`. -/
  | noalias (src : Source T α)
  /-- `dst += expr` and the like. -/
  | update (functor : BinaryFunctor α) (src : Source T α)
  /-- `dst.noalias() += expr` and `-=`. -/
  | noaliasUpdate (functor : BinaryFunctor α) (src : Source T α)
  /-- `dst = tensor` of another type. -/
  | tensor (rhs : TensorImpl T)
  /-- `dst = tensor` of the same type. -/
  | copy (isSelf : Bool) (rhs : TensorImpl T)
  | move (isSelf : Bool) (rhs : TensorImpl T)

def AssignCall.perform (b : Build T) (c : Codec α T.size) : AssignCall T α → Assign T Unit
  | assign src uncheckedAlias => Vectorization.assign b c src uncheckedAlias
  | scalar value => assignScalar b c value
  | noalias src => Vectorization.assign b c src true
  | update functor src => assignUpdate b c functor src false
  | noaliasUpdate functor src => assignUpdate b c functor src true
  | tensor rhs => assignTensor b c rhs
  | copy isSelf rhs => copyAssign b c isSelf rhs
  | move isSelf rhs => moveAssign b c isSelf rhs

end Vectorization
