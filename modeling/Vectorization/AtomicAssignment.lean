/-
Failed assignment is atomic.  Every check of every assignment runs before the
first store to the destination, so an exception leaves memory and object as they
were.
-/
import Vectorization.InPlaceAssignment

namespace Vectorization

open ByteMemory AtomicRun

variable {T : ElementType} {α : Type} (b : Build T) (c : Codec α T.size)

theorem checks_destination : Checks (destination : Assign T (TensorImpl T)) :=
  checks_get.bind fun s => checks_pure s.dst

theorem total_store (ops : List (StoreOp StoreKind α)) : Total (store c ops) :=
  total_modify _

theorem total_moveFrom (rhs : TensorImpl T) : Total (moveFrom rhs) :=
  total_modify _

theorem atomic_onMemory {β : Type} {x : EStateM Raise Memory β} (h : Atomic x) :
    Atomic (onMemory x : Assign T β) := by
  intro s e s' hraise
  rw [onMemory] at hraise
  cases hx : x s.memory with
  | ok v m =>
      rw [hx] at hraise
      cases hraise
  | error e' m =>
      rw [hx] at hraise
      cases hraise
      rw [h s.memory e m hx]

/-- Validation, placement, shapes, overlap, the evaluator's checks and the
planner's all come before the stores. -/
theorem assign_atomic (src : Source T α) (uncheckedAlias : Bool) :
    Atomic (assign b c src uncheckedAlias) := by
  refine checks_destination.bind_atomic fun dst => ?_
  refine (checks_raising _).bind_atomic fun _ => ?_
  refine (checks_raising _).bind_atomic fun _ => ?_
  refine (checks_raising _).bind_atomic fun e => ?_
  refine (checks_raising _).bind_atomic fun ref => ?_
  refine (checks_raising _).bind_atomic fun _ => ?_
  exact (checks_raising _).bind_atomic fun ops => (total_store c ops).atomic

theorem assignScalar_atomic (value : α) : Atomic (assignScalar b c value) := by
  refine checks_destination.bind_atomic fun dst => ?_
  refine (checks_raising _).bind_atomic fun _ => ?_
  exact (checks_raising _).bind_atomic fun ops => (total_store c ops).atomic

theorem assignUpdate_atomic (functor : BinaryFunctor α) (src : Source T α)
    (uncheckedAlias : Bool) : Atomic (assignUpdate b c functor src uncheckedAlias) := by
  refine checks_destination.bind_atomic fun dst => ?_
  refine (checks_raising _).bind_atomic fun lhs => ?_
  exact (checks_raising _).bind_atomic fun rhs => assign_atomic b c _ uncheckedAlias

/-- An owner takes over a finished copy. -/
theorem assignTensor_atomic (rhs : TensorImpl T) : Atomic (assignTensor b c rhs) := by
  refine checks_destination.bind_atomic fun dst => ?_
  split
  · exact assign_atomic b c _ false
  · exact (atomic_onMemory (clone_atomic b.simd b.heap c rhs)).bind_total total_moveFrom

theorem copyAssign_atomic (isSelf : Bool) (rhs : TensorImpl T) :
    Atomic (copyAssign b c isSelf rhs) := by
  rw [copyAssign]
  split
  · exact (checks_pure _).atomic
  · exact assignTensor_atomic b c rhs

theorem moveAssign_atomic (isSelf : Bool) (rhs : TensorImpl T) :
    Atomic (moveAssign b c isSelf rhs) := by
  refine checks_destination.bind_atomic fun dst => ?_
  split
  · exact (checks_pure _).atomic
  · split
    · exact assign_atomic b c _ false
    · exact (total_moveFrom rhs).atomic

variable {b c}

/-- A failed assignment changes neither memory nor the destination object,
whatever was assigned and whichever check raised. -/
theorem perform_atomic {call : AssignCall T α} {s s' : AssignState T} {r : Raise}
    (h : call.perform b c s = .error r s') : s' = s := by
  cases call with
  | assign src uncheckedAlias => exact assign_atomic b c src uncheckedAlias s r s' h
  | scalar value => exact assignScalar_atomic b c value s r s' h
  | noalias src => exact assign_atomic b c src true s r s' h
  | update functor src => exact assignUpdate_atomic b c functor src false s r s' h
  | noaliasUpdate functor src => exact assignUpdate_atomic b c functor src true s r s' h
  | tensor rhs => exact assignTensor_atomic b c rhs s r s' h
  | copy isSelf rhs => exact copyAssign_atomic b c isSelf rhs s r s' h
  | move isSelf rhs => exact moveAssign_atomic b c isSelf rhs s r s' h

namespace AtomicAssignmentWitness

open Sample InPlaceAssignmentWitness

/-- The upper two rows of the table, over a vector that starts in its second. -/
def overlapping : AssignState float :=
  ⟨fun _ => 1, TensorImpl.recompute fourLanes
    { table with sizesAndStrides := [⟨2, 4⟩, ⟨4, 1⟩], view := ⟨4104, 10, .cpu, 0⟩ }⟩

def tableSource : Source float (Fin 4 → UInt8) :=
  .expression (.leaf (.ref (cpuRef 4096 [⟨2, 4⟩, ⟨4, 1⟩])))

theorem perform_atomic_overlap : ∃ s',
    (AssignCall.assign tableSource false).perform release (Codec.bytes 4) overlapping =
        .error .partialOverlap s' ∧
      s' = overlapping := by
  obtain ⟨s', hrun⟩ : ∃ s', (AssignCall.assign tableSource false).perform release
      (Codec.bytes 4) overlapping = .error .partialOverlap s' := ⟨_, rfl⟩
  exact ⟨s', hrun, perform_atomic hrun⟩

end AtomicAssignmentWitness

end Vectorization
