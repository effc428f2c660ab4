/-
`reduce_op.h`: the identity, the combination and the transformation of each horizontal
reduction, over a scalar type given by its operations.
-/
import Vectorization.Foundation.Combining

namespace Vectorization

open Combining

/-- What the reductions use of a scalar type; the comparisons are false on a NaN. -/
structure Scalar (T : Type) where
  zero : T
  one : T
  /-- `std::numeric_limits<T>::max()`. -/
  finiteMax : T
  neg : T → T
  add : T → T → T
  mul : T → T → T
  lt : T → T → Bool
  eq : T → T → Bool

/-- `static_cast<T>` of a truth value. -/
def Scalar.ofBool {T : Type} (F : Scalar T) (b : Bool) : T :=
  if b then F.one else F.zero

/-- `std::uint64_t`. -/
def Scalar.uint64 : Scalar UInt64 where
  zero := 0
  one := 1
  finiteMax := 0xffffffffffffffff
  neg a := -a
  add a b := a + b
  mul a b := a * b
  lt a b := decide (a < b)
  eq a b := decide (a = b)

/-- A linearly ordered scalar type with a NaN beside its values. -/
structure Floating (α : Type) [LinearOrder α] where
  zero : α
  one : α
  finiteMax : α
  neg : α → α
  add : Option α → Option α → Option α
  mul : Option α → Option α → Option α

/-- A NaN is unordered, to itself as to every value. -/
def Floating.scalar {α : Type} [LinearOrder α] (F : Floating α) : Scalar (Option α) where
  zero := some F.zero
  one := some F.one
  finiteMax := some F.finiteMax
  neg := Option.map F.neg
  add := F.add
  mul := F.mul
  lt a b :=
    match a, b with
    | some a, some b => decide (a < b)
    | _, _ => false
  eq a b :=
    match a, b with
    | some a, some b => decide (a = b)
    | _, _ => false

inductive ReduceOp
  | sum
  | min
  | max
  | product
  | all
  | any
  | nansum
  | countNonzero
  | countValid
deriving Repr, DecidableEq

namespace ReduceOp

/-- `reduce_is_count`. -/
def isCount : ReduceOp → Bool
  | countNonzero | countValid => true
  | _ => false

/-- `reduce_accumulator_t`. -/
def Accumulator (T : Type) : ReduceOp → Type
  | countNonzero | countValid => UInt64
  | _ => T

/-- The operations of the accumulator. -/
def accumulator {T : Type} (F : Scalar T) : (op : ReduceOp) → Scalar (op.Accumulator T)
  | sum | min | max | product | all | any | nansum => F
  | countNonzero | countValid => Scalar.uint64

end ReduceOp

def reduceTransform {T : Type} (F : Scalar T) : (op : ReduceOp) → T → op.Accumulator T
  | .all, x | .any, x => F.ofBool (!F.eq x F.zero)
  | .countNonzero, x => Scalar.uint64.ofBool (!F.eq x F.zero)
  | .countValid, x => Scalar.uint64.ofBool (F.eq x x)
  | .nansum, x => if F.eq x x then x else F.zero
  | .sum, x | .min, x | .max, x | .product, x => x

def reduceIdentity {ρ : Type} (F : Scalar ρ) : ReduceOp → ρ
  | .product | .all => F.one
  | .min => F.finiteMax
  | .max => F.neg F.finiteMax
  | .sum | .any | .nansum | .countNonzero | .countValid => F.zero

def reduceCombine {ρ : Type} (F : Scalar ρ) : ReduceOp → ρ → ρ → ρ
  | .product, a, b => F.mul a b
  | .all, a, b => F.ofBool (!F.eq a F.zero && !F.eq b F.zero)
  | .any, a, b => F.ofBool (!F.eq a F.zero || !F.eq b F.zero)
  | .min, a, b => if F.lt a b then a else b
  | .max, a, b => if F.lt b a then a else b
  | .sum, a, b | .nansum, a, b | .countNonzero, a, b | .countValid, a, b => F.add a b

/-- The reduction is exact on the accumulator's values in `P`. -/
def ReduceOp.ExactOn {T : Type} (F : Scalar T) (op : ReduceOp)
    (P : op.Accumulator T → Prop) : Prop :=
  Combining.ExactOn (reduceCombine (op.accumulator F) op) (reduceIdentity (op.accumulator F) op)
    P

section Exact

variable {T : Type} {F : Scalar T}

/-- Counters wrap, which is exact modulo `2 ^ 64`. -/
theorem exactOn_counts {op : ReduceOp} (h : op.isCount = true) :
    op.ExactOn F fun _ => True := by
  have hexact : Combining.ExactOn (fun a b : UInt64 => a + b) 0 fun _ => True :=
    { identity_mem := trivial
      combine_mem := fun _ _ => trivial
      assoc := fun _ _ _ => UInt64.add_assoc _ _ _
      comm := fun _ _ => UInt64.add_comm _ _
      identity_combine := fun _ => UInt64.zero_add _ }
  cases op with
  | countNonzero | countValid => exact hexact
  | sum | min | max | product | all | any | nansum => exact nomatch h

variable (hzero : F.eq F.zero F.zero = true) (hone : F.eq F.one F.zero = false)
include hzero hone

theorem ofBool_ne_zero (b : Bool) : (!F.eq (F.ofBool b) F.zero) = b := by
  cases b
  · exact congrArg not hzero
  · exact congrArg not hone

/-- The truth values are the zero and the one of the scalar type. -/
theorem exactOn_all : Combining.ExactOn (reduceCombine F .all) (reduceIdentity F .all)
    fun a => ∃ b, a = F.ofBool b where
  identity_mem := ⟨true, rfl⟩
  combine_mem := fun _ _ => ⟨_, rfl⟩
  assoc := by
    rintro _ _ _ ⟨a, rfl⟩ ⟨b, rfl⟩ ⟨c, rfl⟩
    simp only [reduceCombine, ofBool_ne_zero hzero hone, Bool.and_assoc]
  comm := by
    rintro _ _ ⟨a, rfl⟩ ⟨b, rfl⟩
    simp only [reduceCombine, ofBool_ne_zero hzero hone, Bool.and_comm]
  identity_combine := by
    rintro _ ⟨a, rfl⟩
    have htrue := ofBool_ne_zero hzero hone true
    simp only [Scalar.ofBool, if_true] at htrue
    simp only [reduceIdentity, reduceCombine, htrue,
      ofBool_ne_zero hzero hone, Bool.true_and]

end Exact

section Ordered

variable {α : Type} [LinearOrder α] (F : Floating α)

@[simp] theorem scalar_lt (a b : α) : F.scalar.lt (some a) (some b) = decide (a < b) := rfl

/-- On values the selections are the order's minimum and maximum. -/
theorem reduceCombine_min (a b : α) :
    reduceCombine F.scalar .min (some a) (some b) = some (a ⊓ b) := by
  simp only [reduceCombine, scalar_lt, decide_eq_true_eq]
  split <;> rename_i h
  · rw [min_eq_left h.le]
  · rw [min_eq_right (not_lt.1 h)]

theorem reduceCombine_max (a b : α) :
    reduceCombine F.scalar .max (some a) (some b) = some (a ⊔ b) := by
  simp only [reduceCombine, scalar_lt, decide_eq_true_eq]
  split <;> rename_i h
  · rw [max_eq_left h.le]
  · rw [max_eq_right (not_lt.1 h)]

end Ordered

end Vectorization
