/-
The functors of `expressions_functors.h`.  Each is applied to scalars in the tail of a
loop and to registers in its body, with scalar operands broadcast by hand.  Where predicate
registers are of the type of the others, a functor takes one for the other.
-/
import Mathlib

namespace Vectorization

inductive UnaryFunction
  | neg | fabs | floor | ceil | sqrt | sqr | exp | expm1 | exp2 | log | log1p | log2 | log10
  | sin | cos | tan | asin | acos | atan | sinh | cosh | tanh | asinh | acosh | atanh | cbrt
  | cdf | invCdf | trunc | invsqrt
deriving Repr, DecidableEq

inductive BinaryFunction
  | add | mul | div | sub | max | min | pow | hypot | signcopy
deriving Repr, DecidableEq

inductive Comparison
  | gt | lt | ge | le | eq | neq
deriving Repr, DecidableEq

inductive LogicalFunction
  | land | lor | lxor
deriving Repr, DecidableEq

def LogicalFunction.apply : LogicalFunction → Bool → Bool → Bool
  | land, a, b => a && b
  | lor, a, b => a || b
  | lxor, a, b => a ^^ b

/-- The functions of namespace `std` on a scalar type, each rounding as it does. -/
structure StdMath (V : Type) where
  unary : UnaryFunction → V → V
  binary : BinaryFunction → V → V → V
  compare : Comparison → V → V → Bool
  fma : V → V → V → V
  /-- `!!x`. -/
  truth : V → Bool
  ofBool : Bool → V

/-- `simd<value_t>`: registers are read by lane. -/
structure Simd (V : Type) where
  Mask : Type
  /-- All bits of a predicate lane set, or none. -/
  maskLane : Bool → Mask
  /-- What a predicate lane is taken for. -/
  truth : Mask → Bool
  /-- The bits of a lane, where `mask_t` is `simd_t`. -/
  oneType : Option (V ≃ Mask)
  set : V → Nat → V
  /-- `set` of an `int_t` into a `mask_t` of its own. -/
  setMask : Bool → Nat → Mask
  unary : UnaryFunction → (Nat → V) → Nat → V
  binary : BinaryFunction → (Nat → V) → (Nat → V) → Nat → V
  compare : Comparison → (Nat → V) → (Nat → V) → Nat → Mask
  logical : LogicalFunction → (Nat → Mask) → (Nat → Mask) → Nat → Mask
  lnot : (Nat → Mask) → Nat → Mask
  ifElse : (Nat → Mask) → (Nat → V) → (Nat → V) → Nat → V
  fma : (Nat → V) → (Nat → V) → (Nat → V) → Nat → V

/-- Every function of the registers is the one of the scalars in every lane; predicate lanes
are all ones or all zeros. -/
structure Simd.Faithful {V : Type} (S : Simd V) (std : StdMath V) : Prop where
  truth_ofBool : ∀ b, std.truth (std.ofBool b) = b
  truth_maskLane : ∀ b, S.truth (S.maskLane b) = b
  set_lane : ∀ v lane, S.set v lane = v
  setMask_lane : ∀ b lane, S.setMask b lane = S.maskLane b
  unary_lane : ∀ f a lane, S.unary f a lane = std.unary f (a lane)
  binary_lane : ∀ f a b lane, S.binary f a b lane = std.binary f (a lane) (b lane)
  compare_lane : ∀ f a b lane,
    S.compare f a b lane = S.maskLane (std.compare f (a lane) (b lane))
  logical_lane : ∀ f {a b lane x y}, a lane = S.maskLane x → b lane = S.maskLane y →
    S.logical f a b lane = S.maskLane (f.apply x y)
  lnot_lane : ∀ {a lane x}, a lane = S.maskLane x → S.lnot a lane = S.maskLane (!x)
  ifElse_lane : ∀ {m a b lane x}, m lane = S.maskLane x →
    S.ifElse m a b lane = if x then a lane else b lane
  fma_lane : ∀ a b c lane, S.fma a b c lane = std.fma (a lane) (b lane) (c lane)

/-- An operand or a result of a functor. -/
inductive Value {V : Type} (S : Simd V)
  | number (v : V)
  | boolean (b : Bool)
  | packet (lanes : Nat → V)
  | mask (lanes : Nat → S.Mask)

/-- `is_packet`, for numbers and for predicates. -/
inductive OperandKind
  | scalar
  | packet
  | mask
deriving Repr, DecidableEq

namespace Value

variable {V : Type} {S : Simd V}

def kind : Value S → OperandKind
  | number _ | boolean _ => .scalar
  | packet _ => .packet
  | mask _ => .mask

/-- What the tail has in the place of a lane of the body. -/
def atLane (lane : Nat) : Value S → Value S
  | number v => number v
  | boolean b => boolean b
  | packet lanes => number (lanes lane)
  | mask lanes => boolean (S.truth (lanes lane))

/-- The lanes of a predicate are all ones or all zeros. -/
def Canonical : Value S → Prop
  | mask lanes => ∀ lane, ∃ b, lanes lane = S.maskLane b
  | _ => True

/-- A scalar as a number, to which a truth value converts. -/
def asScalar (std : StdMath V) : Value S → Option V
  | number v => some v
  | boolean b => some (std.ofBool b)
  | packet _ | mask _ => none

/-- A register where `simd_t` is expected. -/
def asPacket : Value S → Option (Nat → V)
  | packet lanes => some lanes
  | mask lanes => S.oneType.map fun bits lane => bits.symm (lanes lane)
  | number _ | boolean _ => none

/-- A register where `mask_t` is expected. -/
def asMask : Value S → Option (Nat → S.Mask)
  | mask lanes => some lanes
  | packet lanes => S.oneType.map fun bits lane => bits (lanes lane)
  | number _ | boolean _ => none

end Value

section Functors

variable {V : Type} (std : StdMath V) (S : Simd V)

open Value

/-- `MACRO_FUNCTION_EVALUATOR`; none where no overload takes the operands, here and
below. -/
def functionFunctor (op : UnaryFunction) (lhs : Value S) : Option (Value S) :=
  match lhs.asScalar std with
  | none => do return packet (S.unary op (← lhs.asPacket))
  | some lhs => some (number (std.unary op lhs))

def lnotFunctor (lhs : Value S) : Option (Value S) :=
  match lhs.asScalar std with
  | none => do return mask (S.lnot (← lhs.asMask))
  | some lhs => some (boolean (!std.truth lhs))

/-- The branches of the macros for two numbers. -/
def ofNumbers (registers : (Nat → V) → (Nat → V) → Value S) (scalars : V → V → Value S)
    (lhs rhs : Value S) : Option (Value S) :=
  match lhs.asScalar std, rhs.asScalar std with
  | none, none => do return registers (← lhs.asPacket) (← rhs.asPacket)
  | some lhs, none => do return registers (S.set lhs) (← rhs.asPacket)
  | none, some rhs => do return registers (← lhs.asPacket) (S.set rhs)
  | some lhs, some rhs => some (scalars lhs rhs)

/-- `MACRO_OPERATION_EVALUATOR`. -/
def operationFunctor (f : BinaryFunction) : Value S → Value S → Option (Value S) :=
  ofNumbers std S (fun lhs rhs => packet (S.binary f lhs rhs))
    fun lhs rhs => number (std.binary f lhs rhs)

/-- `MACRO_OPERATION_EVALUATOR_COMP`. -/
def comparisonFunctor (f : Comparison) : Value S → Value S → Option (Value S) :=
  ofNumbers std S (fun lhs rhs => mask (S.compare f lhs rhs))
    fun lhs rhs => boolean (std.compare f lhs rhs)

def simdBroadcastMask (lhs : V) : Nat → S.Mask :=
  match S.oneType with
  | some bits => fun lane => bits (S.set lhs lane)
  | none => S.setMask (std.truth lhs)

/-- `MACRO_OPERATION_EVALUATOR_MASK`. -/
def maskFunctor (f : LogicalFunction) (lhs rhs : Value S) : Option (Value S) :=
  match lhs.asScalar std, rhs.asScalar std with
  | none, none => do return mask (S.logical f (← lhs.asMask) (← rhs.asMask))
  | some lhs, none => do
      return mask (S.logical f (simdBroadcastMask std S lhs) (← rhs.asMask))
  | none, some rhs => do
      return mask (S.logical f (← lhs.asMask) (simdBroadcastMask std S rhs))
  | some lhs, some rhs => some (boolean (f.apply (std.truth lhs) (std.truth rhs)))

/-- `std::if_else`, whose branches are numbers or are registers of one type. -/
def stdIfElse (lhs : Bool) (mhs rhs : Value S) : Option (Value S) :=
  match mhs.asScalar std, rhs.asScalar std with
  | some mhs, some rhs => some (number (if lhs then mhs else rhs))
  | none, none =>
      if mhs.kind = rhs.kind ∨ S.oneType.isSome then some (if lhs then mhs else rhs) else none
  | _, _ => none

/-- What `simd::if_else` selects from two registers: of predicates, a predicate. -/
def selected (lhs : Nat → S.Mask) : Value S → Value S → Option (Value S)
  | mask mhs, mask rhs => do
      let bits ← S.oneType
      return mask fun lane =>
        bits (S.ifElse lhs (fun lane => bits.symm (mhs lane)) (fun lane => bits.symm (rhs lane))
          lane)
  | mhs, rhs => do return packet (S.ifElse lhs (← mhs.asPacket) (← rhs.asPacket))

/-- `if_else_evaluator`. -/
def ifElseFunctor (lhs mhs rhs : Value S) : Option (Value S) :=
  match lhs.asScalar std with
  | some lhs => stdIfElse std S (std.truth lhs) mhs rhs
  | none => do
      let lhs ← lhs.asMask
      match mhs.asScalar std, rhs.asScalar std with
      | none, none => selected S lhs mhs rhs
      | some mhs, none => return packet (S.ifElse lhs (S.set mhs) (← rhs.asPacket))
      | none, some rhs => return packet (S.ifElse lhs (← mhs.asPacket) (S.set rhs))
      | some mhs, some rhs => return packet (S.ifElse lhs (S.set mhs) (S.set rhs))

/-- `fma_evaluator`. -/
def fmaFunctor (lhs mhs rhs : Value S) : Option (Value S) :=
  match lhs.asScalar std, mhs.asScalar std, rhs.asScalar std with
  | none, none, none => do
      return packet (S.fma (← lhs.asPacket) (← mhs.asPacket) (← rhs.asPacket))
  | none, some mhs, none => do
      return packet (S.fma (← lhs.asPacket) (S.set mhs) (← rhs.asPacket))
  | none, none, some rhs => do
      return packet (S.fma (← lhs.asPacket) (← mhs.asPacket) (S.set rhs))
  | none, some mhs, some rhs => do
      return packet (S.fma (← lhs.asPacket) (S.set mhs) (S.set rhs))
  | some lhs, none, none => do
      return packet (S.fma (S.set lhs) (← mhs.asPacket) (← rhs.asPacket))
  -- The scalars are multiplied first and the product is added to the register.
  | some lhs, some mhs, none => do
      return packet (S.binary .add (S.set (std.binary .mul lhs mhs)) (← rhs.asPacket))
  | some lhs, none, some rhs => do
      return packet (S.fma (S.set lhs) (← mhs.asPacket) (S.set rhs))
  | some lhs, some mhs, some rhs => some (number (std.fma lhs mhs rhs))

end Functors

inductive OperationEvaluator
  | add | mul | div | sub | max | min | pow | hypot | copysign
  /-- The compound assignments. -/
  | madd | msub | mmul | mdiv
deriving Repr, DecidableEq

/-- The function an evaluator is instantiated with. -/
def OperationEvaluator.f : OperationEvaluator → BinaryFunction
  | add | madd => .add
  | mul | mmul => .mul
  | div | mdiv => .div
  | sub | msub => .sub
  | max => .max
  | min => .min
  | pow => .pow
  | hypot => .hypot
  | copysign => .signcopy

inductive ComparisonEvaluator
  | cmpgt | cmplt | cmpge | cmple | cmpeq | cmpne
deriving Repr, DecidableEq

def ComparisonEvaluator.f : ComparisonEvaluator → Comparison
  | cmpgt => .gt
  | cmplt => .lt
  | cmpge => .ge
  | cmple => .le
  | cmpeq => .eq
  | cmpne => .neq

inductive Evaluator
  | function (op : UnaryFunction)
  | lnot
  | operation (op : OperationEvaluator)
  | comparison (op : ComparisonEvaluator)
  | logical (op : LogicalFunction)
  | ifElse
  | fma
deriving Repr, DecidableEq

/-- `functor` of an evaluator on its operands. -/
def Evaluator.functor {V : Type} (std : StdMath V) (S : Simd V) :
    Evaluator → List (Value S) → Option (Value S)
  | function op, [lhs] => functionFunctor std S op lhs
  | lnot, [lhs] => lnotFunctor std S lhs
  | operation op, [lhs, rhs] => operationFunctor std S op.f lhs rhs
  | comparison op, [lhs, rhs] => comparisonFunctor std S op.f lhs rhs
  | logical op, [lhs, rhs] => maskFunctor std S op lhs rhs
  | ifElse, [lhs, mhs, rhs] => ifElseFunctor std S lhs mhs rhs
  | fma, [lhs, mhs, rhs] => fmaFunctor std S lhs mhs rhs
  | _, _ => none

/-- Operands that a functor takes for what they are not, where `mask_t` is `simd_t`: predicates
for numbers, numbers for predicates, and a scalar whose bits are broadcast as a predicate. -/
def Evaluator.misreads : Evaluator → List OperandKind → Bool
  | function _, [lhs] => lhs == .mask
  | lnot, [lhs] => lhs == .packet
  | operation _, [lhs, rhs] | comparison _, [lhs, rhs] => lhs == .mask || rhs == .mask
  | logical _, [lhs, rhs] => lhs == .packet || rhs == .packet || lhs != rhs
  | ifElse, [.packet, _, _] => true
  | ifElse, [.mask, mhs, rhs] => (mhs == .mask) != (rhs == .mask)
  | fma, [lhs, mhs, rhs] => lhs == .mask || mhs == .mask || rhs == .mask
  | _, _ => false

/-- The tail computes the value; a truth value counts as the number it converts to. -/
def Value.Computes {V : Type} {S : Simd V} (std : StdMath V) (tail : Option (Value S))
    (value : Value S) : Prop :=
  ∃ result, tail = some result ∧ result.asScalar std = value.asScalar std

/-- Every lane of the functor on operands of these kinds is the functor on that lane:
whatever the scalar functions round to, an element has one value in the body and in the
tail. -/
def BodyMatchesTail (oneType : Bool) (e : Evaluator) (kinds : List OperandKind) : Prop :=
  ∀ (V : Type) (std : StdMath V) (S : Simd V), S.Faithful std → S.oneType.isSome = oneType →
    ∀ operands : List (Value S), (∀ v ∈ operands, v.Canonical) →
      operands.map Value.kind = kinds → ∀ result, e.functor std S operands = some result →
        ∀ lane, Value.Computes std (e.functor std S (operands.map (Value.atLane lane)))
          (result.atLane lane)

section Lanes

variable {V : Type} {std : StdMath V} {S : Simd V}

/-- The lanes are what the tail has in the place of the operand. -/
def Value.Reads (std : StdMath V) (v : Value S) (lanes : Nat → V) : Prop :=
  ∀ lane, (v.atLane lane).asScalar std = some (lanes lane)

theorem Value.asScalar_atLane {v : Value S} {x : V} (hv : v.asScalar std = some x)
    (lane : Nat) : (v.atLane lane).asScalar std = some x := by
  cases v with
  | number _ | boolean _ => exact hv
  | packet _ | mask _ => cases hv

theorem Value.kind_of_asScalar {v : Value S} {x : V} (hv : v.asScalar std = some x) :
    v.kind = .scalar := by
  cases v with
  | number _ | boolean _ => rfl
  | packet _ | mask _ => cases hv

theorem Value.kind_of_asPacket {v : Value S} {lanes : Nat → V}
    (hkind : S.oneType.isSome → v.kind ≠ .mask) (hv : v.asPacket = some lanes) :
    v.kind = .packet := by
  cases v with
  | number _ | boolean _ => cases hv
  | packet _ => rfl
  | mask l =>
      obtain ⟨bits, hbits, -⟩ := Option.map_eq_some_iff.1 hv
      exact absurd rfl (hkind (Option.isSome_of_eq_some hbits))

variable (std) in
theorem Value.exists_asScalar_atLane (v : Value S) (lane : Nat) :
    ∃ x, (v.atLane lane).asScalar std = some x := by
  cases v <;> exact ⟨_, rfl⟩

/-- A register that is not a predicate taken for numbers. -/
theorem Value.reads_packet {v : Value S} {lanes : Nat → V}
    (hkind : S.oneType.isSome → v.kind ≠ .mask) (hv : v.asPacket = some lanes) :
    v.Reads std lanes := by
  have hpacket := kind_of_asPacket hkind hv
  cases v with
  | number _ | boolean _ | mask _ => cases hpacket
  | packet l =>
      cases hv
      exact fun _ => rfl

/-- A predicate register that is not numbers taken for a predicate. -/
theorem Value.reads_mask {v : Value S} {lanes : Nat → S.Mask}
    (hkind : S.oneType.isSome → v.kind ≠ .packet) (hcanonical : v.Canonical)
    (hmask : ∀ b, S.truth (S.maskLane b) = b) (hv : v.asMask = some lanes) (lane : Nat) :
    ∃ b, lanes lane = S.maskLane b ∧
      (v.atLane lane).asScalar std = some (std.ofBool b) := by
  cases v with
  | number _ | boolean _ => cases hv
  | packet l =>
      obtain ⟨bits, hbits, -⟩ := Option.map_eq_some_iff.1 hv
      exact absurd rfl (hkind (Option.isSome_of_eq_some hbits))
  | mask l =>
      cases hv
      obtain ⟨b, hb⟩ := hcanonical lane
      refine ⟨b, hb, ?_⟩
      rw [atLane, asScalar, hb, hmask]

theorem Value.Computes.of_eq {tail : Option (Value S)} {result value : Value S}
    (htail : tail = some result) (hsame : result.asScalar std = value.asScalar std) :
    Value.Computes std tail value :=
  ⟨result, htail, hsame⟩

variable (h : S.Faithful std)
include h

theorem Value.reads_set {v : Value S} {x : V} (hv : v.asScalar std = some x) :
    v.Reads std (S.set x) := by
  intro lane
  rw [asScalar_atLane hv, h.set_lane]

theorem functionFunctor_lane (op : UnaryFunction) {lhs result : Value S}
    (hkind : S.oneType.isSome → lhs.kind ≠ .mask)
    (hresult : functionFunctor std S op lhs = some result) (lane : Nat) :
    Value.Computes std (functionFunctor std S op (lhs.atLane lane)) (result.atLane lane) := by
  rw [functionFunctor] at hresult
  split at hresult <;> rename_i hlhs
  · obtain ⟨lanes, hlanes, hresult⟩ := Option.bind_eq_some_iff.1 hresult
    cases hresult
    refine .of_eq (by rw [functionFunctor, Value.reads_packet hkind hlanes lane]) ?_
    simp only [Value.atLane, Value.asScalar, h.unary_lane]
  · cases hresult
    exact .of_eq (by rw [functionFunctor, Value.asScalar_atLane hlhs]; rfl) rfl

theorem lnotFunctor_lane {lhs result : Value S}
    (hkind : S.oneType.isSome → lhs.kind ≠ .packet) (hcanonical : lhs.Canonical)
    (hresult : lnotFunctor std S lhs = some result) (lane : Nat) :
    Value.Computes std (lnotFunctor std S (lhs.atLane lane)) (result.atLane lane) := by
  rw [lnotFunctor] at hresult
  split at hresult <;> rename_i hlhs
  · obtain ⟨lanes, hlanes, hresult⟩ := Option.bind_eq_some_iff.1 hresult
    cases hresult
    obtain ⟨b, hb, hread⟩ := Value.reads_mask hkind hcanonical h.truth_maskLane hlanes lane
    refine .of_eq (by rw [lnotFunctor, hread]) ?_
    simp only [Value.atLane, Value.asScalar, h.lnot_lane hb, h.truth_maskLane, h.truth_ofBool]
  · cases hresult
    exact .of_eq (by rw [lnotFunctor, Value.asScalar_atLane hlhs]; rfl) rfl

/-- Both macros for two numbers. -/
theorem ofNumbers_lane {registers : (Nat → V) → (Nat → V) → Value S}
    {scalars : V → V → Value S} {lhs rhs result : Value S}
    (hregisters : ∀ p q lane, (scalars (p lane) (q lane)).asScalar std =
      ((registers p q).atLane lane).asScalar std)
    (hscalars : ∀ x y lane, ((scalars x y).atLane lane) = scalars x y)
    (hl : S.oneType.isSome → lhs.kind ≠ .mask) (hr : S.oneType.isSome → rhs.kind ≠ .mask)
    (hresult : ofNumbers std S registers scalars lhs rhs = some result) (lane : Nat) :
    Value.Computes std (ofNumbers std S registers scalars (lhs.atLane lane) (rhs.atLane lane))
      (result.atLane lane) := by
  have hboth : ∀ {p q}, lhs.Reads std p → rhs.Reads std q → result = registers p q →
      Value.Computes std (ofNumbers std S registers scalars (lhs.atLane lane)
        (rhs.atLane lane)) (result.atLane lane) := by
    rintro p q hp hq rfl
    exact .of_eq (by rw [ofNumbers, hp lane, hq lane]) (hregisters p q lane)
  rw [ofNumbers] at hresult
  split at hresult
  case h_1 hlhs hrhs =>
      obtain ⟨p, hp, hresult⟩ := Option.bind_eq_some_iff.1 hresult
      obtain ⟨q, hq, hresult⟩ := Option.bind_eq_some_iff.1 hresult
      cases hresult
      exact hboth (Value.reads_packet hl hp) (Value.reads_packet hr hq) rfl
  case h_2 x hlhs hrhs =>
      obtain ⟨q, hq, hresult⟩ := Option.bind_eq_some_iff.1 hresult
      cases hresult
      exact hboth (Value.reads_set h hlhs) (Value.reads_packet hr hq) rfl
  case h_3 y hlhs hrhs =>
      obtain ⟨p, hp, hresult⟩ := Option.bind_eq_some_iff.1 hresult
      cases hresult
      exact hboth (Value.reads_packet hl hp) (Value.reads_set h hrhs) rfl
  case h_4 x y hlhs hrhs =>
      cases hresult
      rw [hscalars]
      exact .of_eq (by rw [ofNumbers, Value.asScalar_atLane hlhs, Value.asScalar_atLane hrhs]) rfl

/-- A scalar that is broadcast into a predicate type of its own. -/
theorem simdBroadcastMask_lane (hone : S.oneType = none) (v : V) (lane : Nat) :
    simdBroadcastMask std S v lane = S.maskLane (std.truth v) := by
  rw [simdBroadcastMask, hone]
  exact h.setMask_lane _ _

theorem maskFunctor_lane (f : LogicalFunction) {lhs rhs result : Value S}
    (hl : S.oneType.isSome → lhs.kind ≠ .packet) (hr : S.oneType.isSome → rhs.kind ≠ .packet)
    (hkinds : S.oneType.isSome → lhs.kind = rhs.kind)
    (hlc : lhs.Canonical) (hrc : rhs.Canonical)
    (hresult : maskFunctor std S f lhs rhs = some result) (lane : Nat) :
    Value.Computes std (maskFunctor std S f (lhs.atLane lane) (rhs.atLane lane))
      (result.atLane lane) := by
  have hboth : ∀ {p q x y}, p lane = S.maskLane (std.truth x) →
      (lhs.atLane lane).asScalar std = some x → q lane = S.maskLane (std.truth y) →
      (rhs.atLane lane).asScalar std = some y → result = .mask (S.logical f p q) →
      Value.Computes std (maskFunctor std S f (lhs.atLane lane) (rhs.atLane lane))
        (result.atLane lane) := by
    rintro p q x y hp hx hq hy rfl
    refine .of_eq (by rw [maskFunctor, hx, hy]) ?_
    simp only [Value.atLane, Value.asScalar, h.logical_lane f hp hq, h.truth_maskLane]
  have hmask : ∀ {v : Value S} {p}, (S.oneType.isSome → v.kind ≠ .packet) → v.Canonical →
      v.asMask = some p → ∃ x, p lane = S.maskLane (std.truth x) ∧
        (v.atLane lane).asScalar std = some x := by
    intro v p hv hvc hp
    obtain ⟨b, hb, hread⟩ := Value.reads_mask hv hvc h.truth_maskLane hp lane
    exact ⟨_, by rw [hb, h.truth_ofBool], hread⟩
  -- a scalar is broadcast as a truth value where its bits are not broadcast
  have hscalar : ∀ {v w : Value S} {x : V}, (S.oneType.isSome → v.kind = w.kind) →
      v.asScalar std = some x → w.asScalar std = none →
      simdBroadcastMask std S x lane = S.maskLane (std.truth x) := by
    intro v w x hvw hv hw
    apply simdBroadcastMask_lane h
    rw [← Option.not_isSome_iff_eq_none]
    intro hone
    have hkind := hvw hone
    cases v <;> cases w <;> cases hv <;> cases hw <;> cases hkind
  rw [maskFunctor] at hresult
  split at hresult
  case h_1 hlhs hrhs =>
      obtain ⟨p, hp, hresult⟩ := Option.bind_eq_some_iff.1 hresult
      obtain ⟨q, hq, hresult⟩ := Option.bind_eq_some_iff.1 hresult
      cases hresult
      obtain ⟨x, hpx, hx⟩ := hmask hl hlc hp
      obtain ⟨y, hqy, hy⟩ := hmask hr hrc hq
      exact hboth hpx hx hqy hy rfl
  case h_2 x hlhs hrhs =>
      obtain ⟨q, hq, hresult⟩ := Option.bind_eq_some_iff.1 hresult
      cases hresult
      obtain ⟨y, hqy, hy⟩ := hmask hr hrc hq
      exact hboth (hscalar hkinds hlhs hrhs) (Value.asScalar_atLane hlhs lane) hqy hy rfl
  case h_3 y hlhs hrhs =>
      obtain ⟨p, hp, hresult⟩ := Option.bind_eq_some_iff.1 hresult
      cases hresult
      obtain ⟨x, hpx, hx⟩ := hmask hl hlc hp
      exact hboth hpx hx (hscalar (fun hone => (hkinds hone).symm) hrhs hlhs)
        (Value.asScalar_atLane hrhs lane) rfl
  case h_4 x y hlhs hrhs =>
      cases hresult
      exact .of_eq (by
        rw [maskFunctor, Value.asScalar_atLane hlhs, Value.asScalar_atLane hrhs]; rfl) rfl

omit h in
theorem stdIfElse_lane (lhs : Bool) {mhs rhs result : Value S}
    (hresult : stdIfElse std S lhs mhs rhs = some result) (lane : Nat) :
    Value.Computes std (stdIfElse std S lhs (mhs.atLane lane) (rhs.atLane lane))
      (result.atLane lane) := by
  obtain ⟨x, hx⟩ := mhs.exists_asScalar_atLane std lane
  obtain ⟨y, hy⟩ := rhs.exists_asScalar_atLane std lane
  refine .of_eq (by rw [stdIfElse, hx, hy]) ?_
  rw [stdIfElse] at hresult
  split at hresult
  case h_1 x' y' hmhs hrhs =>
      cases hresult
      rw [Value.asScalar_atLane hmhs] at hx
      rw [Value.asScalar_atLane hrhs] at hy
      cases hx
      cases hy
      cases lhs <;> rfl
  case h_2 =>
      split at hresult
      · cases hresult
        cases lhs
        · exact hy.symm
        · exact hx.symm
      · cases hresult
  case h_3 => cases hresult

/-- A selection between two registers. -/
theorem selected_lane {lhs : Nat → S.Mask} {mhs rhs result : Value S} {b : Bool} {lane : Nat}
    (hlhs : lhs lane = S.maskLane b)
    (hkinds : S.oneType.isSome → (mhs.kind = .mask ↔ rhs.kind = .mask))
    (hresult : selected S lhs mhs rhs = some result) :
    ∃ x y, (mhs.atLane lane).asScalar std = some x ∧ (rhs.atLane lane).asScalar std = some y ∧
      (result.atLane lane).asScalar std = some (if b then x else y) := by
  obtain ⟨x, hx⟩ := mhs.exists_asScalar_atLane std lane
  obtain ⟨y, hy⟩ := rhs.exists_asScalar_atLane std lane
  refine ⟨x, y, hx, hy, ?_⟩
  unfold selected at hresult
  split at hresult
  case h_1 p q =>
      obtain ⟨bits, -, hresult⟩ := Option.bind_eq_some_iff.1 hresult
      cases hresult
      cases hx
      cases hy
      simp only [Value.atLane, Value.asScalar, h.ifElse_lane hlhs]
      cases b <;> simp
  case h_2 hne =>
      obtain ⟨p, hp, hresult⟩ := Option.bind_eq_some_iff.1 hresult
      obtain ⟨q, hq, hresult⟩ := Option.bind_eq_some_iff.1 hresult
      cases hresult
      have hnumber : S.oneType.isSome → mhs.kind ≠ .mask ∧ rhs.kind ≠ .mask := by
        intro hone
        have hboth : ¬ (mhs.kind = .mask ∧ rhs.kind = .mask) := by
          rintro ⟨hm, hr⟩
          cases mhs <;> cases hm
          cases rhs <;> cases hr
          exact hne _ _ rfl rfl
        have hiff := hkinds hone
        exact ⟨fun hm => hboth ⟨hm, hiff.1 hm⟩, fun hr => hboth ⟨hiff.2 hr, hr⟩⟩
      rw [Value.reads_packet (fun hone => (hnumber hone).1) hp lane] at hx
      rw [Value.reads_packet (fun hone => (hnumber hone).2) hq lane] at hy
      cases hx
      cases hy
      simp only [Value.atLane, Value.asScalar, h.ifElse_lane hlhs]

theorem ifElseFunctor_lane {lhs mhs rhs result : Value S}
    (hl : S.oneType.isSome → lhs.kind ≠ .packet) (hlc : lhs.Canonical)
    (hkinds : S.oneType.isSome → lhs.kind = .mask → (mhs.kind = .mask ↔ rhs.kind = .mask))
    (hresult : ifElseFunctor std S lhs mhs rhs = some result) (lane : Nat) :
    Value.Computes std (ifElseFunctor std S (lhs.atLane lane) (mhs.atLane lane)
      (rhs.atLane lane)) (result.atLane lane) := by
  rw [ifElseFunctor] at hresult
  split at hresult <;> rename_i hlhs
  · obtain ⟨x, hx, hsame⟩ := stdIfElse_lane _ hresult lane
    refine ⟨x, ?_, hsame⟩
    rw [ifElseFunctor, Value.asScalar_atLane hlhs]
    exact hx
  obtain ⟨p, hp, hresult⟩ := Option.bind_eq_some_iff.1 hresult
  obtain ⟨b, hb, hread⟩ := Value.reads_mask hl hlc h.truth_maskLane hp lane
  have hmask : S.oneType.isSome → lhs.kind = .mask := by
    intro hone
    have hkind := hl hone
    cases lhs with
    | number _ | boolean _ => cases hlhs
    | packet _ => exact absurd rfl hkind
    | mask _ => rfl
  have hselect : ∀ {x y}, (mhs.atLane lane).asScalar std = some x →
      (rhs.atLane lane).asScalar std = some y →
      (result.atLane lane).asScalar std = some (if b then x else y) →
      Value.Computes std (ifElseFunctor std S (lhs.atLane lane) (mhs.atLane lane)
        (rhs.atLane lane)) (result.atLane lane) := by
    intro x y hx hy hvalue
    have hstd : stdIfElse std S (std.truth (std.ofBool b)) (mhs.atLane lane)
        (rhs.atLane lane) = some (.number (if std.truth (std.ofBool b) then x else y)) := by
      simp only [stdIfElse, hx, hy]
    refine .of_eq (by rw [ifElseFunctor, hread]; exact hstd) ?_
    rw [hvalue, h.truth_ofBool]
    rfl
  have hregisters : ∀ {q r}, mhs.Reads std q → rhs.Reads std r →
      result = .packet (S.ifElse p q r) →
      Value.Computes std (ifElseFunctor std S (lhs.atLane lane) (mhs.atLane lane)
        (rhs.atLane lane)) (result.atLane lane) := by
    rintro q r hq hr rfl
    apply hselect (hq lane) (hr lane)
    simp only [Value.atLane, Value.asScalar, h.ifElse_lane hb]
  split at hresult
  case h_1 hmhs hrhs =>
      obtain ⟨x, y, hx, hy, hvalue⟩ := selected_lane h hb
        (fun hone => hkinds hone (hmask hone)) hresult
      exact hselect hx hy hvalue
  case h_2 x hmhs hrhs =>
      obtain ⟨r, hr, hresult⟩ := Option.bind_eq_some_iff.1 hresult
      cases hresult
      have hkind : S.oneType.isSome → rhs.kind ≠ .mask := by
        intro hone hkind
        have hm := (hkinds hone (hmask hone)).2 hkind
        cases mhs <;> cases hm
        cases hmhs
      exact hregisters (Value.reads_set h hmhs) (Value.reads_packet hkind hr) rfl
  case h_3 y hmhs hrhs =>
      obtain ⟨q, hq, hresult⟩ := Option.bind_eq_some_iff.1 hresult
      cases hresult
      have hkind : S.oneType.isSome → mhs.kind ≠ .mask := by
        intro hone hkind
        have hr := (hkinds hone (hmask hone)).1 hkind
        cases rhs <;> cases hr
        cases hrhs
      exact hregisters (Value.reads_packet hkind hq) (Value.reads_set h hrhs) rfl
  case h_4 x y hmhs hrhs =>
      cases hresult
      exact hregisters (Value.reads_set h hmhs) (Value.reads_set h hrhs) rfl

/-- All but the pre-multiplied operands are fused in the body as they are in the
tail. -/
theorem fmaFunctor_lane {lhs mhs rhs result : Value S}
    (hl : S.oneType.isSome → lhs.kind ≠ .mask) (hm : S.oneType.isSome → mhs.kind ≠ .mask)
    (hr : S.oneType.isSome → rhs.kind ≠ .mask)
    (hkinds : [lhs.kind, mhs.kind, rhs.kind] ≠ [.scalar, .scalar, .packet])
    (hresult : fmaFunctor std S lhs mhs rhs = some result) (lane : Nat) :
    Value.Computes std (fmaFunctor std S (lhs.atLane lane) (mhs.atLane lane)
      (rhs.atLane lane)) (result.atLane lane) := by
  have hall : ∀ {p q r}, lhs.Reads std p → mhs.Reads std q → rhs.Reads std r →
      result = .packet (S.fma p q r) →
      Value.Computes std (fmaFunctor std S (lhs.atLane lane) (mhs.atLane lane)
        (rhs.atLane lane)) (result.atLane lane) := by
    rintro p q r hp hq hr rfl
    refine .of_eq (by rw [fmaFunctor, hp lane, hq lane, hr lane]) ?_
    simp only [Value.atLane, Value.asScalar, h.fma_lane]
  have hpacket : ∀ {v : Value S} {p}, (S.oneType.isSome → v.kind ≠ .mask) →
      v.asPacket = some p → v.Reads std p := fun hv hp => Value.reads_packet hv hp
  have hset : ∀ {v : Value S} {x}, v.asScalar std = some x → v.Reads std (S.set x) :=
    fun hv => Value.reads_set h hv
  rw [fmaFunctor] at hresult
  split at hresult
  case h_1 hlhs hmhs hrhs =>
      obtain ⟨p, hp, hresult⟩ := Option.bind_eq_some_iff.1 hresult
      obtain ⟨q, hq, hresult⟩ := Option.bind_eq_some_iff.1 hresult
      obtain ⟨r, hr', hresult⟩ := Option.bind_eq_some_iff.1 hresult
      cases hresult
      exact hall (hpacket hl hp) (hpacket hm hq) (hpacket hr hr') rfl
  case h_2 y hlhs hmhs hrhs =>
      obtain ⟨p, hp, hresult⟩ := Option.bind_eq_some_iff.1 hresult
      obtain ⟨r, hr', hresult⟩ := Option.bind_eq_some_iff.1 hresult
      cases hresult
      exact hall (hpacket hl hp) (hset hmhs) (hpacket hr hr') rfl
  case h_3 z hlhs hmhs hrhs =>
      obtain ⟨p, hp, hresult⟩ := Option.bind_eq_some_iff.1 hresult
      obtain ⟨q, hq, hresult⟩ := Option.bind_eq_some_iff.1 hresult
      cases hresult
      exact hall (hpacket hl hp) (hpacket hm hq) (hset hrhs) rfl
  case h_4 y z hlhs hmhs hrhs =>
      obtain ⟨p, hp, hresult⟩ := Option.bind_eq_some_iff.1 hresult
      cases hresult
      exact hall (hpacket hl hp) (hset hmhs) (hset hrhs) rfl
  case h_5 x hlhs hmhs hrhs =>
      obtain ⟨q, hq, hresult⟩ := Option.bind_eq_some_iff.1 hresult
      obtain ⟨r, hr', hresult⟩ := Option.bind_eq_some_iff.1 hresult
      cases hresult
      exact hall (hset hlhs) (hpacket hm hq) (hpacket hr hr') rfl
  case h_6 x y hlhs hmhs hrhs =>
      obtain ⟨r, hr', -⟩ := Option.bind_eq_some_iff.1 hresult
      rw [Value.kind_of_asScalar hlhs, Value.kind_of_asScalar hmhs,
        Value.kind_of_asPacket hr hr'] at hkinds
      exact absurd rfl hkinds
  case h_7 x z hlhs hmhs hrhs =>
      obtain ⟨q, hq, hresult⟩ := Option.bind_eq_some_iff.1 hresult
      cases hresult
      exact hall (hset hlhs) (hpacket hm hq) (hset hrhs) rfl
  case h_8 x y z hlhs hmhs hrhs =>
      cases hresult
      exact .of_eq (by
        rw [fmaFunctor, Value.asScalar_atLane hlhs, Value.asScalar_atLane hmhs,
          Value.asScalar_atLane hrhs]; rfl) rfl

end Lanes

/-- Outside the two kinds of defects the body computes what the tail does. -/
theorem bodyMatchesTail_of {oneType : Bool} {e : Evaluator} {kinds : List OperandKind}
    (hmix : ¬ (e = .fma ∧ kinds = [.scalar, .scalar, .packet]))
    (hreads : oneType = true → e.misreads kinds = false) : BodyMatchesTail oneType e kinds := by
  rintro V std S h rfl operands hcanonical rfl result hresult lane
  match e, operands, hcanonical, hmix, hreads, hresult with
  | .function op, [lhs], _, _, hreads, hresult =>
      exact functionFunctor_lane h op (fun hone => by simpa [Evaluator.misreads] using hreads hone)
        hresult lane
  | .lnot, [lhs], hcanonical, _, hreads, hresult =>
      exact lnotFunctor_lane h (fun hone => by simpa [Evaluator.misreads] using hreads hone)
        (hcanonical lhs (by simp)) hresult lane
  | .operation op, [lhs, rhs], _, _, hreads, hresult =>
      have hkinds (hone : S.oneType.isSome = true) : lhs.kind ≠ .mask ∧ rhs.kind ≠ .mask := by
        simpa [Evaluator.misreads] using hreads hone
      refine ofNumbers_lane h (fun p q lane => ?_) (fun _ _ _ => rfl)
        (fun hone => (hkinds hone).1) (fun hone => (hkinds hone).2) hresult lane
      simp only [Value.atLane, Value.asScalar, h.binary_lane]
  | .comparison op, [lhs, rhs], _, _, hreads, hresult =>
      have hkinds (hone : S.oneType.isSome = true) : lhs.kind ≠ .mask ∧ rhs.kind ≠ .mask := by
        simpa [Evaluator.misreads] using hreads hone
      refine ofNumbers_lane h (fun p q lane => ?_) (fun _ _ _ => rfl)
        (fun hone => (hkinds hone).1) (fun hone => (hkinds hone).2) hresult lane
      simp only [Value.atLane, Value.asScalar, h.compare_lane, h.truth_maskLane]
  | .logical op, [lhs, rhs], hcanonical, _, hreads, hresult =>
      have hkinds (hone : S.oneType.isSome = true) :
          (lhs.kind ≠ .packet ∧ rhs.kind ≠ .packet) ∧ lhs.kind = rhs.kind := by
        simpa [Evaluator.misreads] using hreads hone
      exact maskFunctor_lane h op (fun hone => (hkinds hone).1.1) (fun hone => (hkinds hone).1.2)
        (fun hone => (hkinds hone).2) (hcanonical lhs (by simp)) (hcanonical rhs (by simp))
        hresult lane
  | .ifElse, [lhs, mhs, rhs], hcanonical, _, hreads, hresult =>
      have hl : S.oneType.isSome → lhs.kind ≠ .packet := by
        intro hone hkind
        have hread : Evaluator.misreads .ifElse [lhs.kind, mhs.kind, rhs.kind] = false :=
          hreads hone
        rw [hkind] at hread
        cases hread
      have hkinds : S.oneType.isSome → lhs.kind = .mask →
          (mhs.kind = .mask ↔ rhs.kind = .mask) := by
        intro hone hkind
        have hread : Evaluator.misreads .ifElse [lhs.kind, mhs.kind, rhs.kind] = false :=
          hreads hone
        rw [hkind] at hread
        have hsame : (mhs.kind == .mask) = (rhs.kind == .mask) := bne_eq_false_iff_eq.1 hread
        constructor <;> intro hmask <;> simpa [hmask] using hsame
      exact ifElseFunctor_lane h hl (hcanonical lhs (by simp)) hkinds hresult lane
  | .fma, [lhs, mhs, rhs], _, hmix, hreads, hresult =>
      have hkinds (hone : S.oneType.isSome = true) :
          (lhs.kind ≠ .mask ∧ mhs.kind ≠ .mask) ∧ rhs.kind ≠ .mask := by
        simpa [Evaluator.misreads] using hreads hone
      exact fmaFunctor_lane h (fun hone => (hkinds hone).1.1) (fun hone => (hkinds hone).1.2)
        (fun hone => (hkinds hone).2) (fun hkinds => hmix ⟨rfl, hkinds⟩) hresult lane

/-- Registers that apply the scalar functions lane by lane, with predicates of their own. -/
def StdMath.lanewise {V : Type} (std : StdMath V) : Simd V where
  Mask := Bool
  maskLane b := b
  truth b := b
  oneType := none
  set v _ := v
  setMask b _ := b
  unary f a lane := std.unary f (a lane)
  binary f a b lane := std.binary f (a lane) (b lane)
  compare f a b lane := std.compare f (a lane) (b lane)
  logical f a b lane := f.apply (a lane) (b lane)
  lnot a lane := !a lane
  ifElse m a b lane := if m lane then a lane else b lane
  fma a b c lane := std.fma (a lane) (b lane) (c lane)

theorem StdMath.lanewise_faithful {V : Type} {std : StdMath V}
    (h : ∀ b, std.truth (std.ofBool b) = b) : std.lanewise.Faithful std where
  truth_ofBool := h
  truth_maskLane _ := rfl
  set_lane _ _ := rfl
  setMask_lane _ _ := rfl
  unary_lane _ _ _ := rfl
  binary_lane _ _ _ _ := rfl
  compare_lane _ _ _ _ := rfl
  logical_lane f _ _ _ _ _ ha hb := congrArg₂ f.apply ha hb
  lnot_lane ha := congrArg not ha
  ifElse_lane {_ a b lane _} hm := congrArg (fun c : Bool => if c then a lane else b lane) hm
  fma_lane _ _ _ _ := rfl

/-- Sums in place of functions; a comparison holds where a number has all bits set. -/
def sumMath : StdMath (BitVec 8) where
  unary _ a := a
  binary _ a b := a + b
  compare _ a b := a == 255 || b == 255
  fma a b c := a + b + c + 1
  truth a := a != 0
  ofBool b := if b then 1 else 0

/-- The logical function on all bits. -/
def LogicalFunction.bits : LogicalFunction → BitVec 8 → BitVec 8 → BitVec 8
  | land => (· &&& ·)
  | lor => (· ||| ·)
  | lxor => (· ^^^ ·)

/-- The same in registers whose predicates are numbers, too: a lane with its sign bit set is
true. -/
def bitwise : Simd (BitVec 8) where
  Mask := BitVec 8
  maskLane b := if b then .allOnes 8 else 0
  truth a := a.msb
  oneType := some (.refl _)
  set v _ := v
  setMask b _ := if b then .allOnes 8 else 0
  unary _ a := a
  binary _ a b lane := a lane + b lane
  compare _ a b lane := if a lane == 255 || b lane == 255 then .allOnes 8 else 0
  logical f a b lane := f.bits (a lane) (b lane)
  lnot a lane := ~~~(a lane)
  ifElse m a b lane := if (m lane).msb then a lane else b lane
  fma a b c lane := a lane + b lane + c lane + 1

theorem bitwise_faithful : bitwise.Faithful sumMath where
  truth_ofBool := by decide
  truth_maskLane := by decide
  set_lane _ _ := rfl
  setMask_lane _ _ := rfl
  unary_lane _ _ _ := rfl
  binary_lane _ _ _ _ := rfl
  compare_lane _ _ _ _ := rfl
  logical_lane f _ _ _ x y ha hb := by
    refine (congrArg₂ f.bits ha hb).trans ?_
    cases f <;> cases x <;> cases y <;> rfl
  lnot_lane {_ _ x} ha := by
    refine (congrArg (fun a : BitVec 8 => ~~~a) ha).trans ?_
    cases x <;> rfl
  ifElse_lane {_ a b lane x} hm := by
    cases x <;> exact congrArg (fun c : BitVec 8 => if c.msb then a lane else b lane) hm
  fma_lane _ _ _ _ := rfl

/-- Agreement on two scalars and a register needs the fused function to be the rounded
product and sum. -/
theorem fma_eq_of_bodyMatchesTail {oneType : Bool} {V : Type} {std : StdMath V} {S : Simd V}
    (h : BodyMatchesTail oneType .fma [.scalar, .scalar, .packet]) (hS : S.Faithful std)
    (hone : S.oneType.isSome = oneType) (a b c : V) :
    std.fma a b c = std.binary .add (std.binary .mul a b) c := by
  have hcanonical : ∀ v ∈ [Value.number a, .number b, .packet fun _ => c],
      Value.Canonical (S := S) v := by simp [Value.Canonical]
  obtain ⟨_, hvalue, hsame⟩ := h V std S hS hone [.number a, .number b, .packet fun _ => c]
    hcanonical rfl _ rfl 0
  cases hvalue
  refine (Option.some.inj hsame).trans ?_
  rw [hS.binary_lane, hS.set_lane]

/-- An operand of a kind that is the same in every lane. -/
def Value.uniform (v : BitVec 8) (b : Bool) : OperandKind → Value bitwise
  | .scalar => .number v
  | .packet => .packet fun _ => v
  | .mask => .mask fun _ => bitwise.maskLane b

theorem BodyMatchesTail.uniform {e : Evaluator}
    (operands : List (BitVec 8 × Bool × OperandKind))
    (h : BodyMatchesTail true e (operands.map fun o => o.2.2)) (result : Value bitwise)
    (hresult : e.functor sumMath bitwise
      (operands.map fun o => Value.uniform o.1 o.2.1 o.2.2) = some result) :
    Value.Computes sumMath (e.functor sumMath bitwise ((operands.map fun o =>
      Value.uniform o.1 o.2.1 o.2.2).map (Value.atLane 0))) (result.atLane 0) := by
  refine h _ sumMath bitwise bitwise_faithful rfl _ ?_ ?_ result hresult 0
  · intro v hv
    obtain ⟨⟨x, b, kind⟩, -, rfl⟩ := List.mem_map.1 hv
    cases kind with
    | scalar | packet => trivial
    | mask => exact fun _ => ⟨b, rfl⟩
  · rw [List.map_map]
    apply List.map_congr_left
    rintro ⟨x, b, kind⟩ -
    cases kind <;> rfl

/-- An operand on which the function depends on the other. -/
def LogicalFunction.sensitive : LogicalFunction → Bool
  | land => true
  | lor | lxor => false

/-- A functor that takes an operand for what it is not computes something else. -/
theorem not_bodyMatchesTail_misreads {e : Evaluator} {kinds : List OperandKind}
    (hmis : e.misreads kinds = true) : ¬ BodyMatchesTail true e kinds := by
  have hclash : ∀ {a b : BitVec 8}, some a = some b → a ≠ b → False := by
    rintro a b hsame hne
    exact hne (Option.some.inj hsame)
  intro h
  match e, kinds, hmis, h with
  | .function op, [lhs], hmis, h =>
      have hcomputes := BodyMatchesTail.uniform [(0, true, lhs)] h
      cases lhs <;> first
        | exact (Bool.false_ne_true hmis).elim
        | obtain ⟨_, hvalue, hsame⟩ := hcomputes _ rfl
          cases hvalue
          exact hclash (a := 1) (b := 255) hsame (by decide)
  | .lnot, [lhs], hmis, h =>
      have hcomputes := BodyMatchesTail.uniform [(2, true, lhs)] h
      cases lhs <;> first
        | exact (Bool.false_ne_true hmis).elim
        | obtain ⟨_, hvalue, hsame⟩ := hcomputes _ rfl
          cases hvalue
          exact hclash (a := 0) (b := 1) hsame (by decide)
  | .operation op, [lhs, rhs], hmis, h =>
      have hcomputes := BodyMatchesTail.uniform [(0, true, lhs), (0, true, rhs)] h
      cases lhs <;> cases rhs <;> first
        | exact (Bool.false_ne_true hmis).elim
        | obtain ⟨_, hvalue, hsame⟩ := hcomputes _ rfl
          cases hvalue
          first
          | exact hclash (a := 1) (b := 255) hsame (by decide)
          | exact hclash (a := 2) (b := 254) hsame (by decide)
  | .comparison op, [lhs, rhs], hmis, h =>
      have hcomputes := BodyMatchesTail.uniform [(0, true, lhs), (0, true, rhs)] h
      cases lhs <;> cases rhs <;> first
        | exact (Bool.false_ne_true hmis).elim
        | obtain ⟨_, hvalue, hsame⟩ := hcomputes _ rfl
          cases hvalue
          cases op <;> exact absurd hsame (by decide)
  | .logical op, [lhs, rhs], hmis, h =>
      -- the bits of 2 are those of a false lane, and 2 is a true number
      by_cases hlhs : lhs = .mask
      · subst hlhs
        have hcomputes := BodyMatchesTail.uniform
          [(0, op.sensitive, .mask), (2, true, rhs)] h
        cases op <;> cases rhs <;> first
          | exact (Bool.false_ne_true hmis).elim
          | obtain ⟨_, hvalue, hsame⟩ := hcomputes _ rfl
            cases hvalue
            exact absurd hsame (by decide)
      · have hcomputes := BodyMatchesTail.uniform
          [(2, true, lhs), (if op.sensitive then 255 else 0, op.sensitive, rhs)] h
        cases op <;> cases lhs <;> cases rhs <;> first
          | exact (Bool.false_ne_true hmis).elim
          | exact absurd rfl hlhs
          | obtain ⟨_, hvalue, hsame⟩ := hcomputes _ rfl
            cases hvalue
            exact absurd hsame (by decide)
  | .ifElse, [.packet, mhs, rhs], _, h =>
      have hcomputes := BodyMatchesTail.uniform
        [(2, true, .packet), (3, true, mhs), (5, false, rhs)] h
      cases mhs <;> cases rhs <;>
        · obtain ⟨_, hvalue, hsame⟩ := hcomputes _ rfl
          cases hvalue
          exact absurd hsame (by decide)
  | .ifElse, [.mask, mhs, rhs], hmis, h =>
      -- the predicate among the branches is true, and is selected
      have hcomputes := BodyMatchesTail.uniform
        [(0, mhs == .mask, .mask), (0, true, mhs), (0, true, rhs)] h
      cases mhs <;> cases rhs <;> first
        | exact (Bool.false_ne_true hmis).elim
        | obtain ⟨_, hvalue, hsame⟩ := hcomputes _ rfl
          cases hvalue
          exact absurd hsame (by decide)
  | .fma, [lhs, mhs, rhs], hmis, h =>
      have hcomputes := BodyMatchesTail.uniform
        [(0, true, lhs), (0, true, mhs), (0, true, rhs)] h
      cases lhs <;> cases mhs <;> cases rhs <;> first
        | exact (Bool.false_ne_true hmis).elim
        | obtain ⟨_, hvalue, hsame⟩ := hcomputes _ rfl
          cases hvalue
          exact absurd hsame (by decide)

/-- An element has one value in the body and in the tail, for every evaluator and mix of
operands but the fused multiply-add of two scalars and a register and, where `mask_t` is
`simd_t`, operands that are taken for what they are not. -/
theorem bodyMatchesTail_iff (oneType : Bool) (e : Evaluator) (kinds : List OperandKind) :
    BodyMatchesTail oneType e kinds ↔
      ¬ (e = .fma ∧ kinds = [.scalar, .scalar, .packet]) ∧
        (oneType = true → e.misreads kinds = false) := by
  constructor
  · intro h
    constructor
    · rintro ⟨rfl, rfl⟩
      have hsum : ∀ b, sumMath.truth (sumMath.ofBool b) = b := by decide
      cases oneType with
      | false =>
          exact absurd (fma_eq_of_bodyMatchesTail h (StdMath.lanewise_faithful hsum) rfl 0 0 0)
            (by decide)
      | true => exact absurd (fma_eq_of_bodyMatchesTail h bitwise_faithful rfl 0 0 0) (by decide)
    · rintro rfl
      by_contra hmis
      exact not_bodyMatchesTail_misreads (Bool.not_eq_false _ ▸ hmis) h
  · rintro ⟨hmix, hreads⟩
    exact bodyMatchesTail_of hmix hreads

/-- Sums and products that round down to a multiple of ten. -/
def tensMath : StdMath Int where
  unary _ a := a
  binary f a b :=
    match f with
    | .add => (a + b) / 10 * 10
    | .mul => a * b / 10 * 10
    | _ => a
  compare f a b :=
    match f with
    | .gt => decide (b < a)
    | .lt => decide (a < b)
    | .ge => decide (b ≤ a)
    | .le => decide (a ≤ b)
    | .eq => decide (a = b)
    | .neq => decide (a ≠ b)
  fma a b c := (a * b + c) / 10 * 10
  truth a := decide (a ≠ 0)
  ofBool b := if b then 1 else 0

/-- The product of 3 and 5 is rounded before 5 is added in the body, and after in the tail.
A true predicate and the number 2, whose sign bit is clear, are false in the body and true in
the tail. -/
theorem not_bodyMatchesTail_premultiplied :
    ¬ BodyMatchesTail false .fma [.scalar, .scalar, .packet] ∧
      ¬ BodyMatchesTail true (.logical .land) [.mask, .scalar] := by
  constructor
  · intro h
    have htruth : ∀ b, tensMath.truth (tensMath.ofBool b) = b := by decide
    exact absurd (fma_eq_of_bodyMatchesTail h (StdMath.lanewise_faithful htruth) rfl 3 5 5)
      (by decide)
  · intro h
    obtain ⟨_, hvalue, hsame⟩ :=
      BodyMatchesTail.uniform [(0, true, .mask), (2, true, .scalar)] h _ rfl
    cases hvalue
    exact absurd hsame (by decide)

end Vectorization
