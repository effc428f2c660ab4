/-
The fusion of `expressions_evaluator_metal.h`: an expression tree is written as the text of
one Metal expression, with its tensors and scalars in numbered slots.  Debug checks on the
device and the layout of an operand are left out.
-/
import Vectorization.MetalLanguage

namespace Vectorization.Metal

inductive UnaryEvaluator
  | fabs | floor | ceil | trunc | sqrt | sqr | exp | expm1 | exp2 | log | log1p | log2 | log10
  | sin | cos | tan | asin | acos | atan | sinh | cosh | tanh | asinh | acosh | atanh | cbrt
  | cdf | invCdf | invsqrt | neg | lnot
deriving Repr, DecidableEq

inductive BinaryEvaluator
  | add | sub | mul | div | madd | msub | mmul | mdiv | min | max | pow | hypot | copysign
  | cmpgt | cmplt | cmpge | cmple | cmpeq | cmpne | land | lor | lxor
deriving Repr, DecidableEq

inductive TrinaryEvaluator
  | fma | ifElse
deriving Repr, DecidableEq

/-- A tree over tensors, views and strided references, given by whether their elements are
floats and by their data, and over fundamental scalars. -/
inductive MetalExpr (S : Type)
  | tensor (isFloat : Bool) (data : Nat)
  | scalar (value : S)
  | unary (evaluator : UnaryEvaluator) (rhs : MetalExpr S)
  | binary (evaluator : BinaryEvaluator) (lhs rhs : MetalExpr S)
  | trinary (evaluator : TrinaryEvaluator) (lhs mhs rhs : MetalExpr S)

section Kernels

/-- The name in `metal_kernel_traits`, if the evaluator is supported, here and below. -/
def UnaryEvaluator.kernel : UnaryEvaluator → Option String
  | fabs => some "fabs"
  | floor => some "floor"
  | ceil => some "ceil"
  | trunc => some "trunc"
  | sqrt => some "sqrt"
  | sqr => some "sqr"
  | exp => some "exp"
  | expm1 => some "expm1"
  | exp2 => some "exp2"
  | log => some "log"
  | log1p => some "log1p"
  | log2 => some "log2"
  | log10 => some "log10"
  | sin => some "sin"
  | cos => some "cos"
  | tan => some "tan"
  | asin => some "asin"
  | acos => some "acos"
  | atan => some "atan"
  | sinh => some "sinh"
  | cosh => some "cosh"
  | tanh => some "tanh"
  | asinh => some "asinh"
  | acosh => some "acosh"
  | atanh => some "atanh"
  | cbrt => some "cbrt"
  | invsqrt => some "rsqrt"
  | neg => some "neg"
  | lnot => some "lnot"
  | cdf | invCdf => none

/-- `vectorized` is `VECTORIZATION_VECTORIZED`. -/
def BinaryEvaluator.kernel (vectorized : Bool) : BinaryEvaluator → Option String
  | add | madd => some "+"
  | sub | msub => some "-"
  | mul | mmul => some "*"
  | div | mdiv => some "/"
  | min => some "min"
  | max => some "max"
  | pow => some "pow"
  | hypot => some "hypot"
  | copysign => some "copysign"
  | cmpgt => some ">"
  | cmplt => some "<"
  | cmpge => some ">="
  | cmple => some "<="
  | cmpeq => some "=="
  | cmpne => some "!="
  | land => if vectorized then some "&&" else none
  | lor => if vectorized then some "||" else none
  | lxor => if vectorized then some "!=" else none

def TrinaryEvaluator.kernel : TrinaryEvaluator → Option String
  | fma => some "fma"
  | ifElse => some "select"

/-- `metal_expr_fusable`. -/
def MetalExpr.fusable {S : Type} (vectorized : Bool) : MetalExpr S → Bool
  | tensor isFloat _ => isFloat
  | scalar _ => true
  | unary evaluator rhs => evaluator.kernel.isSome && rhs.fusable vectorized
  | binary evaluator lhs rhs =>
      (evaluator.kernel vectorized).isSome && lhs.fusable vectorized && rhs.fusable vectorized
  | trinary evaluator lhs mhs rhs =>
      evaluator.kernel.isSome && lhs.fusable vectorized && mhs.fusable vectorized &&
        rhs.fusable vectorized

def BinaryEvaluator.arith : BinaryEvaluator → Bool
  | add | madd | sub | msub | mul | mmul | div | mdiv => true
  | _ => false

def BinaryEvaluator.cmp : BinaryEvaluator → Bool
  | cmpgt | cmplt | cmpge | cmple | cmpeq | cmpne => true
  | _ => false

def BinaryEvaluator.logic (vectorized : Bool) : BinaryEvaluator → Bool
  | land | lor | lxor => vectorized
  | _ => false

end Kernels

section Emission

/-- `metal_fuse_state`; the counts of slots are the lengths. -/
structure MetalFuseState (φ : Type) where
  buffers : List Nat
  scalars : List φ
  body : List Char
  ok : Bool

def kMaxSlots : Nat := 29

/-- `std::to_string`. -/
def decimal (n : Nat) : List Char := Nat.toDigits 10 n

namespace MetalFuseState

variable {φ : Type}

def initial : MetalFuseState φ := ⟨[], [], [], true⟩

/-- `st.body +=`. -/
def append (st : MetalFuseState φ) (text : List Char) : MetalFuseState φ :=
  { st with body := st.body ++ text }

def text (st : MetalFuseState φ) (s : String) : MetalFuseState φ := st.append s.toList

end MetalFuseState

variable {φ S : Type}

def metalFuseFail (st : MetalFuseState φ) : MetalFuseState φ := { st with ok := false }

/-- What `emit` appends, and the state without it. -/
def metalFuseSnapshot (emit : MetalFuseState φ → MetalFuseState φ) (st : MetalFuseState φ) :
    List Char × MetalFuseState φ :=
  let mark := st.body.length
  let st := emit st
  (st.body.drop mark, { st with body := st.body.take mark })

def bufferName (k : Nat) : List Char := "in".toList ++ decimal k

def scalarName (j : Nat) : List Char := "c".toList ++ decimal j

/-- `metal_fuse_emit`, with the conversion of a scalar to `float`. -/
def metalFuseEmit (vectorized : Bool) (cast : S → φ) :
    MetalExpr S → MetalFuseState φ → MetalFuseState φ
  | .tensor _ data, st =>
      if !st.ok || kMaxSlots ≤ st.buffers.length then metalFuseFail st
      else
        let st := (st.append (bufferName st.buffers.length)).text "[tid]"
        { st with buffers := st.buffers ++ [data] }
  | .scalar value, st =>
      if !st.ok || kMaxSlots ≤ st.scalars.length then metalFuseFail st
      else
        let st := st.append (scalarName st.scalars.length)
        { st with scalars := st.scalars ++ [cast value] }
  | .unary evaluator rhs, st =>
      match evaluator.kernel with
      | none => metalFuseFail st
      | some name =>
        match evaluator with
        | .neg => (metalFuseEmit vectorized cast rhs (st.text "(-(")).text "))"
        | .lnot => (metalFuseEmit vectorized cast rhs (st.text "float(!bool(")).text "))"
        | .sqr =>
            let (x, st) := metalFuseSnapshot (metalFuseEmit vectorized cast rhs) st
            ((((st.text "(").append x).text "*").append x).text ")"
        | .expm1 => (metalFuseEmit vectorized cast rhs (st.text "(exp(")).text ")-1.0)"
        | .log1p => (metalFuseEmit vectorized cast rhs (st.text "log(1.0+(")).text "))"
        | .cbrt =>
            let (x, st) := metalFuseSnapshot (metalFuseEmit vectorized cast rhs) st
            ((((st.text "copysign(pow(fabs(").append x).text "),0.3333333333333333),").append
              x).text ")"
        | _ => (metalFuseEmit vectorized cast rhs ((st.text name).text "(")).text ")"
  | .binary evaluator lhs rhs, st =>
      match evaluator.kernel vectorized with
      | none => metalFuseFail st
      | some name =>
        if evaluator.arith || evaluator.cmp then
          let st := if evaluator.cmp then st.text "float(" else st.text "("
          let st := metalFuseEmit vectorized cast lhs st
          (metalFuseEmit vectorized cast rhs (st.text name)).text ")"
        else if evaluator.logic vectorized then
          let st := metalFuseEmit vectorized cast lhs (st.text "float(bool(")
          let st := ((st.text ")").text name).text "bool("
          (metalFuseEmit vectorized cast rhs st).text "))"
        else if evaluator = .hypot then
          let (a, st) := metalFuseSnapshot (metalFuseEmit vectorized cast lhs) st
          let (b, st) := metalFuseSnapshot (metalFuseEmit vectorized cast rhs) st
          let st := (((st.text "sqrt((").append a).text "*").append a
          ((((st.text ")+(").append b).text "*").append b).text "))"
        else
          let st := metalFuseEmit vectorized cast lhs ((st.text name).text "(")
          (metalFuseEmit vectorized cast rhs (st.text ",")).text ")"
  | .trinary evaluator lhs mhs rhs, st =>
      match evaluator with
      | .fma =>
          let st := metalFuseEmit vectorized cast lhs (st.text "fma(")
          let st := metalFuseEmit vectorized cast mhs (st.text ",")
          (metalFuseEmit vectorized cast rhs (st.text ",")).text ")"
      -- the false value first, the condition last
      | .ifElse =>
          let st := metalFuseEmit vectorized cast rhs (st.text "select(")
          let st := metalFuseEmit vectorized cast mhs (st.text ",")
          (metalFuseEmit vectorized cast lhs (st.text ",bool(")).text "))"

end Emission

section Kernel

variable {φ : Type}

/-- `metal_fuse_parameters`. -/
def metalFuseParameters (st : MetalFuseState φ) : List Char :=
  let src :=
    "#include <metal_stdlib>\nusing namespace metal;\nkernel void fused_float(\n".toList
  let (src, idx) := (List.range st.buffers.length).foldl
    (fun p i => (p.1 ++ "  device const float* in".toList ++ decimal i ++
      " [[buffer(".toList ++ decimal p.2 ++ ")]],\n".toList, p.2 + 1)) (src, 0)
  let (src, idx) := (List.range st.scalars.length).foldl
    (fun p j => (p.1 ++ "  constant float& c".toList ++ decimal j ++
      " [[buffer(".toList ++ decimal p.2 ++ ")]],\n".toList, p.2 + 1)) (src, idx)
  src ++ "  device float* out [[buffer(".toList ++ decimal idx ++
    ")]],\n  constant uint& n [[buffer(".toList ++ decimal (idx + 1) ++ ")]],\n".toList

/-- `metal_fuse_source`. -/
def metalFuseSource (st : MetalFuseState φ) : List Char :=
  metalFuseParameters st ++
    "  uint tid [[thread_position_in_grid]])\n\x7b\n  if (tid < n)\n    out[tid] = ".toList ++
    st.body ++ ";\n\x7d\n".toList

/-- `metal_fuse_fits`. -/
def metalFuseFits (st : MetalFuseState φ) : Bool :=
  st.ok && decide (st.buffers.length + st.scalars.length + 2 ≤ 31)

/-- A parameter of the kernel. -/
structure Declaration where
  type : String
  name : List Char
  /-- The buffer index. -/
  index : Nat

def Declaration.text (d : Declaration) : List Char :=
  "  ".toList ++ d.type.toList ++ " ".toList ++ d.name ++ " [[buffer(".toList ++
    decimal d.index ++ ")]],\n".toList

/-- The parameters for so many buffers and scalars. -/
def declarations (buffers scalars : Nat) : List Declaration :=
  (List.range buffers).map (fun i => ⟨"device const float*", bufferName i, i⟩) ++
    (List.range scalars).map (fun j => ⟨"constant float&", scalarName j, buffers + j⟩) ++
    [⟨"device float*", "out".toList, buffers + scalars⟩,
      ⟨"constant uint&", "n".toList, buffers + scalars + 1⟩]

namespace MetalFuseState

/-- The arguments that are dispatched before the output and the number of elements. -/
def arguments (st : MetalFuseState φ) : List (Value φ) :=
  st.buffers.map .buffer ++ st.scalars.map .float

/-- What a name in the body stands for in thread `tid`. -/
def names (st : MetalFuseState φ) (tid : Nat) (w : List Char) : Option (Value φ) :=
  if w = "tid".toList then some (.position tid)
  else ((declarations st.buffers.length st.scalars.length).find? fun d => d.name = w).bind
    fun d => st.arguments[d.index]?

end MetalFuseState

end Kernel

end Vectorization.Metal
