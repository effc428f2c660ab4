/-
The expressions of the Metal shading language that a fused kernel is made of: lexemes by
maximal munch, operators with the precedence of C++, and their values.  What the floating
operations and functions of the language compute is left open.
-/
import Vectorization.Foundation.MaximalMunch
import Vectorization.Foundation.OperatorGrammar

namespace Vectorization.Metal

open MaximalMunch OperatorGrammar

/-- Operator symbols, the comma among them. -/
inductive Symbol
  | comma | orOr | andAnd | or | caret | and | equalEqual | notEqual | less | greater
  | lessEqual | greaterEqual | shiftLeft | shiftRight | plus | minus | star | slash | percent
  | not | tilde
deriving Repr, DecidableEq

def Symbol.text : Symbol → String
  | comma => ","
  | orOr => "||"
  | andAnd => "&&"
  | or => "|"
  | caret => "^"
  | and => "&"
  | equalEqual => "=="
  | notEqual => "!="
  | less => "<"
  | greater => ">"
  | lessEqual => "<="
  | greaterEqual => ">="
  | shiftLeft => "<<"
  | shiftRight => ">>"
  | plus => "+"
  | minus => "-"
  | star => "*"
  | slash => "/"
  | percent => "%"
  | not => "!"
  | tilde => "~"

def Symbol.all : List Symbol :=
  [comma, orOr, andAnd, or, caret, and, equalEqual, notEqual, less, greater, lessEqual,
    greaterEqual, shiftLeft, shiftRight, plus, minus, star, slash, percent, not, tilde]

inductive UnaryOperator
  | plus | minus | not | complement
deriving Repr, DecidableEq

inductive BinaryOperator
  | comma | or | and | bitOr | bitXor | bitAnd | equal | notEqual | less | greater
  | lessEqual | greaterEqual | shiftLeft | shiftRight | add | sub | mul | div | mod
deriving Repr, DecidableEq

/-- The binary operators by precedence, the comma first; all associate to the left. -/
def BinaryOperator.level : BinaryOperator → Nat
  | comma => 0
  | or => 1
  | and => 2
  | bitOr => 3
  | bitXor => 4
  | bitAnd => 5
  | equal | notEqual => 6
  | less | greater | lessEqual | greaterEqual => 7
  | shiftLeft | shiftRight => 8
  | add | sub => 9
  | mul | div | mod => 10

def Symbol.unary : Symbol → Option UnaryOperator
  | plus => some .plus
  | minus => some .minus
  | not => some .not
  | tilde => some .complement
  | _ => none

def Symbol.binary : Symbol → Option BinaryOperator
  | comma => some .comma
  | orOr => some .or
  | andAnd => some .and
  | or => some .bitOr
  | caret => some .bitXor
  | and => some .bitAnd
  | equalEqual => some .equal
  | notEqual => some .notEqual
  | less => some .less
  | greater => some .greater
  | lessEqual => some .lessEqual
  | greaterEqual => some .greaterEqual
  | shiftLeft => some .shiftLeft
  | shiftRight => some .shiftRight
  | plus => some .add
  | minus => some .sub
  | star => some .mul
  | slash => some .div
  | percent => some .mod
  | not | tilde => none

def operators : Operators Symbol UnaryOperator BinaryOperator where
  unary := Symbol.unary
  binary := Symbol.binary
  level := BinaryOperator.level

/-- The atoms are words: names and numbers. -/
abbrev Lexeme := Token (List Char) Symbol

abbrev Expression := Tree (List Char) UnaryOperator BinaryOperator

section Lexing

def isWordCharacter (c : Char) : Bool := c.isAlphanum || c == '_'

/-- What begins with an operator character and is longer than one character; the last two
open comments. -/
def compounds : List (List Char) :=
  [['|', '|'], ['&', '&'], ['=', '='], ['!', '='], ['<', '='], ['>', '='], ['<', '<'],
    ['>', '>'], ['+', '+'], ['-', '-'], ['-', '>'], ['+', '='], ['-', '='], ['*', '='],
    ['/', '='], ['%', '='], ['&', '='], ['|', '='], ['^', '='], ['<', '<', '='],
    ['>', '>', '='], ['/', '/'], ['/', '*']]

/-- A word goes on with word characters, a number with a point, too; anything else goes on
as far as it stays an operator. -/
def continues (read : List Char) (c : Char) : Bool :=
  match read with
  | [] => false
  | d :: _ =>
      if isWordCharacter d then isWordCharacter c || d.isDigit && c == '.'
      else compounds.contains (read ++ [c])

def token (l : List Char) : Option Lexeme :=
  if l = ['('] then some .openParen
  else if l = [')'] then some .closeParen
  else if l = ['['] then some .openBracket
  else if l = [']'] then some .closeBracket
  else if l.head?.any isWordCharacter then some (.atom l)
  else (Symbol.all.find? fun s => s.text.toList = l).map .symbol

/-- The tokens of a text without blanks. -/
def tokens (text : List Char) : Option (List Lexeme) :=
  (lexemes continues text).mapM token

def parseExpression (text : List Char) : Option Expression := do
  parse operators (← tokens text)

end Lexing

section Values

/-- Functions of one argument. -/
inductive Function1
  | fabs | floor | ceil | trunc | sqrt | exp | exp2 | log | log2 | log10 | sin | cos | tan
  | asin | acos | atan | sinh | cosh | tanh | asinh | acosh | atanh | rsqrt
deriving Repr, DecidableEq

def Function1.name : Function1 → String
  | fabs => "fabs"
  | floor => "floor"
  | ceil => "ceil"
  | trunc => "trunc"
  | sqrt => "sqrt"
  | exp => "exp"
  | exp2 => "exp2"
  | log => "log"
  | log2 => "log2"
  | log10 => "log10"
  | sin => "sin"
  | cos => "cos"
  | tan => "tan"
  | asin => "asin"
  | acos => "acos"
  | atan => "atan"
  | sinh => "sinh"
  | cosh => "cosh"
  | tanh => "tanh"
  | asinh => "asinh"
  | acosh => "acosh"
  | atanh => "atanh"
  | rsqrt => "rsqrt"

def Function1.all : List Function1 :=
  [fabs, floor, ceil, trunc, sqrt, exp, exp2, log, log2, log10, sin, cos, tan, asin, acos,
    atan, sinh, cosh, tanh, asinh, acosh, atanh, rsqrt]

/-- Functions of two arguments. -/
inductive Function2
  | min | max | pow | copysign
deriving Repr, DecidableEq

def Function2.name : Function2 → String
  | min => "min"
  | max => "max"
  | pow => "pow"
  | copysign => "copysign"

def Function2.all : List Function2 := [min, max, pow, copysign]

inductive Comparison
  | greater | less | greaterEqual | lessEqual | equal | notEqual
deriving Repr, DecidableEq

/-- The floating operations, whatever they compute. -/
structure Floats (φ : Type) where
  /-- The value of a decimal literal, from its text. -/
  literal : List Char → φ
  negate : φ → φ
  add : φ → φ → φ
  sub : φ → φ → φ
  mul : φ → φ → φ
  div : φ → φ → φ
  compare : Comparison → φ → φ → Bool
  function1 : Function1 → φ → φ
  function2 : Function2 → φ → φ → φ
  fma : φ → φ → φ → φ
  /-- `bool(x)`. -/
  toBool : φ → Bool
  /-- `float(b)`. -/
  ofBool : Bool → φ

/-- What a name or an expression stands for. -/
inductive Value (φ : Type)
  | float (x : φ)
  | bool (b : Bool)
  | buffer (data : Nat)
  | position (i : Nat)
deriving Repr, DecidableEq

variable {φ : Type} (F : Floats φ)

def applyUnary : UnaryOperator → Value φ → Option (Value φ)
  | .minus, .float x => some (.float (F.negate x))
  | .not, .bool b => some (.bool !b)
  | _, _ => none

/-- The operators on floats, and those on truth values. -/
def applyBinary : BinaryOperator → Value φ → Value φ → Option (Value φ)
  | .add, .float x, .float y => some (.float (F.add x y))
  | .sub, .float x, .float y => some (.float (F.sub x y))
  | .mul, .float x, .float y => some (.float (F.mul x y))
  | .div, .float x, .float y => some (.float (F.div x y))
  | .greater, .float x, .float y => some (.bool (F.compare .greater x y))
  | .less, .float x, .float y => some (.bool (F.compare .less x y))
  | .greaterEqual, .float x, .float y => some (.bool (F.compare .greaterEqual x y))
  | .lessEqual, .float x, .float y => some (.bool (F.compare .lessEqual x y))
  | .equal, .float x, .float y => some (.bool (F.compare .equal x y))
  | .notEqual, .float x, .float y => some (.bool (F.compare .notEqual x y))
  | .and, .bool a, .bool b => some (.bool (a && b))
  | .or, .bool a, .bool b => some (.bool (a || b))
  | .equal, .bool a, .bool b => some (.bool (a == b))
  | .notEqual, .bool a, .bool b => some (.bool (a != b))
  | _, _, _ => none

/-- Conversions and functions of the standard library. -/
def applyFunction (f : List Char) : List (Value φ) → Option (Value φ)
  | [.bool b] => if f = "float".toList then some (.float (F.ofBool b)) else none
  | [.float x] =>
      if f = "bool".toList then some (.bool (F.toBool x))
      else (Function1.all.find? fun g => g.name.toList = f).map
        fun g => .float (F.function1 g x)
  | [.float x, .float y] =>
      (Function2.all.find? fun g => g.name.toList = f).map fun g => .float (F.function2 g x y)
  | [.float x, .float y, .float z] =>
      if f = "fma".toList then some (.float (F.fma x y z)) else none
  -- `select` takes the second operand where the condition holds
  | [.float x, .float y, .bool b] =>
      if f = "select".toList then some (.float (if b then y else x)) else none
  | _ => none

/-- The one value of an expression that is no list of arguments. -/
def single : List (Value φ) → Option (Value φ)
  | [v] => some v
  | _ => none

/-- The values of an expression, or of the arguments that commas separate, with names bound
by `names` and buffers read in `memory`. -/
def evaluate (names : List Char → Option (Value φ)) (memory : Nat → Nat → φ) :
    Expression → Option (List (Value φ))
  | .atom w =>
      if w.head?.any Char.isDigit then some [.float (F.literal w)]
      else (names w).map fun v => [v]
  | .paren x => do return [← single (← evaluate names memory x)]
  | .unary o x => do
      return [← applyUnary F o (← single (← evaluate names memory x))]
  | .binary .comma x y => do
      return (← evaluate names memory x) ++ [← single (← evaluate names memory y)]
  | .binary o x y => do
      return [← applyBinary F o (← single (← evaluate names memory x))
        (← single (← evaluate names memory y))]
  | .call (.atom f) x => do return [← applyFunction F f (← evaluate names memory x)]
  | .call _ _ => none
  | .index a x => do
      match ← single (← evaluate names memory a), ← single (← evaluate names memory x) with
      | .buffer data, .position i => return [.float (memory data i)]
      | _, _ => none

end Values

end Vectorization.Metal
