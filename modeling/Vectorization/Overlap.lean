/-
The overlap classifier of `overlap.h` as the code computes it: the byte-range
test, the injectivity proof over the sorted axes, the dense-span rule, the
stride-gcd test and the signed carry walk over nested strides.
-/
import Vectorization.StridedRef
import Vectorization.Foundation.SignedDigits

namespace Vectorization

open StridedSpace MachineInteger

inductive OverlapStatus
  | none
  | full
  | partialOverlap
  | tooHard
deriving Repr, DecidableEq

/-- The axes of more than one element, sorted by stride. -/
def overlapAxes {T : ElementType} (ref : StridedRef T) : List (Axis Int) :=
  (ref.dims.filter fun a => decide (1 < a.size)).insertionSort
    fun a b => a.stride ≤ b.stride

/-- The loop of `overlap_extent`, in unsigned 64-bit arithmetic. -/
def overlapExtentLoop : Nat → List (Axis Int) → Nat
  | extent, [] => extent
  | extent, a :: axes =>
      overlapExtentLoop
        (wrapU64 (extent + toU64 ((a.size : Int) - 1) * toU64 a.stride)) axes

def overlapExtent {T : ElementType} (ref : StridedRef T) : Nat :=
  overlapExtentLoop 0 ref.dims

def floorDiv (n d : Int) : Int :=
  n.tdiv d - if n.tmod d < 0 then 1 else 0

def ceilDiv (n d : Int) : Int :=
  n.tdiv d + if 0 < n.tmod d then 1 else 0

/-- The loop of `is_non_overlapping`: each stride must exceed the extent of the
axes before it. -/
def strideExceedsExtent : Nat → List (Axis Int) → Bool
  | _, [] => true
  | extent, a :: axes =>
      if a.stride ≤ 0 ∨ toU64 a.stride ≤ extent then false
      else
        strideExceedsExtent
          (wrapU64 (extent + toU64 ((a.size : Int) - 1) * toU64 a.stride)) axes

def isNonOverlapping {T : ElementType} (ref : StridedRef T) : Bool :=
  if ref.numel = 0 then true else strideExceedsExtent 0 (overlapAxes ref)

/-- The gcd of all strides of both layouts. -/
def strideGcd (ax bx : List (Axis Int)) : Nat :=
  (ax ++ bx).foldl (fun gcd a => Int.gcd gcd a.stride) 0

/-- Equal strides on both sides, each dividing the next. -/
def equalNestedStrides : List (Axis Int × Axis Int) → Bool
  | [] => true
  | [(a, b)] => a.stride == b.stride
  | (a, b) :: (a', b') :: axes =>
      a.stride == b.stride && a'.stride.tmod a.stride == 0 &&
        equalNestedStrides ((a', b') :: axes)

/-- The carry loop: `[lo, hi]` are the carries into the current axis. -/
def carryWalk : List (Axis Int × Axis Int) → Int → Int → OverlapStatus
  | [], _, _ => .none
  | [(a, b)], lo, hi =>
      if hi ≥ -((b.size : Int) - 1) ∧ lo ≤ (a.size : Int) - 1 then .partialOverlap
      else .none
  | (a, b) :: (a', b') :: axes, lo, hi =>
      let lower := -((b.size : Int) - 1)
      let upper := (a.size : Int) - 1
      if lo < int64Min + upper ∨ hi > int64Max + lower then .tooHard
      else
        let period := a'.stride.tdiv a.stride
        let lo' := ceilDiv (lo - upper) period
        let hi' := floorDiv (hi - lower) period
        if lo' > hi' then .none else carryWalk ((a', b') :: axes) lo' hi'

/-- The lattice tests on the two sorted axis lists, `delta` elements apart. -/
def classifyLattice (ax bx : List (Axis Int)) (delta : Int) : OverlapStatus :=
  if strideGcd ax bx ≠ 0 ∧ delta.tmod (strideGcd ax bx) ≠ 0 then .none
  else if ax.length ≠ bx.length ∨ ax.length = 0 then .tooHard
  else if ¬ equalNestedStrides (ax.zip bx) then .tooHard
  else
    match ax with
    | [] => .tooHard
    | a :: _ =>
        if delta.tmod a.stride ≠ 0 then .none
        else carryWalk (ax.zip bx) (delta.tdiv a.stride) (delta.tdiv a.stride)

def byteDistance (ap bp : Nat) : Nat :=
  if ap ≤ bp then bp - ap else ap - bp

/-- The signed distance in whole elements. -/
def elementDelta (ap bp size : Nat) : Int :=
  if ap ≤ bp then (byteDistance ap bp / size : Nat) else -(byteDistance ap bp / size : Nat)

def classifyOverlap {A B : ElementType} (a : StridedRef A) (b : StridedRef B) :
    OverlapStatus :=
  if a.numel = 0 ∨ b.numel = 0 ∨ a.data = 0 ∨ b.data = 0 ∨ a.device ≠ b.device ∨
      a.deviceIndex ≠ b.deviceIndex then .none
  else
    let ap := a.data
    let bp := b.data
    let ae := wrapU64 (ap + (overlapExtent a + 1) * A.size)
    let be := wrapU64 (bp + (overlapExtent b + 1) * B.size)
    if ae ≤ bp ∨ be ≤ ap then .none
    else if A ≠ B then .tooHard
    else if ap = bp ∧ a.dims = b.dims ∧ isNonOverlapping a then .full
    else if ¬ isNonOverlapping a ∨ ¬ isNonOverlapping b then .tooHard
    else if wrapU64 (overlapExtent a + 1) = a.numel ∧
        wrapU64 (overlapExtent b + 1) = b.numel then .partialOverlap
    else if byteDistance ap bp % A.size ≠ 0 ∨
        int64Max < (byteDistance ap bp / A.size : Nat) then .tooHard
    else classifyLattice (overlapAxes a) (overlapAxes b) (elementDelta ap bp A.size)

end Vectorization
