/-
The trivially copyable tensor descriptor of `strided_ref.h`: a data view with a
shape and element strides.  Shapes and strides are kept as one list of axes,
outermost first; addresses are byte addresses and the null pointer is zero.
-/
import Vectorization.Foundation.MachineInteger
import Vectorization.Foundation.StackedStrides

namespace Vectorization

open StridedSpace MachineInteger

inductive DeviceEnum
  | cpu
  | cuda
  | hip
  | metal
deriving Repr, DecidableEq

/-- A scalar type of the source: its identity and its size in bytes. -/
structure ElementType where
  tag : Nat
  size : Nat
  size_pos : 0 < size
deriving DecidableEq

/-- A window of an allocation: first element, element count and placement. -/
structure DataView (T : ElementType) where
  data : Nat
  size : Nat
  device : DeviceEnum
  deviceIndex : Int
deriving Repr, DecidableEq

structure StridedRef (T : ElementType) where
  view : DataView T
  dims : List (Axis Int)
  numel : Nat
  contiguous : Bool
  alignStart : Nat
  alignEnd : Nat
deriving Repr, DecidableEq

namespace StridedRef

variable {T : ElementType}

def data (s : StridedRef T) : Nat := s.view.data

def device (s : StridedRef T) : DeviceEnum := s.view.device

def deviceIndex (s : StridedRef T) : Int := s.view.deviceIndex

def rank (s : StridedRef T) : Nat := s.dims.length

def sizes (s : StridedRef T) : List Nat := StridedSpace.sizes s.dims

/-- The address of the element at a multi-index. -/
def address (s : StridedRef T) (idx : List Nat) : Int :=
  s.data + dot s.dims idx * T.size

/-- The bytes of the elements the layout addresses. -/
def region (s : StridedRef T) : Set Int :=
  {x | ∃ idx, InBounds idx s.sizes ∧ s.address idx ≤ x ∧ x < s.address idx + T.size}

/-- The bytes of memory the layout touches; a null pointer touches none. -/
def touched (s : StridedRef T) : Set Int :=
  {x | s.data ≠ 0 ∧ x ∈ s.region}

end StridedRef

/-- The loop of `strided_offset`, innermost dimension first. -/
def stridedOffsetLoop : List (Axis Int) → Nat → Nat → Nat
  | [], off, _ => off
  | a :: axes, off, rem =>
      if a.size = 0 then 0
      else
        stridedOffsetLoop axes (wrapU64 (off + rem % a.size * toU64 a.stride))
          (rem / a.size)

/-- The element offset of a flat index; the index itself when contiguous. -/
def stridedOffset {T : ElementType} (s : StridedRef T) (flat : Nat) : Nat :=
  if s.contiguous then flat else stridedOffsetLoop s.dims.reverse 0 flat

section NaturalStrides

/-- The axes with their strides read as naturals. -/
def natAxes (axes : List (Axis Int)) : List (Axis Nat) :=
  axes.map fun a => ⟨a.size, a.stride.toNat⟩

@[simp] theorem natAxes_nil : natAxes [] = [] := rfl

@[simp] theorem natAxes_cons (a : Axis Int) (axes : List (Axis Int)) :
    natAxes (a :: axes) = ⟨a.size, a.stride.toNat⟩ :: natAxes axes := rfl

@[simp] theorem natAxes_sizes (axes : List (Axis Int)) :
    sizes (natAxes axes) = sizes axes := by
  simp [natAxes, sizes, Function.comp_def]

@[simp] theorem natAxes_append (xs ys : List (Axis Int)) :
    natAxes (xs ++ ys) = natAxes xs ++ natAxes ys :=
  List.map_append

theorem natAxes_perm {xs ys : List (Axis Int)} (h : xs.Perm ys) :
    (natAxes xs).Perm (natAxes ys) :=
  h.map _

theorem natAxes_filter (p : Nat → Bool) (axes : List (Axis Int)) :
    natAxes (axes.filter fun a => p a.size) =
      (natAxes axes).filter fun a => p a.size := by
  simp only [natAxes, List.filter_map]
  rfl

/-- Non-negative strides place a multi-index where their naturals do. -/
theorem dot_eq_natAxes {axes : List (Axis Int)} (h : ∀ a ∈ axes, 0 ≤ a.stride)
    (idx : List Nat) : dot axes idx = (dot (natAxes axes) idx : Nat) := by
  induction axes generalizing idx with
  | nil => simp
  | cons a axes ih =>
      cases idx with
      | nil => simp [dot]
      | cons i idx =>
          have ha := h a List.mem_cons_self
          have htail := ih (fun b hb => h b (List.mem_cons_of_mem a hb)) idx
          rw [natAxes_cons, dot_cons, dot_cons, htail]
          push_cast
          rw [nsmul_eq_mul, smul_eq_mul, Nat.cast_mul, Int.toNat_of_nonneg ha]

end NaturalStrides

namespace Sample

/-- A four-byte scalar type. -/
def float : ElementType := ⟨0, 4, by decide⟩

/-- A strided layout of floats on the CPU. -/
def cpuRef (data : Nat) (dims : List (Axis Int)) : StridedRef float where
  view := ⟨data, (StridedSpace.sizes dims).prod, .cpu, 0⟩
  dims := dims
  numel := (StridedSpace.sizes dims).prod
  contiguous := false
  alignStart := 0
  alignEnd := 0

end Sample

end Vectorization
