/-
Packing: `clone` gathers the logical elements of a tensor in C-order into a fresh
allocation.  The gather is a flat copy, a tiled transpose or an odometer over the
coordinates.
-/
import Vectorization.Tensor
import Vectorization.Foundation.AtomicRun

namespace Vectorization

open MachineInteger ByteMemory LoopTiling AtomicRun

variable {T : ElementType} {α : Type}

/-- The allocator, and what `clone` does to the memory of a device.  The copies between
memories that it does it with are in `Staging.fillClone`. -/
structure Heap (T : ElementType) where
  /-- The base of a fresh allocation of `count` elements. -/
  allocate : (count : Nat) → DeviceEnum → (index : Int) → Except Raise Nat
  /-- The memory after the elements of a tensor on a device are packed at an
  address. -/
  copyDevice : TensorImpl T → (dst : Nat) → Memory → Except Raise Memory

/-- The index pairs of `tiled_transpose_2d`, in tiles of eight by eight. -/
def tiledTranspose2d (nrows ncols : Nat) : List (Nat × Nat) :=
  (starts 0 nrows 8).flatMap fun io =>
    (starts 0 ncols 8).flatMap fun jo =>
      (starts io (min (io + 8) nrows) 1).flatMap fun i =>
        (starts jo (min (jo + 8) ncols) 1).map fun j => (i * ncols + j, j * nrows + i)

/-- Unsigned 64-bit subtraction. -/
def subU64 (x y : Nat) : Nat := wrapU64 (x + (2 ^ 64 - wrapU64 y))

/-- The odometer step of `gather_logical`, innermost dimension first. -/
def nextCoord : List Dim → List Nat → Nat → List Nat × Nat
  | d :: dims, k :: coord, off =>
      let k := k + 1
      let off := wrapU64 (off + toU64 d.stride)
      if k < toU64 d.size then (k :: coord, off)
      else
        let next := nextCoord dims coord (subU64 off (k * toU64 d.stride))
        (0 :: next.1, next.2)
  | _, coord, off => (coord, off)

/-- `count` turns of the odometer loop. -/
def gatherLoop (dims : List Dim) : (count i : Nat) → List Nat → Nat → List (Nat × Nat)
  | 0, _, _, _ => []
  | count + 1, i, coord, off =>
      let next := nextCoord dims coord off
      (i, off) :: gatherLoop dims count (i + 1) next.1 next.2

namespace TensorImpl

/-- The pairs of destination and source index that `gather_logical` copies. -/
def gatherLogical (t : TensorImpl T) : Except Raise (List (Nat × Nat)) :=
  if t.numel = 0 then .ok []
  else if t.contiguous then .ok ((List.range t.numel).map fun i => (i, i))
  else if 16 < t.rank then .error .gatherRank
  else
    let odometer := gatherLoop t.sizesAndStrides.reverse t.numel 0
      (List.replicate t.rank 0) 0
    match t.sizesAndStrides with
    | [d₀, d₁] =>
        if d₀.stride = 1 ∧ d₁.stride = d₀.size then
          .ok (tiledTranspose2d d₀.size.toNat d₁.size.toNat)
        else .ok odometer
    | _ => .ok odometer

end TensorImpl

/-- `dst[to] = storage[from]`. -/
def copyElement (c : Codec α T.size) (storage dst : Nat) (pair : Nat × Nat) :
    StoreOp StoreKind α where
  kind := .scalar
  address := dst + pair.1 * T.size
  lanes := 1
  value m _ := load c m (storage + pair.2 * T.size)

section Construct

variable (S : SimdTarget T) (heap : Heap T)

/-- `tensor(n, device, index)`: an owner of `n` elements. -/
def makeOwner (n : Nat) (device : DeviceEnum) (index : Int) :
    Except Raise (TensorImpl T) := do
  let base ← heap.allocate n device index
  if int64Max < n then throw (.dimensionStorage n)
  return TensorImpl.recompute S
    { isView := false
      sizesAndStrides := [⟨n, 1⟩]
      view := ⟨base, n, device, index⟩
      alignStart := 0
      alignEnd := 0
      numel := 0
      contiguous := true
      nonOverlapping := true }

/-- `stamp_contiguous_shape`. -/
def stampContiguousShape (result src : TensorImpl T) : TensorImpl T :=
  TensorImpl.recompute S { result with sizesAndStrides := contiguousDims src.sizes }

variable (c : Codec α T.size)

/-- `clone`: on the CPU the elements are gathered, a packed source as a flat copy
of its window. -/
def clone (t : TensorImpl T) : EStateM Raise Memory (TensorImpl T) := do
  let result ← raising (makeOwner S heap t.numel t.device t.deviceIndex)
  if t.numel ≠ 0 then
    if t.device = .cpu then
      let pairs ← raising t.gatherLogical
      modify (run c (pairs.map (copyElement c t.data result.data)))
    else
      let packed ← raising (heap.copyDevice t result.data (← get))
      set packed
  return stampContiguousShape S result t

end Construct

/-- A copy that raises has stored nothing. -/
theorem clone_atomic (S : SimdTarget T) (heap : Heap T) (c : Codec α T.size)
    (t : TensorImpl T) : Atomic (clone S heap c t) := by
  refine (checks_raising _).bind_atomic fun result => ?_
  split
  · split
    · refine (checks_raising _).bind_atomic fun pairs => Total.atomic ?_
      exact (total_modify _).bind fun _ => total_pure _
    · refine checks_get.bind_atomic fun m => ?_
      refine (checks_raising _).bind_atomic fun packed => Total.atomic ?_
      exact (total_set _).bind fun _ => total_pure _
  · exact (checks_pure _).atomic

end Vectorization
