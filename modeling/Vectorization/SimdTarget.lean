/-
What a build fixes for the evaluation loops: the SIMD register of the scalar
type, the unroll factor and the thread pool's way of cutting an index range.
-/
import Vectorization.Raise
import Vectorization.Foundation.LoopTiling

namespace Vectorization

open LoopTiling

/-- How a store instruction addresses memory. -/
inductive StoreKind
  | scalar
  | unaligned
  | aligned
deriving Repr, DecidableEq

/-- The SIMD configuration for one scalar type. -/
structure SimdTarget (T : ElementType) where
  /-- `VECTORIZATION_VECTORIZED`. -/
  vectorized : Bool
  /-- `simd<value_t>::size`. -/
  length : Nat
  length_pos : 0 < length
  /-- `VECTORIZATION_PACKET_SIZE`. -/
  packet : Nat
  packet_pos : 0 < packet
  /-- `VECTORIZATION_ALIGNMENT`, 16 or 64 bytes: more than one scalar. -/
  alignment : Nat
  one_lt_alignment : 1 < alignment / T.size
  /-- `alignof(simd_t)`, a multiple of the scalar size that divides the size of
  the register. -/
  simdAlign : Nat
  simdAlign_pow : ∃ k, simdAlign = 2 ^ k
  size_dvd_simdAlign : T.size ∣ simdAlign
  simdAlign_dvd_register : simdAlign ∣ length * T.size

namespace SimdTarget

variable {T : ElementType} (S : SimdTarget T)

/-- Elements of one unrolled step. -/
def block : Nat := S.length * S.packet

theorem block_pos : 0 < S.block :=
  Nat.mul_pos S.length_pos S.packet_pos

/-- `simd_align_size`. -/
def simdAlignSize : Nat := S.simdAlign / T.size

end SimdTarget

/-- `parallel_for`: the pieces a thread pool cuts `[0, n)` into, in the order in
which they run. -/
structure ParallelFor where
  /-- `VECTORIZATION_ENABLE_PARALLEL`. -/
  enabled : Bool
  pieces : (n grain : Nat) → List (Nat × Nat)
  isSplit : ∀ n grain, IsSplit n (pieces n grain)

/-- `kGrainSize`. -/
def kGrainSize : Nat := 32768

namespace Sample

/-- Registers of four floats, unrolled twice. -/
def fourLanes : SimdTarget float where
  vectorized := true
  length := 4
  length_pos := Nat.succ_pos 3
  packet := 2
  packet_pos := Nat.succ_pos 1
  alignment := 64
  one_lt_alignment := Nat.le_add_left 2 14
  simdAlign := 16
  simdAlign_pow := ⟨4, rfl⟩
  size_dvd_simdAlign := ⟨4, rfl⟩
  simdAlign_dvd_register := ⟨1, rfl⟩

/-- A pool of two threads, the second half first. -/
def twoThreads : ParallelFor where
  enabled := true
  pieces n _ := [(n / 2, n), (0, n / 2)]
  isSplit n _ := by
    refine ⟨[(0, n / 2), (n / 2, n)], ?_, List.Perm.swap _ _ _⟩
    have := Nat.div_le_self n 2
    simp [Consecutive, this]

end Sample

end Vectorization
