/-
Equality and the predicates of a tensor.  Each reads the host image of its operands; it
decides the shapes and the logical elements, whatever the layouts, the windows and the
devices, and leaves everything in use as it was.  Equality is for owners: on views it does
not compile.
-/
import Vectorization.HostImage

namespace Vectorization

open StridedSpace MachineInteger ByteMemory AtomicRun Outcome

variable {T : ElementType} {α β : Type}

/-- What the predicates use of the element type. -/
structure Numeric (α : Type) where
  zero : α
  one : α
  /-- `std::numeric_limits<T>::epsilon()`. -/
  epsilon : α
  neg : α → α
  fabs : α → α
  add : α → α → α
  sub : α → α → α
  eq : α → α → Bool
  lt : α → α → Bool
  le : α → α → Bool

namespace Numeric

variable (F : Numeric α)

end Numeric

/-- An owning tensor. -/
def Owner (T : ElementType) := {t : TensorImpl T // t.isView = false}

namespace Staging

section Operations

variable (R : Runtime T) (S : SimdTarget T) (c : Codec α T.size) (F : Numeric α)

/-- The tensor itself on the host, `to_cpu()` from a device. -/
def withHost (base : Nat) (t : TensorImpl T) (f : TensorImpl T → EStateM Raise State β) :
    EStateM Raise State β :=
  if t.device = .cpu then f t
  else do
    let h ← toCpu R S c base t
    let answer ← f h
    release (T := T) t.numel .host h.data
    return answer

/-- What a function of the host answers about the tensor. -/
def observe (base : Nat) (t : TensorImpl T) (f : Memory → TensorImpl T → β) :
    EStateM Raise State β :=
  withHost R S c base t fun h => do
    let s ← get
    return f (s.memory .host) h

def cpuValuesEqual (m : Memory) (t u : TensorImpl T) : Bool :=
  (List.range t.numel).all fun i => F.eq (t.readFlat c m i) (u.readFlat c m i)

/-- `operator==`. -/
def equals (base baseRhs : Nat) (t rhs : Owner T) : EStateM Raise State Bool :=
  if t.1.rank ≠ rhs.1.rank then pure false
  else if (List.range t.1.rank).any fun i => t.1.sizes.getD i 0 != rhs.1.sizes.getD i 0 then
    pure false
  else
    withHost R S c base t.1 fun h =>
      withHost R S c baseRhs rhs.1 fun k => do
        let s ← get
        return cpuValuesEqual c F (s.memory .host) h k

/-- The guard of the matrix predicates. -/
def square (t : TensorImpl T) : Bool :=
  decide (2 ≤ t.rank ∧ t.dimension 0 = t.dimension 1)

/-- A predicate that is false off square tensors, and checks the host image again. -/
def observeSquare (base : Nat) (t : TensorImpl T) (f : Memory → TensorImpl T → Bool) :
    EStateM Raise State Bool :=
  if square t then observe R S c base t fun m h => square h && f m h else pure false

def identity (base : Nat) (t : TensorImpl T) : EStateM Raise State Bool :=
  observeSquare R S c base t fun m h =>
    (List.range (h.dimension 0)).all fun i =>
      (List.range (h.dimension 1)).all fun j =>
        F.eq (h.readEntry c m i j) (if i = j then F.one else F.zero)

end Operations

section Images

variable {R : Runtime T} {S : SimdTarget T} {c : Codec α T.size} {t u : TensorImpl T}
  {base offset : Nat} {s : State}

/-- Elements listed alike are read alike. -/
theorem elements_eq_iff {m m' : Place → Memory} : elements c m t = elements c m' u ↔
    t.numel = u.numel ∧
      ∀ k < t.numel, t.readFlat c (m (place t)) k = u.readFlat c (m' (place u)) k := by
  constructor
  · intro h
    have hnumel : t.numel = u.numel := by
      have hlength := congrArg List.length h
      rwa [elements, elements, List.length_map, List.length_map, List.length_range,
        List.length_range] at hlength
    refine ⟨hnumel, fun k hk => ?_⟩
    rw [elements, elements, ← hnumel] at h
    exact List.map_inj_left.1 h k (List.mem_range.2 hk)
  · rintro ⟨hnumel, hread⟩
    rw [elements, elements, ← hnumel]
    exact List.map_congr_left fun k hk => hread k (List.mem_range.1 hk)

variable (hR : R.Serves) (ht : Stored S base offset t s)
include hR ht

end Images

section Entries

variable {S : SimdTarget T} {c : Codec α T.size} {t h : TensorImpl T} {m m' : Memory}

end Entries

section Observations

variable {R : Runtime T} {S : SimdTarget T} {c : Codec α T.size} {t u : TensorImpl T}
  {base offset baseRhs offsetRhs : Nat} {s : State}

end Observations

section Matrices

variable {R : Runtime T} {S : SimdTarget T} {c : Codec α T.size} {t : TensorImpl T}
  {base offset : Nat} {s : State} {F : Numeric α}

/-- The entries that `at(i, j)` names. -/
def entry (c : Codec α T.size) (m : Memory) (t : TensorImpl T) (i j : Nat) : α :=
  t.readAt c m [i, j]

variable (hR : R.Serves) (ht : Stored S base offset t s)
  (hne : square t = true → t.numel = 0 → t.dimension 0 = 0)
include hR ht hne

end Matrices

end Staging

namespace ComparisonWitness

open Staging StagingWitness Sample

/-- Four bytes, compared and added apart. -/
def lanes : Numeric (Fin 4 → UInt8) where
  zero _ := 0
  one _ := 1
  epsilon _ := 1
  neg x k := -x k
  fabs x := x
  add x y k := x k + y k
  sub x y k := x k - y k
  eq x y := decide (x = y)
  lt x y := decide (∀ k, x k < y k)
  le x y := decide (∀ k, x k ≤ y k)

/-- Every byte of every memory is one. -/
def ones : State := { state with memory := fun _ _ => 1 }

/-- The owner of all seven floats. -/
def whole : TensorImpl float :=
  TensorImpl.recompute fourLanes (.bare false ⟨4096, 7, .cuda, 0⟩ [⟨7, 1⟩])

end ComparisonWitness

end Vectorization
