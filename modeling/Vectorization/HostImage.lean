/-
Host images.  The predicates of a tensor read it on the host, from a packed copy where it
lies on a device.  What they answer depends on the shape and on the elements alone, not on
the layout, the window or the device, and what was in use stays as it was.
-/
import Vectorization.Staging

namespace Vectorization

open StridedSpace MachineInteger ByteMemory AtomicRun Outcome

variable {T : ElementType} {α : Type}

section Access

variable {S : SimdTarget T} {t u : TensorImpl T}

/-- `dimension(n)`. -/
def TensorImpl.dimension (t : TensorImpl T) (n : Nat) : Nat := t.shape.getD n 0

/-- `stride(n)` as an unsigned value. -/
def TensorImpl.unsignedStride (t : TensorImpl T) (n : Nat) : Nat :=
  (t.sizesAndStrides.map fun d => toU64 d.stride).getD n 0

/-- `at(i, j)`. -/
def TensorImpl.readEntry (c : Codec α T.size) (m : Memory) (t : TensorImpl T) (i j : Nat) : α :=
  load c m (t.data + wrapU64 (i * t.unsignedStride 0 + j * t.unsignedStride 1) * T.size)

end Access

namespace Staging

/-- What was in use is as it was, and `news` came into use apart from it. -/
structure Grows (news : List Allocation) (s s' : State) : Prop where
  live : s'.live = news ++ s.live
  fresh : ∀ n ∈ news, ∀ a ∈ s.live, n.Apart a
  memory : ∀ a ∈ s.live, ∀ x, a.Holds x → s'.memory a.place x = s.memory a.place x

section Growth

variable {news news' : List Allocation} {s s₁ s' : State}

theorem Grows.refl (s : State) : Grows [] s s :=
  ⟨rfl, fun _ hn => absurd hn List.not_mem_nil, fun _ _ _ _ => rfl⟩

theorem Grows.mem (h : Grows news s s') {a : Allocation} (ha : a ∈ s.live) : a ∈ s'.live := by
  rw [h.live]
  exact List.mem_append_right news ha

/-- A buffer that came into use and went out of it again. -/
theorem Grows.erase {n : Allocation} (h : Grows [n] s s₁) (h' : Grows [] s₁ s') :
    Grows [] s { s' with live := s'.live.erase n } := by
  refine ⟨?_, fun _ hn => absurd hn List.not_mem_nil, ?_⟩
  · show s'.live.erase n = s.live
    rw [h'.live, h.live, List.nil_append, List.cons_append, List.erase_cons_head, List.nil_append]
  · intro a ha x hx
    exact (h'.memory a (h.mem ha) x hx).trans (h.memory a ha x hx)

variable {S : SimdTarget T} {t : TensorImpl T} {base offset : Nat}

theorem Stored.of_grows (ht : Stored S base offset t s) (h : Grows news s s') :
    Stored S base offset t s' :=
  ⟨ht.windowed, ht.sizes, ht.rank, ht.data, h.mem ht.live⟩

end Growth

section Owners

variable {R : Runtime T} {S : SimdTarget T} {c : Codec α T.size} {t : TensorImpl T}
  {base offset : Nat} {s : State}

/-- The result is an owner: a packed copy of the tensor in an allocation of its own. -/
structure Copies (S : SimdTarget T) (c : Codec α T.size) (p : Place) (t : TensorImpl T)
    (s : State) (r : TensorImpl T) (s' : State) : Prop extends Packs S c t s r s' where
  isView : r.isView = false
  place_eq : place r = p
  size_eq : r.view.size = t.numel
  stored : Stored S r.data 0 r s'
  grows : Grows [hit p r.data t] s s'

variable (hR : R.Serves) (ht : Stored S base offset t s)
include hR ht

end Owners

end Staging

end Vectorization
