/-
What evaluation into memory shall leave behind.  A destination holds the snapshot
of a tree when every logical element has the value the tree had before; stores
of the elements reach it when no leaf is overwritten before it is read.
-/
import Vectorization.ExpressionShape
import Vectorization.OverlapExact
import Vectorization.SimdTarget

namespace Vectorization

open StridedSpace MachineInteger ByteMemory

variable {T : ElementType} {α : Type} (c : Codec α T.size) {e : Expr (Leaf T) α}
  {dst : StridedRef T}

/-- A leaf that may be read while the destination is written: it shares no byte
with it, or maps every multi-index to the same element. -/
def AliasSafe (dst : StridedRef T) (l : Leaf T) : Prop :=
  Disjoint l.toRef.region dst.region ∨ (l.data = dst.data ∧ l.toRef.dims = dst.dims)

/-- What a leaf reads at a multi-index survives stores to the other elements. -/
theorem AliasSafe.load_eq {l : Leaf T} (h : AliasSafe dst l) {idx : List Nat}
    (hidx : InBounds idx dst.sizes) (hfit : BroadcastsTo l.toRef.sizes dst.sizes)
    {m m₀ : Memory}
    (hm : ∀ x, InCell T.size (dst.address idx) x ∨ x ∉ dst.region → m x = m₀ x) :
    load c m (l.readAddress idx) = load c m₀ (l.readAddress idx) := by
  refine load_congr c fun x hx => hm x ?_
  rcases h with hdisj | ⟨hdata, hdims⟩
  · refine Or.inr (Set.disjoint_left.1 hdisj ?_)
    exact ⟨_, hfit.inBounds hidx, hx⟩
  · refine Or.inl ?_
    have hself : broadcastIndex l.toRef.sizes idx = idx := by
      rw [StridedRef.sizes, hdims]
      exact broadcastIndex_self hidx
    rw [Leaf.readAddress, hself, StridedRef.address, hdims] at hx
    rw [StridedRef.address, ← hdata]
    exact hx

theorem logicalValue_congr (hsafe : ∀ l ∈ e.leaves, AliasSafe dst l) {idx : List Nat}
    (hidx : InBounds idx dst.sizes)
    (hfit : ∀ l ∈ e.leaves, BroadcastsTo l.toRef.sizes dst.sizes) {m m₀ : Memory}
    (hm : ∀ x, InCell T.size (dst.address idx) x ∨ x ∉ dst.region → m x = m₀ x) :
    logicalValue c m e idx = logicalValue c m₀ e idx :=
  Expr.evaluate_congr fun l hl => (hsafe l hl).load_eq c hidx (hfit l hl) hm

/-- The memory holds, at every multi-index of the destination, the value of the
tree in the memory before; bytes outside the destination are unchanged. -/
def HoldsSnapshot (c : Codec α T.size) (e : Expr (Leaf T) α) (dst : StridedRef T)
    (m₀ m : Memory) : Prop :=
  Written c m₀ m ((indices dst.sizes).map fun idx =>
    (dst.address idx, logicalValue c m₀ e idx))

theorem HoldsSnapshot.load {c : Codec α T.size} {m m₀ : Memory}
    (h : HoldsSnapshot c e dst m₀ m) {idx : List Nat} (hidx : InBounds idx dst.sizes) :
    load c m (dst.address idx) = logicalValue c m₀ e idx :=
  Written.load h (List.mem_map_of_mem (f := fun idx =>
    (dst.address idx, logicalValue c m₀ e idx)) (mem_indices.2 hidx))

theorem HoldsSnapshot.frame {c : Codec α T.size} {m m₀ : Memory}
    (h : HoldsSnapshot c e dst m₀ m) {x : Int} (hx : x ∉ dst.region) : m x = m₀ x := by
  refine Written.frame h x fun p hp hin => hx ?_
  obtain ⟨idx, hidx, rfl⟩ := List.mem_map.1 hp
  exact ⟨idx, mem_indices.1 hidx, hin⟩

/-- Distinct elements of an injective destination lie in cells apart. -/
theorem address_apart (hadr : dst.Addressable)
    (hinj : dst.numel ≠ 0 → isNonOverlapping dst = true) :
    (indices dst.sizes).Pairwise fun i j =>
      Apart T.size (dst.address i) (dst.address j) := by
  by_cases hne : dst.numel = 0
  · rw [hadr.numel_eq] at hne
    have hempty : indices dst.sizes = [] :=
      List.length_eq_zero_iff.1 (by rw [length_indices, hne])
    rw [hempty]
    exact List.Pairwise.nil
  · have hnodup := hadr.nodup_of_isNonOverlapping hne (hinj hne)
    refine (indices_nodup dst.sizes).imp_of_mem fun {i j} hi hj hij => apart_of_ne ?_
    exact fun h => hij (hadr.address_injective hnodup (mem_indices.1 hi)
      (mem_indices.1 hj) h)

theorem address_nodup (hadr : dst.Addressable)
    (hinj : dst.numel ≠ 0 → isNonOverlapping dst = true) :
    ((indices dst.sizes).map dst.address).Nodup := by
  refine List.pairwise_map.2 ((address_apart hadr hinj).imp fun {i j} h heq => ?_)
  have hT := T.size_pos
  unfold Apart at h
  omega

/-- Operations that store the elements of the destination leave the snapshot
when every leaf is safe to read meanwhile. -/
theorem holdsSnapshot_of_realizes {c : Codec α T.size} {ι : Type} {cell : ι → Int}
    {value : Memory → ι → α} {ops : List (StoreOp StoreKind α)} {groups : List (List ι)}
    (elementOf : List Nat → ι)
    (hreal : Realizes T.size cell value ops groups)
    (hflat : groups.flatten.Perm ((indices dst.sizes).map elementOf))
    (hcell : ∀ idx, InBounds idx dst.sizes → cell (elementOf idx) = dst.address idx)
    (hvalue : ∀ idx, InBounds idx dst.sizes → ∀ m,
      value m (elementOf idx) = logicalValue c m e idx)
    (hfit : ∀ l ∈ e.leaves, BroadcastsTo l.toRef.sizes dst.sizes)
    (hsafe : ∀ l ∈ e.leaves, AliasSafe dst l)
    (hap : (indices dst.sizes).Pairwise fun i j =>
      Apart T.size (dst.address i) (dst.address j)) (m₀ : Memory) :
    HoldsSnapshot c e dst m₀ (run c ops m₀) := by
  have hpairs : ((groups.flatten).map fun i => (cell i, value m₀ i)).Perm
      ((indices dst.sizes).map fun idx => (dst.address idx, logicalValue c m₀ e idx)) := by
    refine (hflat.map _).trans ?_
    rw [List.map_map]
    refine List.Perm.of_eq (List.map_congr_left fun idx hidx => ?_)
    have hidx := mem_indices.1 hidx
    rw [Function.comp_apply, hcell idx hidx, hvalue idx hidx]
  refine (hreal.run_written ?_ fun i hi m hm => ?_).perm hpairs
  · refine (hflat.pairwise_iff fun {_ _} h => h.symm).2 ?_
    rw [List.pairwise_map]
    refine hap.imp_of_mem fun {i j} hi hj h => ?_
    rwa [hcell i (mem_indices.1 hi), hcell j (mem_indices.1 hj)]
  · rw [hflat.mem_iff] at hi
    obtain ⟨idx, hidx, rfl⟩ := List.mem_map.1 hi
    have hidx := mem_indices.1 hidx
    rw [hvalue idx hidx, hvalue idx hidx]
    refine logicalValue_congr c hsafe hidx hfit fun x hx => hm x ?_
    rw [hcell idx hidx]
    refine hx.imp_right fun hx j hj hin => hx ?_
    rw [hflat.mem_iff] at hj
    obtain ⟨idx', hidx', rfl⟩ := List.mem_map.1 hj
    have hidx' := mem_indices.1 hidx'
    exact ⟨idx', hidx', hcell idx' hidx' ▸ hin⟩

end Vectorization
