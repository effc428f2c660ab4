/-
Tensors constructed from expressions.  The new owner lies where the operands lie, has their
broadcast shape packed in a fresh allocation, and holds the values of the expression; nothing
else changes.
-/
import Vectorization.AtomicAssignment
import Vectorization.Construct

namespace Vectorization

open StridedSpace MachineInteger ByteMemory AtomicRun

variable {T : ElementType} {α : Type}

section Packed

variable {s : StridedRef T}

/-- A packed layout reaches no further than its elements do. -/
theorem StridedRef.Described.extent_lt (h : s.Described) (hcontig : s.contiguous = true)
    (hnonneg : ∀ a ∈ s.dims, 0 ≤ a.stride) (hne : s.numel ≠ 0) :
    extent (natAxes s.dims) < s.numel := by
  have hprod : (StridedSpace.sizes s.dims).prod ≠ 0 := h.numel_eq ▸ hne
  have hpos := size_ne_zero_of_prod hprod
  have hpos' : ∀ a ∈ natAxes s.dims, a.size ≠ 0 := by
    intro a ha
    obtain ⟨d, hd, rfl⟩ := List.mem_map.1 ha
    exact hpos d hd
  obtain ⟨idx, hidx, hdot⟩ := exists_dot_eq_extent hpos'
  rw [natAxes_sizes] at hidx
  have hflat := dot_of_isPacked (h.packed hcontig hne) hpos hidx
  rw [dot_eq_natAxes hnonneg, hdot] at hflat
  rw [Int.natCast_inj.1 hflat, h.numel_eq]
  exact flatten_lt hidx

/-- A packed layout over an object with room for its elements is backed. -/
theorem StridedRef.Described.backed (h : s.Described) (hcontig : s.contiguous = true)
    (hnonneg : ∀ a ∈ s.dims, 0 ≤ a.stride)
    (hobject : ((s.numel * T.size : Nat) : Int) ≤ int64Max)
    (hfits : s.data + s.numel * T.size < 2 ^ 64) (hdata : s.numel ≠ 0 → s.data ≠ 0) :
    s.Backed := by
  have hspan : s.numel ≠ 0 → (extent (natAxes s.dims) + 1) * T.size ≤ s.numel * T.size :=
    fun hne => Nat.mul_le_mul_right _ (h.extent_lt hcontig hnonneg hne)
  refine ⟨h, fun hne => ⟨⟨h.numel_eq, hnonneg, fun _ => ?_⟩, fun _ => ?_⟩, hdata⟩
  · exact Nat.lt_of_le_of_lt (Nat.add_le_add_left (hspan hne) _) hfits
  · exact le_trans (Int.ofNat_le.2 (hspan hne)) hobject

/-- The elements of a packed layout lie in its object. -/
theorem StridedRef.Described.region_subset (h : s.Described) (hcontig : s.contiguous = true) :
    s.region ⊆ {x : Int | s.data ≤ x ∧ x < s.data + (s.numel * T.size : Nat)} := by
  rintro x ⟨idx, hidx, hlo, hhi⟩
  rw [h.address_eq hcontig hidx] at hlo hhi
  have hlt := flatten_lt hidx
  have hstep : (flatten s.sizes idx + 1) * T.size ≤ s.numel * T.size := by
    rw [h.numel_eq]
    exact Nat.mul_le_mul_right _ hlt
  rw [Nat.add_mul, Nat.one_mul] at hstep
  push_cast at hlo hhi ⊢
  zify at hstep
  constructor
  · exact le_trans (Int.le_add_of_nonneg_right (by positivity)) hlo
  · omega

end Packed

/-- What allocators promise of a block for `total` elements: it is one object of the address
space, and none of the operands lies in it. -/
structure Allocated (base total : Nat) (leaves : List (Leaf T)) : Prop where
  object : ((total * T.size : Nat) : Int) ≤ int64Max
  fits : base + total * T.size < 2 ^ 64
  base_ne : total ≠ 0 → base ≠ 0
  fresh : ∀ l ∈ leaves,
    Disjoint l.toRef.region {x : Int | base ≤ x ∧ x < base + (total * T.size : Nat)}

section Construct

variable {b : Build T} {c : Codec α T.size} {e : Expr (Leaf T) α} {t : TensorImpl T}
  {m m' : Memory}

/-- An owner of a checked shape over a block with room for it is sound. -/
theorem sound_of_setShape {S : SimdTarget T} {base : Nat} {device : DeviceEnum} {index : Int}
    {shape : List Nat} {dims : List Dim} {leaves : List (Leaf T)}
    (hdims : setShape shape = .ok dims) (hblock : Allocated base shape.prod leaves) :
    (TensorImpl.recompute S (.bare false ⟨base, shape.prod, device, index⟩ dims)).Sound S := by
  obtain ⟨total, -, hsas⟩ := exceptBind_ok.1 hdims
  obtain ⟨hshape, -, hnonneg⟩ := makeContiguousSas_ok hsas
  obtain ⟨base_le, hfits, hbase, -⟩ := hblock
  generalize ht : TensorImpl.recompute S (.bare false ⟨base, shape.prod, device, index⟩ dims) = t
  have hcached : t.Cached S := ht ▸ TensorImpl.recompute_cached S _
  have hdimsEq : t.sizesAndStrides = dims := by
    rw [← ht, TensorImpl.recompute_sizesAndStrides]
    rfl
  have hcontig : t.contiguous = true := by
    rw [← ht]
    exact TensorImpl.recompute_contiguous _ hshape
  have hsizes : t.sizes = shape.map Nat.cast := by
    rw [TensorImpl.sizes, hdimsEq, hshape, contiguousDims_sizes]
  have hstrided := t.strided_sizes hsizes
  have hdata : t.strided.data = base := by
    rw [← ht, TensorImpl.strided, StridedRef.data, TensorImpl.recompute_view]
    rfl
  have hint : (t.strided.sizes.prod : Int) ≤ int64Max := by
    rw [hstrided]
    refine le_trans (Int.ofNat_le.2 ?_) base_le
    exact Nat.le_mul_of_pos_right _ T.size_pos
  have hdesc := hcached.strided_described (TensorImpl.sizes_nonneg hsizes) hint
  have hnumel : t.strided.numel = shape.prod := hstrided ▸ hdesc.numel_eq
  refine ⟨hcached, fun _ => hcontig, hdesc.backed hcontig ?_ ?_ ?_ ?_⟩
  · intro a ha
    obtain ⟨d, hd, rfl⟩ := List.mem_map.1 ha
    rw [hdimsEq] at hd
    exact hnonneg d hd
  · rw [hnumel]
    exact base_le
  · rw [hnumel, hdata]
    exact hfits
  · rw [hnumel, hdata]
    exact hbase

/-- What a construction that returns has checked, and what it stored. -/
theorem initFromExpression_cases (h : initFromExpression b c e m = .ok t m') :
    ∃ place shape base dims ops, accumulateExpressionPlacement e none = .ok place ∧
      expressionResultShape e = .ok shape ∧
      b.heap.allocate shape.prod (place.getD (.cpu, 0)).1 (place.getD (.cpu, 0)).2 =
        .ok base ∧
      setShape shape = .ok dims ∧
      t = TensorImpl.recompute b.simd (.bare false
        ⟨base, shape.prod, (place.getD (.cpu, 0)).1, (place.getD (.cpu, 0)).2⟩ dims) ∧
      runLowered b.simd b.threads c e t = .ok ops ∧ m' = run c ops m := by
  obtain ⟨place, hplace, h⟩ := raising_bind_ok.1 h
  dsimp only at h
  obtain ⟨shape, hshape, h⟩ := raising_bind_ok.1 h
  obtain ⟨total, htotal, h⟩ := raising_bind_ok.1 h
  obtain ⟨rfl, -⟩ := computeTotal_ok htotal
  obtain ⟨base, hbase, h⟩ := raising_bind_ok.1 h
  obtain ⟨dims, hdims, h⟩ := raising_bind_ok.1 h
  obtain ⟨ops, hops, h⟩ := raising_bind_ok.1 h
  obtain ⟨_, s, hs, h⟩ := bind_ok.1 h
  cases hs
  cases h
  exact ⟨place, shape, base, dims, ops, hplace, hshape, hbase, hdims, rfl, hops, rfl⟩

/-- A tensor constructed from an expression is a sound, packed owner of its broadcast shape,
where its operands are; it holds the values of the expression, and no byte outside its own
block has changed, those of the operands included.  SIMD operations are lane-wise. -/
theorem initFromExpression_evaluates (hlanes : e.LaneWise)
    (hheap : ∀ total device index base, b.heap.allocate total device index = .ok base →
      Allocated base total e.leaves)
    (hleaves : ∀ l ∈ e.leaves, l.toRef.Backed)
    (h : initFromExpression b c e m = .ok t m') :
    t.isView = false ∧ t.contiguous = true ∧ t.Sound b.simd ∧
      expressionResultShape e = .ok t.strided.sizes ∧
      (∀ l ∈ e.leaves, l.device = t.device ∧ l.deviceIndex = t.deviceIndex) ∧
      (∀ idx, InBounds idx t.strided.sizes →
        load c m' (t.strided.address idx) = logicalValue c m e idx ∧
          logicalValue c m' e idx = logicalValue c m e idx) ∧
      ∀ x : Int, ¬ (t.data ≤ x ∧ x < t.data + (t.numel * T.size : Nat)) → m' x = m x := by
  obtain ⟨place, shape, base, dims, ops, hplace, hshape, hbase, hdims, ht, hops, rfl⟩ :=
    initFromExpression_cases h
  have hblock := hheap _ _ _ _ hbase
  have hsound : t.Sound b.simd := ht ▸ sound_of_setShape hdims hblock
  have hview : t.view = ⟨base, shape.prod, (place.getD (.cpu, 0)).1, (place.getD (.cpu, 0)).2⟩ := by
    rw [ht, TensorImpl.recompute_view]
    rfl
  have howner : t.isView = false := by
    rw [ht, TensorImpl.recompute_isView]
    rfl
  have hcontig := hsound.packed howner
  obtain ⟨shape', hshape', hsizes, -⟩ := runLowered_cases hops
  rw [hshape, Except.ok.injEq] at hshape'
  subst hshape'
  have hstrided := t.strided_sizes hsizes
  have hdesc := hsound.backed.toDescribed
  have hnumel : t.numel = shape.prod := hstrided ▸ hdesc.numel_eq
  have hdata : t.data = base := by rw [TensorImpl.data, hview]
  have hregion := hdesc.region_subset hcontig
  have hfresh : ∀ l ∈ e.leaves, Disjoint l.toRef.region t.strided.region := by
    intro l hl
    have hblock' : t.strided.region ⊆
        {x : Int | base ≤ x ∧ x < base + (shape.prod * T.size : Nat)} := by
      rw [← hdata, ← hnumel]
      exact hregion
    exact (hblock.fresh l hl).mono_right hblock'
  have hinj : t.numel ≠ 0 → Vectorization.isNonOverlapping t.strided = true := fun hne =>
    hdesc.isNonOverlapping (hsound.backed.stored hne).toAddressable hcontig
  have hsnap := runLowered_holdsSnapshot hlanes hsound hinj hleaves
    (fun l hl => Or.inl (hfresh l hl)) hops m
  have hfit := expressionResultShape_fits hshape
  refine ⟨howner, hcontig, hsound, by rw [hshape, hstrided], fun l hl => ?_, fun idx hidx => ?_,
    fun x hx => ?_⟩
  · have hall := (accumulateExpressionPlacement_spec hplace).1 l hl
    rw [TensorImpl.device, TensorImpl.deviceIndex, hview, hall]
    exact ⟨rfl, rfl⟩
  · refine ⟨hsnap.load hidx, Expr.evaluate_congr fun l hl => ?_⟩
    apply load_congr
    intro x hx
    apply hsnap.frame
    apply Set.disjoint_left.1 (hfresh l hl)
    exact ⟨_, (hfit l hl).inBounds (hstrided ▸ hidx), hx⟩
  · exact hsnap.frame fun hmem => hx (hregion hmem)

end Construct

namespace ExpressionConstructWitness

open Sample InPlaceAssignmentWitness

/-- An allocator with one block, far from the operands. -/
def oneBlock : Heap float where
  allocate total _ _ := if total ≤ 64 then .ok 65536 else .error (.external "std::bad_alloc")
  copyDevice _ _ m := .ok m

def build : Build float := { release with heap := oneBlock }

theorem leaf_backed : ∀ l ∈ shifted.tree.leaves, l.toRef.Backed := by
  intro l hl
  rcases List.mem_cons.1 hl with rfl | hl
  · exact table_sound.backed
  · obtain rfl := List.mem_singleton.1 hl
    exact offsets_backed

theorem region_below {s : StridedRef float} (h : s.Backed) (hne : s.numel ≠ 0)
    (hlt : s.data + (extent (natAxes s.dims) + 1) * float.size ≤ 65536) {x : Int}
    (hx : x ∈ s.region) : x < 65536 := by
  obtain ⟨idx, hidx, -, hhi⟩ := hx
  have hnonneg := (h.stored hne).stride_nonneg
  have hdot : dot s.dims idx ≤ extent (natAxes s.dims) := by
    rw [dot_eq_natAxes hnonneg]
    exact Int.ofNat_le.2 (dot_le_extent (by rwa [natAxes_sizes]))
  rw [StridedRef.address] at hhi
  change x < (s.data : Int) + dot s.dims idx * (4 : Nat) + (4 : Nat) at hhi
  change s.data + (extent (natAxes s.dims) + 1) * 4 ≤ 65536 at hlt
  omega

theorem oneBlock_allocated : ∀ total device index base,
    oneBlock.allocate total device index = .ok base →
      Allocated base total shifted.tree.leaves := by
  intro total device index base h
  change (if total ≤ 64 then Except.ok 65536 else _) = Except.ok base at h
  split at h <;> rename_i hle
  · cases h
    have hsize : float.size = 4 := rfl
    refine ⟨?_, ?_, by omega, fun l hl => Set.disjoint_left.2 fun x hx hblock => ?_⟩
    · rw [hsize]
      unfold int64Max
      omega
    · rw [hsize]
      omega
    · have hlt : x < 65536 := by
        rcases List.mem_cons.1 hl with rfl | hl
        · exact region_below table_sound.backed (by decide) (by decide) hx
        · obtain rfl := List.mem_singleton.1 hl
          exact region_below offsets_backed (by decide) (by decide) hx
      exact absurd hblock.1 (not_le.2 hlt)
  · cases h

theorem initFromExpression_evaluates_shifted : ∃ t m',
    initFromExpression build (Codec.bytes 4) shifted.tree (fun _ => 1) = .ok t m' ∧
      load (Codec.bytes 4) m' (t.strided.address [2, 1]) = fun _ => 2 := by
  obtain ⟨t, m', hrun, hin⟩ : ∃ t m',
      initFromExpression build (Codec.bytes 4) shifted.tree (fun _ => 1) = .ok t m' ∧
        InBounds [2, 1] t.strided.sizes := ⟨_, _, rfl, by decide⟩
  obtain ⟨-, -, -, -, -, hvalues, -⟩ :=
    initFromExpression_evaluates shifted_laneWise oneBlock_allocated leaf_backed hrun
  exact ⟨t, m', hrun, (hvalues [2, 1] hin).1.trans rfl⟩

end ExpressionConstructWitness

end Vectorization
