/-
View and reshape.  Strides are found exactly where some exist, for the shapes whose
products stay in range, and every flat index of the result reads the element that the
source has there, whether the result shares the storage or is a packed copy.
-/
import Vectorization.LogicalGather
import Vectorization.ViewCompatibility

namespace Vectorization

open StridedSpace MachineInteger ByteMemory AtomicRun

variable {T : ElementType} {α : Type}

/-- `operator[](k)`. -/
def TensorImpl.readFlat (c : Codec α T.size) (m : Memory) (t : TensorImpl T) (k : Nat) : α :=
  load c m (t.data + t.logicalOffset k * T.size)

/-- `compute_view_strides` decides whether strides for the shape exist, those it finds
are such strides, and `view` and `reshape` keep every element. -/
structure TensorImpl.ReshapesExactly (b : Build T) (c : Codec α T.size) (t : TensorImpl T)
    (newDims : List Nat) : Prop where
  decides : (∃ dims, t.computeViewStrides newDims = .ok (some dims)) ↔
    ∃ dims, t.ViewsAs newDims dims
  sound : ∀ dims, t.computeViewStrides newDims = .ok (some dims) → t.ViewsAs newDims dims
  view : ∀ r, t.viewAs b.simd newDims = .ok r → ∀ m, ∀ k < t.numel,
    r.readFlat c m k = t.readFlat c m k
  reshape : ∀ m r m', Vectorization.reshape b c newDims t m = .ok r m' → ∀ k < t.numel,
    r.readFlat c m' k = t.readFlat c m k ∧ t.readFlat c m' k = t.readFlat c m k

section Flat

/-- Where the contiguity loop succeeds, the layout is packed from its first stride on. -/
theorem decode_of_contiguousLoop {dims : List Dim} {expected : Int}
    (h : contiguousLoop dims expected = true) (i : Nat) :
    decode (residues dims) i = (i % elementCount dims) • (expected : Offset) := by
  induction dims generalizing expected i with
  | nil => rw [elementCount_nil, Nat.mod_one, zero_smul]; rfl
  | cons d dims ih =>
      rw [residues_cons, elementCount_cons]
      rcases contiguousLoop_cons h with ⟨hone, h⟩ | ⟨-, hstride, h⟩
      · have hunit : toU64 d.size = 1 := by
          rw [hone]
          rfl
        rw [decode_cons_one hunit, ih h, hunit, Nat.one_mul]
      · rw [decode, ih h, Nat.mod_mul, Dim.residue, hstride, intCast_wrapI64, Int.cast_mul,
          ← natCast_toU64 d.size]
        simp only [nsmul_eq_mul, Nat.cast_add, Nat.cast_mul]
        ring

variable {S : SimdTarget T} {t : TensorImpl T}

/-- The shortcut of `logical_offset` for contiguous tensors agrees with its loop. -/
theorem TensorImpl.Windowed.logicalOffset_eq (h : t.Windowed S) {k : Nat} (hk : k < t.numel) :
    t.logicalOffset k = logicalOffsetLoop t.sizesAndStrides.reverse 0 k := by
  rw [logicalOffset]
  split <;> rename_i hcontig
  · have hlt := h.count_lt
    rw [h.numel_eq] at hk
    have hne := Nat.ne_of_gt (Nat.zero_lt_of_lt hk)
    have hcontig' : (t.recompute S).contiguous = true := by rw [h.cached]; exact hcontig
    have hloop := contiguousLoop_of_recompute hlt hne hcontig'
    have hperm := List.reverse_perm t.sizesAndStrides
    have hpos : ∀ d ∈ t.sizesAndStrides.reverse, toU64 d.size ≠ 0 := fun d hd =>
      size_ne_zero_of_numel hne d (List.mem_reverse.1 hd)
    rw [← natCast_offset_inj (hk.trans hlt) (logicalOffsetLoop_lt (by norm_num) k),
      logicalOffsetLoop_residue hpos, decode_of_contiguousLoop hloop, elementCount_perm hperm,
      Nat.mod_eq_of_lt hk]
    simp
  · rfl

/-- A readable tensor is what the retaining constructor makes of its parts. -/
theorem TensorImpl.Readable.retained (h : t.Readable S) :
    retain S t.isView t.view t.sizesAndStrides = .ok t := by
  have hrec : TensorImpl.recompute S { TensorImpl.bare t.isView t.view t.sizesAndStrides with
      numel := elementCount t.sizesAndStrides } = t := by
    conv_rhs => rw [← h.cached]
    rfl
  rw [retain, h.valid.counted]
  dsimp only [bind, Except.bind]
  rw [h.valid.geometry]
  exact congrArg Except.ok hrec

theorem TensorImpl.Readable.windowed (h : t.Readable S) : t.Windowed S :=
  retain_windowed h.retained

end Flat

section Reshape

variable {b : Build T} {c : Codec α T.size} {t : TensorImpl T} {newDims : List Nat}

/-- A retained view with strides for the shape reads what the source reads. -/
theorem TensorImpl.ViewsAs.readFlat_eq {S : SimdTarget T} {isView : Bool} {dims : List Dim}
    {r : TensorImpl T} (h : t.ViewsAs newDims dims) (hcount : newDims.prod = t.numel)
    (hr : retain S isView t.view dims = .ok r) (m : Memory) {k : Nat} (hk : k < t.numel) :
    r.readFlat c m k = t.readFlat c m k := by
  obtain ⟨hdims, hview, -⟩ := retain_ok hr
  have hwindowed := retain_windowed hr
  have hnumel : r.numel = t.numel := by
    rw [hwindowed.numel_eq, hdims, elementCount, map_toU64_of_stored h.sizes h.storable, hcount]
  rw [readFlat, readFlat, hwindowed.logicalOffset_eq (hnumel ▸ hk), hdims, h.offset k hk, data,
    data, hview]

variable (hread : t.Readable b.simd) (hne : t.numel ≠ 0) (hcount : newDims.prod = t.numel)
include hread hne hcount

/-- `view` reads what its source reads. -/
theorem TensorImpl.Readable.viewAs_readFlat {r : TensorImpl T}
    (h : t.viewAs b.simd newDims = .ok r) (m : Memory) {k : Nat} (hk : k < t.numel) :
    r.readFlat c m k = t.readFlat c m k := by
  obtain ⟨-, dims, hstrides, h⟩ := viewAs_ok h
  exact (hread.viewsAs_of_computeViewStrides hne hcount hstrides).readFlat_eq hcount h m hk

/-- `reshape` reads what its source read, which reads the same afterwards. -/
theorem TensorImpl.Readable.reshape_readFlat (hheap : b.heap.Serves c t) {r : TensorImpl T}
    {m m' : Memory} (h : Vectorization.reshape b c newDims t m = .ok r m') {k : Nat}
    (hk : k < t.numel) :
    r.readFlat c m' k = t.readFlat c m k ∧ t.readFlat c m' k = t.readFlat c m k := by
  rw [Vectorization.reshape, raising_bind_ok] at h
  obtain ⟨total, -, h⟩ := h
  dsimp only at h
  split at h
  · cases h
  obtain ⟨strides, hstrides, h⟩ := raising_bind_ok.1 h
  cases strides with
  | some dims =>
      obtain ⟨hr, rfl⟩ := raising_ok.1 h
      have hviews := hread.viewsAs_of_computeViewStrides hne hcount hstrides
      exact ⟨hviews.readFlat_eq hcount hr _ hk, rfl⟩
  | none =>
      obtain ⟨packed, s, hclone, h⟩ := bind_ok.1 h
      obtain ⟨shape, hshape, h⟩ := raising_bind_ok.1 h
      cases h
      obtain ⟨hshape, -⟩ := setShape_ok hshape
      obtain ⟨hcopied, hkept⟩ := clone_load c hread.windowed hheap (hread.size_pos hne) hclone k hk
      have hcontig : (shareFrom b.simd (TensorImpl.recompute b.simd
          { packed with sizesAndStrides := shape })).contiguous = true := by
        refine TensorImpl.recompute_contiguous (newDims.map Nat.cast) ?_
        rw [← hshape]
        exact TensorImpl.recompute_sizesAndStrides
      have hdata : (shareFrom b.simd (TensorImpl.recompute b.simd
          { packed with sizesAndStrides := shape })).data = packed.data := by
        rw [shareFrom, TensorImpl.data, TensorImpl.recompute_view]
        exact congrArg DataView.data TensorImpl.recompute_view
      refine ⟨?_, hkept⟩
      rw [TensorImpl.readFlat, TensorImpl.logicalOffset, if_pos hcontig, hdata]
      exact hcopied

/-- View and reshape are exact for exactly the shapes whose products stay in range. -/
theorem TensorImpl.Readable.reshapesExactly_iff (hheap : b.heap.Serves c t) :
    t.ReshapesExactly b c newDims ↔ t.ViewInRange newDims := by
  rw [← hread.computeViewStrides_complete_iff hne hcount]
  refine ⟨fun h => h.decides, fun h => ⟨h, fun dims => ?_, fun r hr m k hk => ?_,
    fun m r m' hr k hk => ?_⟩⟩
  · exact hread.viewsAs_of_computeViewStrides hne hcount
  · exact hread.viewAs_readFlat hne hcount hr m hk
  · exact hread.reshape_readFlat hne hcount hheap hr hk

end Reshape

namespace ReshapeWitness

open Sample

/-- A build whose allocations start at one megabyte. -/
def build : Build float where
  simd := fourLanes
  threads := twoThreads
  ndebug := true
  heap := ⟨fun _ _ _ => .ok 1048576, fun _ _ _ => .error (.external "no device")⟩

theorem serves {t : TensorImpl float} (h : t.data + t.view.size * float.size ≤ 1048576) :
    build.heap.Serves (Codec.bytes 4) t := by
  refine ⟨fun hbase => ?_, fun _ h => (nomatch h)⟩
  cases hbase
  exact .inr h

/-- The first four of six columns. -/
def columns : TensorImpl float :=
  TensorImpl.recompute fourLanes (.bare true ⟨4096, 24, .cpu, 0⟩ [⟨4, 6⟩, ⟨4, 1⟩])

theorem columns_readable : columns.Readable fourLanes :=
  ⟨TensorImpl.recompute_cached _ _, ⟨by decide, rfl, rfl⟩, by decide⟩

/-- The rows can be split without a copy; joined, they are packed at one megabyte. -/
theorem reshapesExactly_iff_columns :
    columns.ReshapesExactly build (Codec.bytes 4) [2, 2, 4] ∧
      ∀ m, ∃ r m', reshape build (Codec.bytes 4) [16] columns m = .ok r m' ∧
        r.data = 1048576 ∧
        ∀ k < 16, r.readFlat (Codec.bytes 4) m' k = columns.readFlat (Codec.bytes 4) m k := by
  have hexact {newDims : List Nat} (hcount : newDims.prod = columns.numel) :
      columns.ReshapesExactly build (Codec.bytes 4) newDims := by
    refine (columns_readable.reshapesExactly_iff (b := build) (by decide) hcount
      (serves (by decide))).2 fun _ => ?_
    rw [if_neg (by decide)]
    exact fun _ => by decide
  refine ⟨hexact (by decide), fun m => ?_⟩
  have hpacked := (hexact (show [16].prod = columns.numel by decide)).reshape m
  obtain ⟨r, m', hrun, hdata⟩ : ∃ r m',
      reshape build (Codec.bytes 4) [16] columns m = .ok r m' ∧ r.data = 1048576 :=
    ⟨_, _, rfl, rfl⟩
  exact ⟨r, m', hrun, hdata, fun k hk => (hpacked r m' hrun k hk).1⟩

/-- One element, expanded to more than a signed count holds. -/
def expanded : TensorImpl float :=
  TensorImpl.recompute fourLanes
    (.bare true ⟨4096, 1, .cpu, 0⟩ [⟨4611686018427387904, 0⟩, ⟨3, 0⟩])

theorem expanded_readable : expanded.Readable fourLanes :=
  ⟨TensorImpl.recompute_cached _ _, ⟨by decide, rfl, rfl⟩, by decide⟩

/-- The signed count of the one chunk wraps around: not even the tensor's own shape is
found to be a view of it. -/
theorem reshapesExactly_expanded :
    ¬ ∀ (t : TensorImpl float) (newDims : List Nat), t.Readable fourLanes → t.numel ≠ 0 →
      newDims.prod = t.numel → build.heap.Serves (Codec.bytes 4) t →
      t.ReshapesExactly build (Codec.bytes 4) newDims := by
  intro h
  have hexact := h expanded [4611686018427387904, 3] expanded_readable (by decide) (by decide)
    (serves (by decide))
  have hviews : expanded.ViewsAs [4611686018427387904, 3] expanded.sizesAndStrides :=
    ⟨rfl, by decide, fun _ _ => rfl⟩
  obtain ⟨dims, hdims⟩ := hexact.decides.2 ⟨_, hviews⟩
  have hnone : expanded.computeViewStrides [4611686018427387904, 3] = .ok none := by decide
  rw [hnone] at hdims
  cases hdims

end ReshapeWitness

end Vectorization
