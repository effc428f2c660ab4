/-
When a view of a new shape exists.  `compute_view_strides` is compared with the
strides that place every flat index where its source has it; the two agree unless a
chunk has more elements than a signed count holds.
-/
import Vectorization.ExpressionReduction
import Vectorization.ViewStrides

namespace Vectorization

open StridedSpace MachineInteger AtomicRun

variable {T : ElementType}

namespace TensorImpl

/-- The exact element counts of the chunks that are contiguous in memory, innermost
first. -/
def chunkCounts (t : TensorImpl T) : List Nat :=
  match t.sizesAndStrides.reverse with
  | [] => []
  | d :: dims => StridedSpace.sizes (viewChunks (d :: dims) d.stride 1)

/-- Strides for a new shape that place every flat index at the source's element. -/
structure ViewsAs (t : TensorImpl T) (newDims : List Nat) (dims : List Dim) : Prop where
  sizes : dims.map Dim.size = storedSizes newDims
  stored : ∀ d ∈ dims, InInt64 d.size ∧ InInt64 d.stride
  offset : ∀ k < t.numel, logicalOffsetLoop dims.reverse 0 k = t.logicalOffset k

/-- For a shape that can be stored, the products of the walk are 64-bit values: those
of the C-order strides of a contiguous tensor, or those of the chunks where the shape
splits them. -/
def ViewInRange (t : TensorImpl T) (newDims : List Nat) : Prop :=
  (∀ n ∈ newDims, (n : Int) ≤ int64Max) →
    if t.contiguous then (newDims.tail.prod : Int) ≤ int64Max
    else Splits t.chunkCounts newDims.reverse → ∀ n ∈ t.chunkCounts, (n : Int) ≤ int64Max

end TensorImpl

theorem TensorImpl.ViewsAs.storable {t : TensorImpl T} {newDims : List Nat} {dims : List Dim}
    (h : t.ViewsAs newDims dims) : ∀ n ∈ newDims, (n : Int) ≤ int64Max := by
  intro n hn
  have hmem : (n : Int) ∈ dims.map Dim.size := h.sizes ▸ List.mem_map_of_mem hn
  obtain ⟨d, hd, hsize⟩ := List.mem_map.1 hmem
  exact hsize ▸ (h.stored d hd).1.2

section Contiguous

theorem packedAxes_append_singleton {M : Type} [AddCommMonoid M] (s : M) (ns : List Nat)
    (n : Nat) : packedAxes s (ns ++ [n]) = packedAxes s ns ++ [⟨n, ns.prod • s⟩] := by
  induction ns generalizing s with
  | nil => rw [List.nil_append, packedAxes, List.prod_nil, one_smul]; rfl
  | cons m ns ih =>
      rw [List.cons_append, packedAxes, ih, packedAxes, List.prod_cons, Nat.mul_comm, mul_smul]
      rfl

theorem residues_contiguousDims_cons {n : Nat} {ns : List Nat}
    (h : ∀ m ∈ n :: ns, (m : Int) ≤ int64Max) :
    residues (contiguousDims (storedSizes (n :: ns))) =
      ⟨n, (ns.prod : Offset)⟩ :: residues (contiguousDims (storedSizes ns)) := by
  have hn := toU64_stored (h n List.mem_cons_self)
  induction ns generalizing n with
  | nil =>
      change [(⟨toU64 (n : Int), ((1 : Int) : Offset)⟩ : Axis Offset)] = _
      rw [hn, Int.cast_one, List.prod_nil, Nat.cast_one]
      rfl
  | cons m ns ih =>
      have h' := fun k hk => h k (List.mem_cons_of_mem n hk)
      have hrest := ih h' (toU64_stored (h' m List.mem_cons_self))
      rw [storedSizes, List.map_cons, contiguousDims]
      cases hdims : contiguousDims (storedSizes (m :: ns)) with
      | nil =>
          rw [hdims] at hrest
          cases hrest
      | cons d dims =>
          rw [hdims, residues_cons, List.cons.injEq, Dim.residue, Axis.mk.injEq] at hrest
          obtain ⟨⟨hsize, hstride⟩, hrest⟩ := hrest
          have hd : ((d.size : Int) : Offset) = (m : Offset) := by
            rw [← natCast_toU64, hsize]
          dsimp only
          rw [residues_cons, residues_cons, Dim.residue, hn, intCast_wrapI64, Int.cast_mul,
            hstride, hd, hrest, List.prod_cons, Nat.cast_mul, mul_comm]

/-- C-order strides are packed from one on. -/
theorem residues_contiguousDims {ns : List Nat} (h : ∀ n ∈ ns, (n : Int) ≤ int64Max) :
    residues (contiguousDims (storedSizes ns)).reverse = packedAxes 1 ns.reverse := by
  rw [residues, List.map_reverse]
  change (residues (contiguousDims (storedSizes ns))).reverse = _
  induction ns with
  | nil => rfl
  | cons n ns ih =>
      rw [residues_contiguousDims_cons h, List.reverse_cons, List.reverse_cons,
        packedAxes_append_singleton, ih fun m hm => h m (List.mem_cons_of_mem n hm),
        List.prod_reverse, nsmul_eq_mul, mul_one]

theorem inInt64_of_stored {dims : List Dim} {ns : List Nat}
    (hsizes : dims.map Dim.size = storedSizes ns) (hns : ∀ n ∈ ns, (n : Int) ≤ int64Max) :
    ∀ d ∈ dims, InInt64 d.size := by
  intro d hd
  obtain ⟨n, hn, hsize⟩ := List.mem_map.1 (hsizes ▸ List.mem_map_of_mem (f := Dim.size) hd)
  exact hsize ▸ stored_inInt64 (hns n hn)

theorem map_toU64_of_stored {dims : List Dim} {ns : List Nat}
    (hsizes : dims.map Dim.size = storedSizes ns) (hns : ∀ n ∈ ns, (n : Int) ≤ int64Max) :
    dims.map (fun d => toU64 d.size) = ns := by
  have hcomp : (fun d : Dim => toU64 d.size) = toU64 ∘ Dim.size := rfl
  rw [hcomp, ← List.map_map, hsizes, storedSizes, List.map_map]
  exact (List.map_congr_left fun n hn => toU64_stored (hns n hn)).trans (List.map_id ns)

theorem toU64_size_ne_zero_of_stored {dims : List Dim} {ns : List Nat}
    (hsizes : dims.map Dim.size = storedSizes ns) (hns : ∀ n ∈ ns, 0 < n)
    (hle : ∀ d ∈ dims, InInt64 d.size) : ∀ d ∈ dims, toU64 d.size ≠ 0 := by
  intro d hd
  obtain ⟨n, hn, hsize⟩ := List.mem_map.1 (hsizes ▸ List.mem_map_of_mem (f := Dim.size) hd)
  have := hns n hn
  exact toU64_size_ne_zero ⟨by omega, (hle d hd).2⟩

/-- Under C-order strides a flat index is its own offset. -/
theorem logicalOffsetLoop_contiguousDims {ns : List Nat} (hns : ∀ n ∈ ns, 0 < n)
    (h : ∀ n ∈ ns, (n : Int) ≤ int64Max) {k : Nat} (hk : k < ns.prod) (hfit : ns.prod < 2 ^ 64) :
    logicalOffsetLoop (contiguousDims (storedSizes ns)).reverse 0 k = k := by
  have hpos : ∀ d ∈ (contiguousDims (storedSizes ns)).reverse, toU64 d.size ≠ 0 := by
    have hmap := contiguousDims_sizes (storedSizes ns)
    exact fun d hd => toU64_size_ne_zero_of_stored hmap hns (inInt64_of_stored hmap h) d
      (List.mem_reverse.1 hd)
  rw [← natCast_offset_inj (logicalOffsetLoop_lt (by norm_num) k) (hk.trans hfit),
    logicalOffsetLoop_residue hpos, residues_contiguousDims h, decode_packedAxes,
    List.prod_reverse, Nat.mod_eq_of_lt hk, nsmul_eq_mul, mul_one, Nat.cast_zero, zero_add]

/-- The stride loop of `make_contiguous_sas` goes through when the largest stride can
be stored. -/
theorem contiguousStrides_eq {ns : List Nat} (h : ∀ n ∈ ns, 0 < n ∧ (n : Int) ≤ int64Max)
    (htail : (ns.tail.prod : Int) ≤ int64Max) :
    ∃ strides, contiguousStrides ns = .ok strides ∧ strides.headD 1 = (ns.tail.prod : Int) := by
  induction ns with
  | nil => exact ⟨[], rfl, rfl⟩
  | cons n ns ih =>
      cases ns with
      | nil => exact ⟨[1], rfl, rfl⟩
      | cons m ns =>
          have h' := fun k hk => h k (List.mem_cons_of_mem n hk)
          obtain ⟨hm, hmax⟩ := h' m List.mem_cons_self
          rw [List.tail_cons, List.prod_cons] at htail
          have hle : (ns.prod : Int) ≤ int64Max := by
            have := Nat.le_mul_of_pos_left ns.prod hm
            omega
          obtain ⟨strides, hstrides, hhead⟩ := ih h' hle
          rw [List.tail_cons] at hhead
          have hnext : checkedDimensionToStorage m = .ok (m : Int) := if_pos hmax
          have hroom : (m : Int) = 0 ∨ (ns.prod : Int) ≤ int64Max / m := by
            refine .inr ((Int.le_ediv_iff_mul_le (by omega)).2 ?_)
            rwa [mul_comm, ← Nat.cast_mul]
          refine ⟨ns.prod * m :: strides, ?_, ?_⟩
          · rw [contiguousStrides, hstrides, hnext]
            dsimp only [bind, Except.bind]
            rw [hhead, if_pos hroom]
            rfl
          · rw [List.headD_cons, List.tail_cons, List.prod_cons, Nat.cast_mul, mul_comm]

theorem mapM_checkedDimensionToStorage_eq {ns : List Nat} (h : ∀ n ∈ ns, (n : Int) ≤ int64Max) :
    ns.mapM checkedDimensionToStorage = .ok (storedSizes ns) := by
  induction ns with
  | nil => rfl
  | cons n ns ih =>
      have hn : checkedDimensionToStorage n = .ok (n : Int) := if_pos (h n List.mem_cons_self)
      rw [List.mapM_cons, hn, ih fun m hm => h m (List.mem_cons_of_mem n hm)]
      rfl

/-- C-order strides can be made exactly when the largest one can be stored. -/
theorem makeContiguousSas_iff {ns : List Nat} (h : ∀ n ∈ ns, 0 < n ∧ (n : Int) ≤ int64Max)
    (hfit : ns.prod < 2 ^ 64) :
    (∃ dims, makeContiguousSas ns = .ok dims) ↔ (ns.tail.prod : Int) ≤ int64Max := by
  constructor
  · rintro ⟨dims, hdims⟩
    obtain ⟨rfl, hle, hnonneg⟩ := makeContiguousSas_ok hdims
    cases ns with
    | nil => exact (show (1 : Int) ≤ int64Max by decide)
    | cons n ns =>
        have hlt : ns.prod < 2 ^ 64 := by
          rw [List.prod_cons] at hfit
          exact Nat.lt_of_le_of_lt (Nat.le_mul_of_pos_left _ (h n List.mem_cons_self).1) hfit
        have hrange := (contiguousLoop_contiguousDims (storedSizes (n :: ns))).2
        have hres := residues_contiguousDims_cons hle
        by_contra hlarge
        have hneg := wrapI64_natCast_neg (Int.not_le.1 hlarge) hlt
        cases hdims : contiguousDims (storedSizes (n :: ns)) with
        | nil =>
            rw [hdims] at hres
            cases hres
        | cons d dims =>
            rw [hdims] at hrange hres
            rw [residues_cons, List.cons.injEq, Dim.residue, Axis.mk.injEq] at hres
            have hd := hnonneg d (hdims ▸ List.mem_cons_self)
            have hstride : d.stride = wrapI64 ns.prod := by
              rw [← wrapI64_eq_self hrange.1, wrapI64_eq_iff, hres.1.2, Int.cast_natCast]
            rw [List.tail_cons, ← hstride] at hneg
            omega
  · intro htail
    obtain ⟨strides, hstrides, -⟩ := contiguousStrides_eq h htail
    exact ⟨_, exceptBind_ok.2 ⟨strides, hstrides, exceptBind_ok.2
      ⟨_, mapM_checkedDimensionToStorage_eq fun n hn => (h n hn).2, rfl⟩⟩⟩

end Contiguous

section Existence

variable {S : SimdTarget T} {t : TensorImpl T} {newDims : List Nat}

/-- Without dimensions a tensor is contiguous. -/
theorem TensorImpl.Cached.exists_reverse (h : t.Cached S) (hcontig : t.contiguous = false) :
    ∃ d dims, t.sizesAndStrides.reverse = d :: dims := by
  cases hdims : t.sizesAndStrides.reverse with
  | nil =>
      have hrank : t.rank = 0 := by
        rw [TensorImpl.rank, List.reverse_eq_nil_iff.1 hdims]
        rfl
      have hfield := congrArg TensorImpl.contiguous h
      rw [TensorImpl.recompute, if_pos hrank] at hfield
      rw [← hfield] at hcontig
      cases hcontig
  | cons d dims => exact ⟨d, dims, rfl⟩

theorem TensorImpl.computeViewStrides_strided (hne : t.numel ≠ 0) (hcontig : t.contiguous = false)
    (hstored : ∀ n ∈ newDims, (n : Int) ≤ int64Max) {d : Dim} {dims : List Dim}
    (hdims : t.sizesAndStrides.reverse = d :: dims) :
    t.computeViewStrides newDims = .ok
      ((viewStridesLoop (d :: dims) d.stride (wrapI64 (1 : Nat))
        (storedSizes newDims.reverse)).map List.reverse) := by
  have hrank : t.rank ≠ 0 := fun hzero => by
    rw [List.length_eq_zero_iff.1 hzero] at hdims
    cases hdims
  rw [TensorImpl.computeViewStrides, mapM_checkedDimensionToStorage_eq hstored]
  dsimp only [bind, Except.bind]
  rw [if_neg (by simp [hne, hrank, hcontig]), hdims, storedSizes]
  dsimp only
  rw [← List.map_reverse]
  rfl

namespace TensorImpl.Readable

variable (h : t.Readable S) (hne : t.numel ≠ 0) (hcount : newDims.prod = t.numel)
include h

theorem numel_eq_count : t.numel = elementCount t.sizesAndStrides := by
  rw [h.numel_eq, h.prod_eq]

theorem numel_lt : t.numel < 2 ^ 64 := by
  rw [h.numel_eq]
  exact h.prod_lt

include hne

theorem size_pos : ∀ d ∈ t.sizesAndStrides, 0 < d.size ∧ d.size ≤ int64Max := by
  intro d hd
  have hzero := size_ne_zero_of_numel (h.numel_eq_count ▸ hne) d hd
  obtain ⟨hnonneg, hmax⟩ := h.valid.sizes d hd
  rw [toU64_of_nonneg hnonneg hmax] at hzero
  exact ⟨by omega, hmax⟩

theorem stride_inInt64 : ∀ d ∈ t.sizesAndStrides, InInt64 d.stride := by
  intro d hd
  have := (checkViewGeometry_ok h.valid.geometry (h.numel_eq_count ▸ hne)).2.1 d hd
  exact ⟨le_trans (by decide) this, h.strides d hd⟩

omit h hne in
theorem computeViewStrides_contiguous (hcontig : t.contiguous = true) {dims : List Dim} :
    t.computeViewStrides newDims = .ok (some dims) ↔ makeContiguousSas newDims = .ok dims := by
  rw [TensorImpl.computeViewStrides, exceptBind_ok]
  constructor
  · rintro ⟨sizes, -, hok⟩
    rw [if_pos (.inr (.inr hcontig))] at hok
    obtain ⟨dims', hdims, hok⟩ := exceptBind_ok.1 hok
    cases hok
    exact hdims
  · intro hdims
    have hle := (makeContiguousSas_ok hdims).2.1
    refine ⟨_, mapM_checkedDimensionToStorage_eq hle, ?_⟩
    rw [if_pos (.inr (.inr hcontig)), hdims]
    rfl

/-- The dimensions of a tensor that is not contiguous, innermost first. -/
theorem exists_reverse (hcontig : t.contiguous = false) : ∃ d dims,
    t.sizesAndStrides.reverse = d :: dims ∧
      (∀ b ∈ d :: dims, 0 < b.size ∧ b.size ≤ int64Max) ∧
      (∀ b ∈ d :: dims, InInt64 b.stride) ∧ elementCount (d :: dims) = t.numel := by
  obtain ⟨d, dims, hdims⟩ := h.cached.exists_reverse hcontig
  have hmem : ∀ b ∈ d :: dims, b ∈ t.sizesAndStrides := fun b hb =>
    List.mem_reverse.1 (hdims ▸ hb)
  refine ⟨d, dims, hdims, fun b hb => h.size_pos hne b (hmem b hb),
    fun b hb => h.stride_inInt64 hne b (hmem b hb), ?_⟩
  rw [← hdims, elementCount_perm (List.reverse_perm _), h.numel_eq_count]

/-- The source's offsets are those of its chunks. -/
theorem logicalOffset_eq_iff (hcontig : t.contiguous = false) {d : Dim} {dims : List Dim}
    (hdims : t.sizesAndStrides.reverse = d :: dims) {out : List Dim}
    (hout : ∀ b ∈ out, toU64 b.size ≠ 0) (k : Nat) :
    logicalOffsetLoop out 0 k = t.logicalOffset k ↔
      decode (residues out) k =
        decode (chunkResidues (viewChunks (d :: dims) d.stride 1)) k := by
  have hpos : ∀ b ∈ d :: dims, toU64 b.size ≠ 0 := fun b hb =>
    toU64_size_ne_zero (h.size_pos hne b (List.mem_reverse.1 (hdims ▸ hb)))
  have hfirst : Continues d.stride 1 d := .inr (one_smul _ _).symm
  rw [TensorImpl.logicalOffset, if_neg (by simp [hcontig]), hdims,
    logicalOffsetLoop_eq_iff hout hpos, decode_viewChunks hfirst, decode_cons_one rfl]

include hcount

omit h in
theorem newDims_pos : ∀ n ∈ newDims, 0 < n := by
  intro n hn
  refine Nat.pos_of_ne_zero fun hzero => hne ?_
  rw [← hcount]
  exact List.prod_eq_zero (hzero ▸ hn)

/-- C-order strides are strides of any shape of a contiguous tensor. -/
theorem viewsAs_contiguousDims (hcontig : t.contiguous = true)
    (hstored : ∀ n ∈ newDims, (n : Int) ≤ int64Max) :
    t.ViewsAs newDims (contiguousDims (storedSizes newDims)) := by
  have hmap := contiguousDims_sizes (storedSizes newDims)
  refine ⟨hmap, fun d hd => ⟨inInt64_of_stored hmap hstored d hd,
    contiguousDims_inInt64 _ d hd⟩, fun k hk => ?_⟩
  rw [TensorImpl.logicalOffset, if_pos hcontig]
  exact logicalOffsetLoop_contiguousDims (newDims_pos hne hcount) hstored (hcount ▸ hk)
    (hcount ▸ h.numel_lt)

omit h hne hcount in
theorem chunkCounts_eq {d : Dim} {dims : List Dim}
    (hdims : t.sizesAndStrides.reverse = d :: dims) :
    t.chunkCounts = StridedSpace.sizes (chunkResidues (viewChunks (d :: dims) d.stride 1)) := by
  rw [TensorImpl.chunkCounts, hdims, sizes_chunkResidues]

omit h hne hcount in
theorem stored_of_computeViewStrides {out : Option (List Dim)}
    (hok : t.computeViewStrides newDims = .ok out) : ∀ n ∈ newDims, (n : Int) ≤ int64Max := by
  obtain ⟨sizes, hsizes, -⟩ := exceptBind_ok.1 hok
  exact (mapM_checkedDimensionToStorage_ok hsizes).2

/-- What the walk has established where it finds strides. -/
theorem walk_of_computeViewStrides (hcontig : t.contiguous = false) {dims : List Dim}
    (hok : t.computeViewStrides newDims = .ok (some dims)) :
    (∀ n ∈ t.chunkCounts, (n : Int) ≤ int64Max) ∧ t.ViewsAs newDims dims := by
  have hpos := newDims_pos hne hcount
  have hstored := stored_of_computeViewStrides hok
  obtain ⟨d, rest, hdims, hsize, -, helements⟩ := h.exists_reverse hne hcontig
  rw [TensorImpl.computeViewStrides_strided hne hcontig hstored hdims, Except.ok.injEq,
    Option.map_eq_some_iff] at hok
  obtain ⟨out, hout, rfl⟩ := hok
  obtain ⟨hfit, hmap, hstrides, hpacks⟩ := viewStridesLoop_some
    (fun n hn => ⟨hpos n (List.mem_reverse.1 hn), hstored n (List.mem_reverse.1 hn)⟩)
    (by rw [List.prod_reverse, hcount]; exact h.numel_lt)
    (fun b hb => toU64_size_ne_zero (hsize b hb)) Nat.one_pos
    (by rw [Nat.one_mul, helements]; exact h.numel_lt) hout
  have hmap' : out.reverse.map Dim.size = storedSizes newDims := by
    rw [List.map_reverse, hmap, storedSizes, List.map_reverse, List.reverse_reverse]
  refine ⟨fun n hn => ?_, hmap', fun b hb => ⟨inInt64_of_stored hmap' hstored b hb,
    hstrides b (List.mem_reverse.1 hb)⟩, fun k _ => ?_⟩
  · rw [TensorImpl.chunkCounts, hdims] at hn
    obtain ⟨a, ha, rfl⟩ := List.mem_map.1 hn
    exact hfit a ha
  · have hne' : ∀ b ∈ out, toU64 b.size ≠ 0 := fun b hb =>
      toU64_size_ne_zero_of_stored hmap' hpos (inInt64_of_stored hmap' hstored) b
        (List.mem_reverse.2 hb)
    rw [List.reverse_reverse, h.logicalOffset_eq_iff hne hcontig hdims hne']
    exact hpacks.decode_eq k

/-- Strides that are found address what the source addresses. -/
theorem viewsAs_of_computeViewStrides {dims : List Dim}
    (hok : t.computeViewStrides newDims = .ok (some dims)) : t.ViewsAs newDims dims := by
  cases hcontig : t.contiguous with
  | true =>
      have hstored := stored_of_computeViewStrides hok
      rw [computeViewStrides_contiguous hcontig] at hok
      obtain ⟨rfl, -, -⟩ := makeContiguousSas_ok hok
      exact h.viewsAs_contiguousDims hne hcount hcontig hstored
  | false => exact (h.walk_of_computeViewStrides hne hcount hcontig hok).2

/-- A shape that has strides splits the chunks. -/
theorem splits_of_viewsAs (hcontig : t.contiguous = false) {dims : List Dim}
    (hviews : t.ViewsAs newDims dims) : Splits t.chunkCounts newDims.reverse := by
  have hpos := newDims_pos hne hcount
  obtain ⟨d, rest, hdims, hsize, hstride, helements⟩ := h.exists_reverse hne hcontig
  have hsize' : ∀ b ∈ d :: rest, toU64 b.size ≠ 0 := fun b hb =>
    toU64_size_ne_zero (hsize b hb)
  have hnew : ∀ b ∈ dims.reverse, toU64 b.size ≠ 0 := fun b hb =>
    toU64_size_ne_zero_of_stored hviews.sizes hpos (fun c hc => (hviews.stored c hc).1) b
      (List.mem_reverse.1 hb)
  have haxes : StridedSpace.sizes (residues dims.reverse) = newDims.reverse := by
    rw [sizes_residues, List.map_reverse,
      map_toU64_of_stored hviews.sizes fun n hn => hviews.storable n hn]
  obtain ⟨n, chunks, hchunks, hle⟩ := viewChunks_head d d.stride 1
    fun b hb => hsize' b (List.mem_cons_of_mem d hb)
  have hchain := viewChunks_isChain d.stride 1 hsize hstride
  have hprod : (StridedSpace.sizes (chunkResidues (viewChunks (d :: rest) d.stride 1))).prod =
      t.numel := by
    rw [sizes_chunkResidues, prod_viewChunks, Nat.one_mul, helements]
  have hdecode (i : Nat) (hi : i < newDims.reverse.prod) :=
    (h.logicalOffset_eq_iff hne hcontig hdims hnew i).1
      (hviews.offset i (by rwa [← hcount, ← List.prod_reverse]))
  rw [chunkCounts_eq hdims, ← haxes]
  rw [hchunks] at hchain hprod hdecode ⊢
  refine splits_of_decode_eq hchain ?_ ?_ ?_ ?_
  · have := Nat.pos_of_ne_zero (hsize' d List.mem_cons_self)
    exact show 0 < n by omega
  · rw [haxes]
    exact fun n hn => hpos n (List.mem_reverse.1 hn)
  · rw [haxes, List.prod_reverse, hcount]
    exact hprod.symm
  · rw [haxes]
    exact hdecode

/-- A shape that splits the chunks has strides. -/
theorem viewsAs_of_splits (hcontig : t.contiguous = false)
    (hstored : ∀ n ∈ newDims, (n : Int) ≤ int64Max)
    (hsplits : Splits t.chunkCounts newDims.reverse) : ∃ dims, t.ViewsAs newDims dims := by
  obtain ⟨d, rest, hdims, -⟩ := h.exists_reverse hne hcontig
  rw [chunkCounts_eq hdims] at hsplits
  obtain ⟨axes, haxes, hpacks⟩ := hsplits.exists_axes
  let out : List Dim := axes.map fun a => ⟨a.size, wrapI64 a.stride.val⟩
  have hle : ∀ a ∈ axes, (a.size : Int) ≤ int64Max := fun a ha =>
    hstored a.size (List.mem_reverse.1 (haxes ▸ List.mem_map_of_mem ha))
  have hres : residues out = axes := by
    rw [residues, List.map_map]
    refine (List.map_congr_left fun a ha => ?_).trans (List.map_id axes)
    rw [Function.comp_apply, Dim.residue, toU64_stored (hle a ha), intCast_wrapI64,
      Int.cast_natCast, ZMod.natCast_zmod_val]
    rfl
  have hmap : out.reverse.map Dim.size = storedSizes newDims := by
    have hsizes : out.map Dim.size = storedSizes (StridedSpace.sizes axes) := by
      rw [storedSizes, StridedSpace.sizes, List.map_map, List.map_map]
      rfl
    rw [List.map_reverse, hsizes, haxes, storedSizes, List.map_reverse, List.reverse_reverse]
  refine ⟨out.reverse, hmap, fun b hb => ⟨inInt64_of_stored hmap hstored b hb, ?_⟩,
    fun k _ => ?_⟩
  · obtain ⟨a, -, rfl⟩ := List.mem_map.1 (List.mem_reverse.1 hb)
    dsimp only
    exact wrapI64_inInt64 _
  · have hne' : ∀ b ∈ out, toU64 b.size ≠ 0 := fun b hb =>
      toU64_size_ne_zero_of_stored hmap (newDims_pos hne hcount)
        (inInt64_of_stored hmap hstored) b (List.mem_reverse.2 hb)
    rw [List.reverse_reverse, h.logicalOffset_eq_iff hne hcontig hdims hne', hres]
    exact hpacks.decode_eq k

/-- `compute_view_strides` finds strides exactly where there are some, for the shapes
whose walk stays in range. -/
theorem computeViewStrides_complete_iff :
    ((∃ dims, t.computeViewStrides newDims = .ok (some dims)) ↔
      ∃ dims, t.ViewsAs newDims dims) ↔ t.ViewInRange newDims := by
  constructor
  · intro hiff hstored
    cases hcontig : t.contiguous with
    | true =>
        obtain ⟨dims, hok⟩ := hiff.2 ⟨_, h.viewsAs_contiguousDims hne hcount hcontig hstored⟩
        rw [computeViewStrides_contiguous hcontig] at hok
        rw [if_pos rfl]
        exact (makeContiguousSas_iff (fun n hn => ⟨newDims_pos hne hcount n hn, hstored n hn⟩)
          (hcount ▸ h.numel_lt)).1 ⟨dims, hok⟩
    | false =>
        rw [if_neg (by simp)]
        intro hsplits
        obtain ⟨dims, hok⟩ := hiff.2 (h.viewsAs_of_splits hne hcount hcontig hstored hsplits)
        obtain ⟨hfit, -⟩ := h.walk_of_computeViewStrides hne hcount hcontig hok
        exact hfit
  · intro hrange
    refine ⟨fun ⟨dims, hok⟩ => ⟨dims, h.viewsAs_of_computeViewStrides hne hcount hok⟩, ?_⟩
    rintro ⟨dims, hviews⟩
    have hstored := hviews.storable
    have hrange := hrange hstored
    cases hcontig : t.contiguous with
    | true =>
        rw [if_pos hcontig] at hrange
        obtain ⟨out, hout⟩ := (makeContiguousSas_iff (fun n hn => ⟨newDims_pos hne hcount n hn,
          hstored n hn⟩) (hcount ▸ h.numel_lt)).2 hrange
        exact ⟨out, (computeViewStrides_contiguous hcontig).2 hout⟩
    | false =>
        rw [if_neg (by simp [hcontig])] at hrange
        have hsplits := h.splits_of_viewsAs hne hcount hcontig hviews
        have hfit := hrange hsplits
        obtain ⟨d, rest, hdims⟩ := h.cached.exists_reverse hcontig
        have heq := TensorImpl.computeViewStrides_strided hne hcontig hstored hdims
        rw [TensorImpl.chunkCounts, hdims] at hsplits hfit
        obtain ⟨out, hout⟩ := viewStridesLoop_of_splits Nat.one_pos (fun b hb =>
          toU64_size_ne_zero (h.size_pos hne b (List.mem_reverse.1 (hdims ▸ hb))))
          (fun a ha => hfit a.size (List.mem_map_of_mem ha)) hsplits
        exact ⟨out.reverse, by rw [heq, hout]; rfl⟩

end TensorImpl.Readable

end Existence

end Vectorization
