/-
The gather of `clone`.  Whichever loop runs, the tiled transpose or the odometer,
element `i` of the copy comes from the logical element `i` of the source.
-/
import Vectorization.Construct
import Vectorization.Foundation.Combining
import Vectorization.ViewStrides

namespace Vectorization

open StridedSpace MachineInteger ByteMemory LoopTiling AtomicRun Combining

variable {T : ElementType} {α : Type}

section Tiles

/-- The tiled transpose copies every element once. -/
theorem tiledTranspose2d_perm (nrows ncols : Nat) : (tiledTranspose2d nrows ncols).Perm
    ((List.range nrows).flatMap fun i =>
      (List.range ncols).map fun j => (i * ncols + j, j * nrows + i)) := by
  have hrows := flatMap_tiles nrows (show 0 < 8 by decide) 0
  have hcols := flatMap_tiles ncols (show 0 < 8 by decide) 0
  rw [Nat.sub_zero, ← List.range_eq_range'] at hrows hcols
  rw [tiledTranspose2d, ← hrows, List.flatMap_assoc]
  refine List.Perm.flatMap_left _ fun io _ => ?_
  refine (flatMap_flatMap_perm _ _ _).trans (List.Perm.flatMap_left _ fun i _ => ?_)
  rw [← hcols, List.map_flatMap]

end Tiles

section Odometer

/-- The coordinates of a flat index, innermost first. -/
def digits : List Dim → Nat → List Nat
  | [], _ => []
  | d :: dims, i => i % toU64 d.size :: digits dims (i / toU64 d.size)

theorem digits_zero (dims : List Dim) : digits dims 0 = List.replicate dims.length 0 := by
  induction dims with
  | nil => rfl
  | cons d dims ih =>
      rw [digits, Nat.zero_mod, Nat.zero_div, ih]
      rfl

theorem natCast_subU64 (x y : Nat) : ((subU64 x y : Nat) : Offset) = x - y := by
  have hlt := wrapU64_lt y
  rw [subU64, natCast_wrapU64, Nat.cast_add, Nat.cast_sub hlt.le, natCast_wrapU64]
  have hzero : ((2 ^ 64 : Nat) : Offset) = 0 := ZMod.natCast_self _
  rw [hzero, zero_sub, sub_eq_add_neg]

/-- One turn of the odometer moves from a flat index to the next. -/
theorem nextCoord_digits {dims : List Dim} (hpos : ∀ d ∈ dims, toU64 d.size ≠ 0) {i off : Nat}
    {base : Offset} (hoff : (off : Offset) = base + decode (residues dims) i) :
    (nextCoord dims (digits dims i) off).1 = digits dims (i + 1) ∧
      ((nextCoord dims (digits dims i) off).2 : Offset) =
        base + decode (residues dims) (i + 1) := by
  induction dims generalizing i off base with
  | nil => exact ⟨rfl, hoff⟩
  | cons d dims ih =>
      have hd := Nat.pos_of_ne_zero (hpos d List.mem_cons_self)
      have hpos' := fun b hb => hpos b (List.mem_cons_of_mem d hb)
      rw [residues_cons, decode] at hoff ⊢
      change _ = base + ((i % toU64 d.size) • (d.stride : Offset) +
        decode (residues dims) (i / toU64 d.size)) at hoff
      change _ ∧ _ = base + (((i + 1) % toU64 d.size) • (d.stride : Offset) +
        decode (residues dims) ((i + 1) / toU64 d.size))
      rw [digits, digits, nextCoord]
      dsimp only
      have hdiv := Nat.div_add_mod i (toU64 d.size)
      have hmod := Nat.mod_lt i hd
      split <;> rename_i hcarry
      · have hnext : (i + 1) % toU64 d.size = i % toU64 d.size + 1 ∧
            (i + 1) / toU64 d.size = i / toU64 d.size := by
          rw [show i + 1 = toU64 d.size * (i / toU64 d.size) + (i % toU64 d.size + 1) by omega,
            Nat.mul_add_mod, Nat.mod_eq_of_lt hcarry, Nat.mul_add_div hd,
            Nat.div_eq_of_lt hcarry]
          exact ⟨rfl, rfl⟩
        rw [hnext.1, hnext.2]
        refine ⟨rfl, ?_⟩
        rw [natCast_wrapU64, Nat.cast_add, hoff, natCast_toU64, add_smul, one_smul]
        ring
      · have hlast : i % toU64 d.size + 1 = toU64 d.size := by omega
        have hnext : (i + 1) % toU64 d.size = 0 ∧
            (i + 1) / toU64 d.size = i / toU64 d.size + 1 := by
          rw [show i + 1 = toU64 d.size * (i / toU64 d.size + 1) by rw [Nat.mul_succ]; omega,
            Nat.mul_mod_right, Nat.mul_div_cancel_left _ hd]
          exact ⟨rfl, rfl⟩
        have hback : (subU64 (wrapU64 (off + toU64 d.stride))
            ((i % toU64 d.size + 1) * toU64 d.stride) : Offset) =
              base + decode (residues dims) (i / toU64 d.size) := by
          rw [natCast_subU64, natCast_wrapU64, Nat.cast_add, hoff, Nat.cast_mul,
            natCast_toU64, nsmul_eq_mul, Nat.cast_add, Nat.cast_one]
          ring
        obtain ⟨hcoord, hstep⟩ := ih hpos' hback
        rw [hnext.1, hnext.2, hcoord, hstep, zero_smul, zero_add]
        exact ⟨rfl, rfl⟩

theorem nextCoord_lt {dims : List Dim} {coord : List Nat} {off : Nat} (hoff : off < 2 ^ 64) :
    (nextCoord dims coord off).2 < 2 ^ 64 := by
  induction dims generalizing coord off with
  | nil => exact hoff
  | cons d dims ih =>
      cases coord with
      | nil => exact hoff
      | cons k coord =>
          rw [nextCoord]
          dsimp only
          split
          · exact wrapU64_lt _
          · exact ih (wrapU64_lt _)

theorem logicalOffsetLoop_zero {dims : List Dim} (hpos : ∀ d ∈ dims, toU64 d.size ≠ 0) :
    logicalOffsetLoop dims 0 0 = 0 := by
  rw [← natCast_offset_inj (logicalOffsetLoop_lt (by norm_num) 0) (by norm_num),
    logicalOffsetLoop_residue hpos, decode_zero, add_zero]

/-- The odometer visits the flat indices in order. -/
theorem gatherLoop_eq {dims : List Dim} (hpos : ∀ d ∈ dims, toU64 d.size ≠ 0) (count i : Nat)
    {off : Nat} (hoff : off = logicalOffsetLoop dims 0 i) :
    gatherLoop dims count i (digits dims i) off =
      (List.range' i count).map fun k => (k, logicalOffsetLoop dims 0 k) := by
  induction count generalizing i off with
  | zero => rfl
  | succ count ih =>
      have hlt : off < 2 ^ 64 := hoff ▸ logicalOffsetLoop_lt (by norm_num) i
      have hres : (off : Offset) = 0 + decode (residues dims) i := by
        rw [hoff, logicalOffsetLoop_residue hpos, Nat.cast_zero]
      obtain ⟨hcoord, hstep⟩ := nextCoord_digits hpos hres
      have hnext : (nextCoord dims (digits dims i) off).2 = logicalOffsetLoop dims 0 (i + 1) := by
        rw [← natCast_offset_inj (nextCoord_lt hlt) (logicalOffsetLoop_lt (by norm_num) _), hstep,
          logicalOffsetLoop_residue hpos, Nat.cast_zero]
      rw [gatherLoop, hcoord, ih (i + 1) hnext, List.range'_succ, List.map_cons, hoff]

end Odometer

section Gather

variable {t : TensorImpl T}

/-- In the layout of a transposed matrix an element lies at its mirrored place. -/
theorem logicalOffsetLoop_transposed {d₀ d₁ : Dim} (h₀ : toU64 d₀.size ≠ 0)
    (h₁ : toU64 d₁.size ≠ 0) (hstride₀ : d₀.stride = 1) (hstride₁ : d₁.stride = d₀.size)
    (hfit : toU64 d₀.size * toU64 d₁.size < 2 ^ 64) {i j : Nat} (hi : i < toU64 d₀.size)
    (hj : j < toU64 d₁.size) :
    logicalOffsetLoop [d₁, d₀] 0 (i * toU64 d₁.size + j) = j * toU64 d₀.size + i := by
  have hmod : (i * toU64 d₁.size + j) % toU64 d₁.size = j := by
    rw [Nat.mul_comm, Nat.mul_add_mod, Nat.mod_eq_of_lt hj]
  have hdiv : (i * toU64 d₁.size + j) / toU64 d₁.size = i := by
    rw [Nat.mul_comm, Nat.mul_add_div (Nat.pos_of_ne_zero h₁), Nat.div_eq_of_lt hj, Nat.add_zero]
  have hlt : j * toU64 d₀.size + i < 2 ^ 64 := by
    have := Nat.mul_le_mul_right (toU64 d₀.size) (Nat.succ_le_of_lt hj)
    rw [Nat.succ_mul, Nat.mul_comm (toU64 d₁.size)] at this
    omega
  have hone : toU64 1 = 1 := rfl
  simp only [logicalOffsetLoop, if_neg h₀, if_neg h₁, hmod, hdiv, Nat.mod_eq_of_lt hi, hstride₀,
    hstride₁, hone, Nat.mul_one, Nat.zero_add, wrapU64_add_wrapU64]
  exact wrapU64_eq_self hlt

theorem TensorImpl.exists_gatherLogical (hrank : t.rank ≤ 16) :
    ∃ pairs, t.gatherLogical = .ok pairs := by
  rw [gatherLogical]
  by_cases hempty : t.numel = 0
  · exact ⟨_, if_pos hempty⟩
  rw [if_neg hempty]
  by_cases hcontig : t.contiguous = true
  · exact ⟨_, if_pos hcontig⟩
  rw [if_neg hcontig, if_neg (by omega)]
  dsimp only
  split
  · split
    · exact ⟨_, rfl⟩
    · exact ⟨_, rfl⟩
  · exact ⟨_, rfl⟩

/-- Every gather pairs each element of the copy with the logical element of the
source. -/
theorem TensorImpl.gatherLogical_perm
    (hsizes : ∀ d ∈ t.sizesAndStrides, 0 < d.size ∧ d.size ≤ int64Max)
    (hnumel : t.numel = elementCount t.sizesAndStrides) (hlt : t.numel < 2 ^ 64)
    {pairs : List (Nat × Nat)} (h : t.gatherLogical = .ok pairs) :
    pairs.Perm ((List.range t.numel).map fun i => (i, t.logicalOffset i)) := by
  have hpos : ∀ d ∈ t.sizesAndStrides.reverse, toU64 d.size ≠ 0 := fun d hd =>
    toU64_size_ne_zero (hsizes d (List.mem_reverse.1 hd))
  rw [gatherLogical] at h
  split at h <;> rename_i hempty
  · cases h
    rw [hempty]
    exact List.Perm.refl _
  split at h <;> rename_i hcontig
  · cases h
    refine List.Perm.of_eq (List.map_congr_left fun i _ => ?_)
    rw [logicalOffset, if_pos hcontig]
  split at h
  · cases h
  have hoffset : t.logicalOffset = logicalOffsetLoop t.sizesAndStrides.reverse 0 :=
    funext fun i => if_neg hcontig
  have hodometer : gatherLoop t.sizesAndStrides.reverse t.numel 0 (List.replicate t.rank 0) 0 =
      (List.range t.numel).map fun i => (i, t.logicalOffset i) := by
    rw [rank, ← List.length_reverse, ← digits_zero,
      gatherLoop_eq hpos _ _ (logicalOffsetLoop_zero hpos).symm, hoffset, List.range_eq_range']
  dsimp only at h
  rw [hodometer] at h
  split at h
  · rename_i d₀ d₁ hdims
    split at h <;> rename_i hstrides
    · cases h
      have hd₀ := hsizes d₀ (hdims ▸ List.mem_cons_self)
      have hd₁ := hsizes d₁ (hdims ▸ List.mem_cons_of_mem _ List.mem_cons_self)
      have h₀ := toU64_size_ne_zero hd₀
      have h₁ := toU64_size_ne_zero hd₁
      have hcount : t.numel = toU64 d₀.size * toU64 d₁.size := by
        rw [hnumel, hdims, elementCount_cons, elementCount_cons, elementCount_nil, Nat.mul_one]
      refine (tiledTranspose2d_perm _ _).trans (List.Perm.of_eq ?_)
      rw [← toU64_of_nonneg hd₀.1.le hd₀.2, ← toU64_of_nonneg hd₁.1.le hd₁.2, hcount, range_mul,
        List.map_flatMap]
      refine List.flatMap_congr fun i hi => ?_
      rw [List.map_map]
      refine List.map_congr_left fun j hj => ?_
      rw [Function.comp_apply, hoffset, hdims]
      refine congrArg _ (logicalOffsetLoop_transposed h₀ h₁ hstrides.1 hstrides.2 (hcount ▸ hlt)
        (List.mem_range.1 hi) (List.mem_range.1 hj)).symm
    · cases h
      exact List.Perm.refl _
  · cases h
    exact List.Perm.refl _

end Gather

section Copy

variable (c : Codec α T.size)

/-- The heap serves the clones of a tensor: their allocation lies apart from its window,
and on a device its logical elements are packed there and kept.  `Staging.heapOf_serves`
derives it from the allocator and the copies between memories. -/
structure Heap.Serves (heap : Heap T) (t : TensorImpl T) : Prop where
  apart : ∀ {base}, heap.allocate t.numel t.device t.deviceIndex = .ok base →
    base + t.numel * T.size ≤ t.data ∨ t.data + t.view.size * T.size ≤ base
  packs : ∀ {dst m m'}, heap.allocate t.numel t.device t.deviceIndex = .ok dst →
    heap.copyDevice t dst m = .ok m' → ∀ k < t.numel,
      load c m' (dst + k * T.size) = load c m (t.data + t.logicalOffset k * T.size) ∧
        load c m' (t.data + t.logicalOffset k * T.size) =
          load c m (t.data + t.logicalOffset k * T.size)

section Elements

variable {n dst src : Nat} {source : Nat → Nat} {pairs : List (Nat × Nat)}
  (hpairs : pairs.Perm ((List.range n).map fun k => (k, source k)))
  (hapart : ∀ k < n, dst + n * T.size ≤ src + source k * T.size ∨
    src + source k * T.size + T.size ≤ dst)
include hpairs hapart

/-- A source cell meets no cell that is written. -/
theorem copyElement_outside {p q : Nat × Nat} (hp : p ∈ pairs) (hq : q ∈ pairs) {x : Int}
    (hx : InCell T.size (src + p.2 * T.size) x) : ¬ InCell T.size (dst + q.1 * T.size) x := by
  have hmem {p : Nat × Nat} (hp : p ∈ pairs) : p.1 < n ∧ p.2 = source p.1 := by
    obtain ⟨k, hk, rfl⟩ := List.mem_map.1 (hpairs.mem_iff.1 hp)
    exact ⟨List.mem_range.1 hk, rfl⟩
  obtain ⟨hp1, hp2⟩ := hmem hp
  have hq1 := Nat.mul_le_mul_right T.size (Nat.succ_le_of_lt (hmem hq).1)
  rw [Nat.succ_mul] at hq1
  rw [hp2] at hx
  have hsource := hapart p.1 hp1
  unfold InCell at hx ⊢
  omega

/-- Copies into cells apart from their sources store the sources' values. -/
theorem copyElement_written (m : Memory) :
    Written c m (run c (pairs.map (copyElement c src dst)) m)
      (pairs.map fun p => ((dst + p.1 * T.size : Int), load c m (src + p.2 * T.size))) := by
  let cell : Nat × Nat → Int := fun p => dst + p.1 * T.size
  let value : Memory → Nat × Nat → α := fun m p => load c m (src + p.2 * T.size)
  have hflat : (pairs.map fun p => [p]).flatten = pairs := List.flatMap_singleton' pairs
  have hreal : Realizes T.size cell value (pairs.map (copyElement c src dst))
      (pairs.map fun p => [p]) := by
    refine Realizes.map fun p _ m => ?_
    change [((dst : Int) + p.1 * T.size + (0 : Nat) * T.size, value m p)] = [(cell p, value m p)]
    rw [Nat.cast_zero, Int.zero_mul, Int.add_zero]
  have hwritten : Written c m (run c (pairs.map (copyElement c src dst)) m)
      ((pairs.map fun p => [p]).flatten.map fun p => (cell p, value m p)) := by
    refine hreal.run_written ?_ ?_
    · rw [hflat]
      refine (hpairs.pairwise_iff fun {_ _} h => h.symm).2 (List.pairwise_map.2 ?_)
      refine List.nodup_range.imp fun {i j} hij => apart_of_ne ?_
      exact_mod_cast hij
    · rw [hflat]
      refine fun p hp m' hm => load_congr c fun x hx => hm x (.inr fun q hq => ?_)
      exact copyElement_outside hpairs hapart hp hq hx
  rwa [hflat] at hwritten

/-- The copies hold the sources' values, and the sources keep them. -/
theorem run_copyElement (m : Memory) :
    ∀ k < n,
      load c (run c (pairs.map (copyElement c src dst)) m) (dst + k * T.size) =
          load c m (src + source k * T.size) ∧
        load c (run c (pairs.map (copyElement c src dst)) m) (src + source k * T.size) =
          load c m (src + source k * T.size) := by
  have hwritten := copyElement_written c hpairs hapart m
  intro k hk
  have hk : (k, source k) ∈ pairs :=
    hpairs.mem_iff.2 (List.mem_map_of_mem (f := fun k => (k, source k)) (List.mem_range.2 hk))
  constructor
  · exact hwritten.load (List.mem_map_of_mem
      (f := fun p : Nat × Nat => ((dst + p.1 * T.size : Int), load c m (src + p.2 * T.size))) hk)
  · refine load_congr c fun x hx => hwritten.frame x fun p hp => ?_
    obtain ⟨q, hq, rfl⟩ := List.mem_map.1 hp
    exact copyElement_outside hpairs hapart hk hq hx

end Elements

variable {S : SimdTarget T} {heap : Heap T} {t r : TensorImpl T} {m m' : Memory}

theorem makeOwner_data {n : Nat} {device : DeviceEnum} {index : Int}
    (h : makeOwner S heap n device index = .ok r) :
    heap.allocate n device index = .ok r.data := by
  obtain ⟨base, hbase, h⟩ := exceptBind_ok.1 h
  split at h
  · cases h
  · cases h
    rw [hbase, TensorImpl.data, TensorImpl.recompute_view]

/-- A clone holds the logical elements of its source, which keeps them. -/
theorem clone_load (ht : t.Windowed S) (hheap : heap.Serves c t)
    (hsizes : ∀ d ∈ t.sizesAndStrides, 0 < d.size ∧ d.size ≤ int64Max)
    (h : clone S heap c t m = .ok r m') :
    ∀ k < t.numel,
      load c m' (r.data + k * T.size) = load c m (t.data + t.logicalOffset k * T.size) ∧
        load c m' (t.data + t.logicalOffset k * T.size) =
          load c m (t.data + t.logicalOffset k * T.size) := by
  intro k hk
  rw [clone, raising_bind_ok] at h
  obtain ⟨o, ho, h⟩ := h
  have hdata : (stampContiguousShape S o t).data = o.data := by
    rw [stampContiguousShape, TensorImpl.data, TensorImpl.recompute_view]
    rfl
  rw [if_pos (by omega)] at h
  split at h
  · obtain ⟨pairs, hpairs, h⟩ := raising_bind_ok.1 h
    obtain ⟨_, s, hrun, h⟩ := bind_ok.1 h
    cases hrun
    cases h
    have hperm := TensorImpl.gatherLogical_perm hsizes ht.numel_eq
      (ht.numel_eq ▸ ht.count_lt) hpairs
    rw [hdata]
    refine run_copyElement c hperm (fun j hj => ?_) m k hk
    have hin := ht.inWindow.offset_lt j hj
    have hcell := Nat.mul_le_mul_right T.size (Nat.succ_le_of_lt hin)
    rw [Nat.succ_mul] at hcell
    have := hheap.apart (makeOwner_data ho)
    omega
  · obtain ⟨m₀, s, hget, h⟩ := bind_ok.1 h
    cases hget
    obtain ⟨packed, hpacked, h⟩ := raising_bind_ok.1 h
    obtain ⟨_, s', hset, h⟩ := bind_ok.1 h
    cases hset
    cases h
    rw [hdata]
    exact hheap.packs (makeOwner_data ho) hpacked k hk

end Copy

end Vectorization
