/-
`expressions_evaluator::scatter`.  The source is read by raw pointer and the spacing of a
register store is narrowed to an `int`; the logical elements reach their places exactly
when the source is contiguous and no register is stored with a narrowed spacing.
-/
import Vectorization.CachedFlags

namespace Vectorization

open StridedSpace MachineInteger ByteMemory LoopTiling

variable {T : ElementType} {α : Type}

/-- `static_cast<int>` of a `size_t`. -/
def toInt32 (x : Nat) : Int := (x : Int).bmod (2 ^ 32)

section Scatter

variable (S : SimdTarget T)

/-- The elements that the register loop covers. -/
def scatterPeel (n : Nat) : Nat :=
  if S.vectorized then S.length * (n / S.length) else 0

/-- The blocks of `scatter`: registers whose lanes are stored `static_cast<int>(index)`
elements apart, then single elements. -/
def scatterBlocks (src dst : TensorImpl T) (k index : Nat) : List (List LaneCopy) :=
  let data : Int := dst.data + k * T.size
  let n := src.numel
  let loopPeel := scatterPeel S n
  ((starts 0 loopPeel S.length).map fun i => (List.range S.length).map fun j =>
    ⟨data + (wrapU64 (i * index) + j * toInt32 index) * T.size,
      src.data + (i + j : Nat) * T.size⟩) ++
  (starts loopPeel n 1).map fun i =>
    [⟨data + wrapU64 (i * index) * T.size, src.data + (i : Nat) * T.size⟩]

def scatter (c : Codec α T.size) (src dst : TensorImpl T) (k index : Nat) (m : Memory) :
    Memory :=
  copyBlocks c (scatterBlocks S src dst k index) m

/-- The cell of the destination's element `k + i * index`. -/
def scatterCell (dst : TensorImpl T) (k index i : Nat) : Int :=
  dst.data + (k + i * index : Nat) * T.size

/-- The cell of the source's logical element. -/
def logicalCell (src : TensorImpl T) (i : Nat) : Int :=
  src.data + (src.logicalOffset i : Nat) * T.size

/-- The logical elements are written: register lanes and single elements go to their
places in order and come from the logical elements, and afterwards the destination holds
them and is otherwise unchanged. -/
structure ScattersLogically (c : Codec α T.size) (src dst : TensorImpl T) (k index : Nat) :
    Prop where
  positions : ((scatterBlocks S src dst k index).flatten.map LaneCopy.target) =
    (List.range src.numel).map (scatterCell dst k index)
  values : ∀ m, ((scatterBlocks S src dst k index).flatten.map fun l => load c m l.source) =
    (List.range src.numel).map fun i => load c m (logicalCell src i)
  elements : ∀ m, ∀ i < src.numel,
    load c (scatter S c src dst k index m) (scatterCell dst k index i) =
      load c m (logicalCell src i)
  frame : ∀ m x, (∀ i < src.numel, ¬ InCell T.size (scatterCell dst k index i) x) →
    scatter S c src dst k index m x = m x

end Scatter

section Narrowing

theorem toInt32_eq_iff {x : Nat} : toInt32 x = x ↔ x < 2 ^ 31 := by
  constructor
  · intro h
    have hlt : toInt32 x < ((2 ^ 32 : Nat) + 1) / 2 := Int.bmod_lt (by norm_num)
    omega
  · intro h
    exact Int.bmod_eq_of_le (by omega) (by omega)

end Narrowing

section Blocks

variable {S : SimdTarget T} {src dst : TensorImpl T} {k index : Nat}

theorem scatterPeel_le (n : Nat) : scatterPeel S n ≤ n := by
  rw [scatterPeel]
  split
  · exact Nat.mul_div_le n S.length
  · exact Nat.zero_le n

theorem starts_scatterPeel (n : Nat) :
    (starts 0 (scatterPeel S n) S.length).flatMap (fun i => List.range' i S.length) =
      List.range' 0 (scatterPeel S n) := by
  have hpeel : scatterPeel S n = (if S.vectorized then n / S.length else 0) * S.length := by
    rw [scatterPeel]
    split
    · exact Nat.mul_comm _ _
    · rw [Nat.zero_mul]
  have hexact := starts_exact S.length_pos 0 (if S.vectorized then n / S.length else 0)
  rw [Nat.zero_add] at hexact
  rw [hpeel, hexact, flatMap_range']

theorem range_split {n peel : Nat} (h : peel ≤ n) :
    List.range' 0 peel ++ starts peel n 1 = List.range n := by
  have happend := List.range'_append_1 (s := 0) (m := peel) (n := n - peel)
  rw [Nat.zero_add, Nat.add_sub_cancel' h] at happend
  rw [starts_one, happend, List.range_eq_range']

/-- In order, the lanes read the raw elements of the source. -/
theorem scatterBlocks_sources {β : Type} (f : Int → β) :
    ((scatterBlocks S src dst k index).flatten.map fun l => f l.source) =
      (List.range src.numel).map fun i => f (src.data + (i : Nat) * T.size) := by
  have hblock (i : Nat) : ((List.range S.length).map fun j =>
      f (src.data + (i + j : Nat) * T.size)) =
        (List.range' i S.length).map fun i => f (src.data + (i : Nat) * T.size) := by
    rw [List.range'_eq_map_range, List.map_map]
    rfl
  rw [scatterBlocks, ← range_split (scatterPeel_le (S := S) src.numel), ← starts_scatterPeel]
  rw [List.flatten_append, List.map_append, List.map_append, List.map_flatMap,
    ← List.flatMap_def, ← List.flatMap_def, List.map_flatMap, List.map_flatMap]
  congr 1
  · refine List.flatMap_congr fun i _ => ?_
    rw [List.map_map, ← hblock]
    rfl
  · simp only [List.map_cons, List.map_nil]
    rw [← List.map_eq_flatMap]

/-- Without a narrowed spacing every lane goes to the place of its element. -/
theorem scatterBlocks_targets (hrange : ∀ i < src.numel, k + i * index < 2 ^ 64)
    (hspacing : toInt32 index = index ∨ scatterPeel S src.numel = 0 ∨ S.length = 1) :
    ((scatterBlocks S src dst k index).flatten.map LaneCopy.target) =
      (List.range src.numel).map (scatterCell dst k index) := by
  have hwrap : ∀ i < src.numel, (wrapU64 (i * index) : Int) = i * index := by
    intro i hi
    have := hrange i hi
    rw [wrapU64_eq_self (by omega)]
    push_cast
    rfl
  have hcell (i : Nat) : scatterCell dst k index i =
      dst.data + k * T.size + (i * index : Int) * T.size := by
    rw [scatterCell]
    push_cast
    ring
  have hpeel := scatterPeel_le (S := S) src.numel
  rw [scatterBlocks, ← range_split hpeel, ← starts_scatterPeel]
  rw [List.flatten_append, List.map_append, List.map_append, List.map_flatMap,
    ← List.flatMap_def, ← List.flatMap_def, List.map_flatMap, List.map_flatMap]
  congr 1
  · refine List.flatMap_congr fun i hi => ?_
    rw [List.map_map, List.range'_eq_map_range, List.map_map]
    refine List.map_congr_left fun j hj => ?_
    have hj := List.mem_range.1 hj
    have hmem : i + j ∈ List.range' 0 (scatterPeel S src.numel) := by
      rw [← starts_scatterPeel, List.mem_flatMap]
      exact ⟨i, hi, List.mem_range'_1.2 ⟨by omega, by omega⟩⟩
    have hij := (List.mem_range'_1.1 hmem).2
    have hlane : (j : Int) * toInt32 index = j * index := by
      rcases hspacing with h | h | h
      · rw [h]
      · omega
      · rw [show j = 0 by omega]
        simp
    rw [Function.comp_apply, Function.comp_apply, hcell, hwrap i (by omega), hlane]
    push_cast
    ring
  · simp only [List.map_cons, List.map_nil]
    rw [← List.map_eq_flatMap]
    refine List.map_congr_left fun i hi => ?_
    rw [starts_one] at hi
    have hlt := (List.mem_range'_1.1 hi).2
    rw [hcell, hwrap i (by omega)]

/-- The second lane of the first register shows the spacing. -/
theorem toInt32_of_targets (hlanes : 1 < S.length) (hpeel : scatterPeel S src.numel ≠ 0)
    (h : ((scatterBlocks S src dst k index).flatten.map LaneCopy.target) =
      (List.range src.numel).map (scatterCell dst k index)) : toInt32 index = index := by
  have hle := scatterPeel_le (S := S) src.numel
  have hnumel : 1 < src.numel := by
    have hge : S.length ≤ scatterPeel S src.numel := by
      rw [scatterPeel] at hpeel ⊢
      split at hpeel <;> rename_i hvec
      · rw [if_pos hvec]
        exact Nat.le_mul_of_pos_right _ (Nat.pos_of_ne_zero (right_ne_zero_of_mul hpeel))
      · exact absurd rfl hpeel
    omega
  have hlane : ((scatterBlocks S src dst k index).flatten.map LaneCopy.target)[1]? =
      ((List.range src.numel).map (scatterCell dst k index))[1]? := by rw [h]
  rw [scatterBlocks, starts_of_lt S.length_pos (Nat.pos_of_ne_zero hpeel), List.map_cons,
    List.cons_append, List.flatten_cons, List.map_append, List.getElem?_append_left (by simpa),
    List.map_map, List.getElem?_map, List.getElem?_map, List.getElem?_range hlanes,
    List.getElem?_range hnumel, Option.map_some, Option.map_some, Option.some.injEq,
    Function.comp_apply, scatterCell, Nat.zero_mul] at hlane
  have hzero : wrapU64 0 = 0 := rfl
  have hsize : (T.size : Int) ≠ 0 := by
    have := T.size_pos
    omega
  rw [hzero] at hlane
  push_cast at hlane
  have hmul : toInt32 index * T.size = index * T.size := by
    have hcancel : (dst.data : Int) + k * T.size + (0 + 1 * toInt32 index) * T.size =
      dst.data + (k + 1 * index) * T.size := hlane
    linarith
  exact mul_right_cancel₀ hsize hmul

end Blocks

section Exact

variable {S : SimdTarget T} {src dst : TensorImpl T} {k index : Nat}

/-- Two cells that always hold the same are one. -/
theorem eq_of_load_eq [Nontrivial α] (c : Codec α T.size) {base : Int} {i j : Nat}
    (h : ∀ m, load c m (base + (i : Nat) * T.size) = load c m (base + (j : Nat) * T.size)) :
    i = j := by
  by_contra hne
  obtain ⟨v, v', hv⟩ := exists_pair_ne α
  have hap : Apart T.size (base + (i : Nat) * T.size) (base + (j : Nat) * T.size) :=
    apart_of_ne (by exact_mod_cast hne)
  let pairs : List (Int × α) :=
    [(base + (i : Nat) * T.size, v), (base + (j : Nat) * T.size, v')]
  have hpairs : CellsApart T.size ([] ++ pairs) := by
    simpa [pairs, CellsApart] using hap
  have hnil : Written c (fun _ => 0) (fun _ => 0) [] := Written.nil
  have hwritten := hnil.storeAll hpairs
  have hv₁ := hwritten.load (a := base + (i : Nat) * T.size) (v := v) (by simp [pairs])
  have hv₂ := hwritten.load (a := base + (j : Nat) * T.size) (v := v') (by simp [pairs])
  rw [h, hv₂] at hv₁
  exact hv hv₁.symm

/-- A tensor whose elements all lie at their flat index is contiguous. -/
theorem TensorImpl.Readable.contiguous_of_offsets (h : src.Readable S)
    (hoffset : ∀ i < src.numel, src.logicalOffset i = i) : src.contiguous = true := by
  by_contra hcontig
  have hrank : src.rank ≠ 0 := by
    intro hrank
    have hflag := congrArg TensorImpl.contiguous h.cached
    rw [TensorImpl.recompute, if_pos hrank] at hflag
    exact hcontig hflag.symm
  have hne : src.numel ≠ 0 := by
    intro hempty
    rw [h.cached.contiguous_eq hrank, if_pos hempty] at hcontig
    exact hcontig rfl
  have hcount := h.windowed.numel_eq
  have hgeometry := checkViewGeometry_ok h.valid.geometry (hcount ▸ hne)
  have hsizes : ∀ d ∈ src.sizesAndStrides, 0 < d.size ∧ d.size ≤ int64Max := by
    intro d hd
    have hd' := h.valid.sizes d hd
    have hpos := size_ne_zero_of_numel (hcount ▸ hne) d hd
    rw [h.toU64_size hd] at hpos
    exact ⟨by omega, hd'.2⟩
  have hexact := recompute_contiguous_exact (S := S) hsizes
    (fun d hd => ⟨hgeometry.2.1 d hd, h.strides d hd⟩) (hcount ▸ h.windowed.count_lt)
  rw [h.cached] at hexact
  refine hcontig (hexact.1.2 fun i hi => ?_)
  have hi := hoffset i (hcount ▸ hi)
  rw [TensorImpl.logicalOffset, if_neg hcontig] at hi
  exact hi

/-- Lanes in order, each from its raw element to its place. -/
theorem scatterBlocks_flatten (hrange : ∀ i < src.numel, k + i * index < 2 ^ 64)
    (hspacing : toInt32 index = index ∨ scatterPeel S src.numel = 0 ∨ S.length = 1) :
    (scatterBlocks S src dst k index).flatten = (List.range src.numel).map fun i =>
      ⟨scatterCell dst k index i, src.data + (i : Nat) * T.size⟩ := by
  have htargets : (scatterBlocks S src dst k index).flatten.map LaneCopy.target = _ :=
    scatterBlocks_targets hrange hspacing
  have hsources : (scatterBlocks S src dst k index).flatten.map (fun l => id l.source) = _ :=
    scatterBlocks_sources id
  generalize (scatterBlocks S src dst k index).flatten = lanes at htargets hsources
  have hzip : lanes = List.zipWith LaneCopy.mk (lanes.map LaneCopy.target)
      (lanes.map fun l => id l.source) := by
    rw [List.zipWith_map, List.zipWith_self]
    exact (List.map_id' lanes).symm
  rw [hzip, htargets, hsources, List.zipWith_map, List.zipWith_self]
  rfl

/-- A scatter writes the logical elements exactly when its source is contiguous and the
spacing of its registers fits in an `int`, or no register of several lanes is stored. -/
theorem scattersLogically_iff [Nontrivial α] (c : Codec α T.size) (hsrc : src.Readable S)
    (hdst : dst.Readable S) (hcontig : dst.contiguous = true)
    (hdisj : src.data + src.view.size * T.size ≤ dst.data ∨
      dst.data + dst.view.size * T.size ≤ src.data)
    (hindex : 1 ≤ index) (hrange : ∀ i < src.numel, k + i * index < dst.numel) :
    ScattersLogically S c src dst k index ↔
      src.contiguous = true ∧ (index < 2 ^ 31 ∨ S.vectorized = false ∨
        src.numel < S.length ∨ S.length = 1) := by
  have hword : ∀ i < src.numel, k + i * index < 2 ^ 64 := fun i hi =>
    (hrange i hi).trans (hdst.numel_eq ▸ hdst.prod_lt)
  constructor
  · intro h
    constructor
    · apply hsrc.contiguous_of_offsets
      intro i hi
      symm
      apply eq_of_load_eq c
      intro m
      have hvalues := h.values m
      rw [scatterBlocks_sources fun a => load c m a] at hvalues
      exact List.map_inj_left.1 hvalues i (List.mem_range.2 hi)
    · by_contra hwide
      rw [not_or, not_or, not_or] at hwide
      obtain ⟨hlarge, hvec, hblock, hone⟩ := hwide
      have hlanes : 1 < S.length := by
        have := S.length_pos
        omega
      have hpeel : scatterPeel S src.numel ≠ 0 := by
        rw [scatterPeel, if_pos (by simpa using hvec)]
        exact Nat.mul_ne_zero (by omega) (Nat.div_pos (by omega) S.length_pos).ne'
      exact hlarge (toInt32_eq_iff.1 (toInt32_of_targets hlanes hpeel h.positions))
  · rintro ⟨hflat, hcond⟩
    have hspacing : toInt32 index = index ∨ scatterPeel S src.numel = 0 ∨ S.length = 1 := by
      rcases hcond with h | h | h | h
      · exact Or.inl (toInt32_eq_iff.2 h)
      · refine Or.inr (Or.inl ?_)
        rw [scatterPeel, h]
        rfl
      · refine Or.inr (Or.inl ?_)
        rw [scatterPeel, Nat.div_eq_of_lt h, Nat.mul_zero, ite_self]
      · exact Or.inr (Or.inr h)
    have hlogical (i : Nat) : logicalCell src i = src.data + (i : Nat) * T.size := by
      rw [logicalCell, TensorImpl.logicalOffset, if_pos hflat]
    have hlanes : (scatterBlocks S src dst k index).flatten = _ :=
      scatterBlocks_flatten hword hspacing
    have hwritten (m : Memory) : Written c m (scatter S c src dst k index m)
        ((List.range src.numel).map fun i =>
          (scatterCell dst k index i, load c m (logicalCell src i))) := by
      have hcopied : Written c m (copyBlocks c (scatterBlocks S src dst k index) m) _ :=
        copyBlocks_written ?_ ?_
      · rw [hlanes, List.map_map] at hcopied
        simp only [hlogical]
        exact hcopied
      · rw [hlanes, List.pairwise_map]
        refine List.nodup_range.imp fun {i j} hij => apart_of_ne ?_
        exact_mod_cast fun heq : k + i * index = k + j * index =>
          hij (Nat.eq_of_mul_eq_mul_right hindex (Nat.add_left_cancel heq))
      · -- the window of the source lies apart from that of the destination
        rw [hlanes]
        intro p hp q hq
        obtain ⟨i, hi, rfl⟩ := List.mem_map.1 hp
        obtain ⟨j, hj, rfl⟩ := List.mem_map.1 hq
        have hi := hrange i (List.mem_range.1 hi)
        have hj := List.mem_range.1 hj
        have hto := Nat.mul_le_mul_right T.size
          (Nat.succ_le_of_lt (Nat.lt_of_lt_of_le hi (hdst.windowed.flat hcontig)))
        have hfrom := Nat.mul_le_mul_right T.size
          (Nat.succ_le_of_lt (Nat.lt_of_lt_of_le hj (hsrc.windowed.flat hflat)))
        rw [Nat.succ_mul] at hto hfrom
        have hnonneg : (0 : Int) ≤ (k + i * index) * T.size ∧ (0 : Int) ≤ j * T.size := by
          constructor <;> positivity
        unfold Apart scatterCell
        zify at hto hfrom hdisj
        push_cast
        omega
    refine ⟨?_, fun m => ?_, fun m i hi => ?_, fun m x hx => ?_⟩
    · exact scatterBlocks_targets hword hspacing
    · rw [scatterBlocks_sources fun a => load c m a]
      exact List.map_congr_left fun i _ => by rw [hlogical]
    · exact (hwritten m).load (List.mem_map_of_mem (f := fun i =>
        (scatterCell dst k index i, load c m (logicalCell src i))) (List.mem_range.2 hi))
    · refine (hwritten m).frame x fun p hp => ?_
      obtain ⟨i, hi, rfl⟩ := List.mem_map.1 hp
      exact hx i (List.mem_range.1 hi)

end Exact

namespace ScatterWitness

open Sample

/-- Sixteen floats, in a row. -/
def storage : TensorImpl float :=
  TensorImpl.recompute fourLanes (.bare true ⟨65536, 16, .cpu, 0⟩ [⟨16, 1⟩])

/-- Five floats, in a row. -/
def row : TensorImpl float :=
  TensorImpl.recompute fourLanes (.bare true ⟨4096, 5, .cpu, 0⟩ [⟨5, 1⟩])

/-- Three rows of two floats, stored by columns. -/
def transposed : TensorImpl float :=
  TensorImpl.recompute fourLanes (.bare true ⟨4096, 6, .cpu, 0⟩ [⟨3, 1⟩, ⟨2, 3⟩])

theorem storage_readable : storage.Readable fourLanes :=
  ⟨TensorImpl.recompute_cached _ _, ⟨by decide, rfl, rfl⟩, by decide⟩

theorem row_readable : row.Readable fourLanes :=
  ⟨TensorImpl.recompute_cached _ _, ⟨by decide, rfl, rfl⟩, by decide⟩

theorem transposed_readable : transposed.Readable fourLanes :=
  ⟨TensorImpl.recompute_cached _ _, ⟨by decide, rfl, rfl⟩, by decide⟩

instance : Nontrivial (Fin float.size → UInt8) :=
  ⟨fun _ => 0, fun _ => 1, fun h => absurd (congrFun h ⟨0, float.size_pos⟩) (by decide)⟩

/-- A row is scattered to every third place. -/
theorem scattersLogically_iff_row :
    ScattersLogically fourLanes (Codec.bytes float.size) row storage 1 3 := by
  refine (scattersLogically_iff (Codec.bytes float.size) row_readable storage_readable (by decide)
    (by decide) (by decide) ?_).2 ⟨by decide, by decide⟩
  decide

/-- The transposed rows are read by raw pointer: the second element is not the logical
one. -/
theorem scattersLogically_transposed :
    ¬ ∀ (c : Codec (Fin float.size → UInt8) float.size) (src dst : TensorImpl float)
      (k index : Nat), src.Readable fourLanes → dst.Readable fourLanes →
      dst.contiguous = true →
      (src.data + src.view.size * float.size ≤ dst.data ∨
        dst.data + dst.view.size * float.size ≤ src.data) →
      1 ≤ index → (∀ i < src.numel, k + i * index < dst.numel) →
      ScattersLogically fourLanes c src dst k index := by
  intro h
  have hscatters := h (Codec.bytes float.size) transposed storage 0 1 transposed_readable
    storage_readable (by decide) (by decide) (by decide) (by decide)
  -- the raw second element holds ones, everything else zeros
  have hvalues := hscatters.values fun x => if x = 4100 then 1 else 0
  rw [scatterBlocks_sources] at hvalues
  have hsecond := List.map_inj_left.1 hvalues 1 (by decide)
  exact absurd (congrFun hsecond ⟨0, float.size_pos⟩) (by decide)

end ScatterWitness

end Vectorization
