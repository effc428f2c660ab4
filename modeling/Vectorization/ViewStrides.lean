/-
The stride computation of `view`.  The walk over chunks that are contiguous in memory
is compared with the chunks' exact element counts; offsets are residues modulo
`2 ^ 64`, where the wrapping products of the walk are exact.
-/
import Vectorization.Foundation.Regrouping
import Vectorization.ViewOperations

namespace Vectorization

open StridedSpace MachineInteger

/-- Element offsets as `size_t` holds them. -/
abbrev Offset := ZMod (2 ^ 64)

def Dim.residue (d : Dim) : Axis Offset := ⟨toU64 d.size, d.stride⟩

def residues (dims : List Dim) : List (Axis Offset) := dims.map Dim.residue

/-- The chunks of `compute_view_strides`, innermost first, with their exact element
counts and base strides. -/
def viewChunks : (dims : List Dim) → (base : Int) → (count : Nat) → List (Axis Int)
  | [], _, _ => []
  | d :: dims, base, count =>
      let count := count * toU64 d.size
      if chunkEnds base (wrapI64 count) dims then
        ⟨count, base⟩ :: viewChunks dims ((dims.head?.map Dim.stride).getD base) 1
      else viewChunks dims base count

def chunkResidues (chunks : List (Axis Int)) : List (Axis Offset) :=
  chunks.map fun a => ⟨a.size, a.stride⟩

section Residues

theorem intCast_wrapI64 (x : Int) : ((wrapI64 x : Int) : Offset) = x := by
  refine (ZMod.intCast_eq_intCast_iff' _ _ _).2 ?_
  exact_mod_cast wrapI64_emod x

theorem natCast_wrapU64 (n : Nat) : ((wrapU64 n : Nat) : Offset) = n :=
  ZMod.natCast_mod n _

theorem natCast_toU64 (x : Int) : ((toU64 x : Nat) : Offset) = x := by
  rw [← Int.cast_natCast, ZMod.intCast_eq_intCast_iff']
  exact_mod_cast toU64_emod x

theorem natCast_offset_inj {m n : Nat} (hm : m < 2 ^ 64) (hn : n < 2 ^ 64) :
    (m : Offset) = n ↔ m = n := by
  rw [ZMod.natCast_eq_natCast_iff', Nat.mod_eq_of_lt hm, Nat.mod_eq_of_lt hn]

theorem wrapI64_eq_iff {x y : Int} : wrapI64 x = wrapI64 y ↔ (x : Offset) = y := by
  constructor
  · intro h
    rw [← intCast_wrapI64 x, h, intCast_wrapI64]
  · intro h
    refine wrapI64_congr ?_
    exact_mod_cast (ZMod.intCast_eq_intCast_iff' _ _ _).1 h

theorem toU64_size_ne_zero {d : Dim} (h : 0 < d.size ∧ d.size ≤ int64Max) :
    toU64 d.size ≠ 0 := by
  rw [toU64_of_nonneg h.1.le h.2]
  omega

theorem elementCount_pos {dims : List Dim} (h : ∀ d ∈ dims, toU64 d.size ≠ 0) :
    0 < elementCount dims := by
  refine List.prod_pos fun n hn => ?_
  obtain ⟨d, hd, rfl⟩ := List.mem_map.1 hn
  exact Nat.pos_of_ne_zero (h d hd)

theorem residues_cons (d : Dim) (dims : List Dim) :
    residues (d :: dims) = d.residue :: residues dims := rfl

theorem sizes_residues (dims : List Dim) :
    StridedSpace.sizes (residues dims) = dims.map fun d => toU64 d.size := by
  rw [StridedSpace.sizes, residues, List.map_map]
  rfl

theorem sizes_chunkResidues (chunks : List (Axis Int)) :
    StridedSpace.sizes (chunkResidues chunks) = StridedSpace.sizes chunks := by
  rw [StridedSpace.sizes, chunkResidues, List.map_map]
  rfl

theorem logicalOffsetLoop_lt {dims : List Dim} {off : Nat} (hoff : off < 2 ^ 64) (i : Nat) :
    logicalOffsetLoop dims off i < 2 ^ 64 := by
  induction dims generalizing off i with
  | nil => exact hoff
  | cons d dims ih =>
      rw [logicalOffsetLoop]
      split
      · norm_num
      · exact ih (wrapU64_lt _) _

/-- `logical_offset` decodes by remainders, modulo the word. -/
theorem logicalOffsetLoop_residue {dims : List Dim} (hpos : ∀ d ∈ dims, toU64 d.size ≠ 0)
    (off i : Nat) :
    ((logicalOffsetLoop dims off i : Nat) : Offset) = off + decode (residues dims) i := by
  induction dims generalizing off i with
  | nil => exact (add_zero _).symm
  | cons d dims ih =>
      rw [logicalOffsetLoop, if_neg (hpos d List.mem_cons_self),
        ih (fun b hb => hpos b (List.mem_cons_of_mem d hb)), natCast_wrapU64, Nat.cast_add,
        Nat.cast_mul, natCast_toU64, residues_cons, decode, nsmul_eq_mul, add_assoc]
      rfl

/-- Two layouts give the same offsets exactly when their residues decode alike. -/
theorem logicalOffsetLoop_eq_iff {dims dims' : List Dim} (hpos : ∀ d ∈ dims, toU64 d.size ≠ 0)
    (hpos' : ∀ d ∈ dims', toU64 d.size ≠ 0) (i : Nat) :
    logicalOffsetLoop dims 0 i = logicalOffsetLoop dims' 0 i ↔
      decode (residues dims) i = decode (residues dims') i := by
  rw [← natCast_offset_inj (logicalOffsetLoop_lt (by norm_num) i)
    (logicalOffsetLoop_lt (by norm_num) i), logicalOffsetLoop_residue hpos,
    logicalOffsetLoop_residue hpos', add_right_inj]

end Residues

section Chunks

/-- The next dimension continues the chunk. -/
def Continues (base : Int) (count : Nat) (d : Dim) : Prop :=
  d.size = 1 ∨ (d.stride : Offset) = count • (base : Offset)

theorem chunkEnds_cons_eq_false {base : Int} {count : Nat} {d : Dim} {dims : List Dim}
    (h : ¬ chunkEnds base (wrapI64 count) (d :: dims) = true) : Continues base count d := by
  rw [chunkEnds, decide_eq_true_iff, not_and_or, not_not, not_not] at h
  refine h.imp_right fun hstride => ?_
  rw [hstride, intCast_wrapI64, Int.cast_mul, intCast_wrapI64, nsmul_eq_mul, Int.cast_natCast]

theorem chunkEnds_cons_eq_true {base : Int} {count : Nat} {d : Dim} {dims : List Dim}
    (hd : InInt64 d.stride) (h : chunkEnds base (wrapI64 count) (d :: dims) = true) :
    d.size ≠ 1 ∧ (d.stride : Offset) ≠ count • (base : Offset) := by
  rw [chunkEnds, decide_eq_true_iff] at h
  refine h.imp_right fun hstride heq => hstride ?_
  rw [← wrapI64_eq_self hd, wrapI64_eq_iff, heq, Int.cast_mul, intCast_wrapI64, nsmul_eq_mul,
    Int.cast_natCast]

theorem viewChunks_head (d : Dim) {dims : List Dim} (base : Int) (count : Nat)
    (hpos : ∀ b ∈ dims, toU64 b.size ≠ 0) :
    ∃ n chunks, viewChunks (d :: dims) base count = ⟨n, base⟩ :: chunks ∧
      count * toU64 d.size ≤ n := by
  induction dims generalizing d count with
  | nil => exact ⟨_, [], rfl, Nat.le_refl _⟩
  | cons b dims ih =>
      rw [viewChunks]
      split
      · exact ⟨_, _, rfl, Nat.le_refl _⟩
      · obtain ⟨n, chunks, heq, hle⟩ := ih b (count * toU64 d.size)
          fun c hc => hpos c (List.mem_cons_of_mem b hc)
        have := Nat.le_mul_of_pos_right (count * toU64 d.size)
          (Nat.pos_of_ne_zero (hpos b List.mem_cons_self))
        exact ⟨n, chunks, heq, this.trans hle⟩

theorem prod_viewChunks (d : Dim) (dims : List Dim) (base : Int) (count : Nat) :
    (StridedSpace.sizes (viewChunks (d :: dims) base count)).prod =
      count * elementCount (d :: dims) := by
  induction dims generalizing d base count with
  | nil =>
      change (count * toU64 d.size) * 1 = count * (toU64 d.size * 1)
      rw [Nat.mul_one, Nat.mul_one]
  | cons b dims ih =>
      rw [viewChunks, elementCount_cons, ← Nat.mul_assoc]
      split
      · rw [StridedSpace.sizes_cons, List.prod_cons, ih, Nat.one_mul]
      · exact ih b base _

/-- A dimension that continues a chunk is merged into it. -/
theorem decode_continues {d : Dim} {base : Int} {count : Nat} (h : Continues base count d)
    (axes : List (Axis Offset)) (i : Nat) :
    decode (⟨count, (base : Offset)⟩ :: d.residue :: axes) i =
      decode (⟨count * toU64 d.size, (base : Offset)⟩ :: axes) i := by
  rcases h with hone | hstride
  · have hunit : toU64 d.size = 1 := by
      rw [hone]
      rfl
    rw [decode, decode_cons_one hunit, hunit, Nat.mul_one]
    rfl
  · rw [Dim.residue, hstride, decode_merge]

/-- The chunks address what the dimensions address. -/
theorem decode_viewChunks {d : Dim} {dims : List Dim} {base : Int} {count : Nat}
    (h : Continues base count d) (i : Nat) :
    decode (chunkResidues (viewChunks (d :: dims) base count)) i =
      decode (⟨count, (base : Offset)⟩ :: residues (d :: dims)) i := by
  induction dims generalizing d base count i with
  | nil =>
      rw [residues_cons, decode_continues h]
      rfl
  | cons b dims ih =>
      rw [residues_cons, decode_continues h, viewChunks]
      split <;> rename_i hends
      · have hfirst : Continues b.stride 1 b := .inr (one_smul _ _).symm
        rw [chunkResidues, List.map_cons, decode, decode]
        refine congrArg _ ((ih hfirst _).trans ?_)
        exact decode_cons_one rfl _ _
      · exact ih (chunkEnds_cons_eq_false hends) i

/-- Chunks that follow each other cannot be merged. -/
theorem viewChunks_isChain {d : Dim} {dims : List Dim} (base : Int) (count : Nat)
    (hsizes : ∀ b ∈ d :: dims, 0 < b.size ∧ b.size ≤ int64Max)
    (hstride : ∀ b ∈ d :: dims, InInt64 b.stride) :
    (chunkResidues (viewChunks (d :: dims) base count)).IsChain Unmergeable := by
  induction dims generalizing d base count with
  | nil => exact List.isChain_singleton _
  | cons b dims ih =>
      have hsizes' := fun c hc => hsizes c (List.mem_cons_of_mem d hc)
      have hstride' := fun c hc => hstride c (List.mem_cons_of_mem d hc)
      rw [viewChunks]
      split <;> rename_i hends
      · have hrest := ih b.stride 1 hsizes' hstride'
        obtain ⟨hsize, hne⟩ :=
          chunkEnds_cons_eq_true (hstride' b List.mem_cons_self) hends
        obtain ⟨n, chunks, hchunks, hle⟩ := viewChunks_head b b.stride 1
          fun c hc => toU64_size_ne_zero (hsizes' c (List.mem_cons_of_mem b hc))
        change List.IsChain Unmergeable (_ :: chunkResidues (viewChunks (b :: dims) b.stride 1))
        rw [hchunks] at hrest ⊢
        have hb := hsizes' b List.mem_cons_self
        rw [toU64_of_nonneg hb.1.le hb.2] at hle
        exact List.isChain_cons_cons.2 ⟨⟨show 1 < n by omega, hne⟩, hrest⟩
      · exact ih _ _ hsizes' hstride'

end Chunks

section Walk

/-- New sizes as `sizes_and_strides` stores them. -/
abbrev storedSizes (ns : List Nat) : List Int := ns.map Nat.cast

theorem toU64_stored {n : Nat} (h : (n : Int) ≤ int64Max) : toU64 (n : Int) = n := by
  unfold int64Max at h
  exact (toU64_natCast n).trans (wrapU64_eq_self (by omega))

/-- The inner loop takes a run of the new sizes and packs it from its base on. -/
theorem viewChunk_run (base tensorNumel : Int) {ns : List Nat}
    (hns : ∀ n ∈ ns, (n : Int) ≤ int64Max) {viewNumel : Int} (hnumel : InInt64 viewNumel) :
    ∃ run rest, ns = run ++ rest ∧
      (viewChunk base tensorNumel (storedSizes ns) viewNumel).2 =
        (storedSizes rest, wrapI64 (viewNumel * run.prod)) ∧
      (viewChunk base tensorNumel (storedSizes ns) viewNumel).1.map Dim.size =
        storedSizes run ∧
      (∀ d ∈ (viewChunk base tensorNumel (storedSizes ns) viewNumel).1, InInt64 d.stride) ∧
      residues (viewChunk base tensorNumel (storedSizes ns) viewNumel).1 =
        packedAxes ((viewNumel * base : Int) : Offset) run := by
  induction ns generalizing viewNumel with
  | nil =>
      refine ⟨[], [], rfl, ?_, rfl, by simp [viewChunk], rfl⟩
      rw [List.prod_nil, Nat.cast_one, Int.mul_one, wrapI64_eq_self hnumel]
      rfl
  | cons n ns ih =>
      rw [storedSizes, List.map_cons, viewChunk]
      split
      · obtain ⟨run, rest, rfl, hnext, hsizes, hstrides, hres⟩ :=
          ih (fun m hm => hns m (List.mem_cons_of_mem n hm))
            (wrapI64_inInt64 (viewNumel * n))
        refine ⟨n :: run, rest, rfl, ?_, ?_, ?_, ?_⟩
        · refine hnext.trans (Prod.ext rfl (wrapI64_eq_iff.2 ?_))
          simp only [Int.cast_mul, intCast_wrapI64, List.prod_cons, Nat.cast_mul]
          ring
        · exact congrArg _ hsizes
        · intro d hd
          rcases List.mem_cons.1 hd with rfl | hd
          · exact wrapI64_inInt64 _
          · exact hstrides d hd
        · rw [residues_cons, packedAxes]
          refine congrArg₂ _ ?_ (hres.trans (congrArg (packedAxes · run) ?_))
          · rw [Dim.residue, toU64_stored (hns n List.mem_cons_self), intCast_wrapI64]
          · simp only [Int.cast_mul, intCast_wrapI64, nsmul_eq_mul, Int.cast_natCast]
            ring
      · refine ⟨[], n :: ns, rfl, ?_, rfl, by simp, rfl⟩
        rw [List.prod_nil, Nat.cast_one, Int.mul_one, wrapI64_eq_self hnumel]
        rfl

/-- Where a run of the right product exists, the inner loop ends at that product, and
what is left still splits the other chunks. -/
theorem viewChunk_of_run (base : Int) {viewNumel count : Nat} (hpos : 0 < count)
    (hcount : (count : Int) ≤ int64Max) {run rest counts : List Nat}
    (hrun : viewNumel * run.prod = count) (hcounts : Splits counts rest) :
    ∃ rest', (viewChunk base count (storedSizes (run ++ rest)) viewNumel).2 =
      (storedSizes rest', (count : Int)) ∧ Splits counts rest' := by
  induction run generalizing viewNumel with
  | nil =>
      rw [List.prod_nil, Nat.mul_one] at hrun
      subst hrun
      rw [List.nil_append]
      induction rest with
      | nil => exact ⟨[], rfl, hcounts⟩
      | cons n rest ih =>
          rw [storedSizes, List.map_cons, viewChunk]
          split <;> rename_i hnext
          · have hone : n = 1 := by
              rcases hnext with hlt | hone
              · omega
              · exact_mod_cast hone
            subst hone
            obtain ⟨rest', hchunk, hsplits⟩ := ih hcounts.drop_one
            refine ⟨rest', ?_, hsplits⟩
            rw [Nat.cast_one, Int.mul_one,
              wrapI64_eq_self ⟨le_trans (by decide) (Int.natCast_nonneg _), hcount⟩]
            exact hchunk
          · exact ⟨n :: rest, rfl, hcounts⟩
  | cons n run ih =>
      rw [List.prod_cons, ← Nat.mul_assoc] at hrun
      have hnext : 0 < viewNumel * n ∧ 0 < run.prod := by
        rw [← hrun] at hpos
        exact ⟨Nat.pos_of_mul_pos_right hpos, Nat.pos_of_mul_pos_left hpos⟩
      have hle : viewNumel * n ≤ count := hrun ▸ Nat.le_mul_of_pos_right _ hnext.2
      have hgoes : (viewNumel : Int) < count ∨ (n : Int) = 1 := by
        by_contra hstop
        rw [not_or] at hstop
        have htwo : viewNumel * 2 ≤ viewNumel * n :=
          Nat.mul_le_mul_left _ (by have := Nat.pos_of_mul_pos_left hnext.1; omega)
        have := Nat.pos_of_mul_pos_right hnext.1
        omega
      rw [List.cons_append, storedSizes, List.map_cons, viewChunk, if_pos hgoes, ← Nat.cast_mul,
        wrapI64_eq_self ⟨le_trans (by decide) (Int.natCast_nonneg _), by omega⟩]
      exact ih hrun

/-- Against a count that wrapped around, the inner loop takes sizes of one only. -/
theorem viewChunk_of_neg (base : Int) {tensorNumel : Int} (hneg : tensorNumel < 0)
    (sizes : List Int) : (viewChunk base tensorNumel sizes 1).2.2 = 1 := by
  induction sizes with
  | nil => rfl
  | cons n sizes ih =>
      rw [viewChunk]
      split <;> rename_i hnext
      · have hone : n = 1 := hnext.resolve_left (by omega)
        subst hone
        exact ih
      · rfl

theorem wrapI64_natCast_neg {n : Nat} (hlo : int64Max < n) (hhi : n < 2 ^ 64) :
    wrapI64 n < 0 := by
  unfold int64Max at hlo
  unfold wrapI64 Int.bmod
  norm_num
  omega

theorem stored_inInt64 {n : Nat} (h : (n : Int) ≤ int64Max) : InInt64 n :=
  ⟨le_trans (by decide) (Int.natCast_nonneg n), h⟩

/-- One chunk that the new sizes split is covered exactly. -/
theorem viewChunk_of_splits (base : Int) {count : Nat} (hpos : 0 < count)
    (hcount : (count : Int) ≤ int64Max) {counts ns : List Nat} (h : Splits (count :: counts) ns) :
    ∃ rest, (viewChunk base (wrapI64 count) (storedSizes ns) 1).2 =
      (storedSizes rest, wrapI64 count) ∧ Splits counts rest := by
  rw [wrapI64_eq_self (stored_inInt64 hcount)]
  generalize hcounts : count :: counts = counts' at h
  cases h with
  | nil => cases hcounts
  | cons run hrest =>
      obtain ⟨rfl, rfl⟩ := List.cons.inj hcounts
      exact viewChunk_of_run base hpos hcount (Nat.one_mul _) hrest

theorem viewStridesLoop_of_ends {d : Dim} {dims : List Dim} {base : Int} {count : Nat}
    (h : chunkEnds base (wrapI64 (count * toU64 d.size : Nat)) dims = true) (sizes : List Int) :
    viewStridesLoop (d :: dims) base (wrapI64 count) sizes =
      let chunk := viewChunk base (wrapI64 (count * toU64 d.size : Nat)) sizes 1
      if chunk.2.2 ≠ wrapI64 (count * toU64 d.size : Nat) then none
      else (viewStridesLoop dims ((dims.head?.map Dim.stride).getD base) (wrapI64 (1 : Nat))
        chunk.2.1).map (chunk.1 ++ ·) := by
  rw [viewStridesLoop, wrapI64_mul_size]
  exact if_pos h

theorem viewStridesLoop_of_continues {d : Dim} {dims : List Dim} {base : Int} {count : Nat}
    (h : ¬ chunkEnds base (wrapI64 (count * toU64 d.size : Nat)) dims = true)
    (sizes : List Int) :
    viewStridesLoop (d :: dims) base (wrapI64 count) sizes =
      viewStridesLoop dims base (wrapI64 (count * toU64 d.size : Nat)) sizes := by
  rw [viewStridesLoop, wrapI64_mul_size]
  exact if_neg h

/-- Where the chunks are counted exactly and the new sizes split them, the walk finds
strides. -/
theorem viewStridesLoop_of_splits {dims : List Dim} {base : Int} {count : Nat} {ns : List Nat}
    (hcount : 0 < count) (hpos : ∀ d ∈ dims, toU64 d.size ≠ 0)
    (hfit : ∀ a ∈ viewChunks dims base count, (a.size : Int) ≤ int64Max)
    (h : Splits (StridedSpace.sizes (viewChunks dims base count)) ns) :
    ∃ out, viewStridesLoop dims base (wrapI64 count) (storedSizes ns) = some out := by
  induction dims generalizing base count ns with
  | nil =>
      cases h
      exact ⟨[], rfl⟩
  | cons d dims ih =>
      have hpos' := fun b hb => hpos b (List.mem_cons_of_mem d hb)
      have hnext : 0 < count * toU64 d.size :=
        Nat.mul_pos hcount (Nat.pos_of_ne_zero (hpos d List.mem_cons_self))
      rw [viewChunks] at hfit h
      split at h <;> rename_i hends
      · rw [if_pos hends] at hfit
        obtain ⟨rest, hchunk, hrest⟩ :=
          viewChunk_of_splits base hnext (hfit _ List.mem_cons_self) h
        obtain ⟨out, hout⟩ := ih Nat.one_pos hpos'
          (fun a ha => hfit a (List.mem_cons_of_mem _ ha)) hrest
        rw [viewStridesLoop_of_ends hends]
        dsimp only
        rw [hchunk, if_neg (not_not.2 rfl), hout]
        exact ⟨_, rfl⟩
      · rw [if_neg hends] at hfit
        rw [viewStridesLoop_of_continues hends]
        exact ih hnext hpos' hfit h

/-- Strides that the walk finds pack the chunks, which are counted exactly. -/
theorem viewStridesLoop_some {dims out : List Dim} {base : Int} {count : Nat} {ns : List Nat}
    (hns : ∀ n ∈ ns, 0 < n ∧ (n : Int) ≤ int64Max) (hprod : ns.prod < 2 ^ 64)
    (hpos : ∀ d ∈ dims, toU64 d.size ≠ 0) (hpositive : 0 < count)
    (hcount : count * elementCount dims < 2 ^ 64)
    (h : viewStridesLoop dims base (wrapI64 count) (storedSizes ns) = some out) :
    (∀ a ∈ viewChunks dims base count, (a.size : Int) ≤ int64Max) ∧
      out.map Dim.size = storedSizes ns ∧ (∀ d ∈ out, InInt64 d.stride) ∧
      Packs (chunkResidues (viewChunks dims base count)) (residues out) := by
  induction dims generalizing base count ns out with
  | nil =>
      rw [viewStridesLoop] at h
      split at h <;> rename_i hnil
      · cases h
        obtain rfl := List.map_eq_nil_iff.1 hnil
        exact ⟨by simp [viewChunks], rfl, by simp, .nil⟩
      · cases h
  | cons d dims ih =>
      have hpos' := fun b hb => hpos b (List.mem_cons_of_mem d hb)
      rw [elementCount_cons, ← Nat.mul_assoc] at hcount
      rw [viewChunks]
      split <;> rename_i hends
      · rw [viewStridesLoop_of_ends hends] at h
        dsimp only at h
        split at h <;> rename_i hcovered
        · cases h
        rw [not_not] at hcovered
        obtain ⟨run, rest, rfl, hchunk, hsizes, hstrides, hres⟩ := viewChunk_run base
          (wrapI64 (count * toU64 d.size : Nat)) (fun n hn => (hns n hn).2)
          (show InInt64 1 by decide)
        rw [List.prod_append] at hprod
        have hnext : 0 < count * toU64 d.size :=
          Nat.mul_pos hpositive (Nat.pos_of_ne_zero (hpos d List.mem_cons_self))
        have hrun : 0 < run.prod := List.prod_pos fun n hn => (hns n (List.mem_append_left _ hn)).1
        have hrest : 0 < rest.prod :=
          List.prod_pos fun n hn => (hns n (List.mem_append_right _ hn)).1
        have hdims := elementCount_pos hpos'
        have hrunLt : run.prod < 2 ^ 64 :=
          Nat.lt_of_le_of_lt (Nat.le_mul_of_pos_right _ hrest) hprod
        have hlt : count * toU64 d.size < 2 ^ 64 :=
          Nat.lt_of_le_of_lt (Nat.le_mul_of_pos_right _ hdims) hcount
        have hexact : (count * toU64 d.size : Nat) ≤ int64Max := by
          by_contra hlarge
          have hneg := wrapI64_natCast_neg (Int.not_le.1 hlarge) hlt
          rw [viewChunk_of_neg base hneg] at hcovered
          omega
        rw [hchunk] at hcovered h
        dsimp only at hcovered
        rw [Int.one_mul, wrapI64_eq_iff, Int.cast_natCast, Int.cast_natCast,
          natCast_offset_inj hrunLt hlt] at hcovered
        generalize count * toU64 d.size = n at *
        subst hcovered
        obtain ⟨out', hout, rfl⟩ := Option.map_eq_some_iff.1 h
        obtain ⟨hfit, hsizes', hstrides', hpacks⟩ :=
          ih (fun n hn => hns n (List.mem_append_right _ hn))
            (Nat.lt_of_le_of_lt (Nat.le_mul_of_pos_left _ hrun) hprod) hpos' Nat.one_pos
            (by
              rw [Nat.one_mul]
              exact Nat.lt_of_le_of_lt (Nat.le_mul_of_pos_left _ hnext) hcount)
            hout
        refine ⟨?_, ?_, ?_, ?_⟩
        · intro a ha
          rcases List.mem_cons.1 ha with rfl | ha
          · exact hexact
          · exact hfit a ha
        · rw [List.map_append, hsizes, hsizes']
          exact List.map_append.symm
        · intro b hb
          rcases List.mem_append.1 hb with hb | hb
          · exact hstrides b hb
          · exact hstrides' b hb
        · have hall := hpacks.cons (base : Offset) run
          rw [Int.one_mul] at hres
          rw [← hres] at hall
          rw [residues, List.map_append]
          exact hall
      · rw [viewStridesLoop_of_continues hends] at h
        refine ih hns hprod hpos' (Nat.mul_pos hpositive ?_) hcount h
        exact Nat.pos_of_ne_zero (hpos d List.mem_cons_self)

end Walk

end Vectorization
