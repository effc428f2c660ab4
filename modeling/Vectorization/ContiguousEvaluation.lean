/-
The contiguous fast path.  Its loops tile the flat indices, aligned stores start
at register boundaries, and flat index `i` is the logical element `i` of the
destination and of every leaf; so it stores what the planner would store.
-/
import Vectorization.Evaluator
import Vectorization.PlannedEvaluation

namespace Vectorization

open StridedSpace MachineInteger ByteMemory LoopTiling

variable {T : ElementType} {α : Type}

section Tiling

/-- The steps cover `[i, j)` in order. -/
structure Tiles (steps : List FlatStep) (i j : Nat) : Prop where
  le : i ≤ j
  indices : steps.flatMap FlatStep.indices = List.range' i (j - i)

variable (S : SimdTarget T) (threads : ParallelFor) {steps steps' : List FlatStep}
  {i j k n : Nat}

theorem Tiles.nil (i : Nat) : Tiles [] i i :=
  ⟨Nat.le_refl i, by simp⟩

theorem Tiles.append (h : Tiles steps i j) (h' : Tiles steps' j k) :
    Tiles (steps ++ steps') i k := by
  have := h.le
  have := h'.le
  refine ⟨Nat.le_trans h.le h'.le, ?_⟩
  rw [List.flatMap_append, h.indices, h'.indices,
    show k - i = (j - i) + (k - j) by omega, ← List.range'_append_1,
    show i + (j - i) = j by omega]

theorem packetSteps_tiles (kind : StoreKind) (i stop : Nat) :
    Tiles (packetSteps S kind i stop) i (counterAfter i stop S.length) := by
  refine ⟨le_counterAfter _ _ _, ?_⟩
  rw [packetSteps, List.flatMap_map]
  exact starts_flatMap_range' i stop S.length

theorem scalarSteps_tiles (h : i ≤ n) : Tiles (scalarSteps i n) i n := by
  refine ⟨h, ?_⟩
  rw [scalarSteps, List.flatMap_map]
  have := starts_flatMap_range' i n 1
  rwa [counterAfter_one h] at this

theorem blockSteps_tiles (kind : StoreKind) (i stop : Nat) :
    Tiles (blockSteps S kind i stop) i (blockExit S i stop) := by
  rw [blockSteps, blockExit]
  split
  · refine ⟨le_counterAfter _ _ _, ?_⟩
    rw [← starts_flatMap_range', List.flatMap_assoc]
    congr 1
    funext b
    rw [List.flatMap_map, SimdTarget.block, Nat.mul_comm, ← flatMap_lanes]
    rfl
  · exact Tiles.nil i

/-- The unrolled loop ends a whole number of registers further, within its
bound. -/
theorem blockExit_spec (i m : Nat) :
    ∃ k ≤ m * S.packet, blockExit S i (i + m * S.block) = i + k * S.length := by
  rw [blockExit]
  split
  · refine ⟨m * S.packet, Nat.le_refl _, ?_⟩
    rw [counterAfter_exact S.block_pos, SimdTarget.block]
    ring
  · exact ⟨0, Nat.zero_le _, by simp⟩

/-- The loop of single registers after the unrolled one reaches its bound. -/
theorem counterAfter_blockExit {m q : Nat} (h : m * S.packet ≤ q) :
    counterAfter (blockExit S i (i + m * S.block)) (i + q * S.length) S.length =
      i + q * S.length := by
  obtain ⟨k, hk, hexit⟩ := blockExit_spec S i m
  rw [hexit]
  have hsplit : i + q * S.length = i + k * S.length + (q - k) * S.length := by
    rw [Nat.add_assoc, ← Nat.add_mul, Nat.add_sub_cancel' (Nat.le_trans hk h)]
  rw [hsplit]
  exact counterAfter_exact S.length_pos _ _

theorem blocks_le (x : Nat) : x / S.block * S.packet ≤ x / S.length := by
  rw [SimdTarget.block, ← Nat.div_div_eq_div_mul]
  exact Nat.div_mul_le_self _ _

theorem runChunkContiguous_tiles (h : i ≤ n) : Tiles (runChunkContiguous S i n) i n := by
  rw [runChunkContiguous]
  split
  · refine ((blockSteps_tiles S _ _ _).append (packetSteps_tiles S _ _ _)).append
      (scalarSteps_tiles ?_)
    rw [counterAfter_blockExit S (blocks_le S _)]
    exact add_div_mul_le h
  · exact scalarSteps_tiles h

/-- The aligned body, the unaligned registers and the scalar tail. -/
theorem runAligned_tiles {q : Nat} (h : i + q * S.length ≤ n) :
    Tiles (runAligned S i n (i + q * S.length)) i n := by
  have hq : q * S.length / S.block * S.packet ≤ q := by
    have := blocks_le S (q * S.length)
    rwa [Nat.mul_div_cancel _ S.length_pos] at this
  simp only [runAligned, Nat.add_sub_cancel_left, counterAfter_blockExit S hq]
  refine ((((blockSteps_tiles S _ _ _).append ?_).append
    (blockSteps_tiles S _ _ _)).append (packetSteps_tiles S _ _ _)).append
      (scalarSteps_tiles ?_)
  · have := packetSteps_tiles S .aligned
      (blockExit S i (i + q * S.length / S.block * S.block)) (i + q * S.length)
    rwa [counterAfter_blockExit S hq] at this
  · generalize i + q * S.length = i₂ at h ⊢
    have hr := blocks_le S ((n - i₂) / S.length * S.length)
    rw [Nat.mul_div_cancel _ S.length_pos] at hr
    rw [counterAfter_blockExit S hr]
    exact add_div_mul_le h

/-- Every flat index is stored once, however the range is split. -/
theorem flatSteps_perm {q : Nat} (hstart : i ≤ n) (hend : i + q * S.length ≤ n) :
    ((flatSteps S threads n i (i + q * S.length)).flatMap FlatStep.indices).Perm
      (List.range n) := by
  have whole : ∀ steps, Tiles steps 0 n →
      (steps.flatMap FlatStep.indices).Perm (List.range n) := fun steps h => by
    rw [h.indices, Nat.sub_zero, List.range_eq_range']
  have hpeel := scalarSteps_tiles (Nat.zero_le i)
  simp only [flatSteps, counterAfter_one (Nat.zero_le i)]
  split
  · split <;> rename_i hlt
    · obtain rfl : i = n := Nat.le_antisymm hstart hlt
      exact whole _ hpeel
    · split
      · rw [List.flatMap_append, hpeel.indices, List.flatMap_assoc, Nat.sub_zero]
        have hpiece : ∀ piece ∈ threads.pieces (n - i) kGrainSize,
            (runChunkContiguous S (i + piece.1) (i + piece.2)).flatMap FlatStep.indices =
              (List.range' piece.1 (piece.2 - piece.1)).map (i + ·) := by
          intro piece hpiece
          obtain ⟨hle, -⟩ := (threads.isSplit _ _).bounds piece hpiece
          rw [(runChunkContiguous_tiles S (Nat.add_le_add_left hle i)).indices,
            Nat.add_sub_add_left, List.map_add_range']
        rw [List.flatMap_congr hpiece, ← List.map_flatMap]
        refine (List.Perm.append_left _
          ((threads.isSplit _ _).flatMap_range'_perm.map _)).trans ?_
        rw [← List.range'_eq_map_range, List.range_eq_range']
        have happend := List.range'_append_1 (s := 0) (m := i) (n := n - i)
        rw [Nat.zero_add, Nat.add_sub_cancel' hstart] at happend
        rw [happend]
      · exact whole _ (hpeel.append (runAligned_tiles S hend))
  · exact whole _ (scalarSteps_tiles (Nat.zero_le n))

end Tiling

section Alignment

variable (S : SimdTarget T) (threads : ParallelFor) {i n : Nat} {s : FlatStep}

theorem kind_of_mem_scalarSteps {stop : Nat} (hs : s ∈ scalarSteps i stop) :
    s.kind = .scalar := by
  rw [scalarSteps, List.mem_map] at hs
  obtain ⟨first, -, rfl⟩ := hs
  rfl

theorem mem_packetSteps {kind : StoreKind} {stop : Nat}
    (hs : s ∈ packetSteps S kind i stop) :
    i < stop ∧ s.kind = kind ∧ ∃ k, s.first = i + k * S.length := by
  rw [packetSteps, List.mem_map] at hs
  obtain ⟨first, hfirst, rfl⟩ := hs
  refine ⟨Nat.lt_of_not_le fun hle => ?_, rfl, ?_⟩
  · rw [starts_of_ge S.length_pos hle] at hfirst
    cases hfirst
  · obtain ⟨k, -, rfl⟩ := List.mem_range'.1 hfirst
    exact ⟨k, by rw [Nat.mul_comm]⟩

theorem mem_blockSteps {kind : StoreKind} {stop : Nat}
    (hs : s ∈ blockSteps S kind i stop) :
    i < stop ∧ s.kind = kind ∧ ∃ k, s.first = i + k * S.length := by
  rw [blockSteps] at hs
  split at hs
  · obtain ⟨first, hfirst, hs⟩ := List.mem_flatMap.1 hs
    obtain ⟨k, -, rfl⟩ := List.mem_map.1 hs
    refine ⟨Nat.lt_of_not_le fun hle => ?_, rfl, ?_⟩
    · rw [starts_of_ge S.block_pos hle] at hfirst
      cases hfirst
    · obtain ⟨a, -, rfl⟩ := List.mem_range'.1 hfirst
      refine ⟨S.packet * a + k, ?_⟩
      simp only [SimdTarget.block]
      ring
  · cases hs

theorem runChunkContiguous_kind {first last : Nat}
    (hs : s ∈ runChunkContiguous S first last) : s.kind ≠ .aligned := by
  have hscalar : ∀ {j}, s ∈ scalarSteps j last → s.kind ≠ .aligned := fun hs => by
    rw [kind_of_mem_scalarSteps hs]
    decide
  rw [runChunkContiguous] at hs
  split at hs
  · simp only [List.mem_append] at hs
    rcases hs with (hs | hs) | hs
    · rw [(mem_blockSteps S hs).2.1]
      decide
    · rw [(mem_packetSteps S hs).2.1]
      decide
    · exact hscalar hs
  · exact hscalar hs

/-- The aligned stores of the body start whole registers after its first one. -/
theorem runAligned_boundary {alignEnd : Nat} (hs : s ∈ runAligned S i n alignEnd)
    (hkind : s.kind = .aligned) :
    i < alignEnd ∧ ∃ k, s.first = i + k * S.length := by
  simp only [runAligned, List.mem_append] at hs
  rcases hs with (((hs | hs) | hs) | hs) | hs
  · obtain ⟨hlt, -, hfirst⟩ := mem_blockSteps S hs
    have := Nat.div_mul_le_self (alignEnd - i) S.block
    exact ⟨by omega, hfirst⟩
  · obtain ⟨hlt, -, k, hfirst⟩ := mem_packetSteps S hs
    obtain ⟨k', -, hexit⟩ := blockExit_spec S i ((alignEnd - i) / S.block)
    rw [hexit] at hlt hfirst
    exact ⟨by omega, k' + k, by rw [hfirst]; ring⟩
  · rw [(mem_blockSteps S hs).2.1] at hkind
    cases hkind
  · rw [(mem_packetSteps S hs).2.1] at hkind
    cases hkind
  · rw [kind_of_mem_scalarSteps hs] at hkind
    cases hkind

theorem flatSteps_boundary {alignEnd : Nat} (hs : s ∈ flatSteps S threads n i alignEnd)
    (hkind : s.kind = .aligned) :
    i < alignEnd ∧ ∃ k, s.first = i + k * S.length := by
  have hscalar : ∀ {j stop}, s ∉ scalarSteps j stop := fun {j stop} hs => by
    rw [kind_of_mem_scalarSteps hs] at hkind
    cases hkind
  simp only [flatSteps, counterAfter_one (Nat.zero_le i)] at hs
  split at hs
  · split at hs
    · exact absurd hs hscalar
    · split at hs
      · rcases List.mem_append.1 hs with hs | hs
        · exact absurd hs hscalar
        · obtain ⟨piece, -, hs⟩ := List.mem_flatMap.1 hs
          exact absurd hkind (runChunkContiguous_kind S hs)
      · rcases List.mem_append.1 hs with hs | hs
        · exact absurd hs hscalar
        · exact runAligned_boundary S hs hkind
  · exact absurd hs hscalar

/-- An aligned store of a tensor with up-to-date fields is aligned. -/
theorem flatSteps_aligned {t : TensorImpl T} (hcached : t.Cached S)
    (hs : s ∈ flatSteps S threads t.numel t.alignStart t.alignEnd)
    (hkind : s.kind = .aligned) : S.simdAlign ∣ t.data + s.first * T.size := by
  obtain ⟨q, hend, -, hdvd⟩ := hcached.align_spec
  obtain ⟨hlt, k, hfirst⟩ := flatSteps_boundary S threads hs hkind
  have hq : 0 < q := by
    refine Nat.pos_of_ne_zero fun hzero => ?_
    rw [hend, hzero] at hlt
    omega
  rw [hfirst, Nat.add_mul, ← Nat.add_assoc, Nat.mul_assoc]
  exact Nat.dvd_add (hdvd hq) (Nat.dvd_mul_left_of_dvd S.simdAlign_dvd_register k)

end Alignment

section Values

variable (c : Codec α T.size) {e : Expr (Leaf T) α} {n : Nat} {shape : List Nat}

/-- The value of the tree with every leaf read at a flat index. -/
def flatValue (c : Codec α T.size) (m : Memory) (e : Expr (Leaf T) α) (i : Nat) : α :=
  e.evaluate fun l => load c m (l.data + i * T.size)

/-- A lane of a step holds the value at its flat index, whether it was loaded by
element or by register. -/
theorem FlatStep.op_value (hlanes : e.LaneWise) (hflat : leavesFlat n e = true) (data : Nat)
    (s : FlatStep) (m : Memory) (lane : Nat) :
    (s.op c e data).value m lane = flatValue c m e (s.first + lane) := by
  have hscalar : e.evaluate (Leaf.read c m (s.first + lane)) =
      flatValue c m e (s.first + lane) := by
    refine Expr.evaluate_congr fun l hl => ?_
    rw [Leaf.read, Leaf.leafOffset_of_contiguous (leavesFlat_spec hflat l hl).1]
  have hpacket : e.evaluatePacket (Leaf.readPacket c m s.first) lane =
      flatValue c m e (s.first + lane) := by
    rw [Expr.evaluatePacket_lane hlanes]
    rfl
  rw [op]
  cases s.kind with
  | scalar => exact hscalar
  | unaligned | aligned => exact hpacket

theorem FlatStep.op_writes (hlanes : e.LaneWise) (hflat : leavesFlat n e = true) (data : Nat)
    (s : FlatStep) (m : Memory) :
    (s.op c e data).writes T.size m =
      s.indices.map fun (i : Nat) => ((data + i * T.size : Int), flatValue c m e i) := by
  rw [StoreOp.writes, indices, List.range'_eq_map_range, List.map_map]
  refine List.map_congr_left fun lane _ => ?_
  rw [op_value c hlanes hflat]
  simp only [op, Function.comp_apply]
  push_cast
  congr 1
  ring

/-- Flat index `i` of a leaf is its element at the `i`-th multi-index of the
result. -/
theorem readAddress_unflatten (hflat : leavesFlat shape.prod e = true)
    (hfit : ∀ l ∈ e.leaves, BroadcastsTo l.toRef.sizes shape)
    (hleaves : ∀ l ∈ e.leaves, l.toRef.Described) {i : Nat} (hi : i < shape.prod) :
    ∀ l ∈ e.leaves, l.readAddress (unflatten shape i) = l.data + i * T.size := by
  intro l hl
  obtain ⟨hcontig, hnumel⟩ := leavesFlat_spec hflat l hl
  rw [Leaf.readAddress_flat (hleaves l hl) hcontig (hfit l hl) hnumel
    (unflatten_inBounds hi), flatten_unflatten hi]

theorem flatValue_eq (hflat : leavesFlat shape.prod e = true)
    (hfit : ∀ l ∈ e.leaves, BroadcastsTo l.toRef.sizes shape)
    (hleaves : ∀ l ∈ e.leaves, l.toRef.Described) {i : Nat} (hi : i < shape.prod)
    (m : Memory) : flatValue c m e i = logicalValue c m e (unflatten shape i) :=
  Expr.evaluate_congr fun l hl => by
    rw [readAddress_unflatten hflat hfit hleaves hi l hl]

/-- What a flat evaluation of the tree into a packed destination does. -/
structure FlatRun (S : SimdTarget T) (c : Codec α T.size) (e : Expr (Leaf T) α)
    (dst : TensorImpl T) (shape : List Nat) (steps : List FlatStep) : Prop where
  /-- Every flat index is stored once and none past the last. -/
  once : (steps.flatMap FlatStep.indices).Perm (List.range dst.numel)
  aligned : ∀ s ∈ steps, s.kind = .aligned → S.simdAlign ∣ dst.data + s.first * T.size
  /-- A step stores the values of the tree at its logical elements. -/
  stores : ∀ s ∈ steps, ∀ m, (s.op c e dst.data).writes T.size m =
    s.indices.map fun (i : Nat) =>
      ((dst.data + i * T.size : Int), logicalValue c m e (unflatten shape i))
  /-- A flat index is a logical element, of the destination and of every leaf. -/
  cells : ∀ i < dst.numel,
    dst.strided.address (unflatten shape i) = dst.data + i * T.size ∧
      ∀ l ∈ e.leaves, l.readAddress (unflatten shape i) = l.data + i * T.size
  /-- Nothing past the last element of a leaf is loaded. -/
  loads : ∀ s ∈ steps, ∀ m m' : Memory,
    (∀ l ∈ e.leaves, ∀ x : Int, l.data ≤ x → x < l.data + dst.numel * T.size →
      m x = m' x) →
    (s.op c e dst.data).writes T.size m = (s.op c e dst.data).writes T.size m'

/-- The logical elements of a contiguous destination lie in cells apart. -/
theorem address_apart_of_contiguous {dst : StridedRef T} (h : dst.Described)
    (hcontig : dst.contiguous = true) :
    (indices dst.sizes).Pairwise fun i j =>
      Apart T.size (dst.address i) (dst.address j) := by
  refine (indices_nodup dst.sizes).imp_of_mem fun {i j} hi hj hij => ?_
  rw [mem_indices] at hi hj
  rw [h.address_eq hcontig hi, h.address_eq hcontig hj]
  refine apart_of_ne fun heq => hij ?_
  rw [← unflatten_flatten hi, Int.natCast_inj.1 heq, unflatten_flatten hj]

variable (S : SimdTarget T) (threads : ParallelFor) {dst : TensorImpl T}

theorem flatSteps_flatRun (hlanes : e.LaneWise)
    (hfit : ∀ l ∈ e.leaves, BroadcastsTo l.toRef.sizes shape)
    (hdst : dst.sizes = shape.map Nat.cast) (hint : (shape.prod : Int) ≤ int64Max)
    (hcached : dst.Cached S) (hcontig : dst.contiguous = true)
    (hflat : leavesFlat dst.numel e = true) (hleaves : ∀ l ∈ e.leaves, l.toRef.Described) :
    FlatRun S c e dst shape (flatSteps S threads dst.numel dst.alignStart dst.alignEnd) := by
  have hsizes := dst.strided_sizes hdst
  have hdesc := hcached.strided_described (TensorImpl.sizes_nonneg hdst)
    (by rw [hsizes]; exact hint)
  have hnumel : dst.numel = shape.prod := hsizes ▸ hdesc.numel_eq
  have hflat' := hnumel ▸ hflat
  obtain ⟨q, hend, hle, -⟩ := hcached.align_spec
  have honce := flatSteps_perm S threads (Nat.le_trans (Nat.le_add_right _ _) hle) hle
  rw [← hend] at honce
  have hlt : ∀ s ∈ flatSteps S threads dst.numel dst.alignStart dst.alignEnd,
      ∀ i ∈ s.indices, i < dst.numel := fun s hs i hi =>
    List.mem_range.1 (honce.mem_iff.1 (List.mem_flatMap.2 ⟨s, hs, hi⟩))
  refine ⟨honce, fun s hs => flatSteps_aligned S threads hcached hs, fun s hs m => ?_,
    fun i hi => ⟨?_, ?_⟩, fun s hs m m' hm => ?_⟩
  · rw [FlatStep.op_writes c hlanes hflat]
    refine List.map_congr_left fun i hi => ?_
    rw [flatValue_eq c hflat' hfit hleaves (hnumel ▸ hlt s hs i hi)]
  · rw [hnumel] at hi
    have hidx : InBounds (unflatten shape i) dst.strided.sizes := by
      rw [hsizes]
      exact unflatten_inBounds hi
    rw [hdesc.address_eq hcontig hidx, hsizes, flatten_unflatten hi]
    rfl
  · exact readAddress_unflatten hflat' hfit hleaves (hnumel ▸ hi)
  · rw [FlatStep.op_writes c hlanes hflat, FlatStep.op_writes c hlanes hflat]
    refine List.map_congr_left fun i hi => Prod.ext rfl ?_
    refine Expr.evaluate_congr fun l hl => load_congr c fun x hx => hm l hl x ?_ ?_
    · exact le_trans (Int.le_add_of_nonneg_right (by positivity)) hx.1
    · refine lt_of_lt_of_le hx.2 ?_
      have hstep : ((i + 1 : Nat) : Int) * T.size ≤ dst.numel * T.size :=
        Int.mul_le_mul_of_nonneg_right (by exact_mod_cast hlt s hs i hi)
          (Int.natCast_nonneg _)
      rw [Nat.cast_succ, Int.add_mul, Int.one_mul] at hstep
      omega

/-- A flat run stores what a planned run stores, in another order. -/
theorem FlatRun.writes {steps : List FlatStep} (h : FlatRun S c e dst shape steps)
    (hnumel : dst.numel = shape.prod) (m : Memory) :
    (writesOf T.size m (steps.map (FlatStep.op c e dst.data))).Perm
      ((indices shape).map fun idx =>
        (dst.strided.address idx, logicalValue c m e idx)) := by
  have hwrites : writesOf T.size m (steps.map (FlatStep.op c e dst.data)) =
      (steps.flatMap FlatStep.indices).map fun (i : Nat) =>
        ((dst.data + i * T.size : Int), logicalValue c m e (unflatten shape i)) := by
    rw [writesOf, List.flatMap_map, List.map_flatMap]
    exact List.flatMap_congr fun s hs => h.stores s hs m
  rw [hwrites, indices_eq_map_unflatten, List.map_map, ← hnumel]
  refine (h.once.map _).trans (List.Perm.of_eq ?_)
  refine List.map_congr_left fun i hi => ?_
  rw [Function.comp_apply, (h.cells i (List.mem_range.1 hi)).1]

/-- The flat steps leave the snapshot. -/
theorem FlatRun.holdsSnapshot {steps : List FlatStep} (h : FlatRun S c e dst shape steps)
    (hnumel : dst.numel = shape.prod) (hsizes : dst.strided.sizes = shape)
    (hfit : ∀ l ∈ e.leaves, BroadcastsTo l.toRef.sizes shape)
    (hsafe : ∀ l ∈ e.leaves, AliasSafe dst.strided l) (hdesc : dst.strided.Described)
    (hcontig : dst.contiguous = true) (m : Memory) :
    HoldsSnapshot c e dst.strided m (run c (steps.map (FlatStep.op c e dst.data)) m) := by
  have hreal : Realizes T.size (fun (i : Nat) => (dst.data + i * T.size : Int))
      (fun m i => logicalValue c m e (unflatten shape i))
      (steps.map (FlatStep.op c e dst.data)) (steps.map FlatStep.indices) :=
    Realizes.map h.stores
  refine holdsSnapshot_of_realizes (flatten shape) hreal ?_ ?_ ?_
    (hsizes ▸ hfit) hsafe (address_apart_of_contiguous hdesc hcontig) m
  · rw [← List.flatMap_def, hsizes, indices_eq_map_unflatten, List.map_map]
    refine h.once.trans (List.Perm.of_eq ?_)
    rw [hnumel]
    conv_lhs => rw [← List.map_id (List.range shape.prod)]
    exact List.map_congr_left fun i hi => (flatten_unflatten (List.mem_range.1 hi)).symm
  · intro idx hidx
    rw [hdesc.address_eq hcontig hidx, hsizes]
    rfl
  · intro idx hidx m
    rw [unflatten_flatten (hsizes ▸ hidx)]

/-- The contiguous fast path agrees with the general semantics: whatever the
element count, the address, the register and how the range is split, it stores
every logical element once, with the value the planner stores there. -/
theorem runLowered_flat (hlanes : e.LaneWise) (hshape : expressionResultShape e = .ok shape)
    (hdst : dst.sizes = shape.map Nat.cast) (hint : (shape.prod : Int) ≤ int64Max)
    (hcached : dst.Cached S) (hcpu : dst.device = .cpu) (hcontig : dst.contiguous = true)
    (hflat : leavesFlat dst.numel e = true) (hleaves : ∀ l ∈ e.leaves, l.toRef.Described) :
    ∃ steps,
      runLowered S threads c e dst = .ok (steps.map (FlatStep.op c e dst.data)) ∧
      FlatRun S c e dst shape steps ∧
      (e.leaves.length ≤ 31 → ∃ ops,
        runPlanned S threads c e dst.strided shape = .ok ops ∧
          ∀ m, (writesOf T.size m (steps.map (FlatStep.op c e dst.data))).Perm
            (writesOf T.size m ops)) := by
  have hfit := expressionResultShape_fits hshape
  have hsizes := dst.strided_sizes hdst
  have hdesc := hcached.strided_described (TensorImpl.sizes_nonneg hdst)
    (by rw [hsizes]; exact hint)
  have hnumel : dst.numel = shape.prod := hsizes ▸ hdesc.numel_eq
  have hrun := flatSteps_flatRun c S threads hlanes hfit hdst hint hcached hcontig hflat hleaves
  refine ⟨_, ?_, hrun, fun hlen => ?_⟩
  · simp only [runLowered, hshape, checkResultShape, hdst, checkCpuReachable, hcpu, hflat,
      hcontig, bind, Except.bind, pure, Except.pure, ↓reduceIte, not_true, or_self]
  · have hstride : shape.prod ≠ 0 → ∀ a ∈ dst.strided.dims, 1 < a.size → a.stride ≠ 0 :=
      fun hne => hdesc.stride_ne_zero hcontig (hdesc.numel_eq ▸ hsizes ▸ hne)
    obtain ⟨ops, hops, hwrites⟩ := runPlanned_writes S threads c hlanes
      (Nat.lt_of_le_of_lt hlen (by decide)) hfit hsizes hint hstride
    exact ⟨ops, hops, fun m => (hrun.writes c S hnumel m).trans (hwrites m).symm⟩

end Values

namespace ContiguousEvaluationWitness

open Sample

/-- Two rows of five floats, four bytes past an aligned address. -/
def packed : TensorImpl float := TensorImpl.recompute fourLanes
  { isView := false
    sizesAndStrides := [⟨1, 10⟩, ⟨2, 5⟩, ⟨5, 1⟩]
    view := ⟨4100, 10, .cpu, 0⟩
    alignStart := 0
    alignEnd := 0
    numel := 0
    contiguous := false
    nonOverlapping := false }

def slab : StridedRef float :=
  { cpuRef 12288 [⟨1, 10⟩, ⟨2, 5⟩, ⟨5, 1⟩] with contiguous := true }

/-- A leaf of the same element count and smaller rank. -/
def rows : StridedRef float := { cpuRef 8192 [⟨2, 5⟩, ⟨5, 1⟩] with contiguous := true }

def sum : Expr (Leaf float) (Fin 4 → UInt8) :=
  .binary (.lanes fun x y k => x k + y k) (.leaf (.ref slab)) (.leaf (.ref rows))

theorem sum_laneWise : sum.LaneWise :=
  ⟨BinaryFunctor.lanes_laneWise _, trivial, trivial⟩

theorem runLowered_flat_sum : ∃ steps,
    runLowered fourLanes twoThreads (Codec.bytes 4) sum packed =
        .ok (steps.map (FlatStep.op (Codec.bytes 4) sum 4100)) ∧
      FlatRun fourLanes (Codec.bytes 4) sum packed [1, 2, 5] steps := by
  have hshape : expressionResultShape sum = .ok [1, 2, 5] := rfl
  have hcached : packed.Cached fourLanes := TensorImpl.recompute_cached _ _
  have hleaves : ∀ l ∈ sum.leaves, l.toRef.Described := by
    intro l hl
    rcases List.mem_cons.1 hl with rfl | hl
    · exact ⟨by decide, fun _ _ => by decide⟩
    · obtain rfl := List.mem_singleton.1 hl
      exact ⟨by decide, fun _ _ => by decide⟩
  obtain ⟨steps, hrun, hflat, -⟩ := runLowered_flat (Codec.bytes 4) fourLanes twoThreads
    sum_laneWise hshape (by decide) (by decide) hcached rfl (by decide) (by decide) hleaves
  exact ⟨steps, hrun, hflat⟩

example : flatSteps fourLanes twoThreads packed.numel packed.alignStart packed.alignEnd =
    [⟨.scalar, 0, 1⟩, ⟨.scalar, 1, 1⟩, ⟨.scalar, 2, 1⟩, ⟨.aligned, 3, 4⟩, ⟨.scalar, 7, 1⟩,
      ⟨.scalar, 8, 1⟩, ⟨.scalar, 9, 1⟩] := by decide

end ContiguousEvaluationWitness

end Vectorization
