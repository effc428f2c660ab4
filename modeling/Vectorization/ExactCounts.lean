/-
The counts of `reduce_expression`.  A batch is small enough that the floating counter of
every lane stays an exact integer; the counters are converted before they are merged.
-/
import Vectorization.ElementFolds

namespace Vectorization

open StridedSpace MachineInteger ByteMemory LoopTiling Combining

variable {T : ElementType} {α : Type}

/-- The integers up to `2 ^ 24` are values of the scalar type, which its addition and its
conversion to `std::uint64_t` treat as integers. -/
structure ExactCounters (F : Scalar α) (V : SimdReduce α) (toUInt64 : α → UInt64)
    (counter : Nat → α) : Prop where
  zero : counter 0 = F.zero
  add_one : ∀ j < 2 ^ 24, V.add (counter j) F.one = counter (j + 1)
  add_zero : ∀ j ≤ 2 ^ 24, V.add (counter j) F.zero = counter j
  cast : ∀ j ≤ 2 ^ 24, toUInt64 (counter j) = UInt64.ofNat j

section Reducer

variable (F : Scalar α) (V : SimdReduce α) (toUInt64 : α → UInt64)

/-- The accumulators of a count of the elements that `hit` holds of. -/
def countReducer (hit : α → Bool) (length packet : Nat) : Reducer α α UInt64 where
  identity := 0
  update count x := count + Scalar.uint64.ofBool (hit x)
  laneIdentity := F.zero
  laneUpdate count x := V.add count (if hit x then F.one else F.zero)
  merge count lanes :=
    ((List.range packet).flatMap fun k => (List.range length).map (lanes k)).foldl
      (fun count lane => count + toUInt64 lane) count

/-- The elements that `count_nonzero` counts. -/
def Scalar.isNonzero (x : α) : Bool := !F.eq x F.zero

/-- The elements that `count_valid` counts. -/
def Scalar.isValid (x : α) : Bool := F.eq x x

variable {F V toUInt64} {counter : Nat → α} (h : ExactCounters F V toUInt64 counter)
include h

/-- A lane counts its hits. -/
theorem ExactCounters.foldl_lane (hit : α → Bool) {given : List α} (j : Nat)
    (hbound : j + given.length ≤ 2 ^ 24) :
    given.foldl (fun count x => V.add count (if hit x then F.one else F.zero)) (counter j) =
      counter (j + given.countP hit) :=
  foldl_counts h.add_one h.add_zero hit hbound

omit h in
theorem foldl_uint64 (hit : α → Bool) (xs : List α) (n : Nat) :
    (xs.map fun x => Scalar.uint64.ofBool (hit x)).foldl (· + ·) (UInt64.ofNat n) =
      UInt64.ofNat (n + xs.countP hit) := by
  rw [List.foldl_map]
  exact foldl_counts (fun n _ => (UInt64.ofNat_add n 1).symm) (fun _ _ => UInt64.add_zero _) hit
    le_rfl

/-- The counter of a lane, and its conversion. -/
theorem ExactCounters.lane_eq (hit : α → Bool) {given : List α} (hle : given.length ≤ 4096) :
    given.foldl (fun count x => V.add count (if hit x then F.one else F.zero)) F.zero =
        counter (given.countP hit) ∧ given.countP hit ≤ 4096 := by
  have hbound : 0 + given.length ≤ 2 ^ 24 := by omega
  have hcount := h.foldl_lane hit 0 hbound
  rw [h.zero, Nat.zero_add] at hcount
  exact ⟨hcount, List.countP_le_length.trans hle⟩

/-- Within the bound of a batch the counters are exact. -/
theorem countReducer_folds (hit : α → Bool) (length packet : Nat) :
    (countReducer F V toUInt64 hit length packet).Folds length packet (some 4096)
      (fun _ => True) (· + ·) (fun _ => True) fun x => Scalar.uint64.ofBool (hit x) := by
  have hexact : ReduceOp.countNonzero.ExactOn F fun _ => True := exactOn_counts rfl
  refine folds_of_stores toUInt64 hexact
    (fun _ => trivial) (fun _ _ => rfl) ?_ fun _ _ => rfl
  intro given _ hbound
  obtain ⟨hcounter, hle⟩ := h.lane_eq hit (hbound 4096 rfl)
  refine (congrArg toUInt64 hcounter).trans ((h.cast _ (by omega)).trans ?_)
  have hfold := foldl_uint64 hit given 0
  rw [Nat.zero_add] at hfold
  exact hfold.symm

end Reducer

section Statement

variable (F : Scalar α) (V : SimdReduce α) (toUInt64 : α → UInt64) (counter : Nat → α)
  (S : SimdTarget T) (c : Codec α T.size) (m : Memory)

/-- The batches of the counts of `n` elements. -/
def countBatches (S : SimdTarget T) (n : Nat) : List (List LaneStep) :=
  batches S.unrolledByFour true 0 (n - n % S.length)

/-- The counts of the operand are exact. -/
structure CountsExactly (operand : ReductionOperand T α) : Prop where
  /-- A counter that is converted is an integer up to 4096. -/
  lanes : ∀ (hit : α → Bool), ∀ batch ∈ countBatches S (operand.size F),
    ∀ k < S.unrolledByFour.packet, ∀ lane < S.length, ∃ j ≤ 4096,
      accumulateLanes (countReducer F V toUInt64 hit S.length S.unrolledByFour.packet)
        (operand.registerLoad F c m · ·) batch k lane = counter j
  /-- Every index of a whole register is visited in one batch, once. -/
  visits : ((countBatches S (operand.size F)).flatMap fun batch =>
      (batch.map LaneStep.step).flatMap FlatStep.indices) =
    List.range (operand.size F - operand.size F % S.length)
  /-- Whatever is counted by these loops. -/
  hits : ∀ hit : α → Bool, ∃ count,
    reduceExpression F c m S
        (countReducer F V toUInt64 hit S.length S.unrolledByFour.packet) true operand = .ok count ∧
      count.toNat = (operand.elements F c m).countP hit
  countNonzero : ∃ count : UInt64,
    reduceExpressionOp F V c m S toUInt64 .countNonzero operand = .ok count ∧
      count.toNat = (operand.elements F c m).countP F.isNonzero
  countValid : ∃ count : UInt64,
    reduceExpressionOp F V c m S toUInt64 .countValid operand = .ok count ∧
      count.toNat = (operand.elements F c m).countP F.isValid

variable {F V toUInt64 counter S} {operand : ReductionOperand T α}

/-- What is visited is counted modulo `2 ^ 64`. -/
theorem reduceExpression_countReducer (h : operand.Valid F S) (hlanes : operand.LaneWise)
    (hexact : ExactCounters F V toUInt64 counter) (hit : α → Bool) :
    reduceExpression F c m S
        (countReducer F V toUInt64 hit S.length S.unrolledByFour.packet) true operand =
      .ok (UInt64.ofNat ((operand.visited F c m).countP hit)) := by
  have hR := countReducer_folds hexact hit S.unrolledByFour.length S.unrolledByFour.packet
  have hfold := foldl_uint64 hit (operand.visited F c m) 0
  rw [Nat.zero_add] at hfold
  exact (ReductionOperand.reduceExpression_eq c m h hlanes true hR
    fun _ _ => trivial).trans (congrArg Except.ok hfold)

theorem countsExactly_of_lt (h : operand.Valid F S) (hlanes : operand.LaneWise)
    (hexact : ExactCounters F V toUInt64 counter)
    (hcount : (operand.shape F).prod < 2 ^ 64) :
    CountsExactly F V toUInt64 counter S c m operand := by
  obtain ⟨htiles, -⟩ := vectorBatches_tiles S true (operand.size F)
  have hhits (hit : α → Bool) : ∃ count, reduceExpression F c m S
        (countReducer F V toUInt64 hit S.length S.unrolledByFour.packet) true operand =
          .ok count ∧ count.toNat = (operand.elements F c m).countP hit := by
    refine ⟨_, reduceExpression_countReducer c m h hlanes hexact hit, ?_⟩
    have hle := (operand.elements F c m).countP_le_length (p := hit)
    rw [ReductionOperand.length_elements] at hle
    rw [h.visited_eq c m hcount]
    exact UInt64.toNat_ofNat_of_lt' (by rw [UInt64.size]; omega)
  refine ⟨fun hit batch hbatch k hk lane hlane => ?_, ?_, hhits, hhits _, hhits _⟩
  · have hlen : batch.length ≤ 4096 := BatchTiles.length_le _ htiles batch hbatch
    have hgiven : ((batch.filter fun s => s.accumulator = k).map fun s =>
        operand.registerLoad F c m s.step.first lane).length ≤ 4096 := by
      rw [List.length_map]
      exact (List.length_filter_le _ batch).trans hlen
    rw [accumulateLanes_eq]
    obtain ⟨hcounter, hle⟩ := hexact.lane_eq hit hgiven
    exact ⟨_, hle, hcounter⟩
  · rw [List.range_eq_range']
    exact htiles.indices

/-- The counts are exact exactly when the elements can be counted. -/
theorem countsExactly_iff (h : operand.Valid F S) (hlanes : operand.LaneWise)
    (hexact : ExactCounters F V toUInt64 counter) :
    CountsExactly F V toUInt64 counter S c m operand ↔ (operand.shape F).prod < 2 ^ 64 := by
  refine ⟨fun hcounts => ?_, countsExactly_of_lt c m h hlanes hexact⟩
  obtain ⟨count, -, heq⟩ := hcounts.hits fun _ => true
  rw [← ReductionOperand.length_elements (c := c) (m := m), ← List.countP_true, ← heq]
  exact count.toNat_lt

end Statement

namespace ExactCountsWitness

open Sample ElementFoldsWitness

/-- The number that four bytes stand for, the least significant first. -/
def value (b : Fin 4 → UInt8) : Nat :=
  (List.finRange 4).foldr (fun k n => (b k).toNat + 256 * n) 0

def ofNat (n : Nat) : Fin 4 → UInt8 := fun k => UInt8.ofNat (n / 256 ^ k.val)

theorem value_ofNat {n : Nat} (h : n < 2 ^ 32) : value (ofNat n) = n := by
  have h0 : (ofNat n 0).toNat = n / 1 % 256 := UInt8.toNat_ofNat'
  have h1 : (ofNat n 1).toNat = n / 256 % 256 := UInt8.toNat_ofNat'
  have h2 : (ofNat n 2).toNat = n / 65536 % 256 := UInt8.toNat_ofNat'
  have h3 : (ofNat n 3).toNat = n / 16777216 % 256 := UInt8.toNat_ofNat'
  change (ofNat n 0).toNat + 256 * ((ofNat n 1).toNat + 256 * ((ofNat n 2).toNat +
    256 * ((ofNat n 3).toNat + 256 * 0))) = n
  rw [h0, h1, h2, h3]
  omega

/-- 32-bit words. -/
def words : Scalar (Fin 4 → UInt8) where
  zero := ofNat 0
  one := ofNat 1
  finiteMax := ofNat (2 ^ 32 - 1)
  neg a := ofNat (2 ^ 32 - value a)
  add a b := ofNat (value a + value b)
  mul a b := ofNat (value a * value b)
  lt a b := decide (value a < value b)
  eq a b := decide (value a = value b)

def wordLanes : SimdReduce (Fin 4 → UInt8) where
  add := words.add
  mul := words.mul
  min a b := if words.lt a b then a else b
  max a b := if words.lt b a then a else b
  accumulate length lanes := ((List.range length).map lanes).foldl words.add words.zero
  hmin _ lanes := lanes 0
  hmax _ lanes := lanes 0

def toUInt64 (a : Fin 4 → UInt8) : UInt64 := UInt64.ofNat (value a)

theorem exactCounters_words : ExactCounters words wordLanes toUInt64 ofNat where
  zero := rfl
  add_one j hj := by
    change ofNat (value (ofNat j) + value (ofNat 1)) = _
    rw [value_ofNat (by omega), value_ofNat (by norm_num)]
  add_zero j hj := by
    change ofNat (value (ofNat j) + value (ofNat 0)) = _
    rw [value_ofNat (by omega), value_ofNat (by norm_num), Nat.add_zero]
  cast j hj := congrArg UInt64.ofNat (value_ofNat (by omega))

theorem packed_valid_words : (ReductionOperand.tensor packed).Valid words fourLanes :=
  ⟨⟨TensorImpl.recompute_cached fourLanes _, ⟨by decide, rfl, rfl⟩, by decide⟩, rfl⟩

theorem countsExactly_packed : CountsExactly words wordLanes toUInt64 ofNat fourLanes
    (Codec.bytes 4) (fun _ => 1) (.tensor packed) := by
  have hshape : ((ReductionOperand.tensor packed).shape words).prod = 10 := by decide
  exact (countsExactly_iff _ _ packed_valid_words trivial exactCounters_words).2
    (by rw [hshape]; norm_num)

/-- Two elements, a zero and a one. -/
def pair : TensorImpl float :=
  TensorImpl.recompute fourLanes (.bare true ⟨4096, 2, .cpu, 0⟩ [⟨2, 1⟩, ⟨1, 1⟩, ⟨1, 1⟩])

/-- The one, expanded. -/
def rows : TensorImpl float :=
  TensorImpl.recompute fourLanes
    (.bare true ⟨4100, 1, .cpu, 0⟩ [⟨1, 1⟩, ⟨2 ^ 32, 0⟩, ⟨1, 1⟩])

def columns : TensorImpl float :=
  TensorImpl.recompute fourLanes
    (.bare true ⟨4100, 1, .cpu, 0⟩ [⟨1, 1⟩, ⟨1, 1⟩, ⟨2 ^ 31, 0⟩])

def memory : Memory := fun x => if x = 4100 then 1 else 0

def wordCodec : Codec (Fin 4 → UInt8) float.size := Codec.bytes 4

/-- Half of its `2 ^ 64` elements are ones. -/
def halves : ReductionOperand float (Fin 4 → UInt8) :=
  .expression (.binary (.lanes words.mul) (.leaf (.ref pair.strided))
    (.binary (.lanes words.mul) (.leaf (.ref rows.strided)) (.leaf (.ref columns.strided))))

theorem halves_valid : halves.Valid words fourLanes where
  stored := by
    have hpair : pair.Readable fourLanes :=
      ⟨TensorImpl.recompute_cached fourLanes _, ⟨by decide, rfl, rfl⟩, by decide⟩
    have hrows : rows.Readable fourLanes :=
      ⟨TensorImpl.recompute_cached fourLanes _, ⟨by decide, rfl, rfl⟩, by decide⟩
    have hcolumns : columns.Readable fourLanes :=
      ⟨TensorImpl.recompute_cached fourLanes _, ⟨by decide, rfl, rfl⟩, by decide⟩
    change ∀ l ∈ [Leaf.ref pair.strided, .ref rows.strided, .ref columns.strided],
      l.Stored fourLanes
    simp only [List.forall_mem_cons]
    exact ⟨.ref hpair, .ref hrows, .ref hcolumns, fun l hl => absurd hl List.not_mem_nil⟩
  placement := ⟨0, by
    change ∀ l ∈ [Leaf.ref pair.strided, .ref rows.strided, .ref columns.strided],
      l.device = .cpu ∧ l.deviceIndex = 0
    simp only [List.forall_mem_cons]
    exact ⟨⟨rfl, rfl⟩, ⟨rfl, rfl⟩, ⟨rfl, rfl⟩, fun l hl => absurd hl List.not_mem_nil⟩⟩
  shaped := by decide
  views := by
    change ∀ v, Leaf.view v ∈
      [Leaf.ref pair.strided, .ref rows.strided, .ref columns.strided] → _
    simp

theorem halves_laneWise : halves.LaneWise :=
  ⟨fun _ _ _ => rfl, trivial, fun _ _ _ => rfl, trivial, trivial⟩

theorem halves_shape : halves.shape words = [2, 2 ^ 32, 2 ^ 31] := by
  decide

theorem element_mem_halves {idx : List Nat} (hidx : InBounds idx [2, 2 ^ 32, 2 ^ 31]) :
    halves.element words wordCodec memory idx ∈ halves.elements words wordCodec memory := by
  rw [ReductionOperand.elements, halves_shape]
  exact List.mem_map_of_mem (mem_indices.2 hidx)

theorem countNonzero_halves : reduceExpressionOp words wordLanes wordCodec memory fourLanes
    toUInt64 .countNonzero halves = .ok (0 : UInt64) := by
  have hvisited : halves.visited words wordCodec memory = [] := by
    refine List.length_eq_zero_iff.1 ?_
    rw [halves_valid.length_visited, halves_shape]
    decide
  have hrun := reduceExpression_countReducer wordCodec memory halves_valid halves_laneWise
    exactCounters_words words.isNonzero
  rw [hvisited] at hrun
  exact hrun

/-- The nonzero elements can be counted, but `size()` is zero and none of them is. -/
theorem not_countsExactly_halves : halves.Valid words fourLanes ∧
    (halves.elements words wordCodec memory).countP words.isNonzero < 2 ^ 64 ∧
    ¬ ∃ count : UInt64, reduceExpressionOp words wordLanes wordCodec memory fourLanes toUInt64
        .countNonzero halves = .ok count ∧
      count.toNat = (halves.elements words wordCodec memory).countP words.isNonzero := by
  refine ⟨halves_valid, ?_, ?_⟩
  · have hlen : (halves.elements words wordCodec memory).length = 2 ^ 64 := by
      rw [ReductionOperand.length_elements, halves_shape]
      norm_num
    rw [← hlen]
    refine Nat.lt_of_le_of_ne List.countP_le_length fun heq => ?_
    have hidx : InBounds [0, 0, 0] [2, 2 ^ 32, 2 ^ 31] := by simp [inBounds_cons]
    have hzero := List.countP_eq_length.1 heq _ (element_mem_halves hidx)
    exact absurd hzero (by decide +kernel)
  · rintro ⟨count, hcount, heq⟩
    obtain rfl : 0 = count := Except.ok.inj (countNonzero_halves.symm.trans hcount)
    have hidx : InBounds [1, 0, 0] [2, 2 ^ 32, 2 ^ 31] := by simp [inBounds_cons]
    have hpos : 0 < (halves.elements words wordCodec memory).countP words.isNonzero :=
      List.countP_pos_iff.2 ⟨_, element_mem_halves hidx, by decide +kernel⟩
    rw [← heq] at hpos
    exact absurd hpos (by decide)

end ExactCountsWitness

end Vectorization
