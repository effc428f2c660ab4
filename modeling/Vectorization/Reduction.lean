/-
The loops of the horizontal reductions: a scalar accumulator, registers that accumulate
lane by lane, their merge into the scalar, and a scalar tail.  Each loop folds every flat
index once.
-/
import Vectorization.ContiguousEvaluation
import Vectorization.Foundation.Combining

namespace Vectorization

open LoopTiling Combining

variable {T : ElementType} {α κ ρ : Type}

/-- What a reduction does with its elements: a scalar accumulator of type `ρ` and lanes
of type `κ`. -/
structure Reducer (α κ ρ : Type) where
  identity : ρ
  update : ρ → α → ρ
  laneIdentity : κ
  laneUpdate : κ → α → κ
  /-- The registers, by number and lane, merged into the accumulator. -/
  merge : ρ → (Nat → Nat → κ) → ρ

/-- A register of elements that goes into one of the unrolled accumulators. -/
structure LaneStep where
  accumulator : Nat
  step : FlatStep
deriving Repr, DecidableEq

section Steps

variable (S : SimdTarget T)

/-- `for (; i < stop; i += block)`: register `k` of a block goes to accumulator `k`. -/
def unrolledSteps (kind : StoreKind) (i stop : Nat) : List LaneStep :=
  if 1 < S.packet then
    (starts i stop S.block).flatMap fun i =>
      (List.range S.packet).map fun k => ⟨k, ⟨kind, i + k * S.length, S.length⟩⟩
  else []

/-- `for (; i < stop; i += length)`: the leftover registers go to accumulator 0. -/
def leftoverSteps (kind : StoreKind) (i stop : Nat) : List LaneStep :=
  (starts i stop S.length).map fun i => ⟨0, ⟨kind, i, S.length⟩⟩

/-- The registers of a packed tensor from `i` on, up to `align_end` and after it. -/
def baseSteps (i n alignEnd : Nat) : List LaneStep :=
  let blockEnd := i + (alignEnd - i) / S.block * S.block
  let i₁ := blockExit S i blockEnd
  let i₂ := counterAfter i₁ alignEnd S.length
  let loopPeel2 := i₂ + (n - i₂) / S.length * S.length
  let blockEnd2 := i₂ + (loopPeel2 - i₂) / S.block * S.block
  let i₃ := blockExit S i₂ blockEnd2
  unrolledSteps S .aligned i blockEnd ++ leftoverSteps S .aligned i₁ alignEnd ++
    unrolledSteps S .unaligned i₂ blockEnd2 ++ leftoverSteps S .unaligned i₃ loopPeel2

/-- The counter after them. -/
def baseExit (i n alignEnd : Nat) : Nat :=
  let blockEnd := i + (alignEnd - i) / S.block * S.block
  let i₁ := blockExit S i blockEnd
  let i₂ := counterAfter i₁ alignEnd S.length
  let loopPeel2 := i₂ + (n - i₂) / S.length * S.length
  let blockEnd2 := i₂ + (loopPeel2 - i₂) / S.block * S.block
  counterAfter (blockExit S i₂ blockEnd2) loopPeel2 S.length

/-- The unaligned registers in `[i, stop)`. -/
def pureSteps (i stop : Nat) : List LaneStep :=
  let blockEnd := i + (stop - i) / S.block * S.block
  unrolledSteps S .unaligned i blockEnd ++
    leftoverSteps S .unaligned (blockExit S i blockEnd) stop

/-- The counter after them. -/
def pureExit (i stop : Nat) : Nat :=
  counterAfter (blockExit S i (i + (stop - i) / S.block * S.block)) stop S.length

theorem lt_pureExit {i stop : Nat} (h : i < stop) : i < pureExit S i stop := by
  have hexit : i ≤ blockExit S i (i + (stop - i) / S.block * S.block) :=
    (blockSteps_tiles S .unaligned i _).le
  rcases Nat.eq_or_lt_of_le hexit with heq | hlt
  · have hpass : 1 ≤ (stop - i + (S.length - 1)) / S.length :=
      (Nat.one_le_div_iff S.length_pos).2 (by omega)
    have hmul := Nat.mul_le_mul hpass S.length_pos
    rw [pureExit, ← heq, counterAfter]
    omega
  · exact Nat.lt_of_lt_of_le hlt (le_counterAfter _ _ _)

/-- The elements of the next batch: all that remain, or 4096 registers of them. -/
def batchSize (bounded : Bool) (remaining : Nat) : Nat :=
  if bounded ∧ 4096 * S.length < remaining then 4096 * S.length else remaining

theorem batchSize_pos (bounded : Bool) {remaining : Nat} (h : 0 < remaining) :
    0 < batchSize S bounded remaining := by
  have := S.length_pos
  rw [batchSize]
  split <;> omega

/-- The batches of `reduce_expression` in `[i, vectorEnd)`. -/
def batches (bounded : Bool) (i vectorEnd : Nat) : List (List LaneStep) :=
  if i < vectorEnd then
    let stop := i + batchSize S bounded (vectorEnd - i)
    pureSteps S i stop :: batches bounded (pureExit S i stop) vectorEnd
  else []
termination_by vectorEnd - i
decreasing_by
  have hbatch := batchSize_pos S bounded (Nat.sub_pos_of_lt ‹i < vectorEnd›)
  have := lt_pureExit S (Nat.lt_add_of_pos_right hbatch : i < i + _)
  omega

/-- The counter after them. -/
def batchesExit (bounded : Bool) (i vectorEnd : Nat) : Nat :=
  if i < vectorEnd then
    batchesExit bounded (pureExit S i (i + batchSize S bounded (vectorEnd - i))) vectorEnd
  else i
termination_by vectorEnd - i
decreasing_by
  have hbatch := batchSize_pos S bounded (Nat.sub_pos_of_lt ‹i < vectorEnd›)
  have := lt_pureExit S (Nat.lt_add_of_pos_right hbatch : i < i + _)
  omega

/-- The target of `reduce_expression`: at least four accumulators. -/
def SimdTarget.unrolledByFour : SimdTarget T :=
  { S with
    packet := if S.packet < 4 then 4 else S.packet
    packet_pos := by have := S.packet_pos; split <;> omega }

end Steps

section Loops

variable (R : Reducer α κ ρ) (scalar : Nat → α) (register : Nat → Nat → α)

/-- The registers after some steps. -/
def accumulateLanes (steps : List LaneStep) : Nat → Nat → κ :=
  steps.foldl (fun lanes s k lane =>
    if k = s.accumulator then R.laneUpdate (lanes k lane) (register s.step.first lane)
    else lanes k lane) fun _ _ => R.laneIdentity

/-- `for (; i < stop; ++i)`. -/
def accumulateScalars (i stop : Nat) (ret : ρ) : ρ :=
  (starts i stop 1).foldl (fun ret i => R.update ret (scalar i)) ret

variable (S : SimdTarget T)

/-- The loops of `accumulate`, `hmin` and `hmax` over a packed tensor. -/
def reduceBase (n alignStart alignEnd : Nat) : ρ :=
  if S.vectorized then
    let ret := accumulateScalars R scalar 0 alignStart R.identity
    let i := counterAfter 0 alignStart 1
    if i < n then
      let ret := R.merge ret (accumulateLanes R register (baseSteps S i n alignEnd))
      accumulateScalars R scalar (baseExit S i n alignEnd) n ret
    else accumulateScalars R scalar i n ret
  else accumulateScalars R scalar 0 n R.identity

/-- The loops of `accumulate`, `hmin` and `hmax` over an expression. -/
def reducePure (n : Nat) : ρ :=
  if S.vectorized then
    let loopPeel := S.length * (n / S.length)
    if 0 < loopPeel then
      let ret := R.merge R.identity (accumulateLanes R register (pureSteps S 0 loopPeel))
      accumulateScalars R scalar (pureExit S 0 loopPeel) n ret
    else accumulateScalars R scalar 0 n R.identity
  else accumulateScalars R scalar 0 n R.identity

/-- The loops of `reduce_expression`. -/
def reduceBatches (bounded : Bool) (n : Nat) : ρ :=
  if S.vectorized then
    let vectorEnd := n - n % S.length
    let ret := (batches S.unrolledByFour bounded 0 vectorEnd).foldl
      (fun ret steps => R.merge ret (accumulateLanes R register steps)) R.identity
    accumulateScalars R scalar (batchesExit S.unrolledByFour bounded 0 vectorEnd) n ret
  else accumulateScalars R scalar 0 n R.identity

end Loops

section Tiling

variable (S : SimdTarget T) {i j k n q : Nat} {steps steps' : List LaneStep}

/-- Whole registers for existing accumulators that cover `[i, j)` in order. -/
structure LaneTiles (S : SimdTarget T) (steps : List LaneStep) (i j : Nat) : Prop where
  tiles : Tiles (steps.map LaneStep.step) i j
  accumulator : ∀ s ∈ steps, s.accumulator < S.packet
  lanes : ∀ s ∈ steps, s.step.lanes = S.length

variable {S}

theorem LaneTiles.append (h : LaneTiles S steps i j) (h' : LaneTiles S steps' j k) :
    LaneTiles S (steps ++ steps') i k := by
  refine ⟨List.map_append ▸ h.tiles.append h'.tiles, fun s hs => ?_, fun s hs => ?_⟩
  · exact (List.mem_append.1 hs).elim (h.accumulator s) (h'.accumulator s)
  · exact (List.mem_append.1 hs).elim (h.lanes s) (h'.lanes s)

/-- As many registers as fit the range. -/
theorem LaneTiles.length_mul (h : LaneTiles S steps i j) :
    steps.length * S.length = j - i := by
  have hlen := congrArg List.length h.tiles.indices
  rw [List.length_flatMap, List.map_map, List.length_range'] at hlen
  rw [← hlen]
  have hconst : steps.map (List.length ∘ FlatStep.indices ∘ LaneStep.step) =
      steps.map fun _ => S.length := by
    refine List.map_congr_left fun s hs => ?_
    simp only [Function.comp_apply, FlatStep.indices, List.length_range', h.lanes s hs]
  simp only [Function.comp_def] at hconst ⊢
  rw [hconst, List.map_const', List.sum_replicate, smul_eq_mul]

variable (S)

theorem map_step_unrolledSteps (kind : StoreKind) (i stop : Nat) :
    (unrolledSteps S kind i stop).map LaneStep.step = blockSteps S kind i stop := by
  rw [unrolledSteps, blockSteps]
  split
  · rw [List.map_flatMap]
    simp only [List.map_map]
    rfl
  · rfl

theorem unrolledSteps_tiles (kind : StoreKind) (i stop : Nat) :
    LaneTiles S (unrolledSteps S kind i stop) i (blockExit S i stop) := by
  have hmem : ∀ s ∈ unrolledSteps S kind i stop,
      s.accumulator < S.packet ∧ s.step.lanes = S.length := by
    intro s hs
    rw [unrolledSteps] at hs
    split at hs
    · obtain ⟨b, -, hs⟩ := List.mem_flatMap.1 hs
      obtain ⟨k, hk, rfl⟩ := List.mem_map.1 hs
      exact ⟨List.mem_range.1 hk, rfl⟩
    · exact absurd hs List.not_mem_nil
  exact ⟨map_step_unrolledSteps S kind i stop ▸ blockSteps_tiles S kind i stop,
    fun s hs => (hmem s hs).1, fun s hs => (hmem s hs).2⟩

theorem leftoverSteps_tiles (kind : StoreKind) (i stop : Nat) :
    LaneTiles S (leftoverSteps S kind i stop) i (counterAfter i stop S.length) := by
  have hmem : ∀ s ∈ leftoverSteps S kind i stop,
      s.accumulator < S.packet ∧ s.step.lanes = S.length := by
    intro s hs
    obtain ⟨b, -, rfl⟩ := List.mem_map.1 hs
    exact ⟨S.packet_pos, rfl⟩
  refine ⟨?_, fun s hs => (hmem s hs).1, fun s hs => (hmem s hs).2⟩
  have hsteps : (leftoverSteps S kind i stop).map LaneStep.step = packetSteps S kind i stop := by
    rw [leftoverSteps, List.map_map]
    rfl
  exact hsteps ▸ packetSteps_tiles S kind i stop

/-- The loops over whole registers end at their bound. -/
theorem pureExit_eq (i q : Nat) : pureExit S i (i + q * S.length) = i + q * S.length := by
  have hq := blocks_le S (q * S.length)
  rw [Nat.mul_div_cancel _ S.length_pos] at hq
  rw [pureExit, Nat.add_sub_cancel_left, counterAfter_blockExit S hq]

theorem pureSteps_tiles (i q : Nat) :
    LaneTiles S (pureSteps S i (i + q * S.length)) i (i + q * S.length) := by
  have h := (unrolledSteps_tiles S .unaligned i
    (i + (i + q * S.length - i) / S.block * S.block)).append
    (leftoverSteps_tiles S .unaligned _ (i + q * S.length))
  have hexit := pureExit_eq S i q
  rw [pureExit] at hexit
  rwa [hexit] at h

/-- The aligned registers and the unaligned ones after them. -/
theorem baseSteps_tiles (h : i + q * S.length ≤ n) :
    LaneTiles S (baseSteps S i n (i + q * S.length)) i
        (baseExit S i n (i + q * S.length)) ∧
      baseExit S i n (i + q * S.length) ≤ n := by
  have hq : q * S.length / S.block * S.packet ≤ q := by
    have := blocks_le S (q * S.length)
    rwa [Nat.mul_div_cancel _ S.length_pos] at this
  have haligned := pureExit_eq S i q
  rw [pureExit, Nat.add_sub_cancel_left] at haligned
  simp only [baseSteps, baseExit, Nat.add_sub_cancel_left, haligned]
  refine ⟨(((unrolledSteps_tiles S _ _ _).append ?_).append
    (unrolledSteps_tiles S _ _ _)).append (leftoverSteps_tiles S _ _ _), ?_⟩
  · have := leftoverSteps_tiles S .aligned
      (blockExit S i (i + q * S.length / S.block * S.block)) (i + q * S.length)
    rwa [haligned] at this
  · generalize i + q * S.length = i₂ at h ⊢
    have hexit := pureExit_eq S i₂ ((n - i₂) / S.length)
    rw [pureExit, Nat.add_sub_cancel_left] at hexit
    rw [hexit]
    exact add_div_mul_le h

/-- Batches of whole registers that cover `[i, j)` one after the other; a bounded batch
has at most 4096 registers. -/
inductive BatchTiles (S : SimdTarget T) (bounded : Bool) :
    List (List LaneStep) → Nat → Nat → Prop
  | nil (i : Nat) : BatchTiles S bounded [] i i
  | cons {batch : List LaneStep} {rest : List (List LaneStep)} {i j k : Nat}
      (first : LaneTiles S batch i j) (bound : bounded = true → batch.length ≤ 4096)
      (tail : BatchTiles S bounded rest j k) : BatchTiles S bounded (batch :: rest) i k

theorem BatchTiles.le {bounded : Bool} {batches : List (List LaneStep)}
    (h : BatchTiles S bounded batches i j) : i ≤ j := by
  induction h with
  | nil i => exact le_rfl
  | cons first _ _ ih => exact first.tiles.le.trans ih

/-- The batches visit every index of the range once, in order. -/
theorem BatchTiles.indices {bounded : Bool} {batches : List (List LaneStep)}
    (h : BatchTiles S bounded batches i j) :
    (batches.flatMap fun batch => (batch.map LaneStep.step).flatMap FlatStep.indices) =
      List.range' i (j - i) := by
  induction h with
  | nil i => rw [Nat.sub_self]; rfl
  | @cons batch rest i j k first bound tail ih =>
      have hij := first.tiles.le
      have hjk := tail.le
      rw [List.flatMap_cons, first.tiles.indices, ih,
        show k - i = (j - i) + (k - j) by omega, ← List.range'_append_1,
        show i + (j - i) = j by omega]

theorem BatchTiles.length_le {batches : List (List LaneStep)}
    (h : BatchTiles S true batches i j) : ∀ batch ∈ batches, batch.length ≤ 4096 := by
  induction h with
  | nil i => exact fun batch hbatch => absurd hbatch List.not_mem_nil
  | cons _ bound _ ih =>
      intro batch hbatch
      rcases List.mem_cons.1 hbatch with rfl | hbatch
      · exact bound rfl
      · exact ih batch hbatch

theorem batchSize_eq (bounded : Bool) {q : Nat} (hq : 0 < q) : ∃ p, 0 < p ∧ p ≤ q ∧
    batchSize S bounded (q * S.length) = p * S.length ∧ (bounded = true → p ≤ 4096) := by
  rw [batchSize]
  split <;> rename_i h
  · have hlt : 4096 < q := Nat.lt_of_mul_lt_mul_right h.2
    exact ⟨4096, by omega, by omega, rfl, fun _ => le_rfl⟩
  · refine ⟨q, hq, le_rfl, rfl, fun hbounded => ?_⟩
    have hle : q * S.length ≤ 4096 * S.length :=
      Nat.le_of_not_lt fun hlt => h ⟨hbounded, hlt⟩
    exact Nat.le_of_mul_le_mul_right hle S.length_pos

theorem batches_tiles (bounded : Bool) (i q : Nat) :
    BatchTiles S bounded (batches S bounded i (i + q * S.length)) i (i + q * S.length) ∧
      batchesExit S bounded i (i + q * S.length) = i + q * S.length := by
  induction q using Nat.strong_induction_on generalizing i with
  | h q ih =>
      rcases Nat.eq_zero_or_pos q with rfl | hq
      · rw [Nat.zero_mul, Nat.add_zero, batches, batchesExit, if_neg (Nat.lt_irrefl _),
          if_neg (Nat.lt_irrefl _)]
        exact ⟨.nil i, rfl⟩
      · obtain ⟨p, hp, hpq, hsize, hbound⟩ := batchSize_eq S bounded hq
        have hlt : i < i + q * S.length :=
          Nat.lt_add_of_pos_right (Nat.mul_pos hq S.length_pos)
        have hsplit : i + q * S.length = i + p * S.length + (q - p) * S.length := by
          rw [Nat.add_assoc, ← Nat.add_mul, Nat.add_sub_cancel' hpq]
        obtain ⟨hrest, hexit⟩ := ih (q - p) (by omega) (i + p * S.length)
        rw [← hsplit] at hrest hexit
        have hfirst := pureSteps_tiles S i p
        rw [batches, batchesExit, if_pos hlt, if_pos hlt, Nat.add_sub_cancel_left]
        simp only [hsize, pureExit_eq]
        refine ⟨.cons hfirst (fun hbounded => ?_) hrest, hexit⟩
        have hmul := hfirst.length_mul
        rw [Nat.add_sub_cancel_left] at hmul
        exact (Nat.eq_of_mul_eq_mul_right S.length_pos hmul).le.trans (hbound hbounded)

/-- The batches of `reduce_expression` cover the whole registers of its elements. -/
theorem vectorBatches_tiles (bounded : Bool) (n : Nat) :
    BatchTiles S.unrolledByFour bounded
        (batches S.unrolledByFour bounded 0 (n - n % S.length)) 0 (n - n % S.length) ∧
      batchesExit S.unrolledByFour bounded 0 (n - n % S.length) = n - n % S.length := by
  have hend : n - n % S.length = 0 + n / S.length * S.length := by
    have := Nat.div_add_mod n S.length
    rw [Nat.mul_comm] at this
    omega
  rw [hend]
  exact batches_tiles S.unrolledByFour bounded 0 (n / S.length)

end Tiling

section Lanes

variable (R : Reducer α κ ρ) (register : Nat → Nat → α)

/-- A lane accumulates what its accumulator was given, in order. -/
theorem accumulateLanes_eq (steps : List LaneStep) (k lane : Nat) :
    accumulateLanes R register steps k lane =
      ((steps.filter fun s => s.accumulator = k).map fun s => register s.step.first lane).foldl
        R.laneUpdate R.laneIdentity := by
  have fold : ∀ (steps : List LaneStep) (lanes : Nat → Nat → κ),
      steps.foldl (fun lanes s k lane =>
        if k = s.accumulator then R.laneUpdate (lanes k lane) (register s.step.first lane)
        else lanes k lane) lanes k lane =
      ((steps.filter fun s => s.accumulator = k).map fun s =>
        register s.step.first lane).foldl R.laneUpdate (lanes k lane) := by
    intro steps
    induction steps with
    | nil => exact fun _ => rfl
    | cons s steps ih =>
        intro lanes
        rw [List.foldl_cons, ih, List.filter_cons]
        by_cases hs : s.accumulator = k
        · rw [if_pos hs.symm, if_pos (by simpa using hs)]
          rfl
        · rw [if_neg (Ne.symm hs), if_neg (by simpa using hs)]
  exact fold steps _

/-- Registers that are accumulated alike. -/
theorem accumulateLanes_congr {register register' : Nat → Nat → α}
    (h : ∀ a first lane, R.laneUpdate a (register first lane) =
      R.laneUpdate a (register' first lane)) (steps : List LaneStep) :
    accumulateLanes R register steps = accumulateLanes R register' steps := by
  funext k lane
  rw [accumulateLanes_eq, accumulateLanes_eq, List.foldl_map, List.foldl_map]
  exact List.foldl_ext _ _ _ fun a s _ => h a _ _

theorem reducePure_congr {x : Nat → α} {register register' : Nat → Nat → α}
    (h : ∀ a first lane, R.laneUpdate a (register first lane) =
      R.laneUpdate a (register' first lane)) (S : SimdTarget T) (n : Nat) :
    reducePure R x register S n = reducePure R x register' S n := by
  unfold reducePure
  simp only [accumulateLanes_congr R h]

end Lanes

/-- The reducer folds `value` of the elements in `Q` by `combine`, exact on `P`, over
`packet` registers of `length` lanes that are given at most `bound` elements each. -/
structure Reducer.Folds (R : Reducer α κ ρ) (length packet : Nat) (bound : Option Nat)
    (Q : α → Prop) (combine : ρ → ρ → ρ) (P : ρ → Prop) (value : α → ρ) : Prop where
  exact : ExactOn combine R.identity P
  value_mem : ∀ {x}, Q x → P (value x)
  update : ∀ {a x}, P a → Q x → R.update a x = combine a (value x)
  merge : ∀ {a} {lanes : Nat → Nat → κ} {given : Nat → Nat → List α}, P a →
    (∀ k < packet, ∀ lane < length,
      lanes k lane = (given k lane).foldl R.laneUpdate R.laneIdentity ∧
        (∀ x ∈ given k lane, Q x) ∧ ∀ b ∈ bound, (given k lane).length ≤ b) →
    R.merge a lanes =
      combine a (((List.range packet).flatMap fun k => (List.range length).flatMap fun lane =>
        (given k lane).map value).foldl combine R.identity)

section Folding

variable {R : Reducer α κ ρ} {S : SimdTarget T} {bound : Option Nat} {Q : α → Prop}
  {combine : ρ → ρ → ρ} {P : ρ → Prop} {value : α → ρ}
  (h : R.Folds S.length S.packet bound Q combine P value) {x : Nat → α}
include h

/-- The fold over the elements at some flat indices. -/
def foldAt (combine : ρ → ρ → ρ) (identity : ρ) (value : α → ρ) (x : Nat → α)
    (is : List Nat) : ρ :=
  (is.map fun i => value (x i)).foldl combine identity

theorem values_mem {is : List Nat} (hx : ∀ i ∈ is, Q (x i)) :
    ∀ b ∈ is.map fun i => value (x i), P b := by
  intro b hb
  obtain ⟨i, hi, rfl⟩ := List.mem_map.1 hb
  exact h.value_mem (hx i hi)

theorem foldAt_mem {is : List Nat} (hx : ∀ i ∈ is, Q (x i)) :
    P (foldAt combine R.identity value x is) :=
  h.exact.foldl_mem (values_mem h hx) h.exact.identity_mem

theorem foldAt_append {is is' : List Nat} (hx : ∀ i ∈ is, Q (x i))
    (hx' : ∀ i ∈ is', Q (x i)) :
    foldAt combine R.identity value x (is ++ is') =
      combine (foldAt combine R.identity value x is) (foldAt combine R.identity value x is') := by
  rw [foldAt, List.map_append]
  exact h.exact.foldl_append (values_mem h hx) (values_mem h hx')

/-- Scalar updates one by one. -/
theorem foldl_update {is : List Nat} (hx : ∀ i ∈ is, Q (x i)) {ret : ρ} (hret : P ret) :
    is.foldl (fun ret i => R.update ret (x i)) ret =
      (is.map fun i => value (x i)).foldl combine ret := by
  induction is generalizing ret with
  | nil => rfl
  | cons i is ih =>
      have hi := hx i List.mem_cons_self
      rw [List.foldl_cons, h.update hret hi,
        ih (fun j hj => hx j (List.mem_cons_of_mem _ hj))
          (h.exact.combine_mem hret (h.value_mem hi))]
      rfl

theorem accumulateScalars_eq {i stop : Nat} (hi : i ≤ stop)
    (hx : ∀ j, i ≤ j → j < stop → Q (x j)) {ret : ρ} (hret : P ret) :
    accumulateScalars R x i stop ret =
      combine ret (foldAt combine R.identity value x (List.range' i (stop - i))) := by
  have hstarts : starts i stop 1 = List.range' i (stop - i) := by
    rw [starts, Nat.div_one]
    rfl
  have hmem : ∀ j ∈ List.range' i (stop - i), Q (x j) := fun j hj => by
    obtain ⟨hle, hlt⟩ := List.mem_range'_1.1 hj
    exact hx j hle (by omega)
  rw [accumulateScalars, hstarts, foldl_update h hmem hret]
  exact h.exact.foldl_eq (values_mem h hmem) hret

/-- Registers merged into the accumulator add the elements they were loaded from. -/
theorem merge_accumulateLanes {register : Nat → Nat → α}
    (hregister : ∀ first lane, register first lane = x (first + lane))
    {steps : List LaneStep} {i j : Nat} (hsteps : LaneTiles S steps i j)
    (hbound : ∀ b ∈ bound, steps.length ≤ b) (hx : ∀ k, i ≤ k → k < j → Q (x k)) {ret : ρ}
    (hret : P ret) :
    R.merge ret (accumulateLanes R register steps) =
      combine ret (foldAt combine R.identity value x (List.range' i (j - i))) := by
  have hcell : ∀ s ∈ steps, ∀ lane < S.length, i ≤ s.step.first + lane ∧
      s.step.first + lane < j := by
    intro s hs lane hlane
    have hmem : s.step.first + lane ∈ (steps.map LaneStep.step).flatMap FlatStep.indices := by
      refine List.mem_flatMap.2 ⟨s.step, List.mem_map_of_mem hs, ?_⟩
      rw [FlatStep.indices, hsteps.lanes s hs]
      exact List.mem_range'_1.2 ⟨Nat.le_add_right _ _, Nat.add_lt_add_left hlane _⟩
    rw [hsteps.tiles.indices] at hmem
    have := hsteps.tiles.le
    have := List.mem_range'_1.1 hmem
    omega
  let dealt : Nat → Nat → List Nat := fun k lane =>
    (steps.filter fun s => s.accumulator = k).map fun s => s.step.first + lane
  have hgiven : ∀ k < S.packet, ∀ lane < S.length,
      accumulateLanes R register steps k lane =
          ((dealt k lane).map x).foldl R.laneUpdate R.laneIdentity ∧
        (∀ y ∈ (dealt k lane).map x, Q y) ∧
          ∀ b ∈ bound, ((dealt k lane).map x).length ≤ b := by
    intro k _ lane hlane
    refine ⟨?_, fun y hy => ?_, fun b hb => ?_⟩
    · simp only [accumulateLanes_eq, hregister, dealt, List.map_map, Function.comp_def]
    · obtain ⟨_, hcells, rfl⟩ := List.mem_map.1 hy
      obtain ⟨s, hs, rfl⟩ := List.mem_map.1 hcells
      obtain ⟨hle, hlt⟩ := hcell s (List.mem_of_mem_filter hs) lane hlane
      exact hx _ hle hlt
    · rw [List.length_map, List.length_map]
      exact (List.length_filter_le _ _).trans (hbound b hb)
  -- Accumulator by accumulator and lane by lane the registers hold every index once.
  have hdealt : ((List.range S.packet).flatMap fun k => (List.range S.length).flatMap fun lane =>
      dealt k lane).Perm (List.range' i (j - i)) := by
    rw [← hsteps.tiles.indices, List.flatMap_map]
    refine (List.Perm.flatMap_left _ fun k _ => ?_).trans
      (flatMap_filter_perm hsteps.accumulator fun s => s.step.indices)
    refine (flatMap_map_perm _ _ _).trans (List.Perm.of_eq (List.flatMap_congr fun s hs => ?_))
    rw [FlatStep.indices, hsteps.lanes s (List.mem_of_mem_filter hs), List.range'_eq_map_range]
  have hmem : ∀ k ∈ List.range' i (j - i), Q (x k) := fun k hk => by
    have := hsteps.tiles.le
    obtain ⟨hle, hlt⟩ := List.mem_range'_1.1 hk
    exact hx k hle (by omega)
  rw [h.merge hret hgiven, foldAt,
    ← h.exact.foldl_perm (hdealt.map _) (values_mem h fun k hk => hmem k (hdealt.mem_iff.1 hk))]
  simp only [List.map_flatMap, List.map_map, Function.comp_def]

/-- A prefix of the indices and what follows it. -/
theorem foldAt_range' {i j n : Nat} (hi : i ≤ j) (hj : j ≤ n) (hx : ∀ k < n, Q (x k)) :
    combine (foldAt combine R.identity value x (List.range' 0 i))
        (foldAt combine R.identity value x (List.range' i (j - i))) =
      foldAt combine R.identity value x (List.range' 0 j) := by
  rw [← foldAt_append h (fun k hk => hx k (by have := List.mem_range'_1.1 hk; omega))
    fun k hk => hx k (by have := List.mem_range'_1.1 hk; omega)]
  congr 1
  have := @List.range'_append_1 0 i (j - i)
  rw [Nat.zero_add, Nat.add_sub_cancel' hi] at this
  exact this

/-- A scalar loop on top of a prefix. -/
theorem accumulateScalars_range {i j n : Nat} (hi : i ≤ j) (hj : j ≤ n)
    (hx : ∀ k < n, Q (x k)) :
    accumulateScalars R x i j (foldAt combine R.identity value x (List.range' 0 i)) =
      foldAt combine R.identity value x (List.range' 0 j) := by
  rw [accumulateScalars_eq h hi (fun k _ hk => hx k (by omega))
    (foldAt_mem h fun k hk => hx k (by have := List.mem_range'_1.1 hk; omega)),
    foldAt_range' h hi hj hx]

/-- A merge of registers on top of a prefix. -/
theorem merge_range {register : Nat → Nat → α}
    (hregister : ∀ first lane, register first lane = x (first + lane))
    {steps : List LaneStep} {i j n : Nat} (hsteps : LaneTiles S steps i j)
    (hbound : ∀ b ∈ bound, steps.length ≤ b) (hj : j ≤ n) (hx : ∀ k < n, Q (x k)) :
    R.merge (foldAt combine R.identity value x (List.range' 0 i))
        (accumulateLanes R register steps) =
      foldAt combine R.identity value x (List.range' 0 j) := by
  have hi := hsteps.tiles.le
  rw [merge_accumulateLanes h hregister hsteps hbound (fun k _ hk => hx k (by omega))
    (foldAt_mem h fun k hk => hx k (by have := List.mem_range'_1.1 hk; omega)),
    foldAt_range' h hi hj hx]

theorem accumulateScalars_whole {n : Nat} (hx : ∀ k < n, Q (x k)) :
    accumulateScalars R x 0 n R.identity =
      foldAt combine R.identity value x (List.range n) := by
  rw [List.range_eq_range']
  exact accumulateScalars_range h (Nat.zero_le n) le_rfl hx

end Folding

section Whole

variable {R : Reducer α κ ρ} {S : SimdTarget T} {Q : α → Prop} {combine : ρ → ρ → ρ}
  {P : ρ → Prop} {value : α → ρ} {x : Nat → α} {register : Nat → Nat → α} {n : Nat}

/-- Peel, aligned registers, unaligned registers and tail. -/
theorem reduceBase_eq (h : R.Folds S.length S.packet none Q combine P value)
    (hregister : ∀ first lane, register first lane = x (first + lane))
    {alignStart q : Nat} (halign : alignStart + q * S.length ≤ n) (hx : ∀ k < n, Q (x k)) :
    reduceBase R x register S n alignStart (alignStart + q * S.length) =
      foldAt combine R.identity value x (List.range n) := by
  obtain ⟨hsteps, hexit⟩ := baseSteps_tiles S halign
  have hpeel : accumulateScalars R x 0 alignStart R.identity =
      foldAt combine R.identity value x (List.range' 0 alignStart) :=
    accumulateScalars_range h (Nat.zero_le alignStart)
      (Nat.le_trans (Nat.le_add_right _ _) halign) hx
  rw [reduceBase]
  split
  · simp only [counterAfter_one (Nat.zero_le alignStart), hpeel]
    split
    · rw [merge_range h hregister hsteps (fun b hb => nomatch hb) hexit hx,
        accumulateScalars_range h hexit le_rfl hx, List.range_eq_range']
    · rw [accumulateScalars_range h (by omega) le_rfl hx, List.range_eq_range']
  · exact accumulateScalars_whole h hx

/-- The elements of an expression that are read in registers. -/
def loopPeel (S : SimdTarget T) (n : Nat) : Nat :=
  if S.vectorized then S.length * (n / S.length) else 0

theorem loopPeel_le (S : SimdTarget T) (n : Nat) : loopPeel S n ≤ n := by
  rw [loopPeel]
  split
  · exact Nat.mul_div_le n S.length
  · exact Nat.zero_le n

/-- What is read at an index, in a register or in the tail. -/
def pureRead (S : SimdTarget T) (n : Nat) (x' x : Nat → α) (k : Nat) : α :=
  if k < loopPeel S n then x' k else x k

/-- Registers and tail, which need not read the same way. -/
theorem reducePure_eq {x' : Nat → α} (h : R.Folds S.length S.packet none Q combine P value)
    (hregister : ∀ first lane, register first lane = x' (first + lane))
    (hx : ∀ k < n, Q (pureRead S n x' x k)) :
    reducePure R x register S n =
      foldAt combine R.identity value (pureRead S n x' x) (List.range n) := by
  have hle := loopPeel_le S n
  have hbody : ∀ k < loopPeel S n, pureRead S n x' x k = x' k := fun k hk => if_pos hk
  have htail : ∀ ret : ρ, accumulateScalars R x (loopPeel S n) n ret =
      accumulateScalars R (pureRead S n x' x) (loopPeel S n) n ret := by
    intro ret
    apply List.foldl_ext
    intro ret k hk
    rw [starts, Nat.div_one] at hk
    rw [pureRead, if_neg (Nat.not_lt.2 (List.mem_range'_1.1 hk).1)]
  have hwhole : loopPeel S n = 0 → accumulateScalars R x 0 n R.identity =
      foldAt combine R.identity value (pureRead S n x' x) (List.range n) := by
    intro hzero
    rw [← accumulateScalars_whole h hx, ← hzero, htail]
  rw [reducePure]
  split <;> rename_i hvectorized
  · have hpeel : loopPeel S n = n / S.length * S.length := by
      rw [loopPeel, if_pos hvectorized, Nat.mul_comm]
    have hsteps := pureSteps_tiles S 0 (n / S.length)
    have hexit := pureExit_eq S 0 (n / S.length)
    rw [Nat.zero_add, ← hpeel] at hsteps hexit
    simp only [Nat.mul_comm S.length, ← hpeel, hexit]
    split <;> rename_i hpos
    · have hmerge : R.merge R.identity (accumulateLanes R register (pureSteps S 0 (loopPeel S n))) =
          foldAt combine R.identity value x' (List.range' 0 (loopPeel S n)) :=
        merge_range h hregister hsteps (fun b hb => absurd hb (Option.not_mem_none b)) le_rfl
          fun k hk => hbody k hk ▸ hx k (hk.trans_le hle)
      have hprefix : foldAt combine R.identity value x' (List.range' 0 (loopPeel S n)) =
          foldAt combine R.identity value (pureRead S n x' x) (List.range' 0 (loopPeel S n)) := by
        rw [foldAt, foldAt]
        congr 1
        apply List.map_congr_left
        intro k hk
        rw [hbody k (by have := List.mem_range'_1.1 hk; omega)]
      rw [hmerge, hprefix, htail, accumulateScalars_range h hle le_rfl hx, List.range_eq_range']
    · exact hwhole (Nat.eq_zero_of_not_pos hpos)
  · exact hwhole (if_neg hvectorized)

variable {bounded : Bool}

/-- The batches on top of a prefix. -/
theorem mergeBatches_range
    (h : R.Folds S.length S.packet (if bounded then some 4096 else none) Q combine P value)
    (hregister : ∀ first lane, register first lane = x (first + lane))
    {steps : List (List LaneStep)} {i j : Nat} (hsteps : BatchTiles S bounded steps i j)
    (hj : j ≤ n) (hx : ∀ k < n, Q (x k)) :
    steps.foldl (fun ret batch => R.merge ret (accumulateLanes R register batch))
        (foldAt combine R.identity value x (List.range' 0 i)) =
      foldAt combine R.identity value x (List.range' 0 j) := by
  induction hsteps with
  | nil i => rfl
  | cons first bound tail ih =>
      rw [List.foldl_cons, merge_range h hregister first ?_ (tail.le.trans hj) hx, ih hj]
      intro b hb
      cases bounded with
      | false => exact nomatch hb
      | true =>
          cases hb
          exact bound rfl

/-- Batches and tail. -/
theorem reduceBatches_eq
    (h : R.Folds S.unrolledByFour.length S.unrolledByFour.packet
      (if bounded then some 4096 else none) Q combine P value)
    (hregister : ∀ first lane, register first lane = x (first + lane))
    (hx : ∀ k < n, Q (x k)) :
    reduceBatches R x register S bounded n =
      foldAt combine R.identity value x (List.range n) := by
  have hle : n - n % S.length ≤ n := Nat.sub_le _ _
  obtain ⟨htiles, hexit⟩ := vectorBatches_tiles S bounded n
  rw [reduceBatches]
  split
  · have hmerge : (batches S.unrolledByFour bounded 0 (n - n % S.length)).foldl
        (fun ret steps => R.merge ret (accumulateLanes R register steps)) R.identity =
        foldAt combine R.identity value x (List.range' 0 (n - n % S.length)) :=
      mergeBatches_range h hregister htiles hle hx
    simp only [hmerge, hexit]
    rw [accumulateScalars_range h hle le_rfl hx, List.range_eq_range']
  · exact accumulateScalars_whole h hx

end Whole

end Vectorization
