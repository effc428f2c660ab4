/-
`accumulate` and `reduce_expression`: the accumulators of their registers, and the fold
over the logical elements that both return where the element count is not wrapped.
-/
import Vectorization.ExpressionReduction

namespace Vectorization

open StridedSpace MachineInteger ByteMemory LoopTiling Combining

variable {T : ElementType} {α β κ ρ : Type}

/-- What the reductions use of `simd<value_t>`: operations on a lane, and horizontal
ones over the lanes of a register. -/
structure SimdReduce (α : Type) where
  add : α → α → α
  mul : α → α → α
  min : α → α → α
  max : α → α → α
  accumulate : (length : Nat) → (Nat → α) → α
  hmin : (length : Nat) → (Nat → α) → α
  hmax : (length : Nat) → (Nat → α) → α

/-- A lane operation and its horizontal form combine as the scalars do, on the values
of `P`. -/
structure LaneWise (combine : α → α → α) (identity : α) (P : α → Prop) (length : Nat)
    (lane : α → α → α) (horizontal : Nat → (Nat → α) → α) : Prop where
  lane_eq : ∀ {a b}, P a → P b → lane a b = combine a b
  horizontal_eq : ∀ {lanes}, (∀ i < length, P (lanes i)) →
    horizontal length lanes = ((List.range length).map lanes).foldl combine identity

/-- The accumulators of a register combined into the first one. -/
def combineAccumulators (lane : κ → κ → κ) (packet : Nat) (lanes : Nat → Nat → κ) (i : Nat) : κ :=
  (List.range' 1 (packet - 1)).foldl (fun combined k => lane combined (lanes k i)) (lanes 0 i)

section Reducers

variable (F : Scalar α) (V : SimdReduce α)

/-- The accumulators of `accumulate`. -/
def sumReducer (length packet : Nat) : Reducer α α α where
  identity := F.zero
  update := F.add
  laneIdentity := F.zero
  laneUpdate := V.add
  merge sum lanes := F.add sum (V.accumulate length (combineAccumulators V.add packet lanes))

def reducePacketTransform : ReduceOp → α → α
  | .all, x | .any, x | .countNonzero, x => if !F.eq x F.zero then F.one else F.zero
  | .countValid, x => if F.eq x x then F.one else F.zero
  | .nansum, x => if F.eq x x then x else F.zero
  | .sum, x | .min, x | .max, x | .product, x => x

def reducePacketCombine : ReduceOp → α → α → α
  | .product => V.mul
  | .all => V.min
  | .any => V.max
  | .sum | .min | .max | .nansum | .countNonzero | .countValid => V.add

/-- The horizontal operation on the combined accumulators. -/
def reduceHorizontal : ReduceOp → Nat → (Nat → α) → α
  | .all => V.hmin
  | .any => V.hmax
  | .sum | .min | .max | .product | .nansum | .countNonzero | .countValid => V.accumulate

/-- `static_cast<acc_t>` of a lane. -/
def accumulatorCast (toUInt64 : α → UInt64) : (op : ReduceOp) → α → op.Accumulator α
  | .countNonzero, x | .countValid, x => toUInt64 x
  | .sum, x | .min, x | .max, x | .product, x | .all, x | .any, x | .nansum, x => x

/-- The accumulators of `reduce_expression`; a lane starts as the identity, which is a zero
of either type for a count. -/
def expressionReducer (toUInt64 : α → UInt64) (op : ReduceOp) (length packet : Nat) :
    Reducer α α (op.Accumulator α) where
  identity := reduceIdentity (op.accumulator F) op
  update a x := reduceCombine (op.accumulator F) op a (reduceTransform F op x)
  laneIdentity := reduceIdentity F op
  laneUpdate a x := reducePacketCombine V op a (reducePacketTransform F op x)
  merge result lanes :=
    if op.isCount ∨ op = .product then
      ((List.range packet).flatMap fun k => (List.range length).map (lanes k)).foldl
        (fun result lane =>
          reduceCombine (op.accumulator F) op result (accumulatorCast toUInt64 op lane)) result
    else
      reduceCombine (op.accumulator F) op result (accumulatorCast toUInt64 op
        (reduceHorizontal V op length
          (combineAccumulators (reducePacketCombine V op) packet lanes)))

end Reducers

/-- The register operations of a reduction are lane-wise combines; only the lane
operation of a product is used. -/
def ReduceOp.LaneWise (F : Scalar α) (V : SimdReduce α) (length : Nat) :
    (op : ReduceOp) → (op.Accumulator α → Prop) → Prop
  | .sum, P | .nansum, P => Vectorization.LaneWise F.add F.zero P length V.add V.accumulate
  | .all, P =>
      Vectorization.LaneWise (reduceCombine F .all) (reduceIdentity F .all) P length V.min V.hmin
  | .any, P =>
      Vectorization.LaneWise (reduceCombine F .any) (reduceIdentity F .any) P length V.max V.hmax
  | .product, P => ∀ a b, P a → P b → V.mul a b = F.mul a b
  | .min, _ | .max, _ | .countNonzero, _ | .countValid, _ => False

section Named

variable (F : Scalar α) (V : SimdReduce α) (c : Codec α T.size) (m : Memory) (S : SimdTarget T)

def accumulate (allOnes : Option α) (operand : ReductionOperand T α) :
    Option (Except Raise α) :=
  horizontalReduction F c m S (sumReducer F V S.length S.packet) allOnes operand

/-- `reduce_expression<Op>`. -/
def reduceExpressionOp (toUInt64 : α → UInt64) (op : ReduceOp) (operand : ReductionOperand T α) :
    Except Raise (op.Accumulator α) :=
  reduceExpression F c m S
    (expressionReducer F V toUInt64 op S.unrolledByFour.length S.unrolledByFour.packet)
    op.isCount operand

end Named

section LaneFolds

variable {combine : α → α → α} {identity : α} {P : α → Prop} {length packet : Nat}
  {lane : α → α → α} {horizontal : Nat → (Nat → α) → α}

/-- A lane folds what it was given. -/
theorem foldl_lane {update : α → β → α} {value : β → α} {Q : β → Prop}
    (h : ExactOn combine identity P) (hvalue : ∀ {x}, Q x → P (value x))
    (hupdate : ∀ {a x}, P a → Q x → update a x = combine a (value x)) {xs : List β}
    (hxs : ∀ x ∈ xs, Q x) :
    xs.foldl update identity = (xs.map value).foldl combine identity := by
  have fold : ∀ (xs : List β), (∀ x ∈ xs, Q x) → ∀ a, P a →
      xs.foldl update a = (xs.map value).foldl combine a := by
    intro xs
    induction xs with
    | nil => exact fun _ _ _ => rfl
    | cons x xs ih =>
        intro hxs a ha
        have hx := hxs x List.mem_cons_self
        rw [List.foldl_cons, List.map_cons, List.foldl_cons, hupdate ha hx]
        exact ih (fun y hy => hxs y (List.mem_cons_of_mem _ hy)) _
          (h.combine_mem ha (hvalue hx))
  exact fold xs hxs _ h.identity_mem

theorem map_mem {value : β → α} {Q : β → Prop} (hvalue : ∀ {x}, Q x → P (value x))
    {xs : List β} (hxs : ∀ x ∈ xs, Q x) : ∀ a ∈ xs.map value, P a := by
  intro a ha
  obtain ⟨x, hx, rfl⟩ := List.mem_map.1 ha
  exact hvalue (hxs x hx)

/-- Accumulators that hold folds combine to the fold of all. -/
theorem LaneWise.merge_eq (hV : LaneWise combine identity P length lane horizontal)
    (h : ExactOn combine identity P) (hpacket : 0 < packet) {lanes : Nat → Nat → α}
    {given : Nat → Nat → List α}
    (hgiven : ∀ k < packet, ∀ i < length, ∀ a ∈ given k i, P a)
    (hlanes : ∀ k < packet, ∀ i < length, lanes k i = (given k i).foldl combine identity) :
    horizontal length (combineAccumulators lane packet lanes) =
      ((List.range packet).flatMap fun k => (List.range length).flatMap fun i =>
        given k i).foldl combine identity := by
  have hmem (k : Nat) (hk : k < packet) (i : Nat) (hi : i < length) : P (lanes k i) := by
    rw [hlanes k hk i hi]
    exact h.foldl_mem (hgiven k hk i hi) h.identity_mem
  have hcombined (i : Nat) (hi : i < length) : combineAccumulators lane packet lanes i =
      ((List.range packet).flatMap fun k => given k i).foldl combine identity := by
    have hrest : ∀ (ks : List Nat), (∀ k ∈ ks, k < packet) → ∀ a, P a →
        ks.foldl (fun combined k => lane combined (lanes k i)) a =
          ks.foldl (fun combined k => combine combined (lanes k i)) a := by
      intro ks
      induction ks with
      | nil => exact fun _ _ _ => rfl
      | cons k ks ih =>
          intro hks a ha
          have hk := hmem k (hks k List.mem_cons_self) i hi
          rw [List.foldl_cons, List.foldl_cons, hV.lane_eq ha hk]
          exact ih (fun j hj => hks j (List.mem_cons_of_mem _ hj)) _ (h.combine_mem ha hk)
    have hsplit : List.range packet = 0 :: List.range' 1 (packet - 1) := by
      conv_lhs => rw [← Nat.sub_add_cancel hpacket, List.range_eq_range', List.range'_succ]
    rw [combineAccumulators, hrest _ (fun k hk => by have := List.mem_range'_1.1 hk; omega) _
      (hmem 0 hpacket i hi), h.foldl_flatMap fun k hk => hgiven k (List.mem_range.1 hk) i hi,
      hsplit, List.map_cons, List.foldl_cons, ← hlanes 0 hpacket i hi,
      h.identity_combine (hmem 0 hpacket i hi), List.foldl_map]
    refine List.foldl_ext _ _ _ fun a k hk => ?_
    rw [hlanes k (by have := List.mem_range'_1.1 hk; omega) i hi]
  rw [hV.horizontal_eq fun i hi => by
    rw [hcombined i hi]
    exact h.foldl_mem (fun a ha => by
      obtain ⟨k, hk, ha⟩ := List.mem_flatMap.1 ha
      exact hgiven k (List.mem_range.1 hk) i hi a ha) h.identity_mem]
  have hall : ∀ k ∈ List.range packet, ∀ i ∈ List.range length, ∀ a ∈ given k i, P a :=
    fun k hk i hi => hgiven k (List.mem_range.1 hk) i (List.mem_range.1 hi)
  rw [List.map_congr_left fun i hi => hcombined i (List.mem_range.1 hi),
    ← h.foldl_flatMap fun i hi a ha => by
      obtain ⟨k, hk, ha⟩ := List.mem_flatMap.1 ha
      exact hall k hk i hi a ha]
  refine h.foldl_perm (flatMap_flatMap_perm _ _ _) fun a ha => ?_
  obtain ⟨i, hi, ha⟩ := List.mem_flatMap.1 ha
  obtain ⟨k, hk, ha⟩ := List.mem_flatMap.1 ha
  exact hall k hk i hi a ha

section Reducers

variable {R : Reducer β α α} {value : β → α} {Q : β → Prop} {bound : Option Nat}

theorem lanes_eq (h : ExactOn combine R.identity P) (hvalue : ∀ {x}, Q x → P (value x))
    (hstart : R.laneIdentity = R.identity)
    (hlane : ∀ {a x}, P a → Q x → R.laneUpdate a x = combine a (value x))
    {lanes : Nat → Nat → α} {given : Nat → Nat → List β}
    (hgiven : ∀ k < packet, ∀ i < length,
      lanes k i = (given k i).foldl R.laneUpdate R.laneIdentity ∧
        (∀ x ∈ given k i, Q x) ∧ ∀ b ∈ bound, (given k i).length ≤ b) :
    ∀ k < packet, ∀ i < length,
      lanes k i = ((given k i).map value).foldl combine R.identity := by
  intro k hk i hi
  obtain ⟨heq, hQ, -⟩ := hgiven k hk i hi
  rw [heq, hstart, foldl_lane h hvalue hlane hQ]

/-- A reducer that merges its registers by a horizontal operation. -/
theorem folds_of_horizontal (h : ExactOn combine R.identity P)
    (hvalue : ∀ {x}, Q x → P (value x))
    (hupdate : ∀ {a x}, P a → Q x → R.update a x = combine a (value x))
    (hstart : R.laneIdentity = R.identity)
    (hlane : ∀ {a x}, P a → Q x → R.laneUpdate a x = combine a (value x))
    (hV : LaneWise combine R.identity P length lane horizontal) (hpacket : 0 < packet)
    (hmerge : ∀ a lanes, R.merge a lanes =
      combine a (horizontal length (combineAccumulators lane packet lanes))) :
    R.Folds length packet bound Q combine P value where
  exact := h
  value_mem := hvalue
  update := hupdate
  merge := by
    intro a lanes given _ hgiven
    rw [hmerge, hV.merge_eq h hpacket (fun k hk i hi => map_mem hvalue (hgiven k hk i hi).2.1)
      (lanes_eq h hvalue hstart hlane hgiven)]

/-- A reducer that stores its registers and merges the converted lanes one by one. -/
theorem folds_of_stores {R : Reducer β κ ρ} {combine : ρ → ρ → ρ} {P : ρ → Prop}
    {value : β → ρ} (cast : κ → ρ) (h : ExactOn combine R.identity P)
    (hvalue : ∀ {x}, Q x → P (value x))
    (hupdate : ∀ {a x}, P a → Q x → R.update a x = combine a (value x))
    (hlane : ∀ {given : List β}, (∀ x ∈ given, Q x) → (∀ b ∈ bound, given.length ≤ b) →
      cast (given.foldl R.laneUpdate R.laneIdentity) =
        (given.map value).foldl combine R.identity)
    (hmerge : ∀ a lanes, R.merge a lanes =
      ((List.range packet).flatMap fun k => (List.range length).map (lanes k)).foldl
        (fun a lane => combine a (cast lane)) a) :
    R.Folds length packet bound Q combine P value where
  exact := h
  value_mem := hvalue
  update := hupdate
  merge := by
    intro a lanes given ha hgiven
    have hmem : ∀ k ∈ List.range packet, ∀ i ∈ List.range length,
        ∀ b ∈ (given k i).map value, P b := fun k hk i hi =>
      map_mem hvalue (hgiven k (List.mem_range.1 hk) i (List.mem_range.1 hi)).2.1
    have hstored : ((List.range packet).flatMap fun k =>
        (List.range length).map (lanes k)).map cast =
        ((List.range packet).flatMap fun k => (List.range length).map fun i =>
          (given k i).map value).map (List.foldl combine R.identity) := by
      rw [List.map_flatMap, List.map_flatMap]
      refine List.flatMap_congr fun k hk => ?_
      rw [List.map_map, List.map_map]
      refine List.map_congr_left fun i hi => ?_
      obtain ⟨heq, hQ, hbound⟩ := hgiven k (List.mem_range.1 hk) i (List.mem_range.1 hi)
      rw [Function.comp_apply, heq, hlane hQ hbound]
      rfl
    have hflat : ((List.range packet).flatMap fun k => (List.range length).flatMap fun i =>
        (given k i).map value) =
        (((List.range packet).flatMap fun k => (List.range length).map fun i =>
          (given k i).map value).flatMap fun l => l) := by
      rw [List.flatMap_assoc]
      simp only [List.flatMap_map]
    have hcells : ∀ l ∈ (List.range packet).flatMap (fun k => (List.range length).map fun i =>
        (given k i).map value), ∀ b ∈ l, P b := by
      intro l hl
      obtain ⟨k, hk, hl⟩ := List.mem_flatMap.1 hl
      obtain ⟨i, hi, rfl⟩ := List.mem_map.1 hl
      exact hmem k hk i hi
    have hcast := @List.foldl_map _ _ _ cast combine
      ((List.range packet).flatMap fun k => (List.range length).map (lanes k)) a
    rw [hmerge, hflat, h.foldl_flatMap hcells, ← hcast, hstored]
    refine h.foldl_eq (fun b hb => ?_) ha
    obtain ⟨l, hl, rfl⟩ := List.mem_map.1 hb
    exact h.foldl_mem (hcells l hl) h.identity_mem

end Reducers

end LaneFolds

section Instances

variable {F : Scalar α} {V : SimdReduce α} {P : α → Prop} {length packet : Nat}

theorem sumReducer_folds (h : ExactOn F.add F.zero P)
    (hV : LaneWise F.add F.zero P length V.add V.accumulate) (hpacket : 0 < packet) :
    (sumReducer F V length packet).Folds length packet none P F.add P id :=
  folds_of_horizontal h id (fun _ _ => rfl) rfl
    hV.lane_eq hV hpacket fun _ _ => rfl

/-- The reductions of `reduce_expression` that are not counts. -/
def foldingOps : List ReduceOp := [.sum, .product, .nansum, .all, .any]

theorem expressionReducer_folds {op : ReduceOp} (hop : op ∈ foldingOps)
    {P : op.Accumulator α → Prop} (h : op.ExactOn F P) (hV : op.LaneWise F V length P)
    (hpacket : 0 < packet) (toUInt64 : α → UInt64) :
    (expressionReducer F V toUInt64 op length packet).Folds length packet none
      (fun x => P (reduceTransform F op x)) (reduceCombine (op.accumulator F) op) P
      (reduceTransform F op) := by
  cases op with
  | sum | nansum | all | any =>
      exact folds_of_horizontal h (fun hx => hx) (fun _ _ => rfl) rfl
        (fun ha hx => LaneWise.lane_eq hV ha hx) hV hpacket fun _ _ => rfl
  | product =>
      exact folds_of_stores id h (fun hx => hx) (fun _ _ => rfl)
        (fun hgiven _ => foldl_lane (Q := fun x => P (reduceTransform F .product x)) h
          (fun hx => hx) (fun ha hx => hV _ _ ha hx) hgiven)
        fun _ _ => rfl
  | min | max | countNonzero | countValid => exact absurd hop (by decide)

/-- Counts the elements that `hit` holds of. -/
def countingReducer (hit : α → Bool) (length packet : Nat) : Reducer α Nat Nat where
  identity := 0
  update count x := count + if hit x then 1 else 0
  laneIdentity := 0
  laneUpdate count x := count + if hit x then 1 else 0
  merge count lanes :=
    ((List.range packet).flatMap fun k => (List.range length).map (lanes k)).foldl (· + ·) count

theorem foldl_hits (hit : α → Bool) (xs : List α) :
    (xs.map fun x => if hit x then 1 else 0).foldl (· + ·) 0 = xs.countP hit := by
  have hcount : xs.foldl (fun count x => count + if hit x then 1 else 0) (id 0) =
      id (0 + xs.countP hit) :=
    foldl_counts (fun _ _ => rfl) (fun _ _ => rfl) hit le_rfl
  rw [List.foldl_map]
  exact hcount.trans (Nat.zero_add _)

theorem countingReducer_folds (hit : α → Bool) (length packet : Nat) :
    (countingReducer hit length packet).Folds length packet none (fun _ => True) (· + ·)
      (fun _ => True) fun x => if hit x then 1 else 0 := by
  have hexact : ExactOn (· + ·) (countingReducer hit length packet).identity fun _ => True :=
    { identity_mem := trivial
      combine_mem := fun _ _ => trivial
      assoc := fun _ _ _ => Nat.add_assoc _ _ _
      comm := fun _ _ => Nat.add_comm _ _
      identity_combine := fun _ => Nat.zero_add _ }
  apply folds_of_stores id hexact (fun _ => trivial) (fun _ _ => rfl)
  · intro given _ _
    rw [List.foldl_map]
    rfl
  · exact fun _ _ => rfl

end Instances

section Statement

variable (F : Scalar α) (S : SimdTarget T) (c : Codec α T.size) (m : Memory)
  (allOnes : Option α)

/-- Every reduction of the operand that compiles folds its logical elements, each of them
once. -/
structure FoldsEachElement (operand : ReductionOperand T α) : Prop where
  /-- The loops of `accumulate`, whatever they combine. -/
  horizontal : ∀ {κ ρ : Type} (R : Reducer α κ ρ) (Q : α → Prop) (combine : ρ → ρ → ρ)
    (P : ρ → Prop) (value : α → ρ),
    R.Folds S.length S.packet none Q combine P value → (∀ x ∈ operand.elements F c m, Q x) →
    ∀ result, horizontalReduction F c m S R allOnes operand = some result →
      result = .ok (((operand.elements F c m).map value).foldl combine R.identity)
  /-- The loops of `reduce_expression`, whatever they combine. -/
  expression : ∀ {κ ρ : Type} (R : Reducer α κ ρ) (Q : α → Prop) (combine : ρ → ρ → ρ)
    (P : ρ → Prop) (value : α → ρ),
    R.Folds S.unrolledByFour.length S.unrolledByFour.packet none Q combine P value →
    (∀ x ∈ operand.elements F c m, Q x) →
    reduceExpression F c m S R false operand =
      .ok (((operand.elements F c m).map value).foldl combine R.identity)
  accumulate : ∀ (V : SimdReduce α) (P : α → Prop),
    ExactOn F.add F.zero P → LaneWise F.add F.zero P S.length V.add V.accumulate →
    (∀ x ∈ operand.elements F c m, P x) →
    ∀ result, accumulate F V c m S allOnes operand = some result →
      result = .ok ((operand.elements F c m).foldl F.add F.zero)
  reduceExpression : ∀ (V : SimdReduce α) (toUInt64 : α → UInt64), ∀ op ∈ foldingOps,
    ∀ P : op.Accumulator α → Prop, op.ExactOn F P → op.LaneWise F V S.length P →
    (∀ x ∈ operand.elements F c m, P (reduceTransform F op x)) →
    reduceExpressionOp F V c m S toUInt64 op operand =
      .ok ((operand.elements F c m).foldl
        (fun acc x => reduceCombine (op.accumulator F) op acc (reduceTransform F op x))
        (reduceIdentity (op.accumulator F) op))

variable {F S allOnes} {operand : ReductionOperand T α}

/-- A call that compiles reads the elements as numbers. -/
theorem numbersRead_of_compiles {R : Reducer α κ ρ} {result : Except Raise ρ}
    (hfalse : allOnes.isSome → operand.RegistersFalse F c m S)
    (hrun : horizontalReduction F c m S R allOnes operand = some result) :
    operand.numbersRead F c m allOnes S = operand.visited F c m := by
  cases allOnes with
  | some ones => exact (hfalse rfl).numbersRead_eq c m _
  | none =>
      cases operand with
      | tensor _ | expression _ => rfl
      | comparison test lhs rhs => cases hrun

theorem foldsEachElement_of_lt (h : operand.Valid F S) (hlanes : operand.LaneWise)
    (hcount : (operand.shape F).prod < 2 ^ 64)
    (hfalse : allOnes.isSome → operand.RegistersFalse F c m S) :
    FoldsEachElement F S c m allOnes operand := by
  have hvisited := h.visited_eq c m hcount
  refine ⟨?_, ?_, ?_, ?_⟩
  · intro κ ρ R Q combine P value hR hQ result hrun
    have hread := (numbersRead_of_compiles c m hfalse hrun).trans hvisited
    rw [ReductionOperand.horizontalReduction_eq c m h hlanes hR (hread ▸ hQ) hrun, hread]
  · intro κ ρ R Q combine P value hR hQ
    rw [ReductionOperand.reduceExpression_eq c m h hlanes false hR (hvisited ▸ hQ),
      hvisited]
  · intro V P hexact hV hP result hrun
    have hR := sumReducer_folds hexact hV S.packet_pos
    have hread := (numbersRead_of_compiles c m hfalse hrun).trans hvisited
    rw [ReductionOperand.horizontalReduction_eq c m h hlanes hR (hread ▸ hP) hrun, hread,
      List.map_id]
    rfl
  · intro V toUInt64 op hop P hexact hV hP
    have hR := expressionReducer_folds hop hexact hV S.unrolledByFour.packet_pos toUInt64
    have hcounts : op.isCount = false :=
      (by decide : ∀ op ∈ foldingOps, op.isCount = false) op hop
    rw [reduceExpressionOp, hcounts,
      ReductionOperand.reduceExpression_eq c m h hlanes _ hR (hvisited ▸ hP), hvisited,
      List.foldl_map]
    rfl

/-- A wrapped element count leaves elements out. -/
theorem FoldsEachElement.count_lt (hfolds : FoldsEachElement F S c m allOnes operand)
    (h : operand.Valid F S) (hlanes : operand.LaneWise) :
    (operand.shape F).prod < 2 ^ 64 := by
  have hR := countingReducer_folds (fun _ : α => true) S.unrolledByFour.length
    S.unrolledByFour.packet
  have hall := hfolds.expression _ _ _ _ _ hR fun _ _ => trivial
  rw [ReductionOperand.reduceExpression_eq c m h hlanes false hR fun _ _ => trivial] at hall
  have hcount := (foldl_hits _ _).symm.trans ((Except.ok.inj hall).trans (foldl_hits _ _))
  have hlength : (operand.visited F c m).length = (operand.elements F c m).length := by
    simpa using hcount
  rw [h.length_visited, ReductionOperand.length_elements] at hlength
  exact hlength ▸ wrapU64_lt (operand.shape F).prod

/-- Where all bits set are not the number one, fewer ones are read than there are true
elements. -/
theorem FoldsEachElement.registersFalse (hfolds : FoldsEachElement F S c m allOnes operand)
    (h : operand.Valid F S) (hlanes : operand.LaneWise)
    (hones : ∀ ones ∈ allOnes, ones ≠ F.one) (hsome : allOnes.isSome) :
    operand.RegistersFalse F c m S := by
  classical
  obtain ⟨ones, rfl⟩ := Option.isSome_iff_exists.1 hsome
  cases operand with
  | tensor _ | expression _ => trivial
  | comparison test lhs rhs =>
      intro hflat i hi
      have hcount := hfolds.count_lt c m h hlanes
      have hR := countingReducer_folds (fun x => decide (x = F.one)) S.length S.packet
      obtain ⟨result, hrun⟩ : ∃ result, horizontalReduction F c m S
          (countingReducer (fun x => decide (x = F.one)) S.length S.packet) (some ones)
          (.comparison test lhs rhs) = some result := ⟨_, rfl⟩
      have hread := ReductionOperand.horizontalReduction_eq c m h hlanes hR
        (fun _ _ => trivial) hrun
      rw [hfolds.horizontal _ _ _ _ _ hR (fun _ _ => trivial) result hrun,
        ← h.visited_eq c m hcount] at hread
      have hsame := (foldl_hits _ _).symm.trans ((Except.ok.inj hread).trans (foldl_hits _ _))
      rw [ReductionOperand.visited, ReductionOperand.numbersRead, List.countP_map,
        List.countP_map, List.countP_eq_length_filter, List.countP_eq_length_filter] at hsame
      have hnumber (j : Nat) := ReductionOperand.numberAt_of_flat c m hflat (some ones) S j
      have hsub : ∀ j, decide (ReductionOperand.numberAt F c m (some ones) S
          (.comparison test lhs rhs) j = F.one) = true →
          decide (ReductionOperand.flatElement F c m (.comparison test lhs rhs) j = F.one) =
            true := by
        intro j hone
        rw [decide_eq_true_iff, hnumber] at hone
        split at hone
        · exact absurd hone (hones ones rfl)
        · exact decide_eq_true hone
      have heq := (List.monotone_filter_right _ hsub).eq_of_length hsame.symm
      -- a true element is a one that is not read as a one
      by_contra htrue
      rw [Bool.not_eq_false] at htrue
      have hone : ReductionOperand.flatElement F c m (.comparison test lhs rhs) i = F.one := by
        rw [ReductionOperand.flatElement, if_pos hflat]
        change F.ofBool (test.scalar (flatValue c m lhs i) (flatValue c m rhs i)) = F.one
        rw [htrue]
        rfl
      have hmem : i ∈ List.filter (fun j => decide (ReductionOperand.flatElement F c m
          (.comparison test lhs rhs) j = F.one))
          (List.range (ReductionOperand.size F (.comparison test lhs rhs))) :=
        List.mem_filter.2
          ⟨List.mem_range.2 (Nat.lt_of_lt_of_le hi (loopPeel_le S _)), decide_eq_true hone⟩
      rw [← heq] at hmem
      have hread := of_decide_eq_true (List.mem_filter.1 hmem).2
      rw [hnumber, if_pos ⟨hi, htrue⟩] at hread
      exact hones ones rfl hread

/-- The reductions fold every element once exactly when the elements can be counted, and no
register that `accumulate` adds holds a true element of a comparison. -/
theorem foldsEachElement_iff (h : operand.Valid F S) (hlanes : operand.LaneWise)
    (hones : ∀ ones ∈ allOnes, ones ≠ F.one) :
    FoldsEachElement F S c m allOnes operand ↔
      (operand.shape F).prod < 2 ^ 64 ∧
        (allOnes.isSome → operand.RegistersFalse F c m S) := by
  constructor
  · intro hfolds
    exact ⟨hfolds.count_lt c m h hlanes, hfolds.registersFalse c m h hlanes hones⟩
  · rintro ⟨hcount, hfalse⟩
    exact foldsEachElement_of_lt c m h hlanes hcount hfalse

end Statement

namespace ElementFoldsWitness

open Sample

/-- Four bytes that are added and compared as bytes. -/
def bytes : Scalar (Fin 4 → UInt8) where
  zero := fun _ => 0
  one := fun _ => 1
  finiteMax := fun _ => 255
  neg a k := -a k
  add a b k := a k + b k
  mul a b k := a k * b k
  lt a b := decide (a 0 < b 0)
  eq a b := decide (a = b)

/-- Ten elements that do not start at a register boundary. -/
def packed : TensorImpl float :=
  TensorImpl.recompute fourLanes (.bare false ⟨4100, 10, .cpu, 0⟩ [⟨10, 1⟩])

theorem packed_valid : (ReductionOperand.tensor packed).Valid bytes fourLanes :=
  ⟨⟨TensorImpl.recompute_cached fourLanes _, ⟨by decide, rfl, rfl⟩, by decide⟩, rfl⟩

theorem packed_shape : ((ReductionOperand.tensor packed).shape bytes).prod = 10 := by
  decide

/-- All bits set. -/
def allSet : Fin 4 → UInt8 := fun _ => 255

def byteLanes : SimdReduce (Fin 4 → UInt8) where
  add := bytes.add
  mul := bytes.mul
  min := reduceCombine bytes .all
  max := reduceCombine bytes .any
  accumulate length lanes := ((List.range length).map lanes).foldl bytes.add bytes.zero
  hmin length lanes := ((List.range length).map lanes).foldl (reduceCombine bytes .all) bytes.one
  hmax length lanes := ((List.range length).map lanes).foldl (reduceCombine bytes .any) bytes.zero

theorem byteLanes_all : ReduceOp.LaneWise bytes byteLanes fourLanes.length .all
    fun a => ∃ b, a = bytes.ofBool b where
  lane_eq := fun _ _ => rfl
  horizontal_eq := by
    intro lanes _
    simp only [byteLanes, reduceIdentity]

theorem elements_packed : (ReductionOperand.tensor packed).elements bytes (Codec.bytes 4)
    (fun _ => 1) = List.replicate 10 fun _ => 1 :=
  rfl

theorem foldsEachElement_packed :
    FoldsEachElement bytes fourLanes (Codec.bytes 4) (fun _ => 1) (some allSet)
        (.tensor packed) ∧
      reduceExpressionOp bytes byteLanes (Codec.bytes 4) (fun _ => 1) fourLanes
        (fun _ => 0) .all (.tensor packed) = .ok bytes.one := by
  have hones : ∀ ones ∈ some allSet, ones ≠ bytes.one := by
    rintro _ ⟨⟩
    decide
  have hfolds := (foldsEachElement_iff (Codec.bytes 4) (fun _ => 1) packed_valid trivial hones).2
    ⟨by rw [packed_shape]; norm_num, fun _ => trivial⟩
  have hall := hfolds.reduceExpression byteLanes (fun _ => 0) .all (by decide) _
    (exactOn_all (by decide) (by decide)) byteLanes_all fun x _ => ⟨_, rfl⟩
  rw [elements_packed] at hall
  have hfold : (List.replicate 10 fun _ => 1).foldl
      (fun acc x => reduceCombine bytes .all acc (reduceTransform bytes .all x)) bytes.one =
        bytes.one := by decide +kernel
  exact ⟨hfolds, hall.trans (congrArg Except.ok hfold)⟩

/-- One element expanded to a column and to a row of `2 ^ 32`. -/
def column : TensorImpl float :=
  TensorImpl.recompute fourLanes (.bare true ⟨4096, 1, .cpu, 0⟩ [⟨2 ^ 32, 0⟩, ⟨1, 0⟩])

def row : TensorImpl float :=
  TensorImpl.recompute fourLanes (.bare true ⟨4096, 1, .cpu, 0⟩ [⟨1, 0⟩, ⟨2 ^ 32, 0⟩])

theorem column_readable : column.Readable fourLanes :=
  ⟨TensorImpl.recompute_cached fourLanes _, ⟨by decide, rfl, rfl⟩, by decide⟩

theorem row_readable : row.Readable fourLanes :=
  ⟨TensorImpl.recompute_cached fourLanes _, ⟨by decide, rfl, rfl⟩, by decide⟩

/-- Their sum: `2 ^ 64` elements. -/
def table : ReductionOperand float (Fin 4 → UInt8) :=
  .expression (.binary (.lanes bytes.add) (.leaf (.ref column.strided))
    (.leaf (.ref row.strided)))

theorem table_laneWise : table.LaneWise :=
  ⟨fun _ _ _ => rfl, trivial, trivial⟩

theorem table_shape : table.shape bytes = [2 ^ 32, 2 ^ 32] := by
  decide

theorem table_valid : table.Valid bytes fourLanes where
  stored := by
    intro l hl
    rcases List.mem_cons.1 hl with rfl | hl
    · exact .ref column_readable
    · exact List.mem_singleton.1 hl ▸ .ref row_readable
  placement := ⟨0, by
    intro l hl
    rcases List.mem_cons.1 hl with rfl | hl
    · exact ⟨rfl, rfl⟩
    · exact List.mem_singleton.1 hl ▸ ⟨rfl, rfl⟩⟩
  shaped := by decide
  views := by
    intro v hv
    rcases List.mem_cons.1 hv with hv | hv
    · exact nomatch hv
    · exact nomatch List.mem_singleton.1 hv

/-- Ten elements, each compared with a value. -/
def compared {α : Type} (test : α → α → Bool) (value : α) : ReductionOperand float α :=
  .comparison (.lanes test) (.leaf (.ref packed.strided)) (.scalar value)

theorem compared_valid {α : Type} (F : Scalar α) (test : α → α → Bool) (value : α) :
    (compared test value).Valid F fourLanes where
  stored := by
    intro l hl
    exact List.mem_singleton.1 hl ▸ .ref packed_valid.1
  placement := ⟨0, by
    intro l hl
    exact List.mem_singleton.1 hl ▸ ⟨rfl, rfl⟩⟩
  shaped := rfl
  views := by
    intro v hv
    exact nomatch List.mem_singleton.1 hv

def belowTwo : ReductionOperand float (Fin 4 → UInt8) := compared bytes.lt fun _ => 2

/-- The count of the sum wraps to zero and nothing is folded.  Ten ones that are less than
two are counted to 250 in bytes, since eight of them are compared in registers, whose true
lanes have all bits set. -/
theorem not_foldsEachElement_table :
    (table.Valid bytes fourLanes ∧
      ¬ FoldsEachElement bytes fourLanes (Codec.bytes 4) (fun _ => 1) (some allSet) table) ∧
    belowTwo.Valid bytes fourLanes ∧
      accumulate bytes byteLanes (Codec.bytes 4) (fun _ => 1) fourLanes (some allSet) belowTwo =
        some (.ok fun _ => 250) ∧
      (belowTwo.elements bytes (Codec.bytes 4) fun _ => 1).foldl bytes.add bytes.zero =
        fun _ => 10 := by
  refine ⟨⟨table_valid, fun hfolds => ?_⟩, compared_valid _ _ _, by decide +kernel,
    by decide +kernel⟩
  have hcount := hfolds.count_lt _ _ table_valid table_laneWise
  rw [table_shape] at hcount
  exact absurd hcount (by norm_num)

end ElementFoldsWitness

end Vectorization
