/-
Programs with lane-wise registers do not depend on the build.  The length and alignment of
registers, the unrolling and the thread pool decide in which groups elements are stored, and
nothing else: the checks see the geometry of the operands alone, and equal snapshots are equal
memories.
-/
import Vectorization.ArrayProgram

namespace Vectorization

open StridedSpace MachineInteger ByteMemory AtomicRun

variable {T : ElementType} {α : Type}

section Source

/-- The tree by the scalar branches of its functors, which are the same in every build. -/
def Expr.source {L : Type} : Expr L α → Expr L α
  | .scalar value => .scalar value
  | .leaf l => .leaf l
  | .unary functor rhs => .unary (.lanes functor.scalar) rhs.source
  | .binary functor lhs rhs => .binary (.lanes functor.scalar) lhs.source rhs.source
  | .trinary functor lhs mhs rhs =>
      .trinary (.lanes functor.scalar) lhs.source mhs.source rhs.source

theorem UnaryFunctor.LaneWise.lanes_scalar {functor : UnaryFunctor α} (h : functor.LaneWise) :
    .lanes functor.scalar = functor := by
  obtain ⟨f, packet⟩ := functor
  obtain rfl : packet = fun a lane => f (a lane) := funext fun a => funext (h a)
  rfl

theorem BinaryFunctor.LaneWise.lanes_scalar {functor : BinaryFunctor α} (h : functor.LaneWise) :
    .lanes functor.scalar = functor := by
  obtain ⟨f, packet⟩ := functor
  obtain rfl : packet = fun a b lane => f (a lane) (b lane) :=
    funext fun a => funext fun b => funext (h a b)
  rfl

theorem TrinaryFunctor.LaneWise.lanes_scalar {functor : TrinaryFunctor α}
    (h : functor.LaneWise) : .lanes functor.scalar = functor := by
  obtain ⟨f, packet⟩ := functor
  obtain rfl : packet = fun a b c lane => f (a lane) (b lane) (c lane) :=
    funext fun a => funext fun b => funext fun c => funext (h a b c)
  rfl

/-- A lane-wise tree has no registers that its scalar branches do not describe. -/
theorem Expr.LaneWise.source_eq {L : Type} {e : Expr L α} (h : e.LaneWise) : e.source = e := by
  induction e with
  | scalar _ | leaf _ => rfl
  | unary functor rhs ih => rw [source, h.1.lanes_scalar, ih h.2]
  | binary functor lhs rhs ihl ihr =>
      rw [source, h.1.lanes_scalar, ihl h.2.1, ihr h.2.2]
  | trinary functor lhs mhs rhs ihl ihm ihr =>
      rw [source, h.1.lanes_scalar, ihl h.2.1, ihm h.2.2.1, ihr h.2.2.2]

def Write.source : Write T α → Write T α
  | .expr e noalias => .expr e.source noalias
  | .tensor t noalias => .tensor t noalias
  | .scalar value => .scalar value
  | .update functor e noalias => .update (.lanes functor.scalar) e.source noalias

/-- What the program text says of a statement; the registers are up to the build. -/
def Statement.source (st : Statement T α) : Statement T α :=
  { st with write := st.write.source }

theorem Statement.source_eq {st : Statement T α} (h : st.tree.LaneWise) : st.source = st := by
  obtain ⟨dst, write⟩ := st
  cases write with
  | tensor _ _ | scalar _ => rfl
  | expr e noalias => rw [source, Write.source, Expr.LaneWise.source_eq (e := e) h]
  | update functor e noalias =>
      rw [source, Write.source, h.1.lanes_scalar, Expr.LaneWise.source_eq (e := e) h.2.2]

theorem map_source {p : List (Statement T α)} (h : ∀ st ∈ p, st.tree.LaneWise) :
    p.map Statement.source = p :=
  (List.map_congr_left fun st hst => Statement.source_eq (h st hst)).trans (List.map_id p)

end Source

section Unaligned

/-- The layout without the fields that depend on registers. -/
def StridedRef.unaligned (s : StridedRef T) : StridedRef T :=
  { s with alignStart := 0, alignEnd := 0 }

def TensorImpl.unaligned (t : TensorImpl T) : TensorImpl T :=
  { t with alignStart := 0, alignEnd := 0 }

def Leaf.unaligned : Leaf T → Leaf T
  | .ref s => .ref s.unaligned
  | .view v => .view v

theorem Leaf.unaligned_toRef (l : Leaf T) : l.unaligned.toRef = l.toRef.unaligned := by
  cases l with
  | ref s => rfl
  | view v => rfl

theorem TensorImpl.recompute_unaligned (S S' : SimdTarget T) (t : TensorImpl T) :
    (t.recompute S).unaligned = (t.recompute S').unaligned := by
  rw [recompute, recompute]
  split <;> rfl

theorem Operand.leaf_unaligned (S S' : SimdTarget T) (o : Operand T) :
    (o.leaf S).unaligned = (o.leaf S').unaligned := by
  cases o with
  | tensor t => exact congrArg (fun t => Leaf.ref t.strided) (t.recompute_unaligned S S')
  | view v => rfl

/-- The trees of two builds differ in the fields of their registers only. -/
theorem Expr.map_leaf_unaligned (S S' : SimdTarget T) (e : Expr (Operand T) α) :
    (e.map (Operand.leaf S)).map Leaf.unaligned = (e.map (Operand.leaf S')).map Leaf.unaligned := by
  rw [Expr.map_map, Expr.map_map]
  congr 1
  funext o
  exact o.leaf_unaligned S S'

variable (e : Expr (Leaf T) α)

theorem accumulateExpressionPlacement_unaligned (seen : Option (DeviceEnum × Int)) :
    accumulateExpressionPlacement (e.map Leaf.unaligned) seen =
      accumulateExpressionPlacement e seen := by
  induction e generalizing seen with
  | scalar _ => rfl
  | leaf l =>
      have hdevice : l.unaligned.device = l.device := by rw [Leaf.device, l.unaligned_toRef]; rfl
      have hindex : l.unaligned.deviceIndex = l.deviceIndex := by
        rw [Leaf.deviceIndex, l.unaligned_toRef]
        rfl
      cases seen with
      | none => simp only [Expr.map, accumulateExpressionPlacement, hdevice, hindex]
      | some place => simp only [Expr.map, accumulateExpressionPlacement, hdevice, hindex]
  | unary f rhs ih => exact ih seen
  | binary f lhs rhs ihl ihr =>
      simp only [Expr.map, accumulateExpressionPlacement, ihl, ihr]
  | trinary f lhs mhs rhs ihl ihm ihr =>
      simp only [Expr.map, accumulateExpressionPlacement, ihl, ihm, ihr]

theorem checkAssignmentOverlap_unaligned (ndebug noalias : Bool) (dst : StridedRef T) :
    checkAssignmentOverlap ndebug noalias dst.unaligned (e.map Leaf.unaligned) =
      checkAssignmentOverlap ndebug noalias dst e := by
  induction e with
  | scalar _ => rfl
  | leaf l =>
      have hleaf : checkLeafOverlap noalias dst.unaligned l.unaligned =
          checkLeafOverlap noalias dst l := by
        rw [checkLeafOverlap, l.unaligned_toRef]
        rfl
      simp only [Expr.map, checkAssignmentOverlap, hleaf]
  | unary f rhs ih => exact ih
  | binary f lhs rhs ihl ihr => simp only [Expr.map, checkAssignmentOverlap, ihl, ihr]
  | trinary f lhs mhs rhs ihl ihm ihr =>
      simp only [Expr.map, checkAssignmentOverlap, ihl, ihm, ihr]

theorem accumulateShape_unaligned (acc : List Nat) :
    accumulateShape (e.map Leaf.unaligned) acc = accumulateShape e acc := by
  induction e generalizing acc with
  | scalar _ => rfl
  | leaf l =>
      rw [Expr.map, accumulateShape, l.unaligned_toRef]
      rfl
  | unary f rhs ih => exact ih acc
  | binary f lhs rhs ihl ihr =>
      simp only [Expr.map, accumulateShape, ihl, funext ihr]
  | trinary f lhs mhs rhs ihl ihm ihr =>
      simp only [Expr.map, accumulateShape, ihl, funext ihm, funext ihr]

theorem expressionResultShape_unaligned :
    expressionResultShape (e.map Leaf.unaligned) = expressionResultShape e := by
  have hsizes : ((e.map Leaf.unaligned).leaves.map fun l => l.toRef.sizes) =
      e.leaves.map fun l => l.toRef.sizes := by
    rw [Expr.leaves_map, List.map_map]
    apply List.map_congr_left
    intro l _
    rw [Function.comp_apply, l.unaligned_toRef]
    rfl
  rw [expressionResultShape, expressionResultShape, accumulateShape_unaligned, hsizes]

theorem leavesFlat_unaligned (numel : Nat) :
    leavesFlat numel (e.map Leaf.unaligned) = leavesFlat numel e := by
  induction e with
  | scalar _ => rfl
  | leaf l =>
      cases l with
      | ref s => rfl
      | view v => rfl
  | unary f rhs ih => exact ih
  | binary f lhs rhs ihl ihr => simp only [Expr.map, leavesFlat, ihl, ihr]
  | trinary f lhs mhs rhs ihl ihm ihr => simp only [Expr.map, leavesFlat, ihl, ihm, ihr]

theorem planLeaves_unaligned (out : List Nat) (operands : List PlanOperand) :
    planLeaves out (e.map Leaf.unaligned) operands = planLeaves out e operands := by
  induction e generalizing operands with
  | scalar _ => rfl
  | leaf l =>
      rw [Expr.map, planLeaves, Leaf.data, l.unaligned_toRef]
      rfl
  | unary f rhs ih => exact ih operands
  | binary f lhs rhs ihl ihr => simp only [Expr.map, planLeaves, ihl, ihr]
  | trinary f lhs mhs rhs ihl ihm ihr => simp only [Expr.map, planLeaves, ihl, ihm, ihr]

theorem makeIterationPlan_unaligned (dst : StridedRef T) (shape : List Nat) :
    makeIterationPlan (e.map Leaf.unaligned) dst.unaligned shape =
      makeIterationPlan e dst shape := by
  rw [makeIterationPlan, makeIterationPlan]
  simp only [planLeaves_unaligned]
  rfl

end Unaligned

section Verdict

variable {ε β γ : Type}

/-- Whether a check raises, and what. -/
def verdict (x : Except ε β) : Except ε Unit := x.map fun _ => ()

@[simp] theorem verdict_bind (x : Except ε β) (f : β → Except ε γ) :
    verdict (x >>= f) = x >>= fun a => verdict (f a) := by
  cases x <;> rfl

@[simp] theorem verdict_ok (a : β) : verdict (.ok a : Except ε β) = .ok () := rfl

@[simp] theorem verdict_pure (a : β) : verdict (pure a : Except ε β) = pure () := rfl

@[simp] theorem verdict_ite {p : Prop} [Decidable p] (x y : Except ε β) :
    verdict (if p then x else y) = if p then verdict x else verdict y := by
  split <;> rfl

theorem exists_ok_of_verdict {x : Except ε β} {y : Except ε γ} (h : verdict x = verdict y)
    {a : β} (hx : x = .ok a) : ∃ b, y = .ok b := by
  subst hx
  cases y with
  | ok b => exact ⟨b, rfl⟩
  | error e => cases h

theorem error_of_verdict {x : Except ε β} {y : Except ε γ} (h : verdict x = verdict y) {e : ε}
    (hx : x = .error e) : y = .error e := by
  subst hx
  cases y with
  | ok b => cases h
  | error e' =>
      cases h
      rfl

end Verdict

section Checks

/-- The checks of `run_lowered`. -/
def evaluationChecks (e : Expr (Leaf T) α) (rhs : TensorImpl T) : Except Raise Unit := do
  let shape ← expressionResultShape e
  checkResultShape shape rhs
  checkCpuReachable rhs "expressions_evaluator::run"
  if ¬ leavesFlat rhs.numel e ∨ ¬ rhs.contiguous then
    let dst ← rhs.toStridedRef
    verdict (makeIterationPlan e dst shape)
  else pure ()

theorem verdict_runPlanned (S : SimdTarget T) (threads : ParallelFor) (c : Codec α T.size)
    (e : Expr (Leaf T) α) (dst : StridedRef T) (shape : List Nat) :
    verdict (runPlanned S threads c e dst shape) = verdict (makeIterationPlan e dst shape) := by
  rw [runPlanned]
  cases makeIterationPlan e dst shape with
  | error r => rfl
  | ok plan =>
      simp only [bind, Except.bind, pure, Except.pure, verdict_ite, verdict_ok, ite_self]

theorem verdict_runLowered (S : SimdTarget T) (threads : ParallelFor) (c : Codec α T.size)
    (e : Expr (Leaf T) α) (rhs : TensorImpl T) :
    verdict (runLowered S threads c e rhs) = evaluationChecks e rhs := by
  simp only [runLowered, evaluationChecks, verdict_bind, verdict_ite, verdict_runPlanned,
    verdict_pure]

theorem toStridedRef_unaligned (t : TensorImpl T) :
    t.unaligned.toStridedRef = t.toStridedRef >>= fun s => .ok s.unaligned := by
  rw [TensorImpl.toStridedRef, TensorImpl.toStridedRef]
  change (if t.rank ≤ kMaxRank then _ else _) = _
  split <;> rfl

theorem evaluationChecks_unaligned (e : Expr (Leaf T) α) (rhs : TensorImpl T) :
    evaluationChecks (e.map Leaf.unaligned) rhs.unaligned = evaluationChecks e rhs := by
  simp only [evaluationChecks, expressionResultShape_unaligned]
  change (do
    let shape ← expressionResultShape e
    checkResultShape shape rhs
    checkCpuReachable rhs "expressions_evaluator::run"
    if ¬ leavesFlat rhs.numel (e.map Leaf.unaligned) ∨ ¬ rhs.contiguous then
      let dst ← rhs.unaligned.toStridedRef
      verdict (makeIterationPlan (e.map Leaf.unaligned) dst shape)
    else pure ()) = _
  rw [leavesFlat_unaligned, toStridedRef_unaligned]
  cases rhs.toStridedRef with
  | error r => rfl
  | ok dst =>
      simp only [bind, Except.bind, makeIterationPlan_unaligned]

/-- The checks of a fill. -/
def fillChecks (rhs : TensorImpl T) : Except Raise Unit := do
  if ¬ rhs.nonOverlapping then throw .fillInternalOverlap
  if ¬ rhs.contiguous ∧ rhs.device = .cpu then
    verdict rhs.toStridedRef
  else
    checkContiguous rhs "expressions_evaluator::fill"
    checkCpuReachable rhs "expressions_evaluator::fill"

theorem verdict_fill (S : SimdTarget T) (value : α) (rhs : TensorImpl T) :
    verdict (fill S value rhs) = fillChecks rhs := by
  rw [fill, fillChecks]
  by_cases hflag : rhs.nonOverlapping = true
  · simp only [hflag, not_true, ↓reduceIte]
    split
    · cases rhs.toStridedRef <;> rfl
    · cases checkContiguous rhs "expressions_evaluator::fill" with
      | error r => rfl
      | ok u => cases checkCpuReachable rhs "expressions_evaluator::fill" <;> rfl
  · simp only [hflag]
    rfl

theorem fillChecks_unaligned (rhs : TensorImpl T) :
    fillChecks rhs.unaligned = fillChecks rhs := by
  have hverdict : verdict rhs.unaligned.toStridedRef = verdict rhs.toStridedRef := by
    rw [toStridedRef_unaligned]
    cases rhs.toStridedRef <;> rfl
  rw [fillChecks, fillChecks, hverdict]
  rfl

end Checks

section Plans

variable (b : Build T) (c : Codec α T.size)

/-- The stores of `assign`, when its checks pass. -/
def assignPlan (src : Source T α) (uncheckedAlias : Bool) (dst : TensorImpl T) :
    Except Raise (List (StoreOp StoreKind α)) := do
  validateDestination dst
  validatePlacement dst src.tree
  let e ← src.lower
  let ref ← dst.toStridedRef
  checkAssignmentOverlap b.ndebug uncheckedAlias ref e
  runLowered b.simd b.threads c e dst

/-- The checks of `assign`. -/
def assignChecks (ndebug : Bool) (src : Source T α) (uncheckedAlias : Bool)
    (dst : TensorImpl T) : Except Raise Unit := do
  validateDestination dst
  validatePlacement dst src.tree
  let e ← src.lower
  let ref ← dst.toStridedRef
  checkAssignmentOverlap ndebug uncheckedAlias ref e
  evaluationChecks e dst

theorem verdict_assignPlan (src : Source T α) (uncheckedAlias : Bool) (dst : TensorImpl T) :
    verdict (assignPlan b c src uncheckedAlias dst) =
      assignChecks b.ndebug src uncheckedAlias dst := by
  simp only [assignPlan, assignChecks, verdict_bind, verdict_runLowered]

/-- An assignment plans, then stores. -/
theorem assign_eq (src : Source T α) (uncheckedAlias : Bool) :
    assign b c src uncheckedAlias =
      destination >>= fun dst => raising (assignPlan b c src uncheckedAlias dst) >>= store c := by
  simp only [assign, assignPlan, raising_bind, bind_assoc]

namespace Statement

/-- The stores of a statement, when its checks pass. -/
def plan (st : Statement T α) : Except Raise (List (StoreOp StoreKind α)) :=
  let dst := st.dst.recompute b.simd
  match st.write with
  | .expr e noalias => assignPlan b c (.expression (e.map (Operand.leaf b.simd))) noalias dst
  | .tensor t noalias => assignPlan b c (.tensor (t.recompute b.simd)) noalias dst
  | .scalar value => do
      validateDestination dst
      fill b.simd value dst
  | .update functor e noalias => do
      let lhs ← dst.toStridedRef
      assignPlan b c
        (.expression (.binary functor (.leaf (.ref lhs)) (e.map (Operand.leaf b.simd))))
        noalias dst

/-- A statement plans, then stores. -/
theorem exec_eq (st : Statement T α) (m : Memory) : st.exec b c m =
    match st.plan b c with
    | .ok ops => .ok () (run c ops m)
    | .error r => .error r m := by
  have hperform : st.perform b c ⟨m, st.dst.recompute b.simd⟩ =
      (raising (st.plan b c) >>= store c) ⟨m, st.dst.recompute b.simd⟩ := by
    obtain ⟨dst, write⟩ := st
    cases write with
    | expr e noalias =>
        simp only [perform, assign_eq]
        rfl
    | tensor t noalias =>
        simp only [perform, assign_eq]
        rfl
    | scalar value =>
        simp only [plan, raising_bind, bind_assoc]
        rfl
    | update functor e noalias =>
        simp only [perform, assignUpdate, assign_eq, plan, raising_bind, bind_assoc]
        change (raising (dst.recompute b.simd).toStridedRef >>= _) _ = _
        cases (dst.recompute b.simd).toStridedRef with
        | error r => rfl
        | ok ref => rfl
  rw [exec, hperform]
  cases st.plan b c with
  | ok ops => rfl
  | error r => rfl

end Statement

end Plans

section Portable

variable {b b' : Build T} {c : Codec α T.size} {m : Memory}

/-- The right-hand side without the fields that depend on registers. -/
def Source.unaligned : Source T α → Source T α
  | .expression e => .expression (e.map Leaf.unaligned)
  | .tensor t => .tensor t.unaligned

theorem Source.unaligned_tree (src : Source T α) :
    src.unaligned.tree = src.tree.map Leaf.unaligned := by
  cases src with
  | expression e => rfl
  | tensor t => rfl

theorem Source.unaligned_lower (src : Source T α) :
    src.unaligned.lower = src.lower >>= fun e => .ok (e.map Leaf.unaligned) := by
  cases src with
  | expression e => rfl
  | tensor t =>
      simp only [unaligned, lower, toStridedRef_unaligned]
      cases t.toStridedRef with
      | error r => rfl
      | ok ref => rfl

/-- The fields of registers play no part in the checks. -/
theorem assignChecks_unaligned (ndebug : Bool) (src : Source T α) (uncheckedAlias : Bool)
    (dst : TensorImpl T) :
    assignChecks ndebug src.unaligned uncheckedAlias dst.unaligned =
      assignChecks ndebug src uncheckedAlias dst := by
  have hplace : validatePlacement dst.unaligned src.unaligned.tree =
      validatePlacement dst src.tree := by
    rw [validatePlacement, src.unaligned_tree, accumulateExpressionPlacement_unaligned]
    rfl
  rw [assignChecks, assignChecks, hplace, src.unaligned_lower, toStridedRef_unaligned]
  change (validateDestination dst >>= _) = (validateDestination dst >>= _)
  cases validateDestination dst with
  | error r => rfl
  | ok u =>
      cases validatePlacement dst src.tree with
      | error r => rfl
      | ok u =>
          cases src.lower with
          | error r => rfl
          | ok e =>
              cases dst.toStridedRef with
              | error r => rfl
              | ok ref =>
                  simp only [bind, Except.bind, checkAssignmentOverlap_unaligned,
                    evaluationChecks_unaligned]

/-- The checks of a statement come out the same in two builds with the same assertions. -/
theorem Statement.verdict_plan (hdebug : b.ndebug = b'.ndebug) (st : Statement T α) :
    verdict (st.plan b c) = verdict (st.plan b' c) := by
  obtain ⟨dst, write⟩ := st
  have hdst := dst.recompute_unaligned b.simd b'.simd
  have hassign : ∀ (src src' : Source T α) (noalias : Bool), src.unaligned = src'.unaligned →
      verdict (assignPlan b c src noalias (dst.recompute b.simd)) =
        verdict (assignPlan b' c src' noalias (dst.recompute b'.simd)) := by
    intro src src' noalias hsrc
    rw [verdict_assignPlan, verdict_assignPlan, ← assignChecks_unaligned, hsrc, hdst, hdebug,
      assignChecks_unaligned]
  cases write with
  | expr e noalias =>
      exact hassign _ _ noalias (congrArg Source.expression (e.map_leaf_unaligned b.simd b'.simd))
  | tensor t noalias =>
      exact hassign _ _ noalias (congrArg Source.tensor (t.recompute_unaligned b.simd b'.simd))
  | scalar value =>
      have hvalid : validateDestination (dst.recompute b.simd) =
          validateDestination (dst.recompute b'.simd) := by
        have h := congrArg validateDestination hdst
        exact h
      simp only [plan, verdict_bind, verdict_fill, hvalid]
      rw [← fillChecks_unaligned, hdst, fillChecks_unaligned]
  | update functor e noalias =>
      have hrank : (dst.recompute b.simd).rank = (dst.recompute b'.simd).rank := by
        have h := congrArg TensorImpl.rank hdst
        exact h
      simp only [plan, verdict_bind, TensorImpl.toStridedRef, hrank]
      split
      · apply hassign _ _ noalias
        have hlhs : (dst.recompute b.simd).strided.unaligned =
            (dst.recompute b'.simd).strided.unaligned := congrArg TensorImpl.strided hdst
        simp only [Source.unaligned, Expr.map, Leaf.unaligned, hlhs,
          e.map_leaf_unaligned b.simd b'.simd]
      · rfl

theorem StridedRef.backed_unaligned (s : StridedRef T) : s.unaligned.Backed ↔ s.Backed :=
  ⟨fun h => ⟨⟨h.numel_eq, h.packed⟩, fun hne => ⟨⟨(h.stored hne).numel_eq,
      (h.stored hne).stride_nonneg, (h.stored hne).fits⟩, (h.stored hne).object⟩, h.data_ne⟩,
    fun h => ⟨⟨h.numel_eq, h.packed⟩, fun hne => ⟨⟨(h.stored hne).numel_eq,
      (h.stored hne).stride_nonneg, (h.stored hne).fits⟩, (h.stored hne).object⟩, h.data_ne⟩⟩

theorem aliasSafe_unaligned (dst : StridedRef T) (l : Leaf T) :
    AliasSafe dst.unaligned l.unaligned ↔ AliasSafe dst l := by
  cases l with
  | ref s => exact Iff.rfl
  | view v => exact Iff.rfl

/-- What is promised of a statement does not depend on the build. -/
theorem Statement.Valid.portable {S : SimdTarget T} {st : Statement T α} (h : st.Valid S)
    (S' : SimdTarget T) : st.Valid S' := by
  have hdst := st.dst.recompute_unaligned S S'
  have hstrided : (st.dst.recompute S).strided.unaligned =
      (st.dst.recompute S').strided.unaligned := congrArg TensorImpl.strided hdst
  refine ⟨h.laneWise, ⟨TensorImpl.recompute_cached S' _, fun hview => ?_, ?_⟩, fun o ho => ?_,
    h.aligned, h.operandsAligned, fun hno o ho => ?_⟩
  · have hcontig : (st.dst.recompute S).contiguous = (st.dst.recompute S').contiguous := by
      have heq := congrArg TensorImpl.contiguous hdst
      exact heq
    rw [← hcontig]
    apply h.dst.packed
    rwa [TensorImpl.recompute_isView] at hview ⊢
  · rw [← StridedRef.backed_unaligned, ← hstrided, StridedRef.backed_unaligned]
    exact h.dst.backed
  · rw [← StridedRef.backed_unaligned, ← Leaf.unaligned_toRef, ← o.leaf_unaligned S S',
      Leaf.unaligned_toRef, StridedRef.backed_unaligned]
    exact h.operands o ho
  · rw [← aliasSafe_unaligned, ← hstrided, ← o.leaf_unaligned S S', aliasSafe_unaligned]
    exact h.noalias hno o ho

/-- A statement stores the same bytes in every build. -/
theorem Statement.exec_portable {st : Statement T α} (hdebug : b.ndebug = b'.ndebug)
    (hst : st.Valid b.simd) : st.exec b c m = st.exec b' c m := by
  have hverdict := st.verdict_plan (c := c) hdebug
  cases hplan : st.plan b c with
  | error r =>
      rw [st.exec_eq, st.exec_eq, hplan, error_of_verdict hverdict hplan]
  | ok ops =>
      obtain ⟨ops', hplan'⟩ := exists_ok_of_verdict hverdict hplan
      have hrun : st.exec b c m = .ok () (run c ops m) := by rw [st.exec_eq, hplan]
      have hrun' : st.exec b' c m = .ok () (run c ops' m) := by rw [st.exec_eq, hplan']
      have hsnap := st.exec_holdsSnapshot hst hrun
      have hsnap' := st.exec_holdsSnapshot (hst.portable b'.simd) hrun'
      have hdst : (st.dst.recompute b.simd).strided.unaligned =
          (st.dst.recompute b'.simd).strided.unaligned :=
        congrArg TensorImpl.strided (st.dst.recompute_unaligned b.simd b'.simd)
      have hsizes : (st.dst.recompute b.simd).strided.sizes =
          (st.dst.recompute b'.simd).strided.sizes := by
        have heq := congrArg StridedRef.sizes hdst
        exact heq
      have haddress : (st.dst.recompute b.simd).strided.address =
          (st.dst.recompute b'.simd).strided.address := by
        have heq := congrArg StridedRef.address hdst
        exact heq
      have hvalue : logicalValue c m (st.tree.map (Operand.leaf b.simd)) =
          logicalValue c m (st.tree.map (Operand.leaf b'.simd)) := by
        funext idx
        rw [logicalValue, logicalValue, Expr.evaluate_map, Expr.evaluate_map]
        congr 1
        funext o
        rw [Operand.readAddress_leaf, Operand.readAddress_leaf]
      rw [HoldsSnapshot, hsizes, haddress, hvalue] at hsnap
      rw [hrun, hrun', hsnap.unique hsnap']

/-- Programs do not depend on registers, unrolling or threads: two builds with the same
assertions end with the same bytes, or raise the same exception in the same state. -/
theorem runProgram_portable {p p' : List (Statement T α)} (hdebug : b.ndebug = b'.ndebug)
    (hsource : p.map Statement.source = p'.map Statement.source)
    (hp : ∀ st ∈ p, st.Valid b.simd) (hlanes : ∀ st ∈ p', st.tree.LaneWise) (m : Memory) :
    runProgram b c p m = runProgram b' c p' m := by
  rw [map_source fun st hst => (hp st hst).laneWise, map_source hlanes] at hsource
  subst hsource
  clear hlanes
  induction p generalizing m with
  | nil => rfl
  | cons st p ih =>
      have hrest := fun st hmem => hp st (List.mem_cons_of_mem _ hmem)
      have hexec := Statement.exec_portable (c := c) (m := m) hdebug (hp st List.mem_cons_self)
      rw [runProgram, runProgram, bind_congr_at hexec]
      cases hrun : st.exec b' c m with
      | ok u m₁ => rw [bind_of_ok hrun, bind_of_ok hrun, ih hrest]
      | error r m₁ =>
          rw [bind_error.2 (Or.inl hrun), bind_error.2 (Or.inl hrun)]

end Portable

namespace PortableProgramWitness

open Sample InPlaceAssignmentWitness ArrayProgramWitness

/-- A release build without registers and threads. -/
def scalarRelease : Build float := { release with
  simd := { fourLanes with vectorized := false }
  threads := { twoThreads with enabled := false } }

theorem runProgram_portable_sevens : ∃ m',
    runProgram release (Codec.bytes 4) program (fun _ => 1) = .ok () m' ∧
      runProgram scalarRelease (Codec.bytes 4) program (fun _ => 1) = .ok () m' := by
  obtain ⟨m', hrun⟩ : ∃ m', runProgram release (Codec.bytes 4) program (fun _ => 1) = .ok () m' :=
    ⟨_, rfl⟩
  have hsame : release.ndebug = scalarRelease.ndebug := rfl
  exact ⟨m', hrun, (runProgram_portable hsame rfl program_valid
    (fun st hst => (program_valid st hst).laneWise) _).symm.trans hrun⟩

end PortableProgramWitness

end Vectorization
