/-
Assignment to a Metal tensor.  The tree is written as the text of one kernel, the text is
read back and run by one thread for each element, and the threads run in no particular
order; the launch leaves the snapshot of the tree that was written.
-/
import Vectorization.GpuEvaluation
import Vectorization.MetalFusion

namespace Vectorization.Metal

open StridedSpace MachineInteger ByteMemory SharedMemory AtomicRun MaximalMunch
  OperatorGrammar

variable {T : ElementType} {φ S : Type}

/-- An expression tree with its evaluators named. -/
inductive MetalTree (T : ElementType) (S : Type)
  | leaf (l : Leaf T)
  | scalar (value : S)
  | unary (evaluator : UnaryEvaluator) (rhs : MetalTree T S)
  | binary (evaluator : BinaryEvaluator) (lhs rhs : MetalTree T S)
  | trinary (evaluator : TrinaryEvaluator) (lhs mhs rhs : MetalTree T S)

/-- The functors of the evaluators. -/
structure Evaluators (φ : Type) where
  unary : UnaryEvaluator → UnaryFunctor φ
  binary : BinaryEvaluator → BinaryFunctor φ
  trinary : TrinaryEvaluator → TrinaryFunctor φ

/-- The SIMD overloads are lane-wise. -/
structure Evaluators.LaneWise (E : Evaluators φ) : Prop where
  unary : ∀ evaluator, (E.unary evaluator).LaneWise
  binary : ∀ evaluator, (E.binary evaluator).LaneWise
  trinary : ∀ evaluator, (E.trinary evaluator).LaneWise

/-- On Metal, where there are no registers; what has no function there is never run. -/
def Evaluators.metal (F : Floats φ) : Evaluators φ where
  unary evaluator := .lanes fun x => (evaluator.apply F x).getD x
  binary evaluator := .lanes (evaluator.apply F)
  trinary evaluator := .lanes (evaluator.apply F)

/-- On the device that holds the destination. -/
def Evaluators.on (F : Floats φ) (host : Evaluators φ) (device : DeviceEnum) : Evaluators φ :=
  if device = .metal then .metal F else host

namespace MetalTree

/-- What the fusion sees of the tree; its leaves hold floats. -/
def metal : MetalTree T S → MetalExpr S
  | leaf l => .tensor true l.data
  | scalar value => .scalar value
  | unary evaluator rhs => .unary evaluator rhs.metal
  | binary evaluator lhs rhs => .binary evaluator lhs.metal rhs.metal
  | trinary evaluator lhs mhs rhs => .trinary evaluator lhs.metal mhs.metal rhs.metal

/-- The elementwise function. -/
def expr (E : Evaluators φ) (cast : S → φ) : MetalTree T S → Expr (Leaf T) φ
  | leaf l => .leaf l
  | scalar value => .scalar (cast value)
  | unary evaluator rhs => .unary (E.unary evaluator) (rhs.expr E cast)
  | binary evaluator lhs rhs => .binary (E.binary evaluator) (lhs.expr E cast) (rhs.expr E cast)
  | trinary evaluator lhs mhs rhs =>
      .trinary (E.trinary evaluator) (lhs.expr E cast) (mhs.expr E cast) (rhs.expr E cast)

theorem laneWise_expr {E : Evaluators φ} (h : E.LaneWise) (cast : S → φ) (e : MetalTree T S) :
    (e.expr E cast).LaneWise := by
  induction e with
  | leaf _ | scalar _ => trivial
  | unary evaluator rhs ih => exact ⟨h.unary evaluator, ih⟩
  | binary evaluator lhs rhs ihl ihr => exact ⟨h.binary evaluator, ihl, ihr⟩
  | trinary evaluator lhs mhs rhs ihl ihm ihr =>
      exact ⟨h.trinary evaluator, ihl, ihm, ihr⟩

end MetalTree

section Run

/-- What is left to be done on the device, or by the host. -/
inductive MetalWork (φ : Type)
  | nothing
  | copy (src n dst : Nat)
  /-- `dispatch_fused` with the source and the slots of the state. -/
  | fused (st : MetalFuseState φ) (out n : Nat)
  | stores (ops : List (StoreOp StoreKind φ))

variable (vectorized : Bool) (F : Floats φ) (host : Evaluators φ) (cast : S → φ)

/-- The part of `run_metal` for a tree with an operator. -/
def runFused (e : MetalTree T S) (data n : Nat) : Except Raise (MetalWork φ) :=
  if e.metal.fusable vectorized then
    let st := metalFuseEmit vectorized cast e.metal .initial
    if metalFuseFits st then .ok (.fused st data n)
    else .error (.external "Metal fused kernel exceeds the device buffer limit")
  else
    .error (.external ("Metal backend: operator has no fused Metal kernel (cdf/inv_cdf are "
      ++ "unsupported; MSL has no erf/erfinv)"))

/-- `run_metal`. -/
def runMetal (e : MetalTree T S) (data n : Nat) : Except Raise (MetalWork φ) :=
  match e with
  | .leaf l => if l.data ≠ data then .ok (.copy l.data n data) else .ok .nothing
  | e => runFused vectorized cast e data n

variable (c : Codec φ T.size)

/-- `run_lowered` in a translation unit that is compiled with Metal. -/
def runLoweredMetal (target : SimdTarget T) (threads : ParallelFor) (e : MetalTree T S)
    (rhs : TensorImpl T) : Except Raise (MetalWork φ) := do
  let tree := e.expr (.on F host rhs.device) cast
  let shape ← expressionResultShape tree
  checkResultShape shape rhs
  let flat := leavesFlat rhs.numel tree
  if rhs.device = .metal then
    checkContiguous rhs "expressions_evaluator::run (Metal)"
    if flat then runMetal vectorized cast e rhs.data rhs.numel
    else
      throw (.external ("expressions_evaluator::run (Metal): strided or broadcast operands are "
        ++ "not supported on Metal yet; call contiguous() on them first"))
  else return .stores (← runLowered target threads c tree rhs)

/-- `assign`, up to the point where elements are stored. -/
def assignMetal (b : Build T) (e : MetalTree T S) (uncheckedAlias : Bool)
    (dst : TensorImpl T) : Except Raise (MetalWork φ) := do
  let tree := e.expr (.on F host dst.device) cast
  validateDestination dst
  validatePlacement dst tree
  let ref ← dst.toStridedRef
  checkAssignmentOverlap b.ndebug uncheckedAlias ref tree
  runLoweredMetal vectorized F host cast c b.simd b.threads e dst

end Run

section Kernel

variable (F : Floats φ) (c : Codec φ T.size)

/-- The value goes to the rest of the thread, which ends where there is none. -/
def orStop {β : Type} (value : Option β) (next : β → ByteProg Unit) : ByteProg Unit :=
  match value with
  | some b => next b
  | none => pure ()

/-- The element of a buffer at a position. -/
def fetch (array position : Value φ) (next : Value φ → ByteProg Unit) : ByteProg Unit :=
  match array, position with
  | .buffer data, .position i => do
      let v ← loadCell c (flatCell T data i)
      next (.float v)
  | _, _ => pure ()

/-- One thread evaluates an expression, load by load, and hands its values on. -/
def evaluateThen (names : List Char → Option (Value φ)) :
    Expression → (List (Value φ) → ByteProg Unit) → ByteProg Unit
  | .atom w, next =>
      if w.head?.any Char.isDigit then next [.float (F.literal w)]
      else orStop (names w) fun v => next [v]
  | .paren x, next => evaluateThen names x fun vs => orStop (single vs) fun v => next [v]
  | .unary o x, next =>
      evaluateThen names x fun vs =>
        orStop ((single vs).bind (applyUnary F o)) fun v => next [v]
  | .binary .comma x y, next =>
      evaluateThen names x fun xs =>
        evaluateThen names y fun ys => orStop (single ys) fun v => next (xs ++ [v])
  | .binary o x y, next =>
      evaluateThen names x fun xs =>
        orStop (single xs) fun v =>
          evaluateThen names y fun ys =>
            orStop ((single ys).bind (applyBinary F o v)) fun v => next [v]
  | .call (.atom f) x, next =>
      evaluateThen names x fun vs => orStop (applyFunction F f vs) fun v => next [v]
  | .call _ _, _ => pure ()
  | .index a x, next =>
      evaluateThen names a fun as =>
        orStop (single as) fun v =>
          evaluateThen names x fun is =>
            orStop (single is) fun i => fetch c v i fun v => next [v]

/-- `out[tid] = value`. -/
def storeResult (out tid : Nat) (vs : List (Value φ)) : ByteProg Unit :=
  match vs with
  | [.float v] => storeCell c (flatCell T out tid) v
  | _ => pure ()

/-- The kernel of `metal_fuse_source` in thread `tid`; the count is a 32-bit argument. -/
def fusedKernel (st : MetalFuseState φ) (out n tid : Nat) : ByteProg Unit :=
  if tid < n % 2 ^ 32 then
    orStop (parseExpression st.body) fun x =>
      evaluateThen F c (st.names tid) x (storeResult c out tid)
  else pure ()

/-- The threads of a dispatch at their start. -/
def fusedPool (st : MetalFuseState φ) (out n total : Nat) (m : Memory) :
    Pool (Fin total) Int UInt8 :=
  ⟨m, fun tid => fusedKernel F c st out n tid⟩

end Kernel

/-- The Metal runtime, outside the repository. -/
structure MetalRuntime where
  /-- `dispatch_fused`: the number of threads it starts. -/
  grid : (source : List Char) → (n : Nat) → Except Raise Nat
  copy : (src n dst : Nat) → Memory → Except Raise Memory

/-- The threads cover the elements and are numbered in 32 bits, and a copy between apart
ranges moves the bytes and nothing else. -/
structure MetalRuntime.Serves (T : ElementType) (R : MetalRuntime) : Prop where
  covers : ∀ {source n total}, R.grid source n = .ok total → n ≤ total
  numbered : ∀ {source n total}, R.grid source n = .ok total → n < 2 ^ 32 ∧ total ≤ 2 ^ 32
  copies : ∀ {src n dst m m'}, R.copy src n dst m = .ok m' →
    src + n * T.size ≤ dst ∨ dst + n * T.size ≤ src →
    ∀ k < n * T.size, m' (dst + (k : Nat)) = m (src + (k : Nat))
  keeps : ∀ {src n dst m m'}, R.copy src n dst m = .ok m' →
    ∀ x : Int, ¬ (dst ≤ x ∧ x < dst + (n * T.size : Nat)) → m' x = m x

/-- Every way in which the work may end leaves a memory like that; threads do not race and
never get stuck. -/
def MetalWork.Leaves (R : MetalRuntime) (F : Floats φ) (c : Codec φ T.size) :
    MetalWork φ → Memory → (Memory → Prop) → Prop
  | .nothing, m, post => post m
  | .copy src n dst, m, post => ∀ m', R.copy src n dst m = .ok m' → post m'
  | .fused st out n, m, post => ∀ total, R.grid (metalFuseSource st) n = .ok total →
      (∃ reads writes, (fusedPool F c st out n total m).RaceFree reads writes) ∧
      (∀ steps, ∃ rest, ((fusedPool F c st out n total m).schedule (steps ++ rest)).Finished) ∧
      ∀ steps, ((fusedPool F c st out n total m).schedule steps).Finished →
        post ((fusedPool F c st out n total m).schedule steps).memory
  | .stores ops, m, post => post (run c ops m)

section Threads

variable {F : Floats φ} {c : Codec φ T.size}

/-- What a thread leaves that hands on an optional value. -/
def orStay {β : Type} (value : Option β) (next : β → Unit × Memory) (m : Memory) :
    Unit × Memory :=
  match value with
  | some b => next b
  | none => ((), m)

@[simp] theorem orStay_some {β : Type} (b : β) (next : β → Unit × Memory) (m : Memory) :
    orStay (some b) next m = next b := rfl

@[simp] theorem orStay_bind {β γ : Type} (value : Option β) (f : β → Option γ)
    (next : γ → Unit × Memory) (m : Memory) :
    orStay (value >>= f) next m = orStay value (fun b => orStay (f b) next m) m := by
  cases value <;> rfl

theorem run_orStop {β : Type} (value : Option β) (next : β → ByteProg Unit) (m : Memory) :
    (orStop value next).run m = orStay value (fun b => (next b).run m) m := by
  cases value <;> rfl

/-- The element that is fetched. -/
def fetched (memory : Nat → Nat → φ) : Value φ → Value φ → Option (Value φ)
  | .buffer data, .position i => some (.float (memory data i))
  | _, _ => none

theorem evaluate_index {names : List Char → Option (Value φ)} {memory : Nat → Nat → φ}
    (a x : Expression) :
    evaluate F names memory (.index a x) = (do
      let v ← single (← evaluate F names memory a)
      let i ← single (← evaluate F names memory x)
      return [← fetched memory v i]) := by
  rw [evaluate]
  congr 1
  funext as
  congr 1
  funext v
  congr 1
  funext is
  congr 1
  funext i
  cases v <;> cases i <;> rfl

theorem run_fetch (array position : Value φ) (next : Value φ → ByteProg Unit) (m : Memory) :
    (fetch c array position next).run m =
      orStay (fetched (fun data i => load c m (flatCell T data i)) array position)
        (fun v => (next v).run m) m := by
  cases array with
  | buffer data =>
      cases position with
      | position i =>
          rw [fetch, Prog.run_bind, run_loadCell]
          rfl
      | _ => rfl
  | _ => rfl

/-- A thread that evaluates alone does what follows with the value of the expression. -/
theorem run_evaluateThen {names : List Char → Option (Value φ)} (x : Expression)
    (next : List (Value φ) → ByteProg Unit) (m : Memory) :
    (evaluateThen F c names x next).run m =
      orStay (evaluate F names (fun data i => load c m (flatCell T data i)) x)
        (fun vs => (next vs).run m) m := by
  induction x generalizing next with
  | atom w =>
      rw [evaluateThen, evaluate]
      split
      · rfl
      · rw [run_orStop]
        cases names w <;> rfl
  | paren x ih =>
      simp only [evaluateThen, evaluate, ih, run_orStop, orStay_bind, orStay_some, pure]
  | unary o x ih =>
      simp only [evaluateThen, evaluate, ih, run_orStop, orStay_bind, orStay_some, pure,
        ← Option.bind_eq_bind]
  | binary o x y ihx ihy =>
      cases o <;>
        simp only [evaluateThen, evaluate, ihx, ihy, run_orStop, orStay_bind, orStay_some, pure,
          ← Option.bind_eq_bind]
  | call f x _ ih =>
      cases f with
      | atom f =>
          simp only [evaluateThen, evaluate, ih, run_orStop, orStay_bind, orStay_some, pure]
      | _ => rfl
  | index a x iha ihx =>
      simp only [evaluateThen, evaluate_index, iha, ihx, run_orStop, run_fetch, orStay_bind,
        orStay_some, pure]

/-- Bindings may only stand for one of the buffers and for the position of the thread. -/
def Value.Bound (buffers : List Nat) (tid : Nat) : Value φ → Prop
  | .buffer data => data ∈ buffers
  | .position i => i = tid
  | _ => True

variable {buffers : List Nat} {tid : Nat} {reads writes : Set Int}

theorem bound_of_applyUnary {o : UnaryOperator} {v r : Value φ} (h : applyUnary F o v = some r) :
    r.Bound buffers tid := by
  unfold applyUnary at h
  split at h <;> cases h <;> trivial

theorem bound_of_applyBinary {o : BinaryOperator} {v w r : Value φ}
    (h : applyBinary F o v w = some r) : r.Bound buffers tid := by
  unfold applyBinary at h
  split at h <;> cases h <;> trivial

theorem bound_of_applyFunction {f : List Char} {vs : List (Value φ)} {r : Value φ}
    (h : applyFunction F f vs = some r) : r.Bound buffers tid := by
  unfold applyFunction at h
  split at h
  case h_2 =>
      split at h
      · cases h
        trivial
      · obtain ⟨g, -, rfl⟩ := Option.map_eq_some_iff.1 h
        trivial
  case h_3 =>
      obtain ⟨g, -, rfl⟩ := Option.map_eq_some_iff.1 h
      trivial
  case h_6 => cases h
  all_goals
    split at h <;> cases h
    trivial

theorem single_mem {vs : List (Value φ)} {v : Value φ} (h : single vs = some v) : v ∈ vs := by
  unfold single at h
  split at h <;> cases h
  exact List.mem_singleton_self v

theorem within_orStop {β : Type} {value : Option β} {next : β → ByteProg Unit}
    (h : ∀ b, value = some b → (next b).Within reads writes) :
    (orStop value next).Within reads writes := by
  cases value with
  | none => exact Prog.within_pure ()
  | some b => exact h b rfl

theorem within_fetch {v i : Value φ} {next : Value φ → ByteProg Unit}
    (hv : v.Bound buffers tid) (hi : i.Bound buffers tid)
    (hcells : ∀ data ∈ buffers, ∀ x, InCell T.size (flatCell T data tid) x → x ∈ reads)
    (hnext : ∀ x, (next (.float x)).Within reads writes) :
    (fetch c v i next).Within reads writes := by
  cases v with
  | buffer data =>
      cases i with
      | position i =>
          obtain rfl : i = tid := hi
          exact (within_loadCell c (hcells data hv)).bind hnext
      | _ => exact Prog.within_pure ()
  | _ => exact Prog.within_pure ()

/-- A thread reads the element of its position in each buffer, and no others. -/
theorem within_evaluateThen {names : List Char → Option (Value φ)}
    (hnames : ∀ w v, names w = some v → v.Bound buffers tid)
    (hcells : ∀ data ∈ buffers, ∀ x, InCell T.size (flatCell T data tid) x → x ∈ reads)
    (x : Expression) {next : List (Value φ) → ByteProg Unit}
    (hnext : ∀ vs, (∀ v ∈ vs, v.Bound buffers tid) → (next vs).Within reads writes) :
    (evaluateThen F c names x next).Within reads writes := by
  have hone : ∀ {next : List (Value φ) → ByteProg Unit},
      (∀ vs, (∀ v ∈ vs, v.Bound buffers tid) → (next vs).Within reads writes) →
      ∀ v : Value φ, v.Bound buffers tid → (next [v]).Within reads writes :=
    fun h v hv => h [v] fun v' hv' => List.mem_singleton.1 hv' ▸ hv
  induction x generalizing next with
  | atom w =>
      rw [evaluateThen]
      split
      · exact hone hnext _ trivial
      · exact within_orStop fun v hv => hone hnext v (hnames w v hv)
  | paren x ih =>
      apply ih
      intro vs hvs
      exact within_orStop fun v hv => hone hnext v (hvs v (single_mem hv))
  | unary o x ih =>
      apply ih
      intro vs hvs
      apply within_orStop
      intro v hv
      obtain ⟨w, -, hv⟩ := Option.bind_eq_some_iff.1 hv
      exact hone hnext v (bound_of_applyUnary hv)
  | binary o x y ihx ihy =>
      cases o with
      | comma =>
          apply ihx
          intro xs hxs
          apply ihy
          intro ys hys
          apply within_orStop
          intro v hv
          apply hnext
          intro w hw
          rcases List.mem_append.1 hw with hw | hw
          · exact hxs w hw
          · exact List.mem_singleton.1 hw ▸ hys v (single_mem hv)
      | _ =>
          apply ihx
          intro xs hxs
          apply within_orStop
          intro v hv
          apply ihy
          intro ys hys
          apply within_orStop
          intro r hr
          obtain ⟨w, -, hr⟩ := Option.bind_eq_some_iff.1 hr
          exact hone hnext r (bound_of_applyBinary hr)
  | call f x ihf ih =>
      cases f with
      | atom f =>
          apply ih
          intro vs hvs
          exact within_orStop fun v hv => hone hnext v (bound_of_applyFunction hv)
      | _ => exact Prog.within_pure ()
  | index a x iha ihx =>
      apply iha
      intro as has
      apply within_orStop
      intro v hv
      apply ihx
      intro is his
      apply within_orStop
      intro i hi
      exact within_fetch (has v (single_mem hv)) (his i (single_mem hi)) hcells
        fun x => hone hnext _ trivial

end Threads

section Tree

variable {F : Floats φ} {cast : S → φ} {vectorized : Bool}

/-- A name stands for a buffer of the state, the position or a scalar. -/
theorem bound_of_names {st : MetalFuseState φ} {tid : Nat} {w : List Char} {v : Value φ}
    (h : st.names tid w = some v) : v.Bound st.buffers tid := by
  rw [MetalFuseState.names] at h
  split at h
  · cases h
    rfl
  · obtain ⟨d, -, hd⟩ := Option.bind_eq_some_iff.1 h
    rcases List.mem_append.1 (List.mem_of_getElem? hd) with hv | hv
    · obtain ⟨data, hdata, rfl⟩ := List.mem_map.1 hv
      exact hdata
    · obtain ⟨x, -, rfl⟩ := List.mem_map.1 hv
      trivial

@[simp] theorem text_buffers (st : MetalFuseState φ) (s : String) :
    (st.text s).buffers = st.buffers := rfl

@[simp] theorem append_buffers (st : MetalFuseState φ) (l : List Char) :
    (st.append l).buffers = st.buffers := rfl

@[simp] theorem metalFuseSnapshot_buffers (emit : MetalFuseState φ → MetalFuseState φ)
    (st : MetalFuseState φ) : (metalFuseSnapshot emit st).2.buffers = (emit st).buffers := rfl

/-- Emission adds the buffers of leaves. -/
theorem buffers_of_emit {P : Nat → Prop} {e : MetalTree T S}
    (hleaves : ∀ l ∈ (e.expr (.metal F) cast).leaves, P l.data) {st : MetalFuseState φ}
    (hst : ∀ data ∈ st.buffers, P data) :
    ∀ data ∈ (metalFuseEmit vectorized cast e.metal st).buffers, P data := by
  induction e generalizing st with
  | leaf l =>
      rw [MetalTree.metal, metalFuseEmit]
      split
      · exact hst
      · intro data hdata
        rcases List.mem_append.1 hdata with hdata | hdata
        · exact hst data hdata
        · exact List.mem_singleton.1 hdata ▸ hleaves l (List.mem_singleton_self l)
  | scalar value =>
      rw [MetalTree.metal, metalFuseEmit]
      split <;> exact hst
  | unary evaluator rhs ih =>
      have ih := @ih hleaves
      rw [MetalTree.metal, metalFuseEmit]
      split
      · exact hst
      · split <;> exact ih hst
  | binary evaluator lhs rhs ihl ihr =>
      have ihl := @ihl fun l hl => hleaves l (List.mem_append_left _ hl)
      have ihr := @ihr fun l hl => hleaves l (List.mem_append_right _ hl)
      rw [MetalTree.metal]
      by_cases hhypot : evaluator = .hypot
      · subst hhypot
        rw [metalFuseEmit_hypot]
        have hleft : ∀ data ∈ (metalFuseSnapshot (metalFuseEmit vectorized cast lhs.metal)
            st).2.buffers, P data := ihl hst
        simp only [text_buffers, append_buffers, metalFuseSnapshot_buffers]
        exact ihr hleft
      · rw [metalFuseEmit]
        split
        · exact hst
        · split
          · apply ihr
            apply ihl
            split <;> exact hst
          · split <;> exact ihr (ihl hst)
  | trinary evaluator lhs mhs rhs ihl ihm ihr =>
      have ihl := @ihl fun l hl => hleaves l (List.mem_append_left _ hl)
      have ihm := @ihm fun l hl =>
        hleaves l (List.mem_append_right _ (List.mem_append_left _ hl))
      have ihr := @ihr fun l hl =>
        hleaves l (List.mem_append_right _ (List.mem_append_right _ hl))
      cases evaluator with
      | fma =>
          rw [MetalTree.metal, metalFuseEmit]
          exact ihr (ihm (ihl hst))
      | ifElse =>
          rw [MetalTree.metal, metalFuseEmit]
          exact ihl (ihm (ihr hst))

/-- A fusable tree has the value of its elementwise function. -/
theorem value_expr {e : MetalTree T S} (h : e.metal.fusable vectorized = true)
    (read : Nat → φ) :
    e.metal.value F cast read =
      some ((e.expr (.metal F) cast).evaluate fun l => read l.data) := by
  induction e with
  | leaf l => rfl
  | scalar value => rfl
  | unary evaluator rhs ih =>
      rw [MetalTree.metal, MetalExpr.fusable, Bool.and_eq_true] at h
      rw [MetalTree.metal, MetalExpr.value, ih h.2]
      cases evaluator with
      | cdf | invCdf => cases h.1
      | _ => rfl
  | binary evaluator lhs rhs ihl ihr =>
      simp only [MetalTree.metal, MetalExpr.fusable, Bool.and_eq_true] at h
      rw [MetalTree.metal, MetalExpr.value, ihl h.1.2, ihr h.2]
      rfl
  | trinary evaluator lhs mhs rhs ihl ihm ihr =>
      simp only [MetalTree.metal, MetalExpr.fusable, Bool.and_eq_true] at h
      rw [MetalTree.metal, MetalExpr.value, ihl h.1.1.2, ihm h.1.2, ihr h.2]
      rfl

/-- The text of a tree whose slots fit is one expression, which has in every thread the
value of the tree. -/
theorem emit_parses {e : MetalTree T S} (hfusable : e.metal.fusable vectorized = true)
    (hok : (metalFuseEmit vectorized cast e.metal .initial).ok = true) :
    ∃ x, parseExpression (metalFuseEmit vectorized cast e.metal .initial).body = some x ∧
      ∀ memory tid, evaluate F ((metalFuseEmit vectorized cast e.metal .initial).names tid)
        memory x =
          some [.float ((e.expr (.metal F) cast).evaluate fun l => memory l.data tid)] := by
  obtain ⟨ts, hemits⟩ := metalFuseEmit_emits (F := F) hfusable .initial hok
  have hdenotes := fun memory tid => hemits.denotes _ memory tid (binds_names _ tid)
  obtain ⟨v₀, -, x, hphrase, -⟩ := hdenotes (fun _ _ => F.ofBool true) 0
  refine ⟨x, ?_, fun memory tid => ?_⟩
  · rw [hemits.body]
    exact hphrase.parse
  · obtain ⟨v, hv, x', hphrase', hx'⟩ := hdenotes memory tid
    obtain rfl : x' = x :=
      Option.some.inj (hphrase'.operand.parse.symm.trans hphrase.operand.parse)
    rw [value_expr hfusable, Option.some.injEq] at hv
    rw [hx', hv]

end Tree

section Dispatch

variable {F : Floats φ} {cast : S → φ} {c : Codec φ T.size} {vectorized : Bool}
  {e : MetalTree T S} {out n tid : Nat}

/-- The element of a thread of a dispatch, if it has one. -/
def dispatchElements (n tid : Nat) : List Nat := if tid < n then [tid] else []

theorem dispatchElements_cover {total : Nat} (h : n ≤ total) :
    (List.finRange total).flatMap (fun tid => dispatchElements n tid.val) = List.range n := by
  have hrange : List.range total = (List.finRange total).map Fin.val :=
    List.map_coe_finRange_eq_range.symm
  rw [← List.map_id' (List.range n), ← range_flatMap_guard (fun i => i) h, hrange,
    List.flatMap_map]
  rfl

/-- A thread of a fused kernel evaluates the tree at its position and stores the value
there, and uses nothing else. -/
theorem fusedKernel_performs (hflat : leavesFlat n (e.expr (.metal F) cast) = true)
    (hfusable : e.metal.fusable vectorized = true)
    (hok : (metalFuseEmit vectorized cast e.metal .initial).ok = true) (hn : n < 2 ^ 32)
    (tid : Nat) :
    Performs c (flatSource (e.expr (.metal F) cast)) (flatCell T out)
      (fusedKernel F c (metalFuseEmit vectorized cast e.metal .initial) out n tid)
      ((dispatchElements n tid).map fun i =>
        (⟨.scalar, i, 1⟩ : FlatStep).op c (e.expr (.metal F) cast) out)
      (dispatchElements n tid) := by
  have hoffset : ∀ l ∈ (e.expr (.metal F) cast).leaves, l.leafOffset tid = tid := fun l hl =>
    Leaf.leafOffset_of_contiguous (leavesFlat_spec hflat l hl).1 tid
  rw [fusedKernel, Nat.mod_eq_of_lt hn, dispatchElements]
  split
  · obtain ⟨x, hparse, hvalue⟩ := emit_parses (F := F) hfusable hok
    rw [hparse, orStop]
    constructor
    · intro m
      have hread : (e.expr (.metal F) cast).evaluate (Leaf.read c m tid) =
          (e.expr (.metal F) cast).evaluate fun l => load c m (flatCell T l.data tid) := by
        apply Expr.evaluate_congr
        intro l hl
        rw [Leaf.read, hoffset l hl]
        rfl
      rw [run_evaluateThen, hvalue, orStay_some, storeResult, run_storeCell]
      simp [ByteMemory.run, StoreOp.exec, StoreOp.writes, FlatStep.op, storeAll, hread, flatCell]
    · have hmem : ∀ l ∈ (e.expr (.metal F) cast).leaves,
          ∃ l' ∈ (e.expr (.metal F) cast).leaves, l'.data = l.data := fun l hl => ⟨l, hl, rfl⟩
      have hbuffers : ∀ data ∈ (metalFuseEmit vectorized cast e.metal .initial).buffers,
          ∃ l ∈ (e.expr (.metal F) cast).leaves, l.data = data :=
        buffers_of_emit hmem fun _ h => by cases h
      apply within_evaluateThen fun w v => bound_of_names
      · intro data hdata y hy
        obtain ⟨l, hl, rfl⟩ := hbuffers data hdata
        refine ⟨tid, List.mem_singleton_self tid, l, hl, ?_⟩
        rwa [hoffset l hl]
      · intro vs _
        unfold storeResult
        split
        · exact within_storeCell c fun y hy => ⟨tid, List.mem_singleton_self tid, hy⟩
        · exact Prog.within_pure ()
  · exact Performs.nil

end Dispatch

section Assign

variable {F : Floats φ} {cast : S → φ} {c : Codec φ T.size} {vectorized : Bool}
  {host : Evaluators φ} {e : MetalTree T S} {dst : TensorImpl T} {R : MetalRuntime}

/-- Every logical element has the value the tree had before, and no other byte changed. -/
def HoldsValues (c : Codec φ T.size) (e : Expr (Leaf T) φ) (dst : StridedRef T)
    (m₀ m : Memory) : Prop :=
  (∀ idx, InBounds idx dst.sizes → load c m (dst.address idx) = logicalValue c m₀ e idx) ∧
    ∀ x ∉ dst.region, m x = m₀ x

theorem holdsValues_of_snapshot {e : Expr (Leaf T) φ} {dst : StridedRef T} {m₀ m : Memory}
    (h : HoldsSnapshot c e dst m₀ m) : HoldsValues c e dst m₀ m :=
  ⟨fun _ hidx => h.load hidx, fun _ hx => h.frame hx⟩

/-- What the checks of an assignment establish about a flat tree. -/
structure FlatTarget (e : Expr (Leaf T) φ) (dst : TensorImpl T) : Prop where
  described : dst.strided.Described
  contiguous : dst.contiguous = true
  flat : leavesFlat dst.numel e = true
  leaves : ∀ l ∈ e.leaves, l.toRef.Described
  fits : ∀ l ∈ e.leaves, BroadcastsTo l.toRef.sizes dst.strided.sizes
  safe : ∀ l ∈ e.leaves, AliasSafe dst.strided l

/-- A leaf and the destination lie in C order. -/
theorem FlatTarget.address_eq {e : Expr (Leaf T) φ} (h : FlatTarget e dst) {idx : List Nat}
    (hidx : InBounds idx dst.strided.sizes) :
    dst.strided.address idx = flatCell T dst.data (flatten dst.strided.sizes idx) ∧
      ∀ l ∈ e.leaves, l.readAddress idx = flatCell T l.data (flatten dst.strided.sizes idx) := by
  refine ⟨h.described.address_eq h.contiguous hidx, fun l hl => ?_⟩
  obtain ⟨hcontig, hnumel⟩ := leavesFlat_spec h.flat l hl
  exact Leaf.readAddress_flat (h.leaves l hl) hcontig (h.fits l hl)
    (hnumel.trans h.described.numel_eq) hidx

/-- The threads of a dispatch leave the snapshot of the tree. -/
theorem fused_leaves (h : FlatTarget (e.expr (.metal F) cast) dst)
    (hfusable : e.metal.fusable vectorized = true)
    (hok : (metalFuseEmit vectorized cast e.metal .initial).ok = true) (hR : R.Serves T)
    (m : Memory) :
    (MetalWork.fused (metalFuseEmit vectorized cast e.metal .initial) dst.data dst.numel).Leaves
      R F c m (HoldsValues c (e.expr (.metal F) cast) dst.strided m) := by
  intro total hgrid
  have hlowered : LoweredOf c (e.expr (.metal F) cast) dst.strided.sizes
      (e.expr (.metal F) cast) :=
    loweredOf_flat (h.described.numel_eq ▸ h.flat) h.fits h.leaves
  have hwrites : ∀ i m, ((⟨.scalar, i, 1⟩ : FlatStep).op c (e.expr (.metal F) cast)
      dst.data).writes T.size m =
      [(flatCell T dst.data i, (e.expr (.metal F) cast).evaluate (Leaf.read c m i))] := by
    intro i m
    simp [StoreOp.writes, FlatStep.op, flatCell]
  obtain ⟨hfree, hsnap⟩ := threads_scheduled (List.nodup_finRange total) List.mem_finRange
    (dispatchElements_cover (hR.covers hgrid)) h.described h.contiguous h.fits h.safe
    (fun tid => fusedKernel_performs h.flat hfusable hok (hR.numbered hgrid).1 tid) hwrites
    (fun i hi m => hlowered.value m i hi) hlowered.source m
  exact ⟨hfree, fun steps => Pool.exists_finished _ steps, fun steps hfin =>
    holdsValues_of_snapshot (hsnap steps hfin)⟩

/-- Every byte of a packed object belongs to an element. -/
theorem mem_region_of_contiguous {s : StridedRef T} (h : s.Described)
    (hcontig : s.contiguous = true) {x : Nat} (hlo : s.data ≤ x)
    (hhi : x < s.data + s.numel * T.size) : (x : Int) ∈ s.region := by
  have hpos := T.size_pos
  have hlt : (x - s.data) / T.size < s.sizes.prod := by
    rw [← h.numel_eq]
    apply Nat.div_lt_of_lt_mul
    rw [Nat.mul_comm]
    omega
  have hidx := unflatten_inBounds hlt
  refine ⟨_, hidx, ?_⟩
  rw [h.address_eq hcontig hidx, flatten_unflatten hlt]
  have hdiv := Nat.div_add_mod' (x - s.data) T.size
  have hmod := Nat.mod_lt (x - s.data) hpos
  have hlow : s.data + (x - s.data) / T.size * T.size ≤ x := by omega
  have hhigh : x < s.data + (x - s.data) / T.size * T.size + T.size := by omega
  exact ⟨by exact_mod_cast hlow, by exact_mod_cast hhigh⟩

/-- A leaf with other data shares no byte with the destination. -/
theorem FlatTarget.apart {e : Expr (Leaf T) φ} (h : FlatTarget e dst) {l : Leaf T}
    (hl : l ∈ e.leaves) (hdata : l.data ≠ dst.data) :
    l.data + dst.numel * T.size ≤ dst.data ∨ dst.data + dst.numel * T.size ≤ l.data := by
  rcases h.safe l hl with hdisj | ⟨heq, -⟩
  · by_contra hmeet
    obtain ⟨hcontig, hnumel⟩ := leavesFlat_spec h.flat l hl
    have hleaf : ((max l.data dst.data : Nat) : Int) ∈ l.toRef.region := by
      apply mem_region_of_contiguous (h.leaves l hl) hcontig (le_max_left _ _)
      rw [hnumel]
      change max l.data dst.data < l.data + dst.numel * T.size
      omega
    have hdst : ((max l.data dst.data : Nat) : Int) ∈ dst.strided.region := by
      apply mem_region_of_contiguous h.described h.contiguous (le_max_right _ _)
      change max l.data dst.data < dst.data + dst.numel * T.size
      omega
    exact Set.disjoint_left.1 hdisj hleaf hdst
  · exact absurd heq hdata

/-- A copied leaf is the snapshot of it. -/
theorem copy_leaves {l : Leaf T} (h : FlatTarget (.leaf l : Expr (Leaf T) φ) dst)
    (hdata : l.data ≠ dst.data) (hR : R.Serves T) (m : Memory) :
    (MetalWork.copy l.data dst.numel dst.data).Leaves R F c m
      (HoldsValues c (.leaf l) dst.strided m) := by
  intro m' hcopy
  have hmem : l ∈ (.leaf l : Expr (Leaf T) φ).leaves := List.mem_singleton_self l
  refine ⟨fun idx hidx => ?_, fun x hx => hR.keeps hcopy x fun hin => hx ?_⟩
  · obtain ⟨hdst, hleaf⟩ := h.address_eq hidx
    have hnumel : dst.numel = dst.strided.sizes.prod := h.described.numel_eq
    have hstep : (flatten dst.strided.sizes idx + 1) * T.size ≤ dst.numel * T.size :=
      Nat.mul_le_mul_right _ (hnumel ▸ flatten_lt hidx)
    rw [logicalValue, Expr.evaluate, hdst, hleaf l hmem]
    apply congrArg c.decode
    funext k
    have hbyte := hR.copies hcopy (h.apart hmem hdata)
      (flatten dst.strided.sizes idx * T.size + k.val) (by
        have := k.isLt
        rw [Nat.add_mul, Nat.one_mul] at hstep
        omega)
    simpa [flatCell, add_assoc] using hbyte
  · obtain ⟨i, rfl⟩ := Int.eq_ofNat_of_zero_le (le_trans (Int.natCast_nonneg _) hin.1)
    apply mem_region_of_contiguous h.described h.contiguous (Int.ofNat_le.1 hin.1)
    have hhi := hin.2
    change i < dst.data + dst.numel * T.size
    omega

/-- A run on a checked destination leaves the snapshot of the tree. -/
theorem runMetal_leaves {work : MetalWork φ} (h : FlatTarget (e.expr (.metal F) cast) dst)
    (hR : R.Serves T) (hrun : runMetal vectorized cast e dst.data dst.numel = .ok work)
    (m : Memory) :
    work.Leaves R F c m (HoldsValues c (e.expr (.metal F) cast) dst.strided m) := by
  have hfused : runFused vectorized cast e dst.data dst.numel = .ok work →
      work.Leaves R F c m (HoldsValues c (e.expr (.metal F) cast) dst.strided m) := by
    intro hrun
    rw [runFused] at hrun
    split at hrun <;> rename_i hfusable
    · simp only at hrun
      split at hrun <;> rename_i hfits
      · cases hrun
        exact fused_leaves h hfusable (Bool.and_eq_true_iff.1 hfits).1 hR m
      · cases hrun
    · cases hrun
  cases e with
  | leaf l =>
      rw [runMetal] at hrun
      split at hrun <;> rename_i hdata
      · cases hrun
        exact copy_leaves h hdata hR m
      · cases hrun
        rw [not_not] at hdata
        refine ⟨fun idx hidx => ?_, fun _ _ => rfl⟩
        obtain ⟨hdst, hleaf⟩ := h.address_eq hidx
        have hread := hleaf l (List.mem_singleton_self l)
        rw [hdata, ← hdst] at hread
        exact congrArg (load c m) hread.symm
  | scalar | unary | binary | trinary => exact hfused hrun

theorem runLoweredMetal_leaves {S' : SimdTarget T} {threads : ParallelFor} {work : MetalWork φ}
    (hhost : dst.device ≠ .metal → host.LaneWise) (hdst : dst.Sound S')
    (hinj : dst.numel ≠ 0 → isNonOverlapping dst.strided = true)
    (hleaves : ∀ l ∈ (e.expr (.on F host dst.device) cast).leaves, l.toRef.Backed)
    (hsafe : ∀ l ∈ (e.expr (.on F host dst.device) cast).leaves, AliasSafe dst.strided l)
    (hR : R.Serves T)
    (h : runLoweredMetal vectorized F host cast c S' threads e dst = .ok work) (m : Memory) :
    work.Leaves R F c m (HoldsValues c (e.expr (.on F host dst.device) cast) dst.strided m) := by
  obtain ⟨shape, hshape, hshaped⟩ := exceptBind_ok.1 h
  obtain ⟨_, hcheck, hrun⟩ := exceptBind_ok.1 hshaped
  have hsizes : dst.sizes = shape.map Nat.cast := by
    rw [checkResultShape] at hcheck
    split at hcheck <;> rename_i heq
    · exact heq.symm
    · cases hcheck
  obtain rfl : dst.strided.sizes = shape := dst.strided_sizes hsizes
  split at hrun <;> rename_i hdev
  · obtain ⟨_, hcontig, hrun⟩ := exceptBind_ok.1 hrun
    have hpacked : dst.contiguous = true := by
      rw [checkContiguous] at hcontig
      split at hcontig
      · assumption
      · cases hcontig
    have hon : Evaluators.on F host dst.device = .metal F := if_pos hdev
    split at hrun <;> rename_i hflat
    · rw [hon] at hleaves hsafe hshape hflat ⊢
      exact runMetal_leaves ⟨hdst.backed.toDescribed, hpacked, hflat,
        fun l hl => (hleaves l hl).toDescribed, expressionResultShape_fits hshape, hsafe⟩ hR
        hrun m
    · cases hrun
  · obtain ⟨ops, hops, hrun⟩ := exceptBind_ok.1 hrun
    cases hrun
    have hlanes : (e.expr (.on F host dst.device) cast).LaneWise := by
      rw [Evaluators.on, if_neg hdev]
      exact MetalTree.laneWise_expr (hhost hdev) cast e
    exact holdsValues_of_snapshot
      (runLowered_holdsSnapshot hlanes hdst hinj hleaves hsafe hops m)

/-- Assignment in a program with Metal: whatever it does, it leaves the snapshot of the tree. -/
theorem assignMetal_scheduled {b : Build T} {work : MetalWork φ}
    (hhost : dst.device ≠ .metal → host.LaneWise) (hdst : dst.Sound b.simd)
    (hleaves : ∀ l ∈ (e.expr (.on F host dst.device) cast).leaves, l.toRef.Backed)
    (hR : R.Serves T)
    (h : assignMetal vectorized F host cast c b e false dst = .ok work) (m : Memory) :
    work.Leaves R F c m (HoldsValues c (e.expr (.on F host dst.device) cast) dst.strided m) := by
  obtain ⟨_, hvalid, h⟩ := exceptBind_ok.1 h
  obtain ⟨_, hplace, h⟩ := exceptBind_ok.1 h
  obtain ⟨ref, href, h⟩ := exceptBind_ok.1 h
  obtain rfl := toStridedRef_ok href
  obtain ⟨_, hoverlap, h⟩ := exceptBind_ok.1 h
  have hflag : dst.nonOverlapping = true := by
    rw [validateDestination] at hvalid
    split at hvalid
    · assumption
    · cases hvalid
  have hsafe : ∀ l ∈ (e.expr (.on F host dst.device) cast).leaves,
      AliasSafe dst.strided l := fun l hl => by
    obtain ⟨hdev, hindex⟩ := validatePlacement_ok hplace l hl
    exact aliasSafe_of_checked hdst.backed (hleaves l hl) hdev hindex
      (checkAssignmentOverlap_ok hoverlap l hl)
  exact runLoweredMetal_leaves hhost hdst (fun hne => hdst.isNonOverlapping hflag hne) hleaves hsafe
    hR h m

end Assign

end Vectorization.Metal

namespace Vectorization.MetalEvaluationWitness

open StridedSpace ByteMemory SharedMemory Metal Sample InPlaceAssignmentWitness

/-- Bytes in place of floats. -/
def bytes : Floats (Fin 4 → UInt8) where
  literal w _ := UInt8.ofNat w.length
  negate x k := ~~~x k
  add x y k := x k + y k
  sub x y k := x k - y k
  mul x y k := x k * y k
  div x y k := x k / y k
  compare _ x y := decide (y (Fin.last 3) < x (Fin.last 3))
  function1 _ x := x
  function2 _ x y k := x k + y k
  fma x y z k := x k * y k + z k
  toBool x := decide ((x (Fin.last 3)).toNat ≠ 0)
  ofBool b _ := UInt8.ofNat b.toNat

/-- A packed table in the memory of a Metal device. -/
def metalTable : TensorImpl float := TensorImpl.recompute fourLanes
  { isView := false
    sizesAndStrides := [⟨3, 4⟩, ⟨4, 1⟩]
    view := ⟨4096, 12, .metal, 0⟩
    alignStart := 0
    alignEnd := 0
    numel := 0
    contiguous := false
    nonOverlapping := false }

/-- `if_else(table > 2, table, sqr(table + 3))`, to be stored in the table itself. -/
def masked : MetalTree float Nat :=
  .trinary .ifElse (.binary .cmpgt (.leaf (.ref metalTable.strided)) (.scalar 2))
    (.leaf (.ref metalTable.strided))
    (.unary .sqr (.binary .add (.leaf (.ref metalTable.strided)) (.scalar 3)))

def cast (s : Nat) (_ : Fin 4) : UInt8 := UInt8.ofNat s

/-- The threads that store the table. -/
def tablePool (st : MetalFuseState (Fin 4 → UInt8)) (m : Memory) : Pool (Fin 12) Int UInt8 :=
  fusedPool (T := float) bytes (Codec.bytes 4) st 4096 12 12 m

/-- One thread for each element, and copies that move the bytes. -/
def runtime : MetalRuntime where
  grid _ n := if n < 2 ^ 32 then .ok n else .error (.external "dispatch_fused")
  copy src n dst m :=
    .ok fun x => if dst ≤ x ∧ x < dst + (n * float.size : Nat) then m (x - dst + src) else m x

theorem runtime_serves : runtime.Serves float where
  covers {source n total} h := by
    rw [runtime] at h
    simp only at h
    split at h <;> cases h
    exact le_refl n
  numbered {source n total} h := by
    rw [runtime] at h
    simp only at h
    split at h <;> cases h
    omega
  copies {src n dst m m'} h _ k hk := by
    cases h
    dsimp only
    rw [if_pos (by omega)]
    congr 1
    omega
  keeps {src n dst m m'} h x hx := by
    cases h
    exact if_neg hx

theorem metalTable_sound : metalTable.Sound fourLanes :=
  ⟨TensorImpl.recompute_cached _ _, fun _ => by decide, ⟨by decide, fun _ _ => by decide⟩,
    fun _ => ⟨⟨by decide, by decide, fun _ => by decide⟩, fun _ => by decide⟩,
    fun _ => by decide⟩

theorem assignMetal_scheduled_masked : ∃ st,
    assignMetal true bytes (.metal bytes) cast (Codec.bytes 4) release masked false metalTable =
        .ok (.fused st 4096 12) ∧
      ∀ steps, ((tablePool st fun _ => 1).schedule steps).Finished →
        load (Codec.bytes 4) ((tablePool st fun _ => 1).schedule steps).memory
          (metalTable.strided.address [2, 1]) = fun _ => 16 := by
  have hbacked : ∀ l ∈ (masked.expr (.on bytes (.metal bytes) .metal) cast).leaves,
      l.toRef.Backed := by
    intro l hl
    have hleaf : l = .ref metalTable.strided := by
      simpa [masked, MetalTree.expr, Expr.leaves] using hl
    exact hleaf ▸ metalTable_sound.backed
  obtain ⟨st, hrun⟩ : ∃ st, assignMetal true bytes (.metal bytes) cast (Codec.bytes 4) release
      masked false metalTable = .ok (.fused st 4096 12) := ⟨_, rfl⟩
  refine ⟨st, hrun, fun steps hfin => ?_⟩
  obtain ⟨-, -, hvalues⟩ :=
    assignMetal_scheduled (absurd rfl) metalTable_sound hbacked runtime_serves hrun (fun _ => 1) 12
      rfl
  exact ((hvalues steps hfin).1 [2, 1] (by decide)).trans rfl

end Vectorization.MetalEvaluationWitness
