/-
The text of a fused kernel denotes the expression tree it was written for: every operator
may stand inside every other one, whether an operand is written once or pasted twice.
-/
import Vectorization.MetalFuse
import Vectorization.MetalText

namespace Vectorization.Metal

open MaximalMunch OperatorGrammar

section Meaning

variable {φ S : Type}

/-- The Metal function of the same meaning. -/
def UnaryEvaluator.function : UnaryEvaluator → Option Function1
  | fabs => some .fabs
  | floor => some .floor
  | ceil => some .ceil
  | trunc => some .trunc
  | sqrt => some .sqrt
  | exp => some .exp
  | exp2 => some .exp2
  | log => some .log
  | log2 => some .log2
  | log10 => some .log10
  | sin => some .sin
  | cos => some .cos
  | tan => some .tan
  | asin => some .asin
  | acos => some .acos
  | atan => some .atan
  | sinh => some .sinh
  | cosh => some .cosh
  | tanh => some .tanh
  | asinh => some .asinh
  | acosh => some .acosh
  | atanh => some .atanh
  | invsqrt => some .rsqrt
  | sqr | expm1 | log1p | cbrt | neg | lnot | cdf | invCdf => none

/-- What an evaluator computes of one element, none where Metal has nothing for it. -/
def UnaryEvaluator.apply (F : Floats φ) : UnaryEvaluator → φ → Option φ
  | sqr, x => some (F.mul x x)
  | expm1, x => some (F.sub (F.function1 .exp x) (F.literal "1.0".toList))
  | log1p, x => some (F.function1 .log (F.add (F.literal "1.0".toList) x))
  | cbrt, x =>
      some (F.function2 .copysign
        (F.function2 .pow (F.function1 .fabs x) (F.literal "0.3333333333333333".toList)) x)
  | neg, x => some (F.negate x)
  | lnot, x => some (F.ofBool !F.toBool x)
  | evaluator, x => evaluator.function.map fun g => F.function1 g x

def BinaryEvaluator.apply (F : Floats φ) : BinaryEvaluator → φ → φ → φ
  | add, x, y | madd, x, y => F.add x y
  | sub, x, y | msub, x, y => F.sub x y
  | mul, x, y | mmul, x, y => F.mul x y
  | div, x, y | mdiv, x, y => F.div x y
  | min, x, y => F.function2 .min x y
  | max, x, y => F.function2 .max x y
  | pow, x, y => F.function2 .pow x y
  | hypot, x, y => F.function1 .sqrt (F.add (F.mul x x) (F.mul y y))
  | copysign, x, y => F.function2 .copysign x y
  | cmpgt, x, y => F.ofBool (F.compare .greater x y)
  | cmplt, x, y => F.ofBool (F.compare .less x y)
  | cmpge, x, y => F.ofBool (F.compare .greaterEqual x y)
  | cmple, x, y => F.ofBool (F.compare .lessEqual x y)
  | cmpeq, x, y => F.ofBool (F.compare .equal x y)
  | cmpne, x, y => F.ofBool (F.compare .notEqual x y)
  | land, x, y => F.ofBool (F.toBool x && F.toBool y)
  | lor, x, y => F.ofBool (F.toBool x || F.toBool y)
  | lxor, x, y => F.ofBool (F.toBool x ^^ F.toBool y)

def TrinaryEvaluator.apply (F : Floats φ) : TrinaryEvaluator → φ → φ → φ → φ
  | fma, x, y, z => F.fma x y z
  | ifElse, mask, x, y => if F.toBool mask then x else y

/-- The elementwise function of a tree, of the elements at `read` of its tensors. -/
def MetalExpr.value (F : Floats φ) (cast : S → φ) (read : Nat → φ) : MetalExpr S → Option φ
  | tensor _ data => some (read data)
  | scalar value => some (cast value)
  | unary evaluator rhs => do evaluator.apply F (← rhs.value F cast read)
  | binary evaluator lhs rhs => do
      return evaluator.apply F (← lhs.value F cast read) (← rhs.value F cast read)
  | trinary evaluator lhs mhs rhs => do
      return evaluator.apply F (← lhs.value F cast read) (← mhs.value F cast read)
        (← rhs.value F cast read)

end Meaning

section Slots

variable {φ : Type}

theorem decimal_inj {m n : Nat} (h : decimal m = decimal n) : m = n := by
  rw [← Nat.ofDigitChars_ten_toDigits (n := m), ← Nat.ofDigitChars_ten_toDigits (n := n)]
  exact congrArg (Nat.ofDigitChars 10 · 0) h

theorem decimal_isDigit {n : Nat} : ∀ c ∈ decimal n, c.isDigit = true := fun _ hc =>
  Nat.isDigit_of_mem_toDigits (by decide) (by decide) hc

theorem bufferName_inj {k k' : Nat} (h : bufferName k = bufferName k') : k = k' :=
  decimal_inj (List.append_cancel_left h)

theorem scalarName_inj {j j' : Nat} (h : scalarName j = scalarName j') : j = j' :=
  decimal_inj (List.append_cancel_left h)

theorem isWordCharacter_digit {c : Char} (h : c.isDigit = true) : isWordCharacter c = true := by
  simp [isWordCharacter, Char.isAlphanum, h]

theorem isWord_bufferName (k : Nat) : IsWord (bufferName k) := by
  refine ⟨by decide, fun d hd => ?_⟩
  rcases List.mem_cons.1 hd with rfl | hd
  · decide
  · rw [isWordCharacter_digit (decimal_isDigit d hd), Bool.true_or]

theorem isWord_scalarName (j : Nat) : IsWord (scalarName j) := by
  refine ⟨by decide, fun d hd => ?_⟩
  rw [isWordCharacter_digit (decimal_isDigit d hd), Bool.true_or]

theorem mem_declarations {nb ns : Nat} {d : Declaration} :
    d ∈ declarations nb ns ↔
      (∃ k < nb, d = ⟨"device const float*", bufferName k, k⟩) ∨
      (∃ j < ns, d = ⟨"constant float&", scalarName j, nb + j⟩) ∨
      d = ⟨"device float*", "out".toList, nb + ns⟩ ∨
      d = ⟨"constant uint&", "n".toList, nb + ns + 1⟩ := by
  simp [declarations, eq_comm]

theorem bufferName_head (k : Nat) : (bufferName k).head? = some 'i' := rfl

theorem scalarName_head (j : Nat) : (scalarName j).head? = some 'c' := rfl

/-- The parameters have different names. -/
theorem declarations_unique {nb ns : Nat} {d d' : Declaration} (h : d ∈ declarations nb ns)
    (h' : d' ∈ declarations nb ns) (hname : d.name = d'.name) : d = d' := by
  have hhead := congrArg List.head? hname
  rcases mem_declarations.1 h with ⟨k, hk, rfl⟩ | ⟨j, hj, rfl⟩ | rfl | rfl <;>
    rcases mem_declarations.1 h' with ⟨k', hk', rfl⟩ | ⟨j', hj', rfl⟩ | rfl | rfl
  case inl.inl => rw [bufferName_inj hname]
  case inr.inl.inr.inl => rw [scalarName_inj hname]
  all_goals first | rfl | simp [bufferName_head, scalarName_head] at hhead

variable (st : MetalFuseState φ) (tid : Nat)

/-- A declared name stands for the argument at its buffer index. -/
theorem names_declared {d : Declaration}
    (hd : d ∈ declarations st.buffers.length st.scalars.length) :
    st.names tid d.name = st.arguments[d.index]? := by
  have htid : d.name ≠ "tid".toList := by
    intro hname
    have hhead := congrArg List.head? hname
    rcases mem_declarations.1 hd with ⟨k, hk, rfl⟩ | ⟨j, hj, rfl⟩ | rfl | rfl <;>
      simp [bufferName_head, scalarName_head] at hhead
  rw [MetalFuseState.names, if_neg htid]
  cases hfind : (declarations st.buffers.length st.scalars.length).find?
      fun d' => d'.name = d.name with
  | none => exact absurd (decide_eq_true rfl) (List.find?_eq_none.1 hfind d hd)
  | some d' =>
      have hname : d'.name = d.name := by simpa using List.find?_some hfind
      rw [declarations_unique (List.mem_of_find?_eq_some hfind) hd hname]
      rfl

theorem names_tid : st.names tid "tid".toList = some (.position tid) := if_pos rfl

theorem names_buffer {k : Nat} (hk : k < st.buffers.length) :
    st.names tid (bufferName k) = some (.buffer st.buffers[k]) := by
  have hd : ⟨"device const float*", bufferName k, k⟩ ∈
      declarations st.buffers.length st.scalars.length :=
    mem_declarations.2 (Or.inl ⟨k, hk, rfl⟩)
  rw [names_declared st tid hd, MetalFuseState.arguments,
    List.getElem?_append_left (by simpa using hk)]
  simp [hk]

theorem names_scalar {j : Nat} (hj : j < st.scalars.length) :
    st.names tid (scalarName j) = some (.float st.scalars[j]) := by
  have hd : ⟨"constant float&", scalarName j, st.buffers.length + j⟩ ∈
      declarations st.buffers.length st.scalars.length :=
    mem_declarations.2 (Or.inr (Or.inl ⟨j, hj, rfl⟩))
  rw [names_declared st tid hd, MetalFuseState.arguments,
    List.getElem?_append_right (by simp)]
  simp [hj]

/-- Every name that stands for something is `tid` or declared. -/
theorem declared_of_names {w : List Char} {v : Value φ} (h : st.names tid w = some v) :
    w = "tid".toList ∨
      ∃ d ∈ declarations st.buffers.length st.scalars.length, d.name = w := by
  rw [MetalFuseState.names] at h
  split at h <;> rename_i htid
  · exact Or.inl htid
  · obtain ⟨d, hd, -⟩ := Option.bind_eq_some_iff.1 h
    exact Or.inr ⟨d, List.mem_of_find?_eq_some hd, by simpa using List.find?_some hd⟩

end Slots

section Emission

variable {φ S : Type} {F : Floats φ} {cast : S → φ} {names : List Char → Option (Value φ)}
  {memory : Nat → Nat → φ} {tid : Nat}

/-- The names of the slots and of the thread stand for what they hold. -/
structure Binds (names : List Char → Option (Value φ)) (tid : Nat)
    (buffers : List Nat) (scalars : List φ) : Prop where
  thread : names "tid".toList = some (.position tid)
  buffer : ∀ k (hk : k < buffers.length), names (bufferName k) = some (.buffer buffers[k])
  scalar : ∀ j (hj : j < scalars.length), names (scalarName j) = some (.float scalars[j])

theorem binds_names (st : MetalFuseState φ) (tid : Nat) :
    Binds (st.names tid) tid st.buffers st.scalars :=
  ⟨names_tid st tid, fun _ => names_buffer st tid, fun _ => names_scalar st tid⟩

/-- What binds the later slots binds the earlier ones. -/
theorem Binds.of_isPrefix {buffers buffers' : List Nat} {scalars scalars' : List φ}
    (h : Binds names tid buffers' scalars') (hbuffers : buffers <+: buffers')
    (hscalars : scalars <+: scalars') : Binds names tid buffers scalars where
  thread := h.thread
  buffer k hk := by
    rw [h.buffer k (lt_of_lt_of_le hk hbuffers.length_le), hbuffers.getElem hk]
  scalar j hj := by
    rw [h.scalar j (lt_of_lt_of_le hj hscalars.length_le), hscalars.getElem hj]

/-- The tokens `ts` were appended, slots were added only, and wherever names bind the slots
the tokens denote the value of the tree. -/
structure Emits (F : Floats φ) (cast : S → φ) (e : MetalExpr S) (st st' : MetalFuseState φ)
    (ts : List Lexeme) : Prop where
  ok : st.ok = true
  buffers : st.buffers <+: st'.buffers
  scalars : st.scalars <+: st'.scalars
  body : st'.body = st.body ++ ts.flatMap spell
  denotes : ∀ names memory tid, Binds names tid st'.buffers st'.scalars →
    ∃ v, e.value F cast (fun data => memory data tid) = some v ∧
      Denotes F names memory ts (.float v)

/-- The states differ in the text alone. -/
structure SameSlots (st st' : MetalFuseState φ) : Prop where
  ok : st'.ok = st.ok
  buffers : st'.buffers = st.buffers
  scalars : st'.scalars = st.scalars

theorem SameSlots.append {st st' : MetalFuseState φ} (h : SameSlots st st') (l : List Char) :
    SameSlots st (st'.append l) := ⟨h.ok, h.buffers, h.scalars⟩

theorem SameSlots.text {st st' : MetalFuseState φ} (h : SameSlots st st') (s : String) :
    SameSlots st (st'.text s) := h.append s.toList

theorem sameSlots_snapshot (emit : MetalFuseState φ → MetalFuseState φ)
    (st : MetalFuseState φ) : SameSlots (emit st) (metalFuseSnapshot emit st).2 :=
  ⟨rfl, rfl, rfl⟩

variable {st st₀ st₁ st₂ st₃ st₄ st₅ st' : MetalFuseState φ} {ts ts' ts'' frame : List Lexeme}
  {lhs mhs rhs : MetalExpr S}

theorem Emits.unary {evaluator : UnaryEvaluator} {f : φ → φ} (h : Emits F cast rhs st₀ st₁ ts)
    (h₀ : SameSlots st st₀) (h₁ : SameSlots st₁ st')
    (happly : ∀ x, evaluator.apply F x = some (f x))
    (hdenotes : ∀ names memory x, Denotes F names memory ts (.float x) →
      Denotes F names memory frame (.float (f x)))
    (hbody : st'.body = st.body ++ frame.flatMap spell) :
    Emits F cast (.unary evaluator rhs) st st' frame where
  ok := h₀.ok ▸ h.ok
  buffers := h₁.buffers ▸ h₀.buffers ▸ h.buffers
  scalars := h₁.scalars ▸ h₀.scalars ▸ h.scalars
  body := hbody
  denotes names memory tid hbinds := by
    rw [h₁.buffers, h₁.scalars] at hbinds
    obtain ⟨x, hx, hts⟩ := h.denotes names memory tid hbinds
    refine ⟨f x, ?_, hdenotes names memory x hts⟩
    rw [MetalExpr.value, hx]
    exact happly x

theorem Emits.binary {evaluator : BinaryEvaluator} (h : Emits F cast lhs st₀ st₁ ts)
    (h' : Emits F cast rhs st₂ st₃ ts') (h₀ : SameSlots st st₀) (h₁ : SameSlots st₁ st₂)
    (h₂ : SameSlots st₃ st')
    (hdenotes : ∀ names memory x y, Denotes F names memory ts (.float x) →
      Denotes F names memory ts' (.float y) →
      Denotes F names memory frame (.float (evaluator.apply F x y)))
    (hbody : st'.body = st.body ++ frame.flatMap spell) :
    Emits F cast (.binary evaluator lhs rhs) st st' frame where
  ok := h₀.ok ▸ h.ok
  buffers := h₂.buffers ▸ h₀.buffers ▸ (h.buffers.trans (h₁.buffers ▸ h'.buffers))
  scalars := h₂.scalars ▸ h₀.scalars ▸ (h.scalars.trans (h₁.scalars ▸ h'.scalars))
  body := hbody
  denotes names memory tid hbinds := by
    rw [h₂.buffers, h₂.scalars] at hbinds
    obtain ⟨y, hy, hts'⟩ := h'.denotes names memory tid hbinds
    have hbinds₁ := hbinds.of_isPrefix h'.buffers h'.scalars
    rw [h₁.buffers, h₁.scalars] at hbinds₁
    obtain ⟨x, hx, hts⟩ := h.denotes names memory tid hbinds₁
    refine ⟨evaluator.apply F x y, ?_, hdenotes names memory x y hts hts'⟩
    rw [MetalExpr.value, hx, hy]
    rfl

/-- Three operands in the order in which they are written. -/
theorem Emits.trinary {e e₁ e₂ e₃ : MetalExpr S} {f : φ → φ → φ → φ}
    (h : Emits F cast e₁ st₀ st₁ ts) (h' : Emits F cast e₂ st₂ st₃ ts')
    (h'' : Emits F cast e₃ st₄ st₅ ts'') (h₀ : SameSlots st st₀) (h₁ : SameSlots st₁ st₂)
    (h₂ : SameSlots st₃ st₄) (h₃ : SameSlots st₅ st')
    (hvalue : ∀ read x y z, e₁.value F cast read = some x → e₂.value F cast read = some y →
      e₃.value F cast read = some z → e.value F cast read = some (f x y z))
    (hdenotes : ∀ names memory x y z, Denotes F names memory ts (.float x) →
      Denotes F names memory ts' (.float y) → Denotes F names memory ts'' (.float z) →
      Denotes F names memory frame (.float (f x y z)))
    (hbody : st'.body = st.body ++ frame.flatMap spell) : Emits F cast e st st' frame where
  ok := h₀.ok ▸ h.ok
  buffers := h₃.buffers ▸ h₀.buffers ▸
    ((h.buffers.trans (h₁.buffers ▸ h'.buffers)).trans (h₂.buffers ▸ h''.buffers))
  scalars := h₃.scalars ▸ h₀.scalars ▸
    ((h.scalars.trans (h₁.scalars ▸ h'.scalars)).trans (h₂.scalars ▸ h''.scalars))
  body := hbody
  denotes names memory tid hbinds := by
    rw [h₃.buffers, h₃.scalars] at hbinds
    obtain ⟨z, hz, hts''⟩ := h''.denotes names memory tid hbinds
    have hbinds₃ := hbinds.of_isPrefix h''.buffers h''.scalars
    rw [h₂.buffers, h₂.scalars] at hbinds₃
    obtain ⟨y, hy, hts'⟩ := h'.denotes names memory tid hbinds₃
    have hbinds₁ := hbinds₃.of_isPrefix h'.buffers h'.scalars
    rw [h₁.buffers, h₁.scalars] at hbinds₁
    obtain ⟨x, hx, hts⟩ := h.denotes names memory tid hbinds₁
    exact ⟨f x y z, hvalue _ x y z hx hy hz, hdenotes names memory x y z hts hts' hts''⟩

@[simp] theorem text_body (st : MetalFuseState φ) (s : String) :
    (st.text s).body = st.body ++ s.toList := rfl

@[simp] theorem append_body (st : MetalFuseState φ) (l : List Char) :
    (st.append l).body = st.body ++ l := rfl

theorem append_append (st : MetalFuseState φ) (l l' : List Char) :
    (st.append l).append l' = st.append (l ++ l') :=
  congrArg (fun body => { st with body := body }) (List.append_assoc st.body l l')

@[simp] theorem text_ok (st : MetalFuseState φ) (s : String) : (st.text s).ok = st.ok := rfl

@[simp] theorem append_ok (st : MetalFuseState φ) (l : List Char) :
    (st.append l).ok = st.ok := rfl

@[simp] theorem metalFuseSnapshot_ok (emit : MetalFuseState φ → MetalFuseState φ)
    (st : MetalFuseState φ) : (metalFuseSnapshot emit st).2.ok = (emit st).ok := rfl

/-- What was appended comes apart from what was there. -/
theorem snapshot_of_body {emit : MetalFuseState φ → MetalFuseState φ} {l : List Char}
    (h : (emit st).body = st.body ++ l) :
    (metalFuseSnapshot emit st).1 = l ∧ (metalFuseSnapshot emit st).2.body = st.body := by
  constructor
  · rw [metalFuseSnapshot, h, List.drop_left]
  · rw [metalFuseSnapshot, h, List.take_left]

/-- A word that `decide` can see to be one. -/
theorem isWord_of_all {c : Char} {rest : List Char}
    (h : (isWordCharacter c && rest.all fun d => isWordCharacter d || c.isDigit && d == '.') =
      true) : IsWord (c :: rest) := by
  rw [Bool.and_eq_true, List.all_eq_true] at h
  exact h

theorem isWord_function1 (g : Function1) : IsWord g.name.toList := by
  cases g <;> exact isWord_of_all (by decide)

theorem isWord_function2 (g : Function2) : IsWord g.name.toList := by
  cases g <;> exact isWord_of_all (by decide)

theorem applyFunction_function1 (g : Function1) (x : φ) :
    applyFunction F g.name.toList [.float x] = some (.float (F.function1 g x)) := by
  cases g <;> rfl

theorem applyFunction_function2 (g : Function2) (x y : φ) :
    applyFunction F g.name.toList [.float x, .float y] =
      some (.float (F.function2 g x y)) := by
  cases g <;> rfl

section Phrases

variable {x y : φ} {a : Bool}

/-- A function of one argument. -/
theorem Lists.function1 (g : Function1) (h : Lists F names memory ts [.float x]) :
    Denotes F names memory (.atom g.name.toList :: .openParen :: (ts ++ [.closeParen]))
      (.float (F.function1 g x)) :=
  h.call (isWord_function1 g) (applyFunction_function1 g x)

theorem Denotes.function2 (g : Function2) (h : Denotes F names memory ts (.float x))
    (h' : Denotes F names memory ts' (.float y)) :
    Denotes F names memory (.atom g.name.toList :: .openParen ::
        ((ts ++ .symbol .comma :: ts') ++ [.closeParen]))
      (.float (F.function2 g x y)) :=
  (h.lists.comma h').call (isWord_function2 g) (applyFunction_function2 g x y)

/-- `bool(x)`. -/
theorem Denotes.toBool (h : Denotes F names memory ts (.float x)) :
    Denotes F names memory (.atom "bool".toList :: .openParen :: (ts ++ [.closeParen]))
      (.bool (F.toBool x)) :=
  h.lists.call (isWord_of_all (by decide)) rfl

/-- `float(b)`. -/
theorem Lists.ofBool (h : Lists F names memory ts [.bool a]) :
    Denotes F names memory (.atom "float".toList :: .openParen :: (ts ++ [.closeParen]))
      (.float (F.ofBool a)) :=
  h.call (isWord_of_all (by decide)) rfl

theorem denotes_one :
    Denotes F names memory [.atom "1.0".toList] (.float (F.literal "1.0".toList)) :=
  denotes_literal (isWord_of_all (by decide)) (by decide)

theorem denotes_third :
    Denotes F names memory [.atom "0.3333333333333333".toList]
      (.float (F.literal "0.3333333333333333".toList)) :=
  denotes_literal (isWord_of_all (by decide)) (by decide)

end Phrases

section Leaves

variable {vectorized : Bool}

theorem digitHead_bufferName (k : Nat) : (bufferName k).head?.any Char.isDigit = false := rfl

theorem digitHead_scalarName (j : Nat) : (scalarName j).head?.any Char.isDigit = false := rfl

theorem tensor_emits {isFloat : Bool} {data : Nat}
    (hok : (metalFuseEmit vectorized cast (.tensor isFloat data) st).ok = true) :
    ∃ ts, Emits F cast (.tensor isFloat data) st
      (metalFuseEmit vectorized cast (.tensor isFloat data) st) ts := by
  rw [metalFuseEmit] at hok ⊢
  split at hok <;> rename_i hfull
  · cases hok
  · rw [if_neg hfull]
    refine ⟨.atom (bufferName st.buffers.length) :: .openBracket ::
      ([.atom "tid".toList] ++ [.closeBracket]), hok, List.prefix_append _ _,
      List.prefix_rfl, ?_, fun names memory tid hbinds => ⟨_, rfl, ?_⟩⟩
    · simp [spell, MetalFuseState.text, MetalFuseState.append]
    · change Binds names tid (st.buffers ++ [data]) st.scalars at hbinds
      have hname := hbinds.buffer st.buffers.length (by simp)
      rw [List.getElem_concat_length rfl] at hname
      exact Denotes.index (isWord_bufferName _) (digitHead_bufferName _) hname
        (denotes_name (isWord_of_all (by decide)) (by decide) hbinds.thread)

theorem scalar_emits {value : S}
    (hok : (metalFuseEmit vectorized cast (.scalar value) st).ok = true) :
    ∃ ts, Emits F cast (.scalar value) st
      (metalFuseEmit vectorized cast (.scalar value) st) ts := by
  rw [metalFuseEmit] at hok ⊢
  split at hok <;> rename_i hfull
  · cases hok
  · rw [if_neg hfull]
    refine ⟨[.atom (scalarName st.scalars.length)], hok, List.prefix_rfl,
      List.prefix_append _ _, ?_, fun names memory tid hbinds => ⟨_, rfl, ?_⟩⟩
    · simp [spell, MetalFuseState.append]
    · change Binds names tid st.buffers (st.scalars ++ [cast value]) at hbinds
      have hname := hbinds.scalar st.scalars.length (by simp)
      rw [List.getElem_concat_length rfl] at hname
      exact denotes_name (isWord_scalarName _) (digitHead_scalarName _) hname

end Leaves

section Operators

variable {vectorized : Bool}

/-- The trees below are emitted as they denote, from any state that is still in order. -/
def EmitsAlways (F : Floats φ) (vectorized : Bool) (cast : S → φ) (e : MetalExpr S) : Prop :=
  ∀ st, (metalFuseEmit vectorized cast e st).ok = true →
    ∃ ts, Emits F cast e st (metalFuseEmit vectorized cast e st) ts

/-- Every evaluator with a Metal function is emitted as a call. -/
theorem metalFuseEmit_function {evaluator : UnaryEvaluator} {g : Function1}
    (hg : evaluator.function = some g) (st : MetalFuseState φ) :
    metalFuseEmit vectorized cast (.unary evaluator rhs) st =
      (metalFuseEmit vectorized cast rhs ((st.text g.name).text "(")).text ")" := by
  cases evaluator <;> first | (cases hg; rfl) | cases hg

theorem apply_function {evaluator : UnaryEvaluator} {g : Function1}
    (hg : evaluator.function = some g) (x : φ) :
    evaluator.apply F x = some (F.function1 g x) := by
  cases evaluator <;> first | (cases hg; rfl) | cases hg

/-- An operand that is written once, between two texts. -/
theorem operand_emits {evaluator : UnaryEvaluator} {f : φ → φ} (before after : List Char)
    {frame : List Lexeme → List Lexeme}
    (hemit : ∀ st, metalFuseEmit vectorized cast (.unary evaluator rhs) st =
      (metalFuseEmit vectorized cast rhs (st.append before)).append after)
    (happly : ∀ x, evaluator.apply F x = some (f x))
    (hdenotes : ∀ names memory ts x, Denotes F names memory ts (.float x) →
      Denotes F names memory (frame ts) (.float (f x)))
    (hspell : ∀ ts, (frame ts).flatMap spell = before ++ ts.flatMap spell ++ after)
    (ih : EmitsAlways F vectorized cast rhs) :
    EmitsAlways F vectorized cast (.unary evaluator rhs) := by
  intro st hok
  rw [hemit] at hok ⊢
  obtain ⟨ts, h⟩ := ih _ hok
  refine ⟨_, h.unary ⟨rfl, rfl, rfl⟩ ⟨rfl, rfl, rfl⟩ happly
    (fun names memory x => hdenotes names memory ts x) ?_⟩
  simp [h.body, hspell]

/-- An operand that is written, taken back and pasted. -/
theorem pasted_emits {evaluator : UnaryEvaluator} {f : φ → φ} (paste : List Char → List Char)
    {frame : List Lexeme → List Lexeme}
    (hemit : ∀ st, metalFuseEmit vectorized cast (.unary evaluator rhs) st =
      (metalFuseSnapshot (metalFuseEmit vectorized cast rhs) st).2.append
        (paste (metalFuseSnapshot (metalFuseEmit vectorized cast rhs) st).1))
    (happly : ∀ x, evaluator.apply F x = some (f x))
    (hdenotes : ∀ names memory ts x, Denotes F names memory ts (.float x) →
      Denotes F names memory (frame ts) (.float (f x)))
    (hspell : ∀ ts, (frame ts).flatMap spell = paste (ts.flatMap spell))
    (ih : EmitsAlways F vectorized cast rhs) :
    EmitsAlways F vectorized cast (.unary evaluator rhs) := by
  intro st hok
  rw [hemit] at hok ⊢
  obtain ⟨ts, h⟩ := ih st hok
  obtain ⟨hpiece, hbody⟩ := snapshot_of_body h.body
  refine ⟨_, h.unary ⟨rfl, rfl, rfl⟩ ⟨rfl, rfl, rfl⟩ happly
    (fun names memory x => hdenotes names memory ts x) ?_⟩
  rw [append_body, hbody, hpiece, hspell]

theorem function_emits {evaluator : UnaryEvaluator} {g : Function1}
    (hg : evaluator.function = some g) (ih : EmitsAlways F vectorized cast rhs) :
    EmitsAlways F vectorized cast (.unary evaluator rhs) :=
  operand_emits (g.name.toList ++ "(".toList) ")".toList
    (fun st => by simp [metalFuseEmit_function hg, MetalFuseState.text, append_append])
    (apply_function hg) (fun _ _ _ _ hx => hx.lists.function1 g) (fun _ => by simp [spell]) ih

theorem unary_emits {evaluator : UnaryEvaluator} (hkernel : evaluator.kernel.isSome = true)
    (ih : EmitsAlways F vectorized cast rhs) :
    EmitsAlways F vectorized cast (.unary evaluator rhs) := by
  cases evaluator with
  | neg =>
      exact operand_emits "(-(".toList "))".toList (fun _ => rfl)
        (fun _ => rfl)
        (fun _ _ _ _ hx => (hx.lists.paren.unary (p := .minus) (o := .minus) rfl rfl).paren)
        (fun _ => by simp [spell, Symbol.text]) ih
  | lnot =>
      exact operand_emits "float(!bool(".toList "))".toList
        (fun _ => rfl) (fun _ => rfl)
        (fun _ _ _ _ hx => (hx.toBool.unary (p := .not) (o := .not) rfl rfl).ofBool)
        (fun _ => by simp [spell, Symbol.text]) ih
  | expm1 =>
      exact operand_emits "(exp(".toList ")-1.0)".toList (fun _ => rfl)
        (fun _ => rfl)
        (fun _ _ _ _ hx =>
          ((hx.lists.function1 .exp).binary (p := .minus) (o := .sub) rfl denotes_one rfl).paren)
        (fun _ => by simp [spell, Symbol.text, Function1.name]) ih
  | log1p =>
      exact operand_emits "log(1.0+(".toList "))".toList (fun _ => rfl)
        (fun _ => rfl)
        (fun _ _ _ _ hx =>
          (denotes_one.binary (p := .plus) (o := .add) rfl hx.lists.paren rfl).function1 .log)
        (fun _ => by simp [spell, Symbol.text, Function1.name]) ih
  | sqr =>
      exact pasted_emits
        (fun x => "(".toList ++ x ++ "*".toList ++ x ++ ")".toList)
        (fun st => by
          simp [metalFuseEmit, UnaryEvaluator.kernel, MetalFuseState.text, append_append])
        (fun _ => rfl)
        (fun _ _ _ _ hx => (hx.binary (p := .star) (o := .mul) rfl hx rfl).paren)
        (fun _ => by simp [spell, Symbol.text]) ih
  | cbrt =>
      exact pasted_emits
        (fun x => "copysign(pow(fabs(".toList ++ x ++
          "),0.3333333333333333),".toList ++ x ++ ")".toList)
        (fun st => by
          simp [metalFuseEmit, UnaryEvaluator.kernel, MetalFuseState.text, append_append])
        (fun _ => rfl)
        (fun _ _ _ _ hx =>
          ((hx.lists.function1 .fabs).function2 .pow denotes_third).function2 .copysign hx)
        (fun _ => by simp [spell, Symbol.text, Function1.name, Function2.name]) ih
  | cdf | invCdf => cases hkernel
  | _ => exact function_emits rfl ih

variable {evaluator : BinaryEvaluator} {p : Symbol} {o : BinaryOperator}

/-- Two operands that are written once each, with texts around them. -/
theorem operands_emits (before between after : List Char)
    {frame : List Lexeme → List Lexeme → List Lexeme}
    (hemit : ∀ st, metalFuseEmit vectorized cast (.binary evaluator lhs rhs) st =
      (metalFuseEmit vectorized cast rhs
        ((metalFuseEmit vectorized cast lhs (st.append before)).append between)).append after)
    (hdenotes : ∀ names memory ts ts' x y, Denotes F names memory ts (.float x) →
      Denotes F names memory ts' (.float y) →
      Denotes F names memory (frame ts ts') (.float (evaluator.apply F x y)))
    (hspell : ∀ ts ts', (frame ts ts').flatMap spell =
      before ++ ts.flatMap spell ++ between ++ ts'.flatMap spell ++ after)
    (ihl : EmitsAlways F vectorized cast lhs) (ihr : EmitsAlways F vectorized cast rhs) :
    EmitsAlways F vectorized cast (.binary evaluator lhs rhs) := by
  intro st hok
  rw [hemit] at hok ⊢
  obtain ⟨ts', h'⟩ := ihr _ hok
  obtain ⟨ts, h⟩ := ihl _ h'.ok
  refine ⟨_, h.binary h' ⟨rfl, rfl, rfl⟩ ⟨rfl, rfl, rfl⟩ ⟨rfl, rfl, rfl⟩
    (fun names memory x y => hdenotes names memory ts ts' x y) ?_⟩
  simp [h.body, h'.body, hspell]

/-- An operator between operands, in parentheses. -/
theorem arith_emits (hp : p.binary = some o)
    (hemit : ∀ st, metalFuseEmit vectorized cast (.binary evaluator lhs rhs) st =
      (metalFuseEmit vectorized cast rhs
        ((metalFuseEmit vectorized cast lhs (st.text "(")).text p.text)).text ")")
    (hvalue : ∀ x y, applyBinary F o (.float x) (.float y) =
      some (.float (evaluator.apply F x y)))
    (ihl : EmitsAlways F vectorized cast lhs) (ihr : EmitsAlways F vectorized cast rhs) :
    EmitsAlways F vectorized cast (.binary evaluator lhs rhs) :=
  operands_emits _ _ _ hemit
    (fun _ _ _ _ x y hx hy => (hx.binary hp hy (hvalue x y)).paren)
    (fun _ _ => by simp [spell]) ihl ihr

/-- A comparison between operands, as a float. -/
theorem cmp_emits (hp : p.binary = some o)
    (hemit : ∀ st, metalFuseEmit vectorized cast (.binary evaluator lhs rhs) st =
      (metalFuseEmit vectorized cast rhs
        ((metalFuseEmit vectorized cast lhs (st.text "float(")).text p.text)).text ")")
    {test : φ → φ → Bool}
    (hvalue : ∀ x y, applyBinary F o (.float x) (.float y) = some (.bool (test x y)))
    (happly : ∀ x y, evaluator.apply F x y = F.ofBool (test x y))
    (ihl : EmitsAlways F vectorized cast lhs) (ihr : EmitsAlways F vectorized cast rhs) :
    EmitsAlways F vectorized cast (.binary evaluator lhs rhs) :=
  operands_emits _ _ _ hemit
    (fun _ _ _ _ x y hx hy => happly x y ▸ (hx.binary hp hy (hvalue x y)).ofBool)
    (fun _ _ => by simp [spell]) ihl ihr

/-- An operator between truth values, as a float. -/
theorem logic_emits (hp : p.binary = some o)
    (hemit : ∀ st, metalFuseEmit vectorized cast (.binary evaluator lhs rhs) st =
      (metalFuseEmit vectorized cast rhs
        ((((metalFuseEmit vectorized cast lhs (st.text "float(bool(")).text ")").text
          p.text).text "bool(")).text "))")
    {combine : Bool → Bool → Bool}
    (hvalue : ∀ a b, applyBinary F o (.bool a) (.bool b) = some (.bool (combine a b)))
    (happly : ∀ x y, evaluator.apply F x y = F.ofBool (combine (F.toBool x) (F.toBool y)))
    (ihl : EmitsAlways F vectorized cast lhs) (ihr : EmitsAlways F vectorized cast rhs) :
    EmitsAlways F vectorized cast (.binary evaluator lhs rhs) :=
  operands_emits "float(bool(".toList (")".toList ++ p.text.toList ++ "bool(".toList)
    "))".toList
    (fun st => by simp [hemit, MetalFuseState.text, append_append])
    (fun _ _ _ _ x y hx hy =>
      happly x y ▸ (hx.toBool.binary hp hy.toBool (hvalue _ _)).ofBool)
    (fun _ _ => by simp [spell]) ihl ihr

theorem function2_emits {g : Function2}
    (hemit : ∀ st, metalFuseEmit vectorized cast (.binary evaluator lhs rhs) st =
      (metalFuseEmit vectorized cast rhs
        ((metalFuseEmit vectorized cast lhs ((st.text g.name).text "(")).text ",")).text ")")
    (happly : ∀ x y, evaluator.apply F x y = F.function2 g x y)
    (ihl : EmitsAlways F vectorized cast lhs) (ihr : EmitsAlways F vectorized cast rhs) :
    EmitsAlways F vectorized cast (.binary evaluator lhs rhs) :=
  operands_emits (g.name.toList ++ "(".toList) ",".toList ")".toList
    (fun st => by simp [hemit, MetalFuseState.text, append_append])
    (fun _ _ _ _ x y hx hy => happly x y ▸ hx.function2 g hy)
    (fun _ _ => by simp [spell, Symbol.text]) ihl ihr

/-- Both operands are written and taken back, and then each is pasted twice. -/
theorem metalFuseEmit_hypot (st : MetalFuseState φ) :
    metalFuseEmit vectorized cast (.binary .hypot lhs rhs) st =
      let left := metalFuseSnapshot (metalFuseEmit vectorized cast lhs) st
      let right := metalFuseSnapshot (metalFuseEmit vectorized cast rhs) left.2
      ((((((((right.2.text "sqrt((").append left.1).text "*").append left.1).text ")+(").append
        right.1).text "*").append right.1).text "))" := by
  rw [metalFuseEmit]
  rfl

theorem hypot_emits (ihl : EmitsAlways F vectorized cast lhs)
    (ihr : EmitsAlways F vectorized cast rhs) :
    EmitsAlways F vectorized cast (.binary .hypot lhs rhs) := by
  intro st hok
  rw [metalFuseEmit_hypot] at hok ⊢
  simp only [text_ok, append_ok, metalFuseSnapshot_ok] at hok
  obtain ⟨ts', h'⟩ := ihr _ hok
  obtain ⟨ts, h⟩ := ihl _ h'.ok
  refine ⟨_, h.binary h' ⟨rfl, rfl, rfl⟩ (sameSlots_snapshot _ st) ?_
    (fun _ _ x y hx hy =>
      ((hx.binary (p := .star) (o := .mul) rfl hx rfl).paren.binary (p := .plus) (o := .add) rfl
        (hy.binary (p := .star) (o := .mul) rfl hy rfl).paren rfl).function1 .sqrt) ?_⟩
  · repeat first | apply SameSlots.text | apply SameSlots.append
    exact sameSlots_snapshot _ _
  · obtain ⟨hleft, hbody⟩ := snapshot_of_body h.body
    obtain ⟨hright, hbody'⟩ := snapshot_of_body h'.body
    simp [hleft, hbody, hright, hbody', spell, Symbol.text, Function1.name]

theorem binary_emits (hkernel : (evaluator.kernel vectorized).isSome = true)
    (ihl : EmitsAlways F vectorized cast lhs) (ihr : EmitsAlways F vectorized cast rhs) :
    EmitsAlways F vectorized cast (.binary evaluator lhs rhs) := by
  cases evaluator with
  | add | madd => exact arith_emits (p := .plus) rfl (fun _ => rfl) (fun _ _ => rfl) ihl ihr
  | sub | msub => exact arith_emits (p := .minus) rfl (fun _ => rfl) (fun _ _ => rfl) ihl ihr
  | mul | mmul => exact arith_emits (p := .star) rfl (fun _ => rfl) (fun _ _ => rfl) ihl ihr
  | div | mdiv => exact arith_emits (p := .slash) rfl (fun _ => rfl) (fun _ _ => rfl) ihl ihr
  | cmpgt =>
      exact cmp_emits (p := .greater) rfl (fun _ => rfl) (fun _ _ => rfl) (fun _ _ => rfl) ihl ihr
  | cmplt =>
      exact cmp_emits (p := .less) rfl (fun _ => rfl) (fun _ _ => rfl) (fun _ _ => rfl) ihl ihr
  | cmpge =>
      exact cmp_emits (p := .greaterEqual) rfl (fun _ => rfl) (fun _ _ => rfl) (fun _ _ => rfl)
        ihl ihr
  | cmple =>
      exact cmp_emits (p := .lessEqual) rfl (fun _ => rfl) (fun _ _ => rfl) (fun _ _ => rfl)
        ihl ihr
  | cmpeq =>
      exact cmp_emits (p := .equalEqual) rfl (fun _ => rfl) (fun _ _ => rfl) (fun _ _ => rfl)
        ihl ihr
  | cmpne =>
      exact cmp_emits (p := .notEqual) rfl (fun _ => rfl) (fun _ _ => rfl) (fun _ _ => rfl)
        ihl ihr
  | min => exact function2_emits (g := .min) (fun _ => rfl) (fun _ _ => rfl) ihl ihr
  | max => exact function2_emits (g := .max) (fun _ => rfl) (fun _ _ => rfl) ihl ihr
  | pow => exact function2_emits (g := .pow) (fun _ => rfl) (fun _ _ => rfl) ihl ihr
  | copysign => exact function2_emits (g := .copysign) (fun _ => rfl) (fun _ _ => rfl) ihl ihr
  | hypot => exact hypot_emits ihl ihr
  | land =>
      cases vectorized with
      | false => cases hkernel
      | true =>
          exact logic_emits (p := .andAnd) rfl (fun _ => rfl) (fun _ _ => rfl) (fun _ _ => rfl)
            ihl ihr
  | lor =>
      cases vectorized with
      | false => cases hkernel
      | true =>
          exact logic_emits (p := .orOr) rfl (fun _ => rfl) (fun _ _ => rfl) (fun _ _ => rfl)
            ihl ihr
  | lxor =>
      cases vectorized with
      | false => cases hkernel
      | true =>
          have hvalue : ∀ a a', applyBinary F .notEqual (.bool a) (.bool a') =
              some (.bool (a ^^ a')) := fun a a' => by cases a <;> cases a' <;> rfl
          exact logic_emits (p := .notEqual) rfl (fun _ => rfl) hvalue (fun _ _ => rfl) ihl ihr

theorem fma_emits (ihl : EmitsAlways F vectorized cast lhs)
    (ihm : EmitsAlways F vectorized cast mhs) (ihr : EmitsAlways F vectorized cast rhs) :
    EmitsAlways F vectorized cast (.trinary .fma lhs mhs rhs) := by
  intro st hok
  rw [metalFuseEmit] at hok ⊢
  obtain ⟨ts'', h''⟩ := ihr _ hok
  obtain ⟨ts', h'⟩ := ihm _ h''.ok
  obtain ⟨ts, h⟩ := ihl _ h'.ok
  refine ⟨_, h.trinary h' h'' (f := F.fma) ⟨rfl, rfl, rfl⟩ ⟨rfl, rfl, rfl⟩ ⟨rfl, rfl, rfl⟩
    ⟨rfl, rfl, rfl⟩ (fun read x y z hx hy hz => ?_) (fun _ _ x y z hx hy hz =>
      ((hx.lists.comma hy).comma hz).call (f := "fma".toList) (isWord_of_all (by decide)) rfl) ?_⟩
  · rw [MetalExpr.value, hx, hy, hz]
    rfl
  · simp [h.body, h'.body, h''.body, spell, Symbol.text]

/-- The operands are written in the order of `select`, which is the reverse. -/
theorem ifElse_emits (ihl : EmitsAlways F vectorized cast lhs)
    (ihm : EmitsAlways F vectorized cast mhs) (ihr : EmitsAlways F vectorized cast rhs) :
    EmitsAlways F vectorized cast (.trinary .ifElse lhs mhs rhs) := by
  intro st hok
  rw [metalFuseEmit] at hok ⊢
  obtain ⟨ts'', h''⟩ := ihl _ hok
  obtain ⟨ts', h'⟩ := ihm _ h''.ok
  obtain ⟨ts, h⟩ := ihr _ h'.ok
  refine ⟨_, h.trinary h' h'' (f := fun z y x => if F.toBool x then y else z)
    ⟨rfl, rfl, rfl⟩ ⟨rfl, rfl, rfl⟩ ⟨rfl, rfl, rfl⟩ ⟨rfl, rfl, rfl⟩
    (fun read z y x hz hy hx => ?_) (fun _ _ z y x hz hy hx =>
      ((hz.lists.comma hy).comma hx.toBool).call (f := "select".toList)
        (isWord_of_all (by decide)) rfl) ?_⟩
  · rw [MetalExpr.value, hx, hy, hz]
    rfl
  · simp [h.body, h'.body, h''.body, spell, Symbol.text]

/-- Every operator may stand inside every other one. -/
theorem metalFuseEmit_emits {e : MetalExpr S} (hfusable : e.fusable vectorized = true) :
    EmitsAlways F vectorized cast e := by
  induction e with
  | tensor isFloat data => exact fun st hok => tensor_emits hok
  | scalar value => exact fun st hok => scalar_emits hok
  | unary evaluator rhs ih =>
      rw [MetalExpr.fusable, Bool.and_eq_true] at hfusable
      exact unary_emits hfusable.1 (ih hfusable.2)
  | binary evaluator lhs rhs ihl ihr =>
      simp only [MetalExpr.fusable, Bool.and_eq_true] at hfusable
      obtain ⟨⟨hkernel, hl⟩, hr⟩ := hfusable
      exact binary_emits hkernel (ihl hl) (ihr hr)
  | trinary evaluator lhs mhs rhs ihl ihm ihr =>
      simp only [MetalExpr.fusable, Bool.and_eq_true] at hfusable
      obtain ⟨⟨⟨_, hl⟩, hm⟩, hr⟩ := hfusable
      cases evaluator with
      | fma => exact fma_emits (ihl hl) (ihm hm) (ihr hr)
      | ifElse => exact ifElse_emits (ihl hl) (ihm hm) (ihr hr)

end Operators

end Emission

section Kernel

variable {φ S : Type}

/-- No function is named as a slot is. -/
theorem function_not_slot : ∀ w ∈ functionNames,
    w.head? ≠ some 'i' ∧ (w.drop 1).head?.any Char.isDigit = false := by
  decide +kernel

theorem bufferName_not_function (k : Nat) : bufferName k ∉ functionNames := fun h =>
  (function_not_slot _ h).1 rfl

theorem scalarName_not_function (j : Nat) : scalarName j ∉ functionNames := by
  intro h
  have hdrop : (scalarName j).drop 1 = decimal j := rfl
  have hdigit := (function_not_slot _ h).2
  rw [hdrop] at hdigit
  cases hdecimal : decimal j with
  | nil => exact Nat.toDigits_ne_nil hdecimal
  | cons c rest =>
      have hc : c.isDigit = true := decimal_isDigit (n := j) c (by simp [hdecimal])
      rw [hdecimal, List.head?_cons, Option.any_some, hc] at hdigit
      cases hdigit

variable {st : MetalFuseState φ} {tid : Nat}

theorem buffer_lt_of_names {k : Nat} (h : (st.names tid (bufferName k)).isSome = true) :
    k < st.buffers.length := by
  obtain ⟨v, hv⟩ := Option.isSome_iff_exists.1 h
  rcases declared_of_names st tid hv with htid | ⟨d, hd, hname⟩
  · simpa [bufferName_head] using congrArg List.head? htid
  · have hhead := congrArg List.head? hname
    rcases mem_declarations.1 hd with ⟨k', hk', rfl⟩ | ⟨j, hj, rfl⟩ | rfl | rfl
    · exact bufferName_inj hname ▸ hk'
    all_goals simp [bufferName_head, scalarName_head] at hhead

theorem scalar_lt_of_names {j : Nat} (h : (st.names tid (scalarName j)).isSome = true) :
    j < st.scalars.length := by
  obtain ⟨v, hv⟩ := Option.isSome_iff_exists.1 h
  rcases declared_of_names st tid hv with htid | ⟨d, hd, hname⟩
  · simpa [scalarName_head] using congrArg List.head? htid
  · have hhead := congrArg List.head? hname
    rcases mem_declarations.1 hd with ⟨k, hk, rfl⟩ | ⟨j', hj', rfl⟩ | rfl | rfl
    case inr.inr.inl => exact scalarName_inj hname ▸ hj'
    all_goals simp [bufferName_head, scalarName_head] at hhead

/-- A loop that writes one parameter after another and counts them. -/
theorem foldl_parameters {f : List Char × Nat → Nat → List Char × Nat}
    {g : Nat → Nat → List Char} (hf : ∀ src idx i, f (src, idx) i = (src ++ g i idx, idx + 1))
    (src : List Char) (idx n : Nat) :
    (List.range n).foldl f (src, idx) =
      (src ++ (List.range n).flatMap (fun i => g i (idx + i)), idx + n) := by
  induction n with
  | zero => simp
  | succ n ih =>
      rw [List.range_succ, List.foldl_append, ih, List.foldl_cons, List.foldl_nil, hf]
      simp [Nat.add_assoc]

theorem metalFuseParameters_eq (st : MetalFuseState φ) :
    metalFuseParameters st =
      "#include <metal_stdlib>\nusing namespace metal;\nkernel void fused_float(\n".toList ++
        (declarations st.buffers.length st.scalars.length).flatMap Declaration.text := by
  rw [metalFuseParameters]
  simp only [List.append_assoc]
  rw [foldl_parameters (g := fun j idx => "  constant float& c".toList ++ (decimal j ++
      (" [[buffer(".toList ++ (decimal idx ++ ")]],\n".toList)))) (fun _ _ _ => rfl),
    foldl_parameters (g := fun i idx => "  device const float* in".toList ++ (decimal i ++
      (" [[buffer(".toList ++ (decimal idx ++ ")]],\n".toList)))) (fun _ _ _ => rfl)]
  simp [declarations, Declaration.text, bufferName, scalarName, List.flatMap_map]

theorem length_declarations (nb ns : Nat) : (declarations nb ns).length = nb + ns + 2 := by
  simp [declarations, Nat.add_assoc]

/-- Tokens that denote something where the slots are bound name no slot beyond them. -/
theorem slots_of_evaluate {F : Floats φ} {memory : Nat → Nat → φ} {ts : List Lexeme}
    {x : Expression} {vs : List (Value φ)} (hparse : parse operators ts = some x)
    (hx : evaluate F (st.names tid) memory x = some vs) :
    (∀ k, .atom (bufferName k) ∈ ts → k < st.buffers.length) ∧
      ∀ j, .atom (scalarName j) ∈ ts → j < st.scalars.length := by
  have hatoms : ∀ w, .atom w ∈ ts → w ∈ x.atoms := by
    intro w hw
    rw [parse_atoms hparse]
    exact List.mem_flatMap.2 ⟨_, hw, List.mem_singleton_self w⟩
  constructor
  · intro k hk
    rcases evaluate_atoms hx (hatoms _ hk) with hdigit | hname | hfunction
    · cases hdigit
    · exact buffer_lt_of_names hname
    · exact absurd hfunction (bufferName_not_function k)
  · intro j hj
    rcases evaluate_atoms hx (hatoms _ hj) with hdigit | hname | hfunction
    · cases hdigit
    · exact scalar_lt_of_names hname
    · exact absurd hfunction (scalarName_not_function j)

/-- The text written for a tree whose slots fit is one expression.  In every thread it has
the value of the tree at the element of that thread, with the slots bound as the parameters
declare them; every slot in it is declared, and the parameters are few enough. -/
theorem metalFuse_denotes (F : Floats φ) (vectorized : Bool) (cast : S → φ) (e : MetalExpr S)
    (hfusable : e.fusable vectorized = true)
    (hfits : metalFuseFits (metalFuseEmit vectorized cast e .initial) = true) :
    let st := metalFuseEmit vectorized cast e .initial
    let parameters := declarations st.buffers.length st.scalars.length
    ∃ ts x, tokens st.body = some ts ∧ parse operators ts = some x ∧
      (∀ memory tid, ∃ v, e.value F cast (fun data => memory data tid) = some v ∧
        evaluate F (st.names tid) memory x = some [.float v]) ∧
      (∀ k, .atom (bufferName k) ∈ ts → k < st.buffers.length) ∧
      (∀ j, .atom (scalarName j) ∈ ts → j < st.scalars.length) ∧
      metalFuseParameters st =
        "#include <metal_stdlib>\nusing namespace metal;\nkernel void fused_float(\n".toList ++
          parameters.flatMap Declaration.text ∧
      parameters.length ≤ 31 := by
  intro st parameters
  obtain ⟨hok, hcount⟩ := Bool.and_eq_true_iff.1 hfits
  obtain ⟨ts, hemits⟩ := metalFuseEmit_emits (F := F) hfusable .initial hok
  have hdenotes := fun memory tid =>
    hemits.denotes (st.names tid) memory tid (binds_names st tid)
  -- the tree of the text is the same in every memory
  obtain ⟨v₀, -, x, hphrase, hx⟩ := hdenotes (fun _ _ => F.ofBool true) 0
  have hslots := slots_of_evaluate hphrase.operand.parse hx
  refine ⟨ts, x, ?_, hphrase.operand.parse, fun memory tid => ?_, hslots.1, hslots.2,
    metalFuseParameters_eq st, ?_⟩
  · rw [hemits.body]
    exact tokens_spell hphrase.valid hphrase.chain
  · obtain ⟨v, hv, x', hphrase', hx'⟩ := hdenotes memory tid
    have hsame : x' = x :=
      Option.some.inj (hphrase'.operand.parse.symm.trans hphrase.operand.parse)
    exact ⟨v, hv, hsame ▸ hx'⟩
  · rw [length_declarations]
    exact of_decide_eq_true hcount

end Kernel

end Vectorization.Metal

namespace Vectorization.MetalWitness

open Metal MaximalMunch OperatorGrammar

/-- Integers in place of floats. -/
def floats : Floats Int where
  literal w := w.length
  negate x := -x
  add x y := x + y
  sub x y := x - y
  mul x y := x * y
  div x y := x / y
  compare _ x y := decide (y < x)
  function1 _ x := x
  function2 _ x y := x + y
  fma x y z := x * y + z
  toBool x := decide (x ≠ 0)
  ofBool b := if b then 1 else 0

/-- `if_else(a > 2, sqr(b + 3), -a)`. -/
def masked : MetalExpr Int :=
  .trinary .ifElse (.binary .cmpgt (.tensor true 0) (.scalar 2))
    (.unary .sqr (.binary .add (.tensor true 1) (.scalar 3))) (.unary .neg (.tensor true 0))

theorem metalFuse_denotes_masked :
    let st := metalFuseEmit true id masked .initial
    let parameters := declarations st.buffers.length st.scalars.length
    st.body =
        "select((-(in0[tid])),((in1[tid]+c0)*(in1[tid]+c0)),bool(float(in2[tid]>c1)))".toList ∧
      ∃ ts x, tokens st.body = some ts ∧ parse operators ts = some x ∧
        (∀ memory tid, ∃ v, masked.value floats id (fun data => memory data tid) = some v ∧
          evaluate floats (st.names tid) memory x = some [.float v]) ∧
        (∀ k, .atom (bufferName k) ∈ ts → k < st.buffers.length) ∧
        (∀ j, .atom (scalarName j) ∈ ts → j < st.scalars.length) ∧
        metalFuseParameters st =
          "#include <metal_stdlib>\nusing namespace metal;\nkernel void fused_float(\n".toList ++
            parameters.flatMap Declaration.text ∧
        parameters.length ≤ 31 :=
  ⟨by decide +kernel, metalFuse_denotes floats true id masked rfl (by decide +kernel)⟩

end Vectorization.MetalWitness
