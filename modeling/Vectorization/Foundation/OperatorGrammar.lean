/-
Expressions with prefix and left-associative binary operators, calls, subscripts and
parentheses, read by a machine with a stack of what is open.  An operator is settled when
one that binds no tighter arrives, or a bracket that closes.
-/
import Mathlib

namespace OperatorGrammar

universe u

/-- What the symbols of a language stand for, before an operand and after one. -/
structure Operators (S U B : Type u) where
  unary : S → Option U
  binary : S → Option B
  level : B → Nat

inductive Token (A S : Type u)
  | atom (a : A)
  | symbol (s : S)
  | openParen
  | closeParen
  | openBracket
  | closeBracket
deriving Repr, DecidableEq

inductive Tree (A U B : Type u)
  | atom (a : A)
  | paren (x : Tree A U B)
  | unary (o : U) (x : Tree A U B)
  | binary (o : B) (x y : Tree A U B)
  | call (f x : Tree A U B)
  | index (a x : Tree A U B)
deriving Repr, DecidableEq

/-- What is open, innermost first. -/
inductive Frame (A U B : Type u)
  | paren
  | call (f : Tree A U B)
  | index (a : Tree A U B)
  | unary (o : U)
  | binary (x : Tree A U B) (o : B)

/-- The open frames, and the operand read last, if an operand was read last. -/
structure State (A U B : Type u) where
  frames : List (Frame A U B)
  operand : Option (Tree A U B)

variable {A S U B : Type u} (O : Operators S U B)

/-- Complete the operators that bind at least as tight as `level`. -/
def settle (level : Nat) : List (Frame A U B) → Tree A U B → List (Frame A U B) × Tree A U B
  | .unary o :: frames, x => settle level frames (.unary o x)
  | .binary y o :: frames, x =>
      if level ≤ O.level o then settle level frames (.binary o y x)
      else (.binary y o :: frames, x)
  | frames, x => (frames, x)

/-- The bracket that `x` stands in is closed. -/
def closeParen : List (Frame A U B) × Tree A U B → Option (State A U B)
  | (.paren :: frames, x) => some ⟨frames, some (.paren x)⟩
  | (.call f :: frames, x) => some ⟨frames, some (.call f x)⟩
  | _ => none

def closeBracket : List (Frame A U B) × Tree A U B → Option (State A U B)
  | (.index a :: frames, x) => some ⟨frames, some (.index a x)⟩
  | _ => none

/-- A token where an operand is expected. -/
def start (frames : List (Frame A U B)) : Token A S → Option (State A U B)
  | .atom a => some ⟨frames, some (.atom a)⟩
  | .openParen => some ⟨.paren :: frames, none⟩
  | .symbol p => (O.unary p).map fun o => ⟨.unary o :: frames, none⟩
  | _ => none

/-- A token after the operand `x`. -/
def follow (frames : List (Frame A U B)) (x : Tree A U B) :
    Token A S → Option (State A U B)
  | .openParen => some ⟨.call x :: frames, none⟩
  | .openBracket => some ⟨.index x :: frames, none⟩
  | .symbol p => (O.binary p).map fun o =>
      let settled := settle O (O.level o) frames x
      ⟨.binary settled.2 o :: settled.1, none⟩
  | .closeParen => closeParen (settle O 0 frames x)
  | .closeBracket => closeBracket (settle O 0 frames x)
  | .atom _ => none

def step (s : State A U B) (t : Token A S) : Option (State A U B) :=
  match s.operand with
  | none => start O s.frames t
  | some x => follow O s.frames x t

def run : List (Token A S) → State A U B → Option (State A U B)
  | [], s => some s
  | t :: ts, s => (step O s t).bind (run ts)

/-- The tree of a whole text. -/
def parse (ts : List (Token A S)) : Option (Tree A U B) := do
  let s ← run O ts ⟨[], none⟩
  let settled := settle O 0 s.frames (← s.operand)
  if settled.1.isEmpty then some settled.2 else none

section Phrases

variable {O} {ts ts' : List (Token A S)} {x y : Tree A U B} {frames : List (Frame A U B)}

theorem run_append (s : State A U B) :
    run O (ts ++ ts') s = (run O ts s).bind (run O ts') := by
  induction ts generalizing s with
  | nil => rfl
  | cons t ts ih =>
      rw [List.cons_append, run, run, Option.bind_assoc]
      exact congrArg _ (funext ih)

theorem run_symbol {p : S} {o : B} (hp : O.binary p = some o) (s : State A U B)
    (hx : s.operand = some x) :
    run O (.symbol p :: ts) s = run O ts
      ⟨.binary (settle O (O.level o) s.frames x).2 o :: (settle O (O.level o) s.frames x).1,
        none⟩ := by
  rw [run, step, hx]
  simp only [follow, hp, Option.map_some, Option.bind_some]

theorem run_closeParen (s : State A U B) (hx : s.operand = some x) :
    run O ([.closeParen] : List (Token A S)) s = closeParen (settle O 0 s.frames x) := by
  rw [run, step, hx]
  exact Option.bind_fun_some _

theorem run_closeBracket (s : State A U B) (hx : s.operand = some x) :
    run O ([.closeBracket] : List (Token A S)) s = closeBracket (settle O 0 s.frames x) := by
  rw [run, step, hx]
  exact Option.bind_fun_some _

/-- The tokens are read as one operand wherever an operand may stand. -/
def Operand (O : Operators S U B) (ts : List (Token A S)) (x : Tree A U B) : Prop :=
  ∀ frames, run O ts ⟨frames, none⟩ = some ⟨frames, some x⟩

/-- Nothing is settled past a bracket. -/
def Bracketed : List (Frame A U B) → Prop
  | .paren :: _ => True
  | .call _ :: _ => True
  | .index _ :: _ => True
  | _ => False

/-- The tokens are read as one expression within brackets. -/
def Enclosed (O : Operators S U B) (ts : List (Token A S)) (x : Tree A U B) : Prop :=
  ∀ frames, Bracketed frames → ∃ s y, run O ts ⟨frames, none⟩ = some s ∧
    s.operand = some y ∧ settle O 0 s.frames y = (frames, x)

theorem settle_bracketed (h : Bracketed frames) (level : Nat) :
    settle O level frames x = (frames, x) := by
  cases frames with
  | nil => exact h.elim
  | cons frame frames =>
      cases frame with
      | unary o => exact h.elim
      | binary y o => exact h.elim
      | _ => rw [settle] <;> simp

theorem operand_atom (a : A) : Operand O [.atom a] (.atom a) := fun _ => rfl

theorem Operand.enclosed (h : Operand O ts x) : Enclosed O ts x :=
  fun frames hframes => ⟨_, x, h frames, rfl, settle_bracketed hframes 0⟩

/-- A prefix operator before an operand. -/
theorem Operand.unary (h : Operand O ts x) {p : S} {o : U} (hp : O.unary p = some o) :
    Enclosed O (.symbol p :: ts) (.unary o x) := by
  intro frames hframes
  refine ⟨⟨.unary o :: frames, some x⟩, x, ?_, rfl, ?_⟩
  · change ((O.unary p).map _).bind (run O ts) = _
    rw [hp]
    exact h _
  · rw [settle, settle_bracketed hframes]

/-- A binary operator after an operand and before another. -/
theorem Operand.binary (hx : Operand O ts x) (hy : Operand O ts' y) {p : S} {o : B}
    (hp : O.binary p = some o) :
    Enclosed O (ts ++ .symbol p :: ts') (.binary o x y) := by
  intro frames hframes
  refine ⟨⟨.binary x o :: frames, some y⟩, y, ?_, rfl, ?_⟩
  · rw [run_append, hx frames, Option.bind_some, run_symbol hp _ rfl, settle_bracketed hframes]
    exact hy _
  · rw [settle, if_pos (Nat.zero_le _), settle_bracketed hframes]

/-- A binary operator of the lowest level after an expression. -/
theorem Enclosed.binary (hx : Enclosed O ts x) (hy : Operand O ts' y) {p : S} {o : B}
    (hp : O.binary p = some o) (hlevel : O.level o = 0) :
    Enclosed O (ts ++ .symbol p :: ts') (.binary o x y) := by
  intro frames hframes
  obtain ⟨s, z, hrun, hz, hsettle⟩ := hx frames hframes
  refine ⟨⟨.binary x o :: frames, some y⟩, y, ?_, rfl, ?_⟩
  · rw [run_append, hrun, Option.bind_some, run_symbol hp _ hz, hlevel, hsettle]
    exact hy _
  · rw [settle, if_pos (Nat.zero_le _), settle_bracketed hframes]

theorem Enclosed.paren (h : Enclosed O ts x) :
    Operand O (.openParen :: (ts ++ [.closeParen])) (.paren x) := by
  intro frames
  obtain ⟨s, z, hrun, hz, hsettle⟩ := h (.paren :: frames) trivial
  change (run O (ts ++ [.closeParen]) ⟨.paren :: frames, none⟩) = _
  rw [run_append, hrun, Option.bind_some, run_closeParen _ hz, hsettle]
  rfl

theorem Enclosed.call (h : Enclosed O ts x) (f : A) :
    Operand O (.atom f :: .openParen :: (ts ++ [.closeParen])) (.call (.atom f) x) := by
  intro frames
  obtain ⟨s, z, hrun, hz, hsettle⟩ := h (.call (.atom f) :: frames) trivial
  change (run O (ts ++ [.closeParen]) ⟨.call (.atom f) :: frames, none⟩) = _
  rw [run_append, hrun, Option.bind_some, run_closeParen _ hz, hsettle]
  rfl

theorem Enclosed.index (h : Enclosed O ts x) (a : A) :
    Operand O (.atom a :: .openBracket :: (ts ++ [.closeBracket])) (.index (.atom a) x) := by
  intro frames
  obtain ⟨s, z, hrun, hz, hsettle⟩ := h (.index (.atom a) :: frames) trivial
  change (run O (ts ++ [.closeBracket]) ⟨.index (.atom a) :: frames, none⟩) = _
  rw [run_append, hrun, Option.bind_some, run_closeBracket _ hz, hsettle]
  rfl

/-- A text that is one operand is parsed as that. -/
theorem Operand.parse (h : Operand O ts x) : parse O ts = some x := by
  rw [OperatorGrammar.parse, h []]
  rfl

end Phrases

section Atoms

def Token.atoms : Token A S → List A
  | atom a => [a]
  | _ => []

/-- The atoms of a tree, from left to right. -/
def Tree.atoms : Tree A U B → List A
  | atom a => [a]
  | paren x => x.atoms
  | unary _ x => x.atoms
  | binary _ x y => x.atoms ++ y.atoms
  | call f x => f.atoms ++ x.atoms
  | index a x => a.atoms ++ x.atoms

def Frame.atoms : Frame A U B → List A
  | paren => []
  | call f => f.atoms
  | index a => a.atoms
  | unary _ => []
  | binary x _ => x.atoms

/-- What has been read before the last operand. -/
def openAtoms (frames : List (Frame A U B)) : List A := frames.reverse.flatMap Frame.atoms

def State.atoms (s : State A U B) : List A := openAtoms s.frames ++ s.operand.elim [] Tree.atoms

variable {O} {ts : List (Token A S)} {x : Tree A U B} {frames : List (Frame A U B)}
  {s s' : State A U B} {t : Token A S}

@[simp] theorem openAtoms_cons (frame : Frame A U B) (frames : List (Frame A U B)) :
    openAtoms (frame :: frames) = openAtoms frames ++ frame.atoms := by
  simp [openAtoms]

theorem settle_atoms (level : Nat) (frames : List (Frame A U B)) (x : Tree A U B) :
    openAtoms (settle O level frames x).1 ++ (settle O level frames x).2.atoms =
      openAtoms frames ++ x.atoms := by
  induction frames generalizing x with
  | nil => rfl
  | cons frame frames ih =>
      cases frame with
      | unary o => simp [settle, ih, Frame.atoms, Tree.atoms]
      | binary y o =>
          rw [settle]
          split
          · simp [ih, Frame.atoms, Tree.atoms]
          · rfl
      | _ => rw [settle] <;> simp

theorem closeParen_atoms {p : List (Frame A U B) × Tree A U B} (h : closeParen p = some s) :
    s.atoms = openAtoms p.1 ++ p.2.atoms := by
  rw [closeParen.eq_def] at h
  split at h <;> cases h <;> simp [State.atoms, Frame.atoms, Tree.atoms]

theorem closeBracket_atoms {p : List (Frame A U B) × Tree A U B}
    (h : closeBracket p = some s) : s.atoms = openAtoms p.1 ++ p.2.atoms := by
  rw [closeBracket.eq_def] at h
  split at h <;> cases h
  simp [State.atoms, Frame.atoms, Tree.atoms]

theorem start_atoms (h : start O frames t = some s) : s.atoms = openAtoms frames ++ t.atoms := by
  cases t with
  | symbol p =>
      obtain ⟨o, -, rfl⟩ := Option.map_eq_some_iff.1 h
      simp [State.atoms, Frame.atoms, Token.atoms]
  | atom a | openParen =>
      cases h
      simp [State.atoms, Frame.atoms, Tree.atoms, Token.atoms]
  | closeParen | openBracket | closeBracket => cases h

theorem follow_atoms (h : follow O frames x t = some s) :
    s.atoms = openAtoms frames ++ x.atoms ++ t.atoms := by
  cases t with
  | symbol p =>
      obtain ⟨o, -, rfl⟩ := Option.map_eq_some_iff.1 h
      simp [State.atoms, Frame.atoms, Token.atoms, settle_atoms]
  | closeParen =>
      rw [closeParen_atoms h, settle_atoms]
      exact (List.append_nil _).symm
  | closeBracket =>
      rw [closeBracket_atoms h, settle_atoms]
      exact (List.append_nil _).symm
  | openParen | openBracket =>
      cases h
      simp [State.atoms, Frame.atoms, Token.atoms]
  | atom a => cases h

theorem step_atoms (h : step O s t = some s') : s'.atoms = s.atoms ++ t.atoms := by
  rw [step] at h
  rw [State.atoms.eq_def s]
  split at h <;> rename_i hs
  · rw [start_atoms h, hs, Option.elim_none, List.append_nil]
  · rw [follow_atoms h, hs, Option.elim_some]

theorem run_atoms (h : run O ts s = some s') : s'.atoms = s.atoms ++ ts.flatMap Token.atoms := by
  induction ts generalizing s with
  | nil =>
      cases h
      exact (List.append_nil _).symm
  | cons t ts ih =>
      obtain ⟨s₁, hstep, hrun⟩ := Option.bind_eq_some_iff.1 h
      rw [ih hrun, step_atoms hstep, List.flatMap_cons, List.append_assoc]

/-- A tree has the atoms of the text it was parsed from, in their order. -/
theorem parse_atoms (h : parse O ts = some x) : x.atoms = ts.flatMap Token.atoms := by
  obtain ⟨s, hrun, hs⟩ := Option.bind_eq_some_iff.1 h
  obtain ⟨y, hy, hsettle⟩ := Option.bind_eq_some_iff.1 hs
  dsimp only at hsettle
  split at hsettle <;> rename_i hempty
  · cases hsettle
    have hatoms := settle_atoms (O := O) 0 s.frames y
    rw [List.isEmpty_iff.1 hempty] at hatoms
    rw [show openAtoms s.frames ++ y.atoms = s.atoms by rw [State.atoms, hy]; rfl,
      run_atoms hrun] at hatoms
    exact hatoms
  · cases hsettle

end Atoms

end OperatorGrammar
