/-
Maximal munch: a text is cut into lexemes by letting each one run on for as long as the
next character continues it.  A concatenation of lexemes is cut where they meet, as long
as none is continued by the first character of its successor.
-/
import Mathlib

namespace MaximalMunch

universe u

variable {C : Type u} {continues : List C → C → Bool} {l : List C} {ls : List (List C)}

/-- Cut after the lexeme that has been read so far. -/
def munch (continues : List C → C → Bool) (read : List C) : List C → List (List C)
  | [] => [read]
  | c :: text =>
      if continues read c then munch continues (read ++ [c]) text
      else read :: munch continues [c] text

def lexemes (continues : List C → C → Bool) : List C → List (List C)
  | [] => []
  | c :: text => munch continues [c] text

/-- Every character but the first continues what stands before it. -/
def IsLexeme (continues : List C → C → Bool) (l : List C) : Prop :=
  l ≠ [] ∧ ∀ read c rest, l = read ++ c :: rest → read ≠ [] → continues read c = true

/-- The second lexeme does not continue the first one. -/
def Parts (continues : List C → C → Bool) (l l' : List C) : Prop :=
  ∀ c ∈ l'.head?, continues l c = false

theorem isLexeme_single (c : C) : IsLexeme continues [c] := by
  refine ⟨List.cons_ne_nil c [], fun read d rest h hread => ?_⟩
  rcases List.singleton_eq_append_iff.1 h with ⟨hnil, _⟩ | ⟨_, hcons⟩
  · exact absurd hnil hread
  · exact absurd hcons (List.cons_ne_nil d rest)

theorem isLexeme_pair {c d : C} (h : continues [c] d = true) : IsLexeme continues [c, d] := by
  refine ⟨List.cons_ne_nil c [d], fun read e rest hsplit hread => ?_⟩
  cases read with
  | nil => exact absurd rfl hread
  | cons b read =>
      obtain ⟨hb, hrest⟩ := List.cons.inj hsplit
      cases read with
      | nil =>
          have hde : d = e := (List.cons.inj hrest).1
          rw [← hb, ← hde]
          exact h
      | cons b read => simp at hrest

/-- The rest of a lexeme is read before anything else. -/
theorem munch_append {read rest : List C} (h : IsLexeme continues (read ++ rest))
    (hread : read ≠ []) (text : List C) :
    munch continues read (rest ++ text) = munch continues (read ++ rest) text := by
  induction rest generalizing read with
  | nil => rw [List.nil_append, List.append_nil]
  | cons c rest ih =>
      have hsplit : read ++ c :: rest = (read ++ [c]) ++ rest := by
        rw [List.append_assoc, List.singleton_append]
      rw [List.cons_append, munch, if_pos (h.2 read c rest rfl hread), hsplit]
      rw [hsplit] at h
      exact ih h (by simp)

theorem munch_flatten (hl : IsLexeme continues l) (hls : ∀ l ∈ ls, IsLexeme continues l)
    (hparts : (l :: ls).IsChain (Parts continues)) :
    munch continues l ls.flatten = l :: ls := by
  induction ls generalizing l with
  | nil => rfl
  | cons l' ls ih =>
      obtain ⟨hl', hrest⟩ := List.forall_mem_cons.1 hls
      obtain ⟨hpart, hchain⟩ := List.isChain_cons_cons.1 hparts
      cases l' with
      | nil => exact absurd rfl hl'.1
      | cons c rest =>
          have hcut : continues l c = false := hpart c rfl
          rw [List.flatten_cons, List.cons_append, munch, hcut, if_neg Bool.false_ne_true,
            munch_append (show IsLexeme continues ([c] ++ rest) from hl') (by simp),
            List.singleton_append, ih hl' hrest hchain]

/-- A text is cut where its lexemes meet. -/
theorem lexemes_flatten (hls : ∀ l ∈ ls, IsLexeme continues l)
    (hparts : ls.IsChain (Parts continues)) : lexemes continues ls.flatten = ls := by
  cases ls with
  | nil => rfl
  | cons l ls =>
      obtain ⟨hl, hrest⟩ := List.forall_mem_cons.1 hls
      cases l with
      | nil => exact absurd rfl hl.1
      | cons c rest =>
          rw [List.flatten_cons, List.cons_append, lexemes,
            munch_append (show IsLexeme continues ([c] ++ rest) from hl) (by simp),
            List.singleton_append, munch_flatten hl hrest hparts]

end MaximalMunch
