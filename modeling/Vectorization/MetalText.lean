/-
Texts of the Metal expression language and what they denote.  Texts are put together from
spelled tokens; a phrase carries the conditions under which it is cut into these tokens,
parsed as one operand and evaluated to a value.
-/
import Vectorization.MetalLanguage

namespace Vectorization.Metal

open MaximalMunch OperatorGrammar

section Spelling

def spell : Lexeme → List Char
  | .atom w => w
  | .symbol s => s.text.toList
  | .openParen => ['(']
  | .closeParen => [')']
  | .openBracket => ['[']
  | .closeBracket => [']']

/-- A name, or a number. -/
def IsWord : List Char → Prop
  | [] => False
  | c :: rest =>
      isWordCharacter c = true ∧
        ∀ d ∈ rest, (isWordCharacter d || c.isDigit && d == '.') = true

def Valid : Lexeme → Prop
  | .atom w => IsWord w
  | _ => True

inductive Kind
  | word | operator | bracket
deriving Repr, DecidableEq

/-- The comma is cut off on both sides as the brackets are. -/
def kind : Lexeme → Kind
  | .atom _ => .word
  | .symbol .comma => .bracket
  | .symbol _ => .operator
  | _ => .bracket

/-- Tokens that stay apart without a blank. -/
def Adjacent (t t' : Lexeme) : Prop :=
  kind t = .bracket ∨ kind t' = .bracket ∨ kind t ≠ kind t'

def operatorCharacters : List Char := ['|', '&', '=', '!', '<', '>', '+', '-', '*', '/', '%', '^']

theorem compounds_operator : ∀ l ∈ compounds, ∀ c ∈ l, c ∈ operatorCharacters := by
  simp [compounds, operatorCharacters]

theorem not_operator_of_word {c : Char} (h : isWordCharacter c = true) :
    c ∉ operatorCharacters := by
  intro hmem
  have hall : ∀ c ∈ operatorCharacters, isWordCharacter c = false := by
    simp [operatorCharacters, isWordCharacter]
  rw [hall c hmem] at h
  exact Bool.false_ne_true h

/-- A text outside of words with a character that no operator has does not go on. -/
theorem continues_eq_false {read : List Char} {c d : Char}
    (hread : read.head?.any isWordCharacter = false) (hd : d ∈ read ++ [c])
    (hoperator : d ∉ operatorCharacters) : continues read c = false := by
  cases read with
  | nil => rfl
  | cons e read =>
      have hword : isWordCharacter e = false := hread
      rw [continues, hword, if_neg Bool.false_ne_true, ← Bool.not_eq_true]
      intro hmem
      exact hoperator (compounds_operator _ (List.contains_iff_mem.1 hmem) d hd)

theorem spell_isLexeme {t : Lexeme} (h : Valid t) : IsLexeme continues (spell t) := by
  cases t with
  | atom w =>
      cases w with
      | nil => exact h.elim
      | cons c rest =>
          refine ⟨List.cons_ne_nil c rest, fun read d rest' hsplit hread => ?_⟩
          cases read with
          | nil => exact absurd rfl hread
          | cons e read =>
              obtain ⟨rfl, rfl⟩ := List.cons.inj hsplit
              rw [continues, if_pos h.1]
              exact h.2 d (by simp)
  | symbol s =>
      cases s with
      | orOr | andAnd | equalEqual | notEqual | lessEqual | greaterEqual | shiftLeft
      | shiftRight => exact isLexeme_pair (by decide +kernel)
      | _ => exact isLexeme_single _
  | _ => exact isLexeme_single _

/-- Nothing but a word begins as a word goes on. -/
theorem head_of_not_word {t : Lexeme} (h : kind t ≠ .word) :
    ∀ c ∈ (spell t).head?, isWordCharacter c = false ∧ c ≠ '.' := by
  cases t with
  | atom w => exact absurd rfl h
  | symbol s =>
      cases s <;> rintro _ ⟨⟩ <;> decide
  | _ => rintro _ ⟨⟩; decide

theorem head_of_word {t : Lexeme} (hvalid : Valid t) (h : kind t = .word) :
    ∀ c ∈ (spell t).head?, isWordCharacter c = true := by
  cases t with
  | atom w =>
      cases w with
      | nil => exact hvalid.elim
      | cons c rest =>
          rintro _ ⟨⟩
          exact hvalid.1
  | symbol s => cases s <;> exact absurd h (by decide)
  | _ => exact absurd h (by decide)

theorem spell_bracket {t : Lexeme} (h : kind t = .bracket) :
    ∃ c, spell t = [c] ∧ c ∉ operatorCharacters := by
  cases t with
  | atom w => exact absurd h (by simp [kind])
  | symbol s =>
      cases s with
      | comma => exact ⟨',', rfl, by decide +kernel⟩
      | _ => exact absurd h (by decide)
  | openParen => exact ⟨'(', rfl, by decide +kernel⟩
  | closeParen => exact ⟨')', rfl, by decide +kernel⟩
  | openBracket => exact ⟨'[', rfl, by decide +kernel⟩
  | closeBracket => exact ⟨']', rfl, by decide +kernel⟩

theorem spell_parts {t t' : Lexeme} (h : Valid t) (h' : Valid t') (hadjacent : Adjacent t t') :
    Parts continues (spell t) (spell t') := by
  intro c hc
  by_cases hword : kind t = .word
  · obtain ⟨hnot, hdot⟩ := head_of_not_word (t := t')
      (by rintro hword'; rcases hadjacent with hb | hb | hne <;> simp_all) c hc
    have hhead := head_of_word h hword
    generalize spell t = w at hhead
    cases w with
    | nil => rfl
    | cons d rest => simp [continues, hhead d rfl, hnot, hdot]
  · have hhead : (spell t).head?.any isWordCharacter = false := by
      cases hd : (spell t).head? with
      | none => rfl
      | some d => exact (head_of_not_word hword d hd).1
    by_cases hbracket : kind t = .bracket
    · obtain ⟨d, hd, hoperator⟩ := spell_bracket hbracket
      exact continues_eq_false hhead (d := d) (by simp [hd]) hoperator
    · refine continues_eq_false hhead (d := c) (by simp) ?_
      by_cases hword' : kind t' = .word
      · exact not_operator_of_word (head_of_word h' hword' c hc)
      · have hbracket' : kind t' = .bracket := by
          cases hk : kind t <;> cases hk' : kind t' <;> simp_all [Adjacent]
        obtain ⟨d, hd, hoperator⟩ := spell_bracket hbracket'
        rw [hd] at hc
        obtain rfl : d = c := by simpa using hc
        exact hoperator

theorem token_spell {t : Lexeme} (h : Valid t) : token (spell t) = some t := by
  cases t with
  | atom w =>
      cases w with
      | nil => exact h.elim
      | cons c rest =>
          have hne : ∀ d, isWordCharacter d = false → c :: rest ≠ [d] := by
            rintro d hd ⟨⟩
            rw [h.1] at hd
            exact Bool.false_ne_true hd.symm
          rw [spell, token, if_neg (hne _ (by decide)), if_neg (hne _ (by decide)),
            if_neg (hne _ (by decide)), if_neg (hne _ (by decide))]
          exact if_pos h.1
  | symbol s => cases s <;> decide +kernel
  | _ => rfl

theorem mapM_token {ts : List Lexeme} (h : ∀ t ∈ ts, Valid t) :
    (ts.map spell).mapM token = some ts := by
  induction ts with
  | nil => rfl
  | cons t ts ih =>
      obtain ⟨ht, hts⟩ := List.forall_mem_cons.1 h
      rw [List.map_cons, List.mapM_cons, token_spell ht, ih hts]
      rfl

/-- A spelled text is cut into its tokens. -/
theorem tokens_spell {ts : List Lexeme} (hvalid : ∀ t ∈ ts, Valid t)
    (hchain : ts.IsChain Adjacent) : tokens (ts.flatMap spell) = some ts := by
  have hparts : (ts.map spell).IsChain (Parts continues) := by
    rw [List.isChain_map]
    exact hchain.imp_of_mem_imp fun t t' ht ht' => spell_parts (hvalid t ht) (hvalid t' ht')
  have hlexemes : ∀ l ∈ ts.map spell, IsLexeme continues l := by
    intro l hl
    obtain ⟨t, ht, rfl⟩ := List.mem_map.1 hl
    exact spell_isLexeme (hvalid t ht)
  rw [tokens, List.flatMap_def, lexemes_flatten hlexemes hparts, mapM_token hvalid]

end Spelling

section Phrases

/-- Tokens that are one operand wherever they stand between brackets and operators. -/
structure Phrase (ts : List Lexeme) (x : Expression) : Prop where
  operand : Operand operators ts x
  valid : ∀ t ∈ ts, Valid t
  chain : ts.IsChain Adjacent
  first : ∀ t ∈ ts.head?, kind t ≠ .operator
  last : ∀ t ∈ ts.getLast?, kind t ≠ .operator

/-- Tokens that are one expression between brackets. -/
structure Clause (ts : List Lexeme) (x : Expression) : Prop where
  enclosed : Enclosed operators ts x
  valid : ∀ t ∈ ts, Valid t
  chain : ts.IsChain Adjacent

variable {ts ts' : List Lexeme} {x y : Expression}

theorem Phrase.parse (h : Phrase ts x) : parseExpression (ts.flatMap spell) = some x := by
  rw [parseExpression, tokens_spell h.valid h.chain]
  exact h.operand.parse

theorem Phrase.clause (h : Phrase ts x) : Clause ts x := ⟨h.operand.enclosed, h.valid, h.chain⟩

theorem phrase_atom {w : List Char} (h : IsWord w) : Phrase [.atom w] (.atom w) where
  operand := operand_atom w
  valid := by simpa [Valid] using h
  chain := List.isChain_singleton _
  first := by simp [kind]
  last := by simp [kind]

/-- Brackets stay apart from what they enclose. -/
theorem chain_enclose {o c : Lexeme} (ho : kind o = .bracket) (hc : kind c = .bracket)
    (h : ts.IsChain Adjacent) : (o :: (ts ++ [c])).IsChain Adjacent := by
  refine List.isChain_cons.2 ⟨fun t _ => .inl ho, List.isChain_append.2 ⟨h, ?_, ?_⟩⟩
  · exact List.isChain_singleton c
  · intro t _ t' ht'
    obtain rfl : c = t' := by simpa using ht'
    exact .inr (.inl hc)

theorem valid_enclose {o c : Lexeme} (ho : Valid o) (hc : Valid c) (h : ∀ t ∈ ts, Valid t) :
    ∀ t ∈ o :: (ts ++ [c]), Valid t := by
  intro t ht
  simp only [List.mem_cons, List.mem_append, List.not_mem_nil, or_false] at ht
  rcases ht with rfl | ht | rfl
  · exact ho
  · exact h t ht
  · exact hc

theorem last_enclose {o c : Lexeme} (hc : kind c = .bracket) :
    ∀ t ∈ (o :: (ts ++ [c])).getLast?, kind t ≠ .operator := by
  intro t ht
  obtain rfl : c = t := by simpa [List.getLast?_cons] using ht
  rw [hc]
  decide

theorem Clause.paren (h : Clause ts x) :
    Phrase (.openParen :: (ts ++ [.closeParen])) (.paren x) where
  operand := h.enclosed.paren
  valid := valid_enclose trivial trivial h.valid
  chain := chain_enclose rfl rfl h.chain
  first := by simp [kind]
  last := last_enclose rfl

theorem Clause.call {f : List Char} (hf : IsWord f) (h : Clause ts x) :
    Phrase (.atom f :: .openParen :: (ts ++ [.closeParen])) (.call (.atom f) x) where
  operand := h.enclosed.call f
  valid := List.forall_mem_cons.2 ⟨hf, valid_enclose trivial trivial h.valid⟩
  chain := List.isChain_cons_cons.2 ⟨.inr (.inl rfl), chain_enclose rfl rfl h.chain⟩
  first := by simp [kind]
  last := by
    rw [List.getLast?_cons_cons]
    exact last_enclose rfl

theorem Clause.index {a : List Char} (ha : IsWord a) (h : Clause ts x) :
    Phrase (.atom a :: .openBracket :: (ts ++ [.closeBracket])) (.index (.atom a) x) where
  operand := h.enclosed.index a
  valid := List.forall_mem_cons.2 ⟨ha, valid_enclose trivial trivial h.valid⟩
  chain := List.isChain_cons_cons.2 ⟨.inr (.inl rfl), chain_enclose rfl rfl h.chain⟩
  first := by simp [kind]
  last := by
    rw [List.getLast?_cons_cons]
    exact last_enclose rfl

theorem Phrase.unary {p : Symbol} {o : UnaryOperator} (hp : p.unary = some o)
    (h : Phrase ts x) : Clause (.symbol p :: ts) (.unary o x) where
  enclosed := h.operand.unary hp
  valid := List.forall_mem_cons.2 ⟨trivial, h.valid⟩
  chain := by
    refine List.isChain_cons.2 ⟨fun t ht => .inr (.inr ?_), h.chain⟩
    have hkind : kind (.symbol p) = .operator := by cases p <;> first | rfl | cases hp
    rw [hkind]
    exact (h.first t ht).symm

/-- An operator stays apart from the operands around it. -/
theorem chain_between {p : Symbol} (hts : ts.IsChain Adjacent) (hts' : ts'.IsChain Adjacent)
    (hlast : kind (.symbol p) = .operator → ∀ t ∈ ts.getLast?, kind t ≠ .operator)
    (hfirst : ∀ t ∈ ts'.head?, kind t ≠ .operator) :
    (ts ++ .symbol p :: ts').IsChain Adjacent := by
  have hp : kind (.symbol p) = .bracket ∨ kind (.symbol p) = .operator := by
    cases p <;> first | exact .inl rfl | exact .inr rfl
  refine List.isChain_append.2
    ⟨hts, List.isChain_cons.2 ⟨fun t ht => ?_, hts'⟩, fun t ht t' ht' => ?_⟩
  · rcases hp with hp | hp
    · exact .inl hp
    · exact .inr (.inr (hp ▸ (hfirst t ht).symm))
  · obtain rfl : .symbol p = t' := by simpa using ht'
    rcases hp with hp | hp
    · exact .inr (.inl hp)
    · exact .inr (.inr (hp ▸ hlast hp t ht))

theorem valid_between {p : Symbol} (h : ∀ t ∈ ts, Valid t) (h' : ∀ t ∈ ts', Valid t) :
    ∀ t ∈ ts ++ .symbol p :: ts', Valid t :=
  List.forall_mem_append.2 ⟨h, List.forall_mem_cons.2 ⟨trivial, h'⟩⟩

theorem Phrase.binary {p : Symbol} {o : BinaryOperator} (hp : p.binary = some o)
    (h : Phrase ts x) (h' : Phrase ts' y) : Clause (ts ++ .symbol p :: ts') (.binary o x y) where
  enclosed := h.operand.binary h'.operand hp
  valid := valid_between h.valid h'.valid
  chain := chain_between h.chain h'.chain (fun _ => h.last) h'.first

theorem Clause.comma (h : Clause ts x) (h' : Phrase ts' y) :
    Clause (ts ++ .symbol .comma :: ts') (.binary .comma x y) where
  enclosed := h.enclosed.binary h'.operand rfl rfl
  valid := valid_between h.valid h'.valid
  chain := chain_between h.chain h'.chain (fun hkind => absurd hkind (by decide)) h'.first

end Phrases

section Values

variable {φ : Type} {F : Floats φ} {names : List Char → Option (Value φ)}
  {memory : Nat → Nat → φ} {ts ts' : List Lexeme} {v v' r : Value φ} {vs : List (Value φ)}

/-- The tokens are one operand with the value `v`. -/
def Denotes (F : Floats φ) (names : List Char → Option (Value φ)) (memory : Nat → Nat → φ)
    (ts : List Lexeme) (v : Value φ) : Prop :=
  ∃ x, Phrase ts x ∧ evaluate F names memory x = some [v]

/-- The tokens are, between brackets, expressions with the values `vs`. -/
def Lists (F : Floats φ) (names : List Char → Option (Value φ)) (memory : Nat → Nat → φ)
    (ts : List Lexeme) (vs : List (Value φ)) : Prop :=
  ∃ x, Clause ts x ∧ evaluate F names memory x = some vs

theorem Denotes.lists (h : Denotes F names memory ts v) : Lists F names memory ts [v] := by
  obtain ⟨x, hphrase, hvalue⟩ := h
  exact ⟨x, hphrase.clause, hvalue⟩

theorem denotes_literal {w : List Char} (h : IsWord w) (hdigit : w.head?.any Char.isDigit = true) :
    Denotes F names memory [.atom w] (.float (F.literal w)) :=
  ⟨_, phrase_atom h, by rw [evaluate, if_pos hdigit]⟩

theorem denotes_name {w : List Char} (h : IsWord w) (hdigit : w.head?.any Char.isDigit = false)
    (hname : names w = some v) : Denotes F names memory [.atom w] v :=
  ⟨_, phrase_atom h, by rw [evaluate, hdigit, if_neg Bool.false_ne_true, hname]; rfl⟩

theorem Lists.paren (h : Lists F names memory ts [v]) :
    Denotes F names memory (.openParen :: (ts ++ [.closeParen])) v := by
  obtain ⟨x, hclause, hvalue⟩ := h
  exact ⟨_, hclause.paren, by rw [evaluate, hvalue]; rfl⟩

theorem Lists.call {f : List Char} (hf : IsWord f) (h : Lists F names memory ts vs)
    (hr : applyFunction F f vs = some r) :
    Denotes F names memory (.atom f :: .openParen :: (ts ++ [.closeParen])) r := by
  obtain ⟨x, hclause, hvalue⟩ := h
  refine ⟨_, hclause.call hf, ?_⟩
  rw [evaluate, hvalue]
  exact congrArg (Option.bind · fun v => some [v]) hr

theorem Denotes.index {a : List Char} {data i : Nat} (ha : IsWord a)
    (hdigit : a.head?.any Char.isDigit = false) (hname : names a = some (.buffer data))
    (h : Denotes F names memory ts (.position i)) :
    Denotes F names memory (.atom a :: .openBracket :: (ts ++ [.closeBracket]))
      (.float (memory data i)) := by
  obtain ⟨x, hphrase, hvalue⟩ := h
  refine ⟨_, hphrase.clause.index ha, ?_⟩
  rw [evaluate, evaluate, hdigit, if_neg Bool.false_ne_true, hname, hvalue]
  rfl

theorem Denotes.unary {p : Symbol} {o : UnaryOperator} (hp : p.unary = some o)
    (h : Denotes F names memory ts v) (hr : applyUnary F o v = some r) :
    Lists F names memory (.symbol p :: ts) [r] := by
  obtain ⟨x, hphrase, hvalue⟩ := h
  refine ⟨_, hphrase.unary hp, ?_⟩
  rw [evaluate, hvalue]
  exact congrArg (Option.bind · fun v => some [v]) hr

theorem Denotes.binary {p : Symbol} {o : BinaryOperator} (hp : p.binary = some o)
    (h : Denotes F names memory ts v) (h' : Denotes F names memory ts' v')
    (hr : applyBinary F o v v' = some r) :
    Lists F names memory (ts ++ .symbol p :: ts') [r] := by
  obtain ⟨x, hphrase, hvalue⟩ := h
  obtain ⟨y, hphrase', hvalue'⟩ := h'
  refine ⟨_, hphrase.binary hp hphrase', ?_⟩
  have ho : o ≠ .comma := by rintro rfl; cases hr
  rw [evaluate, hvalue, hvalue']
  · exact congrArg (Option.bind · fun v => some [v]) hr
  · exact ho

theorem Lists.comma (h : Lists F names memory ts vs) (h' : Denotes F names memory ts' v) :
    Lists F names memory (ts ++ .symbol .comma :: ts') (vs ++ [v]) := by
  obtain ⟨x, hclause, hvalue⟩ := h
  obtain ⟨y, hphrase, hvalue'⟩ := h'
  exact ⟨_, hclause.comma hphrase, by rw [evaluate, hvalue, hvalue']; rfl⟩

end Values

section Names

variable {φ : Type} {F : Floats φ} {names : List Char → Option (Value φ)}
  {memory : Nat → Nat → φ} {x : Expression} {vs : List (Value φ)}

/-- What can be called. -/
def functionNames : List (List Char) :=
  ["float".toList, "bool".toList, "fma".toList, "select".toList] ++
    Function1.all.map (fun g => g.name.toList) ++ Function2.all.map (fun g => g.name.toList)

theorem applyFunction_name {f : List Char} {r : Value φ} (h : applyFunction F f vs = some r) :
    f ∈ functionNames := by
  rw [applyFunction.eq_def] at h
  split at h
  · split at h <;> simp_all [functionNames]
  · split at h
    · simp_all [functionNames]
    · obtain ⟨g, hg, -⟩ := Option.map_eq_some_iff.1 h
      have hname : g.name.toList = f := by simpa using List.find?_some hg
      exact List.mem_append_left _
        (List.mem_append_right _ (List.mem_map.2 ⟨g, List.mem_of_find?_eq_some hg, hname⟩))
  · obtain ⟨g, hg, -⟩ := Option.map_eq_some_iff.1 h
    have hname : g.name.toList = f := by simpa using List.find?_some hg
    exact List.mem_append_right _ (List.mem_map.2 ⟨g, List.mem_of_find?_eq_some hg, hname⟩)
  · split at h <;> simp_all [functionNames]
  · split at h <;> simp_all [functionNames]
  · cases h

/-- In an expression with a value every atom is a number, bound or called. -/
theorem evaluate_atoms (h : evaluate F names memory x = some vs) {w : List Char}
    (hw : w ∈ x.atoms) :
    w.head?.any Char.isDigit = true ∨ (names w).isSome = true ∨ w ∈ functionNames := by
  induction x generalizing vs with
  | atom a =>
      obtain rfl : w = a := by simpa [Tree.atoms] using hw
      by_cases hdigit : w.head?.any Char.isDigit = true
      · exact .inl hdigit
      · rw [evaluate, if_neg hdigit, Option.map_eq_some_iff] at h
        obtain ⟨v, hv, -⟩ := h
        exact .inr (.inl (Option.isSome_of_eq_some hv))
  | paren x ih =>
      obtain ⟨us, hus, -⟩ := Option.bind_eq_some_iff.1 h
      exact ih hus hw
  | unary o x ih =>
      obtain ⟨us, hus, -⟩ := Option.bind_eq_some_iff.1 h
      exact ih hus hw
  | binary o x y ihx ihy =>
      have hparts : ∃ us us', evaluate F names memory x = some us ∧
          evaluate F names memory y = some us' := by
        by_cases ho : o = .comma
        · subst ho
          obtain ⟨us, hus, hrest⟩ := Option.bind_eq_some_iff.1 h
          obtain ⟨us', hus', -⟩ := Option.bind_eq_some_iff.1 hrest
          exact ⟨us, us', hus, hus'⟩
        · rw [evaluate] at h
          · obtain ⟨us, hus, hrest⟩ := Option.bind_eq_some_iff.1 h
            obtain ⟨v, -, hrest'⟩ := Option.bind_eq_some_iff.1 hrest
            obtain ⟨us', hus', -⟩ := Option.bind_eq_some_iff.1 hrest'
            exact ⟨us, us', hus, hus'⟩
          · exact ho
      obtain ⟨us, us', hus, hus'⟩ := hparts
      rcases List.mem_append.1 hw with hw | hw
      · exact ihx hus hw
      · exact ihy hus' hw
  | call f x _ ih =>
      cases f with
      | atom a =>
          obtain ⟨us, hus, hrest⟩ := Option.bind_eq_some_iff.1 h
          obtain ⟨r, hr, -⟩ := Option.bind_eq_some_iff.1 hrest
          rcases List.mem_cons.1 hw with rfl | hw
          · exact .inr (.inr (applyFunction_name hr))
          · exact ih hus hw
      | _ => cases h
  | index a x iha ihx =>
      obtain ⟨us, hus, hrest⟩ := Option.bind_eq_some_iff.1 h
      obtain ⟨v, -, hrest'⟩ := Option.bind_eq_some_iff.1 hrest
      obtain ⟨us', hus', -⟩ := Option.bind_eq_some_iff.1 hrest'
      rcases List.mem_append.1 hw with hw | hw
      · exact iha hus hw
      · exact ihx hus' hw

end Names

end Vectorization.Metal
