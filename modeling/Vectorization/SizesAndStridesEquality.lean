/-
`operator==` of `sizes_and_strides`.  Out of line it compares the sizes and the
strides; inline it compares the whole union, with the words that are not in use.
-/
import Vectorization.SizesAndStridesRefusal

namespace Vectorization.SizesAndStrides

open BlockStore AtomicRun Outcome

/-- The bits of a word, with the null pointer as zero. -/
def Word.bits (address : Nat → Int) : Word → Int
  | value v => v
  | pointer none => 0
  | pointer (some b) => address b

/-- `memcmp` of `count` words. -/
def sameWords (address : Nat → Int) (count : Nat) (words words' : Nat → Word) : Bool :=
  (List.range count).all fun k => (words k).bits address == (words' k).bits address

/-- `operator==`. -/
def equal (address : Nat → Int) (id other : Nat) : Method Bool := do
  let o ← getObject id
  let r ← getObject other
  if o.size ≠ r.size then return false
  if o.isInline then
    let words ← readInline id 0 (2 * maxInlineSize)
    let words' ← readInline other 0 (2 * maxInlineSize)
    return sameWords address (2 * maxInlineSize) words words'
  else
    let words ← readBlock (← outOfLineStorage id) 0 (storageWords o.size)
    let words' ← readBlock (← outOfLineStorage other) 0 (storageWords o.size)
    return sameWords address (storageWords o.size) words words'

/-- `operator!=`. -/
def notEqual (address : Nat → Int) (id other : Nat) : Method Bool := do
  return !(← equal address id other)

section Comparison

variable {address : Nat → Int} {m : Machine} {σ : Shapes} {id other : Nat}

theorem sameWords_iff {count : Nat} {words words' : Nat → Word} :
    sameWords address count words words' = true ↔
      ∀ k < count, (words k).bits address = (words' k).bits address := by
  simp [sameWords]

/-- The unused words of two inline objects of one length, in both halves. -/
def SpareAgree (address : Nat → Int) (o r : Object) : Prop :=
  ∀ k, o.size ≤ k → k < maxInlineSize →
    (o.storage.cell k).bits address = (r.storage.cell k).bits address ∧
    (o.storage.cell (maxInlineSize + k)).bits address =
      (r.storage.cell (maxInlineSize + k)).bits address

/-- The words in use, as a buffer with strides from `start` on holds them. -/
def LiveAgree (address : Nat → Int) (n start : Nat) (content content' : Block Word) : Prop :=
  ∀ k < n, (content.cell k).bits address = (content'.cell k).bits address ∧
    (content.cell (start + k)).bits address = (content'.cell (start + k)).bits address

theorem list_eq_iff_getD {l l' : List Int} (hlen : l.length = l'.length) :
    l = l' ↔ ∀ k < l.length, l.getD k 0 = l'.getD k 0 := by
  constructor
  · rintro rfl k -
    rfl
  · intro h
    refine List.ext_getElem hlen fun k hk hk' => ?_
    have hget := h k hk
    rwa [List.getD_eq_getElem _ _ hk, List.getD_eq_getElem _ _ hk'] at hget

/-- Two buffers agree on the words in use just when they hold one shape. -/
theorem Reads.liveAgree_iff {content content' : Block Word} {start : Nat} {g g' : Shape}
    (h : Reads content start g) (h' : Reads content' start g') (hlen : g.length = g'.length) :
    LiveAgree address g.length start content content' ↔ g = g' := by
  have hiff : LiveAgree address g.length start content content' ↔
      ∀ k < g.length, g.sizes.getD k 0 = g'.sizes.getD k 0 ∧
        g.strides.getD k 0 = g'.strides.getD k 0 := by
    refine forall₂_congr fun k hk => ?_
    rw [(h k hk).1, (h k hk).2, (h' k (hlen ▸ hk)).1, (h' k (hlen ▸ hk)).2]
    rfl
  have hsizes : g.sizes = g'.sizes ↔ ∀ k < g.length, g.sizes.getD k 0 = g'.sizes.getD k 0 :=
    list_eq_iff_getD hlen
  have hstrides : g.strides = g'.strides ↔
      ∀ k < g.length, g.strides.getD k 0 = g'.strides.getD k 0 := by
    rw [Shape.length, g.length_eq]
    exact list_eq_iff_getD (g.length_eq.symm.trans (hlen.trans g'.length_eq))
  rw [hiff, forall₂_and, ← hsizes, ← hstrides]
  cases g
  cases g'
  simp only [Shape.mk.injEq]

theorem forall_lt_two_mul {n : Nat} {P : Nat → Prop} :
    (∀ k < 2 * n, P k) ↔ ∀ k < n, P k ∧ P (n + k) := by
  constructor
  · intro h k hk
    exact ⟨h k (by omega), h (n + k) (by omega)⟩
  · intro h k hk
    by_cases hlt : k < n
    · exact (h k hlt).1
    · have hsplit : n + (k - n) = k := by omega
      exact hsplit ▸ (h (k - n) (by omega)).2

/-- The ten inline words are those in use and the others. -/
theorem sameWords_inline_iff {o r : Object} (hle : o.size ≤ maxInlineSize) :
    sameWords address (2 * maxInlineSize) o.storage.cell r.storage.cell = true ↔
      LiveAgree address o.size maxInlineSize o.storage r.storage ∧ SpareAgree address o r := by
  rw [sameWords_iff, forall_lt_two_mul]
  constructor
  · intro h
    exact ⟨fun k hk => h k (hk.trans_le hle), fun k _ hk => h k hk⟩
  · rintro ⟨hlive, hspare⟩ k hk
    by_cases hlt : k < o.size
    · exact hlive k hlt
    · exact hspare k (Nat.le_of_not_lt hlt) hk

theorem Represents.shape (h : Represents m σ) {o : Object} (ho : m.objects id = some o) :
    ∃ g, σ id = some g ∧ Holds m.blocks o g := by
  cases hg : σ id with
  | none =>
      rw [h.absent hg] at ho
      cases ho
  | some g =>
      obtain ⟨o', ho', hold⟩ := h.object hg
      rw [ho] at ho'
      cases ho'
      exact ⟨g, rfl, hold⟩

/-- What comparison returns; it changes nothing. -/
theorem equal_ok (address : Nat → Int) (h : Represents m σ) {o r : Object}
    (ho : m.objects id = some o) (hr : m.objects other = some r) :
    ∃ same, equal address id other m = .ok same m ∧
      (same = true ↔ σ id = σ other ∧ (o.isInline = true → SpareAgree address o r)) := by
  obtain ⟨g, hg, hold⟩ := h.shape ho
  obtain ⟨g', hg', hold'⟩ := h.shape hr
  rw [equal, bind_of_ok (getObject_ok ho), bind_of_ok (getObject_ok hr), hg, hg',
    Option.some_inj]
  by_cases hsize : o.size = r.size
  · have hlen : g.length = g'.length := hold.size_eq.symm.trans (hsize.trans hold'.size_eq)
    rw [if_neg (not_not.2 hsize)]
    cases hin : o.isInline with
    | true =>
        have hin' : r.isInline = true := by rwa [Object.isInline, ← hsize]
        have hiff : LiveAgree address g.length maxInlineSize o.storage r.storage ↔ g = g' :=
          (hold.inline hin).liveAgree_iff (hold'.inline hin') hlen
        rw [if_pos rfl, bind_of_ok (readInline_ok ho (by rw [hold.storage_length, Nat.zero_add])),
          bind_of_ok (readInline_ok hr (by rw [hold'.storage_length, Nat.zero_add]))]
        refine ⟨_, rfl, ?_⟩
        simp only [Nat.zero_add]
        rw [sameWords_inline_iff (of_decide_eq_true hin), hold.size_eq, hiff]
        exact and_congr_right fun _ => ⟨fun h _ => h, fun h => h trivial⟩
    | false =>
        have hin' : r.isInline = false := by rwa [Object.isInline, ← hsize]
        obtain ⟨b, content, hcell, hblock, hclen, hreads⟩ := hold.outline hin
        obtain ⟨b', content', hcell', hblock', hclen', hreads'⟩ := hold'.outline hin'
        rw [hold.size_eq] at hclen hreads
        rw [hold'.size_eq, ← hlen] at hclen' hreads'
        rw [if_neg (by decide), hold.size_eq, storageWords_of_lt hold.size_lt,
          bind_of_ok (outOfLineStorage_ok ho hcell),
          bind_of_ok (readBlock_ok hblock (by rw [hclen, Nat.zero_add])),
          bind_of_ok (outOfLineStorage_ok hr hcell'),
          bind_of_ok (readBlock_ok hblock' (by rw [hclen', Nat.zero_add]))]
        refine ⟨_, rfl, ?_⟩
        simp only [Nat.zero_add]
        rw [sameWords_iff, forall_lt_two_mul]
        exact (hreads.liveAgree_iff hreads' hlen).trans
          ⟨fun h => ⟨h, fun hin => by cases hin⟩, fun h => h.1⟩
  · rw [if_pos hsize]
    refine ⟨false, rfl, fun h => Bool.noConfusion h, ?_⟩
    rintro ⟨rfl, -⟩
    exact absurd (hold.size_eq.trans hold'.size_eq.symm) hsize

end Comparison

section Canonical

variable {address : Nat → Int} {supply : Supply Word} {m m' : Machine} {σ σ' : Shapes}
  {o r : Object} {id rhs : Nat}

/-- A word of zero bits. -/
def Word.IsZero (w : Word) : Prop := w = .value 0 ∨ w = .pointer none

theorem Word.IsZero.bits_eq {w : Word} (h : w.IsZero) : w.bits address = 0 := by
  rcases h with rfl | rfl <;> rfl

/-- The inline words that are not in use are zero. -/
def Object.Canonical (o : Object) : Prop :=
  ∀ k, o.size ≤ k → k < maxInlineSize →
    (o.storage.cell k).IsZero ∧ (o.storage.cell (maxInlineSize + k)).IsZero

def Machine.Canonical (m : Machine) : Prop := ∀ id o, m.objects id = some o → o.Canonical

theorem Object.Canonical.spareAgree (h : o.Canonical) (h' : r.Canonical)
    (hsize : o.size = r.size) : SpareAgree address o r := by
  intro k hle hlt
  have hzero := h k hle hlt
  have hzero' := h' k (hsize ▸ hle) hlt
  rw [hzero.1.bits_eq, hzero.2.bits_eq, hzero'.1.bits_eq, hzero'.2.bits_eq]
  exact ⟨rfl, rfl⟩

theorem canonical_of_large (hlarge : maxInlineSize ≤ o.size) : o.Canonical :=
  fun _ hle hlt => absurd (hlarge.trans hle) (Nat.not_le_of_lt hlt)

theorem canonical_withObject (h : m.Canonical) (ho : o.Canonical) :
    (m.withObject id o).Canonical := by
  intro i o' ho'
  by_cases hi : i = id
  · rw [hi, Machine.withObject_self, Option.some_inj] at ho'
    rwa [← ho']
  · rw [Machine.withObject_ne m hi] at ho'
    exact h i o' ho'

theorem canonical_withBlocks (h : m.Canonical) (s : Blocks Word) :
    (m.withBlocks s).Canonical := h

theorem canonical_of_frame (h : m.Canonical) (hframe : ∀ i ≠ id, m'.objects i = m.objects i)
    (hid : ∀ o, m'.objects id = some o → o.Canonical) : m'.Canonical := by
  intro i o ho
  by_cases hi : i = id
  · exact hid o (hi ▸ ho)
  · rw [hframe i hi] at ho
    exact h i o ho

/-- A call that leaves its object without unused inline words. -/
theorem canonical_of_outline (h : m.Canonical) (h' : Represents m' σ') {g : Shape}
    (hg : σ' id = some g) (hlarge : maxInlineSize ≤ g.length)
    (hframe : ∀ i ≠ id, m'.objects i = m.objects i) : m'.Canonical := by
  refine canonical_of_frame h hframe fun o ho => ?_
  obtain ⟨g', hg', hold⟩ := h'.shape ho
  rw [hg, Option.some_inj] at hg'
  rw [hg'] at hlarge
  exact canonical_of_large (hlarge.trans_eq hold.size_eq.symm)

/-- The copy of an inline union has the words of the original. -/
theorem canonical_copy (h : r.Canonical) (content : Block Word) :
    Object.Canonical ⟨r.size, content.put 0 (2 * maxInlineSize) r.storage.cell⟩ := by
  intro k hle hlt
  have hcell : ∀ k < 2 * maxInlineSize,
      (content.put 0 (2 * maxInlineSize) r.storage.cell).cell k = r.storage.cell k := by
    intro k hk
    have hinside := content.put_inside 0 r.storage.cell hk
    rwa [Nat.zero_add] at hinside
  rw [hcell k (by omega), hcell (maxInlineSize + k) (by omega)]
  exact h k hle hlt

/-- The entries from `n` on that have a word inline are zero. -/
def DropsZeros (g : Shape) (n : Nat) : Prop :=
  ∀ k, n ≤ k → k < maxInlineSize → g.sizes.getD k 0 = 0 ∧ g.strides.getD k 0 = 0

/-- A shape without entries is left behind on zeros: all entries are zero, or, out of
line, the words of the union that the pointer does not cover. -/
def MovesZeros (m : Machine) (σ : Shapes) (rhs : Nat) : Prop :=
  ∀ r g, m.objects rhs = some r → σ rhs = some g →
    if r.isInline then DropsZeros g 0
    else ∀ k, 0 < k → k < 2 * maxInlineSize → (r.storage.cell k).IsZero

/-- The words that a call takes out of use are zero. -/
def LeavesZeros (m : Machine) (σ : Shapes) : Op → Prop
  | .resize id n => ∀ g, σ id = some g → DropsZeros g n
  | .setSizes id sizes => ∀ g, σ id = some g → DropsZeros g sizes.length
  | .moveConstruct _ rhs => MovesZeros m σ rhs
  | .moveAssign id rhs => id = rhs ∨ MovesZeros m σ rhs
  | _ => True

theorem DropsZeros.words {g : Shape} {n k : Nat} (h : DropsZeros g n) (hle : n ≤ k)
    (hlt : k < maxInlineSize) :
    (wordsOf g.sizes k).IsZero ∧ (wordsOf g.strides k).IsZero :=
  ⟨Or.inl (congrArg Word.value (h k hle hlt).1), Or.inl (congrArg Word.value (h k hle hlt).2)⟩

/-- A shorter length over the same inline words. -/
theorem canonical_shrink {g : Shape} {n : Nat} (h : o.Canonical)
    (hreads : Reads o.storage maxInlineSize g) (hsize : o.size = g.length)
    (hdrops : DropsZeros g n) : Object.Canonical { o with size := n } := by
  intro k hle hlt
  by_cases hlive : k < g.length
  · rw [(hreads k hlive).1, (hreads k hlive).2]
    exact hdrops.words hle hlt
  · exact h k (by omega) hlt

/-- The source of a move keeps its words, or those behind a null pointer. -/
theorem canonical_moved {g : Shape} (h : Represents m σ) (hc : m.Canonical)
    (hr : m.objects rhs = some r) (hg : σ rhs = some g) (hzeros : MovesZeros m σ rhs) :
    (r.isInline = true → Object.Canonical { r with size := 0 }) ∧
      (r.isInline = false →
        Object.Canonical ⟨0, r.storage.put 0 1 fun _ => .pointer none⟩) := by
  obtain ⟨g', hg', hold⟩ := h.shape hr
  rw [hg, Option.some_inj] at hg'
  subst hg'
  have hmoves := hzeros r g hr hg
  constructor
  · intro hin
    rw [if_pos hin] at hmoves
    exact canonical_shrink (hc rhs r hr) (hold.inline hin) hold.size_eq hmoves
  · intro hin k _ hlt
    rw [hin, if_neg (by decide)] at hmoves
    have hcell : ∀ k < 2 * maxInlineSize,
        ((r.storage.put 0 1 fun _ => .pointer none).cell k).IsZero := by
      intro k hk
      by_cases hzero : k = 0
      · subst hzero
        exact Or.inr rfl
      · rw [Block.put_outside r.storage _ (Or.inr (by omega))]
        exact hmoves k (Nat.pos_of_ne_zero hzero) hk
    exact ⟨hcell k (by omega), hcell (maxInlineSize + k) (by omega)⟩

theorem canonical_defaultConstruct (hc : m.Canonical) :
    (m.withObject id ⟨1, (zeroed.put 0 1 fun _ => .value 0).put maxInlineSize 1
      fun _ => .value 1⟩).Canonical := by
  refine canonical_withObject hc fun k hle hlt => ?_
  replace hle : 1 ≤ k := hle
  rw [Block.put_outside _ _ (Or.inl hlt), Block.put_outside _ _ (Or.inr (by omega)),
    Block.put_outside _ _ (Or.inr (by omega)), Block.put_outside _ _ (Or.inr (by omega))]
  exact ⟨Or.inl rfl, Or.inl rfl⟩

theorem canonical_resize (hgrants : ∀ k, supply.grants k = true) (h : Represents m σ)
    (hc : m.Canonical) {g : Shape} {n : Nat} (hg : σ id = some g) (hdrops : DropsZeros g n)
    (hrun : resize supply id n m = .ok () m') : m'.Canonical := by
  obtain ⟨o, ho, hold⟩ := h.object hg
  have hsize := hold.size_eq
  by_cases hlarge : maxInlineSize ≤ n
  · obtain ⟨m'', hrun', h'⟩ :=
      resize_refines hgrants h hg (resize_small hgrants h hg hrun)
    rw [hrun] at hrun'
    cases hrun'
    exact canonical_of_outline hc h' (Function.update_self ..)
      (hlarge.trans_eq (g.resize_length n).symm) (serves_resize.frame (hgrants _) hrun)
  rw [Nat.not_le] at hlarge
  rcases Nat.lt_trichotomy o.size n with hlt | rfl | hgt
  · have hin : o.isInline = true := decide_eq_true (by omega)
    rw [resize_inline_grow ho hold.storage_length hin hlarge.le hlt] at hrun
    cases hrun
    refine canonical_withObject hc fun k hle hk => ?_
    replace hle : n ≤ k := hle
    rw [Block.put_outside _ _ (Or.inl (by omega)), Block.put_outside _ _ (Or.inr (by omega)),
      Block.put_outside _ _ (Or.inr (by omega)), Block.put_outside _ _ (Or.inr (by omega))]
    exact hc id o ho k (by omega) hk
  · rw [resize, bind_of_ok (getObject_ok ho)] at hrun
    dsimp only at hrun
    rw [if_pos rfl] at hrun
    cases hrun
    exact hc
  · cases hin : o.isInline with
    | true =>
        rw [resize_inline_shrink ho hin hgt] at hrun
        cases hrun
        exact canonical_withObject hc
          (canonical_shrink (hc id o ho) (hold.inline hin) hsize hdrops)
    | false =>
        obtain ⟨b, content, hcell, hblock, hclen, hreads⟩ := hold.outline hin
        have hout : maxInlineSize < o.size := Nat.lt_of_not_le (of_decide_eq_false hin)
        rw [resize, bind_of_ok (getObject_ok ho)] at hrun
        dsimp only at hrun
        rw [if_neg (by omega), if_neg (by simp [hin]),
          resize_shrink_inline ho hold.storage_length hout hcell hblock hclen hlarge.le] at hrun
        cases hrun
        refine canonical_withBlocks (canonical_withObject hc fun k hle hk => ?_) _
        have hwords := hdrops.words hle hk
        have hlive : k < g.length := by omega
        rw [← (hreads k hlive).1, ← (hreads k hlive).2] at hwords
        simp only [Block.put_cell]
        rw [if_neg (by omega), if_pos (by omega), if_pos (by omega)]
        simpa using hwords

/-- Stores among the words in use. -/
theorem canonical_put (hc : o.Canonical) {first count : Nat} (source : Nat → Word)
    (hlive : first + count ≤ o.size ∨
      maxInlineSize ≤ first ∧ first + count ≤ maxInlineSize + o.size) :
    Object.Canonical { o with storage := o.storage.put first count source } := by
  intro k hle hlt
  replace hle : o.size ≤ k := hle
  rw [Block.put_outside _ _ (by omega), Block.put_outside _ _ (by omega)]
  exact hc k hle hlt

/-- Words are written over live ones only, inline or out of line. -/
theorem canonical_write (hc : m.Canonical) (ho : m.objects id = some o) {g : Shape}
    (hold : Holds m.blocks o g) {first first' count : Nat} {source : Nat → Word}
    (hlive : first + count ≤ o.size ∨
      maxInlineSize ≤ first ∧ first + count ≤ maxInlineSize + o.size)
    (hlive' : first' + count ≤ 2 * o.size)
    (hrun : (if o.isInline then writeInline id first count source
      else do writeBlock (← outOfLineStorage id) first' count source) m = .ok () m') :
    m'.Canonical := by
  have hsize := hold.size_eq
  cases hin : o.isInline with
  | true =>
      have hinline := hold.length_le hin
      rw [hin, if_pos rfl, writeInline_ok ho (by rw [hold.storage_length]; omega)] at hrun
      cases hrun
      exact canonical_withObject hc (canonical_put (hc id o ho) _ hlive)
  | false =>
      obtain ⟨b, content, hcell, hb, hlen, -⟩ := hold.outline hin
      rw [hin, if_neg (by decide), bind_of_ok (outOfLineStorage_ok ho hcell),
        writeBlock_ok hb (by omega)] at hrun
      cases hrun
      exact canonical_withBlocks hc _

theorem canonical_writeSizes (h : Represents m σ) (hc : m.Canonical) {g : Shape} {k : Nat}
    {words : List Int} (hg : σ id = some g) (hle : k + words.length ≤ g.length)
    (hrun : writeSizes id k words m = .ok () m') : m'.Canonical := by
  obtain ⟨o, ho, hold⟩ := h.object hg
  have hsize := hold.size_eq
  rw [writeSizes, bind_of_ok (getObject_ok ho)] at hrun
  exact canonical_write hc ho hold (Or.inl (by omega)) (by omega) hrun

theorem canonical_writeStrides (h : Represents m σ) (hc : m.Canonical) {g : Shape} {k : Nat}
    {words : List Int} (hg : σ id = some g) (hle : k + words.length ≤ g.length)
    (hrun : writeStrides id k words m = .ok () m') : m'.Canonical := by
  obtain ⟨o, ho, hold⟩ := h.object hg
  have hsize := hold.size_eq
  rw [writeStrides, bind_of_ok (getObject_ok ho)] at hrun
  exact canonical_write hc ho hold (Or.inr (by omega)) (by omega) hrun

theorem canonical_copyConstruct (hgrants : ∀ k, supply.grants k = true) (h : Represents m σ)
    (hc : m.Canonical) {g : Shape} (hg : σ rhs = some g) (hnone : σ id = none)
    (hrun : copyConstruct supply id rhs m = .ok () m') : m'.Canonical := by
  obtain ⟨r, hr, hold⟩ := h.object hg
  cases hin : r.isInline with
  | true =>
      rw [copyConstruct_inline (h.absent hnone) hr hold.storage_length hin] at hrun
      cases hrun
      exact canonical_withObject hc (canonical_copy (hc rhs r hr) _)
  | false =>
      have hlarge : maxInlineSize < g.length :=
        hold.size_eq ▸ Nat.lt_of_not_le (of_decide_eq_false hin)
      obtain ⟨m'', hrun', h'⟩ := copyConstruct_refines hgrants h hg hnone
      rw [hrun] at hrun'
      cases hrun'
      exact canonical_of_outline hc h' (Function.update_self ..) hlarge.le
        (serves_copyConstruct.frame (hgrants _) hrun)

theorem canonical_copyAssign (hgrants : ∀ k, supply.grants k = true) (h : Represents m σ)
    (hc : m.Canonical) {g g₀ : Shape} (hg : σ rhs = some g) (hg₀ : σ id = some g₀)
    (hrun : copyAssign supply id rhs m = .ok () m') : m'.Canonical := by
  obtain ⟨r, hr, hold⟩ := h.object hg
  obtain ⟨o, ho, hold₀⟩ := h.object hg₀
  by_cases hid : id = rhs
  · rw [copyAssign, if_pos hid] at hrun
    cases hrun
    exact hc
  cases hin : r.isInline with
  | true =>
      obtain ⟨s, -, hrun'⟩ := copyAssign_inline supply hid hr hold.storage_length hin ho
        hold₀
      rw [hrun] at hrun'
      cases hrun'
      exact canonical_withBlocks (canonical_withObject hc (canonical_copy (hc rhs r hr) _)) s
  | false =>
      have hlarge : maxInlineSize < g.length :=
        hold.size_eq ▸ Nat.lt_of_not_le (of_decide_eq_false hin)
      obtain ⟨m'', hrun', h'⟩ := copyAssign_refines hgrants h hg hg₀
      rw [hrun] at hrun'
      cases hrun'
      exact canonical_of_outline hc h' (Function.update_self ..) hlarge.le
        (serves_copyAssign.frame (hgrants _) hrun)

theorem canonical_moveConstruct (h : Represents m σ) (hc : m.Canonical) {g : Shape}
    (hg : σ rhs = some g) (hnone : σ id = none) (hzeros : MovesZeros m σ rhs)
    (hrun : moveConstruct id rhs m = .ok () m') : m'.Canonical := by
  obtain ⟨r, hr, hold⟩ := h.object hg
  obtain ⟨hinline, houtline⟩ := canonical_moved h hc hr hg hzeros
  cases hin : r.isInline with
  | true =>
      rw [moveConstruct_inline (h.absent hnone) hr hold.storage_length hin] at hrun
      cases hrun
      exact canonical_withObject (canonical_withObject hc (canonical_copy (hc rhs r hr) _))
        (hinline hin)
  | false =>
      obtain ⟨b, content, hcell, -⟩ := hold.outline hin
      rw [moveConstruct_outline (h.absent hnone) hr hold.storage_length hin hcell] at hrun
      cases hrun
      have hlarge : Object.Canonical ⟨r.size, zeroed.put 0 1 fun _ => .pointer (some b)⟩ :=
        canonical_of_large (Nat.le_of_not_le (of_decide_eq_false hin))
      exact canonical_withObject (canonical_withObject hc hlarge) (houtline hin)

theorem canonical_moveAssign (h : Represents m σ) (hc : m.Canonical) {g g₀ : Shape}
    (hg : σ rhs = some g) (hg₀ : σ id = some g₀) (hzeros : id = rhs ∨ MovesZeros m σ rhs)
    (hrun : moveAssign id rhs m = .ok () m') : m'.Canonical := by
  obtain ⟨r, hr, hold⟩ := h.object hg
  obtain ⟨o, ho, hold₀⟩ := h.object hg₀
  by_cases hid : id = rhs
  · rw [moveAssign, if_pos hid] at hrun
    cases hrun
    exact hc
  obtain ⟨hinline, houtline⟩ := canonical_moved h hc hr hg (hzeros.resolve_left hid)
  cases hin : r.isInline with
  | true =>
      obtain ⟨s, -, hrun'⟩ := moveAssign_inline hid hr hold.storage_length hin ho hold₀
      rw [hrun] at hrun'
      cases hrun'
      exact canonical_withObject (canonical_withBlocks
        (canonical_withObject hc (canonical_copy (hc rhs r hr) _)) s) (hinline hin)
  | false =>
      obtain ⟨b, content, hcell, -⟩ := hold.outline hin
      obtain ⟨s, -, hrun'⟩ := moveAssign_outline hid hr hold.storage_length hin hcell ho hold₀
      rw [hrun] at hrun'
      cases hrun'
      have hlarge : Object.Canonical ⟨r.size, o.storage.put 0 1 fun _ => .pointer (some b)⟩ :=
        canonical_of_large (Nat.le_of_not_le (of_decide_eq_false hin))
      exact canonical_withBlocks
        (canonical_withObject (canonical_withObject hc hlarge) (houtline hin)) s

theorem canonical_destroy (h : Represents m σ) (hc : m.Canonical) {g : Shape}
    (hg : σ id = some g) (hrun : destroy id m = .ok () m') : m'.Canonical := by
  obtain ⟨o, ho, hold⟩ := h.object hg
  obtain ⟨s, -, hfreed⟩ := freed_ok ho hold fun _ =>
    (modify fun m => { m with objects := Function.update m.objects id none } : Method Unit)
  rw [destroy, bind_of_ok (getObject_ok ho)] at hrun
  dsimp only at hrun
  rw [hfreed] at hrun
  cases hrun
  have hframe : ∀ i ≠ id, Function.update m.objects id none i = m.objects i :=
    fun i hi => Function.update_of_ne hi ..
  refine canonical_of_frame hc hframe fun o' ho' => ?_
  replace ho' : Function.update m.objects id none id = some o' := ho'
  rw [Function.update_self] at ho'
  cases ho'

/-- A call that leaves only zeros behind keeps every object canonical. -/
theorem canonical_attempt (hgrants : ∀ k, supply.grants k = true) (h : Represents m σ)
    (hc : m.Canonical) {op : Op} (hop : op.shapes σ = some σ') (hzeros : LeavesZeros m σ op)
    (hrun : op.attempt supply m = .ok () m') : m'.Canonical := by
  have hreturned : ∀ {m''}, op.perform supply m = .ok () m'' →
      op.perform supply m = .ok () m' := by
    intro m'' hok
    rw [attempt_ok hok] at hrun
    cases hrun
    exact hok
  have hserved : ∀ {id}, Serves supply id (op.perform supply) →
      op.perform supply m = .ok () m' := fun hserves => hserves.performs op hgrants hrun
  cases op with
  | defaultConstruct id =>
      simp only [Op.shapes, Option.isNone_iff_eq_none, Option.ite_none_right_eq_some] at hop
      have hok := defaultConstruct_run (h.absent hop.1)
      cases hok.symm.trans (hreturned hok)
      exact canonical_defaultConstruct hc
  | copyConstruct id rhs =>
      simp only [Op.shapes, Option.bind_eq_bind, Option.bind_eq_some_iff,
        Option.isNone_iff_eq_none, Option.ite_none_right_eq_some] at hop
      obtain ⟨g, hg, hnone, -⟩ := hop
      exact canonical_copyConstruct hgrants h hc hg hnone (hserved serves_copyConstruct)
  | moveConstruct id rhs =>
      simp only [Op.shapes, Option.bind_eq_bind, Option.bind_eq_some_iff,
        Option.isNone_iff_eq_none, Option.ite_none_right_eq_some] at hop
      obtain ⟨g, hg, hnone, -⟩ := hop
      obtain ⟨m'', hok, -⟩ := moveConstruct_refines h hg hnone
      exact canonical_moveConstruct h hc hg hnone hzeros (hreturned hok)
  | copyAssign id rhs =>
      simp only [Op.shapes, Option.bind_eq_bind, Option.bind_eq_some_iff] at hop
      obtain ⟨g, hg, g₀, hg₀, -⟩ := hop
      exact canonical_copyAssign hgrants h hc hg hg₀ (hserved serves_copyAssign)
  | moveAssign id rhs =>
      simp only [Op.shapes, Option.bind_eq_bind, Option.bind_eq_some_iff] at hop
      obtain ⟨g, hg, g₀, hg₀, -⟩ := hop
      by_cases hid : id = rhs
      · have hok : moveAssign id rhs m = .ok () m := by
          rw [moveAssign, if_pos hid]
          rfl
        exact canonical_moveAssign h hc hg hg₀ hzeros (hreturned hok)
      · obtain ⟨m'', hok, -⟩ := moveAssign_refines h hid hg hg₀
        exact canonical_moveAssign h hc hg hg₀ hzeros (hreturned hok)
  | resize id n =>
      simp only [Op.shapes, Option.bind_eq_bind, Option.bind_eq_some_iff] at hop
      obtain ⟨g, hg, -⟩ := hop
      exact canonical_resize hgrants h hc hg (hzeros g hg) (hserved serves_resize)
  | setSizes id sizes =>
      simp only [Op.shapes, Option.bind_eq_bind, Option.bind_eq_some_iff] at hop
      obtain ⟨g, hg, -⟩ := hop
      obtain ⟨_, m₁, hresize, hwrite⟩ := bind_ok.1 (hserved (serves_setSizes sizes))
      have hsmall := resize_small hgrants h hg hresize
      obtain ⟨m₂, hok, h₁⟩ := resize_refines hgrants h hg hsmall
      rw [hresize] at hok
      cases hok
      exact canonical_writeSizes h₁ (canonical_resize hgrants h hc hg (hzeros g hg) hresize)
        (Function.update_self ..) (by rw [Nat.zero_add, g.resize_length]) hwrite
  | setStrides id strides =>
      simp only [Op.shapes, Option.bind_eq_bind, Option.bind_eq_some_iff] at hop
      obtain ⟨g, hg, -⟩ := hop
      obtain ⟨o, ho, hold⟩ := h.object hg
      by_cases hlength : strides.length = g.length
      · obtain ⟨m'', hok, -⟩ := setStrides_refines h hg hlength
        have hwrite := hreturned hok
        change setStrides id strides m = _ at hwrite
        rw [setStrides, bind_of_ok (getObject_ok ho)] at hwrite
        dsimp only at hwrite
        rw [hold.size_eq, if_neg (not_not.2 hlength)] at hwrite
        exact canonical_writeStrides h hc hg (by rw [Nat.zero_add, hlength]) hwrite
      · change EStateM.tryCatch (setStrides id strides) _ m = _ at hrun
        rw [EStateM.tryCatch, setStrides_refused h hg hlength] at hrun
        cases hrun
        exact hc
  | writeSize id k v =>
      simp only [Op.shapes, Option.bind_eq_bind, Option.bind_eq_some_iff,
        Option.ite_none_right_eq_some] at hop
      obtain ⟨g, hg, hk, -⟩ := hop
      exact canonical_writeSizes h hc hg hk (hserved (steady_writeSizes k [v]).serves)
  | writeStride id k v =>
      simp only [Op.shapes, Option.bind_eq_bind, Option.bind_eq_some_iff,
        Option.ite_none_right_eq_some] at hop
      obtain ⟨g, hg, hk, -⟩ := hop
      exact canonical_writeStrides h hc hg hk (hserved (steady_writeStrides k [v]).serves)
  | destroy id =>
      simp only [Op.shapes, Option.bind_eq_bind, Option.bind_eq_some_iff] at hop
      obtain ⟨g, hg, -⟩ := hop
      obtain ⟨m'', hok, -⟩ := destroy_refines h hg
      exact canonical_destroy h hc hg (hreturned hok)

end Canonical

section Runs

variable {address : Nat → Int} {supply : Supply Word} {m m' : Machine} {σ σ' : Shapes}
  {ops : List Op} {o r : Object} {id other : Nat}

/-- Every step of a program takes only zero words out of use. -/
def StepsLeaveZeros (supply : Supply Word) : List Op → Machine → Shapes → Prop
  | [], _, _ => True
  | op :: ops, m, σ => LeavesZeros m σ op ∧ ∀ m' σ', op.shapes σ = some σ' →
      op.attempt supply m = .ok () m' → StepsLeaveZeros supply ops m' σ'

theorem canonical_empty : Machine.empty.Canonical := fun _ _ ho => by cases ho

theorem runOps_canonical (h : Represents m σ) (hc : m.Canonical)
    (hsteps : StepsLeaveZeros supply ops m σ) (hops : shapesAfter ops σ = some σ')
    (hrun : runOps supply ops m = .ok () m') : m'.Canonical := by
  induction ops generalizing m σ with
  | nil =>
      cases hrun
      exact hc
  | cons op ops ih =>
      rw [shapesAfter, Option.bind_eq_bind, Option.bind_eq_some_iff] at hops
      obtain ⟨σ₁, hop, hrest⟩ := hops
      obtain ⟨_, m₁, hfirst, hrun⟩ := bind_ok.1 hrun
      have hgenerous := (attempt_agrees op).ok hfirst
      exact ih (attempt_represents h hop hfirst)
        (canonical_attempt (fun _ => rfl) h hc hop hsteps.1 hgenerous)
        (hsteps.2 m₁ σ₁ hop hfirst) hrest hrun

/-- In every state that a program reaches, comparison of two objects is comparison of
their lists just when equal inline objects agree in their unused words, and it is so for
any two objects when no step took a nonzero word out of use. -/
theorem equal_iff_shapes (hops : shapesAfter ops (fun _ => none) = some σ)
    (hrun : runOps supply ops .empty = .ok () m) (ho : m.objects id = some o)
    (hr : m.objects other = some r) (address : Nat → Int) :
    ReadsBack m σ ∧
    (∃ same, equal address id other m = .ok same m ∧ ((same = true ↔ σ id = σ other) ↔
      (σ id = σ other → o.isInline = true → SpareAgree address o r))) ∧
    (StepsLeaveZeros supply ops .empty (fun _ => none) →
      equal address id other m = .ok (decide (σ id = σ other)) m) := by
  have h : Represents m σ := (reached_of_runOps .start hops hrun).represents
  obtain ⟨same, hequal, hsame⟩ := equal_ok address h ho hr
  refine ⟨h.readsBack, ⟨same, hequal, ?_⟩, fun hsteps => ?_⟩
  · rw [hsame]
    constructor
    · intro hiff heq
      exact (hiff.2 heq).2
    · intro hspare
      exact ⟨fun hand => hand.1, fun heq => ⟨heq, hspare heq⟩⟩
  · have hc := runOps_canonical represents_empty canonical_empty hsteps hops hrun
    have hspare : σ id = σ other → o.isInline = true → SpareAgree address o r := by
      intro heq _
      obtain ⟨g, hg, hold⟩ := h.shape ho
      obtain ⟨g', hg', hold'⟩ := h.shape hr
      have hshape : g = g' := Option.some_inj.1 (hg.symm.trans (heq.trans hg'))
      refine (hc id o ho).spareAgree (hc other r hr) ?_
      rw [hold.size_eq, hold'.size_eq, hshape]
    have hdecide : same = decide (σ id = σ other) := by
      rw [Bool.eq_iff_iff, decide_eq_true_iff, hsame]
      exact ⟨fun hand => hand.1, fun heq => ⟨heq, hspare heq⟩⟩
    rw [hequal, hdecide]

end Runs

namespace EqualityWitness

open RefinementWitness

/-- One entry, through the heap and back, beside a new object. -/
def program : List Op :=
  [.defaultConstruct 0, .resize 0 6, .resize 0 1, .defaultConstruct 1]

theorem equal_iff_shapes_program : ∃ m, runOps granting program .empty = .ok () m ∧
    equal (fun _ => 8) 0 1 m = .ok true m := by
  refine ⟨_, rfl, (equal_iff_shapes (show shapesAfter program _ = some _ from rfl)
    (show runOps granting program .empty = .ok () _ from rfl) rfl rfl fun _ => 8).2.2 ?_⟩
  have hgrow : ∀ g, DropsZeros g 6 := fun g k hle hlt => absurd (hle.trans_lt hlt) (by decide)
  have hshrink : DropsZeros (Shape.default.resize 6) 1 := by
    intro k hle hlt
    replace hlt : k < 5 := hlt
    interval_cases k <;> decide
  refine ⟨trivial, fun m₁ σ₁ hop₁ _ => ⟨fun g _ => hgrow g, fun m₂ σ₂ hop₂ _ =>
    ⟨fun g hg => ?_, fun _ _ _ _ => ⟨trivial, fun _ _ _ _ => trivial⟩⟩⟩⟩
  cases hop₁
  cases hop₂
  cases hg
  exact hshrink

/-- Three is left behind in the unused words when `[2, 3]` is cut to `[2]`. -/
theorem equal_iff_shapes_stale : ¬ ∀ (supply : Supply Word) (ops : List Op) (σ : Shapes)
    (m : Machine) (address : Nat → Int) (id other : Nat) (o r : Object),
    shapesAfter ops (fun _ => none) = some σ → runOps supply ops .empty = .ok () m →
    m.objects id = some o → m.objects other = some r →
    equal address id other m = .ok (decide (σ id = σ other)) m := by
  intro h
  have hequal := h granting [.defaultConstruct 0, .setSizes 0 [2, 3], .resize 0 1,
    .defaultConstruct 1, .setSizes 1 [2]] _ _ (fun _ => 8) 0 1 _ _ rfl rfl rfl rfl
  cases hequal

end EqualityWitness

end Vectorization.SizesAndStrides
