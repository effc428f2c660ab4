/-
Positional sums with signed digits.  A digit ranges over an integer interval
and weighs its stride; when each stride divides the next, the carries that a
target admits into a position form an interval, which one step moves to the
next position by a rounded division.
-/
import Mathlib

namespace SignedDigits

/-- One position: the range of its digit and the weight of a unit. -/
structure Digit where
  lower : Int
  upper : Int
  stride : Int
deriving Repr, DecidableEq

/-- Some choice of digits adds up to the value. -/
def Represents : List Digit → Int → Prop
  | [], v => v = 0
  | d :: ds, v =>
      ∃ c, d.lower ≤ c ∧ c ≤ d.upper ∧ Represents ds (v - c * d.stride)

/-- Positive strides, each a multiple of the one before it. -/
def Nested : List Digit → Prop
  | [] => True
  | [d] => 0 < d.stride
  | d :: e :: ds => 0 < d.stride ∧ d.stride ∣ e.stride ∧ Nested (e :: ds)

@[simp] theorem represents_nil (v : Int) : Represents [] v ↔ v = 0 := Iff.rfl

@[simp] theorem represents_cons (d : Digit) (ds : List Digit) (v : Int) :
    Represents (d :: ds) v ↔
      ∃ c, d.lower ≤ c ∧ c ≤ d.upper ∧ Represents ds (v - c * d.stride) := Iff.rfl

/-- A common divisor of the strides divides every value they represent. -/
theorem Represents.dvd {g : Int} {ds : List Digit} (hg : ∀ d ∈ ds, g ∣ d.stride)
    {v : Int} (h : Represents ds v) : g ∣ v := by
  induction ds generalizing v with
  | nil =>
      rw [represents_nil] at h
      exact h ▸ Int.dvd_zero g
  | cons d ds ih =>
      obtain ⟨c, -, -, hc⟩ := h
      have htail := ih (fun e he => hg e (List.mem_cons_of_mem d he)) hc
      have hhead : g ∣ c * d.stride :=
        Dvd.dvd.mul_left (hg d List.mem_cons_self) c
      simpa using Int.dvd_add htail hhead

theorem Nested.stride_pos {d : Digit} {ds : List Digit} (h : Nested (d :: ds)) :
    0 < d.stride := by
  cases ds with
  | nil => exact h
  | cons e ds => exact h.1

theorem Nested.tail {d : Digit} {ds : List Digit} (h : Nested (d :: ds)) :
    Nested ds := by
  cases ds with
  | nil => trivial
  | cons e ds => exact h.2.2

theorem Nested.dvd {d : Digit} {ds : List Digit} (h : Nested (d :: ds)) :
    ∀ e ∈ d :: ds, d.stride ∣ e.stride := by
  induction ds generalizing d with
  | nil => simp
  | cons e ds ih =>
      intro f hf
      rcases List.mem_cons.1 hf with rfl | hf
      · exact Int.dvd_refl _
      · exact Int.dvd_trans h.2.1 (ih h.2.2 f hf)

/-- Two integer intervals meet when neither ends before the other starts. -/
theorem exists_mem_both {lo hi lower upper : Int} (h : lo ≤ hi) (h' : lower ≤ upper) :
    (∃ c, lo ≤ c ∧ c ≤ hi ∧ lower ≤ c ∧ c ≤ upper) ↔ lower ≤ hi ∧ lo ≤ upper := by
  constructor
  · rintro ⟨c, h₁, h₂, h₃, h₄⟩
    omega
  · rintro ⟨h₁, h₂⟩
    exact ⟨max lo lower, by omega, by omega, by omega, by omega⟩

/-- The last position absorbs its carry when the two intervals meet. -/
theorem represents_last {d : Digit} (hd : 0 < d.stride) (hr : d.lower ≤ d.upper)
    {lo hi : Int} (h : lo ≤ hi) :
    (∃ c, lo ≤ c ∧ c ≤ hi ∧ Represents [d] (c * d.stride)) ↔
      d.lower ≤ hi ∧ lo ≤ d.upper := by
  rw [← exists_mem_both h hr]
  refine exists_congr fun c => ?_
  simp only [represents_cons, represents_nil]
  constructor
  · rintro ⟨h₁, h₂, c', h₃, h₄, heq⟩
    have : c = c' := by
      rw [← Int.sub_mul] at heq
      rcases Int.mul_eq_zero.1 heq with heq | heq <;> omega
    subst this
    exact ⟨h₁, h₂, h₃, h₄⟩
  · rintro ⟨h₁, h₂, h₃, h₄⟩
    exact ⟨h₁, h₂, c, h₃, h₄, Int.sub_self _⟩

/-- One carry step: the carries in `[lo, hi]` that the remaining positions can
serve come from the multiples of the period in `[lo - upper, hi - lower]`. -/
theorem represents_carry {d e : Digit} {ds : List Digit} (hn : Nested (d :: e :: ds))
    (hr : d.lower ≤ d.upper) {period : Int} (hp : e.stride = period * d.stride)
    {lo hi : Int} (h : lo ≤ hi) :
    (∃ c, lo ≤ c ∧ c ≤ hi ∧ Represents (d :: e :: ds) (c * d.stride)) ↔
      ∃ t, lo - d.upper ≤ period * t ∧ period * t ≤ hi - d.lower ∧
        Represents (e :: ds) (t * e.stride) := by
  have hpos := hn.stride_pos
  constructor
  · rintro ⟨c, h₁, h₂, x, h₃, h₄, hx⟩
    -- what is left after the digit is a multiple of the next stride
    obtain ⟨t, ht⟩ := hx.dvd hn.tail.dvd
    have hxt : c - x = period * t := by
      rw [← Int.sub_mul, hp, Int.mul_right_comm] at ht
      exact Int.eq_of_mul_eq_mul_right (Int.ne_of_gt hpos) ht
    refine ⟨t, by omega, by omega, ?_⟩
    rwa [ht, Int.mul_comm] at hx
  · rintro ⟨t, h₁, h₂, ht⟩
    have hmeet : ∃ x, period * t + d.lower ≤ x ∧ x ≤ period * t + d.upper ∧
        lo ≤ x ∧ x ≤ hi := (exists_mem_both (by omega) h).2 ⟨by omega, by omega⟩
    obtain ⟨c, h₃, h₄, h₅, h₆⟩ := hmeet
    refine ⟨c, h₅, h₆, c - period * t, by omega, by omega, ?_⟩
    have hrest : c * d.stride - (c - period * t) * d.stride = t * e.stride := by
      rw [hp]
      ring
    rwa [hrest]

end SignedDigits
