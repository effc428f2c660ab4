/-
A store with one value for each aligned cell, as the abstraction of a byte memory.  Writing a
list of cells at once is the same on both.
-/
import Vectorization.Foundation.ByteMemory

namespace ByteMemory

universe u v

variable {α : Type u} {κ : Type v} [DecidableEq κ] {w : Nat} {c : Codec α w} {m m' : Memory}
  {σ : Int → α} {pairs : List (Int × α)}

/-- The aligned cells of the memory hold the values of the store. -/
def Represents (c : Codec α w) (m : Memory) (σ : Int → α) : Prop :=
  ∀ a : Int, (w : Int) ∣ a → load c m a = σ a

/-- The store after all listed cells are given their values at once. -/
def overwrite (pairs : List (κ × α)) (σ : κ → α) (a : κ) : α :=
  match pairs.find? fun p => p.1 == a with
  | some p => p.2
  | none => σ a

theorem overwrite_cases (pairs : List (κ × α)) (σ : κ → α) (a : κ) :
    (∃ v, (a, v) ∈ pairs ∧ overwrite pairs σ a = v) ∨
      ((∀ p ∈ pairs, p.1 ≠ a) ∧ overwrite pairs σ a = σ a) := by
  rw [overwrite]
  cases hfind : pairs.find? fun p => p.1 == a with
  | some p =>
      have ha : p.1 = a := by simpa using List.find?_some hfind
      exact Or.inl ⟨p.2, ha ▸ List.mem_of_find?_eq_some hfind, rfl⟩
  | none => exact Or.inr ⟨fun p hp => by simpa using List.find?_eq_none.1 hfind p hp, rfl⟩

/-- Distinct aligned cells share no byte. -/
theorem apart_of_aligned {a b : Int} (ha : (w : Int) ∣ a) (hb : (w : Int) ∣ b) (hne : a ≠ b) :
    Apart w a b := by
  obtain ⟨i, rfl⟩ := ha
  obtain ⟨j, rfl⟩ := hb
  have hij : i ≠ j := fun heq => hne (by rw [heq])
  have happart : Apart w (0 + i * w) (0 + j * w) := apart_of_ne hij
  rwa [Int.zero_add, Int.zero_add, Int.mul_comm i, Int.mul_comm j] at happart

/-- A memory with the listed cells written represents the store with them overwritten. -/
theorem Represents.written (hm : Represents c m σ) (h : Written c m m' pairs)
    (haligned : ∀ p ∈ pairs, (w : Int) ∣ p.1) : Represents c m' (overwrite pairs σ) := by
  intro a ha
  rcases overwrite_cases pairs σ a with ⟨v, hv, heq⟩ | ⟨hnone, heq⟩
  · rw [heq]
    exact h.load hv
  · rw [heq, ← hm a ha]
    apply load_congr
    intro x hx
    apply h.frame
    exact fun p hp => (apart_of_aligned (haligned p hp) ha (hnone p hp)).symm.not_inCell hx

end ByteMemory
