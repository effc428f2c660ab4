/-
Blocks of words behind `malloc`, `realloc` and `free`.  Every access names the
range it touches and is refused outside the block; fresh words are whatever the
allocator left in them.
-/
import Mathlib

namespace BlockStore

universe u

variable {W : Type u}

/-- A block of words; the cells past its length mean nothing. -/
structure Block (W : Type u) where
  length : Nat
  cell : Nat → W

/-- The `count` words from `first` on. -/
def Block.read (b : Block W) (first count : Nat) : Option (Nat → W) :=
  if first + count ≤ b.length then some fun k => b.cell (first + k) else none

/-- The block with `count` words from `first` on replaced. -/
def Block.put (b : Block W) (first count : Nat) (source : Nat → W) : Block W where
  length := b.length
  cell k := if first ≤ k ∧ k < first + count then source (k - first) else b.cell k

def Block.write (b : Block W) (first count : Nat) (source : Nat → W) :
    Option (Block W) :=
  if first + count ≤ b.length then some (b.put first count source) else none

@[simp] theorem Block.put_length (b : Block W) (first count : Nat) (source : Nat → W) :
    (b.put first count source).length = b.length := rfl

theorem Block.put_inside (b : Block W) (first : Nat) {count k : Nat} (source : Nat → W)
    (h : k < count) : (b.put first count source).cell (first + k) = source k := by
  simp only [put]
  rw [if_pos ⟨Nat.le_add_right _ _, Nat.add_lt_add_left h first⟩,
    Nat.add_sub_cancel_left]

theorem Block.put_outside (b : Block W) {first count k : Nat} (source : Nat → W)
    (h : k < first ∨ first + count ≤ k) :
    (b.put first count source).cell k = b.cell k :=
  if_neg (by omega)

/-- Which requests the allocator grants, and the words it leaves in a block. -/
structure Supply (W : Type u) where
  grants : Nat → Bool
  junk : Nat → Nat → W

/-- The live blocks by number; numbers from `next` on are unused. -/
structure Blocks (W : Type u) where
  block : Nat → Option (Block W)
  next : Nat

namespace Blocks

/-- No block. -/
def empty : Blocks W := ⟨fun _ => none, 0⟩

/-- Unused numbers have no block. -/
def Fresh (s : Blocks W) : Prop := ∀ b, s.next ≤ b → s.block b = none

def set (s : Blocks W) (b : Nat) (content : Block W) : Blocks W :=
  { s with block := Function.update s.block b (some content) }

def free (s : Blocks W) (b : Nat) : Blocks W :=
  { s with block := Function.update s.block b none }

/-- The next unused number takes a block. -/
def push (s : Blocks W) (content : Block W) : Blocks W where
  block := Function.update s.block s.next (some content)
  next := s.next + 1

/-- A refused request uses up its number. -/
def skip (s : Blocks W) : Blocks W := { s with next := s.next + 1 }

def malloc (supply : Supply W) (s : Blocks W) (n : Nat) : Option Nat × Blocks W :=
  if supply.grants s.next then (some s.next, s.push ⟨n, supply.junk s.next⟩)
  else (none, s.skip)

/-- The words of a block whose length is changed: the common prefix is kept. -/
def reallocated (supply : Supply W) (s : Blocks W) (content : Block W) (n : Nat) :
    Block W where
  length := n
  cell k := if k < content.length then content.cell k else supply.junk s.next k

/-- A refused `realloc` keeps the block. -/
def realloc (supply : Supply W) (s : Blocks W) (b : Nat) (content : Block W) (n : Nat) :
    Option Nat × Blocks W :=
  if supply.grants s.next then
    (some s.next, (s.free b).push (reallocated supply s content n))
  else (none, s.skip)

section Lemmas

variable {s : Blocks W} {b b' : Nat} {content content' : Block W}

@[simp] theorem free_next : (s.free b).next = s.next := rfl

@[simp] theorem set_next : (s.set b content).next = s.next := rfl

@[simp] theorem push_next : (s.push content).next = s.next + 1 := rfl

@[simp] theorem set_block_self : (s.set b content).block b = some content :=
  Function.update_self ..

@[simp] theorem push_block_self : (s.push content).block s.next = some content :=
  Function.update_self ..

theorem set_block_ne (h : b' ≠ b) : (s.set b content).block b' = s.block b' :=
  Function.update_of_ne h ..

theorem free_block_ne (h : b' ≠ b) : (s.free b).block b' = s.block b' :=
  Function.update_of_ne h ..

theorem push_block_ne (h : b' ≠ s.next) : (s.push content).block b' = s.block b' :=
  Function.update_of_ne h ..

@[simp] theorem push_set : (s.push content).set s.next content' = s.push content' := by
  simp [push, set]

@[simp] theorem set_free : (s.set b content).free b = s.free b := by
  simp [set, free]

theorem fresh_empty : (empty : Blocks W).Fresh := fun _ _ => rfl

theorem Fresh.lt (h : s.Fresh) (hb : s.block b = some content) : b < s.next := by
  refine Nat.lt_of_not_le fun hle => ?_
  rw [h b hle] at hb
  cases hb

theorem Fresh.free (h : s.Fresh) (b : Nat) : (s.free b).Fresh := by
  intro b' hle
  by_cases hb : b' = b
  · rw [hb]
    exact Function.update_self ..
  · rw [free_block_ne hb]
    exact h b' hle

theorem Fresh.push (h : s.Fresh) (content : Block W) : (s.push content).Fresh := by
  intro b' hle
  rw [push_next] at hle
  rw [push_block_ne (by omega)]
  exact h b' (by omega)

theorem Fresh.set (h : s.Fresh) (hb : s.block b = some content) (content' : Block W) :
    (s.set b content').Fresh := by
  intro b' hle
  rw [set_next] at hle
  have := h.lt hb
  rw [set_block_ne (by omega)]
  exact h b' hle

/-- A live block is not the next one. -/
theorem Fresh.push_block (h : s.Fresh) (hb : s.block b = some content') :
    (s.push content).block b = some content' := by
  have := h.lt hb
  rwa [push_block_ne (by omega)]

end Lemmas

end Blocks

end BlockStore
