/-
Two's-complement conversions at 64 bits.  Unsigned values are naturals below
`2 ^ 64`, signed values are integers in `[-2 ^ 63, 2 ^ 63)`; a wrapping
operation is the exact one followed by a wrap.
-/
import Mathlib

namespace MachineInteger

def int64Max : Int := 2 ^ 63 - 1

def int64Min : Int := -2 ^ 63

/-- The largest unsigned 64-bit value. -/
def uint64Max : Nat := 2 ^ 64 - 1

/-- Membership in the signed 64-bit range. -/
def InInt64 (x : Int) : Prop := int64Min ≤ x ∧ x ≤ int64Max

instance (x : Int) : Decidable (InInt64 x) :=
  inferInstanceAs (Decidable (_ ∧ _))

/-- The conversion of a signed value to unsigned. -/
def toU64 (x : Int) : Nat := (x % 2 ^ 64).toNat

/-- The value an exact unsigned result wraps to. -/
def wrapU64 (x : Nat) : Nat := x % 2 ^ 64

/-- The value an exact signed result wraps to. -/
def wrapI64 (x : Int) : Int := x.bmod (2 ^ 64)

@[simp] theorem wrapU64_lt (x : Nat) : wrapU64 x < 2 ^ 64 :=
  Nat.mod_lt _ (by norm_num)

theorem wrapU64_eq_self {x : Nat} (h : x < 2 ^ 64) : wrapU64 x = x :=
  Nat.mod_eq_of_lt h

theorem wrapU64_add_wrapU64 (x y : Nat) : wrapU64 (wrapU64 x + y) = wrapU64 (x + y) :=
  Nat.mod_add_mod x (2 ^ 64) y

theorem wrapU64_wrapU64_mul (x y : Nat) : wrapU64 (wrapU64 x * y) = wrapU64 (x * y) :=
  Nat.mod_mul_mod x y (2 ^ 64)

@[simp] theorem toU64_lt (x : Int) : toU64 x < 2 ^ 64 := by
  unfold toU64
  omega

theorem toU64_natCast (n : Nat) : toU64 (n : Int) = wrapU64 n := by
  unfold toU64 wrapU64
  omega

theorem toU64_of_nonneg {x : Int} (hx : 0 ≤ x) (h : x ≤ int64Max) :
    toU64 x = x.toNat := by
  unfold toU64
  unfold int64Max at h
  omega

theorem wrapI64_eq_self {x : Int} (h : InInt64 x) : wrapI64 x = x := by
  obtain ⟨hlo, hhi⟩ := h
  unfold int64Min at hlo
  unfold int64Max at hhi
  refine Int.bmod_eq_of_le ?_ ?_ <;> omega

theorem wrapI64_inInt64 (x : Int) : InInt64 (wrapI64 x) := by
  have hlo : -((2 ^ 64 : Nat) / 2 : Int) ≤ wrapI64 x := Int.le_bmod (by norm_num)
  have hhi : wrapI64 x < ((2 ^ 64 : Nat) + 1) / 2 := Int.bmod_lt (by norm_num)
  unfold InInt64 int64Min int64Max
  omega

end MachineInteger
