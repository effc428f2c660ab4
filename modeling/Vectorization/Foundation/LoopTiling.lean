/-
Counted loops and the index ranges they tile.  A loop body that handles `step`
consecutive indices per pass covers its range exactly when the bound is a whole
number of passes away.
-/
import Mathlib

namespace LoopTiling

/-- The counter values of `for (; i < stop; i += step)`. -/
def starts (i stop step : Nat) : List Nat :=
  List.range' i ((stop - i + (step - 1)) / step) step

theorem starts_of_ge {i stop step : Nat} (hstep : 0 < step) (h : stop ≤ i) :
    starts i stop step = [] := by
  rw [starts, Nat.sub_eq_zero_of_le h, Nat.zero_add,
    Nat.div_eq_of_lt (Nat.sub_lt hstep Nat.one_pos)]
  rfl

/-- The loop runs its body at the counter and goes on at the next one. -/
theorem starts_of_lt {i stop step : Nat} (hstep : 0 < step) (h : i < stop) :
    starts i stop step = i :: starts (i + step) stop step := by
  have hcount : (stop - i + (step - 1)) / step =
      (stop - (i + step) + (step - 1)) / step + 1 := by
    rcases Nat.lt_or_ge stop (i + step) with hlt | hge
    · rw [Nat.sub_eq_zero_of_le (Nat.le_of_lt hlt), Nat.zero_add,
        Nat.div_eq_of_lt (Nat.sub_lt hstep Nat.one_pos),
        Nat.div_eq_iff hstep]
      omega
    · rw [← Nat.add_div_right _ hstep]
      congr 1
      omega
  rw [starts, hcount, List.range'_succ]
  rfl

/-- A bound that is a whole number of passes away. -/
theorem starts_exact {step : Nat} (hstep : 0 < step) (i k : Nat) :
    starts i (i + k * step) step = List.range' i k step := by
  rw [starts, Nat.add_sub_cancel_left, Nat.mul_comm, Nat.mul_add_div hstep,
    Nat.div_eq_of_lt (Nat.sub_lt hstep Nat.one_pos), Nat.add_zero]

/-- Consecutive passes cover consecutive indices. -/
theorem flatMap_range' (i k step : Nat) :
    (List.range' i k step).flatMap (fun s => List.range' s step) =
      List.range' i (k * step) := by
  induction k generalizing i with
  | zero => simp
  | succ k ih =>
      rw [List.range'_succ, List.flatMap_cons, ih, Nat.succ_mul, Nat.add_comm (k * step),
        ← List.range'_append_1]

theorem starts_one (i stop : Nat) : starts i stop 1 = List.range' i (stop - i) := by
  rw [starts, Nat.sub_self, Nat.add_zero, Nat.div_one]

/-- Tiles that are cut off at the end cover the range. -/
theorem flatMap_tiles (n : Nat) {b : Nat} (hb : 0 < b) (i : Nat) :
    (starts i n b).flatMap (fun s => starts s (min (s + b) n) 1) = List.range' i (n - i) := by
  induction hk : n - i using Nat.strong_induction_on generalizing i with
  | _ k ih =>
      rcases Nat.lt_or_ge i n with hlt | hge
      · rw [starts_of_lt hb hlt, List.flatMap_cons, ih (n - (i + b)) (by omega) (i + b) rfl,
          starts_one]
        rcases Nat.le_or_ge (i + b) n with hfit | hcut
        · rw [Nat.min_eq_left hfit, Nat.add_sub_cancel_left, List.range'_append_1]
          congr 1
          omega
        · rw [Nat.min_eq_right hcut, Nat.sub_eq_zero_of_le hcut, hk]
          exact List.append_nil _
      · rw [starts_of_ge hb hge, ← hk, Nat.sub_eq_zero_of_le hge]
        rfl

/-- The counter after `for (; i < stop; i += step)`. -/
def counterAfter (i stop step : Nat) : Nat :=
  i + (stop - i + (step - 1)) / step * step

theorem counterAfter_exact {step : Nat} (hstep : 0 < step) (i k : Nat) :
    counterAfter i (i + k * step) step = i + k * step := by
  rw [counterAfter, Nat.add_sub_cancel_left, Nat.mul_comm k, Nat.mul_add_div hstep,
    Nat.div_eq_of_lt (Nat.sub_lt hstep Nat.one_pos), Nat.add_zero, Nat.mul_comm k]

theorem counterAfter_one {i stop : Nat} (h : i ≤ stop) : counterAfter i stop 1 = stop := by
  rw [counterAfter, Nat.div_one, Nat.mul_one]
  omega

theorem le_counterAfter (i stop step : Nat) : i ≤ counterAfter i stop step :=
  Nat.le_add_right _ _

/-- A loop whose passes cover `step` indices each covers all up to its counter at
the end. -/
theorem starts_flatMap_range' (i stop step : Nat) :
    (starts i stop step).flatMap (fun s => List.range' s step) =
      List.range' i (counterAfter i stop step - i) := by
  rw [starts, flatMap_range', counterAfter, Nat.add_sub_cancel_left]

/-- A pass of `packet` registers of `length` lanes covers a block. -/
theorem flatMap_lanes (s packet length : Nat) :
    (List.range packet).flatMap (fun k => List.range' (s + k * length) length) =
      List.range' s (packet * length) := by
  induction packet with
  | zero => simp
  | succ packet ih =>
      rw [List.range_succ, List.flatMap_append, ih, List.flatMap_singleton,
        List.range'_append_1, Nat.succ_mul]

theorem mem_starts {i stop step k : Nat} (hstep : 0 < step) :
    k ∈ starts i stop step ↔ k < stop ∧ ∃ q, k = i + step * q := by
  have hlt (q : Nat) : q < (stop - i + (step - 1)) / step ↔ i + step * q < stop := by
    rw [Nat.lt_div_iff_mul_lt hstep, Nat.mul_comm q]
    omega
  simp only [starts, List.mem_range']
  constructor
  · rintro ⟨q, hq, rfl⟩
    exact ⟨(hlt q).1 hq, q, rfl⟩
  · rintro ⟨hk, q, rfl⟩
    exact ⟨q, (hlt q).2 hk, rfl⟩

theorem starts_nodup {step : Nat} (hstep : 0 < step) (i stop : Nat) :
    (starts i stop step).Nodup :=
  List.nodup_range' step hstep

/-- Loops of one stride that start at consecutive indices visit every index once. -/
theorem flatMap_starts_perm {step : Nat} (hstep : 0 < step) (n : Nat) :
    ((List.range step).flatMap fun s => starts s n step).Perm (List.range n) := by
  have hnodup : ((List.range step).flatMap fun s => starts s n step).Nodup := by
    refine List.nodup_flatMap.2 ⟨fun s _ => starts_nodup hstep s n, ?_⟩
    refine List.Nodup.pairwise_of_forall_ne List.nodup_range fun s hs s' hs' hne k hk hk' => ?_
    obtain ⟨-, q, rfl⟩ := (mem_starts hstep).1 hk
    obtain ⟨-, q', heq⟩ := (mem_starts hstep).1 hk'
    have hmod := congrArg (· % step) heq
    simp only [Nat.add_mul_mod_self_left, Nat.mod_eq_of_lt (List.mem_range.1 hs),
      Nat.mod_eq_of_lt (List.mem_range.1 hs')] at hmod
    exact hne hmod
  refine (List.perm_ext_iff_of_nodup hnodup List.nodup_range).2 fun k => ?_
  rw [List.mem_flatMap, List.mem_range]
  constructor
  · rintro ⟨s, _, hk⟩
    exact ((mem_starts hstep).1 hk).1
  · intro hk
    exact ⟨k % step, List.mem_range.2 (Nat.mod_lt k hstep),
      (mem_starts hstep).2 ⟨hk, k / step, (Nat.mod_add_div k step).symm⟩⟩

theorem add_div_mul_le {i n b : Nat} (h : i ≤ n) : i + (n - i) / b * b ≤ n := by
  have := Nat.div_mul_le_self (n - i) b
  omega

/-- Pieces `[b, e)` that follow each other from `i` up to `n`. -/
def Consecutive : Nat → Nat → List (Nat × Nat) → Prop
  | i, n, [] => i = n
  | i, n, p :: pieces => p.1 = i ∧ p.1 ≤ p.2 ∧ Consecutive p.2 n pieces

/-- The pieces of `[0, n)` in some order. -/
def IsSplit (n : Nat) (pieces : List (Nat × Nat)) : Prop :=
  ∃ cuts, Consecutive 0 n cuts ∧ cuts.Perm pieces

theorem Consecutive.le {i n : Nat} {pieces : List (Nat × Nat)}
    (h : Consecutive i n pieces) : i ≤ n := by
  induction pieces generalizing i with
  | nil => exact Nat.le_of_eq h
  | cons p pieces ih =>
      obtain ⟨rfl, hle, htail⟩ := h
      exact Nat.le_trans hle (ih htail)

theorem Consecutive.bounds {i n : Nat} {pieces : List (Nat × Nat)}
    (h : Consecutive i n pieces) : ∀ p ∈ pieces, i ≤ p.1 ∧ p.1 ≤ p.2 ∧ p.2 ≤ n := by
  induction pieces generalizing i with
  | nil => simp
  | cons p pieces ih =>
      obtain ⟨rfl, hle, htail⟩ := h
      intro q hq
      rcases List.mem_cons.1 hq with rfl | hq
      · exact ⟨Nat.le_refl _, hle, htail.le⟩
      · obtain ⟨h₁, h₂, h₃⟩ := ih htail q hq
        exact ⟨Nat.le_trans hle h₁, h₂, h₃⟩

theorem Consecutive.flatMap_range' {i n : Nat} {pieces : List (Nat × Nat)}
    (h : Consecutive i n pieces) :
    pieces.flatMap (fun p => List.range' p.1 (p.2 - p.1)) = List.range' i (n - i) := by
  induction pieces generalizing i with
  | nil =>
      obtain rfl : i = n := h
      simp
  | cons p pieces ih =>
      obtain ⟨rfl, hle, htail⟩ := h
      have := htail.le
      rw [List.flatMap_cons, ih htail, show n - p.1 = (p.2 - p.1) + (n - p.2) by omega,
        ← List.range'_append_1, show p.1 + (p.2 - p.1) = p.2 by omega]

theorem IsSplit.bounds {n : Nat} {pieces : List (Nat × Nat)} (h : IsSplit n pieces) :
    ∀ p ∈ pieces, p.1 ≤ p.2 ∧ p.2 ≤ n := by
  obtain ⟨cuts, hcuts, hperm⟩ := h
  intro p hp
  exact (hcuts.bounds p (hperm.mem_iff.2 hp)).2

/-- The pieces of a split hold every index once. -/
theorem IsSplit.flatMap_range'_perm {n : Nat} {pieces : List (Nat × Nat)}
    (h : IsSplit n pieces) :
    (pieces.flatMap fun p => List.range' p.1 (p.2 - p.1)).Perm (List.range n) := by
  obtain ⟨cuts, hcuts, hperm⟩ := h
  refine (hperm.symm.flatMap_right _).trans ?_
  rw [hcuts.flatMap_range', List.range_eq_range', Nat.sub_zero]

end LoopTiling
