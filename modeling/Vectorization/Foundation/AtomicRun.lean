/-
State-keeping computations that may raise.  A check leaves the state alone, a
computation that never raises may store, and checks before stores make the whole
atomic: when it raises, the state is as before.
-/
import Mathlib

namespace AtomicRun

universe u

variable {ε σ α β : Type u} {x : EStateM ε σ α} {f : α → EStateM ε σ β}

/-- Neither outcome changes the state. -/
structure Checks (x : EStateM ε σ α) : Prop where
  ok : ∀ {s a s'}, x s = .ok a s' → s' = s
  error : ∀ {s e s'}, x s = .error e s' → s' = s

/-- The computation never raises. -/
def Total (x : EStateM ε σ α) : Prop :=
  ∀ s e s', x s ≠ .error e s'

/-- A computation that raises leaves the state as it was. -/
def Atomic (x : EStateM ε σ α) : Prop :=
  ∀ s e s', x s = .error e s' → s' = s

/-- The outcome of a check in a state-keeping computation. -/
def raising : Except ε α → EStateM ε σ α
  | .ok a => pure a
  | .error e => throw e

theorem bind_ok {s s' : σ} {b : β} :
    (x >>= f) s = .ok b s' ↔ ∃ a t, x s = .ok a t ∧ f a t = .ok b s' := by
  change EStateM.bind x f s = _ ↔ _
  rw [EStateM.bind]
  cases hx : x s with
  | ok a t => simp
  | error e t => simp

theorem bind_of_ok {s t : σ} {a : α} (h : x s = .ok a t) : (x >>= f) s = f a t := by
  change EStateM.bind x f s = _
  rw [EStateM.bind, h]

theorem bind_congr_at {x y : EStateM ε σ α} {s : σ} (h : x s = y s) :
    (x >>= f) s = (y >>= f) s := by
  change EStateM.bind x f s = EStateM.bind y f s
  rw [EStateM.bind, EStateM.bind, h]

theorem get_bind {g : σ → EStateM ε σ β} (s : σ) : (get >>= g) s = g s s := rfl

theorem bind_error {s s' : σ} {e : ε} :
    (x >>= f) s = .error e s' ↔
      x s = .error e s' ∨ ∃ a t, x s = .ok a t ∧ f a t = .error e s' := by
  change EStateM.bind x f s = _ ↔ _
  rw [EStateM.bind]
  cases hx : x s with
  | ok a t => simp
  | error e' t => simp

theorem raising_ok {r : Except ε α} {s s' : σ} {a : α} :
    raising r s = .ok a s' ↔ r = .ok a ∧ s' = s := by
  cases r with
  | ok b =>
      change EStateM.Result.ok b s = _ ↔ _
      simp [eq_comm]
  | error e =>
      change EStateM.Result.error e s = _ ↔ _
      simp

theorem raising_bind_ok {r : Except ε α} {s s' : σ} {b : β} :
    (raising r >>= f) s = .ok b s' ↔ ∃ a, r = .ok a ∧ f a s = .ok b s' := by
  rw [bind_ok]
  constructor
  · rintro ⟨a, t, hraise, hf⟩
    obtain ⟨hr, rfl⟩ := raising_ok.1 hraise
    exact ⟨a, hr, hf⟩
  · rintro ⟨a, hr, hf⟩
    exact ⟨a, s, raising_ok.2 ⟨hr, rfl⟩, hf⟩

theorem raising_bind {γ : Type u} (r : Except ε α) (g : α → Except ε γ) :
    (raising (r >>= g) : EStateM ε σ γ) = raising r >>= fun a => raising (g a) := by
  cases r <;> rfl

theorem exceptBind_ok {r : Except ε α} {g : α → Except ε β} {b : β} :
    (r >>= g) = .ok b ↔ ∃ a, r = .ok a ∧ g a = .ok b := by
  cases r with
  | ok a => simp [bind, Except.bind]
  | error e => simp [bind, Except.bind]

theorem Checks.atomic (h : Checks x) : Atomic x :=
  fun _ _ _ => h.error

theorem Total.atomic (h : Total x) : Atomic x :=
  fun s e s' hx => absurd hx (h s e s')

theorem checks_raising (r : Except ε α) : Checks (raising r : EStateM ε σ α) := by
  refine ⟨fun h => (raising_ok.1 h).2, fun {s e s'} h => ?_⟩
  cases r with
  | ok a => cases h
  | error e' =>
      cases h
      rfl

theorem checks_pure (a : α) : Checks (pure a : EStateM ε σ α) :=
  checks_raising (.ok a)

theorem checks_get : Checks (get : EStateM ε σ σ) := by
  refine ⟨fun h => ?_, fun h => ?_⟩ <;> cases h
  rfl

theorem Checks.bind (hx : Checks x) (hf : ∀ a, Checks (f a)) : Checks (x >>= f) := by
  refine ⟨fun {s b s'} h => ?_, fun {s e s'} h => ?_⟩
  · obtain ⟨a, t, hxa, hfa⟩ := bind_ok.1 h
    rw [(hf a).ok hfa, hx.ok hxa]
  · rcases bind_error.1 h with h | ⟨a, t, hxa, hfa⟩
    · exact hx.error h
    · rw [(hf a).error hfa, hx.ok hxa]

theorem total_pure (a : α) : Total (pure a : EStateM ε σ α) :=
  fun _ _ _ h => nomatch h

theorem total_modify (g : σ → σ) : Total (modify g : EStateM ε σ PUnit) :=
  fun _ _ _ h => nomatch h

theorem total_set (s : σ) : Total (set s : EStateM ε σ PUnit) :=
  fun _ _ _ h => nomatch h

theorem Total.bind (hx : Total x) (hf : ∀ a, Total (f a)) : Total (x >>= f) := by
  intro s e s' h
  rcases bind_error.1 h with h | ⟨a, t, -, hfa⟩
  · exact hx s e s' h
  · exact hf a t e s' hfa

/-- Checks may come before an atomic computation. -/
theorem Checks.bind_atomic (hx : Checks x) (hf : ∀ a, Atomic (f a)) :
    Atomic (x >>= f) := by
  intro s e s' h
  rcases bind_error.1 h with h | ⟨a, t, hxa, hfa⟩
  · exact hx.error h
  · rw [hf a t e s' hfa, hx.ok hxa]

/-- What never raises may come after an atomic computation. -/
theorem Atomic.bind_total (hx : Atomic x) (hf : ∀ a, Total (f a)) :
    Atomic (x >>= f) := by
  intro s e s' h
  rcases bind_error.1 h with h | ⟨a, t, -, hfa⟩
  · exact hx s e s' h
  · exact absurd hfa (hf a t e s')

end AtomicRun
