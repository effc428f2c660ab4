/-
Outcomes of state-keeping computations that may raise: what holds of the result and of
the state where a run returns, and of the exception where it does not.  The rules follow
the way the computations are composed.
-/
import Vectorization.Foundation.AtomicRun

namespace Outcome

open AtomicRun

universe u

variable {ε σ α β : Type u} {fault : ε → Prop} {post : α → σ → Prop} {post' : β → σ → Prop}

/-- The run returns what `post` describes, or raises a `fault`. -/
def Delivers (fault : ε → Prop) (post : α → σ → Prop) : EStateM.Result ε σ α → Prop
  | .ok a s => post a s
  | .error e _ => fault e

theorem Delivers.mono {r : EStateM.Result ε σ α} {weaker : α → σ → Prop}
    (h : Delivers fault post r) (himp : ∀ a s, post a s → weaker a s) :
    Delivers fault weaker r := by
  cases r with
  | ok a s => exact himp a s h
  | error e s => exact h

theorem Delivers.bind {x : EStateM ε σ α} {f : α → EStateM ε σ β} {s : σ}
    (hx : Delivers fault post (x s)) (hf : ∀ a t, post a t → Delivers fault post' (f a t)) :
    Delivers fault post' ((x >>= f) s) := by
  change Delivers fault post' (EStateM.bind x f s)
  rw [EStateM.bind]
  cases hrun : x s with
  | ok a t =>
      rw [hrun] at hx
      exact hf a t hx
  | error e t =>
      rw [hrun] at hx
      exact hx

theorem delivers_raising {r : Except ε α} {s : σ} (hok : ∀ a, r = .ok a → post a s)
    (herror : ∀ e, r = .error e → fault e) : Delivers fault post (raising r s) := by
  cases r with
  | ok a => exact hok a rfl
  | error e => exact herror e rfl

theorem delivers_modify {g : σ → σ} {s : σ} {post : PUnit → σ → Prop} (h : post ⟨⟩ (g s)) :
    Delivers fault post ((modify g : EStateM ε σ PUnit) s) := h

theorem delivers_throw {e : ε} {s : σ} (h : fault e) :
    Delivers fault post ((throw e : EStateM ε σ α) s) := h

/-- A run that returns nothing raises. -/
theorem Delivers.raises {r : EStateM.Result ε σ α} (h : Delivers fault (fun _ _ => False) r) :
    ∃ e s, r = .error e s ∧ fault e := by
  cases r with
  | ok a s => exact False.elim h
  | error e s => exact ⟨e, s, rfl, h⟩

/-- Two computations with the same runs, but for those where the first raises a `fault`. -/
def AgreesUnless (fault : ε → Prop) (x y : EStateM ε σ α) : Prop :=
  ∀ s, x s = y s ∨ Delivers fault (fun _ _ => False) (x s)

theorem AgreesUnless.refl (x : EStateM ε σ α) : AgreesUnless fault x x :=
  fun _ => Or.inl rfl

theorem AgreesUnless.bind {x y : EStateM ε σ α} {f g : α → EStateM ε σ β}
    (hx : AgreesUnless fault x y) (hf : ∀ a, AgreesUnless fault (f a) (g a)) :
    AgreesUnless fault (x >>= f) (y >>= g) := by
  intro s
  rcases hx s with heq | hraise
  · change EStateM.bind x f s = EStateM.bind y g s ∨
      Delivers fault (fun _ _ => False) (EStateM.bind x f s)
    rw [EStateM.bind, EStateM.bind, heq]
    cases hy : y s with
    | ok a t => exact hf a t
    | error e t => exact Or.inl rfl
  · exact Or.inr (hraise.bind fun _ _ h => h.elim)

/-- A handler that passes the faults on. -/
theorem AgreesUnless.tryCatch {x y : EStateM ε σ α} {h : ε → EStateM ε σ α}
    (hx : AgreesUnless fault x y)
    (hpass : ∀ e, fault e → ∀ s, Delivers fault (fun _ _ => False) (h e s)) :
    AgreesUnless fault (tryCatch x h) (tryCatch y h) := by
  intro s
  change EStateM.tryCatch x h s = EStateM.tryCatch y h s ∨
    Delivers fault (fun _ _ => False) (EStateM.tryCatch x h s)
  rcases hx s with heq | hraise
  · rw [EStateM.tryCatch, EStateM.tryCatch, heq]
    exact Or.inl rfl
  · obtain ⟨e, t, hrun, he⟩ := hraise.raises
    rw [EStateM.tryCatch, hrun]
    exact Or.inr (hpass e he _)

/-- Where the first returns, so does the second. -/
theorem AgreesUnless.ok {x y : EStateM ε σ α} (h : AgreesUnless fault x y) {s t : σ} {a : α}
    (hx : x s = .ok a t) : y s = .ok a t := by
  rcases h s with heq | hraise
  · rw [← heq, hx]
  · rw [hx] at hraise
    exact hraise.elim

end Outcome
