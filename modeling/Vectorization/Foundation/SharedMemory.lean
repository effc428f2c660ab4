/-
Threads over a shared memory.  A thread loads and stores one cell at a time, and a
scheduler picks the thread of every step.  When no thread stores to a cell that another
one uses, every schedule that runs to the end leaves the same memory.
-/
import Mathlib

namespace SharedMemory

/-- A program that loads and stores single cells and ends with a result. -/
inductive Prog (A V β : Type)
  | done (b : β)
  | load (a : A) (next : V → Prog A V β)
  | store (a : A) (v : V) (next : Prog A V β)

namespace Prog

variable {A V β γ : Type}

def bind : Prog A V β → (β → Prog A V γ) → Prog A V γ
  | done b, f => f b
  | load a next, f => load a fun v => (next v).bind f
  | store a v next, f => store a v (next.bind f)

instance : Monad (Prog A V) where
  pure := done
  bind := bind

section Run

variable [DecidableEq A]

/-- The program alone on the memory. -/
def run : Prog A V β → (A → V) → β × (A → V)
  | done b, m => (b, m)
  | load a next, m => (next (m a)).run m
  | store a v next, m => next.run (Function.update m a v)

@[simp] theorem run_pure (b : β) (m : A → V) : (pure b : Prog A V β).run m = (b, m) := rfl

@[simp] theorem run_bind (x : Prog A V β) (f : β → Prog A V γ) (m : A → V) :
    (x >>= f).run m = (f (x.run m).1).run (x.run m).2 := by
  induction x generalizing m with
  | done b => rfl
  | load a next ih => exact ih (m a) m
  | store a v next ih => exact ih (Function.update m a v)

@[simp] theorem run_map (f : β → γ) (x : Prog A V β) (m : A → V) :
    (f <$> x).run m = (f (x.run m).1, (x.run m).2) :=
  run_bind x (fun b => pure (f b)) m

end Run

/-- Programs one after another. -/
def inOrder : List (Prog A V Unit) → Prog A V Unit
  | [] => pure ()
  | x :: xs => do
      x
      inOrder xs

/-- Whatever is loaded, the program loads only in `reads` and stores only in `writes`. -/
def Within (reads writes : Set A) : Prog A V β → Prop
  | done _ => True
  | load a next => a ∈ reads ∧ ∀ v, (next v).Within reads writes
  | store a _ next => a ∈ writes ∧ next.Within reads writes

variable {reads writes : Set A}

theorem within_pure (b : β) : (pure b : Prog A V β).Within reads writes := trivial

theorem Within.bind {x : Prog A V β} {f : β → Prog A V γ} (hx : x.Within reads writes)
    (hf : ∀ b, (f b).Within reads writes) : (x >>= f).Within reads writes := by
  induction x with
  | done b => exact hf b
  | load a next ih => exact ⟨hx.1, fun v => ih v (hx.2 v)⟩
  | store a v next ih => exact ⟨hx.1, ih hx.2⟩

theorem Within.map {x : Prog A V β} (hx : x.Within reads writes) (f : β → γ) :
    (f <$> x).Within reads writes :=
  hx.bind fun b => within_pure (f b)

theorem Within.mono {x : Prog A V β} (hx : x.Within reads writes) {reads' writes' : Set A}
    (hreads : reads ⊆ reads') (hwrites : writes ⊆ writes') : x.Within reads' writes' := by
  induction x with
  | done b => trivial
  | load a next ih => exact ⟨hreads hx.1, fun v => ih v (hx.2 v)⟩
  | store a v next ih => exact ⟨hwrites hx.1, ih hx.2⟩

variable [DecidableEq A]

/-- Memories that agree on the cells a program uses stay in agreement there. -/
theorem Within.run_congr {x : Prog A V β} (hx : x.Within reads writes) {m m' : A → V}
    (h : ∀ a ∈ reads ∪ writes, m a = m' a) :
    ∀ a ∈ reads ∪ writes, (x.run m).2 a = (x.run m').2 a := by
  induction x generalizing m m' with
  | done b => exact h
  | load a next ih =>
      have hload : m a = m' a := h a (Or.inl hx.1)
      rw [run, run, hload]
      exact ih (m' a) (hx.2 (m' a)) h
  | store a v next ih =>
      apply ih hx.2
      intro b hb
      rcases eq_or_ne b a with rfl | hne
      · rw [Function.update_self, Function.update_self]
      · rw [Function.update_of_ne hne, Function.update_of_ne hne, h b hb]

end Prog

/-- The memory and what is left of every thread. -/
structure Pool (ι A V : Type) where
  memory : A → V
  thread : ι → Prog A V Unit

namespace Pool

variable {ι A V : Type} [DecidableEq ι] [DecidableEq A]

/-- The next load or store of one thread. -/
def advance (p : Pool ι A V) (i : ι) : Pool ι A V :=
  match p.thread i with
  | .done _ => p
  | .load a next => { p with thread := Function.update p.thread i (next (p.memory a)) }
  | .store a v next =>
      ⟨Function.update p.memory a v, Function.update p.thread i next⟩

/-- The steps of the listed threads, in that order. -/
def schedule (p : Pool ι A V) (order : List ι) : Pool ι A V :=
  order.foldl advance p

/-- No thread has a step left. -/
def Finished (p : Pool ι A V) : Prop := ∀ i, p.thread i = .done ()

@[simp] theorem schedule_nil (p : Pool ι A V) : p.schedule [] = p := rfl

@[simp] theorem schedule_cons (p : Pool ι A V) (i : ι) (order : List ι) :
    p.schedule (i :: order) = (p.advance i).schedule order := rfl

theorem schedule_append (p : Pool ι A V) (order order' : List ι) :
    p.schedule (order ++ order') = (p.schedule order).schedule order' :=
  List.foldl_append

/-- What a step does to the memory and to the thread that takes it. -/
theorem advance_cases (p : Pool ι A V) (i : ι) :
    (p.thread i = .done () ∧ p.advance i = p) ∨
    (∃ a next, p.thread i = .load a next ∧ p.advance i =
      { p with thread := Function.update p.thread i (next (p.memory a)) }) ∨
    (∃ a v next, p.thread i = .store a v next ∧ p.advance i =
      ⟨Function.update p.memory a v, Function.update p.thread i next⟩) := by
  cases h : p.thread i with
  | done b => exact Or.inl ⟨rfl, by rw [advance, h]⟩
  | load a next => exact Or.inr (Or.inl ⟨a, next, rfl, by rw [advance, h]⟩)
  | store a v next => exact Or.inr (Or.inr ⟨a, v, next, rfl, by rw [advance, h]⟩)

/-- Every thread keeps to its own cells, and no thread stores where another one loads or
stores. -/
structure RaceFree (p : Pool ι A V) (reads writes : ι → Set A) : Prop where
  within : ∀ i, (p.thread i).Within (reads i) (writes i)
  apart : ∀ i j, i ≠ j → Disjoint (writes i) (reads j ∪ writes j)

variable {p : Pool ι A V} {reads writes : ι → Set A}

theorem RaceFree.advance (h : p.RaceFree reads writes) (i : ι) :
    (p.advance i).RaceFree reads writes := by
  refine ⟨fun j => ?_, h.apart⟩
  have hi := h.within i
  rcases p.advance_cases i with ⟨-, hstep⟩ | ⟨a, next, hthread, hstep⟩ |
    ⟨a, v, next, hthread, hstep⟩
  · rw [hstep]
    exact h.within j
  · rw [hthread] at hi
    rw [hstep]
    rcases eq_or_ne j i with rfl | hne
    · simp only [Function.update_self]
      exact hi.2 (p.memory a)
    · simp only [Function.update_of_ne hne]
      exact h.within j
  · rw [hthread] at hi
    rw [hstep]
    rcases eq_or_ne j i with rfl | hne
    · simp only [Function.update_self]
      exact hi.2
    · simp only [Function.update_of_ne hne]
      exact h.within j

/-- What thread `j` would leave if it ran on alone from here. -/
def outcome (p : Pool ι A V) (j : ι) : A → V := ((p.thread j).run p.memory).2

/-- A step of any thread leaves the outcome of each thread on its own cells as it was. -/
theorem RaceFree.advance_outcome (h : p.RaceFree reads writes) (i j : ι) {a : A}
    (ha : a ∈ reads j ∪ writes j) : (p.advance i).outcome j a = p.outcome j a := by
  have hi := h.within i
  rcases p.advance_cases i with ⟨-, hstep⟩ | ⟨a', next, hthread, hstep⟩ |
    ⟨a', v, next, hthread, hstep⟩
  · rw [hstep]
  · rw [hstep]
    rcases eq_or_ne j i with rfl | hne
    · simp only [outcome, Function.update_self, hthread, Prog.run]
    · simp only [outcome, Function.update_of_ne hne]
  · rw [hstep]
    rcases eq_or_ne j i with rfl | hne
    · simp only [outcome, Function.update_self, hthread, Prog.run]
    · simp only [outcome, Function.update_of_ne hne]
      rw [hthread] at hi
      -- the cell stored to is none of thread j's
      refine (h.within j).run_congr (fun b hb => ?_) a ha
      have hb' : b ≠ a' := fun hba =>
        Set.disjoint_left.1 (h.apart i j hne.symm) hi.1 (hba ▸ hb)
      exact Function.update_of_ne hb' v p.memory

theorem RaceFree.advance_frame (h : p.RaceFree reads writes) (i : ι) {a : A}
    (ha : ∀ j, a ∉ writes j) : (p.advance i).memory a = p.memory a := by
  have hi := h.within i
  rcases p.advance_cases i with ⟨-, hstep⟩ | ⟨a', next, hthread, hstep⟩ |
    ⟨a', v, next, hthread, hstep⟩
  · rw [hstep]
  · rw [hstep]
  · rw [hstep]
    rw [hthread] at hi
    have hne : a ≠ a' := fun haa => ha i (haa ▸ hi.1)
    exact Function.update_of_ne hne v p.memory

/-- Under every schedule the outcomes of all threads and the cells of none stay. -/
theorem RaceFree.schedule (h : p.RaceFree reads writes) (order : List ι) :
    (p.schedule order).RaceFree reads writes ∧
      (∀ j, ∀ a ∈ reads j ∪ writes j, (p.schedule order).outcome j a = p.outcome j a) ∧
      ∀ a, (∀ j, a ∉ writes j) → (p.schedule order).memory a = p.memory a := by
  induction order generalizing p with
  | nil => exact ⟨h, fun _ _ _ => rfl, fun _ _ => rfl⟩
  | cons i order ih =>
      obtain ⟨hfree, hout, hframe⟩ := ih (h.advance i)
      refine ⟨hfree, fun j a ha => ?_, fun a ha => ?_⟩
      · exact (hout j a ha).trans (h.advance_outcome i j ha)
      · exact (hframe a ha).trans (h.advance_frame i ha)

/-- Once all threads are through, each cell holds what the thread that stores there
leaves alone. -/
theorem RaceFree.finished (h : p.RaceFree reads writes) {order : List ι}
    (hfin : (p.schedule order).Finished) :
    (∀ j, ∀ a ∈ writes j, (p.schedule order).memory a = p.outcome j a) ∧
      ∀ a, (∀ j, a ∉ writes j) → (p.schedule order).memory a = p.memory a := by
  obtain ⟨-, hout, hframe⟩ := h.schedule order
  refine ⟨fun j a ha => ?_, hframe⟩
  rw [← hout j a (Or.inr ha), outcome, hfin j]
  rfl

/-- The scheduler has no influence on the memory in the end. -/
theorem RaceFree.finished_unique (h : p.RaceFree reads writes) {order order' : List ι}
    (hfin : (p.schedule order).Finished) (hfin' : (p.schedule order').Finished) :
    (p.schedule order).memory = (p.schedule order').memory := by
  funext a
  by_cases ha : ∃ j, a ∈ writes j
  · obtain ⟨j, hj⟩ := ha
    rw [(h.finished hfin).1 j a hj, (h.finished hfin').1 j a hj]
  · have ha' : ∀ j, a ∉ writes j := fun j hj => ha ⟨j, hj⟩
    rw [(h.finished hfin).2 a ha', (h.finished hfin').2 a ha']

/-- One thread alone runs to its end, and no other thread takes a step meanwhile. -/
theorem exists_schedule_alone (p : Pool ι A V) (i : ι) : ∃ k,
    p.schedule (List.replicate k i) =
      ⟨p.outcome i, Function.update p.thread i (.done ())⟩ := by
  obtain ⟨x, hx⟩ : ∃ x, p.thread i = x := ⟨_, rfl⟩
  induction x generalizing p with
  | done b =>
      refine ⟨0, ?_⟩
      have hsame : Function.update p.thread i (.done ()) = p.thread := by
        rw [Function.update_eq_self_iff, hx]
      rw [outcome, hx, hsame]
      rfl
  | load a next ih =>
      obtain ⟨k, hk⟩ := ih (p.memory a) (p.advance i) (by
        rw [advance, hx]
        exact Function.update_self i _ _)
      refine ⟨k + 1, ?_⟩
      rw [List.replicate_succ, schedule_cons, hk]
      simp only [outcome, advance, hx, Function.update_self, Function.update_idem, Prog.run]
  | store a v next ih =>
      obtain ⟨k, hk⟩ := ih (p.advance i) (by
        rw [advance, hx]
        exact Function.update_self i _ _)
      refine ⟨k + 1, ?_⟩
      rw [List.replicate_succ, schedule_cons, hk]
      simp only [outcome, advance, hx, Function.update_self, Function.update_idem, Prog.run]

/-- The memory after the listed threads ran one after another. -/
def sequential (p : Pool ι A V) (order : List ι) : A → V :=
  order.foldl (fun m i => ((p.thread i).run m).2) p.memory

/-- Running the threads one after another is one of the schedules. -/
theorem exists_schedule_sequential (p : Pool ι A V) {order : List ι} (hnodup : order.Nodup) :
    ∃ steps, (p.schedule steps).memory = p.sequential order ∧
      ∀ i, (p.schedule steps).thread i = if i ∈ order then .done () else p.thread i := by
  induction order generalizing p with
  | nil => exact ⟨[], rfl, fun i => by simp⟩
  | cons i order ih =>
      obtain ⟨hi, hrest⟩ := List.nodup_cons.1 hnodup
      obtain ⟨k, hk⟩ := p.exists_schedule_alone i
      obtain ⟨steps, hmem, hthread⟩ :=
        ih ⟨p.outcome i, Function.update p.thread i (.done ())⟩ hrest
      refine ⟨List.replicate k i ++ steps, ?_, fun j => ?_⟩
      · rw [schedule_append, hk, hmem]
        refine List.foldl_ext _ _ _ fun m j hj => ?_
        have hne : j ≠ i := fun hji => hi (hji ▸ hj)
        simp only [Function.update_of_ne hne]
      · rw [schedule_append, hk, hthread]
        rcases eq_or_ne j i with rfl | hne
        · simp
        · simp [hne]

/-- Every schedule can be carried on until all of finitely many threads are through. -/
theorem exists_finished [Fintype ι] (p : Pool ι A V) (order : List ι) :
    ∃ rest, (p.schedule (order ++ rest)).Finished := by
  obtain ⟨rest, -, hthread⟩ := (p.schedule order).exists_schedule_sequential
    (Finset.univ : Finset ι).nodup_toList
  refine ⟨rest, fun i => ?_⟩
  rw [schedule_append, hthread, if_pos (Finset.mem_toList.2 (Finset.mem_univ i))]

/-- A race-free pool ends like its threads one after another, in any order. -/
theorem RaceFree.finished_sequential (h : p.RaceFree reads writes) {order steps : List ι}
    (hnodup : order.Nodup) (hall : ∀ i, i ∈ order) (hfin : (p.schedule steps).Finished) :
    (p.schedule steps).memory = p.sequential order := by
  obtain ⟨steps', hmem, hthread⟩ := p.exists_schedule_sequential hnodup
  rw [← hmem]
  apply h.finished_unique hfin
  intro i
  rw [hthread, if_pos (hall i)]

end Pool

end SharedMemory
