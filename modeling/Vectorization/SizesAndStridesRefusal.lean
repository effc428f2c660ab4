/-
Requests that the allocator refuses.  A method asks for memory once at most, and a
refusal ends it: `resize` of an inline object has changed nothing by then, the other
methods have put the null pointer into the union.
-/
import Vectorization.Foundation.Outcome
import Vectorization.SizesAndStridesRefinement

namespace Vectorization.SizesAndStrides

open BlockStore AtomicRun Outcome

/-- The two checks of a null pointer. -/
def Stop.Refusal (stop : Stop) : Prop := stop = .outOfMemory ∨ stop = .outOfMemoryResize

instance (stop : Stop) : Decidable stop.Refusal :=
  inferInstanceAs (Decidable (_ ∨ _))

/-- The same memory, with every request granted. -/
def generous (supply : Supply Word) : Supply Word := { supply with grants := fun _ => true }

section Steady

variable {α β : Type} {id target rhs first count : Nat} {p : Option Nat}

/-- The method asks for no memory and changes one object at most: it raises nothing but
faults, takes no number and leaves the other objects alone. -/
def Steady (target : Nat) (x : Method α) : Prop :=
  ∀ m, Delivers (· = .fault) (fun _ t => t.blocks.next = m.blocks.next ∧
    ∀ i ≠ target, t.objects i = m.objects i) (x m)

theorem steady_pure (a : α) : Steady target (pure a : Method α) :=
  fun _ => ⟨rfl, fun _ _ => rfl⟩

theorem Steady.bind {x : Method α} {f : α → Method β} (hx : Steady target x)
    (hf : ∀ a, Steady target (f a)) : Steady target (x >>= f) := by
  intro m
  refine (hx m).bind fun a t ht => (hf a t).mono fun b u hu => ?_
  exact ⟨hu.1.trans ht.1, fun i hi => (hu.2 i hi).trans (ht.2 i hi)⟩

theorem steady_access (v : Option α) : Steady target (access v) := by
  cases v with
  | none => exact fun _ => rfl
  | some a => exact steady_pure a

theorem steady_get : Steady target (get : Method Machine) :=
  fun _ => ⟨rfl, fun _ _ => rfl⟩

theorem steady_setObject (o : Object) : Steady id (setObject id o) :=
  fun m => ⟨rfl, fun _ hi => m.withObject_ne hi o⟩

theorem steady_setBlocks {f : Blocks Word → Blocks Word} (hf : ∀ s, (f s).next = s.next) :
    Steady target (modify fun m => { m with blocks := f m.blocks } : Method PUnit) :=
  fun m => ⟨hf m.blocks, fun _ _ => rfl⟩

theorem steady_getObject : Steady target (getObject id) :=
  steady_get.bind fun m => steady_access (m.objects id)

theorem steady_setSize (n : Nat) : Steady id (setSize id n) :=
  steady_getObject.bind fun _ => steady_setObject _

theorem steady_readInline : Steady target (readInline id first count) :=
  steady_getObject.bind fun o => steady_access (o.storage.read first count)

theorem steady_writeInline (source : Nat → Word) :
    Steady id (writeInline id first count source) :=
  steady_getObject.bind fun o =>
    (steady_access (o.storage.write first count source)).bind fun _ => steady_setObject _

theorem steady_outOfLineStorage : Steady target (outOfLineStorage id) := by
  refine steady_getObject.bind fun o => ?_
  split
  · exact steady_pure _
  · exact fun _ => rfl

theorem steady_setOutOfLineStorage : Steady id (setOutOfLineStorage id p) :=
  steady_writeInline _

theorem steady_getBlock : Steady target (getBlock p) :=
  (steady_access p).bind fun b => steady_get.bind fun m =>
    (steady_access (m.blocks.block b)).bind fun _ => steady_pure _

theorem steady_readBlock : Steady target (readBlock p first count) :=
  steady_getBlock.bind fun r => steady_access (r.2.read first count)

theorem steady_writeBlock (source : Nat → Word) :
    Steady target (writeBlock p first count source) :=
  steady_getBlock.bind fun r =>
    (steady_access (r.2.write first count source)).bind fun content =>
      steady_setBlocks (f := fun s => s.set r.1 content) fun _ => rfl

theorem steady_zeroBlock : Steady target (zeroBlock p first count) := by
  rw [zeroBlock]
  split
  · exact steady_pure _
  · exact steady_writeBlock zeros

theorem steady_freeBlock : Steady target (freeBlock p) := by
  cases p with
  | none => exact steady_pure _
  | some b =>
      exact steady_getBlock.bind fun _ =>
        steady_setBlocks (f := fun s => s.free b) fun _ => rfl

theorem steady_place (n : Nat) : Steady id (place id n) := by
  refine steady_get.bind fun m => ?_
  dsimp only
  split
  · exact Steady.bind (fun _ => rfl) fun _ => steady_setObject _
  · exact steady_setObject _

theorem steady_copyDataInline : Steady id (copyDataInline id rhs) :=
  steady_readInline.bind fun words => steady_writeInline words

theorem steady_copyDataOutline : Steady target (copyDataOutline id rhs) :=
  steady_getObject.bind fun _ => steady_outOfLineStorage.bind fun _ =>
    steady_readBlock.bind fun words => steady_outOfLineStorage.bind fun _ =>
      steady_writeBlock words

theorem steady_writeSizes (k : Nat) (words : List Int) :
    Steady id (writeSizes id k words) := by
  refine steady_getObject.bind fun o => ?_
  split
  · exact steady_writeInline _
  · exact steady_outOfLineStorage.bind fun _ => steady_writeBlock _

theorem steady_writeStrides (k : Nat) (words : List Int) :
    Steady id (writeStrides id k words) := by
  refine steady_getObject.bind fun o => ?_
  split
  · exact steady_writeInline _
  · exact steady_outOfLineStorage.bind fun _ => steady_writeBlock _

end Steady

section Requests

variable {supply : Supply Word} {m : Machine} {id rhs n : Nat} {p : Option Nat}

/-- The next request is granted. -/
def Grants (supply : Supply Word) (m : Machine) : Prop := supply.grants m.blocks.next = true

theorem malloc_granted (h : Grants supply m) (n : Nat) :
    malloc supply n m = malloc (generous supply) n m := by
  have hmalloc : m.blocks.malloc supply n = m.blocks.malloc (generous supply) n := by
    rw [Blocks.malloc, if_pos (show supply.grants m.blocks.next = true from h)]
    rfl
  change EStateM.Result.ok (m.blocks.malloc supply n).1
    (m.withBlocks (m.blocks.malloc supply n).2) = _
  rw [hmalloc]
  rfl

theorem malloc_refused (h : ¬ Grants supply m) (n : Nat) :
    malloc supply n m = .ok none (m.withBlocks m.blocks.skip) := by
  have hmalloc : m.blocks.malloc supply n = (none, m.blocks.skip) := if_neg h
  change EStateM.Result.ok (m.blocks.malloc supply n).1
    (m.withBlocks (m.blocks.malloc supply n).2) = _
  rw [hmalloc]

theorem getBlock_none {b : Nat} (h : m.blocks.block b = none) :
    getBlock (some b) m = .error .fault m := by
  change (access (m.blocks.block b) >>= fun content => pure (b, content)) m = _
  rw [h]
  rfl

theorem realloc_granted (h : Grants supply m) (p : Option Nat) (n : Nat) :
    realloc supply p n m = realloc (generous supply) p n m := by
  cases p with
  | none => rfl
  | some b =>
      cases hb : m.blocks.block b with
      | none =>
          have hget := getBlock_none hb
          exact (bind_error.2 (Or.inl hget)).trans (bind_error.2 (Or.inl hget)).symm
      | some content =>
          have hrealloc : m.blocks.realloc supply b content n =
              m.blocks.realloc (generous supply) b content n := by
            rw [Blocks.realloc, if_pos (show supply.grants m.blocks.next = true from h)]
            rfl
          rw [realloc, realloc, bind_of_ok (getBlock_ok hb), bind_of_ok (getBlock_ok hb)]
          change EStateM.Result.ok (m.blocks.realloc supply b content n).1
            (m.withBlocks (m.blocks.realloc supply b content n).2) = _
          rw [hrealloc]
          rfl

theorem realloc_refused (h : ¬ Grants supply m) {b : Nat} {content : Block Word}
    (hb : m.blocks.block b = some content) (n : Nat) :
    realloc supply (some b) n m = .ok none (m.withBlocks m.blocks.skip) := by
  have hrealloc : m.blocks.realloc supply b content n = (none, m.blocks.skip) := if_neg h
  rw [realloc, bind_of_ok (getBlock_ok hb)]
  change EStateM.Result.ok (m.blocks.realloc supply b content n).1
    (m.withBlocks (m.blocks.realloc supply b content n).2) = _
  rw [hrealloc]

end Requests

section Agreement

variable {supply : Supply Word} {id rhs n : Nat}

/-- Every stop but the refused `set_strides`, which alone is handled. -/
def Stop.Ends (stop : Stop) : Prop := stop ≠ .strideCount

theorem Steady.ends {α : Type} {x : Method α} (h : Steady id x) (m : Machine) :
    Delivers Stop.Ends (fun _ _ => True) (x m) := by
  have hx := h m
  cases hrun : x m with
  | ok a t => exact trivial
  | error e t =>
      rw [hrun] at hx
      obtain rfl : e = .fault := hx
      exact fun heq => by cases heq

theorem allocateOutOfLineStorage_agrees :
    AgreesUnless Stop.Ends (allocateOutOfLineStorage supply id n)
      (allocateOutOfLineStorage (generous supply) id n) := by
  intro m
  by_cases hgrant : Grants supply m
  · left
    rw [allocateOutOfLineStorage, allocateOutOfLineStorage]
    exact bind_congr_at (malloc_granted hgrant _)
  · right
    rw [allocateOutOfLineStorage, bind_of_ok (malloc_refused hgrant _)]
    refine (steady_setOutOfLineStorage.ends _).bind fun _ _ _ => ?_
    rw [if_pos rfl]
    exact delivers_throw fun heq => by cases heq

theorem resizeOutOfLineStorage_agrees :
    AgreesUnless Stop.Ends (resizeOutOfLineStorage supply id n)
      (resizeOutOfLineStorage (generous supply) id n) := by
  refine .bind (.refl _) fun p m => ?_
  by_cases hgrant : Grants supply m
  · left
    exact bind_congr_at (realloc_granted hgrant p _)
  · right
    have hrealloc : Delivers Stop.Ends (fun q _ => q = none)
        (realloc supply p (storageWords n) m) := by
      cases p with
      | none => exact fun heq => by cases heq
      | some b =>
          cases hb : m.blocks.block b with
          | none =>
              rw [realloc, bind_error.2 (Or.inl (getBlock_none hb))]
              exact fun heq => by cases heq
          | some content =>
              rw [realloc_refused hgrant hb]
              exact rfl
    refine hrealloc.bind fun q t hq => ?_
    refine (steady_setOutOfLineStorage.ends _).bind fun _ _ _ => ?_
    rw [if_pos hq]
    exact delivers_throw fun heq => by cases heq

theorem copyConstruct_agrees :
    AgreesUnless Stop.Ends (copyConstruct supply id rhs)
      (copyConstruct (generous supply) id rhs) := by
  refine .bind (.refl _) fun r => .bind (.refl _) fun _ => ?_
  split
  · exact .refl _
  · exact .bind allocateOutOfLineStorage_agrees fun _ => .refl _

theorem copyAssign_agrees :
    AgreesUnless Stop.Ends (copyAssign supply id rhs) (copyAssign (generous supply) id rhs) := by
  rw [copyAssign, copyAssign]
  split
  · exact .refl _
  refine .bind (.refl _) fun r => .bind (.refl _) fun o => ?_
  split
  · exact .refl _
  · split
    · exact .bind allocateOutOfLineStorage_agrees fun _ => .refl _
    · exact .bind resizeOutOfLineStorage_agrees fun _ => .refl _

theorem resizeSlowPath_agrees (oldSize : Nat) :
    AgreesUnless Stop.Ends (resizeSlowPath supply id n oldSize)
      (resizeSlowPath (generous supply) id n oldSize) := by
  refine .bind (.refl _) fun o => ?_
  split
  · exact .refl _
  · split
    · intro m
      by_cases hgrant : Grants supply m
      · left
        exact bind_congr_at (malloc_granted hgrant _)
      · right
        rw [bind_of_ok (malloc_refused hgrant _), if_pos rfl]
        exact fun heq => by cases heq
    · by_cases hgrow : oldSize < n
      · simp only [if_pos hgrow, if_neg (not_not.2 hgrow)]
        exact .bind resizeOutOfLineStorage_agrees fun _ => .refl _
      · simp only [if_neg hgrow, if_pos hgrow]
        exact .bind (.refl _) fun _ => .bind (.refl _) fun _ => .bind (.refl _) fun _ =>
          .bind (.refl _) fun _ => .bind resizeOutOfLineStorage_agrees fun _ => .refl _

theorem resize_agrees :
    AgreesUnless Stop.Ends (resize supply id n) (resize (generous supply) id n) := by
  refine .bind (.refl _) fun o => ?_
  dsimp only
  split
  · exact .refl _
  · split
    · exact .refl _
    · exact resizeSlowPath_agrees o.size

theorem perform_agrees (op : Op) :
    AgreesUnless Stop.Ends (op.perform supply) (op.perform (generous supply)) := by
  cases op with
  | copyConstruct id rhs => exact copyConstruct_agrees
  | copyAssign id rhs => exact copyAssign_agrees
  | resize id n => exact resize_agrees
  | setSizes id sizes => exact .bind resize_agrees fun _ => .refl _
  | _ => exact .refl _

theorem attempt_agrees (op : Op) :
    AgreesUnless Stop.Ends (op.attempt supply) (op.attempt (generous supply)) := by
  refine (perform_agrees op).tryCatch fun stop hends m => ?_
  cases stop with
  | strideCount => exact (hends rfl).elim
  | _ => exact hends

end Agreement

section Granted

variable {α β : Type} {supply : Supply Word} {id target rhs n : Nat}

/-- When the next request is granted, the method raises nothing but faults, and it
changes one object at most. -/
def Serves (supply : Supply Word) (target : Nat) (x : Method α) : Prop :=
  ∀ m, Grants supply m →
    Delivers (· = .fault) (fun _ t => ∀ i ≠ target, t.objects i = m.objects i) (x m)

theorem Steady.serves {x : Method α} (hx : Steady target x) : Serves supply target x :=
  fun m _ => (hx m).mono fun _ _ h => h.2

theorem Steady.bind_serves {x : Method α} {f : α → Method β} (hx : Steady target x)
    (hf : ∀ a, Serves supply target (f a)) : Serves supply target (x >>= f) := by
  intro m hgrant
  refine (hx m).bind fun a t ht => ?_
  have hgrant' : Grants supply t := by
    rw [Grants, ht.1]
    exact hgrant
  exact (hf a t hgrant').mono fun b u hu i hi => (hu i hi).trans (ht.2 i hi)

theorem Serves.bind_steady {x : Method α} {f : α → Method β} (hx : Serves supply target x)
    (hf : ∀ a, Steady target (f a)) : Serves supply target (x >>= f) := by
  intro m hgrant
  refine (hx m hgrant).bind fun a t ht => ?_
  exact (hf a t).mono fun b u hu i hi => (hu.2 i hi).trans (ht i hi)

theorem serves_malloc {f : Option Nat → Method β} (words : Nat)
    (hf : ∀ b, Steady target (f (some b))) : Serves supply target (malloc supply words >>= f) := by
  intro m hgrant
  rw [bind_congr_at (malloc_granted hgrant words), bind_of_ok (malloc_ok (fun _ => rfl) words)]
  exact (hf _ _).mono fun _ _ h => h.2

theorem serves_allocateOutOfLineStorage :
    Serves supply id (allocateOutOfLineStorage supply id n) := by
  refine serves_malloc _ fun b => steady_setOutOfLineStorage.bind fun _ => ?_
  rw [if_neg (by simp)]
  exact steady_pure ()

theorem serves_resizeOutOfLineStorage :
    Serves supply id (resizeOutOfLineStorage supply id n) := by
  refine steady_outOfLineStorage.bind_serves fun p m hgrant => ?_
  rw [bind_congr_at (realloc_granted hgrant p _)]
  have hrealloc : Delivers (· = .fault) (fun q t => q ≠ none ∧ t.objects = m.objects)
      (realloc (generous supply) p (storageWords n) m) := by
    cases p with
    | none => exact rfl
    | some b =>
        cases hb : m.blocks.block b with
        | none =>
            rw [realloc, bind_error.2 (Or.inl (getBlock_none hb))]
            exact rfl
        | some content =>
            rw [realloc_ok (fun _ => rfl) hb]
            exact ⟨Option.some_ne_none _, rfl⟩
  refine hrealloc.bind fun q t hq => ?_
  rw [← hq.2, if_neg hq.1]
  exact ((steady_setOutOfLineStorage.bind fun _ => steady_pure ()) t).mono fun _ _ h => h.2

theorem serves_resizeSlowPath (oldSize : Nat) :
    Serves supply id (resizeSlowPath supply id n oldSize) := by
  refine steady_getObject.bind_serves fun o => ?_
  split
  · exact Steady.serves <| steady_outOfLineStorage.bind fun _ => steady_readBlock.bind fun _ =>
      (steady_writeInline _).bind fun _ => steady_readBlock.bind fun _ =>
        (steady_writeInline _).bind fun _ => steady_freeBlock.bind fun _ => steady_setSize n
  · split
    · refine serves_malloc _ fun b => ?_
      rw [if_neg (by simp)]
      exact steady_readInline.bind fun _ => (steady_writeBlock _).bind fun _ =>
        steady_zeroBlock.bind fun _ => steady_readInline.bind fun _ =>
          (steady_writeBlock _).bind fun _ => steady_zeroBlock.bind fun _ =>
            steady_setOutOfLineStorage.bind fun _ => steady_setSize n
    · by_cases hgrow : oldSize < n
      · simp only [if_pos hgrow, if_neg (not_not.2 hgrow)]
        exact serves_resizeOutOfLineStorage.bind_steady fun _ =>
          steady_outOfLineStorage.bind fun _ => steady_readBlock.bind fun _ =>
            steady_outOfLineStorage.bind fun _ => (steady_writeBlock _).bind fun _ =>
              steady_outOfLineStorage.bind fun _ => (steady_writeBlock _).bind fun _ =>
                steady_outOfLineStorage.bind fun _ => (steady_writeBlock _).bind fun _ =>
                  steady_setSize n
      · simp only [if_neg hgrow, if_pos hgrow]
        exact steady_outOfLineStorage.bind_serves fun _ => steady_readBlock.bind_serves fun _ =>
          steady_outOfLineStorage.bind_serves fun _ => (steady_writeBlock _).bind_serves fun _ =>
            serves_resizeOutOfLineStorage.bind_steady fun _ => steady_setSize n

theorem serves_resize : Serves supply id (resize supply id n) := by
  refine steady_getObject.bind_serves fun o => ?_
  dsimp only
  split
  · exact (steady_pure ()).serves
  · split
    · split
      · exact Steady.serves <| (steady_writeInline _).bind fun _ =>
          (steady_writeInline _).bind fun _ => steady_setSize n
      · exact (steady_setSize n).serves
    · exact serves_resizeSlowPath o.size

theorem serves_copyConstruct : Serves supply id (copyConstruct supply id rhs) := by
  refine steady_getObject.bind_serves fun r => (steady_place r.size).bind_serves fun _ => ?_
  split
  · exact steady_copyDataInline.serves
  · exact serves_allocateOutOfLineStorage.bind_steady fun _ => steady_copyDataOutline

theorem serves_setSizes (sizes : List Int) : Serves supply id (setSizes supply id sizes) :=
  serves_resize.bind_steady fun _ => steady_writeSizes 0 sizes

theorem serves_copyAssign : Serves supply id (copyAssign supply id rhs) := by
  rw [copyAssign]
  split
  · exact (steady_pure ()).serves
  refine steady_getObject.bind_serves fun r => steady_getObject.bind_serves fun o => ?_
  split
  · split
    · exact Steady.serves <| steady_outOfLineStorage.bind fun _ => steady_freeBlock.bind fun _ =>
        steady_copyDataInline.bind fun _ => steady_setSize r.size
    · exact Steady.serves <| steady_copyDataInline.bind fun _ => steady_setSize r.size
  · split
    · exact serves_allocateOutOfLineStorage.bind_steady fun _ =>
        steady_copyDataOutline.bind fun _ => steady_setSize r.size
    · exact serves_resizeOutOfLineStorage.bind_steady fun _ =>
        steady_copyDataOutline.bind fun _ => steady_setSize r.size

end Granted

section Lengths

variable {supply : Supply Word} {m m' : Machine} {σ : Shapes} {id b n first count : Nat}

/-- The block has `length` words. -/
def Sized (m : Machine) (b length : Nat) : Prop :=
  ∃ content, m.blocks.block b = some content ∧ content.length = length

theorem checks_access {α : Type} (v : Option α) : Checks (access v) := by
  cases v with
  | none => exact checks_raising (.error Stop.fault)
  | some a => exact checks_pure a

theorem checks_getObject : Checks (getObject id) :=
  checks_get.bind fun m => checks_access (m.objects id)

theorem checks_readInline : Checks (readInline id first count) :=
  checks_getObject.bind fun o => checks_access (o.storage.read first count)

theorem checks_readBlock {p : Option Nat} : Checks (readBlock p first count) :=
  Checks.bind ((checks_access p).bind fun b => checks_get.bind fun m =>
    (checks_access (m.blocks.block b)).bind fun _ => checks_pure _)
      fun r => checks_access (r.2.read first count)

theorem writeBlock_sized {length : Nat} (h : Sized m b length) {source : Nat → Word}
    (hrun : writeBlock (some b) first count source m = .ok () m') :
    first + count ≤ length ∧ Sized m' b length := by
  obtain ⟨content, hb, rfl⟩ := h
  by_cases hle : first + count ≤ content.length
  · rw [writeBlock_ok hb hle] at hrun
    cases hrun
    exact ⟨hle, _, Blocks.set_block_self, rfl⟩
  · rw [writeBlock, bind_of_ok (getBlock_ok hb)] at hrun
    simp only [Block.write, if_neg hle] at hrun
    cases hrun

theorem zeroBlock_sized {length : Nat} (h : Sized m b length)
    (hrun : zeroBlock (some b) first count m = .ok () m') : Sized m' b length := by
  by_cases hcount : count = 0
  · rw [zeroBlock, if_pos hcount] at hrun
    cases hrun
    exact h
  · rw [zeroBlock, if_neg hcount] at hrun
    exact (writeBlock_sized h hrun).2

/-- From the limit on, a block is too short for the sizes alone. -/
theorem storageWords_lt (h : lengthLimit ≤ n) : storageWords n < n := by
  rw [lengthLimit] at h
  rw [storageWords, wordCount]
  omega

/-- A `resize` that returns has asked for a length within the limit. -/
theorem resize_small (hgrants : ∀ k, supply.grants k = true) (h : Represents m σ) {g : Shape}
    (hg : σ id = some g) (hrun : resize supply id n m = .ok () m') : n < lengthLimit := by
  obtain ⟨o, ho, hold⟩ := h.object hg
  by_contra hlarge
  rw [Nat.not_lt] at hlarge
  have hshort := storageWords_lt hlarge
  have hlt := hold.size_lt
  have hn : ¬ n ≤ maxInlineSize := by
    rw [lengthLimit] at hlarge
    rw [maxInlineSize]
    omega
  rw [resize, bind_of_ok (getObject_ok ho)] at hrun
  dsimp only at hrun
  rw [hold.size_eq, if_neg (by omega), if_neg (by tauto), resizeSlowPath,
    bind_of_ok (getObject_ok ho)] at hrun
  dsimp only at hrun
  rw [if_neg hn] at hrun
  cases hin : o.isInline with
  | true =>
      rw [hin, if_pos rfl, bind_of_ok (malloc_ok hgrants _), if_neg (by simp)] at hrun
      have h₀ : Sized (m.withBlocks (m.blocks.push ⟨storageWords n,
          supply.junk m.blocks.next⟩)) m.blocks.next (storageWords n) :=
        ⟨_, Blocks.push_block_self, rfl⟩
      obtain ⟨words, m₁, hread, hrun⟩ := bind_ok.1 hrun
      rw [checks_readInline.ok hread] at hrun
      obtain ⟨_, m₂, hwrite, hrun⟩ := bind_ok.1 hrun
      have h₂ := (writeBlock_sized h₀ hwrite).2
      obtain ⟨_, m₃, hzero, hrun⟩ := bind_ok.1 hrun
      have h₃ := zeroBlock_sized h₂ hzero
      obtain ⟨words, m₄, hread, hrun⟩ := bind_ok.1 hrun
      rw [checks_readInline.ok hread] at hrun
      obtain ⟨_, m₅, hwrite, -⟩ := bind_ok.1 hrun
      have hfits := (writeBlock_sized h₃ hwrite).1
      omega
  | false =>
      obtain ⟨b, content, hcell, hblock, -, -⟩ := hold.outline hin
      rw [hin, if_neg (by decide), if_pos (by omega), bind_of_ok
        (resizeOutOfLineStorage_granted hgrants ho hold.storage_length hcell hblock n),
        bind_of_ok (outOfLineStorage_ok (m.withObject_withBlocks_self ..) rfl)] at hrun
      obtain ⟨words, m₁, hread, hrun⟩ := bind_ok.1 hrun
      rw [checks_readBlock.ok hread,
        bind_of_ok (outOfLineStorage_ok (m.withObject_withBlocks_self ..) rfl)] at hrun
      obtain ⟨_, m₂, hwrite, -⟩ := bind_ok.1 hrun
      have hfits := (writeBlock_sized ⟨_, Blocks.push_block_self, rfl⟩ hwrite).1
      simp only [Blocks.reallocated] at hfits
      omega

theorem attempt_performs {op : Op} (hrun : op.attempt supply m = .ok () m') :
    op.perform supply m = .ok () m' ∨ ∃ t, op.perform supply m = .error .strideCount t := by
  change EStateM.tryCatch (op.perform supply) _ m = _ at hrun
  rw [EStateM.tryCatch] at hrun
  cases hperform : op.perform supply m with
  | ok a t =>
      rw [hperform] at hrun
      exact Or.inl hrun
  | error e t =>
      rw [hperform] at hrun
      cases e with
      | strideCount => exact Or.inr ⟨t, rfl⟩
      | _ => cases hrun

/-- A call that raises only faults returns where its attempt does. -/
theorem Serves.performs (op : Op) (hserves : Serves supply id (op.perform supply))
    (hgrants : ∀ k, supply.grants k = true) (hrun : op.attempt supply m = .ok () m') :
    op.perform supply m = .ok () m' := by
  rcases attempt_performs hrun with hok | ⟨t, herror⟩
  · exact hok
  · have hfault := hserves m (hgrants _)
    rw [herror] at hfault
    cases hfault

theorem attempt_small (hgrants : ∀ k, supply.grants k = true) (h : Represents m σ)
    {op : Op} {σ' : Shapes} (hop : op.shapes σ = some σ')
    (hrun : op.attempt supply m = .ok () m') : op.Small := by
  cases op with
  | resize id n =>
      simp only [Op.shapes, Option.bind_eq_bind, Option.bind_eq_some_iff] at hop
      obtain ⟨g, hg, -⟩ := hop
      exact resize_small hgrants h hg (serves_resize.performs (.resize id n) hgrants hrun)
  | setSizes id sizes =>
      simp only [Op.shapes, Option.bind_eq_bind, Option.bind_eq_some_iff] at hop
      obtain ⟨g, hg, -⟩ := hop
      obtain ⟨_, m₁, hresize, -⟩ :=
        bind_ok.1 ((serves_setSizes sizes).performs (.setSizes id sizes) hgrants hrun)
      exact resize_small hgrants h hg hresize
  | _ => exact trivial

end Lengths

section Refused

variable {supply : Supply Word} {m m' : Machine} {σ : Shapes} {stop : Stop} {o : Object}
  {id n : Nat}

/-- The union after the null pointer was stored: the first inline size, or the address
of the block, is gone. -/
def Object.nulled (o : Object) : Object :=
  { o with storage := o.storage.put 0 1 fun _ => .pointer none }

theorem allocateOutOfLineStorage_refused (h : ¬ Grants supply m) (ho : m.objects id = some o)
    (hlen : o.storage.length = 2 * maxInlineSize) (n : Nat) :
    allocateOutOfLineStorage supply id n m =
      .error .outOfMemory ((m.withObject id o.nulled).withBlocks m.blocks.skip) := by
  have ho' : (m.withBlocks m.blocks.skip).objects id = some o := ho
  rw [allocateOutOfLineStorage, bind_of_ok (malloc_refused h _),
    bind_of_ok (setOutOfLineStorage_ok ho' hlen none)]
  rfl

theorem resizeOutOfLineStorage_refused (h : ¬ Grants supply m) (ho : m.objects id = some o)
    (hlen : o.storage.length = 2 * maxInlineSize) {b : Nat} {content : Block Word}
    (hcell : o.storage.cell 0 = .pointer (some b)) (hb : m.blocks.block b = some content)
    (n : Nat) :
    resizeOutOfLineStorage supply id n m =
      .error .outOfMemory ((m.withObject id o.nulled).withBlocks m.blocks.skip) := by
  have ho' : (m.withBlocks m.blocks.skip).objects id = some o := ho
  rw [resizeOutOfLineStorage, bind_of_ok (outOfLineStorage_ok ho hcell),
    bind_of_ok (realloc_refused h hb _), bind_of_ok (setOutOfLineStorage_ok ho' hlen none)]
  rfl

theorem Serves.frame {α : Type} {x : Method α} (hx : Serves supply id x)
    (hgrant : Grants supply m) {a : α} (hrun : x m = .ok a m') :
    ∀ i ≠ id, m'.objects i = m.objects i := by
  have hframe := hx m hgrant
  rwa [hrun] at hframe

/-- A refusal can only come from a request that was not granted. -/
theorem Serves.refused {α : Type} {x : Method α} (hx : Serves supply id x)
    (hrun : x m = .error stop m') (hstop : stop.Refusal) : ¬ Grants supply m := by
  intro hgrant
  have hfault := hx m hgrant
  rw [hrun] at hfault
  obtain rfl : stop = .fault := hfault
  rcases hstop with heq | heq <;> cases heq

/-- What is left of an object whose `resize` was refused: everything when it was inline,
else a null pointer. -/
theorem resize_refused (h : Represents m σ) {g : Shape} (hg : σ id = some g)
    (ho : m.objects id = some o) (hrun : resize supply id n m = .error stop m')
    (hstop : stop.Refusal) :
    (o.isInline = true ∧ m' = m.withBlocks m.blocks.skip) ∨
      (o.isInline = false ∧ m'.objects id = some o.nulled) := by
  have hrefused := serves_resize.refused hrun hstop
  obtain ⟨o', ho', hold⟩ := h.object hg
  rw [ho] at ho'
  cases ho'
  have hne : n ≠ g.length := by
    rintro rfl
    rw [resize, bind_of_ok (getObject_ok ho)] at hrun
    dsimp only at hrun
    rw [if_pos hold.size_eq.symm] at hrun
    cases hrun
  cases hin : o.isInline with
  | true =>
      left
      have hn : ¬ n ≤ maxInlineSize := by
        intro hn
        obtain ⟨m₁, hok, -⟩ := resize_inline_refines supply h ho hold hin hn hne
        rw [hok] at hrun
        cases hrun
      rw [resize, bind_of_ok (getObject_ok ho)] at hrun
      dsimp only at hrun
      rw [hold.size_eq, if_neg hne, if_neg (fun hand => hn hand.1), resizeSlowPath,
        bind_of_ok (getObject_ok ho)] at hrun
      dsimp only at hrun
      rw [if_neg hn, if_pos hin, bind_of_ok (malloc_refused hrefused _), if_pos rfl] at hrun
      cases hrun
      exact ⟨rfl, rfl⟩
  | false =>
      right
      obtain ⟨b, content, hcell, hblock, hlen, -⟩ := hold.outline hin
      rw [hold.size_eq] at hlen
      rw [resize, bind_of_ok (getObject_ok ho)] at hrun
      dsimp only at hrun
      rw [hold.size_eq, if_neg hne, if_neg (by simp [hin])] at hrun
      have hn : ¬ n ≤ maxInlineSize := by
        intro hn
        obtain ⟨m₁, hok, -⟩ :=
          resize_shrink_inline_refines supply h ho hold hin hn
        rw [hok] at hrun
        cases hrun
      rw [resizeSlowPath, bind_of_ok (getObject_ok ho)] at hrun
      dsimp only at hrun
      rw [if_neg hn, hin, if_neg (by decide)] at hrun
      by_cases hgrow : g.length < n
      · have hresize := resizeOutOfLineStorage_refused hrefused ho hold.storage_length hcell
          hblock n
        rw [if_pos hgrow, bind_error.2 (Or.inl hresize)] at hrun
        cases hrun
        exact ⟨rfl, m.withObject_self id _⟩
      · -- the strides are shifted before the block is asked for
        have hlt := hold.size_lt
        rw [lengthLimit] at hlt
        have ho' : ∀ s, (m.withBlocks s).objects id = some o := fun _ => ho
        rw [if_neg hgrow, Nat.min_eq_right (by omega), wordCount_of_lt (by omega),
          bind_of_ok (outOfLineStorage_ok ho hcell),
          bind_of_ok (readBlock_ok hblock (by omega)),
          bind_of_ok (outOfLineStorage_ok ho hcell),
          bind_of_ok (writeBlock_ok hblock (by omega) _), if_pos hgrow] at hrun
        have hresize := resizeOutOfLineStorage_refused
          (m := m.withBlocks (m.blocks.set b (content.put n n fun k =>
            content.cell (g.length + k)))) hrefused (ho' _) hold.storage_length hcell
            Blocks.set_block_self n
        rw [bind_error.2 (Or.inl hresize)] at hrun
        cases hrun
        exact ⟨rfl, Machine.withObject_withBlocks_self ..⟩

/-- A refused copy assignment leaves a null pointer. -/
theorem copyAssign_refused (h : Represents m σ) {rhs : Nat} {g g₀ : Shape}
    (hg : σ rhs = some g) (hg₀ : σ id = some g₀) (ho : m.objects id = some o)
    (hrun : copyAssign supply id rhs m = .error stop m') (hstop : stop.Refusal) :
    m' = (m.withObject id o.nulled).withBlocks m.blocks.skip := by
  have hrefused := serves_copyAssign.refused hrun hstop
  obtain ⟨r, hr, hold⟩ := h.object hg
  obtain ⟨o', ho', hold₀⟩ := h.object hg₀
  rw [ho] at ho'
  cases ho'
  by_cases hid : id = rhs
  · rw [copyAssign, if_pos hid] at hrun
    cases hrun
  rw [copyAssign, if_neg hid, bind_of_ok (getObject_ok hr), bind_of_ok (getObject_ok ho)] at hrun
  dsimp only at hrun
  cases hin : r.isInline with
  | true =>
      rw [hin, if_pos rfl] at hrun
      have hsteady : Steady id (do
          if ¬ o.isInline = true then freeBlock (← outOfLineStorage id)
          copyDataInline id rhs
          setSize id r.size : Method Unit) := by
        dsimp only
        split
        · exact steady_outOfLineStorage.bind fun _ => steady_freeBlock.bind fun _ =>
            steady_copyDataInline.bind fun _ => steady_setSize r.size
        · exact steady_copyDataInline.bind fun _ => steady_setSize r.size
      have hfault := hsteady m
      dsimp only at hfault
      rw [hrun] at hfault
      obtain rfl : stop = .fault := hfault
      rcases hstop with heq | heq <;> cases heq
  | false =>
      rw [hin, if_neg (by decide)] at hrun
      cases hin₀ : o.isInline with
      | true =>
          rw [hin₀, if_pos rfl, bind_error.2 (Or.inl (allocateOutOfLineStorage_refused
            hrefused ho hold₀.storage_length _))] at hrun
          cases hrun
          rfl
      | false =>
          obtain ⟨b, content, hcell, hblock, -, -⟩ := hold₀.outline hin₀
          rw [hin₀, if_neg (by decide), bind_error.2 (Or.inl (resizeOutOfLineStorage_refused
            hrefused ho hold₀.storage_length hcell hblock _))] at hrun
          cases hrun
          rfl

/-- A refused copy construction leaves an object that is not one: its constructor threw. -/
theorem copyConstruct_refused (h : Represents m σ) {rhs : Nat} {g : Shape}
    (hg : σ rhs = some g) (hnone : σ id = none)
    (hrun : copyConstruct supply id rhs m = .error stop m') (hstop : stop.Refusal) :
    ∃ o, m' = (m.withObject id o).withBlocks m.blocks.skip := by
  have hrefused := serves_copyConstruct.refused hrun hstop
  obtain ⟨r, hr, hold⟩ := h.object hg
  have hr' := Machine.withObject_absent (h.absent hnone) hr
  rw [copyConstruct, bind_of_ok (getObject_ok hr),
    bind_of_ok (place_ok (h.absent hnone) _)] at hrun
  cases hin : r.isInline with
  | true =>
      rw [hin, if_pos rfl, copyDataInline_ok (Machine.withObject_self ..) (hr' _) rfl
        hold.storage_length] at hrun
      cases hrun
  | false =>
      rw [hin, if_neg (by decide), bind_error.2 (Or.inl (allocateOutOfLineStorage_refused
        (m := m.withObject id ⟨r.size, zeroed⟩) hrefused (Machine.withObject_self ..) rfl
        _))] at hrun
      cases hrun
      exact ⟨_, by rw [Machine.withObject_withObject, Machine.withObject_blocks]⟩

/-- A refusal alone changes no object. -/
theorem Represents.skip (h : Represents m σ) : Represents (m.withBlocks m.blocks.skip) σ := by
  refine h.update (fun _ => False) (fun _ _ => ⟨rfl, rfl⟩) (fun _ hid => hid.elim)
    (fun _ _ hb _ => hb) (fun _ _ _ hid => hid.elim) (fun _ _ _ _ _ hid => hid.elim) ?_
  intro b hle
  exact h.fresh b (Nat.le_of_succ_le hle)

/-- The null pointer does no harm to an object without sizes. -/
theorem Represents.nulled (h : Represents m σ) {g : Shape} (hg : σ id = some g)
    (ho : m.objects id = some o) (hsize : o.size = 0) :
    Represents ((m.withObject id o.nulled).withBlocks m.blocks.skip) σ := by
  obtain ⟨o', ho', hold⟩ := h.object hg
  rw [ho] at ho'
  cases ho'
  have hempty : g.length = 0 := hold.size_eq.symm.trans hsize
  have hreads : Reads o.nulled.storage maxInlineSize g := fun k hk => by omega
  have hstep : Represents ((m.withBlocks m.blocks.skip).withObject id o.nulled)
      (Function.update σ id (some g)) :=
    h.skip.step_keep o.nulled hold.size_eq hold.storage_length (isInline_of_size_zero hsize)
      hreads
  rwa [← hg, Function.update_eq_self] at hstep

end Refused

section Kept

variable {m m' : Machine} {σ : Shapes} {o : Object} {id n : Nat}

/-- The inline buffer, or a live block of its own with room for the sizes and strides. -/
def OwnsStorage (m : Machine) (id : Nat) : Prop :=
  ∃ o, m.objects id = some o ∧ o.storage.length = 2 * maxInlineSize ∧
    (o.isInline = false → ∃ b content, o.storage.cell 0 = .pointer (some b) ∧
      m.blocks.block b = some content ∧ content.length = 2 * o.size ∧
      ∀ id' o', m.objects id' = some o' → o'.owner = some b → id' = id)

/-- An object with the length, the sizes and the strides that it had, and with storage
of its own. -/
structure Kept (m m' : Machine) (id : Nat) : Prop where
  size : ∃ o o', m.objects id = some o ∧ m'.objects id = some o' ∧ o'.size = o.size
  sizes : ∃ l, sizesArrayref id m = .ok l m ∧ sizesArrayref id m' = .ok l m'
  strides : ∃ l, stridesArrayref id m = .ok l m ∧ stridesArrayref id m' = .ok l m'
  storage : OwnsStorage m' id

theorem Represents.ownsStorage (h : Represents m σ) {g : Shape} (hg : σ id = some g) :
    OwnsStorage m id := by
  obtain ⟨o, ho, hold⟩ := h.object hg
  refine ⟨o, ho, hold.storage_length, fun hin => ?_⟩
  obtain ⟨b, content, hcell, hblock, hlen, -⟩ := hold.outline hin
  refine ⟨b, content, hcell, hblock, hlen, fun id' o' ho' hown => ?_⟩
  exact h.owned ho' ho hown (Object.owner_some hin hcell)

theorem kept_of_represents (h : Represents m σ) (h' : Represents m' σ) {g : Shape}
    (hg : σ id = some g) : Kept m m' id := by
  obtain ⟨o, ho, hold⟩ := h.object hg
  obtain ⟨o', ho', hold'⟩ := h'.object hg
  exact ⟨⟨o, o', ho, ho', hold'.size_eq.trans hold.size_eq.symm⟩,
    ⟨g.sizes, sizesArrayref_ok h hg, sizesArrayref_ok h' hg⟩,
    ⟨g.strides, stridesArrayref_ok h hg, stridesArrayref_ok h' hg⟩, h'.ownsStorage hg⟩

theorem mapM_returns {f : Nat → Method Int} {ks : List Nat} {l : List Int}
    (hrun : ks.mapM f m = .ok l m') : ∀ k ∈ ks, ∃ v t t', f k t = .ok v t' := by
  induction ks generalizing m m' l with
  | nil =>
      intro k hk
      cases hk
  | cons a ks ih =>
      rw [List.mapM_cons] at hrun
      obtain ⟨v, t, hfirst, hrest⟩ := bind_ok.1 hrun
      obtain ⟨l', t', hrest, hpure⟩ := bind_ok.1 hrest
      rw [List.forall_mem_cons]
      exact ⟨⟨v, m, t, hfirst⟩, ih hrest⟩

/-- Words that are read as integers are integers. -/
theorem integers_value {words : Nat → Word} {l : List Int}
    (hrun : integers n words m = .ok l m') {k : Nat} (hk : k < n) :
    ∃ v, words k = .value v := by
  obtain ⟨v, t, t', hword⟩ := mapM_returns hrun k (List.mem_range.2 hk)
  cases hcell : words k with
  | value w => exact ⟨w, rfl⟩
  | pointer p =>
      rw [hcell] at hword
      cases hword

/-- An object that lost its first size or its block is not kept. -/
theorem not_kept_of_nulled (ho : m'.objects id = some o.nulled)
    (hlost : o.isInline = false ∨ 0 < o.size) : ¬ Kept m m' id := by
  intro hkept
  obtain ⟨o', ho', hlen, howns⟩ := hkept.storage
  rw [ho] at ho'
  cases ho'
  cases hin : o.isInline with
  | true =>
      have hpos : 0 < o.size := hlost.resolve_left (by rw [hin]; decide)
      obtain ⟨l, -, hread⟩ := hkept.sizes
      have hle : o.size ≤ maxInlineSize := of_decide_eq_true hin
      have hread' : o.nulled.isInline = true := hin
      rw [sizesArrayref, bind_of_ok (getObject_ok ho), hread', if_pos rfl,
        bind_of_ok (readInline_ok ho (by rw [hlen, Nat.zero_add]; exact hle.trans (by decide)))]
        at hread
      obtain ⟨v, hv⟩ := integers_value hread hpos
      cases hv
  | false =>
      obtain ⟨b, content, hcell, -⟩ := howns hin
      cases hcell

end Kept

section Reached

variable {supply : Supply Word} {m m' : Machine} {σ σ' : Shapes} {stop : Stop} {o : Object}
  {id : Nat} {op : Op}

/-- The object whose length, sizes or strides a call sets. -/
def Op.target : Op → Option Nat
  | copyAssign id _ => some id
  | resize id _ => some id
  | setSizes id _ => some id
  | _ => none

/-- A refused request costs this call's object nothing: the call is a `resize` of an
inline object, or an assignment to one without sizes. -/
def Op.Spares (o : Object) : Op → Prop
  | copyAssign _ _ => o.size = 0
  | _ => o.isInline = true

/-- The states of a program, beside its list model.  The program may go on after a
refusal, when the call is one that spares its object, or constructs one. -/
inductive Reached (supply : Supply Word) : Machine → Shapes → Prop
  | start : Reached supply .empty fun _ => none
  | step {m m' : Machine} {σ σ' : Shapes} {op : Op} (hreached : Reached supply m σ)
      (hop : op.shapes σ = some σ') (hrun : op.attempt supply m = .ok () m') :
      Reached supply m' σ'
  | refused {m m' : Machine} {σ σ' : Shapes} {op : Op} {id : Nat} {o : Object} {stop : Stop}
      (hreached : Reached supply m σ) (hop : op.shapes σ = some σ')
      (htarget : op.target = some id) (ho : m.objects id = some o)
      (hrun : op.perform supply m = .error stop m') (hstop : stop.Refusal)
      (hspares : op.Spares o) : Reached supply m' σ
  | aborted {m m' : Machine} {σ σ' : Shapes} {id rhs : Nat} {stop : Stop}
      (hreached : Reached supply m σ) (hop : (Op.copyConstruct id rhs).shapes σ = some σ')
      (hrun : copyConstruct supply id rhs m = .error stop m') (hstop : stop.Refusal) :
      Reached supply { m' with objects := Function.update m'.objects id none } σ

/-- A step that returns was granted what it asked for. -/
theorem attempt_represents (h : Represents m σ) (hop : op.shapes σ = some σ')
    (hrun : op.attempt supply m = .ok () m') : Represents m' σ' := by
  have hgenerous := (attempt_agrees op).ok hrun
  have hgrants : ∀ k, (generous supply).grants k = true := fun _ => rfl
  obtain ⟨m'', hrun', h'⟩ :=
    attempt_refines hgrants h (attempt_small hgrants h hop hgenerous) hop
  rw [hgenerous] at hrun'
  cases hrun'
  exact h'

/-- A refusal leaves the list model's objects, or a null pointer in the one object. -/
theorem refused_represents (h : Represents m σ) (hop : op.shapes σ = some σ')
    (htarget : op.target = some id) (ho : m.objects id = some o)
    (hrun : op.perform supply m = .error stop m') (hstop : stop.Refusal) :
    (op.Spares o ∧ Represents m' σ) ∨
      (¬ op.Spares o ∧ m'.objects id = some o.nulled ∧ (o.isInline = false ∨ 0 < o.size)) := by
  have hresize : ∀ {n g}, σ id = some g → resize supply id n m = .error stop m' →
      (o.isInline = true ∧ Represents m' σ) ∨ (¬ o.isInline = true ∧
        m'.objects id = some o.nulled ∧ (o.isInline = false ∨ 0 < o.size)) := by
    intro n g hg hrun
    rcases resize_refused h hg ho hrun hstop with ⟨hin, rfl⟩ | ⟨hin, hnulled⟩
    · exact Or.inl ⟨hin, h.skip⟩
    · exact Or.inr ⟨by rw [hin]; decide, hnulled, Or.inl hin⟩
  cases op with
  | resize i n =>
      cases htarget
      simp only [Op.shapes, Option.bind_eq_bind, Option.bind_eq_some_iff] at hop
      obtain ⟨g, hg, -⟩ := hop
      exact hresize hg hrun
  | setSizes i sizes =>
      cases htarget
      simp only [Op.shapes, Option.bind_eq_bind, Option.bind_eq_some_iff] at hop
      obtain ⟨g, hg, -⟩ := hop
      rcases bind_error.1 hrun with hrun | ⟨_, t, -, hwrite⟩
      · exact hresize hg hrun
      · have hsteady : Steady id (writeSizes id 0 sizes) := steady_writeSizes 0 sizes
        have hfault := hsteady t
        rw [hwrite] at hfault
        obtain rfl : stop = .fault := hfault
        rcases hstop with heq | heq <;> cases heq
  | copyAssign i rhs =>
      cases htarget
      simp only [Op.shapes, Option.bind_eq_bind, Option.bind_eq_some_iff] at hop
      obtain ⟨g, hg, g₀, hg₀, -⟩ := hop
      have hm' := copyAssign_refused h hg hg₀ ho hrun hstop
      subst hm'
      by_cases hsize : o.size = 0
      · exact Or.inl ⟨hsize, h.nulled hg₀ ho hsize⟩
      · exact Or.inr ⟨hsize, m.withObject_withBlocks_self id _ _,
          Or.inr (Nat.pos_of_ne_zero hsize)⟩
  | _ => cases htarget

theorem Reached.represents (h : Reached supply m σ) : Represents m σ := by
  induction h with
  | start => exact represents_empty
  | step _ hop hrun ih => exact attempt_represents ih hop hrun
  | refused _ hop htarget ho hrun hstop hspares ih =>
      rcases refused_represents ih hop htarget ho hrun hstop with ⟨-, h⟩ | ⟨hnot, -⟩
      · exact h
      · exact absurd hspares hnot
  | @aborted m m' σ σ' id rhs stop _ hop hrun hstop ih =>
      simp only [Op.shapes, Option.bind_eq_bind, Option.bind_eq_some_iff,
        Option.isNone_iff_eq_none, Option.ite_none_right_eq_some] at hop
      obtain ⟨g, hg, hnone, -⟩ := hop
      obtain ⟨o, rfl⟩ := copyConstruct_refused ih hg hnone hrun hstop
      have hobjects : Function.update (Function.update m.objects id (some o)) id none =
          m.objects := by
        rw [Function.update_idem, ← ih.absent hnone, Function.update_eq_self]
      change Represents ⟨m.blocks.skip, Function.update (Function.update m.objects id (some o))
        id none⟩ σ
      rw [hobjects]
      exact ih.skip

theorem reached_of_runOps {ops : List Op} (h : Reached supply m σ)
    (hops : shapesAfter ops σ = some σ') (hrun : runOps supply ops m = .ok () m') :
    Reached supply m' σ' := by
  induction ops generalizing m σ with
  | nil =>
      cases hops
      cases hrun
      exact h
  | cons op ops ih =>
      rw [shapesAfter, Option.bind_eq_bind, Option.bind_eq_some_iff] at hops
      obtain ⟨σ₁, hop, hrest⟩ := hops
      obtain ⟨_, m₁, hfirst, hrun⟩ := bind_ok.1 hrun
      exact ih (h.step hop hfirst) hrest hrun

/-- In every state that a program reaches, the objects read back as their lists, and a
call that is refused keeps its object just when it spares it. -/
theorem refusal_keeps_iff (hreached : Reached supply m σ) (hop : op.shapes σ = some σ')
    (htarget : op.target = some id) (ho : m.objects id = some o)
    (hrun : op.perform supply m = .error stop m') (hstop : stop.Refusal) :
    ReadsBack m σ ∧ (Kept m m' id ↔ op.Spares o) := by
  have h := hreached.represents
  refine ⟨h.readsBack, ?_⟩
  rcases refused_represents h hop htarget ho hrun hstop with
    ⟨hspares, h'⟩ | ⟨hnot, hnulled, hlost⟩
  · cases hg : σ id with
    | none =>
        rw [h.absent hg] at ho
        cases ho
    | some g => exact iff_of_true (kept_of_represents h h' hg) hspares
  · exact iff_of_false (not_kept_of_nulled hnulled hlost) hnot

end Reached

namespace RefusalWitness

/-- An allocator that grants its first requests. -/
def grantsBelow (limit : Nat) : Supply Word := ⟨fun k => decide (k < limit), fun _ _ => .value 1⟩

/-- An inline object keeps its size of zero and its stride of one. -/
theorem refusal_keeps_iff_inline : ∃ m m', runOps (grantsBelow 0) [.defaultConstruct 0] .empty =
      .ok () m ∧ resize (grantsBelow 0) 0 6 m = .error .outOfMemoryResize m' ∧ Kept m m' 0 := by
  have hreached : Reached (grantsBelow 0) _ _ :=
    reached_of_runOps .start (show shapesAfter [.defaultConstruct 0] _ = _ from rfl) rfl
  have hkept := refusal_keeps_iff hreached (show (Op.resize 0 6).shapes _ = _ from rfl) rfl rfl
    (show _ = EStateM.Result.error Stop.outOfMemoryResize _ from rfl) (by decide)
  exact ⟨_, _, rfl, rfl, hkept.2.2 rfl⟩

/-- Growing from six to seven entries: the block is lost when `realloc` returns null. -/
theorem refusal_keeps_iff_outline : ¬ ∀ (supply : Supply Word) (m m' : Machine)
    (σ σ' : Shapes) (op : Op) (id : Nat) (stop : Stop), Reached supply m σ →
      op.shapes σ = some σ' → op.target = some id → op.perform supply m = .error stop m' →
      stop.Refusal → Kept m m' id := by
  intro h
  have hreached : Reached (grantsBelow 1) _ _ :=
    reached_of_runOps .start (show shapesAfter [.defaultConstruct 0, .resize 0 6] _ = _ from rfl)
      rfl
  have hkept := h _ _ _ _ _ (.resize 0 7) 0 .outOfMemory hreached rfl rfl rfl (by decide)
  obtain ⟨l, -, hread⟩ := hkept.sizes
  cases hread

end RefusalWitness

end Vectorization.SizesAndStrides
