/-
`sizes_and_strides` refines a pair of lists of equal length.  A machine
represents a list model when every live object reads back as its lists and no
two objects own one block; every method keeps that, without a fault, as long as
allocations succeed.
-/
import Vectorization.SizesAndStrides

namespace Vectorization.SizesAndStrides

open BlockStore AtomicRun

/-- What a `sizes_and_strides` stands for. -/
structure Shape where
  sizes : List Int
  strides : List Int
  length_eq : sizes.length = strides.length
deriving DecidableEq

/-- The first `n` entries, with zeros added where there are fewer. -/
def padTo (n : Nat) (l : List Int) : List Int :=
  l.take n ++ List.replicate (n - l.length) 0

@[simp] theorem padTo_length (n : Nat) (l : List Int) : (padTo n l).length = n := by
  rw [padTo, List.length_append, List.length_take, List.length_replicate]
  omega

theorem padTo_getD {n k : Nat} (l : List Int) (hk : k < n) :
    (padTo n l).getD k 0 = l.getD k 0 := by
  rw [padTo, List.getD_eq_getElem?_getD, List.getD_eq_getElem?_getD, List.getElem?_append,
    List.length_take]
  split
  · rw [List.getElem?_take_of_lt hk]
  · rw [List.getElem?_replicate, List.getElem?_eq_none (l := l) (by omega)]
    split <;> rfl

namespace Shape

def default : Shape := ⟨[0], [1], rfl⟩

def empty : Shape := ⟨[], [], rfl⟩

def length (g : Shape) : Nat := g.sizes.length

def resize (g : Shape) (n : Nat) : Shape :=
  ⟨padTo n g.sizes, padTo n g.strides, by simp⟩

def withSizes (g : Shape) (sizes : List Int) (h : sizes.length = g.length) : Shape :=
  ⟨sizes, g.strides, h.trans g.length_eq⟩

def withStrides (g : Shape) (strides : List Int) (h : strides.length = g.length) : Shape :=
  ⟨g.sizes, strides, h.symm⟩

end Shape

/-- The list model: the shape of every live object. -/
abbrev Shapes := Nat → Option Shape

/-- What an operation does to the list model; none when a program may not perform
it.  `set_strides` of another length is refused and changes nothing. -/
def Op.shapes : Op → Shapes → Option Shapes
  | defaultConstruct id, σ =>
      if (σ id).isNone then some (Function.update σ id (some .default)) else none
  | copyConstruct id rhs, σ => do
      let g ← σ rhs
      if (σ id).isNone then some (Function.update σ id (some g)) else none
  | moveConstruct id rhs, σ => do
      let g ← σ rhs
      if (σ id).isNone then
        some (Function.update (Function.update σ id (some g)) rhs (some .empty))
      else none
  | copyAssign id rhs, σ => do
      let g ← σ rhs
      let _ ← σ id
      some (Function.update σ id (some g))
  | moveAssign id rhs, σ => do
      let g ← σ rhs
      let _ ← σ id
      if id = rhs then some σ
      else some (Function.update (Function.update σ id (some g)) rhs (some .empty))
  | resize id n, σ => do
      let g ← σ id
      some (Function.update σ id (some (g.resize n)))
  | setSizes id sizes, σ => do
      let g ← σ id
      some (Function.update σ id
        (some ((g.resize sizes.length).withSizes sizes (padTo_length _ _).symm)))
  | setStrides id strides, σ => do
      let g ← σ id
      if h : strides.length = g.length then
        some (Function.update σ id (some (g.withStrides strides h)))
      else some σ
  | writeSize id k v, σ => do
      let g ← σ id
      if k < g.length then
        some (Function.update σ id
          (some (g.withSizes (g.sizes.set k v) List.length_set)))
      else none
  | writeStride id k v, σ => do
      let g ← σ id
      if k < g.length then
        some (Function.update σ id
          (some (g.withStrides (g.strides.set k v)
            (List.length_set.trans g.length_eq.symm))))
      else none
  | destroy id, σ => do
      let _ ← σ id
      some (Function.update σ id none)

/-- The list model after a program. -/
def shapesAfter : List Op → Shapes → Option Shapes
  | [], σ => some σ
  | op :: ops, σ => do shapesAfter ops (← op.shapes σ)

section Representation

/-- The block an object owns. -/
def Object.owner (o : Object) : Option Nat :=
  if o.isInline then none
  else
    match o.storage.cell 0 with
    | .pointer p => p
    | .value _ => none

/-- A buffer with sizes at its start and strides from `start` on. -/
def Reads (content : Block Word) (start : Nat) (g : Shape) : Prop :=
  ∀ k < g.length, content.cell k = wordsOf g.sizes k ∧
    content.cell (start + k) = wordsOf g.strides k

/-- From this length on, the bytes of sizes and strides wrap around. -/
def lengthLimit : Nat := 2 ^ 60

/-- An object and its shape. -/
structure Holds (s : Blocks Word) (o : Object) (g : Shape) : Prop where
  size_eq : o.size = g.length
  size_lt : g.length < lengthLimit
  storage_length : o.storage.length = 2 * maxInlineSize
  inline : o.isInline = true → Reads o.storage maxInlineSize g
  outline : o.isInline = false → ∃ b content,
    o.storage.cell 0 = .pointer (some b) ∧ s.block b = some content ∧
      content.length = 2 * o.size ∧ Reads content o.size g

/-- Live in both models, with the object holding the shape, or in neither. -/
def HoldsAt (s : Blocks Word) : Option Object → Option Shape → Prop
  | none, none => True
  | some o, some g => Holds s o g
  | _, _ => False

theorem wordCount_of_lt {n : Nat} (h : n < 2 ^ 61) : wordCount n = n := by
  rw [wordCount, Nat.mod_eq_of_lt (by omega), Nat.mul_div_cancel n (by decide)]

theorem storageWords_of_lt {n : Nat} (h : n < lengthLimit) : storageWords n = 2 * n := by
  rw [lengthLimit] at h
  rw [storageWords, wordCount_of_lt (by omega), Nat.mul_comm]

/-- The machine stands for the list model. -/
structure Represents (m : Machine) (σ : Shapes) : Prop where
  fresh : m.blocks.Fresh
  holds : ∀ id, HoldsAt m.blocks (m.objects id) (σ id)
  owned : ∀ {id id' o o' b}, m.objects id = some o → m.objects id' = some o' →
    o.owner = some b → o'.owner = some b → id = id'

variable {m m' : Machine} {σ σ' : Shapes}

theorem Represents.object (h : Represents m σ) {id : Nat} {g : Shape}
    (hg : σ id = some g) : ∃ o, m.objects id = some o ∧ Holds m.blocks o g := by
  have hat := h.holds id
  rw [hg] at hat
  cases ho : m.objects id with
  | none =>
      rw [ho] at hat
      exact hat.elim
  | some o =>
      rw [ho] at hat
      exact ⟨o, rfl, hat⟩

theorem Represents.absent (h : Represents m σ) {id : Nat} (hg : σ id = none) :
    m.objects id = none := by
  have hat := h.holds id
  rw [hg] at hat
  cases ho : m.objects id with
  | none => rfl
  | some o =>
      rw [ho] at hat
      exact hat.elim

theorem Holds.owner_eq {s : Blocks Word} {o : Object} {g : Shape} (h : Holds s o g)
    {b : Nat} (hb : o.owner = some b) : ∃ content, o.isInline = false ∧
      o.storage.cell 0 = .pointer (some b) ∧ s.block b = some content ∧
      content.length = 2 * o.size ∧ Reads content o.size g := by
  rw [Object.owner] at hb
  split at hb <;> rename_i hinline
  · cases hb
  · rw [Bool.not_eq_true] at hinline
    obtain ⟨b', content, hcell, hrest⟩ := h.outline hinline
    rw [hcell] at hb
    cases hb
    exact ⟨content, hinline, hcell, hrest⟩

/-- An object does not notice changes to blocks it does not own. -/
theorem Holds.frame {s s' : Blocks Word} {o : Object} {g : Shape} (h : Holds s o g)
    (hframe : ∀ b content, o.owner = some b → s.block b = some content →
      s'.block b = some content) : Holds s' o g := by
  refine ⟨h.size_eq, h.size_lt, h.storage_length, h.inline, fun hinline => ?_⟩
  obtain ⟨b, content, hcell, hblock, hrest⟩ := h.outline hinline
  refine ⟨b, content, hcell, hframe b content ?_ hblock, hrest⟩
  rw [Object.owner, if_neg (by simp [hinline]), hcell]

/-- A step that changes the objects `P` only: it may change their blocks and take
unused ones, and leaves them with shapes of their own. -/
theorem Represents.update (h : Represents m σ) (P : Nat → Prop)
    (hobjects : ∀ id, ¬ P id → m'.objects id = m.objects id ∧ σ' id = σ id)
    (hholds : ∀ id, P id → HoldsAt m'.blocks (m'.objects id) (σ' id))
    (hframe : ∀ b content, m.blocks.block b = some content →
      (∀ id o, P id → m.objects id = some o → o.owner ≠ some b) →
      m'.blocks.block b = some content)
    (howner : ∀ id o b, P id → m'.objects id = some o → o.owner = some b →
      (∃ id' o', P id' ∧ m.objects id' = some o' ∧ o'.owner = some b) ∨
        m.blocks.next ≤ b)
    (hdistinct : ∀ id id' o o' b, P id → P id' → m'.objects id = some o →
      m'.objects id' = some o' → o.owner = some b → o'.owner = some b → id = id')
    (hfresh : m'.blocks.Fresh) : Represents m' σ' := by
  classical
  -- a block owned outside `P` is live and owned by nobody else
  have outside : ∀ {id o b}, ¬ P id → m.objects id = some o → o.owner = some b →
      b < m.blocks.next ∧
        ∀ id' o', P id' → m.objects id' = some o' → o'.owner ≠ some b := by
    intro id o b hid ho hb
    have hat := h.holds id
    rw [ho] at hat
    cases hg : σ id with
    | none =>
        rw [hg] at hat
        exact hat.elim
    | some g =>
        rw [hg] at hat
        obtain ⟨content, -, -, hblock, -⟩ := Holds.owner_eq hat hb
        refine ⟨h.fresh.lt hblock, fun id' o' hid' ho' hb' => hid ?_⟩
        rwa [h.owned ho ho' hb hb']
  have clash : ∀ {id id' o o' b}, P id → ¬ P id' → m'.objects id = some o →
      m'.objects id' = some o' → o.owner = some b → o'.owner = some b → False := by
    intro id id' o o' b hid hid' ho ho' hb hb'
    rw [(hobjects id' hid').1] at ho'
    obtain ⟨hlt, hnot⟩ := outside hid' ho' hb'
    rcases howner id o b hid ho hb with ⟨id'', o'', hid'', ho'', hb''⟩ | hle
    · exact hnot id'' o'' hid'' ho'' hb''
    · omega
  refine ⟨hfresh, fun id => ?_, fun {id id' o o' b} ho ho' hb hb' => ?_⟩
  · by_cases hid : P id
    · exact hholds id hid
    · obtain ⟨hobj, hshape⟩ := hobjects id hid
      rw [hobj, hshape]
      have hat := h.holds id
      cases ho : m.objects id with
      | none =>
          rw [ho] at hat
          cases hg : σ id with
          | none => trivial
          | some g =>
              rw [hg] at hat
              exact hat.elim
      | some o =>
          cases hg : σ id with
          | none =>
              rw [ho, hg] at hat
              exact hat.elim
          | some g =>
              rw [ho, hg] at hat
              exact Holds.frame hat fun b content hb hblock =>
                hframe b content hblock (outside hid ho hb).2
  · by_cases hid : P id <;> by_cases hid' : P id'
    · exact hdistinct id id' o o' b hid hid' ho ho' hb hb'
    · exact (clash hid hid' ho ho' hb hb').elim
    · exact (clash hid' hid ho' ho hb' hb).elim
    · rw [(hobjects id hid).1] at ho
      rw [(hobjects id' hid').1] at ho'
      exact h.owned ho ho' hb hb'

end Representation

section Primitives

variable {m : Machine} {id first count : Nat} {o : Object} {source : Nat → Word}

def Machine.withObject (m : Machine) (id : Nat) (o : Object) : Machine :=
  { m with objects := Function.update m.objects id (some o) }

def Machine.withBlocks (m : Machine) (s : Blocks Word) : Machine :=
  { m with blocks := s }

@[simp] theorem Machine.withObject_blocks (m : Machine) (id : Nat) (o : Object) :
    (m.withObject id o).blocks = m.blocks := rfl

@[simp] theorem Machine.withObject_self (m : Machine) (id : Nat) (o : Object) :
    (m.withObject id o).objects id = some o :=
  Function.update_self ..

theorem Machine.withObject_ne (m : Machine) {id id' : Nat} (h : id' ≠ id) (o : Object) :
    (m.withObject id o).objects id' = m.objects id' :=
  Function.update_of_ne h ..

/-- A new object does not take the place of another one. -/
theorem Machine.withObject_absent {m : Machine} {id id' : Nat} {r : Object}
    (hnone : m.objects id = none) (hr : m.objects id' = some r) (o : Object) :
    (m.withObject id o).objects id' = some r := by
  have hne : id' ≠ id := by
    rintro rfl
    rw [hnone] at hr
    cases hr
  rw [Machine.withObject_ne m hne, hr]

@[simp] theorem Machine.withObject_withObject (m : Machine) (id : Nat) (o o' : Object) :
    (m.withObject id o).withObject id o' = m.withObject id o' := by
  simp [Machine.withObject]

theorem Machine.withObject_comm (m : Machine) {id id' : Nat} (h : id ≠ id')
    (o o' : Object) :
    (m.withObject id o).withObject id' o' = (m.withObject id' o').withObject id o := by
  rw [withObject, withObject, withObject, withObject, Function.update_comm h]

@[simp] theorem Machine.withBlocks_blocks (m : Machine) (s : Blocks Word) :
    (m.withBlocks s).blocks = s := rfl

@[simp] theorem Machine.withBlocks_objects (m : Machine) (s : Blocks Word) :
    (m.withBlocks s).objects = m.objects := rfl

@[simp] theorem Machine.withBlocks_withBlocks (m : Machine) (s s' : Blocks Word) :
    (m.withBlocks s).withBlocks s' = m.withBlocks s' := rfl

theorem Machine.withObject_withBlocks_self (m : Machine) (id : Nat) (o : Object)
    (s : Blocks Word) : ((m.withObject id o).withBlocks s).objects id = some o :=
  Function.update_self ..

theorem Machine.withBlocks_withObject (m : Machine) (id : Nat) (o : Object)
    (s : Blocks Word) :
    (m.withBlocks s).withObject id o = (m.withObject id o).withBlocks s := rfl

theorem getObject_ok (h : m.objects id = some o) : getObject id m = .ok o m := by
  change access (m.objects id) m = _
  rw [h]
  rfl

theorem setSize_ok (h : m.objects id = some o) (n : Nat) :
    setSize id n m = .ok () (m.withObject id { o with size := n }) := by
  rw [setSize, bind_of_ok (getObject_ok h)]
  rfl

theorem readInline_ok (h : m.objects id = some o)
    (hle : first + count ≤ o.storage.length) :
    readInline id first count m = .ok (fun k => o.storage.cell (first + k)) m := by
  rw [readInline, bind_of_ok (getObject_ok h), Block.read, if_pos hle]
  rfl

theorem writeInline_ok (h : m.objects id = some o)
    (hle : first + count ≤ o.storage.length) (source : Nat → Word) :
    writeInline id first count source m =
      .ok () (m.withObject id { o with storage := o.storage.put first count source }) := by
  rw [writeInline, bind_of_ok (getObject_ok h), Block.write, if_pos hle]
  rfl

theorem outOfLineStorage_ok (h : m.objects id = some o) {p : Option Nat}
    (hp : o.storage.cell 0 = .pointer p) : outOfLineStorage id m = .ok p m := by
  rw [outOfLineStorage, bind_of_ok (getObject_ok h), hp]
  rfl

theorem setOutOfLineStorage_ok (h : m.objects id = some o)
    (hlen : o.storage.length = 2 * maxInlineSize) (p : Option Nat) :
    setOutOfLineStorage id p m =
      .ok () (m.withObject id
        { o with storage := o.storage.put 0 1 fun _ => .pointer p }) :=
  writeInline_ok h (by rw [hlen]; decide) _

variable {b : Nat} {content : Block Word}

theorem getBlock_ok (h : m.blocks.block b = some content) :
    getBlock (some b) m = .ok (b, content) m := by
  change (access (m.blocks.block b) >>= fun content => pure (b, content)) m = _
  rw [h]
  rfl

theorem readBlock_ok (h : m.blocks.block b = some content)
    (hle : first + count ≤ content.length) :
    readBlock (some b) first count m = .ok (fun k => content.cell (first + k)) m := by
  rw [readBlock, bind_of_ok (getBlock_ok h)]
  simp only [Block.read, if_pos hle]
  rfl

theorem writeBlock_ok (h : m.blocks.block b = some content)
    (hle : first + count ≤ content.length) (source : Nat → Word) :
    writeBlock (some b) first count source m =
      .ok () (m.withBlocks (m.blocks.set b (content.put first count source))) := by
  rw [writeBlock, bind_of_ok (getBlock_ok h)]
  simp only [Block.write, if_pos hle]
  rfl

theorem freeBlock_ok (h : m.blocks.block b = some content) :
    freeBlock (some b) m = .ok () (m.withBlocks (m.blocks.free b)) := by
  rw [freeBlock, bind_of_ok (getBlock_ok h)]
  rfl

variable {supply : Supply Word}

theorem malloc_ok (hgrants : ∀ k, supply.grants k = true) (n : Nat) :
    malloc supply n m = .ok (some m.blocks.next)
      (m.withBlocks (m.blocks.push ⟨n, supply.junk m.blocks.next⟩)) := by
  have hmalloc : m.blocks.malloc supply n = (some m.blocks.next,
      m.blocks.push ⟨n, supply.junk m.blocks.next⟩) := if_pos (hgrants _)
  change EStateM.Result.ok (m.blocks.malloc supply n).1
    (m.withBlocks (m.blocks.malloc supply n).2) = _
  rw [hmalloc]

theorem realloc_ok (hgrants : ∀ k, supply.grants k = true)
    (h : m.blocks.block b = some content) (n : Nat) :
    realloc supply (some b) n m = .ok (some m.blocks.next)
      (m.withBlocks ((m.blocks.free b).push
        (Blocks.reallocated supply m.blocks content n))) := by
  have hrealloc : m.blocks.realloc supply b content n = (some m.blocks.next,
      (m.blocks.free b).push (Blocks.reallocated supply m.blocks content n)) :=
    if_pos (hgrants _)
  rw [realloc, bind_of_ok (getBlock_ok h)]
  change EStateM.Result.ok (m.blocks.realloc supply b content n).1
    (m.withBlocks (m.blocks.realloc supply b content n).2) = _
  rw [hrealloc]

end Primitives

section Steps

variable {m : Machine} {σ : Shapes} {id : Nat}

/-- A step that changes one object and its block. -/
theorem Represents.step (h : Represents m σ) {o' : Object} {g' : Shape}
    {s' : Blocks Word} (hholds : Holds s' o' g')
    (hframe : ∀ b content, m.blocks.block b = some content →
      (∀ o, m.objects id = some o → o.owner ≠ some b) → s'.block b = some content)
    (howner : ∀ b, o'.owner = some b →
      (∃ o, m.objects id = some o ∧ o.owner = some b) ∨ m.blocks.next ≤ b)
    (hfresh : s'.Fresh) :
    Represents ((m.withObject id o').withBlocks s') (Function.update σ id (some g')) := by
  refine h.update (· = id) ?_ ?_ ?_ ?_ ?_ hfresh
  · intro id' hid
    exact ⟨m.withObject_ne hid o', Function.update_of_ne hid ..⟩
  · rintro id' rfl
    rw [Machine.withBlocks_objects, Machine.withObject_self, Function.update_self]
    exact hholds
  · exact fun b content hb hnot => hframe b content hb fun o => hnot id o rfl
  · rintro id' o b rfl ho hb
    rw [Machine.withBlocks_objects, Machine.withObject_self, Option.some.injEq] at ho
    subst ho
    exact (howner b hb).imp_left fun ⟨o, ho, hob⟩ => ⟨id', o, rfl, ho, hob⟩
  · rintro id' id'' o o'' b rfl rfl - - - -
    rfl

/-- An object that becomes inline, or stays so. -/
theorem Represents.step_inline (h : Represents m σ) (o' : Object) {g' : Shape}
    {s' : Blocks Word} (hsize : o'.size = g'.length)
    (hlen : o'.storage.length = 2 * maxInlineSize) (hinline : o'.isInline = true)
    (hreads : Reads o'.storage maxInlineSize g')
    (hframe : ∀ b content, m.blocks.block b = some content →
      (∀ o, m.objects id = some o → o.owner ≠ some b) → s'.block b = some content)
    (hfresh : s'.Fresh) :
    Represents ((m.withObject id o').withBlocks s') (Function.update σ id (some g')) := by
  have hlt : g'.length < lengthLimit := by
    rw [Object.isInline, decide_eq_true_iff, hsize] at hinline
    exact Nat.lt_of_le_of_lt hinline (by decide)
  refine h.step ⟨hsize, hlt, hlen, fun _ => hreads, fun hout => ?_⟩ hframe (fun b hb => ?_)
    hfresh
  · rw [hinline] at hout
    cases hout
  · rw [Object.owner, if_pos hinline] at hb
    cases hb

theorem Represents.step_keep (h : Represents m σ) (o' : Object) {g' : Shape}
    (hsize : o'.size = g'.length) (hlen : o'.storage.length = 2 * maxInlineSize)
    (hinline : o'.isInline = true) (hreads : Reads o'.storage maxInlineSize g') :
    Represents (m.withObject id o') (Function.update σ id (some g')) :=
  h.step_inline _ hsize hlen hinline hreads (fun _ _ hb _ => hb) h.fresh

theorem Reads.congr {content content' : Block Word} {start start' : Nat} {g : Shape}
    (h : Reads content start g)
    (hsizes : ∀ k < g.length, content'.cell k = content.cell k)
    (hstrides : ∀ k < g.length, content'.cell (start' + k) = content.cell (start + k)) :
    Reads content' start' g := fun k hk =>
  ⟨(hsizes k hk).trans (h k hk).1, (hstrides k hk).trans (h k hk).2⟩

theorem Holds.length_le {s : Blocks Word} {o : Object} {g : Shape} (h : Holds s o g)
    (hinline : o.isInline = true) : g.length ≤ maxInlineSize := by
  rw [Object.isInline, decide_eq_true_iff, h.size_eq] at hinline
  exact hinline

/-- The union of a new object. -/
def zeroed : Block Word := ⟨2 * maxInlineSize, fun _ => .value 0⟩

theorem place_ok (h : m.objects id = none) (n : Nat) :
    place id n m = .ok () (m.withObject id ⟨n, zeroed⟩) := by
  rw [place, get_bind]
  dsimp only
  rw [if_neg (by simp [h])]
  rfl

theorem defaultConstruct_run (hnone : m.objects id = none) :
    defaultConstruct id m = .ok () (m.withObject id
      ⟨1, (zeroed.put 0 1 fun _ => .value 0).put maxInlineSize 1 fun _ => .value 1⟩) := by
  rw [defaultConstruct, bind_of_ok (place_ok hnone 1),
    bind_of_ok (writeInline_ok (Machine.withObject_self ..) (by decide) _),
    writeInline_ok (Machine.withObject_self ..) (by decide) _]
  simp only [Machine.withObject_withObject]

theorem defaultConstruct_refines (h : Represents m σ) (hnone : σ id = none) :
    ∃ m', defaultConstruct id m = .ok () m' ∧
      Represents m' (Function.update σ id (some .default)) := by
  refine ⟨_, defaultConstruct_run (h.absent hnone), h.step_keep _ rfl rfl rfl ?_⟩
  intro k hk
  obtain rfl : k = 0 := Nat.lt_one_iff.1 hk
  exact ⟨rfl, rfl⟩

theorem copyDataInline_ok {rhs : Nat} {o r : Object} (ho : m.objects id = some o)
    (hr : m.objects rhs = some r) (holen : o.storage.length = 2 * maxInlineSize)
    (hrlen : r.storage.length = 2 * maxInlineSize) :
    copyDataInline id rhs m = .ok () (m.withObject id
      { o with storage := o.storage.put 0 (2 * maxInlineSize) r.storage.cell }) := by
  rw [copyDataInline, bind_of_ok (readInline_ok hr (by rw [hrlen, Nat.zero_add])),
    writeInline_ok ho (by rw [holen, Nat.zero_add])]
  simp only [Nat.zero_add]

/-- A copy of the inline buffer reads the same. -/
theorem Reads.put_inline {content : Block Word} {g : Shape} (content' : Block Word)
    (h : Reads content maxInlineSize g) (hle : g.length ≤ maxInlineSize) :
    Reads (content'.put 0 (2 * maxInlineSize) content.cell) maxInlineSize g := by
  have hcell : ∀ k < 2 * maxInlineSize,
      (content'.put 0 (2 * maxInlineSize) content.cell).cell k = content.cell k := by
    intro k hk
    have := content'.put_inside 0 content.cell hk
    rwa [Nat.zero_add] at this
  exact h.congr (fun k hk => hcell k (by omega)) fun k hk => hcell _ (by omega)

/-- An object that moves into the next block; its own block may be freed. -/
theorem Represents.step_push (h : Represents m σ) {o' : Object} {g' : Shape}
    {base : Blocks Word} {content : Block Word}
    (hbase : base = m.blocks ∨ ∃ o b, m.objects id = some o ∧ o.owner = some b ∧
      base = m.blocks.free b)
    (hsize : o'.size = g'.length) (hlt : g'.length < lengthLimit)
    (hlen : o'.storage.length = 2 * maxInlineSize) (hout : o'.isInline = false)
    (hcell : o'.storage.cell 0 = .pointer (some m.blocks.next))
    (hcontent : content.length = 2 * o'.size) (hreads : Reads content o'.size g') :
    Represents ((m.withObject id o').withBlocks (base.push content))
      (Function.update σ id (some g')) := by
  have hnext : base.next = m.blocks.next := by
    rcases hbase with rfl | ⟨o, b, -, -, rfl⟩ <;> rfl
  have hfresh : base.Fresh := by
    rcases hbase with rfl | ⟨o, b, -, -, rfl⟩
    · exact h.fresh
    · exact h.fresh.free b
  refine h.step ⟨hsize, hlt, hlen, fun hin => ?_, fun _ => ?_⟩ (fun b content' hb hnot => ?_)
    (fun b hb => Or.inr ?_) (hfresh.push content)
  · rw [hout] at hin
    cases hin
  · refine ⟨m.blocks.next, content, hcell, ?_, hcontent, hreads⟩
    rw [← hnext]
    exact Blocks.push_block_self
  · refine hfresh.push_block ?_
    rcases hbase with rfl | ⟨o, b', ho, hob, rfl⟩
    · exact hb
    · have hne : b ≠ b' := fun heq => hnot o ho (heq ▸ hob)
      rw [Blocks.free_block_ne hne]
      exact hb
  · rw [Object.owner, hout, hcell] at hb
    cases hb
    exact Nat.le_refl _

variable {supply : Supply Word}

theorem allocateOutOfLineStorage_ok (hgrants : ∀ k, supply.grants k = true) {o : Object}
    (ho : m.objects id = some o) (hlen : o.storage.length = 2 * maxInlineSize) {n : Nat}
    (hn : n < lengthLimit) :
    allocateOutOfLineStorage supply id n m = .ok ()
      ((m.withObject id { o with
          storage := o.storage.put 0 1 fun _ => .pointer (some m.blocks.next) }).withBlocks
        (m.blocks.push ⟨2 * n, supply.junk m.blocks.next⟩)) := by
  have ho' : ∀ s, (m.withBlocks s).objects id = some o := fun _ => ho
  rw [allocateOutOfLineStorage, bind_of_ok (malloc_ok hgrants _), storageWords_of_lt hn,
    bind_of_ok (setOutOfLineStorage_ok (ho' _) hlen _)]
  rfl

theorem resizeOutOfLineStorage_granted (hgrants : ∀ k, supply.grants k = true) {o : Object}
    {b : Nat} {content : Block Word} (ho : m.objects id = some o)
    (hlen : o.storage.length = 2 * maxInlineSize)
    (hcell : o.storage.cell 0 = .pointer (some b)) (hb : m.blocks.block b = some content)
    (n : Nat) :
    resizeOutOfLineStorage supply id n m = .ok ()
      ((m.withObject id { o with
          storage := o.storage.put 0 1 fun _ => .pointer (some m.blocks.next) }).withBlocks
        ((m.blocks.free b).push
          (Blocks.reallocated supply m.blocks content (storageWords n)))) := by
  have ho' : ∀ s, (m.withBlocks s).objects id = some o := fun _ => ho
  rw [resizeOutOfLineStorage, bind_of_ok (outOfLineStorage_ok ho hcell),
    bind_of_ok (realloc_ok hgrants hb _), bind_of_ok (setOutOfLineStorage_ok (ho' _) hlen _)]
  rfl

theorem resizeOutOfLineStorage_ok (hgrants : ∀ k, supply.grants k = true) {o : Object}
    {b : Nat} {content : Block Word} (ho : m.objects id = some o)
    (hlen : o.storage.length = 2 * maxInlineSize)
    (hcell : o.storage.cell 0 = .pointer (some b)) (hb : m.blocks.block b = some content)
    {n : Nat} (hn : n < lengthLimit) :
    resizeOutOfLineStorage supply id n m = .ok ()
      ((m.withObject id { o with
          storage := o.storage.put 0 1 fun _ => .pointer (some m.blocks.next) }).withBlocks
        ((m.blocks.free b).push (Blocks.reallocated supply m.blocks content (2 * n)))) := by
  rw [resizeOutOfLineStorage_granted hgrants ho hlen hcell hb, storageWords_of_lt hn]

theorem copyDataOutline_ok {rhs : Nat} {o r : Object} {b b' : Nat}
    {content content' : Block Word} (ho : m.objects id = some o)
    (hr : m.objects rhs = some r) (hob : o.storage.cell 0 = .pointer (some b))
    (hrb : r.storage.cell 0 = .pointer (some b')) (hb : m.blocks.block b = some content)
    (hb' : m.blocks.block b' = some content') (hn : r.size < lengthLimit)
    (hle : 2 * r.size ≤ content.length) (hle' : 2 * r.size ≤ content'.length) :
    copyDataOutline id rhs m = .ok () (m.withBlocks
      (m.blocks.set b (content.put 0 (2 * r.size) content'.cell))) := by
  rw [copyDataOutline, bind_of_ok (getObject_ok hr), storageWords_of_lt hn,
    bind_of_ok (outOfLineStorage_ok hr hrb),
    bind_of_ok (readBlock_ok hb' (by rwa [Nat.zero_add])),
    bind_of_ok (outOfLineStorage_ok ho hob), writeBlock_ok hb (by rwa [Nat.zero_add])]
  simp only [Nat.zero_add]

/-- A copy of an out-of-line buffer reads the same. -/
theorem Reads.put_outline {content content' : Block Word} {g : Shape}
    (h : Reads content g.length g) :
    Reads (content'.put 0 (2 * g.length) content.cell) g.length g := by
  have hcell : ∀ k < 2 * g.length,
      (content'.put 0 (2 * g.length) content.cell).cell k = content.cell k := by
    intro k hk
    have := content'.put_inside 0 content.cell hk
    rwa [Nat.zero_add] at this
  exact h.congr (fun k hk => hcell k (by omega)) fun k hk => hcell _ (by omega)

theorem copyConstruct_inline {rhs : Nat} {r : Object} (hnone : m.objects id = none)
    (hr : m.objects rhs = some r) (hlen : r.storage.length = 2 * maxInlineSize)
    (hin : r.isInline = true) :
    copyConstruct supply id rhs m = .ok () (m.withObject id
      ⟨r.size, zeroed.put 0 (2 * maxInlineSize) r.storage.cell⟩) := by
  have hr' := Machine.withObject_absent hnone hr ⟨r.size, zeroed⟩
  rw [copyConstruct, bind_of_ok (getObject_ok hr), bind_of_ok (place_ok hnone _), if_pos hin,
    copyDataInline_ok (Machine.withObject_self ..) hr' rfl hlen, Machine.withObject_withObject]

theorem copyConstruct_refines (hgrants : ∀ k, supply.grants k = true)
    (h : Represents m σ) {rhs : Nat} {g : Shape} (hg : σ rhs = some g)
    (hnone : σ id = none) :
    ∃ m', copyConstruct supply id rhs m = .ok () m' ∧
      Represents m' (Function.update σ id (some g)) := by
  obtain ⟨r, hr, hold⟩ := h.object hg
  have hr' := Machine.withObject_absent (h.absent hnone) hr
  cases hin : r.isInline with
  | true =>
      exact ⟨_, copyConstruct_inline (h.absent hnone) hr hold.storage_length hin,
        h.step_keep _ hold.size_eq rfl hin
          ((hold.inline hin).put_inline _ (hold.length_le hin))⟩
  | false =>
      obtain ⟨b, content, hcell, hblock, hlen, hreads⟩ := hold.outline hin
      have hlt : r.size < lengthLimit := hold.size_eq ▸ hold.size_lt
      have hb := h.fresh.lt hblock
      rw [copyConstruct, bind_of_ok (getObject_ok hr), bind_of_ok (place_ok (h.absent hnone) _),
        hin, if_neg (by decide), bind_of_ok (allocateOutOfLineStorage_ok hgrants
          (Machine.withObject_self ..) rfl hlt),
        copyDataOutline_ok (o := ⟨r.size, zeroed.put 0 1 fun _ =>
          .pointer (some m.blocks.next)⟩) (by simp) (by simpa using hr' _) rfl hcell
          Blocks.push_block_self (h.fresh.push_block hblock) hlt (Nat.le_refl _)
          (Nat.le_of_eq hlen.symm)]
      simp only [Machine.withObject_withObject, Machine.withBlocks_withBlocks,
        Machine.withObject_blocks, Machine.withBlocks_blocks, Blocks.push_set]
      refine ⟨_, rfl, h.step_push (Or.inl rfl) hold.size_eq hold.size_lt rfl hin rfl rfl ?_⟩
      rw [hold.size_eq] at hreads ⊢
      exact hreads.put_outline

theorem Object.owner_some {o : Object} {b : Nat} (hout : o.isInline = false)
    (hcell : o.storage.cell 0 = .pointer (some b)) : o.owner = some b := by
  rw [Object.owner, hout, hcell]
  rfl

/-- Freeing the block of an object that is out of line spares the others. -/
theorem free_frame {o : Object} {b₀ : Nat} (ho : m.objects id = some o)
    (hown : o.owner = some b₀) : ∀ b content, m.blocks.block b = some content →
      (∀ o, m.objects id = some o → o.owner ≠ some b) →
      (m.blocks.free b₀).block b = some content := by
  intro b content hb hnot
  have hne : b ≠ b₀ := fun heq => hnot o ho (heq ▸ hown)
  rwa [Blocks.free_block_ne hne]

/-- A copy out of line into the next block, after it was allocated or the own
block of the object was reallocated. -/
theorem copyDataOutline_push (h : Represents m σ) {rhs : Nat} {r o : Object} {g : Shape}
    (hid : id ≠ rhs) (hr : m.objects rhs = some r) (hold : Holds m.blocks r g)
    (hin : r.isInline = false) (holen : o.storage.length = 2 * maxInlineSize)
    {base : Blocks Word}
    (hbase : base = m.blocks ∨ ∃ o b, m.objects id = some o ∧ o.owner = some b ∧
      base = m.blocks.free b)
    {junk : Nat → Word} :
    ∃ m', (do copyDataOutline id rhs; setSize id r.size : Method Unit)
        ((m.withObject id { o with
            storage := o.storage.put 0 1 fun _ => .pointer (some m.blocks.next) }).withBlocks
          (base.push ⟨2 * r.size, junk⟩)) = .ok () m' ∧
      Represents m' (Function.update σ id (some g)) := by
  obtain ⟨b, content, hcell, hblock, hlen, hreads⟩ := hold.outline hin
  have hlt : r.size < lengthLimit := hold.size_eq ▸ hold.size_lt
  have hnext : base.next = m.blocks.next := by
    rcases hbase with rfl | ⟨o, b, -, -, rfl⟩ <;> rfl
  have hblock' : (base.push ⟨2 * r.size, junk⟩).block b = some content := by
    rcases hbase with rfl | ⟨o, b₀, ho, hown, rfl⟩
    · exact h.fresh.push_block hblock
    · refine (h.fresh.free b₀).push_block ?_
      have hne : b ≠ b₀ := fun heq =>
        hid (h.owned ho hr hown (heq ▸ Object.owner_some hin hcell))
      rwa [Blocks.free_block_ne hne]
  have hself : (base.push ⟨2 * r.size, junk⟩).block m.blocks.next =
      some ⟨2 * r.size, junk⟩ := hnext ▸ Blocks.push_block_self
  have ho' : ∀ o' s, ((m.withObject id o').withBlocks s).objects id = some o' :=
    fun o' _ => m.withObject_self id o'
  have hr' : ∀ o s, ((m.withObject id o).withBlocks s).objects rhs = some r :=
    fun o _ => (m.withObject_ne (Ne.symm hid) o).trans hr
  have hcopy := copyDataOutline_ok (m := (m.withObject id { o with
      storage := o.storage.put 0 1 fun _ => .pointer (some m.blocks.next) }).withBlocks
      (base.push ⟨2 * r.size, junk⟩)) (ho' _ _) (hr' _ _) rfl hcell hself hblock' hlt
    (Nat.le_refl _) (Nat.le_of_eq hlen.symm)
  rw [Machine.withBlocks_withBlocks, Machine.withBlocks_blocks, ← hnext,
    Blocks.push_set] at hcopy
  rw [← hnext, bind_of_ok hcopy, setSize_ok (ho' _ _), Machine.withBlocks_withObject,
    Machine.withObject_withObject]
  rw [hold.size_eq] at hreads
  refine ⟨_, rfl, h.step_push hbase hold.size_eq hold.size_lt holen hin
    (congrArg (Word.pointer ∘ some) hnext) rfl ?_⟩
  rw [hold.size_eq]
  exact hreads.put_outline

/-- The blocks after the object has given up its own, if it had one. -/
def Freed (m : Machine) (id : Nat) (s : Blocks Word) : Prop :=
  s = m.blocks ∨ ∃ o b, m.objects id = some o ∧ o.owner = some b ∧ s = m.blocks.free b

theorem Freed.fresh {s : Blocks Word} (hs : Freed m id s) (h : m.blocks.Fresh) : s.Fresh := by
  rcases hs with rfl | ⟨o, b, -, -, rfl⟩
  · exact h
  · exact h.free b

theorem Freed.frame {s : Blocks Word} (hs : Freed m id s) : ∀ b content,
    m.blocks.block b = some content →
      (∀ o, m.objects id = some o → o.owner ≠ some b) → s.block b = some content := by
  rcases hs with rfl | ⟨o, b, ho, hown, rfl⟩
  · exact fun _ _ hb _ => hb
  · exact free_frame ho hown

/-- An object that is assigned to frees its block first. -/
theorem freed_ok {β : Type} {o : Object} {g : Shape} (ho : m.objects id = some o)
    (hold : Holds m.blocks o g) (f : Unit → Method β) : ∃ s, Freed m id s ∧
      (if ¬ o.isInline = true then (do
        let p ← outOfLineStorage id
        let __r ← freeBlock p
        f __r) else f ()) m = f () (m.withBlocks s) := by
  cases hin : o.isInline with
  | true =>
      rw [if_neg (by decide)]
      exact ⟨m.blocks, Or.inl rfl, rfl⟩
  | false =>
      obtain ⟨b, content, hcell, hblock, -, -⟩ := hold.outline hin
      rw [if_pos (by decide), bind_of_ok (outOfLineStorage_ok ho hcell),
        bind_of_ok (freeBlock_ok hblock)]
      exact ⟨_, Or.inr ⟨o, b, ho, Object.owner_some hin hcell, rfl⟩, rfl⟩

theorem copyAssign_inline (supply : Supply Word) {rhs : Nat} {r o : Object} {g₀ : Shape}
    (hid : id ≠ rhs) (hr : m.objects rhs = some r) (hrlen : r.storage.length = 2 * maxInlineSize)
    (hin : r.isInline = true) (ho : m.objects id = some o) (hold : Holds m.blocks o g₀) :
    ∃ s, Freed m id s ∧ copyAssign supply id rhs m = .ok ()
      ((m.withObject id ⟨r.size, o.storage.put 0 (2 * maxInlineSize) r.storage.cell⟩).withBlocks
        s) := by
  rw [copyAssign, if_neg hid, bind_of_ok (getObject_ok hr), bind_of_ok (getObject_ok ho)]
  dsimp only
  obtain ⟨s, hs, hfreed⟩ := freed_ok ho hold (fun _ => do
    copyDataInline id rhs
    setSize id r.size)
  have ho' : (m.withBlocks s).objects id = some o := ho
  have hr' : (m.withBlocks s).objects rhs = some r := hr
  refine ⟨s, hs, ?_⟩
  rw [if_pos hin, hfreed, bind_of_ok (copyDataInline_ok ho' hr' hold.storage_length hrlen),
    setSize_ok (Machine.withObject_self ..), Machine.withObject_withObject,
    Machine.withBlocks_withObject]

theorem copyAssign_refines (hgrants : ∀ k, supply.grants k = true)
    (h : Represents m σ) {rhs : Nat} {g g₀ : Shape} (hg : σ rhs = some g)
    (hg₀ : σ id = some g₀) :
    ∃ m', copyAssign supply id rhs m = .ok () m' ∧
      Represents m' (Function.update σ id (some g)) := by
  by_cases hid : id = rhs
  · rw [copyAssign, if_pos hid]
    refine ⟨m, rfl, ?_⟩
    rwa [hid, ← hg, Function.update_eq_self]
  obtain ⟨r, hr, hold⟩ := h.object hg
  obtain ⟨o, ho, hold₀⟩ := h.object hg₀
  cases hin : r.isInline with
  | true =>
      obtain ⟨s, hs, hrun⟩ := copyAssign_inline supply hid hr hold.storage_length hin ho
        hold₀
      exact ⟨_, hrun, h.step_inline _ hold.size_eq hold₀.storage_length hin
        ((hold.inline hin).put_inline o.storage (hold.length_le hin)) hs.frame
        (hs.fresh h.fresh)⟩
  | false =>
      have hlt : r.size < lengthLimit := hold.size_eq ▸ hold.size_lt
      rw [copyAssign, if_neg hid, bind_of_ok (getObject_ok hr), bind_of_ok (getObject_ok ho)]
      dsimp only
      rw [hin, if_neg (by decide)]
      cases hin₀ : o.isInline with
      | true =>
          rw [if_pos rfl, bind_of_ok (allocateOutOfLineStorage_ok hgrants ho
            hold₀.storage_length hlt)]
          exact copyDataOutline_push h hid hr hold hin hold₀.storage_length (Or.inl rfl)
      | false =>
          obtain ⟨b₀, content₀, hcell₀, hblock₀, -, -⟩ := hold₀.outline hin₀
          rw [if_neg (by decide), bind_of_ok (resizeOutOfLineStorage_ok hgrants ho
            hold₀.storage_length hcell₀ hblock₀ hlt)]
          exact copyDataOutline_push h hid hr hold hin hold₀.storage_length
            (Or.inr ⟨o, b₀, ho, Object.owner_some hin₀ hcell₀, rfl⟩)

theorem reads_empty (content : Block Word) (start : Nat) : Reads content start .empty :=
  fun _ hk => absurd hk (Nat.not_lt_zero _)

theorem isInline_of_size_zero {o : Object} (h : o.size = 0) : o.isInline = true := by
  rw [Object.isInline, h]
  rfl

/-- The block of one object becomes the block of another, which may have freed its
own; the first one is left empty. -/
theorem Represents.transfer (h : Represents m σ) {rhs : Nat} {r o' r' : Object} {g : Shape}
    {s' : Blocks Word} (hid : id ≠ rhs) (hr : m.objects rhs = some r)
    (hold : Holds m.blocks r g) (hin : r.isInline = false)
    (hs' : s' = m.blocks ∨ ∃ o b, m.objects id = some o ∧ o.owner = some b ∧
      s' = m.blocks.free b)
    (hsize : o'.size = r.size) (hlen : o'.storage.length = 2 * maxInlineSize)
    (hcell : o'.storage.cell 0 = r.storage.cell 0) (hsize' : r'.size = 0)
    (hlen' : r'.storage.length = 2 * maxInlineSize) :
    Represents (((m.withObject id o').withObject rhs r').withBlocks s')
      (Function.update (Function.update σ id (some g)) rhs (some .empty)) := by
  obtain ⟨b, content, hrcell, hblock, hblen, hreads⟩ := hold.outline hin
  have hrown := Object.owner_some hin hrcell
  have hin' : o'.isInline = false := by rwa [Object.isInline, hsize]
  have hown : o'.owner = some b := Object.owner_some hin' (hcell.trans hrcell)
  have hnone : r'.owner = none := by rw [Object.owner, if_pos (isInline_of_size_zero hsize')]
  have hne : ∀ b₀ o, m.objects id = some o → o.owner = some b₀ → b ≠ b₀ :=
    fun b₀ o ho ho₀ heq => hid (h.owned ho hr ho₀ (heq ▸ hrown))
  have hobj : (((m.withObject id o').withObject rhs r').withBlocks s').objects id =
      some o' := by
    rw [Machine.withBlocks_objects, Machine.withObject_ne _ hid, Machine.withObject_self]
  have hobj' : (((m.withObject id o').withObject rhs r').withBlocks s').objects rhs =
      some r' := by
    rw [Machine.withBlocks_objects, Machine.withObject_self]
  have hblock' : s'.block b = some content := by
    rcases hs' with rfl | ⟨o, b₀, ho, ho₀, rfl⟩
    · exact hblock
    · rwa [Blocks.free_block_ne (hne b₀ o ho ho₀)]
  refine h.update (fun i => i = id ∨ i = rhs) ?_ ?_ ?_ ?_ ?_ ?_
  · intro i hi
    rw [not_or] at hi
    rw [Machine.withBlocks_objects, Machine.withObject_ne _ hi.2, Machine.withObject_ne _ hi.1,
      Function.update_of_ne hi.2, Function.update_of_ne hi.1]
    exact ⟨rfl, rfl⟩
  · rintro i (rfl | rfl)
    · rw [hobj, Function.update_of_ne hid, Function.update_self]
      refine ⟨hsize.trans hold.size_eq, hold.size_lt, hlen, fun hout => ?_, fun _ => ?_⟩
      · rw [hin'] at hout
        cases hout
      · rw [hsize]
        exact ⟨b, content, hcell.trans hrcell, hblock', hblen, hreads⟩
    · rw [hobj', Function.update_self]
      refine ⟨hsize', by decide, hlen', fun _ => reads_empty _ _, fun hout => ?_⟩
      rw [isInline_of_size_zero hsize'] at hout
      cases hout
  · intro b' content' hb' hnot
    rcases hs' with rfl | ⟨o, b₀, ho, ho₀, rfl⟩
    · exact hb'
    · have hb₀ : b' ≠ b₀ := fun heq => hnot id o (Or.inl rfl) ho (heq ▸ ho₀)
      rwa [Machine.withBlocks_blocks, Blocks.free_block_ne hb₀]
  · rintro i o₁ b₁ (rfl | rfl) ho₁ hb₁
    · rw [hobj] at ho₁
      cases ho₁
      exact Or.inl ⟨rhs, r, Or.inr rfl, hr, hrown.trans (hown.symm.trans hb₁)⟩
    · rw [hobj'] at ho₁
      cases ho₁
      rw [hnone] at hb₁
      cases hb₁
  · rintro i i' o₁ o₂ b₁ (rfl | rfl) (rfl | rfl) ho₁ ho₂ hb₁ hb₂
    · rfl
    · rw [hobj'] at ho₂
      cases ho₂
      rw [hnone] at hb₂
      cases hb₂
    · rw [hobj'] at ho₁
      cases ho₁
      rw [hnone] at hb₁
      cases hb₁
    · rfl
  · rcases hs' with rfl | ⟨o, b₀, -, -, rfl⟩
    · exact h.fresh
    · exact h.fresh.free b₀

theorem moveConstruct_inline {rhs : Nat} {r : Object} (hnone : m.objects id = none)
    (hr : m.objects rhs = some r) (hlen : r.storage.length = 2 * maxInlineSize)
    (hin : r.isInline = true) :
    moveConstruct id rhs m = .ok () ((m.withObject id
      ⟨r.size, zeroed.put 0 (2 * maxInlineSize) r.storage.cell⟩).withObject rhs
        { r with size := 0 }) := by
  have hr' := Machine.withObject_absent hnone hr
  rw [moveConstruct, bind_of_ok (getObject_ok hr), bind_of_ok (place_ok hnone _)]
  dsimp only
  rw [if_pos hin, bind_of_ok (copyDataInline_ok (Machine.withObject_self ..) (hr' _) rfl hlen),
    Machine.withObject_withObject, setSize_ok (hr' _)]

/-- The pointer is handed over; the source keeps a null pointer and its other words. -/
theorem moveConstruct_outline {rhs : Nat} {r : Object} {p : Option Nat}
    (hnone : m.objects id = none) (hr : m.objects rhs = some r)
    (hlen : r.storage.length = 2 * maxInlineSize) (hin : r.isInline = false)
    (hcell : r.storage.cell 0 = .pointer p) :
    moveConstruct id rhs m = .ok () ((m.withObject id
      ⟨r.size, zeroed.put 0 1 fun _ => .pointer p⟩).withObject rhs
        ⟨0, r.storage.put 0 1 fun _ => .pointer none⟩) := by
  have hr' := Machine.withObject_absent hnone hr
  rw [moveConstruct, bind_of_ok (getObject_ok hr), bind_of_ok (place_ok hnone _)]
  dsimp only
  rw [hin, if_neg (by decide), bind_of_ok (outOfLineStorage_ok (hr' _) hcell),
    bind_of_ok (setOutOfLineStorage_ok (Machine.withObject_self ..) rfl _),
    Machine.withObject_withObject, bind_of_ok (setOutOfLineStorage_ok (hr' _) hlen _),
    setSize_ok (Machine.withObject_self ..), Machine.withObject_withObject]

theorem moveConstruct_refines (h : Represents m σ) {rhs : Nat} {g : Shape}
    (hg : σ rhs = some g) (hnone : σ id = none) :
    ∃ m', moveConstruct id rhs m = .ok () m' ∧ Represents m'
      (Function.update (Function.update σ id (some g)) rhs (some .empty)) := by
  obtain ⟨r, hr, hold⟩ := h.object hg
  have hne : id ≠ rhs := fun heq => by
    rw [← heq, hnone] at hg
    cases hg
  cases hin : r.isInline with
  | true =>
      have h' : Represents (m.withObject id ⟨r.size, zeroed.put 0 (2 * maxInlineSize)
          r.storage.cell⟩) (Function.update σ id (some g)) :=
        h.step_keep _ hold.size_eq rfl hin
          ((hold.inline hin).put_inline _ (hold.length_le hin))
      exact ⟨_, moveConstruct_inline (h.absent hnone) hr hold.storage_length hin,
        h'.step_keep _ rfl hold.storage_length rfl (reads_empty _ _)⟩
  | false =>
      obtain ⟨b, content, hcell, -, -, -⟩ := hold.outline hin
      exact ⟨_, moveConstruct_outline (h.absent hnone) hr hold.storage_length hin hcell,
        h.transfer hne hr hold hin (Or.inl rfl) rfl rfl hcell.symm rfl hold.storage_length⟩

theorem moveAssign_inline {rhs : Nat} {r o : Object} {g₀ : Shape} (hid : id ≠ rhs)
    (hr : m.objects rhs = some r) (hrlen : r.storage.length = 2 * maxInlineSize)
    (hin : r.isInline = true) (ho : m.objects id = some o) (hold : Holds m.blocks o g₀) :
    ∃ s, Freed m id s ∧ moveAssign id rhs m = .ok () (((m.withObject id
      ⟨r.size, o.storage.put 0 (2 * maxInlineSize) r.storage.cell⟩).withBlocks s).withObject rhs
        { r with size := 0 }) := by
  rw [moveAssign, if_neg hid, bind_of_ok (getObject_ok hr), bind_of_ok (getObject_ok ho)]
  obtain ⟨s, hs, hfreed⟩ := freed_ok ho hold (fun _ => do
    copyDataInline id rhs
    setSize id r.size
    setSize rhs 0)
  have ho' : (m.withBlocks s).objects id = some o := ho
  have hro : ∀ o', ((m.withBlocks s).withObject id o').objects rhs = some r := fun o' => by
    rw [Machine.withObject_ne _ (Ne.symm hid), Machine.withBlocks_objects, hr]
  refine ⟨s, hs, ?_⟩
  simp only [if_pos hin]
  rw [hfreed, bind_of_ok (copyDataInline_ok ho' hr hold.storage_length hrlen),
    bind_of_ok (setSize_ok (Machine.withObject_self ..) _), Machine.withObject_withObject,
    setSize_ok (hro _), Machine.withBlocks_withObject]

theorem moveAssign_outline {rhs : Nat} {r o : Object} {g₀ : Shape} {p : Option Nat}
    (hid : id ≠ rhs) (hr : m.objects rhs = some r)
    (hrlen : r.storage.length = 2 * maxInlineSize) (hin : r.isInline = false)
    (hcell : r.storage.cell 0 = .pointer p) (ho : m.objects id = some o)
    (hold : Holds m.blocks o g₀) :
    ∃ s, Freed m id s ∧ moveAssign id rhs m = .ok () (((m.withObject id
      ⟨r.size, o.storage.put 0 1 fun _ => .pointer p⟩).withObject rhs
        ⟨0, r.storage.put 0 1 fun _ => .pointer none⟩).withBlocks s) := by
  rw [moveAssign, if_neg hid, bind_of_ok (getObject_ok hr), bind_of_ok (getObject_ok ho)]
  obtain ⟨s, hs, hfreed⟩ := freed_ok ho hold (fun _ => do
    setOutOfLineStorage id (← outOfLineStorage rhs)
    setOutOfLineStorage rhs none
    setSize id r.size
    setSize rhs 0)
  have ho' : (m.withBlocks s).objects id = some o := ho
  have hr' : (m.withBlocks s).objects rhs = some r := hr
  have hro : ∀ o', ((m.withBlocks s).withObject id o').objects rhs = some r := fun o' => by
    rw [Machine.withObject_ne _ (Ne.symm hid), hr']
  have hor : ∀ o' r', (((m.withBlocks s).withObject id o').withObject rhs r').objects id =
      some o' := fun o' r' => by
    rw [Machine.withObject_ne _ hid, Machine.withObject_self]
  refine ⟨s, hs, ?_⟩
  have hnot : ¬ r.isInline = true := by rw [hin]; decide
  simp only [if_neg hnot]
  rw [hfreed, bind_of_ok (outOfLineStorage_ok hr' hcell),
    bind_of_ok (setOutOfLineStorage_ok ho' hold.storage_length _),
    bind_of_ok (setOutOfLineStorage_ok (hro _) hrlen _),
    bind_of_ok (setSize_ok (hor _ _) _), ← Machine.withObject_comm _ hid,
    Machine.withObject_withObject, setSize_ok (Machine.withObject_self ..),
    Machine.withObject_withObject, Machine.withBlocks_withObject,
    Machine.withBlocks_withObject]

theorem moveAssign_refines (h : Represents m σ) {rhs : Nat} {g g₀ : Shape}
    (hid : id ≠ rhs) (hg : σ rhs = some g) (hg₀ : σ id = some g₀) :
    ∃ m', moveAssign id rhs m = .ok () m' ∧ Represents m'
      (Function.update (Function.update σ id (some g)) rhs (some .empty)) := by
  obtain ⟨r, hr, hold⟩ := h.object hg
  obtain ⟨o, ho, hold₀⟩ := h.object hg₀
  cases hin : r.isInline with
  | true =>
      obtain ⟨s, hs, hrun⟩ := moveAssign_inline hid hr hold.storage_length hin ho hold₀
      have h' := h.step_inline ⟨r.size, o.storage.put 0 (2 * maxInlineSize) r.storage.cell⟩
        hold.size_eq hold₀.storage_length hin
        ((hold.inline hin).put_inline _ (hold.length_le hin)) hs.frame (hs.fresh h.fresh)
      exact ⟨_, hrun, h'.step_keep _ rfl hold.storage_length rfl (reads_empty _ _)⟩
  | false =>
      obtain ⟨b, content, hcell, -, -, -⟩ := hold.outline hin
      obtain ⟨s, hs, hrun⟩ := moveAssign_outline hid hr hold.storage_length hin hcell ho hold₀
      exact ⟨_, hrun, h.transfer hid hr hold hin hs rfl hold₀.storage_length hcell.symm rfl
        hold.storage_length⟩

end Steps

section Resize

variable {m : Machine} {σ : Shapes} {id : Nat} {supply : Supply Word}

theorem wordsOf_of_le {l : List Int} {k : Nat} (h : l.length ≤ k) :
    wordsOf l k = .value 0 := by
  rw [wordsOf, List.getD_eq_getElem?_getD, List.getElem?_eq_none h, Option.getD_none]

/-- Kept entries at the front, zeros behind them, with the strides at a new start. -/
theorem Reads.resize {content content' : Block Word} {start start' n : Nat} {g : Shape}
    (h : Reads content start g)
    (hkeep : ∀ k < n, k < g.length → content'.cell k = content.cell k ∧
      content'.cell (start' + k) = content.cell (start + k))
    (hzero : ∀ k < n, g.length ≤ k → content'.cell k = .value 0 ∧
      content'.cell (start' + k) = .value 0) : Reads content' start' (g.resize n) := by
  intro k hk
  replace hk : k < n := (padTo_length n g.sizes).symm ▸ hk
  have hsizes : wordsOf (g.resize n).sizes k = wordsOf g.sizes k :=
    congrArg Word.value (padTo_getD g.sizes hk)
  have hstrides : wordsOf (g.resize n).strides k = wordsOf g.strides k :=
    congrArg Word.value (padTo_getD g.strides hk)
  rw [hsizes, hstrides]
  rcases Nat.lt_or_ge k g.length with hlt | hge
  · exact ⟨(hkeep k hk hlt).1.trans (h k hlt).1, (hkeep k hk hlt).2.trans (h k hlt).2⟩
  · rw [wordsOf_of_le hge, wordsOf_of_le (g.length_eq ▸ hge)]
    exact hzero k hk hge

theorem Shape.resize_length (g : Shape) (n : Nat) : (g.resize n).length = n :=
  padTo_length n g.sizes

theorem padTo_self (l : List Int) : padTo l.length l = l := by
  rw [padTo, List.take_length, Nat.sub_self, List.replicate_zero, List.append_nil]

theorem Shape.resize_self (g : Shape) : g.resize g.length = g := by
  obtain ⟨sizes, strides, h⟩ := g
  simp only [resize, length, mk.injEq]
  exact ⟨padTo_self sizes, h ▸ padTo_self strides⟩

theorem Block.put_cell (b : Block Word) (first count k : Nat) (source : Nat → Word) :
    (b.put first count source).cell k =
      if first ≤ k ∧ k < first + count then source (k - first) else b.cell k := rfl

/-- Inline to inline, with zeros behind the old entries of both halves. -/
theorem resize_inline_grow {o : Object} {n : Nat} (ho : m.objects id = some o)
    (hlen : o.storage.length = 2 * maxInlineSize) (hin : o.isInline = true)
    (hn : n ≤ maxInlineSize) (hlt : o.size < n) :
    resize supply id n m = .ok () (m.withObject id
      ⟨n, (o.storage.put o.size (n - o.size) zeros).put (maxInlineSize + o.size)
        (n - o.size) zeros⟩) := by
  rw [resize, bind_of_ok (getObject_ok ho)]
  dsimp only
  rw [if_neg (by omega), if_pos ⟨hn, hin⟩, if_pos hlt,
    bind_of_ok (writeInline_ok ho (by omega) _),
    bind_of_ok (writeInline_ok (Machine.withObject_self ..)
      (by rw [Block.put_length]; omega) _),
    Machine.withObject_withObject, setSize_ok (Machine.withObject_self ..),
    Machine.withObject_withObject]

/-- Inline to inline, with the dropped entries left where they are. -/
theorem resize_inline_shrink {o : Object} {n : Nat} (ho : m.objects id = some o)
    (hin : o.isInline = true) (hlt : n < o.size) :
    resize supply id n m = .ok () (m.withObject id { o with size := n }) := by
  have hle : o.size ≤ maxInlineSize := of_decide_eq_true hin
  rw [resize, bind_of_ok (getObject_ok ho)]
  dsimp only
  rw [if_neg (by omega), if_pos ⟨by omega, hin⟩, if_neg (by omega), setSize_ok ho]

theorem resize_inline_refines (supply : Supply Word) (h : Represents m σ) {o : Object}
    {g : Shape} {n : Nat} (ho : m.objects id = some o) (hold : Holds m.blocks o g)
    (hin : o.isInline = true) (hn : n ≤ maxInlineSize) (hne : n ≠ g.length) :
    ∃ m', resize supply id n m = .ok () m' ∧
      Represents m' (Function.update σ id (some (g.resize n))) := by
  have hle := hold.length_le hin
  have hin' : ∀ storage, Object.isInline ⟨n, storage⟩ = true := fun _ => by
    simpa [Object.isInline] using hn
  have hsize := hold.size_eq
  rcases Nat.lt_or_ge g.length n with hlt | hge
  · refine ⟨_, resize_inline_grow ho hold.storage_length hin hn (hsize ▸ hlt),
      h.step_keep _ (g.resize_length n).symm hold.storage_length (hin' _) ?_⟩
    refine (hold.inline hin).resize (fun k _ hk => ?_) fun k hk hge => ?_
    · simp only [Block.put_cell]
      exact ⟨by rw [if_neg (by omega), if_neg (by omega)],
        by rw [if_neg (by omega), if_neg (by omega)]⟩
    · simp only [Block.put_cell]
      exact ⟨by rw [if_neg (by omega), if_pos (by omega)]; rfl,
        by rw [if_pos (by omega)]; rfl⟩
  · refine ⟨_, resize_inline_shrink ho hin (by omega),
      h.step_keep _ (g.resize_length n).symm hold.storage_length (hin' _) ?_⟩
    exact (hold.inline hin).resize (fun _ _ _ => ⟨rfl, rfl⟩) fun k hk hk' => by omega

/-- Heap to inline: the first five sizes and the first five strides are fetched. -/
theorem resize_shrink_inline {o : Object} {n b : Nat} {content : Block Word}
    (ho : m.objects id = some o) (hlen : o.storage.length = 2 * maxInlineSize)
    (hout : maxInlineSize < o.size) (hcell : o.storage.cell 0 = .pointer (some b))
    (hblock : m.blocks.block b = some content) (hclen : content.length = 2 * o.size)
    (hn : n ≤ maxInlineSize) :
    resizeSlowPath supply id n o.size m = .ok () ((m.withObject id
      ⟨n, (o.storage.put 0 maxInlineSize fun k => content.cell (0 + k)).put maxInlineSize
        maxInlineSize fun k => content.cell (o.size + k)⟩).withBlocks (m.blocks.free b)) := by
  have hb : ∀ o', (m.withObject id o').blocks.block b = some content := fun _ => hblock
  rw [resizeSlowPath, bind_of_ok (getObject_ok ho)]
  dsimp only
  rw [if_pos hn, bind_of_ok (outOfLineStorage_ok ho hcell),
    bind_of_ok (readBlock_ok hblock (by omega)),
    bind_of_ok (writeInline_ok ho (by omega) _),
    bind_of_ok (readBlock_ok (hb _) (by omega)),
    bind_of_ok (writeInline_ok (Machine.withObject_self ..)
      (by rw [Block.put_length]; omega) _),
    Machine.withObject_withObject, bind_of_ok (freeBlock_ok (hb _)),
    setSize_ok (Machine.withObject_withBlocks_self ..), Machine.withBlocks_withObject,
    Machine.withObject_withObject, Machine.withObject_blocks]

theorem resize_shrink_inline_refines (supply : Supply Word) (h : Represents m σ)
    {o : Object} {g : Shape} {n : Nat} (ho : m.objects id = some o) (hold : Holds m.blocks o g)
    (hin : o.isInline = false) (hn : n ≤ maxInlineSize) :
    ∃ m', resizeSlowPath supply id n g.length m = .ok () m' ∧
      Represents m' (Function.update σ id (some (g.resize n))) := by
  obtain ⟨b, content, hcell, hblock, hlen, hreads⟩ := hold.outline hin
  have hlt : maxInlineSize < o.size := Nat.lt_of_not_le (of_decide_eq_false hin)
  have hsize := hold.size_eq
  rw [← hsize]
  refine ⟨_, resize_shrink_inline ho hold.storage_length hlt hcell hblock hlen hn,
    h.step_inline _ (g.resize_length n).symm hold.storage_length
    (by simpa [Object.isInline] using hn) ?_ (free_frame ho (Object.owner_some hin hcell))
    (h.fresh.free b)⟩
  refine hreads.resize (fun k hk _ => ?_) fun k hk hge => by omega
  simp only [Block.put_cell]
  constructor
  · rw [if_neg (by omega), if_pos (by omega)]
    congr 1
    omega
  · rw [if_pos (by omega)]
    congr 1
    omega

theorem zeroBlock_ok {b first count : Nat} {content : Block Word}
    (h : m.blocks.block b = some content) (hle : first + count ≤ content.length)
    (hpos : count ≠ 0) : zeroBlock (some b) first count m =
      .ok () (m.withBlocks (m.blocks.set b (content.put first count zeros))) := by
  rw [zeroBlock, if_neg hpos, writeBlock_ok h hle]

/-- Inline to heap: the block is filled while the inline words are still there. -/
theorem resize_grow_outline_refines (hgrants : ∀ k, supply.grants k = true)
    (h : Represents m σ) {o : Object} {g : Shape} {n : Nat} (ho : m.objects id = some o)
    (hold : Holds m.blocks o g) (hin : o.isInline = true) (hn : ¬ n ≤ maxInlineSize)
    (hlt : n < lengthLimit) :
    ∃ m', resizeSlowPath supply id n g.length m = .ok () m' ∧
      Represents m' (Function.update σ id (some (g.resize n))) := by
  have hle := hold.length_le hin
  have hreads := hold.inline hin
  have hlimit : n < 2 ^ 60 := hlt
  have ho' : ∀ s, (m.withBlocks s).objects id = some o := fun _ => ho
  have hlen := hold.storage_length
  have hself : ∀ content, (m.withBlocks (m.blocks.push content)).blocks.block
      m.blocks.next = some content := fun _ => Blocks.push_block_self
  have hset : ∀ content content', (m.withBlocks (m.blocks.push content)).withBlocks
      ((m.withBlocks (m.blocks.push content)).blocks.set m.blocks.next content') =
      m.withBlocks (m.blocks.push content') := fun content content' => by
    rw [Machine.withBlocks_blocks, Blocks.push_set, Machine.withBlocks_withBlocks]
  rw [resizeSlowPath, bind_of_ok (getObject_ok ho)]
  dsimp only
  rw [if_neg hn, if_pos hin, storageWords_of_lt hlt]
  unfold maxInlineSize at hn hle hlen ⊢
  rw [wordCount_of_lt (by omega), wordCount_of_lt (by omega),
    bind_of_ok (malloc_ok hgrants _), if_neg (by simp),
    bind_of_ok (readInline_ok (ho' _) (by omega)),
    bind_of_ok (writeBlock_ok (hself _) (by simp only; omega) _), hset,
    bind_of_ok (zeroBlock_ok (hself _) (by simp only [Block.put_length]; omega) (by omega)),
    hset, bind_of_ok (readInline_ok (ho' _) (by omega)),
    bind_of_ok (writeBlock_ok (hself _) (by simp only [Block.put_length]; omega) _), hset,
    bind_of_ok (zeroBlock_ok (hself _) (by simp only [Block.put_length]; omega) (by omega)),
    hset, bind_of_ok (setOutOfLineStorage_ok (ho' _) hold.storage_length _),
    setSize_ok (Machine.withObject_self ..), Machine.withObject_withObject,
    Machine.withBlocks_withObject]
  refine ⟨_, rfl, h.step_push (Or.inl rfl) (g.resize_length n).symm
    ((g.resize_length n).symm ▸ hlt) hold.storage_length
    (decide_eq_false hn) rfl rfl ?_⟩
  refine hreads.resize (fun k hk hkg => ?_) fun k hk hge => ?_
  · simp only [Block.put_cell]
    constructor
    · rw [if_neg (by omega), if_neg (by omega), if_neg (by omega), if_pos (by omega),
        Nat.zero_add, Nat.sub_zero]
    · rw [if_neg (by omega), if_pos (by omega), Nat.add_sub_cancel_left, maxInlineSize]
  · simp only [Block.put_cell]
    constructor
    · rw [if_neg (by omega), if_neg (by omega), if_pos (by omega), zeros]
    · rw [if_pos (by omega), zeros]

/-- Heap to heap, with the block grown before the strides are shifted. -/
theorem resize_grow_refines (hgrants : ∀ k, supply.grants k = true)
    (h : Represents m σ) {o : Object} {g : Shape} {n : Nat} (ho : m.objects id = some o)
    (hold : Holds m.blocks o g) (hin : o.isInline = false) (hn : g.length < n)
    (hlt : n < lengthLimit) :
    ∃ m', resizeSlowPath supply id n g.length m = .ok () m' ∧
      Represents m' (Function.update σ id (some (g.resize n))) := by
  obtain ⟨b, content, hcell, hblock, hlen, hreads⟩ := hold.outline hin
  have hlimit : n < 2 ^ 60 := hlt
  have hlarge : maxInlineSize < g.length := by
    rw [← hold.size_eq]
    simpa [Object.isInline] using hin
  rw [hold.size_eq] at hlen hreads
  obtain ⟨o', ho'⟩ : ∃ o' : Object, o' = ⟨o.size, o.storage.put 0 1 fun _ =>
    .pointer (some m.blocks.next)⟩ := ⟨_, rfl⟩
  have hcell' : o'.storage.cell 0 = .pointer (some m.blocks.next) := by rw [ho']; rfl
  have hgrown := resizeOutOfLineStorage_ok hgrants ho hold.storage_length hcell hblock hlt
  rw [← ho'] at hgrown
  have hself : ∀ content, ((m.withObject id o').withBlocks
      ((m.blocks.free b).push content)).blocks.block m.blocks.next = some content :=
    fun _ => Blocks.push_block_self
  have hset : ∀ content content', ((m.withObject id o').withBlocks
      ((m.blocks.free b).push content)).withBlocks (((m.withObject id o').withBlocks
      ((m.blocks.free b).push content)).blocks.set m.blocks.next content') =
      (m.withObject id o').withBlocks ((m.blocks.free b).push content') :=
    fun content content' => by
      rw [Machine.withBlocks_blocks, ← Blocks.free_next (b := b), Blocks.push_set,
        Machine.withBlocks_withBlocks]
  have hobj := m.withObject_withBlocks_self id o'
  rw [resizeSlowPath, bind_of_ok (getObject_ok ho)]
  dsimp only
  rw [if_neg (by omega), hin, if_neg (by decide), if_pos hn, bind_of_ok hgrown,
    bind_of_ok (outOfLineStorage_ok (hobj _) hcell'), Nat.min_eq_left (Nat.le_of_lt hn),
    wordCount_of_lt (by omega), wordCount_of_lt (by omega),
    bind_of_ok (readBlock_ok (hself _) (by simp only [Blocks.reallocated]; omega)),
    bind_of_ok (outOfLineStorage_ok (hobj _) hcell'),
    bind_of_ok (writeBlock_ok (hself _) (by simp only [Blocks.reallocated]; omega) _), hset,
    if_neg (by omega), bind_of_ok (outOfLineStorage_ok (hobj _) hcell'),
    bind_of_ok (writeBlock_ok (hself _)
      (by simp only [Block.put_length, Blocks.reallocated]; omega) _), hset,
    bind_of_ok (outOfLineStorage_ok (hobj _) hcell'),
    bind_of_ok (writeBlock_ok (hself _)
      (by simp only [Block.put_length, Blocks.reallocated]; omega) _), hset,
    setSize_ok (hobj _), Machine.withBlocks_withObject, Machine.withObject_withObject]
  subst ho'
  have hout : Object.isInline ⟨n, o.storage.put 0 1 fun _ => .pointer (some m.blocks.next)⟩ =
      false := decide_eq_false (show ¬ n ≤ maxInlineSize by omega)
  refine ⟨_, rfl, h.step_push (Or.inr ⟨o, b, ho, Object.owner_some hin hcell, rfl⟩)
    (g.resize_length n).symm ((g.resize_length n).symm ▸ hlt) hold.storage_length hout
    rfl rfl ?_⟩
  refine hreads.resize (fun k hk hkg => ?_) fun k hk hge => ?_
  · simp only [Block.put_cell, Blocks.reallocated]
    constructor
    · rw [if_neg (by omega), if_neg (by omega), if_neg (by omega), if_pos (by omega)]
    · rw [if_neg (by omega), if_neg (by omega), if_pos (by omega),
        Nat.add_sub_cancel_left, if_pos (by omega)]
  · simp only [Block.put_cell]
    constructor
    · rw [if_neg (by omega), if_pos (by omega), zeros]
    · rw [if_pos (by omega), zeros]

/-- Heap to heap, with the strides shifted before the block is cut. -/
theorem resize_shrink_refines (hgrants : ∀ k, supply.grants k = true)
    (h : Represents m σ) {o : Object} {g : Shape} {n : Nat} (ho : m.objects id = some o)
    (hold : Holds m.blocks o g) (hin : o.isInline = false) (hn : n < g.length)
    (hlarge : ¬ n ≤ maxInlineSize) :
    ∃ m', resizeSlowPath supply id n g.length m = .ok () m' ∧
      Represents m' (Function.update σ id (some (g.resize n))) := by
  obtain ⟨b, content, hcell, hblock, hlen, hreads⟩ := hold.outline hin
  have hlt := hold.size_lt
  have hlimit : g.length < 2 ^ 60 := hlt
  rw [hold.size_eq] at hlen hreads
  have ho' : ∀ s, (m.withBlocks s).objects id = some o := fun _ => ho
  obtain ⟨shifted, hshifted⟩ : ∃ shifted : Block Word, shifted = content.put n n
    fun k => content.cell (g.length + k) := ⟨_, rfl⟩
  have hset : (m.withBlocks (m.blocks.set b shifted)).blocks.block b = some shifted :=
    Blocks.set_block_self
  have hcut := resizeOutOfLineStorage_ok hgrants (ho' (m.blocks.set b shifted))
    hold.storage_length hcell hset (Nat.lt_trans hn hlt)
  rw [resizeSlowPath, bind_of_ok (getObject_ok ho)]
  dsimp only
  rw [if_neg hlarge, hin, if_neg (by decide), if_neg (by omega),
    Nat.min_eq_right (Nat.le_of_lt hn), wordCount_of_lt (by omega),
    bind_of_ok (outOfLineStorage_ok ho hcell), bind_of_ok (readBlock_ok hblock (by omega)),
    bind_of_ok (outOfLineStorage_ok ho hcell),
    bind_of_ok (writeBlock_ok hblock (by omega) _), ← hshifted, if_pos (by omega),
    bind_of_ok hcut, setSize_ok (Machine.withObject_withBlocks_self ..)]
  simp only [Machine.withBlocks_withObject, Machine.withObject_withObject,
    Machine.withBlocks_withBlocks, Machine.withBlocks_blocks, Blocks.set_free,
    Blocks.set_next]
  refine ⟨_, rfl, h.step_push (Or.inr ⟨o, b, ho, Object.owner_some hin hcell, rfl⟩)
    (g.resize_length n).symm ((g.resize_length n).symm ▸ Nat.lt_trans hn hlt)
    hold.storage_length (decide_eq_false hlarge) rfl rfl ?_⟩
  refine hreads.resize (fun k hk _ => ?_) fun k hk hge => by omega
  have hlength : shifted.length = 2 * g.length := by rw [hshifted, Block.put_length, hlen]
  simp only [Blocks.reallocated, hlength]
  rw [if_pos (by omega), if_pos (by omega), hshifted]
  simp only [Block.put_cell]
  constructor
  · rw [if_neg (by omega)]
  · rw [if_pos (by omega), Nat.add_sub_cancel_left]

theorem resize_refines (hgrants : ∀ k, supply.grants k = true) (h : Represents m σ)
    {g : Shape} {n : Nat} (hg : σ id = some g) (hlt : n < lengthLimit) :
    ∃ m', resize supply id n m = .ok () m' ∧
      Represents m' (Function.update σ id (some (g.resize n))) := by
  obtain ⟨o, ho, hold⟩ := h.object hg
  by_cases hsame : n = g.length
  · rw [resize, bind_of_ok (getObject_ok ho)]
    dsimp only
    rw [hold.size_eq, if_pos hsame]
    refine ⟨m, rfl, ?_⟩
    rwa [hsame, Shape.resize_self, ← hg, Function.update_eq_self]
  have hslow : ¬ (n ≤ maxInlineSize ∧ o.isInline = true) →
      resize supply id n m = resizeSlowPath supply id n g.length m := by
    intro hnot
    rw [resize, bind_of_ok (getObject_ok ho)]
    dsimp only
    rw [hold.size_eq, if_neg hsame, if_neg hnot]
  cases hin : o.isInline with
  | true =>
      by_cases hn : n ≤ maxInlineSize
      · exact resize_inline_refines supply h ho hold hin hn hsame
      · rw [hslow fun hand => hn hand.1]
        exact resize_grow_outline_refines hgrants h ho hold hin hn hlt
  | false =>
      rw [hslow fun hand => Bool.false_ne_true (hin ▸ hand.2)]
      by_cases hn : n ≤ maxInlineSize
      · exact resize_shrink_inline_refines supply h ho hold hin hn
      · rcases Nat.lt_or_gt_of_ne hsame with hless | hmore
        · exact resize_shrink_refines hgrants h ho hold hin hless hn
        · exact resize_grow_refines hgrants h ho hold hin hmore hlt

end Resize

section Elements

variable {m : Machine} {σ : Shapes} {id : Nat}

/-- An object whose own block is written. -/
theorem Represents.step_set (h : Represents m σ) {o : Object} {g g' : Shape} {b : Nat}
    {content content' : Block Word} (ho : m.objects id = some o) (hold : Holds m.blocks o g)
    (hin : o.isInline = false) (hcell : o.storage.cell 0 = .pointer (some b))
    (hb : m.blocks.block b = some content) (hlength : g'.length = g.length)
    (hlen : content'.length = 2 * g.length) (hreads : Reads content' g.length g') :
    Represents (m.withBlocks (m.blocks.set b content'))
      (Function.update σ id (some g')) := by
  have hsame : m.withObject id o = m := by
    rw [Machine.withObject, ← ho, Function.update_eq_self]
  have hown := Object.owner_some hin hcell
  rw [← hsame]
  refine h.step ⟨hold.size_eq.trans hlength.symm, hlength ▸ hold.size_lt,
    hold.storage_length, fun hinline => ?_, fun _ => ?_⟩ (fun b' content₀ hb' hnot => ?_)
    (fun b' hb' => Or.inl ⟨o, ho, hb'⟩) (h.fresh.set hb _)
  · rw [hin] at hinline
    cases hinline
  · rw [hold.size_eq]
    exact ⟨b, content', hcell, Blocks.set_block_self, hlen, hreads⟩
  · have hne : b' ≠ b := fun heq => hnot o ho (heq ▸ hown)
    rw [Machine.withObject_blocks, Blocks.set_block_ne hne]
    exact hb'

/-- A list with some entries replaced by those of another from `k` on. -/
def Overwrites (l words l' : List Int) (k : Nat) : Prop :=
  ∀ i, wordsOf l' i =
    if k ≤ i ∧ i < k + words.length then wordsOf words (i - k) else wordsOf l i

theorem Reads.withSizes {content : Block Word} {start k : Nat} {g : Shape}
    {words sizes : List Int} (h : Reads content start g) (hlength : sizes.length = g.length)
    (hle : k + words.length ≤ start) (hover : Overwrites g.sizes words sizes k) :
    Reads (content.put k words.length (wordsOf words)) start (g.withSizes sizes hlength) := by
  intro i hi
  obtain ⟨hsize, hstride⟩ := h i (hlength ▸ hi)
  rw [Block.put_outside content (k := start + i) _ (Or.inr (by omega)), Block.put_cell,
    hsize, hstride]
  exact ⟨(hover i).symm, rfl⟩

theorem Reads.withStrides {content : Block Word} {start k : Nat} {g : Shape}
    {words strides : List Int} (h : Reads content start g)
    (hlength : strides.length = g.length) (hle : g.length ≤ start)
    (hover : Overwrites g.strides words strides k) :
    Reads (content.put (start + k) words.length (wordsOf words)) start
      (g.withStrides strides hlength) := by
  intro i hi
  replace hi : i < g.length := hi
  obtain ⟨hsize, hstride⟩ := h i hi
  rw [Block.put_outside content _ (Or.inl (by omega)), Block.put_cell, hsize, hstride]
  refine ⟨rfl, ((hover i).trans ?_).symm⟩
  have hiff : (start + k ≤ start + i ∧ start + i < start + k + words.length) ↔
      k ≤ i ∧ i < k + words.length := by omega
  simp only [hiff, Nat.add_sub_add_left]

theorem writeSizes_refines (h : Represents m σ) {k : Nat} {g : Shape}
    {words sizes : List Int} (hg : σ id = some g) (hlength : sizes.length = g.length)
    (hle : k + words.length ≤ g.length) (hover : Overwrites g.sizes words sizes k) :
    ∃ m', writeSizes id k words m = .ok () m' ∧
      Represents m' (Function.update σ id (some (g.withSizes sizes hlength))) := by
  obtain ⟨o, ho, hold⟩ := h.object hg
  rw [writeSizes, bind_of_ok (getObject_ok ho)]
  cases hin : o.isInline with
  | true =>
      have hinline := hold.length_le hin
      rw [if_pos rfl, writeInline_ok ho (by rw [hold.storage_length]; omega)]
      exact ⟨_, rfl, h.step_keep _ (hold.size_eq.trans hlength.symm) hold.storage_length hin
        ((hold.inline hin).withSizes hlength (hle.trans hinline) hover)⟩
  | false =>
      obtain ⟨b, content, hcell, hb, hlen, hreads⟩ := hold.outline hin
      rw [hold.size_eq] at hlen hreads
      rw [if_neg (by decide), bind_of_ok (outOfLineStorage_ok ho hcell),
        writeBlock_ok hb (by omega)]
      exact ⟨_, rfl, h.step_set ho hold hin hcell hb hlength hlen
        (hreads.withSizes hlength hle hover)⟩

theorem writeStrides_refines (h : Represents m σ) {k : Nat} {g : Shape}
    {words strides : List Int} (hg : σ id = some g) (hlength : strides.length = g.length)
    (hle : k + words.length ≤ g.length) (hover : Overwrites g.strides words strides k) :
    ∃ m', writeStrides id k words m = .ok () m' ∧
      Represents m' (Function.update σ id (some (g.withStrides strides hlength))) := by
  obtain ⟨o, ho, hold⟩ := h.object hg
  rw [writeStrides, bind_of_ok (getObject_ok ho)]
  cases hin : o.isInline with
  | true =>
      have hinline := hold.length_le hin
      rw [if_pos rfl, writeInline_ok ho (by rw [hold.storage_length]; omega)]
      exact ⟨_, rfl, h.step_keep _ hold.size_eq hold.storage_length hin
        ((hold.inline hin).withStrides hlength hinline hover)⟩
  | false =>
      obtain ⟨b, content, hcell, hb, hlen, hreads⟩ := hold.outline hin
      rw [hold.size_eq] at hlen hreads
      rw [if_neg (by decide), bind_of_ok (outOfLineStorage_ok ho hcell), hold.size_eq,
        writeBlock_ok hb (by omega)]
      exact ⟨_, rfl, h.step_set ho hold hin hcell hb rfl hlen
        (hreads.withStrides hlength (Nat.le_refl _) hover)⟩

theorem overwrites_all {l words : List Int} (h : words.length = l.length) :
    Overwrites l words words 0 := by
  intro i
  split
  · rw [Nat.sub_zero]
  · rw [wordsOf_of_le (l := words) (by omega), wordsOf_of_le (by omega)]

theorem overwrites_set {l : List Int} {k : Nat} (hk : k < l.length) (v : Int) :
    Overwrites l [v] (l.set k v) k := by
  intro i
  rw [wordsOf, wordsOf, wordsOf, List.getD_eq_getElem?_getD, List.getElem?_set]
  split
  · rename_i heq
    subst heq
    rw [if_pos (by simp), Nat.sub_self]
    rfl
  · rw [if_neg (by simp only [List.length_singleton]; omega), List.getD_eq_getElem?_getD]

theorem setSizes_refines {supply : Supply Word} (hgrants : ∀ k, supply.grants k = true)
    (h : Represents m σ) {g : Shape} {sizes : List Int} (hg : σ id = some g)
    (hlt : sizes.length < lengthLimit) :
    ∃ m', setSizes supply id sizes m = .ok () m' ∧
      Represents m' (Function.update σ id
        (some ((g.resize sizes.length).withSizes sizes (padTo_length _ _).symm))) := by
  obtain ⟨m₁, hresize, h₁⟩ := resize_refines hgrants h hg hlt
  have hlength := g.resize_length sizes.length
  obtain ⟨m₂, hwrite, h₂⟩ := writeSizes_refines h₁ (Function.update_self ..) hlength.symm
    (by rw [Nat.zero_add, hlength]) (overwrites_all hlength.symm)
  rw [Function.update_idem] at h₂
  exact ⟨m₂, by rw [setSizes, bind_of_ok hresize, hwrite], h₂⟩

theorem setStrides_refines (h : Represents m σ) {g : Shape} {strides : List Int}
    (hg : σ id = some g) (hlength : strides.length = g.length) :
    ∃ m', setStrides id strides m = .ok () m' ∧
      Represents m' (Function.update σ id (some (g.withStrides strides hlength))) := by
  obtain ⟨o, ho, hold⟩ := h.object hg
  rw [setStrides, bind_of_ok (getObject_ok ho)]
  dsimp only
  rw [hold.size_eq, if_neg (not_not.2 hlength)]
  exact writeStrides_refines h hg hlength (by rw [Nat.zero_add, hlength])
    (overwrites_all (hlength.trans g.length_eq))

/-- A length that does not fit is refused before anything is written. -/
theorem setStrides_refused (h : Represents m σ) {g : Shape} {strides : List Int}
    (hg : σ id = some g) (hlength : strides.length ≠ g.length) :
    setStrides id strides m = .error .strideCount m := by
  obtain ⟨o, ho, hold⟩ := h.object hg
  rw [setStrides, bind_of_ok (getObject_ok ho)]
  dsimp only
  rw [hold.size_eq, if_pos hlength]
  rfl

theorem destroy_refines (h : Represents m σ) {g : Shape} (hg : σ id = some g) :
    ∃ m', destroy id m = .ok () m' ∧
      Represents m' (Function.update σ id none) := by
  obtain ⟨o, ho, hold⟩ := h.object hg
  have hgone : ∀ {s : Blocks Word}, (∀ b content, m.blocks.block b = some content →
      (∀ o, m.objects id = some o → o.owner ≠ some b) → s.block b = some content) →
      s.Fresh →
      Represents ⟨s, Function.update m.objects id none⟩ (Function.update σ id none) := by
    intro s hframe hfresh
    have hnone : Function.update m.objects id none id = none := Function.update_self ..
    refine h.update (· = id) ?_ ?_ ?_ ?_ ?_ hfresh
    · exact fun i hi => ⟨Function.update_of_ne hi .., Function.update_of_ne hi ..⟩
    · rintro i rfl
      change HoldsAt s (Function.update m.objects i none i) (Function.update σ i none i)
      rw [Function.update_self, Function.update_self]
      trivial
    · exact fun b content hb hnot => hframe b content hb fun o => hnot id o rfl
    · rintro i o' b rfl ho' -
      cases hnone.symm.trans ho'
    · rintro i i' o₁ o₂ b rfl rfl - - - -
      rfl
  rw [destroy, bind_of_ok (getObject_ok ho)]
  cases hin : o.isInline with
  | true =>
      rw [if_neg (by decide)]
      exact ⟨_, rfl, hgone (fun _ _ hb _ => hb) h.fresh⟩
  | false =>
      obtain ⟨b, content, hcell, hb, -, -⟩ := hold.outline hin
      rw [if_pos (by decide), bind_of_ok (outOfLineStorage_ok ho hcell),
        bind_of_ok (freeBlock_ok hb)]
      exact ⟨_, rfl, hgone (free_frame ho (Object.owner_some hin hcell)) (h.fresh.free b)⟩

theorem mapM_ok {f : Nat → Method Int} {g : Nat → Int} {ks : List Nat}
    (h : ∀ k ∈ ks, f k m = .ok (g k) m) : ks.mapM f m = .ok (ks.map g) m := by
  induction ks with
  | nil => rfl
  | cons k ks ih =>
      rw [List.mapM_cons, bind_of_ok (h k List.mem_cons_self),
        bind_of_ok (ih fun k hk => h k (List.mem_cons_of_mem _ hk))]
      rfl

/-- The integers of words that hold a list. -/
theorem integers_ok {l : List Int} {words : Nat → Word}
    (h : ∀ k < l.length, words k = wordsOf l k) : integers l.length words m = .ok l m := by
  refine (mapM_ok (g := fun k => l.getD k 0) fun k hk => ?_).trans ?_
  · rw [h k (List.mem_range.1 hk)]
    rfl
  congr 1
  refine List.ext_getElem (by simp) fun k hk hk' => ?_
  rw [List.getElem_map, List.getElem_range, List.getD_eq_getElem?_getD,
    List.getElem?_eq_getElem hk', Option.getD_some]

theorem sizesArrayref_ok (h : Represents m σ) {g : Shape} (hg : σ id = some g) :
    sizesArrayref id m = .ok g.sizes m := by
  obtain ⟨o, ho, hold⟩ := h.object hg
  rw [sizesArrayref, bind_of_ok (getObject_ok ho), hold.size_eq]
  cases hin : o.isInline with
  | true =>
      have hle := hold.length_le hin
      rw [if_pos rfl, bind_of_ok (readInline_ok ho (by rw [hold.storage_length]; omega))]
      refine integers_ok fun k hk => ?_
      rw [Nat.zero_add]
      exact (hold.inline hin k hk).1
  | false =>
      obtain ⟨b, content, hcell, hb, hlen, hreads⟩ := hold.outline hin
      rw [hold.size_eq] at hlen
      rw [if_neg (by decide), bind_of_ok (outOfLineStorage_ok ho hcell),
        bind_of_ok (readBlock_ok hb (by omega))]
      refine integers_ok fun k hk => ?_
      rw [Nat.zero_add]
      exact (hreads k hk).1

theorem stridesArrayref_ok (h : Represents m σ) {g : Shape} (hg : σ id = some g) :
    stridesArrayref id m = .ok g.strides m := by
  obtain ⟨o, ho, hold⟩ := h.object hg
  have hsame : g.length = g.strides.length := g.length_eq
  rw [stridesArrayref, bind_of_ok (getObject_ok ho), hold.size_eq]
  cases hin : o.isInline with
  | true =>
      have hle := hold.length_le hin
      rw [if_pos rfl, bind_of_ok (readInline_ok ho (by rw [hold.storage_length]; omega)),
        hsame]
      exact integers_ok fun k hk => (hold.inline hin k (hsame ▸ hk)).2
  | false =>
      obtain ⟨b, content, hcell, hb, hlen, hreads⟩ := hold.outline hin
      rw [hold.size_eq] at hlen hreads
      rw [if_neg (by decide), bind_of_ok (outOfLineStorage_ok ho hcell),
        bind_of_ok (readBlock_ok hb (by omega)), hsame]
      exact integers_ok fun k hk => hsame ▸ (hreads k (hsame ▸ hk)).2

end Elements

section Runs

variable {m : Machine} {σ σ' : Shapes} {supply : Supply Word}

/-- The operation asks for no length whose byte count wraps around. -/
def Op.Small : Op → Prop
  | resize _ n => n < lengthLimit
  | setSizes _ sizes => sizes.length < lengthLimit
  | _ => True

/-- Every object reads back as the list model says. -/
def ReadsBack (m : Machine) (σ : Shapes) : Prop :=
  ∀ id, match σ id with
    | none => m.objects id = none
    | some g => sizesArrayref id m = .ok g.sizes m ∧ stridesArrayref id m = .ok g.strides m

theorem Represents.readsBack (h : Represents m σ) : ReadsBack m σ := by
  intro id
  cases hg : σ id with
  | none => exact h.absent hg
  | some g => exact ⟨sizesArrayref_ok h hg, stridesArrayref_ok h hg⟩

theorem attempt_ok {op : Op} {m' : Machine} (h : op.perform supply m = .ok () m') :
    op.attempt supply m = .ok () m' := by
  change EStateM.tryCatch (op.perform supply) _ m = _
  rw [EStateM.tryCatch, h]

/-- One operation, one case for each method. -/
theorem attempt_refines (hgrants : ∀ k, supply.grants k = true) (h : Represents m σ)
    {op : Op} (hsmall : op.Small) (hop : op.shapes σ = some σ') :
    ∃ m', op.attempt supply m = .ok () m' ∧ Represents m' σ' := by
  have lift : (∃ m', op.perform supply m = .ok () m' ∧ Represents m' σ') →
      ∃ m', op.attempt supply m = .ok () m' ∧ Represents m' σ' :=
    fun ⟨m', hrun, h'⟩ => ⟨m', attempt_ok hrun, h'⟩
  cases op with
  | defaultConstruct id =>
      simp only [Op.shapes, Option.isNone_iff_eq_none, Option.ite_none_right_eq_some,
        Option.some.injEq] at hop
      obtain ⟨hnone, rfl⟩ := hop
      exact lift (defaultConstruct_refines h hnone)
  | copyConstruct id rhs =>
      simp only [Op.shapes, Option.bind_eq_bind, Option.bind_eq_some_iff,
        Option.isNone_iff_eq_none, Option.ite_none_right_eq_some, Option.some.injEq] at hop
      obtain ⟨g, hg, hnone, rfl⟩ := hop
      exact lift (copyConstruct_refines hgrants h hg hnone)
  | moveConstruct id rhs =>
      simp only [Op.shapes, Option.bind_eq_bind, Option.bind_eq_some_iff,
        Option.isNone_iff_eq_none, Option.ite_none_right_eq_some, Option.some.injEq] at hop
      obtain ⟨g, hg, hnone, rfl⟩ := hop
      exact lift (moveConstruct_refines h hg hnone)
  | copyAssign id rhs =>
      simp only [Op.shapes, Option.bind_eq_bind, Option.bind_eq_some_iff,
        Option.some.injEq] at hop
      obtain ⟨g, hg, g₀, hg₀, rfl⟩ := hop
      exact lift (copyAssign_refines hgrants h hg hg₀)
  | moveAssign id rhs =>
      simp only [Op.shapes, Option.bind_eq_bind, Option.bind_eq_some_iff] at hop
      obtain ⟨g, hg, g₀, hg₀, hop⟩ := hop
      by_cases hid : id = rhs
      · rw [if_pos hid, Option.some.injEq] at hop
        subst hop
        refine lift ⟨m, ?_, h⟩
        rw [Op.perform, moveAssign, if_pos hid]
        rfl
      · rw [if_neg hid, Option.some.injEq] at hop
        subst hop
        exact lift (moveAssign_refines h hid hg hg₀)
  | resize id n =>
      simp only [Op.shapes, Option.bind_eq_bind, Option.bind_eq_some_iff,
        Option.some.injEq] at hop
      obtain ⟨g, hg, rfl⟩ := hop
      exact lift (resize_refines hgrants h hg hsmall)
  | setSizes id sizes =>
      simp only [Op.shapes, Option.bind_eq_bind, Option.bind_eq_some_iff,
        Option.some.injEq] at hop
      obtain ⟨g, hg, rfl⟩ := hop
      exact lift (setSizes_refines hgrants h hg hsmall)
  | setStrides id strides =>
      simp only [Op.shapes, Option.bind_eq_bind, Option.bind_eq_some_iff] at hop
      obtain ⟨g, hg, hop⟩ := hop
      by_cases hlength : strides.length = g.length
      · rw [dif_pos hlength, Option.some.injEq] at hop
        subst hop
        exact lift (setStrides_refines h hg hlength)
      · rw [dif_neg hlength, Option.some.injEq] at hop
        subst hop
        refine ⟨m, ?_, h⟩
        change EStateM.tryCatch (setStrides id strides) _ m = _
        rw [EStateM.tryCatch, setStrides_refused h hg hlength]
        rfl
  | writeSize id k v =>
      simp only [Op.shapes, Option.bind_eq_bind, Option.bind_eq_some_iff,
        Option.ite_none_right_eq_some, Option.some.injEq] at hop
      obtain ⟨g, hg, hk, rfl⟩ := hop
      exact lift (writeSizes_refines h hg List.length_set hk (overwrites_set hk v))
  | writeStride id k v =>
      simp only [Op.shapes, Option.bind_eq_bind, Option.bind_eq_some_iff,
        Option.ite_none_right_eq_some, Option.some.injEq] at hop
      obtain ⟨g, hg, hk, rfl⟩ := hop
      exact lift (writeStrides_refines h hg (List.length_set.trans g.length_eq.symm) hk
        (overwrites_set (g.length_eq ▸ hk) v))
  | destroy id =>
      simp only [Op.shapes, Option.bind_eq_bind, Option.bind_eq_some_iff,
        Option.some.injEq] at hop
      obtain ⟨g, hg, rfl⟩ := hop
      exact lift (destroy_refines h hg)

theorem represents_empty : Represents .empty fun _ => none :=
  ⟨Blocks.fresh_empty, fun _ => trivial, fun h => by cases h⟩

theorem runOps_represents (hgrants : ∀ k, supply.grants k = true) (ops : List Op)
    (hsmall : ∀ op ∈ ops, op.Small) (h : Represents m σ)
    (hops : shapesAfter ops σ = some σ') :
    ∃ m', runOps supply ops m = .ok () m' ∧ Represents m' σ' := by
  induction ops generalizing m σ with
  | nil =>
      cases hops
      exact ⟨m, rfl, h⟩
  | cons op ops ih =>
      rw [shapesAfter, Option.bind_eq_bind, Option.bind_eq_some_iff] at hops
      obtain ⟨σ₁, hop, hrest⟩ := hops
      obtain ⟨m₁, hfirst, h₁⟩ :=
        attempt_refines hgrants h (hsmall op List.mem_cons_self) hop
      obtain ⟨m', hrun, h'⟩ :=
        ih (fun op hmem => hsmall op (List.mem_cons_of_mem _ hmem)) h₁ hrest
      exact ⟨m', by rw [runOps, bind_of_ok hfirst, hrun], h'⟩

/-- Every program over `sizes_and_strides` runs without a fault, and every object reads
back as its lists, as long as no length is so large that its byte count wraps around. -/
theorem runOps_refines {supply : Supply Word} (hgrants : ∀ k, supply.grants k = true)
    {ops : List Op} (hsmall : ∀ op ∈ ops, op.Small) {σ : Shapes}
    (hops : shapesAfter ops (fun _ => none) = some σ) :
    ∃ m, runOps supply ops .empty = .ok () m ∧ ReadsBack m σ := by
  obtain ⟨m, hrun, h⟩ := runOps_represents hgrants ops hsmall represents_empty hops
  exact ⟨m, hrun, h.readsBack⟩

end Runs

namespace RefinementWitness

/-- An allocator that grants everything and leaves ones behind. -/
def granting : Supply Word := ⟨fun _ => true, fun _ _ => .value 1⟩

/-- Through the heap and back, with a copy that outlives its source. -/
def program : List Op :=
  [.defaultConstruct 0, .setSizes 0 [2, 3, 4, 5, 6, 7], .setStrides 0 [6, 5, 4, 3, 2, 1],
    .copyConstruct 1 0, .resize 0 8, .setStrides 0 [9], .moveConstruct 2 0, .resize 2 4,
    .writeSize 1 5 9, .copyAssign 1 1, .resize 0 2]

theorem runOps_refines_program : ∃ m, runOps granting program .empty = .ok () m ∧
    sizesArrayref 0 m = .ok [0, 0] m ∧
    sizesArrayref 1 m = .ok [2, 3, 4, 5, 6, 9] m ∧
    stridesArrayref 1 m = .ok [6, 5, 4, 3, 2, 1] m ∧
    sizesArrayref 2 m = .ok [2, 3, 4, 5] m ∧ stridesArrayref 2 m = .ok [6, 5, 4, 3] m := by
  have hsmall : ∀ op ∈ program, op.Small := by
    simp [program, Op.Small, lengthLimit]
  have hgrants : ∀ k, granting.grants k = true := fun _ => rfl
  obtain ⟨m, hrun, hreads⟩ := runOps_refines hgrants hsmall rfl
  exact ⟨m, hrun, (hreads 0).1, (hreads 1).1, (hreads 1).2, (hreads 2).1, (hreads 2).2⟩

/-- `storageBytes(2^60)` is zero: the block is granted, and the first store misses it. -/
theorem runOps_refines_wraps : ¬ ∀ supply : Supply Word, (∀ k, supply.grants k = true) →
    ∀ ops σ, shapesAfter ops (fun _ => none) = some σ →
      ∃ m, runOps supply ops .empty = .ok () m ∧ ReadsBack m σ := by
  intro h
  obtain ⟨m, hrun, -⟩ :=
    h granting (fun _ => rfl) [.defaultConstruct 0, .resize 0 (2 ^ 60)] _ rfl
  cases hrun

end RefinementWitness

end Vectorization.SizesAndStrides
