/-
Sessions of transfers.  A program uploads vectors into tensors, downloads and compares
tensors, clones them, moves them to the host and packs them, across any devices.  It
refines an abstract machine in which a storage is a row of values and a tensor is a list
of cells of one storage: strides, windows, staging buffers and addresses leave no trace.
-/
import Vectorization.Comparison
import Vectorization.Foundation.CellStore

namespace Vectorization

open StridedSpace MachineInteger ByteMemory AtomicRun Outcome

variable {T : ElementType} {α : Type}

/-- One call of a program on the tensors it holds, named by their numbers. -/
inductive Transfer (α : Type)
  /-- `copy_from_host(std::vector const&)`. -/
  | copyFromHost (i : Nat) (values : List α)
  | toHostVector (i : Nat)
  | clone (i : Nat)
  | toCpu (i : Nat)
  | contiguous (i : Nat)
  /-- `operator==` of two owners. -/
  | equals (i j : Nat)

/-- What a call tells the program. -/
inductive Observation (α : Type)
  | values (values : List α)
  | answer (answer : Bool)

/-- The exception for a number that names no tensor, or no owner where owners are compared. -/
def undeclared : Raise := .external "undeclared"

namespace Staging

/-- A tensor that a program holds, and the base of its allocation. -/
structure Held (T : ElementType) where
  base : Nat
  tensor : TensorImpl T

section Operations

variable (R : Runtime T) (S : SimdTarget T) (c : Codec α T.size) (F : Numeric α)

/-- The elements of a vector whose storage lies at an address. -/
def vectorCells (base : Nat) (values : List α) : List (Int × α) :=
  (List.finRange values.length).map fun k =>
    ((base + k.val * T.size : Int), values.get k)

def writeVector (base : Nat) (values : List α) : EStateM Raise State Unit :=
  modify fun s =>
    { s with
      memory := Function.update s.memory .host
        (storeAll c (s.memory .host) (vectorCells (T := T) base values)) }

/-- `copy_from_host` from a vector, which the caller makes and drops. -/
def uploadVector (t : TensorImpl T) (values : List α) : EStateM Raise State Unit := do
  let h ← reserve R values.length .host
  writeVector c h values
  copyFromHost R c t h values.length
  release (T := T) values.length .host h

def declared (held : List (Held T)) (i : Nat) : EStateM Raise State (Held T) :=
  match held[i]? with
  | some x => pure x
  | none => throw undeclared

/-- A tensor that `operator==` is declared for, and the base of its allocation. -/
def declaredOwner (held : List (Held T)) (i : Nat) : EStateM Raise State (Nat × Owner T) := do
  let x ← declared held i
  if howner : x.tensor.isView = false then pure (x.base, ⟨x.tensor, howner⟩)
  else throw undeclared

/-- The tensors held after the call, and what it tells. -/
def transfer (held : List (Held T)) :
    Transfer α → EStateM Raise State (List (Held T) × List (Observation α))
  | .copyFromHost i values => do
      let x ← declared held i
      uploadVector R c x.tensor values
      return (held, [])
  | .toHostVector i => do
      let x ← declared held i
      let values ← toHostVector R c x.base x.tensor
      return (held, [.values values])
  | .clone i => do
      let x ← declared held i
      let r ← clone R S c x.base x.tensor
      return (held ++ [⟨r.data, r⟩], [])
  | .toCpu i => do
      let x ← declared held i
      let r ← toCpu R S c x.base x.tensor
      return (held ++ [⟨r.data, r⟩], [])
  | .contiguous i => do
      let x ← declared held i
      let r ← contiguous R S c x.base x.tensor
      return (held ++ [⟨if x.tensor.contiguous then x.base else r.data, r⟩], [])
  | .equals i j => do
      let x ← declaredOwner held i
      let y ← declaredOwner held j
      let answer ← equals R S c F x.1 y.1 x.2 y.2
      return (held, [.answer answer])

end Operations

end Staging

/-- A tensor as its user sees it: a shape over cells of one storage, whether it may be
uploaded to, and whether it may be compared. -/
structure Handle where
  storage : Nat
  shape : List Int
  cells : List Nat
  packed : Bool
  owner : Bool

/-- The storages made so far, and the tensors over them. -/
structure Pool (α : Type) where
  used : Nat
  contents : Nat → Nat → α
  handles : List Handle

namespace Pool

variable (F : Numeric α) (P : Pool α)

def values (x : Handle) : List α := x.cells.map (P.contents x.storage)

/-- A new storage, of an owner or under a view, holds the values in order. -/
def copy (owner : Bool) (x : Handle) : Pool α where
  used := P.used + 1
  contents := Function.update P.contents P.used fun k =>
    (P.values x).getD k (P.contents P.used k)
  handles := P.handles ++ [⟨P.used, x.shape, List.range x.cells.length, true, owner⟩]

theorem copy_old (owner : Bool) (x : Handle) {i : Nat} (hi : i ≠ P.used) :
    (P.copy owner x).contents i = P.contents i := Function.update_of_ne hi _ _

theorem copy_new (owner : Bool) (x : Handle) {k : Nat} (hk : k < (P.values x).length) :
    (P.copy owner x).contents P.used k = (P.values x).get ⟨k, hk⟩ := by
  rw [copy]
  dsimp only
  rw [Function.update_self, List.getD_eq_getElem _ _ hk]
  rfl

/-- A view of the same cells. -/
def share (x : Handle) : Pool α :=
  { P with handles := P.handles ++ [{ x with owner := false }] }

/-- The cells of the tensor take the values at once. -/
def upload (x : Handle) (values : List α) : Pool α :=
  { P with
    contents := Function.update P.contents x.storage
      (overwrite (x.cells.zip values) (P.contents x.storage)) }

def declared (i : Nat) : Except Raise Handle :=
  match P.handles[i]? with
  | some x => .ok x
  | none => .error undeclared

def declaredOwner (i : Nat) : Except Raise Handle := do
  let x ← P.declared i
  if x.owner then .ok x else .error undeclared

def transfer : Transfer α → Except Raise (Pool α × List (Observation α))
  | .copyFromHost i values => do
      let x ← P.declared i
      if x.packed = false then .error .uploadContiguous
      else if values.length ≠ x.cells.length then .error .uploadCount
      else .ok (P.upload x values, [])
  | .toHostVector i => do
      let x ← P.declared i
      return (P, [.values (P.values x)])
  | .clone i | .toCpu i => do
      let x ← P.declared i
      return (P.copy true x, [])
  | .contiguous i => do
      let x ← P.declared i
      return (if x.packed then P.share x else P.copy false x, [])
  | .equals i j => do
      let x ← P.declaredOwner i
      let y ← P.declaredOwner j
      return (P, [.answer (decide (x.shape = y.shape) &&
        ((P.values x).zip (P.values y)).all fun p => F.eq p.1 p.2)])

def run : List (Transfer α) → Pool α → Except Raise (Pool α × List (Observation α))
  | [], P => .ok (P, [])
  | op :: ops, P => do
      let first ← P.transfer F op
      let rest ← run ops first.1
      return (rest.1, first.2 ++ rest.2)

end Pool

namespace Staging

section Uploads

variable {R : Runtime T} {c : Codec α T.size} {t : TensorImpl T} {s s' : State}

/-- The bytes of a cell that ends in an allocation belong to it. -/
theorem Allocation.holds_cell {a : Allocation} {k : Nat} (hk : (k + 1) * T.size ≤ a.bytes)
    {x : Int} (hx : InCell T.size (a.base + k * T.size) x) : a.Holds x := by
  rw [Nat.succ_mul] at hk
  unfold InCell at hx
  unfold Holds
  omega

end Uploads

section Upload

variable {R : Runtime T} {S : SimdTarget T} {c : Codec α T.size} {t : TensorImpl T}
  {base offset : Nat} {s : State} {values : List α}

end Upload

section Session

variable {R : Runtime T} {S : SimdTarget T} {c : Codec α T.size} {F : Numeric α}
  {held : List (Held T)} {P : Pool α} {made : List Allocation} {s s' : State}

/-- The tensor lies in the allocation of its storage, and reads its cells there. -/
structure Seen (S : SimdTarget T) (made : List Allocation) (s : State) (x : Held T)
    (h : Handle) : Prop where
  stored : ∃ offset, Stored S x.base offset x.tensor s ∧
    made[h.storage]? =
      some ⟨place x.tensor, x.base, (offset + x.tensor.view.size) * T.size⟩ ∧
    h.cells = (List.range x.tensor.numel).map fun k => offset + x.tensor.logicalOffset k
  shape : h.shape = x.tensor.sizes
  packed : h.packed = x.tensor.contiguous
  owner : h.owner = !x.tensor.isView

/-- Every storage is an allocation of its own that holds the contents, and every tensor
that is held reads one of them. -/
structure Models (S : SimdTarget T) (c : Codec α T.size) (held : List (Held T)) (P : Pool α)
    (made : List Allocation) (s : State) : Prop where
  used : P.used = made.length
  live : ∀ a ∈ made, a ∈ s.live
  apart : made.Pairwise Allocation.Apart
  contents : ∀ i a, made[i]? = some a → ∀ k, (k + 1) * T.size ≤ a.bytes →
    load c (s.memory a.place) (a.base + k * T.size) = P.contents i k
  handles : List.Forall₂ (Seen S made s) held P.handles

/-- What a tensor of the pool is worth is what `operator[]` reads of it. -/
theorem Models.values_eq (hm : Models S c held P made s) {x : Held T} {h : Handle}
    (hx : Seen S made s x h) : P.values h = elements c s.memory x.tensor := by
  obtain ⟨offset, hstored, hmade, hcells⟩ := hx.stored
  rw [Pool.values, hcells, List.map_map, elements]
  apply List.map_congr_left
  intro k hk
  have hlt := hstored.windowed.inWindow.offset_lt k (List.mem_range.1 hk)
  have hcell := hm.contents _ _ hmade (offset + x.tensor.logicalOffset k)
    (Nat.mul_le_mul_right _ (by omega))
  rw [Function.comp_apply, ← hcell, TensorImpl.readFlat, hstored.data]
  congr 1
  push_cast
  ring

theorem Seen.of_grows {news : List Allocation} {x : Held T} {h : Handle}
    (hx : Seen S made s x h) (hg : Grows news s s') (more : List Allocation) :
    Seen S (made ++ more) s' x h := by
  obtain ⟨offset, hstored, hmade, hcells⟩ := hx.stored
  refine ⟨⟨offset, hstored.of_grows hg, ?_, hcells⟩, hx.shape, hx.packed, hx.owner⟩
  rw [List.getElem?_append_left (List.getElem?_eq_some_iff.1 hmade).1, hmade]

theorem Models.of_grows {news : List Allocation} (hm : Models S c held P made s)
    (hg : Grows news s s') : Models S c held P made s' := by
  refine ⟨hm.used, fun a ha => hg.mem (hm.live a ha), hm.apart, ?_, ?_⟩
  · intro i a ha k hk
    rw [← hm.contents i a ha k hk]
    have hlive := hm.live a (List.mem_of_getElem? ha)
    apply load_congr
    intro x hx
    exact hg.memory a hlive x (Allocation.holds_cell hk hx)
  · refine hm.handles.imp fun x h hx => ?_
    have hseen := hx.of_grows hg []
    rwa [List.append_nil] at hseen

/-- A copy made of a tensor, or a view of all of it. -/
structure Owns (r r' : TensorImpl T) : Prop where
  view : r'.view = r.view
  contiguous : r'.contiguous = true
  numel : r'.numel = r.numel
  sizes : r'.sizes = r.sizes

theorem Owns.place_eq {r r' : TensorImpl T} (h : Owns r r') : place r' = place r := by
  rw [place, place, TensorImpl.device, TensorImpl.deviceIndex, h.view]
  rfl

theorem elements_get {m : Place → Memory} {t : TensorImpl T} {k : Nat}
    (hk : k < (elements c m t).length) :
    (elements c m t).get ⟨k, hk⟩ = t.readFlat c (m (place t)) k := by
  simp only [elements, List.get_eq_getElem, List.getElem_map, List.getElem_range]

theorem Models.copied_contents (hm : Models S c held P made s) {x : Held T} {h : Handle}
    (hx : Seen S made s x h) {p : Place} {r : TensorImpl T}
    (hcopy : Copies S c p x.tensor s r s') {i : Nat} {a : Allocation}
    (ha : (made ++ [hit p r.data x.tensor])[i]? = some a) {k : Nat}
    (hk : (k + 1) * T.size ≤ a.bytes) (owner : Bool) :
    load c (s'.memory a.place) (a.base + k * T.size) = (P.copy owner h).contents i k := by
  rcases Nat.lt_or_ge i made.length with hi | hi
  · rw [List.getElem?_append_left hi] at ha
    rw [(hm.of_grows hcopy.grows).contents i a ha k hk, P.copy_old owner h (hm.used ▸ hi.ne)]
  · obtain ⟨rfl, rfl⟩ : i = made.length ∧ a = hit p r.data x.tensor := by
      rw [List.getElem?_append_right hi, List.getElem?_singleton] at ha
      split at ha
      · exact ⟨by omega, (Option.some.inj ha).symm⟩
      · cases ha
    have hk' : k < x.tensor.numel := Nat.le_of_mul_le_mul_right hk T.size_pos
    have hlength : k < (elements c s.memory x.tensor).length := by
      rw [elements, List.length_map, List.length_range]
      exact hk'
    have hnth : (P.copy owner h).contents made.length k =
        x.tensor.readFlat c (s.memory (place x.tensor)) k := by
      rw [← hm.used, P.copy_new owner h (hm.values_eq hx ▸ hlength), ← elements_get hlength]
      exact List.get_of_eq (hm.values_eq hx) _
    obtain ⟨hcount, hread⟩ := elements_eq_iff.1 hcopy.sequence
    rw [hnth, ← hread k (hcount ▸ hk'), readFlat_of_contiguous c _ hcopy.contiguous,
      hcopy.place_eq]
    rfl

/-- The owner of a new storage, or a view of it, reads its cells in order. -/
theorem Seen.copied {x : Held T} {h : Handle} (hx : Seen S made s x h) {p : Place}
    {r r' : TensorImpl T} (hcopy : Copies S c p x.tensor s r s')
    (hstored : Stored S r.data 0 r' s') (howns : Owns r r') :
    Seen S (made ++ [hit p r.data x.tensor]) s' ⟨r.data, r'⟩
      ⟨made.length, h.shape, List.range h.cells.length, true, !r'.isView⟩ := by
  have hnumel : r'.numel = h.cells.length := by
    obtain ⟨_, -, -, hcells⟩ := hx.stored
    rw [hcells, List.length_map, List.length_range, howns.numel]
    exact (elements_eq_iff.1 hcopy.sequence).1
  refine ⟨⟨0, hstored, ?_, ?_⟩, ?_, howns.contiguous.symm, rfl⟩
  · rw [List.getElem?_append_right le_rfl, Nat.sub_self, howns.place_eq, hcopy.place_eq,
      howns.view, hcopy.size_eq, Nat.zero_add]
    rfl
  · have hflat : ∀ k ∈ List.range r'.numel, 0 + r'.logicalOffset k = id k := by
      intro k _
      rw [TensorImpl.logicalOffset, if_pos howns.contiguous, Nat.zero_add]
      rfl
    rw [List.map_congr_left hflat, List.map_id, hnumel]
  · exact hx.shape.trans (hcopy.sizes.symm.trans howns.sizes.symm)

/-- A packed copy is a new storage, filled in order. -/
theorem Models.copied (hm : Models S c held P made s) {x : Held T} {h : Handle}
    (hx : Seen S made s x h) {p : Place} {r r' : TensorImpl T}
    (hcopy : Copies S c p x.tensor s r s') (hstored : Stored S r.data 0 r' s')
    (howns : Owns r r') :
    Models S c (held ++ [⟨r.data, r'⟩]) (P.copy (!r'.isView) h)
      (made ++ [hit p r.data x.tensor]) s' := by
  refine ⟨?_, ?_, ?_, fun i a ha k hk => hm.copied_contents hx hcopy ha hk _, ?_⟩
  · rw [List.length_append, ← hm.used]
    rfl
  · intro a ha
    rcases List.mem_append.1 ha with ha | ha
    · exact hcopy.grows.mem (hm.live a ha)
    · rw [hcopy.grows.live]
      exact List.mem_append_left _ ha
  · refine List.pairwise_append.2 ⟨hm.apart, List.pairwise_singleton _ _, ?_⟩
    intro a ha n hn
    exact (hcopy.grows.fresh n hn a (hm.live a ha)).symm
  · have hnew := hx.copied hcopy hstored howns
    rw [← hm.used] at hnew
    exact List.rel_append (hm.handles.imp fun y g hy => hy.of_grows hcopy.grows _)
      (List.Forall₂.cons hnew List.Forall₂.nil)

theorem shareFrom_owns {t : TensorImpl T} (ht : t.Windowed S) (hcontig : t.contiguous = true) :
    Owns t (shareFrom S t) := by
  refine ⟨TensorImpl.recompute_view, ?_, ?_, ?_⟩
  · rw [← hcontig]
    conv_rhs => rw [← ht.cached]
    exact TensorImpl.recompute_contiguous_congr rfl
  · exact (TensorImpl.recompute_numel (t := .bare true t.view t.sizesAndStrides)
      ht.count_lt).trans ht.numel_eq.symm
  · rw [shareFrom, TensorImpl.sizes, TensorImpl.recompute_sizesAndStrides]
    rfl

theorem Stored.share {t : TensorImpl T} {base offset : Nat} (ht : Stored S base offset t s)
    (hcontig : t.contiguous = true) : Stored S base offset (shareFrom S t) s := by
  have howns := shareFrom_owns ht.windowed hcontig
  have hdims : (shareFrom S t).sizesAndStrides = t.sizesAndStrides :=
    TensorImpl.recompute_sizesAndStrides
  have hrank : (shareFrom S t).rank = t.rank := congrArg List.length hdims
  refine ⟨shareFrom_windowed ht.windowed, ?_, hrank.trans_le ht.rank, ?_, ?_⟩
  · rw [hdims]
    exact ht.sizes
  · exact (congrArg DataView.data howns.view).trans ht.data
  · rw [howns.place_eq, howns.view]
    exact ht.live

variable (hR : R.Serves)
include hR

end Session

end Staging

namespace TensorSessionWitness

open Staging StagingWitness ComparisonWitness Sample

def made : List Allocation := [⟨⟨.cuda, 0⟩, 4096, 28⟩]

/-- The slice, over the seven floats of its allocation. -/
def handle : Handle where
  storage := 0
  shape := [3, 2]
  cells := [1, 4, 2, 5, 3, 6]
  packed := false
  owner := false

def pool : Pool (Fin 4 → UInt8) where
  used := 1
  contents _ k := load (Codec.bytes 4) (state.memory ⟨.cuda, 0⟩) (4096 + k * 4)
  handles := [handle]

def sevens : List (Fin 4 → UInt8) := List.replicate 6 fun _ => 7

def program : List (Transfer (Fin 4 → UInt8)) :=
  [.contiguous 0, .copyFromHost 1 sevens, .toHostVector 1, .toHostVector 0, .toCpu 0, .clone 0,
    .equals 2 3]

end TensorSessionWitness

end Vectorization
