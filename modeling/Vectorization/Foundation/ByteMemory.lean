/-
Byte-addressed memory with typed cells, and schedules of grouped stores.  A
group evaluates all its lanes before it stores the first one.  When the cells
of a schedule lie apart and each group reads only its own cells and memory that
no group writes, every order of the groups stores the same snapshot values.
-/
import Mathlib

namespace ByteMemory

universe u v

/-- Byte addresses are integers, so that offsets add without side conditions. -/
abbrev Memory := Int → UInt8

/-- The byte representation of a scalar type of the given width. -/
structure Codec (α : Type u) (width : Nat) where
  encode : α → Fin width → UInt8
  decode : (Fin width → UInt8) → α
  decode_encode : ∀ v, decode (encode v) = v

/-- Values that are their own bytes. -/
def Codec.bytes (width : Nat) : Codec (Fin width → UInt8) width where
  encode := id
  decode := id
  decode_encode _ := rfl

variable {α : Type u} {w : Nat} (c : Codec α w)

def load (m : Memory) (a : Int) : α :=
  c.decode fun k => m (a + k.val)

def store (m : Memory) (a : Int) (v : α) : Memory := fun x =>
  if h : a ≤ x ∧ x < a + w then c.encode v ⟨(x - a).toNat, by omega⟩ else m x

/-- The byte lies in the cell of the given width. -/
def InCell (w : Nat) (a x : Int) : Prop := a ≤ x ∧ x < a + w

/-- Two cells share no byte. -/
def Apart (w : Nat) (a b : Int) : Prop := a + w ≤ b ∨ b + w ≤ a

theorem Apart.symm {a b : Int} (h : Apart w a b) : Apart w b a := Or.symm h

theorem Apart.not_inCell {a b x : Int} (h : Apart w a b) (hx : InCell w a x) :
    ¬ InCell w b x := by
  unfold Apart at h
  unfold InCell at *
  omega

/-- Cells at distinct multiples of the width lie apart. -/
theorem apart_of_ne {base i j : Int} (h : i ≠ j) :
    Apart w (base + i * w) (base + j * w) := by
  have key : ∀ {p q : Int}, p < q → p * w + w ≤ q * w := fun {p q} hpq => by
    have := Int.mul_le_mul_of_nonneg_right (Int.add_one_le_of_lt hpq)
      (Int.natCast_nonneg w)
    rwa [Int.add_mul, Int.one_mul] at this
  unfold Apart
  rcases Int.lt_or_gt_of_ne h with h | h
  · have := key h
    omega
  · have := key h
    omega

theorem load_congr {m m' : Memory} {a : Int}
    (h : ∀ x, InCell w a x → m x = m' x) : load c m a = load c m' a := by
  refine congrArg c.decode (funext fun k => h _ ?_)
  have := k.isLt
  unfold InCell
  omega

theorem store_outside {m : Memory} {a x : Int} (h : ¬ InCell w a x) (v : α) :
    store c m a v x = m x :=
  dif_neg h

theorem store_inside (m : Memory) (a : Int) (v : α) (k : Fin w) :
    store c m a v (a + k.val) = c.encode v k := by
  have hk : a ≤ a + k.val ∧ a + k.val < a + w := by
    have := k.isLt
    omega
  unfold store
  rw [dif_pos hk]
  congr 1
  exact Fin.ext (by simp)

/-- The memory after storing the listed values at the listed cells: the bytes of
the cells are those of their values, all others are as before. -/
structure Written (m₀ m : Memory) (pairs : List (Int × α)) : Prop where
  bytes : ∀ p ∈ pairs, ∀ k : Fin w, m (p.1 + k.val) = c.encode p.2 k
  frame : ∀ x, (∀ p ∈ pairs, ¬ InCell w p.1 x) → m x = m₀ x

def storeAll (m : Memory) (pairs : List (Int × α)) : Memory :=
  pairs.foldl (fun acc p => store c acc p.1 p.2) m

/-- No two of the listed cells share a byte. -/
def CellsApart (w : Nat) (pairs : List (Int × α)) : Prop :=
  pairs.Pairwise fun p q => Apart w p.1 q.1

variable {c} {m₀ m m' : Memory} {pairs pairs' : List (Int × α)}

theorem Written.load (h : Written c m₀ m pairs) {a : Int} {v : α}
    (ha : (a, v) ∈ pairs) : load c m a = v := by
  rw [ByteMemory.load, show (fun k : Fin w => m (a + k.val)) = c.encode v from
    funext (h.bytes (a, v) ha), c.decode_encode]

theorem Written.nil : Written c m₀ m₀ ([] : List (Int × α)) :=
  ⟨by simp, fun _ _ => rfl⟩

theorem Written.perm (h : Written c m₀ m pairs) (hp : pairs.Perm pairs') :
    Written c m₀ m pairs' :=
  ⟨fun p hmem => h.bytes p (hp.mem_iff.2 hmem),
    fun x hx => h.frame x fun p hmem => hx p (hp.mem_iff.1 hmem)⟩

/-- The listed cells and the values in them determine the memory. -/
theorem Written.unique (h : Written c m₀ m pairs) (h' : Written c m₀ m' pairs) :
    m = m' := by
  funext x
  by_cases hx : ∃ p ∈ pairs, InCell w p.1 x
  · obtain ⟨p, hp, hlo, hhi⟩ := hx
    have hk : x = p.1 + (⟨(x - p.1).toNat, by omega⟩ : Fin w).val := by
      simp only
      omega
    rw [hk, h.bytes p hp, h'.bytes p hp]
  · simp only [not_exists, not_and] at hx
    rw [h.frame x hx, h'.frame x hx]

theorem Written.store (h : Written c m₀ m pairs) {a : Int} (v : α)
    (hap : ∀ p ∈ pairs, Apart w p.1 a) :
    Written c m₀ (store c m a v) (pairs ++ [(a, v)]) := by
  refine ⟨fun p hp k => ?_, fun x hx => ?_⟩
  · rcases List.mem_append.1 hp with hp | hp
    · rw [store_outside c ((hap p hp).not_inCell ?_), h.bytes p hp]
      have := k.isLt
      unfold InCell
      omega
    · obtain rfl := List.mem_singleton.1 hp
      exact store_inside c m a v k
  · rw [store_outside c (hx (a, v) (by simp)),
      h.frame x fun p hp => hx p (List.mem_append_left _ hp)]

theorem Written.storeAll (h : Written c m₀ m pairs)
    (hap : CellsApart w (pairs ++ pairs')) :
    Written c m₀ (storeAll c m pairs') (pairs ++ pairs') := by
  induction pairs' generalizing m pairs with
  | nil =>
      rw [List.append_nil]
      exact h
  | cons p pairs' ih =>
      rw [List.append_cons] at hap ⊢
      refine ih (h.store p.2 fun q hq => ?_) hap
      exact (List.pairwise_append.1 (List.pairwise_append.1 hap).1).2.2 q hq p (by simp)

/-- Lanes that are evaluated together and then stored one after another. -/
structure StoreOp (κ : Type v) (α : Type u) where
  kind : κ
  address : Int
  lanes : Nat
  value : Memory → Nat → α

variable {κ : Type v}

namespace StoreOp

/-- What the group stores when it starts in the given memory. -/
def writes (w : Nat) (m : Memory) (op : StoreOp κ α) : List (Int × α) :=
  (List.range op.lanes).map fun (k : Nat) => (op.address + k * w, op.value m k)

def exec (c : Codec α w) (op : StoreOp κ α) (m : Memory) : Memory :=
  storeAll c m (op.writes w m)

/-- The group stores the same values in every memory that still agrees with the
initial one on the group's own cells and outside all cells of the schedule. -/
def Steady (w : Nat) (m₀ : Memory) (pairs : List (Int × α)) (op : StoreOp κ α) : Prop :=
  ∀ m : Memory,
    (∀ x, (∃ p ∈ op.writes w m₀, InCell w p.1 x) ∨ (∀ p ∈ pairs, ¬ InCell w p.1 x) →
      m x = m₀ x) →
    op.writes w m = op.writes w m₀

end StoreOp

/-- Groups executed one after another. -/
def run (c : Codec α w) (ops : List (StoreOp κ α)) (m : Memory) : Memory :=
  ops.foldl (fun m op => op.exec c m) m

/-- What a schedule stores when every group starts in the given memory. -/
def writesOf (w : Nat) (m : Memory) (ops : List (StoreOp κ α)) : List (Int × α) :=
  ops.flatMap (StoreOp.writes w m)

@[simp] theorem writesOf_nil : writesOf w m ([] : List (StoreOp κ α)) = [] := rfl

@[simp] theorem writesOf_cons (op : StoreOp κ α) (ops : List (StoreOp κ α)) :
    writesOf w m (op :: ops) = op.writes w m ++ writesOf w m ops := rfl

@[simp] theorem writesOf_append (xs ys : List (StoreOp κ α)) :
    writesOf w m (xs ++ ys) = writesOf w m xs ++ writesOf w m ys :=
  List.flatMap_append

/-- An invariant of what has been done holds of all of it after the loop. -/
theorem foldl_done {β : Type v} {l : List β} {f : Memory → β → Memory}
    {P : List β → Memory → Prop} {m : Memory} (hstart : P [] m)
    (hstep : ∀ done b rest m, done ++ b :: rest = l → P done m → P (done ++ [b]) (f m b)) :
    P l (l.foldl f m) := by
  have hrest : ∀ rest done m, done ++ rest = l → P done m → P l (rest.foldl f m) := by
    intro rest
    induction rest with
    | nil =>
        intro done m hdone hm
        rw [List.append_nil] at hdone
        exact hdone ▸ hm
    | cons b rest ih =>
        intro done m hdone hm
        apply ih (done ++ [b]) (f m b)
        · rw [List.append_assoc]
          exact hdone
        · exact hstep done b rest m hdone hm
  exact hrest l [] m rfl hstart

/-- Steady groups over cells that lie apart store the snapshot values. -/
theorem run_written {ops : List (StoreOp κ α)} (hap : CellsApart w (writesOf w m₀ ops))
    (hst : ∀ op ∈ ops, op.Steady w m₀ (writesOf w m₀ ops)) :
    Written c m₀ (run c ops m₀) (writesOf w m₀ ops) := by
  -- what has run is written, and the rest is still steady
  apply foldl_done (P := fun done m => Written c m₀ m (writesOf w m₀ done)) Written.nil
  intro done op rest m hdone hm
  have hops : writesOf w m₀ ops =
      writesOf w m₀ done ++ op.writes w m₀ ++ writesOf w m₀ rest := by
    rw [← hdone, writesOf_append, writesOf_cons, List.append_assoc]
  have hpair : CellsApart w (writesOf w m₀ done ++ op.writes w m₀) := by
    rw [hops] at hap
    exact (List.pairwise_append.1 hap).1
  have hsame : op.writes w m = op.writes w m₀ := by
    refine hst op (by simp [← hdone]) m fun x hx => hm.frame x fun p hp => ?_
    rcases hx with ⟨q, hq, hqx⟩ | hx
    · exact ((List.pairwise_append.1 hpair).2.2 p hp q hq).symm.not_inCell hqx
    · exact hx p (by simp [hops, hp])
  rw [writesOf_append, writesOf_cons, writesOf_nil, List.append_nil, StoreOp.exec, hsame]
  exact hm.storeAll hpair

section Realized

variable {ι : Type v} {cell : ι → Int} {value : Memory → ι → α}

/-- Each operation stores, in order, the elements of its group: the value of
element `i` in the current memory goes to `cell i`. -/
def Realizes (w : Nat) (cell : ι → Int) (value : Memory → ι → α)
    (ops : List (StoreOp κ α)) (groups : List (List ι)) : Prop :=
  List.Forall₂ (fun (op : StoreOp κ α) (group : List ι) => ∀ m, op.writes w m =
    group.map fun i => (cell i, value m i)) ops groups

variable {ops ops' : List (StoreOp κ α)} {groups groups' : List (List ι)}

theorem Realizes.append (h : Realizes w cell value ops groups)
    (h' : Realizes w cell value ops' groups') :
    Realizes w cell value (ops ++ ops') (groups ++ groups') :=
  List.rel_append h h'

theorem Realizes.flatMap {β : Type v} {l : List β} {f : β → List (StoreOp κ α)}
    {g : β → List (List ι)} (h : ∀ b ∈ l, Realizes w cell value (f b) (g b)) :
    Realizes w cell value (l.flatMap f) (l.flatMap g) := by
  induction l with
  | nil => exact List.Forall₂.nil
  | cons b l ih =>
      rw [List.flatMap_cons, List.flatMap_cons]
      exact (h b List.mem_cons_self).append
        (ih fun b' hb' => h b' (List.mem_cons_of_mem b hb'))

theorem Realizes.map {β : Type v} {l : List β} {f : β → StoreOp κ α} {g : β → List ι}
    (h : ∀ b ∈ l, ∀ m, (f b).writes w m = (g b).map fun i => (cell i, value m i)) :
    Realizes w cell value (l.map f) (l.map g) := by
  induction l with
  | nil => exact List.Forall₂.nil
  | cons b l ih =>
      exact List.Forall₂.cons (h b List.mem_cons_self)
        (ih fun b' hb' => h b' (List.mem_cons_of_mem b hb'))

theorem Realizes.writesOf (h : Realizes w cell value ops groups) (m : Memory) :
    writesOf w m ops = groups.flatten.map fun i => (cell i, value m i) := by
  induction h with
  | nil => rfl
  | @cons op group ops groups hop _ ih =>
      rw [writesOf_cons, List.flatten_cons, List.map_append, hop m, ih]

theorem Realizes.exists_group (h : Realizes w cell value ops groups) {op : StoreOp κ α}
    (hop : op ∈ ops) : ∃ group : List ι, (∀ i ∈ group, i ∈ groups.flatten) ∧
      ∀ m, op.writes w m = group.map fun i => (cell i, value m i) := by
  induction h with
  | nil => cases hop
  | @cons op' group ops groups hhead _ ih =>
      rcases List.mem_cons.1 hop with rfl | hop
      · exact ⟨group, fun i hi => by simp [hi], hhead⟩
      · obtain ⟨group', hmem, hgroup⟩ := ih hop
        refine ⟨group', fun i hi => ?_, hgroup⟩
        rw [List.flatten_cons]
        exact List.mem_append_right _ (hmem i hi)

/-- Elements in cells that lie apart, each read from its own cell and from
memory outside all cells only: running the schedule stores their values in the
initial memory. -/
theorem Realizes.run_written (h : Realizes w cell value ops groups)
    (hap : groups.flatten.Pairwise fun i j => Apart w (cell i) (cell j))
    (hst : ∀ i ∈ groups.flatten, ∀ m : Memory,
      (∀ x, InCell w (cell i) x ∨ (∀ j ∈ groups.flatten, ¬ InCell w (cell j) x) →
        m x = m₀ x) → value m i = value m₀ i) :
    Written c m₀ (run c ops m₀) (groups.flatten.map fun i => (cell i, value m₀ i)) := by
  have hwrites := h.writesOf m₀
  rw [← hwrites]
  refine ByteMemory.run_written ?_ fun op hop m hm => ?_
  · rw [hwrites, CellsApart, List.pairwise_map]
    exact hap
  · obtain ⟨group, hmem, hgroup⟩ := h.exists_group hop
    rw [hgroup m, hgroup m₀]
    refine List.map_congr_left fun i hi => ?_
    rw [hst i (hmem i hi) m fun x hx => hm x (hx.imp (fun hx => ?_) fun hx => ?_)]
    · refine ⟨(cell i, value m₀ i), ?_, hx⟩
      rw [hgroup m₀]
      exact List.mem_map_of_mem hi
    · rw [hwrites]
      intro p hp
      obtain ⟨j, hj, rfl⟩ := List.mem_map.1 hp
      exact hx j hj

end Realized

section Copies

/-- One lane of a copy: where it is stored and where it is loaded from. -/
structure LaneCopy where
  target : Int
  source : Int
deriving Repr, DecidableEq

/-- Lanes that are all loaded before the first one is stored. -/
def copyLanes (c : Codec α w) (m : Memory) (lanes : List LaneCopy) : Memory :=
  storeAll c m (lanes.map fun l => (l.target, load c m l.source))

def copyBlocks (c : Codec α w) (blocks : List (List LaneCopy)) (m : Memory) : Memory :=
  blocks.foldl (copyLanes c) m

/-- Blocks whose targets lie apart, from each other and from every source, copy what the
sources held before. -/
theorem copyBlocks_written {blocks : List (List LaneCopy)}
    (hap : blocks.flatten.Pairwise fun k l => Apart w k.target l.target)
    (hsources : ∀ k ∈ blocks.flatten, ∀ l ∈ blocks.flatten, Apart w k.target l.source) :
    Written c m₀ (copyBlocks c blocks m₀)
      (blocks.flatten.map fun l => (l.target, load c m₀ l.source)) := by
  -- what has run is written, so the sources to come are untouched
  apply foldl_done (P := fun (done : List (List LaneCopy)) m =>
    Written c m₀ m (done.flatten.map fun l => (l.target, load c m₀ l.source))) Written.nil
  intro done lanes rest m hdone hm
  have hsplit : blocks.flatten = done.flatten ++ (lanes ++ rest.flatten) := by
    rw [← hdone, List.flatten_append, List.flatten_cons]
  have hsame : (lanes.map fun l => (l.target, load c m l.source)) =
      lanes.map fun l => (l.target, load c m₀ l.source) := by
    refine List.map_congr_left fun l hl => ?_
    have hmem : l ∈ blocks.flatten := by
      rw [hsplit]
      exact List.mem_append_right _ (List.mem_append_left _ hl)
    rw [load_congr c fun x hx => hm.frame x fun p hp => ?_]
    obtain ⟨k, hk, rfl⟩ := List.mem_map.1 hp
    have hkmem : k ∈ blocks.flatten := hsplit ▸ List.mem_append_left _ hk
    exact (hsources k hkmem l hmem).symm.not_inCell hx
  rw [List.flatten_append, List.flatten_singleton, List.map_append, copyLanes, hsame]
  apply hm.storeAll
  rw [← List.map_append, CellsApart, List.pairwise_map]
  rw [hsplit, ← List.append_assoc] at hap
  exact (List.pairwise_append.1 hap).1

end Copies

end ByteMemory
