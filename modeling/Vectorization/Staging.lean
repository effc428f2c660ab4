/-
Packing across memories.  Every device has a memory of its own, the host gathers only
from its own, and `copy_logical_to_host` stages a window of device memory from the base
of its allocation on.  `clone`, `to_cpu`, `to_host_vector`, `contiguous` and an owner
built from a view hold the elements that `operator[]` reads, in order.
-/
import Vectorization.ReshapeSemantics
import Vectorization.Foundation.Outcome

namespace Vectorization

open StridedSpace MachineInteger ByteMemory AtomicRun Outcome

variable {T : ElementType} {α : Type}

namespace Staging

/-- Where an address is valid. -/
structure Place where
  device : DeviceEnum
  index : Int
deriving Repr, DecidableEq

def Place.host : Place := ⟨.cpu, 0⟩

/-- The host has one memory, a device one for each index. -/
def Place.of (device : DeviceEnum) (index : Int) : Place :=
  if device = .cpu then .host else ⟨device, index⟩

def place (t : TensorImpl T) : Place := .of t.device t.deviceIndex

/-- An allocation in use. -/
structure Allocation where
  place : Place
  base : Nat
  bytes : Nat
deriving Repr, DecidableEq

structure State where
  memory : Place → Memory
  live : List Allocation

/-- The allocator and the copies between memories, outside the repository. -/
structure Runtime (T : ElementType) where
  /-- The base of a fresh allocation of `count` elements. -/
  allocate : State → (count : Nat) → Place → Except Raise Nat
  /-- `copy_sync`: the memories after `count` elements are copied. -/
  copySync : (src : Nat) → (source : Place) → (count dst : Nat) → (target : Place) →
    (Place → Memory) → Except Raise (Place → Memory)

section Operations

variable (R : Runtime T) (S : SimdTarget T) (c : Codec α T.size)

def reserve (count : Nat) (p : Place) : EStateM Raise State Nat := do
  let s ← get
  let base ← raising (R.allocate s count p)
  set { s with live := ⟨p, base, count * T.size⟩ :: s.live }
  return base

/-- The end of an allocation's lifetime. -/
def release (count : Nat) (p : Place) (base : Nat) : EStateM Raise State Unit :=
  modify fun s => { s with live := s.live.erase ⟨p, base, count * T.size⟩ }

def copyElements (src : Nat) (source : Place) (count dst : Nat) (target : Place) :
    EStateM Raise State Unit := do
  let s ← get
  let memory ← raising (R.copySync src source count dst target s.memory)
  set { s with memory := memory }

/-- The index pairs are copied in the memory of the host. -/
def copyPairs (pairs : List (Nat × Nat)) (storage dst : Nat) : EStateM Raise State Unit :=
  modify fun s =>
    { s with
      memory := Function.update s.memory .host
        (run c (pairs.map (copyElement c storage dst)) (s.memory .host)) }

/-- `std::copy_n`. -/
def copyN (src count dst : Nat) : EStateM Raise State Unit :=
  copyPairs c ((List.range count).map fun i => (i, i)) src dst

def gatherLogical (t : TensorImpl T) (storage dst : Nat) : EStateM Raise State Unit := do
  let pairs ← raising t.gatherLogical
  copyPairs c pairs storage dst

/-- `storage_offset`, in elements from the base of the allocation. -/
def storageOffset (base : Nat) (t : TensorImpl T) : Nat :=
  if t.data = 0 then 0 else (t.data - base) / T.size

/-- The copy of a window that is not empty. -/
def copyWindow (base : Nat) (t : TensorImpl T) (count window : Nat) : EStateM Raise State Unit :=
  if count = 0 then pure () else copyElements R base (place t) count window .host

def copyLogicalToHost (base : Nat) (t : TensorImpl T) (dst : Nat) : EStateM Raise State Unit :=
  if dst = 0 ∨ t.numel = 0 then pure ()
  else if t.device = .cpu then
    if t.contiguous then copyN c t.data t.numel dst else gatherLogical c t t.data dst
  else if t.contiguous ∧ storageOffset base t = 0 then
    copyElements R base (place t) t.numel dst .host
  else do
    let count := storageOffset base t + t.view.size
    let window ← reserve R count .host
    copyWindow R base t count window
    gatherLogical c t (window + storageOffset base t * T.size) dst
    release (T := T) count .host window

/-- `copy_from_host`. -/
def copyFromHost (result : TensorImpl T) (ptr count : Nat) : EStateM Raise State Unit :=
  if ¬ result.contiguous then throw .uploadContiguous
  else if count ≠ result.numel then throw .uploadCount
  else if ptr = 0 ∨ count = 0 then pure ()
  else if result.device = .cpu then copyN c ptr count result.data
  else copyElements R ptr .host count result.data (place result)

/-- The tensor of an owner whose allocation is made. -/
def ownerOf (base n : Nat) (device : DeviceEnum) (index : Int) : Except Raise (TensorImpl T) :=
  makeOwner S ⟨fun _ _ _ => .ok base, fun _ _ _ => .error (.external "unused")⟩ n device index

/-- `tensor(n, device, index)`. -/
def makeTensor (n : Nat) (device : DeviceEnum) (index : Int) :
    EStateM Raise State (TensorImpl T) := do
  let base ← reserve R n (.of device index)
  raising (ownerOf S base n device index)

/-- The copy that `clone` makes into its result. -/
def fillClone (base : Nat) (t result : TensorImpl T) : EStateM Raise State Unit :=
  if t.numel = 0 then pure ()
  else if t.contiguous ∧ storageOffset base t = 0 then
    copyElements R t.data (place t) t.numel result.data (place t)
  else if t.device = .cpu then gatherLogical c t t.data result.data
  else do
    let packed ← reserve R t.numel .host
    copyLogicalToHost R c base t packed
    copyFromHost R c result packed t.numel
    release (T := T) t.numel .host packed

/-- What `clone` finds in a state: its copy on a device is the one that `fillClone` makes. -/
def heapOf (base : Nat) (s : State) : Heap T where
  allocate count device index := R.allocate s count (.of device index)
  copyDevice t dst m := do
    let result ← ownerOf S dst t.numel t.device t.deviceIndex
    let live := ⟨place t, dst, t.numel * T.size⟩ :: s.live
    match fillClone R c base t result ⟨Function.update s.memory (place t) m, live⟩ with
    | .ok _ s' => .ok (s'.memory (place t))
    | .error e _ => .error e

/-- `clone`, with the copies between memories. -/
def clone (base : Nat) (t : TensorImpl T) : EStateM Raise State (TensorImpl T) := do
  let result ← makeTensor R S t.numel t.device t.deviceIndex
  fillClone R c base t result
  return stampContiguousShape S result t

def toCpu (base : Nat) (t : TensorImpl T) : EStateM Raise State (TensorImpl T) := do
  let result ← makeTensor R S t.numel .cpu 0
  copyLogicalToHost R c base t result.data
  return stampContiguousShape S result t

/-- The elements of a block of memory, in order. -/
def readBlock (memory : Memory) (base count : Nat) : List α :=
  (List.range count).map fun k : Nat => load c memory (base + k * T.size)

/-- `to_host_vector`; the vector's storage is an allocation of the host. -/
def toHostVector (base : Nat) (t : TensorImpl T) : EStateM Raise State (List α) := do
  let h ← reserve R t.numel .host
  copyLogicalToHost R c base t h
  let s ← get
  release (T := T) t.numel .host h
  return readBlock c (s.memory .host) h t.numel

/-- `contiguous()`. -/
def contiguous (base : Nat) (t : TensorImpl T) : EStateM Raise State (TensorImpl T) :=
  if t.contiguous then pure (shareFrom S t)
  else do
    let packed ← clone R S c base t
    return shareFrom S packed

end Operations

section Specification

/-- The byte belongs to the allocation. -/
def Allocation.Holds (a : Allocation) (x : Int) : Prop := a.base ≤ x ∧ x < a.base + a.bytes

/-- Two allocations of one memory share no byte. -/
def Allocation.Apart (a b : Allocation) : Prop :=
  a.place = b.place → a.base + a.bytes ≤ b.base ∨ b.base + b.bytes ≤ a.base

theorem Allocation.Apart.symm {a b : Allocation} (h : a.Apart b) : b.Apart a :=
  fun heq => (h heq.symm).symm

theorem Allocation.Apart.not_holds {a b : Allocation} (h : a.Apart b) (heq : a.place = b.place)
    {x : Int} (hx : a.Holds x) : ¬ b.Holds x := by
  have happart := h heq
  unfold Holds at *
  omega

/-- What the copies rely on: a fresh allocation lies apart from those in use, and a copy
between apart ranges moves the bytes and nothing else. -/
structure Runtime.Serves (R : Runtime T) : Prop where
  fresh : ∀ {s count p base}, R.allocate s count p = .ok base →
    ∀ a ∈ s.live, Allocation.Apart ⟨p, base, count * T.size⟩ a
  nonnull : ∀ {s count p base}, R.allocate s count p = .ok base → count ≠ 0 → base ≠ 0
  copies : ∀ {src source count dst target m m'},
    R.copySync src source count dst target m = .ok m' →
    Allocation.Apart ⟨source, src, count * T.size⟩ ⟨target, dst, count * T.size⟩ →
    ∀ k < count * T.size, m' target (dst + (k : Nat)) = m source (src + (k : Nat))
  keeps : ∀ {src source count dst target m m'},
    R.copySync src source count dst target m = .ok m' →
    ∀ p x, (p = target → ¬ Allocation.Holds ⟨target, dst, count * T.size⟩ x) → m' p x = m p x

/-- An exception of the runtime, or a count that no dimension stores. -/
def Runtime.Refuses (R : Runtime T) (e : Raise) : Prop :=
  (∃ s count p, R.allocate s count p = .error e) ∨
  (∃ src source count dst target m, R.copySync src source count dst target m = .error e) ∨
  ∃ n : Nat, int64Max < n ∧ e = .dimensionStorage n

/-- The elements at an address have been filled, and what else is in use is as before. -/
structure Fills (c : Codec α T.size) (p : Place) (dst count : Nat) (values : Nat → α)
    (s s' : State) : Prop where
  values : ∀ k < count, load c (s'.memory p) (dst + k * T.size) = values k
  frame : ∀ a ∈ s.live, a.Apart ⟨p, dst, count * T.size⟩ → ∀ x, a.Holds x →
    s'.memory a.place x = s.memory a.place x
  live : s'.live = s.live

theorem Fills.none (c : Codec α T.size) (p : Place) (dst : Nat) (values : Nat → α) (s : State) :
    Fills c p dst 0 values s s :=
  ⟨fun k hk => absurd hk (Nat.not_lt_zero k), fun _ _ _ _ _ => rfl, rfl⟩

theorem load_shift (c : Codec α T.size) {m m' : Memory} {a a' : Int}
    (h : ∀ k < T.size, m' (a' + (k : Nat)) = m (a + (k : Nat))) : load c m' a' = load c m a :=
  congrArg c.decode (funext fun k => h k k.isLt)

theorem Allocation.Apart.sub {a a' b : Allocation} (h : a.Apart b) (hplace : a'.place = a.place)
    (hfrom : a.base ≤ a'.base) (hto : a'.base + a'.bytes ≤ a.base + a.bytes) : a'.Apart b := by
  intro heq
  have hranges := h (hplace.symm.trans heq)
  omega

variable {R : Runtime T} {c : Codec α T.size}

section Copies

variable (hR : R.Serves)
include hR

theorem reserve_delivers {count : Nat} {p : Place} {s : State} :
    Delivers R.Refuses (fun base s' => s'.memory = s.memory ∧
        s'.live = ⟨p, base, count * T.size⟩ :: s.live ∧ (count ≠ 0 → base ≠ 0) ∧
        ∀ a ∈ s.live, Allocation.Apart ⟨p, base, count * T.size⟩ a)
      (reserve R count p s) := by
  let granted : Nat → State → Prop := fun base t => t = s ∧ R.allocate s count p = .ok base
  have hgrant : Delivers R.Refuses granted (raising (R.allocate s count p) s) := by
    apply delivers_raising
    · intro base hbase
      exact ⟨rfl, hbase⟩
    · intro e he
      exact Or.inl ⟨_, _, _, he⟩
  rw [reserve, get_bind]
  apply hgrant.bind
  rintro base _ ⟨rfl, hbase⟩
  exact ⟨rfl, rfl, hR.nonnull hbase, hR.fresh hbase⟩

theorem copyElements_delivers (c : Codec α T.size) {src count dst : Nat}
    {source target : Place} {s : State}
    (hapart : Allocation.Apart ⟨source, src, count * T.size⟩ ⟨target, dst, count * T.size⟩) :
    Delivers R.Refuses (fun _ => Fills c target dst count
        (fun k => load c (s.memory source) (src + k * T.size)) s)
      (copyElements R src source count dst target s) := by
  let copied : (Place → Memory) → State → Prop := fun m t =>
    t = s ∧ R.copySync src source count dst target s.memory = .ok m
  have hcopy : Delivers R.Refuses copied
      (raising (R.copySync src source count dst target s.memory) s) := by
    apply delivers_raising
    · intro m hm
      exact ⟨rfl, hm⟩
    · intro e he
      exact Or.inr (Or.inl ⟨_, _, _, _, _, _, he⟩)
  rw [copyElements, get_bind]
  apply hcopy.bind
  rintro m _ ⟨rfl, hm⟩
  refine ⟨fun k hk => ?_, fun a _ ha x hx => ?_, rfl⟩
  · apply load_shift
    intro j hj
    have hbyte := hR.copies hm hapart (k * T.size + j) (by nlinarith)
    push_cast at hbyte
    rw [← Int.add_assoc, ← Int.add_assoc] at hbyte
    exact hbyte
  · apply hR.keeps hm
    intro heq
    exact ha.not_holds heq hx

end Copies

section Gathers

variable {S : SimdTarget T} {t : TensorImpl T} {fault : Raise → Prop}

theorem copyPairs_delivers {pairs : List (Nat × Nat)} {n extent storage dst : Nat}
    {source : Nat → Nat} {s : State}
    (hpairs : pairs.Perm ((List.range n).map fun k => (k, source k)))
    (hlt : ∀ k < n, source k < extent)
    (hapart : Allocation.Apart ⟨.host, storage, extent * T.size⟩ ⟨.host, dst, n * T.size⟩) :
    Delivers fault (fun _ => Fills c .host dst n
        (fun k => load c (s.memory .host) (storage + source k * T.size)) s)
      (copyPairs c pairs storage dst s) := by
  have hcells : ∀ k < n, dst + n * T.size ≤ storage + source k * T.size ∨
      storage + source k * T.size + T.size ≤ dst := by
    intro k hk
    have hcell := Nat.mul_le_mul_right T.size (Nat.succ_le_of_lt (hlt k hk))
    rw [Nat.succ_mul] at hcell
    have hranges : storage + extent * T.size ≤ dst ∨ dst + n * T.size ≤ storage := hapart rfl
    omega
  apply delivers_modify
  refine ⟨fun k hk => ?_, fun a _ ha x hx => ?_, rfl⟩
  · dsimp only
    rw [Function.update_self]
    exact (run_copyElement c hpairs hcells _ k hk).1
  · dsimp only
    by_cases hplace : a.place = .host
    · rw [hplace, Function.update_self]
      apply (copyElement_written c hpairs hcells _).frame
      intro p hp
      obtain ⟨q, hq, rfl⟩ := List.mem_map.1 hp
      obtain ⟨k, hk, rfl⟩ := List.mem_map.1 (hpairs.mem_iff.1 hq)
      have hcell := Nat.mul_le_mul_right T.size (Nat.succ_le_of_lt (List.mem_range.1 hk))
      rw [Nat.succ_mul] at hcell
      have hranges := ha hplace
      unfold Allocation.Holds at hx
      unfold InCell
      push_cast at *
      omega
    · rw [Function.update_of_ne hplace]

/-- Every gather of a valid tensor of at most sixteen dimensions succeeds, and pairs the
elements of the copy with the logical elements. -/
theorem exists_gatherLogical_perm (ht : t.Windowed S)
    (hsizes : ∀ d ∈ t.sizesAndStrides, 0 ≤ d.size ∧ d.size ≤ int64Max) (hrank : t.rank ≤ 16) :
    ∃ pairs, t.gatherLogical = .ok pairs ∧
      pairs.Perm ((List.range t.numel).map fun i => (i, t.logicalOffset i)) := by
  obtain ⟨pairs, hpairs⟩ := TensorImpl.exists_gatherLogical hrank
  refine ⟨pairs, hpairs, ?_⟩
  by_cases hne : t.numel = 0
  · rw [TensorImpl.gatherLogical, if_pos hne] at hpairs
    cases hpairs
    rw [hne]
    exact List.Perm.refl _
  · have hpos : ∀ d ∈ t.sizesAndStrides, 0 < d.size ∧ d.size ≤ int64Max := by
      intro d hd
      have hzero := size_ne_zero_of_numel (ht.numel_eq ▸ hne) d hd
      obtain ⟨hnonneg, hmax⟩ := hsizes d hd
      refine ⟨lt_of_le_of_ne hnonneg ?_, hmax⟩
      intro heq
      rw [← heq] at hzero
      exact hzero rfl
    exact TensorImpl.gatherLogical_perm hpos ht.numel_eq (ht.numel_eq ▸ ht.count_lt) hpairs

/-- A valid tensor whose window starts `offset` elements into its allocation. -/
structure Stored (S : SimdTarget T) (base offset : Nat) (t : TensorImpl T) (s : State) :
    Prop where
  windowed : t.Windowed S
  sizes : ∀ d ∈ t.sizesAndStrides, 0 ≤ d.size ∧ d.size ≤ int64Max
  rank : t.rank ≤ 16
  data : t.data = base + offset * T.size
  live : ⟨place t, base, (offset + t.view.size) * T.size⟩ ∈ s.live

theorem gatherLogical_delivers {base offset storage dst : Nat} {s₀ s : State}
    (ht : Stored S base offset t s₀)
    (hapart : Allocation.Apart ⟨.host, storage, t.view.size * T.size⟩
      ⟨.host, dst, t.numel * T.size⟩) :
    Delivers fault (fun _ => Fills c .host dst t.numel
        (fun k => load c (s.memory .host) (storage + t.logicalOffset k * T.size)) s)
      (gatherLogical c t storage dst s) := by
  obtain ⟨pairs, hpairs, hperm⟩ := exists_gatherLogical_perm ht.windowed ht.sizes ht.rank
  have hraise : Delivers fault (fun p s' => s' = s ∧ p = pairs) (raising t.gatherLogical s) := by
    rw [hpairs]
    exact ⟨rfl, rfl⟩
  rw [gatherLogical]
  apply hraise.bind
  rintro _ _ ⟨rfl, rfl⟩
  exact copyPairs_delivers hperm ht.windowed.inWindow.offset_lt hapart

end Gathers

section Transfers

variable {S : SimdTarget T} {t : TensorImpl T} {base offset : Nat} {s : State}

theorem Stored.window_apart (ht : Stored S base offset t s) {a : Allocation}
    (h : Allocation.Apart ⟨place t, base, (offset + t.view.size) * T.size⟩ a) {count : Nat}
    (hcount : count ≤ t.view.size) :
    Allocation.Apart ⟨place t, t.data, count * T.size⟩ a := by
  have hdata := ht.data
  have hbytes := Nat.mul_le_mul_right T.size hcount
  refine h.sub ?_ ?_ ?_
  · rfl
  · dsimp only
    omega
  · dsimp only
    rw [Nat.add_mul]
    omega

theorem Stored.storageOffset_eq (ht : Stored S base offset t s) :
    storageOffset base t = offset := by
  have hsize := T.size_pos
  have hdata := ht.data
  rw [storageOffset]
  by_cases hnull : t.data = 0
  · rw [if_pos hnull]
    rw [hnull] at hdata
    have hzero := (Nat.add_eq_zero_iff.1 hdata.symm).2
    rcases Nat.mul_eq_zero.1 hzero with h | h
    · exact h.symm
    · omega
  · rw [if_neg hnull, hdata, Nat.add_sub_cancel_left, Nat.mul_div_cancel _ hsize]

theorem place_eq_host (h : t.device = .cpu) : place t = .host := if_pos h

theorem readFlat_of_contiguous (c : Codec α T.size) (m : Memory) (hcontig : t.contiguous = true)
    (k : Nat) : t.readFlat c m k = load c m (t.data + k * T.size) := by
  rw [TensorImpl.readFlat, TensorImpl.logicalOffset, if_pos hcontig]

/-- A buffer that is filled first and released afterwards leaves no trace in what is in
use. -/
theorem Fills.release {p q : Place} {scratch dst count n : Nat} {staged values : Nat → α}
    {s₁ s₂ s₃ : State} (hmemory : s₁.memory = s.memory)
    (hlive : s₁.live = ⟨p, scratch, count * T.size⟩ :: s.live)
    (hfresh : ∀ a ∈ s.live, Allocation.Apart ⟨p, scratch, count * T.size⟩ a)
    (hfirst : Fills c p scratch count staged s₁ s₂) (hsecond : Fills c q dst n values s₂ s₃) :
    Fills c q dst n values s
      { s₃ with live := s₃.live.erase ⟨p, scratch, count * T.size⟩ } := by
  refine ⟨hsecond.values, fun a ha hapart x hx => ?_, ?_⟩
  · have ha₁ : a ∈ s₁.live := hlive ▸ List.mem_cons_of_mem _ ha
    have ha₂ : a ∈ s₂.live := hfirst.live ▸ ha₁
    have hstep₁ := hfirst.frame a ha₁ (hfresh a ha).symm x hx
    have hstep₂ := hsecond.frame a ha₂ hapart x hx
    dsimp only
    rw [hstep₂, hstep₁, hmemory]
  · dsimp only
    rw [hsecond.live, hfirst.live, hlive, List.erase_cons_head]

/-- The allocation that a copy fills. -/
def hit (p : Place) (dst : Nat) (t : TensorImpl T) : Allocation := ⟨p, dst, t.numel * T.size⟩

variable (hR : R.Serves) (ht : Stored S base offset t s)
include hR ht

/-- A window of a device is staged on the host and gathered from there. -/
theorem staged_delivers {dst : Nat} (hlive : hit .host dst t ∈ s.live) :
    Delivers R.Refuses
      (fun _ => Fills c .host dst t.numel (t.readFlat c (s.memory (place t))) s)
      ((do
        let window ← reserve R (offset + t.view.size) .host
        copyWindow R base t (offset + t.view.size) window
        gatherLogical c t (window + offset * T.size) dst
        release (T := T) (offset + t.view.size) .host window : EStateM Raise State Unit) s) := by
  apply (reserve_delivers hR).bind
  rintro window s₁ ⟨hmemory, hlive₁, -, hfresh⟩
  -- the window holds the allocation from its base on
  have hsource := (hfresh _ ht.live).symm
  have hcopy : Delivers R.Refuses (fun _ => Fills c .host window (offset + t.view.size)
      (fun k => load c (s.memory (place t)) (base + k * T.size)) s₁)
      (copyWindow R base t (offset + t.view.size) window s₁) := by
    rw [copyWindow]
    by_cases hempty : offset + t.view.size = 0
    · rw [if_pos hempty, hempty]
      exact Fills.none c _ _ _ _
    · rw [if_neg hempty, ← hmemory]
      exact copyElements_delivers hR c hsource
  apply hcopy.bind
  intro _ s₂ hwindow
  have hwindowHit : Allocation.Apart ⟨.host, window + offset * T.size, t.view.size * T.size⟩
      (hit .host dst t) := by
    refine (hfresh _ hlive).sub ?_ ?_ ?_
    · rfl
    · exact Nat.le_add_right _ _
    · dsimp only
      rw [Nat.add_mul]
      omega
  apply (gatherLogical_delivers ht hwindowHit).bind
  intro _ s₃ hgather
  apply delivers_modify
  have hrelease := hwindow.release hmemory hlive₁ hfresh hgather
  refine ⟨fun k hk => ?_, hrelease.frame, hrelease.live⟩
  have hoffset := ht.windowed.inWindow.offset_lt k hk
  have hvalue := hwindow.values (offset + t.logicalOffset k) (by omega)
  have hdata := ht.data
  refine (hgather.values k hk).trans (Eq.trans ?_ (hvalue.trans ?_))
  · congr 1
    push_cast
    ring
  · rw [TensorImpl.readFlat, hdata]
    congr 1
    push_cast
    ring

theorem copyLogicalToHost_delivers {dst : Nat} (hnonnull : t.numel ≠ 0 → dst ≠ 0)
    (hlive : hit .host dst t ∈ s.live)
    (hapart : Allocation.Apart ⟨place t, base, (offset + t.view.size) * T.size⟩
      (hit .host dst t)) :
    Delivers R.Refuses
      (fun _ => Fills c .host dst t.numel (t.readFlat c (s.memory (place t))) s)
      (copyLogicalToHost R c base t dst s) := by
  rw [copyLogicalToHost, ht.storageOffset_eq]
  by_cases hempty : dst = 0 ∨ t.numel = 0
  · have hzero : t.numel = 0 := by
      by_contra hne
      exact hempty.elim (hnonnull hne) hne
    rw [if_pos hempty, hzero]
    exact Fills.none c _ _ _ _
  rw [if_neg hempty]
  by_cases hcpu : t.device = .cpu
  · have hhost := place_eq_host hcpu
    rw [if_pos hcpu]
    by_cases hcontig : t.contiguous = true
    · have hwindow := ht.window_apart hapart (ht.windowed.flat hcontig)
      rw [hhost] at hwindow ⊢
      rw [if_pos hcontig]
      refine (copyPairs_delivers (List.Perm.refl _) (fun k hk => hk) hwindow).mono ?_
      intro _ s' hfills
      refine ⟨fun k hk => ?_, hfills.frame, hfills.live⟩
      rw [hfills.values k hk, readFlat_of_contiguous c _ hcontig]
    · have hwindow := ht.window_apart hapart le_rfl
      rw [hhost] at hwindow ⊢
      rw [if_neg hcontig]
      exact gatherLogical_delivers ht hwindow
  rw [if_neg hcpu]
  by_cases hflat : t.contiguous = true ∧ offset = 0
  · have hdata : t.data = base := by
      rw [ht.data, hflat.2, Nat.zero_mul, Nat.add_zero]
    have hwindow := ht.window_apart hapart (ht.windowed.flat hflat.1)
    rw [hdata] at hwindow
    rw [if_pos hflat]
    refine (copyElements_delivers hR c hwindow).mono ?_
    intro _ s' hfills
    refine ⟨fun k hk => ?_, hfills.frame, hfills.live⟩
    rw [hfills.values k hk, readFlat_of_contiguous c _ hflat.1, hdata]
  · rw [if_neg hflat]
    exact staged_delivers hR ht hlive

/-- A device is filled from a packed buffer of the host. -/
theorem upload_delivers {r : TensorImpl T} (hcontig : r.contiguous = true)
    (hnumel : r.numel = t.numel) (hplace : place r = place t) (hcpu : r.device ≠ .cpu)
    (hne : t.numel ≠ 0) (hlive : hit (place t) r.data t ∈ s.live) :
    Delivers R.Refuses
      (fun _ => Fills c (place t) r.data t.numel (t.readFlat c (s.memory (place t))) s)
      ((do
        let packed ← reserve R t.numel .host
        copyLogicalToHost R c base t packed
        copyFromHost R c r packed t.numel
        release (T := T) t.numel .host packed : EStateM Raise State Unit) s) := by
  apply (reserve_delivers hR).bind
  rintro packed s₁ ⟨hmemory, hlive₁, hnonnull, hfresh⟩
  have ht₁ : Stored S base offset t s₁ :=
    ⟨ht.windowed, ht.sizes, ht.rank, ht.data, hlive₁ ▸ List.mem_cons_of_mem _ ht.live⟩
  have hpacked : hit .host packed t ∈ s₁.live := hlive₁ ▸ List.mem_cons_self
  apply (copyLogicalToHost_delivers hR ht₁ hnonnull hpacked (hfresh _ ht.live).symm).bind
  intro _ s₂ hstaged
  have hupload : copyFromHost R c r packed t.numel =
      copyElements R packed .host t.numel r.data (place t) := by
    have hcount : ¬ (packed = 0 ∨ t.numel = 0) := by
      rintro (h | h)
      · exact hnonnull hne h
      · exact hne h
    rw [copyFromHost, if_neg (not_not_intro hcontig), if_neg (not_not_intro hnumel.symm),
      if_neg hcount, if_neg hcpu, hplace]
  rw [hupload]
  apply (copyElements_delivers hR c (hfresh _ hlive)).bind
  intro _ s₃ hfilled
  apply delivers_modify
  have hrelease := hstaged.release hmemory hlive₁ hfresh hfilled
  refine ⟨fun k hk => ?_, hrelease.frame, hrelease.live⟩
  exact (hrelease.values k hk).trans ((hstaged.values k hk).trans (by rw [hmemory]))

theorem fillClone_delivers {r : TensorImpl T} (hcontig : r.contiguous = true)
    (hnumel : r.numel = t.numel) (hplace : place r = place t) (hdevice : r.device = t.device)
    (hlive : hit (place t) r.data t ∈ s.live)
    (hapart : Allocation.Apart ⟨place t, base, (offset + t.view.size) * T.size⟩
      (hit (place t) r.data t)) :
    Delivers R.Refuses
      (fun _ => Fills c (place t) r.data t.numel (t.readFlat c (s.memory (place t))) s)
      (fillClone R c base t r s) := by
  rw [fillClone, ht.storageOffset_eq]
  by_cases hempty : t.numel = 0
  · rw [if_pos hempty, hempty]
    exact Fills.none c _ _ _ _
  rw [if_neg hempty]
  by_cases hflat : t.contiguous = true ∧ offset = 0
  · have hwindow := ht.window_apart hapart (ht.windowed.flat hflat.1)
    rw [if_pos hflat]
    refine (copyElements_delivers hR c hwindow).mono ?_
    intro _ s' hfills
    refine ⟨fun k hk => ?_, hfills.frame, hfills.live⟩
    rw [hfills.values k hk, readFlat_of_contiguous c _ hflat.1]
  rw [if_neg hflat]
  by_cases hcpu : t.device = .cpu
  · have hhost := place_eq_host hcpu
    have hwindow := ht.window_apart hapart le_rfl
    rw [hhost] at hwindow ⊢
    rw [if_pos hcpu]
    exact gatherLogical_delivers ht hwindow
  · rw [if_neg hcpu]
    exact upload_delivers hR ht hcontig hnumel hplace (hdevice ▸ hcpu) hempty hlive

end Transfers

section Results

variable {S : SimdTarget T} {t r : TensorImpl T} {base offset : Nat} {s s' : State}

/-- What `operator[]` reads, in order. -/
def elements (c : Codec α T.size) (memory : Place → Memory) (t : TensorImpl T) : List α :=
  (List.range t.numel).map (t.readFlat c (memory (place t)))

/-- The result is packed, has the shape and the elements of the tensor, and leaves them
where they are. -/
structure Packs (S : SimdTarget T) (c : Codec α T.size) (t : TensorImpl T) (s : State)
    (r : TensorImpl T) (s' : State) : Prop where
  windowed : r.Windowed S
  sequence : elements c s'.memory r = elements c s.memory t
  source : elements c s'.memory t = elements c s.memory t
  sizes : r.sizes = t.sizes
  contiguous : r.contiguous = true

theorem ownerOf_ok {n : Nat} {device : DeviceEnum} {index : Int}
    (h : ownerOf S base n device index = .ok r) :
    r.view = ⟨base, n, device, index⟩ ∧ r.isView = false ∧ r.contiguous = true ∧
      r.numel = n := by
  obtain ⟨hle, -, hwindowed⟩ := makeOwner_ok h
  rw [ownerOf, makeOwner] at h
  obtain ⟨_, hbase, h⟩ := exceptBind_ok.1 h
  cases hbase
  rw [if_neg (not_lt.2 hle)] at h
  cases h
  refine ⟨TensorImpl.recompute_view, TensorImpl.recompute_isView,
    TensorImpl.recompute_contiguous [(n : Int)] rfl, ?_⟩
  rw [hwindowed.numel_eq, TensorImpl.recompute_sizesAndStrides, elementCount_cons,
    elementCount_nil, Nat.mul_one]
  exact toU64_stored hle

/-- The elements of a tensor change only where its allocation does. -/
theorem Stored.readFlat_eq (ht : Stored S base offset t s) (c : Codec α T.size) {m m' : Memory}
    (h : ∀ x, Allocation.Holds ⟨place t, base, (offset + t.view.size) * T.size⟩ x → m' x = m x)
    {k : Nat} (hk : k < t.numel) : t.readFlat c m' k = t.readFlat c m k := by
  apply load_congr
  intro x hx
  apply h
  have hcell := Nat.mul_le_mul_right T.size
    (Nat.succ_le_of_lt (ht.windowed.inWindow.offset_lt k hk))
  have hdata := ht.data
  rw [Nat.succ_mul] at hcell
  unfold InCell at hx
  unfold Allocation.Holds
  dsimp only
  rw [Nat.add_mul]
  push_cast at *
  omega

/-- An allocation leaves the others alive. -/
theorem Stored.of_allocated (ht : Stored S base offset t s) {s₁ : State} {a : Allocation}
    (hlive : s₁.live = a :: s.live) : Stored S base offset t s₁ :=
  ⟨ht.windowed, ht.sizes, ht.rank, ht.data, hlive ▸ List.mem_cons_of_mem _ ht.live⟩

/-- The heap of a state serves the clones of a tensor stored there. -/
theorem heapOf_serves (hR : R.Serves) (ht : Stored S base offset t s) :
    (heapOf R S c base s).Serves c t where
  apart := by
    intro dst hdst
    have hapart := hR.fresh hdst _ ht.live rfl
    have hdata := ht.data
    rw [Nat.add_mul] at hapart
    dsimp only at hapart
    omega
  packs := by
    intro dst m m' hdst hcopy k hk
    obtain ⟨result, hresult, hcopy⟩ := exceptBind_ok.1 hcopy
    obtain ⟨hview, -, hcontig, hnumel⟩ := ownerOf_ok hresult
    have hdata : result.data = dst := congrArg DataView.data hview
    have hdevice : result.device = t.device := by rw [TensorImpl.device, hview]
    have hplace : place result = place t := by
      rw [place, place, TensorImpl.device, TensorImpl.deviceIndex, hview]
    subst hdata
    let given : State :=
      ⟨Function.update s.memory (place t) m, hit (place t) result.data t :: s.live⟩
    have hstored : Stored S base offset t given := ht.of_allocated rfl
    have hapart := (hR.fresh hdst _ ht.live).symm
    have hmemory : given.memory (place t) = m := Function.update_self _ _ _
    have hfills := fillClone_delivers (c := c) hR hstored hcontig hnumel hplace hdevice
      List.mem_cons_self hapart
    rw [hmemory] at hfills
    have hcopy : (match fillClone R c base t result given with
        | .ok _ s' => .ok (s'.memory (place t))
        | .error e _ => .error e) = Except.ok m' := hcopy
    cases hrun : fillClone R c base t result given with
    | error e s' =>
        rw [hrun] at hcopy
        cases hcopy
    | ok _ s' =>
        rw [hrun] at hcopy hfills
        cases hcopy
        refine ⟨hfills.values k hk, ?_⟩
        apply ht.readFlat_eq c _ hk
        intro x hx
        rw [hfills.frame _ (List.mem_cons_of_mem _ ht.live) hapart x hx, hmemory]

variable (hR : R.Serves) (ht : Stored S base offset t s)
include hR ht

end Results

section Views

variable {S : SimdTarget T} {t r : TensorImpl T} {base offset : Nat} {s s' : State}

end Views

end Specification

end Staging

namespace StagingWitness

open Staging Sample

/-- The first address past what is in use. -/
def top (live : List Allocation) : Nat :=
  live.foldl (fun reach a => max reach (a.base + a.bytes)) 1

/-- Allocations follow one another, and copies move bytes. -/
def runtime : Runtime float where
  allocate s _ _ := .ok (top s.live)
  copySync src source count dst target m := .ok fun p x =>
    if p = target ∧ (dst : Int) ≤ x ∧ x < dst + (count * float.size : Nat) then
      m source (src + (x - dst))
    else m p x

theorem foldl_top_le (live : List Allocation) (start : Nat) :
    start ≤ live.foldl (fun reach a => max reach (a.base + a.bytes)) start ∧
      ∀ a ∈ live, a.base + a.bytes ≤
        live.foldl (fun reach a => max reach (a.base + a.bytes)) start := by
  induction live generalizing start with
  | nil => exact ⟨le_rfl, fun a ha => absurd ha List.not_mem_nil⟩
  | cons b live ih =>
      obtain ⟨hstart, hlive⟩ := ih (max start (b.base + b.bytes))
      refine ⟨(le_max_left _ _).trans hstart, fun a ha => ?_⟩
      rcases List.mem_cons.1 ha with rfl | ha
      · exact (le_max_right _ _).trans hstart
      · exact hlive a ha

theorem runtime_serves : runtime.Serves where
  fresh := by
    intro s count p base h a ha _
    cases h
    exact Or.inr ((foldl_top_le s.live 1).2 a ha)
  nonnull := by
    intro s count p base h _
    cases h
    have hpos : 1 ≤ top s.live := (foldl_top_le s.live 1).1
    omega
  copies := by
    intro src source count dst target m m' h _ k hk
    cases h
    dsimp only
    rw [if_pos ⟨rfl, by omega, by push_cast at *; omega⟩]
    congr 1
    omega
  keeps := by
    intro src source count dst target m m' h p x hx
    cases h
    apply if_neg
    rintro ⟨hp, hfrom, hto⟩
    exact hx hp ⟨hfrom, hto⟩

/-- Three rows of two floats stored by columns on a device, from the second float of an
allocation of seven on. -/
def slice : TensorImpl float :=
  TensorImpl.recompute fourLanes (.bare true ⟨4100, 6, .cuda, 0⟩ [⟨3, 1⟩, ⟨2, 3⟩])

/-- Every byte of every memory holds its address. -/
def state : State where
  memory _ x := UInt8.ofInt x
  live := [⟨⟨.cuda, 0⟩, 4096, 28⟩]

end StagingWitness

end Vectorization
