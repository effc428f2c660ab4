/-
Typed cells of a byte-addressed memory, accessed byte by byte.  The programs here do alone
what the loads and stores of whole cells do, and use no byte outside these cells.
-/
import Vectorization.Foundation.ByteMemory
import Vectorization.Foundation.SharedMemory

namespace ByteMemory

open SharedMemory

/-- A program over bytes. -/
abbrev ByteProg := Prog Int UInt8

section Bytes

def loadBytes : (n : Nat) → Int → ByteProg (Fin n → UInt8)
  | 0, _ => pure Fin.elim0
  | n + 1, a => .load a fun b => Fin.cons b <$> loadBytes n (a + 1)

def storeBytes : (n : Nat) → Int → (Fin n → UInt8) → ByteProg Unit
  | 0, _, _ => pure ()
  | n + 1, a, bytes => .store a (bytes 0) (storeBytes n (a + 1) (Fin.tail bytes))

theorem run_loadBytes (n : Nat) (a : Int) (m : Memory) :
    (loadBytes n a).run m = (fun k => m (a + k.val), m) := by
  induction n generalizing a with
  | zero =>
      rw [loadBytes, Prog.run_pure]
      congr 1
      exact funext fun k => k.elim0
  | succ n ih =>
      rw [loadBytes, Prog.run, Prog.run_map, ih]
      congr 1
      funext k
      refine Fin.cases ?_ (fun j => ?_) k
      · simp
      · simp only [Fin.cons_succ, Fin.val_succ]
        congr 1
        push_cast
        omega

theorem run_storeBytes (n : Nat) (a : Int) (bytes : Fin n → UInt8) (m : Memory) :
    (storeBytes n a bytes).run m = ((), store (Codec.bytes n) m a bytes) := by
  induction n generalizing a m with
  | zero =>
      rw [storeBytes, Prog.run_pure]
      congr 1
      funext x
      rw [store, dif_neg (by omega)]
  | succ n ih =>
      rw [storeBytes, Prog.run, ih]
      congr 1
      funext x
      simp only [store, Codec.bytes, id]
      rcases lt_trichotomy x a with hlt | rfl | hgt
      · rw [dif_neg (by omega), dif_neg (by omega), Function.update_of_ne (by omega)]
      · rw [dif_neg (by omega), dif_pos (by omega), Function.update_self]
        congr 1
        exact Fin.ext (by simp)
      · by_cases hx : x < a + (n + 1 : Nat)
        · rw [dif_pos (by omega), dif_pos ⟨by omega, hx⟩, Fin.tail]
          congr 1
          apply Fin.ext
          rw [Fin.val_succ]
          simp only
          omega
        · rw [dif_neg (by omega), dif_neg (by omega), Function.update_of_ne (by omega)]

variable {reads writes : Set Int}

theorem within_loadBytes {n : Nat} {a : Int} (h : ∀ x, InCell n a x → x ∈ reads) :
    (loadBytes n a).Within reads writes := by
  induction n generalizing a with
  | zero => trivial
  | succ n ih =>
      refine ⟨h a ?_, fun b => (ih fun x hx => h x ?_).map _⟩
      · unfold InCell
        omega
      · unfold InCell at *
        omega

theorem within_storeBytes {n : Nat} {a : Int} {bytes : Fin n → UInt8}
    (h : ∀ x, InCell n a x → x ∈ writes) : (storeBytes n a bytes).Within reads writes := by
  induction n generalizing a with
  | zero => trivial
  | succ n ih =>
      refine ⟨h a ?_, ih fun x hx => h x ?_⟩
      · unfold InCell
        omega
      · unfold InCell at *
        omega

end Bytes

section Cells

universe u

variable {α : Type} {w : Nat} (c : Codec α w)

/-- The load of a typed cell. -/
def loadCell (a : Int) : ByteProg α := c.decode <$> loadBytes w a

/-- The store of a typed cell. -/
def storeCell (a : Int) (v : α) : ByteProg Unit := storeBytes w a (c.encode v)

@[simp] theorem run_loadCell (a : Int) (m : Memory) :
    (loadCell c a).run m = (load c m a, m) := by
  rw [loadCell, Prog.run_map, run_loadBytes]
  rfl

@[simp] theorem run_storeCell (a : Int) (v : α) (m : Memory) :
    (storeCell c a v).run m = ((), store c m a v) :=
  run_storeBytes w a (c.encode v) m

/-- A register, loaded lane by lane. -/
def loadLanes : (n : Nat) → (Nat → Int) → ByteProg (Fin n → α)
  | 0, _ => pure Fin.elim0
  | n + 1, address => do
      let first ← loadCell c (address 0)
      let rest ← loadLanes n fun k => address (k + 1)
      return Fin.cons first rest

/-- A register, stored lane by lane. -/
def storeLanes : (n : Nat) → (Nat → Int) → (Fin n → α) → ByteProg Unit
  | 0, _, _ => pure ()
  | n + 1, address, lanes => do
      storeCell c (address 0) (lanes 0)
      storeLanes n (fun k => address (k + 1)) (Fin.tail lanes)

@[simp] theorem run_loadLanes (n : Nat) (address : Nat → Int) (m : Memory) :
    (loadLanes c n address).run m = (fun k => load c m (address k.val), m) := by
  induction n generalizing address with
  | zero =>
      rw [loadLanes, Prog.run_pure]
      congr 1
      exact funext fun k => k.elim0
  | succ n ih =>
      simp only [loadLanes, Prog.run_bind, run_loadCell, ih, Prog.run_pure]
      congr 1
      funext k
      refine Fin.cases ?_ (fun j => ?_) k
      · rfl
      · rfl

@[simp] theorem run_storeLanes (n : Nat) (address : Nat → Int) (value : Nat → α) (m : Memory) :
    (storeLanes c n address fun k => value k.val).run m =
      ((), storeAll c m ((List.range n).map fun k => (address k, value k))) := by
  induction n generalizing address value m with
  | zero => rfl
  | succ n ih =>
      have htail : Fin.tail (fun k : Fin (n + 1) => value k.val) =
          fun k : Fin n => value (k.val + 1) := rfl
      rw [storeLanes, Prog.run_bind, run_storeCell, htail, ih _ fun k => value (k + 1),
        List.range_succ_eq_map, List.map_cons, List.map_map]
      rfl

variable {reads writes : Set Int}

theorem within_loadCell {a : Int} (h : ∀ x, InCell w a x → x ∈ reads) :
    (loadCell c a).Within reads writes :=
  (within_loadBytes h).map _

theorem within_storeCell {a : Int} {v : α} (h : ∀ x, InCell w a x → x ∈ writes) :
    (storeCell c a v).Within reads writes :=
  within_storeBytes h

theorem within_loadLanes {n : Nat} {address : Nat → Int}
    (h : ∀ k < n, ∀ x, InCell w (address k) x → x ∈ reads) :
    (loadLanes c n address).Within reads writes := by
  induction n generalizing address with
  | zero => trivial
  | succ n ih =>
      apply (within_loadCell c (h 0 n.succ_pos)).bind
      intro first
      apply (ih fun k hk => h (k + 1) (Nat.succ_lt_succ hk)).bind
      exact fun rest => Prog.within_pure _

theorem within_storeLanes {n : Nat} {address : Nat → Int} {lanes : Fin n → α}
    (h : ∀ k < n, ∀ x, InCell w (address k) x → x ∈ writes) :
    (storeLanes c n address lanes).Within reads writes := by
  induction n generalizing address with
  | zero => trivial
  | succ n ih =>
      apply (within_storeCell c (h 0 n.succ_pos)).bind
      exact fun _ => ih fun k hk => h (k + 1) (Nat.succ_lt_succ hk)

end Cells

section Performs

universe v

variable {α ι : Type} {κ : Type v} {w : Nat} (c : Codec α w) (source : ι → Set Int)
  (cell : ι → Int)

/-- The program does what the operations do, and uses only the bytes that the listed
elements are computed from or stored to. -/
structure Performs (x : ByteProg Unit) (ops : List (StoreOp κ α)) (group : List ι) : Prop where
  run : ∀ m, x.run m = ((), ByteMemory.run c ops m)
  within : x.Within {a | ∃ i ∈ group, a ∈ source i} {a | ∃ i ∈ group, InCell w (cell i) a}

variable {c source cell} {x y : ByteProg Unit} {ops ops' : List (StoreOp κ α)}
  {group group' : List ι}

theorem Performs.nil : Performs c source cell (pure ()) ([] : List (StoreOp κ α)) [] :=
  ⟨fun _ => rfl, Prog.within_pure ()⟩

theorem Performs.append (hx : Performs c source cell x ops group)
    (hy : Performs c source cell y ops' group') :
    Performs c source cell (do x; y) (ops ++ ops') (group ++ group') := by
  refine ⟨fun m => ?_, Prog.Within.bind (hx.within.mono ?_ ?_) fun _ => hy.within.mono ?_ ?_⟩
  · rw [Prog.run_bind, hx.run, hy.run, ByteMemory.run, ByteMemory.run, ByteMemory.run,
      List.foldl_append]
  all_goals
    rintro a ⟨i, hi, ha⟩
    exact ⟨i, by simp [hi], ha⟩

theorem Performs.inOrder {β : Type} {l : List β} {f : β → ByteProg Unit}
    {g : β → List (StoreOp κ α)} {h : β → List ι}
    (hl : ∀ b ∈ l, Performs c source cell (f b) (g b) (h b)) :
    Performs c source cell (Prog.inOrder (l.map f)) (l.flatMap g) (l.flatMap h) := by
  induction l with
  | nil => exact Performs.nil
  | cons b l ih =>
      have hb := hl b List.mem_cons_self
      exact hb.append (ih fun b' hb' => hl b' (List.mem_cons_of_mem b hb'))

theorem Performs.inOrder_map {β : Type} {l : List β} {f : β → ByteProg Unit}
    {g : β → StoreOp κ α} {h : β → List ι}
    (hl : ∀ b ∈ l, Performs c source cell (f b) [g b] (h b)) :
    Performs c source cell (Prog.inOrder (l.map f)) (l.map g) (l.flatMap h) := by
  have hops : l.map g = l.flatMap fun b => [g b] := List.map_eq_flatMap
  rw [hops]
  exact Performs.inOrder hl

/-- Neither element is stored where the other one lies or is computed from. -/
structure Independent (w : Nat) (source : ι → Set Int) (cell : ι → Int) (i j : ι) : Prop where
  apart : Apart w (cell i) (cell j)
  left : ∀ x, InCell w (cell i) x → x ∉ source j
  right : ∀ x, InCell w (cell j) x → x ∉ source i

theorem Independent.symm {i j : ι} (h : Independent w source cell i j) :
    Independent w source cell j i :=
  ⟨h.apart.symm, h.right, h.left⟩

variable {κ' : Type} {progs : κ' → ByteProg Unit} {opsOf : κ' → List (StoreOp κ α)}
  {groups : κ' → List ι}

theorem raceFree_of_independent
    (hperforms : ∀ k, Performs c source cell (progs k) (opsOf k) (groups k))
    (hind : ∀ k k', k ≠ k' → ∀ i ∈ groups k, ∀ j ∈ groups k', Independent w source cell i j)
    (m : Memory) :
    (⟨m, progs⟩ : Pool κ' Int UInt8).RaceFree
      (fun k => {a | ∃ i ∈ groups k, a ∈ source i})
      (fun k => {a | ∃ i ∈ groups k, InCell w (cell i) a}) := by
  refine ⟨fun k => (hperforms k).within, fun k k' hne => ?_⟩
  rw [Set.disjoint_left]
  rintro a ⟨i, hi, hai⟩ (⟨j, hj, haj⟩ | ⟨j, hj, haj⟩)
  · exact (hind k k' hne i hi j hj).left a hai haj
  · exact (hind k k' hne i hi j hj).apart.not_inCell hai haj

/-- Threads that share out independent elements are independent of each other. -/
theorem independent_threads {order : List κ'} (hall : ∀ k, k ∈ order)
    (h : (order.flatMap groups).Pairwise (Independent w source cell)) :
    ∀ k k', k ≠ k' → ∀ i ∈ groups k, ∀ j ∈ groups k', Independent w source cell i j := by
  obtain ⟨-, horder⟩ := List.pairwise_flatMap.1 h
  have : Std.Symm fun k k' => ∀ i ∈ groups k, ∀ j ∈ groups k', Independent w source cell i j :=
    ⟨fun _ _ hkk' i hi j hj => (hkk' j hj i hi).symm⟩
  intro k k' hne
  exact horder.forall (hall k) (hall k') hne

theorem foldl_performs
    (hperforms : ∀ k, Performs c source cell (progs k) (opsOf k) (groups k))
    (order : List κ') (m : Memory) :
    order.foldl (fun m k => ((progs k).run m).2) m = run c (order.flatMap opsOf) m := by
  induction order generalizing m with
  | nil => rfl
  | cons k order ih =>
      rw [List.foldl_cons, ih, (hperforms k).run, List.flatMap_cons, run, run, run,
        List.foldl_append]

/-- Threads over independent elements end, in whatever order their bytes are loaded and
stored, as if their operations ran one after another. -/
theorem schedule_run [DecidableEq κ']
    (hperforms : ∀ k, Performs c source cell (progs k) (opsOf k) (groups k))
    (hind : ∀ k k', k ≠ k' → ∀ i ∈ groups k, ∀ j ∈ groups k', Independent w source cell i j)
    {order steps : List κ'} (hnodup : order.Nodup) (hall : ∀ k, k ∈ order) {m : Memory}
    (hfin : ((⟨m, progs⟩ : Pool κ' Int UInt8).schedule steps).Finished) :
    ((⟨m, progs⟩ : Pool κ' Int UInt8).schedule steps).memory =
      run c (order.flatMap opsOf) m := by
  rw [(raceFree_of_independent hperforms hind m).finished_sequential hnodup hall hfin]
  exact foldl_performs hperforms order m

end Performs

section Pieces

universe v

variable {α β ι : Type} {κ : Type v} {w : Nat} {c : Codec α w} {source : ι → Set Int}
  {cell : ι → Int} {pieces : List β} {chunk : β → ByteProg Unit}
  {opsOf : β → List (StoreOp κ α)} {groups : β → List ι}

/-- One thread for each piece. -/
def piecePool (m : Memory) (pieces : List β) (chunk : β → ByteProg Unit) :
    Pool (Fin pieces.length) Int UInt8 :=
  ⟨m, fun k => chunk (pieces.get k)⟩

/-- Pieces whose elements are pairwise independent are independent of each other. -/
theorem independent_pieces
    (h : (pieces.flatMap groups).Pairwise (Independent w source cell)) :
    ∀ k k' : Fin pieces.length, k ≠ k' → ∀ i ∈ groups (pieces.get k),
      ∀ j ∈ groups (pieces.get k'), Independent w source cell i j := by
  obtain ⟨-, hpieces⟩ := List.pairwise_flatMap.1 h
  have hlt : ∀ k k' : Fin pieces.length, k < k' → ∀ i ∈ groups (pieces.get k),
      ∀ j ∈ groups (pieces.get k'), Independent w source cell i j :=
    fun k k' hk => List.pairwise_iff_get.1 hpieces k k' hk
  intro k k' hne i hi j hj
  rcases lt_or_gt_of_ne hne with hk | hk
  · exact hlt k k' hk i hi j hj
  · exact (hlt k' k hk j hj i hi).symm

theorem piecePool_raceFree
    (hperforms : ∀ b ∈ pieces, Performs c source cell (chunk b) (opsOf b) (groups b))
    (h : (pieces.flatMap groups).Pairwise (Independent w source cell)) (m : Memory) :
    (piecePool m pieces chunk).RaceFree
      (fun k => {a | ∃ i ∈ groups (pieces.get k), a ∈ source i})
      (fun k => {a | ∃ i ∈ groups (pieces.get k), InCell w (cell i) a}) :=
  raceFree_of_independent (fun k => hperforms _ (List.get_mem pieces k))
    (independent_pieces h) m

theorem piecePool_run
    (hperforms : ∀ b ∈ pieces, Performs c source cell (chunk b) (opsOf b) (groups b))
    (h : (pieces.flatMap groups).Pairwise (Independent w source cell)) {m : Memory}
    {steps : List (Fin pieces.length)}
    (hfin : ((piecePool m pieces chunk).schedule steps).Finished) :
    ((piecePool m pieces chunk).schedule steps).memory = run c (pieces.flatMap opsOf) m := by
  have hops : pieces.flatMap opsOf =
      (List.finRange pieces.length).flatMap fun k => opsOf (pieces.get k) := by
    conv_lhs => rw [← List.map_get_finRange pieces]
    rw [List.flatMap_map]
  rw [hops]
  exact schedule_run (fun k => hperforms _ (List.get_mem pieces k)) (independent_pieces h)
    (List.nodup_finRange _) List.mem_finRange hfin

end Pieces

end ByteMemory
