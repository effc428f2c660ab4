/-
Programs of elementwise statements over tensors on the host.  The abstract machine keeps one
value for each element and executes a statement on all elements at once, as if every operand
were copied first.  The library executes registers, row kernels and threads over bytes, and
refines the abstract machine over whole programs.
-/
import Vectorization.FillEvaluation
import Vectorization.Foundation.CellStore

namespace Vectorization

open StridedSpace MachineInteger ByteMemory AtomicRun

variable {T : ElementType} {α : Type}

/-- What a program computes with: a tensor, given by its geometry, or a flat window. -/
inductive Operand (T : ElementType)
  | tensor (t : TensorImpl T)
  | view (v : DataView T)

namespace Operand

/-- The operand with cached fields as the program gives them. -/
def toLeaf : Operand T → Leaf T
  | tensor t => .ref t.strided
  | view v => .view v

/-- The leaf that a build makes of the operand. -/
def leaf (S : SimdTarget T) : Operand T → Leaf T
  | tensor t => .ref (t.recompute S).strided
  | view v => .view v

end Operand

/-- What a statement stores into the elements of its tensor. -/
inductive Write (T : ElementType) (α : Type)
  /-- `dst = e`, or `dst.noalias() = e`. -/
  | expr (e : Expr (Operand T) α) (noalias : Bool)
  /-- `dst.assign(t)`, as assignments to views call it, too. -/
  | tensor (t : TensorImpl T) (noalias : Bool)
  /-- `dst = value`. -/
  | scalar (value : α)
  /-- `dst += e` and the like. -/
  | update (functor : BinaryFunctor α) (e : Expr (Operand T) α) (noalias : Bool)

structure Statement (T : ElementType) (α : Type) where
  dst : TensorImpl T
  write : Write T α

namespace Statement

/-- The tree whose values the statement stores. -/
def tree (st : Statement T α) : Expr (Operand T) α :=
  match st.write with
  | .expr e _ => e
  | .tensor t _ => .leaf (.tensor t)
  | .scalar value => .scalar value
  | .update functor e _ => .binary functor (.leaf (.tensor st.dst)) e

/-- The caller has asserted that nothing aliases. -/
def noalias (st : Statement T α) : Bool :=
  match st.write with
  | .expr _ noalias => noalias
  | .tensor _ noalias => noalias
  | .scalar _ => false
  | .update _ _ noalias => noalias

section Machine

variable (b : Build T) (c : Codec α T.size)

def perform (st : Statement T α) : Assign T Unit :=
  match st.write with
  | .expr e noalias => assign b c (.expression (e.map (Operand.leaf b.simd))) noalias
  | .tensor t noalias => assign b c (.tensor (t.recompute b.simd)) noalias
  | .scalar value => assignScalar b c value
  | .update functor e noalias =>
      assignUpdate b c functor (.expression (e.map (Operand.leaf b.simd))) noalias

/-- The statement on the memory, with its tensor as the build constructs it. -/
def exec (st : Statement T α) : EStateM Raise Memory Unit := fun m =>
  match st.perform b c ⟨m, st.dst.recompute b.simd⟩ with
  | .ok _ s => .ok () s.memory
  | .error r s => .error r s.memory

end Machine

/-- Every element of the tensor takes the value of the tree in the store before. -/
def denote (st : Statement T α) (σ : Int → α) : Int → α :=
  overwrite ((indices st.dst.strided.sizes).map fun idx =>
    (st.dst.strided.address idx, st.tree.evaluate fun o => σ (o.toLeaf.readAddress idx))) σ

/-- What C++ and the library promise of the tensors of a statement, its author of those it
says not to alias, and the SIMD backend of its functors. -/
structure Valid (S : SimdTarget T) (st : Statement T α) : Prop where
  laneWise : st.tree.LaneWise
  dst : (st.dst.recompute S).Sound S
  operands : ∀ o ∈ st.tree.leaves, (o.leaf S).toRef.Backed
  aligned : T.size ∣ st.dst.data
  operandsAligned : ∀ o ∈ st.tree.leaves, T.size ∣ o.toLeaf.data
  noalias : st.noalias = true →
    ∀ o ∈ st.tree.leaves, AliasSafe (st.dst.recompute S).strided (o.leaf S)

end Statement

/-- The statements of a program in order, up to the first that raises. -/
def runProgram (b : Build T) (c : Codec α T.size) :
    List (Statement T α) → EStateM Raise Memory Unit
  | [] => pure ()
  | st :: p => do
      st.exec b c
      runProgram b c p

/-- The program on the abstract machine. -/
def denoteProgram (p : List (Statement T α)) (σ : Int → α) : Int → α :=
  p.foldl (fun σ st => st.denote σ) σ

section Refinement

theorem Operand.readAddress_leaf (S : SimdTarget T) (o : Operand T) (idx : List Nat) :
    (o.leaf S).readAddress idx = o.toLeaf.readAddress idx := by
  cases o with
  | view v => rfl
  | tensor t =>
      have hview : (t.recompute S).view = t.view := TensorImpl.recompute_view
      have hdims : (t.recompute S).sizesAndStrides = t.sizesAndStrides :=
        TensorImpl.recompute_sizesAndStrides
      simp only [leaf, toLeaf, Leaf.readAddress, Leaf.toRef, StridedRef.address,
        StridedRef.sizes, StridedRef.data, TensorImpl.strided, hview, hdims]

variable {b : Build T} {c : Codec α T.size} {st : Statement T α} {m m' : Memory}

/-- An assignment of leaves that may be read meanwhile leaves the snapshot, whether they were
checked or asserted not to alias. -/
theorem assign_holdsSnapshot {src : Source T α} {uncheckedAlias : Bool} {s s' : AssignState T}
    (hdst : s.dst.Sound b.simd) (h : assign b c src uncheckedAlias s = .ok () s')
    (hlanes : src.tree.LaneWise) (hleaves : ∀ l ∈ src.tree.leaves, l.toRef.Backed)
    (hpromise : uncheckedAlias = true → ∀ l ∈ src.tree.leaves, AliasSafe s.dst.strided l) :
    HoldsSnapshot c src.tree s.dst.strided s.memory s'.memory := by
  obtain ⟨ops, hflag, hplace, hoverlap, hops, rfl⟩ := assign_cases h
  have hsafe : ∀ l ∈ src.tree.leaves, AliasSafe s.dst.strided l := by
    cases uncheckedAlias with
    | true => exact hpromise rfl
    | false =>
        intro l hl
        obtain ⟨hdev, hindex⟩ := validatePlacement_ok hplace l hl
        exact aliasSafe_of_checked hdst.backed (hleaves l hl) hdev hindex
          (checkAssignmentOverlap_ok hoverlap l hl)
  exact runLowered_holdsSnapshot hlanes hdst (fun hne => hdst.isNonOverlapping hflag hne) hleaves
    hsafe hops s.memory

/-- A compound assignment is the assignment of the tree that has the destination as its first
operand. -/
theorem assignUpdate_ok {functor : BinaryFunctor α} {src : Source T α} {uncheckedAlias : Bool}
    {s s' : AssignState T} (h : assignUpdate b c functor src uncheckedAlias s = .ok () s') :
    assign b c (.expression (.binary functor (.leaf (.ref s.dst.strided)) src.tree))
      uncheckedAlias s = .ok () s' := by
  obtain ⟨dst, s₁, hdst, h⟩ := bind_ok.1 h
  cases hdst
  obtain ⟨lhs, hlhs, h⟩ := raising_bind_ok.1 h
  obtain ⟨rhs, hrhs, h⟩ := raising_bind_ok.1 h
  rw [toStridedRef_ok hlhs, Source.lower_ok hrhs] at h
  exact h

/-- A statement that does not raise leaves the snapshot of its tree. -/
theorem Statement.exec_holdsSnapshot (hst : st.Valid b.simd) (h : st.exec b c m = .ok () m') :
    HoldsSnapshot c (st.tree.map (Operand.leaf b.simd)) (st.dst.recompute b.simd).strided
      m m' := by
  obtain ⟨s', hrun, rfl⟩ : ∃ s', st.perform b c ⟨m, st.dst.recompute b.simd⟩ = .ok () s' ∧
      s'.memory = m' := by
    rw [exec] at h
    split at h <;> rename_i hrun
    · cases h
      exact ⟨_, hrun, rfl⟩
    · cases h
  have hleaves : ∀ l ∈ (st.tree.map (Operand.leaf b.simd)).leaves, l.toRef.Backed := by
    rw [Expr.leaves_map]
    intro l hl
    obtain ⟨o, ho, rfl⟩ := List.mem_map.1 hl
    exact hst.operands o ho
  have hlanes : (st.tree.map (Operand.leaf b.simd)).LaneWise :=
    (Expr.laneWise_map _ _).2 hst.laneWise
  have hpromise : st.noalias = true → ∀ l ∈ (st.tree.map (Operand.leaf b.simd)).leaves,
      AliasSafe (st.dst.recompute b.simd).strided l := by
    rw [Expr.leaves_map]
    intro hno l hl
    obtain ⟨o, ho, rfl⟩ := List.mem_map.1 hl
    exact hst.noalias hno o ho
  obtain ⟨dst, write⟩ := st
  cases write with
  | expr e noalias => exact assign_holdsSnapshot hst.dst hrun hlanes hleaves hpromise
  | tensor t noalias => exact assign_holdsSnapshot hst.dst hrun hlanes hleaves hpromise
  | scalar value =>
      obtain ⟨ops, hops, rfl⟩ := assignScalar_ok_iff.1 hrun
      exact fill_holdsSnapshot hst.dst hops m
  | update functor e noalias =>
      exact assign_holdsSnapshot hst.dst (assignUpdate_ok hrun) hlanes hleaves hpromise

/-- A statement that raises leaves the memory as it was. -/
theorem Statement.exec_atomic {r : Raise} (h : st.exec b c m = .error r m') : m' = m := by
  rw [exec] at h
  split at h <;> rename_i hrun
  · cases h
  · cases h
    obtain ⟨dst, write⟩ := st
    have hstate : ∀ {s' : AssignState T}, s' = ⟨m, dst.recompute b.simd⟩ → s'.memory = m := by
      rintro s' rfl
      rfl
    cases write with
    | expr e noalias => exact hstate (assign_atomic b c _ noalias _ _ _ hrun)
    | tensor t noalias => exact hstate (assign_atomic b c _ noalias _ _ _ hrun)
    | scalar value => exact hstate (assignScalar_atomic b c value _ _ _ hrun)
    | update functor e noalias =>
        exact hstate (assignUpdate_atomic b c functor _ noalias _ _ _ hrun)

theorem StridedRef.address_aligned {s : StridedRef T} (h : T.size ∣ s.data) (idx : List Nat) :
    (T.size : Int) ∣ s.address idx :=
  Int.dvd_add (Int.natCast_dvd_natCast.2 h) (Dvd.intro_left _ rfl)

variable {σ : Int → α}

/-- A statement that does not raise does what it does on the abstract machine. -/
theorem Statement.exec_refines (hst : st.Valid b.simd) (hm : Represents c m σ)
    (h : st.exec b c m = .ok () m') : Represents c m' (st.denote σ) := by
  have hview : (st.dst.recompute b.simd).view = st.dst.view := TensorImpl.recompute_view
  have hdims : (st.dst.recompute b.simd).sizesAndStrides = st.dst.sizesAndStrides :=
    TensorImpl.recompute_sizesAndStrides
  have hsizes : (st.dst.recompute b.simd).strided.sizes = st.dst.strided.sizes := by
    simp only [StridedRef.sizes, TensorImpl.strided, hdims]
  have haddress : (st.dst.recompute b.simd).strided.address = st.dst.strided.address := by
    funext idx
    simp only [StridedRef.address, StridedRef.data, TensorImpl.strided, hview, hdims]
  have hwritten := st.exec_holdsSnapshot hst h
  rw [HoldsSnapshot, hsizes, haddress] at hwritten
  have hpairs : ((indices st.dst.strided.sizes).map fun idx => (st.dst.strided.address idx,
      logicalValue c m (st.tree.map (Operand.leaf b.simd)) idx)) =
      (indices st.dst.strided.sizes).map fun idx => (st.dst.strided.address idx,
        st.tree.evaluate fun o => σ (o.toLeaf.readAddress idx)) := by
    apply List.map_congr_left
    intro idx _
    rw [logicalValue, Expr.evaluate_map]
    congr 1
    apply Expr.evaluate_congr
    intro o ho
    rw [Operand.readAddress_leaf]
    exact hm _ (StridedRef.address_aligned (hst.operandsAligned o ho) _)
  rw [hpairs] at hwritten
  apply hm.written hwritten
  intro p hp
  obtain ⟨idx, -, rfl⟩ := List.mem_map.1 hp
  exact StridedRef.address_aligned hst.aligned idx

/-- Whole programs refine the abstract machine: a run to the end leaves what the abstract
program leaves, and a run that raises what the statements before the one that raised leave. -/
theorem runProgram_refines {p : List (Statement T α)} (hp : ∀ st ∈ p, st.Valid b.simd)
    (hm : Represents c m σ) :
    (∀ m', runProgram b c p m = .ok () m' → Represents c m' (denoteProgram p σ)) ∧
      ∀ r m', runProgram b c p m = .error r m' → ∃ done st rest, p = done ++ st :: rest ∧
        runProgram b c done m = .ok () m' ∧ Represents c m' (denoteProgram done σ) ∧
        st.exec b c m' = .error r m' := by
  induction p generalizing m σ with
  | nil =>
      refine ⟨fun m' h => ?_, fun r m' h => ?_⟩
      · cases h
        exact hm
      · cases h
  | cons st p ih =>
      have hst := hp st List.mem_cons_self
      have hrest := fun st hmem => hp st (List.mem_cons_of_mem _ hmem)
      cases hrun : st.exec b c m with
      | ok u m₁ =>
          have hcons : ∀ q, runProgram b c (st :: q) m = runProgram b c q m₁ := by
            intro q
            rw [runProgram]
            exact bind_of_ok hrun
          obtain ⟨hok, herror⟩ := ih hrest (st.exec_refines hst hm hrun)
          refine ⟨fun m' h => ?_, fun r m' h => ?_⟩
          · rw [hcons] at h
            exact hok m' h
          · rw [hcons] at h
            obtain ⟨done, st', rest, rfl, hdone, hrep, hraise⟩ := herror r m' h
            exact ⟨st :: done, st', rest, rfl, (hcons done).trans hdone, hrep, hraise⟩
      | error r₁ m₁ =>
          obtain rfl := Statement.exec_atomic hrun
          have hcons : runProgram b c (st :: p) m₁ = .error r₁ m₁ := by
            rw [runProgram]
            exact bind_error.2 (Or.inl hrun)
          refine ⟨fun m' h => ?_, fun r m' h => ?_⟩
          · rw [hcons] at h
            cases h
          · rw [hcons] at h
            cases h
            exact ⟨[], st, p, rfl, rfl, hm, hrun⟩

end Refinement

namespace ArrayProgramWitness

open Sample InPlaceAssignmentWitness FillEvaluationWitness

/-- Sevens into the first column of the table, then the offsets onto all of its rows. -/
def program : List (Statement float (Fin 4 → UInt8)) :=
  [⟨tableColumn, .scalar fun _ => 7⟩,
    ⟨table, .update (.lanes fun x y k => x k + y k) (.leaf (.view ⟨8192, 4, .cpu, 0⟩)) false⟩]

theorem program_valid : ∀ st ∈ program, st.Valid release.simd := by
  intro st hst
  rcases List.mem_cons.1 hst with rfl | hst
  · exact ⟨trivial, tableColumn_sound, by simp [Statement.tree, Expr.leaves], by decide,
      by simp [Statement.tree, Expr.leaves], by simp [Statement.noalias]⟩
  · obtain rfl := List.mem_singleton.1 hst
    refine ⟨⟨BinaryFunctor.lanes_laneWise _, trivial, trivial⟩, table_sound, fun o ho => ?_,
      by decide, fun o ho => ?_, by simp [Statement.noalias]⟩
    · rcases List.mem_cons.1 ho with rfl | ho
      · exact table_sound.backed
      · obtain rfl := List.mem_singleton.1 ho
        exact ⟨⟨by decide, fun _ _ => by decide⟩,
          fun _ => ⟨⟨by decide, by decide, fun _ => by decide⟩, fun _ => by decide⟩,
          fun _ => by decide⟩
    · rcases List.mem_cons.1 ho with rfl | ho
      · decide
      · obtain rfl := List.mem_singleton.1 ho
        decide

theorem runProgram_refines_sevens : ∃ m',
    runProgram release (Codec.bytes 4) program (fun _ => 1) = .ok () m' ∧
      load (Codec.bytes 4) m' (table.strided.address [2, 0]) = fun _ => 8 := by
  obtain ⟨m', hrun⟩ : ∃ m', runProgram release (Codec.bytes 4) program (fun _ => 1) = .ok () m' :=
    ⟨_, rfl⟩
  have hrefines := (runProgram_refines program_valid
    (σ := load (Codec.bytes 4) fun _ => 1) fun _ _ => rfl).1 m' hrun
  refine ⟨m', hrun, (hrefines _ ?_).trans ?_⟩
  · exact StridedRef.address_aligned (by decide) _
  · rfl

end ArrayProgramWitness

end Vectorization
