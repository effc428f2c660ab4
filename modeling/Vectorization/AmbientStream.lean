/-
The ambient stream of `stream_guard.h`: a map from devices to the selected stream
and the number of guards that pin the entry.  Guards and direct selections on any
devices interleave; on each device guards are destroyed in reverse order of their
construction.
-/
import Mathlib

namespace Vectorization

/-- `gpu_stream_t`: a handle, zero for the null stream. -/
abbrev GpuStream := Nat

/-- `stream_state`.  Each guard is an object of its own, so their number never
wraps. -/
structure StreamState where
  stream : GpuStream
  guards : Nat
deriving Repr, DecidableEq

/-- `g_current_streams` of one thread. -/
abbrev Streams := AList fun _ : Int => StreamState

def currentStream (streams : Streams) (device : Int) : GpuStream :=
  if streams.entries.isEmpty then 0
  else
    match streams.lookup device with
    | none => 0
    | some state => state.stream

/-- `streams[device]`, which default-constructs a missing entry; none when the map
throws `bad_alloc` instead. -/
def Streams.entry (streams : Streams) (device : Int) (granted : Bool) : Option StreamState :=
  match streams.lookup device with
  | some state => some state
  | none => if granted then some ⟨0, 0⟩ else none

/-- `set_current_stream`; none when it throws. -/
def setCurrentStream (streams : Streams) (stream : GpuStream) (device : Int) (granted : Bool) :
    Option Streams :=
  if stream = 0 then
    match streams.lookup device with
    | none => some streams
    | some state =>
        if state.guards = 0 then some (streams.erase device)
        else some (streams.insert device { state with stream := 0 })
  else
    (streams.entry device granted).map fun state =>
      streams.insert device { state with stream := stream }

structure StreamGuard where
  deviceIndex : Int
  prevStream : GpuStream
deriving Repr, DecidableEq

/-- The constructor of `stream_guard`; none when it throws. -/
def StreamGuard.construct (streams : Streams) (stream : GpuStream) (device : Int)
    (granted : Bool) : Option (Streams × StreamGuard) :=
  (streams.entry device granted).map fun state =>
    (streams.insert device ⟨stream, state.guards + 1⟩, ⟨device, currentStream streams device⟩)

/-- The destructor; none when it dereferences the end of the map. -/
def StreamGuard.destruct (guard : StreamGuard) (streams : Streams) : Option Streams :=
  match streams.lookup guard.deviceIndex with
  | none => none
  | some state =>
      if state.guards - 1 = 0 ∧ guard.prevStream = 0 then some (streams.erase guard.deviceIndex)
      else some (streams.insert guard.deviceIndex ⟨guard.prevStream, state.guards - 1⟩)

/-- The map of a thread and its live guards, the latest first. -/
structure StreamThread where
  streams : Streams
  guards : List StreamGuard
deriving DecidableEq

namespace StreamThread

def start : StreamThread := ⟨∅, []⟩

def current (w : StreamThread) (device : Int) : GpuStream := currentStream w.streams device

/-- The live guards of a device, the latest first. -/
def live (w : StreamThread) (device : Int) : List StreamGuard :=
  w.guards.filter fun guard => decide (guard.deviceIndex = device)

end StreamThread

inductive StreamOp
  | set (stream : GpuStream) (device : Int) (granted : Bool)
  | construct (stream : GpuStream) (device : Int) (granted : Bool)
  /-- The latest live guard of the device goes out of scope. -/
  | destroy (device : Int)
deriving Repr, DecidableEq

def StreamOp.device : StreamOp → Int
  | set _ device _ => device
  | construct _ device _ => device
  | destroy device => device

/-- One operation; none where it would run into undefined behaviour.  What throws
leaves the thread as it was. -/
def StreamThread.step (w : StreamThread) : StreamOp → Option StreamThread
  | .set stream device granted =>
      match setCurrentStream w.streams stream device granted with
      | none => some w
      | some streams => some { w with streams := streams }
  | .construct stream device granted =>
      match StreamGuard.construct w.streams stream device granted with
      | none => some w
      | some (streams, guard) => some ⟨streams, guard :: w.guards⟩
  | .destroy device =>
      match w.guards.find? fun guard => decide (guard.deviceIndex = device) with
      | none => some w
      | some guard =>
          (guard.destruct w.streams).map fun streams =>
            ⟨streams, w.guards.eraseP fun guard => decide (guard.deviceIndex = device)⟩

def StreamThread.run (w : StreamThread) : List StreamOp → Option StreamThread
  | [] => some w
  | op :: ops => (w.step op).bind fun w' => w'.run ops

/-- Throughout the run more than `n` guards of the device are live, and one more than
`n` at its end: the guard constructed as number `n + 1` survives the run and is then
the latest. -/
def StreamThread.Outlived (device : Int) (n : Nat) : StreamThread → List StreamOp → Prop
  | w, [] => (w.live device).length = n + 1
  | w, op :: ops =>
      n < (w.live device).length ∧ ∀ w', w.step op = some w' → w'.Outlived device n ops

/-- A device has an entry exactly when its stream is not null or a guard of it is
live, and the entry counts the live guards. -/
def StreamThread.Consistent (w : StreamThread) : Prop :=
  ∀ device, ((w.streams.lookup device).isSome ↔ w.current device ≠ 0 ∨ w.live device ≠ []) ∧
    ∀ state, w.streams.lookup device = some state → state.guards = (w.live device).length

section Lookup

variable {streams : Streams} {device : Int}

theorem currentStream_eq (streams : Streams) (device : Int) :
    currentStream streams device = ((streams.lookup device).map StreamState.stream).getD 0 := by
  rw [currentStream]
  split <;> rename_i hempty
  · have hlookup : streams.lookup device = none := by
      rw [AList.lookup_eq_none, AList.mem_keys, AList.keys, List.isEmpty_iff.1 hempty]
      exact List.not_mem_nil
    rw [hlookup]
    rfl
  · cases streams.lookup device <;> rfl

@[simp] theorem currentStream_insert (state : StreamState) :
    currentStream (streams.insert device state) device = state.stream := by
  rw [currentStream_eq, AList.lookup_insert]
  rfl

@[simp] theorem currentStream_erase : currentStream (streams.erase device) device = 0 := by
  rw [currentStream_eq, AList.lookup_erase]
  rfl

end Lookup

section Step

variable {w w' : StreamThread} {device : Int}

/-- The entry of a device against its live guards. -/
def EntryMatches (entry : Option StreamState) (live : List StreamGuard) : Prop :=
  (entry.isSome ↔ (entry.map StreamState.stream).getD 0 ≠ 0 ∨ live ≠ []) ∧
    ∀ state, entry = some state → state.guards = live.length

theorem entryMatches_some {state : StreamState} {live : List StreamGuard} :
    EntryMatches (some state) live ↔
      (state.stream ≠ 0 ∨ live ≠ []) ∧ state.guards = live.length := by
  simp [EntryMatches]

theorem entryMatches_none {live : List StreamGuard} : EntryMatches none live ↔ live = [] := by
  simp [EntryMatches]

theorem StreamThread.consistent_iff :
    w.Consistent ↔ ∀ device, EntryMatches (w.streams.lookup device) (w.live device) := by
  refine forall_congr' fun device => ?_
  rw [EntryMatches, current, currentStream_eq]

theorem StreamThread.live_cons_self (streams : Streams) (guard : StreamGuard)
    (guards : List StreamGuard) :
    StreamThread.live ⟨streams, guard :: guards⟩ guard.deviceIndex =
      guard :: StreamThread.live ⟨streams, guards⟩ guard.deviceIndex :=
  List.filter_cons_of_pos (by simp)

theorem StreamThread.live_cons_ne (streams : Streams) {guard : StreamGuard}
    (guards : List StreamGuard) (h : guard.deviceIndex ≠ device) :
    StreamThread.live ⟨streams, guard :: guards⟩ device =
      StreamThread.live ⟨streams, guards⟩ device :=
  List.filter_cons_of_neg (by simp [h])

/-- The latest guard of a device is the head of its live guards. -/
theorem find?_eq_head?_live (w : StreamThread) (device : Int) :
    (w.guards.find? fun guard => decide (guard.deviceIndex = device)) =
      (w.live device).head? := by
  rw [StreamThread.live, List.head?_filter]

theorem live_eraseP (streams : Streams) (guards : List StreamGuard) (device : Int) :
    StreamThread.live
        ⟨streams, guards.eraseP fun guard => decide (guard.deviceIndex = device)⟩ device =
      (StreamThread.live ⟨streams, guards⟩ device).tail := by
  induction guards with
  | nil => rfl
  | cons guard guards ih =>
      by_cases h : guard.deviceIndex = device
      · subst h
        rw [List.eraseP_cons_of_pos (by simp), StreamThread.live_cons_self, List.tail_cons]
      · rw [List.eraseP_cons_of_neg (by simp [h]), StreamThread.live_cons_ne _ _ h,
          StreamThread.live_cons_ne _ _ h, ih]

theorem live_eraseP_ne (streams : Streams) (guards : List StreamGuard) {other : Int}
    (h : other ≠ device) :
    StreamThread.live
        ⟨streams, guards.eraseP fun guard => decide (guard.deviceIndex = device)⟩ other =
      StreamThread.live ⟨streams, guards⟩ other := by
  induction guards with
  | nil => rfl
  | cons guard guards ih =>
      by_cases hguard : guard.deviceIndex = device
      · rw [List.eraseP_cons_of_pos (by simp [hguard]),
          StreamThread.live_cons_ne _ _ (fun heq => h (heq.symm.trans hguard))]
      · rw [List.eraseP_cons_of_neg (by simp [hguard])]
        by_cases hother : guard.deviceIndex = other
        · subst hother
          rw [StreamThread.live_cons_self, StreamThread.live_cons_self, ih]
        · rw [StreamThread.live_cons_ne _ _ hother, StreamThread.live_cons_ne _ _ hother, ih]

end Step

section Functions

variable {streams streams' : Streams} {stream : GpuStream} {device other : Int} {granted : Bool}
  {live : List StreamGuard}

theorem setCurrentStream_ne (h : setCurrentStream streams stream device granted = some streams')
    (hother : other ≠ device) : streams'.lookup other = streams.lookup other := by
  rw [setCurrentStream] at h
  split at h
  · split at h
    · cases h
      rfl
    · split at h
      · cases h
        exact AList.lookup_erase_ne hother
      · cases h
        exact AList.lookup_insert_ne hother
  · obtain ⟨state, -, rfl⟩ := Option.map_eq_some_iff.1 h
    exact AList.lookup_insert_ne hother

/-- A missing entry is default-constructed for a device without guards. -/
theorem entry_guards {state : StreamState} (hentry : streams.entry device granted = some state)
    (h : EntryMatches (streams.lookup device) live) : state.guards = live.length := by
  rw [Streams.entry] at hentry
  split at hentry <;> rename_i hlookup
  · cases hentry
    rw [hlookup, entryMatches_some] at h
    exact h.2
  · rw [hlookup, entryMatches_none] at h
    split at hentry
    · cases hentry
      rw [h]
      rfl
    · cases hentry

theorem setCurrentStream_own (h : setCurrentStream streams stream device granted = some streams')
    (hentry : EntryMatches (streams.lookup device) live) :
    EntryMatches (streams'.lookup device) live := by
  rw [setCurrentStream] at h
  split at h <;> rename_i hnull
  · split at h
    · cases h
      exact hentry
    · rename_i state hlookup
      rw [hlookup, entryMatches_some] at hentry
      split at h <;> rename_i hguards
      · cases h
        rw [AList.lookup_erase, entryMatches_none]
        exact List.length_eq_zero_iff.1 (hentry.2.symm.trans hguards)
      · cases h
        rw [AList.lookup_insert, entryMatches_some]
        refine ⟨.inr fun hlive => hguards ?_, hentry.2⟩
        rw [hentry.2, hlive, List.length_nil]
  · obtain ⟨state, hstate, rfl⟩ := Option.map_eq_some_iff.1 h
    rw [AList.lookup_insert, entryMatches_some]
    have hguards := entry_guards hstate hentry
    exact ⟨.inl hnull, hguards⟩

theorem construct_some {guard : StreamGuard}
    (h : StreamGuard.construct streams stream device granted = some (streams', guard)) :
    guard = ⟨device, currentStream streams device⟩ ∧ ∃ state,
      streams.entry device granted = some state ∧
        streams' = streams.insert device ⟨stream, state.guards + 1⟩ := by
  obtain ⟨state, hstate, heq⟩ := Option.map_eq_some_iff.1 h
  cases heq
  exact ⟨rfl, state, hstate, rfl⟩

/-- The entry of a live guard is there, and destroying the guard restores the stream it
replaced. -/
theorem destruct_own {guard : StreamGuard}
    (hentry : EntryMatches (streams.lookup guard.deviceIndex) (guard :: live)) :
    ∃ streams', guard.destruct streams = some streams' ∧
      EntryMatches (streams'.lookup guard.deviceIndex) live ∧
      currentStream streams' guard.deviceIndex = guard.prevStream ∧
      ∀ other, other ≠ guard.deviceIndex → streams'.lookup other = streams.lookup other := by
  cases hlookup : streams.lookup guard.deviceIndex with
  | none =>
      rw [hlookup, entryMatches_none] at hentry
      cases hentry
  | some state =>
      rw [hlookup, entryMatches_some, List.length_cons] at hentry
      rw [StreamGuard.destruct, hlookup]
      dsimp only
      have hguards : state.guards - 1 = live.length := by omega
      split <;> rename_i hlast
      · refine ⟨_, rfl, ?_, ?_, fun other hother => AList.lookup_erase_ne hother⟩
        · rw [AList.lookup_erase, entryMatches_none]
          exact List.length_eq_zero_iff.1 (hguards.symm.trans hlast.1)
        · rw [currentStream_erase, hlast.2]
      · refine ⟨_, rfl, ?_, currentStream_insert _,
          fun other hother => AList.lookup_insert_ne hother⟩
        rw [AList.lookup_insert, entryMatches_some]
        refine ⟨?_, hguards⟩
        by_cases hprev : guard.prevStream = 0
        · refine .inr fun hlive => hlast ⟨?_, hprev⟩
          rw [hguards, hlive, List.length_nil]
        · exact .inl hprev

end Functions

section Run

variable {w w' : StreamThread} {device : Int}

theorem StreamThread.destroy_cases (hw : w.Consistent) (device : Int) :
    (w.live device = [] ∧ w.step (.destroy device) = some w) ∨
      ∃ guard rest w', w.live device = guard :: rest ∧ w.step (.destroy device) = some w' ∧
        w'.live device = rest ∧ w'.current device = guard.prevStream ∧
        EntryMatches (w'.streams.lookup device) rest ∧
        ∀ other, other ≠ device →
          w'.streams.lookup other = w.streams.lookup other ∧ w'.live other = w.live other := by
  have hentry := consistent_iff.1 hw device
  rw [step, find?_eq_head?_live]
  cases hlive : w.live device with
  | nil => exact .inl ⟨rfl, rfl⟩
  | cons guard rest =>
      have hdevice : guard.deviceIndex = device := by
        have hmem : guard ∈ w.live device := by
          rw [hlive]
          exact List.mem_cons_self
        simpa using (List.mem_filter.1 hmem).2
      subst hdevice
      rw [hlive] at hentry
      obtain ⟨streams', hdestruct, hown, hprev, hframe⟩ := destruct_own hentry
      rw [List.head?_cons]
      dsimp only
      rw [hdestruct]
      refine .inr ⟨guard, rest, _, rfl, rfl, ?_, hprev, hown, fun other hother =>
        ⟨hframe other hother, live_eraseP_ne _ _ hother⟩⟩
      rw [live_eraseP]
      exact congrArg List.tail hlive

/-- Every operation keeps the map in step with the guards; none meets a missing entry. -/
theorem StreamThread.step_consistent (hw : w.Consistent) (op : StreamOp) :
    ∃ w', w.step op = some w' ∧ w'.Consistent := by
  have hentries := consistent_iff.1 hw
  cases op with
  | set stream device granted =>
      rw [step]
      split
      · exact ⟨w, rfl, hw⟩
      · rename_i streams' hset
        refine ⟨_, rfl, consistent_iff.2 fun other => ?_⟩
        change EntryMatches (streams'.lookup other) (w.live other)
        by_cases hother : other = device
        · subst hother
          exact setCurrentStream_own hset (hentries other)
        · rw [setCurrentStream_ne hset hother]
          exact hentries other
  | construct stream device granted =>
      rw [step]
      split
      · exact ⟨w, rfl, hw⟩
      · rename_i streams' guard hconstruct
        obtain ⟨rfl, state, hstate, rfl⟩ := construct_some hconstruct
        refine ⟨_, rfl, consistent_iff.2 fun other => ?_⟩
        by_cases hother : other = device
        · subst hother
          rw [live_cons_self _ ⟨other, currentStream w.streams other⟩, AList.lookup_insert,
            entryMatches_some]
          exact ⟨.inr (by simp), congrArg (· + 1) (entry_guards hstate (hentries other))⟩
        · rw [live_cons_ne _ _ (fun heq => hother heq.symm), AList.lookup_insert_ne hother]
          exact hentries other
  | destroy device =>
      rcases destroy_cases hw device with ⟨-, hstep⟩ | hdestroy
      · exact ⟨w, hstep, hw⟩
      · obtain ⟨guard, rest, w', -, hstep, hlive, -, hown, hframe⟩ := hdestroy
        refine ⟨w', hstep, consistent_iff.2 fun other => ?_⟩
        by_cases hother : other = device
        · subst hother
          rw [hlive]
          exact hown
        · rw [(hframe other hother).1, (hframe other hother).2]
          exact hentries other

theorem StreamThread.start_consistent : start.Consistent :=
  consistent_iff.2 fun _ => entryMatches_none.2 rfl

theorem StreamThread.run_consistent (hw : w.Consistent) (ops : List StreamOp) :
    ∃ w', w.run ops = some w' ∧ w'.Consistent := by
  induction ops generalizing w with
  | nil => exact ⟨w, rfl, hw⟩
  | cons op ops ih =>
      obtain ⟨next, hstep, hnext⟩ := step_consistent hw op
      obtain ⟨w', hrun, hw'⟩ := ih hnext
      exact ⟨w', by rw [run, hstep, Option.bind_some, hrun], hw'⟩

/-- An operation adds a guard to a device, drops its latest one or keeps its guards. -/
theorem StreamThread.step_live (hw : w.Consistent) (device : Int) {op : StreamOp}
    (h : w.step op = some w') :
    w'.live device = w.live device ∨ w'.live device = (w.live device).tail ∨
      ∃ guard, w'.live device = guard :: w.live device := by
  cases op with
  | set stream other granted =>
      rw [step] at h
      split at h <;> cases h <;> exact .inl rfl
  | construct stream other granted =>
      rw [step] at h
      split at h
      · cases h
        exact .inl rfl
      · rename_i streams' guard hconstruct
        cases h
        by_cases hdevice : guard.deviceIndex = device
        · subst hdevice
          exact .inr (.inr ⟨guard, live_cons_self _ _ _⟩)
        · exact .inl (live_cons_ne _ _ hdevice)
  | destroy other =>
      rcases destroy_cases hw other with ⟨-, hstep⟩ | hdestroy
      · rw [hstep] at h
        cases h
        exact .inl rfl
      · obtain ⟨guard, rest, next, hlive, hstep, hrest, -, -, hframe⟩ := hdestroy
        rw [hstep] at h
        cases h
        by_cases hdevice : device = other
        · subst hdevice
          rw [hrest, hlive]
          exact .inr (.inl rfl)
        · exact .inl (hframe device hdevice).2

theorem StreamThread.Outlived.lt_length {n : Nat} {ops : List StreamOp}
    (h : w.Outlived device n ops) : n < (w.live device).length := by
  cases ops with
  | nil => exact h ▸ Nat.lt_succ_self n
  | cons op ops => exact h.1

/-- A guard that outlives a run is the latest of its device at the end. -/
theorem StreamThread.run_outlived (hw : w.Consistent) {ops : List StreamOp}
    {guards : List StreamGuard} {n : Nat} (hguards : guards.length = n + 1)
    (hsuffix : guards <:+ w.live device) (hops : w.Outlived device n ops)
    (h : w.run ops = some w') : w'.live device = guards := by
  induction ops generalizing w with
  | nil =>
      cases h
      exact (hsuffix.eq_of_length (hguards.trans hops.symm)).symm
  | cons op ops ih =>
      obtain ⟨next, hstep, hnext⟩ := step_consistent hw op
      rw [run, hstep, Option.bind_some] at h
      have houtlived := hops.2 next hstep
      refine ih hnext ?_ houtlived h
      have hlt := houtlived.lt_length
      rcases step_live hw device hstep with hlive | hlive | ⟨guard, hlive⟩
      · rwa [hlive]
      · rw [hlive] at hlt ⊢
        have htail := List.tail_suffix (w.live device)
        exact List.suffix_of_suffix_length_le hsuffix htail (by omega)
      · rw [hlive]
        exact hsuffix.trans (List.suffix_cons guard _)

/-- A guard restores what was current when it was constructed, whatever ran in
between on any device. -/
theorem StreamThread.destroy_restores (hw : w.Consistent) {stream : GpuStream}
    {granted : Bool} {w₁ w₂ w₃ : StreamThread} {ops : List StreamOp}
    (hconstruct : w.step (.construct stream device granted) = some w₁)
    (hlive : (w₁.live device).length = (w.live device).length + 1)
    (hops : w₁.Outlived device (w.live device).length ops) (hrun : w₁.run ops = some w₂)
    (hdestroy : w₂.step (.destroy device) = some w₃) :
    w₃.current device = w.current device ∧
      ∀ other, other ≠ device → w₃.current other = w₂.current other := by
  obtain ⟨next, hnext, hw₁⟩ := step_consistent hw (.construct stream device granted)
  rw [hconstruct] at hnext
  cases hnext
  have hguard : w₁.live device = ⟨device, w.current device⟩ :: w.live device := by
    rw [step] at hconstruct
    split at hconstruct <;> cases hconstruct
    · exact absurd hlive (by omega)
    · rename_i streams' guard hguard
      obtain ⟨rfl, -⟩ := construct_some hguard
      exact live_cons_self _ ⟨device, w.current device⟩ _
  have hend := run_outlived hw₁ hlive (List.suffix_refl _) hops hrun
  rw [hguard] at hend
  obtain ⟨end', hend', hw₂⟩ := run_consistent hw₁ ops
  rw [hrun] at hend'
  cases hend'
  rcases destroy_cases hw₂ device with ⟨hnil, -⟩ | hcases
  · rw [hend] at hnil
    cases hnil
  · obtain ⟨guard, rest, next, hguards, hstep, -, hprev, -, hframe⟩ := hcases
    rw [hdestroy] at hstep
    cases hstep
    rw [hend] at hguards
    cases hguards
    refine ⟨hprev, fun other hother => ?_⟩
    rw [current, current, currentStream_eq, currentStream_eq, (hframe other hother).1]

/-- Every sequence of operations runs through, leaves an entry exactly for the devices
with a stream or a live guard, and from where it ends every guard restores what it
replaced. -/
theorem runStreams_ambient (ops : List StreamOp) :
    ∃ w, StreamThread.start.run ops = some w ∧ w.Consistent ∧
      ∀ device stream granted w₁ inner w₂ w₃,
        w.step (.construct stream device granted) = some w₁ →
        (w₁.live device).length = (w.live device).length + 1 →
        w₁.Outlived device (w.live device).length inner → w₁.run inner = some w₂ →
        w₂.step (.destroy device) = some w₃ →
        w₃.current device = w.current device ∧
          ∀ other, other ≠ device → w₃.current other = w₂.current other := by
  obtain ⟨w, hrun, hw⟩ := StreamThread.run_consistent StreamThread.start_consistent ops
  exact ⟨w, hrun, hw, fun device stream granted w₁ inner w₂ w₃ hconstruct hlive hinner hrun
    hdestroy => StreamThread.destroy_restores hw hconstruct hlive hinner hrun hdestroy⟩

end Run

namespace AmbientStreamWitness

/-- A direct selection, then nested guards on two devices with selections between. -/
def selected : List StreamOp := [.set 7 0 true]

def nested : List StreamOp :=
  [.set 0 0 true, .construct 7 0 true, .construct 8 1 true, .set 9 0 true, .destroy 0]

theorem runStreams_ambient_nested : ∃ w w₁ w₂ w₃, StreamThread.start.run selected = some w ∧
    w.step (.construct 8 0 true) = some w₁ ∧ w₁.run nested = some w₂ ∧
    w₂.step (.destroy 0) = some w₃ ∧ w₃.current 0 = 7 ∧ w₃.current 1 = 8 := by
  obtain ⟨w, hrun, -, hrestore⟩ := runStreams_ambient selected
  cases hrun
  refine ⟨_, _, _, _, rfl, rfl, rfl, rfl, ?_, ?_⟩
  · refine (hrestore 0 8 true _ nested _ _ rfl rfl ?_ rfl rfl).1
    refine ⟨by decide, fun _ h => ?_⟩
    cases h
    refine ⟨by decide, fun _ h => ?_⟩
    cases h
    refine ⟨by decide, fun _ h => ?_⟩
    cases h
    refine ⟨by decide, fun _ h => ?_⟩
    cases h
    refine ⟨by decide, fun _ h => ?_⟩
    cases h
    rfl
  · decide

end AmbientStreamWitness

end Vectorization
