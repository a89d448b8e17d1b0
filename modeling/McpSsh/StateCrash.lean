import McpSsh.StateRoundTrip
import McpSsh.ConfigWrite
import McpSsh.Base.Durable

/-!
# A state file that survives crashes

`_persist` writes a temporary file beside the state file and moves it into place. Each
step may fail, and between any two of them the process may end. What the next process
loads is the memory of the last call whose file was moved into place, with every status
unknown; in particular nothing that a call had stored when it returned is lost.
-/

set_option autoImplicit false

namespace McpSsh

open Base Json State

/-! ## The store as functions -/

/-- What a store holds, apart from the order of its records. -/
@[ext] structure StateView (φ : Type) where
  process : PyString → Option ProcessRecord
  session : PyString → Option SessionRecord
  topology : Option (State.TopologyResult φ)

namespace StateView

variable {φ : Type}

def apply (v : StateView φ) : StateOp φ → StateView φ
  | .upsertProcess r => { v with process := fun key => if key = ofString r.id then some r else v.process key }
  | .upsertSession r => { v with session := fun key => if key = ofString r.id then some r else v.session key }
  | .setTopology t => { v with topology := some t }

/-- What a new process makes of it: every status is unknown. -/
def forget (v : StateView φ) : StateView φ :=
  { v with process := fun key => (v.process key).map StateStore.unknownProcess
           session := fun key => (v.session key).map StateStore.unknownSession }

end StateView

namespace StateStore

variable {φ : Type}

def view (s : StateStore φ) : StateView φ := ⟨s.processes.get?, s.sessions.get?, s.topology⟩

theorem view_apply (s : StateStore φ) (op : StateOp φ) : (s.apply op).view = s.view.apply op := by
  cases op <;> ext <;> simp [view, apply, StateView.apply, upsertProcess, upsertSession, setTopology, Dict.get?_insert]

/-- Every key is the text of an id. -/
def Named (s : StateStore φ) : Prop := ∀ key, key ∈ s.processes.keys ∨ key ∈ s.sessions.keys → ∃ id, key = ofString id

/-- The store can be written and read back. -/
structure Storable (c : Scalars φ) (s : StateStore φ) : Prop where
  kept : s.Kept c
  named : s.Named

theorem Storable.apply {c : Scalars φ} {s : StateStore φ} (storable : s.Storable c) {op : StateOp φ} (new : op.Kept c) :
    (s.apply op).Storable c := by
  refine ⟨storable.kept.apply new, ?_⟩
  have inserted : ∀ {α : Type} {d : Dict PyString α} {id : String} {r : α} {key : PyString},
      key ∈ (d.insert (ofString id) r).keys → key ∈ d.keys ∨ ∃ id, key = ofString id := by
    intro α d id r key member
    exact (Dict.mem_keys_insert.mp member).elim (fun new => .inr ⟨id, new⟩) .inl
  rintro key (member | member)
  · cases op with
    | upsertProcess r => exact (inserted member).elim (fun old => storable.named key (.inl old)) id
    | upsertSession r => exact storable.named key (.inl member)
    | setTopology t => exact storable.named key (.inl member)
  · cases op with
    | upsertProcess r => exact storable.named key (.inr member)
    | upsertSession r => exact (inserted member).elim (fun old => storable.named key (.inr old)) id
    | setTopology t => exact storable.named key (.inr member)

theorem storable_empty {c : Scalars φ} : (empty : StateStore φ).Storable c :=
  ⟨⟨by rintro _ ⟨⟩, by rintro _ ⟨⟩, by rintro _ ⟨⟩⟩, by rintro key (member | member) <;> cases member⟩

/-- A stored store comes back, without its statuses. -/
theorem load_storable {c : Scalars φ} {s : StateStore φ} (storable : s.Storable c) {exceeds : String → Bool}
    (within : exceeds (s.persist c) = false) : ∃ loaded, load c exceeds (some (.text (s.persist c))) = .ok loaded ∧
      loaded.view = s.view.forget ∧ loaded.Storable c := by
  obtain ⟨loaded, result, processes, sessions, topology⟩ := load_persist storable.kept storable.named within
  refine ⟨loaded, result, StateView.ext (funext processes) (funext sessions) topology, ⟨?_, ?_, ?_⟩, ?_⟩
  · intro e member
    obtain ⟨r, found, same⟩ := Option.map_eq_some_iff.mp ((processes e.1).symm.trans (Dict.get?_of_mem member))
    exact same ▸ storable.kept.processes _ (Dict.get?_eq_some_iff.mp found)
  · intro e member
    obtain ⟨r, found, same⟩ := Option.map_eq_some_iff.mp ((sessions e.1).symm.trans (Dict.get?_of_mem member))
    exact same ▸ storable.kept.sessions _ (Dict.get?_eq_some_iff.mp found)
  · intro t stored
    exact storable.kept.topology t (topology ▸ stored)
  · rintro key (member | member)
    · obtain ⟨r, found⟩ := Dict.mem_keys_iff.mp member
      obtain ⟨r', found', -⟩ := Option.map_eq_some_iff.mp ((processes key).symm.trans found)
      exact storable.named key (.inl (Dict.mem_keys_of_get? found'))
    · obtain ⟨r, found⟩ := Dict.mem_keys_iff.mp member
      obtain ⟨r', found', -⟩ := Option.map_eq_some_iff.mp ((sessions key).symm.trans found)
      exact storable.named key (.inr (Dict.mem_keys_of_get? found'))

end StateStore

/-! ## The steps of `_persist` -/

/-- Where a process stands: between calls, or in the `_persist` of a call before it
writes, before it moves the file, and after that; `existed` tells whether there was a
state file before. -/
inductive SavePhase where
  | ready
  | writing
  | placing (existed : Bool)
  | securing (existed : Bool)
  | down
deriving DecidableEq

/-- A store with its state file, and the temporary file beside it (where that is another
file). -/
structure SavedState (φ : Type) where
  store : StateStore φ
  file : Option FileContent
  temporary : Option FileContent
  phase : SavePhase

inductive StateEvent (φ : Type) where
  /-- A record is upserted, or the topology set, in memory. -/
  | call (op : StateOp φ)
  /-- `mkdir` fails, or the temporary file cannot be opened. -/
  | notOpened
  /-- Writing fails, and the temporary file holds what was written by then. -/
  | cutShort (left : FileContent)
  | written
  /-- `os.replace` fails. -/
  | notMoved
  | moved
  /-- The call returns. -/
  | returned
  /-- `chmod` fails. -/
  | notSecured
  /-- The process ends; if it was writing, the temporary file may hold anything. -/
  | crash (left : Option FileContent)
  /-- A new process loads the file. -/
  | started

namespace SavedState

variable {φ : Type} (c : Scalars φ) (exceeds : String → Bool) (path : String)

/-- What is written to `self._path.with_suffix(".tmp")`. -/
def writeText (s : SavedState φ) (content : FileContent) : SavedState φ :=
  { s with
    file := if withSuffix path ".tmp" = path then some content else s.file
    temporary := if withSuffix path ".tmp" = path then s.temporary else some content }

/-- `os.replace(tmp_path, self._path)`, which does nothing when both name one file. -/
def moveIntoPlace (s : SavedState φ) : SavedState φ :=
  if withSuffix path ".tmp" = path then s else { s with file := s.temporary, temporary := none }

/-- One step of a state file called `path`; `none` for an event that cannot happen. -/
def step (s : SavedState φ) : StateEvent φ → Option (SavedState φ)
  | .call op => if s.phase = .ready then some { s with store := s.store.apply op, phase := .writing } else none
  | .notOpened => if s.phase = .writing then some { s with phase := .ready } else none
  | .cutShort left => if s.phase = .writing then some { s.writeText path left with phase := .ready } else none
  | .written =>
    if s.phase = .writing then
      some { s.writeText path (.text (s.store.persist c)) with phase := .placing s.file.isSome }
    else none
  | .notMoved =>
    match s.phase with
    | .placing _ => some { s with phase := .ready }
    | _ => none
  | .moved =>
    match s.phase with
    | .placing existed => some { s.moveIntoPlace path with phase := .securing existed }
    | _ => none
  | .returned =>
    match s.phase with
    | .securing _ => some { s with phase := .ready }
    | _ => none
  | .notSecured => if s.phase = .securing false then some { s with phase := .ready } else none
  | .crash left =>
    if s.phase = .down then none
    else some { (if s.phase = .writing then left.elim s (s.writeText path) else s) with phase := .down }
  | .started =>
    if s.phase = .down then (StateStore.load c exceeds s.file).toOption.map fun store => { s with store, phase := .ready }
    else none

def system : System (SavedState φ) (StateEvent φ) := ofFunction (step c exceeds path)

/-- A new process that finds no file. -/
def fresh : SavedState φ := ⟨.empty, none, none, .ready⟩

end SavedState

/-- What an event means for what the store holds: it is saved when the file is moved into
place. -/
def StateEvent.durable {φ : Type} : StateEvent φ → DurableEvent (StateOp φ)
  | .call op => .call op
  | .moved => .save
  | .started => .restart
  | _ => .other

/-- What memory holds after these events, and what a restart finds. -/
def history {φ : Type} (events : List (StateEvent φ)) : Durable (StateView φ) :=
  .replay StateView.apply StateView.forget StateStore.empty.view (events.map StateEvent.durable)

namespace SavedState

/-! ## What every step keeps -/

section

variable {φ : Type} {c : Scalars φ} {exceeds : String → Bool} {path : String} {s t : SavedState φ}

/-- What one step can do, if the temporary file is another file than the state file. -/
inductive Steps (c : Scalars φ) (exceeds : String → Bool) (s : SavedState φ) : StateEvent φ → SavedState φ → Prop where
  | call (op : StateOp φ) (ready : s.phase = .ready) :
      Steps c exceeds s (.call op) { s with store := s.store.apply op, phase := .writing }
  | written (writing : s.phase = .writing) :
      Steps c exceeds s .written
        { s with temporary := some (.text (s.store.persist c)), phase := .placing s.file.isSome }
  | moved (existed : Bool) (placing : s.phase = .placing existed) :
      Steps c exceeds s .moved { s with file := s.temporary, temporary := none, phase := .securing existed }
  | returned (existed : Bool) (securing : s.phase = .securing existed) :
      Steps c exceeds s .returned { s with phase := .ready }
  /-- The call raises. -/
  | raised (event : StateEvent φ) (temporary : Option FileContent) (up : s.phase ≠ .down)
      (quiet : event.durable = .other) (fails : event ≠ .returned) : Steps c exceeds s event { s with temporary, phase := .ready }
  | crash (left temporary : Option FileContent) : Steps c exceeds s (.crash left) { s with temporary, phase := .down }
  | started (store : StateStore φ) (loaded : StateStore.load c exceeds s.file = .ok store) :
      Steps c exceeds s .started { s with store, phase := .ready }

theorem writeText_apart (apart : suffix path ≠ ".tmp") (s : SavedState φ) (content : FileContent) :
    s.writeText path content = { s with temporary := some content } := by
  rw [writeText, if_neg (mt withSuffix_eq_self_iff.mp apart), if_neg (mt withSuffix_eq_self_iff.mp apart)]

theorem moveIntoPlace_apart (apart : suffix path ≠ ".tmp") (s : SavedState φ) :
    s.moveIntoPlace path = { s with file := s.temporary, temporary := none } :=
  if_neg (mt withSuffix_eq_self_iff.mp apart)

theorem steps_of_step (apart : suffix path ≠ ".tmp") {event : StateEvent φ} (stepped : s.step c exceeds path event = some t) :
    s.Steps c exceeds event t := by
  cases event with
  | call op =>
    obtain ⟨ready, same⟩ := Option.ite_none_right_eq_some.mp stepped
    cases same
    exact .call op ready
  | notOpened =>
    obtain ⟨writing, same⟩ := Option.ite_none_right_eq_some.mp stepped
    cases same
    exact .raised _ s.temporary (by simp [writing]) rfl nofun
  | cutShort left =>
    obtain ⟨writing, same⟩ := Option.ite_none_right_eq_some.mp stepped
    rw [writeText_apart apart] at same
    cases same
    exact .raised _ (some left) (by simp [writing]) rfl nofun
  | written =>
    obtain ⟨writing, same⟩ := Option.ite_none_right_eq_some.mp stepped
    rw [writeText_apart apart] at same
    cases same
    exact .written writing
  | notMoved =>
    simp only [step] at stepped
    split at stepped
    · rename_i existed placing
      cases stepped
      exact .raised _ s.temporary (by simp [placing]) rfl nofun
    · cases stepped
  | moved =>
    simp only [step, moveIntoPlace_apart apart] at stepped
    split at stepped
    · rename_i existed placing
      cases stepped
      exact .moved existed placing
    · cases stepped
  | returned =>
    simp only [step] at stepped
    split at stepped
    · rename_i existed securing
      cases stepped
      exact .returned existed securing
    · cases stepped
  | notSecured =>
    obtain ⟨securing, same⟩ := Option.ite_none_right_eq_some.mp stepped
    cases same
    exact .raised _ s.temporary (by simp [securing]) rfl nofun
  | crash left =>
    obtain ⟨-, same⟩ := Option.ite_none_left_eq_some.mp stepped
    rw [← Option.some.inj same]
    split
    · cases left with
      | none => exact .crash _ s.temporary
      | some left =>
        rw [Option.elim_some, writeText_apart apart]
        exact .crash _ (some left)
    · exact .crash _ s.temporary
  | started =>
    obtain ⟨-, same⟩ := Option.ite_none_right_eq_some.mp stepped
    cases loaded : StateStore.load c exceeds s.file with
    | error e => simp [loaded, Except.toOption] at same
    | ok store =>
      rw [loaded] at same
      cases same
      exact .started store loaded

/-- What holds of a state in which memory and file have this history. -/
structure Sound (c : Scalars φ) (s : SavedState φ) (d : Durable (StateView φ)) : Prop where
  memory : s.phase ≠ .down → s.store.view = d.memory ∧ s.store.Storable c
  file : s.file = none ∧ d.saved = StateStore.empty.view ∨
    ∃ saved : StateStore φ, saved.Storable c ∧ s.file = some (.text (saved.persist c)) ∧ saved.view = d.saved
  placing : ∀ existed, s.phase = .placing existed → s.temporary = some (.text (s.store.persist c))
  securing : ∀ existed, s.phase = .securing existed → d.saved = d.memory

theorem sound_fresh : (fresh : SavedState φ).Sound c (history []) :=
  ⟨fun _ => ⟨rfl, StateStore.storable_empty⟩, .inl ⟨rfl, rfl⟩, by rintro _ ⟨⟩, by rintro _ ⟨⟩⟩

/-- What the saved file loads to. -/
theorem Sound.loads {d : Durable (StateView φ)} (sound : s.Sound c d)
    (within : ∀ text, s.file = some (.text text) → exceeds text = false) :
    ∃ loaded, StateStore.load c exceeds s.file = .ok loaded ∧ loaded.view = d.saved.forget ∧ loaded.Storable c := by
  rcases sound.file with ⟨missing, nothing⟩ | ⟨saved, storable, stored, view⟩
  · exact ⟨.empty, by rw [missing]; rfl, by rw [nothing]; rfl, StateStore.storable_empty⟩
  · obtain ⟨loaded, result, same, good⟩ := StateStore.load_storable storable (within _ stored)
    exact ⟨loaded, by rw [stored, result], by rw [same, view], good⟩

/-- A file that loads is within the limits of `json.loads`. -/
theorem within_of_load {store : StateStore φ} (loaded : StateStore.load c exceeds s.file = .ok store) (text : String)
    (stored : s.file = some (.text text)) : exceeds text = false := by
  rw [stored, StateStore.load] at loaded
  by_contra beyond
  rw [if_pos (by simpa using beyond)] at loaded
  cases loaded

theorem Sound.step {d : Durable (StateView φ)} (sound : s.Sound c d) {event : StateEvent φ}
    (new : ∀ op, event = .call op → op.Kept c) (stepped : s.Steps c exceeds event t) :
    t.Sound c (d.after StateView.apply StateView.forget event.durable) := by
  cases stepped with
  | call op ready =>
    obtain ⟨view, storable⟩ := sound.memory (by simp [ready])
    refine ⟨fun _ => ⟨?_, storable.apply (new op rfl)⟩, sound.file, by rintro _ ⟨⟩, by rintro _ ⟨⟩⟩
    exact (StateStore.view_apply _ _).trans (congrArg (·.apply op) view)
  | written writing =>
    refine ⟨fun _ => sound.memory (by simp [writing]), sound.file, fun _ _ => rfl, by rintro _ ⟨⟩⟩
  | moved existed placing =>
    obtain ⟨view, storable⟩ := sound.memory (by simp [placing])
    refine ⟨fun _ => ⟨view, storable⟩, .inr ⟨s.store, storable, sound.placing existed placing, view⟩, by rintro _ ⟨⟩,
      fun _ _ => rfl⟩
  | returned existed securing =>
    exact ⟨fun _ => sound.memory (by simp [securing]), sound.file, by rintro _ ⟨⟩, by rintro _ ⟨⟩⟩
  | raised event temporary up quiet fails =>
    rw [quiet]
    exact ⟨fun _ => sound.memory up, sound.file, by rintro _ ⟨⟩, by rintro _ ⟨⟩⟩
  | crash left temporary => exact ⟨fun up => absurd rfl up, sound.file, by rintro _ ⟨⟩, by rintro _ ⟨⟩⟩
  | started store loaded =>
    obtain ⟨store', loaded', view, storable⟩ := sound.loads (within_of_load loaded)
    obtain rfl := Except.ok.inj (loaded'.symm.trans loaded)
    exact ⟨fun _ => ⟨view, storable⟩, sound.file, by rintro _ ⟨⟩, by rintro _ ⟨⟩⟩

/-! ## Every run -/

theorem history_concat (events : List (StateEvent φ)) (event : StateEvent φ) :
    history (events ++ [event]) = (history events).after StateView.apply StateView.forget event.durable := by
  rw [history, List.map_append, List.map_singleton, Durable.replay_concat]
  rfl

/-- The calls of the events have records that are encoded faithfully. -/
def Encodable (c : Scalars φ) (events : List (StateEvent φ)) : Prop :=
  ∀ event ∈ events, ∀ op, event = .call op → op.Kept c

theorem sound_of_run (apart : suffix path ≠ ".tmp") {events : List (StateEvent φ)} (encodable : Encodable c events)
    (run : Run (system c exceeds path) fresh events s) : s.Sound c (history events) := by
  have keep : ∀ (before : List (StateEvent φ)) (s : SavedState φ) (event : StateEvent φ) (t : SavedState φ),
      s.Sound c (history before) →
        guard (system c exceeds path) (fun _ event => ∀ op, event = .call op → op.Kept c) s event t →
          t.Sound c (history (before ++ [event])) := by
    intro before s event t sound step
    rw [history_concat]
    exact sound.step step.2 (steps_of_step apart step.1)
  exact (run.guarded encodable).follows keep sound_fresh

/-- What a call had stored when it returned. -/
theorem returned_saved (apart : suffix path ≠ ".tmp") {before after : List (StateEvent φ)}
    (encodable : Encodable c (before ++ .returned :: after))
    (run : Run (system c exceeds path) fresh (before ++ .returned :: after) s) : ∃ more, more <+: after ∧
      (history (before ++ .returned :: after)).saved = (history (before ++ .returned :: more)).memory := by
  obtain ⟨m, first, rest⟩ := run.split
  have known : Encodable c before := fun event member => encodable event (List.mem_append_left _ member)
  have sound := sound_of_run apart known first
  have level : (history before).saved = (history before).memory := by
    cases rest with
    | step stepped _ =>
      cases steps_of_step apart stepped with
      | returned existed securing => exact sound.securing existed securing
      | raised event temporary up quiet fails => exact absurd rfl fails
  have level' : (history (before ++ [.returned])).saved = (history (before ++ [.returned])).memory := by
    rw [history_concat]
    exact level
  rw [history, List.map_append] at level'
  obtain ⟨more, part, same⟩ := Durable.saved_reaches level' (after.map StateEvent.durable)
  obtain ⟨more, part', rfl⟩ := List.prefix_map_iff.mp part
  refine ⟨more, part', ?_⟩
  simpa [history] using same

end

/-- A state that was reached through these events, whatever failed and crashed on the way. -/
structure CrashSafe {φ : Type} (c : Scalars φ) (exceeds : String → Bool) (events : List (StateEvent φ))
    (s : SavedState φ) : Prop where
  memory : s.phase ≠ .down → s.store.view = (history events).memory
  /-- A new process would load what was saved last, with every status unknown. -/
  loads : ∃ loaded, StateStore.load c exceeds s.file = .ok loaded ∧ loaded.view = (history events).saved.forget
  /-- That is what memory held at some moment, which for every call that returned is not
  before its end. -/
  lasting : ∀ before after, events = before ++ .returned :: after → ∃ more, more <+: after ∧
    (history events).saved = (history (before ++ .returned :: more)).memory

/-- **The state file survives crashes**: in every run of calls, failures, crashes and
restarts the file loads, at any point, to what the last completed write had in memory. -/
theorem crash_safe {φ : Type} (c : Scalars φ) (exceeds : String → Bool) (path : String) (apart : suffix path ≠ ".tmp")
    (events : List (StateEvent φ)) (encodable : Encodable c events) (s : SavedState φ)
    (run : Run (system c exceeds path) fresh events s)
    (within : ∀ text, s.file = some (.text text) → exceeds text = false) : s.CrashSafe c exceeds events where
  memory up := ((sound_of_run apart encodable run).memory up).1
  loads := by
    obtain ⟨loaded, result, view, -⟩ := (sound_of_run apart encodable run).loads within
    exact ⟨loaded, result, view⟩
  lasting := by
    rintro before after rfl
    exact returned_saved apart encodable run

/-- A process is stored, a second one is not moved into place, and the server goes down. -/
def crashedRun : List (StateEvent Unit) :=
  [.call (.upsertProcess sampleProcess), .written, .moved, .returned,
    .call (.upsertProcess { sampleProcess with id := "p2" }), .written, .notMoved, .crash none]

/-- A new one starts, and goes down while it writes a third process. -/
def restartedRun : List (StateEvent Unit) :=
  crashedRun ++ [.started, .call (.upsertProcess { sampleProcess with id := "p3" }), .crash (some (.text "\x7b"))]

theorem encodable_restartedRun : Encodable epochScalars restartedRun := by
  intro event member op here
  subst here
  simp only [restartedRun, crashedRun, List.cons_append, List.nil_append, List.mem_cons, reduceCtorEq,
    StateEvent.call.injEq, false_or, or_false, List.not_mem_nil] at member
  rcases member with rfl | rfl | rfl <;> exact ⟨keepsTime_epoch, by rintro _ ⟨⟩⟩

theorem crash_safe_sample : ∃ (s : SavedState Unit) (loaded : StateStore Unit),
    Run (system epochScalars (fun _ => false) "state.json") fresh restartedRun s ∧
      StateStore.load epochScalars (fun _ => false) s.file = .ok loaded ∧
        loaded.view.process (ofString "p1") = some { sampleProcess with status := .unknown } ∧
          loaded.view.process (ofString "p2") = none ∧ loaded.view.process (ofString "p3") = none := by
  have first : ∃ s, Run (system epochScalars (fun _ => false) "state.json") fresh crashedRun s ∧ s.phase = .down :=
    ⟨_, .step rfl (.step rfl (.step rfl (.step rfl (.step rfl (.step rfl (.step rfl (.step rfl (.refl _)))))))), rfl⟩
  obtain ⟨down, first, off⟩ := first
  -- what the new server starts with is what the theorem says of the first part
  obtain ⟨found, result, -⟩ := (crash_safe epochScalars (fun _ => false) "state.json" (by decide) crashedRun
    (fun event member => encodable_restartedRun event (List.mem_append_left _ member)) down first fun _ _ => rfl).loads
  have started : step epochScalars (fun _ => false) "state.json" down .started =
      some { down with store := found, phase := .ready } := by
    rw [step, if_pos off, result]
    rfl
  have run : ∃ s, Run (system epochScalars (fun _ => false) "state.json") fresh restartedRun s :=
    ⟨_, first.append (.step started (.step rfl (.step rfl (.refl _))))⟩
  obtain ⟨s, run⟩ := run
  obtain ⟨loaded, result, view⟩ := (crash_safe epochScalars (fun _ => false) "state.json" (by decide) restartedRun
    encodable_restartedRun s run fun _ _ => rfl).loads
  refine ⟨s, loaded, run, result, ?_, ?_, ?_⟩ <;> rw [view] <;> rfl

end SavedState

end McpSsh
