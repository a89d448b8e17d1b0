import McpSsh.StateRecordsBack
import Mathlib.Data.List.Induction

/-!
# State that comes back

What a run of upserts leaves in the state file, a new store loads: every record as it was
upserted last, with its status unknown, and the topology set last.
-/

set_option autoImplicit false

namespace McpSsh

open Base Json State

/-! ## Runs -/

/-- A call that changes the store. -/
inductive StateOp (φ : Type) where
  | upsertProcess (r : ProcessRecord)
  | upsertSession (r : SessionRecord)
  | setTopology (t : State.TopologyResult φ)

/-- A store and its file, which may be missing. -/
structure Persisted (φ : Type) where
  store : StateStore φ
  file : Option FileContent

namespace StateStore

variable {φ : Type}

def apply (s : StateStore φ) : StateOp φ → StateStore φ
  | .upsertProcess r => s.upsertProcess r
  | .upsertSession r => s.upsertSession r
  | .setTopology t => s.setTopology t

end StateStore

namespace Persisted

variable {φ : Type} (c : Scalars φ)

/-- A fresh store without a file. -/
def fresh : Persisted φ := ⟨.empty, none⟩

/-- Every call writes the whole state to the file. -/
def after (s : Persisted φ) (op : StateOp φ) : Persisted φ :=
  ⟨s.store.apply op, some (.text ((s.store.apply op).persist c))⟩

/-- The store and its file after a sequence of calls. -/
def run (ops : List (StateOp φ)) : Persisted φ := ops.foldl (after c) fresh

end Persisted

namespace StateOp

variable {φ : Type}

/-- The record that was upserted last under an id. -/
def lastProcess (ops : List (StateOp φ)) (id : String) : Option ProcessRecord :=
  ops.reverse.findSome? fun
    | .upsertProcess r => if r.id = id then some r else none
    | _ => none

def lastSession (ops : List (StateOp φ)) (id : String) : Option SessionRecord :=
  ops.reverse.findSome? fun
    | .upsertSession r => if r.id = id then some r else none
    | _ => none

def lastTopology (ops : List (StateOp φ)) : Option (State.TopologyResult φ) :=
  ops.reverse.findSome? fun
    | .setTopology t => some t
    | _ => none

/-- The times and floats of the call's record are encoded faithfully. -/
def Kept (c : Scalars φ) : StateOp φ → Prop
  | .upsertProcess r => ProcessKept c r
  | .upsertSession r => SessionKept c r
  | .setTopology t => t.Kept c

end StateOp

/-! ## What the store holds -/

theorem findSome?_snoc {α β : Type} (f : α → Option β) (l : List α) (a : α) :
    (l ++ [a]).reverse.findSome? f = (f a).or (l.reverse.findSome? f) := by
  rw [List.reverse_append, List.reverse_singleton, List.singleton_append, List.findSome?_cons]
  cases f a <;> rfl

namespace StateStore

variable {φ : Type} {c : Scalars φ}

/-- The records of the store are those that a run upserted last. -/
structure Holds (s : StateStore φ) (ops : List (StateOp φ)) : Prop where
  processes : ∀ key r, s.processes.get? key = some r ↔ ∃ id, key = ofString id ∧ StateOp.lastProcess ops id = some r
  sessions : ∀ key r, s.sessions.get? key = some r ↔ ∃ id, key = ofString id ∧ StateOp.lastSession ops id = some r
  topology : s.topology = StateOp.lastTopology ops

/-- The records of the store can be dumped and read back. -/
structure Kept (c : Scalars φ) (s : StateStore φ) : Prop where
  processes : ∀ e ∈ s.processes.items, ProcessKept c e.2
  sessions : ∀ e ∈ s.sessions.items, SessionKept c e.2
  topology : ∀ t, s.topology = some t → t.Kept c

theorem holds_empty : (empty : StateStore φ).Holds [] := by
  refine ⟨fun key r => ?_, fun key r => ?_, rfl⟩
  · simp [empty, StateOp.lastProcess]
  · simp [empty, StateOp.lastSession]

/-- A record under its id, or what was there. -/
theorem get?_insert_iff {α : Type} {d : Dict PyString α} {last : String → Option α} {name : String} {record : α}
    (held : ∀ key r, d.get? key = some r ↔ ∃ id, key = ofString id ∧ last id = some r) (key : PyString) (r : α) :
    (d.insert (ofString name) record).get? key = some r ↔
      ∃ id, key = ofString id ∧ (if name = id then some record else last id) = some r := by
  rw [Dict.get?_insert]
  by_cases same : key = ofString name
  · subst same
    rw [if_pos rfl]
    constructor
    · exact fun found => ⟨name, rfl, (if_pos rfl).trans found⟩
    · rintro ⟨id, names, found⟩
      rwa [if_pos (ofString_inj.mp names)] at found
  · rw [if_neg same, held]
    refine exists_congr fun id => and_congr_right fun names => ?_
    rw [if_neg fun here => same (names.trans (congrArg ofString here.symm))]

theorem Holds.apply {s : StateStore φ} {ops : List (StateOp φ)} (held : s.Holds ops) (op : StateOp φ) :
    (s.apply op).Holds (ops ++ [op]) := by
  obtain ⟨processes, sessions, topology⟩ := held
  cases op with
  | upsertProcess r =>
    refine ⟨fun key record => ?_, fun key record => ?_, ?_⟩
    · simp only [StateOp.lastProcess, findSome?_snoc]
      refine (get?_insert_iff processes key record).trans (exists_congr fun id => and_congr_right fun _ => ?_)
      by_cases same : r.id = id <;> simp [same, StateOp.lastProcess]
    · simp only [StateOp.lastSession, findSome?_snoc, Option.none_or]
      exact sessions key record
    · simp only [StateOp.lastTopology, findSome?_snoc, Option.none_or]
      exact topology
  | upsertSession r =>
    refine ⟨fun key record => ?_, fun key record => ?_, ?_⟩
    · simp only [StateOp.lastProcess, findSome?_snoc, Option.none_or]
      exact processes key record
    · simp only [StateOp.lastSession, findSome?_snoc]
      refine (get?_insert_iff sessions key record).trans (exists_congr fun id => and_congr_right fun _ => ?_)
      by_cases same : r.id = id <;> simp [same, StateOp.lastSession]
    · simp only [StateOp.lastTopology, findSome?_snoc, Option.none_or]
      exact topology
  | setTopology t =>
    refine ⟨fun key record => ?_, fun key record => ?_, ?_⟩
    · simp only [StateOp.lastProcess, findSome?_snoc, Option.none_or]
      exact processes key record
    · simp only [StateOp.lastSession, findSome?_snoc, Option.none_or]
      exact sessions key record
    · simp only [StateOp.lastTopology, findSome?_snoc, Option.some_or]
      rfl

theorem Kept.apply {s : StateStore φ} (kept : s.Kept c) {op : StateOp φ} (new : op.Kept c) : (s.apply op).Kept c := by
  obtain ⟨processes, sessions, topology⟩ := kept
  cases op with
  | upsertProcess r =>
    refine ⟨fun e member => ?_, sessions, topology⟩
    obtain rfl | ⟨-, old⟩ := Dict.mem_items_insert.mp member
    · exact new
    · exact processes e old
  | upsertSession r =>
    refine ⟨processes, fun e member => ?_, topology⟩
    obtain rfl | ⟨-, old⟩ := Dict.mem_items_insert.mp member
    · exact new
    · exact sessions e old
  | setTopology t =>
    refine ⟨processes, sessions, ?_⟩
    rintro _ ⟨⟩
    exact new

/-! ## What is loaded -/

/-- **Entries with distinct keys** are collected if they validate. -/
theorem get?_collect {α : Type} {validate : Value → Option α} {update : α → α} {entries : Fields}
    (distinct : (entries.map Prod.fst).Nodup) (id : PyString) : (collect validate update entries).get? id =
      ((entries.find? fun e => e.1 = id).bind fun e => validate e.2).map update := by
  have from_ : ∀ d : Dict PyString α, (entries.foldl (fun d e =>
      (validate e.2).elim d fun record => d.insert e.1 (update record)) d).get? id =
        (((entries.find? fun e => e.1 = id).bind fun e => validate e.2).map update).or (d.get? id) := by
    induction entries with
    | nil => simp
    | cons e entries ih =>
      intro d
      rw [List.map_cons, List.nodup_cons] at distinct
      rw [List.foldl_cons, ih distinct.2, List.find?_cons]
      by_cases here : e.1 = id
      · have later : entries.find? (fun e => e.1 = id) = none := by
          rw [List.find?_eq_none]
          intro f member same
          refine distinct.1 (List.mem_map.mpr ⟨f, member, ?_⟩)
          rw [here]
          simpa using same
        cases valid : validate e.2 <;> simp [here, later, valid]
      · cases valid : validate e.2 <;> simp [here, Ne.symm here, Dict.get?_insert]
  rw [collect, from_ Dict.empty]
  simp

section

variable {s : StateStore φ}

/-- The items of a dictionary that was dumped. -/
theorem find?_dumped {α : Type} (d : Dict PyString α) (dump : α → Value) (id : PyString) :
    ((d.items.map fun e => (e.1, dump e.2)).find? fun e => e.1 = id) = (d.get? id).map fun r => (id, dump r) := by
  rw [List.find?_map, Dict.get?, Option.map_map]
  show Option.map _ (d.items.find? fun e => e.1 = id) = _
  cases found : d.items.find? fun e => e.1 = id with
  | none => rfl
  | some e =>
    have same : e.1 = id := by simpa using List.find?_some found
    simp [← same]

theorem nodup_dumped {α : Type} (d : Dict PyString α) (dump : α → Value) :
    ((d.items.map fun e => (e.1, dump e.2)).map Prod.fst).Nodup := by
  rw [List.map_map]
  exact d.nodup

/-- **Dumped records are collected again**, with the update. -/
theorem collect_dumped {α : Type} {d : Dict PyString α} {dump : α → Value} {validate : Value → Option α}
    (update : α → α) (back : ∀ e ∈ d.items, validate (dump e.2) = some e.2) (id : PyString) :
    (collect validate update (d.items.map fun e => (e.1, dump e.2))).get? id = (d.get? id).map update := by
  rw [get?_collect (nodup_dumped d dump), find?_dumped]
  cases found : d.get? id with
  | none => rfl
  | some r =>
    have valid := back _ (Dict.get?_eq_some_iff.mp found)
    simp [show validate (dump r) = some r from valid]

/-- An object of dumped records can be written, if its keys are texts. -/
theorem dumpable_dumped {α : Type} {d : Dict PyString α} {dump : α → Value}
    (named : ∀ key ∈ d.keys, ∃ id, key = ofString id) (dumpable : ∀ r, Dumpable (dump r)) :
    Dumpable (.obj (d.items.map fun e => (e.1, dump e.2))) := by
  refine .obj (nodup_dumped d dump) (fun f member => ?_) fun f member => ?_
  · obtain ⟨e, inside, rfl⟩ := List.mem_map.mp member
    exact named e.1 (List.mem_map_of_mem inside)
  · obtain ⟨e, inside, rfl⟩ := List.mem_map.mp member
    exact dumpable e.2

theorem Kept.dumpable (kept : s.Kept c)
    (named : ∀ key, key ∈ s.processes.keys ∨ key ∈ s.sessions.keys → ∃ id, key = ofString id) :
    Dumpable (s.payload c) := by
  refine dumpable_object (by simp) ?_
  simp only [List.forall_mem_cons]
  exact ⟨.int _, dumpable_dumped (fun key member => named key (.inl member)) dumpable_dumpProcess,
    dumpable_dumped (fun key member => named key (.inr member)) dumpable_dumpSession,
    dumpable_nullable fun t given => dumpable_dumpTopology (kept.topology t given), by simp⟩

/-- **A persisted store is loaded**, with every status unknown. -/
theorem load_persist (kept : s.Kept c)
    (named : ∀ key, key ∈ s.processes.keys ∨ key ∈ s.sessions.keys → ∃ id, key = ofString id)
    {exceeds : String → Bool} (within : exceeds (s.persist c) = false) :
    ∃ loaded, load c exceeds (some (.text (s.persist c))) = .ok loaded ∧
      (∀ key, loaded.processes.get? key = (s.processes.get? key).map unknownProcess) ∧
      (∀ key, loaded.sessions.get? key = (s.sessions.get? key).map unknownSession) ∧ loaded.topology = s.topology := by
  have read : loads (s.persist c) = some (s.payload c) := loads_dumps (kept.dumpable named)
  have processes := @collect_dumped _ s.processes (dumpProcess c) (validateProcess c) unknownProcess
    fun e member => validateProcess_dump (kept.processes e member)
  have sessions := @collect_dumped _ s.sessions (dumpSession c) (validateSession c) unknownSession
    fun e member => validateSession_dump (kept.sessions e member)
  have topology : (some (nullable (dumpTopology c) s.topology)).bind (validateTopology c) = s.topology := by
    cases given : s.topology with
    | none => rfl
    | some t => exact validateTopology_dump (kept.topology t given)
  refine ⟨⟨_, _, (some (nullable (dumpTopology c) s.topology)).bind (validateTopology c)⟩, ?_, processes, sessions,
    topology⟩
  simp only [load, within, read, payload, object, versionOf, itemsOf, field_object]
  rfl

end

end StateStore

namespace Persisted

variable {φ : Type} {c : Scalars φ}

/-- A run's file holds its store. -/
theorem run_spec {ops : List (StateOp φ)} (kept : ∀ op ∈ ops, op.Kept c) :
    (run c ops).store.Holds ops ∧ (run c ops).store.Kept c ∧
      (run c ops).file = if ops = [] then none else some (.text ((run c ops).store.persist c)) := by
  induction ops using List.reverseRecOn with
  | nil => exact ⟨StateStore.holds_empty, ⟨by rintro _ ⟨⟩, by rintro _ ⟨⟩, by rintro _ ⟨⟩⟩, rfl⟩
  | append_singleton ops op ih =>
    obtain ⟨held, good, -⟩ := ih fun op member => kept op (List.mem_append_left _ member)
    have last : run c (ops ++ [op]) = (run c ops).after c op := by simp [run]
    rw [last]
    exact ⟨held.apply op, good.apply (kept op (by simp)), by simp [after]⟩

end Persisted

/-- The records that are loaded, by those that were upserted last. -/
theorem restored_iff {α : Type} {d loaded : Dict PyString α} {last : String → Option α} {update : α → α}
    (held : ∀ key r, d.get? key = some r ↔ ∃ id, key = ofString id ∧ last id = some r)
    (updated : ∀ key, loaded.get? key = (d.get? key).map update) (key : PyString) (record : α) :
    loaded.get? key = some record ↔ ∃ id r, key = ofString id ∧ last id = some r ∧ record = update r := by
  rw [updated, Option.map_eq_some_iff]
  constructor
  · rintro ⟨r, found, rfl⟩
    obtain ⟨id, name, is⟩ := (held key r).mp found
    exact ⟨id, r, name, is, rfl⟩
  · rintro ⟨id, r, name, is, rfl⟩
    exact ⟨r, (held key r).mpr ⟨id, name, is⟩, rfl⟩

/-- The loaded store has exactly the records upserted last, with their status unknown, and
the topology set last. -/
structure StateStore.Restores {φ : Type} (loaded : StateStore φ) (ops : List (StateOp φ)) : Prop where
  processes : ∀ key record, loaded.processes.get? key = some record ↔
    ∃ id r, key = ofString id ∧ StateOp.lastProcess ops id = some r ∧ record = { r with status := .unknown }
  sessions : ∀ key record, loaded.sessions.get? key = some record ↔
    ∃ id r, key = ofString id ∧ StateOp.lastSession ops id = some r ∧ record = { r with status := .unknown }
  topology : loaded.topology = StateOp.lastTopology ops

/-- **What a run of calls has stored, a new store loads**, if the times and floats are
encoded faithfully. -/
theorem load_run {φ : Type} (c : Scalars φ) (exceeds : String → Bool) (ops : List (StateOp φ))
    (kept : ∀ op ∈ ops, op.Kept c) (within : ∀ s, (Persisted.run c ops).file = some (.text s) → exceeds s = false) :
    ∃ loaded, StateStore.load c exceeds (Persisted.run c ops).file = .ok loaded ∧ loaded.Restores ops := by
  obtain ⟨held, good, file⟩ := Persisted.run_spec kept
  by_cases none_ : ops = []
  · subst none_
    refine ⟨.empty, rfl, ⟨fun key record => ?_, fun key record => ?_, rfl⟩⟩
    · simp [StateStore.empty, StateOp.lastProcess]
    · simp [StateStore.empty, StateOp.lastSession]
  · rw [if_neg none_] at file
    have named : ∀ key, key ∈ (Persisted.run c ops).store.processes.keys ∨
        key ∈ (Persisted.run c ops).store.sessions.keys → ∃ id, key = ofString id := by
      rintro key (member | member)
      · obtain ⟨r, found⟩ := Dict.mem_keys_iff.mp member
        obtain ⟨id, name, -⟩ := (held.processes key r).mp found
        exact ⟨id, name⟩
      · obtain ⟨r, found⟩ := Dict.mem_keys_iff.mp member
        obtain ⟨id, name, -⟩ := (held.sessions key r).mp found
        exact ⟨id, name⟩
    obtain ⟨loaded, result, processes, sessions, topology⟩ :=
      StateStore.load_persist good named (within _ file)
    rw [file]
    refine ⟨loaded, result, ⟨fun key record => ?_, fun key record => ?_, topology.trans held.topology⟩⟩
    · exact restored_iff held.processes processes key record
    · exact restored_iff held.sessions sessions key record

/-- Scalars of which one time and one float occur. -/
def epochScalars : Scalars Unit where
  coerceInt _ := none
  coerceBool _ := none
  coerceFloat _ := none
  readFloat literal := if literal = "1.5" then some () else none
  writeFloat _ := "1.5"
  readTime v := if State.asStr v = some "1970-01-01T00:00:00Z" then some ⟨0, some 0⟩ else none
  writeTime _ := "1970-01-01T00:00:00Z"

theorem keepsTime_epoch : KeepsTime epochScalars ⟨0, some 0⟩ := by
  unfold KeepsTime
  decide

def sampleProcess : ProcessRecord :=
  { id := "p1", server := "web", command := "make", remotePid := 7, logFile := "/tmp/p1.log", exitFile := "/tmp/p1.exit",
    startedAt := ⟨0, some 0⟩, status := .running }

theorem keepsFloat_half (x : Unit) : KeepsFloat epochScalars x := by
  refine ⟨⟨[], ['1'], ['.', '5'], [], ?_, by simp, .inr ⟨by simp, List.forall_mem_singleton.mpr rfl, by simp⟩,
    .inr ⟨['5'], rfl, by simp, List.forall_mem_singleton.mpr rfl⟩, .inl rfl, by simp⟩, rfl⟩
  show "1.5".toList = ['1', '.', '5']
  decide

/-- A process that ends, another one, and a scanned edge. -/
def sampleRun : List (StateOp Unit) :=
  [.upsertProcess sampleProcess, .upsertProcess { sampleProcess with id := "p2" },
    .upsertProcess { sampleProcess with status := .exited, exitCode := some 0 },
    .setTopology { scannedAt := ⟨0, some 0⟩
                   edges := [{ fromNode := "local", toNode := "web", reachable := true, via := some "10.0.0.1"
                               addresses := [{ addr := "10.0.0.1", port := 22, state := .reachable
                                               latencyMs := some () }] }] }]

theorem kept_sampleRun : ∀ op ∈ sampleRun, op.Kept epochScalars := by
  have process : ∀ record : ProcessRecord, record.startedAt = ⟨0, some 0⟩ → record.lastChecked = none →
      (StateOp.upsertProcess record : StateOp Unit).Kept epochScalars := by
    intro record started unchecked
    refine ⟨started ▸ keepsTime_epoch, fun t checked => ?_⟩
    cases unchecked.symm.trans checked
  refine List.forall_mem_cons.mpr ⟨process _ rfl rfl, List.forall_mem_cons.mpr ⟨process _ rfl rfl,
    List.forall_mem_cons.mpr ⟨process _ rfl rfl, List.forall_mem_singleton.mpr ⟨keepsTime_epoch, ?_⟩⟩⟩⟩
  rintro edge - probe - x -
  exact keepsFloat_half x

theorem load_run_sample : ∃ loaded,
    StateStore.load epochScalars (fun _ => false) (Persisted.run epochScalars sampleRun).file = .ok loaded ∧
      loaded.Restores sampleRun :=
  load_run epochScalars (fun _ => false) sampleRun kept_sampleRun fun _ _ => rfl

end McpSsh
