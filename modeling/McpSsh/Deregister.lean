import McpSsh.PoolStatus
import Mathlib.Data.List.Perm.Basic

/-!
# Deregistering a server

`ssh_deregister_server` and the pool. The call changes the registry only: connections
stay, and so do calls in progress. What it cuts are the calls of `get_connection` that ask
for the server later, directly or for a jump host.
-/

set_option autoImplicit false

namespace McpSsh

open Base

/-- `ConnectionPool.get_status`. -/
def Slots.getStatus (slots : Slots) (r : Registry) (name : String) : Except McpSshError ConnectionStatus :=
  match slots.get? name with
  | some slot => .ok slot.status
  | none => (r.get name).map fun _ => .disconnected

/-- The answer of `ssh_deregister_server`. -/
inductive Deregistration where
  | serverNotFound (name : String)
  | registryError (e : McpSshError)
  /-- With the warning of an active connection, or without. -/
  | deregistered (name : String) (warning : Bool)

/-- Whether `ssh_deregister_server` warns. -/
def World.active (w : World) (name : String) : Bool :=
  match w.slots.getStatus w.store.registry name with
  | .ok status => status = .connected
  | .error _ => false

/-- `ssh_deregister_server`. -/
def deregisterServer (writes : Bool) (w : World) (name : String) : World × Deregistration :=
  match w.store.registry.get name with
  | .error _ => (w, .serverNotFound name)
  | .ok _ =>
    match w.store.remove writes name with
    | .error e => (w, .registryError e)
    | .ok store => ({ w with store }, .deregistered name (w.active name))

/-! ## Calls that ask for a server -/

section

variable (ctx : PoolContext) (r : Registry) (closed : List ConnId) (hosts : HostsFile) (slots : Slots)

/-- A call for `x` goes through these servers, one after the other, and then asks for
`name`: none of them has a connection to hand out, and each can be dialed as configured. -/
def Passes (name : String) : String → List String → Prop
  | x, [] => x = name
  | x, hop :: hops => x = hop ∧ ∃ cfg args jump, r.find? hop = some cfg ∧ slots.pooled closed hop = none ∧
      connectArgs ctx hosts cfg = .ok args ∧ cfg.jumpHost = some jump ∧ Passes name jump hops

/-- A call for `x` in the state of a pool. -/
def World.Passes (ctx : PoolContext) (w : World) (name x : String) (hops : List String) : Prop :=
  McpSsh.Passes ctx w.store.registry w.closed w.hosts w.slots name x hops

end

namespace World

/-- The servers that calls in progress dial or wait for. -/
def underway (w : World) : List Frame := w.tasks.flatten

def opened (name : String) (w : World) : Nat := w.conns.countP fun conn => conn.name = name

/-- The connections that were opened for a server, and the calls that may still open one. -/
def demand (name : String) (w : World) : Nat := w.opened name + w.underway.countP fun frame => frame.name = name

/-- No operation registers the server again. -/
def StaysOut (rt : Runtime) (name : String) (w : World) (event : PoolEvent) : Prop :=
  ∀ op, event = .registry op → (w.store.after rt op).registry.find? name = none

/-- What the deregistration of `name` changes. -/
structure Deregisters (ctx : PoolContext) (name : String) (w t : World) : Prop where
  pool : t = { w with store := t.store }
  others : ∀ other, other ≠ name → t.store.registry.find? other = w.store.registry.find? other
  own : t.store.registry.find? name = w.store.registry.ephemeral.get? name
  apart : ∀ x fuel, (∀ hops, ¬ w.Passes ctx name x hops) →
    enter ctx t.store.registry t.closed t.hosts fuel x t.slots = enter ctx w.store.registry w.closed w.hosts fuel x w.slots

/-- What holds while `name` is not registered, of the pool `t` when it was deregistered and
the pool `w` later: every call that comes to ask for it is refused, and no connection is
opened for it but by the calls that were underway. -/
structure CutOff (ctx : PoolContext) (name : String) (t w : World) : Prop where
  refused : ∀ x hops, w.Passes ctx name x hops → hops.length < ctx.recursionLimit →
    (enter ctx w.store.registry w.closed w.hosts ctx.recursionLimit x w.slots).progress =
        .raised (.mcpSsh (.serverNotFound name)) ∧
      ∀ other, (enter ctx w.store.registry w.closed w.hosts ctx.recursionLimit x w.slots).slots.status other =
        if other ∈ hops then .disconnected else w.slots.status other
  dials : w.opened name ≤ t.opened name + t.underway.countP fun frame => frame.name = name

end World

section

variable {ctx : PoolContext} {r r' : Registry} {closed : List ConnId} {hosts : HostsFile} {slots : Slots} {name : String}

theorem passes_congr {slots' : Slots} (same : ∀ name, slots'.pooled closed name = slots.pooled closed name) {x : String}
    {hops : List String} : Passes ctx r closed hosts slots' name x hops ↔ Passes ctx r closed hosts slots name x hops := by
  induction hops generalizing x with
  | nil => rfl
  | cons hop hops ih => simp only [Passes, same, ih]

/-- A call that comes to ask for a server that is not registered. -/
theorem descent_of_passes (gone : r.find? name = none) {fuel : Nat} {x : String} {hops : List String}
    (passes : Passes ctx r closed hosts slots name x hops) (short : hops.length < fuel) :
    (descent ctx r closed hosts slots fuel x).names = hops ∧
      (descent ctx r closed hosts slots fuel x).stop = some (.mcpSsh (.serverNotFound name)) := by
  induction hops generalizing x fuel with
  | nil =>
    obtain rfl : x = name := passes
    obtain ⟨fuel, rfl⟩ := Nat.exists_eq_succ_of_ne_zero (Nat.ne_of_gt short)
    simp [descent, gone, Descent.names]
  | cons hop hops ih =>
    obtain ⟨rfl, cfg, args, jump, found, idle, made, jumps, onward⟩ := passes
    obtain ⟨fuel, rfl⟩ := Nat.exists_eq_succ_of_ne_zero (Nat.ne_of_gt (Nat.zero_lt_of_lt short))
    obtain ⟨names, stop⟩ := ih onward (Nat.lt_of_succ_lt_succ short)
    simp only [descent, found, idle, made, jumps, Option.isSome_none, Bool.false_eq_true, if_false]
    exact ⟨congrArg (x :: ·) names, stop⟩

/-- A call that does not come to ask for a server does not depend on its entry. -/
theorem enter_congr (same : ∀ other, other ≠ name → r'.find? other = r.find? other) {fuel : Nat} {x : String}
    {slots : Slots} (apart : ∀ hops, ¬ Passes ctx r closed hosts slots name x hops) :
    enter ctx r' closed hosts fuel x slots = enter ctx r closed hosts fuel x slots := by
  induction fuel generalizing x slots with
  | zero => rfl
  | succ fuel ih =>
    have other : x ≠ name := fun here => apart [] here
    have looked : r'.get x = r.get x := by rw [Registry.get, Registry.get, same x other]
    unfold enter
    rw [looked]
    split
    · rfl
    rename_i cfg resolved
    split
    · rfl
    rename_i idle
    split
    · rfl
    rename_i args made
    split
    · rfl
    rename_i jump jumps
    have inner : ∀ hops, ¬ Passes ctx r closed hosts (slots.setStatus x .connecting) name jump hops := by
      intro hops passes
      rw [passes_congr (pooled_connecting idle)] at passes
      exact apart (x :: hops) ⟨rfl, cfg, args, jump, Registry.get_ok_iff.mp resolved, idle, made, jumps, passes⟩
    simp only [ih inner]

/-- What a call enters is registered. -/
theorem find?_of_mem_entered {fuel : Nat} {x : String} {entry : String × ServerConfig}
    (member : entry ∈ (descent ctx r closed hosts slots fuel x).entered) : r.find? entry.1 = some entry.2 := by
  induction fuel generalizing x with
  | zero => cases member
  | succ fuel ih =>
    unfold descent at member
    split at member
    · cases member
    rename_i cfg found
    split at member
    · cases member
    split at member
    · obtain rfl := List.mem_singleton.mp member
      exact found
    split at member
    · obtain rfl := List.mem_singleton.mp member
      exact found
    · obtain rfl | later := List.mem_cons.mp member
      · exact found
      · exact ih later

/-- A call that waits waits for registered servers only. -/
theorem entered_of_suspended {fuel : Nat} {x : String} {frames : List Frame}
    (suspended : (enter ctx r closed hosts fuel x slots).progress = .suspended frames) {frame : Frame}
    (member : frame ∈ frames) : r.find? frame.name = some frame.cfg := by
  have follows := enter_follows ctx r closed hosts fuel x slots
  cases stop : (descent ctx r closed hosts slots fuel x).stop with
  | some e =>
    rw [(follows.stopped e stop).2] at suspended
    cases suspended
  | none =>
    obtain ⟨-, -, ⟨-, c, returned⟩ | ⟨frames', suspended', names⟩⟩ := follows.goesOn stop
    · rw [suspended] at returned
      cases returned
    · obtain rfl := Progress.suspended.inj (suspended.symm.trans suspended')
      have listed : (frame.name, frame.cfg) ∈ frames.map fun f => (f.name, f.cfg) := List.mem_map_of_mem member
      rw [names, List.mem_reverse] at listed
      exact find?_of_mem_entered listed

end

namespace World

variable {ctx : PoolContext} {rt : Runtime} {w w' : World} {name : String}

/-! ## The call itself -/

theorem deregisterServer_ok {writes warning : Bool} {answered : String}
    (done : deregisterServer writes w name = (w', .deregistered answered warning)) :
    ∃ store, w.store.remove writes name = .ok store ∧ w' = { w with store } ∧ answered = name ∧
      warning = w.active name := by
  unfold deregisterServer at done
  split at done
  · cases done
  split at done
  · cases done
  · rename_i store removed
    cases done
    exact ⟨store, removed, rfl, rfl, rfl⟩

theorem active_iff : w.active name = true ↔ w.slots.status name = .connected := by
  unfold active Slots.getStatus Slots.status Slots.slot
  cases w.slots.get? name with
  | some slot => simp
  | none => cases w.store.registry.get name <;> simp [Except.map]

theorem deregisters_of_removed {writes : Bool} {store : Store} (removed : w.store.remove writes name = .ok store) :
    w.Deregisters ctx name { w with store } := by
  obtain ⟨-, -, rfl⟩ := Store.remove_ok_iff.mp removed
  have others : ∀ other, other ≠ name →
      Registry.find? { w.store.registry with config := w.store.withoutServer name } other =
        w.store.registry.find? other := by
    intro other apart
    simp [Registry.find?, Store.withoutServer, Dict.get?_erase, apart]
  refine ⟨rfl, others, ?_, fun x fuel apart => enter_congr others apart⟩
  simp [Registry.find?, Store.withoutServer, Dict.get?_erase]

/-- An exception that is passed on arrives as it was. -/
theorem unwind_passes_snd (slots : Slots) {e : PoolError} (passes : e.passes = true) (names : List String) :
    (Slots.unwind names (slots, e)).2 = e := by
  induction names generalizing slots with
  | nil => rfl
  | cons name names ih =>
    rw [Slots.unwind, List.foldl_cons, Slots.handleFailure_passes slots name passes]
    exact ih _

/-! ## Calls underway -/

/-- Taking a call from the list. -/
theorem underway_perm {task : Nat} {frames : List Frame} (call : w.tasks[task]? = some frames) :
    w.underway.Perm (frames ++ (w.tasks.eraseIdx task).flatten) := by
  obtain ⟨bound, rfl⟩ := List.getElem?_eq_some_iff.mp call
  exact ((List.getElem_cons_eraseIdx_perm bound).flatten).symm

theorem demand_get (out : w.store.registry.find? name = none) (x : String) :
    (w.get ctx x).demand name = w.demand name := by
  unfold demand opened underway World.get
  dsimp only
  split
  · rename_i frames suspended
    have none_ : frames.countP (fun frame => frame.name = name) = 0 := by
      rw [List.countP_eq_zero]
      intro frame member named
      have entered := entered_of_suspended suspended member
      rw [of_decide_eq_true named, out] at entered
      cases entered
    rw [List.flatten_append, List.countP_append, List.flatten_singleton, none_, Nat.add_zero]
  · rfl

theorem demand_fail {task : Nat} {frames : List Frame} (call : w.tasks[task]? = some frames) (e : PoolError) :
    (w.fail task frames e).demand name + frames.countP (fun frame => frame.name = name) = w.demand name := by
  have split := (underway_perm call).countP_eq fun frame => frame.name = name
  rw [List.countP_append] at split
  unfold demand opened underway at *
  simp only [World.fail]
  omega

theorem demand_deliver {task : Nat} {frame : Frame} {rest : List Frame} (call : w.tasks[task]? = some (frame :: rest))
    (c : ConnId) : (w.deliver task frame rest c).demand name + (if frame.name = name then 1 else 0) = w.demand name := by
  have split := (underway_perm call).countP_eq fun frame => frame.name = name
  obtain ⟨bound, -⟩ := List.getElem?_eq_some_iff.mp call
  have now : (w.deliver task frame rest c).underway.countP (fun frame => frame.name = name) =
      rest.countP (fun frame => frame.name = name) +
        (w.tasks.eraseIdx task).flatten.countP (fun frame => frame.name = name) := by
    cases rest with
    | nil => simp [underway, deliver]
    | cons outer rest =>
      have replaced := ((List.set_perm_cons_eraseIdx bound
        ({ outer with args := { outer.args with tunnel := some c } } :: rest)).flatten).countP_eq
          fun frame => frame.name = name
      rw [List.flatten_cons, List.countP_append, List.countP_cons] at replaced
      rw [List.countP_cons]
      exact replaced
  rw [List.countP_append, List.countP_cons] at split
  have same : (w.deliver task frame rest c).opened name = w.opened name := rfl
  unfold demand
  rw [now, same]
  simp only [decide_eq_true_eq] at split
  omega

/-- A connection is counted where it is opened. -/
theorem demand_afterDial (frame : Frame) (outcome : DialOutcome) :
    (w.afterDial frame outcome).demand name ≤ w.demand name + if frame.name = name then 1 else 0 := by
  cases outcome with
  | failed e lost => exact Nat.le_add_right _ _
  | up key appends lost =>
    have one : ((w.afterDial frame (.up key appends lost)).opened name) =
        w.opened name + if frame.name = name then 1 else 0 := by
      simp [opened, afterDial, List.countP_append, List.countP_singleton]
    have same : (w.afterDial frame (.up key appends lost)).underway = w.underway := rfl
    unfold demand
    rw [one, same]
    omega

/-- The call that dialed is no longer counted, the connection is. -/
theorem demand_dialed {task : Nat} {frame : Frame} {rest : List Frame} (call : w.tasks[task]? = some (frame :: rest))
    (outcome : DialOutcome) : (w.dialed ctx task frame rest outcome).demand name ≤ w.demand name := by
  have counted := @demand_afterDial w name frame outcome
  have waits : (w.afterDial frame outcome).tasks[task]? = some (frame :: rest) := by rw [tasks_afterDial, call]
  cases result : outcome.result ctx w.hosts frame.cfg with
  | error e =>
    have spent := @demand_fail _ name _ _ waits e
    rw [List.countP_cons] at spent
    simp only [decide_eq_true_eq] at spent
    rw [dialed_error result]
    omega
  | ok hosts =>
    have spent := @demand_deliver { w.afterDial frame outcome with hosts } name _ _ _ waits w.conns.length
    have same : ({ w.afterDial frame outcome with hosts } : World).demand name = (w.afterDial frame outcome).demand name :=
      rfl
    rw [dialed_ok result]
    omega

/-- What one step does to the registry, the connections and the calls underway. -/
theorem step_cases {event : PoolEvent} (stepped : w.step ctx rt event = some w') :
    (w'.tasks = w.tasks ∧ w'.conns = w.conns ∧
        (w'.store = w.store ∨ ∃ op, event = .registry op ∧ w'.store = w.store.after rt op)) ∨
      (∃ x, w' = w.get ctx x) ∨
      ∃ task frame rest outcome, w.tasks[task]? = some (frame :: rest) ∧ w' = w.dialed ctx task frame rest outcome := by
  cases event with
  | get x =>
    cases stepped
    exact .inr (.inl ⟨x, rfl⟩)
  | dialed task outcome =>
    obtain ⟨frame, rest, found, rfl⟩ := step_dialed stepped
    exact .inr (.inr ⟨task, frame, rest, outcome, found, rfl⟩)
  | registry op =>
    cases stepped
    exact .inl ⟨rfl, rfl, .inr ⟨op, rfl, rfl⟩⟩
  | lost c =>
    obtain ⟨conn, -, -, rfl⟩ := step_lost stepped
    exact .inl ⟨rfl, rfl, .inl rfl⟩
  | closed call =>
    obtain ⟨x, c, -, -, rfl⟩ := step_closed stepped
    exact .inl ⟨rfl, rfl, .inl rfl⟩
  | close x =>
    cases stepped
    refine .inl ?_
    unfold World.close
    split
    · exact ⟨rfl, rfl, .inl rfl⟩
    split
    · split <;> exact ⟨rfl, rfl, .inl rfl⟩
    · exact ⟨rfl, rfl, .inl rfl⟩
  | pin x =>
    cases stepped
    exact .inl ⟨rfl, rfl, .inl rfl⟩
  | unpin x =>
    cases stepped
    exact .inl ⟨rfl, rfl, .inl rfl⟩
  | edit hosts =>
    cases stepped
    exact .inl ⟨rfl, rfl, .inl rfl⟩

theorem store_dialed (task : Nat) (frame : Frame) (rest : List Frame) (outcome : DialOutcome) :
    (w.dialed ctx task frame rest outcome).store = w.store := by
  cases result : outcome.result ctx w.hosts frame.cfg with
  | error e =>
    rw [dialed_error result]
    exact store_afterDial frame outcome
  | ok hosts =>
    rw [dialed_ok result]
    exact store_afterDial frame outcome

/-- **What a step keeps while the server is not registered again**: it is not found, and
no more connections are opened for it than calls were underway. -/
theorem out_step (out : w.store.registry.find? name = none) {event : PoolEvent}
    (stepped : guard (system ctx rt) (StaysOut rt name) w event w') :
    w'.store.registry.find? name = none ∧ w'.demand name ≤ w.demand name := by
  obtain ⟨stepped, stays⟩ := stepped
  rcases step_cases stepped with ⟨tasks, conns, kept⟩ | ⟨x, rfl⟩ | ⟨task, frame, rest, outcome, call, rfl⟩
  · have same : w'.demand name = w.demand name := by
      unfold demand opened underway
      rw [tasks, conns]
    refine ⟨?_, Nat.le_of_eq same⟩
    rcases kept with same | ⟨op, rfl, same⟩
    · rw [same, out]
    · rw [same]
      exact stays op rfl
  · exact ⟨out, Nat.le_of_eq (demand_get out x)⟩
  · rw [store_dialed]
    exact ⟨out, demand_dialed call outcome⟩

/-- The calls that come to ask for a server that is not registered. -/
theorem refused_of_out (out : w.store.registry.find? name = none) {x : String} {hops : List String}
    (passes : w.Passes ctx name x hops) (short : hops.length < ctx.recursionLimit) :
    (enter ctx w.store.registry w.closed w.hosts ctx.recursionLimit x w.slots).progress =
        .raised (.mcpSsh (.serverNotFound name)) ∧
      ∀ other, (enter ctx w.store.registry w.closed w.hosts ctx.recursionLimit x w.slots).slots.status other =
        if other ∈ hops then .disconnected else w.slots.status other := by
  obtain ⟨names, stop⟩ := descent_of_passes out passes short
  have follows := enter_follows ctx w.store.registry w.closed w.hosts ctx.recursionLimit x w.slots
  obtain ⟨slots, progress⟩ := follows.stopped _ stop
  rw [names] at slots progress
  refine ⟨progress.trans (congrArg _ (unwind_passes_snd _ rfl _)), fun other => ?_⟩
  rw [slots, Slots.unwind_passes _ _ rfl, Slots.status_connecting]
  by_cases here : other ∈ hops <;> simp [here]

/-- **Deregistering a server cuts what asks for it later, and nothing else**: a call of
`ssh_deregister_server` that answers so changes the registry only, where the other servers
resolve as before. The calls that do not come to ask for the server go as before; if it
was not registered in memory as well, then in every run in which it is not registered
again every call that does is refused, and the only connections that are opened for the
server belong to calls that were underway. -/
theorem deregister_cuts (ctx : PoolContext) (rt : Runtime) (writes warning : Bool) (w t : World) (name answered : String)
    (done : deregisterServer writes w name = (t, .deregistered answered warning)) :
    (answered = name ∧ (warning = true ↔ w.slots.status name = .connected)) ∧ w.Deregisters ctx name t ∧
      (w.store.registry.ephemeral.get? name = none → ∀ events w',
        Run (guard (system ctx rt) (StaysOut rt name)) t events w' → t.CutOff ctx name w') := by
  obtain ⟨store, removed, rfl, same, rfl⟩ := deregisterServer_ok done
  have changed := @deregisters_of_removed ctx _ _ _ _ removed
  refine ⟨⟨same, active_iff⟩, changed, fun alone events w' run => ?_⟩
  have keep : ∀ (v : World) (event : PoolEvent) (v' : World),
      v.store.registry.find? name = none ∧ v.demand name ≤ World.demand name { w with store } →
        guard (system ctx rt) (StaysOut rt name) v event v' →
          v'.store.registry.find? name = none ∧ v'.demand name ≤ World.demand name { w with store } := by
    rintro v event v' ⟨out, less⟩ stepped
    obtain ⟨out', less'⟩ := out_step out stepped
    exact ⟨out', less'.trans less⟩
  obtain ⟨out, less⟩ := run.preserves keep ⟨changed.own.trans alone, Nat.le_refl _⟩
  exact ⟨fun x hops passes short => refused_of_out out passes short, (Nat.le_add_right _ _).trans less⟩

/-- A server and its jump host in the file; a call for the server dials the jump host. -/
def dialingChain : World :=
  (start ((Store.blank.after .inert (.add bastionServer true)).after .inert (.add innerServer true)) .missing).get
    sampleContext "inner"

/-- The jump host is deregistered while it is dialed: the dial succeeds, and a call for
the jump host itself is refused although its connection is open. -/
theorem deregister_cuts_bastion : ∃ t w,
    deregisterServer true dialingChain "bastion" = (t, .deregistered "bastion" false) ∧
    Run (guard (system sampleContext .inert) (StaysOut .inert "bastion")) t [.dialed 0 (.up none true false)] w ∧
      t.CutOff sampleContext "bastion" w ∧ w.opened "bastion" = 1 ∧
        (enter sampleContext w.store.registry w.closed w.hosts sampleContext.recursionLimit "bastion" w.slots).progress =
          .raised (.mcpSsh (.serverNotFound "bastion")) := by
  obtain ⟨t, done⟩ : ∃ t, deregisterServer true dialingChain "bastion" = (t, .deregistered "bastion" false) := ⟨_, rfl⟩
  have run : ∃ w, Run (guard (system sampleContext .inert) (StaysOut .inert "bastion")) t
      [.dialed 0 (.up none true false)] w ∧ w.opened "bastion" = 1 := by
    obtain rfl : t = _ := (congrArg Prod.fst done).symm
    refine ⟨_, .step ⟨rfl, ?_⟩ (.refl _), by decide +kernel⟩
    intro op other
    cases other
  obtain ⟨w, run, one⟩ := run
  have cutOff := (deregister_cuts sampleContext .inert _ _ _ _ _ _ done).2.2 rfl _ _ run
  exact ⟨t, w, done, run, cutOff, one, (cutOff.refused "bastion" [] rfl (by decide)).1⟩

end World

end McpSsh
