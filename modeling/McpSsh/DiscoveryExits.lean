import McpSsh.SessionTeardown

/-!
# Every exit of a discovery

`ssh_discover` around the engine: where an exception can come from, how it travels to the
answer, and what the other tasks of an expansion still do meanwhile. The engine closes
its connections after its loop, and only there, so an exception passes them by.
-/

set_option autoImplicit false

namespace McpSsh

open Base

/-! ## Answers -/

/-- An exception that leaves `discover`. -/
structure Escaped where
  /-- It is an `McpSshError`. -/
  mcpSsh : Bool
  message : String
deriving DecidableEq

/-- `DiscoveryResult`, without the time. -/
structure DiscoveryAnswer where
  session : String
  discovered : List DiscoveredHost
  graph : Dict String (List String)
  skippedEncryptedKeys : List String
  truncated : Bool
  stats : DiscoveryStats

/-- What `ssh_discover` returns. -/
inductive DiscoverPayload where
  | result (answer : DiscoveryAnswer)
  | error (code message : String)

def Engine.answer (p : DiscoveryParams) (s : Engine) : DiscoveryAnswer where
  session := p.session
  discovered := s.discovered
  graph := s.graph
  skippedEncryptedKeys := s.skipped
  truncated := s.truncated
  stats := s.stats

/-- The `except` clauses of `ssh_discover`. -/
def Escaped.payload (e : Escaped) : DiscoverPayload :=
  .error (if e.mcpSsh then "discover_error" else "unexpected_error") e.message

/-- The caller can read the session off the payload. -/
def DiscoverPayload.names (session : String) : DiscoverPayload → Bool
  | .result answer => contains session answer.session
  | .error code message => contains session code || contains session message

/-! ## The call -/

/-- A call of `ssh_discover`: the engine, an exception on its way out, the answer. -/
structure DiscoverCall where
  engine : Engine
  raised : Option Escaped
  payload : Option DiscoverPayload

inductive DiscoverCallEvent where
  | engine (event : DiscoveryEvent)
  | keysRaise (e : Escaped)
  | keysLogRaises (usable : Nat) (skipped : List String) (e : Escaped)
  | crumbsRaise (e : Escaped)
  | dialRaises (task : Nat) (e : Escaped)
  | hostLogRaises (task : Nat) (fingerprint : String) (e : Escaped)
  | completes
  | completedLogRaises (e : Escaped)
  | returns

/-- A step of a task of `_expand`. -/
def DiscoveryEvent.ofTask : DiscoveryEvent → Bool
  | .start .. | .dialed .. => true
  | _ => false

namespace Engine

variable (p : DiscoveryParams)

/-- The dial presents a new host, and there is room for it in the scan and the registry. -/
def PresentsNew (s : Engine) (item : FrontierItem) (addr user fingerprint : String) (registers : Bool) : Prop :=
  fingerprint ∉ s.visitedFps ∧ (s.discovered.length : Int) < p.maxNodes ∧
    (s.register p fingerprint addr item user registers).isSome = true

/-- The event is the end of a dial that registers a host. -/
def Registers (s : Engine) : DiscoveryEvent → Prop
  | .dialed i (.up (some fingerprint)) registers => ∃ item probes addr user, s.phase = .expanding item probes ∧
      probes[i]? = some ⟨addr, .dialing user⟩ ∧ s.PresentsNew p item addr user fingerprint registers
  | _ => False

end Engine

namespace DiscoverCall

variable (p : DiscoveryParams)

def start (store : Store) (keys : Nat) (seeds : List FrontierItem) : DiscoverCall := ⟨.init store keys seeds, none, none⟩

/-- What a step of a call can be. -/
inductive Step (s : DiscoverCall) : DiscoverCallEvent → DiscoverCall → Prop where
  /-- A step of the engine. Once an exception is on its way, only tasks go on. -/
  | engine {event : DiscoveryEvent} {engine : Engine} (pending : s.payload = none)
      (goes : s.raised = none ∨ event.ofTask = true) (stepped : s.engine.step p event = some engine) :
      Step s (.engine event) { s with engine }
  /-- `harvest_remote_keys` raises. -/
  | keysRaise {item : FrontierItem} {e : Escaped} (pending : s.payload = none) (quiet : s.raised = none)
      (phase : s.engine.phase = .harvestingKeys item) (asks : p.harvestKeys = true ∧ item.conn.isSome = true) :
      Step s (.keysRaise e) { s with raised := some e }
  /-- The keys are in, and the audit log raises. -/
  | keysLogRaises {item : FrontierItem} {usable : Nat} {skipped : List String} {e : Escaped} (pending : s.payload = none)
      (quiet : s.raised = none) (phase : s.engine.phase = .harvestingKeys item)
      (asks : p.harvestKeys = true ∧ item.conn.isSome = true) (found : usable ≠ 0 ∨ skipped ≠ []) :
      Step s (.keysLogRaises usable skipped e)
        { s with engine := s.engine.keysHarvested p item usable skipped, raised := some e }
  /-- `harvest_breadcrumbs` or `sweep_host` raises. -/
  | crumbsRaise {item : FrontierItem} {e : Escaped} (pending : s.payload = none) (quiet : s.raised = none)
      (phase : s.engine.phase = .harvesting item) (remote : item.conn.isSome = true) :
      Step s (.crumbsRaise e) { s with raised := some e }
  /-- `connect_candidate` raises; `gather` passes on the first exception of its tasks. -/
  | dialRaises {item : FrontierItem} {probes : List Probe} {i : Nat} {addr user : String} {e : Escaped}
      (pending : s.payload = none) (phase : s.engine.phase = .expanding item probes)
      (task : probes[i]? = some ⟨addr, .dialing user⟩) :
      Step s (.dialRaises i e)
        { s with engine := s.engine.settle item probes i addr (.finished none), raised := s.raised.or (some e) }
  /-- The host is registered and kept, and the audit log raises. -/
  | hostLogRaises {item : FrontierItem} {probes : List Probe} {i : Nat} {addr user fingerprint : String} {e : Escaped}
      (pending : s.payload = none) (phase : s.engine.phase = .expanding item probes)
      (task : probes[i]? = some ⟨addr, .dialing user⟩)
      (found : s.engine.PresentsNew p item addr user fingerprint true) :
      Step s (.hostLogRaises i fingerprint e)
        { s with
          engine := (s.engine.dialed p item probes i addr user (.up (some fingerprint)) true).settle item probes i addr
            (.finished none)
          raised := s.raised.or (some e) }
  | completes (pending : s.payload = none) (quiet : s.raised = none) (phase : s.engine.phase = .finished) :
      Step s .completes { s with payload := some (.result (s.engine.answer p)) }
  /-- The audit log raises for the completed scan. -/
  | completedLogRaises {e : Escaped} (pending : s.payload = none) (quiet : s.raised = none)
      (phase : s.engine.phase = .finished) : Step s (.completedLogRaises e) { s with raised := some e }
  | returns {e : Escaped} (pending : s.payload = none) (raised : s.raised = some e) :
      Step s .returns { s with payload := some e.payload }

def system : System DiscoverCall DiscoverCallEvent := Step p

/-- The connections of the scan are closed, and whatever it registered can be torn down
by the session that the payload names. -/
structure Clean (r₀ : Registry) (s : DiscoverCall) (payload : DiscoverPayload) : Prop where
  closed : ∀ c < s.engine.opened, c ∈ s.engine.closed
  named : ∀ name cfg, s.engine.store.registry.find? name = some cfg → r₀.find? name = some cfg ∨
    carriesTag p.session cfg = true ∧ payload.names p.session = true

/-- Nothing is left behind by this event: an exception comes before the first discovered
host, no other task registers one after it, and the one from the last log call names the
session or there is nothing to name. -/
def Safe (s : DiscoverCall) : DiscoverCallEvent → Prop
  | .keysRaise _ | .keysLogRaises .. | .crumbsRaise _ | .dialRaises .. => s.engine.discovered = []
  | .hostLogRaises .. => False
  | .completedLogRaises e => s.engine.discovered = [] ∨ e.payload.names p.session = true
  | .engine event => s.raised = none ∨ ¬ s.engine.Registers p event
  | .completes | .returns => True

end DiscoverCall

/-! ## What the engine holds -/

/-- The part of the engine that has to be cleaned up. -/
structure Holdings where
  store : Store
  names : List String
  opened : Nat
  openConns : List Nat
  closed : List Nat

namespace Engine

variable {p : DiscoveryParams} {s t : Engine}

def holdings (s : Engine) : Holdings :=
  ⟨s.store, s.discovered.map DiscoveredHost.name, s.opened, s.openConns, s.closed⟩

end Engine

/-- A connection is opened and closed again. -/
def Holdings.closes (h : Holdings) : Holdings := { h with opened := h.opened + 1, closed := h.closed ++ [h.opened] }

/-- A connection is opened and kept, for a host that is registered. -/
def Holdings.Grows (p : DiscoveryParams) (h h' : Holdings) : Prop :=
  ∃ cfg store, carriesTag p.session cfg = true ∧ h.store.addTo p.persist true cfg = .ok store ∧
    h' = ⟨store, h.names ++ [cfg.name], h.opened + 1, h.openConns ++ [h.opened], h.closed⟩

namespace Engine

variable {p : DiscoveryParams} {s t : Engine}

/-- The note of a registration carries the tag of the session. -/
theorem carriesTag_registration (p : DiscoveryParams) (fingerprint addr : String) (via : FrontierItem)
    (username name : String) : carriesTag p.session (registration p fingerprint addr via username name).1 = true :=
  ScanState.carriesTag_of_signedBy (ScanState.signedBy_registration p fingerprint addr via username name)

/-- What the end of a dial does to the holdings. -/
theorem holdings_dialed (s : Engine) (item : FrontierItem) (probes : List Probe) (i : Nat) (addr user : String)
    (result : DialResult) (registers : Bool) :
    ((∃ fingerprint, result = .up (some fingerprint) ∧ s.PresentsNew p item addr user fingerprint registers) →
      s.holdings.Grows p (s.dialed p item probes i addr user result registers).holdings) ∧
    ((¬ ∃ fingerprint, result = .up (some fingerprint) ∧ s.PresentsNew p item addr user fingerprint registers) →
      (s.dialed p item probes i addr user result registers).holdings = s.holdings ∨
        (s.dialed p item probes i addr user result registers).holdings = s.holdings.closes) := by
  cases result with
  | failed => exact ⟨nofun, fun _ => .inl rfl⟩
  | up key =>
    cases key with
    | none => exact ⟨nofun, fun _ => .inr rfl⟩
    | some fingerprint =>
      simp only [dialed, presented]
      split
      · rename_i seen
        refine ⟨?_, fun _ => .inr ?_⟩
        · rintro ⟨_, ⟨⟩, unseen, -⟩
          exact absurd seen unseen
        · have names := map_eq_of_alike (map_bare_recordAddr fingerprint addr s.discovered) DiscoveredHost.name fun _ => rfl
          simp only [settle, holdings, names, Holdings.closes]
      rename_i unseen
      split
      · rename_i full
        refine ⟨?_, fun _ => .inr rfl⟩
        rintro ⟨_, ⟨⟩, -, room, -⟩
        exact absurd full (Int.not_le.mpr room)
      rename_i room
      split
      · rename_i refused
        refine ⟨?_, fun _ => .inr rfl⟩
        rintro ⟨_, ⟨⟩, -, -, accepted⟩
        have none_ : s.register p fingerprint addr item user registers = none := refused
        rw [none_] at accepted
        cases accepted
      · rename_i store name poolReachable done
        have accepted : s.register p fingerprint addr item user registers = some (store, name, poolReachable) := done
        refine ⟨fun _ => ?_, fun none_ =>
          absurd ⟨fingerprint, rfl, unseen, Int.not_le.mp room, by rw [accepted]; rfl⟩ none_⟩
        refine ⟨_, store, carriesTag_registration p fingerprint addr item user name, (register_ok accepted).2, ?_⟩
        simp [holdings, settle, discover, registration]

theorem phase_dialed (s : Engine) (item : FrontierItem) (probes : List Probe) (i : Nat) (addr user : String)
    (result : DialResult) (registers : Bool) :
    (s.dialed p item probes i addr user result registers).phase ≠ .finished := by
  rcases result with _ | _ | fingerprint <;> nofun

/-- The host that an event registers is the one its dial presents. -/
theorem presents_of_registers {item : FrontierItem} {probes : List Probe} {i : Nat} {addr user : String}
    {result : DialResult} {registers : Bool} (phase : s.phase = .expanding item probes)
    (task : probes[i]? = some ⟨addr, .dialing user⟩) (found : s.Registers p (.dialed i result registers)) :
    ∃ fingerprint, result = .up (some fingerprint) ∧ s.PresentsNew p item addr user fingerprint registers := by
  rcases result with _ | _ | fingerprint
  · cases found
  · cases found
  · obtain ⟨item', probes', addr', user', phase', task', new⟩ := found
    cases phase.symm.trans phase'
    cases task.symm.trans task'
    exact ⟨fingerprint, rfl, new⟩

theorem settle_ne_finished (s : Engine) (item : FrontierItem) (probes : List Probe) (i : Nat) (addr : String)
    (state : ProbeState) : (s.settle item probes i addr state).phase ≠ .finished := by
  simp [settle]

theorem start_ne_finished (s : Engine) (item : FrontierItem) (probes : List Probe) (i : Nat) (addr : String)
    (expired : Bool) : (s.start p item probes i addr expired).phase ≠ .finished := by
  unfold start
  split
  · apply settle_ne_finished
  split
  · apply settle_ne_finished
  simp only
  split <;> apply settle_ne_finished

theorem keysHarvested_ne_finished (s : Engine) (item : FrontierItem) (usable : Nat) (skipped : List String) :
    (s.keysHarvested p item usable skipped).phase ≠ .finished := by
  unfold keysHarvested
  split <;> simp

/-- What one step does to the holdings. -/
inductive HoldStep (p : DiscoveryParams) (s : Engine) (event : DiscoveryEvent) (t : Engine) : Prop where
  | registers (found : s.Registers p event) (grows : s.holdings.Grows p t.holdings) (phase : t.phase ≠ .finished)
  | keeps (none_ : ¬ s.Registers p event) (same : t.holdings = s.holdings ∨ t.holdings = s.holdings.closes)
      (phase : t.phase ≠ .finished)
  | finishes (none_ : ¬ s.Registers p event) (loop : event.ofTask = false)
      (closes : t.holdings = { s.holdings with openConns := [], closed := s.closed ++ s.openConns })
      (phase : t.phase = .finished)

theorem holdings_step {event : DiscoveryEvent} (stepped : s.step p event = some t) :
    s.phase ≠ .finished ∧ HoldStep p s event t := by
  cases steps_of_step stepped with
  | exhausted looping => exact ⟨by simp [looping], .finishes id rfl rfl rfl⟩
  | stopped looping => exact ⟨by simp [looping], .finishes id rfl rfl rfl⟩
  | tooDeep looping =>
    have phase : s.phase ≠ .finished := by simp [looping]
    exact ⟨phase, .keeps id (.inl rfl) phase⟩
  | expands looping => exact ⟨by simp [looping], .keeps id (.inl rfl) (by simp)⟩
  | keysHarvested phase =>
    refine ⟨by simp [phase], .keeps id (.inl ?_) (keysHarvested_ne_finished _ _ _ _)⟩
    rw [Engine.keysHarvested]
    split <;> rfl
  | harvested phase => exact ⟨by simp [phase], .keeps id (.inl rfl) (by simp [Engine.harvested])⟩
  | @start i expired item probes addr phase task =>
    refine ⟨by simp [phase], .keeps id (.inl ?_) (start_ne_finished _ _ _ _ _ _)⟩
    rw [Engine.start]
    split
    · rfl
    split
    · rfl
    simp only
    split <;> rfl
  | @dialed i result registers item probes addr user phase task =>
    refine ⟨by simp [phase], ?_⟩
    have outcome := holdings_dialed (p := p) s item probes i addr user result registers
    have phase' := phase_dialed (p := p) s item probes i addr user result registers
    by_cases found : ∃ fingerprint, result = .up (some fingerprint) ∧ s.PresentsNew p item addr user fingerprint registers
    · refine .registers ?_ (outcome.1 found) phase'
      obtain ⟨fingerprint, rfl, new⟩ := found
      exact ⟨item, probes, addr, user, phase, task, new⟩
    · refine .keeps (fun yes => found ?_) (outcome.2 found) phase'
      exact presents_of_registers phase task yes
  | joined phase => exact ⟨by simp [phase], .keeps id (.inl rfl) (by simp)⟩

end Engine

/-! ## The invariant -/

namespace Holdings

/-- Connections are closed or kept, and the entries of the registry are those from before
and those of the listed hosts. -/
structure Held (p : DiscoveryParams) (r₀ : Registry) (h : Holdings) : Prop where
  connections : ∀ c < h.opened, c ∈ h.closed ∨ c ∈ h.openConns
  apart : ∀ c ∈ h.openConns, c < h.opened ∧ c ∉ h.closed
  closed : ∀ c ∈ h.closed, c < h.opened
  kept : ∀ name cfg, r₀.find? name = some cfg → h.store.registry.find? name = some cfg
  added : ∀ name cfg, h.store.registry.find? name = some cfg → r₀.find? name = some cfg ∨
    name ∈ h.names ∧ carriesTag p.session cfg = true
  listed : ∀ name ∈ h.names, r₀.find? name = none ∧ (h.store.registry.find? name).isSome = true

variable {p : DiscoveryParams} {r₀ : Registry} {h h' : Holdings}

theorem Held.closes (held : h.Held p r₀) : h.closes.Held p r₀ where
  connections c below := by
    obtain before | rfl := Nat.lt_succ_iff_lt_or_eq.mp below
    · obtain closed | own := held.connections c before
      · exact .inl (List.mem_append_left _ closed)
      · exact .inr own
    · exact .inl (List.mem_append_right _ (List.mem_singleton_self _))
  apart c own := by
    obtain ⟨below, open_⟩ := held.apart c own
    refine ⟨Nat.lt_succ_of_lt below, fun member => ?_⟩
    obtain old | new := List.mem_append.mp member
    · exact open_ old
    · exact absurd (List.mem_singleton.mp new) (Nat.ne_of_lt below)
  closed c member := by
    obtain old | new := List.mem_append.mp member
    · exact Nat.lt_succ_of_lt (held.closed c old)
    · exact List.mem_singleton.mp new ▸ Nat.lt_succ_self _
  kept := held.kept
  added := held.added
  listed := held.listed

/-- What a name resolves to after an addition. -/
theorem find?_addTo {s s' : Store} {persist writes : Bool} {cfg : ServerConfig}
    (added : s.addTo persist writes cfg = .ok s') (name : String) :
    s'.registry.find? name = if name = cfg.name then some cfg else s.registry.find? name := by
  obtain ⟨free, entries⟩ := Store.addTo_spec added
  have inMemory := entries .ephemeral name
  have inFile := entries .file name
  simp only [Registry.half] at inMemory inFile
  rw [Registry.find?, inMemory, inFile]
  by_cases here : name = cfg.name
  · subst here
    have memory := Registry.half_eq_none_of_find? free .ephemeral
    have file := Registry.half_eq_none_of_find? free .file
    simp only [Registry.half] at memory file
    cases persist <;> simp [Half.of, memory, file]
  · simp [here, Registry.find?]

theorem Held.grows (held : h.Held p r₀) (grown : h.Grows p h') : h'.Held p r₀ := by
  obtain ⟨cfg, store, tagged, added, rfl⟩ := grown
  have free := (Store.addTo_spec added).1
  have found := find?_addTo added
  have new : r₀.find? cfg.name = none := by
    cases before : r₀.find? cfg.name with
    | none => rfl
    | some old => exact absurd (free.symm.trans (held.kept _ old before)) nofun
  refine ⟨fun c below => ?_, fun c own => ?_, fun c member => Nat.lt_succ_of_lt (held.closed c member),
    fun name entry there => ?_, fun name entry there => ?_, fun name member => ?_⟩
  · obtain before | rfl := Nat.lt_succ_iff_lt_or_eq.mp below
    · obtain closed | own := held.connections c before
      · exact .inl closed
      · exact .inr (List.mem_append_left _ own)
    · exact .inr (List.mem_append_right _ (List.mem_singleton_self _))
  · obtain old | new := List.mem_append.mp own
    · obtain ⟨below, open_⟩ := held.apart c old
      exact ⟨Nat.lt_succ_of_lt below, open_⟩
    · cases List.mem_singleton.mp new
      exact ⟨Nat.lt_succ_self _, fun member => Nat.lt_irrefl _ (held.closed _ member)⟩
  · have other : name ≠ cfg.name := by
      rintro rfl
      exact absurd (new.symm.trans there) nofun
    rw [found, if_neg other]
    exact held.kept name entry there
  · rw [found] at there
    split at there
    · rename_i here
      cases there
      exact .inr ⟨List.mem_append_right _ (here ▸ List.mem_singleton_self _), tagged⟩
    · obtain before | ⟨member, carries⟩ := held.added name entry there
      · exact .inl before
      · exact .inr ⟨List.mem_append_left _ member, carries⟩
  · rw [found]
    obtain old | last := List.mem_append.mp member
    · obtain ⟨before, now_⟩ := held.listed name old
      refine ⟨before, ?_⟩
      split
      · rfl
      · exact now_
    · cases List.mem_singleton.mp last
      exact ⟨new, by rw [if_pos rfl]; rfl⟩

theorem Held.finish (held : h.Held p r₀) :
    Held p r₀ { h with openConns := [], closed := h.closed ++ h.openConns } where
  connections c below := .inl (List.mem_append.mpr (held.connections c below))
  apart := nofun
  closed c member := by
    obtain old | own := List.mem_append.mp member
    · exact held.closed c old
    · exact (held.apart c own).1
  kept := held.kept
  added := held.added
  listed := held.listed

end Holdings

/-- The invariant of the engine: its loop keeps one connection for each host, until it
closes them. -/
structure Engine.Holds (p : DiscoveryParams) (r₀ : Registry) (s : Engine) : Prop where
  held : s.holdings.Held p r₀
  open_ : s.phase ≠ .finished → s.holdings.openConns.length = s.holdings.names.length
  done : s.phase = .finished → s.holdings.openConns = []

namespace Engine

variable {p : DiscoveryParams} {r₀ : Registry} {s t : Engine}

theorem holds_init (p : DiscoveryParams) (store : Store) (keys : Nat) (seeds : List FrontierItem) :
    (init store keys seeds).Holds p store.registry where
  held := ⟨nofun, nofun, nofun, fun _ _ found => found, fun _ _ found => .inl found, nofun⟩
  open_ _ := rfl
  done _ := rfl

theorem Holds.keeps (holds : s.Holds p r₀) (same : t.holdings = s.holdings ∨ t.holdings = s.holdings.closes)
    (before : s.phase ≠ .finished) (after : t.phase ≠ .finished) : t.Holds p r₀ := by
  obtain same | same := same
  · exact ⟨same ▸ holds.held, fun _ => same ▸ holds.open_ before, fun done => absurd done after⟩
  · exact ⟨same ▸ holds.held.closes, fun _ => same ▸ holds.open_ before, fun done => absurd done after⟩

theorem Holds.grows (holds : s.Holds p r₀) (grown : s.holdings.Grows p t.holdings) (before : s.phase ≠ .finished)
    (after : t.phase ≠ .finished) : t.Holds p r₀ ∧ t.holdings.names ≠ [] ∧ t.holdings.openConns ≠ [] := by
  have held := holds.held.grows grown
  obtain ⟨cfg, store, -, -, result⟩ := grown
  refine ⟨⟨held, fun _ => ?_, fun done => absurd done after⟩, ?_, ?_⟩
  · rw [result, List.length_append, List.length_append, holds.open_ before]
    rfl
  · rw [result]
    exact List.append_ne_nil_of_right_ne_nil _ nofun
  · rw [result]
    exact List.append_ne_nil_of_right_ne_nil _ nofun

theorem Holds.step (holds : s.Holds p r₀) {event : DiscoveryEvent} (stepped : s.step p event = some t) :
    t.Holds p r₀ := by
  obtain ⟨before, step⟩ := holdings_step stepped
  cases step with
  | registers _ grown after => exact (holds.grows grown before after).1
  | keeps _ same after => exact holds.keeps same before after
  | finishes _ _ closes after =>
    refine ⟨closes ▸ holds.held.finish, fun going => absurd after going, fun _ => ?_⟩
    rw [closes]

end Engine

/-! ## The call -/

namespace DiscoverCall

variable {p : DiscoveryParams} {r₀ : Registry} {s t : DiscoverCall} {event : DiscoverCallEvent}

/-- What holds between any two steps of a call. -/
structure Inv (p : DiscoveryParams) (r₀ : Registry) (s : DiscoverCall) : Prop where
  engine : s.engine.Holds p r₀
  answered : ∀ payload, s.payload = some payload →
    (s.raised = none ∧ s.engine.phase = .finished ∧ payload = .result (s.engine.answer p)) ∨
      ∃ e, s.raised = some e ∧ payload = e.payload

/-- An exception is on its way that leaves something behind. -/
def Spoiled (p : DiscoveryParams) (s : DiscoverCall) : Prop :=
  ∃ e, s.raised = some e ∧ s.engine.holdings.names ≠ [] ∧
    (s.engine.holdings.openConns ≠ [] ∨ e.payload.names p.session = false)

/-- Nothing is open and what is registered can be found. -/
theorem clean_of_closed (holds : s.engine.Holds p r₀) (none_ : s.engine.holdings.openConns = []) {payload : DiscoverPayload}
    (named : s.engine.holdings.names = [] ∨ payload.names p.session = true) : Clean p r₀ s payload where
  closed c below := by
    obtain closed | own := holds.held.connections c below
    · exact closed
    · rw [none_] at own
      cases own
  named name cfg found := by
    obtain before | ⟨listed, tagged⟩ := holds.held.added name cfg found
    · exact .inl before
    · obtain none_ | named := named
      · rw [none_] at listed
        cases listed
      · exact .inr ⟨tagged, named⟩

/-- A connection that is kept, or a host that is registered, is left behind. -/
theorem not_clean (holds : s.engine.Holds p r₀) {payload : DiscoverPayload} (names : s.engine.holdings.names ≠ [])
    (behind : s.engine.holdings.openConns ≠ [] ∨ payload.names p.session = false) : ¬ Clean p r₀ s payload := by
  intro clean
  obtain own | unnamed := behind
  · obtain ⟨c, own⟩ := List.exists_mem_of_ne_nil _ own
    obtain ⟨below, open_⟩ := holds.held.apart c own
    exact open_ (clean.closed c below)
  · obtain ⟨name, listed⟩ := List.exists_mem_of_ne_nil _ names
    obtain ⟨new, there⟩ := holds.held.listed name listed
    obtain ⟨cfg, found⟩ := Option.isSome_iff_exists.mp there
    obtain before | ⟨-, named⟩ := clean.named name cfg found
    · cases new.symm.trans before
    · cases unnamed.symm.trans named

/-- Each registered host has its connection until the end. -/
theorem openConns_eq_nil (holds : s.engine.Holds p r₀) (none_ : s.engine.holdings.names = []) :
    s.engine.holdings.openConns = [] := by
  by_cases phase : s.engine.phase = .finished
  · exact holds.done phase
  · apply List.eq_nil_of_length_eq_zero
    rw [holds.open_ phase, none_]
    rfl

/-- **A returned call is clean unless it is spoiled.** -/
theorem clean_iff_not_spoiled (inv : Inv p r₀ s) {payload : DiscoverPayload} (returned : s.payload = some payload) :
    Clean p r₀ s payload ↔ ¬ Spoiled p s := by
  obtain ⟨engine, answered⟩ := inv
  obtain ⟨quiet, phase, rfl⟩ | ⟨e, raised, rfl⟩ := answered payload returned
  · have self : contains p.session p.session = true := decide_eq_true (List.infix_refl _)
    refine iff_of_true (clean_of_closed engine (engine.done phase) (.inr self)) ?_
    rintro ⟨e, raised, -⟩
    rw [quiet] at raised
    cases raised
  · constructor
    · rintro clean ⟨_, raised', names, behind⟩
      cases raised.symm.trans raised'
      exact not_clean engine names behind clean
    · intro spared
      by_cases none_ : s.engine.holdings.names = []
      · exact clean_of_closed engine (openConns_eq_nil engine none_) (.inl none_)
      · have noConns : s.engine.holdings.openConns = [] := by
          by_contra own
          exact spared ⟨e, raised, none_, .inl own⟩
        have named : e.payload.names p.session = true := by
          by_contra unnamed
          exact spared ⟨e, raised, none_, .inr (Bool.eq_false_iff.mpr unnamed)⟩
        exact clean_of_closed engine noConns (.inr named)

theorem inv_start (p : DiscoveryParams) (store : Store) (keys : Nat) (seeds : List FrontierItem) :
    Inv p store.registry (start store keys seeds) := ⟨Engine.holds_init p store keys seeds, nofun⟩

theorem Inv.of_pending {engine : Engine} {raised : Option Escaped} (holds : engine.Holds p r₀)
    (pending : s.payload = none) : Inv p r₀ { s with engine, raised } := by
  refine ⟨holds, fun payload given => ?_⟩
  rw [show ({ s with engine, raised } : DiscoverCall).payload = s.payload from rfl, pending] at given
  cases given

/-- A host that is registered and then not logged. -/
theorem grows_of_hostLog {item : FrontierItem} {probes : List Probe} {i : Nat} {addr user fingerprint : String}
    (found : s.engine.PresentsNew p item addr user fingerprint true) :
    s.engine.holdings.Grows p ((s.engine.dialed p item probes i addr user (.up (some fingerprint)) true).settle item
      probes i addr (.finished none)).holdings :=
  (Engine.holdings_dialed s.engine item probes i addr user (.up (some fingerprint)) true).1 ⟨fingerprint, rfl, found⟩

theorem Inv.step (inv : Inv p r₀ s) (stepped : Step p s event t) : Inv p r₀ t := by
  cases stepped with
  | engine pending goes stepped => exact .of_pending (inv.engine.step stepped) pending
  | keysRaise pending => exact .of_pending inv.engine pending
  | @keysLogRaises item usable skipped e pending quiet phase =>
    have stepped : s.engine.step p (.keysHarvested usable skipped) = some (s.engine.keysHarvested p item usable skipped) := by
      rw [Engine.step, phase]
    exact .of_pending (inv.engine.step stepped) pending
  | crumbsRaise pending => exact .of_pending inv.engine pending
  | dialRaises pending phase =>
    have before : s.engine.phase ≠ .finished := by simp [phase]
    exact .of_pending (inv.engine.keeps (.inl rfl) before (Engine.settle_ne_finished _ _ _ _ _ _)) pending
  | hostLogRaises pending phase task found =>
    have before : s.engine.phase ≠ .finished := by simp [phase]
    apply Inv.of_pending _ pending
    exact (inv.engine.grows (grows_of_hostLog found) before (Engine.settle_ne_finished _ _ _ _ _ _)).1
  | completes pending quiet phase =>
    refine ⟨inv.engine, fun payload given => .inl ⟨quiet, phase, ?_⟩⟩
    exact (Option.some.inj given).symm
  | completedLogRaises pending => exact .of_pending inv.engine pending
  | returns pending raised => exact ⟨inv.engine, fun payload given => .inr ⟨_, raised, (Option.some.inj given).symm⟩⟩

/-! ### What spoils a call -/

theorem names_ne_nil_iff {s : Engine} : s.holdings.names ≠ [] ↔ s.discovered ≠ [] :=
  not_congr List.map_eq_nil_iff

/-- An exception out of the loop spoils the call once something was discovered. -/
theorem spoiled_of_raise {e : Escaped} (holds : t.engine.Holds p r₀) (after : t.engine.phase ≠ .finished)
    (raised : t.raised = some e) (same : t.engine.discovered = s.engine.discovered) :
    Spoiled p t ↔ Spoiled p s ∨ ¬ s.engine.discovered = [] := by
  constructor
  · rintro ⟨_, -, names, -⟩
    exact .inr (same ▸ names_ne_nil_iff.mp names)
  · intro spoils
    have found : t.engine.discovered ≠ [] := by
      rw [same]
      obtain ⟨_, -, names, -⟩ | found := spoils
      · exact names_ne_nil_iff.mp names
      · exact found
    have names := names_ne_nil_iff.mpr found
    refine ⟨e, raised, names, .inl fun none_ => names ?_⟩
    apply List.eq_nil_of_length_eq_zero
    rw [← holds.open_ after, none_]
    rfl

theorem spoiled_engine (inv : Inv p r₀ s) {event : DiscoveryEvent} {engine : Engine}
    (goes : s.raised = none ∨ event.ofTask = true) (stepped : s.engine.step p event = some engine) :
    Spoiled p { s with engine } ↔ Spoiled p s ∨ ¬ Safe p s (.engine event) := by
  cases raised : s.raised with
  | none =>
    have quiet : ∀ u : DiscoverCall, u.raised = none → ¬ Spoiled p u := by
      rintro u none_ ⟨e, some_, -⟩
      rw [none_] at some_
      cases some_
    refine iff_of_false (quiet _ rfl) ?_
    rintro (spoiled | unsafe_)
    · exact quiet s raised spoiled
    · exact unsafe_ (.inl raised)
  | some e =>
    obtain ⟨before, step⟩ := Engine.holdings_step stepped
    cases step with
    | registers found grown after =>
      obtain ⟨-, names, conns⟩ := inv.engine.grows grown before after
      refine iff_of_true ⟨e, rfl, names, .inl conns⟩ (.inr ?_)
      rintro (quiet | none_)
      · cases raised.symm.trans quiet
      · exact none_ found
    | keeps none_ same after =>
      have safe : Safe p s (.engine event) := .inr none_
      rw [or_iff_left (not_not.mpr safe)]
      have names : engine.holdings.names = s.engine.holdings.names := by
        obtain same | same := same
        · rw [same]
        · exact same ▸ rfl
      have conns : engine.holdings.openConns = s.engine.holdings.openConns := by
        obtain same | same := same
        · rw [same]
        · exact same ▸ rfl
      rw [Spoiled, Spoiled, names, conns, raised]
    | finishes _ loop =>
      obtain quiet | task := goes
      · cases raised.symm.trans quiet
      · cases loop.symm.trans task

/-- **A step spoils the call exactly when it is not safe.** -/
theorem spoiled_step (inv : Inv p r₀ s) (stepped : Step p s event t) :
    Spoiled p t ↔ Spoiled p s ∨ ¬ Safe p s event := by
  have inv' := inv.step stepped
  cases stepped with
  | engine pending goes stepped => exact spoiled_engine inv goes stepped
  | keysRaise pending quiet phase => exact spoiled_of_raise inv'.engine (by simp [phase]) rfl rfl
  | keysLogRaises pending quiet phase =>
    refine spoiled_of_raise inv'.engine (Engine.keysHarvested_ne_finished _ _ _ _) rfl ?_
    rw [Engine.keysHarvested]
    split <;> rfl
  | crumbsRaise pending quiet phase => exact spoiled_of_raise inv'.engine (by simp [phase]) rfl rfl
  | @dialRaises item probes i addr user e pending phase =>
    cases raised : s.raised with
    | none =>
      rw [raised] at inv'
      exact spoiled_of_raise inv'.engine (Engine.settle_ne_finished _ _ _ _ _ _) rfl rfl
    | some first =>
      rw [raised] at inv'
      exact spoiled_of_raise inv'.engine (Engine.settle_ne_finished _ _ _ _ _ _) rfl rfl
  | @hostLogRaises item probes i addr user fingerprint e pending phase task found =>
    have before : s.engine.phase ≠ .finished := by simp [phase]
    obtain ⟨-, names, conns⟩ :=
      inv.engine.grows (grows_of_hostLog found) before (Engine.settle_ne_finished _ item probes i addr (.finished none))
    refine iff_of_true ?_ (.inr id)
    cases raised : s.raised with
    | none => exact ⟨e, rfl, names, .inl conns⟩
    | some first => exact ⟨first, rfl, names, .inl conns⟩
  | completes => exact (or_iff_left (not_not.mpr trivial)).symm
  | @completedLogRaises e pending quiet phase =>
    have noConns := inv.engine.done phase
    constructor
    · rintro ⟨_, ⟨⟩, names, own | unnamed⟩
      · exact absurd noConns own
      · refine .inr fun safe => ?_
        obtain none_ | named := safe
        · exact names_ne_nil_iff.mp names none_
        · cases unnamed.symm.trans named
    · rintro (⟨_, raised, -⟩ | unsafe_)
      · cases quiet.symm.trans raised
      · obtain ⟨found, unnamed⟩ := not_or.mp unsafe_
        exact ⟨e, rfl, names_ne_nil_iff.mpr found, .inr (Bool.eq_false_iff.mpr unnamed)⟩
  | returns => exact (or_iff_left (not_not.mpr trivial)).symm

/-- **A call cleans up behind itself exactly when all its steps are safe.** -/
theorem clean_iff_run {store : Store} {keys : Nat} {seeds : List FrontierItem} {events : List DiscoverCallEvent}
    (run : Run (system p) (start store keys seeds) events s) {payload : DiscoverPayload}
    (returned : s.payload = some payload) :
    Clean p store.registry s payload ↔ Run (guard (system p) (Safe p)) (start store keys seeds) events s := by
  have initial := inv_start p store keys seeds
  have keep : ∀ s event t, Inv p store.registry s → Step p s event t → Inv p store.registry t :=
    fun s event t inv stepped => inv.step stepped
  have spared : ¬ Spoiled p (start store keys seeds) := by
    rintro ⟨_, ⟨⟩, -⟩
  rw [clean_iff_not_spoiled (run.preserves keep initial) returned]
  exact (run.guard_iff keep (fun s event t inv stepped => spoiled_step inv stepped) initial spared).symm

/-- A scan of one injected address. -/
def injectedScan : DiscoveryParams := { ScanState.sampleSession with injected := ["10.0.0.5"] }

/-- The local seed, and the host that it reveals. -/
def injectedEvents : List DiscoverCallEvent :=
  [.engine (.turn false), .engine (.keysHarvested 0 []), .engine (.harvested []), .engine (.start 0 false),
    .engine (.dialed 0 (.up (some "SHA256:1")) true), .engine .joined, .engine (.turn false),
    .engine (.keysHarvested 0 []), .engine (.harvested []), .engine .joined, .engine (.turn false), .completes]

theorem clean_iff_run_injected : ∃ s payload, Run (system injectedScan) (start .blank 1 [⟨localSeed, none, 0, true⟩])
    injectedEvents s ∧ s.engine.discovered.map DiscoveredHost.addrs = [["10.0.0.5"]] ∧
      Clean injectedScan Store.blank.registry s payload := by
  have run : ∃ s payload, Run (system injectedScan) (start .blank 1 [⟨localSeed, none, 0, true⟩]) injectedEvents s ∧
      s.payload = some payload ∧ s.engine.discovered.map DiscoveredHost.addrs = [["10.0.0.5"]] ∧
      Run (guard (system injectedScan) (Safe injectedScan)) (start .blank 1 [⟨localSeed, none, 0, true⟩])
        injectedEvents s := by
    refine ⟨_, _, .step (.engine rfl (.inl rfl) rfl) (.step (.engine rfl (.inl rfl) rfl) (.step (.engine rfl (.inl rfl) rfl)
      (.step (.engine rfl (.inl rfl) rfl) (.step (.engine rfl (.inl rfl) rfl) (.step (.engine rfl (.inl rfl) rfl)
      (.step (.engine rfl (.inl rfl) rfl) (.step (.engine rfl (.inl rfl) rfl) (.step (.engine rfl (.inl rfl) rfl)
      (.step (.engine rfl (.inl rfl) rfl) (.step (.engine rfl (.inl rfl) rfl) (.step (.completes rfl rfl rfl)
      (.refl _)))))))))))), rfl, by decide +kernel, ?_⟩
    exact .step ⟨.engine rfl (.inl rfl) rfl, .inl rfl⟩ (.step ⟨.engine rfl (.inl rfl) rfl, .inl rfl⟩
      (.step ⟨.engine rfl (.inl rfl) rfl, .inl rfl⟩ (.step ⟨.engine rfl (.inl rfl) rfl, .inl rfl⟩
      (.step ⟨.engine rfl (.inl rfl) rfl, .inl rfl⟩ (.step ⟨.engine rfl (.inl rfl) rfl, .inl rfl⟩
      (.step ⟨.engine rfl (.inl rfl) rfl, .inl rfl⟩ (.step ⟨.engine rfl (.inl rfl) rfl, .inl rfl⟩
      (.step ⟨.engine rfl (.inl rfl) rfl, .inl rfl⟩ (.step ⟨.engine rfl (.inl rfl) rfl, .inl rfl⟩
      (.step ⟨.engine rfl (.inl rfl) rfl, .inl rfl⟩ (.step ⟨.completes rfl rfl rfl, trivial⟩ (.refl _))))))))))))
  obtain ⟨s, payload, run, returned, found, safe⟩ := run
  exact ⟨s, payload, run, found, (clean_iff_run run returned).mpr safe⟩

/-- **The audit log raises for a discovered host**, and its connection stays open. -/
theorem unlogged_host_kept : ¬ ∀ (p : DiscoveryParams) (store : Store) (keys : Nat) (seeds : List FrontierItem)
    (events : List DiscoverCallEvent) (s : DiscoverCall) (payload : DiscoverPayload),
    Run (system p) (start store keys seeds) events s → s.payload = some payload → Clean p store.registry s payload := by
  intro claim
  have new : (Engine.init .blank 1 []).PresentsNew injectedScan ⟨localSeed, none, 0, true⟩ "10.0.0.5" "root" "SHA256:1" true :=
    ⟨nofun, by decide, by decide +kernel⟩
  have clean := claim injectedScan .blank 1 [⟨localSeed, none, 0, true⟩]
    [.engine (.turn false), .engine (.keysHarvested 0 []), .engine (.harvested []), .engine (.start 0 false),
      .hostLogRaises 0 "SHA256:1" ⟨false, "disk full"⟩, .returns] _ _
    (.step (.engine rfl (.inl rfl) rfl) (.step (.engine rfl (.inl rfl) rfl) (.step (.engine rfl (.inl rfl) rfl)
      (.step (.engine rfl (.inl rfl) rfl) (.step (.hostLogRaises rfl rfl rfl new)
        (.step (.returns rfl rfl) (.refl _))))))) rfl
  cases clean.closed 0 Nat.zero_lt_one

end DiscoverCall

end McpSsh
