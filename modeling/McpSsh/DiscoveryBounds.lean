import McpSsh.DiscoveryCompleteness
import Mathlib.Tactic.Ring

/-!
# Every scan ends

A scan pays for each of its steps out of what it has in hand: an item of the frontier is
expanded once, an address is dialed at most once, and only a host that is discovered
brings a new item. So the bound on the hosts bounds the whole scan, whatever the network
reveals, and in the meantime some task can always go on.
-/

set_option autoImplicit false

namespace McpSsh

open Base

/-! ## What is left to do -/

/-- How many steps a task has yet to take; an item it brings takes four of its own. -/
def ProbeState.cost : ProbeState → Nat
  | waiting => 2
  | dialing _ => 1
  | finished none => 0
  | finished (some _) => 4

/-- The steps of the tasks. -/
def probesCost (probes : List Probe) : Nat := (probes.map fun probe => probe.state.cost).sum

/-- The steps that the phase has yet to take, the turn that ends the scan included. -/
def Phase.cost : Phase → Nat
  | looping => 1
  | harvestingKeys _ => 4
  | harvesting _ => 3
  | expanding _ probes => 2 + probesCost probes
  | finished => 0

/-- How many items the task brought. -/
def ProbeState.found : ProbeState → Nat
  | finished (some _) => 1
  | _ => 0

/-- What the task holds of the semaphore. -/
def ProbeState.holds : ProbeState → Nat
  | dialing _ => 1
  | _ => 0

/-- The items that the tasks brought. -/
def foundItems (probes : List Probe) : Nat := (probes.map fun probe => probe.state.found).sum

/-- The items in the hands of the loop, before their expansion and after it. -/
def Phase.inHand : Phase → Nat
  | harvestingKeys _ | harvesting _ => 1
  | expanding _ probes => foundItems probes
  | looping | finished => 0

namespace Engine

/-- The steps that the scan has yet to take for what it has in hand. -/
def potential (s : Engine) : Nat := 4 * s.frontier.length + s.phase.cost

/-- The steps that what it found has cost or will cost. -/
def credit (s : Engine) : Nat := 2 * s.visitedIps.length + 4 * s.discovered.length

/-- What holds of a scan after these events. -/
structure Bounded (p : DiscoveryParams) (seeds : List FrontierItem) (events : List DiscoveryEvent) (s : Engine) :
    Prop where
  /-- Two steps for an address, four for an item, and the last turn. -/
  steps : events.length ≤ 4 * (seeds.length + s.discovered.length) + 2 * s.visitedIps.length + 1
  nodes : s.discovered.length ≤ p.maxNodes.toNat
  /-- An item is expanded once, and only seeds and discovered hosts are items. -/
  expansions : s.expansions.length ≤ seeds.length + s.discovered.length
  /-- No address is dialed twice, from whichever hosts it is revealed. -/
  once : (s.dials.map DialRecord.addr).Nodup
  revealed : ∀ d ∈ s.dials, ∃ e ∈ s.expansions, d.addr ∈ e.2
  /-- The visited addresses, which the steps are counted by, are the revealed ones, each once. -/
  visited : s.visitedIps.Nodup ∧ ∀ addr, addr ∈ s.visitedIps ↔ ∃ e ∈ s.expansions, addr ∈ e.2
  /-- So many dials wait for the network at a time. -/
  concurrent : ∀ item probes, s.phase = .expanding item probes → (running probes : Int) ≤ max 1 p.concurrency
  /-- As long as the scan is not finished, something can happen. -/
  goesOn : s.phase ≠ .finished → ∃ event t, s.step p event = some t

/-! ## What a step of a task pays -/

variable {p : DiscoveryParams} {seeds : List FrontierItem} {s t : Engine}

/-- What a task may do to the counts: it pays one step, and an item that it brings is a
discovered host. -/
structure TaskPays (addr : String) (s s' : Engine) (before state : ProbeState) : Prop where
  visited : s'.visitedIps = s.visitedIps
  frontier : s'.frontier = s.frontier
  expansions : s'.expansions = s.expansions
  pays : 1 + state.cost + 4 * s.discovered.length ≤ before.cost + 4 * s'.discovered.length
  brings : state.found + s.discovered.length ≤ before.found + s'.discovered.length
  dials : ∃ ds : List DialRecord, s'.dials = s.dials ++ ds ∧
    (ds.map DialRecord.addr ++ Probe.pending ⟨addr, state⟩).Sublist [addr]

theorem length_recordAddr (fingerprint addr : String) (hosts : List DiscoveredHost) :
    (recordAddr fingerprint addr hosts).length = hosts.length := by
  have same := congrArg List.length (map_bare_recordAddr fingerprint addr hosts)
  simpa only [List.length_map] using same

theorem taskPays_start (item : FrontierItem) (probes : List Probe) (i : Nat) (addr : String) (expired : Bool) :
    ∃ s' state, s.start p item probes i addr expired = s'.settle item probes i addr state ∧
      TaskPays addr s s' .waiting state := by
  unfold start
  split
  · exact ⟨_, _, rfl, rfl, rfl, rfl, by simp [ProbeState.cost], by simp [ProbeState.found], [], by simp [Probe.pending]⟩
  split
  · exact ⟨_, _, rfl, rfl, rfl, rfl, by simp [ProbeState.cost], by simp [ProbeState.found], [], by simp [Probe.pending]⟩
  simp only
  split
  · exact ⟨_, _, rfl, rfl, rfl, rfl, by simp [ProbeState.cost], by simp [ProbeState.found], [⟨item, addr, .failed⟩],
      by simp [Probe.pending]⟩
  · exact ⟨_, _, rfl, rfl, rfl, rfl, by simp [ProbeState.cost], by simp [ProbeState.found], [], by simp [Probe.pending]⟩

theorem taskPays_dialed (item : FrontierItem) (probes : List Probe) (i : Nat) (addr user : String) (result : DialResult)
    (registers : Bool) : ∃ s' state, s.dialed p item probes i addr user result registers =
      s'.settle item probes i addr state ∧ TaskPays addr s s' (.dialing user) state := by
  have one : ∀ result, ∃ ds : List DialRecord, s.dials ++ [DialRecord.mk item addr result] = s.dials ++ ds ∧
      (ds.map DialRecord.addr ++ []).Sublist [addr] := fun result => ⟨[⟨item, addr, result⟩], rfl, by simp⟩
  cases result with
  | failed => exact ⟨_, _, rfl, rfl, rfl, rfl, by simp [ProbeState.cost], by simp [ProbeState.found], one _⟩
  | up key =>
    cases key with
    | none => exact ⟨_, _, rfl, rfl, rfl, rfl, by simp [ProbeState.cost], by simp [ProbeState.found], one _⟩
    | some fingerprint =>
      simp only [dialed, presented]
      split
      · exact ⟨_, _, rfl, rfl, rfl, rfl, by simp [ProbeState.cost, length_recordAddr],
          by simp [ProbeState.found, length_recordAddr], one _⟩
      split
      · exact ⟨_, _, rfl, rfl, rfl, rfl, by simp [ProbeState.cost], by simp [ProbeState.found], one _⟩
      split
      · exact ⟨_, _, rfl, rfl, rfl, rfl, by simp [ProbeState.cost], by simp [ProbeState.found], one _⟩
      · refine ⟨_, _, rfl, rfl, rfl, rfl, ?_, ?_, one _⟩
        · simp only [discover, ProbeState.cost, List.length_append, List.length_singleton]
          omega
        · simp only [discover, ProbeState.found, List.length_append, List.length_singleton]
          omega

/-! ## What every step pays -/

theorem perm_set {α : Type} {items : List α} {i : Nat} {old : α} (placed : items[i]? = some old) (new : α) :
    (new :: items).Perm (old :: items.set i new) := by
  have moved := perm_flatMap_set (fun a => [a]) placed new
  simp only [List.flatMap_singleton', List.singleton_append] at moved
  exact (List.perm_append_singleton new items).symm.trans moved

/-- A sum over the tasks, when one of them goes on. -/
theorem sum_map_set {α : Type} (view : α → Nat) {items : List α} {i : Nat} {old : α} (placed : items[i]? = some old)
    (new : α) : view new + (items.map view).sum = view old + ((items.set i new).map view).sum := by
  have moved := ((perm_set placed new).map view).sum_nat
  simpa only [List.map_cons, List.sum_cons] using moved

/-- A task that goes on pays for its step. -/
theorem TaskPays.settle {s' : Engine} {item : FrontierItem} {probes : List Probe} {i : Nat} {addr : String}
    {before state : ProbeState} (phase : s.phase = .expanding item probes) (task : probes[i]? = some ⟨addr, before⟩)
    (paid : TaskPays addr s s' before state) :
    1 + (s'.settle item probes i addr state).potential + s.credit ≤
      s.potential + (s'.settle item probes i addr state).credit := by
  have moved := sum_map_set (fun probe => probe.state.cost) task ⟨addr, state⟩
  have pays := paid.pays
  simp only [potential, credit, Engine.settle, phase, Phase.cost, paid.frontier, paid.visited, probesCost]
  simp only at moved
  omega

theorem cost_of_results {probes : List Probe} {items : List FrontierItem} (done : results probes = some items) :
    probesCost probes = 4 * items.length ∧ foundItems probes = items.length := by
  induction probes generalizing items with
  | nil =>
    cases done
    exact ⟨rfl, rfl⟩
  | cons probe rest ih =>
    obtain ⟨addr, state⟩ := probe
    cases state with
    | waiting => cases done
    | dialing user => cases done
    | finished found =>
      obtain ⟨later, rest_, rfl⟩ := Option.map_eq_some_iff.mp done
      obtain ⟨cost, count⟩ := ih rest_
      simp only [probesCost, foundItems, List.map_cons, List.sum_cons] at cost count ⊢
      rw [cost, count]
      cases found with
      | none => simp [ProbeState.cost, ProbeState.found]
      | some own =>
        simp only [ProbeState.cost, ProbeState.found, Option.toList_some, List.singleton_append, List.length_cons]
        omega

theorem length_reserve (visited candidates : List String) :
    (reserve visited candidates).1.length = visited.length + (reserve visited candidates).2.length := by
  rw [(reserve_spec visited candidates).1, List.length_append]

/-- **Every step pays one** out of the potential, and earns what it finds. -/
theorem pays {event : DiscoveryEvent} (stepped : s.step p event = some t) :
    1 + t.potential + s.credit ≤ s.potential + t.credit := by
  cases steps_of_step stepped with
  | exhausted looping =>
    simp only [potential, credit, finish, looping, Phase.cost]
    omega
  | stopped looping =>
    simp only [potential, credit, finish, looping, Phase.cost]
    omega
  | tooDeep looping next =>
    simp only [potential, credit, next, List.length_cons]
    omega
  | expands looping next =>
    simp only [potential, credit, looping, next, Phase.cost, List.length_cons]
    omega
  | keysHarvested phase =>
    unfold keysHarvested
    split <;> simp only [potential, credit, phase, Phase.cost] <;> omega
  | @harvested crumbs item phase =>
    have fresh := length_reserve s.visitedIps (dedup [] (crumbs ++ p.injected))
    have cost : ∀ addrs : List String, probesCost (addrs.map fun addr => Probe.mk addr .waiting) = 2 * addrs.length := by
      intro addrs
      simp [probesCost, ProbeState.cost, Function.comp_def, Nat.mul_comm]
    simp only [potential, credit, harvested, phase, Phase.cost, cost, fresh]
    omega
  | start phase task =>
    obtain ⟨s', state, same, paid⟩ := taskPays_start _ _ _ _ _
    rw [same]
    exact paid.settle phase task
  | dialed phase task =>
    obtain ⟨s', state, same, paid⟩ := taskPays_dialed _ _ _ _ _ _ _
    rw [same]
    exact paid.settle phase task
  | joined phase done =>
    have cost := (cost_of_results done).1
    simp only [potential, credit, phase, Phase.cost, cost, List.length_append]
    omega

/-! ## What every step keeps -/

/-- Items are accounted for, and so are addresses. -/
structure Ledger (p : DiscoveryParams) (seeds : List FrontierItem) (s : Engine) : Prop where
  items : s.expansions.length + s.frontier.length + s.phase.inHand ≤ seeds.length + s.discovered.length
  addrs : ∀ c, (s.dials.map DialRecord.addr).count c + s.phase.pending.count c ≤ s.visitedIps.count c
  concurrent : ∀ item probes, s.phase = .expanding item probes → (running probes : Int) ≤ max 1 p.concurrency

/-- Where no task runs and no address is touched, only the items are to be counted. -/
theorem Ledger.quiet (ledger : s.Ledger p seeds)
    (items : t.expansions.length + t.frontier.length + t.phase.inHand ≤
      s.expansions.length + s.frontier.length + s.phase.inHand)
    (discovered : t.discovered = s.discovered) (dials : t.dials = s.dials) (visited : t.visitedIps = s.visitedIps)
    (idle : t.phase.pending = []) (joined : ∀ item probes, t.phase ≠ .expanding item probes) : t.Ledger p seeds where
  items := by
    have before := ledger.items
    rw [discovered]
    omega
  addrs c := by
    have before := ledger.addrs c
    rw [dials, visited, idle, List.count_nil]
    omega
  concurrent item probes phase := absurd phase (joined item probes)

theorem running_eq (probes : List Probe) : running probes = (probes.map fun probe => probe.state.holds).sum := by
  induction probes with
  | nil => rfl
  | cons probe rest ih =>
    obtain ⟨addr, state⟩ := probe
    rw [List.map_cons, List.sum_cons, ← ih]
    cases state <;> simp [running, ProbeState.holds, Nat.add_comm]

/-- A task that goes on keeps the accounts. -/
theorem Ledger.settle {s' : Engine} {item : FrontierItem} {probes : List Probe} {i : Nat} {addr : String}
    {before state : ProbeState} (ledger : s.Ledger p seeds) (phase : s.phase = .expanding item probes)
    (task : probes[i]? = some ⟨addr, before⟩) (unfinished : Probe.pending ⟨addr, before⟩ = [addr])
    (room : before = .waiting → (running probes : Int) < max 1 p.concurrency) (paid : TaskPays addr s s' before state) :
    (s'.settle item probes i addr state).Ledger p seeds where
  items := by
    have before_ := ledger.items
    have moved := sum_map_set (fun probe => probe.state.found) task ⟨addr, state⟩
    have brings := paid.brings
    simp only [phase, Phase.inHand, foundItems] at before_
    simp only [Engine.settle, Phase.inHand, foundItems, paid.frontier, paid.expansions]
    simp only at moved
    omega
  addrs c := by
    obtain ⟨ds, dials, one⟩ := paid.dials
    have before_ := ledger.addrs c
    have moved := (perm_flatMap_set Probe.pending task ⟨addr, state⟩).count_eq c
    have taken := one.count_le c
    rw [unfinished] at moved
    simp only [phase, Phase.pending] at before_
    simp only [Engine.settle, Phase.pending, dials, paid.visited, List.map_append, List.count_append] at moved taken ⊢
    omega
  concurrent := by
    rintro item' probes' same
    cases same
    have moved := sum_map_set (fun probe => probe.state.holds) task ⟨addr, state⟩
    have before_ := ledger.concurrent item probes phase
    have one : state.holds ≤ 1 := by cases state <;> simp [ProbeState.holds]
    simp only [running_eq] at before_ room ⊢
    simp only at moved
    cases before with
    | waiting =>
      have below := room rfl
      have none_ : ProbeState.waiting.holds = 0 := rfl
      omega
    | dialing user =>
      have slot : (ProbeState.dialing user).holds = 1 := rfl
      omega
    | finished found => cases unfinished

theorem Ledger.harvested {item : FrontierItem} (ledger : s.Ledger p seeds) (phase : s.phase = .harvesting item)
    (crumbs : List String) : (s.harvested p item crumbs).Ledger p seeds := by
  have items := ledger.items
  have idle : ∀ addrs : List String, foundItems (addrs.map fun addr => Probe.mk addr .waiting) = 0 ∧
      running (addrs.map fun addr => Probe.mk addr .waiting) = 0 ∧
      (addrs.map fun addr => Probe.mk addr .waiting).flatMap Probe.pending = addrs := by
    intro addrs
    induction addrs with
    | nil => exact ⟨rfl, rfl, rfl⟩
    | cons addr addrs ih =>
      obtain ⟨found, free, pending⟩ := ih
      rw [running_eq, foundItems] at *
      simp only [List.map_cons, List.sum_cons, List.flatMap_cons, found, free, pending]
      exact ⟨rfl, rfl, rfl⟩
  simp only [phase, Phase.inHand] at items
  refine ⟨?_, fun c => ?_, ?_⟩
  · simp only [Engine.harvested, Phase.inHand, (idle _).1, List.length_append, List.length_singleton]
    omega
  · have before := ledger.addrs c
    simp only [phase, Phase.pending, List.count_nil] at before
    simp only [Engine.harvested, Phase.pending, (idle _).2.2]
    rw [(reserve_spec s.visitedIps (dedup [] (crumbs ++ p.injected))).1, List.count_append]
    omega
  · rintro item' probes' same
    cases same
    rw [(idle _).2.1]
    exact Int.le_trans (by decide) (Int.le_max_left 1 p.concurrency)

/-- A task that starts takes a free place. -/
theorem room_of_start {i : Nat} {expired : Bool} {item : FrontierItem} {probes : List Probe}
    (phase : s.phase = .expanding item probes) (stepped : s.step p (.start i expired) = some t) :
    (running probes : Int) < max 1 p.concurrency := by
  simp only [step, phase] at stepped
  split at stepped
  · split at stepped
    · rename_i room
      exact room
    · cases stepped
  · cases stepped

theorem Ledger.step {event : DiscoveryEvent} (ledger : s.Ledger p seeds) (stepped : s.step p event = some t) :
    t.Ledger p seeds := by
  cases steps_of_step stepped with
  | exhausted looping =>
    exact ledger.quiet (by simp [finish, Phase.inHand]) rfl rfl rfl rfl (by simp [finish])
  | stopped looping =>
    exact ledger.quiet (by simp [finish, Phase.inHand]) rfl rfl rfl rfl (by simp [finish])
  | tooDeep looping next =>
    refine ledger.quiet ?_ rfl rfl rfl (by rw [looping]; rfl) (by simp [looping])
    simp only [next, List.length_cons]
    omega
  | expands looping next =>
    refine ledger.quiet ?_ rfl rfl rfl rfl (by simp)
    simp only [next, looping, Phase.inHand, List.length_cons]
    omega
  | keysHarvested phase =>
    unfold keysHarvested
    split <;> exact ledger.quiet (by simp [phase, Phase.inHand]) rfl rfl rfl rfl (by simp)
  | harvested phase => exact ledger.harvested phase _
  | start phase task =>
    obtain ⟨s', state, same, paid⟩ := taskPays_start _ _ _ _ _
    rw [same]
    exact ledger.settle phase task rfl (fun _ => room_of_start phase stepped) paid
  | dialed phase task =>
    obtain ⟨s', state, same, paid⟩ := taskPays_dialed _ _ _ _ _ _ _
    rw [same]
    exact ledger.settle phase task rfl (by rintro ⟨⟩) paid
  | joined phase done =>
    refine ledger.quiet ?_ rfl rfl rfl rfl (by simp)
    simp only [phase, Phase.inHand, (cost_of_results done).2, List.length_append]
    omega

theorem ledger_init (store : Store) (keys : Nat) : (init store keys seeds).Ledger p seeds :=
  ⟨by simp [init, Phase.inHand], fun c => by simp [init, Phase.pending], fun item probes same => by simp [init] at same⟩

/-! ## Something can always happen -/

theorem goesOn_of_unfinished (s : Engine) (unfinished : s.phase ≠ .finished) :
    ∃ event t, s.step p event = some t := by
  cases phase : s.phase with
  | looping => exact ⟨.turn false, s.turn p false, by simp only [step, phase]⟩
  | harvestingKeys item => exact ⟨.keysHarvested 0 [], s.keysHarvested p item 0 [], by simp only [step, phase]⟩
  | harvesting item => exact ⟨.harvested [], s.harvested p item [], by simp only [step, phase]⟩
  | finished => exact absurd phase unfinished
  | expanding item probes =>
    by_cases dialing : ∃ (i : Nat) (addr user : String), probes[i]? = some (Probe.mk addr (.dialing user))
    · obtain ⟨i, addr, user, task⟩ := dialing
      exact ⟨.dialed i .failed true, s.dialed p item probes i addr user .failed true, by simp only [step, phase, task]⟩
    have free : running probes = 0 := by
      rw [running_eq, List.sum_eq_zero_iff_forall_eq_nat]
      intro n member
      obtain ⟨⟨addr, state⟩, inside, rfl⟩ := List.mem_map.mp member
      obtain ⟨i, task⟩ := List.mem_iff_getElem?.mp inside
      cases state with
      | dialing user => exact absurd ⟨i, addr, user, task⟩ dialing
      | waiting => rfl
      | finished found => rfl
    by_cases waiting : ∃ (i : Nat) (addr : String), probes[i]? = some (Probe.mk addr .waiting)
    · -- no task dials, so the semaphore is free
      obtain ⟨i, addr, task⟩ := waiting
      have room : (running probes : Int) < max 1 p.concurrency := by
        rw [free]
        exact Int.lt_of_lt_of_le (by decide) (Int.le_max_left 1 p.concurrency)
      exact ⟨.start i false, s.start p item probes i addr false, by simp only [step, phase, task, if_pos room]⟩
    · have done : ∃ items, results probes = some items := by
        have each : ∀ probe ∈ probes, ∃ addr found, probe = Probe.mk addr (.finished found) := by
          rintro ⟨addr, state⟩ inside
          obtain ⟨i, task⟩ := List.mem_iff_getElem?.mp inside
          cases state with
          | dialing user => exact absurd ⟨i, addr, user, task⟩ dialing
          | waiting => exact absurd ⟨i, addr, task⟩ waiting
          | finished found => exact ⟨addr, found, rfl⟩
        clear phase dialing free waiting
        induction probes with
        | nil => exact ⟨[], rfl⟩
        | cons probe rest ih =>
          obtain ⟨⟨addr, found, rfl⟩, later⟩ := List.forall_mem_cons.mp each
          obtain ⟨items, done⟩ := ih later
          exact ⟨_, by rw [results, done]; rfl⟩
      obtain ⟨items, done⟩ := done
      exact ⟨.joined, { s with frontier := s.frontier ++ items, phase := .looping }, by
        simp only [step, phase, done, Option.map_some]⟩

/-! ## Every scan -/

section

variable {store : Store} {connects : Nat → String → Option Nat} {names : Option (List String)} {keys : Nat}
  {events : List DiscoveryEvent}

theorem ledger_of_run (run : Run (system p) (init store keys seeds) events s) : s.Ledger p seeds :=
  run.preserves (fun _ _ _ before stepped => Ledger.step before stepped) (ledger_init store keys)

/-- Every step is paid for. -/
theorem length_le_of_run (run : Run (system p) (init store keys seeds) events s) :
    events.length ≤ 4 * (seeds.length + s.discovered.length) + 2 * s.visitedIps.length + 1 := by
  have paid := run.length_add_le (fun _ _ _ stepped => pays stepped)
  simp only [potential, credit, init, Phase.cost, List.length_nil] at paid
  omega

theorem length_expansions_le (ledger : s.Ledger p seeds) :
    s.expansions.length ≤ seeds.length + s.discovered.length := by
  have items := ledger.items
  omega

theorem length_discovered_le
    (run : Run (system p) (init store keys (buildSeedFrontier store.registry connects names)) events s) :
    s.discovered.length ≤ p.maxNodes.toNat := by
  have bounded := (inv_of_run run).mapped.bounded
  simp only [findings] at bounded
  omega

/-- No address is dialed twice. -/
theorem nodup_dials (ledger : s.Ledger p seeds) (traced : s.Traced) : (s.dials.map DialRecord.addr).Nodup := by
  rw [List.nodup_iff_count_le_one]
  intro c
  have once := List.nodup_iff_count_le_one.mp traced.distinct c
  have addrs := ledger.addrs c
  omega

/-- An address that is dialed was revealed. -/
theorem revealed_of_dialed (traced : s.Traced) {d : DialRecord} (dialed : d ∈ s.dials) :
    ∃ e ∈ s.expansions, d.addr ∈ e.2 := by
  obtain ⟨e, found, -⟩ := Option.map_eq_some_iff.mp (traced.origins d dialed)
  exact ⟨e, List.mem_of_find?_eq_some found, by simpa using List.find?_some found⟩

/-- **A scan is bounded by the seeds and the hosts it may discover**, whatever the network,
the schedule and the outcome of registrations: in its steps, its expansions and its
dials, of which no two are for one address. It never comes to a halt before it is finished. -/
theorem scan_bounded
    (run : Run (system p) (init store keys (buildSeedFrontier store.registry connects names)) events s) :
    Bounded p (buildSeedFrontier store.registry connects names) events s where
  steps := length_le_of_run run
  nodes := length_discovered_le run
  expansions := length_expansions_le (ledger_of_run run)
  once := nodup_dials (ledger_of_run run) (traced_of_run run)
  revealed _ dialed := revealed_of_dialed (traced_of_run run) dialed
  visited := ⟨(traced_of_run run).distinct, (traced_of_run run).visited⟩
  concurrent := (ledger_of_run run).concurrent
  goesOn := goesOn_of_unfinished s

/-- Three dials of a scan from the local seed. -/
theorem scan_bounded_sample : ∃ s, Run (system sampleParams)
    (init .blank 1 (buildSeedFrontier Store.blank.registry (fun _ _ => none) none)) sampleScan s ∧
      sampleScan.length = 14 ∧ Bounded sampleParams [⟨localSeed, none, 0, true⟩] sampleScan s := by
  obtain ⟨s, run⟩ := run_sampleScan
  exact ⟨s, run, rfl, scan_bounded run⟩

/-! ## A limit that is known beforehand -/

/-- How many steps a scan takes at most when no harvest reveals more than so many addresses. -/
def scanLimit (p : DiscoveryParams) (seeds revealed : Nat) : Nat :=
  (seeds + p.maxNodes.toNat) * (4 + 2 * (revealed + p.injected.length)) + 1

theorem length_dedup_le (seen l : List String) : (dedup seen l).length ≤ l.length := by
  induction l generalizing seen with
  | nil => exact Nat.le_refl 0
  | cons c rest ih =>
    unfold dedup
    split
    · exact Nat.le_succ_of_le (ih seen)
    · exact Nat.succ_le_succ (ih _)

/-- Only a harvest reveals anything. -/
theorem expansions_of_step {event : DiscoveryEvent} (stepped : s.step p event = some t) :
    t.expansions = s.expansions ∨ ∃ item crumbs, s.phase = .harvesting item ∧ event = .harvested crumbs ∧
      t.expansions = s.expansions ++ [(item, dedup [] (crumbs ++ p.injected))] := by
  cases steps_of_step stepped with
  | exhausted | stopped | tooDeep | expands | joined => exact .inl rfl
  | keysHarvested phase =>
    unfold keysHarvested
    split <;> exact .inl rfl
  | @harvested crumbs item phase => exact .inr ⟨item, crumbs, phase, rfl, rfl⟩
  | start phase task =>
    obtain ⟨s', state, same, paid⟩ := taskPays_start _ _ _ _ _
    rw [same]
    exact .inl paid.expansions
  | dialed phase task =>
    obtain ⟨s', state, same, paid⟩ := taskPays_dialed _ _ _ _ _ _ _
    rw [same]
    exact .inl paid.expansions

/-- A bound on what harvests reveal bounds the addresses of the expansions. -/
theorem length_flatMap_le {most : Nat} (expansions : List (FrontierItem × List String))
    (each : ∀ e ∈ expansions, e.2.length ≤ most) : (expansions.flatMap Prod.snd).length ≤ expansions.length * most := by
  induction expansions with
  | nil => simp
  | cons e rest ih =>
    obtain ⟨first, later⟩ := List.forall_mem_cons.mp each
    have more := ih later
    rw [List.flatMap_cons, List.length_append, List.length_cons, Nat.succ_mul]
    omega

/-- What is expanded reveals no more than the rule allows and what is injected. -/
theorem length_revealed_le {rule : Engine → DiscoveryEvent → Prop} {revealed : Nat}
    (fits : ∀ s item crumbs, s.phase = .harvesting item → rule s (.harvested crumbs) → crumbs.length ≤ revealed)
    (run : Run (guard (system p) rule) (init store keys seeds) events s) :
    ∀ e ∈ s.expansions, e.2.length ≤ revealed + p.injected.length := by
  have keep : ∀ s event t, (∀ e ∈ s.expansions, e.2.length ≤ revealed + p.injected.length) →
      guard (system p) rule s event t → ∀ e ∈ t.expansions, e.2.length ≤ revealed + p.injected.length := by
    rintro s event t before ⟨stepped, ruled⟩ e member
    obtain same | ⟨item, crumbs, phase, rfl, more⟩ := expansions_of_step stepped
    · exact before e (same ▸ member)
    · rw [more] at member
      rcases List.mem_append.mp member with old | new
      · exact before e old
      · rw [List.mem_singleton.mp new]
        have short := length_dedup_le [] (crumbs ++ p.injected)
        have few := fits s item crumbs phase ruled
        rw [List.length_append] at short
        exact short.trans (Nat.add_le_add_right few _)
  refine run.preserves keep fun e member => ?_
  cases member

/-- Where harvests obey a rule that bounds them, no scan takes more steps than the limit
and no more dials than addresses can be revealed. -/
theorem within_limit {rule : Engine → DiscoveryEvent → Prop} {revealed : Nat}
    (fits : ∀ s item crumbs, s.phase = .harvesting item → rule s (.harvested crumbs) → crumbs.length ≤ revealed)
    (run : Run (guard (system p) rule) (init store keys (buildSeedFrontier store.registry connects names)) events s) :
    events.length ≤ scanLimit p (buildSeedFrontier store.registry connects names).length revealed ∧
      s.dials.length ≤ ((buildSeedFrontier store.registry connects names).length + p.maxNodes.toNat) *
        (revealed + p.injected.length) := by
  have plain := run.mono (fun _ _ _ stepped => stepped.1)
  have traced := traced_of_run plain
  have ledger := ledger_of_run plain
  have inside : (s.expansions.flatMap Prod.snd).length ≤ ((buildSeedFrontier store.registry connects names).length +
      p.maxNodes.toNat) * (revealed + p.injected.length) := by
    refine (length_flatMap_le s.expansions (length_revealed_le fits run)).trans (Nat.mul_le_mul_right _ ?_)
    exact (length_expansions_le ledger).trans (Nat.add_le_add_left (length_discovered_le plain) _)
  constructor
  · have visited : s.visitedIps ⊆ s.expansions.flatMap Prod.snd := by
      intro c visited
      obtain ⟨e, member, revealed⟩ := (traced.visited c).mp visited
      exact List.mem_flatMap.mpr ⟨e, member, revealed⟩
    have addrs := (List.Nodup.subperm traced.distinct visited).length_le.trans inside
    have steps := length_le_of_run plain
    have nodes := length_discovered_le plain
    have limit : scanLimit p (buildSeedFrontier store.registry connects names).length revealed =
        4 * ((buildSeedFrontier store.registry connects names).length + p.maxNodes.toNat) +
          2 * (((buildSeedFrontier store.registry connects names).length + p.maxNodes.toNat) *
            (revealed + p.injected.length)) + 1 := by
      unfold scanLimit
      ring
    omega
  · have dialed : s.dials.map DialRecord.addr ⊆ s.expansions.flatMap Prod.snd := by
      intro c dialed
      obtain ⟨d, member, rfl⟩ := List.mem_map.mp dialed
      obtain ⟨e, expanded, revealed⟩ := revealed_of_dialed traced member
      exact List.mem_flatMap.mpr ⟨e, expanded, revealed⟩
    have fewer := (List.Nodup.subperm (nodup_dials ledger traced) dialed).length_le
    rw [List.length_map] at fewer
    exact fewer.trans inside

end

end Engine

end McpSsh
