import McpSsh.Base.Levels
import McpSsh.DiscoveryCompleteness

/-!
# Hosts are found level by level

The frontier is first in, first out, and a host joins it one level below the item whose
expansion found it. So the loop goes through the levels in order, the first dial that
presents a host's key is one from as near to the seeds as any, and where the network does
not care where a dial starts the depth of a host is its distance from the seeds.
-/

set_option autoImplicit false

namespace McpSsh

open Base

/-! ## Levels in order -/

/-- The item that the loop is at. -/
def Phase.current : Phase → List FrontierItem
  | .harvestingKeys item | .harvesting item | .expanding item _ => [item]
  | .looping | .finished => []

namespace Engine

/-- The levels that the loop is at and has yet to go through. -/
def queue (s : Engine) : List Nat := (s.phase.current ++ s.frontier).map FrontierItem.depth

/-- What holds of the levels between any two awaits. -/
structure Layered (seeds : List FrontierItem) (s : Engine) : Prop where
  queue : Leveled s.queue
  expansions : Ahead 0 (s.expansions.map fun e => e.1.depth) s.queue
  dials : Ahead 0 (s.dials.map fun d => d.via.depth) s.queue
  discovered : Ahead 1 (s.discovered.map DiscoveredHost.depth) s.queue
  found : ∀ item probes, s.phase = .expanding item probes → ∀ addr next, ⟨addr, .finished (some next)⟩ ∈ probes →
    next.depth = item.depth + 1
  known : ∀ e ∈ s.expansions, Known seeds s.discovered e.1
  /-- A host was found by a dial that presented its key, one level above it. -/
  origin : ∀ h ∈ s.discovered, ∃ d ∈ s.dials, d.result = .up (some h.fingerprint) ∧ h.depth = d.via.depth + 1 ∧
    h.via = d.via.name
  /-- No dial that presented its key was made from a higher level. -/
  shallowest : ∀ h ∈ s.discovered, ∀ d ∈ s.dials, d.result = .up (some h.fingerprint) → h.depth ≤ d.via.depth + 1

variable {p : DiscoveryParams} {seeds : List FrontierItem} {r₀ : Registry} {s t : Engine}

/-! ## A task -/

/-- What a task of the item may change: it dials from the item, and a host it finds is a
level below, with a key that was not presented before. -/
structure TaskLevels (item : FrontierItem) (s s' : Engine) (state : ProbeState) : Prop where
  frontier : s'.frontier = s.frontier
  expansions : s'.expansions = s.expansions
  dials : ∃ ds : List DialRecord, s'.dials = s.dials ++ ds ∧ ∀ d ∈ ds, d.via = item
  hosts : ∃ more : List DiscoveredHost,
    s'.discovered.map DiscoveredHost.bare = (s.discovered ++ more).map DiscoveredHost.bare ∧
    ∀ h ∈ more, (h.depth = item.depth + 1 ∧ h.via = item.name) ∧ h.fingerprint ∉ s.visitedFps ∧
      ∃ d ∈ s'.dials, d.via = item ∧ d.result = .up (some h.fingerprint)
  found : ∀ next, state = .finished (some next) → next.depth = item.depth + 1

theorem taskLevels_start (item : FrontierItem) (probes : List Probe) (i : Nat) (addr : String) (expired : Bool) :
    ∃ s' state, s.start p item probes i addr expired = s'.settle item probes i addr state ∧
      TaskLevels item s s' state := by
  unfold start
  split
  · exact ⟨_, _, rfl, rfl, rfl, ⟨[], by simp⟩, ⟨[], by simp⟩, by simp⟩
  split
  · exact ⟨_, _, rfl, rfl, rfl, ⟨[], by simp⟩, ⟨[], by simp⟩, by simp⟩
  simp only
  split
  · exact ⟨_, _, rfl, rfl, rfl, ⟨[⟨item, addr, .failed⟩], by simp⟩, ⟨[], by simp⟩, by simp⟩
  · exact ⟨_, _, rfl, rfl, rfl, ⟨[], by simp⟩, ⟨[], by simp⟩, by simp⟩

theorem taskLevels_dialed (item : FrontierItem) (probes : List Probe) (i : Nat) (addr user : String)
    (result : DialResult) (registers : Bool) :
    ∃ s' state, s.dialed p item probes i addr user result registers = s'.settle item probes i addr state ∧
      TaskLevels item s s' state := by
  have dial : ∃ ds : List DialRecord, s.dials ++ [DialRecord.mk item addr result] = s.dials ++ ds ∧
      ∀ d ∈ ds, d.via = item := ⟨[⟨item, addr, result⟩], by simp⟩
  cases result with
  | failed => exact ⟨_, _, rfl, rfl, rfl, dial, ⟨[], by simp⟩, by simp⟩
  | up key =>
    cases key with
    | none => exact ⟨_, _, rfl, rfl, rfl, dial, ⟨[], by simp⟩, by simp⟩
    | some fingerprint =>
      simp only [dialed, presented]
      split
      · refine ⟨_, _, rfl, rfl, rfl, dial, ⟨[], ?_, by simp⟩, by simp⟩
        simp only [map_bare_recordAddr, List.append_nil]
      rename_i unseen
      split
      · exact ⟨_, _, rfl, rfl, rfl, dial, ⟨[], by simp⟩, by simp⟩
      split
      · exact ⟨_, _, rfl, rfl, rfl, dial, ⟨[], by simp⟩, by simp⟩
      · refine ⟨_, _, rfl, rfl, rfl, dial, ⟨[_], rfl, fun h new => ?_⟩, by simp⟩
        cases List.mem_singleton.mp new
        exact ⟨⟨rfl, rfl⟩, unseen, ⟨item, addr, .up (some fingerprint)⟩, by simp [discover], rfl, rfl⟩

/-! ## A step -/

theorem Layered.settle {s' : Engine} {item : FrontierItem} {probes : List Probe} {i : Nat} {addr : String}
    {state : ProbeState} (layered : s.Layered seeds) (mapped : Mapped p seeds r₀ s.findings)
    (phase : s.phase = .expanding item probes) (done : TaskLevels item s s' state) :
    (s'.settle item probes i addr state).Layered seeds := by
  obtain ⟨frontier, expansions, ⟨ds, dials, own⟩, ⟨more, alike, new⟩, found⟩ := done
  have here : s.queue = item.depth :: s.frontier.map FrontierItem.depth := by
    rw [Engine.queue, phase]
    rfl
  have queue : (s'.settle item probes i addr state).queue = s.queue := by
    rw [here, ← frontier]
    rfl
  have leveled := here ▸ layered.queue
  have hosts : ∀ h ∈ s'.discovered, (∃ g ∈ s.discovered, SameHost g h) ∨ ∃ g ∈ more, SameHost g h := by
    intro h member
    obtain ⟨g, inside, same⟩ := mem_of_alike alike member
    rcases List.mem_append.mp inside with old | new
    · exact .inl ⟨g, old, same⟩
    · exact .inr ⟨g, new, same⟩
  constructor
  · exact queue ▸ layered.queue
  · rw [queue]
    simpa only [Engine.settle, expansions] using layered.expansions
  · rw [queue, here]
    simp only [Engine.settle, dials, List.map_append]
    refine (here ▸ layered.dials).append leveled fun l member => ?_
    obtain ⟨d, inside, rfl⟩ := List.mem_map.mp member
    rw [own d inside, Nat.add_zero]
  · rw [queue, here]
    simp only [Engine.settle]
    rw [map_eq_of_alike alike DiscoveredHost.depth fun _ => rfl, List.map_append]
    refine (here ▸ layered.discovered).append leveled fun l member => ?_
    obtain ⟨h, inside, rfl⟩ := List.mem_map.mp member
    exact (new h inside).1.1
  · rintro item' probes' same addr' next member
    cases same
    rcases List.mem_or_eq_of_mem_set member with old | placed
    · exact layered.found item probes phase addr' next old
    · simp only [Probe.mk.injEq] at placed
      exact found next placed.2.symm
  · intro e member
    simp only [Engine.settle, expansions] at member ⊢
    exact ((layered.known e member).keeps (.append _ more)).keeps (keeps_of_alike alike)
  · intro h member
    simp only [Engine.settle] at member ⊢
    obtain ⟨g, old, same⟩ | ⟨g, fresh, same⟩ := hosts h member
    · obtain ⟨d, inside, up, below, hangs⟩ := layered.origin g old
      exact ⟨d, dials ▸ List.mem_append_left _ inside, same.fingerprint ▸ up, same.depth ▸ below, same.via ▸ hangs⟩
    · obtain ⟨⟨below, hangs⟩, -, d, inside, via, up⟩ := new g fresh
      exact ⟨d, inside, same.fingerprint ▸ up, by rw [← same.depth, below, via], by rw [← same.via, hangs, via]⟩
  · intro h member d dialed up
    simp only [Engine.settle, dials] at member dialed
    obtain ⟨g, old, same⟩ | ⟨g, fresh, same⟩ := hosts h member
    · rcases List.mem_append.mp dialed with before | now
      · exact same.depth ▸ layered.shallowest g old d before (same.fingerprint ▸ up)
      · have above := layered.discovered.ahead g.depth (List.mem_map_of_mem old) item.depth
          (here ▸ List.mem_cons_self)
        rw [own d now, ← same.depth]
        exact above
    · obtain ⟨⟨below, -⟩, unseen, -⟩ := new g fresh
      rcases List.mem_append.mp dialed with before | now
      · exact absurd (mapped.presented d before _ (same.fingerprint ▸ up)) unseen
      · rw [own d now, ← same.depth, below]

/-- Only the queue changes, and no item comes up again. -/
theorem Layered.later {s' : Engine} (layered : s.Layered seeds) (dials : s'.dials = s.dials)
    (expansions : s'.expansions = s.expansions) (discovered : s'.discovered = s.discovered)
    (fewer : s'.queue.Sublist s.queue) (found : ∀ item probes, s'.phase = .expanding item probes →
      s.phase = .expanding item probes) : s'.Layered seeds where
  queue := layered.queue.sublist fewer
  expansions := expansions ▸ layered.expansions.fewer fun _ waits => fewer.subset waits
  dials := dials ▸ layered.dials.fewer fun _ waits => fewer.subset waits
  discovered := discovered ▸ layered.discovered.fewer fun _ waits => fewer.subset waits
  found item probes same := layered.found item probes (found item probes same)
  known := by
    rw [expansions, discovered]
    exact layered.known
  origin := by
    rw [dials, discovered]
    exact layered.origin
  shallowest := by
    rw [dials, discovered]
    exact layered.shallowest

/-- The item's candidates are known; its tasks have found nothing yet. -/
theorem Layered.harvested {item : FrontierItem} {crumbs : List String} (layered : s.Layered seeds)
    (known : Known seeds s.discovered item) (phase : s.phase = .harvesting item) :
    (s.harvested p item crumbs).Layered seeds := by
  have here : s.queue = item.depth :: s.frontier.map FrontierItem.depth := by
    rw [Engine.queue, phase]
    rfl
  have queue : (s.harvested p item crumbs).queue = s.queue := by
    rw [here]
    rfl
  refine ⟨queue ▸ layered.queue, ?_, queue ▸ layered.dials, queue ▸ layered.discovered, ?_, ?_, layered.origin,
    layered.shallowest⟩
  · rw [queue, here]
    simp only [Engine.harvested, List.map_append]
    refine (here ▸ layered.expansions).append (here ▸ layered.queue) fun l member => ?_
    rw [List.mem_singleton.mp member]
    rfl
  · rintro item' probes' same addr next member
    cases same
    obtain ⟨c, -, waits⟩ := List.mem_map.mp member
    simp at waits
  · intro e member
    rcases List.mem_append.mp member with old | new
    · exact layered.known e old
    · rw [List.mem_singleton.mp new]
      exact known

/-- The items that the tasks found are a level below the expanded one. -/
theorem Layered.joined {item : FrontierItem} {probes : List Probe} {items : List FrontierItem}
    (layered : s.Layered seeds) (phase : s.phase = .expanding item probes) (done : results probes = some items) :
    { s with frontier := s.frontier ++ items, phase := .looping }.Layered seeds := by
  have here : s.queue = item.depth :: s.frontier.map FrontierItem.depth := by
    rw [Engine.queue, phase]
    rfl
  have next : ∀ l ∈ items.map FrontierItem.depth, l = item.depth + 1 := by
    intro l member
    obtain ⟨found, inside, rfl⟩ := List.mem_map.mp member
    obtain ⟨addr, task⟩ := mem_of_results done inside
    exact layered.found item probes phase addr found task
  have queue : { s with frontier := s.frontier ++ items, phase := .looping }.queue =
      s.frontier.map FrontierItem.depth ++ items.map FrontierItem.depth := by
    simp only [Engine.queue, Phase.current, List.nil_append, List.map_append]
  refine ⟨?_, ?_, ?_, ?_, ?_, layered.known, layered.origin, layered.shallowest⟩
  · exact queue ▸ (here ▸ layered.queue).requeue next
  · exact queue ▸ (here ▸ layered.expansions).requeue next
  · exact queue ▸ (here ▸ layered.dials).requeue next
  · exact queue ▸ (here ▸ layered.discovered).requeue next
  · rintro item' probes' same
    cases same

theorem Layered.step {event : DiscoveryEvent} (inv : s.Inv p seeds r₀) (layered : s.Layered seeds)
    (stepped : s.step p event = some t) : t.Layered seeds := by
  have fits := inv.phase
  cases steps_of_step stepped with
  | exhausted looping | stopped looping =>
    exact layered.later rfl rfl rfl (by simp [Engine.queue, finish, looping, Phase.current]) (by simp [finish])
  | tooDeep looping next | expands looping next =>
    exact layered.later rfl rfl rfl (by simp [Engine.queue, looping, next, Phase.current]) (by simp [looping])
  | keysHarvested phase =>
    unfold keysHarvested
    split <;> exact layered.later rfl rfl rfl (by simp [Engine.queue, phase, Phase.current]) (by simp)
  | harvested phase =>
    rw [phase] at fits
    exact layered.harvested fits.1 phase
  | start phase task =>
    obtain ⟨s', state, same, done⟩ := taskLevels_start _ _ _ _ _
    rw [same]
    exact layered.settle inv.mapped phase done
  | dialed phase task =>
    obtain ⟨s', state, same, done⟩ := taskLevels_dialed _ _ _ _ _ _ _
    rw [same]
    exact layered.settle inv.mapped phase done
  | joined phase done => exact layered.joined phase done

theorem layered_init {store : Store} {keys : Nat} (rooted : ∀ seed ∈ seeds, seed.depth = 0) :
    (init store keys seeds).Layered seeds := by
  have level : ∀ l ∈ (init store keys seeds).queue, l = 0 := by
    intro l member
    obtain ⟨seed, inside, rfl⟩ := List.mem_map.mp member
    exact rooted seed inside
  have leveled : Leveled (init store keys seeds).queue :=
    List.pairwise_of_forall_mem_list fun a left b right => by rw [level a left, level b right]; simp
  refine ⟨leveled, ⟨?_, ?_⟩, ⟨?_, ?_⟩, ⟨?_, ?_⟩, ?_, ?_, ?_, ?_⟩ <;> simp [init]

/-! ## Every scan -/

/-- The item that revealed an address first is on the highest level of those that did. -/
theorem depth_le_of_firstRevealing (layered : s.Layered seeds) {addr : String} {first : FrontierItem}
    (revealing : firstRevealing s.expansions addr = some first) {e : FrontierItem × List String}
    (expanded : e ∈ s.expansions) (revealed : addr ∈ e.2) : first.depth ≤ e.1.depth := by
  obtain ⟨e₁, found, rfl⟩ := Option.map_eq_some_iff.mp revealing
  obtain ⟨-, before, after, parts, none_⟩ := List.find?_eq_some_iff_append.mp found
  have ordered := layered.expansions.ordered
  rw [parts, List.map_append, List.map_cons] at ordered
  rw [parts] at expanded
  rcases List.mem_append.mp expanded with earlier | now
  · exact absurd (none_ e earlier) (by simpa using revealed)
  · rcases List.mem_cons.mp now with rfl | later
    · exact Nat.le_refl _
    · have last := (List.pairwise_append.mp ordered).2.1
      exact (List.pairwise_cons.mp last).1 _ (List.mem_map_of_mem later)

section

variable {store : Store} {connects : Nat → String → Option Nat} {names : Option (List String)} {keys : Nat}
  {events : List DiscoveryEvent}

theorem layered_of_run
    (run : Run (system p) (init store keys (buildSeedFrontier store.registry connects names)) events s) :
    s.Layered (buildSeedFrontier store.registry connects names) := by
  have rooted : Rooted store.registry (buildSeedFrontier store.registry connects names) :=
    rooted_buildSeedFrontier names
  have keep : ∀ s event t,
      s.Inv p (buildSeedFrontier store.registry connects names) store.registry ∧
        s.Layered (buildSeedFrontier store.registry connects names) →
      system p s event t →
      t.Inv p (buildSeedFrontier store.registry connects names) store.registry ∧
        t.Layered (buildSeedFrontier store.registry connects names) := by
    rintro s event t ⟨inv, layered⟩ stepped
    exact ⟨inv.step (fun seed inside => (rooted seed inside).2) stepped, layered.step inv stepped⟩
  exact (run.preserves keep ⟨inv_init, layered_init fun seed inside => (rooted seed inside).1⟩).2

/-- The item revealed an address at which the key was presented. -/
def CouldReveal (s : Engine) (e : FrontierItem × List String) (fingerprint : String) : Prop :=
  ∃ d ∈ s.dials, d.addr ∈ e.2 ∧ d.result = .up (some fingerprint)

/-- What the layers of a scan come to. -/
structure GoesByLevel (s : Engine) : Prop where
  /-- The item that the loop is at and the frontier, at most two neighbouring levels. -/
  frontier : Leveled s.queue
  expansions : (s.expansions.map fun e => e.1.depth).Pairwise (· ≤ ·)
  discovered : (s.discovered.map DiscoveredHost.depth).Pairwise (· ≤ ·)
  /-- A host hangs below an item that could reveal it, and no such item is on a higher level. -/
  below : ∀ h ∈ s.discovered, ∃ e ∈ s.expansions, s.CouldReveal e h.fingerprint ∧ h.via = e.1.name ∧
    h.depth = e.1.depth + 1 ∧ ∀ e' ∈ s.expansions, s.CouldReveal e' h.fingerprint → e.1.depth ≤ e'.1.depth

/-- **Between any two awaits of a scan** its levels are in order, whatever the network, the
schedule and the bounds: those of the frontier, of the expansions and of the hosts; and a
host hangs below a shallowest of the items that could reveal it. -/
theorem scan_layered
    (run : Run (system p) (init store keys (buildSeedFrontier store.registry connects names)) events s) :
    s.GoesByLevel := by
  have layered := layered_of_run run
  have traced : s.Traced := traced_of_run run
  refine ⟨layered.queue, layered.expansions.ordered, layered.discovered.ordered, fun h listed => ?_⟩
  obtain ⟨d, dialed, up, depth, via⟩ := layered.origin h listed
  obtain ⟨e, found, same⟩ := Option.map_eq_some_iff.mp (traced.origins d dialed)
  have expanded := List.mem_of_find?_eq_some found
  have revealed : d.addr ∈ e.2 := by simpa using List.find?_some found
  refine ⟨e, expanded, ⟨d, dialed, revealed, up⟩, same ▸ via, same ▸ depth, ?_⟩
  rintro e' expanded' ⟨d', dialed', revealed', up'⟩
  have first := depth_le_of_firstRevealing layered (traced.origins d' dialed') expanded' revealed'
  have shallow := layered.shallowest h listed d' dialed' up'
  rw [← same] at depth
  omega

theorem scan_layered_sample : ∃ s, Run (system sampleParams)
    (init .blank 1 (buildSeedFrontier Store.blank.registry (fun _ _ => none) none)) sampleScan s ∧ s.GoesByLevel := by
  obtain ⟨s, run⟩ := run_sampleScan
  exact ⟨s, run, scan_layered run⟩

/-! ## Distances -/

/-- What the expansions revealed of a network that does not care where a dial starts: the
keys of the machines behind the addresses that the seeds (`none`) or a discovered host
revealed. -/
def Reveals (network : String → DialResult) (seeds : List FrontierItem) (s : Engine) :
    Option String → Option String → Prop
  | none, some fp => ∃ e ∈ s.expansions, e.1 ∈ seeds ∧ ∃ c ∈ e.2, network c = .up (some fp)
  | some via, some fp => ∃ h ∈ s.discovered, h.fingerprint = via ∧
      ∃ e ∈ s.expansions, e.1.name = h.name ∧ ∃ c ∈ e.2, network c = .up (some fp)
  | _, none => False

/-- The level of a discovered host, by its key; the seeds are on level 0. -/
def levelOf (s : Engine) : Option String → Nat → Prop
  | none, n => n = 0
  | some fp, n => ∃ h ∈ s.discovered, h.fingerprint = fp ∧ h.depth = n

/-- A host is at most one level below each item that revealed an address of its machine. -/
theorem depth_le_of_revealed (layered : s.Layered seeds) (traced : s.Traced) (whole : s.truncated = false)
    {network : String → DialResult} (fixed : ∀ d ∈ s.dials, d.result = network d.addr)
    {e : FrontierItem × List String} (expanded : e ∈ s.expansions) {c : String} (revealed : c ∈ e.2)
    {h : DiscoveredHost} (listed : h ∈ s.discovered) (up : network c = .up (some h.fingerprint)) :
    h.depth ≤ e.1.depth + 1 := by
  have visited := (traced.visited c).mpr ⟨e, expanded, revealed⟩
  rcases List.mem_append.mp ((traced.accounted whole).mem_iff.mpr visited) with dialed | pending
  · obtain ⟨d, inside, rfl⟩ := List.mem_map.mp dialed
    have near := depth_le_of_firstRevealing layered (traced.origins d inside) expanded revealed
    have shallow := layered.shallowest h listed d inside ((fixed d inside).trans up)
    omega
  · -- the dial is still to come, from the item that the loop is at
    cases phase : s.phase <;> simp only [phase, Phase.pending, List.not_mem_nil] at pending
    rename_i item probes
    have first := traced.waiting item probes phase c (by rw [phase]; exact pending)
    have near := depth_le_of_firstRevealing layered first expanded revealed
    have above := layered.discovered.ahead h.depth (List.mem_map_of_mem listed) item.depth
      (by simp [queue, phase, Phase.current])
    omega

theorem eq_of_fingerprint (mapped : Mapped p seeds r₀ s.findings) {g h : DiscoveredHost} (left : g ∈ s.discovered)
    (right : h ∈ s.discovered) (same : g.fingerprint = h.fingerprint) : g = h :=
  List.inj_on_of_nodup_map mapped.fingerprints left right same

/-- The item of a discovered host is on the host's level. -/
theorem depth_of_name (mapped : Mapped p seeds r₀ s.findings) {item : FrontierItem}
    (known : Known seeds s.discovered item) {h : DiscoveredHost} (listed : h ∈ s.discovered)
    (named : item.name = h.name) : item.depth = h.depth := by
  rcases known with seed | ⟨g, inside, name, depth, -⟩
  · exact absurd named.symm ((mapped.fresh h listed).2 item seed)
  · rw [depth, List.inj_on_of_nodup_map mapped.names inside listed (name.symm.trans named)]

/-- The levels of the hosts are levels of a breadth-first search over what was revealed. -/
theorem levels_of_layered (rooted : ∀ seed ∈ seeds, seed.depth = 0) (mapped : Mapped p seeds r₀ s.findings)
    (layered : s.Layered seeds) (traced : s.Traced) (whole : s.truncated = false) {network : String → DialResult}
    (fixed : ∀ d ∈ s.dials, d.result = network d.addr) : Levels (s.Reveals network seeds) none s.levelOf where
  starts n := Iff.rfl
  leaves a b crossed := by
    rcases a with _ | via
    · exact ⟨0, rfl⟩
    · rcases b with _ | fp
      · exact crossed.elim
      · obtain ⟨h, listed, key, -⟩ := crossed
        exact ⟨h.depth, h, listed, key, rfl⟩
  climbs a b m n crossed above below := by
    rcases b with _ | fp
    · cases a <;> exact crossed.elim
    obtain ⟨h, listed, rfl, rfl⟩ := below
    rcases a with _ | via
    · obtain ⟨e, expanded, seed, c, revealed, up⟩ := crossed
      have near := depth_le_of_revealed layered traced whole fixed expanded revealed listed up
      rw [rooted e.1 seed] at near
      cases above
      exact near
    · obtain ⟨g, inside, rfl, e, expanded, named, c, revealed, up⟩ := crossed
      obtain ⟨g', inside', key, rfl⟩ := above
      cases eq_of_fingerprint mapped inside' inside key
      have near := depth_le_of_revealed layered traced whole fixed expanded revealed listed up
      rwa [depth_of_name mapped (layered.known e expanded) inside named] at near
  reached b n at_ := by
    rcases b with _ | fp
    · exact .inl rfl
    obtain ⟨h, listed, rfl, rfl⟩ := at_
    obtain ⟨d, dialed, up, depth, -⟩ := layered.origin h listed
    obtain ⟨e, found, via⟩ := Option.map_eq_some_iff.mp (traced.origins d dialed)
    have expanded := List.mem_of_find?_eq_some found
    have revealed : d.addr ∈ e.2 := by simpa using List.find?_some found
    have presented : network d.addr = .up (some h.fingerprint) := (fixed d dialed).symm.trans up
    rw [← via] at depth
    rcases layered.known e expanded with seed | ⟨g, inside, name, level, -⟩
    · refine .inr ⟨none, 0, rfl, ⟨e, expanded, seed, d.addr, revealed, presented⟩, ?_⟩
      rw [depth, rooted e.1 seed]
    · refine .inr ⟨some g.fingerprint, g.depth, ⟨g, inside, rfl, rfl⟩,
        ⟨g, inside, rfl, e, expanded, name, d.addr, revealed, presented⟩, ?_⟩
      rw [depth, level]

/-- One machine has two addresses, and another one the rest. -/
def twoMachines (addr : String) : DialResult :=
  .up (some (if addr ∈ ["10.0.0.1", "10.0.0.2"] then "SHA256:abc" else "SHA256:def"))

end

end Engine

end McpSsh
