import McpSsh.DiscoveryInvariant

/-!
# Runs of the discovery engine

Every step keeps the invariant, so it holds between any two awaits of every scan
from the frontier that `_build_seed_frontier` returns.
-/

set_option autoImplicit false

namespace McpSsh

open Base

/-! ## The invariant of the engine -/

theorem Keeps.refl (hosts : List DiscoveredHost) : Keeps hosts hosts := fun g member => ⟨g, member, rfl, rfl⟩

theorem Keeps.append (hosts more : List DiscoveredHost) : Keeps hosts (hosts ++ more) :=
  fun g member => ⟨g, List.mem_append_left _ member, rfl, rfl⟩

theorem Keeps.recordAddr (fingerprint addr : String) (hosts : List DiscoveredHost) :
    Keeps hosts (recordAddr fingerprint addr hosts) :=
  keeps_of_alike (map_bare_recordAddr fingerprint addr hosts)

/-- The items that the loop holds in its hands are known and lie above the bound. -/
def Phase.Fits (p : DiscoveryParams) (seeds : List FrontierItem) (hosts : List DiscoveredHost) : Phase → Prop
  | .looping | .finished => True
  | .harvestingKeys item | .harvesting item => Known seeds hosts item ∧ (item.depth : Int) < p.maxDepth
  | .expanding item probes => (Known seeds hosts item ∧ (item.depth : Int) < p.maxDepth) ∧
      ∀ addr found, ⟨addr, .finished (some found)⟩ ∈ probes → Known seeds hosts found

/-- What holds of the engine between any two awaits. -/
structure Engine.Inv (p : DiscoveryParams) (seeds : List FrontierItem) (r₀ : Registry) (s : Engine) : Prop where
  mapped : Mapped p seeds r₀ s.findings
  frontier : ∀ item ∈ s.frontier, Known seeds s.discovered item
  phase : s.phase.Fits p seeds s.discovered

namespace Engine

variable {p : DiscoveryParams} {seeds : List FrontierItem} {r₀ : Registry} {s : Engine}

/-- What `_register` adds, under the name it picked. -/
theorem register_ok {fingerprint addr username name : String} {via : FrontierItem} {registers poolReachable : Bool}
    {store : Store} (done : s.register p fingerprint addr via username registers = some (store, name, poolReachable)) :
    pickName p s.store.registry fingerprint = some name ∧
      s.store.addTo p.persist true (registration p fingerprint addr via username name).1 = .ok store := by
  unfold register at done
  cases picked : pickName p s.store.registry fingerprint with
  | none => simp [picked] at done
  | some free =>
    cases registers with
    | false => simp [picked] at done
    | true =>
      cases added : s.store.addTo p.persist true (registration p fingerprint addr via username free).1 with
      | error e => simp [picked, added, Except.toOption] at done
      | ok store' =>
        simp only [picked, added, Except.toOption, Option.bind_eq_bind, Option.bind_some, if_true, Option.pure_def,
          Option.some.injEq, Prod.mk.injEq] at done
        obtain ⟨rfl, rfl, -⟩ := done
        exact ⟨rfl, added⟩

/-- The registered configuration has a free name and the discoverer as jump host. -/
theorem register_spec {fingerprint addr username name : String} {via : FrontierItem} {registers poolReachable : Bool}
    {store : Store} (done : s.register p fingerprint addr via username registers = some (store, name, poolReachable)) :
    '-' ∈ name.toList ∧ ∃ cfg : ServerConfig, cfg.name = name ∧
      cfg.jumpHost = (if via.isLocal then none else some via.name) ∧ s.store.addTo p.persist true cfg = .ok store := by
  obtain ⟨picked, added⟩ := register_ok done
  exact ⟨(pickName_spec picked).2, _, rfl, rfl, added⟩

/-! ## Steps -/

/-- What one step can do. -/
inductive Steps (p : DiscoveryParams) (s : Engine) : DiscoveryEvent → Engine → Prop where
  | exhausted {expired : Bool} (looping : s.phase = .looping) (empty : s.frontier = []) :
      Steps p s (.turn expired) s.finish
  | stopped {expired : Bool} {item : FrontierItem} {frontier : List FrontierItem} (looping : s.phase = .looping)
      (next : s.frontier = item :: frontier) : Steps p s (.turn expired) { s with truncated := true }.finish
  | tooDeep {expired : Bool} {item : FrontierItem} {frontier : List FrontierItem} (looping : s.phase = .looping)
      (next : s.frontier = item :: frontier) : Steps p s (.turn expired) { s with truncated := true, frontier }
  | expands {expired : Bool} {item : FrontierItem} {frontier : List FrontierItem} (looping : s.phase = .looping)
      (next : s.frontier = item :: frontier) (above : (item.depth : Int) < p.maxDepth) :
      Steps p s (.turn expired) { s with frontier, phase := .harvestingKeys item }
  | keysHarvested {usable : Nat} {skipped : List String} {item : FrontierItem} (phase : s.phase = .harvestingKeys item) :
      Steps p s (.keysHarvested usable skipped) (s.keysHarvested p item usable skipped)
  | harvested {crumbs : List String} {item : FrontierItem} (phase : s.phase = .harvesting item) :
      Steps p s (.harvested crumbs) (s.harvested p item crumbs)
  | start {i : Nat} {expired : Bool} {item : FrontierItem} {probes : List Probe} {addr : String}
      (phase : s.phase = .expanding item probes) (task : probes[i]? = some ⟨addr, .waiting⟩) :
      Steps p s (.start i expired) (s.start p item probes i addr expired)
  | dialed {i : Nat} {result : DialResult} {registers : Bool} {item : FrontierItem} {probes : List Probe}
      {addr user : String} (phase : s.phase = .expanding item probes) (task : probes[i]? = some ⟨addr, .dialing user⟩) :
      Steps p s (.dialed i result registers) (s.dialed p item probes i addr user result registers)
  | joined {item : FrontierItem} {probes : List Probe} {items : List FrontierItem}
      (phase : s.phase = .expanding item probes) (done : results probes = some items) :
      Steps p s .joined { s with frontier := s.frontier ++ items, phase := .looping }

theorem steps_of_step {s' : Engine} {event : DiscoveryEvent} (stepped : s.step p event = some s') :
    Steps p s event s' := by
  cases event with
  | turn expired =>
    cases phase : s.phase <;> simp only [step, phase, Option.some.injEq, reduceCtorEq] at stepped
    subst stepped
    cases next : s.frontier with
    | nil =>
      have same : s.turn p expired = s.finish := by simp only [turn, next]
      exact same ▸ .exhausted phase next
    | cons item frontier =>
      simp only [turn, next]
      split
      · exact next ▸ .stopped phase next
      split
      · exact next ▸ .stopped phase next
      split
      · exact .tooDeep phase next
      · rename_i above
        exact .expands phase next (Int.not_le.mp above)
  | keysHarvested usable skipped =>
    cases phase : s.phase <;> simp only [step, phase, Option.some.injEq, reduceCtorEq] at stepped
    exact stepped ▸ .keysHarvested phase
  | harvested crumbs =>
    cases phase : s.phase <;> simp only [step, phase, Option.some.injEq, reduceCtorEq] at stepped
    exact stepped ▸ .harvested phase
  | start i expired =>
    simp only [step] at stepped
    repeat' split at stepped
    all_goals cases stepped
    rename_i phase _ _ task _
    exact .start phase task
  | dialed i result registers =>
    simp only [step] at stepped
    repeat' split at stepped
    all_goals cases stepped
    rename_i phase _ _ _ task
    exact .dialed phase task
  | joined =>
    simp only [step] at stepped
    split at stepped
    · rename_i phase
      obtain ⟨items, done, rfl⟩ := Option.map_eq_some_iff.mp stepped
      exact .joined phase done
    · cases stepped

/-- A task that goes on keeps the invariant, if what it changed does. -/
theorem Inv.settle {s' : Engine} {item : FrontierItem} {probes : List Probe} {i : Nat} {addr : String}
    {state : ProbeState} (inv : s.Inv p seeds r₀) (phase : s.phase = .expanding item probes)
    (mapped : Mapped p seeds r₀ s'.findings) (frontier : s'.frontier = s.frontier)
    (kept : Keeps s.discovered s'.discovered)
    (new : ∀ found, state = .finished (some found) → Known seeds s'.discovered found) :
    (s'.settle item probes i addr state).Inv p seeds r₀ := by
  have fits := inv.phase
  simp only [phase, Phase.Fits] at fits
  obtain ⟨⟨known, above⟩, finished⟩ := fits
  refine ⟨mapped, fun waiting member => ?_, ⟨known.keeps kept, above⟩, fun addr' found member => ?_⟩
  · exact (inv.frontier waiting (frontier ▸ member)).keeps kept
  · rcases List.mem_or_eq_of_mem_set member with old | same
    · exact (finished addr' found old).keeps kept
    · simp only [Probe.mk.injEq] at same
      exact new found same.2.symm

theorem Inv.start {item : FrontierItem} {probes : List Probe} (inv : s.Inv p seeds r₀)
    (phase : s.phase = .expanding item probes) (i : Nat) (addr : String) (expired : Bool) :
    (s.start p item probes i addr expired).Inv p seeds r₀ := by
  unfold Engine.start
  split
  · exact inv.settle phase inv.mapped rfl (.refl _) (by simp)
  split
  · exact inv.settle phase inv.mapped rfl (.refl _) (by simp)
  simp only
  split
  · exact inv.settle phase (inv.mapped.silent (d := ⟨item, addr, .failed⟩) (by simp)) rfl (.refl _) (by simp)
  · exact inv.settle phase inv.mapped rfl (.refl _) (by simp)

theorem Inv.dialed (rooted : ∀ seed ∈ seeds, seed.name = localSeed ∨ (r₀.find? seed.name).isSome)
    {item : FrontierItem} {probes : List Probe} (inv : s.Inv p seeds r₀) (phase : s.phase = .expanding item probes)
    (i : Nat) (addr user : String) (result : DialResult) (registers : Bool) :
    (s.dialed p item probes i addr user result registers).Inv p seeds r₀ := by
  have fits := inv.phase
  simp only [phase, Phase.Fits] at fits
  obtain ⟨⟨known, above⟩, -⟩ := fits
  cases result with
  | failed => exact inv.settle phase (inv.mapped.silent (d := ⟨item, addr, .failed⟩) (by simp)) rfl (.refl _) (by simp)
  | up key =>
    cases key with
    | none =>
      have quiet := inv.mapped.silent (d := ⟨item, addr, .up none⟩) (by simp)
      exact inv.settle phase quiet.closes rfl (.refl _) (by simp)
    | some fingerprint =>
      simp only [Engine.dialed, presented]
      split
      · rename_i seen
        exact inv.settle phase (inv.mapped.again seen item addr).closes rfl (.recordAddr _ _ _) (by simp)
      rename_i unseen
      split
      · exact inv.settle phase (inv.mapped.dropped unseen item addr).closes rfl (.refl _) (by simp)
      rename_i room
      split
      · exact inv.settle phase (inv.mapped.dropped unseen item addr).closes rfl (.refl _) (by simp)
      · rename_i store name poolReachable done
        obtain ⟨dash, cfg, named, jump, added⟩ := register_spec done
        refine inv.settle phase ?_ rfl (.append _ _) fun found same => ?_
        · exact inv.mapped.found rooted known above (Int.not_le.mp room) unseen named jump dash added
        · cases same
          exact .inr ⟨_, List.mem_append_right _ (List.mem_singleton_self _), rfl, rfl, rfl⟩

/-- The items of the finished tasks are items that a task finished with. -/
theorem mem_of_results {probes : List Probe} {items : List FrontierItem} (finished : results probes = some items)
    {item : FrontierItem} (member : item ∈ items) : ∃ addr, ⟨addr, .finished (some item)⟩ ∈ probes := by
  induction probes generalizing items with
  | nil =>
    cases finished
    cases member
  | cons probe rest ih =>
    obtain ⟨addr, state⟩ := probe
    cases state with
    | waiting => cases finished
    | dialing user => cases finished
    | finished found =>
      simp only [results, Option.map_eq_some_iff] at finished
      obtain ⟨later, done, rfl⟩ := finished
      rcases List.mem_append.mp member with here | there
      · cases found with
        | none => cases here
        | some own =>
          cases List.mem_singleton.mp here
          exact ⟨addr, List.mem_cons_self⟩
      · obtain ⟨addr', inside⟩ := ih done there
        exact ⟨addr', List.mem_cons_of_mem _ inside⟩

/-- The items of the frontier are known, whatever is done with it. -/
theorem Inv.later {items : List FrontierItem} (inv : s.Inv p seeds r₀)
    (fewer : ∀ item ∈ items, Known seeds s.discovered item) (truncated : Bool) {phase : Phase}
    (fits : phase.Fits p seeds s.discovered) :
    { s with truncated, frontier := items, phase }.Inv p seeds r₀ := ⟨inv.mapped, fewer, fits⟩

theorem Inv.finish (inv : s.Inv p seeds r₀) : s.finish.Inv p seeds r₀ := by
  refine ⟨{ inv.mapped with connections := fun c before => ?_ }, inv.frontier, trivial⟩
  exact .inl (List.mem_append.mpr (inv.mapped.connections c before))

/-- **Every step keeps the invariant.** -/
theorem Inv.step (rooted : ∀ seed ∈ seeds, seed.name = localSeed ∨ (r₀.find? seed.name).isSome) {s' : Engine}
    {event : DiscoveryEvent} (inv : s.Inv p seeds r₀) (stepped : s.step p event = some s') : s'.Inv p seeds r₀ := by
  have fits := inv.phase
  have waiting := inv.frontier
  cases steps_of_step stepped with
  | exhausted => exact inv.finish
  | stopped => exact (inv.later waiting true fits).finish
  | tooDeep looping next =>
    rw [next] at waiting
    exact inv.later (fun item member => waiting item (List.mem_cons_of_mem _ member)) true fits
  | expands looping next above =>
    rw [next] at waiting
    exact inv.later (fun item member => waiting item (List.mem_cons_of_mem _ member)) s.truncated
      ⟨waiting _ List.mem_cons_self, above⟩
  | keysHarvested phase =>
    rw [phase] at fits
    unfold Engine.keysHarvested
    split <;> exact ⟨inv.mapped, waiting, fits⟩
  | harvested phase =>
    rw [phase] at fits
    refine ⟨inv.mapped, waiting, fits, fun addr found member => ?_⟩
    simp at member
  | start phase => exact inv.start phase _ _ _
  | dialed phase => exact inv.dialed rooted phase _ _ _ _ _
  | joined phase done =>
    rw [phase] at fits
    refine ⟨inv.mapped, fun item member => ?_, trivial⟩
    rcases List.mem_append.mp member with old | new
    · exact waiting item old
    · obtain ⟨addr, inside⟩ := mem_of_results done new
      exact fits.2 addr item inside

end Engine

/-! ## Seeds -/

/-- Seeds are on level 0 and are registered, apart from the local seed. -/
def Rooted (r : Registry) (seeds : List FrontierItem) : Prop :=
  ∀ seed ∈ seeds, seed.depth = 0 ∧ (seed.name = localSeed ∨ (r.find? seed.name).isSome)

section

variable {r : Registry} {connects : Nat → String → Option Nat}

theorem registered_of_seedConnection {turn conn : Nat} {name : String}
    (connected : seedConnection r connects turn name = some conn) : (r.find? name).isSome := by
  unfold seedConnection at connected
  split at connected
  · cases connected
  · rename_i registered
    simpa [Option.isSome_iff_ne_none] using registered

theorem rooted_explicitSeeds (names : List String) (turn : Nat) : Rooted r (explicitSeeds r connects turn names) := by
  induction names generalizing turn with
  | nil => simp [Rooted, explicitSeeds]
  | cons name names ih =>
    unfold explicitSeeds
    split
    · exact List.forall_mem_cons.mpr ⟨⟨rfl, .inl rfl⟩, ih _⟩
    · split
      · rename_i connected
        exact List.forall_mem_cons.mpr ⟨⟨rfl, .inr (registered_of_seedConnection connected)⟩, ih _⟩
      · exact ih _

theorem rooted_defaultSeeds (servers : List ServerConfig) (turn : Nat) :
    Rooted r (defaultSeeds r connects turn servers) := by
  induction servers generalizing turn with
  | nil => simp [Rooted, defaultSeeds]
  | cons cfg servers ih =>
    unfold defaultSeeds
    split
    · exact ih _
    · split
      · rename_i connected
        exact List.forall_mem_cons.mpr ⟨⟨rfl, .inr (registered_of_seedConnection connected)⟩, ih _⟩
      · exact ih _

theorem rooted_buildSeedFrontier (names : Option (List String)) : Rooted r (buildSeedFrontier r connects names) := by
  cases names with
  | none => exact List.forall_mem_cons.mpr ⟨⟨rfl, .inl rfl⟩, rooted_defaultSeeds _ _⟩
  | some names => exact rooted_explicitSeeds _ _

end

/-! ## Via links -/

/-- Where the host of this name was found from. -/
def viaOf (hosts : List DiscoveredHost) (name : String) : Option String :=
  (hosts.find? fun h => h.name = name).map DiscoveredHost.via

/-- Where `n` via links lead from a name. -/
def climb (hosts : List DiscoveredHost) : Nat → String → Option String
  | 0, name => some name
  | n + 1, name => (viaOf hosts name).bind (climb hosts n)

/-- Via links lead from the host to a seed in as many steps as it is deep, and in no
fewer. -/
def ReachesSeed (seeds : List FrontierItem) (hosts : List DiscoveredHost) (h : DiscoveredHost) : Prop :=
  (∃ seed ∈ seeds, climb hosts h.depth h.name = some seed.name) ∧
    ∀ n, n < h.depth → ∀ seed ∈ seeds, climb hosts n h.name ≠ some seed.name

theorem viaOf_eq {hosts : List DiscoveredHost} (distinct : (hosts.map DiscoveredHost.name).Nodup) {h : DiscoveredHost}
    (member : h ∈ hosts) : viaOf hosts h.name = some h.via := by
  induction hosts with
  | nil => cases member
  | cons first hosts ih =>
    obtain ⟨unique, distinct⟩ := List.nodup_cons.mp distinct
    unfold viaOf
    rcases List.mem_cons.mp member with rfl | later
    · simp
    · have other : first.name ≠ h.name := fun same => unique (List.mem_map.mpr ⟨h, later, same.symm⟩)
      rw [List.find?_cons_of_neg (by simpa using other)]
      exact ih distinct later

namespace Mapped

variable {p : DiscoveryParams} {seeds : List FrontierItem} {r₀ : Registry} {f : Findings}

/-- By induction on the place in the list: a host was found from a seed or from one
listed before it. -/
theorem reachesSeed (mapped : Mapped p seeds r₀ f) (level : ∀ seed ∈ seeds, seed.depth = 0) (i : Nat)
    {h : DiscoveredHost} (listed : f.discovered[i]? = some h) : ReachesSeed seeds f.discovered h := by
  induction i using Nat.strongRecOn generalizing h with
  | ind i ih =>
    have member : h ∈ f.discovered := List.mem_of_getElem? listed
    have start : ∀ seed ∈ seeds, climb f.discovered 0 h.name ≠ some seed.name := by
      intro seed inside same
      exact (mapped.fresh h member).2 seed inside (Option.some.inj same)
    have next : ∀ n, climb f.discovered (n + 1) h.name = climb f.discovered n h.via := by
      intro n
      rw [climb, viaOf_eq mapped.names member, Option.bind_some]
    obtain ⟨item, known, via, depth, -⟩ := mapped.hangs i h listed
    rw [ReachesSeed, depth]
    rcases known with seed | ⟨g, earlier, name, level', -⟩
    · rw [level item seed]
      refine ⟨⟨item, seed, by rw [next, via]; rfl⟩, fun n below => ?_⟩
      have none_ : n = 0 := by omega
      exact none_ ▸ start
    · obtain ⟨j, before, found⟩ := List.mem_take_iff_getElem.mp earlier
      have listed' : f.discovered[j]? = some g := by
        rw [← found]
        exact List.getElem?_eq_getElem _
      obtain ⟨⟨seed, inside, reached⟩, sooner⟩ := ih j (by omega) listed'
      refine ⟨⟨seed, inside, by rw [next, via, name, level', reached]⟩, fun n below => ?_⟩
      cases n with
      | zero => exact start
      | succ n =>
        rw [next, via, name]
        exact sooner n (by omega)

end Mapped

/-! ## Every scan -/

namespace Engine

theorem inv_init {p : DiscoveryParams} {store : Store} {keys : Nat} {seeds : List FrontierItem} :
    (init store keys seeds).Inv p seeds store.registry := by
  have bounded : ((init store keys seeds).findings.discovered.length : Int) ≤ max 0 p.maxNodes := by
    show (0 : Int) ≤ max 0 p.maxNodes
    omega
  refine ⟨⟨?_, ?_, bounded, ?_, ?_, ?_, rfl, ?_, fun _ _ _ => rfl, ?_, ?_, ?_, ?_⟩, fun item member => .inl member,
    trivial⟩
  all_goals simp [init, findings, childrenOf]

theorem inv_of_run {p : DiscoveryParams} {store : Store} {connects : Nat → String → Option Nat}
    {names : Option (List String)} {keys : Nat} {events : List DiscoveryEvent} {s : Engine}
    (run : Run (system p) (init store keys (buildSeedFrontier store.registry connects names)) events s) :
    s.Inv p (buildSeedFrontier store.registry connects names) store.registry := by
  have rooted : Rooted store.registry (buildSeedFrontier store.registry connects names) :=
    rooted_buildSeedFrontier names
  exact run.preserves (fun _ _ _ before stepped => before.step (fun seed inside => (rooted seed inside).2) stepped)
    inv_init

/-- **Between any two awaits of a scan** the findings are what `Mapped` says, and via
links lead from every host to a seed, whatever the network, the schedule, the bounds
and the outcome of registrations. -/
theorem scan_mapped {p : DiscoveryParams} {store : Store} {connects : Nat → String → Option Nat}
    {names : Option (List String)} {keys : Nat} {events : List DiscoveryEvent} {s : Engine}
    (run : Run (system p) (init store keys (buildSeedFrontier store.registry connects names)) events s) :
    Mapped p (buildSeedFrontier store.registry connects names) store.registry s.findings ∧
      ∀ h ∈ s.discovered, ReachesSeed (buildSeedFrontier store.registry connects names) s.discovered h := by
  have rooted : Rooted store.registry (buildSeedFrontier store.registry connects names) :=
    rooted_buildSeedFrontier names
  have inv := run.preserves (fun _ _ _ before stepped => before.step (fun seed inside => (rooted seed inside).2) stepped)
    inv_init
  refine ⟨inv.mapped, fun h member => ?_⟩
  obtain ⟨i, listed⟩ := List.mem_iff_getElem?.mp member
  exact inv.mapped.reachesSeed (fun seed inside => (rooted seed inside).1) i listed

/-! ## A scan -/

/-- One key, three levels, four tasks at a time. -/
def sampleParams : DiscoveryParams where
  session := "s1"
  keyPaths := ["/keys/id"]
  harvestKeys := false
  port := 22
  maxDepth := 3
  maxNodes := 10
  concurrency := 4
  namePrefix := "disc"
  persist := false
  injected := []
  injectedUsers := Dict.empty
  usernameFor := fun _ => "root"

/-- The local seed reveals two addresses of one machine, and that one reveals another. -/
def sampleScan : List DiscoveryEvent :=
  [.turn false, .keysHarvested 0 [], .harvested ["10.0.0.1", "10.0.0.2"], .start 0 false, .start 1 false,
    .dialed 1 (.up (some "SHA256:abc")) true, .dialed 0 (.up (some "SHA256:abc")) true, .joined,
    .turn false, .keysHarvested 0 [], .harvested ["10.1.0.9", "10.0.0.1"], .start 0 false,
    .dialed 0 (.up (some "SHA256:def")) true, .joined]

theorem run_sampleScan : ∃ s, Run (system sampleParams)
    (init .blank 1 (buildSeedFrontier Store.blank.registry (fun _ _ => none) none)) sampleScan s :=
  ⟨_, .step rfl (.step rfl (.step rfl (.step rfl (.step rfl (.step rfl (.step rfl (.step rfl (.step rfl (.step rfl
    (.step rfl (.step rfl (.step rfl (.step rfl (.refl _))))))))))))))⟩

theorem scan_mapped_sample : ∃ s, Run (system sampleParams)
    (init .blank 1 (buildSeedFrontier Store.blank.registry (fun _ _ => none) none)) sampleScan s ∧
      s.discovered.map (fun h => (h.name, h.addrs, h.via, h.depth)) =
        [("disc-abc", ["10.0.0.2", "10.0.0.1"], "local", 1), ("disc-def", ["10.1.0.9"], "disc-abc", 2)] ∧
      (s.discovered.map DiscoveredHost.name).Nodup := by
  have run : ∃ s, Run (system sampleParams)
      (init .blank 1 (buildSeedFrontier Store.blank.registry (fun _ _ => none) none)) sampleScan s ∧
      s.discovered.map (fun h => (h.name, h.addrs, h.via, h.depth)) =
        [("disc-abc", ["10.0.0.2", "10.0.0.1"], "local", 1), ("disc-def", ["10.1.0.9"], "disc-abc", 2)] :=
    ⟨_, .step rfl (.step rfl (.step rfl (.step rfl (.step rfl (.step rfl (.step rfl (.step rfl (.step rfl (.step rfl
      (.step rfl (.step rfl (.step rfl (.step rfl (.refl _)))))))))))))), by decide +kernel⟩
  obtain ⟨s, run, found⟩ := run
  exact ⟨s, run, found, (scan_mapped run).1.names⟩

end Engine

end McpSsh
