import McpSsh.DiscoveryCompleteness
import McpSsh.DiscoveryExits

/-!
# Which machines a scan expands

The keys of the hosts that a scan discovers are remembered, those of its seeds are not.
Every item is followed from the task or the seed list it comes from to its expansion, so
two expansions of one machine involve a seed: a seed expanded before, or a seed found
again behind another host.
-/

set_option autoImplicit false

namespace McpSsh

open Base

/-! ## Machines -/

section

-- the key that a connection of the pool presented
variable (pooled : Nat → Option String)

def FrontierItem.seedKey (item : FrontierItem) : Option String := item.conn.bind pooled

/-- The host key of the machine behind an item; the local seed has none. -/
def machineOf (hosts : List DiscoveredHost) (item : FrontierItem) : Option String :=
  if item.depth = 0 then item.seedKey pooled
  else (hosts.find? fun h => h.name = item.name).map DiscoveredHost.fingerprint

/-- The keys of the machines that were expanded. -/
def Engine.expandedKeys (s : Engine) : List String := (s.expansions.map Prod.fst).filterMap (machineOf pooled s.discovered)

/-- No machine was expanded twice, and no seed's machine was discovered. -/
structure Once (seeds : List FrontierItem) (s : Engine) : Prop where
  expanded : (s.expandedKeys pooled).Nodup
  apart : ∀ h ∈ s.discovered, ∀ seed ∈ seeds, seed.seedKey pooled ≠ some h.fingerprint

/-- A seed that is expanded is not the machine of a seed expanded before, and a dial that
registers a host does not present the key of a seed. -/
def Distinguishes (p : DiscoveryParams) (seeds : List FrontierItem) (s : Engine) : DiscoveryEvent → Prop
  | .harvested _ => ∀ item, s.phase = .harvesting item → item.depth = 0 → ∀ e ∈ s.expansions, e.1.depth = 0 →
      ∀ key, item.seedKey pooled = some key → e.1.seedKey pooled ≠ some key
  | .dialed i (.up (some key)) registers => s.Registers p (.dialed i (.up (some key)) registers) →
      ∀ seed ∈ seeds, seed.seedKey pooled ≠ some key
  | _ => True

end

/-! ## Custody of the items -/

/-- The item that a task ended with. -/
def Probe.items : Probe → List FrontierItem
  | ⟨_, .finished item⟩ => item.toList
  | _ => []

/-- The items that wait outside the frontier. -/
def Phase.items : Phase → List FrontierItem
  | .harvestingKeys item | .harvesting item => [item]
  | .expanding _ probes => probes.flatMap Probe.items
  | .looping | .finished => []

/-- Every item of the scan, from the expanded ones to the frontier. -/
def Engine.items (s : Engine) : List FrontierItem := s.expansions.map Prod.fst ++ s.phase.items ++ s.frontier

/-- The names of the items of discovered hosts. -/
def remoteNames (items : List FrontierItem) : List String :=
  (items.filter fun item => item.depth ≠ 0).map FrontierItem.name

/-- An item is a seed or stands for a discovered host, each for its own. -/
structure Custody (seeds : List FrontierItem) (hosts : List DiscoveredHost) (items : List FrontierItem) : Prop where
  seeds : ∀ item ∈ items, item.depth = 0 → item ∈ seeds
  known : ∀ item ∈ items, item.depth ≠ 0 → item.name ∈ hosts.map DiscoveredHost.name
  distinct : (remoteNames items).Nodup

theorem remoteNames_append (a b : List FrontierItem) : remoteNames (a ++ b) = remoteNames a ++ remoteNames b := by
  rw [remoteNames, List.filter_append, List.map_append]
  rfl

namespace Custody

variable {seeds : List FrontierItem} {hosts hosts' : List DiscoveredHost} {items items' rest : List FrontierItem}

/-- Items may be dropped and reordered. -/
theorem fewer (custody : Custody seeds hosts items) (perm : (items' ++ rest).Perm items)
    (same : hosts'.map DiscoveredHost.name = hosts.map DiscoveredHost.name) : Custody seeds hosts' items' := by
  have inside : ∀ item ∈ items', item ∈ items := fun item member => perm.mem_iff.mp (List.mem_append_left _ member)
  have names : (remoteNames items' ++ remoteNames rest).Nodup := by
    rw [← remoteNames_append]
    exact ((perm.filter _).map _).nodup_iff.mpr custody.distinct
  exact ⟨fun item member => custody.seeds item (inside item member),
    fun item member deep => same ▸ custody.known item (inside item member) deep, (List.nodup_append.mp names).1⟩

/-- A host that is discovered gets an item of its own. -/
theorem more (custody : Custody seeds hosts items) {host : DiscoveredHost} {item : FrontierItem}
    (perm : items'.Perm (items ++ [item])) (name : item.name = host.name) (deep : item.depth ≠ 0)
    (new : host.name ∉ hosts.map DiscoveredHost.name) : Custody seeds (hosts ++ [host]) items' := by
  refine ⟨fun other member seed => ?_, fun other member far => ?_, ?_⟩
  · obtain old | last := List.mem_append.mp (perm.mem_iff.mp member)
    · exact custody.seeds other old seed
    · cases List.mem_singleton.mp last
      exact absurd seed deep
  · rw [List.map_append]
    obtain old | last := List.mem_append.mp (perm.mem_iff.mp member)
    · exact List.mem_append_left _ (custody.known other old far)
    · cases List.mem_singleton.mp last
      exact List.mem_append_right _ (by simp [name])
  · have names : (remoteNames (items ++ [item])).Nodup := by
      have last : remoteNames [item] = [host.name] := by simp [remoteNames, deep, name]
      rw [remoteNames_append, last]
      refine (List.nodup_append_comm).mp (List.nodup_cons.mpr ⟨fun listed => new ?_, custody.distinct⟩)
      obtain ⟨other, member, same⟩ := List.mem_map.mp listed
      obtain ⟨there, far⟩ := List.mem_filter.mp member
      rw [← same]
      exact custody.known other there (of_decide_eq_true far)
    exact ((perm.filter _).map _).nodup_iff.mpr names

end Custody

/-! ## One step -/

/-- What tells a host from the others. -/
def DiscoveredHost.ident (h : DiscoveredHost) : String × String := (h.name, h.fingerprint)

section

variable {pooled : Nat → Option String} {hosts hosts' : List DiscoveredHost} {item : FrontierItem}

theorem machineOf_congr (same : hosts'.map DiscoveredHost.ident = hosts.map DiscoveredHost.ident) :
    machineOf pooled hosts' = machineOf pooled hosts := by
  have look : ∀ (l : List DiscoveredHost) (name : String), (l.find? fun h => h.name = name).map DiscoveredHost.fingerprint =
      ((l.map DiscoveredHost.ident).find? fun i => i.1 = name).map Prod.snd := by
    intro l name
    rw [List.find?_map, Option.map_map]
    rfl
  funext item
  rw [machineOf, machineOf, look, look, same]

variable (pooled) in
theorem machineOf_host (deep : item.depth ≠ 0) (known : item.name ∈ hosts.map DiscoveredHost.name) :
    ∃ h ∈ hosts, h.name = item.name ∧ machineOf pooled hosts item = some h.fingerprint := by
  obtain ⟨g, member, name⟩ := List.mem_map.mp known
  cases found : hosts.find? fun h => h.name = item.name with
  | none => exact absurd name (by simpa using List.find?_eq_none.mp found g member)
  | some h =>
    refine ⟨h, List.mem_of_find?_eq_some found, by simpa using List.find?_some found, ?_⟩
    rw [machineOf, if_neg deep, found]
    rfl

theorem machineOf_concat (host : DiscoveredHost) (known : item.depth ≠ 0 → item.name ∈ hosts.map DiscoveredHost.name) :
    machineOf pooled (hosts ++ [host]) item = machineOf pooled hosts item := by
  by_cases deep : item.depth = 0
  · rw [machineOf, machineOf, if_pos deep, if_pos deep]
  · obtain ⟨h, -, -, -⟩ := machineOf_host pooled deep (known deep)
    rw [machineOf, machineOf, if_neg deep, if_neg deep, List.find?_append]
    cases found : hosts.find? fun h => h.name = item.name with
    | some h => rfl
    | none =>
      obtain ⟨g, member, name⟩ := List.mem_map.mp (known deep)
      exact absurd name (by simpa using List.find?_eq_none.mp found g member)

end

namespace Engine

variable {p : DiscoveryParams} {s : Engine}

/-- The end of a dial that registers a host. -/
theorem dialed_new {item : FrontierItem} (probes : List Probe) (i : Nat) {addr user key : String} {registers : Bool}
    (new : s.PresentsNew p item addr user key registers) :
    ∃ host found, host.fingerprint = key ∧ found.name = host.name ∧ found.depth ≠ 0 ∧
      (s.dialed p item probes i addr user (.up (some key)) registers).discovered = s.discovered ++ [host] ∧
      (s.dialed p item probes i addr user (.up (some key)) registers).expansions = s.expansions ∧
      (s.dialed p item probes i addr user (.up (some key)) registers).frontier = s.frontier ∧
      (s.dialed p item probes i addr user (.up (some key)) registers).phase =
        .expanding item (probes.set i ⟨addr, .finished (some found)⟩) := by
  obtain ⟨unseen, room, accepted⟩ := new
  simp only [dialed, presented]
  split
  · rename_i seen
    exact absurd seen unseen
  split
  · rename_i full
    exact absurd full (Int.not_le.mpr room)
  split
  · rename_i refused
    have none_ : s.register p key addr item user registers = none := refused
    rw [none_] at accepted
    cases accepted
  · exact ⟨_, _, rfl, rfl, Nat.succ_ne_zero _, rfl, rfl, rfl, rfl⟩

/-- The end of any other dial. -/
theorem dialed_old {item : FrontierItem} (probes : List Probe) (i : Nat) {addr user : String} {result : DialResult}
    {registers : Bool} (old : ¬ ∃ key, result = .up (some key) ∧ s.PresentsNew p item addr user key registers) :
    (s.dialed p item probes i addr user result registers).discovered.map DiscoveredHost.ident =
        s.discovered.map DiscoveredHost.ident ∧
      (s.dialed p item probes i addr user result registers).expansions = s.expansions ∧
      (s.dialed p item probes i addr user result registers).frontier = s.frontier ∧
      (s.dialed p item probes i addr user result registers).phase =
        .expanding item (probes.set i ⟨addr, .finished none⟩) := by
  cases result with
  | failed => exact ⟨rfl, rfl, rfl, rfl⟩
  | up key =>
    cases key with
    | none => exact ⟨rfl, rfl, rfl, rfl⟩
    | some key =>
      simp only [dialed, presented]
      split
      · exact ⟨map_eq_of_alike (map_bare_recordAddr key addr s.discovered) DiscoveredHost.ident fun _ => rfl, rfl, rfl, rfl⟩
      rename_i unseen
      split
      · exact ⟨rfl, rfl, rfl, rfl⟩
      rename_i room
      split
      · exact ⟨rfl, rfl, rfl, rfl⟩
      · rename_i store name poolReachable done
        have accepted : s.register p key addr item user registers = some (store, name, poolReachable) := done
        exact absurd ⟨key, rfl, unseen, Int.not_le.mp room, by rw [accepted]; rfl⟩ old

theorem start_keeps (s : Engine) (item : FrontierItem) (probes : List Probe) (i : Nat) (addr : String) (expired : Bool) :
    ∃ state, Probe.items ⟨addr, state⟩ = [] ∧
      (s.start p item probes i addr expired).phase = .expanding item (probes.set i ⟨addr, state⟩) ∧
      (s.start p item probes i addr expired).discovered = s.discovered ∧
      (s.start p item probes i addr expired).expansions = s.expansions ∧
      (s.start p item probes i addr expired).frontier = s.frontier := by
  unfold start
  split
  · exact ⟨_, rfl, rfl, rfl, rfl, rfl⟩
  split
  · exact ⟨_, rfl, rfl, rfl, rfl, rfl⟩
  simp only
  split
  · exact ⟨_, rfl, rfl, rfl, rfl, rfl⟩
  · exact ⟨_, rfl, rfl, rfl, rfl, rfl⟩

theorem results_items {probes : List Probe} {items : List FrontierItem} (done : results probes = some items) :
    probes.flatMap Probe.items = items := by
  induction probes generalizing items with
  | nil =>
    cases done
    rfl
  | cons probe rest ih =>
    obtain ⟨addr, state⟩ := probe
    cases state with
    | waiting => cases done
    | dialing user => cases done
    | finished item =>
      obtain ⟨later, finished, rfl⟩ := Option.map_eq_some_iff.mp done
      rw [List.flatMap_cons, ih finished]
      rfl

end Engine

/-! ## Custody over a step -/

section

variable {p : DiscoveryParams} {seeds : List FrontierItem} {s t : Engine}

/-- A task that goes on without a host. -/
theorem items_settle {item : FrontierItem} {probes : List Probe} {i : Nat} {addr : String} {before after : ProbeState}
    (phase : s.phase = .expanding item probes) (task : probes[i]? = some ⟨addr, before⟩)
    (unfinished : Probe.items ⟨addr, before⟩ = []) (phase' : t.phase = .expanding item (probes.set i ⟨addr, after⟩))
    (expansions : t.expansions = s.expansions) (frontier : t.frontier = s.frontier) :
    t.items.Perm (s.items ++ Probe.items ⟨addr, after⟩) := by
  have moved := perm_flatMap_set Probe.items task ⟨addr, after⟩
  rw [unfinished, List.nil_append] at moved
  rw [Engine.items, Engine.items, phase, phase', expansions, frontier, Phase.items, Phase.items]
  rw [List.perm_iff_count] at moved ⊢
  intro item'
  have count := moved item'
  simp only [List.count_append] at count ⊢
  omega

/-- What a step does to the items and the hosts. -/
inductive ItemStep (s t : Engine) : Prop where
  | keeps (rest : List FrontierItem) (items : (t.items ++ rest).Perm s.items)
      (hosts : t.discovered.map DiscoveredHost.ident = s.discovered.map DiscoveredHost.ident)
  | finds (host : DiscoveredHost) (item : FrontierItem) (items : t.items.Perm (s.items ++ [item]))
      (hosts : t.discovered = s.discovered ++ [host]) (name : item.name = host.name) (deep : item.depth ≠ 0)

theorem itemStep {event : DiscoveryEvent} (stepped : s.step p event = some t) : ItemStep s t := by
  have same : ∀ u : Engine, u.items = s.items → u.discovered = s.discovered → ItemStep s u := by
    intro u items hosts
    refine .keeps [] ?_ (by rw [hosts])
    rw [List.append_nil, items]
  cases Engine.steps_of_step stepped with
  | exhausted looping empty => exact same _ (by simp [Engine.items, Engine.finish, Phase.items, looping]) rfl
  | stopped looping next => exact same _ (by simp [Engine.items, Engine.finish, Phase.items, looping]) rfl
  | @tooDeep _ item frontier looping next =>
    refine .keeps [item] ?_ rfl
    simp only [Engine.items, looping, next, Phase.items, List.append_nil, List.append_assoc]
    exact List.Perm.append_left _ List.perm_append_comm
  | expands looping next => exact same _ (by simp [Engine.items, Phase.items, looping, next]) rfl
  | keysHarvested phase =>
    unfold Engine.keysHarvested
    split
    · exact same _ (by simp [Engine.items, Phase.items, phase]) rfl
    · exact same _ (by simp [Engine.items, Phase.items, phase]) rfl
  | harvested phase =>
    refine same _ ?_ rfl
    simp [Engine.items, Engine.harvested, Phase.items, phase, Probe.items, List.flatMap_map]
  | start phase task =>
    obtain ⟨state, unfound, phase', hosts, expansions, frontier⟩ := Engine.start_keeps s _ _ _ _ _
    refine .keeps [] ?_ (by rw [hosts])
    have perm := items_settle phase task rfl phase' expansions frontier
    rw [unfound, List.append_nil] at perm
    rwa [List.append_nil]
  | @dialed i result registers item probes addr user phase task =>
    by_cases new : ∃ key, result = .up (some key) ∧ s.PresentsNew p item addr user key registers
    · obtain ⟨key, rfl, new⟩ := new
      obtain ⟨host, found, -, name, deep, hosts, expansions, frontier, phase'⟩ := Engine.dialed_new probes i new
      exact .finds host found (items_settle phase task rfl phase' expansions frontier) hosts name deep
    · obtain ⟨hosts, expansions, frontier, phase'⟩ := Engine.dialed_old probes i new
      refine .keeps [] ?_ hosts
      have perm := items_settle phase task rfl phase' expansions frontier
      rw [show Probe.items ⟨addr, .finished none⟩ = [] from rfl, List.append_nil] at perm
      rwa [List.append_nil]
  | joined phase done =>
    refine .keeps [] ?_ rfl
    rw [List.append_nil, Engine.items, Engine.items, phase, Phase.items, Phase.items, Engine.results_items done]
    simp only [List.append_nil, List.append_assoc]
    exact List.Perm.append_left _ List.perm_append_comm

/-- What holds between any two awaits. -/
structure SeedInv (p : DiscoveryParams) (seeds : List FrontierItem) (r₀ : Registry) (s : Engine) : Prop where
  inv : s.Inv p seeds r₀
  custody : Custody seeds s.discovered s.items

variable {r₀ : Registry}

theorem SeedInv.step (rooted : ∀ seed ∈ seeds, seed.name = localSeed ∨ (r₀.find? seed.name).isSome)
    (before : SeedInv p seeds r₀ s) {event : DiscoveryEvent} (stepped : s.step p event = some t) : SeedInv p seeds r₀ t := by
  have inv := before.inv.step rooted stepped
  refine ⟨inv, ?_⟩
  cases itemStep stepped with
  | keeps rest items hosts =>
    have names := congrArg (List.map Prod.fst) hosts
    rw [List.map_map, List.map_map] at names
    exact before.custody.fewer items names
  | finds host item items hosts name deep =>
    have distinct : (t.discovered.map DiscoveredHost.name).Nodup := inv.mapped.names
    rw [hosts, List.map_append] at distinct
    have new : host.name ∉ s.discovered.map DiscoveredHost.name := fun listed =>
      (List.nodup_append.mp distinct).2.2 _ listed _ (List.mem_singleton_self _) rfl
    rw [hosts]
    exact before.custody.more items name deep new

theorem seedInv_init {store : Store} {keys : Nat} (level : ∀ seed ∈ seeds, seed.depth = 0) :
    SeedInv p seeds store.registry (.init store keys seeds) := by
  refine ⟨Engine.inv_init, fun item member _ => member, fun item member deep => absurd (level item member) deep, ?_⟩
  have none_ : (Engine.init store keys seeds).items.filter (fun item => item.depth ≠ 0) = [] := by
    apply List.filter_eq_nil_iff.mpr
    intro item member
    simpa using level item member
  rw [remoteNames, none_]
  exact List.nodup_nil

end

/-! ## Once over a step -/

section

variable {pooled : Nat → Option String} {p : DiscoveryParams} {seeds : List FrontierItem} {r₀ : Registry} {s t : Engine}

theorem once_congr (expansions : t.expansions = s.expansions)
    (hosts : t.discovered.map DiscoveredHost.ident = s.discovered.map DiscoveredHost.ident) :
    Once pooled seeds t ↔ Once pooled seeds s := by
  have keys : t.expandedKeys pooled = s.expandedKeys pooled := by
    rw [Engine.expandedKeys, Engine.expandedKeys, expansions, machineOf_congr hosts]
  have fingerprints : ∀ key, key ∈ t.discovered.map DiscoveredHost.fingerprint ↔
      key ∈ s.discovered.map DiscoveredHost.fingerprint := by
    intro key
    have same := congrArg (List.map Prod.snd) hosts
    rw [List.map_map, List.map_map] at same
    exact iff_of_eq (congrArg (key ∈ ·) same)
  have apart : ∀ u v : Engine, (∀ key, key ∈ u.discovered.map DiscoveredHost.fingerprint →
      key ∈ v.discovered.map DiscoveredHost.fingerprint) → Once pooled seeds v →
        ∀ h ∈ u.discovered, ∀ seed ∈ seeds, seed.seedKey pooled ≠ some h.fingerprint := by
    intro u v fewer once h member seed inside same
    obtain ⟨g, there, key⟩ := List.mem_map.mp (fewer _ (List.mem_map_of_mem member))
    exact once.apart g there seed inside (key ▸ same)
  constructor
  · intro once
    exact ⟨keys ▸ once.expanded, apart s t (fun key => (fingerprints key).mpr) once⟩
  · intro once
    exact ⟨keys ▸ once.expanded, apart t s (fun key => (fingerprints key).mp) once⟩

/-- The key of a host that is expanded is new, unless a seed is in play. -/
theorem not_mem_expandedKeys_host (held : SeedInv p seeds r₀ s) (once : Once pooled seeds s) {item : FrontierItem}
    (phase : s.phase = .harvesting item) {h : DiscoveredHost} (member : h ∈ s.discovered) (deep : item.depth ≠ 0)
    (name : h.name = item.name) : h.fingerprint ∉ s.expandedKeys pooled := by
  intro listed
  obtain ⟨other, expanded, key⟩ := List.mem_filterMap.mp listed
  have inItems : other ∈ s.items := List.mem_append_left _ (List.mem_append_left _ expanded)
  by_cases level : other.depth = 0
  · rw [machineOf, if_pos level] at key
    exact once.apart h member other (held.custody.seeds other inItems level) key
  · obtain ⟨g, there, otherName, machine⟩ := machineOf_host pooled level (held.custody.known other inItems level)
    have sameKey : g.fingerprint = h.fingerprint := Option.some.inj (machine.symm.trans key)
    have same : g = h := List.inj_on_of_nodup_map held.inv.mapped.fingerprints there member sameKey
    have distinct := held.custody.distinct
    rw [Engine.items, phase, remoteNames_append, remoteNames_append] at distinct
    have first : other.name ∈ remoteNames (s.expansions.map Prod.fst) :=
      List.mem_map.mpr ⟨other, List.mem_filter.mpr ⟨expanded, decide_eq_true level⟩, rfl⟩
    have second : other.name ∈ remoteNames (Phase.items (.harvesting item)) := by
      rw [← otherName, same, name]
      exact List.mem_map.mpr ⟨item, List.mem_filter.mpr ⟨List.mem_singleton_self _, decide_eq_true deep⟩, rfl⟩
    exact (List.nodup_append.mp (List.nodup_append.mp distinct).1).2.2 _ first _ second rfl

theorem expandedKeys_harvested (item : FrontierItem) (crumbs : List String) :
    (s.harvested p item crumbs).expandedKeys pooled =
      s.expandedKeys pooled ++ (machineOf pooled s.discovered item).toList := by
  rw [Engine.expandedKeys, Engine.expandedKeys, Engine.harvested, List.map_append, List.filterMap_append]
  cases machine : machineOf pooled s.discovered item <;> simp [machine]

theorem nodup_concat_iff {α : Type} {l : List α} {a : α} : (l ++ [a]).Nodup ↔ l.Nodup ∧ a ∉ l := by
  rw [List.nodup_append_comm, List.singleton_append, List.nodup_cons, and_comm]

/-- The key of a seed that is expanded is new where the seeds before it have other keys. -/
theorem mem_expandedKeys_seed (held : SeedInv p seeds r₀ s) (once : Once pooled seeds s) {item : FrontierItem}
    (phase : s.phase = .harvesting item) (level : item.depth = 0) {key : String} (presented : item.seedKey pooled = some key) :
    key ∈ s.expandedKeys pooled ↔ ∃ e ∈ s.expansions, e.1.depth = 0 ∧ e.1.seedKey pooled = some key := by
  have seed : item ∈ seeds := by
    apply held.custody.seeds item _ level
    rw [Engine.items, phase]
    exact List.mem_append_left _ (List.mem_append_right _ (List.mem_singleton_self _))
  constructor
  · intro listed
    obtain ⟨_, expanded, machine⟩ := List.mem_filterMap.mp listed
    obtain ⟨e, inside, rfl⟩ := List.mem_map.mp expanded
    by_cases level' : e.1.depth = 0
    · rw [machineOf, if_pos level'] at machine
      exact ⟨e, inside, level', machine⟩
    · have inItems : e.1 ∈ s.items := List.mem_append_left _ (List.mem_append_left _ expanded)
      obtain ⟨h, there, -, own⟩ := machineOf_host pooled level' (held.custody.known e.1 inItems level')
      have same : h.fingerprint = key := Option.some.inj (own.symm.trans machine)
      exact absurd presented (same ▸ once.apart h there item seed)
  · rintro ⟨e, inside, level', machine⟩
    refine List.mem_filterMap.mpr ⟨e.1, List.mem_map_of_mem inside, ?_⟩
    rw [machineOf, if_pos level', machine]

/-- An expansion adds the key of its item. -/
theorem once_harvested (held : SeedInv p seeds r₀ s) {item : FrontierItem} (phase : s.phase = .harvesting item)
    (crumbs : List String) : Once pooled seeds (s.harvested p item crumbs) ↔
      Once pooled seeds s ∧ Distinguishes pooled p seeds s (.harvested crumbs) := by
  have grown : Once pooled seeds (s.harvested p item crumbs) ↔ Once pooled seeds s ∧
      ∀ key, machineOf pooled s.discovered item = some key → key ∉ s.expandedKeys pooled := by
    have split_ : Once pooled seeds (s.harvested p item crumbs) ↔ ((s.harvested p item crumbs).expandedKeys pooled).Nodup ∧
        ∀ h ∈ s.discovered, ∀ seed ∈ seeds, seed.seedKey pooled ≠ some h.fingerprint :=
      ⟨fun once => ⟨once.expanded, once.apart⟩, fun both => ⟨both.1, both.2⟩⟩
    have before : Once pooled seeds s ↔ (s.expandedKeys pooled).Nodup ∧
        ∀ h ∈ s.discovered, ∀ seed ∈ seeds, seed.seedKey pooled ≠ some h.fingerprint :=
      ⟨fun once => ⟨once.expanded, once.apart⟩, fun both => ⟨both.1, both.2⟩⟩
    rw [split_, before, expandedKeys_harvested]
    cases machineOf pooled s.discovered item with
    | none => simp
    | some key =>
      rw [Option.toList_some, nodup_concat_iff]
      simp only [Option.some.injEq, forall_eq']
      exact and_right_comm
  rw [grown]
  refine and_congr_right fun once => ?_
  by_cases level : item.depth = 0
  · rw [machineOf, if_pos level]
    constructor
    · intro new other phase' level' e inside seed key presented same
      cases phase.symm.trans phase'
      exact new key presented ((mem_expandedKeys_seed held once phase level presented).mpr ⟨e, inside, seed, same⟩)
    · intro distinguishes key presented listed
      obtain ⟨e, inside, seed, same⟩ := (mem_expandedKeys_seed held once phase level presented).mp listed
      exact distinguishes item phase level e inside seed key presented same
  · have known : item.name ∈ s.discovered.map DiscoveredHost.name := by
      apply held.custody.known item _ level
      rw [Engine.items, phase]
      exact List.mem_append_left _ (List.mem_append_right _ (List.mem_singleton_self _))
    obtain ⟨h, member, name, machine⟩ := machineOf_host pooled level known
    refine iff_of_true (fun key own => ?_) fun other phase' level' => ?_
    · rw [machine] at own
      cases own
      exact not_mem_expandedKeys_host held once phase member level name
    · cases phase.symm.trans phase'
      exact absurd level' level

/-- The end of a dial adds a host or none. -/
theorem once_dialed (held : SeedInv p seeds r₀ s) {item : FrontierItem} {probes : List Probe} {i : Nat}
    {addr user : String} (phase : s.phase = .expanding item probes) (task : probes[i]? = some ⟨addr, .dialing user⟩)
    (result : DialResult) (registers : Bool) :
    Once pooled seeds (s.dialed p item probes i addr user result registers) ↔
      Once pooled seeds s ∧ Distinguishes pooled p seeds s (.dialed i result registers) := by
  by_cases new : ∃ key, result = .up (some key) ∧ s.PresentsNew p item addr user key registers
  · obtain ⟨key, rfl, new⟩ := new
    obtain ⟨host, found, rfl, -, -, hosts, expansions, -⟩ := Engine.dialed_new probes i new
    have registered : s.Registers p (.dialed i (.up (some host.fingerprint)) registers) :=
      ⟨item, probes, addr, user, phase, task, new⟩
    have keys : (s.dialed p item probes i addr user (.up (some host.fingerprint)) registers).expandedKeys pooled =
        s.expandedKeys pooled := by
      rw [Engine.expandedKeys, Engine.expandedKeys, expansions, hosts]
      apply List.filterMap_congr
      intro other expanded
      have inItems : other ∈ s.items := List.mem_append_left _ (List.mem_append_left _ expanded)
      exact machineOf_concat host (held.custody.known other inItems)
    constructor
    · rintro ⟨expanded, apart⟩
      rw [hosts] at apart
      refine ⟨⟨keys ▸ expanded, fun h member => apart h (List.mem_append_left _ member)⟩, fun _ => ?_⟩
      exact apart host (List.mem_append_right _ (List.mem_singleton_self _))
    · rintro ⟨⟨expanded, apart⟩, distinguishes⟩
      refine ⟨keys.symm ▸ expanded, fun h member => ?_⟩
      rw [hosts] at member
      obtain old | new := List.mem_append.mp member
      · exact apart h old
      · cases List.mem_singleton.mp new
        exact distinguishes registered
  · obtain ⟨hosts, expansions, -⟩ := Engine.dialed_old probes i new
    rw [once_congr expansions hosts]
    refine (and_iff_left ?_).symm
    rcases result with _ | _ | key
    · trivial
    · trivial
    · exact fun registered => absurd (Engine.presents_of_registers phase task registered) new

theorem once_quiet {event : DiscoveryEvent} (expansions : t.expansions = s.expansions)
    (hosts : t.discovered.map DiscoveredHost.ident = s.discovered.map DiscoveredHost.ident)
    (quiet : Distinguishes pooled p seeds s event) :
    Once pooled seeds t ↔ Once pooled seeds s ∧ Distinguishes pooled p seeds s event :=
  (once_congr expansions hosts).trans (and_iff_left quiet).symm

/-- **A step keeps the machines apart exactly when it distinguishes them.** -/
theorem once_step (held : SeedInv p seeds r₀ s) {event : DiscoveryEvent} (stepped : s.step p event = some t) :
    Once pooled seeds t ↔ Once pooled seeds s ∧ Distinguishes pooled p seeds s event := by
  cases Engine.steps_of_step stepped with
  | exhausted => exact once_quiet rfl rfl trivial
  | stopped => exact once_quiet rfl rfl trivial
  | tooDeep => exact once_quiet rfl rfl trivial
  | expands => exact once_quiet rfl rfl trivial
  | keysHarvested =>
    unfold Engine.keysHarvested
    split
    · exact once_quiet rfl rfl trivial
    · exact once_quiet rfl rfl trivial
  | harvested phase => exact once_harvested held phase _
  | start =>
    obtain ⟨state, -, -, hosts, expansions, -⟩ := Engine.start_keeps s _ _ _ _ _
    exact once_quiet expansions (by rw [hosts]) trivial
  | dialed phase task => exact once_dialed held phase task _ _
  | joined => exact once_quiet rfl rfl trivial

/-- **A scan expands no machine twice and discovers no seed's machine exactly when all its
steps tell the machines apart.** -/
theorem once_iff_run {store : Store} {connects : Nat → String → Option Nat} {names : Option (List String)} {keys : Nat}
    {events : List DiscoveryEvent}
    (run : Run (Engine.system p) (.init store keys (buildSeedFrontier store.registry connects names)) events s) :
    Once pooled (buildSeedFrontier store.registry connects names) s ↔
      Run (guard (Engine.system p) (Distinguishes pooled p (buildSeedFrontier store.registry connects names)))
        (.init store keys (buildSeedFrontier store.registry connects names)) events s := by
  have rooted : Rooted store.registry (buildSeedFrontier store.registry connects names) := rooted_buildSeedFrontier names
  have keep : ∀ s event t, SeedInv p (buildSeedFrontier store.registry connects names) store.registry s →
      Engine.system p s event t → SeedInv p (buildSeedFrontier store.registry connects names) store.registry t :=
    fun s event t held stepped => held.step (fun seed inside => (rooted seed inside).2) stepped
  have start : Once pooled (buildSeedFrontier store.registry connects names)
      (.init store keys (buildSeedFrontier store.registry connects names)) := ⟨List.nodup_nil, nofun⟩
  have each : ∀ s event t, SeedInv p (buildSeedFrontier store.registry connects names) store.registry s →
      Engine.system p s event t → (¬ Once pooled (buildSeedFrontier store.registry connects names) t ↔
        ¬ Once pooled (buildSeedFrontier store.registry connects names) s ∨
          ¬ Distinguishes pooled p (buildSeedFrontier store.registry connects names) s event) :=
    fun s event t held stepped => (not_congr (once_step held stepped)).trans not_and_or
  rw [run.guard_iff keep each (seedInv_init fun seed inside => (rooted seed inside).1) (not_not.mpr start), not_not]

end

/-! ## One machine, given twice -/

/-- A registry with one server. -/
def webStore : Store :=
  { Store.blank with registry :=
    ⟨{}, Dict.empty.insert "web" { name := "web", host := "10.0.0.6", user := "root", authType := .agent }⟩ }

/-- Two seeds, and a machine that is neither. -/
theorem once_iff_run_seeds : ∃ s, Once (fun _ => some "SHA256:web")
    (buildSeedFrontier webStore.registry (fun _ _ => some 0) (some ["local", "web"])) s ∧
      s.expansions.length = 2 ∧ s.discovered.map DiscoveredHost.fingerprint = ["SHA256:abc"] := by
  have run : ∃ s, Run (guard (Engine.system Engine.sampleParams) (Distinguishes (fun _ => some "SHA256:web")
        Engine.sampleParams (buildSeedFrontier webStore.registry (fun _ _ => some 0) (some ["local", "web"]))))
      (.init webStore 1 (buildSeedFrontier webStore.registry (fun _ _ => some 0) (some ["local", "web"])))
      [.turn false, .keysHarvested 0 [], .harvested ["10.0.0.1"], .start 0 false, .dialed 0 (.up (some "SHA256:abc")) true,
        .joined, .turn false, .keysHarvested 0 [], .harvested []] s ∧
      s.expansions.length = 2 ∧ s.discovered.map DiscoveredHost.fingerprint = ["SHA256:abc"] := by
    refine ⟨_, .step ⟨rfl, trivial⟩ (.step ⟨rfl, trivial⟩ (.step ⟨rfl, ?_⟩ (.step ⟨rfl, trivial⟩ (.step ⟨rfl, ?_⟩
      (.step ⟨rfl, trivial⟩ (.step ⟨rfl, trivial⟩ (.step ⟨rfl, trivial⟩ (.step ⟨rfl, ?_⟩ (.refl _))))))))), rfl, rfl⟩
    · exact fun item phase first e member => nomatch member
    · intro _
      decide +kernel
    · intro item phase first
      cases phase
      decide +kernel
  obtain ⟨s, run, twice, found⟩ := run
  exact ⟨s, (once_iff_run (run.mono fun _ _ _ step => step.1)).mpr run, twice, found⟩

/-- **A seed that is named twice is expanded twice.** -/
theorem repeated_seed_expanded : ¬ ∀ (pooled : Nat → Option String) (p : DiscoveryParams) (store : Store)
    (connects : Nat → String → Option Nat) (names : Option (List String)) (keys : Nat) (events : List DiscoveryEvent)
    (s : Engine), Run (Engine.system p) (.init store keys (buildSeedFrontier store.registry connects names)) events s →
      Once pooled (buildSeedFrontier store.registry connects names) s := by
  intro claim
  have once := claim (fun _ => some "SHA256:abc") Engine.sampleParams webStore (fun _ _ => some 0) (some ["web", "web"]) 1
    [.turn false, .keysHarvested 0 [], .harvested [], .joined, .turn false, .keysHarvested 0 [], .harvested []] _
    (.step rfl (.step rfl (.step rfl (.step rfl (.step rfl (.step rfl (.step rfl (.refl _))))))))
  exact absurd once.expanded (by decide +kernel)

end McpSsh
