import McpSsh.DiscoveryExits
import McpSsh.JumpRuns

/-!
# What a scan leaves in the registry

A scan adds the hosts it discovers at the end of one half of the registry and touches
nothing else. So tearing its session down gives the registry back, and each host can be
dialed: its jump hosts are the hosts it was found through, and then those of the seed.
-/

set_option autoImplicit false

namespace McpSsh

open Base

/-! ## The entries of a scan -/

/-- The registry with other entries in one half. -/
def Registry.withHalf (r : Registry) : Half → Dict String ServerConfig → Registry
  | .file, d => { r with config := { r.config with servers := d } }
  | .ephemeral, d => { r with ephemeral := d }

@[simp] theorem Registry.half_withHalf (r : Registry) (half : Half) (d : Dict String ServerConfig) :
    (r.withHalf half d).half half = d := by
  cases half <;> rfl

@[simp] theorem Registry.withHalf_withHalf (r : Registry) (half : Half) (d d' : Dict String ServerConfig) :
    (r.withHalf half d).withHalf half d' = r.withHalf half d' := by
  cases half <;> rfl

@[simp] theorem Registry.withHalf_half (r : Registry) (half : Half) : r.withHalf half (r.half half) = r := by
  cases half <;> rfl

/-- Adding puts the entry into its half. -/
theorem Store.addTo_registry {persist writes : Bool} {s s' : Store} {config : ServerConfig}
    (added : s.addTo persist writes config = .ok s') : s'.registry =
      s.registry.withHalf (.of persist) ((s.registry.half (.of persist)).insert config.name config) := by
  cases persist with
  | true =>
    obtain ⟨-, -, rfl⟩ := add_ok_iff.mp added
    rfl
  | false =>
    obtain ⟨r, inMemory, rfl⟩ := map_eq_ok_iff.mp added
    obtain ⟨-, rfl⟩ := Registry.addEphemeral_ok_iff.mp inMemory
    rfl

theorem Store.addTo_file {writes : Bool} {s s' : Store} {config : ServerConfig}
    (added : s.addTo false writes config = .ok s') : s'.file = s.file := by
  obtain ⟨r, -, rfl⟩ := map_eq_ok_iff.mp added
  rfl

namespace Engine

variable {p : DiscoveryParams} {s t : Engine}

/-- What a step does to the registry: nothing, or it registers one host. -/
def RegistersOne (p : DiscoveryParams) (s t : Engine) : Prop :=
  ∃ fingerprint addr via username name, s.store.addTo p.persist true (registration p fingerprint addr via username name).1 =
    .ok t.store ∧ t.registered = s.registered ++ [name]

theorem registers_dialed (item : FrontierItem) (probes : List Probe) (i : Nat) (addr user : String)
    (result : DialResult) (registers : Bool) :
    ((s.dialed p item probes i addr user result registers).store = s.store ∧
        (s.dialed p item probes i addr user result registers).registered = s.registered) ∨
      s.RegistersOne p (s.dialed p item probes i addr user result registers) := by
  rcases result with _ | _ | fingerprint
  · exact .inl ⟨rfl, rfl⟩
  · exact .inl ⟨rfl, rfl⟩
  · simp only [dialed, presented]
    split
    · exact .inl ⟨rfl, rfl⟩
    split
    · exact .inl ⟨rfl, rfl⟩
    split
    · exact .inl ⟨rfl, rfl⟩
    · rename_i store name poolReachable done
      exact .inr ⟨fingerprint, addr, item, user, name, (register_ok done).2, rfl⟩

theorem registers_of_step {event : DiscoveryEvent} (stepped : s.step p event = some t) :
    (t.store = s.store ∧ t.registered = s.registered) ∨ s.RegistersOne p t := by
  cases steps_of_step stepped with
  | exhausted | stopped | tooDeep | expands | joined | harvested => exact .inl ⟨rfl, rfl⟩
  | keysHarvested =>
    unfold keysHarvested
    split <;> exact .inl ⟨rfl, rfl⟩
  | start =>
    unfold start
    split
    · exact .inl ⟨rfl, rfl⟩
    split
    · exact .inl ⟨rfl, rfl⟩
    simp only
    split <;> exact .inl ⟨rfl, rfl⟩
  | dialed => exact registers_dialed _ _ _ _ _ _ _

/-- The registry is the one before with the registered hosts at the end of one half. -/
def Adds (p : DiscoveryParams) (store : Store) (s : Engine) : Prop :=
  ∃ d entries, s.store.registry = store.registry.withHalf (.of p.persist) d ∧
    d.items = (store.registry.half (.of p.persist)).items ++ entries ∧ entries.map Prod.fst = s.registered ∧
    (∀ e ∈ entries, e.2.name = e.1 ∧ carriesTag p.session e.2 = true) ∧ (p.persist = false → s.store.file = store.file)

theorem Adds.step {store : Store} {event : DiscoveryEvent} (adds : s.Adds p store) (stepped : s.step p event = some t) :
    t.Adds p store := by
  obtain ⟨d, entries, registry, items, names, own, file⟩ := adds
  obtain ⟨same, registered⟩ | ⟨fingerprint, addr, via, username, name, added, registered⟩ := registers_of_step stepped
  · exact ⟨d, entries, same ▸ registry, items, registered ▸ names, own, same ▸ file⟩
  · have free := (Store.addTo_spec added).1
    have fresh : name ∉ d.keys := by
      have absent := Registry.half_eq_none_of_find? free (.of p.persist)
      rw [registry, Registry.half_withHalf] at absent
      exact Dict.get?_eq_none_iff.mp absent
    have tag := carriesTag_registration p fingerprint addr via username name
    refine ⟨d.insert name (registration p fingerprint addr via username name).1,
      entries ++ [(name, (registration p fingerprint addr via username name).1)], ?_, ?_, ?_, ?_, fun inMemory => ?_⟩
    · rw [Store.addTo_registry added, registry, Registry.half_withHalf, Registry.withHalf_withHalf]
      rfl
    · rw [Dict.items_insert_fresh fresh, items, List.append_assoc]
    · rw [List.map_append, names, registered]
      rfl
    · intro e member
      rcases List.mem_append.mp member with old | new
      · exact own e old
      · rw [List.mem_singleton.mp new]
        exact ⟨rfl, tag⟩
    · rw [inMemory] at added
      exact (Store.addTo_file added).trans (file inMemory)

theorem adds_init (store : Store) (keys : Nat) (seeds : List FrontierItem) : (init store keys seeds).Adds p store :=
  ⟨store.registry.half (.of p.persist), [], by simp [init], by simp, rfl, by simp, fun _ => rfl⟩

end Engine

/-! ## Tearing a scan down -/

/-- A target in this half stays: to remove it the file would have to be written. -/
def Half.stays (half : Half) (writes : String → Bool) (name : String) : Bool := half = .file && !writes name

/-- A target in one half only is removed from it, or it stays. -/
theorem removeTarget_withHalf {writes : String → Bool} {r : Registry} {half : Half} {d : Dict String ServerConfig}
    {s : Store} (registry : s.registry = r.withHalf half d) {name : String} (free : r.find? name = none)
    (listed : name ∈ d.keys) :
    if half.stays writes name then ∃ e, removeTarget writes s name = .error e
    else ∃ s', removeTarget writes s name = .ok s' ∧ s'.registry = r.withHalf half (d.erase name) ∧
      (half = .ephemeral → s'.file = s.file) := by
  have absent : name ∉ r.ephemeral.keys :=
    Dict.get?_eq_none_iff.mp (Registry.half_eq_none_of_find? free .ephemeral)
  obtain ⟨registry', file⟩ := s
  cases registry
  cases half with
  | ephemeral =>
    refine ⟨⟨r.withHalf .ephemeral (d.erase name), file⟩, ?_, rfl, fun _ => rfl⟩
    simp [removeTarget, Registry.removeEphemeral, Registry.withHalf, listed]
  | file =>
    cases can : writes name with
    | false =>
      rw [if_pos (by simp [Half.stays, can])]
      refine ⟨.writeFailed, ?_⟩
      simp [removeTarget, Registry.removeEphemeral, absent, Store.remove, listed, Store.commit, can]
    | true =>
      rw [if_neg (by simp [Half.stays, can])]
      refine ⟨⟨r.withHalf .file (d.erase name), .text (appConfigToToml { r.config with servers := d.erase name })⟩, ?_,
        rfl, fun other => absurd other (by decide)⟩
      simp [removeTarget, Registry.removeEphemeral, Registry.withHalf, absent, Store.remove, listed, Store.commit,
        Store.withoutServer, can]

/-- Removing the entries at the end of a half one by one leaves what was there before, and
the entries that stay. -/
theorem removeTargets_withHalf {writes : String → Bool} {r : Registry} {half : Half}
    (entries : List (String × ServerConfig)) (fresh : ∀ e ∈ entries, r.find? e.1 = none)
    {before : List (String × ServerConfig)} {d : Dict String ServerConfig} (items : d.items = before ++ entries)
    {s : Store} (registry : s.registry = r.withHalf half d) (removed : List String) :
    let after := removeTargets writes s removed (entries.map Prod.fst)
    (∃ d', after.1.registry = r.withHalf half d' ∧
      d'.items = before ++ entries.filter fun e => half.stays writes e.1) ∧
      after.2 = removed ++ (entries.map Prod.fst).filter (fun name => !half.stays writes name) ∧
      (half = .ephemeral → after.1.file = s.file) := by
  induction entries generalizing s removed d before with
  | nil => exact ⟨⟨d, registry, items⟩, (List.append_nil removed).symm, fun _ => rfl⟩
  | cons e rest ih =>
    obtain ⟨free, later⟩ := List.forall_mem_cons.mp fresh
    have listed : e.1 ∈ d.keys := by simp [Dict.keys, items]
    have first := @removeTarget_withHalf writes r half d s registry e.1 free listed
    cases stays : half.stays writes e.1 with
    | true =>
      rw [stays, if_pos rfl] at first
      obtain ⟨error, fails⟩ := first
      have whole : d.items = (before ++ [e]) ++ rest := by rw [items, List.append_assoc]; rfl
      obtain ⟨⟨d', undone, left⟩, names, kept⟩ := ih later whole registry removed
      simp only [List.map_cons, removeTargets, fails, List.filter_cons, stays]
      exact ⟨⟨d', undone, by rw [left, List.append_assoc]; rfl⟩, names, kept⟩
    | false =>
      rw [stays, if_neg Bool.false_ne_true] at first
      obtain ⟨s', gone, registry', file⟩ := first
      obtain ⟨undone, names, kept⟩ := ih later (Dict.items_erase_append items) registry' (removed ++ [e.1])
      simp only [List.map_cons, removeTargets, gone, List.filter_cons, stays]
      refine ⟨undone, ?_, fun inMemory => (kept inMemory).trans (file inMemory)⟩
      rw [names, List.append_assoc]
      rfl

namespace Engine

section

variable {p : DiscoveryParams} {store : Store} {connects : Nat → String → Option Nat} {names : Option (List String)}
  {keys : Nat} {events : List DiscoveryEvent} {s : Engine}

theorem adds_of_run {seeds : List FrontierItem} (run : Run (system p) (init store keys seeds) events s) :
    s.Adds p store :=
  run.preserves (fun _ _ _ before stepped => Adds.step before stepped) (adds_init store keys seeds)

/-- The targets of the session's teardown are the hosts that the scan registered. -/
theorem sessionTargets_eq {half : Half} {d : Dict String ServerConfig} {entries : List (String × ServerConfig)}
    {r : Registry} (untagged : ∀ cfg ∈ r.listAll, carriesTag p.session cfg = false)
    (items : d.items = (r.half half).items ++ entries)
    (own : ∀ e ∈ entries, e.2.name = e.1 ∧ carriesTag p.session e.2 = true) :
    sessionTargets (r.withHalf half d) p.session = entries.map Prod.fst := by
  have old : ∀ half, (r.half half).values.filter (carriesTag p.session) = [] := by
    intro half
    rw [List.filter_eq_nil_iff]
    intro cfg listed
    have other : carriesTag p.session cfg = false := by
      refine untagged cfg ?_
      cases half with
      | file => exact List.mem_append_left _ listed
      | ephemeral => exact List.mem_append_right _ listed
    simp [other]
  have new : (d.values.filter (carriesTag p.session)).map ServerConfig.name = entries.map Prod.fst := by
    have tagged : (entries.map Prod.snd).filter (carriesTag p.session) = entries.map Prod.snd := by
      rw [List.filter_eq_self]
      intro cfg listed
      obtain ⟨e, member, rfl⟩ := List.mem_map.mp listed
      exact (own e member).2
    have before := old half
    rw [Dict.values, items, List.map_append, List.filter_append, tagged]
    rw [Dict.values] at before
    rw [before, List.nil_append, List.map_map]
    exact List.map_congr_left fun e member => (own e member).1
  have others := old
  cases half with
  | file =>
    have ephemeral := others .ephemeral
    simp only [Registry.half] at ephemeral
    simp only [sessionTargets, Registry.listAll, Registry.withHalf, List.filter_append, ephemeral, List.append_nil]
    exact new
  | ephemeral =>
    have file := others .file
    simp only [Registry.half] at file
    simp only [sessionTargets, Registry.listAll, Registry.withHalf, List.filter_append, file, List.nil_append]
    exact new

/-- What a teardown leaves and answers: the registry of before, with the hosts that stay. -/
structure Undoes (p : DiscoveryParams) (store : Store) (s : Engine) (writes : String → Bool) : Prop where
  answer : (teardownDiscovery writes s.store p.session).2 =
    if s.registered = [] then .sessionNotFound p.session
    else .tornDown p.session (s.registered.filter fun name => !(Half.of p.persist).stays writes name)
  registry : ∃ d left, (teardownDiscovery writes s.store p.session).1.registry =
      store.registry.withHalf (.of p.persist) d ∧
    d.items = (store.registry.half (.of p.persist)).items ++ left ∧
    left.Sublist (s.store.registry.half (.of p.persist)).items ∧
    left.map Prod.fst = s.registered.filter ((Half.of p.persist).stays writes)
  undone : (∀ name ∈ s.registered, p.persist = true → writes name = true) →
    (teardownDiscovery writes s.store p.session).1.registry = store.registry
  file : p.persist = false → (teardownDiscovery writes s.store p.session).1.file = store.file

/-- **Tearing a scan's session down gives the registry back**, at any point of any scan
whose session no entry carried before: `teardown_discovery` names the hosts that the scan
registered, in order, but those whose removal would have to write the file and cannot, and
leaves the registry as it was but for these. -/
theorem scan_undone
    (run : Run (system p) (init store keys (buildSeedFrontier store.registry connects names)) events s)
    (untagged : ∀ cfg ∈ store.registry.listAll, carriesTag p.session cfg = false) (writes : String → Bool) :
    s.Undoes p store writes := by
  obtain ⟨d, entries, registry, items, registered, own, file⟩ := adds_of_run run
  have mapped := (inv_of_run run).mapped
  have fresh : ∀ e ∈ entries, store.registry.find? e.1 = none := by
    intro e member
    have listed : e.1 ∈ s.discovered.map DiscoveredHost.name :=
      mapped.registered ▸ (registered ▸ List.mem_map_of_mem member : e.1 ∈ s.registered)
    obtain ⟨h, inside, name⟩ := List.mem_map.mp listed
    exact name ▸ (mapped.fresh h inside).1
  have targets := sessionTargets_eq untagged items own
  obtain ⟨⟨d', left, kept⟩, removed, untouched⟩ := @removeTargets_withHalf writes _ _ entries fresh _ _ items _ registry []
  rw [← registry] at targets
  have names : (entries.filter fun e => (Half.of p.persist).stays writes e.1).map Prod.fst =
      s.registered.filter ((Half.of p.persist).stays writes) := by
    rw [← registered, List.filter_map]
    rfl
  refine ⟨?_, ⟨d', entries.filter fun e => (Half.of p.persist).stays writes e.1, ?_, kept, ?_, names⟩, fun can => ?_,
    fun inMemory => ?_⟩
  · rw [registered, List.nil_append] at removed
    simp only [teardownDiscovery, targets, registered, removed]
  · simp only [teardownDiscovery, targets, left]
  · rw [registry, Registry.half_withHalf, items]
    exact List.filter_sublist.trans (List.sublist_append_right _ _)
  · have none_ : entries.filter (fun e => (Half.of p.persist).stays writes e.1) = [] := by
      rw [← List.map_eq_nil_iff (f := Prod.fst), names, List.filter_eq_nil_iff]
      intro name member
      cases persist : p.persist with
      | true => simp [Half.stays, can name member persist]
      | false => simp [Half.stays, Half.of]
    have whole : d' = store.registry.half (.of p.persist) := Dict.ext_items (by rw [kept, none_, List.append_nil])
    simp only [teardownDiscovery, targets, left, whole, Registry.withHalf_half]
  · simp only [teardownDiscovery, targets]
    exact (untouched (by rw [inMemory]; rfl)).trans (file inMemory)

/-- A scan that registers two hosts. -/
theorem scan_undone_sample : ∃ s, Run (system sampleParams)
    (init .blank 1 (buildSeedFrontier Store.blank.registry (fun _ _ => none) none)) sampleScan s ∧
      s.Undoes sampleParams .blank fun _ => false := by
  obtain ⟨s, run⟩ := run_sampleScan
  exact ⟨s, run, scan_undone run (by simp [Registry.listAll, Store.blank, Dict.values, Dict.empty]) _⟩

end

end Engine

/-! ## The tunnels to the discovered hosts -/

/-- Every jump host is a registered server. -/
def Registry.Closed (r : Registry) : Prop := ∀ a b, r.jump a = some b → (r.find? b).isSome

theorem Registry.jump_of_find? {r : Registry} {name : String} {cfg : ServerConfig} (found : r.find? name = some cfg) :
    r.jump name = cfg.jumpHost := by
  rw [Registry.jump, jumpOf, found, Option.bind_some]

/-- The chain of jump hosts of a discovered host: the hosts it was found through, and
behind a seed that is a server, the chain of that server. -/
def Tunnelled (seeds : List FrontierItem) (hosts : List DiscoveredHost) (r₀ r : Registry) (h : DiscoveredHost) : Prop :=
  ∃ seed ∈ seeds, ∃ found chain, found.length = h.depth ∧ Visits (viaOf hosts) h.name (found ++ [seed.name]) ∧
    Visits r.jump h.name (found ++ chain) ∧ if seed.isLocal then chain = [] else Visits r₀.jump seed.name chain

/-- Every seed is the machine the server runs on or a registered server. -/
def Grounded (r : Registry) (seeds : List FrontierItem) : Prop :=
  ∀ seed ∈ seeds, seed.isLocal = false → (r.find? seed.name).isSome

theorem grounded_buildSeedFrontier {r : Registry} {connects : Nat → String → Option Nat} (names : Option (List String)) :
    Grounded r (buildSeedFrontier r connects names) := by
  have explicit : ∀ names turn, Grounded r (explicitSeeds r connects turn names) := by
    intro names turn
    fun_induction explicitSeeds with
    | case1 => simp [Grounded]
    | case2 turn rest ih => exact List.forall_mem_cons.mpr ⟨nofun, ih⟩
    | case3 turn seed rest other conn connected ih =>
      exact List.forall_mem_cons.mpr ⟨fun _ => registered_of_seedConnection connected, ih⟩
    | case4 turn seed rest other failed ih => exact ih
  have default_ : ∀ servers turn, Grounded r (defaultSeeds r connects turn servers) := by
    intro servers turn
    fun_induction defaultSeeds with
    | case1 => simp [Grounded]
    | case2 turn cfg rest hop ih => exact ih
    | case3 turn cfg rest seed conn connected ih =>
      exact List.forall_mem_cons.mpr ⟨fun _ => registered_of_seedConnection connected, ih⟩
    | case4 turn cfg rest seed failed ih => exact ih
  cases names with
  | none => exact List.forall_mem_cons.mpr ⟨nofun, default_ _ _⟩
  | some names => exact explicit _ _

namespace Mapped

variable {p : DiscoveryParams} {seeds : List FrontierItem} {r₀ : Registry} {f : Findings}

/-- What the registry resolves a discovered name to, and where the host was found. -/
theorem resolves (mapped : Mapped p seeds r₀ f) {i : Nat} {h : DiscoveredHost} (listed : f.discovered[i]? = some h) :
    ∃ item, Known seeds (f.discovered.take i) item ∧ h.via = item.name ∧ h.depth = item.depth + 1 ∧
      (f.store.registry.find? h.name).isSome ∧
        f.store.registry.jump h.name = if item.isLocal then none else some h.via := by
  obtain ⟨item, known, via, depth, cfg, entry, own, jump⟩ := mapped.hangs i h listed
  refine ⟨item, known, via, depth, ?_⟩
  have new := (mapped.fresh h (List.mem_of_getElem? listed)).1
  have found : f.store.registry.find? h.name = some cfg := by
    cases half : p.persist with
    | true =>
      rw [half] at entry
      have memory := mapped.untouched .ephemeral h.name (.inl (by rw [half]; decide))
      rw [Registry.half_eq_none_of_find? new .ephemeral] at memory
      rw [Registry.find?]
      simp only [Registry.half] at memory
      rw [memory, Option.none_or]
      exact entry
    | false =>
      rw [half] at entry
      have entry : f.store.registry.ephemeral.get? h.name = some cfg := entry
      rw [Registry.find?, entry, Option.some_or]
  exact ⟨by rw [found]; rfl, (Registry.jump_of_find? found).trans jump⟩

theorem jump_eq (mapped : Mapped p seeds r₀ f) {name : String} (other : name ∉ f.discovered.map DiscoveredHost.name) :
    f.store.registry.jump name = r₀.jump name := by
  rw [Registry.jump, jumpOf, mapped.find?_eq other]
  rfl

/-- A registered name is not one of a discovered host. -/
theorem not_discovered (mapped : Mapped p seeds r₀ f) {name : String} (registered : (r₀.find? name).isSome) :
    name ∉ f.discovered.map DiscoveredHost.name := by
  intro member
  obtain ⟨h, inside, rfl⟩ := List.mem_map.mp member
  rw [(mapped.fresh h inside).1] at registered
  cases registered

/-- What was registered before leads where it led. -/
theorem visits_old (mapped : Mapped p seeds r₀ f) (closed : r₀.Closed) {name : String} {nodes : List String}
    (registered : (r₀.find? name).isSome) (visits : Visits r₀.jump name nodes) :
    Visits f.store.registry.jump name nodes :=
  visits.congr (fun a => (r₀.find? a).isSome) (fun _ known => mapped.jump_eq (mapped.not_discovered known))
    (fun a b _ edge => closed a b edge) registered

/-- By induction on the place in the list: the host it was found on is a seed or listed
before it. -/
theorem tunnelled (mapped : Mapped p seeds r₀ f) (level : ∀ seed ∈ seeds, seed.depth = 0)
    (grounded : Grounded r₀ seeds) (acyclic : Acyclic r₀.jump) (closed : r₀.Closed) (i : Nat) {h : DiscoveredHost}
    (listed : f.discovered[i]? = some h) :
    Tunnelled seeds f.discovered r₀ f.store.registry h := by
  induction i using Nat.strongRecOn generalizing h with
  | ind i ih =>
    obtain ⟨item, known, via, depth, -, jump⟩ := mapped.resolves listed
    have up : viaOf f.discovered h.name = some item.name := via ▸ viaOf_eq mapped.names (List.mem_of_getElem? listed)
    rw [via] at jump
    rcases known with seed | ⟨g, earlier, name, level', remote⟩
    · have top : viaOf f.discovered item.name = none := by
        simp only [viaOf, Option.map_eq_none_iff, List.find?_eq_none, decide_eq_true_eq]
        exact fun g member => (mapped.fresh g member).2 item seed
      have single : [h.name].length = h.depth := by rw [depth, level item seed]; rfl
      cases here : item.isLocal with
      | true =>
        rw [here] at jump
        refine ⟨item, seed, [h.name], [], single, .cons up (.last top), .last jump, ?_⟩
        rw [if_pos here]
      | false =>
        rw [here] at jump
        have registered := grounded item seed here
        obtain ⟨chain, old⟩ := (acyclic.endsWithin (fun a b => Registry.mem_names_of_jump) item.name).visits
        refine ⟨item, seed, [h.name], chain, single, .cons up (.last top), ?_, ?_⟩
        · exact .cons jump (mapped.visits_old closed registered old)
        · rw [here]
          exact old
    · obtain ⟨j, before, found⟩ := List.mem_take_iff_getElem.mp earlier
      have listed' : f.discovered[j]? = some g := by
        rw [← found]
        exact List.getElem?_eq_getElem _
      rw [remote, name] at jump
      rw [name] at up
      obtain ⟨seed, inside, path, chain, length, climbs, dials, behind⟩ := ih j (by omega) listed'
      exact ⟨seed, inside, h.name :: path, chain, by rw [List.length_cons, length, depth, level'], .cons up climbs,
        .cons jump dials, behind⟩

/-- The jump host of a discovered host is a seed or a host discovered before it. -/
theorem closed (mapped : Mapped p seeds r₀ f) (grounded : Grounded r₀ seeds) (closed : r₀.Closed) :
    f.store.registry.Closed := by
  have kept : ∀ {name : String}, (r₀.find? name).isSome → (f.store.registry.find? name).isSome := by
    intro name registered
    rw [mapped.find?_eq (mapped.not_discovered registered)]
    exact registered
  intro a b edge
  by_cases new : a ∈ f.discovered.map DiscoveredHost.name
  · obtain ⟨h, member, rfl⟩ := List.mem_map.mp new
    obtain ⟨i, listed⟩ := List.mem_iff_getElem?.mp member
    obtain ⟨item, known, via, depth, registered, jump⟩ := mapped.resolves listed
    rw [jump] at edge
    cases here : item.isLocal with
    | true => simp [here] at edge
    | false =>
      simp only [here, Bool.false_eq_true, if_false, Option.some.injEq] at edge
      rw [← edge, via]
      rcases known with seed | ⟨g, earlier, name, -⟩
      · exact kept (grounded item seed here)
      · obtain ⟨j, listed'⟩ := List.mem_iff_getElem?.mp (List.mem_of_mem_take earlier)
        obtain ⟨-, -, -, -, found, -⟩ := mapped.resolves listed'
        exact name ▸ found
  · exact kept (closed a b ((mapped.jump_eq new).symm.trans edge))

end Mapped

namespace Engine

/-- **A scan leaves a tunnel to every host it discovered**, at every point of it: if the
jump hosts of the registry were registered and made no cycle, both still hold, and
`jump_host` leads from each discovered host back along the hosts it was found through,
and then along the jump hosts of the seed. -/
theorem scan_tunnels {p : DiscoveryParams} {store : Store} {connects : Nat → String → Option Nat}
    {names : Option (List String)} {keys : Nat} {events : List DiscoveryEvent} {s : Engine}
    (run : Run (system p) (init store keys (buildSeedFrontier store.registry connects names)) events s)
    (acyclic : Acyclic store.registry.jump) (closed : store.registry.Closed) :
    Acyclic s.store.registry.jump ∧ s.store.registry.Closed ∧
      ∀ h ∈ s.discovered,
        Tunnelled (buildSeedFrontier store.registry connects names) s.discovered store.registry s.store.registry h := by
  have mapped := (inv_of_run run).mapped
  have rooted : Rooted store.registry (buildSeedFrontier store.registry connects names) := rooted_buildSeedFrontier names
  have tunnels : ∀ h ∈ s.discovered,
      Tunnelled (buildSeedFrontier store.registry connects names) s.discovered store.registry s.store.registry h := by
    intro h member
    obtain ⟨i, listed⟩ := List.mem_iff_getElem?.mp member
    exact mapped.tunnelled (fun seed inside => (rooted seed inside).1) (grounded_buildSeedFrontier names) acyclic closed i
      listed
  refine ⟨acyclic.overlay (fun name => name ∈ s.discovered.map DiscoveredHost.name) (fun _ => mapped.jump_eq) ?_,
    mapped.closed (grounded_buildSeedFrontier names) closed, tunnels⟩
  rintro _ new
  obtain ⟨h, member, rfl⟩ := List.mem_map.mp new
  obtain ⟨seed, inside, found, chain, length, climbs, dials, behind⟩ := tunnels h member
  exact dials.no_cycle

/-- A scan from the local seed on a blank registry. -/
theorem scan_tunnels_sample : ∃ s, Run (system sampleParams)
    (init .blank 1 (buildSeedFrontier Store.blank.registry (fun _ _ => none) none)) sampleScan s ∧
      Acyclic s.store.registry.jump := by
  obtain ⟨s, run⟩ := run_sampleScan
  have none_ : ∀ a, Store.blank.registry.jump a = none := fun _ => rfl
  refine ⟨s, run, (scan_tunnels run (fun a cycle => ?_) fun a b edge => ?_).1⟩
  · obtain ⟨b, edge, -⟩ := Relation.TransGen.head'_iff.mp cycle
    cases (none_ a).symm.trans edge
  · cases (none_ a).symm.trans edge

end Engine

end McpSsh
