import McpSsh.Discovery
import McpSsh.Base.Text

/-!
# The invariant of the discovery engine

What holds between any two awaits of a scan, for every network, schedule and
outcome of registrations: which hosts are listed, where they hang, what the graph
and the registry hold, and which addresses are recorded.
-/

set_option autoImplicit false

namespace McpSsh

open Base

/-! ## Fresh names -/

/-- The loop for a free name ends with a free name, which is the base name or the
base name with a suffix. -/
theorem freeName_spec {taken : String → Bool} {base : String} {fuel suffix : Nat} {current name : String}
    (found : freeName taken base fuel suffix current = some name) :
    taken name = false ∧ (name = current ∨ ∃ k : Nat, name = base ++ "-" ++ toString k) := by
  induction fuel generalizing suffix current with
  | zero =>
    unfold freeName at found
    split at found
    · cases found
    · rename_i free
      cases found
      exact ⟨by simpa using free, .inl rfl⟩
  | succ fuel ih =>
    unfold freeName at found
    split at found
    · obtain ⟨free, same | suffixed⟩ := ih found
      · exact ⟨free, .inr ⟨suffix, same⟩⟩
      · exact ⟨free, .inr suffixed⟩
    · rename_i free
      cases found
      exact ⟨by simpa using free, .inl rfl⟩

/-- The loop finds a free name before it has tried more names than are taken. -/
theorem freeName_isSome {taken : String → Bool} {base : String} {names : List String}
    (covered : ∀ name, taken name = true → name ∈ names) (tried : List String) {fuel suffix : Nat} {current : String}
    (distinct : (current :: tried).Nodup) (known : ∀ name ∈ tried, name ∈ names)
    (later : ∀ k : Nat, suffix ≤ k → base ++ "-" ++ toString k ∉ current :: tried)
    (enough : names.length ≤ fuel + tried.length) : (freeName taken base fuel suffix current).isSome := by
  induction fuel generalizing suffix current tried with
  | zero =>
    unfold freeName
    split
    · rename_i used
      have subset : ∀ name ∈ current :: tried, name ∈ names := by
        intro name member
        rcases List.mem_cons.mp member with rfl | member
        · exact covered name used
        · exact known name member
      have bound := (List.Nodup.subperm distinct subset).length_le
      simp only [List.length_cons] at bound
      omega
    · rfl
  | succ fuel ih =>
    unfold freeName
    split
    · rename_i used
      apply ih (current :: tried) (List.nodup_cons.mpr ⟨later suffix (Nat.le_refl _), distinct⟩)
      · intro name member
        rcases List.mem_cons.mp member with rfl | member
        · exact covered name used
        · exact known name member
      · intro k after member
        rcases List.mem_cons.mp member with same | member
        · have := toString_nat_inj (String.append_right_inj _ |>.mp same)
          omega
        · exact later k (by omega) member
      · simp only [List.length_cons]
        omega
    · rfl

/-- **`_register` always finds a name.** -/
theorem pickName_isSome (p : DiscoveryParams) (r : Registry) (fingerprint : String) :
    (pickName p r fingerprint).isSome := by
  refine freeName_isSome (fun name taken => Registry.mem_names_iff.mpr taken) [] (List.nodup_singleton _) (by simp)
    (fun k _ member => ?_) (Nat.le_refl _)
  have same := congrArg (fun s => s.toList.length) (List.mem_singleton.mp member)
  simp only [String.toList_append, List.length_append] at same
  have dash : "-".toList.length = 1 := rfl
  omega

/-- The picked name is free and holds a dash. -/
theorem pickName_spec {p : DiscoveryParams} {r : Registry} {fingerprint name : String}
    (picked : pickName p r fingerprint = some name) : r.find? name = none ∧ '-' ∈ name.toList := by
  obtain ⟨free, form⟩ := freeName_spec picked
  refine ⟨by simpa using free, ?_⟩
  rcases form with rfl | ⟨k, rfl⟩ <;> simp [baseName, String.toList_append]

/-! ## What a scan has found -/

/-- The part of the engine that tells what was found. -/
structure Findings where
  store : Store
  discovered : List DiscoveredHost
  graph : Dict String (List String)
  registered : List String
  visitedFps : List String
  dials : List DialRecord
  opened : Nat
  openConns : List Nat
  closed : List Nat

def Engine.findings (s : Engine) : Findings :=
  ⟨s.store, s.discovered, s.graph, s.registered, s.visitedFps, s.dials, s.opened, s.openConns, s.closed⟩

/-- An item that may be expanded: a seed, or one that stands for a discovered host. -/
def Known (seeds : List FrontierItem) (hosts : List DiscoveredHost) (item : FrontierItem) : Prop :=
  item ∈ seeds ∨ ∃ g ∈ hosts, item.name = g.name ∧ item.depth = g.depth ∧ item.isLocal = false

/-- Every host is still there, under its name and at its depth. -/
def Keeps (hosts hosts' : List DiscoveredHost) : Prop :=
  ∀ g ∈ hosts, ∃ g' ∈ hosts', g.name = g'.name ∧ g.depth = g'.depth

theorem Known.keeps {seeds : List FrontierItem} {hosts hosts' : List DiscoveredHost} (kept : Keeps hosts hosts')
    {item : FrontierItem} (known : Known seeds hosts item) : Known seeds hosts' item := by
  rcases known with seed | ⟨g, member, name, depth, remote⟩
  · exact .inl seed
  · obtain ⟨g', member', sameName, sameDepth⟩ := kept g member
    exact .inr ⟨g', member', name.trans sameName, depth.trans sameDepth, remote⟩

/-- The host was found from a seed or a host discovered before, lies one level below
it and is registered with it as jump host, unless that is the local seed. -/
def Hangs (p : DiscoveryParams) (seeds : List FrontierItem) (r : Registry) (before : List DiscoveredHost)
    (h : DiscoveredHost) : Prop :=
  ∃ item, Known seeds before item ∧ h.via = item.name ∧ h.depth = item.depth + 1 ∧
    ∃ cfg, (r.half (.of p.persist)).get? h.name = some cfg ∧ cfg.name = h.name ∧
      cfg.jumpHost = if item.isLocal then none else some h.via

/-- The names of the hosts found from `via`, if there are any. -/
def childrenOf (hosts : List DiscoveredHost) (via : String) : Option (List String) :=
  let found := (hosts.filter fun h => h.via = via).map DiscoveredHost.name
  if found = [] then none else some found

theorem childrenOf_concat (hosts : List DiscoveredHost) (h : DiscoveredHost) (via : String) :
    childrenOf (hosts ++ [h]) via =
      if via = h.via then some ((childrenOf hosts via).getD [] ++ [h.name]) else childrenOf hosts via := by
  by_cases here : via = h.via
  · subst here
    rw [if_pos rfl]
    by_cases none_ : (hosts.filter fun g => g.via = h.via).map DiscoveredHost.name = []
    · simp only [childrenOf, none_, if_true, Option.getD_none, List.filter_append, List.map_append]
      simp
    · simp only [childrenOf, none_, if_false, Option.getD_some, List.filter_append, List.map_append]
      simp
  · have off : ¬ h.via = via := fun same => here same.symm
    simp [childrenOf, List.filter_append, off, here]

/-- A host hangs as before where its entry is the same. -/
theorem Hangs.transfer {p : DiscoveryParams} {seeds : List FrontierItem} {r r' : Registry}
    {before : List DiscoveredHost} {h : DiscoveredHost} (hangs : Hangs p seeds r before h)
    (same : (r'.half (.of p.persist)).get? h.name = (r.half (.of p.persist)).get? h.name) :
    Hangs p seeds r' before h := by
  obtain ⟨item, known, via, depth, cfg, entry, own, jump⟩ := hangs
  exact ⟨item, known, via, depth, cfg, same.trans entry, own, jump⟩

/-- What holds of the findings between any two awaits. -/
structure Mapped (p : DiscoveryParams) (seeds : List FrontierItem) (r₀ : Registry) (f : Findings) : Prop where
  fingerprints : (f.discovered.map DiscoveredHost.fingerprint).Nodup
  names : (f.discovered.map DiscoveredHost.name).Nodup
  bounded : (f.discovered.length : Int) ≤ max 0 p.maxNodes
  depths : ∀ h ∈ f.discovered, (h.depth : Int) ≤ p.maxDepth
  hangs : ∀ i h, f.discovered[i]? = some h → Hangs p seeds f.store.registry (f.discovered.take i) h
  graph : ∀ via, f.graph.get? via = childrenOf f.discovered via
  registered : f.registered = f.discovered.map DiscoveredHost.name
  /-- The discovered names are new to the registry and no seed's. -/
  fresh : ∀ h ∈ f.discovered, r₀.find? h.name = none ∧ ∀ seed ∈ seeds, h.name ≠ seed.name
  /-- Every other entry is as it was. -/
  untouched : ∀ half entry, half ≠ .of p.persist ∨ entry ∉ f.discovered.map DiscoveredHost.name →
    (f.store.registry.half half).get? entry = (r₀.half half).get? entry
  visited : ∀ h ∈ f.discovered, h.fingerprint ∈ f.visitedFps
  presented : ∀ d ∈ f.dials, ∀ fp, d.result = .up (some fp) → fp ∈ f.visitedFps
  /-- A dial that presented a discovered host's key has its address in the host's. -/
  recorded : ∀ d ∈ f.dials, ∀ fp, d.result = .up (some fp) → ∀ h ∈ f.discovered, h.fingerprint = fp → d.addr ∈ h.addrs
  /-- A connection is closed or kept to be closed at the end. -/
  connections : ∀ c, c < f.opened → c ∈ f.closed ∨ c ∈ f.openConns

/-! ## Recording an address -/

/-- A host without its addresses. -/
def DiscoveredHost.bare (h : DiscoveredHost) : DiscoveredHost := { h with addrs := [] }

/-- Two hosts that differ at most in what a scan may still add to them. -/
structure SameHost (g h : DiscoveredHost) : Prop where
  name : g.name = h.name
  fingerprint : g.fingerprint = h.fingerprint
  via : g.via = h.via
  depth : g.depth = h.depth

theorem sameHost_of_bare {g h : DiscoveredHost} (same : g.bare = h.bare) : SameHost g h := by
  simp only [DiscoveredHost.bare, DiscoveredHost.mk.injEq] at same
  exact ⟨same.1, same.2.1, same.2.2.2.1, same.2.2.2.2.1⟩

theorem map_bare_recordAddr (fingerprint addr : String) (hosts : List DiscoveredHost) :
    (recordAddr fingerprint addr hosts).map DiscoveredHost.bare = hosts.map DiscoveredHost.bare := by
  induction hosts with
  | nil => rfl
  | cons h hosts ih =>
    unfold recordAddr
    split
    · rfl
    · rw [List.map_cons, ih, List.map_cons]

/-- Recording keeps every address. -/
theorem mem_recordAddr {fingerprint addr : String} {hosts : List DiscoveredHost} {h : DiscoveredHost}
    (member : h ∈ recordAddr fingerprint addr hosts) :
    ∃ g ∈ hosts, g.fingerprint = h.fingerprint ∧ ∀ a ∈ g.addrs, a ∈ h.addrs := by
  induction hosts with
  | nil => cases member
  | cons first hosts ih =>
    unfold recordAddr at member
    split at member
    · rcases List.mem_cons.mp member with rfl | later
      · exact ⟨first, by simp, rfl, fun a inside => List.mem_append_left _ inside⟩
      · exact ⟨h, by simp [later], rfl, fun a inside => inside⟩
    · rcases List.mem_cons.mp member with rfl | later
      · exact ⟨h, by simp, rfl, fun a inside => inside⟩
      · obtain ⟨g, inside, same, kept⟩ := ih later
        exact ⟨g, by simp [inside], same, kept⟩

/-- The host with the presented key has the address afterwards. -/
theorem addr_mem_recordAddr {fingerprint addr : String} {hosts : List DiscoveredHost}
    (distinct : (hosts.map DiscoveredHost.fingerprint).Nodup) {h : DiscoveredHost}
    (member : h ∈ recordAddr fingerprint addr hosts) (same : h.fingerprint = fingerprint) : addr ∈ h.addrs := by
  induction hosts with
  | nil => cases member
  | cons first hosts ih =>
    obtain ⟨unique, distinct⟩ := List.nodup_cons.mp distinct
    unfold recordAddr at member
    split at member
    · rename_i here
      rcases List.mem_cons.mp member with rfl | later
      · simp
      · exact absurd (List.mem_map.mpr ⟨h, later, same.trans here.1.symm⟩) unique
    · rename_i other
      rcases List.mem_cons.mp member with rfl | later
      · by_contra absent
        exact other ⟨same, absent⟩
      · exact ih distinct later

section

variable {hosts hosts' : List DiscoveredHost} (alike : hosts'.map DiscoveredHost.bare = hosts.map DiscoveredHost.bare)

include alike

/-- Lists of hosts that differ in addresses alone agree on everything else. -/
theorem map_eq_of_alike {α : Type} (view : DiscoveredHost → α) (blind : ∀ h, view h.bare = view h) :
    hosts'.map view = hosts.map view := by
  have same := congrArg (List.map view) alike
  simpa only [List.map_map, Function.comp_def, blind] using same

theorem mem_of_alike {h : DiscoveredHost} (member : h ∈ hosts') : ∃ g ∈ hosts, SameHost g h := by
  have inside : h.bare ∈ hosts.map DiscoveredHost.bare := alike ▸ List.mem_map_of_mem member
  obtain ⟨g, there, same⟩ := List.mem_map.mp inside
  exact ⟨g, there, sameHost_of_bare same⟩

theorem take_alike (i : Nat) :
    (hosts'.take i).map DiscoveredHost.bare = (hosts.take i).map DiscoveredHost.bare := by
  rw [List.map_take, List.map_take, alike]

theorem childrenOf_alike (via : String) : childrenOf hosts' via = childrenOf hosts via := by
  have same : (hosts'.filter fun h => h.via = via).map DiscoveredHost.name =
      (hosts.filter fun h => h.via = via).map DiscoveredHost.name := by
    have filtered := congrArg (fun l => (l.filter fun h => h.via = via).map DiscoveredHost.name) alike
    simp only [List.filter_map, List.map_map, Function.comp_def] at filtered
    exact filtered
  simp only [childrenOf, same]

theorem keeps_of_alike : Keeps hosts hosts' := by
  intro g member
  obtain ⟨g', member', same⟩ := mem_of_alike alike.symm member
  exact ⟨g', member', same.name.symm, same.depth.symm⟩

end

/-! ## One dial -/

namespace Mapped

variable {p : DiscoveryParams} {seeds : List FrontierItem} {r₀ : Registry} {f : Findings}

/-- A dial that presents no key. -/
theorem silent (mapped : Mapped p seeds r₀ f) {d : DialRecord} (noKey : ∀ fp, d.result ≠ .up (some fp)) :
    Mapped p seeds r₀ { f with dials := f.dials ++ [d] } := by
  refine { mapped with presented := fun e member fp up => ?_, recorded := fun e member fp up => ?_ }
  · rcases List.mem_append.mp member with old | new
    · exact mapped.presented e old fp up
    · exact absurd (List.mem_singleton.mp new ▸ up) (noKey fp)
  · rcases List.mem_append.mp member with old | new
    · exact mapped.recorded e old fp up
    · exact absurd (List.mem_singleton.mp new ▸ up) (noKey fp)

/-- With one more connection, each one is the new one or accounted for. -/
theorem connections_succ (mapped : Mapped p seeds r₀ f) {c : Nat} (before : c < f.opened + 1) :
    c = f.opened ∨ c ∈ f.closed ∨ c ∈ f.openConns := by
  by_cases last : c = f.opened
  · exact .inl last
  · exact .inr (mapped.connections c (by omega))

/-- A connection that is opened and closed again. -/
theorem closes (mapped : Mapped p seeds r₀ f) :
    Mapped p seeds r₀ { f with opened := f.opened + 1, closed := f.closed ++ [f.opened] } := by
  refine { mapped with connections := fun c before => ?_ }
  rcases mapped.connections_succ before with rfl | closed | own
  · simp
  · exact .inl (List.mem_append_left _ closed)
  · exact .inr own

/-- A dial that presents a key seen before. -/
theorem again (mapped : Mapped p seeds r₀ f) {fingerprint : String} (seen : fingerprint ∈ f.visitedFps)
    (via : FrontierItem) (addr : String) :
    Mapped p seeds r₀ { f with
      dials := f.dials ++ [⟨via, addr, .up (some fingerprint)⟩]
      discovered := recordAddr fingerprint addr f.discovered } := by
  have alike := map_bare_recordAddr fingerprint addr f.discovered
  have names := map_eq_of_alike alike DiscoveredHost.name fun _ => rfl
  have fingerprints := map_eq_of_alike alike DiscoveredHost.fingerprint fun _ => rfl
  have length : (recordAddr fingerprint addr f.discovered).length = f.discovered.length := by
    simpa using congrArg List.length alike
  refine ⟨?_, ?_, ?_, fun h member => ?_, fun i h found => ?_, fun via => ?_, ?_, fun h member => ?_, ?_,
    fun h member => ?_, fun d member fp up => ?_, fun d member fp up h inside same => ?_, mapped.connections⟩
  · exact fingerprints ▸ mapped.fingerprints
  · exact names ▸ mapped.names
  · simpa only [length] using mapped.bounded
  · obtain ⟨g, inside, same⟩ := mem_of_alike alike member
    exact same.depth ▸ mapped.depths g inside
  · have bare : (f.discovered.map DiscoveredHost.bare)[i]? = some h.bare := by
      rw [← alike, List.getElem?_map, found, Option.map_some]
    rw [List.getElem?_map] at bare
    obtain ⟨g, at_, same⟩ := Option.map_eq_some_iff.mp bare
    obtain ⟨item, known, via, depth, cfg, entry, own, jump⟩ := mapped.hangs i g at_
    obtain ⟨name, -, sameVia, sameDepth⟩ := sameHost_of_bare same
    exact ⟨item, known.keeps (keeps_of_alike (take_alike alike i)), sameVia.symm.trans via, sameDepth.symm.trans depth, cfg,
      name ▸ entry, own.trans name, by rw [jump, sameVia]⟩
  · exact (mapped.graph via).trans (childrenOf_alike alike via).symm
  · exact mapped.registered.trans names.symm
  · obtain ⟨g, inside, same⟩ := mem_of_alike alike member
    exact same.name ▸ mapped.fresh g inside
  · simpa only [names] using mapped.untouched
  · obtain ⟨g, inside, same⟩ := mem_of_alike alike member
    exact same.fingerprint ▸ mapped.visited g inside
  · rcases List.mem_append.mp member with old | new
    · exact mapped.presented d old fp up
    · cases List.mem_singleton.mp new
      cases up
      exact seen
  · rcases List.mem_append.mp member with old | new
    · obtain ⟨g, there, key, kept⟩ := mem_recordAddr inside
      exact kept _ (mapped.recorded d old fp up g there (key.trans same))
    · cases List.mem_singleton.mp new
      cases up
      exact addr_mem_recordAddr mapped.fingerprints inside same

/-- A new key that a dial presents is visited. -/
theorem presented_concat (mapped : Mapped p seeds r₀ f) (via : FrontierItem) (addr fingerprint : String)
    {d : DialRecord}
    (member : d ∈ f.dials ++ [⟨via, addr, .up (some fingerprint)⟩]) {fp : String} (up : d.result = .up (some fp)) :
    fp ∈ f.visitedFps ++ [fingerprint] := by
  rcases List.mem_append.mp member with old | new
  · exact List.mem_append_left _ (mapped.presented d old fp up)
  · cases List.mem_singleton.mp new
    cases up
    simp

/-- A dial that presents a new key, of a host that is not kept. -/
theorem dropped (mapped : Mapped p seeds r₀ f) {fingerprint : String} (unseen : fingerprint ∉ f.visitedFps)
    (via : FrontierItem) (addr : String) :
    Mapped p seeds r₀ { f with
      dials := f.dials ++ [⟨via, addr, .up (some fingerprint)⟩]
      visitedFps := f.visitedFps ++ [fingerprint] } := by
  refine { mapped with
    visited := fun h member => List.mem_append_left _ (mapped.visited h member)
    presented := fun d member fp up => mapped.presented_concat via addr fingerprint member up
    recorded := fun d member fp up h inside same => ?_ }
  rcases List.mem_append.mp member with old | new
  · exact mapped.recorded d old fp up h inside same
  · cases List.mem_singleton.mp new
    cases up
    exact absurd (same ▸ mapped.visited h inside) unseen

/-- A discovered name is taken. -/
theorem name_taken (mapped : Mapped p seeds r₀ f) {name : String}
    (free : f.store.registry.find? name = none) : name ∉ f.discovered.map DiscoveredHost.name := by
  intro member
  obtain ⟨h, inside, rfl⟩ := List.mem_map.mp member
  obtain ⟨i, found⟩ := List.mem_iff_getElem?.mp inside
  obtain ⟨item, -, -, -, cfg, entry, -⟩ := mapped.hangs i h found
  rw [Registry.half_eq_none_of_find? free] at entry
  cases entry

/-- A name that is no discovered host's resolves as before the scan. -/
theorem find?_eq (mapped : Mapped p seeds r₀ f) {name : String} (other : name ∉ f.discovered.map DiscoveredHost.name) :
    f.store.registry.find? name = r₀.find? name := by
  have inMemory := mapped.untouched .ephemeral name (.inr other)
  have inFile := mapped.untouched .file name (.inr other)
  simp only [Registry.half] at inMemory inFile
  rw [Registry.find?, inMemory, inFile, Registry.find?]

/-- One more member with a new value. -/
theorem nodup_map_concat {α β : Type} {f : α → β} {l : List α} {a : α} (distinct : (l.map f).Nodup)
    (new : f a ∉ l.map f) : ((l ++ [a]).map f).Nodup := by
  rw [List.map_append]
  apply (List.nodup_append_comm).mp
  exact List.nodup_cons.mpr ⟨new, distinct⟩

/-- Every host hangs where it did, and the registered one from the host it was found on. -/
theorem hangs_found (mapped : Mapped p seeds r₀ f) {item : FrontierItem} (known : Known seeds f.discovered item)
    {host : DiscoveredHost} (via : host.via = item.name) (depth : host.depth = item.depth + 1) {cfg : ServerConfig}
    (named : cfg.name = host.name) (jump : cfg.jumpHost = if item.isLocal then none else some host.via)
    (newName : host.name ∉ f.discovered.map DiscoveredHost.name) {r : Registry}
    (entries : ∀ half entry, (r.half half).get? entry =
      if half = .of p.persist ∧ entry = host.name then some cfg else (f.store.registry.half half).get? entry)
    (i : Nat) (h : DiscoveredHost) (at_ : (f.discovered ++ [host])[i]? = some h) :
    Hangs p seeds r ((f.discovered ++ [host]).take i) h := by
  have same : ∀ g ∈ f.discovered, (r.half (.of p.persist)).get? g.name =
      (f.store.registry.half (.of p.persist)).get? g.name := by
    intro g inside
    rw [entries, if_neg]
    rintro ⟨-, equal⟩
    exact newName (equal ▸ List.mem_map_of_mem inside)
  by_cases old : i < f.discovered.length
  · rw [List.getElem?_append_left old] at at_
    rw [List.take_append_of_le_length (Nat.le_of_lt old)]
    exact (mapped.hangs i h at_).transfer (same h (List.mem_of_getElem? at_))
  · have last : i = f.discovered.length := by
      have bound := (List.getElem?_eq_some_iff.mp at_).1
      simp only [List.length_append, List.length_singleton] at bound
      omega
    subst last
    rw [List.getElem?_concat_length, Option.some.injEq] at at_
    subst at_
    rw [List.take_left]
    exact ⟨item, known, via, depth, cfg, by rw [entries, if_pos ⟨rfl, rfl⟩], named, jump⟩

/-- The name of a host to register is new, and no seed's. -/
theorem fresh_found (rooted : ∀ seed ∈ seeds, seed.name = localSeed ∨ (r₀.find? seed.name).isSome) {name : String}
    (freeBefore : r₀.find? name = none) (dash : '-' ∈ name.toList) : ∀ seed ∈ seeds, name ≠ seed.name := by
  rintro seed inside rfl
  rcases rooted seed inside with local_ | registered
  · rw [local_] at dash
    exact absurd dash (by decide)
  · rw [freeBefore] at registered
    cases registered

/-- One more entry, under one more discovered name. -/
theorem untouched_found (mapped : Mapped p seeds r₀ f) {host : DiscoveredHost} {cfg : ServerConfig} {r : Registry}
    (entries : ∀ half entry, (r.half half).get? entry =
      if half = .of p.persist ∧ entry = host.name then some cfg else (f.store.registry.half half).get? entry)
    (half : Half) (entry : String)
    (apart : half ≠ .of p.persist ∨ entry ∉ (f.discovered ++ [host]).map DiscoveredHost.name) :
    (r.half half).get? entry = (r₀.half half).get? entry := by
  rw [entries, if_neg]
  · apply mapped.untouched
    rcases apart with half | new
    · exact .inl half
    · exact .inr fun old => new (by simp [old])
  · rintro ⟨rfl, rfl⟩
    rcases apart with half | new
    · exact half rfl
    · exact new (by simp)

/-- The first dial that presents a key is recorded under its host, and under no other. -/
theorem recorded_found (mapped : Mapped p seeds r₀ f) {host : DiscoveredHost} (unseen : host.fingerprint ∉ f.visitedFps)
    {via : FrontierItem} {addr : String} (recorded : addr ∈ host.addrs) {d : DialRecord}
    (member : d ∈ f.dials ++ [⟨via, addr, .up (some host.fingerprint)⟩]) {fp : String} (up : d.result = .up (some fp))
    {h : DiscoveredHost} (inside : h ∈ f.discovered ++ [host]) (same : h.fingerprint = fp) : d.addr ∈ h.addrs := by
  rcases List.mem_append.mp member with earlier | now_
  · rcases List.mem_append.mp inside with old | new
    · exact mapped.recorded d earlier fp up h old same
    · cases List.mem_singleton.mp new
      have seen := mapped.presented d earlier fp up
      rw [← same] at seen
      exact absurd seen unseen
  · cases List.mem_singleton.mp now_
    cases up
    rcases List.mem_append.mp inside with old | new
    · exact absurd (same ▸ mapped.visited h old) unseen
    · cases List.mem_singleton.mp new
      exact recorded

/-- A dial that presents a new key, of a host that is registered. -/
theorem found (mapped : Mapped p seeds r₀ f)
    (rooted : ∀ seed ∈ seeds, seed.name = localSeed ∨ (r₀.find? seed.name).isSome)
    {item : FrontierItem} (known : Known seeds f.discovered item) (above : (item.depth : Int) < p.maxDepth)
    (room : (f.discovered.length : Int) < p.maxNodes) {fingerprint : String} (unseen : fingerprint ∉ f.visitedFps)
    {addr authKey name : String} {poolReachable : Bool} {cfg : ServerConfig} (named : cfg.name = name)
    (jump : cfg.jumpHost = if item.isLocal then none else some item.name) (dash : '-' ∈ name.toList)
    {store : Store} (added : f.store.addTo p.persist true cfg = .ok store) :
    Mapped p seeds r₀ { f with
      store
      discovered := f.discovered ++ [⟨name, fingerprint, [addr], item.name, item.depth + 1, authKey, poolReachable⟩]
      graph := f.graph.insert item.name ((f.graph.get? item.name).getD [] ++ [name])
      registered := f.registered ++ [name]
      visitedFps := f.visitedFps ++ [fingerprint]
      dials := f.dials ++ [⟨item, addr, .up (some fingerprint)⟩]
      opened := f.opened + 1
      openConns := f.openConns ++ [f.opened] } := by
  obtain ⟨free, entries⟩ := Store.addTo_spec added
  rw [named] at free entries
  have newName := mapped.name_taken free
  have freeBefore : r₀.find? name = none := (mapped.find?_eq newName).symm.trans free
  have newKey : fingerprint ∉ f.discovered.map DiscoveredHost.fingerprint := by
    intro member
    obtain ⟨g, inside, same⟩ := List.mem_map.mp member
    exact unseen (same ▸ mapped.visited g inside)
  exact {
    fingerprints := nodup_map_concat mapped.fingerprints newKey
    names := nodup_map_concat mapped.names newName
    bounded := by
      simp only [List.length_append, List.length_singleton]
      omega
    depths := by
      intro h member
      rcases List.mem_append.mp member with old | new
      · exact mapped.depths h old
      · cases List.mem_singleton.mp new
        show ((item.depth + 1 : Nat) : Int) ≤ p.maxDepth
        omega
    hangs := mapped.hangs_found known rfl rfl named jump newName entries
    graph := by
      intro via
      rw [Dict.get?_insert, mapped.graph, mapped.graph, childrenOf_concat]
      split
      · rename_i here
        rw [here]
      · rfl
    registered := by
      rw [mapped.registered, List.map_append]
      rfl
    fresh := by
      intro h member
      rcases List.mem_append.mp member with old | new
      · exact mapped.fresh h old
      · cases List.mem_singleton.mp new
        exact ⟨freeBefore, fresh_found rooted freeBefore dash⟩
    untouched := mapped.untouched_found entries
    visited := by
      intro h member
      rcases List.mem_append.mp member with old | new
      · exact List.mem_append_left _ (mapped.visited h old)
      · cases List.mem_singleton.mp new
        simp
    presented := fun d member fp up => mapped.presented_concat item addr fingerprint member up
    recorded := fun d member fp up h inside same =>
      mapped.recorded_found unseen (List.mem_singleton_self addr) member up inside same
    connections := by
      intro c before
      rcases mapped.connections_succ before with rfl | closed | own
      · simp
      · exact .inl closed
      · exact .inr (List.mem_append_left _ own) }

end Mapped

end McpSsh
