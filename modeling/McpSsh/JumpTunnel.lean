import McpSsh.HopText

/-!
# A built chain is the tunnel that was asked for

When `_build_chain` succeeds, the registry has one new entry per element of the chain,
linked from the alias back to the first hop, and each entry is the configuration of the
server that its element names, but for where it is dialed and how it is linked.
-/

set_option autoImplicit false

namespace McpSsh

open Base

/-- The registry after a chain was built under `name`, against the one before. -/
structure Tunnel (r r' : Registry) (name : String) (chain : List String) : Prop where
  gained : r'.names.Perm (r.names ++ hopNames name chain.length)
  new : ∀ n ∈ hopNames name chain.length, r.find? n = none
  distinct : (hopNames name chain.length).Nodup
  /-- Following `jump_host` from the alias visits the last hop first, and ends. -/
  linked : trail (jumpOf r'.find?) chain.length name = some (hopNames name chain.length).reverse
  /-- A hop is the server its element names, with the address of the element, if any. -/
  hops : ∀ i element, chain[i]? = some element → ∃ hop base note, parseHop element = some hop ∧
    r.find? hop.server = some base ∧
      r'.find? (hopName name i chain.length) = some (hopConfig base hop (hopName name i chain.length)
        (if i = 0 then none else some (hopName name (i - 1) chain.length)) note)
  kept : ∀ n config, r.find? n = some config → r'.find? n = some config

section

variable {persist : Bool} {s t : Store} {configs : List ServerConfig}

/-- What is added is found under its name. -/
theorem Extended.find?_new (extended : Extended persist s t configs) {n : String} {config : ServerConfig}
    (free : s.registry.find? n = none) (entry : (t.registry.half (.of persist)).get? n = some config) :
    t.registry.find? n = some config := by
  cases persist with
  | true =>
    have memory : t.registry.ephemeral = s.registry.ephemeral := extended.other .ephemeral (by decide)
    have absent := Registry.half_eq_none_of_find? free .ephemeral
    rw [Registry.half, ← memory] at absent
    rw [Registry.find?, absent, Option.none_or]
    exact entry
  | false =>
    have entry : t.registry.ephemeral.get? n = some config := entry
    rw [Registry.find?, entry, Option.some_or]

theorem Extended.find?_other (extended : Extended persist s t configs)
    (free : ∀ config ∈ configs, s.registry.taken config.name = false) {n : String}
    (other : n ∉ configs.map ServerConfig.name) : t.registry.find? n = s.registry.find? n := by
  have file := extended.get?_other free other .file
  have memory := extended.get?_other free other .ephemeral
  simp only [Registry.half] at file memory
  rw [Registry.find?, Registry.find?, file, memory]

theorem Extended.names (extended : Extended persist s t configs) :
    t.registry.names.Perm (s.registry.names ++ configs.map ServerConfig.name) := by
  have added : (t.registry.half (.of persist)).keys =
      (s.registry.half (.of persist)).keys ++ configs.map ServerConfig.name := by
    rw [Dict.keys, extended.half, List.map_append, List.map_map]
    rfl
  cases persist with
  | true =>
    have memory : t.registry.ephemeral = s.registry.ephemeral := extended.other .ephemeral (by decide)
    have file : t.registry.config.servers.keys = s.registry.config.servers.keys ++ configs.map ServerConfig.name := added
    rw [Registry.names, Registry.names, file, memory, List.append_assoc, List.append_assoc]
    exact List.perm_append_comm.append_left _
  | false =>
    have file : t.registry.config.servers = s.registry.config.servers := extended.other .file (by decide)
    have memory : t.registry.ephemeral.keys = s.registry.ephemeral.keys ++ configs.map ServerConfig.name := added
    rw [Registry.names, Registry.names, file, memory, List.append_assoc]

end

/-- A chain that was built could be built. -/
theorem built_of_created {repr : String → String} {writes : Writes} {s t : Store} {name jump : String}
    {chain : List String} {persist persist' : Bool} {note : Option String} {summary : List HopSummary}
    (built : buildChain repr writes s name chain persist note = (t, .created jump persist' summary)) :
    (∀ n ∈ hopNames name chain.length, s.registry.taken n = false) ∧ ∃ hops,
      planHops repr s.registry name note chain.length 0 none chain = .ok hops ∧
        (hops.map PlannedHop.config).map ServerConfig.name = hopNames name chain.length ∧
          Extended persist s t (hops.map PlannedHop.config) := by
  by_cases plannable : Plannable s.registry name chain
  case neg =>
    have refused := (@buildChain_of_not_plannable repr writes s name chain persist note plannable).2
    rw [built] at refused
    exact absurd rfl (refused _ _ _)
  obtain ⟨succeeds, fails⟩ := @buildChain_of_plannable repr writes s name chain persist note plannable
  by_cases addable : (hopNames name chain.length).all (addable persist writes s.registry) = true
  · obtain ⟨t', hops, planned, created, names, extended⟩ := succeeds addable
    rw [built] at created
    cases created
    refine ⟨fun n member => ?_, hops, planned, names, extended⟩
    have free := List.all_eq_true.mp addable n member
    simp only [McpSsh.addable, Bool.and_eq_true, Bool.not_eq_true'] at free
    exact free.1
  · obtain ⟨t', server, e, configs, failed, -⟩ := fails addable
    rw [built] at failed
    cases failed

/-- **A built chain is exactly the requested tunnel.** -/
theorem tunnel_of_created (repr : String → String) (writes : Writes) (s t : Store) (name jump : String)
    (chain : List String) (persist persist' : Bool) (note : Option String) (summary : List HopSummary)
    (some_ : chain ≠ [])
    (built : buildChain repr writes s name chain persist note = (t, .created jump persist' summary)) :
    Tunnel s.registry t.registry name chain := by
  obtain ⟨untaken, hops, planned, names, extended⟩ := built_of_created built
  have free : ∀ config ∈ hops.map PlannedHop.config, s.registry.taken config.name = false := by
    intro config member
    apply untaken
    rw [← names]
    exact List.mem_map_of_mem member
  have new : ∀ n ∈ hopNames name chain.length, s.registry.find? n = none := by
    intro n member
    exact Registry.find?_eq_none_iff.mpr (untaken n member)
  have entries : ∀ i element, chain[i]? = some element → ∃ hop base note, parseHop element = some hop ∧
      s.registry.find? hop.server = some base ∧
        t.registry.find? (hopName name i chain.length) = some (hopConfig base hop (hopName name i chain.length)
          (if i = 0 then none else some (hopName name (i - 1) chain.length)) note) := by
    intro i element here
    obtain ⟨hop, base, written, parsed, found, entry⟩ := entry_of_planned planned extended here
    have below : i < chain.length := (List.getElem?_eq_some_iff.mp here).1
    have member : hopName name i chain.length ∈ hopNames name chain.length :=
      List.mem_map.mpr ⟨i, List.mem_range.mpr below, rfl⟩
    exact ⟨hop, base, written, parsed, found, extended.find?_new (new _ member) entry⟩
  have jumps : ∀ i < chain.length, jumpOf t.registry.find? (hopName name i chain.length) =
      if i = 0 then none else some (hopName name (i - 1) chain.length) := by
    intro i below
    obtain ⟨hop, base, written, -, -, entry⟩ := entries i _ (List.getElem?_eq_getElem below)
    rw [jumpOf, entry]
    rfl
  constructor
  · rw [← names]
    exact extended.names
  · exact new
  · exact nodup_hopNames name chain.length
  · obtain ⟨k, length⟩ : ∃ k, chain.length = k + 1 := Nat.exists_eq_succ_of_ne_zero (by simpa using some_)
    rw [length] at jumps ⊢
    have alias_ : hopName name k (k + 1) = name := if_pos rfl
    have visited := @trail_sequence _ (jumpOf t.registry.find?) (fun i => hopName name i (k + 1)) k
      (jumps 0 (Nat.succ_pos k)) fun i below => jumps (i + 1) (Nat.succ_lt_succ below)
    rw [alias_] at visited
    exact visited
  · exact entries
  · intro n config found
    rw [extended.find?_other free, found]
    rw [names]
    intro member
    rw [new n member] at found
    cases found

/-- A chain of three hops, two of them through the same server at other addresses. -/
theorem tunnel_of_created_lab : ∃ t : Store, Tunnel (scannedStore "10.0.0.1").registry t.registry "lab"
    ["web", "web@10.0.0.2:2222", "web@10.0.0.3"] :=
  ⟨_, tunnel_of_created id ⟨fun _ => true, fun _ => true⟩ _ _ "lab" "lab" _ true true none _
    (List.cons_ne_nil _ _) rfl⟩

end McpSsh
