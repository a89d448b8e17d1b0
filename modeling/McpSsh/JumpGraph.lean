import McpSsh.Registry
import McpSsh.RoundTrip

/-!
# Jump chains across registry operations

The check at load time decides whether the jump graph of a file is acyclic. No
later operation checks anything; what each of them may do so that the graph the
registry resolves stays acyclic, and the file it writes loads again, is stated
here as a condition on the state before the operation.
-/

set_option autoImplicit false

namespace McpSsh

open Base Toml Relation

/-! ## The check at load time -/

theorem mem_keys_of_jumpOf {servers : Dict String ServerConfig} {a b : String} (edge : jumpOf servers.get? a = some b) :
    a ∈ servers.keys := by
  cases found : servers.get? a with
  | none => simp [jumpOf, found] at edge
  | some server => exact Dict.mem_keys_of_get? found

theorem hasCycle_isSome (servers : Dict String ServerConfig) (name : String) : (hasCycle servers name).isSome := by
  refine revisits_isSome (fun a b => mem_keys_of_jumpOf) List.nodup_nil (by simp) ?_
  simp [Dict.keys]

/-- **`_detect_circular_jumps` accepts exactly the acyclic jump graphs.** -/
theorem detectCircularJumps_ok_iff {servers : Dict String ServerConfig} :
    detectCircularJumps servers = .ok () ↔ Acyclic (jumpOf servers.get?) := by
  have accepts : detectCircularJumps servers = .ok () ↔ ∀ name ∈ servers.keys, hasCycle servers name = some false := by
    unfold detectCircularJumps
    split
    · rename_i name found
      have bad := List.find?_some found
      have member := List.mem_of_find?_eq_some found
      simp only [ne_eq, decide_not, Bool.not_eq_true', decide_eq_false_iff_not] at bad
      simp only [reduceCtorEq, false_iff, not_forall]
      exact ⟨name, member, bad⟩
    · rename_i none_
      simpa using none_
  rw [accepts]
  constructor
  · intro ends a cycle
    obtain ⟨b, edge, -⟩ := TransGen.head'_iff.mp cycle
    exact (ends_of_revisits (ends a (mem_keys_of_jumpOf edge))).no_cycle .refl cycle
  · intro acyclic name _
    obtain ⟨answer, decided⟩ := Option.isSome_iff_exists.mp (hasCycle_isSome servers name)
    cases answer with
    | false => exact decided
    | true =>
      obtain ⟨c, -, cycle⟩ := cycle_of_revisits (by simp) decided
      exact absurd cycle (acyclic c)

theorem detectCircularJumps_cases (servers : Dict String ServerConfig) :
    detectCircularJumps servers = .ok () ∨ ∃ name, detectCircularJumps servers = .error (.circularJump name) := by
  unfold detectCircularJumps
  split
  · rename_i name _
    exact .inr ⟨name, rfl⟩
  · exact .inl rfl

/-- What the check decides, and that it comes to a decision. -/
structure DetectsCycles (servers : Dict String ServerConfig) : Prop where
  /-- It raises if a server of the map is reached again from itself, and only then. -/
  raises : (∃ name, detectCircularJumps servers = .error (.circularJump name)) ↔
    ∃ name ∈ servers.keys, TransGen (Points (jumpOf servers.get?)) name name
  /-- The inner loop ends, from any name. -/
  ends : ∀ start, (hasCycle servers start).isSome = true
  /-- When it does not raise, every chain is at most as long as there are servers. -/
  bounded : detectCircularJumps servers = .ok () →
    ∀ name, EndsWithin (jumpOf servers.get?) servers.items.length name

/-- **The detection of cycles is exact**, for every map of servers. -/
theorem detectsCycles (servers : Dict String ServerConfig) : DetectsCycles servers where
  raises := by
    constructor
    · rintro ⟨name, raised⟩
      by_contra none_
      have acyclic : Acyclic (jumpOf servers.get?) := by
        intro a cycle
        obtain ⟨b, edge, -⟩ := TransGen.head'_iff.mp cycle
        exact none_ ⟨a, mem_keys_of_jumpOf edge, cycle⟩
      rw [detectCircularJumps_ok_iff.mpr acyclic] at raised
      cases raised
    · rintro ⟨name, -, cycle⟩
      apply (detectCircularJumps_cases servers).resolve_left
      intro accepted
      exact detectCircularJumps_ok_iff.mp accepted name cycle
  ends := hasCycle_isSome servers
  bounded accepted name := by
    have acyclic := detectCircularJumps_ok_iff.mp accepted
    have chains := acyclic.endsWithin (fun a b => mem_keys_of_jumpOf) name
    rwa [Dict.keys, List.length_map] at chains

theorem loadConfig_acyclic {rt : Runtime} {content : FileContent} {cfg : AppConfig}
    (loaded : loadConfig rt content = .ok cfg) : Acyclic (jumpOf cfg.servers.get?) := by
  cases content with
  | unreadable => cases loaded
  | undecodable => cases loaded
  | text s =>
    simp only [loadConfig] at loaded
    split at loaded
    · cases loaded
    split at loaded
    · cases loaded
    split at loaded
    · split at loaded
      · cases loaded
      · rename_i checked
        cases loaded
        exact detectCircularJumps_ok_iff.mp checked
    · cases loaded

/-! ## A written file loads again -/

/-- No home directory that a path of the configuration names is unknown. -/
structure Expandable (rt : Runtime) (cfg : AppConfig) : Prop where
  settings : (expandPathsInSettings rt cfg.settings).isSome
  servers : ∀ e ∈ cfg.servers.items, (expandPathsInServer rt e.2).isSome

theorem jumpHost_expandPathsInServer {rt : Runtime} {server expanded : ServerConfig}
    (expands : expandPathsInServer rt server = some expanded) : expanded.jumpHost = server.jumpHost := by
  simp only [expandPathsInServer, bind, Option.bind_eq_some_iff, pure, Option.some.injEq] at expands
  obtain ⟨_, -, _, -, _, -, rfl⟩ := expands
  rfl

/-- Expanding the paths of a map changes no jump host. -/
theorem expandServers_spec {rt : Runtime} {servers : Dict String ServerConfig}
    (expandable : ∀ e ∈ servers.items, (expandPathsInServer rt e.2).isSome) :
    ∃ expanded, expandServers rt servers = some expanded ∧ jumpOf expanded.get? = jumpOf servers.get? := by
  have computes : ∀ e ∈ servers.items,
      expandPathsInServer rt e.2 = pure ((expandPathsInServer rt e.2).getD e.2) := by
    intro e member
    obtain ⟨expanded, expands⟩ := Option.isSome_iff_exists.mp (expandable e member)
    simp [expands]
  obtain ⟨r, result, items⟩ := Dict.foldlM_insert (fun e : String × ServerConfig => expandPathsInServer rt e.2) Prod.fst
    (fun e => (expandPathsInServer rt e.2).getD e.2) computes Dict.empty (by simpa using servers.nodup)
  refine ⟨r, result, ?_⟩
  have same : r = servers.mapValues fun server => (expandPathsInServer rt server).getD server :=
    Dict.ext_items (by simpa [Dict.empty, Dict.mapValues] using items)
  funext name
  rw [same, jumpOf, jumpOf, Dict.get?_mapValues]
  cases servers.get? name with
  | none => rfl
  | some server =>
    cases expands : expandPathsInServer rt server with
    | none => simp [expands]
    | some expanded => simp [expands, jumpHost_expandPathsInServer expands]

/-- **What the registry writes can be loaded again.** -/
theorem loadConfig_appConfigToToml {rt : Runtime} {cfg : AppConfig} (writable : Writable cfg)
    (expandable : Expandable rt cfg) (acyclic : Acyclic (jumpOf cfg.servers.get?)) :
    ∃ loaded, loadConfig rt (.text (appConfigToToml cfg)) = .ok loaded := by
  obtain ⟨t, parsed, valid⟩ := roundTrips_of_writable rt writable
  obtain ⟨settings, expandedSettings⟩ := Option.isSome_iff_exists.mp expandable.settings
  obtain ⟨servers, expandedServers, same⟩ := expandServers_spec expandable.servers
  have checked : detectCircularJumps servers = .ok () := by
    rw [detectCircularJumps_ok_iff, same]
    exact acyclic
  exact ⟨{ settings, servers }, by simp [loadConfig, parsed, valid, expandedSettings, expandedServers, checked]⟩

/-! ## Operations that keep the graph acyclic -/

/-- The registry's jump graph: `Registry.get` and then `jump_host`. -/
def Registry.jump (r : Registry) : String → Option String := jumpOf r.find?

/-- The jump graph of the file-backed servers alone. -/
def Registry.fileJump (r : Registry) : String → Option String := jumpOf r.config.servers.get?

/-- A configuration that `_write_config` writes so that it can be read back. -/
def Recoverable (rt : Runtime) (cfg : AppConfig) : Prop := Writable cfg ∧ Expandable rt cfg

/-- The condition on an operation in a state: an accepted server does not jump,
through servers already there, to its own name; neither does a file-backed server
that a removed ephemeral one was hiding; and no ephemeral server lies on a cycle
after a reload. What is written can be read back. -/
def Store.Safe (rt : Runtime) (s : Store) : RegistryOp → Prop
  | .add config writes =>
    s.registry.taken config.name = false → writes = true →
      (∀ jump, config.jumpHost = some jump →
        ¬ LeadsTo s.registry.jump jump config.name ∧ ¬ LeadsTo s.registry.fileJump jump config.name) ∧
      Recoverable rt (s.withServer config)
  | .remove name writes =>
    name ∈ s.registry.config.servers.keys → writes = true → Recoverable rt (s.withoutServer name)
  | .addEphemeral config =>
    s.registry.taken config.name = false →
      ∀ jump, config.jumpHost = some jump → ¬ LeadsTo s.registry.jump jump config.name
  | .removeEphemeral name =>
    name ∈ s.registry.ephemeral.keys →
      ∀ jump, s.registry.fileJump name = some jump → ¬ LeadsTo s.registry.jump jump name
  | .edit _ => True
  | .reload =>
    ∀ cfg, loadConfig rt s.file = .ok cfg → ∀ name ∈ s.registry.ephemeral.keys,
      ¬ TransGen (Points ({ s.registry with config := cfg } : Registry).jump) name name

/-- Neither the graph the registry resolves nor the one it would write has a cycle. -/
structure Registry.Sound (r : Registry) : Prop where
  resolved : Acyclic r.jump
  filed : Acyclic r.fileJump

theorem Registry.Sound.addEphemeral {r r' : Registry} (sound : r.Sound) {config : ServerConfig}
    (added : r.addEphemeral config = .ok r')
    (safe : ∀ jump, config.jumpHost = some jump → ¬ LeadsTo r.jump jump config.name) : r'.Sound := by
  have resolved : ∀ name, r'.jump name = if name = config.name then config.jumpHost else r.jump name := by
    intro name
    rw [Registry.jump, jumpOf, Registry.find?_addEphemeral added]
    by_cases same : name = config.name <;> simp [same, Registry.jump, jumpOf]
  refine ⟨sound.resolved.redirect (k := config.name) (fun a off => by simp [resolved, off]) ?_, ?_⟩
  · intro c edge
    exact safe c (by simpa [resolved] using edge)
  · obtain ⟨-, rfl⟩ := Registry.addEphemeral_ok_iff.mp added
    exact sound.filed

theorem Registry.Sound.removeEphemeral {r r' : Registry} (sound : r.Sound) {name : String}
    (removed : r.removeEphemeral name = .ok r')
    (safe : ∀ jump, r.fileJump name = some jump → ¬ LeadsTo r.jump jump name) : r'.Sound := by
  have resolved : ∀ a, r'.jump a = if a = name then r.fileJump a else r.jump a := by
    intro a
    rw [Registry.jump, jumpOf, Registry.find?_removeEphemeral removed]
    by_cases same : a = name <;> simp [same, Registry.jump, Registry.fileJump, jumpOf]
  refine ⟨sound.resolved.redirect (k := name) (fun a off => by simp [resolved, off]) ?_, ?_⟩
  · intro c edge
    exact safe c (by simpa [resolved] using edge)
  · obtain ⟨-, rfl⟩ := Registry.removeEphemeral_ok_iff.mp removed
    exact sound.filed

theorem Store.add_sound {s s' : Store} (sound : s.registry.Sound) {config : ServerConfig} {writes : Bool}
    (added : s.add writes config = .ok s')
    (safe : ∀ jump, config.jumpHost = some jump →
      ¬ LeadsTo s.registry.jump jump config.name ∧ ¬ LeadsTo s.registry.fileJump jump config.name) :
    s'.registry.Sound := by
  obtain ⟨free, -, rfl⟩ := Store.add_ok_iff.mp added
  have hidden : s.registry.ephemeral.get? config.name = none := by
    rw [Dict.get?_eq_none_iff]
    simp only [Registry.taken, Bool.or_eq_false_iff, decide_eq_false_iff_not] at free
    exact free.2
  refine ⟨sound.resolved.redirect (k := config.name) (fun a off => ?_) fun c edge => (safe c ?_).1,
    sound.filed.redirect (k := config.name) (fun a off => ?_) fun c edge => (safe c ?_).2⟩
  · simp [Registry.jump, jumpOf, Registry.find?, Store.withServer, Dict.get?_insert, off]
  · simpa [Registry.jump, jumpOf, Registry.find?, Store.withServer, hidden] using edge
  · simp [Registry.fileJump, jumpOf, Store.withServer, Dict.get?_insert, off]
  · simpa [Registry.fileJump, jumpOf, Store.withServer] using edge

theorem Store.remove_sound {s s' : Store} (sound : s.registry.Sound) {name : String} {writes : Bool}
    (removed : s.remove writes name = .ok s') : s'.registry.Sound := by
  obtain ⟨-, -, rfl⟩ := Store.remove_ok_iff.mp removed
  refine ⟨sound.resolved.mono fun a b edge => ?_, sound.filed.mono fun a b edge => ?_⟩
  · by_cases same : a = name
    · subst same
      cases hidden : s.registry.ephemeral.get? a <;>
        simp [Registry.jump, jumpOf, Registry.find?, Store.withoutServer, Dict.get?_erase, hidden] at edge ⊢
      exact edge
    · simpa [Registry.jump, jumpOf, Registry.find?, Store.withoutServer, Dict.get?_erase, same] using edge
  · by_cases same : a = name
    · simp [Registry.fileJump, jumpOf, Store.withoutServer, Dict.get?_erase, same] at edge
    · simpa [Registry.fileJump, jumpOf, Store.withoutServer, Dict.get?_erase, same] using edge

theorem Store.reload_sound {rt : Runtime} {s s' : Store} (reloaded : s.reload rt = .ok s')
    (safe : ∀ cfg, loadConfig rt s.file = .ok cfg → ∀ name ∈ s.registry.ephemeral.keys,
      ¬ TransGen (Points ({ s.registry with config := cfg } : Registry).jump) name name) : s'.registry.Sound := by
  obtain ⟨cfg, loaded, rfl⟩ := Store.reload_ok_iff.mp reloaded
  have filed := loadConfig_acyclic loaded
  refine ⟨filed.overlay (fun name => name ∈ s.registry.ephemeral.keys) (fun a off => ?_)
    (safe cfg loaded), filed⟩
  simp [Registry.jump, jumpOf, Registry.find?, Dict.get?_eq_none_iff.mpr off]

/-- **A safe operation keeps both graphs acyclic.** -/
theorem Store.Safe.sound {rt : Runtime} {s : Store} {op : RegistryOp} (safe : s.Safe rt op)
    (sound : s.registry.Sound) : (s.after rt op).registry.Sound := by
  rcases Store.after_cases rt s op with same | ⟨config, writes, rfl, added⟩ | ⟨name, writes, rfl, removed⟩ |
    ⟨config, rfl, added⟩ | ⟨name, rfl, removed⟩ | ⟨rfl, reloaded⟩
  · rw [same]
    exact sound
  · obtain ⟨free, allowed, -⟩ := Store.add_ok_iff.mp added
    exact Store.add_sound sound added (safe free allowed).1
  · exact Store.remove_sound sound removed
  · exact sound.addEphemeral added (safe (Registry.addEphemeral_ok_iff.mp added).1)
  · exact sound.removeEphemeral removed (safe (Registry.removeEphemeral_ok_iff.mp removed).1)
  · exact Store.reload_sound reloaded safe

/-- **A safe operation that writes the file leaves one that loads.** -/
theorem Store.Safe.loads {rt : Runtime} {s : Store} {op : RegistryOp} (safe : s.Safe rt op)
    (sound : s.registry.Sound) (written : s.writesFile op = true) :
    ∃ cfg, loadConfig rt (s.after rt op).file = .ok cfg := by
  have after := safe.sound sound
  cases op with
  | add config writes =>
    simp only [Store.writesFile, Bool.and_eq_true, Bool.not_eq_true'] at written
    obtain ⟨rfl, free⟩ := written
    have added := Store.add_ok_iff.mpr ⟨free, rfl, rfl⟩
    simp only [Store.after, added, Except.toOption, Option.getD_some] at after ⊢
    exact loadConfig_appConfigToToml (safe free rfl).2.1 (safe free rfl).2.2 after.filed
  | remove name writes =>
    simp only [Store.writesFile, Bool.and_eq_true, decide_eq_true_eq] at written
    obtain ⟨rfl, present⟩ := written
    have removed := Store.remove_ok_iff.mpr ⟨present, rfl, rfl⟩
    simp only [Store.after, removed, Except.toOption, Option.getD_some] at after ⊢
    exact loadConfig_appConfigToToml (safe present rfl).1 (safe present rfl).2 after.filed
  | addEphemeral config => cases written
  | removeEphemeral name => cases written
  | edit file => cases written
  | reload => cases written

end McpSsh
