import McpSsh.JumpChain
import McpSsh.Base.Trace

/-!
# Tearing down one chain

`teardown_jump` finds a chain's entries by their names. A ghost record of who
created each entry tells, along every run of registry operations, set-ups and
teardowns, when these are the entries of that chain.
-/

set_option autoImplicit false

namespace McpSsh

open Base

/-! ## Runs, with the record of who created what -/

/-- The registry and the alias of the `setup_jump` call that created an entry. -/
structure JumpState where
  store : Store
  owner : Half → String → Option String

/-- What happens to the registry. -/
inductive JumpEvent where
  /-- Any operation outside jump chains. -/
  | registry (op : RegistryOp)
  | setupJump (name : String) (chain : List String) (persist : Bool) (note : Option String) (writes : Writes)
  | teardownJump (name : String) (writes : String → Bool)

namespace JumpState

/-- The next state: an entry that stays as it is keeps its creator, a new one gets
`creator`. -/
def moved (s : JumpState) (store : Store) (creator : Option String) : JumpState where
  store := store
  owner := fun half entry =>
    if (store.registry.half half).get? entry = (s.store.registry.half half).get? entry then s.owner half entry
    else (store.registry.half half).get? entry |>.bind fun _ => creator

/-- The state after an event. -/
def after (rt : Runtime) (repr : String → String) (s : JumpState) : JumpEvent → JumpState
  | .registry op => s.moved (s.store.after rt op) none
  | .setupJump name chain persist note writes =>
    s.moved (McpSsh.setupJump repr writes s.store name chain persist note).1 (some name)
  | .teardownJump name writes => s.moved (McpSsh.teardownJump writes s.store name).1 none

/-- A registry just loaded, no chain set up yet. -/
def Initial (rt : Runtime) (s : JumpState) : Prop :=
  (∃ file, Store.opened rt file = .ok s.store) ∧ ∀ half entry, s.owner half entry = none

/-- The states some run of events reaches. -/
def Reached (rt : Runtime) (repr : String → String) : JumpState → Prop :=
  Reachable (fun s e t => s.after rt repr e = t) (Initial rt)

/-- `teardown_jump` removes the entries that `setup_jump(name)` created, and no other. -/
def TearsDownExactly (s : JumpState) (writes : String → Bool) (name : String) : Prop :=
  ∀ half entry, ((McpSsh.teardownJump writes s.store name).1.registry.half half).get? entry =
    if s.owner half entry = some name then none else (s.store.registry.half half).get? entry

/-- Every entry in memory whose name is the alias, or starts like its hops, was
created by `setup_jump(name)`; so was every entry of this kind in the file that is
some file entry's name and that the file system lets be removed, and of these only
the latter. -/
structure NamesOnlyChain (s : JumpState) (writes : String → Bool) (name : String) : Prop where
  ephemeral : ∀ entry ∈ s.store.registry.ephemeral.keys, belongsTo name entry →
    s.owner .ephemeral entry = some name
  file : ∀ entry ∈ s.store.registry.config.servers.keys, belongsTo name entry →
    entry ∈ s.store.registry.config.servers.values.map ServerConfig.name →
      (writes entry = true ↔ s.owner .file entry = some name)

end JumpState

/-! ## What teardown removes -/

theorem removeTargets_fst (writes : String → Bool) (s : Store) (removed targets : List String) :
    (removeTargets writes s removed targets).1 =
      targets.foldl (fun s target => (removeTarget writes s target).toOption.getD s) s := by
  induction targets generalizing s removed with
  | nil => rfl
  | cons target targets ih =>
    cases gone : removeTarget writes s target <;> simp [removeTargets, gone, ih, Except.toOption]

/-- One turn of the loop: the target goes from memory, or else from the file. -/
theorem removeTarget_spec (writes : String → Bool) (s : Store) (target entry : String) :
    ((removeTarget writes s target).toOption.getD s).registry.ephemeral.get? entry =
        (if entry = target then none else s.registry.ephemeral.get? entry) ∧
      ((removeTarget writes s target).toOption.getD s).registry.config.servers.get? entry =
        if entry = target ∧ target ∉ s.registry.ephemeral.keys ∧ writes target = true then none
        else s.registry.config.servers.get? entry := by
  unfold removeTarget Registry.removeEphemeral
  by_cases inMemory : target ∈ s.registry.ephemeral.keys
  · simp [inMemory, Except.toOption, Dict.get?_erase]
  · have absent := Dict.get?_eq_none_iff.mpr inMemory
    simp only [inMemory, if_false, Store.remove, Store.commit]
    by_cases inFile : target ∈ s.registry.config.servers.keys
    · cases writes target <;>
        simp +contextual [inFile, Except.toOption, Dict.get?_erase, Store.withoutServer, absent, Option.getD]
    · have missing := Dict.get?_eq_none_iff.mpr inFile
      simp +contextual [inFile, Except.toOption, absent, missing]

/-- The loop clears memory of its targets. -/
theorem removeTargets_ephemeral (writes : String → Bool) (s : Store) (removed targets : List String) (entry : String) :
    (removeTargets writes s removed targets).1.registry.ephemeral.get? entry =
      if entry ∈ targets then none else s.registry.ephemeral.get? entry := by
  rw [removeTargets_fst]
  induction targets generalizing s with
  | nil => simp
  | cons target targets ih =>
    rw [List.foldl_cons, ih, (removeTarget_spec writes s target entry).1]
    by_cases here : entry = target <;> by_cases later : entry ∈ targets <;> simp [here, later]

/-- A name leaves the file at its first turn, or at its second when it was in
memory too. -/
theorem removeTargets_file (writes : String → Bool) (s : Store) (removed targets : List String) (entry : String) :
    (removeTargets writes s removed targets).1.registry.config.servers.get? entry =
      if writes entry = true ∧ (if entry ∈ s.registry.ephemeral.keys then 1 else 0) < targets.count entry then none
      else s.registry.config.servers.get? entry := by
  rw [removeTargets_fst]
  induction targets generalizing s with
  | nil => simp
  | cons target targets ih =>
    have first := removeTarget_spec writes s target entry
    have kept : entry ∈ ((removeTarget writes s target).toOption.getD s).registry.ephemeral.keys ↔
        entry ≠ target ∧ entry ∈ s.registry.ephemeral.keys := by
      rw [Dict.mem_keys_iff, first.1, Dict.mem_keys_iff]
      by_cases here : entry = target <;> simp [here]
    rw [List.foldl_cons, ih, first.2]
    simp only [kept]
    by_cases here : entry = target
    · subst here
      by_cases inMemory : entry ∈ s.registry.ephemeral.keys <;> cases writes entry <;>
        simp [inMemory]
    · simp [here, Ne.symm here]

namespace JumpState

/-- What every reachable state satisfies. -/
structure Consistent (s : JumpState) : Prop where
  /-- An entry in memory is stored under its own name. -/
  named : ∀ entry config, s.store.registry.ephemeral.get? entry = some config → config.name = entry
  /-- A chain's entries are there, under their own names, which are the chain's. -/
  owned : ∀ half entry name, s.owner half entry = some name → belongsTo name entry = true ∧
    ∃ config, (s.store.registry.half half).get? entry = some config ∧ config.name = entry

theorem Consistent.count_targets {s : JumpState} (consistent : s.Consistent) (name entry : String) :
    (teardownTargets s.store.registry name).count entry =
      if belongsTo name entry then
        (s.store.registry.config.servers.values.map ServerConfig.name).count entry +
          if entry ∈ s.store.registry.ephemeral.keys then 1 else 0
      else 0 := by
  have names : s.store.registry.ephemeral.values.map ServerConfig.name = s.store.registry.ephemeral.keys := by
    rw [Dict.values, Dict.keys, List.map_map]
    apply List.map_congr_left
    intro e member
    exact consistent.named e.1 e.2 (Dict.get?_of_mem member)
  have distinct : s.store.registry.ephemeral.keys.Nodup := s.store.registry.ephemeral.nodup
  cases belongs : belongsTo name entry with
  | false =>
    rw [if_neg (by simp), List.count_eq_zero]
    simp [teardownTargets, belongs]
  | true =>
    rw [teardownTargets, List.count_filter belongs, Registry.listAll, List.map_append, List.count_append, names,
      distinct.count, if_pos rfl]

/-- Which entries of memory and file a teardown removes. -/
theorem Consistent.teardown {s : JumpState} (consistent : s.Consistent) (writes : String → Bool) (name entry : String) :
    (McpSsh.teardownJump writes s.store name).1.registry.ephemeral.get? entry =
        (if belongsTo name entry then none else s.store.registry.ephemeral.get? entry) ∧
      (McpSsh.teardownJump writes s.store name).1.registry.config.servers.get? entry =
        if writes entry = true ∧ belongsTo name entry = true ∧
            entry ∈ s.store.registry.config.servers.values.map ServerConfig.name then none
        else s.store.registry.config.servers.get? entry := by
  have loop : (McpSsh.teardownJump writes s.store name).1 =
      (removeTargets writes s.store [] (teardownTargets s.store.registry name)).1 := by
    by_cases empty : teardownTargets s.store.registry name = []
    · simp [McpSsh.teardownJump, empty, removeTargets]
    · simp [McpSsh.teardownJump, empty]
  have count := consistent.count_targets name entry
  rw [loop, removeTargets_ephemeral, removeTargets_file]
  simp only [← List.count_pos_iff, count]
  constructor
  · cases belongs : belongsTo name entry with
    | false => simp
    | true =>
      by_cases inMemory : entry ∈ s.store.registry.ephemeral.keys
      · simp [inMemory]
      · simp [Dict.get?_eq_none_iff.mpr inMemory]
  · cases belongs : belongsTo name entry with
    | false => simp
    | true => by_cases inMemory : entry ∈ s.store.registry.ephemeral.keys <;> simp [inMemory]

end JumpState

/-! ## What set-up adds -/

/-- A chain's entries are found again by its name. -/
theorem belongsTo_hopName (name : String) (index total : Nat) : belongsTo name (hopName name index total) = true := by
  unfold hopName
  split
  · simp [belongsTo]
  · simp [belongsTo, String.toList_append]

theorem planHops_names {repr : String → String} {r : Registry} {name : String} {note : Option String} {total : Nat}
    {index : Nat} {previous : Option String} {chain : List String} {hops : List PlannedHop}
    (planned : planHops repr r name note total index previous chain = .ok hops) :
    ∀ hop ∈ hops, belongsTo name hop.config.name = true := by
  induction chain generalizing index previous hops with
  | nil =>
    cases planned
    simp
  | cons element chain ih =>
    unfold planHops at planned
    split at planned
    · cases planned
    split at planned
    · cases planned
    simp only [bind, Except.bind, pure, Except.pure] at planned
    split at planned
    · cases planned
    · rename_i later rest
      cases planned
      intro hop member
      rcases List.mem_cons.mp member with rfl | later
      · exact belongsTo_hopName _ _ _
      · exact ih rest hop later

/-- `s` has the entries of `s₀` and new ones that belong to the chain `name`, each
under its own name. -/
def Extends (name : String) (s₀ s : Store) : Prop :=
  ∀ half entry, (s.registry.half half).get? entry = (s₀.registry.half half).get? entry ∨
    ((s₀.registry.half half).get? entry = none ∧ belongsTo name entry = true ∧
      ∃ config, (s.registry.half half).get? entry = some config ∧ config.name = entry)

theorem Extends.refl (name : String) (s : Store) : Extends name s s := fun _ _ => .inl rfl

theorem Extends.addTo {name : String} {s₀ s s' : Store} (extended : Extends name s₀ s) {persist writes : Bool}
    {config : ServerConfig} (belongs : belongsTo name config.name = true)
    (added : s.addTo persist writes config = .ok s') :
    Extends name s₀ s' ∧ (s₀.registry.half (Half.of persist)).get? config.name = none := by
  obtain ⟨free, entries⟩ := Store.addTo_spec added
  have fresh : (s₀.registry.half (Half.of persist)).get? config.name = none := by
    rcases extended (Half.of persist) config.name with same | ⟨fresh, -⟩
    · rw [← same, Registry.half_eq_none_of_find? free]
    · exact fresh
  refine ⟨fun half entry => ?_, fresh⟩
  rw [entries]
  split
  · rename_i here
    obtain ⟨rfl, rfl⟩ := here
    exact .inr ⟨fresh, belongs, config, rfl, rfl⟩
  · exact extended half entry

theorem Extends.rollBack {name : String} {s₀ s : Store} (extended : Extends name s₀ s) {persist : Bool}
    {writes : Writes} {added : List String}
    (fresh : ∀ entry ∈ added, (s₀.registry.half (Half.of persist)).get? entry = none) :
    Extends name s₀ (rollBack persist writes s added) := by
  unfold McpSsh.rollBack
  induction added generalizing s with
  | nil => exact extended
  | cons last added ih =>
    refine ih ?_ fun entry member => fresh entry (by simp [member])
    cases removed : s.removeFrom persist (writes.remove last) last with
    | error e => simpa [removed, Except.toOption] using extended
    | ok s' =>
      intro half entry
      simp only [removed, Except.toOption, Option.getD_some, Store.removeFrom_spec removed]
      split
      · rename_i here
        obtain ⟨rfl, rfl⟩ := here
        exact .inl (fresh entry (by simp)).symm
      · exact extended half entry

theorem Extends.registerHops {name : String} {s₀ s : Store} (extended : Extends name s₀ s) (persist : Bool)
    (writes : Writes) (added : List String) (todo : List ServerConfig)
    (fresh : ∀ entry ∈ added, (s₀.registry.half (Half.of persist)).get? entry = none)
    (belong : ∀ config ∈ todo, belongsTo name config.name = true) :
    Extends name s₀ (registerHops persist writes s added todo).1 := by
  induction todo generalizing s added with
  | nil => exact extended
  | cons config todo ih =>
    unfold McpSsh.registerHops
    split
    · exact extended.rollBack fresh
    · rename_i s' result
      obtain ⟨further, new⟩ := extended.addTo (belong config (by simp)) result
      refine ih further _ (fun entry member => ?_) fun other member => belong other (by simp [member])
      rcases List.mem_cons.mp member with rfl | member
      · exact new
      · exact fresh entry member

/-- **Set-up changes no entry and adds only hops of its chain.** -/
theorem setupJump_extends (repr : String → String) (writes : Writes) (s : Store) (name : String) (chain : List String)
    (persist : Bool) (note : Option String) : Extends name s (setupJump repr writes s name chain persist note).1 := by
  unfold setupJump
  split
  · exact .refl _ _
  unfold buildChain
  split
  · exact .refl _ _
  split
  · exact .refl _ _
  rename_i hops planned
  have belong : ∀ config ∈ hops.map PlannedHop.config, belongsTo name config.name = true := by
    intro config member
    obtain ⟨hop, inside, rfl⟩ := List.mem_map.mp member
    exact planHops_names planned hop inside
  have registered := (Extends.refl name s).registerHops persist writes [] _ (by simp) belong
  split <;> rename_i result <;> rw [result] at registered <;> exact registered

namespace JumpState

theorem Consistent.moved {s : JumpState} (consistent : s.Consistent) {store : Store} {creator : Option String}
    (named : ∀ entry config, store.registry.ephemeral.get? entry = some config → config.name = entry)
    (created : ∀ half entry name, creator = some name →
      (store.registry.half half).get? entry ≠ (s.store.registry.half half).get? entry →
        ∀ config, (store.registry.half half).get? entry = some config →
          belongsTo name entry = true ∧ config.name = entry) : (s.moved store creator).Consistent := by
  refine ⟨named, fun half entry name owned => ?_⟩
  simp only [JumpState.moved] at owned ⊢
  split at owned
  · rename_i same
    rw [same]
    exact consistent.owned half entry name owned
  · rename_i changed
    obtain ⟨config, present, rfl⟩ := Option.bind_eq_some_iff.mp owned
    obtain ⟨belongs, own⟩ := created half entry name rfl changed config present
    exact ⟨belongs, config, present, own⟩

theorem Consistent.registry {s : JumpState} (consistent : s.Consistent) (rt : Runtime) (op : RegistryOp)
    (entry : String) (config : ServerConfig)
    (found : (s.store.after rt op).registry.ephemeral.get? entry = some config) : config.name = entry := by
  rcases Store.after_cases rt s.store op with same | ⟨other, writes, rfl, added⟩ | ⟨name, writes, rfl, removed⟩ |
    ⟨other, rfl, added⟩ | ⟨name, rfl, removed⟩ | ⟨rfl, reloaded⟩
  · exact consistent.named entry config (same ▸ found)
  · obtain ⟨-, -, result⟩ := Store.add_ok_iff.mp added
    exact consistent.named entry config (by simpa [result] using found)
  · obtain ⟨-, -, result⟩ := Store.remove_ok_iff.mp removed
    exact consistent.named entry config (by simpa [result] using found)
  · rw [(Registry.addEphemeral_ok_iff.mp added).2, Dict.get?_insert] at found
    split at found
    · rename_i here
      cases found
      exact here.symm
    · exact consistent.named entry config found
  · rw [(Registry.removeEphemeral_ok_iff.mp removed).2, Dict.get?_erase] at found
    split at found
    · cases found
    · exact consistent.named entry config found
  · obtain ⟨cfg, -, result⟩ := Store.reload_ok_iff.mp reloaded
    exact consistent.named entry config (by simpa [result] using found)

/-- One event keeps the record of creators consistent. -/
theorem Consistent.after {s : JumpState} (consistent : s.Consistent) (rt : Runtime) (repr : String → String)
    (event : JumpEvent) : (s.after rt repr event).Consistent := by
  cases event with
  | registry op => exact consistent.moved (consistent.registry rt op) (by simp)
  | setupJump name chain persist note writes =>
    have extended := setupJump_extends repr writes s.store name chain persist note
    refine consistent.moved (fun entry config found => ?_) ?_
    · rcases extended .ephemeral entry with same | ⟨-, -, added, present, own⟩
      · exact consistent.named entry config (same ▸ found)
      · cases present.symm.trans found
        exact own
    · rintro half entry _ ⟨⟩ changed config found
      rcases extended half entry with same | ⟨-, belongs, added, present, own⟩
      · exact absurd same changed
      · cases present.symm.trans found
        exact ⟨belongs, own⟩
  | teardownJump name writes =>
    refine consistent.moved (fun entry config found => ?_) (by simp)
    rw [(consistent.teardown writes name entry).1] at found
    split at found
    · cases found
    · exact consistent.named entry config found

theorem Initial.consistent {rt : Runtime} {s : JumpState} (initial : s.Initial rt) : s.Consistent := by
  obtain ⟨⟨file, opened⟩, nobody⟩ := initial
  obtain ⟨cfg, -, result⟩ := map_eq_ok_iff.mp opened
  refine ⟨fun entry config found => ?_, fun half entry name owned => ?_⟩
  · rw [result] at found
    cases found
  · rw [nobody] at owned
    cases owned

theorem Reached.consistent {rt : Runtime} {repr : String → String} {s : JumpState} (reached : Reached rt repr s) :
    s.Consistent :=
  reached.invariant (fun _ initial => initial.consistent)
    fun _ event _ consistent step => step ▸ consistent.after rt repr event

/-- **A teardown removes exactly its chain in exactly the states where every
entry with a name of that chain is the chain's.** -/
theorem tearsDownExactly_iff (rt : Runtime) (repr : String → String) (s : JumpState) (reached : Reached rt repr s)
    (writes : String → Bool) (name : String) : s.TearsDownExactly writes name ↔ s.NamesOnlyChain writes name := by
  have consistent := reached.consistent
  constructor
  · intro exactly
    refine ⟨fun entry present belongs => ?_, fun entry present belongs named => ?_⟩
    · obtain ⟨config, found⟩ := Dict.mem_keys_iff.mp present
      have result := (exactly .ephemeral entry).symm.trans (consistent.teardown writes name entry).1
      by_contra other
      rw [if_neg other, if_pos belongs] at result
      exact absurd (found.symm.trans result) (by simp)
    · obtain ⟨config, found⟩ := Dict.mem_keys_iff.mp present
      have result := (exactly .file entry).symm.trans (consistent.teardown writes name entry).2
      simp only [belongs, named, and_true, Registry.half, found] at result
      by_cases owned : s.owner .file entry = some name <;> cases allowed : writes entry <;>
        simp [owned, allowed] at result ⊢
  · rintro ⟨inMemory, inFile⟩ half entry
    have own := consistent.owned half entry name
    cases half with
    | ephemeral =>
      refine (consistent.teardown writes name entry).1.trans ?_
      by_cases owned : s.owner .ephemeral entry = some name
      · rw [if_pos owned, if_pos (own owned).1]
      · rw [if_neg owned]
        split
        · rename_i belongs
          refine (Dict.get?_eq_none_iff.mpr fun present => owned (inMemory entry present belongs)).symm
        · rfl
    | file =>
      refine (consistent.teardown writes name entry).2.trans ?_
      by_cases owned : s.owner .file entry = some name
      · obtain ⟨belongs, config, found, own⟩ := own owned
        have member := Dict.get?_eq_some_iff.mp found
        have named : entry ∈ s.store.registry.config.servers.values.map ServerConfig.name :=
          List.mem_map.mpr ⟨config, List.mem_map.mpr ⟨_, member, rfl⟩, own⟩
        have allowed := (inFile entry (Dict.mem_keys_of_get? found) belongs named).mpr owned
        rw [if_pos owned, if_pos ⟨allowed, belongs, named⟩]
      · rw [if_neg owned]
        split
        · rename_i removed
          obtain ⟨allowed, belongs, named⟩ := removed
          exact (Dict.get?_eq_none_iff.mpr fun present =>
            owned ((inFile entry present belongs named).mp allowed)).symm
        · rfl

/-! ## Two chains -/

def webServer : ServerConfig := { name := "web", host := "10.0.0.1", user := "root", authType := .agent }

/-- One server, and a chain of two hops through it under the alias `a_hop`. -/
def sampleChain : JumpState :=
  ((⟨.blank, fun _ _ => none⟩ : JumpState).after .inert id (.registry (.addEphemeral webServer))).after .inert id
    (.setupJump "a_hop" ["web", "web"] false none ⟨fun _ => true, fun _ => true⟩)

theorem sampleChain_reached : Reached .inert id sampleChain :=
  ⟨_, _, ⟨⟨_, Store.opened_blank⟩, fun _ _ => rfl⟩, .step rfl (.step rfl (.refl _))⟩

/-- The chain is torn down under its own alias. -/
theorem sampleChain_tornDown : sampleChain.TearsDownExactly (fun _ => true) "a_hop" := by
  refine (tearsDownExactly_iff .inert id _ sampleChain_reached _ _).mpr ⟨?_, ?_⟩
  · decide +kernel
  · decide +kernel

/-- Tearing down a chain `a`, which nobody set up, removes a hop of `a_hop`. -/
theorem teardown_removes_other_chain : ¬ ∀ (rt : Runtime) (repr : String → String) (s : JumpState),
    Reached rt repr s → ∀ (writes : String → Bool) (name : String), s.TearsDownExactly writes name := by
  intro exactly
  have kept := exactly .inert id _ sampleChain_reached (fun _ => true) "a" .ephemeral "_a_hop_hop0"
  have gone : ((teardownJump (fun _ => true) sampleChain.store "a").1.registry.half .ephemeral).get? "_a_hop_hop0" =
      none := by decide +kernel
  rw [gone, if_neg (by decide +kernel)] at kept
  exact absurd kept (by decide +kernel)

end JumpState

end McpSsh
