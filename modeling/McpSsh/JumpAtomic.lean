import McpSsh.JumpAuto
import McpSsh.Teardown

/-!
# Setting up a chain, all or nothing

`setup_jump` undoes a chain that it could not finish in two ways: it rolls back the hops
that it has added, or it tears the built chain down by its names. Both pass over
failures, and in the file each one leaves what it has written.
-/

set_option autoImplicit false

namespace McpSsh

open Base

/-! ## What all or nothing means -/

/-- The entries of both halves and the file are as they were. -/
structure Unchanged (s t : Store) : Prop where
  entries : ∀ half entry, (t.registry.half half).get? entry = (s.registry.half half).get? entry
  file : t.file = s.file

/-- New servers in one half, under their own names; all other entries are as they were. -/
def Added (s t : Store) (persist : Bool) (count : Nat) : Prop :=
  ∃ added : List ServerConfig, added.length = count ∧ (added.map ServerConfig.name).Nodup ∧
    (∀ config ∈ added, s.registry.find? config.name = none) ∧
    ∀ half entry, (t.registry.half half).get? entry =
      if half = .of persist then (added.find? fun config => config.name = entry).or ((s.registry.half half).get? entry)
      else (s.registry.half half).get? entry

/-- The chain that a request is to build, where there is one. -/
def JumpSurroundings.chainOf (around : JumpSurroundings) (r : Registry) (request : JumpRequest) :
    Option (List String) :=
  match request.target with
  | some target => (around.findChain r request target).toOption
  | none => if request.chain = [] then none else some request.chain

/-- The answer says that a chain was set up. -/
def JumpAnswer.succeeds : JumpAnswer → Bool
  | .built (.created ..) => true
  | .verified .. => true
  | _ => false

/-- A call that succeeds has added one entry per hop, and one that does not (with an
error, or by raising) has changed nothing. -/
def AllOrNothing (around : JumpSurroundings) (s : Store) (request : JumpRequest) (result : Store × JumpAnswer) :
    Prop :=
  if result.2.succeeds then
    ∃ chain, around.chainOf s.registry request = some chain ∧ Added s result.1 request.persist chain.length
  else Unchanged s result.1

/-! ## When it holds -/

/-- The names of a chain's hops. -/
def hopNames (name : String) (total : Nat) : List String := (List.range total).map fun i => hopName name i total

/-- The alias is free, and every element of the chain names a server. -/
def Plannable (r : Registry) (name : String) (chain : List String) : Prop :=
  r.find? name = none ∧ ∀ element ∈ chain, ∃ hop, parseHop element = some hop ∧ (r.find? hop.server).isSome = true

/-- A name that can be added: it is free, and the file can be written if it has to be. -/
def addable (persist : Bool) (writes : Writes) (r : Registry) (n : String) : Bool :=
  !r.taken n && (!persist || writes.add n)

/-- Names that can be taken out of the file again, which was as the registry writes it. -/
def Undoable (writes : Writes) (s : Store) (names : List String) : Prop :=
  names = [] ∨ (∀ n ∈ names, writes.remove n = true) ∧ s.file = .text (appConfigToToml s.registry.config)

/-- No other entry that is named like the chain's is removed with it. -/
def NoneElse (writes : Writes) (s : Store) (name : String) : Prop :=
  ∀ n ∈ teardownTargets s.registry name, n ∉ s.registry.ephemeral.keys ∧
    (n ∈ s.registry.config.servers.keys → writes.remove n = false)

/-- What is undone can be undone: the hops before the first that cannot be added, or the
whole chain when the connect through it fails. -/
structure Revocable (around : JumpSurroundings) (writes : Writes) (s : Store) (request : JumpRequest)
    (names : List String) : Prop where
  rollBack : request.persist = true → ¬ names.all (addable request.persist writes s.registry) = true →
    Undoable writes s (names.takeWhile (addable request.persist writes s.registry))
  teardown : request.target.isSome = true → around.connects = false →
    names.all (addable request.persist writes s.registry) = true →
      (request.persist = true → Undoable writes s names) ∧ NoneElse writes s request.name

/-! ## Adding hops -/

/-- The store after a server was added. -/
def Store.plus (persist : Bool) (s : Store) (config : ServerConfig) : Store :=
  if persist then
    ⟨{ s.registry with config := s.withServer config }, .text (appConfigToToml (s.withServer config))⟩
  else { s with registry := { s.registry with ephemeral := s.registry.ephemeral.insert config.name config } }

theorem addTo_of_addable {persist : Bool} {writes : Writes} {s : Store} {config : ServerConfig}
    (free : addable persist writes s.registry config.name = true) :
    s.addTo persist (writes.add config.name) config = .ok (s.plus persist config) := by
  simp only [addable, Bool.and_eq_true, Bool.not_eq_true', Bool.or_eq_true] at free
  obtain ⟨free, written⟩ := free
  cases persist with
  | true =>
    have write : writes.add config.name = true := by simpa using written
    exact Store.add_ok_iff.mpr ⟨free, write, rfl⟩
  | false => simp [Store.addTo, Store.plus, Registry.addEphemeral, free, Except.map]

theorem addTo_of_not_addable {persist : Bool} {writes : Writes} {s : Store} {config : ServerConfig}
    (blocked : addable persist writes s.registry config.name = false) :
    ∃ e, s.addTo persist (writes.add config.name) config = .error e := by
  cases result : s.addTo persist (writes.add config.name) config with
  | error e => exact ⟨e, rfl⟩
  | ok t =>
    have free := Registry.find?_eq_none_iff.mp (Store.addTo_spec result).1
    cases persist with
    | true =>
      obtain ⟨-, write, -⟩ := Store.add_ok_iff.mp result
      simp [addable, free, write] at blocked
    | false => simp [addable, free] at blocked

theorem taken_plus {persist : Bool} {s : Store} {config : ServerConfig} {n : String} (other : n ≠ config.name) :
    (s.plus persist config).registry.taken n = s.registry.taken n := by
  cases persist <;> simp [Store.plus, Registry.taken, Store.withServer, Dict.mem_keys_insert, other]

theorem takeWhile_congr {α : Type} {p q : α → Bool} {l : List α} (same : ∀ a ∈ l, p a = q a) :
    l.takeWhile p = l.takeWhile q := by
  induction l with
  | nil => rfl
  | cons a l ih =>
    obtain ⟨here, rest⟩ := List.forall_mem_cons.mp same
    rw [List.takeWhile_cons, List.takeWhile_cons, here, ih rest]

/-- **The loop over the hops** adds those before the first that cannot be added, and
rolls them back if there is one. -/
theorem registerHops_spec {persist : Bool} {writes : Writes} {s : Store} {added : List String}
    {configs : List ServerConfig} (distinct : (configs.map ServerConfig.name).Nodup) :
    let front := configs.takeWhile fun config => addable persist writes s.registry config.name
    (front = configs → registerHops persist writes s added configs = (configs.foldl (Store.plus persist) s, none)) ∧
    (front ≠ configs → ∃ failed, registerHops persist writes s added configs =
      (rollBack persist writes (front.foldl (Store.plus persist) s) ((front.map ServerConfig.name).reverse ++ added),
        some failed)) := by
  induction configs generalizing s added with
  | nil => exact ⟨fun _ => rfl, fun differs => absurd rfl differs⟩
  | cons config configs ih =>
    rw [List.map_cons, List.nodup_cons] at distinct
    cases free : addable persist writes s.registry config.name with
    | false =>
      obtain ⟨e, fails⟩ := addTo_of_not_addable free
      simp only [List.takeWhile_cons, free, Bool.false_eq_true, if_false]
      refine ⟨fun same => by simp at same, fun _ => ⟨(config.name, e), ?_⟩⟩
      rw [registerHops, fails]
      rfl
    | true =>
      have later : ∀ c ∈ configs, addable persist writes (s.plus persist config).registry c.name =
          addable persist writes s.registry c.name := by
        intro c member
        have other : c.name ≠ config.name := fun same => distinct.1 (same ▸ List.mem_map_of_mem member)
        rw [addable, taken_plus other, addable]
      have rest := @ih (s.plus persist config) (config.name :: added) distinct.2
      rw [takeWhile_congr later] at rest
      simp only [List.takeWhile_cons, free, if_true, List.cons.injEq, true_and, registerHops, addTo_of_addable free,
        List.foldl_cons, List.map_cons, List.reverse_cons, List.append_assoc, List.singleton_append, ne_eq]
      exact rest

/-- What a store with new servers in one half is, entry by entry. -/
structure Extended (persist : Bool) (s t : Store) (configs : List ServerConfig) : Prop where
  half : (t.registry.half (.of persist)).items =
    (s.registry.half (.of persist)).items ++ configs.map fun config => (config.name, config)
  other : ∀ half, half ≠ .of persist → t.registry.half half = s.registry.half half
  settings : t.registry.config.settings = s.registry.config.settings
  file : t.file = s.file ∧ (persist = true → configs = []) ∨
    persist = true ∧ configs ≠ [] ∧ t.file = .text (appConfigToToml t.registry.config)

theorem extended_plus {persist : Bool} {s : Store} {config : ServerConfig}
    (free : s.registry.taken config.name = false) : Extended persist s (s.plus persist config) [config] := by
  simp only [Registry.taken, Bool.or_eq_false_iff, decide_eq_false_iff_not] at free
  cases persist with
  | true =>
    refine ⟨Dict.items_insert_fresh free.1 config, fun half different => ?_, rfl, .inr ⟨rfl, by simp, rfl⟩⟩
    cases half with
    | file => exact absurd rfl different
    | ephemeral => rfl
  | false =>
    refine ⟨Dict.items_insert_fresh free.2 config, fun half different => ?_, rfl, .inl ⟨rfl, by simp⟩⟩
    cases half with
    | file => rfl
    | ephemeral => exact absurd rfl different

theorem Extended.trans {persist : Bool} {s t u : Store} {a b : List ServerConfig} (first : Extended persist s t a)
    (second : Extended persist t u b) (some_ : b ≠ []) : Extended persist s u (a ++ b) where
  half := by rw [second.half, first.half, List.map_append, List.append_assoc]
  other half different := (second.other half different).trans (first.other half different)
  settings := second.settings.trans first.settings
  file := by
    obtain ⟨same, none_⟩ | written := second.file
    · cases persist with
      | true => exact absurd (none_ rfl) some_
      | false =>
        obtain ⟨before, -⟩ | ⟨bad, -⟩ := first.file
        · exact .inl ⟨same.trans before, by simp⟩
        · cases bad
    · exact .inr ⟨written.1, by simp [some_], written.2.2⟩

theorem Extended.taken {persist : Bool} {s t : Store} {configs : List ServerConfig}
    (extended : Extended persist s t configs) {n : String} (free : s.registry.taken n = false)
    (new : n ∉ configs.map ServerConfig.name) : t.registry.taken n = false := by
  simp only [Registry.taken, Bool.or_eq_false_iff, decide_eq_false_iff_not] at free ⊢
  have keys : ∀ half, n ∉ (s.registry.half half).keys → n ∉ (t.registry.half half).keys := by
    intro half absent
    by_cases same : half = .of persist
    · subst same
      rw [Dict.keys, extended.half, List.map_append, List.map_map]
      exact List.not_mem_append absent new
    · rwa [extended.other half same]
  exact ⟨keys .file free.1, keys .ephemeral free.2⟩

/-- **Hops that are free are all there after the loop.** -/
theorem extended_foldl {persist : Bool} {s : Store} {configs : List ServerConfig}
    (free : ∀ config ∈ configs, s.registry.taken config.name = false)
    (distinct : (configs.map ServerConfig.name).Nodup) :
    Extended persist s (configs.foldl (Store.plus persist) s) configs := by
  induction configs using List.reverseRecOn with
  | nil => exact ⟨by simp, fun _ _ => rfl, rfl, .inl ⟨rfl, fun _ => rfl⟩⟩
  | append_singleton configs config ih =>
    rw [List.map_append, List.nodup_append] at distinct
    have before := ih (fun c member => free c (List.mem_append_left _ member)) distinct.1
    have new : config.name ∉ configs.map ServerConfig.name := by
      intro member
      exact distinct.2.2 _ member _ (List.mem_singleton_self _) rfl
    rw [List.foldl_append, List.foldl_cons, List.foldl_nil]
    exact before.trans (extended_plus (before.taken (free config (by simp)) new)) (by simp)

theorem Extended.get? {persist : Bool} {s t : Store} {configs : List ServerConfig}
    (extended : Extended persist s t configs) (free : ∀ config ∈ configs, s.registry.taken config.name = false)
    (half : Half) (entry : String) : (t.registry.half half).get? entry =
      if half = .of persist then (configs.find? fun config => config.name = entry).or ((s.registry.half half).get? entry)
      else (s.registry.half half).get? entry := by
  split
  · rename_i same
    subst same
    rw [Dict.get?, extended.half, List.find?_append, Option.map_or, List.find?_map, Option.map_map, ← Dict.get?]
    cases there : (s.registry.half (.of persist)).get? entry with
    | none => simp [Function.comp_def]
    | some config =>
      have absent : configs.find? (fun config => config.name = entry) = none := by
        rw [List.find?_eq_none]
        intro c member same
        have none_ := Registry.half_eq_none_of_find? (Registry.find?_eq_none_iff.mpr (free c member)) (.of persist)
        rw [of_decide_eq_true same, there] at none_
        cases none_
      simp [absent]
  · rename_i different
    rw [extended.other half different]

theorem Extended.added {persist : Bool} {s t : Store} {configs : List ServerConfig}
    (extended : Extended persist s t configs) (free : ∀ config ∈ configs, s.registry.taken config.name = false)
    (distinct : (configs.map ServerConfig.name).Nodup) : Added s t persist configs.length :=
  ⟨configs, rfl, distinct, fun c member => Registry.find?_eq_none_iff.mpr (free c member), extended.get? free⟩

/-! ## Taking servers out again -/

/-- What a loop that removes servers makes of the file: nothing, or fewer servers and the
text that they are written as. -/
structure Pruned (s t : Store) : Prop where
  settings : t.registry.config.settings = s.registry.config.settings
  items : ∃ keep : String → Bool, t.registry.config.servers.items = s.registry.config.servers.items.filter fun e => keep e.1
  file : t.file = s.file ∧ t.registry.config = s.registry.config ∨
    t.registry.config.servers.items.length < s.registry.config.servers.items.length ∧
      t.file = .text (appConfigToToml t.registry.config)

theorem Pruned.refl (s : Store) : Pruned s s := ⟨rfl, ⟨fun _ => true, by simp⟩, .inl ⟨rfl, rfl⟩⟩

theorem Pruned.trans {s t u : Store} (first : Pruned s t) (second : Pruned t u) : Pruned s u where
  settings := second.settings.trans first.settings
  items := by
    obtain ⟨keep, kept⟩ := first.items
    obtain ⟨keep', kept'⟩ := second.items
    exact ⟨fun n => keep n && keep' n, by rw [kept', kept, List.filter_filter]; simp [Bool.and_comm]⟩
  file := by
    obtain ⟨keep, kept⟩ := first.items
    have shorter : t.registry.config.servers.items.length ≤ s.registry.config.servers.items.length := by
      rw [kept]
      exact List.length_filter_le _ _
    obtain ⟨same, config⟩ | ⟨fewer, text⟩ := second.file
    · rw [same, config]
      exact first.file
    · exact .inr ⟨by omega, text⟩

theorem pruned_remove {s t : Store} {writes : Bool} {name : String} (removed : s.remove writes name = .ok t) :
    Pruned s t := by
  obtain ⟨present, -, rfl⟩ := Store.remove_ok_iff.mp removed
  obtain ⟨e, member, rfl⟩ := List.mem_map.mp present
  refine ⟨rfl, ⟨fun n => n ≠ e.1, rfl⟩, .inr ⟨?_, rfl⟩⟩
  exact List.length_filter_lt_length_iff_exists.mpr ⟨e, member, by simp⟩

theorem pruned_memory {s : Store} (ephemeral : Dict String ServerConfig) :
    Pruned s { s with registry := { s.registry with ephemeral := ephemeral } } :=
  ⟨rfl, ⟨fun _ => true, by simp⟩, .inl ⟨rfl, rfl⟩⟩

theorem pruned_removeTarget (writes : String → Bool) (s : Store) (target : String) :
    Pruned s ((removeTarget writes s target).toOption.getD s) := by
  unfold removeTarget
  split
  · rename_i r inMemory
    obtain ⟨-, rfl⟩ := Registry.removeEphemeral_ok_iff.mp inMemory
    exact pruned_memory _
  · cases removed : s.remove (writes target) target with
    | error e => exact .refl s
    | ok t => exact pruned_remove removed

theorem pruned_targets (writes : String → Bool) (s : Store) (targets : List String) :
    Pruned s (targets.foldl (fun s target => (removeTarget writes s target).toOption.getD s) s) := by
  induction targets generalizing s with
  | nil => exact .refl s
  | cons target targets ih => exact (pruned_removeTarget writes s target).trans (ih _)

theorem pruned_teardown (writes : String → Bool) (s : Store) (name : String) :
    Pruned s (teardownJump writes s name).1 := by
  unfold teardownJump
  dsimp only
  split
  · exact .refl s
  rw [removeTargets_fst]
  exact pruned_targets writes s _

/-- One removal of a roll back. -/
theorem removeFrom_getD (persist writes : Bool) (s : Store) (n : String) :
    Pruned s ((s.removeFrom persist writes n).toOption.getD s) ∧ ∀ half entry,
      (((s.removeFrom persist writes n).toOption.getD s).registry.half half).get? entry =
        if half = .of persist ∧ entry = n ∧ (persist = true → writes = true) then none
        else (s.registry.half half).get? entry := by
  cases removed : s.removeFrom persist writes n with
  | error e =>
    refine ⟨.refl s, fun half entry => ?_⟩
    rw [Except.toOption, Option.getD_none]
    split
    · rename_i here
      obtain ⟨rfl, rfl, written⟩ := here
      rw [Dict.get?_eq_none_iff]
      intro present
      cases persist with
      | true =>
        have done := Store.remove_ok_iff.mpr ⟨present, written rfl, rfl⟩
        cases removed.symm.trans done
      | false =>
        have done := Registry.removeEphemeral_ok_iff.mpr ⟨present, rfl⟩
        rw [Store.removeFrom, if_neg Bool.false_ne_true, done] at removed
        cases removed
    · rfl
  | ok t =>
    have written : persist = true → writes = true := by
      rintro rfl
      exact (Store.remove_ok_iff.mp removed).2.1
    refine ⟨?_, fun half entry => ?_⟩
    · cases persist with
      | true => exact pruned_remove removed
      | false =>
        obtain ⟨r, inMemory, rfl⟩ := map_eq_ok_iff.mp removed
        obtain ⟨-, rfl⟩ := Registry.removeEphemeral_ok_iff.mp inMemory
        exact pruned_memory _
    · have entries := Store.removeFrom_spec removed half entry
      by_cases here : half = .of persist ∧ entry = n
      · rw [if_pos here] at entries
        rw [if_pos ⟨here.1, here.2, written⟩]
        exact entries
      · rw [if_neg here] at entries
        rw [if_neg fun all => here ⟨all.1, all.2.1⟩]
        exact entries

theorem pruned_rollBack (persist : Bool) (writes : Writes) (s : Store) (names : List String) :
    Pruned s (rollBack persist writes s names) := by
  induction names generalizing s with
  | nil => exact .refl s
  | cons n names ih => exact (removeFrom_getD persist (writes.remove n) s n).1.trans (ih _)

/-- Which entries a roll back removes. -/
theorem rollBack_get? (persist : Bool) (writes : Writes) (s : Store) (names : List String) (half : Half)
    (entry : String) : ((rollBack persist writes s names).registry.half half).get? entry =
      if half = .of persist ∧ entry ∈ names ∧ (persist = true → writes.remove entry = true) then none
      else (s.registry.half half).get? entry := by
  induction names generalizing s with
  | nil => simp [rollBack]
  | cons n names ih =>
    have first := (removeFrom_getD persist (writes.remove n) s n).2 half entry
    have rest := ih ((s.removeFrom persist (writes.remove n) n).toOption.getD s)
    rw [first] at rest
    rw [rollBack, List.foldl_cons]
    rw [rollBack] at rest
    rw [rest]
    have either : (half = .of persist ∧ entry ∈ n :: names ∧ (persist = true → writes.remove entry = true)) ↔
        (half = .of persist ∧ entry ∈ names ∧ (persist = true → writes.remove entry = true)) ∨
          half = .of persist ∧ entry = n ∧ (persist = true → writes.remove n = true) := by
      rw [List.mem_cons]
      by_cases here : entry = n
      · subst here
        tauto
      · tauto
    by_cases later : half = .of persist ∧ entry ∈ names ∧ (persist = true → writes.remove entry = true)
    · rw [if_pos later, if_pos (either.mpr (.inl later))]
    · rw [if_neg later]
      by_cases now : half = .of persist ∧ entry = n ∧ (persist = true → writes.remove n = true)
      · rw [if_pos now, if_pos (either.mpr (.inr now))]
      · rw [if_neg now, if_neg fun all => (either.mp all).elim later now]

/-! ## Undoing -/

/-- A pruned extension that has the entries of the store it extends has its servers in
their order. -/
theorem config_of_pruned {persist : Bool} {s t u : Store} {configs : List ServerConfig}
    (extended : Extended persist s t configs) (pruned : Pruned t u)
    (same : ∀ entry, u.registry.config.servers.get? entry = s.registry.config.servers.get? entry)
    (new : ∀ config ∈ configs, s.registry.config.servers.get? config.name = none) :
    u.registry.config = s.registry.config := by
  have settings := pruned.settings.trans extended.settings
  obtain ⟨keep, kept⟩ := pruned.items
  have old : ∀ e ∈ s.registry.config.servers.items, e ∈ t.registry.config.servers.items → keep e.1 = true := by
    intro e member inT
    have there := Dict.get?_of_mem member
    rw [← same e.1, Dict.get?_eq_some_iff, kept, List.mem_filter] at there
    exact there.2
  have items : u.registry.config.servers.items = s.registry.config.servers.items := by
    cases persist with
    | true =>
      have whole : t.registry.config.servers.items =
          s.registry.config.servers.items ++ configs.map fun config => (config.name, config) := extended.half
      have back : (configs.map fun config => (config.name, config)).filter (fun e => keep e.1) = [] := by
        rw [List.filter_eq_nil_iff]
        intro e member held
        have inU : e ∈ u.registry.config.servers.items := by
          rw [kept, List.mem_filter, whole]
          exact ⟨List.mem_append_right _ member, held⟩
        obtain ⟨config, inside, rfl⟩ := List.mem_map.mp member
        have found := Dict.get?_of_mem inU
        rw [same, new config inside] at found
        cases found
      rw [kept, whole, List.filter_append, back, List.append_nil, List.filter_eq_self]
      intro e member
      exact old e member (by rw [whole]; exact List.mem_append_left _ member)
    | false =>
      have whole : t.registry.config.servers = s.registry.config.servers := extended.other .file (by decide)
      rw [kept, whole, List.filter_eq_self]
      intro e member
      exact old e member (by rwa [whole])
  have servers := Dict.ext_items items
  exact congrArg₂ AppConfig.mk settings servers

/-- **A pruned extension is the store it extends** exactly if its entries are, and, where
the file was written, it is as the registry writes it. -/
theorem unchanged_iff {persist : Bool} {s t u : Store} {configs : List ServerConfig}
    (extended : Extended persist s t configs) (free : ∀ config ∈ configs, s.registry.taken config.name = false)
    (pruned : Pruned t u) : Unchanged s u ↔
      (∀ half entry, (u.registry.half half).get? entry = (s.registry.half half).get? entry) ∧
        (persist = true → configs ≠ [] → s.file = .text (appConfigToToml s.registry.config)) := by
  have config : (∀ half entry, (u.registry.half half).get? entry = (s.registry.half half).get? entry) →
      u.registry.config = s.registry.config := by
    intro entries
    refine config_of_pruned extended pruned (entries .file) fun config member => ?_
    exact Registry.half_eq_none_of_find? (Registry.find?_eq_none_iff.mpr (free config member)) .file
  have wrote : t.file = .text (appConfigToToml t.registry.config) → u.file = .text (appConfigToToml u.registry.config) := by
    intro written
    obtain ⟨kept, same⟩ | ⟨-, wrote⟩ := pruned.file
    · rw [kept, same, written]
    · exact wrote
  have text : (∀ half entry, (u.registry.half half).get? entry = (s.registry.half half).get? entry) →
      (persist = true → configs ≠ [] → s.file = .text (appConfigToToml s.registry.config)) →
      u.file = s.file := by
    intro entries canonical
    have back := config entries
    obtain ⟨same, none_⟩ | ⟨rfl, some_, written⟩ := extended.file
    · obtain ⟨kept, -⟩ | ⟨fewer, -⟩ := pruned.file
      · exact kept.trans same
      · exfalso
        have whole : t.registry.config.servers.items = s.registry.config.servers.items := by
          cases persist with
          | true =>
            have all := extended.half
            rw [none_ rfl, List.map_nil, List.append_nil] at all
            exact all
          | false => exact congrArg Dict.items (extended.other .file (by decide))
        rw [whole, back] at fewer
        omega
    · rw [wrote written, back]
      exact (canonical rfl some_).symm
  constructor
  · rintro ⟨entries, file⟩
    refine ⟨entries, ?_⟩
    rintro rfl some_
    obtain ⟨-, none_⟩ | ⟨-, -, written⟩ := extended.file
    · exact absurd (none_ rfl) some_
    · rw [← file, wrote written, config entries]
  · rintro ⟨entries, canonical⟩
    exact ⟨entries, text entries canonical⟩

/-! ## Building -/

theorem hopName_injective {name : String} {i j total : Nat} (same : hopName name i total = hopName name j total) :
    i + 1 = total ∧ j + 1 = total ∨ i = j := by
  have longer : ∀ k : Nat, hopPrefix name ++ toString k ≠ name := by
    intro k equal
    have lengths := congrArg String.length equal
    simp only [hopPrefix, String.length_append] at lengths
    have one : "_".length = 1 := rfl
    omega
  unfold hopName at same
  split at same <;> split at same
  · exact .inl ⟨‹_›, ‹_›⟩
  · exact absurd same.symm (longer j)
  · exact absurd same (longer i)
  · exact .inr (toString_nat_inj (String.append_right_inj _ |>.mp same))

theorem nodup_hopNames (name : String) (total : Nat) : (hopNames name total).Nodup := by
  refine List.Nodup.map_on (fun i _ j _ same => ?_) List.nodup_range
  obtain ⟨hi, hj⟩ | equal := hopName_injective same
  · omega
  · exact equal

/-- A chain whose elements all name servers gets its hops' names; another one is refused. -/
theorem planHops_spec {repr : String → String} {r : Registry} {name : String} {note : Option String} {total : Nat}
    (index : Nat) (previous : Option String) (chain : List String) :
    let resolves := ∀ element ∈ chain, ∃ hop, parseHop element = some hop ∧ (r.find? hop.server).isSome = true
    (∀ hops, planHops repr r name note total index previous chain = .ok hops → resolves ∧
      hops.map (fun hop => hop.config.name) = (List.range' index chain.length).map fun i => hopName name i total) ∧
    ∀ outcome, planHops repr r name note total index previous chain = .error outcome →
      ¬ resolves ∧ ∀ jump persist hops, outcome ≠ .created jump persist hops := by
  induction chain generalizing index previous with
  | nil =>
    refine ⟨?_, by rintro _ ⟨⟩⟩
    rintro _ ⟨⟩
    exact ⟨by simp, rfl⟩
  | cons element chain ih =>
    obtain ⟨good, bad⟩ := ih (index + 1) (some (hopName name index total))
    simp only [List.forall_mem_cons, planHops]
    cases parsed : parseHop element with
    | none =>
      refine ⟨by rintro _ ⟨⟩, ?_⟩
      rintro _ ⟨⟩
      exact ⟨by simp, by simp⟩
    | some hop =>
      dsimp only
      cases found : r.find? hop.server with
      | none =>
        refine ⟨by rintro _ ⟨⟩, ?_⟩
        rintro _ ⟨⟩
        exact ⟨by simp [found], by simp⟩
      | some base =>
        simp only [bind, Except.bind, pure, Except.pure]
        cases rest : planHops repr r name note total (index + 1) (some (hopName name index total)) chain with
        | error outcome =>
          obtain ⟨unresolved, other⟩ := bad outcome rest
          refine ⟨by rintro _ ⟨⟩, ?_⟩
          rintro _ ⟨⟩
          exact ⟨fun all => unresolved all.2, other⟩
        | ok later =>
          obtain ⟨resolved, names⟩ := good later rest
          refine ⟨?_, by rintro _ ⟨⟩⟩
          rintro _ ⟨⟩
          exact ⟨⟨⟨hop, rfl, by rw [found]; rfl⟩, resolved⟩, by simp [List.range'_succ, names]⟩

section

variable {repr : String → String} {writes : Writes} {s : Store} {name : String} {chain : List String} {persist : Bool}
  {note : Option String}

theorem buildChain_of_not_plannable (not : ¬ Plannable s.registry name chain) :
    (buildChain repr writes s name chain persist note).1 = s ∧
      ∀ jump persist' hops, (buildChain repr writes s name chain persist note).2 ≠ .created jump persist' hops := by
  unfold buildChain
  split
  · exact ⟨rfl, by simp⟩
  rename_i free
  rw [Bool.not_eq_true, Option.isSome_eq_false_iff, Option.isNone_iff_eq_none] at free
  obtain ⟨good, bad⟩ := @planHops_spec repr s.registry name note chain.length 0 none chain
  split
  · rename_i outcome failed
    exact ⟨rfl, (bad outcome failed).2⟩
  · rename_i hops planned
    exact absurd ⟨free, (good hops planned).1⟩ not

/-- **A chain that can be planned** is registered hop by hop, up to the first hop that
cannot be added. -/
theorem buildChain_of_plannable (plannable : Plannable s.registry name chain) :
    let names := hopNames name chain.length
    let front := names.takeWhile (addable persist writes s.registry)
    (names.all (addable persist writes s.registry) = true → ∃ t hops,
      planHops repr s.registry name note chain.length 0 none chain = .ok hops ∧
        buildChain repr writes s name chain persist note = (t, .created name persist (hops.map PlannedHop.summary)) ∧
        (hops.map PlannedHop.config).map ServerConfig.name = names ∧
        Extended persist s t (hops.map PlannedHop.config)) ∧
    (¬ names.all (addable persist writes s.registry) = true → ∃ t server e configs,
      buildChain repr writes s name chain persist note =
          (rollBack persist writes t front.reverse, .registryError server e) ∧
        configs.map ServerConfig.name = front ∧ Extended persist s t configs) := by
  obtain ⟨free, resolves⟩ := plannable
  obtain ⟨hops, planned, named⟩ : ∃ hops, planHops repr s.registry name note chain.length 0 none chain = .ok hops ∧
      hops.map (fun hop => hop.config.name) = (List.range' 0 chain.length).map fun i => hopName name i chain.length := by
    obtain ⟨good, bad⟩ := @planHops_spec repr s.registry name note chain.length 0 none chain
    cases planned : planHops repr s.registry name note chain.length 0 none chain with
    | error outcome => exact absurd resolves (bad outcome planned).1
    | ok hops => exact ⟨hops, rfl, (good hops planned).2⟩
  have names : (hops.map PlannedHop.config).map ServerConfig.name = hopNames name chain.length := by
    rw [List.map_map, hopNames, List.range_eq_range']
    exact named
  have distinct : ((hops.map PlannedHop.config).map ServerConfig.name).Nodup := names ▸ nodup_hopNames _ _
  have cut : (hopNames name chain.length).takeWhile (addable persist writes s.registry) =
      ((hops.map PlannedHop.config).takeWhile fun config => addable persist writes s.registry config.name).map
        ServerConfig.name := by
    rw [← names, List.takeWhile_map]
    rfl
  have all : (hopNames name chain.length).all (addable persist writes s.registry) = true ↔
      (hops.map PlannedHop.config).takeWhile (fun config => addable persist writes s.registry config.name) =
        hops.map PlannedHop.config := by
    rw [← names, List.all_map, List.all_eq_true, List.takeWhile_eq_self_iff]
    rfl
  have free' : ∀ config ∈ (hops.map PlannedHop.config).takeWhile
      (fun config => addable persist writes s.registry config.name), s.registry.taken config.name = false := by
    intro config member
    have ok := List.mem_takeWhile_imp member
    simp only [addable, Bool.and_eq_true, Bool.not_eq_true'] at ok
    exact ok.1
  obtain ⟨succeeds, fails⟩ := @registerHops_spec persist writes s [] (hops.map PlannedHop.config) distinct
  have created : ∀ s', registerHops persist writes s [] (hops.map PlannedHop.config) = (s', none) →
      buildChain repr writes s name chain persist note = (s', .created name persist (hops.map PlannedHop.summary)) := by
    intro s' result
    simp only [buildChain, free, planned, result, Option.isSome_none, Bool.false_eq_true, if_false]
  have stopped : ∀ s' server e, registerHops persist writes s [] (hops.map PlannedHop.config) = (s', some (server, e)) →
      buildChain repr writes s name chain persist note = (s', .registryError server e) := by
    intro s' server e result
    simp only [buildChain, free, planned, result, Option.isSome_none, Bool.false_eq_true, if_false]
  constructor
  · intro allFree
    have whole := all.mp allFree
    rw [whole] at free'
    exact ⟨_, hops, planned, created _ (succeeds whole), names, extended_foldl free' distinct⟩
  · intro blocked
    obtain ⟨⟨server, e⟩, failed⟩ := fails fun same => blocked (all.mpr same)
    rw [List.append_nil, ← cut] at failed
    refine ⟨_, server, e, _, stopped _ _ _ failed, cut.symm, extended_foldl free' ?_⟩
    exact distinct.sublist (List.Sublist.map _ (List.takeWhile_sublist _))

end

/-! ## Rolling back and tearing down -/

section

variable {persist : Bool} {writes : Writes} {s t : Store} {configs : List ServerConfig} {names : List String}

theorem Extended.get?_other (extended : Extended persist s t configs)
    (free : ∀ config ∈ configs, s.registry.taken config.name = false) {entry : String}
    (other : entry ∉ configs.map ServerConfig.name) (half : Half) :
    (t.registry.half half).get? entry = (s.registry.half half).get? entry := by
  have absent : configs.find? (fun config => config.name = entry) = none := by
    rw [List.find?_eq_none]
    intro config member same
    exact other (List.mem_map.mpr ⟨config, member, of_decide_eq_true same⟩)
  rw [extended.get? free]
  split
  · rw [absent, Option.none_or]
  · rfl

theorem Extended.get?_new (extended : Extended persist s t configs)
    (free : ∀ config ∈ configs, s.registry.taken config.name = false) {entry : String}
    (new : entry ∈ configs.map ServerConfig.name) :
    (∀ half, (s.registry.half half).get? entry = none) ∧ ((t.registry.half (.of persist)).get? entry).isSome = true := by
  obtain ⟨config, member, rfl⟩ := List.mem_map.mp new
  refine ⟨Registry.half_eq_none_of_find? (Registry.find?_eq_none_iff.mpr (free config member)), ?_⟩
  have found : (configs.find? fun c => c.name = config.name).isSome = true :=
    List.find?_isSome.mpr ⟨config, member, by simp⟩
  rw [extended.get? free, if_pos rfl, Option.isSome_or, found, Bool.true_or]

/-- A canonical file and removals that succeed, where there is something to remove. -/
theorem undoable_iff : Undoable writes s (configs.map ServerConfig.name) ↔
    (∀ n ∈ configs.map ServerConfig.name, writes.remove n = true) ∧
      (configs ≠ [] → s.file = .text (appConfigToToml s.registry.config)) := by
  rw [Undoable, List.map_eq_nil_iff]
  by_cases empty : configs = [] <;> simp [empty]

/-- **A roll back undoes the hops it is given**, except in the file. -/
theorem unchanged_rollBack_iff (extended : Extended persist s t configs)
    (free : ∀ config ∈ configs, s.registry.taken config.name = false) :
    Unchanged s (rollBack persist writes t (configs.map ServerConfig.name).reverse) ↔
      (persist = true → Undoable writes s (configs.map ServerConfig.name)) := by
  rw [unchanged_iff extended free (pruned_rollBack persist writes t _), undoable_iff, forall_and]
  refine and_congr_left fun _ => ⟨fun entries => ?_, fun removable half entry => ?_⟩
  · rintro rfl n member
    obtain ⟨before, after⟩ := extended.get?_new free member
    cases kept : writes.remove n with
    | true => rfl
    | false =>
      have same := entries .file n
      rw [rollBack_get?, if_neg (by simp [kept]), before] at same
      rw [show Half.of true = .file from rfl, same] at after
      cases after
  · rw [rollBack_get?]
    by_cases member : entry ∈ configs.map ServerConfig.name
    · obtain ⟨before, -⟩ := extended.get?_new free member
      split
      · exact (before half).symm
      · rename_i kept
        have different : half ≠ .of persist := fun same =>
          kept ⟨same, List.mem_reverse.mpr member, fun persists => removable persists entry member⟩
        rw [extended.other half different]
    · rw [if_neg fun all => member (List.mem_reverse.mp all.2.1)]
      exact extended.get?_other free member half

theorem mem_teardownTargets {name : String} (extended : Extended persist s t configs)
    (belong : ∀ n ∈ configs.map ServerConfig.name, belongsTo name n = true) {n : String} :
    n ∈ teardownTargets t.registry name ↔ n ∈ teardownTargets s.registry name ∨ n ∈ configs.map ServerConfig.name := by
  have values : ∀ c, c ∈ t.registry.listAll ↔ c ∈ s.registry.listAll ∨ c ∈ configs := by
    intro c
    have mine : (t.registry.half (.of persist)).values = (s.registry.half (.of persist)).values ++ configs := by
      rw [Dict.values, extended.half, List.map_append, List.map_map]
      exact congrArg _ (List.map_id _)
    rw [Registry.listAll, Registry.listAll, List.mem_append, List.mem_append]
    cases persist with
    | true =>
      rw [show t.registry.config.servers.values = _ from mine,
        show t.registry.ephemeral = _ from extended.other .ephemeral (by decide), List.mem_append]
      exact or_right_comm
    | false =>
      rw [show t.registry.ephemeral.values = _ from mine,
        show t.registry.config.servers = _ from extended.other .file (by decide), List.mem_append]
      exact or_assoc.symm
  simp only [teardownTargets, List.mem_filter, List.mem_map, values]
  constructor
  · rintro ⟨⟨c, old | new, rfl⟩, belongs⟩
    · exact .inl ⟨⟨c, old, rfl⟩, belongs⟩
    · exact .inr ⟨c, new, rfl⟩
  · rintro (⟨⟨c, old, rfl⟩, belongs⟩ | ⟨c, new, rfl⟩)
    · exact ⟨⟨c, .inl old, rfl⟩, belongs⟩
    · exact ⟨⟨c, .inr new, rfl⟩, belong _ (List.mem_map_of_mem new)⟩

theorem teardownJump_fst (writes : String → Bool) (s : Store) (name : String) :
    (teardownJump writes s name).1 = (removeTargets writes s [] (teardownTargets s.registry name)).1 := by
  by_cases empty : teardownTargets s.registry name = []
  · simp [teardownJump, empty, removeTargets]
  · simp [teardownJump, empty]

/-- What is not in memory is not there either once the hops are in the file, and a hop
that is added to the memory is new. -/
theorem Extended.not_in_memory (extended : Extended persist s t configs)
    (free : ∀ config ∈ configs, s.registry.taken config.name = false) {n : String}
    (absent : n ∉ s.registry.ephemeral.keys) (elsewhere : persist = true ∨ n ∉ configs.map ServerConfig.name) :
    n ∉ t.registry.ephemeral.keys := by
  rw [← Dict.get?_eq_none_iff] at absent ⊢
  obtain rfl | other := elsewhere
  · rwa [show t.registry.ephemeral = _ from extended.other .ephemeral (by decide)]
  · exact (extended.get?_other free other .ephemeral).trans absent

theorem teardown_get?_ephemeral (writes : String → Bool) (s : Store) (name entry : String) :
    (teardownJump writes s name).1.registry.ephemeral.get? entry =
      if entry ∈ teardownTargets s.registry name then none else s.registry.ephemeral.get? entry := by
  rw [teardownJump_fst, removeTargets_ephemeral]

theorem teardown_get?_file (writes : String → Bool) (s : Store) (name entry : String) :
    (teardownJump writes s name).1.registry.config.servers.get? entry =
      if writes entry = true ∧
        (if entry ∈ s.registry.ephemeral.keys then 1 else 0) < (teardownTargets s.registry name).count entry then none
      else s.registry.config.servers.get? entry := by
  rw [teardownJump_fst, removeTargets_file]

/-- A teardown that gives the entries back has met none but the chain's. -/
theorem noneElse_of_entries {name : String} (extended : Extended persist s t configs)
    (free : ∀ config ∈ configs, s.registry.taken config.name = false)
    (belong : ∀ n ∈ configs.map ServerConfig.name, belongsTo name n = true)
    (entries : ∀ half entry, ((teardownJump writes.remove t name).1.registry.half half).get? entry =
      (s.registry.half half).get? entry) : NoneElse writes s name := by
  intro n member
  have target : n ∈ teardownTargets t.registry name := (mem_teardownTargets extended belong).mpr (.inl member)
  have absent : n ∉ s.registry.ephemeral.keys := by
    rw [← Dict.get?_eq_none_iff]
    exact (entries .ephemeral n).symm.trans ((teardown_get?_ephemeral _ t name n).trans (if_pos target))
  refine ⟨absent, fun present => ?_⟩
  cases kept : writes.remove n with
  | false => rfl
  | true =>
    have old : n ∉ configs.map ServerConfig.name := by
      intro new
      exact Dict.get?_eq_none_iff.mp ((extended.get?_new free new).1 .file) present
    have counted : (if n ∈ t.registry.ephemeral.keys then 1 else 0) < (teardownTargets t.registry name).count n := by
      rw [if_neg (extended.not_in_memory free absent (.inr old))]
      exact List.count_pos_iff.mpr target
    have gone := (entries .file n).symm.trans ((teardown_get?_file _ t name n).trans (if_pos ⟨kept, counted⟩))
    exact absurd present (Dict.get?_eq_none_iff.mp gone)

/-- A teardown that can remove every hop, and meets no other entry, gives the entries back. -/
theorem entries_of_noneElse {name : String} (extended : Extended persist s t configs)
    (free : ∀ config ∈ configs, s.registry.taken config.name = false)
    (belong : ∀ n ∈ configs.map ServerConfig.name, belongsTo name n = true)
    (removable : persist = true → ∀ n ∈ configs.map ServerConfig.name, writes.remove n = true)
    (noneElse : NoneElse writes s name) (half : Half) (entry : String) :
    ((teardownJump writes.remove t name).1.registry.half half).get? entry = (s.registry.half half).get? entry := by
  have targets := @mem_teardownTargets persist s t configs name extended belong entry
  have old : entry ∉ configs.map ServerConfig.name → (t.registry.half half).get? entry =
      (s.registry.half half).get? entry := fun other => extended.get?_other free other half
  cases half with
  | ephemeral =>
    refine (teardown_get?_ephemeral writes.remove t name entry).trans ?_
    split
    · rename_i target
      symm
      obtain was | new := targets.mp target
      · exact Dict.get?_eq_none_iff.mpr (noneElse entry was).1
      · exact (extended.get?_new free new).1 .ephemeral
    · rename_i other
      exact old fun new => other (targets.mpr (.inr new))
  | file =>
    by_cases gone : writes.remove entry = true ∧
        (if entry ∈ t.registry.ephemeral.keys then 1 else 0) < (teardownTargets t.registry name).count entry
    · refine (teardown_get?_file _ t name entry).trans ((if_pos gone).trans (Eq.symm ?_))
      by_cases new : entry ∈ configs.map ServerConfig.name
      · exact (extended.get?_new free new).1 .file
      · have target : entry ∈ teardownTargets t.registry name := List.count_pos_iff.mp (by omega)
        refine Dict.get?_eq_none_iff.mpr fun present => ?_
        rw [(noneElse entry ((targets.mp target).resolve_right new)).2 present] at gone
        cases gone.1
    · refine (teardown_get?_file _ t name entry).trans ((if_neg gone).trans ?_)
      by_cases new : entry ∈ configs.map ServerConfig.name
      · cases persist with
        | false => exact congrArg (fun d => Dict.get? d entry) (extended.other .file (by decide))
        | true =>
          have before := Dict.get?_eq_none_iff.mp ((extended.get?_new free new).1 .ephemeral)
          refine absurd ⟨removable rfl entry new, ?_⟩ gone
          rw [if_neg (extended.not_in_memory free before (.inl rfl))]
          exact List.count_pos_iff.mpr (targets.mpr (.inr new))
      · exact old new

/-- **A teardown undoes a built chain** if it can remove all of its hops, and finds no
other entry by its names. -/
theorem unchanged_teardown_iff {name : String} (extended : Extended persist s t configs)
    (free : ∀ config ∈ configs, s.registry.taken config.name = false)
    (belong : ∀ n ∈ configs.map ServerConfig.name, belongsTo name n = true) :
    Unchanged s (teardownJump writes.remove t name).1 ↔
      (persist = true → Undoable writes s (configs.map ServerConfig.name)) ∧ NoneElse writes s name := by
  rw [unchanged_iff extended free (pruned_teardown writes.remove t name), undoable_iff, forall_and, and_right_comm]
  refine and_congr_left fun _ => ⟨fun entries => ⟨?_, noneElse_of_entries extended free belong entries⟩, ?_⟩
  · rintro rfl n member
    obtain ⟨before, after⟩ := extended.get?_new free member
    cases kept : writes.remove n with
    | true => rfl
    | false =>
      have same : t.registry.config.servers.get? n = none :=
        ((teardown_get?_file _ t name n).trans (if_neg (by simp [kept]))).symm.trans
          ((entries .file n).trans (before .file))
      rw [show (t.registry.half (.of true)).get? n = none from same] at after
      cases after
  · rintro ⟨removable, noneElse⟩
    exact entries_of_noneElse extended free belong removable noneElse

end

/-! ## The whole call -/

theorem unchanged_refl (s : Store) : Unchanged s s := ⟨fun _ _ => rfl, rfl⟩

theorem allOrNothing_of_failed {around : JumpSurroundings} {s : Store} {request : JumpRequest}
    {result : Store × JumpAnswer} (failed : result.2.succeeds = false) :
    AllOrNothing around s request result ↔ Unchanged s result.1 := by
  rw [AllOrNothing, failed, if_neg Bool.false_ne_true]

theorem allOrNothing_of_succeeded {around : JumpSurroundings} {s : Store} {request : JumpRequest} {chain : List String}
    {result : Store × JumpAnswer} (found : around.chainOf s.registry request = some chain)
    (succeeded : result.2.succeeds = true) (added : Added s result.1 request.persist chain.length) :
    AllOrNothing around s request result := by
  rw [AllOrNothing, if_pos succeeded]
  exact ⟨chain, found, added⟩

/-- A call that has no chain to build does nothing. -/
theorem setupJumpCall_of_no_chain {repr : String → String} {around : JumpSurroundings} {writes : Writes} {s : Store}
    {request : JumpRequest} (none_ : around.chainOf s.registry request = none) :
    (setupJumpCall repr around writes s request).1 = s ∧
      (setupJumpCall repr around writes s request).2.succeeds = false := by
  unfold JumpSurroundings.chainOf at none_
  unfold setupJumpCall
  cases aim : request.target with
  | some target =>
    rw [aim] at none_
    dsimp only at none_ ⊢
    unfold setupJumpAuto
    cases found : around.findChain s.registry request target with
    | error reason => exact ⟨rfl, rfl⟩
    | ok chain =>
      rw [found] at none_
      cases none_
  | none =>
    rw [aim] at none_
    dsimp only at none_ ⊢
    have empty : request.chain = [] := by
      by_contra some_
      rw [if_neg some_] at none_
      cases none_
    rw [setupJump, if_pos empty]
    exact ⟨rfl, rfl⟩

/-- A call that has a chain builds it, and, where it has found it, connects through it. -/
theorem setupJumpCall_of_chain {repr : String → String} {around : JumpSurroundings} {writes : Writes} {s : Store}
    {request : JumpRequest} {chain : List String} (found : around.chainOf s.registry request = some chain) :
    let result := buildChain repr writes s request.name chain request.persist request.note
    let call := setupJumpCall repr around writes s request
    ((∀ jump persist hops, result.2 ≠ .created jump persist hops) → call.1 = result.1 ∧ call.2.succeeds = false) ∧
    (∀ jump persist hops, result.2 = .created jump persist hops →
      if request.target.isSome = true ∧ around.connects = false then
        call.1 = (teardownJump writes.remove result.1 request.name).1 ∧ call.2.succeeds = false
      else call.1 = result.1 ∧ call.2.succeeds = true) := by
  unfold JumpSurroundings.chainOf at found
  unfold setupJumpCall
  cases aim : request.target with
  | some target =>
    rw [aim] at found
    dsimp only at found ⊢
    unfold setupJumpAuto
    cases path : around.findChain s.registry request target with
    | error reason =>
      rw [path] at found
      cases found
    | ok chain' =>
      rw [path] at found
      obtain rfl : chain' = chain := Option.some.inj found
      dsimp only
      rcases buildChain repr writes s request.name chain' request.persist request.note with ⟨t, outcome⟩
      cases outcome with
      | created jump persist hops =>
        refine ⟨fun other => absurd rfl (other _ _ _), ?_⟩
        rintro jump' persist' hops' -
        cases around.connects <;> exact ⟨rfl, rfl⟩
      | _ => exact ⟨fun _ => ⟨rfl, rfl⟩, by rintro _ _ _ ⟨⟩⟩
  | none =>
    rw [aim] at found
    dsimp only at found ⊢
    obtain ⟨some_, rfl⟩ : request.chain ≠ [] ∧ request.chain = chain := by
      split at found
      · cases found
      · exact ⟨‹_›, Option.some.inj found⟩
    rw [setupJump, if_neg some_]
    rcases buildChain repr writes s request.name request.chain request.persist request.note with ⟨t, outcome⟩
    cases outcome with
    | created jump persist hops =>
      refine ⟨fun other => absurd rfl (other _ _ _), ?_⟩
      rintro jump' persist' hops' -
      exact ⟨rfl, rfl⟩
    | _ => exact ⟨fun _ => ⟨rfl, rfl⟩, by rintro _ _ _ ⟨⟩⟩

theorem not_taken_of_addable {persist : Bool} {writes : Writes} {r : Registry} {n : String}
    (ok : addable persist writes r n = true) : r.taken n = false := by
  simp only [addable, Bool.and_eq_true, Bool.not_eq_true'] at ok
  exact ok.1

section

variable {repr : String → String} {around : JumpSurroundings} {writes : Writes} {s : Store} {request : JumpRequest}
  {chain : List String}

/-- Every hop is added, and the whole chain is undone when the connect fails. -/
theorem allOrNothing_iff_of_addable (found : around.chainOf s.registry request = some chain)
    (plannable : Plannable s.registry request.name chain)
    (all : (hopNames request.name chain.length).all (addable request.persist writes s.registry) = true) :
    AllOrNothing around s request (setupJumpCall repr around writes s request) ↔
      Revocable around writes s request (hopNames request.name chain.length) := by
  obtain ⟨-, succeeds⟩ := @setupJumpCall_of_chain repr around writes s request chain found
  obtain ⟨t, hops, -, built, named, extended⟩ := (@buildChain_of_plannable repr writes s request.name chain
    request.persist request.note plannable).1 all
  generalize hops.map PlannedHop.config = configs at named extended
  have free : ∀ config ∈ configs, s.registry.taken config.name = false := by
    intro config member
    refine not_taken_of_addable (List.all_eq_true.mp all _ ?_)
    exact named ▸ List.mem_map_of_mem member
  have outcome := succeeds request.name request.persist _ (by rw [built])
  rw [built] at outcome
  split at outcome
  · rename_i torn
    rw [allOrNothing_of_failed outcome.2, outcome.1]
    have belong : ∀ n ∈ configs.map ServerConfig.name, belongsTo request.name n = true := by
      rw [named]
      intro n member
      obtain ⟨i, -, rfl⟩ := List.mem_map.mp member
      exact belongsTo_hopName _ _ _
    rw [unchanged_teardown_iff extended free belong, named]
    constructor
    · exact fun undone => ⟨fun _ blocked => absurd all blocked, fun _ _ _ => undone⟩
    · exact fun revocable => revocable.teardown torn.1 torn.2 all
  · rename_i kept
    have count : configs.length = chain.length := by
      rw [← List.length_map ServerConfig.name, named, hopNames, List.length_map, List.length_range]
    have distinct : (configs.map ServerConfig.name).Nodup := named ▸ nodup_hopNames _ _
    constructor
    · exact fun _ => ⟨fun _ blocked => absurd all blocked, fun aims dead _ => absurd ⟨aims, dead⟩ kept⟩
    · intro _
      refine allOrNothing_of_succeeded found outcome.2 ?_
      rw [outcome.1, ← count]
      exact extended.added free distinct

/-- A hop cannot be added, and those before it are rolled back. -/
theorem allOrNothing_iff_of_blocked (found : around.chainOf s.registry request = some chain)
    (plannable : Plannable s.registry request.name chain)
    (blocked : ¬ (hopNames request.name chain.length).all (addable request.persist writes s.registry) = true) :
    AllOrNothing around s request (setupJumpCall repr around writes s request) ↔
      Revocable around writes s request (hopNames request.name chain.length) := by
  obtain ⟨fails, -⟩ := @setupJumpCall_of_chain repr around writes s request chain found
  obtain ⟨t, server, e, configs, built, named, extended⟩ := (@buildChain_of_plannable repr writes s request.name chain
    request.persist request.note plannable).2 blocked
  have free : ∀ config ∈ configs, s.registry.taken config.name = false := by
    intro config member
    have inFront : config.name ∈ configs.map ServerConfig.name := List.mem_map_of_mem member
    rw [named] at inFront
    exact not_taken_of_addable (List.mem_takeWhile_imp inFront)
  obtain ⟨result, failed⟩ := fails (by simp [built])
  rw [allOrNothing_of_failed failed, result, built, ← named, unchanged_rollBack_iff extended free, named]
  constructor
  · exact fun undone => ⟨fun persists _ => undone persists, fun _ _ whole => absurd whole blocked⟩
  · exact fun revocable persists => revocable.rollBack persists blocked

end

/-- **`setup_jump` is all or nothing** exactly if what it may have to undo can be undone:
the hops that it adds before one that it cannot add, and the chain that no connect goes
through. -/
theorem allOrNothing_iff (repr : String → String) (around : JumpSurroundings) (writes : Writes) (s : Store)
    (request : JumpRequest) :
    AllOrNothing around s request (setupJumpCall repr around writes s request) ↔
      ∀ chain, around.chainOf s.registry request = some chain → Plannable s.registry request.name chain →
        Revocable around writes s request (hopNames request.name chain.length) := by
  cases found : around.chainOf s.registry request with
  | none =>
    obtain ⟨same, failed⟩ := @setupJumpCall_of_no_chain repr around writes s request found
    rw [allOrNothing_of_failed failed, same]
    exact ⟨by simp, fun _ => unchanged_refl s⟩
  | some chain =>
    simp only [Option.some.injEq, forall_eq']
    by_cases plannable : Plannable s.registry request.name chain
    · rw [forall_prop_of_true plannable]
      by_cases all : (hopNames request.name chain.length).all (addable request.persist writes s.registry) = true
      · exact allOrNothing_iff_of_addable found plannable all
      · exact allOrNothing_iff_of_blocked found plannable all
    · obtain ⟨fails, -⟩ := @setupJumpCall_of_chain repr around writes s request chain found
      obtain ⟨same, other⟩ := @buildChain_of_not_plannable repr writes s request.name chain request.persist
        request.note plannable
      obtain ⟨result, failed⟩ := fails other
      rw [allOrNothing_of_failed failed, result, same]
      exact ⟨fun _ can => absurd can plannable, fun _ => unchanged_refl s⟩

/-- One server in memory, and no file-backed one. -/
def oneInMemory : Store :=
  ⟨⟨{}, Dict.empty.insert "web" { name := "web", host := "10.0.0.1", user := "root", authType := .agent }⟩,
    .text (appConfigToToml {})⟩

/-- The second hop cannot be written, and then the file cannot be written either to take
the first one out: half of the chain stays. -/
theorem half_chain_stays : ¬ ∀ (repr : String → String) (around : JumpSurroundings) (writes : Writes) (s : Store)
    (request : JumpRequest), AllOrNothing around s request (setupJumpCall repr around writes s request) := by
  intro all
  let around : JumpSurroundings := ⟨false, false, none, 0, ⟨[]⟩, false⟩
  let writes : Writes := ⟨fun n => n = "_lab_hop0", fun _ => false⟩
  have call := all id around writes oneInMemory { name := "lab", chain := ["web", "web"], persist := true }
  rw [allOrNothing_of_failed (by decide +kernel)] at call
  have kept := call.entries .file "_lab_hop0"
  revert kept
  decide +kernel

end McpSsh
