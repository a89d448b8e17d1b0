import McpSsh.DiscoveryRuns

/-!
# The names that a scan picks

Every call of `_register` finds a name that neither half of the registry has, whatever
the fingerprints are, and the calls of one scan pick different names.
-/

set_option autoImplicit false

namespace McpSsh

open Base

/-- The arguments of a call of `_register`, and whether the file of the registry can be
replaced; a server in memory needs no file. -/
structure Sighting where
  fingerprint : String
  addr : String
  via : FrontierItem
  username : String
  writes : Bool

/-- A call of `_register`, with the engine before it and the name that its loop picks. -/
structure Registration where
  before : Engine
  sighting : Sighting
  name : Option String

namespace Engine

variable (p : DiscoveryParams)

/-- `_register` of a sighting. -/
def registerSighting (s : Engine) (v : Sighting) : Option (Store × String × Bool) :=
  s.register p v.fingerprint v.addr v.via v.username (v.writes || !p.persist)

/-- The engine after `_register`, which may have raised. -/
def afterRegister (s : Engine) (v : Sighting) : Engine :=
  match s.registerSighting p v with
  | some (store, _) => { s with store }
  | none => s

/-- The calls of `_register` in a scan, one after the other. -/
def registrations : Engine → List Sighting → List Registration
  | _, [] => []
  | s, v :: rest => ⟨s, v, pickName p s.store.registry v.fingerprint⟩ :: registrations (s.afterRegister p v) rest

end Engine

/-- The call returns. -/
def Registration.Succeeds (p : DiscoveryParams) (r : Registration) : Prop :=
  (r.before.registerSighting p r.sighting).isSome = true

/-- The loop ends with a name that neither half has, which no `add` refuses. -/
structure Registration.Fresh (p : DiscoveryParams) (r : Registration) (name : String) : Prop where
  picked : r.name = some name
  file : r.before.store.registry.config.servers.get? name = none
  ephemeral : r.before.store.registry.ephemeral.get? name = none
  accepted : ∀ writes taken, r.before.store.addTo p.persist writes
    (Engine.registration p r.sighting.fingerprint r.sighting.addr r.sighting.via r.sighting.username name).1 ≠
      .error (.serverAlreadyExists taken)

/-- What holds of the names of a scan. -/
structure FreshNames (p : DiscoveryParams) (s : Engine) (vs : List Sighting) : Prop where
  fresh : ∀ r ∈ s.registrations p vs, ∃ name, r.Fresh p name
  /-- The name of a server that was registered is not picked again. -/
  apart : (s.registrations p vs).Pairwise fun r later => r.Succeeds p → r.name ≠ later.name
  /-- All names differ, unless the file could not be written. -/
  distinct : (p.persist = false ∨ ∀ v ∈ vs, v.writes = true) →
    ((s.registrations p vs).map Registration.name).Nodup

section

variable {p : DiscoveryParams} {s : Engine} {v : Sighting} {vs : List Sighting}

/-- A free name is accepted, and the file decides. -/
theorem addTo_of_free {store : Store} {persist writes : Bool} {cfg : ServerConfig}
    (free : store.registry.find? cfg.name = none) :
    (∀ taken, store.addTo persist writes cfg ≠ .error (.serverAlreadyExists taken)) ∧
      ((writes || !persist) = true → ∃ store', store.addTo persist writes cfg = .ok store') := by
  have open_ := Registry.find?_eq_none_iff.mp free
  cases persist with
  | true => cases writes <;> simp [Store.addTo, Store.add, Store.commit, open_]
  | false => simp [Store.addTo, Registry.addEphemeral, open_, Except.map]

theorem fresh_of_mem {r : Registration} (member : r ∈ s.registrations p vs) : ∃ name, r.Fresh p name := by
  induction vs generalizing s with
  | nil => cases member
  | cons v vs ih =>
    rw [Engine.registrations] at member
    obtain rfl | later := List.mem_cons.mp member
    · obtain ⟨name, picked⟩ := Option.isSome_iff_exists.mp (pickName_isSome p s.store.registry v.fingerprint)
      obtain ⟨free, -⟩ := pickName_spec picked
      refine ⟨name, picked, Registry.half_eq_none_of_find? free .file, Registry.half_eq_none_of_find? free .ephemeral,
        fun writes taken => ?_⟩
      exact (addTo_of_free free).1 taken
    · exact ih later

theorem isSome_find?_iff {r : Registry} {name : String} :
    (r.find? name).isSome = true ↔ ∃ half, ((r.half half).get? name).isSome = true := by
  rw [Registry.find?, Option.isSome_or, Bool.or_eq_true]
  constructor
  · rintro (inMemory | inFile)
    · exact ⟨.ephemeral, inMemory⟩
    · exact ⟨.file, inFile⟩
  · rintro ⟨half, there⟩
    cases half with
    | ephemeral => exact .inl there
    | file => exact .inr there

/-- A name that is taken stays taken. -/
theorem isSome_find?_afterRegister {name : String} (taken : (s.store.registry.find? name).isSome = true) :
    ((s.afterRegister p v).store.registry.find? name).isSome = true := by
  unfold Engine.afterRegister
  split
  · rename_i store rest done
    obtain ⟨picked, reachable⟩ := rest
    obtain ⟨-, added⟩ := Engine.register_ok done
    obtain ⟨-, entries⟩ := Store.addTo_spec added
    obtain ⟨half, there⟩ := isSome_find?_iff.mp taken
    refine isSome_find?_iff.mpr ⟨half, ?_⟩
    rw [entries]
    split
    · rfl
    · exact there
  · exact taken

/-- The name of a registered server is taken. -/
theorem isSome_find?_of_registered {store : Store} {name : String} {reachable : Bool}
    (done : s.registerSighting p v = some (store, name, reachable)) :
    pickName p s.store.registry v.fingerprint = some name ∧
      ((s.afterRegister p v).store.registry.find? name).isSome = true := by
  obtain ⟨picked, added⟩ := Engine.register_ok done
  obtain ⟨-, entries⟩ := Store.addTo_spec added
  refine ⟨picked, ?_⟩
  rw [Engine.afterRegister, done]
  refine isSome_find?_iff.mpr ⟨.of p.persist, ?_⟩
  rw [entries, if_pos ⟨rfl, rfl⟩]
  rfl

/-- No later call picks a name that is taken. -/
theorem ne_name_of_taken {name : String} (taken : (s.store.registry.find? name).isSome = true) {later : Registration}
    (member : later ∈ s.registrations p vs) : later.name ≠ some name := by
  induction vs generalizing s with
  | nil => cases member
  | cons v vs ih =>
    rw [Engine.registrations] at member
    obtain rfl | member := List.mem_cons.mp member
    · intro picked
      rw [(pickName_spec picked).1] at taken
      cases taken
    · exact ih (isSome_find?_afterRegister taken) member

theorem pairwise_registrations (s : Engine) (vs : List Sighting) :
    (s.registrations p vs).Pairwise fun r later => r.Succeeds p → r.name ≠ later.name := by
  induction vs generalizing s with
  | nil => exact .nil
  | cons v vs ih =>
    rw [Engine.registrations]
    refine .cons (fun later member succeeds same => ?_) (ih _)
    obtain ⟨⟨store, name, reachable⟩, done⟩ := Option.isSome_iff_exists.mp succeeds
    obtain ⟨picked, taken⟩ := isSome_find?_of_registered done
    exact ne_name_of_taken taken member (same.symm.trans picked)

/-- Nothing but the file can stop a registration. -/
theorem succeeds_of_mem (written : p.persist = false ∨ ∀ v ∈ vs, v.writes = true) {r : Registration}
    (member : r ∈ s.registrations p vs) : r.Succeeds p := by
  induction vs generalizing s with
  | nil => cases member
  | cons v vs ih =>
    rw [Engine.registrations] at member
    obtain rfl | later := List.mem_cons.mp member
    · obtain ⟨name, picked⟩ := Option.isSome_iff_exists.mp (pickName_isSome p s.store.registry v.fingerprint)
      have registers : (v.writes || !p.persist) = true := by
        obtain inMemory | inFile := written
        · simp [inMemory]
        · simp [inFile v List.mem_cons_self]
      have free := (pickName_spec picked).1
      obtain ⟨store, added⟩ : ∃ store, s.store.addTo p.persist true
          (Engine.registration p v.fingerprint v.addr v.via v.username name).1 = .ok store := (addTo_of_free free).2 rfl
      rw [Registration.Succeeds, Engine.registerSighting, Engine.register, picked, registers]
      simp [added, Except.toOption]
    · exact ih (written.imp_right fun all v inside => all v (List.mem_cons_of_mem _ inside)) later

end

/-- **The names of a scan are fresh**, for every registry, prefix and sequence of
fingerprints. -/
theorem freshNames (p : DiscoveryParams) (s : Engine) (vs : List Sighting) : FreshNames p s vs where
  fresh _ := fresh_of_mem
  apart := pairwise_registrations s vs
  distinct written := by
    refine List.pairwise_map.mpr ((pairwise_registrations s vs).imp_of_mem fun {r later} member _ apart => ?_)
    exact apart (succeeds_of_mem written member)

end McpSsh
