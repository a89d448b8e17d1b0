import McpSsh.Teardown
import McpSsh.DiscoveryRuns

/-!
# Tearing down one discovery session

`teardown_discovery` finds the entries of a session by a tag in their notes. As for
jump chains, a ghost record of which session registered each entry tells when these
are the entries of that session.
-/

set_option autoImplicit false

namespace McpSsh

open Base

/-- `_SESSION_TAG` followed by the session. -/
def sessionTag (session : String) : String := "disc-session=" ++ session

/-- `cfg.note is not None and tag in cfg.note`. -/
def carriesTag (session : String) (cfg : ServerConfig) : Bool := cfg.note.any (contains (sessionTag session))

/-- The names `teardown_discovery` removes. -/
def sessionTargets (r : Registry) (session : String) : List String :=
  (r.listAll.filter (carriesTag session)).map ServerConfig.name

/-- The answer of `teardown_discovery`. -/
inductive SessionOutcome where
  | sessionNotFound (session : String)
  | tornDown (session : String) (removed : List String)
deriving DecidableEq

/-- `teardown_discovery`. -/
def teardownDiscovery (writes : String → Bool) (s : Store) (session : String) : Store × SessionOutcome :=
  let targets := sessionTargets s.registry session
  let (s', removed) := removeTargets writes s [] targets
  (s', if targets = [] then .sessionNotFound session else .tornDown session removed)

/-- `_register`, which reads nothing of the engine but its registry. -/
def registerHost (p : DiscoveryParams) (s : Store) (fingerprint addr : String) (via : FrontierItem) (username : String)
    (registers : Bool) : Option (Store × String × Bool) :=
  (Engine.init s 0 []).register p fingerprint addr via username registers

/-! ## Runs, with the record of who registered what -/

/-- The registry and the discovery session that registered an entry. -/
structure ScanState where
  store : Store
  owner : Half → String → Option String

/-- What happens to the registry. -/
inductive ScanEvent where
  /-- Any operation outside jump chains and discovery. -/
  | registry (op : RegistryOp)
  /-- The file is loaded again; `authors` tells who registered the entries in it. -/
  | reload (authors : String → Option String)
  | setupJump (name : String) (chain : List String) (persist : Bool) (note : Option String) (writes : Writes)
  | teardownJump (name : String) (writes : String → Bool)
  | register (p : DiscoveryParams) (fingerprint addr : String) (via : FrontierItem) (username : String)
      (registers : Bool)
  | teardownDiscovery (session : String) (writes : String → Bool)

/-- The entry has the name and the kind of note that `_register` gives it. -/
def signedBy (session entry : String) (config : ServerConfig) : Bool :=
  config.name = entry && config.note.any fun note => (sessionTag session ++ " fp=").toList.isPrefixOf note.toList

namespace ScanState

/-- The next state: an entry that stays as it is keeps its session, a new one is its
creator's if it looks like it. -/
def moved (s : ScanState) (store : Store) (creator : String → Option String) : ScanState where
  store := store
  owner := fun half entry =>
    if (store.registry.half half).get? entry = (s.store.registry.half half).get? entry then s.owner half entry
    else (store.registry.half half).get? entry |>.bind fun config =>
      (creator entry).filter fun session => signedBy session entry config

/-- The state after an event. -/
def after (rt : Runtime) (repr : String → String) (s : ScanState) : ScanEvent → ScanState
  | .registry op => s.moved (s.store.after rt op) fun _ => none
  | .reload authors => s.moved (s.store.after rt .reload) authors
  | .setupJump name chain persist note writes =>
    s.moved (McpSsh.setupJump repr writes s.store name chain persist note).1 fun _ => none
  | .teardownJump name writes => s.moved (McpSsh.teardownJump writes s.store name).1 fun _ => none
  | .register p fingerprint addr via username registers =>
    match registerHost p s.store fingerprint addr via username registers with
    | some (store, _) => s.moved store fun _ => some p.session
    | none => s
  | .teardownDiscovery session writes => s.moved (McpSsh.teardownDiscovery writes s.store session).1 fun _ => none

/-- An entry that a session registered is there, with its name and its note. -/
def Signed (s : ScanState) : Prop :=
  ∀ half entry session, s.owner half entry = some session →
    ∃ config, (s.store.registry.half half).get? entry = some config ∧ signedBy session entry config = true

/-- A registry just loaded; entries of its file may be a session's of an earlier process. -/
def Initial (rt : Runtime) (s : ScanState) : Prop := (∃ file, Store.opened rt file = .ok s.store) ∧ s.Signed

/-- The states some run of events reaches. -/
def Reached (rt : Runtime) (repr : String → String) : ScanState → Prop :=
  Reachable (fun s e t => s.after rt repr e = t) (Initial rt)

/-- `teardown_discovery` removes the entries that `_register` registered for the
session, and no other. -/
def TearsDownExactly (s : ScanState) (writes : String → Bool) (session : String) : Prop :=
  ∀ half entry, ((McpSsh.teardownDiscovery writes s.store session).1.registry.half half).get? entry =
    if s.owner half entry = some session then none else (s.store.registry.half half).get? entry

/-- How many servers of this name have a note with the session's tag. -/
def tagged (s : ScanState) (session entry : String) : Nat := (sessionTargets s.store.registry session).count entry

/-- In memory, every entry with the name of a tagged server is the session's. In the
file, an entry is the session's exactly when the file system lets it be removed and
a server of its name is tagged, or two of them if the name is in memory as well. -/
structure TagsOnlySession (s : ScanState) (writes : String → Bool) (session : String) : Prop where
  ephemeral : ∀ entry ∈ s.store.registry.ephemeral.keys, 0 < s.tagged session entry →
    s.owner .ephemeral entry = some session
  file : ∀ entry ∈ s.store.registry.config.servers.keys,
    (writes entry = true ∧ (if entry ∈ s.store.registry.ephemeral.keys then 1 else 0) < s.tagged session entry ↔
      s.owner .file entry = some session)

/-! ## What the events keep -/

theorem Signed.moved {s : ScanState} (signed : s.Signed) (store : Store) (creator : String → Option String) :
    (s.moved store creator).Signed := by
  intro half entry session owned
  simp only [ScanState.moved] at owned ⊢
  split at owned
  · rename_i same
    rw [same]
    exact signed half entry session owned
  · obtain ⟨config, present, author⟩ := Option.bind_eq_some_iff.mp owned
    obtain ⟨-, looks⟩ := Option.filter_eq_some_iff.mp author
    exact ⟨config, present, looks⟩

theorem Signed.after {s : ScanState} (signed : s.Signed) (rt : Runtime) (repr : String → String) (event : ScanEvent) :
    (s.after rt repr event).Signed := by
  cases event with
  | register p fingerprint addr via username registers =>
    simp only [ScanState.after]
    split
    · exact signed.moved _ _
    · exact signed
  | _ => exact signed.moved _ _

theorem Reached.signed {rt : Runtime} {repr : String → String} {s : ScanState} (reached : Reached rt repr s) :
    s.Signed :=
  reached.invariant (fun _ initial => initial.2) fun _ event _ signed step => step ▸ signed.after rt repr event

/-- The note that `_register` writes is recognised as the session's. -/
theorem signedBy_registration (p : DiscoveryParams) (fingerprint addr : String) (via : FrontierItem)
    (username name : String) :
    signedBy p.session name (Engine.registration p fingerprint addr via username name).1 = true := by
  simp [signedBy, Engine.registration, sessionTag, String.toList_append]

/-! ## What a teardown removes -/

theorem teardownDiscovery_fst (writes : String → Bool) (s : Store) (session : String) :
    (McpSsh.teardownDiscovery writes s session).1 = (removeTargets writes s [] (sessionTargets s.registry session)).1 :=
  rfl

/-- The session's own note has its tag. -/
theorem carriesTag_of_signedBy {session entry : String} {config : ServerConfig}
    (signed : signedBy session entry config = true) : carriesTag session config = true := by
  simp only [signedBy, Bool.and_eq_true, decide_eq_true_eq, Option.any_eq_true, List.isPrefixOf_iff_prefix] at signed
  obtain ⟨-, note, written, begins⟩ := signed
  rw [String.toList_append] at begins
  have tag : (sessionTag session).toList <+: note.toList := (List.prefix_append _ _).trans begins
  simp [carriesTag, written, contains, tag.isInfix]

/-- What a session registered is among its targets. -/
theorem Signed.tagged {s : ScanState} (signed : s.Signed) {half : Half} {entry session : String}
    (owned : s.owner half entry = some session) : 0 < s.tagged session entry := by
  obtain ⟨config, found, looks⟩ := signed half entry session owned
  have own : config.name = entry := by
    simp only [signedBy, Bool.and_eq_true, decide_eq_true_eq] at looks
    exact looks.1
  have listed : config ∈ s.store.registry.listAll := by
    have item := Dict.get?_eq_some_iff.mp found
    unfold Registry.listAll
    cases half with
    | file => exact List.mem_append_left _ (List.mem_map.mpr ⟨_, item, rfl⟩)
    | ephemeral => exact List.mem_append_right _ (List.mem_map.mpr ⟨_, item, rfl⟩)
  have target : entry ∈ sessionTargets s.store.registry session :=
    List.mem_map.mpr ⟨config, List.mem_filter.mpr ⟨listed, carriesTag_of_signedBy looks⟩, own⟩
  exact List.count_pos_iff.mpr target

/-- **A teardown removes exactly its session in exactly the states where the tagged
names are the session's.** -/
theorem tearsDownExactly_iff_tags (rt : Runtime) (repr : String → String) (s : ScanState) (reached : Reached rt repr s)
    (writes : String → Bool) (session : String) :
    s.TearsDownExactly writes session ↔ s.TagsOnlySession writes session := by
  have signed := reached.signed
  have inMemory : ∀ entry, (McpSsh.teardownDiscovery writes s.store session).1.registry.ephemeral.get? entry =
      if 0 < s.tagged session entry then none else s.store.registry.ephemeral.get? entry := by
    intro entry
    rw [teardownDiscovery_fst, removeTargets_ephemeral]
    simp only [tagged, List.count_pos_iff]
  have inFile := removeTargets_file writes s.store [] (sessionTargets s.store.registry session)
  constructor
  · intro exactly
    refine ⟨fun entry present marked => ?_, fun entry present => ?_⟩
    · obtain ⟨config, found⟩ := Dict.mem_keys_iff.mp present
      have result := (exactly .ephemeral entry).symm.trans (inMemory entry)
      by_contra other
      rw [if_neg other, if_pos marked] at result
      exact absurd (found.symm.trans result) (by simp)
    · obtain ⟨config, found⟩ := Dict.mem_keys_iff.mp present
      have result := (exactly .file entry).symm.trans (inFile entry)
      simp only [Registry.half, found] at result
      unfold tagged
      by_cases owned : s.owner .file entry = some session
      · rw [if_pos owned] at result
        have removed := (ite_eq_left_iff.mp result.symm)
        simp only [reduceCtorEq, imp_false, not_not] at removed
        exact ⟨fun _ => owned, fun _ => removed⟩
      · rw [if_neg owned] at result
        have kept := (ite_eq_right_iff.mp result.symm)
        simp only [reduceCtorEq, imp_false] at kept
        exact ⟨fun removed => absurd removed kept, fun mine => absurd mine owned⟩
  · rintro ⟨memory, file⟩ half entry
    cases half with
    | ephemeral =>
      refine (inMemory entry).trans ?_
      by_cases owned : s.owner .ephemeral entry = some session
      · rw [if_pos owned, if_pos (signed.tagged owned)]
      · rw [if_neg owned]
        split
        · rename_i marked
          exact (Dict.get?_eq_none_iff.mpr fun present => owned (memory entry present marked)).symm
        · rfl
    | file =>
      refine (inFile entry).trans ?_
      by_cases present : entry ∈ s.store.registry.config.servers.keys
      · have same := file entry present
        unfold tagged at same
        simp only [same, Registry.half]
      · have absent := Dict.get?_eq_none_iff.mpr present
        simp [Registry.half, absent]

/-! ## One host, found by one session -/

def sampleSession : DiscoveryParams :=
  { session := "disc-0a1b2c3d4e5f", keyPaths := ["/keys/id"], harvestKeys := false, port := 22, maxDepth := 3
    maxNodes := 10, concurrency := 4, namePrefix := "disc", persist := false, injected := []
    injectedUsers := Dict.empty, usernameFor := fun _ => "root" }

/-- A session that found one host. -/
def sampleScan : ScanState :=
  (⟨.blank, fun _ _ => none⟩ : ScanState).after .inert id
    (.register sampleSession "SHA256:abcdefgh" "10.0.0.7" ⟨localSeed, none, 0, true⟩ "root" true)

theorem sampleScan_reached : Reached .inert id sampleScan :=
  ⟨_, _, ⟨⟨_, Store.opened_blank⟩, fun _ _ _ owned => by cases owned⟩, .step rfl (.refl _)⟩

/-- The session is torn down under its own id. -/
theorem sampleScan_tornDown : sampleScan.TearsDownExactly (fun _ => true) "disc-0a1b2c3d4e5f" := by
  refine (tearsDownExactly_iff_tags .inert id _ sampleScan_reached _ _).mpr ⟨?_, ?_⟩
  · decide +kernel
  · decide +kernel

/-- The empty session, which no scan ever has, tears it down too. -/
theorem empty_session_removes_all : ¬ ∀ (rt : Runtime) (repr : String → String) (s : ScanState),
    Reached rt repr s → ∀ (writes : String → Bool) (session : String), s.TearsDownExactly writes session := by
  intro exactly
  have kept := exactly .inert id _ sampleScan_reached (fun _ => true) "" .ephemeral "disc-abcdefgh"
  have gone : ((McpSsh.teardownDiscovery (fun _ => true) sampleScan.store "").1.registry.half .ephemeral).get?
      "disc-abcdefgh" = none := by decide +kernel
  rw [gone, if_neg (by decide +kernel)] at kept
  exact absurd kept (by decide +kernel)

end ScanState

end McpSsh
