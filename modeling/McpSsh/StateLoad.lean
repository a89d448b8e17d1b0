import McpSsh.StateRoundTrip

/-!
# Loading any state file

`StateStore.load` keeps the records that validate whatever the others look like. A file of
a newer version is refused, and a version that is no integer empties the whole state.
-/

set_option autoImplicit false

namespace McpSsh

open Base Json State

namespace StateStore

variable {φ : Type}

/-! ## What a file says -/

/-- The object that the file holds, if it holds one. -/
def document : Option FileContent → Option Fields
  | some (.text s) =>
    match loads s with
    | some (.obj t) => some t
    | _ => none
  | _ => none

/-- The file is an object of a version that is an integer, and too large. -/
def Newer (file : Option FileContent) : Prop :=
  ∃ t version, document file = some t ∧ versionOf t = some version ∧ schemaVersion < version

/-- The value under an id in one of the two maps, if it is one. -/
def entryOf (t : Fields) (key : String) (id : PyString) : Option Value :=
  match field t key with
  | some (.obj entries) => (entries.find? fun e => e.1 = id).map Prod.snd
  | _ => none

/-- Exactly the entries that validate as records, with their status unknown, and the
topology if it validates. -/
structure LoadedFrom (c : Scalars φ) (t : Fields) (loaded : StateStore φ) : Prop where
  processes : ∀ id, loaded.processes.get? id =
    ((entryOf t "processes" id).bind (validateProcess c)).map fun r => { r with status := .unknown }
  sessions : ∀ id, loaded.sessions.get? id =
    ((entryOf t "sessions" id).bind (validateSession c)).map fun r => { r with status := .unknown }
  topology : loaded.topology = (field t "topology").bind (validateTopology c)

/-- A file whose bytes are decoded within the limits of the interpreter, and whose maps
are objects where they are read. -/
structure Tractable (exceeds : String → Bool) (file : Option FileContent) : Prop where
  decodes : file ≠ some .undecodable
  within : ∀ s, file = some (.text s) → exceeds s = false
  maps : ∀ t version, document file = some t → versionOf t = some version → version ≤ schemaVersion →
    ∀ key ∈ ["processes", "sessions"], (itemsOf t key).isSome = true

/-! ## What is loaded -/

/-- One of the maps, as its entries are collected. -/
theorem get?_collect_items {α : Type} {t : Fields} {key : String} {entries : Fields}
    (items : itemsOf t key = some entries) (distinct : ∀ v, field t key = some v → Distinct v)
    (validate : Value → Option α) (update : α → α) (id : PyString) :
    (collect validate update entries).get? id = ((entryOf t key id).bind validate).map update := by
  unfold itemsOf at items
  unfold entryOf
  cases found : field t key with
  | none =>
    rw [found] at items
    obtain rfl : [] = entries := Option.some.inj items
    rfl
  | some v =>
    rw [found, Option.getD_some] at items
    cases v with
    | obj fields =>
      obtain rfl := Option.some.inj items
      have keys : (fields.map Prod.fst).Nodup := by
        cases distinct _ found with
        | obj keys _ => exact keys
      rw [get?_collect keys]
      dsimp only
      cases fields.find? fun e => e.1 = id <;> rfl
    | _ => cases items

theorem distinct_field {file : Option FileContent} {t : Fields} (held : document file = some t) (key : String)
    {v : Value} (found : field t key = some v) : Distinct v := by
  unfold document at held
  split at held
  · split at held
    · rename_i s t' read
      obtain rfl := Option.some.inj held
      obtain ⟨f, there, rfl⟩ := Option.map_eq_some_iff.mp found
      cases distinct_loads read with
      | obj _ values => exact values f (List.mem_of_find?_eq_some there)
    · cases held
  · cases held

/-- **What `load` does** with a tractable file. -/
theorem load_cases (c : Scalars φ) {exceeds : String → Bool} {file : Option FileContent}
    (tractable : Tractable exceeds file) :
    (document file = none ∧ load c exceeds file = .ok empty) ∨
    (∃ t, document file = some t ∧ versionOf t = none ∧ load c exceeds file = .ok empty) ∨
    (∃ t version, document file = some t ∧ versionOf t = some version ∧ schemaVersion < version ∧
      load c exceeds file = .error (.newer version)) ∨
    ∃ t version loaded, document file = some t ∧ versionOf t = some version ∧ version ≤ schemaVersion ∧
      load c exceeds file = .ok loaded ∧ LoadedFrom c t loaded := by
  obtain ⟨decodes, within, maps⟩ := tractable
  match file with
  | none => exact .inl ⟨rfl, rfl⟩
  | some .unreadable => exact .inl ⟨rfl, rfl⟩
  | some .undecodable => exact absurd rfl decodes
  | some (.text s) =>
    have distinct := @distinct_field (some (.text s))
    have limits : exceeds s = false := within s rfl
    simp only [load, document, limits, Bool.false_eq_true, if_false] at maps distinct ⊢
    cases read : loads s with
    | none => exact .inl ⟨rfl, rfl⟩
    | some v =>
      rw [read] at maps distinct
      cases v with
      | obj t =>
        dsimp only at maps distinct ⊢
        cases given : versionOf t with
        | none => exact .inr (.inl ⟨t, rfl, given, rfl⟩)
        | some version =>
          dsimp only
          by_cases newer : schemaVersion < version
          · exact .inr (.inr (.inl ⟨t, version, rfl, given, newer, if_pos newer⟩))
          · have objects := maps t version rfl given (by omega)
            obtain ⟨processes, first⟩ := Option.isSome_iff_exists.mp (objects "processes" (by simp))
            obtain ⟨sessions, second⟩ := Option.isSome_iff_exists.mp (objects "sessions" (by simp))
            refine .inr (.inr (.inr ⟨t, version, ⟨collect (validateProcess c) unknownProcess processes,
              collect (validateSession c) unknownSession sessions, (field t "topology").bind (validateTopology c)⟩,
              rfl, given, by omega, ?_, ?_⟩))
            · rw [if_neg newer, first, second]
            · exact ⟨get?_collect_items first (fun _ => distinct rfl "processes") _ _,
                get?_collect_items second (fun _ => distinct rfl "sessions") _ _, rfl⟩
      | _ => exact .inl ⟨rfl, rfl⟩

/-- What is loaded from a file that is not refused. -/
structure Salvaged (c : Scalars φ) (file : Option FileContent) (loaded : StateStore φ) : Prop where
  noObject : document file = none → loaded = empty
  noVersion : ∀ t, document file = some t → versionOf t = none → loaded = empty
  entries : ∀ t version, document file = some t → versionOf t = some version → LoadedFrom c t loaded

/-- **State loading.** `load` raises only `McpSshError`, and exactly for an object of a newer
integer version. A version that is no integer gives the empty state, and every other object
exactly its entries that validate. -/
theorem load_spec (c : Scalars φ) (exceeds : String → Bool) (file : Option FileContent)
    (tractable : Tractable exceeds file) :
    (Newer file → ∃ version, load c exceeds file = .error (.newer version)) ∧
      (¬ Newer file → ∃ loaded, load c exceeds file = .ok loaded ∧ Salvaged c file loaded) := by
  obtain ⟨absent, result⟩ | ⟨t, held, given, result⟩ | ⟨t, version, held, given, newer, result⟩ |
    ⟨t, version, loaded, held, given, older, result, exactly⟩ := load_cases c tractable
  · have other : ∀ t, document file ≠ some t := by simp [absent]
    refine ⟨?_, fun _ => ⟨empty, result, fun _ => rfl, fun _ _ _ => rfl, fun t _ held => absurd held (other t)⟩⟩
    rintro ⟨t, version, held, -⟩
    exact absurd held (other t)
  · have same : ∀ t', document file = some t' → versionOf t' ≠ none → False := by
      intro t' held' known
      obtain rfl := Option.some.inj (held.symm.trans held')
      exact known given
    refine ⟨?_, fun _ => ⟨empty, result, fun _ => rfl, fun _ _ _ => rfl, fun t' version held' known =>
      (same t' held' (by simp [known])).elim⟩⟩
    rintro ⟨t', version, held', known, -⟩
    exact (same t' held' (by simp [known])).elim
  · exact ⟨fun _ => ⟨version, result⟩, fun older => absurd ⟨t, version, held, given, newer⟩ older⟩
  · refine ⟨?_, fun _ => ⟨loaded, result, fun absent => ?_, fun t' held' unknown => ?_, fun t' _ held' _ => ?_⟩⟩
    · rintro ⟨t', version', held', given', newer⟩
      obtain rfl := Option.some.inj (held.symm.trans held')
      obtain rfl := Option.some.inj (given.symm.trans given')
      omega
    · rw [held] at absent
      cases absent
    · obtain rfl := Option.some.inj (held.symm.trans held')
      rw [given] at unknown
      cases unknown
    · obtain rfl := Option.some.inj (held.symm.trans held')
      exact exactly

/-! ## A file whose version is a text -/

/-- `load` raises only for a newer version, and else keeps exactly what validates. -/
def Total (c : Scalars φ) (exceeds : String → Bool) (file : Option FileContent) : Prop :=
  (∀ e, load c exceeds file = .error e → (∃ version, e = .newer version) ∧ Newer file) ∧
    (¬ Newer file → ∃ loaded, load c exceeds file = .ok loaded ∧ LoadedFrom c ((document file).getD []) loaded)

/-- The fields of a file with one process, and a record that is none. -/
def oneProcess (version : Value) : Fields :=
  [(ofString "schema_version", version),
    (ofString "processes", object [("p1", dumpProcess epochScalars sampleProcess), ("p2", text "gone")])]

theorem loads_oneProcess {version : Value} (dumpable : Dumpable version) :
    loads (dumps (.obj (oneProcess version))) = some (.obj (oneProcess version)) := by
  have processes : Dumpable (object [("p1", dumpProcess epochScalars sampleProcess), ("p2", text "gone")]) :=
    dumpable_object (by simp) (List.forall_mem_cons.mpr ⟨dumpable_dumpProcess sampleProcess,
      List.forall_mem_singleton.mpr (.str "gone")⟩)
  have fields : Dumpable (object [("schema_version", version),
      ("processes", object [("p1", dumpProcess epochScalars sampleProcess), ("p2", text "gone")])]) :=
    dumpable_object (by simp) (List.forall_mem_cons.mpr ⟨dumpable, List.forall_mem_singleton.mpr processes⟩)
  exact loads_dumps fields

theorem document_oneProcess {version : Value} (dumpable : Dumpable version) :
    document (some (.text (dumps (.obj (oneProcess version))))) = some (oneProcess version) := by
  rw [document, loads_oneProcess dumpable]

/-- The process of `oneProcess` is a record. -/
theorem entryOf_oneProcess (version : Value) :
    (entryOf (oneProcess version) "processes" (ofString "p1")).bind (validateProcess epochScalars) = some sampleProcess := by
  have entry : entryOf (oneProcess version) "processes" (ofString "p1") = some (dumpProcess epochScalars sampleProcess) := by
    have different : ofString "schema_version" ≠ ofString "processes" := fun same => by simp [ofString_inj] at same
    simp [entryOf, oneProcess, field, object, different]
  rw [entry, Option.bind_some]
  exact validateProcess_dump ⟨keepsTime_epoch, by rintro _ ⟨⟩⟩

/-- The process is loaded beside a version that is an integer, and the other record left out. -/
theorem load_spec_oneProcess : ∃ loaded,
    load epochScalars (fun _ => false) (some (.text (dumps (.obj (oneProcess (.int 2)))))) = .ok loaded ∧
      Salvaged epochScalars (some (.text (dumps (.obj (oneProcess (.int 2)))))) loaded := by
  have held := document_oneProcess (.int 2)
  refine (load_spec epochScalars (fun _ => false) _ ⟨by simp, fun _ _ => rfl, ?_⟩).2 ?_
  · rintro t version held' - - key known
    obtain rfl := Option.some.inj (held.symm.trans held')
    obtain rfl | rfl := by simpa using known
    · rfl
    · rfl
  · rintro ⟨t, version, held', given, newer⟩
    obtain rfl := Option.some.inj (held.symm.trans held')
    obtain rfl : 2 = version := Option.some.inj given
    exact absurd newer (by decide)

/-- **A version that is a text** loses the process. -/
theorem textual_version_empties :
    ¬ Total epochScalars (fun _ => false) (some (.text (dumps (.obj (oneProcess (text "two")))))) := by
  have read := @loads_oneProcess (text "two") (.str "two")
  have held := @document_oneProcess (text "two") (.str "two")
  rintro ⟨-, total⟩
  obtain ⟨loaded, result, exactly⟩ := total (by
    rintro ⟨t, version, held', given, -⟩
    obtain rfl := Option.some.inj (held.symm.trans held')
    cases given)
  have nothing : loaded = empty := by
    rw [load, if_neg (by simp), read] at result
    exact (Except.ok.inj result).symm
  have found := exactly.processes (ofString "p1")
  rw [nothing, held, Option.getD_some, entryOf_oneProcess] at found
  cases found

end StateStore

end McpSsh
