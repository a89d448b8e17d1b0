import Mathlib.Data.List.Induction
import McpSsh.Config

/-!
# Watching the configuration file

`Registry.watch` reloads the file at every change event. It keeps the configuration it
has when `load_config` raises `McpSshError`; any other exception ends it, and with it
every later reload.
-/

set_option autoImplicit false

namespace McpSsh

open Base Toml

/-! ## Events -/

/-- What a reload raises: what `load_config` raises by itself, or the exception of an
interpreter limit that `tomllib` runs into (digits of an integer, depth of nesting). -/
inductive ReloadError where
  | load (e : LoadError)
  | limit
deriving DecidableEq

/-- The watcher's task and `get_config()`. -/
structure Watcher where
  running : Bool
  config : AppConfig

section

-- `exceeds` holds of the texts on which `tomllib` runs into a limit of the interpreter
variable (rt : Runtime) (exceeds : String → Bool)

/-- `load_config` as the watcher calls it. -/
def loadFound (found : FileContent) : Except ReloadError AppConfig :=
  match found with
  | .text s => if exceeds s then .error .limit else (loadConfig rt found).mapError .load
  | _ => (loadConfig rt found).mapError .load

/-- One change event with the content that it finds. -/
def Watcher.event (w : Watcher) (found : FileContent) : Watcher :=
  if w.running then
    match loadFound rt exceeds found with
    | .ok config => { w with config }
    | .error (.load (.mcpSsh _)) => w
    | .error _ => { w with running := false }
  else w

/-- The watcher after one event for each content. -/
def Watcher.after (w : Watcher) (contents : List FileContent) : Watcher := contents.foldl (Watcher.event rt exceeds) w

/-- The configuration of the last content that is valid, or else the initial one. -/
def lastValid (initial : AppConfig) (contents : List FileContent) : AppConfig :=
  (contents.reverse.findSome? fun found => (loadFound rt exceeds found).toOption).getD initial

/-- After each event the watcher runs, and has the last valid configuration. -/
def KeepsWatching (initial : AppConfig) (contents : List FileContent) : Prop :=
  ∀ done, done <+: contents →
    let w := Watcher.after rt exceeds ⟨true, initial⟩ done
    w.running = true ∧ w.config = lastValid rt exceeds initial done

/-- A content on which only `McpSshError` is raised: its bytes are UTF-8, no limit is
reached, and once it validates every home directory in its paths is known. -/
structure Reloadable (found : FileContent) : Prop where
  decodes : found ≠ .undecodable
  within : ∀ s, found = .text s → exceeds s = false
  homes : ∀ s raw cfg, found = .text s → loads s = .ok raw → validateConfig rt raw = .ok cfg →
    (expandPathsInSettings rt cfg.settings).isSome = true ∧ (expandServers rt cfg.servers).isSome = true

end

/-! ## When the watcher survives -/

section

variable {rt : Runtime} {exceeds : String → Bool} {found : FileContent} {initial : AppConfig}
  {contents : List FileContent}

/-- `load_config` returns or raises `McpSshError` exactly on these contents. -/
theorem reloadable_iff : Reloadable rt exceeds found ↔
    (∃ cfg, loadFound rt exceeds found = .ok cfg) ∨ ∃ e, loadFound rt exceeds found = .error (.load (.mcpSsh e)) := by
  cases found with
  | unreadable => exact ⟨fun _ => .inr ⟨_, rfl⟩, fun _ => ⟨by simp, by simp, by simp⟩⟩
  | undecodable =>
    refine ⟨fun reloadable => absurd rfl reloadable.decodes, ?_⟩
    rintro (⟨_, ⟨⟩⟩ | ⟨_, ⟨⟩⟩)
  | text s =>
    have fields : Reloadable rt exceeds (.text s) ↔ exceeds s = false ∧
        ∀ raw, loads s = .ok raw → ∀ cfg, validateConfig rt raw = .ok cfg →
          (expandPathsInSettings rt cfg.settings).isSome = true ∧ (expandServers rt cfg.servers).isSome = true := by
      constructor
      · exact fun reloadable => ⟨reloadable.within s rfl, fun raw parsed cfg => reloadable.homes s raw cfg rfl parsed⟩
      · rintro ⟨within, homes⟩
        refine ⟨by simp, ?_, ?_⟩
        · rintro _ ⟨⟩
          exact within
        · rintro _ raw cfg ⟨⟩ parsed
          exact homes raw parsed cfg
    rw [fields, loadFound]
    cases exceeds s with
    | true => simp
    | false =>
      simp only [Bool.false_eq_true, if_false, true_and, loadConfig]
      cases parsed : loads s with
      | error e => simp [Except.mapError]
      | ok raw =>
        simp only [Except.ok.injEq, forall_eq']
        cases valid : validateConfig rt raw with
        | error field => simp [Except.mapError]
        | ok cfg =>
          simp only [Except.ok.injEq, forall_eq']
          cases expandPathsInSettings rt cfg.settings with
          | none => simp [Except.mapError]
          | some settings =>
            cases expandServers rt cfg.servers with
            | none => simp [Except.mapError]
            | some servers => cases circle : detectCircularJumps servers <;> simp [circle, Except.mapError]

/-- An event that raises nothing but `McpSshError` reloads what is valid. -/
theorem event_of_reloadable (reloadable : Reloadable rt exceeds found) (config : AppConfig) :
    Watcher.event rt exceeds ⟨true, config⟩ found =
      ⟨true, (loadFound rt exceeds found).toOption.getD config⟩ := by
  obtain ⟨cfg, loaded⟩ | ⟨e, failed⟩ := reloadable_iff.mp reloadable
  · rw [Watcher.event, if_pos rfl, loaded]
    rfl
  · rw [Watcher.event, if_pos rfl, failed]
    rfl

/-- Any other exception ends the watcher, and an ended one does not come back. -/
theorem reloadable_of_running {w : Watcher} (running : (w.event rt exceeds found).running = true) :
    w.running = true ∧ Reloadable rt exceeds found := by
  unfold Watcher.event at running
  split at running
  · rename_i before
    refine ⟨before, reloadable_iff.mpr ?_⟩
    split at running
    · exact .inl ⟨_, ‹_›⟩
    · exact .inr ⟨_, ‹_›⟩
    · cases running
  · rename_i ended
    exact absurd running ended

theorem lastValid_snoc : lastValid rt exceeds initial (contents ++ [found]) =
    (loadFound rt exceeds found).toOption.getD (lastValid rt exceeds initial contents) := by
  unfold lastValid
  rw [List.reverse_append, List.reverse_singleton, List.singleton_append, List.findSome?_cons]
  cases (loadFound rt exceeds found).toOption <;> rfl

theorem after_snoc (w : Watcher) : w.after rt exceeds (contents ++ [found]) =
    (w.after rt exceeds contents).event rt exceeds found := by
  simp [Watcher.after]

theorem after_of_reloadable (reloadable : ∀ found ∈ contents, Reloadable rt exceeds found) :
    Watcher.after rt exceeds ⟨true, initial⟩ contents = ⟨true, lastValid rt exceeds initial contents⟩ := by
  induction contents using List.reverseRecOn with
  | nil => rfl
  | append_singleton contents found ih =>
    rw [after_snoc, ih fun c member => reloadable c (List.mem_append_left _ member),
      event_of_reloadable (reloadable found (by simp)), lastValid_snoc]

/-- **The watcher survives a history of contents** exactly if each of them is reloadable. -/
theorem survives_iff (rt : Runtime) (exceeds : String → Bool) (initial : AppConfig) (contents : List FileContent) :
    KeepsWatching rt exceeds initial contents ↔ ∀ found ∈ contents, Reloadable rt exceeds found := by
  constructor
  · intro survives found member
    obtain ⟨done, rest, rfl⟩ := List.append_of_mem member
    have alive := (survives (done ++ [found]) ⟨rest, by simp⟩).1
    rw [after_snoc] at alive
    exact (reloadable_of_running alive).2
  · intro reloadable done before
    have all := @after_of_reloadable rt exceeds initial done fun found member => reloadable found (before.subset member)
    exact ⟨congrArg Watcher.running all, congrArg Watcher.config all⟩

/-- Bytes that are not UTF-8 end the watcher. -/
theorem undecodable_ends : ¬ ∀ (rt : Runtime) (exceeds : String → Bool) (initial : AppConfig)
    (contents : List FileContent), KeepsWatching rt exceeds initial contents := by
  intro all
  have alive := (all .inert (fun _ => false) {} [.undecodable] [.undecodable] (List.prefix_refl _)).1
  cases alive

end

end McpSsh
