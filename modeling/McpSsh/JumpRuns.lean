import McpSsh.JumpGraph
import McpSsh.Pool

/-!
# Connecting along jump chains

`get_connection` calls itself for the jump host. In an acyclic registry it never
runs out of stack that has room for the registered names; and the registry stays
acyclic along every run of safe operations.
-/

set_option autoImplicit false

namespace McpSsh

open Base Toml Relation

theorem Registry.mem_names_of_jump {r : Registry} {a b : String} (edge : r.jump a = some b) : a ∈ r.names := by
  unfold Registry.jump jumpOf at edge
  obtain ⟨cfg, found, -⟩ := Option.bind_eq_some_iff.mp edge
  exact Registry.mem_names_iff.mpr (by simp [found])

theorem connectArgs_ne_recursion {ctx : PoolContext} {hosts : HostsFile} {cfg : ServerConfig} :
    connectArgs ctx hosts cfg ≠ .error .recursion := by
  unfold connectArgs
  split
  · rename_i e _
    cases e <;> simp [HostsError.toPoolError]
  · split <;> simp

theorem handleFailure_ne_recursion {slots : Slots} {name : String} {e : PoolError} (other : e ≠ .recursion) :
    (slots.handleFailure name e).2 ≠ .recursion := by
  unfold Slots.handleFailure
  split <;> simp_all

/-- **A call that follows a chain of at most `n` jumps needs a stack for `n + 1`.** -/
theorem enter_ne_recursion {ctx : PoolContext} {r : Registry} {closed : List ConnId} {hosts : HostsFile} {n fuel : Nat}
    {name : String} (ends : EndsWithin r.jump n name) (enough : n < fuel) (slots : Slots) :
    (enter ctx r closed hosts fuel name slots).progress ≠ .raised .recursion := by
  induction fuel generalizing n name slots with
  | zero => omega
  | succ fuel ih =>
    unfold enter
    split
    · simp
    rename_i cfg looked
    split
    · simp
    split
    · rename_i e refused
      have other : e ≠ .recursion := fun same => connectArgs_ne_recursion (same ▸ refused)
      simpa using handleFailure_ne_recursion other
    split
    · simp
    rename_i jump jumps
    have edge : r.jump name = some jump := by
      unfold Registry.get at looked
      split at looked
      · rename_i server found
        cases looked
        simp [Registry.jump, jumpOf, found, jumps]
      · cases looked
    have inner : (enter ctx r closed hosts fuel jump (slots.setStatus name .connecting)).progress ≠
        .raised .recursion := by
      cases n with
      | zero => exact absurd (ends.symm.trans edge) (by simp)
      | succ n => exact ih (ends jump edge) (by omega) _
    simp only
    split
    · simp
    · rename_i e raised
      have other : e ≠ .recursion := fun same => inner (same ▸ raised)
      simpa using handleFailure_ne_recursion other
    · simp

namespace Store

/-- The steps of the registry and its file. -/
def system (rt : Runtime) : System Store RegistryOp := fun s op t => s.after rt op = t

theorem sound_opened {rt : Runtime} {file : FileContent} {s : Store} (opened : Store.opened rt file = .ok s) :
    s.registry.Sound := by
  obtain ⟨cfg, loaded, rfl⟩ := map_eq_ok_iff.mp opened
  have acyclic := loadConfig_acyclic loaded
  refine ⟨?_, acyclic⟩
  have same : ∀ name, (Registry.mk cfg Dict.empty).find? name = cfg.servers.get? name := fun _ => rfl
  exact acyclic

/-- **Along every run of safe operations on a loaded registry** the jump graph has no
cycle, `get_connection` never runs out of a stack with room for all registered names,
and every safe operation that writes the file leaves one that loads again. -/
theorem safe_run (rt : Runtime) (file : FileContent) (start : Store) (opened : Store.opened rt file = .ok start)
    (ops : List RegistryOp) (s : Store) (run : Run (guard (system rt) (Store.Safe rt)) start ops s) :
    Acyclic s.registry.jump ∧
    (∀ (ctx : PoolContext) (closed : List ConnId) (hosts : HostsFile) (slots : Slots) (name : String),
      s.registry.names.length < ctx.recursionLimit →
        (enter ctx s.registry closed hosts ctx.recursionLimit name slots).progress ≠ .raised .recursion) ∧
    ∀ op, s.Safe rt op → s.writesFile op = true → ∃ cfg, loadConfig rt (s.after rt op).file = .ok cfg := by
  have keep : ∀ (s : Store) (op : RegistryOp) (t : Store), s.registry.Sound →
      guard (system rt) (Store.Safe rt) s op t → t.registry.Sound := by
    rintro s op _ sound ⟨rfl, safe⟩
    exact safe.sound sound
  have sound : s.registry.Sound := run.preserves keep (sound_opened opened)
  refine ⟨sound.resolved, fun ctx closed hosts slots name room => ?_, fun op safe written => safe.loads sound written⟩
  exact enter_ne_recursion (sound.resolved.endsWithin (fun _ _ => Registry.mem_names_of_jump) name) room slots

/-! ## Two runs -/

def jumpServer (name jump : String) : ServerConfig :=
  { name, host := "10.0.0.1", user := "root", authType := .agent, jumpHost := some jump }

/-- Two servers of one chain, whose last jump host is not registered yet. -/
theorem safe_run_pair : Acyclic ((Store.blank.after .inert (.addEphemeral (jumpServer "a" "b"))).after .inert
    (.addEphemeral (jumpServer "b" "c"))).registry.jump := by
  refine (safe_run .inert (.text "") .blank Store.opened_blank
    [.addEphemeral (jumpServer "a" "b"), .addEphemeral (jumpServer "b" "c")] _
    (.step ⟨rfl, ?_⟩ (.step ⟨rfl, ?_⟩ (.refl _)))).1
  · rintro - jump ⟨⟩ path
    exact absurd (path.eq_of_none rfl) (by decide)
  · rintro - jump ⟨⟩ path
    have unknown : (Store.blank.after .inert (.addEphemeral (jumpServer "a" "b"))).registry.jump "c" = none := by
      decide +kernel
    exact absurd (path.eq_of_none unknown) (by decide)

/-- A second registration closes the cycle. -/
theorem registration_closes_cycle : ¬ ∀ (rt : Runtime) (file : FileContent) (start : Store),
    Store.opened rt file = .ok start → ∀ (ops : List RegistryOp) (s : Store), Run (system rt) start ops s →
      Acyclic s.registry.jump := by
  intro acyclic
  have run : Run (system .inert) .blank [.add (jumpServer "a" "b") true, .add (jumpServer "b" "a") true] _ :=
    .step rfl (.step rfl (.refl _))
  refine acyclic .inert (.text "") .blank Store.opened_blank _ _ run "a" ?_
  have there : Points ((Store.blank.after .inert (.add (jumpServer "a" "b") true)).after .inert
      (.add (jumpServer "b" "a") true)).registry.jump "a" "b" := by
    unfold Points
    decide +kernel
  have back : Points ((Store.blank.after .inert (.add (jumpServer "a" "b") true)).after .inert
      (.add (jumpServer "b" "a") true)).registry.jump "b" "a" := by
    unfold Points
    decide +kernel
  exact .tail (.single there) back

end Store

end McpSsh
