import McpSsh.JumpRuns

/-!
# Names of the registry

Tools list the registry and then act by name. A registry is coherent when that
reaches the entry that was listed. Adding and removing servers keeps it so; a reload
takes the file as it is, with any table key for any name.
-/

set_option autoImplicit false

namespace McpSsh

open Base

namespace Registry

/-- Listing and looking up agree. -/
structure Coherent (r : Registry) : Prop where
  unique : (r.listAll.map ServerConfig.name).Nodup
  resolves : ∀ cfg ∈ r.listAll, r.get cfg.name = .ok cfg
  listed : ∀ name cfg, r.get name = .ok cfg → name ∈ r.listAll.map ServerConfig.name

/-- The file's servers are stored under their own names, which are not in memory. -/
structure Apart (r : Registry) : Prop where
  keyed : ∀ key cfg, r.config.servers.get? key = some cfg → cfg.name = key
  apart : ∀ key ∈ r.config.servers.keys, key ∉ r.ephemeral.keys

/-- The servers in memory are stored under their own names. -/
def Named (r : Registry) : Prop := ∀ entry cfg, r.ephemeral.get? entry = some cfg → cfg.name = entry

/-- The names of entries that are stored under their own names are the keys. -/
theorem names_of_keyed {servers : Dict String ServerConfig}
    (keyed : ∀ key cfg, servers.get? key = some cfg → cfg.name = key) :
    servers.values.map ServerConfig.name = servers.keys := by
  rw [Dict.values, Dict.keys, List.map_map]
  apply List.map_congr_left
  intro entry member
  exact keyed entry.1 entry.2 (Dict.get?_of_mem member)

theorem mem_listAll_iff {r : Registry} {cfg : ServerConfig} : cfg ∈ r.listAll ↔
    (∃ key, r.config.servers.get? key = some cfg) ∨ ∃ key, r.ephemeral.get? key = some cfg := by
  simp [listAll, Dict.values, Dict.get?_eq_some_iff]

theorem Apart.coherent {r : Registry} (named : r.Named) (names : r.Apart) : r.Coherent := by
  have all : r.listAll.map ServerConfig.name = r.names := by
    rw [listAll, List.map_append, names_of_keyed names.keyed, names_of_keyed named]
    rfl
  constructor
  · rw [all]
    apply List.Nodup.append r.config.servers.nodup r.ephemeral.nodup
    exact names.apart
  · intro cfg member
    rw [get_ok_iff, find?]
    rcases mem_listAll_iff.mp member with ⟨key, inFile⟩ | ⟨key, inMemory⟩
    · have own := names.keyed key cfg inFile
      have free := names.apart key (Dict.mem_keys_of_get? inFile)
      rw [own, inFile, Dict.get?_eq_none_iff.mpr free]
      rfl
    · rw [named key cfg inMemory, inMemory]
      rfl
  · intro name cfg found
    rw [all, mem_names_iff, get_ok_iff.mp found]
    rfl

/-- Two places of a list whose names differ hold different servers. -/
theorem Coherent.apart {r : Registry} (named : r.Named) (coherent : r.Coherent) : r.Apart := by
  have unique := coherent.unique
  rw [listAll, List.map_append, names_of_keyed named] at unique
  obtain ⟨inFile, -, disjoint⟩ := List.nodup_append.mp unique
  have keyed : ∀ key cfg, r.config.servers.get? key = some cfg → cfg.name = key := by
    intro key cfg found
    have value : cfg ∈ r.config.servers.values := List.mem_map.mpr ⟨_, Dict.get?_eq_some_iff.mp found, rfl⟩
    have listed : cfg.name ∈ r.config.servers.values.map ServerConfig.name := List.mem_map_of_mem value
    have resolved := get_ok_iff.mp (coherent.resolves cfg (mem_listAll_iff.mpr (.inl ⟨key, found⟩)))
    -- the name is not in memory, so the file has the server under its name as well
    have absent : cfg.name ∉ r.ephemeral.keys := fun present => disjoint _ listed _ present rfl
    rw [find?, Dict.get?_eq_none_iff.mpr absent, Option.none_or] at resolved
    have pairwise : (r.config.servers.items.map fun e => e.2.name).Nodup := by
      simpa [Dict.values, List.map_map, Function.comp_def] using inFile
    have same := List.inj_on_of_nodup_map pairwise (Dict.get?_eq_some_iff.mp found) (Dict.get?_eq_some_iff.mp resolved) rfl
    exact (congrArg Prod.fst same).symm
  refine ⟨keyed, fun key present inMemory => ?_⟩
  rw [names_of_keyed keyed] at disjoint
  exact disjoint key present key inMemory rfl

/-- **A registry is coherent exactly when its file has every server under its own
name and shares no name with memory.** -/
theorem coherent_iff {r : Registry} (named : r.Named) : r.Coherent ↔ r.Apart :=
  ⟨fun coherent => coherent.apart named, fun names => names.coherent named⟩

end Registry

namespace Store

/-- A reload takes no server under another's name, and none whose name is in memory. -/
def LoadsApart (rt : Runtime) (s : Store) (op : RegistryOp) : Prop :=
  op = .reload → ∀ cfg, loadConfig rt s.file = .ok cfg → (Registry.mk cfg s.registry.ephemeral).Apart

/-- What the operations keep as long as reloads do. -/
structure Orderly (s : Store) : Prop where
  named : s.registry.Named
  names : s.registry.Apart

theorem Orderly.add {s : Store} (orderly : s.Orderly) {config : ServerConfig}
    (free : s.registry.taken config.name = false) :
    (Registry.mk (s.withServer config) s.registry.ephemeral).Apart := by
  have new := Registry.half_eq_none_of_find? (Registry.find?_eq_none_iff.mpr free) .ephemeral
  constructor
  · intro key cfg found
    simp only [withServer, Dict.get?_insert] at found
    split at found
    · rename_i here
      cases found
      exact here.symm
    · exact orderly.names.keyed key cfg found
  · intro key present
    rcases Dict.mem_keys_insert.mp present with rfl | old
    · exact Dict.get?_eq_none_iff.mp new
    · exact orderly.names.apart key old

theorem Orderly.remove {s : Store} (orderly : s.Orderly) (name : String) :
    (Registry.mk (s.withoutServer name) s.registry.ephemeral).Apart := by
  have older : ∀ key cfg, (s.withoutServer name).servers.get? key = some cfg →
      s.registry.config.servers.get? key = some cfg := by
    intro key cfg found
    simp only [withoutServer, Dict.get?_erase] at found
    split at found
    · cases found
    · exact found
  constructor
  · exact fun key cfg found => orderly.names.keyed key cfg (older key cfg found)
  · intro key present
    obtain ⟨cfg, found⟩ := Dict.mem_keys_iff.mp present
    exact orderly.names.apart key (Dict.mem_keys_of_get? (older key cfg found))

theorem Orderly.addEphemeral {s : Store} (orderly : s.Orderly) {config : ServerConfig}
    (free : s.registry.taken config.name = false) :
    ({ s.registry with ephemeral := s.registry.ephemeral.insert config.name config } : Registry).Named ∧
      ({ s.registry with ephemeral := s.registry.ephemeral.insert config.name config } : Registry).Apart := by
  have new := Registry.half_eq_none_of_find? (Registry.find?_eq_none_iff.mpr free) .file
  refine ⟨fun entry cfg found => ?_, orderly.names.keyed, fun key present inMemory => ?_⟩
  · rw [Dict.get?_insert] at found
    split at found
    · rename_i here
      cases found
      exact here.symm
    · exact orderly.named entry cfg found
  · rcases Dict.mem_keys_insert.mp inMemory with rfl | old
    · exact Dict.get?_eq_none_iff.mp new present
    · exact orderly.names.apart key present old

theorem Orderly.removeEphemeral {s : Store} (orderly : s.Orderly) (name : String) :
    ({ s.registry with ephemeral := s.registry.ephemeral.erase name } : Registry).Named ∧
      ({ s.registry with ephemeral := s.registry.ephemeral.erase name } : Registry).Apart := by
  have older : ∀ entry cfg, (s.registry.ephemeral.erase name).get? entry = some cfg →
      s.registry.ephemeral.get? entry = some cfg := by
    intro entry cfg found
    rw [Dict.get?_erase] at found
    split at found
    · cases found
    · exact found
  refine ⟨fun entry cfg found => orderly.named entry cfg (older entry cfg found), orderly.names.keyed, ?_⟩
  intro key present inMemory
  obtain ⟨cfg, found⟩ := Dict.mem_keys_iff.mp inMemory
  exact orderly.names.apart key present (Dict.mem_keys_of_get? (older key cfg found))

/-- One operation keeps the registry orderly. -/
theorem Orderly.after {rt : Runtime} {s : Store} {op : RegistryOp} (orderly : s.Orderly) (loads : s.LoadsApart rt op) :
    (s.after rt op).Orderly := by
  rcases after_cases rt s op with same | ⟨config, writes, rfl, added⟩ | ⟨name, writes, rfl, removed⟩ |
    ⟨config, rfl, added⟩ | ⟨name, rfl, removed⟩ | ⟨rfl, reloaded⟩
  · exact ⟨same ▸ orderly.named, same ▸ orderly.names⟩
  · obtain ⟨free, -, result⟩ := add_ok_iff.mp added
    rw [result]
    exact ⟨orderly.named, orderly.add free⟩
  · obtain ⟨-, -, result⟩ := remove_ok_iff.mp removed
    rw [result]
    exact ⟨orderly.named, orderly.remove name⟩
  · obtain ⟨free, result⟩ := Registry.addEphemeral_ok_iff.mp added
    obtain ⟨named, names⟩ := orderly.addEphemeral free
    exact ⟨result ▸ named, result ▸ names⟩
  · obtain ⟨-, result⟩ := Registry.removeEphemeral_ok_iff.mp removed
    obtain ⟨named, names⟩ := orderly.removeEphemeral name
    exact ⟨result ▸ named, result ▸ names⟩
  · obtain ⟨cfg, loaded, result⟩ := reload_ok_iff.mp reloaded
    rw [result]
    exact ⟨orderly.named, loads rfl cfg loaded⟩

/-- **Along every run** that starts from a file with every server under its own name
and whose reloads bring no server under another's name or one that is in memory, the
registry is coherent. -/
theorem coherent_run (rt : Runtime) (file : FileContent) (start : Store) (opened : Store.opened rt file = .ok start)
    (keyed : ∀ key cfg, start.registry.config.servers.get? key = some cfg → cfg.name = key)
    (ops : List RegistryOp) (s : Store) (run : Run (guard (system rt) (LoadsApart rt)) start ops s) :
    s.registry.Coherent := by
  have orderly : start.Orderly := by
    obtain ⟨cfg, -, rfl⟩ := map_eq_ok_iff.mp opened
    refine ⟨fun entry other found => ?_, keyed, fun key _ inMemory => ?_⟩
    · cases found
    · cases inMemory
  have keep : ∀ (s : Store) (op : RegistryOp) (t : Store), s.Orderly →
      guard (system rt) (LoadsApart rt) s op t → t.Orderly := by
    rintro s op _ orderly ⟨rfl, loads⟩
    exact orderly.after loads
  have final : s.Orderly := run.preserves keep orderly
  exact (Registry.coherent_iff final.named).mpr final.names

/-! ## Two runs -/

def devServer : ServerConfig := { name := "dev", host := "10.0.0.1", user := "root", authType := .agent }

/-- A file with the one server `dev`. -/
def devFile : FileContent :=
  .text "[servers.dev]\nname = \"dev\"\nhost = \"10.0.0.1\"\nuser = \"root\"\nauth_type = \"agent\"\n"

/-- A server is edited into the file and loaded. -/
theorem coherent_run_edited :
    ((Store.blank.after .inert (.edit devFile)).after .inert .reload).registry.Coherent := by
  refine coherent_run .inert (.text "") .blank Store.opened_blank (fun key cfg found => ?_) [.edit devFile, .reload] _
    (.step ⟨rfl, ?_⟩ (.step ⟨rfl, ?_⟩ (.refl _)))
  · cases found
  · intro other
    cases other
  · intro _ cfg loaded
    have servers : cfg.servers.items = [("dev", devServer)] := by
      have result : (loadConfig .inert devFile).map (fun cfg => cfg.servers.items) = .ok [("dev", devServer)] := by
        decide +kernel
      have same := map_eq_ok_iff.mp result
      obtain ⟨other, loaded', items⟩ := same
      cases loaded.symm.trans loaded'
      exact items.symm
    constructor
    · intro key other found
      have member := Dict.get?_eq_some_iff.mp found
      rw [servers, List.mem_singleton] at member
      cases member
      rfl
    · intro key _ inMemory
      cases inMemory

/-- The same name is registered in memory before: both are listed. -/
theorem reload_repeats_name : ¬ ∀ (rt : Runtime) (file : FileContent) (start : Store),
    Store.opened rt file = .ok start → ∀ (ops : List RegistryOp) (s : Store), Run (system rt) start ops s →
      s.registry.Coherent := by
  intro coherent
  have run : Run (system .inert) .blank [.addEphemeral devServer, .edit devFile, .reload] _ :=
    .step rfl (.step rfl (.step rfl (.refl _)))
  have unique := (coherent .inert (.text "") .blank Store.opened_blank _ _ run).unique
  have names : (((Store.blank.after .inert (.addEphemeral devServer)).after .inert (.edit devFile)).after .inert
      .reload).registry.listAll.map ServerConfig.name = ["dev", "dev"] := by decide +kernel
  rw [names] at unique
  exact absurd unique (by decide)

end Store

end McpSsh
