import McpSsh.Config
import McpSsh.StateRecords
import McpSsh.Json.Value

/-!
# The state store

`state.py`: records and the cached topology in memory, written to one JSON file at every
change and read back at the start. The file is what `json.dumps` writes; reading it goes
through `json.loads` and pydantic's validation, record by record. How pydantic encodes and
decodes times and floats, and how it converts values of another type, is a parameter.
-/

set_option autoImplicit false

namespace McpSsh

open Base Json

namespace State

/-- pydantic's treatment of scalars. -/
structure Scalars (φ : Type) where
  /-- The lax conversions, from a value that does not have the type. -/
  coerceInt : Value → Option Int
  coerceBool : Value → Option Bool
  coerceFloat : Value → Option φ
  readFloat : String → Option φ
  writeFloat : φ → String
  readTime : Value → Option Timestamp
  writeTime : Timestamp → String

/-! ## Fields -/

/-- `SCHEMA_VERSION`. -/
def schemaVersion : Int := 2

abbrev Fields := List (PyString × Value)

def field (t : Fields) (key : String) : Option Value := (t.find? fun f => f.1 = ofString key).map Prod.snd

section

variable {φ : Type} (c : Scalars φ)

def asStr : Value → Option String
  | .str s => (characters s).map String.ofList
  | _ => none

def asInt : Value → Option Int
  | .int n => some n
  | v => c.coerceInt v

def asBool : Value → Option Bool
  | .bool b => some b
  | v => c.coerceBool v

def asFloat : Value → Option φ
  | .float literal => c.readFloat literal
  | v => c.coerceFloat v

/-- A string enumeration, or a `Literal` of strings. -/
def asEnum {α : Type} (all : List α) (value : α → String) (v : Value) : Option α := (asStr v).bind (ofValue all value)

def orNull {α : Type} (read : Value → Option α) : Value → Option (Option α)
  | .null => some none
  | v => (read v).map some

def asList {α : Type} (read : Value → Option α) : Value → Option (List α)
  | .arr vs => vs.mapM read
  | _ => none

def asDict {α : Type} (read : Value → Option α) : Value → Option (Dict String α)
  | .obj entries => entries.foldlM (fun d e => do
      let key ← asStr (.str e.1)
      (read e.2).map (d.insert key)) Dict.empty
  | _ => none

def required {α : Type} (read : Value → Option α) (found : Option Value) : Option α := found.bind read

def withDefault {α : Type} (read : Value → Option α) (default : α) (found : Option Value) : Option α :=
  match found with
  | none => some default
  | some v => read v

/-- A field that may be missing or null. -/
def optional {α : Type} (read : Value → Option α) (found : Option Value) : Option (Option α) :=
  withDefault (orNull read) none found

/-- The `Literal` field `type`, which has its only value as its default. -/
def literal (value : String) (found : Option Value) : Option Unit :=
  withDefault (asEnum [()] fun _ => value) () found

/-! ## Records -/

/-- `ProcessRecord.model_validate`. -/
def validateProcess : Value → Option ProcessRecord
  | .obj t => do
    let id ← required asStr (field t "id")
    literal "exec" (field t "type")
    let server ← required asStr (field t "server")
    let command ← required asStr (field t "command")
    let remotePid ← required (asInt c) (field t "remote_pid")
    let logFile ← required asStr (field t "log_file")
    let exitFile ← required asStr (field t "exit_file")
    let startedAt ← required c.readTime (field t "started_at")
    let lastChecked ← optional c.readTime (field t "last_checked")
    let status ← withDefault (asEnum ProcessStatus.all ProcessStatus.value) .unknown (field t "status")
    let exitCode ← optional (asInt c) (field t "exit_code")
    return { id, server, command, remotePid, logFile, exitFile, startedAt, lastChecked, status, exitCode }
  | _ => none

/-- `SessionRecord.model_validate`. -/
def validateSession : Value → Option SessionRecord
  | .obj t => do
    let id ← required asStr (field t "id")
    literal "pty" (field t "type")
    let server ← required asStr (field t "server")
    let command ← required (orNull asStr) (field t "command")
    let useTmux ← required (asBool c) (field t "use_tmux")
    let tmuxWindow ← optional asStr (field t "tmux_window")
    let startedAt ← required c.readTime (field t "started_at")
    let lastChecked ← optional c.readTime (field t "last_checked")
    let status ← withDefault (asEnum ProcessStatus.all ProcessStatus.value) .unknown (field t "status")
    return { id, server, command, useTmux, tmuxWindow, startedAt, lastChecked, status }
  | _ => none

def validateProbe : Value → Option (AddressProbe φ)
  | .obj t => do
    let addr ← required asStr (field t "addr")
    let port ← required (asInt c) (field t "port")
    let state ← required (asEnum AddressState.all AddressState.value) (field t "state")
    let latencyMs ← optional (asFloat c) (field t "latency_ms")
    let isSsh ← withDefault (asBool c) false (field t "is_ssh")
    return { addr, port, state, latencyMs, isSsh }
  | _ => none

/-- An edge's nodes have aliases, which come before their names (`populate_by_name`). -/
def validateEdge : Value → Option (TopologyEdge φ)
  | .obj t => do
    let fromNode ← required asStr ((field t "from").or (field t "from_node"))
    let toNode ← required asStr ((field t "to").or (field t "to_node"))
    let reachable ← required (asBool c) (field t "reachable")
    let via ← optional asStr (field t "via")
    let addresses ← withDefault (asList (validateProbe c)) [] (field t "addresses")
    let sourceState ← withDefault (asEnum SourceState.all SourceState.value) .ok (field t "source_state")
    return { fromNode, toNode, reachable, via, addresses, sourceState }
  | _ => none

def validateNode : Value → Option TopologyNode
  | .obj t => do
    let name ← required asStr (field t "name")
    let host ← required asStr (field t "host")
    let port ← required (asInt c) (field t "port")
    let candidateAddrs ← withDefault (asList asStr) [] (field t "candidate_addrs")
    let harvested ← withDefault (asBool c) false (field t "harvested")
    let harvestError ← optional asStr (field t "harvest_error")
    let sourceOnly ← withDefault (asBool c) false (field t "source_only")
    return { name, host, port, candidateAddrs, harvested, harvestError, sourceOnly }
  | _ => none

/-- `TopologyResult.model_validate`. -/
def validateTopology : Value → Option (TopologyResult φ)
  | .obj t => do
    let scannedAt ← required c.readTime (field t "scanned_at")
    let nodes ← withDefault (asList (validateNode c)) [] (field t "nodes")
    let edges ← withDefault (asList (validateEdge c)) [] (field t "edges")
    let adjacency ← withDefault (asDict (asList asStr)) Dict.empty (field t "adjacency")
    return { scannedAt, nodes, edges, adjacency }
  | _ => none

/-! ## Dumping -/

def text (s : String) : Value := .str (ofString s)

def nullable {α : Type} (write : α → Value) : Option α → Value
  | none => .null
  | some a => write a

/-- An object with the given fields. -/
def object (fields : List (String × Value)) : Value := .obj (fields.map fun f => (ofString f.1, f.2))

def dumpTime (t : Timestamp) : Value := text (c.writeTime t)

/-- `json.loads(rec.model_dump_json())`. -/
def dumpProcess (r : ProcessRecord) : Value :=
  object [("id", text r.id), ("type", text "exec"), ("server", text r.server), ("command", text r.command),
    ("remote_pid", .int r.remotePid), ("log_file", text r.logFile), ("exit_file", text r.exitFile),
    ("started_at", dumpTime c r.startedAt), ("last_checked", nullable (dumpTime c) r.lastChecked),
    ("status", text r.status.value), ("exit_code", nullable .int r.exitCode)]

def dumpSession (r : SessionRecord) : Value :=
  object [("id", text r.id), ("type", text "pty"), ("server", text r.server), ("command", nullable text r.command),
    ("use_tmux", .bool r.useTmux), ("tmux_window", nullable text r.tmuxWindow),
    ("started_at", dumpTime c r.startedAt), ("last_checked", nullable (dumpTime c) r.lastChecked),
    ("status", text r.status.value)]

def dumpProbe (p : AddressProbe φ) : Value :=
  object [("addr", text p.addr), ("port", .int p.port), ("state", text p.state.value),
    ("latency_ms", nullable (fun x => .float (c.writeFloat x)) p.latencyMs), ("is_ssh", .bool p.isSsh)]

/-- An edge is dumped by its fields' names. -/
def dumpEdge (e : TopologyEdge φ) : Value :=
  object [("from_node", text e.fromNode), ("to_node", text e.toNode), ("reachable", .bool e.reachable),
    ("via", nullable text e.via), ("addresses", .arr (e.addresses.map (dumpProbe c))),
    ("source_state", text e.sourceState.value)]

def dumpNode (n : TopologyNode) : Value :=
  object [("name", text n.name), ("host", text n.host), ("port", .int n.port),
    ("candidate_addrs", .arr (n.candidateAddrs.map text)), ("harvested", .bool n.harvested),
    ("harvest_error", nullable text n.harvestError), ("source_only", .bool n.sourceOnly)]

/-- `self._topology.model_dump(mode="json")`. -/
def dumpTopology (t : TopologyResult φ) : Value :=
  object [("scanned_at", dumpTime c t.scannedAt), ("nodes", .arr (t.nodes.map dumpNode)),
    ("edges", .arr (t.edges.map (dumpEdge c))),
    ("adjacency", object (t.adjacency.items.map fun e => (e.1, .arr (e.2.map text))))]

end

end State

/-! ## The store -/

/-- The three attributes of a `StateStore`; records are under their ids. -/
structure StateStore (φ : Type) where
  processes : Dict PyString ProcessRecord
  sessions : Dict PyString SessionRecord
  topology : Option (State.TopologyResult φ)

/-- What `StateStore.load` raises. -/
inductive StateError where
  /-- The `McpSshError` about a file of a newer version. -/
  | newer (version : Int)
  /-- `UnicodeDecodeError`. -/
  | unicodeDecode
  /-- `AttributeError`, when `processes` or `sessions` has no `items`. -/
  | attribute
  /-- A limit of the interpreter that `json.loads` runs into. -/
  | limit
deriving DecidableEq

namespace StateStore

open State

variable {φ : Type}

/-- The empty state. -/
def empty : StateStore φ := ⟨Dict.empty, Dict.empty, none⟩

section

variable (c : Scalars φ)

def payload (s : StateStore φ) : Value :=
  object [("schema_version", .int schemaVersion),
    ("processes", .obj (s.processes.items.map fun e => (e.1, dumpProcess c e.2))),
    ("sessions", .obj (s.sessions.items.map fun e => (e.1, dumpSession c e.2))),
    ("topology", nullable (dumpTopology c) s.topology)]

/-- `_persist`: the content of the file. -/
def persist (s : StateStore φ) : String := dumps (s.payload c)

end

/-- The version of a file, if it is an integer; to Python a boolean is one. -/
def versionOf (t : Fields) : Option Int :=
  match (field t "schema_version").getD (.int 1) with
  | .int n => some n
  | .bool b => some (if b then 1 else 0)
  | _ => none

/-- `data.get(key, {}).items()`; `none` where there is no `items`. -/
def itemsOf (t : Fields) (key : String) : Option Fields :=
  match (field t key).getD (.obj []) with
  | .obj entries => some entries
  | _ => none

/-- The entries that validate, each changed by `update`; the others are skipped. -/
def collect {α : Type} (validate : Value → Option α) (update : α → α) (entries : Fields) : Dict PyString α :=
  entries.foldl (fun d e => (validate e.2).elim d fun record => d.insert e.1 (update record)) Dict.empty

def unknownProcess (r : ProcessRecord) : ProcessRecord := { r with status := .unknown }

def unknownSession (r : SessionRecord) : SessionRecord := { r with status := .unknown }

/-- `load`, for a file that may be missing. `exceeds` holds of the texts on which
`json.loads` runs into a limit of the interpreter. -/
def load (c : Scalars φ) (exceeds : String → Bool) (file : Option FileContent) : Except StateError (StateStore φ) :=
  match file with
  | none | some .unreadable => .ok empty
  | some .undecodable => .error .unicodeDecode
  | some (.text s) =>
    if exceeds s then .error .limit
    else
      match loads s with
      | some (.obj t) =>
        match versionOf t with
        | none => .ok empty
        | some version =>
          if schemaVersion < version then .error (.newer version)
          else
            match itemsOf t "processes", itemsOf t "sessions" with
            | some processes, some sessions =>
              .ok { processes := collect (validateProcess c) unknownProcess processes
                    sessions := collect (validateSession c) unknownSession sessions
                    topology := (field t "topology").bind (validateTopology c) }
            | _, _ => .error .attribute
      | _ => .ok empty

/-- `upsert_process` in memory. -/
def upsertProcess (s : StateStore φ) (r : ProcessRecord) : StateStore φ :=
  { s with processes := s.processes.insert (ofString r.id) r }

def upsertSession (s : StateStore φ) (r : SessionRecord) : StateStore φ :=
  { s with sessions := s.sessions.insert (ofString r.id) r }

def setTopology (s : StateStore φ) (t : State.TopologyResult φ) : StateStore φ := { s with topology := some t }

end StateStore

end McpSsh
