import McpSsh.Registry
import McpSsh.Base.Text

/-!
# Jump chains

`setup_jump` and `teardown_jump` of `registry_tools.py`: a chain of servers is
registered hop by hop under one alias, and removed again by the names of its hops.
-/

set_option autoImplicit false

namespace McpSsh

open Base

/-! ## Elements of a chain -/

/-- The zeros of Unicode's decimal digits; each is followed by the other nine. -/
def digitZeros : List Nat :=
  [0x30, 0x660, 0x6f0, 0x7c0, 0x966, 0x9e6, 0xa66, 0xae6, 0xb66, 0xbe6, 0xc66, 0xce6, 0xd66, 0xde6, 0xe50, 0xed0,
    0xf20, 0x1040, 0x1090, 0x17e0, 0x1810, 0x1946, 0x19d0, 0x1a80, 0x1a90, 0x1b50, 0x1bb0, 0x1c40, 0x1c50, 0xa620,
    0xa8d0, 0xa900, 0xa9d0, 0xa9f0, 0xaa50, 0xabf0, 0xff10, 0x104a0, 0x10d30, 0x11066, 0x110f0, 0x11136, 0x111d0,
    0x112f0, 0x11450, 0x114d0, 0x11650, 0x116c0, 0x11730, 0x118e0, 0x11950, 0x11c50, 0x11d50, 0x11da0, 0x16a60,
    0x16ac0, 0x16b50, 0x1d7ce, 0x1d7d8, 0x1d7e2, 0x1d7ec, 0x1d7f6, 0x1e140, 0x1e2f0, 0x1e950, 0x1fbf0]

/-- The characters that `str.isdigit` accepts and `int` does not, as ranges. -/
def otherDigits : List (Nat × Nat) :=
  [(0xb2, 0xb3), (0xb9, 0xb9), (0x1369, 0x1371), (0x19da, 0x19da), (0x2070, 0x2070), (0x2074, 0x2079),
    (0x2080, 0x2089), (0x2460, 0x2468), (0x2474, 0x247c), (0x2488, 0x2490), (0x24ea, 0x24ea), (0x24f5, 0x24fd),
    (0x24ff, 0x24ff), (0x2776, 0x277e), (0x2780, 0x2788), (0x278a, 0x2792), (0x10a40, 0x10a43), (0x10e60, 0x10e68),
    (0x11052, 0x1105a), (0x1f100, 0x1f10a)]

/-- The value of a decimal digit. -/
def digitValue (c : Char) : Option Nat :=
  (digitZeros.find? fun first => first ≤ c.toNat && c.toNat ≤ first + 9).map fun first => c.toNat - first

/-- `str.isdigit`. -/
def isDigits (s : List Char) : Bool :=
  !s.isEmpty && s.all fun c => (digitValue c).isSome || otherDigits.any fun range => range.1 ≤ c.toNat && c.toNat ≤ range.2

/-- `int` of a string that `str.isdigit` accepts; `none` where it raises `ValueError`. -/
def intOf (s : List Char) : Option Nat :=
  if s.length ≤ 4300 then s.foldlM (fun n c => (digitValue c).map (10 * n + ·)) 0 else none

/-- `s.partition(sep)` without the separator. -/
def partition (sep : Char) (s : List Char) : List Char × List Char :=
  (s.takeWhile (· ≠ sep), (s.dropWhile (· ≠ sep)).drop 1)

/-- `s.rpartition(sep)`, or `none` when there is no separator. -/
def rpartition (sep : Char) (s : List Char) : Option (List Char × List Char) :=
  if sep ∈ s then
    let (last, front) := partition sep s.reverse
    some (front.reverse, last.reverse)
  else none

/-- What an element of a chain says: a server, and where to dial it instead. -/
structure ChainElement where
  server : String
  host : Option String
  port : Option Nat
deriving DecidableEq

/-- `_parse_hop`; `none` where `int` raises. -/
def parseHop (element : String) : Option ChainElement :=
  let (server, addr) := partition '@' element.toList
  let server := String.ofList (strip server)
  let addr := strip addr
  if addr.isEmpty then some ⟨server, none, none⟩
  else
    match rpartition ':' addr with
    | some (host, port) =>
      if isDigits port then (intOf port).map fun n => ⟨server, some (String.ofList (strip host)), some n⟩
      else some ⟨server, some (String.ofList addr), none⟩
    | none => some ⟨server, some (String.ofList addr), none⟩

/-! ## Setting up a chain -/

/-- What the names of an alias' intermediate hops start with. -/
def hopPrefix (name : String) : String := "_" ++ name ++ "_hop"

/-- `_hop_name`. -/
def hopName (name : String) (index total : Nat) : String :=
  if index + 1 = total then name else hopPrefix name ++ toString index

/-- One entry of the summary that `setup_jump` answers with. -/
structure HopSummary where
  name : String
  node : String
  target : String
  via : String
  /-- Whether the address dialed is the one the server is registered with. -/
  registered : Bool
  jumpHost : Option String
deriving DecidableEq

/-- The answer of `setup_jump`. -/
inductive SetupOutcome where
  | invalidChain
  | alreadyExists (name : String)
  /-- `_parse_hop` raises `ValueError`. -/
  | valueError
  | serverNotFound (server : String)
  | registryError (server : String) (cause : McpSshError)
  | created (jump : String) (persist : Bool) (hops : List HopSummary)
deriving DecidableEq

/-- A hop with the server whose credentials it reuses, and that server's own host. -/
structure PlannedHop where
  config : ServerConfig
  server : String
  registeredHost : String

/-- `x or y` for optional strings. -/
def orElse (x : Option String) (y : String) : String :=
  match x with
  | some s => if s = "" then y else s
  | none => y

def PlannedHop.summary (hop : PlannedHop) : HopSummary :=
  { name := hop.config.name, node := hop.server
    target := hop.config.user ++ "@" ++ hop.config.host ++ ":" ++ toString hop.config.port
    via := hop.config.host, registered := hop.config.host = hop.registeredHost, jumpHost := hop.config.jumpHost }

section

-- `repr` of a string; it only occurs in notes
variable (repr : String → String)

/-- The note of a hop. -/
def hopNote (name : String) (note : Option String) (index total : Nat) (server : String) : String :=
  let generated := "jump chain " ++ repr name ++ " hop " ++ toString index ++ " via " ++ server
  if index + 1 = total then orElse note generated else generated

/-- The first loop of `_build_chain`, from the hop at `index` on. -/
def planHops (r : Registry) (name : String) (note : Option String) (total : Nat) :
    Nat → Option String → List String → Except SetupOutcome (List PlannedHop)
  | _, _, [] => .ok []
  | index, previous, element :: rest =>
    match parseHop element with
    | none => .error .valueError
    | some hop =>
      match r.find? hop.server with
      | none => .error (.serverNotFound hop.server)
      | some base => do
        let config := { base with
          name := hopName name index total
          host := orElse hop.host base.host
          port := match hop.port with
            | some port => if port = 0 then base.port else port
            | none => base.port
          jumpHost := previous
          note := some (hopNote repr name note index total hop.server) }
        let later ← planHops r name note total (index + 1) (some config.name) rest
        return ⟨config, hop.server, base.host⟩ :: later

/-- Whether writing the file succeeds, when a server is added and when it is removed. -/
structure Writes where
  add : String → Bool
  remove : String → Bool

/-- Undo: remove the added hops, the last one first; a failure is passed over. -/
def rollBack (persist : Bool) (writes : Writes) (s : Store) (added : List String) : Store :=
  added.foldl (fun s name => (s.removeFrom persist (writes.remove name) name).toOption.getD s) s

/-- The second loop of `_build_chain`; `added` has the last hop first. -/
def registerHops (persist : Bool) (writes : Writes) (s : Store) (added : List String) :
    List ServerConfig → Store × Option (String × McpSshError)
  | [] => (s, none)
  | config :: rest =>
    match s.addTo persist (writes.add config.name) config with
    | .error e => (rollBack persist writes s added, some (config.name, e))
    | .ok s => registerHops persist writes s (config.name :: added) rest

/-- `_build_chain`. -/
def buildChain (writes : Writes) (s : Store) (name : String) (chain : List String) (persist : Bool)
    (note : Option String) : Store × SetupOutcome :=
  if (s.registry.find? name).isSome then (s, .alreadyExists name)
  else
    match planHops repr s.registry name note chain.length 0 none chain with
    | .error outcome => (s, outcome)
    | .ok hops =>
      match registerHops persist writes s [] (hops.map PlannedHop.config) with
      | (s', some (server, e)) => (s', .registryError server e)
      | (s', none) => (s', .created name persist (hops.map PlannedHop.summary))

/-- `setup_jump` with a chain. -/
def setupJump (writes : Writes) (s : Store) (name : String) (chain : List String) (persist : Bool)
    (note : Option String) : Store × SetupOutcome :=
  if chain = [] then (s, .invalidChain) else buildChain repr writes s name chain persist note

end

/-! ## Tearing down a chain -/

/-- The answer of `teardown_jump`. -/
inductive TeardownOutcome where
  | serverNotFound (name : String)
  | tornDown (name : String) (removed : List String)
deriving DecidableEq

/-- `cfg.name == name or cfg.name.startswith(prefix)`. -/
def belongsTo (name entry : String) : Bool := entry = name || (hopPrefix name).toList.isPrefixOf entry.toList

/-- The names `teardown_jump` removes. -/
def teardownTargets (r : Registry) (name : String) : List String :=
  (r.listAll.map ServerConfig.name).filter (belongsTo name)

/-- Remove one name, from memory first and else from the file. -/
def removeTarget (writes : String → Bool) (s : Store) (target : String) : Except McpSshError Store :=
  match s.registry.removeEphemeral target with
  | .ok r => .ok { s with registry := r }
  | .error _ => s.remove (writes target) target

/-- The loop over the targets, with the names removed so far. -/
def removeTargets (writes : String → Bool) (s : Store) (removed : List String) : List String → Store × List String
  | [] => (s, removed)
  | target :: rest =>
    match removeTarget writes s target with
    | .ok s' => removeTargets writes s' (removed ++ [target]) rest
    | .error _ => removeTargets writes s removed rest

/-- `teardown_jump`. -/
def teardownJump (writes : String → Bool) (s : Store) (name : String) : Store × TeardownOutcome :=
  let targets := teardownTargets s.registry name
  if targets = [] then (s, .serverNotFound name)
  else
    let (s', removed) := removeTargets writes s [] targets
    (s', .tornDown name removed)

end McpSsh
