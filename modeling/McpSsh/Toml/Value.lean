import Mathlib.Data.List.Basic

/-!
# TOML values, tables and namespace flags

The parsed form of a TOML 1.0 document, with the two structures the standard
library's parser keeps while it reads one: the nested tables built so far, and
the flags that say which namespaces may still be opened or extended. Floats and
dates are kept as the literal they were written as.
-/

set_option autoImplicit false

namespace McpSsh.Toml

/-- A TOML value. -/
inductive Value where
  | str (s : String)
  | int (n : Int)
  | float (literal : String)
  | bool (b : Bool)
  | moment (literal : String)
  | array (vs : List Value)
  | table (t : List (String × Value))

/-- A table, in the order of its keys' first appearance. -/
abbrev Table := List (String × Value)

/-- A dotted key. -/
abbrev Key := List String

/-- Why a document is rejected. -/
inductive TomlError where
  | invalidStatement
  | expectedNewline
  | illegalChar (c : Char)
  | unterminated
  | unescapedBackslash
  | invalidHex
  | notScalar
  | invalidKeyPart
  | expectedEquals
  | expectedBracket
  | unclosedArray
  | unclosedInlineTable
  | declaredTwice (key : Key)
  | redefinedNamespace (key : Key)
  | immutableNamespace (key : Key)
  | overwrittenValue
  | duplicateInlineKey (key : String)
  | invalidDate
  | invalidValue
  | tooDeep
deriving DecidableEq

def lookup (k : String) (t : Table) : Option Value := (t.find? fun e => e.1 = k).map Prod.snd

/-- Replace the value of a present key where it stands. -/
def assign (k : String) (v : Value) (t : Table) : Table :=
  t.map fun e => if e.1 = k then (k, v) else e

/-- Store `v` under a key that must still be free. -/
def addKey (k : String) (v : Value) (busy : TomlError) (t : Table) : Except TomlError Table :=
  match lookup k t with
  | none => .ok (t ++ [(k, v)])
  | some _ => .error busy

/-- Run `f` on the table behind a key path, creating the tables that are
missing. With `accessLists` a path goes through the last element of an array of
tables. -/
def updateNest (accessLists : Bool) (f : Table → Except TomlError Table) : Key → Table → Except TomlError Table
  | [], t => f t
  | k :: ks, t =>
    match lookup k t with
    | none => do
      let sub ← updateNest accessLists f ks []
      return t ++ [(k, .table sub)]
    | some (.table sub) => do
      let sub ← updateNest accessLists f ks sub
      return assign k (.table sub) t
    | some (.array vs) =>
      match accessLists, vs.getLast? with
      | true, some (.table sub) => do
        let sub ← updateNest accessLists f ks sub
        return assign k (.array (vs.dropLast ++ [.table sub])) t
      | _, _ => .error .overwrittenValue
    | some _ => .error .overwrittenValue

/-- Append a fresh table to the array of tables behind `last`. -/
def appendTable (last : String) (t : Table) : Except TomlError Table :=
  match lookup last t with
  | none => .ok (t ++ [(last, .array [.table []])])
  | some (.array vs) => .ok (assign last (.array (vs ++ [.table []])) t)
  | some _ => .error .overwrittenValue

/-- `frozen` marks inline arrays and tables, `explicitNest` a namespace that
cannot be opened with the `[table]` syntax again. -/
inductive Flag where
  | frozen
  | explicitNest
deriving DecidableEq

structure Mark where
  key : Key
  flag : Flag
  recursive : Bool
deriving DecidableEq

abbrev Flags := List Mark

/-- `flag` is set on `key` itself, or recursively on a namespace around it. -/
def Flags.has (flags : Flags) (key : Key) (flag : Flag) : Bool :=
  flags.any fun m => m.flag = flag && (m.key = key || (m.recursive && m.key.isPrefixOf key))

/-- Forget every flag at or below `key`. -/
def Flags.unsetAll (flags : Flags) (key : Key) : Flags :=
  flags.filter fun m => !key.isPrefixOf m.key

def Flags.set (flags : Flags) (key : Key) (flag : Flag) (recursive : Bool) : Flags :=
  flags ++ [⟨key, flag, recursive⟩]

/-- The flags after a pair: an array or a table given as a value may not be
extended later. -/
def freeze (value : Value) (key : Key) (flags : Flags) : Flags :=
  match value with
  | .table _ | .array _ => flags.set key .frozen true
  | _ => flags

end McpSsh.Toml
