import McpSsh.Toml.Scalar

/-!
# Values, statements and documents of TOML

`loads` follows the standard library's parser rule for rule: a document is read
one statement at a time, key/value pairs and table headers update the nested
tables and the flags, and the first violation rejects the whole document.
-/

set_option autoImplicit false

namespace McpSsh.Toml

/-- Skip white space, newlines and comments between the elements of an array. -/
def skipCommentsAndArrayWs : Nat → List Char → Except TomlError (List Char)
  | 0, _ => .error .tooDeep
  | n + 1, src =>
    match src.dropWhile isWsOrNewline with
    | '#' :: rest => do
      let rest ← skipComment ('#' :: rest)
      skipCommentsAndArrayWs n rest
    | rest => .ok rest

/-- The inline table built so far, with its own flags. -/
structure InlineTable where
  data : Table
  flags : Flags

/-- Add one pair to an inline table. -/
def InlineTable.add (t : InlineTable) (key : Key) (value : Value) : Except TomlError InlineTable := do
  if t.flags.has key .frozen then throw (.immutableNamespace key)
  let stem := key.getLastD ""
  let data ← updateNest false (addKey stem value (.duplicateInlineKey stem)) key.dropLast t.data
  return ⟨data, freeze value key t.flags⟩

mutual

/-- A value, with a bound on the nesting and the number of elements read. -/
def parseValue : Nat → List Char → Except TomlError (Value × List Char)
  | 0, _ => .error .tooDeep
  | n + 1, src =>
    match src with
    | '"' :: '"' :: '"' :: rest =>
      (parseMultilineStr false rest).map fun r => (.str (String.ofList r.1), r.2)
    | '"' :: rest => (parseOneLineBasicStr rest).map fun r => (.str (String.ofList r.1), r.2)
    | '\'' :: '\'' :: '\'' :: rest =>
      (parseMultilineStr true rest).map fun r => (.str (String.ofList r.1), r.2)
    | '\'' :: rest => (parseLiteralStr rest).map fun r => (.str (String.ofList r.1), r.2)
    | 't' :: 'r' :: 'u' :: 'e' :: rest => .ok (.bool true, rest)
    | 'f' :: 'a' :: 'l' :: 's' :: 'e' :: rest => .ok (.bool false, rest)
    | '[' :: rest => do
      let rest ← skipCommentsAndArrayWs (rest.length + 1) rest
      match rest with
      | ']' :: rest => .ok (.array [], rest)
      | _ => (parseArray n rest).map fun r => (.array r.1, r.2)
    | '{' :: rest =>
      match rest.dropWhile isWs with
      | '}' :: rest => .ok (.table [], rest)
      | rest => (parseInlineTable n ⟨[], []⟩ rest).map fun r => (.table r.1, r.2)
    | _ => parseOther src

/-- The elements of an array up to its closing bracket. -/
def parseArray : Nat → List Char → Except TomlError (List Value × List Char)
  | 0, _ => .error .tooDeep
  | n + 1, src => do
    let (v, rest) ← parseValue n src
    let rest ← skipCommentsAndArrayWs (rest.length + 1) rest
    match rest with
    | ']' :: rest => .ok ([v], rest)
    | ',' :: rest => do
      let rest ← skipCommentsAndArrayWs (rest.length + 1) rest
      match rest with
      | ']' :: rest => .ok ([v], rest)
      | _ => (parseArray n rest).map fun r => (v :: r.1, r.2)
    | _ => .error .unclosedArray

/-- The pairs of an inline table up to its closing brace. -/
def parseInlineTable : Nat → InlineTable → List Char → Except TomlError (Table × List Char)
  | 0, _, _ => .error .tooDeep
  | n + 1, t, src => do
    let (key, rest) ← parseKey (src.length + 1) src
    match rest with
    | '=' :: rest => do
      let (value, rest) ← parseValue n (rest.dropWhile isWs)
      let t ← t.add key value
      match rest.dropWhile isWs with
      | '}' :: rest => .ok (t.data, rest)
      | ',' :: rest => parseInlineTable n t (rest.dropWhile isWs)
      | _ => .error .unclosedInlineTable
    | _ => .error .expectedEquals

end

/-- What is known between two statements: the tables, the flags, the flags that
wait for the next header, and the namespace of the last header. -/
structure Doc where
  data : Table
  flags : Flags
  pending : List Key
  header : Key

def Doc.initial : Doc := ⟨[], [], [], []⟩

/-- Set the flags that dotted keys left pending. -/
def Doc.finalizePending (d : Doc) : Doc :=
  { d with flags := d.pending.foldl (fun f k => f.set k .explicitNest false) d.flags, pending := [] }

/-- The proper prefixes of a dotted key, shortest first. -/
def properPrefixes (key : Key) : List Key := (List.range (key.length - 1)).map fun i => key.take (i + 1)

/-- `key = value` in the current namespace. -/
def keyValueRule (d : Doc) (src : List Char) : Except TomlError (Doc × List Char) := do
  let (key, rest) ← parseKey (src.length + 1) src
  match rest with
  | '=' :: rest => do
    let (value, rest) ← parseValue (2 * src.length + 2) (rest.dropWhile isWs)
    let around := (properPrefixes key).map (d.header ++ ·)
    match around.find? fun k => d.flags.has k .explicitNest with
    | some k => throw (.redefinedNamespace k)
    | none =>
      let parent := d.header ++ key.dropLast
      if d.flags.has parent .frozen then throw (.immutableNamespace parent)
      let data ← updateNest true (addKey (key.getLastD "") value .overwrittenValue) parent d.data
      let flags := freeze value (d.header ++ key) d.flags
      return ({ d with data, flags, pending := d.pending ++ around }, rest)
  | _ => .error .expectedEquals

/-- `[key]`, after the bracket. -/
def createDictRule (d : Doc) (src : List Char) : Except TomlError (Doc × List Char) := do
  let (key, rest) ← parseKey (src.length + 1) (src.dropWhile isWs)
  if d.flags.has key .explicitNest || d.flags.has key .frozen then throw (.declaredTwice key)
  let data ← updateNest true .ok key d.data
  match rest with
  | ']' :: rest => return ({ d with data, flags := d.flags.set key .explicitNest false, header := key }, rest)
  | _ => throw .expectedBracket

/-- `[[key]]`, after the brackets. -/
def createListRule (d : Doc) (src : List Char) : Except TomlError (Doc × List Char) := do
  let (key, rest) ← parseKey (src.length + 1) (src.dropWhile isWs)
  if d.flags.has key .frozen then throw (.immutableNamespace key)
  let flags := (d.flags.unsetAll key).set key .explicitNest false
  let data ← updateNest true (appendTable (key.getLastD "")) key.dropLast d.data
  match rest with
  | ']' :: ']' :: rest => return ({ d with data, flags, header := key }, rest)
  | _ => throw .expectedBracket

/-- One statement: a pair, a header, or nothing before a comment. -/
def statement (d : Doc) (src : List Char) : Except TomlError (Doc × List Char) :=
  match src with
  | '[' :: '[' :: rest => createListRule d.finalizePending rest
  | '[' :: rest => createDictRule d.finalizePending rest
  | '#' :: _ => .ok (d, src)
  | c :: _ => if isKeyInitial c then keyValueRule d src else .error .invalidStatement
  | [] => .ok (d, [])

/-- Read statements up to the end of the source. -/
def statements : Nat → Doc → List Char → Except TomlError Table
  | 0, _, _ => .error .tooDeep
  | n + 1, d, src =>
    match src.dropWhile isWs with
    | [] => .ok d.data
    | '\n' :: rest => statements n d rest
    | line => do
      let (d, rest) ← statement d line
      let rest ← skipComment (rest.dropWhile isWs)
      match rest with
      | [] => .ok d.data
      | '\n' :: rest => statements n d rest
      | _ => .error .expectedNewline

/-- Windows line ends count as newlines. -/
def replaceCrLf : List Char → List Char
  | '\r' :: '\n' :: rest => '\n' :: replaceCrLf rest
  | c :: rest => c :: replaceCrLf rest
  | [] => []

/-- `tomllib.loads`. -/
def loads (text : String) : Except TomlError Table :=
  let src := replaceCrLf text.toList
  statements (src.length + 1) Doc.initial src

end McpSsh.Toml
