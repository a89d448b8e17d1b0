import McpSsh.Toml.Scalar

/-!
# JSON values, and reading and writing their text

`json.loads`, and `json.dumps` with an indent of two. Strings are those of Python: an
escape may leave a surrogate on its own. Numbers with a fraction or an exponent are kept
as the literal they were written as. Every nested value of a text takes up to two of the
turns that bound the reader; twice the length of the text is always enough.
-/

set_option autoImplicit false

namespace McpSsh.Json

/-- A code point of a Python string. -/
inductive CodePoint where
  | char (c : Char)
  | surrogate (n : Nat)
deriving DecidableEq

abbrev PyString := List CodePoint

def ofString (s : String) : PyString := s.toList.map .char

/-- The characters of a string without surrogates. -/
def characters : PyString → Option (List Char)
  | [] => some []
  | .char c :: s => (characters s).map (c :: ·)
  | .surrogate _ :: _ => none

/-- A JSON value; the fields of an object are in the order of their first appearance. -/
inductive Value where
  | null
  | bool (b : Bool)
  | int (n : Int)
  /-- A number with a fraction or an exponent, `NaN` or an infinity. -/
  | float (literal : String)
  | str (s : PyString)
  | arr (vs : List Value)
  | obj (fields : List (PyString × Value))

/-! ## Reading strings -/

/-- The code point of a `\u` escape. -/
def pointOf (n : Nat) : CodePoint := if 0xd800 ≤ n ∧ n < 0xe000 then .surrogate n else .char (Char.ofNat n)

/-- Put a code point before a string; a high surrogate joins the low one after it. -/
def joined : CodePoint → PyString → PyString
  | .surrogate hi, .surrogate lo :: s =>
    if hi < 0xdc00 ∧ 0xdc00 ≤ lo then .char (Char.ofNat (0x10000 + (hi - 0xd800) * 0x400 + (lo - 0xdc00))) :: s
    else .surrogate hi :: .surrogate lo :: s
  | p, s => p :: s

/-- The characters that stand for themselves after a backslash, or for a control character. -/
def shortEscapes : List (Char × Char) :=
  [('"', '"'), ('\\', '\\'), ('n', '\n'), ('r', '\r'), ('t', '\t'), ('f', '\x0c'), ('b', '\x08')]

def escaped (e : Char) : Option Char := if e = '/' then some '/' else (shortEscapes.find? fun s => s.1 = e).map Prod.snd

/-- A string after its opening quote, and the text after its closing one. -/
def stringBody : List Char → Option (PyString × List Char)
  | [] => none
  | c :: rest =>
    if c = '"' then some ([], rest)
    else if c = '\\' then
      match rest with
      | 'u' :: h₃ :: h₂ :: h₁ :: h₀ :: rest =>
        if [h₃, h₂, h₁, h₀].all Toml.isHexDigit then
          (stringBody rest).map fun r => (joined (pointOf (Toml.digitsValue 16 [h₃, h₂, h₁, h₀])) r.1, r.2)
        else none
      | e :: rest => (escaped e).bind fun c => (stringBody rest).map fun r => (.char c :: r.1, r.2)
      | [] => none
    else if c.toNat < 32 then none
    else (stringBody rest).map fun r => (.char c :: r.1, r.2)

/-! ## Reading numbers -/

def wholePart : List Char → List Char
  | '0' :: _ => ['0']
  | src => src.takeWhile Toml.isDigit

/-- `.` and digits, if there are any. -/
def fractionPart : List Char → List Char
  | '.' :: src => if (src.takeWhile Toml.isDigit).isEmpty then [] else '.' :: src.takeWhile Toml.isDigit
  | _ => []

def signPart : List Char → List Char
  | '+' :: _ => ['+']
  | '-' :: _ => ['-']
  | _ => []

/-- `e` or `E`, a sign or none, and digits, if there are any. -/
def exponentPart : List Char → List Char
  | e :: src =>
    let digits := (src.drop (signPart src).length).takeWhile Toml.isDigit
    if (e = 'e' ∨ e = 'E') ∧ digits ≠ [] then e :: (signPart src ++ digits) else []
  | [] => []

def minusPart : List Char → List Char
  | '-' :: _ => ['-']
  | _ => []

/-- The longest number that the text starts with. -/
def parseNumber (src : List Char) : Option (Value × List Char) :=
  let minus := minusPart src
  let src := src.drop minus.length
  let whole := wholePart src
  let src := src.drop whole.length
  let fraction := fractionPart src
  let src := src.drop fraction.length
  let exponent := exponentPart src
  let src := src.drop exponent.length
  if whole = [] then none
  else if fraction = [] ∧ exponent = [] then
    let n : Int := Toml.digitsValue 10 whole
    some (.int (if minus = [] then n else -n), src)
  else some (.float (String.ofList (minus ++ whole ++ fraction ++ exponent)), src)

/-! ## Reading values -/

def isSpace (c : Char) : Bool := c = ' ' || c = '\t' || c = '\n' || c = '\r'

def skipSpace (src : List Char) : List Char := src.dropWhile isSpace

def constants : List (List Char × Value) :=
  [("null".toList, .null), ("true".toList, .bool true), ("false".toList, .bool false), ("NaN".toList, .float "NaN"),
    ("Infinity".toList, .float "Infinity"), ("-Infinity".toList, .float "-Infinity")]

def parseConstant (src : List Char) : Option (Value × List Char) :=
  (constants.find? fun c => c.1.isPrefixOf src).map fun c => (c.2, src.drop c.1.length)

/-- Store a member of an object; a later one under the same key takes the place of the
earlier one. -/
def put (fields : List (PyString × Value)) (member : PyString × Value) : List (PyString × Value) :=
  if member.1 ∈ fields.map Prod.fst then fields.map fun f => if f.1 = member.1 then member else f
  else fields ++ [member]

mutual

/-- A value at the start of the text. -/
def parseValue : Nat → List Char → Option (Value × List Char)
  | 0, _ => none
  | n + 1, src =>
    match src with
    | '"' :: rest => (stringBody rest).map fun r => (.str r.1, r.2)
    | '[' :: rest =>
      match skipSpace rest with
      | ']' :: rest => some (.arr [], rest)
      | rest => (parseItems n rest).map fun r => (.arr r.1, r.2)
    | '{' :: rest =>
      match skipSpace rest with
      | '}' :: rest => some (.obj [], rest)
      | rest => (parseMembers n rest).map fun r => (.obj (r.1.foldl put []), r.2)
    | src => (parseConstant src).or (parseNumber src)

/-- The items of an array up to its bracket, of which there is one. -/
def parseItems : Nat → List Char → Option (List Value × List Char)
  | 0, _ => none
  | n + 1, src =>
    match parseValue n src with
    | none => none
    | some (v, rest) =>
      match skipSpace rest with
      | ',' :: rest => (parseItems n (skipSpace rest)).map fun r => (v :: r.1, r.2)
      | ']' :: rest => some ([v], rest)
      | _ => none

/-- The members of an object up to its brace, of which there is one. -/
def parseMembers : Nat → List Char → Option (List (PyString × Value) × List Char)
  | 0, _ => none
  | n + 1, src =>
    match src with
    | '"' :: rest =>
      match stringBody rest with
      | none => none
      | some (k, rest) =>
        match skipSpace rest with
        | ':' :: rest =>
          match parseValue n (skipSpace rest) with
          | none => none
          | some (v, rest) =>
            match skipSpace rest with
            | ',' :: rest => (parseMembers n (skipSpace rest)).map fun r => ((k, v) :: r.1, r.2)
            | '}' :: rest => some ([(k, v)], rest)
            | _ => none
        | _ => none
    | _ => none

end

/-- `json.loads`; `none` where it raises `JSONDecodeError`. -/
def loads (text : String) : Option Value :=
  let src := text.toList
  if src.head? = some '\ufeff' then none
  else
    match parseValue (2 * src.length + 2) (skipSpace src) with
    | some (v, rest) => if skipSpace rest = [] then some v else none
    | none => none

/-! ## Writing -/

def hexDigit (n : Nat) : Char := if n < 10 then Char.ofNat (48 + n) else Char.ofNat (87 + n)

/-- `\u` and four digits. -/
def unicodeEscape (n : Nat) : List Char :=
  ['\\', 'u', hexDigit (n / 4096), hexDigit (n / 256 % 16), hexDigit (n / 16 % 16), hexDigit (n % 16)]

def writeChar (c : Char) : List Char :=
  match shortEscapes.find? fun s => s.2 = c with
  | some s => ['\\', s.1]
  | none =>
    if 32 ≤ c.toNat ∧ c.toNat < 127 then [c]
    else if c.toNat < 0x10000 then unicodeEscape c.toNat
    else unicodeEscape (0xd800 + (c.toNat - 0x10000) / 0x400) ++ unicodeEscape (0xdc00 + (c.toNat - 0x10000) % 0x400)

def writePoint : CodePoint → List Char
  | .char c => writeChar c
  | .surrogate n => unicodeEscape n

def writeString (s : PyString) : List Char := '"' :: (s.flatMap writePoint ++ ['"'])

/-- A new line at a depth. -/
def newline (depth : Nat) : List Char := '\n' :: List.replicate (2 * depth) ' '

mutual

def write (depth : Nat) : Value → List Char
  | .null => "null".toList
  | .bool true => "true".toList
  | .bool false => "false".toList
  | .int n => (toString n).toList
  | .float literal => literal.toList
  | .str s => writeString s
  | .arr [] => "[]".toList
  | .arr (v :: vs) =>
    '[' :: (newline (depth + 1) ++ write (depth + 1) v ++ writeItems (depth + 1) vs ++ newline depth ++ [']'])
  | .obj [] => ['{', '}']
  | .obj ((k, v) :: fields) =>
    '{' :: (newline (depth + 1) ++ writeString k ++ ':' :: ' ' :: write (depth + 1) v ++
      writeMembers (depth + 1) fields ++ newline depth ++ ['}'])

def writeItems (depth : Nat) : List Value → List Char
  | [] => []
  | v :: vs => ',' :: (newline depth ++ write depth v ++ writeItems depth vs)

def writeMembers (depth : Nat) : List (PyString × Value) → List Char
  | [] => []
  | (k, v) :: fields =>
    ',' :: (newline depth ++ writeString k ++ ':' :: ' ' :: write depth v ++ writeMembers depth fields)

end

/-- `json.dumps` with `indent=2`. -/
def dumps (v : Value) : String := String.ofList (write 0 v)

end McpSsh.Json
