import McpSsh.Toml.Value

/-!
# Characters, strings, keys and numbers of TOML

Each reader takes the rest of the source and returns what it read with the
source left after it. Loops over the characters of a string take a bound on the
number of their turns; the length of the source is always enough.
-/

set_option autoImplicit false

namespace McpSsh.Toml

def isWs (c : Char) : Bool := c = ' ' || c = '\t'

def isWsOrNewline (c : Char) : Bool := isWs c || c = '\n'

/-- ASCII control characters: `U+0000` to `U+001F`, and `U+007F`. -/
def isCtrl (c : Char) : Bool := c.toNat < 32 || c.toNat = 127

/-- Characters no one-line string or comment may hold. -/
def isIllegal (c : Char) : Bool := isCtrl c && c ≠ '\t'

/-- Characters no multi-line string may hold. -/
def isIllegalMultiline (c : Char) : Bool := isIllegal c && c ≠ '\n'

def isDigit (c : Char) : Bool := '0' ≤ c && c ≤ '9'

def isBareKeyChar (c : Char) : Bool :=
  ('a' ≤ c && c ≤ 'z') || ('A' ≤ c && c ≤ 'Z') || isDigit c || c = '-' || c = '_'

def isKeyInitial (c : Char) : Bool := isBareKeyChar c || c = '"' || c = '\''

def isHexDigit (c : Char) : Bool := isDigit c || ('a' ≤ c && c ≤ 'f') || ('A' ≤ c && c ≤ 'F')

def digitValue (c : Char) : Nat :=
  if isDigit c then c.toNat - '0'.toNat
  else if 'a' ≤ c && c ≤ 'f' then c.toNat - 'a'.toNat + 10
  else c.toNat - 'A'.toNat + 10

/-- The value of the digits of `ds` in `base`, underscores skipped. -/
def digitsValue (base : Nat) (ds : List Char) : Nat :=
  ds.foldl (fun n c => if c = '_' then n else n * base + digitValue c) 0

/-- `skip_until`: the text before `stop`, which must come before the end of the
source when `errorOnEof`, and hold no character of `illegal`. -/
def skipUntil (stop : List Char) (illegal : Char → Bool) (errorOnEof : Bool) : List Char → Except TomlError (List Char × List Char)
  | [] => if errorOnEof then .error .unterminated else .ok ([], [])
  | c :: rest =>
    if stop.isPrefixOf (c :: rest) then .ok ([], c :: rest)
    else if illegal c then .error (.illegalChar c)
    else (skipUntil stop illegal errorOnEof rest).map fun r => (c :: r.1, r.2)

/-- The source after a comment, if one starts here. -/
def skipComment : List Char → Except TomlError (List Char)
  | '#' :: rest => (skipUntil ['\n'] isIllegal false rest).map Prod.snd
  | src => .ok src

/-- `\u` and `\U`: `len` hexadecimal digits naming a scalar value. -/
def parseHexChar (len : Nat) (src : List Char) : Except TomlError (List Char × List Char) :=
  let hex := src.take len
  if hex.length ≠ len || !hex.all isHexDigit then .error .invalidHex
  else
    let n := digitsValue 16 hex
    if n.isValidChar then .ok ([Char.ofNat n], src.drop len) else .error .notScalar

/-- The escape after a backslash. In a multi-line string a backslash before the
end of a line swallows the white space up to the next text. -/
def parseBasicStrEscape (multiline : Bool) : List Char → Except TomlError (List Char × List Char)
  | 'u' :: rest => parseHexChar 4 rest
  | 'U' :: rest => parseHexChar 8 rest
  | 'b' :: rest => .ok (['\x08'], rest)
  | 't' :: rest => .ok (['\t'], rest)
  | 'n' :: rest => .ok (['\n'], rest)
  | 'f' :: rest => .ok (['\x0c'], rest)
  | 'r' :: rest => .ok (['\r'], rest)
  | '"' :: rest => .ok (['"'], rest)
  | '\\' :: rest => .ok (['\\'], rest)
  | c :: rest =>
    if multiline && isWsOrNewline c then
      match (c :: rest).dropWhile isWs with
      | [] => .ok ([], [])
      | '\n' :: after => .ok ([], after.dropWhile isWsOrNewline)
      | _ => .error .unescapedBackslash
    else .error .unescapedBackslash
  | [] => .error .unescapedBackslash

/-- The body of a basic string, up to and including its closing quotes. -/
def parseBasicStr (multiline : Bool) : Nat → List Char → Except TomlError (List Char × List Char)
  | 0, _ => .error .tooDeep
  | _ + 1, [] => .error .unterminated
  | n + 1, '"' :: rest =>
    if !multiline then .ok ([], rest)
    else if ['"', '"'].isPrefixOf rest then .ok ([], rest.drop 2)
    else (parseBasicStr multiline n rest).map fun r => ('"' :: r.1, r.2)
  | n + 1, '\\' :: rest => do
    let (escaped, rest) ← parseBasicStrEscape multiline rest
    let (more, rest) ← parseBasicStr multiline n rest
    return (escaped ++ more, rest)
  | n + 1, c :: rest =>
    if (if multiline then isIllegalMultiline c else isIllegal c) then .error (.illegalChar c)
    else (parseBasicStr multiline n rest).map fun r => (c :: r.1, r.2)

/-- A one-line basic string, after its opening quote. -/
def parseOneLineBasicStr (src : List Char) : Except TomlError (List Char × List Char) := parseBasicStr false (src.length + 1) src

/-- A one-line literal string, after its opening apostrophe. -/
def parseLiteralStr (src : List Char) : Except TomlError (List Char × List Char) :=
  (skipUntil ['\''] isIllegal true src).map fun r => (r.1, r.2.drop 1)

/-- Up to two more quotes belong to the text when four or five close a
multi-line string. -/
def extraQuotes (delim : Char) : List Char → List Char × List Char
  | c :: d :: rest =>
    if c = delim then if d = delim then ([delim, delim], rest) else ([delim], d :: rest) else ([], c :: d :: rest)
  | [c] => if c = delim then ([delim], []) else ([], [c])
  | [] => ([], [])

/-- A multi-line string, after its three opening quotes. -/
def parseMultilineStr (literal : Bool) (src : List Char) : Except TomlError (List Char × List Char) := do
  let src := match src with
    | '\n' :: rest => rest
    | _ => src
  let (body, rest) ←
    if literal then
      (skipUntil ['\'', '\'', '\''] isIllegalMultiline true src).map fun r => (r.1, r.2.drop 3)
    else parseBasicStr true (src.length + 1) src
  let (extra, rest) := extraQuotes (if literal then '\'' else '"') rest
  return (body ++ extra, rest)

def parseKeyPart : List Char → Except TomlError (String × List Char)
  | '"' :: rest => (parseOneLineBasicStr rest).map fun r => (String.ofList r.1, r.2)
  | '\'' :: rest => (parseLiteralStr rest).map fun r => (String.ofList r.1, r.2)
  | src =>
    match src.takeWhile isBareKeyChar with
    | [] => .error .invalidKeyPart
    | name => .ok (String.ofList name, src.dropWhile isBareKeyChar)

/-- A dotted key, with the white space after it. -/
def parseKey : Nat → List Char → Except TomlError (Key × List Char)
  | 0, _ => .error .tooDeep
  | n + 1, src => do
    let (part, rest) ← parseKeyPart src
    match rest.dropWhile isWs with
    | '.' :: rest => do
      let (more, rest) ← parseKey n (rest.dropWhile isWs)
      return (part :: more, rest)
    | rest => return ([part], rest)

/-- Digits of `p`, each after the first possibly behind one underscore. -/
def digitRun (p : Char → Bool) : List Char → List Char
  | '_' :: c :: rest => if p c then '_' :: c :: digitRun p rest else []
  | c :: rest => if p c then c :: digitRun p rest else []
  | [] => []

/-- `[0-9](_?[0-9])*` at the head of the source. -/
def numeral (p : Char → Bool) : List Char → Option (List Char)
  | c :: rest => if p c then some (c :: digitRun p rest) else none
  | [] => none

/-- The first alternative of `RE_NUMBER`: hexadecimal, binary and octal. -/
def prefixedInt : List Char → Option (Value × List Char)
  | '0' :: x :: rest =>
    let read (base : Nat) (p : Char → Bool) : Option (Value × List Char) :=
      (numeral p rest).map fun ds => (.int (digitsValue base ds), rest.drop ds.length)
    if x = 'x' then read 16 isHexDigit
    else if x = 'b' then read 2 fun c => c = '0' || c = '1'
    else if x = 'o' then read 8 fun c => '0' ≤ c && c ≤ '7'
    else none
  | _ => none

/-- The integer part of a decimal: `0`, or digits that do not start with one. -/
def decimalPart : List Char → Option (List Char)
  | '0' :: _ => some ['0']
  | src => numeral isDigit src

/-- The optional fraction `.[0-9](_?[0-9])*`. -/
def fractionPart : List Char → List Char
  | '.' :: rest => ((numeral isDigit rest).map fun ds => '.' :: ds).getD []
  | _ => []

/-- The optional exponent `[eE][+-]?[0-9](_?[0-9])*`. -/
def exponentPart : List Char → List Char
  | e :: rest =>
    if e = 'e' || e = 'E' then
      match rest with
      | s :: digits =>
        if s = '+' || s = '-' then ((numeral isDigit digits).map fun ds => e :: s :: ds).getD []
        else ((numeral isDigit rest).map fun ds => e :: ds).getD []
      | [] => []
    else []
  | [] => []

/-- The sign of a number and the source after it. -/
def signPart : List Char → List Char × List Char
  | '+' :: rest => (['+'], rest)
  | '-' :: rest => (['-'], rest)
  | src => ([], src)

/-- The second alternative of `RE_NUMBER`, after its sign. -/
def decimalNumber (sign src : List Char) : Option (Value × List Char) :=
  match decimalPart src with
  | none => none
  | some whole =>
    let rest := src.drop whole.length
    let fraction := fractionPart rest
    let rest := rest.drop fraction.length
    let exponent := exponentPart rest
    let rest := rest.drop exponent.length
    if (fraction ++ exponent).isEmpty then
      let n : Int := digitsValue 10 whole
      some (.int (if sign = ['-'] then -n else n), rest)
    else some (.float (String.ofList (sign ++ whole ++ fraction ++ exponent)), rest)

/-- `RE_NUMBER` with `match_to_number`. -/
def parseNumber (src : List Char) : Option (Value × List Char) :=
  match prefixedInt src with
  | some r => some r
  | none => decimalNumber (signPart src).1 (signPart src).2

/-- Exactly `n` digits with a value in `[lo, hi]`. -/
def fixedDigits (n lo hi : Nat) (src : List Char) : Option (Nat × List Char) :=
  let ds := src.take n
  if ds.length = n && ds.all isDigit && lo ≤ digitsValue 10 ds && digitsValue 10 ds ≤ hi then
    some (digitsValue 10 ds, src.drop n)
  else none

def expectChar (c : Char) : List Char → Option (List Char)
  | d :: rest => if c = d then some rest else none
  | [] => none

/-- `HH:MM:SS` with an optional fraction of a second. -/
def clockTime (src : List Char) : Option (List Char) := do
  let (_, rest) ← fixedDigits 2 0 23 src
  let (_, rest) ← fixedDigits 2 0 59 (← expectChar ':' rest)
  let (_, rest) ← fixedDigits 2 0 59 (← expectChar ':' rest)
  match rest with
  | '.' :: digits => if (digits.takeWhile isDigit).isEmpty then some rest else some (digits.dropWhile isDigit)
  | _ => some rest

/-- The optional offset after a date and time. -/
def timeOffset (src : List Char) : List Char :=
  match src with
  | 'Z' :: rest | 'z' :: rest => rest
  | s :: rest =>
    if s = '+' || s = '-' then
      (do
        let (_, rest) ← fixedDigits 2 0 23 rest
        let (_, rest) ← fixedDigits 2 0 59 (← expectChar ':' rest)
        return rest).getD src
    else src
  | [] => []

def daysInMonth (year month : Nat) : Nat :=
  if month = 2 then if year % 4 = 0 && (year % 100 ≠ 0 || year % 400 = 0) then 29 else 28
  else if month = 4 || month = 6 || month = 9 || month = 11 then 30 else 31

/-- `RE_DATETIME`: a date with an optional time, and whether the calendar has it. -/
def dateTime (src : List Char) : Option (Bool × List Char) := do
  let (year, rest) ← fixedDigits 4 0 9999 src
  let (month, rest) ← fixedDigits 2 1 12 (← expectChar '-' rest)
  let (day, rest) ← fixedDigits 2 1 31 (← expectChar '-' rest)
  let valid := decide (1 ≤ year) && decide (day ≤ daysInMonth year month)
  match rest with
  | sep :: time =>
    if sep = 'T' || sep = 't' || sep = ' ' then
      match clockTime time with
      | some after => some (valid, timeOffset after)
      | none => some (valid, rest)
    else some (valid, rest)
  | [] => some (valid, rest)

/-- The literal text between two places of the source. -/
def textUpTo (src rest : List Char) : String := String.ofList (src.take (src.length - rest.length))

/-- Dates, times, numbers and the special floats, in the order they are tried. -/
def parseOther (src : List Char) : Except TomlError (Value × List Char) :=
  match dateTime src with
  | some (true, rest) => .ok (.moment (textUpTo src rest), rest)
  | some (false, _) => .error .invalidDate
  | none =>
    match clockTime src with
    | some rest => .ok (.moment (textUpTo src rest), rest)
    | none =>
      match parseNumber src with
      | some r => .ok r
      | none =>
        if src.take 3 ∈ ["inf".toList, "nan".toList] then .ok (.float (String.ofList (src.take 3)), src.drop 3)
        else if src.take 4 ∈ ["-inf".toList, "+inf".toList, "-nan".toList, "+nan".toList] then
          .ok (.float (String.ofList (src.take 4)), src.drop 4)
        else .error .invalidValue

end McpSsh.Toml
