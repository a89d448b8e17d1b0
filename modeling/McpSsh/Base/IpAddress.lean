import McpSsh.Base.Text
import McpSsh.Base.Traverse
import Mathlib.Algebra.GroupWithZero.Nat
import Mathlib.Data.List.Induction
import Mathlib.Data.List.Nodup

/-!
# Addresses and networks of the internet protocol

The textual forms of IPv4 and IPv6 addresses and of networks, as the `ipaddress` module
of Python 3.11 reads and writes them. An address is a number of the bits of its version;
a network is an aligned block of them. An IPv4 address is read back from its text.
-/

set_option autoImplicit false

namespace McpSsh.Base.Ip

/-! ## Places of a number -/

/-- The last `k` places of a number in a base, the highest first. -/
def places (base : Nat) : Nat → Nat → List Nat
  | 0, _ => []
  | k + 1, n => places base k (n / base) ++ [n % base]

/-- The number with these places. -/
def ofPlaces (base : Nat) (ds : List Nat) : Nat := ds.foldl (fun n d => n * base + d) 0

theorem ofPlaces_concat (base : Nat) (ds : List Nat) (d : Nat) :
    ofPlaces base (ds ++ [d]) = ofPlaces base ds * base + d := by
  simp [ofPlaces]

theorem ofPlaces_places {base k n : Nat} (small : n < base ^ k) : ofPlaces base (places base k n) = n := by
  induction k generalizing n with
  | zero =>
    have zero : n = 0 := by simpa using small
    rw [zero]
    rfl
  | succ k ih =>
    have fits : n / base < base ^ k := Nat.div_lt_of_lt_mul (by rwa [← Nat.pow_succ'])
    rw [places, ofPlaces_concat, ih fits, Nat.div_add_mod']

theorem length_places (base k n : Nat) : (places base k n).length = k := by
  induction k generalizing n with
  | zero => rfl
  | succ k ih => simp [places, ih]

theorem lt_of_mem_places {base k n d : Nat} (positive : 0 < base) (member : d ∈ places base k n) : d < base := by
  induction k generalizing n with
  | zero => cases member
  | succ k ih =>
    rcases List.mem_append.mp member with higher | last
    · exact ih higher
    · rw [List.mem_singleton.mp last]
      exact Nat.mod_lt n positive

theorem ofPlaces_lt {base : Nat} {ds : List Nat} (each : ∀ d ∈ ds, d < base) : ofPlaces base ds < base ^ ds.length := by
  induction ds using List.reverseRecOn with
  | nil => simp [ofPlaces]
  | append_singleton ds d ih =>
    have lower := ih fun d' member => each d' (List.mem_append_left _ member)
    have last := each d (by simp)
    calc ofPlaces base (ds ++ [d]) = ofPlaces base ds * base + d := ofPlaces_concat base ds d
      _ < (ofPlaces base ds + 1) * base := by rw [Nat.add_mul, Nat.one_mul]; omega
      _ ≤ base ^ ds.length * base := Nat.mul_le_mul_right base lower
      _ = base ^ (ds ++ [d]).length := by rw [List.length_append, List.length_singleton, Nat.pow_succ]

/-! ## Addresses -/

inductive Version where
  | v4
  | v6
deriving DecidableEq

/-- The length of an address. -/
def Version.bits : Version → Nat
  | .v4 => 32
  | .v6 => 128

/-- An address. -/
structure Address where
  version : Version
  value : Nat
  inRange : value < 2 ^ version.bits

/-- `_parse_octet`. -/
def octet (piece : List Char) : Option Nat :=
  if piece.isEmpty || !(piece.all Char.isDigit) then none
  else if 3 < piece.length then none
  else if piece ≠ ['0'] ∧ piece.head? = some '0' then none
  else
    let n := Nat.ofDigitChars 10 piece 0
    if 255 < n then none else some n

/-- `_ip_int_from_string` of an IPv4 address, as its octets. -/
def octets (text : List Char) : Option (List Nat) :=
  let pieces := text.splitOn '.'
  if pieces.length ≠ 4 then none else pieces.mapM octet

def isHex (c : Char) : Bool := c.isDigit || ('a' ≤ c && c ≤ 'f') || ('A' ≤ c && c ≤ 'F')

def hexDigit (c : Char) : Nat :=
  if c.isDigit then c.toNat - '0'.toNat
  else if 'a' ≤ c then c.toNat - 'a'.toNat + 10
  else c.toNat - 'A'.toNat + 10

theorem hexDigit_lt {c : Char} (hex : isHex c = true) : hexDigit c < 16 := by
  simp only [isHex, Char.isDigit, Bool.or_eq_true, Bool.and_eq_true, decide_eq_true_eq, Char.le_def, UInt32.le_iff_toNat_le] at hex
  simp only [hexDigit, Char.isDigit, Bool.and_eq_true, decide_eq_true_eq, Char.le_def, UInt32.le_iff_toNat_le]
  have codes : '0'.val.toNat = 48 ∧ '9'.val.toNat = 57 ∧ 'a'.val.toNat = 97 ∧ 'f'.val.toNat = 102 ∧
      'A'.val.toNat = 65 ∧ 'F'.val.toNat = 70 := by decide
  simp only [Char.toNat]
  split
  · omega
  · split
    · omega
    · omega

/-- `_parse_hextet`. -/
def hextet (piece : List Char) : Option Nat :=
  if piece.isEmpty || !(piece.all isHex) then none
  else if 4 < piece.length then none
  else some (ofPlaces 16 (piece.map hexDigit))

/-- `'%x' % n`. -/
def hexText (n : Nat) : List Char := Nat.toDigits 16 n

/-- An IPv4 address as the last part stands for two hextets. -/
def expandTail (parts : List (List Char)) : Option (List (List Char)) :=
  match parts.getLast? with
  | some last =>
    if '.' ∈ last then do
      let n := ofPlaces 256 (← octets last)
      some (parts.dropLast ++ [hexText (n / 65536), hexText (n % 65536)])
    else some parts
  | none => some parts

/-- The empty parts that are neither the first nor the last. -/
def gaps (parts : List (List Char)) : List Nat :=
  (List.range parts.length).filter fun i => 1 ≤ i ∧ i < parts.length - 1 ∧ parts[i]? = some []

/-- The first `hi` and the last `lo` parts, with zeros for the hextets between them. -/
def hextetsAround (parts : List (List Char)) (hi lo : Nat) : Option (List Nat) :=
  if 8 < hi + lo + 1 then none
  else do
    let front ← (parts.take hi).mapM hextet
    let back ← (parts.drop (parts.length - lo)).mapM hextet
    some (front ++ List.replicate (8 - (hi + lo)) 0 ++ back)

/-- The hextets of the parts between the colons. -/
def hextetsOfParts (parts : List (List Char)) : Option (List Nat) :=
  match gaps parts with
  | [] => if parts.length ≠ 8 then none else parts.mapM hextet
  | [skip] =>
    let leading := parts.head? = some []
    let trailing := parts.getLast? = some []
    let hi := if leading then skip - 1 else skip
    let lo := if trailing then parts.length - skip - 2 else parts.length - skip - 1
    -- a colon at either end is one of two
    if leading ∧ hi ≠ 0 ∨ trailing ∧ lo ≠ 0 then none else hextetsAround parts hi lo
  | _ => none

/-- `_split_scope_id`, without the scope. -/
def dropScope (text : List Char) : Option (List Char) :=
  match text.splitOn '%' with
  | [addr] => some addr
  | [addr, scope] => if scope.isEmpty then none else some addr
  | _ => none

/-- `_ip_int_from_string` of an IPv6 address, as its hextets. -/
def hextets (text : List Char) : Option (List Nat) := do
  let parts := (← dropScope text).splitOn ':'
  if parts.length < 3 then none
  else
    let parts ← expandTail parts
    if 9 < parts.length then none else hextetsOfParts parts

theorem octet_lt {piece : List Char} {n : Nat} (read : octet piece = some n) : n < 256 := by
  simp only [octet, Option.ite_none_left_eq_some, Option.some.injEq] at read
  omega

theorem octets_spec {text : List Char} {ds : List Nat} (read : octets text = some ds) :
    ds.length = 4 ∧ ∀ d ∈ ds, d < 256 := by
  simp only [octets] at read
  split at read
  · cases read
  · rename_i four
    constructor
    · rw [length_of_mapM read]
      omega
    · intro d member
      obtain ⟨piece, -, value⟩ := mem_of_mapM read member
      exact octet_lt value

theorem hextet_lt {piece : List Char} {n : Nat} (read : hextet piece = some n) : n < 65536 := by
  simp only [hextet, Option.ite_none_left_eq_some, Option.some.injEq, Bool.or_eq_true, Bool.not_eq_true', not_or,
    Bool.not_eq_false, List.all_eq_true] at read
  obtain ⟨⟨-, hex⟩, short, rfl⟩ := read
  have bound : ofPlaces 16 (piece.map hexDigit) < 16 ^ (piece.map hexDigit).length := by
    apply ofPlaces_lt
    intro d member
    obtain ⟨c, inside, rfl⟩ := List.mem_map.mp member
    exact hexDigit_lt (hex c inside)
  rw [List.length_map] at bound
  calc ofPlaces 16 (piece.map hexDigit) < 16 ^ piece.length := bound
    _ ≤ 16 ^ 4 := Nat.pow_le_pow_right (by decide) (by omega)

theorem hextets_lt {pieces : List (List Char)} {hs : List Nat} (read : pieces.mapM hextet = some hs) :
    ∀ h ∈ hs, h < 65536 := by
  intro h member
  obtain ⟨piece, -, value⟩ := mem_of_mapM read member
  exact hextet_lt value

theorem hextetsAround_spec {parts : List (List Char)} {hi lo : Nat} {hs : List Nat}
    (read : hextetsAround parts hi lo = some hs) (fits : hi + lo ≤ parts.length) :
    hs.length = 8 ∧ ∀ h ∈ hs, h < 65536 := by
  unfold hextetsAround at read
  split at read
  · cases read
  obtain ⟨front, readFront, rest⟩ := Option.bind_eq_some_iff.mp read
  obtain ⟨back, readBack, same⟩ := Option.bind_eq_some_iff.mp rest
  cases same
  constructor
  · have frontLength := length_of_mapM readFront
    have backLength := length_of_mapM readBack
    simp only [List.length_take, List.length_drop] at frontLength backLength
    simp only [List.length_append, List.length_replicate, frontLength, backLength]
    omega
  · intro h member
    simp only [List.mem_append, List.mem_replicate] at member
    rcases member with (inFront | ⟨-, rfl⟩) | inBack
    · exact hextets_lt readFront h inFront
    · decide
    · exact hextets_lt readBack h inBack

theorem hextetsOfParts_spec {parts : List (List Char)} {hs : List Nat} (read : hextetsOfParts parts = some hs) :
    hs.length = 8 ∧ ∀ h ∈ hs, h < 65536 := by
  unfold hextetsOfParts at read
  split at read
  · split at read
    · cases read
    · rename_i eight
      have length := length_of_mapM read
      exact ⟨by omega, hextets_lt read⟩
  · rename_i skip only
    have gap : skip ∈ gaps parts := only ▸ List.mem_singleton_self skip
    simp only [gaps, List.mem_filter, List.mem_range] at gap
    simp only [Option.ite_none_left_eq_some] at read
    apply hextetsAround_spec read.2
    split <;> split <;> omega
  · cases read

theorem hextets_spec {text : List Char} {hs : List Nat} (read : hextets text = some hs) :
    hs.length = 8 ∧ ∀ h ∈ hs, h < 65536 := by
  unfold hextets at read
  obtain ⟨addr, -, rest⟩ := Option.bind_eq_some_iff.mp read
  simp only [Option.ite_none_left_eq_some] at rest
  obtain ⟨parts, -, last⟩ := Option.bind_eq_some_iff.mp rest.2
  simp only [Option.ite_none_left_eq_some] at last
  exact hextetsOfParts_spec last.2

theorem octet_chars {piece : List Char} {n : Nat} (read : octet piece = some n) : ∀ c ∈ piece, c.isDigit = true := by
  simp only [octet, Option.ite_none_left_eq_some, Bool.or_eq_true, Bool.not_eq_true', not_or, Bool.not_eq_false,
    List.all_eq_true] at read
  exact read.1.2

theorem octets_chars {text : List Char} {ds : List Nat} (read : octets text = some ds) :
    ∀ c ∈ text, c.isDigit = true ∨ c = '.' := by
  intro c member
  simp only [octets, Option.ite_none_left_eq_some] at read
  by_cases dot : c = '.'
  · exact .inr dot
  · obtain ⟨piece, listed, inside⟩ := exists_mem_splitOnP (p := (· == '.')) member (by simpa using dot)
    obtain ⟨n, value⟩ := exists_of_mapM read.2 listed
    exact .inl (octet_chars value c inside)

/-- `IPv4Address`. -/
def parseV4 (text : List Char) : Option Address :=
  (octets text).pmap (fun ds small => ⟨.v4, ofPlaces 256 ds, small⟩) fun ds read => by
    obtain ⟨four, small⟩ := octets_spec read
    simpa [four, Version.bits] using ofPlaces_lt small

/-- `IPv6Address`, without the scope. -/
def parseV6 (text : List Char) : Option Address :=
  if '/' ∈ text then none
  else (hextets text).pmap (fun hs small => ⟨.v6, ofPlaces 65536 hs, small⟩) fun hs read => by
    obtain ⟨eight, small⟩ := hextets_spec read
    simpa [eight, Version.bits] using ofPlaces_lt small

/-- `ip_address`. -/
def parseAddress (text : List Char) : Option Address := (parseV4 text).or (parseV6 text)

/-! ## The characters of an address -/

theorem hextet_chars {piece : List Char} {n : Nat} (read : hextet piece = some n) : ∀ c ∈ piece, isHex c = true := by
  simp only [hextet, Option.ite_none_left_eq_some, Bool.or_eq_true, Bool.not_eq_true', not_or, Bool.not_eq_false,
    List.all_eq_true] at read
  exact read.1.2

theorem hextets_hex {parts : List (List Char)} {hs : List Nat} (read : parts.mapM hextet = some hs) :
    ∀ part ∈ parts, ∀ c ∈ part, isHex c = true := by
  intro part listed
  obtain ⟨n, value⟩ := exists_of_mapM read listed
  exact hextet_chars value

theorem hextetsAround_chars {parts : List (List Char)} {hi lo : Nat} {hs : List Nat}
    (read : hextetsAround parts hi lo = some hs) {i : Nat} (place : i < parts.length)
    (outside : i < hi ∨ parts.length - lo ≤ i) : ∀ c ∈ parts[i], isHex c = true := by
  unfold hextetsAround at read
  split at read
  · cases read
  obtain ⟨front, readFront, rest⟩ := Option.bind_eq_some_iff.mp read
  obtain ⟨back, readBack, -⟩ := Option.bind_eq_some_iff.mp rest
  rcases outside with before | behind
  · exact hextets_hex readFront _ (List.mem_take_iff_getElem.mpr ⟨i, by omega, rfl⟩)
  · refine hextets_hex readBack _ (List.mem_drop_iff_getElem.mpr ⟨i - (parts.length - lo), by omega, ?_⟩)
    congr 1
    omega

/-- The parts that are read make hextets, and the others are empty. -/
theorem hextetsOfParts_chars {parts : List (List Char)} {hs : List Nat} (read : hextetsOfParts parts = some hs) :
    ∀ part ∈ parts, ∀ c ∈ part, isHex c = true := by
  unfold hextetsOfParts at read
  split at read
  · split at read
    · cases read
    · exact hextets_hex read
  · rename_i skip only
    have gap : skip ∈ gaps parts := only ▸ List.mem_singleton_self skip
    simp only [gaps, List.mem_filter, List.mem_range, decide_eq_true_eq] at gap
    obtain ⟨-, inner, before, empty⟩ := gap
    simp only [Option.ite_none_left_eq_some, not_or, not_and, not_not] at read
    obtain ⟨⟨none, none'⟩, read⟩ := read
    intro part listed c inside
    obtain ⟨i, place, rfl⟩ := List.mem_iff_getElem.mp listed
    have visible : ∀ j, parts[j]? = some [] → i ≠ j := by
      rintro j blank rfl
      rw [List.getElem?_eq_getElem place] at blank
      simp [Option.some.inj blank] at inside
    have gapless := visible skip empty
    have first := visible 0
    have last := visible (parts.length - 1)
    rw [← List.head?_eq_getElem?] at first
    rw [← List.getLast?_eq_getElem?] at last
    refine hextetsAround_chars read place ?_ c inside
    split_ifs at none none' ⊢ with leading trailing trailing
    · have := first leading
      have := last trailing
      have := none leading
      have := none' trailing
      omega
    · have := first leading
      have := none leading
      omega
    · have := last trailing
      have := none' trailing
      omega
    · omega
  · cases read

/-- A text without a scope stays as it is. -/
theorem dropScope_plain {text : List Char} (plain : '%' ∉ text) : dropScope text = some text := by
  rw [dropScope, List.splitOn_eq_singleton plain]

/-- A part is kept, or it is an IPv4 address. -/
theorem expandTail_chars {parts parts' : List (List Char)} (expand : expandTail parts = some parts') :
    ∀ part ∈ parts, part ∈ parts' ∨ ∀ c ∈ part, c.isDigit = true ∨ c = '.' := by
  intro part listed
  unfold expandTail at expand
  split at expand
  · rename_i last tail
    split at expand
    · obtain ⟨ds, read, same⟩ := Option.bind_eq_some_iff.mp expand
      rw [← List.dropLast_append_getLast? last tail, List.mem_append, List.mem_singleton] at listed
      rcases listed with front | rfl
      · rw [← Option.some.inj same]
        exact .inl (List.mem_append_left _ front)
      · exact .inr (octets_chars read)
    · rw [← Option.some.inj expand]
      exact .inl listed
  · rw [← Option.some.inj expand]
    exact .inl listed

theorem hextets_chars {text : List Char} {hs : List Nat} (read : hextets text = some hs) (plain : '%' ∉ text) :
    ∀ c ∈ text, isHex c = true ∨ c = ':' ∨ c = '.' := by
  unfold hextets at read
  obtain ⟨addr, scope, rest⟩ := Option.bind_eq_some_iff.mp read
  rw [dropScope_plain plain, Option.some.injEq] at scope
  subst scope
  simp only [Option.ite_none_left_eq_some] at rest
  obtain ⟨parts, expand, last⟩ := Option.bind_eq_some_iff.mp rest.2
  simp only [Option.ite_none_left_eq_some] at last
  have chars := hextetsOfParts_chars last.2
  intro c member
  by_cases colon : c = ':'
  · exact .inr (.inl colon)
  · obtain ⟨part, listed, inside⟩ := exists_mem_splitOnP (p := (· == ':')) member (by simpa using colon)
    rcases expandTail_chars expand part listed with kept | digits
    · exact .inl (chars part kept c inside)
    · rcases digits c inside with digit | dot
      · exact .inl (by simp [isHex, digit])
      · exact .inr (.inr dot)

/-! ## Scopes -/

theorem dropScope_scoped {addr scope : List Char} (front : '%' ∉ addr) (behind : '%' ∉ scope) (nonempty : scope ≠ []) :
    dropScope (addr ++ '%' :: scope) = some addr := by
  rw [dropScope, List.splitOn_append_cons_self_of_not_mem front, List.splitOn_eq_singleton behind]
  simp [nonempty]

theorem of_dropScope {text addr : List Char} (read : dropScope text = some addr) (percent : '%' ∈ text) :
    ∃ scope, text = addr ++ '%' :: scope ∧ scope ≠ [] ∧ '%' ∉ addr ∧ '%' ∉ scope := by
  have whole : ['%'].intercalate (text.splitOn '%') = text := List.intercalate_splitOn '%'
  have pieces : ∀ piece ∈ text.splitOn '%', '%' ∉ piece := by
    intro piece listed inside
    simpa using not_mem_of_mem_splitOnP listed '%' inside
  unfold dropScope at read
  split at read
  · rename_i only split
    rw [split] at whole pieces
    rw [List.intercalate_singleton] at whole
    exact absurd percent (whole ▸ pieces only (by simp))
  · rename_i front scope split
    rw [split] at whole pieces
    simp only [Option.ite_none_left_eq_some, Option.some.injEq] at read
    obtain ⟨nonempty, rfl⟩ := read
    refine ⟨scope, ?_, by simpa using nonempty, pieces front (by simp), pieces scope (by simp)⟩
    rw [← whole, List.intercalate_cons_cons, List.intercalate_singleton, List.append_assoc, List.singleton_append]
  · cases read

theorem hextets_scoped {addr scope : List Char} (front : '%' ∉ addr) (behind : '%' ∉ scope) (nonempty : scope ≠ []) :
    hextets (addr ++ '%' :: scope) = hextets addr := by
  rw [hextets, hextets, dropScope_scoped front behind nonempty, dropScope_plain front]

/-- An address with a scope: any text without `%` and `/` behind a `%`. -/
def ScopedText (text : List Char) (ip : Address) : Prop :=
  ∃ addr scope, text = addr ++ '%' :: scope ∧ scope ≠ [] ∧ '%' ∉ addr ∧ '%' ∉ scope ∧ '/' ∉ scope ∧ parseV6 addr = some ip

theorem parseV4_chars {text : List Char} {ip : Address} (read : parseV4 text = some ip) :
    ∀ c ∈ text, c.isDigit = true ∨ c = '.' := by
  obtain ⟨ds, -, read, -⟩ := (Option.pmap_eq_some_iff ..).mp read
  exact octets_chars read

theorem parseV4_percent {text : List Char} (percent : '%' ∈ text) : parseV4 text = none := by
  cases read : parseV4 text with
  | none => rfl
  | some ip => exact absurd (parseV4_chars read '%' percent) (by decide)

/-- An IPv6 address holds colons. -/
theorem parseV6_plain {text : List Char} (plain : ∀ c ∈ text, c.isDigit = true ∨ c = '.') : parseV6 text = none := by
  have without : ∀ sep : Char, sep.isDigit = false → sep ≠ '.' → text.splitOn sep = [text] := by
    intro sep digit dot
    refine List.splitOn_eq_singleton ?_
    intro inside
    rcases plain sep inside with isDigit | rfl
    · rw [digit] at isDigit
      cases isDigit
    · exact dot rfl
  have numbers : hextets text = none := by
    simp [hextets, dropScope, without '%' (by decide) (by decide), without ':' (by decide) (by decide)]
  simp [parseV6, numbers]

theorem parseV6_scoped {addr scope : List Char} (front : '%' ∉ addr) (behind : '%' ∉ scope) (nonempty : scope ≠ [])
    (slash : '/' ∉ scope) : parseV6 (addr ++ '%' :: scope) = parseV6 addr := by
  have slashes : '/' ∈ addr ++ '%' :: scope ↔ '/' ∈ addr := by simp [slash]
  simp only [parseV6, slashes, hextets_scoped front behind nonempty]

/-- The addresses with a scope are those that hold a `%`. -/
theorem scopedText_iff {text : List Char} {ip : Address} :
    ScopedText text ip ↔ '%' ∈ text ∧ parseAddress text = some ip := by
  constructor
  · rintro ⟨addr, scope, rfl, nonempty, front, behind, slash, read⟩
    have percent : '%' ∈ addr ++ '%' :: scope := by simp
    exact ⟨percent, by rw [parseAddress, parseV4_percent percent, parseV6_scoped front behind nonempty slash, read]; rfl⟩
  · rintro ⟨percent, read⟩
    rw [parseAddress, parseV4_percent percent, Option.none_or] at read
    have slash : '/' ∉ text := fun slash => by simp [parseV6, slash] at read
    obtain ⟨hs, -, numbers, -⟩ := (Option.pmap_eq_some_iff ..).mp ((if_neg slash).symm.trans read)
    obtain ⟨addr, drop, -⟩ := Option.bind_eq_some_iff.mp numbers
    obtain ⟨scope, rfl, nonempty, front, behind⟩ := of_dropScope drop percent
    have slash : '/' ∉ scope := fun inside => slash (by simp [inside])
    rw [parseV6_scoped front behind nonempty slash] at read
    exact ⟨addr, scope, rfl, nonempty, front, behind, slash, read⟩

/-- Without a scope an address is written in hexadecimal digits, colons and dots. -/
theorem parseV6_chars {text : List Char} {ip : Address} (read : parseV6 text = some ip) (plain : '%' ∉ text) :
    ∀ c ∈ text, isHex c = true ∨ c = ':' ∨ c = '.' := by
  simp only [parseV6, Option.ite_none_left_eq_some, Option.pmap_eq_some_iff] at read
  obtain ⟨-, hs, -, numbers, -⟩ := read
  exact hextets_chars numbers plain

theorem parseAddress_chars {text : List Char} {ip : Address} (read : parseAddress text = some ip) (plain : '%' ∉ text) :
    ∀ c ∈ text, isHex c = true ∨ c = ':' ∨ c = '.' := by
  rcases Option.or_eq_some_iff.mp read with v4 | ⟨-, v6⟩
  · intro c member
    rcases parseV4_chars v4 c member with digit | dot
    · exact .inl (by simp [isHex, digit])
    · exact .inr (.inr dot)
  · exact parseV6_chars v6 plain

/-- `is_loopback`. -/
def Address.isLoopback (a : Address) : Bool :=
  match a.version with
  | .v4 => a.value / 2 ^ 24 = 127
  | .v6 => a.value = 1

/-- `is_link_local`. -/
def Address.isLinkLocal (a : Address) : Bool :=
  match a.version with
  | .v4 => a.value / 2 ^ 16 = 169 * 256 + 254
  | .v6 => a.value / 2 ^ 118 = 0xfe80 / 64

/-- `is_multicast`. -/
def Address.isMulticast (a : Address) : Bool :=
  match a.version with
  | .v4 => a.value / 2 ^ 28 = 224 / 16
  | .v6 => a.value / 2 ^ 120 = 255

/-! ## Texts of addresses -/

/-- `_compress_hextets` finds the first longest run of zeros: where it starts, and its
length. `len` zeros stand before the hextet at `index`. -/
def zeroRun (index len : Nat) (best : Nat × Nat) : List Nat → Nat × Nat
  | [] => best
  | h :: rest =>
    if h = 0 then
      let best := if best.2 < len + 1 then (index - len, len + 1) else best
      zeroRun (index + 1) (len + 1) best rest
    else zeroRun (index + 1) 0 best rest

/-- `_compress_hextets`. -/
def compress (hs : List Nat) : List (List Char) :=
  let (start, len) := zeroRun 0 0 (0, 0) hs
  let texts := hs.map hexText
  if 1 < len then
    (if start = 0 then [[]] else []) ++ texts.take start ++ [[]] ++ texts.drop (start + len) ++
      (if start + len = hs.length then [[]] else [])
  else texts

/-- The text of the address with this value. -/
def textOf : Version → Nat → List Char
  | .v4, n => ['.'].intercalate ((places 256 4 n).map fun d => Nat.toDigits 10 d)
  | .v6, n => [':'].intercalate (compress (places 65536 8 n))

theorem octet_digits : ∀ d < 256, octet (Nat.toDigits 10 d) = some d := by
  decide +kernel

theorem octets_textOf (n : Nat) : octets (textOf .v4 n) = some (places 256 4 n) := by
  have pieces : (textOf .v4 n).splitOn '.' = (places 256 4 n).map fun d => Nat.toDigits 10 d := by
    apply List.splitOn_intercalate
    · intro piece member
      obtain ⟨d, -, rfl⟩ := List.mem_map.mp member
      intro dot
      exact absurd (Nat.isDigit_of_mem_toDigits (by decide) (by decide) dot) (by decide)
    · rw [← List.length_pos_iff, List.length_map, length_places]
      decide
  simp only [octets, pieces, List.length_map, length_places, ne_eq, not_true_eq_false, if_false]
  rw [mapM_eq_some_iff, List.map_map]
  apply List.map_congr_left
  intro d member
  exact octet_digits d (lt_of_mem_places (by decide) member)

/-- **An IPv4 address is read back from its text.** -/
theorem parseV4_textOf {n : Nat} (small : n < 2 ^ Version.v4.bits) :
    parseV4 (textOf .v4 n) = some ⟨.v4, n, small⟩ := by
  have value : ofPlaces 256 (places 256 4 n) = n := ofPlaces_places small
  rw [parseV4, Option.pmap_eq_some_iff]
  refine ⟨places 256 4 n, by rwa [value], octets_textOf n, ?_⟩
  simp only [value]

theorem textOf_v4_inj {m n : Nat} (smallM : m < 2 ^ Version.v4.bits) (smallN : n < 2 ^ Version.v4.bits)
    (same : textOf .v4 m = textOf .v4 n) : m = n := by
  have read := parseV4_textOf smallM
  rw [same, parseV4_textOf smallN] at read
  exact (congrArg Address.value (Option.some.inj read)).symm

/-! ## Networks -/

/-- A block of addresses with the same first `prefixLen` bits. -/
structure Network where
  version : Version
  address : Nat
  prefixLen : Nat
  fits : prefixLen ≤ version.bits
  inRange : address < 2 ^ version.bits
  aligned : 2 ^ (version.bits - prefixLen) ∣ address

namespace Network

/-- The network around an address: its other bits are masked. -/
def around (a : Address) (prefixLen : Nat) (fits : prefixLen ≤ a.version.bits) : Network where
  version := a.version
  address := a.value / 2 ^ (a.version.bits - prefixLen) * 2 ^ (a.version.bits - prefixLen)
  prefixLen
  fits
  inRange := Nat.lt_of_le_of_lt (Nat.div_mul_le_self _ _) a.inRange
  aligned := Nat.dvd_mul_left _ _

/-- `num_addresses`. -/
def size (net : Network) : Nat := 2 ^ (net.version.bits - net.prefixLen)

/-- The first host address and their number: all addresses of a network of one or two,
else those behind the network address and, for IPv4, before the broadcast address. -/
def hostRange (net : Network) : Nat × Nat :=
  if 2 < net.size then
    match net.version with
    | .v4 => (net.address + 1, net.size - 2)
    | .v6 => (net.address + 1, net.size - 1)
  else (net.address, net.size)

/-- The texts of the host addresses. -/
def hosts (net : Network) : List (List Char) :=
  (List.range' net.hostRange.1 net.hostRange.2).map (textOf net.version)

theorem address_add_size (net : Network) : net.address + net.size ≤ 2 ^ net.version.bits := by
  obtain ⟨version, address, prefixLen, fits, inRange, aligned⟩ := net
  obtain ⟨block, rfl⟩ := aligned
  have split : 2 ^ version.bits = 2 ^ (version.bits - prefixLen) * 2 ^ prefixLen := by
    rw [← Nat.pow_add, Nat.sub_add_cancel fits]
  have below : block < 2 ^ prefixLen := by
    rw [split] at inRange
    exact Nat.lt_of_mul_lt_mul_left inRange
  calc 2 ^ (version.bits - prefixLen) * block + 2 ^ (version.bits - prefixLen)
      = 2 ^ (version.bits - prefixLen) * (block + 1) := by rw [Nat.mul_add, Nat.mul_one]
    _ ≤ 2 ^ (version.bits - prefixLen) * 2 ^ prefixLen := Nat.mul_le_mul_left _ below
    _ = 2 ^ version.bits := split.symm

theorem hostRange_le (net : Network) : net.hostRange.1 + net.hostRange.2 ≤ 2 ^ net.version.bits := by
  have bound := net.address_add_size
  unfold hostRange
  split
  · split <;> simp only <;> omega
  · exact bound

/-- The host addresses of an IPv4 network have different texts. -/
theorem nodup_hosts {net : Network} (v4 : net.version = .v4) : net.hosts.Nodup := by
  have bound := net.hostRange_le
  rw [v4] at bound
  rw [hosts, v4]
  apply List.Nodup.map_on _ List.nodup_range'
  intro m inM n inN same
  rw [List.mem_range'_1] at inM inN
  exact textOf_v4_inj (by omega) (by omega) same

end Network

/-- `_prefix_from_prefix_string`; `int` refuses more than 4300 digits. -/
def prefixLength (bits : Nat) (mask : List Char) : Option Nat :=
  if mask.isEmpty || !(mask.all Char.isDigit) then none
  else if 4300 < mask.length then none
  else
    let n := Nat.ofDigitChars 10 mask 0
    if bits < n then none else some n

/-- `_prefix_from_ip_int`. -/
def maskLength (value : Nat) : Option Nat := (List.range 33).find? fun n => value = 2 ^ 32 - 2 ^ (32 - n)

/-- `_prefix_from_ip_string`: a netmask, or a hostmask. -/
def prefixOfMask (mask : List Char) : Option Nat := do
  let value := ofPlaces 256 (← octets mask)
  (maskLength value).or (maskLength (2 ^ 32 - 1 - value))

/-- `_make_netmask`. -/
def netmask : Version → List Char → Option Nat
  | .v4, mask => (prefixLength 32 mask).or (prefixOfMask mask)
  | .v6, mask => prefixLength 128 mask

theorem prefixLength_le {bits n : Nat} {mask : List Char} (read : prefixLength bits mask = some n) : n ≤ bits := by
  simp only [prefixLength, Option.ite_none_left_eq_some, Option.some.injEq] at read
  omega

theorem maskLength_le {value n : Nat} (found : maskLength value = some n) : n ≤ 32 := by
  have listed := List.mem_range.mp (List.mem_of_find?_eq_some found)
  omega

theorem netmask_le {version : Version} {mask : List Char} {n : Nat} (read : netmask version mask = some n) :
    n ≤ version.bits := by
  cases version with
  | v6 => exact prefixLength_le read
  | v4 =>
    rcases Option.or_eq_some_iff.mp read with length | ⟨-, dotted⟩
    · exact prefixLength_le length
    · obtain ⟨ds, -, found⟩ := Option.bind_eq_some_iff.mp dotted
      rcases Option.or_eq_some_iff.mp found with net | ⟨-, host⟩
      · exact maskLength_le net
      · exact maskLength_le host

/-- `IPv4Network` and `IPv6Network`, given how the address is read, with `strict=False`. -/
def networkOf (parse : List Char → Option Address) (text : List Char) : Option Network :=
  match text.splitOn '/' with
  | [addr] => (parse addr).map fun a => .around a a.version.bits (Nat.le_refl _)
  | [addr, mask] => do
    let a ← parse addr
    (netmask a.version mask).pmap (fun n fits => .around a n fits) fun _ read => netmask_le read
  | _ => none

/-- `ip_network(text, strict=False)`. -/
def parseNetwork (text : List Char) : Option Network := (networkOf parseV4 text).or (networkOf parseV6 text)

theorem textOf_v4_chars (n : Nat) : ∀ c ∈ textOf .v4 n, c.isDigit = true ∨ c = '.' := by
  intro c member
  rcases of_mem_intercalate member with dot | ⟨piece, listed, inside⟩
  · exact .inr (List.mem_singleton.mp dot)
  · obtain ⟨d, -, rfl⟩ := List.mem_map.mp listed
    exact .inl (Nat.isDigit_of_mem_toDigits (by decide) (by decide) inside)

/-- The text of an IPv4 address and a length is read as the network around it. -/
theorem parseNetwork_textOf {n : Nat} (small : n < 2 ^ Version.v4.bits) {mask : List Char} {length : Nat}
    (plain : '/' ∉ mask) (read : netmask .v4 mask = some length) :
    parseNetwork (textOf .v4 n ++ '/' :: mask) = some (.around ⟨.v4, n, small⟩ length (netmask_le read)) := by
  have front : '/' ∉ textOf .v4 n := by
    intro inside
    rcases textOf_v4_chars n '/' inside with digit | dot
    · exact absurd digit (by decide)
    · exact absurd dot (by decide)
  have parts : (textOf .v4 n ++ '/' :: mask).splitOn '/' = [textOf .v4 n, mask] := by
    rw [List.splitOn_append_cons_self_of_not_mem front, List.splitOn_eq_singleton plain]
  rw [parseNetwork, networkOf, parts]
  simp [parseV4_textOf small, read]

end McpSsh.Base.Ip
