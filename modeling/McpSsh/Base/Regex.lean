import Mathlib.Data.List.Basic
import Mathlib.Data.List.Infix

/-!
# Regular expressions with groups

Backtracking over a list of characters: an expression leads from a spot of a text to the
spots behind its matches, the preferred one first. Repetitions are greedy. What a group
captures is part of the text, and made of the characters its classes accept.
-/

set_option autoImplicit false

namespace McpSsh.Base

inductive Regex where
  | empty
  | one (accepts : Char → Bool)
  | seq (a b : Regex)
  | alt (a b : Regex)
  /-- At most so many times, or any number of times. -/
  | many (limit : Option Nat) (a : Regex)
  | group (index : Nat) (a : Regex)
  /-- Between a word character and none. -/
  | boundary (word : Char → Bool)

namespace Regex

/-- A place in a text: what stands before it and behind it, and the groups, the last
captured first. -/
structure Spot where
  before : Option Char
  rest : List Char
  groups : List (Nat × List Char)

/-- At most `n` turns of a step that takes something, the longest way first. -/
def turns (step : Spot → List Spot) : Nat → Spot → List Spot
  | 0, s => [s]
  | n + 1, s => ((step s).filter fun t => t.rest.length < s.rest.length).flatMap (turns step n) ++ [s]

/-- The text between two spots. -/
def Spot.upTo (s t : Spot) : List Char := s.rest.take (s.rest.length - t.rest.length)

/-- The spots behind the matches. -/
def run : Regex → Spot → List Spot
  | empty, s => [s]
  | one accepts, s =>
    match s.rest with
    | [] => []
    | c :: rest => if accepts c then [{ s with before := some c, rest }] else []
  | seq a b, s => (a.run s).flatMap b.run
  | alt a b, s => a.run s ++ b.run s
  | many limit a, s => turns a.run (limit.getD s.rest.length) s
  | group index a, s => (a.run s).map fun t => { t with groups := (index, s.upTo t) :: t.groups }
  | boundary word, s => if s.before.any word != s.rest.head?.any word then [s] else []

/-- The text of a group. -/
def Spot.group (t : Spot) (index : Nat) : Option (List Char) := t.groups.lookup index

/-- `re.finditer` from a spot on, past the `skip` characters of the last match, for an
expression that does not match the empty text. -/
def findFrom (r : Regex) : Nat → Option Char → List Char → List Spot
  | _, _, [] => []
  | skip + 1, _, c :: rest => r.findFrom skip (some c) rest
  | 0, before, c :: rest =>
    match (r.run { before, rest := c :: rest, groups := [] }).head? with
    | none => r.findFrom 0 (some c) rest
    | some t => t :: r.findFrom (rest.length - t.rest.length) (some c) rest

/-- `re.finditer`. -/
def findAll (r : Regex) (text : List Char) : List Spot := r.findFrom 0 none text

/-- `re.match`. -/
def matchStart (r : Regex) (text : List Char) : Option Spot :=
  (r.run { before := none, rest := text, groups := [] }).head?

/-- `re.search`, as a test. -/
def occurs (r : Regex) (text : List Char) : Bool := !(r.findAll text).isEmpty

/-! ## Derived expressions -/

/-- `a+`. -/
def some_ (a : Regex) : Regex := seq a (many none a)

/-- `a{1,n}`. -/
def oneTo (n : Nat) (a : Regex) : Regex := seq a (many (some (n - 1)) a)

/-- `a{n}`. -/
def times : Nat → Regex → Regex
  | 0, _ => empty
  | n + 1, a => seq a (times n a)

/-- These characters. -/
def literal (text : List Char) : Regex := text.foldr (fun c r => seq (one fun d => d = c) r) empty

/-! ## What is taken -/

/-- The classes of the expression accept only such characters. -/
def Within (p : Char → Prop) : Regex → Prop
  | empty | boundary _ => True
  | one accepts => ∀ c, accepts c = true → p c
  | seq a b | alt a b => a.Within p ∧ b.Within p
  | many _ a | group _ a => a.Within p

/-- The classes of the groups accept only such characters. -/
def GroupsWithin (p : Char → Prop) : Regex → Prop
  | empty | boundary _ | one _ => True
  | seq a b | alt a b => a.GroupsWithin p ∧ b.GroupsWithin p
  | many _ a => a.GroupsWithin p
  | group _ a => a.Within p ∧ a.GroupsWithin p

/-- Only such characters stand between the spots. -/
def Takes (p : Char → Prop) (s t : Spot) : Prop := ∃ used, s.rest = used ++ t.rest ∧ ∀ c ∈ used, p c

/-- The groups hold such characters only. -/
def Spot.Captured (p : Char → Prop) (s : Spot) : Prop := ∀ g ∈ s.groups, ∀ c ∈ g.2, p c

variable {p : Char → Prop} {s t u : Spot} {r : Regex}

theorem Takes.refl (s : Spot) : Takes p s s := ⟨[], rfl, by simp⟩

theorem Takes.trans (first : Takes p s t) (second : Takes p t u) : Takes p s u := by
  obtain ⟨x, cut, each⟩ := first
  obtain ⟨y, cut', each'⟩ := second
  refine ⟨x ++ y, by rw [cut, cut', List.append_assoc], ?_⟩
  intro c member
  rcases List.mem_append.mp member with front | back
  · exact each c front
  · exact each' c back

theorem Takes.upTo (takes : Takes p s t) : ∀ c ∈ s.upTo t, p c := by
  obtain ⟨used, cut, each⟩ := takes
  have whole : s.upTo t = used := by simp [Spot.upTo, cut]
  rwa [whole]

/-- What one turn keeps, all turns keep. -/
theorem turns_keep {step : Spot → List Spot} {R : Spot → Spot → Prop} (refl : ∀ s, R s s)
    (trans : ∀ {s t u}, R s t → R t u → R s u) (turn : ∀ s, ∀ t ∈ step s, R s t) (n : Nat) :
    ∀ s, ∀ t ∈ turns step n s, R s t := by
  induction n with
  | zero =>
    intro s t member
    rw [List.mem_singleton.mp member]
    exact refl s
  | succ n ih =>
    intro s t member
    rw [turns, List.mem_append, List.mem_flatMap, List.mem_singleton] at member
    rcases member with ⟨m, first, later⟩ | rfl
    · exact trans (turn s m (List.mem_of_mem_filter first)) (ih m t later)
    · exact refl t

/-- What all classes accept, the classes of the groups accept. -/
theorem Within.groups (within : r.Within p) : r.GroupsWithin p := by
  induction r with
  | empty | one | boundary => trivial
  | seq a b iha ihb | alt a b iha ihb => exact ⟨iha within.1, ihb within.2⟩
  | many limit a ih => exact ih within
  | group index a ih => exact ⟨within, ih within⟩

/-- **A match takes characters that the classes accept.** -/
theorem run_takes (within : r.Within p) : ∀ s, ∀ t ∈ r.run s, Takes p s t := by
  induction r with
  | empty =>
    intro s t member
    rw [List.mem_singleton.mp member]
    exact .refl s
  | one accepts =>
    intro s t member
    rw [run] at member
    split at member
    · cases member
    · rename_i c rest text
      split at member
      · rename_i accepted
        rw [List.mem_singleton.mp member]
        exact ⟨[c], text, by simpa using within c accepted⟩
      · cases member
  | seq a b iha ihb =>
    intro s t member
    obtain ⟨m, first, second⟩ := List.mem_flatMap.mp member
    exact (iha within.1 s m first).trans (ihb within.2 m t second)
  | alt a b iha ihb =>
    intro s t member
    rcases List.mem_append.mp member with left | right
    · exact iha within.1 s t left
    · exact ihb within.2 s t right
  | many limit a ih =>
    intro s t member
    exact turns_keep .refl .trans (ih within) _ s t member
  | group index a ih =>
    intro s t member
    obtain ⟨m, inner, rfl⟩ := List.mem_map.mp member
    exact ih within s m inner
  | boundary word =>
    intro s t member
    rw [run] at member
    split at member
    · rw [List.mem_singleton.mp member]
      exact .refl s
    · cases member

/-- **A match captures characters that the classes of its groups accept.** -/
theorem run_captured (within : r.GroupsWithin p) : ∀ s, ∀ t ∈ r.run s, s.Captured p → t.Captured p := by
  induction r with
  | empty =>
    intro s t member
    rw [List.mem_singleton.mp member]
    exact id
  | one accepts =>
    intro s t member
    rw [run] at member
    split at member
    · cases member
    · split at member
      · rw [List.mem_singleton.mp member]
        exact id
      · cases member
  | seq a b iha ihb =>
    intro s t member captured
    obtain ⟨m, first, second⟩ := List.mem_flatMap.mp member
    exact ihb within.2 m t second (iha within.1 s m first captured)
  | alt a b iha ihb =>
    intro s t member
    rcases List.mem_append.mp member with left | right
    · exact iha within.1 s t left
    · exact ihb within.2 s t right
  | many limit a ih =>
    intro s t member
    exact turns_keep (R := fun s t => s.Captured p → t.Captured p) (fun _ => id) (fun first second => second ∘ first)
      (ih within) _ s t member
  | group index a ih =>
    intro s t member captured
    obtain ⟨m, inner, rfl⟩ := List.mem_map.mp member
    intro g listed
    rcases List.mem_cons.mp listed with rfl | old
    · exact (run_takes within.1 s m inner).upTo
    · exact ih within.2 s m inner captured g old
  | boundary word =>
    intro s t member
    rw [run] at member
    split at member
    · rw [List.mem_singleton.mp member]
      exact id
    · cases member

theorem findFrom_captured (within : r.GroupsWithin p) (text : List Char) :
    ∀ skip before, ∀ t ∈ r.findFrom skip before text, t.Captured p := by
  induction text with
  | nil =>
    intro skip before t member
    cases member
  | cons c rest ih =>
    intro skip before t member
    cases skip with
    | succ skip => exact ih skip _ t member
    | zero =>
      rw [findFrom] at member
      split at member
      · exact ih _ _ t member
      · rename_i first found
        rcases List.mem_cons.mp member with rfl | later
        · exact run_captured within _ t (List.mem_of_head? found) (by simp [Spot.Captured])
        · exact ih _ _ t later

theorem mem_groups_of_lookup {index : Nat} {text : List Char} (found : s.group index = some text) :
    (index, text) ∈ s.groups := by
  obtain ⟨front, back, cut, -⟩ := List.lookup_eq_some_iff.mp found
  rw [cut]
  exact List.mem_append_right front List.mem_cons_self

/-- What a group captures is made of characters that its classes accept. -/
theorem findAll_group (within : r.GroupsWithin p) {text captured : List Char} (member : t ∈ r.findAll text) {index : Nat}
    (found : t.group index = some captured) : ∀ c ∈ captured, p c :=
  findFrom_captured within text 0 none t member _ (mem_groups_of_lookup found)

/-- There are no more matches than characters. -/
theorem length_findFrom_le (r : Regex) (text : List Char) :
    ∀ skip before, (r.findFrom skip before text).length ≤ text.length := by
  induction text with
  | nil => exact fun _ _ => Nat.le_refl 0
  | cons c rest ih =>
    intro skip before
    cases skip with
    | succ skip => exact (ih skip _).trans (Nat.le_succ _)
    | zero =>
      rw [findFrom]
      split
      · exact (ih 0 _).trans (Nat.le_succ _)
      · exact Nat.succ_le_succ (ih _ _)

theorem length_findAll_le (r : Regex) (text : List Char) : (r.findAll text).length ≤ text.length :=
  r.length_findFrom_le text 0 none

/-! ## The preferred match -/

/-- The preferred match leads from one spot to the other. -/
def Prefers (r : Regex) (s t : Spot) : Prop := (r.run s).head? = some t

variable {a b : Regex}

theorem Prefers.seq (first : a.Prefers s t) (second : b.Prefers t u) : (a.seq b).Prefers s u := by
  obtain ⟨others, run⟩ := List.head?_eq_some_iff.mp first
  rw [Prefers, Regex.run, run, List.flatMap_cons, List.head?_append, second]
  rfl

theorem Prefers.group (inner : a.Prefers s t) (index : Nat) :
    (Regex.group index a).Prefers s { t with groups := (index, s.upTo t) :: t.groups } := by
  rw [Prefers, Regex.run, List.head?_map, inner]
  rfl

section

variable {accepts : Char → Bool} {before : Option Char} {groups : List (Nat × List Char)} {c : Char} {rest : List Char}

theorem prefers_one (accepted : accepts c = true) :
    (one accepts).Prefers ⟨before, c :: rest, groups⟩ ⟨some c, rest, groups⟩ := by
  simp [Prefers, run, accepted]

theorem last_cons (before : Option Char) (c : Char) (used : List Char) :
    (c :: used).getLast?.or before = used.getLast?.or (some c) := by
  cases used with
  | nil => rfl
  | cons d used => simp [List.getLast?_eq_some_getLast]

/-- Turns of one class go on to the first character that it refuses. -/
theorem head?_turns {used : List Char} (taken : ∀ c ∈ used, accepts c = true)
    (refused : ∀ c ∈ rest.head?, accepts c = false) {n : Nat} (enough : used.length ≤ n) :
    (turns (one accepts).run n ⟨before, used ++ rest, groups⟩).head? = some ⟨used.getLast?.or before, rest, groups⟩ := by
  induction used generalizing before n with
  | nil =>
    cases n with
    | zero => rfl
    | succ n =>
      cases rest with
      | nil => rfl
      | cons d rest =>
        have stops := refused d rfl
        simp [turns, run, stops]
  | cons c used ih =>
    obtain ⟨here, later⟩ := List.forall_mem_cons.mp taken
    cases n with
    | zero => exact absurd enough (Nat.not_succ_le_zero _)
    | succ n =>
      have first : (one accepts).run ⟨before, c :: used ++ rest, groups⟩ = [⟨some c, used ++ rest, groups⟩] := by
        simp [run, here]
      have goes := @ih (some c) later n (Nat.le_of_succ_le_succ enough)
      rw [last_cons, turns, first, List.filter_cons_of_pos (by simp), List.filter_nil, List.flatMap_cons,
        List.flatMap_nil, List.append_nil, List.head?_append, goes]
      rfl

theorem prefers_many {used : List Char} (taken : ∀ c ∈ used, accepts c = true)
    (refused : ∀ c ∈ rest.head?, accepts c = false) :
    (many none (one accepts)).Prefers ⟨before, used ++ rest, groups⟩ ⟨used.getLast?.or before, rest, groups⟩ :=
  head?_turns taken refused (by simp)

/-- `a+` takes all it can. -/
theorem prefers_some {used : List Char} (nonempty : used ≠ []) (taken : ∀ c ∈ used, accepts c = true)
    (refused : ∀ c ∈ rest.head?, accepts c = false) :
    (some_ (one accepts)).Prefers ⟨before, used ++ rest, groups⟩ ⟨used.getLast?.or before, rest, groups⟩ := by
  obtain ⟨c, used, rfl⟩ := List.exists_cons_of_ne_nil nonempty
  obtain ⟨here, later⟩ := List.forall_mem_cons.mp taken
  rw [last_cons]
  exact (prefers_one here).seq (prefers_many later refused)

/-- A group of such characters captures them. -/
theorem prefers_group_some {used : List Char} (nonempty : used ≠ []) (taken : ∀ c ∈ used, accepts c = true)
    (refused : ∀ c ∈ rest.head?, accepts c = false) (index : Nat) :
    (group index (some_ (one accepts))).Prefers ⟨before, used ++ rest, groups⟩
      ⟨used.getLast?.or before, rest, (index, used) :: groups⟩ := by
  have captured : Spot.upTo ⟨before, used ++ rest, groups⟩ ⟨used.getLast?.or before, rest, groups⟩ = used := by
    simp [Spot.upTo]
  have whole := (@prefers_some accepts before groups rest used nonempty taken refused).group index
  rwa [captured] at whole

theorem prefers_literal (text : List Char) :
    (literal text).Prefers ⟨before, text ++ rest, groups⟩ ⟨text.getLast?.or before, rest, groups⟩ := by
  induction text generalizing before with
  | nil => rfl
  | cons c text ih =>
    rw [last_cons]
    exact (prefers_one (by simp)).seq ih

end

end Regex

end McpSsh.Base
