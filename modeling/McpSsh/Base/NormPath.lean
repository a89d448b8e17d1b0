import McpSsh.Base.Posix
import Mathlib.Data.List.Infix
import Mathlib.Data.List.TakeWhile

/-!
# Normal forms of POSIX paths

`posixpath.normpath` as leading slashes and components, and which relative paths
stay at or below whatever they are joined to: those that never climb above the place
they start from.
-/

set_option autoImplicit false

namespace McpSsh.Base

/-! ## Components -/

/-- `split("/")`. -/
def segments : List Char → List (List Char)
  | [] => [[]]
  | c :: rest =>
    if c = '/' then [] :: segments rest
    else
      match segments rest with
      | [] => [[c]]
      | first :: others => (c :: first) :: others

def dotdot : List Char := ['.', '.']

/-- A turn of the loop in `normpath` over the components. -/
def pushComp (absolute : Bool) (stack : List (List Char)) (comp : List Char) : List (List Char) :=
  if comp = [] ∨ comp = ['.'] then stack
  else if comp ≠ dotdot ∨ (absolute = false ∧ stack = []) ∨ stack.getLast? = some dotdot then stack ++ [comp]
  else stack.dropLast

/-- The leading slashes of a normal form: two of them are kept, three or more are one. -/
def leading (p : List Char) : Nat :=
  match (p.takeWhile (· = '/')).length with
  | 0 => 0
  | 2 => 2
  | _ => 1

/-- The components of `posixpath.normpath`. -/
def normComps (p : List Char) : List (List Char) := (segments p).foldl (pushComp (leading p ≠ 0)) []

/-- After normalisation, `p` is `base` or lies below it. -/
def Below (base p : String) : Prop :=
  leading p.toList = leading base.toList ∧
    ∃ rest, normComps p.toList = normComps base.toList ++ rest ∧ dotdot ∉ rest

/-- Following the components from `depth` levels down never climbs above the start. -/
def descends : Nat → List (List Char) → Bool
  | _, [] => true
  | depth, comp :: comps =>
    if comp = [] ∨ comp = ['.'] then descends depth comps
    else if comp = dotdot then
      match depth with
      | 0 => false
      | depth + 1 => descends depth comps
    else descends (depth + 1) comps

/-- The path is relative and never climbs above the directory it is joined to. -/
def Stays (p : String) : Prop := p.toList.head? ≠ some '/' ∧ descends 0 (segments p.toList) = true

instance (p : String) : Decidable (Stays p) := inferInstanceAs (Decidable (_ ∧ _))

/-! ## Splitting -/

theorem segments_ne_nil (p : List Char) : segments p ≠ [] := by
  cases p with
  | nil => simp [segments]
  | cons c rest =>
    unfold segments
    split
    · simp
    · split <;> simp

theorem segments_append_slash (a b : List Char) : segments (a ++ '/' :: b) = segments a ++ segments b := by
  induction a with
  | nil => simp [segments]
  | cons c a ih =>
    rw [List.cons_append, segments, segments, ih]
    split
    · simp
    · cases whole : segments a with
      | nil => exact absurd whole (segments_ne_nil a)
      | cons first others => rfl

theorem segments_of_solid {p : List Char} (solid : '/' ∉ p) : segments p = [p] := by
  induction p with
  | nil => rfl
  | cons c p ih =>
    simp only [List.mem_cons, not_or] at solid
    rw [segments, if_neg (Ne.symm solid.1), ih solid.2]

/-- Every path is its directory, a slash and its last component, or has no slash. -/
theorem segments_dropLast (p : List Char) :
    ('/' ∉ p ∧ (segments p).dropLast = []) ∨
      ∃ front last, p = front ++ '/' :: last ∧ '/' ∉ last ∧ (segments p).dropLast = segments front := by
  by_cases slash : '/' ∈ p
  · obtain ⟨last, front, split, solid⟩ := List.eq_append_cons_of_mem (List.mem_reverse.mpr slash)
    have whole : p = front.reverse ++ '/' :: last.reverse := by
      have back := congrArg List.reverse split
      simpa using back
    have solid' : '/' ∉ last.reverse := fun member => solid (List.mem_reverse.mp member)
    refine .inr ⟨front.reverse, last.reverse, whole, solid', ?_⟩
    rw [whole, segments_append_slash, segments_of_solid solid', List.dropLast_concat]
  · exact .inl ⟨slash, by rw [segments_of_solid slash]; rfl⟩

/-! ## Following components -/

section

variable {absolute : Bool} {comps : List (List Char)}

variable (absolute) in
theorem pushComp_nil (stack : List (List Char)) : pushComp absolute stack [] = stack := by simp [pushComp]

theorem descends_cons (depth : Nat) (comp : List Char) : descends depth (comp :: comps) =
    if comp = [] ∨ comp = ['.'] then descends depth comps
    else if comp = dotdot then depth ≠ 0 && descends (depth - 1) comps
    else descends (depth + 1) comps := by
  cases depth <;> simp [descends]

/-- **Components that do not climb leave what they start from in place.** -/
theorem foldl_pushComp {depth : Nat} (stays : descends depth comps = true) (base : List (List Char))
    {pushed : List (List Char)} (names : dotdot ∉ pushed) (deep : pushed.length = depth) :
    ∃ rest, comps.foldl (pushComp absolute) (base ++ pushed) = base ++ rest ∧ dotdot ∉ rest := by
  induction comps generalizing depth pushed with
  | nil => exact ⟨pushed, rfl, names⟩
  | cons comp comps ih =>
    rw [List.foldl_cons]
    rw [descends_cons] at stays
    by_cases empty : comp = [] ∨ comp = ['.']
    · rw [if_pos empty] at stays
      rw [pushComp, if_pos empty]
      exact ih stays names deep
    · rw [if_neg empty] at stays
      by_cases up : comp = dotdot
      · rw [if_pos up] at stays
        cases depth with
        | zero => simp at stays
        | succ depth =>
          obtain ⟨front, last, rfl⟩ := List.eq_nil_or_concat pushed |>.resolve_left (by
            rintro rfl
            simp at deep)
          rw [List.concat_eq_append] at names deep ⊢
          have name : last ≠ dotdot := fun same => names (by simp [same])
          have popped : pushComp absolute (base ++ (front ++ [last])) comp = base ++ front := by
            rw [← List.append_assoc, pushComp, if_neg empty, if_neg (by simp [up, name]), List.dropLast_concat]
          rw [popped]
          exact ih (by simpa using stays) (fun member => names (by simp [member])) (by simpa using deep)
      · rw [if_neg up] at stays
        have kept : pushComp absolute (base ++ pushed) comp = base ++ (pushed ++ [comp]) := by
          rw [pushComp, if_neg empty, if_pos (.inl up), List.append_assoc]
        rw [kept]
        refine ih stays (fun member => ?_) (by simp [deep])
        rcases List.mem_append.mp member with old | new
        · exact names old
        · exact up (List.mem_singleton.mp new).symm

/-- A relative path that has climbed above its start keeps its first `..`. -/
theorem head_foldl_pushComp (stack : List (List Char)) (climbed : stack.head? = some dotdot) :
    (comps.foldl (pushComp false) stack).head? = some dotdot := by
  induction comps generalizing stack with
  | nil => exact climbed
  | cons comp comps ih =>
    apply ih
    obtain ⟨rest, rfl⟩ : ∃ rest, stack = dotdot :: rest := by
      cases stack with
      | nil => cases climbed
      | cons first rest => exact ⟨rest, by rw [Option.some.inj climbed]⟩
    unfold pushComp
    split
    · rfl
    split
    · rfl
    · rename_i keep
      cases rest with
      | nil => simp at keep
      | cons second rest => rfl

/-- **Components that climb leave a `..` at the front of a relative path.** -/
theorem descends_of_foldl_pushComp {depth : Nat} {pushed : List (List Char)} (names : dotdot ∉ pushed)
    (deep : pushed.length = depth) (low : dotdot ∉ comps.foldl (pushComp false) pushed) :
    descends depth comps = true := by
  induction comps generalizing depth pushed with
  | nil => rfl
  | cons comp comps ih =>
    rw [List.foldl_cons] at low
    rw [descends_cons]
    by_cases empty : comp = [] ∨ comp = ['.']
    · rw [if_pos empty]
      rw [pushComp, if_pos empty] at low
      exact ih names deep low
    · rw [if_neg empty]
      by_cases up : comp = dotdot
      · rw [if_pos up]
        rcases List.eq_nil_or_concat pushed with rfl | ⟨front, last, rfl⟩
        · have climbed : pushComp false [] comp = [dotdot] := by
            rw [pushComp, if_neg empty, if_pos (.inr (.inl ⟨rfl, rfl⟩)), up]
            rfl
          rw [climbed] at low
          exact absurd (List.mem_of_mem_head? (head_foldl_pushComp [dotdot] rfl)) low
        · rw [List.concat_eq_append] at names deep low
          have name : last ≠ dotdot := fun same => names (by simp [same])
          rw [pushComp, if_neg empty, if_neg (by simp [up, name]), List.dropLast_concat] at low
          obtain rfl : front.length + 1 = depth := by simpa using deep
          simpa using ih (fun member => names (by simp [member])) rfl low
      · rw [if_neg up]
        rw [pushComp, if_neg empty, if_pos (.inl up)] at low
        refine ih (fun member => ?_) (by simp [deep]) low
        rcases List.mem_append.mp member with old | new
        · exact names old
        · exact up (List.mem_singleton.mp new).symm

/-- Empty components change nothing. -/
theorem descends_append_nil (depth : Nat) (front : List (List Char)) :
    descends depth (front ++ [] :: comps) = descends depth (front ++ comps) := by
  induction front generalizing depth with
  | nil => simp [descends]
  | cons comp front ih =>
    simp only [List.cons_append, descends]
    split
    · exact ih _
    · split
      · cases depth with
        | zero => rfl
        | succ depth => exact ih depth
      · exact ih _

/-- What does not climb does not climb on the way either. -/
theorem descends_of_append {depth : Nat} {front : List (List Char)} (stays : descends depth (front ++ comps) = true) :
    descends depth front = true := by
  induction front generalizing depth with
  | nil => rfl
  | cons comp front ih =>
    simp only [List.cons_append, descends] at stays ⊢
    split at stays
    · rename_i empty
      rw [if_pos empty]
      exact ih stays
    · rename_i some_
      rw [if_neg some_]
      split at stays
      · rename_i up
        rw [if_pos up]
        cases depth with
        | zero => cases stays
        | succ depth => exact ih stays
      · rename_i name
        rw [if_neg name]
        exact ih stays

end

/-! ## Joining -/

/-- The last component holds no slash. -/
theorem slash_not_mem_basename (p : String) : '/' ∉ (basename p).toList := by
  intro slash
  rw [basename, String.toList_ofList, List.mem_reverse] at slash
  simpa using List.mem_takeWhile_imp slash

/-- What joining a relative path puts in front of it. -/
theorem joinPath_spec (a : String) {b : String} (relative : b.toList.head? ≠ some '/') :
    (a = "" ∧ joinPath a b = b) ∨ ∃ front, (joinPath a b).toList = front ++ '/' :: b.toList ∧
      (a.toList = front ++ ['/'] ∨ a.toList = front ∧ front ≠ [] ∧ front.getLast? ≠ some '/') := by
  unfold joinPath
  rw [if_neg relative]
  by_cases empty : a = ""
  · subst empty
    exact .inl ⟨rfl, by simp⟩
  · right
    have some_ : a.toList ≠ [] := by simpa [String.toList_eq_nil_iff] using empty
    by_cases slash : a.toList.getLast? = some '/'
    · have whole := List.dropLast_append_getLast? '/' slash
      rw [if_pos (by simp [slash])]
      refine ⟨a.toList.dropLast, ?_, .inl whole.symm⟩
      rw [String.toList_append]
      conv_lhs => rw [← whole]
      rw [List.append_assoc, List.singleton_append]
    · rw [if_neg (by simp [empty, slash])]
      exact ⟨a.toList, by simp [String.toList_append], .inr ⟨rfl, some_, slash⟩⟩

theorem head_joinPath (a : String) {b : String} (relative : b.toList.head? ≠ some '/') :
    (joinPath a b).toList.head? = some '/' ↔ a.toList.head? = some '/' := by
  rcases joinPath_spec a relative with ⟨rfl, same⟩ | ⟨front, whole, before | ⟨before, some_, -⟩⟩
  · rw [same]
    simp [relative]
  · rw [whole, before]
    cases front <;> simp
  · rw [whole, before]
    cases front with
    | nil => exact absurd rfl some_
    | cons c front => simp

/-- A join climbs where its parts do, one after the other. -/
theorem descends_joinPath (a : String) {b : String} (relative : b.toList.head? ≠ some '/') (depth : Nat)
    (comps : List (List Char)) : descends depth (segments (joinPath a b).toList ++ comps) =
      descends depth (segments a.toList ++ (segments b.toList ++ comps)) := by
  rcases joinPath_spec a relative with ⟨rfl, same⟩ | ⟨front, whole, before | ⟨before, -⟩⟩
  · rw [same]
    exact (descends_append_nil depth []).symm
  · rw [whole, before, segments_append_slash, segments_append_slash, List.append_assoc, List.append_assoc]
    exact (descends_append_nil depth (segments front)).symm
  · rw [whole, before, segments_append_slash, List.append_assoc]

theorem takeWhile_slash_cons {b : List Char} (relative : b.head? ≠ some '/') :
    ('/' :: b).takeWhile (· = '/') = ['/'] := by
  cases b with
  | nil => rfl
  | cons c b =>
    have other : c ≠ '/' := by simpa using relative
    simp [other]

/-- The leading slashes stop before what is not a slash. -/
theorem leading_append {front : List Char} (rest : List Char) (some_ : ¬ front.all (· = '/') = true) :
    leading (front ++ rest) = leading front := by
  have short : (front.takeWhile (· = '/')).length ≠ front.length := by
    intro all
    have whole := (List.takeWhile_prefix (l := front) (fun c => decide (c = '/'))).eq_of_length all
    exact some_ (List.all_eq_true.mpr (List.takeWhile_eq_self_iff.mp whole))
  rw [leading, List.takeWhile_append, if_neg short]
  rfl

theorem leading_joinPath (a : String) {b : String} (relative : b.toList.head? ≠ some '/') :
    leading (joinPath a b).toList = leading a.toList := by
  rcases joinPath_spec a relative with ⟨rfl, same⟩ | ⟨front, whole, before | ⟨before, some_, ends⟩⟩
  · rw [same]
    have none_ : b.toList.takeWhile (· = '/') = [] := by
      cases chars : b.toList with
      | nil => rfl
      | cons c rest =>
        have other : c ≠ '/' := by simpa [chars] using relative
        simp [other]
    simp [leading, none_]
  · rw [whole, before]
    by_cases all : front.all (· = '/') = true
    · have slashes : front.takeWhile (· = '/') = front :=
        List.takeWhile_eq_self_iff.mpr (List.all_eq_true.mp all)
      simp only [leading, List.takeWhile_append, slashes, if_true, takeWhile_slash_cons relative]
      rfl
    · rw [leading_append _ all, leading_append _ all]
  · rw [whole, before]
    refine leading_append _ fun all => ends ?_
    have last := List.getLast?_eq_some_getLast some_
    have slash : front.getLast some_ = '/' := by simpa using List.all_eq_true.mp all _ (List.getLast_mem some_)
    rw [last, slash]

/-- The components of a join are followed from where the base ends. -/
theorem segments_joinPath (a : String) {b : String} (relative : b.toList.head? ≠ some '/') :
    ∃ before, segments (joinPath a b).toList = before ++ segments b.toList ∧
      before.foldl (pushComp (leading a.toList ≠ 0)) [] = normComps a.toList := by
  rcases joinPath_spec a relative with ⟨rfl, same⟩ | ⟨front, whole, before | ⟨before, -⟩⟩
  · rw [same]
    exact ⟨[], rfl, by simp [normComps, segments, pushComp]⟩
  · refine ⟨segments front, by rw [whole, segments_append_slash], ?_⟩
    rw [normComps, before, segments_append_slash, List.foldl_append]
    simp [segments, pushComp]
  · refine ⟨segments front, by rw [whole, segments_append_slash], ?_⟩
    rw [normComps, before]

/-! ## The parts of a path -/

/-- **The last component of a path is its base name.** -/
theorem segments_basename (p : String) : ∃ init, segments p.toList = init ++ [(basename p).toList] := by
  rw [basename, String.toList_ofList]
  rcases segments_dropLast p.toList with ⟨solid, -⟩ | ⟨front, last, whole, solid, -⟩
  · have all : p.toList.reverse.takeWhile (· ≠ '/') = p.toList.reverse :=
      List.takeWhile_eq_self_iff.mpr fun c member => by
        simpa using fun same : c = '/' => solid (same ▸ List.mem_reverse.mp member)
    exact ⟨[], by rw [all, List.reverse_reverse, segments_of_solid solid]; rfl⟩
  · have back : p.toList.reverse = last.reverse ++ '/' :: front.reverse := by rw [whole]; simp
    have all : last.reverse.takeWhile (· ≠ '/') = last.reverse :=
      List.takeWhile_eq_self_iff.mpr fun c member => by
        simpa using fun same : c = '/' => solid (same ▸ List.mem_reverse.mp member)
    refine ⟨segments front, ?_⟩
    rw [back, List.takeWhile_append, all, if_pos rfl, whole, segments_append_slash, segments_of_solid solid]
    simp

theorem toList_stripSlashes (p : String) :
    ∃ count, p.toList = (stripSlashes p).toList ++ List.replicate count '/' := by
  refine ⟨(p.toList.reverse.takeWhile (· = '/')).length, ?_⟩
  have slashes : p.toList.reverse.takeWhile (· = '/') =
      List.replicate (p.toList.reverse.takeWhile (· = '/')).length '/' :=
    List.eq_replicate_of_mem fun c member => by simpa using List.mem_takeWhile_imp member
  have whole := congrArg List.reverse (List.takeWhile_append_dropWhile (p := fun c => decide (c = '/'))
    (l := p.toList.reverse))
  rw [List.reverse_append, List.reverse_reverse] at whole
  rw [stripSlashes, String.toList_ofList]
  conv_lhs => rw [← whole, slashes]
  rw [List.reverse_replicate]

theorem foldl_segments_slashes (absolute : Bool) (front : List Char) (count : Nat) :
    (segments (front ++ List.replicate count '/')).foldl (pushComp absolute) [] =
      (segments front).foldl (pushComp absolute) [] := by
  induction count with
  | zero => simp
  | succ count ih =>
    have last : segments (front ++ List.replicate (count + 1) '/') =
        segments (front ++ List.replicate count '/') ++ segments [] := by
      rw [List.replicate_succ', ← List.append_assoc, segments_append_slash]
    rw [last, List.foldl_append, ih]
    exact pushComp_nil absolute _

theorem dirname_split {p : String} {front last : List Char} (whole : p.toList = front ++ '/' :: last)
    (solid : '/' ∉ last) : dirname p = if front.all (· = '/') then String.ofList (front ++ ['/'])
      else stripSlashes (String.ofList (front ++ ['/'])) := by
  have rest : (p.toList.reverse.dropWhile (· ≠ '/')).reverse = front ++ ['/'] := by
    have back : p.toList.reverse = last.reverse ++ '/' :: front.reverse := by rw [whole]; simp
    have skip : last.reverse.dropWhile (· ≠ '/') = [] :=
      List.dropWhile_eq_nil_iff.mpr fun c member => by
        simpa using fun same : c = '/' => solid (same ▸ List.mem_reverse.mp member)
    rw [back, List.dropWhile_append, skip]
    simp
  unfold dirname
  simp only [rest]
  congr 1
  simp

theorem dirname_of_solid {p : String} (solid : '/' ∉ p.toList) : dirname p = "" := by
  have none_ : p.toList.reverse.dropWhile (· ≠ '/') = [] :=
    List.dropWhile_eq_nil_iff.mpr fun c member => by
      simpa using fun same : c = '/' => solid (same ▸ List.mem_reverse.mp member)
  unfold dirname
  simp only [none_]
  rfl

/-- **The directory of a path is the path without its last component.** -/
theorem dirname_spec (p : String) : leading (dirname p).toList = leading p.toList ∧
    normComps (dirname p).toList = (segments p.toList).dropLast.foldl (pushComp (leading p.toList ≠ 0)) [] := by
  rcases segments_dropLast p.toList with ⟨solid, none_⟩ | ⟨front, last, whole, solid, init⟩
  · rw [dirname_of_solid solid, none_]
    have noSlash : p.toList.takeWhile (· = '/') = [] := by
      cases chars : p.toList with
      | nil => rfl
      | cons c rest =>
        have other : c ≠ '/' := fun same => solid (by simp [chars, same])
        simp [other]
    exact ⟨by simp [leading, noSlash], rfl⟩
  · have relative : last.head? ≠ some '/' := fun head => solid (List.mem_of_mem_head? head)
    rw [init, dirname_split whole solid, whole]
    by_cases all : front.all (· = '/') = true
    · have slashes : front.takeWhile (· = '/') = front := List.takeWhile_eq_self_iff.mpr (List.all_eq_true.mp all)
      have same : leading (front ++ ['/']) = leading (front ++ '/' :: last) := by
        simp only [leading, List.takeWhile_append, slashes, if_true, takeWhile_slash_cons relative]
        rfl
      rw [if_pos all, String.toList_ofList]
      refine ⟨same, ?_⟩
      rw [normComps, same]
      exact foldl_segments_slashes _ front 1
    · rw [if_neg all]
      obtain ⟨count, stripped⟩ := toList_stripSlashes (String.ofList (front ++ ['/']))
      rw [String.toList_ofList] at stripped
      have partial_ : ¬ (stripSlashes (String.ofList (front ++ ['/']))).toList.all (· = '/') = true := by
        intro slashes
        have whole_ : (front ++ ['/']).all (· = '/') = true := by
          rw [stripped, List.all_append, slashes]
          simp
        rw [List.all_append] at whole_
        exact all (Bool.and_eq_true_iff.mp whole_).1
      have same : leading (stripSlashes (String.ofList (front ++ ['/']))).toList = leading (front ++ '/' :: last) := by
        rw [← leading_append (List.replicate count '/') partial_, ← stripped, leading_append _ all, leading_append _ all]
      refine ⟨same, ?_⟩
      rw [normComps, same, ← foldl_segments_slashes _ _ count, ← stripped]
      exact foldl_segments_slashes _ front 1

theorem segments_relPath {names : List FileName} (inside : names ≠ []) :
    segments (relPath names).toList = names.map fun name => name.text.toList := by
  induction names using List.reverseRecOn with
  | nil => exact absurd rfl inside
  | append_singleton front last ih =>
    by_cases top : front = []
    · rw [top, List.nil_append, relPath_singleton, segments_of_solid last.solid]
      rfl
    · have whole : (relPath (front ++ [last])).toList = (relPath front).toList ++ '/' :: last.text.toList := by
        simp [relPath_concat top, String.toList_append]
      rw [whole, segments_append_slash, ih top, segments_of_solid last.solid]
      simp

/-! ## Staying below -/

/-- **A path that stays, and its directory, lie at or below whatever it is joined to.** -/
theorem Stays.below {rel : String} (stays : Stays rel) (base : String) :
    Below base (joinPath base rel) ∧ Below base (dirname (joinPath base rel)) := by
  obtain ⟨relative, level⟩ := stays
  obtain ⟨before, whole, follows⟩ := segments_joinPath base relative
  have same := leading_joinPath base relative
  constructor
  · obtain ⟨rest, reached, low⟩ := @foldl_pushComp (decide (leading base.toList ≠ 0)) _ _ level
      (normComps base.toList) [] List.not_mem_nil rfl
    refine ⟨same, rest, ?_, low⟩
    rw [List.append_nil] at reached
    rw [normComps, same, whole, List.foldl_append, follows, reached]
  · obtain ⟨sameDir, comps⟩ := dirname_spec (joinPath base rel)
    have some_ := segments_ne_nil rel.toList
    have front : descends 0 (segments rel.toList).dropLast = true := by
      rw [← List.dropLast_append_getLast some_] at level
      exact descends_of_append level
    obtain ⟨rest, reached, low⟩ := @foldl_pushComp (decide (leading base.toList ≠ 0)) _ _ front
      (normComps base.toList) [] List.not_mem_nil rfl
    refine ⟨sameDir.trans same, rest, ?_, low⟩
    rw [List.append_nil] at reached
    rw [comps, same, whole, List.dropLast_append_of_ne_nil some_, List.foldl_append, follows, reached]

/-- A path that lies at or below the current directory stays. -/
theorem stays_of_below {rel : String} (below : Below "." (joinPath "." rel)) : Stays rel := by
  obtain ⟨same, rest, comps, low⟩ := below
  have top : leading ".".toList = 0 := by decide
  have empty : normComps ".".toList = [] := by decide
  have relative : rel.toList.head? ≠ some '/' := by
    intro absolute
    rw [joinPath, if_pos absolute, top] at same
    cases chars : rel.toList with
    | nil => simp [chars] at absolute
    | cons c more =>
      obtain rfl : c = '/' := by simpa [chars] using absolute
      rw [leading, chars, List.takeWhile_cons, if_pos (by simp), List.length_cons] at same
      split at same
      · omega
      · cases same
      · cases same
  obtain ⟨before, whole, follows⟩ := segments_joinPath "." relative
  rw [normComps, leading_joinPath "." relative, whole, List.foldl_append, follows, empty, top, List.nil_append] at comps
  refine ⟨relative, @descends_of_foldl_pushComp _ _ [] List.not_mem_nil rfl ?_⟩
  exact comps ▸ low

end McpSsh.Base
