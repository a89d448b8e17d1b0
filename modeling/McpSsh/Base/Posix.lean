import Mathlib.Data.List.Basic

/-!
# POSIX path strings

The functions of `posixpath` on path strings, and relative paths made of file
names: names are nonempty and hold no slash, and going down by one name appends
it to the path.
-/

set_option autoImplicit false

namespace McpSsh.Base

/-- `posixpath.join` of two parts. -/
def joinPath (a b : String) : String :=
  if b.toList.head? = some '/' then b
  else if a = "" || a.toList.getLast? = some '/' then a ++ b
  else a ++ "/" ++ b

/-- `posixpath.basename`: what follows the last slash. -/
def basename (p : String) : String := String.ofList (p.toList.reverse.takeWhile (· ≠ '/')).reverse

/-- `p.rstrip("/")`. -/
def stripSlashes (p : String) : String := String.ofList (p.toList.reverse.dropWhile (· = '/')).reverse

/-- `posixpath.dirname`: what precedes the last slash, without trailing slashes
unless there is nothing else. -/
def dirname (p : String) : String :=
  let head := (p.toList.reverse.dropWhile (· ≠ '/')).reverse
  if head.all (· = '/') then String.ofList head else stripSlashes (String.ofList head)

/-- A file name, as a directory holds it. -/
structure FileName where
  text : String
  nonempty : text ≠ ""
  solid : '/' ∉ text.toList
deriving DecidableEq

/-- The names for the directory itself and for the one above it. -/
def FileName.isDots (n : FileName) : Bool := n.text = "." || n.text = ".."

/-- The relative path that goes down by these names. -/
def relPath (names : List FileName) : String := "/".intercalate (names.map FileName.text)

@[simp] theorem relPath_nil : relPath [] = "" := rfl

theorem relPath_singleton (n : FileName) : relPath [n] = n.text := String.intercalate_singleton

theorem relPath_concat {names : List FileName} (inside : names ≠ []) (n : FileName) :
    relPath (names ++ [n]) = relPath names ++ "/" ++ n.text := by
  rw [relPath, List.map_append,
    String.intercalate_append_of_ne_nil (by simpa using inside) (by simp)]
  simp [relPath]

theorem FileName.toList_ne_nil (n : FileName) : n.text.toList ≠ [] := by
  simpa [String.toList_eq_nil_iff] using n.nonempty

/-- A relative path is empty only at the top, and never ends with a slash. -/
theorem relPath_ends {names : List FileName} (inside : names ≠ []) :
    relPath names ≠ "" ∧ (relPath names).toList.getLast? ≠ some '/' := by
  obtain ⟨front, last, rfl⟩ := List.eq_nil_or_concat names |>.resolve_left inside
  rw [List.concat_eq_append]
  have ending : ∃ before, (relPath (front ++ [last])).toList = before ++ last.text.toList := by
    by_cases top : front = []
    · subst top
      exact ⟨[], by rw [List.nil_append, relPath_singleton, List.nil_append]⟩
    · exact ⟨(relPath front).toList ++ ['/'], by simp [relPath_concat top, String.toList_append]⟩
  obtain ⟨before, ending⟩ := ending
  have some_ : (relPath (front ++ [last])).toList ≠ [] := by
    rw [ending]
    simp [last.toList_ne_nil]
  refine ⟨fun empty => some_ (by simp [empty]), ?_⟩
  rw [ending, List.getLast?_append_of_ne_nil _ last.toList_ne_nil]
  intro slash
  exact last.solid (List.mem_of_getLast? slash)

/-- Joining a name to a relative path goes down by it. -/
theorem joinPath_relPath {names : List FileName} (inside : names ≠ []) (n : FileName) :
    joinPath (relPath names) n.text = relPath (names ++ [n]) := by
  have noSlash : n.text.toList.head? ≠ some '/' := fun slash => n.solid (List.mem_of_head? slash)
  obtain ⟨some_, ends⟩ := relPath_ends inside
  rw [joinPath, if_neg noSlash, if_neg (by simp [some_, ends]), relPath_concat inside]

end McpSsh.Base
