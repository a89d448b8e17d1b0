import McpSsh.Base.Dict
import McpSsh.Base.Posix

/-!
# Listing a remote directory tree

`_sftp_list_tree` of `scp_tools.py` over a remote tree in which any request may
fail. A request that raises `SFTPError` or `OSError` answers `none`.
-/

set_option autoImplicit false

namespace McpSsh

open Base

structure SftpAttrs where
  permissions : Option Nat := none
  size : Option Nat := none
  mtime : Option Int := none
deriving DecidableEq

/-- `S_ISDIR` of the permissions. -/
def SftpAttrs.isDir (a : SftpAttrs) : Bool := a.permissions.getD 0 &&& 0o170000 = 0o040000

/-- The entries of a directory, each with its attributes and, if it is a directory
itself, its own entries. -/
inductive Listing where
  | nil
  | cons (name : FileName) (attrs : SftpAttrs) (below : Listing) (rest : Listing)
deriving DecidableEq

/-- What a path names on a server, and which requests about it fail. -/
structure RemotePath where
  root : Option (SftpAttrs × Listing)
  isdirFails : Bool := false
  statFails : Bool := false
  /-- By the full path of the directory. -/
  readdirFails : String → Bool := fun _ => false

namespace RemotePath

def isdir (r : RemotePath) : Option Bool :=
  if r.isdirFails then none else some (r.root.any fun root => root.1.isDir)

def stat (r : RemotePath) : Option SftpAttrs := if r.statFails then none else r.root.map Prod.fst

end RemotePath

/-- The loop of `_walk` over the entries of `dirPath`. -/
def walkEntries (readdirFails : String → Bool) (dirPath relPrefix : String) :
    Listing → Dict String SftpAttrs → Dict String SftpAttrs
  | .nil, result => result
  | .cons name attrs below rest, result =>
    let rel := if relPrefix = "" then name.text else joinPath relPrefix name.text
    let full := joinPath dirPath name.text
    let result :=
      if name.isDots then result
      else if attrs.isDir then
        if readdirFails full then result else walkEntries readdirFails full rel below result
      else result.insert rel attrs
    walkEntries readdirFails dirPath relPrefix rest result

/-- `_sftp_list_tree`. -/
def sftpListTree (r : RemotePath) (basePath : String) : Dict String SftpAttrs :=
  if r.isdir = some true then
    if r.readdirFails basePath then Dict.empty
    else walkEntries r.readdirFails basePath "" ((r.root.map Prod.snd).getD .nil) Dict.empty
  else
    match r.stat with
    | some attrs => Dict.empty.insert (basename basePath) attrs
    | none => Dict.empty

/-! ## What is in a tree -/

namespace Listing

/-- Going down by these names comes to a node with these attributes. -/
inductive At : Listing → List FileName → SftpAttrs → Prop where
  | here {name : FileName} {attrs : SftpAttrs} {below rest : Listing} (plain : name.isDots = false) :
      At (.cons name attrs below rest) [name] attrs
  | down {name : FileName} {attrs : SftpAttrs} {below rest : Listing} {names : List FileName} {a : SftpAttrs}
      (plain : name.isDots = false) (dir : attrs.isDir = true) (inside : At below names a) :
      At (.cons name attrs below rest) (name :: names) a
  | skip {name : FileName} {attrs : SftpAttrs} {below rest : Listing} {names : List FileName} {a : SftpAttrs}
      (later : At rest names a) : At (.cons name attrs below rest) names a

/-- Going down by these names, through directories that can be listed, comes to a
file. -/
inductive Reads (fails : String → Bool) : String → Listing → List FileName → SftpAttrs → Prop where
  | here {dirPath : String} {name : FileName} {attrs : SftpAttrs} {below rest : Listing}
      (plain : name.isDots = false) (file : attrs.isDir = false) :
      Reads fails dirPath (.cons name attrs below rest) [name] attrs
  | down {dirPath : String} {name : FileName} {attrs : SftpAttrs} {below rest : Listing} {names : List FileName}
      {a : SftpAttrs} (plain : name.isDots = false) (dir : attrs.isDir = true)
      (listed : fails (joinPath dirPath name.text) = false)
      (inside : Reads fails (joinPath dirPath name.text) below names a) :
      Reads fails dirPath (.cons name attrs below rest) (name :: names) a
  | skip {dirPath : String} {name : FileName} {attrs : SftpAttrs} {below rest : Listing} {names : List FileName}
      {a : SftpAttrs} (later : Reads fails dirPath rest names a) :
      Reads fails dirPath (.cons name attrs below rest) names a

/-- Going down by these names passes a directory that cannot be listed. -/
inductive Blocked (fails : String → Bool) : String → Listing → List FileName → Prop where
  | here {dirPath : String} {name : FileName} {attrs : SftpAttrs} {below rest : Listing} {names : List FileName}
      (plain : name.isDots = false) (dir : attrs.isDir = true)
      (unlisted : fails (joinPath dirPath name.text) = true) (inside : names ≠ []) :
      Blocked fails dirPath (.cons name attrs below rest) (name :: names)
  | down {dirPath : String} {name : FileName} {attrs : SftpAttrs} {below rest : Listing} {names : List FileName}
      (plain : name.isDots = false) (dir : attrs.isDir = true)
      (inside : Blocked fails (joinPath dirPath name.text) below names) :
      Blocked fails dirPath (.cons name attrs below rest) (name :: names)
  | skip {dirPath : String} {name : FileName} {attrs : SftpAttrs} {below rest : Listing} {names : List FileName}
      (later : Blocked fails dirPath rest names) : Blocked fails dirPath (.cons name attrs below rest) names

variable {fails : String → Bool} {dirPath : String} {name : FileName} {attrs : SftpAttrs} {below rest : Listing}

/-- The files reached through one entry and those after it. -/
theorem reads_cons_iff {names : List FileName} {a : SftpAttrs} :
    Reads fails dirPath (.cons name attrs below rest) names a ↔
      (name.isDots = false ∧ attrs.isDir = false ∧ names = [name] ∧ a = attrs) ∨
      (name.isDots = false ∧ attrs.isDir = true ∧ fails (joinPath dirPath name.text) = false ∧
        ∃ more, names = name :: more ∧ Reads fails (joinPath dirPath name.text) below more a) ∨
      Reads fails dirPath rest names a := by
  constructor
  · intro reads
    cases reads with
    | here plain file => exact .inl ⟨plain, file, rfl, rfl⟩
    | down plain dir listed inside => exact .inr (.inl ⟨plain, dir, listed, _, rfl, inside⟩)
    | skip later => exact .inr (.inr later)
  · rintro (⟨plain, file, rfl, rfl⟩ | ⟨plain, dir, listed, more, rfl, inside⟩ | later)
    · exact .here plain file
    · exact .down plain dir listed inside
    · exact .skip later

/-- The relative path of an entry. -/
theorem relPath_down (above : List FileName) (name : FileName) :
    (if relPath above = "" then name.text else joinPath (relPath above) name.text) = relPath (above ++ [name]) := by
  by_cases top : above = []
  · simp [top, relPath_singleton]
  · rw [if_neg (relPath_ends top).1, joinPath_relPath top]

/-- The loop adds the files it reaches, under their relative paths. -/
theorem mem_keys_walkEntries (fails : String → Bool) (l : Listing) (dirPath : String) (above : List FileName)
    (result : Dict String SftpAttrs) (key : String) :
    key ∈ (walkEntries fails dirPath (relPath above) l result).keys ↔
      key ∈ result.keys ∨ ∃ names a, Reads fails dirPath l names a ∧ key = relPath (above ++ names) := by
  induction l generalizing dirPath above result with
  | nil =>
    have none_ : ∀ names a, ¬ Reads fails dirPath .nil names a := fun _ _ reads => by cases reads
    simp [walkEntries, none_]
  | cons name attrs below rest inner outer =>
    rw [walkEntries, outer, relPath_down]
    simp only [reads_cons_iff]
    cases name.isDots with
    | true => simp
    | false =>
      cases attrs.isDir with
      | false =>
        simp only [Bool.false_eq_true, if_false, Dict.mem_keys_insert, true_and, false_and, false_or]
        constructor
        · rintro ((rfl | old) | ⟨names, a, later, rfl⟩)
          · exact .inr ⟨[name], attrs, .inl ⟨rfl, rfl⟩, rfl⟩
          · exact .inl old
          · exact .inr ⟨names, a, .inr later, rfl⟩
        · rintro (old | ⟨names, a, ⟨rfl, rfl⟩ | later, rfl⟩)
          · exact .inl (.inr old)
          · exact .inl (.inl rfl)
          · exact .inr ⟨names, a, later, rfl⟩
      | true =>
        cases fails (joinPath dirPath name.text) with
        | true => simp
        | false =>
          simp only [Bool.false_eq_true, reduceCtorEq, if_false, if_true, inner, true_and, false_and, false_or, List.append_assoc,
            List.singleton_append]
          constructor
          · rintro ((old | ⟨names, a, inside, rfl⟩) | ⟨names, a, later, rfl⟩)
            · exact .inl old
            · exact .inr ⟨name :: names, a, .inl ⟨names, rfl, inside⟩, rfl⟩
            · exact .inr ⟨names, a, .inr later, rfl⟩
          · rintro (old | ⟨names, a, ⟨more, rfl, inside⟩ | later, rfl⟩)
            · exact .inl (.inl old)
            · exact .inl (.inr ⟨more, a, inside, rfl⟩)
            · exact .inr ⟨names, a, later, rfl⟩

end Listing

namespace RemotePath

/-- The tree under `basePath` has something at `rel`. -/
def Has (r : RemotePath) (basePath rel : String) : Prop :=
  match r.root with
  | none => False
  | some (attrs, listing) =>
    if attrs.isDir then ∃ names a, listing.At names a ∧ rel = relPath names else rel = basename basePath

/-- The listing reaches the file at `rel`. -/
def Lists (r : RemotePath) (basePath rel : String) : Prop :=
  match r.root with
  | none => False
  | some (attrs, listing) =>
    if attrs.isDir = true ∧ r.isdirFails = false then
      r.readdirFails basePath = false ∧
        ∃ names a, listing.Reads r.readdirFails basePath names a ∧ rel = relPath names
    else r.statFails = false ∧ rel = basename basePath

/-- The path itself, or a directory on the way from it to `rel`, cannot be listed. -/
def Hides (r : RemotePath) (basePath rel : String) : Prop :=
  match r.root with
  | none => True
  | some (attrs, listing) =>
    if attrs.isDir then
      r.isdirFails = true ∨ r.readdirFails basePath = true ∨
        ∃ names, listing.Blocked r.readdirFails basePath names ∧ rel = relPath names
    else r.statFails = true

/-- **The listing holds exactly the files it reaches.** -/
theorem mem_keys_sftpListTree (r : RemotePath) (basePath rel : String) :
    rel ∈ (sftpListTree r basePath).keys ↔ r.Lists basePath rel := by
  obtain ⟨root, isdirFails, statFails, readdirFails⟩ := r
  cases root with
  | none => cases isdirFails <;> cases statFails <;> simp [sftpListTree, isdir, stat, Lists]
  | some root =>
    obtain ⟨attrs, listing⟩ := root
    have below := listing.mem_keys_walkEntries readdirFails basePath [] Dict.empty rel
    rw [relPath_nil] at below
    cases dir : attrs.isDir <;> cases isdirFails <;> cases statFails <;> cases fails : readdirFails basePath <;>
      simp [sftpListTree, isdir, stat, Lists, dir, fails, below, Dict.mem_keys_insert]

end RemotePath

end McpSsh
