/-!
# Paths

Paths are read as segments between slashes. Empty segments and segments `.` at the end of a path are
passed over, so `a/b`, `a/b/` and `a/b/.` all end in the file name `b`. A file name has a stem,
which goes up to its last dot unless that is its first character.
-/

namespace Mixin.Path

/-- What stands before, between and after the slashes of a path. -/
def segments : List Char → List (List Char)
  | [] => [[]]
  | c :: rest =>
    if c == '/' then [] :: segments rest
    else
      match segments rest with
      | [] => [[c]]
      | first :: others => (c :: first) :: others

def join : List (List Char) → List Char
  | [] => []
  | [segment] => segment
  | segment :: rest => segment ++ '/' :: join rest

/-- Whether a segment names no step. -/
def isIdle (segment : List Char) : Bool := segment == [] || segment == ['.']

/-- The file name that a path ends in, behind the segments before it in reverse order. A path that
ends in `..` has no file name. -/
def fileName? (path : List Char) : Option (List Char × List (List Char)) :=
  match (segments path).reverse.dropWhile isIdle with
  | [] => none
  | name :: before => if name == ['.', '.'] then none else some (name, before)

/-- A file name up to its last dot. All of it, if it has no dot except perhaps the first
character. -/
def stem (name : List Char) : List Char :=
  match name.reverse.dropWhile (· != '.') with
  | _ :: c :: before => (c :: before).reverse
  | _ => name

def stem? (path : String) : Option String :=
  (fileName? path.toList).map fun (name, _) => String.ofList (stem name)

/-- A path with `extension` in place of what follows the stem. A path without a file name stays as
it is. -/
def withExtension (path : String) (extension : String) : String :=
  match fileName? path.toList with
  | none => path
  | some (name, before) =>
    String.ofList (join (before.reverse ++ [stem name ++ '.' :: extension.toList]))

/-- Cutting a path at its slashes loses nothing. -/
theorem join_segments (path : List Char) : join (segments path) = path := by
  induction path with
  | nil => rfl
  | cons c rest ih =>
    cases h : segments rest with
    | nil => simp [join, h] at ih; subst ih; simp [segments] at h
    | cons first others =>
      by_cases hc : c = '/'
      · subst hc; rw [h] at ih; simp [segments, h, join, ih]
      · cases others <;> simp_all [segments, join]

end Mixin.Path
