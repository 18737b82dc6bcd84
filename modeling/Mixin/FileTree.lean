import Mixin.Path

/-!
# File trees

Files in memory, each under its path from the root, and a directory in which relative paths begin. A
directory exists if it is the current one, lies on the way to it, or lies on the way to a file.
-/

namespace Mixin

/-- Files, and the directory in which relative paths begin. -/
structure FileTree where
  here : List (List Char)
  files : List (List (List Char) × ByteArray)

namespace FileTree

def file? (t : FileTree) (place : List (List Char)) : Option ByteArray :=
  (t.files.find? fun f => f.1 == place).map (·.2)

def isDirectory (t : FileTree) (place : List (List Char)) : Bool :=
  place.isPrefixOf t.here ||
    t.files.any fun f => place.isPrefixOf f.1 && place.length < f.1.length

/-- Whether a file can have this name: one of at most 255 bytes and without the character zero. -/
def isName (name : List Char) : Bool :=
  !name.contains '\x00' && (String.ofList name).utf8ByteSize ≤ 255

/-- The place to which the segments of a path lead from `place`. A step can only be made in a
directory that exists. -/
def walk (t : FileTree) (place : List (List Char)) :
    List (List Char) → Option (List (List Char))
  | [] => some place
  | segment :: rest =>
    if !t.isDirectory place then none
    else if Path.isIdle segment then walk t place rest
    else if segment == ['.', '.'] then walk t place.dropLast rest
    else if isName segment then walk t (place ++ [segment]) rest
    else none

/-- The place to which a path leads. The empty path leads nowhere, and so does one of 4096 bytes or
more. -/
def locate? (t : FileTree) (path : String) : Option (List (List Char)) :=
  match path.toList with
  | [] => none
  | c :: rest =>
    if path.utf8ByteSize < 4096 then
      t.walk (if c == '/' then [] else t.here) (Path.segments (c :: rest))
    else none

def read? (t : FileTree) (path : String) : Option ByteArray :=
  (t.locate? path).bind t.file?

/-- The tree with a file put where the path leads, in an existing directory. It takes the place of
the file that is there. -/
def write? (t : FileTree) (path : String) (content : ByteArray) : Option FileTree :=
  match t.locate? path with
  | none => none
  | some place =>
    if t.isDirectory place then none
    else some { t with files := t.files.filter (fun f => f.1 != place) ++ [(place, content)] }

/-- What is written at a place can be read there. -/
theorem file?_write? {t after : FileTree} {path : String} {content : ByteArray}
    {place : List (List Char)} (hp : t.locate? path = some place)
    (hw : t.write? path content = some after) : after.file? place = some content := by
  simp only [write?, hp] at hw
  split at hw
  · cases hw
  · cases hw
    simp only [file?, List.find?_append]
    have hnone : (t.files.filter fun f => f.1 != place).find? (fun f => f.1 == place) = none := by
      simp [List.find?_eq_none]
    simp [hnone]

/-- Writing at one place leaves all others as they are. -/
theorem file?_write?_of_ne {t after : FileTree} {path : String} {content : ByteArray}
    {place other : List (List Char)} (hp : t.locate? path = some place)
    (hw : t.write? path content = some after) (hne : other ≠ place) :
    after.file? other = t.file? other := by
  simp only [write?, hp] at hw
  split at hw
  · cases hw
  · cases hw
    have hkeep : (t.files.filter fun f => f.1 != place).find? (fun f => f.1 == other) =
        t.files.find? fun f => f.1 == other := by
      rw [List.find?_filter]
      congr 1
      funext f
      by_cases hf : f.1 = other
      · simp [hf, hne]
      · simp [hf]
    have hlast : [(place, content)].find? (fun f => f.1 == other) = none := by
      simp [hne.symm]
    simp only [file?, List.find?_append, hkeep, hlast, Option.or_none]

end FileTree

end Mixin
