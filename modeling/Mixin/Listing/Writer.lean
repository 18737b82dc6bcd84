/-!
# Indented text

A `Writer` puts text together and indents its lines: the first character of a line is preceded by
two blanks for each level, unless the line is the first one of all. Empty lines are not indented.
Texts are written by `Writer.Call`s, which fail if they move lines further out than they were moved
in.
-/

namespace Mixin

structure Writer where
  text : String
  level : Nat
  /-- Whether a line has ended and nothing is written on the next one yet. -/
  atLineStart : Bool
  deriving DecidableEq, Repr, Inhabited

namespace Writer

inductive Call where
  | write (s : String)
  | indent
  | dedent
  deriving DecidableEq, Repr

def empty : Writer := ⟨"", 0, false⟩

def indentation (level : Nat) : String := String.ofList (List.replicate (2 * level) ' ')

def put (w : Writer) (c : Char) : Writer :=
  if c = '\n' then { w with text := w.text.push c, atLineStart := true }
  else if w.atLineStart then
    { w with text := (w.text ++ indentation w.level).push c, atLineStart := false }
  else { w with text := w.text.push c }

def write (w : Writer) (s : String) : Writer := s.toList.foldl put w

def indent (w : Writer) : Writer := { w with level := w.level + 1 }

/-- Moves the lines that follow one level out, unless they are at the outermost level. -/
def dedent (w : Writer) : Option Writer :=
  if w.level = 0 then none else some { w with level := w.level - 1 }

/-- Does what is asked, if it can be done. -/
def perform (w : Writer) : Call → Option Writer
  | .write s => some (w.write s)
  | .indent => some w.indent
  | .dedent => w.dedent

def run (calls : List Call) : Option Writer := calls.foldlM perform empty

theorem write_append (w : Writer) (s t : String) : w.write (s ++ t) = (w.write s).write t := by
  simp [write, String.toList_append, List.foldl_append]

theorem level_put (w : Writer) (c : Char) : (w.put c).level = w.level := by
  rw [put]
  split
  · rfl
  · split <;> rfl

theorem level_write (w : Writer) (s : String) : (w.write s).level = w.level := by
  unfold write
  generalize s.toList = cs
  induction cs generalizing w with
  | nil => rfl
  | cons c cs ih => exact (ih (w.put c)).trans (level_put w c)

end Writer

end Mixin
