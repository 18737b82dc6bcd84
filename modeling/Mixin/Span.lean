/-!
# Places in a source text

A `Location` is a point of a text: its offset in UTF-8 bytes, its line and its column, the last two
counted from one and the column in characters. A `Span` is a stretch of one of the two compiled
texts, with the line and the column at which it starts. Spans say where problems are shown, and the
registry knows definitions by them.
-/

namespace Mixin

/-- The two texts that are compiled together. -/
inductive SourceFile where
  | user
  | prelude
  deriving DecidableEq, Repr, Inhabited

structure Location where
  offset : Nat
  line : Nat
  column : Nat
  deriving DecidableEq, Repr, Inhabited

namespace Location

def start : Location := ⟨0, 1, 1⟩

/-- The point behind `c`, which stands at `loc`. Only a line feed ends a line. -/
def advance (loc : Location) (c : Char) : Location where
  offset := loc.offset + c.utf8Size
  line := if c = '\n' then loc.line + 1 else loc.line
  column := if c = '\n' then 1 else loc.column + 1

/-- The point behind `cs`, whose first character stands at `loc`. -/
def advanceAll (loc : Location) (cs : List Char) : Location := cs.foldl advance loc

@[simp] theorem advanceAll_nil (loc : Location) : loc.advanceAll [] = loc := rfl

@[simp] theorem advanceAll_cons (loc : Location) (c : Char) (cs : List Char) :
    loc.advanceAll (c :: cs) = (loc.advance c).advanceAll cs := rfl

@[simp] theorem advanceAll_append (loc : Location) (cs ds : List Char) :
    loc.advanceAll (cs ++ ds) = (loc.advanceAll cs).advanceAll ds := by
  simp [advanceAll, List.foldl_append]

/-- The point with the given offset in the text `cs` that begins at `loc`, if a character of the
text begins or the text ends there. -/
def find? (loc : Location) (cs : List Char) (offset : Nat) : Option Location :=
  if loc.offset = offset then some loc
  else
    match cs with
    | [] => none
    | c :: rest => find? (loc.advance c) rest offset

end Location

/-- A stretch of a text, with the line and the column of its first character. -/
structure Span where
  file : SourceFile
  start : Nat
  stop : Nat
  line : Nat
  column : Nat
  deriving DecidableEq, Repr, Inhabited

namespace Span

/-- Stands in where a place is asked for and none is ever shown. -/
def topOfFile : Span := ⟨.user, 0, 1, 1, 1⟩

/-- The stretch from `loc` to the offset `stop`. -/
def ofLocation (file : SourceFile) (loc : Location) (stop : Nat) : Span :=
  ⟨file, loc.offset, stop, loc.line, loc.column⟩

def location (s : Span) : Location := ⟨s.start, s.line, s.column⟩

/-- The smallest span that covers two spans of one text. -/
def through (s t : Span) : Span :=
  if t.start < s.start then { t with stop := max t.stop s.stop }
  else { s with stop := max s.stop t.stop }

/-- The empty span behind `s`, where `text` is what `s` covers and holds no line feed. -/
def after (s : Span) (text : String) : Span :=
  { s with start := s.stop, column := s.column + text.length }

/-- The empty span at the start of `s`. -/
def before (s : Span) : Span := { s with stop := s.start }

/-- The span of the bytes from `start` to `stop` of `text`, unless `start` lies behind the end of
the text or inside a character. -/
def ofOffsets? (file : SourceFile) (text : String) (start stop : Nat) : Option Span :=
  (Location.start.find? text.toList start).map fun loc => ofLocation file loc stop

/-- The empty span at the end of `text`. -/
def endOf (file : SourceFile) (text : String) : Span :=
  let loc := Location.start.advanceAll text.toList
  ofLocation file loc loc.offset

end Span

end Mixin
