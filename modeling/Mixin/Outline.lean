/-!
# Outlines

Structured values written over several lines. A node opens, shows each of its items on a line of its
own, four blanks further to the right and with a comma behind it, and closes. A node without items
stays on one line.
-/

namespace Mixin

inductive Outline where
  /-- A value that is written as it is. -/
  | leaf (text : String)
  /-- A value behind its label. -/
  | entry (label : String) (value : Outline)
  /-- A value made of items. -/
  | node (opening : String) (items : List Outline) (closing : String)
  deriving Inhabited

namespace Outline

mutual

/-- The text of an outline whose first line is already begun. Later lines begin with `margin`. -/
def renderFrom (margin : String) : Outline → String
  | leaf text => text
  | entry label value => label ++ ": " ++ renderFrom margin value
  | node opening items closing =>
    if items.isEmpty then opening ++ closing
    else opening ++ "\n" ++ renderItems (margin ++ "    ") items ++ margin ++ closing

def renderItems (margin : String) : List Outline → String
  | [] => ""
  | item :: rest => margin ++ renderFrom margin item ++ ",\n" ++ renderItems margin rest

end

def render (o : Outline) : String := o.renderFrom ""

def record (name : String) (parts : List (String × Outline)) : Outline :=
  node (name ++ " \x7b") (parts.map fun part => entry part.1 part.2) "\x7d"

def wrap (name : String) (value : Outline) : Outline := node (name ++ "(") [value] ")"

def pair (first second : Outline) : Outline := node "(" [first, second] ")"

def sequence {α : Type} (outline : α → Outline) (values : List α) : Outline :=
  node "[" (values.map outline) "]"

def optional {α : Type} (outline : α → Outline) : Option α → Outline
  | none => leaf "None"
  | some value => wrap "Some" (outline value)

def number (n : Nat) : Outline := leaf (toString n)

def truth (b : Bool) : Outline := leaf (if b then "true" else "false")

end Outline

end Mixin
