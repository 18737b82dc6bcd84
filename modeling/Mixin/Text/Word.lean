import Mixin.Text.WordTable

/-!
# Characters of names

`isWordStart` and `isWordContinue` say which characters may begin a name and which may go on with
one: letters and digits in the sense of Unicode, the underscore and the dollar sign. Below 128 the
answer is spelled out, above it comes from the tables.
-/

namespace Mixin.Text

def isWordStart (c : Char) : Bool :=
  if c.toNat < 128 then c.isAlpha || c == '_' || c == '$' else wordStartTable.contains c

/-- Characters that may stand in a name after its first one. -/
def isWordContinue (c : Char) : Bool :=
  if c.toNat < 128 then c.isAlphanum || c == '_' || c == '$'
  else wordStartTable.contains c || wordMarkTable.contains c

def operatorChars : List Char :=
  ['+', '-', '*', '/', '%', '<', '>', '=', '!', '&', '|', '^', '~', ':', '?', '#', '@', '\\']

def isOperatorChar (c : Char) : Bool := operatorChars.contains c

/-- No operator character can go on with a name, so a name ends where an operator begins. -/
theorem isWordContinue_of_isOperatorChar {c : Char} (h : isOperatorChar c = true) :
    isWordContinue c = false := by
  have hall : operatorChars.all (fun d => !isWordContinue d) = true := by decide
  have hc := List.all_eq_true.1 hall c (List.contains_iff_mem.1 h)
  exact Bool.not_eq_true' (isWordContinue c) ▸ hc

end Mixin.Text
