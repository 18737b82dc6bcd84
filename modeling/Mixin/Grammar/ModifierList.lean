import Mixin.Grammar.Parser

/-!
# Reading modifiers

Modifiers are read wherever a definition, a member or a parameter may begin, and only then checked
against what they stand on.
-/

namespace Mixin.Parser

def modifiers : Parser ModifierList := do
  let written ← many do
    match ← look (·.peek.kind.modifier?) with
    | some m =>
      let t ← next
      return some (m, t.span)
    | none => return none
  return ⟨written⟩

/-- Fails if one of the `rejected` modifiers is written, at the first of them. -/
def rejectModifiers (ms : ModifierList) (rejected : ModifierSet) (target : ModifierTarget) :
    Parser Unit :=
  match ms.firstOf? rejected with
  | some (m, span) => fail (.illegalModifier m target span)
  | none => pure ()

end Mixin.Parser
