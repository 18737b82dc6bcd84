import Mixin.Span

/-!
# Modifiers

The nine modifiers a declaration may carry, the sets they form, and the lists in which they are
written.
-/

namespace Mixin

inductive Modifier where
  | abstract
  | final
  | sealed
  | case
  | override
  | «private»
  | «protected»
  | implicit
  | lazy
  deriving DecidableEq, Repr, Inhabited

namespace Modifier

/-- The modifiers by weight: the one at position `i` stands for the bit `2 ^ i`. -/
def byWeight : List Modifier :=
  [abstract, final, sealed, case, override, «private», «protected», implicit, lazy]

def canonical : List Modifier :=
  [«private», «protected», override, abstract, final, sealed, implicit, lazy, case]

def keyword : Modifier → String
  | abstract => "abstract"
  | final => "final"
  | sealed => "sealed"
  | case => "case"
  | override => "override"
  | «private» => "private"
  | «protected» => "protected"
  | implicit => "implicit"
  | lazy => "lazy"

def ofKeyword? (word : String) : Option Modifier := canonical.find? (·.keyword == word)

/-- The position of the bit that stands for a modifier. -/
def weight (m : Modifier) : Nat := byWeight.idxOf m

end Modifier

structure ModifierSet where
  mem : Modifier → Bool

namespace ModifierSet

def empty : ModifierSet := ⟨fun _ => false⟩

def ofList (ms : List Modifier) : ModifierSet := ⟨ms.contains⟩

def contains (s : ModifierSet) (m : Modifier) : Bool := s.mem m

def complement (s : ModifierSet) : ModifierSet := ⟨fun m => !s.mem m⟩

def toList (s : ModifierSet) : List Modifier := Modifier.canonical.filter s.contains

def keywords (s : ModifierSet) : List String := s.toList.map Modifier.keyword

def bits (s : ModifierSet) : Nat := s.toList.foldr (fun m sum => Nat.pow 2 m.weight + sum) 0

/-- The member of a set that has exactly one. -/
def single? (s : ModifierSet) : Option Modifier :=
  match s.toList with
  | [m] => some m
  | _ => none

@[simp] theorem contains_ofList (ms : List Modifier) (m : Modifier) :
    (ofList ms).contains m = ms.contains m := rfl

@[simp] theorem contains_complement (s : ModifierSet) (m : Modifier) :
    s.complement.contains m = !s.contains m := rfl

end ModifierSet

/-- Modifiers as written, each with its place; one may be repeated. -/
structure ModifierList where
  written : List (Modifier × Span)
  deriving Inhabited

namespace ModifierList

def empty : ModifierList := ⟨[]⟩

def set (ms : ModifierList) : ModifierSet := ModifierSet.ofList (ms.written.map (·.1))

def contains (ms : ModifierList) (m : Modifier) : Bool := ms.set.contains m

/-- Where `m` is written first. -/
def spanOf? (ms : ModifierList) (m : Modifier) : Option Span :=
  (ms.written.find? (·.1 == m)).map (·.2)

def firstOf? (ms : ModifierList) (rejected : ModifierSet) : Option (Modifier × Span) :=
  ms.written.find? fun w => rejected.contains w.1

end ModifierList

end Mixin
