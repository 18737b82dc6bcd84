import Mixin.Graph
import Mixin.Symbol.Table

/-!
# Inheritance

The order in which the supertypes of a type are searched (`chain`), the methods it has to implement
(`abstractMembers`) and the method that implements a signature (`implementation?`). All of it is
defined for any hierarchy, also one in which types inherit from themselves.
-/

namespace Mixin

/-- The elements with different keys, for each key the first, without those whose key was `seen`. -/
def distinctBy {α β : Type} [DecidableEq β] (key : α → β) (seen : List β) : List α → List α
  | [] => []
  | a :: rest =>
    if key a ∈ seen then distinctBy key seen rest else a :: distinctBy key (key a :: seen) rest

namespace SymbolTable

/-- The types other than the root from which a type inherits directly, in the order in which they
are searched: the traits, then the superclass. -/
def searchedParents (t : SymbolTable) (id : ClassId) : List ClassId :=
  let c := t.classInfo id
  (c.traits ++ c.superclass.toList).filter (· ≠ .root)

/-- A type and all its supertypes, in the order in which they are searched: the type, the chain of
each trait, the chain of the superclass, each type at its first place only, and the root at the
end. -/
def chain (t : SymbolTable) (id : ClassId) : List ClassId :=
  explore t.searchedParents t.classIds (if id = .root then [] else [id]) ++ [.root]

def chainMethods (t : SymbolTable) (id : ClassId) : List MethodId :=
  (t.chain id).flatMap fun c => (t.classInfo c).methods

/-- The method that implements a signature for a type: the first one in the chain that has a
body. -/
def implementation? (t : SymbolTable) (id : ClassId) (signature : Signature) : Option MethodId :=
  (t.chainMethods id).find? fun m =>
    !(t.methodInfo m).isAbstract && (t.methodInfo m).signature == signature

/-- The methods that a type still has to implement: those without a body for whose signature the
chain has no body, for each signature the first. -/
def abstractMembers (t : SymbolTable) (id : ClassId) : List MethodId :=
  let methods := t.chainMethods id
  let implemented :=
    (methods.filter fun m => !(t.methodInfo m).isAbstract).map fun m => (t.methodInfo m).signature
  distinctBy (fun m => (t.methodInfo m).signature) []
    (methods.filter fun m =>
      (t.methodInfo m).isAbstract && (t.methodInfo m).signature ∉ implemented)

def isSubtype (t : SymbolTable) (id ancestor : ClassId) : Bool := ancestor ∈ t.chain id

def setSupertypes (t : SymbolTable) (id : ClassId) (superclass : Option ClassId)
    (traits : List ClassId) : SymbolTable :=
  t.modifyClass id fun c => { c with superclass := superclass, traits := traits }

def removeSupertype (t : SymbolTable) (id parent : ClassId) : SymbolTable :=
  t.modifyClass id fun c =>
    { c with
      superclass := c.superclass.filter (· ≠ parent)
      traits := c.traits.filter (· ≠ parent) }

end SymbolTable

end Mixin
