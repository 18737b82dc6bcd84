import Mixin.Analysis.Basic

/-!
# Resolving supertypes

The names behind `extends` and `with` are looked up, and what they denote becomes the superclass and
the traits of a type. Case classes and case objects inherit from two marker traits besides, where
such traits exist. Then every circle of inheritance is reported and all its edges are dropped, until
none is left.
-/

namespace Mixin

/-- One type inherits from another because of what is written at `span`. -/
structure Inheritance where
  heir : ClassId
  parent : ClassId
  span : Span
  deriving DecidableEq, Repr, Inhabited

/-- What the parents of a definition denote. -/
structure Resolution where
  superclass : Option ClassId
  traits : List ClassId
  edges : List Inheritance
  diagnostics : List Diagnostic

/-- The traits from which case classes and case objects inherit. -/
def caseMarkers : List String := ["Product", "Serializable"]

/-- Adds a parent of a definition to what was resolved. Only the first parent, and only if it is no
trait, becomes the superclass. -/
def Resolution.addParent (t : SymbolTable) (d : TypeDef) (heir : ClassId) (r : Resolution)
    (parent : Ident × Nat) : Resolution :=
  let (name, position) := parent
  match t.lookup? name.text with
  | none =>
    { r with
      diagnostics := r.diagnostics ++ [.unresolvedSupertype name.text d.name.text name.span] }
  | some id =>
    let edges := r.edges ++ [⟨heir, id, name.span⟩]
    if position = 0 ∧ (t.classInfo id).kind ≠ .trait then
      { r with superclass := some id, edges := edges }
    else { r with traits := r.traits ++ [id], edges := edges }

/-- Adds a marker trait to what was resolved, unless it is there already. -/
def Resolution.addMarker (t : SymbolTable) (d : TypeDef) (heir : ClassId) (r : Resolution)
    (marker : String) : Resolution :=
  match t.lookup? marker with
  | some id =>
    if id ∈ r.traits then r
    else { r with traits := r.traits ++ [id], edges := r.edges ++ [⟨heir, id, d.signature⟩] }
  | none => r

def Resolution.ofTypeDef (t : SymbolTable) (d : TypeDef) (heir : ClassId) : Resolution :=
  let written := d.parents.map fun p => p.type.name
  let resolved := written.zipIdx.foldl (addParent t d heir) ⟨none, [], [], []⟩
  if d.isCase then caseMarkers.foldl (addMarker t d heir) resolved else resolved

/-- The circle as a list of edges: from each type to the next, and from the last to the first. -/
def cycleLinks {α : Type} : List α → List (α × α)
  | [] => []
  | first :: rest => (first :: rest).zip (rest ++ [first])

/-- What is left of the hierarchy while circles are cut out of it. -/
structure Untangling where
  symbols : SymbolTable
  edges : List Inheritance
  diagnostics : List Diagnostic
  events : List Event

namespace Untangling

def graph (u : Untangling) : Graph ClassId :=
  ⟨u.symbols.classIds, u.edges.map fun e => (e.heir, e.parent)⟩

def describeLink (u : Untangling) (link : ClassId × ClassId) : Ident where
  text := (u.symbols.classInfo link.1).name
  span :=
    ((u.edges.find? fun e => e.heir = link.1 ∧ e.parent = link.2).map (·.span)).getD .topOfFile

def dropLink (u : Untangling) (link : ClassId × ClassId) : Untangling :=
  { u with
    symbols := u.symbols.removeSupertype link.1 link.2
    edges := u.edges.filter fun e => ¬ (e.heir = link.1 ∧ e.parent = link.2) }

/-- Reports a circle and drops its edges. -/
def breakCycle (u : Untangling) (cycle : List ClassId) : Untangling :=
  let links := cycleLinks cycle
  match links.map u.describeLink with
  | [] => u
  | first :: rest =>
    let reported :=
      { u with
        diagnostics := u.diagnostics ++ [.cyclicInheritance first rest]
        events := u.events ++ [.cycleBroken links.length] }
    links.foldl dropLink reported

/-- Breaks one circle of each component, and repeats this for as long as circles are found. -/
def breakCycles (u : Untangling) : Untangling :=
  match u.graph.cycles with
  | [] => u
  | cycle :: cycles =>
    let broken := (cycle :: cycles).foldl breakCycle u
    if broken.edges.length < u.edges.length then breakCycles broken else broken
termination_by u.edges.length

end Untangling

namespace Analysis

def resolveType (state : Analysis × List Inheritance) (d : TypeDef) :
    Except Unanalyzed (Analysis × List Inheritance) :=
  match state.1.registry.classOf d with
  | .error u => .error u
  | .ok id =>
    let r := Resolution.ofTypeDef state.1.symbols d id
    let resolved :=
      { state.1 with symbols := state.1.symbols.setSupertypes id r.superclass r.traits }
    .ok (resolved.report r.diagnostics, state.2 ++ r.edges)

def resolveSupertypes (a : Analysis) (units : List Program) : Except Unanalyzed Analysis :=
  match (units.flatMap (·.definitions)).foldlM resolveType (a, []) with
  | .error u => .error u
  | .ok (resolved, edges) =>
    let untangled := Untangling.breakCycles ⟨resolved.symbols, edges, [], []⟩
    .ok (({ resolved with symbols := untangled.symbols }.report untangled.diagnostics).log
      untangled.events)

end Analysis

end Mixin
