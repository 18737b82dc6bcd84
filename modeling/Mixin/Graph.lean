/-!
# Directed graphs

Depth-first traversal (`explore`), strongly connected components and one cycle for each component
that has any (`Graph.cycles`). A traversal keeps a list of nodes still to be looked at; it ends
because each step either takes a new node or shortens that list.
-/

namespace Mixin

section Traversal

variable {α : Type} [DecidableEq α]

theorem length_erase_lt {nodes : List α} {a : α} (ha : a ∈ nodes) :
    (nodes.erase a).length < nodes.length := by
  have hpos := List.length_pos_of_mem ha
  rw [List.length_erase_of_mem ha]
  omega

/-- Lists depth first what can be reached from the `pending` nodes through `unvisited` ones, in the
order of the successors and each node once. -/
def explore (successors : α → List α) (unvisited pending : List α) : List α :=
  match pending with
  | [] => []
  | a :: rest =>
    if _h : a ∈ unvisited then
      a :: explore successors (unvisited.erase a) (successors a ++ rest)
    else explore successors unvisited rest
termination_by (unvisited.length, pending.length)
decreasing_by
  · exact Prod.Lex.left _ _ (length_erase_lt _h)
  · exact Prod.Lex.right _ (Nat.lt_succ_self _)

end Traversal

/-- A directed graph. Edges may be repeated and may lead from a node to itself. -/
structure Graph (α : Type) where
  /-- The nodes, the smallest first. -/
  nodes : List α
  /-- The edges, the oldest first. -/
  edges : List (α × α)

namespace Graph

variable {α : Type} [DecidableEq α]

/-- The nodes to which edges lead from `a`, the youngest edge first. -/
def successors (g : Graph α) (a : α) : List α :=
  ((g.edges.filter fun e => e.1 = a).map (·.2)).reverse

/-- The nodes from which edges lead to `a`, the youngest edge first. -/
def predecessors (g : Graph α) (a : α) : List α :=
  ((g.edges.filter fun e => e.2 = a).map (·.1)).reverse

/-- The nodes to which a path of one edge or more leads from `a`. -/
def reachable (g : Graph α) (a : α) : List α := explore g.successors g.nodes (g.successors a)

/-- The nodes from which a path of one edge or more leads to `a`. -/
def reaching (g : Graph α) (a : α) : List α :=
  explore g.predecessors g.nodes (g.predecessors a)

/-- The nodes that lie on a common cycle with `a`; none if `a` is on no cycle. -/
def component (g : Graph α) (a : α) : List α :=
  let ahead := g.reachable a
  if a ∈ ahead then
    let behind := g.reaching a
    g.nodes.filter fun b => b ∈ ahead ∧ b ∈ behind
  else []

/-- Goes depth first through `unvisited` nodes until an edge leads back to `start`. With each
pending node goes the path on which it was met, the last node first. -/
def search (g : Graph α) (start : α) (unvisited : List α) (pending : List (α × List α)) :
    Option (List α) :=
  match pending with
  | [] => none
  | (a, path) :: rest =>
    if a = start then some path.reverse
    else if _h : a ∈ unvisited then
      search g start (unvisited.erase a) ((g.successors a).map (·, a :: path) ++ rest)
    else search g start unvisited rest
termination_by (unvisited.length, pending.length)
decreasing_by
  · exact Prod.Lex.left _ _ (length_erase_lt _h)
  · exact Prod.Lex.right _ (Nat.lt_succ_self _)

/-- A cycle through `start` within its component, listed from `start` on. -/
def cycleThrough (g : Graph α) (component : List α) (start : α) : List α :=
  if (start, start) ∈ g.edges then [start]
  else (g.search start component ((g.successors start).map (·, [start]))).getD []

/-- One cycle for each component that has any, listed from the component's smallest node on; the
component with the smallest node first. -/
def cycles (g : Graph α) : List (List α) :=
  g.nodes.filterMap fun a =>
    let component := g.component a
    if component.head? = some a then some (g.cycleThrough component a) else none

end Graph

end Mixin
