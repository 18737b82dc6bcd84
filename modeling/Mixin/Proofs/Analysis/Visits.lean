import Mixin.Analysis.Visit
import Mixin.Proofs.Tree.Parts

/-!
# The syntax tree and the walk through it

`Phrase.children` says what each phrase of a program consists of, in the order in which it is
written, and `Phrase.preorder` lists a phrase and all phrases in it, each with the phrases around
it. They are the parts of the program in their order (`Phrase.sublist_spans`). The walk through a
program is the list of its phrases, restricted to those that are visited (`Program.visits_eq`).
-/

namespace Mixin

/-! ### Phrases -/

/-- A node of the syntax tree. Types are not taken apart: only types stand in them. -/
inductive Phrase where
  | program (p : Program)
  | definition (d : TypeDef)
  | typeParameter (p : TypeParameter)
  | parameter (p : Parameter)
  | parent (p : Parent)
  | field (f : Field)
  | method (m : Method)
  | type (t : TypeExpr)
  | expr (e : Expr)
  | omitted (span : Span)
  | binder (b : Binder)
  | block (statements : List Stmt)
  | statement (s : Stmt)

namespace Phrase

def ofMember : Member → Phrase
  | .field f => field f
  | .method m => method m

def ofInitializer : Initializer → Phrase
  | .given value => expr value
  | .omitted span => omitted span

def ofExpr : Expr → List Phrase
  | .int .. | .float .. | .bool .. | .char .. | .string .. => []
  | .null _ | .unit _ | .this _ | .reference _ => []
  | .select receiver _ _ => [expr receiver]
  | .call callee arguments _ => expr callee :: arguments.map expr
  | .create named arguments _ => type named.toTypeExpr :: arguments.map expr
  | .unary _ operand _ => [expr operand]
  | .binary _ lhs rhs _ => [expr lhs, expr rhs]
  | .assign target value _ => [expr target, expr value]
  | .ifThen condition consequent _ => [expr condition, expr consequent]
  | .ifElse condition consequent alternative _ =>
    [expr condition, expr consequent, expr alternative]
  | .loop condition body _ => [expr condition, expr body]
  | .closure parameters body _ => parameters.map binder ++ [expr body]
  | .block statements _ => [block statements]

def children : Phrase → List Phrase
  | program p => p.definitions.map definition
  | definition d =>
    d.typeParameters.map typeParameter ++ d.parameters.map parameter ++ d.parents.map parent ++
      d.members.map ofMember
  | typeParameter p => p.bound.toList.map type
  | parameter p => type p.type :: p.default.toList.map expr
  | parent p => type p.type.toTypeExpr :: p.arguments.map expr
  | field f => f.type.toList.map type ++ [ofInitializer f.initializer]
  | method m =>
    m.typeParameters.map typeParameter ++ m.parameters.map parameter ++ m.result.toList.map type ++
      m.body.toList.map expr
  | expr e => ofExpr e
  | binder b => b.type.toList.map type
  | block statements => statements.map statement
  | statement (.define _ _ annotation initializer _) =>
    annotation.toList.map type ++ [expr initializer]
  | statement (.eval e) => [expr e]
  | type _ | omitted _ => []

@[grind =] theorem sizeOf_ofMember (m : Member) : sizeOf (ofMember m) = sizeOf m := by
  cases m <;> simp [ofMember]

@[grind =] theorem sizeOf_ofInitializer (i : Initializer) :
    sizeOf (ofInitializer i) = sizeOf i := by
  cases i <;> simp [ofInitializer]

@[grind =] theorem sizeOf_toTypeExpr (n : NamedType) : sizeOf n.toTypeExpr = sizeOf n := by
  cases n
  simp [NamedType.toTypeExpr]

theorem sizeOf_lt_of_mem_children {n c : Phrase} (h : c ∈ n.children) : sizeOf c < sizeOf n := by
  cases n with
  | program x | definition x | typeParameter x | parameter x | parent x | field x | method x
  | binder x =>
    cases x
    simp [children, Method.parameters] at h
    grind [→ List.sizeOf_lt_of_mem]
  | block x =>
    simp only [children, List.mem_map] at h
    grind [→ List.sizeOf_lt_of_mem]
  | statement x | expr x =>
    cases x <;> simp [children, ofExpr] at h
    all_goals grind [→ List.sizeOf_lt_of_mem]
  | type x | omitted x => cases h

/-- A phrase and all phrases in it, each with the phrases around it, from the inside out. -/
def preorder (around : List Phrase) (n : Phrase) : List (Phrase × List Phrase) :=
  (n, around) :: n.children.attach.flatMap fun c => preorder (n :: around) c.1
termination_by sizeOf n
decreasing_by exact sizeOf_lt_of_mem_children c.2

theorem preorder_eq (around : List Phrase) (n : Phrase) :
    preorder around n = (n, around) :: n.children.flatMap (preorder (n :: around)) := by
  rw [preorder, List.flatMap_subtype (g := preorder (n :: around)) fun _ _ => rfl,
    List.unattach_attach]

/-! ### Order -/

/-- Where a phrase stands. A program, a block and an expression in the place of a statement have no
spans of their own. -/
def span? : Phrase → Option Span
  | definition d => d.signature
  | typeParameter p => p.span
  | parameter p => p.span
  | parent p => p.span
  | field f => f.span
  | method m => m.signature
  | type t => t.span
  | expr e => e.span
  | omitted span => span
  | binder b => b.span
  | statement (.define _ _ _ _ span) => span
  | statement (.eval _) | program _ | block _ => none

/-- Where phrases stand that are listed with those around them. -/
def spans (ns : List (Phrase × List Phrase)) : List Span := ns.filterMap (·.1.span?)

def parts : Phrase → List Part
  | program p => p.toParts
  | definition d => [d.toPart]
  | typeParameter p => [p.toPart]
  | parameter p => [p.toPart]
  | parent p => [p.toPart]
  | field f => [f.toPart]
  | method m => [m.toPart]
  | type t => [t.toPart]
  | expr e => [e.toPart]
  | omitted span => [(Initializer.omitted span).toPart]
  | binder b => [b.toPart]
  | block statements => statements.map Stmt.toPart
  | statement s => [s.toPart]

theorem parts_ofMember (m : Member) : (ofMember m).parts = [m.toPart] := by
  cases m <;> rfl

theorem parts_ofInitializer (i : Initializer) : (ofInitializer i).parts = [i.toPart] := by
  cases i <;> rfl

theorem flatMap_parts {α : Type} {f : α → Phrase} {g : α → Part} (h : ∀ a, (f a).parts = [g a])
    (as : List α) : (as.map f).flatMap parts = as.map g := by
  rw [List.flatMap_map, List.map_eq_flatMap]
  simp only [h]

theorem flatMap_types (ts : List TypeExpr) :
    (ts.map type).flatMap parts = ts.map TypeExpr.toPart :=
  flatMap_parts (fun _ => rfl) ts

theorem flatMap_exprs (es : List Expr) : (es.map expr).flatMap parts = es.map Expr.toPart :=
  flatMap_parts (fun _ => rfl) es

theorem parts_cases (n : Phrase) : (∃ t, n = type t) ∨
    n.span? = none ∧ n.parts = n.children.flatMap parts ∨
      ∃ p, n.span? = some p.span ∧ n.parts = [p] ∧ p.parts = n.children.flatMap parts := by
  have hbounds : ∀ ps : List TypeParameter, _ := flatMap_parts (f := typeParameter) fun _ => rfl
  have hparameters : ∀ ps : List Parameter, _ := flatMap_parts (f := parameter) fun _ => rfl
  cases n with
  | type t => exact .inl ⟨t, rfl⟩
  | program p => exact .inr (.inl ⟨rfl, (flatMap_parts (fun _ => rfl) _).symm⟩)
  | block ss => exact .inr (.inl ⟨rfl, (flatMap_parts (fun _ => rfl) _).symm⟩)
  | definition d =>
    refine .inr (.inr ⟨_, rfl, rfl, ?_⟩)
    simp only [children, List.flatMap_append, List.append_assoc, hbounds, hparameters,
      flatMap_parts (f := parent) (g := Parent.toPart) fun _ => rfl, flatMap_parts parts_ofMember]
    rfl
  | method m =>
    refine .inr (.inr ⟨_, rfl, rfl, ?_⟩)
    simp only [children, List.flatMap_append, List.append_assoc, hbounds, hparameters,
      flatMap_types, flatMap_exprs]
    rfl
  | field f =>
    refine .inr (.inr ⟨_, rfl, rfl, ?_⟩)
    simp only [children, List.flatMap_append, flatMap_types, List.flatMap_singleton,
      parts_ofInitializer]
    rfl
  | typeParameter p => exact .inr (.inr ⟨_, rfl, rfl, (flatMap_types _).symm⟩)
  | parameter p => exact .inr (.inr ⟨_, rfl, rfl, (congrArg _ (flatMap_exprs _)).symm⟩)
  | parent p => exact .inr (.inr ⟨_, rfl, rfl, (congrArg _ (flatMap_exprs _)).symm⟩)
  | binder b => exact .inr (.inr ⟨_, rfl, rfl, (flatMap_types _).symm⟩)
  | omitted span => exact .inr (.inr ⟨_, rfl, rfl, rfl⟩)
  | expr e =>
    refine .inr (.inr ⟨_, congrArg some e.span_toPart.symm, rfl, ?_⟩)
    cases e with
    | call | create =>
      rw [Expr.toPart, Expr.toParts_eq_map, ← flatMap_exprs]
      rfl
    | closure bs body =>
      simp only [children, ofExpr, List.flatMap_append,
        flatMap_parts (f := binder) (g := Binder.toPart) fun _ => rfl]
      rfl
    | block ss =>
      rw [Expr.toPart, Stmt.toParts_eq_map]
      exact (List.append_nil _).symm
    | _ => rfl
  | statement s =>
    cases s with
    | eval e => exact .inr (.inl ⟨rfl, rfl⟩)
    | define =>
      refine .inr (.inr ⟨_, rfl, rfl, ?_⟩)
      simp only [children, List.flatMap_append, flatMap_types]
      rfl

theorem sublist_flatMap {around ns : List Phrase}
    (h : ∀ n ∈ ns, (spans (preorder around n)).Sublist ((Part.listAll n.parts).map Part.span)) :
    (spans (ns.flatMap (preorder around))).Sublist
      ((Part.listAll (ns.flatMap parts)).map Part.span) := by
  induction ns with
  | nil => exact .refl _
  | cons n ns ih =>
    obtain ⟨hn, hns⟩ := List.forall_mem_cons.mp h
    rw [List.flatMap_cons, spans, List.filterMap_append, List.flatMap_cons,
      Part.listAll_append, List.map_append]
    exact hn.append (ih hns)

/-- Phrases are listed in the order of the parts that they are. -/
theorem sublist_spans (around : List Phrase) (n : Phrase) :
    (spans (preorder around n)).Sublist ((Part.listAll n.parts).map Part.span) := by
  have hchildren := sublist_flatMap fun c (_ : c ∈ n.children) => sublist_spans (n :: around) c
  rw [preorder_eq]
  rcases n.parts_cases with ⟨t, rfl⟩ | ⟨hspan, hparts⟩ | ⟨p, hspan, hparts, hp⟩
  · refine List.singleton_sublist.mpr (List.mem_map.mpr ⟨t.toPart, ?_, t.span_toPart⟩)
    exact Part.mem_listAll_of_mem (List.mem_singleton_self _)
  · simp only [spans, List.filterMap_cons, hspan, hparts]
    exact hchildren
  · rw [← hp] at hchildren
    cases p
    simp only [spans, List.filterMap_cons, hspan, hparts, Part.listAll, Part.listing,
      List.append_nil]
    exact hchildren.cons_cons _
termination_by sizeOf n
decreasing_by exact sizeOf_lt_of_mem_children ‹_›

/-! ### Visits -/

/-- What is visited where a phrase stands. Members and parameters are visited with the type or the
method in which they stand, by the identifiers that the registry has for these; anywhere else they
have none. -/
def visit (r : Registry) : Phrase × List Phrase → Except Unanalyzed (Option Visit)
  | (definition d, _) => return some (.type d (← r.classOf d))
  | (parameter p, definition d :: _) =>
    return some (.parameter p.name (.type ⟨← r.classOf d, d.kind⟩ (r.parameterField? p)))
  | (parameter p, method m :: _) => return some (.parameter p.name (.method (← r.methodOf m)))
  | (parameter p, _) => throw (.field p.name.text)
  | (field f, definition d :: _) => do
    let owner := ⟨← r.classOf d, d.kind⟩
    return some (.field f (← r.fieldOf f) owner)
  | (field f, _) => throw (.field f.name.text)
  | (method m, definition d :: _) => do
    let owner := ⟨← r.classOf d, d.kind⟩
    return some (.method m (← r.methodOf m) owner)
  | (method m, _) => throw (.method m.name.text)
  | (binder b, _) => return some (.parameter b.name .closure)
  | (expr e, _) => return some (.expr e)
  | (omitted span, _) => return some (.omitted span)
  | (block statements, _) => return some (.block statements)
  | (statement (.define _ name _ _ _), _) => return some (.define name)
  | (program _, _) | (typeParameter _, _) | (parent _, _) | (type _, _) => return none
  | (statement (.eval _), _) => return none

/-- What is visited at phrases that stand one behind another, and at all phrases in them. -/
def visits (r : Registry) (around ns : List Phrase) : Except Unanalyzed (List Visit) :=
  (ns.flatMap (preorder around)).filterMapM (visit r)

section Visits

variable {r : Registry} {around ns ms : List Phrase} {n : Phrase} {v : Visit}
  {vs ws : List Visit}

@[simp] theorem visits_nil (r : Registry) (around : List Phrase) :
    visits r around [] = .ok [] := rfl

theorem visits_append (r : Registry) (around ns ms : List Phrase) :
    visits r around (ns ++ ms) =
      (do return (← visits r around ns) ++ (← visits r around ms)) := by
  have happend (xs ys : List (Phrase × List Phrase)) : (xs ++ ys).filterMapM (visit r) =
      (do return (← xs.filterMapM (visit r)) ++ (← ys.filterMapM (visit r))) := by
    induction xs with
    | nil => simp
    | cons x xs ih =>
      simp only [List.cons_append, List.filterMapM_cons, ih, bind_assoc]
      congr
      funext v
      cases v <;> simp
  rw [visits, List.flatMap_append, happend]
  rfl

theorem visits_singleton (r : Registry) (around : List Phrase) (n : Phrase) :
    visits r around [n] =
      (do return (← visit r (n, around)).toList ++ (← visits r (n :: around) n.children)) := by
  rw [visits, List.flatMap_singleton, preorder_eq, List.filterMapM_cons]
  congr
  funext v
  cases v <;> simp [visits]

theorem visits_visited (hv : visit r (n, around) = .ok (some v))
    (hvs : visits r (n :: around) n.children = .ok vs) : visits r around [n] = .ok (v :: vs) := by
  rw [visits_singleton, hv, hvs]
  rfl

theorem visits_passed (hv : visit r (n, around) = .ok none)
    (hvs : visits r (n :: around) n.children = .ok vs) : visits r around [n] = .ok vs := by
  rw [visits_singleton, hv, hvs]
  rfl

theorem visits_join (hvs : visits r around ns = .ok vs) (hws : visits r around ms = .ok ws) :
    visits r around (ns ++ ms) = .ok (vs ++ ws) := by
  rw [visits_append, hvs, hws]
  rfl

theorem visits_cons (hvs : visits r around [n] = .ok vs) (hws : visits r around ns = .ok ws) :
    visits r around (n :: ns) = .ok (vs ++ ws) :=
  visits_join hvs hws

theorem visits_map {α : Type} {f : α → Phrase} {g : α → List Visit}
    (h : ∀ a, visits r around [f a] = .ok (g a)) (as : List α) :
    visits r around (as.map f) = .ok (as.flatMap g) := by
  induction as with
  | nil => rfl
  | cons a as ih => exact visits_cons (h a) ih

theorem visits_types (types : List TypeExpr) : visits r around (types.map type) = .ok [] := by
  have h : ∀ t, visits r around [type t] = .ok [] := fun t => visits_passed rfl (visits_nil ..)
  rw [visits_map h, List.flatMap_eq_nil_iff.mpr fun _ _ => rfl]

theorem visits_binders (bs : List Binder) :
    visits r around (bs.map binder) = .ok (bs.map fun b => .parameter b.name .closure) := by
  have h (b : Binder) : visits r around [binder b] = .ok [.parameter b.name .closure] :=
    visits_visited rfl (visits_types _)
  rw [visits_map h, List.map_eq_flatMap]

mutual

theorem visits_expr (r : Registry) (around : List Phrase) (e : Expr) :
    visits r around [expr e] = .ok e.visits := by
  rw [Expr.visits.eq_def]
  refine visits_visited rfl ?_
  match e with
  | .int .. | .float .. | .bool .. | .char .. | .string .. => rfl
  | .null _ | .unit _ | .this _ | .reference _ => rfl
  | .select receiver _ _ => exact visits_expr r _ receiver
  | .call callee arguments _ =>
    exact visits_cons (visits_expr r _ callee) (visits_exprs r _ arguments)
  | .create named arguments _ => exact visits_cons (visits_types [_]) (visits_exprs r _ arguments)
  | .unary _ operand _ => exact visits_expr r _ operand
  | .binary _ lhs rhs _ | .assign lhs rhs _ | .ifThen lhs rhs _ | .loop lhs rhs _ =>
    exact visits_cons (visits_expr r _ lhs) (visits_expr r _ rhs)
  | .ifElse condition consequent alternative _ =>
    have hchosen (around : List Phrase) :=
      visits_cons (visits_expr r around condition) (visits_expr r around consequent)
    exact visits_join (hchosen _) (visits_expr r _ alternative)
  | .closure parameters body _ => exact visits_join (visits_binders _) (visits_expr r _ body)
  | .block statements _ => exact visits_visited rfl (visits_statements r _ statements)

theorem visits_statement (r : Registry) (around : List Phrase) (s : Stmt) :
    visits r around [statement s] = .ok s.visits := by
  match s with
  | .define _ name annotation initializer _ =>
    exact visits_visited rfl (visits_join (visits_types _) (visits_expr r _ initializer))
  | .eval e => exact visits_passed rfl (visits_expr r _ e)

theorem visits_exprs (r : Registry) (around : List Phrase) (es : List Expr) :
    visits r around (es.map expr) = .ok (exprListVisits es) := by
  match es with
  | [] => rfl
  | e :: rest => exact visits_cons (visits_expr r around e) (visits_exprs r around rest)

theorem visits_statements (r : Registry) (around : List Phrase) (ss : List Stmt) :
    visits r around (ss.map statement) = .ok (stmtListVisits ss) := by
  match ss with
  | [] => rfl
  | s :: rest => exact visits_cons (visits_statement r around s) (visits_statements r around rest)

end

theorem visits_expr? (e? : Option Expr) :
    visits r around (e?.toList.map expr) = .ok ((e?.map Expr.visits).getD []) := by
  cases e? with
  | none => rfl
  | some e => exact visits_expr r around e

theorem visits_parameters {owner : Parameter → ParameterOwner}
    (h : ∀ p, visit r (parameter p, around) = .ok (some (.parameter p.name (owner p))))
    (ps : List Parameter) :
    visits r around (ps.map parameter) = .ok (ps.flatMap fun p => p.visits (owner p)) :=
  visits_map (fun p => visits_visited (h p) (visits_cons (visits_types [_]) (visits_expr? _))) ps

theorem visits_typeParameters (ps : List TypeParameter) :
    visits r around (ps.map typeParameter) = .ok [] := by
  have h (p : TypeParameter) : visits r around [typeParameter p] = .ok [] :=
    visits_passed rfl (visits_types _)
  rw [visits_map h, List.flatMap_eq_nil_iff.mpr fun _ _ => rfl]

theorem visits_parents (ps : List Parent) :
    visits r around (ps.map parent) = .ok (ps.flatMap fun p => exprListVisits p.arguments) :=
  visits_map (fun _ => visits_passed rfl (visits_cons (visits_types [_]) (visits_exprs r _ _))) ps

theorem visits_mapM {α : Type} {f : α → Except Unanalyzed (List Visit)} {g : α → Phrase}
    (h : ∀ a, f a = visits r around [g a]) (as : List α) :
    (do return (← as.mapM f).flatten) = visits r around (as.map g) := by
  induction as with
  | nil => rfl
  | cons a as ih =>
    refine Eq.trans ?_ (visits_append r around [g a] (as.map g)).symm
    rw [← ih, ← h, List.mapM_cons]
    simp

theorem visits_initializer (i : Initializer) :
    visits r around [ofInitializer i] = .ok i.visits := by
  cases i with
  | given value => exact visits_expr r around value
  | omitted span => exact visits_visited rfl (visits_nil ..)

theorem visits_member {d : TypeDef} {id : ClassId} (hid : r.classOf d = .ok id) (m : Member) :
    m.visits r ⟨id, d.kind⟩ = visits r (definition d :: around) [ofMember m] := by
  cases m with
  | field f =>
    have hchildren : visits r (field f :: definition d :: around) (field f).children =
        .ok f.initializer.visits := visits_join (visits_types _) (visits_initializer _)
    rw [Member.visits, ofMember, visits_singleton, hchildren, visit, hid]
    cases r.fieldOf f <;> rfl
  | method m =>
    rw [Member.visits, ofMember, visits_singleton, visit, hid]
    cases hm : r.methodOf m with
    | error u => rfl
    | ok owner =>
      have howner (p : Parameter) : visit r (parameter p, method m :: definition d :: around) =
          .ok (some (.parameter p.name (.method owner))) := by
        rw [visit, hm]
        rfl
      have hhead := visits_join (visits_typeParameters m.typeParameters)
        (visits_parameters howner m.parameters)
      have hsignature := visits_join hhead (visits_types m.result.toList)
      rw [List.append_nil] at hsignature
      rw [children, visits_join hsignature (visits_expr? m.body)]
      rfl

theorem visits_definition (d : TypeDef) : d.visits r = visits r around [definition d] := by
  rw [TypeDef.visits, visits_singleton, visit]
  cases hid : r.classOf d with
  | error u => rfl
  | ok id =>
    have howner (p : Parameter) : visit r (parameter p, definition d :: around) =
        .ok (some (.parameter p.name (.type ⟨id, d.kind⟩ (r.parameterField? p)))) := by
      rw [visit, hid]
      rfl
    have hhead := visits_join (visits_typeParameters d.typeParameters)
      (visits_parameters howner d.parameters)
    rw [children, visits_append, visits_join hhead (visits_parents d.parents),
      ← visits_mapM (visits_member hid)]
    show (d.members.mapM (Member.visits r ⟨id, d.kind⟩)).bind _ = _
    cases d.members.mapM (Member.visits r ⟨id, d.kind⟩) <;> rfl

end Visits

end Phrase

/-- The walk through a program is the list of its phrases, restricted to those that are visited. -/
theorem Program.visits_eq (r : Registry) (p : Program) :
    p.visits r = (Phrase.preorder [] (.program p)).filterMapM (Phrase.visit r) := by
  have hprogram : Phrase.visits r [] [.program p] =
      Phrase.visits r [.program p] (p.definitions.map .definition) := by
    simp [Phrase.visits_singleton, Phrase.visit, Phrase.children]
  rw [Program.visits, Phrase.visits_mapM Phrase.visits_definition, ← hprogram, Phrase.visits,
    List.flatMap_singleton]

end Mixin
