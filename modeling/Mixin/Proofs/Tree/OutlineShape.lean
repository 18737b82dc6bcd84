import Mixin.Tree.Outline

/-!
# What outlines of programs show

The types of syntax trees leave no room for some trees: a parent that is not a named type, a closure
parameter with a default. Outlines show these parts nevertheless, and `Outline.Regular` says of each
of them what it can be. The parts of an outline are visited with what stands around them, since an
empty expression or a parameter may be of one form in one place and of another one elsewhere.
-/

namespace Mixin

namespace Outline

/-! ### Parts -/

def opening : Outline → String
  | leaf _ => ""
  | entry _ _ => ""
  | node opening _ _ => opening

def labelled? : Outline → Option (String × Outline)
  | leaf _ => none
  | entry label value => some (label, value)
  | node _ _ _ => none

def part? (o : Outline) (label : String) : Option Outline :=
  match o with
  | leaf _ => none
  | entry _ _ => none
  | node _ items _ => (items.filterMap labelled?).lookup label

mutual

/-- The property holds of an outline and of all its parts, each with the labels and openings around
it, the innermost first. -/
def Everywhere (P : List String → Outline → Prop) (around : List String) : Outline → Prop
  | leaf text => P around (leaf text)
  | entry label value => P around (entry label value) ∧ Everywhere P (label :: around) value
  | node opening items closing =>
    P around (node opening items closing) ∧ EverywhereIn P (opening :: around) items

def EverywhereIn (P : List String → Outline → Prop) (around : List String) : List Outline → Prop
  | [] => True
  | o :: rest => Everywhere P around o ∧ EverywhereIn P around rest

end

theorem everywhereIn_iff {P : List String → Outline → Prop} {around : List String}
    {os : List Outline} : EverywhereIn P around os ↔ ∀ o ∈ os, Everywhere P around o := by
  induction os with
  | nil => simp [EverywhereIn]
  | cons o os ih => rw [EverywhereIn, ih, List.forall_mem_cons]

/-! ### Regular outlines -/

def inClosure : List String := ["[", "parameters", "ClosureExpr \x7b"]

def inField : List String := ["Some(", "initializer", "FieldDef \x7b"]

/-- Values that cannot stand everywhere, or not in every form. -/
def restricted : List String := ["Empty(", "ParentRef \x7b", "Parameter \x7b", "ModifierList \x7b"]

/-- Of what form a part of a program is, given what stands around it. -/
structure Regular (around : List String) (o : Outline) : Prop where
  /-- An empty expression is all of the value of a field. -/
  empty : o.opening = "Empty(" → inField <+: around
  /-- Parents are named types. -/
  parent : o.opening = "ParentRef \x7b" → ∃ type, o.part? "type_" = some (wrap "Named" type)
  /-- Parameters of classes and methods have a type. -/
  typed : o.opening = "Parameter \x7b" → ¬inClosure <+: around →
    ∃ type, o.part? "type_" = some (wrap "Some" type)
  /-- Parameters of closures have no modifiers, no binding and no default. -/
  bare : o.opening = "Parameter \x7b" → inClosure <+: around →
    o.part? "modifiers" = some ModifierList.empty.outline ∧
      o.part? "binding" = some (leaf "None") ∧ o.part? "default" = some (leaf "None")
  /-- The modifiers shown as a set are those that are written. -/
  modifiers : o.opening = "ModifierList \x7b" → ∃ ws : List (Modifier × Span),
    o.part? "flags" = some (ModifierSet.ofList (ws.map (·.1))).outline ∧
      o.part? "spans" =
        some (sequence (fun w => pair (ModifierSet.ofList [w.1]).outline w.2.outline) ws)

variable {around : List String}

theorem regular_of_opening {o : Outline} (s : String) (ho : o.opening = s) (hs : s ∉ restricted) :
    Regular around o := by
  have hother : ∀ t ∈ restricted, o.opening ≠ t := by
    rintro t ht rfl
    exact hs (ho ▸ ht)
  simp only [restricted, List.forall_mem_cons] at hother
  obtain ⟨hempty, hparent, hparameter, hmodifiers, -⟩ := hother
  exact ⟨fun h => absurd h hempty, fun h => absurd h hparent, fun h => absurd h hparameter,
    fun h => absurd h hparameter, fun h => absurd h hmodifiers⟩

abbrev AllRegular (around : List String) (o : Outline) : Prop := o.Everywhere Regular around

@[simp] theorem allRegular_leaf (text : String) : (leaf text).AllRegular around :=
  regular_of_opening "" rfl (by decide)

@[simp] theorem allRegular_number (n : Nat) : (number n).AllRegular around := allRegular_leaf _

@[simp] theorem allRegular_truth (b : Bool) : (truth b).AllRegular around := allRegular_leaf _

theorem allRegular_record {name : String} {parts : List (String × Outline)}
    (hself : (record name parts).Regular around)
    (hparts : ∀ part ∈ parts, part.2.AllRegular (part.1 :: (name ++ " \x7b") :: around)) :
    (record name parts).AllRegular around := by
  refine ⟨hself, everywhereIn_iff.mpr fun o ho => ?_⟩
  obtain ⟨part, hpart, rfl⟩ := List.mem_map.mp ho
  exact ⟨regular_of_opening "" rfl (by decide), hparts part hpart⟩

theorem allRegular_wrap {name : String} {value : Outline} (hself : (wrap name value).Regular around)
    (hvalue : value.AllRegular ((name ++ "(") :: around)) : (wrap name value).AllRegular around :=
  ⟨hself, hvalue, trivial⟩

theorem allRegular_tagged {tag name : String} {parts : List (String × Outline)}
    (htag : tag ++ "(" ∉ restricted) (hname : name ++ " \x7b" ∉ restricted)
    (hparts : ∀ part ∈ parts, part.2.AllRegular (part.1 :: (name ++ " \x7b") :: (tag ++ "(") ::
      around)) : (wrap tag (record name parts)).AllRegular around :=
  allRegular_wrap (regular_of_opening _ rfl htag)
    (allRegular_record (regular_of_opening _ rfl hname) hparts)

theorem allRegular_items {items : List Outline}
    (h : ∀ o ∈ items, o.AllRegular ("[" :: around)) : (node "[" items "]").AllRegular around :=
  ⟨regular_of_opening "[" rfl (by decide), everywhereIn_iff.mpr h⟩

theorem allRegular_sequence {α : Type} {f : α → Outline} {as : List α}
    (h : ∀ a ∈ as, (f a).AllRegular ("[" :: around)) : (sequence f as).AllRegular around :=
  allRegular_items (List.forall_mem_map.mpr h)

theorem allRegular_some {value : Outline} (h : value.AllRegular ("Some(" :: around)) :
    (wrap "Some" value).AllRegular around :=
  allRegular_wrap (regular_of_opening "Some(" rfl (by decide)) h

theorem allRegular_optional {α : Type} {f : α → Outline} {a? : Option α}
    (h : ∀ a ∈ a?, (f a).AllRegular ("Some(" :: around)) : (optional f a?).AllRegular around := by
  cases a? with
  | none => exact allRegular_leaf _
  | some a => exact allRegular_some (h a rfl)

theorem allRegular_pair {a b : Outline} (ha : a.AllRegular ("(" :: around))
    (hb : b.AllRegular ("(" :: around)) : (pair a b).AllRegular around :=
  ⟨regular_of_opening "(" rfl (by decide), ha, hb, trivial⟩

end Outline

open Outline

variable {around : List String}

/-! ### Names, modifiers and types -/

@[simp] theorem Span.allRegular_outline (s : Span) : s.outline.AllRegular around :=
  allRegular_record (regular_of_opening "InputSpan \x7b" rfl (by decide)) (by simp)

@[simp] theorem Ident.allRegular_outline (name : Ident) : name.outline.AllRegular around :=
  allRegular_record (regular_of_opening "Identifier \x7b" rfl (by decide)) (by simp)

@[simp] theorem ModifierSet.allRegular_outline (s : ModifierSet) : s.outline.AllRegular around :=
  allRegular_wrap (regular_of_opening "Modifiers(" rfl (by decide)) (allRegular_leaf _)

@[simp] theorem ModifierList.allRegular_outline (ms : ModifierList) :
    ms.outline.AllRegular around := by
  refine allRegular_record ?_ ?_
  · refine ⟨?_, ?_, ?_, ?_, fun _ => ⟨ms.written, rfl, rfl⟩⟩ <;> simp [record, opening]
  · simp only [List.forall_mem_cons]
    refine ⟨ms.set.allRegular_outline, allRegular_sequence fun w _ => ?_, by simp⟩
    exact allRegular_pair (ModifierSet.allRegular_outline _) (Span.allRegular_outline _)

mutual

@[simp] theorem TypeExpr.allRegular_outline :
    ∀ (t : TypeExpr) (around : List String), t.outline.AllRegular around
  | .named name arguments span, around => by
    rw [TypeExpr.outline]
    refine allRegular_tagged (by decide) (by decide) ?_
    simp [allRegular_items (TypeExpr.allRegular_outlines arguments _)]
  | .function parameters result span, around => by
    rw [TypeExpr.outline]
    refine allRegular_tagged (by decide) (by decide) ?_
    simp [allRegular_items (TypeExpr.allRegular_outlines parameters _),
      TypeExpr.allRegular_outline result]
  | .tuple elements span, around => by
    rw [TypeExpr.outline]
    refine allRegular_tagged (by decide) (by decide) ?_
    simp [allRegular_items (TypeExpr.allRegular_outlines elements _)]

theorem TypeExpr.allRegular_outlines :
    ∀ (ts : List TypeExpr) (around : List String), ∀ o ∈ TypeExpr.outlines ts, o.AllRegular around
  | [], around => by simp [TypeExpr.outlines]
  | t :: ts, around => by
    rw [TypeExpr.outlines, List.forall_mem_cons]
    exact ⟨TypeExpr.allRegular_outline t around, TypeExpr.allRegular_outlines ts around⟩

end

@[simp] theorem TypeExpr.allRegular_optional (t? : Option TypeExpr) :
    (optional TypeExpr.outline t?).AllRegular around :=
  Outline.allRegular_optional fun t _ => t.allRegular_outline _

@[simp] theorem NamedType.allRegular_outline (t : NamedType) : t.outline.AllRegular around := by
  refine allRegular_record (regular_of_opening "NamedTypeExpr \x7b" rfl (by decide)) ?_
  simp only [List.forall_mem_cons]
  refine ⟨t.name.allRegular_outline, allRegular_sequence fun a _ => a.allRegular_outline _, ?_⟩
  simp

/-! ### Expressions -/

theorem Binder.allRegular_outline (b : Binder) (h : inClosure <+: around) :
    b.outline.AllRegular around := by
  refine allRegular_record ?_ ?_
  · refine ⟨?_, ?_, fun _ hout => absurd h hout, fun _ _ => ⟨rfl, rfl, rfl⟩, ?_⟩ <;>
      simp [record, opening]
  · simp

mutual

theorem Expr.allRegular_outline :
    ∀ (e : Expr) (around : List String), e.outline.AllRegular around
  | .int .., around | .float .., around | .bool .., around | .char .., around
  | .string .., around | .null _, around | .unit _, around | .this _, around
  | .reference _, around => by
    rw [Expr.outline]
    exact allRegular_tagged (by decide) (by decide) (by simp)
  | .select receiver name span, around => by
    rw [Expr.outline]
    refine allRegular_tagged (by decide) (by decide) ?_
    simp [Expr.allRegular_outline receiver]
  | .call callee arguments span, around => by
    rw [Expr.outline]
    refine allRegular_tagged (by decide) (by decide) ?_
    simp [Expr.allRegular_outline callee, allRegular_items (Expr.allRegular_outlines arguments _)]
  | .create type arguments span, around => by
    rw [Expr.outline]
    refine allRegular_tagged (by decide) (by decide) ?_
    simp [allRegular_items (Expr.allRegular_outlines arguments _)]
  | .unary operator operand span, around => by
    rw [Expr.outline]
    refine allRegular_tagged (by decide) (by decide) ?_
    simp [Expr.allRegular_outline operand]
  | .binary operator lhs rhs span, around => by
    rw [Expr.outline]
    refine allRegular_tagged (by decide) (by decide) ?_
    simp [Expr.allRegular_outline lhs, Expr.allRegular_outline rhs]
  | .assign target value span, around => by
    rw [Expr.outline]
    refine allRegular_tagged (by decide) (by decide) ?_
    simp [Expr.allRegular_outline target, Expr.allRegular_outline value]
  | .ifThen condition consequent span, around => by
    rw [Expr.outline]
    refine allRegular_tagged (by decide) (by decide) ?_
    simp [Expr.allRegular_outline condition, Expr.allRegular_outline consequent]
  | .ifElse condition consequent alternative span, around => by
    rw [Expr.outline]
    refine allRegular_tagged (by decide) (by decide) ?_
    simp [Expr.allRegular_outline condition, Expr.allRegular_outline consequent,
      allRegular_some (Expr.allRegular_outline alternative _)]
  | .loop condition body span, around => by
    rw [Expr.outline]
    refine allRegular_tagged (by decide) (by decide) ?_
    simp [Expr.allRegular_outline condition, Expr.allRegular_outline body]
  | .closure parameters body span, around => by
    rw [Expr.outline]
    refine allRegular_tagged (by decide) (by decide) ?_
    simp only [List.forall_mem_cons]
    refine ⟨allRegular_sequence fun b _ => b.allRegular_outline ⟨_, rfl⟩, ?_⟩
    simp [Expr.allRegular_outline body]
  | .block statements span, around => by
    rw [Expr.outline]
    refine allRegular_tagged (by decide) (by decide) ?_
    simp [allRegular_items (Stmt.allRegular_outlines statements _)]

theorem Expr.allRegular_outlines :
    ∀ (es : List Expr) (around : List String), ∀ o ∈ Expr.outlines es, o.AllRegular around
  | [], around => by simp [Expr.outlines]
  | e :: es, around => by
    rw [Expr.outlines, List.forall_mem_cons]
    exact ⟨Expr.allRegular_outline e around, Expr.allRegular_outlines es around⟩

theorem Stmt.allRegular_outline :
    ∀ (s : Stmt) (around : List String), s.outline.AllRegular around
  | .define binding name type initializer span, around => by
    rw [Stmt.outline]
    refine allRegular_tagged (by decide) (by decide) ?_
    simp [Expr.allRegular_outline initializer]
  | .eval e, around => by
    rw [Stmt.outline]
    exact allRegular_wrap (regular_of_opening "Expr(" rfl (by decide)) (Expr.allRegular_outline e _)

theorem Stmt.allRegular_outlines :
    ∀ (ss : List Stmt) (around : List String), ∀ o ∈ Stmt.outlines ss, o.AllRegular around
  | [], around => by simp [Stmt.outlines]
  | s :: ss, around => by
    rw [Stmt.outlines, List.forall_mem_cons]
    exact ⟨Stmt.allRegular_outline s around, Stmt.allRegular_outlines ss around⟩

end

theorem Expr.allRegular_sequence (es : List Expr) :
    (sequence Expr.outline es).AllRegular around :=
  Outline.allRegular_sequence fun e _ => e.allRegular_outline _

/-! ### Definitions -/

theorem TypeParameter.allRegular_sequence (ps : List TypeParameter) :
    (sequence TypeParameter.outline ps).AllRegular around := by
  refine Outline.allRegular_sequence fun p _ => ?_
  exact allRegular_record (regular_of_opening "TypeParameter \x7b" rfl (by decide)) (by simp)

theorem Parameter.allRegular_outline (p : Parameter) (h : ¬inClosure <+: around) :
    p.outline.AllRegular around := by
  refine allRegular_record ?_ ?_
  · refine ⟨?_, ?_, fun _ _ => ⟨p.type.outline, rfl⟩, fun _ hin => absurd hin h, ?_⟩ <;>
      simp [record, opening]
  · have hbinding : ∀ around, (optional Binding.outline p.binding).AllRegular around :=
      fun around => allRegular_optional fun b _ => by cases b <;> exact allRegular_leaf _
    have hdefault : ∀ around, (optional Expr.outline p.default).AllRegular around :=
      fun around => allRegular_optional fun e _ => e.allRegular_outline _
    simp [hbinding, hdefault, allRegular_some]

theorem Parent.allRegular_outline (p : Parent) : p.outline.AllRegular around := by
  refine allRegular_record ?_ ?_
  · refine ⟨?_, fun _ => ⟨_, rfl⟩, ?_, ?_, ?_⟩ <;> simp [record, opening]
  · simp [Expr.allRegular_sequence]

theorem Initializer.allRegular_outline (i : Initializer) (h : inField <+: around) :
    i.outline.AllRegular around := by
  cases i with
  | given value => exact value.allRegular_outline around
  | omitted span =>
    refine allRegular_wrap ?_ ?_
    · refine ⟨fun _ => h, ?_, ?_, ?_, ?_⟩ <;> simp [wrap, opening]
    · exact allRegular_record (regular_of_opening "EmptyExpr \x7b" rfl (by decide)) (by simp)

theorem Field.allRegular_outline (f : Field) : f.outline.AllRegular around := by
  refine allRegular_record (regular_of_opening "FieldDef \x7b" rfl (by decide)) ?_
  simp only [List.forall_mem_cons]
  refine ⟨f.modifiers.allRegular_outline, allRegular_truth _, f.name.allRegular_outline,
    TypeExpr.allRegular_optional _, allRegular_some ?_, by simp⟩
  exact f.initializer.allRegular_outline ⟨_, rfl⟩

theorem Method.allRegular_outline (m : Method) : m.outline.AllRegular around := by
  refine allRegular_record (regular_of_opening "FunctionDef \x7b" rfl (by decide)) ?_
  have hbody : ∀ around, (optional Expr.outline m.body).AllRegular around :=
    fun around => allRegular_optional fun e _ => e.allRegular_outline _
  simp only [List.forall_mem_cons]
  refine ⟨m.modifiers.allRegular_outline, m.name.allRegular_outline,
    TypeParameter.allRegular_sequence _, ?_, ?_⟩
  · refine allRegular_sequence fun clause _ => allRegular_sequence fun p _ => ?_
    exact p.allRegular_outline (by simp [inClosure])
  · simp [hbody]

theorem Member.allRegular_outline (m : Member) : m.outline.AllRegular around := by
  cases m with
  | field f =>
    exact allRegular_wrap (regular_of_opening "Field(" rfl (by decide)) f.allRegular_outline
  | method m =>
    exact allRegular_wrap (regular_of_opening "Method(" rfl (by decide)) m.allRegular_outline

theorem TypeDef.allRegular_outline (d : TypeDef) : d.outline.AllRegular around := by
  refine allRegular_record (regular_of_opening "TypeDef \x7b" rfl (by decide)) ?_
  simp only [List.forall_mem_cons]
  refine ⟨allRegular_leaf _, d.modifiers.allRegular_outline, d.name.allRegular_outline,
    TypeParameter.allRegular_sequence _, ?_, ?_, ?_, ?_⟩
  · exact allRegular_sequence fun p _ => p.allRegular_outline (by simp [inClosure])
  · exact allRegular_sequence fun p _ => p.allRegular_outline
  · exact allRegular_sequence fun m _ => m.allRegular_outline
  · simp

theorem Program.allRegular_outline (p : Program) : p.outline.AllRegular [] := by
  refine allRegular_record (regular_of_opening "Program \x7b" rfl (by decide)) ?_
  simp only [List.forall_mem_cons]
  exact ⟨allRegular_sequence fun d _ => d.allRegular_outline, by simp⟩

end Mixin
