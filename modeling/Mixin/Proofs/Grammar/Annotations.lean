import Mixin.Proofs.Grammar.Reading

/-!
# The types in a program

Types are written behind names, in brackets, behind `extends`, `with` and `new`, and inside other
types. Each of them is spelled by some of the tokens that spell the program
(`OfDefinitions.shows`).
-/

namespace Mixin

open Spelling

/-! ### Types in order -/

mutual

def TypeExpr.types : TypeExpr → List TypeExpr
  | .named name arguments span => .named name arguments span :: typesOfAll arguments
  | .function parameters result span =>
    .function parameters result span :: (typesOfAll parameters ++ result.types)
  | .tuple elements span => .tuple elements span :: typesOfAll elements

def TypeExpr.typesOfAll : List TypeExpr → List TypeExpr
  | [] => []
  | type :: rest => type.types ++ typesOfAll rest

end

def TypeExpr.typesOf? (type : Option TypeExpr) : List TypeExpr := type.toList.flatMap types

mutual

def Expr.types : Expr → List TypeExpr
  | .int .. => []
  | .float .. => []
  | .bool .. => []
  | .char .. => []
  | .string .. => []
  | .null _ => []
  | .unit _ => []
  | .this _ => []
  | .reference _ => []
  | .select receiver _ _ => receiver.types
  | .call callee arguments _ => callee.types ++ Expr.typesOfAll arguments
  | .create type arguments _ => type.toTypeExpr.types ++ Expr.typesOfAll arguments
  | .unary _ operand _ => operand.types
  | .binary _ lhs rhs _ => lhs.types ++ rhs.types
  | .assign target value _ => target.types ++ value.types
  | .ifThen condition consequent _ => condition.types ++ consequent.types
  | .ifElse condition consequent alternative _ =>
    condition.types ++ (consequent.types ++ alternative.types)
  | .loop condition body _ => condition.types ++ body.types
  | .closure parameters body _ =>
    parameters.flatMap (fun b => TypeExpr.typesOf? b.type) ++ body.types
  | .block statements _ => Expr.typesOfStatements statements

def Expr.typesOfAll : List Expr → List TypeExpr
  | [] => []
  | e :: rest => e.types ++ Expr.typesOfAll rest

def Stmt.types : Stmt → List TypeExpr
  | .define _ _ type initializer _ => TypeExpr.typesOf? type ++ initializer.types
  | .eval e => e.types

def Expr.typesOfStatements : List Stmt → List TypeExpr
  | [] => []
  | s :: rest => s.types ++ Expr.typesOfStatements rest

end

def TypeParameter.types (p : TypeParameter) : List TypeExpr := TypeExpr.typesOf? p.bound

def Parameter.types (p : Parameter) : List TypeExpr :=
  p.type.types ++ p.default.toList.flatMap Expr.types

def Parent.types (p : Parent) : List TypeExpr :=
  p.type.toTypeExpr.types ++ p.arguments.flatMap Expr.types

def Initializer.types : Initializer → List TypeExpr
  | given value => value.types
  | omitted _ => []

def Field.types (f : Field) : List TypeExpr := TypeExpr.typesOf? f.type ++ f.initializer.types

def Method.types (m : Method) : List TypeExpr :=
  m.typeParameters.flatMap TypeParameter.types ++
    (m.clauses.flatMap (List.flatMap Parameter.types) ++
      (TypeExpr.typesOf? m.result ++ m.body.toList.flatMap Expr.types))

def Member.types : Member → List TypeExpr
  | field f => f.types
  | method m => m.types

def TypeDef.types (d : TypeDef) : List TypeExpr :=
  d.typeParameters.flatMap TypeParameter.types ++ (d.parameters.flatMap Parameter.types ++
    (d.parents.flatMap Parent.types ++ d.members.flatMap Member.types))

def Program.types (p : Program) : List TypeExpr := p.definitions.flatMap TypeDef.types

theorem TypeExpr.typesOfAll_eq (types : List TypeExpr) :
    typesOfAll types = types.flatMap TypeExpr.types := by
  induction types with
  | nil => rfl
  | cons type rest ih => rw [typesOfAll, ih, List.flatMap_cons]

theorem Expr.typesOfAll_eq (es : List Expr) : typesOfAll es = es.flatMap types := by
  induction es with
  | nil => rfl
  | cons e rest ih => rw [typesOfAll, ih, List.flatMap_cons]

theorem Expr.typesOfStatements_eq (ss : List Stmt) :
    typesOfStatements ss = ss.flatMap Stmt.types := by
  induction ss with
  | nil => rfl
  | cons s rest ih => rw [typesOfStatements, ih, List.flatMap_cons]

/-! ### Tokens that show types -/

namespace Spelling

def Shows (ts : List Token) (types : List TypeExpr) : Prop :=
  ∀ a ∈ types, ∃ us, us ⊆ ts ∧ OfType us a

namespace Shows

variable {ts us : List Token} {types types' : List TypeExpr}

theorem nil (ts : List Token) : Shows ts [] := by simp [Shows]

theorem mono (h : Shows ts types) (hsub : ts ⊆ us) : Shows us types := by
  intro a ha
  obtain ⟨vs, hvs, hspelled⟩ := h a ha
  exact ⟨vs, List.Subset.trans hvs hsub, hspelled⟩

theorem both (h : Shows ts types) (h' : Shows ts types') : Shows ts (types ++ types') :=
  List.forall_mem_append.mpr ⟨h, h'⟩

theorem append (h : Shows ts types) (h' : Shows us types') :
    Shows (ts ++ us) (types ++ types') :=
  (h.mono (List.subset_append_left ..)).both (h'.mono (List.subset_append_right ..))

theorem behind (t : Token) (h : Shows ts types) : Shows (t :: ts) types :=
  h.mono (List.subset_cons_self ..)

theorem items {α : Type} {R : Spelling α} {f : α → List TypeExpr} {as : List α}
    (has : ∀ a ∈ as, ∃ us, us.Sublist ts ∧ R us a) (hR : ∀ us a, R us a → Shows us (f a)) :
    Shows ts (as.flatMap f) := by
  intro a ha
  obtain ⟨b, hb, ha⟩ := List.mem_flatMap.mp ha
  obtain ⟨us, hsub, hus⟩ := has b hb
  exact (hR us b hus).mono hsub.subset a ha

theorem item? {α : Type} {kind : TokenKind} {R : Spelling α} {f : α → List TypeExpr} {a? : Option α}
    (h : Behind kind R ts a?) (hR : ∀ us a, R us a → Shows us (f a)) :
    Shows ts (a?.toList.flatMap f) :=
  items (fun _ ha => h.exists_of_mem (Option.mem_toList.mp ha)) hR

end Shows

variable {ts : List Token}

/-! ### Types and expressions -/

theorem OfType.shows {a : TypeExpr} (h : OfType ts a) : Shows ts a.types := by
  have hself {us : List Token} {b : TypeExpr} {types : List TypeExpr} (hb : OfType us b)
      (htypes : Shows us types) : Shows us (b :: types) :=
    List.forall_mem_cons.mpr ⟨⟨us, List.Subset.refl _, hb⟩, htypes⟩
  induction h with
  | @named R ts n hR hn ih =>
    rw [NamedType.toTypeExpr, TypeExpr.types, TypeExpr.typesOfAll_eq]
    exact hself (.named hR hn) (.items (fun _ => hn.exists_of_mem) ih)
  | @arrow R ts n t us r hR hn ht hr ih ihr =>
    have hnamed : Shows ts n.toTypeExpr.types := by
      rw [NamedType.toTypeExpr, TypeExpr.types, TypeExpr.typesOfAll_eq]
      exact hself (.named hR hn) (.items (fun _ => hn.exists_of_mem) ih)
    rw [TypeExpr.types, TypeExpr.typesOfAll_eq, List.flatMap_singleton]
    exact hself (.arrow hR hn ht hr) (hnamed.append (ihr.behind t))
  | @function R ts as t us r hR has ht hr ih ihr =>
    rw [TypeExpr.types, TypeExpr.typesOfAll_eq]
    exact hself (.function hR has ht hr)
      ((Shows.items (fun _ => has.exists_of_mem) ih).append (ihr.behind t))
  | group _ has ih =>
    obtain ⟨us, hsub, hus⟩ := has.exists_of_mem (List.mem_singleton_self _)
    exact (ih us _ hus).mono hsub.subset
  | tuple hR has hlength ih =>
    rw [TypeExpr.types, TypeExpr.typesOfAll_eq]
    exact hself (.tuple hR has hlength) (.items (fun _ => has.exists_of_mem) ih)

theorem OfNamed.shows {n : NamedType} (h : OfNamed OfType ts n) : Shows ts n.toTypeExpr.types :=
  (OfType.named (fun _ _ h => h) h).shows

theorem shows_type? {kind : TokenKind} {type : Option TypeExpr} (h : Behind kind OfType ts type) :
    Shows ts (TypeExpr.typesOf? type) :=
  .item? h fun _ _ ha => ha.shows

theorem OfBinder.shows {b : Binder} (h : OfBinder ts b) :
    Shows ts (TypeExpr.typesOf? b.type) := by
  obtain ⟨-, htype⟩ := h
  exact (shows_type? htype).behind _

theorem OfStmt.shows {R : Spelling Expr} {s : Stmt} (h : OfStmt R ts s)
    (hR : ∀ us e, R us e → Shows us e.types) : Shows ts s.types := by
  cases h with
  | define _ _ htype _ he =>
    rw [Stmt.types]
    exact (((shows_type? htype).append ((hR _ _ he).behind _)).behind _).behind _
  | eval he =>
    rw [Stmt.types]
    exact hR _ _ he

theorem types_eq_nil_of_literal {t : Token} {e : Expr} (h : Literal.expr? t = some e) :
    e.types = [] := by
  unfold Literal.expr? at h
  split at h
  all_goals simp only [Option.map_eq_some_iff, Option.some.injEq, reduceCtorEq] at h
  next =>
    obtain ⟨value, -, rfl⟩ := h
    rfl
  next =>
    subst h
    rfl
  next =>
    obtain ⟨value, -, rfl⟩ := h
    rfl
  next =>
    obtain ⟨value, -, rfl⟩ := h
    rfl

theorem types_eq_nil_of_constant {t : Token} {e : Expr} (h : t.constant? = some e) :
    e.types = [] := by
  unfold Token.constant? at h
  split at h <;> cases h <;> rfl

theorem OfExpr.shows {e : Expr} (h : OfExpr ts e) : Shows ts e.types := by
  induction h with
  | literal h =>
    rw [types_eq_nil_of_literal h]
    exact .nil _
  | constant h =>
    rw [types_eq_nil_of_constant h]
    exact .nil _
  | reference => exact .nil _
  | unit => exact .nil _
  | group _ _ _ ih => exact (ih.mono (List.subset_append_left ..)).behind _
  | block _ hss ih =>
    rw [Expr.types, Expr.typesOfStatements_eq]
    exact .items (fun _ => hss.exists_of_mem) fun _ _ hs => hs.shows ih
  | create _ _ hn has ih =>
    rw [Expr.types, Expr.typesOfAll_eq]
    exact (hn.shows.append (.items (fun _ => has.exists_of_mem) ih)).behind _
  | select _ _ _ ih => exact ih.mono (List.subset_append_left ..)
  | call _ _ has ihe ih =>
    rw [Expr.types, Expr.typesOfAll_eq]
    exact ihe.append (.items (fun _ => has.exists_of_mem) ih)
  | unary _ _ _ ih => exact ih.behind _
  | binary _ _ _ iha ihb => exact iha.append (ihb.behind _)
  | assign _ _ _ iha ihb => exact iha.append (ihb.behind _)
  | ifThen _ _ _ _ _ iha ihb => exact ((iha.append (ihb.behind _)).behind _).behind _
  | ifElse _ _ _ _ _ _ _ iha ihb ihd =>
    exact ((iha.append ((ihb.append (ihd.behind _)).behind _)).behind _).behind _
  | loop _ _ _ _ _ iha ihb => exact ((iha.append (ihb.behind _)).behind _).behind _
  | closure hbs _ _ ih =>
    have hparameters := Shows.items (fun _ => hbs.exists_of_mem) fun _ _ hb => OfBinder.shows hb
    exact hparameters.append (ih.behind _)

/-! ### Definitions -/

theorem OfTypeParameter.shows {p : TypeParameter} (h : OfTypeParameter ts p) :
    Shows ts p.types := by
  obtain ⟨-, -, hbound⟩ := h
  exact ((shows_type? hbound).behind _).mono (List.subset_append_right ..)

theorem OfParameter.shows {rejected : ModifierSet} {B : Spelling (Option Binding)} {p : Parameter}
    (h : OfParameter rejected B ts p) : Shows ts p.types := by
  obtain ⟨-, -, -, -, -, htype, hdefault⟩ := h
  have htail := htype.shows.append (Shows.item? hdefault fun _ _ he => he.shows)
  exact (((htail.behind _).behind _).mono (List.subset_append_right ..)).mono
    (List.subset_append_right ..)

theorem OfParent.shows {p : Parent} (h : OfParent ts p) : Shows ts p.types := by
  obtain ⟨hn, has⟩ := h
  exact hn.shows.append (.items (fun _ => has.exists_of_mem) fun _ _ he => he.shows)

theorem OfParents.shows {ps : List Parent} (h : OfParents ts ps) :
    Shows ts (ps.flatMap Parent.types) := by
  cases h with
  | none => exact .nil _
  | some hp hps =>
    obtain ⟨-, hp⟩ := hp
    refine (hp.shows.behind _).append (.items (fun _ => hps.exists_of_mem) fun us p hp => ?_)
    obtain ⟨-, hp⟩ := hp
    exact hp.shows.behind _

theorem OfClassParameters.shows {isCase : Bool} {kind : TypeKind} {ps : List Parameter}
    (h : OfClassParameters isCase kind ts ps) : Shows ts (ps.flatMap Parameter.types) := by
  cases h with
  | absent => exact .nil _
  | present hps => exact .items (fun _ => hps.exists_of_mem) fun _ _ hp => hp.shows

theorem OfInitializer.shows {last : Span} {i : Initializer} (h : OfInitializer last ts i) :
    Shows ts i.types := by
  cases h with
  | given he =>
    obtain ⟨-, he⟩ := he
    exact he.shows.behind _
  | omitted => exact .nil _

theorem OfBody.shows {body : Option Expr} (h : OfBody ts body) :
    Shows ts (body.toList.flatMap Expr.types) := by
  cases h with
  | absent => exact .nil _
  | value he =>
    obtain ⟨-, he⟩ := he
    rw [Option.toList_some, List.flatMap_singleton]
    exact he.shows.behind _
  | block hss =>
    rw [Option.toList_some, List.flatMap_singleton]
    exact (OfExpr.block (fun _ _ h => h) hss).shows

theorem OfField.shows {f : Field} (h : OfField ts f) : Shows ts f.types := by
  obtain ⟨-, -, -, -, -, htype, hinit⟩ := h
  have htail := (shows_type? htype).append hinit.shows
  exact ((htail.behind _).behind _).mono (List.subset_append_right ..)

theorem OfMethod.shows {m : Method} (h : OfMethod ts m) : Shows ts m.types := by
  obtain ⟨-, -, -, -, -, htps, hcs, hresult, hbody⟩ := h
  have htypes := Shows.items (fun _ => htps.exists_of_mem) fun _ _ hp => OfTypeParameter.shows hp
  have hclauses := Shows.items (fun _ => hcs.exists_of_mem) fun _ _ hps =>
    Shows.items (fun _ => Enclosed.exists_of_mem hps) fun _ _ hp => OfParameter.shows hp
  have htail := htypes.append (hclauses.append ((shows_type? hresult).append hbody.shows))
  exact ((htail.behind _).behind _).mono (List.subset_append_right ..)

theorem OfMember.shows {m : Member} (h : OfMember ts m) : Shows ts m.types := by
  cases h with
  | field hf => exact hf.shows
  | method hm => exact hm.shows

theorem shows_members {ms : List Member} (h : Omissible (Braced OfMember) ts ms) :
    Shows ts (ms.flatMap Member.types) := by
  cases h with
  | absent => exact .nil _
  | present hms => exact .items (fun _ => hms.exists_of_mem) fun _ _ hm => hm.shows

theorem OfTypeDef.shows {d : TypeDef} (h : OfTypeDef ts d) : Shows ts d.types := by
  obtain ⟨-, -, -, -, htps, hps, hparents, hmembers⟩ := h
  have htypes := Shows.items (fun _ => htps.exists_of_mem) fun _ _ hp => OfTypeParameter.shows hp
  have hbody := hparents.shows.append (shows_members hmembers)
  have htail := htypes.append (hps.shows.append hbody)
  exact ((htail.behind _).behind _).mono (List.subset_append_right ..)

theorem OfDefinitions.shows {ds : List TypeDef} (h : OfDefinitions ts ds) :
    Shows ts (ds.flatMap TypeDef.types) := by
  induction h with
  | nil => exact .nil _
  | cons _ hd _ ih =>
    rw [List.flatMap_cons]
    exact (hd.shows.append ih).mono (List.subset_append_right ..)

end Spelling

end Mixin
