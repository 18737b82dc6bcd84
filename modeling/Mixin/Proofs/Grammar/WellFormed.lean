import Mixin.Proofs.Grammar.Reading
import Mixin.Proofs.Tree.OutlineShape

/-!
# Programs that are read are well formed

What the grammar admits only in some places, and what is checked while a text is read, holds of all
parts of a program: `Program.wellFormed_ofTokens`.
-/

namespace Mixin

/-! ### Well-formed trees -/

/-- Types in which no tuple has exactly one element. -/
inductive TypeExpr.WellFormed : TypeExpr → Prop
  | named {name as span} (has : ∀ a ∈ as, WellFormed a) : WellFormed (.named name as span)
  | function {ps result span} (hps : ∀ p ∈ ps, WellFormed p) (hresult : WellFormed result) :
    WellFormed (.function ps result span)
  | tuple {es span} (hlength : es.length ≠ 1) (hes : ∀ e ∈ es, WellFormed e) :
    WellFormed (.tuple es span)

mutual

/-- Expressions in which whole numbers are less than two to the power 63, the operators before
operands are the four that there are, and all types are well formed. -/
inductive Expr.WellFormed : Expr → Prop
  | int {value span} (hvalue : value < Nat.pow 2 63) : Expr.WellFormed (.int value span)
  | float {value span} : Expr.WellFormed (.float value span)
  | bool {value span} : Expr.WellFormed (.bool value span)
  | char {value span} : Expr.WellFormed (.char value span)
  | string {value span} : Expr.WellFormed (.string value span)
  | null {span} : Expr.WellFormed (.null span)
  | unit {span} : Expr.WellFormed (.unit span)
  | this {span} : Expr.WellFormed (.this span)
  | reference {name} : Expr.WellFormed (.reference name)
  | select {receiver name span} (h : Expr.WellFormed receiver) :
    Expr.WellFormed (.select receiver name span)
  | call {callee as span} (h : Expr.WellFormed callee) (has : ∀ a ∈ as, Expr.WellFormed a) :
    Expr.WellFormed (.call callee as span)
  | create {type as span} (h : type.toTypeExpr.WellFormed) (has : ∀ a ∈ as, Expr.WellFormed a) :
    Expr.WellFormed (.create type as span)
  | unary {operator operand span} (hoperator : operator.text ∈ ["-", "+", "!", "~"])
    (h : Expr.WellFormed operand) : Expr.WellFormed (.unary operator operand span)
  | binary {operator lhs rhs span} (hlhs : Expr.WellFormed lhs) (hrhs : Expr.WellFormed rhs) :
    Expr.WellFormed (.binary operator lhs rhs span)
  | assign {target value span} (htarget : Expr.WellFormed target) (hvalue : Expr.WellFormed value) :
    Expr.WellFormed (.assign target value span)
  | ifThen {condition consequent span} (hcondition : Expr.WellFormed condition)
    (hconsequent : Expr.WellFormed consequent) : Expr.WellFormed (.ifThen condition consequent span)
  | ifElse {condition consequent alternative span} (hcondition : Expr.WellFormed condition)
    (hconsequent : Expr.WellFormed consequent) (halternative : Expr.WellFormed alternative) :
    Expr.WellFormed (.ifElse condition consequent alternative span)
  | loop {condition body span} (hcondition : Expr.WellFormed condition)
    (hbody : Expr.WellFormed body) : Expr.WellFormed (.loop condition body span)
  | closure {bs body span} (hbs : ∀ b ∈ bs, ∀ t ∈ b.type, t.WellFormed)
    (hbody : Expr.WellFormed body) : Expr.WellFormed (.closure bs body span)
  | block {ss span} (hss : ∀ s ∈ ss, Stmt.WellFormed s) : Expr.WellFormed (.block ss span)

inductive Stmt.WellFormed : Stmt → Prop
  | define {binding name type e span} (htype : ∀ t ∈ type, t.WellFormed) (he : Expr.WellFormed e) :
    Stmt.WellFormed (.define binding name type e span)
  | eval {e} (he : Expr.WellFormed e) : Stmt.WellFormed (.eval e)

end

def TypeParameter.WellFormed (p : TypeParameter) : Prop := ∀ bound ∈ p.bound, bound.WellFormed

structure Parameter.WellFormed (p : Parameter) : Prop where
  type : p.type.WellFormed
  default : ∀ e ∈ p.default, e.WellFormed

structure Parent.WellFormed (p : Parent) : Prop where
  type : p.type.toTypeExpr.WellFormed
  arguments : ∀ e ∈ p.arguments, e.WellFormed

def ModifierList.Lacks (ms : ModifierList) (rejected : List Modifier) : Prop :=
  ∀ m ∈ rejected, ms.contains m = false

def ModifierList.Within (ms : ModifierList) (admitted : List Modifier) : Prop :=
  ∀ m, ms.contains m = true → m ∈ admitted

/-- Fields of well-formed parts. They are neither `case` nor `sealed`, and variable ones are not
`lazy`. -/
structure Field.WellFormed (f : Field) : Prop where
  modifiers : f.modifiers.Lacks [.case, .sealed]
  var : f.binding = .var → f.modifiers.Lacks [.lazy]
  type : ∀ t ∈ f.type, t.WellFormed
  value : ∀ e, f.initializer = .given e → e.WellFormed

/-- Methods of well-formed parts. They are neither `case`, `sealed` nor `lazy`, and their parameters
have no binding and no modifier but `implicit`. -/
structure Method.WellFormed (m : Method) : Prop where
  modifiers : m.modifiers.Lacks [.case, .sealed, .lazy]
  typeParameters : ∀ p ∈ m.typeParameters, p.WellFormed
  parameters : ∀ p ∈ m.parameters,
    p.binding = none ∧ p.modifiers.Within [.implicit] ∧ p.WellFormed
  result : ∀ t ∈ m.result, t.WellFormed
  body : ∀ e ∈ m.body, e.WellFormed

structure Member.WellFormed (m : Member) : Prop where
  field : ∀ f ∈ m.field?, f.WellFormed
  method : ∀ f ∈ m.method?, f.WellFormed

/-- Definitions of well-formed parts. Only classes have parameters, with a binding if it is a case
class, and each kind of type lacks some modifiers. -/
structure TypeDef.WellFormed (d : TypeDef) : Prop where
  modifiers : d.modifiers.Lacks [.lazy, .override]
  trait : d.kind = .trait → d.modifiers.Lacks [.case]
  object : d.kind = .object → d.modifiers.Lacks [.abstract, .sealed]
  typeParameters : ∀ p ∈ d.typeParameters, p.WellFormed
  parameters_eq_nil : d.kind ≠ .«class» → d.parameters = []
  parameters : ∀ p ∈ d.parameters, (d.isCase = true → p.binding.isSome = true) ∧
    p.modifiers.Within [.«private», .«protected», .override] ∧ p.WellFormed
  parents : ∀ p ∈ d.parents, p.WellFormed
  members : ∀ m ∈ d.members, m.WellFormed

def Program.WellFormed (p : Program) : Prop := ∀ d ∈ p.definitions, d.WellFormed

/-! ### Modifiers -/

namespace ModifierList

variable {ms : ModifierList}

theorem contains_eq_true_iff {m : Modifier} :
    ms.contains m = true ↔ ∃ w ∈ ms.written, w.1 = m := by
  simp [contains, set]

theorem lacks_of_firstOf? {rejected : List Modifier}
    (h : ms.firstOf? (.ofList rejected) = none) : ms.Lacks rejected := by
  intro m hm
  rw [Bool.eq_false_iff, Ne, contains_eq_true_iff]
  rintro ⟨w, hw, rfl⟩
  have hnot := List.find?_eq_none.mp h w hw
  simp [hm] at hnot

theorem within_of_firstOf? {admitted : List Modifier}
    (h : ms.firstOf? (ModifierSet.ofList admitted).complement = none) : ms.Within admitted := by
  intro m hm
  obtain ⟨w, hw, rfl⟩ := contains_eq_true_iff.mp hm
  have hnot := List.find?_eq_none.mp h w hw
  simpa using hnot

end ModifierList

/-! ### Reading -/

namespace Spelling

variable {ts : List Token}

theorem OfType.wellFormed {a : TypeExpr} (h : OfType ts a) : a.WellFormed := by
  induction h with
  | named _ hn ih =>
    refine .named fun a ha => ?_
    obtain ⟨us, -, hus⟩ := hn.exists_of_mem ha
    exact ih us a hus
  | @arrow R ts n t us r _ hn _ _ ih hresult =>
    have hargument : n.toTypeExpr.WellFormed := by
      refine .named fun a ha => ?_
      obtain ⟨us, -, hus⟩ := hn.exists_of_mem ha
      exact ih us a hus
    exact .function (List.forall_mem_singleton.mpr hargument) hresult
  | function _ has _ _ ih hresult =>
    refine .function (fun a ha => ?_) hresult
    obtain ⟨us, -, hus⟩ := has.exists_of_mem ha
    exact ih us a hus
  | group _ has ih =>
    obtain ⟨us, -, hus⟩ := has.exists_of_mem (List.mem_singleton_self _)
    exact ih us _ hus
  | tuple _ has hlength ih =>
    refine .tuple hlength fun a ha => ?_
    obtain ⟨us, -, hus⟩ := has.exists_of_mem ha
    exact ih us a hus

theorem OfNamed.wellFormed {n : NamedType} (h : OfNamed OfType ts n) : n.toTypeExpr.WellFormed :=
  (OfType.named (fun _ _ h => h) h).wellFormed

theorem Behind.wellFormed {kind : TokenKind} {a? : Option TypeExpr} (h : Behind kind OfType ts a?) :
    ∀ a ∈ a?, a.WellFormed := by
  intro a ha
  obtain ⟨us, -, hus⟩ := h.exists_of_mem ha
  exact hus.wellFormed

theorem wellFormed_of_literal {t : Token} {e : Expr} (h : Literal.expr? t = some e) :
    e.WellFormed := by
  unfold Literal.expr? at h
  split at h
  next =>
    obtain ⟨value, hvalue, rfl⟩ := Option.map_eq_some_iff.mp h
    simp only [Literal.int?, Option.ite_none_right_eq_some, Option.some.injEq] at hvalue
    exact .int (hvalue.2 ▸ hvalue.1)
  next =>
    obtain rfl := Option.some.inj h
    exact .float
  next =>
    obtain ⟨value, -, rfl⟩ := Option.map_eq_some_iff.mp h
    exact .string
  next =>
    obtain ⟨value, -, rfl⟩ := Option.map_eq_some_iff.mp h
    exact .char
  next => cases h

theorem wellFormed_of_constant {t : Token} {e : Expr} (h : t.constant? = some e) :
    e.WellFormed := by
  unfold Token.constant? at h
  split at h <;> cases h <;> constructor

theorem OfStmt.wellFormed {R : Spelling Expr} {s : Stmt} (h : OfStmt R ts s)
    (hR : ∀ us e, R us e → e.WellFormed) : s.WellFormed := by
  cases h with
  | define _ _ htype _ he => exact .define htype.wellFormed (hR _ _ he)
  | eval he => exact .eval (hR _ _ he)

theorem OfExpr.wellFormed {e : Expr} (h : OfExpr ts e) : e.WellFormed := by
  induction h with
  | literal h => exact wellFormed_of_literal h
  | constant h => exact wellFormed_of_constant h
  | reference => exact .reference
  | unit => exact .unit
  | group _ _ _ ih => exact ih
  | block _ hss ih =>
    refine .block fun s hs => ?_
    obtain ⟨us, -, hus⟩ := hss.exists_of_mem hs
    exact hus.wellFormed ih
  | create _ _ hn has ih =>
    refine .create hn.wellFormed fun a ha => ?_
    obtain ⟨us, -, hus⟩ := has.exists_of_mem ha
    exact ih us a hus
  | select _ _ _ ih => exact .select ih
  | call _ _ has ihcallee ih =>
    refine .call ihcallee fun a ha => ?_
    obtain ⟨us, -, hus⟩ := has.exists_of_mem ha
    exact ih us a hus
  | unary _ hlexeme _ ih => exact .unary hlexeme ih
  | binary _ _ _ ihlhs ihrhs => exact .binary ihlhs ihrhs
  | assign _ _ _ ihtarget ihvalue => exact .assign ihtarget ihvalue
  | ifThen _ _ _ _ _ ihcondition ihconsequent => exact .ifThen ihcondition ihconsequent
  | ifElse _ _ _ _ _ _ _ ihcondition ihconsequent ihalternative =>
    exact .ifElse ihcondition ihconsequent ihalternative
  | loop _ _ _ _ _ ihcondition ihbody => exact .loop ihcondition ihbody
  | closure hbs _ _ ih =>
    refine .closure (fun b hb => ?_) ih
    obtain ⟨us, -, hus⟩ := hbs.exists_of_mem hb
    obtain ⟨-, htype⟩ := hus
    exact htype.wellFormed

theorem OfTypeParameter.wellFormed {p : TypeParameter} (h : OfTypeParameter ts p) :
    p.WellFormed := by
  obtain ⟨-, -, hbound⟩ := h
  exact hbound.wellFormed

theorem Unbound.eq_none {b : Option Binding} (h : Unbound ts b) : b = none := by
  cases h
  rfl

theorem OfBinding.isSome {isCase : Bool} {b : Option Binding} (h : OfBinding isCase ts b)
    (hcase : isCase = true) : b.isSome = true := by
  cases h with
  | written => rfl
  | absent => simp [hcase]

theorem OfParameter.wellFormed {rejected : ModifierSet} {B : Spelling (Option Binding)}
    {p : Parameter} (h : OfParameter rejected B ts p) :
    p.modifiers.firstOf? rejected = none ∧ (∃ us, B us p.binding) ∧ p.WellFormed := by
  obtain ⟨-, hadmitted, hb, -, -, htype, hdefault⟩ := h
  refine ⟨hadmitted, ⟨_, hb⟩, htype.wellFormed, fun e he => ?_⟩
  obtain ⟨us, -, hus⟩ := hdefault.exists_of_mem he
  exact hus.wellFormed

theorem OfParent.wellFormed {p : Parent} (h : OfParent ts p) : p.WellFormed := by
  obtain ⟨hn, has⟩ := h
  refine ⟨hn.wellFormed, fun e he => ?_⟩
  obtain ⟨us, -, hus⟩ := has.exists_of_mem he
  exact hus.wellFormed

theorem OfField.wellFormed {f : Field} (h : OfField ts f) : f.WellFormed := by
  obtain ⟨-, hadmitted, hlazy, -, -, htype, hinit⟩ := h
  refine ⟨ModifierList.lacks_of_firstOf? hadmitted,
    fun hvar => ModifierList.lacks_of_firstOf? (hlazy hvar), htype.wellFormed, ?_⟩
  rintro e rfl
  obtain ⟨he⟩ := hinit
  obtain ⟨-, he⟩ := he
  exact he.wellFormed

theorem OfBody.wellFormed {body : Option Expr} (h : OfBody ts body) :
    ∀ e ∈ body, e.WellFormed := by
  cases h with
  | absent => simp
  | value he =>
    obtain ⟨-, he⟩ := he
    rintro e ⟨⟩
    exact he.wellFormed
  | block hss =>
    rintro e ⟨⟩
    exact (OfExpr.block (fun _ _ h => h) hss).wellFormed

theorem OfMethod.wellFormed {m : Method} (h : OfMethod ts m) : m.WellFormed := by
  obtain ⟨-, hadmitted, hlazy, -, -, htps, hcs, hresult, hbody⟩ := h
  refine ⟨?_, fun p hp => ?_, fun p hp => ?_, hresult.wellFormed, hbody.wellFormed⟩
  · have hlacks := ModifierList.lacks_of_firstOf? hadmitted
    have hlacksLazy := ModifierList.lacks_of_firstOf? hlazy
    simp only [ModifierList.Lacks, List.forall_mem_cons] at hlacks hlacksLazy ⊢
    exact ⟨hlacks.1, hlacks.2.1, hlacksLazy⟩
  · obtain ⟨us, -, hus⟩ := htps.exists_of_mem hp
    exact hus.wellFormed
  · obtain ⟨clause, hclause, hp⟩ := List.mem_flatten.mp hp
    obtain ⟨us, -, hus⟩ := hcs.exists_of_mem hclause
    obtain ⟨vs, -, hvs⟩ := hus.exists_of_mem hp
    obtain ⟨hadmitted, ⟨ws, hbinding⟩, hwell⟩ := hvs.wellFormed
    exact ⟨hbinding.eq_none, ModifierList.within_of_firstOf? hadmitted, hwell⟩

theorem OfMember.wellFormed {m : Member} (h : OfMember ts m) : m.WellFormed := by
  cases h with
  | field hf => exact ⟨fun f hf' => Option.some.inj hf' ▸ hf.wellFormed, by simp [Member.method?]⟩
  | method hm => exact ⟨by simp [Member.field?], fun f hf' => Option.some.inj hf' ▸ hm.wellFormed⟩

theorem OfClassParameters.wellFormed {isCase : Bool} {kind : TypeKind} {ps : List Parameter}
    (h : OfClassParameters isCase kind ts ps) :
    (kind ≠ .«class» → ps = []) ∧ ∀ p ∈ ps, (isCase = true → p.binding.isSome = true) ∧
      p.modifiers.Within [.«private», .«protected», .override] ∧ p.WellFormed := by
  cases h with
  | absent => simp
  | present hps =>
    refine ⟨fun hkind => absurd rfl hkind, fun p hp => ?_⟩
    obtain ⟨us, -, hus⟩ := hps.exists_of_mem hp
    obtain ⟨hadmitted, ⟨vs, hbinding⟩, hwell⟩ := hus.wellFormed
    exact ⟨hbinding.isSome, ModifierList.within_of_firstOf? hadmitted, hwell⟩

theorem OfTypeDef.wellFormed {d : TypeDef} (h : OfTypeDef ts d) : d.WellFormed := by
  obtain ⟨-, -, hadmitted, -, htps, hps, hparents, hmembers⟩ := h
  obtain ⟨hall, htrait, hobject⟩ := hadmitted
  obtain ⟨hnil, hparameters⟩ := hps.wellFormed
  refine ⟨ModifierList.lacks_of_firstOf? hall,
    fun h => ModifierList.lacks_of_firstOf? (htrait h),
    fun h => ModifierList.lacks_of_firstOf? (hobject h), fun p hp => ?_, hnil, hparameters,
    fun p hp => ?_, fun m hm => ?_⟩
  · obtain ⟨us, -, hus⟩ := htps.exists_of_mem hp
    exact hus.wellFormed
  · cases hparents with
    | none => cases hp
    | some hfirst hothers =>
      rcases List.mem_cons.mp hp with rfl | hp
      · obtain ⟨-, hfirst⟩ := hfirst
        exact hfirst.wellFormed
      · obtain ⟨us, -, ⟨-, hus⟩⟩ := hothers.exists_of_mem hp
        exact hus.wellFormed
  · cases hmembers with
    | absent => cases hm
    | present hmembers =>
      obtain ⟨us, -, hus⟩ := hmembers.exists_of_mem hm
      exact hus.wellFormed

theorem OfDefinitions.wellFormed {ds : List TypeDef} (h : OfDefinitions ts ds) :
    ∀ d ∈ ds, d.WellFormed := by
  induction h with
  | nil => simp
  | cons _ hd _ ih => exact List.forall_mem_cons.mpr ⟨hd.wellFormed, ih⟩

end Spelling

namespace Program

/-- Every part of a program that was read is well formed, and is shown as such. -/
theorem wellFormed_ofTokens {stream : TokenStream} {p : Program}
    (hfinal : stream.final.kind = .eof) (h : ofTokens stream = .ok p) :
    p.WellFormed ∧ p.outline.Everywhere Outline.Regular [] := by
  obtain ⟨ts, d, -, -, hspelled⟩ := spells_ofTokens hfinal h
  exact ⟨hspelled.wellFormed, p.allRegular_outline⟩

/-- A case class with members of several sorts, and a trait. -/
theorem wellFormed_ofTokens_mixed :
    let source := "case class A(x: (B, C)) extends D(-1) \x7b\n  lazy val y = (a: B) => !a\n" ++
      "  var z: B\n  def f(implicit v: B)\n\x7d\nsealed trait T"
    ∃ stream p, stream = TokenStream.ofText .user source ∧ stream.final.kind = .eof ∧
      ofTokens stream = .ok p ∧ p.WellFormed ∧ p.outline.Everywhere Outline.Regular [] := by
  intro source
  have hok : (ofText .user source).toBool = true := by decide +kernel
  have hfinal := (TokenStream.scannedFrom .user Location.start source.toList).final
  cases hp : ofText .user source with
  | error es =>
    rw [hp] at hok
    cases hok
  | ok p => exact ⟨_, p, rfl, hfinal, hp, wellFormed_ofTokens hfinal hp⟩

end Program

end Mixin
