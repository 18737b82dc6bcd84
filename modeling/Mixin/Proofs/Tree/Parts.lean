import Mixin.Tree.Definition

/-!
# The parts of a program

A program as a tree of parts: every definition, member, parameter, type, expression and statement
with its span, with the spans of the names, operators and modifiers that are written in it, and with
the parts it consists of. `Part.Nested` says what it means that spans nest as the parts do. It
follows from `Part.FitAll`, which can be shown of one part after another: it lays the parts out one
behind another between two offsets.
-/

namespace Mixin

/-! ### Parts -/

/-- What a part of a program is. A placeholder stands for a value that was left out. -/
inductive PartKind where
  | definition
  | method
  | typeParameter
  | parameter
  | parent
  | field
  | type
  | expression
  | statement
  | placeholder
  deriving DecidableEq, Repr

/-- Whether parts of a kind have spans that reach to their end. Those of definitions and methods end
with the head. -/
def PartKind.encloses : PartKind → Bool
  | definition => false
  | method => false
  | _ => true

/-- Whether parts of a kind reach over all they consist of, and are never empty. -/
def PartKind.IsSolid (kind : PartKind) : Prop := kind.encloses = true ∧ kind ≠ .placeholder

instance (kind : PartKind) : Decidable kind.IsSolid :=
  inferInstanceAs (Decidable (_ ∧ _))

/-- A part of a program, with the spans of the names, operators and modifiers that belong to the
part itself, and with the parts it consists of. -/
inductive Part where
  | mk (kind : PartKind) (span : Span) (marks : List Span) (parts : List Part)

namespace Part

def kind : Part → PartKind
  | mk kind _ _ _ => kind

def span : Part → Span
  | mk _ span _ _ => span

def marks : Part → List Span
  | mk _ _ marks _ => marks

def parts : Part → List Part
  | mk _ _ _ parts => parts

mutual

def listing : Part → List Part
  | mk kind span marks parts => mk kind span marks parts :: listAll parts

def listAll : List Part → List Part
  | [] => []
  | p :: ps => p.listing ++ listAll ps

end

/-- What holds of all parts if it passes from the parts of a part to the part. -/
theorem induction {P : Part → Prop} {Q : List Part → Prop}
    (mk : ∀ kind span marks parts, Q parts → P (.mk kind span marks parts)) (nil : Q [])
    (cons : ∀ p ps, P p → Q ps → Q (p :: ps)) : (∀ p, P p) ∧ ∀ ps, Q ps :=
  ⟨@Part.rec P Q mk nil cons, @Part.rec_1 P Q mk nil cons⟩

end Part

mutual

def TypeExpr.toPart : TypeExpr → Part
  | .named name arguments span => .mk .type span [name.span] (TypeExpr.toParts arguments)
  | .function parameters result span =>
    .mk .type span [] (TypeExpr.toParts parameters ++ [result.toPart])
  | .tuple elements span => .mk .type span [] (TypeExpr.toParts elements)

def TypeExpr.toParts : List TypeExpr → List Part
  | [] => []
  | type :: rest => type.toPart :: TypeExpr.toParts rest

end

def NamedType.toPart (type : NamedType) : Part := type.toTypeExpr.toPart

def Binder.toPart (b : Binder) : Part :=
  .mk .parameter b.span [b.name.span] (b.type.toList.map TypeExpr.toPart)

mutual

/-- An expression as a part. The parts of a call are the callee and the arguments, and so on: an
expression consists of what is evaluated for it, of types and of parameters. -/
def Expr.toPart : Expr → Part
  | .int _ span => .mk .expression span [] []
  | .float _ span => .mk .expression span [] []
  | .bool _ span => .mk .expression span [] []
  | .char _ span => .mk .expression span [] []
  | .string _ span => .mk .expression span [] []
  | .null span => .mk .expression span [] []
  | .unit span => .mk .expression span [] []
  | .this span => .mk .expression span [] []
  | .reference name => .mk .expression name.span [name.span] []
  | .select receiver name span => .mk .expression span [name.span] [receiver.toPart]
  | .call callee arguments span => .mk .expression span [] (callee.toPart :: Expr.toParts arguments)
  | .create type arguments span => .mk .expression span [] (type.toPart :: Expr.toParts arguments)
  | .unary operator operand span => .mk .expression span [operator.span] [operand.toPart]
  | .binary operator lhs rhs span =>
    .mk .expression span [operator.span] [lhs.toPart, rhs.toPart]
  | .assign target value span => .mk .expression span [] [target.toPart, value.toPart]
  | .ifThen condition consequent span =>
    .mk .expression span [] [condition.toPart, consequent.toPart]
  | .ifElse condition consequent alternative span =>
    .mk .expression span [] [condition.toPart, consequent.toPart, alternative.toPart]
  | .loop condition body span => .mk .expression span [] [condition.toPart, body.toPart]
  | .closure parameters body span =>
    .mk .expression span [] (parameters.map Binder.toPart ++ [body.toPart])
  | .block statements span => .mk .expression span [] (Stmt.toParts statements)

def Expr.toParts : List Expr → List Part
  | [] => []
  | e :: rest => e.toPart :: Expr.toParts rest

def Stmt.toPart : Stmt → Part
  | .define _ name type initializer span =>
    .mk .statement span [name.span] (type.toList.map TypeExpr.toPart ++ [initializer.toPart])
  | .eval e => e.toPart

def Stmt.toParts : List Stmt → List Part
  | [] => []
  | s :: rest => s.toPart :: Stmt.toParts rest

end

def ModifierList.spans (ms : ModifierList) : List Span := ms.written.map (·.2)

def TypeParameter.toPart (p : TypeParameter) : Part :=
  .mk .typeParameter p.span [p.name.span] (p.bound.toList.map TypeExpr.toPart)

def Parameter.toPart (p : Parameter) : Part :=
  .mk .parameter p.span (p.modifiers.spans ++ [p.name.span])
    (p.type.toPart :: p.default.toList.map Expr.toPart)

def Parent.toPart (p : Parent) : Part :=
  .mk .parent p.span [p.type.name.span] (p.type.toPart :: p.arguments.map Expr.toPart)

def Initializer.toPart : Initializer → Part
  | given value => value.toPart
  | omitted span => .mk .placeholder span [] []

def Field.toPart (f : Field) : Part :=
  .mk .field f.span (f.modifiers.spans ++ [f.name.span])
    (f.type.toList.map TypeExpr.toPart ++ [f.initializer.toPart])

def Method.toPart (m : Method) : Part :=
  .mk .method m.signature (m.modifiers.spans ++ [m.name.span])
    (m.typeParameters.map TypeParameter.toPart ++ (m.parameters.map Parameter.toPart ++
      (m.result.toList.map TypeExpr.toPart ++ m.body.toList.map Expr.toPart)))

def Member.toPart : Member → Part
  | field f => f.toPart
  | method m => m.toPart

def TypeDef.toPart (d : TypeDef) : Part :=
  .mk .definition d.signature (d.modifiers.spans ++ [d.name.span])
    (d.typeParameters.map TypeParameter.toPart ++ (d.parameters.map Parameter.toPart ++
      (d.parents.map Parent.toPart ++ d.members.map Member.toPart)))

def Program.toParts (p : Program) : List Part := p.definitions.map TypeDef.toPart

theorem TypeExpr.toParts_eq_map (types : List TypeExpr) :
    TypeExpr.toParts types = types.map TypeExpr.toPart := by
  induction types with
  | nil => rfl
  | cons type rest ih => rw [TypeExpr.toParts, ih, List.map_cons]

theorem Expr.toParts_eq_map (es : List Expr) : Expr.toParts es = es.map Expr.toPart := by
  induction es with
  | nil => rfl
  | cons e rest ih => rw [Expr.toParts, ih, List.map_cons]

theorem Stmt.toParts_eq_map (ss : List Stmt) : Stmt.toParts ss = ss.map Stmt.toPart := by
  induction ss with
  | nil => rfl
  | cons s rest ih => rw [Stmt.toParts, ih, List.map_cons]

@[simp] theorem TypeExpr.span_toPart (type : TypeExpr) : type.toPart.span = type.span := by
  cases type <;> rfl

@[simp] theorem NamedType.span_toPart (type : NamedType) : type.toPart.span = type.span := rfl

theorem TypeExpr.isSolid_toPart (type : TypeExpr) : type.toPart.kind.IsSolid := by
  have hkind : type.toPart.kind = .type := by cases type <;> rfl
  rw [hkind]
  decide

@[simp] theorem Expr.span_toPart (e : Expr) : e.toPart.span = e.span := by
  cases e <;> rfl

theorem Expr.isSolid_toPart (e : Expr) : e.toPart.kind.IsSolid := by
  have hkind : e.toPart.kind = .expression := by cases e <;> rfl
  rw [hkind]
  decide

/-! ### Nesting -/

/-- A span of the same text that reaches at least as far on both sides. -/
structure Span.Contains (s t : Span) : Prop where
  file : s.file = t.file
  start : s.start ≤ t.start
  stop : t.stop ≤ s.stop

/-- A span ends before another one of the same text starts. -/
structure Span.Precedes (s t : Span) : Prop where
  file : s.file = t.file
  disjoint : s.stop ≤ t.start

namespace Part

/-- The spans of parts nest as the parts do. -/
structure Nested (ps : List Part) : Prop where
  /-- A part reaches over the parts it consists of. -/
  parts : ∀ x ∈ listAll ps, x.kind.encloses → ∀ y ∈ x.parts, x.span.Contains y.span
  /-- A part reaches over its names, operators and modifiers. -/
  marks : ∀ x ∈ listAll ps, ∀ s ∈ x.marks, x.span.Contains s
  /-- The outermost parts stand one behind another. -/
  roots : ps.Pairwise fun x y => x.span.Precedes y.span
  /-- The parts of a part stand one behind another. -/
  siblings : ∀ x ∈ listAll ps, x.parts.Pairwise fun y z => y.span.Precedes z.span
  /-- Only placeholders are empty. -/
  width : ∀ x ∈ listAll ps, x.span.start = x.span.stop ↔ x.kind = .placeholder
  /-- No span ends before it starts. -/
  ordered : ∀ x ∈ listAll ps, x.span.start ≤ x.span.stop
  /-- In pre-order no part starts before an earlier one. -/
  starts : (listAll ps).Pairwise fun x y => x.span.start ≤ y.span.start

/-! ### Layouts -/

/-- The span of a part and its marks are as they should be, and the span is empty if and only if it
is that of a placeholder. -/
structure Sound (V : Span → Prop) (p : Part) : Prop where
  valid : V p.span
  marks : ∀ s ∈ p.marks, V s ∧ p.span.start ≤ s.start ∧ s.stop ≤ p.span.stop
  width : p.span.start = p.span.stop ∧ p.kind = .placeholder ∨
    p.span.start < p.span.stop ∧ p.kind ≠ .placeholder

/-- How far the parts of a part may reach if the part itself may reach to `hi`. -/
def limit (hi : Nat) (p : Part) : Nat := if p.kind.encloses then p.span.stop else hi

mutual

/-- A part that stands between two offsets with all parts in it. -/
def Fits (V : Span → Prop) (lo hi : Nat) : Part → Prop
  | mk kind span marks parts =>
    Sound V (mk kind span marks parts) ∧ lo ≤ span.start ∧ span.stop ≤ hi ∧
      FitAll V span.start (limit hi (mk kind span marks parts)) parts

/-- Parts that stand one behind another between two offsets. -/
def FitAll (V : Span → Prop) (lo hi : Nat) : List Part → Prop
  | [] => lo ≤ hi
  | p :: ps => ∃ mid, p.Fits V lo mid ∧ FitAll V mid hi ps

end

variable {V : Span → Prop} {lo hi lo' hi' mid : Nat} {p : Part} {ps qs : List Part}

theorem fits_iff : p.Fits V lo hi ↔ p.Sound V ∧ lo ≤ p.span.start ∧ p.span.stop ≤ hi ∧
    FitAll V p.span.start (p.limit hi) p.parts := by
  cases p
  rw [Fits]
  rfl

theorem limit_le (h : p.span.stop ≤ hi) : p.limit hi ≤ hi := by
  unfold limit
  split <;> omega

theorem limit_mono (h : hi ≤ hi') : p.limit hi ≤ p.limit hi' := by
  unfold limit
  split <;> omega

theorem Sound.le (h : p.Sound V) : p.span.start ≤ p.span.stop := by
  rcases h.width with h | h <;> omega

theorem Fits.le (h : p.Fits V lo hi) : lo ≤ hi := by
  obtain ⟨hsound, hlo, hhi, -⟩ := fits_iff.mp h
  have hspan := hsound.le
  omega

theorem widen_all : (∀ p : Part, ∀ lo hi lo' hi', p.Fits V lo hi → lo' ≤ lo → hi ≤ hi' →
      p.Fits V lo' hi') ∧
    ∀ ps : List Part, ∀ lo hi lo' hi', FitAll V lo hi ps → lo' ≤ lo → hi ≤ hi' →
      FitAll V lo' hi' ps := by
  apply Part.induction
  · intro kind span marks parts ih lo hi lo' hi' h hlo hhi
    obtain ⟨hsound, hstart, hstop, hparts⟩ := fits_iff.mp h
    refine fits_iff.mpr ⟨hsound, Nat.le_trans hlo hstart, Nat.le_trans hstop hhi, ?_⟩
    exact ih _ _ _ _ hparts (Nat.le_refl _) (limit_mono hhi)
  · intro lo hi lo' hi' h hlo hhi
    rw [FitAll] at h ⊢
    omega
  · intro p ps ihp ihps lo hi lo' hi' h hlo hhi
    rw [FitAll] at h ⊢
    obtain ⟨mid, hp, hps⟩ := h
    exact ⟨mid, ihp _ _ _ _ hp hlo (Nat.le_refl _), ihps _ _ _ _ hps (Nat.le_refl _) hhi⟩

theorem Fits.widen (h : p.Fits V lo hi) (hlo : lo' ≤ lo) (hhi : hi ≤ hi') : p.Fits V lo' hi' :=
  widen_all.1 p _ _ _ _ h hlo hhi

theorem FitAll.widen (h : FitAll V lo hi ps) (hlo : lo' ≤ lo) (hhi : hi ≤ hi') :
    FitAll V lo' hi' ps :=
  widen_all.2 ps _ _ _ _ h hlo hhi

theorem FitAll.le (h : FitAll V lo hi ps) : lo ≤ hi := by
  induction ps generalizing lo with
  | nil => exact h
  | cons p ps ih =>
    rw [FitAll] at h
    obtain ⟨mid, hp, hps⟩ := h
    exact Nat.le_trans hp.le (ih hps)

theorem fitAll_singleton : FitAll V lo hi [p] ↔ p.Fits V lo hi := by
  simp only [FitAll]
  constructor
  · rintro ⟨mid, hp, hmid⟩
    exact hp.widen (Nat.le_refl _) hmid
  · intro hp
    exact ⟨hi, hp, Nat.le_refl _⟩

theorem FitAll.append (hps : FitAll V lo mid ps) (hgap : mid ≤ lo')
    (hqs : FitAll V lo' hi qs) : FitAll V lo hi (ps ++ qs) := by
  induction ps generalizing lo with
  | nil =>
    rw [FitAll] at hps
    exact hqs.widen (Nat.le_trans hps hgap) (Nat.le_refl _)
  | cons p ps ih =>
    rw [FitAll] at hps
    obtain ⟨m, hp, hps⟩ := hps
    rw [List.cons_append, FitAll]
    exact ⟨m, hp, ih hps⟩

theorem Fits.tight (h : p.Fits V lo hi) (hkind : p.kind.encloses = true) :
    p.Fits V p.span.start p.span.stop := by
  obtain ⟨hsound, -, -, hparts⟩ := fits_iff.mp h
  have hlimit : ∀ hi, p.limit hi = p.span.stop := fun hi => if_pos hkind
  refine fits_iff.mpr ⟨hsound, Nat.le_refl _, Nat.le_refl _, ?_⟩
  rwa [hlimit] at hparts ⊢

/-! ### What layouts say of each part -/

theorem fits_of_mem_all : (∀ p : Part, ∀ lo hi, p.Fits V lo hi → ∀ x ∈ p.listing,
      ∃ lo' hi', lo ≤ lo' ∧ hi' ≤ hi ∧ x.Fits V lo' hi') ∧
    ∀ ps : List Part, ∀ lo hi, FitAll V lo hi ps → ∀ x ∈ listAll ps,
      ∃ lo' hi', lo ≤ lo' ∧ hi' ≤ hi ∧ x.Fits V lo' hi' := by
  apply Part.induction
  · intro kind span marks parts ih lo hi h x hx
    rw [listing, List.mem_cons] at hx
    rcases hx with rfl | hx
    · exact ⟨lo, hi, Nat.le_refl _, Nat.le_refl _, h⟩
    · obtain ⟨hsound, hstart, hstop, hparts⟩ := fits_iff.mp h
      obtain ⟨lo', hi', hlo, hhi, hx⟩ := ih _ _ hparts x hx
      exact ⟨lo', hi', Nat.le_trans hstart hlo, Nat.le_trans hhi (limit_le hstop), hx⟩
  · intro lo hi h x hx
    rw [listAll] at hx
    cases hx
  · intro p ps ihp ihps lo hi h x hx
    rw [FitAll] at h
    obtain ⟨mid, hp, hps⟩ := h
    rw [listAll, List.mem_append] at hx
    rcases hx with hx | hx
    · obtain ⟨lo', hi', hlo, hhi, hx⟩ := ihp _ _ hp x hx
      exact ⟨lo', hi', hlo, Nat.le_trans hhi hps.le, hx⟩
    · obtain ⟨lo', hi', hlo, hhi, hx⟩ := ihps _ _ hps x hx
      exact ⟨lo', hi', Nat.le_trans hp.le hlo, hhi, hx⟩

theorem FitAll.exists_fits (h : FitAll V lo hi ps) {x : Part} (hx : x ∈ listAll ps) :
    ∃ lo' hi', lo ≤ lo' ∧ hi' ≤ hi ∧ x.Fits V lo' hi' :=
  fits_of_mem_all.2 ps lo hi h x hx

theorem FitAll.sound (h : FitAll V lo hi ps) {x : Part} (hx : x ∈ listAll ps) : x.Sound V := by
  obtain ⟨lo', hi', -, -, hfits⟩ := h.exists_fits hx
  exact (fits_iff.mp hfits).1

theorem FitAll.bounds (h : FitAll V lo hi ps) {x : Part} (hx : x ∈ listAll ps) :
    lo ≤ x.span.start ∧ x.span.stop ≤ hi := by
  obtain ⟨lo', hi', hlo, hhi, hfits⟩ := h.exists_fits hx
  obtain ⟨-, hstart, hstop, -⟩ := fits_iff.mp hfits
  omega

theorem listAll_append (ps qs : List Part) : listAll (ps ++ qs) = listAll ps ++ listAll qs := by
  induction ps with
  | nil => rfl
  | cons p ps ih => rw [List.cons_append, listAll, ih, listAll, List.append_assoc]

theorem mem_listing_self (p : Part) : p ∈ p.listing := by
  cases p
  rw [listing]
  exact List.mem_cons_self ..

theorem mem_listAll_of_mem (hp : p ∈ ps) : p ∈ listAll ps := by
  induction ps with
  | nil => cases hp
  | cons q ps ih =>
    rw [listAll, List.mem_append]
    rcases List.mem_cons.mp hp with rfl | hp
    · exact .inl (mem_listing_self p)
    · exact .inr (ih hp)

theorem FitAll.pairwise (h : FitAll V lo hi ps) (hfile : ∀ s t, V s → V t → s.file = t.file) :
    ps.Pairwise fun x y => x.span.Precedes y.span := by
  induction ps generalizing lo with
  | nil => exact .nil
  | cons p ps ih =>
    rw [FitAll] at h
    obtain ⟨mid, hp, hps⟩ := h
    refine List.pairwise_cons.mpr ⟨fun y hy => ?_, ih hps⟩
    obtain ⟨hsound, -, hstop, -⟩ := fits_iff.mp hp
    have hmem := mem_listAll_of_mem hy
    exact ⟨hfile _ _ hsound.valid (hps.sound hmem).valid, Nat.le_trans hstop (hps.bounds hmem).1⟩

theorem starts_all : (∀ p : Part, ∀ lo hi, p.Fits V lo hi →
      p.listing.Pairwise fun x y => x.span.start ≤ y.span.start) ∧
    ∀ ps : List Part, ∀ lo hi, FitAll V lo hi ps →
      (listAll ps).Pairwise fun x y => x.span.start ≤ y.span.start := by
  apply Part.induction
  · intro kind span marks parts ih lo hi h
    obtain ⟨-, -, -, hparts⟩ := fits_iff.mp h
    rw [listing]
    exact List.pairwise_cons.mpr ⟨fun x hx => (hparts.bounds hx).1, ih _ _ hparts⟩
  · intro lo hi h
    rw [listAll]
    exact .nil
  · intro p ps ihp ihps lo hi h
    rw [FitAll] at h
    obtain ⟨mid, hp, hps⟩ := h
    rw [listAll]
    refine List.pairwise_append.mpr ⟨ihp _ _ hp, ihps _ _ hps, fun x hx y hy => ?_⟩
    obtain ⟨lo', hi', -, hhi, hfits⟩ := fits_of_mem_all.1 p lo mid hp x hx
    obtain ⟨hsound, -, hstop, -⟩ := fits_iff.mp hfits
    have hspan := hsound.le
    have hy := (hps.bounds hy).1
    omega

/-- Parts that are laid out between two offsets of one text nest. -/
theorem FitAll.nested (h : FitAll V lo hi ps) (hfile : ∀ s t, V s → V t → s.file = t.file) :
    Nested ps where
  parts x hx hkind y hy := by
    obtain ⟨lo', hi', -, -, hfits⟩ := h.exists_fits hx
    obtain ⟨hsound, -, -, hparts⟩ := fits_iff.mp (hfits.tight hkind)
    have hmem := mem_listAll_of_mem hy
    have hlimit : x.limit x.span.stop = x.span.stop := if_pos hkind
    rw [hlimit] at hparts
    obtain ⟨hstart, hstop⟩ := hparts.bounds hmem
    exact ⟨hfile _ _ hsound.valid (hparts.sound hmem).valid, hstart, hstop⟩
  marks x hx s hs := by
    have hsound := h.sound hx
    obtain ⟨hvalid, hstart, hstop⟩ := hsound.marks s hs
    exact ⟨hfile _ _ hsound.valid hvalid, hstart, hstop⟩
  roots := h.pairwise hfile
  siblings x hx := by
    obtain ⟨lo', hi', -, -, hfits⟩ := h.exists_fits hx
    exact (fits_iff.mp hfits).2.2.2.pairwise hfile
  width x hx := by
    rcases (h.sound hx).width with ⟨heq, hkind⟩ | ⟨hlt, hkind⟩
    · simp [heq, hkind]
    · simp [Nat.ne_of_lt hlt, hkind]
  ordered x hx := (h.sound hx).le
  starts := starts_all.2 ps lo hi h

end Part

/-! ### Spans of definitions -/

def Part.spans (ps : List Part) : List Span := (listAll ps).flatMap fun x => x.span :: x.marks

def TypeDef.spans (d : TypeDef) : List Span := Part.spans [d.toPart]

def Program.spans (p : Program) : List Span := Part.spans p.toParts

namespace Part

variable {V : Span → Prop} {lo hi : Nat} {x y p : Part} {ps : List Part} {s : Span}

theorem FitAll.valid (h : FitAll V lo hi ps) : ∀ s ∈ spans ps, V s := by
  intro s hs
  obtain ⟨x, hx, hs⟩ := List.mem_flatMap.mp hs
  have hsound := h.sound hx
  rcases List.mem_cons.mp hs with rfl | hs
  · exact hsound.valid
  · exact (hsound.marks s hs).1

theorem spans_cons (p : Part) (ps : List Part) : spans (p :: ps) = spans [p] ++ spans ps := by
  simp [spans, listAll]

theorem mem_spans_of_mem (hp : p ∈ ps) (hs : s ∈ spans [p]) : s ∈ spans ps := by
  induction ps with
  | nil => cases hp
  | cons q ps ih =>
    rw [spans_cons, List.mem_append]
    rcases List.mem_cons.mp hp with rfl | hp
    · exact .inl hs
    · exact .inr (ih hp)

theorem mem_spans_of_mark (hs : s ∈ p.span :: p.marks) : s ∈ spans [p] :=
  List.mem_flatMap.mpr ⟨p, mem_listAll_of_mem (List.mem_singleton_self p), hs⟩

theorem mem_spans_of_part (hx : x ∈ p.parts) (hs : s ∈ spans [x]) : s ∈ spans [p] := by
  have hparts := mem_spans_of_mem hx hs
  cases p with
  | mk kind span marks parts =>
    rw [spans, listAll, listing, listAll, List.append_nil, List.flatMap_cons]
    exact List.mem_append_right _ hparts

end Part

namespace TypeDef

variable {d : TypeDef}

theorem mem_spans_of_program {p : Program} (hd : d ∈ p.definitions) {s : Span} (hs : s ∈ d.spans) :
    s ∈ p.spans :=
  Part.mem_spans_of_mem (List.mem_map_of_mem hd) hs

theorem name_mem_spans (d : TypeDef) : d.name.span ∈ d.spans :=
  Part.mem_spans_of_mark (List.mem_cons_of_mem _ (by simp [toPart, Part.marks]))

theorem signature_mem_spans (d : TypeDef) : d.signature ∈ d.spans :=
  Part.mem_spans_of_mark (List.mem_cons_self ..)

theorem modifier_mem_spans {s : Span} (hs : s ∈ d.modifiers.spans) : s ∈ d.spans :=
  Part.mem_spans_of_mark (List.mem_cons_of_mem _ (by simp [toPart, Part.marks, hs]))

theorem parameter_mem_spans {p : Parameter} (hp : p ∈ d.parameters) : p.name.span ∈ d.spans := by
  have hpart : p.toPart ∈ d.toPart.parts := by
    simp only [toPart, Part.parts, List.mem_append]
    exact .inr (.inl (List.mem_map_of_mem hp))
  exact Part.mem_spans_of_part hpart (Part.mem_spans_of_mark (List.mem_cons_of_mem _
    (by simp [Parameter.toPart, Part.marks])))

theorem parent_mem_spans {p : Parent} (hp : p ∈ d.parents) : p.type.name.span ∈ d.spans := by
  have hpart : p.toPart ∈ d.toPart.parts := by
    simp only [toPart, Part.parts, List.mem_append]
    exact .inr (.inr (.inl (List.mem_map_of_mem hp)))
  exact Part.mem_spans_of_part hpart (Part.mem_spans_of_mark (List.mem_cons_of_mem _
    (by simp [Parent.toPart, Part.marks])))

theorem member_mem_spans {m : Member} (hm : m ∈ d.members) {s : Span}
    (hs : s ∈ Part.spans [m.toPart]) : s ∈ d.spans := by
  have hpart : m.toPart ∈ d.toPart.parts := by
    simp only [toPart, Part.parts, List.mem_append]
    exact .inr (.inr (.inr (List.mem_map_of_mem hm)))
  exact Part.mem_spans_of_part hpart hs

theorem field_mem_spans {f : Field} (hf : .field f ∈ d.members) : f.name.span ∈ d.spans :=
  member_mem_spans hf (Part.mem_spans_of_mark (List.mem_cons_of_mem _
    (by simp [Member.toPart, Field.toPart, Part.marks])))

theorem method_mem_spans {m : Method} (hm : .method m ∈ d.members) : m.name.span ∈ d.spans :=
  member_mem_spans hm (Part.mem_spans_of_mark (List.mem_cons_of_mem _
    (by simp [Member.toPart, Method.toPart, Part.marks])))

theorem methodParameter_mem_spans {m : Method} (hm : .method m ∈ d.members) {p : Parameter}
    (hp : p ∈ m.parameters) : p.name.span ∈ d.spans := by
  have hpart : p.toPart ∈ (Member.method m).toPart.parts := by
    simp only [Member.toPart, Method.toPart, Part.parts, List.mem_append]
    exact .inr (.inl (List.mem_map_of_mem hp))
  exact member_mem_spans hm (Part.mem_spans_of_part hpart (Part.mem_spans_of_mark
    (List.mem_cons_of_mem _ (by simp [Parameter.toPart, Part.marks]))))

end TypeDef

end Mixin
