import Mixin.Proofs.Grammar.Restoration.Expressions

/-!
# Programs are restored

Definitions are read back from their renderings, and so are whole programs
(`Program.ofTokens_rendered`). The first token of a text may be said to begin a line or not to; all
others stand on its line.
-/

namespace Mixin

open Rendering Spelling

/-- If neither what is passed nor what follows it begins with one of the given kinds, nothing does
here. -/
theorem Cursor.Passes.peek_not_mem {c d : Cursor} {ts : List Token} {kinds : List TokenKind}
    (h : c.Passes ts d) (hts : ∀ t ∈ ts.head?, t.kind ∉ kinds) (hd : d.peek.kind ∉ kinds) :
    c.peek.kind ∉ kinds := by
  cases ts with
  | nil =>
    obtain rfl := h.eq_of_nil
    exact hd
  | cons t ts =>
    rw [h.head]
    exact hts t rfl

/-! ### What begins a rendering -/

namespace Rendering

variable {kinds : List TokenKind} {ts : List Token} {tss : List (List Token)}

theorem head_behind {kind : TokenKind} {ts? : Option (List Token)} (hkind : kind ∉ kinds)
    (h : ∀ t ∈ ts.head?, t.kind ∉ kinds) : ∀ t ∈ (behind kind ts? ++ ts).head?, t.kind ∉ kinds := by
  cases ts? with
  | none => exact h
  | some us =>
    rintro t ⟨⟩
    exact hkind

theorem head_argued (hparen : .leftParen ∉ kinds) (h : ∀ t ∈ ts.head?, t.kind ∉ kinds) :
    ∀ t ∈ (argued tss ++ ts).head?, t.kind ∉ kinds := by
  cases tss with
  | nil => exact h
  | cons us tss =>
    rintro t ⟨⟩
    exact hparen

theorem head_flatMap {α : Type} {f : α → List Token} {as : List α}
    (hf : ∀ a ∈ as, ∃ t us, f a = t :: us ∧ t.kind ∉ kinds) (h : ∀ t ∈ ts.head?, t.kind ∉ kinds) :
    ∀ t ∈ (as.flatMap f ++ ts).head?, t.kind ∉ kinds := by
  cases as with
  | nil => exact h
  | cons a as =>
    obtain ⟨t, us, hfa, ht⟩ := hf a (List.mem_cons_self ..)
    rw [List.flatMap_cons, hfa]
    rintro t ⟨⟩
    exact ht

theorem kinds_ofModifiers (ms : ModifierList) :
    (ofModifiers ms).map Token.kind = ms.written.map fun w => .modifier w.1 := by
  simp [ofModifiers, mark, plain, Function.comp_def]

end Rendering

namespace Parser

variable {n : Nat} {ts : List Token}

/-! ### Type parameters -/

theorem run_variance {v : Variance} {name : Ident} {us : List Token} {c d : Cursor}
    (hpass : c.Passes (ofVariance v ++ word name :: us) d) :
    ∃ m, variance.run c = .done v m ∧ c.Passes (ofVariance v) m ∧ m.Passes (word name :: us) d := by
  obtain ⟨m, hsign, hrest⟩ := hpass.split
  refine ⟨m, ?_, hsign, hrest⟩
  refine (run_look _).trans ?_
  cases v with
  | invariant =>
    obtain rfl := hsign.eq_of_nil
    rw [hrest.head]
    rfl
  | covariant =>
    rw [hsign.head]
    obtain rfl := hsign.tail.eq_of_nil
    exact run_bind_of_done (run_next hsign) rfl
  | contravariant =>
    rw [hsign.head]
    obtain rfl := hsign.tail.eq_of_nil
    exact run_bind_of_done (run_next hsign) rfl

theorem restores_typeParameter {p : TypeParameter} (h : OfTypeParameter ts p) (n : Nat) :
    typeParameter.Restores n (.subtype :: typeBarred) (ofTypeParameter p) p.unplaced := by
  obtain ⟨-, -, hbound⟩ := h
  intro c d hc hpass hd
  obtain ⟨m, hvariance, hsign, hrest⟩ := run_variance hpass
  have hblank := hrest.first.blank (hsign.blank hc)
  have htype : (behind? .subtype typeExpr).Restores (n + 1) (.subtype :: typeBarred) _ _ :=
    Restores.behind? fun b hb => by
      obtain ⟨us, -, hus⟩ := hbound.exists_of_mem hb
      exact restores_typeExpr hus n
  refine (run_look _).trans (run_bind_of_done hvariance ?_)
  refine run_bind_of_done (run_identifier hrest) ?_
  refine run_bind_of_done (htype _ d (hblank.mono (Nat.le_succ n)) hrest.tail hd) ?_
  rw [run_look, hc.peek, (hpass.blank hc).previousSpan]
  rfl

theorem restores_typeParameters {ps : List TypeParameter} (h : Bracketed OfTypeParameter ts ps)
    (n : Nat) :
    typeParameters.Restores n [.leftBracket] (bracketed (ps.map ofTypeParameter))
      (ps.map TypeParameter.unplaced) := by
  have hitem : ∀ p ∈ ps, typeParameter.Restores n (.subtype :: typeBarred) (ofTypeParameter p)
      p.unplaced := by
    intro p hp
    obtain ⟨us, -, hus⟩ := h.exists_of_mem hp
    exact restores_typeParameter hus n
  have hlist := Restores.bracketedOnLine hitem (by decide) (by decide)
  exact hlist.mono (Nat.le_succ n) (List.Subset.refl _)

/-! ### Parameters -/

theorem restores_default {e? : Option Expr} (h : Behind .equals OfExpr ts e?)
    (hfloat : Floatless (e?.toList.flatMap Expr.leaves)) (n : Nat) :
    (behind? .equals expression).Restores n exprBarred (behind .equals (e?.map ofExpr))
      (e?.map Expr.unplaced) := by
  have hitem : ∀ e ∈ e?, expression.Restores n exprBarred (ofExpr e) e.unplaced := by
    intro e he
    obtain ⟨us, -, hus⟩ := h.exists_of_mem he
    exact restores_expression hus (hfloat.of_mem (Option.mem_toList.mpr he)) n
  exact (Restores.behind? hitem).mono (Nat.le_succ n) (by simp [exprBarred])

theorem restores_parameterTail (ms : ModifierList) (binding : Option Binding) (name : Ident)
    {us vs : List Token} {type : TypeExpr} {default : Option Expr} (htype : OfType us type)
    (hdefault : Behind .equals OfExpr vs default)
    (hfloat : Floatless (default.toList.flatMap Expr.leaves)) (n : Nat) :
    (parameterTail .topOfFile ms binding).Restores n exprBarred
      (word name :: mark .colon :: (ofType type ++ behind .equals (default.map ofExpr)))
      ⟨ms, binding, name.unplaced, type.unplaced, default.map Expr.unplaced, .topOfFile⟩ := by
  intro c d hc hpass hd
  have hcolon := hpass.tail
  obtain ⟨m, htyped, hvalue⟩ := hcolon.tail.split
  have hblank := hcolon.first.blank (hpass.first.blank hc)
  have hm : m.peek.kind ∉ typeBarred := by
    have hbarred : d.peek.kind ∉ typeBarred := by
      simp only [typeBarred, List.mem_cons, List.not_mem_nil, or_false, not_or]
      exact ⟨ne_of_barred hd (by decide), ne_of_barred hd (by decide)⟩
    refine hvalue.peek_not_mem ?_ hbarred
    rw [← List.append_nil (behind _ _)]
    exact head_behind (by decide) (by simp)
  refine run_bind_of_done (run_identifier hpass) (run_bind_of_done (run_expect hcolon rfl _) ?_)
  refine run_bind_of_done (restores_typeExpr htype n _ m hblank htyped hm) ?_
  have hblank' := htyped.blank hblank
  refine run_bind_of_done (restores_default hdefault hfloat n m d hblank' hvalue hd) ?_
  rw [run_look, (hpass.blank hc).previousSpan]
  rfl

theorem run_ofModifiers {ms : ModifierList} {t : Token} {us : List Token} {c d : Cursor}
    (hc : c.Blank n) (hpass : c.Passes (ofModifiers ms ++ t :: us) d)
    (ht : t.kind.modifier? = none) :
    ∃ m, modifiers.run c = .done ms.unplaced m ∧ m.Blank n ∧ m.Passes (t :: us) d := by
  obtain ⟨m, hwritten, hrest⟩ := hpass.split
  refine ⟨m, run_modifiers (kinds_ofModifiers ms) hc hwritten ?_, hwritten.blank hc, hrest⟩
  rw [hrest.head]
  exact ht

theorem head_ofParameter (p : Parameter) :
    ∃ t ts, ofParameter p = t :: ts ∧ t.kind ≠ .rightParen := by
  rw [ofParameter, ofModifiers]
  cases p.modifiers.written with
  | nil =>
    cases p.binding with
    | none => exact ⟨_, _, rfl, by simp [word, plain]⟩
    | some b => exact ⟨_, _, rfl, by simp [mark, plain]⟩
  | cons w ws => exact ⟨_, _, rfl, by simp [mark, plain]⟩

theorem restores_classParameter {isCase : Bool} {p : Parameter} (h : OfClassParameter isCase ts p)
    (hfloat : Floatless p.leaves) (n : Nat) :
    (classParameter isCase).Restores n exprBarred (ofParameter p) p.unplaced := by
  obtain @⟨_, ms, _, b, t, _, _, type, _, default, _, hadmitted, hb, -, -, htype, hdefault⟩ := h
  rw [Parameter.leaves] at hfloat
  have htail := restores_parameterTail ms.unplaced b t.ident htype hdefault hfloat.tail.append.2 n
  intro c d hc hpass hd
  refine (run_look _).trans ?_
  rw [hc.peek]
  cases b with
  | some b =>
    obtain ⟨m, hmodifiers, hm, hrest⟩ := run_ofModifiers hc hpass rfl
    refine run_bind_of_done hmodifiers (run_bind_of_done (run_rejectModifiers _ hadmitted m) ?_)
    refine (run_look _).trans ?_
    rw [hrest.head]
    refine run_bind_of_done (run_next hrest) ?_
    exact htail _ d (hrest.first.blank hm) hrest.tail hd
  | none =>
    -- Without a binding the class is no case class, so none is supplied either.
    have hcase : isCase = false := by
      cases isCase with
      | false => rfl
      | true => exact nomatch hb
    obtain ⟨m, hmodifiers, hm, hrest⟩ := run_ofModifiers hc hpass rfl
    refine run_bind_of_done hmodifiers (run_bind_of_done (run_rejectModifiers _ hadmitted m) ?_)
    refine (run_look _).trans ?_
    rw [hrest.head, hcase]
    exact htail m d hm hrest hd

theorem restores_methodParameter {p : Parameter} (h : OfMethodParameter ts p)
    (hfloat : Floatless p.leaves) (n : Nat) :
    methodParameter.Restores n exprBarred (ofParameter p) p.unplaced := by
  obtain @⟨_, ms, _, b, t, _, _, type, _, default, _, hadmitted, hb, -, -, htype, hdefault⟩ := h
  obtain ⟨⟩ := hb
  rw [Parameter.leaves] at hfloat
  have htail :=
    restores_parameterTail ms.unplaced none t.ident htype hdefault hfloat.tail.append.2 n
  intro c d hc hpass hd
  obtain ⟨m, hmodifiers, hm, hrest⟩ := run_ofModifiers hc hpass rfl
  refine (run_look _).trans ?_
  rw [hc.peek]
  refine run_bind_of_done hmodifiers (run_bind_of_done (run_rejectModifiers _ hadmitted m) ?_)
  exact htail m d hm hrest hd

theorem restores_classParameters {isCase : Bool} {kind : TypeKind} {ps : List Parameter}
    (h : OfClassParameters isCase kind ts ps) (hfloat : Floatless (ps.flatMap Parameter.leaves))
    (n : Nat) :
    (classParameters kind isCase).Restores n [.leftParen] (argued (ps.map ofParameter))
      (ps.map Parameter.unplaced) := by
  intro c d hc hpass hd
  cases ps with
  | nil =>
    obtain rfl := hpass.eq_of_nil
    exact run_if_false (Cursor.isAtOnLine_eq_false (by simpa using hd))
  | cons p ps =>
    cases h with
    | present hps =>
      have hitem : ∀ q ∈ p :: ps, (classParameter isCase).Restores n exprBarred (ofParameter q)
          q.unplaced := by
        intro q hq
        obtain ⟨us, -, hus⟩ := hps.exists_of_mem hq
        exact restores_classParameter hus (hfloat.of_mem hq) n
      have hlist := Restores.enclosed hitem (by decide) (by decide) fun q _ => head_ofParameter q
      refine (run_if_true (by rw [hpass.isAtOnLine rfl]; rfl)).trans ?_
      exact hlist c d (hc.mono (Nat.le_succ n)) hpass (by simp)

theorem restores_methodClause? {ps : List Parameter} (h : Enclosed OfMethodParameter ts ps)
    (hfloat : Floatless (ps.flatMap Parameter.leaves)) (n : Nat) :
    methodClause?.Restores n [] (parens (separated .comma (ps.map ofParameter)))
      (some (ps.map Parameter.unplaced)) := by
  have hitem : ∀ q ∈ ps, methodParameter.Restores n exprBarred (ofParameter q) q.unplaced := by
    intro q hq
    obtain ⟨us, -, hus⟩ := h.exists_of_mem hq
    exact restores_methodParameter hus (hfloat.of_mem hq) n
  have hlist := Restores.enclosed hitem (by decide) (by decide) fun q _ => head_ofParameter q
  intro c d hc hpass hd
  refine (run_if_true (by rw [hpass.isAtOnLine rfl]; rfl)).trans ?_
  exact run_bind_of_done (hlist c d (hc.mono (Nat.le_succ n)) hpass hd) rfl

theorem restores_clauses {cs : List (List Parameter)}
    (h : Chained (Enclosed OfMethodParameter) ts cs)
    (hfloat : Floatless (cs.flatMap (List.flatMap Parameter.leaves))) (n : Nat) :
    (many methodClause?).Restores n [.leftParen]
      (cs.flatMap fun ps => parens (separated .comma (ps.map ofParameter)))
      (cs.map (List.map Parameter.unplaced)) := by
  have hitem : ∀ ps ∈ cs, methodClause?.Restores n []
      (parens (separated .comma (ps.map ofParameter))) (some (ps.map Parameter.unplaced)) := by
    intro ps hps
    obtain ⟨us, -, hus⟩ := h.exists_of_mem hps
    exact restores_methodClause? hus (hfloat.of_mem hps) n
  have hstop : methodClause?.Restores n [.leftParen] [] none := by
    intro c d hc hpass hd
    obtain rfl := hpass.eq_of_nil
    exact run_if_false (Cursor.isAtOnLine_eq_false (by simpa using hd))
  exact Restores.many hitem hstop fun ps _ => ⟨_, _, rfl, by simp⟩

/-! ### Supertypes -/

theorem restores_parent {p : Parent} (h : OfParent ts p) (hfloat : Floatless p.leaves) (n : Nat) :
    parent.Restores n [.leftBracket, .leftParen] (ofParent p) p.unplaced := by
  obtain @⟨_, type, _, es, hn, has⟩ := h
  rw [Parent.leaves] at hfloat
  intro c d hc hpass hd
  simp only [List.mem_cons, List.not_mem_nil, or_false, not_or] at hd
  have hitem : ∀ e ∈ es, expression.Restores n exprBarred (ofExpr e) e.unplaced := by
    intro e he
    obtain ⟨us, -, hus⟩ := has.exists_of_mem he
    exact restores_expression hus (hfloat.append.2.of_mem he) n
  have harguments := Restores.argumentsOnLine hitem (by decide) (by decide) fun e _ => by
    obtain ⟨t, us, hhead, ht⟩ := head_ofExpr e
    exact ⟨t, us, hhead, fun hkind => ht (by simp [hkind])⟩
  obtain ⟨m, hnamed, hargued⟩ := hpass.split
  have hm : m.peek.kind ∉ [.leftBracket] := by
    refine hargued.peek_not_mem ?_ (by simpa using hd.1)
    rw [← List.append_nil (argued _)]
    exact head_argued (by decide) (by simp)
  refine run_bind_of_done (restores_namedType hn n c m hc hnamed hm) ?_
  refine run_bind_of_done (harguments m d ((hnamed.blank hc).mono (Nat.le_succ n)) hargued
    (by simpa using hd.2)) ?_
  rw [run_look, (hpass.blank hc).previousSpan]
  rfl

theorem restores_parents {ps : List Parent} (h : OfParents ts ps)
    (hfloat : Floatless (ps.flatMap Parent.leaves)) (n : Nat) :
    parents.Restores n [.kwExtends, .kwWith, .leftBracket, .leftParen] (ofParents ps)
      (ps.map Parent.unplaced) := by
  intro c d hc hpass hd
  cases h with
  | none =>
    obtain rfl := hpass.eq_of_nil
    have hnone := restores_absent .kwExtends parent n c c hc hpass
      (by simpa using ne_of_barred hd (by simp))
    exact run_bind_of_done hnone rfl
  | @some _ p _ ps hp hps =>
    obtain ⟨-, hp⟩ := hp
    have hfirst := restores_parent hp (hfloat.of_mem (List.mem_cons_self ..)) n
    have hitem : ∀ q ∈ ps, (behind? .kwWith parent).Restores n [.leftBracket, .leftParen]
        (mark .kwWith :: ofParent q) (some q.unplaced) := by
      intro q hq
      obtain ⟨us, -, hus⟩ := hps.exists_of_mem hq
      obtain ⟨-, hus⟩ := hus
      have hq' := restores_parent hus (hfloat.of_mem (List.mem_cons_of_mem _ hq)) n
      exact hq'.behind.mono (Nat.le_succ n) (List.Subset.refl _)
    have hothers := Restores.many hitem (restores_absent .kwWith parent n)
      fun q _ => ⟨_, _, rfl, by decide⟩
    have hsplit : c.Passes ((mark .kwExtends :: ofParent p) ++
        ps.flatMap fun q => mark .kwWith :: ofParent q) d := hpass
    obtain ⟨m, hparent, hrest⟩ := hsplit.split
    have hm : m.peek.kind ∉ [.leftBracket, .leftParen] := by
      refine hrest.peek_not_mem ?_ ?_
      · rw [← List.append_nil (List.flatMap _ _)]
        exact head_flatMap (fun q _ => ⟨_, _, rfl, by decide⟩) (by simp)
      · simp only [List.mem_cons, List.not_mem_nil, or_false, not_or] at hd ⊢
        exact hd.2.2
    have hextends := hfirst.behind c m (hc.mono (Nat.le_succ n)) hparent hm
    refine run_bind_of_done hextends ?_
    refine run_bind_of_done (hothers m d (hparent.blank hc) hrest ?_) rfl
    simp only [List.mem_cons, List.mem_append, List.not_mem_nil, or_false, not_or] at hd ⊢
    exact hd.2

/-! ### Members -/

/-- What goes on with a member. -/
def memberBarred : List TokenKind := .colon :: .leftBrace :: exprBarred

end Parser

/-- The value that is read from a rendering behind the tokens `hs`: without places, but where it is
left out, the place behind the last of them is kept. -/
def Initializer.restoredBehind (hs : List Token) : Initializer → Initializer
  | given value => given value.unplaced
  | omitted _ => omitted (afterLast hs)

def Field.restored (f : Field) : Field :=
  { f.unplaced with
    initializer := f.initializer.restoredBehind (ofModifiers f.modifiers ++
      mark (.binding f.binding) :: word f.name :: behind .colon (f.type.map ofType)) }

def Member.restored : Member → Member
  | field f => field f.restored
  | method m => method m.unplaced

def TypeDef.restored (d : TypeDef) : TypeDef :=
  { d.unplaced with members := d.members.map Member.restored }

theorem Initializer.restoredBehind_unplaced (hs : List Token) (init : Initializer) :
    (init.restoredBehind hs).unplaced = init.unplaced := by
  cases init <;> simp [restoredBehind, unplaced]

theorem Field.restored_unplaced (f : Field) : f.restored.unplaced = f.unplaced := by
  simp [restored, unplaced, Initializer.restoredBehind_unplaced, Option.map_map, Function.comp_def]

theorem Member.restored_unplaced (m : Member) : m.restored.unplaced = m.unplaced := by
  cases m <;> simp [restored, unplaced, Field.restored_unplaced]

theorem TypeDef.restored_unplaced (d : TypeDef) : d.restored.unplaced = d.unplaced := by
  simp [restored, unplaced, Function.comp_def, Member.restored_unplaced]

namespace Parser

variable {n : Nat} {ts : List Token}

theorem run_initializer {last : Span} {vs hs : List Token} {init : Initializer} {c k d : Cursor}
    (h : OfInitializer last vs init) (hfloat : Floatless init.leaves) (hhead : c.Passes hs k)
    (hhs : hs ≠ []) (hk : k.Blank n) (hpass : k.Passes (ofInitializer init) d)
    (hd : d.peek.kind ∉ memberBarred) :
    initializer.run k = .done (init.restoredBehind hs) d := by
  cases h with
  | given he =>
    obtain ⟨-, he⟩ := he
    have hexpr := restores_expression he hfloat n
    have hd' : d.peek.kind ∉ exprBarred := not_mem_of_barred hd (by decide)
    exact run_bind_of_done (hexpr.behind k d (hk.mono (Nat.le_succ n)) hpass hd') rfl
  | omitted =>
    obtain rfl := hpass.eq_of_nil
    have hnone := restores_absent .equals expression n k k hk hpass
      (by simpa using ne_of_barred hd (show .equals ∈ memberBarred by decide))
    refine run_bind_of_done hnone ?_
    rw [run_look, hhead.afterPrevious hhs]
    rfl

theorem restores_field {f : Field} (h : OfField ts f) (hfloat : Floatless f.leaves) (n : Nat) :
    member.Restores n memberBarred (ofField f) (.field f.restored) := by
  obtain @⟨_, ms, _, b, t, _, type, _, init, -, hadmitted, hlazy, -, -, htype, hinit⟩ := h
  rw [Field.leaves] at hfloat
  intro c d hc hpass hd
  have hsplit : c.Passes ((ofModifiers ms ++ mark (.binding b) :: word t.ident ::
      behind .colon (type.map ofType)) ++ ofInitializer init) d := by simpa [ofField] using hpass
  obtain ⟨k, hhead, hvalue⟩ := hsplit.split
  obtain ⟨m, hmodifiers, hm, hrest⟩ := run_ofModifiers hc hhead rfl
  have hname := hrest.tail
  have hblank := hname.first.blank (hrest.first.blank hm)
  have hk : k.peek.kind ∉ .colon :: typeBarred := by
    refine hvalue.peek_not_mem ?_ (not_mem_of_barred hd (by decide))
    cases init with
    | given value =>
      rintro t ⟨⟩
      decide
    | omitted => simp [ofInitializer]
  have hcheck : (checkFieldModifiers b ms.unplaced).run m.advance = .done () m.advance := by
    cases b with
    | val => rfl
    | var => exact run_rejectModifiers _ (hlazy rfl) _
  have hinitializer := run_initializer hinit hfloat.tail.append.2 hhead (by simp)
    (hhead.blank hc) hvalue hd
  refine (run_look _).trans (run_bind_of_done hmodifiers ?_)
  refine run_bind_of_done (run_rejectModifiers _ hadmitted m) ((run_look _).trans ?_)
  rw [hrest.head]
  refine run_bind_of_done (run_bind_of_done (run_next hrest) (run_bind_of_done hcheck ?_)) rfl
  refine run_bind_of_done (run_identifier hname) ?_
  refine run_bind_of_done (restores_typeAnnotation? htype n _ k hblank hname.tail hk) ?_
  refine run_bind_of_done hinitializer ?_
  rw [run_look, hc.peek, (hpass.blank hc).previousSpan]
  rfl

theorem restores_methodBody {body : Option Expr} (h : OfBody ts body)
    (hfloat : Floatless (body.toList.flatMap Expr.leaves)) (n : Nat) :
    methodBody.Restores n memberBarred (behind .equals (body.map ofExpr))
      (body.map Expr.unplaced) := by
  intro c d hc hpass hd
  have hd' : d.peek.kind ∉ exprBarred := not_mem_of_barred hd (by decide)
  cases body with
  | none =>
    obtain rfl := hpass.eq_of_nil
    have hnone := restores_absent .equals expression n c c hc hpass
      (by simpa using ne_of_barred hd (show .equals ∈ memberBarred by decide))
    refine run_bind_of_done hnone (run_if_false ?_)
    exact Cursor.isAtOnLine_eq_false (ne_of_barred hd (by decide))
  | some e =>
    have he : ∃ us, OfExpr us e := by
      cases h with
      | value he =>
        obtain ⟨-, he⟩ := he
        exact ⟨_, he⟩
      | block hss => exact ⟨_, .block (fun _ _ he => he) hss⟩
    obtain ⟨us, he⟩ := he
    have hexpr := restores_expression he (hfloat.of_mem (List.mem_singleton_self e)) n
    exact run_bind_of_done (hexpr.behind c d (hc.mono (Nat.le_succ n)) hpass hd') rfl

theorem restores_method {f : Method} (h : OfMethod ts f) (hfloat : Floatless f.leaves) (n : Nat) :
    member.Restores n memberBarred (ofMethod f) (.method f.unplaced) := by
  obtain @⟨_, ms, _, t, _, tps, _, cs, _, result, _, body, -, hadmitted, hlazy, -, -, htps, hcs,
    hresult, hbody⟩ := h
  rw [Method.leaves] at hfloat
  have hfloat := hfloat.tail.append.2.append
  intro c d hc hpass hd
  obtain ⟨m, hmodifiers, hm, hrest⟩ := run_ofModifiers hc hpass rfl
  have hname := hrest.tail
  -- Behind the name come type parameters, clauses, the result and the body, each of which may be
  -- left out, so what stands behind one of them is the beginning of a later one or the end.
  obtain ⟨c₁, htypes, hpass₁⟩ := hname.tail.split
  obtain ⟨c₂, hclauses, hpass₂⟩ := hpass₁.split
  obtain ⟨c₃, htyped, hpass₃⟩ := hpass₂.split
  have hblank := hname.first.blank (hrest.first.blank hm)
  have hblank₁ := htypes.blank hblank
  have hblank₂ := hclauses.blank hblank₁
  have hblank₃ := htyped.blank hblank₂
  have hbodyHead : ∀ kinds : List TokenKind, .equals ∉ kinds →
      ∀ t ∈ (behind .equals (body.map ofExpr)).head?, t.kind ∉ kinds := by
    intro kinds hequals
    rw [← List.append_nil (behind _ _)]
    exact head_behind hequals (by simp)
  have hc₁ : c₁.peek.kind ∉ [.leftBracket] := by
    refine hpass₁.peek_not_mem ?_ (not_mem_of_barred hd (by decide))
    refine head_flatMap (fun ps _ => ⟨_, _, rfl, by decide⟩) ?_
    exact head_behind (by decide) (hbodyHead _ (by decide))
  have hc₂ : c₂.peek.kind ∉ [.leftParen] := by
    refine hpass₂.peek_not_mem ?_ (not_mem_of_barred hd (by decide))
    exact head_behind (by decide) (hbodyHead _ (by decide))
  have hc₃ : c₃.peek.kind ∉ .colon :: typeBarred :=
    hpass₃.peek_not_mem (hbodyHead _ (by decide)) (not_mem_of_barred hd (by decide))
  have hspan := hblank₃.previousSpan
  refine (run_look _).trans (run_bind_of_done hmodifiers ?_)
  refine run_bind_of_done (run_rejectModifiers _ hadmitted m) ((run_look _).trans ?_)
  rw [hrest.head]
  refine run_bind_of_done (run_rejectModifiers _ hlazy m) (run_bind_of_done ?_ rfl)
  refine run_bind_of_done (run_expect hrest rfl _) (run_bind_of_done (run_memberName hname) ?_)
  refine run_bind_of_done (restores_typeParameters htps n _ c₁ hblank htypes hc₁) ?_
  refine run_bind_of_done (restores_clauses hcs hfloat.1 n c₁ c₂ hblank₁ hclauses hc₂) ?_
  refine run_bind_of_done (restores_typeAnnotation? hresult n c₂ c₃ hblank₂ htyped hc₃) ?_
  refine (run_look _).trans ?_
  refine run_bind_of_done (restores_methodBody hbody hfloat.2.append.2 n c₃ d hblank₃ hpass₃ hd) ?_
  rw [hc.peek, hspan]
  rfl

theorem restores_member {m : Member} (h : OfMember ts m) (hfloat : Floatless m.leaves) (n : Nat) :
    member.Restores n memberBarred (ofMember m) m.restored := by
  cases h with
  | field hf => exact restores_field hf hfloat n
  | method hm => exact restores_method hm hfloat n

theorem head_ofMember (m : Member) :
    ∃ t ts, ofMember m = t :: ts ∧ t.kind ∉ [.semicolon, .rightBrace] := by
  cases m with
  | field f =>
    rw [ofMember, ofField, ofModifiers]
    cases f.modifiers.written with
    | nil => exact ⟨_, _, rfl, by simp [mark, plain]⟩
    | cons w ws => exact ⟨_, _, rfl, by simp [mark, plain]⟩
  | method f =>
    rw [ofMember, ofMethod, ofModifiers]
    cases f.modifiers.written with
    | nil => exact ⟨_, _, rfl, by decide⟩
    | cons w ws => exact ⟨_, _, rfl, by simp [mark, plain]⟩

theorem restores_members {ms : List Member} (h : Omissible (Braced OfMember) ts ms)
    (hfloat : Floatless (ms.flatMap Member.leaves)) (n : Nat) :
    members.Restores n [.leftBrace] (ofMembers ms) (ms.map Member.restored) := by
  intro c d hc hpass hd
  cases ms with
  | nil =>
    obtain rfl := hpass.eq_of_nil
    exact run_if_false (Cursor.isAtOnLine_eq_false (by simpa using hd))
  | cons m ms =>
    cases h with
    | present hms =>
      have hitem : ∀ f ∈ m :: ms, member.Restores n memberBarred (ofMember f) f.restored := by
        intro f hf
        obtain ⟨us, -, hus⟩ := hms.exists_of_mem hf
        exact restores_member hus (hfloat.of_mem hf) n
      have hlist := Restores.statements hitem (by decide) (by decide) fun f _ => head_ofMember f
      refine (run_if_true (by rw [hpass.isAtOnLine rfl]; rfl)).trans ?_
      exact hlist c d (hc.mono (Nat.le_succ n)) hpass (by simp)

/-! ### Definitions -/

theorem run_checkTypeModifiers {kind : TypeKind} {ms : ModifierList} (h : Admits kind ms)
    (c : Cursor) : (checkTypeModifiers kind ms.unplaced).run c = .done () c := by
  obtain ⟨htypes, htraits, hobjects⟩ := h
  refine run_bind_of_done (run_rejectModifiers _ htypes c) ?_
  cases kind with
  | «class» => rfl
  | trait => exact run_rejectModifiers _ (htraits rfl) c
  | object => exact run_rejectModifiers _ (hobjects rfl) c

theorem head_ofParents {kinds : List TokenKind} {ps : List Parent} (hextends : .kwExtends ∉ kinds)
    (h : ∀ t ∈ ts.head?, t.kind ∉ kinds) :
    ∀ t ∈ (ofParents ps ++ ts).head?, t.kind ∉ kinds := by
  cases ps with
  | nil => exact h
  | cons p ps =>
    rintro t ⟨⟩
    exact hextends

theorem head_ofMembers {kinds : List TokenKind} (ms : List Member) (hbrace : .leftBrace ∉ kinds) :
    ∀ t ∈ (ofMembers ms).head?, t.kind ∉ kinds := by
  cases ms with
  | nil => simp [ofMembers]
  | cons m ms =>
    rintro t ⟨⟩
    exact hbrace

/-- A definition is restored also from tokens that differ from its rendering in the lines that its
modifiers and the word for its kind begin. -/
theorem run_typeDef {ts hs : List Token} {w : Token} {f : TypeDef} {c d : Cursor}
    (h : OfTypeDef ts f) (hfloat : Floatless f.leaves)
    (hhs : hs.map Token.kind = (ofModifiers f.modifiers).map Token.kind)
    (hw : w.kind = .typeKind f.kind) (hc : c.Blank n)
    (hpass : c.Passes (hs ++ w :: word f.name ::
      (bracketed (f.typeParameters.map ofTypeParameter) ++
        (argued (f.parameters.map ofParameter) ++
          (ofParents f.parents ++ ofMembers f.members)))) d)
    (hd : d.peek.kind = .semicolon ∨ d.peek.kind = .eof) :
    typeDef.run c = .done f.restored d := by
  obtain @⟨_, ms, _, kind, t, _, tps, _, ps, _, parents, _, members, -, -, hadmitted, -, htps, hps,
    hparents, hmembers⟩ := h
  rw [TypeDef.leaves] at hfloat
  have hfloat := hfloat.tail.append.2.append
  have hend : ∀ {kinds : List TokenKind}, .semicolon ∉ kinds → .eof ∉ kinds →
      d.peek.kind ∉ kinds := by
    intro kinds hsemicolon heof
    rcases hd with hd | hd <;> rwa [hd]
  obtain ⟨m, hwritten, hrest⟩ := hpass.split
  have hname := hrest.tail
  obtain ⟨c₁, htypes, hpass₁⟩ := hname.tail.split
  obtain ⟨c₂, hparameters, hpass₂⟩ := hpass₁.split
  obtain ⟨c₃, hsupertypes, hpass₃⟩ := hpass₂.split
  have hm := hwritten.blank hc
  have hblank := hname.first.blank (hrest.first.blank hm)
  have hblank₁ := htypes.blank hblank
  have hblank₂ := hparameters.blank hblank₁
  have hblank₃ := hsupertypes.blank hblank₂
  have hc₁ : c₁.peek.kind ∉ [.leftBracket] := by
    refine hpass₁.peek_not_mem ?_ (hend (by decide) (by decide))
    exact head_argued (by decide) (head_ofParents (by decide) (head_ofMembers _ (by decide)))
  have hc₂ : c₂.peek.kind ∉ [.leftParen] := by
    refine hpass₂.peek_not_mem ?_ (hend (by decide) (by decide))
    exact head_ofParents (by decide) (head_ofMembers _ (by decide))
  have hc₃ : c₃.peek.kind ∉ [.kwExtends, .kwWith, .leftBracket, .leftParen] :=
    hpass₃.peek_not_mem (head_ofMembers _ (by decide)) (hend (by decide) (by decide))
  have hmodifiers : modifiers.run c = .done ms.unplaced m := by
    refine run_modifiers (hhs.trans (kinds_ofModifiers ms)) hc hwritten ?_
    rw [hrest.head, hw]
    rfl
  have hkind : typeKind.run m = .done kind m.advance := by
    refine (run_look _).trans ?_
    rw [hrest.head, hw]
    exact run_bind_of_done (run_next hrest) rfl
  have hcase : ms.unplaced.contains .case = ms.contains .case := ms.contains_unplaced .case
  refine (run_look _).trans (run_bind_of_done hmodifiers (run_bind_of_done hkind ?_))
  refine run_bind_of_done (run_checkTypeModifiers hadmitted _) ?_
  refine run_bind_of_done (run_identifier hname) ?_
  refine run_bind_of_done (restores_typeParameters htps n _ c₁ hblank htypes hc₁) ?_
  rw [hcase]
  refine run_bind_of_done (restores_classParameters hps hfloat.1 n c₁ c₂ hblank₁ hparameters hc₂) ?_
  refine run_bind_of_done
    (restores_parents hparents hfloat.2.append.1 n c₂ c₃ hblank₂ hsupertypes hc₃) ?_
  refine run_bind_of_done (restores_members hmembers hfloat.2.append.2 n c₃ d hblank₃ hpass₃
    (hend (by decide) (by decide))) ?_
  refine run_bind_of_done (run_statementEnd hd) ?_
  rw [hc.peek]
  rfl

end Parser

namespace Program

/-! ### Programs -/

theorem ReadsTo.unique {c : Cursor} {r r' : Reading} (h : ReadsTo c r) (h' : ReadsTo c r') :
    r = r' := by
  induction h generalizing r' with
  | finish hend =>
    cases h' with
    | finish => rfl
    | definition hmore => simp [hend] at hmore
    | error hmore => simp [hend] at hmore
  | definition hmore hrun _ ih =>
    cases h' with
    | finish hend => simp [hmore] at hend
    | definition _ hrun' hrest =>
      obtain ⟨rfl, rfl⟩ := Outcome.done.inj (hrun.symm.trans hrun')
      rw [ih hrest]
    | error _ hrun' => cases hrun.symm.trans hrun'
  | error hmore hrun _ ih =>
    cases h' with
    | finish hend => simp [hmore] at hend
    | definition _ hrun' => cases hrun.symm.trans hrun'
    | error _ hrun' hrest =>
      obtain ⟨rfl, rfl⟩ := Outcome.failed.inj (hrun.symm.trans hrun')
      rw [ih hrest]

variable {n : Nat}

theorem readsTo_cons (ss : List Token) {ts hs : List Token} {w : Token} {f : TypeDef}
    {c m : Cursor} {r : Reading}
    (hss : ss = [] ∨ ss = [mark .semicolon]) (h : OfTypeDef ts f) (hfloat : Floatless f.leaves)
    (hhs : hs.map Token.kind = (ofModifiers f.modifiers).map Token.kind)
    (hw : w.kind = .typeKind f.kind) (hc : c.Blank n)
    (hpass : c.Passes (ss ++ (hs ++ w :: word f.name ::
      (bracketed (f.typeParameters.map ofTypeParameter) ++ (argued (f.parameters.map ofParameter) ++
        (ofParents f.parents ++ ofMembers f.members))))) m)
    (hm : m.peek.kind = .semicolon ∨ m.peek.kind = .eof) (hrest : ReadsTo m r) :
    ReadsTo c ⟨f.restored :: r.definitions, r.errors⟩ := by
  obtain ⟨s, hskipped, hdefinition⟩ := hpass.split
  have hfirst : s.peek.kind ∉ [.semicolon, .eof] := by
    cases hs with
    | nil =>
      rw [hdefinition.head, hw]
      simp
    | cons t hs =>
      have hmem : t.kind ∈ (ofModifiers f.modifiers).map Token.kind := by
        rw [← hhs]
        exact List.mem_map_of_mem (List.mem_cons_self ..)
      rw [kinds_ofModifiers] at hmem
      obtain ⟨k, -, hk⟩ := List.mem_map.mp hmem
      rw [hdefinition.head, ← hk]
      simp
  have hstart : startFrom c = s := by
    cases hahead : s.ahead with
    | nil =>
      have hlength := congrArg List.length hdefinition.ahead
      simp [hahead] at hlength
    | cons t us =>
      have hpeek : s.peek = t := by simp [Cursor.peek, hahead]
      rw [hpeek] at hfirst
      refine hskipped.skipWhile ?_ hahead ?_
      · rcases hss with rfl | rfl <;> simp [mark, plain]
      · simp only [List.mem_cons, List.not_mem_nil, or_false, not_or] at hfirst
        simpa using hfirst.1
  have hrun := Parser.run_typeDef h hfloat hhs hw (hskipped.blank hc) hdefinition hm
  refine .definition ?_ (by rw [hstart]; exact hrun) hrest
  rw [hstart]
  exact Cursor.isAt_eq_false (Parser.ne_of_barred hfirst (by decide))

theorem readsTo_rendered {fs : List TypeDef} {c e : Cursor}
    (hfs : ∀ f ∈ fs, (∃ ts, OfTypeDef ts f) ∧ Floatless f.leaves) (hc : c.Blank n)
    (hpass : c.Passes (fs.flatMap fun f => mark .semicolon :: ofTypeDef f) e)
    (hend : e.peek.kind = .eof) :
    ReadsTo c ⟨fs.map TypeDef.restored, []⟩ ∧ (c.peek.kind = .semicolon ∨ c.peek.kind = .eof) := by
  induction fs generalizing c with
  | nil =>
    obtain rfl := hpass.eq_of_nil
    have hstart : startFrom c = c := Cursor.skipWhile_eq_self (by simp [hend])
    refine ⟨.finish ?_, .inr hend⟩
    rw [hstart]
    simpa [Cursor.isAt] using hend
  | cons f fs ih =>
    rw [List.flatMap_cons] at hpass
    obtain ⟨m, hdefinition, hrest⟩ := hpass.split
    obtain ⟨⟨ts, hts⟩, hfloat⟩ := hfs f (List.mem_cons_self ..)
    obtain ⟨hothers, hm⟩ :=
      ih (fun g hg => hfs g (List.mem_cons_of_mem _ hg)) (hdefinition.blank hc) hrest
    refine ⟨?_, .inl (by rw [hdefinition.head]; rfl)⟩
    exact readsTo_cons [mark .semicolon] (.inr rfl) hts hfloat rfl rfl hc hdefinition hm hothers

theorem modifyHead_ofTypeDef {g : Token → Token} (hg : ∀ t, (g t).kind = t.kind) (f : TypeDef)
    (us : List Token) :
    ∃ hs w, (ofTypeDef f ++ us).modifyHead g = (hs ++ w :: word f.name ::
        (bracketed (f.typeParameters.map ofTypeParameter) ++
          (argued (f.parameters.map ofParameter) ++
            (ofParents f.parents ++ ofMembers f.members)))) ++ us ∧
      hs.map Token.kind = (ofModifiers f.modifiers).map Token.kind ∧ w.kind = .typeKind f.kind := by
  cases hms : ofModifiers f.modifiers with
  | nil => exact ⟨[], g (mark (.typeKind f.kind)), by simp [ofTypeDef, hms], rfl, hg _⟩
  | cons t ts =>
    refine ⟨g t :: ts, mark (.typeKind f.kind), by simp [ofTypeDef, hms], ?_, rfl⟩
    simp [hg]

theorem exists_ofTypeDef {ts : List Token} {fs : List TypeDef} (h : OfDefinitions ts fs) :
    ∀ f ∈ fs, ∃ us, OfTypeDef us f := by
  induction h with
  | nil => simp
  | cons _ hd _ ih => exact List.forall_mem_cons.mpr ⟨⟨_, hd⟩, ih⟩

theorem readsTo_modifyHead {g : Token → Token} (hg : ∀ t, (g t).kind = t.kind) {p : Program}
    {c e : Cursor} (hfs : ∀ f ∈ p.definitions, (∃ ts, OfTypeDef ts f) ∧ Floatless f.leaves)
    (hc : c.Blank n) (hpass : c.Passes (p.rendered.modifyHead g) e) (hend : e.peek.kind = .eof) :
    ReadsTo c ⟨p.definitions.map TypeDef.restored, []⟩ := by
  rw [rendered] at hpass
  cases hdefinitions : p.definitions with
  | nil =>
    rw [hdefinitions] at hpass
    have hnone : ∀ f ∈ ([] : List TypeDef), (∃ ts, OfTypeDef ts f) ∧ Floatless f.leaves := by simp
    exact (readsTo_rendered hnone hc hpass hend).1
  | cons f fs =>
    rw [hdefinitions] at hfs
    rw [hdefinitions, List.map_cons, Parser.separated_cons, List.flatMap_map] at hpass
    obtain ⟨hs, w, hhead, hhs, hw⟩ := modifyHead_ofTypeDef hg f
      (fs.flatMap fun f => mark .semicolon :: ofTypeDef f)
    rw [hhead] at hpass
    obtain ⟨m, hdefinition, hrest⟩ := hpass.split
    obtain ⟨⟨ts, hts⟩, hfloat⟩ := hfs f (List.mem_cons_self ..)
    obtain ⟨hothers, hm⟩ := readsTo_rendered (fun g hg => hfs g (List.mem_cons_of_mem _ hg))
      (hdefinition.blank hc) hrest hend
    exact readsTo_cons [] (.inl rfl) hts hfloat hhs hw hc hdefinition hm hothers

/-- Reading inverts rendering: a program that was read and has no floating-point literal is read
again, up to places, from the tokens of its rendering, wherever these stand on their line, the first
of which may begin it. -/
theorem ofTokens_rendered {stream again : TokenStream} {p : Program} {first : Bool}
    (hfinal : stream.final.kind = .eof) (h : ofTokens stream = .ok p)
    (hfloat : ∀ l ∈ p.leaves, l.isFloat = false)
    (hagain : again.tokens.map Token.unplaced =
      p.rendered.modifyHead fun t => { t with startsLine := first })
    (hend : again.final.kind = .eof) :
    ∃ q, ofTokens again = .ok q ∧ q.unplaced = p.unplaced := by
  obtain ⟨ts, d, -, -, hds⟩ := spells_ofTokens hfinal h
  have hfs : ∀ f ∈ p.definitions, (∃ ts, OfTypeDef ts f) ∧ Floatless f.leaves :=
    fun f hf => ⟨exists_ofTypeDef hds f hf, Floatless.of_mem hfloat hf⟩
  let c := Cursor.ofStream again.unplaced
  have hc : c.Blank (c.ahead.length + 1) := by
    refine ⟨by simp [c, Cursor.ofStream], ?_, rfl, Nat.lt_succ_self _⟩
    intro t ht
    obtain ⟨u, -, rfl⟩ := List.mem_map.mp ht
    rfl
  have hpass : c.Passes (p.rendered.modifyHead fun t => { t with startsLine := first })
      ⟨c.ahead.getLast?, [], c.final⟩ := by
    rw [← hagain]
    exact ⟨(List.append_nil _).symm, by simp [c, Cursor.ofStream, TokenStream.unplaced], rfl⟩
  have hreads :=
    readsTo_modifyHead (g := fun t => { t with startsLine := first }) (fun _ => rfl) hfs hc hpass
      hend
  have hread := (readsTo_readFrom (c := c) hend).unique hreads
  have hok : ofTokens again.unplaced = .ok ⟨p.definitions.map TypeDef.restored⟩ := by
    rw [ofTokens, show Cursor.ofStream again.unplaced = c from rfl, hread]
    rfl
  have hunplaced : again.unplaced.unplaced = again.unplaced := by
    simp [TokenStream.unplaced, Token.unplaced, Function.comp_def]
  rcases ofTokens_alike hunplaced with ⟨q, q', hq, hq', heq⟩ | ⟨es, _, hes, -⟩
  · refine ⟨q', hq', ?_⟩
    obtain rfl := Except.ok.inj (hok.symm.trans hq)
    rw [← heq]
    simp [unplaced, Function.comp_def, TypeDef.restored_unplaced]
  · cases hok.symm.trans hes

theorem ofTokens_rendered_layout :
    let text := "case class C(x: A => B)\nobject D \x7b\n val s = 2 * -x.y\n def f \x7b r \x7d \x7d"
    let full := "case class C(val x: (A) => B); object D \x7b " ++
      "val s = (2) * (-((x).y)); def f = \x7b (r) \x7d \x7d"
    ∃ p, ofText .user text = .ok p ∧ (∀ l ∈ p.leaves, l.isFloat = false) ∧
      (TokenStream.ofText .user full).tokens.map Token.unplaced =
        p.rendered.modifyHead (fun t => { t with startsLine := true }) ∧
      ∃ q, ofText .user full = .ok q ∧ q.unplaced = p.unplaced := by
  intro text full
  have hchecked : ((ofText .user text).toOption.any fun p => p.leaves.all (fun l => !l.isFloat) &&
      decide ((TokenStream.ofText .user full).tokens.map Token.unplaced =
        p.rendered.modifyHead (fun t => { t with startsLine := true }))) = true := by
    decide +kernel
  cases hp : ofText .user text with
  | error es =>
    rw [hp] at hchecked
    cases hchecked
  | ok p =>
    rw [hp] at hchecked
    simp only [Except.toOption, Option.any_some, Bool.and_eq_true, decide_eq_true_eq,
      List.all_eq_true, Bool.not_eq_true'] at hchecked
    obtain ⟨hfloat, hwords⟩ := hchecked
    have hfinal := (TokenStream.scannedFrom .user Location.start text.toList).final
    have hend := (TokenStream.scannedFrom .user Location.start full.toList).final
    exact ⟨p, rfl, hfloat, hwords, ofTokens_rendered hfinal hp hfloat hwords hend⟩

end Program

end Mixin
