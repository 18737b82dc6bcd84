import Mixin.Proofs.Analysis.Registration
import Mixin.Proofs.Analysis.Visits
import Mixin.Proofs.Grammar.Nesting

/-!
# Hooks

A visitor has a state, to which its hook adds at each visit what it has to report. The hook is
called on the way, so what is visited next could depend on what was reported before; it does not
(`Visitor.program_eq`), as long as hooks leave the registry alone.
-/

namespace Mixin

/-- A visitor with states `σ`, each of which gives access to the registry. Its hook does not change
the registry. -/
structure Visitor (σ : Type) where
  registry : σ → Registry
  hook : Visit → σ → σ
  registry_hook : ∀ v s, registry (hook v s) = registry s

namespace Visitor

variable {σ : Type} (V : Visitor σ)

def callAll (s : σ) (vs : List Visit) : σ := vs.foldl (fun s v => V.hook v s) s

def member (owner : Owner) (s : σ) : Member → Except Unanalyzed σ
  | .field f => do
    let id ← (V.registry s).fieldOf f
    return V.callAll (V.hook (.field f id owner) s) f.initializer.visits
  | .method m => do
    let id ← (V.registry s).methodOf m
    let s := V.hook (.method m id owner) s
    let s := V.callAll s (m.parameters.flatMap (·.visits (.method id)))
    return V.callAll s ((m.body.map Expr.visits).getD [])

def typeDef (s : σ) (d : TypeDef) : Except Unanalyzed σ := do
  let id ← (V.registry s).classOf d
  let owner : Owner := ⟨id, d.kind⟩
  let s := d.parameters.foldl
    (fun s p => V.callAll s (p.visits (.type owner ((V.registry s).parameterField? p))))
    (V.hook (.type d id) s)
  let s := V.callAll s (d.parents.flatMap fun p => exprListVisits p.arguments)
  d.members.foldlM (V.member owner) s

def program (s : σ) (p : Program) : Except Unanalyzed σ := p.definitions.foldlM V.typeDef s

theorem registry_callAll (s : σ) (vs : List Visit) :
    V.registry (V.callAll s vs) = V.registry s := by
  induction vs generalizing s with
  | nil => rfl
  | cons v vs ih => exact (ih _).trans (V.registry_hook v s)

theorem callAll_append (s : σ) (vs ws : List Visit) :
    V.callAll s (vs ++ ws) = V.callAll (V.callAll s vs) ws :=
  List.foldl_append

theorem member_eq (owner : Owner) (s : σ) (m : Member) :
    V.member owner s m = (do return V.callAll s (← m.visits (V.registry s) owner)) := by
  cases m with
  | field f =>
    rw [member, Member.visits]
    cases (V.registry s).fieldOf f <;> rfl
  | method m =>
    rw [member, Member.visits]
    cases (V.registry s).methodOf m with
    | error u => rfl
    | ok id => exact congrArg Except.ok (V.callAll_append ..).symm

theorem foldlM_eq {α : Type} {f : σ → α → Except Unanalyzed σ}
    (visits : Registry → α → Except Unanalyzed (List Visit))
    (h : ∀ s a, f s a = (do return V.callAll s (← visits (V.registry s) a))) (s : σ) (as : List α) :
    as.foldlM f s = (do return V.callAll s (← as.mapM (visits (V.registry s))).flatten) := by
  induction as generalizing s with
  | nil => rfl
  | cons a as ih =>
    rw [List.foldlM_cons, h, List.mapM_cons]
    cases visits (V.registry s) a with
    | error u => rfl
    | ok vs =>
      refine (ih (V.callAll s vs)).trans ?_
      rw [registry_callAll]
      cases as.mapM (visits (V.registry s)) with
      | error u => rfl
      | ok vss => exact congrArg Except.ok (V.callAll_append s vs vss.flatten).symm

theorem typeDef_eq (s : σ) (d : TypeDef) :
    V.typeDef s d = (do return V.callAll s (← d.visits (V.registry s))) := by
  have hparameters (owner : Owner) (s : σ) (ps : List Parameter) : ps.foldl
      (fun s p => V.callAll s (p.visits (.type owner ((V.registry s).parameterField? p)))) s =
        V.callAll s (ps.flatMap fun p =>
          p.visits (.type owner ((V.registry s).parameterField? p))) := by
    induction ps generalizing s with
    | nil => rfl
    | cons p ps ih =>
      rw [List.foldl_cons, ih, registry_callAll, List.flatMap_cons, callAll_append]
  rw [typeDef, TypeDef.visits]
  cases (V.registry s).classOf d with
  | error u => rfl
  | ok id =>
    have hmembers := V.foldlM_eq (fun r => Member.visits r ⟨id, d.kind⟩) (V.member_eq ⟨id, d.kind⟩)
    simp only [bind, Except.bind, hparameters, ← callAll_append, hmembers, registry_callAll,
      registry_hook]
    cases d.members.mapM (Member.visits (V.registry s) ⟨id, d.kind⟩) <;> rfl

/-- The hook is called at each visit in turn, whatever was reported before. -/
theorem program_eq (s : σ) (p : Program) :
    V.program s p = (do return V.callAll s (← p.visits (V.registry s))) := by
  rw [program, V.foldlM_eq TypeDef.visits V.typeDef_eq, Program.visits]
  cases p.definitions.mapM (TypeDef.visits (V.registry s)) <;> rfl

end Visitor

theorem Program.phrases_in_order {file : SourceFile} {text : String} {p : Program}
    (h : ofText file text = .ok p) :
    (Phrase.spans (Phrase.preorder [] (.program p))).Pairwise fun s t => s.start ≤ t.start := by
  obtain ⟨hi, hlaid⟩ := laid_ofText (V := fun _ => True) (by simp) (by simp) h
  refine .sublist (Phrase.sublist_spans [] (.program p)) (List.pairwise_map.mpr ?_)
  exact Part.starts_all.2 p.toParts 0 hi hlaid

open Analysis in
/-- Once the declarations of some programs are collected, every visitor is called for each of these
programs at all phrases that are visited, in pre-order, whatever its hook reports. If the programs
were parsed, this is the order in which the phrases are written, and the identifiers that go with
the visits are those of the declarations. -/
theorem visitor_sees_every_phrase (units : List Program) :
    let a := Analysis.initial.collectDeclarations units
    (∀ p ∈ units, ∃ vs, p.visits a.registry = .ok vs ∧
      (Phrase.preorder [] (.program p)).filterMapM (Phrase.visit a.registry) = .ok vs ∧
      ∀ (σ : Type) (V : Visitor σ) (s : σ), V.registry s = a.registry →
        V.program s p = .ok (vs.foldl (fun s v => V.hook v s) s)) ∧
    ∀ texts, (texts.map (·.1)).Nodup → parseAll texts = .ok units →
      a.Faithful (units.flatMap (·.definitions)) ∧ ∀ p ∈ units,
        (Phrase.spans (Phrase.preorder [] (.program p))).Pairwise fun s t => s.start ≤ t.start := by
  refine ⟨fun p hp => ?_, fun texts hfiles hparsed => ?_⟩
  · have hknown := (Analysis.collected units).knows
    obtain ⟨vs, hvs, -⟩ := Program.exists_visits fun d hd =>
      hknown d (List.mem_flatMap.mpr ⟨p, hp, hd⟩)
    refine ⟨vs, hvs, p.visits_eq _ ▸ hvs, fun σ V s hs => ?_⟩
    rw [V.program_eq, hs, hvs]
    rfl
  · obtain ⟨log, h⟩ := exists_journal units
    refine ⟨h.faithful (Analysis.collected units) (nodup_signatures hfiles hparsed)
      (nodup_methodSignatures hfiles hparsed) (nodup_fieldSpans hfiles hparsed), fun p hp => ?_⟩
    obtain ⟨source, -, hp⟩ := exists_mem_of_forall₂ (forall₂_of_parseAll hparsed) hp
    exact Program.phrases_in_order hp

open Analysis in
/-- Parameters, parents and fields with and without values, a block and a closure. -/
theorem visitor_sees_every_phrase_nested :
    let texts := [(SourceFile.user,
      "class A(val x: Int, y: Int = 1) extends B(2) \x7b\n  val f = 3; val e: Int\n" ++
      "  def g(z: Int): Int = \x7b val w = 4; (v: Int) => 5 \x7d\n\x7d\n" ++
      "trait T \x7b def h: Int \x7d\nobject O")]
    (texts.map (·.1)).Nodup ∧ ∃ units, parseAll texts = .ok units ∧
      let a := Analysis.initial.collectDeclarations units
      a.Faithful (units.flatMap (·.definitions)) ∧ ∃ p ∈ units, ∃ vs,
        p.visits a.registry = .ok vs ∧ vs.length = 21 ∧
        (Phrase.preorder [] (.program p)).filterMapM (Phrase.visit a.registry) = .ok vs := by
  intro texts
  have hfiles : (texts.map (·.1)).Nodup := by decide
  have hparsed : ((parseAll texts).toOption.map fun units =>
      let r := (Analysis.initial.collectDeclarations units).registry
      units.map fun p => (p.visits r).toOption.map List.length) = some [some 21] := by
    decide +kernel
  obtain ⟨units, hunits, hlengths⟩ := exists_ok_of_toOption hparsed
  obtain ⟨p, rfl, hlength⟩ := List.map_eq_singleton_iff.mp hlengths
  obtain ⟨hvisits, hfaithful⟩ := visitor_sees_every_phrase [p]
  obtain ⟨vs, hvs, hpreorder, -⟩ := hvisits p (List.mem_singleton_self p)
  rw [hvs] at hlength
  exact ⟨hfiles, [p], hunits, (hfaithful texts hfiles hunits).1, p, List.mem_singleton_self p, vs,
    hvs, Option.some.inj hlength, hpreorder⟩

end Mixin
