import Mixin.Proofs.Grammar.Agreement
import Mixin.Proofs.Grammar.Places
import Mixin.Proofs.Listing.Agreement

/-!
# Layout

What a text is compiled to does not depend on its layout: blanks, comments and line breaks matter
only for the tokens that they separate and for which of them begin a line
(`compile_of_same_tokens`).
-/

namespace Mixin

/-! ### Tokens -/

/-- Tokens of the same kind and text, both or neither of which begin a line. -/
def Token.Agrees (t u : Token) : Prop :=
  t.kind = u.kind ∧ t.lexeme = u.lexeme ∧ t.startsLine = u.startsLine

instance (t u : Token) : Decidable (t.Agrees u) := inferInstanceAs (Decidable (_ ∧ _ ∧ _))

theorem TokenStream.unplaced_of_agrees {stream stream' : TokenStream}
    (h : List.Forall₂ Token.Agrees stream.toList stream'.toList) :
    stream.unplaced = stream'.unplaced := by
  have hall : stream.toList.map Token.unplaced = stream'.toList.map Token.unplaced := by
    rw [← List.forall₂_eq_eq_eq, List.forall₂_map_left_iff, List.forall₂_map_right_iff]
    refine h.imp fun t u htu => ?_
    obtain ⟨hkind, hlexeme, hline⟩ := htu
    rw [Token.unplaced, Token.unplaced, hkind, hlexeme, hline]
  rw [toList, toList, List.map_append, List.map_append] at hall
  obtain ⟨htokens, hfinal⟩ := List.append_inj' hall rfl
  rw [unplaced, unplaced, htokens, List.singleton_inj.mp hfinal]

/-! ### Definitions -/

theorem TypeDef.alike_of_unplaced {ds es : List TypeDef} {file : SourceFile}
    (h : ds.map unplaced = es.map unplaced) (hds : ∀ d ∈ ds, d.name.span.file = file)
    (hes : ∀ e ∈ es, e.name.span.file = file) : List.Forall₂ Alike ds es := by
  induction ds generalizing es with
  | nil =>
    obtain rfl := List.map_eq_nil_iff.mp h.symm
    exact .nil
  | cons d ds ih =>
    cases es with
    | nil => cases h
    | cons e es =>
      obtain ⟨htree, hrest⟩ := List.cons.inj h
      rw [List.forall_mem_cons] at hds hes
      exact .cons ⟨htree, hds.1.trans hes.1.symm⟩ (ih hrest hds.2 hes.2)

/-! ### Compilations -/

theorem parseAll_of_error {text : String} {es : List SyntaxError} {file : SourceFile}
    (h : Program.ofText file text = .error es) : parseAll [(file, text)] = .error es := by
  rw [parseAll, h, parseAll]

theorem parseAll_cons_of_error {file : SourceFile} {text : String}
    {rest : List (SourceFile × String)} {p : Program} {es : List SyntaxError}
    (h : Program.ofText file text = .ok p) (hrest : parseAll rest = .error es) :
    parseAll ((file, text) :: rest) = .error es := by
  rw [parseAll, h, hrest]

theorem exists_parseAll_sourceTexts (noPrelude : Bool) : ∃ before : List Program,
    ∀ source,
      (∀ p, Program.ofText .user source = .ok p →
        parseAll (sourceTexts noPrelude source) = .ok (before ++ [p])) ∧
      ∀ es, Program.ofText .user source = .error es →
        parseAll (sourceTexts noPrelude source) = .error es := by
  obtain ⟨prelude, hprelude⟩ := exists_program_of_toBool prelude_toBool
  cases noPrelude with
  | true =>
    refine ⟨[], fun source => ⟨fun p hp => ?_, fun es hes => ?_⟩⟩
    · exact parseAll_cons hp rfl
    · exact parseAll_of_error hes
  | false =>
    refine ⟨[prelude], fun source => ⟨fun p hp => ?_, fun es hes => ?_⟩⟩
    · exact parseAll_cons hprelude (parseAll_cons hp rfl)
    · exact parseAll_cons_of_error hprelude (parseAll_of_error hes)

theorem Diagnostic.forall₂_saysSame {ds es : List Diagnostic}
    (h : ds.map unplaced = es.map unplaced) : List.Forall₂ SaysSame ds es := by
  rw [← List.forall₂_eq_eq_eq, List.forall₂_map_left_iff, List.forall₂_map_right_iff] at h
  exact h.imp fun _ _ hde => saysSame_of_unplaced hde

theorem listingBackend_alike {p q : Program} {t s : SymbolTable} (hp : p.unplaced = q.unplaced)
    (ht : t.unplaced = s.unplaced) (options : BuildOptions) :
    listingBackend p t options = listingBackend q s options := by
  have hassembly : Assembly.ofProgram p t options = Assembly.ofProgram q s options := by
    rw [← Assembly.ofProgram_unplaced, hp, ht, Assembly.ofProgram_unplaced]
  rw [listingBackend, listingBackend, hassembly]

/-- Compilations that came to the same, if perhaps at different places. -/
structure Compilation.Agrees (c d : Compilation) : Prop where
  stage : c.stage = d.stage
  artifact : c.artifact = d.artifact
  diagnostics : List.Forall₂ Diagnostic.SaysSame c.diagnostics d.diagnostics

theorem Compilation.stopped_agrees {ds es : List Diagnostic}
    (h : ds.map Diagnostic.unplaced = es.map Diagnostic.unplaced) (reached : Stage)
    (events events' : List Event) :
    (stopped reached ds events).Agrees (stopped reached es events') :=
  ⟨rfl, rfl, Diagnostic.forall₂_saysSame h⟩

theorem Compilation.finished_agrees {p q : Program} {a b : Analysis} (hp : p.unplaced = q.unplaced)
    (h : a.Alike b) (noPrelude : Bool) (build : BuildOptions) (events events' : List Event) :
    let options : CompilerOptions := { noPrelude := noPrelude, build := build }
    (finished options p a.symbols a.diagnostics events).Agrees
      (finished options q b.symbols b.diagnostics events') := by
  have hlisted := congrArg Prod.fst (listingBackend_alike hp h.symbols build)
  exact ⟨rfl, congrArg some hlisted, Diagnostic.forall₂_saysSame h.diagnostics⟩

theorem analyze_of_unplaced {noPrelude : Bool} {source source' : String} {before : List Program}
    {p p' : Program} (hp : Program.ofText .user source = .ok p)
    (hp' : Program.ofText .user source' = .ok p') (htree : p.unplaced = p'.unplaced)
    (hunits : parseAll (sourceTexts noPrelude source) = .ok (before ++ [p]))
    (hunits' : parseAll (sourceTexts noPrelude source') = .ok (before ++ [p'])) :
    ∃ a b, analyze (before ++ [p]) = .ok a ∧ analyze (before ++ [p']) = .ok b ∧ a.Alike b := by
  refine analyze_alike (nodup_files_sourceTexts noPrelude source) hunits
    (nodup_files_sourceTexts noPrelude source') hunits' ?_
  rw [List.flatMap_append, List.flatMap_append, List.flatMap_singleton, List.flatMap_singleton]
  refine List.rel_append (List.forall₂_same.mpr fun d _ => ⟨rfl, rfl⟩) ?_
  exact TypeDef.alike_of_unplaced (congrArg Program.definitions htree)
    (Program.file_of_ofText hp) (Program.file_of_ofText hp')

/-- Texts that consist of the same tokens, of which the same begin a line, are compiled alike. -/
theorem compile_of_same_tokens (noPrelude : Bool) (build : BuildOptions) {source source' : String}
    (h : List.Forall₂ Token.Agrees (TokenStream.ofText .user source).toList
      (TokenStream.ofText .user source').toList) :
    ∃ c c', compile { noPrelude := noPrelude, build := build } source = .ok c ∧
      compile { noPrelude := noPrelude, build := build } source' = .ok c' ∧ c.Agrees c' := by
  obtain ⟨before, hparse⟩ := exists_parseAll_sourceTexts noPrelude
  rcases Program.ofTokens_alike (TokenStream.unplaced_of_agrees h) with
    ⟨p, p', hp, hp', htree⟩ | ⟨es, es', hes, hes', herrors⟩
  · have hunits := (hparse source).1 p hp
    have hunits' := (hparse source').1 p' hp'
    obtain ⟨a, b, ha, hb, hab⟩ := analyze_of_unplaced hp hp' htree hunits hunits'
    have herror : a.diagnostics.any Diagnostic.isError = b.diagnostics.any Diagnostic.isError := by
      rw [← Diagnostic.any_isError_unplaced, hab.diagnostics, Diagnostic.any_isError_unplaced]
    have hlast (p : Program) : (before ++ [p]).getLast?.getD ⟨[]⟩ = p := by simp
    refine ⟨_, _, compile_eq_of_ok hunits ha, compile_eq_of_ok hunits' hb, ?_⟩
    -- Both compilations stop before the listing, or neither does.
    rw [herror, hlast, hlast]
    split
    · exact Compilation.stopped_agrees hab.diagnostics _ _ _
    · exact Compilation.finished_agrees htree hab noPrelude build _ _
  · have hreports : (es.map Diagnostic.syntaxError).map Diagnostic.unplaced =
        (es'.map Diagnostic.syntaxError).map Diagnostic.unplaced := by
      have hwrapped := congrArg (List.map Diagnostic.syntaxError) herrors
      rw [List.map_map, List.map_map] at hwrapped ⊢
      exact hwrapped
    exact ⟨_, _, compile_eq_of_error ((hparse source).2 es hes),
      compile_eq_of_error ((hparse source').2 es' hes'),
      Compilation.stopped_agrees hreports _ _ _⟩

theorem compile_of_same_tokens_commented :
    let source := "abstract trait A // first\nclass B extends A"
    let source' := "  abstract /* the first */ trait   A\n\n\tclass B extends /* it */ A"
    ∃ c c', compile {} source = .ok c ∧ compile {} source' = .ok c' ∧ c.Agrees c' := by
  intro source source'
  exact compile_of_same_tokens false {} (by decide +kernel)

end Mixin
