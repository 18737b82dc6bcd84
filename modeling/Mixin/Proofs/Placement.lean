import Mixin.Proofs.Analysis.Locations
import Mixin.Proofs.Grammar.Errors
import Mixin.Proofs.Grammar.Nesting
import Mixin.Proofs.Layout
import Mixin.Proofs.Token.Placement

/-!
# Positions

All positions that are reported are right (`compile_positions`): those of tokens, because of how a
text is divided into them; those in a syntax tree, because they are joined from those of tokens;
those of syntax errors, because each stands at a token; those of the analyses, because they are
taken from syntax trees.
-/

namespace Mixin

def SourceFile.text (source : String) : SourceFile → String
  | user => source
  | prelude => preludeText

/-- The span stands in the file, and its numbers are right for the text of the file. -/
def Span.RightIn (source : String) (file : SourceFile) (s : Span) : Prop :=
  s.file = file ∧ s.Right (file.text source)

variable {file : SourceFile} {source : String}

theorem Program.right_of_mem_spans {text : String} {p : Program} (h : ofText file text = .ok p)
    {s : Span} (hs : s ∈ p.spans) : s.file = file ∧ s.Right text := by
  have htokens : ∀ t ∈ (TokenStream.ofText file text).tokens,
      (t.span.file = file ∧ t.span.Right text) ∧
        (t.span.after t.lexeme).file = file ∧ (t.span.after t.lexeme).Right text := by
    intro t ht
    obtain ⟨hfile, hright, hafter⟩ := TokenStream.right_of_mem (List.mem_append_left _ ht)
    exact ⟨⟨hfile, hright⟩, hfile, hafter⟩
  obtain ⟨hi, hlaid⟩ := laid_ofText (V := fun s => s.file = file ∧ s.Right text)
    (fun s t hs ht => ⟨Span.file_through hs.1 ht.1, hs.2.through ht.2⟩) htokens h
  exact hlaid.valid s hs

theorem Program.right_of_mem_errors {text : String} {es : List SyntaxError}
    (h : ofText file text = .error es) {e : SyntaxError} (he : e ∈ es) :
    e.span.file = file ∧ e.span.Right text := by
  obtain ⟨t, ht, hspan⟩ := exists_token_of_error h he
  obtain ⟨hfile, hright, -⟩ := TokenStream.right_of_mem ht
  rw [hspan]
  exact ⟨hfile, hright⟩

theorem right_of_mem_definitions {noPrelude : Bool} {program : Program}
    (hprogram : Program.ofText .user source = .ok program) {d : TypeDef}
    (hd : d ∈ (preludeUnits noPrelude).flatMap (·.definitions) ++ program.definitions) {s : Span}
    (hs : s ∈ d.spans) : s.Right (s.file.text source) := by
  rcases List.mem_append.mp hd with hd | hd
  · obtain ⟨p, hp, hd⟩ := exists_of_mem_preludeUnits hd
    obtain ⟨hfile, hright⟩ := Program.right_of_mem_spans hp (TypeDef.mem_spans_of_program hd hs)
    rw [hfile]
    exact hright
  · obtain ⟨hfile, hright⟩ :=
      Program.right_of_mem_spans hprogram (TypeDef.mem_spans_of_program hd hs)
    rw [hfile]
    exact hright

/-- All that is known of a source text stands at right positions: its tokens, the parts of its
syntax tree, its syntax errors, and what compiling it reports. No problem is shown in the prelude,
but a note may be. -/
theorem compile_positions (options : CompilerOptions) (source : String) :
    (∀ t ∈ (TokenStream.ofText .user source).toList, t.span.RightIn source .user) ∧
    (∀ p, Program.ofText .user source = .ok p → ∀ s ∈ p.spans, s.RightIn source .user) ∧
    (∀ es, Program.ofText .user source = .error es → ∀ e ∈ es, e.span.RightIn source .user) ∧
    ∃ c, compile options source = .ok c ∧ ∀ d ∈ c.diagnostics,
      d.location.RightIn source .user ∧ ∀ n ∈ d.boundNotes, n.1.RightIn source n.1.file := by
  refine ⟨fun t ht => ?_, fun p hp s hs => Program.right_of_mem_spans hp hs,
    fun es hes e he => Program.right_of_mem_errors hes he, ?_⟩
  · obtain ⟨hfile, hright, -⟩ := TokenStream.right_of_mem ht
    exact ⟨hfile, hright⟩
  cases hparsed : Program.ofText .user source with
  | error es =>
    obtain ⟨before, hbefore⟩ := exists_parseAll_sourceTexts options.noPrelude
    refine ⟨_, compile_eq_of_error ((hbefore source).2 es hparsed), fun d hd => ?_⟩
    obtain ⟨e, he, rfl⟩ := List.mem_map.mp hd
    exact ⟨Program.right_of_mem_errors hparsed he, by simp [Diagnostic.boundNotes]⟩
  | ok program =>
    have hunits := parseAll_sourceTexts options.noPrelude hparsed
    have hfiles := nodup_files_sourceTexts options.noPrelude source
    obtain ⟨a, ha, -⟩ := analyze_reports (nodup_signatures hfiles hunits)
      (nodup_methodSignatures hfiles hunits)
    refine ⟨_, compile_eq_of_ok hunits ha, fun d hd => ?_⟩
    have hreported : d ∈ a.diagnostics := by
      split at hd <;> exact hd
    obtain ⟨user, huser, hconcerns⟩ := concerns_user hparsed ha hreported
    refine ⟨Program.right_of_mem_spans hparsed
      (TypeDef.mem_spans_of_program huser hconcerns.location), fun n hn => ⟨rfl, ?_⟩⟩
    obtain ⟨d', hd', hspan⟩ := hconcerns.notes n hn
    exact right_of_mem_definitions hparsed hd' hspan

/-- A syntax error behind a character of two bytes on the second line. -/
theorem compile_positions_misplaced :
    let source := "class A\n/* \u00e9 */ trait ="
    ∃ c d, compile { noPrelude := true } source = .ok c ∧ d ∈ c.diagnostics ∧
      d.location = ⟨.user, 23, 24, 2, 15⟩ ∧ d.location.RightIn source .user := by
  intro source
  obtain ⟨-, -, -, c, hc, hpositions⟩ := compile_positions { noPrelude := true } source
  have hshown : (compile { noPrelude := true } source).toOption.map (fun c =>
      c.diagnostics.map (·.location)) = some [⟨.user, 23, 24, 2, 15⟩] := by
    decide +kernel
  rw [hc] at hshown
  have hlocations : c.diagnostics.map (·.location) = [⟨.user, 23, 24, 2, 15⟩] :=
    Option.some.inj hshown
  obtain ⟨d, hd, hlocation⟩ := List.mem_map.mp (hlocations ▸ List.mem_singleton_self _)
  exact ⟨c, d, hc, hd, hlocation, (hpositions d hd).1⟩

end Mixin
