import Mixin.Proofs.Analysis.Reports
import Mixin.Proofs.Grammar.Positions
import Mixin.Proofs.Token.Pieces

/-!
# Every text can be compiled

Whatever the text, compiling it comes to an end, with an artifact or with errors, and on the way
nothing is missing that a stage takes for granted: texts are cut between characters
(`ReadsSafely`), the numbers of tokens stay in range, definitions are found where they were entered,
circles have edges, and the names that a listing refers to are known (`AnalyzesSafely`).
-/

namespace Mixin

/-! ### Texts -/

/-- What is taken for granted while a text is read. -/
structure ReadsSafely (file : SourceFile) (text : String) : Prop where
  pieces : ∀ t ∈ (TokenStream.ofText file text).toList, t.IsPiece file text
  quotes : ∀ t ∈ (TokenStream.ofText file text).tokens, t.kind.isQuoted = true →
    IsQuoted t.lexeme.toList
  /-- The last token stands for the end of the text, and no other does. -/
  ends : (TokenStream.ofText file text).final.kind = .eof ∧
    ∀ t ∈ (TokenStream.ofText file text).tokens, t.kind ≠ .eof
  /-- Wherever reading comes, tokens are looked at by numbers in range; the end is never passed. -/
  places : ∀ c, Cursor.Reached (TokenStream.ofText file text) c →
    ∃ i, c.StandsAt (TokenStream.ofText file text) i ∧
      c.advance.StandsAt (TokenStream.ofText file text) (if c.peek.kind = .eof then i else i + 1)
  /-- Definitions are read until the end of the text is reached, whatever errors there are. -/
  reads : Program.ReadsTo (.ofStream (TokenStream.ofText file text))
    (Program.readFrom (.ofStream (TokenStream.ofText file text)))

theorem readsSafely (file : SourceFile) (text : String) : ReadsSafely file text := by
  have hend : (TokenStream.ofText file text).final.kind = .eof :=
    (TokenStream.scannedFrom file Location.start text.toList).final
  have hinner : ∀ t ∈ (TokenStream.ofText file text).tokens, t.kind ≠ .eof :=
    fun t ht => TokenStream.kind_ne_eof ht
  refine ⟨fun t ht => TokenStream.isPiece_of_mem ht, fun t ht => TokenStream.isQuoted_of_mem ht,
    ⟨hend, hinner⟩, fun c hc => ?_, Program.readsTo_readFrom hend⟩
  obtain ⟨ts, hts⟩ := hc.precedes
  exact ⟨ts.length, hts.standsAt, hts.standsAt_advance hinner hend⟩

/-! ### Units -/

/-- What is taken for granted while units are analysed, with the result `a`, and listed. -/
structure AnalyzesSafely (units : List Program) (a : Analysis) : Prop where
  /-- Every definition is found in the registry, whichever analysis asks for it. -/
  analyzed : analyze units = .ok a
  /-- The circles that are broken are not empty, and each of their links has an edge. -/
  circles : ∃ resolved edges,
    (units.flatMap (·.definitions)).foldlM Analysis.resolveType
      (Analysis.initial.collectDeclarations units, []) = .ok (resolved, edges) ∧
    Untangling.LoopsTo ⟨resolved.symbols, edges, [], []⟩
      (Untangling.breakCycles ⟨resolved.symbols, edges, [], []⟩)
  /-- There is a program to be listed. -/
  listed : ∃ p, units.getLast? = some p
  types : ∀ d ∈ units.flatMap (·.definitions), ∃ id, a.symbols.lookup? d.name.text = some id
  parameters : ∀ d ∈ units.flatMap (·.definitions), ∀ p ∈ d.parameters, ∀ s : Surroundings,
    ∃ i, (⟨s, d.parameters.map fun p => p.name.text⟩ : Frame).argument? p.name.text = some i

theorem Frame.exists_argument? (s : Surroundings) {ps : List Parameter} {p : Parameter}
    (hp : p ∈ ps) :
    ∃ i, (⟨s, ps.map fun p => p.name.text⟩ : Frame).argument? p.name.text = some i := by
  have hmem : p.name.text ∈ ps.map fun p => p.name.text := List.mem_map_of_mem hp
  cases hfound : (ps.map fun p => p.name.text).idxOf? p.name.text with
  | none => exact absurd hmem (List.idxOf?_eq_none_iff.mp hfound)
  | some i => exact ⟨i + 1, by rw [argument?, hfound]; rfl⟩

theorem Analysis.Collected.exists_lookup? {units : List Program} {a final : Analysis}
    {cycles : List (List ClassId)} {reports : List Diagnostic} {ps : List (TypeDef × ClassId)}
    (h : Collected (units.flatMap (·.definitions)) a)
    (hu : a.Untangles ps units final cycles reports) {d : TypeDef}
    (hd : d ∈ units.flatMap (·.definitions)) :
    ∃ id, final.symbols.lookup? d.name.text = some id := by
  cases hfound : final.symbols.lookup? d.name.text with
  | some id => exact ⟨id, rfl⟩
  | none =>
    rw [SymbolTable.lookup?_eq_none_iff, Analysis.names_final hu, h.names] at hfound
    exact absurd (List.mem_cons_of_mem _ (List.mem_map_of_mem hd)) hfound

theorem exists_analyzesSafely {texts : List (SourceFile × String)} {units : List Program}
    (htexts : texts ≠ []) (hparsed : parseAll texts = .ok units) : ∃ a, AnalyzesSafely units a := by
  have h := Analysis.collected units
  obtain ⟨cycles, reports, hu⟩ := untangled_located units
  obtain ⟨a, ha, hsymbols, -⟩ := analyze_known_reports units
  have hlast : units.getLast? ≠ none := by
    have hlength := (forall₂_of_parseAll hparsed).length_eq
    have hpos := List.length_pos_iff.mpr htexts
    rw [Ne, List.getLast?_eq_none_iff, ← List.length_eq_zero_iff]
    omega
  refine ⟨a, ha, ⟨_, _, hu.parents, (h.sound h.index_lt_located).loopsTo⟩,
    Option.ne_none_iff_exists'.mp hlast, fun d hd => ?_,
    fun d _ p hp s => Frame.exists_argument? s hp⟩
  rw [hsymbols]
  exact h.exists_lookup? hu hd

/-- Every text is compiled or refused, and nothing that the stages take for granted is missing. -/
theorem compile_total (noPrelude : Bool) (build : BuildOptions) (source : String) :
    (∀ t ∈ sourceTexts noPrelude source, ReadsSafely t.1 t.2) ∧
    ∃ c, compile { noPrelude := noPrelude, build := build } source = .ok c ∧
      (c.stage = .generated ∨ c.stage = .aborted) ∧
      ((∃ errors, parseAll (sourceTexts noPrelude source) = .error errors) ∨
        ∃ units a, parseAll (sourceTexts noPrelude source) = .ok units ∧
          AnalyzesSafely units a) := by
  have hfiles := nodup_files_sourceTexts noPrelude source
  have htexts : sourceTexts noPrelude source ≠ [] := by
    cases noPrelude <;> simp [sourceTexts]
  refine ⟨fun t _ => readsSafely t.1 t.2, ?_⟩
  cases hparsed : parseAll (sourceTexts noPrelude source) with
  | error errors =>
    exact ⟨_, compile_eq_of_error hparsed, Or.inr rfl, Or.inl ⟨errors, rfl⟩⟩
  | ok units =>
    obtain ⟨a, ha⟩ := exists_analyzesSafely htexts hparsed
    refine ⟨_, compile_eq_of_ok hparsed ha.analyzed, ?_, Or.inr ⟨units, a, rfl, ha⟩⟩
    split
    · exact Or.inr rfl
    · exact Or.inl rfl

end Mixin
