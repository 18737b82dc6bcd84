import Mixin.Proofs.Grammar.Reading

/-!
# Where syntax errors stand

A definition that is refused is reported at a token that was passed or at the one at which reading
gave up. So the errors of a text stand at tokens of it, each behind those before it
(`Program.sublist_errors_ofTokens`).
-/

namespace Mixin

namespace Cursor

variable {c d : Cursor} {ts us : List Token}

theorem Passes.unique (h : c.Passes ts d) (h' : c.Passes us d) : ts = us :=
  List.append_cancel_right (h.ahead.symm.trans h'.ahead)

end Cursor

namespace Program

theorem isAt_eof_startFrom {c : Cursor} (hc : c.final.kind = .eof) (hend : c.ahead = []) :
    (startFrom c).isAt .eof = true := by
  have hpeek : c.peek.kind = .eof := by simpa [Cursor.peek, hend] using hc
  have hstart : startFrom c = c := Cursor.skipWhile_eq_self (by rw [hpeek]; rfl)
  simp [hstart, Cursor.isAt, hpeek]

theorem ReadsTo.errors_eq_nil {c : Cursor} {r : Reading} (h : ReadsTo c r)
    (hc : c.final.kind = .eof) (hend : c.ahead = []) : r.errors = [] := by
  have hstart := isAt_eof_startFrom hc hend
  cases h with
  | finish => rfl
  | definition hmore => cases hstart.symm.trans hmore
  | error hmore => cases hstart.symm.trans hmore

theorem sublist_spans {c d : Cursor} (h : c.Precedes d) :
    ((d.ahead ++ [d.final]).map (·.span)).Sublist ((c.ahead ++ [c.final]).map (·.span)) := by
  obtain ⟨ts, hts⟩ := h
  rw [hts.ahead, hts.final, List.append_assoc]
  exact (List.sublist_append_right ..).map _

theorem ReadsTo.sublist_errors {c : Cursor} {r : Reading} (h : ReadsTo c r)
    (hc : c.final.kind = .eof) :
    (r.errors.map (·.span)).Sublist ((c.ahead ++ [c.final]).map (·.span)) := by
  induction h with
  | finish => exact List.nil_sublist _
  | @definition c d rest r hmore hrun hrest ih =>
    have hprecedes : c.Precedes rest :=
      (c.precedes_skipWhile _).trans (Parser.precedes_of_run hrun)
    obtain ⟨ts, hts⟩ := hprecedes
    exact (ih (hts.final ▸ hc)).trans (sublist_spans ⟨ts, hts⟩)
  | @error c e rest r hmore hrun hrest ih =>
    have hstart : c.Precedes (startFrom c) := c.precedes_skipWhile _
    have hfinal : (startFrom c).final.kind = .eof := by
      obtain ⟨ss, hss⟩ := hstart
      exact hss.final ▸ hc
    have hspells := Parser.spells_typeDef ⟨hfinal, Nat.lt_succ_self _⟩
    rw [hrun] at hspells
    obtain ⟨ts, hts, t, ht, hspan⟩ := hspells
    have hrecover : rest.recover.final.kind = .eof := by
      obtain ⟨us, hus⟩ := rest.precedes_advance.trans rest.precedes_recover
      rw [hus.final, hts.final]
      exact hfinal
    refine List.Sublist.trans ?_ (sublist_spans hstart)
    rw [hts.ahead, ← hts.final]
    have hat : [e.span].Sublist ((ts ++ [rest.peek]).map (·.span)) :=
      List.singleton_sublist.mpr (List.mem_map.mpr ⟨t, ht, hspan.symm⟩)
    cases hahead : rest.ahead with
    | nil =>
      -- Behind an error at the end of the text nothing is left to be read.
      have hlength := rest.length_recover
      rw [hahead] at hlength
      have hempty : rest.recover.ahead = [] :=
        List.eq_nil_of_length_eq_zero (by simpa using hlength)
      have hnone := hrest.errors_eq_nil hrecover hempty
      simpa [hnone, Cursor.peek, hahead] using hat
    | cons t more =>
      have hpass := Cursor.passes_advance hahead
      have hmore : rest.advance.ahead = more := by simpa [hahead] using hpass.ahead.symm
      have hothers := (ih hrecover).trans (sublist_spans rest.precedes_recover)
      rw [hmore, hpass.final] at hothers
      have hpeek : rest.peek = t := by simp [Cursor.peek, hahead]
      simpa [hpeek] using hat.append hothers

theorem sublist_errors_ofTokens {stream : TokenStream} {es : List SyntaxError}
    (hfinal : stream.final.kind = .eof) (h : ofTokens stream = .error es) :
    (es.map (·.span)).Sublist (stream.toList.map (·.span)) := by
  rw [ofTokens] at h
  split at h
  next => cases h
  next =>
    obtain rfl := Except.error.inj h
    exact (readsTo_readFrom hfinal).sublist_errors hfinal

theorem exists_token_of_error {file : SourceFile} {text : String} {es : List SyntaxError}
    (h : ofText file text = .error es) {e : SyntaxError} (he : e ∈ es) :
    ∃ t ∈ (TokenStream.ofText file text).toList, e.span = t.span := by
  have hfinal := (TokenStream.scannedFrom file Location.start text.toList).final
  have hmem := (sublist_errors_ofTokens hfinal h).subset (List.mem_map_of_mem he)
  obtain ⟨t, ht, hspan⟩ := List.mem_map.mp hmem
  exact ⟨t, ht, hspan.symm⟩

end Program

end Mixin
