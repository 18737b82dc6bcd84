import Mixin.Listing.Writer

/-!
# Where a writer indents

Nothing of how a text came to a writer is left in the result. It is as if the text were cut at the
ends of its lines and only the end of what was written before decided whether the first piece is
indented (`write_ofText`). Over a run of calls each line is indented by the level in force when its
first character was written (`splitOn_laid`), and without the indentation the lines are what was
written (`writing_indents_lines`). A run fails exactly if at some point more calls have moved the
lines out than in.
-/

namespace Mixin.Writer

/-! ### Fragments -/

/-- The end of a line is the last that was written. -/
def EndsLine (text : String) : Prop := text.toList.getLast? = some '\n'

instance (text : String) : Decidable (EndsLine text) := inferInstanceAs (Decidable (_ = _))

def ofText (text : String) (level : Nat) : Writer := ⟨text, level, decide (EndsLine text)⟩

/-- A text with a piece of a line behind it. Indentation is written at the start of a line only, and
not for an empty piece. -/
def appendPiece (level : Nat) (text : String) (piece : List Char) : String :=
  if piece = [] then text
  else if EndsLine text then text ++ indentation level ++ String.ofList piece
  else text ++ String.ofList piece

/-- A text with pieces behind it, between which lines end. -/
def appendPieces (level : Nat) (text : String) : List (List Char) → String
  | [] => text
  | piece :: rest =>
    rest.foldl (fun text next => appendPiece level (text.push '\n') next)
      (appendPiece level text piece)

theorem endsLine_push {text : String} {c : Char} : EndsLine (text.push c) ↔ c = '\n' := by
  simp [EndsLine]

theorem appendPiece_nil (level : Nat) (text : String) : appendPiece level text [] = text :=
  if_pos rfl

theorem appendPiece_singleton (level : Nat) (text : String) (c : Char) :
    appendPiece level text [c] =
      (if EndsLine text then text ++ indentation level else text).push c := by
  rw [appendPiece, if_neg (List.cons_ne_nil _ _), ← String.singleton_eq_ofList]
  split <;> rw [String.push_eq_append]

theorem appendPiece_cons (level : Nat) (text : String) {c : Char} (hc : c ≠ '\n')
    (cs : List Char) :
    appendPiece level text (c :: cs) = appendPiece level (appendPiece level text [c]) cs := by
  have hends : ¬ EndsLine (appendPiece level text [c]) := by
    rw [appendPiece_singleton, endsLine_push]
    exact hc
  have hcons : appendPiece level text (c :: cs) =
      appendPiece level text [c] ++ String.ofList cs := by
    rw [appendPiece_singleton, appendPiece, if_neg (List.cons_ne_nil _ _), String.ofList_cons,
      String.push_eq_append]
    split <;> simp only [String.append_assoc]
  rw [hcons]
  cases cs with
  | nil => rw [appendPiece_nil, String.ofList_nil, String.append_empty]
  | cons d ds => rw [appendPiece.eq_def _ _ (d :: ds), if_neg (List.cons_ne_nil _ _), if_neg hends]

theorem put_newline (text : String) (level : Nat) :
    (ofText text level).put '\n' = ofText (text.push '\n') level := by
  rw [put, if_pos rfl, ofText, ofText, decide_eq_true (endsLine_push.mpr rfl)]

theorem put_ofText (text : String) (level : Nat) {c : Char} (hc : c ≠ '\n') :
    (ofText text level).put c = ofText (appendPiece level text [c]) level := by
  have hends : ¬ EndsLine (appendPiece level text [c]) := by
    rw [appendPiece_singleton, endsLine_push]
    exact hc
  rw [put, if_neg hc, ofText, ofText, decide_eq_false hends, appendPiece_singleton]
  by_cases htext : EndsLine text
  · rw [if_pos htext, if_pos (decide_eq_true htext)]
  · rw [if_neg htext, if_neg (by simpa using htext), decide_eq_false htext]

/-- Writing a text is writing the pieces into which it is cut at the ends of its lines. -/
theorem write_ofText (text : String) (level : Nat) (s : String) :
    (ofText text level).write s =
      ofText (appendPieces level text (s.toList.splitOn '\n')) level := by
  rw [write, List.splitOn_eq_splitOnP]
  induction s.toList generalizing text with
  | nil => rw [List.foldl_nil, List.splitOnP_nil, appendPieces, appendPiece_nil, List.foldl_nil]
  | cons c cs ih =>
    obtain ⟨piece, rest, hcs⟩ := List.exists_cons_of_ne_nil (List.splitOnP_ne_nil (· == '\n') cs)
    rw [List.foldl_cons, List.splitOnP_cons_eq_if_modifyHead]
    by_cases hc : c = '\n'
    · rw [hc, put_newline, ih, if_pos (beq_self_eq_true _), hcs]
      simp only [appendPieces, appendPiece_nil, List.foldl_cons]
    · rw [put_ofText text level hc, ih, if_neg (by simpa using hc), hcs, List.modifyHead_cons,
        appendPieces, ← appendPiece_cons level text hc]
      rfl

/-! ### Runs -/

def Call.chars : Call → List Char
  | write s => s.toList
  | _ => []

/-- The characters that calls write until one fails, each with the level in force when it is
written. -/
def stamped (level : Nat) : List Call → List (Char × Nat)
  | [] => []
  | .write s :: calls => s.toList.map (·, level) ++ stamped level calls
  | .indent :: calls => stamped (level + 1) calls
  | .dedent :: calls => if level = 0 then [] else stamped (level - 1) calls

def stampedLines (xs : List (Char × Nat)) : List (List (Char × Nat)) :=
  xs.splitOnP fun x => x.1 == '\n'

/-- The blanks before a line: none before an empty one, else two for each level in force when its
first character was written. -/
def margin : List (Char × Nat) → List Char
  | [] => []
  | x :: _ => List.replicate (2 * x.2) ' '

/-- The margins of lines, of which the first one was started in an empty text and has none. -/
def margins : List (List (Char × Nat)) → List (List Char)
  | [] => []
  | _ :: lines => [] :: lines.map margin

/-- Stamped characters with the margins between them. -/
def laid (start : Bool) : List (Char × Nat) → List Char
  | [] => []
  | x :: xs =>
    if x.1 = '\n' then '\n' :: laid true xs
    else (if start then margin [x] else []) ++ x.1 :: laid false xs

/-- What is still to be written stands behind a character as if it had been laid with it. -/
theorem text_put_append_laid (w : Writer) (c : Char) (xs : List (Char × Nat)) :
    (w.put c).text.toList ++ laid (w.put c).atLineStart xs =
      w.text.toList ++ laid w.atLineStart ((c, w.level) :: xs) := by
  rw [put, laid]
  by_cases hc : c = '\n'
  · simp [hc]
  · cases w.atLineStart <;> simp [hc, margin, indentation]

theorem text_write_append_laid (w : Writer) (s : String) (stamps : List (Char × Nat)) :
    (w.write s).text.toList ++ laid (w.write s).atLineStart stamps =
      w.text.toList ++ laid w.atLineStart (s.toList.map (·, w.level) ++ stamps) := by
  unfold write
  generalize s.toList = cs
  induction cs generalizing w with
  | nil => rfl
  | cons c cs ih =>
    rw [List.foldl_cons, ih, level_put, text_put_append_laid, List.map_cons, List.cons_append]

theorem dedent_eq_some {w w' : Writer} (h : w.dedent = some w') :
    w.level ≠ 0 ∧ w' = { w with level := w.level - 1 } := by
  unfold dedent at h
  split at h
  · cases h
  next hlevel => exact ⟨hlevel, (Option.some.inj h).symm⟩

theorem text_of_foldlM {w last : Writer} {calls : List Call}
    (h : calls.foldlM perform w = some last) :
    last.text.toList = w.text.toList ++ laid w.atLineStart (stamped w.level calls) := by
  induction calls generalizing w with
  | nil =>
    obtain rfl := Option.some.inj h
    exact (List.append_nil _).symm
  | cons call calls ih =>
    obtain ⟨next, hnext, hrest⟩ := Option.bind_eq_some_iff.mp h
    cases call with
    | write s =>
      obtain rfl := Option.some.inj hnext
      rw [ih hrest, level_write, text_write_append_laid, stamped]
    | indent =>
      obtain rfl := Option.some.inj hnext
      exact ih hrest
    | dedent =>
      obtain ⟨hlevel, rfl⟩ := dedent_eq_some hnext
      rw [ih hrest, stamped, if_neg hlevel]

theorem chars_stamped {w last : Writer} {calls : List Call}
    (h : calls.foldlM perform w = some last) :
    (stamped w.level calls).map (·.1) = calls.flatMap Call.chars := by
  induction calls generalizing w with
  | nil => rfl
  | cons call calls ih =>
    obtain ⟨next, hnext, hrest⟩ := Option.bind_eq_some_iff.mp h
    have hchars := ih hrest
    cases call with
    | write s =>
      obtain rfl := Option.some.inj hnext
      rw [level_write] at hchars
      simp [stamped, Call.chars, hchars, Function.comp_def]
    | indent =>
      obtain rfl := Option.some.inj hnext
      exact hchars
    | dedent =>
      obtain ⟨hlevel, rfl⟩ := dedent_eq_some hnext
      rw [stamped, if_neg hlevel]
      exact hchars

/-- A run of calls fails exactly if at some point it has moved lines out of the outermost level. -/
theorem foldlM_eq_none_iff {w : Writer} {calls : List Call} :
    calls.foldlM perform w = none ↔
      ∃ before, before <+: calls ∧ w.level + before.count .indent < before.count .dedent := by
  induction calls generalizing w with
  | nil => simp [List.prefix_nil, pure]
  | cons call calls ih =>
    -- The calls before the failure are not none of them, as the level is not negative.
    have hprefixes : (∃ before, before <+: call :: calls ∧
        w.level + before.count .indent < before.count .dedent) ↔
        ∃ before, before <+: calls ∧
          w.level + (call :: before).count .indent < (call :: before).count .dedent := by
      constructor
      · rintro ⟨before, hbefore, hlt⟩
        rcases List.prefix_cons_iff.mp hbefore with rfl | ⟨rest, rfl, hrest⟩
        · simp at hlt
        · exact ⟨rest, hrest, hlt⟩
      · rintro ⟨before, hbefore, hlt⟩
        exact ⟨call :: before, (List.prefix_cons_inj call).mpr hbefore, hlt⟩
    rw [hprefixes, List.foldlM_cons]
    cases call with
    | write s =>
      refine (ih (w := w.write s)).trans ?_
      simp [level_write]
    | indent =>
      refine (ih (w := w.indent)).trans ?_
      simp [indent, Nat.add_assoc, Nat.add_comm 1]
    | dedent =>
      by_cases hlevel : w.level = 0
      · have hfails : w.perform .dedent = none := if_pos hlevel
        rw [hfails]
        refine iff_of_true rfl ⟨[], List.nil_prefix, ?_⟩
        simp [hlevel]
      · have hmoves : w.perform .dedent = some { w with level := w.level - 1 } := if_neg hlevel
        rw [hmoves]
        refine (ih (w := { w with level := w.level - 1 })).trans ?_
        refine exists_congr fun before => and_congr_right fun _ => ?_
        simp only [List.count_cons, beq_self_eq_true, if_true]
        simp
        omega

theorem splitOn_cons_of_ne {c : Char} (hc : c ≠ '\n') {cs piece : List Char}
    {pieces : List (List Char)} (h : cs.splitOn '\n' = piece :: pieces) :
    (c :: cs).splitOn '\n' = (c :: piece) :: pieces := by
  rw [List.splitOn_eq_splitOnP] at h ⊢
  rw [List.splitOnP_cons_eq_if_modifyHead, if_neg (by simpa using hc), h, List.modifyHead_cons]

theorem splitOn_blanks_append (n : Nat) {cs piece : List Char} {pieces : List (List Char)}
    (h : cs.splitOn '\n' = piece :: pieces) :
    (List.replicate n ' ' ++ cs).splitOn '\n' = (List.replicate n ' ' ++ piece) :: pieces := by
  induction n with
  | zero => exact h
  | succ n ih => exact splitOn_cons_of_ne (by decide) ih

/-- Each line has its own margin before it. -/
theorem splitOn_laid {xs line : List (Char × Nat)} {lines : List (List (Char × Nat))}
    (start : Bool) (h : stampedLines xs = line :: lines) :
    (laid start xs).splitOn '\n' =
      ((if start then margin line else []) ++ line.map (·.1)) ::
        lines.map fun line => margin line ++ line.map (·.1) := by
  induction xs generalizing start line lines with
  | nil =>
    obtain ⟨rfl, rfl⟩ := List.cons.inj h
    cases start <;> rfl
  | cons x xs ih =>
    obtain ⟨next, rest, hxs⟩ :=
      List.exists_cons_of_ne_nil (List.splitOnP_ne_nil (fun x => x.1 == '\n') xs)
    rw [stampedLines, List.splitOnP_cons_eq_if_modifyHead, hxs] at h
    rw [laid]
    by_cases hx : x.1 = '\n'
    · rw [if_pos (by simpa using hx)] at h
      obtain ⟨rfl, rfl⟩ := List.cons.inj h
      rw [if_pos hx, List.splitOn_eq_splitOnP, List.splitOnP_cons_eq_if_modifyHead,
        if_pos (beq_self_eq_true _), ← List.splitOn_eq_splitOnP, ih true hxs]
      cases start <;> rfl
    · rw [if_neg (by simpa using hx), List.modifyHead_cons] at h
      obtain ⟨rfl, rfl⟩ := List.cons.inj h
      have hrest := splitOn_cons_of_ne hx (ih false hxs)
      rw [if_neg hx]
      cases start with
      | false => exact hrest
      | true => exact splitOn_blanks_append _ hrest

theorem map_stampedLines (xs : List (Char × Nat)) :
    (stampedLines xs).map (fun line => line.map (·.1)) = (xs.map (·.1)).splitOn '\n' := by
  rw [List.splitOn_eq_splitOnP]
  induction xs with
  | nil => rfl
  | cons x xs ih =>
    rw [stampedLines] at ih ⊢
    rw [List.map_cons, List.splitOnP_cons_eq_if_modifyHead, List.splitOnP_cons_eq_if_modifyHead,
      ← ih]
    cases List.splitOnP (fun x => x.1 == '\n') xs <;> split <;> rfl

theorem length_margins (lines : List (List (Char × Nat))) :
    (margins lines).length = lines.length := by
  cases lines <;> simp [margins]

theorem zipWith_drop_append {ms ls : List (List Char)} (h : ms.length = ls.length) :
    List.zipWith (fun m line => line.drop m.length) ms (List.zipWith (· ++ ·) ms ls) = ls := by
  induction ms generalizing ls with
  | nil => exact (List.eq_nil_of_length_eq_zero h.symm).symm
  | cons m ms ih =>
    cases ls with
    | nil => cases h
    | cons line ls => simp [ih (Nat.succ.inj h)]

theorem splitOn_of_run {calls : List Call} {last : Writer} (h : run calls = some last) :
    let lines := stampedLines (stamped 0 calls)
    last.text.toList.splitOn '\n' =
      List.zipWith (· ++ ·) (margins lines) (lines.map fun line => line.map (·.1)) := by
  intro lines
  obtain ⟨line, rest, hlines⟩ : ∃ line rest, lines = line :: rest :=
    List.exists_cons_of_ne_nil (List.splitOnP_ne_nil _ _)
  have htext : last.text.toList = laid false (stamped 0 calls) := text_of_foldlM h
  rw [htext, splitOn_laid false hlines, hlines, margins, List.map_cons, List.zipWith_cons_cons,
    List.zipWith_map, List.zipWith_self]
  rfl

theorem exists_ofText {calls : List Call} {w last : Writer}
    (hw : ∃ text level, w = ofText text level) (h : calls.foldlM perform w = some last) :
    ∃ text level, last = ofText text level := by
  induction calls generalizing w with
  | nil => exact Option.some.inj h ▸ hw
  | cons call calls ih =>
    obtain ⟨next, hnext, hrest⟩ := Option.bind_eq_some_iff.mp h
    obtain ⟨text, level, rfl⟩ := hw
    refine ih ?_ hrest
    cases call with
    | write s => exact ⟨_, level, (Option.some.inj hnext).symm.trans (write_ofText text level s)⟩
    | indent => exact ⟨text, level + 1, (Option.some.inj hnext).symm⟩
    | dedent => exact ⟨text, level - 1, (dedent_eq_some hnext).2⟩

/-- Writing does not depend on the fragments in which a text arrives: a text is written as the
pieces between the ends of its lines, and a second text behind a first one as if they were one text.
After any calls that succeed, the lines are those that were written, each behind its margin; without
the margins they are what was written. -/
theorem writing_indents_lines :
    (∀ text level s, (ofText text level).write s =
      ofText (appendPieces level text (s.toList.splitOn '\n')) level) ∧
    (∀ text level a b, (((ofText text level).write a).write b).text =
      ((ofText text level).write (a ++ b)).text) ∧
    (∀ calls, run calls = none ↔
      ∃ before, before <+: calls ∧ before.count .indent < before.count .dedent) ∧
    ∀ calls last, run calls = some last →
      let lines := stampedLines (stamped 0 calls)
      let indented := last.text.toList.splitOn '\n'
      (∃ text level, last = ofText text level) ∧
      indented = List.zipWith (· ++ ·) (margins lines) (lines.map fun line => line.map (·.1)) ∧
      ['\n'].intercalate
          (List.zipWith (fun m line => line.drop m.length) (margins lines) indented) =
        calls.flatMap Call.chars := by
  refine ⟨write_ofText, fun text level a b => by rw [write_append], fun calls => ?_,
    fun calls last h => ?_⟩
  · refine foldlM_eq_none_iff.trans ?_
    simp only [empty, Nat.zero_add]
  · intro lines indented
    have hindented : indented = _ := splitOn_of_run h
    refine ⟨exists_ofText ⟨"", 0, rfl⟩ h, hindented, ?_⟩
    rw [hindented, zipWith_drop_append (by rw [length_margins, List.length_map]), map_stampedLines,
      List.intercalate_splitOn]
    exact chars_stamped h

/-- Lines in fragments, at levels that change within them, and a move too far out. -/
theorem writing_indents_lines_fragments :
    let calls := [Call.write "a \x7b\nb", .indent, .write "c\n\n", .write "", .write "d",
      .dedent, .write "\n\x7d"]
    (∃ last, run calls = some last ∧ last.text = "a \x7b\nbc\n\n  d\n\x7d" ∧
      ['\n'].intercalate (List.zipWith (fun m line => line.drop m.length)
          (margins (stampedLines (stamped 0 calls))) (last.text.toList.splitOn '\n')) =
        calls.flatMap Call.chars) ∧
    run (calls ++ [.dedent]) = none := by
  intro calls
  obtain ⟨-, -, hfails, hruns⟩ := writing_indents_lines
  have hrun : (run calls).map (·.text) = some "a \x7b\nbc\n\n  d\n\x7d" := by decide +kernel
  obtain ⟨last, hlast, htext⟩ := Option.map_eq_some_iff.mp hrun
  refine ⟨⟨last, hlast, htext, (hruns calls last hlast).2.2⟩, ?_⟩
  exact (hfails _).mpr ⟨_, List.prefix_refl _, by decide⟩

end Mixin.Writer
