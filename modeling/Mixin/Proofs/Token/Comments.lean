import Mixin.Proofs.Token.Respacing

/-!
# Comments stand for blanks

A comment between marks is skipped as a blank is, wherever a token could begin: behind a token that
does not run on into it, and not behind the mark of a comment that is never closed, which the new
one would close. There it can be put in without any effect on the tokens (`ofText_comment`).
-/

namespace Mixin

open Lexicon Text

namespace Lexicon

/-! ### Gaps within gaps -/

theorem gapLength_of_mem_finalGaps {gap : List Char} (h : gap ∈ finalGaps) :
    gapLength gap = gap.length := by
  obtain ⟨closed, hclosed, last, hlast, rfl⟩ := h
  rw [gapLength_append hclosed, List.length_append]
  rcases hlast with rfl | hlast
  · rw [gapLength_of_isBare isBare_nil]
    rfl
  · rw [gapLength_lineComment hlast]

theorem gapLength_insert {gap filler : List Char} (h : gap ∈ finalGaps) (hfiller : filler ∈ gaps)
    (hfeed : '\n' ∉ filler) (rest : List Char) :
    gap.length ≤ gapLength (gap ++ rest) ∧
      gapLength (gap ++ (filler ++ rest)) = filler.length + gapLength (gap ++ rest) := by
  obtain ⟨closed, hclosed, last, hlast, rfl⟩ := h
  rw [List.append_assoc, List.append_assoc, gapLength_append hclosed, gapLength_append hclosed,
    List.length_append]
  rcases hlast with rfl | hlast
  · rw [List.nil_append, List.nil_append, gapLength_append hfiller]
    simp only [List.length_nil]
    omega
  -- A comment at the end of the gap takes in the filler, and ends where its line did before.
  · obtain ⟨body, rfl, hbody⟩ := mem_lineComments.mp hlast
    have hline : '\n' ∉ body ++ filler := by simp [hbody, hfeed]
    have hwith := gapLength_line hline rest
    have hwithout := gapLength_line hbody rest
    rw [List.length_append] at hwith
    rw [List.append_assoc] at hwith
    simp only [List.cons_append, hwith, hwithout, List.length_cons]
    omega

end Lexicon

theorem Location.eq_of_append_eq_append {loc : Location} {cs ds xs ys : List Char}
    (h : cs ++ xs = ds ++ ys) (hoffset : (loc.advanceAll cs).offset = (loc.advanceAll ds).offset) :
    cs = ds ∧ xs = ys := by
  have hnil (l : Location) {more : List Char} (hmore : (l.advanceAll more).offset = l.offset) :
      more = [] := by
    by_contra hne
    have hlt := l.offset_lt_advanceAll hne
    omega
  rcases List.append_eq_append_iff.mp h with ⟨more, rfl, rfl⟩ | ⟨more, rfl, rfl⟩
  · rw [advanceAll_append] at hoffset
    obtain rfl := hnil _ hoffset.symm
    simp
  · rw [advanceAll_append] at hoffset
    obtain rfl := hnil _ hoffset
    simp

namespace TokenStream

variable {file : SourceFile} {loc : Location}

theorem Splits.unplaced_scanFrom {input : List Char} {stream : TokenStream}
    (h : Splits file loc input stream) (loc' : Location)
    (hloc : (loc'.offset == 0) = (loc.offset == 0)) :
    (scanFrom file loc' input).unplaced = stream.unplaced := by
  have hflag (gap : List Char) : (loc'.offset == 0 || gap.contains '\n') =
      (loc.offset == 0 || gap.contains '\n') := by rw [hloc]
  induction h generalizing loc' with
  | @last loc gap hgap =>
    rw [scanFrom_last file loc' (gapLength_of_mem_finalGaps hgap), unplaced, unplaced,
      Token.unplaced_behind (hflag gap)]
  | @next loc gap lexeme rest kind others hgap hbare htoken _ ih =>
    have hne : gap ++ lexeme ≠ [] := List.append_ne_nil_of_right_ne_nil gap htoken.ne_nil
    have hloc := (loc'.offset_advanceAll_beq hne).trans (loc.offset_advanceAll_beq hne).symm
    rw [scanFrom_token file loc' hgap hbare htoken, unplaced_next, unplaced_next,
      ih (loc'.advanceAll (gap ++ lexeme)) hloc fun gap => by rw [hloc],
      Token.unplaced_behind (hflag gap)]

/-- Tokens do not change if something is put into the gap before them. -/
theorem unplaced_scanFrom_insert {gap filler : List Char} (hgap : gap ∈ finalGaps)
    (hfiller : filler ∈ gaps) (hfeed : '\n' ∉ filler) (rest : List Char)
    {loc' : Location} (hloc : (loc'.offset == 0) = (loc.offset == 0)) :
    (scanFrom file loc' (gap ++ (filler ++ rest))).unplaced =
      (scanFrom file loc (gap ++ rest)).unplaced := by
  obtain ⟨hle, hlength⟩ := gapLength_insert hgap hfiller hfeed rest
  obtain ⟨whole, others, heq, hwhole, hbare, hfinal, hgaps⟩ := exists_gap (gap ++ rest)
  -- The gap goes on behind what is put in, as it did before.
  obtain ⟨more, rfl⟩ : gap <+: whole :=
    List.prefix_of_prefix_length_le (List.prefix_append ..) ⟨others, heq.symm⟩ (by omega)
  rw [List.append_assoc, List.append_cancel_left_eq] at heq
  subst heq
  have hnew : gapLength (gap ++ (filler ++ more) ++ others) = (gap ++ (filler ++ more)).length := by
    simp only [List.append_assoc, List.length_append] at hwhole hlength ⊢
    omega
  have hold : gapLength ((gap ++ more) ++ others) = (gap ++ more).length := by
    rw [hwhole, List.append_assoc]
  have hflag : (loc'.offset == 0 || (gap ++ (filler ++ more)).contains '\n') =
      (loc.offset == 0 || (gap ++ more).contains '\n') := by
    simp [hloc, hfeed]
  have hsplit : gap ++ (filler ++ (more ++ others)) = (gap ++ (filler ++ more)) ++ others := by simp
  rw [hsplit, ← List.append_assoc gap more]
  cases others with
  | nil =>
    rw [List.append_nil] at hnew hold ⊢
    rw [List.append_nil, scanFrom_last file loc' hnew, scanFrom_last file loc hold, unplaced,
      unplaced, Token.unplaced_behind hflag]
  | cons c cs =>
    obtain ⟨lexeme, rest, hrest, -, htoken⟩ := exists_of_tokenAt c cs
    rw [hrest] at hnew hold ⊢
    have hne (g : List Char) : g ++ lexeme ≠ [] :=
      List.append_ne_nil_of_right_ne_nil g htoken.ne_nil
    have hsplits := splits_scanFrom file (loc.advanceAll (gap ++ more ++ lexeme)) rest
    have htail := hsplits.unplaced_scanFrom (loc'.advanceAll (gap ++ (filler ++ more) ++ lexeme))
      ((loc'.offset_advanceAll_beq (hne _)).trans (loc.offset_advanceAll_beq (hne _)).symm)
    rw [scanFrom_next file loc' hnew htoken.ne_nil htoken.tokenAt,
      scanFrom_next file loc hold htoken.ne_nil htoken.tokenAt, unplaced_next, unplaced_next, htail,
      Token.unplaced_behind hflag]

theorem unplaced_append (ts : List Token) (stream : TokenStream) :
    unplaced ⟨ts ++ stream.tokens, stream.final⟩ =
      ⟨ts.map Token.unplaced ++ stream.unplaced.tokens, stream.unplaced.final⟩ := by
  simp [unplaced]

/-! ### The tokens up to some point -/

/-- `front` is made of gaps and of the tokens `ts`, and `rest` follows it. -/
inductive Begins (file : SourceFile) (rest : List Char) :
    Location → List Char → List Token → Prop where
  | nil (loc : Location) : Begins file rest loc [] []
  | next (loc : Location) {gap lexeme front : List Char} {kind : TokenKind} {ts : List Token}
    (hgap : gap ∈ gaps) (hbare : IsBare (lexeme ++ (front ++ rest)))
    (htoken : IsToken kind lexeme (front ++ rest))
    (hrest : Begins file rest (loc.advanceAll (gap ++ lexeme)) front ts) :
    Begins file rest loc (gap ++ (lexeme ++ front)) (Token.behind file loc gap kind lexeme :: ts)

theorem Splits.exists_begins {input : List Char} {stream : TokenStream}
    (h : Splits file loc input stream) {ts us : List Token} (htokens : stream.tokens = ts ++ us) :
    ∃ front rest, input = front ++ rest ∧ Begins file rest loc front ts := by
  induction h generalizing ts with
  | @last loc gap _ =>
    obtain ⟨rfl, -⟩ := List.append_eq_nil_iff.mp htokens.symm
    exact ⟨[], gap, rfl, .nil loc⟩
  | @next loc gap lexeme rest kind others hgap hbare htoken _ ih =>
    cases ts with
    | nil => exact ⟨[], _, rfl, .nil loc⟩
    | cons t ts =>
      obtain ⟨rfl, hts⟩ := List.cons.inj htokens
      obtain ⟨front, rest, rfl, hfront⟩ := ih hts
      exact ⟨gap ++ (lexeme ++ front), rest, by simp, .next loc hgap hbare htoken hfront⟩

section

variable {front rest : List Char} {ts : List Token}

theorem Begins.scanFrom (h : Begins file rest loc front ts) :
    TokenStream.scanFrom file loc (front ++ rest) =
      ⟨ts ++ (TokenStream.scanFrom file (loc.advanceAll front) rest).tokens,
        (TokenStream.scanFrom file (loc.advanceAll front) rest).final⟩ := by
  induction h with
  | nil => rfl
  | @next loc gap lexeme front kind ts hgap hbare htoken _ ih =>
    have hsplit : gap ++ (lexeme ++ front) ++ rest = gap ++ (lexeme ++ (front ++ rest)) := by simp
    rw [hsplit, scanFrom_token file loc hgap hbare htoken, ih]
    simp

theorem Begins.eq_nil (h : Begins file rest loc [] ts) : ts = [] := by
  generalize hfront : [] = front at h
  cases h with
  | nil => rfl
  | next _ _ _ htoken _ => simp [htoken.ne_nil] at hfront

theorem Begins.stop_getLast (h : Begins file rest loc front ts) {t : Token}
    (ht : ts.getLast? = some t) : t.span.stop = (loc.advanceAll front).offset := by
  induction h with
  | nil => cases ht
  | @next loc gap lexeme front kind ts _ _ _ hrest ih =>
    cases hrest with
    | nil =>
      obtain rfl := Option.some.inj ht
      simp [Token.behind, Span.ofLocation]
    | next =>
      rw [List.getLast?_cons_cons] at ht
      rw [ih ht]
      simp

/-- Tokens are the same before another text, if they end before it and begin no comment there. -/
theorem Begins.moved {rest' : List Char} (h : Begins file rest loc front ts)
    (herror : ∀ t ∈ ts, t.kind ≠ .error)
    (hends : ∀ t ∈ ts, ∀ kept, IsKindOf t.lexeme.toList classes t.kind →
      (kept = [] → ts.getLast? = some t) → EndsBefore t.lexeme.toList (kept ++ rest) →
        EndsBefore t.lexeme.toList (kept ++ rest'))
    (hopen : ∀ t ∈ ts, ∀ body kept, t.lexeme.toList = '/' :: '*' :: body →
      ¬ ['*', '/'] <:+: body ++ (kept ++ rest) → ¬ ['*', '/'] <:+: body ++ (kept ++ rest')) :
    Begins file rest' loc front ts := by
  induction h with
  | nil loc => exact .nil loc
  | @next loc gap lexeme front kind ts hgap hbare htoken hrest ih =>
    rw [List.forall_mem_cons] at herror hends hopen
    simp only [Token.lexeme_behind] at hends hopen
    have hlongest := htoken.longest herror.1
    -- Only the last token can stand right before what is changed.
    have hends' : EndsBefore lexeme (front ++ rest') := by
      refine hends.1 front hlongest.kind (fun hfront => ?_) hlongest.ends
      subst hfront
      rw [hrest.eq_nil]
      rfl
    have hbare' := hbare.moved htoken.ne_nil hends' fun body hbody =>
      hopen.1 body front hbody (hbare.block _ (by simp [hbody]))
    refine .next loc hgap hbare' (.inl ⟨hlongest.kind, hends'⟩) (ih herror.2 ?_ hopen.2)
    intro t ht kept hkind hlast
    refine hends.2 t ht kept hkind fun hkept => ?_
    rw [List.getLast?_cons, hlast hkept]
    rfl

variable {gap : List Char}

theorem Begins.insert_blank (h : Begins file (gap ++ rest) loc front ts)
    (herror : ∀ t ∈ ts, t.kind ≠ .error) {b : Char} (hb : isBlank b = true) :
    Begins file (gap ++ b :: rest) loc front ts := by
  refine h.moved herror (fun t _ kept hkind _ hends => ?_)
    fun t _ body kept _ hnot hclose => hnot ?_
  · rw [← List.append_assoc] at hends ⊢
    exact hends.insert_blank hkind hb rest
  · rw [← List.append_assoc kept, ← List.append_assoc] at hclose ⊢
    rcases close_infix_blank hb _ hclose with hclose | hclose
    · exact hclose.trans (List.prefix_append ..).isInfix
    · exact hclose.trans (List.suffix_append ..).isInfix

theorem Begins.insert_slash (h : Begins file (gap ++ rest) loc front ts)
    (herror : ∀ t ∈ ts, t.kind ≠ .error) (hopen : ∀ t ∈ ts, ¬ ['/', '*'] <+: t.lexeme.toList)
    (hruns : gap = [] → ∀ t ∈ ts.getLast?, runsOn t.lexeme.toList = false) (rest' : List Char) :
    Begins file (gap ++ '/' :: rest') loc front ts := by
  refine h.moved herror (fun t _ kept hkind hlast hends => ?_) fun t ht body kept hbody => ?_
  · rw [← List.append_assoc] at hends ⊢
    refine hends.insert_slash hkind (fun hnil => ?_) rest'
    obtain ⟨hkept, hgap⟩ := List.append_eq_nil_iff.mp hnil
    exact hruns hgap t (hlast hkept)
  · exact absurd ⟨body, hbody.symm⟩ (hopen t ht)

theorem Begins.unplaced_insert (filler : List Char) (h : Begins file (gap ++ rest) loc front ts)
    (h' : Begins file (gap ++ (filler ++ rest)) loc front ts) (hgap : gap ∈ finalGaps)
    (hfiller : filler ∈ gaps) (hfeed : '\n' ∉ filler) :
    (TokenStream.scanFrom file loc (front ++ (gap ++ (filler ++ rest)))).unplaced =
      (TokenStream.scanFrom file loc (front ++ (gap ++ rest))).unplaced := by
  rw [h.scanFrom, h'.scanFrom, unplaced_append, unplaced_append,
    unplaced_scanFrom_insert hgap hfiller hfeed rest rfl]

end

/-! ### Boundaries -/

/-- A place of a text without erroneous tokens: the token `t` ends where `before` does, the tokens
`ts` stand before it, and the gap behind it goes through `gap` at least. -/
structure IsBoundary (file : SourceFile) (before gap after : String) (ts : List Token) (t : Token) :
    Prop where
  sound : ∀ u ∈ (ofText file (before ++ gap ++ after)).tokens, u.kind ≠ .error
  tokens : ts ++ [t] <+: (ofText file (before ++ gap ++ after)).tokens
  stop : t.span.stop = before.utf8ByteSize
  gap : gap.toList ∈ finalGaps

/-- A text that can stand between the marks of a comment on one line. -/
structure IsRemark (remark : String) : Prop where
  feed : '\n' ∉ remark.toList
  close : ¬ ['*', '/'] <:+: remark.toList

theorem mem_gaps_remark {remark : String} (h : IsRemark remark) :
    ("/*" ++ remark ++ "*/").toList ∈ gaps := by
  have hgap := block_mem_gaps h.close nil_mem_gaps
  simpa using hgap

section

variable {file : SourceFile} {before gap after remark : String} {ts : List Token} {t : Token}

theorem IsBoundary.begins (h : IsBoundary file before gap after ts t) :
    Begins file (gap.toList ++ after.toList) Location.start before.toList (ts ++ [t]) := by
  obtain ⟨us, htokens⟩ := h.tokens
  obtain ⟨front, rest, hsplit, hbegins⟩ :=
    (splits_scanFrom file Location.start (before ++ gap ++ after).toList).exists_begins htokens.symm
  have hstop := hbegins.stop_getLast (List.getLast?_concat ..)
  have hoffset : (Location.start.advanceAll before.toList).offset =
      (Location.start.advanceAll front).offset := by
    rw [← hstop, h.stop, Location.offset_advanceAll]
    simp [Location.start]
  rw [String.toList_append, String.toList_append, List.append_assoc] at hsplit
  obtain ⟨rfl, rfl⟩ := Location.eq_of_append_eq_append hsplit hoffset
  exact hbegins

theorem IsBoundary.sound_front (h : IsBoundary file before gap after ts t) :
    ∀ u ∈ ts ++ [t], u.kind ≠ .error :=
  fun u hu => h.sound u (h.tokens.subset hu)

theorem IsBoundary.unplaced_blank (h : IsBoundary file before gap after ts t) :
    (ofText file (before ++ gap ++ " " ++ after)).unplaced =
      (ofText file (before ++ gap ++ after)).unplaced := by
  have hblank : [' '] ∈ gaps := blank_mem_gaps (by decide) nil_mem_gaps
  have hinsert := h.begins.insert_blank h.sound_front (b := ' ') (by decide)
  have hsame := h.begins.unplaced_insert [' '] hinsert h.gap hblank (by decide)
  simpa [ofText] using hsame

theorem IsBoundary.unplaced_comment (h : IsBoundary file before gap after ts t)
    (hremark : IsRemark remark) (hopen : ∀ u ∈ ts ++ [t], ¬ ['/', '*'] <+: u.lexeme.toList)
    (hruns : gap = "" → runsOn t.lexeme.toList = false) :
    (ofText file (before ++ gap ++ ("/*" ++ remark ++ "*/") ++ after)).unplaced =
      (ofText file (before ++ gap ++ after)).unplaced := by
  have hlast : gap.toList = [] → ∀ u ∈ (ts ++ [t]).getLast?, runsOn u.lexeme.toList = false := by
    intro hnil u hu
    rw [List.getLast?_concat] at hu
    obtain rfl := Option.some.inj hu
    exact hruns (by simpa using hnil)
  have hinsert := h.begins.insert_slash h.sound_front hopen hlast
    ('*' :: (remark.toList ++ ['*', '/'] ++ after.toList))
  have hsame := h.begins.unplaced_insert ("/*" ++ remark ++ "*/").toList
    (by simpa using hinsert) h.gap (mem_gaps_remark hremark) (by simpa using hremark.feed)
  simpa [ofText] using hsame

/-- A comment on one line has no more effect than a blank behind a token that does not run on into
it, unless some token up to there is the mark of a comment that is not closed. -/
theorem ofText_comment (h : IsBoundary file before gap after ts t) (hremark : IsRemark remark)
    (hopen : ∀ u ∈ ts ++ [t], ¬ ['/', '*'] <+: u.lexeme.toList)
    (hruns : gap = "" → runsOn t.lexeme.toList = false) :
    (ofText file (before ++ gap ++ ("/*" ++ remark ++ "*/") ++ after)).unplaced =
        (ofText file (before ++ gap ++ " " ++ after)).unplaced ∧
      (ofText file (before ++ gap ++ " " ++ after)).unplaced =
        (ofText file (before ++ gap ++ after)).unplaced := by
  have hblank := h.unplaced_blank
  exact ⟨(h.unplaced_comment hremark hopen hruns).trans hblank.symm, hblank⟩

end

theorem ofText_comment_behind_name :
    let ts : List Token := [⟨.identifier, "f_+", ⟨.user, 0, 3, 1, 1⟩, true⟩]
    let t : Token := ⟨.identifier, "x", ⟨.user, 4, 5, 1, 5⟩, false⟩
    IsBoundary .user "f_+ x" "" "/* y */+ 1 // z" ts t ∧ IsRemark "\"/" ∧
      (∀ u ∈ ts ++ [t], ¬ ['/', '*'] <+: u.lexeme.toList) ∧ runsOn t.lexeme.toList = false ∧
      (ofText .user ("f_+ x" ++ "" ++ ("/*" ++ "\"/" ++ "*/") ++ "/* y */+ 1 // z")).unplaced =
          (ofText .user ("f_+ x" ++ "" ++ " " ++ "/* y */+ 1 // z")).unplaced ∧
        (ofText .user ("f_+ x" ++ "" ++ " " ++ "/* y */+ 1 // z")).unplaced =
          (ofText .user ("f_+ x" ++ "" ++ "/* y */+ 1 // z")).unplaced := by
  intro ts t
  have h : IsBoundary .user "f_+ x" "" "/* y */+ 1 // z" ts t :=
    ⟨by decide +kernel, by decide +kernel, by decide +kernel,
      mem_finalGaps_of_mem_gaps nil_mem_gaps⟩
  have hremark : IsRemark "\"/" := ⟨by decide, by decide⟩
  have hopen : ∀ u ∈ ts ++ [t], ¬ ['/', '*'] <+: u.lexeme.toList := by decide
  have hruns : runsOn t.lexeme.toList = false := by decide
  exact ⟨h, hremark, hopen, hruns, ofText_comment h hremark hopen fun _ => hruns⟩

/-- An operator takes the marks of a comment right behind it for a part of itself, and a mark that
opens a comment takes those of any later comment for its end. -/
theorem comment_not_as_blank :
    (∃ ts t, IsBoundary .user "a+" "" "b" ts t ∧ IsRemark "c" ∧
      (∀ u ∈ ts ++ [t], ¬ ['/', '*'] <+: u.lexeme.toList) ∧
      (ofText .user ("a+" ++ "" ++ ("/*" ++ "c" ++ "*/") ++ "b")).unplaced ≠
        (ofText .user ("a+" ++ "" ++ " " ++ "b")).unplaced) ∧
    (∃ ts t, IsBoundary .user "/* a" " " "b" ts t ∧ IsRemark "c" ∧
      runsOn t.lexeme.toList = false ∧
      (ofText .user ("/* a" ++ " " ++ ("/*" ++ "c" ++ "*/") ++ "b")).unplaced ≠
        (ofText .user ("/* a" ++ " " ++ " " ++ "b")).unplaced) := by
  have hremark : IsRemark "c" := ⟨by decide, by decide⟩
  refine ⟨⟨[⟨.identifier, "a", ⟨.user, 0, 1, 1, 1⟩, true⟩],
      ⟨.operator, "+", ⟨.user, 1, 2, 1, 2⟩, false⟩, ?_, hremark, by decide, fun h => ?_⟩,
    ⟨[⟨.operator, "/*", ⟨.user, 0, 2, 1, 1⟩, true⟩],
      ⟨.identifier, "a", ⟨.user, 3, 4, 1, 4⟩, false⟩, ?_, hremark, by decide, fun h => ?_⟩⟩
  · exact ⟨by decide +kernel, by decide +kernel, by decide +kernel,
      mem_finalGaps_of_mem_gaps nil_mem_gaps⟩
  · exact absurd (congrArg TokenStream.tokens h) (by decide +kernel)
  · exact ⟨by decide +kernel, by decide +kernel, by decide +kernel,
      mem_finalGaps_of_mem_gaps (blank_mem_gaps (by decide) nil_mem_gaps)⟩
  · exact absurd (congrArg TokenStream.tokens h) (by decide +kernel)

end TokenStream

end Mixin
