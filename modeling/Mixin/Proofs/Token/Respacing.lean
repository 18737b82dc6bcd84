import Mixin.Proofs.Token.Partition
import Mixin.Proofs.Tree.Unplaced

/-!
# Tokens keep apart

A text in which no token is erroneous can be written anew from its tokens alone, with one blank
between any two of them, and reads the same (`ofText_respaced`). What has to be shown is that tokens
do not depend on what follows them: each ends before a blank, and the mark of a comment that is
never closed is an operator still, for nothing closes it now.
-/

namespace Mixin

open Lexicon Text

/-! ### Other surroundings -/

namespace Lexicon

theorem EndsBefore.not_cons_slash {c : Char} {rest : List Char} (hc : isOperatorChar c = true) :
    ¬ EndsBefore ['/'] (c :: rest) := by
  intro h
  have hmem : ['/'] ++ [c] ∈ operators := mem_runOf.mpr ⟨by simp, by simpa [hc] using by decide⟩
  have hnil := h ⟨operators, TokenKind.ofOperator⟩ (by simp [classes]) [c] (by simp) hmem
  cases hnil

/-- What begins no comment where it stands begins none before `rest'` either, if it ends before
that, and nothing there closes a comment that it could open. -/
theorem IsBare.moved {lexeme rest rest' : List Char} (h : IsBare (lexeme ++ rest))
    (hne : lexeme ≠ []) (hends : EndsBefore lexeme rest')
    (hopen : ∀ body, lexeme = '/' :: '*' :: body → ¬ ['*', '/'] <:+: body ++ rest') :
    IsBare (lexeme ++ rest') := by
  obtain ⟨c, cs, rfl⟩ := List.exists_cons_of_ne_nil hne
  refine ⟨h.blank, fun hline => ?_, fun after hblock => ?_⟩
  · obtain ⟨rfl, hsecond⟩ := List.cons_prefix_cons.mp hline
    cases cs with
    -- A slash alone would go on to the second slash, as an operator.
    | nil =>
      obtain ⟨after, rfl⟩ := hsecond
      exact EndsBefore.not_cons_slash (by decide) hends
    | cons d cs =>
      obtain ⟨rfl, -⟩ := List.cons_prefix_cons.mp hsecond
      exact h.line (by simp)
  · obtain ⟨rfl, hsecond⟩ := List.cons.inj hblock
    cases cs with
    | nil =>
      obtain rfl : rest' = '*' :: after := hsecond
      exact absurd hends (EndsBefore.not_cons_slash (by decide))
    | cons d cs =>
      obtain ⟨rfl, rfl⟩ := List.cons.inj hsecond
      exact hopen cs rfl

end Lexicon

theorem Location.offset_advanceAll_beq (loc : Location) {cs : List Char} (h : cs ≠ []) :
    ((loc.advanceAll cs).offset == 0) = false := by
  have hpos := loc.offset_lt_advanceAll h
  exact beq_false_of_ne (by omega)

/-! ### Separators -/

def Token.separator (t : Token) : Char := if t.startsLine then '\n' else ' '

def Token.spaced (ts : List Token) : List Char := ts.flatMap fun t => t.separator :: t.lexeme.toList

theorem Token.isBlank_separator (t : Token) : isBlank t.separator = true := by
  rw [separator]
  split <;> decide

theorem Token.contains_separator (t : Token) : [t.separator].contains '\n' = t.startsLine := by
  cases h : t.startsLine <;> simp [separator, h]

@[simp] theorem Token.lexeme_behind (file : SourceFile) (loc : Location) (gap lexeme : List Char)
    (kind : TokenKind) : (behind file loc gap kind lexeme).lexeme.toList = lexeme :=
  String.toList_ofList

theorem Token.unplaced_behind {file : SourceFile} {loc loc' : Location}
    {gap gap' lexeme : List Char} {kind : TokenKind}
    (h : (loc.offset == 0 || gap.contains '\n') = (loc'.offset == 0 || gap'.contains '\n')) :
    (behind file loc gap kind lexeme).unplaced = (behind file loc' gap' kind lexeme).unplaced := by
  simp only [unplaced, behind, h]

theorem Token.unplaced_separated {file : SourceFile} {loc loc' : Location} {gap lexeme : List Char}
    {kind : TokenKind} (hloc' : loc'.offset ≠ 0) :
    (behind file loc' [(behind file loc gap kind lexeme).separator] kind lexeme).unplaced =
      (behind file loc gap kind lexeme).unplaced := by
  apply unplaced_behind
  rw [contains_separator, beq_false_of_ne hloc', Bool.false_or, behind]

namespace TokenStream

/-- The tokens of a text with one blank between any two of them, a line feed where the second
begins a line. -/
def respaced (stream : TokenStream) : String := String.ofList (Token.spaced stream.toList).tail

theorem spaced_next (t : Token) (stream : TokenStream) :
    Token.spaced (toList ⟨t :: stream.tokens, stream.final⟩) =
      t.separator :: (t.lexeme.toList ++ Token.spaced stream.toList) := rfl

theorem unplaced_next (t : Token) (stream : TokenStream) :
    unplaced ⟨t :: stream.tokens, stream.final⟩ =
      ⟨t.unplaced :: stream.unplaced.tokens, stream.unplaced.final⟩ := rfl

theorem exists_spaced (stream : TokenStream) :
    ∃ b cs, Token.spaced stream.toList = b :: cs ∧ isBlank b = true := by
  cases htokens : stream.toList with
  | nil => simp [toList] at htokens
  | cons t ts => exact ⟨t.separator, _, rfl, t.isBlank_separator⟩

section

variable {file : SourceFile} {loc : Location} {input : List Char} {stream : TokenStream}

theorem Splits.closes_of_spaced (h : Splits file loc input stream)
    (hclose : ['*', '/'] <:+: Token.spaced stream.toList) : ['*', '/'] <:+: input := by
  induction h with
  | last => simp [Token.spaced, toList, Token.behind, pair_infix_cons] at hclose
  | @next loc gap lexeme rest kind others _ _ _ _ ih =>
    obtain ⟨b, cs, hspaced, hb⟩ := exists_spaced others
    rw [spaced_next, hspaced, Token.behind, String.toList_ofList] at hclose
    rcases close_infix_blank (Token.isBlank_separator _) [] hclose with hnil | hclose
    · simp at hnil
    · rcases close_infix_blank hb lexeme hclose with hlexeme | hrest
      · exact hlexeme.trans ((List.prefix_append ..).isInfix.trans (List.suffix_append ..).isInfix)
      · have hothers := ih (hspaced ▸ pair_infix_cons.mpr (.inr hrest))
        exact hothers.trans ((List.suffix_append ..).trans (List.suffix_append ..)).isInfix

theorem moved_spaced {lexeme rest : List Char} {kind : TokenKind} (hbare : IsBare (lexeme ++ rest))
    (hlongest : IsLongest kind lexeme rest) (h : Splits file loc rest stream) :
    IsBare (lexeme ++ Token.spaced stream.toList) ∧
      IsToken kind lexeme (Token.spaced stream.toList) := by
  obtain ⟨b, cs, hspaced, hb⟩ := exists_spaced stream
  have hends : EndsBefore lexeme (Token.spaced stream.toList) := by
    rw [hspaced]
    exact endsBefore_blank hlongest.kind hb cs
  refine ⟨hbare.moved (IsToken.ne_nil (.inl hlongest)) hends fun body hbody hclose => ?_,
    .inl ⟨hlongest.kind, hends⟩⟩
  -- A comment that the token opens had no end in the text, and blanks between tokens give it none.
  have hunclosed := hbare.block (body ++ rest) (by simp [hbody])
  rw [hspaced] at hclose
  rcases close_infix_blank hb body hclose with hclose | hclose
  · exact hunclosed (hclose.trans (List.prefix_append ..).isInfix)
  · have hrest := h.closes_of_spaced (hspaced ▸ pair_infix_cons.mpr (.inr hclose))
    exact hunclosed (hrest.trans (List.suffix_append ..).isInfix)

/-- What is written of some tokens, with a blank before each, is read as these tokens. -/
theorem Splits.unplaced_spaced (h : Splits file loc input stream)
    (herror : ∀ t ∈ stream.tokens, t.kind ≠ .error) {loc' : Location} (hloc' : loc'.offset ≠ 0) :
    (scanFrom file loc' (Token.spaced stream.toList)).unplaced = stream.unplaced := by
  induction h generalizing loc' with
  | @last loc gap _ =>
    have hlength (t : Token) : gapLength [t.separator] = [t.separator].length := by
      rw [gapLength_blank t.isBlank_separator, gapLength_of_isBare isBare_nil]
      rfl
    have hspaced : Token.spaced (toList ⟨[], Token.behind file loc gap .eof []⟩) =
        [(Token.behind file loc gap .eof []).separator] := by
      simp [Token.spaced, toList, Token.behind]
    rw [hspaced, scanFrom_last file loc' (hlength _), unplaced, unplaced,
      Token.unplaced_separated hloc']
  | @next loc gap lexeme rest kind others _ hbare htoken hrest ih =>
    obtain ⟨hkind, hothers⟩ := List.forall_mem_cons.mp herror
    obtain ⟨hbare', htoken'⟩ := moved_spaced hbare (htoken.longest hkind) hrest
    have hgap := blank_mem_gaps (Token.behind file loc gap kind lexeme).isBlank_separator
      nil_mem_gaps
    have hadvance := loc'.offset_le_advanceAll
      ([(Token.behind file loc gap kind lexeme).separator] ++ lexeme)
    have hscan := scanFrom_token file loc' hgap hbare' htoken'
    rw [List.singleton_append] at hscan
    rw [spaced_next, Token.lexeme_behind, hscan, unplaced_next, unplaced_next,
      ih hothers (by omega), Token.unplaced_separated hloc']

end

/-- A text without erroneous tokens is read again from what its tokens are. -/
theorem ofText_respaced (file : SourceFile) (text : String)
    (h : ∀ t ∈ (ofText file text).tokens, t.kind ≠ .error) :
    (ofText file (ofText file text).respaced).unplaced = (ofText file text).unplaced := by
  have hsplits := splits_scanFrom file Location.start text.toList
  rw [← ofText] at hsplits
  generalize ofText file text = stream at h hsplits ⊢
  generalize text.toList = input at hsplits
  -- Nothing is written before the first token, which begins a line because a text begins there.
  cases hsplits with
  | @last _ gap _ =>
    have hrespaced : respaced ⟨[], Token.behind file Location.start input .eof []⟩ = "" := by
      simp [respaced, Token.spaced, toList, Token.behind]
    rw [hrespaced, ofText, String.toList_empty,
      scanFrom_last file Location.start (gapLength_of_isBare isBare_nil)]
    rfl
  | @next _ gap lexeme rest kind others _ hbare htoken hrest =>
    obtain ⟨hkind, hothers⟩ := List.forall_mem_cons.mp h
    obtain ⟨hbare', htoken'⟩ := moved_spaced hbare (htoken.longest hkind) hrest
    have hadvance : (Location.start.advanceAll ([] ++ lexeme)).offset ≠ 0 :=
      Nat.ne_of_gt (Location.start.offset_lt_advanceAll htoken.ne_nil)
    have hscan := scanFrom_token file Location.start nil_mem_gaps hbare' htoken'
    rw [List.nil_append] at hscan
    rw [respaced, spaced_next, List.tail_cons, ofText, String.toList_ofList, Token.lexeme_behind,
      hscan, unplaced_next, unplaced_next, hrest.unplaced_spaced hothers hadvance]
    rfl

theorem ofText_respaced_comments :
    let text := "a_/* x */+b // y\n\"s\"/* q"
    (∀ t ∈ (ofText .user text).tokens, t.kind ≠ .error) ∧
      (ofText .user text).respaced = "a_/* x */+ b\n\"s\" /* q " ∧
      (ofText .user (ofText .user text).respaced).unplaced = (ofText .user text).unplaced := by
  intro text
  have h : ∀ t ∈ (ofText .user text).tokens, t.kind ≠ .error := by decide +kernel
  exact ⟨h, by decide +kernel, ofText_respaced .user text h⟩

end TokenStream

end Mixin
