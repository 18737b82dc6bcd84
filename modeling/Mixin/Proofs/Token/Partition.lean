import Mixin.Proofs.Grammar.Sites
import Mixin.Proofs.Token.Endings
import Mixin.Proofs.Token.Gaps

/-!
# Tokens partition their text

A text is made of gaps and tokens in turn, and a gap behind the last token. `Splits` says so of a
stream of tokens without regard to how a text is scanned: gaps are those of the language of gaps,
tokens are the longest texts of any class, and neither depends on what comes before. Scanning
splits every text (`splits_scanFrom`), and a text that is given in pieces is scanned piece by piece
(`scanFrom_next`, `scanFrom_last`).
-/

namespace Mixin

open Lexicon

/-- The token that `lexeme` is behind `gap`, which begins at `loc`. -/
def Token.behind (file : SourceFile) (loc : Location) (gap : List Char) (kind : TokenKind)
    (lexeme : List Char) : Token where
  kind := kind
  lexeme := String.ofList lexeme
  span := Span.ofLocation file (loc.advanceAll gap) (loc.advanceAll (gap ++ lexeme)).offset
  startsLine := loc.offset == 0 || gap.contains '\n'

namespace TokenStream

/-- A text in tokens and gaps, the first of which begins at the given place. -/
inductive Splits (file : SourceFile) : Location → List Char → TokenStream → Prop where
  | last (loc : Location) {gap : List Char} (hgap : gap ∈ finalGaps) :
    Splits file loc gap ⟨[], Token.behind file loc gap .eof []⟩
  | next (loc : Location) {gap lexeme rest : List Char} {kind : TokenKind} {others : TokenStream}
    (hgap : gap ∈ gaps) (hbare : IsBare (lexeme ++ rest))
    (htoken : IsToken kind lexeme rest)
    (hrest : Splits file (loc.advanceAll (gap ++ lexeme)) rest others) :
    Splits file loc (gap ++ (lexeme ++ rest))
      ⟨Token.behind file loc gap kind lexeme :: others.tokens, others.final⟩

/-! ### Scanning -/

variable (file : SourceFile) (loc : Location)

theorem scanFrom_last {gap : List Char} (h : gapLength gap = gap.length) :
    scanFrom file loc gap = ⟨[], Token.behind file loc gap .eof []⟩ := by
  have htake : gap.take (gapLength gap) = gap := by rw [h, List.take_length]
  have hdrop : gap.drop (gapLength gap) = [] := by rw [h, List.drop_length]
  rw [scanFrom]
  split
  next => simp [Token.behind, htake]
  next hcons => rw [hdrop] at hcons; cases hcons

theorem scanFrom_next {gap lexeme rest : List Char} {kind : TokenKind}
    (hgap : gapLength (gap ++ (lexeme ++ rest)) = gap.length) (hlexeme : lexeme ≠ [])
    (hfound : tokenAt (lexeme ++ rest) = (lexeme.length, kind)) :
    scanFrom file loc (gap ++ (lexeme ++ rest)) =
      ⟨Token.behind file loc gap kind lexeme ::
        (scanFrom file (loc.advanceAll (gap ++ lexeme)) rest).tokens,
        (scanFrom file (loc.advanceAll (gap ++ lexeme)) rest).final⟩ := by
  rw [scanFrom]
  split
  next hnil =>
    rw [hgap, List.drop_left] at hnil
    simp [hlexeme] at hnil
  next c cs hcons =>
    rw [hgap, List.drop_left] at hcons
    simp only [← hcons, hgap, hfound, List.take_left, List.drop_left, Token.behind,
      Location.advanceAll_append]

theorem scanFrom_token {gap lexeme rest : List Char} {kind : TokenKind} (hgap : gap ∈ gaps)
    (hbare : IsBare (lexeme ++ rest)) (htoken : IsToken kind lexeme rest) :
    scanFrom file loc (gap ++ (lexeme ++ rest)) =
      ⟨Token.behind file loc gap kind lexeme ::
        (scanFrom file (loc.advanceAll (gap ++ lexeme)) rest).tokens,
        (scanFrom file (loc.advanceAll (gap ++ lexeme)) rest).final⟩ := by
  have hlength : gapLength (gap ++ (lexeme ++ rest)) = gap.length := by
    rw [gapLength_append hgap, gapLength_of_isBare hbare, Nat.add_zero]
  exact scanFrom_next file loc hlength htoken.ne_nil htoken.tokenAt

theorem splits_scanFrom (input : List Char) : Splits file loc input (scanFrom file loc input) := by
  -- On the length of the text: no token is empty, so less is left behind each.
  induction hsize : input.length using Nat.strong_induction_on generalizing loc input with
  | _ n ih =>
    obtain ⟨gap, rest, rfl, hlength, hbare, hfinal, hgap⟩ := exists_gap input
    cases rest with
    | nil =>
      rw [List.append_nil] at hlength ⊢
      rw [scanFrom_last file loc hlength.symm]
      exact .last loc hfinal
    | cons c cs =>
      obtain ⟨lexeme, rest, hrest, hfound, htoken⟩ := exists_of_tokenAt c cs
      have hpos := tokenAt_pos (c :: cs)
      have hne : lexeme ≠ [] := List.length_pos_iff.mp (by omega)
      have hshorter : rest.length < n := by
        have hsplit := congrArg List.length hrest
        rw [List.length_append] at hsplit hsize
        omega
      rw [hrest] at hlength hbare hfound htoken hgap ⊢
      rw [scanFrom_next file loc hlength.symm hne (Prod.ext hfound.symm rfl)]
      exact .next loc (hgap (by simp [hne])) hbare htoken (ih _ hshorter _ rest rfl)

variable {file : SourceFile} {loc : Location} {input : List Char} {stream : TokenStream}

theorem Splits.disjoint (h : Splits file loc input stream) :
    (∀ t ∈ stream.toList, loc.offset ≤ t.span.start) ∧
      stream.toList.Pairwise fun t u => t.span.stop ≤ u.span.start := by
  induction h with
  | last loc _ => simpa [toList, Token.behind, Span.ofLocation] using loc.offset_le_advanceAll _
  | @next loc gap lexeme rest kind others _ _ _ _ ih =>
    have hstart : loc.offset ≤ (loc.advanceAll gap).offset := loc.offset_le_advanceAll gap
    have hstop : loc.offset ≤ (loc.advanceAll (gap ++ lexeme)).offset := loc.offset_le_advanceAll _
    refine ⟨List.forall_mem_cons.mpr ⟨hstart, fun t ht => ?_⟩, List.pairwise_cons.mpr ⟨ih.1, ih.2⟩⟩
    exact hstop.trans (ih.1 t ht)

theorem Splits.increasing (h : Splits file loc input stream) :
    Token.Increasing stream.toList := by
  induction h with
  | last loc _ => exact List.pairwise_singleton ..
  | @next loc gap lexeme rest kind others _ _ htoken hrest ih =>
    refine List.pairwise_cons.mpr ⟨fun t ht => ?_, ih⟩
    have hstop : (loc.advanceAll gap).offset < (loc.advanceAll (gap ++ lexeme)).offset := by
      rw [Location.advanceAll_append]
      exact Location.offset_lt_advanceAll _ htoken.ne_nil
    exact Nat.lt_of_lt_of_le hstop (hrest.disjoint.1 t ht)

theorem Splits.exists_isToken (h : Splits file loc input stream) :
    ∀ t ∈ stream.tokens, ∃ rest, IsToken t.kind t.lexeme.toList rest := by
  induction h with
  | last => simp
  | @next loc gap lexeme rest kind others _ _ htoken _ ih =>
    exact List.forall_mem_cons.mpr ⟨⟨rest, by simpa [Token.behind] using htoken⟩, ih⟩

theorem exists_isToken {text : String} {t : Token} (h : t ∈ (ofText file text).tokens) :
    ∃ rest, IsToken t.kind t.lexeme.toList rest :=
  (splits_scanFrom file Location.start text.toList).exists_isToken t h

theorem kind_ne_eof {text : String} {t : Token} (h : t ∈ (ofText file text).tokens) :
    t.kind ≠ .eof := by
  obtain ⟨rest, htoken⟩ := exists_isToken h
  exact htoken.kind_ne_eof

end TokenStream

/-! ### Places -/

/-- The offset behind the last of some tokens. -/
def Token.reached (ts : List Token) : Nat := (ts.getLast?.map (·.span.stop)).getD 0

/-- A token that stands behind `gap` and before `after` in a text. -/
structure Token.InText (t : Token) (gap after : String) : Prop where
  nonempty : t.lexeme ≠ ""
  gap : gap.toList ∈ gaps
  bare : IsBare (t.lexeme ++ after).toList
  token : IsToken t.kind t.lexeme.toList after.toList

/-- The token for the end of a text, behind `gap`. -/
structure Token.AtEnd (t : Token) (gap after : String) : Prop where
  empty : t.lexeme = ""
  gap : gap.toList ∈ finalGaps
  after : after = ""

/-- The token `t` is the next one behind the tokens `ts`: these go as far as `before` does, and from
there `gap` goes to the start of the token. -/
structure Token.IsNext (t : Token) (file : SourceFile) (ts : List Token)
    (before gap after : String) : Prop where
  reached : Token.reached ts = before.utf8ByteSize
  file : t.span.file = file
  location : t.span.location = Location.start.advanceAll (before ++ gap).toList
  start : t.span.start = (before ++ gap).utf8ByteSize
  stop : t.span.stop = (before ++ gap ++ t.lexeme).utf8ByteSize
  startsLine : t.startsLine = true ↔ ts = [] ∨ '\n' ∈ gap.toList
  feed : '\n' ∉ t.lexeme.toList
  sort : t.kind ≠ .eof ∧ t.InText gap after ∨ t.kind = .eof ∧ t.AtEnd gap after

/-- A text in tokens, one for its end behind all others, and nothing but gaps between them. -/
structure TokenStream.Partitions (stream : TokenStream) (file : SourceFile) (text : String) :
    Prop where
  tokens : ∀ t ∈ stream.tokens, t.kind ≠ .eof
  final : stream.final.kind = .eof
  next : ∀ ts t us, stream.toList = ts ++ t :: us → ∃ before gap after,
    text = before ++ gap ++ t.lexeme ++ after ∧ t.IsNext file ts before gap after
  disjoint : stream.toList.Pairwise fun t u => t.span.stop ≤ u.span.start

theorem Lexicon.IsToken.feed_not_mem {lexeme rest : List Char} {kind : TokenKind}
    (h : IsToken kind lexeme rest) (hbare : IsBare (lexeme ++ rest)) : '\n' ∉ lexeme := by
  rcases h with h | h
  · obtain ⟨cls, hcls, hlexeme, -⟩ := h.kind.exists_class
    exact Lexicon.feed_not_mem hcls hlexeme
  · obtain ⟨c, rfl⟩ := h.single
    rw [List.mem_singleton]
    rintro rfl
    exact absurd (hbare.blank '\n' rfl) (by decide)

section

variable {file : SourceFile} {ts : List Token} {before : String} {gap lexeme after : List Char}
  {kind : TokenKind}

theorem Token.isNext_behind (hreached : Token.reached ts = before.utf8ByteSize)
    (hfirst : ts = [] ↔ before = "") (hfeed : '\n' ∉ lexeme)
    (hsort : kind ≠ .eof ∧ gap ∈ gaps ∧ IsBare (lexeme ++ after) ∧ IsToken kind lexeme after ∨
      kind = .eof ∧ gap ∈ finalGaps ∧ lexeme = [] ∧ after = []) :
    (behind file (Location.start.advanceAll before.toList) gap kind lexeme).IsNext file ts before
      (String.ofList gap) (String.ofList after) where
  reached := hreached
  file := rfl
  location := by simp [behind, Span.ofLocation, Span.location]
  start := by simp [behind, Span.ofLocation, Location.offset_advanceAll, Location.start]
  stop := by
    simp [behind, Span.ofLocation, Location.offset_advanceAll, Location.start, Nat.add_assoc]
  startsLine := by
    simp [behind, hfirst, Location.offset_advanceAll, Location.start]
  feed := by simpa [behind] using hfeed
  sort := by
    rcases hsort with ⟨hkind, hgap, hbare, htoken⟩ | ⟨hkind, hgap, rfl, rfl⟩
    · have hne := htoken.ne_nil
      exact .inl ⟨hkind, by simpa [behind] using hne, by simpa using hgap,
        by simpa [behind] using hbare, by simpa [behind] using htoken⟩
    · exact .inr ⟨hkind, rfl, by simpa using hgap, rfl⟩

end

namespace TokenStream

variable {file : SourceFile} {loc : Location} {input : List Char} {stream : TokenStream}

/-- Behind the tokens `ps` and the text `before` that they take up, the tokens of what follows stand
one behind another. -/
theorem Splits.exists_isNext (h : Splits file loc input stream) (ps : List Token) (before : String)
    (hloc : loc = Location.start.advanceAll before.toList)
    (hreached : Token.reached ps = before.utf8ByteSize) (hfirst : ps = [] ↔ before = "")
    {ts us : List Token} {t : Token} (ht : stream.toList = ts ++ t :: us) :
    ∃ upTo gap after, before ++ String.ofList input = upTo ++ gap ++ t.lexeme ++ after ∧
      t.IsNext file (ps ++ ts) upTo gap after := by
  induction h generalizing ps before ts with
  | @last loc gap hgap =>
    cases ts with
    | nil =>
      obtain ⟨rfl, -⟩ := List.cons.inj ht
      rw [hloc, List.append_nil]
      refine ⟨before, String.ofList gap, String.ofList [], ?_, ?_⟩
      · simp [Token.behind]
      · exact Token.isNext_behind hreached hfirst (by simp) (.inr ⟨rfl, hgap, rfl, rfl⟩)
    | cons u ts =>
      have hnil := (List.cons.inj ht).2
      simp at hnil
  | @next loc gap lexeme rest kind others hgap hbare htoken _ ih =>
    cases ts with
    | nil =>
      obtain ⟨rfl, -⟩ := List.cons.inj ht
      rw [hloc, List.append_nil]
      refine ⟨before, String.ofList gap, String.ofList rest, ?_, ?_⟩
      · simp [Token.behind, String.append_assoc]
      · exact Token.isNext_behind hreached hfirst (htoken.feed_not_mem hbare)
          (.inl ⟨htoken.kind_ne_eof, hgap, hbare, htoken⟩)
    | cons u ts =>
      -- The first token goes to those behind, and its gap and lexeme to the text behind.
      obtain ⟨rfl, hts⟩ := List.cons.inj ht
      have hne := htoken.ne_nil
      have hstop : Token.reached (ps ++ [Token.behind file loc gap kind lexeme]) =
          (before ++ String.ofList (gap ++ lexeme)).utf8ByteSize := by
        simp [Token.reached, Token.behind, hloc, Span.ofLocation, Location.offset_advanceAll,
          Location.start, Nat.add_assoc]
      have hnext := ih _ _ (by simp [hloc]) hstop (by simp [hne]) hts
      simpa [String.append_assoc] using hnext

/-- Every text is split into tokens without loss. -/
theorem ofText_partitions (file : SourceFile) (text : String) :
    (ofText file text).Partitions file text where
  tokens t ht := kind_ne_eof ht
  final := (scannedFrom file Location.start text.toList).final
  next ts t us h := by
    have hsplits := splits_scanFrom file Location.start text.toList
    simpa using hsplits.exists_isNext [] "" rfl rfl (by simp) h
  disjoint := (splits_scanFrom file Location.start text.toList).disjoint.2

end TokenStream

end Mixin
