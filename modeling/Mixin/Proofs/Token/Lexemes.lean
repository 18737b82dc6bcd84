import Mixin.Proofs.Token.Partition

/-!
# Texts of tokens

Which texts the tokens of a kind have: strings, characters and whole numbers are exactly the texts
of their classes. Names, operators and numbers are made of inner characters, so that a token cannot
go on to any other character (`endsBefore_of_not_isInner`), and a mark does not go on at all
(`endsBefore_mark`). A text that is one token is scanned as that token alone
(`TokenStream.ofText_single`).
-/

namespace Mixin

namespace Lexicon

open Text

/-! ### Where tokens end -/

theorem isPlain_head_of_quoted {texts : Language Char} (h : texts = strings ∨ texts = chars)
    {c : Char} {cs : List Char} (hmem : c :: cs ∈ texts) : isPlain c = false := by
  rcases h with rfl | rfl
  · obtain rfl := Option.some.inj (head?_of_mem_strings hmem)
    simp [isPlain]
  · obtain rfl := Option.some.inj (head?_of_mem_chars hmem)
    simp [isPlain]

theorem endsBefore_of_not_isInner {kind : TokenKind} {lexeme : List Char}
    (h : IsKindOf lexeme classes kind) {c : Char} (hc : isInner c = false) (rest : List Char) :
    EndsBefore lexeme (c :: rest) := by
  rcases endsBefore_or_isPlain h with hends | hplain
  · exact hends _
  · intro cls hcls more hmore htext
    cases more with
    | nil => rfl
    | cons d more =>
      obtain ⟨rfl, -⟩ := List.cons_prefix_cons.mp hmore
      obtain ⟨own, hown, hlexeme, -⟩ := h.exists_class
      obtain ⟨b, bs, rfl⟩ := List.exists_cons_of_ne_nil (ne_nil_of_mem_classes hown hlexeme)
      rcases isInner_of_mem_classes hcls with hquoted | hinner | hmark
      · have hb := hplain cls hcls _ htext b (by simp)
        rw [isPlain_head_of_quoted hquoted htext] at hb
        cases hb
      · rw [hinner _ htext d (by simp)] at hc
        cases hc
      · obtain ⟨e, heq, -⟩ := hmark _ htext
        simp at heq

theorem endsBefore_mark {c : Char} (hc : isInner c = false) (hplain : isPlain c = true)
    (rest : List Char) : EndsBefore [c] rest := by
  intro cls hcls more _ htext
  rcases isInner_of_mem_classes hcls with hquoted | hinner | hmark
  · rw [isPlain_head_of_quoted hquoted htext] at hplain
    cases hplain
  · rw [hinner _ htext c (by simp)] at hc
    cases hc
  · obtain ⟨e, heq, -⟩ := hmark _ htext
    exact (List.cons.inj heq).2

/-! ### Kinds -/

theorem isKindOf_of_tokenAt {text : List Char} {kind : TokenKind} (hne : text ≠ [])
    (h : tokenAt text = (text.length, kind)) (hkind : kind ≠ .error) :
    IsKindOf text classes kind := by
  obtain ⟨c, cs, rfl⟩ := List.exists_cons_of_ne_nil hne
  obtain ⟨lexeme, rest, hsplit, hlength, htoken⟩ := exists_of_tokenAt c cs
  rw [h] at hlength htoken
  have hrest : rest = [] := by
    have htotal := congrArg List.length hsplit
    rw [List.length_append, hlength] at htotal
    exact List.eq_nil_of_length_eq_zero (by simpa using htotal)
  rw [hrest, List.append_nil] at hsplit
  rw [hsplit]
  exact (htoken.longest hkind).kind

/-- A text with a character that is not an inner one has its kind from the classes behind those of
names and numbers. -/
theorem isKindOf_of_not_isInner {text : List Char} {c : Char} (hc : c ∈ text)
    (hinner : isInner c = false) {kind : TokenKind} (h : IsKindOf text (classes.drop 4) kind) :
    IsKindOf text classes kind := by
  have hnot : ¬ ∀ c ∈ text, isInner c = true := by
    intro hall
    rw [hall c hc] at hinner
    cases hinner
  refine .tail (mt isInner_of_mem_words hnot) (.tail (mt isInner_of_mem_mixedWords hnot)
    (.tail (fun hfloat => hnot fun d hd => ?_) (.tail (fun hint => hnot fun d hd => ?_) h)))
  · exact isInner_of_isNumeral (isNumeral_of_mem_floats hfloat d hd)
  · exact isInner_of_isNumeral (isNumeral_of_mem_ints hint d hd)

theorem isKindOf_of_mem_strings {text : List Char} (h : text ∈ strings) :
    IsKindOf text classes .stringLiteral :=
  isKindOf_of_not_isInner (List.mem_of_mem_head? (head?_of_mem_strings h)) (by decide +kernel)
    (.head h _)

theorem isKindOf_of_mem_chars {text : List Char} (h : text ∈ chars) :
    IsKindOf text classes .charLiteral := by
  have hhead := head?_of_mem_chars h
  refine isKindOf_of_not_isInner (List.mem_of_mem_head? hhead) (by decide +kernel)
    (.tail (fun hstring => ?_) (.head h _))
  rw [head?_of_mem_strings hstring] at hhead
  exact absurd (Option.some.inj hhead) (by decide)

theorem isWordStart_of_isDigit {c : Char} (h : c.isDigit = true) : isWordStart c = false := by
  have hall : (List.range' 48 10).all (fun n => !isWordStart (Char.ofNat n)) = true := by
    decide +kernel
  have hc : c.toNat ∈ List.range' 48 10 := by
    simp only [Char.isDigit, Bool.and_eq_true, decide_eq_true_eq] at h
    rw [List.mem_range'_1]
    exact ⟨h.1, Nat.lt_succ_of_le h.2⟩
  have hnot := List.all_eq_true.mp hall _ hc
  rwa [Char.ofNat_toNat, Bool.not_eq_true'] at hnot

theorem isKindOf_of_mem_ints {text : List Char} (h : text ∈ ints) :
    IsKindOf text classes .intLiteral := by
  obtain ⟨digits, mark, rfl, hdigits, hmark⟩ := mem_ints.mp h
  obtain ⟨hne, hall⟩ := mem_runOf.mp hdigits
  obtain ⟨d, ds, rfl⟩ := List.exists_cons_of_ne_nil hne
  have hstart : isWordStart d = false := isWordStart_of_isDigit (hall d (List.mem_cons_self ..))
  have hword : ∀ word rest, d :: ds ++ mark = word ++ rest → word ∉ words := by
    intro word rest heq hword
    obtain ⟨c, cs, rfl, hc, -⟩ := mem_words.mp hword
    obtain ⟨rfl, -⟩ := List.cons.inj heq
    rw [hstart] at hc
    cases hc
  refine .tail (hword _ [] (List.append_nil _).symm) (.tail ?_ (.tail ?_ (.head h _)))
  · intro hmixed
    obtain ⟨word, operator, heq, hmem, -⟩ := mem_mixedWords.mp hmixed
    exact hword word _ heq hmem
  · intro hfloat
    obtain ⟨whole, fraction, exponent, heq, -⟩ := mem_floats.mp hfloat
    have hpoint : '.' ∈ d :: ds ++ mark := by simp [heq]
    rcases List.mem_append.mp hpoint with hpoint | hpoint
    · exact absurd (hall '.' hpoint) (by decide)
    · rcases hmark with rfl | rfl | rfl <;> simp at hpoint

/-! ### Heads of texts -/

theorem exists_isWordStart {text : List Char} (h : IsKindOf text classes .identifier) :
    ∃ c cs, text = c :: cs ∧ isWordStart c = true := by
  rcases h.mem_textsOf with hword | hmixed
  · obtain ⟨c, cs, rfl, hc, -⟩ := mem_words.mp hword
    exact ⟨c, cs, rfl, hc⟩
  · obtain ⟨word, operator, rfl, hword, -⟩ := mem_mixedWords.mp hmixed
    obtain ⟨c, cs, rfl, hc, -⟩ := mem_words.mp hword
    exact ⟨c, _, rfl, hc⟩

theorem isBare_of_head {c : Char} {cs : List Char} (hblank : isBlank c = false) (hslash : c ≠ '/') :
    IsBare (c :: cs) where
  blank := by simpa using hblank
  line := by
    intro hprefix
    exact hslash (List.cons_prefix_cons.mp hprefix).1.symm
  block := by
    rintro rest ⟨⟩
    exact absurd rfl hslash

theorem isBare_of_isInner {c : Char} {cs : List Char} (hinner : isInner c = true)
    (hslash : c ≠ '/') : IsBare (c :: cs) := by
  have hplain := isPlain_of_isInner hinner
  simp only [isPlain, Bool.and_eq_true, Bool.not_eq_true'] at hplain
  exact isBare_of_head hplain.1.1 hslash

end Lexicon

namespace TokenStream

open Lexicon

theorem isKindOf_of_mem {file : SourceFile} {text : String} {t : Token}
    (h : t ∈ (ofText file text).tokens) (hkind : t.kind ≠ .error) :
    IsKindOf t.lexeme.toList classes t.kind := by
  obtain ⟨rest, htoken⟩ := exists_isToken h
  rcases htoken with hlongest | hstray
  · exact hlongest.kind
  · exact absurd hstray.kind hkind

theorem ofText_single (file : SourceFile) {lexeme : List Char} {kind : TokenKind}
    (hbare : IsBare lexeme) (hkind : IsKindOf lexeme classes kind) :
    ofText file (String.ofList lexeme) =
      ⟨[Token.behind file .start [] kind lexeme],
        Token.behind file (Location.start.advanceAll lexeme) [] .eof []⟩ := by
  have htoken : IsToken kind lexeme [] := .inl ⟨hkind, endsBefore_nil lexeme⟩
  have hnogap := gapLength_of_isBare isBare_nil
  have hlast := scanFrom_last file (Location.start.advanceAll lexeme) hnogap
  have hnext := scanFrom_token file .start nil_mem_gaps (by rwa [List.append_nil]) htoken
  rw [List.nil_append, List.append_nil, List.nil_append, hlast] at hnext
  rw [ofText, String.toList_ofList]
  exact hnext

end TokenStream

end Mixin
