import Mixin.Proofs.Token.Matches

/-!
# Where tokens end

Apart from strings and characters in quotes, which end with their quotes whatever follows, a token
holds neither blanks nor quotes. So a token stays what it is if a blank is put somewhere behind it
(`EndsBefore.insert_blank`), and also if a slash is, unless it runs on into the slash
(`EndsBefore.insert_slash`).
-/

namespace Mixin

namespace Text

def Ranges.chars (ranges : Ranges) : List Char :=
  ranges.flatMap fun r => (List.range' r.1 (r.2 + 1 - r.1)).map Char.ofNat

theorem Ranges.mem_chars {ranges : Ranges} {c : Char} (h : ranges.contains c = true) :
    c ∈ ranges.chars := by
  obtain ⟨r, hr, hlow, hhigh⟩ := contains_iff.mp h
  refine List.mem_flatMap.mpr ⟨r, hr, List.mem_map.mpr ⟨c.toNat, ?_, Char.ofNat_toNat c⟩⟩
  rw [List.mem_range'_1]
  omega

end Text

namespace Lexicon

variable {text : List Char} {kind : TokenKind}

open Text

/-! ### Plain characters -/

/-- Neither white space nor a quote. -/
def isPlain (c : Char) : Bool := !isBlank c && c != '"' && c != '\x27'

def isNumeral (c : Char) : Bool := c.isDigit || ['.', 'e', 'E', '+', '-', 'l', 'L'].contains c

/-- Characters of which names, operators and numbers are made. -/
def isInner (c : Char) : Bool :=
  isWordStart c || isWordContinue c || isOperatorChar c || isNumeral c

theorem isPlain_of_isInner {c : Char} (h : isInner c = true) : isPlain c = true := by
  have hall : (blankTable.chars ++ ['"', '\x27']).all (fun c => !isInner c) = true := by
    decide +kernel
  have hnot : c ∉ blankTable.chars ++ ['"', '\x27'] := by
    intro hc
    have hinner := List.all_eq_true.mp hall c hc
    simp [h] at hinner
  simp only [List.mem_append, List.mem_cons, List.not_mem_nil, or_false, not_or] at hnot
  obtain ⟨hblank, hdouble, hsingle⟩ := hnot
  have hc : isBlank c = false := by
    rw [← Bool.not_eq_true]
    exact fun hc => hblank (Ranges.mem_chars hc)
  simp [isPlain, hc, hdouble, hsingle]

theorem isNumeral_of_mem_runOf {digits : List Char} (h : digits ∈ runOf Char.isDigit) :
    ∀ c ∈ digits, isNumeral c = true := by
  intro c hc
  simp [isNumeral, (mem_runOf.mp h).2 c hc]

theorem isNumeral_of_mem_floats (h : text ∈ floats) : ∀ c ∈ text, isNumeral c = true := by
  obtain ⟨whole, fraction, exponent, rfl, hwhole, hfraction, hexponent⟩ := mem_floats.mp h
  have hdigits : ∀ c ∈ exponent, isNumeral c = true := by
    rcases hexponent with rfl | hexponent
    · simp
    · obtain ⟨mark, sign, digits, rfl, hmark, hsign, hdigits⟩ := mem_exponents.mp hexponent
      rw [List.forall_mem_cons, List.forall_mem_append]
      refine ⟨?_, ?_, isNumeral_of_mem_runOf hdigits⟩
      · rcases hmark with rfl | rfl <;> simp [isNumeral]
      · rcases hsign with rfl | rfl | rfl <;> simp [isNumeral]
  rw [List.forall_mem_append, List.forall_mem_cons, List.forall_mem_append]
  exact ⟨isNumeral_of_mem_runOf hwhole, by simp [isNumeral], isNumeral_of_mem_runOf hfraction,
    hdigits⟩

theorem isNumeral_of_mem_ints (h : text ∈ ints) : ∀ c ∈ text, isNumeral c = true := by
  obtain ⟨digits, mark, rfl, hdigits, hmark⟩ := mem_ints.mp h
  rw [List.forall_mem_append]
  refine ⟨isNumeral_of_mem_runOf hdigits, ?_⟩
  rcases hmark with rfl | rfl | rfl <;> simp [isNumeral]

theorem isInner_of_mem_words (h : text ∈ words) : ∀ c ∈ text, isInner c = true := by
  obtain ⟨c, rest, rfl, hc, hrest⟩ := mem_words.mp h
  refine List.forall_mem_cons.mpr ⟨by simp [isInner, hc], fun d hd => ?_⟩
  simp [isInner, hrest d hd]

theorem isInner_of_mem_operators (h : text ∈ operators) : ∀ c ∈ text, isInner c = true := by
  intro c hc
  simp [isInner, (mem_runOf.mp h).2 c hc]

theorem isInner_of_mem_mixedWords (h : text ∈ mixedWords) : ∀ c ∈ text, isInner c = true := by
  obtain ⟨word, operator, rfl, hword, hoperator⟩ := mem_mixedWords.mp h
  rw [List.forall_mem_append, List.forall_mem_cons]
  exact ⟨isInner_of_mem_words hword, by simp [isInner, isWordContinue_score],
    isInner_of_mem_operators hoperator⟩

theorem isInner_of_isNumeral {c : Char} (h : isNumeral c = true) : isInner c = true := by
  simp [isInner, h]

theorem exists_of_mem_ofSpelling (hkind : kind ∈ TokenKind.punctuation)
    (h : text ∈ (TokenClass.ofSpelling kind).texts) :
    ∃ c, text = [c] ∧ isPlain c = true := by
  have hall : ∀ kind ∈ TokenKind.punctuation, ∀ s ∈ kind.spelling?,
      s.toList.length = 1 ∧ s.toList.all isPlain = true := by
    decide +kernel
  obtain ⟨hlength, hplain⟩ := hall kind hkind _ h
  rw [String.toList_ofList] at hlength hplain
  obtain ⟨c, rfl⟩ := List.length_eq_one_iff.mp hlength
  exact ⟨c, rfl, by simpa using hplain⟩

theorem isInner_of_mem_classes {cls : TokenClass} (hcls : cls ∈ classes) :
    (cls.texts = strings ∨ cls.texts = chars) ∨
      (∀ text ∈ cls.texts, ∀ c ∈ text, isInner c = true) ∨
      ∀ text ∈ cls.texts, ∃ c, text = [c] ∧ isPlain c = true := by
  rcases cases_of_mem_classes hcls with hcls | ⟨kind, hkind, rfl⟩
  · rcases hcls with hcls | hcls | hcls | hcls | hcls | hcls | hcls
    · exact .inr (.inl fun text h => isInner_of_mem_words (hcls ▸ h))
    · exact .inr (.inl fun text h => isInner_of_mem_mixedWords (hcls ▸ h))
    · exact .inr (.inl fun text h c hc => isInner_of_isNumeral
        (isNumeral_of_mem_floats (hcls ▸ h) c hc))
    · exact .inr (.inl fun text h c hc => isInner_of_isNumeral
        (isNumeral_of_mem_ints (hcls ▸ h) c hc))
    · exact .inl (.inl hcls)
    · exact .inl (.inr hcls)
    · exact .inr (.inl fun text h => isInner_of_mem_operators (hcls ▸ h))
  · exact .inr (.inr fun text h => exists_of_mem_ofSpelling hkind h)

theorem isPlain_of_mem_classes {cls : TokenClass} (hcls : cls ∈ classes) :
    cls.texts = strings ∨ cls.texts = chars ∨ ∀ text ∈ cls.texts, ∀ c ∈ text, isPlain c = true := by
  rcases isInner_of_mem_classes hcls with hquoted | hinner | hmark
  · exact hquoted.imp_right .inl
  · exact .inr (.inr fun text h c hc => isPlain_of_isInner (hinner text h c hc))
  · refine .inr (.inr fun text h => ?_)
    obtain ⟨c, rfl, hc⟩ := hmark text h
    simpa using hc

/-! ### Lines -/

theorem feed_not_mem_quotable {quote : Char} {cs : List Char} (h : cs ∈ quotable quote) :
    '\n' ∉ cs := by
  rcases mem_quotable.mp h with ⟨c, rfl, -, -, hfeed⟩ | ⟨c, rfl, hfeed⟩
  · simpa using hfeed.symm
  · simpa using hfeed.symm

theorem feed_not_mem {cls : TokenClass} (hcls : cls ∈ classes) (h : text ∈ cls.texts) :
    '\n' ∉ text := by
  rcases isPlain_of_mem_classes hcls with hcls | hcls | hplain
  · obtain ⟨contents, rfl, parts, rfl, hparts⟩ := mem_strings.mp (hcls ▸ h)
    have hcontents : '\n' ∉ parts.flatten := by
      rw [List.mem_flatten]
      rintro ⟨part, hpart, hfeed⟩
      exact feed_not_mem_quotable (hparts part hpart) hfeed
    simp [hcontents]
  · obtain ⟨contents, rfl, hcontents⟩ := mem_chars.mp (hcls ▸ h)
    simp [feed_not_mem_quotable hcontents]
  · intro hfeed
    have hblank := hplain text h _ hfeed
    simp [isPlain, isBlank_of_isWhitespace (rfl : '\n'.isWhitespace = true)] at hblank

/-! ### What can follow -/

theorem endsBefore_nil (lexeme : List Char) : EndsBefore lexeme [] :=
  fun _ _ _ hmore _ => List.prefix_nil.mp hmore

theorem eq_nil_of_mem_strings {text more : List Char} (h : text ∈ strings)
    (hmore : text ++ more ∈ strings) : more = [] := by
  have hshort := stringLength_append h more
  have hlong := stringLength_append hmore []
  rw [List.append_nil, hshort, List.length_append] at hlong
  exact List.length_eq_zero_iff.mp (by omega)

theorem eq_nil_of_mem_chars {text more : List Char} (h : text ∈ chars)
    (hmore : text ++ more ∈ chars) : more = [] := by
  have hshort := charLength_append h more
  have hlong := charLength_append hmore []
  rw [List.append_nil, hshort, List.length_append] at hlong
  exact List.length_eq_zero_iff.mp (by omega)

theorem head?_of_mem_strings (h : text ∈ strings) : text.head? = some '"' := by
  obtain ⟨contents, rfl, -⟩ := mem_strings.mp h
  rfl

theorem head?_of_mem_chars (h : text ∈ chars) : text.head? = some '\x27' := by
  obtain ⟨contents, rfl, -⟩ := mem_chars.mp h
  rfl

/-- A token in quotes ends with its quote whatever follows, and any other goes on to plain
characters only. -/
theorem endsBefore_or_isPlain {lexeme : List Char} (h : IsKindOf lexeme classes kind) :
    (∀ rest, EndsBefore lexeme rest) ∨
      ∀ cls ∈ classes, ∀ more, lexeme ++ more ∈ cls.texts →
        ∀ c ∈ lexeme ++ more, isPlain c = true := by
  obtain ⟨cls, hcls, hlexeme, -⟩ := h.exists_class
  obtain ⟨c, rest, rfl⟩ := List.exists_cons_of_ne_nil (ne_nil_of_mem_classes hcls hlexeme)
  -- The first character tells which of the three sorts of class can have the token or more.
  have hstring {more : List Char} (hmore : c :: rest ++ more ∈ strings) : c = '"' :=
    Option.some.inj (head?_of_mem_strings hmore)
  have hchar {more : List Char} (hmore : c :: rest ++ more ∈ chars) : c = '\x27' :=
    Option.some.inj (head?_of_mem_chars hmore)
  rcases isPlain_of_mem_classes hcls with heq | heq | hplain
  · rw [heq] at hlexeme
    obtain rfl := Option.some.inj (head?_of_mem_strings hlexeme)
    refine .inl fun after cls' hcls' more _ hmore => ?_
    rcases isPlain_of_mem_classes hcls' with heq' | heq' | hplain'
    · exact eq_nil_of_mem_strings hlexeme (heq' ▸ hmore)
    · exact absurd (hchar (heq' ▸ hmore)) (by decide)
    · exact absurd (hplain' _ hmore '"' (by simp)) (by simp [isPlain])
  · rw [heq] at hlexeme
    obtain rfl := Option.some.inj (head?_of_mem_chars hlexeme)
    refine .inl fun after cls' hcls' more _ hmore => ?_
    rcases isPlain_of_mem_classes hcls' with heq' | heq' | hplain'
    · exact absurd (hstring (heq' ▸ hmore)) (by decide)
    · exact eq_nil_of_mem_chars hlexeme (heq' ▸ hmore)
    · exact absurd (hplain' _ hmore '\x27' (by simp)) (by simp [isPlain])
  · have hc := hplain _ hlexeme c (by simp)
    refine .inr fun cls' hcls' more hmore d hd => ?_
    rcases isPlain_of_mem_classes hcls' with heq' | heq' | hplain'
    · rw [hstring (heq' ▸ hmore)] at hc
      simp [isPlain] at hc
    · rw [hchar (heq' ▸ hmore)] at hc
      simp [isPlain] at hc
    · exact hplain' _ hmore d hd

theorem EndsBefore.insert {lexeme kept rest rest' : List Char}
    (h : EndsBefore lexeme (kept ++ rest))
    (hmore : ∀ cls ∈ classes, ∀ more, more <+: rest' → lexeme ++ (kept ++ more) ∈ cls.texts →
      kept ++ more = []) :
    EndsBefore lexeme (kept ++ rest') := by
  intro cls hcls more hprefix htext
  rcases List.prefix_or_prefix_of_prefix hprefix (List.prefix_append kept rest') with hle | hle
  · exact h cls hcls more (hle.trans (List.prefix_append ..)) htext
  · obtain ⟨more, rfl⟩ := hle
    exact hmore cls hcls more ((List.prefix_append_right_inj kept).mp hprefix) htext

theorem EndsBefore.insert_blank {lexeme kept rest : List Char}
    (h : EndsBefore lexeme (kept ++ rest)) (hkind : IsKindOf lexeme classes kind) {b : Char}
    (hb : isBlank b = true) (rest' : List Char) : EndsBefore lexeme (kept ++ b :: rest') := by
  rcases endsBefore_or_isPlain hkind with hends | hplain
  · exact hends _
  · refine h.insert fun cls hcls more hmore htext => ?_
    cases more with
    | nil =>
      rw [List.append_nil] at htext ⊢
      exact h cls hcls kept (List.prefix_append ..) htext
    | cons c more =>
      obtain ⟨rfl, -⟩ := List.cons_prefix_cons.mp hmore
      have hc := hplain cls hcls _ htext c (by simp)
      simp [isPlain, hb] at hc

theorem endsBefore_blank {lexeme : List Char} (h : IsKindOf lexeme classes kind) {b : Char}
    (hb : isBlank b = true) (rest : List Char) : EndsBefore lexeme (b :: rest) := by
  have hnil : EndsBefore lexeme ([] ++ []) := endsBefore_nil lexeme
  exact hnil.insert_blank h hb rest

/-! ### Slashes -/

/-- Whether a slash right behind a text is taken for a part of it: behind an operator, and behind a
name that ends in an underscore. -/
def runsOn (text : List Char) : Bool :=
  text.getLast?.any fun c => isOperatorChar c || (c == '_' && decide (2 ≤ text.length))

theorem runsOn_of_mem_operators (cs : List Char) (h : text ∈ operators) :
    runsOn (cs ++ text) = true := by
  obtain ⟨hne, hall⟩ := mem_runOf.mp h
  have hlast : isOperatorChar (text.getLast hne) = true := hall _ (List.getLast_mem hne)
  rw [runsOn, List.getLast?_append_of_ne_nil _ hne, List.getLast?_eq_getLast_of_ne_nil hne]
  simp [hlast]

theorem runsOn_of_mem_words {word : List Char} (h : word ∈ words) :
    runsOn (word ++ ['_']) = true := by
  obtain ⟨c, rest, rfl, -⟩ := mem_words.mp h
  rw [runsOn, List.getLast?_concat]
  simp

theorem slash_not_mem_words (h : text ∈ words) : '/' ∉ text := by
  obtain ⟨c, rest, rfl, hc, hrest⟩ := mem_words.mp h
  rw [List.mem_cons, not_or]
  constructor
  · rintro rfl
    exact absurd hc (by decide +kernel)
  · intro hslash
    have hcontinue := hrest _ hslash
    rw [isWordContinue_of_isOperatorChar rfl] at hcontinue
    cases hcontinue

theorem exists_of_append_slash_mem_mixedWords {text rest : List Char}
    (h : text ++ '/' :: rest ∈ mixedWords) : ∃ word operator, text = word ++ '_' :: operator ∧
      word ∈ words ∧ ∀ c ∈ operator, isOperatorChar c = true := by
  obtain ⟨word, operator, heq, hword, hoperator⟩ := mem_mixedWords.mp h
  rcases List.append_eq_append_iff.mp heq with ⟨more, rfl, hmore⟩ | ⟨more, rfl, hmore⟩
  · cases more with
    | nil => cases hmore
    | cons c more =>
      obtain ⟨rfl, -⟩ := List.cons.inj hmore
      exact absurd (by simp) (slash_not_mem_words hword)
  · cases more with
    | nil => cases hmore
    | cons c more =>
      obtain ⟨rfl, rfl⟩ := List.cons.inj hmore
      exact ⟨word, more, rfl, hword, fun d hd => (mem_runOf.mp hoperator).2 d (by simp [hd])⟩

theorem runsOn_of_append_slash {cls : TokenClass} (hcls : cls ∈ classes) {text rest : List Char}
    (hne : text ≠ []) (hplain : ∀ c ∈ text, isPlain c = true)
    (h : text ++ '/' :: rest ∈ cls.texts) :
    runsOn text = true ∧ ∃ cls' ∈ classes, text ∈ cls'.texts := by
  obtain ⟨c, cs, rfl⟩ := List.exists_cons_of_ne_nil hne
  have hc := hplain c (by simp)
  have hslash : '/' ∈ c :: cs ++ '/' :: rest := by simp
  rcases cases_of_mem_classes hcls with htexts | ⟨kind, hkind, rfl⟩
  · rcases htexts with htexts | htexts | htexts | htexts | htexts | htexts | htexts <;>
      rw [htexts] at h
    · exact absurd hslash (slash_not_mem_words h)
    -- Without the slash a name that goes on as an operator can be a plain name with a score.
    · obtain ⟨word, operator, heq, hword, hoperator⟩ := exists_of_append_slash_mem_mixedWords h
      rw [heq]
      cases operator with
      | nil =>
        exact ⟨runsOn_of_mem_words hword, ⟨words, _⟩, List.mem_cons_self ..,
          append_mem_words hword (List.forall_mem_singleton.mpr isWordContinue_score)⟩
      | cons d operator =>
        have hmem : d :: operator ∈ operators := mem_runOf.mpr ⟨by simp, hoperator⟩
        have hruns := runsOn_of_mem_operators (word ++ ['_']) hmem
        rw [List.append_assoc] at hruns
        exact ⟨hruns, ⟨mixedWords, _⟩, List.mem_cons_of_mem _ (List.mem_cons_self ..),
          mem_mixedWords.mpr ⟨word, _, rfl, hword, hmem⟩⟩
    · exact absurd (isNumeral_of_mem_floats h _ hslash) (by simp [isNumeral])
    · exact absurd (isNumeral_of_mem_ints h _ hslash) (by simp [isNumeral])
    · obtain rfl := Option.some.inj (head?_of_mem_strings h)
      simp [isPlain] at hc
    · obtain rfl := Option.some.inj (head?_of_mem_chars h)
      simp [isPlain] at hc
    · have hmem : c :: cs ∈ operators :=
        mem_runOf.mpr ⟨hne, fun d hd => (mem_runOf.mp h).2 d (List.mem_append_left _ hd)⟩
      exact ⟨runsOn_of_mem_operators [] hmem, cls, hcls, htexts ▸ hmem⟩
  · obtain ⟨d, heq, -⟩ := exists_of_mem_ofSpelling hkind h
    simp at heq

/-- A token stays as it is if a slash is put anywhere behind it, but right behind it only if it does
not run on. -/
theorem EndsBefore.insert_slash {lexeme kept rest : List Char}
    (h : EndsBefore lexeme (kept ++ rest)) (hkind : IsKindOf lexeme classes kind)
    (hruns : kept = [] → runsOn lexeme = false) (rest' : List Char) :
    EndsBefore lexeme (kept ++ '/' :: rest') := by
  rcases endsBefore_or_isPlain hkind with hends | hplain
  · exact hends _
  · refine h.insert fun cls hcls more hmore htext => ?_
    cases more with
    | nil =>
      rw [List.append_nil] at htext ⊢
      exact h cls hcls kept (List.prefix_append ..) htext
    | cons c more =>
      obtain ⟨rfl, -⟩ := List.cons_prefix_cons.mp hmore
      obtain ⟨own, hown, hlexeme, -⟩ := hkind.exists_class
      have hall := hplain cls hcls _ htext
      rw [← List.append_assoc] at htext hall
      obtain ⟨hruns', cls', hcls', hmem⟩ := runsOn_of_append_slash hcls
        (List.append_ne_nil_of_left_ne_nil (ne_nil_of_mem_classes hown hlexeme) kept)
        (fun d hd => hall d (List.mem_append_left _ hd)) htext
      -- What comes before the slash was a token already, so it is the lexeme alone.
      obtain rfl := h cls' hcls' kept (List.prefix_append ..) hmem
      rw [List.append_nil, hruns rfl] at hruns'
      cases hruns'

end Lexicon

end Mixin
