import Mathlib.Computability.Language
import Mathlib.Data.List.TakeWhile
import Mixin.Token.Scan

/-!
# Classes of tokens as languages

Which texts are names, numbers, strings and so on is said here by regular expressions, without
regard to how the head of an input is measured. Every rule of the lexicon measures the longest text
of its class and gives it the kind that the class does (`forall₂_follows`).
-/

namespace Mixin.Lexicon

open Text
open scoped Computability

/-! ### Regular expressions -/

def oneOf (p : Char → Bool) : Language Char := {cs | ∃ c, p c = true ∧ cs = [c]}

def runOf (p : Char → Bool) : Language Char := oneOf p * (oneOf p)∗

theorem mem_kstar_oneOf {p : Char → Bool} {cs : List Char} :
    cs ∈ (oneOf p)∗ ↔ ∀ c ∈ cs, p c = true := by
  constructor
  · rintro ⟨parts, rfl, hparts⟩ c hc
    obtain ⟨part, hpart, hc⟩ := List.mem_flatten.mp hc
    obtain ⟨d, hd, rfl⟩ := hparts part hpart
    rwa [List.mem_singleton.mp hc]
  · intro h
    refine ⟨cs.map fun c => [c], ?_, fun part hpart => ?_⟩
    · rw [← List.flatMap_def, List.flatMap_singleton']
    · obtain ⟨c, hc, rfl⟩ := List.mem_map.mp hpart
      exact ⟨c, h c hc, rfl⟩

theorem mem_runOf {p : Char → Bool} {cs : List Char} :
    cs ∈ runOf p ↔ cs ≠ [] ∧ ∀ c ∈ cs, p c = true := by
  constructor
  · rintro ⟨_, ⟨c, hc, rfl⟩, rest, hrest, rfl⟩
    exact ⟨by simp, by simpa [hc] using mem_kstar_oneOf.mp hrest⟩
  · rintro ⟨hne, hall⟩
    obtain ⟨c, rest, rfl⟩ := List.exists_cons_of_ne_nil hne
    rw [List.forall_mem_cons] at hall
    exact ⟨[c], ⟨c, hall.1, rfl⟩, rest, mem_kstar_oneOf.mpr hall.2, rfl⟩

/-! ### Classes -/

def words : Language Char := oneOf isWordStart * (oneOf isWordContinue)∗

/-- Names that go on as operators behind an underscore. -/
def mixedWords : Language Char := words * oneOf (· == '_') * runOf isOperatorChar

def exponents : Language Char :=
  oneOf (fun c => c == 'e' || c == 'E') * (1 + oneOf fun c => c == '+' || c == '-') *
    runOf Char.isDigit

def floats : Language Char :=
  runOf Char.isDigit * oneOf (· == '.') * runOf Char.isDigit * (1 + exponents)

def ints : Language Char := runOf Char.isDigit * (1 + oneOf fun c => c == 'l' || c == 'L')

/-- What stands for one character between quotes: a character that is neither a quote nor a
backslash, or any one behind a backslash, but never a line feed. -/
def quotable (quote : Char) : Language Char :=
  oneOf (fun c => c != quote && c != '\\' && c != '\n') + oneOf (· == '\\') * oneOf (· != '\n')

def strings : Language Char := oneOf (· == '"') * (quotable '"')∗ * oneOf (· == '"')

def chars : Language Char := oneOf (· == '\x27') * quotable '\x27' * oneOf (· == '\x27')

def operators : Language Char := runOf isOperatorChar

/-- A class of tokens: its texts, and the kind of each of them. -/
structure TokenClass where
  texts : Language Char
  kind : String → TokenKind

def TokenClass.ofSpelling (kind : TokenKind) : TokenClass where
  texts := {cs | kind.spelling? = some (String.ofList cs)}
  kind _ := kind

def classes : List TokenClass :=
  [⟨words, TokenKind.ofWord⟩,
   ⟨mixedWords, fun _ => .identifier⟩,
   ⟨floats, fun _ => .floatLiteral⟩,
   ⟨ints, fun _ => .intLiteral⟩,
   ⟨strings, fun _ => .stringLiteral⟩,
   ⟨chars, fun _ => .charLiteral⟩,
   ⟨operators, TokenKind.ofOperator⟩] ++
  TokenKind.punctuation.map TokenClass.ofSpelling

variable {cs : List Char}

theorem mem_words : cs ∈ words ↔
    ∃ c rest, cs = c :: rest ∧ isWordStart c = true ∧ ∀ d ∈ rest, isWordContinue d = true := by
  constructor
  · rintro ⟨_, ⟨c, hc, rfl⟩, rest, hrest, rfl⟩
    exact ⟨c, rest, rfl, hc, mem_kstar_oneOf.mp hrest⟩
  · rintro ⟨c, rest, rfl, hc, hrest⟩
    exact ⟨[c], ⟨c, hc, rfl⟩, rest, mem_kstar_oneOf.mpr hrest, rfl⟩

theorem mem_mixedWords : cs ∈ mixedWords ↔
    ∃ word operator, cs = word ++ '_' :: operator ∧ word ∈ words ∧ operator ∈ operators := by
  constructor
  · rintro ⟨_, ⟨word, hword, _, ⟨c, hc, rfl⟩, rfl⟩, operator, hoperator, rfl⟩
    rw [beq_iff_eq] at hc
    exact ⟨word, operator, by simp [hc], hword, hoperator⟩
  · rintro ⟨word, operator, rfl, hword, hoperator⟩
    exact ⟨word ++ ['_'], ⟨word, hword, ['_'], ⟨'_', rfl, rfl⟩, rfl⟩, operator, hoperator, by simp⟩

theorem mem_floats : cs ∈ floats ↔
    ∃ whole fraction exponent, cs = whole ++ '.' :: (fraction ++ exponent) ∧
      whole ∈ runOf Char.isDigit ∧ fraction ∈ runOf Char.isDigit ∧
      (exponent = [] ∨ exponent ∈ exponents) := by
  constructor
  · rintro ⟨_, ⟨_, ⟨whole, hwhole, _, ⟨c, hc, rfl⟩, rfl⟩, fraction, hfraction, rfl⟩, exponent,
      hexponent, rfl⟩
    rw [beq_iff_eq] at hc
    exact ⟨whole, fraction, exponent, by simp [hc], hwhole, hfraction, hexponent⟩
  · rintro ⟨whole, fraction, exponent, rfl, hwhole, hfraction, hexponent⟩
    exact ⟨_, ⟨_, ⟨whole, hwhole, ['.'], ⟨'.', rfl, rfl⟩, rfl⟩, fraction, hfraction, rfl⟩, exponent,
      hexponent, by simp⟩

theorem mem_exponents : cs ∈ exponents ↔
    ∃ mark sign digits, cs = mark :: (sign ++ digits) ∧ (mark = 'e' ∨ mark = 'E') ∧
      (sign = [] ∨ sign = ['+'] ∨ sign = ['-']) ∧ digits ∈ runOf Char.isDigit := by
  constructor
  · rintro ⟨_, ⟨_, ⟨mark, hmark, rfl⟩, sign, hsign, rfl⟩, digits, hdigits, rfl⟩
    simp only [Bool.or_eq_true, beq_iff_eq] at hmark
    refine ⟨mark, sign, digits, by simp, hmark, ?_, hdigits⟩
    rcases hsign with hsign | ⟨c, hc, rfl⟩
    · exact Or.inl hsign
    · simpa using hc
  · rintro ⟨mark, sign, digits, rfl, hmark, hsign, hdigits⟩
    refine ⟨mark :: sign, ⟨[mark], ⟨mark, by simpa using hmark, rfl⟩, sign, ?_, rfl⟩, digits,
      hdigits, rfl⟩
    rcases hsign with rfl | rfl | rfl
    · exact Or.inl rfl
    · exact Or.inr ⟨'+', rfl, rfl⟩
    · exact Or.inr ⟨'-', rfl, rfl⟩

theorem mem_ints : cs ∈ ints ↔
    ∃ digits mark, cs = digits ++ mark ∧ digits ∈ runOf Char.isDigit ∧
      (mark = [] ∨ mark = ['l'] ∨ mark = ['L']) := by
  constructor
  · rintro ⟨digits, hdigits, mark, hmark, rfl⟩
    refine ⟨digits, mark, rfl, hdigits, ?_⟩
    rcases hmark with hmark | ⟨c, hc, rfl⟩
    · exact Or.inl hmark
    · simpa using hc
  · rintro ⟨digits, mark, rfl, hdigits, hmark⟩
    refine ⟨digits, hdigits, mark, ?_, rfl⟩
    rcases hmark with rfl | rfl | rfl
    · exact Or.inl rfl
    · exact Or.inr ⟨'l', rfl, rfl⟩
    · exact Or.inr ⟨'L', rfl, rfl⟩

/-! ### Measures -/

/-- `length` measures the longest text of a language at the head of an input. -/
structure Measures (length : List Char → Nat) (texts : Language Char) : Prop where
  found : ∀ input, 0 < length input →
    ∃ text rest, input = text ++ rest ∧ text ∈ texts ∧ text.length = length input
  longest : ∀ text rest, text ∈ texts → text.length ≤ length (text ++ rest)

theorem takeWhile_append_eq {p : Char → Bool} {cs rest : List Char} (hcs : ∀ c ∈ cs, p c = true)
    (hrest : ∀ c ∈ rest.head?, p c = false) : (cs ++ rest).takeWhile p = cs := by
  rw [List.takeWhile_append_of_pos hcs]
  cases rest with
  | nil => simp
  | cons c rest => simp [hrest c rfl]

theorem exists_run {p : Char → Bool} {input : List Char} (h : 0 < (input.takeWhile p).length) :
    ∃ run rest, input = run ++ rest ∧ run ∈ runOf p ∧ ∀ c ∈ rest.head?, p c = false := by
  refine ⟨input.takeWhile p, input.dropWhile p, List.takeWhile_append_dropWhile.symm, ?_, ?_⟩
  · exact mem_runOf.mpr ⟨List.length_pos_iff.mp h, fun c hc => List.mem_takeWhile_imp hc⟩
  · intro c hc
    have hnot := List.head?_dropWhile_not p input
    rwa [hc] at hnot

theorem measures_runOf (p : Char → Bool) :
    Measures (fun input => (input.takeWhile p).length) (runOf p) where
  found input h := by
    obtain ⟨run, rest, rfl, hrun, hrest⟩ := exists_run h
    exact ⟨run, rest, rfl, hrun, by rw [takeWhile_append_eq (mem_runOf.mp hrun).2 hrest]⟩
  longest text rest h := by
    rw [List.takeWhile_append_of_pos (mem_runOf.mp h).2, List.length_append]
    exact Nat.le_add_right ..

theorem digitsLength_append {digits rest : List Char} (h : digits ∈ runOf Char.isDigit)
    (hrest : ∀ c ∈ rest.head?, c.isDigit = false) :
    digitsLength (digits ++ rest) = digits.length := by
  rw [digitsLength, takeWhile_append_eq (mem_runOf.mp h).2 hrest]

theorem isWordStart_of_wordLength {c : Char} {rest : List Char} (h : 0 < wordLength (c :: rest)) :
    isWordStart c = true := by
  rw [wordLength] at h
  split at h
  next hc => exact hc
  next => exact absurd h (Nat.lt_irrefl 0)

theorem wordLength_append {word rest : List Char} (h : word ∈ words)
    (hrest : ∀ c ∈ rest.head?, isWordContinue c = false) :
    wordLength (word ++ rest) = word.length := by
  obtain ⟨c, cs, rfl, hc, hcs⟩ := mem_words.mp h
  rw [List.cons_append, wordLength, if_pos hc, takeWhile_append_eq hcs hrest, List.length_cons]
  omega

theorem measures_words : Measures wordLength words where
  found input h := by
    cases input with
    | nil => exact absurd h (Nat.lt_irrefl 0)
    | cons c rest =>
      have hc := isWordStart_of_wordLength h
      refine ⟨c :: rest.takeWhile isWordContinue, rest.dropWhile isWordContinue, ?_, ?_, ?_⟩
      · rw [List.cons_append, List.takeWhile_append_dropWhile]
      · exact mem_words.mpr ⟨c, _, rfl, hc, fun d hd => List.mem_takeWhile_imp hd⟩
      · rw [wordLength, if_pos hc, List.length_cons]
        omega
  longest text rest h := by
    obtain ⟨c, cs, rfl, hc, hcs⟩ := mem_words.mp h
    rw [List.cons_append, wordLength, if_pos hc, List.takeWhile_append_of_pos hcs,
      List.length_append, List.length_cons]
    omega

theorem mem_words_of_append {cs ds : List Char} (h : cs ++ ds ∈ words) (hne : cs ≠ []) :
    cs ∈ words := by
  obtain ⟨c, rest, rfl⟩ := List.exists_cons_of_ne_nil hne
  obtain ⟨d, others, heq, hd, hothers⟩ := mem_words.mp h
  obtain ⟨rfl, rfl⟩ := List.cons.inj heq
  exact mem_words.mpr ⟨c, rest, rfl, hd, fun e he => hothers e (List.mem_append_left _ he)⟩

theorem append_mem_words {word cs : List Char} (h : word ∈ words)
    (hcs : ∀ c ∈ cs, isWordContinue c = true) : word ++ cs ∈ words := by
  obtain ⟨c, rest, rfl, hc, hrest⟩ := mem_words.mp h
  refine mem_words.mpr ⟨c, rest ++ cs, rfl, hc, fun d hd => ?_⟩
  rcases List.mem_append.mp hd with hd | hd
  · exact hrest d hd
  · exact hcs d hd

theorem isWordContinue_score : isWordContinue '_' = true := by decide

theorem measures_mixedWords : Measures mixedWordLength mixedWords where
  found input h := by
    rw [mixedWordLength] at h ⊢
    split at h
    next hsplit =>
      obtain ⟨hword, hscore, hoperator⟩ := hsplit
      rw [if_pos ⟨hword, hscore, hoperator⟩]
      obtain ⟨word, rest, rfl, hmem, hlength⟩ := measures_words.found input (by omega)
      rw [← hlength] at hword hscore hoperator ⊢
      rw [List.drop_left] at hoperator ⊢
      obtain ⟨operator, after, rfl, hoperators, hend⟩ :=
        (measures_runOf isOperatorChar).found rest hoperator
      rw [List.getElem?_append_left (by omega), ← List.getLast?_eq_getElem?,
        List.getLast?_eq_some_iff] at hscore
      obtain ⟨start, rfl⟩ := hscore
      have hstart : start ≠ [] := by
        rintro rfl
        simp at hword
      refine ⟨start ++ '_' :: operator, after, by simp, ?_, ?_⟩
      · exact mem_mixedWords.mpr ⟨start, operator, rfl, mem_words_of_append hmem hstart, hoperators⟩
      · rw [operatorLength, ← hend]
        simp only [List.length_append, List.length_cons, List.length_nil]
        omega
    next => exact absurd h (Nat.lt_irrefl 0)
  longest text rest h := by
    obtain ⟨word, operator, rfl, hword, hoperator⟩ := mem_mixedWords.mp h
    have hscored : word ++ ['_'] ∈ words :=
      append_mem_words hword (List.forall_mem_singleton.mpr isWordContinue_score)
    have hlength : wordLength ((word ++ ['_']) ++ (operator ++ rest)) = (word ++ ['_']).length := by
      refine wordLength_append hscored fun c hc => isWordContinue_of_isOperatorChar ?_
      obtain ⟨d, others, rfl⟩ := List.exists_cons_of_ne_nil (mem_runOf.mp hoperator).1
      obtain rfl : d = c := by simpa using hc
      exact (mem_runOf.mp hoperator).2 d (List.mem_cons_self ..)
    have hlongest : operator.length ≤ operatorLength (operator ++ rest) :=
      (measures_runOf isOperatorChar).longest operator rest hoperator
    have hpos : 0 < operator.length := List.length_pos_iff.mpr (mem_runOf.mp hoperator).1
    have hne : 0 < word.length := by
      obtain ⟨c, cs, rfl, -⟩ := mem_words.mp hword
      simp
    have hinput : word ++ '_' :: operator ++ rest = (word ++ ['_']) ++ (operator ++ rest) := by simp
    rw [hinput, mixedWordLength, hlength, List.drop_left, if_pos]
    · simp only [List.length_append, List.length_cons, List.length_nil]
      omega
    · refine ⟨by simp only [List.length_append, List.length_cons, List.length_nil]; omega, ?_,
        by omega⟩
      simp

def IsSign (sign rest : List Char) : Prop :=
  sign = ['+'] ∨ sign = ['-'] ∨ sign = [] ∧ ∀ c ∈ rest.head?, c ≠ '+' ∧ c ≠ '-'

theorem exists_isSign (input : List Char) :
    ∃ sign rest, input = sign ++ rest ∧ IsSign sign rest := by
  cases input with
  | nil => exact ⟨[], [], rfl, .inr (.inr ⟨rfl, by simp⟩)⟩
  | cons c rest =>
    by_cases hplus : c = '+'
    · exact ⟨['+'], rest, by simp [hplus], .inl rfl⟩
    · by_cases hminus : c = '-'
      · exact ⟨['-'], rest, by simp [hminus], .inr (.inl rfl)⟩
      · refine ⟨[], c :: rest, rfl, .inr (.inr ⟨rfl, fun d hd => ?_⟩)⟩
        obtain rfl : c = d := by simpa using hd
        exact ⟨hplus, hminus⟩

theorem exponentLength_cons {mark : Char} {sign rest : List Char} (hmark : mark = 'e' ∨ mark = 'E')
    (hsign : IsSign sign rest) :
    exponentLength (mark :: (sign ++ rest)) =
      if 0 < digitsLength rest then 1 + sign.length + digitsLength rest else 0 := by
  rw [exponentLength, if_pos hmark]
  rcases hsign with rfl | rfl | ⟨rfl, hrest⟩
  · simp
  · simp
  · have hhead : ¬ (rest.head? = some '+' ∨ rest.head? = some '-') := by
      rintro (h | h)
      · exact (hrest _ h).1 rfl
      · exact (hrest _ h).2 rfl
    rw [List.nil_append, if_neg hhead]
    simp

theorem measures_exponents : Measures exponentLength exponents where
  found input h := by
    cases input with
    | nil => exact absurd h (Nat.lt_irrefl 0)
    | cons mark rest =>
      by_cases hmark : mark = 'e' ∨ mark = 'E'
      · obtain ⟨sign, rest, rfl, hsign⟩ := exists_isSign rest
        rw [exponentLength_cons hmark hsign] at h ⊢
        split at h
        next hdigits =>
          obtain ⟨digits, after, rfl, hmem, hlength⟩ :=
            (measures_runOf Char.isDigit).found rest hdigits
          rw [if_pos hdigits, digitsLength, ← hlength]
          refine ⟨mark :: (sign ++ digits), after, by simp, ?_, ?_⟩
          · refine mem_exponents.mpr ⟨mark, sign, digits, rfl, hmark, ?_, hmem⟩
            exact hsign.elim (.inr ∘ .inl) (·.elim (.inr ∘ .inr) (.inl ·.1))
          · simp only [List.length_cons, List.length_append]
            omega
        next => exact absurd h (Nat.lt_irrefl 0)
      · rw [exponentLength, if_neg hmark] at h
        exact absurd h (Nat.lt_irrefl 0)
  longest text rest h := by
    obtain ⟨mark, sign, digits, rfl, hmark, hsign, hdigits⟩ := mem_exponents.mp h
    have hlongest : digits.length ≤ digitsLength (digits ++ rest) :=
      (measures_runOf Char.isDigit).longest digits rest hdigits
    have hpos : 0 < digits.length := List.length_pos_iff.mpr (mem_runOf.mp hdigits).1
    have hsigned : IsSign sign (digits ++ rest) := by
      rcases hsign with rfl | rfl | rfl
      · refine .inr (.inr ⟨rfl, fun c hc => ?_⟩)
        obtain ⟨d, others, rfl⟩ := List.exists_cons_of_ne_nil (mem_runOf.mp hdigits).1
        obtain rfl : d = c := by simpa using hc
        have hdigit := (mem_runOf.mp hdigits).2 d (List.mem_cons_self ..)
        constructor <;> rintro rfl <;> cases hdigit
      · exact .inl rfl
      · exact .inr (.inl rfl)
    rw [List.cons_append, List.append_assoc, exponentLength_cons hmark hsigned, if_pos (by omega)]
    simp only [List.length_cons, List.length_append]
    omega

theorem floatLength_append {whole rest : List Char} (hwhole : whole ∈ runOf Char.isDigit) :
    floatLength (whole ++ '.' :: rest) =
      if 0 < digitsLength rest then
        whole.length + 1 + digitsLength rest + exponentLength (rest.drop (digitsLength rest))
      else 0 := by
  have hpos : 0 < whole.length := List.length_pos_iff.mpr (mem_runOf.mp hwhole).1
  have hdigits : digitsLength (whole ++ '.' :: rest) = whole.length :=
    digitsLength_append hwhole (by simp)
  rw [floatLength, hdigits, List.drop_left]
  simp only [hpos, true_and]

theorem exists_of_floatLength {input : List Char} (h : 0 < floatLength input) :
    ∃ whole rest, input = whole ++ '.' :: rest ∧ whole ∈ runOf Char.isDigit := by
  simp only [floatLength] at h
  split at h
  next rest hdrop =>
    split at h
    next hdigits =>
      obtain ⟨whole, others, rfl, hmem, hlength⟩ :=
        (measures_runOf Char.isDigit).found input hdigits.1
      rw [digitsLength, ← hlength, List.drop_left] at hdrop
      exact ⟨whole, rest, by rw [hdrop], hmem⟩
    next => exact absurd h (Nat.lt_irrefl 0)
  next => exact absurd h (Nat.lt_irrefl 0)

theorem measures_floats : Measures floatLength floats where
  found input h := by
    obtain ⟨whole, rest, rfl, hdigits⟩ := exists_of_floatLength h
    rw [floatLength_append hdigits] at h ⊢
    split at h
    next hpos =>
      rw [if_pos hpos]
      obtain ⟨fraction, rest, rfl, hfraction, hend⟩ := (measures_runOf Char.isDigit).found rest hpos
      rw [digitsLength, ← hend, List.drop_left]
      rcases Nat.eq_zero_or_pos (exponentLength rest) with hzero | hexponent
      · refine ⟨whole ++ '.' :: fraction, rest, by simp, ?_, ?_⟩
        · exact mem_floats.mpr ⟨whole, fraction, [], by simp, hdigits, hfraction, .inl rfl⟩
        · simp only [List.length_append, List.length_cons]
          omega
      · obtain ⟨exponent, after, rfl, hmem, hsize⟩ := measures_exponents.found rest hexponent
        refine ⟨whole ++ '.' :: (fraction ++ exponent), after, by simp, ?_, ?_⟩
        · exact mem_floats.mpr ⟨whole, fraction, exponent, rfl, hdigits, hfraction, .inr hmem⟩
        · simp only [List.length_append, List.length_cons]
          omega
    next => exact absurd h (Nat.lt_irrefl 0)
  longest text rest h := by
    obtain ⟨whole, fraction, exponent, rfl, hwhole, hfraction, hexponent⟩ := mem_floats.mp h
    have hinput : whole ++ '.' :: (fraction ++ exponent) ++ rest =
        whole ++ '.' :: (fraction ++ (exponent ++ rest)) := by simp
    have hpos : 0 < fraction.length := List.length_pos_iff.mpr (mem_runOf.mp hfraction).1
    have hlongest : fraction.length ≤ digitsLength (fraction ++ (exponent ++ rest)) :=
      (measures_runOf Char.isDigit).longest fraction _ hfraction
    rw [hinput, floatLength_append hwhole, if_pos (by omega)]
    simp only [List.length_cons, List.length_append]
    rcases hexponent with rfl | hexponent
    · simp only [List.length_nil]
      omega
    · have hdigits : digitsLength (fraction ++ (exponent ++ rest)) = fraction.length := by
        refine digitsLength_append hfraction fun c hc => ?_
        obtain ⟨mark, sign, digits, rfl, hmark, -⟩ := mem_exponents.mp hexponent
        obtain rfl : mark = c := by simpa using hc
        rcases hmark with rfl | rfl <;> rfl
      have hlast := measures_exponents.longest exponent rest hexponent
      rw [hdigits, List.drop_left]
      omega

theorem intLength_append {digits rest : List Char} (h : digits ∈ runOf Char.isDigit)
    (hrest : ∀ c ∈ rest.head?, c.isDigit = false) :
    intLength (digits ++ rest) = if rest.head? = some 'l' ∨ rest.head? = some 'L' then
      digits.length + 1 else digits.length := by
  have hpos : 0 < digits.length := List.length_pos_iff.mpr (mem_runOf.mp h).1
  rw [intLength, digitsLength_append h hrest, if_pos hpos, List.drop_left]
  cases rest with
  | nil => simp
  | cons c rest => simp

theorem digitsLength_le_intLength (input : List Char) : digitsLength input ≤ intLength input := by
  rw [intLength]
  split
  next =>
    split
    · split <;> omega
    · exact Nat.le_refl _
  next h => omega

theorem measures_ints : Measures intLength ints where
  found input h := by
    have hdigits : 0 < digitsLength input := by
      rw [intLength] at h
      split at h
      next hdigits => exact hdigits
      next => exact absurd h (Nat.lt_irrefl 0)
    obtain ⟨digits, rest, rfl, hmem, hrest⟩ := exists_run hdigits
    rw [intLength_append hmem hrest]
    split
    next hmark =>
      obtain ⟨mark, rest, rfl⟩ : ∃ mark others, rest = mark :: others := by
        cases rest with
        | nil => simp at hmark
        | cons mark others => exact ⟨mark, others, rfl⟩
      refine ⟨digits ++ [mark], rest, by simp, ?_, by simp⟩
      exact mem_ints.mpr ⟨digits, [mark], rfl, hmem, .inr (by simpa using hmark)⟩
    next => exact ⟨digits, rest, rfl, mem_ints.mpr ⟨digits, [], by simp, hmem, .inl rfl⟩, rfl⟩
  longest text rest h := by
    obtain ⟨digits, mark, rfl, hdigits, hmark⟩ := mem_ints.mp h
    rcases hmark with rfl | rfl | rfl
    · rw [List.append_nil]
      exact Nat.le_trans ((measures_runOf Char.isDigit).longest digits rest hdigits)
        (digitsLength_le_intLength _)
    · rw [List.append_assoc, intLength_append hdigits (by simp)]
      simp
    · rw [List.append_assoc, intLength_append hdigits (by simp)]
      simp

/-! ### Quotes -/

theorem mem_quotable {quote : Char} : cs ∈ quotable quote ↔
    (∃ c, cs = [c] ∧ c ≠ quote ∧ c ≠ '\\' ∧ c ≠ '\n') ∨ ∃ c, cs = ['\\', c] ∧ c ≠ '\n' := by
  constructor
  · rintro (⟨c, hc, rfl⟩ | ⟨_, ⟨b, hb, rfl⟩, _, ⟨c, hc, rfl⟩, rfl⟩)
    · exact .inl ⟨c, rfl, by simpa [and_assoc] using hc⟩
    · rw [beq_iff_eq] at hb
      exact .inr ⟨c, by rw [hb]; rfl, by simpa using hc⟩
  · rintro (⟨c, rfl, hc⟩ | ⟨c, rfl, hc⟩)
    · exact .inl ⟨c, by simpa [and_assoc] using hc, rfl⟩
    · exact .inr ⟨['\\'], ⟨'\\', rfl, rfl⟩, [c], ⟨c, by simpa using hc, rfl⟩, rfl⟩

theorem mem_between {quote : Char} {inside : Language Char} :
    cs ∈ oneOf (· == quote) * inside * oneOf (· == quote) ↔
      ∃ contents, cs = quote :: (contents ++ [quote]) ∧ contents ∈ inside := by
  constructor
  · rintro ⟨_, ⟨_, ⟨c, hc, rfl⟩, contents, hcontents, rfl⟩, _, ⟨d, hd, rfl⟩, rfl⟩
    rw [beq_iff_eq] at hc hd
    exact ⟨contents, by rw [hc, hd]; rfl, hcontents⟩
  · rintro ⟨contents, rfl, hcontents⟩
    have hquote : [quote] ∈ oneOf (· == quote) := ⟨quote, beq_self_eq_true quote, rfl⟩
    exact ⟨quote :: contents, ⟨[quote], hquote, contents, hcontents, rfl⟩, [quote], hquote, rfl⟩

theorem mem_strings : cs ∈ strings ↔
    ∃ contents, cs = '"' :: (contents ++ ['"']) ∧ contents ∈ (quotable '"')∗ :=
  mem_between

theorem mem_chars : cs ∈ chars ↔
    ∃ contents, cs = '\x27' :: (contents ++ ['\x27']) ∧ contents ∈ quotable '\x27' :=
  mem_between

theorem cons_mem_kstar {texts : Language Char} {text cs : List Char} (h : text ∈ texts)
    (hcs : cs ∈ texts∗) : text ++ cs ∈ texts∗ := by
  obtain ⟨parts, rfl, hparts⟩ := hcs
  exact ⟨text :: parts, rfl, List.forall_mem_cons.mpr ⟨h, hparts⟩⟩

theorem exists_of_stringTailLength {input : List Char} {n : Nat}
    (h : stringTailLength? input = some n) :
    ∃ contents rest, input = contents ++ '"' :: rest ∧ contents ∈ (quotable '"')∗ ∧
      n = contents.length + 1 := by
  fun_induction stringTailLength? input generalizing n with
  | case1 => cases h
  | case2 rest =>
    obtain rfl := Option.some.inj h
    exact ⟨[], rest, rfl, Language.nil_mem_kstar _, rfl⟩
  | case3 => cases h
  | case4 => cases h
  | case5 => cases h
  | case6 c rest hc ih =>
    obtain ⟨m, hm, rfl⟩ := Option.map_eq_some_iff.mp h
    obtain ⟨contents, rest, rfl, hcontents, rfl⟩ := ih hm
    refine ⟨['\\', c] ++ contents, rest, rfl, cons_mem_kstar ?_ hcontents, rfl⟩
    exact mem_quotable.mpr (.inr ⟨c, rfl, hc⟩)
  | case7 c rest hquote hfeed hlast hslash ih =>
    obtain ⟨m, hm, rfl⟩ := Option.map_eq_some_iff.mp h
    obtain ⟨contents, rest, rfl, hcontents, rfl⟩ := ih hm
    refine ⟨[c] ++ contents, rest, rfl, cons_mem_kstar ?_ hcontents, rfl⟩
    have hplain : c ≠ '\\' := fun hc => by
      cases hrest : contents ++ '"' :: rest with
      | nil => exact hlast hc hrest
      | cons d others => exact hslash d others hc hrest
    exact mem_quotable.mpr (.inl ⟨c, rfl, hquote, hplain, hfeed⟩)

theorem stringTailLength?_plain {c : Char} (hquote : c ≠ '"') (hslash : c ≠ '\\') (hfeed : c ≠ '\n')
    (rest : List Char) :
    stringTailLength? (c :: rest) = (stringTailLength? rest).map (· + 1) := by
  rw [stringTailLength?]
  · exact hquote
  · exact hfeed
  · exact fun h => absurd h hslash
  · exact fun _ _ h => absurd h hslash

theorem stringTailLength?_escaped {c : Char} (hfeed : c ≠ '\n') (rest : List Char) :
    stringTailLength? ('\\' :: c :: rest) = (stringTailLength? rest).map (· + 2) := by
  rw [stringTailLength?, if_neg hfeed]

theorem stringTailLength?_append {contents : List Char} (h : contents ∈ (quotable '"')∗)
    (rest : List Char) :
    stringTailLength? (contents ++ '"' :: rest) = some (contents.length + 1) := by
  obtain ⟨parts, rfl, hparts⟩ := h
  induction parts with
  | nil => rfl
  | cons part parts ih =>
    rw [List.forall_mem_cons] at hparts
    have htail := ih hparts.2
    rcases mem_quotable.mp hparts.1 with ⟨c, rfl, hquote, hslash, hfeed⟩ | ⟨c, rfl, hfeed⟩
    · simp only [List.flatten_cons, List.cons_append, List.nil_append, List.length_cons]
      rw [stringTailLength?_plain hquote hslash hfeed, htail]
      rfl
    · simp only [List.flatten_cons, List.cons_append, List.nil_append, List.length_cons]
      rw [stringTailLength?_escaped hfeed, htail]
      rfl

theorem stringLength_append {text : List Char} (h : text ∈ strings) (rest : List Char) :
    stringLength (text ++ rest) = text.length := by
  obtain ⟨contents, rfl, hcontents⟩ := mem_strings.mp h
  have htail := stringTailLength?_append hcontents rest
  have hinput : '"' :: (contents ++ ['"']) ++ rest = '"' :: (contents ++ '"' :: rest) := by simp
  rw [hinput, stringLength, htail]
  simp

theorem measures_strings : Measures stringLength strings where
  found input h := by
    revert h
    fun_cases stringLength input with
    | case1 rest =>
      intro h
      cases htail : stringTailLength? rest with
      | none => simp [htail] at h
      | some n =>
        obtain ⟨contents, after, rfl, hcontents, rfl⟩ := exists_of_stringTailLength htail
        exact ⟨'"' :: (contents ++ ['"']), after, by simp,
          mem_strings.mpr ⟨contents, rfl, hcontents⟩, by simp⟩
    | case2 => exact fun h => absurd h (Nat.lt_irrefl 0)
  longest text rest h := (stringLength_append h rest).ge

theorem charLength_append {text : List Char} (h : text ∈ chars) (rest : List Char) :
    charLength (text ++ rest) = text.length := by
  obtain ⟨contents, rfl, hcontents⟩ := mem_chars.mp h
  rcases mem_quotable.mp hcontents with ⟨c, rfl, hquote, hslash, hfeed⟩ | ⟨c, rfl, hfeed⟩
  · simp [charLength, hquote, hslash, hfeed]
  · simp [charLength, hfeed]

theorem measures_chars : Measures charLength chars where
  found input h := by
    revert h
    fun_cases charLength input with
    | case1 => exact fun h => absurd h (Nat.lt_irrefl 0)
    | case2 c rest hfeed =>
      refine fun _ => ⟨['\x27', '\\', c, '\x27'], rest, rfl, ?_, rfl⟩
      exact mem_chars.mpr ⟨['\\', c], rfl, mem_quotable.mpr (.inr ⟨c, rfl, hfeed⟩)⟩
    | case3 => exact fun h => absurd h (Nat.lt_irrefl 0)
    | case4 c rest _ hplain =>
      rw [not_or, not_or] at hplain
      refine fun _ => ⟨['\x27', c, '\x27'], rest, rfl, ?_, rfl⟩
      exact mem_chars.mpr ⟨[c], rfl, mem_quotable.mpr (.inl ⟨c, rfl, hplain⟩)⟩
    | case5 => exact fun h => absurd h (Nat.lt_irrefl 0)
  longest text rest h := (charLength_append h rest).ge

/-! ### Rules -/

/-- A rule of the lexicon and a class of tokens that say the same. -/
def LexicalRule.Follows (rule : LexicalRule) (cls : TokenClass) : Prop :=
  Measures rule.length cls.texts ∧ rule.kind = cls.kind

theorem follows_ofSpelling (kind : TokenKind) :
    (LexicalRule.ofSpelling kind).Follows (TokenClass.ofSpelling kind) := by
  refine ⟨⟨fun input h => ?_, fun text rest h => ?_⟩, rfl⟩
  · simp only [LexicalRule.ofSpelling] at h ⊢
    cases hspelling : kind.spelling? with
    | none => simp [hspelling] at h
    | some text =>
      simp only [hspelling] at h ⊢
      split at h
      next hprefix =>
        obtain ⟨rest, rfl⟩ := List.isPrefixOf_iff_prefix.mp hprefix
        rw [if_pos hprefix]
        refine ⟨text.toList, rest, rfl, ?_, String.length_toList⟩
        show kind.spelling? = some (String.ofList text.toList)
        rw [hspelling, String.ofList_toList]
      next => exact absurd h (Nat.lt_irrefl 0)
  · have hspelling : kind.spelling? = some (String.ofList text) := h
    simp [LexicalRule.ofSpelling, hspelling]

theorem forall₂_follows : List.Forall₂ LexicalRule.Follows rules classes := by
  refine List.rel_append (.cons ⟨measures_words, rfl⟩ (.cons ⟨measures_mixedWords, rfl⟩
    (.cons ⟨measures_floats, rfl⟩ (.cons ⟨measures_ints, rfl⟩ (.cons ⟨measures_strings, rfl⟩
    (.cons ⟨measures_chars, rfl⟩ (.cons ⟨measures_runOf isOperatorChar, rfl⟩ .nil))))))) ?_
  rw [List.forall₂_map_left_iff, List.forall₂_map_right_iff, List.forall₂_same]
  exact fun kind _ => follows_ofSpelling kind

end Mixin.Lexicon
