import Mixin.Proofs.Token.Classes

/-!
# The token at the head of an input

Of all texts of all classes with which an input begins, the token is the longest, and its kind is
that of the first class which has it. If an input begins with no text of any class, the token is its
first character, an erroneous one (`exists_of_tokenAt`). Conversely a text is the token wherever it
stands before something into which no class goes on (`tokenAt_append`).
-/

namespace Mixin.Lexicon

open Text

/-- The kind of a text is that which the first class that has it gives it. -/
inductive IsKindOf (text : List Char) : List TokenClass → TokenKind → Prop where
  | head {cls : TokenClass} (h : text ∈ cls.texts) (cs : List TokenClass) :
    IsKindOf text (cls :: cs) (cls.kind (String.ofList text))
  | tail {cls : TokenClass} {cs : List TokenClass} {kind : TokenKind} (h : text ∉ cls.texts)
    (hrest : IsKindOf text cs kind) : IsKindOf text (cls :: cs) kind

/-- No class has a text that goes on from `lexeme` into `rest`. -/
def EndsBefore (lexeme rest : List Char) : Prop :=
  ∀ cls ∈ classes, ∀ more, more <+: rest → lexeme ++ more ∈ cls.texts → more = []

/-- `lexeme` is the longest text of any class with which `lexeme ++ rest` begins. -/
structure IsLongest (kind : TokenKind) (lexeme rest : List Char) : Prop where
  kind : IsKindOf lexeme classes kind
  ends : EndsBefore lexeme rest

/-- `lexeme` is a character, and `lexeme ++ rest` begins with no text of any class. -/
structure IsStray (kind : TokenKind) (lexeme rest : List Char) : Prop where
  kind : kind = .error
  single : ∃ c, lexeme = [c]
  none : ∀ cls ∈ classes, ∀ text ∈ cls.texts, ¬ text <+: lexeme ++ rest

/-- `lexeme` is the token at the head of `lexeme ++ rest`. -/
def IsToken (kind : TokenKind) (lexeme rest : List Char) : Prop :=
  IsLongest kind lexeme rest ∨ IsStray kind lexeme rest

/-! ### Kinds -/

theorem IsKindOf.unique {text : List Char} {cs : List TokenClass} {kind kind' : TokenKind}
    (h : IsKindOf text cs kind) (h' : IsKindOf text cs kind') : kind = kind' := by
  induction h with
  | head h cs =>
    cases h' with
    | head => rfl
    | tail hnot => exact absurd h hnot
  | tail hnot _ ih =>
    cases h' with
    | head h => exact absurd h hnot
    | tail _ hrest => exact ih hrest

theorem IsKindOf.exists_class {text : List Char} {cs : List TokenClass} {kind : TokenKind}
    (h : IsKindOf text cs kind) :
    ∃ cls ∈ cs, text ∈ cls.texts ∧ kind = cls.kind (String.ofList text) := by
  induction h with
  | head h cs => exact ⟨_, List.mem_cons_self .., h, rfl⟩
  | tail _ _ ih =>
    obtain ⟨cls, hcls, htext⟩ := ih
    exact ⟨cls, List.mem_cons_of_mem _ hcls, htext⟩

/-! ### Texts of kinds -/

theorem ofWord_eq_or_mem (text : String) :
    TokenKind.ofWord text = .identifier ∨ TokenKind.ofWord text ∈ TokenKind.reservedWords := by
  rw [TokenKind.ofWord]
  cases hfind : TokenKind.reservedWords.find? (·.spelling? == some text) with
  | none => exact .inl rfl
  | some kind => exact .inr (List.mem_of_find?_eq_some hfind)

theorem ofOperator_eq_or_mem (text : String) : TokenKind.ofOperator text = .operator ∨
    TokenKind.ofOperator text ∈ TokenKind.reservedOperators := by
  rw [TokenKind.ofOperator]
  cases hfind : TokenKind.reservedOperators.find? (·.spelling? == some text) with
  | none => exact .inl rfl
  | some kind => exact .inr (List.mem_of_find?_eq_some hfind)

/-- The texts that tokens of a kind may have, as far as they are restricted by their class. -/
def textsOf : TokenKind → Language Char
  | .identifier => words + mixedWords
  | .stringLiteral => strings
  | .charLiteral => chars
  | .operator => operators
  | .eof => 0
  | _ => ⊤

theorem textsOf_of_mem {kinds : List TokenKind} {kind : TokenKind} (h : kind ∈ kinds)
    (hkinds : kinds.all (fun k => !k.isVaried && k != .eof) = true) : textsOf kind = ⊤ := by
  have hplain := List.all_eq_true.mp hkinds kind h
  unfold textsOf
  split
  · cases hplain
  · cases hplain
  · cases hplain
  · cases hplain
  · cases hplain
  · rfl

theorem IsKindOf.mem_textsOf {text : List Char} {kind : TokenKind}
    (h : IsKindOf text classes kind) : text ∈ textsOf kind := by
  obtain ⟨cls, hcls, htext, rfl⟩ := h.exists_class
  have htop : text ∈ (⊤ : Language Char) := Set.mem_univ text
  rcases List.mem_append.mp hcls with hcls | hcls
  · simp only [List.mem_cons, List.not_mem_nil, or_false] at hcls
    rcases hcls with rfl | rfl | rfl | rfl | rfl | rfl | rfl
    · show text ∈ textsOf (TokenKind.ofWord _)
      rcases ofWord_eq_or_mem (String.ofList text) with heq | hmem
      · rw [heq]
        exact .inl htext
      · rw [textsOf_of_mem hmem (by decide)]
        exact htop
    · exact .inr htext
    · exact htop
    · exact htop
    · exact htext
    · exact htext
    · show text ∈ textsOf (TokenKind.ofOperator _)
      rcases ofOperator_eq_or_mem (String.ofList text) with heq | hmem
      · rw [heq]
        exact htext
      · rw [textsOf_of_mem hmem (by decide)]
        exact htop
  · obtain ⟨kind, hkind, rfl⟩ := List.mem_map.mp hcls
    show text ∈ textsOf kind
    rw [textsOf_of_mem hkind (by decide)]
    exact htop

theorem IsKindOf.ne_eof {text : List Char} {kind : TokenKind} (h : IsKindOf text classes kind) :
    kind ≠ .eof := by
  rintro rfl
  exact h.mem_textsOf

/-! ### The longest match -/

section

variable {rules : List LexicalRule} {cs : List TokenClass} {input : List Char}

theorem not_isPrefix_of_longestMatch (h : List.Forall₂ LexicalRule.Follows rules cs)
    (hnone : longestMatch rules input = none) :
    ∀ cls ∈ cs, ∀ text ∈ cls.texts, text <+: input → text = [] := by
  induction h with
  | nil => simp
  | @cons rule cls rules cs hrule _ ih =>
    rw [longestMatch] at hnone
    split at hnone
    · split at hnone <;> cases hnone
    next hrest =>
      split at hnone
      · cases hnone
      next hzero =>
        refine List.forall_mem_cons.mpr ⟨fun text htext hprefix => ?_, ih hrest⟩
        obtain ⟨rest, rfl⟩ := hprefix
        have hlongest := hrule.1.longest text rest htext
        exact List.length_eq_zero_iff.mp (by omega)

/-- What is found is a text of a class, there is none longer, and no earlier class has it. -/
theorem exists_of_longestMatch (h : List.Forall₂ LexicalRule.Follows rules cs)
    {best : Nat × LexicalRule} (hbest : longestMatch rules input = some best) :
    ∃ text rest, input = text ++ rest ∧ text.length = best.1 ∧
      IsKindOf text cs (best.2.kind (String.ofList text)) ∧
      ∀ cls ∈ cs, ∀ other ∈ cls.texts, other <+: input → other.length ≤ best.1 := by
  induction h generalizing best with
  | nil => cases hbest
  | @cons rule cls rules cs hrule hrules ih =>
    have hbound : ∀ other ∈ cls.texts, other <+: input → other.length ≤ rule.length input := by
      rintro other hother ⟨rest, rfl⟩
      exact hrule.1.longest other rest hother
    have hfirst (hpos : 0 < rule.length input) : ∃ text rest, input = text ++ rest ∧
        text.length = rule.length input ∧
        IsKindOf text (cls :: cs) (rule.kind (String.ofList text)) := by
      obtain ⟨text, rest, hinput, htext, hlength⟩ := hrule.1.found input hpos
      exact ⟨text, rest, hinput, hlength, hrule.2 ▸ .head htext cs⟩
    rw [longestMatch] at hbest
    split at hbest
    next other hother =>
      obtain ⟨text, rest, hinput, hlength, hkind, hlongest⟩ := ih hother
      split at hbest
      next hbetter =>
        obtain rfl := Option.some.inj hbest
        obtain ⟨text, rest, hinput, hlength, hkind⟩ := hfirst hbetter.1
        refine ⟨text, rest, hinput, hlength, hkind, List.forall_mem_cons.mpr ⟨hbound, ?_⟩⟩
        exact fun cls hcls text htext hprefix =>
          Nat.le_trans (hlongest cls hcls text htext hprefix) hbetter.2
      next hworse =>
        obtain rfl := Option.some.inj hbest
        have hpos := longestMatch_pos hother
        have hshorter : rule.length input < other.1 := by omega
        have hnot : text ∉ cls.texts := fun htext => by
          have hle := hbound text htext ⟨rest, hinput.symm⟩
          omega
        refine ⟨text, rest, hinput, hlength, .tail hnot hkind,
          List.forall_mem_cons.mpr ⟨?_, hlongest⟩⟩
        exact fun text htext hprefix => Nat.le_of_lt (Nat.lt_of_le_of_lt (hbound text htext hprefix)
          hshorter)
    next hnone =>
      split at hbest
      next hpos =>
        obtain rfl := Option.some.inj hbest
        obtain ⟨text, rest, hinput, hlength, hkind⟩ := hfirst hpos
        refine ⟨text, rest, hinput, hlength, hkind, List.forall_mem_cons.mpr ⟨hbound, ?_⟩⟩
        intro cls hcls text htext hprefix
        rw [not_isPrefix_of_longestMatch hrules hnone cls hcls text htext hprefix]
        exact Nat.zero_le _
      next => cases hbest

end

/-! ### Tokens -/

theorem cases_of_mem_classes {cls : TokenClass} (h : cls ∈ classes) :
    (cls.texts = words ∨ cls.texts = mixedWords ∨ cls.texts = floats ∨ cls.texts = ints ∨
      cls.texts = strings ∨ cls.texts = chars ∨ cls.texts = operators) ∨
    ∃ kind ∈ TokenKind.punctuation, cls = TokenClass.ofSpelling kind := by
  rcases List.mem_append.mp h with h | h
  · refine .inl ?_
    simp only [List.mem_cons, List.not_mem_nil, or_false] at h
    rcases h with rfl | rfl | rfl | rfl | rfl | rfl | rfl <;> simp
  · obtain ⟨kind, hkind, rfl⟩ := List.mem_map.mp h
    exact .inr ⟨kind, hkind, rfl⟩

theorem ne_nil_of_mem_classes {cls : TokenClass} (hcls : cls ∈ classes) {text : List Char}
    (h : text ∈ cls.texts) : text ≠ [] := by
  rcases cases_of_mem_classes hcls with hcls | ⟨kind, hkind, rfl⟩
  · rcases hcls with hcls | hcls | hcls | hcls | hcls | hcls | hcls <;> rw [hcls] at h
    · obtain ⟨c, rest, rfl, -⟩ := mem_words.mp h
      simp
    · obtain ⟨word, operator, rfl, -⟩ := mem_mixedWords.mp h
      simp
    · obtain ⟨whole, fraction, exponent, rfl, -⟩ := mem_floats.mp h
      simp
    · obtain ⟨digits, mark, rfl, hdigits, -⟩ := mem_ints.mp h
      simp [(mem_runOf.mp hdigits).1]
    · obtain ⟨contents, rfl, -⟩ := mem_strings.mp h
      simp
    · obtain ⟨contents, rfl, -⟩ := mem_chars.mp h
      simp
    · exact (mem_runOf.mp h).1
  · rintro rfl
    have hall : ∀ kind ∈ TokenKind.punctuation, kind.spelling? ≠ some "" := by decide
    exact hall kind hkind h

theorem tokenAt_of_none {input : List Char} (h : longestMatch rules input = none) :
    tokenAt input = (1, .error) := by
  unfold tokenAt
  split
  next hbest => rw [h] at hbest; cases hbest
  next => rfl

theorem tokenAt_of_some {input : List Char} {best : Nat × LexicalRule}
    (h : longestMatch rules input = some best) :
    tokenAt input = (best.1, best.2.kind (String.ofList (input.take best.1))) := by
  unfold tokenAt
  split
  next hbest =>
    obtain rfl := Option.some.inj (h.symm.trans hbest)
    rfl
  next hbest => rw [h] at hbest; cases hbest

theorem tokenAt_append {kind : TokenKind} {lexeme rest : List Char}
    (h : IsLongest kind lexeme rest) : tokenAt (lexeme ++ rest) = (lexeme.length, kind) := by
  obtain ⟨cls, hcls, hlexeme, -⟩ := h.kind.exists_class
  cases hbest : longestMatch rules (lexeme ++ rest) with
  | none =>
    have hnil := not_isPrefix_of_longestMatch forall₂_follows hbest cls hcls lexeme hlexeme
      (List.prefix_append ..)
    exact absurd hnil (ne_nil_of_mem_classes hcls hlexeme)
  | some best =>
    obtain ⟨text, others, hinput, hlength, hkind, hlongest⟩ :=
      exists_of_longestMatch forall₂_follows hbest
    obtain ⟨cls', hcls', htext, -⟩ := hkind.exists_class
    have hle := hlongest cls hcls lexeme hlexeme (List.prefix_append ..)
    -- The text that is found begins with `lexeme`, and no class goes on behind that.
    obtain ⟨more, rfl⟩ : lexeme <+: text :=
      List.prefix_of_prefix_length_le (List.prefix_append ..) ⟨others, hinput.symm⟩ (by omega)
    have hmore : more <+: rest := by
      rw [List.append_assoc, List.append_cancel_left_eq] at hinput
      exact ⟨others, hinput.symm⟩
    obtain rfl := h.ends cls' hcls' more hmore htext
    rw [List.append_nil] at hlength hkind
    rw [tokenAt_of_some hbest, ← hlength, List.take_left, hkind.unique h.kind]

theorem tokenAt_stray {kind : TokenKind} {lexeme rest : List Char}
    (h : IsStray kind lexeme rest) : tokenAt (lexeme ++ rest) = (lexeme.length, kind) := by
  cases hbest : longestMatch rules (lexeme ++ rest) with
  | none =>
    obtain ⟨c, rfl⟩ := h.single
    rw [tokenAt_of_none hbest, h.kind]
    rfl
  | some best =>
    obtain ⟨text, others, hinput, -, hkind, -⟩ := exists_of_longestMatch forall₂_follows hbest
    obtain ⟨cls, hcls, htext, -⟩ := hkind.exists_class
    exact absurd ⟨others, hinput.symm⟩ (h.none cls hcls text htext)

namespace IsToken

variable {kind : TokenKind} {lexeme rest : List Char}

theorem tokenAt (h : IsToken kind lexeme rest) :
    Lexicon.tokenAt (lexeme ++ rest) = (lexeme.length, kind) := by
  rcases h with h | h
  · exact tokenAt_append h
  · exact tokenAt_stray h

theorem ne_nil (h : IsToken kind lexeme rest) : lexeme ≠ [] := by
  rcases h with h | h
  · obtain ⟨cls, hcls, hlexeme, -⟩ := h.kind.exists_class
    exact ne_nil_of_mem_classes hcls hlexeme
  · obtain ⟨c, rfl⟩ := h.single
    simp

theorem longest (h : IsToken kind lexeme rest) (hkind : kind ≠ .error) :
    IsLongest kind lexeme rest :=
  h.resolve_right fun hstray => hkind hstray.kind

theorem kind_ne_eof (h : IsToken kind lexeme rest) : kind ≠ .eof := by
  rcases h with h | h
  · exact h.kind.ne_eof
  · rw [h.kind]
    decide

end IsToken

theorem exists_of_tokenAt (c : Char) (cs : List Char) : ∃ lexeme rest, c :: cs = lexeme ++ rest ∧
    lexeme.length = (tokenAt (c :: cs)).1 ∧ IsToken (tokenAt (c :: cs)).2 lexeme rest := by
  cases hbest : longestMatch rules (c :: cs) with
  | none =>
    rw [tokenAt_of_none hbest]
    refine ⟨[c], cs, rfl, rfl, .inr ⟨rfl, ⟨c, rfl⟩, ?_⟩⟩
    intro cls hcls text htext hprefix
    exact ne_nil_of_mem_classes hcls htext
      (not_isPrefix_of_longestMatch forall₂_follows hbest cls hcls text htext hprefix)
  | some best =>
    obtain ⟨text, rest, hinput, hlength, hkind, hlongest⟩ :=
      exists_of_longestMatch forall₂_follows hbest
    have hfound : tokenAt (c :: cs) = (best.1, best.2.kind (String.ofList text)) := by
      rw [tokenAt_of_some hbest, hinput, ← hlength, List.take_left]
    rw [hfound]
    refine ⟨text, rest, hinput, hlength, .inl ⟨hkind, fun cls hcls more hmore htext => ?_⟩⟩
    have hle := hlongest cls hcls (text ++ more) htext
      (hinput ▸ (List.prefix_append_right_inj text).mpr hmore)
    rw [List.length_append] at hle
    exact List.length_eq_zero_iff.mp (by omega)

end Mixin.Lexicon
