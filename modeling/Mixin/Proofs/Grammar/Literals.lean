import Mixin.Proofs.Grammar.Restoration.Expressions
import Mixin.Proofs.Token.Lexemes

/-!
# What literals denote

Between the quotes of a string or a character stand symbols: plain characters, and pairs of a
backslash with a character. A pair means the character that is written so, if there is one, and a
literal with any other pair is refused under its own text. What is written with the escapes is one
token and means what was written; so do whole numbers, if they are less than two to the power 63
(`literals_mean_what_is_written`).
-/

namespace Mixin

/-! ### Symbols -/

namespace Literal

/-- What stands for one character between quotes. -/
inductive Symbol where
  | plain (c : Char)
  | pair (c : Char)

namespace Symbol

def text : Symbol → List Char
  | plain c => [c]
  | pair c => ['\\', c]

def Means : Symbol → Char → Prop
  | plain c, d => d = c
  | pair c, d => escaped d = ['\\', c]

def escapes : List Char := ['n', 't', 'r', '0', '\\', '"', '\x27']

/-- Whether a symbol means anything. -/
def IsKnown : Symbol → Prop
  | plain _ => True
  | pair c => c ∈ escapes

/-- Whether a symbol can stand between the given quotes. -/
def CanStand (quote : Char) : Symbol → Prop
  | plain c => c ≠ quote ∧ c ≠ '\\' ∧ c ≠ '\n'
  | pair c => c ≠ '\n'

theorem mem_quotable_iff {quote : Char} {cs : List Char} :
    cs ∈ Lexicon.quotable quote ↔ ∃ x : Symbol, x.CanStand quote ∧ x.text = cs := by
  rw [Lexicon.mem_quotable]
  constructor
  · rintro (⟨c, rfl, hc⟩ | ⟨c, rfl, hc⟩)
    · exact ⟨.plain c, hc, rfl⟩
    · exact ⟨.pair c, hc, rfl⟩
  · rintro ⟨x, hx, rfl⟩
    cases x with
    | plain c => exact .inl ⟨c, rfl, hx⟩
    | pair c => exact .inr ⟨c, rfl, hx⟩

theorem mem_escapes_iff {c : Char} : c ∈ escapes ↔ ∃ d, unescapeChar? c = some d := by
  unfold unescapeChar?
  split
  all_goals simp_all [escapes]

theorem unescapeChar?_eq_some_iff {c d : Char} :
    unescapeChar? c = some d ↔ escaped d = ['\\', c] := by
  constructor
  · intro h
    unfold unescapeChar? at h
    split at h
    case h_8 => cases h
    all_goals
      cases h
      rfl
  · intro h
    have hvalue := unescape?_escaped d []
    rw [h] at hvalue
    cases hc : unescapeChar? c with
    | none => simp [unescape?, hc] at hvalue
    | some e => simpa [unescape?, hc] using hvalue

theorem unescape?_text_append {quote : Char} {x : Symbol} (hx : x.CanStand quote)
    (rest : List Char) {cs : List Char} :
    unescape? (x.text ++ rest) = some cs ↔
      ∃ d ds, cs = d :: ds ∧ x.Means d ∧ unescape? rest = some ds := by
  cases x with
  | plain c =>
    rw [text, List.singleton_append, unescape?_cons hx.2.1, Option.map_eq_some_iff]
    constructor
    · rintro ⟨ds, hds, rfl⟩
      exact ⟨c, ds, rfl, rfl, hds⟩
    · rintro ⟨d, ds, rfl, rfl, hds⟩
      exact ⟨ds, hds, rfl⟩
  | pair c =>
    have hpair : unescape? ('\\' :: c :: rest) = some cs ↔
        ∃ d ds, cs = d :: ds ∧ unescapeChar? c = some d ∧ unescape? rest = some ds := by
      rw [unescape?]
      cases unescapeChar? c <;> cases unescape? rest <;> simp [eq_comm]
    simp only [unescapeChar?_eq_some_iff] at hpair
    exact hpair

end Symbol

theorem unescape?_eq_some_iff {quote : Char} {xs : List Symbol} (hxs : ∀ x ∈ xs, x.CanStand quote)
    {cs : List Char} :
    unescape? (xs.flatMap Symbol.text) = some cs ↔ List.Forall₂ Symbol.Means xs cs := by
  induction xs generalizing cs with
  | nil => simp [unescape?, eq_comm]
  | cons x xs ih =>
    rw [List.forall_mem_cons] at hxs
    rw [List.flatMap_cons, Symbol.unescape?_text_append hxs.1, List.forall₂_cons_left_iff]
    simp only [ih hxs.2]
    constructor
    · rintro ⟨d, ds, rfl, hd, hds⟩
      exact ⟨d, ds, hd, hds, rfl⟩
    · rintro ⟨d, ds, hd, hds, rfl⟩
      exact ⟨d, ds, rfl, hd, hds⟩

theorem Symbol.isKnown_iff {x : Symbol} : x.IsKnown ↔ ∃ d, x.Means d := by
  cases x with
  | plain c => simp [IsKnown, Means]
  | pair c =>
    simp only [IsKnown, Means, ← unescapeChar?_eq_some_iff]
    exact mem_escapes_iff

theorem exists_forall₂_means_iff {xs : List Symbol} :
    (∃ cs, List.Forall₂ Symbol.Means xs cs) ↔ ∀ x ∈ xs, x.IsKnown := by
  induction xs with
  | nil => simp
  | cons x xs ih =>
    rw [List.forall_mem_cons, ← ih, Symbol.isKnown_iff]
    simp only [List.forall₂_cons_left_iff]
    constructor
    · rintro ⟨_, d, ds, hd, hds, -⟩
      exact ⟨⟨d, hd⟩, ds, hds⟩
    · rintro ⟨⟨d, hd⟩, ds, hds⟩
      exact ⟨d :: ds, d, ds, hd, hds, rfl⟩

/-- The text is made of the symbols between the quotes. -/
structure Quotes (quote : Char) (xs : List Symbol) (lexeme : String) : Prop where
  symbols : ∀ x ∈ xs, x.CanStand quote
  spelled : lexeme.toList = quote :: (xs.flatMap Symbol.text ++ [quote])

theorem Quotes.contents {quote : Char} {xs : List Symbol} {lexeme : String}
    (h : Quotes quote xs lexeme) : contents lexeme = xs.flatMap Symbol.text := by
  simp [Literal.contents, h.spelled]

theorem exists_quotes_of_mem_strings {lexeme : String} (h : lexeme.toList ∈ Lexicon.strings) :
    ∃ xs, Quotes '"' xs lexeme := by
  obtain ⟨_, hspelled, parts, rfl, hparts⟩ := Lexicon.mem_strings.mp h
  suffices hsymbols : ∃ xs : List Symbol, (∀ x ∈ xs, x.CanStand '"') ∧
      xs.flatMap Symbol.text = parts.flatten by
    obtain ⟨xs, hxs, htext⟩ := hsymbols
    exact ⟨xs, hxs, by rw [hspelled, htext]⟩
  clear hspelled h
  induction parts with
  | nil => exact ⟨[], by simp, rfl⟩
  | cons part parts ih =>
    rw [List.forall_mem_cons] at hparts
    obtain ⟨xs, hxs, htext⟩ := ih hparts.2
    obtain ⟨x, hx, rfl⟩ := Symbol.mem_quotable_iff.mp hparts.1
    exact ⟨x :: xs, List.forall_mem_cons.mpr ⟨hx, hxs⟩, by rw [List.flatMap_cons, htext]; rfl⟩

theorem exists_quotes_of_mem_chars {lexeme : String} (h : lexeme.toList ∈ Lexicon.chars) :
    ∃ x, Quotes '\x27' [x] lexeme := by
  obtain ⟨_, hspelled, hcontents⟩ := Lexicon.mem_chars.mp h
  obtain ⟨x, hx, rfl⟩ := Symbol.mem_quotable_iff.mp hcontents
  exact ⟨x, List.forall_mem_singleton.mpr hx, by simpa using hspelled⟩

theorem Quotes.string?_eq_some_iff {xs : List Symbol} {lexeme : String} (h : Quotes '"' xs lexeme)
    {v : String} : string? lexeme = some v ↔ List.Forall₂ Symbol.Means xs v.toList := by
  rw [← unescape?_eq_some_iff h.symbols, string?, h.contents, Option.map_eq_some_iff]
  constructor
  · rintro ⟨cs, hcs, rfl⟩
    rw [hcs, String.toList_ofList]
  · intro hv
    exact ⟨_, hv, String.ofList_toList⟩

theorem Quotes.char?_eq_some_iff {x : Symbol} {lexeme : String} (h : Quotes '\x27' [x] lexeme)
    {c : Char} : char? lexeme = some c ↔ x.Means c := by
  have hone : unescape? (Literal.contents lexeme) = some [c] ↔ x.Means c := by
    rw [h.contents, unescape?_eq_some_iff h.symbols]
    simp
  rw [← hone, char?]
  constructor
  · intro hc
    split at hc
    next hvalue =>
      cases hc
      exact hvalue
    next => cases hc
  · intro hvalue
    rw [hvalue]

theorem int?_digits_append {digits mark : List Char} (hdigits : ∀ c ∈ digits, c.isDigit = true)
    (hmark : mark = [] ∨ mark = ['l'] ∨ mark = ['L']) :
    int? (String.ofList (digits ++ mark)) =
      if Nat.ofDigitChars 10 digits 0 < 2 ^ 63 then some (Nat.ofDigitChars 10 digits 0)
      else none := by
  have htaken : (digits ++ mark).takeWhile Char.isDigit = digits := by
    rw [List.takeWhile_append_of_pos hdigits]
    rcases hmark with rfl | rfl | rfl <;> simp [List.takeWhile]
  have hvalue : digitsValue digits = Nat.ofDigitChars 10 digits 0 := by
    rw [Nat.ofDigitChars_eq_foldl]
    rfl
  rw [int?, String.toList_ofList, htaken, hvalue]
  rfl

end Literal

/-! ### Reading a literal -/

namespace Token

/-- The parser reads the token as `e`, as a simple expression and, unless what stands behind it goes
on with the expression, as a whole one. -/
structure IsReadAs (t : Token) (e : Expr) : Prop where
  simple : ∀ inner c, c.peek = t → (Parser.simple inner).run c = .done e c.advance
  expression : ∀ c, c.peek = t → c.advance.peek.kind ∉ Parser.groupBarred →
    Parser.expression.run c = .done e c.advance

/-- The parser refuses the token for its text and stays where it is. -/
structure IsRefused (t : Token) : Prop where
  simple : ∀ inner c, c.peek = t →
    (Parser.simple inner).run c = .failed (.invalidLiteral t.lexeme t.span) c
  expression : ∀ c, c.peek = t →
    Parser.expression.run c = .failed (.invalidLiteral t.lexeme t.span) c

def literalKinds : List TokenKind := [.intLiteral, .stringLiteral, .charLiteral]

end Token

namespace Parser

section Failures

variable {α β : Type} {p : Parser α} {f : α → Parser β} {inner : Parser Expr} {c d : Cursor}
  {error : SyntaxError}

theorem run_bind_of_failed (h : p.run c = .failed error d) :
    (p >>= f).run c = .failed error d := by
  rw [run_bind, h]

theorem run_expressionBody_failed (hc : c.peek.kind ∉ [.kwIf, .kwWhile, .operator])
    (hclosure : c.atClosure = false) (h : (simple inner).run c = .failed error d) :
    (expressionBody inner).run c = .failed error d := by
  have hsuffixed : (suffixed inner).run c = .failed error d := run_bind_of_failed h
  have hoperand : (operand inner).run c = .failed error d := by
    have hnone := run_many_nil (run_unaryOperator?_none (ne_of_barred hc (by decide)))
    rw [operand, run_bind, hnone]
    exact run_bind_of_failed hsuffixed
  have hoperations : (operations inner).run c = .failed error d := run_bind_of_failed hoperand
  refine (run_if_false (Cursor.isAt_eq_false (ne_of_barred hc (by decide)))).trans ?_
  refine (run_if_false (Cursor.isAt_eq_false (ne_of_barred hc (by decide)))).trans ?_
  exact (run_if_false hclosure).trans ((run_look _).trans (run_bind_of_failed hoperations))

end Failures

variable {t : Token} {c : Cursor}

theorem run_simple_eq_literal (hkind : c.peek.kind ∈ Token.literalKinds) (inner : Parser Expr) :
    (simple inner).run c = literal.run c := by
  simp only [Token.literalKinds, List.mem_cons, List.not_mem_nil, or_false] at hkind
  refine (run_look _).trans ?_
  rcases hkind with hkind | hkind | hkind
  all_goals rw [hkind]

theorem run_literal_of_some {e : Expr} (h : Literal.expr? c.peek = some e) :
    literal.run c = .done e c.advance := by
  refine (run_look _).trans ?_
  rw [h]
  rfl

theorem run_literal_of_none (h : Literal.expr? c.peek = none) :
    literal.run c = .failed (.invalidLiteral c.peek.lexeme c.peek.span) c := by
  refine (run_look _).trans ?_
  rw [h]
  rfl

end Parser

namespace Token

variable {t : Token}

theorem atClosure_of_literal {c : Cursor} (h : c.peek.kind ∈ literalKinds) :
    c.atClosure = false := by
  have hparen : c.isAt .leftParen = false := Cursor.isAt_eq_false fun heq => by
    rw [heq] at h
    exact absurd h (by decide)
  have hname : c.isAt .identifier = false := Cursor.isAt_eq_false fun heq => by
    rw [heq] at h
    exact absurd h (by decide)
  rw [Cursor.atClosure, hparen, hname]
  rfl

theorem not_mem_of_literal (h : t.kind ∈ literalKinds) :
    t.kind ∉ [TokenKind.kwIf, .kwWhile, .operator] := by
  simp only [literalKinds, List.mem_cons, List.not_mem_nil, or_false] at h
  rcases h with h | h | h <;> simp [h]

theorem isReadAs_of_expr? {e : Expr} (hkind : t.kind ∈ literalKinds)
    (h : Literal.expr? t = some e) : t.IsReadAs e := by
  have hsimple : ∀ inner c, c.peek = t → (Parser.simple inner).run c = .done e c.advance := by
    rintro inner c rfl
    rw [Parser.run_simple_eq_literal hkind, Parser.run_literal_of_some h]
  refine ⟨hsimple, fun c hc hbehind => ?_⟩
  obtain ⟨inner, hinner, -⟩ := Parser.exists_run_fix Parser.expressionBody c
  rw [Parser.expression, hinner]
  rw [← hc] at hkind
  exact Parser.run_expressionBody_simple (not_mem_of_literal hkind) (atClosure_of_literal hkind)
    (hsimple inner c hc) hbehind

theorem isRefused_of_expr? (hkind : t.kind ∈ literalKinds) (h : Literal.expr? t = none) :
    t.IsRefused := by
  have hsimple : ∀ inner c, c.peek = t →
      (Parser.simple inner).run c = .failed (.invalidLiteral t.lexeme t.span) c := by
    rintro inner c rfl
    rw [Parser.run_simple_eq_literal hkind, Parser.run_literal_of_none h]
  refine ⟨hsimple, fun c hc => ?_⟩
  obtain ⟨inner, hinner, -⟩ := Parser.exists_run_fix Parser.expressionBody c
  rw [Parser.expression, hinner]
  rw [← hc] at hkind
  exact Parser.run_expressionBody_failed (not_mem_of_literal hkind) (atClosure_of_literal hkind)
    (hsimple inner c hc)

theorem exists_peek_eq (t : Token) : ∃ c : Cursor, c.peek = t := ⟨⟨none, [t], t⟩, rfl⟩

theorem isReadAs_iff {e : Expr} (hkind : t.kind ∈ literalKinds) :
    t.IsReadAs e ↔ Literal.expr? t = some e := by
  refine ⟨fun h => ?_, isReadAs_of_expr? hkind⟩
  obtain ⟨c, hc⟩ := exists_peek_eq t
  have hread := h.simple Parser.expression c hc
  cases hvalue : Literal.expr? t with
  | none =>
    rw [(isRefused_of_expr? hkind hvalue).simple _ c hc] at hread
    cases hread
  | some a =>
    rw [(isReadAs_of_expr? hkind hvalue).simple _ c hc] at hread
    cases hread
    rfl

theorem isRefused_iff (hkind : t.kind ∈ literalKinds) :
    t.IsRefused ↔ Literal.expr? t = none := by
  refine ⟨fun h => ?_, isRefused_of_expr? hkind⟩
  cases hvalue : Literal.expr? t with
  | none => rfl
  | some a =>
    obtain ⟨c, hc⟩ := exists_peek_eq t
    have hread := h.simple Parser.expression c hc
    rw [(isReadAs_of_expr? hkind hvalue).simple _ c hc] at hread
    cases hread

theorem isReadAs_or_isRefused (hkind : t.kind ∈ literalKinds) :
    (∃ e, t.IsReadAs e) ∨ t.IsRefused := by
  cases hvalue : Literal.expr? t with
  | none => exact .inr (isRefused_of_expr? hkind hvalue)
  | some e => exact .inl ⟨e, isReadAs_of_expr? hkind hvalue⟩

end Token

/-! ### The kinds of literals -/

namespace Token

open Literal (Symbol Quotes)

variable {t : Token}

theorem read_string {xs : List Symbol} (hkind : t.kind = .stringLiteral)
    (h : Quotes '"' xs t.lexeme) :
    (∀ e, t.IsReadAs e ↔
      ∃ v : String, List.Forall₂ Symbol.Means xs v.toList ∧ e = .string v t.span) ∧
    (t.IsRefused ↔ ∃ x ∈ xs, ¬ x.IsKnown) := by
  have hmem : t.kind ∈ literalKinds := by simp [hkind, literalKinds]
  have hexpr : Literal.expr? t = (Literal.string? t.lexeme).map (.string · t.span) := by
    rw [Literal.expr?, hkind]
  constructor
  · intro e
    rw [isReadAs_iff hmem, hexpr, Option.map_eq_some_iff]
    simp only [h.string?_eq_some_iff, eq_comm]
  · have hknown : (∃ v, Literal.string? t.lexeme = some v) ↔ ∀ x ∈ xs, x.IsKnown := by
      rw [← Literal.exists_forall₂_means_iff]
      constructor
      · rintro ⟨v, hv⟩
        exact ⟨v.toList, h.string?_eq_some_iff.mp hv⟩
      · rintro ⟨cs, hcs⟩
        exact ⟨String.ofList cs, h.string?_eq_some_iff.mpr (by rwa [String.toList_ofList])⟩
    rw [isRefused_iff hmem, hexpr, Option.map_eq_none_iff, Option.eq_none_iff_forall_ne_some]
    simpa using not_congr hknown

theorem read_char {x : Symbol} (hkind : t.kind = .charLiteral) (h : Quotes '\x27' [x] t.lexeme) :
    (∀ e, t.IsReadAs e ↔ ∃ c, x.Means c ∧ e = .char c t.span) ∧ (t.IsRefused ↔ ¬ x.IsKnown) := by
  have hmem : t.kind ∈ literalKinds := by simp [hkind, literalKinds]
  have hexpr : Literal.expr? t = (Literal.char? t.lexeme).map (.char · t.span) := by
    rw [Literal.expr?, hkind]
  constructor
  · intro e
    rw [isReadAs_iff hmem, hexpr, Option.map_eq_some_iff]
    simp only [h.char?_eq_some_iff, eq_comm]
  · rw [isRefused_iff hmem, hexpr, Option.map_eq_none_iff, Option.eq_none_iff_forall_ne_some]
    simp only [Symbol.isKnown_iff, ne_eq, h.char?_eq_some_iff, not_exists]

theorem read_int {digits mark : List Char} (hkind : t.kind = .intLiteral)
    (hlexeme : t.lexeme = String.ofList (digits ++ mark))
    (hdigits : ∀ c ∈ digits, c.isDigit = true) (hmark : mark = [] ∨ mark = ['l'] ∨ mark = ['L']) :
    (∀ e, t.IsReadAs e ↔ Nat.ofDigitChars 10 digits 0 < 2 ^ 63 ∧
      e = .int (Nat.ofDigitChars 10 digits 0) t.span) ∧
    (t.IsRefused ↔ 2 ^ 63 ≤ Nat.ofDigitChars 10 digits 0) := by
  have hmem : t.kind ∈ literalKinds := by simp [hkind, literalKinds]
  have hexpr : Literal.expr? t = (Literal.int? t.lexeme).map (.int · t.span) := by
    rw [Literal.expr?, hkind]
  rw [hlexeme, Literal.int?_digits_append hdigits hmark] at hexpr
  simp only [isReadAs_iff hmem, isRefused_iff hmem, hexpr, Option.map_eq_some_iff,
    Option.map_eq_none_iff, Option.ite_none_right_eq_some, Option.some.injEq]
  constructor
  · intro e
    constructor
    · rintro ⟨n, ⟨hlt, rfl⟩, rfl⟩
      exact ⟨hlt, rfl⟩
    · rintro ⟨hlt, rfl⟩
      exact ⟨_, ⟨hlt, rfl⟩, rfl⟩
  · simp

theorem isReadAs_string {v : String} (hkind : t.kind = .stringLiteral)
    (h : t.lexeme = Literal.quoted '"' v.toList) : t.IsReadAs (.string v t.span) := by
  refine isReadAs_of_expr? (by simp [hkind, literalKinds]) ?_
  rw [Literal.expr?, hkind, h, Literal.string?_quoted]
  rfl

theorem isReadAs_char {c : Char} (hkind : t.kind = .charLiteral)
    (h : t.lexeme = Literal.quoted '\x27' [c]) : t.IsReadAs (.char c t.span) := by
  refine isReadAs_of_expr? (by simp [hkind, literalKinds]) ?_
  rw [Literal.expr?, hkind, h, Literal.char?_quoted]
  rfl

end Token

/-! ### What is written in quotes -/

/-- The text is the one token `t`, of the given kind. -/
structure TokenStream.IsOnly (stream : TokenStream) (t : Token) (kind : TokenKind)
    (text : String) : Prop where
  tokens : stream.tokens = [t]
  kind : t.kind = kind
  lexeme : t.lexeme = text

theorem TokenStream.exists_isOnly (file : SourceFile) {lexeme : List Char} {kind : TokenKind}
    (hbare : Lexicon.IsBare lexeme) (hkind : Lexicon.IsKindOf lexeme Lexicon.classes kind) :
    ∃ t, (ofText file (String.ofList lexeme)).IsOnly t kind (String.ofList lexeme) := by
  rw [ofText_single file hbare hkind]
  exact ⟨_, rfl, rfl, rfl⟩

namespace Literal

theorem escaped_mem_quotable {quote : Char} (hquote : quote = '"' ∨ quote = '\x27') (c : Char) :
    escaped c ∈ Lexicon.quotable quote := by
  rw [Lexicon.mem_quotable]
  by_cases hplain : c = '\n' ∨ c = '\t' ∨ c = '\r' ∨ c = '\x00' ∨ c = '\\' ∨ c = '"' ∨ c = '\x27'
  · rcases hplain with rfl | rfl | rfl | rfl | rfl | rfl | rfl
    all_goals exact .inr ⟨_, rfl, by decide⟩
  · simp only [not_or] at hplain
    refine .inl ⟨c, by simp [escaped, hplain], ?_, hplain.2.2.2.2.1, hplain.1⟩
    rcases hquote with rfl | rfl
    · exact hplain.2.2.2.2.2.1
    · exact hplain.2.2.2.2.2.2

theorem quoted_mem_strings (cs : List Char) :
    '"' :: (cs.flatMap escaped ++ ['"']) ∈ Lexicon.strings := by
  refine Lexicon.mem_strings.mpr ⟨_, rfl, cs.map escaped, by rw [List.flatMap_def], ?_⟩
  intro part hpart
  obtain ⟨c, -, rfl⟩ := List.mem_map.mp hpart
  exact escaped_mem_quotable (.inl rfl) c

theorem quoted_mem_chars (c : Char) :
    '\x27' :: ([c].flatMap escaped ++ ['\x27']) ∈ Lexicon.chars :=
  Lexicon.mem_chars.mpr ⟨_, rfl, by simpa using escaped_mem_quotable (.inr rfl) c⟩

theorem isBare_digits {digits : List Char} (hne : digits ≠ [])
    (hdigits : ∀ c ∈ digits, c.isDigit = true) (mark : List Char) :
    Lexicon.IsBare (digits ++ mark) := by
  obtain ⟨d, ds, rfl⟩ := List.exists_cons_of_ne_nil hne
  have hd := hdigits d (List.mem_cons_self ..)
  have hnumeral : Lexicon.isNumeral d = true := by simp [Lexicon.isNumeral, hd]
  refine Lexicon.isBare_of_isInner (Lexicon.isInner_of_isNumeral hnumeral) ?_
  rintro rfl
  exact absurd hd (by decide)

end Literal

open Literal (Symbol Quotes quoted)

/-- What is written in quotes with the escapes is one token that is read as what was written, and
digits are one token that is read as the number they denote, or refused if that number is too large.
Every string and every character that is scanned is read as what its symbols mean, or refused if one
of them means nothing. -/
theorem literals_mean_what_is_written (file : SourceFile) :
    (∀ v : String, ∃ t, (TokenStream.ofText file (quoted '"' v.toList)).IsOnly t .stringLiteral
        (quoted '"' v.toList) ∧ t.IsReadAs (.string v t.span)) ∧
    (∀ c : Char, ∃ t, (TokenStream.ofText file (quoted '\x27' [c])).IsOnly t .charLiteral
        (quoted '\x27' [c]) ∧ t.IsReadAs (.char c t.span)) ∧
    (∀ digits mark : List Char, digits ≠ [] → (∀ c ∈ digits, c.isDigit = true) →
      mark = [] ∨ mark = ['l'] ∨ mark = ['L'] →
      let text := String.ofList (digits ++ mark)
      let value := Nat.ofDigitChars 10 digits 0
      ∃ t, (TokenStream.ofText file text).IsOnly t .intLiteral text ∧
        (∀ e, t.IsReadAs e ↔ value < 2 ^ 63 ∧ e = .int value t.span) ∧
        (t.IsRefused ↔ 2 ^ 63 ≤ value)) ∧
    ∀ text, ∀ t ∈ (TokenStream.ofText file text).tokens,
      (t.kind = .stringLiteral → ∃ xs, Quotes '"' xs t.lexeme ∧
        (∀ e, t.IsReadAs e ↔
          ∃ v : String, List.Forall₂ Symbol.Means xs v.toList ∧ e = .string v t.span) ∧
        (t.IsRefused ↔ ∃ x ∈ xs, ¬ x.IsKnown) ∧ ((∃ e, t.IsReadAs e) ∨ t.IsRefused)) ∧
      (t.kind = .charLiteral → ∃ x, Quotes '\x27' [x] t.lexeme ∧
        (∀ e, t.IsReadAs e ↔ ∃ c, x.Means c ∧ e = .char c t.span) ∧
        (t.IsRefused ↔ ¬ x.IsKnown) ∧ ((∃ e, t.IsReadAs e) ∨ t.IsRefused)) := by
  refine ⟨fun v => ?_, fun c => ?_, fun digits mark hne hdigits hmark => ?_, fun text t ht => ?_⟩
  · have hkind := Lexicon.isKindOf_of_mem_strings (Literal.quoted_mem_strings v.toList)
    obtain ⟨t, honly⟩ :=
      TokenStream.exists_isOnly file (Lexicon.isBare_of_head (by decide +kernel) (by decide)) hkind
    exact ⟨t, honly, Token.isReadAs_string honly.kind honly.lexeme⟩
  · have hkind := Lexicon.isKindOf_of_mem_chars (Literal.quoted_mem_chars c)
    obtain ⟨t, honly⟩ :=
      TokenStream.exists_isOnly file (Lexicon.isBare_of_head (by decide +kernel) (by decide)) hkind
    exact ⟨t, honly, Token.isReadAs_char honly.kind honly.lexeme⟩
  · have hkind := Lexicon.isKindOf_of_mem_ints
      (Lexicon.mem_ints.mpr ⟨digits, mark, rfl, Lexicon.mem_runOf.mpr ⟨hne, hdigits⟩, hmark⟩)
    have hbare := Literal.isBare_digits hne hdigits mark
    obtain ⟨t, honly⟩ := TokenStream.exists_isOnly file hbare hkind
    exact ⟨t, honly, Token.read_int honly.kind honly.lexeme hdigits hmark⟩
  · constructor
    · intro hkind
      have hmem := (TokenStream.isKindOf_of_mem ht (by simp [hkind])).mem_textsOf
      rw [hkind] at hmem
      obtain ⟨xs, hxs⟩ := Literal.exists_quotes_of_mem_strings hmem
      obtain ⟨hread, hrefused⟩ := Token.read_string hkind hxs
      exact ⟨xs, hxs, hread, hrefused,
        Token.isReadAs_or_isRefused (by simp [hkind, Token.literalKinds])⟩
    · intro hkind
      have hmem := (TokenStream.isKindOf_of_mem ht (by simp [hkind])).mem_textsOf
      rw [hkind] at hmem
      obtain ⟨x, hx⟩ := Literal.exists_quotes_of_mem_chars hmem
      obtain ⟨hread, hrefused⟩ := Token.read_char hkind hx
      exact ⟨x, hx, hread, hrefused,
        Token.isReadAs_or_isRefused (by simp [hkind, Token.literalKinds])⟩

/-- A text with escapes and one without, a number with leading zeros, the least number that is too
large, and a pair that means nothing. -/
theorem literals_mean_what_is_written_mixed :
    (∃ t, (TokenStream.ofText .user "\"a\\n\\\"€\"").IsOnly t .stringLiteral
      "\"a\\n\\\"€\"" ∧ t.IsReadAs (.string "a\n\"€" t.span)) ∧
    (∃ t, (TokenStream.ofText .user "\x27\\\x27\x27").IsOnly t .charLiteral "\x27\\\x27\x27" ∧
      t.IsReadAs (.char '\x27' t.span)) ∧
    (∃ t, (TokenStream.ofText .user "007L").IsOnly t .intLiteral "007L" ∧
      t.IsReadAs (.int 7 t.span)) ∧
    (∃ t, (TokenStream.ofText .user "9223372036854775808").IsOnly t .intLiteral
      "9223372036854775808" ∧ t.IsRefused) ∧
    ∃ t ∈ (TokenStream.ofText .user "def f = \x27\\q\x27").tokens, t.kind = .charLiteral ∧
      t.lexeme = "\x27\\q\x27" ∧ t.IsRefused := by
  obtain ⟨hstrings, hchars, hints, hscanned⟩ := literals_mean_what_is_written .user
  refine ⟨hstrings "a\n\"€", hchars '\x27', ?_, ?_, ?_⟩
  · obtain ⟨t, honly, hread, -⟩ := hints ['0', '0', '7'] ['L'] (by decide) (by simp) (by simp)
    exact ⟨t, honly, (hread _).mpr ⟨by decide, rfl⟩⟩
  · obtain ⟨t, honly, -, hrefused⟩ := hints "9223372036854775808".toList [] (by decide)
      (List.all_eq_true.mp (by decide)) (by simp)
    exact ⟨t, honly, hrefused.mpr (by decide)⟩
  · have htokens : (TokenStream.ofText .user "def f = \x27\\q\x27").tokens[3]?.map
        (fun t => (t.kind, t.lexeme)) = some (.charLiteral, "\x27\\q\x27") := by
      decide +kernel
    obtain ⟨t, ht, hvalues⟩ := Option.map_eq_some_iff.mp htokens
    obtain ⟨hkind, hlexeme⟩ := Prod.mk.inj hvalues
    have hmem := List.mem_of_getElem? ht
    obtain ⟨x, hx, -, hrefused, -⟩ := (hscanned _ t hmem).2 hkind
    refine ⟨t, hmem, hkind, hlexeme, hrefused.mpr fun hknown => ?_⟩
    have hspelled := hx.spelled
    rw [hlexeme] at hspelled
    cases x with
    | plain c => simp [Symbol.text] at hspelled
    | pair c =>
      obtain rfl : 'q' = c := by simpa [Symbol.text] using hspelled
      exact absurd hknown (show 'q' ∉ Symbol.escapes by decide)

end Mixin
