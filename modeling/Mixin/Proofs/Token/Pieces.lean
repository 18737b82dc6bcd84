import Mixin.Proofs.Token.Lexemes

/-!
# Tokens are pieces of their text

A text is cut only between characters: every token, and the end of the text, stands behind some
whole characters of the text and before some others, and its span says where (`Token.IsPiece`).
Strings and characters begin and end with their quotes, names begin with a letter, and operators are
made of operator characters.
-/

namespace Mixin

def IsQuoted (cs : List Char) : Prop :=
  ∃ quote contents, quote ∈ ['"', '\x27'] ∧ cs = quote :: (contents ++ [quote])

def TokenKind.isQuoted (kind : TokenKind) : Bool := kind == .stringLiteral || kind == .charLiteral

/-- The token is what stands in the text between whole characters at the place that its span
gives. -/
def Token.IsPiece (t : Token) (file : SourceFile) (text : String) : Prop :=
  ∃ before after : String, text = before ++ t.lexeme ++ after ∧ t.span.file = file ∧
    t.span.location = Location.start.advanceAll before.toList ∧
    t.span.start = before.utf8ByteSize ∧ t.span.stop = (before ++ t.lexeme).utf8ByteSize

namespace TokenStream

variable {file : SourceFile} {text : String} {t : Token}

theorem isPiece_of_mem (ht : t ∈ (ofText file text).toList) : t.IsPiece file text := by
  obtain ⟨ts, us, hsplit⟩ := List.append_of_mem ht
  have hsplits := splits_scanFrom file Location.start text.toList
  obtain ⟨before, gap, after, htext, hnext⟩ :=
    hsplits.exists_isNext [] "" rfl rfl (by simp) hsplit
  refine ⟨before ++ gap, after, ?_, hnext.file, hnext.location, hnext.start, hnext.stop⟩
  simpa using htext

variable (ht : t ∈ (ofText file text).tokens)
include ht

theorem lexeme_mem_textsOf (hkind : t.kind ≠ .error) : t.lexeme.toList ∈ Lexicon.textsOf t.kind :=
  (isKindOf_of_mem ht hkind).mem_textsOf

theorem isQuoted_of_mem (hquoted : t.kind.isQuoted = true) : IsQuoted t.lexeme.toList := by
  rw [TokenKind.isQuoted, Bool.or_eq_true, beq_iff_eq, beq_iff_eq] at hquoted
  have htext := lexeme_mem_textsOf ht (by rcases hquoted with h | h <;> rw [h] <;> decide)
  rcases hquoted with hkind | hkind
  · rw [hkind] at htext
    obtain ⟨contents, heq, -⟩ := Lexicon.mem_strings.mp htext
    exact ⟨'"', contents, by simp, heq⟩
  · rw [hkind] at htext
    obtain ⟨contents, heq, -⟩ := Lexicon.mem_chars.mp htext
    exact ⟨'\x27', contents, by simp, heq⟩

theorem exists_head_of_identifier (hkind : t.kind = .identifier) :
    ∃ c cs, t.lexeme.toList = c :: cs ∧ Text.isWordStart c = true := by
  have hlexeme := isKindOf_of_mem ht (by rw [hkind]; decide)
  rw [hkind] at hlexeme
  exact Lexicon.exists_isWordStart hlexeme

theorem isOperatorChar_of_mem_lexeme (hkind : t.kind = .operator) {c : Char}
    (hc : c ∈ t.lexeme.toList) :
    Text.isOperatorChar c = true := by
  have hlexeme := lexeme_mem_textsOf ht (by rw [hkind]; decide)
  rw [hkind] at hlexeme
  exact (Lexicon.mem_runOf.mp hlexeme).2 c hc

end TokenStream

end Mixin
