import Mixin.Token.Lexicon

/-!
# Splitting a text into tokens

`TokenStream.ofText` goes through a text from its beginning: it skips a gap, takes the token behind
it, and repeats this until only a gap is left. It never fails; what begins no token becomes an
erroneous token, and it is for the grammar to refuse it.
-/

namespace Mixin

namespace TokenStream

/-- The tokens of `input`, whose first character stands at `loc`. -/
def scanFrom (file : SourceFile) (loc : Location) (input : List Char) : TokenStream :=
  let gap := input.take (Lexicon.gapLength input)
  let startsLine := loc.offset == 0 || gap.contains '\n'
  let start := loc.advanceAll gap
  match _h : input.drop (Lexicon.gapLength input) with
  | [] => ⟨[], ⟨.eof, "", Span.ofLocation file start start.offset, startsLine⟩⟩
  | c :: rest =>
    let found := Lexicon.tokenAt (c :: rest)
    let lexeme := (c :: rest).take found.1
    let stop := start.advanceAll lexeme
    let token : Token :=
      ⟨found.2, String.ofList lexeme, Span.ofLocation file start stop.offset, startsLine⟩
    let others := scanFrom file stop ((c :: rest).drop found.1)
    { others with tokens := token :: others.tokens }
termination_by input.length
decreasing_by
  have h₁ := congrArg List.length _h
  have h₂ := Lexicon.tokenAt_pos (c :: rest)
  simp only [List.length_drop, List.length_cons] at h₁ ⊢
  omega

def ofText (file : SourceFile) (text : String) : TokenStream :=
  scanFrom file Location.start text.toList

end TokenStream

end Mixin
