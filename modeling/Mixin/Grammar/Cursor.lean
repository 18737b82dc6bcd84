import Mixin.Grammar.SyntaxError

/-!
# A place in a token stream

A `Cursor` is a token stream split at a place: the token just passed and the tokens still ahead. The
token for the end of the text stands behind all others and is never passed. One place precedes
another if the other is reached by passing tokens.
-/

namespace Mixin

structure Cursor where
  previous : Option Token
  ahead : List Token
  final : Token
  deriving Inhabited

namespace Cursor

def ofStream (stream : TokenStream) : Cursor := ⟨none, stream.tokens, stream.final⟩

/-- The token `n` places ahead, the final one from the end on. -/
def peekNth (c : Cursor) (n : Nat) : Token := c.ahead[n]?.getD c.final

def peek (c : Cursor) : Token := c.ahead.head?.getD c.final

def isAt (c : Cursor) (kind : TokenKind) : Bool := c.peek.kind == kind

/-- Whether the next token is of the given kind and stands on the line of the one before it. -/
def isAtOnLine (c : Cursor) (kind : TokenKind) : Bool := c.isAt kind && !c.peek.startsLine

def advance (c : Cursor) : Cursor :=
  match c.ahead with
  | [] => c
  | t :: rest => { c with previous := some t, ahead := rest }

/-- The first place from here on at which the next token does not satisfy `p`. -/
def skipWhile (p : Token → Bool) (c : Cursor) : Cursor :=
  go c.previous c.ahead
where
  go (previous : Option Token) : List Token → Cursor
    | [] => { c with previous := previous, ahead := [] }
    | t :: rest =>
      if p t then go (some t) rest else { c with previous := previous, ahead := t :: rest }

/-- The span of the token just passed; at the beginning, of the next one. -/
def previousSpan (c : Cursor) : Span :=
  match c.previous with
  | some t => t.span
  | none => c.peek.span

/-- The empty span behind the token just passed; at the beginning, before the next one. -/
def afterPrevious (c : Cursor) : Span :=
  match c.previous with
  | some t => t.span.after t.lexeme
  | none => c.peek.span.before

def unexpected (c : Cursor) (expected : Expected) : SyntaxError :=
  match c.peek.kind with
  | .error => .invalidCharacter c.peek.lexeme c.peek.span
  | found => .unexpectedToken expected found c.peek.lexeme c.peek.span

/-- Whether a type definition begins here: modifiers, and behind them the word for its kind. -/
def atDefinition (c : Cursor) : Bool :=
  match (c.ahead.dropWhile fun t => t.kind.modifier?.isSome).head? with
  | some ⟨.typeKind _, _, _, _⟩ => true
  | _ => false

/-! ### Going forward -/

/-- Going on from `c` by passing `tokens` leads to `d`. -/
structure Passes (c : Cursor) (tokens : List Token) (d : Cursor) : Prop where
  ahead : c.ahead = tokens ++ d.ahead
  previous : d.previous = tokens.getLast?.or c.previous
  final : d.final = c.final

theorem Passes.refl (c : Cursor) : c.Passes [] c := ⟨rfl, rfl, rfl⟩

theorem Passes.trans {c d e : Cursor} {ts us : List Token} (h : c.Passes ts d)
    (h' : d.Passes us e) : c.Passes (ts ++ us) e where
  ahead := by rw [h.ahead, h'.ahead, List.append_assoc]
  previous := by
    rw [h'.previous, h.previous, List.getLast?_append, Option.or_assoc]
  final := h'.final.trans h.final

/-- The place `d` is `c` or lies behind it in the same stream. -/
def Precedes (c d : Cursor) : Prop := ∃ tokens, c.Passes tokens d

theorem Precedes.refl (c : Cursor) : c.Precedes c := ⟨[], .refl c⟩

theorem Precedes.trans {c d e : Cursor} (h : c.Precedes d) (h' : d.Precedes e) : c.Precedes e := by
  obtain ⟨ts, hts⟩ := h
  obtain ⟨us, hus⟩ := h'
  exact ⟨ts ++ us, hts.trans hus⟩

theorem precedes_advance (c : Cursor) : c.Precedes c.advance := by
  obtain ⟨previous, ahead, final⟩ := c
  cases ahead with
  | nil => exact .refl _
  | cons t rest => exact ⟨[t], rfl, rfl, rfl⟩

theorem precedes_skipWhile (p : Token → Bool) (c : Cursor) : c.Precedes (c.skipWhile p) := by
  suffices h : ∀ previous ahead,
      Precedes ⟨previous, ahead, c.final⟩ (skipWhile.go p c previous ahead) from
    h c.previous c.ahead
  intro previous ahead
  induction ahead generalizing previous with
  | nil => exact .refl _
  | cons t rest ih =>
    rw [skipWhile.go]
    split
    · have hpass : Precedes ⟨previous, t :: rest, c.final⟩ ⟨some t, rest, c.final⟩ :=
        ⟨[t], rfl, rfl, rfl⟩
      exact hpass.trans (ih (some t))
    · exact .refl _

/-! ### After errors -/

/-- Where to go on after an error: at least one token further, at a definition that begins a
line. -/
def recover (c : Cursor) : Cursor := go c.advance.previous c.advance.ahead
where
  go (previous : Option Token) : List Token → Cursor
    | [] => { c with previous := previous, ahead := [] }
    | t :: rest =>
      let here := { c with previous := previous, ahead := t :: rest }
      if t.startsLine && here.atDefinition then here else go (some t) rest

end Cursor

end Mixin
