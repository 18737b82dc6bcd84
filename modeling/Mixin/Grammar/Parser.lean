import Mixin.Grammar.Cursor
import Mixin.Tree.TypeExpr

/-!
# Readers of tokens

A `Parser` reads something at a cursor: it succeeds and leaves the cursor behind what it read, or
fails and leaves it where it gave up. It never goes back, and carries the proof of that. Repetition
(`many`) and nesting (`fix`) go on only after a token has been passed, so every parser ends; one
that would go on without passing a token is stuck instead.
-/

namespace Mixin

inductive Outcome (α : Type) where
  | done (value : α) (rest : Cursor)
  | failed (error : SyntaxError) (rest : Cursor)
  | stuck

def Outcome.rest? {α : Type} : Outcome α → Option Cursor
  | done _ rest => some rest
  | failed _ rest => some rest
  | stuck => none

/-- What becomes of reading that begins at `c` and never goes back. -/
def Outcome.After {α : Type} (c : Cursor) (o : Outcome α) : Prop :=
  ∀ rest ∈ o.rest?, c.Precedes rest

theorem Outcome.after_done {α : Type} {c rest : Cursor} (a : α) (h : c.Precedes rest) :
    After c (done a rest) := by
  rintro _ ⟨⟩
  exact h

theorem Outcome.after_failed {α : Type} {c rest : Cursor} (e : SyntaxError) (h : c.Precedes rest) :
    After c (failed e rest : Outcome α) := by
  rintro _ ⟨⟩
  exact h

theorem Outcome.after_stuck {α : Type} (c : Cursor) : After c (stuck : Outcome α) := by
  rintro _ ⟨⟩

theorem Outcome.After.trans {α : Type} {c d : Cursor} {o : Outcome α} (h : c.Precedes d)
    (ho : After d o) : After c o :=
  fun rest hrest => h.trans (ho rest hrest)

structure Parser (α : Type) where
  run : Cursor → Outcome α
  forward : ∀ c, (run c).After c

namespace Parser

variable {α β : Type}

protected def pure (a : α) : Parser α where
  run := fun c => .done a c
  forward := fun c => Outcome.after_done a (.refl c)

protected def bind (p : Parser α) (f : α → Parser β) : Parser β where
  run := fun c =>
    match p.run c with
    | .done a rest => (f a).run rest
    | .failed e rest => .failed e rest
    | .stuck => .stuck
  forward := by
    intro c
    have hp := p.forward c
    cases hrun : p.run c with
    | done a rest =>
      rw [hrun] at hp
      exact ((f a).forward rest).trans (hp rest rfl)
    | failed e rest =>
      rw [hrun] at hp
      exact Outcome.after_failed e (hp rest rfl)
    | stuck => exact Outcome.after_stuck c

instance : Monad Parser where
  pure := Parser.pure
  bind := Parser.bind

def fail (e : SyntaxError) : Parser α where
  run := fun c => .failed e c
  forward := fun c => Outcome.after_failed e (.refl c)

def look (f : Cursor → α) : Parser α where
  run := fun c => .done (f c) c
  forward := fun c => Outcome.after_done (f c) (.refl c)

def unexpected (expected : Expected) : Parser α where
  run := fun c => .failed (c.unexpected expected) c
  forward := fun c => Outcome.after_failed _ (.refl c)

def next : Parser Token where
  run := fun c => .done c.peek c.advance
  forward := fun c => Outcome.after_done _ c.precedes_advance

def eat? (kind : TokenKind) : Parser (Option Token) where
  run := fun c => if c.isAt kind then .done (some c.peek) c.advance else .done none c
  forward := by
    intro c
    split
    · exact Outcome.after_done _ c.precedes_advance
    · exact Outcome.after_done _ (.refl c)

/-- Reads a token of the given kind, and refuses any other as not `expected`. -/
def expect (kind : TokenKind) (expected : Expected) : Parser Token where
  run := fun c =>
    if c.isAt kind then .done c.peek c.advance else .failed (c.unexpected expected) c
  forward := by
    intro c
    split
    · exact Outcome.after_done _ c.precedes_advance
    · exact Outcome.after_failed _ (.refl c)

/-- Reads the one token of a kind that can stand here. -/
def token (kind : TokenKind) : Parser Token := expect kind (.oneOf [kind])

/-- What becomes of reading items for as long as `item` finds one. -/
def runMany (item : Parser (Option α)) (c : Cursor) : Outcome (List α) :=
  match item.run c with
  | .done none rest => .done [] rest
  | .done (some a) rest =>
    if rest.ahead.length < c.ahead.length then
      match runMany item rest with
      | .done as stop => .done (a :: as) stop
      | .failed e stop => .failed e stop
      | .stuck => .stuck
    else .stuck
  | .failed e rest => .failed e rest
  | .stuck => .stuck
termination_by c.ahead.length

theorem runMany_after (item : Parser (Option α)) (c : Cursor) : (runMany item c).After c := by
  fun_induction runMany item c with
  | case1 c rest hrun => exact Outcome.after_done [] ((hrun ▸ item.forward c) rest rfl)
  | case2 c a rest hrun _ as stop hmany ih =>
    have hstep : c.Precedes rest := (hrun ▸ item.forward c) rest rfl
    exact Outcome.after_done (a :: as) (hstep.trans ((hmany ▸ ih) stop rfl))
  | case3 c a rest hrun _ e stop hmany ih =>
    have hstep : c.Precedes rest := (hrun ▸ item.forward c) rest rfl
    exact Outcome.after_failed e (hstep.trans ((hmany ▸ ih) stop rfl))
  | case4 c => exact Outcome.after_stuck c
  | case5 c => exact Outcome.after_stuck c
  | case6 c e rest hrun => exact Outcome.after_failed e ((hrun ▸ item.forward c) rest rfl)
  | case7 c => exact Outcome.after_stuck c

def many (item : Parser (Option α)) : Parser (List α) where
  run := runMany item
  forward := runMany_after item

/-- What becomes of reading what `body` describes, where `body` reads nested things of the same sort
with its argument. -/
def runFix (body : Parser α → Parser α) (c : Cursor) : { o : Outcome α // o.After c } :=
  let nested (rest : Cursor) : { o : Outcome α // o.After rest } :=
    if _h : rest.ahead.length < c.ahead.length then runFix body rest
    else ⟨.stuck, Outcome.after_stuck rest⟩
  let inner : Parser α := ⟨fun rest => (nested rest).1, fun rest => (nested rest).2⟩
  ⟨(body inner).run c, (body inner).forward c⟩
termination_by c.ahead.length

/-- Reads what `body` describes, where `body` reads nested things of the same sort with its
argument. -/
def fix (body : Parser α → Parser α) : Parser α where
  run := fun c => (runFix body c).1
  forward := fun c => (runFix body c).2

/-- Reads one item or more, with commas between them. -/
def commaList (item : Parser α) : Parser (List α) := do
  let first ← item
  let others ← many do
    match ← eat? .comma with
    | some _ => return some (← item)
    | none => return none
  return first :: others

/-- Reads an item behind a token of the given kind, if there is one. -/
def behind? (kind : TokenKind) (item : Parser α) : Parser (Option α) := do
  match ← eat? kind with
  | some _ => return some (← item)
  | none => return none

/-- Reads items in brackets, possibly none. -/
def enclosed (left right : TokenKind) (item : Parser α) : Parser (List α) := do
  let _ ← token left
  match ← eat? right with
  | some _ => return []
  | none =>
    let items ← commaList item
    let _ ← expect right (.oneOf [.comma, right])
    return items

def skipSemicolons : Parser Unit where
  run := fun c => .done () (c.skipWhile fun t => t.kind == .semicolon)
  forward := fun c => Outcome.after_done () (c.precedes_skipWhile _)

/-- Checks that a statement may end here: before a semicolon, before a token of the kind `closing`,
at the end of a line and at the end of the text. -/
def statementEnd (closing : TokenKind) : Parser Unit where
  run := fun c =>
    if c.isAt .semicolon || c.isAt closing || c.isAt .eof || c.peek.startsLine then .done () c
    else .failed (c.unexpected .statementEnd) c
  forward := by
    intro c
    split
    · exact Outcome.after_done () (.refl c)
    · exact Outcome.after_failed _ (.refl c)

def statements (item : Parser α) : Parser (List α) := do
  let _ ← token .leftBrace
  many do
    skipSemicolons
    match ← eat? .rightBrace with
    | some _ => return none
    | none =>
      let statement ← item
      statementEnd .rightBrace
      return some statement

def identifier : Parser Ident := do
  let t ← token .identifier
  return ⟨t.lexeme, t.span⟩

/-- Reads a name or an operator that serves as one. -/
def memberName : Parser Ident := do
  if ← look (·.isAt .operator) then
    let t ← next
    return ⟨t.lexeme, t.span⟩
  else identifier

end Parser

end Mixin
