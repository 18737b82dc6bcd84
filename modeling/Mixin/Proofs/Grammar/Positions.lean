import Mixin.Proofs.Grammar.Reading

/-!
# Positions in a token stream

A cursor can be told by a number: that of its next token among all tokens of the stream, the one for
the end included. Wherever reading comes, this number is in range, and so are the tokens that are
looked at from there (`Cursor.StandsAt`). Going on adds one to it, except at the end.
-/

namespace Mixin.Cursor

/-- Where reading a stream can come: to the end of what any parser reads, behind skipped tokens, and
to where reading goes on after an error. -/
inductive Reached (stream : TokenStream) : Cursor → Prop
  | start : Reached stream (.ofStream stream)
  | run {α : Type} {c rest : Cursor} (p : Parser α) (hc : Reached stream c)
    (hrest : rest ∈ (p.run c).rest?) : Reached stream rest
  | skip {c : Cursor} (p : Token → Bool) (hc : Reached stream c) : Reached stream (c.skipWhile p)
  | recover {c : Cursor} (hc : Reached stream c) : Reached stream c.recover

theorem Reached.precedes {stream : TokenStream} {c : Cursor} (h : Reached stream c) :
    (ofStream stream).Precedes c := by
  induction h with
  | start => exact .refl _
  | run p _ hrest ih => exact ih.trans (p.forward _ _ hrest)
  | skip p _ ih => exact ih.trans (precedes_skipWhile p _)
  | recover _ ih => exact ih.trans ((precedes_advance _).trans (precedes_recover _))

/-- The next token is the one with the number `i`. What is looked at from here are tokens of the
stream: further ahead up to the last one, and the one before unless this is the first. -/
structure StandsAt (c : Cursor) (stream : TokenStream) (i : Nat) : Prop where
  inRange : i < stream.toList.length
  ahead : ∀ n, stream.toList[min (i + n) (stream.toList.length - 1)]? = some (c.peekNth n)
  previous : c.previous = if i = 0 then none else stream.toList[i - 1]?

variable {stream : TokenStream} {c d : Cursor} {ts : List Token}

theorem Passes.standsAt (h : (ofStream stream).Passes ts c) : c.StandsAt stream ts.length := by
  have htokens : stream.tokens = ts ++ c.ahead := h.ahead
  have hfinal : c.final = stream.final := h.final
  have hall : stream.toList = ts ++ (c.ahead ++ [c.final]) := by
    rw [TokenStream.toList, htokens, hfinal, List.append_assoc]
  have hlength : stream.toList.length = ts.length + c.ahead.length + 1 := by
    rw [hall]
    simp
    omega
  refine ⟨by omega, fun n => ?_, ?_⟩
  · by_cases hn : n < c.ahead.length
    · have hmin : min (ts.length + n) (stream.toList.length - 1) = ts.length + n := by omega
      rw [hmin, hall, List.getElem?_append_right (by omega), Nat.add_sub_cancel_left,
        List.getElem?_append_left hn, peekNth, List.getElem?_eq_getElem hn]
      rfl
    · have hmin : min (ts.length + n) (stream.toList.length - 1) = ts.length + c.ahead.length := by
        omega
      have hnone : c.ahead[n]? = none := List.getElem?_eq_none (by omega)
      rw [hmin, hall, List.getElem?_append_right (by omega), Nat.add_sub_cancel_left,
        List.getElem?_append_right (Nat.le_refl _), peekNth, hnone]
      simp
  · have hprevious : c.previous = ts.getLast?.or none := h.previous
    rw [hprevious, Option.or_none, hall]
    cases ts with
    | nil => rfl
    | cons t ts =>
      rw [if_neg (by simp), List.getElem?_append_left (by simp), List.getLast?_eq_getElem?]

theorem Passes.standsAt_advance (hinner : ∀ t ∈ stream.tokens, t.kind ≠ .eof)
    (hend : stream.final.kind = .eof) (h : (ofStream stream).Passes ts c) :
    c.advance.StandsAt stream (if c.peek.kind = .eof then ts.length else ts.length + 1) := by
  cases hahead : c.ahead with
  | nil =>
    have hpeek : c.peek = stream.final := by
      have hfinal : c.final = stream.final := h.final
      simp [peek, hahead, hfinal]
    have hstay : c.advance = c := by simp [advance, hahead]
    rw [hpeek, if_pos hend, hstay]
    exact h.standsAt
  | cons t rest =>
    have htokens : stream.tokens = ts ++ c.ahead := h.ahead
    have hpeek : c.peek = t := by simp [peek, hahead]
    have ht : t.kind ≠ .eof := hinner t (by simp [htokens, hahead])
    have hnext := (h.trans (passes_advance hahead)).standsAt
    rw [hpeek, if_neg ht]
    rwa [List.length_append, List.length_singleton] at hnext

end Mixin.Cursor
