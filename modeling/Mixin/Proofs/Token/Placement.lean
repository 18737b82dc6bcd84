import Mixin.Proofs.Token.Partition

/-!
# Lines and columns

What the numbers in a span have to be is said by the text alone (`Span.Right`): both ends lie
between characters, the line is one more than the line feeds before the start, the column one more
than the characters between the last of these and the start. Advancing through a text counts the
same (`Location.advanceAll_start`). So the spans of tokens, those given by offsets, the empty ones
behind tokens and at the end of the text, and those that join two right ones are right.
-/

namespace Mixin

/-- The characters behind the last line feed. -/
def lastLine (cs : List Char) : List Char := (cs.reverse.takeWhile fun c => c ≠ '\n').reverse

/-- The offset lies between two characters of the text, or at one of its ends. -/
def IsBoundary (text : String) (offset : Nat) : Prop :=
  ∃ before after, text = before ++ after ∧ offset = before.utf8ByteSize

/-- The numbers in a span are right for the text in which it stands. -/
structure Span.Right (text : String) (s : Span) : Prop where
  ordered : s.start ≤ s.stop
  inside : s.stop ≤ text.utf8ByteSize
  stop : IsBoundary text s.stop
  /-- Before the start of the span stands what its line and its column count. -/
  start : ∃ before after, text = before ++ after ∧ s.start = before.utf8ByteSize ∧
    s.line = 1 + before.toList.count '\n' ∧ s.column = 1 + (lastLine before.toList).length

/-! ### Counting -/

theorem lastLine_concat (cs : List Char) (c : Char) :
    lastLine (cs ++ [c]) = if c = '\n' then [] else lastLine cs ++ [c] := by
  unfold lastLine
  rw [List.reverse_append, List.reverse_singleton, List.singleton_append]
  by_cases hc : c = '\n'
  · rw [List.takeWhile_cons_of_neg (by simp [hc]), if_pos hc, List.reverse_nil]
  · rw [List.takeWhile_cons_of_pos (by simp [hc]), if_neg hc, List.reverse_cons]

theorem Location.advanceAll_start (cs : List Char) :
    Location.start.advanceAll cs =
      ⟨(String.ofList cs).utf8ByteSize, 1 + cs.count '\n', 1 + (lastLine cs).length⟩ := by
  -- From the end: the last character decides whether the column starts anew.
  induction cs using List.reverseRecOn with
  | nil => rfl
  | append_singleton cs c ih =>
    have hoffset := Location.offset_advanceAll Location.start (cs ++ [c])
    rw [Location.advanceAll_append, ih] at hoffset ⊢
    rw [Location.advanceAll_cons, Location.advanceAll_nil] at hoffset ⊢
    rw [Location.advance, Location.mk.injEq]
    refine ⟨hoffset.trans (Nat.zero_add _), ?_, ?_⟩
    · rw [List.count_append, List.count_singleton]
      by_cases hc : c = '\n' <;> simp [hc, Nat.add_assoc]
    · rw [lastLine_concat]
      by_cases hc : c = '\n' <;> simp [hc, Nat.add_assoc]

theorem lastLine_append_of_notMem {cs ds : List Char} (h : '\n' ∉ ds) :
    lastLine (cs ++ ds) = lastLine cs ++ ds := by
  induction ds using List.reverseRecOn with
  | nil => simp
  | append_singleton ds d ih =>
    rw [List.mem_append, not_or, List.mem_singleton] at h
    rw [← List.append_assoc, lastLine_concat, if_neg (Ne.symm h.2), ih h.1, List.append_assoc]

/-- Characters take up bytes, so different points have different offsets. -/
theorem Location.eq_nil_of_offset {loc : Location} {cs : List Char}
    (h : (loc.advanceAll cs).offset = loc.offset) : cs = [] := by
  cases cs with
  | nil => rfl
  | cons c cs =>
    have hpos := c.utf8Size_pos
    have hoffset : loc.offset + c.utf8Size + (String.ofList cs).utf8ByteSize = loc.offset := by
      rw [advanceAll_cons, offset_advanceAll] at h
      exact h
    omega

/-- A point is found by its offset exactly if some beginning of the text leads to it. -/
theorem Location.find?_eq_some_iff {loc point : Location} {cs : List Char} {offset : Nat} :
    loc.find? cs offset = some point ↔
      ∃ before after, cs = before ++ after ∧ point = loc.advanceAll before ∧
        point.offset = offset := by
  induction cs generalizing loc with
  | nil =>
    unfold find?
    split
    next h =>
      constructor
      · rintro ⟨⟩
        exact ⟨[], [], rfl, rfl, h⟩
      · rintro ⟨before, after, happend, rfl, -⟩
        rw [(List.nil_eq_append_iff.mp happend).1, advanceAll_nil]
    next h =>
      simp only [reduceCtorEq, false_iff]
      rintro ⟨before, after, happend, rfl, hoffset⟩
      rw [(List.nil_eq_append_iff.mp happend).1] at hoffset
      exact h hoffset
  | cons c cs ih =>
    unfold find?
    split
    next h =>
      constructor
      · rintro ⟨⟩
        exact ⟨[], c :: cs, rfl, rfl, h⟩
      · rintro ⟨before, after, -, rfl, hoffset⟩
        rw [eq_nil_of_offset (hoffset.trans h.symm), advanceAll_nil]
    next h =>
      rw [ih]
      constructor
      · rintro ⟨before, after, rfl, rfl, hoffset⟩
        exact ⟨c :: before, after, rfl, rfl, hoffset⟩
      · rintro ⟨before, after, happend, rfl, hoffset⟩
        cases before with
        | nil => exact absurd hoffset h
        | cons d ds =>
          obtain ⟨rfl, rfl⟩ := List.cons.inj happend
          exact ⟨ds, after, rfl, rfl, hoffset⟩

/-! ### Right spans -/

namespace Span

variable {text before lexeme rest : String} {s t : Span}

theorem right_of_location (htext : text = before ++ lexeme ++ rest)
    (hlocation : s.location = Location.start.advanceAll before.toList)
    (hstop : s.stop = (before ++ lexeme).utf8ByteSize) : s.Right text := by
  rw [Location.advanceAll_start, String.ofList_toList, location, Location.mk.injEq] at hlocation
  obtain ⟨hstart, hline, hcolumn⟩ := hlocation
  have hsize : text.utf8ByteSize = (before ++ lexeme).utf8ByteSize + rest.utf8ByteSize := by
    rw [htext, String.utf8ByteSize_append]
  have hwidth := String.utf8ByteSize_append (s := before) (t := lexeme)
  refine ⟨by omega, by omega, ⟨before ++ lexeme, rest, htext, hstop⟩,
    ⟨before, lexeme ++ rest, ?_, hstart, hline, hcolumn⟩⟩
  rw [htext, String.append_assoc]

theorem right_after (htext : text = before ++ lexeme ++ rest)
    (hlocation : s.location = Location.start.advanceAll before.toList)
    (hstop : s.stop = (before ++ lexeme).utf8ByteSize) (hfeed : '\n' ∉ lexeme.toList) :
    (s.after lexeme).Right text := by
  have hempty : text = before ++ lexeme ++ "" ++ rest := by rw [String.append_empty, htext]
  refine right_of_location hempty ?_ ?_
  · rw [Location.advanceAll_start, location, Location.mk.injEq] at hlocation
    obtain ⟨-, hline, hcolumn⟩ := hlocation
    rw [Location.advanceAll_start, String.ofList_toList, String.toList_append, List.count_append,
      List.count_eq_zero.mpr hfeed, lastLine_append_of_notMem hfeed, List.length_append]
    show Location.mk s.stop s.line (s.column + lexeme.length) = _
    rw [hstop, hline, hcolumn, String.length_toList, Nat.add_zero, Nat.add_assoc]
  · rw [String.append_empty]
    exact hstop

theorem right_endOf (file : SourceFile) (text : String) : (endOf file text).Right text := by
  have htext : text = text ++ "" ++ "" := by simp
  refine right_of_location htext rfl ?_
  simp [endOf, ofLocation, Location.advanceAll_start]

/-- Offsets give a right span if they lie between characters, the second not before the first. -/
theorem right_ofOffsets {file : SourceFile} {start stop : Nat}
    (h : ofOffsets? file text start stop = some s) (hle : start ≤ stop)
    (hstop : IsBoundary text stop) : s.Right text := by
  obtain ⟨loc, hloc, rfl⟩ := Option.map_eq_some_iff.mp h
  obtain ⟨before, after, htext, rfl, rfl⟩ := Location.find?_eq_some_iff.mp hloc
  have hbefore : text = String.ofList before ++ String.ofList after := by
    rw [← String.ofList_append, ← htext, String.ofList_toList]
  rw [Location.advanceAll_start] at hle ⊢
  refine ⟨hle, ?_, hstop, ⟨_, _, hbefore, rfl, ?_, ?_⟩⟩
  · obtain ⟨upTo, rest, rfl, rfl⟩ := hstop
    simp [ofLocation]
  · simp [ofLocation]
  · simp [ofLocation]

theorem Right.through (hs : s.Right text) (ht : t.Right text) : (s.through t).Right text := by
  have hmax : IsBoundary text (max s.stop t.stop) := by
    rcases Nat.le_total s.stop t.stop with hle | hle
    · rw [Nat.max_eq_right hle]
      exact ht.stop
    · rw [Nat.max_eq_left hle]
      exact hs.stop
  have hinside : max s.stop t.stop ≤ text.utf8ByteSize := Nat.max_le.mpr ⟨hs.inside, ht.inside⟩
  unfold Span.through
  split
  · rw [Nat.max_comm]
    exact ⟨ht.ordered.trans (Nat.le_max_right ..), hinside, hmax, ht.start⟩
  · exact ⟨hs.ordered.trans (Nat.le_max_left ..), hinside, hmax, hs.start⟩

end Span

/-! ### Tokens -/

theorem TokenStream.right_of_mem {file : SourceFile} {text : String} {t : Token}
    (ht : t ∈ (ofText file text).toList) :
    t.span.file = file ∧ t.span.Right text ∧ (t.span.after t.lexeme).Right text := by
  obtain ⟨ts, us, hsplit⟩ := List.append_of_mem ht
  obtain ⟨upTo, gap, after, htext, hnext⟩ :=
    (splits_scanFrom file Location.start text.toList).exists_isNext [] "" rfl rfl (by simp) hsplit
  rw [String.empty_append, String.ofList_toList] at htext
  exact ⟨hnext.file, Span.right_of_location htext hnext.location hnext.stop,
    Span.right_after htext hnext.location hnext.stop hnext.feed⟩

end Mixin
