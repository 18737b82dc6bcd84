import Mixin.Proofs.Token.Classes

/-!
# Gaps as languages

A gap is made of blanks, of comments that end with their line, and of comments between marks. What
is skipped at the head of an input is a gap, and what it stops at begins with neither a blank nor a
comment (`exists_gap`); a whole gap is skipped wherever it stands (`gapLength_append`).
-/

namespace Mixin.Lexicon

open Text
open scoped Computability

/-- Two slashes and what follows them on their line. -/
def lineComments : Language Char := {['/', '/']} * (oneOf (· != '\n'))∗

/-- A mark that opens a comment, and all up to the first mark behind it that closes one. -/
def blockComments : Language Char :=
  {cs | ∃ body, ¬ ['*', '/'] <:+: body ∧ cs = '/' :: '*' :: (body ++ ['*', '/'])}

/-- What can stand before a token: blanks and comments, each of which is at an end. -/
def gaps : Language Char :=
  (oneOf isBlank + lineComments * oneOf (· == '\n') + blockComments)∗

/-- What can stand at the end of a text, where a comment can do without the end of its line. -/
def finalGaps : Language Char := gaps * (1 + lineComments)

/-- Neither a blank nor a comment stands at the head of the input. -/
structure IsBare (input : List Char) : Prop where
  blank : ∀ c ∈ input.head?, isBlank c = false
  line : ¬ ['/', '/'] <+: input
  block : ∀ rest, input = '/' :: '*' :: rest → ¬ ['*', '/'] <:+: rest

theorem isBare_nil : IsBare [] := ⟨by simp, by simp, by simp⟩

/-! ### Languages -/

theorem mem_lineComments {cs : List Char} :
    cs ∈ lineComments ↔ ∃ body, cs = '/' :: '/' :: body ∧ '\n' ∉ body := by
  constructor
  · rintro ⟨_, rfl, body, hbody, rfl⟩
    refine ⟨body, rfl, fun hfeed => ?_⟩
    simpa using mem_kstar_oneOf.mp hbody '\n' hfeed
  · rintro ⟨body, rfl, hbody⟩
    refine ⟨['/', '/'], rfl, body, mem_kstar_oneOf.mpr fun c hc => ?_, rfl⟩
    rw [bne_iff_ne]
    rintro rfl
    exact hbody hc

theorem nil_mem_gaps : [] ∈ gaps := Language.nil_mem_kstar _

theorem blank_mem_gaps {c : Char} {gap : List Char} (hc : isBlank c = true) (h : gap ∈ gaps) :
    c :: gap ∈ gaps :=
  cons_mem_kstar (.inl (.inl ⟨c, hc, rfl⟩)) h

theorem line_mem_gaps {body gap : List Char} (hbody : '\n' ∉ body) (h : gap ∈ gaps) :
    '/' :: '/' :: (body ++ '\n' :: gap) ∈ gaps := by
  have hline : '/' :: '/' :: body ++ ['\n'] ∈ lineComments * oneOf (· == '\n') :=
    ⟨_, mem_lineComments.mpr ⟨body, rfl, hbody⟩, _, ⟨'\n', rfl, rfl⟩, rfl⟩
  have hgap := cons_mem_kstar (.inl (.inr hline)) h
  rwa [List.append_assoc] at hgap

theorem block_mem_gaps {body gap : List Char} (hbody : ¬ ['*', '/'] <:+: body) (h : gap ∈ gaps) :
    '/' :: '*' :: (body ++ '*' :: '/' :: gap) ∈ gaps := by
  have hblock : '/' :: '*' :: (body ++ ['*', '/']) ∈ blockComments := ⟨body, hbody, rfl⟩
  have hgap := cons_mem_kstar (.inr hblock) h
  rwa [List.cons_append, List.cons_append, List.append_assoc] at hgap

@[elab_as_elim]
theorem gaps_induction {motive : (gap : List Char) → gap ∈ gaps → Prop}
    (nil : motive [] nil_mem_gaps)
    (blank : ∀ c gap (hc : isBlank c = true) (h : gap ∈ gaps), motive gap h →
      motive (c :: gap) (blank_mem_gaps hc h))
    (line : ∀ body gap (hbody : '\n' ∉ body) (h : gap ∈ gaps), motive gap h →
      motive ('/' :: '/' :: (body ++ '\n' :: gap)) (line_mem_gaps hbody h))
    (block : ∀ body gap (hbody : ¬ ['*', '/'] <:+: body) (h : gap ∈ gaps), motive gap h →
      motive ('/' :: '*' :: (body ++ '*' :: '/' :: gap)) (block_mem_gaps hbody h))
    {gap : List Char} (h : gap ∈ gaps) : motive gap h := by
  obtain ⟨parts, rfl, hparts⟩ := h
  induction parts with
  | nil => exact nil
  | cons part parts ih =>
    rw [List.forall_mem_cons] at hparts
    have hgap : parts.flatten ∈ gaps := ⟨parts, rfl, hparts.2⟩
    have hrest := ih hparts.2
    simp only [List.flatten_cons]
    rcases hparts.1 with (⟨c, hc, rfl⟩ | ⟨_, hline, _, ⟨c, hc, rfl⟩, rfl⟩) | ⟨body, hbody, rfl⟩
    · exact blank c _ hc hgap hrest
    · obtain ⟨body, rfl, hbody⟩ := mem_lineComments.mp hline
      obtain rfl : c = '\n' := by simpa using hc
      simpa using line body _ hbody hgap hrest
    · simpa using block body _ hbody hgap hrest

theorem append_mem_gaps {gap gap' : List Char} (h : gap ∈ gaps) (h' : gap' ∈ gaps) :
    gap ++ gap' ∈ gaps := by
  obtain ⟨parts, rfl, hparts⟩ := h
  obtain ⟨parts', rfl, hparts'⟩ := h'
  exact ⟨parts ++ parts', List.flatten_append.symm, List.forall_mem_append.mpr ⟨hparts, hparts'⟩⟩

theorem mem_finalGaps_of_mem_gaps {gap : List Char} (h : gap ∈ gaps) : gap ∈ finalGaps :=
  ⟨gap, h, [], .inl rfl, List.append_nil _⟩

theorem append_mem_finalGaps {gap gap' : List Char} (h : gap ∈ gaps) (h' : gap' ∈ finalGaps) :
    gap ++ gap' ∈ finalGaps := by
  obtain ⟨others, hothers, last, hlast, rfl⟩ := h'
  exact ⟨gap ++ others, append_mem_gaps h hothers, last, hlast, List.append_assoc ..⟩

/-! ### Marks -/

theorem pair_infix_cons {a b c : Char} {cs : List Char} :
    [a, b] <:+: c :: cs ↔ (c = a ∧ cs.head? = some b) ∨ [a, b] <:+: cs := by
  rw [List.infix_cons_iff]
  refine or_congr ?_ Iff.rfl
  cases cs with
  | nil => simp
  | cons d cs => simp [eq_comm]

theorem pair_infix_append {a b : Char} {cs ds : List Char} (h : [a, b] <:+: cs ++ ds) :
    [a, b] <:+: cs ∨ [a, b] <:+: ds ∨ (cs.getLast? = some a ∧ ds.head? = some b) := by
  induction cs with
  | nil => exact .inr (.inl h)
  | cons c cs ih =>
    rw [List.cons_append, pair_infix_cons] at h
    rcases h with ⟨rfl, hhead⟩ | h
    · cases cs with
      | nil => exact .inr (.inr ⟨rfl, hhead⟩)
      | cons d cs => exact .inl (pair_infix_cons.mpr (.inl ⟨rfl, hhead⟩))
    · rcases ih h with h | h | ⟨hlast, hhead⟩
      · exact .inl (pair_infix_cons.mpr (.inr h))
      · exact .inr (.inl h)
      · refine .inr (.inr ⟨?_, hhead⟩)
        cases cs with
        | nil => cases hlast
        | cons d cs => rwa [List.getLast?_cons_cons]

theorem close_infix_blank {b : Char} (hb : isBlank b = true) (cs : List Char) {ds : List Char}
    (h : ['*', '/'] <:+: cs ++ b :: ds) : ['*', '/'] <:+: cs ∨ ['*', '/'] <:+: ds := by
  rcases pair_infix_append h with h | h | ⟨-, hhead⟩
  · exact .inl h
  · rcases pair_infix_cons.mp h with ⟨rfl, -⟩ | h
    · exact absurd hb (by decide)
    · exact .inr h
  · obtain rfl := Option.some.inj hhead
    exact absurd hb (by decide)

theorem blockCommentLength?_cons (c : Char) (rest : List Char) :
    blockCommentLength? (c :: rest) = if c = '*' ∧ rest.head? = some '/' then some 2
      else (blockCommentLength? rest).map (· + 1) := rfl

theorem blockCommentLength?_append {body : List Char} (h : ¬ ['*', '/'] <:+: body)
    (rest : List Char) :
    blockCommentLength? (body ++ '*' :: '/' :: rest) = some (body.length + 2) := by
  induction body with
  | nil => rfl
  | cons c body ih =>
    rw [pair_infix_cons, not_or] at h
    have hopen : ¬ (c = '*' ∧ (body ++ '*' :: '/' :: rest).head? = some '/') := by
      cases body with
      | nil => simp
      | cons d body => exact h.1
    rw [List.cons_append, blockCommentLength?_cons, if_neg hopen, ih h.2]
    rfl

theorem exists_of_blockCommentLength {input : List Char} {n : Nat}
    (h : blockCommentLength? input = some n) :
    ∃ body rest, input = body ++ '*' :: '/' :: rest ∧ ¬ ['*', '/'] <:+: body ∧
      n = body.length + 2 := by
  induction input generalizing n with
  | nil => cases h
  | cons c rest ih =>
    rw [blockCommentLength?_cons] at h
    split at h
    next hclose =>
      obtain rfl := Option.some.inj h
      obtain ⟨rfl, hhead⟩ := hclose
      cases rest with
      | nil => cases hhead
      | cons d rest =>
        obtain rfl := Option.some.inj hhead
        exact ⟨[], rest, rfl, by simp, rfl⟩
    next hopen =>
      obtain ⟨m, hm, rfl⟩ := Option.map_eq_some_iff.mp h
      obtain ⟨body, rest, rfl, hbody, rfl⟩ := ih hm
      refine ⟨c :: body, rest, rfl, ?_, rfl⟩
      rw [pair_infix_cons, not_or]
      refine ⟨fun hclose => hopen ⟨hclose.1, ?_⟩, hbody⟩
      cases body with
      | nil => cases hclose.2
      | cons d body => exact hclose.2

theorem blockCommentLength?_eq_none_iff {input : List Char} :
    blockCommentLength? input = none ↔ ¬ ['*', '/'] <:+: input := by
  induction input with
  | nil => exact iff_of_true rfl (by simp)
  | cons c rest ih =>
    rw [blockCommentLength?_cons, pair_infix_cons, not_or, ← ih]
    split
    next hclose => simp [hclose]
    next hopen => simp [hopen]

/-! ### Lengths -/

theorem gapPieceLength_line (rest : List Char) :
    gapPieceLength ('/' :: '/' :: rest) = 2 + (rest.takeWhile (· ≠ '\n')).length := rfl

theorem gapPieceLength_block (rest : List Char) :
    gapPieceLength ('/' :: '*' :: rest) = ((blockCommentLength? rest).map (2 + ·)).getD 0 := rfl

theorem gapPieceLength_blank {c : Char} (h : isBlank c = true) (rest : List Char) :
    gapPieceLength (c :: rest) = 1 := by
  have hslash : c ≠ '/' := by
    rintro rfl
    revert h
    decide
  rw [gapPieceLength]
  · rw [if_pos h]
  · exact fun _ hc => absurd hc hslash
  · exact fun _ hc => absurd hc hslash

theorem gapPieceLength_eq_zero_iff {input : List Char} :
    gapPieceLength input = 0 ↔ IsBare input := by
  fun_cases gapPieceLength input with
  | case1 rest => exact iff_of_false (by omega) fun h => h.line ⟨rest, rfl⟩
  | case2 rest =>
    have hzero : ((blockCommentLength? rest).map (2 + ·)).getD 0 = 0 ↔
        blockCommentLength? rest = none := by
      cases blockCommentLength? rest <;> simp
    rw [hzero, blockCommentLength?_eq_none_iff]
    constructor
    · intro hopen
      refine ⟨fun c hc => ?_, by simp, fun others heq => ?_⟩
      · obtain rfl := Option.some.inj hc
        decide
      · obtain rfl : rest = others := by simpa using heq
        exact hopen
    · exact fun h => h.block rest rfl
  | case3 c rest _ _ hblank =>
    exact iff_of_false Nat.one_ne_zero fun h => by simp [h.blank c rfl] at hblank
  | case4 c rest hline hblock hblank =>
    refine iff_of_true rfl ⟨fun d hd => ?_, ?_, fun others heq => ?_⟩
    · obtain rfl : c = d := by simpa using hd
      exact Bool.not_eq_true _ ▸ hblank
    · rintro ⟨others, heq⟩
      obtain ⟨rfl, rfl⟩ := List.cons.inj heq.symm
      exact hline others rfl rfl
    · obtain ⟨rfl, rfl⟩ := List.cons.inj heq
      exact absurd rfl (hblock others rfl)
  | case5 => exact iff_of_true rfl isBare_nil

theorem gapLength_nil : gapLength [] = 0 := by rw [gapLength]

theorem gapLength_cons (c : Char) (rest : List Char) :
    gapLength (c :: rest) = if gapPieceLength (c :: rest) = 0 then 0
      else gapPieceLength (c :: rest) +
        gapLength ((c :: rest).drop (gapPieceLength (c :: rest))) := by
  rw [gapLength]

theorem gapLength_eq (input : List Char) :
    gapLength input = gapPieceLength input + gapLength (input.drop (gapPieceLength input)) := by
  cases input with
  | nil => exact (Nat.zero_add _).symm
  | cons c rest =>
    rw [gapLength_cons]
    split
    next hzero => rw [hzero, List.drop_zero, gapLength_cons, if_pos hzero]
    next => rfl

theorem gapLength_of_isBare {input : List Char} (h : IsBare input) : gapLength input = 0 := by
  have hzero := gapPieceLength_eq_zero_iff.mpr h
  cases input with
  | nil => exact gapLength_nil
  | cons c rest => rw [gapLength_cons, if_pos hzero]

theorem gapLength_blank {c : Char} (h : isBlank c = true) (rest : List Char) :
    gapLength (c :: rest) = 1 + gapLength rest := by
  rw [gapLength_eq, gapPieceLength_blank h]
  rfl

theorem gapLength_line {body : List Char} (h : '\n' ∉ body) (rest : List Char) :
    gapLength ('/' :: '/' :: (body ++ rest)) =
      2 + body.length + (rest.takeWhile (· ≠ '\n')).length +
        gapLength (rest.dropWhile (· ≠ '\n')) := by
  have hbody : ∀ c ∈ body, decide (c ≠ '\n') = true := by
    intro c hc
    rw [decide_eq_true_eq]
    rintro rfl
    exact h hc
  have hpiece : gapPieceLength ('/' :: '/' :: (body ++ rest)) =
      (body ++ rest.takeWhile (· ≠ '\n')).length + 1 + 1 := by
    rw [gapPieceLength_line, List.takeWhile_append_of_pos hbody, List.length_append]
    omega
  have hsplit : body ++ rest =
      (body ++ rest.takeWhile (· ≠ '\n')) ++ rest.dropWhile (· ≠ '\n') := by
    rw [List.append_assoc, List.takeWhile_append_dropWhile]
  rw [gapLength_eq, hpiece, List.drop_succ_cons, List.drop_succ_cons, hsplit, List.drop_left,
    List.length_append]
  omega

theorem gapLength_block {body : List Char} (h : ¬ ['*', '/'] <:+: body) (rest : List Char) :
    gapLength ('/' :: '*' :: (body ++ '*' :: '/' :: rest)) = body.length + 4 + gapLength rest := by
  have hpiece : gapPieceLength ('/' :: '*' :: (body ++ '*' :: '/' :: rest)) =
      (body ++ ['*', '/']).length + 1 + 1 := by
    rw [gapPieceLength_block, blockCommentLength?_append h]
    simp only [Option.map_some, Option.getD_some, List.length_append, List.length_cons,
      List.length_nil]
    omega
  have hsplit : body ++ '*' :: '/' :: rest = (body ++ ['*', '/']) ++ rest := by simp
  rw [gapLength_eq, hpiece, List.drop_succ_cons, List.drop_succ_cons, hsplit, List.drop_left,
    List.length_append]
  rfl

theorem gapLength_lineComment {cs : List Char} (h : cs ∈ lineComments) :
    gapLength cs = cs.length := by
  obtain ⟨body, rfl, hbody⟩ := mem_lineComments.mp h
  have hlength := gapLength_line hbody []
  rw [List.append_nil] at hlength
  rw [hlength, List.takeWhile_nil, List.dropWhile_nil, gapLength_of_isBare isBare_nil]
  simp only [List.length_cons, List.length_nil]
  omega

theorem gapLength_append {gap : List Char} (h : gap ∈ gaps) (rest : List Char) :
    gapLength (gap ++ rest) = gap.length + gapLength rest := by
  induction h using gaps_induction with
  | nil => simp
  | blank c gap hc _ ih =>
    rw [List.cons_append, gapLength_blank hc, ih, List.length_cons]
    omega
  | line body gap hbody _ ih =>
    have hinput : '/' :: '/' :: (body ++ '\n' :: gap) ++ rest =
        '/' :: '/' :: (body ++ '\n' :: (gap ++ rest)) := by simp
    have hfeed : gapLength ('\n' :: (gap ++ rest)) = 1 + (gap.length + gapLength rest) := by
      rw [gapLength_blank (by decide), ih]
    rw [hinput, gapLength_line hbody]
    simp only [List.takeWhile_cons, List.dropWhile_cons, ne_eq, not_true, decide_false,
      Bool.false_eq_true, if_false, hfeed, List.length_cons, List.length_append, List.length_nil]
    omega
  | block body gap hbody _ ih =>
    have hinput : '/' :: '*' :: (body ++ '*' :: '/' :: gap) ++ rest =
        '/' :: '*' :: (body ++ '*' :: '/' :: (gap ++ rest)) := by simp
    rw [hinput, gapLength_block hbody, ih]
    simp only [List.length_cons, List.length_append]
    omega

/-- Where a blank or a comment stands, the input is a comment to its end, or begins with a gap. -/
theorem exists_of_not_isBare {input : List Char} (h : ¬ IsBare input) :
    input ∈ lineComments ∨ ∃ gap rest, input = gap ++ rest ∧ gap ∈ gaps ∧ gap ≠ [] := by
  rw [← gapPieceLength_eq_zero_iff] at h
  revert h
  fun_cases gapPieceLength input with
  | case1 rest =>
    intro _
    have hbody : '\n' ∉ rest.takeWhile (· ≠ '\n') := fun hfeed => by
      simpa using List.mem_takeWhile_imp hfeed
    have hsplit := List.takeWhile_append_dropWhile (p := (· ≠ '\n')) (l := rest)
    cases hlast : rest.dropWhile (· ≠ '\n') with
    | nil =>
      rw [hlast, List.append_nil] at hsplit
      exact .inl (mem_lineComments.mpr ⟨rest, rfl, hsplit ▸ hbody⟩)
    | cons c others =>
      have hfeed : c = '\n' := by
        have hnot := List.head?_dropWhile_not (fun c => decide (c ≠ '\n')) rest
        rw [hlast] at hnot
        simpa using hnot
      rw [hlast, hfeed] at hsplit
      refine .inr ⟨'/' :: '/' :: (rest.takeWhile (· ≠ '\n') ++ ['\n']), others, ?_,
        line_mem_gaps hbody nil_mem_gaps, by simp⟩
      rw [List.cons_append, List.cons_append, List.append_assoc]
      exact congrArg ('/' :: '/' :: ·) hsplit.symm
  | case2 rest =>
    intro hpos
    cases hblock : blockCommentLength? rest with
    | none => simp [hblock] at hpos
    | some n =>
      obtain ⟨body, others, rfl, hbody, -⟩ := exists_of_blockCommentLength hblock
      exact .inr ⟨'/' :: '*' :: (body ++ ['*', '/']), others, by simp,
        block_mem_gaps hbody nil_mem_gaps, by simp⟩
  | case3 c rest _ _ hblank =>
    exact fun _ => .inr ⟨[c], rest, rfl, blank_mem_gaps hblank nil_mem_gaps, by simp⟩
  | case4 => exact fun h => absurd rfl h
  | case5 => exact fun h => absurd rfl h

theorem exists_gap (input : List Char) :
    ∃ gap rest, input = gap ++ rest ∧ gap.length = gapLength input ∧ IsBare rest ∧
      gap ∈ finalGaps ∧ (rest ≠ [] → gap ∈ gaps) := by
  induction hsize : input.length using Nat.strong_induction_on generalizing input with
  | _ n ih =>
    by_cases hbare : IsBare input
    · exact ⟨[], input, rfl, (gapLength_of_isBare hbare).symm, hbare,
        mem_finalGaps_of_mem_gaps nil_mem_gaps, fun _ => nil_mem_gaps⟩
    rcases exists_of_not_isBare hbare with hline | ⟨gap, others, rfl, hgap, hne⟩
    -- A comment without an end of line takes all that is left, so no token follows it.
    · refine ⟨input, [], (List.append_nil _).symm, (gapLength_lineComment hline).symm,
        isBare_nil, ⟨[], nil_mem_gaps, input, .inr hline, rfl⟩, by simp⟩
    · have hshorter : others.length < n := by
        have hpos := List.length_pos_iff.mpr hne
        rw [← hsize, List.length_append]
        omega
      obtain ⟨more, rest, rfl, hlength, hrest, hfinal, hinner⟩ := ih _ hshorter others rfl
      refine ⟨gap ++ more, rest, (List.append_assoc ..).symm, ?_, hrest,
        append_mem_finalGaps hgap hfinal, fun hrest => append_mem_gaps hgap (hinner hrest)⟩
      rw [gapLength_append hgap, List.length_append, hlength]

end Mixin.Lexicon
