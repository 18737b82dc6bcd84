import Mathlib.Data.List.Nodup
import Mixin.Compilation

/-!
# Tokens begin at different places

The tokens of a text begin at different offsets of its file. So what begins with different tokens
stands at different places, also in several texts, if they are of different files (`nodup_sites`).
-/

namespace Mixin

def Span.origin (s : Span) : SourceFile × Nat := (s.file, s.start)

theorem Span.origin_through {s t : Span} (h : ¬ t.start < s.start) :
    (s.through t).origin = s.origin := by
  rw [through, if_neg h]
  rfl

/-! ### Tokens -/

/-- Each token begins behind the ones before it. -/
def Token.Increasing (ts : List Token) : Prop :=
  ts.Pairwise fun t u => t.span.start < u.span.start

theorem Location.offset_advanceAll (loc : Location) (cs : List Char) :
    (loc.advanceAll cs).offset = loc.offset + (String.ofList cs).utf8ByteSize := by
  induction cs generalizing loc with
  | nil => simp
  | cons c cs ih =>
    have hsplit : String.ofList (c :: cs) = String.singleton c ++ String.ofList cs := by
      rw [String.singleton_eq_ofList, ← String.ofList_append]
      rfl
    rw [advanceAll_cons, ih, hsplit, String.utf8ByteSize_append, String.utf8ByteSize_singleton]
    simp only [advance]
    omega

theorem Location.offset_le_advanceAll (loc : Location) (cs : List Char) :
    loc.offset ≤ (loc.advanceAll cs).offset := by
  induction cs generalizing loc with
  | nil => simp
  | cons c cs ih =>
    have hstep : loc.offset ≤ (loc.advance c).offset := Nat.le_add_right ..
    exact Nat.le_trans hstep (ih _)

theorem Location.offset_lt_advanceAll (loc : Location) {cs : List Char} (h : cs ≠ []) :
    loc.offset < (loc.advanceAll cs).offset := by
  obtain ⟨c, cs, rfl⟩ := List.exists_cons_of_ne_nil h
  have hstep : loc.offset < (loc.advance c).offset := by
    have hsize := c.utf8Size_pos
    simp only [advance]
    omega
  exact Nat.lt_of_lt_of_le hstep (offset_le_advanceAll _ cs)

/-- What scanning yields from `bound` on. -/
structure TokenStream.ScannedFrom (stream : TokenStream) (file : SourceFile) (bound : Nat) :
    Prop where
  file : ∀ t ∈ stream.tokens, t.span.file = file
  bound : ∀ t ∈ stream.tokens, bound ≤ t.span.start
  increasing : Token.Increasing stream.tokens
  final : stream.final.kind = .eof

theorem TokenStream.scannedFrom (file : SourceFile) (loc : Location) (input : List Char) :
    (scanFrom file loc input).ScannedFrom file loc.offset := by
  fun_induction scanFrom file loc input with
  | case1 loc input gap startsLine start hdrop => exact ⟨by simp, by simp, .nil, rfl⟩
  | case2 loc input gap startsLine start c rest hdrop found lexeme stop token others ih =>
    have hstart : loc.offset ≤ start.offset := loc.offset_le_advanceAll gap
    have hlexeme : lexeme ≠ [] := by
      have hpos : 0 < found.1 := Lexicon.tokenAt_pos (c :: rest)
      obtain ⟨n, hn⟩ : ∃ n, found.1 = n + 1 := ⟨found.1 - 1, by omega⟩
      simp [lexeme, hn]
    have hstop : start.offset < stop.offset := start.offset_lt_advanceAll hlexeme
    refine ⟨?_, ?_, ?_, ih.final⟩
    · intro t ht
      rcases List.mem_cons.mp ht with rfl | ht
      · rfl
      · exact ih.file t ht
    · intro t ht
      rcases List.mem_cons.mp ht with rfl | ht
      · exact hstart
      · have hbound := ih.bound t ht
        omega
    · refine List.pairwise_cons.mpr ⟨fun t ht => ?_, ih.increasing⟩
      exact Nat.lt_of_lt_of_le hstop (ih.bound t ht)

/-! ### Reading -/

namespace Cursor

def origins (ts : List Token) : List (SourceFile × Nat) := ts.map fun t => t.span.origin

theorem origins_append (ts us : List Token) : origins (ts ++ us) = origins ts ++ origins us :=
  List.map_append

variable {c : Cursor}

theorem passes_advance {t : Token} {rest : List Token} (hahead : c.ahead = t :: rest) :
    c.Passes [t] c.advance := by
  obtain ⟨previous, ahead, final⟩ := c
  simp only at hahead
  subst hahead
  exact ⟨rfl, rfl, rfl⟩

end Cursor

namespace Parser

variable {α β : Type}

theorem run_bind (p : Parser α) (f : α → Parser β) (c : Cursor) :
    (p >>= f).run c =
      match p.run c with
      | .done a rest => (f a).run rest
      | .failed e rest => .failed e rest
      | .stuck => .stuck := rfl

theorem precedes_of_run {p : Parser α} {c rest : Cursor} {a : α} (h : p.run c = .done a rest) :
    c.Precedes rest :=
  (h ▸ p.forward c) rest rfl

end Parser

/-! ### Programs -/

theorem Cursor.nodup_origins (file : SourceFile) (text : String) :
    (origins (TokenStream.ofText file text).tokens).Nodup ∧
      ∀ o ∈ origins (TokenStream.ofText file text).tokens, o.1 = file := by
  have hscanned := TokenStream.scannedFrom file Location.start text.toList
  refine ⟨List.pairwise_map.mpr (hscanned.increasing.imp ?_), ?_⟩
  · intro t u hlt heq
    have hstart : t.span.start = u.span.start := congrArg Prod.snd heq
    omega
  · intro o ho
    obtain ⟨t, ht, rfl⟩ := List.mem_map.mp ho
    exact hscanned.file t ht

theorem forall₂_of_parseAll {texts : List (SourceFile × String)} {units : List Program}
    (h : parseAll texts = .ok units) :
    List.Forall₂ (fun source p => Program.ofText source.1 source.2 = .ok p) texts units := by
  induction texts generalizing units with
  | nil =>
    obtain rfl := Except.ok.inj h
    exact .nil
  | cons source texts ih =>
    rw [parseAll] at h
    split at h
    next p ps hfirst hrest =>
      obtain rfl := Except.ok.inj h
      exact .cons hfirst (ih hrest)
    all_goals cases h

/-- Sites that are different in each text are different in several texts of different files. -/
theorem nodup_sites {sites : Program → List (SourceFile × Nat)}
    (hsites : ∀ {file text p}, Program.ofText file text = .ok p →
      (sites p).Sublist (Cursor.origins (TokenStream.ofText file text).tokens))
    {texts : List (SourceFile × String)} (hfiles : (texts.map (·.1)).Nodup) {units : List Program}
    (h : parseAll texts = .ok units) :
    (units.flatMap sites).Nodup ∧ ∀ o ∈ units.flatMap sites, o.1 ∈ texts.map (·.1) := by
  have hread := forall₂_of_parseAll h
  clear h
  induction hread with
  | nil => exact ⟨List.nodup_nil, by simp⟩
  | @cons source p texts ps hfirst _ ih =>
    rw [List.map_cons, List.nodup_cons] at hfiles
    obtain ⟨hnodup, hmem⟩ := ih hfiles.2
    obtain ⟨horigins, hfile⟩ := Cursor.nodup_origins source.1 source.2
    have hsub := hsites hfirst
    rw [List.flatMap_cons]
    refine ⟨List.nodup_append.mpr ⟨horigins.sublist hsub, hnodup, ?_⟩, ?_⟩
    · rintro o ho o' ho' rfl
      refine hfiles.1 ?_
      rw [← hfile o (hsub.subset ho)]
      exact hmem o ho'
    · intro o ho
      rcases List.mem_append.mp ho with ho | ho
      · rw [hfile o (hsub.subset ho)]
        exact List.mem_cons_self ..
      · exact List.mem_cons_of_mem _ (hmem o ho)

end Mixin
