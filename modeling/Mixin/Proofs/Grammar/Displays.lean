import Mixin.Proofs.Grammar.Annotations
import Mixin.Proofs.Grammar.Leaves
import Mixin.Proofs.Grammar.Restoration.Types
import Mixin.Proofs.Grammar.WellFormed
import Mixin.Proofs.Token.Comments
import Mixin.Proofs.Token.Lexemes

/-!
# What is displayed of types

The text that is displayed of a type in a program is scanned as the tokens with which the type is
written in full, and read as that type. So types that are displayed alike are the same but for
places (`Program.displayed_types_are_read_back`).
-/

namespace Mixin

open Lexicon Rendering Spelling

/-! ### Names in types -/

namespace TypeExpr

def Nameable (a : TypeExpr) : Prop :=
  ∀ name, .name name ∈ a.leaves → IsKindOf name.text.toList classes .identifier

theorem Nameable.mono {a b : TypeExpr} (h : a.Nameable) (hsub : b.leaves ⊆ a.leaves) : b.Nameable :=
  fun name hname => h name (hsub hname)

theorem leaves_subset {as : List TypeExpr} {b : TypeExpr} (hb : b ∈ as) :
    b.leaves ⊆ leavesOfAll as := by
  rw [leavesOfAll_eq]
  exact fun l hl => List.mem_flatMap.mpr ⟨b, hb, hl⟩

theorem nameable_of_ofType {file : SourceFile} {text : String} {us : List Token} {a : TypeExpr}
    (h : OfType us a) (hsub : us ⊆ (TokenStream.ofText file text).tokens) : a.Nameable := by
  intro name hname
  obtain ⟨t, ht, hkind, rfl⟩ := exists_mem_of_forall₂ h.bears.leaves.flip hname
  have hmem := hsub (List.mem_of_mem_filter ht)
  rw [← hkind]
  exact TokenStream.isKindOf_of_mem hmem (by simp [hkind])

end TypeExpr

/-! ### Scanning piece by piece -/

namespace TokenStream

/-- What a name ends before. -/
def Closes (rest : List Char) : Prop := ∀ c ∈ rest.head?, isInner c = false

def typeMarks : List (TokenKind × Char) :=
  [(.leftParen, '('), (.rightParen, ')'), (.leftBracket, '['), (.rightBracket, ']'), (.comma, ',')]

theorem isInner_of_mem_typeMarks {m : TokenKind × Char} (h : m ∈ typeMarks) :
    isInner m.2 = false := by
  have hall : typeMarks.all (fun m => !isInner m.2) = true := by decide +kernel
  simpa using List.all_eq_true.mp hall m h

theorem Closes.mark (kind : TokenKind) {c : Char} (h : (kind, c) ∈ typeMarks) (rest : List Char) :
    Closes (c :: rest) := by
  rintro _ ⟨⟩
  exact isInner_of_mem_typeMarks h

theorem endsBefore_of_closes {kind : TokenKind} {lexeme rest : List Char}
    (h : IsKindOf lexeme classes kind) (hrest : Closes rest) : EndsBefore lexeme rest := by
  cases rest with
  | nil => exact endsBefore_nil lexeme
  | cons c rest => exact endsBefore_of_not_isInner h (hrest c rfl) rest

/-- Before anything that satisfies `next`, the text is scanned as the tokens, of which the first
begins a line where a text begins. -/
structure Scans (next : List Char → Prop) (text : List Char) (ts : List Token) : Prop where
  text_ne_nil : text ≠ []
  tokens_ne_nil : ts ≠ []
  inside : ts.modifyHead (Token.lined false) = ts
  scanned : ∀ file loc rest, next rest →
    let others := (scanFrom file (loc.advanceAll text) rest).unplaced
    (scanFrom file loc (text ++ rest)).unplaced =
      ⟨ts.modifyHead (Token.lined (loc.offset == 0)) ++ others.tokens, others.final⟩

namespace Scans

variable {next next' : List Char → Prop} {cs ds : List Char} {ts us : List Token}

theorem append (h : Scans next cs ts) (h' : Scans next' ds us)
    (hnext : ∀ rest, next' rest → next (ds ++ rest)) : Scans next' (cs ++ ds) (ts ++ us) := by
  obtain ⟨t, ts, rfl⟩ := List.exists_cons_of_ne_nil h.tokens_ne_nil
  refine ⟨by simp [h.text_ne_nil], by simp, ?_, fun file loc rest hrest => ?_⟩
  · have hinside := h.inside
    simp only [List.modifyHead_cons, List.cons.injEq, and_true] at hinside
    simp [hinside]
  · have hfirst := h.scanned file loc (ds ++ rest) (hnext rest hrest)
    have hsecond := h'.scanned file (loc.advanceAll cs) rest hrest
    rw [Location.offset_advanceAll_beq loc h.text_ne_nil, h'.inside] at hsecond
    rw [List.append_assoc, hfirst, hsecond, Location.advanceAll_append]
    simp

theorem before (h : Scans (fun _ => True) cs ts) (next : List Char → Prop) : Scans next cs ts :=
  ⟨h.text_ne_nil, h.tokens_ne_nil, h.inside, fun file loc rest _ => h.scanned file loc rest trivial⟩

theorem blank (h : Scans next cs ts) (hnext : ∀ rest, next (' ' :: rest)) :
    Scans (fun _ => True) (cs ++ [' ']) ts := by
  refine ⟨by simp, h.tokens_ne_nil, h.inside, fun file loc rest _ => ?_⟩
  have hfirst := h.scanned file loc (' ' :: rest) (hnext rest)
  have hblank : [' '] ∈ gaps := blank_mem_gaps (by decide) nil_mem_gaps
  have hloc := (loc.offset_advanceAll_beq h.text_ne_nil).trans
    (loc.offset_advanceAll_beq (List.append_ne_nil_of_left_ne_nil h.text_ne_nil [' '])).symm
  have hskip : (scanFrom file (loc.advanceAll cs) (' ' :: rest)).unplaced =
      (scanFrom file (loc.advanceAll (cs ++ [' '])) rest).unplaced :=
    unplaced_scanFrom_insert (mem_finalGaps_of_mem_gaps nil_mem_gaps) hblank (by decide) rest hloc
  rw [List.append_assoc, List.singleton_append, hfirst, hskip]

theorem single {kind : TokenKind} {lexeme : List Char} (hkind : IsKindOf lexeme classes kind)
    (hends : ∀ rest, next rest → EndsBefore lexeme rest) (hbare : ∀ rest, IsBare (lexeme ++ rest)) :
    Scans next lexeme [plain kind (String.ofList lexeme)] := by
  have htoken (rest : List Char) (hrest : EndsBefore lexeme rest) : IsToken kind lexeme rest :=
    .inl ⟨hkind, hrest⟩
  refine ⟨(htoken [] (endsBefore_nil _)).ne_nil, by simp, rfl, fun file loc rest hrest => ?_⟩
  have hscan := scanFrom_token file loc nil_mem_gaps (hbare rest) (htoken rest (hends rest hrest))
  rw [List.nil_append, List.nil_append] at hscan
  rw [hscan, unplaced_next]
  simp [Token.unplaced, Token.behind, Token.lined, plain]

theorem ofName {name : String} (h : IsKindOf name.toList classes .identifier) :
    Scans Closes name.toList [plain .identifier name] := by
  have hbare (rest : List Char) : IsBare (name.toList ++ rest) := by
    obtain ⟨c, cs, hname, hc⟩ := exists_isWordStart h
    rw [hname, List.cons_append]
    refine isBare_of_isInner (by simp [isInner, hc]) ?_
    rintro rfl
    exact absurd hc (by decide +kernel)
  have hscans : Scans Closes name.toList [plain .identifier (String.ofList name.toList)] :=
    single h (fun rest hrest => endsBefore_of_closes h hrest) hbare
  rwa [String.ofList_toList] at hscans

theorem ofMark {kind : TokenKind} {c : Char} (h : (kind, c) ∈ typeMarks) :
    Scans (fun _ => True) [c] [mark kind] := by
  have hall : typeMarks.all (fun m => decide (tokenAt [m.2] = (1, m.1)) && m.1 != .error &&
      decide (m.1.spelling? = some (String.ofList [m.2])) && isPlain m.2 && m.2 != '/') = true := by
    decide +kernel
  have hmark := List.all_eq_true.mp hall _ h
  simp only [Bool.and_eq_true, decide_eq_true_eq, bne_iff_ne] at hmark
  obtain ⟨⟨⟨⟨htoken, herror⟩, hspelling⟩, hplain⟩, hslash⟩ := hmark
  have hblank : Text.isBlank c = false := by
    simp only [isPlain, Bool.and_eq_true, Bool.not_eq_true'] at hplain
    exact hplain.1.1
  have hkind : IsKindOf [c] classes kind := isKindOf_of_tokenAt (by simp) htoken herror
  rw [mark, hspelling]
  exact single hkind (fun rest _ => endsBefore_mark (isInner_of_mem_typeMarks h) hplain rest)
    fun rest => isBare_of_head hblank hslash

theorem ofArrow : Scans (fun _ => True) ['=', '>', ' '] [mark .arrow] := by
  have hkind : IsKindOf ['=', '>'] classes .arrow :=
    isKindOf_of_tokenAt (by simp) (by decide +kernel) (by decide)
  have hscans : Scans (fun rest => ∃ after, rest = ' ' :: after) ['=', '>'] [mark .arrow] := by
    refine single hkind ?_ fun rest => isBare_of_head (by decide +kernel) (by decide)
    rintro _ ⟨after, rfl⟩
    exact endsBefore_blank hkind (by decide) after
  exact hscans.blank fun rest => ⟨rest, rfl⟩

end Scans

section Types

variable {as : List TypeExpr}

theorem scans_renderRest (has : ∀ a ∈ as, Scans Closes a.render.toList (ofType a))
    {cs : List Char} {ts : List Token} (h : Scans Closes cs ts) :
    Scans Closes (cs ++ (TypeExpr.renderRest as).toList)
      (ts ++ as.flatMap fun a => mark .comma :: ofType a) := by
  induction as generalizing cs ts with
  | nil => simpa [TypeExpr.renderRest] using h
  | cons a as ih =>
    rw [List.forall_mem_cons] at has
    have hcomma : Scans (fun _ => True) [',', ' '] [mark .comma] :=
      (Scans.ofMark (by decide)).blank fun _ => trivial
    have hnext := h.append (hcomma.append has.1 fun _ _ => trivial) fun rest _ =>
      .mark .comma (by decide) _
    have hrest := ih has.2 hnext
    simpa [TypeExpr.renderRest] using hrest

theorem scans_renderList {a : TypeExpr}
    (has : ∀ b ∈ a :: as, Scans Closes b.render.toList (ofType b)) :
    Scans Closes (a.render ++ TypeExpr.renderRest as).toList
      (separated .comma (ofTypes (a :: as))) := by
  rw [List.forall_mem_cons] at has
  rw [ofTypes_eq, List.map_cons, Parser.separated_cons, List.flatMap_map, String.toList_append]
  exact scans_renderRest has.2 has.1

theorem scans_parens (has : ∀ a ∈ as, Scans Closes a.render.toList (ofType a)) :
    Scans (fun _ => True) ("(" ++ TypeExpr.renderList as ++ ")").toList
      (parens (separated .comma (ofTypes as))) := by
  have hleft : Scans (fun _ => True) ['('] [mark .leftParen] := .ofMark (by decide)
  have hright : Scans (fun _ => True) [')'] [mark .rightParen] := .ofMark (by decide)
  cases as with
  | nil => exact hleft.append hright fun _ _ => trivial
  | cons a as =>
    have hitems := (scans_renderList has).append hright fun rest _ =>
      .mark .rightParen (by decide) rest
    have hall := hleft.append hitems fun _ _ => trivial
    simpa [TypeExpr.renderList, parens] using hall

/-- What is displayed of a type is scanned as the tokens of its rendering. -/
theorem scans_render {a : TypeExpr} (h : a.WellFormed) (hnames : a.Nameable) :
    Scans Closes a.render.toList (ofType a) := by
  -- On the rules for well-formed types, which give a hypothesis for every type inside.
  induction h with
  | @named name as span _ ih =>
    have hargs : ∀ b ∈ as, Scans Closes b.render.toList (ofType b) := fun b hb =>
      ih b hb (hnames.mono fun l hl => by simp [TypeExpr.leaves, TypeExpr.leaves_subset hb hl])
    have hname : Scans Closes name.text.toList [word name] :=
      .ofName (hnames name (by simp [TypeExpr.leaves]))
    cases as with
    | nil => simpa [TypeExpr.render, ofType, ofTypes, bracketed] using hname
    | cons b bs =>
      have hleft : Scans (fun _ => True) ['['] [mark .leftBracket] := .ofMark (by decide)
      have hright : Scans (fun _ => True) [']'] [mark .rightBracket] := .ofMark (by decide)
      have hitems := (scans_renderList hargs).append hright fun rest _ =>
        .mark .rightBracket (by decide) rest
      have hbrackets := hleft.append hitems fun _ _ => trivial
      have hall := hname.append hbrackets fun rest _ => .mark .leftBracket (by decide) _
      simpa [TypeExpr.render, ofType, ofTypes, bracketed] using hall.before Closes
  | @function ps result span _ _ ih ihr =>
    have hps : ∀ b ∈ ps, Scans Closes b.render.toList (ofType b) := fun b hb =>
      ih b hb (hnames.mono fun l hl => by simp [TypeExpr.leaves, TypeExpr.leaves_subset hb hl])
    have hresult := ihr (hnames.mono fun l hl => by simp [TypeExpr.leaves, hl])
    have harrow := Scans.ofArrow.append hresult fun _ _ => trivial
    have hall := ((scans_parens hps).blank fun _ => trivial).append harrow fun _ _ => trivial
    simpa [TypeExpr.render, ofType] using hall
  | @tuple es span _ _ ih =>
    have hes : ∀ b ∈ es, Scans Closes b.render.toList (ofType b) := fun b hb =>
      ih b hb (hnames.mono fun l hl => by simp [TypeExpr.leaves, TypeExpr.leaves_subset hb hl])
    rw [TypeExpr.render, ofType]
    exact (scans_parens hes).before Closes

end Types

theorem unplaced_ofText_render (file : SourceFile) {a : TypeExpr} (h : a.WellFormed)
    (hnames : a.Nameable) :
    (ofText file a.render).unplaced.tokens = (ofType a).modifyHead (Token.lined true) ∧
      (ofText file a.render).final.kind = .eof := by
  have hscan := (scans_render h hnames).scanned file .start [] (by simp [Closes])
  rw [List.append_nil, scanFrom_last file _ (gapLength_of_isBare isBare_nil)] at hscan
  refine ⟨?_, (scannedFrom file .start a.render.toList).final⟩
  rw [ofText, hscan]
  exact List.append_nil _

end TokenStream

/-! ### Reading what is displayed -/

theorem Parser.run_typeExpr_render (file : SourceFile) {us : List Token} {a : TypeExpr}
    (h : OfType us a) (hnames : a.Nameable) :
    ∃ b d, typeExpr.run (.ofStream (.ofText file a.render)) = .done b d ∧ d.ahead = [] ∧
      b.unplaced = a.unplaced := by
  obtain ⟨htokens, hfinal⟩ := TokenStream.unplaced_ofText_render file h.wellFormed hnames
  generalize TokenStream.ofText file a.render = stream at htokens hfinal ⊢
  let c := Cursor.ofStream stream.unplaced
  have hc : c.Blank (c.ahead.length + 1) := by
    refine ⟨by simp [c, Cursor.ofStream], ?_, rfl, Nat.lt_succ_self _⟩
    intro t ht
    obtain ⟨u, -, rfl⟩ := List.mem_map.mp ht
    rfl
  have hpass : c.Passes ((ofType a).modifyHead (Token.lined true))
      ⟨c.ahead.getLast?, [], c.final⟩ := by
    rw [← htokens]
    exact ⟨(List.append_nil _).symm, by simp [c, Cursor.ofStream], rfl⟩
  have hend : (Cursor.peek ⟨c.ahead.getLast?, [], c.final⟩).kind ∉ typeBarred := by
    rw [show (Cursor.peek ⟨c.ahead.getLast?, [], c.final⟩).kind = .eof from hfinal]
    decide
  have hplaces : c.Alike (.ofStream stream) := by
    simp [c, Cursor.Alike, Cursor.ofStream, Cursor.unplaced, TokenStream.unplaced, Token.unplaced,
      Function.comp_def]
  -- The tokens are read without their places, where the rendering is restored, and then with them.
  have halike := Agrees.typeExpr c (.ofStream stream) hplaces
  rw [restores_lined h true _ c _ hc hpass hend] at halike
  generalize typeExpr.run (.ofStream stream) = outcome at halike ⊢
  cases halike with
  | @done _ b _ d hab hcd =>
    refine ⟨b, d, rfl, List.length_eq_zero_iff.mp hcd.length.symm, ?_⟩
    rw [← hab, TypeExpr.unplaced_unplaced]

namespace Program

theorem exists_ofType_of_mem_types {file : SourceFile} {text : String} {p : Program}
    (h : ofText file text = .ok p) {a : TypeExpr} (ha : a ∈ p.types) :
    (∃ us, OfType us a) ∧ a.Nameable := by
  have hfinal := (TokenStream.scannedFrom file Location.start text.toList).final
  obtain ⟨ts, d, hpass, -, hds⟩ := spells_ofTokens hfinal h
  obtain ⟨us, hsub, hus⟩ := hds.shows a ha
  have htokens : ts ⊆ (TokenStream.ofText file text).tokens := by
    rw [show (TokenStream.ofText file text).tokens = ts ++ d.ahead from hpass.ahead]
    exact List.subset_append_left ..
  exact ⟨⟨us, hus⟩, TypeExpr.nameable_of_ofType hus (List.Subset.trans hsub htokens)⟩

/-- What is displayed of a type in a program is read as this type up to places, and to its end. So
types that are displayed alike are the same but for places, also if they are of different
programs. -/
theorem displayed_types_are_read_back {file : SourceFile} {text : String} {p : Program}
    (h : ofText file text = .ok p) {a : TypeExpr} (ha : a ∈ p.types) :
    (∀ shown, ∃ b d, Parser.typeExpr.run (.ofStream (.ofText shown a.render)) = .done b d ∧
      d.ahead = [] ∧ b.unplaced = a.unplaced) ∧
    ∀ file' text' q, ofText file' text' = .ok q → ∀ b ∈ q.types, b.render = a.render →
      b.unplaced = a.unplaced := by
  obtain ⟨⟨us, hus⟩, hnames⟩ := exists_ofType_of_mem_types h ha
  refine ⟨fun shown => Parser.run_typeExpr_render shown hus hnames, ?_⟩
  intro file' text' q hq b hb hrender
  obtain ⟨⟨vs, hvs⟩, hnames'⟩ := exists_ofType_of_mem_types hq hb
  obtain ⟨r, d, hrun, -, hr⟩ := Parser.run_typeExpr_render file hus hnames
  obtain ⟨r', d', hrun', -, hr'⟩ := Parser.run_typeExpr_render file hvs hnames'
  rw [hrender, hrun] at hrun'
  cases hrun'
  rw [← hr', hr]

/-- One type, written in two ways in two programs. -/
theorem displayed_types_are_read_back_twice :
    let text := "class C[A <: (B => D_+, Seq[A])](f: () => Unit) extends T[Map[K, V]]"
    let other := "trait X \x7b\n  val v:\n    ( ((B)) => D_+ ,\n    Seq[ ((A)) ] )\n\x7d"
    ∃ p q a b, ofText .user text = .ok p ∧ ofText .prelude other = .ok q ∧ a ∈ p.types ∧
      b ∈ q.types ∧ a.render = "((B) => D_+, Seq[A])" ∧ b.render = a.render ∧
      b.unplaced = a.unplaced ∧
      ∃ r d, Parser.typeExpr.run (.ofStream (.ofText .user "((B) => D_+, Seq[A])")) = .done r d ∧
        d.ahead = [] ∧ r.unplaced = a.unplaced := by
  intro text other
  have hchecked : (ofText .user text).toOption.map (fun p => p.types.head?.map TypeExpr.render) =
      some (some "((B) => D_+, Seq[A])") := by
    decide +kernel
  have hother : (ofText .prelude other).toOption.map (fun q => q.types.head?.map TypeExpr.render) =
      some (some "((B) => D_+, Seq[A])") := by
    decide +kernel
  obtain ⟨p, hp, hshown⟩ := exists_ok_of_toOption hchecked
  obtain ⟨q, hq, hshown'⟩ := exists_ok_of_toOption hother
  obtain ⟨a, ha, hrender⟩ := Option.map_eq_some_iff.mp hshown
  obtain ⟨b, hb, hrender'⟩ := Option.map_eq_some_iff.mp hshown'
  have hmem := List.mem_of_mem_head? ha
  have hmem' := List.mem_of_mem_head? hb
  obtain ⟨hread, hsame⟩ := displayed_types_are_read_back hp hmem
  have halike := hrender'.trans hrender.symm
  exact ⟨p, q, a, b, hp, hq, hmem, hmem', hrender, halike,
    hsame .prelude other q hq b hmem' halike, hrender ▸ hread .user⟩

end Program

end Mixin
