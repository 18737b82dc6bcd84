import Mixin.Proofs.Acceptance
import Mixin.Proofs.Grammar.Places
import Mixin.Proofs.Listing.Emission
import Mixin.Proofs.Token.Pieces

/-!
# Closures of a type

The routines of a type load each closure that stands in it once, and hold its body once, under the
number with which it is loaded (`ofProgram_numbers_closures`). That there are as many numbers as
closures follows from how the routines are made: every routine but the written ones is that of a
closure met in some routine, so counting the closures in all pieces counts each one exactly as often
as it is met.
-/

namespace Mixin

/-! ### One routine -/

def Routine.loadedClosures (r : Routine) : List Nat :=
  Mixin.loadedClosures ((r.body.map Body.code).getD [])

theorem lambdaSizes_roots (f : Frame) (roots : List Occurrence) :
    lambdaSizes (roots.flatMap fun o => (o.lowered f).closures) =
      closureCountList (roots.map (·.expr)) := by
  induction roots with
  | nil => rfl
  | cons o roots ih =>
    rw [List.flatMap_cons, lambdaSizes_append, ih, List.map_cons, closureCountList]
    exact congrArg (· + _) (lambdaSizes_lower f o.scope o.expr o.counters)

namespace Emission.Made

variable {s : Surroundings} {e : Emission} (h : e.Made s)
include h

theorem loads : e.routine.loadedClosures = List.range' e.first e.found.length := by
  cases h with
  | bodiless => rfl
  | body heading hscope hconsists =>
    rw [Routine.loadedClosures]
    simp only [Lowered.finish, Option.map_some, Option.getD_some, loadedClosures_append,
      hconsists.toCounts.loads]
    simp [Instr.closure?]

theorem heading : e.routine.heading = e.piece.heading := by
  cases h <;> rfl

theorem stands {root : Occurrence} (hroot : root ∈ e.roots) :
    StandsAt e.code root.start (root.lowered (e.frame s)).code := by
  cases h with
  | bodiless => cases hroot
  | body heading hscope hconsists =>
    obtain ⟨before, after, hcode, hstart⟩ := hconsists.stands root hroot
    exact ⟨before, after ++ [.ret], by simp [code, Lowered.finish, hcode, frame], hstart⟩

theorem numbered : Occurrence.Numbered (e.frame s) e.first e.roots := by
  cases h with
  | bodiless => trivial
  | body heading hscope hconsists => exact hconsists.numbered

theorem found : e.found = e.roots.flatMap fun o => (o.lowered (e.frame s)).closures := by
  cases h with
  | bodiless => rfl
  | body heading hscope hconsists => exact hconsists.closures

theorem sizes : lambdaSizes e.found = e.piece.closureCount := by
  rw [h.found, lambdaSizes_roots]
  cases h with
  | bodiless => rfl
  | body => rfl

theorem closure_of_holds {o : Occurrence} (ho : e.Holds s o) {parameters : List Binder}
    {body : Expr} {span : Span} (hexpr : o.expr = .closure parameters body span) :
    e.code[o.start]? = some (.loadClosure o.counters.closures) ∧
      ∃ i, o.counters.closures = e.first + i ∧ e.found[i]? = some ⟨parameters, body⟩ := by
  obtain ⟨root, hroot, hwithin⟩ := ho
  have hlowered : o.lowered (e.frame s) = ⟨[.loadClosure o.counters.closures,
      .create ((e.frame s).functionType parameters.length) 1], [⟨parameters, body⟩],
      { o.counters with closures := o.counters.closures + 1 }⟩ := by
    rw [Occurrence.lowered, hexpr, lower]
  have hstands := hwithin.stands (h.stands hroot)
  rw [hlowered] at hstands
  refine ⟨hstands.getElem?_eq, ?_⟩
  obtain ⟨before, after, hfound, hfirst⟩ := h.numbered.exists_split hroot
  obtain ⟨before', after', hclosures, hcounters⟩ := hwithin.closures
  refine ⟨before.length + before'.length, ?_, ?_⟩
  · rw [hcounters, hfirst, Nat.add_assoc]
  · rw [h.found, hfound, hclosures, hlowered]
    simp

theorem exists_holds_of_found {i : Nat} {l : Lambda} (hl : e.found[i]? = some l) :
    ∃ o span, e.Holds s o ∧ o.expr = .closure l.parameters l.body span ∧
      o.counters.closures = e.first + i := by
  rw [h.found] at hl
  obtain ⟨root, hroot, j, hj, hnumber⟩ := h.numbered.exists_of_getElem? hl
  obtain ⟨o, span, hwithin, hexpr, hcounters⟩ := exists_within_of_closures root hj
  exact ⟨o, span, ⟨root, hroot, hwithin⟩, hexpr, hcounters.trans hnumber.symm⟩

end Emission.Made

/-! ### All routines -/

theorem lambdaSizes_eq (ls : List Lambda) (index : Nat) :
    lambdaSizes ls =
      closureCountPieces (ls.mapIdx fun i l => l.piece (index + i)) + ls.length := by
  induction ls generalizing index with
  | nil => rfl
  | cons l ls ih =>
    have hpiece : (l.piece (index + 0)).closureCount = l.body.closureCount := by
      simp [Lambda.piece, Piece.closureCount, closureCountList]
    rw [List.mapIdx_cons, closureCountPieces, hpiece, lambdaSizes_cons, ih (index + 1),
      List.length_cons]
    simp only [Nat.add_assoc, Nat.add_comm 1]

namespace Emitted

variable {s : Surroundings} {written : List Piece} {es : List Emission} {routines : List Routine}

theorem lambdaSizes_found {es : List Emission} (h : ∀ e ∈ es, e.Made s) :
    lambdaSizes (es.flatMap (·.found)) = closureCountPieces (es.map (·.piece)) := by
  induction es with
  | nil => rfl
  | cons e es ih =>
    obtain ⟨he, hes⟩ := List.forall_mem_cons.mp h
    rw [List.flatMap_cons, lambdaSizes_append, he.sizes, ih hes, List.map_cons, closureCountPieces]

theorem length_found (h : Emitted s written es routines) :
    (es.flatMap (·.found)).length = closureCountPieces written := by
  have hsizes := lambdaSizes_found h.made
  have hlambdas := lambdaSizes_eq (es.flatMap (·.found)) 0
  simp only [Nat.zero_add] at hlambdas
  rw [h.pieces, closureCountPieces_append, hlambdas, Nat.add_comm] at hsizes
  exact Nat.add_right_cancel hsizes

theorem loadedClosures_of_inOrder {first : Nat} {es : List Emission} (h : ∀ e ∈ es, e.Made s)
    (horder : Emission.InOrder first es) :
    (es.map (·.routine)).flatMap Routine.loadedClosures =
      List.range' first (es.flatMap (·.found)).length := by
  induction es generalizing first with
  | nil => rfl
  | cons e es ih =>
    obtain ⟨he, hes⟩ := List.forall_mem_cons.mp h
    have hfirst : e.first = first := horder.1
    rw [List.map_cons, List.flatMap_cons, he.loads, hfirst, ih hes horder.2, List.flatMap_cons,
      List.length_append, List.range'_append_1]

/-- The routines load the closures one after another. -/
theorem loadedClosures (h : Emitted s written es routines) :
    routines.flatMap Routine.loadedClosures =
      List.range (closureCountPieces written) := by
  rw [← h.routines, loadedClosures_of_inOrder h.made h.order, h.length_found,
    List.range_eq_range']

theorem found_iff (h : Emitted s written es routines) {k : Nat} {l : Lambda} :
    (es.flatMap (·.found))[k]? = some l ↔
      ∃ e ∈ es, ∃ o span, e.Holds s o ∧ o.expr = .closure l.parameters l.body span ∧
        e.code[o.start]? = some (.loadClosure k) := by
  constructor
  · intro hl
    obtain ⟨e, he, j, hj, hnumber⟩ := h.order.exists_of_getElem? hl
    obtain ⟨o, span, ho, hexpr, hcounters⟩ := (h.made e he).exists_holds_of_found hj
    refine ⟨e, he, o, span, ho, hexpr, ?_⟩
    rw [((h.made e he).closure_of_holds ho hexpr).1, hcounters, ← hnumber, Nat.zero_add]
  · rintro ⟨e, he, o, span, ho, hexpr, hcode⟩
    obtain ⟨hload, i, hcounters, hfound⟩ := (h.made e he).closure_of_holds ho hexpr
    obtain ⟨before, after, hall, hfirst⟩ := h.order.exists_split he
    have hk : k = before.length + i := by
      rw [hload] at hcode
      cases hcode
      rw [hcounters, hfirst, Nat.zero_add]
    have hi : i < e.found.length := (List.getElem?_eq_some_iff.mp hfound).1
    rw [hall, hk, List.append_assoc, List.getElem?_append_right (Nat.le_add_right ..),
      Nat.add_sub_cancel_left, List.getElem?_append_left hi]
    exact hfound

theorem exists_getElem? (h : Emitted s written es routines) {k : Nat} {l : Lambda}
    (hl : (es.flatMap (·.found))[k]? = some l) :
    ∃ first, (es.drop written.length)[k]? = some (.ofExpr s (l.heading k)
      (l.parameters.map fun p => p.name.text) l.body first) := by
  have hpiece : (es.map (·.piece))[written.length + k]? = some (l.piece k) := by
    rw [h.pieces, List.getElem?_append_right (Nat.le_add_right ..), Nat.add_sub_cancel_left,
      List.getElem?_mapIdx, hl]
    rfl
  rw [List.getElem?_map, ← List.getElem?_drop] at hpiece
  obtain ⟨e, he, hpiece⟩ := Option.map_eq_some_iff.mp hpiece
  obtain ⟨heading, parameters, body, first, rfl⟩ := h.closures e (List.mem_of_getElem? he)
  cases hpiece
  exact ⟨first, he⟩

end Emitted

/-! ### Headings -/

def isClosureHeading (heading : String) : Bool :=
  ".method private <closure>".toList.isPrefixOf heading.toList

theorem isClosureHeading_iff {heading : String} : isClosureHeading heading = true ↔
    ∃ rest, ".method private <closure>".toList ++ rest = heading.toList :=
  List.isPrefixOf_iff_prefix

theorem isClosureHeading_lambda (l : Lambda) (k : Nat) : isClosureHeading (l.heading k) = true := by
  have hwords : ".method private <closure>" = ".method private " ++ "<closure>" := by decide
  refine isClosureHeading_iff.mpr ⟨(toString k ++
    Routine.parameterText (l.parameters.map fun p => (p.name.text, p.type))).toList, ?_⟩
  unfold Lambda.heading Instr.closureName
  generalize toString k = number
  rw [hwords, ← String.toList_append]
  simp only [String.append_assoc]

theorem isClosureHeading_constructor (d : TypeDef) :
    isClosureHeading (TypeBlock.constructorHeading d) = false := by
  refine Bool.eq_false_iff.mpr fun h => ?_
  obtain ⟨rest, heq⟩ := isClosureHeading_iff.mp h
  have hletter : some 'r' = some 'u' :=
    congrArg (·[9]?) (heq.trans (String.toList_append (s := ".method public .ctor")))
  exact absurd hletter (by decide)

theorem name_ne_closure {file : SourceFile} {text : String} {t : Token}
    (ht : t ∈ (TokenStream.ofText file text).tokens)
    (hkind : t.kind = .operator ∨ t.kind = .identifier) (rest rest' : List Char) :
    t.lexeme.toList ++ '(' :: rest ≠ '<' :: 'c' :: rest' := by
  intro heq
  rcases hkind with hkind | hkind
  · have hall : ∀ c ∈ t.lexeme.toList, Text.isOperatorChar c = true :=
      fun c hc => TokenStream.isOperatorChar_of_mem_lexeme ht hkind hc
    rcases hname : t.lexeme.toList with _ | ⟨c, _ | ⟨c', cs⟩⟩
    · rw [hname] at heq
      cases heq
    · rw [hname] at heq
      cases heq
    · rw [hname] at heq hall
      obtain ⟨-, heq⟩ := List.cons.inj heq
      obtain ⟨rfl, -⟩ := List.cons.inj heq
      exact absurd (hall 'c' (by simp)) (by decide)
  · obtain ⟨c, cs, hname, hc⟩ := TokenStream.exists_head_of_identifier ht hkind
    rw [hname] at heq
    obtain ⟨rfl, -⟩ := List.cons.inj heq
    exact absurd hc (by decide)

theorem isClosureHeading_method {file : SourceFile} {text : String} {t : Token} {m : Method}
    (ht : t ∈ (TokenStream.ofText file text).tokens)
    (hkind : t.kind = .operator ∨ t.kind = .identifier) (hname : m.name = t.ident) :
    isClosureHeading m.heading = false := by
  have hparameters : ∃ rest, (Routine.parameterText (m.parameters.map Parameter.heading)).toList =
      '(' :: rest := by
    rw [Routine.parameterText, String.toList_append, String.toList_append]
    exact ⟨_, rfl⟩
  obtain ⟨rest, hparameters⟩ := hparameters
  have htext : ∃ result, m.heading.toList = ".method ".toList ++ (m.modifiers.visibility.toList ++
      (" ".toList ++ ((if m.isAbstract then "abstract " else "").toList ++
        (t.lexeme.toList ++ '(' :: (rest ++ result))))) := by
    rw [Method.heading, hname]
    cases m.result <;>
      simp only [MethodInfo.annotated, String.toList_append, List.append_assoc, hparameters,
        List.cons_append, Token.ident]
    · exact ⟨[], by simp⟩
    · exact ⟨_, rfl⟩
  obtain ⟨result, htext⟩ := htext
  refine Bool.eq_false_iff.mpr fun h => ?_
  obtain ⟨tail, heq⟩ := isClosureHeading_iff.mp h
  rw [htext, ModifierList.visibility] at heq
  have hrest : "private <closure>".toList ++ tail = _ :=
    (List.append_right_inj ".method ".toList).mp heq
  -- Only a private method that is not abstract has a heading with the same words.
  split at hrest
  · split at hrest
    · have hletter : some '<' = some 'a' := congrArg (·[8]?) hrest
      exact absurd hletter (by decide)
    · have hnamed : '<' :: 'c' :: ("losure>".toList ++ tail) =
          t.lexeme.toList ++ '(' :: (rest ++ result) :=
        (List.append_right_inj "private ".toList).mp hrest
      exact name_ne_closure ht hkind _ _ hnamed.symm
  · split at hrest
    · have hletter : some 'p' = some 'f' := congrArg (·[0]?) hrest
      exact absurd hletter (by decide)
    · have hletter : some 'r' = some 'u' := congrArg (·[1]?) hrest
      exact absurd hletter (by decide)

theorem Program.isClosureHeading_methods {file : SourceFile} {text : String} {p : Program}
    (hp : ofText file text = .ok p) {d : TypeDef} (hd : d ∈ p.definitions) {m : Method}
    (hm : m ∈ d.methods) : isClosureHeading m.heading = false := by
  obtain ⟨ts, rest, htokens, hspells⟩ := spelled_ofText hp
  obtain ⟨us, hus, hdef⟩ := hspells.exists_typeDef d hd
  obtain ⟨member, hmember, hmethod⟩ := List.mem_filterMap.mp hm
  obtain ⟨vs, hvs, hspelled⟩ := hdef.exists_member hmember
  cases hspelled with
  | field => cases hmethod
  | method hmethod' =>
    cases hmethod
    cases hmethod' with
    | @intro hs ms w t ts tps us cs vs result bs body hms hadmitted hlazy hw hkind =>
      have ht : t ∈ (TokenStream.ofText file text).tokens := by
        rw [htokens]
        exact List.mem_append_left _ ((hvs.trans hus).subset (by simp))
      exact isClosureHeading_method ht hkind rfl

theorem TypeBlock.isClosureHeading_writtenPieces {file : SourceFile} {text : String} {p : Program}
    (hp : Program.ofText file text = .ok p) {d : TypeDef} (hd : d ∈ p.definitions)
    (t : SymbolTable) (c : ClassInfo) :
    ∀ piece ∈ writtenPieces t d c, isClosureHeading piece.heading = false := by
  intro piece hpiece
  rcases List.mem_append.mp hpiece with hpiece | hpiece
  · split at hpiece
    · cases hpiece
    · rw [List.mem_singleton.mp hpiece]
      exact isClosureHeading_constructor d
  · obtain ⟨m, hm, rfl⟩ := List.mem_map.mp hpiece
    exact Program.isClosureHeading_methods hp hd hm

namespace Emitted

variable {s : Surroundings} {written : List Piece} {es : List Emission} {routines : List Routine}

variable (h : Emitted s written es routines)
include h

theorem pieces_take : (es.take written.length).map (·.piece) = written := by
  rw [List.map_take, h.pieces, List.take_left]

theorem pieces_drop :
    (es.drop written.length).map (·.piece) = (es.flatMap (·.found)).mapIdx Lambda.piece := by
  rw [List.map_drop, h.pieces, List.drop_left]

theorem headings_drop :
    ((es.drop written.length).map (·.routine)).map (·.heading) =
      (es.flatMap (·.found)).mapIdx fun k l => l.heading k := by
  have hheadings : ((es.drop written.length).map (·.routine)).map (·.heading) =
      ((es.drop written.length).map (·.piece)).map (·.heading) := by
    rw [List.map_map, List.map_map]
    exact List.map_congr_left fun e he => (h.made e (List.mem_of_mem_drop he)).heading
  rw [hheadings, h.pieces_drop]
  refine List.ext_getElem? fun i => ?_
  rw [List.getElem?_map, List.getElem?_mapIdx, List.getElem?_mapIdx, Option.map_map]
  rfl

theorem filter_isClosureHeading
    (hwritten : ∀ piece ∈ written, isClosureHeading piece.heading = false) :
    routines.filter (fun r => isClosureHeading r.heading) =
      (es.drop written.length).map (·.routine) := by
  rw [← h.routines, ← List.take_append_drop written.length es, List.map_append,
    List.filter_append, List.take_append_drop]
  have hnone : ((es.take written.length).map (·.routine)).filter
      (fun r => isClosureHeading r.heading) = [] := by
    refine List.filter_eq_nil_iff.mpr fun r hr => ?_
    obtain ⟨e, he, rfl⟩ := List.mem_map.mp hr
    rw [(h.made e (List.mem_of_mem_take he)).heading,
      hwritten e.piece (h.pieces_take ▸ List.mem_map_of_mem he)]
    decide
  have hall : ((es.drop written.length).map (·.routine)).filter
      (fun r => isClosureHeading r.heading) = (es.drop written.length).map (·.routine) := by
    refine List.filter_eq_self.mpr fun r hr => ?_
    have hheading : r.heading ∈ (es.flatMap (·.found)).mapIdx fun k l => l.heading k :=
      h.headings_drop ▸ List.mem_map_of_mem hr
    obtain ⟨k, hk, hheading⟩ := List.mem_mapIdx.mp hheading
    rw [← hheading]
    exact isClosureHeading_lambda ..
  rw [hnone, hall, List.nil_append]

end Emitted

/-! ### The loop over pending closures -/

/-- The state of the loop that makes the routines of closures. -/
structure Drain where
  /-- The routines made so far. -/
  routines : List Routine
  /-- The number of the first pending closure. -/
  index : Nat
  /-- How many closures have been numbered. -/
  count : Nat
  pending : List Lambda

namespace Drain

/-- One round takes the first pending closure, and adds the closures met in it behind the others. -/
def round (s : Surroundings) (q : Drain) : Drain :=
  match q.pending with
  | [] => q
  | l :: rest =>
    let body := lowerBody s (l.parameters.map fun p => p.name.text) l.body q.count
    ⟨q.routines ++ [⟨l.heading q.index, some body.1⟩], q.index + 1, q.count + body.2.length,
      rest ++ body.2⟩

/-- The routines made so far, with those still to be made. -/
def total (s : Surroundings) (q : Drain) : List Routine :=
  q.routines ++ closureRoutines s q.index q.count q.pending

theorem total_round (s : Surroundings) (q : Drain) : (q.round s).total s = q.total s := by
  obtain ⟨routines, index, count, pending⟩ := q
  cases pending with
  | nil => rfl
  | cons l rest =>
    rw [total, total, closureRoutines]
    exact List.append_assoc ..

theorem lambdaSizes_round (s : Surroundings) (q : Drain) :
    lambdaSizes (q.round s).pending = lambdaSizes q.pending - 1 := by
  obtain ⟨routines, index, count, pending⟩ := q
  cases pending with
  | nil => rfl
  | cons l rest =>
    rw [round, lambdaSizes_append, lambdaSizes_cons, lambdaSizes_lowerBody]
    omega

theorem lambdaSizes_iterate (s : Surroundings) (q : Drain) (m : Nat) :
    lambdaSizes ((round s)^[m] q).pending = lambdaSizes q.pending - m := by
  induction m with
  | zero => rfl
  | succ m ih =>
    rw [Function.iterate_succ_apply', lambdaSizes_round, ih]
    omega

theorem total_iterate (s : Surroundings) (q : Drain) (m : Nat) :
    ((round s)^[m] q).total s = q.total s := by
  induction m with
  | zero => rfl
  | succ m ih => rw [Function.iterate_succ_apply', total_round, ih]

theorem lambdaSizes_eq_zero_iff {ls : List Lambda} : lambdaSizes ls = 0 ↔ ls = [] := by
  cases ls with
  | nil => simp
  | cons l ls =>
    rw [lambdaSizes_cons]
    exact iff_of_false (by omega) (List.cons_ne_nil l ls)

/-- The loop ends after as many rounds as there are closures. -/
theorem pending_iterate_iff (s : Surroundings) (q : Drain) (m : Nat) :
    ((round s)^[m] q).pending = [] ↔ lambdaSizes q.pending ≤ m := by
  rw [← lambdaSizes_eq_zero_iff, lambdaSizes_iterate]
  omega

theorem routines_iterate {s : Surroundings} {q : Drain} {m : Nat}
    (hm : lambdaSizes q.pending ≤ m) : ((round s)^[m] q).routines = q.total s := by
  have hpending := (pending_iterate_iff s q m).mpr hm
  rw [← total_iterate s q m, total, hpending, closureRoutines, List.append_nil]

end Drain

/-! ### Types -/

namespace TypeBlock

/-- The loop at its start, when the constructor and the methods have been made. -/
def drain (t : SymbolTable) (s : Surroundings) (d : TypeDef) (c : ClassInfo) : Drain where
  routines := (writtenRoutines t s d c).list
  index := 0
  count := (writtenRoutines t s d c).count
  pending := (writtenRoutines t s d c).closures

theorem total_drain (t : SymbolTable) (s : Surroundings) (d : TypeDef) (c : ClassInfo) :
    (drain t s d c).total s = routinesOf t s d c := rfl

theorem lambdaSizes_drain (t : SymbolTable) (s : Surroundings) (d : TypeDef) (c : ClassInfo) :
    lambdaSizes (drain t s d c).pending = closureCountPieces (writtenPieces t d c) := by
  obtain ⟨es, h⟩ := gathered_writtenRoutines t s d c
  show lambdaSizes (writtenRoutines t s d c).closures = _
  rw [← h.closures, Emitted.lambdaSizes_found h.made, h.pieces]

/-- The routines of a block number the closures that stand in what is written in a type. -/
structure NumbersClosures (s : Surroundings) (written : List Piece) (start : Drain)
    (block : TypeBlock) (es : List Emission) (closures : List Lambda) : Prop where
  emitted : Emitted s written es block.routines
  /-- As many closures have a body as stand in the pieces, in closures or not. -/
  count : closures.length = closureCountPieces written
  /-- Each number is loaded once. -/
  loads : block.routines.flatMap Routine.loadedClosures = List.range closures.length
  /-- Each number has one routine, and their numbers increase. -/
  headings : (block.routines.map (·.heading)).filter isClosureHeading =
    closures.mapIdx fun k l => l.heading k
  /-- The routine is made of the parameters and the body of the closure. -/
  bodies : ∀ (k : Nat) (l : Lambda), closures[k]? = some l → ∃ first,
    (block.routines.filter fun r => isClosureHeading r.heading)[k]? =
      some (⟨l.heading k,
        some (lowerBody s (l.parameters.map fun p => p.name.text) l.body first).1⟩ : Routine)
  /-- It is the closure that stands where the number is loaded. -/
  linked : ∀ (k : Nat) (l : Lambda), closures[k]? = some l ↔
    ∃ e ∈ es, ∃ o span, e.Holds s o ∧ o.expr = .closure l.parameters l.body span ∧
      e.code[o.start]? = some (.loadClosure k)
  /-- The loop over the pending closures ends after a round for each of them. -/
  ends : ∀ m, ((Drain.round s)^[m] start).pending = [] ↔ closures.length ≤ m
  made : ((Drain.round s)^[closures.length] start).routines = block.routines

theorem exists_numbersClosures {t : SymbolTable} {s : Surroundings} {d : TypeDef} {c : ClassInfo}
    {block : TypeBlock} (hroutines : block.routines = routinesOf t s d c)
    (hwritten : ∀ piece ∈ writtenPieces t d c, isClosureHeading piece.heading = false) :
    ∃ es closures, NumbersClosures s (writtenPieces t d c) (drain t s d c) block es closures := by
  obtain ⟨es, h⟩ := emitted_routinesOf t s d c
  rw [← hroutines] at h
  have hcount := h.length_found
  have hsizes := lambdaSizes_drain t s d c
  have hfilter := h.filter_isClosureHeading hwritten
  refine ⟨es, es.flatMap (·.found), h, hcount, hcount ▸ h.loadedClosures, ?_, ?_, ?_, ?_, ?_⟩
  · rw [List.filter_map]
    exact hfilter ▸ h.headings_drop
  · intro k l hl
    obtain ⟨first, hfirst⟩ := h.exists_getElem? hl
    refine ⟨first, ?_⟩
    rw [hfilter, List.getElem?_map, hfirst]
    rfl
  · exact fun k l => h.found_iff
  · intro m
    rw [Drain.pending_iterate_iff, hsizes, hcount]
  · rw [Drain.routines_iterate (by omega), total_drain, hroutines]

end TypeBlock

/-- In the listing of a program that was parsed, the block of every type numbers the closures that
stand in the type. -/
theorem Assembly.ofProgram_numbers_closures {file : SourceFile} {text : String} {p : Program}
    (hp : Program.ofText file text = .ok p) (t : SymbolTable) (options : BuildOptions) :
    List.Forall₂ (fun d block =>
        let id := (t.lookup? d.name.text).getD .root
        let c := t.classInfo id
        let s := t.surroundings p options.runtimeLibrary id
        ∃ es closures, TypeBlock.NumbersClosures s (TypeBlock.writtenPieces t d c)
          (TypeBlock.drain t s d c) block es closures)
      p.definitions (ofProgram p t options).blocks := by
  rw [ofProgram, List.forall₂_map_right_iff, List.forall₂_same]
  intro d hd
  exact TypeBlock.exists_numbersClosures rfl (TypeBlock.isClosureHeading_writtenPieces hp hd t _)

/-- Closures in the arguments for a superclass, in the value of a field, and in closures; and one in
a trait, which has no constructor. -/
theorem Assembly.ofProgram_numbers_closures_nested :
    let text := "class A(f: Int) extends B((x: Int) => x) \x7b\n" ++
      "  val g = () => () => f; def <(y: Int) = () => \x7b val h = () => y; () => h \x7d\n" ++
      "\x7d\ntrait T \x7b def f = () => 1 \x7d"
    ∃ p, Program.ofText .user text = .ok p ∧
      p.definitions.map (fun d => d.methods.map fun m => m.piece.closureCount) = [[3], [1]] ∧
      ∀ (t : SymbolTable) (options : BuildOptions), List.Forall₂ (fun d block =>
          let id := (t.lookup? d.name.text).getD .root
          let c := t.classInfo id
          let s := t.surroundings p options.runtimeLibrary id
          ∃ es closures, TypeBlock.NumbersClosures s (TypeBlock.writtenPieces t d c)
            (TypeBlock.drain t s d c) block es closures)
        p.definitions (ofProgram p t options).blocks := by
  intro text
  have hchecked : (Program.ofText .user text).toOption.map (fun p =>
      p.definitions.map fun d => d.methods.map fun m => m.piece.closureCount) =
        some [[3], [1]] := by
    decide +kernel
  obtain ⟨p, hp, hcounts⟩ := exists_ok_of_toOption hchecked
  exact ⟨p, hp, hcounts, fun t options => ofProgram_numbers_closures hp t options⟩

end Mixin
