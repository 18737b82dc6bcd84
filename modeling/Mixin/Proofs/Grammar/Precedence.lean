import Mixin.Proofs.Grammar.Restoration.Expressions

/-!
# Operators group by precedence

Operands with operators between them can be grouped into many trees. In one of them, and in no
other, every operator stands below one that binds weaker, or that binds as strongly and groups
towards it (`Grouping.Sound`); this one is read (`Parser.operations_groups`).

A tree is sound if each operator fits the one right above it. In a sound tree an operator then binds
before every operator of which it is in the left operand, and before no operator that is in its own
right operand. So of two operators in a row of operands the tree can have only one above the other,
and there is no second tree. Going through a row from left to right, the operators that are still
pending can at any time be completed to a sound tree of what was read.
-/

namespace Mixin

namespace Operator

/-- Operands with operators between them, grouped into a tree. -/
inductive Grouping where
  | operand (e : Expr)
  | operation (lhs : Grouping) (operator : Ident) (rhs : Grouping)

namespace Grouping

def expr : Grouping → Expr
  | operand e => e
  | operation lhs operator rhs =>
    .binary operator lhs.expr rhs.expr (lhs.expr.span.through rhs.expr.span)

def operands : Grouping → List Expr
  | operand e => [e]
  | operation lhs _ rhs => lhs.operands ++ rhs.operands

def operators : Grouping → List Ident
  | operand _ => []
  | operation lhs operator rhs => lhs.operators ++ operator :: rhs.operators

def root? : Grouping → Option Ident
  | operand _ => none
  | operation _ operator _ => some operator

/-- `child` may be the top of the left operand of `parent`: it binds stronger, or it binds as
strongly and groups to the left. -/
def FitsLeft (child parent : Ident) : Prop :=
  precedence parent.text < precedence child.text ∨
    precedence child.text = precedence parent.text ∧ isRightAssociative child.text = false

/-- `child` may be the top of the right operand of `parent`: it binds stronger, or it binds as
strongly and `parent` groups to the right. -/
def FitsRight (parent child : Ident) : Prop :=
  precedence parent.text < precedence child.text ∨
    precedence child.text = precedence parent.text ∧ isRightAssociative parent.text = true

/-- Every operator fits the one above it. -/
inductive Sound : Grouping → Prop
  | operand (e : Expr) : Sound (operand e)
  | operation {lhs rhs : Grouping} {operator : Ident}
      (hleft : ∀ child ∈ lhs.root?, FitsLeft child operator)
      (hright : ∀ child ∈ rhs.root?, FitsRight operator child)
      (hlhs : lhs.Sound) (hrhs : rhs.Sound) : Sound (operation lhs operator rhs)

/-- A sound tree of `first` and the operators and operands behind it. -/
structure Groups (T : Grouping) (first : Expr) (rest : List (Ident × Expr)) : Prop where
  operands : T.operands = first :: rest.map (·.2)
  operators : T.operators = rest.map (·.1)
  sound : T.Sound

/-! ### There is only one sound tree -/

theorem fitsLeft_iff {left right : Ident} :
    FitsLeft left right ↔ bindsBefore left.text right.text = true := by
  simp only [FitsLeft, bindsBefore, Bool.or_eq_true, Bool.and_eq_true, decide_eq_true_eq,
    beq_iff_eq, Bool.not_eq_true']
  rw [eq_comm (a := precedence left.text)]

/-- Of two operators in a row either the left one fits into the left operand of the right one, or
the right one into the right operand of the left one. -/
theorem fitsRight_iff {left right : Ident} : FitsRight left right ↔ ¬ FitsLeft left right := by
  rw [FitsLeft, FitsRight]
  cases isRightAssociative left.text with
  | true =>
    simp only [and_true, Bool.true_eq_false, and_false, or_false]
    omega
  | false =>
    simp only [Bool.false_eq_true, and_false, or_false, and_true]
    omega

theorem FitsLeft.le {child parent : Ident} (h : FitsLeft child parent) :
    precedence parent.text ≤ precedence child.text := by
  rcases h with h | h <;> omega

theorem FitsRight.le {parent child : Ident} (h : FitsRight parent child) :
    precedence parent.text ≤ precedence child.text := by
  rcases h with h | h <;> omega

theorem FitsRight.of_le {a b c : Ident} (h : FitsRight a b)
    (hle : precedence b.text ≤ precedence c.text) : FitsRight a c := by
  rcases h with h | ⟨heq, hassoc⟩
  · exact .inl (by omega)
  · rcases hle.lt_or_eq with hlt | hle
    · exact .inl (by omega)
    · exact .inr ⟨by omega, hassoc⟩

theorem FitsLeft.trans {a b c : Ident} (h : FitsLeft a b) (h' : FitsLeft b c) : FitsLeft a c := by
  rcases h with h | ⟨heq, hassoc⟩
  · exact .inl (by have := h'.le; omega)
  · rcases h' with h' | ⟨heq', -⟩
    · exact .inl (by omega)
    · exact .inr ⟨by omega, hassoc⟩

theorem FitsLeft.of_fitsRight {a b c : Ident} (h : FitsLeft b c) (h' : FitsRight b a) :
    FitsLeft a c := by
  rcases h with h | ⟨heq, hassoc⟩
  · exact .inl (by have := h'.le; omega)
  · rcases h' with h' | ⟨-, hassoc'⟩
    · exact .inl (by omega)
    · rw [hassoc] at hassoc'
      cases hassoc'

theorem exists_root_of_mem {T : Grouping} {x : Ident} (hx : x ∈ T.operators) :
    ∃ top, T.root? = some top := by
  cases T with
  | operand e => cases hx
  | operation lhs operator rhs => exact ⟨operator, rfl⟩

theorem Sound.precedence_le {T : Grouping} (h : T.Sound) {top x : Ident} (htop : T.root? = some top)
    (hx : x ∈ T.operators) : precedence top.text ≤ precedence x.text := by
  induction h generalizing top with
  | operand e => cases htop
  | operation hleft hright _ _ ihl ihr =>
    obtain rfl := Option.some.inj htop
    rcases List.mem_append.mp hx with hx | hx
    · obtain ⟨l, hl⟩ := exists_root_of_mem hx
      exact (hleft l hl).le.trans (ihl hl hx)
    · rcases List.mem_cons.mp hx with rfl | hx
      · exact le_rfl
      · obtain ⟨r, hr⟩ := exists_root_of_mem hx
        exact (hright r hr).le.trans (ihr hr hx)

/-- If the top of a sound tree fits into the right operand of an operator, all in the tree does. -/
theorem Sound.fitsRight {T : Grouping} (h : T.Sound) {parent x : Ident}
    (hroot : ∀ top ∈ T.root?, FitsRight parent top) (hx : x ∈ T.operators) :
    FitsRight parent x := by
  obtain ⟨top, htop⟩ := exists_root_of_mem hx
  exact (hroot top htop).of_le (h.precedence_le htop hx)

theorem Sound.fitsLeft {T : Grouping} (h : T.Sound) {parent x : Ident}
    (hroot : ∀ top ∈ T.root?, FitsLeft top parent) (hx : x ∈ T.operators) : FitsLeft x parent := by
  induction h with
  | operand e => cases hx
  | operation hleft hright _ _ ihl ihr =>
    have htop := hroot _ rfl
    rcases List.mem_append.mp hx with hx | hx
    · exact ihl (fun l hl => (hleft l hl).trans htop) hx
    · rcases List.mem_cons.mp hx with rfl | hx
      · exact htop
      · exact ihr (fun r hr => htop.of_fitsRight (hright r hr)) hx

theorem length_operands (T : Grouping) : T.operands.length = T.operators.length + 1 := by
  induction T with
  | operand e => rfl
  | operation lhs operator rhs ihl ihr =>
    simp only [operands, operators, List.length_append, List.length_cons, ihl, ihr]
    omega

/-- Two sound trees of the same row do not have different operators at the top: each would be in an
operand of the other. -/
theorem no_operators_between {l r l' r' : Grouping} {o o' : Ident} {between : List Ident}
    (h : (operation l o r).Sound) (h' : (operation l' o' r').Sound)
    (hleft : l'.operators = l.operators ++ between)
    (hright : o :: r.operators = between ++ o' :: r'.operators) : between = [] := by
  cases h with
  | operation _ hr _ hrs =>
    cases h' with
    | operation hl' _ hls' _ =>
      cases between with
      | nil => rfl
      | cons x between =>
        obtain ⟨rfl, htail⟩ := List.cons.inj hright
        have hbefore : FitsLeft o o' := hls'.fitsLeft hl' (by simp [hleft])
        have hbehind : FitsRight o o' := hrs.fitsRight hr (by simp [htail])
        exact absurd hbefore (fitsRight_iff.mp hbehind)

theorem top_unique {l r l' r' : Grouping} {o o' : Ident} (h : (operation l o r).Sound)
    (h' : (operation l' o' r').Sound)
    (heq : l.operators ++ o :: r.operators = l'.operators ++ o' :: r'.operators) :
    l.operators = l'.operators ∧ o = o' ∧ r.operators = r'.operators := by
  rcases List.append_eq_append_iff.mp heq with ⟨between, hleft, hright⟩ | ⟨between, hleft, hright⟩
  · obtain rfl := no_operators_between h h' hleft hright
    obtain ⟨rfl, hr⟩ := List.cons.inj hright
    exact ⟨by simpa using hleft.symm, rfl, hr⟩
  · obtain rfl := no_operators_between h' h hleft hright
    obtain ⟨rfl, hr⟩ := List.cons.inj hright
    exact ⟨by simpa using hleft, rfl, hr.symm⟩

/-- A row of operands and operators has only one sound tree. -/
theorem Sound.unique {S T : Grouping} (hS : S.Sound) (hT : T.Sound)
    (hoperands : S.operands = T.operands) (hoperators : S.operators = T.operators) : S = T := by
  induction hS generalizing T with
  | operand e =>
    cases hT with
    | operand e' => simpa [operands] using hoperands
    | operation => simp [operators] at hoperators
  | operation hleft hright hlhs hrhs ihl ihr =>
    cases hT with
    | operand e' => simp [operators] at hoperators
    | operation hleft' hright' hlhs' hrhs' =>
      obtain ⟨hl, rfl, hr⟩ := top_unique (.operation hleft hright hlhs hrhs)
        (.operation hleft' hright' hlhs' hrhs') hoperators
      obtain ⟨hl', hr'⟩ := List.append_inj hoperands (by rw [length_operands, length_operands, hl])
      rw [ihl hlhs' hl' hl, ihr hrhs' hr' hr]

/-! ### The row is gone through from left to right -/

/-- Operators whose right operand is not complete yet, with their left operands, the innermost
first. -/
abbrev Stack := List (Grouping × Ident)

/-- The pending operators that a stack stands for. -/
def Stack.pending (stack : Stack) : List Pending := stack.map fun p => (p.1.expr, p.2)

/-- The tree that comes of pending operators if nothing follows their last operand. -/
def complete : Stack → Grouping → Grouping
  | [], T => T
  | p :: stack, T => complete stack (operation p.1 p.2 T)

theorem finish_pending (stack : Stack) (T : Grouping) :
    finish (stack.pending, T.expr) = (complete stack T).expr := by
  induction stack generalizing T with
  | nil => rfl
  | cons p stack ih => exact ih (operation p.1 p.2 T)

theorem operands_complete (stack : Stack) {S T : Grouping} {es : List Expr}
    (h : T.operands = S.operands ++ es) :
    (complete stack T).operands = (complete stack S).operands ++ es := by
  induction stack generalizing S T with
  | nil => exact h
  | cons p stack ih =>
    refine ih ?_
    rw [operands, operands, h, List.append_assoc]

theorem operators_complete (stack : Stack) {S T : Grouping} {os : List Ident}
    (h : T.operators = S.operators ++ os) :
    (complete stack T).operators = (complete stack S).operators ++ os := by
  induction stack generalizing S T with
  | nil => exact h
  | cons p stack ih =>
    refine ih ?_
    rw [operators, operators, h, List.append_assoc, List.cons_append]

theorem Sound.of_complete {stack : Stack} {T : Grouping} (h : (complete stack T).Sound) :
    T.Sound := by
  induction stack generalizing T with
  | nil => exact h
  | cons p stack ih =>
    cases ih h with
    | operation _ _ _ hT => exact hT

theorem sound_complete_of_sound {stack : Stack} {S T : Grouping} (h : (complete stack S).Sound)
    (hT : T.Sound) (hfits : ∀ p ∈ stack.head?, ∀ top ∈ T.root?, FitsRight p.2 top) :
    (complete stack T).Sound := by
  induction stack generalizing S T with
  | nil => exact hT
  | cons p stack ih =>
    have hinner : (operation p.1 p.2 S).Sound := Sound.of_complete h
    cases hinner with
    | operation hleft _ hlhs _ =>
      refine ih h (.operation hleft (hfits p rfl) hlhs hT) ?_
      -- The operator `p.2` keeps its place, so it fits the one outside it as before.
      cases stack with
      | nil => simp
      | cons q stack =>
        have houter : (operation q.1 q.2 (operation p.1 p.2 S)).Sound := Sound.of_complete h
        cases houter with
        | operation _ hright _ _ =>
          intro q' hq'
          obtain rfl := Option.some.inj hq'
          exact hright

/-- Completing the pending operators that bind before `operator` changes nothing in the tree, and
`operator` can then take what was completed as its left operand. -/
theorem exists_settled (operator : Ident) (stack : Stack) {T : Grouping}
    (hT : ∀ top ∈ T.root?, FitsLeft top operator) :
    ∃ (settled : Stack) (lhs : Grouping),
      settle operator.text stack.pending T.expr = (settled.pending, lhs.expr) ∧
        complete settled lhs = complete stack T ∧
        (∀ p ∈ settled.head?, FitsRight p.2 operator) ∧
        ∀ top ∈ lhs.root?, FitsLeft top operator := by
  induction stack generalizing T with
  | nil => exact ⟨[], T, rfl, rfl, by simp, hT⟩
  | cons p stack ih =>
    rw [Stack.pending, List.map_cons, settle]
    by_cases hbefore : bindsBefore p.2.text operator.text = true
    · rw [if_pos hbefore]
      refine ih (T := operation p.1 p.2 T) fun top htop => ?_
      obtain rfl := Option.some.inj htop
      exact fitsLeft_iff.mpr hbefore
    · rw [if_neg hbefore]
      refine ⟨p :: stack, T, rfl, rfl, fun q hq => ?_, hT⟩
      obtain rfl := Option.some.inj hq
      exact fitsRight_iff.mpr fun hfits => hbefore (fitsLeft_iff.mp hfits)

theorem exists_pushed {stack : Stack} {e : Expr} (h : (complete stack (operand e)).Sound)
    (next : Ident × Expr) :
    ∃ pushed : Stack, push (stack.pending, e) next = (pushed.pending, next.2) ∧
      (complete pushed (operand next.2)).Sound ∧
      (complete pushed (operand next.2)).operands =
        (complete stack (operand e)).operands ++ [next.2] ∧
      (complete pushed (operand next.2)).operators =
        (complete stack (operand e)).operators ++ [next.1] := by
  have hfits : ∀ top ∈ (operand e).root?, FitsLeft top next.1 := by simp [root?]
  obtain ⟨settled, lhs, hsettle, hcomplete, hright, hleft⟩ := exists_settled next.1 stack hfits
  rw [← hcomplete] at h ⊢
  refine ⟨(lhs, next.1) :: settled, ?_, ?_, operands_complete settled rfl,
    operators_complete settled rfl⟩
  · exact congrArg (fun s : List Pending × Expr => ((s.2, next.1) :: s.1, next.2)) hsettle
  · show (complete settled (operation lhs next.1 (operand next.2))).Sound
    refine sound_complete_of_sound h (.operation hleft ?_ h.of_complete (.operand _)) ?_
    · simp [root?]
    intro p hp top htop
    obtain rfl := Option.some.inj htop
    exact hright p hp

theorem exists_folded {stack : Stack} {e : Expr} (h : (complete stack (operand e)).Sound)
    (rest : List (Ident × Expr)) :
    ∃ T : Grouping, finish (rest.foldl push (stack.pending, e)) = T.expr ∧ T.Sound ∧
      T.operands = (complete stack (operand e)).operands ++ rest.map (·.2) ∧
      T.operators = (complete stack (operand e)).operators ++ rest.map (·.1) := by
  induction rest generalizing stack e with
  | nil => exact ⟨_, finish_pending stack (operand e), h, by simp, by simp⟩
  | cons next rest ih =>
    obtain ⟨pushed, hpush, hsound, hoperands, hoperators⟩ := exists_pushed h next
    obtain ⟨T, hT, hsound', hoperands', hoperators'⟩ := ih hsound
    refine ⟨T, ?_, hsound', ?_, ?_⟩
    · rw [List.foldl_cons, hpush, hT]
    · rw [hoperands', hoperands, List.append_assoc]
      rfl
    · rw [hoperators', hoperators, List.append_assoc]
      rfl

/-- Grouping yields the sound tree of a row. -/
theorem exists_groups (first : Expr) (rest : List (Ident × Expr)) :
    ∃ T : Grouping, tree first rest = T.expr ∧ T.Groups first rest := by
  have hstart : (complete [] (operand first)).Sound := .operand first
  obtain ⟨T, htree, hsound, hoperands, hoperators⟩ := exists_folded hstart rest
  exact ⟨T, htree, hoperands, hoperators, hsound⟩

end Grouping

end Operator

/-! ### Rows of operands in a token stream -/

namespace Parser

/-- From `c` to `stop` the tokens are operands, each read at its place, with operators on the same
line between them. -/
inductive Row (inner : Parser Expr) :
    Cursor → List Token → Expr → List (Ident × Expr) → Cursor → Prop
  | last {c stop : Cursor} {ts : List Token} {e : Expr}
      (hrun : (operand inner).run c = .done e stop) (hpass : c.Passes ts stop) :
      Row inner c ts e [] stop
  | next {c m n stop : Cursor} {t : Token} {ts us : List Token} {e e' : Expr}
      {rest : List (Ident × Expr)} (hrun : (operand inner).run c = .done e m)
      (hpass : c.Passes ts m) (hsign : m.Passes [t] n) (hkind : t.kind = .operator)
      (hline : t.startsLine = false) (hrest : Row inner n us e' rest stop) :
      Row inner c (ts ++ t :: us) e ((t.ident, e') :: rest) stop

variable {inner : Parser Expr} {c stop : Cursor} {ts : List Token} {first : Expr}
  {rest : List (Ident × Expr)}

theorem Row.passes (h : Row inner c ts first rest stop) : c.Passes ts stop := by
  induction h with
  | last _ hpass => exact hpass
  | next _ hpass hsign _ _ _ ih => exact hpass.trans (hsign.trans ih)

theorem Row.exists_run (h : Row inner c ts first rest stop)
    (hstop : stop.isAtOnLine .operator = false) :
    ∃ m, (operand inner).run c = .done first m ∧
      (many (operation? inner)).run m = .done rest stop := by
  induction h with
  | last hrun _ => exact ⟨_, hrun, run_many_nil (run_if_false hstop)⟩
  | @next c m n stop t ts us e e' rest hrun hpass hsign hkind hline hrest ih =>
    obtain ⟨d, hoperand, hmany⟩ := ih hstop
    obtain ⟨vs, hvs⟩ : n.Precedes d := (hoperand ▸ (operand inner).forward n) d rfl
    have hn : m.advance = n := hsign.tail.eq_of_nil
    have hoperation : (operation? inner).run m = .done (some (t.ident, e')) d := by
      refine (run_if_true ?_).trans (run_bind_of_done (run_next hsign) ?_)
      · rw [hsign.isAtOnLine hline, hkind]
        rfl
      · rw [hn]
        exact run_bind_of_done hoperand rfl
    exact ⟨m, hrun, run_many_cons (List.cons_ne_nil t vs) (hsign.trans hvs) hoperation hmany⟩

/-- A row of operands is read as the only sound tree of its operands and operators, all of it and
nothing else. -/
theorem operations_groups (h : Row inner c ts first rest stop)
    (hstop : stop.isAtOnLine .operator = false) :
    c.Passes ts stop ∧ ∃ T : Operator.Grouping, T.Groups first rest ∧
      (∀ S : Operator.Grouping, S.Groups first rest → S = T) ∧
      (operations inner).run c = .done T.expr stop := by
  obtain ⟨m, hfirst, hmany⟩ := h.exists_run hstop
  obtain ⟨T, htree, hT⟩ := Operator.Grouping.exists_groups first rest
  refine ⟨h.passes, T, hT, fun S hS => ?_, ?_⟩
  · refine hS.sound.unique hT.sound ?_ ?_
    · rw [hS.operands, hT.operands]
    · rw [hS.operators, hT.operators]
  · refine run_bind_of_done hfirst (run_bind_of_done hmany ?_)
    rw [htree]
    rfl

theorem run_operand_of_identifier {m : Cursor} {t : Token} (hpass : c.Passes [t] m)
    (ht : t.kind = .identifier) (hdot : m.peek.kind ≠ .dot) (hparen : m.peek.kind ≠ .leftParen) :
    (operand inner).run c = .done (.reference t.ident) m := by
  have hpeek : c.peek.kind = .identifier := by rw [hpass.head, ht]
  have hm : c.advance = m := hpass.tail.eq_of_nil
  have hname : identifier.run c = .done t.ident m := by
    rw [← hm]
    exact run_bind_of_done (run_expect hpass ht _) rfl
  have hsimple : (simple inner).run c = .done (.reference t.ident) m := by
    refine (run_look _).trans ?_
    rw [hpeek]
    exact run_bind_of_done hname rfl
  exact run_operand (by simp [hpeek]) (run_suffixed hsimple hdot hparen)

/-- Operators of equal strength of which one groups to the right, and a stronger one. -/
theorem operations_groups_mixed :
    let name (text : String) : Token := ⟨.identifier, text, .topOfFile, false⟩
    let sign (text : String) : Token := ⟨.operator, text, .topOfFile, false⟩
    let read (text : String) : Expr := .reference ⟨text, .topOfFile⟩
    let final : Token := ⟨.eof, "", .topOfFile, false⟩
    let tokens := [name "a", sign "+", name "b", sign "+:", name "c", sign "*", name "d"]
    let c : Cursor := ⟨none, tokens, final⟩
    let stop : Cursor := ⟨some (name "d"), [], final⟩
    let rest := [((sign "+").ident, read "b"), ((sign "+:").ident, read "c"),
      ((sign "*").ident, read "d")]
    Row expression c tokens (read "a") rest stop ∧ stop.isAtOnLine .operator = false ∧
      c.Passes tokens stop ∧ ∃ T : Operator.Grouping, T.Groups (read "a") rest ∧
        (∀ S : Operator.Grouping, S.Groups (read "a") rest → S = T) ∧
        (operations expression).run c = .done T.expr stop := by
  intro name sign read final tokens c stop rest
  have hstop : stop.isAtOnLine .operator = false := rfl
  have hpasses : ∀ previous t ts,
      Cursor.Passes ⟨previous, t :: ts, final⟩ [t] ⟨some t, ts, final⟩ :=
    fun _ _ _ => ⟨rfl, rfl, rfl⟩
  have hread : ∀ previous text ts, (ts.head?.getD final).kind ∉ [.dot, .leftParen] →
      (operand expression).run ⟨previous, name text :: ts, final⟩ =
        .done (read text) ⟨some (name text), ts, final⟩ := by
    intro previous text ts hts
    exact run_operand_of_identifier (hpasses ..) rfl (ne_of_barred hts (by decide))
      (ne_of_barred hts (by decide))
  have hrow : Row expression c tokens (read "a") rest stop :=
    .next (hread _ _ _ (by decide)) (hpasses ..) (hpasses ..) rfl rfl
      (.next (hread _ _ _ (by decide)) (hpasses ..) (hpasses ..) rfl rfl
        (.next (hread _ _ _ (by decide)) (hpasses ..) (hpasses ..) rfl rfl
          (.last (hread _ _ _ (by decide)) (hpasses ..))))
  exact ⟨hrow, hstop, operations_groups hrow hstop⟩

end Parser

end Mixin
