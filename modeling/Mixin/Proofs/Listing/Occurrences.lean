import Mixin.Proofs.Listing.Fragments
import Mixin.Proofs.Listing.Machine

/-!
# Where expressions stand in a body

Lowering an expression puts the instructions of its operands one behind another, with some of its
own in between. `Expr.operandsAt` says where those of each operand start, and under which names and
numbers they are lowered; `Occurrence.Within` goes on from there to all that stands in an
expression, but not in closures, which are bodies of their own. Every closure that lowering hands
back is met at one of these places (`exists_within_of_closures`), and all are numbered as they are
met (`Within.closures`).
-/

namespace Mixin

open Relation

/-! ### Consecutive numbers -/

/-- Things are numbered from `first` on, in the order in which they are found in the members of a
list; `number` is the next number at each member. -/
def Consecutive {α β : Type} (number : α → Nat) (found : α → List β) : Nat → List α → Prop
  | _, [] => True
  | first, a :: as => number a = first ∧ Consecutive number found (first + (found a).length) as

namespace Consecutive

variable {α β : Type} {number : α → Nat} {found : α → List β} {first : Nat} {as bs : List α}

theorem append (h : Consecutive number found first as)
    (h' : Consecutive number found (first + (as.flatMap found).length) bs) :
    Consecutive number found first (as ++ bs) := by
  induction as generalizing first with
  | nil => simpa using h'
  | cons a as ih =>
    refine ⟨h.1, ih h.2 ?_⟩
    rw [List.flatMap_cons, List.length_append, ← Nat.add_assoc] at h'
    exact h'

theorem exists_split (h : Consecutive number found first as) {a : α} (ha : a ∈ as) :
    ∃ before after, as.flatMap found = before ++ found a ++ after ∧
      number a = first + before.length := by
  induction as generalizing first with
  | nil => cases ha
  | cons b as ih =>
    rcases List.mem_cons.mp ha with rfl | ha
    · exact ⟨[], as.flatMap found, by simp, h.1⟩
    · obtain ⟨before, after, hfound, hfirst⟩ := ih h.2 ha
      refine ⟨found b ++ before, after, ?_, ?_⟩
      · rw [List.flatMap_cons, hfound]
        simp
      · rw [hfirst, List.length_append, Nat.add_assoc]

theorem exists_of_getElem? (h : Consecutive number found first as) {i : Nat} {b : β}
    (hb : (as.flatMap found)[i]? = some b) :
    ∃ a ∈ as, ∃ j, (found a)[j]? = some b ∧ first + i = number a + j := by
  induction as generalizing first i with
  | nil => cases hb
  | cons a as ih =>
    rw [List.flatMap_cons] at hb
    by_cases hi : i < (found a).length
    · rw [List.getElem?_append_left hi] at hb
      exact ⟨a, List.mem_cons_self .., i, hb, by rw [h.1]⟩
    · rw [List.getElem?_append_right (Nat.le_of_not_lt hi)] at hb
      obtain ⟨c, hc, j, hj, hnumber⟩ := ih h.2 hb
      exact ⟨c, List.mem_cons_of_mem _ hc, j, hj, by omega⟩

end Consecutive

/-! ### Numbers of closures -/

def Instr.closure? : Instr → Option Nat
  | loadClosure index => some index
  | _ => none

def loadedClosures (code : List Instr) : List Nat := code.filterMap Instr.closure?

@[simp] theorem loadedClosures_nil : loadedClosures [] = [] := rfl

@[simp] theorem loadedClosures_cons (i : Instr) (code : List Instr) :
    loadedClosures (i :: code) = i.closure?.toList ++ loadedClosures code := by
  rw [loadedClosures, List.filterMap_cons]
  cases i.closure? <;> rfl

@[simp] theorem loadedClosures_append (a b : List Instr) :
    loadedClosures (a ++ b) = loadedClosures a ++ loadedClosures b :=
  List.filterMap_append

theorem loadedClosures_load (f : Frame) (scope : Scope) (name : String) :
    loadedClosures (f.load scope name) = [] := by
  unfold Frame.load
  split
  · rfl
  · rfl
  · split_ifs <;> rfl

theorem loadedClosures_store (f : Frame) (scope : Scope) (name : String) :
    loadedClosures (f.store scope name).1 = [] ∧ loadedClosures (f.store scope name).2 = [] := by
  unfold Frame.store
  split
  · exact ⟨rfl, rfl⟩
  · exact ⟨rfl, rfl⟩
  · split_ifs <;> exact ⟨rfl, rfl⟩

/-- The closures met in instructions are numbered from `first` on, in the order in which the
instructions load them. -/
structure Lowered.Counts (first : Nat) (a : Lowered) : Prop where
  loads : loadedClosures a.code = List.range' first a.closures.length
  next : a.next.closures = first + a.closures.length

namespace Lowered.Counts

variable {first : Nat} {a b : Lowered} {code : List Instr}

theorem emit (h : loadedClosures code = []) (k : Counters) :
    Counts k.closures (.emit code k) :=
  ⟨h, rfl⟩

theorem append (ha : Counts first a) (hb : Counts a.next.closures b) :
    Counts first (a.append b) where
  loads := by
    rw [Lowered.append, loadedClosures_append, ha.loads, hb.loads, ha.next, List.length_append,
      List.range'_append_1]
  next := by
    rw [Lowered.append, hb.next, ha.next, List.length_append, Nat.add_assoc]

theorem andThen (ha : Counts first a) (h : loadedClosures code = []) :
    Counts first (a.andThen code) where
  loads := by rw [Lowered.andThen, loadedClosures_append, h, List.append_nil, ha.loads]
  next := ha.next

theorem behind (ha : Counts first a) (h : loadedClosures code = []) :
    Counts first (a.behind code) where
  loads := by rw [Lowered.behind, loadedClosures_append, h, List.nil_append, ha.loads]
  next := ha.next

end Lowered.Counts

/-! ### Occurrences -/

/-- An expression that is lowered as a part of a body: where its instructions start, the local names
that it can refer to, and the next numbers. -/
structure Occurrence where
  start : Nat
  scope : Scope
  expr : Expr
  counters : Counters

namespace Occurrence

/-- What an expression is lowered to where it stands. -/
def lowered (f : Frame) (o : Occurrence) : Lowered := lower f o.scope o.expr o.counters

def shift (n : Nat) (o : Occurrence) : Occurrence := { o with start := n + o.start }

@[simp] theorem lowered_shift (f : Frame) (n : Nat) (o : Occurrence) :
    (o.shift n).lowered f = o.lowered f := rfl

end Occurrence

def occurrencesInList (f : Frame) (scope : Scope) : List Expr → Counters → List Occurrence
  | [], _ => []
  | e :: rest, k =>
    let first := lower f scope e k
    ⟨0, scope, e, k⟩ ::
      (occurrencesInList f scope rest first.next).map (.shift first.code.length)

/-- The expressions in the statements of a block. A definition is in force behind itself. -/
def occurrencesInStatements (f : Frame) : Scope → List Stmt → Counters → List Occurrence
  | _, [], _ => []
  | scope, .eval e :: rest, k =>
    let first := lower f scope e k
    ⟨0, scope, e, k⟩ ::
      (occurrencesInStatements f scope rest first.next).map (.shift (first.code.length + 1))
  | scope, .define _ name _ initializer _ :: rest, k =>
    let first := lower f scope initializer k
    let slot := first.next.locals
    ⟨0, scope, initializer, k⟩ ::
      (occurrencesInStatements f ((name.text, slot) :: scope) rest
        { first.next with locals := slot + 1 }).map (.shift (first.code.length + 1))

def Frame.callStart (f : Frame) (scope : Scope) (name : String) : List Instr :=
  if f.callsOwnMethod scope name then [.loadArg 0] else f.load scope name

theorem lower_call_reference (f : Frame) (scope : Scope) (name : Ident) (arguments : List Expr)
    (span : Span) (k : Counters) :
    lower f scope (.call (.reference name) arguments span) k =
      ((lowerList f scope arguments k).behind (f.callStart scope name.text)).andThen
        [.callVirtual (if f.callsOwnMethod scope name.text then name.text else "apply")
          arguments.length] := by
  rw [lower, Frame.callStart]
  by_cases own : f.callsOwnMethod scope name.text = true
  · simp only [if_pos own]
  · simp only [if_neg own]

theorem loadedClosures_callStart (f : Frame) (scope : Scope) (name : String) :
    loadedClosures (f.callStart scope name) = [] := by
  unfold Frame.callStart
  split
  · rfl
  · exact loadedClosures_load f scope name

/-- The operands of an expression: the expressions whose values it needs, in the order in which they
are written. A closure needs none. -/
def Expr.operandsAt (f : Frame) (scope : Scope) : Expr → Counters → List Occurrence
  | .select receiver _ _, k => [⟨0, scope, receiver, k⟩]
  | .call (.select receiver _ _) arguments _, k =>
    occurrencesInList f scope (receiver :: arguments) k
  | .call (.reference name) arguments _, k =>
    (occurrencesInList f scope arguments k).map (.shift (f.callStart scope name.text).length)
  | .call callee arguments _, k => occurrencesInList f scope (callee :: arguments) k
  | .create _ arguments _, k => occurrencesInList f scope arguments k
  | .unary _ operand _, k => [⟨0, scope, operand, k⟩]
  | .binary _ lhs rhs _, k => occurrencesInList f scope [lhs, rhs] k
  | .assign (.reference name) value _, k => [⟨(f.store scope name.text).1.length, scope, value, k⟩]
  | .assign (.select receiver _ _) value _, k => occurrencesInList f scope [receiver, value] k
  | .assign target value _, k => occurrencesInList f scope [target, value] k
  | .ifThen condition consequent _, k =>
    let test := lower f scope condition k.takeTwo
    [⟨0, scope, condition, k.takeTwo⟩, ⟨test.code.length + 1, scope, consequent, test.next⟩]
  | .ifElse condition consequent alternative _, k =>
    let test := lower f scope condition k.takeTwo
    let chosen := lower f scope consequent test.next
    [⟨0, scope, condition, k.takeTwo⟩, ⟨test.code.length + 1, scope, consequent, test.next⟩,
      ⟨test.code.length + 1 + chosen.code.length + 2, scope, alternative, chosen.next⟩]
  | .loop condition body _, k =>
    let test := lower f scope condition k.takeTwo
    [⟨1, scope, condition, k.takeTwo⟩, ⟨1 + test.code.length + 1, scope, body, test.next⟩]
  | .block statements _, k => occurrencesInStatements f scope statements k
  | .int .., _ | .float .., _ | .bool .., _ | .char .., _ | .string .., _ | .null _, _ => []
  | .unit _, _ | .this _, _ | .reference _, _ | .closure .., _ => []

/-! ### Instructions put together -/

/-- Closures are numbered from `first` on, in the order of the expressions in which they are met. -/
def Occurrence.Numbered (f : Frame) : Nat → List Occurrence → Prop :=
  Consecutive (·.counters.closures) fun o => (o.lowered f).closures

/-- Instructions consist of those of some expressions, in this order, and of others between them
that load no closures. If the closures met in each of the expressions are numbered in order, then so
are all of them. -/
structure Lowered.Consists (f : Frame) (first : Nat) (os : List Occurrence) (a : Lowered) :
    Prop where
  stands : ∀ o ∈ os, StandsAt a.code o.start (o.lowered f).code
  closures : a.closures = os.flatMap fun o => (o.lowered f).closures
  counted : (∀ o ∈ os, (o.lowered f).Counts o.counters.closures) →
    Counts first a ∧ Occurrence.Numbered f first os

namespace Occurrence

variable {f : Frame} {first n : Nat} {os : List Occurrence}

theorem numbered_shift (h : Numbered f first os) : Numbered f first (os.map (shift n)) := by
  induction os generalizing first with
  | nil => trivial
  | cons o os ih => exact ⟨h.1, ih h.2⟩

theorem closures_shift (f : Frame) (n : Nat) (os : List Occurrence) :
    ((os.map (shift n)).flatMap fun o => (o.lowered f).closures) =
      os.flatMap fun o => (o.lowered f).closures := by
  rw [List.flatMap_map]
  rfl

end Occurrence

namespace Lowered.Consists

variable {f : Frame} {first : Nat} {os os' : List Occurrence} {a b : Lowered} {code : List Instr}

theorem lower (f : Frame) (scope : Scope) (e : Expr) (k : Counters) :
    Consists f k.closures [⟨0, scope, e, k⟩] (lower f scope e k) where
  stands := by
    intro o ho
    rw [List.mem_singleton.mp ho]
    exact ⟨[], [], by simp [Occurrence.lowered], rfl⟩
  closures := by simp [Occurrence.lowered]
  counted := fun h => ⟨h _ (List.mem_cons_self ..), rfl, trivial⟩

theorem emit (h : loadedClosures code = []) (k : Counters) :
    Consists f k.closures [] (.emit code k) where
  stands := nofun
  closures := rfl
  counted := fun _ => ⟨.emit h k, trivial⟩

theorem append (ha : Consists f first os a) (hb : Consists f a.next.closures os' b) :
    Consists f first (os ++ os'.map (.shift a.code.length)) (a.append b) where
  stands := by
    intro o ho
    rcases List.mem_append.mp ho with ho | ho
    · obtain ⟨before, after, hcode, hstart⟩ := ha.stands o ho
      exact ⟨before, after ++ b.code, by simp [Lowered.append, hcode], hstart⟩
    · obtain ⟨o', ho', rfl⟩ := List.mem_map.mp ho
      obtain ⟨before, after, hcode, hstart⟩ := hb.stands o' ho'
      exact ⟨a.code ++ before, after, by simp [Lowered.append, hcode],
        by simp [Occurrence.shift, hstart]⟩
  closures := by
    rw [List.flatMap_append, Occurrence.closures_shift, ← ha.closures, ← hb.closures]
    rfl
  counted := by
    intro h
    obtain ⟨hcounts, hnumbered⟩ := ha.counted fun o ho => h o (List.mem_append_left _ ho)
    obtain ⟨hcounts', hnumbered'⟩ := hb.counted fun o ho =>
      h (o.shift a.code.length) (List.mem_append_right _ (List.mem_map_of_mem ho))
    refine ⟨hcounts.append hcounts', hnumbered.append (Occurrence.numbered_shift ?_)⟩
    rwa [← ha.closures, ← hcounts.next]

theorem andThen (ha : Consists f first os a) (h : loadedClosures code = []) :
    Consists f first os (a.andThen code) where
  stands := by
    intro o ho
    obtain ⟨before, after, hcode, hstart⟩ := ha.stands o ho
    exact ⟨before, after ++ code, by simp [Lowered.andThen, hcode], hstart⟩
  closures := ha.closures
  counted := fun hos => (ha.counted hos).imp_left (·.andThen h)

theorem behind (ha : Consists f first os a) (h : loadedClosures code = []) :
    Consists f first (os.map (.shift code.length)) (a.behind code) where
  stands := by
    intro o ho
    obtain ⟨o', ho', rfl⟩ := List.mem_map.mp ho
    obtain ⟨before, after, hcode, hstart⟩ := ha.stands o' ho'
    exact ⟨code ++ before, after, by simp [Lowered.behind, hcode],
      by simp [Occurrence.shift, hstart]⟩
  closures := by
    rw [Occurrence.closures_shift]
    exact ha.closures
  counted := fun hos =>
    (ha.counted fun o ho => hos (o.shift code.length) (List.mem_map_of_mem ho)).imp (·.behind h)
      Occurrence.numbered_shift

end Lowered.Consists

open Lowered (Consists)

theorem consists_lowerList (f : Frame) (scope : Scope) (es : List Expr) (k : Counters) :
    Consists f k.closures (occurrencesInList f scope es k) (lowerList f scope es k) := by
  induction es generalizing k with
  | nil =>
    rw [lowerList]
    exact .emit rfl k
  | cons e es ih =>
    rw [lowerList, occurrencesInList]
    exact (Consists.lower f scope e k).append (ih _)

theorem consists_lowerStatements (f : Frame) (scope : Scope) (ss : List Stmt) (k : Counters) :
    Consists f k.closures (occurrencesInStatements f scope ss k)
      (lowerStatements f scope ss k) := by
  induction ss generalizing scope k with
  | nil =>
    rw [lowerStatements]
    exact .emit rfl k
  | cons s ss ih =>
    cases s with
    | eval e =>
      rw [occurrencesInStatements]
      cases ss with
      | nil =>
        rw [lowerStatements, occurrencesInStatements]
        exact .lower f scope e k
      | cons s ss =>
        rw [lowerStatements]
        · have hfirst : Consists f k.closures [⟨0, scope, e, k⟩]
              ((lower f scope e k).andThen [.pop]) := (Consists.lower f scope e k).andThen rfl
          have happended := hfirst.append (ih scope _)
          rwa [Lowered.andThen, List.length_append] at happended
        · simp
    | define binding name type initializer span =>
      rw [lowerStatements, occurrencesInStatements]
      have hfirst : Consists f k.closures [⟨0, scope, initializer, k⟩]
          ((lower f scope initializer k).andThen
            [.storeLocal (lower f scope initializer k).next.locals]) :=
        (Consists.lower f scope initializer k).andThen rfl
      have happended := hfirst.append
        (ih ((name.text, (lower f scope initializer k).next.locals) :: scope)
          { (lower f scope initializer k).next with
            locals := (lower f scope initializer k).next.locals + 1 })
      rwa [Lowered.andThen, List.length_append] at happended

/-- The instructions of an expression consist of those of its operands. -/
theorem consists_lower (f : Frame) (scope : Scope) (e : Expr) (k : Counters)
    (hclosure : ∀ parameters body span, e ≠ .closure parameters body span) :
    Consists f k.closures (e.operandsAt f scope k) (lower f scope e k) := by
  have hlower := Consists.lower f scope
  have hlist := consists_lowerList f scope
  have hpair : ∀ x y k, Consists f k.closures (occurrencesInList f scope [x, y] k)
      ((lower f scope x k).append (lower f scope y (lower f scope x k).next)) :=
    fun x y k => (hlower x k).append (hlower y _)
  fun_cases Expr.operandsAt f scope e k with
  | case1 receiver =>
    rw [lower]
    exact (hlower receiver k).andThen rfl
  | case2 receiver name _ arguments =>
    rw [lower]
    exact (hlist (receiver :: arguments) k).andThen rfl
  | case3 name arguments =>
    rw [lower_call_reference]
    exact ((hlist arguments k).behind (loadedClosures_callStart f scope name.text)).andThen rfl
  | case4 callee arguments span _ member name =>
    rw [lower]
    · exact (hlist (callee :: arguments) k).andThen rfl
    · exact member
    · exact name
  | case5 type arguments =>
    rw [lower]
    exact (hlist arguments k).andThen rfl
  | case6 operator operand =>
    rw [lower]
    exact (hlower operand k).andThen rfl
  | case7 operator lhs rhs =>
    rw [lower]
    exact (hpair lhs rhs k).andThen rfl
  | case8 name value =>
    obtain ⟨hbefore, hafter⟩ := loadedClosures_store f scope name.text
    rw [lower]
    refine ((hlower value k).behind hbefore).andThen ?_
    rw [loadedClosures_append]
    exact congrArg (· ++ _) hafter
  | case9 receiver name _ value =>
    rw [lower]
    exact (hpair receiver value k).andThen rfl
  | case10 target value span _ name member =>
    rw [lower]
    · exact (hpair target value k).andThen rfl
    · exact name
    · exact member
  | case11 condition consequent =>
    have htest : Consists f k.closures [⟨0, scope, condition, k.takeTwo⟩]
        ((lower f scope condition k.takeTwo).andThen [.branchFalse k.labels]) :=
      (hlower condition k.takeTwo).andThen rfl
    have hchosen := htest.append (hlower consequent _)
    rw [Lowered.andThen, List.length_append] at hchosen
    rw [lower]
    exact hchosen.andThen rfl
  | case12 condition consequent alternative =>
    have htest : Consists f k.closures [⟨0, scope, condition, k.takeTwo⟩]
        ((lower f scope condition k.takeTwo).andThen [.branchFalse k.labels]) :=
      (hlower condition k.takeTwo).andThen rfl
    have hchosen := (htest.append (hlower consequent _)).andThen
      (rfl : loadedClosures [.branch (k.labels + 1), .label k.labels] = [])
    have hother := hchosen.append (hlower alternative _)
    simp only [Lowered.andThen, Lowered.append, List.length_append] at hother
    rw [lower]
    exact hother.andThen rfl
  | case13 condition body =>
    have htest := ((hlower condition k.takeTwo).behind
      (rfl : loadedClosures [.label k.labels] = [])).andThen
      (rfl : loadedClosures [.branchFalse (k.labels + 1)] = [])
    have hround := htest.append (hlower body _)
    simp only [Lowered.andThen, Lowered.behind, List.length_append] at hround
    rw [lower]
    exact hround.andThen rfl
  | case14 statements =>
    rw [lower]
    exact consists_lowerStatements f scope statements k
  | case23 name =>
    rw [lower]
    exact .emit (loadedClosures_load f scope name.text) k
  | case24 parameters body span => exact absurd rfl (hclosure parameters body span)
  | _ =>
    rw [lower]
    exact .emit rfl k

/-! ### Expressions in lists -/

theorem map_expr_occurrencesInList (f : Frame) (scope : Scope) (es : List Expr) (k : Counters) :
    (occurrencesInList f scope es k).map (·.expr) = es := by
  induction es generalizing k with
  | nil => rfl
  | cons e es ih =>
    rw [occurrencesInList, List.map_cons, List.map_map]
    exact congrArg (e :: ·) (ih _)

theorem expr_mem_of_occurrencesInList {f : Frame} {scope : Scope} {es : List Expr} {k : Counters}
    {o : Occurrence} (ho : o ∈ occurrencesInList f scope es k) : o.expr ∈ es := by
  have hmem : o.expr ∈ (occurrencesInList f scope es k).map (·.expr) := List.mem_map_of_mem ho
  rwa [map_expr_occurrencesInList] at hmem

theorem scope_occurrencesInList {f : Frame} {scope : Scope} {es : List Expr} {k : Counters}
    {o : Occurrence} (ho : o ∈ occurrencesInList f scope es k) : o.scope = scope := by
  induction es generalizing k o with
  | nil => cases ho
  | cons e es ih =>
    rcases List.mem_cons.mp ho with rfl | ho
    · rfl
    · obtain ⟨p, hp, rfl⟩ := List.mem_map.mp ho
      have hscope : p.scope = scope := ih hp
      exact hscope

theorem sizeOf_lt_of_occurrencesInList {f : Frame} {scope : Scope} {es : List Expr} {k : Counters}
    {o : Occurrence} (ho : o ∈ occurrencesInList f scope es k) : sizeOf o.expr < sizeOf es :=
  List.sizeOf_lt_of_mem (expr_mem_of_occurrencesInList ho)

theorem sizeOf_lt_of_occurrencesInStatements {f : Frame} {scope : Scope} {ss : List Stmt}
    {k : Counters} {o : Occurrence} (ho : o ∈ occurrencesInStatements f scope ss k) :
    sizeOf o.expr < sizeOf ss := by
  induction ss generalizing scope k o with
  | nil => cases ho
  | cons s ss ih =>
    cases s with
    | eval e =>
      rcases List.mem_cons.mp ho with rfl | ho
      · simp
        omega
      · obtain ⟨p, hp, rfl⟩ := List.mem_map.mp ho
        have := ih hp
        simp [Occurrence.shift]
        omega
    | define =>
      rcases List.mem_cons.mp ho with rfl | ho
      · simp
        omega
      · obtain ⟨p, hp, rfl⟩ := List.mem_map.mp ho
        have := ih hp
        simp [Occurrence.shift]
        omega

theorem sizeOf_operand_lt {f : Frame} {scope : Scope} {e : Expr} {k : Counters} {o : Occurrence}
    (ho : o ∈ e.operandsAt f scope k) : sizeOf o.expr < sizeOf e := by
  revert ho
  fun_cases Expr.operandsAt f scope e k <;> intro ho
  case case2 | case4 | case5 =>
    have hlt := sizeOf_lt_of_occurrencesInList ho
    simp at hlt ⊢
    omega
  case case7 | case9 | case10 =>
    have hmem := expr_mem_of_occurrencesInList ho
    simp only [List.mem_cons, List.not_mem_nil, or_false] at hmem
    rcases hmem with hexpr | hexpr <;> rw [hexpr] <;> simp <;> omega
  case case3 =>
    obtain ⟨p, hp, rfl⟩ := List.mem_map.mp ho
    have hlt := sizeOf_lt_of_occurrencesInList hp
    simp [Occurrence.shift]
    omega
  case case1 | case6 | case8 =>
    rw [List.mem_singleton.mp ho]
    simp
    omega
  case case11 | case12 | case13 =>
    simp only [List.mem_cons, List.not_mem_nil, or_false] at ho
    rcases ho with rfl | rfl | rfl <;> simp <;> omega
  case case14 =>
    have hlt := sizeOf_lt_of_occurrencesInStatements ho
    simp
    omega
  all_goals cases ho

theorem counts_lower (f : Frame) (scope : Scope) (e : Expr) (k : Counters) :
    (lower f scope e k).Counts k.closures := by
  by_cases hclosure : ∃ parameters body span, e = .closure parameters body span
  · obtain ⟨parameters, body, span, rfl⟩ := hclosure
    rw [lower]
    exact ⟨rfl, rfl⟩
  · have hne : ∀ parameters body span, e ≠ .closure parameters body span :=
      fun parameters body span heq => hclosure ⟨parameters, body, span, heq⟩
    exact ((consists_lower f scope e k hne).counted fun o ho =>
      have := sizeOf_operand_lt ho
      counts_lower f o.scope o.expr o.counters).1
termination_by sizeOf e

namespace Lowered.Consists

variable {f : Frame} {first : Nat} {os : List Occurrence} {a : Lowered}

theorem toCounts (h : Consists f first os a) : Counts first a :=
  (h.counted fun o _ => counts_lower f o.scope o.expr o.counters).1

theorem numbered (h : Consists f first os a) : Occurrence.Numbered f first os :=
  (h.counted fun o _ => counts_lower f o.scope o.expr o.counters).2

end Lowered.Consists

/-! ### Within an expression -/

namespace Occurrence

variable {f : Frame} {o p : Occurrence}

/-- `p` is an operand of `o`, placed where the instructions of `o` start. -/
def IsOperand (f : Frame) (o p : Occurrence) : Prop :=
  ∃ q ∈ o.expr.operandsAt f o.scope o.counters, p = q.shift o.start

/-- `p` stands in `o`, and in no closure that stands in `o`. -/
def Within (f : Frame) (o p : Occurrence) : Prop := ReflTransGen (IsOperand f) o p

theorem ne_closure_of_isOperand (h : IsOperand f o p) (parameters : List Binder) (body : Expr)
    (span : Span) : o.expr ≠ .closure parameters body span := by
  intro hclosure
  obtain ⟨q, hq, -⟩ := h
  rw [hclosure] at hq
  cases hq

theorem IsOperand.stands (h : IsOperand f o p) {body : List Instr}
    (ho : StandsAt body o.start (o.lowered f).code) : StandsAt body p.start (p.lowered f).code := by
  have hconsists := consists_lower f o.scope o.expr o.counters (ne_closure_of_isOperand h)
  obtain ⟨q, hq, rfl⟩ := h
  obtain ⟨before, after, hcode, hstart⟩ := hconsists.stands q hq
  obtain ⟨before', after', rfl, hstart'⟩ := ho
  refine ⟨before' ++ before, after ++ after', ?_, ?_⟩
  · rw [lowered_shift, lowered, hcode]
    simp
  · rw [List.length_append, ← hstart, ← hstart']
    rfl

/-- Within instructions that stand in a body, what stands in their expression has its place. -/
theorem Within.stands (h : Within f o p) {body : List Instr}
    (ho : StandsAt body o.start (o.lowered f).code) : StandsAt body p.start (p.lowered f).code := by
  induction h with
  | refl => exact ho
  | tail _ hstep ih => exact hstep.stands ih

theorem IsOperand.closures (h : IsOperand f o p) : ∃ before after,
    (o.lowered f).closures = before ++ (p.lowered f).closures ++ after ∧
      p.counters.closures = o.counters.closures + before.length := by
  have hconsists := consists_lower f o.scope o.expr o.counters (ne_closure_of_isOperand h)
  obtain ⟨q, hq, rfl⟩ := h
  obtain ⟨before, after, hclosures, hfirst⟩ := hconsists.numbered.exists_split hq
  exact ⟨before, after, hconsists.closures.trans hclosures, hfirst⟩

theorem Within.closures (h : Within f o p) : ∃ before after,
    (o.lowered f).closures = before ++ (p.lowered f).closures ++ after ∧
      p.counters.closures = o.counters.closures + before.length := by
  induction h with
  | refl => exact ⟨[], [], by simp, rfl⟩
  | tail _ hstep ih =>
    obtain ⟨before, after, hclosures, hfirst⟩ := ih
    obtain ⟨before', after', hclosures', hfirst'⟩ := hstep.closures
    refine ⟨before ++ before', after' ++ after, ?_, ?_⟩
    · rw [hclosures, hclosures']
      simp
    · rw [hfirst', hfirst, List.length_append, Nat.add_assoc]

end Occurrence

/-- Every closure that lowering hands back is met within the expression, at a place where its number
is the next one. -/
theorem exists_within_of_closures {f : Frame} (o : Occurrence) {i : Nat} {l : Lambda}
    (hl : (o.lowered f).closures[i]? = some l) :
    ∃ p span, o.Within f p ∧ p.expr = .closure l.parameters l.body span ∧
      p.counters.closures = o.counters.closures + i := by
  -- Down the operands, of which the right one is the one whose numbers the closure has.
  induction hn : sizeOf o.expr using Nat.strongRecOn generalizing o i with
  | ind n ih =>
    subst hn
    by_cases hclosure : ∃ parameters body span, o.expr = .closure parameters body span
    · obtain ⟨parameters, body, span, hexpr⟩ := hclosure
      rw [Occurrence.lowered, hexpr, lower] at hl
      cases i with
      | succ i => cases hl
      | zero =>
        cases hl
        exact ⟨o, span, .refl, hexpr, rfl⟩
    · have hne : ∀ parameters body span, o.expr ≠ .closure parameters body span :=
        fun parameters body span heq => hclosure ⟨parameters, body, span, heq⟩
      have hconsists := consists_lower f o.scope o.expr o.counters hne
      rw [Occurrence.lowered, hconsists.closures] at hl
      obtain ⟨q, hq, j, hj, hnumber⟩ := hconsists.numbered.exists_of_getElem? hl
      obtain ⟨p, span, hwithin, hexpr, hcounters⟩ :=
        ih _ (sizeOf_operand_lt hq) (q.shift o.start) hj rfl
      refine ⟨p, span, ReflTransGen.head ⟨q, hq, rfl⟩ hwithin, hexpr, ?_⟩
      rw [hcounters, hnumber]
      rfl

end Mixin
