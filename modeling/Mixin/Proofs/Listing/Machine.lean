import Mathlib.Logic.Relation
import Mixin.Listing.Instr

/-!
# The stack machine

What instructions do. Everything that is not a matter of the stack, the slots and the arguments is
left open: `Primitives` says what calls, new objects, fields and so on do to a state of which
nothing is known. A step that a primitive refuses does not happen.
-/

namespace Mixin

/-- The values that can be written down. -/
inductive Constant where
  | null
  | unit
  | int (value : Nat)
  | float (value : Binary64)
  | bool (value : Bool)
  | char (value : Char)
  | string (value : String)

/-- What is left open: values `V`, a state `S`, and what is observed of them. -/
structure Primitives (V S : Type) where
  constant : Constant → V
  /-- Whether a value counts as true. -/
  truth : V → S → Bool
  /-- The code of the closure with a number. -/
  closure : Nat → S → Option (V × S)
  /-- Calls a method by its name with a receiver and arguments. -/
  call : String → V → List V → S → Option (V × S)
  /-- Calls the constructor of a type by its name for a receiver with arguments. -/
  construct : String → V → List V → S → Option S
  create : String → List V → S → Option (V × S)
  loadField : String → V → S → Option (V × S)
  storeField : String → V → V → S → Option S
  loadMember : String → V → S → Option (V × S)
  storeMember : String → V → V → S → Option S
  loadInstance : String → S → Option (V × S)
  loadSymbol : String → S → Option (V × S)
  storeSymbol : String → V → S → Option S

/-- What a body works on. The top of the stack comes first, and argument zero is the receiver. -/
structure Memory (V S : Type) where
  stack : List V
  slots : List V
  arguments : List V
  state : S

/-- A position in a body, and what the body works on. -/
structure Machine (V S : Type) where
  position : Nat
  memory : Memory V S

variable {V S : Type}

namespace Memory

@[simp]
def push (m : Memory V S) (v : V) : Memory V S := { m with stack := v :: m.stack }

def pop {α : Type} (m : Memory V S) (next : V → Memory V S → Option α) : Option α :=
  match m.stack with
  | [] => none
  | v :: stack => next v { m with stack := stack }

def popMany {α : Type} (m : Memory V S) (n : Nat) (next : List V → Memory V S → Option α) :
    Option α :=
  if n ≤ m.stack.length then next (m.stack.take n).reverse { m with stack := m.stack.drop n }
  else none

@[simp]
def enter (m : Memory V S) (s : S) : Memory V S := { m with state := s }

@[simp]
def receive (m : Memory V S) (r : V × S) : Memory V S := (m.enter r.2).push r.1

@[simp] theorem pop_cons {α : Type} (v : V) (stack slots arguments : List V) (s : S)
    (next : V → Memory V S → Option α) :
    pop ⟨v :: stack, slots, arguments, s⟩ next = next v ⟨stack, slots, arguments, s⟩ := rfl

@[simp] theorem popMany_reverse {α : Type} (vs stack slots arguments : List V) (s : S)
    (next : List V → Memory V S → Option α) :
    popMany ⟨vs.reverse ++ stack, slots, arguments, s⟩ vs.length next =
      next vs ⟨stack, slots, arguments, s⟩ := by
  simp [popMany]

end Memory

namespace Primitives

variable (P : Primitives V S)

@[simp]
def perform : Instr → Memory V S → Option (Memory V S)
  | .loadNull, m => some (m.push (P.constant .null))
  | .loadUnit, m => some (m.push (P.constant .unit))
  | .loadInt value, m => some (m.push (P.constant (.int value)))
  | .loadFloat value, m => some (m.push (P.constant (.float value)))
  | .loadBool value, m => some (m.push (P.constant (.bool value)))
  | .loadChar value, m => some (m.push (P.constant (.char value)))
  | .loadString value, m => some (m.push (P.constant (.string value)))
  | .loadArg index, m => m.arguments[index]?.map m.push
  | .storeArg index, m => m.pop fun v m =>
    if index < m.arguments.length then some { m with arguments := m.arguments.set index v }
    else none
  | .loadLocal slot, m => m.slots[slot]?.map m.push
  | .storeLocal slot, m => m.pop fun v m =>
    if slot < m.slots.length then some { m with slots := m.slots.set slot v } else none
  | .loadField name, m => m.pop fun r m => (P.loadField name r m.state).map m.receive
  | .storeField name, m => m.pop fun v m => m.pop fun r m =>
    (P.storeField name r v m.state).map m.enter
  | .loadMember name, m => m.pop fun r m => (P.loadMember name r m.state).map m.receive
  | .storeMember name, m => m.pop fun v m => m.pop fun r m =>
    (P.storeMember name r v m.state).map m.enter
  | .loadInstance name, m => (P.loadInstance name m.state).map m.receive
  | .loadSymbol name, m => (P.loadSymbol name m.state).map m.receive
  | .storeSymbol name, m => m.pop fun v m => (P.storeSymbol name v m.state).map m.enter
  | .callVirtual name arity, m => m.popMany arity fun vs m => m.pop fun r m =>
    (P.call name r vs m.state).map m.receive
  | .callConstructor type arity, m => m.popMany arity fun vs m => m.pop fun r m =>
    (P.construct type r vs m.state).map m.enter
  | .create type arity, m => m.popMany arity fun vs m =>
    (P.create type vs m.state).map m.receive
  | .loadClosure index, m => (P.closure index m.state).map m.receive
  | .label _, m => some m
  | .pop, m => m.pop fun _ m => some m
  | .branch _, _ | .branchFalse _, _ | .ret, _ => none

@[simp]
def exec : List Instr → Memory V S → Option (Memory V S)
  | [], m => some m
  | i :: code, m => (P.perform i m).bind (exec code)

/-- A jump to a label: it goes to the first place where the label stands. -/
def jump (code : List Instr) (l : Nat) (m : Memory V S) : Option (Machine V S) :=
  (code.idxOf? (.label l)).map fun position => ⟨position, m⟩

def step (code : List Instr) (m : Machine V S) : Option (Machine V S) :=
  match code[m.position]? with
  | none => none
  | some (.branch l) => jump code l m.memory
  | some (.branchFalse l) => m.memory.pop fun v memory =>
    if P.truth v memory.state then some ⟨m.position + 1, memory⟩ else jump code l memory
  | some i => (P.perform i m.memory).map fun memory => ⟨m.position + 1, memory⟩

def Reaches (code : List Instr) : Machine V S → Machine V S → Prop :=
  Relation.ReflTransGen fun m m' => P.step code m = some m'

end Primitives

/-! ### Pieces of code -/

/-- Some instructions stand at a position of a body. -/
def StandsAt (body : List Instr) (p : Nat) (code : List Instr) : Prop :=
  ∃ before after, body = before ++ code ++ after ∧ p = before.length

/-- No label from a number on stands before a position of a body. -/
def FreshAt (body : List Instr) (p first : Nat) : Prop :=
  ∀ l, first ≤ l → .label l ∉ body.take p

/-- The labels in some instructions lie between two numbers. -/
def LabelsIn (first last : Nat) (code : List Instr) : Prop :=
  ∀ l, .label l ∈ code → first ≤ l ∧ l < last

theorem LabelsIn.not_mem_of_lt {first last l : Nat} {code : List Instr}
    (labels : LabelsIn first last code) (lt : l < first) : .label l ∉ code :=
  fun mem => Nat.not_le_of_lt lt (labels l mem).1

theorem LabelsIn.not_mem_of_le {first last l : Nat} {code : List Instr}
    (labels : LabelsIn first last code) (le : last ≤ l) : .label l ∉ code :=
  fun mem => Nat.not_le_of_lt (labels l mem).2 le

namespace StandsAt

variable {body : List Instr} {p : Nat}

theorem left {a b : List Instr} (h : StandsAt body p (a ++ b)) : StandsAt body p a := by
  obtain ⟨before, after, rfl, rfl⟩ := h
  exact ⟨before, b ++ after, by simp, rfl⟩

theorem right {a b : List Instr} (h : StandsAt body p (a ++ b)) :
    StandsAt body (p + a.length) b := by
  obtain ⟨before, after, rfl, rfl⟩ := h
  exact ⟨before ++ a, after, by simp, by simp⟩

theorem tail {i : Instr} {code : List Instr} (h : StandsAt body p (i :: code)) :
    StandsAt body (p + 1) code :=
  h.right (a := [i])

theorem getElem?_eq {i : Instr} {code : List Instr} (h : StandsAt body p (i :: code)) :
    body[p]? = some i := by
  obtain ⟨before, after, rfl, rfl⟩ := h
  simp

theorem take_right {a b : List Instr} (h : StandsAt body p (a ++ b)) :
    body.take (p + a.length) = body.take p ++ a := by
  obtain ⟨before, after, rfl, rfl⟩ := h
  rw [List.append_assoc, List.take_left, List.append_assoc, List.take_length_add_append,
    List.take_left]

theorem not_mem_right {a b : List Instr} {l : Nat} (h : StandsAt body p (a ++ b))
    (not_before : .label l ∉ body.take p) (not_in : .label l ∉ a) :
    .label l ∉ body.take (p + a.length) := by
  rw [h.take_right, List.mem_append]
  exact not_or.2 ⟨not_before, not_in⟩

theorem not_mem_tail {i : Instr} {code : List Instr} {l : Nat} (h : StandsAt body p (i :: code))
    (not_before : .label l ∉ body.take p) (ne : i ≠ .label l) : .label l ∉ body.take (p + 1) :=
  h.not_mem_right (a := [i]) not_before (mt List.mem_singleton.1 ne.symm)

theorem fresh_right {a b : List Instr} {first first' : Nat} (h : StandsAt body p (a ++ b))
    (fresh : FreshAt body p first) (le : first ≤ first') (labels : ∀ l, first' ≤ l → .label l ∉ a) :
    FreshAt body (p + a.length) first' := by
  exact fun l from_first =>
    h.not_mem_right (fresh l (Nat.le_trans le from_first)) (labels l from_first)

end StandsAt

/-! ### Runs -/

/-- Wherever the instructions stand, the machine goes from their start to their end, provided that
their labels do not stand before them. -/
def Runs (P : Primitives V S) (first : Nat) (code : List Instr) (m m' : Memory V S) : Prop :=
  ∀ body p, StandsAt body p code → FreshAt body p first →
    P.Reaches body ⟨p, m⟩ ⟨p + code.length, m'⟩

namespace Primitives

variable {P : Primitives V S} {body : List Instr} {p q : Nat} {code code' : List Instr}

/-- The machine has only one place where it can come to rest. -/
theorem eq_of_reaches {m m₁ m₂ : Machine V S} (reaches₁ : P.Reaches body m m₁)
    (reaches₂ : P.Reaches body m m₂) (rests₁ : P.step body m₁ = none)
    (rests₂ : P.step body m₂ = none) : m₁ = m₂ := by
  have unique : Relator.RightUnique fun m m' => P.step body m = some m' := by
    intro m m₁ m₂ step₁ step₂
    exact Option.some.inj (step₁.symm.trans step₂)
  rcases reaches₁.total_of_right_unique unique reaches₂ with further | further
  · rcases further.cases_head with rfl | ⟨m', step, -⟩
    · rfl
    · rw [rests₁] at step
      cases step
  · rcases further.cases_head with rfl | ⟨m', step, -⟩
    · rfl
    · rw [rests₂] at step
      cases step

theorem reaches_of_perform {i : Instr} {m m' : Memory V S} (h : StandsAt body p (i :: code))
    (performed : P.perform i m = some m') : P.Reaches body ⟨p, m⟩ ⟨p + 1, m'⟩ := by
  refine .single ?_
  have at_p := h.getElem?_eq
  cases i <;> simp_all [step, perform]

theorem jump_eq {l : Nat} (m : Memory V S) (there : StandsAt body q (.label l :: code))
    (fresh : .label l ∉ body.take q) : jump body l m = some ⟨q, m⟩ := by
  obtain ⟨before, after, rfl, rfl⟩ := there
  have found : (before ++ .label l :: code ++ after).idxOf? (.label l) = some before.length := by
    rw [List.idxOf?_eq_some_iff]
    refine ⟨by simp, by simp, fun j lt eq => fresh ?_⟩
    rw [List.append_assoc, List.take_left]
    simp only [List.append_assoc, List.getElem_append_left lt] at eq
    exact eq ▸ List.getElem_mem lt
  rw [jump, found, Option.map_some]

theorem reaches_of_branch {l : Nat} {m : Memory V S} (here : StandsAt body p (.branch l :: code))
    (there : StandsAt body q (.label l :: code')) (fresh : .label l ∉ body.take q) :
    P.Reaches body ⟨p, m⟩ ⟨q, m⟩ := by
  refine .single ?_
  rw [step, here.getElem?_eq]
  exact jump_eq m there fresh

theorem reaches_of_branchFalse_true {l : Nat} {v : V} {m : Memory V S}
    (here : StandsAt body p (.branchFalse l :: code)) (holds : P.truth v m.state = true) :
    P.Reaches body ⟨p, m.push v⟩ ⟨p + 1, m⟩ := by
  refine .single ?_
  rw [step, here.getElem?_eq]
  simp [Memory.push, Memory.pop, holds]

theorem reaches_of_branchFalse_false {l : Nat} {v : V} {m : Memory V S}
    (here : StandsAt body p (.branchFalse l :: code)) (fails : P.truth v m.state = false)
    (there : StandsAt body q (.label l :: code')) (fresh : .label l ∉ body.take q) :
    P.Reaches body ⟨p, m.push v⟩ ⟨q, m⟩ := by
  refine .single ?_
  rw [step, here.getElem?_eq]
  simp [Memory.push, Memory.pop, fails, jump_eq m there fresh]

end Primitives

namespace Runs

variable {P : Primitives V S} {first : Nat}

theorem append {middle : Nat} {a b : List Instr} {m m₁ m' : Memory V S}
    (start : Runs P first a m m₁) (finish : Runs P middle b m₁ m') (le : first ≤ middle)
    (labels : ∀ l, middle ≤ l → .label l ∉ a) : Runs P first (a ++ b) m m' := by
  intro body p stands fresh
  have reached := start body p stands.left fresh
  have finished := finish body _ stands.right (stands.fresh_right fresh le labels)
  rw [List.length_append, ← Nat.add_assoc]
  exact reached.trans finished

theorem of_exec {code : List Instr} {m m' : Memory V S} (h : P.exec code m = some m') :
    Runs P first code m m' := by
  intro body p stands fresh
  clear fresh
  induction code generalizing p m with
  | nil =>
    cases h
    exact .refl
  | cons i code ih =>
    obtain ⟨m₁, performed, rest⟩ := Option.bind_eq_some_iff.1 h
    rw [List.length_cons, Nat.add_comm code.length, ← Nat.add_assoc]
    exact (Primitives.reaches_of_perform stands performed).trans (ih rest (p + 1) stands.tail)

/-- A condition with two branches: the label `first` stands before the second branch, and the label
behind it after both. -/
def branchCode (first : Nat) (test chosen other : List Instr) : List Instr :=
  test ++ .branchFalse first :: (chosen ++ .branch (first + 1) :: .label first ::
    (other ++ [.label (first + 1)]))

/-- A condition with a round that is repeated: the label `first` stands before the condition, and
the label behind it after the round. -/
def loopCode (first : Nat) (test round : List Instr) : List Instr :=
  .label first :: (test ++ .branchFalse (first + 1) :: (round ++
    [.pop, .branch first, .label (first + 1), .loadUnit]))

theorem add_length_branchCode (p : Nat) (test chosen other : List Instr) :
    p + (branchCode first test chosen other).length =
      p + test.length + 1 + chosen.length + 1 + 1 + other.length + 1 := by
  simp only [branchCode, List.length_append, List.length_cons, List.length_nil]
  omega

theorem add_length_loopCode (p : Nat) (test round : List Instr) :
    p + (loopCode first test round).length =
      p + 1 + test.length + 1 + round.length + 1 + 1 + 1 + 1 := by
  simp only [loopCode, List.length_append, List.length_cons, List.length_nil]
  omega

section Branches

variable {n₁ n₂ n₃ : Nat} {test chosen other : List Instr} {m m₁ m' : Memory V S} {v : V}

theorem ifTrue (tested : Runs P (first + 2) test m (m₁.push v))
    (holds : P.truth v m₁.state = true) (run : Runs P n₁ chosen m₁ m')
    (in_test : LabelsIn (first + 2) n₁ test) (in_chosen : LabelsIn n₁ n₂ chosen)
    (in_other : LabelsIn n₂ n₃ other) (le : first + 2 ≤ n₁) (le' : n₁ ≤ n₂) :
    Runs P first (branchCode first test chosen other) m m' := by
  intro body p stands fresh
  have at_branch := stands.right
  have at_chosen := at_branch.tail
  have at_skip := at_chosen.right
  have at_other := at_skip.tail.tail
  have not_chosen (l : Nat) (before : .label l ∉ body.take p) (not_in : .label l ∉ test) :
      .label l ∉ body.take (p + test.length + 1) :=
    at_branch.not_mem_tail (stands.not_mem_right before not_in) nofun
  have not_end : .label (first + 1) ∉ body.take (p + test.length + 1 + chosen.length + 1 + 1 +
      other.length) := by
    refine at_other.not_mem_right (at_skip.tail.not_mem_tail (at_skip.not_mem_tail
      (at_chosen.not_mem_right (not_chosen _ (fresh _ (Nat.le_succ first)) ?_) ?_) nofun) ?_) ?_
    · exact in_test.not_mem_of_lt (Nat.lt_succ_self _)
    · exact in_chosen.not_mem_of_lt (by omega)
    · simp
    · exact in_other.not_mem_of_lt (by omega)
  -- The condition, the first branch, the jump over the second one, and the label behind it.
  have reached := tested body p stands.left fun l le => fresh l (by omega)
  have entered := Primitives.reaches_of_branchFalse_true (m := m₁) at_branch holds
  have ran := run body _ at_chosen.left fun l le =>
    not_chosen l (fresh l (by omega)) (in_test.not_mem_of_le le)
  have skipped := Primitives.reaches_of_branch (P := P) (m := m') at_skip at_other.right not_end
  have ended := Primitives.reaches_of_perform (P := P) (m := m') at_other.right rfl
  rw [add_length_branchCode]
  exact reached.trans (entered.trans (ran.trans (skipped.trans ended)))

theorem ifFalse (tested : Runs P (first + 2) test m (m₁.push v))
    (fails : P.truth v m₁.state = false) (run : Runs P n₂ other m₁ m')
    (in_test : LabelsIn (first + 2) n₁ test) (in_chosen : LabelsIn n₁ n₂ chosen)
    (le : first + 2 ≤ n₁) (le' : n₁ ≤ n₂) :
    Runs P first (branchCode first test chosen other) m m' := by
  intro body p stands fresh
  have at_branch := stands.right
  have at_chosen := at_branch.tail
  have at_skip := at_chosen.right
  have at_other := at_skip.tail.tail
  have not_label (l : Nat) (before : .label l ∉ body.take p) (not_in : .label l ∉ test)
      (not_in' : .label l ∉ chosen) :
      .label l ∉ body.take (p + test.length + 1 + chosen.length + 1) :=
    at_skip.not_mem_tail (at_chosen.not_mem_right
      (at_branch.not_mem_tail (stands.not_mem_right before not_in) nofun) not_in') nofun
  have reached := tested body p stands.left fun l le => fresh l (by omega)
  have skipped := Primitives.reaches_of_branchFalse_false (m := m₁) at_branch fails at_skip.tail
    (not_label first (fresh _ (Nat.le_refl _)) (in_test.not_mem_of_lt (by omega))
      (in_chosen.not_mem_of_lt (by omega)))
  have entered := Primitives.reaches_of_perform (P := P) (m := m₁) at_skip.tail rfl
  have ran := run body _ at_other.left fun l le =>
    at_skip.tail.not_mem_tail (not_label l (fresh l (by omega)) (in_test.not_mem_of_le (by omega))
      (in_chosen.not_mem_of_le le)) (by simp; omega)
  have ended := Primitives.reaches_of_perform (P := P) (m := m') at_other.right rfl
  rw [add_length_branchCode]
  exact reached.trans (skipped.trans (entered.trans (ran.trans ended)))

end Branches

section Loops

variable {n₁ n₂ : Nat} {test round : List Instr} {m m₁ m₂ m' : Memory V S} {v w : V}

theorem loopEnd (tested : Runs P (first + 2) test m (m'.push v))
    (fails : P.truth v m'.state = false) (in_test : LabelsIn (first + 2) n₁ test)
    (in_round : LabelsIn n₁ n₂ round) (le : first + 2 ≤ n₁) :
    Runs P first (loopCode first test round) m (m'.push (P.constant .unit)) := by
  intro body p stands fresh
  have at_test := stands.tail
  have at_branch := at_test.right
  have at_round := at_branch.tail
  have at_pop := at_round.right
  have at_end := at_pop.tail.tail
  have not_end : .label (first + 1) ∉
      body.take (p + 1 + test.length + 1 + round.length + 1 + 1) := by
    refine at_pop.tail.not_mem_tail (at_pop.not_mem_tail (at_round.not_mem_right
      (at_branch.not_mem_tail (at_test.not_mem_right (stands.not_mem_tail
        (fresh _ (Nat.le_succ first)) ?_) ?_) nofun) ?_) nofun) nofun
    · simp
    · exact in_test.not_mem_of_lt (Nat.lt_succ_self _)
    · exact in_round.not_mem_of_lt (by omega)
  have started := Primitives.reaches_of_perform (P := P) (m := m) stands rfl
  have reached := tested body _ at_test.left fun l le =>
    stands.not_mem_tail (fresh l (by omega)) (by simp; omega)
  have skipped := Primitives.reaches_of_branchFalse_false (m := m') at_branch fails at_end not_end
  have ended := Primitives.reaches_of_perform (P := P) (m := m') at_end rfl
  have valued := Primitives.reaches_of_perform (P := P) (m := m') at_end.tail rfl
  rw [add_length_loopCode]
  exact started.trans (reached.trans (skipped.trans (ended.trans valued)))

theorem loopNext (tested : Runs P (first + 2) test m (m₁.push v))
    (holds : P.truth v m₁.state = true) (run : Runs P n₁ round m₁ (m₂.push w))
    (in_test : LabelsIn (first + 2) n₁ test) (le : first + 2 ≤ n₁)
    (again : Runs P first (loopCode first test round) m₂ m') :
    Runs P first (loopCode first test round) m m' := by
  intro body p stands fresh
  have at_test := stands.tail
  have at_branch := at_test.right
  have at_round := at_branch.tail
  have at_pop := at_round.right
  have not_test (l : Nat) (le : first + 2 ≤ l) : .label l ∉ body.take (p + 1) :=
    stands.not_mem_tail (fresh l (by omega)) (by simp; omega)
  have started := Primitives.reaches_of_perform (P := P) (m := m) stands rfl
  have reached := tested body _ at_test.left not_test
  have entered := Primitives.reaches_of_branchFalse_true (m := m₁) at_branch holds
  have ran := run body _ at_round.left fun l le =>
    at_branch.not_mem_tail (at_test.not_mem_right (not_test l (by omega))
      (in_test.not_mem_of_le le)) nofun
  have popped : P.Reaches body ⟨_, m₂.push w⟩ ⟨_, m₂⟩ := Primitives.reaches_of_perform at_pop rfl
  have back := Primitives.reaches_of_branch (P := P) (m := m₂) at_pop.tail stands
    (fresh first (Nat.le_refl _))
  exact started.trans (reached.trans (entered.trans (ran.trans (popped.trans (back.trans
    (again body p stands fresh))))))

end Loops

end Runs

end Mixin
