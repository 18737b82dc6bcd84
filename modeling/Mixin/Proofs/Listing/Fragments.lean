import Mathlib.Data.List.Basic
import Mixin.Listing.Lowering

/-!
# Stack heights of lowered code

How instructions change the height of the stack, and what lowering guarantees of the instructions
that it produces: the labels and slots are those that it took from the counters, every jump stays in
the instructions, and they can be given stack heights that agree along all jumps.

A jump may lead to a label whose height is only found further on, so `Flow` checks instructions
against heights that are assumed for the labels. A fragment decides the heights of its own labels
only, and this is what lets fragments be put together.
-/

namespace Mixin

/-! ### Instructions -/

namespace Instr

@[simp]
def takes : Instr → Nat
  | loadField _ | loadMember _ => 1
  | storeArg _ | storeLocal _ | storeSymbol _ | branchFalse _ | pop => 1
  | storeField _ | storeMember _ => 2
  | callVirtual _ arity | callConstructor _ arity => arity + 1
  | create _ arity => arity
  | loadNull | loadUnit | loadInt _ | loadFloat _ | loadBool _ | loadChar _ | loadString _ => 0
  | loadArg _ | loadLocal _ | loadInstance _ | loadSymbol _ | loadClosure _ => 0
  | branch _ | label _ | ret => 0

/-- How many values an instruction leaves on the stack in place of those that it takes. -/
@[simp]
def gives : Instr → Nat
  | loadNull | loadUnit | loadInt _ | loadFloat _ | loadBool _ | loadChar _ | loadString _ => 1
  | loadArg _ | loadLocal _ | loadInstance _ | loadSymbol _ | loadClosure _ => 1
  | loadField _ | loadMember _ | callVirtual _ _ | create _ _ => 1
  | storeArg _ | storeLocal _ | storeSymbol _ | storeField _ | storeMember _ => 0
  | callConstructor _ _ | branch _ | branchFalse _ | label _ | pop | ret => 0

@[simp]
def target? : Instr → Option Nat
  | branch target | branchFalse target => some target
  | _ => none

@[simp]
def fallsThrough : Instr → Bool
  | branch _ | ret => false
  | _ => true

@[simp]
def slot? : Instr → Option Nat
  | loadLocal slot | storeLocal slot => some slot
  | _ => none

@[simp]
def argument? : Instr → Option Nat
  | loadArg index | storeArg index => some index
  | _ => none

/-- Whether an instruction only works on the stack: it is no label, does not jump and does not
return. -/
@[simp]
def isPlain : Instr → Bool
  | branch _ | branchFalse _ | label _ | ret => false
  | _ => true

theorem target?_of_isPlain {i : Instr} (plain : i.isPlain) : i.target? = none := by
  cases i <;> simp_all [isPlain, target?]

theorem ne_label_of_isPlain {i : Instr} (plain : i.isPlain) (l : Nat) : i ≠ label l := by
  rintro rfl
  cases plain

end Instr

/-! ### Heights -/

/-- Started on a stack of height `h`, the instructions leave one of height `h'` behind them, if
every label stands at the height that is assumed for it. Behind a jump the height may be any. -/
inductive Flow (heights : Nat → Nat) : Nat → List Instr → Nat → Prop
  | nil {h} : Flow heights h [] h
  | plain {i code h h₁ h'} : i.isPlain → i.takes ≤ h → h₁ + i.takes = h + i.gives →
      Flow heights h₁ code h' → Flow heights h (i :: code) h'
  | label {l code h h'} : heights l = h → Flow heights h code h' →
      Flow heights h (.label l :: code) h'
  | branch {l code h h₁ h'} : heights l = h → Flow heights h₁ code h' →
      Flow heights h (.branch l :: code) h'
  | branchFalse {l code h h'} : heights l = h → Flow heights h code h' →
      Flow heights (h + 1) (.branchFalse l :: code) h'

theorem Flow.append {heights : Nat → Nat} {h h₁ h' : Nat} {a b : List Instr}
    (first : Flow heights h a h₁) (second : Flow heights h₁ b h') :
    Flow heights h (a ++ b) h' := by
  induction first with
  | nil => exact second
  | plain plain enough net _ ih => exact .plain plain enough net (ih second)
  | label here _ ih => exact .label here (ih second)
  | branch there _ ih => exact .branch there (ih second)
  | branchFalse there _ ih => exact .branchFalse there (ih second)

/-- The heights before the instructions of a list, and behind the last one, agree with those assumed
for the labels. -/
structure Steps (heights : Nat → Nat) (code : List Instr) (height : Nat → Nat) : Prop where
  enough : ∀ i instr, code[i]? = some instr → instr.takes ≤ height i
  next : ∀ i instr, code[i]? = some instr → instr.fallsThrough →
    height (i + 1) + instr.takes = height i + instr.gives
  jump : ∀ i instr l, code[i]? = some instr → instr.target? = some l →
    heights l + instr.takes = height i + instr.gives
  label : ∀ i l, code[i]? = some (.label l) → height i = heights l

theorem Steps.cons {heights : Nat → Nat} {code : List Instr} {height : Nat → Nat} {i : Instr}
    {h : Nat} (rest : Steps heights code height) (enough : i.takes ≤ h)
    (next : i.fallsThrough → height 0 + i.takes = h + i.gives)
    (jump : ∀ l, i.target? = some l → heights l + i.takes = h + i.gives)
    (label : ∀ l, i = .label l → h = heights l) :
    Steps heights (i :: code) (fun n => n.casesOn h height) where
  enough n instr at_n := by
    cases n with
    | zero => cases at_n; exact enough
    | succ n => exact rest.enough n instr at_n
  next n instr at_n falls := by
    cases n with
    | zero => cases at_n; exact next falls
    | succ n => exact rest.next n instr at_n falls
  jump n instr l at_n target := by
    cases n with
    | zero => cases at_n; exact jump l target
    | succ n => exact rest.jump n instr l at_n target
  label n l at_n := by
    cases n with
    | zero => cases at_n; exact label l rfl
    | succ n => exact rest.label n l at_n

theorem Flow.exists_steps {heights : Nat → Nat} {h h' : Nat} {code : List Instr}
    (flow : Flow heights h code h') :
    ∃ height : Nat → Nat, height 0 = h ∧ height code.length = h' ∧ Steps heights code height := by
  induction flow with
  | @nil h =>
    exact ⟨fun _ => h, rfl, rfl, by simp, by simp, by simp, by simp⟩
  | @plain i code h h₁ h' plain enough net _ ih =>
    obtain ⟨height, start, finish, steps⟩ := ih
    refine ⟨_, rfl, finish, steps.cons enough ?_ ?_ ?_⟩
    · exact fun _ => by rw [start, net]
    · intro l target
      rw [Instr.target?_of_isPlain plain] at target
      cases target
    · exact fun l eq => absurd eq (Instr.ne_label_of_isPlain plain l)
  | @label l code h h' here _ ih =>
    obtain ⟨height, start, finish, steps⟩ := ih
    refine ⟨_, rfl, finish, steps.cons (Nat.zero_le _) ?_ ?_ ?_⟩
    · exact fun _ => start
    · exact fun l' target => nomatch target
    · rintro l' ⟨⟩
      exact here.symm
  | @branch l code h h₁ h' there _ ih =>
    -- Nothing falls through here, so the height behind the jump need not agree with the one before.
    obtain ⟨height, start, finish, steps⟩ := ih
    refine ⟨_, rfl, finish, steps.cons (Nat.zero_le _) ?_ ?_ ?_⟩
    · exact fun falls => nomatch falls
    · rintro l' ⟨⟩
      exact there
    · exact fun l' eq => nomatch eq
  | @branchFalse l code h h' there _ ih =>
    obtain ⟨height, start, finish, steps⟩ := ih
    refine ⟨_, rfl, finish, steps.cons (Nat.le_add_left 1 h) ?_ ?_ ?_⟩
    · exact fun _ => by rw [start]; rfl
    · rintro l' ⟨⟩
      rw [there]
      rfl
    · exact fun l' eq => nomatch eq

/-! ### Which labels decide -/

/-- The heights of the labels from `first` to before `last` can be chosen so that a property of the
heights holds, whatever those of the other labels are. -/
def Decided (first last : Nat) (property : (Nat → Nat) → Prop) : Prop :=
  ∃ chosen : Nat → Nat, ∀ heights : Nat → Nat,
    (∀ l, first ≤ l → l < last → heights l = chosen l) → property heights

namespace Decided

theorem always {n : Nat} {property : (Nat → Nat) → Prop} (h : ∀ heights, property heights) :
    Decided n n property :=
  ⟨id, fun heights _ => h heights⟩

theorem value (l h : Nat) : Decided l (l + 1) fun heights => heights l = h :=
  ⟨fun _ => h, fun _ agree => agree l (Nat.le_refl l) (Nat.lt_succ_self l)⟩

theorem imp {first last : Nat} {p q : (Nat → Nat) → Prop} (h : Decided first last p)
    (imp : ∀ heights, p heights → q heights) : Decided first last q := by
  obtain ⟨chosen, holds⟩ := h
  exact ⟨chosen, fun heights agree => imp heights (holds heights agree)⟩

theorem and {first middle last : Nat} {p q : (Nat → Nat) → Prop} (hp : Decided first middle p)
    (hq : Decided middle last q) (le : first ≤ middle) (le' : middle ≤ last) :
    Decided first last fun heights => p heights ∧ q heights := by
  obtain ⟨chosen, holds⟩ := hp
  obtain ⟨chosen', holds'⟩ := hq
  refine ⟨fun l => if l < middle then chosen l else chosen' l, fun heights agree => ⟨?_, ?_⟩⟩
  · refine holds heights fun l from_first below => ?_
    exact (agree l from_first (Nat.lt_of_lt_of_le below le')).trans (if_pos below)
  · refine holds' heights fun l from_middle below => ?_
    exact (agree l (Nat.le_trans le from_middle) below).trans (if_neg (Nat.not_lt.2 from_middle))

theorem exists_heights {first last : Nat} {p : (Nat → Nat) → Prop} (h : Decided first last p) :
    ∃ heights, p heights := by
  obtain ⟨chosen, holds⟩ := h
  exact ⟨chosen, holds chosen fun _ _ _ => rfl⟩

end Decided

/-! ### Branches and loops -/

abbrev Counters.takeTwo (k : Counters) : Counters := { k with labels := k.labels + 2 }

namespace Lowered

def branchOn (first : Nat) (test consequent alternative : Lowered) : Lowered :=
  ((((test.andThen [.branchFalse first]).append consequent).andThen
    [.branch (first + 1), .label first]).append alternative).andThen [.label (first + 1)]

def repeatWhile (first : Nat) (test body : Lowered) : Lowered :=
  (((test.behind [.label first]).andThen [.branchFalse (first + 1)]).append body).andThen
    [.pop, .branch first, .label (first + 1), .loadUnit]

theorem code_branchOn (first : Nat) (test consequent alternative : Lowered) :
    (branchOn first test consequent alternative).code =
      test.code ++ .branchFalse first :: (consequent.code ++ .branch (first + 1) ::
        .label first :: (alternative.code ++ [.label (first + 1)])) := by
  simp [branchOn, andThen, append]

theorem code_repeatWhile (first : Nat) (test body : Lowered) :
    (repeatWhile first test body).code =
      .label first :: (test.code ++ .branchFalse (first + 1) :: (body.code ++
        [.pop, .branch first, .label (first + 1), .loadUnit])) := by
  simp [repeatWhile, andThen, append, behind]

end Lowered

theorem lower_ifThen (f : Frame) (scope : Scope) (condition consequent : Expr) (span : Span)
    (k : Counters) :
    lower f scope (.ifThen condition consequent span) k =
      let test := lower f scope condition k.takeTwo
      let chosen := lower f scope consequent test.next
      .branchOn k.labels test chosen (.emit [.loadUnit] chosen.next) := by
  rw [lower]
  simp [Lowered.branchOn, Lowered.andThen, Lowered.append, Lowered.emit]

/-! ### Fragments -/

/-- What an instruction uses lies in a frame, and below the counters behind it. -/
structure Instr.Fits (f : Frame) (first : Nat) (next : Counters) (i : Instr) : Prop where
  ne_ret : i ≠ .ret
  target : ∀ l, i.target? = some l → first ≤ l ∧ l < next.labels
  slot : ∀ slot, i.slot? = some slot → slot < next.locals
  argument : ∀ n, i.argument? = some n → n ≤ f.parameters.length

theorem Instr.Fits.mono {f : Frame} {first first' : Nat} {next next' : Counters} {i : Instr}
    (fits : i.Fits f first next) (first_le : first' ≤ first)
    (labels_le : next.labels ≤ next'.labels) (locals_le : next.locals ≤ next'.locals) :
    i.Fits f first' next' where
  ne_ret := fits.ne_ret
  target l h := by
    have := fits.target l h
    omega
  slot s h := Nat.lt_of_lt_of_le (fits.slot s h) locals_le
  argument := fits.argument

theorem Instr.fits_branch {f : Frame} {first : Nat} {next : Counters} {l : Nat}
    (first_le : first ≤ l) (lt : l < next.labels) : (Instr.branch l).Fits f first next :=
  ⟨nofun, fun _ eq => by cases eq; exact ⟨first_le, lt⟩, nofun, nofun⟩

theorem Instr.fits_branchFalse {f : Frame} {first : Nat} {next : Counters} {l : Nat}
    (first_le : first ≤ l) (lt : l < next.labels) : (Instr.branchFalse l).Fits f first next :=
  ⟨nofun, fun _ eq => by cases eq; exact ⟨first_le, lt⟩, nofun, nofun⟩

theorem Instr.fits_label {f : Frame} {first : Nat} {next : Counters} {l : Nat} :
    (Instr.label l).Fits f first next :=
  ⟨nofun, nofun, nofun, nofun⟩

/-- Instructions that were produced with the counters `k`, and that turn a stack of height `p` into
one of height `q`. Each label that was taken from the counters stands in them once. -/
structure Fragment (f : Frame) (k : Counters) (a : Lowered) (p q : Nat) : Prop where
  locals_le : k.locals ≤ a.next.locals
  labels_le : k.labels ≤ a.next.labels
  count_label : ∀ l, a.code.count (.label l) = if k.labels ≤ l ∧ l < a.next.labels then 1 else 0
  fits : ∀ i ∈ a.code, i.Fits f k.labels a.next
  flow : Decided k.labels a.next.labels fun heights => Flow heights p a.code q

/-- The height behind plain instructions, if they use only what there is. -/
@[simp]
def heightAfter (f : Frame) (slots : Nat) : List Instr → Nat → Option Nat
  | [], h => some h
  | i :: code, h =>
    if i.isPlain ∧ i.takes ≤ h ∧ (∀ slot ∈ i.slot?, slot < slots) ∧
        (∀ n ∈ i.argument?, n ≤ f.parameters.length) then
      heightAfter f slots code (h - i.takes + i.gives)
    else none

namespace Fragment

variable {f : Frame} {k : Counters}

theorem mem_label {a : Lowered} {p q l : Nat} (h : Fragment f k a p q) :
    .label l ∈ a.code ↔ k.labels ≤ l ∧ l < a.next.labels := by
  rw [← List.count_pos_iff, h.count_label]
  split <;> simp_all

theorem emit {code : List Instr} {p q : Nat} (h : heightAfter f k.locals code p = some q) :
    Fragment f k (.emit code k) p q := by
  induction code generalizing p with
  | nil =>
    cases h
    refine ⟨Nat.le_refl _, Nat.le_refl _, fun l => ?_, by simp [Lowered.emit], ?_⟩
    · rw [if_neg fun between => Nat.not_lt.2 between.1 between.2]
      rfl
    · exact .always fun _ => .nil
  | cons i code ih =>
    rw [heightAfter, Option.ite_none_right_eq_some] at h
    obtain ⟨⟨plain, enough, slots, arguments⟩, h⟩ := h
    have rest := ih h
    refine ⟨rest.locals_le, rest.labels_le, fun l => ?_, ?_, rest.flow.imp fun heights flow => ?_⟩
    · have same := List.count_cons_of_ne (l := code) (Instr.ne_label_of_isPlain plain l)
      exact same.trans (rest.count_label l)
    · intro i' mem
      cases mem with
      | head =>
        refine ⟨?_, fun l target => ?_, slots, arguments⟩
        · rintro rfl
          cases plain
        · rw [Instr.target?_of_isPlain plain] at target
          cases target
      | tail _ mem => exact rest.fits i' mem
    · exact .plain plain enough (by omega) flow

theorem append {a b : Lowered} {p q r : Nat} (first : Fragment f k a p q)
    (second : Fragment f a.next b q r) : Fragment f k (a.append b) p r where
  locals_le := Nat.le_trans first.locals_le second.locals_le
  labels_le := Nat.le_trans first.labels_le second.labels_le
  count_label l := by
    have := first.labels_le
    have := second.labels_le
    have counts : (a.append b).code.count (.label l) =
        a.code.count (.label l) + b.code.count (.label l) := List.count_append
    rw [counts, first.count_label, second.count_label]
    change _ = if k.labels ≤ l ∧ l < b.next.labels then 1 else 0
    split_ifs <;> omega
  fits i mem := by
    cases List.mem_append.1 mem with
    | inl mem =>
      exact (first.fits i mem).mono (Nat.le_refl _) second.labels_le second.locals_le
    | inr mem => exact (second.fits i mem).mono first.labels_le (Nat.le_refl _) (Nat.le_refl _)
  flow := (first.flow.and second.flow first.labels_le second.labels_le).imp
    fun _ flows => flows.1.append flows.2

theorem andThen {a : Lowered} {code : List Instr} {p q r : Nat} (first : Fragment f k a p q)
    (second : heightAfter f a.next.locals code q = some r) : Fragment f k (a.andThen code) p r := by
  have joined := first.append (emit second)
  simpa [Lowered.append, Lowered.emit, Lowered.andThen] using joined

theorem behind {a : Lowered} {code : List Instr} {p q r : Nat}
    (first : heightAfter f k.locals code p = some q) (second : Fragment f k a q r) :
    Fragment f k (a.behind code) p r := by
  have joined := (emit first).append second
  simpa [Lowered.append, Lowered.emit, Lowered.behind] using joined

theorem widen {a b : Lowered} {p q : Nat} (h : Fragment f k a p q) (code : b.code = a.code)
    (labels : b.next.labels = a.next.labels) (locals : a.next.locals ≤ b.next.locals) :
    Fragment f k b p q where
  locals_le := Nat.le_trans h.locals_le locals
  labels_le := labels ▸ h.labels_le
  count_label l := by
    rw [code, labels]
    exact h.count_label l
  fits i mem := (h.fits i (code ▸ mem)).mono (Nat.le_refl _) (Nat.le_of_eq labels.symm) locals
  flow := by
    rw [code, labels]
    exact h.flow

theorem branchOn {test consequent alternative : Lowered} {p : Nat}
    (condition : Fragment f k.takeTwo test p (p + 1))
    (chosen : Fragment f test.next consequent p (p + 1))
    (other : Fragment f consequent.next alternative p (p + 1)) :
    Fragment f k (.branchOn k.labels test consequent alternative) p (p + 1) := by
  have le₁ : k.labels + 2 ≤ test.next.labels := condition.labels_le
  have le₂ := chosen.labels_le
  have le₃ := other.labels_le
  have locals₂ := chosen.locals_le
  have locals₃ := other.locals_le
  have below : k.labels + 1 < alternative.next.labels := by omega
  refine
    { locals_le := Nat.le_trans condition.locals_le (Nat.le_trans locals₂ locals₃)
      labels_le := Nat.le_of_lt (Nat.lt_of_succ_lt below)
      count_label := fun l => ?count
      fits := fun i mem => ?fits
      flow := ?flow }
  case count =>
    simp only [Lowered.code_branchOn, List.count_append, List.count_cons, List.count_nil,
      condition.count_label, chosen.count_label, other.count_label]
    change _ = if k.labels ≤ l ∧ l < alternative.next.labels then 1 else 0
    grind
  case fits =>
    simp only [Lowered.code_branchOn, List.mem_append, List.mem_cons, List.not_mem_nil,
      or_false] at mem
    rcases mem with mem | rfl | mem | rfl | rfl | mem | rfl
    · exact (condition.fits i mem).mono (Nat.le_add_right _ 2) (Nat.le_trans le₂ le₃)
        (Nat.le_trans locals₂ locals₃)
    · exact Instr.fits_branchFalse (Nat.le_refl _) (Nat.lt_of_succ_lt below)
    · exact (chosen.fits i mem).mono (by omega) le₃ locals₃
    · exact Instr.fits_branch (Nat.le_succ _) below
    · exact Instr.fits_label
    · exact (other.fits i mem).mono (by omega) (Nat.le_refl _) (Nat.le_refl _)
    · exact Instr.fits_label
  case flow =>
    have labels := (Decided.value k.labels p).and (Decided.value (k.labels + 1) (p + 1))
      (Nat.le_succ _) (Nat.le_succ _)
    have parts := (condition.flow.and chosen.flow le₁ le₂).and other.flow (Nat.le_trans le₁ le₂) le₃
    refine (labels.and parts (Nat.le_add_right _ 2) (by omega)).imp ?_
    -- Both branches start where the condition has been taken away, and both leave a value.
    rintro heights ⟨⟨otherwise, finish⟩, ⟨flow, flow'⟩, flow''⟩
    have skipped := Flow.branch finish (.label otherwise (flow''.append (.label finish .nil)))
    rw [Lowered.code_branchOn]
    exact flow.append (.branchFalse otherwise (flow'.append skipped))

theorem repeatWhile {test body : Lowered} {p : Nat}
    (condition : Fragment f k.takeTwo test p (p + 1))
    (repeated : Fragment f test.next body p (p + 1)) :
    Fragment f k (.repeatWhile k.labels test body) p (p + 1) := by
  have le₁ : k.labels + 2 ≤ test.next.labels := condition.labels_le
  have le₂ := repeated.labels_le
  have locals₂ := repeated.locals_le
  have below : k.labels + 1 < body.next.labels := by omega
  refine
    { locals_le := Nat.le_trans condition.locals_le locals₂
      labels_le := Nat.le_of_lt (Nat.lt_of_succ_lt below)
      count_label := fun l => ?count
      fits := fun i mem => ?fits
      flow := ?flow }
  case count =>
    simp only [Lowered.code_repeatWhile, List.count_append, List.count_cons, List.count_nil,
      condition.count_label, repeated.count_label]
    change _ = if k.labels ≤ l ∧ l < body.next.labels then 1 else 0
    grind
  case fits =>
    simp only [Lowered.code_repeatWhile, List.mem_append, List.mem_cons, List.not_mem_nil,
      or_false] at mem
    rcases mem with rfl | mem | rfl | mem | rfl | rfl | rfl | rfl
    · exact Instr.fits_label
    · exact (condition.fits i mem).mono (Nat.le_add_right _ 2) le₂ locals₂
    · exact Instr.fits_branchFalse (Nat.le_succ _) below
    · exact (repeated.fits i mem).mono (by omega) (Nat.le_refl _) (Nat.le_refl _)
    · exact ⟨nofun, nofun, nofun, nofun⟩
    · exact Instr.fits_branch (Nat.le_refl _) (Nat.lt_of_succ_lt below)
    · exact Instr.fits_label
    · exact ⟨nofun, nofun, nofun, nofun⟩
  case flow =>
    have labels := (Decided.value k.labels p).and (Decided.value (k.labels + 1) p)
      (Nat.le_succ _) (Nat.le_succ _)
    have parts := condition.flow.and repeated.flow le₁ le₂
    refine (labels.and parts (Nat.le_add_right _ 2) (by omega)).imp ?_
    -- A round leaves the stack as high as it was, so that the next one can start.
    rintro heights ⟨⟨again, finish⟩, flow, flow'⟩
    have unit : Flow heights p [.loadUnit] (p + 1) := .plain rfl (Nat.zero_le _) rfl .nil
    have closing : Flow heights (p + 1)
        [.pop, .branch k.labels, .label (k.labels + 1), .loadUnit] (p + 1) :=
      .plain rfl (Nat.le_add_left 1 p) rfl (.branch again (.label finish unit))
    rw [Lowered.code_repeatWhile]
    exact .label again (flow.append (.branchFalse finish (flow'.append closing)))

end Fragment

/-! ### Lowering -/

/-- The slots of a scope have been given out. -/
def Scope.Below (scope : Scope) (slots : Nat) : Prop := ∀ b ∈ scope, b.2 < slots

theorem Scope.Below.mono {scope : Scope} {n m : Nat} (below : scope.Below n) (le : n ≤ m) :
    scope.Below m :=
  fun b mem => Nat.lt_of_lt_of_le (below b mem) le

theorem Scope.Below.lookup {scope : Scope} {n slot : Nat} {name : String} (below : scope.Below n)
    (h : scope.lookup name = some slot) : slot < n := by
  obtain ⟨l₁, l₂, rfl, -⟩ := List.lookup_eq_some_iff.1 h
  exact below (name, slot) (by simp)

theorem Frame.argument?_le {f : Frame} {name : String} {n : Nat} (h : f.argument? name = some n) :
    n ≤ f.parameters.length := by
  obtain ⟨i, found, rfl⟩ := Option.map_eq_some_iff.1 h
  exact (List.idxOf?_eq_some_iff.1 found).1

theorem heightAfter_load (f : Frame) {scope : Scope} {slots : Nat} (below : scope.Below slots)
    (name : String) (p : Nat) : heightAfter f slots (f.load scope name) p = some (p + 1) := by
  rw [Frame.load]
  split
  · next slot _ found => simp [below.lookup found]
  · next index _ found => simp [Frame.argument?_le found]
  · split_ifs <;> simp

/-- What stands before the value that is stored under a name is taken by what stands behind it. -/
theorem heightAfter_store (f : Frame) {scope : Scope} {slots : Nat} (below : scope.Below slots)
    (name : String) (p : Nat) :
    ∃ q, heightAfter f slots (f.store scope name).1 p = some q ∧
      heightAfter f slots ((f.store scope name).2 ++ [.loadUnit]) (q + 1) = some (p + 1) := by
  rw [Frame.store]
  split
  · next slot _ found => exact ⟨p, by simp [below.lookup found]⟩
  · next index _ found => exact ⟨p, by simp [Frame.argument?_le found]⟩
  · split_ifs
    · exact ⟨p + 1, by simp⟩
    · exact ⟨p, by simp⟩

theorem heightAfter_mono {f : Frame} {slots slots' : Nat} {code : List Instr} {p q : Nat}
    (h : heightAfter f slots code p = some q) (le : slots ≤ slots') :
    heightAfter f slots' code p = some q := by
  induction code generalizing p with
  | nil => exact h
  | cons i code ih =>
    rw [heightAfter, Option.ite_none_right_eq_some] at h ⊢
    obtain ⟨⟨plain, enough, slot, argument⟩, h⟩ := h
    exact ⟨⟨plain, enough, fun s mem => Nat.lt_of_lt_of_le (slot s mem) le, argument⟩, ih h⟩

theorem heightAfter_callVirtual (f : Frame) (slots : Nat) (name : String) (arity p : Nat) :
    heightAfter f slots [.callVirtual name arity] (p + 1 + arity) = some (p + 1) := by
  simp
  omega

/-- Lowered expressions and statements leave one value on the stack, and lists of expressions one
for each. -/
theorem fragment_lower_all (f : Frame) :
    (∀ scope e k, scope.Below k.locals → ∀ p, Fragment f k (lower f scope e k) p (p + 1)) ∧
    (∀ scope ss k, scope.Below k.locals →
      ∀ p, Fragment f k (lowerStatements f scope ss k) p (p + 1)) ∧
    (∀ scope es k, scope.Below k.locals →
      ∀ p, Fragment f k (lowerList f scope es k) p (p + es.length)) := by
  refine lower.mutual_induct f _ _ _ ?int ?float ?bool ?char ?string ?null ?unit ?this ?reference
    ?select ?callMember ?callName ?callValue ?create ?unary ?binary ?assignName ?assignMember
    ?assignOther ?ifThen ?ifElse ?loop ?closure ?block ?nil ?cons ?empty ?last ?eval ?define
  case int | float | bool | char | string =>
    intro scope value span k below p
    rw [lower]
    exact .emit (by simp)
  case null | unit | this =>
    intro scope span k below p
    rw [lower]
    exact .emit (by simp)
  case reference =>
    intro scope name k below p
    rw [lower]
    exact .emit (heightAfter_load f below name.text p)
  case select =>
    intro scope receiver name span k ih below p
    rw [lower]
    exact (ih below p).andThen (by simp)
  case callMember =>
    intro scope receiver name span arguments span' k target ih ih' below p
    rw [lower]
    have called := ih below p
    exact (called.append (ih' (below.mono called.locals_le) _)).andThen
      (heightAfter_callVirtual ..)
  case callName =>
    intro scope name arguments span k start method chosen ih below p
    have loaded : heightAfter f k.locals start p = some (p + 1) := by
      split_ifs at chosen with own
      · cases chosen; simp
      · cases chosen; exact heightAfter_load f below name.text p
    rw [lower, chosen]
    exact (Fragment.behind loaded (ih below _)).andThen (heightAfter_callVirtual ..)
  case callValue =>
    intro scope callee arguments span k member name target ih ih' below p
    rw [lower]
    · have called := ih below p
      exact (called.append (ih' (below.mono called.locals_le) _)).andThen
        (heightAfter_callVirtual ..)
    · exact member
    · exact name
  case create =>
    intro scope type arguments span k ih below p
    rw [lower]
    exact (ih below p).andThen (by simp)
  case unary =>
    intro scope operator operand span k ih below p
    rw [lower]
    exact (ih below p).andThen (by simp)
  case binary =>
    intro scope operator lhs rhs span k left ih ih' below p
    rw [lower]
    have first := ih below p
    exact (first.append (ih' (below.mono first.locals_le) _)).andThen (by simp)
  case assignName =>
    intro scope name value span k before after stored ih below p
    obtain ⟨q, start, finish⟩ := heightAfter_store f below name.text p
    rw [stored] at start finish
    rw [lower, stored]
    have valued := Fragment.behind start (ih below q)
    exact valued.andThen (heightAfter_mono finish valued.locals_le)
  case assignMember =>
    intro scope receiver name span value span' k target ih ih' below p
    rw [lower]
    have first := ih below p
    exact (first.append (ih' (below.mono first.locals_le) _)).andThen (by simp)
  case assignOther =>
    intro scope target value span k name member updated ih ih' below p
    rw [lower]
    · have first := ih below p
      exact (first.append (ih' (below.mono first.locals_le) _)).andThen (by simp)
    · exact name
    · exact member
  case ifThen =>
    intro scope condition consequent span k test ih ih' below p
    rw [lower_ifThen]
    have tested := ih below p
    exact tested.branchOn (ih' (below.mono tested.locals_le) p) (.emit (by simp))
  case ifElse =>
    intro scope condition consequent alternative span k test chosen ih ih' ih'' below p
    rw [lower]
    have tested := ih below p
    have first := ih' (below.mono tested.locals_le) p
    exact tested.branchOn first
      (ih'' (below.mono (Nat.le_trans tested.locals_le first.locals_le)) p)
  case loop =>
    intro scope condition body span k test ih ih' below p
    rw [lower]
    have tested := ih below p
    exact tested.repeatWhile (ih' (below.mono tested.locals_le) p)
  case closure =>
    intro scope parameters body span k below p
    rw [lower]
    have created : Fragment f k
        (.emit [.loadClosure k.closures, .create (f.functionType parameters.length) 1] k) p
        (p + 1) := .emit (by simp)
    exact created.widen rfl rfl (Nat.le_refl _)
  case block =>
    intro scope statements span k ih below p
    rw [lower]
    exact ih below p
  case nil =>
    intro scope k below p
    rw [lowerList]
    exact .emit rfl
  case cons =>
    intro scope e rest k first ih ih' below p
    rw [lowerList]
    have head := ih below p
    have joined := head.append (ih' (below.mono head.locals_le) (p + 1))
    rwa [Nat.add_right_comm] at joined
  case empty =>
    intro scope k below p
    rw [lowerStatements]
    exact .emit (by simp)
  case last =>
    intro scope e k ih below p
    rw [lowerStatements]
    exact ih below p
  case eval =>
    intro scope e rest k more first ih ih' below p
    rw [lowerStatements]
    · have popped : heightAfter f first.next.locals [.pop] (p + 1) = some p := by simp
      have head := (ih below p).andThen popped
      exact head.append (ih' (below.mono head.locals_le) p)
    · exact more
  case define =>
    intro scope binding name type initializer span rest k first slot ih ih' below p
    rw [lowerStatements]
    have valued : Fragment f k { first with next := { first.next with locals := slot + 1 } } p
        (p + 1) := (ih below p).widen rfl rfl (Nat.le_succ _)
    have stored : heightAfter f (slot + 1) [.storeLocal slot] (p + 1) = some p := by simp
    have below' : Scope.Below ((name.text, slot) :: scope) (slot + 1) := by
      intro b mem
      cases mem with
      | head => exact Nat.lt_succ_self slot
      | tail _ mem => exact (below.mono valued.locals_le) b mem
    exact (valued.andThen stored).append (ih' below' p)

theorem fragment_lower (f : Frame) {scope : Scope} (e : Expr) {k : Counters}
    (below : scope.Below k.locals) (p : Nat) : Fragment f k (lower f scope e k) p (p + 1) :=
  (fragment_lower_all f).1 scope e k below p

theorem fragment_lowerStatements (f : Frame) {scope : Scope} (ss : List Stmt) {k : Counters}
    (below : scope.Below k.locals) (p : Nat) :
    Fragment f k (lowerStatements f scope ss k) p (p + 1) :=
  (fragment_lower_all f).2.1 scope ss k below p

theorem fragment_lowerList (f : Frame) {scope : Scope} (es : List Expr) {k : Counters}
    (below : scope.Below k.locals) (p : Nat) :
    Fragment f k (lowerList f scope es k) p (p + es.length) :=
  (fragment_lower_all f).2.2 scope es k below p

end Mixin
