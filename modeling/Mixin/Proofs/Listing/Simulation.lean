import Mathlib.Data.List.Forall2
import Mixin.Proofs.Listing.Evaluation
import Mixin.Proofs.Listing.Fragments

/-!
# Lowering keeps the meaning

If evaluation gives an expression a value, then the machine, run on the lowered expression, puts
that value on the stack and leaves everything else that evaluation can see as evaluation leaves
it.
-/

namespace Mixin

variable {V S : Type}

/-! ### Bindings -/

theorem map_fst_rebind (name : String) (v : V) (bs : List (String × V)) :
    (rebind name v bs).map Prod.fst = bs.map Prod.fst := by
  induction bs with
  | nil => rfl
  | cons b bs ih =>
    rw [rebind]
    split
    · rfl
    · rw [List.map_cons, ih, List.map_cons]

theorem exists_idxOf?_of_lookup {name : String} {v : V} {bs : List (String × V)}
    (h : bs.lookup name = some v) :
    ∃ i, (bs.map Prod.fst).idxOf? name = some i ∧ (bs.map Prod.snd)[i]? = some v ∧
      ∀ w, (rebind name w bs).map Prod.snd = (bs.map Prod.snd).set i w := by
  induction bs with
  | nil => cases h
  | cons b bs ih =>
    obtain ⟨x, u⟩ := b
    rw [List.lookup_cons] at h
    by_cases eq : name = x
    · subst eq
      rw [beq_self_eq_true] at h
      cases h
      exact ⟨0, by simp [List.idxOf?_cons], rfl, fun w => by simp [rebind]⟩
    · rw [beq_false_of_ne eq] at h
      obtain ⟨i, found, valued, rebound⟩ := ih h
      refine ⟨i + 1, ?_, valued, fun w => ?_⟩
      · simp [List.idxOf?_cons, Ne.symm eq, found]
      · simp [rebind, eq, rebound]

theorem idxOf?_eq_none_of_lookup {name : String} {bs : List (String × V)}
    (h : bs.lookup name = none) : (bs.map Prod.fst).idxOf? name = none := by
  rw [List.idxOf?_eq_none_iff, List.mem_map]
  rintro ⟨b, mem, rfl⟩
  exact absurd (List.lookup_eq_none_iff.1 h b mem) (by simp)

/-! ### Locals in slots -/

/-- The slots of a scope are different and have been given out. -/
structure Scope.Allocated (scope : Scope) (slots : Nat) : Prop where
  nodup : (scope.map Prod.snd).Nodup
  below : scope.Below slots

theorem Scope.Allocated.not_mem {scope : Scope} {n : Nat} (h : scope.Allocated n) :
    n ∉ scope.map Prod.snd := by
  intro mem
  obtain ⟨b, mem, eq⟩ := List.mem_map.1 mem
  exact Nat.lt_irrefl _ (eq ▸ h.below b mem)

theorem Scope.Allocated.mono {scope : Scope} {n m : Nat} (h : scope.Allocated n) (le : n ≤ m) :
    scope.Allocated m :=
  ⟨h.nodup, h.below.mono le⟩

/-- A binding of a local by its slot and one by its value agree. -/
def Holds (slots : List V) (b : String × Nat) (d : String × V) : Prop :=
  b.1 = d.1 ∧ slots[b.2]? = some d.2

/-- The slots of a scope hold the values of the locals, and the parameters are those of the
frame. -/
structure Stored (f : Frame) (scope : Scope) (c : Config V S) (slots : List V) : Prop where
  parameters : c.parameters.map Prod.fst = f.parameters
  locals : List.Forall₂ (Holds slots) scope c.locals

section Holds

variable {slots : List V} {scope : Scope} {locals : List (String × V)}
  (h : List.Forall₂ (Holds slots) scope locals)
include h

theorem lookup_of_holds {name : String} {v : V} (found : locals.lookup name = some v) :
    ∃ slot, scope.lookup name = some slot ∧ slots[slot]? = some v := by
  induction h with
  | nil => cases found
  | @cons b d scope locals holds _ ih =>
    obtain ⟨x, slot⟩ := b
    obtain ⟨y, w⟩ := d
    obtain ⟨rfl, held⟩ := holds
    rw [List.lookup_cons] at found ⊢
    by_cases eq : name = x
    · subst eq
      rw [beq_self_eq_true] at found ⊢
      cases found
      exact ⟨slot, rfl, held⟩
    · rw [beq_false_of_ne eq] at found ⊢
      exact ih found

theorem lookup_eq_none_of_holds {name : String} (unbound : locals.lookup name = none) :
    scope.lookup name = none := by
  induction h with
  | nil => rfl
  | @cons b d scope locals holds _ ih =>
    obtain ⟨x, slot⟩ := b
    obtain ⟨y, w⟩ := d
    obtain ⟨rfl, -⟩ := holds
    rw [List.lookup_cons] at unbound ⊢
    by_cases eq : name = x
    · subst eq
      rw [beq_self_eq_true] at unbound
      cases unbound
    · rw [beq_false_of_ne eq] at unbound ⊢
      exact ih unbound

theorem holds_set {slot : Nat} (unused : slot ∉ scope.map Prod.snd) (v : V) :
    List.Forall₂ (Holds (slots.set slot v)) scope locals := by
  induction h with
  | nil => exact .nil
  | @cons b d scope locals holds _ ih =>
    rw [List.map_cons, List.mem_cons, not_or] at unused
    refine .cons ⟨holds.1, ?_⟩ (ih unused.2)
    rw [List.getElem?_set_ne unused.1]
    exact holds.2

theorem holds_rebind (nodup : (scope.map Prod.snd).Nodup) {name : String} {slot : Nat}
    (found : scope.lookup name = some slot) (lt : slot < slots.length) (v : V) :
    List.Forall₂ (Holds (slots.set slot v)) scope (rebind name v locals) := by
  induction h with
  | nil => cases found
  | @cons b d scope locals holds rest ih =>
    obtain ⟨x, n⟩ := b
    obtain ⟨y, w⟩ := d
    obtain ⟨rfl, held⟩ := holds
    rw [List.map_cons, List.nodup_cons] at nodup
    rw [List.lookup_cons] at found
    rw [rebind]
    by_cases eq : name = x
    · subst eq
      rw [beq_self_eq_true] at found
      cases found
      rw [if_pos rfl]
      exact .cons ⟨rfl, List.getElem?_set_self lt⟩ (holds_set rest nodup.1 v)
    · rw [beq_false_of_ne eq] at found
      rw [if_neg eq]
      -- The local stands further in, and no two locals share a slot.
      have ne : slot ≠ n := by
        rintro rfl
        obtain ⟨l₁, l₂, rfl, -⟩ := List.lookup_eq_some_iff.1 found
        exact nodup.1 (by simp)
      refine .cons ⟨rfl, ?_⟩ (ih nodup.2 found)
      rw [List.getElem?_set_ne ne]
      exact held

end Holds

namespace Stored

variable {f : Frame} {scope : Scope} {c : Config V S} {slots : List V}

theorem argument (h : Stored f scope c slots) {name : String} {v : V}
    (found : c.parameters.lookup name = some v) :
    ∃ i, f.argument? name = some (i + 1) ∧ (c.parameters.map Prod.snd)[i]? = some v ∧
      ∀ w, (rebind name w c.parameters).map Prod.snd = (c.parameters.map Prod.snd).set i w := by
  obtain ⟨i, index, rest⟩ := exists_idxOf?_of_lookup found
  refine ⟨i, ?_, rest⟩
  rw [Frame.argument?, ← h.parameters, index, Option.map_some]

theorem argument_eq_none (h : Stored f scope c slots) {name : String}
    (unbound : c.parameters.lookup name = none) : f.argument? name = none := by
  rw [Frame.argument?, ← h.parameters, idxOf?_eq_none_of_lookup unbound, Option.map_none]

theorem enter (h : Stored f scope c slots) (t : S) : Stored f scope { c with state := t } slots :=
  ⟨h.parameters, h.locals⟩

end Stored

/-! ### Instructions without jumps -/

@[simp]
def Config.memory (c : Config V S) (self : V) (stack slots : List V) : Memory V S :=
  ⟨stack, slots, self :: c.parameters.map Prod.snd, c.state⟩

/-- Instructions turn the values `vs` on the stack into `ws` and one configuration into another. -/
def Executes (P : Primitives V S) (f : Frame) (self : V) (scope : Scope) (room : Nat)
    (code : List Instr) (c : Config V S) (vs : List V) (c' : Config V S) (ws : List V) : Prop :=
  ∀ stack slots, Stored f scope c slots → room ≤ slots.length →
    ∃ slots', P.exec code (c.memory self (vs.reverse ++ stack) slots) =
        some (c'.memory self (ws.reverse ++ stack) slots') ∧
      Stored f scope c' slots' ∧ slots'.length = slots.length

section Execution

variable {P : Primitives V S} {f : Frame} {self : V} {scope : Scope} {room : Nat}
  {c c' : Config V S}

theorem Executes.of_exec {code : List Instr} {vs ws : List V} {t : S}
    (h : ∀ stack slots, Stored f scope c slots →
      P.exec code (c.memory self (vs.reverse ++ stack) slots) =
        some ({ c with state := t }.memory self (ws.reverse ++ stack) slots)) :
    Executes P f self scope room code c vs { c with state := t } ws :=
  fun stack slots stored _ => ⟨slots, h stack slots stored, stored.enter t, rfl⟩

theorem Reads.executes {name : String} {v : V} {t : S}
    (h : Reads P f.surroundings self c name v t) :
    Executes P f self scope room (f.load scope name) c [] { c with state := t } [v] := by
  refine .of_exec fun stack slots stored => ?_
  have unbound_load (unbound : c.Unbound name) : f.load scope name =
      if name ∈ f.surroundings.fields then [.loadArg 0, .loadField name]
      else if name ∈ f.surroundings.methods then [.loadArg 0, .callVirtual name 0]
      else if name ∈ f.surroundings.objects then [.loadInstance name]
      else [.loadSymbol name] := by
    rw [Frame.load, lookup_eq_none_of_holds stored.locals unbound.1,
      stored.argument_eq_none unbound.2]
  cases h with
  | ofLocal found =>
    obtain ⟨slot, slot_eq, held⟩ := lookup_of_holds stored.locals found
    simp [Frame.load, slot_eq, held]
  | ofParameter unbound found =>
    obtain ⟨i, index, held, -⟩ := stored.argument found
    have load_eq : f.load scope name = [.loadArg (i + 1)] := by
      simp [Frame.load, lookup_eq_none_of_holds stored.locals unbound, index]
    rw [List.getElem?_map] at held
    simp [load_eq, held]
  | ofField unbound field loaded => simp [unbound_load unbound, field, loaded]
  | ofMethod unbound no_field method called =>
    simp [unbound_load unbound, no_field, method, Memory.popMany, called]
  | ofObject unbound no_field no_method object loaded =>
    simp [unbound_load unbound, no_field, no_method, object, loaded]
  | ofSymbol unbound no_field no_method no_object loaded =>
    simp [unbound_load unbound, no_field, no_method, no_object, loaded]

/-- What stands before a value that is stored under a name puts values on the stack that do not
depend on the configuration, and what stands behind it takes them and the value. -/
theorem Writes.executes {name : String} {v : V} {slots : List V} (allocated : scope.Allocated room)
    (stored : Stored f scope c slots) (h : Writes P f.surroundings self c name v c') :
    ∃ us, (∀ (c : Config V S) (room : Nat),
        Executes P f self scope room (f.store scope name).1 c [] c us) ∧
      Executes P f self scope room ((f.store scope name).2 ++ [.loadUnit]) c (us ++ [v]) c'
        [P.constant .unit] := by
  have none_before (c : Config V S) (room : Nat) : Executes P f self scope room [] c [] c [] :=
    fun stack slots stored _ => ⟨slots, rfl, stored, rfl⟩
  have unbound_store (unbound : c.Unbound name) : f.store scope name =
      if name ∈ f.surroundings.fields then ([.loadArg 0], [.storeField name])
      else ([], [.storeSymbol name]) := by
    rw [Frame.store, lookup_eq_none_of_holds stored.locals unbound.1,
      stored.argument_eq_none unbound.2]
  cases h with
  | ofLocal found =>
    obtain ⟨slot, slot_eq, -⟩ := lookup_of_holds stored.locals found
    have store_eq : f.store scope name = ([], [.storeLocal slot]) := by simp [Frame.store, slot_eq]
    rw [store_eq]
    refine ⟨[], none_before, fun stack slots stored le => ⟨slots.set slot v, ?_, ?_, ?_⟩⟩
    · have lt := Nat.lt_of_lt_of_le (allocated.below.lookup slot_eq) le
      simp [lt]
    · have lt := Nat.lt_of_lt_of_le (allocated.below.lookup slot_eq) le
      exact ⟨stored.parameters, holds_rebind stored.locals allocated.nodup slot_eq lt v⟩
    · exact List.length_set
  | ofParameter unbound found =>
    obtain ⟨i, index, held, rebound⟩ := stored.argument found
    have store_eq : f.store scope name = ([], [.storeArg (i + 1)]) := by
      simp [Frame.store, lookup_eq_none_of_holds stored.locals unbound, index]
    rw [store_eq]
    refine ⟨[], none_before, fun stack slots stored _ => ⟨slots, ?_, ?_, rfl⟩⟩
    · have lt : i < c.parameters.length := by
        simpa using (List.getElem?_eq_some_iff.1 held).1
      simp [lt, rebound]
    · refine ⟨?_, stored.locals⟩
      rw [← stored.parameters]
      exact map_fst_rebind name v c.parameters
  | ofField unbound field wrote =>
    rw [unbound_store unbound, if_pos field]
    refine ⟨[self], fun c room => ?_, .of_exec fun stack slots stored => ?_⟩
    · exact Executes.of_exec (t := c.state) fun stack slots stored => by simp
    · simp [wrote]
  | ofSymbol unbound no_field wrote =>
    rw [unbound_store unbound, if_neg no_field]
    refine ⟨[], none_before, .of_exec fun stack slots stored => ?_⟩
    simp [wrote]

theorem Executes.call {name : String} {r v : V} {vs : List V} {t : S} {arity : Nat}
    (called : P.call name r vs c.state = some (v, t)) (length_eq : vs.length = arity) :
    Executes P f self scope room [.callVirtual name arity] c (r :: vs) { c with state := t }
      [v] := by
  subst length_eq
  refine .of_exec fun stack slots stored => ?_
  simp [called]

theorem Executes.pop {w : V} : Executes P f self scope room [.pop] c [w] c [] :=
  .of_exec (t := c.state) fun stack slots _ => by simp

end Execution

/-! ### Lowered code -/

/-- Lowered code puts the values `vs` on the stack and turns one configuration into another. -/
def Simulates (P : Primitives V S) (f : Frame) (self : V) (scope : Scope) (k : Counters)
    (a : Lowered) (c : Config V S) (vs : List V) (c' : Config V S) : Prop :=
  ∀ stack slots, Stored f scope c slots → a.next.locals ≤ slots.length →
    ∃ slots', Runs P k.labels a.code (c.memory self stack slots)
        (c'.memory self (vs.reverse ++ stack) slots') ∧
      Stored f scope c' slots' ∧ slots'.length = slots.length

theorem Fragment.labelsIn {f : Frame} {k : Counters} {a : Lowered} {p q : Nat}
    (h : Fragment f k a p q) : LabelsIn k.labels a.next.labels a.code :=
  fun _ mem => h.mem_label.1 mem

namespace Simulates

variable {P : Primitives V S} {f : Frame} {self : V} {scope : Scope} {k : Counters}
  {a b : Lowered} {c c₁ c₂ : Config V S} {vs ws : List V} {p q p' q' : Nat}

theorem of_executes (h : Executes P f self scope a.next.locals a.code c [] c₁ ws) :
    Simulates P f self scope k a c ws c₁ := by
  intro stack slots stored room
  obtain ⟨slots', executed, stored', length_eq⟩ := h stack slots stored room
  exact ⟨slots', .of_exec executed, stored', length_eq⟩

theorem emit {code : List Instr} (h : Executes P f self scope k.locals code c [] c₁ ws) :
    Simulates P f self scope k (.emit code k) c ws c₁ :=
  of_executes h

theorem append (first : Simulates P f self scope k a c vs c₁)
    (second : Simulates P f self scope a.next b c₁ ws c₂) (fragment : Fragment f k a p q)
    (fragment' : Fragment f a.next b p' q') :
    Simulates P f self scope k (a.append b) c (vs ++ ws) c₂ := by
  intro stack slots stored room
  obtain ⟨slots₁, run, stored₁, length₁⟩ :=
    first stack slots stored (Nat.le_trans fragment'.locals_le room)
  obtain ⟨slots₂, run', stored₂, length₂⟩ := second (vs.reverse ++ stack) slots₁ stored₁
    (length₁ ▸ room)
  refine ⟨slots₂, ?_, stored₂, length₂.trans length₁⟩
  rw [List.reverse_append, List.append_assoc]
  exact run.append run' fragment.labels_le fun l le => fragment.labelsIn.not_mem_of_le le

theorem andThen {code : List Instr} (first : Simulates P f self scope k a c vs c₁)
    (second : Executes P f self scope a.next.locals code c₁ vs c₂ ws)
    (fragment : Fragment f k a p q) : Simulates P f self scope k (a.andThen code) c ws c₂ := by
  intro stack slots stored room
  obtain ⟨slots₁, run, stored₁, length₁⟩ := first stack slots stored room
  obtain ⟨slots₂, executed, stored₂, length₂⟩ := second stack slots₁ stored₁ (length₁ ▸ room)
  refine ⟨slots₂, ?_, stored₂, length₂.trans length₁⟩
  exact run.append (.of_exec executed) fragment.labels_le fun l le =>
    fragment.labelsIn.not_mem_of_le le

theorem behind {code : List Instr} (first : Executes P f self scope k.locals code c [] c₁ vs)
    (second : Simulates P f self scope k a c₁ ws c₂) (fragment : Fragment f k (.emit code k) p q)
    (fragment' : Fragment f k a p' q') :
    Simulates P f self scope k (a.behind code) c (vs ++ ws) c₂ :=
  (emit first).append second fragment fragment'

theorem define {name : String} {w : V}
    (first : Simulates P f self scope k a c [w] c₁)
    (second : Simulates P f self ((name, a.next.locals) :: scope)
      { a.next with locals := a.next.locals + 1 } b
      { c₁ with locals := (name, w) :: c₁.locals } vs c₂)
    (fragment : Fragment f k a p q) (allocated : scope.Allocated a.next.locals)
    (fragment' : Fragment f { a.next with locals := a.next.locals + 1 } b p' q') :
    Simulates P f self scope k ((a.andThen [.storeLocal a.next.locals]).append b) c vs
      { c₂ with locals := c₂.locals.tail } := by
  intro stack slots stored room
  have room' : a.next.locals < slots.length := Nat.le_trans fragment'.locals_le room
  obtain ⟨slots₁, run, stored₁, length₁⟩ := first stack slots stored (Nat.le_of_lt room')
  have executed : P.exec [.storeLocal a.next.locals] (c₁.memory self (w :: stack) slots₁) =
      some ({ c₁ with locals := (name, w) :: c₁.locals }.memory self stack
        (slots₁.set a.next.locals w)) := by
    simp [length₁, room']
  -- The slot of the new local is none of the scope's, so the older locals keep their values.
  have stored' : Stored f ((name, a.next.locals) :: scope)
      { c₁ with locals := (name, w) :: c₁.locals } (slots₁.set a.next.locals w) := by
    refine ⟨stored₁.parameters, .cons ⟨rfl, ?_⟩ (holds_set stored₁.locals allocated.not_mem w)⟩
    exact List.getElem?_set_self (length₁ ▸ room')
  obtain ⟨slots₂, run', stored₂, length₂⟩ := second stack _ stored'
    (by rw [List.length_set, length₁]; exact room)
  refine ⟨slots₂, ?_, ⟨stored₂.parameters, ?_⟩, length₂.trans (List.length_set.trans length₁)⟩
  · have labels := fun l (le : a.next.labels ≤ l) => fragment.labelsIn.not_mem_of_le le
    have stored_run := run.append (Runs.of_exec executed) fragment.labels_le labels
    refine stored_run.append run' fragment.labels_le fun l le => ?_
    simpa using labels l le
  · obtain ⟨d, locals, -, holds, eq⟩ := List.forall₂_cons_left_iff.1 stored₂.locals
    rw [eq]
    exact holds

section Control

variable {test consequent alternative body : Lowered} {t v w : V} {c₃ : Config V S} {h : Nat}
  (condition : Simulates P f self scope k.takeTwo test c [t] c₁)
include condition

theorem tested {stack slots : List V} (stored : Stored f scope c slots)
    (room : test.next.locals ≤ slots.length) :
    ∃ slots', Runs P (k.labels + 2) test.code (c.memory self stack slots)
        ((c₁.memory self stack slots').push t) ∧
      Stored f scope c₁ slots' ∧ slots'.length = slots.length :=
  condition stack slots stored room

theorem ifTrue (holds : P.truth t c₁.state = true)
    (chosen : Simulates P f self scope test.next consequent c₁ [v] c₂)
    (fragment : Fragment f k.takeTwo test h (h + 1))
    (fragment' : Fragment f test.next consequent h (h + 1))
    (fragment'' : Fragment f consequent.next alternative h (h + 1)) :
    Simulates P f self scope k (.branchOn k.labels test consequent alternative) c [v] c₂ := by
  intro stack slots stored room
  have room' := Nat.le_trans fragment''.locals_le room
  obtain ⟨slots₁, run, stored₁, length₁⟩ :=
    condition.tested stored (Nat.le_trans fragment'.locals_le room')
  obtain ⟨slots₂, run', stored₂, length₂⟩ := chosen stack slots₁ stored₁ (length₁ ▸ room')
  refine ⟨slots₂, ?_, stored₂, length₂.trans length₁⟩
  rw [Lowered.code_branchOn]
  exact run.ifTrue holds run' fragment.labelsIn fragment'.labelsIn fragment''.labelsIn
    fragment.labels_le fragment'.labels_le

theorem ifFalse (fails : P.truth t c₁.state = false)
    (chosen : Simulates P f self scope consequent.next alternative c₁ [v] c₂)
    (fragment : Fragment f k.takeTwo test h (h + 1))
    (fragment' : Fragment f test.next consequent h (h + 1))
    (fragment'' : Fragment f consequent.next alternative h (h + 1)) :
    Simulates P f self scope k (.branchOn k.labels test consequent alternative) c [v] c₂ := by
  intro stack slots stored room
  obtain ⟨slots₁, run, stored₁, length₁⟩ := condition.tested stored
    (Nat.le_trans fragment'.locals_le (Nat.le_trans fragment''.locals_le room))
  obtain ⟨slots₂, run', stored₂, length₂⟩ := chosen stack slots₁ stored₁ (length₁ ▸ room)
  refine ⟨slots₂, ?_, stored₂, length₂.trans length₁⟩
  rw [Lowered.code_branchOn]
  exact run.ifFalse fails run' fragment.labelsIn fragment'.labelsIn fragment.labels_le
    fragment'.labels_le

theorem loopEnd (fails : P.truth t c₁.state = false)
    (fragment : Fragment f k.takeTwo test h (h + 1))
    (fragment' : Fragment f test.next body h (h + 1)) :
    Simulates P f self scope k (.repeatWhile k.labels test body) c [P.constant .unit] c₁ := by
  intro stack slots stored room
  obtain ⟨slots₁, run, stored₁, length₁⟩ := condition.tested stored
    (Nat.le_trans fragment'.locals_le room)
  refine ⟨slots₁, ?_, stored₁, length₁⟩
  rw [Lowered.code_repeatWhile]
  exact run.loopEnd fails fragment.labelsIn fragment'.labelsIn fragment.labels_le

theorem loopNext (holds : P.truth t c₁.state = true)
    (round : Simulates P f self scope test.next body c₁ [w] c₂)
    (again : Simulates P f self scope k (.repeatWhile k.labels test body) c₂ [v] c₃)
    (fragment : Fragment f k.takeTwo test h (h + 1))
    (fragment' : Fragment f test.next body h (h + 1)) :
    Simulates P f self scope k (.repeatWhile k.labels test body) c [v] c₃ := by
  intro stack slots stored room
  obtain ⟨slots₁, run, stored₁, length₁⟩ := condition.tested stored
    (Nat.le_trans fragment'.locals_le room)
  obtain ⟨slots₂, run', stored₂, length₂⟩ := round stack slots₁ stored₁ (length₁ ▸ room)
  obtain ⟨slots₃, run'', stored₃, length₃⟩ := again stack slots₂ stored₂
    ((length₂.trans length₁) ▸ room)
  refine ⟨slots₃, ?_, stored₃, length₃.trans (length₂.trans length₁)⟩
  rw [Lowered.code_repeatWhile] at run'' ⊢
  exact run.loopNext holds run' fragment.labelsIn fragment.labels_le run''

end Control

end Simulates

/-! ### Expressions -/

theorem closures_lower_all (f : Frame) :
    (∀ scope e k, (lower f scope e k).next.closures = k.closures + e.outerClosures) ∧
    (∀ scope ss k,
      (lowerStatements f scope ss k).next.closures = k.closures + outerClosuresStatements ss) ∧
    (∀ scope es k,
      (lowerList f scope es k).next.closures = k.closures + outerClosuresList es) := by
  apply lower.mutual_induct f <;> intros <;>
    simp_all +zetaDelta [Nat.add_assoc, lower, lowerList, lowerStatements, Expr.outerClosures,
      outerClosuresList, outerClosuresStatements, Lowered.emit, Lowered.append, Lowered.andThen,
      Lowered.behind]

theorem closures_lower (f : Frame) (scope : Scope) (e : Expr) (k : Counters) :
    (lower f scope e k).next.closures = k.closures + e.outerClosures :=
  (closures_lower_all f).1 scope e k

theorem EvaluatesAll.length_eq {P : Primitives V S} {s : Surroundings} {self : V} :
    ∀ {n : Nat} {es : List Expr} {c : Config V S} {vs : List V} {c' : Config V S},
      EvaluatesAll P s self n es c vs c' → vs.length = es.length
  | _, _, _, _, _, .nil => rfl
  | _, _, _, _, _, .cons _ rest => by rw [List.length_cons, rest.length_eq, List.length_cons]

theorem lower_constant (P : Primitives V S) (f : Frame) (scope : Scope) {e : Expr} {x : Constant}
    (h : e.constant? = some x) (k : Counters) :
    ∃ i, lower f scope e k = .emit [i] k ∧
      ∀ m : Memory V S, P.perform i m = some (m.push (P.constant x)) := by
  cases e <;> cases h <;> exact ⟨_, by rw [lower], fun m => rfl⟩

theorem Scope.Allocated.behind {scope : Scope} {k : Counters} (h : scope.Allocated k.locals)
    (f : Frame) (e : Expr) : scope.Allocated (lower f scope e k).next.locals :=
  h.mono (fragment_lower f e h.below 0).locals_le

theorem Scope.Allocated.define {scope : Scope} {k : Counters} (h : scope.Allocated k.locals)
    (f : Frame) (e : Expr) (name : String) :
    Scope.Allocated ((name, (lower f scope e k).next.locals) :: scope)
      ((lower f scope e k).next.locals + 1) := by
  have behind := h.behind f e
  refine ⟨List.nodup_cons.2 ⟨behind.not_mem, h.nodup⟩, fun b mem => ?_⟩
  rcases List.mem_cons.1 mem with rfl | mem
  · exact Nat.lt_succ_self _
  · exact Nat.lt_succ_of_lt (behind.below b mem)

section Evaluation

variable {P : Primitives V S} {f : Frame} {self : V}

theorem Simulates.followed {scope : Scope} {k : Counters} {e : Expr} {b : Lowered}
    {c c₁ c₂ c₃ : Config V S} {r : V} {vs ws : List V} {code : List Instr} {q : Nat}
    (first : Simulates P f self scope k (lower f scope e k) c [r] c₁)
    (second : Simulates P f self scope (lower f scope e k).next b c₁ vs c₂)
    (allocated : scope.Allocated k.locals) (fragment : Fragment f (lower f scope e k).next b 1 q)
    (rest : ∀ room, Executes P f self scope room code c₂ (r :: vs) c₃ ws) :
    Simulates P f self scope k (((lower f scope e k).append b).andThen code) c ws c₃ := by
  have start := fragment_lower f e allocated.below 0
  exact (first.append second start fragment).andThen (rest _) (start.append fragment)

theorem callsOwnMethod_iff {scope : Scope} {c : Config V S} {slots : List V}
    (stored : Stored f scope c slots) (name : String) :
    f.callsOwnMethod scope name ↔ name ∈ f.surroundings.methods ∧ c.Unbound name := by
  have locals : (scope.lookup name).isNone ↔ c.locals.lookup name = none := by
    cases found : c.locals.lookup name with
    | none => simp [lookup_eq_none_of_holds stored.locals found]
    | some v =>
      obtain ⟨slot, slot_eq, -⟩ := lookup_of_holds stored.locals found
      simp [slot_eq]
  have parameters : (f.argument? name).isNone ↔ c.parameters.lookup name = none := by
    cases found : c.parameters.lookup name with
    | none => simp [stored.argument_eq_none found]
    | some v =>
      obtain ⟨i, index, -⟩ := stored.argument found
      simp [index]
  rw [Frame.callsOwnMethod, Bool.and_eq_true, Bool.and_eq_true, decide_eq_true_iff, locals,
    parameters, and_assoc, Config.Unbound]

theorem lower_callOwn {scope : Scope} {name : Ident} (own : f.callsOwnMethod scope name.text)
    (arguments : List Expr) (span : Span) (k : Counters) :
    lower f scope (.call (.reference name) arguments span) k =
      ((lowerList f scope arguments k).behind [.loadArg 0]).andThen
        [.callVirtual name.text arguments.length] := by
  rw [lower, if_pos own]

theorem lower_callValue {scope : Scope} {callee : Expr}
    (member : ∀ receiver name span, callee ≠ .select receiver name span)
    (foreign : ∀ name, callee = .reference name → ¬f.callsOwnMethod scope name.text)
    (arguments : List Expr) (span : Span) (k : Counters) :
    lower f scope (.call callee arguments span) k =
      ((lower f scope callee k).append
        (lowerList f scope arguments (lower f scope callee k).next)).andThen
        [.callVirtual "apply" arguments.length] := by
  by_cases named : ∃ name, callee = .reference name
  · obtain ⟨name, rfl⟩ := named
    have loaded : lower f scope (.reference name) k = .emit (f.load scope name.text) k := by
      rw [lower]
    rw [loaded, lower, if_neg (foreign name rfl)]
    rfl
  · rw [lower]
    · exact member
    · exact fun name eq => named ⟨name, eq⟩

theorem lower_assignName (f : Frame) (scope : Scope) (name : Ident) (value : Expr) (span : Span)
    (k : Counters) :
    lower f scope (.assign (.reference name) value span) k =
      ((lower f scope value k).behind (f.store scope name.text).1).andThen
        ((f.store scope name.text).2 ++ [.loadUnit]) := by
  rw [lower]

-- The induction is on the evaluation, with one case for each of its rules. One on expressions would
-- not do: a loop that goes on is evaluated again.
mutual

theorem Evaluates.simulates :
    ∀ {n : Nat} {e : Expr} {c : Config V S} {v : V} {c' : Config V S},
      Evaluates P f.surroundings self n e c v c' → ∀ {scope : Scope} {k : Counters},
      k.closures = n → scope.Allocated k.locals →
      Simulates P f self scope k (lower f scope e k) c [v] c'
  | _, _, c, _, _, .constant constant, scope, k, _, _ => by
    obtain ⟨i, lower_eq, pushed⟩ := lower_constant P f scope constant k
    rw [lower_eq]
    refine .emit (.of_exec (t := c.state) fun stack slots _ => ?_)
    rw [Primitives.exec, pushed]
    rfl
  | _, .this _, c, _, _, .this, scope, k, _, _ => by
    rw [lower]
    exact .emit (.of_exec (t := c.state) fun stack slots _ => by simp)
  | _, .reference name, _, _, _, .reference reads, scope, k, _, _ => by
    rw [lower]
    exact .emit reads.executes
  | _, .select e name _, _, _, _, .select receiver loaded, scope, k, numbered, allocated => by
    rw [lower]
    exact (receiver.simulates numbered allocated).andThen
      (.of_exec fun stack slots _ => by simp [loaded]) (fragment_lower f e allocated.below 0)
  | _, .call (.select e name _) es _, _, _, _, .callMember receiver arguments called, scope, k,
      numbered, allocated => by
    rw [lower]
    have target := receiver.simulates numbered allocated
    have allocated' := allocated.behind f e
    exact target.followed (arguments.simulates (by rw [closures_lower, numbered]) allocated')
      allocated (fragment_lowerList f es allocated'.below 1)
      fun _ => .call called arguments.length_eq
  | _, .call (.reference name) es _, c, _, _, .callOwn method unbound arguments called, scope, k,
      numbered, allocated => by
    intro stack slots stored
    rw [lower_callOwn ((callsOwnMethod_iff stored name.text).2 ⟨method, unbound⟩)]
    have receiver : Executes P f self scope k.locals [.loadArg 0] c [] c [self] :=
      .of_exec (t := c.state) fun stack slots _ => by simp
    have start : Fragment f k (.emit [.loadArg 0] k) 0 1 := .emit (by simp)
    have fragment := fragment_lowerList f es allocated.below 1
    have passed := Simulates.behind receiver (arguments.simulates numbered allocated) start fragment
    exact passed.andThen (.call called arguments.length_eq) (start.append fragment) stack slots
      stored
  | _, .call e es _, _, _, _, .callValue applied callee arguments called, scope, k, numbered,
      allocated => by
    intro stack slots stored
    have foreign := fun name eq own => applied.2 name eq ((callsOwnMethod_iff stored _).1 own)
    rw [lower_callValue applied.1 foreign]
    have target := callee.simulates numbered allocated
    have allocated' := allocated.behind f e
    exact target.followed (arguments.simulates (by rw [closures_lower, numbered]) allocated')
      allocated (fragment_lowerList f es allocated'.below 1)
      (fun _ => .call called arguments.length_eq) stack slots stored
  | _, .create type es _, _, _, _, .create arguments created, scope, k, numbered, allocated => by
    rw [lower]
    refine (arguments.simulates numbered allocated).andThen (.of_exec fun stack slots _ => ?_)
      (fragment_lowerList f es allocated.below 0)
    rw [← arguments.length_eq]
    simp [created]
  | _, .unary operator e _, _, _, _, .unary operand called, scope, k, numbered, allocated => by
    rw [lower]
    exact (operand.simulates numbered allocated).andThen (.call called rfl)
      (fragment_lower f e allocated.below 0)
  | _, .binary operator e e' _, _, _, _, .binary lhs rhs called, scope, k, numbered,
      allocated => by
    rw [lower]
    have left := lhs.simulates numbered allocated
    have allocated' := allocated.behind f e
    exact left.followed (rhs.simulates (by rw [closures_lower, numbered]) allocated') allocated
      (fragment_lower f e' allocated'.below 1) fun _ => .call called rfl
  | _, .assign (.reference name) e _, c, _, _, .assignName value writes, scope, k, numbered,
      allocated => by
    intro stack slots stored room
    rw [lower_assignName] at room ⊢
    have valued := value.simulates numbered allocated
    -- Which instructions store the value depends on the names that are bound behind it.
    obtain ⟨slots₁, -, stored₁, -⟩ := valued stack slots stored room
    obtain ⟨us, start, finish⟩ := writes.executes (allocated.behind f e) stored₁
    obtain ⟨q, height, -⟩ := heightAfter_store f allocated.below name.text 0
    have fragment := fragment_lower f e allocated.below q
    have whole := Simulates.behind (start c _) valued (.emit height) fragment
    exact whole.andThen finish (Fragment.behind height fragment) stack slots stored room
  | _, .assign (.select e name _) e' _, _, _, _, .assignMember receiver value wrote, scope, k,
      numbered, allocated => by
    rw [lower]
    have target := receiver.simulates numbered allocated
    have allocated' := allocated.behind f e
    exact target.followed (value.simulates (by rw [closures_lower, numbered]) allocated') allocated
      (fragment_lower f e' allocated'.below 1)
      fun _ => .of_exec fun stack slots _ => by simp [wrote]
  | _, .ifThen e e' _, _, _, _, .ifThenTrue condition holds consequent, scope, k, numbered,
      allocated => by
    rw [lower_ifThen]
    have allocated' := Scope.Allocated.behind (k := k.takeTwo) allocated f e
    have tested := condition.simulates (k := k.takeTwo) numbered allocated
    have chosen := consequent.simulates (by rw [closures_lower, ← numbered]) allocated'
    exact tested.ifTrue holds chosen
      (fragment_lower f e (k := k.takeTwo) allocated.below 0)
      (fragment_lower f e' allocated'.below 0) (.emit (by simp))
  | _, .ifThen e e' _, _, _, c, .ifThenFalse condition fails, scope, k, numbered, allocated => by
    rw [lower_ifThen]
    have allocated' := Scope.Allocated.behind (k := k.takeTwo) allocated f e
    have tested := condition.simulates (k := k.takeTwo) numbered allocated
    have unit (room : Nat) : Executes P f self scope room [.loadUnit] c [] c [P.constant .unit] :=
      .of_exec (t := c.state) fun stack slots _ => by simp
    exact tested.ifFalse fails (.emit (unit _))
      (fragment_lower f e (k := k.takeTwo) allocated.below 0)
      (fragment_lower f e' allocated'.below 0) (.emit (by simp))
  | _, .ifElse e e' e'' _, _, _, _, .ifElseTrue condition holds consequent, scope, k, numbered,
      allocated => by
    rw [lower]
    have allocated' := Scope.Allocated.behind (k := k.takeTwo) allocated f e
    have tested := condition.simulates (k := k.takeTwo) numbered allocated
    have chosen := consequent.simulates (by rw [closures_lower, ← numbered]) allocated'
    exact tested.ifTrue holds chosen
      (fragment_lower f e (k := k.takeTwo) allocated.below 0)
      (fragment_lower f e' allocated'.below 0)
      (fragment_lower f e'' (allocated'.behind f e').below 0)
  | _, .ifElse e e' e'' _, _, _, _, .ifElseFalse condition fails alternative, scope, k, numbered,
      allocated => by
    rw [lower]
    have allocated' := Scope.Allocated.behind (k := k.takeTwo) allocated f e
    have tested := condition.simulates (k := k.takeTwo) numbered allocated
    have chosen := alternative.simulates (by rw [closures_lower, closures_lower, ← numbered])
      (allocated'.behind f e')
    exact tested.ifFalse fails chosen
      (fragment_lower f e (k := k.takeTwo) allocated.below 0)
      (fragment_lower f e' allocated'.below 0)
      (fragment_lower f e'' (allocated'.behind f e').below 0)
  | _, .loop e e' _, _, _, _, .loopEnd condition fails, scope, k, numbered, allocated => by
    rw [lower]
    have allocated' := Scope.Allocated.behind (k := k.takeTwo) allocated f e
    have tested := condition.simulates (k := k.takeTwo) numbered allocated
    exact tested.loopEnd fails
      (fragment_lower f e (k := k.takeTwo) allocated.below 0)
      (fragment_lower f e' allocated'.below 0)
  | _, .loop e e' _, _, _, _, .loopNext condition holds body again, scope, k, numbered,
      allocated => by
    have next := again.simulates numbered allocated
    rw [lower] at next ⊢
    have allocated' := Scope.Allocated.behind (k := k.takeTwo) allocated f e
    have tested := condition.simulates (k := k.takeTwo) numbered allocated
    have round := body.simulates (by rw [closures_lower, ← numbered]) allocated'
    exact tested.loopNext holds round next
      (fragment_lower f e (k := k.takeTwo) allocated.below 0)
      (fragment_lower f e' allocated'.below 0)
  | _, .closure parameters _ _, _, _, _, .closure made created, scope, k, numbered, _ => by
    subst numbered
    rw [lower]
    refine .of_executes (.of_exec fun stack slots _ => ?_)
    rw [← Frame.functionType] at created
    simp [made, created, Memory.popMany]
  | _, .block ss _, _, _, _, .block statements, scope, k, numbered, allocated => by
    rw [lower]
    exact statements.simulates numbered allocated

theorem EvaluatesAll.simulates :
    ∀ {n : Nat} {es : List Expr} {c : Config V S} {vs : List V} {c' : Config V S},
      EvaluatesAll P f.surroundings self n es c vs c' → ∀ {scope : Scope} {k : Counters},
      k.closures = n → scope.Allocated k.locals →
      Simulates P f self scope k (lowerList f scope es k) c vs c'
  | _, [], c, _, _, .nil, scope, k, _, _ => by
    rw [lowerList]
    exact .emit (.of_exec (t := c.state) fun stack slots _ => rfl)
  | _, e :: es, _, _, _, .cons first rest, scope, k, numbered, allocated => by
    rw [lowerList]
    have head := first.simulates numbered allocated
    have allocated' := allocated.behind f e
    exact head.append (rest.simulates (by rw [closures_lower, numbered]) allocated')
      (fragment_lower f e allocated.below 0) (fragment_lowerList f es allocated'.below 1)

theorem Completes.simulates :
    ∀ {n : Nat} {ss : List Stmt} {c : Config V S} {v : V} {c' : Config V S},
      Completes P f.surroundings self n ss c v c' → ∀ {scope : Scope} {k : Counters},
      k.closures = n → scope.Allocated k.locals →
      Simulates P f self scope k (lowerStatements f scope ss k) c [v] c'
  | _, [], c, _, _, .nil, scope, k, _, _ => by
    rw [lowerStatements]
    exact .emit (.of_exec (t := c.state) fun stack slots _ => by simp)
  | _, [.eval e], _, _, _, .last value, scope, k, numbered, allocated => by
    rw [lowerStatements]
    exact value.simulates numbered allocated
  | _, .eval e :: ss, _, _, _, .next more first rest, scope, k, numbered, allocated => by
    rw [lowerStatements]
    · have popped (room : Nat) : heightAfter f room [.pop] (0 + 1) = some 0 := by simp
      have fragment := (fragment_lower f e allocated.below 0).andThen (popped _)
      have head := (first.simulates numbered allocated).andThen .pop
        (fragment_lower f e allocated.below 0)
      have allocated' := allocated.behind f e
      have numbered' := numbered ▸ closures_lower f scope e k
      exact head.append (rest.simulates numbered' allocated') fragment
        (fragment_lowerStatements f ss allocated'.below 0)
    · exact more
  | _, .define _ name _ e _ :: ss, _, _, _, .define initializer rest, scope, k, numbered,
      allocated => by
    rw [lowerStatements]
    exact (initializer.simulates numbered allocated).define
      (rest.simulates (by rw [closures_lower, numbered]) (allocated.define f e name.text))
      (fragment_lower f e allocated.below 0) (allocated.behind f e)
      (fragment_lowerStatements f ss (allocated.define f e name.text).below 0)

end

/-- Lowering keeps the meaning of an expression. In any code whose labels so far are older ones, and
in any scope whose locals are held in slots of their own, the machine runs through the lowered
expression if evaluation gives it a value: it leaves that value on top of the stack, and the
parameters, the visible locals and the state as evaluation leaves them. -/
theorem lower_preserves_evaluation (P : Primitives V S) (f : Frame) (self : V) (scope : Scope)
    (e : Expr) (k : Counters) (c c' : Config V S) (v : V) (stack slots : List V)
    (before after : List Instr)
    (evaluated : Evaluates P f.surroundings self k.closures e c v c')
    (allocated : scope.Allocated k.locals) (stored : Stored f scope c slots)
    (room : (lower f scope e k).next.locals ≤ slots.length)
    (older : ∀ l, k.labels ≤ l → .label l ∉ before) :
    ∃ slots', P.Reaches (before ++ (lower f scope e k).code ++ after)
        ⟨before.length, c.memory self stack slots⟩
        ⟨before.length + (lower f scope e k).code.length, c'.memory self (v :: stack) slots'⟩ ∧
      Stored f scope c' slots' ∧ slots'.length = slots.length := by
  obtain ⟨slots', run, stored', length_eq⟩ :=
    evaluated.simulates rfl allocated stack slots stored room
  refine ⟨slots', run _ _ ⟨before, after, rfl, rfl⟩ fun l le => ?_, stored', length_eq⟩
  rw [List.append_assoc, List.take_left]
  exact older l le

end Evaluation

/-! ### An interpretation -/

/-- An interpretation in which the values are the constants, numbers can be added and compared, and
the state lists the calls, the last one first. -/
def Primitives.counting : Primitives Constant (List String) where
  constant := id
  truth v _ := match v with
    | .bool b => b
    | _ => false
  closure _ _ := none
  call name receiver arguments calls := match name, receiver, arguments with
    | "+", .int a, [.int b] => some (.int (a + b), name :: calls)
    | "<", .int a, [.int b] => some (.bool (a < b), name :: calls)
    | _, _, _ => none
  construct _ _ _ _ := none
  create _ _ _ := none
  loadField _ _ _ := none
  storeField _ _ _ _ := none
  loadMember _ _ _ := none
  storeMember _ _ _ _ := none
  loadInstance _ _ := none
  loadSymbol _ _ := none
  storeSymbol _ _ _ := none

def Frame.bare : Frame := ⟨⟨[], [], [], [], ""⟩, []⟩

def Expr.counting : Expr :=
  .loop (.binary ⟨"<", default⟩ (.reference ⟨"x", default⟩) (.int 2 default) default)
    (.block
      [.define .val ⟨"y", default⟩ none
        (.binary ⟨"+", default⟩ (.reference ⟨"x", default⟩) (.int 1 default) default) default,
       .eval (.assign (.reference ⟨"x", default⟩) (.reference ⟨"y", default⟩) default)] default)
    default

def Expr.shadowing : Expr :=
  .block
    [.define .var ⟨"x", default⟩ none (.int 9 default) default,
     .eval (.assign (.reference ⟨"x", default⟩) (.int 8 default) default)] default

theorem evaluates_counting (n : Nat) :
    Evaluates Primitives.counting Frame.bare.surroundings .null n .counting
      ⟨[("x", .int 1)], [], []⟩ .unit ⟨[("x", .int 2)], [], ["<", "+", "<"]⟩ :=
  .loopNext (.binary (.reference (.ofLocal rfl)) (.constant rfl) rfl) rfl
    (.block (.define (.binary (.reference (.ofLocal rfl)) (.constant rfl) rfl)
      (.last (.assignName (.reference (.ofLocal rfl)) (.ofLocal rfl)))))
    (.loopEnd (.binary (.reference (.ofLocal rfl)) (.constant rfl) rfl) rfl)

theorem evaluates_shadowing (n : Nat) (v : Constant) (calls : List String) :
    Evaluates Primitives.counting Frame.bare.surroundings .null n .shadowing
      ⟨[("x", v)], [], calls⟩ .unit ⟨[("x", v)], [], calls⟩ :=
  .block (.define (.constant rfl) (.last (.assignName (.constant rfl) (.ofLocal rfl))))

/-- A loop whose rounds have a local, a local that hides another one, and the value of a local of
the surrounding scope, behind a label and before a return. -/
theorem lower_preserves_evaluation_counting :
    let e : Expr := .block [.eval .counting, .eval .shadowing, .eval (.reference ⟨"x", default⟩)]
      default
    let a := lower Frame.bare [("x", 0)] e ⟨1, 1, 0⟩
    ∃ slots', Primitives.counting.Reaches ([.label 0] ++ a.code ++ [.ret])
        ⟨1, [.null], [.int 1, .null, .null], [.null], []⟩
        ⟨1 + a.code.length, [.int 2, .null], slots', [.null], ["<", "+", "<"]⟩ ∧
      Stored Frame.bare [("x", 0)]
        (⟨[("x", .int 2)], [], ["<", "+", "<"]⟩ : Config Constant (List String)) slots' ∧
      slots'.length = 3 := by
  intro e a
  have evaluated : Evaluates Primitives.counting Frame.bare.surroundings .null 0 e
      ⟨[("x", .int 1)], [], []⟩ (.int 2) ⟨[("x", .int 2)], [], ["<", "+", "<"]⟩ :=
    .block (.next (List.cons_ne_nil _ _) (evaluates_counting _)
      (.next (List.cons_ne_nil _ _) (evaluates_shadowing _ _ _)
        (.last (.reference (.ofLocal rfl)))))
  have older (l : Nat) (le : 1 ≤ l) : Instr.label l ∉ [.label 0] := by
    simp
    omega
  exact lower_preserves_evaluation Primitives.counting Frame.bare .null [("x", 0)] e ⟨1, 1, 0⟩
    ⟨[("x", .int 1)], [], []⟩ _ _ [.null] [.int 1, .null, .null] [.label 0] [.ret] evaluated
    ⟨by simp, by simp [Scope.Below]⟩ ⟨rfl, .cons ⟨rfl, rfl⟩ .nil⟩ (by decide +kernel) older

/-- A condition without an alternative does not give the unit value when it holds: the value of its
branch is left. -/
theorem ifThen_leaves_value_of_branch :
    let a := lower Frame.bare [] (.ifThen (.bool true default) (.int 5 default) default) ⟨0, 0, 0⟩
    let start : Machine Constant (List String) := ⟨0, [], [], [.null], []⟩
    Primitives.counting.Reaches a.code start ⟨a.code.length, [.int 5], [], [.null], []⟩ ∧
      ¬Primitives.counting.Reaches a.code start ⟨a.code.length, [.unit], [], [.null], []⟩ := by
  intro a start
  have reached : Primitives.counting.Reaches a.code start
      ⟨a.code.length, [.int 5], [], [.null], []⟩ :=
    .head rfl (.head rfl (.head rfl (.head rfl (.single rfl))))
  refine ⟨reached, fun other => ?_⟩
  have same := Primitives.eq_of_reaches reached other rfl rfl
  cases same

end Mixin
