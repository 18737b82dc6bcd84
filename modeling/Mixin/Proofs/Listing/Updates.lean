import Mixin.Proofs.Listing.Captures
import Mixin.Proofs.Listing.Simulation

/-!
# Assignments to calls

An assignment `f(a, b) = v` calls `update` on the value of `f(a, b)`, with `v` as the only argument:
the call on the left is run first, like any other (`assigned_call_is_updated`). For an assignment to
an element it would have to be called on `f`, with `a`, `b` and `v`. The instructions for both are
the same only if there are no arguments and `f` is a method of the current object, which is called
when it is merely named. So the element is read, and updated (`element_is_read_and_updated`).
-/

namespace Mixin

def Expr.update (receiver : Expr) (arguments : List Expr) : Expr :=
  .call (.select receiver ⟨"update", default⟩ default) arguments default

section Lowering

variable (f : Frame) (scope : Scope)

theorem lower_update (receiver : Expr) (arguments : List Expr) (k : Counters) :
    lower f scope (receiver.update arguments) k =
      ((lower f scope receiver k).append
        (lowerList f scope arguments (lower f scope receiver k).next)).andThen
        [.callVirtual "update" arguments.length] := by
  rw [Expr.update, lower]

theorem lowerList_singleton (e : Expr) (k : Counters) :
    lowerList f scope [e] k = lower f scope e k := by
  simp [lowerList, Lowered.append, Lowered.emit]

theorem lowerList_concat (es : List Expr) (e : Expr) (k : Counters) :
    lowerList f scope (es ++ [e]) k =
      (lowerList f scope es k).append (lower f scope e (lowerList f scope es k).next) := by
  induction es generalizing k with
  | nil => simp [lowerList_singleton, lowerList, Lowered.append, Lowered.emit]
  | cons e' es ih =>
    rw [List.cons_append, lowerList, lowerList, ih]
    simp [Lowered.append]

theorem lower_assignValue {target : Expr} (foreign : ∀ name, target ≠ .reference name)
    (member : ∀ receiver name span, target ≠ .select receiver name span) (value : Expr)
    (span : Span) (k : Counters) :
    lower f scope (.assign target value span) k =
      ((lower f scope target k).append (lower f scope value (lower f scope target k).next)).andThen
        [.callVirtual "update" 1, .pop, .loadUnit] := by
  rw [lower]
  · exact foreign
  · exact member

theorem lower_assignCall (callee : Expr) (arguments : List Expr) (value : Expr) (span span' : Span)
    (k : Counters) :
    lower f scope (.assign (.call callee arguments span) value span') k =
      (lower f scope ((Expr.call callee arguments span).update [value]) k).andThen
        [.pop, .loadUnit] := by
  rw [lower_assignValue f scope (by simp) (by simp), lower_update, lowerList_singleton]
  simp [Lowered.andThen]

/-! ### Calls without arguments -/

theorem lower_callNothing (callee : Expr) (span : Span) (k : Counters) :
    (∃ receiver name span', callee = .select receiver name span' ∧
      lower f scope (.call callee [] span) k =
        (lower f scope receiver k).andThen [.callVirtual name.text 0]) ∨
    (∃ name, callee = .reference name ∧ f.callsOwnMethod scope name.text ∧
      lower f scope (.call callee [] span) k =
        .emit [.loadArg 0, .callVirtual name.text 0] k) ∨
    (∀ name, callee = .reference name → ¬f.callsOwnMethod scope name.text) ∧
      lower f scope (.call callee [] span) k =
        (lower f scope callee k).andThen [.callVirtual "apply" 0] := by
  by_cases member : ∃ receiver name span', callee = .select receiver name span'
  · obtain ⟨receiver, name, span', rfl⟩ := member
    refine .inl ⟨receiver, name, span', rfl, ?_⟩
    rw [lower, lowerList]
    simp [Lowered.append, Lowered.emit]
  by_cases own : ∃ name, callee = .reference name ∧ f.callsOwnMethod scope name.text
  · obtain ⟨name, rfl, own⟩ := own
    refine .inr (.inl ⟨name, rfl, own, ?_⟩)
    rw [lower_callOwn own, lowerList]
    rfl
  · have member' (receiver name span) : callee ≠ .select receiver name span :=
      fun eq => member ⟨receiver, name, span, eq⟩
    have own' (name : Ident) (eq : callee = .reference name) :
        ¬f.callsOwnMethod scope name.text := fun h => own ⟨name, eq, h⟩
    refine .inr (.inr ⟨own', ?_⟩)
    rw [lower_callValue member' own', lowerList]
    simp [Lowered.append, Lowered.emit]

theorem load_eq_callOwn_iff {name : String} (own : f.callsOwnMethod scope name) :
    f.load scope name = [.loadArg 0, .callVirtual name 0] ↔ name ∉ f.surroundings.fields := by
  simp only [Frame.callsOwnMethod, Bool.and_eq_true, decide_eq_true_iff, Option.isNone_iff_eq_none]
    at own
  obtain ⟨⟨method, unbound⟩, unbound'⟩ := own
  rw [Frame.load, unbound, unbound']
  by_cases field : name ∈ f.surroundings.fields <;> simp [field, method]

/-- Whether a callee is called as soon as it is named. -/
def Frame.CalledByName (f : Frame) (scope : Scope) (callee : Expr) : Prop :=
  ∃ name, callee = .reference name ∧ f.callsOwnMethod scope name.text ∧
    name.text ∉ f.surroundings.fields

theorem next_callNothing (callee : Expr) (span : Span) (k : Counters) :
    (lower f scope (.call callee [] span) k).next = (lower f scope callee k).next := by
  rcases lower_callNothing f scope callee span k with
    ⟨receiver, name, span', rfl, eq⟩ | ⟨name, rfl, -, eq⟩ | ⟨-, eq⟩
  · rw [eq, lower]
    rfl
  · rw [eq, lower]
    rfl
  · rw [eq]
    rfl

theorem code_callNothing_iff (callee : Expr) (span : Span) (k : Counters) :
    (lower f scope (.call callee [] span) k).code = (lower f scope callee k).code ↔
      f.CalledByName scope callee := by
  rcases lower_callNothing f scope callee span k with
    ⟨receiver, name, span', rfl, eq⟩ | ⟨name, rfl, own, eq⟩ | ⟨foreign, eq⟩
  · have other : ¬f.CalledByName scope (.select receiver name span') := by
      rintro ⟨name', eq', -⟩
      cases eq'
    rw [eq, lower]
    simp [Lowered.andThen, other]
  · have named : f.CalledByName scope (.reference name) ↔ name.text ∉ f.surroundings.fields := by
      simp [Frame.CalledByName, own]
    rw [eq, lower, named, ← load_eq_callOwn_iff f scope own]
    exact eq_comm
  · have other : ¬f.CalledByName scope callee := by
      rintro ⟨name, named, own, -⟩
      exact foreign name named own
    rw [eq]
    simp [Lowered.andThen, other]

/-! ### Assignments to calls -/

/-- The instructions update the callee itself only if nothing is passed to it and it is called as
soon as it is named. -/
theorem code_assignCall_iff (callee : Expr) (arguments : List Expr) (value : Expr)
    (span span' : Span) (k : Counters) :
    (lower f scope (.assign (.call callee arguments span) value span') k).code =
        (lower f scope (callee.update (arguments ++ [value])) k).code ++ [.pop, .loadUnit] ↔
      arguments = [] ∧ f.CalledByName scope callee := by
  rw [lower_assignCall, lower_update, lower_update, lowerList_singleton, lowerList_concat]
  by_cases none : arguments = []
  · subst none
    simp only [Lowered.andThen, Lowered.append, lowerList, Lowered.emit, next_callNothing]
    simp [code_callNothing_iff]
  · -- The calls of `update` do not even have the same number of arguments.
    simp only [Lowered.andThen, none, false_and, iff_false]
    intro eq
    have last := (List.append_inj' (List.append_cancel_right eq) rfl).2
    simp [none] at last

end Lowering

/-- The machine runs through an assignment to a call if the call and the value can be evaluated, in
this order, and the value of the call takes the update. It leaves the unit value. -/
theorem Simulates.assignCall {V S : Type} {P : Primitives V S} {f : Frame} {self : V}
    {scope : Scope} {k : Counters} {element value : Expr} {c c₁ c₂ : Config V S} {r v w : V} {t : S}
    (read : Evaluates P f.surroundings self k.closures element c r c₁)
    (valued : Evaluates P f.surroundings self (k.closures + element.outerClosures) value c₁ v c₂)
    (updated : P.call "update" r [v] c₂.state = some (w, t))
    (allocated : scope.Allocated k.locals) :
    Simulates P f self scope k
      ((lower f scope (element.update [value]) k).andThen [.pop, .loadUnit]) c [P.constant .unit]
      { c₂ with state := t } := by
  have called : Evaluates P f.surroundings self k.closures (element.update [value]) c w
      { c₂ with state := t } := .callMember read (.cons valued .nil) updated
  refine (called.simulates rfl allocated).andThen ?_ (fragment_lower f _ allocated.below 0)
  exact .of_exec (t := t) fun stack slots _ => by simp

/-- An assignment to a call updates the value of the call, not what is called. -/
theorem assigned_call_is_updated (f : Frame) (scope : Scope) (callee : Expr) (arguments : List Expr)
    (value : Expr) (span span' : Span) (k : Counters) :
    let element := Expr.call callee arguments span
    let assigned := lower f scope (.assign element value span') k
    assigned.code = (lower f scope element k).code ++
        (lower f scope value (lower f scope element k).next).code ++
        [.callVirtual "update" 1, .pop, .loadUnit] ∧
      (assigned.code =
          (lower f scope (callee.update (arguments ++ [value])) k).code ++ [.pop, .loadUnit] ↔
        arguments = [] ∧ f.CalledByName scope callee) ∧
      ∀ (V S : Type) (P : Primitives V S) (self : V) (c c₁ c₂ : Config V S) (r v w : V) (t : S),
        Evaluates P f.surroundings self k.closures element c r c₁ →
        Evaluates P f.surroundings self (k.closures + element.outerClosures) value c₁ v c₂ →
        P.call "update" r [v] c₂.state = some (w, t) → scope.Allocated k.locals →
        Simulates P f self scope k assigned c [P.constant .unit] { c₂ with state := t } := by
  intro element assigned
  refine ⟨?_, code_assignCall_iff f scope callee arguments value span span' k, ?_⟩
  · have foreign : ∀ name, element ≠ .reference name := by simp [element]
    have member : ∀ receiver name span, element ≠ .select receiver name span := by simp [element]
    exact congrArg Lowered.code (lower_assignValue f scope foreign member value span' k)
  · intro V S P self c c₁ c₂ r v w t read valued updated allocated
    have run := Simulates.assignCall read valued updated allocated
    rw [← lower_assignCall f scope callee arguments value span span'] at run
    exact run

/-! ### An element that is read -/

def Expr.elementAssigned? : Expr → Option (String × String × Nat)
  | .assign (.call (.reference whole) [.reference index] _) (.int value _) _ =>
    some (whole.text, index.text, value)
  | _ => none

theorem Expr.exists_of_elementAssigned? {e : Expr} {found : String × String × Nat}
    (h : e.elementAssigned? = some found) : ∃ callee arguments value span span',
      e = .assign (.call callee arguments span) value span' := by
  revert h
  fun_cases elementAssigned? e with
  | case1 =>
    intro h
    exact ⟨_, _, _, _, _, rfl⟩
  | case2 =>
    intro h
    cases h

theorem lower_parameter {s : Surroundings} {parameters : List String} {name : Ident} {i : Nat}
    (h : parameters.idxOf? name.text = some i) (k : Counters) :
    lower ⟨s, parameters⟩ [] (.reference name) k = .emit [.loadArg (i + 1)] k := by
  rw [lower]
  simp [Frame.load, Frame.argument?, h]

theorem not_callsOwnMethod_parameter {s : Surroundings} {parameters : List String} {name : String}
    {i : Nat} (h : parameters.idxOf? name = some i) (scope : Scope) :
    ¬(Frame.mk s parameters).callsOwnMethod scope name := by
  simp [Frame.callsOwnMethod, Frame.argument?, h]

theorem code_of_elementAssigned? {e : Expr} {value : Nat}
    (h : e.elementAssigned? = some ("a", "i", value)) (s : Surroundings) (k : Counters) :
    (lower ⟨s, ["a", "i"]⟩ [] e k).code =
      [.loadArg 1, .loadArg 2, .callVirtual "apply" 1, .loadInt value, .callVirtual "update" 1,
        .pop, .loadUnit] := by
  revert h
  fun_cases Expr.elementAssigned? e with
  | case1 whole index span value span' span'' =>
    intro h
    simp only [Option.some.injEq, Prod.mk.injEq] at h
    obtain ⟨ha, hi, rfl⟩ := h
    have first : ["a", "i"].idxOf? whole.text = some 0 := by rw [ha]; rfl
    have second : ["a", "i"].idxOf? index.text = some 1 := by rw [hi]; rfl
    have foreign : ∀ name, Expr.reference whole = .reference name →
        ¬(Frame.mk s ["a", "i"]).callsOwnMethod [] name.text := by
      rintro _ ⟨⟩
      exact not_callsOwnMethod_parameter first []
    rw [lower_assignValue _ _ (by simp) (by simp), lower_callValue (by simp) foreign,
      lower_parameter first, lowerList_singleton, lower_parameter second, lower]
    rfl
  | case2 =>
    intro h
    cases h

namespace TypeBlock

theorem mem_list_addMethods (s : Surroundings) (ms : List Method) (rs : Routines) {r : Routine}
    (h : r ∈ rs.list) : r ∈ (ms.foldl (Routines.addMethod s) rs).list := by
  induction ms generalizing rs with
  | nil => exact h
  | cons m ms ih =>
    refine ih _ ?_
    unfold Routines.addMethod
    split <;> exact List.mem_append_left _ h

theorem exists_routine_of_method (t : SymbolTable) (p : Program) (library : String) {d : TypeDef}
    {m : Method} (hm : m ∈ d.methods) {body : Expr} (hbody : m.body = some body) :
    ∃ s first, ⟨m.heading, some (lowerBody s m.piece.parameters body first).1⟩ ∈
      (ofTypeDef t p library d).routines := by
  obtain ⟨before, after, hmethods⟩ := List.append_of_mem hm
  rw [ofTypeDef, routinesOf_eq, writtenRoutines, hmethods, List.foldl_append, List.foldl_cons]
  generalize t.surroundings p library _ = s
  generalize before.foldl (Routines.addMethod s) _ = rs
  refine ⟨s, rs.count, List.mem_append_left _ (mem_list_addMethods s after _ ?_)⟩
  rw [Routines.addMethod, hbody]
  exact List.mem_append_right _ (List.mem_singleton_self _)

end TypeBlock

/-- An assignment to an element of a parameter reads the element, and updates what it has read. -/
theorem element_is_read_and_updated :
    let source := "class A \x7b def f(a: Any, i: Int) = a(i) = 5 \x7d"
    let options : CompilerOptions := { noPrelude := true }
    ∃ p a, Program.ofText .user source = .ok p ∧ analyze [p] = .ok a ∧
      compile options source =
        .ok (.finished options p a.symbols a.diagnostics (startEvents ++ a.events)) ∧
      ∃ d ∈ p.definitions, ∃ m ∈ d.methods, ∃ callee arguments value span span',
        m.body = some (.assign (.call callee arguments span) value span') ∧
        ∃ r ∈ (TypeBlock.ofTypeDef a.symbols p options.build.runtimeLibrary d).routines,
          r.heading = m.heading ∧ r.body.map Body.code = some
            [.loadArg 1, .loadArg 2, .callVirtual "apply" 1, .loadInt 5, .callVirtual "update" 1,
              .pop, .loadUnit, .ret] := by
  intro source options
  have hchecked : (Program.ofText .user source).toOption.map (fun p =>
      (p.definitions.map TypeDef.head, decide (∀ d ∈ p.definitions, d.Independent ∧
        ∃ m ∈ d.methods, m.piece.parameters = ["a", "i"] ∧
          m.body.bind Expr.elementAssigned? = some ("a", "i", 5)))) = some ([("A", [])], true) := by
    decide +kernel
  obtain ⟨p, hp, hfound⟩ := exists_ok_of_toOption hchecked
  obtain ⟨hheads, hmembers⟩ := Prod.mk.inj hfound
  have hmembers := of_decide_eq_true hmembers
  have hnames : ("Any" :: p.definitions.map fun d => d.name.text).Nodup := by
    rw [TypeDef.names_of_heads hheads]
    decide
  obtain ⟨a, ha, hcompiled, -⟩ :=
    exists_compiled_of_independent hp hnames fun d hd => (hmembers d hd).1
  obtain ⟨d, hdefinitions, -⟩ := List.map_eq_singleton_iff.mp hheads
  have hd : d ∈ p.definitions := hdefinitions ▸ List.mem_singleton_self d
  obtain ⟨-, m, hm, hparameters, hbody⟩ := hmembers d hd
  obtain ⟨body, hbody, hassigned⟩ := Option.bind_eq_some_iff.mp hbody
  obtain ⟨callee, arguments, value, span, span', rfl⟩ := Expr.exists_of_elementAssigned? hassigned
  obtain ⟨s, first, hroutine⟩ := TypeBlock.exists_routine_of_method a.symbols p
    options.build.runtimeLibrary hm hbody
  refine ⟨p, a, hp, ha, hcompiled, d, hd, m, hm, callee, arguments, value, span, span', hbody, _,
    hroutine, rfl, ?_⟩
  rw [hparameters, Option.map_some, lowerBody, Lowered.finish, code_of_elementAssigned? hassigned]
  rfl

end Mixin
