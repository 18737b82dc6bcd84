import Mixin.Proofs.Listing.Closures
import Mixin.Proofs.Listing.Names
import Mixin.Proofs.Symbol.Chain

/-!
# Names from around a closure

The body of a closure is lowered with its parameters and its locals as the only bound names.
`BoundAround` says which names are bound around it. Such a name, if it is not bound in the closure
itself, is taken for a field, a method or an object with this name if there is one, and for an
unknown symbol otherwise (`ofProgram_resolves_names`). So where a field has the same name, the field
is loaded in the place of what is bound (`closure_loads_field_behind_parameter`).
-/

namespace Mixin

/-! ### Uses of names -/

/-- What is done with the variable that a name denotes. -/
inductive NameUse where
  | read
  | called
  | assigned
  deriving DecidableEq

def Expr.nameUse? : Expr → Option (NameUse × String)
  | .reference name => some (.read, name.text)
  | .call (.reference name) _ _ => some (.called, name.text)
  | .assign (.reference name) _ _ => some (.assigned, name.text)
  | _ => none

theorem Expr.eq_reference_of_nameUse? {e : Expr} {name : String}
    (h : e.nameUse? = some (.read, name)) : ∃ ident, e = .reference ident ∧ ident.text = name := by
  revert h
  fun_cases nameUse? e with
  | case1 ident =>
    rintro ⟨⟩
    exact ⟨ident, rfl, rfl⟩
  | case2 | case3 | case4 =>
    intro h
    cases h

def Frame.useCode (f : Frame) (scope : Scope) : Expr → List Instr × List Instr
  | .reference name => (f.load scope name.text, [])
  | .call (.reference name) arguments _ =>
    (f.callStart scope name.text,
      [.callVirtual (if f.callsOwnMethod scope name.text then name.text else "apply")
        arguments.length])
  | .assign (.reference name) _ _ =>
    ((f.store scope name.text).1, (f.store scope name.text).2 ++ [.loadUnit])
  | _ => ([], [])

/-- The instructions load, store or call a member with this name: a field or a method of the current
object, or an object. Without those of the arguments, a call comes right behind its receiver. -/
def ReachesMember (code : List Instr) (name : String) : Prop :=
  .loadField name ∈ code ∨ .storeField name ∈ code ∨ .loadInstance name ∈ code ∨
    ∃ arity, [.loadArg 0, .callVirtual name arity] <:+: code

/-- Whether there is a member that can be used so. Only fields are assigned. -/
def Surroundings.HasMember (s : Surroundings) : NameUse → String → Prop
  | .assigned, name => name ∈ s.fields
  | .read, name | .called, name => name ∈ s.fields ∨ name ∈ s.methods ∨ name ∈ s.objects

theorem code_lowerList (f : Frame) (scope : Scope) (es : List Expr) (k : Counters) :
    (lowerList f scope es k).code =
      (occurrencesInList f scope es k).flatMap fun o => (o.lowered f).code := by
  induction es generalizing k with
  | nil =>
    rw [lowerList]
    rfl
  | cons e es ih =>
    rw [lowerList, occurrencesInList, List.flatMap_cons, List.flatMap_map]
    exact congrArg (_ ++ ·) (ih _)

/-- An expression that uses a name consists of its operands and of the instructions for the use. -/
theorem code_of_nameUse? {e : Expr} {use : NameUse} {name : String}
    (h : e.nameUse? = some (use, name)) (f : Frame) (scope : Scope) (k : Counters) :
    (lower f scope e k).code = (f.useCode scope e).1 ++
      (e.operandsAt f scope k).flatMap (fun o => (o.lowered f).code) ++ (f.useCode scope e).2 := by
  revert h
  fun_cases Expr.nameUse? e with
  | case1 name =>
    intro _
    rw [lower]
    simp [Frame.useCode, Expr.operandsAt, Lowered.emit]
  | case2 name arguments =>
    intro _
    rw [lower_call_reference, Expr.operandsAt, List.flatMap_map]
    show _ ++ (lowerList f scope arguments k).code ++ _ = _
    rw [code_lowerList]
    rfl
  | case3 name value =>
    intro _
    rw [lower]
    simp [Frame.useCode, Expr.operandsAt, Lowered.behind, Lowered.andThen, Occurrence.lowered]
  | case4 =>
    intro h
    cases h

theorem ReachesMember.mem {code : List Instr} {name : String} (h : ReachesMember code name) :
    .loadField name ∈ code ∨ .storeField name ∈ code ∨ .loadInstance name ∈ code ∨
      .loadArg 0 ∈ code := by
  rcases h with h | h | h | ⟨arity, h⟩
  · exact .inl h
  · exact .inr (.inl h)
  · exact .inr (.inr (.inl h))
  · exact .inr (.inr (.inr (h.subset List.mem_cons_self)))

theorem reachesMember_method (name : String) (arity : Nat) :
    ReachesMember [.loadArg 0, .callVirtual name arity] name :=
  .inr (.inr (.inr ⟨arity, List.infix_rfl⟩))

section Resolution

variable {f : Frame} {scope : Scope} {e : Expr} {use : NameUse} {name : String}

theorem lookup_eq_none_iff : scope.lookup name = none ↔ name ∉ scope.map (·.1) := by
  rw [List.lookup_eq_none_iff, List.mem_map, not_exists]
  refine forall_congr' fun p => ?_
  rw [not_and, bne_iff_ne]
  exact forall_congr' fun _ => ne_comm

theorem argument?_eq_none_iff : f.argument? name = none ↔ name ∉ f.parameters := by
  rw [Frame.argument?, Option.map_eq_none_iff, List.idxOf?_eq_none_iff]

section Bound

variable (hbound : scope.lookup name ≠ none ∨ f.argument? name ≠ none)
include hbound

theorem load_of_bound :
    (∃ slot, f.load scope name = [.loadLocal slot]) ∨
      ∃ index, f.load scope name = [.loadArg (index + 1)] := by
  rw [Frame.load]
  cases hlocal : scope.lookup name with
  | some slot => exact .inl ⟨slot, rfl⟩
  | none =>
    cases hargument : f.argument? name with
    | none => exact absurd hbound (by simp [hlocal, hargument])
    | some index =>
      obtain ⟨i, -, rfl⟩ := Option.map_eq_some_iff.mp hargument
      exact .inr ⟨i, rfl⟩

theorem store_of_bound :
    (∃ slot, f.store scope name = ([], [.storeLocal slot])) ∨
      ∃ index, f.store scope name = ([], [.storeArg index]) := by
  rw [Frame.store]
  cases hlocal : scope.lookup name with
  | some slot => exact .inl ⟨slot, rfl⟩
  | none =>
    cases hargument : f.argument? name with
    | none => exact absurd hbound (by simp [hlocal, hargument])
    | some index => exact .inr ⟨index, rfl⟩

theorem callsOwnMethod_of_bound : f.callsOwnMethod scope name = false := by
  rw [Frame.callsOwnMethod]
  rcases hbound with hbound | hbound
  · rw [Option.isNone_eq_false_iff.mpr (Option.isSome_iff_ne_none.mpr hbound), Bool.and_false,
      Bool.false_and]
  · rw [Option.isNone_eq_false_iff.mpr (Option.isSome_iff_ne_none.mpr hbound), Bool.and_false]

end Bound

theorem not_reachesMember_of_bound (h : e.nameUse? = some (use, name))
    (hbound : scope.lookup name ≠ none ∨ f.argument? name ≠ none) :
    ¬ ReachesMember ((f.useCode scope e).1 ++ (f.useCode scope e).2) name := by
  revert h
  fun_cases Expr.nameUse? e with
  | case1 name =>
    rintro ⟨⟩ hreaches
    rcases load_of_bound hbound with ⟨slot, hload⟩ | ⟨index, hload⟩ <;>
      simpa [Frame.useCode, hload] using hreaches.mem
  | case2 name arguments =>
    rintro ⟨⟩ hreaches
    have hown := callsOwnMethod_of_bound hbound
    rcases load_of_bound hbound with ⟨slot, hload⟩ | ⟨index, hload⟩ <;>
      simpa [Frame.useCode, Frame.callStart, hown, hload] using hreaches.mem
  | case3 name value =>
    rintro ⟨⟩ hreaches
    rcases store_of_bound hbound with ⟨slot, hstore⟩ | ⟨index, hstore⟩ <;>
      simpa [Frame.useCode, hstore] using hreaches.mem
  | case4 =>
    intro h
    cases h

theorem reachesMember_iff_of_unbound (h : e.nameUse? = some (use, name))
    (hlocal : scope.lookup name = none) (hargument : f.argument? name = none) :
    ReachesMember ((f.useCode scope e).1 ++ (f.useCode scope e).2) name ↔
      f.surroundings.HasMember use name := by
  revert h
  fun_cases Expr.nameUse? e with
  | case1 name =>
    rintro ⟨⟩
    simp only [Frame.useCode, Frame.load, hlocal, hargument, Surroundings.HasMember,
      List.append_nil]
    by_cases hfield : name.text ∈ f.surroundings.fields
    · simp [hfield, ReachesMember]
    by_cases hmethod : name.text ∈ f.surroundings.methods
    · simp [hfield, hmethod, reachesMember_method]
    by_cases hobject : name.text ∈ f.surroundings.objects
    · simp [hfield, hmethod, hobject, ReachesMember]
    · simp only [hfield, hmethod, hobject, if_false, or_self, iff_false]
      exact fun hreaches => by simpa using hreaches.mem
  | case2 name arguments =>
    rintro ⟨⟩
    simp only [Frame.useCode, Frame.callStart, Frame.callsOwnMethod, Frame.load, hlocal, hargument,
      Surroundings.HasMember]
    by_cases hmethod : name.text ∈ f.surroundings.methods
    · simp [hmethod, reachesMember_method]
    by_cases hfield : name.text ∈ f.surroundings.fields
    · simp [hfield, hmethod, ReachesMember]
    by_cases hobject : name.text ∈ f.surroundings.objects
    · simp [hfield, hmethod, hobject, ReachesMember]
    · simp only [hfield, hmethod, hobject, if_false, or_self, iff_false]
      exact fun hreaches => by simpa using hreaches.mem
  | case3 name value =>
    rintro ⟨⟩
    simp only [Frame.useCode, Frame.store, hlocal, hargument, Surroundings.HasMember]
    by_cases hfield : name.text ∈ f.surroundings.fields
    · simp [hfield, ReachesMember]
    · simp only [hfield, if_false, iff_false]
      exact fun hreaches => by simpa using hreaches.mem
  | case4 =>
    intro h
    cases h

end Resolution

/-! ### Names bound around a routine -/

/-- The names that are bound around a routine: none around what is written in a type, and around the
body of a closure those that are bound where the closure is loaded. -/
inductive BoundAround (s : Surroundings) (written : List Piece) (es : List Emission) :
    Emission → List String → Prop where
  | written {e : Emission} (he : e ∈ es.take written.length) : BoundAround s written es e []
  | closure {e e' : Emission} {names : List String} {o : Occurrence} {k : Nat}
    {parameters : List Binder} {body : Expr} {span : Span} (he : e ∈ es)
    (haround : BoundAround s written es e names) (ho : e.Holds s o)
    (hexpr : o.expr = .closure parameters body span)
    (hload : e.code[o.start]? = some (.loadClosure k))
    (he' : (es.drop written.length)[k]? = some e') :
    BoundAround s written es e' (o.scope.map (·.1) ++ e.piece.parameters ++ names)

namespace Emitted

variable {s : Surroundings} {written : List Piece} {es : List Emission} {routines : List Routine}

theorem length_drop (h : Emitted s written es routines) :
    (es.drop written.length).length = (es.flatMap (·.found)).length := by
  have hlength := congrArg List.length h.pieces
  rw [List.length_map, List.length_append, List.length_mapIdx] at hlength
  rw [List.length_drop]
  omega

theorem exists_boundAround (h : Emitted s written es routines) {e : Emission} (he : e ∈ es) :
    ∃ names, BoundAround s written es e names := by
  rw [← List.take_append_drop written.length es, List.mem_append] at he
  rcases he with he | he
  · exact ⟨[], .written he⟩
  · -- A closure is loaded in a written routine, or in that of a closure with a lower number.
    obtain ⟨k, hk⟩ := List.mem_iff_getElem?.mp he
    clear he
    induction k using Nat.strongRecOn generalizing e with
    | ind k ih =>
      have hlt : k < (es.flatMap (·.found)).length := by
        rw [← h.length_drop]
        exact (List.getElem?_eq_some_iff.mp hk).1
      obtain ⟨outer, houter, o, span, ho, hexpr, hload⟩ :=
        h.found_iff.mp (List.getElem?_eq_getElem hlt)
      have haround : ∃ names, BoundAround s written es outer names := by
        have hmem := houter
        rw [← List.take_append_drop written.length es, List.mem_append] at hmem
        rcases hmem with hmem | hmem
        · exact ⟨[], .written hmem⟩
        · obtain ⟨j, hj⟩ := List.mem_iff_getElem?.mp hmem
          refine ih j ?_ hj
          have hfirst := h.ahead j outer hj
          obtain ⟨hload', i, hnumber, -⟩ := (h.made outer houter).closure_of_holds ho hexpr
          rw [hload'] at hload
          cases hload
          omega
      obtain ⟨names, haround⟩ := haround
      exact ⟨_, .closure houter haround ho hexpr hload hk⟩

end Emitted

/-! ### Names in the routines of a type -/

/-- What becomes of the names that are used in the routines made of what is written in a type. -/
structure ResolvesNames (s : Surroundings) (written : List Piece) (es : List Emission)
    (routines : List Routine) : Prop where
  emitted : Emitted s written es routines
  around : ∀ e ∈ es, ∃ names, BoundAround s written es e names
  /-- The instructions for the use of a name stand in the body, around those of the operands. -/
  stands : ∀ e ∈ es, ∀ o use name, e.Holds s o → o.expr.nameUse? = some (use, name) →
    StandsAt e.code o.start (((e.frame s).useCode o.scope o.expr).1 ++
      (o.expr.operandsAt (e.frame s) o.scope o.counters).flatMap
        (fun p => (p.lowered (e.frame s)).code) ++ ((e.frame s).useCode o.scope o.expr).2)
  /-- What is bound in the body itself is not taken for a member. -/
  bound : ∀ e ∈ es, ∀ o use name, e.Holds s o → o.expr.nameUse? = some (use, name) →
    (name ∈ o.scope.map (·.1) ∨ name ∈ e.piece.parameters) →
    ¬ ReachesMember (((e.frame s).useCode o.scope o.expr).1 ++
      ((e.frame s).useCode o.scope o.expr).2) name
  /-- What is bound around it is taken for a member if there is one. -/
  captured : ∀ e ∈ es, ∀ names, BoundAround s written es e names →
    ∀ o use name, e.Holds s o → o.expr.nameUse? = some (use, name) →
      name ∉ o.scope.map (·.1) → name ∉ e.piece.parameters → name ∈ names →
      (ReachesMember (((e.frame s).useCode o.scope o.expr).1 ++
        ((e.frame s).useCode o.scope o.expr).2) name ↔ s.HasMember use name)

theorem Emitted.resolvesNames {s : Surroundings} {written : List Piece} {es : List Emission}
    {routines : List Routine} (h : Emitted s written es routines) :
    ResolvesNames s written es routines where
  emitted := h
  around := fun e he => h.exists_boundAround he
  stands := by
    intro e he o use name ho huse
    obtain ⟨root, hroot, hwithin⟩ := ho
    have hstands := hwithin.stands ((h.made e he).stands hroot)
    rwa [Occurrence.lowered, code_of_nameUse? huse] at hstands
  bound := by
    intro e he o use name ho huse hbound
    refine not_reachesMember_of_bound huse ?_
    rcases hbound with hbound | hbound
    · exact .inl fun hnone => lookup_eq_none_iff.mp hnone hbound
    · exact .inr fun hnone => argument?_eq_none_iff.mp hnone hbound
  captured := by
    intro e he names haround o use name ho huse hlocal hargument hname
    exact reachesMember_iff_of_unbound huse (lookup_eq_none_iff.mpr hlocal)
      (argument?_eq_none_iff.mpr hargument)

/-- In the listing of a program, a name that is bound around a closure is taken for a member of the
type exactly if the type has one with this name. -/
theorem Assembly.ofProgram_resolves_names (p : Program) (t : SymbolTable)
    (options : BuildOptions) :
    List.Forall₂ (fun d block =>
        let id := (t.lookup? d.name.text).getD .root
        let s := t.surroundings p options.runtimeLibrary id
        ∃ es, ResolvesNames s (TypeBlock.writtenPieces t d (t.classInfo id)) es block.routines)
      p.definitions (ofProgram p t options).blocks := by
  rw [ofProgram, List.forall₂_map_right_iff, List.forall₂_same]
  intro d hd
  obtain ⟨es, hemitted⟩ := TypeBlock.emitted_routinesOf t _ d _
  exact ⟨es, hemitted.resolvesNames⟩

/-! ### A field in place of a parameter -/

def Expr.closure? : Expr → Option Lambda
  | .closure parameters body _ => some ⟨parameters, body⟩
  | _ => none

theorem Expr.exists_of_closure? {e : Expr} {l : Lambda} (h : e.closure? = some l) :
    ∃ span, e = .closure l.parameters l.body span := by
  revert h
  fun_cases closure? e with
  | case1 parameters body span =>
    rintro ⟨⟩
    exact ⟨span, rfl⟩
  | case2 =>
    intro h
    cases h

theorem Emitted.exists_closure_of_written {s : Surroundings} {written : List Piece}
    {es : List Emission} {routines : List Routine} (h : Emitted s written es routines)
    {piece : Piece} (hpiece : piece ∈ written) {l : Lambda} {span : Span}
    (hexprs : piece.exprs = some [.closure l.parameters l.body span]) :
    ∃ e ∈ es, BoundAround s written es e piece.parameters ∧ ∃ heading first,
      e = .ofExpr s heading (l.parameters.map fun p => p.name.text) l.body first := by
  rw [← h.pieces_take] at hpiece
  obtain ⟨e, he, rfl⟩ := List.mem_map.mp hpiece
  have hmem := List.mem_of_mem_take he
  obtain ⟨root, hroot, hroots⟩ : ∃ root ∈ e.roots, root.expr = .closure l.parameters l.body span ∧
      root.scope = [] := by
    cases h.made e hmem with
    | bodiless => cases hexprs
    | body heading hscope hconsists =>
      obtain ⟨root, hroots, hexpr⟩ := List.map_eq_singleton_iff.mp (Option.some.inj hexprs)
      have hroot := hroots ▸ List.mem_singleton_self root
      exact ⟨root, hroot, hexpr, hscope root hroot⟩
  have ho : e.Holds s root := ⟨root, hroot, .refl⟩
  obtain ⟨hload, -⟩ := (h.made e hmem).closure_of_holds ho hroots.1
  have hfound := h.found_iff.mpr ⟨e, hmem, root, span, ho, hroots.1, hload⟩
  obtain ⟨first, hfirst⟩ := h.exists_getElem? hfound
  have haround := BoundAround.closure hmem (.written he) ho hroots.1 hload hfirst
  rw [hroots.2, List.map_nil, List.nil_append, List.append_nil] at haround
  exact ⟨_, List.mem_of_mem_drop (List.mem_of_getElem? hfirst), haround, _, first, rfl⟩

theorem Analysis.Represents.mem_fields {a : Analysis} {d : TypeDef} {id : ClassId}
    (h : a.Represents d id) (hid : id ∈ a.symbols.classIds) {f : Field} (hf : f ∈ d.fields)
    (p : Program) (library : String) :
    f.name.text ∈ (a.symbols.surroundings p library id).fields := by
  refine List.mem_flatMap.mpr ⟨id, ?_, ?_⟩
  · exact List.mem_of_mem_head? (SymbolTable.isChain_chain hid).first
  · rw [SymbolTable.fieldNames_eq_filterMap, h.infos, List.mem_filterMap]
    obtain ⟨m, hm, hfield⟩ := List.mem_filterMap.mp hf
    refine ⟨(Declaration.member m).info id, List.mem_map_of_mem ?_, ?_⟩
    · exact List.mem_append_right _ (List.mem_map_of_mem hm)
    · cases m with
      | field g =>
        cases hfield
        rfl
      | method => cases hfield

theorem code_ofExpr_reference {s : Surroundings} {ident : Ident} (h : ident.text ∈ s.fields)
    (heading : String) (first : Nat) :
    (Emission.ofExpr s heading [] (.reference ident) first).code =
      [.loadArg 0, .loadField ident.text, .ret] := by
  have hload : Frame.load ⟨s, []⟩ [] ident.text = [.loadArg 0, .loadField ident.text] := by
    simp [Frame.load, Frame.argument?, h]
  show (lower ⟨s, []⟩ [] (.reference ident) (.start first)).code ++ [.ret] = _
  rw [lower, hload]
  rfl

/-- Where nothing is inherited, a program is compiled to the end, and what is known of its types is
what its definitions say. -/
theorem exists_compiled_of_independent {source : String} {p : Program}
    (hp : Program.ofText .user source = .ok p)
    (hnames : ("Any" :: p.definitions.map fun d => d.name.text).Nodup)
    (hindependent : ∀ d ∈ p.definitions, d.Independent) :
    let options : CompilerOptions := { noPrelude := true }
    ∃ a, analyze [p] = .ok a ∧
      compile options source =
        .ok (.finished options p a.symbols a.diagnostics (startEvents ++ a.events)) ∧
      Analysis.Represented p.definitions a := by
  intro options
  have hwell : WellFormed ([p].flatMap (·.definitions)) := by
    rw [List.flatMap_singleton]
    exact wellFormed_of_independent hnames hindependent
  have hfiles := nodup_files_sourceTexts true source
  have hparsed : parseAll (sourceTexts true source) = .ok [p] := parseAll_sourceTexts true hp
  obtain ⟨a, ha, hharmless⟩ := harmless_analyze_iff hfiles hparsed
  have hcompiled : compile options source = _ := compile_eq_of_ok hparsed ha
  rw [any_isError_eq_false_iff.mpr (hharmless.mpr hwell)] at hcompiled
  have hrepresented := represented_of_wellFormed hfiles hparsed ha hwell
  rw [List.flatMap_singleton] at hrepresented
  exact ⟨a, ha, hcompiled, hrepresented⟩

/-- Inside a closure that returns the parameter of a method, a field with the same name is loaded
instead. -/
theorem closure_loads_field_behind_parameter :
    let source := "class A \x7b val x = 1; def f(x: Int) = () => x \x7d"
    let options : CompilerOptions := { noPrelude := true }
    ∃ p a, Program.ofText .user source = .ok p ∧ analyze [p] = .ok a ∧
      compile options source =
        .ok (.finished options p a.symbols a.diagnostics (startEvents ++ a.events)) ∧
      ∃ d ∈ p.definitions,
        let library := options.build.runtimeLibrary
        let id := (a.symbols.lookup? d.name.text).getD .root
        let s := a.symbols.surroundings p library id
        let written := TypeBlock.writtenPieces a.symbols d (a.symbols.classInfo id)
        ∃ es, Emitted s written es (TypeBlock.ofTypeDef a.symbols p library d).routines ∧
          ∃ e ∈ es, ∃ names o, BoundAround s written es e names ∧ e.Holds s o ∧
            o.expr.nameUse? = some (.read, "x") ∧ "x" ∉ o.scope.map (·.1) ∧
            "x" ∉ e.piece.parameters ∧ "x" ∈ names ∧
            e.code = [.loadArg 0, .loadField "x", .ret] := by
  intro source options
  have hchecked : (Program.ofText .user source).toOption.map (fun p =>
      (p.definitions.map TypeDef.head, decide (∀ d ∈ p.definitions, d.Independent ∧
        (∃ f ∈ d.fields, f.name.text = "x") ∧ ∃ m ∈ d.methods, m.piece.parameters = ["x"] ∧
          (m.body.bind Expr.closure?).map (fun l => (l.parameters.length, l.body.nameUse?)) =
            some (0, some (.read, "x"))))) = some ([("A", [])], true) := by
    decide +kernel
  obtain ⟨p, hp, hfound⟩ := exists_ok_of_toOption hchecked
  obtain ⟨hheads, hmembers⟩ := Prod.mk.inj hfound
  have hmembers := of_decide_eq_true hmembers
  have hnames : ("Any" :: p.definitions.map fun d => d.name.text).Nodup := by
    rw [TypeDef.names_of_heads hheads]
    decide
  obtain ⟨a, ha, hcompiled, hrepresented⟩ :=
    exists_compiled_of_independent hp hnames fun d hd => (hmembers d hd).1
  have hdistinct : a.symbols.names.Nodup := hrepresented.names ▸ hnames
  obtain ⟨d, hdefinitions, -⟩ := List.map_eq_singleton_iff.mp hheads
  have hd : d ∈ p.definitions := hdefinitions ▸ List.mem_singleton_self d
  obtain ⟨id, hid, hrepresents⟩ := hrepresented.exists_lookup? hdistinct hd
  have hknown := ((SymbolTable.lookup?_eq_some_iff hdistinct).mp hid).1
  obtain ⟨-, ⟨field, hfield, hx⟩, m, hm, hparameters, hbody⟩ := hmembers d hd
  obtain ⟨l, hl, huse⟩ := Option.map_eq_some_iff.mp hbody
  obtain ⟨hnone, huse⟩ := Prod.mk.inj huse
  obtain ⟨body, hbody, hclosure⟩ := Option.bind_eq_some_iff.mp hl
  obtain ⟨span, rfl⟩ := Expr.exists_of_closure? hclosure
  obtain ⟨ident, hreference, hident⟩ := Expr.eq_reference_of_nameUse? huse
  refine ⟨p, a, hp, ha, hcompiled, d, hd, ?_⟩
  dsimp only
  rw [TypeBlock.ofTypeDef, hid, Option.getD_some]
  obtain ⟨es, hemitted⟩ := TypeBlock.emitted_routinesOf a.symbols
    (a.symbols.surroundings p options.build.runtimeLibrary id) d (a.symbols.classInfo id)
  have hpiece : m.piece ∈ TypeBlock.writtenPieces a.symbols d (a.symbols.classInfo id) :=
    List.mem_append_right _ (List.mem_map_of_mem hm)
  have hexprs : m.piece.exprs = some [.closure l.parameters l.body span] := by
    rw [Method.piece, hbody]
    rfl
  obtain ⟨e, he, haround, heading, first, rfl⟩ :=
    hemitted.exists_closure_of_written hpiece hexprs
  refine ⟨es, hemitted, _, he, _, ⟨0, [], l.body, .start first⟩, haround,
    ⟨_, List.mem_singleton_self _, .refl⟩, huse, List.not_mem_nil, ?_, ?_, ?_⟩
  · show "x" ∉ l.parameters.map fun p => p.name.text
    rw [List.eq_nil_of_length_eq_zero hnone]
    exact List.not_mem_nil
  · rw [hparameters]
    exact List.mem_singleton_self "x"
  · have hmember := hrepresents.mem_fields hknown hfield p options.build.runtimeLibrary
    rw [hx, ← hident] at hmember
    rw [List.eq_nil_of_length_eq_zero hnone, hreference, List.map_nil,
      code_ofExpr_reference hmember, hident]

end Mixin
