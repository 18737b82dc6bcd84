import Mixin.Listing.Assembly
import Mixin.Proofs.Analysis.Agreement

/-!
# Listings do not depend on places

A program and a symbol table without their places have the listing that they have with them
(`Assembly.ofProgram_unplaced`).
-/

namespace Mixin

/-! ### Instructions -/

def Lambda.unplaced (l : Lambda) : Lambda := ⟨l.parameters.map Binder.unplaced, l.body.unplaced⟩

namespace Lowered

def unplaced (a : Lowered) : Lowered := { a with closures := a.closures.map Lambda.unplaced }

@[simp] theorem next_unplaced (a : Lowered) : a.unplaced.next = a.next := rfl

@[simp] theorem emit_unplaced (code : List Instr) (k : Counters) :
    (emit code k).unplaced = emit code k := rfl

@[simp] theorem append_unplaced (a b : Lowered) :
    (a.append b).unplaced = a.unplaced.append b.unplaced := by
  simp [append, unplaced]

@[simp] theorem andThen_unplaced (a : Lowered) (code : List Instr) :
    (a.andThen code).unplaced = a.unplaced.andThen code := rfl

@[simp] theorem behind_unplaced (code : List Instr) (a : Lowered) :
    (behind code a).unplaced = behind code a.unplaced := rfl

@[simp] theorem next_andThen (a : Lowered) (code : List Instr) :
    (a.andThen code).next = a.next := rfl

@[simp] theorem next_append (a b : Lowered) : (a.append b).next = b.next := rfl

@[simp] theorem next_behind (code : List Instr) (a : Lowered) : (behind code a).next = a.next := rfl

end Lowered

theorem Expr.unplaced_ne_select {e : Expr}
    (h : ∀ receiver name span, e ≠ .select receiver name span) :
    ∀ receiver name span, e.unplaced ≠ .select receiver name span := by
  cases e <;> simp_all [unplaced]

theorem Expr.unplaced_ne_reference {e : Expr} (h : ∀ name, e ≠ .reference name) :
    ∀ name, e.unplaced ≠ .reference name := by
  cases e <;> simp_all [unplaced]

theorem lower_unplaced_all (f : Frame) :
    (∀ scope e k, lower f scope e.unplaced k = (lower f scope e k).unplaced) ∧
    (∀ scope ss k, lowerStatements f scope (ss.map Stmt.unplaced) k =
      (lowerStatements f scope ss k).unplaced) ∧
    (∀ scope es k, lowerList f scope (es.map Expr.unplaced) k =
      (lowerList f scope es k).unplaced) := by
  refine lower.mutual_induct f _ _ _ ?int ?float ?bool ?char ?string ?null ?unit ?this ?reference
    ?select ?callMember ?callName ?callValue ?create ?unary ?binary ?assignName ?assignMember
    ?assignOther ?ifThen ?ifElse ?loop ?closure ?block ?nil ?cons ?empty ?last ?eval ?define
  case int | float | bool | char | string | null | unit | this | reference =>
    intros
    simp only [Expr.unplaced, lower, Lowered.emit_unplaced, Ident.unplaced]
  case select =>
    intro scope receiver name span k ih
    simp only [Expr.unplaced, lower, ih, Lowered.andThen_unplaced, Ident.unplaced]
  case callMember =>
    intro scope receiver name span arguments span' k target ih ih'
    simp only [target] at ih ih'
    simp [Expr.unplaced, lower, ih, ih', Ident.unplaced]
  case callName =>
    intro scope name arguments span k start method chosen ih
    simp [Expr.unplaced, lower, ih, Ident.unplaced]
  case callValue =>
    intro scope callee arguments span k member name target ih ih'
    simp only [target] at ih ih'
    rw [Expr.unplaced, lower, lower]
    · simp [ih, ih']
    · exact member
    · exact name
    · exact Expr.unplaced_ne_select member
    · exact Expr.unplaced_ne_reference name
  case create =>
    intro scope type arguments span k ih
    simp [Expr.unplaced, lower, ih, Ident.unplaced, NamedType.unplaced]
  case unary =>
    intro scope operator operand span k ih
    simp [Expr.unplaced, lower, ih, Ident.unplaced]
  case binary =>
    intro scope operator lhs rhs span k left ih ih'
    simp only [left] at ih ih'
    simp [Expr.unplaced, lower, ih, ih', Ident.unplaced]
  case assignName =>
    intro scope name value span k before after stored ih
    simp [Expr.unplaced, lower, ih, Ident.unplaced]
  case assignMember =>
    intro scope receiver name span value span' k target ih ih'
    simp only [target] at ih ih'
    simp [Expr.unplaced, lower, ih, ih', Ident.unplaced]
  case assignOther =>
    intro scope target value span k name member updated ih ih'
    simp only [updated] at ih ih'
    rw [Expr.unplaced, lower, lower]
    · simp [ih, ih']
    · exact name
    · exact member
    · exact Expr.unplaced_ne_reference name
    · exact Expr.unplaced_ne_select member
  case ifThen =>
    intro scope condition consequent span k test ih ih'
    simp only [test] at ih ih'
    simp_all [Expr.unplaced, lower]
  case ifElse =>
    intro scope condition consequent alternative span k test chosen ih ih' ih''
    simp only [chosen, test] at ih ih' ih''
    simp_all [Expr.unplaced, lower]
  case loop =>
    intro scope condition body span k test ih ih'
    simp only [test] at ih ih'
    simp_all [Expr.unplaced, lower]
  case closure =>
    intro scope parameters body span k
    simp [Expr.unplaced, lower, Lowered.unplaced, Lambda.unplaced]
  case block =>
    intro scope statements span k ih
    simp [Expr.unplaced, lower, ih]
  case nil =>
    intro scope k
    simp [lowerList]
  case cons =>
    intro scope e rest k first ih ih'
    simp only [first] at ih ih'
    simp [lowerList, ih, ih']
  case empty =>
    intro scope k
    simp [lowerStatements]
  case last =>
    intro scope e k ih
    simp [lowerStatements, Stmt.unplaced, ih]
  case eval =>
    intro scope e rest k more first ih ih'
    simp only [first] at ih ih'
    rw [List.map_cons, Stmt.unplaced, lowerStatements, lowerStatements]
    · simp_all
    · exact more
    · exact fun hnil => more (List.map_eq_nil_iff.mp hnil)
  case define =>
    intro scope binding name type initializer span rest k first slot ih ih'
    simp only [slot, first] at ih ih'
    simp [lowerStatements, Stmt.unplaced, ih, ih', Ident.unplaced]

theorem lower_unplaced (f : Frame) (scope : Scope) (e : Expr) (k : Counters) :
    lower f scope e.unplaced k = (lower f scope e k).unplaced :=
  (lower_unplaced_all f).1 scope e k

theorem lowerList_unplaced (f : Frame) (scope : Scope) (es : List Expr) (k : Counters) :
    lowerList f scope (es.map Expr.unplaced) k = (lowerList f scope es k).unplaced :=
  (lower_unplaced_all f).2.2 scope es k

/-! ### Routines -/

def unplacedBody (body : Body × List Lambda) : Body × List Lambda :=
  (body.1, body.2.map Lambda.unplaced)

theorem lowerBody_unplaced (s : Surroundings) (parameters : List String) (e : Expr) (n : Nat) :
    lowerBody s parameters e.unplaced n = unplacedBody (lowerBody s parameters e n) := by
  rw [lowerBody, lower_unplaced]
  rfl

theorem Routine.parameterText_unplaced (ps : List (String × Option TypeExpr)) :
    parameterText (ps.map fun p => (p.1, p.2.map TypeExpr.unplaced)) = parameterText ps := by
  simp [parameterText, Function.comp_def]

theorem Lambda.heading_unplaced (l : Lambda) (index : Nat) :
    l.unplaced.heading index = l.heading index := by
  have hparameters : (l.unplaced.parameters.map fun p => (p.name.text, p.type)) =
      (l.parameters.map fun p => (p.name.text, p.type)).map fun p =>
        (p.1, p.2.map TypeExpr.unplaced) := by
    simp [unplaced, Binder.unplaced, Ident.unplaced, Function.comp_def]
  unfold heading
  rw [hparameters, Routine.parameterText_unplaced]

theorem closureRoutines_unplaced (s : Surroundings) (index count : Nat) (pending : List Lambda) :
    closureRoutines s index count (pending.map Lambda.unplaced) =
      closureRoutines s index count pending := by
  induction hn : lambdaSizes pending using Nat.strongRecOn generalizing index count pending with
  | ind n ih =>
    subst hn
    cases pending with
    | nil => rfl
    | cons l rest =>
      have hnames : (l.unplaced.parameters.map fun p => p.name.text) =
          l.parameters.map fun p => p.name.text := by
        simp [Lambda.unplaced, Binder.unplaced, Ident.unplaced, Function.comp_def]
      have hbody : l.unplaced.body = l.body.unplaced := rfl
      let body := lowerBody s (l.parameters.map fun p => p.name.text) l.body count
      have hless : lambdaSizes (rest ++ body.2) < lambdaSizes (l :: rest) := by
        simp only [body, lambdaSizes_append, lambdaSizes_cons, lambdaSizes_lowerBody]
        omega
      have hrest := ih _ hless (index + 1) (count + body.2.length) _ rfl
      rw [List.map_append] at hrest
      rw [List.map_cons, closureRoutines, closureRoutines]
      simp only [hnames, hbody, lowerBody_unplaced, Lambda.heading_unplaced, unplacedBody,
        List.length_map]
      rw [hrest]

@[simp] theorem ModifierList.visibility_unplaced (ms : ModifierList) :
    ms.unplaced.visibility = ms.visibility := by
  simp [visibility]

theorem Parameter.headings_unplaced (ps : List Parameter) :
    Routine.parameterText ((ps.map Parameter.unplaced).map heading) =
      Routine.parameterText (ps.map heading) := by
  have hmap : (ps.map Parameter.unplaced).map heading =
      (ps.map heading).map fun p => (p.1, p.2.map TypeExpr.unplaced) := by
    rw [List.map_map, List.map_map]
    rfl
  rw [hmap, Routine.parameterText_unplaced]

theorem Method.heading_unplaced (m : Method) : m.unplaced.heading = m.heading := by
  rw [heading, heading, parameters_unplaced, isAbstract_unplaced, Parameter.headings_unplaced]
  simp [unplaced, Ident.unplaced]

namespace Routines

def unplaced (rs : Routines) : Routines := { rs with closures := rs.closures.map Lambda.unplaced }

theorem add_unplaced (rs : Routines) (heading : String) (body : Body × List Lambda) :
    rs.unplaced.add heading (unplacedBody body) = (rs.add heading body).unplaced := by
  simp [add, unplaced, unplacedBody]

theorem addMethod_unplaced (s : Surroundings) (rs : Routines) (m : Method) :
    addMethod s rs.unplaced m.unplaced = (addMethod s rs m).unplaced := by
  have hnames : (m.unplaced.parameters.map fun p => p.name.text) =
      m.parameters.map fun p => p.name.text := by
    simp [Parameter.unplaced, Ident.unplaced, Function.comp_def]
  have hbody : m.unplaced.body = m.body.map Expr.unplaced := rfl
  simp only [addMethod, hnames, hbody, Method.heading_unplaced]
  cases m.body with
  | none => rfl
  | some body =>
    have hlowered := lowerBody_unplaced s (m.parameters.map fun p => p.name.text) body rs.count
    simp only [Option.map_some]
    rw [← add_unplaced, ← hlowered]
    rfl

theorem foldl_addMethod_unplaced (s : Surroundings) (ms : List Method) (rs : Routines) :
    (ms.map Method.unplaced).foldl (addMethod s) rs.unplaced =
      (ms.foldl (addMethod s) rs).unplaced := by
  induction ms generalizing rs with
  | nil => rfl
  | cons m ms ih => rw [List.map_cons, List.foldl_cons, addMethod_unplaced, ih, List.foldl_cons]

end Routines

/-! ### Blocks -/

theorem ClassInfo.isRuntime_unplaced (c : ClassInfo) : c.unplaced.isRuntime = c.isRuntime := by
  have hsite : c.unplaced.site = c.site.map Span.fileOnly := rfl
  rw [isRuntime, isRuntime, hsite]
  cases c.site <;> rfl

namespace SymbolTable

theorem qualifiedName_unplaced (t : SymbolTable) (library : String) :
    t.unplaced.qualifiedName library = t.qualifiedName library := by
  funext id
  simp only [qualifiedName, classInfo_unplaced, ClassInfo.isRuntime_unplaced]
  rfl

theorem surroundings_unplaced (t : SymbolTable) (p : Program) (library : String) (id : ClassId) :
    t.unplaced.surroundings p.unplaced library id = t.surroundings p library id := by
  have hfields : ((t.chain id).flatMap fun c =>
      (t.unplaced.classInfo c).fields.map fun f => (t.unplaced.fieldInfo f).name) =
        (t.chain id).flatMap fun c => (t.classInfo c).fields.map fun f => (t.fieldInfo f).name := by
    simp only [classInfo_unplaced, fieldInfo_unplaced]
    rfl
  have hmethods : ((t.chainMethods id).map fun m => (t.unplaced.methodInfo m).name) =
      (t.chainMethods id).map fun m => (t.methodInfo m).name := by
    simp only [methodInfo_unplaced]
    rfl
  have hobjects : ((p.unplaced.definitions.filter fun d => d.kind == .object).map
      fun d => d.name.text) =
        (p.definitions.filter fun d => d.kind == .object).map fun d => d.name.text := by
    rw [Program.unplaced, List.filter_map, List.map_map]
    rfl
  have htypes : t.unplaced.runtimeTypes = t.runtimeTypes := by
    simp only [runtimeTypes, unplaced, Array.toList_map, List.filter_map, List.map_map,
      Function.comp_def, ClassInfo.isRuntime_unplaced]
    rfl
  simp only [surroundings, chain_unplaced, chainMethods_unplaced, hfields, hmethods, hobjects,
    htypes]

end SymbolTable

namespace TypeBlock

theorem headingOf_unplaced (t : SymbolTable) (library : String) (c : ClassInfo) :
    headingOf t.unplaced library c.unplaced = headingOf t library c := by
  have hattributes : attributes c.unplaced = attributes c := rfl
  have hname : c.unplaced.name = c.name := rfl
  have hkind : c.unplaced.kind = c.kind := rfl
  have hparameters : c.unplaced.typeParameters = c.typeParameters := rfl
  have hsuperclass : c.unplaced.superclass = c.superclass := rfl
  have htraits : c.unplaced.traits = c.traits := rfl
  unfold headingOf
  rw [SymbolTable.qualifiedName_unplaced, hattributes, hname, hkind, hparameters, hsuperclass,
    htraits]

theorem fieldLine_unplaced (ms : ModifierList) (binding : Binding) (name : String)
    (type : Option TypeExpr) :
    fieldLine ms.unplaced binding name (type.map TypeExpr.unplaced) =
      fieldLine ms binding name type := by
  unfold fieldLine
  rw [MethodInfo.annotated_unplaced, ModifierList.visibility_unplaced]

theorem fieldLines_unplaced (d : TypeDef) : fieldLines d.unplaced = fieldLines d := by
  rw [fieldLines, fieldLines, TypeDef.fields_unplaced, List.map_map, TypeDef.unplaced,
    List.filterMap_map]
  refine congrArg₂ _ (List.filterMap_congr fun p _ => ?_) (List.map_congr_left fun f _ => ?_)
  · refine Option.map_congr fun binding _ => ?_
    exact fieldLine_unplaced p.modifiers binding p.name.text (some p.type)
  · exact fieldLine_unplaced f.modifiers f.binding f.name.text f.type

theorem superArguments_unplaced (d : TypeDef) (superclass : String) :
    superArguments d.unplaced superclass = (superArguments d superclass).map Expr.unplaced := by
  have hfind : (d.parents.map Parent.unplaced).find? (fun p => p.type.name.text == superclass) =
      (d.parents.find? fun p => p.type.name.text == superclass).map Parent.unplaced := by
    rw [List.find?_map]
    rfl
  rw [superArguments, superArguments, TypeDef.unplaced, hfind]
  cases d.parents.find? fun p => p.type.name.text == superclass <;> rfl

theorem storeInitial_unplaced (f : Frame) (k : Counters) (field : Field) :
    storeInitial f k field.unplaced = (storeInitial f k field).unplaced := by
  have hinitializer : field.unplaced.initializer = field.initializer.unplaced := rfl
  have hname : field.unplaced.name.text = field.name.text := rfl
  simp only [storeInitial, hinitializer, hname]
  cases field.initializer with
  | given value => simp only [Initializer.unplaced, lower_unplaced]; rfl
  | omitted span => rfl

theorem foldl_storeInitial_unplaced (f : Frame) (fields : List Field) (a : Lowered) :
    (fields.map Field.unplaced).foldl (fun a field => a.append (storeInitial f a.next field))
        a.unplaced =
      (fields.foldl (fun a field => a.append (storeInitial f a.next field)) a).unplaced := by
  induction fields generalizing a with
  | nil => rfl
  | cons field fields ih =>
    rw [List.map_cons, List.foldl_cons, List.foldl_cons, storeInitial_unplaced,
      Lowered.next_unplaced, ← Lowered.append_unplaced, ih]

theorem constructorBody_unplaced (t : SymbolTable) (s : Surroundings) (d : TypeDef)
    (superclass : ClassId) (n : Nat) :
    constructorBody t.unplaced s d.unplaced superclass n =
      unplacedBody (constructorBody t s d superclass n) := by
  have hnames : (d.unplaced.parameters.map fun p => p.name.text) =
      d.parameters.map fun p => p.name.text := by
    simp [TypeDef.unplaced, Parameter.unplaced, Ident.unplaced, Function.comp_def]
  have hname : (t.unplaced.classInfo superclass).name = (t.classInfo superclass).name := by
    rw [SymbolTable.classInfo_unplaced]
    rfl
  have hstores (f : Frame) : d.unplaced.parameters.flatMap (storeParameter f) =
      d.parameters.flatMap (storeParameter f) := by
    rw [TypeDef.unplaced, List.flatMap_map]
    rfl
  simp only [constructorBody, hnames, hname, hstores, superArguments_unplaced, List.length_map,
    lowerList_unplaced, SymbolTable.qualifiedName_unplaced, TypeDef.fields_unplaced]
  rw [← Lowered.behind_unplaced, ← Lowered.andThen_unplaced, ← Lowered.andThen_unplaced,
    foldl_storeInitial_unplaced]
  rfl

theorem constructorHeading_unplaced (d : TypeDef) :
    constructorHeading d.unplaced = constructorHeading d := by
  unfold constructorHeading
  exact congrArg _ (Parameter.headings_unplaced d.parameters)

theorem routinesOf_unplaced (t : SymbolTable) (s : Surroundings) (d : TypeDef) (c : ClassInfo) :
    routinesOf t.unplaced s d.unplaced c.unplaced = routinesOf t s d c := by
  let constructed : Routines :=
    if c.kind = .trait then ⟨[], [], 0⟩
    else
      (⟨[], [], 0⟩ : Routines).add (constructorHeading d)
        (constructorBody t s d (c.superclass.getD .root) 0)
  have hconstructed : (if c.unplaced.kind = .trait then ⟨[], [], 0⟩
      else
        (⟨[], [], 0⟩ : Routines).add (constructorHeading d.unplaced)
          (constructorBody t.unplaced s d.unplaced (c.unplaced.superclass.getD .root) 0)) =
        constructed.unplaced := by
    have hkind : c.unplaced.kind = c.kind := rfl
    have hsuperclass : c.unplaced.superclass = c.superclass := rfl
    simp only [hkind, hsuperclass, constructorHeading_unplaced, constructorBody_unplaced,
      constructed]
    split
    · rfl
    · exact Routines.add_unplaced ⟨[], [], 0⟩ _ _
  simp only [routinesOf, hconstructed, TypeDef.methods_unplaced,
    Routines.foldl_addMethod_unplaced]
  exact congrArg _ (closureRoutines_unplaced ..)

theorem ofTypeDef_unplaced (t : SymbolTable) (p : Program) (library : String) (d : TypeDef) :
    ofTypeDef t.unplaced p.unplaced library d.unplaced = ofTypeDef t p library d := by
  have hname : d.unplaced.name.text = d.name.text := rfl
  simp only [ofTypeDef, hname, SymbolTable.lookup?_unplaced, SymbolTable.classInfo_unplaced,
    headingOf_unplaced, fieldLines_unplaced, SymbolTable.surroundings_unplaced, routinesOf_unplaced]

end TypeBlock

theorem Assembly.ofProgram_unplaced (p : Program) (t : SymbolTable) (options : BuildOptions) :
    ofProgram p.unplaced t.unplaced options = ofProgram p t options := by
  have hblocks : (p.definitions.map TypeDef.unplaced).map
      (TypeBlock.ofTypeDef t.unplaced p.unplaced options.runtimeLibrary) =
        p.definitions.map (TypeBlock.ofTypeDef t p options.runtimeLibrary) := by
    rw [List.map_map]
    exact List.map_congr_left fun d _ => TypeBlock.ofTypeDef_unplaced t p _ d
  rw [ofProgram, ofProgram, ← hblocks]
  rfl

end Mixin
