import Mixin.Listing.Routine
import Mixin.Symbol.Hierarchy

/-!
# Listings

What a program is compiled to: an assembly with one block for each type, which lists the fields, the
constructor, the methods and the bodies of the closures. `Assembly.render` is its text.
-/

namespace Mixin

/-- The names under which a program is compiled. -/
structure BuildOptions where
  runtimeLibrary : String := "Sable.Runtime"
  outputName : String := "main"
  deriving DecidableEq, Repr, Inhabited

structure TypeBlock where
  heading : String
  fields : List String
  routines : List Routine

def TypeBlock.calls (b : TypeBlock) : List Writer.Call :=
  [.write (b.heading ++ " \x7b\n"), .indent] ++
    b.fields.map (fun field => .write (field ++ "\n")) ++
    b.routines.flatMap (fun r => .write "\n" :: r.calls) ++ [.dedent, .write "\x7d\n"]

structure Assembly where
  options : BuildOptions
  blocks : List TypeBlock

namespace Assembly

def calls (a : Assembly) : List Writer.Call :=
  [.write (".assembly extern " ++ a.options.runtimeLibrary ++ " \x7b\x7d\n"),
   .write (".assembly " ++ a.options.outputName ++ " \x7b\x7d\n")] ++
    a.blocks.flatMap fun b => .write "\n" :: b.calls

/-- The text of a listing. None of the calls fails. -/
def render (a : Assembly) : String := ((Writer.run a.calls).map (·.text)).getD ""

end Assembly

/-- Whether a type comes from the runtime library: the root, and the types of the prelude. -/
def ClassInfo.isRuntime (c : ClassInfo) : Bool :=
  match c.site with
  | some span => span.file == .prelude
  | none => true

namespace SymbolTable

def qualifiedName (t : SymbolTable) (library : String) (id : ClassId) : String :=
  let c := t.classInfo id
  if c.isRuntime then inLibrary library c.name else c.name

def runtimeTypes (t : SymbolTable) : List String :=
  (t.classes.toList.filter fun c => c.isRuntime).map fun c => c.name

/-- What the methods of a type can refer to: the fields and methods of its chain, the objects of the
program, and the types of the runtime library. -/
def surroundings (t : SymbolTable) (p : Program) (library : String) (id : ClassId) :
    Surroundings where
  fields :=
    (t.chain id).flatMap fun c => (t.classInfo c).fields.map fun f => (t.fieldInfo f).name
  methods := (t.chainMethods id).map fun m => (t.methodInfo m).name
  objects := (p.definitions.filter fun d => d.kind == .object).map fun d => d.name.text
  runtimeTypes := t.runtimeTypes
  runtimeLibrary := library

end SymbolTable

namespace TypeBlock

/-- The words before the name of a type: what it is, and its other modifiers. -/
def attributes (c : ClassInfo) : List String :=
  let (words, implied) : List String × List Modifier :=
    match c.kind with
    | .trait => (["abstract", "interface"], [.abstract])
    | .object => (["final", "object"], [.final])
    | .«class» => ([], [])
  words ++ (c.modifiers.toList.filter (· ∉ implied)).map Modifier.keyword

def headingOf (t : SymbolTable) (library : String) (c : ClassInfo) : String :=
  let name := t.qualifiedName library
  let parameters := c.typeParameters.map fun p => p.1.sigil ++ p.2
  ".class public " ++ String.join ((attributes c).map (· ++ " ")) ++ c.name ++
    (if parameters.isEmpty then "" else "<" ++ String.intercalate ", " parameters ++ ">") ++
    (if c.kind = .trait then "" else " extends " ++ name (c.superclass.getD .root)) ++
    (if c.traits.isEmpty then "" else
      " implements " ++ String.intercalate ", " (c.traits.map name))

def fieldLine (modifiers : ModifierList) (binding : Binding) (name : String)
    (type : Option TypeExpr) : String :=
  MethodInfo.annotated
    (".field " ++ modifiers.visibility ++ " " ++
      (match binding with
        | .val => "initonly "
        | .var => "") ++ name)
    type

def fieldLines (d : TypeDef) : List String :=
  d.parameters.filterMap (fun p =>
      p.binding.map fun binding => fieldLine p.modifiers binding p.name.text (some p.type)) ++
    d.fields.map fun f => fieldLine f.modifiers f.binding f.name.text f.type

/-- The arguments that a type passes to the constructor of its superclass: those of the first parent
with its name. -/
def superArguments (d : TypeDef) (superclass : String) : List Expr :=
  ((d.parents.find? fun p => p.type.name.text == superclass).map (·.arguments)).getD []

def storeParameter (f : Frame) (p : Parameter) : List Instr :=
  match p.binding with
  | some _ => [.loadArg 0, .loadArg ((f.argument? p.name.text).getD 0), .storeField p.name.text]
  | none => []

def storeInitial (f : Frame) (k : Counters) (field : Field) : Lowered :=
  let value :=
    match field.initializer with
    | .given value => lower f [] value k
    | .omitted _ => .emit [.loadNull] k
  (value.behind [.loadArg 0]).andThen [.storeField field.name.text]

/-- The body of the constructor: it calls the constructor of the superclass, then stores the
parameters that are fields, then the values of the fields in the body. -/
def constructorBody (t : SymbolTable) (s : Surroundings) (d : TypeDef) (superclass : ClassId)
    (closures : Nat) : Body × List Lambda :=
  let f : Frame := ⟨s, d.parameters.map fun p => p.name.text⟩
  let arguments := superArguments d (t.classInfo superclass).name
  let called := ((lowerList f [] arguments (.start closures)).behind [.loadArg 0]).andThen
    [.callConstructor (t.qualifiedName s.runtimeLibrary superclass) arguments.length]
  let stored := called.andThen (d.parameters.flatMap (storeParameter f))
  (d.fields.foldl (fun a field => a.append (storeInitial f a.next field)) stored).finish

def constructorHeading (d : TypeDef) : String :=
  ".method public .ctor" ++ Routine.parameterText (d.parameters.map Parameter.heading)

/-- The constructor, the methods, and the bodies of all closures. Traits have no constructor. -/
def routinesOf (t : SymbolTable) (s : Surroundings) (d : TypeDef) (c : ClassInfo) : List Routine :=
  let constructed : Routines :=
    if c.kind = .trait then ⟨[], [], 0⟩
    else
      (⟨[], [], 0⟩ : Routines).add (constructorHeading d)
        (constructorBody t s d (c.superclass.getD .root) 0)
  let all := d.methods.foldl (Routines.addMethod s) constructed
  all.list ++ closureRoutines s 0 all.count all.closures

def ofTypeDef (t : SymbolTable) (p : Program) (library : String) (d : TypeDef) : TypeBlock :=
  let id := (t.lookup? d.name.text).getD .root
  let c := t.classInfo id
  ⟨headingOf t library c, fieldLines d, routinesOf t (t.surroundings p library id) d c⟩

end TypeBlock

def Assembly.ofProgram (p : Program) (t : SymbolTable) (options : BuildOptions) : Assembly :=
  ⟨options, p.definitions.map (TypeBlock.ofTypeDef t p options.runtimeLibrary)⟩

end Mixin
