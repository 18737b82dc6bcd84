import Mixin.Symbol.Info

/-!
# Symbol tables

A `SymbolTable` holds what is known of the types of a program and their members. Declaring never
fails: what collides with an earlier declaration is reported and gets an identifier all the same,
but the name stays with the earlier one, and a member that collides does not become a member.

A field collides with a field of its name and with a method of its name that has no parameters, a
method with a method of its name and number of parameters.
-/

namespace Mixin

structure SymbolTable where
  classes : Array ClassInfo
  fields : Array FieldInfo
  methods : Array MethodInfo

/-- The identifier that a declaration got, the table with it, and what had to be reported. -/
structure Declared (ι : Type) where
  table : SymbolTable
  id : ι
  diagnostics : List Diagnostic

namespace SymbolTable

def rootDecl : ClassDecl := ⟨"Any", .«class», .ofList [.abstract], [], [], none⟩

def initial : SymbolTable := ⟨#[⟨rootDecl, [], none, []⟩], #[], #[]⟩

instance : Inhabited SymbolTable := ⟨initial⟩

def classIds (t : SymbolTable) : List ClassId := (List.range t.classes.size).map ClassId.mk

def classInfo (t : SymbolTable) (id : ClassId) : ClassInfo := t.classes[id.index]?.getD default

def fieldInfo (t : SymbolTable) (id : FieldId) : FieldInfo := t.fields[id.index]?.getD default

def methodInfo (t : SymbolTable) (id : MethodId) : MethodInfo := t.methods[id.index]?.getD default

def modifyClass (t : SymbolTable) (id : ClassId) (f : ClassInfo → ClassInfo) : SymbolTable :=
  { t with classes := t.classes.modify id.index f }

/-- The type to which a name is bound: the first one declared with it. -/
def lookup? (t : SymbolTable) (name : String) : Option ClassId :=
  (t.classes.findIdx? fun c => c.name == name).map ClassId.mk

def fieldNamed? (t : SymbolTable) (owner : ClassId) (name : String) : Option FieldId :=
  (t.classInfo owner).fields.find? fun id => (t.fieldInfo id).name == name

def methodWith? (t : SymbolTable) (owner : ClassId) (signature : Signature) : Option MethodId :=
  (t.classInfo owner).methods.find? fun id => (t.methodInfo id).signature == signature

def declareClass (t : SymbolTable) (d : ClassDecl) : Declared ClassId where
  table := { t with classes := t.classes.push ⟨d, [], none, []⟩ }
  id := ⟨t.classes.size⟩
  diagnostics :=
    match t.lookup? d.name with
    | some earlier =>
      [.duplicate d.kind.keyword d.name (d.site.getD .topOfFile) (t.classInfo earlier).site]
    | none => []

def addMember (t : SymbolTable) (owner : ClassId) (member : MemberId) : SymbolTable :=
  t.modifyClass owner fun c => { c with members := c.members ++ [member] }

/-- The place of the member with which a field of this name collides, if it does. -/
def fieldCollision? (t : SymbolTable) (owner : ClassId) (name : String) : Option (Option Span) :=
  match t.fieldNamed? owner name with
  | some id => some (t.fieldInfo id).site
  | none => (t.methodWith? owner ⟨name, 0⟩).map fun id => (t.methodInfo id).site

/-- The place of the member with which a method of this signature collides, if it does. -/
def methodCollision? (t : SymbolTable) (owner : ClassId) (signature : Signature) :
    Option (Option Span) :=
  match t.methodWith? owner signature with
  | some id => some (t.methodInfo id).site
  | none =>
    if signature.arity = 0 then
      (t.fieldNamed? owner signature.name).map fun id => (t.fieldInfo id).site
    else none

def declareField (t : SymbolTable) (f : FieldInfo) : Declared FieldId :=
  let id : FieldId := ⟨t.fields.size⟩
  let stored := { t with fields := t.fields.push f }
  match t.fieldCollision? f.owner f.name with
  | some previous => ⟨stored, id, [.duplicate "field" f.name (f.site.getD .topOfFile) previous]⟩
  | none => ⟨stored.addMember f.owner (.field id), id, []⟩

/-- Reports each of `names` that occurs before, among the `earlier` ones or among `names`. -/
def reportRepeated (earlier : List Ident) : List Ident → List Diagnostic
  | [] => []
  | name :: rest =>
    match earlier.find? fun e => e.text == name.text with
    | some e =>
      .duplicate "parameter" name.text name.span (some e.span) :: reportRepeated earlier rest
    | none => reportRepeated (earlier ++ [name]) rest

/-- Reports each parameter whose name another one before it has. -/
def checkParameters (names : List Ident) : List Diagnostic := reportRepeated [] names

def declareMethod (t : SymbolTable) (m : MethodInfo) : Declared MethodId :=
  let id : MethodId := ⟨t.methods.size⟩
  let stored := { t with methods := t.methods.push m }
  let repeated := checkParameters (m.parameters.map (·.name))
  match t.methodCollision? m.owner m.signature with
  | some previous =>
    ⟨stored, id, repeated ++ [.duplicate "method" m.name (m.site.getD .topOfFile) previous]⟩
  | none => ⟨stored.addMember m.owner (.method id), id, repeated⟩

end SymbolTable

end Mixin
