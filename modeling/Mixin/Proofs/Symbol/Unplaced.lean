import Mixin.Proofs.Symbol.Table
import Mixin.Proofs.Tree.Unplaced
import Mixin.Symbol.Hierarchy

/-!
# Problems and symbol tables without places

Taking places away changes neither the words of a problem nor what a symbol table answers. Of the
place where a type is named the file stays, since a listing tells the types of the two files apart.
-/

namespace Mixin

/-! ### Problems -/

namespace TypeExpr

mutual

@[simp] theorem render_unplaced : ∀ type : TypeExpr, type.unplaced.render = type.render
  | .named name [] _ => rfl
  | .named name (first :: rest) _ => by
    simp only [unplaced, unplacedAll_eq, List.map_cons, render, render_unplaced first,
      renderRest_unplaced rest, Ident.unplaced]
  | .function [] result _ => by
    simp only [unplaced, unplacedAll_eq, List.map_nil, render, renderList, render_unplaced result]
  | .function (first :: rest) result _ => by
    simp only [unplaced, unplacedAll_eq, List.map_cons, render, renderList, render_unplaced first,
      renderRest_unplaced rest, render_unplaced result]
  | .tuple [] _ => rfl
  | .tuple (first :: rest) _ => by
    simp only [unplaced, unplacedAll_eq, List.map_cons, render, renderList, render_unplaced first,
      renderRest_unplaced rest]

theorem renderRest_unplaced : ∀ types : List TypeExpr,
    renderRest (types.map unplaced) = renderRest types
  | [] => rfl
  | next :: rest => by
    simp only [List.map_cons, renderRest, render_unplaced next, renderRest_unplaced rest]

end

end TypeExpr

def TypeSketch.unplaced (s : TypeSketch) : TypeSketch :=
  { s with site := s.site.map fun _ => .topOfFile }

def MethodSketch.unplaced (s : MethodSketch) : MethodSketch :=
  { s with site := s.site.map fun _ => .topOfFile }

namespace Diagnostic

def unplaced : Diagnostic → Diagnostic
  | syntaxError error => syntaxError error.unplaced
  | duplicate entity name _ previous =>
    duplicate entity name .topOfFile (previous.map fun _ => .topOfFile)
  | unresolvedSupertype name subtype _ => unresolvedSupertype name subtype .topOfFile
  | missingInitializer binding field type owner =>
    missingInitializer binding field.unplaced (type.map TypeExpr.unplaced) owner
  | unimplementedMember heir member declaredIn =>
    unimplementedMember heir.unplaced member.unplaced declaredIn
  | abstractInConcrete member owner => abstractInConcrete member.unplaced owner.unplaced
  | cyclicInheritance first rest => cyclicInheritance first.unplaced (rest.map Ident.unplaced)
  | redundantAbstract trait _ => redundantAbstract trait .topOfFile
  | remark kind _ message => remark kind .topOfFile message

/-- Two problems say the same, if perhaps of different places. -/
structure SaysSame (d e : Diagnostic) : Prop where
  kind : d.kind = e.kind
  severity : d.severity = e.severity
  message : d.message = e.message
  subtitle : d.subtitle? = e.subtitle?
  notes : d.boundNotes.map (·.2) = e.boundNotes.map (·.2)
  freeNotes : d.freeNotes = e.freeNotes

theorem kind_unplaced (d : Diagnostic) : d.unplaced.kind = d.kind := by
  cases d <;> rfl

theorem isError_unplaced (d : Diagnostic) : d.unplaced.isError = d.isError := by
  rw [isError, isError, severity, severity, kind_unplaced]

theorem message_unplaced (d : Diagnostic) : d.unplaced.message = d.message := by
  cases d with
  | syntaxError error => cases error <;> rfl
  | _ => rfl

theorem subtitle?_unplaced (d : Diagnostic) : d.unplaced.subtitle? = d.subtitle? := by
  cases d with
  | syntaxError error => cases error <;> rfl
  | _ => rfl

theorem inheritanceNotes_unplaced (first : Ident) (names : List Ident) :
    (inheritanceNotes first.unplaced (names.map Ident.unplaced)).map (·.2) =
      (inheritanceNotes first names).map (·.2) := by
  induction names with
  | nil => rfl
  | cons name rest ih =>
    rw [List.map_cons, inheritanceNotes, inheritanceNotes, List.map_cons, List.map_cons, ih]
    cases rest <;> rfl

theorem boundNotes_unplaced (d : Diagnostic) :
    d.unplaced.boundNotes.map (·.2) = d.boundNotes.map (·.2) := by
  cases d with
  | duplicate _ _ _ previous => cases previous <;> rfl
  | unimplementedMember _ member _ =>
    obtain ⟨name, heading, site⟩ := member
    cases site <;> rfl
  | abstractInConcrete _ owner =>
    obtain ⟨kind, name, site⟩ := owner
    cases site <;> rfl
  | cyclicInheritance first rest => exact inheritanceNotes_unplaced first rest
  | _ => rfl

theorem freeNotes_unplaced (d : Diagnostic) : d.unplaced.freeNotes = d.freeNotes := by
  cases d with
  | syntaxError error => cases error <;> rfl
  | missingInitializer _ _ type _ =>
    cases type with
    | none => rfl
    | some type =>
      simp only [unplaced, freeNotes, Option.map_some, TypeExpr.render_unplaced, Ident.unplaced]
  | cyclicInheritance first rest =>
    simp only [unplaced, freeNotes, List.map_append, List.map_cons, List.map_map]
    rfl
  | _ => rfl

theorem saysSame_of_unplaced {d e : Diagnostic} (h : d.unplaced = e.unplaced) : d.SaysSame e where
  kind := by rw [← kind_unplaced d, h, kind_unplaced]
  severity := by rw [severity, severity, ← kind_unplaced d, h, kind_unplaced]
  message := by rw [← message_unplaced d, h, message_unplaced]
  subtitle := by rw [← subtitle?_unplaced d, h, subtitle?_unplaced]
  notes := by rw [← boundNotes_unplaced d, h, boundNotes_unplaced]
  freeNotes := by rw [← freeNotes_unplaced d, h, freeNotes_unplaced]

theorem any_isError_unplaced (ds : List Diagnostic) :
    (ds.map unplaced).any isError = ds.any isError := by
  rw [List.any_map]
  exact congrArg ds.any (funext isError_unplaced)

end Diagnostic

/-! ### What is known of types and members -/

/-- A span of which only the file is known. -/
def Span.fileOnly (s : Span) : Span := { topOfFile with file := s.file }

def ClassDecl.unplaced (d : ClassDecl) : ClassDecl :=
  { d with parents := d.parents.map Ident.unplaced, site := d.site.map Span.fileOnly }

def ClassInfo.unplaced (c : ClassInfo) : ClassInfo :=
  { c with toClassDecl := c.toClassDecl.unplaced }

def FieldInfo.unplaced (f : FieldInfo) : FieldInfo :=
  { f with type := f.type.map TypeExpr.unplaced, site := f.site.map fun _ => .topOfFile }

def ParameterInfo.unplaced (p : ParameterInfo) : ParameterInfo :=
  ⟨p.name.unplaced, p.type.map TypeExpr.unplaced⟩

def MethodInfo.unplaced (m : MethodInfo) : MethodInfo :=
  { m with
    parameters := m.parameters.map ParameterInfo.unplaced
    result := m.result.map TypeExpr.unplaced
    site := m.site.map fun _ => .topOfFile }

theorem ClassInfo.sketch_unplaced (c : ClassInfo) :
    c.unplaced.sketch.unplaced = c.sketch.unplaced := by
  simp [sketch, unplaced, ClassDecl.unplaced, TypeSketch.unplaced, Option.map_map,
    Function.comp_def]

@[simp] theorem MethodInfo.signature_unplaced (m : MethodInfo) :
    m.unplaced.signature = m.signature := by
  simp [signature, unplaced]

@[simp] theorem MethodInfo.annotated_unplaced (name : String) (type : Option TypeExpr) :
    annotated name (type.map TypeExpr.unplaced) = annotated name type := by
  cases type <;> simp [annotated]

theorem MethodInfo.describe_unplaced (m : MethodInfo) : m.unplaced.describe = m.describe := by
  simp [describe, unplaced, ParameterInfo.unplaced, Ident.unplaced, Function.comp_def]

theorem MethodInfo.sketch_unplaced (m : MethodInfo) :
    m.unplaced.sketch.unplaced = m.sketch.unplaced := by
  simp only [sketch, describe_unplaced]
  simp [unplaced, MethodSketch.unplaced, Option.map_map, Function.comp_def]

/-! ### Tables -/

namespace SymbolTable

def unplaced (t : SymbolTable) : SymbolTable :=
  ⟨t.classes.map ClassInfo.unplaced, t.fields.map FieldInfo.unplaced,
    t.methods.map MethodInfo.unplaced⟩

variable (t : SymbolTable)

@[simp] theorem classInfo_unplaced (id : ClassId) :
    t.unplaced.classInfo id = (t.classInfo id).unplaced := by
  simp only [classInfo, unplaced, Array.getElem?_map]
  cases t.classes[id.index]? <;> rfl

@[simp] theorem fieldInfo_unplaced (id : FieldId) :
    t.unplaced.fieldInfo id = (t.fieldInfo id).unplaced := by
  simp only [fieldInfo, unplaced, Array.getElem?_map]
  cases t.fields[id.index]? <;> rfl

@[simp] theorem methodInfo_unplaced (id : MethodId) :
    t.unplaced.methodInfo id = (t.methodInfo id).unplaced := by
  simp only [methodInfo, unplaced, Array.getElem?_map]
  cases t.methods[id.index]? <;> rfl

@[simp] theorem classIds_unplaced : t.unplaced.classIds = t.classIds := by
  simp [classIds, unplaced]

@[simp] theorem lookup?_unplaced (name : String) : t.unplaced.lookup? name = t.lookup? name := by
  simp only [lookup?, unplaced, Array.findIdx?_map]
  rfl

theorem fieldNamed?_unplaced (owner : ClassId) (name : String) :
    t.unplaced.fieldNamed? owner name = t.fieldNamed? owner name := by
  simp only [fieldNamed?, classInfo_unplaced, fieldInfo_unplaced]
  rfl

theorem methodWith?_unplaced (owner : ClassId) (signature : Signature) :
    t.unplaced.methodWith? owner signature = t.methodWith? owner signature := by
  simp only [methodWith?, classInfo_unplaced, methodInfo_unplaced, MethodInfo.signature_unplaced]
  rfl

/-! ### Changing tables -/

theorem modifyClass_unplaced (id : ClassId) {f : ClassInfo → ClassInfo}
    (hf : ∀ c, (f c).unplaced = f c.unplaced) :
    (t.modifyClass id f).unplaced = t.unplaced.modifyClass id f := by
  have hclasses : (t.classes.modify id.index f).map ClassInfo.unplaced =
      (t.classes.map ClassInfo.unplaced).modify id.index f := by
    refine Array.ext (by simp) fun i hi _ => ?_
    simp only [Array.getElem_map, Array.getElem_modify]
    split
    · exact hf _
    · rfl
  simp only [modifyClass, unplaced, hclasses]

theorem addMember_unplaced (owner : ClassId) (member : MemberId) :
    (t.addMember owner member).unplaced = t.unplaced.addMember owner member :=
  modifyClass_unplaced t owner fun _ => rfl

theorem setSupertypes_unplaced (id : ClassId) (superclass : Option ClassId) (traits : List ClassId)
    :
    (t.setSupertypes id superclass traits).unplaced =
      t.unplaced.setSupertypes id superclass traits :=
  modifyClass_unplaced t id fun _ => rfl

theorem removeSupertype_unplaced (id parent : ClassId) :
    (t.removeSupertype id parent).unplaced = t.unplaced.removeSupertype id parent :=
  modifyClass_unplaced t id fun _ => rfl

end SymbolTable

/-! ### Declaring -/

/-- Without places `x` is `y`, and both report the same but for places. -/
structure Declared.Unplaces {ι : Type} (x y : Declared ι) : Prop where
  table : x.table.unplaced = y.table
  id : x.id = y.id
  diagnostics : x.diagnostics.map Diagnostic.unplaced = y.diagnostics.map Diagnostic.unplaced

namespace SymbolTable

variable (t : SymbolTable)

theorem declareClass_unplaced (d : ClassDecl) :
    (t.declareClass d).Unplaces (t.unplaced.declareClass d.unplaced) := by
  have hname : d.unplaced.name = d.name := rfl
  refine ⟨?_, ?_, ?_⟩
  · simp [declareClass, unplaced, ClassInfo.unplaced]
  · simp [declareClass, unplaced]
  · simp only [declareClass, hname, lookup?_unplaced]
    cases t.lookup? d.name with
    | none => rfl
    | some earlier =>
      simp [Diagnostic.unplaced, ClassInfo.unplaced, ClassDecl.unplaced, Option.map_map,
        Function.comp_def]

theorem fieldCollision?_unplaced (owner : ClassId) (name : String) :
    t.unplaced.fieldCollision? owner name =
      (t.fieldCollision? owner name).map fun site => site.map fun _ => .topOfFile := by
  simp only [fieldCollision?, fieldNamed?_unplaced, methodWith?_unplaced, fieldInfo_unplaced,
    methodInfo_unplaced]
  cases t.fieldNamed? owner name with
  | some id => rfl
  | none => rw [Option.map_map]; rfl

theorem methodCollision?_unplaced (owner : ClassId) (signature : Signature) :
    t.unplaced.methodCollision? owner signature =
      (t.methodCollision? owner signature).map fun site => site.map fun _ => .topOfFile := by
  simp only [methodCollision?, fieldNamed?_unplaced, methodWith?_unplaced, fieldInfo_unplaced,
    methodInfo_unplaced]
  cases t.methodWith? owner signature with
  | some id => rfl
  | none =>
    simp only
    split
    · rw [Option.map_map]
      rfl
    · rfl

theorem declareField_unplaced (f : FieldInfo) :
    (t.declareField f).Unplaces (t.unplaced.declareField f.unplaced) := by
  have hpush : unplaced { t with fields := t.fields.push f } =
      { t.unplaced with fields := t.unplaced.fields.push f.unplaced } := by
    simp [unplaced]
  have hsize : t.unplaced.fields.size = t.fields.size := by simp [unplaced]
  have hcollision := fieldCollision?_unplaced t f.owner f.name
  have howner : f.unplaced.owner = f.owner := rfl
  have hname : f.unplaced.name = f.name := rfl
  simp only [declareField, howner, hname, hcollision, hsize]
  cases t.fieldCollision? f.owner f.name with
  | some previous =>
    refine ⟨hpush, rfl, ?_⟩
    simp [Diagnostic.unplaced, Option.map_map, Function.comp_def]
  | none => exact ⟨by rw [← hpush]; exact addMember_unplaced _ _ _, rfl, rfl⟩

theorem reportRepeated_unplaced (earlier names : List Ident) :
    (reportRepeated (earlier.map Ident.unplaced) (names.map Ident.unplaced)).map
        Diagnostic.unplaced =
      (reportRepeated earlier names).map Diagnostic.unplaced := by
  induction names generalizing earlier with
  | nil => rfl
  | cons name rest ih =>
    have hfind : (earlier.map Ident.unplaced).find? (fun e => e.text == name.unplaced.text) =
        (earlier.find? fun e => e.text == name.text).map Ident.unplaced := by
      rw [List.find?_map]
      rfl
    rw [List.map_cons, reportRepeated, reportRepeated, hfind]
    cases earlier.find? fun e => e.text == name.text with
    | none =>
      have hrest := ih (earlier ++ [name])
      rw [List.map_append] at hrest
      exact hrest
    | some e =>
      simp only [Option.map_some, List.map_cons, ih]
      rfl

theorem checkParameters_unplaced (names : List Ident) :
    (checkParameters (names.map Ident.unplaced)).map Diagnostic.unplaced =
      (checkParameters names).map Diagnostic.unplaced :=
  reportRepeated_unplaced [] names

theorem declareMethod_unplaced (m : MethodInfo) :
    (t.declareMethod m).Unplaces (t.unplaced.declareMethod m.unplaced) := by
  have hpush : unplaced { t with methods := t.methods.push m } =
      { t.unplaced with methods := t.unplaced.methods.push m.unplaced } := by
    simp [unplaced]
  have hsize : t.unplaced.methods.size = t.methods.size := by simp [unplaced]
  have hcollision := methodCollision?_unplaced t m.owner m.signature
  have howner : m.unplaced.owner = m.owner := rfl
  have hname : m.unplaced.name = m.name := rfl
  have hrepeated : (checkParameters (m.unplaced.parameters.map (·.name))).map Diagnostic.unplaced =
      (checkParameters (m.parameters.map (·.name))).map Diagnostic.unplaced := by
    have hnames : m.unplaced.parameters.map (·.name) =
        (m.parameters.map (·.name)).map Ident.unplaced := by
      simp [MethodInfo.unplaced, ParameterInfo.unplaced, Function.comp_def]
    rw [hnames, checkParameters_unplaced]
  simp only [declareMethod, howner, hname, MethodInfo.signature_unplaced, hcollision, hsize]
  cases t.methodCollision? m.owner m.signature with
  | some previous =>
    refine ⟨hpush, rfl, ?_⟩
    simp [hrepeated, Diagnostic.unplaced, Option.map_map, Function.comp_def]
  | none =>
    refine ⟨?_, rfl, hrepeated.symm⟩
    rw [Option.map_none, ← hpush]
    exact addMember_unplaced _ _ _

/-! ### Inheritance -/

theorem chain_unplaced : t.unplaced.chain = t.chain := by
  have hparents : t.unplaced.searchedParents = t.searchedParents := by
    funext id
    simp only [searchedParents, classInfo_unplaced]
    rfl
  funext id
  rw [chain, chain, hparents, classIds_unplaced]

theorem chainMethods_unplaced : t.unplaced.chainMethods = t.chainMethods := by
  funext id
  simp only [chainMethods, chain_unplaced, classInfo_unplaced]
  rfl

theorem abstractMembers_unplaced : t.unplaced.abstractMembers = t.abstractMembers := by
  have habstract (m : MethodId) :
      (t.methodInfo m).unplaced.isAbstract = (t.methodInfo m).isAbstract := rfl
  funext id
  simp only [abstractMembers, chainMethods_unplaced, methodInfo_unplaced,
    MethodInfo.signature_unplaced, habstract]

end SymbolTable

end Mixin
