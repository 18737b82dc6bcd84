import Mixin.Proofs.Listing.Calls
import Mixin.Proofs.Symbol.Renaming

/-!
# The blocks of a listing

A listing is a header and behind it the blocks of the types, each written as if it stood alone
(`Assembly.render_eq`). A block says nothing of where its type stands among the others: if the
definitions are put into another order and the types get other identifiers, it stays as it is
(`TypeBlock.ofTypeDef_renamed`).
-/

namespace Mixin

/-! ### Text -/

namespace Writer

def after (w : Writer) (text : String) : Writer := { w with text := text ++ w.text }

theorem put_after (w : Writer) (text : String) (c : Char) :
    (w.after text).put c = (w.put c).after text := by
  simp only [put, after, String.push_eq_append]
  split
  · rw [String.append_assoc]
  · split <;> simp only [String.append_assoc]

theorem write_after (w : Writer) (text s : String) :
    (w.after text).write s = (w.write s).after text := by
  unfold write
  generalize s.toList = cs
  induction cs generalizing w with
  | nil => rfl
  | cons c cs ih => rw [List.foldl_cons, List.foldl_cons, put_after, ih]

theorem foldl_writeLine_after (w : Writer) (text : String) (ls : List Line) :
    ls.foldl writeLine (w.after text) = (ls.foldl writeLine w).after text := by
  induction ls generalizing w with
  | nil => rfl
  | cons l ls ih =>
    have hline : (w.after text).writeLine l = (w.writeLine l).after text :=
      write_after { w with level := l.level } text _
    rw [List.foldl_cons, List.foldl_cons, hline, ih]

theorem writeLine_blank (w : Writer) :
    w.writeLine ⟨0, ""⟩ = (empty.writeLine ⟨0, ""⟩).after w.text := by
  simp [writeLine, write, put, after, empty, String.push_eq_append]

theorem writeLine_of_level_zero (w : Writer) (s : String) :
    (w.writeLine ⟨0, s⟩).text = w.text ++ (s ++ "\n") := by
  have hput (w : Writer) (hw : w.level = 0) (c : Char) :
      (w.put c).level = 0 ∧ (w.put c).text = w.text ++ String.singleton c := by
    have hblank : indentation 0 = "" := rfl
    simp only [put, hw, hblank, String.append_empty, ← String.push_eq_append]
    split
    · exact ⟨rfl, rfl⟩
    · split <;> exact ⟨rfl, rfl⟩
  have hwrite (cs : List Char) (w : Writer) (hw : w.level = 0) :
      (cs.foldl put w).text = w.text ++ String.ofList cs := by
    induction cs generalizing w with
    | nil => exact String.append_empty.symm
    | cons c cs ih =>
      rw [List.foldl_cons, ih _ (hput w hw c).1, (hput w hw c).2, String.append_assoc,
        String.ofList_cons]
  have hline := hwrite (s ++ "\n").toList { w with level := 0 } rfl
  rwa [String.ofList_toList] at hline

end Writer

theorem renderLines_append_blank (ls ms : List Line) :
    renderLines (ls ++ ⟨0, ""⟩ :: ms) = renderLines ls ++ renderLines (⟨0, ""⟩ :: ms) := by
  rw [renderLines, List.foldl_append, List.foldl_cons, Writer.writeLine_blank,
    Writer.foldl_writeLine_after]
  rfl

/-- The text of a block. A blank line comes first. -/
def TypeBlock.render (b : TypeBlock) : String := renderLines (⟨0, ""⟩ :: b.lines)

theorem renderLines_append_blocks (ls : List Line) (blocks : List TypeBlock) :
    renderLines (ls ++ blocks.flatMap fun b => ⟨0, ""⟩ :: b.lines) =
      renderLines ls ++ String.join (blocks.map TypeBlock.render) := by
  induction blocks generalizing ls with
  | nil => simp
  | cons b blocks ih =>
    rw [List.flatMap_cons, ← List.append_assoc, ih, renderLines_append_blank, List.map_cons,
      String.join_cons, String.append_assoc]
    rfl

namespace Assembly

def header (options : BuildOptions) : String :=
  ".assembly extern " ++ options.runtimeLibrary ++ " \x7b\x7d" ++ "\n" ++
    (".assembly " ++ options.outputName ++ " \x7b\x7d" ++ "\n")

theorem render_eq (a : Assembly) :
    a.render = header a.options ++ String.join (a.blocks.map TypeBlock.render) := by
  rw [render_eq_renderLines, lines, renderLines_append_blocks, renderLines, List.foldl_cons,
    List.foldl_cons, List.foldl_nil, Writer.writeLine_of_level_zero, Writer.writeLine_of_level_zero]
  refine congrArg (· ++ String.join _) ?_
  rw [Writer.empty, String.empty_append]
  rfl

end Assembly

/-! ### Surroundings -/

namespace Surroundings

/-- Surroundings in which the same names mean the same. In which order objects and runtime types are
listed does not matter. -/
structure SameNames (s s' : Surroundings) : Prop where
  fields : s'.fields = s.fields
  methods : s'.methods = s.methods
  objects : ∀ name, name ∈ s'.objects ↔ name ∈ s.objects
  runtimeTypes : ∀ name, name ∈ s'.runtimeTypes ↔ name ∈ s.runtimeTypes
  runtimeLibrary : s'.runtimeLibrary = s.runtimeLibrary

namespace SameNames

variable {s s' : Surroundings} (h : s.SameNames s')
include h

theorem typeReference : s'.typeReference = s.typeReference := by
  funext name
  simp only [Surroundings.typeReference, h.runtimeTypes, h.runtimeLibrary]

theorem load (parameters : List String) :
    Frame.load ⟨s', parameters⟩ = Frame.load ⟨s, parameters⟩ := by
  funext scope name
  simp only [Frame.load, Frame.argument?, h.fields, h.methods, h.objects]

theorem store (parameters : List String) :
    Frame.store ⟨s', parameters⟩ = Frame.store ⟨s, parameters⟩ := by
  funext scope name
  simp only [Frame.store, Frame.argument?, h.fields]

theorem callsOwnMethod (parameters : List String) :
    Frame.callsOwnMethod ⟨s', parameters⟩ = Frame.callsOwnMethod ⟨s, parameters⟩ := by
  funext scope name
  simp only [Frame.callsOwnMethod, Frame.argument?, h.methods]

theorem functionType (parameters : List String) :
    Frame.functionType ⟨s', parameters⟩ = Frame.functionType ⟨s, parameters⟩ := by
  funext arity
  simp only [Frame.functionType, h.runtimeLibrary]

theorem lower_all (parameters : List String) :
    (∀ scope e k, lower ⟨s', parameters⟩ scope e k = lower ⟨s, parameters⟩ scope e k) ∧
    (∀ scope ss k, lowerStatements ⟨s', parameters⟩ scope ss k =
      lowerStatements ⟨s, parameters⟩ scope ss k) ∧
    (∀ scope es k, lowerList ⟨s', parameters⟩ scope es k =
      lowerList ⟨s, parameters⟩ scope es k) := by
  have hload := h.load parameters
  have hstore := h.store parameters
  have hcalls := h.callsOwnMethod parameters
  have hfunction := h.functionType parameters
  have htype := h.typeReference
  -- In each case the parts are lowered alike, from the same counters on.
  apply lower.mutual_induct ⟨s, parameters⟩ <;> intros <;>
    simp_all +zetaDelta [lower, lowerList, lowerStatements]

theorem lowerBody : Mixin.lowerBody s' = Mixin.lowerBody s := by
  funext parameters e closures
  rw [Mixin.lowerBody, Mixin.lowerBody, (h.lower_all parameters).1]

theorem closureRoutines (index count : Nat) (pending : List Lambda) :
    Mixin.closureRoutines s' index count pending = Mixin.closureRoutines s index count pending := by
  fun_induction Mixin.closureRoutines s index count pending with
  | case1 => rw [Mixin.closureRoutines]
  | case2 index count l rest body ih =>
    have hbody : body = Mixin.lowerBody s (l.parameters.map fun p => p.name.text) l.body count := by
      simp [body]
    rw [Mixin.closureRoutines, h.lowerBody, ← hbody, ih]

theorem addMethod : Routines.addMethod s' = Routines.addMethod s := by
  funext rs m
  rw [Routines.addMethod, Routines.addMethod, h.lowerBody]

theorem storeInitial (parameters : List String) :
    TypeBlock.storeInitial ⟨s', parameters⟩ = TypeBlock.storeInitial ⟨s, parameters⟩ := by
  funext k field
  rw [TypeBlock.storeInitial, TypeBlock.storeInitial]
  cases field.initializer with
  | given value => simp only [(h.lower_all parameters).1]
  | omitted span => rfl

end SameNames

end Surroundings

/-! ### Renamed types -/

namespace SymbolTable.Renames

variable {ρ : ClassId → ClassId} {t t' : SymbolTable} (h : Renames ρ t t')
include h

theorem isRuntime (c : ClassId) : (t'.classInfo (ρ c)).isRuntime = (t.classInfo c).isRuntime := by
  rw [ClassInfo.isRuntime, ClassInfo.isRuntime, h.decl]

theorem qualifiedName (library : String) (c : ClassId) :
    t'.qualifiedName library (ρ c) = t.qualifiedName library c := by
  simp only [SymbolTable.qualifiedName, h.isRuntime, h.name]

theorem mem_runtimeTypes (name : String) : name ∈ t'.runtimeTypes ↔ name ∈ t.runtimeTypes := by
  have hperm : (t.classIds.map fun c => t'.classInfo (ρ c)).Perm t'.classes.toList := by
    have hids := h.ids.map t'.classInfo
    rwa [List.map_map, ← toList_classes] at hids
  rw [SymbolTable.runtimeTypes, SymbolTable.runtimeTypes, toList_classes t]
  rw [← ((hperm.filter _).map _).mem_iff]
  simp only [List.filter_map, List.map_map, Function.comp_def, h.isRuntime, h.name]

theorem surroundings {p p' : Program} (hp : p.definitions.Perm p'.definitions) (library : String)
    (c : ClassId) :
    (t.surroundings p library c).SameNames (t'.surroundings p' library (ρ c)) where
  fields := by
    simp only [SymbolTable.surroundings, h.chain, List.flatMap_map, h.fieldNames]
  methods := by
    have hinfos := congrArg (List.map MethodInfo.name) (h.chainInfos c)
    rw [← map_chainMethods, ← map_chainMethods, List.map_map, List.map_map, List.map_map] at hinfos
    exact hinfos
  objects := fun name => (((hp.filter _).map _).mem_iff).symm
  runtimeTypes := h.mem_runtimeTypes
  runtimeLibrary := rfl

theorem headingOf (library : String) (c : ClassId) :
    TypeBlock.headingOf t' library (t'.classInfo (ρ c)) =
      TypeBlock.headingOf t library (t.classInfo c) := by
  have hkind : (t'.classInfo (ρ c)).kind = (t.classInfo c).kind :=
    congrArg ClassDecl.kind (h.decl c)
  have hparameters : (t'.classInfo (ρ c)).typeParameters = (t.classInfo c).typeParameters :=
    congrArg ClassDecl.typeParameters (h.decl c)
  have hattributes : TypeBlock.attributes (t'.classInfo (ρ c)) =
      TypeBlock.attributes (t.classInfo c) := by
    rw [TypeBlock.attributes, TypeBlock.attributes, h.decl]
  have htraits : (t'.classInfo (ρ c)).traits.map (t'.qualifiedName library) =
      (t.classInfo c).traits.map (t.qualifiedName library) := by
    rw [h.traits, List.map_map]
    exact List.map_congr_left fun d _ => h.qualifiedName library d
  have hempty : (t'.classInfo (ρ c)).traits.isEmpty = (t.classInfo c).traits.isEmpty := by
    rw [h.traits, List.isEmpty_map]
  unfold TypeBlock.headingOf
  dsimp only
  rw [hattributes, h.name, hkind, hparameters, htraits, hempty, h.superclass, h.getD_root,
    h.qualifiedName]

theorem constructorBody {s s' : Surroundings} (hs : s.SameNames s') (d : TypeDef)
    (superclass : ClassId) (closures : Nat) :
    TypeBlock.constructorBody t' s' d (ρ superclass) closures =
      TypeBlock.constructorBody t s d superclass closures := by
  simp only [TypeBlock.constructorBody, h.name, h.qualifiedName, hs.runtimeLibrary, hs.storeInitial,
    (hs.lower_all _).2.2]
  rfl

theorem routinesOf {s s' : Surroundings} (hs : s.SameNames s') (d : TypeDef) (c : ClassId) :
    TypeBlock.routinesOf t' s' d (t'.classInfo (ρ c)) =
      TypeBlock.routinesOf t s d (t.classInfo c) := by
  simp only [TypeBlock.routinesOf, h.decl, h.superclass, h.getD_root, h.constructorBody hs,
    hs.addMethod, hs.closureRoutines]

end SymbolTable.Renames

/-- A type has the same block in whatever order the types are defined. -/
theorem TypeBlock.ofTypeDef_renamed {ρ : ClassId → ClassId} {t t' : SymbolTable}
    (h : t.Renames ρ t') (hlookup : ∀ name, t'.lookup? name = (t.lookup? name).map ρ)
    {p p' : Program} (hp : p.definitions.Perm p'.definitions) (library : String) (d : TypeDef) :
    ofTypeDef t' p' library d = ofTypeDef t p library d := by
  have hsurroundings := h.surroundings hp library ((t.lookup? d.name.text).getD .root)
  simp only [ofTypeDef, hlookup, h.getD_root, h.headingOf, h.routinesOf hsurroundings]

end Mixin
