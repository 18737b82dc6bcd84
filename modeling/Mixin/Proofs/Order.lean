import Mixin.Proofs.Analysis.Permutation
import Mixin.Proofs.Listing.Blocks

/-!
# Compiling definitions in another order

In which order types are defined does not matter, if they have different names and no type inherits
from itself. Each pass reports of each definition what it reports of it in any other order, and a
listing has the same block for it (`compile_of_permuted_definitions`). Only the order in which
definitions are gone through and blocks are written is that of the definitions.
-/

namespace Mixin

open Relation (TransGen)

/-! ### Units -/

def preludeUnits (noPrelude : Bool) : List Program :=
  if noPrelude then [] else (Program.ofText .prelude preludeText).toOption.toList

theorem parseAll_sourceTexts (noPrelude : Bool) {source : String} {p : Program}
    (hp : Program.ofText .user source = .ok p) :
    parseAll (sourceTexts noPrelude source) = .ok (preludeUnits noPrelude ++ [p]) := by
  cases noPrelude with
  | true => exact parseAll_cons hp rfl
  | false =>
    obtain ⟨prelude, hprelude⟩ := exists_program_of_toBool prelude_toBool
    have hunits : preludeUnits false = [prelude] := by
      rw [preludeUnits, hprelude]
      rfl
    rw [hunits]
    exact parseAll_cons hprelude (parseAll_cons hp rfl)

theorem TypeDef.names_of_heads {ds : List TypeDef} {heads : List (String × List String)}
    (h : ds.map TypeDef.head = heads) : (ds.map fun d => d.name.text) = heads.map Prod.fst := by
  rw [← h, List.map_map]
  rfl

theorem heads_preludeUnits :
    ((preludeUnits false).flatMap (·.definitions)).map TypeDef.head =
      preludeNames.map (·, []) := by
  obtain ⟨prelude, hprelude, hheads⟩ := Option.map_eq_some_iff.mp prelude_heads
  rw [preludeUnits, hprelude, if_neg Bool.false_ne_true, Option.toList_some,
    List.flatMap_singleton, hheads]

theorem nodup_preludeNames (noPrelude : Bool) :
    ("Any" :: ((preludeUnits noPrelude).flatMap (·.definitions)).map fun d =>
      d.name.text).Nodup := by
  cases noPrelude with
  | true => decide
  | false =>
    rw [TypeDef.names_of_heads heads_preludeUnits]
    decide

def compileUnits (options : CompilerOptions) (units : List Program) :
    Except Unanalyzed Compilation := do
  let a ← analyze units
  if a.diagnostics.any Diagnostic.isError then
    return .stopped .obligationsValidated a.diagnostics (startEvents ++ a.events)
  else
    return .finished options (units.getLast?.getD ⟨[]⟩) a.symbols a.diagnostics
      (startEvents ++ a.events)

theorem compile_eq_compileUnits {options : CompilerOptions} {source : String}
    {units : List Program} (h : parseAll (sourceTexts options.noPrelude source) = .ok units) :
    compile options source = compileUnits options units := by
  rw [compile, h]
  rfl

/-! ### One definition after another -/

/-- A compilation of a program with others before it that goes through the definitions: each pass
reports what `reports` says of one definition after another, and the listing is the header with the
text `block d` for one definition `d` of the program after another behind it. -/
structure CompiledByDefinition (options : CompilerOptions) (before : List Program) (p : Program)
    (reports : Pass → TypeDef → List Diagnostic) (block : TypeDef → String) (c : Compilation) :
    Prop where
  compiled : compileUnits options (before ++ [p]) = .ok c
  reported : ∃ a, analyze (before ++ [p]) = .ok a ∧ c.diagnostics = a.diagnostics ∧
    Pass.Runs (before ++ [p]) .initial (Pass.all.map fun pass =>
      (pass, ((before ++ [p]).flatMap (·.definitions)).flatMap (reports pass))) a
  listed : c.stage = .generated → c.artifact =
    some ⟨options.build.outputName, options.build.runtimeLibrary,
      Assembly.header options.build ++ String.join (p.definitions.map block)⟩

theorem exists_compiledByDefinition (noPrelude : Bool) (build : BuildOptions)
    {before : List Program} {p : Program} {reports : Pass → TypeDef → List Diagnostic}
    {block : TypeDef → String} {a : Analysis}
    (hruns : Pass.Runs (before ++ [p]) .initial (Pass.all.map fun pass =>
      (pass, ((before ++ [p]).flatMap (·.definitions)).flatMap (reports pass))) a)
    (hblock : ∀ d, (TypeBlock.ofTypeDef a.symbols p build.runtimeLibrary d).render = block d) :
    ∃ c, CompiledByDefinition { noPrelude := noPrelude, build := build } before p reports block c ∧
      c.diagnostics = a.diagnostics ∧
      c.stage = if a.diagnostics.any Diagnostic.isError then .aborted else .generated := by
  have ha : analyze (before ++ [p]) = .ok a := (analyze_eq_foldlM _).trans hruns.foldlM
  have hlast : (before ++ [p]).getLast?.getD ⟨[]⟩ = p := by simp
  have hcompiled (c : Compilation) (hc : (if a.diagnostics.any Diagnostic.isError then
      Compilation.stopped .obligationsValidated a.diagnostics (startEvents ++ a.events)
    else
      .finished { noPrelude := noPrelude, build := build } p a.symbols a.diagnostics
        (startEvents ++ a.events)) = c) :
      compileUnits { noPrelude := noPrelude, build := build } (before ++ [p]) = .ok c := by
    rw [compileUnits, ha, ← hc, hlast]
    simp only [bind, Except.bind]
    split <;> rfl
  by_cases herror : a.diagnostics.any Diagnostic.isError = true
  · refine ⟨_, ⟨hcompiled _ (if_pos herror), ⟨a, ha, rfl, hruns⟩, fun hstage => ?_⟩, rfl, ?_⟩
    · cases hstage
    · rw [if_pos herror]
      rfl
  · refine ⟨_, ⟨hcompiled _ (if_neg herror), ⟨a, ha, rfl, hruns⟩, fun _ => ?_⟩, rfl, ?_⟩
    · have hrender := Assembly.render_eq (Assembly.ofProgram p a.symbols build)
      have hblocks : (Assembly.ofProgram p a.symbols build).blocks.map TypeBlock.render =
          p.definitions.map block := by
        rw [Assembly.ofProgram, List.map_map]
        exact List.map_congr_left fun d _ => hblock d
      rw [hblocks] at hrender
      exact congrArg (fun image => some (Artifact.mk build.outputName build.runtimeLibrary image))
        hrender
    · rw [if_neg herror]
      rfl

/-! ### Two orders -/

theorem nodup_names {noPrelude : Bool} {p : Program}
    (hdistinct : (p.definitions.map fun d => d.name.text).Nodup)
    (hnew : ∀ d ∈ p.definitions, d.name.text ∉
      "Any" :: ((preludeUnits noPrelude).flatMap (·.definitions)).map fun e => e.name.text) :
    ("Any" :: ((preludeUnits noPrelude ++ [p]).flatMap (·.definitions)).map fun d =>
      d.name.text).Nodup := by
  rw [List.flatMap_append, List.flatMap_singleton, List.map_append, ← List.cons_append]
  refine (nodup_preludeNames noPrelude).append hdistinct fun name hold hmem => ?_
  obtain ⟨d, hd, rfl⟩ := List.mem_map.mp hmem
  exact hnew d hd hold

/-- If the types of a program have names of their own and none inherits from itself, it does not
matter in which order they are defined. -/
theorem compile_of_permuted_definitions (noPrelude : Bool) (build : BuildOptions)
    {source : String} {p p' : Program} (hp : Program.ofText .user source = .ok p)
    (hperm : p.definitions.Perm p'.definitions)
    (hdistinct : (p.definitions.map fun d => d.name.text).Nodup)
    (hnew : ∀ d ∈ p.definitions, d.name.text ∉
      "Any" :: ((preludeUnits noPrelude).flatMap (·.definitions)).map fun e => e.name.text)
    (hacyclic : ∀ d ∈ (preludeUnits noPrelude ++ [p]).flatMap (·.definitions),
      ¬ TransGen (TypeDef.Inherits ((preludeUnits noPrelude ++ [p]).flatMap (·.definitions))) d d) :
    let options : CompilerOptions := { noPrelude := noPrelude, build := build }
    ∃ a c c', analyze (preludeUnits noPrelude ++ [p]) = .ok a ∧ compile options source = .ok c ∧
      let reports := fun pass : Pass => pass.reports a.symbols
      let block := fun d => (TypeBlock.ofTypeDef a.symbols p build.runtimeLibrary d).render
      CompiledByDefinition options (preludeUnits noPrelude) p reports block c ∧
      CompiledByDefinition options (preludeUnits noPrelude) p' reports block c' ∧
      c'.diagnostics.Perm c.diagnostics ∧ c'.stage = c.stage := by
  intro options
  have hparsed := parseAll_sourceTexts noPrelude hp
  have hfiles := nodup_files_sourceTexts noPrelude source
  have hall : ((preludeUnits noPrelude ++ [p]).flatMap (·.definitions)).Perm
      ((preludeUnits noPrelude ++ [p']).flatMap (·.definitions)) := by
    simp only [List.flatMap_append, List.flatMap_singleton]
    exact hperm.append_left _
  obtain ⟨a, a', ρ, hruns, hruns', hrenames, hlookup⟩ := exists_runs_of_perm hall
    (nodup_signatures hfiles hparsed) (nodup_methodSignatures hfiles hparsed)
    (nodup_names hdistinct hnew) hacyclic
  have hdiagnostics : a'.diagnostics.Perm a.diagnostics := by
    rw [hruns.diagnostics, hruns'.diagnostics, List.flatMap_map, List.flatMap_map]
    exact (List.Perm.flatMap_left _ fun pass _ => hall.symm.flatMap_right _).append_left _
  have herror : a'.diagnostics.any Diagnostic.isError = a.diagnostics.any Diagnostic.isError :=
    hdiagnostics.any_eq
  obtain ⟨c, hc, hreported, hstage⟩ := exists_compiledByDefinition noPrelude build hruns
    fun d => rfl
  obtain ⟨c', hc', hreported', hstage'⟩ := exists_compiledByDefinition noPrelude build hruns'
    fun d => congrArg TypeBlock.render
      (TypeBlock.ofTypeDef_renamed hrenames hlookup hperm build.runtimeLibrary d)
  refine ⟨a, c, c', (analyze_eq_foldlM _).trans hruns.foldlM,
    (compile_eq_compileUnits hparsed).trans hc.compiled, hc, hc', ?_, ?_⟩
  · rw [hreported, hreported']
    exact hdiagnostics
  · rw [hstage, hstage', herror]

theorem TypeDef.acyclic_of_rank {ds : List TypeDef} (rank : String → Nat)
    (h : ∀ head ∈ ds.map TypeDef.head, ∀ name ∈ head.2, rank name < rank head.1) :
    ∀ d ∈ ds, ¬ TransGen (TypeDef.Inherits ds) d d := by
  intro d _
  refine not_transGen_self_of_rank (fun d => rank d.name.text) (fun d e hde => ?_) d
  exact h d.head (List.mem_map_of_mem hde.1) _ hde.2.2

/-- A class that inherits from a trait that is defined behind it and refers to an object that is,
with these definitions in the opposite order. -/
theorem compile_of_permuted_definitions_reversed :
    let source := "case class B(val x: A) extends A \x7b def f(x: A): A = O \x7d\n" ++
      "object O extends A \x7b def f(x: A): A = x \x7d\ntrait A \x7b def f(x: A): A \x7d"
    ∃ p, Program.ofText .user source = .ok p ∧
      let p' : Program := ⟨p.definitions.reverse⟩
      let ds := (preludeUnits false ++ [p]).flatMap (·.definitions)
      p.definitions.Perm p'.definitions ∧ (p.definitions.map fun d => d.name.text).Nodup ∧
      (∀ d ∈ p.definitions, d.name.text ∉
        "Any" :: ((preludeUnits false).flatMap (·.definitions)).map fun e => e.name.text) ∧
      (∀ d ∈ ds, ¬ TransGen (TypeDef.Inherits ds) d d) ∧
      ∃ a c c', analyze (preludeUnits false ++ [p]) = .ok a ∧ compile {} source = .ok c ∧
        let reports := fun pass : Pass => pass.reports a.symbols
        let block := fun d => (TypeBlock.ofTypeDef a.symbols p "Sable.Runtime" d).render
        CompiledByDefinition {} (preludeUnits false) p reports block c ∧
        CompiledByDefinition {} (preludeUnits false) p' reports block c' ∧
        c'.diagnostics.Perm c.diagnostics ∧ c'.stage = c.stage := by
  intro source
  have hparsed : (Program.ofText .user source).toOption.map
      (fun p => p.definitions.map TypeDef.head) =
        some [("B", ["A", "Product", "Serializable"]), ("O", ["A"]), ("A", [])] := by
    decide +kernel
  cases hp : Program.ofText .user source with
  | error es =>
    rw [hp] at hparsed
    cases hparsed
  | ok p =>
    rw [hp] at hparsed
    have hheads : p.definitions.map TypeDef.head = _ := Option.some.inj hparsed
    have hnames := TypeDef.names_of_heads hheads
    have hperm : p.definitions.Perm p.definitions.reverse := (List.reverse_perm _).symm
    have hdistinct : (p.definitions.map fun d => d.name.text).Nodup := by
      rw [hnames]
      decide
    have hnew : ∀ d ∈ p.definitions, d.name.text ∉
        "Any" :: ((preludeUnits false).flatMap (·.definitions)).map fun e => e.name.text := by
      rw [TypeDef.names_of_heads heads_preludeUnits,
        ← List.forall_mem_map (f := fun d : TypeDef => d.name.text)
          (P := fun name => name ∉ "Any" :: (preludeNames.map (·, [])).map Prod.fst), hnames]
      decide
    let rank (name : String) : Nat :=
      if name = "A" then 1 else if name = "B" ∨ name = "O" then 2 else 0
    have hranked : ∀ head ∈ ((preludeUnits false ++ [p]).flatMap (·.definitions)).map TypeDef.head,
        ∀ name ∈ head.2, rank name < rank head.1 := by
      rw [List.flatMap_append, List.flatMap_singleton, List.map_append, heads_preludeUnits, hheads]
      decide
    have hacyclic := TypeDef.acyclic_of_rank rank hranked
    exact ⟨p, rfl, hperm, hdistinct, hnew, hacyclic,
      compile_of_permuted_definitions false {} hp hperm hdistinct hnew hacyclic⟩

end Mixin
