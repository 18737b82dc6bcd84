import Mixin.Proofs.Analysis.Unimplemented
import Mixin.Proofs.Totality
import Mixin.Session

/-!
# Compilations keep apart

Whatever a session was asked to do before, a text is compiled in it as in a session in which nothing
happened yet (`runAll_compiledAfresh`): no stage, no problem and no error is left over. What was
found is shown once if there is anything to show, an artifact comes of a text if and only if no
error was found in it, and problems of syntax never stand with others.
-/

namespace Mixin

/-! ### Kinds of problem -/

theorem Program.ofText_error_ne_nil {file : SourceFile} {text : String} {errors : List SyntaxError}
    (h : Program.ofText file text = .error errors) : errors ≠ [] := by
  rw [ofText, ofTokens] at h
  split at h
  · cases h
  next hne =>
    obtain rfl := Except.error.inj h
    simpa using hne

theorem parseAll_error_ne_nil {texts : List (SourceFile × String)} {errors : List SyntaxError}
    (h : parseAll texts = .error errors) : errors ≠ [] := by
  induction texts generalizing errors with
  | nil => cases h
  | cons t rest ih =>
    rw [parseAll] at h
    split at h
    · cases h
    next hrest =>
      obtain rfl := Except.error.inj h
      exact ih hrest
    next htext _ =>
      obtain rfl := Except.error.inj h
      exact Program.ofText_error_ne_nil htext
    next htext _ =>
      obtain rfl := Except.error.inj h
      exact List.append_ne_nil_of_left_ne_nil (Program.ofText_error_ne_nil htext) _

theorem Analysis.kind_ne_syntaxError {texts : List (SourceFile × String)} {units : List Program}
    (hfiles : (texts.map (·.1)).Nodup) (hparsed : parseAll texts = .ok units) {a : Analysis}
    (ha : analyze units = .ok a) : ∀ e ∈ a.diagnostics, e.kind ≠ .syntaxError := by
  have htypes := nodup_signatures hfiles hparsed
  have hmethods := nodup_methodSignatures hfiles hparsed
  obtain ⟨cycles, reports, hu⟩ := untangled_resolvedUnits htypes
  obtain ⟨found, hfound, -, hdiagnostics⟩ := analyze_reports htypes hmethods
  obtain rfl := Except.ok.inj (ha.symm.trans hfound)
  have hdecl := (Analysis.collected units).decl_final hu
  -- Problems come of declarations and supertypes, of initializers, and of what a type must have.
  intro e he
  rw [hdiagnostics, List.mem_append, List.mem_append] at he
  rcases he with (he | he) | he
  · intro hkind
    have hmem := kind_of_mem_resolvedUnits he
    rw [hkind] at hmem
    exact absurd hmem (by decide)
  · simp [kind_of_mem_missingInitializers he]
  · obtain ⟨p, hp, he⟩ := List.mem_flatMap.mp he
    rw [obligations_type (hdecl p hp), List.mem_append] at he
    rcases he with he | he
    · simp [kind_of_mem_unimplemented he]
    · obtain ⟨m, -, he⟩ := List.mem_flatMap.mp he
      simp [kind_of_mem_missingBody he]

namespace Session

/-! ### What is shown -/

def displayed? : Signal → Option (List Diagnostic)
  | .event _ => none
  | .display ds => some ds

def displays (signals : List Signal) : List (List Diagnostic) := signals.filterMap displayed?

theorem displays_append (xs ys : List Signal) :
    displays (xs ++ ys) = displays xs ++ displays ys := List.filterMap_append ..

@[simp] theorem displays_events (events : List Event) : displays (events.map .event) = [] := by
  simp [displays, displayed?]

namespace Progress

variable (p : Progress)

@[simp] theorem displays_tell (events : List Event) :
    displays (p.tell events).signals = displays p.signals := by
  rw [tell, displays_append, displays_events, List.append_nil]

@[simp] theorem displays_reach (stage : Stage) :
    displays (p.reach stage).signals = displays p.signals := displays_tell ..

@[simp] theorem displays_flush :
    displays p.flush.signals = displays p.signals ++ [p.state.diagnostics] := displays_append ..

@[simp] theorem displays_analyzed (a : Analysis) :
    displays (p.analyzed a).signals = displays p.signals := displays_tell ..

@[simp] theorem after_abort : p.abort.after = ⟨.aborted, p.state.diagnostics⟩ := rfl

@[simp] theorem artifact_abort : p.abort.artifact = none := rfl

@[simp] theorem displays_abort :
    displays p.abort.signals = displays p.signals ++ [p.state.diagnostics] := by
  simp only [abort, displays_flush, displays_tell, displays_reach]
  rfl

section

variable (options : CompilerOptions) (program : Program) (symbols : SymbolTable)

@[simp] theorem after_generate :
    (p.generate options program symbols).after = ⟨.generated, p.state.diagnostics⟩ := by
  simp only [generate]
  split <;> rfl

@[simp] theorem artifact_generate : (p.generate options program symbols).artifact =
    some (options.backend program symbols options.build).1 := rfl

@[simp] theorem displays_generate : displays (p.generate options program symbols).signals =
    displays p.signals ++ if p.state.diagnostics = [] then [] else [p.state.diagnostics] := by
  have hstate (events : List Event) :
      ((p.tell events).reach .generated).state.diagnostics = p.state.diagnostics := rfl
  simp only [generate, displays_tell, hstate]
  split
  next hnil => rw [displays_reach, displays_tell, if_pos (by simpa using hnil), List.append_nil]
  next hne =>
    rw [displays_flush, displays_reach, displays_tell, hstate, if_neg (by simpa using hne)]

end

end Progress

/-! ### How a compilation ends -/

/-- A compilation is at its end, and its end shows whether errors were found. -/
structure Outcome.Settled (o : Outcome) : Prop where
  ended : o.after.stage = .generated ∨ o.after.stage = .aborted
  shown : displays o.signals =
    if o.after.diagnostics = [] then [] else [o.after.diagnostics]
  artifact : o.artifact.isSome = true ↔ o.after.stage = .generated
  sound : o.after.stage = .generated ↔ ∀ d ∈ o.after.diagnostics, d.severity ≠ .error

theorem hasError_eq_false_iff {s : Session} :
    s.hasError = false ↔ ∀ d ∈ s.diagnostics, d.severity ≠ .error := by
  simp [hasError, Diagnostic.isError]

theorem Progress.settled_abort {p : Progress} (hshown : displays p.signals = [])
    (herror : p.state.hasError = true) : p.abort.Settled := by
  have hne : p.state.diagnostics ≠ [] := by
    intro hnil
    simp [hasError, hnil] at herror
  have hsound : ¬ ∀ d ∈ p.state.diagnostics, d.severity ≠ .error := by
    rw [← hasError_eq_false_iff, herror]
    decide
  exact ⟨by simp, by simp [hshown, hne], by simp, by simpa using hsound⟩

theorem Progress.settled_generate {p : Progress} (hshown : displays p.signals = [])
    (herror : p.state.hasError = false) (options : CompilerOptions) (program : Program)
    (symbols : SymbolTable) : (p.generate options program symbols).Settled := by
  have hsound := hasError_eq_false_iff.mp herror
  exact ⟨by simp, by simp [hshown], by simp, by simpa using hsound⟩

/-! ### Compilations -/

def Outcome.compilation (o : Outcome) : Compilation :=
  ⟨o.after.stage, o.artifact, o.after.diagnostics, o.signals⟩

namespace Progress

variable {p : Progress} {events : List Event}

theorem compilation_abort (h : p.signals = events.map .event) :
    p.abort.compilation = .stopped p.state.stage p.state.diagnostics events := by
  simp [Outcome.compilation, Compilation.stopped, abort, reach, tell, flush, h]

theorem compilation_generate (h : p.signals = events.map .event)
    (hstage : p.state.stage = .obligationsValidated) (options : CompilerOptions) (program : Program)
    (symbols : SymbolTable) : (p.generate options program symbols).compilation =
      .finished options program symbols p.state.diagnostics events := by
  cases hds : p.state.diagnostics with
  | nil => simp [Outcome.compilation, Compilation.finished, generate, reach, tell, h, hstage, hds]
  | cons d ds =>
    simp [Outcome.compilation, Compilation.finished, generate, reach, tell, flush, h, hstage, hds]

end Progress

/-- What came of compiling a text in a session is what comes of it in one in which nothing happened
yet, and without any session. -/
structure CompiledAfresh (options : CompilerOptions) (source : String) (o : Outcome) : Prop
    extends o.Settled where
  fresh : initial.run options (.compile source) = .ok o
  alone : Mixin.compile options source = .ok o.compilation
  kinds : (∀ d ∈ o.after.diagnostics, d.kind = .syntaxError) ∨
    ∀ d ∈ o.after.diagnostics, d.kind ≠ .syntaxError

theorem compile_eq_initial (options : CompilerOptions) (s : Session) (source : String) :
    s.compile options source = initial.compile options source := rfl

section

variable {options : CompilerOptions} {source : String}

def parsed (ds : List Diagnostic) : Progress :=
  ((Progress.reach ⟨initial, []⟩ .lexed).record ds).reach .parsed

theorem displays_parsed (ds : List Diagnostic) : displays (parsed ds).signals = [] := rfl

theorem exists_compiledAfresh_of_error {errors : List SyntaxError}
    (h : parseAll (sourceTexts options.noPrelude source) = .error errors) :
    ∃ o, initial.compile options source = .ok o ∧ CompiledAfresh options source o := by
  let stopped := (parsed (errors.map .syntaxError)).tell [.syntaxErrorsFound errors.length]
  have hcompile : initial.compile options source = .ok stopped.abort := by
    rw [compile, h]
    rfl
  have herror : stopped.state.hasError = true := by
    obtain ⟨e, rest, rfl⟩ := List.exists_cons_of_ne_nil (parseAll_error_ne_nil h)
    rfl
  have hsignals : stopped.signals =
      (startEvents ++ [Event.syntaxErrorsFound errors.length]).map .event := rfl
  refine ⟨_, hcompile, Progress.settled_abort ?_ herror, hcompile, ?_, .inl fun d hd => ?_⟩
  · rw [Progress.displays_tell, displays_parsed]
  · rw [Progress.compilation_abort hsignals]
    exact compile_eq_of_error h
  · obtain ⟨e, -, rfl⟩ := List.mem_map.mp hd
    rfl

theorem exists_compiledAfresh_of_ok {units : List Program} {a : Analysis}
    (h : parseAll (sourceTexts options.noPrelude source) = .ok units) (ha : analyze units = .ok a)
    (hkinds : ∀ d ∈ a.diagnostics, d.kind ≠ .syntaxError) :
    ∃ o, initial.compile options source = .ok o ∧ CompiledAfresh options source o := by
  let analyzed := (parsed []).analyzed a
  let program := units.getLast?.getD ⟨[]⟩
  have hcompile : initial.compile options source =
      if analyzed.state.hasError then .ok analyzed.abort
      else .ok (analyzed.generate options program a.symbols) := by
    simp only [compile, h, ha, bind, Except.bind]
    rfl
  have halone := compile_eq_of_ok h ha
  have hshown : displays analyzed.signals = [] := by
    rw [Progress.displays_analyzed, displays_parsed]
  have hsignals : analyzed.signals = (startEvents ++ a.events).map .event := by
    rw [List.map_append]
    rfl
  cases herror : analyzed.state.hasError with
  | true =>
    rw [if_pos herror] at hcompile
    refine ⟨_, hcompile, Progress.settled_abort hshown herror, hcompile, ?_, .inr hkinds⟩
    rw [halone, Progress.compilation_abort hsignals]
    exact congrArg _ (if_pos herror)
  | false =>
    have hnot : ¬ analyzed.state.hasError = true := by simp [herror]
    rw [if_neg hnot] at hcompile
    refine ⟨_, hcompile, Progress.settled_generate hshown herror options program a.symbols,
      hcompile, ?_, .inr ?_⟩
    · rw [halone, Progress.compilation_generate hsignals rfl]
      exact congrArg _ (if_neg hnot)
    · rw [Progress.after_generate]
      exact hkinds

theorem exists_compiledAfresh (options : CompilerOptions) (source : String) :
    ∃ o, initial.compile options source = .ok o ∧ CompiledAfresh options source o := by
  have hfiles := nodup_files_sourceTexts options.noPrelude source
  have htexts : sourceTexts options.noPrelude source ≠ [] := by simp [sourceTexts]
  cases hparsed : parseAll (sourceTexts options.noPrelude source) with
  | error errors => exact exists_compiledAfresh_of_error hparsed
  | ok units =>
    obtain ⟨a, ha⟩ := exists_analyzesSafely htexts hparsed
    exact exists_compiledAfresh_of_ok hparsed ha.analyzed
      (Analysis.kind_ne_syntaxError hfiles hparsed ha.analyzed)

end

/-- Every step comes to an end, and one that compiles a text compiles it as if it were the first. -/
theorem exists_run (options : CompilerOptions) (s : Session) (step : Step) :
    ∃ o, s.run options step = .ok o ∧
      ∀ source, step = .compile source → CompiledAfresh options source o := by
  cases step with
  | compile source =>
    obtain ⟨o, hcompile, ho⟩ := exists_compiledAfresh options source
    refine ⟨o, (compile_eq_initial options s source).trans hcompile, fun other hother => ?_⟩
    obtain rfl := Step.compile.inj hother
    exact ho
  | record d => exact ⟨_, rfl, fun source h => by cases h⟩
  | flush => exact ⟨_, rfl, fun source h => by cases h⟩
  | clear => exact ⟨_, rfl, fun source h => by cases h⟩

/-- Whatever a session is asked to do, every text is compiled in it as if it were the first. -/
theorem runAll_compiledAfresh (options : CompilerOptions) (s : Session) (steps : List Step) :
    ∃ outcomes, runAll options s steps = .ok outcomes ∧
      List.Forall₂ (fun step o => ∀ source, step = .compile source →
        CompiledAfresh options source o) steps outcomes := by
  induction steps generalizing s with
  | nil => exact ⟨[], rfl, .nil⟩
  | cons step steps ih =>
    obtain ⟨o, hrun, ho⟩ := exists_run options s step
    obtain ⟨others, hothers, hall⟩ := ih o.after
    refine ⟨o :: others, ?_, .cons ho hall⟩
    rw [runAll, hrun]
    simp only [bind, Except.bind, hothers]
    rfl

end Session

end Mixin
