import Mixin.Command.Execution
import Mixin.Proofs.Acceptance
import Mixin.Proofs.Listing.Blocks

/-!
# Where listings go

The output of a build is a folder and a name in it. The listing goes to this folder, but under the
stem of the name: what follows the last dot is dropped before `.il` is added. So the name is kept
only if it has no dot behind its first character, and outputs whose names have the same stem share
one file (`build_goes_to_stem`).
-/

namespace Mixin

/-! ### Paths -/

namespace Path

/-- A path is a folder, which is empty or ends with a slash, and the name of a file behind it. -/
structure EndsIn (path folder name : List Char) : Prop where
  path : path = folder ++ name
  folder : folder = [] ∨ ∃ before, folder = before ++ ['/']
  slash : '/' ∉ name
  name : name ≠ [] ∧ name ≠ ['.'] ∧ name ≠ ['.', '.']

theorem segments_ne_nil (path : List Char) : segments path ≠ [] := by
  cases path with
  | nil => simp [segments]
  | cons c rest =>
    rw [segments]
    split
    · simp
    · split <;> simp

theorem segments_append_slash (before rest : List Char) :
    segments (before ++ '/' :: rest) = segments before ++ segments rest := by
  induction before with
  | nil => simp [segments]
  | cons c before ih =>
    obtain ⟨first, others, hsegments⟩ := List.exists_cons_of_ne_nil (segments_ne_nil before)
    rw [List.cons_append, segments, segments, ih, hsegments]
    split <;> simp

theorem segments_of_not_mem {name : List Char} (h : '/' ∉ name) : segments name = [name] := by
  induction name with
  | nil => rfl
  | cons c name ih =>
    obtain ⟨hc, hname⟩ := not_or.mp (List.mem_cons.not.mp h)
    rw [segments, if_neg (by simpa using Ne.symm hc), ih hname]

theorem join_concat {before : List (List Char)} (h : before ≠ []) (name : List Char) :
    join (before ++ [name]) = join before ++ '/' :: name := by
  induction before with
  | nil => exact absurd rfl h
  | cons segment rest ih =>
    cases rest with
    | nil => rfl
    | cons next rest =>
      have hrest := ih (List.cons_ne_nil _ _)
      simp only [List.cons_append, join] at hrest ⊢
      rw [hrest, List.append_assoc, List.cons_append]

namespace EndsIn

variable {path folder name : List Char}

theorem segments_eq (h : EndsIn path folder name) :
    ∃ before, segments path = before ++ [name] ∧
      ∀ other, join (before ++ [other]) = folder ++ other := by
  rcases h.folder with hfolder | ⟨before, hfolder⟩
  · refine ⟨[], ?_, fun other => ?_⟩
    · rw [h.path, hfolder, List.nil_append, segments_of_not_mem h.slash, List.nil_append]
    · rw [hfolder]
      rfl
  · refine ⟨segments before, ?_, fun other => ?_⟩
    · rw [h.path, hfolder, List.append_assoc, List.singleton_append, segments_append_slash,
        segments_of_not_mem h.slash]
    · rw [join_concat (segments_ne_nil before), join_segments, hfolder, List.append_assoc]
      rfl

theorem isIdle_eq_false (h : EndsIn path folder name) : isIdle name = false := by
  simp [isIdle, h.name.1, h.name.2.1]

theorem fileName?_eq (h : EndsIn path folder name) :
    ∃ before, fileName? path = some (name, before) ∧
      ∀ other, join (before.reverse ++ [other]) = folder ++ other := by
  obtain ⟨before, hsegments, hjoin⟩ := h.segments_eq
  refine ⟨before.reverse, ?_, fun other => by rw [List.reverse_reverse, hjoin]⟩
  rw [fileName?, hsegments, List.reverse_concat, List.dropWhile_cons_of_neg]
  · simp [h.name.2.2]
  · simp [h.isIdle_eq_false]

end EndsIn

theorem stem_of_dot {before extension : List Char} (hbefore : before ≠ [])
    (hextension : '.' ∉ extension) : stem (before ++ '.' :: extension) = before := by
  have hplain : ∀ c ∈ extension.reverse, (c != '.') = true := by
    intro c hc
    rw [bne_iff_ne]
    rintro rfl
    exact hextension (List.mem_reverse.mp hc)
  have hdrop : (before ++ '.' :: extension).reverse.dropWhile (· != '.') =
      '.' :: before.reverse := by
    rw [List.reverse_append, List.reverse_cons, List.append_assoc, List.singleton_append,
      List.dropWhile_append_of_pos hplain, List.dropWhile_cons_of_neg (by simp)]
  obtain ⟨c, rest, hrest⟩ := List.exists_cons_of_ne_nil (List.reverse_ne_nil_iff.mpr hbefore)
  rw [stem, hdrop, hrest]
  exact List.reverse_eq_iff.mpr hrest.symm

theorem stem_eq_self {name : List Char} (h : '.' ∉ name.tail) : stem name = name := by
  cases name with
  | nil => rfl
  | cons c rest =>
    have hplain : ∀ d ∈ rest.reverse, (d != '.') = true := by
      intro d hd
      rw [bne_iff_ne]
      rintro rfl
      exact h (List.mem_reverse.mp hd)
    rw [stem, List.reverse_cons, List.dropWhile_append_of_pos hplain]
    by_cases hc : c = '.'
    · rw [hc, List.dropWhile_cons_of_neg (by simp)]
    · rw [List.dropWhile_cons_of_pos (by simpa using hc), List.dropWhile_nil]

/-- The stem is the whole name, or it ends before the last dot, which is not the first
character. -/
theorem stem_cases (name : List Char) : '.' ∉ name.tail ∧ stem name = name ∨
    ∃ before extension, name = before ++ '.' :: extension ∧ before ≠ [] ∧ stem name = before := by
  by_cases h : '.' ∈ name.tail
  · cases name with
    | nil => cases h
    | cons c rest =>
      obtain ⟨as, bs, heq, has⟩ := List.eq_append_cons_of_mem (List.mem_reverse.mpr h)
      have hrest : rest = bs.reverse ++ '.' :: as.reverse := by
        rw [← List.reverse_reverse rest]
        exact (congrArg List.reverse heq).trans (by simp)
      have hname : c :: rest = (c :: bs.reverse) ++ '.' :: as.reverse := congrArg (c :: ·) hrest
      refine .inr ⟨c :: bs.reverse, as.reverse, hname, List.cons_ne_nil _ _, ?_⟩
      rw [hname, stem_of_dot (List.cons_ne_nil _ _) (by simpa using has)]
  · exact .inl ⟨h, stem_eq_self h⟩

theorem stem_eq_self_iff {name : List Char} : stem name = name ↔ '.' ∉ name.tail := by
  refine ⟨fun hstem => ?_, stem_eq_self⟩
  rcases stem_cases name with h | ⟨before, extension, rfl, -, hbefore⟩
  · exact h.1
  · rw [hbefore] at hstem
    simp at hstem

theorem stem_ne_nil {name : List Char} (h : name ≠ []) : stem name ≠ [] := by
  rcases stem_cases name with hself | ⟨before, extension, rfl, hne, hbefore⟩
  · rwa [hself.2]
  · rwa [hbefore]

theorem stem_subset (name : List Char) : stem name ⊆ name := by
  rcases stem_cases name with hself | ⟨before, extension, rfl, -, hbefore⟩
  · rw [hself.2]
    exact List.Subset.refl name
  · rw [hbefore]
    exact List.subset_append_left ..

def listingName (name : List Char) : List Char := stem name ++ ".il".toList

theorem stem_listingName {name : List Char} (h : name ≠ []) : stem (listingName name) = stem name :=
  stem_of_dot (stem_ne_nil h) (by decide)

namespace EndsIn

variable {path : String} {folder name : List Char}

theorem withExtension_eq (h : EndsIn path.toList folder name) :
    withExtension path "il" = String.ofList (folder ++ listingName name) := by
  obtain ⟨before, hname, hjoin⟩ := h.fileName?_eq
  rw [withExtension, hname]
  exact congrArg String.ofList (hjoin _)

theorem listing (h : EndsIn path.toList folder name) :
    EndsIn (withExtension path "il").toList folder (listingName name) where
  path := by rw [h.withExtension_eq, String.toList_ofList]
  folder := h.folder
  slash := by
    rw [listingName, List.mem_append]
    rintro (hmem | hmem)
    · exact h.slash (stem_subset name hmem)
    · exact absurd hmem (by decide)
  name := by
    have hlength : (listingName name).length = (stem name).length + 3 := List.length_append ..
    refine ⟨fun heq => ?_, fun heq => ?_, fun heq => ?_⟩ <;>
      simp [heq] at hlength

theorem stem?_eq (h : EndsIn path.toList folder name) :
    stem? path = some (String.ofList (stem name)) := by
  obtain ⟨before, hname, -⟩ := h.fileName?_eq
  rw [stem?, hname]
  rfl

end EndsIn

end Path

/-! ### Places -/

namespace FileTree

theorem walk_append (t : FileTree) (place : List (List Char)) (xs ys : List (List Char)) :
    t.walk place (xs ++ ys) = (t.walk place xs).bind fun q => t.walk q ys := by
  induction xs generalizing place with
  | nil => rfl
  | cons x xs ih =>
    simp only [List.cons_append, walk, ih]
    repeat' split
    all_goals rfl

theorem exists_directory {t : FileTree} {path : String} {folder name : List Char}
    {place : List (List Char)} (h : Path.EndsIn path.toList folder name)
    (hplace : t.locate? path = some place) : ∃ directory, place = directory ++ [name] := by
  obtain ⟨before, hsegments, -⟩ := h.segments_eq
  obtain ⟨start, hwalk⟩ : ∃ start, t.walk start (before ++ [name]) = some place := by
    rw [locate?] at hplace
    split at hplace
    · cases hplace
    · rename_i c rest hpath
      rw [← hpath, hsegments] at hplace
      split at hplace
      · exact ⟨_, hplace⟩
      · cases hplace
  rw [walk_append] at hwalk
  obtain ⟨directory, -, hlast⟩ := Option.bind_eq_some_iff.mp hwalk
  have hstep : (name == ['.', '.']) = false := by simp [h.name.2.2]
  simp only [walk, h.isIdle_eq_false, hstep, Bool.false_eq_true, if_false] at hlast
  refine ⟨directory, ?_⟩
  split at hlast
  · cases hlast
  · split at hlast
    · exact (Option.some.inj hlast).symm
    · cases hlast

end FileTree

/-! ### Builds -/

theorem artifact_of_compile {noPrelude : Bool} {build : BuildOptions} {source : String}
    {c : Compilation} {artifact : Artifact}
    (hc : compile { noPrelude := noPrelude, build := build } source = .ok c)
    (hartifact : c.artifact = some artifact) :
    artifact.name = build.outputName ∧
      ∃ blocks, artifact.image = Assembly.header build ++ blocks := by
  rw [compile] at hc
  cases hparsed : parseAll (sourceTexts noPrelude source) with
  | error errors =>
    simp only [hparsed, Except.ok.injEq] at hc
    subst hc
    cases hartifact
  | ok units =>
    simp only [hparsed, bind, Except.bind] at hc
    cases ha : analyze units with
    | error u => simp [ha] at hc
    | ok a =>
      simp only [ha] at hc
      split at hc
      · obtain rfl := Except.ok.inj hc
        cases hartifact
      · obtain rfl := Except.ok.inj hc
        obtain rfl := Option.some.inj hartifact
        exact ⟨rfl, _, Assembly.render_eq _⟩

namespace Job

/-- The job is to build a listing as `output`, and it was done. -/
structure Built (job : Job) (output : String) (files after : FileTree) : Prop where
  target : ∃ library, job.target = .build (some output) library
  run : ∃ report, job.runOn files = .ok (report, after) ∧ report.result = .done

/-- The artifact into which the job compiles its source is stored where the path leads, under the
header for its name. Nothing else is changed. -/
structure Stores (job : Job) (files after : FileTree) (path : String) (place : List (List Char))
    (artifact : Artifact) : Prop where
  compiled : ∃ text c, (files.read? job.source).bind String.fromUTF8? = some text ∧
    compile job.compilerOptions text = .ok c ∧ c.artifact = some artifact
  headed : ∃ output library blocks, job.target = .build output library ∧
    artifact.image = Assembly.header ⟨library, artifact.name⟩ ++ blocks
  located : files.locate? path = some place
  written : after.file? place = some artifact.image.toUTF8
  kept : ∀ other, other ≠ place → after.file? other = files.file? other

theorem Built.exists_write? {job : Job} {output : String} {files after : FileTree}
    (h : job.Built output files after) :
    ∃ text c artifact, (files.read? job.source).bind String.fromUTF8? = some text ∧
      compile job.compilerOptions text = .ok c ∧ c.artifact = some artifact ∧
      files.write? (outputPath job.source (some output)) artifact.image.toUTF8 = some after := by
  obtain ⟨library, htarget⟩ := h.target
  obtain ⟨report, hrun, hdone⟩ := h.run
  rw [runOn, plan] at hrun
  cases htext : (files.read? job.source).bind String.fromUTF8? with
  | none =>
    simp only [htext, bind, Except.bind] at hrun
    obtain ⟨rfl, rfl⟩ := Prod.mk.inj (Except.ok.inj hrun)
    cases hdone
  | some text =>
    simp only [htext, planOfText, htarget, bind, Except.bind] at hrun
    cases hc : compile job.compilerOptions text with
    | error u => simp [hc] at hrun
    | ok c =>
      cases hartifact : c.artifact with
      | none =>
        simp only [hc, hartifact] at hrun
        obtain ⟨rfl, rfl⟩ := Prod.mk.inj (Except.ok.inj hrun)
        cases hdone
      | some artifact =>
        simp only [hc, hartifact] at hrun
        cases hwrite : files.write? (outputPath job.source (some output))
            artifact.image.toUTF8 with
        | none =>
          simp only [planOfSignals, pure, Except.pure, hwrite] at hrun
          obtain ⟨rfl, rfl⟩ := Prod.mk.inj (Except.ok.inj hrun)
          cases hdone
        | some tree =>
          simp only [planOfSignals, pure, Except.pure, hwrite] at hrun
          obtain ⟨rfl, rfl⟩ := Prod.mk.inj (Except.ok.inj hrun)
          exact ⟨text, c, artifact, rfl, hc, hartifact, hwrite⟩

theorem Built.of_artifact {job : Job} {output library text : String} {files after : FileTree}
    {c : Compilation} {artifact : Artifact} (htarget : job.target = .build (some output) library)
    (htext : (files.read? job.source).bind String.fromUTF8? = some text)
    (hc : compile job.compilerOptions text = .ok c) (hartifact : c.artifact = some artifact)
    (hwrite : files.write? (outputPath job.source (some output)) artifact.image.toUTF8 =
      some after) : job.Built output files after where
  target := ⟨library, htarget⟩
  run := by
    refine ⟨(job.planOfSignals .done c.signals
      (some (outputPath job.source (some output), artifact.image))).finish job true, ?_, rfl⟩
    simp only [runOn, plan, htext, planOfText, htarget, hc, hartifact, bind, Except.bind,
      planOfSignals, pure, Except.pure, hwrite]

theorem compilerOptions_of_build {job : Job} {output : Option String} {library : String}
    (h : job.target = .build output library) :
    job.compilerOptions =
      { noPrelude := job.noPrelude
        build := ⟨library, assemblyName (outputPath job.source output)⟩ } := by
  rw [compilerOptions, h]

variable {output : String} {folder name : List Char}

theorem outputPath_eq (h : Path.EndsIn output.toList folder name) (source : String) :
    outputPath source (some output) = String.ofList (folder ++ Path.listingName name) :=
  h.withExtension_eq

theorem assemblyName_outputPath (h : Path.EndsIn output.toList folder name) (source : String) :
    assemblyName (outputPath source (some output)) = String.ofList (Path.stem name) := by
  rw [assemblyName, outputPath, Option.getD_some, h.listing.stem?_eq,
    Path.stem_listingName h.name.1, Option.getD_some]

theorem outputPath_eq_append_iff (h : Path.EndsIn output.toList folder name) (source : String) :
    outputPath source (some output) = output ++ ".il" ↔ '.' ∉ name.tail := by
  rw [outputPath_eq h, ← Path.stem_eq_self_iff, ← String.toList_inj, String.toList_ofList,
    String.toList_append, h.path, List.append_assoc, List.append_cancel_left_eq, Path.listingName,
    List.append_cancel_right_eq]

/-- A build that was done has stored its listing under the stem of the name. -/
theorem Built.stores {job : Job} {files after : FileTree} (h : job.Built output files after)
    (houtput : Path.EndsIn output.toList folder name) :
    ∃ directory artifact, artifact.name = String.ofList (Path.stem name) ∧
      job.Stores files after (String.ofList (folder ++ Path.listingName name))
        (directory ++ [Path.listingName name]) artifact := by
  obtain ⟨text, c, artifact, htext, hc, hartifact, hwrite⟩ := h.exists_write?
  obtain ⟨library, htarget⟩ := h.target
  obtain ⟨place, hplace⟩ : ∃ place,
      files.locate? (outputPath job.source (some output)) = some place := by
    cases hplace : files.locate? (outputPath job.source (some output)) with
    | none => simp [FileTree.write?, hplace] at hwrite
    | some place => exact ⟨place, rfl⟩
  obtain ⟨directory, rfl⟩ := FileTree.exists_directory houtput.listing hplace
  have hoptions := hc
  rw [compilerOptions_of_build htarget, assemblyName_outputPath houtput] at hoptions
  obtain ⟨hnamed, blocks, himage⟩ := artifact_of_compile hoptions hartifact
  refine ⟨directory, artifact, hnamed, ⟨text, c, htext, hc, hartifact⟩,
    ⟨_, library, blocks, htarget, hnamed ▸ himage⟩, outputPath_eq houtput job.source ▸ hplace,
    FileTree.file?_write? hplace hwrite, fun other hother => ?_⟩
  exact FileTree.file?_write?_of_ne hplace hwrite hother

/-- A build that was done stores its listing in the folder of its output, under the stem of the
name, and the assembly is named after this stem; this is the output itself with `.il` behind it if
the name has no dot behind its first character. A later build takes the place of the listing if it
stores its own in the same directory under a name with the same stem, and otherwise leaves the
listing as it is. -/
theorem build_goes_to_stem (houtput : Path.EndsIn output.toList folder name) :
    (∀ source, outputPath source (some output) =
      String.ofList (folder ++ (Path.stem name ++ ".il".toList))) ∧
    (∀ source, outputPath source (some output) = output ++ ".il" ↔ '.' ∉ name.tail) ∧
    (Path.stem name = name ↔ '.' ∉ name.tail) ∧
    ∀ job files after, Built job output files after →
      ∃ directory artifact, artifact.name = String.ofList (Path.stem name) ∧
        job.Stores files after (String.ofList (folder ++ Path.listingName name))
          (directory ++ [Path.listingName name]) artifact ∧
        ∀ job' output' folder' name' after', Path.EndsIn (String.toList output') folder' name' →
          Built job' output' after after' →
          ∃ directory' artifact',
            job'.Stores after after' (String.ofList (folder' ++ Path.listingName name'))
              (directory' ++ [Path.listingName name']) artifact' ∧
            after'.file? (directory ++ [Path.listingName name]) =
              some (if directory' = directory ∧ Path.stem name' = Path.stem name then
                artifact'.image else artifact.image).toUTF8 := by
  refine ⟨outputPath_eq houtput, outputPath_eq_append_iff houtput, Path.stem_eq_self_iff,
    fun job files after hbuilt => ?_⟩
  obtain ⟨directory, artifact, hnamed, hstores⟩ := hbuilt.stores houtput
  refine ⟨directory, artifact, hnamed, hstores,
    fun job' output' folder' name' after' houtput' hbuilt' => ?_⟩
  obtain ⟨directory', artifact', -, hstores'⟩ := hbuilt'.stores houtput'
  refine ⟨directory', artifact', hstores', ?_⟩
  split
  · rename_i hsame
    rw [← hsame.1, Path.listingName, ← hsame.2]
    exact hstores'.written
  · rename_i hdiffers
    refine (hstores'.kept _ fun heq => hdiffers ?_).trans hstores.written
    obtain ⟨hplace, hlisting⟩ := List.append_inj' heq rfl
    exact ⟨hplace.symm, (List.append_cancel_right (List.singleton_inj.mp hlisting)).symm⟩

theorem exists_artifact (options : CompilerOptions) {source : String} {p : Program}
    (hprelude : options.noPrelude = true) (hp : Program.ofText .user source = .ok p)
    (hnames : ("Any" :: p.definitions.map fun d => d.name.text).Nodup)
    (hindependent : ∀ d ∈ p.definitions, d.Independent) :
    ∃ c artifact, compile options source = .ok c ∧ c.artifact = some artifact := by
  have hunits : parseAll (sourceTexts options.noPrelude source) = .ok [p] := by
    rw [hprelude]
    exact parseAll_cons hp rfl
  have hfiles : ((sourceTexts options.noPrelude source).map (·.1)).Nodup := by
    simp [sourceTexts, hprelude]
  obtain ⟨a, ha, hharmless⟩ := harmless_analyze_iff hfiles hunits
  obtain ⟨c, hc, -, hartifact⟩ := exists_compile hunits ha
  have hwell : WellFormed ([p].flatMap (·.definitions)) := by
    rw [List.flatMap_singleton]
    exact wellFormed_of_independent hnames hindependent
  obtain ⟨artifact, hsome⟩ := Option.isSome_iff_exists.mp (hartifact.mpr (hharmless.mpr hwell))
  exact ⟨c, artifact, hc, hsome⟩

def buildA (output : String) : Job :=
  { source := "a.sbl", target := .build (some output) "Sable.Runtime", noPrelude := true }

def filesA (others : List (List (List Char) × ByteArray)) : FileTree :=
  ⟨[], (["a.sbl".toList], "class A".toUTF8) :: others⟩

theorem exists_built {others : List (List (List Char) × ByteArray)} {output : String}
    (hpath : outputPath "a.sbl" (some output) = "app.il")
    (hwrite : ∀ listing, (filesA others).write? "app.il" listing =
      some (filesA [(["app.il".toList], listing)])) :
    ∃ listing, (buildA output).Built output (filesA others)
      (filesA [(["app.il".toList], listing)]) := by
  have hchecked : (Program.ofText .user "class A").toOption.map (fun p =>
      (p.definitions.map fun d => d.name.text, decide (∀ d ∈ p.definitions, d.Independent))) =
        some (["A"], true) := by
    decide +kernel
  obtain ⟨p, hp, hfound⟩ := exists_ok_of_toOption hchecked
  obtain ⟨hnames, hindependent⟩ := Prod.mk.inj hfound
  obtain ⟨c, artifact, hc, hartifact⟩ :=
    exists_artifact (buildA output).compilerOptions rfl hp
      (by rw [hnames]; decide) (of_decide_eq_true hindependent)
  have hread : ((filesA others).read? "a.sbl").bind String.fromUTF8? =
      String.fromUTF8? "class A".toUTF8 := rfl
  refine ⟨artifact.image.toUTF8, .of_artifact rfl
    (hread.trans (dif_pos "class A".isValidUTF8)) hc hartifact ?_⟩
  rw [buildA, hpath, hwrite]

/-- There is no listing under the name that was asked for, and a build under another name takes the
place of the listing. -/
theorem dotted_outputs_share_listing : ∃ first second,
    (buildA "app.v1").Built "app.v1" (filesA []) (filesA [(["app.il".toList], first)]) ∧
    (filesA [(["app.il".toList], first)]).file? ["app.v1.il".toList] = none ∧
    (buildA "app.v2").Built "app.v2" (filesA [(["app.il".toList], first)])
      (filesA [(["app.il".toList], second)]) := by
  obtain ⟨first, hfirst⟩ := @exists_built [] "app.v1" (by decide) fun _ => rfl
  obtain ⟨second, hsecond⟩ :=
    @exists_built [(["app.il".toList], first)] "app.v2" (by decide) fun _ => rfl
  exact ⟨first, second, hfirst, rfl, hsecond⟩

/-- A build whose output has a dot in its name. -/
theorem build_goes_to_stem_dotted : ∃ listing,
    let after := filesA [(["app.il".toList], listing)]
    Path.EndsIn "app.v1".toList [] "app.v1".toList ∧
    (buildA "app.v1").Built "app.v1" (filesA []) after ∧
    ∃ directory artifact, artifact.name = "app" ∧
      (buildA "app.v1").Stores (filesA []) after "app.il" (directory ++ ["app.il".toList])
        artifact := by
  have houtput : Path.EndsIn "app.v1".toList [] "app.v1".toList :=
    ⟨rfl, .inl rfl, by decide, by decide⟩
  obtain ⟨listing, hbuilt⟩ := @exists_built [] "app.v1" (by decide) fun _ => rfl
  obtain ⟨-, -, -, hbuild⟩ := build_goes_to_stem houtput
  obtain ⟨directory, artifact, hnamed, hstores, -⟩ := hbuild _ _ _ hbuilt
  exact ⟨listing, houtput, hbuilt, directory, artifact, hnamed, hstores⟩

end Job

end Mixin
