import Mixin.Proofs.Listing.Captures
import Mixin.Proofs.Listing.Texts
import Mixin.Proofs.Token.Partition

/-!
# The lines of a listing

What is written in a program decides what stands on the lines of its listing, but not which lines
there are: no line ends in a token, and so none in a name of a program that was read
(`Program.unbroken_leaves`) or of a type that is known of it. A listing that is cut at the ends of
its lines falls into the two lines of the assembly and those of each definition
(`compile_lists_lines`).
-/

namespace Mixin

/-! ### Lines -/

namespace Line

def indented (l : Line) : String := Writer.indentation l.level ++ l.text

/-- The line is blank, or its text fills it. -/
def Whole (l : Line) : Prop := l = ⟨0, ""⟩ ∨ Text.FillsLine l.text

theorem Whole.unbroken {l : Line} (h : l.Whole) : Text.Unbroken l.indented := by
  rcases h with rfl | h
  · decide
  · refine Text.unbroken_append.mpr ⟨?_, h.unbroken⟩
    simp [Writer.indentation]

end Line

namespace Writer

variable (text : String) {level : Nat}

/-- Before the first character of a line comes the indentation, unless the line is the first of all;
at level zero that makes no difference. -/
theorem put_first {start : Bool} (hstart : start = true ∨ level = 0) {c : Char} (hc : c ≠ '\n') :
    put ⟨text, level, start⟩ c =
      ⟨text ++ indentation level ++ String.singleton c, level, false⟩ := by
  rw [put, if_neg hc]
  cases start with
  | true => rw [if_pos rfl, String.push_eq_append]
  | false =>
    have hlevel : level = 0 := hstart.resolve_left Bool.false_ne_true
    have hblank : indentation level = "" := by rw [hlevel]; rfl
    rw [if_neg Bool.false_ne_true, hblank, String.append_empty, String.push_eq_append]

theorem foldl_put {cs : List Char} (h : '\n' ∉ cs) :
    cs.foldl put ⟨text, level, false⟩ = ⟨text ++ String.ofList cs, level, false⟩ := by
  induction cs generalizing text with
  | nil => simp
  | cons c cs ih =>
    obtain ⟨hc, hcs⟩ := not_or.mp (List.mem_cons.not.mp h)
    have hput : put ⟨text, level, false⟩ c = ⟨text ++ String.singleton c, level, false⟩ := by
      rw [put, if_neg (Ne.symm hc), if_neg Bool.false_ne_true, String.push_eq_append]
    rw [List.foldl_cons, hput, ih _ hcs, String.append_assoc, ← String.ofList_cons]

variable {w : Writer}

theorem writeLine_eq {l : Line} (hw : w.atLineStart = true ∨ l.level = 0) (hl : l.Whole) :
    w.writeLine l = ⟨w.text ++ (l.indented ++ "\n"), l.level, true⟩ := by
  have hfeed (w : Writer) : w.write "\n" = ⟨w.text ++ "\n", w.level, true⟩ := rfl
  rw [writeLine, write_append, hfeed]
  rcases hl with rfl | ⟨hunbroken, hbegins⟩
  · rfl
  · cases htext : l.text.toList with
    | nil => simp [htext] at hbegins
    | cons c cs =>
      rw [Text.Unbroken, htext] at hunbroken
      obtain ⟨hc, hcs⟩ := not_or.mp (List.mem_cons.not.mp hunbroken)
      have hline : l.text = String.singleton c ++ String.ofList cs := by
        rw [← String.ofList_cons, ← htext, String.ofList_toList]
      have hwritten : { w with level := l.level }.write l.text =
          ⟨w.text ++ l.indented, l.level, false⟩ := by
        rw [write, htext, List.foldl_cons, put_first _ hw (Ne.symm hc), foldl_put _ hcs,
          Line.indented, hline, String.append_assoc, String.append_assoc]
      rw [hwritten, String.append_assoc]

theorem text_foldl_writeLine {ls : List Line} (hw : w.atLineStart = true)
    (hls : ∀ l ∈ ls, l.Whole) :
    (ls.foldl writeLine w).text = w.text ++ String.join (ls.map fun l => l.indented ++ "\n") := by
  induction ls generalizing w with
  | nil => simp
  | cons l ls ih =>
    obtain ⟨hl, hls⟩ := List.forall_mem_cons.mp hls
    rw [List.foldl_cons, writeLine_eq (.inl hw) hl, ih rfl hls, List.map_cons, String.join_cons,
      String.append_assoc]

end Writer

theorem renderLines_eq {l : Line} {ls : List Line} (hlevel : l.level = 0)
    (h : ∀ m ∈ l :: ls, m.Whole) :
    renderLines (l :: ls) = String.join ((l :: ls).map fun m => m.indented ++ "\n") := by
  obtain ⟨hl, hls⟩ := List.forall_mem_cons.mp h
  rw [renderLines, List.foldl_cons, Writer.writeLine_eq (.inr hlevel) hl,
    Writer.text_foldl_writeLine rfl hls, List.map_cons, String.join_cons]
  rfl

/-- A text made of unbroken lines is cut into them at the ends of lines. Behind the last end of a
line nothing is left. -/
theorem split_join_lines {lines : List String} (h : ∀ line ∈ lines, Text.Unbroken line) :
    ((String.join (lines.map (· ++ "\n"))).split '\n').toList.map String.Slice.copy =
      lines ++ [""] := by
  rw [String.toList_split_char]
  induction lines with
  | nil => simp
  | cons line lines ih =>
    obtain ⟨hline, hlines⟩ := List.forall_mem_cons.mp h
    have hcut : ∀ c ∈ line.toList, (c == '\n') = false := by
      intro c hc
      rw [beq_eq_false_iff_ne]
      rintro rfl
      exact hline hc
    rw [List.map_cons, String.join_cons, String.toList_append, String.toList_append,
      List.append_assoc, List.splitOn_eq_splitOnP]
    have hfeed : "\n".toList = ['\n'] := rfl
    rw [hfeed, List.singleton_append,
      List.splitOnP_append_cons_of_forall_mem hcut _ (by decide), ← List.splitOn_eq_splitOnP,
      List.map_cons, ih hlines, String.ofList_toList, List.cons_append]

/-! ### Blocks -/

def Routine.listed (r : Routine) : List String :=
  match r.body with
  | none => ["  " ++ r.heading]
  | some body =>
    ["  " ++ (r.heading ++ " \x7b")] ++
      (if 0 < body.locals then ["    .locals (" ++ toString body.locals ++ ")"] else []) ++
      body.code.map (fun i => "    " ++ i.render) ++ ["  \x7d"]

def TypeBlock.listed (b : TypeBlock) : List String :=
  [b.heading ++ " \x7b"] ++ b.fields.map ("  " ++ ·) ++
    b.routines.flatMap (fun r => "" :: r.listed) ++ ["\x7d"]

section Separated

variable {α : Type} {f : α → List Line}

theorem Line.indented_flatMap {g : α → List String} (h : ∀ a, (f a).map Line.indented = g a)
    (as : List α) : (as.flatMap fun a => ⟨0, ""⟩ :: f a).map Line.indented =
      as.flatMap fun a => "" :: g a := by
  rw [List.map_flatMap]
  refine List.flatMap_congr fun a _ => ?_
  rw [List.map_cons, h]
  rfl

theorem Line.whole_of_mem_flatMap {as : List α} (h : ∀ a ∈ as, ∀ l ∈ f a, l.Whole) :
    ∀ l ∈ as.flatMap fun a => ⟨0, ""⟩ :: f a, l.Whole := by
  intro l hl
  obtain ⟨a, ha, hl⟩ := List.mem_flatMap.mp hl
  rcases List.mem_cons.mp hl with rfl | hl
  · exact .inl rfl
  · exact h a ha l hl

end Separated

theorem Routine.indented_lines (r : Routine) : r.lines.map Line.indented = r.listed := by
  unfold lines listed
  cases r.body with
  | none => rfl
  | some body =>
    have hlocals : Line.indented ⟨2, ".locals (" ++ toString body.locals ++ ")"⟩ =
        "    .locals (" ++ toString body.locals ++ ")" := by
      rw [Line.indented, ← String.append_assoc, ← String.append_assoc]
      rfl
    simp only [List.map_append, List.map_map, apply_ite (List.map Line.indented), List.map_cons,
      List.map_nil, hlocals]
    rfl

theorem TypeBlock.indented_lines (b : TypeBlock) : b.lines.map Line.indented = b.listed := by
  simp only [lines, listed, List.map_append, List.map_map,
    Line.indented_flatMap Routine.indented_lines]
  rfl

theorem Routine.FillsLines.whole {r : Routine} (h : r.FillsLines) : ∀ l ∈ r.lines, l.Whole := by
  have hclose : Line.Whole ⟨1, "\x7d"⟩ := .inr (by decide)
  unfold lines
  split
  next => exact List.forall_mem_singleton.mpr (.inr h.heading)
  next body hbody =>
    have hlocals : Text.FillsLine (".locals (" ++ toString body.locals ++ ")") :=
      .append (.append (by decide) (Text.unbroken_repr body.locals)) (by decide)
    simp only [List.forall_mem_append, List.forall_mem_map, List.forall_mem_singleton]
    refine ⟨⟨⟨.inr (h.heading.append (by decide)), ?_⟩, fun i hi => ?_⟩, hclose⟩
    · split
      · exact List.forall_mem_singleton.mpr (.inr hlocals)
      · exact List.forall_mem_nil _
    · exact .inr (h.code body hbody i hi)

theorem TypeBlock.FillsLines.whole {b : TypeBlock} (h : b.FillsLines) : ∀ l ∈ b.lines, l.Whole := by
  have hclose : Line.Whole ⟨0, "\x7d"⟩ := .inr (by decide)
  simp only [lines, List.forall_mem_append, List.forall_mem_map, List.forall_mem_singleton]
  refine ⟨⟨⟨.inr (h.heading.append (by decide)), fun field hfield => .inr (h.fields field hfield)⟩,
    ?_⟩, hclose⟩
  exact Line.whole_of_mem_flatMap fun r hr => (h.routines r hr).whole

theorem Assembly.split_render {a : Assembly} (hlibrary : Text.Unbroken a.options.runtimeLibrary)
    (hname : Text.Unbroken a.options.outputName) (h : ∀ b ∈ a.blocks, b.FillsLines) :
    (a.render.split '\n').toList.map String.Slice.copy =
      [".assembly extern " ++ a.options.runtimeLibrary ++ " \x7b\x7d",
        ".assembly " ++ a.options.outputName ++ " \x7b\x7d"] ++
        a.blocks.flatMap (fun b => "" :: b.listed) ++ [""] := by
  have hextern : Text.FillsLine (".assembly extern " ++ a.options.runtimeLibrary ++ " \x7b\x7d") :=
    .append (.append (by decide) hlibrary) (by decide)
  have hown : Text.FillsLine (".assembly " ++ a.options.outputName ++ " \x7b\x7d") :=
    .append (.append (by decide) hname) (by decide)
  have hblocks := Line.whole_of_mem_flatMap fun b hb => (h b hb).whole
  have hwhole : ∀ l ∈ a.lines, l.Whole :=
    List.forall_mem_cons.mpr ⟨.inr hextern, List.forall_mem_cons.mpr ⟨.inr hown, hblocks⟩⟩
  have hlisted : a.lines.map Line.indented =
      [".assembly extern " ++ a.options.runtimeLibrary ++ " \x7b\x7d",
        ".assembly " ++ a.options.outputName ++ " \x7b\x7d"] ++
        a.blocks.flatMap (fun b => "" :: b.listed) := by
    rw [lines, List.map_append, Line.indented_flatMap TypeBlock.indented_lines]
    rfl
  have hunbroken : ∀ line ∈ a.lines.map Line.indented, Text.Unbroken line :=
    List.forall_mem_map.mpr fun l hl => (hwhole l hl).unbroken
  have hrender : a.render = String.join ((a.lines.map Line.indented).map (· ++ "\n")) := by
    rw [List.map_map, render_eq_renderLines]
    exact renderLines_eq rfl hwhole
  rw [hrender, split_join_lines hunbroken, hlisted]

/-! ### Names -/

theorem TokenStream.Splits.unbroken {file : SourceFile} {loc : Location} {input : List Char}
    {stream : TokenStream} (h : Splits file loc input stream) :
    ∀ t ∈ stream.tokens, Text.Unbroken t.lexeme := by
  induction h with
  | last => exact List.forall_mem_nil _
  | next loc hgap hbare htoken _ ih =>
    refine List.forall_mem_cons.mpr ⟨?_, ih⟩
    rw [Token.behind, Text.unbroken_ofList]
    exact htoken.feed_not_mem hbare

theorem Leaf.Matches.text_eq {l : Leaf} {t : Token} (h : l.Matches t) {id : Ident}
    (hid : id ∈ l.ident?) : id.text = t.lexeme := by
  cases l with
  | name | member | operator =>
    obtain rfl := Option.some.inj hid
    rw [h.2]
    rfl
  | _ => cases hid

theorem Program.unbroken_leaves {file : SourceFile} {text : String} {p : Program}
    (h : ofText file text = .ok p) : ∀ d ∈ p.definitions, Leaf.Unbroken d.leaves := by
  obtain ⟨ts, rest, htokens, hspells⟩ := spelled_ofText h
  have hunbroken := (TokenStream.splits_scanFrom file Location.start text.toList).unbroken
  have hleaves : Leaf.Unbroken (p.definitions.flatMap TypeDef.leaves) := by
    intro l hl id hid
    obtain ⟨t, ht, hmatches⟩ :=
      exists_mem_of_forall₂ (List.Forall₂.flip hspells.bears.leaves) hl
    rw [Leaf.Matches.text_eq hmatches hid]
    refine hunbroken t ?_
    exact htokens ▸ List.mem_append_left _ (List.mem_filter.mp ht).1
  exact Leaf.unbroken_flatMap.mp hleaves

theorem TypeDef.unbroken_decl {d : TypeDef} (h : Leaf.Unbroken d.leaves) :
    Text.Unbroken d.decl.name ∧ ∀ p ∈ d.decl.typeParameters, Text.Unbroken p.2 := by
  simp only [leaves, Leaf.unbroken_cons, Leaf.unbroken_append, Leaf.unbroken_flatMap] at h
  refine ⟨h.1 d.name rfl, List.forall_mem_map.mpr fun p hp => ?_⟩
  have hp := h.2.1 p hp
  simp only [TypeParameter.leaves, Leaf.unbroken_append, Leaf.unbroken_cons] at hp
  exact hp.2.1 p.name rfl

theorem Analysis.Represented.unbroken {ds : List TypeDef} {a : Analysis} (h : Represented ds a)
    (hds : ∀ d ∈ ds, Leaf.Unbroken d.leaves) : a.symbols.Unbroken := by
  have hdecl (id : ClassId) : Text.Unbroken (a.symbols.classInfo id).name ∧
      ∀ p ∈ (a.symbols.classInfo id).typeParameters, Text.Unbroken p.2 := by
    by_cases hid : id ∈ a.symbols.classIds
    · rcases h.cases hid with rfl | ⟨d, hd, hrepresents⟩
      · rw [h.root]
        exact ⟨by decide, List.forall_mem_nil _⟩
      · rw [hrepresents.declared]
        exact TypeDef.unbroken_decl (hds d hd)
    · rw [SymbolTable.classInfo_eq_default_of_notMem hid]
      exact ⟨by decide, List.forall_mem_nil _⟩
  exact ⟨fun id => (hdecl id).1, fun id => (hdecl id).2⟩

/-! ### Compilations -/

/-- A block lists a definition: under its heading, its fields, and a routine for its constructor,
for each of its methods, and for each closure met in a routine. Each of these texts fills a
line. -/
structure TypeBlock.Lists (t : SymbolTable) (p : Program) (library : String) (d : TypeDef)
    (b : TypeBlock) (id : ClassId) : Prop where
  found : t.lookup? d.name.text = some id
  declared : (t.classInfo id).toClassDecl = d.decl
  heading : b.heading = headingOf t library (t.classInfo id)
  /-- Parameters that are fields come first, then the fields in the body. -/
  fields : b.fields =
    d.parameters.filterMap (fun p =>
      p.binding.map fun binding => fieldLine p.modifiers binding p.name.text (some p.type)) ++
    d.fields.map fun f => fieldLine f.modifiers f.binding f.name.text f.type
  routines : ∃ es, Emitted (t.surroundings p library id) (writtenPieces t d (t.classInfo id)) es
    b.routines
  fillsLines : b.FillsLines

theorem Analysis.Represented.lists {ds : List TypeDef} {a : Analysis} (h : Represented ds a)
    (hnames : a.symbols.names.Nodup) (hds : ∀ d ∈ ds, Leaf.Unbroken d.leaves) {d : TypeDef}
    (hd : d ∈ ds) (p : Program) {library : String} (hlibrary : Text.Unbroken library) :
    ∃ id, TypeBlock.Lists a.symbols p library d (.ofTypeDef a.symbols p library d) id := by
  obtain ⟨id, hid, hrepresents⟩ := h.exists_lookup? hnames hd
  have hfound : (a.symbols.lookup? d.name.text).getD .root = id := by
    rw [hid]
    rfl
  refine ⟨id, hid, hrepresents.declared, ?_, rfl, ?_, ?_⟩
  · rw [TypeBlock.ofTypeDef, hfound]
  · rw [TypeBlock.ofTypeDef, hfound]
    exact TypeBlock.emitted_routinesOf ..
  · exact TypeBlock.fillsLines_ofTypeDef (h.unbroken hds) hlibrary (hds d hd) p

/-- The image that a text is compiled to is made of whole lines: two for the assembly and, for each
definition behind a blank line, those of its block. Nothing that is written in the text can end a
line, add one or take one away. -/
theorem compile_lists_lines {options : CompilerOptions} {source : String} {c : Compilation}
    (hbackend : options.backend = listingBackend)
    (hlibrary : Text.Unbroken options.build.runtimeLibrary)
    (hname : Text.Unbroken options.build.outputName) (hc : compile options source = .ok c)
    (hgenerated : c.stage = .generated) :
    ∃ p a artifact blocks, Program.ofText .user source = .ok p ∧
      analyze (preludeUnits options.noPrelude ++ [p]) = .ok a ∧ c.artifact = some artifact ∧
      List.Forall₂ (fun d b =>
        ∃ id, TypeBlock.Lists a.symbols p options.build.runtimeLibrary d b id)
        p.definitions blocks ∧
      (artifact.image.split '\n').toList.map String.Slice.copy =
        [".assembly extern " ++ options.build.runtimeLibrary ++ " \x7b\x7d",
          ".assembly " ++ options.build.outputName ++ " \x7b\x7d"] ++
          blocks.flatMap (fun b => "" :: b.listed) ++ [""] := by
  obtain ⟨p, a, hp, ha, rfl, hw⟩ := exists_of_generated hc hgenerated
  have hrepresented := represented_of_wellFormed
    (nodup_files_sourceTexts options.noPrelude source) (parseAll_sourceTexts _ hp) ha hw
  have hunbroken : ∀ d ∈ (preludeUnits options.noPrelude ++ [p]).flatMap (·.definitions),
      Leaf.Unbroken d.leaves := by
    rw [List.flatMap_append, List.flatMap_singleton]
    refine List.forall_mem_append.mpr ⟨fun d hd => ?_, Program.unbroken_leaves hp⟩
    obtain ⟨prelude, hprelude, hd⟩ := exists_of_mem_preludeUnits hd
    exact Program.unbroken_leaves hprelude d hd
  have hlists : ∀ d ∈ p.definitions, ∃ id, TypeBlock.Lists a.symbols p
      options.build.runtimeLibrary d
      (.ofTypeDef a.symbols p options.build.runtimeLibrary d) id := by
    intro d hd
    refine hrepresented.lists (hrepresented.names ▸ hw.names) hunbroken ?_ p hlibrary
    rw [List.flatMap_append, List.flatMap_singleton]
    exact List.mem_append_right _ hd
  have hblocks : ∀ b ∈ (Assembly.ofProgram p a.symbols options.build).blocks, b.FillsLines := by
    refine List.forall_mem_map.mpr fun d hd => ?_
    obtain ⟨id, hlisted⟩ := hlists d hd
    exact hlisted.fillsLines
  have hartifact : (Compilation.finished options p a.symbols a.diagnostics
      (startEvents ++ a.events)).artifact = some (listingBackend p a.symbols options.build).1 := by
    rw [← hbackend]
    rfl
  exact ⟨p, a, _, (Assembly.ofProgram p a.symbols options.build).blocks, hp, ha, hartifact,
    List.forall₂_map_right_iff.mpr (List.forall₂_same.mpr hlists),
    Assembly.split_render hlibrary hname hblocks⟩

/-- A text with a string that says what the end of a block and the beginning of another look like,
an operator, a closure and a method that spans several lines. -/
theorem compile_lists_lines_quoted :
    let source := "class A(val x: Int, y: Int) \x7b\n" ++
      "  var s: String = \"\x7d\\n\\n.class public B \x7b\"\n" ++
      "  def ++(o: A): A =\n    if (x == y) o\n    else f((z: Int) => z)\n" ++
      "\x7d\ntrait T[+E] \x7b def f: (E, A) => E \x7d"
    let options : CompilerOptions := { noPrelude := true }
    ∃ c, compile options source = .ok c ∧ c.stage = .generated ∧
      Text.Unbroken options.build.runtimeLibrary ∧ Text.Unbroken options.build.outputName ∧
      ∃ p a artifact blocks, Program.ofText .user source = .ok p ∧
        analyze (preludeUnits options.noPrelude ++ [p]) = .ok a ∧ c.artifact = some artifact ∧
        List.Forall₂ (fun d b =>
          ∃ id, TypeBlock.Lists a.symbols p options.build.runtimeLibrary d b id)
          p.definitions blocks ∧
        (artifact.image.split '\n').toList.map String.Slice.copy =
          [".assembly extern " ++ options.build.runtimeLibrary ++ " \x7b\x7d",
            ".assembly " ++ options.build.outputName ++ " \x7b\x7d"] ++
            blocks.flatMap (fun b => "" :: b.listed) ++ [""] := by
  intro source options
  have hchecked : (Program.ofText .user source).toOption.map (fun p =>
      (p.definitions.map TypeDef.head, decide (∀ d ∈ p.definitions, d.Independent))) =
        some ([("A", []), ("T", [])], true) := by
    decide +kernel
  obtain ⟨p, hp, hfound⟩ := exists_ok_of_toOption hchecked
  obtain ⟨hheads, hindependent⟩ := Prod.mk.inj hfound
  have hnames : ("Any" :: p.definitions.map fun d => d.name.text).Nodup := by
    rw [TypeDef.names_of_heads hheads]
    decide
  obtain ⟨a, -, hc, -⟩ := exists_compiled_of_independent hp hnames (of_decide_eq_true hindependent)
  have hlibrary : Text.Unbroken options.build.runtimeLibrary := by decide
  have hname : Text.Unbroken options.build.outputName := by decide
  exact ⟨_, hc, rfl, hlibrary, hname, compile_lists_lines rfl hlibrary hname hc rfl⟩

end Mixin
