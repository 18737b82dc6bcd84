import Mixin.Listing.Assembly

/-!
# The calls of a listing as lines

The calls that write a listing move lines out as often as they have moved them in. So none of them
fails, and the text is the same as if each line were written at its own level
(`Assembly.run_calls`).
-/

namespace Mixin

structure Line where
  level : Nat
  text : String
  deriving DecidableEq, Repr, Inhabited

namespace Writer

def writeLine (w : Writer) (line : Line) : Writer :=
  { w with level := line.level }.write (line.text ++ "\n")

end Writer

def renderLines (lines : List Line) : String := (lines.foldl Writer.writeLine .empty).text

/-! ### The lines -/

def Routine.lines (r : Routine) : List Line :=
  match r.body with
  | none => [⟨1, r.heading⟩]
  | some body =>
    [⟨1, r.heading ++ " \x7b"⟩] ++
      (if 0 < body.locals then [⟨2, ".locals (" ++ toString body.locals ++ ")"⟩] else []) ++
      body.code.map (fun i => ⟨2, i.render⟩) ++ [⟨1, "\x7d"⟩]

def TypeBlock.lines (b : TypeBlock) : List Line :=
  [⟨0, b.heading ++ " \x7b"⟩] ++ b.fields.map (⟨1, ·⟩) ++
    b.routines.flatMap (fun r => ⟨0, ""⟩ :: r.lines) ++ [⟨0, "\x7d"⟩]

def Assembly.lines (a : Assembly) : List Line :=
  [⟨0, ".assembly extern " ++ a.options.runtimeLibrary ++ " \x7b\x7d"⟩,
   ⟨0, ".assembly " ++ a.options.outputName ++ " \x7b\x7d"⟩] ++
    a.blocks.flatMap fun b => ⟨0, ""⟩ :: b.lines

/-! ### Calls that write lines -/

namespace Writer

/-- At the level `k`, the calls write these lines and return to that level. -/
def Lays (k : Nat) (calls : List Call) (lines : List Line) : Prop :=
  ∀ w : Writer, w.level = k →
    calls.foldlM perform w = some { lines.foldl writeLine w with level := k }

namespace Lays

variable {k : Nat} {calls calls' : List Call} {lines lines' : List Line}

theorem nil (k : Nat) : Lays k [] [] := by
  rintro w rfl
  rfl

theorem append (h : Lays k calls lines) (h' : Lays k calls' lines') :
    Lays k (calls ++ calls') (lines ++ lines') := by
  intro w hw
  rw [List.foldlM_append, h w hw, List.foldl_append]
  refine (h' _ rfl).trans ?_
  -- A line is written at its own level, whatever the level is before.
  cases lines' with
  | nil => rfl
  | cons line lines' => rfl

theorem text {text : String} (s : String) (htext : text = s ++ "\n") :
    Lays k [.write text] [⟨k, s⟩] := by
  rintro w rfl
  have hlevel : (w.write (s ++ "\n")).level = w.level := level_write w _
  rw [htext]
  change some (w.write (s ++ "\n")) = some { w.write (s ++ "\n") with level := w.level }
  rw [← hlevel]

theorem suffixed {t t' : String} (s : String) (ht : t' = t ++ "\n") :
    Lays k [.write (s ++ t')] [⟨k, s ++ t⟩] :=
  text (s ++ t) (by rw [ht, String.append_assoc])

theorem blank (k : Nat) : Lays k [.write "\n"] [⟨0, ""⟩] := by
  rintro w rfl
  rfl

/-- Calls of the next level in braces behind a heading. -/
theorem braced (heading : String) (h : Lays (k + 1) calls lines) :
    Lays k ([.write (heading ++ " \x7b\n"), .indent] ++ calls ++ [.dedent, .write "\x7d\n"])
      ([⟨k, heading ++ " \x7b"⟩] ++ lines ++ [⟨k, "\x7d"⟩]) := by
  have hmoved : Lays k ([.indent] ++ calls ++ [.dedent]) lines := by
    rintro w rfl
    rw [List.foldlM_append, List.foldlM_append]
    change (calls.foldlM perform w.indent >>= fun v => [Call.dedent].foldlM perform v) = _
    rw [h w.indent rfl]
    cases lines with
    | nil => rfl
    | cons line lines => rfl
  have hopening : Lays k [.write (heading ++ " \x7b\n")] [⟨k, heading ++ " \x7b"⟩] :=
    suffixed heading rfl
  have hclosing : Lays k [.write "\x7d\n"] [⟨k, "\x7d"⟩] := text _ rfl
  have hall := (hopening.append hmoved).append hclosing
  simpa only [List.append_assoc, List.cons_append, List.nil_append] using hall

theorem map {α : Type} (f : α → String) (as : List α) :
    Lays k (as.map fun a => .write (f a ++ "\n")) (as.map fun a => ⟨k, f a⟩) := by
  induction as with
  | nil => exact nil k
  | cons a as ih => exact (text (f a) rfl).append ih

theorem flatMap {α : Type} {f : α → List Call} {g : α → List Line} {as : List α}
    (h : ∀ a ∈ as, Lays k (f a) (g a)) :
    Lays k (as.flatMap fun a => .write "\n" :: f a) (as.flatMap fun a => ⟨0, ""⟩ :: g a) := by
  induction as with
  | nil => exact nil k
  | cons a as ih =>
    obtain ⟨ha, has⟩ := List.forall_mem_cons.mp h
    exact ((blank k).append ha).append (ih has)

end Lays

end Writer

open Writer

theorem Routine.lays (r : Routine) : Lays 1 r.calls r.lines := by
  rcases r with ⟨heading, _ | body⟩
  · exact .text heading rfl
  · have hlocals : Lays 2
        (if 0 < body.locals then [.write (".locals (" ++ toString body.locals ++ ")\n")] else [])
        (if 0 < body.locals then [⟨2, ".locals (" ++ toString body.locals ++ ")"⟩] else []) := by
      split
      · exact .suffixed _ rfl
      · exact .nil 2
    have hbody := (hlocals.append (.map Instr.render body.code)).braced heading
    simpa only [calls, lines, List.append_assoc] using hbody

theorem TypeBlock.lays (b : TypeBlock) : Lays 0 b.calls b.lines := by
  have hroutines : ∀ r ∈ b.routines, Lays 1 r.calls r.lines := fun r _ => r.lays
  have hfields := Lays.map (k := 1) (fun field => field) b.fields
  have hbody := (hfields.append (.flatMap hroutines)).braced b.heading
  simpa only [calls, lines, List.append_assoc] using hbody

theorem Assembly.lays (a : Assembly) : Lays 0 a.calls a.lines := by
  have hassembly (s : String) : Lays 0 [.write (s ++ " \x7b\x7d\n")] [⟨0, s ++ " \x7b\x7d"⟩] :=
    .suffixed s rfl
  exact ((hassembly _).append (hassembly _)).append (.flatMap fun b _ => b.lays)

/-- None of the calls that write a listing fails. -/
theorem Assembly.run_calls (a : Assembly) :
    ∃ w, Writer.run a.calls = some w ∧ w.text = renderLines a.lines :=
  ⟨_, a.lays .empty rfl, rfl⟩

theorem Assembly.render_eq_renderLines (a : Assembly) : a.render = renderLines a.lines := by
  obtain ⟨w, hrun, htext⟩ := a.run_calls
  rw [render, hrun, Option.map_some, Option.getD_some, htext]

end Mixin
