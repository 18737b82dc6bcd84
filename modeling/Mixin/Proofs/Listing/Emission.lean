import Mixin.Listing.Assembly
import Mixin.Proofs.Listing.Occurrences

/-!
# How the routines of a type are made

Each routine of a type is made of a `Piece`: of the constructor, of a method, or of a closure. An
`Emission` keeps with a routine what it was made of, where the expressions stand in its body, and
the closures that were met in them. The routines of a type are those of the pieces that are written,
and then those of all the closures that were met in any of the routines, in the order in which they
were met (`emitted_routinesOf`).
-/

namespace Mixin

/-! ### Pieces -/

/-- What a routine is made of: its parameters, and the expressions in its body if it has one. -/
structure Piece where
  heading : String
  parameters : List String
  exprs : Option (List Expr)

def Piece.closureCount (p : Piece) : Nat := closureCountList (p.exprs.getD [])

def closureCountPieces : List Piece → Nat
  | [] => 0
  | p :: ps => p.closureCount + closureCountPieces ps

theorem closureCountPieces_append (ps qs : List Piece) :
    closureCountPieces (ps ++ qs) = closureCountPieces ps + closureCountPieces qs := by
  induction ps with
  | nil => simp [closureCountPieces]
  | cons p ps ih => rw [List.cons_append, closureCountPieces, closureCountPieces, ih, Nat.add_assoc]

def Initializer.value? : Initializer → Option Expr
  | given value => some value
  | omitted _ => none

def Method.piece (m : Method) : Piece where
  heading := m.heading
  parameters := m.parameters.map fun p => p.name.text
  exprs := m.body.map fun body => [body]

def Lambda.piece (index : Nat) (l : Lambda) : Piece where
  heading := l.heading index
  parameters := l.parameters.map fun p => p.name.text
  exprs := some [l.body]

namespace TypeBlock

def constructorPiece (t : SymbolTable) (d : TypeDef) (superclass : ClassId) : Piece where
  heading := constructorHeading d
  parameters := d.parameters.map fun p => p.name.text
  exprs := some (superArguments d (t.classInfo superclass).name ++
    d.fields.filterMap fun f => f.initializer.value?)

def writtenPieces (t : SymbolTable) (d : TypeDef) (c : ClassInfo) : List Piece :=
  (if c.kind = .trait then [] else [constructorPiece t d (c.superclass.getD .root)]) ++
    d.methods.map Method.piece

end TypeBlock

/-! ### Emissions -/

/-- A routine with the piece of which it is made. -/
structure Emission where
  piece : Piece
  /-- How many closures were numbered before. -/
  first : Nat
  /-- The expressions of the piece, each where its instructions stand. -/
  roots : List Occurrence
  routine : Routine
  /-- The closures met in the body. -/
  found : List Lambda

namespace Emission

/-- The routine is made of the piece. -/
inductive Made (s : Surroundings) : Emission → Prop where
  | bodiless (heading : String) (parameters : List String) (first : Nat) :
    Made s ⟨⟨heading, parameters, none⟩, first, [], ⟨heading, none⟩, []⟩
  | body (heading : String) {parameters : List String} {first : Nat} {roots : List Occurrence}
    {a : Lowered} (hscope : ∀ o ∈ roots, o.scope = [])
    (h : a.Consists ⟨s, parameters⟩ first roots) :
    Made s ⟨⟨heading, parameters, some (roots.map (·.expr))⟩, first, roots,
      ⟨heading, some a.finish.1⟩, a.closures⟩

def ofExpr (s : Surroundings) (heading : String) (parameters : List String) (e : Expr)
    (first : Nat) : Emission where
  piece := ⟨heading, parameters, some [e]⟩
  first := first
  roots := [⟨0, [], e, .start first⟩]
  routine := ⟨heading, some (lowerBody s parameters e first).1⟩
  found := (lowerBody s parameters e first).2

/-- Closures are numbered from `first` on, in the order of the routines in which they are met. -/
def InOrder : Nat → List Emission → Prop := Consecutive (·.first) (·.found)

def frame (s : Surroundings) (e : Emission) : Frame := ⟨s, e.piece.parameters⟩

def code (e : Emission) : List Instr := (e.routine.body.map Body.code).getD []

/-- An expression stands in the body, and in no closure in it. -/
def Holds (s : Surroundings) (e : Emission) (o : Occurrence) : Prop :=
  ∃ root ∈ e.roots, root.Within (e.frame s) o

end Emission

/-- The routines are made of the pieces that are written and of the closures met in the routines. -/
structure Emitted (s : Surroundings) (written : List Piece) (es : List Emission)
    (routines : List Routine) : Prop where
  routines : es.map (·.routine) = routines
  made : ∀ e ∈ es, e.Made s
  order : Emission.InOrder 0 es
  pieces : es.map (·.piece) = written ++ (es.flatMap (·.found)).mapIdx Lambda.piece
  closures : ∀ e ∈ es.drop written.length, ∃ heading parameters body first,
    e = .ofExpr s heading parameters body first
  /-- A closure has got its number before its routine is made. -/
  ahead : ∀ (i : Nat) (e : Emission), (es.drop written.length)[i]? = some e → i < e.first

/-! ### Bodies -/

theorem Emission.made_ofExpr (s : Surroundings) (heading : String) (parameters : List String)
    (e : Expr) (first : Nat) : (ofExpr s heading parameters e first).Made s :=
  .body heading (by simp) (.lower ⟨s, parameters⟩ [] e (.start first))

namespace TypeBlock

variable {f : Frame} {first : Nat}

theorem consists_storeInitial (f : Frame) (k : Counters) (field : Field) :
    ∃ os : List Occurrence, os.map (·.expr) = field.initializer.value?.toList ∧
      (∀ o ∈ os, o.scope = []) ∧ (storeInitial f k field).Consists f k.closures os := by
  unfold storeInitial
  cases field.initializer with
  | given value =>
    exact ⟨_, rfl, by simp [Occurrence.shift],
      ((Lowered.Consists.lower f [] value k).behind rfl).andThen rfl⟩
  | omitted span =>
    exact ⟨_, rfl, by simp, ((Lowered.Consists.emit rfl k).behind rfl).andThen rfl⟩

theorem consists_storeInitials (fields : List Field) {os : List Occurrence} {a : Lowered}
    (hscope : ∀ o ∈ os, o.scope = []) (h : a.Consists f first os) :
    ∃ os' : List Occurrence, os'.map (·.expr) =
        os.map (·.expr) ++ fields.filterMap (fun f => f.initializer.value?) ∧
      (∀ o ∈ os', o.scope = []) ∧
      (fields.foldl (fun a field => a.append (storeInitial f a.next field)) a).Consists f first
        os' := by
  induction fields generalizing os a with
  | nil => exact ⟨os, by simp, hscope, h⟩
  | cons field fields ih =>
    obtain ⟨vs, hexprs, hvs, hfield⟩ := consists_storeInitial f a.next field
    have hscope' : ∀ o ∈ os ++ vs.map (.shift a.code.length), o.scope = [] := by
      intro o ho
      rcases List.mem_append.mp ho with ho | ho
      · exact hscope o ho
      · obtain ⟨v, hv, rfl⟩ := List.mem_map.mp ho
        exact hvs v hv
    obtain ⟨os', hexprs', hos', hfields⟩ := ih hscope' (h.append hfield)
    refine ⟨os', ?_, hos', hfields⟩
    rw [hexprs', List.map_append, List.map_map, List.append_assoc, List.filterMap_cons]
    refine congrArg _ ?_
    show vs.map (·.expr) ++ _ = _
    rw [hexprs]
    cases field.initializer.value? <;> rfl

theorem loadedClosures_storeParameters (f : Frame) (ps : List Parameter) :
    loadedClosures (ps.flatMap (storeParameter f)) = [] := by
  induction ps with
  | nil => rfl
  | cons p ps ih =>
    rw [List.flatMap_cons, loadedClosures_append, ih, List.append_nil, storeParameter]
    split <;> rfl

theorem exists_made_constructor (t : SymbolTable) (s : Surroundings) (d : TypeDef)
    (superclass : ClassId) (first : Nat) : ∃ e : Emission, e.Made s ∧ e.first = first ∧
      e.piece = constructorPiece t d superclass ∧
      e.routine = ⟨constructorHeading d, some (constructorBody t s d superclass first).1⟩ ∧
      e.found = (constructorBody t s d superclass first).2 := by
  let f : Frame := ⟨s, d.parameters.map fun p => p.name.text⟩
  let arguments := superArguments d (t.classInfo superclass).name
  have hcalled := ((consists_lowerList f [] arguments (.start first)).behind
    (rfl : loadedClosures [.loadArg 0] = [])).andThen
    (rfl : loadedClosures
      [.callConstructor (t.qualifiedName s.runtimeLibrary superclass) arguments.length] = [])
  have hstored := hcalled.andThen (loadedClosures_storeParameters f d.parameters)
  have hscope : ∀ o ∈ (occurrencesInList f [] arguments (.start first)).map (Occurrence.shift 1),
      o.scope = [] := by
    intro o ho
    obtain ⟨p, hp, rfl⟩ := List.mem_map.mp ho
    have hscope := scope_occurrencesInList hp
    exact hscope
  obtain ⟨os, hexprs, hos, hconsists⟩ := consists_storeInitials d.fields hscope hstored
  refine ⟨_, .body (constructorHeading d) hos hconsists, rfl, ?_, rfl, rfl⟩
  have harguments : ((occurrencesInList f [] arguments (.start first)).map (Occurrence.shift 1)).map
      (·.expr) = arguments := by
    rw [List.map_map]
    exact map_expr_occurrencesInList f [] arguments (.start first)
  rw [hexprs, harguments]
  rfl

/-! ### Routines -/

/-- Routines that were made of pieces, with the closures that were met in them. -/
structure Gathered (s : Surroundings) (pieces : List Piece) (es : List Emission) (rs : Routines) :
    Prop where
  list : es.map (·.routine) = rs.list
  made : ∀ e ∈ es, e.Made s
  order : Emission.InOrder 0 es
  pieces : es.map (·.piece) = pieces
  closures : es.flatMap (·.found) = rs.closures
  count : rs.count = rs.closures.length

namespace Gathered

variable {s : Surroundings} {pieces : List Piece} {es : List Emission} {rs : Routines}

theorem nothing (s : Surroundings) : Gathered s [] [] ⟨[], [], 0⟩ :=
  ⟨rfl, nofun, trivial, rfl, rfl, rfl⟩

theorem inOrder_add (h : Gathered s pieces es rs) {e : Emission} (hfirst : e.first = rs.count) :
    Emission.InOrder 0 (es ++ [e]) := by
  refine h.order.append ⟨?_, trivial⟩
  show e.first = _
  rw [hfirst, h.count, h.closures, Nat.zero_add]

theorem add (h : Gathered s pieces es rs) {e : Emission} (he : e.Made s)
    (hfirst : e.first = rs.count) {heading : String} {body : Body × List Lambda}
    (hroutine : e.routine = ⟨heading, some body.1⟩) (hfound : e.found = body.2) :
    Gathered s (pieces ++ [e.piece]) (es ++ [e]) (rs.add heading body) where
  list := by
    rw [List.map_append, h.list, List.map_singleton, hroutine]
    rfl
  made := by
    intro e' he'
    rcases List.mem_append.mp he' with he' | he'
    · exact h.made e' he'
    · rw [List.mem_singleton.mp he']
      exact he
  order := h.inOrder_add hfirst
  pieces := by rw [List.map_append, h.pieces, List.map_singleton]
  closures := by
    rw [List.flatMap_append, h.closures, List.flatMap_singleton, hfound]
    rfl
  count := by
    rw [Routines.add, h.count, List.length_append]

theorem addMethod (h : Gathered s pieces es rs) (m : Method) :
    ∃ e, Gathered s (pieces ++ [m.piece]) (es ++ [e]) (rs.addMethod s m) := by
  unfold Routines.addMethod
  split
  next body hbody =>
    have hpiece : m.piece = (Emission.ofExpr s m.heading (m.parameters.map fun p => p.name.text)
        body rs.count).piece := by
      rw [Method.piece, hbody]
      rfl
    rw [hpiece]
    exact ⟨_, h.add (Emission.made_ofExpr ..) rfl rfl rfl⟩
  next hbody =>
    let e : Emission := ⟨m.piece, rs.count, [], ⟨m.heading, none⟩, []⟩
    have he : e.Made s := by
      have hmade := Emission.Made.bodiless (s := s) m.heading
        (m.parameters.map fun p => p.name.text) rs.count
      simp only [e, Method.piece, hbody]
      exact hmade
    refine ⟨e, ?_, ?_, h.inOrder_add rfl, ?_, ?_, h.count⟩
    · rw [List.map_append, h.list]
      rfl
    · intro e' he'
      rcases List.mem_append.mp he' with he' | he'
      · exact h.made e' he'
      · rw [List.mem_singleton.mp he']
        exact he
    · rw [List.map_append, h.pieces]
      rfl
    · rw [List.flatMap_append, h.closures]
      simp [e]

theorem addMethods (h : Gathered s pieces es rs) (ms : List Method) :
    ∃ es', Gathered s (pieces ++ ms.map Method.piece) es' (ms.foldl (Routines.addMethod s) rs) := by
  induction ms generalizing pieces es rs with
  | nil => exact ⟨es, by simpa using h⟩
  | cons m ms ih =>
    obtain ⟨e, he⟩ := h.addMethod m
    obtain ⟨es', hes'⟩ := ih he
    exact ⟨es', by simpa using hes'⟩

end Gathered

def writtenRoutines (t : SymbolTable) (s : Surroundings) (d : TypeDef) (c : ClassInfo) : Routines :=
  d.methods.foldl (Routines.addMethod s)
    (if c.kind = .trait then ⟨[], [], 0⟩
    else (⟨[], [], 0⟩ : Routines).add (constructorHeading d)
      (constructorBody t s d (c.superclass.getD .root) 0))

theorem routinesOf_eq (t : SymbolTable) (s : Surroundings) (d : TypeDef) (c : ClassInfo) :
    routinesOf t s d c = (writtenRoutines t s d c).list ++
      closureRoutines s 0 (writtenRoutines t s d c).count (writtenRoutines t s d c).closures := rfl

theorem gathered_writtenRoutines (t : SymbolTable) (s : Surroundings) (d : TypeDef)
    (c : ClassInfo) : ∃ es, Gathered s (writtenPieces t d c) es (writtenRoutines t s d c) := by
  unfold writtenRoutines writtenPieces
  split
  · exact (Gathered.nothing s).addMethods d.methods
  · obtain ⟨e, he, hfirst, hpiece, hroutine, hfound⟩ :=
      exists_made_constructor t s d (c.superclass.getD .root) 0
    have hadded := (Gathered.nothing s).add he hfirst hroutine hfound
    rw [hpiece] at hadded
    exact hadded.addMethods d.methods

end TypeBlock

/-! ### Closures -/

theorem exists_emissions_closureRoutines (s : Surroundings) (index count : Nat)
    (pending : List Lambda) (hcount : index + pending.length ≤ count) : ∃ es : List Emission,
      es.map (·.routine) = closureRoutines s index count pending ∧
      (∀ e ∈ es, ∃ heading parameters body first,
        e = .ofExpr s heading parameters body first) ∧
      Emission.InOrder count es ∧
      es.map (·.piece) =
        (pending ++ es.flatMap (·.found)).mapIdx (fun i l => l.piece (index + i)) ∧
      ∀ (i : Nat) (e : Emission), es[i]? = some e → index + i < e.first := by
  induction index, count, pending using closureRoutines.induct s with
  | case1 index count =>
    rw [closureRoutines]
    exact ⟨[], rfl, nofun, trivial, rfl, nofun⟩
  | case2 index count l rest body ih =>
    have hbody : body = lowerBody s (l.parameters.map fun p => p.name.text) l.body count :=
      congrArg (lowerBody s · l.body count) (by simp)
    rw [List.length_cons] at hcount
    obtain ⟨es, hroutines, hbodies, horder, hpieces, hahead⟩ := ih (by
      rw [List.length_append]
      omega)
    let e := Emission.ofExpr s (l.heading index) (l.parameters.map fun p => p.name.text) l.body
      count
    have hfound : e.found = body.2 := congrArg Prod.snd hbody.symm
    refine ⟨e :: es, ?_, ?_, ⟨rfl, ?_⟩, ?_, ?_⟩
    · rw [closureRoutines, List.map_cons, hroutines, hbody]
      rfl
    · exact List.forall_mem_cons.mpr ⟨⟨_, _, _, _, rfl⟩, hbodies⟩
    · show Emission.InOrder (count + e.found.length) es
      rw [hfound]
      exact horder
    · -- What is met in the first body comes behind the closures that were pending before.
      rw [List.map_cons, hpieces, List.flatMap_cons, hfound, List.cons_append, List.mapIdx_cons,
        List.append_assoc]
      refine congrArg (_ :: ·) ?_
      simp only [Nat.add_assoc, Nat.add_comm 1]
    · intro i e' he'
      cases i with
      | zero =>
        obtain rfl : e = e' := Option.some.inj he'
        show index + 0 < count
        omega
      | succ i =>
        have hlater := hahead i e' he'
        omega

namespace TypeBlock

/-- The routines of a type are made of the pieces written in it, and of all closures met in them. -/
theorem emitted_routinesOf (t : SymbolTable) (s : Surroundings) (d : TypeDef) (c : ClassInfo) :
    ∃ es, Emitted s (writtenPieces t d c) es (routinesOf t s d c) := by
  obtain ⟨es, h⟩ := gathered_writtenRoutines t s d c
  have hcount :
      0 + (writtenRoutines t s d c).closures.length ≤ (writtenRoutines t s d c).count := by
    rw [h.count]
    omega
  obtain ⟨es', hroutines, hbodies, horder, hpieces, hahead⟩ :=
    exists_emissions_closureRoutines s 0 _ _ hcount
  have hdrop : (es ++ es').drop (writtenPieces t d c).length = es' := by
    rw [← h.pieces, List.length_map, List.drop_left]
  refine ⟨es ++ es', ?_, ?_, h.order.append ?_, ?_, hdrop.symm ▸ hbodies, ?_⟩
  · rw [List.map_append, h.list, hroutines, routinesOf_eq]
  · intro e he
    rcases List.mem_append.mp he with he | he
    · exact h.made e he
    · obtain ⟨heading, parameters, body, first, rfl⟩ := hbodies e he
      exact Emission.made_ofExpr ..
  · rw [h.closures, Nat.zero_add, ← h.count]
    exact horder
  · rw [List.map_append, h.pieces, hpieces, List.flatMap_append, h.closures]
    simp only [Nat.zero_add]
  · intro i e he
    rw [hdrop] at he
    have hfirst := hahead i e he
    omega

end TypeBlock

end Mixin
