import Mathlib.Data.List.Forall2
import Mixin.Proofs.Listing.Closures
import Mixin.Proofs.Listing.Fragments

/-!
# Verified bodies

What a verifier of the stack machine asks of a body, and that the constructor, the methods and the
closures of every block of a listing pass it.
-/

namespace Mixin

/-- Whether control may go from an instruction at position `i` to position `j`: to the next
position, or to a label to which the instruction jumps. -/
def Edge (code : List Instr) (i : Nat) (instr : Instr) (j : Nat) : Prop :=
  (instr.fallsThrough ∧ j = i + 1) ∨ ∃ l, instr.target? = some l ∧ code[j]? = some (.label l)

/-- Stack heights for the positions of a body: no instruction takes more than there is, the heights
agree along all edges, no edge leaves the body, and a return finds as many values as are handed
back. -/
structure Heights (code : List Instr) (result : Nat) (height : Nat → Nat) : Prop where
  start : height 0 = 0
  enough : ∀ i instr, code[i]? = some instr → instr.takes ≤ height i
  inside : ∀ i instr j, code[i]? = some instr → Edge code i instr j → j < code.length
  edge : ∀ i instr j, code[i]? = some instr → Edge code i instr j →
    height j + instr.takes = height i + instr.gives
  result : ∀ i, code[i]? = some .ret → height i = result

/-- What a verifier asks of a body with so many parameters that hands back so many values. -/
structure Body.Verified (b : Body) (parameters result : Nat) : Prop where
  label_once : ∀ l, .label l ∈ b.code → b.code.count (.label l) = 1
  target : ∀ i ∈ b.code, ∀ l, i.target? = some l → .label l ∈ b.code
  heights : ∃ height, Heights b.code result height
  slot : ∀ i ∈ b.code, ∀ slot, i.slot? = some slot → slot < b.locals
  argument : ∀ i ∈ b.code, ∀ n, i.argument? = some n → n ≤ parameters

/-! ### From fragments to bodies -/

theorem getElem?_append_ret {code : List Instr} {i : Nat} {instr : Instr}
    (h : (code ++ [.ret])[i]? = some instr) :
    code[i]? = some instr ∨ i = code.length ∧ instr = .ret := by
  rw [List.getElem?_append] at h
  split at h
  · exact .inl h
  · next le =>
    rw [List.getElem?_singleton, Option.ite_none_right_eq_some] at h
    obtain ⟨last, ⟨⟩⟩ := h
    exact .inr ⟨by omega, rfl⟩

theorem Steps.heights {heights : Nat → Nat} {code : List Instr} {height : Nat → Nat} {result : Nat}
    (steps : Steps heights code height) (start : height 0 = 0)
    (finish : height code.length = result) (no_ret : .ret ∉ code) :
    Heights (code ++ [.ret]) result height where
  start := start
  enough i instr at_i := by
    rcases getElem?_append_ret at_i with at_i | ⟨-, rfl⟩
    · exact steps.enough i instr at_i
    · exact Nat.zero_le _
  inside i instr j at_i edge := by
    rcases edge with ⟨falls, rfl⟩ | ⟨l, -, at_j⟩
    · rcases getElem?_append_ret at_i with at_i | ⟨-, rfl⟩
      · have := (List.getElem?_eq_some_iff.1 at_i).1
        simpa using this
      · cases falls
    · exact (List.getElem?_eq_some_iff.1 at_j).1
  edge i instr j at_i edge := by
    rcases getElem?_append_ret at_i with at_i | ⟨-, rfl⟩
    · rcases edge with ⟨falls, rfl⟩ | ⟨l, target, at_j⟩
      · exact steps.next i instr at_i falls
      -- The label stands before the return, where the steps give it its height.
      · rcases getElem?_append_ret at_j with at_j | ⟨-, ⟨⟩⟩
        rw [steps.label j l at_j]
        exact steps.jump i instr l at_i target
    · rcases edge with ⟨⟨⟩, -⟩ | ⟨l, ⟨⟩, -⟩
  result i at_i := by
    rcases getElem?_append_ret at_i with at_i | ⟨rfl, -⟩
    · exact absurd (List.mem_of_getElem? at_i) no_ret
    · exact finish

theorem Fragment.verified {f : Frame} {k : Counters} {a : Lowered} {result : Nat}
    (h : Fragment f k a 0 result) : a.finish.1.Verified f.parameters.length result := by
  have no_ret : .ret ∉ a.code := fun mem => (h.fits .ret mem).ne_ret rfl
  have uses : ∀ i ∈ a.code ++ [.ret], i.Fits f k.labels a.next ∨ i = .ret := by
    intro i mem
    rcases List.mem_append.1 mem with mem | mem
    · exact .inl (h.fits i mem)
    · exact .inr (List.mem_singleton.1 mem)
  refine
    { label_once := fun l mem => ?once
      target := fun i mem l target => ?target
      heights := ?heights
      slot := fun i mem slot used => ?slot
      argument := fun i mem n used => ?argument }
  case once =>
    have mem : .label l ∈ a.code := by simpa [Lowered.finish] using mem
    have counted := h.count_label l
    rw [if_pos (h.mem_label.1 mem)] at counted
    simpa [Lowered.finish, List.count_append] using counted
  case target =>
    rcases uses i mem with fits | rfl
    · exact List.mem_append_left _ (h.mem_label.2 (fits.target l target))
    · cases target
  case heights =>
    obtain ⟨heights, flow⟩ := h.flow.exists_heights
    obtain ⟨height, start, finish, steps⟩ := flow.exists_steps
    exact ⟨height, steps.heights start finish no_ret⟩
  case slot =>
    rcases uses i mem with fits | rfl
    · exact fits.slot slot used
    · cases used
  case argument =>
    rcases uses i mem with fits | rfl
    · exact fits.argument n used
    · cases used

/-! ### Methods, closures and constructors -/

theorem Scope.below_nil (slots : Nat) : Scope.Below [] slots := nofun

theorem lowerBody_verified (s : Surroundings) (parameters : List String) (e : Expr)
    (closures : Nat) : (lowerBody s parameters e closures).1.Verified parameters.length 1 :=
  (fragment_lower ⟨s, parameters⟩ e (Scope.below_nil (Counters.start closures).locals) 0).verified

theorem heightAfter_append {f : Frame} {slots : Nat} {a b : List Instr} {p q : Nat}
    (h : heightAfter f slots a p = some q) :
    heightAfter f slots (a ++ b) p = heightAfter f slots b q := by
  induction a generalizing p with
  | nil =>
    cases h
    rfl
  | cons i a ih =>
    rw [heightAfter, Option.ite_none_right_eq_some] at h
    rw [List.cons_append, heightAfter, if_pos h.1, ih h.2]

namespace TypeBlock

theorem heightAfter_storeParameter (f : Frame) (slots : Nat) (p : Parameter) :
    heightAfter f slots (storeParameter f p) 0 = some 0 := by
  have le : (f.argument? p.name.text).getD 0 ≤ f.parameters.length := by
    cases found : f.argument? p.name.text with
    | none => exact Nat.zero_le _
    | some n => exact Frame.argument?_le found
  cases bound : p.binding <;> simp [storeParameter, bound, le]

theorem heightAfter_storeParameters (f : Frame) (slots : Nat) (ps : List Parameter) :
    heightAfter f slots (ps.flatMap (storeParameter f)) 0 = some 0 := by
  induction ps with
  | nil => rfl
  | cons p ps ih =>
    rw [List.flatMap_cons, heightAfter_append (heightAfter_storeParameter f slots p), ih]

theorem fragment_storeInitial (f : Frame) (k : Counters) (field : Field) :
    Fragment f k (storeInitial f k field) 0 0 := by
  have stored {value : Lowered} (valued : Fragment f k value 1 2) :
      Fragment f k ((value.behind [.loadArg 0]).andThen [.storeField field.name.text]) 0 0 :=
    (Fragment.behind (by simp) valued).andThen (by simp)
  rw [storeInitial]
  cases field.initializer with
  | given value => exact stored (fragment_lower f value (Scope.below_nil _) 1)
  | omitted _ => exact stored (.emit (by simp))

theorem fragment_storeInitials {f : Frame} {k : Counters} (fields : List Field) {a : Lowered}
    (h : Fragment f k a 0 0) :
    Fragment f k (fields.foldl (fun a field => a.append (storeInitial f a.next field)) a) 0 0 := by
  induction fields generalizing a with
  | nil => exact h
  | cons field fields ih => exact ih (h.append (fragment_storeInitial f a.next field))

theorem constructorBody_verified (t : SymbolTable) (s : Surroundings) (d : TypeDef)
    (superclass : ClassId) (closures : Nat) :
    (constructorBody t s d superclass closures).1.Verified d.parameters.length 0 := by
  let f : Frame := ⟨s, d.parameters.map fun p => p.name.text⟩
  let arguments := superArguments d (t.classInfo superclass).name
  have passed := fragment_lowerList f arguments (k := .start closures) (Scope.below_nil _) 1
  have called : heightAfter f (lowerList f [] arguments (.start closures)).next.locals
      [.callConstructor (t.qualifiedName s.runtimeLibrary superclass) arguments.length]
      (1 + arguments.length) = some 0 := by
    simp
    omega
  have receiver : heightAfter f 0 [.loadArg 0] 0 = some 1 := by simp
  have built := fragment_storeInitials d.fields
    (((Fragment.behind receiver passed).andThen called).andThen
      (heightAfter_storeParameters f _ d.parameters))
  have verified := built.verified
  rwa [show f.parameters.length = d.parameters.length from List.length_map _] at verified

/-! ### Listings -/

/-- A routine that stands under a heading, has a body or has none, and whose body passes the
verifier. -/
structure Passes (r : Routine) (heading : String) (present : Bool) (parameters result : Nat) :
    Prop where
  heading_eq : r.heading = heading
  isSome_body : r.body.isSome = present
  verified : ∀ b, r.body = some b → b.Verified parameters result

/-- The routines of a block are the constructor, unless the type is a trait, the methods in their
order and the closures in the order of their numbers. Only methods without a body have none, and
each body passes the verifier: a constructor hands nothing back, methods and closures hand back one
value. -/
structure Verified (s : Surroundings) (written : List Piece) (d : TypeDef) (c : ClassInfo)
    (block : TypeBlock) (es : List Emission) (closures : List Lambda)
    (constructors methods bodies : List Routine) : Prop where
  routines : block.routines = constructors ++ methods ++ bodies
  constructors_length : constructors.length = if c.kind = .trait then 0 else 1
  constructors_pass : ∀ r ∈ constructors, Passes r (constructorHeading d) true d.parameters.length 0
  methods_pass : List.Forall₂
    (fun r (m : Method) => Passes r m.heading m.body.isSome m.parameters.length 1) methods d.methods
  bodies_length : bodies.length = closures.length
  bodies_pass : ∀ (k : Nat) (l : Lambda), closures[k]? = some l →
    ∃ r, bodies[k]? = some r ∧ Passes r (l.heading k) true l.parameters.length 1
  /-- Each closure stands where its number is loaded, in one of the routines. -/
  emitted : Emitted s written es block.routines
  linked : ∀ (k : Nat) (l : Lambda), closures[k]? = some l ↔
    ∃ e ∈ es, ∃ o span, e.Holds s o ∧ o.expr = .closure l.parameters l.body span ∧
      e.code[o.start]? = some (.loadClosure k)

theorem addMethod_passes (s : Surroundings) (rs : Routines) (m : Method) :
    ∃ r, (rs.addMethod s m).list = rs.list ++ [r] ∧
      Passes r m.heading m.body.isSome m.parameters.length 1 := by
  rw [Routines.addMethod]
  split
  · next body present =>
    refine ⟨_, rfl, rfl, present ▸ rfl, ?_⟩
    rintro b ⟨⟩
    simpa using lowerBody_verified s (m.parameters.map fun p => p.name.text) body rs.count
  · next absent => exact ⟨_, rfl, rfl, absent ▸ rfl, nofun⟩

theorem addMethods_pass (s : Surroundings) (rs : Routines) (ms : List Method) :
    ∃ added, (ms.foldl (Routines.addMethod s) rs).list = rs.list ++ added ∧
      List.Forall₂ (fun r (m : Method) => Passes r m.heading m.body.isSome m.parameters.length 1)
        added ms := by
  induction ms generalizing rs with
  | nil => exact ⟨[], (List.append_nil _).symm, .nil⟩
  | cons m ms ih =>
    obtain ⟨r, list_eq, passes⟩ := addMethod_passes s rs m
    obtain ⟨added, list_eq', pass⟩ := ih (rs.addMethod s m)
    refine ⟨r :: added, ?_, .cons passes pass⟩
    rw [List.foldl_cons, list_eq', list_eq, List.append_assoc, List.singleton_append]

theorem exists_verified {t : SymbolTable} {s : Surroundings} {d : TypeDef} {c : ClassInfo}
    {block : TypeBlock} (hroutines : block.routines = routinesOf t s d c) :
    ∃ es closures constructors methods bodies,
      Verified s (writtenPieces t d c) d c block es closures constructors methods bodies := by
  obtain ⟨es, h⟩ := emitted_routinesOf t s d c
  let constructed : Routines := if c.kind = .trait then ⟨[], [], 0⟩ else
    (⟨[], [], 0⟩ : Routines).add (constructorHeading d)
      (constructorBody t s d (c.superclass.getD .root) 0)
  have hlength : constructed.list.length = if c.kind = .trait then 0 else 1 := by
    simp only [constructed]
    split <;> rfl
  have hpass : ∀ r ∈ constructed.list,
      Passes r (constructorHeading d) true d.parameters.length 0 := by
    simp only [constructed]
    split
    · exact nofun
    · intro r mem
      cases List.mem_singleton.1 mem
      refine ⟨rfl, rfl, ?_⟩
      rintro b ⟨⟩
      exact constructorBody_verified t s d _ 0
  obtain ⟨methods, hlist, hmethods⟩ := addMethods_pass s constructed d.methods
  -- Behind what is written there are the routines of the closures.
  have hwritten : (constructed.list ++ methods).length = (writtenPieces t d c).length := by
    rw [List.length_append, hlength, hmethods.length_eq, writtenPieces]
    split <;> simp [Nat.add_comm]
  have hbodies : routinesOf t s d c = constructed.list ++ methods ++
      (es.drop (writtenPieces t d c).length).map (·.routine) := by
    have hall : routinesOf t s d c = constructed.list ++ methods ++ _ :=
      (routinesOf_eq t s d c).trans (congrArg (· ++ _) hlist)
    rw [List.map_drop, h.routines, ← hwritten, hall, List.drop_left]
  have hcount : (es.drop (writtenPieces t d c).length).length = (es.flatMap (·.found)).length := by
    have hpieces := congrArg List.length h.pieces_drop
    rwa [List.length_map, List.length_mapIdx] at hpieces
  refine ⟨es, es.flatMap (·.found), constructed.list, methods, _, hroutines.trans hbodies, hlength,
    hpass, hmethods, (List.length_map _).trans hcount, fun k l hl => ?_, hroutines ▸ h,
    fun k l => h.found_iff⟩
  obtain ⟨first, hfirst⟩ := h.exists_getElem? hl
  refine ⟨_, by rw [List.getElem?_map, hfirst]; rfl, rfl, rfl, ?_⟩
  rintro b ⟨⟩
  simpa using lowerBody_verified s (l.parameters.map fun p => p.name.text) l.body first

end TypeBlock

/-- Every body of every block passes the verifier. -/
theorem Assembly.ofProgram_verified (p : Program) (t : SymbolTable) (options : BuildOptions) :
    List.Forall₂ (fun d block =>
        let id := (t.lookup? d.name.text).getD .root
        let c := t.classInfo id
        let s := t.surroundings p options.runtimeLibrary id
        ∃ es closures constructors methods bodies,
          TypeBlock.Verified s (TypeBlock.writtenPieces t d c) d c block es closures constructors
            methods bodies)
      p.definitions (Assembly.ofProgram p t options).blocks := by
  rw [Assembly.ofProgram, List.forall₂_map_right_iff, List.forall₂_same]
  exact fun d _ => TypeBlock.exists_verified rfl

end Mixin
