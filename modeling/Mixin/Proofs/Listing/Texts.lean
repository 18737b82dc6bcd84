import Mixin.Listing.Assembly
import Mixin.Proofs.Grammar.Leaves

/-!
# Texts that fill a line

Where no line ends in any name of a definition, none ends in any text that its block in a listing is
made of: headings, fields and instructions each fill one line (`TypeBlock.fillsLines_ofTypeDef`).
Names, operators and types are written as they are. Numbers are written in digits, and what a string
says is quoted, so it does not matter what lines they have in them.
-/

namespace Mixin

/-! ### Texts -/

namespace Text

/-- No line ends in the text. -/
def Unbroken (text : String) : Prop := '\n' ∉ text.toList

instance : DecidablePred Unbroken := fun text => inferInstanceAs (Decidable ('\n' ∉ text.toList))

/-- The text begins with something that is not blank, and no line ends in it. -/
structure FillsLine (text : String) : Prop where
  unbroken : Unbroken text
  begins : text.toList.head?.any (fun c => !c.isWhitespace) = true

instance : DecidablePred FillsLine := fun text =>
  decidable_of_iff
    (Unbroken text ∧ text.toList.head?.any (fun c => !c.isWhitespace) = true)
    ⟨fun h => ⟨h.1, h.2⟩, fun h => ⟨h.unbroken, h.begins⟩⟩

variable {s t : String}

@[simp] theorem unbroken_append : Unbroken (s ++ t) ↔ Unbroken s ∧ Unbroken t := by
  simp [Unbroken, not_or]

@[simp] theorem unbroken_ofList {cs : List Char} : Unbroken (String.ofList cs) ↔ '\n' ∉ cs := by
  simp [Unbroken]

theorem unbroken_join {texts : List String} (h : ∀ text ∈ texts, Unbroken text) :
    Unbroken (String.join texts) := by
  simpa [Unbroken] using h

theorem unbroken_intercalate {texts : List String} (hs : Unbroken s)
    (h : ∀ text ∈ texts, Unbroken text) : Unbroken (String.intercalate s texts) := by
  induction texts with
  | nil => simp [Unbroken]
  | cons text rest ih =>
    obtain ⟨htext, hrest⟩ := List.forall_mem_cons.mp h
    cases rest with
    | nil => simpa using htext
    | cons next rest =>
      rw [String.intercalate_cons_cons]
      simp only [unbroken_append]
      exact ⟨⟨htext, hs⟩, ih hrest⟩

theorem FillsLine.append (h : FillsLine s) (ht : Unbroken t) : FillsLine (s ++ t) where
  unbroken := unbroken_append.mpr ⟨h.unbroken, ht⟩
  begins := by
    have hbegins := h.begins
    rw [String.toList_append]
    cases hs : s.toList with
    | nil => simp [hs] at hbegins
    | cons c cs => simpa [hs] using hbegins

/-! ### Numbers and quoted texts -/

theorem feed_notMem_toDigits {base : Nat} (hbase : 1 < base) (n : Nat) :
    '\n' ∉ Nat.toDigits base n := by
  induction n using Nat.strong_induction_on with
  | _ n ih =>
    rw [Nat.toDigits_eq_if hbase]
    split
    · simp
    · have hless : n / base < n := Nat.div_lt_self (by omega) hbase
      simp [ih _ hless]

@[simp] theorem unbroken_repr (n : Nat) : Unbroken n.repr := by
  rw [Nat.repr_eq_ofList_toDigits, unbroken_ofList]
  exact feed_notMem_toDigits (by decide) n

@[simp] theorem unbroken_repr_int (n : Int) : Unbroken n.repr := by
  rw [Int.repr_eq_if]
  split
  · exact unbroken_repr _
  · exact unbroken_append.mpr ⟨by decide, unbroken_repr _⟩

theorem feed_notMem_escapeChar (quote c : Char) : '\n' ∉ escapeChar quote c := by
  by_cases hfeed : c = '\n'
  · have hescaped : escapeChar quote c = ['\\', 'n'] := by rw [hfeed]; rfl
    rw [hescaped]
    decide
  · have hdigits := feed_notMem_toDigits (show 1 < 16 by decide) c.toNat
    unfold escapeChar
    split_ifs <;> simp [Ne.symm hfeed, hexDigits, hdigits]

@[simp] theorem unbroken_quoteString (text : String) : Unbroken (quoteString text) := by
  rw [quoteString, unbroken_ofList]
  simp [feed_notMem_escapeChar]

end Text

namespace Binary64

theorem feed_notMem_trimmed (decimal : Nat × Int) : '\n' ∉ (trimmed decimal).1 := by
  intro h
  have hmem := (List.dropWhile_suffix _).subset (List.mem_reverse.mp h)
  exact Text.feed_notMem_toDigits (by decide) decimal.1 (List.mem_reverse.mp hmem)

@[simp] theorem unbroken_render (b : Binary64) : Text.Unbroken b.render := by
  have hdigits := feed_notMem_trimmed b.shortest
  have htake (n : Nat) : '\n' ∉ (trimmed b.shortest).1.take n :=
    fun h => hdigits (List.mem_of_mem_take h)
  have hdrop (n : Nat) : '\n' ∉ (trimmed b.shortest).1.drop n :=
    fun h => hdigits (List.mem_of_mem_drop h)
  rw [render]
  split
  · decide
  split
  · decide
  dsimp only
  split
  · simp only [Text.unbroken_ofList, List.mem_append, not_or]
    refine ⟨⟨?_, by decide⟩, ?_⟩
    · split <;> simp [htake]
    · split <;> simp [hdrop]
  · simp only [Text.unbroken_append, Text.unbroken_ofList, Int.toString_eq_repr, List.mem_append,
      not_or]
    refine ⟨⟨⟨htake 1, ?_⟩, by decide⟩, Text.unbroken_repr_int _⟩
    split
    · exact List.not_mem_nil
    · exact List.not_mem_cons_of_ne_of_not_mem (by decide) (hdrop 1)

end Binary64

/-! ### Names and types -/

namespace Leaf

@[simp] def ident? : Leaf → Option Ident
  | name id | member id | operator id => some id
  | _ => none

/-- No line ends in any of the names and operators among the leaves. -/
def Unbroken (ls : List Leaf) : Prop := ∀ l ∈ ls, ∀ id ∈ l.ident?, Text.Unbroken id.text

variable {ls ms : List Leaf}

@[simp] theorem unbroken_nil : Unbroken [] := by simp [Unbroken]

@[simp] theorem unbroken_cons {l : Leaf} :
    Unbroken (l :: ls) ↔ (∀ id ∈ l.ident?, Text.Unbroken id.text) ∧ Unbroken ls :=
  List.forall_mem_cons

@[simp] theorem unbroken_append : Unbroken (ls ++ ms) ↔ Unbroken ls ∧ Unbroken ms :=
  List.forall_mem_append

@[simp] theorem unbroken_flatMap {α : Type} {f : α → List Leaf} {as : List α} :
    Unbroken (as.flatMap f) ↔ ∀ a ∈ as, Unbroken (f a) := by
  simp only [Unbroken, List.mem_flatMap]
  grind

end Leaf

namespace TypeExpr

theorem unbroken_render_all :
    (∀ type : TypeExpr, Leaf.Unbroken type.leaves → Text.Unbroken type.render) ∧
    (∀ types, Leaf.Unbroken (leavesOfAll types) → Text.Unbroken (renderList types)) ∧
    (∀ types, Leaf.Unbroken (leavesOfAll types) → Text.Unbroken (renderRest types)) := by
  refine render.mutual_induct _ _ _ ?plain ?applied ?function ?tuple ?nil ?cons ?none ?more
  case plain =>
    intro name span h
    rw [leaves, Leaf.unbroken_cons] at h
    exact h.1 name rfl
  case applied =>
    intro name span first rest ih ih' h
    simp only [leaves, leavesOfAll, Leaf.unbroken_cons, Leaf.unbroken_append] at h
    obtain ⟨hname, hfirst, hrest⟩ := h
    simp only [render, Text.unbroken_append]
    exact ⟨⟨⟨⟨hname _ rfl, by decide⟩, ih hfirst⟩, ih' hrest⟩, by decide⟩
  case function =>
    intro parameters result span ih ih' h
    simp only [leaves, Leaf.unbroken_append] at h
    simp only [render, Text.unbroken_append]
    exact ⟨⟨⟨by decide, ih h.1⟩, by decide⟩, ih' h.2⟩
  case tuple =>
    intro elements span ih h
    simp only [render, Text.unbroken_append]
    exact ⟨⟨by decide, ih h⟩, by decide⟩
  case nil | none =>
    intro
    decide
  case cons =>
    intro first rest ih ih' h
    simp only [leavesOfAll, Leaf.unbroken_append] at h
    simp only [renderList, Text.unbroken_append]
    exact ⟨ih h.1, ih' h.2⟩
  case more =>
    intro first rest ih ih' h
    simp only [leavesOfAll, Leaf.unbroken_append] at h
    simp only [renderRest, Text.unbroken_append]
    exact ⟨⟨by decide, ih h.1⟩, ih' h.2⟩

theorem unbroken_render {type : TypeExpr} (h : Leaf.Unbroken type.leaves) :
    Text.Unbroken type.render :=
  unbroken_render_all.1 type h

end TypeExpr

theorem MethodInfo.exists_annotated {type : Option TypeExpr}
    (h : Leaf.Unbroken (TypeExpr.leavesOf? type)) :
    ∃ ending, Text.Unbroken ending ∧ ∀ text, annotated text type = text ++ ending := by
  cases type with
  | none => exact ⟨"", by decide, fun text => String.append_empty.symm⟩
  | some type =>
    have hrender := TypeExpr.unbroken_render (by simpa [TypeExpr.leavesOf?] using h)
    exact ⟨": " ++ type.render, Text.unbroken_append.mpr ⟨by decide, hrender⟩,
      fun text => String.append_assoc⟩

/-! ### Instructions -/

namespace Instr

@[simp] def name? : Instr → Option String
  | loadField name | storeField name | loadMember name | storeMember name | loadInstance name
  | loadSymbol name | storeSymbol name | callVirtual name _ | callConstructor name _
  | create name _ => some name
  | _ => none

/-- No line ends in the name that an instruction refers to something by. -/
@[simp] def Unbroken (i : Instr) : Prop := ∀ name ∈ i.name?, Text.Unbroken name

theorem unbroken_applied {name : String} (h : Text.Unbroken name) (arity : Nat) :
    Text.Unbroken (applied name arity) := by
  simp only [applied, Text.unbroken_append, Nat.toString_eq_repr]
  exact ⟨⟨⟨h, by decide⟩, Text.unbroken_repr arity⟩, by decide⟩

theorem unbroken_closureName (index : Nat) : Text.Unbroken (closureName index) :=
  Text.unbroken_append.mpr ⟨by decide, Text.unbroken_repr index⟩

theorem fillsLine_labelName (n : Nat) : Text.FillsLine (labelName n) :=
  .append (by decide) (Text.unbroken_repr n)

theorem fillsLine_render {i : Instr} (h : i.Unbroken) : Text.FillsLine i.render := by
  cases i with
  | loadNull | loadUnit | pop | ret => decide
  | loadBool value => cases value <;> decide
  | loadInt n | loadArg n | storeArg n | loadLocal n | storeLocal n =>
    exact .append (by decide) (Text.unbroken_repr n)
  | loadChar value => exact .append (by decide) (Text.unbroken_repr value.toNat)
  | loadFloat value => exact .append (by decide) value.unbroken_render
  | loadString value => exact .append (by decide) (Text.unbroken_quoteString value)
  | loadField name | storeField name | loadMember name | storeMember name | loadSymbol name
  | storeSymbol name => exact .append (by decide) (h name rfl)
  | loadInstance name => exact .append (.append (by decide) (h name rfl)) (by decide)
  | callVirtual name arity => exact .append (by decide) (unbroken_applied (h name rfl) arity)
  | callConstructor type arity | create type arity =>
    have htype := Text.unbroken_append.mpr ⟨h type rfl, show Text.Unbroken "::.ctor" by decide⟩
    exact .append (by decide) (unbroken_applied htype arity)
  | loadClosure index => exact .append (by decide) (unbroken_closureName index)
  | branch target | branchFalse target => exact .append (by decide) (fillsLine_labelName _).unbroken
  | label name => exact (fillsLine_labelName name).append (by decide)

end Instr

theorem unbroken_inLibrary {library name : String} (hlibrary : Text.Unbroken library)
    (hname : Text.Unbroken name) : Text.Unbroken (inLibrary library name) := by
  simp only [inLibrary, Text.unbroken_append]
  exact ⟨⟨⟨by decide, hlibrary⟩, by decide⟩, hname⟩

theorem Surroundings.unbroken_typeReference {s : Surroundings} {name : String}
    (hlibrary : Text.Unbroken s.runtimeLibrary) (hname : Text.Unbroken name) :
    Text.Unbroken (s.typeReference name) := by
  unfold typeReference
  split
  · exact unbroken_inLibrary hlibrary hname
  · exact hname

namespace Frame

variable {f : Frame} {name : String}

theorem unbroken_load (scope : Scope) (h : Text.Unbroken name) :
    ∀ i ∈ f.load scope name, i.Unbroken := by
  unfold load
  split
  · simp
  · simp
  · split_ifs <;> simp [h]

theorem unbroken_store (scope : Scope) (h : Text.Unbroken name) :
    ∀ i ∈ (f.store scope name).1 ++ (f.store scope name).2, i.Unbroken := by
  unfold store
  split
  · simp
  · simp
  · split_ifs <;> simp [h]

theorem unbroken_functionType (h : Text.Unbroken f.surroundings.runtimeLibrary) (arity : Nat) :
    Text.Unbroken (f.functionType arity) :=
  unbroken_inLibrary h (Text.unbroken_append.mpr ⟨by decide, Text.unbroken_repr arity⟩)

end Frame

/-! ### Lowered code -/

def Lambda.leaves (l : Lambda) : List Leaf := l.parameters.flatMap Binder.leaves ++ l.body.leaves

namespace Lowered

/-- No line ends in a name that the instructions refer to, or in a name of the closures met in
them. -/
structure Unbroken (a : Lowered) : Prop where
  code : ∀ i ∈ a.code, i.Unbroken
  closures : ∀ l ∈ a.closures, Leaf.Unbroken l.leaves

namespace Unbroken

variable {a b : Lowered} {code : List Instr} {k : Counters}

theorem emit (h : ∀ i ∈ code, i.Unbroken) : (Lowered.emit code k).Unbroken :=
  ⟨h, List.forall_mem_nil _⟩

theorem append (ha : a.Unbroken) (hb : b.Unbroken) : (a.append b).Unbroken :=
  ⟨List.forall_mem_append.mpr ⟨ha.code, hb.code⟩,
    List.forall_mem_append.mpr ⟨ha.closures, hb.closures⟩⟩

theorem andThen (ha : a.Unbroken) (h : ∀ i ∈ code, i.Unbroken) : (a.andThen code).Unbroken :=
  ⟨List.forall_mem_append.mpr ⟨ha.code, h⟩, ha.closures⟩

theorem behind (ha : a.Unbroken) (h : ∀ i ∈ code, i.Unbroken) : (a.behind code).Unbroken :=
  ⟨List.forall_mem_append.mpr ⟨h, ha.code⟩, ha.closures⟩

end Unbroken

end Lowered

/-- Instructions refer to things by names in the expressions of which they are made. -/
theorem unbroken_lower_all {f : Frame} (hlibrary : Text.Unbroken f.surroundings.runtimeLibrary) :
    (∀ scope e k, Leaf.Unbroken e.leaves → (lower f scope e k).Unbroken) ∧
    (∀ scope ss k, Leaf.Unbroken (Expr.leavesOfStatements ss) →
      (lowerStatements f scope ss k).Unbroken) ∧
    (∀ scope es k, Leaf.Unbroken (Expr.leavesOfAll es) → (lowerList f scope es k).Unbroken) := by
  refine lower.mutual_induct f _ _ _ ?int ?float ?bool ?char ?string ?null ?unit ?this ?reference
    ?select ?callMember ?callName ?callValue ?create ?unary ?binary ?assignName ?assignMember
    ?assignOther ?ifThen ?ifElse ?loop ?closure ?block ?nil ?cons ?empty ?last ?eval ?define
  case int | float | bool | char | string =>
    intro scope value span k h
    rw [lower]
    exact .emit (by simp)
  case null | unit | this =>
    intro scope span k h
    rw [lower]
    exact .emit (by simp)
  case reference =>
    intro scope name k h
    rw [lower]
    exact .emit (Frame.unbroken_load scope (h _ List.mem_cons_self name rfl))
  case select =>
    intro scope receiver name span k ih h
    rw [Expr.leaves, Leaf.unbroken_append] at h
    rw [lower]
    exact (ih h.1).andThen (by simpa using h.2)
  case callMember =>
    intro scope receiver name span arguments span' k target ih ih' h
    simp only [Expr.leaves, Leaf.unbroken_append] at h
    rw [lower]
    exact ((ih h.1.1).append (ih' h.2)).andThen (by simpa using h.1.2)
  case callName =>
    intro scope name arguments span k start method chosen ih h
    simp only [Expr.leaves, Leaf.unbroken_append] at h
    have hname : Text.Unbroken name.text := h.1 _ List.mem_cons_self name rfl
    have hstart : (∀ i ∈ start, i.Unbroken) ∧ Text.Unbroken method := by
      split_ifs at chosen with own
      · cases chosen
        exact ⟨by simp, hname⟩
      · cases chosen
        exact ⟨Frame.unbroken_load scope hname, by decide⟩
    rw [lower, chosen]
    exact ((ih h.2).behind hstart.1).andThen (by simpa using hstart.2)
  case callValue =>
    intro scope callee arguments span k member name target ih ih' h
    rw [Expr.leaves, Leaf.unbroken_append] at h
    rw [lower]
    · exact ((ih h.1).append (ih' h.2)).andThen (by simp +decide)
    · exact member
    · exact name
  case create =>
    intro scope type arguments span k ih h
    simp only [Expr.leaves, NamedType.toTypeExpr, TypeExpr.leaves, Leaf.unbroken_append,
      Leaf.unbroken_cons] at h
    rw [lower]
    have htype := Surroundings.unbroken_typeReference hlibrary (h.1.1 type.name rfl)
    exact (ih h.2).andThen (by simpa using htype)
  case unary =>
    intro scope operator operand span k ih h
    rw [Expr.leaves, Leaf.unbroken_cons] at h
    have hoperator := Text.unbroken_append.mpr
      ⟨show Text.Unbroken "unary_" by decide, h.1 operator rfl⟩
    rw [lower]
    exact (ih h.2).andThen (by simpa using hoperator)
  case binary =>
    intro scope operator lhs rhs span k left ih ih' h
    simp only [Expr.leaves, Leaf.unbroken_append, Leaf.unbroken_cons] at h
    rw [lower]
    exact ((ih h.1).append (ih' h.2.2)).andThen (by simpa using h.2.1 operator rfl)
  case assignName =>
    intro scope name value span k before after stored ih h
    rw [Expr.leaves, Leaf.unbroken_append] at h
    have hstore := Frame.unbroken_store (f := f) scope (h.1 _ List.mem_cons_self name rfl)
    rw [stored] at hstore
    obtain ⟨hbefore, hafter⟩ := List.forall_mem_append.mp hstore
    rw [lower, stored]
    exact ((ih h.2).behind hbefore).andThen (List.forall_mem_append.mpr ⟨hafter, by simp⟩)
  case assignMember =>
    intro scope receiver name span value span' k target ih ih' h
    simp only [Expr.leaves, Leaf.unbroken_append] at h
    rw [lower]
    exact ((ih h.1.1).append (ih' h.2)).andThen (by simpa using h.1.2)
  case assignOther =>
    intro scope target value span k name member updated ih ih' h
    rw [Expr.leaves, Leaf.unbroken_append] at h
    rw [lower]
    · exact ((ih h.1).append (ih' h.2)).andThen (by simp +decide)
    · exact name
    · exact member
  case ifThen =>
    intro scope condition consequent span k test ih ih' h
    rw [Expr.leaves, Leaf.unbroken_append] at h
    rw [lower]
    have htest : test.Unbroken := (ih h.1).andThen (by simp)
    exact (htest.append (ih' h.2)).andThen (by simp)
  case ifElse =>
    intro scope condition consequent alternative span k test chosen ih ih' ih'' h
    simp only [Expr.leaves, Leaf.unbroken_append] at h
    rw [lower]
    have htest : test.Unbroken := (ih h.1).andThen (by simp)
    have hchosen : chosen.Unbroken := (htest.append (ih' h.2.1)).andThen (by simp)
    exact (hchosen.append (ih'' h.2.2)).andThen (by simp)
  case loop =>
    intro scope condition body span k test ih ih' h
    rw [Expr.leaves, Leaf.unbroken_append] at h
    rw [lower]
    have htest : test.Unbroken := ((ih h.1).behind (by simp)).andThen (by simp)
    exact (htest.append (ih' h.2)).andThen (by simp)
  case closure =>
    intro scope parameters body span k h
    rw [lower]
    have htype := Frame.unbroken_functionType hlibrary parameters.length
    exact ⟨by simpa using htype, List.forall_mem_singleton.mpr h⟩
  case block =>
    intro scope statements span k ih h
    rw [lower]
    exact ih h
  case nil =>
    intro scope k h
    rw [lowerList]
    exact .emit (List.forall_mem_nil _)
  case cons =>
    intro scope e rest k first ih ih' h
    rw [Expr.leavesOfAll, Leaf.unbroken_append] at h
    rw [lowerList]
    exact (ih h.1).append (ih' h.2)
  case empty =>
    intro scope k h
    rw [lowerStatements]
    exact .emit (by simp)
  case last =>
    intro scope e k ih h
    rw [lowerStatements]
    exact ih (by simpa [Expr.leavesOfStatements, Stmt.leaves] using h)
  case eval =>
    intro scope e rest k more first ih ih' h
    rw [Expr.leavesOfStatements, Leaf.unbroken_append] at h
    rw [lowerStatements]
    · exact ((ih h.1).andThen (by simp)).append (ih' h.2)
    · exact more
  case define =>
    intro scope binding name type initializer span rest k first slot ih ih' h
    simp only [Expr.leavesOfStatements, Stmt.leaves, Leaf.unbroken_append, Leaf.unbroken_cons] at h
    rw [lowerStatements]
    exact ((ih h.1.2.2).andThen (by simp)).append (ih' h.2)

/-! ### Headings -/

@[simp] theorem ModifierList.unbroken_visibility (ms : ModifierList) :
    Text.Unbroken ms.visibility := by
  unfold visibility
  split_ifs <;> decide

theorem Routine.unbroken_parameterText {ps : List (String × Option TypeExpr)}
    (h : ∀ p ∈ ps, Text.Unbroken p.1 ∧ Leaf.Unbroken (TypeExpr.leavesOf? p.2)) :
    Text.Unbroken (parameterText ps) := by
  have hps : ∀ text ∈ ps.map (fun p => MethodInfo.annotated p.1 p.2), Text.Unbroken text := by
    refine List.forall_mem_map.mpr fun p hp => ?_
    obtain ⟨ending, hending, heq⟩ := MethodInfo.exists_annotated (h p hp).2
    rw [heq]
    exact Text.unbroken_append.mpr ⟨(h p hp).1, hending⟩
  simp only [parameterText, Text.unbroken_append]
  exact ⟨⟨by decide, Text.unbroken_intercalate (by decide) hps⟩, by decide⟩

theorem Parameter.unbroken_headings {ps : List Parameter}
    (h : ∀ p ∈ ps, Leaf.Unbroken p.leaves) :
    Text.Unbroken (Routine.parameterText (ps.map Parameter.heading)) := by
  refine Routine.unbroken_parameterText (List.forall_mem_map.mpr fun p hp => ?_)
  have hp := h p hp
  simp only [leaves, Leaf.unbroken_cons, Leaf.unbroken_append] at hp
  exact ⟨hp.1 p.name rfl, by simpa [heading, TypeExpr.leavesOf?] using hp.2.1⟩

theorem Method.unbroken_parameters {m : Method} (h : Leaf.Unbroken m.leaves) :
    ∀ p ∈ m.parameters, Leaf.Unbroken p.leaves := by
  simp only [leaves, Leaf.unbroken_cons, Leaf.unbroken_append, Leaf.unbroken_flatMap] at h
  intro p hp
  obtain ⟨clause, hclause, hp⟩ := List.mem_flatten.mp hp
  exact h.2.2.1 clause hclause p hp

theorem Method.fillsLine_heading {m : Method} (h : Leaf.Unbroken m.leaves) :
    Text.FillsLine m.heading := by
  have hparameters := Parameter.unbroken_headings (unbroken_parameters h)
  simp only [leaves, Leaf.unbroken_cons, Leaf.unbroken_append] at h
  obtain ⟨hname, -, -, hresult, -⟩ := h
  have habstract : Text.Unbroken (if m.isAbstract then "abstract " else "") := by
    split <;> decide
  obtain ⟨ending, hending, heq⟩ := MethodInfo.exists_annotated hresult
  have hstart : Text.FillsLine (".method " ++ m.modifiers.visibility ++ " ") :=
    .append (.append (by decide) m.modifiers.unbroken_visibility) (by decide)
  rw [heading, heq]
  exact (((hstart.append habstract).append (hname m.name rfl)).append hparameters).append
    hending

theorem Lambda.fillsLine_heading {l : Lambda} (h : Leaf.Unbroken l.leaves) (index : Nat) :
    Text.FillsLine (l.heading index) := by
  have hparameters : Text.Unbroken
      (Routine.parameterText (l.parameters.map fun p => (p.name.text, p.type))) := by
    simp only [leaves, Leaf.unbroken_append, Leaf.unbroken_flatMap] at h
    refine Routine.unbroken_parameterText (List.forall_mem_map.mpr fun b hb => ?_)
    have hb := h.1 b hb
    rw [Binder.leaves, Leaf.unbroken_cons] at hb
    exact ⟨hb.1 b.name rfl, hb.2⟩
  exact .append (.append (by decide) (Instr.unbroken_closureName index)) hparameters

/-! ### Routines -/

/-- The heading of a routine and its instructions each fill a line. -/
structure Routine.FillsLines (r : Routine) : Prop where
  heading : Text.FillsLine r.heading
  code : ∀ body ∈ r.body, ∀ i ∈ body.code, Text.FillsLine i.render

/-- The routines fill lines, and no line ends in a name of the closures met in them. -/
structure Routines.FillsLines (rs : Routines) : Prop where
  list : ∀ r ∈ rs.list, r.FillsLines
  closures : ∀ l ∈ rs.closures, Leaf.Unbroken l.leaves

section Routines

variable {s : Surroundings} {rs : Routines}

theorem Lowered.Unbroken.fillsLines {a : Lowered} (h : a.Unbroken) {heading : String}
    (hheading : Text.FillsLine heading) : Routine.FillsLines ⟨heading, some a.finish.1⟩ where
  heading := hheading
  code := by
    intro body hbody i hi
    obtain rfl := Option.some.inj hbody
    rcases List.mem_append.mp hi with hi | hi
    · exact Instr.fillsLine_render (h.code i hi)
    · rw [List.mem_singleton.mp hi]
      decide

theorem Routines.FillsLines.add (h : rs.FillsLines) {heading : String}
    (hheading : Text.FillsLine heading) {a : Lowered} (ha : a.Unbroken) :
    (rs.add heading a.finish).FillsLines where
  list := List.forall_mem_append.mpr
    ⟨h.list, List.forall_mem_singleton.mpr (ha.fillsLines hheading)⟩
  closures := List.forall_mem_append.mpr ⟨h.closures, ha.closures⟩

variable (hlibrary : Text.Unbroken s.runtimeLibrary)
include hlibrary

theorem unbroken_lower (parameters : List String) {e : Expr} (h : Leaf.Unbroken e.leaves)
    (k : Counters) : (lower ⟨s, parameters⟩ [] e k).Unbroken :=
  (unbroken_lower_all (f := ⟨s, parameters⟩) hlibrary).1 [] e k h

theorem unbroken_lowerList (parameters : List String) {es : List Expr}
    (h : Leaf.Unbroken (Expr.leavesOfAll es)) (k : Counters) :
    (lowerList ⟨s, parameters⟩ [] es k).Unbroken :=
  (unbroken_lower_all (f := ⟨s, parameters⟩) hlibrary).2.2 [] es k h

theorem Routines.FillsLines.addMethod (h : rs.FillsLines) {m : Method}
    (hm : Leaf.Unbroken m.leaves) : (rs.addMethod s m).FillsLines := by
  have hheading := Method.fillsLine_heading hm
  unfold Routines.addMethod
  split
  next body hbody =>
    have hleaves : Leaf.Unbroken body.leaves := by
      simp only [Method.leaves, hbody, Leaf.unbroken_cons, Leaf.unbroken_append,
        Leaf.unbroken_flatMap] at hm
      exact hm.2.2.2.2 body (by simp)
    exact h.add hheading (unbroken_lower hlibrary _ hleaves _)
  next hbody =>
    have hbodiless : Routine.FillsLines ⟨m.heading, none⟩ := ⟨hheading, by simp⟩
    exact ⟨List.forall_mem_append.mpr ⟨h.list, List.forall_mem_singleton.mpr hbodiless⟩,
      h.closures⟩

theorem Routines.FillsLines.addMethods (h : rs.FillsLines) {ms : List Method}
    (hms : ∀ m ∈ ms, Leaf.Unbroken m.leaves) : (ms.foldl (Routines.addMethod s) rs).FillsLines := by
  induction ms generalizing rs with
  | nil => exact h
  | cons m ms ih =>
    obtain ⟨hm, hms⟩ := List.forall_mem_cons.mp hms
    exact ih (h.addMethod hlibrary hm) hms

theorem fillsLines_closureRoutines (index count : Nat) {pending : List Lambda}
    (h : ∀ l ∈ pending, Leaf.Unbroken l.leaves) :
    ∀ r ∈ closureRoutines s index count pending, r.FillsLines := by
  induction index, count, pending using closureRoutines.induct s with
  | case1 index count =>
    rw [closureRoutines]
    exact List.forall_mem_nil _
  | case2 index count l rest body ih =>
    obtain ⟨hl, hrest⟩ := List.forall_mem_cons.mp h
    have hbody : Leaf.Unbroken l.body.leaves := (Leaf.unbroken_append.mp hl).2
    have hlowered := unbroken_lower hlibrary (l.parameters.map fun p => p.name.text) hbody
      (.start count)
    have heq : body = lowerBody s (l.parameters.map fun p => p.name.text) l.body count :=
      congrArg (lowerBody s · l.body count) (by simp)
    have hclosures : ∀ l ∈ body.2, Leaf.Unbroken l.leaves := by
      rw [heq]
      exact hlowered.closures
    rw [closureRoutines, ← heq]
    refine List.forall_mem_cons.mpr ⟨?_, ih (List.forall_mem_append.mpr ⟨hrest, hclosures⟩)⟩
    rw [heq]
    exact hlowered.fillsLines (Lambda.fillsLine_heading hl index)

end Routines

/-! ### Types and definitions -/

/-- No line ends in a name of a type or of a type parameter. -/
structure SymbolTable.Unbroken (t : SymbolTable) : Prop where
  name : ∀ id, Text.Unbroken (t.classInfo id).name
  typeParameters : ∀ id, ∀ p ∈ (t.classInfo id).typeParameters, Text.Unbroken p.2

theorem SymbolTable.Unbroken.qualifiedName {t : SymbolTable} (h : t.Unbroken) {library : String}
    (hlibrary : Text.Unbroken library) (id : ClassId) :
    Text.Unbroken (t.qualifiedName library id) := by
  unfold SymbolTable.qualifiedName
  dsimp only
  split
  · exact unbroken_inLibrary hlibrary (h.name id)
  · exact h.name id

namespace TypeDef

variable {d : TypeDef} (hd : Leaf.Unbroken d.leaves)
include hd

theorem unbroken_parameters : ∀ p ∈ d.parameters, Leaf.Unbroken p.leaves := by
  simp only [leaves, Leaf.unbroken_cons, Leaf.unbroken_append, Leaf.unbroken_flatMap] at hd
  exact hd.2.2.1

theorem unbroken_members : ∀ m ∈ d.members, Leaf.Unbroken m.leaves := by
  simp only [leaves, Leaf.unbroken_cons, Leaf.unbroken_append, Leaf.unbroken_flatMap] at hd
  exact hd.2.2.2.2

theorem unbroken_fields : ∀ f ∈ d.fields, Leaf.Unbroken f.leaves := by
  intro f hf
  obtain ⟨m, hm, hfield⟩ := List.mem_filterMap.mp hf
  cases m with
  | field g =>
    obtain rfl := Option.some.inj hfield
    exact unbroken_members hd _ hm
  | method => cases hfield

theorem unbroken_methods : ∀ m ∈ d.methods, Leaf.Unbroken m.leaves := by
  intro m hm
  obtain ⟨member, hmember, hmethod⟩ := List.mem_filterMap.mp hm
  cases member with
  | field => cases hmethod
  | method m' =>
    obtain rfl := Option.some.inj hmethod
    exact unbroken_members hd _ hmember

end TypeDef

/-! ### Blocks -/

namespace TypeBlock

/-- The heading of a block, its fields and its routines each fill lines. -/
structure FillsLines (b : TypeBlock) : Prop where
  heading : Text.FillsLine b.heading
  fields : ∀ field ∈ b.fields, Text.FillsLine field
  routines : ∀ r ∈ b.routines, r.FillsLines

theorem unbroken_attributes (c : ClassInfo) : ∀ word ∈ attributes c, Text.Unbroken word := by
  have hkeyword (m : Modifier) : Text.Unbroken m.keyword := by
    cases m <;> decide
  have hothers (implied : List Modifier) : ∀ word ∈
      (c.modifiers.toList.filter (· ∉ implied)).map Modifier.keyword, Text.Unbroken word :=
    List.forall_mem_map.mpr fun m _ => hkeyword m
  unfold attributes
  cases c.kind <;> dsimp only
  · exact hothers []
  · exact List.forall_mem_append.mpr ⟨by decide, hothers _⟩
  · exact List.forall_mem_append.mpr ⟨by decide, hothers _⟩

theorem unbroken_commas {texts : List String} (h : ∀ text ∈ texts, Text.Unbroken text) :
    Text.Unbroken (String.intercalate ", " texts) :=
  Text.unbroken_intercalate (by decide) h

theorem fillsLine_headingOf {t : SymbolTable} (ht : t.Unbroken) {library : String}
    (hlibrary : Text.Unbroken library) (id : ClassId) :
    Text.FillsLine (headingOf t library (t.classInfo id)) := by
  have hattributes : Text.Unbroken
      (String.join ((attributes (t.classInfo id)).map (· ++ " "))) := by
    refine Text.unbroken_join (List.forall_mem_map.mpr fun word hword => ?_)
    exact Text.unbroken_append.mpr ⟨unbroken_attributes _ word hword, by decide⟩
  have hparameters : ∀ text ∈ (t.classInfo id).typeParameters.map (fun p => p.1.sigil ++ p.2),
      Text.Unbroken text := by
    refine List.forall_mem_map.mpr fun p hp => ?_
    have hsigil : Text.Unbroken p.1.sigil := by cases p.1 <;> decide
    exact Text.unbroken_append.mpr ⟨hsigil, ht.typeParameters id p hp⟩
  have htraits : ∀ text ∈ (t.classInfo id).traits.map (t.qualifiedName library),
      Text.Unbroken text := List.forall_mem_map.mpr fun trait _ => ht.qualifiedName hlibrary trait
  have hstart : Text.FillsLine (".class public " ++
      String.join ((attributes (t.classInfo id)).map (· ++ " ")) ++ (t.classInfo id).name) :=
    .append (.append (by decide) hattributes) (ht.name id)
  unfold headingOf
  refine ((hstart.append ?_).append ?_).append ?_
  · split
    · decide
    · simp only [Text.unbroken_append]
      exact ⟨⟨by decide, unbroken_commas hparameters⟩, by decide⟩
  · split
    · decide
    · exact Text.unbroken_append.mpr ⟨by decide, ht.qualifiedName hlibrary _⟩
  · split
    · decide
    · exact Text.unbroken_append.mpr ⟨by decide, unbroken_commas htraits⟩

theorem fillsLine_fieldLine (modifiers : ModifierList) (binding : Binding) {name : String}
    {type : Option TypeExpr} (hname : Text.Unbroken name)
    (htype : Leaf.Unbroken (TypeExpr.leavesOf? type)) :
    Text.FillsLine (fieldLine modifiers binding name type) := by
  obtain ⟨ending, hending, heq⟩ := MethodInfo.exists_annotated htype
  unfold fieldLine
  rw [heq]
  refine .append (.append (.append (.append (.append (by decide) modifiers.unbroken_visibility)
    (by decide)) ?_) hname) hending
  cases binding <;> decide

section Definitions

variable {d : TypeDef} (hd : Leaf.Unbroken d.leaves)
include hd

theorem unbroken_superArguments (superclass : String) :
    Leaf.Unbroken (Expr.leavesOfAll (superArguments d superclass)) := by
  simp only [TypeDef.leaves, Leaf.unbroken_cons, Leaf.unbroken_append, Leaf.unbroken_flatMap] at hd
  rw [Expr.leavesOfAll_eq, superArguments]
  cases hfound : d.parents.find? fun p => p.type.name.text == superclass with
  | none => exact Leaf.unbroken_nil
  | some parent =>
    have hparent := hd.2.2.2.1 parent (List.mem_of_find?_eq_some hfound)
    exact (Leaf.unbroken_append.mp hparent).2

theorem fillsLine_of_mem_fieldLines : ∀ line ∈ fieldLines d, Text.FillsLine line := by
  refine List.forall_mem_append.mpr ⟨?_, List.forall_mem_map.mpr fun f hf => ?_⟩
  · intro line hline
    obtain ⟨p, hp, hline⟩ := List.mem_filterMap.mp hline
    obtain ⟨binding, -, rfl⟩ := Option.map_eq_some_iff.mp hline
    have hleaves := TypeDef.unbroken_parameters hd p hp
    simp only [Parameter.leaves, Leaf.unbroken_cons, Leaf.unbroken_append] at hleaves
    exact fillsLine_fieldLine p.modifiers binding (hleaves.1 p.name rfl)
      (by simpa [TypeExpr.leavesOf?] using hleaves.2.1)
  · have hleaves := TypeDef.unbroken_fields hd f hf
    simp only [Field.leaves, Leaf.unbroken_cons, Leaf.unbroken_append] at hleaves
    exact fillsLine_fieldLine f.modifiers f.binding (hleaves.1 f.name rfl) hleaves.2.1

end Definitions

theorem unbroken_storeParameter (f : Frame) {p : Parameter} (h : Leaf.Unbroken p.leaves) :
    ∀ i ∈ storeParameter f p, i.Unbroken := by
  have hname := (Leaf.unbroken_cons.mp h).1 p.name rfl
  unfold storeParameter
  split
  · simpa using hname
  · exact List.forall_mem_nil _

section Constructors

variable {s : Surroundings} (hlibrary : Text.Unbroken s.runtimeLibrary)
include hlibrary

theorem unbroken_storeInitial (parameters : List String) (k : Counters) {field : Field}
    (h : Leaf.Unbroken field.leaves) : (storeInitial ⟨s, parameters⟩ k field).Unbroken := by
  simp only [Field.leaves, Leaf.unbroken_cons, Leaf.unbroken_append] at h
  obtain ⟨hname, -, hvalue⟩ := h
  unfold storeInitial
  refine .andThen (.behind ?_ (by simp)) (by simpa using hname)
  cases hinitializer : field.initializer with
  | given value =>
    rw [hinitializer] at hvalue
    exact unbroken_lower hlibrary parameters hvalue k
  | omitted span => exact .emit (by simp)

theorem unbroken_storeInitials (parameters : List String) {fields : List Field}
    (h : ∀ field ∈ fields, Leaf.Unbroken field.leaves) {a : Lowered} (ha : a.Unbroken) :
    (fields.foldl (fun a field => a.append (storeInitial ⟨s, parameters⟩ a.next field))
      a).Unbroken := by
  induction fields generalizing a with
  | nil => exact ha
  | cons field fields ih =>
    obtain ⟨hfield, hfields⟩ := List.forall_mem_cons.mp h
    exact ih hfields (ha.append (unbroken_storeInitial hlibrary parameters a.next hfield))

theorem exists_unbroken_constructor {t : SymbolTable} (ht : t.Unbroken) {d : TypeDef}
    (hd : Leaf.Unbroken d.leaves) (superclass : ClassId) (closures : Nat) :
    ∃ a : Lowered, a.Unbroken ∧ constructorBody t s d superclass closures = a.finish := by
  have hstored : ∀ i ∈ d.parameters.flatMap
      (storeParameter ⟨s, d.parameters.map fun p => p.name.text⟩), i.Unbroken := by
    intro i hi
    obtain ⟨p, hp, hi⟩ := List.mem_flatMap.mp hi
    exact unbroken_storeParameter _ (TypeDef.unbroken_parameters hd p hp) i hi
  have harguments := unbroken_lowerList hlibrary (d.parameters.map fun p => p.name.text)
    (unbroken_superArguments hd (t.classInfo superclass).name) (.start closures)
  have hcalled := ht.qualifiedName hlibrary superclass
  exact ⟨_, unbroken_storeInitials hlibrary _ (TypeDef.unbroken_fields hd)
    (.andThen (.andThen (harguments.behind (by simp)) (by simpa using hcalled)) hstored), rfl⟩

theorem fillsLines_routinesOf {t : SymbolTable} (ht : t.Unbroken) {d : TypeDef}
    (hd : Leaf.Unbroken d.leaves) (c : ClassInfo) : ∀ r ∈ routinesOf t s d c, r.FillsLines := by
  have hnothing : Routines.FillsLines ⟨[], [], 0⟩ := ⟨List.forall_mem_nil _, List.forall_mem_nil _⟩
  have hheading : Text.FillsLine (constructorHeading d) :=
    .append (by decide) (Parameter.unbroken_headings (TypeDef.unbroken_parameters hd))
  obtain ⟨a, ha, hbody⟩ :=
    exists_unbroken_constructor hlibrary ht hd (c.superclass.getD .root) 0
  have hall : Routines.FillsLines (d.methods.foldl (Routines.addMethod s)
      (if c.kind = .trait then ⟨[], [], 0⟩ else (⟨[], [], 0⟩ : Routines).add (constructorHeading d)
        (constructorBody t s d (c.superclass.getD .root) 0))) := by
    refine Routines.FillsLines.addMethods hlibrary ?_ (TypeDef.unbroken_methods hd)
    split
    · exact hnothing
    · rw [hbody]
      exact hnothing.add hheading ha
  exact List.forall_mem_append.mpr
    ⟨hall.list, fillsLines_closureRoutines hlibrary 0 _ hall.closures⟩

end Constructors

/-- No name of a definition can add to the lines of its block or take any away. -/
theorem fillsLines_ofTypeDef {t : SymbolTable} (ht : t.Unbroken) {library : String}
    (hlibrary : Text.Unbroken library) {d : TypeDef} (hd : Leaf.Unbroken d.leaves) (p : Program) :
    (ofTypeDef t p library d).FillsLines where
  heading := fillsLine_headingOf ht hlibrary _
  fields := fillsLine_of_mem_fieldLines hd
  routines := fillsLines_routinesOf hlibrary ht hd _

end TypeBlock

end Mixin
