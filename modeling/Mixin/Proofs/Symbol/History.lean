import Mathlib.Data.List.Induction
import Mathlib.Logic.Function.Basic
import Mixin.Proofs.Symbol.MemberInfo

/-!
# Histories of declarations

What a list of declarations comes to, without regard to tables: the first type declared with a name
gets the name, and the members of a type are what remains of its declarations when each that clashes
with one kept before is dropped (`History.kept`). Scopes that bind names one declaration after
another hold the same (`History.scopes_eq_foldl`).
-/

namespace Mixin

/-! ### Calls -/

/-- A call with the identifier that it returned and what it reported. -/
inductive Entry where
  | type (d : ClassDecl) (id : ClassId) (reports : List Diagnostic)
  | field (f : FieldInfo) (id : FieldId) (reports : List Diagnostic)
  | method (m : MethodInfo) (id : MethodId) (reports : List Diagnostic)

namespace Entry

def diagnostics : Entry → List Diagnostic
  | type _ _ ds => ds
  | field _ _ ds => ds
  | method _ _ ds => ds

def entity : Entry → String
  | type d .. => d.kind.keyword
  | field .. => "field"
  | method .. => "method"

def name : Entry → String
  | type d .. => d.name
  | field f .. => f.name
  | method m .. => m.name

def site : Entry → Option Span
  | type d .. => d.site
  | field f .. => f.site
  | method m .. => m.site

def parameterNames : Entry → List Ident
  | type .. => []
  | field .. => []
  | method m .. => m.parameters.map (·.name)

def type? : Entry → Option (ClassDecl × ClassId)
  | type d id _ => some (d, id)
  | field .. => none
  | method .. => none

def member? : Entry → Option (MemberInfo × MemberId)
  | type .. => none
  | field f id _ => some (.field f, .field id)
  | method m id _ => some (.method m, .method id)

end Entry

/-- All calls up to some point, the first one first. -/
abbrev History := List Entry

namespace History

/-- The types declared, with their identifiers; the root counts as declared before all others. -/
def types (log : History) : List (ClassDecl × ClassId) :=
  (SymbolTable.rootDecl, .root) :: log.filterMap Entry.type?

def members (log : History) : List (MemberInfo × MemberId) := log.filterMap Entry.member?

def typeNamed? (log : History) (name : String) : Option (ClassDecl × ClassId) :=
  log.types.find? fun p => p.1.name == name

def keepNext (kept : List (MemberInfo × MemberId)) (next : MemberInfo × MemberId) :
    List (MemberInfo × MemberId) :=
  if ∃ p ∈ kept, p.1.slot.Clashes next.1.slot then kept else kept ++ [next]

/-- The declarations for one type in their order, without those that clash with one kept before. -/
def kept (log : History) (c : ClassId) : List (MemberInfo × MemberId) :=
  (log.members.filter fun p => p.1.owner = c).foldl keepNext []

/-- The place of the member that stands in the way of a further one, if there is one. -/
def memberObstacle? (log : History) (x : MemberInfo) : Option (Option Span) :=
  ((log.kept x.owner).find? fun p => p.1.slot.Clashes x.slot).map fun p => p.1.site

/-- The place of the declaration that stands in the way of a further one, if there is one. -/
def obstacle? (log : History) : Entry → Option (Option Span)
  | .type d .. => (log.typeNamed? d.name).map fun p => p.1.site
  | .field f .. => log.memberObstacle? (.field f)
  | .method m .. => log.memberObstacle? (.method m)

/-- One report for each of `names` that equals an earlier one, with the place of the first such
one. -/
def repeatedNames (names : List Ident) : List Diagnostic :=
  names.zipIdx.filterMap fun p =>
    ((names.take p.2).find? fun e => e.text == p.1.text).map fun e =>
      .duplicate "parameter" p.1.text p.1.span (some e.span)

def reports (log : History) (e : Entry) : List Diagnostic :=
  repeatedNames e.parameterNames ++
    (log.obstacle? e).toList.map fun previous =>
      .duplicate e.entity e.name (e.site.getD .topOfFile) previous

def Returned (log : History) (c : ClassId) : Prop := c ∈ log.types.map (·.2)

/-- Whether a further call is for a type that was returned before. -/
def Permits (log : History) : Entry → Prop
  | .type .. => True
  | .field f .. => log.Returned f.owner
  | .method m .. => log.Returned m.owner

end History

/-! ### Scopes -/

/-- What names are bound to: those of types, and in each type those of fields and the signatures of
methods. -/
@[ext]
structure Bindings where
  types : String → Option ClassId
  fields : ClassId → String → Option FieldId
  methods : ClassId → Signature → Option MethodId

namespace Bindings

def initial : Bindings :=
  ⟨Function.update (fun _ => none) "Any" (some .root), fun _ _ => none, fun _ _ => none⟩

/-- A name is bound by the first declaration that it does not clash with. -/
def bind (b : Bindings) : Entry → Bindings
  | .type d id _ =>
    if (b.types d.name).isSome then b
    else { b with types := Function.update b.types d.name (some id) }
  | .field f id _ =>
    let scope := b.fields f.owner
    if (scope f.name).isSome ∨ (b.methods f.owner ⟨f.name, 0⟩).isSome then b
    else
      { b with fields := Function.update b.fields f.owner (Function.update scope f.name (some id)) }
  | .method m id _ =>
    let scope := b.methods m.owner
    if (scope m.signature).isSome ∨ m.signature.arity = 0 ∧ (b.fields m.owner m.name).isSome then b
    else
      { b with
        methods := Function.update b.methods m.owner (Function.update scope m.signature (some id)) }

/-- Every name that is bound in `b` is bound to the same in `b'`. -/
structure Extends (b b' : Bindings) : Prop where
  types : ∀ name id, b.types name = some id → b'.types name = some id
  fields : ∀ c name id, b.fields c name = some id → b'.fields c name = some id
  methods : ∀ c signature id, b.methods c signature = some id → b'.methods c signature = some id

end Bindings

namespace History

variable {log before : History} {e : Entry} {x : MemberInfo} {id : MemberId} {c : ClassId}

/-! ### Histories that grow -/

theorem types_concat (log : History) (e : Entry) :
    types (log ++ [e]) = log.types ++ e.type?.toList := by
  cases h : e.type? <;> simp [types, h]

theorem members_concat (log : History) (e : Entry) :
    members (log ++ [e]) = log.members ++ e.member?.toList := by
  cases h : e.member? <;> simp [members, h]

theorem types_mono (h : before <+: log) : types before <+: types log := by
  obtain ⟨after, rfl⟩ := h
  rw [types, types, List.filterMap_append, ← List.cons_append]
  exact List.prefix_append ..

theorem members_mono (h : before <+: log) : members before <+: members log := by
  obtain ⟨after, rfl⟩ := h
  rw [members, members, List.filterMap_append]
  exact List.prefix_append ..

theorem Returned.append (h : before.Returned c) (more : History) : Returned (before ++ more) c :=
  ((types_mono (List.prefix_append before more)).map _).subset h

theorem returned_concat (log : History) (d : ClassDecl) (c : ClassId) (ds : List Diagnostic) :
    Returned (log ++ [.type d c ds]) c := by
  simp [Returned, types_concat, Entry.type?]

/-! ### Declarations that are kept -/

theorem prefix_keepNext (kept : List (MemberInfo × MemberId)) (next : MemberInfo × MemberId) :
    kept <+: keepNext kept next := by
  unfold keepNext
  split
  · exact List.prefix_refl _
  · exact List.prefix_append ..

theorem prefix_foldl_keepNext (l kept : List (MemberInfo × MemberId)) :
    kept <+: l.foldl keepNext kept := by
  induction l generalizing kept with
  | nil => exact List.prefix_refl _
  | cons p l ih => exact (prefix_keepNext kept p).trans (ih _)

theorem kept_mono (h : before <+: log) (c : ClassId) : before.kept c <+: log.kept c := by
  obtain ⟨more, hmore⟩ := members_mono h
  rw [kept, kept, ← hmore, List.filter_append, List.foldl_append]
  exact prefix_foldl_keepNext ..

theorem kept_of_member?_eq_none (he : e.member? = none) (c : ClassId) :
    kept (log ++ [e]) c = log.kept c := by
  rw [kept, members_concat, he, Option.toList_none, List.append_nil]
  rfl

theorem kept_of_ne (he : e.member? = some (x, id)) (hc : x.owner ≠ c) :
    kept (log ++ [e]) c = log.kept c := by
  rw [kept, members_concat, he, Option.toList_some, List.filter_append]
  simp [kept, hc]

theorem kept_owner (he : e.member? = some (x, id)) :
    kept (log ++ [e]) x.owner = keepNext (log.kept x.owner) (x, id) := by
  rw [kept, members_concat, he, Option.toList_some, List.filter_append, List.foldl_append]
  simp [kept]

theorem kept_of_clash (he : e.member? = some (x, id))
    (hclash : ∃ p ∈ log.kept x.owner, p.1.slot.Clashes x.slot) (c : ClassId) :
    kept (log ++ [e]) c = log.kept c := by
  by_cases hc : x.owner = c
  · subst hc
    rw [kept_owner he, keepNext, if_pos hclash]
  · exact kept_of_ne he hc

theorem kept_of_free (he : e.member? = some (x, id))
    (hfree : ¬ ∃ p ∈ log.kept x.owner, p.1.slot.Clashes x.slot) :
    kept (log ++ [e]) x.owner = log.kept x.owner ++ [(x, id)] := by
  rw [kept_owner he, keepNext, if_neg hfree]

theorem kept_eq_nil (h : ∀ p ∈ log.members, p.1.owner ≠ c) : log.kept c = [] := by
  have hnone : (log.members.filter fun p => p.1.owner = c) = [] :=
    List.filter_eq_nil_iff.mpr fun p hp => by simpa using h p hp
  rw [kept, hnone]
  rfl

theorem foldl_keepNext_of_pairwise {kept l : List (MemberInfo × MemberId)}
    (h : (kept ++ l).Pairwise fun p q => ¬ p.1.slot.Clashes q.1.slot) :
    l.foldl keepNext kept = kept ++ l := by
  induction l generalizing kept with
  | nil => simp
  | cons p l ih =>
    have hfree : ¬ ∃ q ∈ kept, q.1.slot.Clashes p.1.slot := by
      rintro ⟨q, hq, hclash⟩
      exact (List.pairwise_append.mp h).2.2 q hq p (List.mem_cons_self ..) hclash
    rw [List.append_cons] at h ⊢
    rw [List.foldl_cons, keepNext, if_neg hfree, ih h]

theorem kept_eq_filter (h : (log.members.filter fun p => p.1.owner = c).Pairwise
    fun p q => ¬ p.1.slot.Clashes q.1.slot) :
    log.kept c = log.members.filter fun p => p.1.owner = c :=
  foldl_keepNext_of_pairwise h

theorem mem_members_of_mem_kept {p : MemberInfo × MemberId} (hp : p ∈ log.kept c) :
    p ∈ log.members ∧ p.1.owner = c := by
  have hsub : ∀ (l acc : List (MemberInfo × MemberId)), ∀ q ∈ l.foldl keepNext acc,
      q ∈ acc ∨ q ∈ l := by
    intro l
    induction l with
    | nil => exact fun acc q hq => Or.inl hq
    | cons r l ih =>
      intro acc q hq
      rcases ih _ q hq with hq | hq
      · unfold keepNext at hq
        split at hq
        · exact Or.inl hq
        · simp only [List.mem_append, List.mem_singleton] at hq
          simp only [List.mem_cons]
          tauto
      · exact Or.inr (List.mem_cons_of_mem _ hq)
  have hmem := (hsub _ _ p hp).resolve_left List.not_mem_nil
  simpa using hmem

theorem nodup_keepNext {kept : List (MemberInfo × MemberId)} (next : MemberInfo × MemberId)
    (h : (kept.map fun p => p.1.slot.key).Nodup) :
    ((keepNext kept next).map fun p => p.1.slot.key).Nodup := by
  unfold keepNext
  split
  next => exact h
  next hfree =>
    rw [List.map_append, List.map_singleton]
    refine h.append (List.nodup_singleton _) (List.disjoint_singleton.mpr fun hmem => hfree ?_)
    obtain ⟨p, hp, hkey⟩ := List.mem_map.mp hmem
    exact ⟨p, hp, Slot.clashes_iff.mpr hkey⟩

theorem nodup_keys_kept (log : History) (c : ClassId) :
    ((log.kept c).map fun p => p.1.slot.key).Nodup := by
  rw [kept]
  refine List.foldlRecOn (motive := fun l : List (MemberInfo × MemberId) =>
    (l.map fun p => p.1.slot.key).Nodup) _ _ ?_ fun kept h p _ => nodup_keepNext p h
  exact List.nodup_nil

theorem eq_of_clashes {p q : MemberInfo × MemberId} (hp : p ∈ log.kept c) (hq : q ∈ log.kept c)
    (h : p.1.slot.Clashes q.1.slot) : p = q :=
  List.inj_on_of_nodup_map (log.nodup_keys_kept c) hp hq (Slot.clashes_iff.mp h)

theorem memberObstacle?_isSome :
    (log.memberObstacle? x).isSome ↔ ∃ p ∈ log.kept x.owner, p.1.slot.Clashes x.slot := by
  simp [memberObstacle?]

/-! ### Names of declarations that are kept -/

def fieldId? (name : String) (p : MemberInfo × MemberId) : Option FieldId :=
  if p.1.slot = .field name then p.2.field? else none

def methodId? (signature : Signature) (p : MemberInfo × MemberId) : Option MethodId :=
  if p.1.slot = .method signature then p.2.method? else none

def scopes (log : History) : Bindings where
  types name := (log.typeNamed? name).map (·.2)
  fields c name := (log.kept c).findSome? (fieldId? name)
  methods c signature := (log.kept c).findSome? (methodId? signature)

theorem isSome_of_mem_members {p : MemberInfo × MemberId} (hp : p ∈ log.members) :
    (∀ name, p.1.slot = .field name → p.2.field?.isSome) ∧
      ∀ signature, p.1.slot = .method signature → p.2.method?.isSome := by
  obtain ⟨e, -, he⟩ := List.mem_filterMap.mp hp
  cases e with
  | type => cases he
  | field f id =>
    obtain rfl := Option.some.inj he
    simp [MemberInfo.slot, MemberId.field?]
  | method m id =>
    obtain rfl := Option.some.inj he
    simp [MemberInfo.slot, MemberId.method?]

theorem fields_isSome {name : String} :
    (log.scopes.fields c name).isSome ↔ ∃ p ∈ log.kept c, p.1.slot = .field name := by
  simp only [scopes, List.findSome?_isSome_iff, fieldId?]
  refine exists_congr fun p => and_congr_right fun hp => ?_
  have hfield := (isSome_of_mem_members (mem_members_of_mem_kept hp).1).1 name
  by_cases hslot : p.1.slot = .field name <;> simp [hslot, hfield]

theorem methods_isSome {signature : Signature} :
    (log.scopes.methods c signature).isSome ↔ ∃ p ∈ log.kept c, p.1.slot = .method signature := by
  simp only [scopes, List.findSome?_isSome_iff, methodId?]
  refine exists_congr fun p => and_congr_right fun hp => ?_
  have hmethod := (isSome_of_mem_members (mem_members_of_mem_kept hp).1).2 signature
  by_cases hslot : p.1.slot = .method signature <;> simp [hslot, hmethod]

theorem clashes_field_iff {name : String} :
    (∃ p ∈ log.kept c, p.1.slot.Clashes (.field name)) ↔
      (log.scopes.fields c name).isSome ∨ (log.scopes.methods c ⟨name, 0⟩).isSome := by
  simp only [fields_isSome, methods_isSome, Slot.clashes_field, and_or_left, exists_or]

theorem clashes_method_iff {signature : Signature} :
    (∃ p ∈ log.kept c, p.1.slot.Clashes (.method signature)) ↔
      (log.scopes.methods c signature).isSome ∨
        signature.arity = 0 ∧ (log.scopes.fields c signature.name).isSome := by
  simp only [fields_isSome, methods_isSome, Slot.clashes_method, and_or_left, exists_or,
    and_left_comm, exists_and_left]

theorem or_eq_update {κ α : Type} [DecidableEq κ] {b : κ → Option α} {key : κ} (a : α)
    (hfree : b key = none) :
    (fun k => (b k).or (if key = k then some a else none)) = Function.update b key (some a) := by
  funext k
  by_cases hk : key = k
  · subst hk
    simp [hfree]
  · rw [if_neg hk, Option.or_none, Function.update_of_ne fun heq => hk heq.symm]

theorem scopes_types_of_member (log : History) (he : e.type? = none) :
    (scopes (log ++ [e])).types = log.scopes.types := by
  simp [scopes, typeNamed?, types_concat, he]

theorem scopes_of_kept (htypes : (scopes (log ++ [e])).types = log.scopes.types)
    (hkept : ∀ c, kept (log ++ [e]) c = log.kept c) : scopes (log ++ [e]) = log.scopes := by
  refine Bindings.ext htypes ?_ ?_ <;> simp only [scopes, hkept]

theorem scopes_type (log : History) (d : ClassDecl) (id : ClassId) (ds : List Diagnostic) :
    scopes (log ++ [.type d id ds]) = log.scopes.bind (.type d id ds) := by
  have hkept : ∀ c, kept (log ++ [.type d id ds]) c = log.kept c := kept_of_member?_eq_none rfl
  have htypes (name : String) : (scopes (log ++ [.type d id ds])).types name =
      (log.scopes.types name).or (if d.name = name then some id else none) := by
    simp only [scopes, typeNamed?, types_concat, List.find?_append, Option.map_or]
    by_cases hname : d.name = name <;> simp [Entry.type?, hname]
  rw [Bindings.bind]
  split
  next hbound =>
    obtain ⟨c, hc⟩ := Option.isSome_iff_exists.mp hbound
    refine scopes_of_kept (funext fun name => ?_) hkept
    rw [htypes]
    by_cases hname : d.name = name
    · rw [← hname, hc, Option.some_or]
    · rw [if_neg hname, Option.or_none]
  next hfree =>
    have hnone := Option.not_isSome_iff_eq_none.mp hfree
    refine Bindings.ext ((funext htypes).trans (or_eq_update id hnone)) ?_ ?_ <;>
      simp only [scopes, hkept]

section Members

variable {κ α : Type} {g : κ → MemberInfo × MemberId → Option α}

theorem scope_of_free [DecidableEq κ] (he : e.member? = some (x, id)) {key : κ} {a : α}
    (hnew : ∀ k, g k (x, id) = if key = k then some a else none)
    (hfree : ¬ ∃ p ∈ log.kept x.owner, p.1.slot.Clashes x.slot)
    (hnone : (log.kept x.owner).findSome? (g key) = none) :
    (fun c k => (kept (log ++ [e]) c).findSome? (g k)) =
      Function.update (fun c k => (log.kept c).findSome? (g k)) x.owner
        (Function.update (fun k => (log.kept x.owner).findSome? (g k)) key (some a)) := by
  funext c
  by_cases hc : x.owner = c
  · subst hc
    rw [Function.update_self,
      ← or_eq_update (b := fun k => (log.kept x.owner).findSome? (g k)) a hnone]
    simp only [kept_of_free he hfree, List.findSome?_append, List.findSome?_singleton, hnew]
  · rw [Function.update_of_ne fun heq => hc heq.symm]
    simp only [kept_of_ne he hc]

theorem scope_of_foreign (he : e.member? = some (x, id)) (hnew : ∀ k, g k (x, id) = none) :
    (fun c k => (kept (log ++ [e]) c).findSome? (g k)) =
      fun c k => (log.kept c).findSome? (g k) := by
  funext c k
  by_cases hc : x.owner = c
  · subst hc
    by_cases hclash : ∃ p ∈ log.kept x.owner, p.1.slot.Clashes x.slot
    · rw [kept_of_clash he hclash]
    · rw [kept_of_free he hclash, List.findSome?_append, List.findSome?_singleton, hnew,
        Option.or_none]
  · rw [kept_of_ne he hc]

end Members

theorem scopes_field (log : History) (f : FieldInfo) (id : FieldId) (ds : List Diagnostic) :
    scopes (log ++ [.field f id ds]) = log.scopes.bind (.field f id ds) := by
  have htypes := log.scopes_types_of_member (e := .field f id ds) rfl
  have hmember : (Entry.field f id ds).member? = some (.field f, .field id) := rfl
  rw [Bindings.bind]
  split
  next hbound => exact scopes_of_kept htypes (kept_of_clash hmember (clashes_field_iff.mpr hbound))
  next hfree =>
    refine Bindings.ext htypes (scope_of_free hmember (fun name => ?_)
      (clashes_field_iff.not.mpr hfree) (Option.not_isSome_iff_eq_none.mp (not_or.mp hfree).1))
      (scope_of_foreign hmember fun _ => rfl)
    simp [fieldId?, MemberInfo.slot, MemberId.field?]

theorem scopes_method (log : History) (m : MethodInfo) (id : MethodId) (ds : List Diagnostic) :
    scopes (log ++ [.method m id ds]) = log.scopes.bind (.method m id ds) := by
  have htypes := log.scopes_types_of_member (e := .method m id ds) rfl
  have hmember : (Entry.method m id ds).member? = some (.method m, .method id) := rfl
  rw [Bindings.bind]
  split
  next hbound => exact scopes_of_kept htypes (kept_of_clash hmember (clashes_method_iff.mpr hbound))
  next hfree =>
    refine Bindings.ext htypes (scope_of_foreign hmember fun _ => rfl)
      (scope_of_free hmember (fun signature => ?_)
        (clashes_method_iff.not.mpr hfree) (Option.not_isSome_iff_eq_none.mp (not_or.mp hfree).1))
    simp [methodId?, MemberInfo.slot, MemberId.method?]

/-- Binding names call by call and looking for them among what is kept give the same. -/
theorem scopes_eq_foldl (log : History) : log.scopes = log.foldl Bindings.bind .initial := by
  -- Calls are added at the end of a history, so the induction takes them off there.
  induction log using List.reverseRecOn with
  | nil =>
    refine Bindings.ext (funext fun name => ?_) rfl rfl
    by_cases hname : "Any" = name
    · subst hname
      rfl
    · simp [scopes, typeNamed?, types, SymbolTable.rootDecl, Bindings.initial, hname,
        Function.update_of_ne fun heq => hname heq.symm]
  | append_singleton log e ih =>
    rw [List.foldl_append, ← ih]
    cases e with
    | type d id ds => exact scopes_type log d id ds
    | field f id ds => exact scopes_field log f id ds
    | method m id ds => exact scopes_method log m id ds

theorem extends_scopes (h : before <+: log) : before.scopes.Extends log.scopes where
  types := by
    intro name id hid
    obtain ⟨p, hp, rfl⟩ := Option.map_eq_some_iff.mp hid
    exact Option.map_eq_some_iff.mpr ⟨p, (types_mono h).find?_eq_some hp, rfl⟩
  fields := fun c _ _ hid => (kept_mono h c).findSome?_eq_some hid
  methods := fun c _ _ hid => (kept_mono h c).findSome?_eq_some hid

/-! ### Declarations that are accepted -/

theorem mem_kept_iff {after : History} (he : e.member? = some (x, id))
    (hnodup : ((members (before ++ e :: after)).map (·.2)).Nodup) :
    id ∈ (kept (before ++ e :: after) x.owner).map (·.2) ↔
      ¬ ∃ p ∈ before.kept x.owner, p.1.slot.Clashes x.slot := by
  have hlog : before ++ e :: after = (before ++ [e]) ++ after := by simp
  have hmembers : members (before ++ e :: after) =
      before.members ++ (x, id) :: members after := by
    rw [hlog, members, List.filterMap_append, ← members, members_concat, he]
    simp [members]
  constructor
  · rintro hmem ⟨p, hp, hclash⟩
    obtain ⟨q, hq, hid⟩ := List.mem_map.mp hmem
    -- Identifiers are different, so it is the declaration itself that is kept next to `p`.
    obtain rfl : q = (x, id) := by
      refine List.inj_on_of_nodup_map hnodup (mem_members_of_mem_kept hq).1 ?_ hid
      rw [hmembers]
      simp
    have hp' := (kept_mono (List.prefix_append before (e :: after)) _).subset hp
    obtain rfl := eq_of_clashes hp' hq hclash
    rw [hmembers, List.map_append, List.map_cons, List.nodup_middle, List.nodup_cons] at hnodup
    refine hnodup.1 (List.mem_append_left _ (List.mem_map_of_mem ?_))
    exact (mem_members_of_mem_kept hp).1
  · intro hfree
    refine List.mem_map.mpr ⟨(x, id), ?_, rfl⟩
    rw [hlog]
    refine (kept_mono (List.prefix_append (before ++ [e]) after) _).subset ?_
    rw [kept_of_free he hfree]
    simp

theorem typeNamed?_iff {after : History} {d : ClassDecl} {id : ClassId}
    (he : e.type? = some (d, id))
    (hnodup : ((types (before ++ e :: after)).map (·.2)).Nodup) :
    (typeNamed? (before ++ e :: after) d.name).map (·.2) = some id ↔
      before.typeNamed? d.name = none := by
  have htypes : types (before ++ e :: after) =
      before.types ++ (d, id) :: after.filterMap Entry.type? := by
    simp [types, he]
  have hfound : typeNamed? (before ++ e :: after) d.name =
      (before.typeNamed? d.name).or (some (d, id)) := by
    rw [typeNamed?, htypes, List.find?_append, List.find?_cons_of_pos (by simp)]
    rfl
  rw [hfound]
  cases hbefore : before.typeNamed? d.name with
  | none => simp
  | some p =>
    have hne : p.2 ≠ id := by
      intro heq
      rw [htypes, List.map_append, List.map_cons, List.nodup_middle, List.nodup_cons] at hnodup
      refine hnodup.1 (List.mem_append_left _ (List.mem_map.mpr ⟨p, ?_, heq⟩))
      exact List.mem_of_find?_eq_some hbefore
    simp [hne]

/-! ### Repeated names -/

theorem reportRepeated_eq (names before earlier : List Ident)
    (h : ∀ text : String, earlier.find? (fun e => e.text == text) =
      before.find? fun e => e.text == text) :
    SymbolTable.reportRepeated earlier names =
      (names.zipIdx before.length).filterMap fun p =>
        (((before ++ names).take p.2).find? fun e => e.text == p.1.text).map fun e =>
          .duplicate "parameter" p.1.text p.1.span (some e.span) := by
  induction names generalizing before earlier with
  | nil => rfl
  | cons name names ih =>
    have hnext := ih (before ++ [name])
    rw [List.append_assoc, List.singleton_append, List.length_append,
      List.length_singleton] at hnext
    rw [List.zipIdx_cons, List.filterMap_cons, List.take_left, SymbolTable.reportRepeated, h]
    cases hfound : before.find? fun e => e.text == name.text with
    | some e =>
      refine congrArg _ (hnext earlier fun text => ?_)
      rw [h, List.find?_append]
      by_cases htext : name.text = text
      · rw [← htext, hfound, Option.some_or]
      · simp [htext]
    | none =>
      refine hnext (earlier ++ [name]) fun text => ?_
      rw [List.find?_append, List.find?_append, h]

theorem checkParameters_eq (names : List Ident) :
    SymbolTable.checkParameters names = repeatedNames names :=
  reportRepeated_eq names [] [] fun _ => rfl

end History

end Mixin
