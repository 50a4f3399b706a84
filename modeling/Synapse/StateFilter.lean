import Synapse.Events

/-!
# State filters

A filter names, for each of some event types, the state keys to fetch or all of
them, and says whether the other types are fetched. It can be split for member
and other state, widened before the database is read, and turned into a clause
of the query.
-/

set_option autoImplicit false

namespace Synapse
open List Dict EventTypes Bool
open AList (ext mem_keys mem_lookup_iff)

/-- A `frozenset`, in the order in which it is iterated over. -/
structure FrozenSet where
  elements : List String
  nodup : elements.Nodup

def FrozenSet.empty : FrozenSet := ⟨[],nodup_nil⟩

def FrozenSet.add (s : FrozenSet) (x : String) : FrozenSet :=
  if h : x ∈ s.elements then s else ⟨x::s.elements,nodup_cons.mpr ⟨h,s.nodup⟩⟩

theorem FrozenSet.mem_add (s : FrozenSet) (x y : String) :
    y ∈ (s.add x).elements ↔ y = x ∨ y ∈ s.elements := by
  rw [add]
  split
  · next h =>
    constructor
    · exact .inr
    · rintro (rfl | hy)
      · exact h
      · exact hy
  · exact mem_cons

/-- A type is mapped to `none` if all its state keys are wanted, which does not
occur when the other types are fetched too. -/
structure StateFilter where
  types : Dict String (Option FrozenSet)
  includeOthers : Bool
  canonical : includeOthers = true → ∀ t, types.lookup t ≠ some none

/-- The condition of a query, where the clauses and the types are alternatives. -/
structure SqlClause where
  clauses : List (String × Option String)
  notIn : Option (List String)

def SqlClause.matchesClause (key : StateKey) (clause : String × Option String) : Bool :=
  clause.1 = key.1 && clause.2.all (fun stateKey => stateKey = key.2)

def SqlClause.matchesRow (clause : SqlClause) (key : StateKey) : Bool :=
  clause.clauses.any (matchesClause key) || clause.notIn.any (fun types => key.1 ∉ types)

namespace StateFilter

def make (types : Dict String (Option FrozenSet)) (includeOthers : Bool) : StateFilter where
  types := if includeOthers then Dict.filter types (fun _ keys => keys.isSome) else types
  includeOthers := includeOthers
  canonical := by
    intro hothers t ht
    rw [if_pos hothers,Dict.lookup_filter,Option.filter_eq_some_iff] at ht
    simp at ht

protected def all : StateFilter := make ∅ true

protected def none : StateFilter := make ∅ false

def allNonMember : StateFilter :=
  make (AList.insert EventTypes.member (some FrozenSet.empty) ∅) true

def addType (types : Dict String (Option FrozenSet)) (entry : String × Option String) :
    Dict String (Option FrozenSet) :=
  match types.lookup entry.1, entry.2 with
  | some none, _ => types
  | _, none => types.insert entry.1 none
  | some (some keys), some key => types.insert entry.1 (some (keys.add key))
  | none, some key => types.insert entry.1 (some (FrozenSet.empty.add key))

def fromTypes (types : List (String × Option String)) : StateFilter :=
  make (types.foldl addType ∅) false

variable (f : StateFilter)

def isFull : Bool := f.includeOthers && f.types.entries.isEmpty

/-- `__bool__` -/
def isTruthy : Bool := f.includeOthers || !f.types.entries.isEmpty

def hasWildcards : Bool := f.includeOthers || (Dict.values f.types).any Option.isNone

def concreteKeys (entry : Sigma fun _ : String => Option FrozenSet) : List StateKey :=
  match entry.2 with
  | some keys => keys.elements.map (fun stateKey => (entry.1,stateKey))
  | none => []

def concreteTypes : List StateKey := f.types.entries.flatMap concreteKeys

/-- Whether a state key is wanted, from what a filter has for its type. -/
def admits (includeOthers : Bool) (stateKey : String) : Option (Option FrozenSet) → Bool
  | some (some keys) => stateKey ∈ keys.elements
  | some none => true
  | none => includeOthers

def contains (key : StateKey) : Bool :=
  admits f.includeOthers key.2 (f.types.lookup key.1)

def keepItem {α : Type} (filtered : StateMap α) (item : Sigma fun _ : StateKey => α) : StateMap α :=
  match f.types.lookup item.1.1 with
  | some stateKeys =>
    if stateKeys.all (fun keys => item.1.2 ∈ keys.elements) then filtered.insert item.1 item.2
    else filtered
  | none => if f.includeOthers then filtered.insert item.1 item.2 else filtered

def filterState {α : Type} (state : StateMap α) : StateMap α :=
  if f.isFull then state else state.entries.foldl f.keepItem ∅

def memberFilter : StateFilter :=
  match f.types.lookup EventTypes.member with
  | some none => .all
  | some (some keys) => make (AList.insert EventTypes.member (some keys) ∅) false
  | none => if f.includeOthers then .all else .none

def nonMemberFilter : StateFilter :=
  make (Dict.filterKeys f.types (fun t => t ≠ EventTypes.member)) f.includeOthers

def getMemberSplit : StateFilter × StateFilter := (f.memberFilter,f.nonMemberFilter)

/-- Whether all the state keys of a type other than memberships are wanted. -/
def hasNonMemberWildcard : Bool :=
  f.includeOthers || f.types.entries.any (fun entry =>
    entry.1 ≠ EventTypes.member && entry.2.isNone)

def returnExpanded : StateFilter :=
  if f.isFull then f
  else if !f.hasWildcards then f
  else
    let getAllMembers := match f.types.lookup EventTypes.member with
      | some keys => keys.isNone
      | none => f.includeOthers
    if !f.hasNonMemberWildcard then f
    else if getAllMembers then .all
    else
      match f.types.lookup EventTypes.member with
      | some keys => make (AList.insert EventTypes.member keys ∅) true
      | none => allNonMember

def conditions (entry : Sigma fun _ : String => Option FrozenSet) : List (String × Option String) :=
  match entry.2 with
  | some keys => keys.elements.map (fun stateKey => (entry.1,some stateKey))
  | none => [(entry.1,none)]

def toTypes : List (String × Option String) := f.types.entries.flatMap conditions

/-- `none` for the empty string, which stands for no condition. -/
def makeSqlFilterClause : Option SqlClause :=
  if f.isFull then none
  else if !f.includeOthers && f.types.entries.isEmpty then some ⟨[],none⟩
  else if f.includeOthers then some ⟨f.toTypes,some f.types.keys⟩
  else if f.toTypes.isEmpty then none
  else some ⟨f.toTypes,none⟩

def maxEntriesReturned : Option ℕ :=
  if f.hasWildcards then none else some f.concreteTypes.length

section Contains

variable {f : StateFilter} {key : StateKey}

theorem isFull_iff : f.isFull = true ↔ f.includeOthers = true ∧ ∀ t, f.types.lookup t = none := by
  rw [isFull,and_eq_true,List.isEmpty_iff]
  apply and_congr_right
  intro _
  constructor
  · intro hnil t
    have he : f.types = ∅ := ext hnil
    simp [he]
  · intro hn
    by_contra hne
    obtain ⟨⟨t,ks⟩,hin⟩ := exists_mem_of_ne_nil _ hne
    have hs := mem_lookup_iff.mpr hin
    simp [hn t] at hs

theorem contains_of_isFull (h : f.isFull = true) (key : StateKey) : f.contains key = true := by
  obtain ⟨ho,hn⟩ := isFull_iff.mp h
  rw [contains,hn key.1]
  exact ho

theorem keepItem_eq {α : Type} (st : StateMap α) (e : Sigma fun _ : StateKey => α) :
    f.keepItem st e = if f.contains e.1 then st.insert e.1 e.2 else st := by
  rw [keepItem,contains]
  cases f.types.lookup e.1.1 with
  | none => rfl
  | some ks =>
    cases ks <;> rfl

theorem lookup_filterState {α : Type} (st : StateMap α) (key : StateKey) :
    (f.filterState st).lookup key = if f.contains key then st.lookup key else none := by
  rw [filterState]
  split
  · next hf => rw [if_pos (contains_of_isFull hf key)]
  · have hk : f.keepItem (α := α) = fun st e =>
        if f.contains e.1 then st.insert e.1 e.2 else st := funext₂ keepItem_eq
    have hl : st.entries.foldl f.keepItem ∅ = Dict.update ∅ (filterKeys st f.contains) := by
      rw [Dict.update,filterKeys,Dict.filter,foldl_filter,hk]
    rw [hl,lookup_update,lookup_filterKeys]
    simp

variable {tys : Dict String (Option FrozenSet)}

theorem lookup_make {inc : Bool} (t : String) :
    (make tys inc).types.lookup t =
      if inc then (tys.lookup t).filter Option.isSome else tys.lookup t := by
  rw [make]
  by_cases ho : inc = true
  · simp only [if_pos ho]
    rw [lookup_filter]
  · simp only [if_neg ho]

theorem contains_make {inc : Bool} :
    (make tys inc).contains key = admits inc key.2 (tys.lookup key.1) := by
  rw [contains,lookup_make]
  cases inc with
  | false => rfl
  | true =>
    cases tys.lookup key.1 with
    | none => rfl
    | some ks =>
      cases ks <;> rfl

theorem admits_addType (tys : Dict String (Option FrozenSet)) (e : String × Option String) :
    admits false key.2 ((addType tys e).lookup key.1) = true ↔
      (e = (key.1,none) ∨ e = (key.1,some key.2)) ∨
        admits false key.2 (tys.lookup key.1) = true := by
  obtain ⟨type,sk⟩ := e
  by_cases ht : key.1 = type
  · subst ht
    unfold addType
    cases hty : tys.lookup key.1 with
    | none =>
      cases sk with
      | none => simp [admits]
      | some s => simp [admits,FrozenSet.mem_add,FrozenSet.empty,eq_comm]
    | some ks =>
      cases ks with
      | none => simp [hty,admits]
      | some ks =>
        cases sk with
        | none => simp [admits]
        | some s =>
          simp only [AList.lookup_insert,admits,FrozenSet.mem_add,decide_eq_true_eq]
          simp [eq_comm]
  · have hs : (addType tys (type,sk)).lookup key.1 = tys.lookup key.1 := by
      unfold addType
      split
      · rfl
      all_goals exact AList.lookup_insert_ne ht
    simp [hs,Ne.symm ht]

theorem contains_fromTypes (tys : List (String × Option String)) :
    (fromTypes tys).contains key = true ↔ (key.1,none) ∈ tys ∨ (key.1,some key.2) ∈ tys := by
  have hf : ∀ d : Dict String (Option FrozenSet),
      admits false key.2 ((tys.foldl addType d).lookup key.1) = true ↔
        ((key.1,none) ∈ tys ∨ (key.1,some key.2) ∈ tys) ∨
          admits false key.2 (d.lookup key.1) = true := by
    induction tys with
    | nil => simp
    | cons e tys ih =>
      intro d
      rw [foldl_cons,ih,admits_addType]
      simp only [mem_cons]
      tauto
  rw [fromTypes,contains_make,hf]
  simp [admits]

theorem contains_all : StateFilter.all.contains key = true := by
  rfl

theorem contains_none : StateFilter.none.contains key = false := by
  rfl

theorem contains_member_only {ks : Option FrozenSet} {inc : Bool} :
    (make (AList.insert member ks ∅) inc).contains key =
      if key.1 = member then admits inc key.2 (some ks)
      else inc := by
  rw [contains_make,lookup_set]
  split <;> rfl

theorem memberFilter_contains (hm : key.1 = member) :
    f.memberFilter.contains key = f.contains key := by
  rw [contains.eq_def f,hm,memberFilter]
  cases hl : f.types.lookup member with
  | none =>
    dsimp only [admits]
    split
    · next ho => rw [contains_all,ho]
    · next ho => rw [contains_none,not_eq_true _ |>.mp ho]
  | some ks =>
    cases ks with
    | none => exact contains_all
    | some ks =>
      rw [contains_member_only,if_pos hm]
      rfl

theorem nonMemberFilter_contains (hm : key.1 ≠ member) :
    f.nonMemberFilter.contains key = f.contains key := by
  rw [nonMemberFilter,contains_make,lookup_filterKeys,if_pos (decide_eq_true hm),contains]

theorem returnExpanded_contains (h : f.contains key = true) :
    f.returnExpanded.contains key = true := by
  rw [returnExpanded]
  split
  · exact h
  split
  · exact h
  dsimp only
  split
  · exact h
  -- the members that are wanted, and all other state
  cases hl : f.types.lookup member with
  | none =>
    dsimp only
    split
    · exact contains_all
    · next ho =>
      rw [allNonMember,contains_member_only]
      split
      · next hm =>
        rw [contains,hm,hl] at h
        exact absurd h ho
      · rfl
  | some ks =>
    dsimp only
    split
    · exact contains_all
    · rw [contains_member_only]
      split
      · next hm =>
        rw [contains,hm,hl] at h
        cases ks with
        | none => rfl
        | some ks => exact h
      · rfl

theorem mem_concreteTypes : key ∈ f.concreteTypes ↔
    ∃ ks, f.types.lookup key.1 = some (some ks) ∧ key.2 ∈ ks.elements := by
  obtain ⟨t,sk⟩ := key
  rw [concreteTypes,mem_flatMap]
  constructor
  · rintro ⟨⟨t',ks⟩,he,hin⟩
    cases ks with
    | none => simp [concreteKeys] at hin
    | some ks =>
      obtain ⟨s,hs,heq⟩ := mem_map.mp hin
      obtain ⟨rfl,rfl⟩ := Prod.mk.inj heq
      exact ⟨ks,mem_lookup_iff.mpr he,hs⟩
  · rintro ⟨ks,hk,hin⟩
    exact ⟨⟨t,some ks⟩,mem_lookup_iff.mp hk,mem_map.mpr ⟨sk,hin,rfl⟩⟩

theorem contains_of_concrete (h : key ∈ f.concreteTypes) : f.contains key = true := by
  obtain ⟨ks,hk,hin⟩ := mem_concreteTypes.mp h
  simp [contains,hk,admits,hin]

theorem concrete_of_contains (hw : f.hasWildcards = false) (h : f.contains key = true) :
    key ∈ f.concreteTypes := by
  rw [hasWildcards,or_eq_false_iff] at hw
  rw [mem_concreteTypes]
  rw [contains] at h
  cases hl : f.types.lookup key.1 with
  | none => simp [hl,admits,hw.1] at h
  | some ks =>
    cases ks with
    | none =>
      have hin : none ∈ values f.types := (mem_values _ _).mpr ⟨key.1,hl⟩
      have ha := any_eq_false.mp hw.2 none hin
      simp at ha
    | some ks => exact ⟨ks,rfl,by simpa [hl,admits] using h⟩

end Contains

section Sql

variable {f : StateFilter} {key : StateKey}

def selects (clause : Option SqlClause) (key : StateKey) : Bool :=
  clause.all (fun clause => clause.matchesRow key)

theorem toTypes_any : f.toTypes.any (SqlClause.matchesClause key) =
    admits false key.2 (f.types.lookup key.1) := by
  rw [Bool.eq_iff_iff,any_eq_true]
  simp only [toTypes,mem_flatMap,SqlClause.matchesClause,Bool.and_eq_true,decide_eq_true_eq]
  constructor
  · rintro ⟨⟨t,s⟩,⟨⟨t',ks⟩,he,hin⟩,rfl,hs⟩
    have hl := mem_lookup_iff.mpr he
    cases ks with
    | none =>
      obtain ⟨rfl,rfl⟩ := Prod.mk.inj (mem_singleton.mp hin)
      rw [Option.mem_def.mp hl]
      rfl
    | some ks =>
      obtain ⟨s',hs',heq⟩ := mem_map.mp hin
      obtain ⟨rfl,rfl⟩ := Prod.mk.inj heq
      rw [Option.mem_def.mp hl]
      have hsa : s' = key.2 := by simpa using hs
      simpa [admits,← hsa] using hs'
  · intro ha
    cases hl : f.types.lookup key.1 with
    | none => simp [hl,admits] at ha
    | some ks =>
      have he := mem_lookup_iff.mp (Option.mem_def.mpr hl)
      cases ks with
      | none => exact ⟨(key.1,none),⟨_,he,by simp [conditions]⟩,rfl,rfl⟩
      | some ks =>
        have hin : key.2 ∈ ks.elements := by simpa [hl,admits] using ha
        exact ⟨(key.1,some key.2),⟨_,he,mem_map.mpr ⟨key.2,hin,rfl⟩⟩,rfl,by simp⟩

/-- A clause selects what the filter keeps. An empty one is also made for a
filter that has types but keeps nothing. -/
theorem makeSqlFilterClause_spec (f : StateFilter) :
    (∀ key, selects f.makeSqlFilterClause key = f.contains key) ∨
      f.makeSqlFilterClause = none ∧ f.hasWildcards = false ∧ f.concreteTypes = [] := by
  rw [makeSqlFilterClause]
  split
  · next hf => exact .inl (fun key => (contains_of_isFull hf key).symm)
  split
  · next he =>
    rw [and_eq_true,not_eq_true',List.isEmpty_iff] at he
    have hty : f.types = ∅ := ext he.2
    simp [selects,SqlClause.matchesRow,contains,hty,admits,he.1]
  split
  · next ho =>
    refine .inl (fun key => ?_)
    simp only [selects,Option.all_some,SqlClause.matchesRow,toTypes_any,contains]
    cases hl : f.types.lookup key.1 with
    | none =>
      have hnot := AList.lookup_eq_none.mp hl
      rw [AList.mem_keys] at hnot
      simp [admits,hnot,ho]
    | some ks =>
      have hin : key.1 ∈ f.types := mem_iff_lookup.mpr ⟨ks,hl⟩
      rw [AList.mem_keys] at hin
      cases ks with
      | none => simp [admits]
      | some ks => simp [admits,hin]
  · next ho =>
    have ho := not_eq_true _ |>.mp ho
    split
    · next hn =>
      rw [List.isEmpty_iff,toTypes,List.flatMap_eq_nil_iff] at hn
      refine .inr ⟨rfl,?_,?_⟩
      · rw [hasWildcards,ho,Bool.false_or,any_eq_false]
        intro ks hk
        obtain ⟨t,ht⟩ := (mem_values _ _).mp hk
        have hc := hn _ (mem_lookup_iff.mp (Option.mem_def.mpr ht))
        cases ks with
        | none => simp [conditions] at hc
        | some ks => simp
      · rw [concreteTypes,flatMap_eq_nil_iff]
        rintro ⟨t,ks⟩ hen
        have hc := hn _ hen
        cases ks with
        | none => rfl
        | some ks => simpa [conditions,concreteKeys] using hc
    · refine .inl (fun key => ?_)
      simp only [selects,Option.all_some,SqlClause.matchesRow,toTypes_any,Option.any_none,
        Bool.or_false,contains,ho]

theorem selects_of_contains (h : f.contains key = true) :
    selects f.makeSqlFilterClause key = true := by
  rcases makeSqlFilterClause_spec f with hs | ⟨hn,-,-⟩
  · rw [hs,h]
  · rw [hn]
    rfl

end Sql

section Asks

variable {f : StateFilter}

def Asks (f : StateFilter) : Prop := f.includeOthers = true ∨ f.toTypes ≠ []

theorem asks_iff : f.Asks ↔ f.includeOthers = true ∨
    ∃ t ks, f.types.lookup t = some ks ∧ ∀ s, ks = some s → s.elements ≠ [] := by
  apply or_congr_right
  rw [toTypes,ne_eq,flatMap_eq_nil_iff]
  push Not
  constructor
  · rintro ⟨⟨t,ks⟩,he,hne⟩
    refine ⟨t,ks,mem_lookup_iff.mpr he,?_⟩
    rintro s rfl hnil
    simp [conditions,hnil] at hne
  · rintro ⟨t,ks,hl,hne⟩
    refine ⟨⟨t,ks⟩,mem_lookup_iff.mp (Option.mem_def.mpr hl),?_⟩
    cases ks with
    | none => simp [conditions]
    | some s => simpa [conditions] using hne s rfl

theorem makeSqlFilterClause_ne_none (h : f.types.entries = [] ∨ f.Asks)
    (ho : f.includeOthers = false) : f.makeSqlFilterClause ≠ none := by
  rw [makeSqlFilterClause,isFull,ho]
  by_cases he : f.types.entries = []
  · simp [he]
  · have ht : f.toTypes ≠ [] := by
      rcases h.resolve_left he with ha | ht
      · simp [ho] at ha
      · exact ht
    simp [he,ht]

theorem selects_of_not_asks (he : f.types.entries ≠ []) (h : ¬ f.Asks) (key : StateKey) :
    selects f.makeSqlFilterClause key = true ∧ f.contains key = false := by
  obtain ⟨ho,ht⟩ : f.includeOthers = false ∧ f.toTypes = [] := by simpa [Asks] using h
  constructor
  · simp [makeSqlFilterClause,isFull,ho,ht,he,selects]
  · rw [contains,ho,← toTypes_any,ht]
    rfl

/-- The clause of a query, `__contains__` and `filter_state` have one meaning,
except for a filter that has types but asks for nothing. -/
theorem selects_iff_contains_iff_kept (f : StateFilter) (key : StateKey) :
    ((selects f.makeSqlFilterClause key = true ↔ f.contains key = true) ∧
      ∀ {α : Type} (state : StateMap α), key ∈ state →
        (f.contains key = true ↔ key ∈ f.filterState state)) ↔
    f.types.entries = [] ∨ f.Asks := by
  constructor
  · rintro ⟨hs,-⟩
    by_contra h
    push Not at h
    obtain ⟨hsel,hc⟩ := selects_of_not_asks h.1 h.2 key
    rw [hs.mp hsel] at hc
    cases hc
  · intro h
    refine ⟨?_,fun st hk => ?_⟩
    · rcases makeSqlFilterClause_spec f with hs | ⟨hn,hw,-⟩
      · rw [hs]
      · rw [hasWildcards,or_eq_false_iff] at hw
        exact absurd hn (makeSqlFilterClause_ne_none h hw.1)
    · obtain ⟨v,hv⟩ := mem_iff_lookup.mp hk
      rw [mem_iff_lookup,lookup_filterState,hv]
      cases f.contains key <;> simp

def wantsNoMembers : StateFilter :=
  make (AList.insert EventTypes.member (some FrozenSet.empty) ∅) false

theorem allNonMember_one_meaning :
    selects allNonMember.makeSqlFilterClause (EventTypes.create,"") = true :=
  ((selects_iff_contains_iff_kept allNonMember (create,"")).mpr (.inr (.inl rfl))).1.mpr (by decide)

/-- The clause is empty and every row satisfies it. -/
theorem wantsNoMembers_selects_all : ∃ key, selects wantsNoMembers.makeSqlFilterClause key = true ∧
    wantsNoMembers.contains key = false :=
  ⟨(member,""),by decide,by decide⟩

theorem asks_of_wanting (h : f.hasWildcards = true ∨ f.concreteTypes ≠ []) : f.Asks := by
  rw [asks_iff]
  rcases h with hw | hne
  · rw [hasWildcards,or_eq_true] at hw
    refine hw.imp_right ?_
    intro ha
    obtain ⟨ks,hin,hn⟩ := any_eq_true.mp ha
    obtain ⟨t,ht⟩ := (mem_values _ _).mp hin
    refine ⟨t,ks,ht,?_⟩
    rintro s rfl
    simp at hn
  · obtain ⟨key,hk⟩ := exists_mem_of_ne_nil _ hne
    obtain ⟨ks,hl,hin⟩ := mem_concreteTypes.mp hk
    refine .inr ⟨key.1,some ks,hl,?_⟩
    rintro s heq
    cases heq
    exact ne_nil_of_mem hin

theorem asks_of_memberFilter (h : f.memberFilter.Asks) : f.Asks := by
  rw [asks_iff] at h ⊢
  rw [memberFilter] at h
  cases hl : f.types.lookup member with
  | none =>
    rw [hl] at h
    dsimp only at h
    split at h
    · next ho => exact .inl ho
    · simp [StateFilter.none,make] at h
  | some ks =>
    rw [hl] at h
    refine .inr ⟨_,ks,hl,?_⟩
    rintro s rfl
    rcases h with ho | ⟨t,ks,ht,hne⟩
    · simp [make] at ho
    · rw [lookup_make,if_neg (by simp),lookup_set] at ht
      split at ht
      · exact hne s (Option.some.inj ht).symm
      · simp at ht

theorem asks_of_nonMemberFilter (h : f.nonMemberFilter.Asks) : f.Asks := by
  rw [asks_iff] at h ⊢
  rcases h with ho | ⟨t,ks,ht,hne⟩
  · exact .inl ho
  · cases ho : f.includeOthers with
    | true => exact .inl rfl
    | false =>
      rw [nonMemberFilter,lookup_make,if_neg (by simp [ho]),lookup_filterKeys] at ht
      split at ht
      · exact .inr ⟨t,ks,ht,hne⟩
      · simp at ht

theorem asks_returnExpanded (h : f.Asks) : f.returnExpanded.Asks := by
  rw [returnExpanded]
  split
  · exact h
  split
  · exact h
  dsimp only
  split
  · exact h
  have ha : StateFilter.all.Asks := .inl rfl
  cases f.types.lookup member with
  | none | some _ =>
    dsimp only
    split
    · exact ha
    · exact .inl rfl

end Asks

end StateFilter

end Synapse
