import Synapse.DeltaChains
import Synapse.StateFilter
import Synapse.Worklist

/-!
# State groups in the database

The state of a group is stored in full or as a delta on top of a group with a
lower number. It is read by one recursive query on Postgres, or by one query
for each group of a chain on SQLite, which stops once it has found as many
entries as the filter names. Either way the part of the state that the filter
keeps is read exactly.
-/

set_option autoImplicit false

namespace Synapse.StateGroups
open Python Worklist List Dict Option

inductive StoreError where
  | programmingError
  deriving DecidableEq

abbrev Result (α : Type) := Py StoreError α

/-- The tables `state_groups`, `state_group_edges` and `state_groups_state`,
and the number that the next group gets. -/
structure StateTables where
  stateGroups : Finset ℕ
  stateGroupEdges : Dict ℕ ℕ
  stateGroupsState : Dict ℕ (StateMap String)
  nextStateGroup : ℕ
  positive : 0 < nextStateGroup ∧ stateGroupsState.lookup 0 = none
  lower : ∀ g p, stateGroupEdges.lookup g = some p → 0 < p ∧ p < g
  fresh : ∀ g, nextStateGroup ≤ g → g ∉ stateGroups ∧ stateGroupEdges.lookup g = none ∧
    stateGroupsState.lookup g = none

theorem noEdges_lower (g p : ℕ) (h : (∅ : Dict ℕ ℕ).lookup g = some p) : 0 < p ∧ p < g := by
  simp at h

def StateTables.deltas (t : StateTables) : DeltaStore StateKey String :=
  ⟨t.stateGroupEdges,t.stateGroupsState,fun g p h => (t.lower g p h).2⟩

def StateTables.resolved (t : StateTables) (group : ℕ) : StateMap String := t.deltas.resolve group

/-- `state_filter or StateFilter.all()` -/
def orAll : Option StateFilter → StateFilter
  | some f => if f.isTruthy then f else .all
  | none => .all

def selectRows (t : StateTables) (selected : StateKey → Bool) (group : ℕ) : StateMap String :=
  filterKeys (DeltaStore.rowsOf t.stateGroupsState group) selected

def sgs (t : StateTables) (group : ℕ) : List ℕ := DeltaStore.chain t.stateGroupEdges (group+1) group

/-- `SELECT DISTINCT ON (type, state_key)` in descending order of the groups. -/
def selectDistinct (t : StateTables) (selected : StateKey → Bool) (groups : List ℕ) :
    StateMap String :=
  (groups.insertionSort (fun a b => b ≤ a)).foldl
    (fun state group => addMissing state (selectRows t selected group)) ∅

/-- One query for each of a few conditions, or one for all of them. The former
is malformed if there is no condition at all. -/
def selectPostgres (t : StateTables) (f : StateFilter) (group : ℕ) : Result (StateMap String) :=
  if !f.includeOthers && !f.isFull && f.toTypes.length < 10 then
    if f.toTypes = [] then .error (.raised .programmingError)
    else .ok (f.toTypes.foldl (fun results condition =>
      update results (selectDistinct t
        (fun key => SqlClause.matchesClause key condition) (sgs t group))) ∅)
  else .ok (selectDistinct t (StateFilter.selects f.makeSqlFilterClause) (sgs t group))

/-- The groups of a chain are read one after the other, until enough entries
have been found. The numbers go down, so that `fuel` need only exceed the first. -/
def walk (t : StateTables) (selected : StateKey → Bool) (maxEntries : Option ℕ) :
    ℕ → Option ℕ → StateMap String → StateMap String
  | 0, _, results => results
  | _, none, results => results
  | _, some 0, results => results
  | fuel+1, some (group+1), results =>
    let results := addMissing results (selectRows t selected (group+1))
    if maxEntries = some results.keys.length then results
    else walk t selected maxEntries fuel (t.stateGroupEdges.lookup (group+1)) results

def selectSqlite (t : StateTables) (f : StateFilter) (group : ℕ) : StateMap String :=
  walk t (StateFilter.selects f.makeSqlFilterClause) f.maxEntriesReturned (group+1) (some group) ∅

def selectState (engine : Engine) (t : StateTables) (f : StateFilter) (group : ℕ) :
    Result (StateMap String) :=
  match engine with
  | .postgres => selectPostgres t f group
  | .sqlite => .ok (selectSqlite t f group)

def getStateGroupsFromGroupsTxn (engine : Engine) (t : StateTables) (groups : List ℕ)
    (filter : Option StateFilter) : Result (Dict ℕ (StateMap String)) :=
  groups.foldlM (fun results group => do
    let state ← selectState engine t (orAll filter) group
    .ok (results.insert group state)) ∅

def getStateGroupsFromGroups (engine : Engine) (t : StateTables) (groups : List ℕ)
    (filter : StateFilter) : Result (Dict ℕ (StateMap String)) :=
  (batchIter 100 groups).foldlM (fun results chunk => do
    let found ← getStateGroupsFromGroupsTxn engine t chunk (some filter)
    .ok (update results found)) ∅

section Exact

variable {t : StateTables} {f : StateFilter} {group : ℕ}

/-- A part of the state of a group that has all that a filter keeps. -/
structure Covers (t : StateTables) (f : StateFilter) (group : ℕ) (state : StateMap String) :
    Prop where
  sound : ∀ key v, state.lookup key = some v → (t.resolved group).lookup key = some v
  exact : ∀ key, f.contains key = true → state.lookup key = (t.resolved group).lookup key

theorem lookup_selectRows (selected : StateKey → Bool) (key : StateKey) :
    (selectRows t selected group).lookup key =
      if selected key then (DeltaStore.rowsOf t.stateGroupsState group).lookup key else none :=
  lookup_filterKeys _ _ _

theorem lookup_foldl_selectRows (selected : StateKey → Bool) (gs : List ℕ) (st : StateMap String)
    (key : StateKey) :
    (gs.foldl (fun st group => addMissing st (selectRows t selected group))
      st).lookup key = (st.lookup key).or (if selected key then
        gs.findSome? (fun g => (DeltaStore.rowsOf t.stateGroupsState g).lookup key)
        else none) := by
  induction gs generalizing st with
  | nil => simp
  | cons g gs ih =>
    rw [foldl_cons,ih,lookup_addMissing,lookup_selectRows,findSome?_cons,Option.or_assoc]
    split
    · cases (DeltaStore.rowsOf t.stateGroupsState g).lookup key <;> rfl
    · rfl

theorem lookup_selectDistinct (selected : StateKey → Bool) (key : StateKey) :
    (selectDistinct t selected (sgs t group)).lookup key =
      if selected key then (t.resolved group).lookup key else none := by
  have hsgs : sgs t group = t.deltas.ancestors group := rfl
  have hs : (sgs t group).insertionSort (fun a b => b ≤ a) = sgs t group := by
    apply List.Pairwise.insertionSort_eq
    exact (DeltaStore.ancestors_descending (s := t.deltas) group).1.imp (fun h => le_of_lt h)
  rw [selectDistinct,hs,lookup_foldl_selectRows,StateTables.resolved,DeltaStore.lookup_resolve,hsgs]
  simp [StateTables.deltas]

theorem lookup_selectConditions (conditions : List (String × Option String)) (rs : StateMap String)
    (key : StateKey) (hr : ∀ v, rs.lookup key = some v → (t.resolved group).lookup key = some v) :
    (conditions.foldl (fun rs condition => update rs (selectDistinct t
        (fun key => SqlClause.matchesClause key condition) (sgs t group))) rs).lookup key =
      if conditions.any (SqlClause.matchesClause key) then (t.resolved group).lookup key
      else rs.lookup key := by
  induction conditions generalizing rs with
  | nil => simp
  | cons condition conditions ih =>
    have hs : (update rs (selectDistinct t
        (fun key => SqlClause.matchesClause key condition) (sgs t group))).lookup key =
        if SqlClause.matchesClause key condition then (t.resolved group).lookup key
        else rs.lookup key := by
      rw [lookup_update,lookup_selectDistinct]
      split
      · cases hst : (t.resolved group).lookup key with
        | none =>
          cases hl : rs.lookup key with
          | none => rfl
          | some v => simp [hr v hl] at hst
        | some v => rfl
      · rfl
    rw [foldl_cons,ih]
    · rw [hs,any_cons]
      cases SqlClause.matchesClause key condition with
      | false => rfl
      | true => simp
    · intro v hv
      rw [hs] at hv
      split at hv
      · exact hv
      · exact hr v hv

theorem selectPostgres_covers (h : f.Asks) :
    ∃ st, selectPostgres t f group = .ok st ∧ Covers t f group st := by
  rw [selectPostgres]
  split
  · next hf =>
    rw [Bool.and_eq_true,Bool.and_eq_true,Bool.not_eq_true'] at hf
    have ho := hf.1.1
    rw [if_neg (h.resolve_left (by simp [ho]))]
    refine ⟨_,rfl,?_,?_⟩
    · intro key v hv
      rw [lookup_selectConditions _ _ _ (by simp)] at hv
      split at hv
      · exact hv
      · simp at hv
    · intro key hk
      rw [lookup_selectConditions _ _ _ (by simp),StateFilter.toTypes_any]
      rw [StateFilter.contains,ho] at hk
      rw [if_pos hk]
  · refine ⟨_,rfl,?_,?_⟩
    · intro key v hv
      rw [lookup_selectDistinct] at hv
      split at hv
      · exact hv
      · simp at hv
    · intro key hk
      rw [lookup_selectDistinct,if_pos (StateFilter.selects_of_contains hk)]

def restOf (t : StateTables) : Option ℕ → StateMap String
  | some group => t.resolved group
  | none => ∅

theorem lookup_restOf_succ (key : StateKey) : (restOf t (some (group+1))).lookup key =
    ((DeltaStore.rowsOf t.stateGroupsState (group+1)).lookup key).or
      ((restOf t (t.stateGroupEdges.lookup (group+1))).lookup key) := by
  rw [restOf,StateTables.resolved]
  cases hp : t.stateGroupEdges.lookup (group+1) with
  | none =>
    rw [DeltaStore.resolve_of_none (s := t.deltas) hp,restOf]
    simp [StateTables.deltas]
  | some p =>
    rw [DeltaStore.resolve_of_some (s := t.deltas) hp,lookup_update]
    rfl

theorem restOf_zero (key : StateKey) : (restOf t (some 0)).lookup key = none := by
  have hp : t.deltas.prev.lookup 0 = none := by
    cases hl : t.deltas.prev.lookup 0 with
    | none => rfl
    | some p => exact absurd (t.lower 0 p hl).2 (Nat.not_lt_zero p)
  rw [restOf,StateTables.resolved,DeltaStore.resolve_of_none hp]
  change ((t.stateGroupsState.lookup 0).getD ∅).lookup key = none
  rw [t.positive.2]
  simp

theorem covers_of_enough {st : StateMap String} (hs : ∀ key v, st.lookup key = some v →
      StateFilter.selects f.makeSqlFilterClause key = true ∧ (t.resolved group).lookup key = some v)
    (he : f.maxEntriesReturned = some st.keys.length) : Covers t f group st := by
  refine ⟨fun key v hv => (hs key v hv).2,?_⟩
  intro key hk
  rw [StateFilter.maxEntriesReturned] at he
  split at he
  · simp at he
  · next hw =>
    have hw := Bool.not_eq_true _ |>.mp hw
    have hc := StateFilter.concrete_of_contains hw hk
    rcases StateFilter.makeSqlFilterClause_spec f with hsa | ⟨-,-,hn⟩
    · have hsub : st.keys ⊆ f.concreteTypes := by
        intro l hl
        obtain ⟨v,hv⟩ := mem_iff_lookup.mp (AList.mem_keys.mpr hl)
        apply StateFilter.concrete_of_contains hw
        rw [← hsa]
        exact (hs l v hv).1
      have hp := (subperm_of_subset st.keys_nodup hsub).perm_of_length_le (le_of_eq (some.inj he))
      have hin : key ∈ st := AList.mem_keys.mpr (hp.mem_iff.mpr hc)
      obtain ⟨v,hv⟩ := mem_iff_lookup.mp hin
      rw [hv,(hs key v hv).2]
    · simp [hn] at hc

theorem walk_covers (fuel : ℕ) (next : Option ℕ) (rs : StateMap String)
    (hf : ∀ g, next = some g → g < fuel)
    (hs : ∀ key, StateFilter.selects f.makeSqlFilterClause key = true →
      (t.resolved group).lookup key = (rs.lookup key).or ((restOf t next).lookup key))
    (hr : ∀ key v, rs.lookup key = some v → StateFilter.selects f.makeSqlFilterClause key = true ∧
        (t.resolved group).lookup key = some v) :
    Covers t f group
      (walk t (StateFilter.selects f.makeSqlFilterClause) f.maxEntriesReturned fuel next rs) := by
  have hend : (∀ key, (restOf t next).lookup key = none) → Covers t f group rs := by
    intro hre
    refine ⟨fun key v hv => (hr key v hv).2,?_⟩
    intro key hk
    rw [hs key (StateFilter.selects_of_contains hk),hre,or_none]
  induction fuel generalizing next rs with
  | zero =>
    cases next with
    | none => exact hend (by simp [restOf])
    | some g => exact absurd (hf g rfl) (Nat.not_lt_zero g)
  | succ fuel ih =>
    match next with
    | none => exact hend (by simp [restOf])
    | some 0 => exact hend restOf_zero
    | some (g+1) =>
      rw [walk]
      have hl : ∀ key, (addMissing rs (selectRows t
          (StateFilter.selects f.makeSqlFilterClause) (g+1))).lookup key =
          (rs.lookup key).or (if StateFilter.selects f.makeSqlFilterClause key then
            (DeltaStore.rowsOf t.stateGroupsState (g+1)).lookup key else none) := by
        intro key
        rw [lookup_addMissing,lookup_selectRows]
      have hr' : ∀ key v, (addMissing rs (selectRows t
          (StateFilter.selects f.makeSqlFilterClause) (g+1))).lookup key = some v →
          StateFilter.selects f.makeSqlFilterClause key = true ∧
            (t.resolved group).lookup key = some v := by
        intro key v hv
        rw [hl] at hv
        cases ho : rs.lookup key with
        | some w =>
          rw [ho] at hv
          obtain rfl := some.inj hv
          exact hr key w ho
        | none =>
          rw [ho,none_or] at hv
          split at hv
          · next hse =>
            refine ⟨hse,?_⟩
            rw [hs key hse,ho,lookup_restOf_succ,hv]
            rfl
          · simp at hv
      have hs' : ∀ key, StateFilter.selects f.makeSqlFilterClause key = true →
          (t.resolved group).lookup key = ((addMissing rs (selectRows t
            (StateFilter.selects f.makeSqlFilterClause) (g+1))).lookup key).or
              ((restOf t (t.stateGroupEdges.lookup (g+1))).lookup key) := by
        intro key hse
        rw [hs key hse,lookup_restOf_succ,hl,if_pos hse,Option.or_assoc]
      split
      · next he => exact covers_of_enough hr' he
      · apply ih _ _ _ hs' hr'
        · intro hre
          refine ⟨fun key v hv => (hr' key v hv).2,?_⟩
          intro key hk
          rw [hs' key (StateFilter.selects_of_contains hk),hre,or_none]
        · intro p hp
          have hlo := t.lower _ p hp
          have hb := hf _ rfl
          omega

theorem selectState_covers (eng : Engine) (group : ℕ) (h : f.Asks) :
    ∃ st, selectState eng t f group = .ok st ∧ Covers t f group st := by
  cases eng with
  | postgres => exact selectPostgres_covers h
  | sqlite =>
    refine ⟨_,rfl,walk_covers _ _ _ (fun g hg => ?_) (fun key _ => ?_) (by simp)⟩
    · cases hg
      exact Nat.lt_succ_self group
    · simp [restOf]

theorem orAll_of_truthy (h : f.isTruthy = true) : orAll (some f) = f := by
  rw [orAll,if_pos h]

theorem isTruthy_of_conditions (h : f.Asks) : f.isTruthy = true := by
  rw [StateFilter.isTruthy,Bool.or_eq_true]
  rcases h with ho | hne
  · exact .inl ho
  · refine .inr ?_
    by_contra he
    apply hne
    rw [Bool.not_eq_true',Bool.not_eq_false,List.isEmpty_iff] at he
    rw [StateFilter.toTypes,he]
    rfl

theorem foldlM_collects {A : Type} {P : ℕ → StateMap String → Prop} (groupsOf : A → List ℕ)
    (add : Dict ℕ (StateMap String) → A → Result (Dict ℕ (StateMap String)))
    (hadd : ∀ rs it, All P rs → ∃ rs', add rs it = .ok rs' ∧
      (∀ g, g ∈ rs' ↔ g ∈ groupsOf it ∨ g ∈ rs) ∧ All P rs') (its : List A) :
    ∃ rs, its.foldlM add ∅ = .ok rs ∧ (∀ g, g ∈ rs ↔ ∃ it ∈ its, g ∈ groupsOf it) ∧ All P rs := by
  induction its using reverseRecOn with
  | nil => exact ⟨∅,rfl,by simp,all_empty P⟩
  | append_singleton its it ih =>
    obtain ⟨rs,hr,hm,hall⟩ := ih
    obtain ⟨rs',ha,hm',ha'⟩ := hadd rs it hall
    refine ⟨rs',?_,fun g => ?_,ha'⟩
    · rw [foldlM_append,hr,ok_bind,foldlM_cons,ha]
      rfl
    · simp [hm',hm,or_comm]

theorem getStateGroupsFromGroupsTxn_covers (eng : Engine) (h : f.Asks) (gs : List ℕ) :
    ∃ rs, getStateGroupsFromGroupsTxn eng t gs (some f) = .ok rs ∧ (∀ g, g ∈ rs ↔ g ∈ gs) ∧
      ∀ g st, rs.lookup g = some st → Covers t f g st := by
  obtain ⟨rs,hr,hm,ha⟩ := foldlM_collects (P := Covers t f) (fun g => [g])
    (fun rs group => do
      let st ← selectState eng t (orAll (some f)) group
      .ok (rs.insert group st)) (fun rs g ha => by
    obtain ⟨st,hs,hc⟩ := selectState_covers (t := t) eng g h
    refine ⟨rs.insert g st,?_,?_,ha.set hc⟩
    · rw [orAll_of_truthy (isTruthy_of_conditions h),hs,ok_bind]
    · simp) gs
  exact ⟨rs,hr,by simpa using hm,ha⟩

theorem getStateGroupsFromGroups_covers (eng : Engine) (h : f.Asks) (gs : List ℕ) :
    ∃ rs, getStateGroupsFromGroups eng t gs f = .ok rs ∧ (∀ g, g ∈ rs ↔ g ∈ gs) ∧
      ∀ g st, rs.lookup g = some st → Covers t f g st := by
  obtain ⟨rs,hr,hm,ha⟩ := foldlM_collects (P := Covers t f) id
    (fun rs chunk => do
      let fd ← getStateGroupsFromGroupsTxn eng t chunk (some f)
      .ok (update rs fd)) (fun rs chunk ha => by
    obtain ⟨fd,hf,hm,hc⟩ := getStateGroupsFromGroupsTxn_covers (t := t) eng h chunk
    refine ⟨update rs fd,?_,?_,ha.update hc⟩
    · rw [hf,ok_bind]
    · simp [mem_update,hm]) (batchIter 100 gs)
  have hs : 0 < 100 := by norm_num
  exact ⟨rs,hr,fun g => (hm g).trans (mem_batchIter hs).symm,ha⟩

end Exact

end Synapse.StateGroups
