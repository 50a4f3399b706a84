import Synapse.DictionaryCache
import Synapse.Iteration
import Synapse.StateGroups

/-!
# State groups through the caches

One cache holds the member state of groups and another the rest. A call looks
into both and reads from the database the groups for which some of what it
wants is missing, with a wider filter. Between the two parts other calls may
run, entries be evicted and new groups be put into the caches. What is wanted
is still read exactly, except that the filter for no state is taken for none
at all.
-/

set_option autoImplicit false

namespace Synapse.StateGroups
open Python List Dict Option AList

abbrev GroupCache := DictionaryCache ℕ StateKey String

structure Caches where
  stateGroupCache : GroupCache
  stateGroupMembersCache : GroupCache

def isMember (key : StateKey) : Bool := key.1 = EventTypes.member

def dictKeys (f : StateFilter) : Option (List StateKey) :=
  if f.hasWildcards then none else some f.concreteTypes

/-- What a filter keeps of an entry, and whether it is all that is wanted. -/
def fromEntry (f : StateFilter) (entry : DictionaryEntry StateKey String) :
    StateMap String × Bool :=
  if entry.full || f.isFull then (f.filterState entry.value,entry.full)
  else
    let missingTypes := f.hasWildcards ||
      f.concreteTypes.any (fun key => key ∉ entry.value ∧ key ∉ entry.knownAbsent)
    (f.filterState entry.value,!missingTypes)

def getStateForGroupUsingCache (cache : GroupCache) (group : ℕ) (f : StateFilter) :
    (StateMap String × Bool) × GroupCache :=
  let (entry,cache) := cache.get group (dictKeys f)
  (fromEntry f entry,cache)

structure FromCache where
  results : Dict ℕ (StateMap String)
  incomplete : Finset ℕ
  cache : GroupCache

def lookInCache (f : StateFilter) (found : FromCache) (group : ℕ) : FromCache :=
  let ((state,gotAll),cache) := getStateForGroupUsingCache found.cache group f
  ⟨found.results.insert group state,
    if gotAll then found.incomplete else insert group found.incomplete,cache⟩

def getStateForGroupsUsingCache (order : Iteration ℕ) (groups : List ℕ) (cache : GroupCache)
    (f : StateFilter) : FromCache :=
  (order.list groups.toFinset).foldl (lookInCache f) ⟨∅,∅,cache⟩

/-- A call of `_get_state_for_groups` that waits for the database. -/
structure Waiting where
  groups : List ℕ
  asked : Option StateFilter
  filter : StateFilter
  state : Dict ℕ (StateMap String)
  incomplete : Finset ℕ
  cacheSequenceMembers : ℕ
  cacheSequenceNonMembers : ℕ

inductive Started where
  | returned (state : Dict ℕ (StateMap String))
  | waiting (call : Waiting)

def mergeMembers (members : Dict ℕ (StateMap String)) (state : Dict ℕ (StateMap String))
    (group : ℕ) : Dict ℕ (StateMap String) :=
  state.insert group
    (update ((state.lookup group).getD ∅) ((members.lookup group).getD ∅))

def startGet (order : Iteration ℕ) (caches : Caches) (groups : List ℕ)
    (asked : Option StateFilter) : Started × Caches :=
  let filter := orAll asked
  let (memberFilter,nonMemberFilter) := filter.getMemberSplit
  let nonMembers := getStateForGroupsUsingCache order groups caches.stateGroupCache nonMemberFilter
  let members := getStateForGroupsUsingCache order groups caches.stateGroupMembersCache memberFilter
  let caches : Caches := ⟨nonMembers.cache,members.cache⟩
  let state := groups.foldl (mergeMembers members.results) nonMembers.results
  let incomplete := members.incomplete ∪ nonMembers.incomplete
  if incomplete = ∅ then (.returned state,caches)
  else (.waiting ⟨groups,asked,filter,state,incomplete,caches.stateGroupMembersCache.sequence,
    caches.stateGroupCache.sequence⟩,caches)

def fetchedTypes (f : StateFilter) : Option (List StateKey) :=
  if f.isFull then none else some f.concreteTypes

def insertGroup (f : StateFilter) (sequenceMembers sequenceNonMembers : ℕ) (caches : Caches)
    (item : Sigma fun _ : ℕ => StateMap String) : Caches where
  stateGroupMembersCache := caches.stateGroupMembersCache.update sequenceMembers item.1
    (filterKeys item.2 isMember) (fetchedTypes f.getMemberSplit.1)
  stateGroupCache := caches.stateGroupCache.update sequenceNonMembers item.1
    (filterKeys item.2 (fun key => !isMember key)) (fetchedTypes f.getMemberSplit.2)

def insertIntoCache (groupToStateDict : Dict ℕ (StateMap String)) (f : StateFilter)
    (sequenceMembers sequenceNonMembers : ℕ) (caches : Caches) : Caches :=
  groupToStateDict.entries.foldl (insertGroup f sequenceMembers sequenceNonMembers) caches

def finishGet (engine : Engine) (order : Iteration ℕ) (t : StateTables) (caches : Caches)
    (call : Waiting) : Result (Dict ℕ (StateMap String) × Caches) := do
  let dbStateFilter := call.filter.returnExpanded
  let groupToStateDict ← getStateGroupsFromGroups engine t (order.list call.incomplete)
    dbStateFilter
  let caches := insertIntoCache groupToStateDict dbStateFilter call.cacheSequenceMembers
    call.cacheSequenceNonMembers caches
  let state := groupToStateDict.entries.foldl
    (fun state item => state.insert item.1 (call.filter.filterState item.2)) call.state
  .ok (state,caches)

/-- A group that has been stored in full is put into the caches. -/
def prefill (caches : Caches) (group : ℕ) (currentStateIds : StateMap String) : Caches where
  stateGroupMembersCache := caches.stateGroupMembersCache.update
    caches.stateGroupMembersCache.sequence group (filterKeys currentStateIds isMember) none
  stateGroupCache := caches.stateGroupCache.update caches.stateGroupCache.sequence group
    (filterKeys currentStateIds (fun key => !isMember key)) none

structure Process where
  caches : Caches
  waiting : List Waiting

/-- The processes that can be reached while the tables stay as they are. -/
inductive Reachable (engine : Engine) (t : StateTables) : Process → Prop
  | start (maxEntries maxMemberEntries : ℕ) :
    Reachable engine t
      ⟨⟨DictionaryCache.empty maxEntries,DictionaryCache.empty maxMemberEntries⟩,[]⟩
  | returned {p : Process} (h : Reachable engine t p) (order : Iteration ℕ) (groups : List ℕ)
      (asked : Option StateFilter) {state : Dict ℕ (StateMap String)} {caches : Caches}
      (call : startGet order p.caches groups asked = (.returned state,caches)) :
    Reachable engine t { p with caches := caches }
  | waits {p : Process} (h : Reachable engine t p) (order : Iteration ℕ) (groups : List ℕ)
      (asked : Option StateFilter) {call : Waiting} {caches : Caches}
      (started : startGet order p.caches groups asked = (.waiting call,caches)) :
    Reachable engine t ⟨caches,p.waiting ++ [call]⟩
  | finishes {p : Process} (h : Reachable engine t p) (order : Iteration ℕ)
      (i : Fin p.waiting.length)
      {state : Dict ℕ (StateMap String)} {caches : Caches}
      (finished : finishGet engine order t p.caches (p.waiting.get i) = .ok (state,caches)) :
    Reachable engine t ⟨caches,p.waiting.eraseIdx i⟩
  | evicts {p : Process} (h : Reachable engine t p) {caches : Caches}
      (nonMembers : p.caches.stateGroupCache.cache.Evicts caches.stateGroupCache.cache)
      (members : p.caches.stateGroupMembersCache.cache.Evicts caches.stateGroupMembersCache.cache) :
    Reachable engine t { p with caches := caches }
  | prefills {p : Process} (h : Reachable engine t p) (group : ℕ)
      (full : t.stateGroupEdges.lookup group = none) :
    Reachable engine t { p with
      caches := prefill p.caches group (DeltaStore.rowsOf t.stateGroupsState group) }

def keeps : Option StateFilter → StateKey → Bool
  | some f, key => f.contains key
  | none, _ => true

/-- The result has the state of each group, restricted by the filter. -/
def ExactFor (t : StateTables) (groups : List ℕ) (asked : Option StateFilter)
    (result : Dict ℕ (StateMap String)) : Prop :=
  ∀ g ∈ groups, ∃ state, result.lookup g = some state ∧
    ∀ key, state.lookup key = if keeps asked key then (t.resolved g).lookup key else none

section Caches

variable {t : StateTables} {f : StateFilter}

def memberState (t : StateTables) (group : ℕ) : StateMap String :=
  filterKeys (t.resolved group) isMember

def nonMemberState (t : StateTables) (group : ℕ) : StateMap String :=
  filterKeys (t.resolved group) (fun key => !isMember key)

structure CachesExact (t : StateTables) (caches : Caches) : Prop where
  nonMembers : DictionaryCache.Exact (nonMemberState t) caches.stateGroupCache.cache
  members : DictionaryCache.Exact (memberState t) caches.stateGroupMembersCache.cache

variable {truth : ℕ → StateMap String} {cache : GroupCache}

theorem fromEntry_exact {g : ℕ} {e : DictionaryEntry StateKey String}
    (h : DictionaryCache.Reads truth g (dictKeys f) e) :
    ((fromEntry f e).2 = true → ∀ key, (fromEntry f e).1.lookup key =
      if f.contains key then (truth g).lookup key else none) ∧
      ((fromEntry f e).2 = false → f.Asks) := by
  rw [fromEntry]
  split
  · next hf =>
    constructor
    · intro hg key
      rw [StateFilter.lookup_filterState]
      split
      · next hk =>
        apply h.full hg key
        intro ask ha
        rw [dictKeys] at ha
        split at ha
        · simp at ha
        · next hw =>
          cases ha
          exact StateFilter.concrete_of_contains (Bool.not_eq_true _ |>.mp hw) hk
      · rfl
    · intro hg
      dsimp only at hg
      rw [hg] at hf
      exact .inl (StateFilter.isFull_iff.mp hf).1
  · constructor
    · intro hg key
      rw [Bool.not_eq_true',Bool.or_eq_false_iff] at hg
      rw [StateFilter.lookup_filterState]
      split
      · next hk =>
        have hc := StateFilter.concrete_of_contains hg.1 hk
        have hfo := any_eq_false.mp hg.2 key hc
        rw [decide_eq_true_eq,not_and_or,not_not,not_not] at hfo
        cases hl : e.value.lookup key with
        | some v => exact (h.values key v hl).symm
        | none =>
          have hab := hfo.resolve_left (lookup_eq_none.mp hl)
          exact (h.absent key hab).symm
      · rfl
    · intro hg
      rw [Bool.not_eq_false',Bool.or_eq_true] at hg
      apply StateFilter.asks_of_wanting
      refine hg.imp_right ?_
      intro hany
      obtain ⟨key,hk,-⟩ := any_eq_true.mp hany
      exact ne_nil_of_mem hk

structure Looked (truth : ℕ → StateMap String) (f : StateFilter) (seen : List ℕ)
    (found : FromCache) : Prop where
  cache : DictionaryCache.Exact truth found.cache.cache
  mem : ∀ g, g ∈ found.results ↔ g ∈ seen
  exact : ∀ g state, found.results.lookup g = some state → g ∉ found.incomplete →
    ∀ key, state.lookup key = if f.contains key then (truth g).lookup key else none
  asks : ∀ g ∈ found.incomplete, g ∈ seen ∧ f.Asks

theorem Looked.lookInCache {seen : List ℕ} {fd : FromCache} (h : Looked truth f seen fd) (gp : ℕ) :
    Looked truth f (seen ++ [gp]) (lookInCache f fd gp) := by
  obtain ⟨he,hr⟩ := h.cache.get gp (dictKeys f)
  obtain ⟨hgot,ha⟩ := fromEntry_exact hr
  rw [StateGroups.lookInCache,getStateForGroupUsingCache]
  refine ⟨he,?_,?_,?_⟩
  · intro g
    rw [Dict.mem_set,h.mem,mem_append,mem_singleton,or_comm]
  · intro g st hs hc key
    dsimp only at hs hc
    rw [lookup_set] at hs
    by_cases hg : g = gp
    · subst hg
      rw [if_pos rfl] at hs
      cases hs
      apply hgot
      by_contra hn
      rw [if_neg hn] at hc
      exact hc (Finset.mem_insert_self _ _)
    · rw [if_neg hg] at hs
      apply h.exact g st hs
      intro hin
      split at hc
      · exact hc hin
      · exact hc (Finset.mem_insert_of_mem hin)
  · intro g hg
    dsimp only at hg
    have ho : g ∈ fd.incomplete → g ∈ seen ++ [gp] ∧ f.Asks := fun hin =>
      ⟨mem_append_left _ (h.asks g hin).1,(h.asks g hin).2⟩
    split at hg
    · exact ho hg
    · next hn =>
      rcases Finset.mem_insert.mp hg with rfl | hin
      · exact ⟨by simp,ha (Bool.not_eq_true _ |>.mp hn)⟩
      · exact ho hin

theorem Looked.lookInCaches {seen : List ℕ} {fd : FromCache} (h : Looked truth f seen fd)
    (gs : List ℕ) : Looked truth f (seen ++ gs) (gs.foldl (StateGroups.lookInCache f) fd) := by
  induction gs generalizing seen fd with
  | nil => simpa using h
  | cons g gs ih =>
    have hs := ih (h.lookInCache g)
    rw [append_assoc] at hs
    exact hs

theorem getStateForGroupsUsingCache_looked (h : DictionaryCache.Exact truth cache.cache)
    (ord : Iteration ℕ) (gs : List ℕ) (f : StateFilter) :
    Looked truth f (ord.list gs.toFinset) (getStateForGroupsUsingCache ord gs cache f) := by
  have hs : Looked truth f [] ⟨∅,∅,cache⟩ := ⟨h,by simp,by simp,by simp⟩
  exact hs.lookInCaches _

end Caches

section Insert

variable {t : StateTables} {f : StateFilter}

theorem update_exact {ca : GroupCache} {split : StateFilter} {p : StateKey → Bool}
    (h : DictionaryCache.Exact (fun g => filterKeys (t.resolved g) p) ca.cache)
    (hs : ∀ key, p key = true → split.contains key = f.contains key) {g : ℕ} {st : StateMap String}
    (hc : Covers t f g st) (sq : ℕ) :
    DictionaryCache.Exact (fun g => filterKeys (t.resolved g) p)
      (ca.update sq g (filterKeys st p) (fetchedTypes split)).cache := by
  apply h.update
  · intro key v hv
    rw [lookup_filterKeys] at hv ⊢
    split at hv
    · next hp =>
      rw [if_pos hp]
      exact hc.sound key v hv
    · simp at hv
  · intro key hf
    rw [lookup_filterKeys,lookup_filterKeys]
    split
    · next hp =>
      apply hc.exact
      rw [← hs key hp]
      rw [fetchedTypes] at hf
      split at hf
      · next hfu => exact StateFilter.contains_of_isFull hfu key
      · exact StateFilter.contains_of_concrete (hf _ rfl)
    · rfl

theorem memberFilter_contains' {key : StateKey} (h : isMember key = true) :
    f.getMemberSplit.1.contains key = f.contains key :=
  StateFilter.memberFilter_contains (decide_eq_true_eq.mp h)

theorem nonMemberFilter_contains' {key : StateKey} (h : (!isMember key) = true) :
    f.getMemberSplit.2.contains key = f.contains key := by
  apply StateFilter.nonMemberFilter_contains
  simpa [isMember] using h

theorem CachesExact.insertIntoCache {cas : Caches} (h : CachesExact t cas)
    {fd : Dict ℕ (StateMap String)} (hco : ∀ g st, fd.lookup g = some st → Covers t f g st)
    (sequenceMembers sequenceNonMembers : ℕ) :
    CachesExact t (insertIntoCache fd f sequenceMembers sequenceNonMembers cas) := by
  refine foldlRecOn fd.entries _ h ?_
  rintro cas hc ⟨g,st⟩ hi
  have hs := hco g st (mem_lookup_iff.mpr hi)
  exact ⟨update_exact hc.nonMembers (fun key => nonMemberFilter_contains') hs _,
    update_exact hc.members (fun key => memberFilter_contains') hs _⟩

theorem CachesExact.prefill {cas : Caches} (h : CachesExact t cas) {g : ℕ}
    (hf : t.stateGroupEdges.lookup g = none) :
    CachesExact t (prefill cas g (DeltaStore.rowsOf t.stateGroupsState g)) := by
  have hc : Covers t .all g (DeltaStore.rowsOf t.stateGroupsState g) := by
    have hs := DeltaStore.resolve_of_none (s := t.deltas) hf
    exact ⟨fun key v hv => (hs key).trans hv,fun key _ => (hs key).symm⟩
  have hsp : ∀ key : StateKey, StateFilter.all.contains key = StateFilter.all.contains key :=
    fun _ => rfl
  exact ⟨update_exact h.nonMembers (fun key _ => hsp key) hc _,
    update_exact h.members (fun key _ => hsp key) hc _⟩

end Insert

def stateOf (results : Dict ℕ (StateMap String)) (group : ℕ) : StateMap String :=
  (results.lookup group).getD ∅

theorem mergeMembers_spec (ms : Dict ℕ (StateMap String)) (gs : List ℕ)
    (st : Dict ℕ (StateMap String)) (g : ℕ) :
    (g ∈ gs.foldl (mergeMembers ms) st ↔ g ∈ st ∨ g ∈ gs) ∧
      ∀ key, (stateOf (gs.foldl (mergeMembers ms) st) g).lookup key =
        if g ∈ gs then ((stateOf ms g).lookup key).or ((stateOf st g).lookup key)
        else (stateOf st g).lookup key := by
  constructor
  · induction gs generalizing st with
    | nil => simp
    | cons gp gs ih =>
      rw [foldl_cons,ih,mergeMembers,Dict.mem_set,mem_cons]
      tauto
  · intro key
    refine read_foldl (g := mergeMembers ms) (r := fun st => (stateOf st g).lookup key) ?_ ?_
      (or_or ((stateOf ms g).lookup key)) gs st
    · intro st
      rw [stateOf,mergeMembers,lookup_insert,getD_some,lookup_update]
      rfl
    · intro st gp hg
      rw [stateOf,mergeMembers,lookup_insert_ne hg]
      rfl

theorem split_state (t : StateTables) (f : StateFilter) (g : ℕ) (key : StateKey) :
    (if f.getMemberSplit.1.contains key then (memberState t g).lookup key else none).or
      (if f.getMemberSplit.2.contains key then (nonMemberState t g).lookup key else none) =
    if f.contains key then (t.resolved g).lookup key else none := by
  rw [memberState,nonMemberState,lookup_filterKeys,lookup_filterKeys]
  cases hm : isMember key with
  | true =>
    rw [memberFilter_contains' hm]
    simp
  | false =>
    rw [nonMemberFilter_contains' (by simp [hm])]
    simp

section Runs

variable {t : StateTables} {engine : Engine}

/-- The result has the state of a group as far as the filter keeps it. -/
def ExactAt (t : StateTables) (f : StateFilter) (g : ℕ) (result : Dict ℕ (StateMap String)) :
    Prop :=
  ∃ state, result.lookup g = some state ∧
    ∀ key, state.lookup key = if f.contains key then (t.resolved g).lookup key else none

structure WaitingExact (t : StateTables) (call : Waiting) : Prop where
  filter : call.filter = orAll call.asked
  asks : call.filter.Asks
  complete : ∀ g ∈ call.groups, g ∉ call.incomplete → ExactAt t call.filter g call.state

def StartedExact (t : StateTables) (groups : List ℕ) (asked : Option StateFilter) :
    Started → Prop
  | .returned state => ∀ g ∈ groups, ExactAt t (orAll asked) g state
  | .waiting call => WaitingExact t call

theorem merged_exact {f : StateFilter} {seen gs : List ℕ} {ms nm : FromCache}
    (hme : Looked (memberState t) f.getMemberSplit.1 seen ms)
    (hnm : Looked (nonMemberState t) f.getMemberSplit.2 seen nm) {g : ℕ} (hs : g ∈ seen)
    (hg : g ∈ gs) (hc : g ∉ ms.incomplete ∪ nm.incomplete) :
    ExactAt t f g (gs.foldl (mergeMembers ms.results) nm.results) := by
  rw [Finset.mem_union,not_or] at hc
  obtain ⟨m,hm⟩ := mem_iff_lookup.mp ((hme.mem g).mpr hs)
  obtain ⟨n,hn⟩ := mem_iff_lookup.mp ((hnm.mem g).mpr hs)
  obtain ⟨hmem,hl⟩ := mergeMembers_spec ms.results gs nm.results g
  obtain ⟨st,hst⟩ := mem_iff_lookup.mp (hmem.mpr (.inr hg))
  refine ⟨st,hst,?_⟩
  intro key
  have hk := hl key
  rw [if_pos hg] at hk
  simp only [stateOf,hst,hm,hn,getD_some] at hk
  rw [hk,hme.exact g m hm hc.1,hnm.exact g n hn hc.2,split_state]

theorem startGet_exact {cas : Caches} (h : CachesExact t cas) (ord : Iteration ℕ) (gs : List ℕ)
    (ask : Option StateFilter) :
    CachesExact t (startGet ord cas gs ask).2 ∧
      StartedExact t gs ask (startGet ord cas gs ask).1 := by
  have hnm := getStateForGroupsUsingCache_looked h.nonMembers ord gs (orAll ask).getMemberSplit.2
  have hm := getStateForGroupsUsingCache_looked h.members ord gs (orAll ask).getMemberSplit.1
  have hs : ∀ g ∈ gs, g ∈ ord.list gs.toFinset := fun g hg =>
    (ord.mem _ _).mpr (mem_toFinset.mpr hg)
  rw [startGet]
  dsimp only
  split
  · next he =>
    refine ⟨⟨hnm.cache,hm.cache⟩,?_⟩
    intro g hg
    exact merged_exact hm hnm (hs g hg) hg (by simp [he])
  · next hne =>
    refine ⟨⟨hnm.cache,hm.cache⟩,rfl,?_,?_⟩
    · obtain ⟨g,hg⟩ := Finset.nonempty_iff_ne_empty.mpr hne
      rcases Finset.mem_union.mp hg with hg | hg
      · exact StateFilter.asks_of_memberFilter (hm.asks g hg).2
      · exact StateFilter.asks_of_nonMemberFilter (hnm.asks g hg).2
    · intro g hg hc
      exact merged_exact hm hnm (hs g hg) hg hc

theorem finishGet_exact {cas : Caches} (h : CachesExact t cas) {cl : Waiting}
    (hc : WaitingExact t cl) (engine : Engine) (ord : Iteration ℕ) :
    ∃ res cas', finishGet engine ord t cas cl = .ok (res,cas') ∧
      CachesExact t cas' ∧ ∀ g ∈ cl.groups, ExactAt t cl.filter g res := by
  obtain ⟨fd,hf,hm,hco⟩ := getStateGroupsFromGroups_covers (t := t) engine
    (StateFilter.asks_returnExpanded hc.asks) (ord.list cl.incomplete)
  refine ⟨_,_,by rw [finishGet,hf,ok_bind],h.insertIntoCache hco _ _,?_⟩
  intro g hg
  have hl := lookup_foldl_insert cl.filter.filterState fd.entries fd.nodupKeys cl.state g
  by_cases hi : g ∈ cl.incomplete
  · obtain ⟨st,hs⟩ := mem_iff_lookup.mp ((hm g).mpr ((ord.mem _ _).mpr hi))
    refine ⟨cl.filter.filterState st,?_,?_⟩
    · rw [hl]
      change ((fd.lookup g).map _).or _ = _
      rw [hs]
      rfl
    · intro key
      rw [StateFilter.lookup_filterState]
      split
      · next hkey =>
        exact (hco g st hs).exact key (StateFilter.returnExpanded_contains hkey)
      · rfl
  · have hn : fd.lookup g = none := by
      rw [lookup_eq_none,hm,ord.mem]
      exact hi
    obtain ⟨st,hs,hk⟩ := hc.complete g hg hi
    refine ⟨st,?_,hk⟩
    rw [hl]
    change ((fd.lookup g).map _).or _ = _
    rw [hn,hs]
    rfl

structure ProcessExact (t : StateTables) (p : Process) : Prop where
  caches : CachesExact t p.caches
  waiting : ∀ call ∈ p.waiting, WaitingExact t call

theorem Reachable.exact {p : Process} (h : Reachable engine t p) : ProcessExact t p := by
  induction h with
  | start maxEntries maxMemberEntries =>
    exact ⟨⟨LruCache.holds_empty _,LruCache.holds_empty _⟩,by simp⟩
  | returned _ ord gs ask cl ih =>
    have hs := startGet_exact ih.caches ord gs ask
    rw [cl] at hs
    exact ⟨hs.1,ih.waiting⟩
  | waits _ ord gs ask started ih =>
    have hs := startGet_exact ih.caches ord gs ask
    rw [started] at hs
    exact ⟨hs.1,forall_mem_append.mpr ⟨ih.waiting,forall_mem_singleton.mpr hs.2⟩⟩
  | finishes _ ord i finished ih =>
    obtain ⟨res,cas',hf,hca,-⟩ := finishGet_exact ih.caches
      (ih.waiting _ (get_mem _ i)) engine ord
    rw [finished] at hf
    obtain ⟨rfl,rfl⟩ := Prod.mk.inj (Except.ok.inj hf)
    exact ⟨hca,fun cl hc => ih.waiting cl (mem_of_mem_eraseIdx hc)⟩
  | evicts _ nm ms ih =>
    exact ⟨⟨LruCache.Holds.evicts ih.caches.nonMembers nm,
      LruCache.Holds.evicts ih.caches.members ms⟩,ih.waiting⟩
  | prefills _ g fl ih => exact ⟨ih.caches.prefill fl,ih.waiting⟩

def NotNone : Option StateFilter → Prop
  | some f => f.isTruthy = true
  | none => True

theorem ExactAt.exactFor {gs : List ℕ} {ask : Option StateFilter} {res : Dict ℕ (StateMap String)}
    (ha : NotNone ask) (h : ∀ g ∈ gs, ExactAt t (orAll ask) g res) : ExactFor t gs ask res := by
  intro g hg
  obtain ⟨st,hs,hk⟩ := h g hg
  refine ⟨st,hs,?_⟩
  intro key
  rw [hk]
  cases ask with
  | none =>
    rw [orAll,keeps,StateFilter.contains_all]
  | some f =>
    rw [orAll_of_truthy ha]
    rfl

/-- In every run, a call with a filter that is not the one for no state returns
the state of each group, restricted by the filter: at once, if the caches have
all of it, and else once the database has answered. -/
theorem stateForGroups_exact_of_notNone {p : Process} (h : Reachable engine t p) :
    (∀ order groups asked, NotNone asked → ∀ state caches,
      startGet order p.caches groups asked = (.returned state,caches) →
        ExactFor t groups asked state) ∧
    ∀ call ∈ p.waiting, NotNone call.asked → ∀ order, ∃ state caches,
      finishGet engine order t p.caches call = .ok (state,caches) ∧
        ExactFor t call.groups call.asked state := by
  constructor
  · intro order groups asked hasked state caches hcall
    have hstart := startGet_exact h.exact.caches order groups asked
    rw [hcall] at hstart
    exact ExactAt.exactFor hasked hstart.2
  · intro call hcall hasked order
    have hwaiting := h.exact.waiting call hcall
    obtain ⟨state,caches,hfinish,-,hexact⟩ := finishGet_exact h.exact.caches hwaiting engine order
    rw [hwaiting.filter] at hexact
    exact ⟨state,caches,hfinish,ExactAt.exactFor hasked hexact⟩

end Runs

def namedTables : StateTables where
  stateGroups := {1}
  stateGroupEdges := ∅
  stateGroupsState := AList.insert 1 (AList.insert ("m.room.name","") "$name" ∅) ∅
  nextStateGroup := 2
  positive := by decide
  lower := noEdges_lower
  fresh := by
    intro g hg
    have hne : g ≠ 1 := by omega
    refine ⟨by simpa using hne,rfl,?_⟩
    rw [lookup_set,if_neg hne]
    rfl

def namedProcess : Process :=
  ⟨prefill ⟨DictionaryCache.empty 100,DictionaryCache.empty 100⟩ 1
    (DeltaStore.rowsOf namedTables.stateGroupsState 1),[]⟩

theorem namedProcess_reachable : Reachable .sqlite namedTables namedProcess :=
  .prefills (.start 100 100) 1 (by decide)

def nameFilter : StateFilter :=
  .make (AList.insert "m.room.name" (some ⟨[""],by decide⟩) ∅) false

def nameReturned : Started × Caches → Option String
  | (.returned state,_) => (stateOf state 1).lookup ("m.room.name","")
  | (.waiting _,_) => none

theorem exists_returned {started : Started × Caches} {name : String}
    (h : nameReturned started = some name) : ∃ st cas, started = (.returned st,cas) ∧
      (stateOf st 1).lookup ("m.room.name","") = some name := by
  obtain ⟨st | cl,cas⟩ := started
  · exact ⟨st,cas,rfl,h⟩
  · simp [nameReturned] at h

theorem stateForGroups_exact_of_notNone_named : ∃ state caches,
    startGet (Iteration.sortedBy id (fun _ _ h => h)) namedProcess.caches [1] (some nameFilter) =
      (.returned state,caches) ∧ ExactFor namedTables [1] (some nameFilter) state := by
  have hname : nameReturned (startGet (Iteration.sortedBy id (fun _ _ h => h)) namedProcess.caches
      [1] (some nameFilter)) = some "$name" := by decide +kernel
  have hasked : NotNone (some nameFilter) := by
    change nameFilter.isTruthy = true
    decide +kernel
  obtain ⟨state,caches,hstart,-⟩ := exists_returned hname
  exact ⟨state,caches,hstart,
    (stateForGroups_exact_of_notNone namedProcess_reachable).1 _ _ _ hasked _ _ hstart⟩

/-- The filter for no state is false as a condition, so that the filter for all
state is used in its place. -/
theorem stateForGroups_none_is_all : Reachable .sqlite namedTables namedProcess ∧
    ∃ state caches, startGet (Iteration.sortedBy id (fun _ _ h => h)) namedProcess.caches [1]
      (some .none) = (.returned state,caches) ∧
        (stateOf state 1).lookup ("m.room.name","") = some "$name" ∧
        ¬ ExactFor namedTables [1] (some .none) state := by
  have hname : nameReturned (startGet (Iteration.sortedBy id (fun _ _ h => h)) namedProcess.caches
      [1] (some .none)) = some "$name" := by decide +kernel
  obtain ⟨state,caches,hstart,hlook⟩ := exists_returned hname
  refine ⟨namedProcess_reachable,state,caches,hstart,hlook,?_⟩
  intro hexact
  obtain ⟨found,hfound,hkeys⟩ := hexact 1 (by simp)
  have hkey := hkeys ("m.room.name","")
  rw [stateOf,hfound,getD_some,hkey,keeps,StateFilter.contains_none] at hlook
  simp at hlook

end Synapse.StateGroups
