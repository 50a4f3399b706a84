import Synapse.LruCache
import Synapse.Iteration
import Synapse.StateGroups

/-!
# Storing and purging state groups

A new group is stored as a delta unless the chain it would extend is long, and
a batch of events stores one delta for each state event. Purging groups stores
in full those that are deltas on top of them. Neither changes the state of a
group that stays.
-/

set_option autoImplicit false

namespace Synapse.StateGroups
open Python List Dict Option AList Finset

def maxStateDeltaHops : ℕ := 100

def StateTables.addGroup (t : StateTables) (prev : Option ℕ) (rows : StateMap String)
    (h : ∀ p, prev = some p → 0 < p ∧ p < t.nextStateGroup) : StateTables where
  stateGroups := insert t.nextStateGroup t.stateGroups
  stateGroupEdges :=
    match prev with
    | some p => t.stateGroupEdges.insert t.nextStateGroup p
    | none => t.stateGroupEdges
  stateGroupsState := t.stateGroupsState.insert t.nextStateGroup rows
  nextStateGroup := t.nextStateGroup+1
  positive := by
    refine ⟨Nat.succ_pos _,?_⟩
    rw [lookup_set,if_neg (Nat.ne_of_lt t.positive.1)]
    exact t.positive.2
  lower := by
    intro g p hp
    cases prev with
    | none => exact t.lower g p hp
    | some q =>
      rcases set_cases hp with ⟨rfl,rfl⟩ | ⟨-,hp⟩
      · exact h q rfl
      · exact t.lower g p hp
  fresh := by
    intro g hg
    have hne : g ≠ t.nextStateGroup := by omega
    obtain ⟨hgroups,hedges,hrows⟩ := t.fresh g (by omega)
    refine ⟨by simp [hne,hgroups],?_,?_⟩
    · cases prev with
      | none => exact hedges
      | some q => rw [lookup_set,if_neg hne,hedges]
    · rw [lookup_set,if_neg hne,hrows]

theorem StateTables.lt_of_mem (t : StateTables) {g : ℕ} (hg : g ∈ t.stateGroups) :
    g < t.nextStateGroup := by
  by_contra hle
  exact (t.fresh g (not_lt.mp hle)).1 hg

/-- The prev groups that are not null or zero are counted. -/
def countHops (t : StateTables) : ℕ → Option ℕ → ℕ → ℕ
  | 0, _, count => count
  | _, none, count => count
  | _, some 0, count => count
  | fuel+1, some (group+1), count =>
    let next := t.stateGroupEdges.lookup (group+1)
    countHops t fuel next (if next.any (fun p => p ≠ 0) then count+1 else count)

/-- On Postgres the group itself is counted too. -/
def countStateGroupHopsTxn (engine : Engine) (t : StateTables) (group : ℕ) : ℕ :=
  match engine with
  | .postgres => (sgs t group).length
  | .sqlite => countHops t (group+1) (some group) 0

def unpersisted {α : Type} (prevGroup : ℕ) : Result α :=
  .error (.exception ("Trying to persist state with unpersisted prev_group: " ++
    toString prevGroup))

/-- No group is stored if the chain is too long already. -/
def insertDeltaGroupTxn (engine : Engine) (t : StateTables) (prevGroup : ℕ)
    (deltaIds : StateMap String) : Result (Option ℕ × StateTables) :=
  if h : prevGroup ∈ t.stateGroups ∧ prevGroup ≠ 0 then
    if maxStateDeltaHops ≤ countStateGroupHopsTxn engine t prevGroup then .ok (none,t)
    else .ok (some t.nextStateGroup,t.addGroup (some prevGroup) deltaIds (by
      intro p hp
      cases hp
      exact ⟨Nat.pos_of_ne_zero h.2,t.lt_of_mem h.1⟩))
  else unpersisted prevGroup

def insertFullStateTxn (t : StateTables) (currentStateIds : StateMap String) : ℕ × StateTables :=
  (t.nextStateGroup,t.addGroup none currentStateIds (by simp))

structure BatchedContext where
  stateGroupBeforeEvent : ℕ
  stateGroupAfterEvent : ℕ
  stateDeltaDueToEvent : Option (StateMap String)

structure Batched where
  tables : StateTables
  contexts : List BatchedContext
  sgBefore : ℕ
  before : 0 < sgBefore ∧ sgBefore < tables.nextStateGroup

def Batched.addEvent (b : Batched) (event : Event) : Batched :=
  match event.stateKey with
  | none => { b with contexts := b.contexts ++ [⟨b.sgBefore,b.sgBefore,none⟩] }
  | some stateKey =>
    let delta := AList.insert (event.type,stateKey) event.eventId ∅
    { tables := b.tables.addGroup (some b.sgBefore) delta (by
        intro p hp
        cases hp
        exact b.before)
      contexts := b.contexts ++ [⟨b.sgBefore,b.tables.nextStateGroup,some delta⟩]
      sgBefore := b.tables.nextStateGroup
      before := ⟨b.tables.positive.1,Nat.lt_succ_self _⟩ }

/-- `store_state_deltas_for_batched` -/
def insertDeltasGroupTxn (t : StateTables) (events : List Event) (prevGroup : ℕ) :
    Result Batched :=
  if h : prevGroup ∈ t.stateGroups ∧ prevGroup ≠ 0 then
    .ok (events.foldl Batched.addEvent
      ⟨t,[],prevGroup,Nat.pos_of_ne_zero h.2,t.lt_of_mem h.1⟩)
  else unpersisted prevGroup

/-- A group with a prev group is stored in full. -/
def StateTables.deDelta (t : StateTables) (group : ℕ) (state : StateMap String) : StateTables :=
  match h : t.stateGroupEdges.lookup group with
  | none => t
  | some p =>
    { t with
      stateGroupEdges := t.stateGroupEdges.erase group
      stateGroupsState := t.stateGroupsState.insert group state
      positive := by
        have hlower := (t.lower group p h).2
        refine ⟨t.positive.1,?_⟩
        rw [lookup_set,if_neg (by omega)]
        exact t.positive.2
      lower := by
        intro g q hq
        exact t.lower g q (pop_cases hq).2
      fresh := by
        intro g hg
        obtain ⟨hgroups,hedges,hrows⟩ := t.fresh g hg
        have hne : g ≠ group := by
          rintro rfl
          simp [hedges] at h
        refine ⟨hgroups,?_,?_⟩
        · rw [lookup_pop,if_neg hne,hedges]
        · rw [lookup_set,if_neg hne,hrows] }

/-- The edges of deleted groups are left behind. -/
def StateTables.deleteGroups (t : StateTables) (groups : Finset ℕ) : StateTables :=
  { t with
    stateGroups := t.stateGroups \ groups
    stateGroupsState := filterKeys t.stateGroupsState (fun g => g ∉ groups)
    positive := by
      refine ⟨t.positive.1,?_⟩
      rw [lookup_filterKeys,t.positive.2,ite_self]
    fresh := by
      intro g hg
      obtain ⟨hgroups,hedges,hrows⟩ := t.fresh g hg
      refine ⟨fun hin => hgroups (mem_sdiff.mp hin).1,hedges,?_⟩
      rw [lookup_filterKeys,hrows,ite_self] }

def remainingStateGroups (t : StateTables) (toDelete : Finset ℕ) : Finset ℕ :=
  ((t.stateGroupEdges.entries.filter (fun edge => edge.2 ∈ toDelete ∧ edge.1 ∉ toDelete)).map
    Sigma.fst).toFinset

def deDeltaTxn (engine : Engine) (t : StateTables) (group : ℕ) : Result StateTables := do
  let states ← getStateGroupsFromGroupsTxn engine t [group] none
  .ok (t.deDelta group ((states.lookup group).getD ∅))

def purgeUnreferencedStateGroups (engine : Engine) (order : Iteration ℕ) (t : StateTables)
    (toDelete : Finset ℕ) : Result StateTables := do
  let t ← (order.list (remainingStateGroups t toDelete)).foldlM (deDeltaTxn engine) t
  .ok (t.deleteGroups toDelete)

structure GroupDelta where
  prevGroup : Option ℕ
  deltaIds : Option (StateMap String)

def getStateGroupDeltaTxn (t : StateTables) (group : ℕ) : GroupDelta :=
  match t.stateGroupEdges.lookup group with
  | none => ⟨none,none⟩
  | some 0 => ⟨none,none⟩
  | some (p+1) => ⟨some (p+1),some (DeltaStore.rowsOf t.stateGroupsState group)⟩

abbrev DeltaCache := LruCache (fun _ : ℕ => GroupDelta)

def GroupDelta.size (item : Sigma fun _ : ℕ => GroupDelta) : ℕ :=
  max 1 ((item.2.deltaIds.getD ∅).keys.length)

structure StateStore where
  tables : StateTables
  deltaCache : DeltaCache

def getStateGroupDelta (s : StateStore) (group : ℕ) : GroupDelta × StateStore :=
  match s.deltaCache.get group true with
  | (some delta,cache) => (delta,{ s with deltaCache := cache })
  | (none,cache) =>
    let delta := getStateGroupDeltaTxn s.tables group
    (delta,{ s with deltaCache := cache.set GroupDelta.size group delta })

section Kept

variable {t : StateTables}

def Linked (t : StateTables) : Prop :=
  ∀ g ∈ t.stateGroups, ∀ p, t.stateGroupEdges.lookup g = some p → p ∈ t.stateGroups

section Add

variable {prev : Option ℕ} {rws : StateMap String}
  {h : ∀ p, prev = some p → 0 < p ∧ p < t.nextStateGroup}

theorem addGroup_edges (g : ℕ) : (t.addGroup prev rws h).stateGroupEdges.lookup g =
    if g = t.nextStateGroup then prev else t.stateGroupEdges.lookup g := by
  cases prev with
  | none =>
    split
    · next hg =>
      subst hg
      exact (t.fresh _ le_rfl).2.1
    · rfl
  | some p => exact lookup_set _ _ _ _

theorem addGroup_old {g : ℕ} (hg : g < t.nextStateGroup) :
    (t.addGroup prev rws h).deltas.ancestors g = t.deltas.ancestors g ∧
      (t.addGroup prev rws h).resolved g = t.resolved g := by
  refine DeltaStore.resolve_congr (P := fun g => g < t.nextStateGroup) ?_ ?_ ?_ hg
  · intro g p hg hp
    exact lt_trans (t.lower g p hp).2 hg
  · intro g hg
    change (t.addGroup prev rws h).stateGroupEdges.lookup g = _
    rw [addGroup_edges,if_neg (Nat.ne_of_lt hg)]
    rfl
  · intro g hg
    change ((t.stateGroupsState.insert t.nextStateGroup rws).lookup g).getD ∅ = _
    rw [lookup_set,if_neg (Nat.ne_of_lt hg)]
    rfl

theorem addGroup_linked (hl : Linked t) (hpr : ∀ p, prev = some p → p ∈ t.stateGroups) :
    Linked (t.addGroup prev rws h) := by
  intro g hg p hp
  rw [addGroup_edges] at hp
  refine mem_insert_of_mem ?_
  split at hp
  · exact hpr p hp
  · next hne => exact hl g ((mem_insert.mp hg).resolve_left hne) p hp

end Add

theorem deDelta_of_some {g p : ℕ} (h : t.stateGroupEdges.lookup g = some p) (st : StateMap String) :
    ((t.deDelta g st).stateGroups = t.stateGroups ∧
      (t.deDelta g st).nextStateGroup = t.nextStateGroup) ∧
      (t.deDelta g st).stateGroupEdges = t.stateGroupEdges.erase g ∧
      (t.deDelta g st).stateGroupsState = t.stateGroupsState.insert g st := by
  rw [StateTables.deDelta]
  split
  · next hn => simp [h] at hn
  · exact ⟨⟨rfl,rfl⟩,rfl,rfl⟩

theorem deDelta_resolved {gp p : ℕ} (hp : t.stateGroupEdges.lookup gp = some p)
    {st : StateMap String} (hs : ∀ key, st.lookup key = (t.resolved gp).lookup key) (g : ℕ)
    (key : StateKey) : ((t.deDelta gp st).resolved g).lookup key = (t.resolved g).lookup key := by
  obtain ⟨-,hed,hro⟩ := deDelta_of_some hp st
  have he : ∀ l, (t.deDelta gp st).deltas.prev.lookup l =
      if l = gp then none else t.stateGroupEdges.lookup l := by
    intro l
    change (t.deDelta gp st).stateGroupEdges.lookup l = _
    rw [hed,lookup_pop]
  have hrow : ∀ l, DeltaStore.rowsOf (t.deDelta gp st).deltas.rows l =
      if l = gp then st else DeltaStore.rowsOf t.stateGroupsState l := by
    intro l
    change ((t.deDelta gp st).stateGroupsState.lookup l).getD ∅ = _
    rw [hro,lookup_set]
    split <;> rfl
  have hr : ((t.deDelta gp st).resolved gp).lookup key = (t.resolved gp).lookup key := by
    have hn := (he gp).trans (if_pos rfl)
    rw [StateTables.resolved,DeltaStore.resolve_of_none hn,hrow,if_pos rfl,hs]
  induction g using t.deltas.chain_induction with
  | root g hg =>
    by_cases heq : g = gp
    · subst heq
      exact hr
    · have hn := (he g).trans ((if_neg heq).trans hg)
      rw [StateTables.resolved,StateTables.resolved,DeltaStore.resolve_of_none hn,
        DeltaStore.resolve_of_none hg,hrow,if_neg heq]
      rfl
  | step g q hg ih =>
    by_cases heq : g = gp
    · subst heq
      exact hr
    · have hso := (he g).trans ((if_neg heq).trans hg)
      rw [StateTables.resolved,StateTables.resolved,DeltaStore.resolve_of_some hso,
        DeltaStore.resolve_of_some hg,lookup_update,lookup_update,hrow,if_neg heq]
      exact congrArg (Option.or _) ih

theorem deDeltaTxn_ok (eng : Engine) (t : StateTables) (g : ℕ) :
    ∃ st, deDeltaTxn eng t g = .ok (t.deDelta g st) ∧
      ∀ key, st.lookup key = (t.resolved g).lookup key := by
  have ha : StateFilter.all.Asks := .inl rfl
  obtain ⟨fd,hf,hm,hc⟩ := getStateGroupsFromGroupsTxn_covers (t := t) eng ha [g]
  have hall : getStateGroupsFromGroupsTxn eng t [g] none = .ok fd := by
    rw [← hf]
    rfl
  obtain ⟨st,hs⟩ := mem_iff_lookup.mp ((hm g).mpr (by simp))
  refine ⟨st,?_,?_⟩
  · rw [deDeltaTxn,hall,ok_bind,hs,getD_some]
  · intro key
    exact (hc g st hs).exact key StateFilter.contains_all

structure DeDeltas (t : StateTables) (done : List ℕ) (t' : StateTables) : Prop where
  groups : t'.stateGroups = t.stateGroups ∧ t'.nextStateGroup = t.nextStateGroup
  edges : ∀ g, t'.stateGroupEdges.lookup g =
    if g ∈ done then none else t.stateGroupEdges.lookup g
  state : ∀ g key, (t'.resolved g).lookup key = (t.resolved g).lookup key

theorem deDeltas_ok (eng : Engine) {gs : List ℕ} (hn : gs.Nodup)
    (he : ∀ g ∈ gs, ∃ p, t.stateGroupEdges.lookup g = some p) :
    ∃ t', gs.foldlM (deDeltaTxn eng) t = .ok t' ∧ DeDeltas t gs t' := by
  induction gs generalizing t with
  | nil => exact ⟨t,rfl,⟨rfl,rfl⟩,by simp,fun _ _ => rfl⟩
  | cons gp gs ih =>
    obtain ⟨hnot,hn⟩ := nodup_cons.mp hn
    obtain ⟨p,hp⟩ := he gp (by simp)
    obtain ⟨st,hs,hst⟩ := deDeltaTxn_ok eng t gp
    obtain ⟨hgr,hed,-⟩ := deDelta_of_some hp st
    have hl : ∀ g, (t.deDelta gp st).stateGroupEdges.lookup g =
        if g = gp then none else t.stateGroupEdges.lookup g := by
      intro g
      rw [hed,lookup_pop]
    obtain ⟨t',hr,hd⟩ := ih (t := t.deDelta gp st) hn (by
      intro g hg
      obtain ⟨q,hq⟩ := he g (by simp [hg])
      refine ⟨q,?_⟩
      rw [hl,if_neg (by rintro rfl; exact hnot hg),hq])
    refine ⟨t',?_,⟨hd.groups.1.trans hgr.1,hd.groups.2.trans hgr.2⟩,?_,?_⟩
    · rw [foldlM_cons,hs]
      exact hr
    · intro g
      rw [hd.edges,hl]
      by_cases hg : g = gp <;> simp [hg]
    · intro g key
      rw [hd.state,deDelta_resolved hp hst]

theorem mem_remainingStateGroups {del : Finset ℕ} {g : ℕ} :
    g ∈ remainingStateGroups t del ↔
      (∃ p ∈ del, t.stateGroupEdges.lookup g = some p) ∧ g ∉ del := by
  simp only [remainingStateGroups,List.mem_toFinset,List.mem_map,List.mem_filter,decide_eq_true_eq]
  constructor
  · rintro ⟨⟨l,p⟩,⟨he,hp,hl⟩,rfl⟩
    exact ⟨⟨p,hp,mem_lookup_iff.mpr he⟩,hl⟩
  · rintro ⟨⟨p,hp,hlo⟩,hg⟩
    exact ⟨⟨g,p⟩,⟨mem_lookup_iff.mp (mem_def.mpr hlo),hp,hg⟩,rfl⟩

structure Purged (t : StateTables) (toDelete : Finset ℕ) (t' : StateTables) : Prop where
  groups : t'.stateGroups = t.stateGroups \ toDelete
  next : t'.nextStateGroup = t.nextStateGroup
  linked : Linked t'
  edges : ∀ g p, t'.stateGroupEdges.lookup g = some p → t.stateGroupEdges.lookup g = some p
  state : ∀ g ∈ t'.stateGroups, ∀ key, (t'.resolved g).lookup key = (t.resolved g).lookup key

theorem deDelta_rows {g gp : ℕ} (hg : g ≠ gp) (st : StateMap String) :
    (t.deDelta gp st).stateGroupsState.lookup g = t.stateGroupsState.lookup g := by
  rw [StateTables.deDelta]
  split
  · rfl
  · simp [hg]

theorem deDeltas_rows {eng : Engine} {gs : List ℕ} {t' : StateTables}
    (h : gs.foldlM (deDeltaTxn eng) t = .ok t') {g : ℕ} (hg : g ∉ gs) :
    t'.stateGroupsState.lookup g = t.stateGroupsState.lookup g := by
  induction gs generalizing t with
  | nil =>
    cases h
    rfl
  | cons gp gs ih =>
    obtain ⟨st,hs,-⟩ := deDeltaTxn_ok eng t gp
    rw [List.mem_cons,not_or] at hg
    rw [foldlM_cons,hs,ok_bind] at h
    rw [ih h hg.2,deDelta_rows hg.1]

theorem purge_spec (t : StateTables) (eng : Engine) (ord : Iteration ℕ) (del : Finset ℕ) :
    ∃ t', purgeUnreferencedStateGroups eng ord t del = .ok t' ∧
      (t'.stateGroups = t.stateGroups \ del ∧ t'.nextStateGroup = t.nextStateGroup) ∧
      (∀ g p, t'.stateGroupEdges.lookup g = some p →
        t.stateGroupEdges.lookup g = some p ∧ (g ∉ del → p ∉ del)) ∧
      (∀ g ∉ del, ∀ key, (t'.resolved g).lookup key = (t.resolved g).lookup key) ∧
      ∀ g, g ∈ del ∨ g ∉ remainingStateGroups t del ∧ t.stateGroupsState.lookup g = none →
        t'.stateGroupsState.lookup g = none := by
  obtain ⟨t₁,hr,hd⟩ := deDeltas_ok (t := t) eng
    (ord.nodup (remainingStateGroups t del)) (by
      intro g hg
      obtain ⟨⟨p,-,hp⟩,-⟩ := mem_remainingStateGroups.mp ((ord.mem _ _).mp hg)
      exact ⟨p,hp⟩)
  have he : ∀ g p, t₁.stateGroupEdges.lookup g = some p →
      t.stateGroupEdges.lookup g = some p ∧ (g ∉ del → p ∉ del) := by
    intro g p hp
    rw [hd.edges] at hp
    split at hp
    · simp at hp
    · next hn =>
      rw [ord.mem,mem_remainingStateGroups] at hn
      exact ⟨hp,fun hg hdel => hn ⟨⟨p,hdel,hp⟩,hg⟩⟩
  refine ⟨t₁.deleteGroups del,?_,⟨?_,hd.groups.2⟩,he,?_,?_⟩
  · rw [purgeUnreferencedStateGroups,hr,ok_bind]
  · rw [← hd.groups.1]
    rfl
  · intro g hg key
    have hs := (DeltaStore.resolve_congr (s := t₁.deltas) (t := (t₁.deleteGroups del).deltas)
      (P := fun g => g ∉ del) (fun g p hg hp => (he g p hp).2 hg) (fun g _ => rfl) (by
        intro g hg
        change ((filterKeys t₁.stateGroupsState _).lookup g).getD ∅ = _
        rw [lookup_filterKeys,if_pos (by simpa using hg)]
        rfl) hg).2
    rw [StateTables.resolved,hs]
    exact hd.state g key
  · intro g hg
    change (filterKeys t₁.stateGroupsState _).lookup g = none
    rw [lookup_filterKeys]
    rcases hg with hg | ⟨hn,hg⟩
    · simp [hg]
    · rw [deDeltas_rows hr (mt (ord.mem _ _).mp hn),hg,ite_self]

theorem purgeUnreferencedStateGroups_ok (hl : Linked t) (eng : Engine) (ord : Iteration ℕ)
    (del : Finset ℕ) :
    ∃ t', purgeUnreferencedStateGroups eng ord t del = .ok t' ∧ Purged t del t' := by
  obtain ⟨t',hr,⟨hgr,hn⟩,he,hs,-⟩ := purge_spec t eng ord del
  refine ⟨t',hr,hgr,hn,?_,fun g p hp => (he g p hp).1,fun g hg => hs g ?_⟩
  · intro g hg p hp
    rw [hgr,mem_sdiff] at hg ⊢
    obtain ⟨hp,hdel⟩ := he g p hp
    exact ⟨hl g hg.1 p hp,hdel hg.2⟩
  · rw [hgr,mem_sdiff] at hg
    exact hg.2

end Kept

end Synapse.StateGroups
