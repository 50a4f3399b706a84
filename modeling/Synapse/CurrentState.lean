import Synapse.ForwardExtremities
import Synapse.Runs

/-!
# The current state

The current state is meant to be the resolution of the state groups of the
forward extremities. It is, as long as a batch for which the calculation is
skipped hangs off an event with the state of the extremity it replaces.
-/

set_option autoImplicit false

namespace Synapse.EventPersistence
open Python Loops List Dict Option AList Finset Except

section Meaning

variable (room : Room) (after : String → ℕ)

def Room.resolution (groups : Finset ℕ) : StateMap String :=
  if groups = ∅ then ∅ else room.getState (room.resolveStateGroups groups)

def Room.ResolvesSingle : Prop :=
  ∀ group, SameLookups (room.getState (room.resolveStateGroups {group})) (room.stateForGroup group)

def stateAfter (item : NewEvent × EventContext) (before : StateMap String) : StateMap String :=
  if item.2.isRejected then before
  else
    match item.1.event.stateKey with
    | some key => before.insert (item.1.event.type,key) item.1.eventId
    | none => before

/-- The contexts of a batch give the state groups after its events, where the
state before an event is the resolution of the groups after its prev events,
and correct deltas. -/
structure GivesStates (batch : Batch) : Prop where
  mapped : ∀ item ∈ batch, item.1.outlier = false →
    mappedStateGroup item = some (after item.1.eventId)
  given : ∀ item ∈ batch, item.2.isRejected = false → ∀ group,
    item.2.ownStateGroup = some group → group = after item.1.eventId
  deltas : ∀ item ∈ batch, ∀ old new delta,
    item.2.stateGroupDeltas.lookup (old,new) = some delta →
      SameLookups (room.stateForGroup new) (update (room.stateForGroup old) delta)
  states : ∀ item ∈ batch, SameLookups (room.stateForGroup (after item.1.eventId))
    (stateAfter item (room.resolution (item.1.prevEventIds.toFinset.image after)))

/-- The stored state groups are those after the events, and the current state
is the resolution of those of the extremities. -/
structure Tracks (tables : Tables) : Prop where
  groups : ∀ e group, tables.eventToStateGroups.lookup e = some group → group = after e
  current : SameLookups tables.currentState
    (room.resolution (tables.forwardExtremities.image after))

/-- Following single prev events from an event leads out of the batch to
another one. -/
inductive HangsOff (batch : Batch) : String → String → Prop
  | out {e : String} (h : ∀ item ∈ batch, item.1.eventId ≠ e) : HangsOff batch e e
  | through {item : NewEvent × EventContext} {prev e : String} (h : item ∈ batch)
      (single : item.1.prevEventIds = [prev]) (rest : HangsOff batch prev e) :
      HangsOff batch item.1.eventId e

/-- What is required of a batch. The server stays in the room. If the batch has
only events with a single prev event that are not state, and replaces one
extremity by another, it hangs off an event with the same state as the old
extremity. -/
structure Continues (tables : Tables) (now : Circumstances) (batch : Batch)
    (_tables' : Tables) : Prop where
  gives : GivesStates room after batch
  joined : ∀ delta, now.isServerStillJoined tables batch delta = true
  hangs : ∀ fuel old new, tables.forwardExtremities = {old} →
    calculateNewExtremities tables fuel batch {old} = .ok {new} → new ≠ old →
    allSinglePrevNotState batch = true → ∃ e, HangsOff batch new e ∧
      SameLookups (room.stateForGroup (after e)) (room.stateForGroup (after old))

end Meaning

section Deltas

variable {tables : Tables} {current : StateMap String}

theorem lookup_updateCurrentState {d : DeltaState} (h : d.noLongerInRoom = false) (key : StateKey) :
    (updateCurrentState current (some d)).lookup key = (d.toInsert.lookup key).or
        (if key ∈ d.toDelete ++ d.toInsert.keys then none else current.lookup key) := by
  rw [updateCurrentState,h,if_neg (by simp),lookup_update,lookup_popAll]
  congr

theorem updateCurrentState_insert (d : StateMap String) :
    SameLookups (updateCurrentState current (some ⟨[],d,false⟩)) (update current d) := by
  intro key
  rw [lookup_updateCurrentState rfl,lookup_update]
  cases hl : d.lookup key with
  | some e => rfl
  | none =>
    have hk : key ∉ d.keys := fun hin =>
      lookup_eq_none.mp hl (mem_keys.mpr hin)
    simp [hk]

theorem lookup_toInsert (st : StateMap String) (key : StateKey) (e : String) :
    (calculateStateDelta tables st).toInsert.lookup key = some e ↔
      st.lookup key = some e ∧ some e ≠ tables.currentState.lookup key := by
  have hs : (st.entries.filter (fun en =>
      some en.2 ≠ tables.currentState.lookup en.1)).Sublist st.entries :=
    filter_sublist
  have hn := st.nodupKeys.sublist hs
  have hl : (calculateStateDelta tables st).toInsert.lookup key = (st.entries.filter (fun en =>
        some en.2 ≠ tables.currentState.lookup en.1)).dlookup key := by
    have hf := lookup_foldl_insert id _ hn ∅ key
    rw [foldl_filter,Option.map_id_fun] at hf
    simp only [decide_eq_true_eq,id_eq] at hf
    rw [calculateStateDelta,hf,lookup_empty,or_none]
  rw [hl,← Option.mem_def,mem_dlookup_iff hn,mem_filter,← mem_lookup_iff]
  simp

theorem updateCurrentState_delta (state : StateMap String) :
    SameLookups (updateCurrentState tables.currentState (some (calculateStateDelta tables state)))
      state := by
  intro key
  rw [lookup_updateCurrentState rfl]
  cases hi : (calculateStateDelta tables state).toInsert.lookup key with
  | some e => exact ((lookup_toInsert state key e).mp hi).1.symm
  | none =>
    have hn : key ∉ (calculateStateDelta tables state).toInsert.keys := fun hin =>
      lookup_eq_none.mp hi (mem_keys.mpr hin)
    rw [none_or]
    cases hs : state.lookup key with
    | none =>
      -- removed, or absent before
      split
      · rfl
      · next hk =>
        rw [mem_append,not_or] at hk
        rw [lookup_eq_none]
        intro hin
        apply hk.1
        rw [calculateStateDelta]
        simpa using ⟨mem_keys.mp hin,lookup_eq_none.mp hs⟩
    | some e =>
      -- kept, since it is neither deleted nor inserted
      have hsa : tables.currentState.lookup key = some e := by
        by_contra hne
        have hin := (lookup_toInsert state key e).mpr ⟨hs,fun h => hne h.symm⟩
        simp [hi] at hin
      have hk : key ∉ (calculateStateDelta tables state).toDelete := by
        rw [calculateStateDelta,mem_filter]
        rintro ⟨-,hg⟩
        simp only [decide_eq_true_eq] at hg
        exact hg (mem_iff_lookup.mpr ⟨e,hs⟩)
      rw [if_neg (by simp [hk,hn]),hsa]

end Deltas

section NewState

variable {r : Room} {after : String → ℕ} {tables : Tables} {now : Circumstances}
  {b : Batch}

theorem addDeltas_ok {its : Batch} {deltas deltas' : Dict (ℕ × ℕ) (StateMap String)}
    (h : its.foldlM addDeltas deltas = .ok deltas') :
    (∀ it ∈ its, it.2.isRejected = false) ∧ ∀ key d, deltas'.lookup key = some d →
      deltas.lookup key = some d ∨ ∃ it ∈ its, it.2.stateGroupDeltas.lookup key = some d := by
  induction its generalizing deltas with
  | nil =>
    cases h
    exact ⟨by simp,fun _ _ hl => .inl hl⟩
  | cons it its ih =>
    obtain ⟨deltas₁,hs,hr⟩ := bind_eq_ok.mp h
    obtain ⟨hrej,hl⟩ := ih hr
    obtain ⟨g,hg,hs⟩ := bind_eq_ok.mp hs
    have hi : it.2.isRejected = false := by
      rw [EventContext.stateGroup] at hg
      split at hg
      · simp at hg
      · simpa using ‹¬ it.2.isRejected = true›
    have hone : ∀ key d, deltas₁.lookup key = some d → deltas.lookup key = some d ∨
        it.2.stateGroupDeltas.lookup key = some d := by
      intro key d hk
      cases g with
      | some g =>
        cases hs
        rw [lookup_update] at hk
        rcases or_eq_some_iff.mp hk with hn | ⟨-,hold⟩
        · exact .inr hn
        · exact .inl hold
      | none =>
        simp only at hs
        split at hs
        · cases hs
          exact .inl hk
        · simp at hs
    refine ⟨?_,?_⟩
    · exact forall_mem_cons.mpr ⟨hi,hrej⟩
    · intro key d hk
      rcases hl key d hk with hk | ⟨o,ho,hk⟩
      · rcases hone key d hk with hold | hn
        · exact .inl hold
        · exact .inr ⟨it,by simp,hn⟩
      · exact .inr ⟨o,by simp [ho],hk⟩

theorem contextGroup_some {e : String} {g : ℕ} (h : contextGroup b e = some g) :
    ∃ it ∈ b, it.1.eventId = e ∧ it.2.ownStateGroup = some g := by
  have hm := mem_of_mem_head? (mem_def.mpr h)
  obtain ⟨it,hi,hg⟩ := mem_filterMap.mp hm
  split at hg
  · next hid => exact ⟨it,hi,hid,hg⟩
  · simp at hg

theorem checkStateGroups_ok {eids : Finset String} {u : Unit}
    (h : checkStateGroups tables now eids = .ok u) {e : String} (he : e ∈ eids) :
    ∃ g, tables.eventToStateGroups.lookup e = some g := by
  rw [checkStateGroups] at h
  split at h
  · simp at h
  · next hf =>
    have hin := find?_eq_none.mp hf e ((now.missing.mem _ _).mpr he)
    simp only [decide_eq_true_eq,not_not] at hin
    exact mem_iff_lookup.mp hin

theorem groupsOf_eq {oldLatest eids : Finset String}
    (h : ∀ e ∈ eids, stateGroupFor tables b oldLatest e = some (after e)) :
    groupsOf tables b oldLatest eids = eids.image after := by
  ext group
  rw [groupsOf,mem_biUnion,mem_image]
  constructor
  · rintro ⟨e,he,hg⟩
    rw [h e he,toFinset_some,Finset.mem_singleton] at hg
    exact ⟨e,he,hg.symm⟩
  · rintro ⟨e,he,rfl⟩
    exact ⟨e,he,by rw [h e he,toFinset_some,Finset.mem_singleton]⟩

theorem only_some {gs : Finset ℕ} {gp : ℕ} (h : only gs = some gp) : gs = {gp} := by
  rw [only] at h
  split at h
  · next hc =>
    obtain ⟨g,rfl⟩ := card_eq_one.mp hc
    simpa using h
  · simp at h

theorem pruneExtremities_ok {fuel : ℕ} {groupFor : String → Option ℕ} {nl res : Finset String}
    {resolved : ℕ} (h : pruneExtremities tables r now fuel b groupFor nl resolved = .ok res) :
    res = nl ∨ res = nl.filter (fun e => groupFor e = some resolved) := by
  simp only [pruneExtremities] at h
  split at h
  · exact .inl (ok.inj h).symm
  · obtain ⟨senders,-,h⟩ := bind_eq_ok.mp h
    obtain ⟨depth,-,h⟩ := bind_eq_ok.mp h
    obtain ⟨droppable,-,h⟩ := bind_eq_ok.mp h
    split at h
    · exact .inr (ok.inj h).symm
    · exact .inl (ok.inj h).symm

theorem resolution_singleton (hs : r.ResolvesSingle) (g : ℕ) :
    SameLookups (r.resolution {g}) (r.stateForGroup g) := by
  exact hs g

theorem keptExtremities_ok (hs : r.ResolvesSingle) {fuel : ℕ} {oldLatest nl res : Finset String}
    (hne : nl.Nonempty) (hgr : ∀ e ∈ nl, stateGroupFor tables b oldLatest e = some (after e))
    (h : keptExtremities tables r now fuel b oldLatest nl (nl.image after) = .ok res) :
    SameLookups (r.getState (r.resolveStateGroups (nl.image after)))
      (r.resolution (res.image after)) := by
  have ha : SameLookups (r.getState (r.resolveStateGroups (nl.image after)))
      (r.resolution (nl.image after)) := by
    rw [Room.resolution,if_neg (hne.image after).ne_empty]
    exact fun _ => rfl
  rw [keptExtremities] at h
  split at h
  · next gp hr =>
    split at h
    · next hin =>
      rcases pruneExtremities_ok h with rfl | rfl
      · exact ha
      · -- the extremities that are left all have the resolved group
        have hi : (nl.filter (fun e =>
            stateGroupFor tables b oldLatest e = some gp)).image after = {gp} := by
          ext g
          simp only [mem_image,Finset.mem_filter,Finset.mem_singleton]
          constructor
          · rintro ⟨e,⟨he,hg⟩,rfl⟩
            exact some.inj ((hgr e he).symm.trans hg)
          · rintro rfl
            obtain ⟨e,he,heq⟩ := mem_image.mp hin.2
            exact ⟨e,⟨he,by rw [hgr e he,heq]⟩,heq⟩
        rw [hi,hr]
        exact (resolution_singleton hs gp).symm
    · cases h
      exact ha
  · cases h
    exact ha

theorem getNewStateAfterEvents_ok (hs : r.ResolvesSingle) (hgi : GivesStates r after b)
    (ht : Tracks r after tables) {fuel : ℕ} {nl : Finset String} (hne : nl.Nonempty) {st : NewState}
    (h : getNewStateAfterEvents tables r now fuel b tables.forwardExtremities nl = .ok st) :
    SameLookups (updateCurrentState tables.currentState (deltaFor tables st))
      (r.resolution (st.latestEventIds.image after)) := by
  obtain ⟨deltas,hde,h⟩ := bind_eq_ok.mp h
  obtain ⟨u,hch,h⟩ := bind_eq_ok.mp h
  obtain ⟨hr,hl⟩ := addDeltas_ok hde
  -- every event concerned has the group after it
  have hg : ∀ e ∈ tables.forwardExtremities ∪ nl,
      stateGroupFor tables b tables.forwardExtremities e = some (after e) := by
    intro e he
    rw [stateGroupFor]
    split
    · next hm =>
      have hin : e ∈ tables.forwardExtremities ∪
          nl.filter (fun e => contextGroup b e = none) := by
        rw [Finset.mem_union,Finset.mem_filter]
        rcases mem_union.mp he with ho | hnew
        · exact .inl ho
        · exact hm.imp_right (fun hn => ⟨hnew,hn⟩)
      obtain ⟨g,hg⟩ := checkStateGroups_ok hch hin
      rw [hg,ht.groups e g hg]
    · next hf =>
      obtain ⟨g,hg⟩ := ne_none_iff_exists'.mp (not_or.mp hf).2
      obtain ⟨it,hi,rfl,hown⟩ := contextGroup_some hg
      rw [hg,hgi.given it hi (hr it hi) g hown]
  have hnew : ∀ e ∈ nl, stateGroupFor tables b tables.forwardExtremities e = some (after e) :=
    fun e he => hg e (mem_union_right _ he)
  simp only [groupsOf_eq hnew,groupsOf_eq (fun e he => hg e (mem_union_left _ he))] at h
  split at h
  · next hsa =>
    cases h
    exact hsa ▸ ht.current
  · split at h
    · next _ _ d hk =>
      cases h
      obtain ⟨new,hn',hk⟩ := bind_eq_some_iff.mp hk
      obtain ⟨old,ho,hd⟩ := bind_eq_some_iff.mp hk
      obtain ⟨it,hi,hd⟩ := (hl _ _ hd).resolve_left (by simp)
      have hb : SameLookups tables.currentState (r.stateForGroup old) := by
        have hc := ht.current
        rw [only_some ho] at hc
        exact hc.trans (resolution_singleton hs old)
      have hu : SameLookups (update tables.currentState d)
          (r.stateForGroup new) := by
        intro key
        rw [hgi.deltas it hi old new d hd key,lookup_update,lookup_update,hb key]
      simp only [only_some hn']
      exact ((updateCurrentState_insert d).trans hu).trans (resolution_singleton hs new).symm
    · next g _ hone =>
      cases h
      simp only [only_some hone]
      exact (updateCurrentState_delta _).trans (resolution_singleton hs g).symm
    · obtain ⟨kept,hke,h⟩ := bind_eq_ok.mp h
      cases h
      exact (updateCurrentState_delta _).trans (keptExtremities_ok hs hne hnew hke)

end NewState

section Calculated

variable {room : Room} {after : String → ℕ} {tables tables' : Tables} {now : Circumstances}
  {batch : Batch}

theorem HangsOff.state (hs : room.ResolvesSingle) (hg : GivesStates room after batch)
    (hn : allSinglePrevNotState batch = true) {e e' : String} (h : HangsOff batch e e') :
    SameLookups (room.stateForGroup (after e)) (room.stateForGroup (after e')) := by
  induction h with
  | out _ => exact fun _ => rfl
  | @through item prev e' hi single _ ih =>
    have hk : item.1.event.stateKey = none := by
      have hi' := all_eq_true.mp hn item hi
      simp only [decide_eq_true_eq] at hi'
      exact hi'.2
    have ha := hg.states item hi
    have hsa : stateAfter item (room.resolution {after prev}) = room.resolution {after prev} := by
      rw [stateAfter,hk]
      split <;> rfl
    rw [single] at ha
    simp only [toFinset_cons,toFinset_nil,insert_empty_eq,image_singleton,hsa] at ha
    exact (ha.trans (resolution_singleton hs _)).trans ih

theorem Continues.calculated (hs : room.ResolvesSingle) (ht : Tracks room after tables)
    (h : Continues room after tables now batch tables') {fuel : ℕ} {nl : Option (Finset String)}
    {d : Option DeltaState}
    (hc : calculateNewForwardExtremitiesAndStateDelta tables room now fuel batch = .ok (nl,d)) :
    SameLookups (updateCurrentState tables.currentState d)
      (room.resolution ((nl.getD tables.forwardExtremities).image after)) := by
  obtain ⟨new,hnew,hc⟩ := bind_eq_ok.mp hc
  split at hc
  · -- the extremities are unchanged
    obtain ⟨rfl,rfl⟩ := Prod.mk.inj (ok.inj hc)
    exact ht.current
  · next hch =>
    split at hc
    · simp at hc
    · next hne =>
      split at hc
      · -- the calculation is skipped
        next hsk =>
        obtain ⟨rfl,rfl⟩ := Prod.mk.inj (ok.inj hc)
        obtain ⟨ho,hone,hn⟩ := hsk
        obtain ⟨old,ho⟩ := card_eq_one.mp ho
        obtain ⟨e,rfl⟩ := card_eq_one.mp hone
        have hneq : e ≠ old := by
          rintro rfl
          exact hch ho.symm
        obtain ⟨e',hh,hsa⟩ := h.hangs fuel old e ho (by rw [← hnew,ho]) hneq hn
        have hcu := ht.current
        rw [ho] at hcu
        exact (hcu.trans (resolution_singleton hs _)).trans
          ((hsa.symm.trans (hh.state hs h.gives hn).symm).trans (resolution_singleton hs _).symm)
      · obtain ⟨st,hst,hc⟩ := bind_eq_ok.mp hc
        split at hc
        · simp at hc
        · obtain ⟨rfl,rfl⟩ := Prod.mk.inj (ok.inj hc)
          have hj : (deltaFor tables st).map (checkStillJoined tables now batch) =
              deltaFor tables st := by
            rw [deltaFor]
            split <;> simp [checkStillJoined,h.joined,calculateStateDelta]
          rw [hj]
          exact getNewStateAfterEvents_ok hs h.gives ht (nonempty_iff_ne_empty.mpr hne) hst

end Calculated

section Mappings

variable {after : String → ℕ}

section

variable {tables tables' : Tables} {it : NewEvent × EventContext}
  (hm : it.1.outlier = false → mappedStateGroup it = some (after it.1.eventId))
  (hg : ∀ e g, tables.eventToStateGroups.lookup e = some g → g = after e)
include hm hg

theorem storeEventStateMapping_groups (h : storeEventStateMapping tables it = .ok tables') :
    ∀ e g, tables'.eventToStateGroups.lookup e = some g → g = after e := by
  rw [storeEventStateMapping] at h
  split at h
  · cases h
    exact hg
  · next ho =>
    rw [hm (by simpa using ho)] at h
    cases h
    intro e g hl
    rw [lookup_set] at hl
    split at hl
    · next heq => rw [← some.inj hl,heq]
    · exact hg e g hl

theorem updateOutlier_groups (h : updateOutlier tables it = .ok tables') :
    ∀ e g, tables'.eventToStateGroups.lookup e = some g → g = after e := by
  rcases updateOutlier_cases h with ⟨rfl,-⟩ | ⟨row,gs,-,-,-,hmap,rfl⟩
  · exact hg
  · obtain ⟨exs,hb⟩ := updateBackwardExtremities_eq
      (clearOutlier { tables with eventToStateGroups := gs } it.1.eventId row) [it.1]
    rw [hb]
    have hm' := storeEventStateMapping_groups hm hg hmap
    exact hm'

end

variable {room : Room} {tables tables' : Tables} {batch : Batch}

theorem persistEvents_tracks (hg : GivesStates room after batch)
    (hgr : ∀ e g, tables.eventToStateGroups.lookup e = some g → g = after e)
    {nl : Option (Finset String)} {d : Option DeltaState}
    (h : persistEvents tables batch nl d = .ok tables') :
    ∀ e g, tables'.eventToStateGroups.lookup e = some g → g = after e := by
  obtain ⟨upd,sd,hu,hs,rfl⟩ := persistEvents_stages h
  obtain ⟨exs,hb⟩ := updateBackwardExtremities_eq _ _
  rw [handleMultPrevEvents,hb]
  have hk := filterDuplicates_kept batch
  obtain ⟨evs,he⟩ := storeEvents_eq (newItems tables batch) upd
  have hup := Runs.foldlM_ok_invariant (fun it hi _ _ ho hok =>
    updateOutlier_groups (hg.mapped it (hk.sub it hi)) ho hok) hgr hu
  have hst := Runs.foldlM_ok_invariant (fun it hi _ _ ho hok =>
    storeEventStateMapping_groups (hg.mapped it
      (hk.sub it (mem_newItems.mp hi).1)) ho hok) (by rw [he]; exact hup) hs
  exact hst

end Mappings

section Run

variable {room : Room} {after : String → ℕ} {tables : Tables}

theorem Reached.tracks (hs : room.ResolvesSingle) (h : Reached room (Continues room after) tables) :
    Tracks room after tables := by
  induction h with
  | start =>
    refine ⟨by simp [noTables],?_⟩
    intro key
    simp [noTables,Room.resolution]
  | @step tables tables' now fuel batch before persisted required ih =>
    obtain ⟨⟨nl,d⟩,hc,hp⟩ := bind_eq_ok.mp persisted
    refine ⟨persistEvents_tracks required.gives ih.groups hp,?_⟩
    obtain ⟨hf,hcu⟩ := persistEvents_latest hp
    rw [hcu,hf,(calculatedLatest hc).1]
    exact required.calculated hs ih hc

/-- In a run of batches that each meet the condition, the delta returned for
each batch turns the stored current state into the resolution of the state
groups of the new extremities. -/
theorem currentState_tracks_of_continues (hsingle : room.ResolvesSingle)
    (h : Reached room (Continues room after) tables) {now : Circumstances} {fuel : ℕ}
    {batch : Batch} {tables' : Tables} (hnext : Continues room after tables now batch tables')
    {newLatest : Option (Finset String)} {delta : Option DeltaState}
    (hcalc : calculateNewForwardExtremitiesAndStateDelta tables room now fuel batch =
      .ok (newLatest,delta)) :
    SameLookups (updateCurrentState tables.currentState delta)
      (room.resolution ((newLatest.getD tables.forwardExtremities).image after)) :=
  hnext.calculated hsingle (h.tracks hsingle) hcalc

end Run

def smallRoomAfter (eventId : String) : ℕ := if eventId ∈ ["$topic","$reply"] then 2 else 1

theorem smallRoom_resolvesSingle : smallRoom.ResolvesSingle := by
  intro g key
  simp [smallRoom,Room.getState]

theorem GivesStates.single {r : Room} {af : String → ℕ} {it : NewEvent × EventContext}
    (hm : mappedStateGroup it = some (af it.1.eventId))
    (hg : it.2.ownStateGroup = some (af it.1.eventId)) (hd : it.2.stateGroupDeltas = ∅)
    (hs : (r.stateForGroup (af it.1.eventId)).entries =
      (stateAfter it (r.resolution (it.1.prevEventIds.toFinset.image af))).entries) :
    GivesStates r af [it] := by
  refine ⟨?_,?_,?_,?_⟩ <;> intro o ho <;> obtain rfl := List.mem_singleton.mp ho
  · exact fun _ => hm
  · intro _ g hgr
    exact some.inj (hgr.symm.trans hg)
  · intro old new d hde
    simp [hd] at hde
  · intro key
    rw [ext hs]

theorem givesStates_create : GivesStates smallRoom smallRoomAfter [accept create 1] :=
  .single rfl rfl rfl (by decide +kernel)

def topic : Batch :=
  [softFail (smallRoomEvent "$topic" "m.room.topic" (some "") ["$create"]) 2]

def reply : Batch := [accept (smallRoomEvent "$reply" "m.room.message" none ["$topic"]) 2]

def afterTopic : Tables := afterBatch created topic

/-- A message that follows a soft-failed state event is no state event and has
a single prev event, but its state has the topic that the current state lacks. -/
theorem currentState_behind :
    smallRoom.ResolvesSingle ∧
      Reached smallRoom (fun _ now batch _ => GivesStates smallRoom smallRoomAfter batch ∧
        now = smallRoomNow) afterTopic ∧ GivesStates smallRoom smallRoomAfter reply ∧
      ∃ newLatest delta, calculateNewForwardExtremitiesAndStateDelta afterTopic smallRoom
          smallRoomNow 10 reply = .ok (newLatest,delta) ∧
        ¬ SameLookups (updateCurrentState afterTopic.currentState delta) (smallRoom.resolution
            ((newLatest.getD afterTopic.forwardExtremities).image smallRoomAfter)) := by
  refine ⟨smallRoom_resolvesSingle,?_,.single rfl rfl rfl (by decide +kernel),?_⟩
  · refine .step smallRoomNow 10 topic (.step smallRoomNow 10 _ .start
      (afterBatch_ok (by decide +kernel)) ⟨givesStates_create,rfl⟩)
      (afterBatch_ok (by decide +kernel)) ⟨.single rfl rfl rfl (by decide +kernel),rfl⟩
  · have hresult : (calculateNewForwardExtremitiesAndStateDelta afterTopic smallRoom smallRoomNow
        10 reply).toOption.map (fun r => (r.1,r.2.isNone)) = some (some {"$reply"},true) := by
      decide +kernel
    obtain ⟨⟨newLatest,delta⟩,hrun,hr⟩ := Option.map_eq_some_iff.mp hresult
    obtain ⟨rfl,hnone⟩ := Prod.mk.inj hr
    obtain rfl := isNone_iff_eq_none.mp hnone
    refine ⟨_,_,toOption_eq_some.mp hrun,?_⟩
    intro hsame
    exact absurd (hsame ("m.room.topic","")) (by decide +kernel)

def greeting : Batch := [accept (smallRoomEvent "$greeting" "m.room.message" none ["$create"]) 1]

theorem created_reached : Reached smallRoom (Continues smallRoom smallRoomAfter) created := by
  refine .step smallRoomNow 10 _ .start (afterBatch_ok (by decide +kernel))
    ⟨givesStates_create,fun _ => rfl,?_⟩
  intro fuel old new ho
  exact absurd ho (by simp [noTables])

theorem greeting_continues : Continues smallRoom smallRoomAfter created smallRoomNow greeting
    (afterBatch created greeting) := by
  refine ⟨.single rfl rfl rfl (by decide +kernel),fun _ => rfl,?_⟩
  intro fuel old new ho hc _ _
  have hl : created.forwardExtremities = {"$create"} := by decide +kernel
  obtain rfl : "$create" = old := by simpa using hl.symm.trans ho
  have hn : calculateNewExtremities created 10 greeting {"$create"} = .ok {"$greeting"} :=
    toOption_eq_some.mp (by decide +kernel)
  obtain rfl : "$greeting" = new := by
    simpa using calculateNewExtremities_unique created_reached.edgesStored hn hc
  have hi : accept (smallRoomEvent "$greeting" "m.room.message" none ["$create"]) 1 ∈
      greeting := List.mem_singleton_self _
  exact ⟨"$create",.through hi rfl (.out (by decide)),fun _ => rfl⟩

theorem currentState_tracks_of_continues_greeting :
    ∃ newLatest delta, calculateNewForwardExtremitiesAndStateDelta created smallRoom smallRoomNow
        10 greeting = .ok (newLatest,delta) ∧
      SameLookups (updateCurrentState created.currentState delta) (smallRoom.resolution
          ((newLatest.getD created.forwardExtremities).image smallRoomAfter)) := by
  have hresult : (calculateNewForwardExtremitiesAndStateDelta created smallRoom smallRoomNow
      10 greeting).toOption.isSome := by decide +kernel
  obtain ⟨result,hr⟩ := isSome_iff_exists.mp hresult
  have hrun := toOption_eq_some.mp hr
  exact ⟨result.1,result.2,hrun,currentState_tracks_of_continues smallRoom_resolvesSingle
    created_reached greeting_continues hrun⟩

end Synapse.EventPersistence
