import Synapse.StateResolutionOrder
import Synapse.StateResolutionV1

/-!
# Version 1 in any order

The state sets are split by the values that they have for each key, whatever
their order. Where the hash tells the event IDs apart there is one order of the
candidates for a key, and a key is resolved from its candidates and the auth
events of before its loop, so that no key matters to another of the same loop.
-/

set_option autoImplicit false

namespace Synapse.StateResolutionV1
open Python Loops EventAuth List Dict Option AList Finset Function EventTypes
open StateResolution (Result outcome Outcome outcome_alike stringKeys)

def valuesOf (stateSets : List (StateMap String)) (key : StateKey) : Finset String :=
  (stateSets.filterMap (fun stateSet => stateSet.lookup key)).toFinset

theorem mem_valuesOf {sts : List (StateMap String)} {key : StateKey} {v : String} :
    v ∈ valuesOf sts key ↔ ∃ sset ∈ sts, sset.lookup key = some v := by
  simp [valuesOf]

theorem valuesOf_perm {sts sts' : List (StateMap String)} (h : sts'.Perm sts) :
    valuesOf sts' = valuesOf sts := by
  ext value
  simp only [mem_valuesOf,h.mem_iff]

/-- A key with one value is not conflicted, and one with several is. -/
structure Seperated (values : StateKey → Finset String)
    (state : StateMap String × StateMap (Finset String)) : Prop where
  unconflicted : ∀ key value, state.1.lookup key = some value ↔ values key = {value}
  conflicted : ∀ key eventIds, state.2.lookup key = some eventIds ↔
    eventIds = values key ∧ 1 < (values key).card

variable {vs : StateKey → Finset String} {st : StateMap String × StateMap (Finset String)}

theorem Seperated.unique {st' : StateMap String × StateMap (Finset String)} (h : Seperated vs st)
    (h' : Seperated vs st') : SameLookups st.1 st'.1 ∧ SameLookups st.2 st'.2 := by
  constructor
  · intro key
    ext value
    rw [h.unconflicted,h'.unconflicted]
  · intro key
    ext eventIds
    rw [h.conflicted,h'.conflicted]

theorem Seperated.congr {vs' : StateKey → Finset String} (h : Seperated vs st)
    (hv : ∀ key, vs' key = vs key) : Seperated vs' st := by
  rw [funext hv]
  exact h

section AddValue

variable {key : StateKey} {va u : String}

theorem Seperated.set (h : Seperated vs st) {ids : Finset String}
    {st' : StateMap String × StateMap (Finset String)}
    (ho : ∀ key', key' ≠ key → st'.1.lookup key' = st.1.lookup key' ∧
      st'.2.lookup key' = st.2.lookup key')
    (hone : ∀ v, st'.1.lookup key = some v ↔ ids = {v})
    (hm : ∀ l, st'.2.lookup key = some l ↔ l = ids ∧ 1 < ids.card) :
    Seperated (update vs key ids) st' := by
  constructor
  · intro key' v
    by_cases hk : key' = key
    · subst hk
      rw [update_self]
      exact hone v
    · rw [update_of_ne hk,(ho key' hk).1]
      exact h.unconflicted key' v
  · intro key' l
    by_cases hk : key' = key
    · subst hk
      rw [update_self]
      exact hm l
    · rw [update_of_ne hk,(ho key' hk).2]
      exact h.conflicted key' l

theorem Seperated.first (h : Seperated vs st) (hun : st.1.lookup key = none)
    (hco : st.2.lookup key = none) (va : String) :
    Seperated (update vs key (insert va (vs key))) (st.1.insert key va,st.2) := by
  have he : vs key = ∅ := by
    rw [← card_eq_zero]
    by_contra hne
    by_cases hone : (vs key).card = 1
    · obtain ⟨v,hv⟩ := card_eq_one.mp hone
      rw [(h.unconflicted key v).mpr hv] at hun
      cases hun
    · rw [(h.conflicted key _).mpr ⟨rfl,by omega⟩] at hco
      cases hco
  apply h.set
  · intro key' hk
    exact ⟨by rw [lookup_set,if_neg hk],rfl⟩
  · rw [he]
    simp
  · rw [hco,he]
    simp

theorem Seperated.another (h : Seperated vs st) (hun : st.1.lookup key = none)
    {ls : Finset String} (hco : st.2.lookup key = some ls) (va : String) :
    Seperated (update vs key (insert va (vs key)))
      (st.1,st.2.insert key (insert va ls)) := by
  obtain ⟨rfl,hca⟩ := (h.conflicted key ls).mp hco
  have hle := card_le_card (subset_insert va (vs key))
  apply h.set
  · intro key' hk
    exact ⟨rfl,by rw [lookup_set,if_neg hk]⟩
  · intro v
    rw [hun]
    constructor
    · rintro ⟨⟩
    · intro heq
      rw [heq,card_singleton] at hle
      omega
  · intro ids
    rw [lookup_set,if_pos rfl,some.injEq,eq_comm]
    exact ⟨fun heq => ⟨heq,by omega⟩,fun hi => hi.1⟩

theorem Seperated.second (h : Seperated vs st) (hun : st.1.lookup key = some u) (hne : u ≠ va) :
    Seperated (update vs key (insert va (vs key)))
      (st.1.erase key,st.2.insert key {va,u}) := by
  have hca : ({va,u} : Finset String).card = 2 := card_pair (Ne.symm hne)
  rw [(h.unconflicted key u).mp hun]
  apply h.set
  · intro key' hk
    rw [lookup_pop,if_neg hk,lookup_set,if_neg hk]
    exact ⟨rfl,rfl⟩
  · intro v
    rw [lookup_pop,if_pos rfl]
    constructor
    · rintro ⟨⟩
    · intro heq
      rw [heq,card_singleton] at hca
      omega
  · intro ids
    rw [hca,eq_comm]
    simp

theorem seperated_addValue (h : Seperated vs st) (key : StateKey) (va : String) :
    Seperated (update vs key (insert va (vs key))) (addValue st key va) := by
  rw [addValue]
  cases hun : st.1.lookup key with
  | none =>
    cases hco : st.2.lookup key with
    | none => exact h.first hun hco va
    | some ls => exact h.another hun hco va
  | some u =>
    dsimp only
    split
    · next hne => exact h.second hun hne
    · next hs =>
      rw [(h.unconflicted key u).mp hun,not_not.mp hs,insert_eq_self.mpr (mem_singleton_self va),
        ← not_not.mp hs,← (h.unconflicted key u).mp hun,update_eq_self]
      exact h

end AddValue

theorem seperated_addStateSet (orders : Orders) (h : Seperated vs st) (sset : StateMap String) :
    Seperated (fun key => vs key ∪ (sset.lookup key).toFinset) (addStateSet orders st sset) := by
  -- the values of the keys come one after the other
  have ha : ∀ step, (∀ st key, step st key = (sset.lookup key).elim st
        (addValue st key)) → ∀ (ks : List StateKey) vs st, Seperated vs st →
      Seperated (fun key => if key ∈ ks then vs key ∪ (sset.lookup key).toFinset
        else vs key) (ks.foldl step st) := by
    intro step hs ks
    induction ks with
    | nil => exact fun vs st h => by simpa using h
    | cons first ks ih =>
      intro vs st h
      rw [foldl_cons,hs]
      cases hf : sset.lookup first with
      | none =>
        apply (ih vs st h).congr
        intro key
        by_cases hk : key = first
        · subst hk
          simp [hf]
        · simp [hk]
      | some va =>
        apply (ih _ _ (seperated_addValue h first va)).congr
        intro key
        by_cases hk : key = first
        · subst hk
          rw [hf]
          by_cases hm : key ∈ ks <;> simp [hm]
        · simp [hk]
  apply (ha _ (fun st key => by cases sset.lookup key <;> rfl)
    ((orders.stateSet sset).list sset.keys.toFinset) vs st h).congr
  intro key
  have hl : key ∈ (orders.stateSet sset).list sset.keys.toFinset ↔ key ∈ sset := by
    rw [Iteration.mem,List.mem_toFinset,AList.mem_keys]
  by_cases hk : key ∈ sset
  · rw [if_pos (hl.mpr hk)]
  · rw [lookup_eq_none.mpr hk]
    simp

theorem seperated_seperate (orders : Orders) (first : StateMap String)
    (rs : List (StateMap String)) :
    Seperated (valuesOf (first::rs)) (seperate orders first rs) := by
  induction rs using reverseRecOn with
  | nil =>
    constructor
    · intro key va
      cases hl : first.lookup key <;> simp [valuesOf,seperate,hl]
    · intro key eids
      cases hl : first.lookup key <;> simp [valuesOf,seperate,hl]
  | append_singleton rs sset ih =>
    have hv : valuesOf (first::(rs ++ [sset])) =
        fun key => valuesOf (first::rs) key ∪ (sset.lookup key).toFinset := by
      ext va
      rw [← cons_append,Finset.mem_union,mem_valuesOf,mem_valuesOf,Option.mem_toFinset]
      simp only [mem_append,List.mem_singleton,or_and_right,exists_or,exists_eq_left,Option.mem_def]
    rw [hv,seperate,foldl_append]
    exact seperated_addStateSet orders ih sset

section Events

theorem mem_unions {α : Type} [DecidableEq α] (ss : List (Finset α)) (x : α) :
    x ∈ ss.foldr (· ∪ ·) ∅ ↔ ∃ s ∈ ss, x ∈ s := by
  induction ss with
  | nil => simp
  | cons s ss ih => simp [ih]

variable (ctx : Context) (orders orders' : Orders)
  {ust ust' : StateMap String}
  {cst cst' : StateMap (Finset String)}

theorem neededEvents_eq (h : SameLookups cst cst') : neededEvents cst = neededEvents cst' := by
  ext eventId
  simp only [neededEvents,mem_unions,mem_values,h _]

theorem checkRooms_alike (ord ord' : Iteration String) (evs : Dict String StateEvent) :
    Alike (fun _ _ => True) (checkRooms ctx ord evs) (checkRooms ctx ord' evs) := by
  apply forEach_alike
  · intro eid
    rw [ord.mem,ord'.mem]
  · intro eid _
    cases evs.lookup eid with
    | none => exact ends_ok ()
    | some ev =>
      by_cases hr : ev.roomId ≠ ctx.roomId
      · simp only [if_pos hr]
        exact ends_raised _
      · simp only [if_neg hr]
        exact ends_ok ()

theorem lookup_foldl_addAuthKey (ust aes : StateMap String) (ks : List StateKey) (l : StateKey) :
    (ks.foldl (addAuthKey ust) aes).lookup l = (aes.lookup l).or
        (if l ∈ ks then (ust.lookup l).filter (· ≠ "") else none) := by
  induction ks generalizing aes with
  | nil => simp
  | cons key ks ih =>
    rw [foldl_cons,ih,addAuthKey]
    by_cases hk : l = key
    · subst hk
      by_cases hm : l ∈ aes
      · obtain ⟨eid,hl⟩ := mem_iff_lookup.mp hm
        simp [hm,hl]
      · rw [if_neg hm,lookup_assign,lookup_eq_none.mpr hm]
        grind
    · by_cases hm : key ∈ aes
      · simp [hm,hk]
      · simp [hm,hk,lookup_assign]

def gatheredKeys (stateMap : Dict String StateEvent) (eventId : String) :
    Raises (Finset StateKey) :=
  match stateMap.lookup eventId with
  | some event => authKeysOf ctx event
  | none => .ok ∅

theorem createAuthEventsFromMaps_eq (ust : StateMap String) (cst : StateMap (Finset String))
    (sm : Dict String StateEvent) :
    ∃ eids : List String, (∀ eid, eid ∈ eids ↔
      eid ∈ neededEvents cst) ∧
      createAuthEventsFromMaps ctx orders ust cst sm =
        lift (eids.mapM (gatheredKeys ctx sm)) >>= fun ks =>
          .ok (ks.foldl (fun aes ks =>
            (orders.authTypes.list ks).foldl (addAuthKey ust) aes) ∅) := by
  refine ⟨_,?_,foldlM_eq_mapM (g := gatheredKeys ctx sm) (fun aes ks =>
    (orders.authTypes.list ks).foldl (addAuthKey ust) aes) ?_ _ _⟩
  · intro eid
    simp only [mem_flatMap,Iteration.mem,List.mem_toFinset,neededEvents,mem_unions,mem_values]
    constructor
    · rintro ⟨key,hk,hm⟩
      obtain ⟨eids,hl⟩ := mem_iff_lookup.mp hk
      rw [hl] at hm
      exact ⟨eids,⟨key,hl⟩,hm⟩
    · rintro ⟨eids,⟨key,hl⟩,hm⟩
      refine ⟨key,mem_iff_lookup.mpr ⟨eids,hl⟩,?_⟩
      rw [hl]
      exact hm
  · intro aes eid
    rw [gatheredKeys]
    cases sm.lookup eid with
    | some ev => rfl
    | none =>
      have he : orders.authTypes.list ∅ = [] := by
        rw [eq_nil_iff_forall_not_mem]
        simp [orders.authTypes.mem]
      change _ = (Except.ok _ : Result (StateMap String))
      rw [he,foldl_nil]

theorem createAuthEventsFromMaps_alike (hu : SameLookups ust ust') (hc : SameLookups cst cst')
    (sm : Dict String StateEvent) :
    Alike SameLookups (createAuthEventsFromMaps ctx orders ust cst sm)
      (createAuthEventsFromMaps ctx orders' ust' cst' sm) := by
  obtain ⟨eids,hm,heq⟩ := createAuthEventsFromMaps_eq ctx orders ust cst sm
  obtain ⟨eids',hm',heq'⟩ := createAuthEventsFromMaps_eq ctx orders' ust' cst' sm
  have hs : ∀ eid, eid ∈ eids ↔ eid ∈ eids' := by
    intro eid
    rw [hm,hm',neededEvents_eq hc]
  rw [heq,heq']
  apply (mapM_alike hs).bind
  intro ks ks' hk l
  rw [← foldl_flatMap,← foldl_flatMap,lookup_foldl_addAuthKey,lookup_foldl_addAuthKey,hu l]
  simp only [mem_flatMap,Iteration.mem,hk]

end Events

section Resolve

variable (ctx : Context) (ord ord' : Orders) {auth auth' : StateMap StateEvent}

theorem isAllowed_congr (h : SameLookups auth auth') (ev : StateEvent) :
    isAllowed ctx ev auth = isAllowed ctx ev auth' := by
  rw [isAllowed,isAllowed,ctx.rules.ext _ _ _ (h.mapValues StateEvent.toEvent)]

theorem isAllowed_ends (ev : StateEvent) (auth : StateMap StateEvent) :
    Ends (isAllowed ctx ev auth) := by
  rw [isAllowed]
  split
  · exact ends_ok true
  · exact ends_ok false
  · exact ends_raised _

theorem lastAllowed_alike (h : SameLookups auth auth') (prevEvent : StateEvent)
    (evs : List StateEvent) :
    Alike Eq (lastAllowed ctx auth prevEvent evs) (lastAllowed ctx auth' prevEvent evs) := by
  induction evs generalizing auth auth' prevEvent with
  | nil => exact rfl
  | cons ev rs ih =>
    apply (ends_lift prevEvent.requireStateKey).alike_bind
    intro sk _
    have hi := h.insert (prevEvent.type,sk) prevEvent
    dsimp only
    rw [isAllowed_congr ctx hi ev]
    apply (isAllowed_ends ctx ev _).alike_bind
    intro allowed _
    cases allowed with
    | true => exact ih hi ev
    | false => exact rfl

theorem firstAllowed_alike (h : SameLookups auth auth') (evs : List StateEvent) :
    Alike Eq (firstAllowed ctx auth evs) (firstAllowed ctx auth' evs) := by
  induction evs with
  | nil => trivial
  | cons ev rs ih =>
    rw [firstAllowed,isAllowed_congr ctx h ev]
    apply (isAllowed_ends ctx ev _).alike_bind
    intro allowed _
    cases allowed with
    | true => exact rfl
    | false =>
      by_cases hr : rs = []
      · simp [hr]
        trivial
      · simpa [hr] using ih

/-- The same candidates for a key, which come in one order once sorted. -/
def SameCandidates (events events' : List StateEvent) : Prop :=
  events.Perm events' ∧ orderedEvents ctx events = orderedEvents ctx events'

theorem resolveAuthEvents_alike {evs evs' : List StateEvent} (he : SameCandidates ctx evs evs')
    (h : SameLookups auth auth') :
    Alike Eq (resolveAuthEvents ctx ord evs auth) (resolveAuthEvents ctx ord' evs' auth') := by
  rw [resolveAuthEvents,he.2]
  apply (mapM_alike (fun ev => he.1.mem_iff)).bind
  intro ks ks' hk
  have ha : SameLookups
      ((ord.authKeys.list (ks.foldr (· ∪ ·) ∅)).foldl
        (fun newAuthEvents key => assign newAuthEvents key (auth.lookup key)) ∅)
      ((ord'.authKeys.list (ks'.foldr (· ∪ ·) ∅)).foldl
        (fun newAuthEvents key => assign newAuthEvents key (auth'.lookup key)) ∅) := by
    intro l
    rw [lookup_foldl_assign,lookup_foldl_assign,h l]
    simp only [Iteration.mem,mem_unions,hk]
  match (orderedEvents ctx evs').reverse with
  | [] => trivial
  | [_] => trivial
  | prevEvent::ev::rest => exact lastAllowed_alike ctx ha prevEvent (ev::rest)

def SameConflicts (conflictedState conflictedState' : StateMap (List StateEvent)) : Prop :=
  ∀ key, Option.Rel (SameCandidates ctx) (conflictedState.lookup key) (conflictedState'.lookup key)

variable {conflictedState conflictedState' : StateMap (List StateEvent)}

section

variable (h : SameConflicts ctx conflictedState conflictedState')
include h

theorem SameConflicts.keys : conflictedState.keys.toFinset = conflictedState'.keys.toFinset := by
  ext key
  rw [List.mem_toFinset,List.mem_toFinset,← AList.mem_keys,← AList.mem_keys,← lookup_isSome,
    ← lookup_isSome]
  match conflictedState.lookup key, conflictedState'.lookup key, h key with
  | none, none, .none => exact Iff.rfl
  | some _, some _, .some _ => simp

theorem resolveKey_alike
    {p p' : StateKey → Bool} (hp : p = p') {resolve resolve' : List StateEvent → Result StateEvent}
    (hr : ∀ evs evs', SameCandidates ctx evs evs' → Alike Eq (resolve evs) (resolve' evs'))
    (key : StateKey) :
    Alike Eq (resolveKey conflictedState p resolve key)
      (resolveKey conflictedState' p' resolve' key) := by
  subst hp
  rw [resolveKey,resolveKey]
  match conflictedState.lookup key, conflictedState'.lookup key, h key with
  | none, none, .none => exact rfl
  | some evs, some evs', .some he =>
    by_cases hk : p key
    · simp only [if_pos hk]
      apply (hr evs evs' he).bind
      rintro event _ rfl
      exact rfl
    · simp only [if_neg hk]
      exact rfl

theorem resolveStateEvents_alike (ha : SameLookups auth auth') :
    Alike SameLookups (resolveStateEvents ctx ord conflictedState auth)
      (resolveStateEvents ctx ord' conflictedState' auth') := by
  have hk : ∀ (i j : Iteration StateKey) key, key ∈ i.list conflictedState.keys.toFinset ↔
      key ∈ j.list conflictedState'.keys.toFinset := by
    intro i j key
    rw [i.mem,j.mem,h.keys]
  have hl : ∀ (p : StateKey → Bool) {d d' auth auth' : StateMap StateEvent}
      {ks ks' : List StateKey}, (∀ key, key ∈ ks ↔ key ∈ ks') → SameLookups d d' →
      SameLookups auth auth' →
      Alike SameLookups (assignEach (resolveKey conflictedState p
          (resolveAuthEvents ctx ord · auth)) d ks) (assignEach (resolveKey conflictedState' p
          (resolveAuthEvents ctx ord' · auth')) d' ks') := by
    intro p d d' auth auth' ks ks' hk hd ha
    apply assignEach_alike hk hd
    intro key _
    apply resolveKey_alike ctx h rfl
    intro evs evs' he
    exact resolveAuthEvents_alike ctx ord ord' he ha
  apply (hl _ (fun _ => Iff.rfl) (fun _ => rfl) ha).bind
  intro pw pw' hp
  apply (hl _ (hk _ _) hp (ha.update hp)).bind
  intro joinRules joinRules' hjr
  have ha := (ha.update hp).update hjr
  apply (hl _ (hk _ _) hjr ha).bind
  intro ms ms' hm
  apply assignEach_alike (hk _ _) hm
  intro key _
  apply resolveKey_alike ctx h
  · funext key
    simp [hm.mem key]
  · intro evs evs' he
    rw [resolveNormalEvents,he.2]
    exact firstAllowed_alike ctx (ha.update hm) _

end

end Resolve

section Candidates

variable (ctx : Context) (orders orders' : Orders)

def onlyCandidate : List StateEvent → Option String
  | [event] => some event.eventId
  | _ => none

def rivals : List StateEvent → Option (List StateEvent)
  | [] => none
  | [_] => none
  | events => some events

theorem splitKey_eq (cids : StateMap (Finset String)) (sm : Dict String StateEvent)
    (st : StateMap String × StateMap (List StateEvent)) (key : StateKey) :
    splitKey orders cids sm st key = (assign st.1 key (onlyCandidate
        (knownEvents orders sm ((cids.lookup key).getD ∅))),assign st.2 key (rivals
        (knownEvents orders sm ((cids.lookup key).getD ∅)))) := by
  rw [splitKey]
  match knownEvents orders sm ((cids.lookup key).getD ∅) with
  | [] => rfl
  | [_] => rfl
  | _::_::_ => rfl

theorem foldl_splitKey_eq (cids : StateMap (Finset String)) (sm : Dict String StateEvent)
    (ks : List StateKey) (st : StateMap String × StateMap (List StateEvent)) :
    ks.foldl (splitKey orders cids sm) st = (ks.foldl (fun st key => assign st key (onlyCandidate
        (knownEvents orders sm ((cids.lookup key).getD ∅)))) st.1,
      ks.foldl (fun st key => assign st key (rivals
        (knownEvents orders sm ((cids.lookup key).getD ∅)))) st.2) := by
  induction ks generalizing st with
  | nil => rfl
  | cons key ks ih =>
    rw [foldl_cons,ih,splitKey_eq]
    rfl

theorem onlyCandidate_perm {evs evs' : List StateEvent} (h : evs.Perm evs') :
    onlyCandidate evs = onlyCandidate evs' := by
  match evs, evs', h.length_eq with
  | [], [], _ => rfl
  | [event], [event'], _ =>
    obtain rfl := singleton_perm_singleton.mp h
    rfl
  | _::_::_, _::_::_, _ => rfl

theorem rivals_sameCandidates {evs evs' : List StateEvent} (h : SameCandidates ctx evs evs') :
    Option.Rel (SameCandidates ctx) (rivals evs) (rivals evs') := by
  match evs, evs', h.1.length_eq with
  | [], [], _ => exact .none
  | [_], [_], _ => exact .none
  | _::_::_, _::_::_, _ => exact .some h

theorem knownEvents_sameCandidates {sm : Dict String StateEvent}
    (hke : All (fun eid ev => ev.eventId = eid) sm) {eids : Finset String}
    (hsha1 : Set.InjOn ctx.sha1 eids) :
    SameCandidates ctx (knownEvents orders sm eids) (knownEvents orders' sm eids) := by
  have hp : (knownEvents orders sm eids).Perm (knownEvents orders' sm eids) :=
    (Iteration.perm _ _ eids).filterMap _
  have hk : ∀ ev ∈ knownEvents orders sm eids,
      ev.eventId ∈ eids ∧ sm.lookup ev.eventId = some ev := by
    intro ev he
    obtain ⟨eid,hm,hl⟩ := mem_filterMap.mp he
    rw [hke eid ev hl]
    exact ⟨(Iteration.mem _ _ _).mp hm,hl⟩
  refine ⟨hp,Iteration.insertionSort_eq hp ?_⟩
  intro a ha b hb heq
  have hh : ctx.sha1 a.eventId = ctx.sha1 b.eventId := congrArg (fun key => (ofLex key).2) heq
  have hid := hsha1 (hk a ha).1 (hk b hb).1 hh
  have hl := (hk a ha).2
  rw [hid,(hk b hb).2] at hl
  exact (some.inj hl).symm

theorem resolveWithState_alike {unconflictedStateIds unconflictedStateIds' : StateMap String}
    {cids cids' : StateMap (Finset String)} {aids aids' : StateMap String}
    {sm : Dict String StateEvent} (hke : All (fun eid ev => ev.eventId = eid) sm)
    (hu : SameLookups unconflictedStateIds unconflictedStateIds') (hc : SameLookups cids cids')
    (hsha1 : All (fun _ (eids : Finset String) => Set.InjOn ctx.sha1 eids) cids)
    (ha : SameLookups aids aids') :
    Alike SameLookups (resolveWithState ctx orders unconflictedStateIds cids aids sm)
      (resolveWithState ctx orders' unconflictedStateIds' cids' aids' sm) := by
  have hca : ∀ key, SameCandidates ctx
      (knownEvents orders sm ((cids.lookup key).getD ∅))
      (knownEvents orders' sm ((cids'.lookup key).getD ∅)) := by
    intro key
    rw [← hc key]
    apply knownEvents_sameCandidates ctx orders orders' hke
    cases hl : cids.lookup key with
    | none => simp
    | some eids => exact hsha1 key eids hl
  have hk : ∀ key, key ∈ orders.conflicts.list cids.keys.toFinset ↔
      key ∈ orders'.conflicts.list cids'.keys.toFinset := by
    intro key
    rw [Iteration.mem,Iteration.mem,List.mem_toFinset,List.mem_toFinset,← AList.mem_keys,
      ← AList.mem_keys,hc.mem key]
  rw [resolveWithState,resolveWithState,foldl_splitKey_eq,foldl_splitKey_eq]
  refine (resolveStateEvents_alike ctx orders orders' ?_ ?_).bind ?_
  · intro key
    rw [lookup_foldl_assign,lookup_foldl_assign]
    split
    · next hkey =>
      rw [if_pos ((hk key).mp hkey)]
      simpa using rivals_sameCandidates ctx (hca key)
    · next hkey =>
      rw [if_neg (mt (hk key).mpr hkey)]
      exact .none
  · intro key
    rw [lookup_compose,lookup_compose,ha key]
  · intro resolved resolved' hr
    refine SameLookups.update ?_ (hr.mapValues _)
    intro key
    rw [lookup_foldl_assign,lookup_foldl_assign,onlyCandidate_perm (hca key).1,hu key]
    simp only [hk key]

end Candidates

section AnyOrder

variable (ctx : Context)

theorem stateMapFactory_keyed (eids : Finset String) :
    All (fun eid ev => ev.eventId = eid) (stateMapFactory ctx eids) := by
  intro eid ev hl
  rw [stateMapFactory,lookup_filterKeys] at hl
  split at hl
  · exact ctx.store_keyed eid ev hl
  · cases hl

theorem resolveEventsWithStore_alike {orders orders' : Orders} {sts sts' : List (StateMap String)}
    (hp : sts'.Perm sts) (hsha1 : ∀ key, Set.InjOn ctx.sha1 (valuesOf sts key)) :
    Alike SameLookups (resolveEventsWithStore ctx orders sts)
      (resolveEventsWithStore ctx orders' sts') := by
  match sts, sts', hp.length_eq with
  | [], [], _ => trivial
  | [stateSet], [stateSet'], _ =>
    obtain rfl := singleton_perm_singleton.mp hp
    exact fun _ => rfl
  | first::second::rest, first'::second'::rest', _ =>
    have hs := seperated_seperate orders first (second::rest)
    have hs' := seperated_seperate orders' first' (second'::rest')
    rw [valuesOf_perm hp] at hs'
    obtain ⟨hu,hc⟩ := hs.unique hs'
    have hi : All (fun _ (eids : Finset String) => Set.InjOn ctx.sha1 eids)
        (seperate orders first (second::rest)).2 := by
      intro key eids hl
      rw [((hs.conflicted key eids).mp hl).1]
      exact hsha1 key
    rw [resolveEventsWithStore,resolveEventsWithStore]
    · dsimp only
      rw [← neededEvents_eq hc]
      apply (checkRooms_alike ctx _ _ _).bind
      intro _ _ _
      apply (createAuthEventsFromMaps_alike ctx orders orders' hu hc _).bind
      intro aes aes' ha
      have hv : (values aes).toFinset = (values aes').toFinset := by
        ext eventId
        simp only [List.mem_toFinset,mem_values,ha _]
      rw [hv]
      apply (checkRooms_alike ctx _ _ _).bind
      intro _ _ _
      apply resolveWithState_alike ctx orders orders' _ hu hc hi ha
      apply All.update
      · exact (stateMapFactory_keyed ctx _).update ctx.eventMap_keyed
      · exact stateMapFactory_keyed ctx _
    · exact nofun
    · exact nofun

/-- Where the hash tells the events for a key apart, resolving the state sets in
any order and iterating in any orders has the same outcome. -/
theorem resolveV1_order_independent (stateSets : List (StateMap String))
    (hsha1 : ∀ key, Set.InjOn ctx.sha1 (valuesOf stateSets key)) :
    ∃ result, ∀ (orders : Orders) (stateSets' : List (StateMap String)), stateSets'.Perm stateSets →
        outcome (resolveEventsWithStore ctx orders stateSets') = some result := by
  have orders : Orders :=
    ⟨fun _ => default,default,default,default,default,default,default,default,default,default,
      default,default⟩
  obtain ⟨result,hresult⟩ := isSome_iff_exists.mp
    (outcome_alike (resolveEventsWithStore_alike ctx (List.Perm.refl stateSets) hsha1 :
      Alike SameLookups (resolveEventsWithStore ctx orders stateSets)
        (resolveEventsWithStore ctx orders stateSets))).2
  refine ⟨result,?_⟩
  intro orders' stateSets' hperm
  rw [← hresult]
  exact (outcome_alike (resolveEventsWithStore_alike ctx hperm hsha1)).1.symm

end AnyOrder

section TopicRoom
open StateResolution (topicRoomEvent topicForks)

def storeEvent (store : Dict String StateEvent) (event : StateEvent) : Dict String StateEvent :=
  store.insert event.eventId event

theorem storeEvents_keyed (evs : List StateEvent) :
    All (fun eid ev => ev.eventId = eid) (evs.foldl storeEvent ∅) := by
  induction evs using reverseRecOn with
  | nil => exact all_empty _
  | append_singleton evs ev ih =>
    rw [foldl_append]
    exact ih.set rfl

def versionOneEvent (eventId type key : String) (content : JsonDict) (authEventIds : List String)
    (depth : ℤ) : StateEvent :=
  { topicRoomEvent eventId type key content authEventIds depth with
    roomVersion := .v1, depth := depth }

def topicRoom : Context where
  roomId := "!r:x"
  roomVersion := .v1
  eventMap := ∅
  eventMap_keyed := all_empty _
  store := [versionOneEvent "$create" create "" [("creator",.str "@a:x")] [] 1,
    versionOneEvent "$join" member "@a:x" [("membership",.str Membership.join)]
      ["$create"] 2,
    versionOneEvent "$rules" EventTypes.joinRules "" [] ["$create","$join"] 3,
    versionOneEvent "$first" "m.room.topic" "" [] ["$create","$join"] 4,
    versionOneEvent "$second" "m.room.topic" "" [] ["$create","$join"] 5].foldl storeEvent ∅
  store_keyed := storeEvents_keyed _
  rules := Synapse.StateResolution.eventAuthRules default
  sha1 := id

theorem resolveV1_order_independent_topicRoom :
    (∀ key, Set.InjOn topicRoom.sha1 (valuesOf topicForks key)) ∧
      ∃ result, ∀ (orders : Orders) (stateSets' : List (StateMap String)),
        stateSets'.Perm topicForks →
          outcome (resolveEventsWithStore topicRoom orders stateSets') = some result :=
  ⟨fun _ => Set.injOn_id _,
    resolveV1_order_independent topicRoom topicForks (fun _ => Set.injOn_id _)⟩

def byKey : Iteration StateKey := Iteration.sortedBy toLex toLex.injective

def byId : Iteration String := Iteration.sortedBy id injective_id

def inIncreasingOrder : Orders :=
  ⟨fun _ => byKey,byKey,byId,byKey,byId,byId,byKey,byId,byKey,byKey,byKey,byKey⟩

-- the deeper topic is allowed, and is what the room has
example : ((resolveEventsWithStore topicRoom inIncreasingOrder topicForks).toOption.map
    (·.lookup ("m.room.topic",""))) = some (some "$second") := by decide +kernel

end TopicRoom

end Synapse.StateResolutionV1
