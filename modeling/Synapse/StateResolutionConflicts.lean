import Synapse.StateResolution

/-!
# The full conflicted set

Which keys are agreed on, which events are in conflict and which are in the
auth chain difference, as sets that depend neither on the order of the state
sets nor on that of any iteration.
-/

set_option autoImplicit false

namespace Synapse.StateResolution
open Python Loops References List Dict Option AList

section Agreement

variable {sets ss' : List (StateMap String)} {key : StateKey} {eventId : String}

def agreed (sets : List (StateMap String)) (key : StateKey) : Option String :=
  match eventIds sets key with
  | [some eventId] => some eventId
  | _ => none

def conflictingIds (sets : List (StateMap String)) (key : StateKey) : Finset String :=
  ((eventIds sets key).filterMap id).toFinset

theorem eventIds_nodup : (eventIds sets key).Nodup := nodup_dedup _

theorem mem_eventIds {v : Option String} :
    v ∈ eventIds sets key ↔ ∃ s ∈ sets, s.lookup key = v := by
  simp [eventIds]

theorem agreed_eq_some :
    agreed sets key = some eventId ↔ sets ≠ [] ∧ ∀ s ∈ sets, s.lookup key = some eventId := by
  have hsi : eventIds sets key = [some eventId] ↔
      sets ≠ [] ∧ ∀ s ∈ sets, s.lookup key = some eventId := by
    rw [← perm_singleton,perm_ext_iff_of_nodup eventIds_nodup (nodup_singleton _)]
    constructor
    · intro h
      obtain ⟨s,hs,-⟩ := mem_eventIds.mp ((h (some eventId)).mpr (by simp))
      refine ⟨ne_nil_of_mem hs,?_⟩
      intro s hs
      exact mem_singleton.mp ((h _).mp (mem_eventIds.mpr ⟨s,hs,rfl⟩))
    · rintro ⟨hne,ha⟩ value
      rw [mem_singleton]
      constructor
      · intro hv
        obtain ⟨s,hs,rfl⟩ := mem_eventIds.mp hv
        exact ha s hs
      · rintro rfl
        obtain ⟨s,hs⟩ := exists_mem_of_ne_nil sets hne
        exact mem_eventIds.mpr ⟨s,hs,ha s hs⟩
  rw [← hsi,agreed]
  split
  · next h => simp [h]
  · next h =>
    refine ⟨by simp,?_⟩
    intro heq
    exact absurd heq (h eventId)

theorem mem_conflictingIds :
    eventId ∈ conflictingIds sets key ↔ ∃ s ∈ sets, s.lookup key = some eventId := by
  simp [conflictingIds,mem_eventIds]

theorem mem_stateKeys :
    key ∈ stateKeys sets ↔ ∃ s ∈ sets, ∃ eventId, s.lookup key = some eventId := by
  simp only [stateKeys,List.mem_toFinset,mem_flatMap,← AList.mem_keys,
    ← lookup_isSome,isSome_iff_exists]

theorem agreed_perm (h : ss'.Perm sets) (key : StateKey) : agreed ss' key = agreed sets key := by
  apply Option.ext
  intro eventId
  rw [agreed_eq_some,agreed_eq_some]
  simp only [h.mem_iff,ne_eq,← length_eq_zero_iff,h.length_eq]

theorem seperateKey_agreed (st : StateMap String × StateMap (Finset String)) :
    seperateKey sets st key =
      match agreed sets key with
      | some eventId => (st.1.insert key eventId,st.2)
      | none => (st.1,st.2.insert key (conflictingIds sets key)) := by
  unfold seperateKey
  split
  · next eventId h => simp [agreed,h]
  · next h =>
    have hn : agreed sets key = none := by
      unfold agreed
      split
      · next eventId heq => exact absurd heq (h eventId)
      · rfl
    rw [hn]
    rfl

theorem seperate_foldl (ks : List StateKey) (st : StateMap String × StateMap (Finset String))
    (key : StateKey) :
    (ks.foldl (seperateKey sets) st).1.lookup key =
        (if key ∈ ks then (agreed sets key).or (st.1.lookup key) else st.1.lookup key) ∧
      (ks.foldl (seperateKey sets) st).2.lookup key =
        (if key ∈ ks ∧ agreed sets key = none then some (conflictingIds sets key)
          else st.2.lookup key) := by
  induction ks generalizing st with
  | nil => simp
  | cons first ks ih =>
    rw [foldl_cons]
    obtain ⟨h1,h2⟩ := ih (seperateKey sets st first)
    rw [h1,h2,seperateKey_agreed]
    by_cases hk : key = first
    · subst hk
      cases ha : agreed sets key <;> simp
    · cases agreed sets first <;> simp [hk]

theorem lookup_unconflicted (sets : List (StateMap String)) (ord : Iteration StateKey)
    (key : StateKey) : (seperate sets ord).1.lookup key = agreed sets key := by
  rw [seperate,(seperate_foldl _ _ _).1]
  split
  · simp
  · next hk =>
    rw [ord.mem] at hk
    rw [eq_comm,lookup_empty,eq_none_iff_forall_ne_some]
    intro eventId h
    obtain ⟨hne,ha⟩ := agreed_eq_some.mp h
    obtain ⟨s,hs⟩ := exists_mem_of_ne_nil sets hne
    exact hk (mem_stateKeys.mpr ⟨s,hs,eventId,ha s hs⟩)

theorem lookup_conflicted (sets : List (StateMap String)) (ord : Iteration StateKey)
    (key : StateKey) :
    (seperate sets ord).2.lookup key =
      if key ∈ stateKeys sets ∧ agreed sets key = none then some (conflictingIds sets key)
      else none := by
  rw [seperate,(seperate_foldl _ _ _).2]
  simp only [ord.mem,lookup_empty]

def Conflicted (sets : List (StateMap String)) : Prop :=
  ∃ key, key ∈ stateKeys sets ∧ agreed sets key = none

theorem conflicted_iff (ord : Iteration StateKey) :
    (seperate sets ord).2.entries ≠ [] ↔ Conflicted sets := by
  constructor
  · intro h
    obtain ⟨e,he⟩ := exists_mem_of_ne_nil _ h
    have hl := mem_lookup_iff.mpr he
    rw [lookup_conflicted] at hl
    split at hl
    · next hk => exact ⟨e.1,hk⟩
    · simp at hl
  · rintro ⟨key,hk⟩
    have hl := lookup_conflicted sets ord key
    rw [if_pos hk] at hl
    exact ne_nil_of_mem (mem_lookup_iff.mp hl)

variable {s : List (Finset String)}

theorem mem_union : eventId ∈ union s ↔ ∃ t ∈ s, eventId ∈ t := by
  induction s with
  | nil => simp [union]
  | cons t s ih =>
    change eventId ∈ t ∪ union s ↔ _
    simp [ih]

theorem mem_union_conflicted (ord : Iteration StateKey) :
    eventId ∈ union (values (seperate sets ord).2) ↔
      ∃ key, agreed sets key = none ∧ ∃ s ∈ sets, s.lookup key = some eventId := by
  simp only [mem_union,mem_values,lookup_conflicted]
  constructor
  · rintro ⟨t,⟨key,hk⟩,hm⟩
    split at hk
    · next h =>
      cases hk
      exact ⟨key,h.2,mem_conflictingIds.mp hm⟩
    · simp at hk
  · rintro ⟨key,ha,s,hs,hl⟩
    refine ⟨_,⟨key,if_pos ⟨mem_stateKeys.mpr ⟨s,hs,eventId,hl⟩,ha⟩⟩,?_⟩
    exact mem_conflictingIds.mpr ⟨s,hs,hl⟩

theorem stateKeys_perm (h : ss'.Perm sets) : stateKeys ss' = stateKeys sets := by
  ext key
  simp only [mem_stateKeys,h.mem_iff]

theorem conflicted_perm (h : ss'.Perm sets) : Conflicted ss' ↔ Conflicted sets := by
  simp only [Conflicted,stateKeys_perm h,agreed_perm h]

theorem mem_difference :
    eventId ∈ difference s ↔ (∃ t ∈ s, eventId ∈ t) ∧ ∃ t ∈ s, eventId ∉ t := by
  rw [difference,Finset.mem_filter,mem_union]

theorem difference_perm {t : List (Finset String)} (h : s.Perm t) :
    difference s = difference t := by
  ext eventId
  simp only [mem_difference,h.mem_iff]

end Agreement

section Allowance

variable {ctx : Context}

def known (ctx : Context) : Finset String :=
  ctx.eventMap.keys.toFinset ∪ ctx.store.keys.toFinset

variable {eventId : String} {event : Event}

theorem mem_known : eventId ∈ known ctx ↔ (ctx.event eventId).isSome := by
  simp [known,Context.event,lookup_isSome,AList.mem_keys]

theorem authEventIds_supported : SupportedOn ctx.authEventIds (known ctx) := by
  intro eventId h
  rw [mem_known]
  cases he : ctx.event eventId with
  | none => simp [Context.authEventIds,he] at h
  | some event => rfl

theorem authEventIds_eq (h : ctx.event eventId = some event) :
    ctx.authEventIds eventId = event.authEventIds := by
  simp [Context.authEventIds,h]

theorem event_of_map (h : ctx.eventMap.lookup eventId = some event) :
    ctx.event eventId = some event := by
  simp [Context.event,h]

variable (wf : WellFounded (Refers ctx.authEventIds))

/-- As many iterations as all searches together can take. -/
noncomputable def allowance : ℕ := 1+∑ eventId ∈ known ctx, weight wf eventId

theorem weight_le_allowance (eventId : String) : weight wf eventId ≤ allowance wf := by
  rw [allowance]
  by_cases h : eventId ∈ known ctx
  · have := Finset.single_le_sum (fun i _ => Nat.zero_le (weight wf i)) h
    omega
  · have hn : ctx.authEventIds eventId = [] := by
      by_contra hne
      exact h (authEventIds_supported eventId hne)
    rw [weight_eq,hn]
    simp

theorem card_known_le_allowance : (known ctx).card ≤ allowance wf := by
  have hc : (known ctx).card ≤ ∑ eventId ∈ known ctx, weight wf eventId := by
    rw [Finset.card_eq_sum_ones]
    exact Finset.sum_le_sum (fun eventId _ => weight_pos wf eventId)
  rw [allowance]
  omega

noncomputable def eventCost (event : Event) : ℕ :=
  1+(event.authEventIds.map (weight wf)).sum

theorem weight_event (h : ctx.event eventId = some event) :
    weight wf eventId = eventCost wf event := by
  rw [weight_eq,authEventIds_eq h,eventCost]

theorem filterMap_cost (aids : List String) :
    ((aids.filterMap ctx.eventMap.lookup).map (eventCost wf)).sum ≤ (aids.map (weight wf)).sum := by
  induction aids with
  | nil => simp
  | cons aid aids ih =>
    cases h : ctx.eventMap.lookup aid with
    | none =>
      rw [filterMap_cons,h]
      simp only [map_cons,sum_cons]
      omega
    | some event =>
      rw [filterMap_cons,h]
      simp only [map_cons,sum_cons,weight_event wf (event_of_map h)]
      omega

theorem authChainLoop_ends (n : ℕ) (ch : Finset String) (toSearch : List Event)
    (hn : (toSearch.map (eventCost wf)).sum ≤ n) :
    ∃ res, ∀ fuel, n ≤ fuel → authChainLoop ctx fuel ch toSearch = .ok res := by
  induction n generalizing ch toSearch with
  | zero =>
    cases toSearch with
    | nil => exact ⟨ch,fun fuel _ => by rw [authChainLoop]⟩
    | cons event toSearch =>
      simp [eventCost] at hn
  | succ n ih =>
    cases toSearch with
    | nil => exact ⟨ch,fun fuel _ => by rw [authChainLoop]⟩
    | cons event toSearch =>
      -- the event is replaced by events that cost less together
      have hl : (((event.authEventIds.filterMap ctx.eventMap.lookup).reverse ++
          toSearch).map (eventCost wf)).sum ≤ n := by
        have := filterMap_cost wf event.authEventIds
        rw [map_cons,sum_cons,eventCost] at hn
        rw [map_append,sum_append,map_reverse,sum_reverse]
        omega
      obtain ⟨res,hr⟩ := ih (ch ∪ event.authEventIds.toFinset) _ hl
      refine ⟨res,?_⟩
      intro fuel hf
      obtain ⟨fuel,rfl⟩ : ∃ f, fuel = f+1 := ⟨fuel-1,by omega⟩
      exact hr fuel (by omega)

theorem foldlM_returns {σ α : Type} {f : ℕ → σ → α → Result σ} {n : ℕ} {xs : List α}
    (h : ∀ x ∈ xs, ∀ s, ∃ s', ∀ fuel, n ≤ fuel → f fuel s x = .ok s') (s : σ) :
    ∃ s', ∀ fuel, n ≤ fuel → xs.foldlM (f fuel) s = .ok s' := by
  induction xs generalizing s with
  | nil => exact ⟨s,fun _ _ => rfl⟩
  | cons x xs ih =>
    obtain ⟨s',hs'⟩ := h x (by simp) s
    obtain ⟨s'',hs''⟩ := ih (fun y hy => h y (by simp [hy])) s'
    refine ⟨s'',?_⟩
    intro fuel hf
    rw [foldlM_cons,hs' fuel hf]
    exact hs'' fuel hf

theorem eventsToAuthChain_ends :
    ∃ chs, ∀ fuel, allowance wf ≤ fuel → eventsToAuthChain ctx fuel = .ok chs := by
  apply foldlM_returns
  intro event he chs
  obtain ⟨eventId,hl⟩ := (mem_values _ _).mp he
  have hc : ([event].map (eventCost wf)).sum ≤ allowance wf := by
    have := weight_le_allowance wf eventId
    rw [weight_event wf (event_of_map hl)] at this
    simpa using this
  obtain ⟨ch,hch⟩ := authChainLoop_ends wf _ {event.eventId} [event] hc
  refine ⟨chs.insert event.eventId ch,?_⟩
  intro fuel hf
  rw [addAuthChain,hch fuel hf]
  rfl

theorem getAuthChainDifference_ends (ss : List (StateMap String)) :
    ∃ authDiff, ∀ fuel, allowance wf ≤ fuel → ∀ ss' : List (StateMap String),
      ss'.Perm ss → getAuthChainDifference ctx fuel ss' = .ok authDiff := by
  obtain ⟨chs,hc⟩ := eventsToAuthChain_ends wf
  obtain ⟨authDiff,hd⟩ : ∃ authDiff, getAuthChainDifference ctx (allowance wf) ss =
      .ok authDiff := by
    rw [getAuthChainDifference,hc _ le_rfl]
    by_cases hm : ctx.eventMap.keys ≠ []
    · exact ⟨_,if_pos hm⟩
    · exact ⟨_,if_neg hm⟩
  refine ⟨authDiff,?_⟩
  intro fuel hf ss' hp
  rw [← hd,getAuthChainDifference,getAuthChainDifference,hc _ hf,hc _ le_rfl]
  simp only [storedDifference,List.map_map,difference_perm (hp.map _)]

end Allowance

section FullConflictedSet

variable {ctx : Context}

theorem mem_fetchedEvents {ord : Iteration String} {fl : Finset String} {ev : Event} :
    ev ∈ fetchedEvents ctx ord fl ↔ ev ∈ values ctx.eventMap ∨
      ∃ eid ∈ fl, ¬ inMap ctx eid ∧ ctx.store.lookup eid = some ev := by
  simp only [fetchedEvents,mem_append,mem_filterMap,ord.mem,Finset.mem_filter,and_assoc]

theorem checkRoom_eq_ok {ev : Event} : checkRoom ctx ev = .ok () ↔ ev.roomId = ctx.roomId := by
  by_cases h : ev.roomId = ctx.roomId <;> simp [checkRoom]

theorem checkRoom_ends (ev : Event) : Ends (checkRoom ctx ev) := by
  by_cases h : ev.roomId = ctx.roomId <;> simp [Ends,checkRoom,h]

theorem fullConflictedSet_alike (wf : WellFounded (Refers ctx.authEventIds))
    {orders orders' : Orders} {fuel fuel' : ℕ} {ss ss' : List (StateMap String)}
    (hf : allowance wf ≤ fuel) (hf' : allowance wf ≤ fuel') (hp : ss'.Perm ss) :
    Alike Eq (fullConflictedSet ctx orders fuel ss) (fullConflictedSet ctx orders' fuel' ss') := by
  obtain ⟨authDiff,hd⟩ := getAuthChainDifference_ends wf ss
  rw [fullConflictedSet,fullConflictedSet,hd fuel hf ss (List.Perm.refl _),hd fuel' hf' ss' hp]
  have hu : union (values (seperate ss' orders'.stateKeys).2) =
      union (values (seperate ss orders.stateKeys).2) := by
    ext eventId
    simp only [mem_union_conflicted,agreed_perm hp,hp.mem_iff]
  simp only [hu]
  refine (forEach_alike ?_ (fun ev _ => checkRoom_ends ev)).bind ?_
  · intro ev
    simp only [mem_fetchedEvents]
  · intro _ _ _
    exact rfl

theorem fullConflictedSet_room {orders : Orders} {fuel : ℕ} {ss : List (StateMap String)}
    {fl : Finset String} (h : fullConflictedSet ctx orders fuel ss = .ok fl) {eid : String}
    (hm : eid ∈ fl) : ∃ ev, ctx.event eid = some ev ∧ ev.roomId = ctx.roomId := by
  obtain ⟨authDiff,-,h⟩ := bind_eq_ok.mp h
  obtain ⟨⟨⟩,hr,h⟩ := bind_eq_ok.mp h
  cases h
  obtain ⟨hm,hk⟩ := Finset.mem_filter.mp hm
  obtain ⟨ev,he⟩ := isSome_iff_exists.mp hk
  refine ⟨ev,he,checkRoom_eq_ok.mp (forEach_eq_ok.mp hr ev ?_)⟩
  rw [mem_fetchedEvents]
  cases hl : ctx.eventMap.lookup eid with
  | some mapped =>
    rw [event_of_map hl] at he
    exact .inl ((mem_values _ _).mpr ⟨eid,he ▸ hl⟩)
  | none =>
    refine .inr ⟨eid,hm,lookup_eq_none.mp hl,?_⟩
    simpa [Context.event,hl] using he

end FullConflictedSet

end Synapse.StateResolution
