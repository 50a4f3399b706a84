import Synapse.StateResolutionConflicts

/-!
# The two sorts of state resolution

The graph of the power events holds exactly what they lead to within the full
conflicted set, so its sort does not depend on how it was built. The leftovers
are sorted by a key that ends in the event ID.
-/

set_option autoImplicit false

namespace Synapse.StateResolution
open Python Loops References TopologicalSort
open List Option Finset Except

section Lookups

variable {ctx : Context} {rid : String}

theorem getEventOrNone_ends (eid : String) : Ends (getEventOrNone ctx rid eid) := by
  unfold getEventOrNone
  split
  · exact ends_ok _
  · split
    · exact ends_raised _
    · exact ends_ok _

variable {eid : String}

theorem getEventOrNone_ok {ev : Option Event}
    (h : getEventOrNone ctx rid eid = .ok ev) : ctx.event eid = ev := by
  unfold getEventOrNone at h
  split at h
  · next hn => exact hn.trans (ok.inj h)
  · next fd hs =>
    split at h
    · simp at h
    · exact hs.trans (ok.inj h)

theorem getEvent_ends (eid : String) : Ends (getEvent ctx rid eid) := by
  refine (getEventOrNone_ends eid).bind ?_
  intro ev _
  cases ev with
  | none => exact ends_raised _
  | some ev => exact ends_ok _

theorem getEvent_ok {ev : Event} (h : getEvent ctx rid eid = .ok ev) : ctx.event eid = some ev := by
  obtain ⟨fd,hf,h⟩ := bind_eq_ok.mp h
  cases fd with
  | none => simp at h
  | some fd =>
    cases h
    exact getEventOrNone_ok hf

theorem getEvent_of_room {ev : Event} (h : ctx.event eid = some ev)
    (hroom : ev.roomId = rid) : getEvent ctx rid eid = .ok ev := by
  simp [getEvent,getEventOrNone,h,hroom]

theorem mappedEvent_ends (eid : String) : Ends (mappedEvent ctx eid) := by
  unfold mappedEvent
  split
  · exact ends_ok _
  · exact ends_raised _

theorem mappedEvent_eq_ok {ev : Event} :
    mappedEvent ctx eid = .ok ev ↔ ctx.event eid = some ev := by
  unfold mappedEvent
  split
  · next fd h => simp [h]
  · next h => simp [h]

theorem findAuthEvent_ends (type : String) (aids : List String) :
    Ends (findAuthEvent ctx rid type aids) := by
  induction aids with
  | nil => exact ends_ok _
  | cons aid aids ih =>
    refine (getEventOrNone_ends aid).bind ?_
    intro aev _
    cases aev with
    | none => exact ih
    | some aev =>
      refine (ends_lift _).bind ?_
      intro sk _
      split
      · exact ends_ok _
      · exact ih

theorem findAuthEvent_ok {type : String} {aids : List String} {aid : String} {aev : Event}
    (h : findAuthEvent ctx rid type aids = .ok (some (aid,aev))) :
    aid ∈ aids ∧ ctx.event aid = some aev := by
  induction aids with
  | nil => simp [findAuthEvent] at h
  | cons first aids ih =>
    obtain ⟨fd,hf,h⟩ := bind_eq_ok.mp h
    cases fd with
    | none =>
      obtain ⟨hm,hev⟩ := ih h
      exact ⟨by simp [hm],hev⟩
    | some fd =>
      obtain ⟨sk,-,h⟩ := bind_eq_ok.mp h
      split at h
      · obtain ⟨rfl,rfl⟩ := Prod.mk.inj (some.inj (ok.inj h))
        exact ⟨by simp,getEventOrNone_ok hf⟩
      · obtain ⟨hm,hev⟩ := ih h
        exact ⟨by simp [hm],hev⟩

theorem getPowerLevelForSender_ends (eid : String) : Ends (getPowerLevelForSender ctx eid) := by
  refine (getEvent_ends eid).bind ?_
  intro ev _
  refine (findAuthEvent_ends _ _).bind ?_
  intro pl _
  cases pl with
  | some pl => exact ends_lift _
  | none =>
    refine (findAuthEvent_ends _ _).bind ?_
    intro create _
    cases create <;> exact ends_ok _

end Lookups

section Graph

variable {ctx : Context} {full : Finset String}

/-- The first event is an auth event of the second and in the full conflicted
set. -/
def Leads (ctx : Context) (full : Finset String) (a b : String) : Prop :=
  a ∈ full ∧ Refers ctx.authEventIds a b

/-- The graph while the auth chains of `roots` are being added to it. -/
structure Collected (ctx : Context) (full : Finset String) (roots : Set String)
    (graph : Graph String) (state : List String) : Prop where
  edges : ∀ eid ∈ nodesOf graph, ∀ aid, aid ∈ edgesOf graph eid ↔ Leads ctx full aid eid
  closed : ∀ eid ∈ nodesOf graph, ∀ aid, Leads ctx full aid eid → aid ∈ nodesOf graph ∨ aid ∈ state
  added : ∀ eid ∈ roots, eid ∈ nodesOf graph ∨ eid ∈ state
  within : ∀ eid, eid ∈ nodesOf graph ∨ eid ∈ state → eid ∈ full
  reached : ∀ eid, eid ∈ nodesOf graph ∨ eid ∈ state →
    ∃ root ∈ roots, Relation.ReflTransGen (Leads ctx full) eid root

theorem collected_empty : Collected ctx full ∅ ∅ [] := by
  constructor <;> simp [nodesOf]

variable {gr : Graph String}

theorem mem_nodesOf_insert {eid x : String} {tgs : Finset String} :
    x ∈ nodesOf (gr.insert eid tgs) ↔ x = eid ∨ x ∈ nodesOf gr := by
  rw [mem_nodesOf,mem_nodesOf,Dict.lookup_set]
  by_cases h : x = eid <;> simp [h]

theorem edgesOf_insert {eid x : String} {tgs : Finset String} :
    edgesOf (gr.insert eid tgs) x = if x = eid then tgs else edgesOf gr x := by
  rw [edgesOf,Dict.lookup_set]
  split <;> rfl

variable {eid : String}

theorem edgesOf_eq_empty (h : eid ∉ nodesOf gr) : edgesOf gr eid = ∅ := by
  rw [mem_nodesOf,not_isSome_iff_eq_none] at h
  rw [edgesOf,h]
  rfl

variable {rt : Set String}

theorem Collected.pop {st : List String}
    (h : Collected ctx full rt gr (eid::st)) {ev : Event} (he : ctx.event eid = some ev) :
    Collected ctx full rt (addToGraph full gr eid ev.authEventIds).1
      ((addToGraph full gr eid ev.authEventIds).2.reverse ++ st) := by
  have hl : ∀ aid, Leads ctx full aid eid ↔ aid ∈ full ∧ aid ∈ ev.authEventIds := by
    intro aid
    rw [Leads,Refers,authEventIds_eq he]
  have hp : ∀ aid, aid ∈ (addToGraph full gr eid ev.authEventIds).2 ↔
      Leads ctx full aid eid ∧ aid ∉ nodesOf (addToGraph full gr eid ev.authEventIds).1 := by
    simp only [addToGraph,mem_filter,decide_eq_true_eq,hl,mem_nodesOf,AList.lookup_isSome]
    tauto
  have hn : ∀ x, x ∈ nodesOf (addToGraph full gr eid ev.authEventIds).1 ↔
      x = eid ∨ x ∈ nodesOf gr := fun x => mem_nodesOf_insert
  have hw := h.within eid (by simp)
  obtain ⟨root,hr,hre⟩ := h.reached eid (by simp)
  refine ⟨?_,?_,?_,?_,?_⟩
  · intro x hx aid
    rw [addToGraph,edgesOf_insert]
    split
    · next hxe =>
      subst hxe
      simp only [Finset.mem_union,List.mem_toFinset,List.mem_filter,decide_eq_true_eq]
      by_cases ho : x ∈ nodesOf gr
      · rw [h.edges x ho aid,hl]
        tauto
      · simp only [edgesOf_eq_empty ho,hl]
        tauto
    · next hxe => exact h.edges x (((hn x).mp hx).resolve_left hxe) aid
  · intro x hx aid ha
    by_cases hin : aid ∈ nodesOf (addToGraph full gr eid ev.authEventIds).1
    · exact .inl hin
    · refine .inr ?_
      rw [mem_append,mem_reverse]
      rcases (hn x).mp hx with rfl | ho
      · exact .inl ((hp aid).mpr ⟨ha,hin⟩)
      · rw [hn,not_or] at hin
        have := (h.closed x ho aid ha).resolve_left hin.2
        exact .inr ((mem_cons.mp this).resolve_left hin.1)
  · intro x hx
    rw [hn,mem_append]
    rcases h.added x hx with ho | hm
    · exact .inl (.inr ho)
    · rcases mem_cons.mp hm with rfl | hm
      · exact .inl (.inl rfl)
      · exact .inr (.inr hm)
  · intro x hx
    rw [hn,mem_append,mem_reverse,hp] at hx
    rcases hx with (rfl | ho) | ⟨hle,-⟩ | hm
    · exact hw
    · exact h.within x (.inl ho)
    · exact hle.1
    · exact h.within x (.inr (by simp [hm]))
  · intro x hx
    rw [hn,mem_append,mem_reverse,hp] at hx
    rcases hx with (rfl | ho) | ⟨hle,-⟩ | hm
    · exact ⟨root,hr,hre⟩
    · exact h.reached x (.inl ho)
    · exact ⟨root,hr,hre.head hle⟩
    · exact h.reached x (.inr (by simp [hm]))

theorem addEventAndAuthChainToGraph_collected {fuel : ℕ} {gr gr' : Graph String}
    {st : List String} (hc : Collected ctx full rt gr st)
    (h : addEventAndAuthChainToGraph ctx full fuel gr st = .ok gr') :
    Collected ctx full rt gr' [] := by
  induction fuel generalizing gr st with
  | zero =>
    cases st with
    | nil => exact ok.inj h ▸ hc
    | cons eid st => simp [addEventAndAuthChainToGraph] at h
  | succ fuel ih =>
    cases st with
    | nil =>
      exact ok.inj h ▸ hc
    | cons eid st =>
      obtain ⟨ev,he,h⟩ := bind_eq_ok.mp h
      exact ih (hc.pop (getEvent_ok he)) h

theorem Collected.mem_iff (h : Collected ctx full rt gr []) :
    eid ∈ nodesOf gr ↔ ∃ root ∈ rt, Relation.ReflTransGen (Leads ctx full) eid root := by
  constructor
  · intro hm
    exact h.reached eid (.inl hm)
  · rintro ⟨root,hr,hre⟩
    have hs : root ∈ nodesOf gr := by simpa using h.added root hr
    induction hre using Relation.ReflTransGen.head_induction_on with
    | refl => exact hs
    | head hl _ ih => simpa using h.closed _ ih _ hl

theorem Collected.unique {gr gr' : Graph String} (h : Collected ctx full rt gr [])
    (h' : Collected ctx full rt gr' []) : nodesOf gr = nodesOf gr' ∧ edgesOf gr = edgesOf gr' := by
  have hn : ∀ eid, eid ∈ nodesOf gr ↔ eid ∈ nodesOf gr' := by
    intro eid
    rw [h.mem_iff,h'.mem_iff]
  refine ⟨ext hn,funext ?_⟩
  intro eid
  by_cases hm : eid ∈ nodesOf gr
  · ext aid
    rw [h.edges eid hm,h'.edges eid ((hn eid).mp hm)]
  · rw [edgesOf_eq_empty hm,edgesOf_eq_empty (fun h => hm ((hn eid).mpr h))]

end Graph

section PowerSort

variable {ctx : Context} {fl : Finset String}

def powerRoots (ctx : Context) (eventIds : List String) : Set String :=
  {eventId | eventId ∈ eventIds ∧ ∃ event, ctx.event eventId = some event ∧
    isPowerEvent event = .ok true}

variable {rt : Set String}

theorem Collected.root {gr : Graph String} (h : Collected ctx fl rt gr [])
    {ei : String} (hm : ei ∈ fl) : Collected ctx fl (insert ei rt) gr [ei] := by
  have hc : ∀ {eid : String}, eid ∈ nodesOf gr ∨ eid ∈ [ei] → eid ∈ nodesOf gr ∨ eid = ei := by simp
  refine ⟨h.edges,?_,?_,?_,?_⟩
  · intro eid hm aid hl
    exact .inl (by simpa using h.closed eid hm aid hl)
  · rintro eid (rfl | hr)
    · simp
    · exact .inl (by simpa using h.added eid hr)
  · intro eid hin
    rcases hc hin with hin | rfl
    · exact h.within eid (.inl hin)
    · exact hm
  · intro eid hin
    rcases hc hin with hin | rfl
    · obtain ⟨root,hr,hre⟩ := h.reached eid (.inl hin)
      exact ⟨root,Set.mem_insert_of_mem _ hr,hre⟩
    · exact ⟨eid,Set.mem_insert _ _,.refl⟩

theorem addIfPowerEvent_collected {fuel : ℕ} {gr gr' : Graph String}
    {eid : String} (hc : Collected ctx fl rt gr []) (hm : eid ∈ fl)
    (h : addIfPowerEvent ctx fl fuel gr eid = .ok gr') :
    Collected ctx fl (rt ∪ powerRoots ctx [eid]) gr' [] ∧
      ∃ ev pw, ctx.event eid = some ev ∧ isPowerEvent ev = .ok pw := by
  obtain ⟨ev,he,h⟩ := bind_eq_ok.mp h
  obtain ⟨pw,hp,h⟩ := bind_eq_ok.mp h
  rw [mappedEvent_eq_ok] at he
  have hp' : isPowerEvent ev = .ok pw := by
    cases hraw : isPowerEvent ev with
    | error e => simp [hraw,lift] at hp
    | ok b => simpa [hraw,lift] using hp
  refine ⟨?_,ev,pw,he,hp'⟩
  cases pw with
  | true =>
    have hr : rt ∪ powerRoots ctx [eid] = insert eid rt := by
      ext x
      simp only [powerRoots,List.mem_singleton]
      constructor
      · rintro (hx | ⟨rfl,-⟩)
        · exact .inr hx
        · exact .inl rfl
      · rintro (rfl | hx)
        · exact .inr ⟨rfl,ev,he,hp'⟩
        · exact .inl hx
    rw [hr]
    exact addEventAndAuthChainToGraph_collected (hc.root hm) h
  | false =>
    have hr : rt ∪ powerRoots ctx [eid] = rt := by
      rw [Set.union_eq_left]
      rintro x ⟨hx,o,ho,ht⟩
      obtain rfl := List.mem_singleton.mp hx
      obtain rfl := some.inj (he.symm.trans ho)
      simp [hp'] at ht
    cases h
    rw [hr]
    exact hc

theorem powerRoots_cons (eid : String) (eids : List String) :
    powerRoots ctx (eid::eids) = powerRoots ctx [eid] ∪ powerRoots ctx eids := by
  ext x
  simp only [powerRoots,Set.mem_union,Set.mem_ofPred_eq,List.mem_cons,not_mem_nil,or_false,
    or_and_right]

theorem addPowerEvents_collected {fuel : ℕ} {gr gr' : Graph String}
    {eids : List String} (hc : Collected ctx fl rt gr []) (hm : ∀ eid ∈ eids, eid ∈ fl)
    (h : eids.foldlM (addIfPowerEvent ctx fl fuel) gr = .ok gr') :
    Collected ctx fl (rt ∪ powerRoots ctx eids) gr' [] ∧
      ∀ eid ∈ eids, ∃ ev pw, ctx.event eid = some ev ∧ isPowerEvent ev = .ok pw := by
  induction eids generalizing rt gr with
  | nil =>
    cases h
    simpa [powerRoots] using hc
  | cons eid eids ih =>
    obtain ⟨next,hn,h⟩ := bind_eq_ok.mp h
    obtain ⟨hc',hk⟩ := addIfPowerEvent_collected hc (hm eid (by simp)) hn
    obtain ⟨hf,hr⟩ := ih hc' (fun x hx => hm x (by simp [hx])) h
    refine ⟨?_,forall_mem_cons.mpr ⟨hk,hr⟩⟩
    rw [powerRoots_cons,← Set.union_assoc]
    exact hf

section Termination

variable (wf : WellFounded (Refers ctx.authEventIds))
variable (hroom : ∀ eventId ∈ fl, ∃ event, ctx.event eventId = some event ∧
  event.roomId = ctx.roomId)

include hroom in
theorem addEventAndAuthChainToGraph_returns {fuel : ℕ} {gr : Graph String} {st : List String}
    (hm : ∀ eid ∈ st, eid ∈ fl) (hf : (st.map (weight wf)).sum ≤ fuel) :
    ∃ gr', addEventAndAuthChainToGraph ctx fl fuel gr st = .ok gr' := by
  induction fuel generalizing gr st with
  | zero =>
    cases st with
    | nil => exact ⟨gr,rfl⟩
    | cons eid st =>
      have := weight_pos wf eid
      rw [List.map_cons,List.sum_cons] at hf
      omega
  | succ fuel ih =>
    cases st with
    | nil => exact ⟨gr,rfl⟩
    | cons eid st =>
      obtain ⟨ev,he,hin⟩ := hroom eid (hm eid (by simp))
      rw [addEventAndAuthChainToGraph,getEvent_of_room he hin]
      change ∃ gr', addEventAndAuthChainToGraph ctx fl fuel (addToGraph fl gr eid ev.authEventIds).1
        ((addToGraph fl gr eid ev.authEventIds).2.reverse ++ st) = .ok gr'
      apply ih
      · intro x hx
        rcases mem_append.mp hx with hx | hx
        · simp only [addToGraph,mem_reverse,List.mem_filter,decide_eq_true_eq] at hx
          exact hx.1.2
        · exact hm x (by simp [hx])
      · -- the auth events weigh less together than the event they replace
        have hl : ((addToGraph fl gr eid ev.authEventIds).2.map (weight wf)).sum ≤
            (ev.authEventIds.map (weight wf)).sum := by
          apply List.Sublist.sum_le_sum _ (fun _ _ => Nat.zero_le _)
          exact (filter_sublist.trans filter_sublist).map _
        rw [List.map_cons,List.sum_cons,weight_eq,authEventIds_eq he] at hf
        rw [map_append,sum_append,map_reverse,sum_reverse]
        omega

include wf hroom in
theorem addPowerEvents_ends {fuel : ℕ} (hf : allowance wf ≤ fuel) (gr : Graph String)
    {eids : List String} (hm : ∀ ei ∈ eids, ei ∈ fl) :
    Ends (eids.foldlM (addIfPowerEvent ctx fl fuel) gr) := by
  apply foldlM_ends
  intro ei hin gr
  refine (mappedEvent_ends ei).bind ?_
  intro ev _
  refine (ends_lift _).bind ?_
  intro pw _
  split
  · have hs : ∀ eid ∈ [ei], eid ∈ fl := by simpa using hm ei hin
    have hc : ([ei].map (weight wf)).sum ≤ fuel := by
      simpa using (weight_le_allowance wf ei).trans hf
    obtain ⟨gr',h⟩ := addEventAndAuthChainToGraph_returns wf hroom hs hc
    rw [h]
    exact ends_ok _
  · exact ends_ok _

include wf hroom in
theorem addPowerEvents_returns {fuel : ℕ} (hf : allowance wf ≤ fuel) (gr : Graph String)
    {eids : List String} (hm : ∀ eid ∈ eids, eid ∈ fl)
    (hp : ∀ eid ∈ eids, ∃ ev pw, ctx.event eid = some ev ∧ isPowerEvent ev = .ok pw) :
    ∃ gr', eids.foldlM (addIfPowerEvent ctx fl fuel) gr = .ok gr' := by
  induction eids generalizing gr with
  | nil => exact ⟨gr,rfl⟩
  | cons eid eids ih =>
    obtain ⟨ev,pw,he,hok⟩ := hp eid (by simp)
    have hs : ∃ next, addIfPowerEvent ctx fl fuel gr eid = .ok next := by
      rw [addIfPowerEvent,mappedEvent_eq_ok.mpr he,ok_bind,hok]
      cases pw with
      | true =>
        exact addEventAndAuthChainToGraph_returns wf hroom (by simpa using hm eid (by simp))
          (by simpa using (weight_le_allowance wf eid).trans hf)
      | false => exact ⟨gr,rfl⟩
    obtain ⟨next,hn⟩ := hs
    rw [foldlM_cons,hn]
    exact ih next (fun x hx => hm x (by simp [hx])) (fun x hx => hp x (by simp [hx]))

end Termination

theorem getPowerOrder_injective (eventToPl : Dict String ℤ) :
    Function.Injective (getPowerOrder ctx eventToPl) := by
  intro a b h
  simp only [getPowerOrder,EmbeddingLike.apply_eq_iff_eq,Prod.mk.injEq] at h
  exact h.2.2

theorem Collected.card_le {gr : Graph String} (h : Collected ctx fl rt gr []) :
    (nodesOf gr).card ≤ fl.card :=
  card_le_card (fun eid hm => h.within eid (.inl hm))

section

variable (wf : WellFounded (Refers ctx.authEventIds))
include wf

section

variable (hroom : ∀ eid ∈ fl, ∃ ev, ctx.event eid = some ev ∧ ev.roomId = ctx.roomId)
include hroom

theorem addPowerEvents_alike {fuel fuel' : ℕ}
    (hf : allowance wf ≤ fuel) (hf' : allowance wf ≤ fuel') {eids eids' : List String}
    (hm : ∀ eid, eid ∈ eids ↔ eid ∈ fl) (hm' : ∀ eid, eid ∈ eids' ↔ eid ∈ fl) :
    Alike (fun gr gr' => ∃ rt, Collected ctx fl rt gr [] ∧
        Collected ctx fl rt gr' []) (eids.foldlM (addIfPowerEvent ctx fl fuel) ∅)
      (eids'.foldlM (addIfPowerEvent ctx fl fuel') ∅) := by
  have hin : ∀ eid ∈ eids, eid ∈ fl := fun x => (hm x).mp
  have hin' : ∀ eid ∈ eids', eid ∈ fl := fun x => (hm' x).mp
  have hi : ∀ eid, eid ∈ eids ↔ eid ∈ eids' := by
    intro x
    rw [hm,hm']
  cases hx : eids.foldlM (addIfPowerEvent ctx fl fuel) ∅ with
  | ok gr =>
    obtain ⟨hc,hp⟩ := addPowerEvents_collected collected_empty hin hx
    obtain ⟨gr',hy⟩ := addPowerEvents_returns wf hroom hf' ∅ hin' (fun x hx => hp x ((hi x).mpr hx))
    obtain ⟨hc',-⟩ := addPowerEvents_collected collected_empty hin' hy
    have hr : powerRoots ctx eids' = powerRoots ctx eids := by
      simp only [powerRoots,hi]
    rw [hy]
    exact ⟨_,hc,hr ▸ hc'⟩
  | error e =>
    cases hy : eids'.foldlM (addIfPowerEvent ctx fl fuel') ∅ with
    | ok gr' =>
      obtain ⟨-,hp⟩ := addPowerEvents_collected collected_empty hin' hy
      obtain ⟨gr,hre⟩ := addPowerEvents_returns wf hroom hf ∅ hin (fun x hx => hp x ((hi x).mp hx))
      simp [hre] at hx
    | error e' =>
      exact alike_error (hx ▸ addPowerEvents_ends wf hroom hf ∅ hin)
        (hy ▸ addPowerEvents_ends wf hroom hf' ∅ hin')

theorem card_full_le :
    fl.card ≤ allowance wf := by
  refine le_trans (card_le_card ?_) (card_known_le_allowance wf)
  intro eid hm
  obtain ⟨ev,he,-⟩ := hroom eid hm
  rw [mem_known,he]
  rfl

theorem reverseTopologicalPowerSort_alike {orders orders' : Orders}
    {fuel fuel' : ℕ} (hf : allowance wf ≤ fuel) (hf' : allowance wf ≤ fuel') :
    Alike Eq (reverseTopologicalPowerSort ctx fl orders fuel)
      (reverseTopologicalPowerSort ctx fl orders' fuel') := by
  have hca := card_full_le wf hroom
  refine (addPowerEvents_alike wf hroom hf hf' (orders.powerEvents.mem fl)
    (orders'.powerEvents.mem fl)).bind ?_
  rintro graph gr' ⟨rt,hc,hc'⟩
  obtain ⟨hn,he⟩ := hc.unique hc'
  refine (assignEach_alike ?_ (fun _ => rfl) ?_).bind ?_
  · intro eid
    rw [Iteration.mem,Iteration.mem,hn]
  · intro eid _
    exact ((getPowerLevelForSender_ends eid).bind (fun lv _ => ends_ok _)).alike
  · intro eventToPl eventToPl' hsa
    obtain ⟨srt,hs⟩ := isSome_iff_exists.mp
      (lexicographicalTopologicalSort_isSome (getPowerOrder ctx eventToPl) orders.sort
        ((hc.card_le.trans hca).trans hf))
    obtain ⟨srt',hs'⟩ := isSome_iff_exists.mp
      (lexicographicalTopologicalSort_isSome (getPowerOrder ctx eventToPl') orders'.sort
        ((hc'.card_le.trans hca).trans hf'))
    rw [hs,hs']
    have hfi := lexicographicalTopologicalSort_sorts hs
    have hse := lexicographicalTopologicalSort_sorts hs'
    have hpo : getPowerOrder ctx eventToPl' = getPowerOrder ctx eventToPl := by
      funext eventId
      rw [getPowerOrder,getPowerOrder,hsa eventId]
    rw [← hn,← he,hpo] at hse
    exact hfi.unique (fun x _ y _ h => getPowerOrder_injective eventToPl h) hse

end

end

end PowerSort

section Mainline

variable {ctx : Context} (wf : WellFounded (Refers ctx.authEventIds)) {fuel fuel' : ℕ}

theorem mainlineFrom_alike {pl : Option String} (hf : ∀ eid, pl = some eid → weight wf eid ≤ fuel)
    (hf' : ∀ eid, pl = some eid → weight wf eid ≤ fuel') :
    Alike Eq (mainlineFrom ctx fuel pl) (mainlineFrom ctx fuel' pl) := by
  induction fuel generalizing fuel' pl with
  | zero =>
    cases pl with
    | none =>
      rw [mainlineFrom,mainlineFrom]
      exact rfl
    | some pl =>
      have := hf pl rfl
      have := weight_pos wf pl
      omega
  | succ fuel ih =>
    cases pl with
    | none =>
      rw [mainlineFrom,mainlineFrom]
      exact rfl
    | some pl =>
      have hle := hf pl rfl
      have hle' := hf' pl rfl
      have := weight_pos wf pl
      obtain ⟨fuel',rfl⟩ := Nat.exists_eq_add_one_of_ne_zero (by omega : fuel' ≠ 0)
      rw [mainlineFrom,mainlineFrom]
      split
      · exact rfl
      · refine (getEvent_ends pl).alike_bind ?_
        intro plEv hpe
        refine (findAuthEvent_ends _ _).alike_bind ?_
        intro next hn
        -- the next power level event is an auth event, so it weighs less
        have hl : ∀ aid, next.map Prod.fst = some aid → weight wf aid < weight wf pl := by
          intro aid ha
          obtain ⟨⟨_,aev⟩,rfl,rfl⟩ := map_eq_some_iff.mp ha
          apply weight_lt
          rw [Refers,authEventIds_eq (getEvent_ok hpe)]
          exact (findAuthEvent_ok hn).1
        refine (ih ?_ ?_).bind ?_
        · intro aid ha
          have := hl aid ha
          omega
        · intro aid ha
          have := hl aid ha
          omega
        · rintro rest _ rfl
          exact rfl

variable {mm : Dict String ℕ}

theorem mainlineDepth_alike {ri : String} {ev : Event}
    (hf : ∀ aid ∈ ev.authEventIds, weight wf aid ≤ fuel)
    (hf' : ∀ aid ∈ ev.authEventIds, weight wf aid ≤ fuel') :
    Alike Eq (mainlineDepth ctx ri mm fuel ev) (mainlineDepth ctx ri mm fuel' ev) := by
  induction fuel using Nat.strong_induction_on generalizing fuel' ev with
  | _ fuel ih =>
    unfold mainlineDepth
    split
    · exact rfl
    · refine (findAuthEvent_ends _ _).alike_bind ?_
      intro next hn
      cases next with
      | none => exact rfl
      | some next =>
        obtain ⟨hm,hev⟩ := findAuthEvent_ok hn
        have hle := hf next.1 hm
        have hle' := hf' next.1 hm
        have hpos := weight_pos wf next.1
        obtain ⟨fuel,rfl⟩ := Nat.exists_eq_add_one_of_ne_zero (by omega : fuel ≠ 0)
        obtain ⟨fuel',rfl⟩ := Nat.exists_eq_add_one_of_ne_zero (by omega : fuel' ≠ 0)
        have hl : ∀ aid ∈ next.2.authEventIds, weight wf aid < weight wf next.1 := by
          intro aid ha
          apply weight_lt
          rw [Refers,authEventIds_eq hev]
          exact ha
        apply ih fuel (Nat.lt_succ_self _)
        · intro aid ha
          have := hl aid ha
          omega
        · intro aid ha
          have := hl aid ha
          omega

theorem orderOf_alike (hf : allowance wf ≤ fuel) (hf' : allowance wf ≤ fuel') (eid : String) :
    Alike Eq (orderOf ctx fuel mm eid) (orderOf ctx fuel' mm eid) := by
  refine (mappedEvent_ends eid).alike_bind ?_
  intro ev _
  refine (mainlineDepth_alike wf ?_ ?_).bind ?_
  · exact fun aid _ => (weight_le_allowance wf aid).trans hf
  · exact fun aid _ => (weight_le_allowance wf aid).trans hf'
  · rintro depth _ rfl
    exact rfl

theorem orderOf_ok {fuel : ℕ} {eid : String} {ord : Option SortKey}
    (h : orderOf ctx fuel mm eid = .ok ord) :
    ∃ depth ts, ord = some (toLex (depth,toLex (ts,eid))) := by
  obtain ⟨ev,-,h⟩ := bind_eq_ok.mp h
  obtain ⟨depth,-,h⟩ := bind_eq_ok.mp h
  exact ⟨depth,ev.originServerTs,(ok.inj h).symm⟩

theorem mainlineSort_alike (hf : allowance wf ≤ fuel) (hf' : allowance wf ≤ fuel')
    {eids eids' : List String} (hp : eids.Perm eids') (pl : Option String) :
    Alike Eq (mainlineSort ctx fuel eids pl) (mainlineSort ctx fuel' eids' pl) := by
  have he : eids = [] ↔ eids' = [] := by
    rw [← length_eq_zero_iff,hp.length_eq,length_eq_zero_iff]
  by_cases hn : eids = []
  · rw [mainlineSort,mainlineSort,if_pos hn,if_pos (he.mp hn)]
    exact rfl
  · rw [mainlineSort,mainlineSort,if_neg hn,if_neg (fun h => hn (he.mpr h))]
    refine (mainlineFrom_alike wf ?_ ?_).bind ?_
    · exact fun eid _ => (weight_le_allowance wf eid).trans hf
    · exact fun eid _ => (weight_le_allowance wf eid).trans hf'
    rintro mainline _ rfl
    refine (assignEach_alike (fun _ => hp.mem_iff) (fun _ => rfl)
      (fun eid _ => orderOf_alike wf hf hf' eid)).bind_ok ?_
    intro orderMap orderMap' ho _ hs
    have hfun : orderIn orderMap' = orderIn orderMap := by
      funext eid
      rw [orderIn,orderIn,hs eid]
    rw [hfun]
    refine Iteration.insertionSort_eq hp ?_
    intro a ha b hb heq
    obtain ⟨ord,hok,hl⟩ := (assignEach_ok ho).1 a ha
    obtain ⟨ord',hok',hl'⟩ := (assignEach_ok ho).1 b hb
    obtain ⟨depth,ts,rfl⟩ := orderOf_ok hok
    obtain ⟨depth',ts',rfl⟩ := orderOf_ok hok'
    simp only [orderIn,hl,hl',some_or,getD_some,EmbeddingLike.apply_eq_iff_eq,Prod.mk.injEq] at heq
    exact heq.2.2

end Mainline

end Synapse.StateResolution
