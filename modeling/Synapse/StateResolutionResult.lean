import Synapse.Runs
import Synapse.StateResolutionOrder

/-!
# What state resolution returns

The keys the state sets agree on keep their events. Every other entry was
written when its event passed the auth rules, and the two sorted lists go
through the full conflicted set exactly once.
-/

set_option autoImplicit false

namespace Synapse.StateResolution
open Python Loops References EventAuth TopologicalSort
open List Dict Option Except

section AuthChecks

variable {ctx : Context} {orders : Orders}

/-- The event is a state event for the key, was not rejected and passes the
auth rules against the given state. -/
structure Applied (ctx : Context) (orders : Orders) (resolvedState : StateMap String)
    (key : StateKey) (eventId : String) (event : Event) : Prop where
  found : ctx.event eventId = some event
  type : event.type = key.1
  stateKey : event.stateKey = some key.2
  notRejected : event.rejectedReason = none
  passed : ∃ authEvents, authEventsFor ctx orders resolvedState event = .ok authEvents ∧
    ctx.rules.check event authEvents = .ok ()

theorem lift_eq_ok {E α : Type} {x : Except E α} {a : α} :
    (lift x : Run E α) = .ok a ↔ x = .ok a := by
  cases x <;> simp [lift]

theorem requireStateKey_ok {ev : Event} {key : String} :
    ev.requireStateKey = .ok key ↔ ev.stateKey = some key := by
  unfold Event.requireStateKey
  cases ev.stateKey <;> simp

theorem authCheck_ok {st st' : StateMap String} {eventId : String}
    (h : authCheck ctx orders st eventId = .ok st') :
    st' = st ∨ ∃ key ev, st' = st.insert key eventId ∧ Applied ctx orders st key eventId ev := by
  obtain ⟨ev,he,h⟩ := bind_eq_ok.mp h
  obtain ⟨auth,ha,h⟩ := bind_eq_ok.mp h
  rw [mappedEvent_eq_ok] at he
  split at h
  · exact .inl (ok.inj h).symm
  · next hr =>
    rw [lift_eq_ok,applyEvent] at h
    split at h
    · next hc =>
      obtain ⟨sk,hk,h⟩ := bind_eq_ok.mp h
      refine .inr ⟨(ev.type,sk),ev,(ok.inj h).symm,?_⟩
      refine ⟨he,rfl,requireStateKey_ok.mp hk,?_,auth,ha,hc⟩
      simpa using hr
    · exact .inl (ok.inj h).symm
    · simp at h

/-- The event is in the list and is applied in the state the checks of the
events before it lead to. -/
def WrittenIn (ctx : Context) (orders : Orders) (base : StateMap String) (eventIds : List String)
    (key : StateKey) (eventId : String) : Prop :=
  ∃ before after current event, eventIds = before ++ eventId::after ∧
    iterativeAuthChecks ctx orders before base = .ok current ∧
    Applied ctx orders current key eventId event

theorem WrittenIn.append {base : StateMap String} {eventIds : List String} {key : StateKey}
    {eventId : String} (h : WrittenIn ctx orders base eventIds key eventId) (la : String) :
    WrittenIn ctx orders base (eventIds ++ [la]) key eventId := by
  obtain ⟨bf,af,cur,ev,rfl,hc,ha⟩ := h
  exact ⟨bf,af ++ [la],cur,ev,by simp,hc,ha⟩

theorem iterativeAuthChecks_entry {base final : StateMap String} {eventIds : List String}
    (h : iterativeAuthChecks ctx orders eventIds base = .ok final) {key : StateKey}
    {eventId : String}
    (he : final.lookup key = some eventId) :
    base.lookup key = some eventId ∨ WrittenIn ctx orders base eventIds key eventId := by
  induction eventIds using List.reverseRecOn generalizing final with
  | nil =>
    cases h
    exact .inl he
  | append_singleton eventIds la ih =>
    rw [iterativeAuthChecks,foldlM_append] at h
    obtain ⟨cur,hc,h⟩ := bind_eq_ok.mp h
    have hl : authCheck ctx orders cur la = .ok final := by simpa using h
    rcases authCheck_ok hl with rfl | ⟨key',ev,rfl,ha⟩
    · exact (ih hc he).imp_right (fun h => h.append la)
    · rcases set_cases he with ⟨rfl,rfl⟩ | ⟨-,he⟩
      · exact .inr ⟨eventIds,[],cur,ev,rfl,hc,ha⟩
      · exact (ih hc he).imp_right (fun h => h.append la)

end AuthChecks

section WellKeyed

variable {ctx : Context} {orders : Orders}

/-- Every known event of the state has the type and state key of its entry. -/
def WellKeyedState (ctx : Context) (state : StateMap String) : Prop :=
  All (fun key eventId => ∀ event ∈ ctx.event eventId,
    event.type = key.1 ∧ event.stateKey = some key.2) state

theorem addAuthEvent_wellKeyed {m m' : StateMap Event} {authId : String} (hm : WellKeyed m)
    (h : addAuthEvent ctx m authId = .ok m') : WellKeyed m' := by
  obtain ⟨ev,-,h⟩ := bind_eq_ok.mp h
  cases ev with
  | none => exact ok.inj h ▸ hm
  | some ev =>
    simp only at h
    split at h
    · obtain ⟨sk,hk,h⟩ := bind_eq_ok.mp h
      cases h
      exact wellKeyed_insert hm rfl (requireStateKey_ok.mp (lift_eq_ok.mp hk))
    · exact ok.inj h ▸ hm

theorem authEventsFor_wellKeyed {st : StateMap String} {evt : Event} {m : StateMap Event}
    (hs : WellKeyedState ctx st) (h : authEventsFor ctx orders st evt = .ok m) : WellKeyed m := by
  obtain ⟨own,ho,h⟩ := bind_eq_ok.mp h
  obtain ⟨authTypes,-,h⟩ := bind_eq_ok.mp h
  have hk : WellKeyed own := Runs.foldlM_ok_invariant
    (fun _ _ _ _ hd hn => addAuthEvent_wellKeyed hd hn) (by simp [WellKeyed]) ho
  obtain ⟨hin,hout⟩ := assignEach_ok h
  intro key ev hl
  by_cases hkey : key ∈ (orders.authTypes evt).list (stringKeys authTypes)
  · obtain ⟨v,hv,hor⟩ := hin key hkey
    cases v with
    | none => exact hk key ev (hor.symm.trans hl)
    | some fd =>
      obtain rfl : fd = ev := some.inj (hor.symm.trans hl)
      rw [resolvedAuthEvent] at hv
      split at hv
      · simp at hv
      · next evId he =>
        obtain ⟨ev,hev,hv⟩ := bind_eq_ok.mp hv
        have hf : ev.rejectedReason = none ∧ ev = fd := by simpa using ok.inj hv
        exact hs key evId he fd (hf.2 ▸ getEvent_ok hev)
  · exact hk key ev ((hout key hkey).symm.trans hl)

theorem iterativeAuthChecks_wellKeyed {base final : StateMap String} {eventIds : List String}
    (hb : WellKeyedState ctx base) (h : iterativeAuthChecks ctx orders eventIds base = .ok final) :
    WellKeyedState ctx final := by
  intro key eventId hen ev he
  rcases iterativeAuthChecks_entry h hen with ho | ⟨_,_,_,ev',-,-,ha⟩
  · exact hb key eventId ho ev he
  · obtain rfl := some.inj (he.symm.trans ha.found)
    exact ⟨ha.type,ha.stateKey⟩

theorem unconflicted_wellKeyed {ss : List (StateMap String)} (h : ∀ s ∈ ss, WellKeyedState ctx s)
    (ord : Iteration StateKey) : WellKeyedState ctx (seperate ss ord).1 := by
  intro key eventId he
  rw [lookup_unconflicted] at he
  obtain ⟨hne,ha⟩ := agreed_eq_some.mp he
  obtain ⟨s,hs⟩ := exists_mem_of_ne_nil ss hne
  exact h s hs key eventId (ha s hs)

/-- The event is in the list and is accepted in the state the checks of the events before it
lead to, by `check_state_dependent_auth_rules`. -/
def AcceptedIn (ctx : Context) (orders : Orders) (base : StateMap String) (eventIds : List String)
    (key : StateKey) (eventId : String) : Prop :=
  ∃ before after current event authEvents, eventIds = before ++ eventId::after ∧
    iterativeAuthChecks ctx orders before base = .ok current ∧
    Applied ctx orders current key eventId event ∧
    authEventsFor ctx orders current event = .ok authEvents ∧
    checkStateDependentAuthRules ctx.py event (values authEvents) = .ok ()

theorem WrittenIn.accepted {sets : List (StateMap String)} (hs : ∀ s ∈ sets, WellKeyedState ctx s)
    (hr : ctx.rules = eventAuthRules ctx.py) {eventIds : List String} {key : StateKey}
    {eventId : String}
    (h : WrittenIn ctx orders (seperate sets orders.stateKeys).1 eventIds key eventId) :
    AcceptedIn ctx orders (seperate sets orders.stateKeys).1 eventIds key eventId := by
  obtain ⟨before,after,current,event,hsplit,hcurrent,happlied⟩ := h
  obtain ⟨authEvents,hauth,hcheck⟩ := happlied.passed
  refine ⟨before,after,current,event,authEvents,hsplit,hcurrent,happlied,hauth,?_⟩
  have hkeyed := iterativeAuthChecks_wellKeyed (unconflicted_wellKeyed hs _) hcurrent
  rw [← eventAuthRules_check ctx.py event (authEventsFor_wellKeyed hkeyed hauth),← hr]
  exact hcheck

end WellKeyed

section Stages

variable {ctx : Context} {orders : Orders} {fuel : ℕ} {sets : List (StateMap String)}

theorem reverseTopologicalPowerSort_ok {full : Finset String} {power : List String}
    (h : reverseTopologicalPowerSort ctx full orders fuel = .ok power) :
    power.Nodup ∧ ∀ eventId ∈ power, eventId ∈ full := by
  obtain ⟨gr,hg,h⟩ := bind_eq_ok.mp h
  obtain ⟨eventToPl,-,h⟩ := bind_eq_ok.mp h
  obtain ⟨hc,-⟩ := addPowerEvents_collected collected_empty
    (fun eventId => (orders.powerEvents.mem full eventId).mp) hg
  split at h
  · next srt hs =>
    cases h
    obtain ⟨hn,hno⟩ := (lexicographicalTopologicalSort_sorts hs).nodup
    exact ⟨hn,fun eventId hm => hc.within eventId (.inl (hno eventId hm).1)⟩
  · simp at h

theorem mainlineSort_perm {eventIds srt : List String} {pl : Option String}
    (h : mainlineSort ctx fuel eventIds pl = .ok srt) : srt.Perm eventIds := by
  rw [mainlineSort] at h
  split at h
  · next hn =>
    cases h
    rw [hn]
  · obtain ⟨mainline,-,h⟩ := bind_eq_ok.mp h
    obtain ⟨orderMap,-,h⟩ := bind_eq_ok.mp h
    cases h
    exact perm_insertionSort _ _

theorem resolveConflicts_stages {stages : Stages}
    (h : resolveConflicts ctx orders fuel sets = .ok stages) :
    fullConflictedSet ctx orders fuel sets = .ok stages.full ∧
    (stages.power ++ stages.leftovers).Nodup ∧
      (∀ eventId, eventId ∈ stages.power ++ stages.leftovers ↔ eventId ∈ stages.full) ∧
      iterativeAuthChecks ctx orders (stages.power ++ stages.leftovers)
        (seperate sets orders.stateKeys).1 = .ok stages.resolved := by
  obtain ⟨full,hf,h⟩ := bind_eq_ok.mp h
  obtain ⟨power,hpo,h⟩ := bind_eq_ok.mp h
  obtain ⟨afterPower,ha,h⟩ := bind_eq_ok.mp h
  obtain ⟨leftovers,hl,h⟩ := bind_eq_ok.mp h
  obtain ⟨resolved,hr,h⟩ := bind_eq_ok.mp h
  cases h
  obtain ⟨hn,hw⟩ := reverseTopologicalPowerSort_ok hpo
  have hpe := mainlineSort_perm hl
  have hm : ∀ eventId, eventId ∈ leftovers ↔ eventId ∈ full ∧ eventId ∉ power := by
    simp [hpe.mem_iff,orders.leftovers.mem]
  refine ⟨hf,?_,?_,?_⟩
  · rw [nodup_append]
    refine ⟨hn,hpe.nodup_iff.mpr ((orders.leftovers.nodup full).filter _),?_⟩
    rintro eventId hin o ho rfl
    exact ((hm eventId).mp ho).2 hin
  · intro eventId
    rw [mem_append,hm]
    constructor
    · rintro (hin | hin)
      · exact hw eventId hin
      · exact hin.1
    · intro hin
      by_cases hp : eventId ∈ power
      · exact .inl hp
      · exact .inr ⟨hin,hp⟩
  · rw [iterativeAuthChecks,foldlM_append]
    exact bind_eq_ok.mpr ⟨afterPower,ha,hr⟩

def Agreed (sets : List (StateMap String)) (key : StateKey) (eventId : String) : Prop :=
  sets ≠ [] ∧ ∀ s ∈ sets, s.lookup key = some eventId

/-- The state keeps what is agreed, and has nothing else if there is no conflict. Otherwise the
two sorted lists partition the full conflicted set, and every other entry is an event of that
set accepted when its turn came in one of them. -/
structure WellFormed (ctx : Context) (orders : Orders) (fuel : ℕ) (sets : List (StateMap String))
    (state : StateMap String) : Prop where
  agreed : ∀ key eventId, Agreed sets key eventId → state.lookup key = some eventId
  unconflicted : (seperate sets orders.stateKeys).2.entries = [] →
    ∀ key eventId, state.lookup key = some eventId → Agreed sets key eventId
  conflicted : (seperate sets orders.stateKeys).2.entries ≠ [] →
    ∃ stages, resolveConflicts ctx orders fuel sets = .ok stages ∧
      fullConflictedSet ctx orders fuel sets = .ok stages.full ∧
      (stages.power ++ stages.leftovers).Nodup ∧
      (∀ eventId, eventId ∈ stages.power ++ stages.leftovers ↔ eventId ∈ stages.full) ∧
      ∀ key eventId, state.lookup key = some eventId → ¬ Agreed sets key eventId →
        eventId ∈ stages.full ∧ AcceptedIn ctx orders (seperate sets orders.stateKeys).1
          (stages.power ++ stages.leftovers) key eventId

/-- What state resolution returns for well-keyed state sets is well-formed. -/
theorem resolve_well_formed (ctx : Context) (orders : Orders) (fuel : ℕ)
    (sets : List (StateMap String)) (hsets : ∀ s ∈ sets, WellKeyedState ctx s)
    (hrules : ctx.rules = eventAuthRules ctx.py) (state : StateMap String)
    (h : resolveEventsWithStore ctx orders fuel sets = .ok state) :
    WellFormed ctx orders fuel sets state := by
  rw [resolveEventsWithStore] at h
  simp only at h
  split at h
  · next hempty =>
    cases h
    refine ⟨?_,fun _ => ?_,fun hne => absurd hempty hne⟩ <;>
      simp only [lookup_unconflicted,agreed_eq_some]
    · exact fun _ _ h => h
    · exact fun _ _ h => h
  · next hempty =>
    obtain ⟨stages,hstages,h⟩ := bind_eq_ok.mp h
    cases h
    obtain ⟨hfull,hnodup,hmem,hchecks⟩ := resolveConflicts_stages hstages
    refine ⟨?_,fun hnil => absurd hnil hempty,fun _ => ?_⟩ <;>
      simp only [lookup_update,lookup_unconflicted]
    · intro key eventId hagreed
      rw [agreed_eq_some.mpr hagreed]
      rfl
    · refine ⟨stages,hstages,hfull,hnodup,hmem,?_⟩
      intro key eventId hentry hnot
      have hnone : agreed sets key ≠ some eventId := fun heq => hnot (agreed_eq_some.mp heq)
      have hresolved : stages.resolved.lookup key = some eventId := by
        cases hagreed : agreed sets key with
        | none => simpa [hagreed] using hentry
        | some other =>
          rw [hagreed] at hentry
          exact absurd (hagreed.trans hentry) hnone
      rcases iterativeAuthChecks_entry hchecks hresolved with hold | hwritten
      · rw [lookup_unconflicted] at hold
        exact absurd hold hnone
      · refine ⟨?_,hwritten.accepted hsets hrules⟩
        obtain ⟨before,after,_,_,hsplit,-⟩ := hwritten
        rw [← hmem,hsplit]
        simp

def byKey : Iteration StateKey :=
  Iteration.sortedBy (toLex : StateKey → String ×ₗ String) (fun _ _ h => h)

def byId : Iteration String := Iteration.sortedBy id (fun _ _ h => h)

def increasing : Orders :=
  ⟨byKey,byId,byId,byId,⟨byId,fun _ => byId,fun _ => byId⟩,fun _ => byKey,byId⟩

theorem topicForks_wellKeyed : ∀ s ∈ topicForks, WellKeyedState topicRoom s := by
  have hjoined : WellKeyedState topicRoom joinedState :=
    ((all_empty _).set (by decide +kernel)).set (by decide +kernel)
  rw [topicForks,forall_mem_cons,forall_mem_singleton]
  exact ⟨(All.set hjoined (by decide +kernel)).set (by decide +kernel),
    All.set hjoined (by decide +kernel)⟩

theorem resolve_well_formed_topicRoom :
    ∃ state, resolveEventsWithStore topicRoom increasing 9 topicForks = .ok state ∧
      state.lookup ("m.room.topic","") = some "$second" ∧
      WellFormed topicRoom increasing 9 topicForks state := by
  have htopic : (match resolveEventsWithStore topicRoom increasing 9 topicForks with
      | .ok state => state.lookup ("m.room.topic","")
      | .error _ => none) = some "$second" := by decide +kernel
  cases hrun : resolveEventsWithStore topicRoom increasing 9 topicForks with
  | error e => simp [hrun] at htopic
  | ok state => exact ⟨state,rfl,by simpa [hrun] using htopic,resolve_well_formed _ _ _ _
    topicForks_wellKeyed rfl _ hrun⟩

end Stages

end Synapse.StateResolution
