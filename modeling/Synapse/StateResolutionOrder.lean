import Synapse.StateResolutionSort

/-!
# State resolution does not depend on any order

When no event is in its own auth chain the resolution ends, and its outcome
depends neither on the order of the state sets nor on the order in which any
set or dictionary is iterated over.
-/

set_option autoImplicit false

namespace Synapse.StateResolution
open Python Loops References EventAuth EventTypes Dict

section AuthChecks

variable {ctx : Context} {st st' : StateMap String}

theorem addAuthEvent_ends (auth : StateMap Event) (aid : String) :
    Ends (addAuthEvent ctx auth aid) := by
  refine (getEventOrNone_ends aid).bind ?_
  intro ev _
  cases ev with
  | none => exact ends_ok _
  | some ev =>
    cases hr : ev.rejectedReason.isNone with
    | false =>
      simp only [hr]
      exact ends_ok _
    | true =>
      simp only [hr]
      exact (ends_lift _).bind (fun _ _ => ends_ok _)

theorem resolvedAuthEvent_alike (h : SameLookups st st') (key : StateKey) :
    Alike Eq (resolvedAuthEvent ctx st key) (resolvedAuthEvent ctx st' key) := by
  rw [resolvedAuthEvent,resolvedAuthEvent,h key]
  split
  · exact rfl
  · exact (getEvent_ends _).alike_bind (fun _ _ => rfl)

theorem authEventsFor_alike (orders orders' : Orders) (h : SameLookups st st') (ev : Event) :
    Alike SameLookups (authEventsFor ctx orders st ev) (authEventsFor ctx orders' st' ev) := by
  refine (foldlM_ends (fun aid _ auth => addAuthEvent_ends auth aid) ∅).alike_bind ?_
  intro auth _
  refine (ends_lift _).alike_bind ?_
  intro authTypes _
  refine assignEach_alike ?_ (fun _ => rfl) (fun key _ => resolvedAuthEvent_alike h key)
  intro key
  rw [Iteration.mem,Iteration.mem]

theorem applyEvent_alike (h : SameLookups st st') (eid : String) (ev : Event)
    {auth auth' : StateMap Event} (ha : SameLookups auth auth') :
    Alike SameLookups (lift (applyEvent ctx st eid ev auth))
      (lift (applyEvent ctx st' eid ev auth')) := by
  rw [applyEvent,applyEvent,ctx.rules.ext ev auth auth' ha]
  split
  · cases ev.requireStateKey with
    | error e => trivial
    | ok sk =>
      intro key
      rw [lookup_set,lookup_set,h key]
  · exact h
  · trivial

theorem authCheck_alike (orders orders' : Orders) (h : SameLookups st st') (eid : String) :
    Alike SameLookups (authCheck ctx orders st eid) (authCheck ctx orders' st' eid) := by
  refine (mappedEvent_ends eid).alike_bind ?_
  intro ev _
  refine (authEventsFor_alike orders orders' h ev).bind ?_
  intro auth auth' ha
  split
  · exact h
  · exact applyEvent_alike h eid ev ha

theorem iterativeAuthChecks_alike (orders orders' : Orders) (eids : List String)
    (h : SameLookups st st') : Alike SameLookups (iterativeAuthChecks ctx orders eids st)
      (iterativeAuthChecks ctx orders' eids st') :=
  foldlM_alike (fun eid _ _ _ h => authCheck_alike orders orders' h eid) h

end AuthChecks

section Outcome

variable {ctx : Context} {orders orders' : Orders} {fuel fuel' : ℕ}
  {ss ss' : List (StateMap String)}

variable (orders orders') in
theorem unconflicted_perm (hp : ss'.Perm ss) : SameLookups (seperate ss orders.stateKeys).1
    (seperate ss' orders'.stateKeys).1 := by
  intro key
  rw [lookup_unconflicted,lookup_unconflicted,agreed_perm hp]

theorem resolveConflicts_alike (wf : WellFounded (Refers ctx.authEventIds))
    (hf : allowance wf ≤ fuel) (hf' : allowance wf ≤ fuel') (hp : ss'.Perm ss) :
    Alike (fun sg sg' => SameLookups sg.resolved sg'.resolved)
      (resolveConflicts ctx orders fuel ss) (resolveConflicts ctx orders' fuel' ss') := by
  have hu := unconflicted_perm orders orders' hp
  refine (fullConflictedSet_alike wf hf hf' hp).bind_ok ?_
  rintro full _ hfu - rfl
  refine (reverseTopologicalPowerSort_alike wf (fun _ => fullConflictedSet_room hfu) hf hf').bind ?_
  rintro power _ rfl
  refine (iterativeAuthChecks_alike orders orders' power hu).bind ?_
  intro afterPower afterPower' ha
  have hl : ((orders.leftovers.list full).filter (fun eid => eid ∉ power)).Perm
      ((orders'.leftovers.list full).filter (fun eid => eid ∉ power)) :=
    (Iteration.perm _ _ full).filter _
  rw [← ha (powerLevels,"")]
  refine (mainlineSort_alike wf hf hf' hl _).bind ?_
  rintro leftovers _ rfl
  refine (iterativeAuthChecks_alike orders orders' leftovers ha).bind ?_
  intro resolved resolved' hr
  exact hr

/-- What a caller sees of a run: the state it returns, as a function of the
key, or that it raised. -/
inductive Outcome where
  | returned (state : StateKey → Option String)
  | raised

def outcome : Result (StateMap String) → Option Outcome
  | .ok state => some (.returned state.lookup)
  | .error (.raised _) => some .raised
  | .error .outOfFuel => none

theorem outcome_alike {x y : Result (StateMap String)} (h : Alike SameLookups x y) :
    outcome x = outcome y ∧ (outcome x).isSome := by
  match x, y, h with
  | .ok state, .ok state', h =>
    have : state.lookup = state'.lookup := funext h
    exact ⟨by simp [outcome,this],rfl⟩
  | .error (.raised _), .error (.raised _), _ => exact ⟨rfl,rfl⟩

theorem resolveEventsWithStore_alike (wf : WellFounded (Refers ctx.authEventIds))
    (hf : allowance wf ≤ fuel) (hf' : allowance wf ≤ fuel') (hp : ss'.Perm ss) :
    Alike SameLookups (resolveEventsWithStore ctx orders fuel ss)
      (resolveEventsWithStore ctx orders' fuel' ss') := by
  have hu := unconflicted_perm orders orders' hp
  have he : (seperate ss orders.stateKeys).2.entries = [] ↔
      (seperate ss' orders'.stateKeys).2.entries = [] := by
    rw [← not_iff_not]
    exact (conflicted_iff _).trans ((conflicted_perm hp).symm.trans (conflicted_iff _).symm)
  rw [resolveEventsWithStore,resolveEventsWithStore]
  by_cases hc : (seperate ss orders.stateKeys).2.entries = []
  · simp only [if_pos hc,if_pos (he.mp hc)]
    exact hu
  · simp only [if_neg hc,if_neg (fun h => hc (he.mpr h))]
    refine (resolveConflicts_alike wf hf hf' hp).bind ?_
    intro sg sg' hs key
    rw [lookup_update,lookup_update,hu key,hs key]

/-- Over an acyclic auth graph, with enough iterations allowed, resolving the
state sets in any order and iterating in any orders has the same outcome. -/
theorem resolve_order_independent (ctx : Context) (hacyclic : Acyclic ctx.authEventIds)
    (sets : List (StateMap String)) :
    ∃ enough result, ∀ fuel, enough ≤ fuel → ∀ (orders : Orders) (sets' : List (StateMap String)),
      sets'.Perm sets → outcome (resolveEventsWithStore ctx orders fuel sets') = some result := by
  have wf := hacyclic.wellFounded authEventIds_supported
  have orders : Orders :=
    ⟨default,default,default,default,⟨default,fun _ => default,fun _ => default⟩,fun _ => default,
      default⟩
  obtain ⟨result,hresult⟩ := Option.isSome_iff_exists.mp
    (outcome_alike (resolveEventsWithStore_alike wf le_rfl le_rfl (List.Perm.refl sets) :
      Alike SameLookups (resolveEventsWithStore ctx orders _ sets)
        (resolveEventsWithStore ctx orders _ sets))).2
  refine ⟨allowance wf,result,?_⟩
  intro fuel hfuel orders' sets' hperm
  rw [← hresult]
  exact (outcome_alike (resolveEventsWithStore_alike wf le_rfl hfuel hperm)).1.symm

end Outcome

def topicRoomEvent (eventId type key : String) (content : JsonDict) (authEventIds : List String)
    (ts : ℤ) : Event :=
  { eventId := eventId, roomId := "!r:x", sender := "@a:x", type := type, stateKey := some key,
    content := content, prevEventIds := [], authEventIds := authEventIds, originServerTs := ts,
    topLevelRedacts := .null, roomVersion := .v10, rejectedReason := none }

def topicRoom : Context where
  roomId := "!r:x"
  roomVersion := .v10
  eventMap := ∅
  store := [topicRoomEvent "$create" create "" [("creator",.str "@a:x")] [] 1,
    topicRoomEvent "$join" member "@a:x" [("membership",.str Membership.join)]
      ["$create"] 2,
    topicRoomEvent "$rules" joinRules "" [] ["$create","$join"] 3,
    topicRoomEvent "$first" "m.room.topic" "" [] ["$create","$join"] 4,
    topicRoomEvent "$second" "m.room.topic" "" [] ["$create","$join"] 5].foldl
      (fun store event => store.insert event.eventId event) ∅
  rules := eventAuthRules default
  py := default

def joinedState : StateMap String :=
  (AList.insert (create,"") "$create" ∅).insert (member,"@a:x") "$join"

def topicForks : List (StateMap String) :=
  [(joinedState.insert (joinRules,"") "$rules").insert ("m.room.topic","") "$first",
    joinedState.insert ("m.room.topic","") "$second"]

theorem topicRoom_acyclic : Acyclic topicRoom.authEventIds :=
  acyclic_of_rank authEventIds_supported
    (fun eid => ["$create","$join","$rules","$first","$second"].idxOf eid) (by decide +kernel)

theorem resolve_order_independent_topicRoom :
    Acyclic topicRoom.authEventIds ∧ ∃ enough result, ∀ fuel, enough ≤ fuel →
      ∀ (orders : Orders) (sets' : List (StateMap String)), sets'.Perm topicForks →
        outcome (resolveEventsWithStore topicRoom orders fuel sets') = some result :=
  ⟨topicRoom_acyclic,resolve_order_independent topicRoom topicRoom_acyclic topicForks⟩

end Synapse.StateResolution
