import Synapse.AuthTypes
import Synapse.References
import Synapse.TopologicalSort

/-!
# State resolution, version 2

Resolution of a list of state maps. The event map is only a cache of the
store, so an event is looked up in the map given and then in the store. Each
iteration over a set or a dictionary takes its order from `Orders`, and each
`while` loop is given the same number of iterations.
-/

set_option autoImplicit false

namespace Synapse.StateResolution
open Python Loops EventAuth EventTypes Dict

abbrev Result (α : Type) := Run (Exn SynapseError) α

/-- `check_state_dependent_auth_rules`, as a function of the event and the
auth map. -/
structure AuthRules where
  check : Event → StateMap Event → Raises Unit
  ext : ∀ event m m', SameLookups m m' → check event m = check event m'

/-- The auth rules of the repository, over a map keyed by type and state key. -/
def eventAuthRules (py : Runtime) : AuthRules where
  check event m := if event.type = EventTypes.create then .ok () else checkAgainst py event m
  ext event m m' h := by
    have hcheck : checkAgainst py event m = checkAgainst py event m' := by
      apply checkAgainst_congr
      · exact ⟨h _,h _,h _⟩
      · intro _ membership target _ _
        constructor <;> intros <;> simp [joinRuleOf,lookupValue,h _]
      · exact fun _ _ _ => h _
    rw [hcheck]

theorem eventAuthRules_check (py : Runtime) (ev : Event) {m : StateMap Event} (hm : WellKeyed m) :
    (eventAuthRules py).check ev m = checkStateDependentAuthRules py ev (values m) := by
  obtain ⟨d,hd,hs⟩ := authDictFrom_values hm
  rw [checkStateDependentAuthRules,hd,← (eventAuthRules py).ext ev d m hs]
  rfl

structure Context where
  roomId : String
  roomVersion : RoomVersion
  eventMap : Dict String Event
  store : Dict String Event
  rules : AuthRules
  py : Runtime

structure Orders where
  stateKeys : Iteration StateKey
  missing : Iteration String
  powerEvents : Iteration String
  graph : Iteration String
  sort : TopologicalSort.Orders String
  authTypes : Event → Iteration StateKey
  leftovers : Iteration String

section Seperate

variable (sets : List (StateMap String))

def stateKeys : Finset StateKey := (sets.flatMap AList.keys).toFinset

/-- The set of what the state sets have for a key, where a set that lacks the
key contributes `none`. -/
def eventIds (key : StateKey) : List (Option String) := (sets.map (fun s => s.lookup key)).dedup

def seperateKey (state : StateMap String × StateMap (Finset String)) (key : StateKey) :
    StateMap String × StateMap (Finset String) :=
  match eventIds sets key with
  | [some eventId] => (state.1.insert key eventId,state.2)
  | eventIds => (state.1,state.2.insert key (eventIds.filterMap id).toFinset)

def seperate (order : Iteration StateKey) : StateMap String × StateMap (Finset String) :=
  (order.list (stateKeys sets)).foldl (seperateKey sets) (∅,∅)

end Seperate

variable (ctx : Context)

def Context.event (eventId : String) : Option Event :=
  (ctx.eventMap.lookup eventId).or (ctx.store.lookup eventId)

def Context.authEventIds (eventId : String) : List String :=
  ((ctx.event eventId).map Event.authEventIds).getD []

def wrongRoom (roomId eventId : String) (event : Event) : Exn SynapseError :=
  .exception ("In state res for room " ++ roomId ++ ", event " ++ eventId ++ " is in " ++
    event.roomId)

/-- `_get_event(..., allow_none=True)` -/
def getEventOrNone (roomId eventId : String) : Result (Option Event) :=
  match ctx.event eventId with
  | none => .ok none
  | some event =>
    if event.roomId ≠ roomId then .error (.raised (wrongRoom roomId eventId event))
    else .ok (some event)

def getEvent (roomId eventId : String) : Result Event := do
  match ← getEventOrNone ctx roomId eventId with
  | some event => .ok event
  | none => .error (.raised (.exception ("Unknown event " ++ eventId)))

def mappedEvent (eventId : String) : Result Event :=
  match ctx.event eventId with
  | some event => .ok event
  | none => .error (.raised .keyError)

def findAuthEvent (roomId type : String) : List String → Result (Option (String × Event))
  | [] => .ok none
  | aid::aids => do
    match ← getEventOrNone ctx roomId aid with
    | none => findAuthEvent roomId type aids
    | some aev => do
      let stateKey ← lift aev.requireStateKey
      if aev.type = type ∧ stateKey = "" then .ok (some (aid,aev))
      else findAuthEvent roomId type aids

def levelIn (pl : Event) (sender : String) : Raises ℤ := do
  let users := Json.getD pl.content "users" (.object [])
  let level ← Json.get users sender .null
  match level.orElse (Json.getD pl.content "users_default" (.int 0)) with
  | .null => .ok 0
  | level => Json.toInt ctx.py.intOfString level

def getPowerLevelForSender (eventId : String) : Result ℤ := do
  let event ← getEvent ctx ctx.roomId eventId
  match ← findAuthEvent ctx ctx.roomId powerLevels event.authEventIds with
  | some (_,pl) => lift (levelIn ctx pl event.sender)
  | none => do
    match ← findAuthEvent ctx ctx.roomId EventTypes.create event.authEventIds with
    | some (_,create) =>
      .ok (if (Json.getD create.content "creator" .null).isStr event.sender then 100 else 0)
    | none => .ok 0

def isPowerEvent (event : Event) : Raises Bool := do
  let stateKey ← event.requireStateKey
  if (event.type,stateKey) ∈ [(powerLevels,""),(joinRules,""),
      (EventTypes.create,"")] then .ok true
  else if event.type = member then do
    let membership ← event.membership
    .ok ((membership.isStr "leave" || membership.isStr "ban") && event.sender ≠ stateKey)
  else .ok false

def authChainLoop : ℕ → Finset String → List Event → Result (Finset String)
  | _, chain, [] => .ok chain
  | 0, _, _::_ => .error .outOfFuel
  | fuel+1, chain, event::toSearch =>
    authChainLoop fuel (chain ∪ event.authEventIds.toFinset)
      ((event.authEventIds.filterMap ctx.eventMap.lookup).reverse ++ toSearch)

def addAuthChain (fuel : ℕ) (chains : Dict String (Finset String)) (event : Event) :
    Result (Dict String (Finset String)) := do
  let chain ← authChainLoop ctx fuel {event.eventId} [event]
  .ok (chains.insert event.eventId chain)

def eventsToAuthChain (fuel : ℕ) : Result (Dict String (Finset String)) :=
  (values ctx.eventMap).foldlM (addAuthChain ctx fuel) ∅

def inMap (eventId : String) : Prop := eventId ∈ ctx.eventMap

instance (eventId : String) : Decidable (inMap ctx eventId) :=
  inferInstanceAs (Decidable (eventId ∈ ctx.eventMap))

/-- The persisted IDs an event of a state set stands for: itself, or the
persisted part of its chain. -/
def persistedIds (chains : Dict String (Finset String)) (eventId : String) : Finset String :=
  match chains.lookup eventId with
  | some chain => chain.filter (fun e => ¬ inMap ctx e)
  | none => {eventId}

def unpersistedIds (chains : Dict String (Finset String)) (eventId : String) : Finset String :=
  match chains.lookup eventId with
  | some chain => chain.filter (inMap ctx)
  | none => ∅

def valueSet (stateSet : StateMap String) : Finset String := (values stateSet).toFinset

def union (sets : List (Finset String)) : Finset String := sets.foldr (· ∪ ·) ∅

def difference (sets : List (Finset String)) : Finset String :=
  (union sets).filter (fun eventId => ∃ s ∈ sets, eventId ∉ s)

def storedAuthEventIds (eventId : String) : List String :=
  ((ctx.store.lookup eventId).map
    (fun event => event.authEventIds.filter (fun aid => aid ∈ ctx.store))).getD []

def storedAuthChain (eventIds : Finset String) : Finset String :=
  References.reach (storedAuthEventIds ctx) (ctx.store.keys.toFinset.card+1) eventIds

/-- `state_res_store.get_auth_chain_difference` -/
def storedDifference (sets : List (Finset String)) : Finset String :=
  difference (sets.map (storedAuthChain ctx))

def getAuthChainDifference (fuel : ℕ) (sets : List (StateMap String)) :
    Result (Finset String) := do
  let chains ← eventsToAuthChain ctx fuel
  if ctx.eventMap.keys ≠ [] then
    let stateSetsIds := sets.map (fun s => (valueSet s).biUnion (persistedIds ctx chains))
    let unpersistedSetIds := sets.map (fun s => (valueSet s).biUnion (unpersistedIds ctx chains))
    .ok (storedDifference ctx stateSetsIds ∪ difference unpersistedSetIds)
  else .ok (storedDifference ctx (sets.map valueSet))

section PowerSort

variable (full : Finset String)

/-- One event popped from the stack: its auth events in the full conflicted
set become its edges, and those that are not in the graph yet are pushed. -/
def addToGraph (graph : TopologicalSort.Graph String) (eid : String)
    (authEventIds : List String) : TopologicalSort.Graph String × List String :=
  let aids := authEventIds.filter (fun aid => aid ∈ full)
  let graph := graph.insert eid (TopologicalSort.edgesOf graph eid ∪ aids.toFinset)
  (graph,aids.filter (fun aid => aid ∉ graph))

def addEventAndAuthChainToGraph : ℕ → TopologicalSort.Graph String → List String →
    Result (TopologicalSort.Graph String)
  | _, graph, [] => .ok graph
  | 0, _, _::_ => .error .outOfFuel
  | fuel+1, graph, eid::state => do
    let event ← getEvent ctx ctx.roomId eid
    let (graph,pushed) := addToGraph full graph eid event.authEventIds
    addEventAndAuthChainToGraph fuel graph (pushed.reverse ++ state)

def addIfPowerEvent (fuel : ℕ) (graph : TopologicalSort.Graph String) (eventId : String) :
    Result (TopologicalSort.Graph String) := do
  let event ← mappedEvent ctx eventId
  if ← lift (isPowerEvent event) then addEventAndAuthChainToGraph ctx full fuel graph [eventId]
  else .ok graph

abbrev SortKey := ℤ ×ₗ ℤ ×ₗ String

def originServerTs (eventId : String) : ℤ := ((ctx.event eventId).map Event.originServerTs).getD 0

def getPowerOrder (eventToPl : Dict String ℤ) (eventId : String) : SortKey :=
  toLex (-(eventToPl.lookup eventId).getD 0,toLex (originServerTs ctx eventId,eventId))

def reverseTopologicalPowerSort (orders : Orders) (fuel : ℕ) : Result (List String) := do
  let graph ← (orders.powerEvents.list full).foldlM (addIfPowerEvent ctx full fuel) ∅
  let eventToPl ← assignEach (fun eventId => some <$> getPowerLevelForSender ctx eventId) ∅
    (orders.graph.list (TopologicalSort.nodesOf graph))
  match TopologicalSort.lexicographicalTopologicalSort (getPowerOrder ctx eventToPl) orders.sort
      fuel graph with
  | some sorted => .ok sorted
  | none => .error .outOfFuel

end PowerSort

def addAuthEvent (authEvents : StateMap Event) (aid : String) : Result (StateMap Event) := do
  match ← getEventOrNone ctx ctx.roomId aid with
  | none => .ok authEvents
  | some ev =>
    if ev.rejectedReason.isNone then do
      let stateKey ← lift ev.requireStateKey
      .ok (authEvents.insert (ev.type,stateKey) ev)
    else .ok authEvents

def stringKeys (authTypes : List (String × Json)) : Finset StateKey :=
  (authTypes.filterMap (fun entry =>
    match entry.2 with
    | .str key => some (entry.1,key)
    | _ => none)).toFinset

def resolvedAuthEvent (resolvedState : StateMap String) (key : StateKey) :
    Result (Option Event) :=
  match resolvedState.lookup key with
  | none => .ok none
  | some evId => do
    let ev ← getEvent ctx ctx.roomId evId
    .ok (if ev.rejectedReason.isNone then some ev else none)

/-- The auth map an event is checked against: its own auth events, overridden
by those of the state resolved so far. -/
def authEventsFor (orders : Orders) (resolvedState : StateMap String) (event : Event) :
    Result (StateMap Event) := do
  let authEvents ← event.authEventIds.foldlM (addAuthEvent ctx) ∅
  let authTypes ← lift (authTypesForEvent ctx.roomVersion event)
  assignEach (resolvedAuthEvent ctx resolvedState) authEvents
    ((orders.authTypes event).list (stringKeys authTypes))

def applyEvent (resolvedState : StateMap String) (eventId : String) (event : Event)
    (authEvents : StateMap Event) : Raises (StateMap String) :=
  match ctx.rules.check event authEvents with
  | .ok () => do
    let stateKey ← event.requireStateKey
    .ok (resolvedState.insert (event.type,stateKey) eventId)
  | .error (.raised (.authError _ _ _)) => .ok resolvedState
  | .error e => .error e

def authCheck (orders : Orders) (resolvedState : StateMap String) (eventId : String) :
    Result (StateMap String) := do
  let event ← mappedEvent ctx eventId
  let authEvents ← authEventsFor ctx orders resolvedState event
  if event.rejectedReason.isSome then .ok resolvedState
  else lift (applyEvent ctx resolvedState eventId event authEvents)

def iterativeAuthChecks (orders : Orders) (eventIds : List String)
    (baseState : StateMap String) : Result (StateMap String) :=
  eventIds.foldlM (authCheck ctx orders) baseState

/-- The power level events from the given one down, each the first power level
event among the auth events of the one before. -/
def mainlineFrom : ℕ → Option String → Result (List String)
  | _, none => .ok []
  | 0, some pl => if pl = "" then .ok [] else .error .outOfFuel
  | fuel+1, some pl =>
    if pl = "" then .ok []
    else do
      let plEv ← getEvent ctx ctx.roomId pl
      let next ← findAuthEvent ctx ctx.roomId powerLevels plEv.authEventIds
      let rest ← mainlineFrom fuel (next.map Prod.fst)
      .ok (pl::rest)

def mainlineMapOf (mainline : List String) : Dict String ℕ :=
  mainline.reverse.zipIdx.foldl (fun d entry => d.insert entry.1 (entry.2+1)) ∅

def mainlineDepth (roomId : String) (mainlineMap : Dict String ℕ) : ℕ → Event → Result ℕ
  | fuel, event =>
    match mainlineMap.lookup event.eventId with
    | some depth => .ok depth
    | none => do
      match ← findAuthEvent ctx roomId powerLevels event.authEventIds with
      | none => .ok 0
      | some (_,aev) =>
        match fuel with
        | 0 => .error .outOfFuel
        | fuel+1 => mainlineDepth roomId mainlineMap fuel aev

def getMainlineDepthForEvent (fuel : ℕ) (mainlineMap : Dict String ℕ) (event : Event) :
    Result ℕ :=
  mainlineDepth ctx event.roomId mainlineMap fuel event

def orderOf (fuel : ℕ) (mainlineMap : Dict String ℕ) (eventId : String) :
    Result (Option SortKey) := do
  let event ← mappedEvent ctx eventId
  let depth ← getMainlineDepthForEvent ctx fuel mainlineMap event
  .ok (some (toLex ((depth : ℤ),toLex (event.originServerTs,eventId))))

def orderIn (orderMap : Dict String SortKey) (eventId : String) : SortKey :=
  (orderMap.lookup eventId).getD (toLex (0,toLex (0,eventId)))

def mainlineSort (fuel : ℕ) (eventIds : List String) (resolvedPowerEventId : Option String) :
    Result (List String) :=
  if eventIds = [] then .ok []
  else do
    let mainline ← mainlineFrom ctx fuel resolvedPowerEventId
    let orderMap ← assignEach (orderOf ctx fuel (mainlineMapOf mainline)) ∅ eventIds
    .ok (eventIds.insertionSort (fun a b => orderIn orderMap a ≤ orderIn orderMap b))

def checkRoom (event : Event) : Result Unit :=
  if event.roomId ≠ ctx.roomId then
    .error (.raised (.exception ("Attempting to state-resolve for room " ++ ctx.roomId ++
      " with event " ++ event.eventId ++ " which is in " ++ event.roomId)))
  else .ok ()

def fetchedEvents (order : Iteration String) (full : Finset String) : List Event :=
  values ctx.eventMap ++
    (order.list (full.filter (fun eid => ¬ inMap ctx eid))).filterMap ctx.store.lookup

def fullConflictedSet (orders : Orders) (fuel : ℕ) (sets : List (StateMap String)) :
    Result (Finset String) := do
  let authDiff ← getAuthChainDifference ctx fuel sets
  let full := union (values (seperate sets orders.stateKeys).2) ∪ authDiff
  let _ ← forEach (checkRoom ctx) (fetchedEvents ctx orders.missing full)
  .ok (full.filter (fun eid => (ctx.event eid).isSome))

/-- What is computed on the way: the full conflicted set, the sorted power
events and leftovers, and the state after each of the two. -/
structure Stages where
  full : Finset String
  power : List String
  afterPower : StateMap String
  leftovers : List String
  resolved : StateMap String

def resolveConflicts (orders : Orders) (fuel : ℕ) (sets : List (StateMap String)) :
    Result Stages := do
  let unconflicted := (seperate sets orders.stateKeys).1
  let full ← fullConflictedSet ctx orders fuel sets
  let power ← reverseTopologicalPowerSort ctx full orders fuel
  let afterPower ← iterativeAuthChecks ctx orders power unconflicted
  let leftovers ← mainlineSort ctx fuel
    ((orders.leftovers.list full).filter (fun eid => eid ∉ power))
    (afterPower.lookup (powerLevels,""))
  let resolved ← iterativeAuthChecks ctx orders leftovers afterPower
  .ok ⟨full,power,afterPower,leftovers,resolved⟩

def resolveEventsWithStore (orders : Orders) (fuel : ℕ) (sets : List (StateMap String)) :
    Result (StateMap String) :=
  let (unconflicted,conflicted) := seperate sets orders.stateKeys
  if conflicted.entries = [] then .ok unconflicted
  else do
    let stages ← resolveConflicts ctx orders fuel sets
    .ok (update stages.resolved unconflicted)

end Synapse.StateResolution
