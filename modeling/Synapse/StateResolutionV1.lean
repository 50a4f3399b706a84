import Synapse.StateResolution

/-!
# State resolution, version 1

Conflicts are resolved type by type: the power levels first, then the join
rules, the memberships and the rest, each against the state resolved so far.
The candidates for a key are tried by depth and by the hash of their IDs. Each
iteration over a set or a dictionary takes its order from `Orders`.
-/

set_option autoImplicit false

namespace Synapse.StateResolutionV1
open Python Loops EventAuth EventTypes Dict
open StateResolution (AuthRules Result stringKeys)

structure StateEvent extends Event where
  depth : ℤ

/-- Events are given by their IDs, in the event map or from the store. An event
map that is not given is empty. -/
structure Context where
  roomId : String
  roomVersion : RoomVersion
  eventMap : Dict String StateEvent
  eventMap_keyed : ∀ eventId event, eventMap.lookup eventId = some event → event.eventId = eventId
  store : Dict String StateEvent
  store_keyed : ∀ eventId event, store.lookup eventId = some event → event.eventId = eventId
  rules : AuthRules
  sha1 : String → String

structure Orders where
  stateSet : StateMap String → Iteration StateKey
  authConflicts : Iteration StateKey
  authConflictIds : Iteration String
  authTypes : Iteration StateKey
  stateMap : Iteration String
  stateMapNew : Iteration String
  conflicts : Iteration StateKey
  conflictIds : Iteration String
  authKeys : Iteration StateKey
  joinRules : Iteration StateKey
  members : Iteration StateKey
  others : Iteration StateKey

def powerKey : StateKey := (powerLevels,"")

def addValue (state : StateMap String × StateMap (Finset String)) (key : StateKey)
    (value : String) : StateMap String × StateMap (Finset String) :=
  match state.1.lookup key with
  | none =>
    match state.2.lookup key with
    | none => (state.1.insert key value,state.2)
    | some ls => (state.1,state.2.insert key (insert value ls))
  | some unconflictedValue =>
    if unconflictedValue ≠ value then
      (state.1.erase key,state.2.insert key {value,unconflictedValue})
    else state

def addStateSet (orders : Orders) (state : StateMap String × StateMap (Finset String))
    (stateSet : StateMap String) : StateMap String × StateMap (Finset String) :=
  ((orders.stateSet stateSet).list stateSet.keys.toFinset).foldl (fun state key =>
    match stateSet.lookup key with
    | some value => addValue state key value
    | none => state) state

/-- A key that some of the state sets lack is not conflicted for that. -/
def seperate (orders : Orders) (first : StateMap String) (rest : List (StateMap String)) :
    StateMap String × StateMap (Finset String) :=
  rest.foldl (addStateSet orders) (first,∅)

variable (ctx : Context) (orders : Orders)

def stateMapFactory (eventIds : Finset String) : Dict String StateEvent :=
  filterKeys ctx.store (· ∈ eventIds)

def wrongRoom (event : StateEvent) : Exn SynapseError :=
  .exception ("Attempting to state-resolve for room " ++ ctx.roomId ++ " with event " ++
    event.eventId ++ " which is in " ++ event.roomId)

def checkRooms (order : Iteration String) (events : Dict String StateEvent) : Result Unit :=
  forEach (fun eventId =>
    match events.lookup eventId with
    | some event =>
      if event.roomId ≠ ctx.roomId then .error (.raised (wrongRoom ctx event)) else .ok ()
    | none => .ok ()) (order.list events.keys.toFinset)

def neededEvents (conflictedState : StateMap (Finset String)) : Finset String :=
  (values conflictedState).foldr (· ∪ ·) ∅

def addAuthKey (unconflictedState authEvents : StateMap String) (key : StateKey) :
    StateMap String :=
  if key ∈ authEvents then authEvents
  else assign authEvents key ((unconflictedState.lookup key).filter (· ≠ ""))

def authKeysOf (event : StateEvent) : Raises (Finset StateKey) := do
  let authTypes ← authTypesForEvent ctx.roomVersion event.toEvent
  .ok (stringKeys authTypes)

def createAuthEventsFromMaps (unconflictedState : StateMap String)
    (conflictedState : StateMap (Finset String)) (stateMap : Dict String StateEvent) :
    Result (StateMap String) :=
  ((orders.authConflicts.list conflictedState.keys.toFinset).flatMap (fun key =>
    orders.authConflictIds.list ((conflictedState.lookup key).getD ∅))).foldlM
      (fun authEvents eventId =>
        match stateMap.lookup eventId with
        | some event => do
          let keys ← lift (authKeysOf ctx event)
          .ok ((orders.authTypes.list keys).foldl (addAuthKey unconflictedState) authEvents)
        | none => .ok authEvents) ∅

def orderKey (event : StateEvent) : ℤ ×ₗ String := toLex (-event.depth,ctx.sha1 event.eventId)

def orderedEvents (events : List StateEvent) : List StateEvent :=
  events.insertionSort (fun a b => orderKey ctx a ≤ orderKey ctx b)

/-- Whether an event is allowed. Errors other than those of the auth rules are
not caught. -/
def isAllowed (event : StateEvent) (authEvents : StateMap StateEvent) : Result Bool :=
  match ctx.rules.check event.toEvent (mapValues authEvents StateEvent.toEvent) with
  | .ok () => .ok true
  | .error (.raised (.authError _ _ _)) => .ok false
  | .error e => .error (.raised e)

def unboundLocal : Exn SynapseError :=
  .exception "cannot access local variable 'event' where it is not associated with a value"

/-- The events after `prevEvent`, as long as each is allowed by those before. -/
def lastAllowed : StateMap StateEvent → StateEvent → List StateEvent → Result StateEvent
  | _, prevEvent, [] => .ok prevEvent
  | authEvents, prevEvent, event::rest => do
    let stateKey ← lift prevEvent.requireStateKey
    let authEvents := authEvents.insert (prevEvent.type,stateKey) prevEvent
    if ← isAllowed ctx event authEvents then lastAllowed authEvents event rest
    else .ok prevEvent

def resolveAuthEvents (events : List StateEvent) (authEvents : StateMap StateEvent) :
    Result StateEvent := do
  let keys ← lift (events.mapM (authKeysOf ctx))
  let newAuthEvents := (orders.authKeys.list (keys.foldr (· ∪ ·) ∅)).foldl
    (fun newAuthEvents key => assign newAuthEvents key (authEvents.lookup key)) ∅
  match (orderedEvents ctx events).reverse with
  | [] => .error (.raised .indexError)
  | [_] => .error (.raised unboundLocal)
  | prevEvent::event::rest => lastAllowed ctx newAuthEvents prevEvent (event::rest)

def firstAllowed (authEvents : StateMap StateEvent) : List StateEvent → Result StateEvent
  | [] => .error (.raised unboundLocal)
  | event::rest => do
    if ← isAllowed ctx event authEvents then .ok event
    else if rest = [] then .ok event
    else firstAllowed authEvents rest

def resolveNormalEvents (events : List StateEvent) (authEvents : StateMap StateEvent) :
    Result StateEvent :=
  firstAllowed ctx authEvents (orderedEvents ctx events)

def resolveKey (conflictedState : StateMap (List StateEvent)) (p : StateKey → Bool)
    (resolve : List StateEvent → Result StateEvent) (key : StateKey) :
    Result (Option StateEvent) :=
  match conflictedState.lookup key with
  | some events => if p key then do .ok (some (← resolve events)) else .ok none
  | none => .ok none

/-- Each loop reads the auth events as they were before it, and comes to each
key once. -/
def resolveStateEvents (conflictedState : StateMap (List StateEvent))
    (authEvents : StateMap StateEvent) : Result (StateMap StateEvent) := do
  let keys := conflictedState.keys.toFinset
  let resolvedState ← assignEach (resolveKey conflictedState (· = powerKey)
    (resolveAuthEvents ctx orders · authEvents)) ∅ [powerKey]
  let authEvents := update authEvents resolvedState
  let resolvedState ← assignEach
    (resolveKey conflictedState (fun key => key.1 = EventTypes.joinRules)
    (resolveAuthEvents ctx orders · authEvents)) resolvedState (orders.joinRules.list keys)
  let authEvents := update authEvents resolvedState
  let resolvedState ← assignEach (resolveKey conflictedState (fun key => key.1 = member)
    (resolveAuthEvents ctx orders · authEvents)) resolvedState (orders.members.list keys)
  let authEvents := update authEvents resolvedState
  assignEach (resolveKey conflictedState (fun key => key ∉ resolvedState)
    (resolveNormalEvents ctx · authEvents)) resolvedState (orders.others.list keys)

/-- Of the events for a conflicted key those are left that are known. -/
def knownEvents (stateMap : Dict String StateEvent) (eventIds : Finset String) :
    List StateEvent :=
  (orders.conflictIds.list eventIds).filterMap (fun eventId => stateMap.lookup eventId)

def splitKey (conflictedStateIds : StateMap (Finset String)) (stateMap : Dict String StateEvent)
    (state : StateMap String × StateMap (List StateEvent)) (key : StateKey) :
    StateMap String × StateMap (List StateEvent) :=
  match knownEvents orders stateMap ((conflictedStateIds.lookup key).getD ∅) with
  | [] => state
  | [event] => (state.1.insert key event.eventId,state.2)
  | events => (state.1,state.2.insert key events)

def resolveWithState (unconflictedStateIds : StateMap String)
    (conflictedStateIds : StateMap (Finset String)) (authEventIds : StateMap String)
    (stateMap : Dict String StateEvent) : Result (StateMap String) := do
  let (unconflictedStateIds,conflictedState) :=
    (orders.conflicts.list conflictedStateIds.keys.toFinset).foldl
      (splitKey orders conflictedStateIds stateMap) (unconflictedStateIds,∅)
  let authEvents := compose authEventIds stateMap
  let resolvedState ← resolveStateEvents ctx orders conflictedState authEvents
  .ok (update unconflictedStateIds
    (mapValues resolvedState (fun event => event.eventId)))

def resolveEventsWithStore (stateSets : List (StateMap String)) : Result (StateMap String) :=
  match stateSets with
  | [stateSet] => .ok stateSet
  | [] => .error (.raised (.runtimeError "coroutine raised StopIteration"))
  | first::rest => do
    let (unconflictedState,conflictedState) := seperate orders first rest
    let known := ctx.eventMap.keys.toFinset
    let needed := neededEvents conflictedState \ known
    let stateMap := update (stateMapFactory ctx needed) ctx.eventMap
    checkRooms ctx orders.stateMap stateMap
    let authEvents ← createAuthEventsFromMaps ctx orders unconflictedState conflictedState stateMap
    let newNeeded := ((values authEvents).toFinset \ needed) \ known
    let stateMapNew := stateMapFactory ctx newNeeded
    checkRooms ctx orders.stateMapNew stateMapNew
    resolveWithState ctx orders unconflictedState conflictedState authEvents
      (update stateMap stateMapNew)

end Synapse.StateResolutionV1
