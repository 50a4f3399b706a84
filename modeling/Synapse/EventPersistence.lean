import Synapse.Events
import Synapse.Iteration
import Synapse.Worklist

/-!
# Persisting events

How a batch of new events of one room changes the forward extremities and the
current state, and what is stored. A batch is one chunk of at most a hundred
events and is not backfilled.
-/

set_option autoImplicit false

namespace Synapse.EventPersistence
open Python Loops Dict

abbrev Result (α : Type) := Run (Exn SynapseError) α

structure NewEvent where
  event : Event
  depth : ℤ
  outlier : Bool
  softFailed : Bool

def NewEvent.eventId (e : NewEvent) : String := e.event.eventId

def NewEvent.prevEventIds (e : NewEvent) : List String := e.event.prevEventIds

/-- `ownStateGroup` is the private `_state_group`. -/
structure EventContext where
  rejected : Option String
  ownStateGroup : Option ℕ
  stateGroupBeforeEvent : Option ℕ
  stateGroupDeltas : Dict (ℕ × ℕ) (StateMap String)

def EventContext.isRejected (context : EventContext) : Bool :=
  context.rejected.any (fun reason => reason ≠ "")

def EventContext.stateGroup (context : EventContext) : Result (Option ℕ) :=
  if context.isRejected then
    .error (.raised (.runtimeError "Attempt to access state_group of rejected event"))
  else .ok context.ownStateGroup

abbrev Batch := List (NewEvent × EventContext)

structure EventRow where
  event : Event
  depth : ℤ
  outlier : Bool
  softFailed : Bool
  rejected : Bool

structure Tables where
  events : Dict String EventRow
  eventEdges : List (String × String)
  forwardExtremities : Finset String
  backwardExtremities : Finset String
  eventToStateGroups : Dict String ℕ
  currentState : StateMap String

def noTables : Tables := ⟨∅,[],∅,∅,∅,∅⟩

section Extremities

variable (tables : Tables)

def isAccepted (item : NewEvent × EventContext) : Bool :=
  !item.1.outlier && !item.2.isRejected && !item.1.softFailed

def EventRow.isAccepted (row : EventRow) : Bool :=
  !row.outlier && !row.rejected && !row.softFailed

def newEvents (batch : Batch) : List NewEvent := (batch.filter isAccepted).map Prod.fst

def getEventsWhichArePrevs (eventIds : Finset String) : Finset String :=
  ((tables.eventEdges.filter (fun edge =>
    edge.2 ∈ eventIds ∧ (tables.events.lookup edge.1).any EventRow.isAccepted)).map
      Prod.snd).toFinset

def prevsOfRejected (eventIds : List String) : List String :=
  (tables.eventEdges.filter (fun edge =>
    edge.1 ∈ eventIds ∧ (tables.events.lookup edge.1).any
      (fun row => !row.outlier && (row.softFailed || row.rejected)))).map Prod.snd

def getPrevsBeforeRejected (fuel : ℕ) (eventIds : List String) : Result (Finset String) :=
  Worklist.walkBatches (prevsOfRejected tables) fuel 100 eventIds

def calculateNewExtremities (fuel : ℕ) (batch : Batch) (latestEventIds : Finset String) :
    Result (Finset String) := do
  let prevs := (newEvents batch).flatMap NewEvent.prevEventIds
  let result := (latestEventIds ∪ ((newEvents batch).map NewEvent.eventId).toFinset) \
    prevs.toFinset
  let result := result \ getEventsWhichArePrevs tables result
  let existingPrevs ← getPrevsBeforeRejected tables fuel prevs
  .ok (result \ existingPrevs)

end Extremities

section State

/-- What a resolution of state groups returns: one of the groups, a delta to
one of them, or the state itself. -/
inductive StateCacheEntry where
  | group (stateGroup : ℕ)
  | delta (prevGroup : ℕ) (deltaIds : StateMap String)
  | state (state : StateMap String)

/-- The states of the state groups, their resolution and the server's own
users. -/
structure Room where
  stateForGroup : ℕ → StateMap String
  resolveStateGroups : Finset ℕ → StateCacheEntry
  isMineId : String → Bool
  py : Runtime

structure DeltaState where
  toDelete : List StateKey
  toInsert : StateMap String
  noLongerInRoom : Bool

/-- The time, the orders in which sets are iterated over, and whether the
server is still joined after a change of the current state. -/
structure Circumstances where
  now : ℤ
  missing : Iteration String
  dropped : Iteration String
  prevs : Iteration String
  isServerStillJoined : Tables → Batch → DeltaState → Bool

variable (tables : Tables) (room : Room) (now : Circumstances)

def Room.getState : StateCacheEntry → StateMap String
  | .group stateGroup => room.stateForGroup stateGroup
  | .delta prevGroup deltaIds => update (room.stateForGroup prevGroup) deltaIds
  | .state state => state

def addDeltas (deltas : Dict (ℕ × ℕ) (StateMap String)) (item : NewEvent × EventContext) :
    Result (Dict (ℕ × ℕ) (StateMap String)) := do
  match ← item.2.stateGroup with
  | some _ => .ok (update deltas item.2.stateGroupDeltas)
  | none =>
    if item.1.outlier then .ok deltas
    else .error (.raised (.exception
      ("Context for new event " ++ item.1.eventId ++ " has no state group")))

def contextGroup (batch : Batch) (eventId : String) : Option ℕ :=
  (batch.filterMap (fun item =>
    if item.1.eventId = eventId then item.2.ownStateGroup else none)).head?

def checkStateGroups (eventIds : Finset String) : Result Unit :=
  match (now.missing.list eventIds).find? (fun e => e ∉ tables.eventToStateGroups) with
  | some e => .error (.raised (.runtimeError
      ("No state group for unknown or outlier event " ++ e)))
  | none => .ok ()

def stateGroupFor (batch : Batch) (oldLatest : Finset String) (eventId : String) : Option ℕ :=
  if eventId ∈ oldLatest ∨ contextGroup batch eventId = none then
    tables.eventToStateGroups.lookup eventId
  else contextGroup batch eventId

def groupsOf (batch : Batch) (oldLatest eventIds : Finset String) : Finset ℕ :=
  eventIds.biUnion (fun e => (stateGroupFor tables batch oldLatest e).toFinset)

def only (groups : Finset ℕ) : Option ℕ :=
  if groups.card = 1 then some (groups.sup id) else none

def knownDelta (deltas : Dict (ℕ × ℕ) (StateMap String)) (oldGroups newGroups : Finset ℕ) :
    Option (StateMap String) := do
  let new ← only newGroups
  let old ← only oldGroups
  deltas.lookup (old,new)

def getEvents (eventIds : List String) : List EventRow :=
  eventIds.filterMap (fun eventId => tables.events.lookup eventId)

/-- Whether an event is the server's own, or a dummy event of it that leads to
one through dummy events only. -/
def referencesOwn : ℕ → List EventRow → Result Bool
  | _, [] => .ok false
  | 0, _::_ => .error .outOfFuel
  | fuel+1, row::rows =>
    let own := (row::rows).filter (fun row => room.isMineId row.event.sender)
    if own.any (fun row => row.event.type ≠ EventTypes.dummy) then .ok true
    else
      referencesOwn fuel (getEvents tables
        (now.prevs.list (own.flatMap (fun row => row.event.prevEventIds)).toFinset))

def maxDepth : Batch → Result ℤ
  | [] => .error (.raised .valueError)
  | item::batch => .ok (batch.foldl (fun depth item => max depth item.1.depth) item.1.depth)

def domainOf (sender : String) : Result String := lift (getDomainFromId room.py sender)

def isDroppable (fuel : ℕ) (newSenders : List String) (currentDepth : ℤ) (row : EventRow) :
    Result Bool := do
  if ← referencesOwn tables room now fuel [row] then .ok false
  else if row.event.originServerTs < now.now-24*60*60*1000 ∧ row.depth < currentDepth-100 then
    .ok true
  else do
    let domain ← domainOf room row.event.sender
    .ok (domain ∈ newSenders ∧ row.depth < currentDepth-20)

def allDroppable (fuel : ℕ) (newSenders : List String) (currentDepth : ℤ) :
    List EventRow → Result Bool
  | [] => .ok true
  | row::rows => do
    if ← isDroppable tables room now fuel newSenders currentDepth row then
      allDroppable fuel newSenders currentDepth rows
    else .ok false

/-- All extremities with another state group than the resolved one are
dropped, or none. -/
def pruneExtremities (fuel : ℕ) (batch : Batch) (groupFor : String → Option ℕ)
    (newLatest : Finset String) (resolved : ℕ) : Result (Finset String) := do
  let kept := newLatest.filter (fun e => groupFor e = some resolved)
  let dropped := newLatest \ kept
  if batch.any (fun item => item.1.eventId ∈ dropped) then .ok newLatest
  else do
    let newSenders ← batch.mapM (fun item => domainOf room item.1.event.sender)
    let currentDepth ← maxDepth batch
    if ← allDroppable tables room now fuel newSenders currentDepth
        (getEvents tables (now.dropped.list dropped)) then .ok kept
    else .ok newLatest

def keptExtremities (fuel : ℕ) (batch : Batch) (oldLatest newLatest : Finset String)
    (newGroups : Finset ℕ) : Result (Finset String) :=
  match room.resolveStateGroups newGroups with
  | .group stateGroup =>
    if stateGroup ≠ 0 ∧ stateGroup ∈ newGroups then
      pruneExtremities tables room now fuel batch (stateGroupFor tables batch oldLatest) newLatest
        stateGroup
    else .ok newLatest
  | _ => .ok newLatest

structure NewState where
  currentState : Option (StateMap String)
  deltaIds : Option (StateMap String)
  latestEventIds : Finset String

def getNewStateAfterEvents (fuel : ℕ) (batch : Batch) (oldLatest newLatest : Finset String) :
    Result NewState := do
  let deltas ← batch.foldlM addDeltas ∅
  checkStateGroups tables now
    (oldLatest ∪ newLatest.filter (fun e => contextGroup batch e = none))
  let oldGroups := groupsOf tables batch oldLatest oldLatest
  let newGroups := groupsOf tables batch oldLatest newLatest
  if oldGroups = newGroups then .ok ⟨none,none,newLatest⟩
  else
    match knownDelta deltas oldGroups newGroups, only newGroups with
    | some deltaIds, _ => .ok ⟨none,some deltaIds,newLatest⟩
    | none, some group => .ok ⟨some (room.stateForGroup group),none,newLatest⟩
    | none, none => do
      let kept ← keptExtremities tables room now fuel batch oldLatest newLatest newGroups
      .ok ⟨some (room.getState (room.resolveStateGroups newGroups)),none,kept⟩

def calculateStateDelta (currentState : StateMap String) : DeltaState where
  toDelete := tables.currentState.keys.filter (fun key => key ∉ currentState)
  toInsert := currentState.entries.foldl (fun d entry =>
    if some entry.2 ≠ tables.currentState.lookup entry.1 then d.insert entry.1 entry.2 else d) ∅
  noLongerInRoom := false

def deltaFor (state : NewState) : Option DeltaState :=
  match state.deltaIds, state.currentState with
  | some deltaIds, _ => some ⟨[],deltaIds,false⟩
  | none, some currentState => some (calculateStateDelta tables currentState)
  | none, none => none

def checkStillJoined (batch : Batch) (delta : DeltaState) : DeltaState :=
  { delta with noLongerInRoom := !now.isServerStillJoined tables batch delta }

def allSinglePrevNotState (batch : Batch) : Bool :=
  batch.all (fun item => item.1.prevEventIds.length = 1 ∧ item.1.event.stateKey = none)

def calculateNewForwardExtremitiesAndStateDelta (fuel : ℕ) (batch : Batch) :
    Result (Option (Finset String) × Option DeltaState) := do
  let latest := tables.forwardExtremities
  let newLatest ← calculateNewExtremities tables fuel batch latest
  if newLatest = latest then .ok (none,none)
  else if newLatest = ∅ then .error (.raised .assertionError)
  else if latest.card = 1 ∧ newLatest.card = 1 ∧ allSinglePrevNotState batch then
    .ok (some newLatest,none)
  else do
    let state ← getNewStateAfterEvents tables room now fuel batch latest newLatest
    if state.latestEventIds = ∅ then .error (.raised .assertionError)
    else
      .ok (some state.latestEventIds,
        (deltaFor tables state).map (checkStillJoined tables now batch))

end State

/-- One copy of each event, the earliest that is not an outlier if there is
one. -/
def filterEventsAndContextsForDuplicates (batch : Batch) : Batch :=
  batch.foldl (fun kept item =>
    match kept.find? (fun other => other.1.eventId = item.1.eventId) with
    | some other =>
      if !item.1.outlier && other.1.outlier then
        kept.filter (fun other => other.1.eventId ≠ item.1.eventId) ++ [item]
      else kept
    | none => kept ++ [item]) []

def mappedStateGroup (item : NewEvent × EventContext) : Option ℕ :=
  if item.2.isRejected then item.2.stateGroupBeforeEvent else item.2.ownStateGroup

def storeEventStateMapping (tables : Tables) (item : NewEvent × EventContext) : Result Tables :=
  if item.1.outlier then .ok tables
  else
    match mappedStateGroup item with
    | some group =>
      .ok { tables with
        eventToStateGroups := tables.eventToStateGroups.insert item.1.eventId group }
    | none => .error (.raised .integrityError)

def isFetched (tables : Tables) (eventId : String) : Bool :=
  (tables.events.lookup eventId).any (fun row => !row.outlier)

/-- The prev events of new events that are not outliers become backward
extremities unless they have been fetched, and the new events cease to be
ones. -/
def updateBackwardExtremities (tables : Tables) (events : List NewEvent) : Tables :=
  let potential := ((events.filter (fun ev => !ev.outlier)).flatMap
    NewEvent.prevEventIds).toFinset
  if potential = ∅ then tables
  else
    let removed := (events.filter (fun ev => !ev.outlier || ev.prevEventIds.isEmpty)).map
      NewEvent.eventId
    { tables with
      backwardExtremities :=
        (tables.backwardExtremities ∪ potential.filter (fun e => !isFetched tables e)) \
          removed.toFinset }

def clearOutlier (tables : Tables) (eventId : String) (row : EventRow) : Tables :=
  { tables with events := tables.events.insert eventId { row with outlier := false } }

/-- An event that is stored as an outlier gets its state, unless it is now
rejected. -/
def updateOutlier (tables : Tables) (item : NewEvent × EventContext) : Result Tables :=
  match tables.events.lookup item.1.eventId with
  | none => .ok tables
  | some row =>
    if item.2.isRejected then .ok tables
    else if !item.1.outlier && row.outlier then do
      let tables ← storeEventStateMapping tables item
      .ok (updateBackwardExtremities (clearOutlier tables item.1.eventId row) [item.1])
    else .ok tables

def storeEvent (tables : Tables) (item : NewEvent × EventContext) : Tables :=
  { tables with
    events := tables.events.insert item.1.eventId
      ⟨item.1.event,item.1.depth,item.1.outlier,item.1.softFailed,item.2.isRejected⟩ }

def notRejected (batch : Batch) : List NewEvent :=
  (batch.filter (fun item => !item.2.isRejected)).map Prod.fst

def edgesOf (events : List NewEvent) : List (String × String) :=
  events.flatMap (fun ev => ev.prevEventIds.map (fun prev => (ev.eventId,prev)))

def handleMultPrevEvents (tables : Tables) (events : List NewEvent) : Tables :=
  updateBackwardExtremities { tables with eventEdges := tables.eventEdges ++ edgesOf events }
    events

def updateForwardExtremities (latest : Finset String) : Option (Finset String) → Finset String
  | some newLatest => if newLatest = ∅ then latest else newLatest
  | none => latest

def updateCurrentState (currentState : StateMap String) : Option DeltaState → StateMap String
  | none => currentState
  | some delta =>
    if delta.noLongerInRoom then ∅
    else update (popAll currentState (delta.toDelete ++ delta.toInsert.keys))
      delta.toInsert

/-- Rejected events are left out of `event_edges` and do not change the
backward extremities. -/
def persistEvents (tables : Tables) (batch : Batch) (newLatest : Option (Finset String))
    (delta : Option DeltaState) : Result Tables := do
  let events := filterEventsAndContextsForDuplicates batch
  let updated ← events.foldlM updateOutlier tables
  let new := events.filter (fun item => item.1.eventId ∉ tables.events)
  let stored ← new.foldlM storeEventStateMapping (new.foldl storeEvent updated)
  let linked := handleMultPrevEvents stored (notRejected new)
  .ok { linked with
    forwardExtremities := updateForwardExtremities linked.forwardExtremities newLatest
    currentState := updateCurrentState linked.currentState delta }

def persistBatch (room : Room) (now : Circumstances) (fuel : ℕ) (tables : Tables)
    (batch : Batch) : Result Tables := do
  let (newLatest,delta) ←
    calculateNewForwardExtremitiesAndStateDelta tables room now fuel batch
  persistEvents tables batch newLatest delta

/-- The tables after batches persisted one after the other, from no events,
that are each admitted by what is required of a batch. -/
inductive Reached (room : Room)
    (admitted : Tables → Circumstances → Batch → Tables → Prop) : Tables → Prop
  | start : Reached room admitted noTables
  | step {tables tables' : Tables} (now : Circumstances) (fuel : ℕ) (batch : Batch)
      (before : Reached room admitted tables)
      (persisted : persistBatch room now fuel tables batch = .ok tables')
      (required : admitted tables now batch tables') : Reached room admitted tables'

end Synapse.EventPersistence
