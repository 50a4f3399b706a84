import Synapse.Dict
import Synapse.Runs

/-!
# The event persistence queue

Tasks are queued by room, and a loop in the background passes them to the callback
one at a time. A task that comes while the last one in the queue still waits could
be merged into it. A queue is held by reference, by the map and by the loop that
drains it. A loop is left at each `await`, and while those are called back that wait
for an item, so it goes on in an operation of its own, and so do the callers that
come to `observe`.
-/

set_option autoImplicit false

namespace Synapse

namespace EventPersistenceQueue

/-- Each task has its list of events to itself. -/
inductive Task (E : Type) where
  | persistEvents (eventsAndContexts : List E) (backfilled : Bool)
  | updateCurrentState

structure Item (E : Type) where
  task : Task E
  deferred : ℕ

inductive LoopPhase (E : Type) where
  | starting
  | draining (queue : ℕ)
  | running (queue : ℕ) (item : Item E) (call : ℕ)
  | finished

structure Loop (E : Type) where
  roomId : String
  phase : LoopPhase E

structure ObservableDeferred (X R : Type) where
  result : Option (Except X R)
  observers : List ℕ

structure Call (E X R : Type) where
  roomId : String
  task : Task E
  deferred : ℕ
  result : Option (Except X R)

structure Caller (E : Type) where
  roomId : String
  task : Task E
  deferred : ℕ

end EventPersistenceQueue

open EventPersistenceQueue in
/-- The callers of `add_to_queue` are numbered as they come, and so are the runs of
the callback. -/
structure EventPersistenceQueue (E X R : Type) where
  eventPersistQueues : Dict String ℕ
  currentlyPersistingRooms : Finset String
  deques : Dict ℕ (List (Item E))
  deferreds : Dict ℕ (ObservableDeferred X R)
  loops : Dict ℕ (Loop E)
  calls : List (Call E X R)
  callers : List (Caller E)
  observed : Finset ℕ
  returned : Dict ℕ (Except X R)
  nextId : ℕ

namespace EventPersistenceQueue

variable {E X R : Type}

def start : EventPersistenceQueue E X R := ⟨∅,∅,∅,∅,∅,[],[],∅,∅,0⟩

/-- The task that `self` becomes, if the other is merged into it. -/
def tryMerge : Task E → Task E → Option (Task E)
  | .persistEvents events backfilled, .persistEvents events' backfilled' =>
    if backfilled ≠ backfilled' then none else some (.persistEvents (events ++ events') backfilled)
  | .updateCurrentState, .updateCurrentState => some .updateCurrentState
  | _, _ => none

def deque (s : EventPersistenceQueue E X R) (queue : ℕ) : List (Item E) :=
  (s.deques.lookup queue).getD []

/-- `self._event_persist_queues.setdefault(room_id, deque())` -/
def setDefaultQueue (roomId : String) (s : EventPersistenceQueue E X R) :
    ℕ × EventPersistenceQueue E X R :=
  match s.eventPersistQueues.lookup roomId with
  | some queue => (queue,s)
  | none =>
    (s.nextId,{ s with
      eventPersistQueues := s.eventPersistQueues.insert roomId s.nextId
      deques := s.deques.insert s.nextId []
      nextId := s.nextId + 1 })

/-- A loop is set off in the background, unless there is one for the room. -/
def handleQueue (roomId : String) (s : EventPersistenceQueue E X R) :
    EventPersistenceQueue E X R :=
  if roomId ∈ s.currentlyPersistingRooms then s
  else
    { s with
      currentlyPersistingRooms := insert roomId s.currentlyPersistingRooms
      loops := s.loops.insert s.nextId ⟨roomId,.starting⟩
      nextId := s.nextId + 1 }

def mergeLast (items : List (Item E)) (task : Task E) : Option (List (Item E) × Item E) := do
  let last ← items.getLast?
  let merged ← tryMerge last.task task
  some (items.dropLast,{ last with task := merged })

def mergeItem (roomId : String) (task : Task E) (queue : ℕ) (items : List (Item E))
    (endItem : Item E) (s : EventPersistenceQueue E X R) : EventPersistenceQueue E X R :=
  { s with
    deques := s.deques.insert queue (items ++ [endItem])
    callers := s.callers ++ [⟨roomId,task,endItem.deferred⟩] }

def appendItem (roomId : String) (task : Task E) (queue : ℕ) (s : EventPersistenceQueue E X R) :
    EventPersistenceQueue E X R :=
  { s with
    deques := s.deques.insert queue (deque s queue ++ [⟨task,s.nextId⟩])
    deferreds := s.deferreds.insert s.nextId ⟨none,[]⟩
    callers := s.callers ++ [⟨roomId,task,s.nextId⟩]
    nextId := s.nextId + 1 }

def enqueue (roomId : String) (task : Task E) (s : EventPersistenceQueue E X R) :
    EventPersistenceQueue E X R :=
  let (queue,s) := setDefaultQueue roomId s
  match mergeLast (deque s queue) task with
  | some (items,endItem) => mergeItem roomId task queue items endItem s
  | none => appendItem roomId task queue s

def addToQueue (roomId : String) (task : Task E) (s : EventPersistenceQueue E X R) :
    EventPersistenceQueue E X R :=
  handleQueue roomId (enqueue roomId task s)

def observe (caller : ℕ) (s : EventPersistenceQueue E X R) : EventPersistenceQueue E X R :=
  match s.callers[caller]? with
  | some c =>
    if caller ∈ s.observed then s
    else
      match s.deferreds.lookup c.deferred with
      | some ⟨none,observers⟩ =>
        { s with
          observed := insert caller s.observed
          deferreds := s.deferreds.insert c.deferred ⟨none,observers ++ [caller]⟩ }
      | some ⟨some result,_⟩ =>
        { s with
          observed := insert caller s.observed
          returned := s.returned.insert caller result }
      | none => s
  | none => s

def finishLoop (loop : ℕ) (roomId : String) (s : EventPersistenceQueue E X R) :
    EventPersistenceQueue E X R :=
  { s with
    eventPersistQueues :=
      match s.eventPersistQueues.lookup roomId with
      | some remainingQueue =>
        if deque s remainingQueue ≠ [] then
          (s.eventPersistQueues.erase roomId).insert roomId remainingQueue
        else s.eventPersistQueues.erase roomId
      | none => s.eventPersistQueues.erase roomId
    currentlyPersistingRooms := s.currentlyPersistingRooms.erase roomId
    loops := s.loops.insert loop ⟨roomId,.finished⟩ }

def passItem (loop : ℕ) (roomId : String) (queue : ℕ) (item : Item E) (rest : List (Item E))
    (s : EventPersistenceQueue E X R) : EventPersistenceQueue E X R :=
  { s with
    deques := s.deques.insert queue rest
    loops := s.loops.insert loop ⟨roomId,.running queue item s.calls.length⟩
    calls := s.calls ++ [⟨roomId,item.task,item.deferred,none⟩] }

def drain (loop : ℕ) (roomId : String) (queue : ℕ) (s : EventPersistenceQueue E X R) :
    EventPersistenceQueue E X R :=
  match deque s queue with
  | item::rest => passItem loop roomId queue item rest s
  | [] => finishLoop loop roomId s

def next (loop : ℕ) (s : EventPersistenceQueue E X R) : EventPersistenceQueue E X R :=
  match s.loops.lookup loop with
  | some ⟨roomId,.starting⟩ =>
    let (queue,s) := setDefaultQueue roomId s
    drain loop roomId queue s
  | some ⟨roomId,.draining queue⟩ => drain loop roomId queue s
  | _ => s

def setResult (call : ℕ) (result : Except X R) (s : EventPersistenceQueue E X R) :
    EventPersistenceQueue E X R :=
  { s with calls := s.calls.modify call (fun c => { c with result := some result }) }

def callback (loop : ℕ) (roomId : String) (queue deferred : ℕ) (observers : List ℕ)
    (result : Except X R) (s : EventPersistenceQueue E X R) : EventPersistenceQueue E X R :=
  { s with
    deferreds := s.deferreds.insert deferred ⟨some result,[]⟩
    returned := observers.foldl (fun returned caller => returned.insert caller result) s.returned
    loops := s.loops.insert loop ⟨roomId,.draining queue⟩ }

/-- The run of the callback that the loop awaits returns or raises. A deferred that has
been called before would raise, which ends the loop. -/
def complete (loop : ℕ) (result : Except X R) (s : EventPersistenceQueue E X R) :
    EventPersistenceQueue E X R :=
  match s.loops.lookup loop with
  | some ⟨roomId,.running queue item call⟩ =>
    match s.deferreds.lookup item.deferred with
    | some ⟨none,observers⟩ =>
      callback loop roomId queue item.deferred observers result (setResult call result s)
    | _ => finishLoop loop roomId (setResult call result s)
  | _ => s

inductive Op (E X R : Type) where
  | addToQueue (roomId : String) (task : Task E)
  | observe (caller : ℕ)
  | handleQueue (roomId : String)
  | next (loop : ℕ)
  | complete (loop : ℕ) (result : Except X R)

def step : Op E X R → EventPersistenceQueue E X R → EventPersistenceQueue E X R
  | .addToQueue roomId task, s => addToQueue roomId task s
  | .observe caller, s => observe caller s
  | .handleQueue roomId, s => handleQueue roomId s
  | .next loop, s => next loop s
  | .complete loop result, s => complete loop result s

abbrev run : List (Op E X R) → EventPersistenceQueue E X R → EventPersistenceQueue E X R :=
  Runs.run step

end EventPersistenceQueue

end Synapse
