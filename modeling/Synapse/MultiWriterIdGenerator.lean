import Synapse.Dict

/-!
# The multi-writer stream ID generator

One instance's view of a stream that several instances write. IDs are kept
positive and negated on the way out of a negative stream. The sorted sets and
the heap of the source are lists here: the two sets are used through their
least and greatest elements, and the heap is a list in increasing order.
-/

set_option autoImplicit false

namespace Synapse.MultiWriterIdGenerator

structure Generator (I : Type*) where
  instanceName : I
  positive : Bool
  writers : List I
  currentPositions : Dict I ℤ
  unfinishedIds : List ℤ
  inFlightFetches : List ℤ
  finishedIds : List ℤ
  persistedUptoPosition : ℤ
  knownPersistedPositions : List ℤ
  maxSeenAllocatedStreamId : ℤ
  maxPositionOfLocalInstance : ℤ

variable {I : Type*} [DecidableEq I]

def returnFactor (positive : Bool) : ℤ := if positive then 1 else -1

theorem returnFactor_mul_self (pv : Bool) (x : ℤ) : returnFactor pv*(returnFactor pv*x) = x := by
  cases pv <;> simp [returnFactor]

def Generator.busy (g : Generator I) : Prop := g.unfinishedIds ≠ [] ∨ g.inFlightFetches ≠ []

instance (g : Generator I) : Decidable g.busy := inferInstanceAs (Decidable (_ ∨ _))

/-- Known positions at or below the bound are discarded and a position one
above it raises it; the first gap stops the walk. -/
def absorb : ℤ → List ℤ → ℤ × List ℤ
  | upto, [] => (upto,[])
  | upto, p::rest =>
    if p ≤ upto then absorb upto rest
    else if p = upto+1 then absorb (upto+1) rest
    else (upto,p::rest)

def ourCurrentPosition (g : Generator I) : ℤ :=
  (g.currentPositions.lookup g.instanceName).getD 0

def minOfOthers (g : Generator I) : ℤ :=
  ((Dict.values (g.currentPositions.erase g.instanceName)).min?).getD (ourCurrentPosition g)

def minCurr (g : Generator I) : ℤ :=
  if ourCurrentPosition g ≠ 0 ∧ g.busy then min (minOfOthers g) (ourCurrentPosition g)
  else minOfOthers g

def addPersistedPosition (g : Generator I) (newId : ℤ) : Generator I :=
  let known := g.knownPersistedPositions.orderedInsert (· ≤ ·) newId
  let upto := max (minCurr g) g.persistedUptoPosition
  let localMax := max g.maxPositionOfLocalInstance upto
  let localMax := if g.busy then localMax else max g.maxSeenAllocatedStreamId localMax
  let walked := absorb upto known
  { g with
    knownPersistedPositions := walked.2
    persistedUptoPosition := walked.1
    maxPositionOfLocalInstance := localMax }

def startFetch (g : Generator I) : Generator I :=
  { g with inFlightFetches := g.maxSeenAllocatedStreamId::g.inFlightFetches }

def endFetch (g : Generator I) (currentMax : ℤ) : Generator I :=
  { g with inFlightFetches := g.inFlightFetches.erase currentMax }

/-- Fetched IDs become unfinished. Reading the greatest unfinished ID raises
when there is none, that is after an empty fetch. -/
def registerIds (g : Generator I) (streamIds : List ℤ) : Option (Generator I) :=
  let unfinished := g.unfinishedIds ∪ streamIds
  unfinished.max?.map (fun greatest => { g with
    unfinishedIds := unfinished
    maxSeenAllocatedStreamId := max g.maxSeenAllocatedStreamId greatest })

def minUnfinished (g : Generator I) : Option ℤ :=
  match g.unfinishedIds.min?, g.inFlightFetches.min? with
  | some u, some f => some (min u (f+1))
  | none, some f => some (f+1)
  | some u, none => some u
  | none, none => none

def raisePosition (g : Generator I) : Option ℤ → Generator I
  | none => g
  | some newCur =>
    if newCur = 0 then g
    else
      let curr := ourCurrentPosition g
      { g with
        currentPositions := g.currentPositions.insert g.instanceName (max curr newCur)
        maxPositionOfLocalInstance := max (max curr newCur) g.maxPositionOfLocalInstance }

def noteFinished (g : Generator I) (nextIds : List ℤ) : Generator I :=
  { g with
    unfinishedIds := g.unfinishedIds.filter (fun x => x ∉ nextIds)
    finishedIds := g.finishedIds ∪ nextIds }

/-- The local position moves to the greatest finished ID below everything
that is unfinished or may still be fetched, and finished IDs it passes are
dropped. `none` is the error of taking the maximum of no finished IDs. -/
def settleFinished (g : Generator I) : Option (Generator I) :=
  match minUnfinished g with
  | some bound =>
    some (raisePosition { g with finishedIds := g.finishedIds.filter (fun s => ¬ s < bound) }
      (g.finishedIds.filter (fun s => s < bound)).max?)
  | none =>
    g.finishedIds.max?.map (fun newCur =>
      raisePosition { g with finishedIds := [] } (some newCur))

def markIdsAsFinished (g : Generator I) (nextIds : List ℤ) : Option (Generator I) :=
  (settleFinished (noteFinished g nextIds)).map (fun g => nextIds.foldl addPersistedPosition g)

def getCurrentToken (g : Generator I) : ℤ :=
  returnFactor g.positive*g.persistedUptoPosition

def getCurrentTokenForWriter (g : Generator I) (instanceName : I) : ℤ :=
  if g.instanceName = instanceName then
    returnFactor g.positive*g.maxPositionOfLocalInstance
  else
    returnFactor g.positive*
      max ((g.currentPositions.lookup instanceName).getD g.persistedUptoPosition)
        g.persistedUptoPosition

def noteWriterPosition (g : Generator I) (instanceName : I) (newId : ℤ) : Generator I :=
  { g with
    currentPositions := g.currentPositions.insert instanceName
      (max newId ((g.currentPositions.lookup instanceName).getD 0))
    maxSeenAllocatedStreamId := max g.maxSeenAllocatedStreamId newId }

def advance (g : Generator I) (instanceName : I) (newId : ℤ) : Generator I :=
  let newId := returnFactor g.positive*newId
  addPersistedPosition (noteWriterPosition g instanceName newId) newId

/-- What start-up reads: the stored positions, the rows of each table of the
stream and the last value of the sequence. -/
structure Database (I : Type*) where
  streamPositions : Dict I ℤ
  tables : List (List (I × ℤ))
  lastValue : ℤ

def storedPositions (writers : List I) (positive : Bool) (db : Database I) : Dict I ℤ :=
  (db.streamPositions.entries.filter (fun e => e.1 ∈ writers)).foldl
    (fun d e => d.insert e.1 (e.2*returnFactor positive)) ∅

def greatestStored (positive : Bool) (table : List (I × ℤ)) : ℤ :=
  max (((table.map (fun row => returnFactor positive*row.2)).max?).getD 1) 1

def rowsFrom (positive : Bool) (db : Database I) (minStreamId : ℤ) : List (I × ℤ) :=
  (db.tables.flatMap (fun table => table.filter (fun row =>
    if positive then minStreamId*returnFactor positive ≤ row.2
    else row.2 ≤ minStreamId*returnFactor positive))).insertionSort (fun a b => a.2 ≤ b.2)

def loadRow (g : Generator I) (row : I × ℤ) : Generator I :=
  let streamId := returnFactor g.positive*row.2
  let g := addPersistedPosition g streamId
  if row.1 = g.instanceName then
    { g with currentPositions := g.currentPositions.insert row.1 streamId }
  else g

def blank (instanceName : I) (writers : List I) (positive : Bool) : Generator I :=
  { instanceName := instanceName
    positive := positive
    writers := writers
    currentPositions := ∅
    unfinishedIds := []
    inFlightFetches := []
    finishedIds := []
    persistedUptoPosition := 1
    knownPersistedPositions := []
    maxSeenAllocatedStreamId := 1
    maxPositionOfLocalInstance := 1 }

def loadedPositions (g : Generator I) (db : Database I) : Dict I ℤ :=
  let stored := if g.writers = [] then ∅ else storedPositions g.writers g.positive db
  if g.instanceName ∈ g.writers then stored.insert g.instanceName db.lastValue else stored

def startAt (g : Generator I) (positions : Dict I ℤ) (upto : ℤ) : Generator I :=
  { g with currentPositions := positions, persistedUptoPosition := upto }

def loadPersisted (g : Generator I) (db : Database I) (positions : Dict I ℤ) : Generator I :=
  match (Dict.values positions).min? with
  | none => startAt g positions ((db.tables.map (greatestStored g.positive)).foldl max 1)
  | some minStreamId =>
    (rowsFrom g.positive db minStreamId).foldl loadRow (startAt g positions minStreamId)

def loadCurrentIds (g : Generator I) (db : Database I) : Generator I :=
  let loaded := loadPersisted g db (loadedPositions g db)
  { loaded with
    currentPositions :=
      loaded.currentPositions.setDefaults g.writers loaded.persistedUptoPosition }

def create (instanceName : I) (writers : List I) (positive : Bool) (db : Database I) :
    Generator I :=
  let g := loadCurrentIds (blank instanceName writers positive) db
  let seen := max (((Dict.values g.currentPositions).max?).getD 1) g.persistedUptoPosition
  { g with
    maxSeenAllocatedStreamId := seen
    maxPositionOfLocalInstance := seen
    currentPositions := if writers = [] then
        g.currentPositions.insert instanceName g.persistedUptoPosition
      else g.currentPositions }

end Synapse.MultiWriterIdGenerator
