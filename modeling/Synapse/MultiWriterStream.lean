import Synapse.MultiWriterIdGenerator

/-!
# Several writers of one stream

The instances share a strictly increasing sequence and exchange announced
positions. A fetch is split at the points where another thread or instance
can run: its start, each value drawn from the sequence, the registration of
the drawn IDs and the removal of the in-flight mark. Announced positions are
never forgotten, so delivery may reorder, repeat and lose them.
-/

set_option autoImplicit false

namespace Synapse.MultiWriterStream
open MultiWriterIdGenerator

inductive Phase where
  | drawing
  | registered
  | allocated
  deriving DecidableEq

structure Call (I : Type*) where
  owner : I
  currentMax : ℤ
  ids : List ℤ
  phase : Phase

structure System (I : Type*) where
  generators : I → Generator I
  sequence : ℤ
  calls : List (Call I)
  announced : List (I × ℤ)

inductive Action (I : Type*) where
  | startFetch (i : I)
  | draw (n : ℕ) (id : ℤ)
  | register (n : ℕ)
  | release (n : ℕ)
  | fail (n : ℕ)
  | finish (n : ℕ)
  | announce (i : I)
  | deliver (target : I) (message : I × ℤ)

variable {I : Type*} [DecidableEq I]

def System.onGenerator (s : System I) (i : I) (g : Generator I) (calls : List (Call I)) :
    System I :=
  { s with generators := Function.update s.generators i g, calls := calls }

def System.callIn (s : System I) (n : ℕ) (phase : Phase) : Option (Call I) :=
  s.calls[n]?.filter (fun c => c.phase = phase)

def step (s : System I) : Action I → Option (System I)
  | .startFetch i =>
    let g := s.generators i
    if g.writers ≠ [] ∧ i ∉ g.writers then none
    else some (s.onGenerator i (startFetch g)
      (s.calls ++ [⟨i,g.maxSeenAllocatedStreamId,[],.drawing⟩]))
  | .draw n id =>
    if s.sequence < id then
      (s.callIn n .drawing).map (fun c =>
        { s with sequence := id, calls := s.calls.set n { c with ids := c.ids ++ [id] } })
    else none
  | .register n =>
    (s.callIn n .drawing).bind (fun c => (registerIds (s.generators c.owner) c.ids).map (fun g =>
      s.onGenerator c.owner g (s.calls.set n { c with phase := .registered })))
  | .release n =>
    (s.callIn n .registered).map (fun c =>
      s.onGenerator c.owner (endFetch (s.generators c.owner) c.currentMax)
        (s.calls.set n { c with phase := .allocated }))
  | .fail n =>
    (s.callIn n .drawing).map (fun c =>
      s.onGenerator c.owner (endFetch (s.generators c.owner) c.currentMax) (s.calls.eraseIdx n))
  | .finish n =>
    (s.callIn n .allocated).map (fun c =>
      s.onGenerator c.owner
        ((markIdsAsFinished (s.generators c.owner) c.ids).getD (s.generators c.owner))
        (s.calls.eraseIdx n))
  | .announce i =>
    some { s with
      announced := (i,getCurrentTokenForWriter (s.generators i) i)::s.announced }
  | .deliver target message =>
    if message ∈ s.announced ∧ message.1 ≠ target then
      some (s.onGenerator target (advance (s.generators target) message.1 message.2) s.calls)
    else none

def run (s : System I) (actions : List (Action I)) : Option (System I) := actions.foldlM step s

def start (writers : List I) (positive : Bool) (db : Database I) : System I :=
  { generators := fun i => create i writers positive db
    sequence := db.lastValue
    calls := []
    announced := [] }

/-- The stored positions and rows never lie beyond the sequence, whose first
value is one, and rows carry IDs of at least one. -/
structure Consistent (positive : Bool) (db : Database I) : Prop where
  lastValue : 1 ≤ db.lastValue
  positions : ∀ i t, db.streamPositions.lookup i = some t →
    returnFactor positive*t ≤ db.lastValue
  rows : ∀ table ∈ db.tables, ∀ row ∈ table,
    1 ≤ returnFactor positive*row.2 ∧ returnFactor positive*row.2 ≤ db.lastValue

def Unfinished (s : System I) (i : I) (x : ℤ) : Prop :=
  x ∈ (s.generators i).unfinishedIds ∨
    ∃ c ∈ s.calls, c.owner = i ∧ c.phase ≠ .drawing ∧ x ∈ c.ids

/-- An ID that a fetch of an instance has drawn but not registered, or that
it can still draw. -/
def MayReceive (s : System I) (i : I) (x : ℤ) : Prop :=
  ∃ c ∈ s.calls, c.owner = i ∧ c.phase = .drawing ∧ (x ∈ c.ids ∨ s.sequence < x)

section Positions

variable (calls : List (Call I)) (seq : ℤ)

def PastOf (j : I) (t : ℤ) : Prop :=
  t ≤ seq ∧ ∀ c ∈ calls, c.owner = j → ∀ x ∈ c.ids, t < x

def Clear (t : ℤ) : Prop := t ≤ seq ∧ ∀ c ∈ calls, t ∉ c.ids

/-- What every recorded position of an instance promises about the IDs that
are outstanding anywhere. -/
structure Positions (writers : List I) (i : I) (g : Generator I) : Prop where
  name : g.instanceName = i
  persisted : ∀ j, PastOf calls seq j g.persistedUptoPosition
  current : ∀ j t, g.currentPositions.lookup j = some t → PastOf calls seq j t
  own : ∀ t, g.currentPositions.lookup i = some t → Clear calls seq t
  localMax : PastOf calls seq i g.maxPositionOfLocalInstance
  localClear : Clear calls seq g.maxPositionOfLocalInstance
  known : ∀ y ∈ g.knownPersistedPositions, Clear calls seq y
  finished : ∀ y ∈ g.finishedIds, Clear calls seq y
  seenLe : g.maxSeenAllocatedStreamId ≤ seq
  seen : ∀ c ∈ calls, c.owner ≠ i → g.maxSeenAllocatedStreamId ∉ c.ids
  entries : ∀ j ∈ writers, ∃ t, g.currentPositions.lookup j = some t
  nonzero : i ∈ writers → ∀ t, g.currentPositions.lookup i = some t → 1 ≤ t

/-- The unfinished and in-flight records of an instance are those of its calls. -/
structure Books (i : I) (g : Generator I) : Prop where
  unfinished : ∀ x, x ∈ g.unfinishedIds ↔
    ∃ c ∈ calls, c.owner = i ∧ c.phase ≠ .drawing ∧ x ∈ c.ids
  inFlight : g.inFlightFetches.Perm
    ((calls.filter (fun c => c.owner = i ∧ c.phase ≠ .allocated)).map Call.currentMax)

structure Calls (writers : List I) : Prop where
  nonneg : 0 ≤ seq
  owners : ∀ c ∈ calls, c.owner ∈ writers
  drawn : ∀ c ∈ calls, ∀ x ∈ c.ids, x ≤ seq
  above : ∀ c ∈ calls, c.phase ≠ .allocated → c.currentMax ≤ seq ∧ ∀ x ∈ c.ids, c.currentMax < x
  disjoint : calls.Pairwise (fun a b => a.ids.Disjoint b.ids)

end Positions

/-- IDs outstanding after a step were outstanding before at the same owner or
are new values of the sequence. -/
def Extends (calls calls' : List (Call I)) (seq seq' : ℤ) : Prop :=
  seq ≤ seq' ∧ ∀ c' ∈ calls', ∀ x ∈ c'.ids,
    (∃ c ∈ calls, c.owner = c'.owner ∧ x ∈ c.ids) ∨ seq < x

structure Invariant (writers : List I) (positive : Bool) (s : System I) : Prop where
  calls : Calls s.calls s.sequence writers
  positions : ∀ i, Positions s.calls s.sequence writers i (s.generators i)
  books : ∀ i, Books s.calls i (s.generators i)
  sameWriters : ∀ i, (s.generators i).writers = writers
  samePositive : ∀ i, (s.generators i).positive = positive
  announced : ∀ m ∈ s.announced, PastOf s.calls s.sequence m.1 (returnFactor positive*m.2) ∧
    Clear s.calls s.sequence (returnFactor positive*m.2)

end Synapse.MultiWriterStream
