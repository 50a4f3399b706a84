import Synapse.Events
import Synapse.Runs

/-!
# The queue of a destination

What is to be sent to another server waits in a queue of its own. The position up to
which events were sent is stored, so that a server that could not be reached for a
while can be caught up with. It is stored by the loop that catches up and by
ordinary transactions, and only the first of them keeps a copy of it in memory.
What is sent besides events is left out, but for whether there is any.
-/

set_option autoImplicit false

namespace Synapse.PerDestinationQueue
open List Dict Runs

open Python

structure Pdu where
  eventId : String
  roomId : String
  streamOrdering : ℕ
  deriving DecidableEq

structure Queue where
  shouldSendOnThisInstance : Bool
  newDataToSend : Bool
  catchingUp : Bool
  catchupLastSkipped : ℕ
  lastSuccessfulStreamOrdering : Option ℕ
  pendingPdus : List Pdu
  deriving DecidableEq

def Queue.init (shouldSendOnThisInstance : Bool) : Queue where
  shouldSendOnThisInstance := shouldSendOnThisInstance
  newDataToSend := false
  catchingUp := true
  catchupLastSkipped := 0
  lastSuccessfulStreamOrdering := none
  pendingPdus := []

/-- What the database has for the destination: the last position that was stored, the last
event of each room, and the events. -/
structure Database where
  lastSuccessfulStreamOrdering : Option ℕ
  destinationRooms : Dict String ℕ
  events : List Pdu

def catchUpLimit : ℕ := 50

/-- `get_catch_up_room_event_ids`, with the events that the identifiers are those of. -/
def getCatchUpRoomEventIds (db : Database) (lastSuccessfulStreamOrdering : ℕ) : List Pdu :=
  ((((values db.destinationRooms).filter (lastSuccessfulStreamOrdering < ·)).insertionSort
    (· ≤ ·)).flatMap (fun ordering =>
      db.events.filter (fun pdu => pdu.streamOrdering = ordering))).take catchUpLimit

def storeDestinationRoomsEntry (pdu : Pdu) (db : Database) : Database :=
  { db with
    destinationRooms := db.destinationRooms.insert pdu.roomId pdu.streamOrdering
    events := pdu::db.events }

def setLastSuccessful (ordering : ℕ) (db : Database) : Database :=
  { db with lastSuccessfulStreamOrdering := some ordering }

inductive Phase where
  | idle
  | limiter
  | position
  | catchUpIds (first : Bool) (last : ℕ) (found : Option (List Pdu))
  | catchUpEvents (first : Bool) (last : ℕ) (found : List Pdu)
  | catchUpRoom (first : Bool) (last : ℕ) (pdu : Pdu) (rest : List Pdu)
  | catchUpSend (first : Bool) (last : ℕ) (pdu : Pdu) (rest room : List Pdu)
  | catchUpStore (first : Bool) (last : ℕ) (rest : List Pdu)
  | entering
  | sending (pdus : List Pdu)
  | exiting (pdus : List Pdu)
  | storing (last : ℕ)
  deriving DecidableEq

/-- The queue, its loop and the database, with a history: the transactions and the positions
that were passed on to be stored, newest first, whether an ordinary transaction stored one since
the copy in memory was set, and the last of the events that rows were stored for. -/
structure World where
  queue : Queue
  db : Database
  loop : Phase
  transactions : List (List Pdu)
  stored : List ℕ
  sentSince : Bool
  handledUpTo : ℕ

def start (shouldSendOnThisInstance : Bool) (db : Database) : World where
  queue := .init shouldSendOnThisInstance
  db := db
  loop := .idle
  transactions := []
  stored := []
  sentSince := false
  handledUpTo := (values db.destinationRooms).foldr max (db.lastSuccessfulStreamOrdering.getD 0)

/-- What can happen next: an event gets its row and comes to the queue, other data comes, or
what the loop waits for has come, or failed. -/
inductive Op where
  | storeRow (pdu : Pdu)
  | sendPdu (pdu : Pdu)
  | attemptNewTransaction
  | markNewData
  | queryRuns
  | succeeded
  | eventsRead (readable : List String)
  | roomRead (extrems : List Pdu) (partialState : Bool) (allowed : List String)
  | entered (pendingEdus : Bool)
  | notRetrying (retryInterval : ℕ)
  | failed
  deriving DecidableEq

def startCatchingUp (q : Queue) : Queue := { q with catchingUp := true, pendingPdus := [] }

def attemptNewTransaction (w : World) : World :=
  let w := { w with queue := { w.queue with newDataToSend := true } }
  if w.loop ≠ .idle then w
  else if !w.queue.shouldSendOnThisInstance then w
  else { w with loop := .limiter }

def sendPdu (pdu : Pdu) (w : World) : World :=
  if !w.queue.catchingUp ∨ w.queue.lastSuccessfulStreamOrdering = none then
    attemptNewTransaction
      { w with queue := { w.queue with pendingPdus := w.queue.pendingPdus ++ [pdu] } }
  else if pdu.streamOrdering = 0 then w
  else attemptNewTransaction
    { w with queue := { w.queue with catchupLastSkipped := pdu.streamOrdering } }

def storeRow (pdu : Pdu) (w : World) : World :=
  { w with
    db := storeDestinationRoomsEntry pdu w.db
    handledUpTo := max w.handledUpTo pdu.streamOrdering }

def catchupRetryInterval : ℕ := 60*60*1000

def stop (w : World) : World := { w with loop := .idle }

def notRetrying (retryInterval : ℕ) (w : World) : World :=
  if retryInterval > catchupRetryInterval then stop { w with queue := startCatchingUp w.queue }
  else stop w

def transmit (w : World) : World :=
  { w with queue := { w.queue with newDataToSend := false }, loop := .entering }

def catchUpTransmissionLoop (w : World) : World :=
  match w.queue.lastSuccessfulStreamOrdering with
  | none => { w with loop := .position }
  | some last => { w with loop := .catchUpIds false last none }

def caughtUp (w : World) : World :=
  transmit { w with queue := { w.queue with catchingUp := false } }

def positionRead (w : World) : World :=
  let w := { w with
    queue := { w.queue with lastSuccessfulStreamOrdering := w.db.lastSuccessfulStreamOrdering }
    sentSince := false }
  match w.db.lastSuccessfulStreamOrdering with
  | none => caughtUp w
  | some last => { w with loop := .catchUpIds true last none }

def idsRead (first : Bool) (last : ℕ) (found : List Pdu) (w : World) : World :=
  if found = [] then
    if w.queue.catchupLastSkipped > last then { w with loop := .catchUpIds first last none }
    else caughtUp w
  else if first then
    { w with queue := startCatchingUp w.queue, loop := .catchUpEvents first last found }
  else { w with loop := .catchUpEvents first last found }

def nextRoom (first : Bool) (last : ℕ) (rest : List Pdu) (w : World) : World :=
  match rest with
  | [] => { w with loop := .catchUpIds first last none }
  | pdu::rest => { w with loop := .catchUpRoom first last pdu rest }

def eventsRead (first : Bool) (last : ℕ) (catchupPdus : List Pdu) (w : World) : World :=
  if catchupPdus = [] then stop w else nextRoom first last catchupPdus w

/-- The newest events of the room that the destination may see, or else the one that it missed. -/
def roomCatchupPdus (last : ℕ) (pdu : Pdu) (extrems : List Pdu) (partialState : Bool)
    (allowed : List String) : Raises (List Pdu) :=
  if pdu.eventId ∈ extrems.map Pdu.eventId then .ok [pdu]
  else if partialState then .ok [pdu]
  else if ∃ p ∈ extrems, p.streamOrdering = 0 then .error .assertionError
  else
    match (extrems.filter (fun p => last ≤ p.streamOrdering)).filter
        (fun p => p.eventId ∈ allowed) with
    | [] => .ok [pdu]
    | newPdus => .ok newPdus

def roomRead (first : Bool) (last : ℕ) (pdu : Pdu) (rest : List Pdu) (room : Raises (List Pdu))
    (w : World) : World :=
  match room with
  | .error _ => stop w
  | .ok room => { w with loop := .catchUpSend first last pdu rest room }

def catchUpSent (first : Bool) (pdu : Pdu) (rest room : List Pdu) (w : World) : World :=
  if pdu.streamOrdering = 0 then stop { w with transactions := room::w.transactions }
  else
    { w with
      queue := { w.queue with lastSuccessfulStreamOrdering := some pdu.streamOrdering }
      loop := .catchUpStore first pdu.streamOrdering rest
      transactions := room::w.transactions
      stored := pdu.streamOrdering::w.stored
      sentSince := false }

def catchUpStored (first : Bool) (last : ℕ) (rest : List Pdu) (w : World) : World :=
  nextRoom first last rest { w with db := setLastSuccessful last w.db }

def pdusPerTransaction : ℕ := 50

/-- `_TransactionQueueManager.__aenter__` and what is done with its result. -/
def entered (pendingEdus : Bool) (w : World) : World :=
  match (w.queue.pendingPdus.take pdusPerTransaction).getLast? with
  | none =>
    if pendingEdus then { w with loop := .sending [] }
    else if w.queue.newDataToSend then transmit w
    else stop w
  | some pdu =>
    if pdu.streamOrdering = 0 then stop w
    else { w with loop := .sending (w.queue.pendingPdus.take pdusPerTransaction) }

/-- `__aexit__` up to its first wait -/
def sent (pdus : List Pdu) (w : World) : World :=
  { w with
    queue := { w.queue with pendingPdus := w.queue.pendingPdus.drop pdus.length }
    loop := .exiting pdus
    transactions := pdus::w.transactions }

/-- The rest of `__aexit__` -/
def exited (pdus : List Pdu) (w : World) : World :=
  match pdus.getLast? with
  | none => transmit w
  | some pdu =>
    { w with
      loop := .storing pdu.streamOrdering
      stored := pdu.streamOrdering::w.stored
      sentSince := true }

def succeeded (w : World) : World :=
  match w.loop with
  | .limiter => if w.queue.catchingUp then catchUpTransmissionLoop w else transmit w
  | .position => positionRead w
  | .catchUpIds first last (some found) => idsRead first last found w
  | .catchUpSend first _ pdu rest room => catchUpSent first pdu rest room w
  | .catchUpStore first last rest => catchUpStored first last rest w
  | .sending pdus => sent pdus w
  | .exiting pdus => exited pdus w
  | .storing last => transmit { w with db := setLastSuccessful last w.db }
  | _ => w

def step (op : Op) (w : World) : World :=
  match op with
  | .storeRow pdu => storeRow pdu w
  | .sendPdu pdu => sendPdu pdu w
  | .attemptNewTransaction => attemptNewTransaction w
  | .markNewData => { w with queue := { w.queue with newDataToSend := true } }
  | .queryRuns =>
    match w.loop with
    | .catchUpIds first last none =>
      { w with loop := .catchUpIds first last (some (getCatchUpRoomEventIds w.db last)) }
    | _ => w
  | .succeeded => succeeded w
  | .eventsRead readable =>
    match w.loop with
    | .catchUpEvents first last found =>
      eventsRead first last (found.filter (fun pdu => pdu.eventId ∈ readable)) w
    | _ => w
  | .roomRead extrems partialState allowed =>
    match w.loop with
    | .catchUpRoom first last pdu rest =>
      roomRead first last pdu rest (roomCatchupPdus last pdu extrems partialState allowed) w
    | _ => w
  | .entered pendingEdus =>
    match w.loop with
    | .entering => entered pendingEdus w
    | _ => w
  | .notRetrying retryInterval =>
    match w.loop with
    | .limiter | .catchUpSend .. | .sending _ => notRetrying retryInterval w
    | _ => w
  | .failed => stop w

section Query

variable {db : Database} {la : ℕ}

structure Between (low high : ℕ) (pdus : List Pdu) : Prop where
  sorted : pdus.Pairwise (fun p q => p.streamOrdering ≤ q.streamOrdering)
  above : ∀ p ∈ pdus, low ≤ p.streamOrdering
  below : ∀ p ∈ pdus, p.streamOrdering ≤ high

variable {high low : ℕ} {pdus : List Pdu}

theorem Between.sublist {pdus' : List Pdu} (h : Between low high pdus) (hs : pdus'.Sublist pdus) :
    Between low high pdus' where
  sorted := h.sorted.sublist hs
  above := fun p hp => h.above p (hs.subset hp)
  below := fun p hp => h.below p (hs.subset hp)

theorem Between.mono {hi' : ℕ} (h : Between low high pdus) (hle : high ≤ hi') :
    Between low hi' pdus where
  sorted := h.sorted
  above := h.above
  below := fun p hp => (h.below p hp).trans hle

theorem Between.tail {pdu : Pdu} (h : Between low high (pdu::pdus)) :
    Between pdu.streamOrdering high pdus where
  sorted := (pairwise_cons.mp h.sorted).2
  above := (pairwise_cons.mp h.sorted).1
  below := fun p hp => h.below p (mem_cons_of_mem pdu hp)

theorem between_nil (low high : ℕ) : Between low high [] := by
  constructor <;> simp

theorem getCatchUpRoomEventIds_between (hr : All (fun _ so => so ≤ high) db.destinationRooms) :
    Between la high (getCatchUpRoomEventIds db la) := by
  set orderings := ((values db.destinationRooms).filter (la < ·)).insertionSort (· ≤ ·) with ho
  have hm : ∀ so ∈ orderings, la < so ∧ so ≤ high := by
    intro so hin
    rw [mem_insertionSort,mem_filter,mem_values] at hin
    obtain ⟨⟨r,hro⟩,hl⟩ := hin
    exact ⟨by simpa using hl,hr r so hro⟩
  have hs : orderings.Pairwise (· ≤ ·) := pairwise_insertionSort (· ≤ ·) _
  have hj : ∀ p ∈ orderings.flatMap (fun so =>
      db.events.filter (fun pdu => pdu.streamOrdering = so)), p.streamOrdering ∈ orderings := by
    intro p hp
    obtain ⟨so,hin,hp⟩ := mem_flatMap.mp hp
    obtain rfl := of_decide_eq_true (mem_filter.mp hp).2
    exact hin
  refine Between.sublist ?_ (take_sublist _ _)
  refine ⟨?_,fun p hp => (hm _ (hj p hp)).1.le,fun p hp => (hm _ (hj p hp)).2⟩
  rw [pairwise_flatMap]
  refine ⟨?_,hs.imp ?_⟩
  · intro so _
    refine pairwise_of_forall_mem_list (fun p hp q hq => ?_)
    rw [of_decide_eq_true (mem_filter.mp hp).2,of_decide_eq_true (mem_filter.mp hq).2]
  · intro o o' hle p hp q hq
    rw [of_decide_eq_true (mem_filter.mp hp).2,of_decide_eq_true (mem_filter.mp hq).2]
    exact hle

end Query

section Invariant

/-- While the loop catches up, nothing comes to the queue. -/
def CatchingUp (w : World) (last : ℕ) : Prop :=
  w.queue.catchingUp = true ∧ w.queue.lastSuccessfulStreamOrdering = some last

def AtPosition (w : World) (last : ℕ) : Prop :=
  CatchingUp w last ∧ w.db.lastSuccessfulStreamOrdering = some last

def PhaseInv (w : World) : Phase → Prop
  | .idle | .limiter => True
  | .position => w.queue.catchingUp = true ∧ w.queue.lastSuccessfulStreamOrdering = none
  | .catchUpIds first last found => AtPosition w last ∧
      (∀ pdus ∈ found, Between last w.handledUpTo pdus) ∧
        (first = false → w.queue.pendingPdus = [])
  | .catchUpEvents _ last found => AtPosition w last ∧ Between last w.handledUpTo found ∧
      w.queue.pendingPdus = []
  | .catchUpRoom _ last pdu rest => AtPosition w last ∧ Between last w.handledUpTo (pdu::rest) ∧
      w.queue.pendingPdus = []
  | .catchUpSend _ last pdu rest _ => AtPosition w last ∧
      Between last w.handledUpTo (pdu::rest) ∧ w.queue.pendingPdus = []
  | .catchUpStore _ last rest => CatchingUp w last ∧ last ≤ w.handledUpTo ∧
      Between last w.handledUpTo rest ∧ w.queue.pendingPdus = [] ∧
        ∀ ordering ∈ w.stored, ordering ≤ last
  | .entering => w.queue.catchingUp = false
  | .sending pdus => w.queue.catchingUp = false ∧ pdus <+: w.queue.pendingPdus
  | .exiting pdus => w.queue.catchingUp = false ∧
      (∀ p ∈ pdus, p.streamOrdering ≤ w.handledUpTo ∧
        (∀ ordering ∈ w.stored, ordering ≤ p.streamOrdering) ∧
          ∀ q ∈ w.queue.pendingPdus, p.streamOrdering ≤ q.streamOrdering)
  | .storing last => w.queue.catchingUp = false ∧ last ≤ w.handledUpTo ∧
      (∀ ordering ∈ w.stored, ordering ≤ last) ∧ w.sentSince = true

/-- A position has been passed on, and the database does not have it yet. -/
def Storing : Phase → Prop
  | .catchUpStore .. | .storing _ => True
  | _ => False

structure Inv (w : World) : Prop where
  sorted : w.stored.Pairwise (· ≥ ·)
  bounded : ∀ ordering ∈ w.stored, ordering ≤ w.handledUpTo
  known : ∀ last ∈ w.db.lastSuccessfulStreamOrdering, last ≤ w.handledUpTo
  rows : All (fun _ ordering => ordering ≤ w.handledUpTo) w.db.destinationRooms
  pending : Between 0 w.handledUpTo w.queue.pendingPdus
  ahead : ∀ p ∈ w.queue.pendingPdus, ∀ ordering ∈ w.stored, ordering ≤ p.streamOrdering
  cleared : w.queue.catchingUp = true → w.queue.lastSuccessfulStreamOrdering ≠ none →
    w.queue.pendingPdus = [] ∨ ∃ last found, w.loop = .catchUpIds true last found
  current : ¬Storing w.loop → ∀ ordering ∈ w.stored,
    ∃ last, w.db.lastSuccessfulStreamOrdering = some last ∧ ordering ≤ last
  fresh : ¬Storing w.loop → w.sentSince = false → w.queue.lastSuccessfulStreamOrdering ≠ none →
    w.queue.lastSuccessfulStreamOrdering = w.db.lastSuccessfulStreamOrdering
  phase : PhaseInv w w.loop

/-- No failure of the database when a position is stored, or when it is first asked what to
catch up on while events wait. -/
def MayFail (q : Queue) : Phase → Prop
  | .catchUpIds true _ _ => q.pendingPdus = []
  | .catchUpStore .. => False
  | .storing _ => False
  | _ => True

instance decidableMayFail (q : Queue) : ∀ phase, Decidable (MayFail q phase)
  | .catchUpIds true _ _ => inferInstanceAs (Decidable (q.pendingPdus = []))
  | .catchUpIds false _ _ => inferInstanceAs (Decidable True)
  | .catchUpStore .. | .storing _ => inferInstanceAs (Decidable False)
  | .idle | .limiter | .position | .catchUpEvents .. | .catchUpRoom .. | .catchUpSend ..
  | .entering | .sending _ | .exiting _ => inferInstanceAs (Decidable True)

/-- Events come to the queue in the order of the stream, each before the next one is handled;
the loop does not catch up from a copy of the position that an ordinary transaction has passed;
and the database does not fail where it must not. -/
def Orderly (op : Op) (w : World) : Prop :=
  match op with
  | .sendPdu pdu => pdu.streamOrdering = w.handledUpTo
  | .succeeded => w.loop = .limiter → w.queue.catchingUp = true →
      w.queue.lastSuccessfulStreamOrdering ≠ none → w.sentSince = false
  | .failed => MayFail w.queue w.loop
  | _ => True

instance decidableOrderly (op : Op) (w : World) : Decidable (Orderly op w) :=
  match op with
  | .sendPdu pdu => inferInstanceAs (Decidable (pdu.streamOrdering = w.handledUpTo))
  | .succeeded => inferInstanceAs (Decidable (_ → _ → _ → _))
  | .failed => decidableMayFail w.queue w.loop
  | .storeRow _ | .attemptNewTransaction | .markNewData | .queryRuns | .eventsRead _
  | .roomRead .. | .entered _ | .notRetrying _ => inferInstanceAs (Decidable True)

variable {w : World}

theorem PhaseInv.handled {ph : Phase} {high : ℕ} (h : PhaseInv w ph) (hle : w.handledUpTo ≤ high) :
    PhaseInv { w with handledUpTo := high } ph := by
  cases ph with
  | idle | limiter => trivial
  | position => exact h
  | catchUpIds first la fd => exact ⟨h.1,fun pdus hpd => (h.2.1 pdus hpd).mono hle,h.2.2⟩
  | catchUpEvents _ _ _ | catchUpRoom _ _ _ _ | catchUpSend _ _ _ _ _ =>
    exact ⟨h.1,h.2.1.mono hle,h.2.2⟩
  | catchUpStore first la rs => exact ⟨h.1,h.2.1.trans hle,h.2.2.1.mono hle,h.2.2.2⟩
  | entering | sending _ => exact h
  | exiting pdus => exact ⟨h.1,fun p hp => ⟨(h.2 p hp).1.trans hle,(h.2 p hp).2⟩⟩
  | storing la => exact ⟨h.1,h.2.1.trans hle,h.2.2⟩

section

variable (h : Inv w)
include h

theorem Inv.settled {ph : Phase} (hl : w.loop = ph) (hp : ¬Storing ph) :
    ¬Storing w.loop ∧ PhaseInv w ph :=
  ⟨hl ▸ hp,hl ▸ h.phase⟩

theorem Inv.goto (hs : ¬Storing w.loop) {ph : Phase} (newData : Bool)
    (hp : PhaseInv w ph)
    (hc : w.queue.catchingUp = true → w.queue.lastSuccessfulStreamOrdering ≠ none →
      w.queue.pendingPdus = [] ∨ ∃ la fd, ph = .catchUpIds true la fd) :
    Inv { w with queue := { w.queue with newDataToSend := newData }, loop := ph } :=
  { h with
    cleared := hc
    current := fun _ => h.current hs
    fresh := fun _ => h.fresh hs
    phase := hp }

theorem Inv.newData (newData : Bool) :
    Inv { w with queue := { w.queue with newDataToSend := newData } } :=
  { h with }

theorem Inv.skipped (so : ℕ) : Inv { w with queue := { w.queue with catchupLastSkipped := so } } :=
  { h with }

theorem Inv.attemptNewTransaction : Inv (attemptNewTransaction w) := by
  unfold PerDestinationQueue.attemptNewTransaction
  dsimp only
  split
  · exact h.newData true
  · next hi =>
    rw [not_ne_iff] at hi
    split
    · exact h.newData true
    · refine h.goto (by rw [hi]; exact id) true trivial ?_
      intro hc hca
      refine .inl ((h.cleared hc hca).resolve_right ?_)
      rintro ⟨la,fd,hl⟩
      rw [hi] at hl
      cases hl

theorem Inv.storeRow (pdu : Pdu) : Inv (storeRow pdu w) :=
  { h with
    bounded := fun so hin => (h.bounded so hin).trans (le_max_left _ _)
    known := fun la hl => (h.known la hl).trans (le_max_left _ _)
    rows := All.set (fun r so hr => (h.rows r so hr).trans (le_max_left _ _)) (le_max_right _ _)
    pending := h.pending.mono (le_max_left _ _)
    phase := h.phase.handled (le_max_left _ _) }

theorem Inv.enqueue {pdu : Pdu} (hpdu : pdu.streamOrdering = w.handledUpTo)
    (ho : ¬(w.queue.catchingUp = true ∧ w.queue.lastSuccessfulStreamOrdering ≠ none)) :
    Inv { w with queue := { w.queue with pendingPdus := w.queue.pendingPdus ++ [pdu] } } :=
  { h with
    pending := by
      refine ⟨?_,fun p _ => Nat.zero_le _,?_⟩
      · refine pairwise_append.mpr ⟨h.pending.sorted,pairwise_singleton _ _,?_⟩
        intro p hp q hq
        rw [mem_singleton.mp hq,hpdu]
        exact h.pending.below p hp
      · exact forall_mem_append.mpr ⟨h.pending.below,forall_mem_singleton.mpr hpdu.le⟩
    ahead := by
      refine forall_mem_append.mpr ⟨h.ahead,forall_mem_singleton.mpr ?_⟩
      rw [hpdu]
      exact h.bounded
    cleared := fun hca hcc => absurd ⟨hca,hcc⟩ ho
    phase := by
      have hc : ∀ la, ¬CatchingUp w la := by
        intro la hca
        exact ho ⟨hca.1,by simp [hca.2]⟩
      have hph := h.phase
      revert hph
      cases w.loop with
      | idle | limiter | position => exact id
      | catchUpIds first la fd => exact fun hph => absurd hph.1.1 (hc la)
      | catchUpEvents first la fd => exact fun hph => absurd hph.1.1 (hc la)
      | catchUpRoom first la p rs => exact fun hph => absurd hph.1.1 (hc la)
      | catchUpSend first la p rs r => exact fun hph => absurd hph.1.1 (hc la)
      | catchUpStore first la rs => exact fun hph => absurd hph.1 (hc la)
      | entering => exact id
      | sending pdus => exact fun hph => ⟨hph.1,hph.2.trans (prefix_append _ _)⟩
      | exiting pdus =>
        refine fun hph => ⟨hph.1,fun p hp => ⟨(hph.2 p hp).1,(hph.2 p hp).2.1,?_⟩⟩
        exact forall_mem_append.mpr
          ⟨(hph.2 p hp).2.2,forall_mem_singleton.mpr (hpdu ▸ (hph.2 p hp).1)⟩
      | storing la => exact id }

theorem Inv.sendPdu {pdu : Pdu} (hp : pdu.streamOrdering = w.handledUpTo) :
    Inv (sendPdu pdu w) := by
  unfold PerDestinationQueue.sendPdu
  split
  · next ho =>
    refine (h.enqueue hp ?_).attemptNewTransaction
    rintro ⟨hc,hca⟩
    rcases ho with ho | ho
    · simp [hc] at ho
    · exact hca ho
  · split
    · exact h
    · exact (h.skipped _).attemptNewTransaction

theorem Inv.stop (hs : ¬Storing w.loop)
    (hf : ∀ la fd, w.loop = .catchUpIds true la fd → w.queue.pendingPdus = []) : Inv (stop w) := by
  refine h.goto hs w.queue.newDataToSend trivial ?_
  intro hc hca
  rcases h.cleared hc hca with he | ⟨la,fd,hl⟩
  · exact .inl he
  · exact .inl (hf la fd hl)

end

end Invariant

section Transmission

variable {w : World}

section

variable (h : Inv w)
include h

section

variable (hs : ¬Storing w.loop)
include hs

theorem Inv.startCatchingUp {ph : Phase}
    (hph : PhaseInv { w with queue := startCatchingUp w.queue } ph) :
    Inv { w with queue := startCatchingUp w.queue, loop := ph } :=
  { h with
    pending := between_nil 0 _
    ahead := by
      intro p hp
      cases hp
    cleared := fun _ _ => .inl rfl
    current := fun _ => h.current hs
    fresh := fun _ => h.fresh hs
    phase := hph }

theorem Inv.notRetrying (hf : ∀ la fd, w.loop ≠ .catchUpIds true la fd) (retryInterval : ℕ) :
    Inv (notRetrying retryInterval w) := by
  unfold PerDestinationQueue.notRetrying
  split
  · exact h.startCatchingUp hs trivial
  · exact h.stop hs (fun la fd hl => absurd hl (hf la fd))

theorem Inv.transmit (hc : w.queue.catchingUp = false) : Inv (transmit w) := by
  refine h.goto hs false hc ?_
  intro hca
  rw [hc] at hca
  cases hca

theorem Inv.caughtUp : Inv (caughtUp w) :=
  { h with
    cleared := by
      intro hc
      cases hc
    current := fun _ => h.current hs
    fresh := fun _ => h.fresh hs
    phase := rfl }

end

theorem Inv.limited (hl : w.loop = .limiter)
    (hu : w.queue.lastSuccessfulStreamOrdering ≠ none → w.sentSince = false)
    (hca : w.queue.catchingUp = true) : Inv (catchUpTransmissionLoop w) := by
  have hs : ¬Storing w.loop := by rw [hl]; exact id
  unfold catchUpTransmissionLoop
  split
  · next hc =>
    refine h.goto hs w.queue.newDataToSend ⟨hca,hc⟩ ?_
    intro _ hne
    exact absurd hc hne
  · next la hc =>
    have hne : w.queue.lastSuccessfulStreamOrdering ≠ none := by simp [hc]
    have he : w.queue.pendingPdus = [] := by
      refine (h.cleared hca hne).resolve_right ?_
      rintro ⟨la,fd,ho⟩
      rw [hl] at ho
      cases ho
    refine h.goto hs w.queue.newDataToSend ⟨⟨⟨hca,hc⟩,?_⟩,?_,fun _ => he⟩ (fun _ _ => .inl he)
    · rw [← h.fresh hs (hu hne) hne]
      exact hc
    · intro pdus hp
      cases hp

theorem Inv.positionRead (hlo : w.loop = .position) : Inv (positionRead w) := by
  obtain ⟨hs,hp⟩ := h.settled hlo id
  unfold PerDestinationQueue.positionRead
  dsimp only
  split
  · next hn =>
    exact
      { h with
        cleared := by
          intro hc
          cases hc
        current := fun _ => h.current hs
        fresh := fun _ _ _ => rfl
        phase := rfl }
  · next la hl =>
    exact
      { h with
        cleared := fun _ _ => .inr ⟨la,none,rfl⟩
        current := fun _ => h.current hs
        fresh := fun _ _ _ => rfl
        phase := by
          refine ⟨⟨⟨hp.1,hl⟩,hl⟩,?_,?_⟩
          · intro pdus hpd
            cases hpd
          · intro hf
            cases hf }

end

variable {last : ℕ} {fs : Bool} {rs pdus : List Pdu}

section

variable (h : Inv w)
include h

theorem Inv.queryRuns (hl : w.loop = .catchUpIds fs last none) :
    Inv { w with loop := .catchUpIds fs last (some (getCatchUpRoomEventIds w.db last)) } := by
  obtain ⟨hs,hp⟩ := h.settled hl id
  refine h.goto hs w.queue.newDataToSend ⟨hp.1,?_,hp.2.2⟩ ?_
  · intro pdus hpd
    cases hpd
    exact getCatchUpRoomEventIds_between h.rows
  · intro hc hca
    refine (h.cleared hc hca).imp id ?_
    rintro ⟨la',fd,ho⟩
    rw [hl] at ho
    cases ho
    exact ⟨last,_,rfl⟩

theorem Inv.idsRead {fd : List Pdu} (hl : w.loop = .catchUpIds fs last (some fd)) :
    Inv (idsRead fs last fd w) := by
  obtain ⟨hs,hat,hf,hfi⟩ := h.settled hl id
  unfold PerDestinationQueue.idsRead
  split
  · split
    · refine h.goto hs w.queue.newDataToSend ⟨hat,?_,hfi⟩ ?_
      · intro pdus hp
        cases hp
      · intro hc hca
        refine (h.cleared hc hca).imp id ?_
        rintro ⟨la',fd',ho⟩
        rw [hl] at ho
        cases ho
        exact ⟨last,none,rfl⟩
    · exact h.caughtUp hs
  · split
    · exact h.startCatchingUp hs ⟨⟨⟨rfl,hat.1.2⟩,hat.2⟩,hf fd rfl,rfl⟩
    · next hn =>
      have he := hfi (by simpa using hn)
      exact h.goto hs w.queue.newDataToSend ⟨hat,hf fd rfl,he⟩ (fun _ _ => .inl he)

theorem Inv.nextRoom (hs : ¬Storing w.loop) (fs : Bool) (hat : AtPosition w last)
    (hr : Between last w.handledUpTo rs) (he : w.queue.pendingPdus = []) :
    Inv (nextRoom fs last rs w) := by
  cases rs with
  | nil =>
    refine h.goto hs w.queue.newDataToSend ⟨hat,?_,fun _ => he⟩ (fun _ _ => .inl he)
    intro pdus hp
    cases hp
  | cons pdu rs =>
    exact h.goto hs w.queue.newDataToSend ⟨hat,hr,he⟩ (fun _ _ => .inl he)

theorem Inv.eventsRead {fd : List Pdu} (hl : w.loop = .catchUpEvents fs last fd)
    (hsub : pdus.Sublist fd) : Inv (eventsRead fs last pdus w) := by
  obtain ⟨hs,hat,hf,he⟩ := h.settled hl id
  unfold PerDestinationQueue.eventsRead
  split
  · exact h.stop hs (fun _ _ _ => he)
  · exact h.nextRoom hs fs hat (hf.sublist hsub) he

theorem Inv.roomRead {pdu : Pdu} (hl : w.loop = .catchUpRoom fs last pdu rs)
    (r : Raises (List Pdu)) : Inv (roomRead fs last pdu rs r w) := by
  obtain ⟨hs,hat,hr,he⟩ := h.settled hl id
  cases r with
  | error e => exact h.stop hs (fun _ _ _ => he)
  | ok r =>
    exact h.goto hs w.queue.newDataToSend ⟨hat,hr,he⟩ (fun _ _ => .inl he)

theorem Inv.catchUpSent {pdu : Pdu} {r : List Pdu}
    (hlo : w.loop = .catchUpSend fs last pdu rs r) : Inv (catchUpSent fs pdu rs r w) := by
  obtain ⟨hse,hat,hr,he⟩ := h.settled hlo id
  have hst : ∀ so ∈ w.stored, so ≤ pdu.streamOrdering := by
    intro so hin
    obtain ⟨la',hl',hle⟩ := h.current hse so hin
    rw [hat.2] at hl'
    cases hl'
    exact hle.trans (hr.above pdu mem_cons_self)
  unfold PerDestinationQueue.catchUpSent
  split
  · exact { h.stop hse (fun _ _ _ => he) with }
  · exact
      { h with
        sorted := pairwise_cons.mpr ⟨hst,h.sorted⟩
        bounded := forall_mem_cons.mpr ⟨hr.below pdu mem_cons_self,h.bounded⟩
        ahead := by
          intro p hp
          rw [show _ = [] from he] at hp
          cases hp
        cleared := fun _ _ => .inl he
        current := fun hn => absurd trivial hn
        fresh := fun hn => absurd trivial hn
        phase := ⟨⟨hat.1.1,rfl⟩,hr.below pdu mem_cons_self,hr.tail,he,
          forall_mem_cons.mpr ⟨le_rfl,hst⟩⟩ }

theorem Inv.written (hk : last ≤ w.handledUpTo) (hs : ∀ so ∈ w.stored, so ≤ last)
    (hf : w.sentSince = false → w.queue.lastSuccessfulStreamOrdering = some last)
    (hc : w.queue.catchingUp = true → w.queue.pendingPdus = []) :
    Inv { w with db := setLastSuccessful last w.db, loop := .idle } :=
  { h with
    known := by
      intro la' hl'
      cases hl'
      exact hk
    cleared := fun hca _ => .inl (hc hca)
    current := fun _ so hin => ⟨last,rfl,hs so hin⟩
    fresh := fun _ hu _ => hf hu
    phase := trivial }

theorem Inv.catchUpStored (hl : w.loop = .catchUpStore fs last rs) :
    Inv (catchUpStored fs last rs w) := by
  have hp := h.phase
  rw [hl] at hp
  obtain ⟨hc,hk,hr,he,hs⟩ := hp
  have hw := h.written hk hs (fun _ => hc.2) (fun _ => he)
  have hn := hw.nextRoom (fun hst => hst) fs ⟨hc,rfl⟩ hr he
  cases rs <;> exact hn

theorem Inv.entered (hl : w.loop = .entering) (pendingEdus : Bool) :
    Inv (entered pendingEdus w) := by
  obtain ⟨hs,hp⟩ := h.settled hl id
  have hst : Inv (PerDestinationQueue.stop w) := by
    refine h.stop hs ?_
    intro last fd ho
    rw [hl] at ho
    cases ho
  have hse : ∀ pdus, pdus <+: w.queue.pendingPdus → Inv { w with loop := .sending pdus } := by
    intro pdus hpd
    refine h.goto hs w.queue.newDataToSend ⟨hp,hpd⟩ ?_
    intro hc
    rw [show _ = false from hp] at hc
    cases hc
  unfold PerDestinationQueue.entered
  split
  · split
    · exact hse [] nil_prefix
    · split
      · exact h.transmit hs hp
      · exact hst
  · split
    · exact hst
    · exact hse _ ( List.take_prefix _ _)

theorem Inv.sent (hl : w.loop = .sending pdus) : Inv (sent pdus w) := by
  obtain ⟨hs,hc,more,hm⟩ := h.settled hl id
  have hd : w.queue.pendingPdus.drop pdus.length = more := by
    rw [← hm]
    exact drop_left
  have hsub : more.Sublist w.queue.pendingPdus := by
    rw [← hm]
    exact sublist_append_right _ _
  have hso := h.pending.sorted
  rw [← hm,pairwise_append] at hso
  have hmem : ∀ p ∈ pdus, p ∈ w.queue.pendingPdus := by
    intro p hp
    rw [← hm]
    exact mem_append_left _ hp
  unfold PerDestinationQueue.sent
  rw [hd]
  exact
    { h with
      pending := h.pending.sublist hsub
      ahead := fun p hp => h.ahead p (hsub.subset hp)
      cleared := by
        intro hca
        rw [show _ = false from hc] at hca
        cases hca
      current := fun _ => h.current hs
      fresh := fun _ => h.fresh hs
      phase := ⟨hc,fun p hp => ⟨h.pending.below p (hmem p hp),h.ahead p (hmem p hp),hso.2.2 p hp⟩⟩ }

theorem Inv.exited (hl : w.loop = .exiting pdus) : Inv (exited pdus w) := by
  obtain ⟨hse,hc,hpd⟩ := h.settled hl id
  unfold PerDestinationQueue.exited
  split
  · exact h.transmit hse hc
  · next pdu hla =>
    obtain ⟨hk,hs,ha⟩ := hpd pdu (mem_of_getLast? hla)
    exact
      { h with
        sorted := pairwise_cons.mpr ⟨hs,h.sorted⟩
        bounded := forall_mem_cons.mpr ⟨hk,h.bounded⟩
        ahead := fun p hp => forall_mem_cons.mpr ⟨ha p hp,h.ahead p hp⟩
        cleared := by
          intro hca
          rw [show _ = false from hc] at hca
          cases hca
        current := fun hn => absurd trivial hn
        fresh := fun hn => absurd trivial hn
        phase := ⟨hc,hk,forall_mem_cons.mpr ⟨le_rfl,hs⟩,rfl⟩ }

theorem Inv.stored_transmit (hl : w.loop = .storing last) :
    Inv (PerDestinationQueue.transmit { w with db := setLastSuccessful last w.db }) := by
  have hp := h.phase
  rw [hl] at hp
  obtain ⟨hc,hk,hs,hse⟩ := hp
  have hw := h.written hk hs (by intro hu; rw [hse] at hu; cases hu)
    (by intro hca; rw [hc] at hca; cases hca)
  exact hw.transmit (fun hst => hst) hc

theorem Inv.succeeded (ho : Orderly .succeeded w) : Inv (succeeded w) := by
  unfold PerDestinationQueue.succeeded
  split
  · next hl =>
    split
    · next hc => exact h.limited hl (ho hl hc) hc
    · next hca => exact h.transmit (by rw [hl]; exact id) (by simpa using hca)
  · next hl => exact h.positionRead hl
  · next hl => exact h.idsRead hl
  · next hl => exact h.catchUpSent hl
  · next hl => exact h.catchUpStored hl
  · next hl => exact h.sent hl
  · next hl => exact h.exited hl
  · next hl => exact h.stored_transmit hl
  · exact h

theorem Inv.failed (ho : MayFail w.queue w.loop) : Inv (PerDestinationQueue.stop w) := by
  refine h.stop ?_ ?_
  · intro hs
    revert ho hs
    cases w.loop with
    | catchUpStore _ _ _ | storing _ => exact fun hn _ => hn
    | _ => exact fun _ hn => hn
  · intro last fd hl
    rw [hl] at ho
    exact ho

end

theorem step_inv (op : Op) (w : World) (h : Inv w) (ho : Orderly op w) : Inv (step op w) := by
  cases op with
  | storeRow pdu => exact h.storeRow pdu
  | sendPdu pdu => exact h.sendPdu ho
  | attemptNewTransaction => exact h.attemptNewTransaction
  | markNewData => exact h.newData true
  | queryRuns =>
    unfold step
    dsimp only
    split
    · next hl => exact h.queryRuns hl
    · exact h
  | succeeded => exact h.succeeded ho
  | eventsRead readable =>
    unfold step
    dsimp only
    split
    · next hl => exact h.eventsRead hl filter_sublist
    · exact h
  | roomRead extrems partialState allowed =>
    unfold step
    dsimp only
    split
    · next hl => exact h.roomRead hl _
    · exact h
  | entered pendingEdus =>
    unfold step
    dsimp only
    split
    · next hl => exact h.entered hl pendingEdus
    · exact h
  | notRetrying retryInterval =>
    unfold step
    dsimp only
    split
    · next hl => exact h.notRetrying (by rw [hl]; exact id) (by simp [hl]) _
    · next hl => exact h.notRetrying (by rw [hl]; exact id) (by simp [hl]) _
    · next hl => exact h.notRetrying (by rw [hl]; exact id) (by simp [hl]) _
    · exact h
  | failed => exact h.failed ho

end Transmission

theorem foldr_max_bounds (orderings : List ℕ) (low : ℕ) :
    low ≤ orderings.foldr max low ∧ ∀ so ∈ orderings, so ≤ orderings.foldr max low := by
  induction orderings with
  | nil => simp
  | cons so orderings ih =>
    exact ⟨ih.1.trans (le_max_right _ _),forall_mem_cons.mpr
      ⟨le_max_left _ _,fun o ho => (ih.2 o ho).trans (le_max_right _ _)⟩⟩

theorem start_inv (shouldSendOnThisInstance : Bool) (db : Database) :
    Inv (start shouldSendOnThisInstance db) := by
  have hb := foldr_max_bounds (values db.destinationRooms) (db.lastSuccessfulStreamOrdering.getD 0)
  exact
    { sorted := List.Pairwise.nil
      bounded := by
        intro so hin
        cases hin
      known := by
        intro la hl
        have heq : db.lastSuccessfulStreamOrdering.getD 0 = la := by
          rw [show db.lastSuccessfulStreamOrdering = some la from hl]
          rfl
        exact heq.symm.le.trans hb.1
      rows := fun r so hr =>
        hb.2 so ((mem_values _ _).mpr ⟨r,hr⟩)
      pending := between_nil 0 _
      ahead := by
        intro p hp
        cases hp
      cleared := fun _ _ => .inl rfl
      current := by
        intro _ so hin
        cases hin
      fresh := fun _ _ hne => absurd rfl hne
      phase := trivial }

/-- In every run whose steps are orderly, the positions that are passed on to be stored never
decrease, and whenever the loop looks for what to catch up on, its position is that of the
database. -/
theorem stored_position_never_decreases (shouldSendOnThisInstance : Bool) (db : Database)
    (ops : List Op) (horderly : Admitted step Orderly ops (start shouldSendOnThisInstance db)) :
    (run step ops (start shouldSendOnThisInstance db)).stored.Pairwise (· ≥ ·) ∧
      ∀ first last found, (run step ops (start shouldSendOnThisInstance db)).loop =
            .catchUpIds first last found →
          (run step ops (start shouldSendOnThisInstance db)).queue.lastSuccessfulStreamOrdering
              = some last ∧
            (run step ops (start shouldSendOnThisInstance db)).db.lastSuccessfulStreamOrdering
              = some last := by
  have hinv : Inv (run step ops (start shouldSendOnThisInstance db)) :=
    horderly.invariant step_inv (start_inv shouldSendOnThisInstance db)
  refine ⟨hinv.sorted,?_⟩
  intro first last found hloop
  have hphase := hinv.phase
  rw [hloop] at hphase
  exact ⟨hphase.1.1.2,hphase.1.2⟩

def positionFive : Database where
  lastSuccessfulStreamOrdering := some 5
  destinationRooms := ∅
  events := []

def firstCheck : List Op :=
  [.attemptNewTransaction,.succeeded,.succeeded,.queryRuns,.succeeded,.entered false]

def sentAtOnce (pdu : Pdu) : List Op :=
  [.storeRow pdu,.sendPdu pdu,.succeeded,.entered false,.succeeded,.succeeded,.succeeded,
    .entered false]

def outage : List Op := [.attemptNewTransaction,.notRetrying (2*catchupRetryInterval)]

def inRoomA : Pdu := ⟨"$a","!a",7⟩

def inRoomB : Pdu := ⟨"$b","!b",10⟩

def recovery : List Op :=
  [.queryRuns,.succeeded,.eventsRead ["$a"],.roomRead [inRoomA] false [],.succeeded]

def atFirst : List Op :=
  [.storeRow inRoomA,.sendPdu inRoomA,.succeeded,.succeeded] ++ recovery ++
    [.succeeded,.queryRuns,.succeeded,.entered false] ++ sentAtOnce inRoomB

theorem stored_position_never_decreases_atFirst :
    (run step atFirst (start true positionFive)).stored = [10,7] ∧
      (run step atFirst (start true positionFive)).stored.Pairwise (· ≥ ·) :=
  ⟨by decide +kernel,
    (stored_position_never_decreases true positionFive atFirst (by decide +kernel)).1⟩

def afterOutage : List Op :=
  firstCheck ++ sentAtOnce inRoomA ++ sentAtOnce inRoomB ++ outage ++
    [.attemptNewTransaction,.succeeded]

/-- The copy of the position is not updated when ordinary transactions store theirs. After
an outage the loop catches up from the old position, and stores one before the last. -/
theorem stored_position_decreases :
    (run step afterOutage (start true positionFive)).loop = .catchUpIds false 5 none ∧
      (run step afterOutage (start true positionFive)).db.lastSuccessfulStreamOrdering = some 10 ∧
      (run step (afterOutage ++ recovery) (start true positionFive)).stored = [7,10,7] := by
  decide +kernel

end Synapse.PerDestinationQueue
