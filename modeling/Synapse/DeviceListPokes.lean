import Synapse.Runs

/-!
# From changes of devices to pokes of other servers

A change of a device is stored once for each room of its user. A loop takes these rows in
the order of stream ID and room, stores a poke for each server in the room, and marks the
later changes of the same device in the room as converted. Changes get their stream IDs,
and are stored, while the loop waits.
-/

set_option autoImplicit false

namespace Synapse.DeviceListPokes
open List Option Runs Nat

/-- The users of this server, and the servers in each room, which stay the same. -/
structure Config where
  isMine : String → Bool
  hostsInRoom : String → List String
  serverName : String

def Config.otherHosts (c : Config) (roomId : String) : List String :=
  (c.hostsInRoom roomId).filter (fun host => decide (host ≠ c.serverName))

structure Row where
  userId : String
  deviceId : String
  roomId : String
  streamId : ℕ
  deriving DecidableEq

abbrev Position := ℕ ×ₗ String

def Row.key (row : Row) : Position := toLex (row.streamId,row.roomId)

structure Entry where
  row : Row
  convertedToDestinations : Bool
  deriving DecidableEq

structure Poke where
  destination : String
  userId : String
  deviceId : String
  streamId : ℕ
  deriving DecidableEq

structure PendingChange where
  userId : String
  deviceIds : List String
  roomIds : List String
  streamIds : List ℕ
  stored : Bool
  deriving DecidableEq

/-- What the loop waits for. For a row that is marked, the last field is the stream ID of the first
pokes that were made for its change. -/
inductive Phase where
  | readPosition
  | query (maxStreamId : ℕ)
  | setMax (maxStreamId : ℕ)
  | hosts (row : Row) (rest : List Row)
  | poke (row : Row) (rest : List Row) (hosts : List String) (streamId : ℕ)
  | mark (row : Row) (rest : List Row) (hosts : List String) (firstPoke : Option ℕ)
  | setPosition
  deriving DecidableEq

structure Loop where
  position : Position
  currentStreamId : Option ℕ
  hostsAlreadySentTo : List String
  firstPoke : Option ℕ
  phase : Phase

structure World where
  lastId : ℕ
  changes : List PendingChange
  changesInRoom : List Entry
  outboundPokes : List Poke
  lastConverted : Position
  newData : Bool
  loop : Option Loop

def start : World := ⟨0,[],[],[],toLex (0,""),false,none⟩

section Streams

variable (w : World)

def rows : List Row := w.changesInRoom.map Entry.row

def Loop.pokeId (loop : Loop) : Option ℕ :=
  match loop.phase with
  | .poke _ _ _ streamId => some streamId
  | _ => none

def pending : List ℕ := w.changes.flatMap PendingChange.streamIds

def unfinished : List ℕ := pending w ++ (w.loop.bind Loop.pokeId).toList

/-- All stream IDs up to the token are finished. -/
def token : ℕ :=
  match (unfinished w).min? with
  | none => w.lastId
  | some streamId => streamId-1

def unconverted (start : Position) : List Row :=
  ((w.changesInRoom.filter (fun entry => decide (start < entry.row.key) &&
    decide (entry.row.streamId ≤ token w) && !entry.convertedToDestinations)).map
      Entry.row).insertionSort (fun row row' => row.key ≤ row'.key)

/-- `LIMIT 10` -/
def getUncovertedOutboundRoomPokes (start : Position) : List Row := (unconverted w start).take 10

end Streams

section LoopSteps

variable (c : Config) (w : World) (loop : Loop)

def top : World :=
  { w with newData := false, loop := some { loop with phase := .query (token w) } }

def goTo (phase : Phase) : World := { w with loop := some { loop with phase } }

def endOrContinue : World := if w.newData then top w loop else { w with loop := none }

def hostsToPoke (row : Row) : List String :=
  let hosts := if c.isMine row.userId then (c.otherHosts row.roomId).dedup else []
  if loop.currentStreamId = some row.streamId then
    hosts.filter (fun host => decide (host ∉ loop.hostsAlreadySentTo))
  else hosts

def firstPokeFor (row : Row) : Option ℕ :=
  if loop.currentStreamId = some row.streamId then loop.firstPoke else none

/-- `stream_id > ? AND user_id = ? AND device_id = ? AND room_id = ? AND NOT ...` -/
def redundant (row : Row) (entry : Entry) : Bool :=
  decide (row.streamId < entry.row.streamId) && decide (entry.row.userId = row.userId) &&
    decide (entry.row.deviceId = row.deviceId) && decide (entry.row.roomId = row.roomId) &&
    !entry.convertedToDestinations

def markRedundant (row : Row) : World :=
  { w with changesInRoom := w.changesInRoom.map (fun entry =>
      if redundant row entry then { entry with convertedToDestinations := true } else entry) }

def sentTo (row : Row) (hosts : List String) : List String :=
  (if loop.currentStreamId = some row.streamId then loop.hostsAlreadySentTo else []) ++ hosts

def loopStep : World :=
  match loop.phase with
  | .readPosition => top w { loop with position := w.lastConverted }
  | .query maxStreamId =>
    match getUncovertedOutboundRoomPokes w loop.position with
    | [] =>
      if (ofLex loop.position).1 < maxStreamId then goTo w loop (.setMax maxStreamId)
      else if maxStreamId = (ofLex loop.position).1 then endOrContinue w loop
      -- the assertion fails
      else { w with loop := none }
    | row::rest => goTo w loop (.hosts row rest)
  | .setMax maxStreamId =>
    endOrContinue { w with lastConverted := toLex (maxStreamId,"") }
      { loop with position := toLex (maxStreamId,"") }
  | .hosts row rest =>
    let hosts := hostsToPoke c loop row
    if hosts.isEmpty then goTo w loop (.mark row rest hosts (firstPokeFor loop row))
    else goTo { w with lastId := w.lastId+1 } loop (.poke row rest hosts (w.lastId+1))
  | .poke row rest hosts streamId =>
    goTo
      { w with
        outboundPokes := w.outboundPokes ++
          hosts.map (fun host => ⟨host,row.userId,row.deviceId,streamId⟩) }
      loop (.mark row rest hosts ((firstPokeFor loop row).or (some streamId)))
  | .mark row rest hosts firstPoke =>
    let loop' : Loop :=
      { loop with
        currentStreamId := some row.streamId
        hostsAlreadySentTo := sentTo loop row hosts
        firstPoke }
    match rest with
    | [] => goTo (markRedundant w row) { loop' with position := row.key } .setPosition
    | row'::rest' => goTo (markRedundant w row) loop' (.hosts row' rest')
  | .setPosition => top { w with lastConverted := loop.position } loop

end LoopSteps

inductive Op where
  | addDeviceChange (userId : String) (deviceIds roomIds : List String)
  | store (call : ℕ)
  | finish (call : ℕ)
  | wake
  | loopStep
  | fail
  deriving DecidableEq

def PendingChange.entries (c : Config) (change : PendingChange) : List Entry :=
  change.roomIds.flatMap (fun roomId =>
    (change.deviceIds.zip change.streamIds).map (fun device =>
      ⟨⟨change.userId,device.1,roomId,device.2⟩,!c.isMine change.userId⟩))

def step (c : Config) : Op → World → World
  | .addDeviceChange userId deviceIds roomIds, w =>
    { w with
      lastId := w.lastId+deviceIds.length
      changes := w.changes ++
        [⟨userId,deviceIds,roomIds,List.range' (w.lastId+1) deviceIds.length,false⟩] }
  | .store n, w =>
    match w.changes[n]? with
    | none => w
    | some change =>
      if change.stored then w
      else
        { w with
          changesInRoom := w.changesInRoom ++ change.entries c
          changes := w.changes.set n { change with stored := true } }
  | .finish n, w => { w with changes := w.changes.eraseIdx n }
  | .wake, w =>
    if w.loop.isSome then { w with newData := true }
    else { w with loop := some ⟨w.lastConverted,none,[],none,.readPosition⟩ }
  | .loopStep, w =>
    match w.loop with
    | none => w
    | some loop => DeviceListPokes.loopStep c w loop
  | .fail, w => { w with loop := none }

/-- Each other host in the room gets, or got, a poke after the change. -/
def Reaches (c : Config) (w : World) (row : Row) : Prop :=
  ∀ host ∈ c.otherHosts row.roomId, ∃ poke ∈ w.outboundPokes, poke.destination = host ∧
    poke.userId = row.userId ∧ poke.deviceId = row.deviceId ∧ row.streamId < poke.streamId

instance (c : Config) (w : World) (row : Row) : Decidable (Reaches c w row) :=
  inferInstanceAs (Decidable (∀ _ ∈ _,_))

def Quiet (w : World) : Prop :=
  w.loop.isNone ∧ ∀ entry ∈ w.changesInRoom, entry.row.streamId ≤ token w →
    entry.convertedToDestinations = true ∨ entry.row.key ≤ w.lastConverted

instance (w : World) : Decidable (Quiet w) := inferInstanceAs (Decidable (_ ∧ _))

/-- Every change of a local device that is recorded reaches the hosts of its room. -/
def AllReach (c : Config) (w : World) : Prop :=
  ∀ row ∈ rows w, c.isMine row.userId → row.streamId ≤ token w → Reaches c w row

instance (c : Config) (w : World) : Decidable (AllReach c w) :=
  inferInstanceAs (Decidable (∀ _ ∈ _,_))

def Phase.marks : Phase → Option (Row × Option ℕ)
  | .mark row _ _ firstPoke => some (row,firstPoke)
  | _ => none

/-- A change that is marked as converted has its stream ID from before the first pokes for the
change that the loop is converting. -/
def Early : Op → World → Prop
  | .loopStep, w => ∀ loop ∈ w.loop, ∀ m ∈ loop.phase.marks, ∀ entry ∈ w.changesInRoom,
      redundant m.1 entry → ∀ streamId ∈ m.2, entry.row.streamId < streamId
  | _, _ => True

instance : ∀ op w, Decidable (Early op w)
  | .loopStep, _ => inferInstanceAs (Decidable (∀ _ ∈ _,_))
  | .addDeviceChange _ _ _, _ | .store _, _ | .finish _, _ | .wake, _ | .fail, _ =>
    inferInstanceAs (Decidable True)

def unstored (w : World) : List ℕ :=
  (w.changes.filter (fun change => !change.stored)).flatMap PendingChange.streamIds

def Sealed (w : World) (streamId : ℕ) : Prop :=
  streamId ≤ w.lastId ∧ ∀ id ∈ unstored w, streamId < id

def Ids (w : World) : Prop :=
  (∀ id ∈ unfinished w, 0 < id ∧ id ≤ w.lastId) ∧ (unstored w).Nodup ∧
    (∀ row ∈ rows w, row.streamId ≤ w.lastId ∧ row.streamId ∉ unstored w) ∧
    ∀ row ∈ rows w, ∀ row' ∈ rows w, row'.streamId = row.streamId →
      row'.userId = row.userId ∧ row'.deviceId = row.deviceId

theorem unstored_subset_pending (w : World) : unstored w ⊆ pending w := by
  intro id hid
  obtain ⟨change,hc,hm⟩ := mem_flatMap.mp hid
  exact mem_flatMap.mpr ⟨change,(mem_filter.mp hc).1,hm⟩

theorem unstored_subset (w : World) : unstored w ⊆ unfinished w :=
  fun _ hid => mem_append_left _ (unstored_subset_pending w hid)

variable {w w' : World} {row : Row} {c : Config} {streamId : ℕ} {loop : Loop}

theorem token_lt (h : Ids w) {id : ℕ} (hid : id ∈ unfinished w) : token w < id := by
  unfold token
  cases hm : (unfinished w).min? with
  | none =>
    rw [min?_eq_none_iff.mp hm] at hid
    cases hid
  | some le =>
    have hl := (min?_eq_some_iff.mp hm).2 id hid
    have hp := (h.1 le (min?_eq_some_iff.mp hm).1).1
    show le-1 < id
    omega

theorem token_le (h : Ids w) : token w ≤ w.lastId := by
  unfold token
  cases hm : (unfinished w).min? with
  | none => exact le_refl _
  | some le =>
    have hle := (h.1 le (min?_eq_some_iff.mp hm).1).2
    show le-1 ≤ w.lastId
    omega

theorem token_sealed (h : Ids w) : Sealed w (token w) :=
  ⟨token_le h,fun _ hid => token_lt h (unstored_subset w hid)⟩

theorem Sealed.mono {sid' : ℕ} (h : Sealed w streamId) (hle : sid' ≤ streamId) : Sealed w sid' :=
  ⟨hle.trans h.1,fun id hid => hle.trans_lt (h.2 id hid)⟩

def Extends (w w' : World) : Prop :=
  w.lastId ≤ w'.lastId ∧ (∀ poke ∈ w.outboundPokes, poke ∈ w'.outboundPokes) ∧
    (∀ row ∈ rows w, row ∈ rows w') ∧
    (∀ row ∈ rows w', row ∈ rows w ∨ row.streamId ∈ unstored w) ∧
    (∀ id ∈ unstored w', id ∈ unstored w ∨ w.lastId < id) ∧
    ∀ id ∈ pending w', id ∈ pending w ∨ w.lastId < id

def Finished (w : World) (streamId : ℕ) : Prop :=
  streamId ≤ w.lastId ∧ ∀ id ∈ pending w, streamId < id

theorem Finished.sealed (h : Finished w streamId) : Sealed w streamId :=
  ⟨h.1,fun id hid => h.2 id (unstored_subset_pending w hid)⟩

theorem token_finished (h : Ids w) : Finished w (token w) :=
  ⟨token_le h,fun _ hid => token_lt h (mem_append_left _ hid)⟩

theorem Finished.le_token (h : Finished w streamId) (hp : w.loop.bind Loop.pokeId = none) :
    streamId ≤ token w := by
  have hu : unfinished w = pending w := by simp [unfinished,hp]
  unfold token
  rw [hu]
  cases hm : (pending w).min? with
  | none => exact h.1
  | some le =>
    have hlt := h.2 le (min?_eq_some_iff.mp hm).1
    show streamId ≤ le-1
    omega

theorem streamId_le_of_key {pos : Position} (h : row.key ≤ pos) : row.streamId ≤ (ofLex pos).1 := by
  rcases Prod.Lex.le_iff.mp h with hlt | ⟨heq,-⟩
  · exact le_of_lt hlt
  · exact le_of_eq heq

def DoneUpTo (c : Config) (w : World) (position : Position) : Prop :=
  Sealed w (ofLex position).1 ∧
    ∀ row ∈ rows w, c.isMine row.userId → row.key ≤ position → Reaches c w row

def Poked (w : World) (row : Row) (host : String) (least : ℕ) : Prop :=
  ∃ poke ∈ w.outboundPokes, poke.destination = host ∧ poke.userId = row.userId ∧
    poke.deviceId = row.deviceId ∧ least ≤ poke.streamId

def Sent (w : World) (row : Row) (hosts : List String) (firstPoke : Option ℕ) : Prop :=
  (∀ least ∈ firstPoke, row.streamId < least ∧ least ≤ w.lastId) ∧
    ∀ host ∈ hosts, ∃ least ∈ firstPoke, Poked w row host least

theorem Sent.reaches {row' : Row} {hos : List String} {fp : Option ℕ} (h : Sent w row hos fp)
    (hc : ∀ ho ∈ c.otherHosts row'.roomId, ho ∈ hos) (hus : row'.userId = row.userId)
    (hde : row'.deviceId = row.deviceId) (he : ∀ le ∈ fp, row'.streamId < le) :
    Reaches c w row' := by
  intro ho hh
  obtain ⟨le,hl,poke,hp,hds,hu,hd,hle⟩ := h.2 ho (hc ho hh)
  refine ⟨poke,hp,hds,?_,?_,?_⟩
  · rw [hu,hus]
  · rw [hd,hde]
  · exact (he le hl).trans_le hle

/-- The rest of a page: the rows up to its end reach their hosts, or are still to be done. -/
def Page (c : Config) (w : World) (page : List Row) : Prop :=
  (∀ row ∈ page, row ∈ rows w ∧ c.isMine row.userId ∧ Sealed w row.streamId) ∧
    ∀ last ∈ page.getLast?, ∀ row ∈ rows w, c.isMine row.userId → row.key ≤ last.key →
      Reaches c w row ∨ ∃ row' ∈ page, row'.key = row.key

def PhaseInv (c : Config) (w : World) (loop : Loop) : Prop :=
  match loop.phase with
  | .readPosition | .setPosition => True
  | .query maxStreamId => Finished w maxStreamId
  | .setMax maxStreamId => Sealed w maxStreamId ∧
      ∀ row ∈ rows w, c.isMine row.userId → row.streamId ≤ maxStreamId → Reaches c w row
  | .hosts row rest => Page c w (row::rest)
  | .poke row rest hosts streamId => Page c w (row::rest) ∧ row.streamId < streamId ∧
      streamId ≤ w.lastId ∧ (∀ least ∈ firstPokeFor loop row, least ≤ streamId) ∧
      ∀ host ∈ c.otherHosts row.roomId, host ∈ sentTo loop row hosts
  | .mark row rest hosts firstPoke => Page c w (row::rest) ∧
      Sent w row (sentTo loop row hosts) firstPoke ∧
      ∀ host ∈ c.otherHosts row.roomId, host ∈ sentTo loop row hosts

def Remembers (w : World) (loop : Loop) : Prop :=
  ∀ streamId ∈ loop.currentStreamId, Sealed w streamId ∧
    ∀ row ∈ rows w, row.streamId = streamId → Sent w row loop.hostsAlreadySentTo loop.firstPoke

def LoopInv (c : Config) (w : World) (loop : Loop) : Prop :=
  DoneUpTo c w loop.position ∧ Remembers w loop ∧ PhaseInv c w loop

/-- Changes that are marked reach their hosts, and only those of local users are not marked. -/
def Marks (c : Config) (w : World) : Prop :=
  ∀ entry ∈ w.changesInRoom,
    (entry.convertedToDestinations = true → c.isMine entry.row.userId → Reaches c w entry.row) ∧
      (entry.convertedToDestinations = false → c.isMine entry.row.userId)

def Inv (c : Config) (w : World) : Prop :=
  Ids w ∧ Marks c w ∧ DoneUpTo c w w.lastConverted ∧ ∀ loop ∈ w.loop, LoopInv c w loop

section

variable (he : Extends w w')
include he

theorem Finished.extends (h : Finished w streamId) : Finished w' streamId := by
  refine ⟨h.1.trans he.1,fun id hid => ?_⟩
  rcases he.2.2.2.2.2 id hid with ho | hnew
  · exact h.2 id ho
  · exact h.1.trans_lt hnew

theorem Sealed.extends (h : Sealed w streamId) : Sealed w' streamId := by
  refine ⟨h.1.trans he.1,fun id hid => ?_⟩
  rcases he.2.2.2.2.1 id hid with ho | hnew
  · exact h.2 id ho
  · exact h.1.trans_lt hnew

theorem Sealed.old (h : Sealed w row.streamId) (hr : row ∈ rows w') :
    row ∈ rows w := by
  rcases he.2.2.2.1 row hr with ho | hnew
  · exact ho
  · exact absurd (h.2 _ hnew) (lt_irrefl _)

theorem Reaches.extends (h : Reaches c w row) : Reaches c w' row := by
  intro ho hh
  obtain ⟨poke,hp,hr⟩ := h ho hh
  exact ⟨poke,he.2.1 poke hp,hr⟩

theorem DoneUpTo.extends {pos : Position} (h : DoneUpTo c w pos) :
    DoneUpTo c w' pos := by
  refine ⟨h.1.extends he,fun row hr hm hk => ?_⟩
  have hs : Sealed w row.streamId := h.1.mono (streamId_le_of_key hk)
  exact (h.2 row (hs.old he hr) hm hk).extends he

theorem Poked.extends {ho : String} {le : ℕ} (h : Poked w row ho le) :
    Poked w' row ho le := by
  obtain ⟨poke,hp,hr⟩ := h
  exact ⟨poke,he.2.1 poke hp,hr⟩

theorem Sent.extends {hos : List String} {fp : Option ℕ}
    (h : Sent w row hos fp) : Sent w' row hos fp := by
  refine ⟨fun le hl => ?_,fun ho hh => ?_⟩
  · exact ⟨(h.1 le hl).1,(h.1 le hl).2.trans he.1⟩
  · obtain ⟨le,hl,hp⟩ := h.2 ho hh
    exact ⟨le,hl,hp.extends he⟩

theorem Page.extends {page : List Row} (h : Page c w page) : Page c w' page := by
  refine ⟨fun row hrow => ?_,fun la hl row hrow hm hk => ?_⟩
  · obtain ⟨hmem,hm,hs⟩ := h.1 row hrow
    exact ⟨he.2.2.1 row hmem,hm,hs.extends he⟩
  · have hs : Sealed w row.streamId :=
      (h.1 la (mem_of_getLast? hl)).2.2.mono (streamId_le_of_key hk)
    have hp := h.2 la hl row (hs.old he hrow) hm hk
    exact hp.imp_left (fun hr => hr.extends he)

theorem Remembers.extends (h : Remembers w loop) : Remembers w' loop := by
  intro streamId hst
  obtain ⟨hs,hse⟩ := h streamId hst
  refine ⟨hs.extends he,fun row hr heq => ?_⟩
  have ho : Sealed w row.streamId := heq ▸ hs
  exact (hse row (ho.old he hr) heq).extends he

end

theorem PhaseInv.extends (hext : Extends w w') (h : PhaseInv c w loop) : PhaseInv c w' loop := by
  unfold PhaseInv at h ⊢
  cases hp : loop.phase with
  | readPosition | setPosition => trivial
  | query mx =>
    rw [hp] at h
    exact Finished.extends hext h
  | setMax mx =>
    rw [hp] at h
    refine ⟨h.1.extends hext,fun row hrow hm hle => ?_⟩
    exact (h.2 row ((h.1.mono hle).old hext hrow) hm hle).extends hext
  | hosts row rs =>
    rw [hp] at h
    exact Page.extends hext h
  | poke row rs hosts streamId =>
    rw [hp] at h
    exact ⟨h.1.extends hext,h.2.1,h.2.2.1.trans hext.1,h.2.2.2⟩
  | mark row rs hosts fp =>
    rw [hp] at h
    exact ⟨h.1.extends hext,h.2.1.extends hext,h.2.2⟩

theorem LoopInv.extends (he : Extends w w') (h : LoopInv c w loop) : LoopInv c w' loop :=
  ⟨h.1.extends he,h.2.1.extends he,h.2.2.extends he⟩

section Changes

variable {c : Config} {w : World}

theorem Marks.extends {w' : World} (h : Marks c w) (hext : Extends w w')
    (hs : w'.changesInRoom = w.changesInRoom) : Marks c w' := by
  intro e he
  rw [hs] at he
  obtain ⟨hco,hmi⟩ := h e he
  exact ⟨fun hc hm => (hco hc hm).extends hext,hmi⟩

theorem Inv.extends {w' : World} (h : Inv c w) (he : Extends w w') (hi : Ids w') (hm : Marks c w')
    (hc : w'.lastConverted = w.lastConverted) (hl : w'.loop = w.loop) : Inv c w' := by
  refine ⟨hi,hm,?_,?_⟩
  · rw [hc]
    exact h.2.2.1.extends he
  · rw [hl]
    exact fun loop hmem => (h.2.2.2 loop hmem).extends he

theorem Inv.addDeviceChange (h : Inv c w) (userId : String) (dids rids : List String) :
    Inv c (step c (.addDeviceChange userId dids rids) w) := by
  have hu : unstored (step c (.addDeviceChange userId dids rids) w) =
      unstored w ++ range' (w.lastId+1) dids.length := by
    simp [unstored,step]
  have hpe : pending (step c (.addDeviceChange userId dids rids) w) =
      pending w ++ range' (w.lastId+1) dids.length := by
    simp [pending,step]
  have hn : ∀ id ∈ range' (w.lastId+1) dids.length,w.lastId < id ∧ id ≤ w.lastId+dids.length := by
    intro id hid
    have hra := mem_range'_1.mp hid
    omega
  have ho : ∀ id ∈ unstored w, id ≤ w.lastId := fun id hid => (h.1.1 id (unstored_subset w hid)).2
  have he : Extends w (step c (.addDeviceChange userId dids rids) w) := by
    refine ⟨le_add_right _ _,fun _ hp => hp,fun _ hr => hr,fun _ hr => .inl hr,?_,?_⟩
    · intro id hid
      rw [hu] at hid
      exact (mem_append.mp hid).imp_right (fun hid => (hn id hid).1)
    · intro id hid
      rw [hpe] at hid
      exact (mem_append.mp hid).imp_right (fun hid => (hn id hid).1)
  refine h.extends he ⟨?_,?_,?_,h.1.2.2.2⟩ (h.2.1.extends he rfl) rfl rfl
  · intro id hid
    show 0 < id ∧ id ≤ w.lastId+dids.length
    rcases mem_append.mp hid with hm | hm
    · rw [hpe] at hm
      rcases mem_append.mp hm with hm | hm
      · have hle := h.1.1 id (mem_append_left _ hm)
        omega
      · have hle := hn id hm
        omega
    · have hle := h.1.1 id (mem_append_right _ hm)
      omega
  · rw [hu]
    apply nodup_append.mpr
    refine ⟨h.1.2.1,nodup_range',?_⟩
    intro a ha b hb heq
    have hle := ho a ha
    have hlt := (hn b hb).1
    omega
  · intro row hrow
    obtain ⟨hle,hnot⟩ := h.1.2.2.1 row hrow
    refine ⟨le_add_right_of_le hle,?_⟩
    rw [hu]
    intro hm
    rcases mem_append.mp hm with hm | hm
    · exact hnot hm
    · have hlt := (hn _ hm).1
      omega

variable {change : PendingChange}

theorem mem_entries {e : Entry} (h : e ∈ change.entries c) :
    e.row.userId = change.userId ∧ e.convertedToDestinations = !c.isMine change.userId ∧
      (e.row.deviceId,e.row.streamId) ∈ change.deviceIds.zip change.streamIds := by
  obtain ⟨rid,-,he⟩ := mem_flatMap.mp h
  obtain ⟨dev,hd,rfl⟩ := mem_map.mp he
  exact ⟨rfl,rfl,hd⟩

theorem eq_of_mem_zip {A B : Type} {l : List A} {ids : List B} (hi : ids.Nodup) {a a' : A} {b : B}
    (h : (a,b) ∈ l.zip ids) (h' : (a',b) ∈ l.zip ids) : a = a' := by
  obtain ⟨i,hn,heq⟩ := mem_iff_getElem.mp h
  obtain ⟨j,hm,heq'⟩ := mem_iff_getElem.mp h'
  simp only [getElem_zip,Prod.mk.injEq] at heq heq'
  have hij := hi.getElem_inj_iff.mp (heq.2.trans heq'.2.symm)
  subst hij
  exact heq.1.symm.trans heq'.1

theorem unstored_store {n : ℕ} (hc : w.changes[n]? = some change) (hs : change.stored = false)
    (es : List Entry) :
    (unstored w).Perm (change.streamIds ++ unstored { w with
      changesInRoom := w.changesInRoom ++ es
      changes := w.changes.set n { change with stored := true } }) := by
  obtain ⟨hn,rfl⟩ := List.getElem?_eq_some_iff.mp hc
  have ho := (getElem_cons_eraseIdx_perm hn).symm
  have hnew := set_perm_cons_eraseIdx hn { w.changes[n] with stored := true }
  have ho' := (ho.filter (fun change => !change.stored)).flatMap_right PendingChange.streamIds
  have hn' := (hnew.filter (fun change => !change.stored)).flatMap_right PendingChange.streamIds
  rw [filter_cons_of_pos (by simp [hs])] at ho'
  exact ho'.trans (hn'.symm.append_left _)

theorem Inv.store (h : Inv c w) {n : ℕ} (hch : w.changes[n]? = some change)
    (hs : change.stored = false) :
    Inv c { w with
      changesInRoom := w.changesInRoom ++ change.entries c
      changes := w.changes.set n { change with stored := true } } := by
  have hpe := unstored_store hch hs (change.entries c)
  generalize hw' : ({ w with
    changesInRoom := w.changesInRoom ++ change.entries c
    changes := w.changes.set n { change with stored := true } } : World) = w' at hpe ⊢
  have hr : rows w' = rows w ++ (change.entries c).map Entry.row := by
    rw [← hw',rows,rows,map_append]
  have hn := hpe.nodup_iff.mp h.1.2.1
  obtain ⟨hi,hn',hd⟩ := nodup_append.mp hn
  -- the rows that are new
  have hnew : ∀ row ∈ (change.entries c).map Entry.row,
      row.userId = change.userId ∧ (row.deviceId,row.streamId) ∈
        change.deviceIds.zip change.streamIds := by
    intro row hrow
    obtain ⟨e,he,rfl⟩ := mem_map.mp hrow
    exact ⟨(mem_entries he).1,(mem_entries he).2.2⟩
  have hid : ∀ row ∈ (change.entries c).map Entry.row, row.streamId ∈ change.streamIds :=
    fun row hrow => (of_mem_zip (hnew row hrow).2).2
  have hf : ∀ row ∈ (change.entries c).map Entry.row, row.streamId ∈ unstored w :=
    fun row hrow => hpe.mem_iff.mpr (mem_append_left _ (hid row hrow))
  have hpn : ∀ id ∈ pending w', id ∈ pending w := by
    intro id hid
    rw [← hw'] at hid
    obtain ⟨o,ho,hid⟩ := mem_flatMap.mp hid
    rcases mem_or_eq_of_mem_set ho with ho | rfl
    · exact mem_flatMap.mpr ⟨o,ho,hid⟩
    · exact mem_flatMap.mpr ⟨change,mem_of_getElem? hch,hid⟩
  have hext : Extends w w' := by
    refine ⟨by rw [← hw'],by rw [← hw']; exact fun _ hp => hp,?_,?_,?_,
      fun id hid => .inl (hpn id hid)⟩
    · intro row hrow
      rw [hr]
      exact mem_append_left _ hrow
    · intro row hrow
      rw [hr] at hrow
      exact (mem_append.mp hrow).imp_right (hf row)
    · intro id hid
      exact .inl (hpe.mem_iff.mpr (mem_append_right _ hid))
  have hl : w'.lastId = w.lastId := by rw [← hw']
  refine h.extends hext ⟨?_,hn',?_,?_⟩ ?_ (by rw [← hw']) (by rw [← hw'])
  · intro id hid
    rw [hl]
    apply h.1.1
    rcases mem_append.mp hid with hmem | hmem
    · exact mem_append_left _ (hpn id hmem)
    · rw [← hw'] at hmem
      exact mem_append_right _ hmem
  · intro row hrow
    rw [hr] at hrow
    rw [hl]
    rcases mem_append.mp hrow with hold | hnew
    · obtain ⟨hle,hnot⟩ := h.1.2.2.1 row hold
      exact ⟨hle,fun hmem => hnot (hpe.mem_iff.mpr (mem_append_right _ hmem))⟩
    · refine ⟨(h.1.1 _ (unstored_subset w (hf row hnew))).2,fun hmem => ?_⟩
      exact hd _ (hid row hnew) _ hmem rfl
  · intro row hrow row' hr' heq
    rw [hr] at hrow hr'
    rcases mem_append.mp hrow with hold | hrow
    · rcases mem_append.mp hr' with ho' | hr'
      · exact h.1.2.2.2 row hold row' ho' heq
      · have hmem := hf row' hr'
        rw [heq] at hmem
        exact absurd hmem (h.1.2.2.1 row hold).2
    · rcases mem_append.mp hr' with ho' | hr'
      · have hmem := hf row hrow
        rw [← heq] at hmem
        exact absurd hmem (h.1.2.2.1 row' ho').2
      · obtain ⟨hu,hz⟩ := hnew row hrow
        obtain ⟨hu',hz'⟩ := hnew row' hr'
        rw [heq] at hz'
        exact ⟨hu'.trans hu.symm,eq_of_mem_zip hi hz' hz⟩
  · intro e he
    rw [← hw'] at he
    rcases mem_append.mp he with hold | hnew
    · obtain ⟨hco,hmi⟩ := h.2.1 e hold
      exact ⟨fun hc hm => (hco hc hm).extends hext,hmi⟩
    · obtain ⟨hu,hco,-⟩ := mem_entries hnew
      rw [hu,hco]
      cases c.isMine change.userId <;> simp

theorem Inv.finish (h : Inv c w) (n : ℕ) : Inv c { w with changes := w.changes.eraseIdx n } := by
  have hs : (unstored { w with changes := w.changes.eraseIdx n }).Sublist (unstored w) :=
    ((eraseIdx_sublist w.changes n).filter _).flatMap _
  have hpe : (pending { w with changes := w.changes.eraseIdx n }).Sublist (pending w) :=
    (eraseIdx_sublist w.changes n).flatMap _
  have he : Extends w { w with changes := w.changes.eraseIdx n } :=
    ⟨le_refl _,fun _ hp => hp,fun _ hr => hr,fun _ hr => .inl hr,
      fun _ hid => .inl (hs.subset hid),fun _ hid => .inl (hpe.subset hid)⟩
  refine h.extends he ⟨?_,h.1.2.1.sublist hs,?_,h.1.2.2.2⟩ (h.2.1.extends he rfl) rfl rfl
  · intro id hid
    apply h.1.1
    rcases mem_append.mp hid with hm | hm
    · exact mem_append_left _ (hpe.subset hm)
    · exact mem_append_right _ hm
  · intro row hrow
    obtain ⟨hle,hn⟩ := h.1.2.2.1 row hrow
    exact ⟨hle,fun hm => hn (hs.subset hm)⟩

end Changes

section Pages

variable {c : Config} {w : World}

variable {row : Row} {position : Position}

theorem mem_rows : row ∈ rows w ↔ ∃ e ∈ w.changesInRoom, e.row = row :=
  mem_map

theorem mem_unconverted {start : Position} : row ∈ unconverted w start ↔
    ∃ e ∈ w.changesInRoom, (start < e.row.key ∧ e.row.streamId ≤ token w ∧
      e.convertedToDestinations = false) ∧ e.row = row := by
  unfold unconverted
  rw [List.mem_insertionSort]
  simp only [List.mem_map,List.mem_filter,Bool.and_eq_true,decide_eq_true_eq,Bool.not_eq_true',
    and_assoc]

theorem Inv.done_or_unconverted (h : Inv c w) (hp : DoneUpTo c w position) (hr : row ∈ rows w)
    (hm : c.isMine row.userId) (ht : row.streamId ≤ token w) :
    Reaches c w row ∨ row ∈ unconverted w position := by
  obtain ⟨e,he,rfl⟩ := mem_rows.mp hr
  cases hc : e.convertedToDestinations with
  | true => exact .inl ((h.2.1 e he).1 hc hm)
  | false =>
    by_cases hk : e.row.key ≤ position
    · exact .inl (hp.2 e.row hr hm hk)
    · right
      exact mem_unconverted.mpr ⟨e,he,⟨not_le.mp hk,ht,hc⟩,rfl⟩

theorem unconverted_page (h : Inv c w) (hp : DoneUpTo c w position) :
    Page c w (getUncovertedOutboundRoomPokes w position) := by
  have hse := token_sealed h.1
  refine ⟨fun row hrow => ?_,fun la hl row hrow hm hk => ?_⟩
  · obtain ⟨e,he,⟨-,ht,hc⟩,rfl⟩ := mem_unconverted.mp (mem_of_mem_take hrow)
    exact ⟨mem_rows.mpr ⟨e,he,rfl⟩,(h.2.1 e he).2 hc,hse.mono ht⟩
  · have hl' := mem_of_getLast? hl
    obtain ⟨e,-,⟨-,ht,-⟩,rfl⟩ := mem_unconverted.mp (mem_of_mem_take hl')
    have hle : row.streamId ≤ token w := (streamId_le_of_key hk).trans ht
    rcases h.done_or_unconverted hp hrow hm hle with hr | hmem
    · exact .inl hr
    · right
      rw [← take_append_drop 10 (unconverted w position)] at hmem
      rcases mem_append.mp hmem with hmem | hmem
      · exact ⟨row,hmem,rfl⟩
      · -- a row after the page with the key of its last row
        have hs : (unconverted w position).Pairwise (fun row row' => row.key ≤ row'.key) :=
          pairwise_insertionSort _ _
        rw [← take_append_drop 10 (unconverted w position)] at hs
        have hb := (pairwise_append.mp hs).2.2 _ hl' row hmem
        exact ⟨e.row,hl',le_antisymm hb hk⟩

theorem done_of_no_page (h : Inv c w) (hp : DoneUpTo c w position)
    (hn : getUncovertedOutboundRoomPokes w position = []) :
    ∀ row ∈ rows w, c.isMine row.userId → row.streamId ≤ token w → Reaches c w row := by
  intro row hrow hm ht
  have hta : (unconverted w position).take 10 = [] := hn
  have he : unconverted w position = [] := by
    rcases take_eq_nil_iff.mp hta with hten | he
    · omega
    · exact he
  rcases h.done_or_unconverted hp hrow hm ht with hr | hmem
  · exact hr
  · rw [he] at hmem
    cases hmem

theorem Ids.reaches_of_key (h : Ids w) {row' : Row} (hrow : row ∈ rows w) (hr' : row' ∈ rows w)
    (hk : row.key = row'.key) (hr : Reaches c w row) : Reaches c w row' := by
  have hp : (row.streamId,row.roomId) = (row'.streamId,row'.roomId) := toLex.injective hk
  obtain ⟨hs,hro⟩ := Prod.mk.inj hp
  obtain ⟨hus,hde⟩ := h.2.2.2 row hrow row' hr' hs.symm
  intro ho hh
  rw [← hro] at hh
  obtain ⟨poke,hpo,hds,hu,hd,hlt⟩ := hr ho hh
  exact ⟨poke,hpo,hds,hu.trans hus.symm,hd.trans hde.symm,hs ▸ hlt⟩

theorem Page.tail (h : Ids w) {next : Row} {rs : List Row} (hp : Page c w (row::next::rs))
    (hre : Reaches c w row) : Page c w (next::rs) := by
  refine ⟨fun r hr => hp.1 r (mem_cons_of_mem _ hr),?_⟩
  intro la hl row' hr' hm hk
  have hl' : la ∈ (row::next::rs).getLast? := by
    exact hl
  rcases hp.2 la hl' row' hr' hm hk with hd | ⟨r,hr,heq⟩
  · exact .inl hd
  · rcases mem_cons.mp hr with rfl | hr
    · exact .inl (h.reaches_of_key (hp.1 r mem_cons_self).1 hr' heq hre)
    · exact .inr ⟨r,hr,heq⟩

theorem Page.doneUpTo (h : Ids w) (hp : Page c w [row]) (hre : Reaches c w row) :
    DoneUpTo c w row.key := by
  obtain ⟨hmem,-,hs⟩ := hp.1 row mem_cons_self
  refine ⟨hs,fun row' hr' hm hk => ?_⟩
  rcases hp.2 row rfl row' hr' hm hk with hd | ⟨r,hr,heq⟩
  · exact hd
  · rw [mem_singleton.mp hr] at heq
    exact h.reaches_of_key hmem hr' heq hre

end Pages

section Converting

variable {c : Config} {w : World} {loop : Loop}

section

variable (h : Inv c w)
include h

theorem Inv.withLoop (next : Option Loop) (newData : Bool)
    (hp : ∀ l ∈ next, l.pokeId = none) (hn : ∀ l ∈ next, LoopInv c w l) :
    Inv c { w with loop := next, newData } := by
  refine ⟨⟨?_,h.1.2⟩,h.2.1,h.2.2.1,hn⟩
  intro id hid
  apply h.1.1
  rcases mem_append.mp hid with hm | hm
  · exact mem_append_left _ hm
  · obtain ⟨l,hl,hid⟩ := bind_eq_some_iff.mp (mem_toList.mp hm)
    rw [hp l hl] at hid
    cases hid

theorem Inv.goTo (phase : Phase) (hp : ({ loop with phase } : Loop).pokeId = none)
    (hlo : LoopInv c w { loop with phase }) : Inv c (goTo w loop phase) := by
  apply h.withLoop (some { loop with phase }) w.newData
  · intro l hl
    cases hl
    exact hp
  · intro l hl
    cases hl
    exact hlo

theorem Inv.top (hp : DoneUpTo c w loop.position) (hr : Remembers w loop) : Inv c (top w loop) := by
  apply h.withLoop (some { loop with phase := .query (token w) }) false
  · intro l hl
    cases hl
    rfl
  · intro l hl
    cases hl
    exact ⟨hp,hr,token_finished h.1⟩

theorem Inv.noLoop : Inv c { w with loop := none } := by
  apply h.withLoop none w.newData
  · intro l hl
    cases hl
  · intro l hl
    cases hl

theorem Inv.endOrContinue (hp : DoneUpTo c w loop.position) (hr : Remembers w loop) :
    Inv c (endOrContinue w loop) := by
  unfold DeviceListPokes.endOrContinue
  split
  · exact h.top hp hr
  · exact h.noLoop

theorem Inv.setPosition {pos : Position} (hp : DoneUpTo c w pos) :
    Inv c { w with lastConverted := pos } :=
  ⟨h.1,h.2.1,hp,h.2.2.2⟩

end

variable {row : Row} {rest : List Row} {firstPoke : Option ℕ}

theorem mem_sentTo_hostsToPoke (loop : Loop) (hm : c.isMine row.userId) :
    ∀ ho ∈ c.otherHosts row.roomId, ho ∈ sentTo loop row (hostsToPoke c loop row) := by
  intro ho hh
  unfold sentTo hostsToPoke
  by_cases hc : loop.currentStreamId = some row.streamId
  · by_cases hs : ho ∈ loop.hostsAlreadySentTo
    · simp [hc,hs]
    · simp [hc,hm,hs,hh]
  · simp [hc,hm,hh]

theorem Remembers.sent (h : Remembers w loop) (hr : row ∈ rows w) :
    Sent w row (sentTo loop row []) (firstPokeFor loop row) := by
  unfold sentTo firstPokeFor
  by_cases hc : loop.currentStreamId = some row.streamId
  · rw [if_pos hc,if_pos hc,append_nil]
    exact (h row.streamId hc).2 row hr rfl
  · rw [if_neg hc,if_neg hc]
    refine ⟨fun le hl => ?_,fun ho hh => ?_⟩
    · cases hl
    · cases hh

theorem rows_markRedundant (w : World) (row : Row) : rows (markRedundant w row) = rows w := by
  unfold rows markRedundant
  rw [List.map_map]
  apply map_congr_left
  intro e _
  dsimp only [Function.comp]
  split <;> rfl

theorem extends_markRedundant (w : World) (row : Row) : Extends w (markRedundant w row) := by
  have hr := rows_markRedundant w row
  refine ⟨le_refl _,fun _ hp => hp,?_,?_,fun _ hid => .inl hid,fun _ hid => .inl hid⟩
  · intro row' hr'
    rw [hr]
    exact hr'
  · intro row' hr'
    rw [hr] at hr'
    exact .inl hr'

theorem start_inv (c : Config) : Inv c start := by
  refine ⟨⟨?_,nodup_nil,?_,?_⟩,?_,⟨⟨le_refl 0,?_⟩,?_⟩,?_⟩
  all_goals intro x hx
  all_goals cases hx

section

variable (h : Inv c w)
include h

theorem Inv.hosts (hlo : LoopInv c w loop) (hph : loop.phase = .hosts row rest) :
    Inv c (loopStep c w loop) := by
  obtain ⟨hpo,hre,hpa⟩ := hlo
  unfold PhaseInv at hpa
  rw [hph] at hpa
  obtain ⟨hrow,hm,-⟩ := hpa.1 row mem_cons_self
  have hc := mem_sentTo_hostsToPoke loop hm
  have hs := hre.sent hrow
  simp only [loopStep,hph]
  split
  · next he =>
    have hn : hostsToPoke c loop row = [] := isEmpty_iff.mp he
    rw [hn] at hc ⊢
    exact h.goTo _ rfl ⟨hpo,hre,hpa,hs,hc⟩
  · -- a stream ID is taken for the pokes
    have hext : Extends w (DeviceListPokes.goTo { w with lastId := w.lastId+1 } loop
        (.poke row rest (hostsToPoke c loop row) (w.lastId+1))) :=
      ⟨le_succ _,fun _ hp => hp,fun _ hr => hr,fun _ hr => .inl hr,fun _ hid => .inl hid,
        fun _ hid => .inl hid⟩
    have hst := (h.1.2.2.1 row hrow).1
    refine ⟨⟨?_,h.1.2.1,?_,h.1.2.2.2⟩,h.2.1.extends hext rfl,h.2.2.1.extends hext,?_⟩
    · intro id hid
      rcases mem_append.mp hid with hmem | hmem
      · have hle := h.1.1 id (mem_append_left _ hmem)
        exact ⟨hle.1,le_succ_of_le hle.2⟩
      · have heq : id = w.lastId+1 := by simpa [DeviceListPokes.goTo,Loop.pokeId] using hmem
        rw [heq]
        exact ⟨succ_pos _,le_refl _⟩
    · intro row' hr'
      obtain ⟨hle,hnot⟩ := h.1.2.2.1 row' hr'
      exact ⟨le_succ_of_le hle,hnot⟩
    · intro l hl
      cases hl
      refine ⟨hpo.extends hext,hre.extends hext,hpa.extends hext,lt_succ_of_le hst,le_refl _,?_,hc⟩
      intro least hls
      exact le_succ_of_le (hs.1 least hls).2

theorem Inv.poke (hlo : LoopInv c w loop) {hos : List String} {streamId : ℕ}
    (hph : loop.phase = .poke row rest hos streamId) : Inv c (loopStep c w loop) := by
  obtain ⟨hpo,hre,hpa⟩ := hlo
  unfold PhaseInv at hpa
  rw [hph] at hpa
  obtain ⟨hpa,hlt,hle,hf,hc⟩ := hpa
  have hs := hre.sent (hpa.1 row mem_cons_self).1
  simp only [loopStep,hph]
  generalize hw₁ : ({ w with
    outboundPokes := w.outboundPokes ++
      hos.map (fun ho => ⟨ho,row.userId,row.deviceId,streamId⟩) } : World) = w₁
  have he : Extends w w₁ := by
    rw [← hw₁]
    exact ⟨le_refl _,fun _ hp => mem_append_left _ hp,fun _ hr => hr,
      fun _ hr => .inl hr,fun _ hid => .inl hid,fun _ hid => .inl hid⟩
  have hi : Inv c w₁ := by
    refine h.extends he (by rw [← hw₁]; exact h.1) ?_ (by rw [← hw₁]) (by rw [← hw₁])
    exact h.2.1.extends he (by rw [← hw₁])
  apply hi.goTo
  · rfl
  · refine ⟨hpo.extends he,hre.extends he,hpa.extends he,⟨?_,?_⟩,hc⟩
    · intro least hl
      have hla : w₁.lastId = w.lastId := by rw [← hw₁]
      rw [hla]
      cases hfor : firstPokeFor loop row with
      | none =>
        rw [hfor] at hl
        cases hl
        exact ⟨hlt,hle⟩
      | some first =>
        rw [hfor] at hl
        have heq : first = least := some.inj hl
        rw [← heq]
        exact hs.1 first hfor
    · intro ho hh
      rcases mem_append.mp hh with hold | hnew
      · obtain ⟨least,hl,hpk⟩ := hs.2 ho (mem_append_left _ hold)
        refine ⟨least,?_,hpk.extends he⟩
        rw [hl]
        rfl
      · have hm : (⟨ho,row.userId,row.deviceId,streamId⟩ : Poke) ∈ w₁.outboundPokes := by
          rw [← hw₁]
          exact mem_append_right _ (mem_map.mpr ⟨ho,hnew,rfl⟩)
        cases hfor : firstPokeFor loop row with
        | none => exact ⟨streamId,rfl,_,hm,rfl,rfl,rfl,le_refl _⟩
        | some first => exact ⟨first,rfl,_,hm,rfl,rfl,rfl,hf first hfor⟩

theorem Inv.markRedundant {hos : List String} (hs : Sent w row hos firstPoke)
    (hco : ∀ ho ∈ c.otherHosts row.roomId, ho ∈ hos) (he : ∀ e ∈ w.changesInRoom, redundant row e →
      ∀ streamId ∈ firstPoke, e.row.streamId < streamId) : Inv c (markRedundant w row) := by
  have hext := extends_markRedundant w row
  have hi : Ids (DeviceListPokes.markRedundant w row) := by
    unfold Ids
    rw [rows_markRedundant]
    exact h.1
  refine h.extends hext hi ?_ rfl rfl
  intro e hen
  obtain ⟨old,hold,rfl⟩ := mem_map.mp hen
  obtain ⟨hcn,hmi⟩ := h.2.1 old hold
  split
  · next hr =>
    have hred := hr
    simp only [redundant,Bool.and_eq_true,decide_eq_true_eq] at hred
    obtain ⟨⟨⟨⟨-,hu⟩,hd⟩,hro⟩,hn⟩ := hred
    refine ⟨fun _ _ => ?_,fun hf => by cases hf⟩
    have hre : Reaches c w old.row := by
      apply hs.reaches _ hu hd (he old hold hr)
      rw [hro]
      exact hco
    exact hre.extends hext
  · exact ⟨fun hc hm => (hcn hc hm).extends hext,hmi⟩

theorem Inv.mark (hl : LoopInv c w loop) {ho : List String}
    (hph : loop.phase = .mark row rest ho firstPoke)
    (he : ∀ entry ∈ w.changesInRoom, redundant row entry →
      ∀ streamId ∈ firstPoke, entry.row.streamId < streamId) : Inv c (loopStep c w loop) := by
  obtain ⟨hpo,-,hp⟩ := hl
  unfold PhaseInv at hp
  rw [hph] at hp
  obtain ⟨hp,hs,hc⟩ := hp
  obtain ⟨hrow,-,hse⟩ := hp.1 row mem_cons_self
  have hext := extends_markRedundant w row
  have hi := h.markRedundant hs hc he
  have hr : Reaches c w row := hs.reaches hc rfl rfl (fun least hle => (hs.1 least hle).1)
  have hre : Remembers (DeviceListPokes.markRedundant w row)
      { loop with
        currentStreamId := some row.streamId
        hostsAlreadySentTo := sentTo loop row ho
        firstPoke } := by
    intro streamId hst
    cases hst
    refine ⟨hse.extends hext,fun row' hr' heq => ?_⟩
    rw [rows_markRedundant] at hr'
    obtain ⟨hu,hd⟩ := h.1.2.2.2 row hrow row' hr' heq
    simp only [Sent,Poked,← heq,← hu,← hd] at hs
    exact Sent.extends hext hs
  simp only [loopStep,hph]
  cases rest with
  | nil =>
    refine hi.goTo _ rfl ⟨?_,hre,trivial⟩
    exact (hp.doneUpTo h.1 hr).extends hext
  | cons next rest =>
    refine hi.goTo _ rfl ⟨hpo.extends hext,hre,?_⟩
    exact (hp.tail h.1 hr).extends hext

theorem Inv.query (hs : w.loop = some loop) {maxStreamId : ℕ}
    (hph : loop.phase = .query maxStreamId) : Inv c (loopStep c w loop) := by
  obtain ⟨hp,hre,hf⟩ := h.2.2.2 loop hs
  unfold PhaseInv at hf
  rw [hph] at hf
  have hmax : maxStreamId ≤ token w := by
    apply hf.le_token
    rw [hs,bind_some,Loop.pokeId,hph]
  cases hr : getUncovertedOutboundRoomPokes w loop.position with
  | nil =>
    have hd := done_of_no_page h hp hr
    simp only [loopStep,hph,hr]
    split
    · refine h.goTo _ rfl ⟨hp,hre,hf.sealed,?_⟩
      exact fun row hrow hm hle => hd row hrow hm (hle.trans hmax)
    · split
      · exact h.endOrContinue hp hre
      · exact h.noLoop
  | cons row rest =>
    have hpa := unconverted_page h hp
    rw [hr] at hpa
    simp only [loopStep,hph,hr]
    exact h.goTo _ rfl ⟨hp,hre,hpa⟩

theorem Inv.loopStep (hs : w.loop = some loop) (he : Early .loopStep w) :
    Inv c (loopStep c w loop) := by
  have hl := h.2.2.2 loop hs
  have he := he loop hs
  cases hp : loop.phase with
  | readPosition =>
    simp only [DeviceListPokes.loopStep,hp]
    exact h.top h.2.2.1 hl.2.1
  | query mx => exact h.query hs hp
  | setMax mx =>
    obtain ⟨-,hr,hmax⟩ := hl
    unfold PhaseInv at hmax
    rw [hp] at hmax
    have hpo : DoneUpTo c w (toLex (mx,"")) := by
      refine ⟨hmax.1,fun row hrow hm hkey => ?_⟩
      exact hmax.2 row hrow hm (streamId_le_of_key hkey)
    simp only [DeviceListPokes.loopStep,hp]
    exact (h.setPosition hpo).endOrContinue hpo hr
  | hosts row rest => exact h.hosts hl hp
  | poke row rest hosts streamId => exact h.poke hl hp
  | mark row rest hosts firstPoke =>
    rw [hp] at he
    exact h.mark hl hp (he (row,firstPoke) rfl)
  | setPosition =>
    simp only [DeviceListPokes.loopStep,hp]
    exact (h.setPosition hl.1).top hl.1 hl.2.1

theorem Inv.step {op : Op} (he : Early op w) : Inv c (step c op w) := by
  cases op with
  | addDeviceChange userId dids rids => exact h.addDeviceChange userId dids rids
  | store n =>
    cases hc : w.changes[n]? with
    | none =>
      simp only [DeviceListPokes.step,hc]
      exact h
    | some change =>
      simp only [DeviceListPokes.step,hc]
      split
      · exact h
      · next hs => exact h.store hc (Bool.eq_false_of_not_eq_true hs)
  | finish n => exact h.finish n
  | wake =>
    simp only [DeviceListPokes.step]
    split
    · exact h
    · apply h.withLoop (some ⟨w.lastConverted,none,[],none,.readPosition⟩) w.newData
      · intro l hl
        cases hl
        rfl
      · intro l hl
        cases hl
        refine ⟨h.2.2.1,?_,trivial⟩
        intro streamId hst
        cases hst
  | loopStep =>
    cases hlo : w.loop with
    | none =>
      simp only [DeviceListPokes.step,hlo]
      exact h
    | some loop =>
      simp only [DeviceListPokes.step,hlo]
      exact h.loopStep hlo he
  | fail => exact h.noLoop

end

/-- In every run where only changes from before the first pokes are marked, once the loop has
converted everything each local change reaches the hosts of its rooms. -/
theorem changes_reach_hosts (c : Config) {ops : List Op} (h : Admitted (step c) Early ops start)
    (hquiet : Quiet (run (step c) ops start)) : AllReach c (run (step c) ops start) := by
  have hinv : Inv c (run (DeviceListPokes.step c) ops start) :=
    h.invariant (fun op w hw hop => hw.step hop) (start_inv c)
  intro row hrow hmine htoken
  obtain ⟨entry,hentry,rfl⟩ := mem_rows.mp hrow
  rcases hquiet.2 entry hentry htoken with hconverted | hkey
  · exact (hinv.2.1 entry hentry).1 hconverted hmine
  · exact hinv.2.2.1.2 entry.row hrow hmine hkey

def oneRoom : Config :=
  ⟨fun _ => true,fun _ => ["here","there"],"here"⟩

def twoChanges : List Op :=
  [.addDeviceChange "@user:here" ["phone"] ["!room"],.store 0,.finish 0,.wake] ++
  List.replicate 8 .loopStep ++
  [.addDeviceChange "@user:here" ["phone"] ["!room"],.store 0,.finish 0,.wake] ++
  List.replicate 8 .loopStep

theorem changes_reach_hosts_twoChanges :
    Admitted (step oneRoom) Early twoChanges start ∧ Quiet (run (step oneRoom) twoChanges start) ∧
      (rows (run (step oneRoom) twoChanges start)).map Row.streamId = [1,3] ∧
      AllReach oneRoom (run (step oneRoom) twoChanges start) := by
  have hadmitted : Admitted (step oneRoom) Early twoChanges start := by decide +kernel
  have hquiet : Quiet (run (step oneRoom) twoChanges start) := by decide +kernel
  exact ⟨hadmitted,hquiet,by decide +kernel,changes_reach_hosts oneRoom hadmitted hquiet⟩

def changeBeforeMark : List Op :=
  [.addDeviceChange "@user:here" ["phone"] ["!room"],.store 0,.finish 0,.wake] ++
  List.replicate 4 .loopStep ++
  [.addDeviceChange "@user:here" ["phone"] ["!room"],.store 0,.finish 0,.wake] ++
  List.replicate 4 .loopStep

/-- Everything is converted, and no poke is later than the second change. -/
theorem change_does_not_reach :
    Quiet (run (step oneRoom) changeBeforeMark start) ∧
      token (run (step oneRoom) changeBeforeMark start) = 3 ∧
      (run (step oneRoom) changeBeforeMark start).outboundPokes =
        [⟨"there","@user:here","phone",2⟩] ∧
      ¬AllReach oneRoom (run (step oneRoom) changeBeforeMark start) := by
  decide +kernel

end Converting

end Synapse.DeviceListPokes
