import Synapse.Runs
import Synapse.StateFilter

/-!
# The row of a joined room for sliding sync

For each room that the server is joined to a table has what sliding sync reads of its
state. When events are persisted, the columns are updated from the change of the
current state: the entries that are inserted give new values, those that are deleted
clear them, and the others keep what they had. The table of membership snapshots and
the columns for stream orderings are left out.
-/

set_option autoImplicit false

namespace Synapse
open List Option AList Dict EventTypes Runs

namespace EventTypes
def roomEncryption : String := "m.room.encryption"
def name : String := "m.room.name"
def tombstone : String := "m.room.tombstone"
end EventTypes

namespace SlidingSync
open Python

inductive Column where
  | roomType
  | roomName
  | isEncrypted
  | tombstoneSuccessorRoomId
  deriving DecidableEq

inductive Value where
  | text (s : Option String)
  | flag (b : Bool)
  deriving DecidableEq

def emptyValue : Column → Value
  | .isEncrypted => .flag false
  | _ => .text none

def keyOf : Column → StateKey
  | .roomType => (EventTypes.create,"")
  | .isEncrypted => (EventTypes.roomEncryption,"")
  | .roomName => (EventTypes.name,"")
  | .tombstoneSuccessorRoomId => (EventTypes.tombstone,"")

def relevantStateSet : List StateKey :=
  [(EventTypes.create,""),(EventTypes.roomEncryption,""),(EventTypes.name,""),
    (EventTypes.tombstone,"")]

abbrev InsertValues := Dict Column Value

/-- Text without null bytes, or nothing. Other values are ignored. -/
def scrutinize : Json → Option Value
  | .null => some (.text none)
  | .str s => if '\x00' ∈ s.toList then none else some (.text (some s))
  | _ => none

def isNone : Json → Bool
  | .null => true
  | _ => false

def valueOf (column : Column) (event : Event) : Option Value :=
  match column with
  | .roomType => scrutinize (Json.getD event.content "type" .null)
  | .isEncrypted => some (.flag (!isNone (Json.getD event.content "algorithm" .null)))
  | .roomName => scrutinize (Json.getD event.content "name" .null)
  | .tombstoneSuccessorRoomId => scrutinize (Json.getD event.content "replacement_room" .null)

def columnOf (key : StateKey) : Option Column :=
  if key = (EventTypes.create,"") then some .roomType
  else if key = (EventTypes.roomEncryption,"") then some .isEncrypted
  else if key = (EventTypes.name,"") then some .roomName
  else if key = (EventTypes.tombstone,"") then some .tombstoneSuccessorRoomId
  else none

def addValue (values : InsertValues) (entry : Sigma fun _ : StateKey => Event) :
    Raises InsertValues :=
  match columnOf entry.1 with
  | none => .error .assertionError
  | some column =>
    match valueOf column entry.2 with
    | some value => .ok (values.insert column value)
    | none => .ok values

def getSlidingSyncInsertValuesFromStateMap (stateMap : StateMap Event) : Raises InsertValues :=
  stateMap.entries.foldlM addValue ∅

structure DeltaState where
  toDelete : List StateKey
  toInsert : StateMap String
  noLongerInRoom : Bool

/-- The tables for one room: the current state, the row for sliding sync and the events as
they are read from the database. -/
structure RoomTables where
  currentState : StateMap String
  row : Option (Column → Value)
  events : Dict String Event

def eventMapOf (events : List Event) : Dict String Event :=
  events.foldl (fun d event => d.insert event.eventId event) ∅

def addStored (stored : Dict String Event) (state : StateMap Event)
    (entry : Sigma fun _ : StateKey => String) : Raises (StateMap Event) :=
  match stored.lookup entry.2 with
  | none => .error .assertionError
  | some event => do
    let stateKey ← event.requireStateKey
    .ok (state.insert (event.type,stateKey) event)

def resolveState (eventMap stored : Dict String Event) (ids : StateMap String) :
    Raises (StateMap Event) :=
  (Dict.filter ids (fun _ eventId => (eventMap.lookup eventId).isNone)).entries.foldlM
    (addStored stored) (Dict.compose ids eventMap)

def clearDeleted (values : InsertValues) (key : StateKey) : InsertValues :=
  if key = (EventTypes.create,"") then values.insert .roomType (.text none)
  else if key = (EventTypes.roomEncryption,"") then values.insert .isEncrypted (.flag false)
  else if key = (EventTypes.name,"") then values.insert .roomName (.text none)
  else values

/-- The relevant state, if it has to be inserted in full because there is no row yet. -/
def stateToInsertFully (t : RoomTables) : StateMap String :=
  if t.row.isSome then ∅
  else (StateFilter.fromTypes (relevantStateSet.map (fun key => (key.1,some key.2)))).filterState
    t.currentState

def relevantIds (t : RoomTables) (delta : DeltaState) : StateMap String :=
  Dict.update (stateToInsertFully t)
    (Dict.filterKeys delta.toInsert (fun key => key ∈ relevantStateSet))

/-- `joined_room_updates` of `_calculate_sliding_sync_table_changes` -/
def joinedRoomUpdates (t : RoomTables) (eventMap : Dict String Event) (delta : DeltaState) :
    Raises InsertValues :=
  if delta.toInsert.entries.isEmpty ∧ delta.toDelete = [] then .ok ∅
  else if delta.noLongerInRoom then .ok ∅
  else do
    let currentStateMap ← resolveState eventMap t.events (relevantIds t delta)
    let values ← getSlidingSyncInsertValuesFromStateMap currentStateMap
    .ok (delta.toDelete.foldl clearDeleted values)

/-- `INSERT … ON CONFLICT … DO UPDATE` with the columns that are given. -/
def upsert (row : Option (Column → Value)) (updates : InsertValues) : Option (Column → Value) :=
  if updates.entries.isEmpty then row
  else some (fun column => (updates.lookup column).getD ((row.getD emptyValue) column))

def updateCurrentState (t : RoomTables) (delta : DeltaState) (updates : InsertValues) :
    RoomTables :=
  if delta.noLongerInRoom then { t with currentState := ∅, row := none }
  else
    { t with
      currentState := Dict.update (Dict.popAll t.currentState delta.toDelete) delta.toInsert
      row := upsert t.row updates }

/-- Events that are persisted together, what they change in the current state, and the events
that read differently from then on because they were redacted. -/
structure Batch where
  events : List Event
  delta : Option DeltaState
  redacted : Dict String Event

def storeEvents (t : RoomTables) (batch : Batch) : RoomTables :=
  { t with events := (Dict.update (Dict.addMissing t.events (eventMapOf batch.events))
      batch.redacted) }

def persistBatch (t : RoomTables) (batch : Batch) : Raises RoomTables :=
  match batch.delta with
  | none => .ok (storeEvents t batch)
  | some delta => do
    let updates ← joinedRoomUpdates t (eventMapOf batch.events) delta
    .ok (updateCurrentState (storeEvents t batch) delta updates)

/-- A batch that fails is not persisted. -/
def step (batch : Batch) (t : RoomTables) : RoomTables :=
  match persistBatch t batch with
  | .ok t' => t'
  | .error _ => t

theorem columnOf_keyOf (col : Column) : columnOf (keyOf col) = some col := by
  cases col <;> decide

theorem mem_relevantStateSet {key : StateKey} :
    key ∈ relevantStateSet ↔ ∃ col, key = keyOf col := by
  constructor
  · intro h
    simp only [relevantStateSet,mem_cons,not_mem_nil,or_false] at h
    rcases h with rfl | rfl | rfl | rfl
    · exact ⟨.roomType,rfl⟩
    · exact ⟨.isEncrypted,rfl⟩
    · exact ⟨.roomName,rfl⟩
    · exact ⟨.tombstoneSuccessorRoomId,rfl⟩
  · rintro ⟨col,rfl⟩
    cases col <;> decide

theorem foldlM_addValue (es : List (Sigma fun _ : StateKey => Event)) (hn : es.NodupKeys)
    (hke : ∀ key ∈ es.keys, key ∈ relevantStateSet) (vs : InsertValues) :
    ∃ res, es.foldlM addValue vs = .ok res ∧ ∀ col, res.lookup col =
        ((es.dlookup (keyOf col)).bind (valueOf col)).or (vs.lookup col) := by
  induction es generalizing vs with
  | nil => exact ⟨vs,rfl,fun col => by simp⟩
  | cons e es ih =>
    obtain ⟨key,ev⟩ := e
    rw [nodupKeys_cons] at hn
    have hke' : ∀ key ∈ es.keys, key ∈ relevantStateSet :=
      fun k hk => hke k (by exact mem_cons_of_mem _ hk)
    obtain ⟨col,rfl⟩ := mem_relevantStateSet.mp (hke key (by simp))
    have ho : ∀ c, c ≠ col → keyOf c ≠ keyOf col := by
      intro c hne heq
      have hco := columnOf_keyOf c
      rw [heq,columnOf_keyOf col] at hco
      exact hne (some.inj hco).symm
    -- the entry writes its own column, if it has a value for it
    have hst : ∃ vs', addValue vs ⟨keyOf col,ev⟩ = .ok vs' ∧ ∀ c, vs'.lookup c =
        if c = col then (valueOf col ev).or (vs.lookup c) else vs.lookup c := by
      rw [addValue]
      simp only [columnOf_keyOf]
      cases hv : valueOf col ev with
      | none => exact ⟨vs,rfl,by simp⟩
      | some v => exact ⟨_,rfl,fun c => by simp [lookup_set]⟩
    obtain ⟨vs',hs,hvs⟩ := hst
    obtain ⟨res,hr,hl⟩ := ih hn.2 hke' vs'
    refine ⟨res,by rw [foldlM_cons,hs]; exact hr,?_⟩
    intro c
    rw [hl c,hvs]
    by_cases hc : c = col
    · subst hc
      rw [dlookup_eq_none.mpr hn.1]
      simp
    · rw [dlookup_cons_ne es (⟨keyOf col,ev⟩ : Sigma fun _ : StateKey => Event) (ho c hc),if_neg hc]

theorem insertValues_spec (sm : StateMap Event)
    (hk : ∀ key ev, sm.lookup key = some ev → key ∈ relevantStateSet) :
    ∃ vs, getSlidingSyncInsertValuesFromStateMap sm = .ok vs ∧
      ∀ col, vs.lookup col = (sm.lookup (keyOf col)).bind (valueOf col) := by
  obtain ⟨vs,hv,hl⟩ := foldlM_addValue sm.entries sm.nodupKeys (by
    intro key hkey
    obtain ⟨ev,he⟩ := mem_iff_lookup.mp (show key ∈ sm from hkey)
    exact hk key ev he) ∅
  refine ⟨vs,hv,?_⟩
  intro col
  rw [hl col]
  simp [AList.lookup]

def served (eventMap stored : Dict String Event) (eventId : String) : Option Event :=
  (eventMap.lookup eventId).or (stored.lookup eventId)

def HasKey (event : Event) (key : StateKey) : Prop :=
  event.type = key.1 ∧ event.stateKey = some key.2

theorem foldlM_addStored {sd : Dict String Event} (es : List (Sigma fun _ : StateKey => String))
    (hn : es.NodupKeys) (hk : ∀ en ∈ es, ∀ ev, sd.lookup en.2 = some ev → HasKey ev en.1)
    {st res : StateMap Event} (h : es.foldlM (addStored sd) st = .ok res) :
    (∀ key, res.lookup key = ((es.dlookup key).bind (fun id => sd.lookup id)).or (st.lookup key)) ∧
    ∀ en ∈ es, (sd.lookup en.2).isSome = true := by
  induction es generalizing st with
  | nil =>
    cases h
    exact ⟨fun key => by simp,by simp⟩
  | cons en es ih =>
    obtain ⟨key,id⟩ := en
    rw [nodupKeys_cons] at hn
    rw [foldlM_cons,bind_eq_ok] at h
    obtain ⟨st₁,hf,hr⟩ := h
    cases hev : sd.lookup id with
    | none => simp [addStored,hev] at hf
    | some ev =>
      obtain ⟨ht,hs⟩ := hk ⟨key,id⟩ mem_cons_self ev hev
      have hi : st₁ = st.insert key ev := by
        simp only [addStored,hev,Event.requireStateKey,hs,ht] at hf
        exact (Except.ok.inj hf).symm
      obtain ⟨hlo,hso⟩ := ih hn.2 (fun e he => hk e (mem_cons_of_mem _ he)) hr
      refine ⟨?_,?_⟩
      · intro l
        rw [hlo l,hi,lookup_set]
        by_cases hl : l = key
        · subst hl
          rw [dlookup_eq_none.mpr hn.1]
          simp [hev]
        · rw [dlookup_cons_ne es (⟨key,id⟩ : Sigma fun _ : StateKey => String) hl,if_neg hl]
      · exact forall_mem_cons.mpr ⟨isSome_of_mem hev,hso⟩

theorem resolveState_spec {eventMap sd : Dict String Event} {ids : StateMap String}
    (hk : ∀ key id ev, ids.lookup key = some id → sd.lookup id = some ev → HasKey ev key)
    {res : StateMap Event} (h : resolveState eventMap sd ids = .ok res) :
    (∀ key, res.lookup key = (ids.lookup key).bind (served eventMap sd)) ∧
    ∀ key id, ids.lookup key = some id → (served eventMap sd id).isSome = true := by
  have hm : ∀ key, (filter ids (fun _ eventId => (eventMap.lookup eventId).isNone)).lookup key =
        (ids.lookup key).filter (fun id => (eventMap.lookup id).isNone) :=
    fun key => lookup_filter ids _ key
  obtain ⟨hl,hs⟩ := foldlM_addStored _ (nodupKeys _) (by
    intro e hen ev he
    have hid := mem_lookup_iff.mpr hen
    rw [mem_def,hm,filter_eq_some_iff] at hid
    exact hk e.1 e.2 ev hid.1 he) h
  refine ⟨?_,?_⟩
  · intro key
    rw [hl key,lookup_compose]
    change (((filter ids _).lookup key).bind _).or _ = _
    rw [hm key]
    cases hid : ids.lookup key with
    | none => simp
    | some id =>
      cases he : eventMap.lookup id <;> simp [Option.filter,served,he]
  · intro key id hid
    cases he : eventMap.lookup id with
    | none =>
      have hin := (hm key).trans (by simp [hid,he] : _ = some id)
      rw [served,he]
      exact hs ⟨key,id⟩ (mem_lookup_iff.mp hin)
    | some ev => simp [served,he]

section Invariant

/-- The current state is made of stored events, each at its key. -/
def Keyed (t : RoomTables) : Prop :=
  ∀ key id, t.currentState.lookup key = some id →
    ∃ event, t.events.lookup id = some event ∧ HasKey event key

def current (t : RoomTables) (column : Column) : Option Value :=
  ((t.currentState.lookup (keyOf column)).bind (fun id => t.events.lookup id)).bind (valueOf column)

def fullValues (t : RoomTables) : Raises InsertValues :=
  getSlidingSyncInsertValuesFromStateMap (Dict.compose
    (Dict.filterKeys t.currentState (fun key => key ∈ relevantStateSet)) t.events)

theorem fullValues_spec (t : RoomTables) :
    ∃ vs, fullValues t = .ok vs ∧ ∀ col, vs.lookup col = current t col := by
  obtain ⟨vs,hv,hl⟩ := insertValues_spec (compose
    (filterKeys t.currentState (fun key => key ∈ relevantStateSet)) t.events) (by
      intro key ev he
      rw [lookup_compose,lookup_filterKeys] at he
      by_contra hkey
      simp [hkey] at he)
  refine ⟨vs,hv,?_⟩
  intro col
  have hr : keyOf col ∈ relevantStateSet := mem_relevantStateSet.mpr ⟨col,rfl⟩
  rw [hl col,current,lookup_compose,lookup_filterKeys]
  simp [hr]

def columns (t : RoomTables) (column : Column) : Value := (t.row.getD emptyValue) column

def Agrees (t : RoomTables) : Prop :=
  ∀ column, columns t column = (current t column).getD (emptyValue column)

def nextState (t : RoomTables) (batch : Batch) : StateMap String :=
  match batch.delta with
  | none => t.currentState
  | some delta =>
    if delta.noLongerInRoom then ∅
    else Dict.update (Dict.popAll t.currentState delta.toDelete) delta.toInsert

/-- How a change of state and redactions are made: no key is both deleted and inserted, the
inserted events are in the batch or stored and have their keys, and a redacted event is a
known one that keeps its key. -/
structure Proper (batch : Batch) (t : RoomTables) : Prop where
  apart : ∀ delta ∈ batch.delta, ∀ key ∈ delta.toDelete, delta.toInsert.lookup key = none
  inserted : ∀ delta ∈ batch.delta, ∀ key id, delta.toInsert.lookup key = some id →
    ∃ event, served t.events (eventMapOf batch.events) id = some event ∧ HasKey event key
  redacted : ∀ id event, batch.redacted.lookup id = some event →
    ∃ known, served t.events (eventMapOf batch.events) id = some known ∧
      event.type = known.type ∧ event.stateKey = known.stateKey

/-- What the columns can follow: the tombstone is not deleted, a value that replaces one in the
row can be stored, and the events that the columns are filled from are not redacted. -/
structure Follows (batch : Batch) (t : RoomTables) : Prop where
  tombstone : ∀ delta ∈ batch.delta, keyOf .tombstoneSuccessorRoomId ∉ delta.toDelete
  storable : t.row.isSome = true → ∀ delta ∈ batch.delta, ∀ column id event,
    delta.toInsert.lookup (keyOf column) = some id →
      served (eventMapOf batch.events) t.events id = some event → valueOf column event ≠ none
  unredacted : ∀ column id, (nextState t batch).lookup (keyOf column) = some id →
    (storeEvents t batch).events.lookup id = served (eventMapOf batch.events) t.events id ∧
      (t.currentState.lookup (keyOf column) = some id →
        (storeEvents t batch).events.lookup id = t.events.lookup id)

variable {t : RoomTables} {b : Batch}

theorem lookup_storeEvents (t : RoomTables) (b : Batch) (id : String) :
    (storeEvents t b).events.lookup id = (b.redacted.lookup id).or
      (served t.events (eventMapOf b.events) id) := by
  rw [storeEvents,lookup_update,lookup_addMissing]
  rfl

theorem stored_hasKey (hp : Proper b t) {id : String} {ev : Event} {key : StateKey}
    (he : served t.events (eventMapOf b.events) id = some ev) (hkey : HasKey ev key) :
    ∃ ev', (storeEvents t b).events.lookup id = some ev' ∧ HasKey ev' key := by
  rw [lookup_storeEvents]
  cases hr : b.redacted.lookup id with
  | none => exact ⟨ev,he,hkey⟩
  | some ev' =>
    obtain ⟨known,hk,ht,hs⟩ := hp.redacted id ev' hr
    rw [he] at hk
    cases hk
    exact ⟨ev',rfl,ht.trans hkey.1,hs.trans hkey.2⟩

theorem keyed_next (hp : Proper b t) (h : Keyed t) {t' : RoomTables}
    (hs : t'.currentState = nextState t b) (hev : t'.events = (storeEvents t b).events) :
    Keyed t' := by
  have ho : ∀ key id, t.currentState.lookup key = some id →
      ∃ ev, (storeEvents t b).events.lookup id = some ev ∧ HasKey ev key := by
    intro key id hid
    obtain ⟨ev,he,hk⟩ := h key id hid
    exact stored_hasKey hp (by simp [served,he]) hk
  intro key id hid
  rw [hs,nextState] at hid
  rw [hev]
  split at hid
  · exact ho key id hid
  · next d hd =>
    split at hid
    · simp at hid
    · rw [lookup_update,lookup_popAll] at hid
      cases hi : d.toInsert.lookup key with
      | some id' =>
        rw [hi] at hid
        cases hid
        obtain ⟨ev,he,hk⟩ := hp.inserted d hd key id hi
        exact stored_hasKey hp he hk
      | none =>
        rw [hi] at hid
        split at hid
        · simp at hid
        · exact ho key id hid

theorem mem_fromTypes_relevant (key : StateKey) :
    (StateFilter.fromTypes (relevantStateSet.map (fun key => (key.1,some key.2)))).contains key =
      true ↔ key ∈ relevantStateSet := by
  rw [StateFilter.contains_fromTypes]
  constructor
  · rintro (h | h)
    · simp at h
    · obtain ⟨key',hk',heq⟩ := mem_map.mp h
      rw [Prod.mk.injEq,some.injEq] at heq
      rwa [show key = key' from Prod.ext heq.1.symm heq.2.symm]
  · intro h
    exact .inr (mem_map.mpr ⟨key,h,rfl⟩)

theorem lookup_relevantIds (t : RoomTables) (d : DeltaState) (key : StateKey) :
    (relevantIds t d).lookup key =
      if key ∈ relevantStateSet then
        (d.toInsert.lookup key).or (if t.row.isSome then none else t.currentState.lookup key)
      else none := by
  rw [relevantIds,lookup_update,lookup_filterKeys,stateToInsertFully]
  by_cases hr : t.row.isSome = true
  · by_cases hk : key ∈ relevantStateSet <;> simp [hr]
  · rw [if_neg hr,if_neg hr,StateFilter.lookup_filterState]
    by_cases hk : key ∈ relevantStateSet
    · simp [hk,(mem_fromTypes_relevant key).mpr hk]
    · have hn := mt (mem_fromTypes_relevant key).mp hk
      simp [hk,hn]

theorem lookup_clearDeleted (vs : InsertValues) (key : StateKey) (col : Column) :
    (clearDeleted vs key).lookup col =
      if key = keyOf col ∧ col ≠ .tombstoneSuccessorRoomId then some (emptyValue col)
      else vs.lookup col := by
  unfold clearDeleted
  split
  · next h =>
    subst h
    cases col <;> simp [keyOf,emptyValue,create,roomEncryption,name]
  · next hc =>
    split
    · next h =>
      subst h
      cases col <;> simp [keyOf,emptyValue,create,roomEncryption,name]
    · next he =>
      split
      · next h =>
        subst h
        cases col <;> simp [keyOf,emptyValue,create,roomEncryption,name]
      · next hn => cases col <;> simp [keyOf,hc,he,hn]

theorem lookup_foldl_clearDeleted (ks : List StateKey) (vs : InsertValues) (col : Column) :
    (ks.foldl clearDeleted vs).lookup col =
      if keyOf col ∈ ks ∧ col ≠ .tombstoneSuccessorRoomId then some (emptyValue col)
      else vs.lookup col := by
  induction ks generalizing vs with
  | nil => simp
  | cons key ks ih =>
    rw [foldl_cons,ih,lookup_clearDeleted]
    by_cases ht : col = .tombstoneSuccessorRoomId
    · simp [ht]
    · by_cases hk : key = keyOf col
      · simp [hk,ht]
      · simp [hk,Ne.symm hk]

theorem columns_upsert (row : Option (Column → Value)) (us : InsertValues) (col : Column) :
    ((upsert row us).getD emptyValue) col = (us.lookup col).getD ((row.getD emptyValue) col) := by
  unfold upsert
  split
  · next he =>
    have hn : us.lookup col = none := by
      rw [AList.lookup,isEmpty_iff.mp he]
      rfl
    rw [hn]
    rfl
  · rfl

theorem lookup_joinedRoomUpdates (hk : Keyed t) (hp : Proper b t) {d : DeltaState}
    (hd : b.delta = some d) (hin : d.noLongerInRoom = false)
    (hs : ¬(d.toInsert.entries.isEmpty ∧ d.toDelete = [])) {us : InsertValues}
    (h : joinedRoomUpdates t (eventMapOf b.events) d = .ok us) :
    (∀ col, us.lookup col =
      if keyOf col ∈ d.toDelete ∧ col ≠ .tombstoneSuccessorRoomId then
        some (emptyValue col)
      else (((d.toInsert.lookup (keyOf col)).or
        (if t.row.isSome then none else t.currentState.lookup (keyOf col))).bind
          (served (eventMapOf b.events) t.events)).bind (valueOf col)) ∧
    ∀ col id, d.toInsert.lookup (keyOf col) = some id →
      (served (eventMapOf b.events) t.events id).isSome = true := by
  rw [joinedRoomUpdates,if_neg hs,if_neg (by simp [hin]),bind_eq_ok] at h
  obtain ⟨st,hst,h⟩ := h
  rw [bind_eq_ok] at h
  obtain ⟨vs,hv,h⟩ := h
  cases h
  have hids : ∀ key id, (relevantIds t d).lookup key = some id →
      key ∈ relevantStateSet ∧ (d.toInsert.lookup key = some id ∨
        t.currentState.lookup key = some id) := by
    intro key id hid
    rw [lookup_relevantIds] at hid
    split at hid
    · next hkey =>
      refine ⟨hkey,?_⟩
      cases hi : d.toInsert.lookup key with
      | some id' =>
        rw [hi] at hid
        exact .inl hid
      | none =>
        rw [hi] at hid
        split at hid
        · simp at hid
        · exact .inr hid
    · simp at hid
  obtain ⟨hr,hse⟩ := resolveState_spec (by
    intro key id ev hid he
    rcases (hids key id hid).2 with hi | hc
    · obtain ⟨ev',he',hkey⟩ := hp.inserted d hd key id hi
      rw [served,he] at he'
      cases he'
      exact hkey
    · obtain ⟨ev',he',hkey⟩ := hk key id hc
      rw [he] at he'
      cases he'
      exact hkey) hst
  obtain ⟨vs',hv',hl⟩ := insertValues_spec st (by
    intro key ev he
    rw [hr key] at he
    obtain ⟨id,hid,-⟩ := bind_eq_some_iff.mp he
    exact (hids key id hid).1)
  rw [hv] at hv'
  cases hv'
  have hre : ∀ col, keyOf col ∈ relevantStateSet := fun col => mem_relevantStateSet.mpr ⟨col,rfl⟩
  refine ⟨?_,?_⟩
  · intro col
    rw [lookup_foldl_clearDeleted,hl col,hr,lookup_relevantIds,if_pos (hre col)]
  · intro col id hi
    refine hse (keyOf col) id ?_
    rw [lookup_relevantIds,if_pos (hre col),hi]
    rfl

end Invariant

section Steps

variable {t : RoomTables} {ba : Batch}

theorem agrees_unchanged (hf : Follows ba t) {t' : RoomTables}
    (hs : ∀ key, t'.currentState.lookup key = t.currentState.lookup key)
    (hn : ∀ key, (nextState t ba).lookup key = t.currentState.lookup key) (hr : t'.row = t.row)
    (he : t'.events = (storeEvents t ba).events) : Agrees t' ↔ Agrees t := by
  refine forall_congr' (fun col => ?_)
  have hc : current t' col = current t col := by
    rw [current,current,hs,he]
    cases hid : t.currentState.lookup (keyOf col) with
    | none => rfl
    | some id =>
      rw [bind_some,bind_some,(hf.unredacted col id ((hn _).trans hid)).2 hid]
  rw [hc,columns,columns,hr]

theorem nextState_unchanged {d : DeltaState} (hd : ba.delta = some d)
    (hin : d.noLongerInRoom = false) (hi : d.toInsert.entries.isEmpty = true)
    (hde : d.toDelete = []) (key : StateKey) :
    (nextState t ba).lookup key = t.currentState.lookup key := by
  have hn : d.toInsert.lookup key = none := by
    rw [AList.lookup,isEmpty_iff.mp hi]
    rfl
  simp only [nextState,hd,hin,Bool.false_eq_true,if_false]
  rw [lookup_update,hn,hde]
  rfl

/-- A row is right, and a missing row too if it was before. -/
def Kept (t t' : RoomTables) : Prop :=
  Keyed t' ∧ (t'.row.isSome = true → Agrees t') ∧ (Agrees t → Agrees t')

variable (hk : Keyed t) (hp : Proper ba t) (hf : Follows ba t) (hr : t.row.isSome = true → Agrees t)
include hk hp hf hr

theorem agrees_updated {d : DeltaState} (hd : ba.delta = some d)
    (hin : d.noLongerInRoom = false) (hso : ¬(d.toInsert.entries.isEmpty ∧ d.toDelete = []))
    {us : InsertValues} (h : joinedRoomUpdates t (eventMapOf ba.events) d = .ok us) :
    Agrees (updateCurrentState (storeEvents t ba) d us) := by
  obtain ⟨hup,hse⟩ := lookup_joinedRoomUpdates hk hp hd hin hso h
  have hn : (updateCurrentState (storeEvents t ba) d us).currentState = nextState t ba := by
    simp [updateCurrentState,nextState,hd,hin,storeEvents]
  intro col
  have hc : columns (updateCurrentState (storeEvents t ba) d us) col =
      (us.lookup col).getD (columns t col) := by
    simp only [updateCurrentState,hin]
    exact columns_upsert t.row us col
  have hcu : current (updateCurrentState (storeEvents t ba) d us) col =
      (((nextState t ba).lookup (keyOf col)).bind
        (fun id => (storeEvents t ba).events.lookup id)).bind (valueOf col) := by
    rw [current,hn]
    simp [updateCurrentState,hin]
  have hs : (nextState t ba).lookup (keyOf col) = (d.toInsert.lookup (keyOf col)).or
        (if keyOf col ∈ d.toDelete then none else t.currentState.lookup (keyOf col)) := by
    simp only [nextState,hd,hin,Bool.false_eq_true,if_false]
    rw [lookup_update,lookup_popAll]
    congr
  have he : t.row.isSome = false → columns t col = emptyValue col := by
    intro hno
    have hm : t.row = none := not_isSome_iff_eq_none.mp (by simp [hno])
    rw [columns,hm]
    rfl
  have hu := hf.unredacted col
  rw [hc,hcu,hup col]
  by_cases hde : keyOf col ∈ d.toDelete
  · -- the column is cleared, and nothing else is inserted for it
    have hne : col ≠ .tombstoneSuccessorRoomId := by
      rintro rfl
      exact hf.tombstone d hd hde
    rw [if_pos ⟨hde,hne⟩,hs,hp.apart d hd _ hde,if_pos hde]
    rfl
  · rw [if_neg (fun ha => hde ha.1)]
    rw [if_neg hde] at hs
    cases hi : d.toInsert.lookup (keyOf col) with
    | some id =>
      rw [hi,some_or] at hs
      rw [hs,some_or,bind_some,bind_some,(hu id hs).1]
      obtain ⟨ev,hev⟩ := isSome_iff_exists.mp (hse col id hi)
      rw [hev,bind_some]
      cases ho : t.row.isSome with
      | true =>
        obtain ⟨v,hv⟩ := ne_none_iff_exists'.mp (hf.storable ho d hd col id ev hi hev)
        rw [hv]
        rfl
      | false => rw [he ho]
    | none =>
      rw [hi,none_or] at hs
      rw [hs,none_or]
      cases ho : t.row.isSome with
      | true =>
        refine (hr ho col).trans ?_
        rw [current]
        cases hid : t.currentState.lookup (keyOf col) with
        | none => rfl
        | some id =>
          rw [bind_some,bind_some,(hu id (hs.trans hid)).2 hid]
      | false =>
        rw [if_neg Bool.false_ne_true,he ho]
        cases hid : t.currentState.lookup (keyOf col) with
        | none => rfl
        | some id =>
          rw [bind_some,bind_some,(hu id (hs.trans hid)).1]

theorem kept_unchanged {t' : RoomTables} (hs : t'.currentState = nextState t ba)
    (hn : ∀ key, (nextState t ba).lookup key = t.currentState.lookup key) (hrow : t'.row = t.row)
    (he : t'.events = (storeEvents t ba).events) : Kept t t' := by
  have ha := agrees_unchanged hf (fun key => by rw [hs,hn]) hn hrow he
  refine ⟨keyed_next hp hk hs he,?_,ha.mpr⟩
  intro hso
  rw [hrow] at hso
  exact ha.mpr (hr hso)

theorem kept_updated {d : DeltaState} {us : InsertValues} (hd : ba.delta = some d)
    (h : joinedRoomUpdates t (eventMapOf ba.events) d = .ok us) :
    Kept t (updateCurrentState (storeEvents t ba) d us) := by
  cases hin : d.noLongerInRoom with
  | true =>
    have hl : updateCurrentState (storeEvents t ba) d us =
        { storeEvents t ba with currentState := ∅, row := none } := by
      rw [updateCurrentState,if_pos hin]
    have ha : Agrees { storeEvents t ba with currentState := ∅, row := none } := by
      intro col
      rfl
    rw [hl]
    refine ⟨?_,fun _ => ha,fun _ => ha⟩
    intro key id hid
    simp at hid
  | false =>
    have hst : (updateCurrentState (storeEvents t ba) d us).currentState = nextState t ba := by
      simp [updateCurrentState,nextState,hd,hin,storeEvents]
    have he : (updateCurrentState (storeEvents t ba) d us).events = (storeEvents t ba).events := by
      simp [updateCurrentState,hin]
    by_cases hs : d.toInsert.entries.isEmpty = true ∧ d.toDelete = []
    · rw [joinedRoomUpdates,if_pos hs] at h
      cases h
      refine kept_unchanged hk hp hf hr hst (nextState_unchanged hd hin hs.1 hs.2) ?_ he
      rw [updateCurrentState,if_neg (by simp [hin])]
      rfl
    · have ha := agrees_updated hk hp hf hr hd hin hs h
      exact ⟨keyed_next hp hk hst he,fun _ => ha,fun _ => ha⟩

theorem kept_step : Kept t (step ba t) := by
  cases hd : ba.delta with
  | none =>
    have hs : step ba t = storeEvents t ba := by
      simp [step,persistBatch,hd]
    have hn : nextState t ba = t.currentState := by
      simp [nextState,hd]
    rw [hs]
    exact kept_unchanged hk hp hf hr hn.symm (fun key => by rw [hn]) rfl rfl
  | some d =>
    cases hu : joinedRoomUpdates t (eventMapOf ba.events) d with
    | error e =>
      have hs : step ba t = t := by
        simp only [step,persistBatch,hd,hu]
        rfl
      rw [hs]
      exact ⟨hk,hr,id⟩
    | ok us =>
      have hs : step ba t = updateCurrentState (storeEvents t ba) d us := by
        simp only [step,persistBatch,hd,hu]
        rfl
      rw [hs]
      exact kept_updated hk hp hf hr hd hu

end Steps

/-- The columns are those that the full current state gives, with the empty values for absent
events. -/
def RowRight (t : RoomTables) : Prop :=
  ∃ values, fullValues t = .ok values ∧
    ∀ column, columns t column = (values.lookup column).getD (emptyValue column)

theorem rowRight_iff (t : RoomTables) : RowRight t ↔ Agrees t := by
  obtain ⟨vs,hv,hl⟩ := fullValues_spec t
  constructor
  · rintro ⟨vs',hv',hc⟩ col
    rw [hv] at hv'
    cases hv'
    rw [hc col,hl col]
  · intro h
    refine ⟨vs,hv,?_⟩
    intro col
    rw [h col,hl col]

/-- In every run of batches that the columns can follow, a row has after each batch the values
that the full current state gives; where this held at the start for a missing row, it stays so
for a missing row, too. -/
theorem joined_room_columns_right (t : RoomTables) (batches : List Batch) (hkeyed : Keyed t)
    (hright : t.row.isSome = true → RowRight t)
    (hrun : Runs.Admitted step (fun batch t => Proper batch t ∧ Follows batch t) batches t) :
    ((Runs.run step batches t).row.isSome = true → RowRight (Runs.run step batches t)) ∧
      (RowRight t → RowRight (Runs.run step batches t)) := by
  rw [rowRight_iff] at hright ⊢
  rw [rowRight_iff]
  have hkept : Kept t (run step batches t) := by
    refine hrun.invariant (I := fun t' => Kept t t') ?_ ⟨hkeyed,hright,id⟩
    rintro batch t' ⟨hkeyed',hright',hlater⟩ ⟨hproper,hfollows⟩
    obtain ⟨hkeyed'',hright'',hstep⟩ := kept_step hkeyed' hproper hfollows hright'
    exact ⟨hkeyed'',hright'',fun h => hstep (hlater h)⟩
  exact hkept.2

def setupEvent (eventId type : String) (content : JsonDict) : Event where
  eventId := eventId
  roomId := "!r"
  sender := "@alice:hs"
  type := type
  stateKey := some ""
  content := content
  prevEventIds := []
  authEventIds := []
  originServerTs := 0
  topLevelRedacts := .null
  roomVersion := .v10
  rejectedReason := none

def noTables : RoomTables := ⟨∅,none,∅⟩

def setEvent (event : Event) : Batch where
  events := [event]
  delta := some ⟨[],(∅ : StateMap String).insert (event.type,"") event.eventId,false⟩
  redacted := ∅

def naming : Event := setupEvent "$name" EventTypes.name [("name",.str "Tea")]

def renamed : Event := setupEvent "$name2" EventTypes.name [("name",.str "Coffee")]

theorem lookup_setEvent (ev : Event) (id : String) :
    (eventMapOf (setEvent ev).events).lookup id =
      if id = ev.eventId then some ev else none :=
  lookup_set ∅ ev.eventId id ev

theorem setEvent_proper {ev : Event} {t : RoomTables} (hk : ev.stateKey = some "")
    (hn : t.events.lookup ev.eventId = none) : Proper (setEvent ev) t where
  apart := by
    rintro delta ⟨rfl⟩ key hk
    simp at hk
  inserted := by
    rintro delta ⟨rfl⟩ key id hid
    rcases set_cases hid with ⟨heq,rfl⟩ | ⟨-,hid⟩
    · refine ⟨ev,?_,?_⟩
      · rw [served,hn,lookup_setEvent,if_pos rfl]
        rfl
      · rw [heq]
        exact ⟨rfl,hk⟩
    · simp at hid
  redacted := by
    intro id ev' hid
    simp [setEvent] at hid

theorem setEvent_follows (col : Column) {ev : Event} {t : RoomTables}
    (ht : (ev.type,"") = keyOf col) (hv : valueOf col ev ≠ none)
    (hn : t.events.lookup ev.eventId = none)
    (hs : ∀ key id, t.currentState.lookup key = some id → key = keyOf col ∧ id ≠ ev.eventId) :
    Follows (setEvent ev) t where
  tombstone := by
    rintro d ⟨rfl⟩ hin
    simp at hin
  storable := by
    rintro - d ⟨rfl⟩ c id ev' hid he
    rw [lookup_set,ht] at hid
    split at hid
    · next hk =>
      cases hid
      rw [served,lookup_setEvent,if_pos rfl] at he
      cases he
      have hc := columnOf_keyOf c
      rw [hk,columnOf_keyOf] at hc
      rw [← some.inj hc]
      exact hv
    · simp at hid
  unredacted := by
    intro c id hid
    simp only [nextState,setEvent,Bool.false_eq_true,if_false] at hid
    rw [lookup_update,lookup_popAll,lookup_set,ht] at hid
    split at hid
    · cases hid
      refine ⟨?_,fun ho => absurd rfl (hs _ _ ho).2⟩
      rw [lookup_storeEvents,served,served,hn,lookup_setEvent,if_pos rfl]
      rfl
    · next hk =>
      exact absurd (hs _ id (by simpa using hid)).1 hk

theorem joined_room_columns_right_renamed :
    RowRight (Runs.run step [setEvent naming,setEvent renamed] noTables) ∧
      columns (Runs.run step [setEvent naming,setEvent renamed] noTables) .roomName =
        .text (some "Coffee") := by
  have hadmitted : Runs.Admitted step (fun batch t => Proper batch t ∧ Follows batch t)
      [setEvent naming,setEvent renamed] noTables := by
    refine ⟨⟨setEvent_proper rfl rfl,setEvent_follows .roomName rfl (by decide +kernel)
      rfl (fun key id hid => by simp [noTables] at hid)⟩,⟨setEvent_proper rfl rfl,?_⟩,trivial⟩
    refine setEvent_follows .roomName rfl (by decide +kernel) rfl ?_
    intro key id hid
    have hset : (step (setEvent naming) noTables).currentState =
        (∅ : StateMap String).insert (name,"") "$name" := rfl
    rw [hset] at hid
    rcases set_cases hid with ⟨hkey,rfl⟩ | ⟨-,hid⟩
    · exact ⟨hkey,by decide⟩
    · simp at hid
  have hright : RowRight noTables := (rowRight_iff _).mpr (fun column => rfl)
  exact ⟨(joined_room_columns_right noTables _ (fun key id hid => by simp [noTables] at hid)
    (fun _ => hright) hadmitted).2 hright,by decide +kernel⟩

def tombstoned : Event :=
  setupEvent "$tombstone" EventTypes.tombstone [("replacement_room",.str "!new")]

def tombstoneDeleted : Batch where
  events := []
  delta := some ⟨[(EventTypes.tombstone,"")],∅,false⟩
  redacted := ∅

theorem deleted_tombstone_kept :
    RowRight (Runs.run step [setEvent tombstoned] noTables) ∧
      (Runs.run step [setEvent tombstoned,tombstoneDeleted] noTables).currentState.entries = [] ∧
      columns (Runs.run step [setEvent tombstoned,tombstoneDeleted] noTables)
        .tombstoneSuccessorRoomId = .text (some "!new") ∧
      ¬RowRight (Runs.run step [setEvent tombstoned,tombstoneDeleted] noTables) := by
  rw [rowRight_iff,rowRight_iff]
  refine ⟨?_,by decide +kernel,by decide +kernel,?_⟩
  · intro column
    cases column <;> decide +kernel
  · intro h
    exact absurd (h .tombstoneSuccessorRoomId) (by decide +kernel)

end SlidingSync

end Synapse
