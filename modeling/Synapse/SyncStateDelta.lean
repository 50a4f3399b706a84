import Synapse.Events
import Synapse.Iteration

/-!
# The state block of an incremental sync

The block has the events of the state at the start and at the end of the timeline
that are in neither the previous state nor the timeline. Where the two states have
different events for a key, and the graph forks, both may be in the block, or only
the one that the end no longer has.
-/

set_option autoImplicit false

namespace Synapse.SyncStateDelta
open List Dict Option Finset Function

structure RoomEvent where
  eventId : String
  prevEventIds : List String
  stateKey : Option StateKey

structure TimelineBatch where
  events : List RoomEvent
  limited : Bool

/-- The states that are stored for the events of a room. -/
structure Room where
  stateIdsForEvent : String → StateMap String

def stateAfterEvent (room : Room) (e : RoomEvent) : StateMap String :=
  match e.stateKey with
  | some k => (room.stateIdsForEvent e.eventId).insert k e.eventId
  | none => room.stateIdsForEvent e.eventId

/-- By the last event of the room that is not after the position. -/
def getStateIdsAt (room : Room) (lastEvent : Option RoomEvent) : StateMap String :=
  lastEvent.elim ∅ (stateAfterEvent room)

def timelineState (events : List RoomEvent) : StateMap String :=
  events.foldl (fun d e => e.stateKey.elim d (fun k => d.insert k e.eventId)) ∅

def ids (state : StateMap String) : Finset String := (values state).toFinset

def keyOfId (maps : List (StateMap String)) (e : String) : Option StateKey :=
  ((maps.flatMap (fun state => state.entries)).reverse.find?
    (fun entry => entry.2 = e)).map Sigma.fst

def calculateState (order : Iteration String) (timelineContains timelineStart timelineEnd
    previousTimelineEnd : StateMap String) (lazyLoadMembers : Bool) : StateMap String :=
  let previousIds := if lazyLoadMembers then ids previousTimelineEnd \
      ids (filterKeys timelineStart (fun k => k.1 = EventTypes.member))
    else ids previousTimelineEnd
  let stateIds := ((ids timelineEnd ∪ ids timelineStart) \ previousIds) \ ids timelineContains
  (order.list stateIds).foldl (fun d e => (keyOfId [timelineContains,timelineStart,timelineEnd,
    previousTimelineEnd] e).elim d (fun k => d.insert k e)) ∅

def isLinearTimeline : Option String → List RoomEvent → Bool
  | _, [] => true
  | prevEventId, e::events =>
    some e.prevEventIds = prevEventId.map (fun p => [p]) && isLinearTimeline (some e.eventId) events

def startState (room : Room) (batch : TimelineBatch) (endEvent : Option RoomEvent) :
    StateMap String :=
  batch.events.head?.elim (getStateIdsAt room endEvent) (fun e => room.stateIdsForEvent e.eventId)

/-- No block is made for a linear timeline without a gap. -/
def noBlock (batch : TimelineBatch) (sinceEvent : Option RoomEvent) : Bool :=
  isLinearTimeline (sinceEvent.map RoomEvent.eventId) batch.events && !batch.limited

/-- Without lazy loading, of the last events before the previous token and before the end. -/
def computeStateDeltaForIncrementalSync (order : Iteration String) (room : Room)
    (batch : TimelineBatch) (sinceEvent endEvent : Option RoomEvent) : StateMap String :=
  if noBlock batch sinceEvent then ∅
  else calculateState order (timelineState batch.events)
    (startState room batch endEvent) (getStateIdsAt room endEvent) (getStateIdsAt room sinceEvent)
    false

/-- The client overlays the block and then the events of the timeline. -/
def clientState (before block : StateMap String) (events : List RoomEvent) : StateMap String :=
  Dict.update (Dict.update before block) (timelineState events)

/-- Each state has an event under its own key, and an event with one previous event has the
state after that, but for its own key. -/
structure Stored (room : Room) (keyOf : String → StateKey) (batch : TimelineBatch)
    (sinceEvent endEvent : Option RoomEvent) : Prop where
  states : ∀ id k e, (room.stateIdsForEvent id).lookup k = some e → keyOf e = k
  events : ∀ e, e ∈ batch.events ∨ e ∈ sinceEvent ∨ e ∈ endEvent → ∀ k ∈ e.stateKey,
    keyOf e.eventId = k
  follows : ∀ p e, p ∈ batch.events ∨ p ∈ sinceEvent → e ∈ batch.events →
    e.prevEventIds = [p.eventId] → ∀ k, e.stateKey ≠ some k →
      (room.stateIdsForEvent e.eventId).lookup k = (stateAfterEvent room p).lookup k

def Untouched (events : List RoomEvent) (k : StateKey) : Prop := ∀ e ∈ events, e.stateKey ≠ some k

/-- For the keys that the timeline does not touch: if no block is made, what the end has was
there before, and otherwise the start has no event that is neither in the previous state nor at
the end. -/
structure Settled (room : Room) (batch : TimelineBatch) (sinceEvent endEvent : Option RoomEvent) :
    Prop where
  skipped : noBlock batch sinceEvent = true → ∀ k e, Untouched batch.events k →
    (getStateIdsAt room endEvent).lookup k = some e →
      (getStateIdsAt room sinceEvent).lookup k = some e
  agrees : noBlock batch sinceEvent = false → ∀ k e s, Untouched batch.events k →
    (getStateIdsAt room endEvent).lookup k = some e →
      (startState room batch endEvent).lookup k = some s →
        s = e ∨ (getStateIdsAt room sinceEvent).lookup k = some s

theorem lookup_foldl_keyed {A : Type} (key : A → Option StateKey) (v : A → String) (l : List A)
    (k : StateKey) :
    (l.foldl (fun d x => (key x).elim d (fun k => d.insert k (v x)))
      (∅ : StateMap String)).lookup k =
      (l.filter (fun x => key x = some k)).getLast?.map v := by
  induction l using reverseRecOn with
  | nil => rfl
  | append_singleton l x ih =>
    cases hx : key x with
    | none => simp [hx,ih]
    | some k' =>
      by_cases hk : k = k'
      · simp [hx,hk,lookup_set]
      · simp [hx,hk,Ne.symm hk,ih]

variable {e : String}

theorem mem_ids {st : StateMap String} : e ∈ ids st ↔ ∃ k, st.lookup k = some e := by
  rw [ids,List.mem_toFinset,mem_values]

def Keyed (keyOf : String → StateKey) (st : StateMap String) : Prop :=
  ∀ k e, st.lookup k = some e → keyOf e = k

variable {keyOf : String → StateKey}

theorem Keyed.mem_ids {st : StateMap String}
    (h : Keyed keyOf st) : e ∈ ids st ↔ st.lookup (keyOf e) = some e := by
  rw [SyncStateDelta.mem_ids]
  refine ⟨?_,fun he => ⟨_,he⟩⟩
  rintro ⟨k,hk⟩
  rwa [h k e hk]

theorem keyOfId_eq {maps : List (StateMap String)}
    (hm : ∀ st ∈ maps, Keyed keyOf st) (he : ∃ st ∈ maps, e ∈ ids st) :
    keyOfId maps e = some (keyOf e) := by
  obtain ⟨st,hst,hid⟩ := he
  obtain ⟨k,hk⟩ := mem_ids.mp hid
  rw [keyOfId]
  cases hf : (maps.flatMap (fun state => state.entries)).reverse.find?
    (fun entry => entry.2 = e) with
  | none =>
    refine absurd rfl (find?_eq_none.mp hf ⟨k,e⟩ ?_ ∘ decide_eq_true)
    exact mem_reverse.mpr (mem_flatMap.mpr ⟨st,hst,AList.mem_lookup_iff.mp hk⟩)
  | some en =>
    obtain ⟨st',hst',hmem⟩ := mem_flatMap.mp (mem_reverse.mp (mem_of_find?_eq_some hf))
    have heq : en.2 = e := by simpa using find?_some hf
    rw [map_some,← hm st' hst' en.1 en.2 (AList.mem_lookup_iff.mpr hmem),heq]

section Block

variable {c s t p : StateMap String} (hc : Keyed keyOf c) (hs : Keyed keyOf s)
  (ht : Keyed keyOf t) (hp : Keyed keyOf p) {k : StateKey} (hn : c.lookup k = none)
include hc hs ht hp hn

theorem lookup_calculateState (ord : Iteration String) :
    (calculateState ord c s t p false).lookup k =
      ((ord.list (((ids t ∪ ids s) \ ids p) \ ids c)).filter (fun x => keyOf x = k)).getLast? ∧
    ∀ x, keyOf x = k → (x ∈ ((ids t ∪ ids s) \ ids p) \ ids c ↔
      (t.lookup k = some x ∨ s.lookup k = some x) ∧ p.lookup k ≠ some x) := by
  constructor
  · rw [calculateState,if_neg Bool.false_ne_true,lookup_foldl_keyed,Option.map_id']
    congr 1
    apply List.filter_congr
    intro x hx
    rw [ord.mem,mem_sdiff,mem_sdiff] at hx
    have hk : keyOfId [c,s,t,p] x = some (keyOf x) := by
      refine keyOfId_eq (by simp [hc,hs,ht,hp]) ?_
      rcases mem_union.mp hx.1.1 with hx | hx
      · exact ⟨t,by simp,hx⟩
      · exact ⟨s,by simp,hx⟩
    simp only [hk,some.injEq]
  · rintro x rfl
    rw [mem_sdiff,mem_sdiff,mem_union,ht.mem_ids,hs.mem_ids,hp.mem_ids,hc.mem_ids,hn]
    simp

theorem lookup_block (he : t.lookup k = some e)
    (ha : ∀ x, s.lookup k = some x → x = e ∨ p.lookup k = some x) (ord : Iteration String) :
    ((calculateState ord c s t p false).lookup k).or (p.lookup k) = some e := by
  obtain ⟨hl,hm⟩ := lookup_calculateState hc hs ht hp hn ord
  rw [hl]
  cases hb : (List.filter _ _).getLast? with
  | none =>
    have hke := ht k e he
    have hno := filter_eq_nil_iff.mp (getLast?_eq_none_iff.mp hb) e
    rw [ord.mem,hm e hke] at hno
    by_contra hpr
    exact hno ⟨.inl he,hpr⟩ (by simpa using hke)
  | some x =>
    obtain ⟨hmem,hkx⟩ := mem_filter.mp (mem_of_getLast? hb)
    rw [ord.mem,hm x (of_decide_eq_true hkx)] at hmem
    obtain ⟨hin | hin,hpr⟩ := hmem
    · exact hin.symm.trans he
    · rw [(ha x hin).resolve_right hpr,some_or]

theorem lookup_block_last {x : String} (hx : s.lookup k = some x) (hpr : p.lookup k ≠ some x) :
    ∃ ord, (calculateState ord c s t p false).lookup k = some x := by
  obtain ⟨hl,hm⟩ := lookup_calculateState hc hs ht hp hn (Iteration.endingWith x)
  have hkx := hs k x hx
  refine ⟨Iteration.endingWith x,?_⟩
  rw [hl,Iteration.endingWith_list ((hm x hkx).mpr ⟨.inr hx,hpr⟩),filter_append]
  simp [hkx]

end Block

section Converges

variable {r : Room} {keyOf : String → StateKey} {b : TimelineBatch}
  {since endEvent : Option RoomEvent} {k : StateKey} {e : String}

theorem Untouched.timelineState (hu : Untouched b.events k) :
    (SyncStateDelta.timelineState b.events).lookup k = none := by
  rw [SyncStateDelta.timelineState,lookup_foldl_keyed,filter_eq_nil_iff.mpr]
  · rfl
  · exact fun ev hev => by simpa using hu ev hev

theorem lookup_linear {p : RoomEvent} {evs : List RoomEvent}
    (hf : ∀ p' ev, p' ∈ p::evs → ev ∈ evs → ev.prevEventIds = [p'.eventId] → ∀ k,
      ev.stateKey ≠ some k →
        (r.stateIdsForEvent ev.eventId).lookup k = (stateAfterEvent r p').lookup k)
    (hl : isLinearTimeline (some p.eventId) evs = true) (hu : Untouched evs k) :
    (stateAfterEvent r (evs.getLastD p)).lookup k = (stateAfterEvent r p).lookup k := by
  induction evs generalizing p with
  | nil => rfl
  | cons ev evs ih =>
    simp only [isLinearTimeline,map_some,Bool.and_eq_true,decide_eq_true_eq,some.injEq] at hl
    rw [Untouched,List.forall_mem_cons] at hu
    have hs : (stateAfterEvent r ev).lookup k = (r.stateIdsForEvent ev.eventId).lookup k := by
      rw [stateAfterEvent]
      split
      · next k' hk =>
        rw [lookup_set,if_neg]
        rintro rfl
        exact hu.1 hk
      · rfl
    rw [getLastD_cons,ih (fun p' ev' hp he => hf p' ev' (mem_cons_of_mem _ hp)
      (mem_cons_of_mem _ he)) hl.2 hu.2,hs]
    exact hf p ev mem_cons_self mem_cons_self hl.1 k hu.1

section

variable (h : Stored r keyOf b since endEvent)
include h

theorem Stored.getStateIdsAt (last : Option RoomEvent)
    (hl : ∀ ev ∈ last, ev ∈ since ∨ ev ∈ endEvent) :
    Keyed keyOf (SyncStateDelta.getStateIdsAt r last) := by
  intro k e hk
  cases last with
  | none => simp [SyncStateDelta.getStateIdsAt] at hk
  | some ev =>
    rw [SyncStateDelta.getStateIdsAt,elim_some,stateAfterEvent] at hk
    split at hk
    · next k' hs =>
      rcases set_cases hk with ⟨heq,rfl⟩ | ⟨-,hk⟩
      · exact heq ▸ h.events ev (.inr (hl ev rfl)) k' hs
      · exact h.states _ _ _ hk
    · exact h.states _ _ _ hk

theorem Stored.timelineState :
    Keyed keyOf (SyncStateDelta.timelineState b.events) := by
  intro k e hk
  rw [SyncStateDelta.timelineState,lookup_foldl_keyed,map_eq_some_iff] at hk
  obtain ⟨ev,hev,rfl⟩ := hk
  have hm := mem_filter.mp (mem_of_getLast? hev)
  exact h.events ev (.inl hm.1) k (of_decide_eq_true hm.2)

theorem Stored.startState :
    Keyed keyOf (SyncStateDelta.startState r b endEvent) := by
  rw [SyncStateDelta.startState]
  cases b.events.head? with
  | none => exact h.getStateIdsAt _ (fun _ => .inr)
  | some ev => exact h.states _

end

theorem lookup_end_of_linear (hw : Stored r keyOf b since endEvent)
    (hl : isLinearTimeline (since.map RoomEvent.eventId) b.events = true)
    (he : b.events.getLast?.or since = endEvent) (hu : Untouched b.events k) :
    (getStateIdsAt r endEvent).lookup k = (getStateIdsAt r since).lookup k := by
  cases since with
  | none =>
    cases hb : b.events with
    | nil => rw [← he,hb]; rfl
    | cons ev evs => simp [hb,isLinearTimeline] at hl
  | some p =>
    have hla : b.events.getLast?.or (some p) = some (b.events.getLastD p) := by
      rw [getLastD_eq_getLast?]
      cases b.events.getLast? <;> rfl
    rw [← he,hla]
    refine lookup_linear (fun p' ev hp => hw.follows p' ev ?_) hl hu
    exact (mem_cons.mp hp).symm.imp_right (fun h : p' = p => by rw [h]; rfl)

theorem lookup_client (ord : Iteration String) (hu : Untouched b.events k) :
    (clientState (getStateIdsAt r since)
      (computeStateDeltaForIncrementalSync ord r b since endEvent) b.events).lookup k =
      ((computeStateDeltaForIncrementalSync ord r b since endEvent).lookup k).or
        ((getStateIdsAt r since).lookup k) := by
  rw [clientState,lookup_update,hu.timelineState,lookup_update]
  rfl

end Converges

def nameKey : StateKey := ("m.room.name","")

def nameEvent : RoomEvent := ⟨"X",["C"],some nameKey⟩

/-- Two forks replace the name, and the timeline starts in one of them. -/
def forkedRoom : Room where
  stateIdsForEvent id :=
    (∅ : StateMap String).insert nameKey
      (if id = "E" then "N2" else if id = "M" then "N1" else "X")

def mergedEvents : List RoomEvent := [⟨"E",["N2"],none⟩,⟨"M",["E","N1"],none⟩]

theorem forkedRoom_stored (evs : List RoomEvent) (hs : evs ⊆ mergedEvents) :
    Stored forkedRoom (fun _ => nameKey) ⟨evs,true⟩ (some nameEvent) evs.getLast? where
  states id k e h := by
    rw [forkedRoom,lookup_set] at h
    split at h
    · next hk => exact hk.symm
    · cases h
  events e he k hk := by
    have hm : e = nameEvent ∨ e ∈ mergedEvents := by
      rcases he with he | he | he
      · exact .inr (hs he)
      · exact .inl (some_injective _ he).symm
      · exact .inr (hs (mem_of_getLast? he))
    simp only [mergedEvents,List.mem_cons,not_mem_nil,or_false] at hm
    rcases hm with rfl | rfl | rfl
    · exact some_injective _ hk
    · cases hk
    · cases hk
  follows p e hp he := by
    have hp : p = nameEvent ∨ p ∈ mergedEvents :=
      hp.symm.imp (fun h => (some_injective _ h).symm) (@hs p)
    have he := hs he
    simp only [mergedEvents,nameEvent,List.mem_cons,not_mem_nil,or_false] at hp he
    rcases he with rfl | rfl <;> rcases hp with rfl | rfl | rfl <;> intro h <;>
      exact absurd h (by decide)

end Synapse.SyncStateDelta
