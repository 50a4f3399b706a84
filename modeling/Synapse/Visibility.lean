import Synapse.MembershipRules
import Synapse.Redaction
import Synapse.StateFilter

/-!
# Who may see an event

Two filters decide whether a client is shown an event. One is given a user and
a list of events and reads the state after each of them; the other is given one
event that is being persisted, the state before it and the users who may be
notified. They share the checks but gather what they check separately.
-/

set_option autoImplicit false

namespace Synapse.Visibility
open Python PythonText Redaction EventAuth List Dict AList EventTypes

namespace HistoryVisibility
def invited : String := "invited"
def joined : String := "joined"
def shared : String := "shared"
def worldReadable : String := "world_readable"
end HistoryVisibility

def visibilityPriority : List String :=
  [HistoryVisibility.worldReadable,HistoryVisibility.shared,HistoryVisibility.invited,
    HistoryVisibility.joined]

def membershipPriority : List String :=
  [Membership.join,Membership.invite,Membership.knock,Membership.leave,Membership.ban]

def known (priority : List String) (default : String) : Json → String
  | .str s => if s ∈ priority then s else default
  | _ => default

def foremost (priority : List String) (old new : String) : String :=
  if priority.idxOf old < priority.idxOf new then old else new

def historyVisKey : StateKey := (roomHistoryVisibility,"")

structure RetentionPolicy where
  minLifetime : Option ℤ
  maxLifetime : Option ℤ

section Events

variable (hash : Hash)

/-- An event of a room, with the fields that its dictionary has and what is noted about
it apart from that. -/
structure RoomEvent where
  frozen : FrozenEvent
  fields : Event
  viewed : view hash frozen = .ok fields
  outlier : Bool
  softFailed : Bool

/-- What the database has: the events that were not rejected, the state after each event
that has a state group, and the tables of users and rooms. -/
structure Store where
  events : Dict String Event
  stateGroups : Dict String (StateMap String)
  ignoredUsers : List (String × String)
  erasedUsers : List String
  retentionEnabled : Bool
  defaultRetention : RetentionPolicy
  roomRetention : Dict String RetentionPolicy
  now : ℤ

structure EventContext where
  prevStateIds : StateMap String

end Events

section Store

variable (store : Store)

def getEvents (stateIds : StateMap String) : StateMap Event := compose stateIds store.events

def getStateForEvent (stateFilter : StateFilter) (eventId : String) : Raises (StateMap Event) :=
  match store.stateGroups.lookup eventId with
  | none => .error (.runtimeError ("No state group for unknown or outlier event " ++ eventId))
  | some stateIds => .ok (getEvents store (stateFilter.filterState stateIds))

def getStateForEvents (stateFilter : StateFilter) :
    List String → Raises (Dict String (StateMap Event))
  | [] => .ok ∅
  | eventId::eventIds => do
    let state ← getStateForEvent store stateFilter eventId
    .ok ((← getStateForEvents stateFilter eventIds).insert eventId state)

def ignoredUsers (userId : String) : List String :=
  (store.ignoredUsers.filter (fun row => row.1 = userId)).map Prod.snd

def ignoredBy (userId : String) : List String :=
  (store.ignoredUsers.filter (fun row => row.2 = userId)).map Prod.fst

def getRetentionPolicyForRoom (roomId : String) : RetentionPolicy :=
  if store.retentionEnabled then
    match store.roomRetention.lookup roomId with
    | none => store.defaultRetention
    | some row => ⟨row.minLifetime <|> store.defaultRetention.minLifetime,
        row.maxLifetime <|> store.defaultRetention.maxLifetime⟩
  else ⟨none,none⟩

end Store

section Checks

variable {hash : Hash} (event : RoomEvent hash)

inductive CheckFilter where
  | maybeAllowed
  | denied
  deriving DecidableEq

def checkFilterSendToClient (now : ℤ) (retentionPolicy : RetentionPolicy) (senderIgnored : Bool) :
    CheckFilter :=
  if event.fields.type = dummy then .denied
  else if event.fields.stateKey.isNone ∧ senderIgnored then .denied
  else if event.fields.type = aliases then .denied
  else if event.fields.stateKey.isNone then
    match retentionPolicy.maxLifetime with
    | some maxLifetime =>
      if event.fields.originServerTs < now - maxLifetime then .denied else .maybeAllowed
    | none => .maybeAllowed
  else .maybeAllowed

/-- `event.unsigned.get("prev_content", {}).get(key, None)` -/
def prevContent (key : String) : Raises Json :=
  Json.get (Json.getD event.frozen.unsigned "prev_content" (.object [])) key .null

inductive CheckVisibility where
  | allowed
  | maybeDenied
  deriving DecidableEq

/-- A change of the history visibility is seen by those who could see the room before or
can see it after. -/
def boundaryVisibility (visibility : String) : Raises String :=
  if event.fields.type = roomHistoryVisibility then do
    let prevVisibility ← prevContent event "history_visibility"
    .ok (foremost visibilityPriority
      (known visibilityPriority HistoryVisibility.shared prevVisibility) visibility)
  else .ok visibility

def checkHistoryVisibility (visibility : String) (isPeeking : Bool) : Raises CheckVisibility := do
  let visibility ← boundaryVisibility event visibility
  if visibility = HistoryVisibility.shared ∧ isPeeking = false then .ok .allowed
  else if visibility = HistoryVisibility.worldReadable then .ok .allowed
  else .ok .maybeDenied

structure CheckMembershipReturn where
  allowed : Bool
  joined : Bool
  deriving DecidableEq

def allowedByMembership (membership : Json) (visibility : String) (isPeeking : Bool) :
    CheckMembershipReturn :=
  if membership.isStr Membership.join then ⟨true,true⟩
  else if visibility = HistoryVisibility.joined then ⟨false,false⟩
  else if visibility = HistoryVisibility.invited then ⟨membership.isStr Membership.invite,false⟩
  else if visibility = HistoryVisibility.shared ∧ isPeeking then ⟨false,false⟩
  else ⟨true,false⟩

/-- `event.type == EventTypes.Member and event.state_key == user_id` -/
def isOwnMembership (userId : String) : Raises Bool :=
  if event.fields.type = member then do
    .ok ((← event.fields.requireStateKey) = userId)
  else .ok false

/-- A user's own membership event counts as the most joined of the old and the new one. -/
def checkOwnMembership (visibility : String) (isPeeking : Bool) : Raises CheckMembershipReturn := do
  let membership := known membershipPriority Membership.leave
    (Json.getD event.fields.content "membership" .null)
  let prevMembership ← prevContent event "membership"
  let prevMembership := known membershipPriority Membership.leave prevMembership
  if membership = Membership.leave ∧
      (prevMembership = Membership.join ∨ prevMembership = Membership.invite) then
    .ok ⟨true,false⟩
  else
    .ok (allowedByMembership (.str (foremost membershipPriority prevMembership membership))
      visibility isPeeking)

def membershipIn (state : StateMap Event) (userId : String) : Raises Json :=
  match state.lookup (member,userId) with
  | none => .ok .null
  | some membershipEvent => membershipEvent.membership

def checkMembership (userId visibility : String) (state : StateMap Event) (isPeeking : Bool) :
    Raises CheckMembershipReturn := do
  if ← isOwnMembership event userId then checkOwnMembership event visibility isPeeking
  else do
    let membership ← membershipIn state userId
    .ok (allowedByMembership membership visibility isPeeking)

def getEffectiveRoomVisibilityFromState (state : StateMap Event) : String :=
  match state.lookup historyVisKey with
  | none => HistoryVisibility.shared
  | some visibilityEvent => known visibilityPriority HistoryVisibility.shared
      (Json.getD visibilityEvent.content "history_visibility" (.str HistoryVisibility.shared))

end Checks

section FilterEvents

variable {hash : Hash}

def cloneEvent (event : FrozenEvent) : Raises FrozenEvent :=
  makeEventFromDict (getDict event) event.roomVersion

/-- The event itself, or redacted if its sender was erased and the user was not there. -/
def pruneForErased (event : RoomEvent hash) (senderErased : Bool)
    (membershipResult : CheckMembershipReturn) : Raises (Option FrozenEvent) :=
  if membershipResult.allowed = false then .ok none
  else if senderErased ∧ membershipResult.joined = false then do
    .ok (some (← pruneEvent event.frozen))
  else .ok (some event.frozen)

/-- The membership of the user is always looked at if the sender was erased. -/
def checkLaxVisibility (event : RoomEvent hash) (visibility : String)
    (isPeeking senderErased : Bool) : Raises CheckVisibility :=
  if senderErased then .ok .maybeDenied else checkHistoryVisibility event visibility isPeeking

def checkAgainstState (userId : String) (event : RoomEvent hash) (state : StateMap Event)
    (isPeeking senderErased : Bool) : Raises (Option FrozenEvent) := do
  let visibility := getEffectiveRoomVisibilityFromState state
  let lax ← checkLaxVisibility event visibility isPeeking senderErased
  if lax = .allowed then .ok (some event.frozen)
  else do
    let membershipResult ← checkMembership event userId visibility state isPeeking
    pruneForErased event senderErased membershipResult

def checkClientAllowedToSeeEvent (userId : String) (event : RoomEvent hash) (now : ℤ)
    (filterSendToClient isPeeking : Bool) (alwaysIncludeIds : List String) (senderIgnored : Bool)
    (retentionPolicy : RetentionPolicy) (state : Option (StateMap Event)) (senderErased : Bool) :
    Raises (Option FrozenEvent) :=
  if filterSendToClient ∧
      checkFilterSendToClient event now retentionPolicy senderIgnored = .denied then .ok none
  else if event.fields.eventId ∈ alwaysIncludeIds then .ok (some event.frozen)
  else if event.outlier then do
    .ok (if ← isOwnMembership event userId then some event.frozen else none)
  else
    match state with
    | none => .error (.exception "Missing state for non-outlier event")
    | some state => checkAgainstState userId event state isPeeking senderErased

def membershipAfter (userId : String) (event : RoomEvent hash)
    (stateAfterEvent : Option (StateMap Event)) : Raises Json := do
  if ← isOwnMembership event userId then event.fields.membership
  else
    match stateAfterEvent with
    | none => .error (.exception "Missing state for event that is not user's own membership")
    | some state =>
      match state.lookup (member,userId) with
      | some userMembershipEvent => userMembershipEvent.membership
      | none => .ok (.str Membership.leave)

def annotate (event : FrozenEvent) (userMembership : Json) : FrozenEvent :=
  { event with unsigned := setItem event.unsigned ("membership",userMembership) }

variable (store : Store)

/-- The policies are only looked up for events that are sent to a client. -/
def retentionPolicyFor (filterSendToClient : Bool) (roomId : String) : Raises RetentionPolicy :=
  if filterSendToClient then .ok (getRetentionPolicyForRoom store roomId)
  else .error (.exception "cannot access free variable 'retention_policies'")

def allowed (userId : String) (eventIdToState : Dict String (StateMap Event)) (isPeeking : Bool)
    (alwaysIncludeIds : List String) (filterSendToClient : Bool) (event : RoomEvent hash) :
    Raises (Option FrozenEvent) := do
  let stateAfterEvent := eventIdToState.lookup event.fields.eventId
  let retentionPolicy ← retentionPolicyFor store filterSendToClient event.fields.roomId
  let filtered ← checkClientAllowedToSeeEvent userId event store.now filterSendToClient isPeeking
    alwaysIncludeIds (event.fields.sender ∈ ignoredUsers store userId) retentionPolicy
    stateAfterEvent (event.fields.sender ∈ store.erasedUsers)
  match filtered with
  | none => .ok none
  | some filtered => do
    let userMembership ← membershipAfter userId event stateAfterEvent
    let cloned ← cloneEvent filtered
    .ok (some (annotate cloned userMembership))

def clientTypes (userId : String) : List (String × Option String) :=
  [(roomHistoryVisibility,some ""),(member,some userId)]

def filterEventsForClient (userId : String) (events : List (RoomEvent hash))
    (isPeeking : Bool := false) (alwaysIncludeIds : List String := [])
    (filterSendToClient : Bool := true) : Raises (List FrozenEvent) := do
  let events := events.filter (fun event => !event.softFailed)
  let eventIdToState ← getStateForEvents store (.fromTypes (clientTypes userId))
    ((events.filter (fun event => !event.outlier)).map (fun event => event.fields.eventId))
  let filteredEvents ← events.mapM
    (allowed store userId eventIdToState isPeeking alwaysIncludeIds filterSendToClient)
  .ok (filteredEvents.filterMap id)

end FilterEvents

section FilterUsers

variable {hash : Hash} (store : Store)

/-- `_get_state_map`. The event may not have been persisted yet. -/
def getStateMap (event : RoomEvent hash) (context : EventContext) (stateFilter : StateFilter) :
    StateMap Event :=
  let stateMap := getEvents store (stateFilter.filterState context.prevStateIds)
  match event.fields.stateKey with
  | some stateKey => stateMap.insert (event.fields.type,stateKey) event.fields
  | none => stateMap

def notDenied (event : RoomEvent hash) (filterSendToClient : Bool) (userId : String) : Bool :=
  !filterSendToClient || checkFilterSendToClient event store.now
    (getRetentionPolicyForRoom store event.fields.roomId)
    (userId ∈ ignoredBy store event.fields.sender) ≠ .denied

/-- The users among those who are left whose membership lets them see the event. -/
def filterByMembership (event : RoomEvent hash) (visibility : String) (state : StateMap Event)
    (isPeeking : Bool) : List String → Raises (List String)
  | [] => .ok []
  | userId::userIds => do
    let membershipResult ← checkMembership event userId visibility state isPeeking
    let rest ← filterByMembership event visibility state isPeeking userIds
    .ok (if membershipResult.allowed then userId::rest else rest)

def memberTypes (userIds : List String) : List (String × Option String) :=
  userIds.map (fun userId => (member,some userId)) ++
    [(roomHistoryVisibility,some "")]

def outOfBandMember (event : RoomEvent hash) (allowedUserIds : List String) :
    Raises (List String) :=
  if event.fields.type = member then do
    let stateKey ← event.fields.requireStateKey
    .ok (if stateKey ∈ allowedUserIds then [stateKey] else [])
  else .ok []

def filterEventForClientsWithState (userIds : List String) (event : RoomEvent hash)
    (context : EventContext) (isPeeking : Bool := false) (filterSendToClient : Bool := true) :
    Raises (List String) :=
  if event.softFailed then .ok []
  else if userIds = [] then .ok []
  else
    let allowedUserIds := userIds.dedup.filter (notDenied store event filterSendToClient)
    if event.outlier then outOfBandMember event allowedUserIds
    else do
      let visibility := getEffectiveRoomVisibilityFromState (getStateMap store event context
        (.fromTypes [(roomHistoryVisibility,some "")]))
      let lax ← checkHistoryVisibility event visibility isPeeking
      if lax = .allowed then .ok allowedUserIds
      else filterByMembership event visibility (getStateMap store event context
        (.fromTypes (memberTypes allowedUserIds))) isPeeking allowedUserIds

end FilterUsers

section Agreement

variable {hash : Hash} (store : Store)

def Accepted (py : Runtime) (event : Event) : Prop :=
  ∃ authEvents, checkStateDependentAuthRules py event authEvents = .ok ()

def stateAfter (event : Event) (stateIds : StateMap String) : StateMap String :=
  match event.stateKey with
  | some stateKey => stateIds.insert (event.type,stateKey) event.eventId
  | none => stateIds

/-- The database has the event, and as the state after it what the context has as the state
before it, with the event added. -/
structure PersistedWith (py : Runtime) (event : RoomEvent hash) (context : EventContext) :
    Prop where
  stored : store.events.lookup event.fields.eventId = some event.fields
  after : store.stateGroups.lookup event.fields.eventId =
    some (stateAfter event.fields context.prevStateIds)
  keyed : ∀ key eventId e, context.prevStateIds.lookup key = some eventId →
    store.events.lookup eventId = some e → (e.type,e.stateKey) = (key.1,some key.2)
  accepted : ∀ eventId e, store.events.lookup eventId = some e → Accepted py e

/-- What both filters decide for an event with the given state after it. -/
def maySee (userId : String) (event : RoomEvent hash) (state : StateMap Event)
    (isPeeking : Bool) : Raises Bool :=
  if event.softFailed then .ok false
  else if notDenied store event true userId = false then .ok false
  else do
    let visibility := getEffectiveRoomVisibilityFromState state
    let lax ← checkHistoryVisibility event visibility isPeeking
    if lax = .allowed then .ok true
    else do .ok (← checkMembership event userId visibility state isPeeking).allowed

theorem mem_ignoredBy_iff (uid sn : String) :
    uid ∈ ignoredBy store sn ↔ sn ∈ ignoredUsers store uid := by
  simp [ignoredBy,ignoredUsers]

theorem lookup_getEvents (stateFilter : StateFilter) (stateIds : StateMap String) {key : StateKey}
    (h : stateFilter.contains key = true) :
    (getEvents store (stateFilter.filterState stateIds)).lookup key =
      (stateIds.lookup key).bind (fun eventId => store.events.lookup eventId) := by
  rw [getEvents,lookup_compose,StateFilter.lookup_filterState,if_pos h]

variable {store}

theorem lookup_stateAfter {py : Runtime} {ev : RoomEvent hash} {cx : EventContext}
    (h : PersistedWith store py ev cx) {f g : StateFilter} {key : StateKey}
    (hf : f.contains key = true) (hg : g.contains key = true) :
    (getEvents store (f.filterState (stateAfter ev.fields cx.prevStateIds))).lookup key =
      (getStateMap store ev cx g).lookup key := by
  rw [lookup_getEvents store f _ hf,getStateMap,stateAfter]
  cases ev.fields.stateKey with
  | none => rw [lookup_getEvents store g _ hg]
  | some sk =>
    by_cases hk : key = (ev.fields.type,sk)
    · subst hk
      simp [h.stored]
    · simp only [lookup_insert_ne hk]
      rw [lookup_getEvents store g _ hg]

theorem membership_of_accepted {py : Runtime} {ev : Event} (h : Accepted py ev)
    (hm : ev.type = member) :
    (∃ mem, ev.membership = .ok mem) ∧ ∃ sk, ev.requireStateKey = .ok sk := by
  obtain ⟨auth,hc⟩ := h
  rw [checkStateDependentAuthRules,if_neg (by rw [hm]; decide),bind_eq_ok] at hc
  obtain ⟨authDict,-,hc⟩ := hc
  simp only [checkAgainst,bind_eq_ok] at hc
  obtain ⟨-,-,-,-,-,-,hc⟩ := hc
  rw [checkByType,if_neg (by rw [hm]; simp [member,aliases]),
    if_pos hm,isMembershipChangeAllowed,bind_eq_ok] at hc
  obtain ⟨mem,hme,hc⟩ := hc
  refine ⟨⟨mem,hme⟩,?_⟩
  -- without a state key neither branch returns
  cases hk : ev.stateKey with
  | some sk => exact ⟨sk,by rw [Event.requireStateKey,hk]⟩
  | none =>
    have hr : ev.requireStateKey = .error .attributeError := by
      rw [Event.requireStateKey,hk]
    obtain ⟨creator,hcr,hc⟩ := bind_eq_ok.mp hc
    rw [hr] at hc
    cases creator with
    | false => simp at hc
    | true =>
      unfold creatorJoins at hcr
      split at hcr
      · split at hcr
        · simp [bind_eq_ok,hr] at hcr
        · simp at hcr
      · simp at hcr

theorem cloneEvent_eq (ev : FrozenEvent) :
    cloneEvent ev = .ok { ev with rejectedReason := none } := by
  have hpo : popped (getDict ev) = ev.dict := by
    rw [popped,filter_getDict ev (by decide) (by decide)]
    exact filter_eq_self.mpr (fun p hp => ev.popped p hp)
  have hs : Json.getD (getDict ev) "signatures" (.object []) = signaturesOf ev := by
    rw [getDict,Json.getD,lookup_setItem_of_ne _ (by decide),lookup_setItem_self]
    rfl
  have hu : Json.getD (getDict ev) "unsigned" (.object []) = .object ev.unsigned := by
    rw [getDict,Json.getD,lookup_setItem_self]
    rfl
  have hc : ¬(ev.roomVersion.eventFormat ≠ .roomV1V2 ∧
      (ev.dict.lookup "event_id").isSome = true) := by
    rintro ⟨hf,hid⟩
    exact hf (ev.identified.mp hid)
  rw [cloneEvent,makeEventFromDict]
  simp only [hpo,hs,hu,signaturesOf,Json.items,ok_bind,mapM_copySignatures,raiseIf,if_neg hc]
  rw [dif_pos ev.identified]

variable {py : Runtime} {event : RoomEvent hash} {context : EventContext}

section

variable (h : PersistedWith store py event context)
include h

theorem isOwnMembership_returns (uid : String) :
    ∃ own, isOwnMembership event uid = .ok own ∧
      (own = true → ∃ mem, event.fields.membership = .ok mem) := by
  rw [isOwnMembership]
  split
  · next ht =>
    obtain ⟨hm,sk,hk⟩ := membership_of_accepted (h.accepted _ _ h.stored) ht
    exact ⟨_,by rw [hk,ok_bind],fun _ => hm⟩
  · exact ⟨false,rfl,by simp⟩

theorem type_of_stateAfter {key : StateKey} {e : Event}
    (he : ((stateAfter event.fields context.prevStateIds).lookup key).bind
      (fun eventId => store.events.lookup eventId) = some e) : Accepted py e ∧ e.type = key.1 := by
  obtain ⟨eventId,hid,he⟩ := Option.bind_eq_some_iff.mp he
  refine ⟨h.accepted _ _ he,?_⟩
  have hb : context.prevStateIds.lookup key = some eventId → e.type = key.1 :=
    fun hl => congrArg Prod.fst (h.keyed _ _ _ hl he)
  unfold stateAfter at hid
  split at hid
  · next sk hk =>
    rcases set_cases hid with ⟨heq,rfl⟩ | ⟨-,hid⟩
    · rw [h.stored] at he
      cases he
      rw [heq]
    · exact hb hid
  · exact hb hid

theorem membershipAfter_returns {f : StateFilter}
    (uid : String) (hf : f.contains (member,uid) = true) :
    ∃ mem, membershipAfter uid event
      (some (getEvents store (f.filterState (stateAfter event.fields context.prevStateIds)))) =
        .ok mem := by
  obtain ⟨own,ho,hm⟩ := isOwnMembership_returns h uid
  rw [membershipAfter,ho,ok_bind]
  cases own with
  | true => exact hm rfl
  | false =>
    simp only [Bool.false_eq_true,if_false]
    rw [lookup_getEvents store f _ hf]
    split
    · next e he =>
      obtain ⟨ha,ht⟩ := type_of_stateAfter h he
      exact (membership_of_accepted ha ht).1
    · exact ⟨_,rfl⟩

end

theorem contains_clientTypes (uid : String) :
    (StateFilter.fromTypes (clientTypes uid)).contains historyVisKey = true ∧
      (StateFilter.fromTypes (clientTypes uid)).contains (member,uid) = true := by
  simp [StateFilter.contains_fromTypes,clientTypes,historyVisKey]

theorem checkFilterSendToClient_eq (event : RoomEvent hash) (uid : String) :
    checkFilterSendToClient event store.now (getRetentionPolicyForRoom store event.fields.roomId)
      (event.fields.sender ∈ ignoredUsers store uid) = .denied ↔
        notDenied store event true uid = false := by
  simp [notDenied,mem_ignoredBy_iff]

theorem checkAgainstState_eq (uid : String) (event : RoomEvent hash) (st : StateMap Event)
    (peek : Bool) (hs : event.softFailed = false) (hd : notDenied store event true uid = true) :
    checkAgainstState uid event st peek false = (maySee store uid event st peek).map
        (fun seen => if seen then some event.frozen else none) := by
  rw [checkAgainstState,maySee,if_neg (by simp [hs]),if_neg (by simp [hd]),
    checkLaxVisibility,if_neg (by simp)]
  dsimp only
  cases checkHistoryVisibility event (getEffectiveRoomVisibilityFromState st) peek with
  | error e => rfl
  | ok lax =>
    simp only [ok_bind]
    by_cases hl : lax = .allowed
    · simp [hl,Except.map]
    · simp only [if_neg hl]
      cases checkMembership event uid (getEffectiveRoomVisibilityFromState st) st peek with
      | error e => rfl
      | ok res =>
        cases ha : res.allowed <;> simp [pruneForErased,ha,Except.map]

theorem filterEventsForClient_keeps (h : PersistedWith store py event context) (uid : String)
    (peek : Bool) {alwaysIncludeIds : List String} (ho : event.outlier = false)
    (he : event.fields.sender ∉ store.erasedUsers) (hi : event.fields.eventId ∉ alwaysIncludeIds) :
    (∃ kept, filterEventsForClient store uid [event] peek alwaysIncludeIds true =
      .ok [kept]) ↔ maySee store uid event (getEvents store
        ((StateFilter.fromTypes (clientTypes uid)).filterState
          (stateAfter event.fields context.prevStateIds))) peek = .ok true := by
  by_cases hs : event.softFailed = true
  · simp [filterEventsForClient,maySee,hs,getStateForEvents]
  · rw [Bool.not_eq_true] at hs
    have ha : filterEventsForClient store uid [event] peek alwaysIncludeIds true =
        (allowed store uid (insert event.fields.eventId (getEvents store
          ((StateFilter.fromTypes (clientTypes uid)).filterState
            (stateAfter event.fields context.prevStateIds))) ∅) peek alwaysIncludeIds true
              event).map Option.toList := by
      simp only [filterEventsForClient,hs,ho,filter_cons,Bool.not_false,if_true,
        filter_nil,map_cons,map_nil,getStateForEvents,getStateForEvent,h.after,
        ok_bind,mapM_cons]
      cases allowed store uid _ peek alwaysIncludeIds true event with
      | error e => rfl
      | ok res =>
        cases res <;> rfl
    rw [ha]
    simp only [allowed,retentionPolicyFor,if_true,ok_bind,lookup_insert,
      checkClientAllowedToSeeEvent,checkFilterSendToClient_eq,if_neg hi,ho,
      he,decide_false]
    by_cases hd : notDenied store event true uid = true
    · rw [if_neg (by simp [hd]),checkAgainstState_eq uid event _ peek hs hd]
      obtain ⟨mem,hm⟩ := membershipAfter_returns h uid (contains_clientTypes uid).2
      cases maySee store uid event (getEvents store
        ((StateFilter.fromTypes (clientTypes uid)).filterState
          (stateAfter event.fields context.prevStateIds))) peek with
      | error e => simp [Except.map]
      | ok seen =>
        cases seen with
        | false => simp [Except.map]
        | true => simp [Except.map,hm,cloneEvent_eq]
    · simp [hd,maySee,Except.map]

theorem filterEventForClientsWithState_includes (uid : String) (peek : Bool)
    (ho : event.outlier = false) {st : StateMap Event}
    (hst : ∀ (stateFilter : StateFilter) (key : StateKey), stateFilter.contains key = true →
      key = historyVisKey ∨ key = (member,uid) →
        (getStateMap store event context stateFilter).lookup key = st.lookup key) :
    (∃ uz, filterEventForClientsWithState store [uid] event context peek true =
      .ok uz ∧ uid ∈ uz) ↔ maySee store uid event st peek = .ok true := by
  have hv : getEffectiveRoomVisibilityFromState (getStateMap store event context
      (.fromTypes [(roomHistoryVisibility,some "")])) = getEffectiveRoomVisibilityFromState st := by
    rw [getEffectiveRoomVisibilityFromState,getEffectiveRoomVisibilityFromState,
      hst _ historyVisKey (by simp [StateFilter.contains_fromTypes,historyVisKey]) (.inl rfl)]
  have hm : ∀ vi, checkMembership event uid vi (getStateMap store event
      context (.fromTypes (memberTypes [uid]))) peek = checkMembership event uid vi st peek := by
    intro vi
    have hl := hst (.fromTypes (memberTypes [uid])) (member,uid)
      (by simp [StateFilter.contains_fromTypes,memberTypes]) (.inr rfl)
    simp only [checkMembership,membershipIn,hl]
  rw [filterEventForClientsWithState,maySee]
  by_cases hs : event.softFailed = true
  · simp [hs]
  · rw [if_neg hs,if_neg hs]
    simp only [ho,hv,dedup_cons_of_notMem (not_mem_nil),dedup_nil]
    by_cases hd : notDenied store event true uid = true
    · simp only [filter_cons,hd,if_true,filter_nil]
      cases checkHistoryVisibility event (getEffectiveRoomVisibilityFromState st) peek with
      | error e => simp
      | ok lax =>
        simp only [ok_bind]
        by_cases hl : lax = .allowed
        · simp [hl]
        · simp only [if_neg hl,filterByMembership,hm]
          cases checkMembership event uid (getEffectiveRoomVisibilityFromState st) st peek with
          | error e => simp
          | ok res =>
            cases ha : res.allowed <;> simp [ha]
    · simp only [filter_cons,hd,Bool.false_eq_true,if_false,filter_nil,filterByMembership]
      cases checkHistoryVisibility event (getEffectiveRoomVisibilityFromState st) peek <;> simp

/-- An event that is no outlier and whose sender is not erased passes both filters or neither. -/
theorem filters_agree (py : Runtime) (store : Store) (userId : String) (event : RoomEvent hash)
    (context : EventContext) (isPeeking : Bool) (alwaysIncludeIds : List String)
    (hpersisted : PersistedWith store py event context) (houtlier : event.outlier = false)
    (herased : event.fields.sender ∉ store.erasedUsers)
    (hinclude : event.fields.eventId ∉ alwaysIncludeIds) :
    (∃ kept, filterEventsForClient store userId [event] isPeeking alwaysIncludeIds true =
      .ok [kept]) ↔
        ∃ users, filterEventForClientsWithState store [userId] event context isPeeking true =
          .ok users ∧ userId ∈ users := by
  rw [filterEventsForClient_keeps hpersisted userId isPeeking houtlier herased hinclude,
    filterEventForClientsWithState_includes userId isPeeking houtlier]
  intro stateFilter key hcontains hkey
  have hclient : (StateFilter.fromTypes (clientTypes userId)).contains key = true := by
    rcases hkey with rfl | rfl
    · exact (contains_clientTypes userId).1
    · exact (contains_clientTypes userId).2
  exact (lookup_stateAfter hpersisted hclient hcontains).symm

def roomFields (eventId type : String) (stateKey : Option String) (content : JsonDict)
    (prevEventIds : List String) : Event where
  eventId := eventId
  roomId := "!r:x"
  sender := "@a:x"
  type := type
  stateKey := stateKey
  content := content
  prevEventIds := prevEventIds
  authEventIds := []
  originServerTs := 0
  topLevelRedacts := .null
  roomVersion := .v1
  rejectedReason := none

def greeting : RoomEvent (fun _ _ => "") where
  frozen := {
    dict := [("event_id",.str "$m:x"),("type",.str "m.room.message"),("room_id",.str "!r:x"),
      ("sender",.str "@a:x"),("content",.object []),("prev_events",.array []),
      ("auth_events",.array []),("origin_server_ts",.int 0)]
    signatures := []
    unsigned := []
    roomVersion := .v1
    rejectedReason := none
    popped := by simp [stays]
    identified := by simp [RoomVersion.eventFormat] }
  fields := roomFields "$m:x" "m.room.message" none [] []
  viewed := rfl
  outlier := false
  softFailed := false

def creation : Event := roomFields "$c:x" create (some "") [("creator",.str "@a:x")] []

def creatorJoin : Event :=
  roomFields "$j:x" member (some "@a:x") [("membership",.str "join")] ["$c:x"]

def stateBeforeGreeting : StateMap String :=
  (AList.insert (create,"") "$c:x" ∅).insert (member,"@a:x") "$j:x"

def greetedStore : Store where
  events := ((AList.insert "$c:x" creation ∅).insert "$j:x" creatorJoin).insert "$m:x"
    greeting.fields
  stateGroups := AList.insert "$m:x" stateBeforeGreeting ∅
  ignoredUsers := [("@b:x","@a:x")]
  erasedUsers := []
  retentionEnabled := true
  defaultRetention := ⟨none,some 100⟩
  roomRetention := ∅
  now := 100

theorem greeting_persisted :
    PersistedWith greetedStore default greeting ⟨stateBeforeGreeting⟩ where
  stored := rfl
  after := rfl
  keyed := by
    intro key eventId e hid he
    simp only [stateBeforeGreeting,lookup_set] at hid
    split at hid
    · next hk =>
      cases hid
      cases (show some creatorJoin = some e from he)
      rw [hk]
      rfl
    · split at hid
      · next hk =>
        cases hid
        cases (show some creation = some e from he)
        rw [hk]
        rfl
      · simp at hid
  accepted := by
    intro eventId e he
    simp only [greetedStore,lookup_set] at he
    split at he
    · cases he
      exact ⟨[creation,creatorJoin],rfl⟩
    · split at he
      · cases he
        exact ⟨[creation],rfl⟩
      · split at he
        · cases he
          exact ⟨[],rfl⟩
        · simp at he

theorem filters_agree_greeting :
    (∃ users, filterEventForClientsWithState greetedStore ["@a:x"] greeting
      ⟨stateBeforeGreeting⟩ false true = .ok users ∧ "@a:x" ∈ users) ∧
        ∃ kept, filterEventsForClient greetedStore "@a:x" [greeting] false [] true =
          .ok [kept] := by
  have hincludes : ∃ users, filterEventForClientsWithState greetedStore ["@a:x"] greeting
      ⟨stateBeforeGreeting⟩ false true = .ok users ∧ "@a:x" ∈ users := ⟨["@a:x"],rfl,by decide⟩
  exact ⟨hincludes,
    (filters_agree default greetedStore "@a:x" greeting ⟨stateBeforeGreeting⟩ false []
    greeting_persisted rfl (by decide) (by decide)).mpr hincludes⟩

end Agreement

end Synapse.Visibility
