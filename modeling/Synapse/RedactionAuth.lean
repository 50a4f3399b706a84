import Synapse.AuthTypes
import Synapse.Redaction

/-!
# Redacted auth events

The auth rules read of the content of an auth event only fields that a redaction
keeps, in the room versions with the updated rules. So whether an event is
allowed does not depend on which of its auth events have been redacted. An event
that changes the power levels is compared with all of the current ones, and is
left out.
-/

set_option autoImplicit false

namespace Synapse.Redaction
open Python EventAuth List Dict EventTypes

def replacedTypes : List String :=
  [create,powerLevels,joinRules,member]

/-- The second event is the first or has been redacted from it. -/
structure Alike (e e' : Event) : Prop where
  eventId : e'.eventId = e.eventId
  sender : e'.sender = e.sender
  type : e'.type = e.type
  stateKey : e'.stateKey = e.stateKey
  roomVersion : e'.roomVersion = e.roomVersion
  created : e.type = create → e'.content = e.content
  fields : ∀ field ∈ authFields e.type, e'.content.lookup field = e.content.lookup field
  others : e.type ∉ replacedTypes → e' = e

theorem Alike.refl (e : Event) : Alike e e :=
  ⟨rfl,rfl,rfl,rfl,rfl,fun _ => rfl,fun _ _ => rfl,fun _ => rfl⟩

/-- Two auth maps with alike entries, each under its own type. -/
structure AlikeMaps (m m' : AuthMap) : Prop where
  entries : ∀ key, Option.Rel Alike (m.lookup key) (m'.lookup key)
  keyed : ∀ key e, m.lookup key = some e → e.type = key.1

theorem AlikeMaps.lookup {m m' : AuthMap} (h : AlikeMaps m m') (key : StateKey) :
    (m.lookup key = none ∧ m'.lookup key = none) ∨
      ∃ e e', m.lookup key = some e ∧ m'.lookup key = some e' ∧ e.type = key.1 ∧ Alike e e' := by
  have hr := h.entries key
  have hk := h.keyed key
  revert hr hk
  generalize m.lookup key = x
  generalize m'.lookup key = y
  intro hr hk
  cases hr with
  | some ha => exact .inr ⟨_,_,rfl,rfl,hk _ rfl,ha⟩
  | none => exact .inl ⟨rfl,rfl⟩

section Levels

variable {py : Runtime} {m m' : AuthMap}

theorem creatorOf_alike {e e' : Event} (h : Alike e e') (ht : e.type = create) (ver : RoomVersion) :
    creatorOf ver e' = creatorOf ver e := by
  rw [creatorOf,creatorOf,h.sender,h.created ht]

theorem getD_alike {e e' : Event} {type : String} (h : Alike e e') (ht : e.type = type)
    (fl : String) (hf : fl ∈ authFields type) (default : Json) :
    Json.getD e'.content fl default = Json.getD e.content fl default := by
  rw [Json.getD,Json.getD,h.fields fl (ht ▸ hf)]

section

variable (h : AlikeMaps m m')
include h

theorem getUserPowerLevel_alike (uid : String) :
    getUserPowerLevel py uid m' = getUserPowerLevel py uid m := by
  unfold getUserPowerLevel getPowerLevelEvent
  rcases h.lookup (powerLevels,"") with ⟨hm,hm'⟩ | ⟨e,e',hm,hm',ht,ha⟩
  · rw [hm,hm']
    rcases h.lookup (create,"") with ⟨hc,hc'⟩ | ⟨c,c',hc,hc',ht,ha⟩
    · rw [hc,hc']
    · rw [hc,hc']
      dsimp only
      rw [ha.roomVersion,creatorOf_alike ha ht]
  · rw [hm,hm']
    dsimp only
    rw [getD_alike ha ht "users" (by decide),getD_alike ha ht "users_default" (by decide)]

theorem getNamedLevel_alike (name : String) (hn : name ∈ authFields powerLevels) (default : ℤ) :
    getNamedLevel py m' name default = getNamedLevel py m name default := by
  unfold getNamedLevel getPowerLevelEvent
  rcases h.lookup (powerLevels,"") with ⟨hm,hm'⟩ | ⟨e,e',hm,hm',ht,ha⟩
  · rw [hm,hm']
  · rw [hm,hm']
    dsimp only
    rw [getD_alike ha ht name hn]

theorem getSendLevel_alike (etype : String) (sk : Option String) :
    getSendLevel py etype sk (getPowerLevelEvent m') =
      getSendLevel py etype sk (getPowerLevelEvent m) := by
  unfold getSendLevel getPowerLevelEvent
  rcases h.lookup (powerLevels,"") with ⟨hm,hm'⟩ | ⟨e,e',hm,hm',ht,ha⟩
  · rw [hm,hm']
  · rw [hm,hm']
    dsimp only
    rw [getD_alike ha ht "events" (by decide),getD_alike ha ht "state_default" (by decide),
      getD_alike ha ht "events_default" (by decide)]

theorem canFederate_alike : canFederate m' = canFederate m := by
  unfold canFederate
  rcases h.lookup (create,"") with ⟨hm,hm'⟩ | ⟨e,e',hm,hm',ht,ha⟩
  · rw [hm,hm']
  · rw [hm,hm']
    dsimp only
    rw [ha.created ht]

end

theorem membership_alike {e e' : Event} (h : Alike e e') (ht : e.type = member) :
    e'.membership = e.membership := by
  rw [Event.membership,Event.membership,Json.item,Json.item,h.fields "membership" (by
    rw [ht]
    decide)]

end Levels

section Rules

variable {py : Runtime} {m m' : AuthMap} {ev : Event}

section

variable (h : AlikeMaps m m')
include h

theorem canSendEvent_alike : canSendEvent py ev m' = canSendEvent py ev m := by
  unfold canSendEvent canSetState
  simp only [getSendLevel_alike h,getUserPowerLevel_alike h]

variable (ver : RoomVersion)

theorem checkRedaction_alike : checkRedaction py ver ev m' = checkRedaction py ver ev m := by
  unfold checkRedaction
  rw [getUserPowerLevel_alike h,getNamedLevel_alike h _ (by decide)]

theorem checkThirdPartyInvite_alike :
    checkThirdPartyInvite py ev m' = checkThirdPartyInvite py ev m := by
  unfold checkThirdPartyInvite
  rw [getUserPowerLevel_alike h,getNamedLevel_alike h _ (by decide)]

theorem membershipIn_alike (u : String) : membershipIn m' u = membershipIn m u := by
  unfold membershipIn
  rcases h.lookup (member,u) with ⟨hm,hm'⟩ | ⟨e,e',hm,hm',ht,ha⟩
  · rw [hm,hm']
  · rw [hm,hm']
    dsimp only
    rw [membership_alike ha ht]

theorem membershipInfo_alike (tg : String) :
    membershipInfo py ver ev tg m' = membershipInfo py ver ev tg m := by
  unfold membershipInfo
  simp only [membershipIn_alike h,getUserPowerLevel_alike h,
    getNamedLevel_alike h "invite" (by decide),getNamedLevel_alike h "ban" (by decide)]

theorem joinRuleOf_alike : joinRuleOf m' = joinRuleOf m := by
  unfold joinRuleOf
  rcases h.lookup (joinRules,"") with ⟨hm,hm'⟩ | ⟨e,e',hm,hm',ht,ha⟩
  · rw [hm,hm']
  · rw [hm,hm']
    dsimp only
    rw [getD_alike ha ht _ (by decide)]

theorem creatorJoins_alike (mem : Json) :
    creatorJoins ver ev mem m' = creatorJoins ver ev mem m := by
  unfold creatorJoins
  rcases h.lookup (create,"") with ⟨hm,hm'⟩ | ⟨e,e',hm,hm',ht,ha⟩
  · rw [hm,hm']
  · rw [hm,hm']
    cases ev.prevEventIds with
    | nil => rfl
    | cons prev rs =>
      cases rs with
      | nil =>
        dsimp only
        rw [ha.eventId,creatorOf_alike ha ht]
      | cons _ _ => rfl

theorem lookupValue_alike (tk : Json) :
    lookupValue m' thirdPartyInvite tk = lookupValue m thirdPartyInvite tk := by
  cases tk with
  | str key =>
    rw [lookupValue,lookupValue]
    rcases h.lookup (thirdPartyInvite,key) with ⟨hm,hm'⟩ | ⟨e,e',hm,hm',ht,ha⟩
    · rw [hm,hm']
    · have ho : e.type ∉ replacedTypes := by
        rw [ht]
        show thirdPartyInvite ∉ replacedTypes
        decide
      rw [hm,hm',ha.others ho]
  | _ => rfl

theorem verifyThirdPartyInvite_alike :
    verifyThirdPartyInvite py ev m' = verifyThirdPartyInvite py ev m := by
  unfold verifyThirdPartyInvite verifySigned
  simp only [lookupValue_alike h]

theorem checkJoinedRoom_alike (u uid rid : String) :
    checkJoinedRoom py (m'.lookup (member,u)) uid rid = .ok () ↔
      checkJoinedRoom py (m.lookup (member,u)) uid rid = .ok () := by
  rcases h.lookup (member,u) with ⟨hm,hm'⟩ | ⟨e,e',hm,hm',ht,ha⟩
  · rw [hm,hm']
  · rw [hm,hm']
    simp only [checkJoinedRoom,bind_eq_ok,raiseIf_eq_ok,membership_alike ha ht]

theorem checkAuthorisingUser_alike (inf : MembershipInfo) :
    checkAuthorisingUser py ev m' inf = .ok () ↔ checkAuthorisingUser py ev m inf = .ok () := by
  unfold checkAuthorisingUser
  split
  · rfl
  · simp only [bind_eq_ok,checkJoinedRoom_alike h,getUserPowerLevel_alike h]
  · rfl

theorem checkJoin_alike (tg : String) (jr : Json) (inf : MembershipInfo) :
    checkJoin py ver ev tg m' jr inf = .ok () ↔ checkJoin py ver ev tg m jr inf = .ok () := by
  unfold checkJoin
  split
  · rfl
  · split
    · rfl
    · split
      · rfl
      · split
        · split
          · exact checkAuthorisingUser_alike h inf
          · rfl
        · rfl

theorem checkNewMembership_alike (mem : Json) (tg : String) (jr : Json) (inf : MembershipInfo) :
    checkNewMembership py ver ev mem tg m' jr inf = .ok () ↔
      checkNewMembership py ver ev mem tg m jr inf = .ok () := by
  unfold checkNewMembership
  split
  · rfl
  · split
    · exact checkJoin_alike h ver tg jr inf
    · rw [checkLeave,checkLeave,getNamedLevel_alike h _ (by decide)]

theorem checkMembership_alike (mem : Json) (tg : String) (jr : Json) (inf : MembershipInfo) :
    checkMembership py ver ev mem tg m' jr inf = .ok () ↔
      checkMembership py ver ev mem tg m jr inf = .ok () := by
  unfold checkMembership
  split
  · rw [verifyThirdPartyInvite_alike h]
  · split
    · rfl
    · simp only [bind_eq_ok,checkNewMembership_alike h]

theorem isMembershipChangeAllowed_alike :
    isMembershipChangeAllowed py ver ev m' = .ok () ↔
      isMembershipChangeAllowed py ver ev m = .ok () := by
  unfold isMembershipChangeAllowed
  simp only [creatorJoins_alike h,canFederate_alike h,membershipInfo_alike h,joinRuleOf_alike h]
  apply bind_eq_ok_congr
  intro mem
  apply bind_eq_ok_congr
  intro creator
  split
  · rfl
  · simp only [bind_eq_ok,checkMembership_alike h]

theorem checkByType_alike (ht : ev.type ≠ powerLevels) :
    checkByType py ev m' = .ok () ↔ checkByType py ev m = .ok () := by
  unfold checkByType
  split
  · rfl
  · split
    · exact isMembershipChangeAllowed_alike h ev.roomVersion
    · simp only [checkThirdPartyInvite_alike h,canSendEvent_alike h,
        checkRedaction_alike h,bind_eq_ok,checkEventSenderInRoom,checkJoinedRoom_alike h]

theorem checkAgainst_alike (ht : ev.type ≠ powerLevels) :
    checkAgainst py ev m' = .ok () ↔ checkAgainst py ev m = .ok () := by
  unfold checkAgainst
  simp only [canFederate_alike h,bind_eq_ok,checkByType_alike h ht]

end

end Rules

section Main

variable {py : Runtime}

theorem alikeMaps_insert {m m' : AuthMap} (h : AlikeMaps m m') {e e' : Event} (ha : Alike e e')
    (key : StateKey) (ht : e.type = key.1) : AlikeMaps (m.insert key e) (m'.insert key e') := by
  constructor
  · intro k
    rw [lookup_set,lookup_set]
    split
    · exact .some ha
    · exact h.entries k
  · intro k x hx
    rcases set_cases hx with ⟨hk,rfl⟩ | ⟨-,hx⟩
    · rw [ht,hk]
    · exact h.keyed k x hx

theorem authDictFrom_alike {es es' : List Event} (hes : List.Forall₂ Alike es es') {m m' : AuthMap}
    (h : AlikeMaps m m') :
    (∃ e, authDictFrom m es = .error e ∧ authDictFrom m' es' = .error e) ∨
      ∃ d d', authDictFrom m es = .ok d ∧ authDictFrom m' es' = .ok d' ∧ AlikeMaps d d' := by
  induction hes generalizing m m' with
  | nil => exact .inr ⟨m,m',rfl,rfl,h⟩
  | @cons e e' es es' ha _ ih =>
    rw [authDictFrom,authDictFrom,Event.requireStateKey,Event.requireStateKey,ha.stateKey]
    cases e.stateKey with
    | none => exact .inl ⟨_,rfl,rfl⟩
    | some sk =>
      rw [ha.type]
      exact ih (alikeMaps_insert h ha (e.type,sk) rfl)

theorem check_alike {es es' : List Event} (hes : List.Forall₂ Alike es es') {evt : Event}
    (ht : evt.type ≠ powerLevels) :
    checkStateDependentAuthRules py evt es' = .ok () ↔
      checkStateDependentAuthRules py evt es = .ok () := by
  unfold checkStateDependentAuthRules
  split
  · rfl
  · have he : AlikeMaps (∅ : AuthMap) ∅ := ⟨fun _ => .none,fun _ _ hx => by cases hx⟩
    rcases authDictFrom_alike hes he with ⟨e,hd,hd'⟩ | ⟨d,d',hd,hd',ha⟩
    · rw [hd,hd']
    · rw [hd,hd']
      exact checkAgainst_alike ha ht

def redactIf (replaced : FrozenEvent → Bool) (event : FrozenEvent) : Raises FrozenEvent :=
  if replaced event then pruneEvent event else .ok event

theorem redactIf_alike (hash : Hash) (replaced : FrozenEvent → Bool) {evs : List FrozenEvent}
    {es : List Event} (hv : evs.mapM (view hash) = .ok es)
    (hre : ∀ evt ∈ evs, replaced evt = true → evt.roomVersion.updatedRedactionRules = true ∧
        ∃ type ∈ replacedTypes, evt.dict.lookup "type" = some (.str type)) :
    ∃ pr es', evs.mapM (redactIf replaced) = .ok pr ∧
      pr.mapM (view hash) = .ok es' ∧ List.Forall₂ Alike es es' := by
  induction evs generalizing es with
  | nil =>
    cases hv
    exact ⟨[],[],rfl,rfl,.nil⟩
  | cons evt evs ih =>
    rw [mapM_cons] at hv
    obtain ⟨e,he,hv⟩ := bind_eq_ok.mp hv
    obtain ⟨es,hes,hv⟩ := bind_eq_ok.mp hv
    cases hv
    obtain ⟨pr,es',hp,hes',ha⟩ := ih hes (fun f hf => hre f (mem_cons_of_mem _ hf))
    obtain ⟨f,e',hf,he',hee'⟩ : ∃ f e', redactIf replaced evt = .ok f ∧ view hash f = .ok e' ∧
        Alike e e' := by
      by_cases hr : replaced evt = true
      · obtain ⟨hve,type,ht,hl⟩ := hre evt mem_cons_self hr
        obtain ⟨hl',f,e',hf,he',hid,hs,ht',hk,hve',hc,hfi⟩ := view_pruneEvent hash hve he
        rw [hl] at hl'
        injection hl' with hl'
        injection hl' with hl'
        exact ⟨f,e',(if_pos hr).trans hf,he',hid,hs,ht',hk,hve',hc,hfi,
          fun ho => absurd (hl' ▸ ht) ho⟩
      · exact ⟨evt,e,if_neg hr,he,Alike.refl e⟩
    refine ⟨f::pr,e'::es',?_,?_,.cons hee' ha⟩
    · rw [mapM_cons,hf,hp]
      rfl
    · rw [mapM_cons,he',hes']
      rfl

/-- Redacting auth events does not change whether an event is allowed. -/
theorem redacted_auth_events (py : Runtime) (hash : Hash) (event : Event)
    (htype : event.type ≠ powerLevels) (authEvents : List FrozenEvent) (es : List Event)
    (hviews : authEvents.mapM (view hash) = .ok es) (replaced : FrozenEvent → Bool)
    (hreplaced : ∀ authEvent ∈ authEvents, replaced authEvent = true →
      authEvent.roomVersion.updatedRedactionRules = true ∧
        ∃ type ∈ replacedTypes, authEvent.dict.lookup "type" = some (.str type)) :
    ∃ pruned es', authEvents.mapM (redactIf replaced) = .ok pruned ∧
      pruned.mapM (view hash) = .ok es' ∧ (checkStateDependentAuthRules py event es' = .ok () ↔
        checkStateDependentAuthRules py event es = .ok ()) := by
  obtain ⟨pruned,es',hpruned,hes',halike⟩ := redactIf_alike hash replaced hviews hreplaced
  exact ⟨pruned,es',hpruned,hes',check_alike halike htype⟩

def stateEvent (type stateKey : String) (content : JsonDict) : FrozenEvent where
  dict := [("type",.str type),("state_key",.str stateKey),("room_id",.str "!r:x"),
    ("sender",.str "@a:x"),("content",.object content),("prev_events",.array []),
    ("auth_events",.array []),("origin_server_ts",.int 0)]
  signatures := []
  unsigned := []
  roomVersion := .v11
  rejectedReason := none
  popped := by simp [stays]
  identified := by simp [lookup_cons,RoomVersion.eventFormat]

def message : Event where
  eventId := "$m"
  roomId := "!r:x"
  sender := "@a:x"
  type := "m.room.message"
  stateKey := none
  content := []
  prevEventIds := []
  authEventIds := []
  originServerTs := 0
  topLevelRedacts := .null
  roomVersion := .v11
  rejectedReason := none

def messageAuthEvents : List FrozenEvent :=
  [stateEvent create "" [("room_version",.str "11")],
    stateEvent powerLevels "" [("events_default",.int 50),
      ("users",.object [("@a:x",.int 50)]),("notifications",.object [("room",.int 100)])],
    stateEvent member "@a:x" [("displayname",.str "A"),("membership",.str "join")]]

theorem redacted_auth_events_message :
    ∃ es pruned es', messageAuthEvents.mapM (view (fun _ _ => "hash")) = .ok es ∧
      checkStateDependentAuthRules default message es = .ok () ∧
      messageAuthEvents.mapM (redactIf (fun _ => true)) = .ok pruned ∧
      pruned.mapM (view (fun _ _ => "hash")) = .ok es' ∧
      checkStateDependentAuthRules default message es' = .ok () := by
  obtain ⟨es,hviews,hcheck⟩ : ∃ es, messageAuthEvents.mapM (view (fun _ _ => "hash")) = .ok es ∧
      checkStateDependentAuthRules default message es = .ok () := ⟨_,rfl,rfl⟩
  obtain ⟨pruned,es',hpruned,hes',hiff⟩ := redacted_auth_events default (fun _ _ => "hash") message
    (by decide) messageAuthEvents es hviews (fun _ => true) (by
      intro authEvent hmem _
      simp only [messageAuthEvents,mem_cons,not_mem_nil,or_false] at hmem
      rcases hmem with rfl | rfl | rfl
      · exact ⟨rfl,_,by decide,rfl⟩
      · exact ⟨rfl,_,by decide,rfl⟩
      · exact ⟨rfl,_,by decide,rfl⟩)
  exact ⟨es,pruned,es',hviews,hcheck,hpruned,hes',hiff.mpr hcheck⟩

end Main

end Synapse.Redaction
