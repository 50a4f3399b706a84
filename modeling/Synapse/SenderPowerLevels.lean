import Synapse.StateResolutionResult

/-!
# The level of an event's sender

State resolution orders events by the power levels of their senders, which it
looks up in the auth events by itself. The look-up is compared with that of the
auth rules.
-/

set_option autoImplicit false

namespace Synapse.StateResolution
open Python Loops EventAuth List Dict EventTypes

variable {ctx : Context}

/-- The events named are all available, of the room, and have distinct keys. -/
structure Gathers (ctx : Context) (aids : List String) (authEvents : List Event) : Prop where
  available : aids.map ctx.event = authEvents.map some
  room : ∀ aev ∈ authEvents, aev.roomId = ctx.roomId
  distinct : (authEvents.map (fun aev => (aev.type,aev.stateKey))).Nodup

theorem authDictFrom_other {es : List Event} {d m : AuthMap} {key : StateKey}
    (h : authDictFrom d es = .ok m)
    (hn : (key.1,some key.2) ∉ es.map (fun aev => (aev.type,aev.stateKey))) :
    m.lookup key = d.lookup key := by
  induction es generalizing d with
  | nil =>
    cases h
    rfl
  | cons e es ih =>
    obtain ⟨sk,hsk,h⟩ := bind_eq_ok.mp h
    rw [map_cons,mem_cons,not_or] at hn
    rw [ih h hn.2,lookup_set,if_neg]
    rintro rfl
    exact hn.1 (by rw [requireStateKey_ok.mp hsk])

theorem findAuthEvent_lookup {aids : List String} {es : List Event} {d m : AuthMap} (type : String)
    (hg : Gathers ctx aids es) (h : authDictFrom d es = .ok m) (hd : d.lookup (type,"") = none) :
    ∃ fd, findAuthEvent ctx ctx.roomId type aids = .ok fd ∧
      fd.map Prod.snd = m.lookup (type,"") := by
  induction es generalizing aids d with
  | nil =>
    cases h
    rw [map_eq_nil_iff.mp hg.available]
    exact ⟨none,rfl,hd.symm⟩
  | cons e es ih =>
    obtain ⟨aid,aids,rfl,hev,hav⟩ := map_eq_cons_iff.mp hg.available
    obtain ⟨sk,hsk,h⟩ := bind_eq_ok.mp h
    obtain ⟨hnot,hnd⟩ := nodup_cons.mp hg.distinct
    have hfd : getEventOrNone ctx ctx.roomId aid = .ok (some e) := by
      simp [getEventOrNone,hev,hg.room e (by simp)]
    rw [findAuthEvent,hfd]
    simp only [ok_bind,hsk,lift]
    by_cases hk : e.type = type ∧ sk = ""
    · rw [authDictFrom_other h]
      · simp [hk]
      · simpa only [requireStateKey_ok.mp hsk,hk.1,hk.2] using hnot
    · rw [if_neg hk]
      refine ih ⟨hav,fun aev ha => hg.room aev (by simp [ha]),hnd⟩ h ?_
      rw [lookup_set,if_neg _,hd]
      rintro heq
      obtain ⟨rfl,rfl⟩ := Prod.mk.inj heq
      exact hk ⟨rfl,rfl⟩

theorem level_inj (a b : Bool) : (if a then (100:ℤ) else 0) = (if b then 100 else 0) ↔ a = b := by
  cases a <;> cases b <;> simp

/-- State resolution and the auth rules give a sender the same level, unless
it is decided by a create event that says of its sender that they are the creator
while its content does not, or the other way round. -/
theorem getPowerLevelForSender_iff {eventId : String} (event : Event) (authEvents : List Event)
    {authMap : AuthMap} {level : ℤ} (he : ctx.event eventId = some event)
    (hr : event.roomId = ctx.roomId) (hg : Gathers ctx event.authEventIds authEvents)
    (hm : authDictFrom ∅ authEvents = .ok authMap)
    (hl : getUserPowerLevel ctx.py event.sender authMap = .ok level) :
    getPowerLevelForSender ctx eventId = .ok level ↔
      (getPowerLevelEvent authMap = none → ∀ create, authMap.lookup (EventTypes.create,"") =
        some create → create.roomVersion.implicitRoomCreator = true →
          (Json.getD create.content "creator" .null).isStr event.sender =
            (Json.str create.sender).isStr event.sender) := by
  obtain ⟨pl,hpl,hpm⟩ := findAuthEvent_lookup powerLevels hg hm rfl
  rw [getPowerLevelForSender,getEvent_of_room he hr,ok_bind,hpl,ok_bind]
  unfold getUserPowerLevel at hl
  rw [getPowerLevelEvent,← hpm] at hl ⊢
  cases pl with
  | some pl =>
    have : levelIn ctx pl.2 event.sender = .ok level := hl
    simp [this,lift]
  | none =>
    obtain ⟨cr,hcr,hcm⟩ := findAuthEvent_lookup create hg hm rfl
    rw [← hcm] at hl ⊢
    simp only [hcr,ok_bind]
    cases cr with
    | none => simp [← Except.ok.inj hl]
    | some cr =>
      obtain ⟨who,hw,hl⟩ := bind_eq_ok.mp hl
      rw [← Except.ok.inj hl,Except.ok.injEq,level_inj]
      rw [creatorOf] at hw
      split at hw
      · next hi =>
        cases hw
        simp [hi]
      · next hi =>
        -- the auth rules read the creator from the content too
        unfold Json.item at hw
        split at hw
        · next v hv =>
          cases hw
          have hs := congrArg (fun who => (Option.getD who .null).isStr event.sender) hv
          exact iff_of_true hs (by simp [hi])
        · cases hw

theorem getPowerLevelForSender_iff_creator : getPowerLevelForSender topicRoom "$join" = .ok 100 :=
  (getPowerLevelForSender_iff
    (topicRoomEvent "$join" member "@a:x" [("membership",.str Membership.join)] ["$create"] 2)
    [topicRoomEvent "$create" create "" [("creator",.str "@a:x")] [] 1] rfl rfl
    ⟨rfl,by simp [topicRoomEvent,topicRoom],by simp⟩ rfl rfl).mpr
    (by
      intro _ cr hcr hi
      obtain rfl := Option.some.inj (hcr.symm.trans rfl)
      simp [topicRoomEvent,RoomVersion.implicitRoomCreator] at hi)

/-- The event as version 11 has it, in which the creator is the sender. -/
def implicitCreator (event : Event) : Event :=
  { event with
    roomVersion := .v11
    content := event.content.filter (fun field => field.1 ≠ "creator") }

def implicitRoom : Context :=
  { topicRoom with roomVersion := .v11, store := mapValues topicRoom.store implicitCreator }

def implicitCreation : Event :=
  implicitCreator (topicRoomEvent "$create" EventTypes.create "" [("creator",.str "@a:x")] [] 1)

/-- Where the create event does not name the creator, the auth rules give them
level 100 before the first power levels event and state resolution level 0. -/
theorem implicit_creator_without_level :
    getPowerLevelForSender implicitRoom "$join" = .ok 0 ∧
      Gathers implicitRoom (implicitRoom.authEventIds "$join") [implicitCreation] ∧
      ∃ authMap, authDictFrom ∅ [implicitCreation] = .ok authMap ∧
        getUserPowerLevel implicitRoom.py "@a:x" authMap = .ok 100 :=
  ⟨rfl,⟨rfl,by simp [implicitCreation,implicitCreator,topicRoomEvent,implicitRoom,topicRoom],
    by simp⟩,_,rfl,rfl⟩

end Synapse.StateResolution
