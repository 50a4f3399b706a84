import Synapse.AuthTypes

/-!
# When the gathered keys are enough

The outcome of the check is decided by the gathered keys for every event
except a power levels event with a non-empty state key that passes the checks
on itself: whether it is accepted then depends on an entry that was not
gathered.
-/

set_option autoImplicit false

namespace Synapse.EventAuth
open Python List Dict EventTypes

variable {py : Runtime} {event : Event}

/-- Any two maps that agree on the gathered keys lead to the same decision. -/
def Complete (py : Runtime) (event : Event) : Prop :=
  ∀ types, authTypesForEvent event.roomVersion event = .ok types → ∀ m₁ m₂,
    WellKeyed m₁ → WellKeyed m₂ → AgreeOn types m₁ m₂ →
      (Accepts py event m₁ ↔ Accepts py event m₂)

/-- The sender may write under the state key whatever the levels are, or with
a high enough level. -/
def MaySet (py : Runtime) (event : Event) (key : String) : Prop :=
  (key.toList.head? = some '@' ∧ key ≠ event.sender) →
    event.roomVersion.msc3757Enabled = true ∧ (stateKeyOwner py key).isSome = true

/-- A power levels event under another key than the room's own, with nothing
wrong about the event itself. -/
structure Exposed (py : Runtime) (event : Event) (key : String) : Prop where
  type : event.type = EventTypes.powerLevels
  stateKey : event.stateKey = some key
  nonempty : key ≠ ""
  room : ∃ domain, getDomainFromId py event.roomId = .ok domain
  sender : ∃ domain, getDomainFromId py event.sender = .ok domain
  settable : MaySet py event key
  content : checkPowerLevelContent py event.roomVersion event = .ok ()

theorem checkByType_powerLevels (ht : event.type = powerLevels) (d : AuthMap) :
    checkByType py event d = (checkEventSenderInRoom py event d >>= fun _ =>
      canSendEvent py event d >>= fun _ => checkPowerLevels py event.roomVersion event d) := by
  have h1 : ¬ (event.type = aliases ∧ event.roomVersion.specialCaseAliasesAuth = true) := by
    rw [ht]
    exact fun h => absurd h.1 (by decide)
  have h2 : event.type ≠ member := by rw [ht]; decide
  have h3 : event.type ≠ thirdPartyInvite := by rw [ht]; decide
  simp only [checkByType,if_neg h1,if_neg h2,if_neg h3,if_pos ht]

variable {key : String} {d : AuthMap}

theorem canSetState_maySet {ul : ℤ} (h : canSetState py event ul d key = .ok ()) :
    MaySet py event key := by
  intro ho
  simp only [canSetState,if_pos ho] at h
  split at h
  · next hm =>
    refine ⟨hm,?_⟩
    split at h
    · simp at h
    · next owner how => simp [how]
  · simp at h

theorem accepted_exposed (h : checkAgainst py event d = .ok ()) (ht : event.type = powerLevels)
    (hk : event.stateKey = some key) (hne : key ≠ "") : Exposed py event key := by
  obtain ⟨r,hr,h⟩ := bind_eq_ok.mp h
  obtain ⟨sn,hse,h⟩ := bind_eq_ok.mp h
  obtain ⟨-,-,h⟩ := bind_eq_ok.mp h
  rw [checkByType_powerLevels ht] at h
  obtain ⟨-,-,h⟩ := bind_eq_ok.mp h
  obtain ⟨⟨⟩,hs,h⟩ := bind_eq_ok.mp h
  obtain ⟨⟨⟩,hc,-⟩ := bind_eq_ok.mp h
  refine ⟨ht,hk,hne,⟨r,hr⟩,⟨sn,hse⟩,?_,hc⟩
  obtain ⟨sendLevel,-,hs⟩ := bind_eq_ok.mp hs
  obtain ⟨ul,-,hs⟩ := bind_eq_ok.mp hs
  obtain ⟨-,-,hs⟩ := bind_eq_ok.mp hs
  rw [hk] at hs
  exact canSetState_maySet hs

theorem complete_of_not_exposed (h : ¬ ∃ key, Exposed py event key) : Complete py event := by
  intro tys hty m₁ m₂ hm₁ hm₂ ha
  by_cases hc : event.type = create
  · simp [Accepts,checkStateDependentAuthRules,hc]
  · obtain ⟨d₁,hd₁,h₁⟩ := accepts_iff py hm₁ hc
    obtain ⟨d₂,hd₂,h₂⟩ := accepts_iff py hm₂ hc
    rw [h₁,h₂]
    by_cases hp : event.type = powerLevels ∧ ∃ key, event.stateKey = some key ∧ key ≠ ""
    · obtain ⟨ht,key,hk,hne⟩ := hp
      constructor <;> intro hok <;> exact absurd ⟨key,accepted_exposed hok ht hk hne⟩ h
    · have had : AgreeOn tys d₁ d₂ := by
        intro type key hmem
        rw [hd₁,hd₂]
        exact ha type key hmem
      have hag := had.agree hty hc
      rw [checkAgainst_congr hag (fun ht _ _ hm hk => had.agreeMember hty ht hm hk) ?_]
      intro ht key hk
      have hkey : key = "" := by
        by_contra hne
        exact hp ⟨ht,key,hk,hne⟩
      rw [ht,hkey]
      exact hag.powerLevels

def stateEvent (event : Event) (type key : String) (content : JsonDict) : Event :=
  { eventId := "$auth:x", roomId := event.roomId, sender := event.sender, type := type,
    stateKey := some key, content := content, prevEventIds := [], authEventIds := [],
    originServerTs := 0, topLevelRedacts := .null, roomVersion := event.roomVersion,
    rejectedReason := none }

def permissive (event : Event) : AuthMap :=
  ((AList.insert (EventTypes.create,"") (stateEvent event EventTypes.create "" []) ∅).insert
      (EventTypes.member,event.sender)
      (stateEvent event EventTypes.member event.sender
        [("membership",.str Membership.join)])).insert
    (EventTypes.powerLevels,"") (stateEvent event EventTypes.powerLevels ""
      [("users",.object [(event.sender,.int 100)])])

def otherBan (py : Runtime) (event : Event) : ℤ :=
  if levelAt py event.content (.str "ban") none = .ok (some 101) then 102 else 101

def restrictive (py : Runtime) (event : Event) (key : String) : AuthMap :=
  (permissive event).insert (EventTypes.powerLevels,key)
    (stateEvent event EventTypes.powerLevels key [("ban",.int (otherBan py event))])

theorem permissive_wellKeyed (event : Event) : WellKeyed (permissive event) := by
  apply wellKeyed_insert
  · apply wellKeyed_insert
    · apply wellKeyed_insert
      · intro k e h
        simp at h
      · rfl
      · rfl
    · rfl
    · rfl
  · rfl
  · rfl

theorem permissive_create (event : Event) : (permissive event).lookup (create,"") =
    some (stateEvent event create "" []) := by
  simp only [permissive,lookup_set]
  simp [create,member,powerLevels]

theorem permissive_member (event : Event) :
    (permissive event).lookup (member,event.sender) =
      some (stateEvent event member event.sender
        [("membership",.str Membership.join)]) := by
  simp only [permissive]
  simp [member,powerLevels]

theorem permissive_powerLevels (event : Event) :
    (permissive event).lookup (powerLevels,"") =
      some (stateEvent event powerLevels ""
        [("users",.object [(event.sender,.int 100)])]) := by
  simp only [permissive,lookup_set,if_true]

theorem permissive_other (event : Event) (hne : key ≠ "") :
    (permissive event).lookup (powerLevels,key) = none := by
  simp only [permissive,lookup_set]
  simp [member,powerLevels,hne]

section Levels

variable {d : AuthMap} (hd : getPowerLevelEvent d = some (stateEvent event powerLevels ""
    [("users",.object [(event.sender,.int 100)])]))
include hd

theorem sender_level : getUserPowerLevel py event.sender d = .ok 100 := by
  simp [getUserPowerLevel,hd,stateEvent,Json.getD,Json.get,Json.orElse,Json.toInt]

theorem other_level {u : String} (hu : u ≠ event.sender) : getUserPowerLevel py u d = .ok 0 := by
  simp [getUserPowerLevel,hd,stateEvent,Json.getD,Json.get,Json.orElse,Json.toInt,lookup_cons,
    beq_false_of_ne hu]

theorem canSendEvent_exposed {key : String} (he : Exposed py event key) :
    canSendEvent py event d = .ok () := by
  have hs : getSendLevel py event.type event.stateKey (getPowerLevelEvent d) = .ok 50 := by
    simp [getSendLevel,hd,stateEvent,Json.getD,Json.get,Json.orElse,Json.toInt,he.stateKey,
      lookup_cons]
  have hset : canSetState py event 100 d key = .ok () := by
    unfold canSetState
    split
    · next hot =>
      obtain ⟨hm,ho⟩ := he.settable hot
      obtain ⟨owner,ho⟩ := Option.isSome_iff_exists.mp ho
      simp only [hm,ho,if_true]
      split
      · rfl
      · next hne =>
        rw [other_level hd hne]
        rfl
    · rfl
  unfold canSendEvent
  rw [hs,sender_level hd,he.stateKey]
  exact hset

end Levels

section

variable (he : Exposed py event key)
  (hd : ∀ k, k ≠ (powerLevels,key) → d.lookup k = (permissive event).lookup k)
include he hd

theorem getPowerLevelEvent_exposed : getPowerLevelEvent d = some (stateEvent event
    powerLevels "" [("users",.object [(event.sender,.int 100)])]) := by
  rw [getPowerLevelEvent,hd _ (by simpa using he.nonempty.symm),permissive_powerLevels]

theorem checkAgainst_exposed :
    checkAgainst py event d = checkPowerLevels py event.roomVersion event d := by
  obtain ⟨r,hr⟩ := he.room
  obtain ⟨sn,hs⟩ := he.sender
  have hc : d.lookup (create,"") = some (stateEvent event create "" []) := by
    rw [hd _ (by simp [create,powerLevels]),permissive_create]
  have hm : d.lookup (member,event.sender) = some (stateEvent event
      member event.sender [("membership",.str Membership.join)]) := by
    rw [hd _ (by simp [member,powerLevels]),permissive_member]
  have hp := getPowerLevelEvent_exposed he hd
  have hf : canFederate d = true := by simp [canFederate,hc,stateEvent]
  have hj : checkEventSenderInRoom py event d = .ok () := by
    simp [checkEventSenderInRoom,checkJoinedRoom,hm,stateEvent,Event.membership,Json.item,
      Json.isStr,raiseIf]
  simp only [checkAgainst,hr,hs,hf,checkByType_powerLevels he.type,hj,canSendEvent_exposed hp he]
  simp [raiseIf]

end

theorem permissive_accepts (he : Exposed py event key) : Accepts py event (permissive event) := by
  have hc : event.type ≠ create := by rw [he.type]; decide
  obtain ⟨d,hd,hi⟩ := accepts_iff py (permissive_wellKeyed event) hc
  rw [hi,checkAgainst_exposed he (fun k _ => hd k)]
  have hn : d.lookup (event.type,key) = none := by
    rw [hd,he.type,permissive_other event he.nonempty]
  simp [checkPowerLevels,he.content,Event.requireStateKey,he.stateKey,hn]

theorem named_checked {ver : RoomVersion} {old new : JsonDict} {lvs : List (Json × Option String)}
    (h : levelsToCheck ver old new = .ok lvs) {name : String} (hn : name ∈ namedLevels) :
    (Json.str name,none) ∈ lvs := by
  obtain ⟨uz,-,h⟩ := bind_eq_ok.mp h
  obtain ⟨evs,-,h⟩ := bind_eq_ok.mp h
  obtain ⟨notifications,-,h⟩ := bind_eq_ok.mp h
  cases h
  simp [hn]

theorem restrictive_rejects (he : Exposed py event key) :
    ¬ Accepts py event (restrictive py event key) := by
  have hc : event.type ≠ create := by rw [he.type]; decide
  have hw : WellKeyed (restrictive py event key) :=
    wellKeyed_insert (permissive_wellKeyed event) rfl rfl
  obtain ⟨d,hd,hi⟩ := accepts_iff py hw hc
  have hs : ∀ k, k ≠ (powerLevels,key) → d.lookup k = (permissive event).lookup k := by
    intro k hk
    rw [hd,restrictive,lookup_set,if_neg hk]
  have hown : d.lookup (event.type,key) = some (stateEvent event powerLevels key
      [("ban",.int (otherBan py event))]) := by
    rw [hd,he.type,restrictive,lookup_set,if_pos rfl]
  have hp := getPowerLevelEvent_exposed he hs
  rw [hi,checkAgainst_exposed he hs]
  intro h
  obtain ⟨-,-,h⟩ := bind_eq_ok.mp h
  simp only [Event.requireStateKey,he.stateKey,ok_bind,hown,sender_level hp] at h
  obtain ⟨lvs,hl,h⟩ := bind_eq_ok.mp h
  have hb := forEach_eq_ok.mp h _ (named_checked hl (show "ban" ∈ namedLevels by decide))
  have ho : levelAt py (stateEvent event powerLevels key
      [("ban",.int (otherBan py event))]).content (.str "ban") none =
        .ok (some (otherBan py event)) := by
    simp [levelAt,stateEvent,Json.contains,Json.index,Json.item,Json.toInt]
  simp only [checkLevel,ho,ok_bind] at hb
  obtain ⟨nl,hn,hb⟩ := bind_eq_ok.mp hb
  split at hb
  · next heq =>
    rw [heq.2] at hn
    unfold otherBan at hn
    split at hn
    · next h101 => simp [h101] at hn
    · next h101 => exact h101 hn
  · apply raiseIf_eq_ok.mp hb
    unfold otherBan
    split <;> simp

/-- The gathered keys decide the outcome of the check exactly for the events
that are not exposed. -/
theorem authTypesForEvent_complete_iff (py : Runtime) (event : Event) :
    Complete py event ↔ ¬ ∃ key, Exposed py event key := by
  constructor
  · rintro hcomplete ⟨key,he⟩
    have hc : event.type ≠ create := by rw [he.type]; decide
    have hm : event.type ≠ member := by rw [he.type]; decide
    have htypes : authTypesForEvent event.roomVersion event = .ok
        [(powerLevels,Json.str ""),(member,.str event.sender),(create,.str "")] := by
      simp [authTypesForEvent,hc,hm]
    have hagree : AgreeOn [(powerLevels,Json.str ""),(member,.str event.sender),(create,.str "")]
        (permissive event) (restrictive py event key) := by
      intro type k hmem
      rw [restrictive,lookup_set,if_neg]
      rintro heq
      obtain ⟨rfl,rfl⟩ := Prod.mk.inj heq
      simp [powerLevels,member,he.nonempty] at hmem
    have hw : WellKeyed (restrictive py event key) :=
      wellKeyed_insert (permissive_wellKeyed event) rfl rfl
    exact restrictive_rejects he ((hcomplete _ htypes _ _ (permissive_wellKeyed event) hw
      hagree).mp (permissive_accepts he))
  · exact complete_of_not_exposed

def fooLevels : Event :=
  { eventId := "$foo", roomId := "!room:x", sender := "@admin:x", type := EventTypes.powerLevels,
    stateKey := some "foo", content := [("users",.object [("@admin:x",.int 100)])],
    prevEventIds := ["$power"], authEventIds := [], originServerTs := 0, topLevelRedacts := .null,
    roomVersion := .v11, rejectedReason := none }

theorem authTypesForEvent_incomplete :
    authTypesForEvent fooLevels.roomVersion fooLevels = .ok
      [(EventTypes.powerLevels,Json.str ""),(EventTypes.member,.str "@admin:x"),
        (EventTypes.create,.str "")] ∧
    AgreeOn [(EventTypes.powerLevels,Json.str ""),(EventTypes.member,.str "@admin:x"),
      (EventTypes.create,.str "")] (permissive fooLevels) (restrictive default fooLevels "foo") ∧
    WellKeyed (permissive fooLevels) ∧ WellKeyed (restrictive default fooLevels "foo") ∧
    Accepts default fooLevels (permissive fooLevels) ∧
    ¬ Accepts default fooLevels (restrictive default fooLevels "foo") := by
  refine ⟨rfl,?_,permissive_wellKeyed _,wellKeyed_insert (permissive_wellKeyed _) rfl rfl,
    by decide,by decide⟩
  intro type key hmem
  simp only [mem_cons,not_mem_nil,or_false] at hmem
  rcases hmem with ⟨rfl,rfl⟩ | ⟨rfl,rfl⟩ | ⟨rfl,rfl⟩ <;>
    rw [restrictive,lookup_set,if_neg (by decide)]

end Synapse.EventAuth
