import Synapse.MembershipRules

/-!
# The gathered keys and the check

Two auth maps that agree on the gathered keys give the same outcome, error
included, as long as they also agree on the power levels event the new one
replaces. That entry is read under the event's own state key, which is not
gathered when it is not empty.
-/

set_option autoImplicit false

namespace Synapse.EventAuth
open Python EventTypes Dict

section Congruence

variable {py : Runtime} {m₁ m₂ : AuthMap}

/-- Agreement on the keys every event but the create event is checked with. -/
structure Agree (m₁ m₂ : AuthMap) (sender : String) : Prop where
  powerLevels : m₁.lookup (EventTypes.powerLevels,"") = m₂.lookup (EventTypes.powerLevels,"")
  member : m₁.lookup (EventTypes.member,sender) = m₂.lookup (EventTypes.member,sender)
  create : m₁.lookup (EventTypes.create,"") = m₂.lookup (EventTypes.create,"")

variable {sn : String}

section

variable (h : Agree m₁ m₂ sn)
include h

theorem getPowerLevelEvent_congr : getPowerLevelEvent m₁ = getPowerLevelEvent m₂ := h.powerLevels

theorem getUserPowerLevel_congr (u : String) :
    getUserPowerLevel py u m₁ = getUserPowerLevel py u m₂ := by
  unfold getUserPowerLevel
  rw [getPowerLevelEvent_congr h,h.create]

theorem getNamedLevel_congr (name : String) (default : ℤ) :
    getNamedLevel py m₁ name default = getNamedLevel py m₂ name default := by
  unfold getNamedLevel
  rw [getPowerLevelEvent_congr h]

theorem canFederate_congr : canFederate m₁ = canFederate m₂ := by
  unfold canFederate
  rw [h.create]

end

variable {ev : Event}

section

variable (h : Agree m₁ m₂ ev.sender)
include h

theorem canSendEvent_congr : canSendEvent py ev m₁ = canSendEvent py ev m₂ := by
  unfold canSendEvent canSetState
  simp only [getPowerLevelEvent_congr h,getUserPowerLevel_congr h]

theorem checkRedaction_congr (rv : RoomVersion) :
    checkRedaction py rv ev m₁ = checkRedaction py rv ev m₂ := by
  unfold checkRedaction
  simp only [getUserPowerLevel_congr h,getNamedLevel_congr h]

theorem checkPowerLevels_congr
    (ho : ∀ key, ev.stateKey = some key → m₁.lookup (ev.type,key) = m₂.lookup (ev.type,key))
    (rv : RoomVersion) : checkPowerLevels py rv ev m₁ = checkPowerLevels py rv ev m₂ := by
  unfold checkPowerLevels Event.requireStateKey
  cases hk : ev.stateKey with
  | none => rfl
  | some key => simp only [ok_bind,ho key hk,getUserPowerLevel_congr h]

theorem membershipInfo_congr {ta : String} (ht : m₁.lookup (member,ta) = m₂.lookup (member,ta))
    (rv : RoomVersion) : membershipInfo py rv ev ta m₁ = membershipInfo py rv ev ta m₂ := by
  unfold membershipInfo membershipIn
  simp only [h.member,ht,getUserPowerLevel_congr h,getNamedLevel_congr h]

theorem creatorJoins_congr (rv : RoomVersion) (mb : Json) :
    creatorJoins rv ev mb m₁ = creatorJoins rv ev mb m₂ := by
  unfold creatorJoins
  rw [h.create]

end

/-- Agreement on the keys a membership event is checked with besides. -/
structure AgreeMember (m₁ m₂ : AuthMap) (roomVersion : RoomVersion) (event : Event)
    (membership : Json) (target : String) : Prop where
  target : m₁.lookup (EventTypes.member,target) = m₂.lookup (EventTypes.member,target)
  joinRule : needsJoinRules membership = true → joinRuleOf m₁ = joinRuleOf m₂
  invite : membership.isStr Membership.invite = true → ∀ invite signed token,
    event.content.lookup "third_party_invite" = some (.object invite) →
    invite.lookup "signed" = some (.object signed) → signed.lookup "token" = some token →
    lookupValue m₁ thirdPartyInvite token =
      lookupValue m₂ thirdPartyInvite token
  authorising : roomVersion.restrictedJoinRule = true →
    membership.isStr Membership.join = true → ∀ user,
    event.content.lookup EventContentFields.authorisingUser = some (.str user) →
    m₁.lookup (EventTypes.member,user) = m₂.lookup (EventTypes.member,user)

variable {ver : RoomVersion} {ev : Event} {mem : Json} {tg : String}

theorem verifyThirdPartyInvite_congr (h : AgreeMember m₁ m₂ ver ev mem tg)
    (hm : mem.isStr Membership.invite = true) :
    verifyThirdPartyInvite py ev m₁ = verifyThirdPartyInvite py ev m₂ := by
  unfold verifyThirdPartyInvite
  split
  · next iv hi =>
    split
    · next signed hs =>
      split
      · next mxid tk signatures hmx ht hsi =>
        unfold verifySigned
        rw [h.invite hm iv signed tk hi hs ht]
      · rfl
    · rfl
  · rfl

section

variable (h : Agree m₁ m₂ ev.sender)
include h

section

variable (hm : AgreeMember m₁ m₂ ver ev mem tg)
include hm

theorem checkAuthorisingUser_congr (hr : ver.restrictedJoinRule = true)
    (hj : mem.isStr Membership.join = true) (inf : MembershipInfo) :
    checkAuthorisingUser py ev m₁ inf = checkAuthorisingUser py ev m₂ inf := by
  unfold checkAuthorisingUser
  split
  · rfl
  · next u hu =>
    have hl : ev.content.lookup EventContentFields.authorisingUser = some (.str u) := by
      unfold Json.getD at hu
      cases hc : ev.content.lookup EventContentFields.authorisingUser with
      | none => simp [hc] at hu
      | some v => simpa [hc] using hu
    simp only [hm.authorising hr hj u hl,getUserPowerLevel_congr h]
  · rfl

theorem checkJoin_congr (hj : mem.isStr Membership.join = true) (jr : Json) (inf : MembershipInfo) :
    checkJoin py ver ev tg m₁ jr inf = checkJoin py ver ev tg m₂ jr inf := by
  unfold checkJoin
  by_cases hru : (ver.restrictedJoinRule ∧ jr.isStr JoinRules.restricted) ∨
      (ver.knockRestrictedJoinRule ∧ jr.isStr JoinRules.knockRestricted)
  · have hr : ver.restrictedJoinRule = true := by
      rcases hru with hru | hru
      · exact hru.1
      · exact RoomVersion.restricted_of_knockRestricted hru.1
    rw [checkAuthorisingUser_congr h hm hr hj]
  · simp only [if_neg hru]

theorem checkNewMembership_congr (inf : MembershipInfo) :
    checkNewMembership py ver ev mem tg m₁ (joinRuleOf m₁) inf =
      checkNewMembership py ver ev mem tg m₂ (joinRuleOf m₂) inf := by
  unfold checkNewMembership
  by_cases hj : mem.isStr Membership.join = true
  · rw [hm.joinRule (by simp [needsJoinRules,hj]),checkJoin_congr h hm hj]
    unfold checkLeave
    simp only [getNamedLevel_congr h]
  · have hkn : (if (ver.knockJoinRule = true ∧ mem.isStr Membership.knock = true) then
          checkKnock ver ev tg (joinRuleOf m₁) inf
        else .error (authError 500 ("Unknown membership " ++ py.str mem))) =
        if (ver.knockJoinRule = true ∧ mem.isStr Membership.knock = true) then
          checkKnock ver ev tg (joinRuleOf m₂) inf
        else .error (authError 500 ("Unknown membership " ++ py.str mem)) := by
      split
      · next hk => rw [hm.joinRule (by simp [needsJoinRules,hk.2])]
      · rfl
    unfold checkLeave
    simp only [if_neg hj,getNamedLevel_congr h,hkn]

end

theorem isMembershipChangeAllowed_congr
    (hm : ∀ mem tg, ev.membership = .ok mem → ev.stateKey = some tg →
      AgreeMember m₁ m₂ ver ev mem tg) :
    isMembershipChangeAllowed py ver ev m₁ = isMembershipChangeAllowed py ver ev m₂ := by
  unfold isMembershipChangeAllowed
  cases hmem : ev.membership with
  | error e => rfl
  | ok mem =>
    unfold Event.requireStateKey
    cases hk : ev.stateKey with
    | none => simp only [error_bind,creatorJoins_congr h]
    | some tg =>
      have ha := hm mem tg hmem hk
      have hc : ∀ inf, checkMembership py ver ev mem tg m₁
            (joinRuleOf m₁) inf = checkMembership py ver ev mem tg m₂
            (joinRuleOf m₂) inf := by
        intro inf
        unfold checkMembership
        by_cases hi : mem.isStr Membership.invite = true
        · rw [verifyThirdPartyInvite_congr ha hi,checkNewMembership_congr h ha]
        · simp only [hi,checkNewMembership_congr h ha]
          simp
      simp only [ok_bind,creatorJoins_congr h,canFederate_congr h,
        membershipInfo_congr h ha.target,hc]

theorem checkAgainst_congr
    (hm : ev.type = member → ∀ mem tg,ev.membership = .ok mem → ev.stateKey = some tg →
      AgreeMember m₁ m₂ ev.roomVersion ev mem tg)
    (hp : ev.type = powerLevels → ∀ key, ev.stateKey = some key →
      m₁.lookup (ev.type,key) = m₂.lookup (ev.type,key)) :
    checkAgainst py ev m₁ = checkAgainst py ev m₂ := by
  have hty : checkByType py ev m₁ = checkByType py ev m₂ := by
    unfold checkByType
    split
    · rfl
    · split
      · next ht => exact isMembershipChangeAllowed_congr h (hm ht)
      · unfold checkEventSenderInRoom checkThirdPartyInvite
        rw [h.member]
        simp only [getUserPowerLevel_congr h,getNamedLevel_congr h,canSendEvent_congr h,
          checkRedaction_congr h]
        by_cases ht : ev.type = powerLevels
        · rw [checkPowerLevels_congr h (hp ht)]
        · simp only [if_neg ht]
  unfold checkAgainst
  simp only [canFederate_congr h,hty]

end

end Congruence

section Gathered

variable {m₁ m₂ : AuthMap} {types : List (String × Json)} {evt : Event}

def AgreeOn (types : List (String × Json)) (m₁ m₂ : AuthMap) : Prop :=
  ∀ type key, (type,Json.str key) ∈ types → m₁.lookup (type,key) = m₂.lookup (type,key)

theorem AgreeOn.agree {rv : RoomVersion} (ha : AgreeOn types m₁ m₂)
    (h : authTypesForEvent rv evt = .ok types) (hc : evt.type ≠ create) :
    Agree m₁ m₂ evt.sender := by
  have hb : ∀ e ∈ [(powerLevels,Json.str ""),
      (member,.str evt.sender),(create,.str "")], e ∈ types := by
    intro e he
    simp only [authTypesForEvent,if_neg hc] at h
    split at h
    · obtain ⟨mb,-,h⟩ := bind_eq_ok.mp h
      obtain ⟨ta,-,h⟩ := bind_eq_ok.mp h
      obtain ⟨iv,-,h⟩ := bind_eq_ok.mp h
      obtain ⟨authorising,-,h⟩ := bind_eq_ok.mp h
      cases h
      simp only [List.mem_append]
      tauto
    · cases h
      exact he
  exact ⟨ha _ _ (hb _ (by simp)),ha _ _ (hb _ (by simp)),ha _ _ (hb _ (by simp))⟩

theorem hashed_mem {type : String} {key : Json} {es : List (String × Json)}
    (h : hashed type key = .ok es) : (type,key) ∈ es := by
  unfold hashed at h
  split at h
  · cases h
    simp
  · simp at h

theorem lookupValue_congr (ha : AgreeOn types m₁ m₂) {type : String} {tk : Json}
    (hm : (type,tk) ∈ types) : lookupValue m₁ type tk = lookupValue m₂ type tk := by
  cases tk with
  | str key => simp only [lookupValue,ha type key hm]
  | null | bool _ | int _ | float _ | array _ | object _ => rfl

theorem AgreeOn.agreeMember (ha : AgreeOn types m₁ m₂) {rv : RoomVersion}
    (h : authTypesForEvent rv evt = .ok types) (ht : evt.type = member) {mb : Json}
    {ta : String} (hm : evt.membership = .ok mb) (hk : evt.stateKey = some ta) :
    AgreeMember m₁ m₂ rv evt mb ta := by
  have hc : evt.type ≠ create := by rw [ht]; decide
  simp only [authTypesForEvent,if_neg hc,if_pos ht,hm,ok_bind,Event.requireStateKey,hk] at h
  obtain ⟨iv,hin,h⟩ := bind_eq_ok.mp h
  obtain ⟨authorising,hau,h⟩ := bind_eq_ok.mp h
  cases h
  refine ⟨ha _ _ (by simp),?_,?_,?_⟩
  · intro hn
    have hl := ha joinRules "" (by simp [hn])
    simp only [joinRuleOf,hl]
  · intro hi ct signed tk hco hs hto
    simp only [thirdPartyInviteTypes,hi,hco,Json.index,Json.item,hs,hto,ok_bind] at hin
    exact lookupValue_congr ha (by simp [hashed_mem hin])
  · intro hr hj u hu
    simp only [authorisingUserTypes,hr,hj,hu] at hau
    exact ha _ _ (by simp [hashed_mem hau])

end Gathered

/-- The entries of a state map stand under their own type and state key. -/
def WellKeyed (m : AuthMap) : Prop :=
  ∀ key event, m.lookup key = some event → event.type = key.1 ∧ event.stateKey = some key.2

theorem wellKeyed_insert {m : AuthMap} (hm : WellKeyed m) {key : StateKey} {e : Event}
    (ht : e.type = key.1) (hk : e.stateKey = some key.2) : WellKeyed (m.insert key e) := by
  intro k e' h
  rcases set_cases h with ⟨hkey,rfl⟩ | ⟨-,h⟩
  · rw [hkey]
    exact ⟨ht,hk⟩
  · exact hm k e' h

theorem authDictFrom_entries (es : List (Sigma fun _ : StateKey => Event)) (hn : es.NodupKeys)
    (hk : ∀ e ∈ es, e.2.type = e.1.1 ∧ e.2.stateKey = some e.1.2) (d : AuthMap) :
    ∃ d', authDictFrom d (es.map Sigma.snd) = .ok d' ∧
      ∀ key, d'.lookup key = (es.dlookup key).or (d.lookup key) := by
  induction es generalizing d with
  | nil => exact ⟨d,rfl,by simp⟩
  | cons e es ih =>
    obtain ⟨k,v⟩ := e
    have ht : v.type = k.1 := (hk ⟨k,v⟩ (by simp)).1
    have hkey : v.stateKey = some k.2 := (hk ⟨k,v⟩ (by simp)).2
    rw [List.nodupKeys_cons] at hn
    obtain ⟨d',hd',hl⟩ := ih hn.2 (fun e' h' => hk e' (by simp [h'])) (d.insert k v)
    refine ⟨d',?_,?_⟩
    · simpa [authDictFrom,Event.requireStateKey,hkey,ht] using hd'
    · intro key
      rw [hl key,lookup_set]
      by_cases h : key = k
      · subst h
        have hno : es.dlookup key = none := List.dlookup_eq_none.mpr hn.1
        simp [hno]
      · rw [if_neg h]
        congr 1
        exact (List.dlookup_cons_ne es (⟨k,v⟩ : Sigma fun _ : StateKey => Event) h).symm

theorem authDictFrom_values {m : AuthMap} (hm : WellKeyed m) :
    ∃ d, authDictFrom ∅ (values m) = .ok d ∧ ∀ key, d.lookup key = m.lookup key := by
  obtain ⟨d,hd,hl⟩ := authDictFrom_entries m.entries m.nodupKeys
    (fun e he => hm e.1 e.2 (AList.mem_lookup_iff.mpr he)) ∅
  refine ⟨d,hd,?_⟩
  intro key
  rw [hl key]
  simp [AList.lookup]

def Accepts (py : Runtime) (event : Event) (m : AuthMap) : Prop :=
  checkStateDependentAuthRules py event (values m) = .ok ()

instance (py : Runtime) (event : Event) (m : AuthMap) : Decidable (Accepts py event m) :=
  inferInstanceAs (Decidable (checkStateDependentAuthRules py event (values m) = .ok ()))

theorem accepts_iff (py : Runtime) {ev : Event} {m : AuthMap} (hm : WellKeyed m)
    (hc : ev.type ≠ create) :
    ∃ d : AuthMap, (∀ key, d.lookup key = m.lookup key) ∧
      (Accepts py ev m ↔ checkAgainst py ev d = .ok ()) := by
  obtain ⟨d,hd,hl⟩ := authDictFrom_values hm
  refine ⟨d,hl,?_⟩
  simp [Accepts,checkStateDependentAuthRules,hc,hd]

end Synapse.EventAuth
