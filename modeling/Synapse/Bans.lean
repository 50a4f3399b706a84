import Synapse.AuthTypesCompleteness

/-!
# Bans along a run

What an accepted membership event can do to a banned user, and from it which
event must stand in a run that ends a ban.
-/

set_option autoImplicit false

namespace Synapse.EventAuth
open Python EventTypes

variable {py : Runtime} {m d : AuthMap} {event : Event} {user : String}

def membershipOf (m : AuthMap) (user : String) : Option Json :=
  (m.lookup (EventTypes.member,user)).bind (fun event => event.content.lookup "membership")

def Banned (m : AuthMap) (user : String) : Prop :=
  membershipOf m user = some (.str Membership.ban)

/-- The sender has joined and is at or above the ban level; if they are
someone else, also at or above the kick level and above the target. -/
structure Unban (py : Runtime) (m : AuthMap) (event : Event) (user : String) : Prop where
  leave : event.content.lookup "membership" = some (.str Membership.leave)
  joined : membershipOf m event.sender = some (.str Membership.join)
  power : ∃ userLevel banLevel, getUserPowerLevel py event.sender m = .ok userLevel ∧
    getNamedLevel py m "ban" 50 = .ok banLevel ∧ banLevel ≤ userLevel ∧
    (event.sender ≠ user → ∃ kickLevel targetLevel,
      getNamedLevel py m "kick" 50 = .ok kickLevel ∧
      getUserPowerLevel py user m = .ok targetLevel ∧
      kickLevel ≤ userLevel ∧ targetLevel < userLevel)

structure CreatorJoin (m : AuthMap) (event : Event) (user : String) : Prop where
  join : event.content.lookup "membership" = some (.str Membership.join)
  creator : ∃ create, m.lookup (EventTypes.create,"") = some create ∧
    event.prevEventIds = [create.eventId] ∧
    creatorOf event.roomVersion create = .ok (.str user)

theorem isStr_iff {v : Json} {s : String} : v.isStr s = true ↔ v = .str s := by
  cases v <;> simp [Json.isStr]

variable {j : Json} {info : MembershipInfo}

theorem membership_ok : event.membership = .ok j ↔ event.content.lookup "membership" = some j := by
  unfold Event.membership Json.item
  cases h : event.content.lookup "membership" <;> simp

theorem membershipIn_ok {mem : Option Json} (h : membershipIn m user = .ok mem) :
    mem = membershipOf m user := by
  unfold membershipIn at h
  unfold membershipOf
  cases hl : m.lookup (member,user) with
  | none =>
    rw [hl] at h
    exact (Except.ok.inj h).symm
  | some e =>
    rw [hl] at h
    obtain ⟨j,hj,h⟩ := bind_eq_ok.mp h
    cases h
    exact (membership_ok.mp hj).symm

theorem checkByType_member (ht : event.type = member) (d : AuthMap) :
    checkByType py event d = isMembershipChangeAllowed py event.roomVersion event d := by
  have h1 : ¬ (event.type = aliases ∧ event.roomVersion.specialCaseAliasesAuth = true) := by
    rw [ht]
    exact fun h => absurd h.1 (by decide)
  simp only [checkByType,if_neg h1,if_pos ht]

theorem creatorJoins_ok (hk : event.stateKey = some user) (hj : event.membership = .ok j)
    (h : creatorJoins event.roomVersion event j d = .ok true) : CreatorJoin d event user := by
  unfold creatorJoins at h
  split at h
  · next prev create hp hcr =>
    split at h
    · next hjo =>
      obtain ⟨creator,hc,h⟩ := bind_eq_ok.mp h
      simp only [Event.requireStateKey,hk] at h
      have hs := isStr_iff.mp (Except.ok.inj h)
      rw [hs] at hc
      rw [isStr_iff.mp hjo.1] at hj
      exact ⟨membership_ok.mp hj,create,hcr,by rw [hp,hjo.2],hc⟩
    · simp at h
  · simp at h

/-- What was gathered about a membership event whose target is banned. -/
structure BannedInfo (py : Runtime) (d : AuthMap) (event : Event) (user : String)
    (info : MembershipInfo) : Prop where
  targetBanned : info.targetBanned = true
  callerInRoom : info.callerInRoom = true →
    membershipOf d event.sender = some (.str Membership.join)
  self : event.sender = user → info.callerInRoom = false ∧ info.callerInvited = false ∧
    info.callerKnocked = false
  userLevel : getUserPowerLevel py event.sender d = .ok info.userLevel
  targetLevel : getUserPowerLevel py user d = .ok info.targetLevel
  banLevel : getNamedLevel py d "ban" 50 = .ok info.banLevel

theorem membershipInfo_banned (hb : Banned d user)
    (h : membershipInfo py event.roomVersion event user d = .ok info) :
    BannedInfo py d event user info := by
  obtain ⟨cr,hc,h⟩ := bind_eq_ok.mp h
  obtain ⟨tg,ht,h⟩ := bind_eq_ok.mp h
  obtain ⟨ul,hu,h⟩ := bind_eq_ok.mp h
  obtain ⟨targetLevel,htl,h⟩ := bind_eq_ok.mp h
  obtain ⟨inviteLevel,-,h⟩ := bind_eq_ok.mp h
  obtain ⟨banLevel,hban,h⟩ := bind_eq_ok.mp h
  cases h
  obtain rfl := membershipIn_ok hc
  obtain rfl := membershipIn_ok ht
  refine ⟨?_,?_,?_,hu,htl,hban⟩
  · rw [hb]
    simp [hasMembership,Json.isStr]
  · intro hin
    cases hm : membershipOf d event.sender with
    | none => simp [hm,hasMembership] at hin
    | some v =>
      simp only [hm] at hin
      rw [isStr_iff.mp hin]
  · rintro rfl
    rw [hb]
    simp [hasMembership,Json.isStr,Membership.ban,Membership.knock,Membership.join,
      Membership.invite]

theorem checkLeave_unban (hi : BannedInfo py d event user info)
    (h : checkLeave py event user d info = .ok ()) :
    info.banLevel ≤ info.userLevel ∧ (event.sender ≠ user → ∃ kickLevel,
      getNamedLevel py d "kick" 50 = .ok kickLevel ∧ kickLevel ≤ info.userLevel ∧
      info.targetLevel < info.userLevel) := by
  unfold checkLeave at h
  split at h
  · simp at h
  · next hban =>
    have hle : info.banLevel ≤ info.userLevel := by
      by_contra hlt
      exact hban ⟨hi.targetBanned,by omega⟩
    refine ⟨hle,?_⟩
    intro hne
    rw [if_pos (Ne.symm hne)] at h
    obtain ⟨kickLevel,hk,h⟩ := bind_eq_ok.mp h
    have hl := raiseIf_eq_ok.mp h
    exact ⟨kickLevel,hk,by omega,by omega⟩

section Refused

variable {inf : MembershipInfo} (hb : inf.targetBanned = true)
include hb

theorem checkInvite_banned : checkInvite user inf ≠ .ok () := by
  simp [checkInvite,hb]

theorem checkJoin_banned {ver : RoomVersion} {jr : Json} :
    checkJoin py ver event user d jr inf ≠ .ok () := by
  unfold checkJoin
  split <;> simp

theorem checkKnock_banned {ver : RoomVersion} {jr : Json} :
    checkKnock ver event user jr inf ≠ .ok () := by
  unfold checkKnock
  split
  · simp
  split
  · simp
  split
  · simp
  split
  · simp
  · simp [raiseIf,hb]

end Refused

theorem checkMembership_banned {jr : Json} (hi : BannedInfo py d event user info)
    (hj : event.membership = .ok j)
    (h : checkMembership py event.roomVersion event j user d jr info = .ok ()) :
    j = .str Membership.ban ∨ Unban py d event user := by
  unfold checkMembership at h
  split at h
  · obtain ⟨verified,-,h⟩ := bind_eq_ok.mp h
    obtain ⟨-,-,h⟩ := bind_eq_ok.mp h
    exact absurd hi.targetBanned (raiseIf_eq_ok.mp h)
  · split at h
    · next hw =>
      simp only [withdraws,Bool.and_eq_true,decide_eq_true_eq] at hw
      obtain ⟨-,hiv,hkn⟩ := hi.self hw.2.symm
      simp [hiv,hkn] at hw
    · obtain ⟨⟨⟩,hr,h⟩ := bind_eq_ok.mp h
      unfold checkNewMembership at h
      split at h
      · exact absurd h (checkInvite_banned hi.targetBanned)
      split at h
      · exact absurd h (checkJoin_banned hi.targetBanned)
      split at h
      · next hl =>
        right
        have hin : info.callerInRoom = true := by
          by_contra hout
          apply raiseIf_eq_ok.mp hr
          rw [isStr_iff.mp hl]
          exact ⟨by decide,by decide,by simpa using hout⟩
        obtain ⟨hban,hki⟩ := checkLeave_unban hi h
        rw [isStr_iff.mp hl] at hj
        refine ⟨membership_ok.mp hj,hi.callerInRoom hin,info.userLevel,info.banLevel,
          hi.userLevel,hi.banLevel,hban,?_⟩
        intro hne
        obtain ⟨kickLevel,hk,hle,hlt⟩ := hki hne
        exact ⟨kickLevel,info.targetLevel,hk,hi.targetLevel,hle,hlt⟩
      split at h
      · next hban => exact .inl (isStr_iff.mp hban)
      split at h
      · exact absurd h (checkKnock_banned hi.targetBanned)
      · simp at h

theorem isMembershipChangeAllowed_banned (hb : Banned d user) (hk : event.stateKey = some user)
    (h : isMembershipChangeAllowed py event.roomVersion event d = .ok ()) :
    event.content.lookup "membership" = some (.str Membership.ban) ∨
      Unban py d event user ∨ CreatorJoin d event user := by
  obtain ⟨j,hj,h⟩ := bind_eq_ok.mp h
  obtain ⟨creator,hcr,h⟩ := bind_eq_ok.mp h
  split at h
  · next hc => exact .inr (.inr (creatorJoins_ok hk hj (hc ▸ hcr)))
  · simp only [Event.requireStateKey,hk,ok_bind] at h
    obtain ⟨r,-,h⟩ := bind_eq_ok.mp h
    obtain ⟨tg,-,h⟩ := bind_eq_ok.mp h
    obtain ⟨-,-,h⟩ := bind_eq_ok.mp h
    obtain ⟨info,hi,h⟩ := bind_eq_ok.mp h
    rcases checkMembership_banned (membershipInfo_banned hb hi) hj h with hban | hun
    · exact .inl (membership_ok.mp (hban ▸ hj))
    · exact .inr (.inl hun)

section Congruence

variable (hd : ∀ key, d.lookup key = m.lookup key)
include hd

theorem membershipOf_congr (user : String) : membershipOf d user = membershipOf m user := by
  rw [membershipOf,membershipOf,hd]

theorem Unban.congr (h : Unban py d event user) : Unban py m event user := by
  have ha : Agree d m event.sender := ⟨hd _,hd _,hd _⟩
  obtain ⟨hl,hj,hp⟩ := h
  refine ⟨hl,membershipOf_congr hd _ ▸ hj,?_⟩
  simpa only [getUserPowerLevel_congr ha,getNamedLevel_congr ha] using hp

theorem CreatorJoin.congr (h : CreatorJoin d event user) : CreatorJoin m event user := by
  obtain ⟨hj,create,hc,hr⟩ := h
  exact ⟨hj,create,hd _ ▸ hc,hr⟩

end Congruence

theorem accepted_banned (hw : WellKeyed m) (ht : event.type = member)
    (hk : event.stateKey = some user) (ha : Accepts py event m) (hb : Banned m user) :
    event.content.lookup "membership" = some (.str Membership.ban) ∨
      Unban py m event user ∨ CreatorJoin m event user := by
  have hc : event.type ≠ create := by rw [ht]; decide
  obtain ⟨d,hd,hi⟩ := accepts_iff py hw hc
  have h := hi.mp ha
  obtain ⟨r,-,h⟩ := bind_eq_ok.mp h
  obtain ⟨sn,-,h⟩ := bind_eq_ok.mp h
  obtain ⟨-,-,h⟩ := bind_eq_ok.mp h
  rw [checkByType_member ht] at h
  have hbd : Banned d user := (membershipOf_congr hd user).trans hb
  rcases isMembershipChangeAllowed_banned hbd hk h with hban | hun | hcr
  · exact .inl hban
  · exact .inr (.inl (hun.congr hd))
  · exact .inr (.inr (hcr.congr hd))

/-- A membership event that has to be accepted, or any change to the rest of
the state. -/
inductive Change where
  | member (event : Event)
  | other (event : Event)

def applyChange (py : Runtime) (m : AuthMap) : Change → Option AuthMap
  | .member event =>
    match event.stateKey with
    | none => none
    | some user =>
      if event.type = EventTypes.member ∧ Accepts py event m then
        some (m.insert (EventTypes.member,user) event)
      else none
  | .other event =>
    match event.stateKey with
    | none => none
    | some key =>
      if event.type = EventTypes.member then none else some (m.insert (event.type,key) event)

def applyChanges (py : Runtime) (m : AuthMap) (changes : List Change) : Option AuthMap :=
  changes.foldlM (applyChange py) m

theorem applyChange_wellKeyed {m' : AuthMap} {change : Change} (hw : WellKeyed m)
    (h : applyChange py m change = some m') : WellKeyed m' := by
  cases change with
  | member event =>
    simp only [applyChange] at h
    split at h
    · simp at h
    · next user hk =>
      split at h
      · next hc =>
        cases h
        exact wellKeyed_insert hw hc.1 hk
      · simp at h
  | other event =>
    simp only [applyChange] at h
    split at h
    · simp at h
    · next key hk =>
      split at h
      · simp at h
      · cases h
        exact wellKeyed_insert hw rfl hk

theorem applyChange_banned {m' : AuthMap} {change : Change} (hw : WellKeyed m) (hb : Banned m user)
    (h : applyChange py m change = some m') : Banned m' user ∨
      ∃ event, change = .member event ∧ event.stateKey = some user ∧
        (Unban py m event user ∨ CreatorJoin m event user) := by
  cases change with
  | member event =>
    simp only [applyChange] at h
    split at h
    · simp at h
    · next tg hk =>
      split at h
      · next hc =>
        cases h
        by_cases ht : user = tg
        · subst ht
          rcases accepted_banned hw hc.1 hk hc.2 hb with hban | hl
          · left
            simpa [Banned,membershipOf] using hban
          · exact .inr ⟨event,rfl,hk,hl⟩
        · left
          simpa [Banned,membershipOf,ht] using hb
      · simp at h
  | other event =>
    simp only [applyChange] at h
    split at h
    · simp at h
    · split at h
      · simp at h
      · next hne =>
        cases h
        simpa [Banned,membershipOf,Ne.symm hne] using hb

/-- A user who is banned at some point of a run and not at its end was let out
by an accepted leave event of a sufficiently powerful member, or is the
creator of the room joining right after the create event. -/
theorem ban_lifted_by_rules (py : Runtime) (m m' : AuthMap) (changes : List Change) (user : String)
    (hw : WellKeyed m) (h : applyChanges py m changes = some m') (hb : Banned m user)
    (hn : ¬ Banned m' user) :
    ∃ before event after state, changes = before ++ .member event::after ∧
      applyChanges py m before = some state ∧ Banned state user ∧ event.stateKey = some user ∧
      (Unban py state event user ∨ CreatorJoin state event user) := by
  induction changes generalizing m with
  | nil =>
    cases h
    exact absurd hb hn
  | cons change changes ih =>
    obtain ⟨next,hnext,h⟩ := Option.bind_eq_some_iff.mp h
    rcases applyChange_banned hw hb hnext with hstill | ⟨event,rfl,hk,hlift⟩
    · obtain ⟨before,event,after,state,rfl,hstate,hrest⟩ :=
        ih next (applyChange_wellKeyed hw hnext) h hstill
      refine ⟨change::before,event,after,state,rfl,?_,hrest⟩
      simp only [applyChanges,List.foldlM_cons,hnext]
      exact hstate
    · exact ⟨[],event,changes,m,rfl,rfl,hb,hk,hlift⟩

def withBan : AuthMap :=
  (permissive fooLevels).insert (EventTypes.member,"@bob:x")
    (stateEvent fooLevels EventTypes.member "@bob:x" [("membership",.str Membership.ban)])

def unbanBob : Event :=
  stateEvent fooLevels EventTypes.member "@bob:x" [("membership",.str Membership.leave)]

theorem ban_lifted_by_rules_unbanBob :
    ∃ m', applyChanges default withBan [.member unbanBob] = some m' ∧ Banned withBan "@bob:x" ∧
      ¬ Banned m' "@bob:x" ∧ ∃ before event after state,
        [Change.member unbanBob] = before ++ .member event::after ∧
        applyChanges default withBan before = some state ∧ Banned state "@bob:x" ∧
        event.stateKey = some "@bob:x" ∧
        (Unban default state event "@bob:x" ∨ CreatorJoin state event "@bob:x") := by
  have hw : WellKeyed withBan := wellKeyed_insert (permissive_wellKeyed fooLevels) rfl rfl
  have hb : Banned withBan "@bob:x" := by
    simp [Banned,membershipOf,withBan,stateEvent]
  have hrun : applyChanges default withBan [.member unbanBob] =
      some (withBan.insert (member,"@bob:x") unbanBob) := by
    have haccept : Accepts default unbanBob withBan := by decide
    have hone : applyChange default withBan (.member unbanBob) =
        some (withBan.insert (member,"@bob:x") unbanBob) := by
      simp only [applyChange]
      exact if_pos ⟨rfl,haccept⟩
    simp [applyChanges,hone]
  have hn : ¬ Banned (withBan.insert (member,"@bob:x") unbanBob) "@bob:x" := by
    simp [Banned,membershipOf,unbanBob,stateEvent,Membership.leave,Membership.ban]
  exact ⟨_,hrun,hb,hn,ban_lifted_by_rules default withBan _ _ "@bob:x" hw hrun hb hn⟩

end Synapse.EventAuth
