import Synapse.EventAuth

/-!
# Membership changes and the whole check

The rules for membership events, the check that dispatches on the type of an
event, and the keys of the state that are gathered to run it.
-/

set_option autoImplicit false

namespace Synapse.EventAuth
open Python EventTypes

section ThirdPartyInvites

variable (py : Runtime)

def lookupValue (authEvents : AuthMap) (type : String) (key : Json) : Raises (Option Event) :=
  match key with
  | .str key => .ok (authEvents.lookup (type,key))
  | key => if key.hashable then .ok none else .error .typeError

def getPublicKeys (inviteEvent : Event) : Raises (List Json) := do
  let own := match inviteEvent.content.lookup "public_key" with
    | none => []
    | some publicKey =>
      match inviteEvent.content.lookup "key_validity_url" with
      | none => [Json.object [("public_key",publicKey)]]
      | some url => [Json.object [("public_key",publicKey),("key_validity_url",url)]]
  let more ← Json.iter (Json.getD inviteEvent.content "public_keys" (.array []))
  .ok (own ++ more)

def isEd25519 (keyName : String) : Bool := "ed25519:".toList.isPrefixOf keyName.toList

def firstKey : JsonDict → Raises (Option (String × String))
  | [] => .ok none
  | (server,block)::rest => do
    let keys ← Json.items block
    match (keys.map Prod.fst).find? isEd25519 with
    | some keyName => .ok (some (server,keyName))
    | none => firstKey rest

def verifyWithKeys (signed : JsonDict) (signatures : Json) : List Json → Raises Bool
  | [] => .ok false
  | publicKeyObject::rest => do
    let publicKey ← Json.index publicKeyObject (.str "public_key")
    let blocks ← Json.items signatures
    let found ← firstKey blocks
    match found with
    | none => verifyWithKeys signed signatures rest
    | some (server,keyName) =>
      match py.verify signed server keyName publicKey with
      | .verified => .ok true
      | .swallowed => verifyWithKeys signed signatures rest
      | .raises error => .error error

def verifySigned (event : Event) (authEvents : AuthMap) (signed : JsonDict)
    (mxid token signatures : Json) : Raises Bool := do
  let inviteEvent ← lookupValue authEvents thirdPartyInvite token
  match inviteEvent with
  | none => .ok false
  | some inviteEvent =>
    if inviteEvent.sender ≠ event.sender then .ok false
    else do
      let target ← event.requireStateKey
      if mxid.isStr target = false then .ok false
      else do
        let keys ← getPublicKeys inviteEvent
        verifyWithKeys py signed signatures keys

def verifyThirdPartyInvite (event : Event) (authEvents : AuthMap) : Raises Bool :=
  match event.content.lookup "third_party_invite" with
  | some (.object invite) =>
    match invite.lookup "signed" with
    | some (.object signed) =>
      match signed.lookup "mxid", signed.lookup "token", signed.lookup "signatures" with
      | some mxid, some token, some signatures =>
        verifySigned py event authEvents signed mxid token signatures
      | _, _, _ => .ok false
    | _ => .ok false
  | _ => .ok false

end ThirdPartyInvites

section Membership

variable (py : Runtime)

/-- What the rules know about the sender, the target and their levels. -/
structure MembershipInfo where
  callerInRoom : Bool
  callerInvited : Bool
  callerKnocked : Bool
  targetInRoom : Bool
  targetBanned : Bool
  userLevel : ℤ
  targetLevel : ℤ
  inviteLevel : ℤ
  banLevel : ℤ

def membershipIn (authEvents : AuthMap) (user : String) : Raises (Option Json) :=
  match authEvents.lookup (EventTypes.member,user) with
  | none => .ok none
  | some event => do
    let membership ← event.membership
    .ok (some membership)

def hasMembership (membership : Option Json) (value : String) : Bool :=
  membership.any (fun m => m.isStr value)

def membershipInfo (roomVersion : RoomVersion) (event : Event) (target : String)
    (authEvents : AuthMap) : Raises MembershipInfo := do
  let caller ← membershipIn authEvents event.sender
  let targetMembership ← membershipIn authEvents target
  let userLevel ← getUserPowerLevel py event.sender authEvents
  let targetLevel ← getUserPowerLevel py target authEvents
  let inviteLevel ← getNamedLevel py authEvents "invite" 0
  let banLevel ← getNamedLevel py authEvents "ban" 50
  .ok {
    callerInRoom := hasMembership caller Membership.join
    callerInvited := hasMembership caller Membership.invite
    callerKnocked := roomVersion.knockJoinRule && hasMembership caller Membership.knock
    targetInRoom := hasMembership targetMembership Membership.join
    targetBanned := hasMembership targetMembership Membership.ban
    userLevel := userLevel
    targetLevel := targetLevel
    inviteLevel := inviteLevel
    banLevel := banLevel }

def joinRuleOf (authEvents : AuthMap) : Json :=
  match authEvents.lookup (EventTypes.joinRules,"") with
  | some event => Json.getD event.content "join_rule" (.str JoinRules.invite)
  | none => .str JoinRules.invite

def bannedFromRoom (target : String) : Exn SynapseError :=
  authError 403 (target ++ " is banned from the room")

def checkInvite (target : String) (info : MembershipInfo) : Raises Unit :=
  if info.targetBanned then .error (bannedFromRoom target)
  else if info.targetInRoom then
    .error (authError 403 (target ++ " is already in the room.") Codes.alreadyJoined)
  else raiseIf (info.userLevel < info.inviteLevel)
    (authError 403 "You don't have permission to invite users" Codes.insufficientPower)

def checkAuthorisingUser (event : Event) (authEvents : AuthMap) (info : MembershipInfo) :
    Raises Unit :=
  match Json.getD event.content EventContentFields.authorisingUser .null with
  | .null => .error (authError 403 "Join event is missing authorising user.")
  | .str user => do
    checkJoinedRoom py (authEvents.lookup (EventTypes.member,user)) user event.roomId
    let authorisingUserLevel ← getUserPowerLevel py user authEvents
    raiseIf (authorisingUserLevel < info.inviteLevel)
      (authError 403 "Join event authorised by invalid server.")
  | user =>
    if user.hashable then checkJoinedRoom py none (py.str user) event.roomId
    else .error .typeError

def checkJoin (roomVersion : RoomVersion) (event : Event) (target : String)
    (authEvents : AuthMap) (joinRule : Json) (info : MembershipInfo) : Raises Unit :=
  if event.sender ≠ target then .error (authError 403 "Cannot force another user to join.")
  else if info.targetBanned then .error (authError 403 "You are banned from this room")
  else if joinRule.isStr JoinRules.isPublic then .ok ()
  else if (roomVersion.restrictedJoinRule ∧ joinRule.isStr JoinRules.restricted) ∨
      (roomVersion.knockRestrictedJoinRule ∧ joinRule.isStr JoinRules.knockRestricted) then
    if info.callerInRoom = false ∧ info.callerInvited = false then
      checkAuthorisingUser py event authEvents info
    else .ok ()
  else if joinRule.isStr JoinRules.invite ∨
      (roomVersion.knockJoinRule ∧ joinRule.isStr JoinRules.knock) ∨
      (roomVersion.knockRestrictedJoinRule ∧ joinRule.isStr JoinRules.knockRestricted) then
    raiseIf (info.callerInRoom = false ∧ info.callerInvited = false)
      (authError 403 "You are not invited to this room.")
  else .error (authError 403 "You are not allowed to join this room")

def checkLeave (event : Event) (target : String) (authEvents : AuthMap)
    (info : MembershipInfo) : Raises Unit :=
  if info.targetBanned ∧ info.userLevel < info.banLevel then
    .error (authError 403 ("You cannot unban user " ++ target ++ ".") Codes.insufficientPower)
  else if target ≠ event.sender then do
    let kickLevel ← getNamedLevel py authEvents "kick" 50
    raiseIf (info.userLevel < kickLevel ∨ info.userLevel ≤ info.targetLevel)
      (authError 403 ("You cannot kick user " ++ target ++ ".") Codes.insufficientPower)
  else .ok ()

def checkBan (info : MembershipInfo) : Raises Unit :=
  if info.userLevel < info.banLevel then
    .error (authError 403 "You don't have permission to ban" Codes.insufficientPower)
  else raiseIf (info.userLevel ≤ info.targetLevel)
    (authError 403 "You don't have permission to ban this user" Codes.insufficientPower)

def checkKnock (roomVersion : RoomVersion) (event : Event) (target : String) (joinRule : Json)
    (info : MembershipInfo) : Raises Unit :=
  if joinRule.isStr JoinRules.knock = false ∧ (roomVersion.knockRestrictedJoinRule = false ∨
      joinRule.isStr JoinRules.knockRestricted = false) then
    .error (authError 403 "You don't have permission to knock")
  else if target ≠ event.sender then .error (authError 403 "You cannot knock for other users")
  else if info.targetInRoom then
    .error (authError 403 "You cannot knock on a room you are already in" Codes.alreadyJoined)
  else if info.callerInvited then
    .error (authError 403 "You are already invited to this room")
  else raiseIf (info.targetBanned = true) (authError 403 "You are banned from this room")

def checkInRoom (event : Event) (membership : Json) (info : MembershipInfo) : Raises Unit :=
  raiseIf (membership.isStr Membership.join = false ∧ membership.isStr Membership.knock = false ∧
      info.callerInRoom = false)
    (authError 403 (event.sender ++ " not in room " ++ event.roomId ++ ".") Codes.notJoined)

def checkNewMembership (roomVersion : RoomVersion) (event : Event) (membership : Json)
    (target : String) (authEvents : AuthMap) (joinRule : Json) (info : MembershipInfo) :
    Raises Unit :=
  if membership.isStr Membership.invite then checkInvite target info
  else if membership.isStr Membership.join then
    checkJoin py roomVersion event target authEvents joinRule info
  else if membership.isStr Membership.leave then checkLeave py event target authEvents info
  else if membership.isStr Membership.ban then checkBan info
  else if roomVersion.knockJoinRule ∧ membership.isStr Membership.knock then
    checkKnock roomVersion event target joinRule info
  else .error (authError 500 ("Unknown membership " ++ py.str membership))

/-- Invitees and those who knocked may leave before the general rules apply. -/
def withdraws (event : Event) (membership : Json) (target : String) (info : MembershipInfo) :
    Bool :=
  (info.callerInvited || info.callerKnocked) && membership.isStr Membership.leave &&
    target = event.sender

def checkMembership (roomVersion : RoomVersion) (event : Event) (membership : Json)
    (target : String) (authEvents : AuthMap) (joinRule : Json) (info : MembershipInfo) :
    Raises Unit :=
  if membership.isStr Membership.invite ∧ (event.content.lookup "third_party_invite").isSome then do
    let verified ← verifyThirdPartyInvite py event authEvents
    raiseIf (verified = false) (authError 403 "You are not invited to this room.")
    raiseIf (info.targetBanned = true) (bannedFromRoom target)
  else if withdraws event membership target info then .ok ()
  else do
    checkInRoom event membership info
    checkNewMembership py roomVersion event membership target authEvents joinRule info

def creatorJoins (roomVersion : RoomVersion) (event : Event) (membership : Json)
    (authEvents : AuthMap) : Raises Bool :=
  match event.prevEventIds, authEvents.lookup (EventTypes.create,"") with
  | [prev], some create =>
    if membership.isStr Membership.join ∧ prev = create.eventId then do
      let creator ← creatorOf roomVersion create
      let target ← event.requireStateKey
      .ok (creator.isStr target)
    else .ok false
  | _, _ => .ok false

def isMembershipChangeAllowed (roomVersion : RoomVersion) (event : Event) (authEvents : AuthMap) :
    Raises Unit := do
  let membership ← event.membership
  let creator ← creatorJoins roomVersion event membership authEvents
  if creator then .ok ()
  else do
    let target ← event.requireStateKey
    let creatingDomain ← getDomainFromId py event.roomId
    let targetDomain ← getDomainFromId py target
    raiseIf (creatingDomain ≠ targetDomain ∧ canFederate authEvents = false) unfederatable
    let info ← membershipInfo py roomVersion event target authEvents
    checkMembership py roomVersion event membership target authEvents (joinRuleOf authEvents) info

end Membership

section Check

variable (py : Runtime)

def checkAliases (event : Event) : Raises Unit :=
  match event.stateKey with
  | none => .error (authError 403 "Alias event must be a state event")
  | some stateKey =>
    if stateKey = "" then .error (authError 403 "Alias event must have non-empty state_key")
    else do
      let senderDomain ← getDomainFromId py event.sender
      raiseIf (stateKey ≠ senderDomain)
        (authError 403 "Alias event's state_key does not match sender's domain")

def checkThirdPartyInvite (event : Event) (authEvents : AuthMap) : Raises Unit := do
  let userLevel ← getUserPowerLevel py event.sender authEvents
  let inviteLevel ← getNamedLevel py authEvents "invite" 0
  raiseIf (userLevel < inviteLevel)
    (authError 403 "You don't have permission to invite users" Codes.insufficientPower)

def checkByType (event : Event) (authDict : AuthMap) : Raises Unit :=
  if event.type = aliases ∧ event.roomVersion.specialCaseAliasesAuth then
    checkAliases py event
  else if event.type = EventTypes.member then
    isMembershipChangeAllowed py event.roomVersion event authDict
  else do
    checkEventSenderInRoom py event authDict
    if event.type = thirdPartyInvite then checkThirdPartyInvite py event authDict
    else do
      canSendEvent py event authDict
      if event.type = EventTypes.powerLevels then
        checkPowerLevels py event.roomVersion event authDict
      else if event.type = redaction then do
        let _ ← checkRedaction py event.roomVersion event authDict
        .ok ()
      else .ok ()

def checkAgainst (event : Event) (authDict : AuthMap) : Raises Unit := do
  let creatingDomain ← getDomainFromId py event.roomId
  let originatingDomain ← getDomainFromId py event.sender
  raiseIf (creatingDomain ≠ originatingDomain ∧ canFederate authDict = false) unfederatable
  checkByType py event authDict

/-- The events as a dictionary; a later event replaces an earlier one of the
same key. -/
def authDictFrom (authDict : AuthMap) : List Event → Raises AuthMap
  | [] => .ok authDict
  | event::rest => do
    let stateKey ← event.requireStateKey
    authDictFrom (authDict.insert (event.type,stateKey) event) rest

def checkStateDependentAuthRules (event : Event) (authEvents : List Event) : Raises Unit :=
  if event.type = EventTypes.create then .ok ()
  else do
    let authDict ← authDictFrom ∅ authEvents
    checkAgainst py event authDict

end Check

def hashed (type : String) (key : Json) : Raises (List (String × Json)) :=
  if key.hashable then .ok [(type,key)] else .error .typeError

def thirdPartyInviteTypes (event : Event) (membership : Json) : Raises (List (String × Json)) :=
  match membership.isStr Membership.invite, event.content.lookup "third_party_invite" with
  | true, some invite => do
    let signed ← Json.index invite (.str "signed")
    let token ← Json.index signed (.str "token")
    hashed thirdPartyInvite token
  | _, _ => .ok []

def authorisingUserTypes (roomVersion : RoomVersion) (event : Event) (membership : Json) :
    Raises (List (String × Json)) :=
  match roomVersion.restrictedJoinRule && membership.isStr Membership.join,
    event.content.lookup EventContentFields.authorisingUser with
  | true, some user => hashed EventTypes.member user
  | _, _ => .ok []

def needsJoinRules (membership : Json) : Bool :=
  membership.isStr Membership.join || membership.isStr Membership.invite ||
    membership.isStr Membership.knock

/-- The keys of the state that may be needed to check an event. State keys
taken from the content need not be strings. -/
def authTypesForEvent (roomVersion : RoomVersion) (event : Event) :
    Raises (List (String × Json)) :=
  if event.type = EventTypes.create then .ok []
  else
    let authTypes := [(EventTypes.powerLevels,Json.str ""),(EventTypes.member,.str event.sender),
      (EventTypes.create,.str "")]
    if event.type = EventTypes.member then do
      let membership ← event.membership
      let joinRules := if needsJoinRules membership then [(EventTypes.joinRules,Json.str "")]
        else []
      let target ← event.requireStateKey
      let invite ← thirdPartyInviteTypes event membership
      let authorising ← authorisingUserTypes roomVersion event membership
      .ok (authTypes ++ joinRules ++ [(EventTypes.member,.str target)] ++ invite ++ authorising)
    else .ok authTypes

end Synapse.EventAuth
