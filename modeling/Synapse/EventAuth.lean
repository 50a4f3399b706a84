import Synapse.Events

/-!
# Event authorisation

The rules that check an event against the state of its room, and the keys of
the state that are gathered for them. A check returns when the event is
allowed and raises otherwise.
-/

set_option autoImplicit false

namespace Synapse.EventAuth
open Python

abbrev AuthMap := StateMap Event

def getPowerLevelEvent (authEvents : AuthMap) : Option Event :=
  authEvents.lookup (EventTypes.powerLevels,"")

def creatorOf (roomVersion : RoomVersion) (create : Event) : Raises Json :=
  if roomVersion.implicitRoomCreator then .ok (.str create.sender)
  else Json.item create.content EventContentFields.roomCreator

section Levels

variable (py : Runtime)

/-- Without a power levels event the creator has level 100 and everyone else
has level 0. -/
def getUserPowerLevel (userId : String) (authEvents : AuthMap) : Raises ℤ :=
  match getPowerLevelEvent authEvents with
  | some powerLevels => do
    let level ← Json.get (Json.getD powerLevels.content "users" (.object [])) userId .null
    match level.orElse (Json.getD powerLevels.content "users_default" (.int 0)) with
    | .null => .ok 0
    | level => level.toInt py.intOfString
  | none =>
    match authEvents.lookup (EventTypes.create,"") with
    | none => .ok 0
    | some create => do
      let creator ← creatorOf create.roomVersion create
      .ok (if creator.isStr userId then 100 else 0)

def getNamedLevel (authEvents : AuthMap) (name : String) (default : ℤ) : Raises ℤ :=
  match getPowerLevelEvent authEvents with
  | none => .ok default
  | some powerLevels =>
    match Json.getD powerLevels.content name .null with
    | .null => .ok default
    | level => level.toInt py.intOfString

def getSendLevel (etype : String) (stateKey : Option String) (powerLevelsEvent : Option Event) :
    Raises ℤ := do
  let content := match powerLevelsEvent with
    | some event => event.content
    | none => []
  let level ← Json.get (Json.getD content "events" (.object [])) etype .null
  (level.orElse (if stateKey.isSome then Json.getD content "state_default" (.int 50)
    else Json.getD content "events_default" (.int 0))).toInt py.intOfString

end Levels

def canFederate (authEvents : AuthMap) : Bool :=
  match authEvents.lookup (EventTypes.create,"") with
  | none => false
  | some creation =>
    match creation.content.lookup EventContentFields.federate with
    | none => true
    | some (.bool true) => true
    | some _ => false

def unfederatable : Exn SynapseError :=
  authError 403 "This room has been marked as unfederatable."

section Rules

variable (py : Runtime)

def checkJoinedRoom (member : Option Event) (userId roomId : String) : Raises Unit :=
  let notInRoom := authError 403
    ("User " ++ userId ++ " not in room " ++ roomId ++ " (" ++ py.reprEvent member ++ ")")
  match member with
  | none => .error notInRoom
  | some event => do
    let membership ← event.membership
    raiseIf (membership.isStr Membership.join = false) notInRoom

def checkEventSenderInRoom (event : Event) (authEvents : AuthMap) : Raises Unit :=
  checkJoinedRoom py (authEvents.lookup (EventTypes.member,event.sender)) event.sender event.roomId

/-- The user a state key belongs to: a user ID, alone or followed by an
underscore and anything. -/
def stateKeyOwner (stateKey : String) : Option String :=
  match splitFirst ':' stateKey.toList with
  | none => none
  | some (before,after) =>
    let owner := match splitFirst '_' after with
      | none => stateKey
      | some (host,_) => String.ofList (before ++ ':'::host)
    if UserID.isValid py owner then some owner else none

def canSetState (event : Event) (userLevel : ℤ) (authEvents : AuthMap) (stateKey : String) :
    Raises Unit :=
  let others := authError 403 "You are not allowed to set others state"
  if stateKey.toList.head? = some '@' ∧ stateKey ≠ event.sender then
    if event.roomVersion.msc3757Enabled then
      match stateKeyOwner py stateKey with
      | none => .error (synapseError 400
          "State key neither equals a valid user ID, nor starts with one plus an underscore"
          Codes.badJson)
      | some owner =>
        if owner = event.sender then .ok ()
        else do
          let ownerLevel ← getUserPowerLevel py owner authEvents
          raiseIf (userLevel ≤ ownerLevel) others
    else .error others
  else .ok ()

def canSendEvent (event : Event) (authEvents : AuthMap) : Raises Unit := do
  let sendLevel ← getSendLevel py event.type event.stateKey (getPowerLevelEvent authEvents)
  let userLevel ← getUserPowerLevel py event.sender authEvents
  raiseIf (userLevel < sendLevel) (authError 403
    ("You don't have permission to post that to the room. user_level (" ++ toString userLevel ++
      ") < send_level (" ++ toString sendLevel ++ ")") Codes.insufficientPower)
  match event.stateKey with
  | none => .ok ()
  | some stateKey => canSetState py event userLevel authEvents stateKey

/-- Whether the target's sender still has to be compared with the event's. -/
def checkRedaction (roomVersion : RoomVersion) (event : Event) (authEvents : AuthMap) :
    Raises Bool := do
  let userLevel ← getUserPowerLevel py event.sender authEvents
  let redactLevel ← getNamedLevel py authEvents "redact" 50
  if redactLevel ≤ userLevel then .ok false
  else if roomVersion.eventFormat = .roomV1V2 then do
    let redacterDomain ← getDomainFromId py event.eventId
    match event.redacts with
    | .str redacts => do
      let redacteeDomain ← getDomainFromId py redacts
      if redacterDomain = redacteeDomain then .ok true
      else .error (authError 403 "You don't have permission to redact events")
    | _ => .ok false
  else .ok true

end Rules

section PowerLevels

variable (py : Runtime)

def checkUserEntry (entry : String × Json) : Raises Unit := do
  raiseIf (UserID.fromString entry.1 = none)
    (synapseError 400 ("Not a valid user_id: " ++ entry.1))
  let _ ← orRaise (entry.2.toInt py.intOfString)
    (synapseError 400 ("Not a valid power level: " ++ py.str entry.2))
  .ok ()

def namedLevels : List String :=
  ["users_default","events_default","state_default","ban","redact","kick","invite"]

def isIntMapping : Json → Bool
  | .object d => d.all (fun entry => entry.2.isInt)
  | _ => false

def checkIntegerEntry (entry : String × Json) : Raises Unit := do
  raiseIf (entry.1 ∈ namedLevels ∧ entry.2.isInt = false)
    (synapseError 400 (py.repr entry.2 ++ " must be an integer."))
  raiseIf (entry.1 ∈ ["events","notifications","users"] ∧ isIntMapping entry.2 = false)
    (synapseError 400
      (py.repr entry.2 ++ " must be a dict wherein all the values are integers."))

/-- The part of the power level rules that looks at the new event alone. -/
def checkPowerLevelContent (roomVersion : RoomVersion) (event : Event) : Raises Unit := do
  let users ← Json.items (Json.getD event.content "users" (.object []))
  forEach (checkUserEntry py) users
  if event.type = EventTypes.powerLevels ∧ roomVersion.enforceIntPowerLevels then
    forEach (checkIntegerEntry py) event.content
  else .ok ()

def namesIn (old new : JsonDict) (dir : String) : Raises (List (Json × Option String)) := do
  let oldList ← Json.iter (Json.getD old dir (.object []))
  let newList ← Json.iter (Json.getD new dir (.object []))
  let names ← Json.toSet (oldList ++ newList)
  .ok (names.map (fun name => (name,some dir)))

def notificationsIn (roomVersion : RoomVersion) (old new : JsonDict) :
    Raises (List (Json × Option String)) :=
  if roomVersion.limitNotificationsPowerLevels then namesIn old new "notifications" else .ok []

def levelsToCheck (roomVersion : RoomVersion) (old new : JsonDict) :
    Raises (List (Json × Option String)) := do
  let users ← namesIn old new "users"
  let events ← namesIn old new "events"
  let notifications ← notificationsIn roomVersion old new
  .ok (namedLevels.map (fun name => (.str name,none)) ++ users ++ events ++ notifications)

def levelAt (state : JsonDict) (name : Json) (dir : Option String) : Raises (Option ℤ) := do
  let loc := match dir with
    | none => .object state
    | some dir => Json.getD state dir (.object [])
  let present ← Json.contains loc name
  if present then do
    let value ← Json.index loc name
    let level ← value.toInt py.intOfString
    .ok (some level)
  else .ok none

def checkLevel (sender : String) (userLevel : ℤ) (old new : JsonDict)
    (check : Json × Option String) : Raises Unit := do
  let oldLevel ← levelAt py old check.1 check.2
  let newLevel ← levelAt py new check.1 check.2
  if newLevel.isSome ∧ newLevel = oldLevel then .ok ()
  else do
    raiseIf (check.2 = some "users" ∧ check.1.isStr sender = false ∧ oldLevel = some userLevel)
      (authError 403 "You don't have permission to remove ops level equal to your own")
    raiseIf (oldLevel.any (fun level => userLevel < level) ∨
        newLevel.any (fun level => userLevel < level))
      (authError 403 "You don't have permission to add ops level greater than your own")

/-- The names of a section are a set in the source; here they are checked in
the order in which they were collected. -/
def checkPowerLevels (roomVersion : RoomVersion) (event : Event) (authEvents : AuthMap) :
    Raises Unit := do
  checkPowerLevelContent py roomVersion event
  let stateKey ← event.requireStateKey
  match authEvents.lookup (event.type,stateKey) with
  | none => .ok ()
  | some currentState => do
    let userLevel ← getUserPowerLevel py event.sender authEvents
    let levels ← levelsToCheck roomVersion currentState.content event.content
    forEach (checkLevel py event.sender userLevel currentState.content event.content) levels

end PowerLevels

end Synapse.EventAuth
