import Synapse.Dict
import Synapse.Python
import Synapse.RoomVersions

/-!
# Events and room state

The fields of an event that the auth rules and state resolution read, the
identifiers in them and the state map they are checked against. What the code
takes from outside the repository is collected in `Runtime`.
-/

set_option autoImplicit false

namespace Synapse
open Python

inductive Engine where
  | postgres
  | sqlite
  deriving DecidableEq

structure Event where
  eventId : String
  roomId : String
  sender : String
  type : String
  stateKey : Option String
  content : JsonDict
  prevEventIds : List String
  authEventIds : List String
  originServerTs : ℤ
  topLevelRedacts : Json
  roomVersion : RoomVersion
  rejectedReason : Option String

namespace EventTypes
def member : String := "m.room.member"
def create : String := "m.room.create"
def joinRules : String := "m.room.join_rules"
def powerLevels : String := "m.room.power_levels"
def aliases : String := "m.room.aliases"
def redaction : String := "m.room.redaction"
def thirdPartyInvite : String := "m.room.third_party_invite"
def roomHistoryVisibility : String := "m.room.history_visibility"
def dummy : String := "org.matrix.dummy_event"
end EventTypes

namespace EventContentFields
def federate : String := "m.federate"
def roomCreator : String := "creator"
def authorisingUser : String := "join_authorised_via_users_server"
end EventContentFields

namespace Membership
def invite : String := "invite"
def join : String := "join"
def knock : String := "knock"
def leave : String := "leave"
def ban : String := "ban"
end Membership

namespace JoinRules
def isPublic : String := "public"
def knock : String := "knock"
def invite : String := "invite"
def restricted : String := "restricted"
def knockRestricted : String := "knock_restricted"
end JoinRules

namespace Codes
def unknown : String := "M_UNKNOWN"
def forbidden : String := "M_FORBIDDEN"
def badJson : String := "M_BAD_JSON"
def alreadyJoined : String := "ORG.MATRIX.MSC3848.ALREADY_JOINED"
def notJoined : String := "ORG.MATRIX.MSC3848.NOT_JOINED"
def insufficientPower : String := "ORG.MATRIX.MSC3848.INSUFFICIENT_POWER"
end Codes

inductive SynapseError where
  | synapseError (code : ℕ) (msg errcode : String)
  | authError (code : ℕ) (msg errcode : String)
  deriving DecidableEq

abbrev Raises (α : Type) := Py SynapseError α

def synapseError (code : ℕ) (msg : String) (errcode : String := Codes.unknown) :
    Exn SynapseError :=
  .raised (.synapseError code msg errcode)

def authError (code : ℕ) (msg : String) (errcode : String := Codes.forbidden) :
    Exn SynapseError :=
  .raised (.authError code msg errcode)

/-- How the check of a signed third-party invite with one key ends: verified,
with an exception the caller swallows, or with another one. -/
inductive Verification where
  | verified
  | swallowed
  | raises (error : Exn SynapseError)

/-- Python's integer parser and formatting of values, the address check for
IPv6 literals and the signature check. -/
structure Runtime where
  intOfString : String → Option ℤ
  str : Json → String
  repr : Json → String
  reprEvent : Option Event → String
  validIpv6 : String → Bool
  verify : JsonDict → String → String → Json → Verification

instance : Inhabited Runtime :=
  ⟨fun _ => none,fun _ => "",fun _ => "",fun _ => "",fun _ => false,fun _ _ _ _ => .swallowed⟩

abbrev StateKey := String × String

instance : LawfulBEq StateKey := inferInstance

abbrev StateMap (α : Type) := Dict StateKey α

namespace Event

def membership (event : Event) : Raises Json := Json.item event.content "membership"

/-- `event.state_key`, which is missing on events that are not state. -/
def requireStateKey (event : Event) : Raises String :=
  match event.stateKey with
  | some key => .ok key
  | none => .error .attributeError

def redacts (event : Event) : Json :=
  if event.roomVersion.updatedRedactionRules then Json.getD event.content "redacts" .null
  else event.topLevelRedacts

end Event

def splitFirst (sep : Char) : List Char → Option (List Char × List Char)
  | [] => none
  | c::cs =>
    if c = sep then some ([],cs) else (splitFirst sep cs).map (fun parts => (c::parts.1,parts.2))

def splitLast (sep : Char) (cs : List Char) : Option (List Char × List Char) :=
  (splitFirst sep cs.reverse).map (fun parts => (parts.2.reverse,parts.1.reverse))

def splitAll (sep : Char) : List Char → List (List Char)
  | [] => [[]]
  | c::cs =>
    if c = sep then []::splitAll sep cs
    else
      match splitAll sep cs with
      | [] => [[c]]
      | part::parts => (c::part)::parts

def getDomainFromId (py : Runtime) (id : String) : Raises String :=
  match splitFirst ':' id.toList with
  | some (_,domain) => .ok (String.ofList domain)
  | none => .error (synapseError 400 ("Invalid ID: " ++ py.repr (.str id)))

namespace UserID

def fromString (s : String) : Option (String × String) :=
  match s.toList with
  | '@'::rest =>
    (splitFirst ':' rest).map (fun parts => (String.ofList parts.1,String.ofList parts.2))
  | _ => none

def hostChar (c : Char) : Bool := c.isAlphanum || c = '-'

def validHost (host : List Char) : Bool :=
  (splitAll '.' host).all (fun label => label ≠ [] && label.all hostChar)

def inside (host : List Char) : List Char := host.tail.dropLast

def validHostPart (py : Runtime) (host : List Char) : Bool :=
  if host.head? = some '[' then
    host.getLast? = some ']' && inside host ≠ [] && py.validIpv6 (String.ofList (inside host))
  else validHost host

def parseAndValidateServerName (py : Runtime) (serverName : String) : Bool :=
  let name := serverName.toList
  if name.getLast? = some ']' then validHostPart py name
  else
    match splitLast ':' name with
    | none => validHostPart py name
    | some (host,port) => (py.intOfString (String.ofList port)).isSome && validHostPart py host

def isValid (py : Runtime) (s : String) : Bool :=
  match fromString s with
  | some (_,domain) => parseAndValidateServerName py domain
  | none => false

end UserID

end Synapse
