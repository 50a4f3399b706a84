import Synapse.Presence
import Synapse.SortedDict

/-!
# Federation send queue

What is to be sent over federation is queued in memory by position until the
sender instances have acknowledged it. Presence and keyed messages are kept
apart from their positions, so that a new value takes the place of the old one
at all of them.
-/

set_option autoImplicit false

namespace Synapse.FederationSendQueue

open Presence (UserPresenceState)

section Queue

variable (C : Type)

structure Edu where
  origin : String
  destination : String
  eduType : String
  content : C
  deriving DecidableEq

structure RemoteSendQueue where
  serverName : String
  senderInstances : List String
  senderPositions : Dict String ℕ
  presenceMap : Dict String UserPresenceState
  presenceDestinations : SortedDict ℕ (String × List String)
  keyedEdu : Dict (String × List String) (Edu C)
  keyedEduChanged : SortedDict ℕ (String × List String)
  edus : SortedDict ℕ (Edu C)
  pos : ℕ
  posTime : SortedDict ℕ ℕ

end Queue

variable {C : Type}

def start (serverName : String) (senderInstances : List String) : RemoteSendQueue C where
  serverName := serverName
  senderInstances := senderInstances
  senderPositions := ∅
  presenceMap := ∅
  presenceDestinations := .empty
  keyedEdu := ∅
  keyedEduChanged := .empty
  edus := .empty
  pos := 1
  posTime := .empty

def nextPos (now : ℕ) (q : RemoteSendQueue C) : ℕ × RemoteSendQueue C :=
  (q.pos,{ q with
    pos := q.pos+1
    posTime := q.posTime.set now q.pos })

/-- Values that no position refers to any more are deleted with the positions. -/
def clearQueueBeforePos (positionToDelete : ℕ) (q : RemoteSendQueue C) : RemoteSendQueue C :=
  let presenceDestinations := q.presenceDestinations.dropBefore positionToDelete
  let userIds := presenceDestinations.items.map (fun row => row.2.1)
  let keyedEduChanged := q.keyedEduChanged.dropBefore positionToDelete
  let liveKeys := keyedEduChanged.items.map Prod.snd
  { q with
    presenceDestinations := presenceDestinations
    presenceMap := Dict.filterKeys q.presenceMap (· ∈ userIds)
    keyedEduChanged := keyedEduChanged
    keyedEdu := Dict.filterKeys q.keyedEdu (· ∈ liveKeys)
    edus := q.edus.dropBefore positionToDelete }

/-- An empty key is none. -/
def buildAndSendEdu (now : ℕ) (destination eduType : String) (content : C)
    (key : Option (List String)) (q : RemoteSendQueue C) : RemoteSendQueue C :=
  if destination = q.serverName then q
  else
    let (pos,q) := nextPos now q
    let edu : Edu C := ⟨q.serverName,destination,eduType,content⟩
    match key with
    | none | some [] => { q with edus := q.edus.set pos edu }
    | some (part::parts) =>
      { q with
        keyedEdu := q.keyedEdu.insert (destination,part::parts) edu
        keyedEduChanged := q.keyedEduChanged.set pos (destination,part::parts) }

/-- All of the states are put in the map with each of their positions. -/
def sendPresenceToDestinations (now : ℕ) (states : List UserPresenceState)
    (destinations : List String) (q : RemoteSendQueue C) : RemoteSendQueue C :=
  states.foldl (fun q state =>
    let (pos,q) := nextPos now q
    { q with
      presenceMap := states.foldl (fun presenceMap state => presenceMap.insert state.userId state)
        q.presenceMap
      presenceDestinations := q.presenceDestinations.set pos (state.userId,destinations) }) q

/-- The least position that was acknowledged last by an instance heard from. -/
def minPosition (senderPositions : Dict String ℕ) (token : ℕ) : ℕ :=
  (Dict.values senderPositions).foldr min token

def federationAck (instanceName : String) (token : ℕ) (q : RemoteSendQueue C) :
    RemoteSendQueue C :=
  if q.senderInstances = [] then clearQueueBeforePos token q
  else
    let senderPositions := q.senderPositions.insert instanceName token
    clearQueueBeforePos (minPosition senderPositions token)
      { q with senderPositions := senderPositions }

inductive Row (C : Type) where
  | presence (state : UserPresenceState) (destinations : List String)
  | keyedEdu (key : List String) (edu : Edu C)
  | edu (edu : Edu C)

def rowAt (q : RemoteSendQueue C) (pos : ℕ) : Option (Row C) :=
  match q.presenceDestinations.get pos,q.keyedEduChanged.get pos,q.edus.get pos with
  | some (userId,destinations),_,_ =>
    (q.presenceMap.lookup userId).map (Row.presence · destinations)
  | none,some (destination,key),_ =>
    (q.keyedEdu.lookup (destination,key)).map (Row.keyedEdu key)
  | none,none,some edu => some (.edu edu)
  | none,none,none => none

end Synapse.FederationSendQueue
