import Synapse.Dict
import Synapse.WheelTimer

/-!
# Presence

The states of users and of their devices, the combination of the states of the
devices, and what an update and the passing of time make of them.
-/

set_option autoImplicit false

namespace Synapse.Presence
open Dict

inductive PresenceState where
  | offline
  | unavailable
  | online
  | busy
  deriving DecidableEq

structure UserDevicePresenceState where
  userId : String
  deviceId : Option String
  state : PresenceState
  lastActiveTs : ℕ
  lastSyncTs : ℕ
  deriving DecidableEq

def UserDevicePresenceState.default (userId : String) (deviceId : Option String) :
    UserDevicePresenceState :=
  ⟨userId,deviceId,.offline,0,0⟩

structure UserPresenceState where
  userId : String
  state : PresenceState
  lastActiveTs : ℕ
  lastFederationUpdateTs : ℕ
  lastUserSyncTs : ℕ
  statusMsg : Option String
  currentlyActive : Bool
  deriving DecidableEq

def UserPresenceState.default (userId : String) : UserPresenceState :=
  ⟨userId,.offline,0,0,0,none,false⟩

def lastActiveGranularity : ℕ := 60*1000

def syncOnlineTimeout : ℕ := 30*1000

def busyOnlineTimeout : ℕ := 60*60*1000

def idleTimer : ℕ := 5*60*1000

def federationTimeout : ℕ := 30*60*1000

def federationPingInterval : ℕ := 25*60*1000

def externalProcessExpiry : ℕ := 5*60*1000

def PresenceState.priority : PresenceState → ℕ
  | .busy => 4
  | .online => 3
  | .unavailable => 2
  | .offline => 1

/-- `(p, t) > (q, u)` -/
def isAfter (p : ℕ) (t : ℤ) (q : ℕ) (u : ℤ) : Bool := q < p ∨ (q = p ∧ u < t)

def combineDeviceStates (deviceStates : List UserDevicePresenceState) : PresenceState :=
  (deviceStates.foldl (fun (best : PresenceState × ℤ) device =>
    if isAfter device.state.priority device.lastActiveTs best.1.priority best.2 then
      (device.state,device.lastActiveTs)
    else best) (.offline,-1)).1

abbrev Devices := Dict (Option String) UserDevicePresenceState

def shouldNotify (old new : UserPresenceState) : Bool :=
  if old = new then false
  else if old.statusMsg ≠ new.statusMsg then true
  else if old.state ≠ new.state then true
  else if old.state = .online then
    if new.currentlyActive ≠ old.currentlyActive then true
    else new.lastActiveTs-old.lastActiveTs > lastActiveGranularity ∧ !new.currentlyActive
  else new.lastActiveTs-old.lastActiveTs > lastActiveGranularity

/-- The outcome of an update: the state to keep, whether to persist and notify,
whether to send a ping over federation, and the timers. -/
structure Updated where
  state : UserPresenceState
  persistAndNotify : Bool
  federationPing : Bool
  wheelTimer : WheelTimer String

section HandleUpdate

variable (now : ℕ) (persist : Bool)

def insertTimer (wheelTimer : WheelTimer String) (userId : String) (due : ℕ) : WheelTimer String :=
  if persist then wheelTimer else wheelTimer.insert now userId due

def handleOnline (u : Updated) : Updated :=
  if u.state.state = .online then
    let userId := u.state.userId
    let active : Bool := now-u.state.lastActiveTs < lastActiveGranularity
    let wheelTimer := insertTimer now persist u.wheelTimer userId (u.state.lastActiveTs+idleTimer)
    { u with
      state := { u.state with currentlyActive := active }
      wheelTimer :=
        if active then
          insertTimer now persist wheelTimer userId (u.state.lastActiveTs+lastActiveGranularity)
        else wheelTimer }
  else u

def handleNotOffline (u : Updated) : Updated :=
  if u.state.state ≠ .offline then
    let u := { u with
      wheelTimer := insertTimer now persist u.wheelTimer u.state.userId
        (u.state.lastUserSyncTs+syncOnlineTimeout) }
    if now-u.state.lastFederationUpdateTs > federationPingInterval then
      { u with
        state := { u.state with lastFederationUpdateTs := now }
        federationPing := true }
    else u
  else u

def handleBusy (u : Updated) : Updated :=
  if u.state.state = .busy then
    { u with
      wheelTimer := insertTimer now persist u.wheelTimer u.state.userId
        (u.state.lastUserSyncTs+busyOnlineTimeout) }
  else u

/-- A change worth notifying about is sent to other servers as well. -/
def handleChange (prevState : UserPresenceState) (u : Updated) : Updated :=
  if shouldNotify prevState u.state then
    { u with
      state := { u.state with lastFederationUpdateTs := now }
      persistAndNotify := true }
  else u

def handleUpdate (prevState newState : UserPresenceState) (isMine : Bool)
    (wheelTimer : WheelTimer String) : Updated :=
  let u : Updated := ⟨newState,false,false,wheelTimer⟩
  handleChange now prevState
    (if isMine then
        handleBusy now persist (handleNotOffline now persist (handleOnline now persist u))
    else { u with
      wheelTimer := insertTimer now persist u.wheelTimer newState.userId
        (newState.lastFederationUpdateTs+federationTimeout) })

end HandleUpdate

section HandleTimeout

variable (now : ℕ)

def idled (device : UserDevicePresenceState) : UserDevicePresenceState :=
  if device.state = .online ∧ now-device.lastActiveTs > idleTimer then
    { device with state := .unavailable }
  else device

def onlineTimeout (state : PresenceState) : ℕ :=
  if state = .busy then busyOnlineTimeout else syncOnlineTimeout

instance lawfulBEqSyncKey : LawfulBEq (String × Option String) := inferInstance

/-- Whether a device has gone offline: it is not syncing and it has neither
synced nor been active for long. -/
def isGone (userId : String) (syncingDeviceIds : List (String × Option String))
    (deviceId : Option String) (device : UserDevicePresenceState) : Bool :=
  (userId,deviceId) ∉ syncingDeviceIds ∧
    now-max device.lastSyncTs device.lastActiveTs > onlineTimeout device.state

/-- The devices of a user after the time-outs. A device that became idle is
checked with its new state. -/
def timedOutDevices (userId : String) (syncingDeviceIds : List (String × Option String))
    (devices : Devices) : Devices :=
  filter (mapValues devices (idled now))
    (fun deviceId device => !isGone now userId syncingDeviceIds deviceId device)

def deviceChanged (userId : String) (syncingDeviceIds : List (String × Option String))
    (devices : Devices) : Bool :=
  devices.entries.any (fun row => idled now row.2 ≠ row.2 ∨
    isGone now userId syncingDeviceIds row.1 (idled now row.2))

def recombine (state : UserPresenceState) (deviceChanged : Bool) (newPresence : PresenceState) :
    UserPresenceState × Bool :=
  if deviceChanged ∧ newPresence ≠ state.state then ({ state with state := newPresence },true)
  else (state,false)

def handleTimeout (state : UserPresenceState) (isMine : Bool)
    (syncingDeviceIds : List (String × Option String)) (devices : Devices) :
    Option UserPresenceState × Devices :=
  if state.state = .offline then (none,devices)
  else if isMine then
    let timedOut := timedOutDevices now state.userId syncingDeviceIds devices
    let (state,changed) := recombine state
      (deviceChanged now state.userId syncingDeviceIds devices)
      (combineDeviceStates (values timedOut))
    (if changed ∨ now-state.lastActiveTs > lastActiveGranularity ∨
        now-state.lastFederationUpdateTs > federationPingInterval then some state else none,
      timedOut)
  else if now-state.lastFederationUpdateTs > federationTimeout then
    (some { state with state := .offline },devices)
  else (none,devices)

def timeoutUser (isMineFn : String → Bool) (syncingUserDevices : List (String × Option String))
    (acc : Dict String UserPresenceState × Dict String Devices) (state : UserPresenceState) :
    Dict String UserPresenceState × Dict String Devices :=
  let (newState,devices) := handleTimeout now state (isMineFn state.userId) syncingUserDevices
    ((acc.2.lookup state.userId).getD ∅)
  ((match newState with
    | some newState => acc.1.insert state.userId newState
    | none => acc.1),
    if state.userId ∈ acc.2 then acc.2.insert state.userId devices else acc.2)

def handleTimeouts (userStates : List UserPresenceState) (isMineFn : String → Bool)
    (syncingUserDevices : List (String × Option String)) (userToDevices : Dict String Devices) :
    List UserPresenceState × Dict String Devices :=
  let (changes,userToDevices) :=
    userStates.foldl (timeoutUser now isMineFn syncingUserDevices) (∅,userToDevices)
  (values changes,userToDevices)

end HandleTimeout

end Synapse.Presence
