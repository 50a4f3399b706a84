import Synapse.Events
import Synapse.Presence

/-!
# The presence handler

The state of each user, the states of their devices and the ongoing syncs, as
kept by the process that writes presence. Operations read the clock once.
Persisting, notifying and pinging other servers do not change any of these and
are left out.
-/

set_option autoImplicit false

namespace Synapse.Presence
open Dict

open Python (Exn)

inductive PresenceEnabled where
  | disabled
  | untracked
  | tracked
  deriving DecidableEq

structure Config where
  enabled : PresenceEnabled
  msc3026Enabled : Bool
  isMineId : String → Bool

def tracking : Config := ⟨.tracked,false,fun _ => true⟩

def Config.presenceEnabled (c : Config) : Bool := c.enabled ≠ .disabled

def Config.trackPresence (c : Config) : Bool := c.enabled = .tracked

def Config.validPresence (c : Config) : List PresenceState :=
  [.online,.unavailable,.offline] ++ if c.msc3026Enabled then [.busy] else []

structure PresenceHandler where
  userToCurrentState : Dict String UserPresenceState
  userToDeviceToCurrentState : Dict String Devices
  wheelTimer : WheelTimer String
  userDeviceToNumCurrentSyncs : Dict (String × Option String) ℕ
  externalProcessToCurrentSyncs : Dict String (List (String × Option String))
  externalProcessLastUpdatedMs : Dict String ℕ

namespace PresenceHandler

/-- `{state.user_id: state for state in states}` -/
def statesByUser (states : List UserPresenceState) : Dict String UserPresenceState :=
  states.foldl (fun byUser state => byUser.insert state.userId state) ∅

def startTimers (c : Config) (now : ℕ) (wheelTimer : WheelTimer String)
    (state : UserPresenceState) : WheelTimer String :=
  ((wheelTimer.insert now state.userId (state.lastActiveTs+idleTimer)).insert now state.userId
    (state.lastUserSyncTs+syncOnlineTimeout)).insert now state.userId
      (if c.isMineId state.userId then state.lastFederationUpdateTs+federationPingInterval
      else state.lastFederationUpdateTs+federationTimeout)

def pseudoDevice (state : UserPresenceState) : UserDevicePresenceState :=
  ⟨state.userId,none,state.state,state.lastActiveTs,state.lastUserSyncTs⟩

def start (c : Config) (now : ℕ) (activePresence : List UserPresenceState) : PresenceHandler :=
  let states := values (statesByUser activePresence)
  { userToCurrentState := statesByUser activePresence
    userToDeviceToCurrentState :=
      if c.trackPresence then
        states.foldl (fun devices state => devices.insert state.userId
          ((∅ : Devices).insert none (pseudoDevice state))) ∅
      else ∅
    wheelTimer :=
      if c.trackPresence then states.foldl (startTimers c now) (.empty 5000) else .empty 5000
    userDeviceToNumCurrentSyncs := ∅
    externalProcessToCurrentSyncs := ∅
    externalProcessLastUpdatedMs := ∅ }

variable (c : Config) (stored : String → Option UserPresenceState) (now : ℕ)

def devices (userId : String) (h : PresenceHandler) : Devices :=
  (h.userToDeviceToCurrentState.lookup userId).getD ∅

def updateDevice (userId : String) (deviceId : Option String)
    (f : UserDevicePresenceState → UserDevicePresenceState) (h : PresenceHandler) :
    PresenceHandler :=
  { h with
    userToDeviceToCurrentState := h.userToDeviceToCurrentState.insert userId
      ((h.devices userId).insert deviceId
        (f (((h.devices userId).lookup deviceId).getD (.default userId deviceId)))) }

/-- The state in memory, or else the stored one. If there is none, the default
is taken and put in memory. -/
def currentStateForUser (userId : String) (h : PresenceHandler) :
    UserPresenceState × PresenceHandler :=
  match h.userToCurrentState.lookup userId with
  | some state => (state,h)
  | none =>
    match stored userId with
    | some state => (state,h)
    | none => (.default userId,{ h with
        userToCurrentState := h.userToCurrentState.insert userId (.default userId) })

def currentStateForUsers (userIds : List String) (h : PresenceHandler) :
    List UserPresenceState × PresenceHandler :=
  userIds.foldl (fun acc userId =>
    let (state,h) := currentStateForUser stored userId acc.2
    (acc.1 ++ [state],h)) ([],h)

def updateState (h : PresenceHandler) (newState : UserPresenceState) : PresenceHandler :=
  let userId := newState.userId
  let prevState := (h.userToCurrentState.lookup userId).getD (.default userId)
  let u := handleUpdate now (!c.trackPresence) prevState newState (c.isMineId userId) h.wheelTimer
  { h with
    userToCurrentState := h.userToCurrentState.insert userId u.state
    wheelTimer := u.wheelTimer }

/-- Only the last of the new states of a user counts. -/
def updateStates (newStates : List UserPresenceState) (h : PresenceHandler) : PresenceHandler :=
  if !c.presenceEnabled then h
  else (values (statesByUser newStates)).foldl (updateState c now) h

def setState (userId : String) (deviceId : Option String) (presence : PresenceState)
    (statusMsg : Option String) (isSync : Bool) (h : PresenceHandler) :
    Except (Exn SynapseError) PresenceHandler :=
  if presence ∉ c.validPresence then .error (synapseError 400 "Invalid presence state")
  else if !c.trackPresence then .ok h
  else
    let (prevState,h) := currentStateForUser stored userId h
    -- syncs do not override a previous presence of busy
    let presence := if prevState.state = .busy ∧ isSync then .busy else presence
    let h := updateDevice userId deviceId (fun device => { device with
      state := presence
      lastActiveTs := now
      lastSyncTs := if isSync then now else device.lastSyncTs }) h
    let presence := combineDeviceStates (values (h.devices userId))
    .ok (updateStates c now [{ prevState with
      state := presence
      lastActiveTs := if presence = .online ∨ presence = .busy then now else prevState.lastActiveTs
      lastUserSyncTs := if isSync then now else prevState.lastUserSyncTs
      statusMsg := if isSync then prevState.statusMsg else statusMsg }] h)

def bumpPresenceActiveTime (userId : String) (deviceId : Option String) (h : PresenceHandler) :
    PresenceHandler :=
  if !c.trackPresence then h
  else
    let h := updateDevice userId deviceId (fun device => { device with
      lastActiveTs := now
      state := if device.state = .unavailable then .online else device.state }) h
    let (prevState,h) := currentStateForUser stored userId h
    updateStates c now [{ prevState with
      lastActiveTs := now
      state := combineDeviceStates (values (h.devices userId)) }] h

/-- The start of a sync. The sync is counted even if the state is not valid. -/
def userSyncing (userId : String) (deviceId : Option String) (affectPresence : Bool)
    (presenceState : PresenceState) (h : PresenceHandler) :
    PresenceHandler × Option (Exn SynapseError) :=
  if !affectPresence ∨ !c.trackPresence then (h,none)
  else
    let currSync := (h.userDeviceToNumCurrentSyncs.lookup (userId,deviceId)).getD 0
    let h := { h with
      userDeviceToNumCurrentSyncs :=
        h.userDeviceToNumCurrentSyncs.insert (userId,deviceId) (currSync+1) }
    match setState c stored now userId deviceId presenceState none true h with
    | .ok h => (h,none)
    | .error e => (h,some e)

/-- `_end` of a sync: the time of the sync is noted for the user and not for the
device. -/
def endSync (userId : String) (deviceId : Option String) (h : PresenceHandler) :
    PresenceHandler :=
  match h.userDeviceToNumCurrentSyncs.lookup (userId,deviceId) with
  | none => h
  | some count =>
    let h := { h with
      userDeviceToNumCurrentSyncs :=
        h.userDeviceToNumCurrentSyncs.insert (userId,deviceId) (count-1) }
    let (prevState,h) := currentStateForUser stored userId h
    updateStates c now [{ prevState with lastUserSyncTs := now }] h

def updateExternalSyncsRow (processId userId : String) (deviceId : Option String)
    (isSyncing : Bool) (syncTimeMsec : ℕ) (h : PresenceHandler) : PresenceHandler :=
  let (prevState,h) := currentStateForUser stored userId h
  let processPresence := (h.externalProcessToCurrentSyncs.lookup processId).getD []
  let setPresence := fun (processPresence : List (String × Option String)) (h : PresenceHandler) =>
    { h with
      externalProcessToCurrentSyncs :=
        h.externalProcessToCurrentSyncs.insert processId processPresence }
  let h :=
    if isSyncing ∧ (userId,deviceId) ∉ processPresence then
      setPresence ((userId,deviceId)::processPresence) h
    else if ¬ isSyncing ∧ (userId,deviceId) ∈ processPresence then
      let h := updateDevice userId deviceId (fun device => { device with
        lastSyncTs := syncTimeMsec }) h
      let h := updateStates c now [{ prevState with lastUserSyncTs := syncTimeMsec }] h
      setPresence (processPresence.filter (· ≠ (userId,deviceId))) h
    else setPresence processPresence h
  { h with
    externalProcessLastUpdatedMs := h.externalProcessLastUpdatedMs.insert processId now }

def updateExternalSyncsClear (processId : String) (h : PresenceHandler) : PresenceHandler :=
  let processPresence := (h.externalProcessToCurrentSyncs.lookup processId).getD []
  let h := { h with
    externalProcessToCurrentSyncs := h.externalProcessToCurrentSyncs.erase processId }
  let h := processPresence.foldl (fun h row =>
    updateDevice row.1 row.2 (fun device => { device with lastSyncTs := now }) h) h
  let (prevStates,h) := currentStateForUsers stored (processPresence.map Prod.fst).dedup h
  let h := updateStates c now
    (prevStates.map (fun prevState => { prevState with lastUserSyncTs := now })) h
  { h with externalProcessLastUpdatedMs := h.externalProcessLastUpdatedMs.erase processId }

def expiredProcessIds (h : PresenceHandler) : List String :=
  (h.externalProcessLastUpdatedMs.entries.filter (fun row =>
    now-row.2 > externalProcessExpiry)).map Sigma.fst

def syncingUserDevices (h : PresenceHandler) : List (String × Option String) :=
  (h.userDeviceToNumCurrentSyncs.entries.filter (fun row => row.2 ≠ 0)).map Sigma.fst ++
    (values h.externalProcessToCurrentSyncs).flatten

def handleTimeouts (h : PresenceHandler) : PresenceHandler :=
  let (due,wheelTimer) := h.wheelTimer.fetch now
  let expired := expiredProcessIds now h
  let usersToCheck := (due ++ expired.flatMap (fun processId =>
    ((h.externalProcessToCurrentSyncs.lookup processId).getD []).map Prod.fst)).dedup
  let h := { h with
    wheelTimer := wheelTimer
    externalProcessToCurrentSyncs := popAll h.externalProcessToCurrentSyncs expired
    externalProcessLastUpdatedMs := popAll h.externalProcessLastUpdatedMs expired }
  let states := usersToCheck.map (fun userId =>
    (h.userToCurrentState.lookup userId).getD (.default userId))
  let (changes,userToDevices) := Presence.handleTimeouts now states c.isMineId
    (syncingUserDevices h) h.userToDeviceToCurrentState
  updateStates c now changes { h with userToDeviceToCurrentState := userToDevices }

theorem updateStates_eq (nss : List UserPresenceState) (h : PresenceHandler) :
    ∃ sts timer, updateStates c now nss h = { h with
      userToCurrentState := sts
      wheelTimer := timer } := by
  rw [updateStates]
  split
  · exact ⟨h.userToCurrentState,h.wheelTimer,rfl⟩
  · apply List.foldlRecOn (motive := fun h' : PresenceHandler => ∃ sts timer, h' = { h with
      userToCurrentState := sts
      wheelTimer := timer })
    · exact ⟨h.userToCurrentState,h.wheelTimer,rfl⟩
    · rintro h' ⟨sts,timer,rfl⟩ ns _
      exact ⟨_,_,rfl⟩

theorem currentStateForUser_eq (uid : String) (h : PresenceHandler) :
    ∃ sts, (currentStateForUser stored uid h).2 = { h with userToCurrentState := sts } := by
  rw [currentStateForUser]
  split
  · exact ⟨h.userToCurrentState,rfl⟩
  · split
    · exact ⟨h.userToCurrentState,rfl⟩
    · exact ⟨_,rfl⟩

@[simp] theorem devices_updateStates (nss : List UserPresenceState) (h : PresenceHandler)
    (uid : String) : (updateStates c now nss h).devices uid = h.devices uid := by
  obtain ⟨sts,timer,heq⟩ := updateStates_eq c now nss h
  rw [heq]
  rfl

@[simp] theorem devices_currentStateForUser (uid uid' : String) (h : PresenceHandler) :
    ((currentStateForUser stored uid h).2).devices uid' = h.devices uid' := by
  obtain ⟨sts,heq⟩ := currentStateForUser_eq stored uid h
  rw [heq]
  rfl

theorem devices_updateDevice (uid uid' : String) (did : Option String)
    (f : UserDevicePresenceState → UserDevicePresenceState) (h : PresenceHandler) :
    (updateDevice uid did f h).devices uid' =
      if uid' = uid then (h.devices uid).insert did
        (f (((h.devices uid).lookup did).getD (.default uid did)))
      else h.devices uid' := by
  rw [devices,updateDevice,lookup_set]
  split <;> rfl

theorem lookup_devices_updateDevice (uid uid' : String) (did did' : Option String)
    (f : UserDevicePresenceState → UserDevicePresenceState) (h : PresenceHandler) :
    ((updateDevice uid did f h).devices uid').lookup did' =
      if uid' = uid ∧ did' = did then
        some (f (((h.devices uid).lookup did).getD (.default uid did)))
      else (h.devices uid').lookup did' := by
  rw [devices_updateDevice]
  by_cases hu : uid' = uid
  · rw [if_pos hu,lookup_set,hu]
    simp only [true_and]
  · simp [hu]

inductive Op where
  | setState (userId : String) (deviceId : Option String) (presence : PresenceState)
      (statusMsg : Option String) (isSync : Bool)
  | bump (userId : String) (deviceId : Option String)
  | startSync (userId : String) (deviceId : Option String) (affectPresence : Bool)
      (presence : PresenceState)
  | endSync (userId : String) (deviceId : Option String)
  | externalRow (processId userId : String) (deviceId : Option String) (isSyncing : Bool)
      (syncTimeMsec : ℕ)
  | externalClear (processId : String)
  | timeouts
  deriving DecidableEq

/-- An operation that raises leaves what it has changed before. -/
def perform : Op → PresenceHandler → PresenceHandler
  | .setState userId deviceId presence statusMsg isSync,h =>
    match setState c stored now userId deviceId presence statusMsg isSync h with
    | .ok h => h
    | .error _ => h
  | .bump userId deviceId,h => bumpPresenceActiveTime c stored now userId deviceId h
  | .startSync userId deviceId affectPresence presence,h =>
    (userSyncing c stored now userId deviceId affectPresence presence h).1
  | .endSync userId deviceId,h => endSync c stored now userId deviceId h
  | .externalRow processId userId deviceId isSyncing syncTimeMsec,h =>
    updateExternalSyncsRow c stored now processId userId deviceId isSyncing syncTimeMsec h
  | .externalClear processId,h => updateExternalSyncsClear c stored now processId h
  | .timeouts,h => handleTimeouts c now h

def Op.Possible (h : PresenceHandler) : Op → Prop
  | .endSync userId deviceId =>
    ∃ n, h.userDeviceToNumCurrentSyncs.lookup (userId,deviceId) = some (n+1)
  | _ => True

/-- What a handler has become at some time by operations that are admitted,
with those operations and their times, the last one first. What is stored may
be different at each of them. -/
inductive Run (admits : PresenceHandler → ℕ → Op → Prop) :
    ℕ → List (ℕ × Op) → PresenceHandler → Prop
  | start (now : ℕ) (activePresence : List UserPresenceState) :
    Run admits now [] (start c now activePresence)
  | step {clock : ℕ} {history : List (ℕ × Op)} {h : PresenceHandler}
      (run : Run admits clock history h) (now : ℕ) (later : clock ≤ now)
      (stored : String → Option UserPresenceState) (op : Op) (possible : op.Possible h)
      (admitted : admits h now op) :
    Run admits now ((now,op)::history) (perform c stored now op h)

end PresenceHandler

end Synapse.Presence
