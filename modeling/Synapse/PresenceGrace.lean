import Synapse.PresenceHandler

/-!
# The grace period of a device

A device that is not syncing goes offline some time after it last synced or was
active. The time of a sync is noted for the device when the sync starts, so
that a device is given its full time after a sync only if the sync ends before
that time is running.
-/

set_option autoImplicit false

namespace Synapse.Presence
open Dict Option

section Timeouts

def SameTimes (device device' : UserDevicePresenceState) : Prop :=
  device'.lastSyncTs = device.lastSyncTs ∧ device'.lastActiveTs = device.lastActiveTs ∧
    onlineTimeout device'.state = onlineTimeout device.state

theorem SameTimes.refl (dev : UserDevicePresenceState) : SameTimes dev dev :=
  ⟨rfl,rfl,rfl⟩

theorem SameTimes.trans {a b d : UserDevicePresenceState} (h : SameTimes a b) (h' : SameTimes b d) :
    SameTimes a d :=
  ⟨h'.1.trans h.1,h'.2.1.trans h.2.1,h'.2.2.trans h.2.2⟩

theorem sameTimes_idled (now : ℕ) (dev : UserDevicePresenceState) :
    SameTimes dev (idled now dev) := by
  rw [idled]
  split
  · rename_i hi
    refine ⟨rfl,rfl,?_⟩
    rw [hi.1]
    rfl
  · exact .refl dev

def Expired (now : ℕ) (device : UserDevicePresenceState) : Prop :=
  now-max device.lastSyncTs device.lastActiveTs > onlineTimeout device.state

theorem SameTimes.expired {now : ℕ} {dev dev' : UserDevicePresenceState} (h : SameTimes dev dev')
    (he : Expired now dev') : Expired now dev := by
  rw [Expired,h.1,h.2.1,h.2.2] at he
  exact he

variable {now : ℕ} {uid : String} {sy : List (String × Option String)}

theorem lookup_timedOutDevices (devs : Devices) (did : Option String) :
    (timedOutDevices now uid sy devs).lookup did = ((devs.lookup did).map (idled now)).filter
        (fun dev => !isGone now uid sy did dev) := by
  rw [timedOutDevices,lookup_filter,lookup_mapValues]

structure TimesOut (now : ℕ) (devices devices' : Devices) : Prop where
  known : ∀ deviceId device', devices'.lookup deviceId = some device' →
    ∃ device, devices.lookup deviceId = some device ∧ SameTimes device device'
  kept : ∀ deviceId device, devices.lookup deviceId = some device → ¬ Expired now device →
    ∃ device', devices'.lookup deviceId = some device' ∧ SameTimes device device'

theorem TimesOut.refl (now : ℕ) (devs : Devices) : TimesOut now devs devs :=
  ⟨fun _ dev h => ⟨dev,h,.refl dev⟩,fun _ dev h _ => ⟨dev,h,.refl dev⟩⟩

theorem TimesOut.trans {devs devs' devs'' : Devices} (h : TimesOut now devs devs')
    (h' : TimesOut now devs' devs'') : TimesOut now devs devs'' := by
  constructor
  · intro did dev'' hd''
    obtain ⟨dev',hd',hs'⟩ := h'.known did dev'' hd''
    obtain ⟨dev,hd,hs⟩ := h.known did dev' hd'
    exact ⟨dev,hd,hs.trans hs'⟩
  · intro did dev hd he
    obtain ⟨dev',hd',hs⟩ := h.kept did dev hd he
    obtain ⟨dev'',hd'',hs'⟩ := h'.kept did dev' hd' (fun h => he (hs.expired h))
    exact ⟨dev'',hd'',hs.trans hs'⟩

theorem timesOut_timedOutDevices (devs : Devices) :
    TimesOut now devs (timedOutDevices now uid sy devs) := by
  constructor
  · intro did dev' hd'
    rw [lookup_timedOutDevices,filter_eq_some_iff,map_eq_some_iff] at hd'
    obtain ⟨⟨dev,hd,rfl⟩,-⟩ := hd'
    exact ⟨dev,hd,sameTimes_idled now dev⟩
  · intro did dev hd he
    refine ⟨idled now dev,?_,sameTimes_idled now dev⟩
    rw [lookup_timedOutDevices,hd,filter_eq_some_iff]
    refine ⟨rfl,?_⟩
    rw [isGone,Bool.not_eq_true',decide_eq_false_iff_not]
    exact fun hg => he ((sameTimes_idled now dev).expired hg.2)

theorem timesOut_handleTimeout (st : UserPresenceState) (isMine : Bool) (devs : Devices) :
    TimesOut now devs (handleTimeout now st isMine sy devs).2 := by
  rw [handleTimeout]
  split
  · exact .refl now devs
  · split
    · exact timesOut_timedOutDevices devs
    · split <;> exact .refl now devs

theorem timesOut_handleTimeouts (sts : List UserPresenceState) (mine : String → Bool)
    (utd : Dict String Devices) (uid : String) :
    TimesOut now ((utd.lookup uid).getD ∅)
      (((handleTimeouts now sts mine sy utd).2.lookup uid).getD ∅) := by
  apply List.foldlRecOn (motive := fun acc : Dict String UserPresenceState × Dict String Devices =>
    TimesOut now ((utd.lookup uid).getD ∅) ((acc.2.lookup uid).getD ∅))
  · exact .refl now _
  · intro acc ha st _
    rw [timeoutUser]
    dsimp only
    split
    · rw [lookup_set]
      split
      · rename_i hu
        rw [hu] at ha ⊢
        exact ha.trans (timesOut_handleTimeout st _ _)
      · exact ha
    · exact ha

end Timeouts

namespace PresenceHandler

variable (c : Config) (sd : String → Option UserPresenceState) {now : ℕ}

/-- What an operation on this process can do to the devices: a device is active
now, or it goes offline when it would have. -/
def Touches (now : ℕ) (h h' : PresenceHandler) : Prop :=
  ∀ userId deviceId device', (h'.devices userId).lookup deviceId = some device' →
    device'.lastActiveTs = now ∨
      ∃ device, (h.devices userId).lookup deviceId = some device ∧ SameTimes device device'

variable {h h' : PresenceHandler} {userId : String} {deviceId : Option String}

theorem Touches.of_devices (heq : ∀ userId, h'.devices userId = h.devices userId) :
    Touches now h h' := by
  intro userId deviceId dev hd
  rw [heq] at hd
  exact .inr ⟨dev,hd,.refl dev⟩

theorem touches_updateDevice (userId : String) (deviceId : Option String)
    {f : UserDevicePresenceState → UserDevicePresenceState} (hf : ∀ dev, (f dev).lastActiveTs = now)
    (h : PresenceHandler) : Touches now h (updateDevice userId deviceId f h) := by
  intro uid' did' dev' hd'
  rw [lookup_devices_updateDevice] at hd'
  split at hd'
  · rw [← some.inj hd']
    exact .inl (hf _)
  · exact .inr ⟨dev',hd',.refl dev'⟩

theorem Touches.before {h'' : PresenceHandler} (hb : ∀ userId, h'.devices userId = h.devices userId)
    (hs : Touches now h' h'') : Touches now h h'' := by
  intro userId deviceId dev hd
  rw [← hb]
  exact hs userId deviceId dev hd

theorem Touches.after {h'' : PresenceHandler} (hs : Touches now h h')
    (ha : ∀ userId, h''.devices userId = h'.devices userId) : Touches now h h'' := by
  intro userId deviceId dev hd
  rw [ha] at hd
  exact hs userId deviceId dev hd

theorem touches_setState {pr : PresenceState} {statusMsg : Option String} {isSync : Bool}
    (hs : setState c sd now userId deviceId pr statusMsg isSync h = .ok h') : Touches now h h' := by
  rw [setState] at hs
  split at hs
  · cases hs
  · split at hs
    · rw [← Except.ok.inj hs]
      exact .of_devices (fun _ => rfl)
    · rw [← Except.ok.inj hs]
      refine Touches.after ?_ (fun uid' => devices_updateStates c now _ _ uid')
      exact Touches.before (fun uid' => devices_currentStateForUser sd userId uid' h)
        (touches_updateDevice userId deviceId (fun _ => rfl) _)

theorem touches_bumpPresenceActiveTime (userId : String) (deviceId : Option String)
    (h : PresenceHandler) : Touches now h (bumpPresenceActiveTime c sd now userId deviceId h) := by
  rw [bumpPresenceActiveTime]
  split
  · exact .of_devices (fun _ => rfl)
  · have hd : Touches now h (updateDevice userId deviceId (fun dev => { dev with
        lastActiveTs := now
        state := if dev.state = .unavailable then .online else dev.state }) h) :=
      touches_updateDevice userId deviceId (fun _ => rfl) h
    apply hd.after
    intro uid'
    rw [devices_updateStates,devices_currentStateForUser]

theorem touches_userSyncing (userId : String) (deviceId : Option String) (ap : Bool)
    (pr : PresenceState) (h : PresenceHandler) :
    Touches now h (userSyncing c sd now userId deviceId ap pr h).1 := by
  rw [userSyncing]
  split
  · exact .of_devices (fun _ => rfl)
  · dsimp only
    split
    · rename_i h' hset
      have hs := touches_setState c sd hset
      exact Touches.before (fun _ => rfl) hs
    · exact .of_devices (fun _ => rfl)

theorem devices_endSync (userId uid' : String) (deviceId : Option String) (h : PresenceHandler) :
    (endSync c sd now userId deviceId h).devices uid' = h.devices uid' := by
  rw [endSync]
  split
  · rfl
  · rw [devices_updateStates,devices_currentStateForUser]
    rfl

theorem timesOut_devices (h : PresenceHandler) (userId : String) :
    TimesOut now (h.devices userId) ((handleTimeouts c now h).devices userId) := by
  rw [handleTimeouts]
  rw [devices_updateStates]
  exact timesOut_handleTimeouts _ _ _ userId

def Op.InProcess : Op → Prop
  | .externalRow _ _ _ _ _ | .externalClear _ => False
  | _ => True

theorem touches_perform (op : Op) (hop : op.InProcess) (h : PresenceHandler) :
    Touches now h (perform c sd now op h) := by
  cases op with
  | setState userId deviceId pr statusMsg isSync =>
    rw [perform]
    split
    · rename_i h' hs
      exact touches_setState c sd hs
    · exact .of_devices (fun _ => rfl)
  | bump userId deviceId => exact touches_bumpPresenceActiveTime c sd userId deviceId h
  | startSync userId deviceId ap pr =>
    exact touches_userSyncing c sd userId deviceId ap pr h
  | endSync userId deviceId =>
    exact .of_devices (fun uid' => devices_endSync c sd userId uid' deviceId h)
  | externalRow _ _ _ _ _ | externalClear _ => exact hop.elim
  | timeouts =>
    intro userId deviceId dev' hd'
    exact .inr ((timesOut_devices c h userId).known deviceId dev' hd')

def lastEnd (history : List (ℕ × Op)) (userId : String) (deviceId : Option String) : Option ℕ :=
  (history.find? (fun e => e.2 = .endSync userId deviceId)).map Prod.fst

/-- The device will not go offline before the time it is given after a sync that
ended at `e`. -/
def HasGrace (e : ℕ) (device : UserDevicePresenceState) : Prop :=
  e+syncOnlineTimeout ≤ max device.lastSyncTs device.lastActiveTs+onlineTimeout device.state

instance (e : ℕ) (device : UserDevicePresenceState) : Decidable (HasGrace e device) :=
  inferInstanceAs (Decidable (_ ≤ _))

/-- A sync ends while the device still has its full time. -/
def EndsInTime (h : PresenceHandler) (now : ℕ) : Op → Prop
  | .endSync userId deviceId => ((h.devices userId).lookup deviceId).all (HasGrace now ·)
  | _ => True

theorem syncOnlineTimeout_le (st : PresenceState) : syncOnlineTimeout ≤ onlineTimeout st := by
  rw [onlineTimeout]
  split
  · decide
  · exact le_refl _

theorem hasGrace_of_touches (hst : Touches now h h') {e : ℕ} (he : e ≤ now)
    (hg : ∀ dev, (h.devices userId).lookup deviceId = some dev → HasGrace e dev) :
    ∀ dev', (h'.devices userId).lookup deviceId = some dev' → HasGrace e dev' := by
  intro dev' hd'
  rcases hst userId deviceId dev' hd' with ha | ⟨dev,hd,hs⟩
  · have hle := syncOnlineTimeout_le dev'.state
    rw [HasGrace]
    omega
  · have ho := hg dev hd
    rw [HasGrace] at ho ⊢
    rw [hs.1,hs.2.1,hs.2.2]
    exact ho

theorem Run.hasGrace {clock : ℕ} {hi : List (ℕ × Op)}
    (hr : Run c (fun h now op => op.InProcess ∧ EndsInTime h now op) clock hi h) {e : ℕ}
    (he : lastEnd hi userId deviceId = some e) :
    e ≤ clock ∧ ∀ dev, (h.devices userId).lookup deviceId = some dev → HasGrace e dev := by
  induction hr with
  | start now ap => simp [lastEnd] at he
  | @step clock hi h run now later sd op possible admitted ih =>
    rw [lastEnd,List.find?_cons] at he
    by_cases hop : op = .endSync userId deviceId
    · -- the sync has just ended, in time
      simp only [hop,decide_true,map_some,some.injEq] at he
      subst hop he
      refine ⟨le_refl _,fun dev hd => ?_⟩
      rw [perform,devices_endSync] at hd
      have ht := admitted.2
      rw [EndsInTime,hd] at ht
      simpa using ht
    · simp only [hop] at he
      obtain ⟨hc,hg⟩ := ih he
      exact ⟨hc.trans later,hasGrace_of_touches (touches_perform c sd op admitted.1 h)
        (hc.trans later) hg⟩

/-- A device is not dropped before the time it is given after its last sync. -/
theorem device_kept_of_endsInTime {clock : ℕ} {history : List (ℕ × Op)}
    (hrun : Run c (fun h now op => op.InProcess ∧ EndsInTime h now op) clock history h) (now : ℕ)
    (userId : String) (deviceId : Option String) (e : ℕ)
    (hend : lastEnd history userId deviceId = some e) (hnow : now ≤ e+syncOnlineTimeout)
    (hdevice : deviceId ∈ h.devices userId) :
    deviceId ∈ (handleTimeouts c now h).devices userId := by
  obtain ⟨device,hlookup⟩ := mem_iff_lookup.mp hdevice
  have hgrace := (hrun.hasGrace c hend).2 device hlookup
  have hexpired : ¬ Expired now device := by
    rw [HasGrace] at hgrace
    rw [Expired]
    omega
  obtain ⟨device',hkept,-⟩ := (timesOut_devices c h userId).kept deviceId device hlookup hexpired
  exact mem_iff_lookup.mpr ⟨device',hkept⟩

def polling : PresenceHandler :=
  perform tracking (fun _ => none) 1000 (.startSync "@a:x" (some "D") true .online)
    (start tracking 0 [])

def polledActively : PresenceHandler :=
  perform tracking (fun _ => none) 60000 (.endSync "@a:x" (some "D"))
    (perform tracking (fun _ => none) 60000 (.bump "@a:x" (some "D")) polling)

theorem device_kept_of_endsInTime_polledActively :
    some "D" ∈ polledActively.devices "@a:x" ∧
    some "D" ∈ (handleTimeouts tracking 90000 polledActively).devices "@a:x" :=
  ⟨by decide +kernel,device_kept_of_endsInTime tracking
      (.step (.step (.step (.start 0 []) 1000 (by decide) (fun _ => none)
        (.startSync "@a:x" (some "D") true .online) trivial ⟨trivial,trivial⟩)
          60000 (by decide) (fun _ => none) (.bump "@a:x" (some "D")) trivial ⟨trivial,trivial⟩)
            60000 (by decide) (fun _ => none) (.endSync "@a:x" (some "D")) ⟨0,by decide +kernel⟩
            ⟨trivial,by rw [EndsInTime]; decide +kernel⟩)
      90000 "@a:x" (some "D") 60000 (by decide +kernel) (by decide) (by decide +kernel)⟩

def polled : PresenceHandler :=
  perform tracking (fun _ => none) 60000 (.endSync "@a:x" (some "D")) polling

/-- The device is dropped five seconds after the end of a sync. -/
theorem device_dropped_after_sync :
    Run tracking (fun _ _ op => op.InProcess) 60000
      [(60000,.endSync "@a:x" (some "D")),(1000,.startSync "@a:x" (some "D") true .online)] polled ∧
    polled.userDeviceToNumCurrentSyncs.lookup ("@a:x",some "D") = some 0 ∧
    some "D" ∈ polled.devices "@a:x" ∧ 65000 ≤ 60000+syncOnlineTimeout ∧
    some "D" ∉ (handleTimeouts tracking 65000 polled).devices "@a:x" := by
  refine ⟨?_,by decide +kernel,by decide +kernel,by decide,by decide +kernel⟩
  exact .step (.step (.start 0 []) 1000 (by decide) (fun _ => none)
    (.startSync "@a:x" (some "D") true .online) trivial trivial) 60000 (by decide) (fun _ => none)
    (.endSync "@a:x" (some "D")) ⟨0,by decide +kernel⟩ trivial

end PresenceHandler

end Synapse.Presence
