import Synapse.PresenceHandler

/-!
# The combination of the devices

The state of a user is that of a device of the greatest priority. Operations
that change the states of devices combine them again, and the others change
neither the state of the user nor the combination.
-/

set_option autoImplicit false

namespace Synapse.Presence
open List Dict Option AList

def rank (device : UserDevicePresenceState) : ℕ ×ₗ ℕ :=
  toLex (device.state.priority,device.lastActiveTs)

def better (best : PresenceState × ℤ) (device : UserDevicePresenceState) : PresenceState × ℤ :=
  if isAfter device.state.priority device.lastActiveTs best.1.priority best.2 then
    (device.state,device.lastActiveTs)
  else best

theorem rank_le_iff (dev dev' : UserDevicePresenceState) :
    rank dev ≤ rank dev' ↔ ¬ isAfter dev.state.priority dev.lastActiveTs dev'.state.priority
        dev'.lastActiveTs := by
  rw [rank,rank,Prod.Lex.toLex_le_toLex,isAfter,decide_eq_true_eq]
  omega

theorem one_le_priority (st : PresenceState) : 1 ≤ st.priority := by
  cases st <;> decide

theorem priority_injective {st st' : PresenceState} (h : st.priority = st'.priority) :
    st = st' := by
  cases st <;> cases st' <;> first | rfl | simp [PresenceState.priority] at h

theorem better_none (dev : UserDevicePresenceState) :
    better (.offline,-1) dev = (dev.state,(dev.lastActiveTs : ℤ)) := by
  have ha : isAfter dev.state.priority dev.lastActiveTs 1 (-1) := by
    have ho := one_le_priority dev.state
    rw [isAfter,decide_eq_true_eq]
    omega
  exact if_pos ha

theorem foldl_better (first : UserDevicePresenceState) (devs : List UserDevicePresenceState) :
    ∃ dev ∈ first::devs, devs.foldl better (first.state,(first.lastActiveTs : ℤ)) =
      (dev.state,(dev.lastActiveTs : ℤ)) ∧ ∀ o ∈ first::devs, rank o ≤ rank dev := by
  induction devs using reverseRecOn with
  | nil => exact ⟨first,by simp,rfl,by simp⟩
  | append_singleton devs la ih =>
    obtain ⟨dev,hmem,hb,hm⟩ := ih
    rw [foldl_append,hb]
    change ∃ dev' ∈ _, better (dev.state,(dev.lastActiveTs : ℤ)) la = _ ∧ _
    rw [better]
    split
    · rename_i ha
      have hle : rank dev ≤ rank la := by
        by_contra hlt
        exact (rank_le_iff la dev).mp (not_le.mp hlt).le ha
      refine ⟨la,by simp,rfl,fun o ho => ?_⟩
      rcases mem_append.mp (show o ∈ (first::devs) ++ [la] from ho) with h | h
      · exact (hm o h).trans hle
      · rw [mem_singleton.mp h]
    · rename_i ha
      refine ⟨dev,?_,rfl,fun o ho => ?_⟩
      · exact (show dev ∈ (first::devs) ++ [la] from mem_append_left _ hmem)
      · rcases mem_append.mp (show o ∈ (first::devs) ++ [la] from ho) with h | h
        · exact hm o h
        · rw [mem_singleton.mp h]
          exact (rank_le_iff la dev).mpr ha

variable {devices : List UserDevicePresenceState}

theorem combineDeviceStates_max (h : devices ≠ []) :
    ∃ dev ∈ devices, combineDeviceStates devices = dev.state ∧
      ∀ o ∈ devices, rank o ≤ rank dev := by
  cases devices with
  | nil => exact absurd rfl h
  | cons first devices =>
    obtain ⟨dev,hm,hb,hmax⟩ := foldl_better first devices
    refine ⟨dev,hm,?_,hmax⟩
    change (devices.foldl better (better (.offline,-1) first)).1 = _
    rw [better_none,hb]

theorem priority_combineDeviceStates_le (devices : List UserDevicePresenceState) (p : ℕ) :
    (combineDeviceStates devices).priority ≤ p ↔
      1 ≤ p ∧ ∀ dev ∈ devices, dev.state.priority ≤ p := by
  by_cases hn : devices = []
  · subst hn
    simp [combineDeviceStates,PresenceState.priority]
  · obtain ⟨dev,hm,hs,hmax⟩ := combineDeviceStates_max hn
    rw [hs]
    constructor
    · intro hle
      refine ⟨(one_le_priority dev.state).trans hle,fun o ho => ?_⟩
      have hr := hmax o ho
      rw [rank,rank,Prod.Lex.toLex_le_toLex] at hr
      omega
    · exact fun ha => ha.2 dev hm

variable {devs' : List UserDevicePresenceState}

theorem combineDeviceStates_congr (h : ∀ p, 1 ≤ p → ((∀ dev ∈ devices, dev.state.priority ≤ p) ↔
      ∀ dev ∈ devs', dev.state.priority ≤ p)) :
    combineDeviceStates devices = combineDeviceStates devs' := by
  apply priority_injective
  apply eq_of_forall_ge_iff
  intro p
  rw [priority_combineDeviceStates_le,priority_combineDeviceStates_le]
  constructor
  · exact fun ha => ⟨ha.1,(h p ha.1).mp ha.2⟩
  · exact fun ha => ⟨ha.1,(h p ha.1).mpr ha.2⟩

theorem combineDeviceStates_perm (h : devices.Perm devs') :
    combineDeviceStates devices = combineDeviceStates devs' := by
  apply combineDeviceStates_congr
  intro p _
  simp only [h.mem_iff]

theorem combineDeviceStates_insert (uid : String) (did : Option String) (devices : Devices)
    {f : UserDevicePresenceState → UserDevicePresenceState}
    (hf : ∀ dev, (f dev).state = dev.state) :
    combineDeviceStates (values (devices.insert did
      (f ((devices.lookup did).getD (.default uid did))))) =
        combineDeviceStates (values devices) := by
  apply combineDeviceStates_congr
  intro p hp
  simp only [mem_values,forall_exists_index]
  constructor
  · intro ha dev key hk
    by_cases hd : key = did
    · subst hd
      have hs := ha _ key (by rw [lookup_set,if_pos rfl])
      rw [hf,hk] at hs
      exact hs
    · exact ha dev key (by rw [lookup_set,if_neg hd,hk])
  · intro ha dev key hk
    rw [lookup_set] at hk
    split at hk
    · rw [← some.inj hk,hf]
      cases ho : devices.lookup did with
      | none => exact hp
      | some old => exact ha old did ho
    · exact ha dev key hk

section Updates

variable (now : ℕ) (persist : Bool)

theorem handleNotOffline_state (u : Updated) :
    (handleNotOffline now persist u).state.state = u.state.state ∧
      (handleNotOffline now persist u).state.userId = u.state.userId := by
  rw [handleNotOffline]
  split
  · dsimp only
    split <;> exact ⟨rfl,rfl⟩
  · exact ⟨rfl,rfl⟩

theorem handleBusy_state (u : Updated) : (handleBusy now persist u).state = u.state := by
  rw [handleBusy]
  split <;> rfl

theorem handleChange_state (ps : UserPresenceState) (u : Updated) :
    (handleChange now ps u).state.state = u.state.state ∧
      (handleChange now ps u).state.userId = u.state.userId := by
  rw [handleChange]
  split <;> exact ⟨rfl,rfl⟩

theorem handleUpdate_state (ps ns : UserPresenceState) (isMine : Bool)
    (wheelTimer : WheelTimer String) :
    (handleUpdate now persist ps ns isMine wheelTimer).state.state = ns.state ∧
      (handleUpdate now persist ps ns isMine wheelTimer).state.userId = ns.userId := by
  rw [handleUpdate,(handleChange_state now ps _).1,(handleChange_state now ps _).2]
  cases isMine with
  | true =>
    rw [if_pos rfl,handleBusy_state,(handleNotOffline_state now persist _).1,
      (handleNotOffline_state now persist _).2]
    rw [handleOnline]
    split <;> exact ⟨rfl,rfl⟩
  | false => exact ⟨rfl,rfl⟩

end Updates

section Timeouts

variable (now : ℕ) (syncing : List (String × Option String))

variable {devices : Devices} {state : UserPresenceState}

theorem timedOutDevices_of_unchanged {uid : String}
    (h : deviceChanged now uid syncing devices = false) (did : Option String) :
    (timedOutDevices now uid syncing devices).lookup did = devices.lookup did := by
  rw [timedOutDevices,lookup_filter,lookup_mapValues]
  cases hl : devices.lookup did with
  | none => rfl
  | some dev =>
    have hr := any_eq_false.mp h ⟨did,dev⟩ (mem_lookup_iff.mp hl)
    simp only [decide_eq_true_eq,not_or,not_not,Bool.not_eq_true] at hr
    rw [map_some,hr.1,filter_some]
    rw [← hr.1,hr.2]
    rfl

theorem recombine_spec (state : UserPresenceState) (deviceChanged : Bool) (np : PresenceState)
    (h : deviceChanged = false → np = state.state) :
    (recombine state deviceChanged np).1.state = np ∧
      ((recombine state deviceChanged np).2 = false → np = state.state) := by
  rw [recombine]
  split
  · exact ⟨rfl,fun hf => by cases hf⟩
  · rename_i hs
    have hp : np = state.state := by
      cases deviceChanged with
      | false => exact h rfl
      | true =>
        by_contra hne
        exact hs ⟨rfl,hne⟩
    exact ⟨hp.symm,fun _ => hp⟩

theorem handleTimeout_combined (h : state.state = combineDeviceStates (values devices)) :
    ((handleTimeout now state true syncing devices).1.getD state).state =
      combineDeviceStates (values (handleTimeout now state true syncing devices).2) := by
  rw [handleTimeout]
  split
  · exact h
  · rw [if_pos rfl]
    have hs := recombine_spec state (deviceChanged now state.userId syncing devices)
      (combineDeviceStates (values (timedOutDevices now state.userId syncing devices)))
      (fun hu => (combineDeviceStates_congr (fun p _ => by
        simp only [mem_values,timedOutDevices_of_unchanged now syncing hu])).trans h.symm)
    dsimp only
    split
    · exact hs.1
    · rename_i hn
      exact (hs.2 (Bool.not_eq_true _ |>.mp (fun hc => hn (.inl hc)))).symm

theorem handleTimeout_userId {st' : UserPresenceState} {isMine : Bool}
    (h : (handleTimeout now state isMine syncing devices).1 = some st') :
    st'.userId = state.userId := by
  rw [handleTimeout] at h
  split at h
  · cases h
  · split at h
    · dsimp only at h
      split at h
      · rw [← some.inj h,recombine]
        split <;> rfl
      · cases h
    · split at h
      · rw [← some.inj h]
      · cases h

theorem handleTimeout_empty (state : UserPresenceState) (isMine : Bool) :
    (handleTimeout now state isMine syncing ∅).2 = ∅ := by
  rw [handleTimeout]
  split
  · rfl
  · split
    · rfl
    · split <;> rfl

def checked (now : ℕ) (isMineFn : String → Bool) (syncing : List (String × Option String))
    (userToDevices : Dict String Devices) (state : UserPresenceState) :
    Option UserPresenceState × Devices :=
  handleTimeout now state (isMineFn state.userId) syncing
    ((userToDevices.lookup state.userId).getD ∅)

theorem timeoutUser_lookup (mine : String → Bool)
    (acc : Dict String UserPresenceState × Dict String Devices) (state : UserPresenceState)
    (uid : String) :
    (timeoutUser now mine syncing acc state).1.lookup uid =
      (if uid = state.userId then
        (checked now mine syncing acc.2 state).1.or (acc.1.lookup uid)
      else acc.1.lookup uid) ∧
    ((timeoutUser now mine syncing acc state).2.lookup uid).getD ∅ =
      if uid = state.userId then (checked now mine syncing acc.2 state).2
      else (acc.2.lookup uid).getD ∅ := by
  rw [timeoutUser]
  constructor
  · rw [checked]
    cases handleTimeout now state (mine state.userId) syncing
      ((acc.2.lookup state.userId).getD ∅) with
    | mk ns devices =>
      cases ns with
      | none => simp
      | some ns => simp [lookup_set]
  · change (lookup uid (if state.userId ∈ acc.2 then
      acc.2.insert state.userId (checked now mine syncing acc.2 state).2 else acc.2)).getD ∅ = _
    split
    · rw [lookup_set]
      split <;> rfl
    · next hm =>
      split
      · rename_i hu
        rw [hu,checked,lookup_eq_none.mpr hm]
        exact (handleTimeout_empty now syncing state _).symm
      · rfl

theorem foldl_timeoutUser_other (mine : String → Bool) (sts : List UserPresenceState)
    (acc : Dict String UserPresenceState × Dict String Devices) {uid : String}
    (h : ∀ state ∈ sts, state.userId ≠ uid) :
    (sts.foldl (timeoutUser now mine syncing) acc).1.lookup uid = acc.1.lookup uid ∧
    ((sts.foldl (timeoutUser now mine syncing) acc).2.lookup uid).getD ∅ =
      (acc.2.lookup uid).getD ∅ := by
  induction sts generalizing acc with
  | nil => exact ⟨rfl,rfl⟩
  | cons state sts ih =>
    obtain ⟨hc,hd⟩ := ih (timeoutUser now mine syncing acc state) (fun s hs => h s (by simp [hs]))
    obtain ⟨hc',hd'⟩ := timeoutUser_lookup now syncing mine acc state uid
    have hne : uid ≠ state.userId := fun heq => h state (by simp) heq.symm
    rw [if_neg hne] at hc' hd'
    exact ⟨hc.trans hc',hd.trans hd'⟩

theorem foldl_timeoutUser_mem (mine : String → Bool) (sts : List UserPresenceState)
    (acc : Dict String UserPresenceState × Dict String Devices)
    (hn : (sts.map UserPresenceState.userId).Nodup) (hst : state ∈ sts)
    (hnew : acc.1.lookup state.userId = none) :
    (sts.foldl (timeoutUser now mine syncing) acc).1.lookup state.userId =
      (checked now mine syncing acc.2 state).1 ∧
    ((sts.foldl (timeoutUser now mine syncing) acc).2.lookup state.userId).getD ∅ =
      (checked now mine syncing acc.2 state).2 := by
  induction sts generalizing acc with
  | nil => cases hst
  | cons first sts ih =>
    rw [map_cons,nodup_cons] at hn
    rw [foldl_cons]
    obtain ⟨hc,hd⟩ := timeoutUser_lookup now syncing mine acc first state.userId
    rcases mem_cons.mp hst with rfl | hr
    · obtain ⟨hc',hd'⟩ := foldl_timeoutUser_other now syncing mine sts
        (timeoutUser now mine syncing acc state) (fun s hs heq =>
          hn.1 (mem_map.mpr ⟨s,hs,heq⟩))
      rw [if_pos rfl] at hc hd
      rw [hc',hd',hc,hd,hnew,or_none]
      exact ⟨rfl,rfl⟩
    · have hne : state.userId ≠ first.userId := fun heq => hn.1 (mem_map.mpr ⟨state,hr,heq⟩)
      rw [if_neg hne] at hc hd
      have hch := ih (timeoutUser now mine syncing acc first) hn.2 hr (hc.trans hnew)
      rw [checked,hd] at hch
      exact hch

theorem handleTimeouts_combined (mine : String → Bool) (sts : List UserPresenceState)
    (utd : Dict String Devices) (hno : (sts.map UserPresenceState.userId).Nodup)
    (hst : ∀ state ∈ sts, mine state.userId → state.state = .offline ∨
      state.state = combineDeviceStates (values ((utd.lookup state.userId).getD ∅))) :
    (∀ state ∈ (handleTimeouts now sts mine syncing utd).1,
      mine state.userId → state.state = combineDeviceStates (values
        (((handleTimeouts now sts mine syncing utd).2.lookup state.userId).getD ∅))) ∧
    ∀ uid, mine uid → (∀ state ∈ (handleTimeouts now sts mine syncing utd).1,
        state.userId ≠ uid) → combineDeviceStates (values
        (((handleTimeouts now sts mine syncing utd).2.lookup uid).getD ∅)) =
        combineDeviceStates (values ((utd.lookup uid).getD ∅)) := by
  have hch : ∀ state ∈ sts, _ := fun state hs =>
    foldl_timeoutUser_mem now syncing mine sts (∅,utd) hno hs (lookup_empty _)
  have hot : ∀ uid, (∀ state ∈ sts, state.userId ≠ uid) → _ := fun uid hne =>
    foldl_timeoutUser_other now syncing mine sts (∅,utd) hne
  -- a user with a change has been checked
  have hk : ∀ uid state, (sts.foldl (timeoutUser now mine syncing)
      (∅,utd)).1.lookup uid = some state → ∃ st' ∈ sts, st'.userId = uid ∧ state.userId = uid ∧
          (checked now mine syncing utd st').1 = some state := by
    intro uid state hl
    by_cases hmem : ∃ st' ∈ sts, st'.userId = uid
    · obtain ⟨st',hs',rfl⟩ := hmem
      rw [(hch st' hs').1] at hl
      exact ⟨st',hs',rfl,handleTimeout_userId now syncing hl,hl⟩
    · have hn := (hot uid (fun st' hs' heq => hmem ⟨st',hs',heq⟩)).1
      rw [hl] at hn
      simp at hn
  constructor
  · intro state hs hm
    obtain ⟨uid,hl⟩ := (mem_values _ _).mp hs
    obtain ⟨st',hs',hu,hid,hc⟩ := hk uid state hl
    have hd := (hch st' hs').2
    rw [hu] at hd
    rw [hid] at hm ⊢
    change _ = combineDeviceStates (values (((sts.foldl (timeoutUser now mine syncing)
      (∅,utd)).2.lookup uid).getD ∅))
    rw [hd]
    rw [checked,hu,hm] at hc ⊢
    rcases hst st' hs' (hu ▸ hm) with ho | hco
    · rw [handleTimeout,if_pos ho] at hc
      cases hc
    · rw [hu] at hco
      have hr := handleTimeout_combined now syncing hco
      rw [hc] at hr
      exact hr
  · intro uid hm hn
    change combineDeviceStates (values (((sts.foldl (timeoutUser now mine syncing)
      (∅,utd)).2.lookup uid).getD ∅)) = _
    by_cases hmem : ∃ state ∈ sts, state.userId = uid
    · obtain ⟨state,hs,rfl⟩ := hmem
      obtain ⟨hcn,hd⟩ := hch state hs
      have hun : (checked now mine syncing utd state).1 = none := by
        rw [eq_none_iff_forall_ne_some]
        intro st' hc
        have hv := (mem_values _ _).mpr ⟨state.userId,hcn.trans hc⟩
        exact hn st' hv (handleTimeout_userId now syncing hc)
      rw [hd]
      rw [checked,hm] at hun ⊢
      rcases hst state hs hm with ho | hco
      · rw [handleTimeout,if_pos ho]
      · have hr := handleTimeout_combined now syncing hco
        rw [hun] at hr
        exact hr.symm.trans hco
    · rw [(hot uid (fun state hs heq => hmem ⟨state,hs,heq⟩)).2]

end Timeouts

namespace PresenceHandler

variable (c : Config) (now : ℕ)

theorem lookup_statesByUser (sts : List UserPresenceState) :
    All (fun uid st => st.userId = uid ∧ st ∈ sts) (statesByUser sts) ∧
      ∀ st ∈ sts, st.userId ∈ statesByUser sts := by
  obtain ⟨ha,hm⟩ := foldl_set_spec UserPresenceState.userId id sts
  refine ⟨fun uid st hs => ?_,hm⟩
  obtain ⟨st',hs',hu,rfl⟩ := ha uid st hs
  exact ⟨hu,hs'⟩

variable {userId : String}

theorem lookup_foldl_updateState (nss : List UserPresenceState) (h : PresenceHandler)
    {st : UserPresenceState}
    (hs : (nss.foldl (updateState c now) h).userToCurrentState.lookup userId = some st) :
    (∃ ns ∈ nss, ns.userId = userId ∧ st.userId = userId ∧ st.state = ns.state) ∨
    (h.userToCurrentState.lookup userId = some st ∧ ∀ ns ∈ nss, ns.userId ≠ userId) := by
  induction nss using reverseRecOn with
  | nil => exact .inr ⟨hs,fun ns hm => by cases hm⟩
  | append_singleton nss la ih =>
    rw [foldl_append] at hs
    change ((updateState c now _ la).userToCurrentState).lookup userId = some st at hs
    rw [updateState,lookup_set] at hs
    split at hs
    · rename_i hu
      obtain ⟨hl,hid⟩ := handleUpdate_state now (!c.trackPresence)
        (((nss.foldl (updateState c now) h).userToCurrentState.lookup la.userId).getD
          (.default la.userId)) la (c.isMineId la.userId)
        (nss.foldl (updateState c now) h).wheelTimer
      rw [← some.inj hs]
      exact .inl ⟨la,by simp,hu.symm,hid.trans hu.symm,hl⟩
    · rename_i hu
      rcases ih hs with ⟨ns,hm,hn⟩ | ⟨hold,ho⟩
      · exact .inl ⟨ns,mem_append_left _ hm,hn⟩
      · exact .inr ⟨hold,forall_mem_append.mpr ⟨ho,forall_mem_singleton.mpr (Ne.symm hu)⟩⟩

theorem lookup_updateStates (ht : c.trackPresence) (nss : List UserPresenceState)
    (h : PresenceHandler) {st : UserPresenceState}
    (hs : (updateStates c now nss h).userToCurrentState.lookup userId = some st) :
    (∃ ns ∈ nss, ns.userId = userId ∧ st.userId = userId ∧ st.state = ns.state) ∨
    (h.userToCurrentState.lookup userId = some st ∧ ∀ ns ∈ nss, ns.userId ≠ userId) := by
  have he : c.presenceEnabled := by
    have ht := of_decide_eq_true ht
    simp [Config.presenceEnabled,ht]
  obtain ⟨hl,ha⟩ := lookup_statesByUser nss
  rw [updateStates,if_neg (by simp [he])] at hs
  rcases lookup_foldl_updateState c now _ h hs with ⟨ns,hm,hn⟩ | ⟨hold,ho⟩
  · obtain ⟨key,hk⟩ := (mem_values _ _).mp hm
    exact .inl ⟨ns,(hl key ns hk).2,hn⟩
  · refine .inr ⟨hold,fun ns hm hu => ?_⟩
    obtain ⟨la,hlo⟩ := mem_iff_lookup.mp (ha ns hm)
    exact ho la ((mem_values _ _).mpr ⟨_,hlo⟩) ((hl _ la hlo).1.trans hu)

theorem mem_updateStates (nss : List UserPresenceState) (h : PresenceHandler)
    (hm : userId ∈ h.userToCurrentState) :
    userId ∈ (updateStates c now nss h).userToCurrentState := by
  rw [updateStates]
  split
  · exact hm
  · apply foldlRecOn (motive := fun h : PresenceHandler => userId ∈ h.userToCurrentState) _ _ hm
    intro h hm ns _
    exact Dict.mem_set.mpr (.inr hm)

section Invariant

/-- The state of each local user in memory is the combination of their devices,
and users syncing on other processes are in memory. -/
structure Combined (h : PresenceHandler) : Prop where
  keyed : ∀ userId state, h.userToCurrentState.lookup userId = some state →
    state.userId = userId
  combined : ∀ userId state, c.isMineId userId → h.userToCurrentState.lookup userId = some state →
    state.state = combineDeviceStates (values (h.devices userId))
  external : ∀ processId rows, h.externalProcessToCurrentSyncs.lookup processId = some rows →
    ∀ row ∈ rows, row.1 ∈ h.userToCurrentState

variable {c now}

theorem Combined.updateStates (ht : c.trackPresence) {h : PresenceHandler} (hc : Combined c h)
    (h' : PresenceHandler) (hs : h'.userToCurrentState = h.userToCurrentState)
    (he : ∀ pid rws, h'.externalProcessToCurrentSyncs.lookup pid = some rws →
      ∀ row ∈ rws, row.1 ∈ h.userToCurrentState) {nss : List UserPresenceState}
    (hnew : ∀ st ∈ nss, c.isMineId st.userId →
      st.state = combineDeviceStates (values (h'.devices st.userId)))
    (ho : ∀ userId, c.isMineId userId → (∀ st ∈ nss, st.userId ≠ userId) →
      combineDeviceStates (values (h'.devices userId)) =
        combineDeviceStates (values (h.devices userId))) :
    Combined c (PresenceHandler.updateStates c now nss h') := by
  constructor
  · intro userId st hst
    rcases lookup_updateStates c now ht nss h' hst with
      ⟨_,_,_,hu,_⟩ | ⟨hold,_⟩
    · exact hu
    · rw [hs] at hold
      exact hc.keyed userId st hold
  · intro userId st hm hst
    rw [devices_updateStates]
    rcases lookup_updateStates c now ht nss h' hst with
      ⟨newState,hmem,rfl,_,heq⟩ | ⟨hold,hn⟩
    · rw [heq]
      exact hnew newState hmem hm
    · rw [hs] at hold
      rw [ho userId hm hn]
      exact hc.combined userId st hm hold
  · intro pid rws hr row hrow
    apply mem_updateStates
    rw [hs]
    obtain ⟨sts,timer,heq⟩ := updateStates_eq c now nss h'
    rw [heq] at hr
    exact he pid rws hr row hrow

theorem Combined.setSyncs {h : PresenceHandler} (hc : Combined c h)
    (cts : Dict (String × Option String) ℕ) (upd : Dict String ℕ) :
    Combined c { h with
      userDeviceToNumCurrentSyncs := cts
      externalProcessLastUpdatedMs := upd } :=
  ⟨hc.keyed,hc.combined,hc.external⟩

end Invariant

section Operations

variable {c now} {stored : String → Option UserPresenceState} {h : PresenceHandler}
  {userId : String} {deviceId : Option String}

theorem currentStateForUser_of_mem (stored : String → Option UserPresenceState)
    (hm : userId ∈ h.userToCurrentState) :
    ∃ st, h.userToCurrentState.lookup userId = some st ∧
      currentStateForUser stored userId h = (st,h) := by
  obtain ⟨st,hs⟩ := mem_iff_lookup.mp hm
  refine ⟨st,hs,?_⟩
  rw [currentStateForUser,hs]

section

variable (ht : c.trackPresence)
include ht

section

variable (hc : Combined c h)
include hc

theorem Combined.recombine (f : UserDevicePresenceState → UserDevicePresenceState)
    {st : UserPresenceState} (hu : st.userId = userId) (hs : st.state = combineDeviceStates
      (values ((updateDevice userId deviceId f h).devices userId))) :
    Combined c (PresenceHandler.updateStates c now [st] (updateDevice userId deviceId f h)) := by
  apply hc.updateStates ht (updateDevice userId deviceId f h) rfl hc.external
  · intro ns hm _
    rw [mem_singleton.mp hm,hu]
    exact hs
  · intro uid' _ hn
    have hne : uid' ≠ userId := fun heq => hn st (by simp) (hu.trans heq.symm)
    rw [devices_updateDevice,if_neg hne]

theorem Combined.noteSyncs {sts : List UserPresenceState}
    (hs : ∀ st ∈ sts, h.userToCurrentState.lookup st.userId = some st) (time : ℕ) :
    Combined c (PresenceHandler.updateStates c now
      (sts.map (fun st => { st with lastUserSyncTs := time })) h) := by
  apply hc.updateStates ht h rfl hc.external
  · intro ns hmem hm
    obtain ⟨st,hst,rfl⟩ := mem_map.mp hmem
    exact hc.combined st.userId st hm (hs st hst)
  · exact fun _ _ _ => rfl

theorem Combined.noteSync (now : ℕ)
    {st : UserPresenceState} (hs : h.userToCurrentState.lookup userId = some st) (time : ℕ) :
    Combined c (PresenceHandler.updateStates c now [{ st with lastUserSyncTs := time }] h) := by
  have hu := hc.keyed userId st hs
  have ha : ∀ st' ∈ [st], h.userToCurrentState.lookup st'.userId = some st' := by
    intro st' hs'
    rw [mem_singleton.mp hs',hu,hs]
  exact hc.noteSyncs ht ha time

section

variable (hm : userId ∈ h.userToCurrentState)
include hm

theorem combined_setState {pr : PresenceState} {statusMsg : Option String}
    {isSync : Bool} {h' : PresenceHandler}
    (hs : setState c stored now userId deviceId pr statusMsg isSync h = .ok h') :
    Combined c h' := by
  obtain ⟨ps,hp,hcu⟩ := currentStateForUser_of_mem stored hm
  rw [setState] at hs
  split at hs
  · cases hs
  · rw [if_neg (by simp [ht]),hcu] at hs
    rw [← Except.ok.inj hs]
    exact hc.recombine ht _ (hc.keyed userId ps hp) rfl

theorem combined_bumpPresenceActiveTime :
    Combined c (bumpPresenceActiveTime c stored now userId deviceId h) := by
  rw [bumpPresenceActiveTime,if_neg (by simp [ht])]
  dsimp only
  obtain ⟨ps,hp,hcu⟩ := currentStateForUser_of_mem (h := updateDevice userId deviceId
    (fun dev => { dev with
      lastActiveTs := now
      state := if dev.state = .unavailable then .online else dev.state }) h) stored hm
  rw [hcu]
  exact hc.recombine ht _ (hc.keyed userId ps hp) rfl

theorem combined_userSyncing (ap : Bool) (pr : PresenceState) :
    Combined c (userSyncing c stored now userId deviceId ap pr h).1 := by
  rw [userSyncing]
  split
  · exact hc
  · dsimp only
    have hco := hc.setSyncs (h.userDeviceToNumCurrentSyncs.insert (userId,deviceId)
        ((h.userDeviceToNumCurrentSyncs.lookup (userId,deviceId)).getD 0+1))
      h.externalProcessLastUpdatedMs
    split
    · rename_i h' hs
      exact combined_setState ht hco hm hs
    · exact hco

theorem combined_endSync : Combined c (endSync c stored now userId deviceId h) := by
  rw [endSync]
  split
  · exact hc
  · rename_i count _
    have hco := hc.setSyncs (h.userDeviceToNumCurrentSyncs.insert (userId,deviceId) (count-1))
      h.externalProcessLastUpdatedMs
    obtain ⟨ps,hp,hcu⟩ := currentStateForUser_of_mem (h := { h with
      userDeviceToNumCurrentSyncs :=
        h.userDeviceToNumCurrentSyncs.insert (userId,deviceId) (count-1) }) stored hm
    dsimp only
    rw [hcu]
    exact hco.noteSync ht now hp now

end

end

end

theorem Combined.noteDeviceSync (hc : Combined c h) (userId : String) (deviceId : Option String)
    (time : ℕ) :
    Combined c (updateDevice userId deviceId (fun dev => { dev with lastSyncTs := time }) h) := by
  constructor
  · exact hc.keyed
  · intro uid' st hm hs
    rw [hc.combined uid' st hm hs,devices_updateDevice]
    split
    · rename_i hu
      rw [hu]
      exact (combineDeviceStates_insert userId deviceId (h.devices userId) (fun _ => rfl)).symm
    · rfl
  · exact hc.external

theorem Combined.setExternal (hc : Combined c h) (pid : String)
    {rws : List (String × Option String)} (hr : ∀ row ∈ rws, row.1 ∈ h.userToCurrentState) :
    Combined c { h with
      externalProcessToCurrentSyncs := h.externalProcessToCurrentSyncs.insert pid rws } := by
  refine ⟨hc.keyed,hc.combined,fun pid' rw' hr' => ?_⟩
  rw [lookup_set] at hr'
  split at hr'
  · rw [← some.inj hr']
    exact hr
  · exact hc.external pid' rw' hr'

theorem Combined.getExternal (hc : Combined c h) (pid : String) :
    ∀ row ∈ (h.externalProcessToCurrentSyncs.lookup pid).getD [], row.1 ∈ h.userToCurrentState := by
  cases hl : h.externalProcessToCurrentSyncs.lookup pid with
  | none => simp
  | some rw => exact hc.external pid rw hl

theorem combined_updateExternalSyncsRow (ht : c.trackPresence) (hc : Combined c h)
    (hm : userId ∈ h.userToCurrentState) (pid : String) (sy : Bool) (syncTimeMsec : ℕ) :
    Combined c (updateExternalSyncsRow c stored now pid userId deviceId sy syncTimeMsec h) := by
  obtain ⟨ps,hp,hcu⟩ := currentStateForUser_of_mem stored hm
  have hr := hc.getExternal pid
  rw [updateExternalSyncsRow,hcu]
  apply Combined.setSyncs
  split
  · exact hc.setExternal pid (forall_mem_cons.mpr ⟨hm,hr⟩)
  · split
    · have hn := (hc.noteDeviceSync userId deviceId syncTimeMsec).noteSync ht now hp syncTimeMsec
      apply hn.setExternal pid
      intro row hrow
      exact mem_updateStates c now _ _ (hr row (mem_filter.mp hrow).1)
    · exact hc.setExternal pid hr

theorem currentStateForUsers_of_mem (stored : String → Option UserPresenceState) (hc : Combined c h)
    {userIds : List String} (hm : ∀ userId ∈ userIds, userId ∈ h.userToCurrentState) :
    ∃ sts, currentStateForUsers stored userIds h = (sts,h) ∧
      ∀ st ∈ sts, h.userToCurrentState.lookup st.userId = some st := by
  induction userIds using reverseRecOn with
  | nil => exact ⟨[],rfl,by simp⟩
  | append_singleton userIds userId ih =>
    obtain ⟨sts,hst,hl⟩ := ih (fun uid' h => hm uid' (by simp [h]))
    obtain ⟨st,hs,hcu⟩ := currentStateForUser_of_mem stored (hm userId (by simp))
    refine ⟨sts ++ [st],?_,?_⟩
    · rw [currentStateForUsers] at hst ⊢
      rw [foldl_append,hst]
      change ((sts ++ [(currentStateForUser stored userId h).1]),
        (currentStateForUser stored userId h).2) = _
      rw [hcu]
    · intro st' hs'
      rcases mem_append.mp hs' with hm' | hm'
      · exact hl st' hm'
      · rw [mem_singleton.mp hm',hc.keyed userId st hs,hs]

theorem combined_updateExternalSyncsClear (ht : c.trackPresence) (hc : Combined c h)
    (pid : String) : Combined c (updateExternalSyncsClear c stored now pid h) := by
  have hr := hc.getExternal pid
  rw [updateExternalSyncsClear]
  -- the devices are noted first, then their users
  have hn : ∀ rws : List (String × Option String),
      Combined c (rws.foldl (fun h row => updateDevice row.1 row.2
        (fun dev => { dev with lastSyncTs := now }) h) { h with
          externalProcessToCurrentSyncs := h.externalProcessToCurrentSyncs.erase pid }) ∧
      (rws.foldl (fun h row => updateDevice row.1 row.2
        (fun dev => { dev with lastSyncTs := now }) h) { h with
          externalProcessToCurrentSyncs :=
            h.externalProcessToCurrentSyncs.erase pid }).userToCurrentState =
        h.userToCurrentState := by
    intro rws
    apply foldlRecOn (motive := fun h' : PresenceHandler =>
      Combined c h' ∧ h'.userToCurrentState = h.userToCurrentState)
    · refine ⟨⟨hc.keyed,hc.combined,fun pid' rw' hr' => ?_⟩,rfl⟩
      exact hc.external pid' rw' (pop_cases hr').2
    · intro h' hh' row _
      exact ⟨hh'.1.noteDeviceSync row.1 row.2 now,hh'.2⟩
  obtain ⟨hd,hs⟩ := hn ((h.externalProcessToCurrentSyncs.lookup pid).getD [])
  have hu : ∀ userId ∈ (((h.externalProcessToCurrentSyncs.lookup pid).getD []).map
      Prod.fst).dedup, userId ∈ h.userToCurrentState := by
    intro userId hus
    obtain ⟨row,hrow,rfl⟩ := mem_map.mp (mem_dedup.mp hus)
    exact hr row hrow
  rw [← hs] at hu
  obtain ⟨sts,hcu,hst⟩ := currentStateForUsers_of_mem stored hd hu
  rw [hcu]
  exact (hd.noteSyncs ht hst now).setSyncs _ _

theorem combined_handleTimeouts (ht : c.trackPresence) (hc : Combined c h) :
    Combined c (handleTimeouts c now h) := by
  rw [handleTimeouts]
  dsimp only
  generalize hdue : ((h.wheelTimer.fetch now).1 ++ (expiredProcessIds now h).flatMap
    (fun pid => ((h.externalProcessToCurrentSyncs.lookup pid).getD []).map Prod.fst)).dedup = users
  have hn : users.Nodup := hdue ▸ nodup_dedup _
  have hui : ∀ userId, ((h.userToCurrentState.lookup userId).getD (.default userId)).userId =
      userId := by
    intro userId
    cases hl : h.userToCurrentState.lookup userId with
    | none => rfl
    | some st => exact hc.keyed userId st hl
  obtain ⟨hch,ho⟩ := handleTimeouts_combined now
    (syncingUserDevices { h with
      wheelTimer := (h.wheelTimer.fetch now).2
      externalProcessToCurrentSyncs :=
        popAll h.externalProcessToCurrentSyncs (expiredProcessIds now h)
      externalProcessLastUpdatedMs :=
        popAll h.externalProcessLastUpdatedMs (expiredProcessIds now h) }) c.isMineId
    (users.map (fun userId => (h.userToCurrentState.lookup userId).getD (.default userId)))
    h.userToDeviceToCurrentState
    (by
      have hid : (UserPresenceState.userId ∘ fun userId =>
          (h.userToCurrentState.lookup userId).getD (.default userId)) = id := funext hui
      rw [List.map_map,hid,List.map_id]
      exact hn)
    (by
      intro st hs hm
      obtain ⟨userId,_,rfl⟩ := mem_map.mp hs
      rw [hui] at hm ⊢
      cases hl : h.userToCurrentState.lookup userId with
      | none => exact .inl rfl
      | some st => exact .inr (hc.combined userId st hm hl))
  apply Combined.updateStates ht hc
  · rfl
  · intro pid rws hl
    rw [lookup_popAll] at hl
    split at hl
    · cases hl
    · exact hc.external pid rws hl
  · exact hch
  · exact ho

end Operations

section Runs

variable {c now}

theorem combineDeviceStates_singleton (dev : UserDevicePresenceState) :
    combineDeviceStates [dev] = dev.state := by
  change (better (.offline,-1) dev).1 = _
  rw [better_none]

theorem combined_start (ht : c.trackPresence) (ap : List UserPresenceState) :
    Combined c (start c now ap) := by
  have hst := (lookup_statesByUser ap).1
  refine ⟨fun userId st hs => (hst userId st hs).1,?_,?_⟩
  · intro userId st _ hs
    change (statesByUser ap).lookup userId = some st at hs
    obtain ⟨ha,hm⟩ := foldl_set_spec UserPresenceState.userId
      (fun st => (∅ : Devices).insert none (pseudoDevice st)) (values (statesByUser ap))
    have hv := (mem_values _ _).mpr ⟨userId,hs⟩
    obtain ⟨devices,hd⟩ := mem_iff_lookup.mp (hm st hv)
    obtain ⟨st',hs',hu',rfl⟩ := ha _ devices hd
    -- the pseudo device is that of the state, since there is one state for each user
    obtain ⟨key,hkey⟩ := (mem_values _ _).mp hs'
    have hk : key = userId := by
      rw [← (hst key st' hkey).1,hu',(hst userId st hs).1]
    rw [hk,hs] at hkey
    rw [← some.inj hkey,(hst userId st hs).1] at hd
    have hp : (start c now ap).devices userId = (∅ : Devices).insert none (pseudoDevice st) := by
      rw [start,ht]
      change (AList.lookup userId (List.foldl _ ∅ _)).getD ∅ = _
      rw [hd]
      rfl
    rw [hp]
    exact (combineDeviceStates_singleton (pseudoDevice st)).symm
  · intro pid rws hr
    simp [start] at hr

def Op.InMemory (h : PresenceHandler) : Op → Prop
  | .setState userId _ _ _ _ | .bump userId _ | .startSync userId _ _ _ | .endSync userId _
  | .externalRow _ userId _ _ _ => userId ∈ h.userToCurrentState
  | .externalClear _ | .timeouts => True

variable {h : PresenceHandler}

theorem combined_perform (ht : c.trackPresence) (hc : Combined c h)
    (sd : String → Option UserPresenceState) (op : Op) (hop : op.InMemory h) :
    Combined c (perform c sd now op h) := by
  cases op with
  | setState userId did pr statusMsg isSync =>
    rw [perform]
    split
    · rename_i h' hs
      exact combined_setState ht hc hop hs
    · exact hc
  | bump userId did => exact combined_bumpPresenceActiveTime ht hc hop
  | startSync userId did ap pr =>
    exact combined_userSyncing ht hc hop ap pr
  | endSync userId did => exact combined_endSync ht hc hop
  | externalRow pid userId did sy syncTimeMsec =>
    exact combined_updateExternalSyncsRow ht hc hop pid sy syncTimeMsec
  | externalClear pid => exact combined_updateExternalSyncsClear ht hc pid
  | timeouts => exact combined_handleTimeouts ht hc

theorem Run.combined (ht : c.trackPresence) {clock : ℕ} {hi : List (ℕ × Op)}
    (hr : Run c (fun h _ op => op.InMemory h) clock hi h) : Combined c h := by
  induction hr with
  | start now ap => exact combined_start ht ap
  | step run now later sd op possible ad ih =>
    exact combined_perform ht ih sd op ad

/-- If presence is tracked, the state of a local user in memory is always the
combination of their devices: the state of a device of the greatest rank, in
whatever order the devices are, and offline for none. -/
theorem presence_is_combination (c : Config) (htracked : c.trackPresence) {clock : ℕ}
    {history : List (ℕ × Op)} (hrun : Run c (fun h _ op => op.InMemory h) clock history h) :
    (∀ userId state, c.isMineId userId → h.userToCurrentState.lookup userId = some state →
      state.state = combineDeviceStates (values (h.devices userId))) ∧
    combineDeviceStates [] = .offline ∧
    (∀ devices, devices ≠ [] → ∃ device ∈ devices, combineDeviceStates devices = device.state ∧
      ∀ other ∈ devices, rank other ≤ rank device) ∧
    ∀ devices devices', List.Perm devices devices' →
      combineDeviceStates devices = combineDeviceStates devices' :=
  ⟨(hrun.combined htracked).combined,rfl,fun _ hne => combineDeviceStates_max hne,
    fun _ _ hperm => combineDeviceStates_perm hperm⟩

def wasOnline : UserPresenceState := ⟨"@a:x",.online,0,0,0,none,true⟩

def secondDevice : PresenceHandler :=
  perform tracking (fun _ => none) 10
    (.setState "@a:x" (some "D") .unavailable none false) (start tracking 0 [wasOnline])

theorem presence_is_combination_secondDevice :
    (secondDevice.userToCurrentState.lookup "@a:x").map UserPresenceState.state = some .online ∧
    ∀ state, secondDevice.userToCurrentState.lookup "@a:x" = some state →
      state.state = combineDeviceStates (values (secondDevice.devices "@a:x")) :=
  ⟨by decide +kernel,fun state hstate =>
    (presence_is_combination tracking rfl (.step (.start 0 [wasOnline]) 10 (by decide)
      (fun _ => none) (.setState "@a:x" (some "D") .unavailable none false) trivial
      (by rw [Op.InMemory]; decide +kernel))).1 "@a:x" state rfl hstate⟩

def isUntracked : Config := { tracking with enabled := .untracked }

def bumpedUntracked : PresenceHandler :=
  perform isUntracked (fun _ => none) 10 (.bump "@a:x" none) (start isUntracked 0 [wasOnline])

/-- If presence is not tracked, there are no devices for the users in memory. -/
theorem presence_untracked_not_combination :
    Run isUntracked (fun h _ op => op.InMemory h) 10 [(10,.bump "@a:x" none)] bumpedUntracked ∧
    (bumpedUntracked.userToCurrentState.lookup "@a:x").map UserPresenceState.state = some .online ∧
    combineDeviceStates (values (bumpedUntracked.devices "@a:x")) = .offline := by
  refine ⟨?_,by decide +kernel,by decide +kernel⟩
  exact .step (.start 0 [wasOnline]) 10 (by decide) (fun _ => none) (.bump "@a:x" none) trivial
    (by rw [Op.InMemory]; decide +kernel)

end Runs

end PresenceHandler

end Synapse.Presence
