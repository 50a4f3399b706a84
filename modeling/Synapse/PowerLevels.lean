import Synapse.AuthTypesCompleteness

/-!
# Power levels along a run

What one accepted power levels event can change, and from it what a run of
them can change: the greatest level of the room never grows, and nobody
changes the level of a user who is at or above their own.
-/

set_option autoImplicit false

namespace Synapse.EventAuth
open Python List Option

variable (py : Runtime)

def usersOf (content : JsonDict) : JsonDict :=
  match Json.getD content "users" (.object []) with
  | .object users => users
  | _ => []

def toInt? (v : Json) : Option ℤ :=
  (v.toInt py.intOfString : Raises ℤ).toOption

def explicitLevel (content : JsonDict) (user : String) : Option ℤ :=
  ((usersOf content).lookup user).bind (toInt? py)

def defaultLevel (content : JsonDict) : ℤ :=
  ((content.lookup "users_default").bind (toInt? py)).getD 0

def allLevels (content : JsonDict) : List ℤ :=
  0::defaultLevel py content::
    (usersOf content).filterMap (fun entry => explicitLevel py content entry.1)

def topLevel (content : JsonDict) : ℤ := ((allLevels py content).max?).getD 0

variable {py}

theorem lookup_mem {d : JsonDict} {key : String} {v : Json} (h : d.lookup key = some v) :
    (key,v) ∈ d := by
  induction d with
  | nil => simp at h
  | cons e d ih =>
    obtain ⟨k,w⟩ := e
    rw [lookup_cons] at h
    by_cases hk : key = k
    · subst hk
      simp at h
      simp [h]
    · simp only [beq_false_of_ne hk] at h
      exact mem_cons_of_mem _ (ih h)

theorem topLevel_greatest (py : Runtime) (co : JsonDict) :
    topLevel py co ∈ allLevels py co ∧
    ∀ lv ∈ allLevels py co, lv ≤ topLevel py co := by
  unfold topLevel
  cases h : (allLevels py co).max? with
  | none => simp [allLevels] at h
  | some lv => exact max?_eq_some_iff.mp h

theorem explicitLevel_le {co : JsonDict} {u : String} {lv : ℤ}
    (h : explicitLevel py co u = some lv) : lv ≤ topLevel py co := by
  apply (topLevel_greatest py co).2
  obtain ⟨v,hv,-⟩ := bind_eq_some_iff.mp h
  have hm : lv ∈ (usersOf co).filterMap (fun e => explicitLevel py co e.1) :=
    mem_filterMap.mpr ⟨(u,v),lookup_mem hv,h⟩
  simp [allLevels,hm]

theorem zero_le_topLevel (co : JsonDict) : 0 ≤ topLevel py co :=
  (topLevel_greatest py co).2 0 (by simp [allLevels])

theorem defaultLevel_le (co : JsonDict) : defaultLevel py co ≤ topLevel py co :=
  (topLevel_greatest py co).2 _ (by simp [allLevels])

theorem topLevel_le {co : JsonDict} {bd : ℤ} (hz : 0 ≤ bd) (hd : defaultLevel py co ≤ bd)
    (hu : ∀ u lv, explicitLevel py co u = some lv → lv ≤ bd) : topLevel py co ≤ bd := by
  have hm := (topLevel_greatest py co).1
  simp only [allLevels,mem_cons,mem_filterMap] at hm
  rcases hm with h | h | ⟨e,-,h⟩
  · exact h ▸ hz
  · exact h ▸ hd
  · exact hu e.1 _ h

section Accepted

variable {m : AuthMap} {prev ev : Event}

variable {ct : JsonDict} {u : String} {v : Json}

theorem toInt?_eq_some {n : ℤ} :
    toInt? py v = some n ↔ (v.toInt py.intOfString : Raises ℤ) = .ok n := by
  unfold toInt?
  cases (v.toInt py.intOfString : Raises ℤ) <;> simp [Except.toOption]

theorem defaultLevel_getD {n : ℤ}
    (h : ((Json.getD ct "users_default" (.int 0)).toInt py.intOfString : Raises ℤ) = .ok n) :
    defaultLevel py ct = n := by
  unfold defaultLevel
  cases hl : ct.lookup "users_default" with
  | none => simpa [Json.getD,hl,Json.toInt] using h
  | some v =>
    simp only [Json.getD,hl,getD_some] at h
    simp [toInt?_eq_some.mpr h]

theorem get_users
    (h : (Json.get (Json.getD ct "users" (.object [])) u .null : Raises Json) = .ok v) :
    Json.getD ct "users" (.object []) = .object (usersOf ct) ∧
      ((usersOf ct).lookup u).getD .null = v := by
  unfold usersOf
  cases hu : Json.getD ct "users" (.object []) with
  | object uz =>
    rw [hu] at h
    exact ⟨rfl,Except.ok.inj h⟩
  | null | bool _ | int _ | float _ | str _ | array _ => simp [hu,Json.get] at h

theorem getUserPowerLevel_le {lv : ℤ} (hp : getPowerLevelEvent m = some prev)
    (h : getUserPowerLevel py u m = .ok lv) : lv ≤ topLevel py prev.content := by
  simp only [getUserPowerLevel,hp] at h
  obtain ⟨v,hv,h⟩ := bind_eq_ok.mp h
  split at h
  · cases h
    exact zero_le_topLevel _
  · by_cases hn : v = .null
    · subst hn
      exact defaultLevel_getD h ▸ defaultLevel_le _
    · have hor : v.orElse (Json.getD prev.content "users_default" (.int 0)) = v := by
        cases v <;> simp_all [Json.orElse]
      rw [hor] at h
      obtain ⟨-,hl⟩ := get_users hv
      have he : explicitLevel py prev.content u = some lv := by
        unfold explicitLevel
        cases hu : (usersOf prev.content).lookup u with
        | none => simp [hu] at hl; exact absurd hl.symm hn
        | some w =>
          simp only [hu,getD_some] at hl
          rw [hl]
          exact toInt?_eq_some.mpr h
      exact explicitLevel_le he

theorem checkLevel_ok {sn : String} {ul : ℤ} {old new : JsonDict} {check : Json × Option String}
    (h : checkLevel py sn ul old new check = .ok ()) :
    ∃ oldLevel nl, levelAt py old check.1 check.2 = .ok oldLevel ∧
      levelAt py new check.1 check.2 = .ok nl ∧ (nl.isSome = true ∧ nl = oldLevel ∨
        ¬ (check.2 = some "users" ∧ check.1.isStr sn = false ∧ oldLevel = some ul) ∧
        (∀ lv, oldLevel = some lv → lv ≤ ul) ∧ ∀ lv, nl = some lv → lv ≤ ul) := by
  obtain ⟨oldLevel,ho,h⟩ := bind_eq_ok.mp h
  obtain ⟨nl,hn,h⟩ := bind_eq_ok.mp h
  refine ⟨oldLevel,nl,ho,hn,?_⟩
  split at h
  · next hs => exact .inl hs
  · right
    obtain ⟨⟨⟩,he,h⟩ := bind_eq_ok.mp h
    have hb := raiseIf_eq_ok.mp h
    rw [not_or] at hb
    refine ⟨raiseIf_eq_ok.mp he,?_,?_⟩
    · rintro lv rfl
      simpa using hb.1
    · rintro lv rfl
      simpa using hb.2

theorem iter_users {names : List Json} {uz : JsonDict}
    (hu : Json.getD ct "users" (.object []) = .object uz)
    (h : (Json.iter (Json.getD ct "users" (.object [])) : Raises (List Json)) = .ok names) :
    ∀ u v, uz.lookup u = some v → Json.str u ∈ names := by
  intro u v hv
  rw [hu] at h
  cases h
  exact List.mem_map.mpr ⟨(u,v),lookup_mem hv,rfl⟩

theorem levelAt_users {uz : JsonDict} {lv : Option ℤ}
    (hu : Json.getD ct "users" (.object []) = .object uz)
    (h : levelAt py ct (.str u) (some "users") = .ok lv) : lv = explicitLevel py ct u := by
  simp only [levelAt,hu,Json.contains,Json.index,Json.item] at h
  have hus : usersOf ct = uz := by simp [usersOf,hu]
  rw [explicitLevel,hus]
  cases hl : uz.lookup u with
  | none => simpa [hl] using h.symm
  | some v =>
    simp only [hl,ok_bind] at h
    obtain ⟨n,hn,h⟩ := bind_eq_ok.mp h
    cases h
    exact (toInt?_eq_some.mpr hn).symm

theorem levelAt_default {lv : Option ℤ} (h : levelAt py ct (.str "users_default") none = .ok lv) :
    defaultLevel py ct = lv.getD 0 := by
  simp only [levelAt,Json.contains,Json.index,Json.item] at h
  unfold defaultLevel
  cases hl : ct.lookup "users_default" with
  | none =>
    simp only [hl] at h
    cases h
    rfl
  | some v =>
    simp only [hl,ok_bind] at h
    obtain ⟨n,hn,h⟩ := bind_eq_ok.mp h
    cases h
    simp [toInt?_eq_some.mpr hn]

theorem users_checked {ver : RoomVersion} {old new oldUsers nu : JsonDict}
    {lvs : List (Json × Option String)} (h : levelsToCheck ver old new = .ok lvs)
    (ho : Json.getD old "users" (.object []) = .object oldUsers)
    (hnew : Json.getD new "users" (.object []) = .object nu)
    (hu : oldUsers.lookup u = some v ∨ nu.lookup u = some v) : (Json.str u,some "users") ∈ lvs := by
  obtain ⟨uz,hus,h⟩ := bind_eq_ok.mp h
  obtain ⟨evs,-,h⟩ := bind_eq_ok.mp h
  obtain ⟨notifications,-,h⟩ := bind_eq_ok.mp h
  cases h
  obtain ⟨oldNames,hon,hus⟩ := bind_eq_ok.mp hus
  obtain ⟨newNames,hnn,hus⟩ := bind_eq_ok.mp hus
  obtain ⟨names,hn,hus⟩ := bind_eq_ok.mp hus
  cases hus
  have hm : Json.str u ∈ oldNames ++ newNames := by
    rcases hu with hu | hu
    · exact mem_append_left _ (iter_users ho hon u v hu)
    · exact mem_append_right _ (iter_users hnew hnn u v hu)
  simp [Json.str_mem_toSet hn hm]

theorem accepted_levels (hk : WellKeyed m) (hp : m.lookup (EventTypes.powerLevels,"") = some prev)
    (ht : ev.type = EventTypes.powerLevels) (hs : ev.stateKey = some "") (ha : Accepts py ev m) :
    ∃ ul lvs nu, getUserPowerLevel py ev.sender m = .ok ul ∧
      levelsToCheck ev.roomVersion prev.content ev.content = .ok lvs ∧
      Json.getD prev.content "users" (.object []) = .object (usersOf prev.content) ∧
      Json.getD ev.content "users" (.object []) = .object nu ∧ ∀ check ∈ lvs,
        checkLevel py ev.sender ul prev.content ev.content check = .ok () := by
  have hc : ev.type ≠ EventTypes.create := by rw [ht]; decide
  obtain ⟨d,hd,hi⟩ := accepts_iff py hk hc
  have h := hi.mp ha
  obtain ⟨r,-,h⟩ := bind_eq_ok.mp h
  obtain ⟨sn,-,h⟩ := bind_eq_ok.mp h
  obtain ⟨-,-,h⟩ := bind_eq_ok.mp h
  rw [checkByType_powerLevels ht] at h
  obtain ⟨-,-,h⟩ := bind_eq_ok.mp h
  obtain ⟨-,-,h⟩ := bind_eq_ok.mp h
  obtain ⟨⟨⟩,hco,h⟩ := bind_eq_ok.mp h
  have ho : d.lookup (ev.type,"") = some prev := by rw [hd,ht,hp]
  simp only [Event.requireStateKey,hs,ok_bind,ho] at h
  obtain ⟨ul,hle,h⟩ := bind_eq_ok.mp h
  obtain ⟨lvs,hlv,h⟩ := bind_eq_ok.mp h
  have hag : Agree d m ev.sender := ⟨hd _,hd _,hd _⟩
  rw [getUserPowerLevel_congr hag] at hle
  have hou : Json.getD prev.content "users" (.object []) = .object (usersOf prev.content) := by
    have hl := hle
    simp only [getUserPowerLevel,getPowerLevelEvent,hp] at hl
    obtain ⟨v,hv,-⟩ := bind_eq_ok.mp hl
    exact (get_users hv).1
  obtain ⟨nu,hnu,-⟩ := bind_eq_ok.mp hco
  refine ⟨ul,lvs,nu,hle,hlv,hou,?_,forEach_eq_ok.mp h⟩
  cases hu : Json.getD ev.content "users" (.object []) <;> simp_all [Json.items]

end Accepted

/-- One accepted power levels event, checked against a state that holds its
predecessor. -/
structure PowerStep (py : Runtime) (m : AuthMap) (previous event : Event) : Prop where
  wellKeyed : WellKeyed m
  current : m.lookup (EventTypes.powerLevels,"") = some previous
  type : event.type = EventTypes.powerLevels
  stateKey : event.stateKey = some ""
  accepted : Accepts py event m

section Step

variable {m : AuthMap} {previous evt : Event}

section

variable (h : PowerStep py m previous evt)
include h

theorem PowerStep.user {u : String} {v : Json}
    (hu : (usersOf previous.content).lookup u = some v ∨ (usersOf evt.content).lookup u = some v) :
    ∃ ul, getUserPowerLevel py evt.sender m = .ok ul ∧
      ((explicitLevel py evt.content u).isSome = true ∧
          explicitLevel py evt.content u = explicitLevel py previous.content u ∨
        ¬ (u ≠ evt.sender ∧ explicitLevel py previous.content u = some ul) ∧
        (∀ lv, explicitLevel py previous.content u = some lv → lv ≤ ul) ∧
        ∀ lv, explicitLevel py evt.content u = some lv → lv ≤ ul) := by
  obtain ⟨ul,lvs,nu,hl,hle,ho,hn,ha⟩ :=
    accepted_levels h.wellKeyed h.current h.type h.stateKey h.accepted
  have hnu : usersOf evt.content = nu := by simp [usersOf,hn]
  rw [hnu] at hu
  obtain ⟨oldLevel,nl,hol,hnl,hc⟩ := checkLevel_ok (ha _ (users_checked hle ho hn hu))
  rw [levelAt_users ho hol,levelAt_users hn hnl] at hc
  refine ⟨ul,hl,?_⟩
  rcases hc with hc | ⟨h1,h2,h3⟩
  · exact .inl hc
  · refine .inr ⟨?_,h2,h3⟩
    rintro ⟨hne,he⟩
    exact h1 ⟨rfl,by simpa [Json.isStr] using hne,he⟩

theorem PowerStep.topLevel_le : topLevel py evt.content ≤ topLevel py previous.content := by
  apply EventAuth.topLevel_le (zero_le_topLevel _)
  · obtain ⟨ul,lvs,nu,hl,hle,-,-,ha⟩ :=
      accepted_levels h.wellKeyed h.current h.type h.stateKey h.accepted
    obtain ⟨oldLevel,nl,hol,hnl,hc⟩ := checkLevel_ok
      (ha _ (named_checked hle (show "users_default" ∈ namedLevels by decide)))
    rw [levelAt_default hnl]
    rcases hc with ⟨-,heq⟩ | ⟨-,-,hn⟩
    · rw [heq,← levelAt_default hol]
      exact defaultLevel_le _
    · cases nl with
      | none => exact zero_le_topLevel _
      | some lv => exact (hn lv rfl).trans (getUserPowerLevel_le h.current hl)
  · intro u lv he
    obtain ⟨v,hv,-⟩ := bind_eq_some_iff.mp he
    obtain ⟨ul,hl,⟨-,heq⟩ | ⟨-,-,hn⟩⟩ := h.user (.inr hv)
    · exact explicitLevel_le (heq ▸ he)
    · exact (hn lv he).trans (getUserPowerLevel_le h.current hl)

theorem PowerStep.keeps {u : String} {lv senderLevel : ℤ}
    (hne : u ≠ evt.sender) (hu : explicitLevel py previous.content u = some lv)
    (hs : getUserPowerLevel py evt.sender m = .ok senderLevel) (hle : senderLevel ≤ lv) :
    explicitLevel py evt.content u = some lv := by
  obtain ⟨v,hv,-⟩ := bind_eq_some_iff.mp hu
  obtain ⟨ul,hl,⟨-,heq⟩ | ⟨hown,ho,-⟩⟩ := h.user (.inl hv)
  · rw [heq,hu]
  · rw [hs] at hl
    cases hl
    have := ho lv hu
    obtain rfl : senderLevel = lv := by omega
    exact absurd ⟨hne,hu⟩ hown

end

end Step

/-- Power levels events, each accepted against a state that holds the one
before it; the rest of the state is arbitrary. -/
def PowerRun (py : Runtime) : Event → List (AuthMap × Event) → Prop
  | _, [] => True
  | previous, (m,event)::rest => PowerStep py m previous event ∧ PowerRun py event rest

/-- At each event of the run, users at or above its sender keep their level. -/
def Undemoted (py : Runtime) : Event → List (AuthMap × Event) → Prop
  | _, [] => True
  | previous, (m,event)::rest =>
    (∀ user level senderLevel, user ≠ event.sender →
      explicitLevel py previous.content user = some level →
      getUserPowerLevel py event.sender m = .ok senderLevel → senderLevel ≤ level →
      explicitLevel py event.content user = some level) ∧ Undemoted py event rest

/-- Along a run the greatest level never grows, and no one's level is changed
by another user at or below it. -/
theorem powerRun_bounded (py : Runtime) (previous : Event) (run : List (AuthMap × Event))
    (h : PowerRun py previous run) :
    (previous::run.map Prod.snd).Pairwise (fun earlier later =>
      topLevel py later.content ≤ topLevel py earlier.content) ∧ Undemoted py previous run := by
  induction run generalizing previous with
  | nil => exact ⟨by simp,trivial⟩
  | cons step rest ih =>
    obtain ⟨m,event⟩ := step
    obtain ⟨hstep,hrest⟩ := h
    obtain ⟨hpairs,hlater⟩ := ih event hrest
    refine ⟨?_,fun user level senderLevel hne hu hs hle => hstep.keeps hne hu hs hle,hlater⟩
    rw [pairwise_cons]
    refine ⟨?_,hpairs⟩
    intro later hm
    rcases mem_cons.mp hm with rfl | hm
    · exact hstep.topLevel_le
    · exact ((pairwise_cons.mp hpairs).1 later hm).trans hstep.topLevel_le

def promotion : Event :=
  stateEvent fooLevels EventTypes.powerLevels ""
    [("users",.object [("@admin:x",.int 100),("@bob:x",.int 50)])]

theorem powerRun_bounded_promotion :
    PowerRun default (stateEvent fooLevels EventTypes.powerLevels ""
      [("users",.object [("@admin:x",.int 100)])]) [(permissive fooLevels,promotion)] ∧
    topLevel default promotion.content ≤ 100 := by
  have hrun : PowerRun default (stateEvent fooLevels EventTypes.powerLevels ""
      [("users",.object [("@admin:x",.int 100)])]) [(permissive fooLevels,promotion)] :=
    ⟨⟨permissive_wellKeyed _,permissive_powerLevels _,rfl,rfl,by decide⟩,trivial⟩
  refine ⟨hrun,?_⟩
  have hpairs := (powerRun_bounded default _ _ hrun).1
  exact (pairwise_cons.mp hpairs).1 promotion (by simp)

end Synapse.EventAuth
