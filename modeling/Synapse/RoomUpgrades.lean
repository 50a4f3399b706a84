import Synapse.Runs

/-!
# The upgrades of a room by one user

The requests of a user for a room share the computation that the response cache has
for them. A computation that fails leaves an expiry timer behind, and this removes
whatever the cache has by then.
-/

set_option autoImplicit false

namespace Synapse.RoomUpgrades
open List Option

open Runs

inductive Outcome
  | newRoom
  | failed
  | conflict
deriving DecidableEq

inductive Phase
  /-- The tombstone event is created, for the try with this number. -/
  | creating (i : ℕ)
  | waiting
  | ended

/-- The deferred of `_upgrade_room`, with the requests that observe it and their tries. -/
structure Computation where
  result : Option Outcome
  observers : List (ℕ × ℕ)

structure Handler where
  /-- The computation that `_result_cache` has for the room and the user. -/
  entry : Option ℕ
  computations : List Computation
  requests : List Phase
  /-- The computations whose `_entry_timeout` is to be called. -/
  timers : List ℕ

def maxRetries : ℕ := 5

/-- The request goes on with the result, up to where it waits again. -/
def resume (outcome : Outcome) (s : Handler) (observer : ℕ × ℕ) : Handler :=
  match outcome with
  | .conflict => { s with
      entry := none
      requests := s.requests.set observer.1
        (if observer.2 = maxRetries-1 then .ended else .creating (observer.2+1)) }
  | _ => { s with requests := s.requests.set observer.1 .ended }

def wrap (request i : ℕ) (s : Handler) : Handler :=
  match s.entry with
  | none => { s with
      entry := some s.computations.length
      computations := s.computations ++ [⟨none,[(request,i)]⟩]
      requests := s.requests.set request .waiting }
  | some c =>
    match s.computations[c]?.bind Computation.result with
    | some outcome => resume outcome s (request,i)
    | none => { s with
        computations := s.computations.modify c
          (fun x => { x with observers := x.observers ++ [(request,i)] })
        requests := s.requests.set request .waiting }

/-- The observers are called in their order, and `on_complete` after them. -/
def complete (c : ℕ) (outcome : Outcome) (s : Handler) : Handler :=
  match s.computations[c]? with
  | some ⟨none,observers⟩ =>
    let s := observers.foldl (resume outcome)
      { s with computations := s.computations.set c ⟨some outcome,[]⟩ }
    { s with timers := c::s.timers }
  | _ => s

inductive Op
  | upgradeRoom
  | created (request : ℕ)
  /-- The tombstone event is not allowed, or could not be created. -/
  | refused (request : ℕ)
  | complete (c : ℕ) (outcome : Outcome)
  | entryTimeout (c : ℕ)

def step (op : Op) (s : Handler) : Handler :=
  match op with
  | .upgradeRoom => { s with requests := s.requests ++ [.creating 0] }
  | .created request =>
    match s.requests[request]? with
    | some (.creating i) => wrap request i s
    | _ => s
  | .refused request =>
    match s.requests[request]? with
    | some (.creating _) => { s with requests := s.requests.set request .ended }
    | _ => s
  | .complete c outcome => complete c outcome s
  | .entryTimeout c =>
    if c ∈ s.timers then { s with entry := none, timers := s.timers.erase c } else s

def start : Handler := ⟨none,[],[],[]⟩

def results (s : Handler) : List (Option Outcome) := s.computations.map Computation.result

def InProgress (s : Handler) (c : ℕ) : Prop := (results s)[c]? = some none

def EndedWith (s : Handler) (c : ℕ) (outcome : Outcome) : Prop :=
  (results s)[c]? = some (some outcome)

instance (s : Handler) (c : ℕ) (outcome : Outcome) : Decidable (EndedWith s c outcome) :=
  inferInstanceAs (Decidable (_ = _))

/-- The timer of a computation that ended with a conflict is not called while the cache has the
entry of another computation. -/
def NoRetryKept (op : Op) (s : Handler) : Prop :=
  match op with
  | .entryTimeout c => EndedWith s c .conflict → ∀ c' ∈ s.entry, c' = c
  | _ => True

instance (op : Op) (s : Handler) : Decidable (NoRetryKept op s) := by
  cases op <;> unfold NoRetryKept <;> infer_instance

/-- The entry of a computation is removed by its completion or its timer, or once it completed. -/
def RemovedAfter (op : Op) (s : Handler) (c : ℕ) : Prop :=
  match op with
  | .complete c' _ | .entryTimeout c' => c' = c
  | .created _ => ¬ InProgress s c
  | _ => False

/-- The computation is in progress, or did not end with a conflict and its timer is to be called. -/
def Kept (s : Handler) (c : ℕ) : Prop :=
  InProgress s c ∨ c ∈ s.timers ∧ ¬ EndedWith s c .conflict

structure Inv (s : Handler) : Prop where
  kept : ∀ c, Kept s c → s.entry = some c
  timers : ∀ c ∈ s.timers, ∃ outcome, EndedWith s c outcome
  nodup : s.timers.Nodup

section Steps

variable {s : Handler} {c : ℕ} {oc : Outcome}

theorem EndedWith.not_inProgress (h : EndedWith s c oc) : ¬ InProgress s c := by
  intro hp
  rw [InProgress,h] at hp
  cases hp

theorem resume_same (oc : Outcome) (s : Handler) (observer : ℕ × ℕ) :
    results (resume oc s observer) = results s ∧ (resume oc s observer).timers = s.timers ∧
      (oc ≠ .conflict → (resume oc s observer).entry = s.entry) := by
  cases oc <;> simp [resume,results]

theorem foldl_resume_same (oc : Outcome) (obs : List (ℕ × ℕ)) (s : Handler) :
    results (obs.foldl (resume oc) s) = results s ∧ (obs.foldl (resume oc) s).timers = s.timers ∧
      (oc ≠ .conflict → (obs.foldl (resume oc) s).entry = s.entry) := by
  induction obs generalizing s with
  | nil => exact ⟨rfl,rfl,fun _ => rfl⟩
  | cons observer obs ih =>
    obtain ⟨hr,ht,he⟩ := resume_same oc s observer
    obtain ⟨hr',ht',he'⟩ := ih (resume oc s observer)
    exact ⟨hr'.trans hr,ht'.trans ht,fun hne => (he' hne).trans (he hne)⟩

theorem completed_of_bind (h : s.computations[c]?.bind Computation.result = some oc) :
    EndedWith s c oc := by
  simpa [EndedWith,results,bind_eq_some_iff] using h

section

variable (h : Inv s)
include h

theorem Inv.none_kept (he : ∀ c' ∈ s.entry, c' = c) (hc : ¬ Kept s c) (c' : ℕ) : ¬ Kept s c' := by
  intro hk
  exact hc (he c' (h.kept c' hk) ▸ hk)

theorem Inv.of_results {s' : Handler} (hr : results s' = results s)
    (ht : s'.timers.Sublist s.timers) (he : ∀ c, Kept s c → c ∈ s'.timers ∨ InProgress s c →
      s'.entry = some c) : Inv s' := by
  refine ⟨fun c hk => ?_,fun c hc => ?_,h.nodup.sublist ht⟩
  · simp only [Kept,InProgress,EndedWith,hr] at hk
    exact he c (hk.imp_right (And.imp_left (ht.subset ·))) (hk.symm.imp_left And.left)
  · simp only [EndedWith,hr]
    exact h.timers c (ht.subset hc)

theorem Inv.begin (hn : s.entry = none) {s' : Handler}
    (hr : results s' = results s ++ [none]) (ht : s'.timers = s.timers)
    (he : s'.entry = some (results s).length) : Inv s' := by
  have hsame : ∀ c < (results s).length, (results s')[c]? = (results s)[c]? := by
    intro c hl
    rw [hr,getElem?_append_left hl]
  have htimers : ∀ c ∈ s'.timers, c < (results s).length := by
    intro c hc
    obtain ⟨oc,ho⟩ := h.timers c (ht ▸ hc)
    exact (List.getElem?_eq_some_iff.mp ho).1
  refine ⟨fun c hk => ?_,fun c hc => ?_,ht ▸ h.nodup⟩
  · by_cases hl : c < (results s).length
    · simp only [Kept,InProgress,EndedWith,hsame c hl,ht] at hk
      cases hn.symm.trans (h.kept c hk)
    · have hp := hk.resolve_right (fun hk => hl (htimers c hk.1))
      have := (List.getElem?_eq_some_iff.mp hp).1
      rw [hr,length_append,length_singleton] at this
      rw [he,show c = (results s).length by omega]
  · simp only [EndedWith,hsame c (htimers c hc)]
    exact h.timers c (ht ▸ hc)

theorem Inv.wrap (req i : ℕ) : Inv (RoomUpgrades.wrap req i s) := by
  rw [RoomUpgrades.wrap]
  split
  · next he => exact h.begin he map_append rfl (by simp [results])
  · next c he =>
    split
    · next oc ho =>
      obtain ⟨hr,ht,hen⟩ := resume_same oc s (req,i)
      refine h.of_results hr (ht ▸ List.Sublist.refl _) (fun c' hk _ => ?_)
      by_cases hoc : oc = .conflict
      · subst hoc
        have hend := completed_of_bind ho
        refine absurd hk (h.none_kept (c := c) (by simp [he]) ?_ c')
        exact not_or.mpr ⟨hend.not_inProgress,fun hk => hk.2 hend⟩
      · rw [hen hoc]
        exact h.kept c' hk
    · refine h.of_results (ext_getElem? fun j => ?_) (List.Sublist.refl _)
        (fun c' hk _ => h.kept c' hk)
      simp only [results,getElem?_map,getElem?_modify]
      split <;> cases s.computations[j]? <;> rfl

theorem Inv.finish (hp : InProgress s c) {s' : Handler}
    (hr : results s' = (results s).set c (some oc)) (ht : s'.timers = c::s.timers)
    (he : oc ≠ .conflict → s'.entry = s.entry) : Inv s' := by
  have hl : c < (results s).length := (List.getElem?_eq_some_iff.mp hp).1
  have hown : EndedWith s' c oc := by simp [EndedWith,hr,hl]
  have hother : ∀ c' ≠ c, (results s')[c']? = (results s)[c']? := by
    intro c' hne
    rw [hr,getElem?_set_ne hne.symm]
  have hnew : c ∉ s.timers := by
    intro hc
    obtain ⟨oc,ho⟩ := h.timers c hc
    exact ho.not_inProgress hp
  refine ⟨fun c' hk => ?_,fun c' hc => ?_,ht ▸ nodup_cons.mpr ⟨hnew,h.nodup⟩⟩
  · by_cases hne : c' = c
    · subst hne
      have hk := hk.resolve_left hown.not_inProgress
      rw [he (fun hoc => hk.2 (hoc ▸ hown))]
      exact h.kept c' (.inl hp)
    · simp only [Kept,InProgress,EndedWith,hother c' hne,ht,mem_cons,hne,false_or] at hk
      exact absurd (some_injective _ ((h.kept c' hk).symm.trans (h.kept c (.inl hp)))) hne
  · by_cases hne : c' = c
    · exact ⟨oc,hne ▸ hown⟩
    · simp only [EndedWith,hother c' hne]
      exact h.timers c' ((mem_cons.mp (ht ▸ hc)).resolve_left hne)

theorem Inv.complete (c : ℕ) (oc : Outcome) : Inv (RoomUpgrades.complete c oc s) := by
  rw [RoomUpgrades.complete]
  split
  · next obs hc =>
    obtain ⟨hr,ht,he⟩ := foldl_resume_same oc obs
      { s with computations := s.computations.set c ⟨some oc,[]⟩ }
    exact h.finish (by simp [InProgress,results,hc]) (hr.trans map_set) (congrArg (c::·) ht) he
  · exact h

theorem Inv.own_timer (ho : NoRetryKept (.entryTimeout c) s) (hc : c ∈ s.timers) :
    ∀ c' ∈ s.entry, c' = c := by
  by_cases hend : EndedWith s c .conflict
  · exact ho hend
  · intro c' hc'
    exact some_injective _ ((Option.mem_def.mp hc').symm.trans (h.kept c (.inr ⟨hc,hend⟩)))

theorem Inv.step {op : Op} (ho : NoRetryKept op s) : Inv (RoomUpgrades.step op s) := by
  have hsame : ∀ {s' : Handler}, results s' = results s → s'.timers = s.timers →
      s'.entry = s.entry → Inv s' :=
    fun hr ht he => h.of_results hr (ht ▸ List.Sublist.refl _) (fun c hk _ => he ▸ h.kept c hk)
  cases op with
  | upgradeRoom => exact hsame rfl rfl rfl
  | created req =>
    simp only [RoomUpgrades.step]
    split
    · exact h.wrap req _
    · exact h
  | refused req =>
    simp only [RoomUpgrades.step]
    split
    · exact hsame rfl rfl rfl
    · exact h
  | complete c oc => exact h.complete c oc
  | entryTimeout c =>
    simp only [RoomUpgrades.step]
    split
    · next hc =>
      refine h.of_results rfl erase_sublist (fun c' hk hc' => ?_)
      obtain rfl := h.own_timer ho hc c' (h.kept c' hk)
      rcases hc' with hc' | hp
      · exact absurd hc' h.nodup.not_mem_erase
      · obtain ⟨oc,hend⟩ := h.timers c' hc
        exact absurd hp hend.not_inProgress
    · exact h

theorem removed_after {op : Op} (ho : NoRetryKept op s) (hc : s.entry = some c)
    (hn : (step op s).entry ≠ some c) : RemovedAfter op s c := by
  cases op with
  | upgradeRoom => exact hn hc
  | created req =>
    simp only [step] at hn
    split at hn
    · rw [wrap] at hn
      simp only [hc] at hn
      split at hn
      · next oc ho' => exact (completed_of_bind ho').not_inProgress
      · exact absurd rfl hn
    · exact absurd hc hn
  | refused req =>
    simp only [step] at hn
    split at hn <;> exact hn hc
  | complete c' oc =>
    simp only [step,complete] at hn
    split at hn
    · next obs hc' =>
      have hp : InProgress s c' := by simp [InProgress,results,hc']
      exact some_injective _ ((h.kept c' (.inl hp)).symm.trans hc)
    · exact absurd hc hn
  | entryTimeout c' =>
    simp only [step] at hn
    split at hn
    · next hmem => exact (h.own_timer ho hmem c hc).symm
    · exact absurd hc hn

end

end Steps

/-- At most one upgrade is in progress, and an entry is removed by its own completion or timer
or after it completed, in every run in which the timer of a computation that ended with a
conflict does not find the entry of another one. -/
theorem one_upgrade_at_a_time (ops : List Op) (ha : Admitted step NoRetryKept ops start) :
    (∀ c c', InProgress (run step ops start) c → InProgress (run step ops start) c' → c = c') ∧
      ∀ op c, NoRetryKept op (run step ops start) → (run step ops start).entry = some c →
        (step op (run step ops start)).entry ≠ some c → RemovedAfter op (run step ops start) c := by
  have h : Inv (run step ops start) :=
    ha.invariant (fun _ _ h ho => h.step ho) ⟨nofun,nofun,nodup_nil⟩
  refine ⟨fun c c' hc hc' => ?_,fun op c ho => removed_after h ho⟩
  exact some_injective _ ((h.kept c (.inl hc)).symm.trans (h.kept c' (.inl hc')))

/-- The timer of the first upgrade comes after it was retried and before the next is asked for. -/
theorem one_upgrade_at_a_time_retried : RemovedAfter (.entryTimeout 1)
    (run step [.upgradeRoom,.created 0,.upgradeRoom,.created 1,.complete 0 .conflict,
      .entryTimeout 0,.created 0,.created 1,.complete 1 .newRoom] start) 1 :=
  (one_upgrade_at_a_time _ (by decide)).2 (.entryTimeout 1) 1 (by decide) rfl (by decide)

/-- The timer of the computation that failed removes the entry of its retry. -/
theorem upgrades_at_the_same_time :
    ∃ s, s = run step [.upgradeRoom,.created 0,.complete 0 .conflict,.created 0,.entryTimeout 0,
        .upgradeRoom,.created 1] start ∧ InProgress s 1 ∧ InProgress s 2 :=
  ⟨_,rfl,rfl,rfl⟩

end Synapse.RoomUpgrades
