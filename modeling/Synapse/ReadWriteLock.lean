import Synapse.Dict
import Synapse.Runs

/-!
# The read/write lock

Every caller has a deferred that it calls back when it releases the lock. A reader
waits for the deferred of the latest writer, and a writer for those of the latest
writer and of the readers since. A caller goes on in an operation of its own once
what it waits for has been called back, and calling back its deferred and taking
it out of the maps are two operations, as the callers it wakes run in between.
-/

set_option autoImplicit false

namespace Synapse
open Option AList Finset Dict

inductive ReadWriteLock.Kind where
  | read
  | write
  deriving DecidableEq

inductive ReadWriteLock.Phase where
  | waiting
  | cancelling
  | entered
  | releasing
  | done
  deriving DecidableEq

structure ReadWriteLock.Caller (K : Type) where
  kind : ReadWriteLock.Kind
  key : K
  waitsOn : Finset ℕ
  phase : ReadWriteLock.Phase

/-- Callers are numbered as they arrive, and their deferreds with them. -/
structure ReadWriteLock (K : Type) where
  keyToCurrentReaders : Dict K (Finset ℕ)
  keyToCurrentWriter : Dict K ℕ
  called : Finset ℕ
  callers : Dict ℕ (ReadWriteLock.Caller K)
  nextCaller : ℕ

namespace ReadWriteLock

variable {K : Type} [DecidableEq K]

def start : ReadWriteLock K := ⟨∅,∅,∅,∅,0⟩

def currentReaders (s : ReadWriteLock K) (key : K) : Finset ℕ :=
  (s.keyToCurrentReaders.lookup key).getD ∅

def addCaller (kind : Kind) (key : K) (waitsOn : Finset ℕ) (s : ReadWriteLock K) :
    ReadWriteLock K :=
  { s with
    callers := s.callers.insert s.nextCaller ⟨kind,key,waitsOn,.waiting⟩
    nextCaller := s.nextCaller + 1 }

/-- `read`, up to where it waits. -/
def read (key : K) (s : ReadWriteLock K) : ReadWriteLock K :=
  addCaller .read key (s.keyToCurrentWriter.lookup key).toFinset
    { s with keyToCurrentReaders :=
        s.keyToCurrentReaders.insert key (insert s.nextCaller (currentReaders s key)) }

/-- `write`, up to where it waits. -/
def write (key : K) (s : ReadWriteLock K) : ReadWriteLock K :=
  let toWaitOn := currentReaders s key ∪ (s.keyToCurrentWriter.lookup key).toFinset
  addCaller .write key toWaitOn
    { s with
      keyToCurrentReaders :=
        if key ∈ s.keyToCurrentReaders then s.keyToCurrentReaders.insert key ∅
        else s.keyToCurrentReaders
      keyToCurrentWriter := s.keyToCurrentWriter.insert key s.nextCaller }

def setPhase (caller : ℕ) (c : Caller K) (phase : Phase) (s : ReadWriteLock K) :
    ReadWriteLock K :=
  { s with callers := s.callers.insert caller { c with phase := phase } }

def callback (caller : ℕ) (c : Caller K) (s : ReadWriteLock K) : ReadWriteLock K :=
  setPhase caller c .releasing { s with called := insert caller s.called }

/-- What the caller waits for has been called back. One that was cancelled does not
enter. -/
def enter (caller : ℕ) (s : ReadWriteLock K) : ReadWriteLock K :=
  match s.callers.lookup caller with
  | some c =>
    if c.waitsOn ⊆ s.called then
      match c.phase with
      | .waiting => setPhase caller c .entered s
      | .cancelling => callback caller c s
      | _ => s
    else s
  | none => s

/-- The caller is cancelled while it waits: a reader stops waiting, and a writer
goes on with it. -/
def cancel (caller : ℕ) (s : ReadWriteLock K) : ReadWriteLock K :=
  match s.callers.lookup caller with
  | some c =>
    match c.phase, c.kind with
    | .waiting, .read => callback caller c s
    | .waiting, .write => setPhase caller c .cancelling s
    | _, _ => s
  | none => s

def release (caller : ℕ) (s : ReadWriteLock K) : ReadWriteLock K :=
  match s.callers.lookup caller with
  | some c =>
    match c.phase with
    | .entered => callback caller c s
    | _ => s
  | none => s

def finish (caller : ℕ) (s : ReadWriteLock K) : ReadWriteLock K :=
  match s.callers.lookup caller with
  | some c =>
    match c.phase, c.kind with
    | .releasing, .read =>
      setPhase caller c .done
        { s with keyToCurrentReaders :=
            if c.key ∈ s.keyToCurrentReaders then
              s.keyToCurrentReaders.insert c.key ((currentReaders s c.key).erase caller)
            else s.keyToCurrentReaders }
    | .releasing, .write =>
      setPhase caller c .done
        { s with keyToCurrentWriter :=
            if s.keyToCurrentWriter.lookup c.key = some caller then
              s.keyToCurrentWriter.erase c.key
            else s.keyToCurrentWriter }
    | _, _ => s
  | none => s

inductive Op (K : Type) where
  | read (key : K)
  | write (key : K)
  | enter (caller : ℕ)
  | cancel (caller : ℕ)
  | release (caller : ℕ)
  | finish (caller : ℕ)

def step : Op K → ReadWriteLock K → ReadWriteLock K
  | .read key, s => read key s
  | .write key, s => write key s
  | .enter caller, s => enter caller s
  | .cancel caller, s => cancel caller s
  | .release caller, s => release caller s
  | .finish caller, s => finish caller s

abbrev run : List (Op K) → ReadWriteLock K → ReadWriteLock K := Runs.run step

section Invariant

def Is (s : ReadWriteLock K) (n : ℕ) (kind : Kind) (key : K) : Prop :=
  ∃ c, s.callers.lookup n = some c ∧ c.kind = kind ∧ c.key = key

/-- A caller comes after another that it must not be beside: it is a writer, or the
other is. -/
def After (s : ReadWriteLock K) (n m : ℕ) : Prop :=
  m < n ∧ ∃ key, (Is s n .write key ∧ (Is s m .read key ∨ Is s m .write key)) ∨
    (Is s n .read key ∧ Is s m .write key)

structure Sound (s : ReadWriteLock K) : Prop where
  arrived : ∀ n c, s.callers.lookup n = some c → n < s.nextCaller
  called : ∀ n ∈ s.called, n < s.nextCaller
  readers : ∀ key n, n ∈ currentReaders s key → Is s n .read key
  writer : ∀ key n, s.keyToCurrentWriter.lookup key = some n → Is s n .write key
  /-- A writer that has not released the lock is the latest, or there is a later one. -/
  latest : ∀ key n, Is s n .write key → n ∉ s.called →
    ∃ w, s.keyToCurrentWriter.lookup key = some w ∧ n ≤ w
  listed : ∀ key n, Is s n .read key → n ∉ s.called →
    n ∈ currentReaders s key ∨ ∃ w, Is s w .write key ∧ n < w
  waitsOn : ∀ n c m, s.callers.lookup n = some c → m ∈ c.waitsOn → After s n m
  /-- Who came before is waited for, or a writer in between is. -/
  covers : ∀ n c m, s.callers.lookup n = some c → After s n m → m ∉ s.called →
    m ∈ c.waitsOn ∨ ∃ w ∈ c.waitsOn, Is s w .write c.key ∧ m < w
  /-- A writer keeps its place until what it waits for has been called back. -/
  kept : ∀ n c, s.callers.lookup n = some c → c.kind = .write → n ∈ s.called →
    c.waitsOn ⊆ s.called
  entered : ∀ n c, s.callers.lookup n = some c → c.phase = .entered → c.waitsOn ⊆ s.called
  pending : ∀ n c, s.callers.lookup n = some c →
    (c.phase = .waiting ∨ c.phase = .cancelling ∨ c.phase = .entered) → n ∉ s.called
  released : ∀ n c, s.callers.lookup n = some c → c.phase = .releasing → n ∈ s.called

theorem start_sound : Sound (start : ReadWriteLock K) := by
  constructor
  all_goals simp [start,Is,currentReaders]

variable {s : ReadWriteLock K}

variable {n m : ℕ} {c : Caller K}

omit [DecidableEq K] in
theorem Is.lookup {kind : Kind} {key : K} (h : Is s n kind key) (hl : s.callers.lookup n = some c) :
    c.kind = kind ∧ c.key = key := by
  obtain ⟨c',hl',hk,hkey⟩ := h
  rw [hl] at hl'
  rw [some.inj hl']
  exact ⟨hk,hkey⟩

omit [DecidableEq K] in
theorem After.key (h : After s n m) (hl : s.callers.lookup n = some c) :
    Is s m .read c.key ∨ Is s m .write c.key := by
  obtain ⟨-,key,⟨hn,hm⟩ | ⟨hn,hm⟩⟩ := h
  · rw [(hn.lookup hl).2]
    exact hm
  · rw [(hn.lookup hl).2]
    exact .inr hm

omit [DecidableEq K] in
theorem after_of_write {key : K} (hn : Is s n .write key)
    (hm : Is s m .read key ∨ Is s m .write key) (hlt : m < n) : After s n m :=
  ⟨hlt,key,.inl ⟨hn,hm⟩⟩

theorem Sound.earlier_called (h : Sound s) (hl : s.callers.lookup n = some c)
    (hc : c.waitsOn ⊆ s.called) (ha : After s n m) : m ∈ s.called := by
  induction n using Nat.strong_induction_on generalizing c with
  | _ n ih =>
    by_contra hn
    rcases h.covers n c m hl ha hn with hm | ⟨w,hw,hwr,hlt⟩
    · exact hn (hc hm)
    · -- the writer in between has kept its place
      obtain ⟨cw,hcw,hk,hkey⟩ := hwr
      have hwn := (h.waitsOn n c w hl hw).1
      have hke := h.kept w cw hcw hk (hc hw)
      exact hn (ih w hwn hcw hke (after_of_write ⟨cw,hcw,hk,hkey⟩ (ha.key hl) hlt))

end Invariant

section Phases

variable {s : ReadWriteLock K} {n : ℕ} {c : Caller K}

omit [DecidableEq K] in
theorem is_setPhase (hl : s.callers.lookup n = some c) (ph : Phase) (m : ℕ) (kind : Kind)
    (key : K) : Is (setPhase n c ph s) m kind key ↔ Is s m kind key := by
  rw [Is,Is,setPhase]
  by_cases hm : m = n
  · subst hm
    simp [hl]
  · simp [hm]

omit [DecidableEq K] in
theorem lookup_setPhase {ph : Phase} {m : ℕ} {c' : Caller K}
    (h : (setPhase n c ph s).callers.lookup m = some c') :
    (m = n ∧ c' = { c with phase := ph }) ∨ (m ≠ n ∧ s.callers.lookup m = some c') := by
  rw [setPhase,lookup_set] at h
  split at h
  · next hm => exact .inl ⟨hm,(some.inj h).symm⟩
  · next hm => exact .inr ⟨hm,h⟩

section

variable (h : Sound s)
include h

theorem Sound.setPhase (hl : s.callers.lookup n = some c) (ph : Phase)
    (he : ph = .entered → c.waitsOn ⊆ s.called)
    (hpe : (ph = .waiting ∨ ph = .cancelling ∨ ph = .entered) → n ∉ s.called)
    (hr : ph = .releasing → n ∈ s.called) : Sound (setPhase n c ph s) := by
  have his := is_setPhase hl ph
  have ha : ∀ n' m, After (ReadWriteLock.setPhase n c ph s) n' m ↔ After s n' m := by
    intro n' m
    simp only [After,his]
  have ho : ∀ m c', (ReadWriteLock.setPhase n c ph s).callers.lookup m = some c' →
      ∃ c₀, s.callers.lookup m = some c₀ ∧ c₀.kind = c'.kind ∧ c₀.key = c'.key ∧
        c₀.waitsOn = c'.waitsOn := by
    intro m c' hm
    rcases lookup_setPhase hm with ⟨rfl,rfl⟩ | ⟨-,hm⟩
    · exact ⟨c,hl,rfl,rfl,rfl⟩
    · exact ⟨c',hm,rfl,rfl,rfl⟩
  constructor
  · intro m c' hm
    obtain ⟨c₀,hc₀,-⟩ := ho m c' hm
    exact h.arrived m c₀ hc₀
  · exact h.called
  · intro key m hm
    exact (his m _ key).mpr (h.readers key m hm)
  · intro key m hm
    exact (his m _ key).mpr (h.writer key m hm)
  · intro key m hm hn
    exact h.latest key m ((his m _ key).mp hm) hn
  · intro key m hm hn
    simp only [his] at hm ⊢
    exact h.listed key m hm hn
  · intro m c' d hm hd
    obtain ⟨c₀,hc₀,-,-,hw⟩ := ho m c' hm
    rw [ha]
    exact h.waitsOn m c₀ d hc₀ (hw ▸ hd)
  · intro m c' d hm hd hn
    obtain ⟨c₀,hc₀,-,hkey,hw⟩ := ho m c' hm
    rw [ha] at hd
    rw [← hw,← hkey]
    simp only [his]
    exact h.covers m c₀ d hc₀ hd hn
  · intro m c' hm hk hc
    obtain ⟨c₀,hc₀,hk₀,-,hw⟩ := ho m c' hm
    rw [← hw]
    exact h.kept m c₀ hc₀ (hk₀.trans hk) hc
  · intro m c' hm hp
    rcases lookup_setPhase hm with ⟨rfl,rfl⟩ | ⟨-,hm⟩
    · exact he hp
    · exact h.entered m c' hm hp
  · intro m c' hm hp
    rcases lookup_setPhase hm with ⟨rfl,rfl⟩ | ⟨-,hm⟩
    · exact hpe hp
    · exact h.pending m c' hm hp
  · intro m c' hm hp
    rcases lookup_setPhase hm with ⟨rfl,rfl⟩ | ⟨-,hm⟩
    · exact hr hp
    · exact h.released m c' hm hp

theorem Sound.addCalled (hl : s.callers.lookup n = some c)
    (hke : c.kind = .write → c.waitsOn ⊆ s.called) (hph : c.phase = .done) :
    Sound { s with called := insert n s.called } := by
  constructor
  · exact h.arrived
  · intro m hm
    rcases mem_insert.mp hm with rfl | hm
    · exact h.arrived m c hl
    · exact h.called m hm
  · exact h.readers
  · exact h.writer
  · intro key m hm hn
    exact h.latest key m hm (fun hmem => hn (mem_insert_of_mem hmem))
  · intro key m hm hn
    exact h.listed key m hm (fun hmem => hn (mem_insert_of_mem hmem))
  · exact h.waitsOn
  · intro m c' d hm hd hn
    exact h.covers m c' d hm hd (fun hmem => hn (mem_insert_of_mem hmem))
  · intro m c' hm hk hc
    rcases mem_insert.mp hc with rfl | hc
    · have hc' : c = c' := some.inj (hl.symm.trans hm)
      subst hc'
      exact (hke hk).trans (subset_insert _ _)
    · exact (h.kept m c' hm hk hc).trans (subset_insert _ _)
  · intro m c' hm he
    exact (h.entered m c' hm he).trans (subset_insert _ _)
  · intro m c' hm hp hc
    rcases mem_insert.mp hc with rfl | hc
    · have hc' : c = c' := some.inj (hl.symm.trans hm)
      subst hc'
      rw [hph] at hp
      simp at hp
    · exact h.pending m c' hm hp hc
  · intro m c' hm hr
    exact mem_insert_of_mem (h.released m c' hm hr)

theorem Sound.callback (hl : s.callers.lookup n = some c)
    (hk : c.kind = .write → c.waitsOn ⊆ s.called) : Sound (callback n c s) := by
  have hd := h.setPhase hl .done (by simp) (by simp) (by simp)
  have hdl : (ReadWriteLock.setPhase n c .done s).callers.lookup n =
      some { c with phase := .done } := by
    rw [ReadWriteLock.setPhase,lookup_set,if_pos rfl]
  have hc := hd.addCalled hdl hk rfl
  have hr := hc.setPhase hdl .releasing (by simp) (by simp) (fun _ => mem_insert_self _ _)
  have heq : ReadWriteLock.setPhase n { c with phase := .done } .releasing
      { ReadWriteLock.setPhase n c .done s with called := insert n s.called } =
      ReadWriteLock.callback n c s := by
    simp only [ReadWriteLock.setPhase,ReadWriteLock.callback,insert_insert]
  exact heq ▸ hr

theorem enter_sound (n : ℕ) : Sound (enter n s) := by
  unfold enter
  cases hl : s.callers.lookup n with
  | none => exact h
  | some c =>
    dsimp only
    split
    · next hc =>
      cases hp : c.phase with
      | waiting =>
        exact h.setPhase hl .entered (fun _ => hc) (fun _ => h.pending n c hl (.inl hp)) (by simp)
      | cancelling => exact h.callback hl (fun _ => hc)
      | entered | releasing | done => exact h
    · exact h

theorem cancel_sound (n : ℕ) : Sound (cancel n s) := by
  unfold cancel
  cases hl : s.callers.lookup n with
  | none => exact h
  | some c =>
    dsimp only
    split
    · -- a reader calls back its deferred while what it waits for is not yet
      rename_i hk
      exact h.callback hl (by simp [hk])
    · rename_i hp _
      exact h.setPhase hl .cancelling (by simp) (fun _ => h.pending n c hl (.inl hp)) (by simp)
    · exact h

theorem release_sound (n : ℕ) : Sound (release n s) := by
  unfold release
  cases hl : s.callers.lookup n with
  | none => exact h
  | some c =>
    dsimp only
    split
    · rename_i hp
      exact h.callback hl (fun _ => h.entered n c hl hp)
    · exact h

end

end Phases

section Finish

theorem getD_lookup_setExisting (d : Dict K (Finset ℕ)) (key key' : K) (v : Finset ℕ)
    (hv : key ∉ d → v = ∅) :
    ((if key ∈ d then d.insert key v else d).lookup key').getD ∅ =
      if key' = key then v else (d.lookup key').getD ∅ := by
  split
  · rw [lookup_set]
    split <;> rfl
  · next hm =>
    split
    · rename_i hk
      rw [hk,lookup_eq_none.mpr hm,hv hm]
      rfl
    · rfl

variable {s : ReadWriteLock K} {n : ℕ} {c : Caller K}

theorem Sound.removeReader (h : Sound s) (hc : n ∈ s.called) (key : K) :
    Sound { s with keyToCurrentReaders :=
      if key ∈ s.keyToCurrentReaders then
        s.keyToCurrentReaders.insert key ((currentReaders s key).erase n)
      else s.keyToCurrentReaders } := by
  have hr := fun key' => getD_lookup_setExisting s.keyToCurrentReaders key key'
    ((currentReaders s key).erase n) (by
      intro hmem
      rw [currentReaders,lookup_eq_none.mpr hmem]
      rfl)
  refine { h with readers := ?_, listed := ?_ }
  · intro key' m hm
    rw [currentReaders,hr] at hm
    split at hm
    · next hk =>
      rw [hk]
      exact h.readers key m (mem_of_mem_erase hm)
    · exact h.readers key' m hm
  · intro key' m hm hn
    rw [currentReaders,hr]
    rcases h.listed key' m hm hn with hl | hla
    · refine .inl ?_
      split
      · next hk =>
        rw [← hk]
        exact mem_erase.mpr ⟨fun heq => hn (heq ▸ hc),hl⟩
      · exact hl
    · exact .inr hla

theorem Sound.removeWriter (h : Sound s) (hl : s.callers.lookup n = some c) (hk : c.kind = .write)
    (hca : n ∈ s.called) :
    Sound { s with
      keyToCurrentWriter :=
        if s.keyToCurrentWriter.lookup c.key = some n then s.keyToCurrentWriter.erase c.key
        else s.keyToCurrentWriter } := by
  by_cases hc : s.keyToCurrentWriter.lookup c.key = some n
  · simp only [if_pos hc]
    refine { h with writer := ?_, latest := ?_ }
    · intro key m hm
      rw [lookup_pop] at hm
      by_cases hkey : key = c.key
      · simp [hkey] at hm
      · rw [if_neg hkey] at hm
        exact h.writer key m hm
    · intro key m hm hn
      obtain ⟨w,hw,hle⟩ := h.latest key m hm hn
      have hkey : key ≠ c.key := by
        rintro rfl
        have hwn : w = n := some.inj (hw.symm.trans hc)
        subst hwn
        have hne : m ≠ w := fun heq => hn (heq ▸ hca)
        have ha := after_of_write ⟨c,hl,hk,rfl⟩ (.inr hm) (by omega)
        exact hn (h.earlier_called hl (h.kept w c hl hk hca) ha)
      refine ⟨w,?_,hle⟩
      rw [lookup_pop,if_neg hkey]
      exact hw
  · simp only [if_neg hc]
    exact h

theorem finish_sound (h : Sound s) (n : ℕ) : Sound (finish n s) := by
  unfold finish
  cases hl : s.callers.lookup n with
  | none => exact h
  | some c =>
    dsimp only
    split
    · rename_i hp _
      have hc := h.released n c hl hp
      exact (h.removeReader hc c.key).setPhase hl .done (by simp) (by simp) (by simp)
    · rename_i hp hk
      have hc := h.released n c hl hp
      exact (h.removeWriter hl hk hc).setPhase hl .done (by simp) (by simp) (by simp)
    · exact h

end Finish

section Arrival

variable {s s' : ReadWriteLock K} {kind : Kind} {key : K} {toWaitOn : Finset ℕ}

structure Arrives (s s' : ReadWriteLock K) (kind : Kind) (key : K) (toWaitOn : Finset ℕ) :
    Prop where
  callers : s'.callers = s.callers.insert s.nextCaller ⟨kind,key,toWaitOn,.waiting⟩
  called : s'.called = s.called
  nextCaller : s'.nextCaller = s.nextCaller + 1

theorem arrives_read (s : ReadWriteLock K) (key : K) :
    Arrives s (read key s) .read key (s.keyToCurrentWriter.lookup key).toFinset :=
  ⟨rfl,rfl,rfl⟩

theorem arrives_write (s : ReadWriteLock K) (key : K) :
    Arrives s (write key s) .write key
      (currentReaders s key ∪ (s.keyToCurrentWriter.lookup key).toFinset) :=
  ⟨rfl,rfl,rfl⟩

variable {m : ℕ}

omit [DecidableEq K] in
theorem Arrives.lookup (ha : Arrives s s' kind key toWaitOn) {c : Caller K}
    (hm : s'.callers.lookup m = some c) :
    (m = s.nextCaller ∧ c = ⟨kind,key,toWaitOn,.waiting⟩) ∨ s.callers.lookup m = some c := by
  rw [ha.callers,lookup_set] at hm
  split at hm
  · next hn => exact .inl ⟨hn,(some.inj hm).symm⟩
  · exact .inr hm

section

variable (ha : Arrives s s' kind key toWaitOn)
include ha

theorem Arrives.is (h : Sound s) (m : ℕ) (kind' : Kind) (key' : K) :
    Is s' m kind' key' ↔ Is s m kind' key' ∨ (m = s.nextCaller ∧ kind' = kind ∧ key' = key) := by
  rw [Is,Is,ha.callers]
  simp only [lookup_set]
  by_cases hm : m = s.nextCaller
  · have hn : ∀ c, s.callers.lookup m ≠ some c := fun c hc =>
      absurd (h.arrived m c hc) (by omega)
    simp [hm] at hn ⊢
    simp [hn,eq_comm]
  · simp [hm]

theorem Arrives.after (h : Sound s) {n : ℕ}
    (hn : n < s.nextCaller) : After s' n m ↔ After s n m := by
  refine and_congr_right (fun hlt => ?_)
  have hne : n ≠ s.nextCaller := by omega
  have hm : m ≠ s.nextCaller := by omega
  simp [ha.is h,hne,hm]

theorem Arrives.sound (h : Sound s) (hr : ∀ key' n, n ∈ currentReaders s' key' → Is s' n .read key')
    (hwr : ∀ key' n, s'.keyToCurrentWriter.lookup key' = some n → Is s' n .write key')
    (hl : ∀ key' n, Is s' n .write key' → n ∉ s.called →
      ∃ w, s'.keyToCurrentWriter.lookup key' = some w ∧ n ≤ w)
    (hli : ∀ key' n, Is s' n .read key' → n ∉ s.called →
      n ∈ currentReaders s' key' ∨ ∃ w, Is s' w .write key' ∧ n < w)
    (hwo : ∀ m ∈ toWaitOn, After s' s.nextCaller m)
    (hco : ∀ m, After s' s.nextCaller m → m ∉ s.called →
      m ∈ toWaitOn ∨ ∃ w ∈ toWaitOn, Is s' w .write key ∧ m < w) : Sound s' := by
  have hc := ha.called
  constructor
  · intro m c hm
    rw [ha.nextCaller]
    rcases ha.lookup hm with ⟨rfl,-⟩ | hm
    · omega
    · have hlt := h.arrived m c hm
      omega
  · intro m hm
    rw [hc] at hm
    have hlt := h.called m hm
    rw [ha.nextCaller]
    omega
  · exact hr
  · exact hwr
  · rw [hc]
    exact hl
  · rw [hc]
    exact hli
  · intro n c m hn hm
    rcases ha.lookup hn with ⟨rfl,rfl⟩ | hn
    · exact hwo m hm
    · exact (ha.after h (h.arrived n c hn)).mpr (h.waitsOn n c m hn hm)
  · intro n c m hn hm hnot
    rw [hc] at hnot
    rcases ha.lookup hn with ⟨rfl,rfl⟩ | hn
    · exact hco m hm hnot
    · rw [ha.after h (h.arrived n c hn)] at hm
      rcases h.covers n c m hn hm hnot with hmem | ⟨w,hw,hwt,hlt⟩
      · exact .inl hmem
      · exact .inr ⟨w,hw,(ha.is h w _ _).mpr (.inl hwt),hlt⟩
  · intro n c hn hk hmem
    rw [hc] at hmem ⊢
    rcases ha.lookup hn with ⟨rfl,-⟩ | hn
    · exact absurd (h.called _ hmem) (lt_irrefl _)
    · exact h.kept n c hn hk hmem
  · intro n c hn hp
    rw [hc]
    rcases ha.lookup hn with ⟨-,rfl⟩ | hn
    · simp at hp
    · exact h.entered n c hn hp
  · intro n c hn hp
    rw [hc]
    rcases ha.lookup hn with ⟨rfl,-⟩ | hn
    · exact fun hmem => absurd (h.called _ hmem) (lt_irrefl _)
    · exact h.pending n c hn hp
  · intro n c hn hp
    rw [hc]
    rcases ha.lookup hn with ⟨-,rfl⟩ | hn
    · simp at hp
    · exact h.released n c hn hp

end

theorem Is.lt_nextCaller (h : Sound s) (hm : Is s m kind key) : m < s.nextCaller := by
  obtain ⟨c,hc,-⟩ := hm
  exact h.arrived m c hc

theorem read_sound (h : Sound s) (key : K) : Sound (read key s) := by
  have ha := arrives_read s key
  have his := ha.is h
  have hre : ∀ key', currentReaders (read key s) key' =
      if key' = key then insert s.nextCaller (currentReaders s key) else currentReaders s key' := by
    intro key'
    simp only [currentReaders,read,addCaller,lookup_set]
    split <;> rfl
  apply ha.sound h
  · intro key' n hn
    rw [his]
    rw [hre] at hn
    split at hn
    · next hkey =>
      rcases mem_insert.mp hn with hne | hn
      · exact .inr ⟨hne,rfl,hkey⟩
      · exact .inl (hkey ▸ h.readers key n hn)
    · exact .inl (h.readers key' n hn)
  · intro key' n hn
    exact (his n _ key').mpr (.inl (h.writer key' n hn))
  · intro key' n hn hnot
    rcases (his n _ key').mp hn with hn | ⟨-,hk,-⟩
    · exact h.latest key' n hn hnot
    · simp at hk
  · intro key' n hn hnot
    rw [hre]
    rcases (his n _ key').mp hn with hn | ⟨hne,-,hkey⟩
    · rcases h.listed key' n hn hnot with hl | ⟨w,hw,hlt⟩
      · refine .inl ?_
        split
        · next hkey => exact mem_insert_of_mem (hkey ▸ hl)
        · exact hl
      · exact .inr ⟨w,(his w _ key').mpr (.inl hw),hlt⟩
    · refine .inl ?_
      rw [if_pos hkey,hne]
      exact mem_insert_self _ _
  · intro m hm
    have hw := h.writer key m (by simpa using hm)
    exact ⟨hw.lt_nextCaller h,key,
      .inr ⟨(his _ _ key).mpr (.inr ⟨rfl,rfl,rfl⟩),(his _ _ key).mpr (.inl hw)⟩⟩
  · -- an earlier writer that is not done is the latest, or before the latest
    intro m hm hnot
    obtain ⟨hlt,key',⟨hr,-⟩ | ⟨hr,hm⟩⟩ := hm
    · have hb := (hr.lookup (by rw [ha.callers,lookup_set,if_pos rfl])).1
      simp at hb
    · have hkey := (hr.lookup (by rw [ha.callers,lookup_set,if_pos rfl])).2
      subst hkey
      rcases (his m _ key).mp hm with hm | ⟨hne,-⟩
      · obtain ⟨w,hw,hle⟩ := h.latest key m hm hnot
        have hwm : w ∈ (s.keyToCurrentWriter.lookup key).toFinset := by simpa using hw
        by_cases hmw : m = w
        · exact .inl (hmw ▸ hwm)
        · exact .inr ⟨w,hwm,(his w _ key).mpr (.inl (h.writer key w hw)),by omega⟩
      · omega

theorem write_sound (h : Sound s) (key : K) : Sound (write key s) := by
  have ha := arrives_write s key
  have his := ha.is h
  have hnew := ha.callers ▸ lookup_set s.callers s.nextCaller s.nextCaller _
  rw [if_pos rfl] at hnew
  have hre : ∀ key', currentReaders (write key s) key' =
      if key' = key then ∅ else currentReaders s key' :=
    fun key' => getD_lookup_setExisting s.keyToCurrentReaders key key' ∅ (fun _ => rfl)
  have hwr : ∀ key', (write key s).keyToCurrentWriter.lookup key' =
      if key' = key then some s.nextCaller else s.keyToCurrentWriter.lookup key' :=
    fun key' => lookup_set _ _ _ _
  have hs : Is (write key s) s.nextCaller .write key := (his _ _ key).mpr (.inr ⟨rfl,rfl,rfl⟩)
  apply ha.sound h
  · intro key' n hn
    rw [hre] at hn
    by_cases hkey : key' = key
    · simp [hkey] at hn
    · rw [if_neg hkey] at hn
      exact (his n _ key').mpr (.inl (h.readers key' n hn))
  · intro key' n hn
    rw [hwr] at hn
    split at hn
    · next hkey =>
      rw [← some.inj hn,hkey]
      exact hs
    · exact (his n _ key').mpr (.inl (h.writer key' n hn))
  · intro key' n hn hnot
    rw [hwr]
    split
    · rcases (his n _ key').mp hn with hn | ⟨hne,-⟩
      · exact ⟨_,rfl,(hn.lt_nextCaller h).le⟩
      · exact ⟨_,rfl,hne.le⟩
    · next hkey =>
      rcases (his n _ key').mp hn with hn | ⟨-,-,hk'⟩
      · exact h.latest key' n hn hnot
      · exact absurd hk' hkey
  · intro key' n hn hnot
    rw [hre]
    rcases (his n _ key').mp hn with hn | ⟨-,hk,-⟩
    · by_cases hkey : key' = key
      · exact .inr ⟨_,hkey ▸ hs,hn.lt_nextCaller h⟩
      · rw [if_neg hkey]
        rcases h.listed key' n hn hnot with hl | ⟨w,hw,hlt⟩
        · exact .inl hl
        · exact .inr ⟨w,(his w _ key').mpr (.inl hw),hlt⟩
    · simp at hk
  · intro m hm
    rcases mem_union.mp hm with hm | hm
    · have hr := h.readers key m hm
      exact after_of_write hs (.inl ((his _ _ key).mpr (.inl hr))) (hr.lt_nextCaller h)
    · have hw := h.writer key m (by simpa using hm)
      exact after_of_write hs (.inr ((his _ _ key).mpr (.inl hw))) (hw.lt_nextCaller h)
  · intro m hm hnot
    have hb : ∀ n, Is s n .write key → n ∉ s.called → ∃ w ∈ currentReaders s key ∪
        (s.keyToCurrentWriter.lookup key).toFinset, Is (write key s) w .write key ∧ n ≤ w := by
      intro n hn hnot
      obtain ⟨w,hw,hle⟩ := h.latest key n hn hnot
      exact ⟨w,mem_union_right _ (by simpa using hw),
        (his w _ key).mpr (.inl (h.writer key w hw)),hle⟩
    have hlt := hm.1
    have hk := hm.key hnew
    simp only [his] at hk
    rcases hk with (hm | ⟨hne,-⟩) | (hm | ⟨hne,-⟩)
    · rcases h.listed key m hm hnot with hl | ⟨w,hw,hmw⟩
      · exact .inl (mem_union_left _ hl)
      · have hwn : w ∉ s.called := by
          -- a writer after the reader has the lock only when the reader has released it
          intro hc
          obtain ⟨cw,hcw,hk,hkey⟩ := hw
          exact hnot (h.earlier_called hcw (h.kept w cw hcw hk hc)
            (after_of_write ⟨cw,hcw,hk,hkey⟩ (.inl hm) hmw))
        obtain ⟨w',hmem,hw',hle⟩ := hb w hw hwn
        exact .inr ⟨w',hmem,hw',by omega⟩
    · omega
    · obtain ⟨w,hmem,hw,hle⟩ := hb m hm hnot
      by_cases hmw : m = w
      · exact .inl (hmw ▸ hmem)
      · exact .inr ⟨w,hmem,hw,by omega⟩
    · omega

end Arrival

theorem step_sound (op : Op K) (s : ReadWriteLock K) (h : Sound s) : Sound (step op s) := by
  cases op with
  | read key => exact read_sound h key
  | write key => exact write_sound h key
  | enter n => exact enter_sound h n
  | cancel n => exact cancel_sound h n
  | release n => exact release_sound h n
  | finish n => exact finish_sound h n

section Exclusion

variable {s : ReadWriteLock K} {key : K}

def Holds (s : ReadWriteLock K) (n : ℕ) (kind : Kind) (key : K) : Prop :=
  ∃ c, s.callers.lookup n = some c ∧ c.kind = kind ∧ c.key = key ∧ c.phase = .entered

variable {n m : ℕ} {c : Caller K} {kind : Kind}

omit [DecidableEq K] in
theorem Holds.is (h : Holds s n kind key) : Is s n kind key := by
  obtain ⟨c,hc,hk,hkey,-⟩ := h
  exact ⟨c,hc,hk,hkey⟩

theorem Sound.not_both (h : Sound s) {kind' : Kind} {key' : K} (hn : Holds s n kind key)
    (hm : Holds s m kind' key') : ¬After s n m := by
  intro ha
  obtain ⟨c,hc,-,-,hp⟩ := hn
  obtain ⟨c',hc',-,-,hp'⟩ := hm
  exact h.pending m c' hc' (.inr (.inr hp')) (h.earlier_called hc (h.entered n c hc hp) ha)

theorem Sound.writer_unique (h : Sound s) (hn : Holds s n .write key) (hm : Holds s m .write key) :
    n = m := by
  by_contra hne
  rcases Nat.lt_or_gt_of_ne hne with hlt | hlt
  · exact h.not_both hm hn (after_of_write hm.is (.inr hn.is) hlt)
  · exact h.not_both hn hm (after_of_write hn.is (.inr hm.is) hlt)

theorem Sound.no_reader (h : Sound s) (hn : Holds s n .write key) : ¬Holds s m .read key := by
  intro hm
  rcases Nat.lt_trichotomy n m with hlt | heq | hlt
  · exact h.not_both hm hn ⟨hlt,key,.inr ⟨hm.is,hn.is⟩⟩
  · subst heq
    obtain ⟨c,hc,hk,-⟩ := hm
    have hb := (hn.is.lookup hc).1
    rw [hk] at hb
    cases hb
  · exact h.not_both hn hm (after_of_write hn.is (.inl hm.is) hlt)

omit [DecidableEq K] in
theorem is_of_lookup (hc : s.callers.lookup m = some c) (hkey : c.key = key) :
    Is s m .read key ∨ Is s m .write key := by
  cases hk : c.kind with
  | read => exact .inl ⟨c,hc,hk,hkey⟩
  | write => exact .inr ⟨c,hc,hk,hkey⟩

omit [DecidableEq K] in
theorem holds_enter (hc : s.callers.lookup n = some c) (hp : c.phase = .waiting) :
    Holds (enter n s) n c.kind c.key ↔ c.waitsOn ⊆ s.called := by
  by_cases hca : c.waitsOn ⊆ s.called
  · simp [enter,hc,hca,hp,setPhase,Holds]
  · simp [enter,hc,hca,hp,Holds]

theorem Sound.writer_enters (h : Sound s) (hc : s.callers.lookup n = some c) (hk : c.kind = .write)
    (hp : c.phase = .waiting) :
    Holds (enter n s) n .write c.key ↔
      ∀ m c', m < n → s.callers.lookup m = some c' → c'.key = c.key → m ∈ s.called := by
  rw [← hk,holds_enter hc hp]
  constructor
  · intro hca m c' hlt hc' hkey
    exact h.earlier_called hc hca (after_of_write ⟨c,hc,hk,rfl⟩ (is_of_lookup hc' hkey) hlt)
  · intro hall m hm
    have ha := h.waitsOn n c m hc hm
    rcases ha.key hc with ⟨c',hc',-,hkey⟩ | ⟨c',hc',-,hkey⟩ <;> exact hall m c' ha.1 hc' hkey

theorem Sound.waited (h : Sound s) (hn : Holds s n kind key) (hlt : m < n)
    (hc : s.callers.lookup m = some c) (hkey : c.key = key) : c.waitsOn ⊆ s.called := by
  obtain ⟨cn,hcn,-,hke,hp⟩ := hn
  have he : ∀ d, After s n d → d ∈ s.called := fun d hd =>
    h.earlier_called hcn (h.entered n cn hcn hp) hd
  have hn' := is_of_lookup hcn hke
  cases hk : c.kind with
  | write =>
    have hm : Is s m .write key := ⟨c,hc,hk,hkey⟩
    have ha : After s n m := ⟨hlt,key,hn'.elim (fun hr => .inr ⟨hr,hm⟩)
      (fun hw => .inl ⟨hw,.inr hm⟩)⟩
    exact h.kept m c hc hk (he m ha)
  | read =>
    -- what a reader waits for are writers, which come before the holder as well
    intro d hd
    obtain ⟨hdm,key',⟨hm,-⟩ | ⟨hm,hw⟩⟩ := h.waitsOn m c d hc hd
    · have hb := (hm.lookup hc).1
      rw [hk] at hb
      cases hb
    · have hk' : key' = key := ((hm.lookup hc).2.symm.trans hkey)
      subst hk'
      exact he d ⟨by omega,key',hn'.elim (fun hr => .inr ⟨hr,hw⟩) (fun hn => .inl ⟨hn,.inr hw⟩)⟩

/-- However the callers interleave and are cancelled, a writer has the lock alone. A
writer that waits goes on exactly when every caller for the key that arrived before
it has called back its deferred, and nobody has the lock before what an earlier
caller waits for is called back, also if that caller has given up. -/
theorem readWriteLock_excludes (ops : List (Op K)) :
    (∀ key, Arrives (run ops start) (read key (run ops start)) .read key
        ((run ops start).keyToCurrentWriter.lookup key).toFinset ∧
      Arrives (run ops start) (write key (run ops start)) .write key
        (currentReaders (run ops start) key ∪
          ((run ops start).keyToCurrentWriter.lookup key).toFinset)) ∧
    (∀ key n m, Holds (run ops start) n .write key → Holds (run ops start) m .write key → n = m) ∧
    (∀ key n m, Holds (run ops start) n .write key → ¬Holds (run ops start) m .read key) ∧
    (∀ n c, (run ops start).callers.lookup n = some c → c.kind = .write → c.phase = .waiting →
      (Holds (enter n (run ops start)) n .write c.key ↔
        ∀ m c', m < n → (run ops start).callers.lookup m = some c' → c'.key = c.key →
          m ∈ (run ops start).called)) ∧
    ∀ key n m kind c, Holds (run ops start) n kind key → m < n →
      (run ops start).callers.lookup m = some c → c.key = key →
        c.waitsOn ⊆ (run ops start).called := by
  have h : Sound (run ops start) := Runs.run_invariant step_sound ops start_sound
  refine ⟨fun key => ⟨arrives_read _ key,arrives_write _ key⟩,
    fun key n m hn hm => h.writer_unique hn hm,fun key n m hn => h.no_reader hn,?_,?_⟩
  · intro n c hc hkind hphase
    exact h.writer_enters hc hkind hphase
  · intro key n m kind c hn hlt hc hkey
    exact h.waited hn hlt hc hkey

def DoneCalled (s : ReadWriteLock K) : Prop :=
  ∀ n c, s.callers.lookup n = some c → c.phase = .done → n ∈ s.called

def GoesOn (s : ReadWriteLock K) (c : Caller K) : Prop :=
  c.phase = .entered ∨ c.phase ∈ [.waiting,.cancelling] ∧ c.waitsOn ⊆ s.called

omit [DecidableEq K] in
theorem DoneCalled.set (h : DoneCalled s) {s' : ReadWriteLock K}
    (hl : s'.callers = s.callers.insert n c) (hs : s.called ⊆ s'.called)
    (hd : c.phase = .done → n ∈ s'.called) : DoneCalled s' := by
  intro m c' hm hp
  rw [hl] at hm
  rcases set_cases hm with ⟨rfl,rfl⟩ | ⟨-,hm⟩
  · exact hd hp
  · exact hs (h m c' hm hp)

theorem step_done (op : Op K) (s : ReadWriteLock K) (h : Sound s ∧ DoneCalled s) :
    Sound (step op s) ∧ DoneCalled (step op s) := by
  refine ⟨step_sound op s h.1,?_⟩
  have hs := Finset.Subset.refl s.called
  cases op with
  | read key | write key => exact h.2.set rfl hs nofun
  | enter n | cancel n | release n | finish n =>
    simp only [step,enter,cancel,release,finish]
    repeat' split
    all_goals first
      | exact h.2
      | exact h.2.set rfl hs (fun _ => h.1.released _ _ ‹_› ‹_›)
      | exact h.2.set rfl (subset_insert _ _) nofun
      | exact h.2.set rfl hs nofun

/-- While a caller waits, it or one for the key that came before it goes on. -/
theorem never_deadlocked (ops : List (Op K)) (n : ℕ) (c : Caller K)
    (hc : (run ops start).callers.lookup n = some c) (hw : c.phase ∈ [.waiting,.cancelling]) :
    ∃ m ≤ n, ∃ c', (run ops start).callers.lookup m = some c' ∧ c'.key = c.key ∧
      GoesOn (run ops start) c' := by
  obtain ⟨hs,hd⟩ := Runs.run_invariant step_done ops ⟨start_sound,nofun⟩
  induction n using Nat.strong_induction_on generalizing c with
  | _ n ih =>
    by_cases hs' : c.waitsOn ⊆ (run ops start).called
    · exact ⟨n,le_rfl,c,hc,rfl,.inr ⟨hw,hs'⟩⟩
    · obtain ⟨m,hm,hn⟩ := not_subset.mp hs'
      have ha := hs.waitsOn n c m hc hm
      obtain ⟨c',hc',-,hk⟩ | ⟨c',hc',-,hk⟩ := ha.key hc
      all_goals
        cases hp : c'.phase with
        | entered => exact ⟨m,ha.1.le,c',hc',hk,.inl hp⟩
        | releasing => exact absurd (hs.released m c' hc' hp) hn
        | done => exact absurd (hd m c' hc' hp) hn
        | waiting | cancelling =>
          obtain ⟨l,hl,h⟩ := ih m ha.1 c' hc' (by simp [hp])
          exact ⟨l,hl.trans ha.1.le,hk ▸ h⟩

theorem never_deadlocked_twoWriters : ∃ m ≤ 1, ∃ c',
    (run [.write (),.write ()] start).callers.lookup m = some c' ∧ c'.key = () ∧
      GoesOn (run [.write (),.write ()] start) c' :=
  never_deadlocked _ 1 ⟨.write,(),{0},.waiting⟩ rfl (by simp)

end Exclusion

end ReadWriteLock

end Synapse
