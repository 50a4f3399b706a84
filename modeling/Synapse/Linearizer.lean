import Synapse.Dict
import Synapse.Runs

/-!
# The linearizer

At most `max_count` callers hold the lock for a key, and the others wait for their
deferreds. The one that releases the lock calls back the first of these, which
takes the place in that call and enters after a turn of the reactor. Between two
operations every caller waits, has been woken or has entered.
-/

set_option autoImplicit false

namespace Synapse
open Python Finset Function

/-- `_LinearizerEntry`, with the callers that wait for the deferreds. -/
structure LinearizerEntry where
  count : ℤ
  deferreds : List ℕ
  deriving DecidableEq

inductive Linearizer.Phase where
  | waiting
  | woken
  | entered
  deriving DecidableEq

/-- A call of `queue` that has not ended, with the entry that it refers to. -/
structure Linearizer.Caller (K : Type) where
  key : K
  entry : ℕ
  phase : Linearizer.Phase
  deriving DecidableEq

/-- Entries are objects, numbered as they are made, and callers are numbered as
they queue. -/
structure Linearizer (K : Type) where
  maxCount : ℤ
  keyToDefer : Dict K ℕ
  entries : ℕ → LinearizerEntry
  nextEntry : ℕ
  callers : Dict ℕ (Linearizer.Caller K)
  nextCaller : ℕ

namespace Linearizer

variable {K : Type} [DecidableEq K]

def start (maxCount : ℤ) : Linearizer K := ⟨maxCount,∅,fun _ => ⟨0,[]⟩,0,∅,0⟩

def setEntry (e : ℕ) (entry : LinearizerEntry) (s : Linearizer K) : Linearizer K :=
  { s with entries := Function.update s.entries e entry }

def setDefault (key : K) (s : Linearizer K) : ℕ × Linearizer K :=
  match s.keyToDefer.lookup key with
  | some e => (e,s)
  | none =>
    (s.nextEntry,
      { setEntry s.nextEntry ⟨0,[]⟩ s with
        keyToDefer := s.keyToDefer.insert key s.nextEntry, nextEntry := s.nextEntry + 1 })

def addCaller (key : K) (e : ℕ) (phase : Phase) (s : Linearizer K) : Linearizer K :=
  { s with
    callers := s.callers.insert s.nextCaller ⟨key,e,phase⟩, nextCaller := s.nextCaller + 1 }

/-- `_acquire_lock`, up to its first `await`. -/
def acquireLock (key : K) (s : Linearizer K) : Linearizer K :=
  let (e,s) := setDefault key s
  let entry := s.entries e
  if entry.count < s.maxCount then
    addCaller key e .entered (setEntry e { entry with count := entry.count + 1 } s)
  else
    addCaller key e .waiting
      (setEntry e { entry with deferreds := entry.deferreds ++ [s.nextCaller] } s)

def setPhase (caller : ℕ) (phase : Phase) (s : Linearizer K) : Linearizer K :=
  match s.callers.lookup caller with
  | some c => { s with callers := s.callers.insert caller { c with phase := phase } }
  | none => s

def wake (caller : ℕ) (s : Linearizer K) : Linearizer K :=
  match s.callers.lookup caller with
  | some c =>
    let entry := s.entries c.entry
    setPhase caller .woken (setEntry c.entry { entry with count := entry.count + 1 } s)
  | none => s

def releaseLock (key : K) (e : ℕ) (s : Linearizer K) : Py Empty (Linearizer K) :=
  let entry := s.entries e
  let count := entry.count - 1
  match entry.deferreds with
  | next::rest => .ok (wake next (setEntry e ⟨count,rest⟩ s))
  | [] =>
    let s := setEntry e ⟨count,[]⟩ s
    if count = 0 then
      if key ∈ s.keyToDefer then .ok { s with keyToDefer := s.keyToDefer.erase key }
      else .error .keyError
    else .ok s

def finish (caller : ℕ) (s : Linearizer K) : Linearizer K :=
  { s with callers := s.callers.erase caller }

def exit (caller : ℕ) (s : Linearizer K) : Py Empty (Linearizer K) :=
  match s.callers.lookup caller with
  | some c => if c.phase = .entered then releaseLock c.key c.entry (finish caller s) else .ok s
  | none => .ok s

/-- The caller is cancelled where it waits for its deferred or for the reactor. One
that has entered exits when it sees fit. -/
def cancel (caller : ℕ) (s : Linearizer K) : Py Empty (Linearizer K) :=
  match s.callers.lookup caller with
  | some c =>
    match c.phase with
    | .waiting =>
      let entry := s.entries c.entry
      if caller ∈ entry.deferreds then
        .ok (finish caller
          (setEntry c.entry { entry with deferreds := entry.deferreds.erase caller } s))
      else .error .keyError
    | .woken => releaseLock c.key c.entry (finish caller s)
    | .entered => .ok s
  | none => .ok s

def tick (caller : ℕ) (s : Linearizer K) : Linearizer K :=
  match s.callers.lookup caller with
  | some c => if c.phase = .woken then setPhase caller .entered s else s
  | none => s

inductive Op (K : Type) where
  | queue (key : K)
  | tick (caller : ℕ)
  | exit (caller : ℕ)
  | cancel (caller : ℕ)

def step (s : Linearizer K) : Op K → Py Empty (Linearizer K)
  | .queue key => .ok (acquireLock key s)
  | .tick caller => .ok (tick caller s)
  | .exit caller => exit caller s
  | .cancel caller => cancel caller s

def run (ops : List (Op K)) (s : Linearizer K) : Py Empty (Linearizer K) := ops.foldlM step s

def callersIn (s : Linearizer K) (key : K) (p : Phase → Bool) : Finset ℕ :=
  s.callers.keys.toFinset.filter (fun n =>
    (s.callers.lookup n).any (fun c => c.key = key ∧ p c.phase))

variable {s : Linearizer K} {n : ℕ} {key : K}

theorem mem_callersIn {p : Phase → Bool} :
    n ∈ callersIn s key p ↔ ∃ c, s.callers.lookup n = some c ∧ c.key = key ∧ p c.phase = true := by
  rw [callersIn,mem_filter,List.mem_toFinset,← AList.mem_keys,Dict.mem_iff_lookup,
    Option.any_eq_true]
  constructor
  · rintro ⟨-,c,hl,hc⟩
    exact ⟨c,hl,by simpa using hc⟩
  · rintro ⟨c,hl,hc⟩
    exact ⟨⟨c,hl⟩,c,hl,by simpa using hc⟩

def holders (s : Linearizer K) (key : K) : Finset ℕ := callersIn s key (· ≠ .waiting)

def waiters (s : Linearizer K) (key : K) : Finset ℕ := callersIn s key (· = .waiting)

theorem mem_holders :
    n ∈ holders s key ↔ ∃ c, s.callers.lookup n = some c ∧ c.key = key ∧ c.phase ≠ .waiting := by
  simp [holders,mem_callersIn]

theorem mem_waiters :
    n ∈ waiters s key ↔ ∃ c, s.callers.lookup n = some c ∧ c.key = key ∧ c.phase = .waiting := by
  simp [waiters,mem_callersIn]

section Entries

omit [DecidableEq K]

@[simp] theorem entries_setEntry_self (e : ℕ) (en : LinearizerEntry) (s : Linearizer K) :
    (setEntry e en s).entries e = en := update_self _ _ _

theorem entries_setEntry_ne {e e' : ℕ} (h : e' ≠ e) (en : LinearizerEntry) (s : Linearizer K) :
    (setEntry e en s).entries e' = s.entries e' :=
  update_of_ne h _ _

end Entries

@[simp] theorem callersIn_setEntry (e : ℕ) (en : LinearizerEntry) (s : Linearizer K) (key : K)
    (p : Phase → Bool) : callersIn (setEntry e en s) key p = callersIn s key p := rfl

theorem callersIn_insert {s' : Linearizer K} {c : Caller K} (hc : s'.callers = s.callers.insert n c)
    (p : Phase → Bool) :
    callersIn s' c.key p =
      if p c.phase then insert n (callersIn s c.key p) else (callersIn s c.key p).erase n := by
  ext m
  rw [mem_callersIn,hc]
  split
  · next hp =>
    rw [mem_insert,mem_callersIn]
    by_cases hm : m = n
    · subst hm
      simp [hp]
    · simp [hm]
  · next hp =>
    rw [mem_erase,mem_callersIn]
    by_cases hm : m = n
    · subst hm
      simp [hp]
    · simp [hm]

theorem callersIn_addCaller (s : Linearizer K) (key : K) (e : ℕ) (ph : Phase) (p : Phase → Bool) :
    callersIn (addCaller key e ph s) key p =
      if p ph then insert s.nextCaller (callersIn s key p)
      else (callersIn s key p).erase s.nextCaller :=
  callersIn_insert (c := ⟨key,e,ph⟩) rfl p

theorem callersIn_finish (s : Linearizer K) (n : ℕ) (key : K) (p : Phase → Bool) :
    callersIn (finish n s) key p = (callersIn s key p).erase n := by
  ext m
  rw [mem_callersIn,mem_erase,mem_callersIn,finish]
  by_cases hm : m = n
  · subst hm
    simp
  · simp [hm]

theorem callersIn_setPhase {c : Caller K} (hl : s.callers.lookup n = some c) (ph : Phase)
    (p : Phase → Bool) :
    callersIn (setPhase n ph s) c.key p =
      if p ph then insert n (callersIn s c.key p) else (callersIn s c.key p).erase n := by
  rw [setPhase,hl]
  exact callersIn_insert (c := { c with phase := ph }) rfl p

end Linearizer

end Synapse
