import Synapse.Linearizer

/-!
# The places of the linearizer

The count of an entry is the number of callers that have acquired the lock. A
caller waits only when the count is at its maximum, so that a place that becomes
free is handed to the first of those that wait, or else to nobody.
-/

set_option autoImplicit false

namespace Synapse.Linearizer
open Python List Dict Option Finset Except Function

variable {K : Type} [DecidableEq K]

section Invariant

/-- The entry of a key accounts for its callers. A place that is being released is
still counted. -/
structure Served (s : Linearizer K) (key : K) (e spare : ℕ) : Prop where
  entry : ∀ n c, s.callers.lookup n = some c → c.key = key → c.entry = e
  count : (s.entries e).count = (holders s key).card + spare
  bounded : (s.entries e).count ≤ s.maxCount
  full : (s.entries e).deferreds ≠ [] → (s.entries e).count = s.maxCount
  ordered : (s.entries e).deferreds.Pairwise (· < ·)
  waiting : ∀ n, n ∈ (s.entries e).deferreds ↔ n ∈ waiters s key

structure Sound (s : Linearizer K) (spare : K → ℕ) : Prop where
  positive : 1 ≤ s.maxCount
  absent : ∀ key, s.keyToDefer.lookup key = none →
    spare key = 0 ∧ ∀ n c, s.callers.lookup n = some c → c.key ≠ key
  present : ∀ key e, s.keyToDefer.lookup key = some e → Served s key e (spare key)
  apart : ∀ key key' e, s.keyToDefer.lookup key = some e → s.keyToDefer.lookup key' = some e →
    key = key'
  made : ∀ key e, s.keyToDefer.lookup key = some e → e < s.nextEntry
  queued : ∀ n c, s.callers.lookup n = some c → n < s.nextCaller

def InUse (s : Linearizer K) : Prop :=
  ∀ key e, s.keyToDefer.lookup key = some e → 1 ≤ (s.entries e).count

/-- A caller acquires the lock only where all that wait queued after it. -/
def Fair (s s' : Linearizer K) : Prop :=
  ∀ key n, n ∈ holders s' key → n ∉ holders s key → ∀ m ∈ waiters s' key, n < m

structure Keeps (s s' : Linearizer K) : Prop where
  sound : Sound s' 0
  inUse : InUse s'
  fair : Fair s s'
  maxCount : s'.maxCount = s.maxCount

theorem start_sound {maxCount : ℤ} (hm : 1 ≤ maxCount) :
    Sound (start maxCount : Linearizer K) 0 where
  positive := hm
  absent := by simp [start]
  present := by simp [start]
  apart := by simp [start]
  made := by simp [start]
  queued := by simp [start]

variable {s s' : Linearizer K} {key : K} {e spare : ℕ}

theorem Keeps.refl (hs : Sound s 0) (hu : InUse s) : Keeps s s :=
  ⟨hs,hu,fun _ _ hm hn => absurd hm hn,rfl⟩

theorem callersIn_congr
    (hc : ∀ n c, c.key = key → (s'.callers.lookup n = some c ↔ s.callers.lookup n = some c))
    (p : Phase → Bool) : callersIn s' key p = callersIn s key p := by
  ext n
  rw [mem_callersIn,mem_callersIn]
  constructor
  · rintro ⟨c,hl,hk,hp⟩
    exact ⟨c,(hc n c hk).mp hl,hk,hp⟩
  · rintro ⟨c,hl,hk,hp⟩
    exact ⟨c,(hc n c hk).mpr hl,hk,hp⟩

theorem Served.frame (h : Served s key e spare) (hm : s'.maxCount = s.maxCount)
    (he : s'.entries e = s.entries e)
    (hc : ∀ n c, c.key = key → (s'.callers.lookup n = some c ↔ s.callers.lookup n = some c)) :
    Served s' key e spare := by
  have hh : holders s' key = holders s key := callersIn_congr hc _
  have hw : waiters s' key = waiters s key := callersIn_congr hc _
  constructor
  · intro n c hl hk
    exact h.entry n c ((hc n c hk).mp hl) hk
  · rw [he,hh]
    exact h.count
  · rw [he,hm]
    exact h.bounded
  · rw [he,hm]
    exact h.full
  · rw [he]
    exact h.ordered
  · rw [he,hw]
    exact h.waiting

theorem served_empty (he : s.entries e = ⟨0,[]⟩) (hm : 0 ≤ s.maxCount)
    (hn : ∀ n c, s.callers.lookup n = some c → c.key ≠ key) : Served s key e 0 := by
  have hem : ∀ p, callersIn s key p = ∅ := by
    intro p
    ext n
    simp only [mem_callersIn,notMem_empty,iff_false]
    rintro ⟨c,hc,hk,-⟩
    exact hn n c hc hk
  constructor
  · exact fun n c hc hk => absurd hk (hn n c hc)
  · simp [he,holders,hem]
  · rw [he]
    exact hm
  · simp [he]
  · simp [he]
  · simp [he,waiters,hem]

structure Changes (s s' : Linearizer K) (key : K) (e : ℕ) : Prop where
  maxCount : s'.maxCount = s.maxCount
  keyToDefer : s'.keyToDefer = s.keyToDefer
  nextEntry : s'.nextEntry = s.nextEntry
  entries : ∀ e', e' ≠ e → s'.entries e' = s.entries e'
  callers : ∀ n c, c.key ≠ key → (s'.callers.lookup n = some c ↔ s.callers.lookup n = some c)
  nextCaller : s.nextCaller ≤ s'.nextCaller
  queued : ∀ n c, s'.callers.lookup n = some c →
    n < s'.nextCaller ∨ ∃ c', s.callers.lookup n = some c'

theorem Changes.sound (h : Changes s s' key e) {spare spare' : K → ℕ} (hs : Sound s spare)
    (hk : s.keyToDefer.lookup key = some e) (hsp : ∀ o, o ≠ key → spare' o = spare o)
    (hse : Served s' key e (spare' key)) :
    Sound s' spare' where
  positive := h.maxCount ▸ hs.positive
  absent := by
    intro o hn
    rw [h.keyToDefer] at hn
    have hne : o ≠ key := by
      rintro rfl
      rw [hk] at hn
      cases hn
    obtain ⟨hz,hca⟩ := hs.absent o hn
    rw [hsp o hne]
    refine ⟨hz,?_⟩
    intro n c hl hc
    exact hca n c ((h.callers n c (fun h => hne (hc.symm.trans h))).mp hl) hc
  present := by
    intro o e' hl
    rw [h.keyToDefer] at hl
    by_cases ho : o = key
    · subst ho
      rw [hk] at hl
      cases hl
      exact hse
    · have hne : e' ≠ e := by
        rintro rfl
        exact ho (hs.apart o key e' hl hk)
      rw [hsp o ho]
      apply (hs.present o e' hl).frame h.maxCount (h.entries e' hne)
      intro n c hc
      exact h.callers n c (fun h => ho (hc.symm.trans h))
  apart := by
    rw [h.keyToDefer]
    exact hs.apart
  made := by
    rw [h.keyToDefer,h.nextEntry]
    exact hs.made
  queued := by
    intro n c hl
    rcases h.queued n c hl with hlt | ⟨c',hold⟩
    · exact hlt
    · have := hs.queued n c' hold
      have := h.nextCaller
      omega

theorem Changes.inUse (h : Changes s s' key e) (hc : 1 ≤ (s'.entries e).count)
    (hu : ∀ o e', o ≠ key → s.keyToDefer.lookup o = some e' → 1 ≤ (s.entries e').count)
    (hk : s.keyToDefer.lookup key = some e) : InUse s' := by
  intro o e' hl
  rw [h.keyToDefer] at hl
  by_cases he : e' = e
  · rw [he]
    exact hc
  · have hne : o ≠ key := by
      rintro rfl
      exact he (some.inj (hl.symm.trans hk))
    rw [h.entries e' he]
    exact hu o e' hne hl

theorem Changes.fair (h : Changes s s' key e)
    (hk : ∀ n, n ∈ holders s' key → n ∉ holders s key → ∀ m ∈ waiters s' key, n < m) :
    Fair s s' := by
  intro o n hm hn
  by_cases ho : o = key
  · rw [ho] at hm hn ⊢
    exact hk n hm hn
  · have hs : holders s' o = holders s o :=
      callersIn_congr (fun n c hc => h.callers n c (fun h => ho (hc.symm.trans h))) _
    exact absurd (hs ▸ hm) hn

theorem Sound.keyToDefer_of_caller {spare : K → ℕ} (h : Sound s spare) {n : ℕ} {c : Caller K}
    (hl : s.callers.lookup n = some c) : s.keyToDefer.lookup c.key = some c.entry := by
  cases hk : s.keyToDefer.lookup c.key with
  | none => exact absurd rfl ((h.absent c.key hk).2 n c hl)
  | some e => rw [(h.present c.key e hk).entry n c hl rfl]

end Invariant

section Other

omit [DecidableEq K]

variable {callers : Dict ℕ (Caller K)} {key : K} {n : ℕ} {c : Caller K}

theorem lookup_insert_other (hk : c.key = key)
    (ho : ∀ c', callers.lookup n = some c' → c'.key = key) {m : ℕ} {c' : Caller K}
    (hc' : c'.key ≠ key) :
    (callers.insert n c).lookup m = some c' ↔ callers.lookup m = some c' := by
  rw [lookup_set]
  by_cases hm : m = n
  · subst hm
    rw [if_pos rfl]
    constructor
    · intro h
      cases h
      exact absurd hk hc'
    · intro h
      exact absurd (ho c' h) hc'
  · rw [if_neg hm]

theorem lookup_erase_other (ho : ∀ c', callers.lookup n = some c' → c'.key = key) {m : ℕ}
    {c' : Caller K} (hc' : c'.key ≠ key) :
    (callers.erase n).lookup m = some c' ↔ callers.lookup m = some c' := by
  rw [lookup_pop]
  by_cases hm : m = n
  · subst hm
    rw [if_pos rfl]
    constructor
    · intro h
      cases h
    · intro h
      exact absurd (ho c' h) hc'
  · rw [if_neg hm]

end Other

section Acquire

variable {s : Linearizer K} {key : K}

theorem setDefault_spec (h : Sound s 0) (hu : InUse s) (key : K) :
    (setDefault key s).2.keyToDefer.lookup key = some (setDefault key s).1 ∧
      Sound (setDefault key s).2 0 ∧
      (∀ o e, o ≠ key → (setDefault key s).2.keyToDefer.lookup o = some e →
        1 ≤ ((setDefault key s).2.entries e).count) ∧ (setDefault key s).2.callers = s.callers ∧
      (setDefault key s).2.maxCount = s.maxCount := by
  rw [setDefault]
  cases hk : s.keyToDefer.lookup key with
  | some e => exact ⟨hk,h,fun o e _ hl => hu o e hl,rfl,rfl⟩
  | none =>
    have he : ∀ o e, s.keyToDefer.lookup o = some e →
        (Function.update s.entries s.nextEntry ⟨0,[]⟩) e = s.entries e := by
      intro o e hl
      have := h.made o e hl
      rw [update_of_ne (by omega)]
    have ho : ∀ o e, o ≠ key → (s.keyToDefer.insert key s.nextEntry).lookup o = some e →
          s.keyToDefer.lookup o = some e := by
      intro o e hne hl
      rw [lookup_set,if_neg hne] at hl
      exact hl
    have hn := (h.absent key hk).2
    refine ⟨by simp,?_,?_,rfl,rfl⟩
    · constructor
      · exact h.positive
      · intro o hl
        rw [lookup_set] at hl
        split at hl
        · cases hl
        · exact h.absent o hl
      · intro o e hl
        by_cases hne : o = key
        · subst hne
          rw [lookup_set,if_pos rfl] at hl
          cases hl
          have hp := h.positive
          exact served_empty (update_self _ _ _) (by change 0 ≤ s.maxCount; omega) hn
        · have hold := ho o e hne hl
          exact (h.present o e hold).frame rfl (he o e hold) (fun _ _ _ => Iff.rfl)
      · intro o o' e hl hl'
        by_cases hne : o = key
        · by_cases hne' : o' = key
          · rw [hne,hne']
          · rw [hne,lookup_set,if_pos rfl] at hl
            cases hl
            have := h.made o' _ (ho o' _ hne' hl')
            omega
        · by_cases hne' : o' = key
          · rw [hne',lookup_set,if_pos rfl] at hl'
            cases hl'
            have := h.made o _ (ho o _ hne hl)
            omega
          · exact h.apart o o' e (ho o e hne hl) (ho o' e hne' hl')
      · intro o e hl
        change e < s.nextEntry + 1
        by_cases hne : o = key
        · rw [hne,lookup_set,if_pos rfl] at hl
          cases hl
          omega
        · have := h.made o e (ho o e hne hl)
          omega
      · exact h.queued
    · intro o e hne hl
      have hold := ho o e hne hl
      simp only [setEntry,he o e hold]
      exact hu o e hold

theorem changes_addCaller {spare : K → ℕ} (h : Sound s spare) (key : K) (e : ℕ)
    (en : LinearizerEntry) (ph : Phase) :
    Changes s (addCaller key e ph (setEntry e en s)) key e where
  maxCount := rfl
  keyToDefer := rfl
  nextEntry := rfl
  entries := fun _ hne => entries_setEntry_ne hne _ _
  callers := by
    intro n c hc
    apply lookup_insert_other rfl _ hc
    intro c' hc'
    have := h.queued _ c' hc'
    exact absurd this (lt_irrefl _)
  nextCaller := Nat.le_succ _
  queued := by
    intro n c hl
    simp only [addCaller,setEntry,lookup_set] at hl ⊢
    split at hl
    · left
      omega
    · exact .inr ⟨c,hl⟩

variable {e : ℕ}

theorem Served.entry_addCaller {spare : ℕ} (h : Served s key e spare) (en : LinearizerEntry)
    (ph : Phase) (n : ℕ) (c : Caller K)
    (hl : (addCaller key e ph (setEntry e en s)).callers.lookup n = some c) (hc : c.key = key) :
    c.entry = e := by
  rcases set_cases hl with ⟨-,rfl⟩ | ⟨-,hl⟩
  · rfl
  · exact h.entry n c hl hc

theorem Sound.not_mem_callersIn {spare : K → ℕ} (h : Sound s spare) (key : K) (p : Phase → Bool) :
    s.nextCaller ∉ callersIn s key p := by
  intro hm
  obtain ⟨c,hc,-⟩ := mem_callersIn.mp hm
  exact absurd (h.queued _ c hc) (lt_irrefl _)

theorem Served.deferreds_eq_nil {spare : ℕ} (h : Served s key e spare)
    (hlt : (s.entries e).count < s.maxCount) : (s.entries e).deferreds = [] := by
  by_contra hne
  have := h.full hne
  omega

theorem Sound.enter {s' : Linearizer K} (h : Sound s 0)
    (hk : s.keyToDefer.lookup key = some e) (hlt : (s.entries e).count < s.maxCount)
    (hs' : s' = addCaller key e .entered
      (setEntry e { s.entries e with count := (s.entries e).count + 1 } s)) :
    Served s' key e 0 := by
  have hs := h.present key e hk
  have hn := hs.deferreds_eq_nil hlt
  have hnh : s.nextCaller ∉ holders s key := h.not_mem_callersIn key _
  have hnw : s.nextCaller ∉ waiters s key := h.not_mem_callersIn key _
  have he : s'.entries e = { s.entries e with count := (s.entries e).count + 1 } := by
    rw [hs']
    exact entries_setEntry_self _ _ _
  have hm : s'.maxCount = s.maxCount := by rw [hs']; rfl
  have hh : holders s' key = insert s.nextCaller (holders s key) := by
    rw [hs',holders,callersIn_addCaller]
    rfl
  have hw : waiters s' key = waiters s key := by
    rw [hs',waiters,callersIn_addCaller]
    exact erase_eq_of_notMem hnw
  constructor
  · rw [hs']
    exact hs.entry_addCaller _ _
  · have hc := hs.count
    rw [he,hh,card_insert_of_notMem hnh]
    simp only [Pi.zero_apply] at hc ⊢
    omega
  · rw [he,hm]
    exact Int.add_one_le_of_lt hlt
  · rw [he]
    exact fun hne => absurd hn hne
  · rw [he]
    exact hs.ordered
  · rw [he,hw]
    exact hs.waiting

theorem Sound.wait {s' : Linearizer K} (h : Sound s 0)
    (hk : s.keyToDefer.lookup key = some e) (hf : ¬(s.entries e).count < s.maxCount)
    (hs' : s' = addCaller key e .waiting (setEntry e
      { s.entries e with deferreds := (s.entries e).deferreds ++ [s.nextCaller] } s)) :
    Served s' key e 0 := by
  have hs := h.present key e hk
  have hb := hs.bounded
  have hnh : s.nextCaller ∉ holders s key := h.not_mem_callersIn key _
  have he : s'.entries e =
      { s.entries e with deferreds := (s.entries e).deferreds ++ [s.nextCaller] } := by
    rw [hs']
    exact entries_setEntry_self _ _ _
  have hmax : s'.maxCount = s.maxCount := by rw [hs']; rfl
  have hh : holders s' key = holders s key := by
    rw [hs',holders,callersIn_addCaller]
    exact erase_eq_of_notMem hnh
  have hw : waiters s' key = insert s.nextCaller (waiters s key) := by
    rw [hs',waiters,callersIn_addCaller]
    rfl
  constructor
  · rw [hs']
    exact hs.entry_addCaller _ _
  · rw [he,hh]
    exact hs.count
  · rw [he,hmax]
    exact hb
  · rw [he,hmax]
    intro _
    exact le_antisymm hb (not_lt.mp hf)
  · rw [he,pairwise_append]
    refine ⟨hs.ordered,pairwise_singleton _ _,?_⟩
    intro n hn m hm
    obtain ⟨c,hc,-⟩ := mem_waiters.mp ((hs.waiting n).mp hn)
    rw [List.mem_singleton.mp hm]
    exact h.queued n c hc
  · intro n
    rw [he,hw,mem_append,List.mem_singleton,hs.waiting n,mem_insert]
    exact or_comm

theorem acquireLock_spec (h : Sound s 0) (hu : InUse s) (key : K) :
    Keeps s (acquireLock key s) := by
  obtain ⟨hk,hs,hu,hca,hmax⟩ := setDefault_spec h hu key
  rw [acquireLock]
  generalize setDefault key s = result at *
  obtain ⟨e,s₁⟩ := result
  simp only at hk hs hu hca hmax ⊢
  have hse := hs.present key e hk
  have hp := hs.positive
  have hf : ∀ s', Fair s₁ s' → Fair s s' := by
    intro s' hf o n hmem hn
    apply hf o n hmem
    rw [holders,callersIn,hca]
    exact hn
  split
  · next hlt =>
    have hc := changes_addCaller hs key e
      { s₁.entries e with count := (s₁.entries e).count + 1 } .entered
    have hse' := hs.enter hk hlt rfl
    refine ⟨hc.sound hs hk (fun _ _ => rfl) hse',hc.inUse ?_ hu hk,hf _ (hc.fair ?_),hmax⟩
    · have hco := hse.count
      change 1 ≤ ((setEntry e _ s₁).entries e).count
      rw [entries_setEntry_self]
      simp only
      omega
    · intro n _ _ m hm
      have he := hse.deferreds_eq_nil hlt
      rw [← hse'.waiting m] at hm
      change m ∈ ((setEntry e _ s₁).entries e).deferreds at hm
      rw [entries_setEntry_self,he] at hm
      cases hm
  · next hlt =>
    have hc := changes_addCaller hs key e
      { s₁.entries e with deferreds := (s₁.entries e).deferreds ++ [s₁.nextCaller] } .waiting
    have hse' := hs.wait hk hlt rfl
    refine ⟨hc.sound hs hk (fun _ _ => rfl) hse',hc.inUse ?_ hu hk,hf _ (hc.fair ?_),hmax⟩
    · change 1 ≤ ((setEntry e _ s₁).entries e).count
      rw [entries_setEntry_self]
      simp only
      omega
    · -- nobody acquires the lock
      intro n hmem hn
      rw [holders,callersIn_addCaller,if_neg (by simp),mem_erase] at hmem
      exact absurd hmem.2 hn

end Acquire

section Release

variable {s : Linearizer K} {key : K}

def releasing (key : K) : K → ℕ := fun other => if other = key then 1 else 0

variable {n e : ℕ} {c : Caller K} {s' : Linearizer K}

theorem Sound.finish (h : Sound s 0) (hl : s.callers.lookup n = some c) (hp : c.phase ≠ .waiting) :
    Sound (finish n s) (releasing c.key) := by
  have hk := h.keyToDefer_of_caller hl
  have hs := h.present c.key c.entry hk
  have hh : n ∈ holders s c.key := mem_holders.mpr ⟨c,hl,rfl,hp⟩
  have hnw : n ∉ waiters s c.key := by
    intro hmem
    obtain ⟨c',hl',-,hw⟩ := mem_waiters.mp hmem
    rw [hl] at hl'
    cases hl'
    exact hp hw
  have hlo : ∀ m c', (Linearizer.finish n s).callers.lookup m = some c' →
      s.callers.lookup m = some c' := by
    intro m c' hm
    exact (pop_cases hm).2
  have hc : Changes s (Linearizer.finish n s) c.key c.entry := by
    constructor
    · rfl
    · rfl
    · rfl
    · exact fun _ _ => rfl
    · intro m c' hc'
      apply lookup_erase_other _ hc'
      intro c' hl'
      rw [hl] at hl'
      rw [some.inj hl']
    · exact le_rfl
    · intro m c' hm
      exact .inr ⟨c',hlo m c' hm⟩
  apply hc.sound h hk
  · intro o hne
    simp [releasing,hne]
  · constructor
    · intro m c' hm hc'
      exact hs.entry m c' (hlo m c' hm) hc'
    · have hco := hs.count
      have hca := card_erase_add_one hh
      rw [holders,callersIn_finish]
      change (s.entries c.entry).count = (((holders s c.key).erase n).card : ℤ) + _
      simp only [releasing,if_pos,Pi.zero_apply] at hco ⊢
      omega
    · exact hs.bounded
    · exact hs.full
    · exact hs.ordered
    · intro m
      rw [waiters,callersIn_finish]
      change _ ↔ m ∈ (waiters s c.key).erase n
      rw [erase_eq_of_notMem hnw]
      exact hs.waiting m

omit [DecidableEq K] in
theorem changes_setPhase (hl : s.callers.lookup n = some c) (en : LinearizerEntry) (ph : Phase) :
    Changes s (setPhase n ph (setEntry c.entry en s)) c.key c.entry := by
  have hc : (setPhase n ph (setEntry c.entry en s)).callers =
      s.callers.insert n { c with phase := ph } := by
    simp only [setPhase,setEntry,hl]
  constructor
  · simp only [setPhase,setEntry,hl]
  · simp only [setPhase,setEntry,hl]
  · simp only [setPhase,setEntry,hl]
  · intro e hne
    simp only [setPhase,setEntry,hl,update_of_ne hne]
  · intro m c' hc'
    rw [hc]
    have ho : ∀ c', s.callers.lookup n = some c' → c'.key = c.key := by
      intro c' hl'
      rw [hl] at hl'
      rw [some.inj hl']
    exact lookup_insert_other (c := { c with phase := ph }) rfl ho hc'
  · simp only [setPhase,setEntry,hl]
    exact le_rfl
  · intro m c' hm
    rw [hc,lookup_set] at hm
    split at hm
    · rename_i hmn
      exact .inr ⟨c,hmn ▸ hl⟩
    · exact .inr ⟨c',hm⟩

theorem Sound.handOver {next : ℕ} {rs : List ℕ} (h : Sound s (releasing key))
    (hk : s.keyToDefer.lookup key = some e) (hu : InUse s) (hd : (s.entries e).deferreds = next::rs)
    (hs' : s' = wake next (setEntry e ⟨(s.entries e).count - 1,rs⟩ s)) : Keeps s s' := by
  have hs := h.present key e hk
  obtain ⟨c,hl,rfl,hp⟩ := mem_waiters.mp ((hs.waiting next).mp (by simp [hd]))
  obtain rfl := hs.entry next c hl rfl
  have ho := hs.ordered
  rw [hd,List.pairwise_cons] at ho
  have hw : s' = setPhase next .woken (setEntry c.entry ⟨(s.entries c.entry).count,rs⟩ s) := by
    rw [hs',wake]
    simp only [setEntry,hl]
    simp
  have hc : Changes s s' c.key c.entry := by
    rw [hw]
    exact changes_setPhase hl _ _
  have he : s'.entries c.entry = ⟨(s.entries c.entry).count,rs⟩ := by
    rw [hw]
    simp only [setPhase,setEntry,hl,update_self]
  have hca : s'.callers = s.callers.insert next { c with phase := .woken } := by
    rw [hw]
    simp only [setPhase,setEntry,hl]
  have hh : holders s' c.key = insert next (holders s c.key) := by
    rw [holders,callersIn_insert (c := { c with phase := .woken }) hca]
    rfl
  have hwa : waiters s' c.key = (waiters s c.key).erase next := by
    rw [waiters,callersIn_insert (c := { c with phase := .woken }) hca]
    rfl
  have hr : ∀ m, m ∈ rs ↔ m ∈ waiters s' c.key := by
    intro m
    rw [hwa,mem_erase,← hs.waiting m,hd,List.mem_cons]
    constructor
    · intro hm
      have := ho.1 m hm
      exact ⟨by omega,.inr hm⟩
    · rintro ⟨hne,hm⟩
      exact hm.resolve_left hne
  refine ⟨hc.sound h hk ?_ ?_,hc.inUse ?_ (fun o e' _ => hu o e') hk,hc.fair ?_,hc.maxCount⟩
  · intro o hne
    simp [releasing,hne]
  · constructor
    · intro m c' hm hc'
      rcases set_cases (hca ▸ hm) with ⟨-,rfl⟩ | ⟨-,hm⟩
      · rfl
      · exact hs.entry m c' hm hc'
    · have hn : next ∉ holders s c.key := by
        intro hmem
        obtain ⟨c',hl',-,hne⟩ := mem_holders.mp hmem
        rw [hl] at hl'
        cases hl'
        exact hne hp
      have hco := hs.count
      rw [he,hh,card_insert_of_notMem hn]
      simp only [releasing,if_pos,Pi.zero_apply] at hco ⊢
      omega
    · rw [he,hc.maxCount]
      exact hs.bounded
    · rw [he,hc.maxCount]
      intro _
      exact hs.full (by simp [hd])
    · rw [he]
      exact ho.2
    · rw [he]
      exact hr
  · rw [he]
    exact hu c.key c.entry hk
  · -- those that still wait queued after it
    intro n hmem hn m hm
    rw [hh,mem_insert] at hmem
    rw [hmem.resolve_right hn]
    exact ho.1 m ((hr m).mpr hm)

omit [DecidableEq K] in
theorem changes_setEntry (s : Linearizer K) (key : K) (e : ℕ) (en : LinearizerEntry) :
    Changes s (setEntry e en s) key e where
  maxCount := rfl
  keyToDefer := rfl
  nextEntry := rfl
  entries := fun _ hne => entries_setEntry_ne hne _ _
  callers := fun _ _ _ => Iff.rfl
  nextCaller := le_rfl
  queued := fun _ c hl => .inr ⟨c,hl⟩

theorem Sound.giveUp (h : Sound s (releasing key)) (hk : s.keyToDefer.lookup key = some e)
    (hd : (s.entries e).deferreds = []) (hs' : s' = setEntry e ⟨(s.entries e).count - 1,[]⟩ s) :
    Sound s' 0 ∧ Fair s s' := by
  have hs := h.present key e hk
  have he : s'.entries e = ⟨(s.entries e).count - 1,[]⟩ := by
    rw [hs']
    exact entries_setEntry_self _ _ _
  have hch : Changes s s' key e := by
    rw [hs']
    exact changes_setEntry _ _ _ _
  have hsa : ∀ p, callersIn s' key p = callersIn s key p := by
    intro p
    rw [hs',callersIn_setEntry]
  refine ⟨hch.sound h hk ?_ ?_,hch.fair ?_⟩
  · intro o hne
    simp [releasing,hne]
  · constructor
    · intro m c hm hc
      rw [hs'] at hm
      exact hs.entry m c hm hc
    · have hco := hs.count
      rw [he,holders,hsa]
      simp only [holders,releasing,if_pos,Pi.zero_apply] at hco ⊢
      omega
    · have hb := hs.bounded
      rw [he,hch.maxCount]
      change (s.entries e).count - 1 ≤ s.maxCount
      omega
    · rw [he]
      exact fun hne => absurd rfl hne
    · rw [he]
      exact List.Pairwise.nil
    · intro n
      rw [he,waiters,hsa]
      change _ ↔ n ∈ waiters s key
      rw [← hs.waiting n,hd]
  · intro n hmem hn
    rw [holders,hsa] at hmem
    exact absurd hmem hn

theorem Sound.deleteEntry (h : Sound s 0) (hk : s.keyToDefer.lookup key = some e)
    (hco : (s.entries e).count = 0) (hd : (s.entries e).deferreds = []) :
    Sound { s with keyToDefer := s.keyToDefer.erase key } 0 := by
  have hs := h.present key e hk
  have hn : ∀ n c, s.callers.lookup n = some c → c.key ≠ key := by
    intro n c hl hc
    by_cases hp : c.phase = .waiting
    · have hm := (hs.waiting n).mpr (mem_waiters.mpr ⟨c,hl,hc,hp⟩)
      rw [hd] at hm
      cases hm
    · have hm : n ∈ holders s key := mem_holders.mpr ⟨c,hl,hc,hp⟩
      have hpos := card_pos.mpr ⟨n,hm⟩
      have := hs.count
      omega
  have hlo : ∀ o e', (s.keyToDefer.erase key).lookup o = some e' →
      s.keyToDefer.lookup o = some e' := by
    intro o e' hl
    exact (pop_cases hl).2
  constructor
  · exact h.positive
  · intro o hl
    by_cases ho : o = key
    · rw [ho]
      exact ⟨rfl,hn⟩
    · rw [lookup_pop,if_neg ho] at hl
      exact h.absent o hl
  · intro o e' hl
    exact (h.present o e' (hlo o e' hl)).frame rfl rfl (fun _ _ _ => Iff.rfl)
  · intro o o' e' hl hl'
    exact h.apart o o' e' (hlo o e' hl) (hlo o' e' hl')
  · intro o e' hl
    exact h.made o e' (hlo o e' hl)
  · exact h.queued

theorem releaseLock_spec (h : Sound s (releasing key)) (hk : s.keyToDefer.lookup key = some e)
    (hu : InUse s) : ∃ s', releaseLock key e s = .ok s' ∧ Keeps s s' := by
  rw [releaseLock]
  cases hd : (s.entries e).deferreds with
  | cons next rs => exact ⟨_,rfl,h.handOver hk hu hd rfl⟩
  | nil =>
    obtain ⟨hs,hf⟩ := h.giveUp hk hd rfl
    have hc := changes_setEntry s key e ⟨(s.entries e).count - 1,[]⟩
    by_cases hz : (s.entries e).count - 1 = 0
    · have hm : key ∈ (setEntry e ⟨(s.entries e).count - 1,[]⟩ s).keyToDefer :=
        mem_iff_lookup.mpr ⟨e,hk⟩
      rw [if_pos hz,if_pos hm]
      refine ⟨_,rfl,hs.deleteEntry hk ?_ ?_,?_,hf,rfl⟩
      · rw [entries_setEntry_self]
        exact hz
      · rw [entries_setEntry_self]
      · intro o e' hl
        obtain ⟨hne,hl⟩ := pop_cases hl
        have he : e' ≠ e := by
          rintro rfl
          exact hne (h.apart o key e' hl hk)
        rw [entries_setEntry_ne he]
        exact hu o e' hl
    · rw [if_neg hz]
      refine ⟨_,rfl,hs,hc.inUse ?_ (fun o e' _ => hu o e') hk,hf,rfl⟩
      have hp := hu key e hk
      rw [entries_setEntry_self]
      change 1 ≤ (s.entries e).count - 1
      omega

theorem Fair.of_finish (h : Fair (Linearizer.finish n s) s') : Fair s s' := by
  intro key m hmem hn
  apply h key m hmem
  rw [holders,callersIn_finish]
  exact fun hm => hn (Finset.mem_of_mem_erase hm)

theorem release_of_caller (h : Sound s 0) (hu : InUse s) (hl : s.callers.lookup n = some c)
    (hp : c.phase ≠ .waiting) :
    ∃ s', releaseLock c.key c.entry (finish n s) = .ok s' ∧ Keeps s s' := by
  obtain ⟨s',hs',hk⟩ := releaseLock_spec (h.finish hl hp) (h.keyToDefer_of_caller hl) hu
  exact ⟨s',hs',hk.sound,hk.inUse,hk.fair.of_finish,hk.maxCount⟩

end Release

section Cancel

variable {s : Linearizer K}

theorem cancel_waiting {n : ℕ} {c : Caller K} {s' : Linearizer K} (h : Sound s 0) (hu : InUse s)
    (hl : s.callers.lookup n = some c) (hp : c.phase = .waiting)
    (hs' : s' = finish n (setEntry c.entry { s.entries c.entry with
      deferreds := (s.entries c.entry).deferreds.erase n } s)) :
    n ∈ (s.entries c.entry).deferreds ∧ Keeps s s' := by
  have hk := h.keyToDefer_of_caller hl
  have hs := h.present c.key c.entry hk
  have he : s'.entries c.entry = { s.entries c.entry with
      deferreds := (s.entries c.entry).deferreds.erase n } := by
    rw [hs']
    exact entries_setEntry_self _ _ _
  have hlo : ∀ m c', s'.callers.lookup m = some c' → s.callers.lookup m = some c' := by
    intro m c' hm
    rw [hs'] at hm
    exact (pop_cases hm).2
  have hc : Changes s s' c.key c.entry := by
    rw [hs']
    constructor
    · rfl
    · rfl
    · rfl
    · exact fun _ hne => entries_setEntry_ne hne _ _
    · intro m c' hc'
      apply lookup_erase_other _ hc'
      intro c' hl'
      rw [some.inj (hl.symm.trans hl')]
    · exact le_rfl
    · intro m c' hm
      exact .inr ⟨c',hlo m c' (hs' ▸ hm)⟩
  have hnh : n ∉ holders s c.key := by
    intro hmem
    obtain ⟨c',hl',-,hne⟩ := mem_holders.mp hmem
    obtain rfl := some.inj (hl.symm.trans hl')
    exact hne hp
  have hh : holders s' c.key = holders s c.key := by
    rw [hs',holders,callersIn_finish]
    exact erase_eq_of_notMem hnh
  have hn : (s.entries c.entry).deferreds.Nodup := hs.ordered.imp (fun hlt => by omega)
  refine ⟨(hs.waiting n).mpr (mem_waiters.mpr ⟨c,hl,rfl,hp⟩),hc.sound h hk (fun _ _ => rfl) ?_,
    hc.inUse ?_ (fun o e' _ => hu o e') hk,hc.fair ?_,
    hc.maxCount⟩
  · constructor
    · exact fun m c' hm hc' => hs.entry m c' (hlo m c' hm) hc'
    · rw [he,hh]
      exact hs.count
    · rw [he,hc.maxCount]
      exact hs.bounded
    · rw [he,hc.maxCount]
      intro hne
      apply hs.full
      intro hnil
      exact hne (by rw [hnil]; rfl)
    · rw [he]
      exact hs.ordered.sublist erase_sublist
    · intro m
      rw [he,hn.mem_erase_iff,hs.waiting m,hs',waiters,waiters,callersIn_finish,
        mem_erase,callersIn_setEntry]
  · rw [he]
    exact hu c.key c.entry hk
  · intro m hmem hnot
    rw [hh] at hmem
    exact absurd hmem hnot

theorem tick_spec (h : Sound s 0) (hu : InUse s) (n : ℕ) : Keeps s (tick n s) := by
  rw [tick]
  cases hl : s.callers.lookup n with
  | none => exact .refl h hu
  | some c =>
    by_cases hp : c.phase = .woken
    · simp only [if_pos hp]
      have hk := h.keyToDefer_of_caller hl
      have hs := h.present c.key c.entry hk
      have hca : (setPhase n .entered s).callers =
          s.callers.insert n { c with phase := .entered } := by
        simp only [setPhase,hl]
      have hc : Changes s (setPhase n .entered s) c.key c.entry := by
        have := changes_setPhase hl (s.entries c.entry) .entered
        rw [setEntry,update_eq_self] at this
        exact this
      have he : (setPhase n .entered s).entries = s.entries := by
        simp only [setPhase,hl]
      have hh : holders (setPhase n .entered s) c.key = holders s c.key := by
        rw [holders,callersIn_setPhase hl]
        apply insert_eq_of_mem
        exact mem_holders.mpr ⟨c,hl,rfl,by simp [hp]⟩
      have hwa : waiters (setPhase n .entered s) c.key = waiters s c.key := by
        rw [waiters,callersIn_setPhase hl]
        apply erase_eq_of_notMem
        intro hmem
        obtain ⟨c',hl',-,hw⟩ := mem_waiters.mp hmem
        obtain rfl := some.inj (hl.symm.trans hl')
        rw [hp] at hw
        cases hw
      refine ⟨hc.sound h hk (fun _ _ => rfl) ?_,hc.inUse ?_ (fun o e' _ => hu o e') hk,hc.fair ?_,
    hc.maxCount⟩
      · constructor
        · intro m c' hm hc'
          rcases set_cases (hca ▸ hm) with ⟨-,rfl⟩ | ⟨-,hm⟩
          · rfl
          · exact hs.entry m c' hm hc'
        · rw [he,hh]
          exact hs.count
        · rw [he,hc.maxCount]
          exact hs.bounded
        · rw [he,hc.maxCount]
          exact hs.full
        · rw [he]
          exact hs.ordered
        · rw [he,hwa]
          exact hs.waiting
      · rw [he]
        exact hu c.key c.entry hk
      · intro m hmem hn
        rw [hh] at hmem
        exact absurd hmem hn
    · simp only [if_neg hp]
      exact .refl h hu

end Cancel

section Runs

variable {s : Linearizer K}

theorem step_spec (h : Sound s 0) (hu : InUse s) (op : Op K) :
    ∃ s', step s op = .ok s' ∧ Keeps s s' := by
  have hs : ∃ s', (.ok s : Py Empty (Linearizer K)) = .ok s' ∧ Keeps s s' := ⟨s,rfl,.refl h hu⟩
  cases op with
  | queue key => exact ⟨_,rfl,acquireLock_spec h hu key⟩
  | tick n => exact ⟨_,rfl,tick_spec h hu n⟩
  | exit n =>
    rw [step,exit]
    cases hl : s.callers.lookup n with
    | none => exact hs
    | some c =>
      by_cases hp : c.phase = .entered
      · simp only [if_pos hp]
        exact release_of_caller h hu hl (by simp [hp])
      · simp only [if_neg hp]
        exact hs
  | cancel n =>
    rw [step,cancel]
    cases hl : s.callers.lookup n with
    | none => exact hs
    | some c =>
      cases hp : c.phase with
      | waiting =>
        obtain ⟨hm,hsp⟩ := cancel_waiting h hu hl hp rfl
        simp only [hp,if_pos hm]
        exact ⟨_,rfl,hsp⟩
      | woken =>
        simp only [hp]
        exact release_of_caller h hu hl (by simp [hp])
      | entered =>
        simp only [hp]
        exact hs

/-- A caller is still there, for its key, and has the lock if it had it. -/
def Follows (s s' : Linearizer K) (n : ℕ) : Prop :=
  ∀ c, s.callers.lookup n = some c → ∃ c', s'.callers.lookup n = some c' ∧ c'.key = c.key ∧
    (c.phase ≠ .waiting → c'.phase ≠ .waiting)

variable {s s' : Linearizer K} {n m : ℕ}

omit [DecidableEq K] in
theorem follows_of_lookup (h : s'.callers.lookup n = s.callers.lookup n) : Follows s s' n :=
  fun c hl => ⟨c,h.trans hl,rfl,id⟩

omit [DecidableEq K] in
theorem follows_setPhase {ph : Phase} (hp : ph ≠ .waiting) : Follows s (setPhase m ph s) n := by
  intro c hl
  rw [setPhase]
  split
  · next c' hl' =>
    by_cases hn : n = m
    · subst hn
      obtain rfl := some.inj (hl.symm.trans hl')
      exact ⟨{ c with phase := ph },AList.lookup_insert _,rfl,fun _ => hp⟩
    · exact ⟨c,(AList.lookup_insert_ne hn).trans hl,rfl,id⟩
  · exact ⟨c,hl,rfl,id⟩

theorem follows_releaseLock {key : K} {e : ℕ} (hne : n ≠ m)
    (h : releaseLock key e (finish m s) = .ok s') : Follows s s' n := by
  have hf : (finish m s).callers.lookup n = s.callers.lookup n := AList.lookup_erase_ne hne
  rw [releaseLock] at h
  split at h
  · cases h
    rw [wake]
    split
    · intro c hl
      exact follows_setPhase (by simp) c (hf.trans hl)
    · exact follows_of_lookup hf
  · dsimp only at h
    split at h
    · split at h <;> cases h
      exact follows_of_lookup hf
    · cases h
      exact follows_of_lookup hf

theorem lookup_acquireLock (key : K) (s : Linearizer K) : ∃ e ph,
    (acquireLock key s).callers = s.callers.insert s.nextCaller ⟨key,e,ph⟩ := by
  have hd : (setDefault key s).2.callers = s.callers ∧
      (setDefault key s).2.nextCaller = s.nextCaller := by
    rw [setDefault]
    split <;> exact ⟨rfl,rfl⟩
  rw [acquireLock]
  generalize setDefault key s = result at *
  obtain ⟨e,s₁⟩ := result
  obtain ⟨hca,hne⟩ := hd
  simp only at hca hne ⊢
  rw [← hca,← hne]
  split
  · exact ⟨e,.entered,rfl⟩
  · exact ⟨e,.waiting,rfl⟩

theorem follows_step (h : Sound s 0) {op : Op K} (hs : step s op = .ok s')
    (hc : op ≠ .cancel n)
    (he : op = .exit n → ∀ c, s.callers.lookup n = some c → c.phase = .waiting) :
    Follows s s' n := by
  cases op with
  | queue key =>
    cases hs
    obtain ⟨e,ph,hca⟩ := lookup_acquireLock key s
    intro c hl
    have hlt := h.queued n c hl
    exact ⟨c,by rw [hca,AList.lookup_insert_ne (by omega),hl],rfl,id⟩
  | tick m =>
    cases hs
    rw [tick]
    split
    · split
      · exact follows_setPhase (by simp)
      · exact follows_of_lookup rfl
    · exact follows_of_lookup rfl
  | exit m =>
    rw [step,exit] at hs
    split at hs
    · next c hl =>
      split at hs
      · next hp =>
        refine follows_releaseLock ?_ hs
        rintro rfl
        cases (he rfl c hl).symm.trans hp
      · cases hs
        exact follows_of_lookup rfl
    · cases hs
      exact follows_of_lookup rfl
  | cancel m =>
    have hne : n ≠ m := fun heq => hc (heq ▸ rfl)
    rw [step,cancel] at hs
    split at hs
    · split at hs
      · dsimp only at hs
        split at hs <;> cases hs
        exact follows_of_lookup (AList.lookup_erase_ne hne)
      · exact follows_releaseLock hne hs
      · cases hs
        exact follows_of_lookup rfl
    · cases hs
      exact follows_of_lookup rfl

structure Correct (maxCount : ℤ) (s : Linearizer K) : Prop where
  bounded : ∀ key, ((holders s key).card : ℤ) ≤ maxCount
  busy : ∀ key, waiters s key ≠ ∅ → callersIn s key (· = .woken) = ∅ →
    ((callersIn s key (· = .entered)).card : ℤ) = maxCount
  removed : ∀ key, holders s key = ∅ → waiters s key = ∅ → key ∉ s.keyToDefer
  fair : ∀ op s', step s op = .ok s' → Fair s s'
  queued : ∀ key s', step s (.queue key) = .ok s' → s.nextCaller ∉ s.callers ∧
    (s.nextCaller ∈ holders s' key ∨ s.nextCaller ∈ waiters s' key)
  waits : ∀ op s', step s op = .ok s' → ∀ key, ∀ n ∈ waiters s key, op ≠ .cancel n →
    n ∈ waiters s' key ∨ n ∈ holders s' key
  holds : ∀ op s', step s op = .ok s' → ∀ key, ∀ n ∈ holders s key, op ≠ .cancel n →
    op ≠ .exit n → n ∈ holders s' key

end Runs

end Synapse.Linearizer
