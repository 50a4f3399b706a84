import Synapse.Dict

/-!
# The first event after a timestamp

The events are searched by stream ordering for the first that was received at or
after a time. Between two events the earlier one counts, and before all but the
backfilled ones the newest of these.
-/

set_option autoImplicit false

namespace Synapse.EventsAfterTimestamp
open List Dict AList

/-- The `received_ts` of the events by stream ordering, which is negative if backfilled. -/
abbrev Events := Dict ℤ ℤ

def nearest (events : Events) (middle : ℤ) : Option ℤ := (events.keys.filter (· ≤ middle)).max?

def search (events : Events) (ts : ℤ) : ℕ → ℤ → ℤ → ℤ
  | 0, _, rangeEnd => rangeEnd
  | fuel + 1, rangeStart, rangeEnd =>
    if rangeEnd - rangeStart > 0 then
      let middle := (rangeEnd + rangeStart) / 2
      match (nearest events middle).bind events.lookup with
      | none => search events ts fuel (middle + 1) rangeEnd
      | some middleTs =>
        if ts > middleTs then search events ts fuel (middle + 1) rangeEnd
        else search events ts fuel rangeStart middle
    else rangeEnd

/-- `_find_first_stream_ordering_after_ts_txn`, with a pass for each position of the range. -/
def findFirstStreamOrderingAfterTs (events : Events) (ts : ℤ) : ℤ :=
  match events.keys.max? with
  | none => 0
  | some maxStreamOrdering =>
    search events ts (maxStreamOrdering + 1).toNat 0 (maxStreamOrdering + 1)

def rangeEnd (events : Events) : ℤ := events.keys.max?.elim 0 (· + 1)

def After (events : Events) (ts : ℤ) : Set ℤ := {o | 0 ≤ o ∧ ∃ t ≥ ts, events.lookup o = some t}

/-- The first event that was received at or after the time, or the end if there is none. -/
def IsAnswer (events : Events) (ts answer : ℤ) : Prop :=
  IsLeast (After events ts) answer ∨ After events ts = ∅ ∧ answer = rangeEnd events

/-- The newest backfilled event was received before the time. -/
def BackfilledBefore (events : Events) (ts : ℤ) : Prop :=
  ∀ receivedTs ∈ (nearest events (-1)).bind events.lookup, receivedTs < ts

def Reached (events : Events) (position : ℤ) : Prop := ∃ o ∈ events, 0 ≤ o ∧ o ≤ position

def isLate (events : Events) (ts m : ℤ) : Bool :=
  ((nearest events m).bind events.lookup).any (ts ≤ ·)

variable {events : Events} {ts m o answer : ℤ}

theorem nearest_eq_some :
    nearest events m = some o ↔ (o ∈ events ∧ o ≤ m) ∧ ∀ o' ∈ events, o' ≤ m → o' ≤ o := by
  simp [nearest,max?_eq_some_iff,AList.mem_keys]

theorem exists_nearest (ts : ℤ) (ho : o ∈ events) (hle : o ≤ m) :
    ∃ o' t, o ≤ o' ∧ o' ≤ m ∧ events.lookup o' = some t ∧ isLate events ts m = decide (ts ≤ t) := by
  have hm : o ∈ events.keys.filter (· ≤ m) := by simpa [AList.mem_keys] using ⟨ho,hle⟩
  obtain ⟨o',ho'⟩ := Option.isSome_iff_exists.mp (isSome_max?_of_mem hm)
  obtain ⟨⟨hin,hle'⟩,hmax⟩ := nearest_eq_some.mp ho'
  obtain ⟨t,ht⟩ := mem_iff_lookup.mp hin
  have hn : nearest events m = some o' := ho'
  exact ⟨o',t,hmax o ho hle,hle',ht,by simp [isLate,hn,ht]⟩

theorem le_rangeEnd (ho : o ∈ events) : o < rangeEnd events := by
  obtain ⟨highest,hmax⟩ := Option.isSome_iff_exists.mp (isSome_max?_of_mem (mem_keys.mp ho))
  have := (max?_eq_some_iff.mp hmax).2 o (mem_keys.mp ho)
  simp only [rangeEnd,hmax,Option.elim_some]
  omega

theorem IsAnswer.le_rangeEnd (h : IsAnswer events ts answer) : answer ≤ rangeEnd events := by
  rcases h with ⟨⟨-,t,-,ht⟩,-⟩ | ⟨-,rfl⟩
  · exact (EventsAfterTimestamp.le_rangeEnd (mem_iff_lookup.mpr ⟨t,ht⟩)).le
  · exact le_rfl

theorem IsAnswer.unique {answer' : ℤ} (h : IsAnswer events ts answer)
    (h' : IsAnswer events ts answer') : answer = answer' := by
  rcases h with h | ⟨he,rfl⟩ <;> rcases h' with h' | ⟨he',rfl⟩
  · exact h.unique h'
  · exact absurd h.1 (he' ▸ Set.notMem_empty answer)
  · exact absurd h'.1 (he ▸ Set.notMem_empty answer')
  · rfl

theorem IsAnswer.reached (h : IsAnswer events ts answer) (hle : answer ≤ m)
    (hm : m < rangeEnd events) : Reached events m := by
  rcases h with ⟨⟨h0,t,-,ht⟩,-⟩ | ⟨-,rfl⟩
  · exact ⟨answer,mem_iff_lookup.mpr ⟨t,ht⟩,h0,hle⟩
  · omega

theorem isLate_of_not_reached (h : ¬ Reached events m) (hm : 0 ≤ m) :
    isLate events ts m = isLate events ts (-1) := by
  have hn : nearest events m = nearest events (-1) := by
    rw [nearest,nearest]
    congr 1
    apply filter_congr
    intro o ho
    have := mt (fun hle : 0 ≤ o ∧ o ≤ m => (⟨o,mem_keys.mpr ho,hle⟩ : Reached events m)) h
    simp only [decide_eq_decide]
    omega
  rw [isLate,hn,isLate]

theorem backfilledBefore_iff : BackfilledBefore events ts ↔ isLate events ts (-1) = false := by
  unfold BackfilledBefore isLate
  cases (nearest events (-1)).bind events.lookup <;> simp

theorem half_pow (a : ℤ) (k : ℕ) : a / 2 / 2 ^ k = a / 2 ^ (k + 1) := by
  rw [Int.ediv_ediv_of_nonneg (by norm_num),pow_succ']

theorem pow_half (a : ℤ) (k : ℕ) : a / 2 ^ k / 2 = a / 2 ^ (k + 1) := by
  rw [Int.ediv_ediv_of_nonneg (by positivity),pow_succ]

theorem search_succ (fuel : ℕ) {low high : ℤ} (h : low < high) :
    search events ts (fuel + 1) low high =
      if isLate events ts ((high + low) / 2) then search events ts fuel low ((high + low) / 2)
      else search events ts fuel ((high + low) / 2 + 1) high := by
  rw [search,if_pos (by omega)]
  dsimp only
  rw [isLate]
  cases (nearest events ((high + low) / 2)).bind events.lookup with
  | none => rfl
  | some t => by_cases ht : ts ≤ t <;> simp [ht]

theorem search_le (fuel : ℕ) {low high : ℤ} (h : low ≤ high) :
    search events ts fuel low high ≤ high := by
  induction fuel generalizing low high with
  | zero => exact le_rfl
  | succ fuel ih =>
    by_cases hlt : low < high
    · rw [search_succ fuel hlt]
      split
      · exact (ih (by omega)).trans (by omega)
      · exact ih (by omega)
    · rw [search,if_neg (by omega)]

section Sorted

variable (hsorted : ∀ o ∈ events, ∀ o' ∈ events, 0 ≤ o → o ≤ o' →
  ∀ t ∈ events.lookup o, ∀ t' ∈ events.lookup o', t ≤ t')
include hsorted

theorem isLate_iff (hA : IsAnswer events ts answer) (hm : m < rangeEnd events)
    (h : Reached events m) : isLate events ts m = true ↔ answer ≤ m := by
  constructor
  · intro hl
    obtain ⟨o,ho,h0,hle⟩ := h
    obtain ⟨o',t,hoo,hle',ht,heq⟩ := exists_nearest ts ho hle
    rw [heq,decide_eq_true_eq] at hl
    have hafter : o' ∈ After events ts := ⟨by omega,t,hl,ht⟩
    rcases hA with hA | ⟨he,-⟩
    · exact (hA.2 hafter).trans hle'
    · exact absurd hafter (he ▸ Set.notMem_empty o')
  · intro hle
    rcases hA with ⟨⟨h0,t,ht,hlo⟩,-⟩ | ⟨-,rfl⟩
    · have hin : answer ∈ events := mem_iff_lookup.mpr ⟨t,hlo⟩
      obtain ⟨o',t',hoo,-,ht',heq⟩ := exists_nearest ts hin hle
      have := hsorted answer hin o' (mem_iff_lookup.mpr ⟨t',ht'⟩) h0 hoo t hlo t' ht'
      rw [heq,decide_eq_true_eq]
      omega
    · omega

theorem search_eq (hA : IsAnswer events ts answer)
    (hc : BackfilledBefore events ts ∨ ∀ k, rangeEnd events / 2 ^ (k + 1) < answer →
      answer ≤ rangeEnd events / 2 ^ k → Reached events (rangeEnd events / 2 ^ (k + 1)))
    (fuel : ℕ) {low high : ℤ} (h0 : 0 ≤ low) (hl : low ≤ answer) (hh : answer ≤ high)
    (hr : high ≤ rangeEnd events) (hf : (high - low).toNat ≤ fuel)
    (hi : BackfilledBefore events ts ∨ Reached events low ∨
      low = 0 ∧ ∃ k, high = rangeEnd events / 2 ^ k) :
    search events ts fuel low high = answer := by
  induction fuel generalizing low high with
  | zero => exact le_antisymm ((by omega : high ≤ low).trans hl) hh
  | succ fuel ih =>
    by_cases hlt : low < high
    · rw [search_succ fuel hlt]
      generalize hm : (high + low) / 2 = m
      -- the first event that was not backfilled has been passed, or the range still starts at 0
      have hreached : BackfilledBefore events ts ∨ Reached events m := by
        rcases hi with hb | ⟨o,ho,ho0,hle⟩ | ⟨rfl,k,rfl⟩
        · exact .inl hb
        · exact .inr ⟨o,ho,ho0,by omega⟩
        · by_cases hle : answer ≤ m
          · exact .inr (hA.reached hle (by omega))
          · rw [Int.add_zero,pow_half] at hm
            exact hc.imp_right (fun h => hm ▸ h k (by omega) hh)
      have hlate : isLate events ts m = true ↔ answer ≤ m := by
        by_cases h : Reached events m
        · exact isLate_iff hsorted hA (by omega) h
        · rw [isLate_of_not_reached h (by omega),
            backfilledBefore_iff.mp (hreached.resolve_right h)]
          exact ⟨nofun,fun hle => absurd (hA.reached hle (by omega)) h⟩
      by_cases hle : answer ≤ m
      · rw [if_pos (hlate.mpr hle)]
        refine ih h0 hl hle (by omega) (by omega) (hi.imp_right ?_)
        rintro (h | ⟨rfl,k,rfl⟩)
        · exact .inl h
        · exact .inr ⟨rfl,k + 1,by rw [← hm,Int.add_zero,pow_half]⟩
      · rw [if_neg (mt hlate.mp hle)]
        refine ih (by omega) (by omega) hh hr (by omega) (hreached.imp_right ?_)
        rintro ⟨o,ho,ho0,hom⟩
        exact .inl ⟨o,ho,ho0,by omega⟩
    · rw [search,if_neg (by omega)]
      omega

theorem search_lt (hA : IsAnswer events ts answer) (hb : ¬ BackfilledBefore events ts)
    (k fuel : ℕ) {high : ℤ} (hr : high ≤ rangeEnd events) (hf : high.toNat ≤ fuel)
    (h1 : high / 2 ^ (k + 1) < answer) (h2 : answer ≤ high / 2 ^ k)
    (hn : ¬ Reached events (high / 2 ^ (k + 1))) : search events ts fuel 0 high < answer := by
  induction k generalizing fuel high with
  | zero =>
    rw [Nat.zero_add,pow_one] at h1 hn
    rw [pow_zero,Int.ediv_one] at h2
    obtain _ | fuel := fuel
    · omega
    · rw [backfilledBefore_iff,Bool.not_eq_false] at hb
      rw [search_succ fuel (by omega),Int.add_zero,if_pos]
      · exact (search_le fuel (by omega)).trans_lt h1
      · rw [isLate_of_not_reached hn (by omega),hb]
  | succ k ih =>
    rw [← half_pow] at h1 h2 hn
    have hpos : 0 < high / 2 / 2 ^ k := by
      rw [← pow_half] at h1
      omega
    have hpow : (0 : ℤ) < 2 ^ k := by positivity
    have hhalf := (Int.le_ediv_iff_mul_le hpow).mp (Int.add_one_le_iff.mpr hpos)
    have hle : answer ≤ high / 2 := h2.trans (Int.ediv_le_self _ (by omega))
    obtain _ | fuel := fuel
    · omega
    · rw [search_succ fuel (by omega),Int.add_zero,if_pos]
      · exact ih fuel (by omega) (by omega) h1 h2 hn
      · exact (isLate_iff hsorted hA (by omega) (hA.reached hle (by omega))).mpr hle

end Sorted

theorem exists_answer (events : Events) (ts : ℤ) : ∃ answer, IsAnswer events ts answer := by
  by_cases hne : (After events ts).Nonempty
  · obtain ⟨answer,ha,hleast⟩ := Int.exists_least_of_bdd ⟨0,fun o ho => ho.1⟩ hne
    exact ⟨answer,.inl ⟨ha,hleast⟩⟩
  · exact ⟨_,.inr ⟨Set.not_nonempty_iff_eq_empty.mp hne,rfl⟩⟩

theorem findFirstStreamOrderingAfterTs_eq (events : Events) (ts : ℤ) :
    findFirstStreamOrderingAfterTs events ts =
      search events ts (rangeEnd events).toNat 0 (rangeEnd events) := by
  unfold findFirstStreamOrderingAfterTs rangeEnd
  cases events.keys.max? <;> rfl

/-- The search finds the first event that was received at or after the time, if and only if
the newest backfilled event was received before it or the search does not look at it: the
first half of the range, half of the half and so on that is before the event is not before
all events that were not backfilled. -/
theorem findFirstStreamOrderingAfterTs_iff (events : Events) (ts : ℤ)
    (hsorted : ∀ ordering ∈ events, ∀ ordering' ∈ events, 0 ≤ ordering → ordering ≤ ordering' →
      ∀ receivedTs ∈ events.lookup ordering, ∀ receivedTs' ∈ events.lookup ordering',
        receivedTs ≤ receivedTs') :
    IsAnswer events ts (findFirstStreamOrderingAfterTs events ts) ↔
      BackfilledBefore events ts ∨ ∀ answer, IsAnswer events ts answer → ∀ k,
        rangeEnd events / 2 ^ (k + 1) < answer → answer ≤ rangeEnd events / 2 ^ k →
          Reached events (rangeEnd events / 2 ^ (k + 1)) := by
  rw [findFirstStreamOrderingAfterTs_eq]
  constructor
  · intro hfound
    rw [or_iff_not_imp_left]
    intro hb answer hA k h1 h2
    by_contra hn
    have hlt := search_lt hsorted hA hb k (rangeEnd events).toNat le_rfl le_rfl h1 h2 hn
    exact absurd (hfound.unique hA) hlt.ne
  · intro hc
    obtain ⟨answer,hA⟩ := exists_answer events ts
    by_cases h0 : 0 ≤ answer
    · rwa [search_eq hsorted hA (hc.imp_right (fun h => h answer hA)) _ le_rfl h0 hA.le_rangeEnd
        le_rfl (by simp) (.inr (.inr ⟨rfl,0,by simp⟩))]
    · rcases hA with hA | ⟨he,rfl⟩
      · exact absurd hA.1.1 h0
      · exact .inr ⟨he,by simp [search,show (rangeEnd events).toNat = 0 by omega]⟩

def received (backfilled ts : ℤ) : Events := (AList.singleton 5 ts).insert (-1) backfilled

theorem findFirstStreamOrderingAfterTs_iff_received : IsAnswer (received 10 60) 50 5 := by
  have hfound := (findFirstStreamOrderingAfterTs_iff (received 10 60) 50 (by decide +kernel)).mpr
    (.inl (backfilledBefore_iff.mpr (by decide +kernel)))
  rwa [show findFirstStreamOrderingAfterTs (received 10 60) 50 = 5 by decide +kernel] at hfound

/-- A backfilled event that was received later stands for all positions up to the first event. -/
theorem backfilled_event_found :
    findFirstStreamOrderingAfterTs (received 100 10) 50 = 0 ∧
      (received 100 10).keys.max? = some 5 ∧ (received 100 10).lookup 0 = none := by
  decide +kernel

end Synapse.EventsAfterTimestamp
