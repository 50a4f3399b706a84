import Synapse.Dict
import Synapse.Runs

/-!
# Rate limiting by leaky buckets

For a key the limiter keeps the actions since its bucket was last empty and the
time of that. Only a check finds a bucket empty. An action that is recorded on a
bucket that drained since the last check counts less than it should.
-/

set_option autoImplicit false

namespace Synapse.Ratelimiter
open Dict Runs

structure Actions where
  actionCount : ℚ
  timeStart : ℚ
  rateHz : ℚ

def Actions.remaining (a : Actions) (rate now : ℚ) : ℚ :=
  a.actionCount-(now-a.timeStart)*rate

variable {K : Type} [DecidableEq K]

def getActionCounts (actions : Dict K Actions) (key : K) (now : ℚ) : Actions :=
  (actions.lookup key).getD ⟨0,now,0⟩

def pruneMessageCounts (actions : Dict K Actions) (now : ℚ) : Dict K Actions :=
  filter actions (fun _ a => 0 < a.remaining a.rateHz now)

/-- Resets the start of a bucket that is empty. -/
def forgive (counts : Actions) (rate now : ℚ) : Actions :=
  if counts.remaining rate now < 0 then { counts with actionCount := 0, timeStart := now }
  else counts

/-- Of a requester that is not exempt. Beside the answer stands the time at which
the action will be possible. -/
def canDoAction (rate burst : ℚ) (actions : Dict K Actions) (key : K) (update : Bool)
    (n : ℕ) (now : ℚ) : Bool × ℚ × Dict K Actions :=
  let actions := pruneMessageCounts actions now
  let counts := getActionCounts actions key now
  let performedCount := max 0 (counts.remaining rate now)
  let counts := forgive counts rate now
  let allowed : Bool := performedCount ≤ burst-n
  let actionCount := if allowed then counts.actionCount+n else counts.actionCount
  let timeAllowed :=
    if 0 < rate then max (counts.timeStart+(actionCount-burst+1)/rate) now else -1
  (allowed,timeAllowed,
    if update then actions.insert key ⟨actionCount,counts.timeStart,rate⟩ else actions)

def recordAction (actions : Dict K Actions) (key : K) (n : ℕ) (now : ℚ) :
    Dict K Actions :=
  let counts := getActionCounts actions key now
  actions.insert key { counts with actionCount := counts.actionCount+n }

inductive Op (K : Type) where
  | canDoAction (key : K) (update : Bool) (n : ℕ) (time : ℚ)
  | recordAction (key : K) (n : ℕ) (time : ℚ)

structure Limiter (K : Type) where
  actions : Dict K Actions
  now : ℚ
  answers : List Bool

def step (rate burst : ℚ) : Op K → Limiter K → Limiter K
  | .canDoAction key update n time, s =>
    let result := canDoAction rate burst s.actions key update n time
    ⟨result.2.2,time,s.answers ++ [result.1]⟩
  | .recordAction key n time, s => ⟨recordAction s.actions key n time,time,s.answers⟩

/-- The buckets themselves, with their levels at the last call. -/
structure Buckets (K : Type) where
  level : K → ℚ
  now : ℚ
  answers : List Bool

def drained (rate : ℚ) (b : Buckets K) (time : ℚ) (key : K) : ℚ :=
  max 0 (b.level key-(time-b.now)*rate)

def pour (level : K → ℚ) (key : K) (n : ℕ) : K → ℚ :=
  Function.update level key (level key+n)

def leakyStep (rate burst : ℚ) : Op K → Buckets K → Buckets K
  | .canDoAction key update n time, b =>
    let level := drained rate b time
    let allowed : Bool := n+level key ≤ burst
    ⟨if update && allowed then pour level key n else level,time,b.answers ++ [allowed]⟩
  | .recordAction key n time, b => ⟨pour (drained rate b time) key n,time,b.answers⟩

/-- Time does not go back, and an action is recorded on a bucket that did not drain
beyond its counted actions. -/
def Undrained (rate : ℚ) : Op K → Limiter K → Prop
  | .canDoAction _ _ _ time, s => s.now ≤ time
  | .recordAction key n time, s => s.now ≤ time ∧ (n = 0 ∨
      ∀ a ∈ s.actions.lookup key, 0 ≤ a.remaining rate time)

instance (rate : ℚ) : ∀ (op : Op K) (s : Limiter K), Decidable (Undrained rate op s)
  | .canDoAction _ _ _ time, s => inferInstanceAs (Decidable (s.now ≤ time))
  | .recordAction _ _ _, _ => inferInstanceAs (Decidable (_ ∧ (_ ∨ _)))

variable {rate burst now time : ℚ} {actions : Dict K Actions} {key : K} {a : Actions}

def level (rate : ℚ) (actions : Dict K Actions) (now : ℚ) (key : K) : ℚ :=
  max 0 ((getActionCounts actions key now).remaining rate now)

def Actions.Counted (rate now : ℚ) (a : Actions) : Prop :=
  0 ≤ a.actionCount ∧ a.timeStart ≤ now ∧ (a.rateHz = 0 ∨ a.rateHz = rate)

theorem remaining_later (a : Actions) (now time : ℚ) : a.remaining rate time =
    a.remaining rate now-(time-now)*rate := by
  rw [Actions.remaining,Actions.remaining]
  ring

theorem Actions.Counted.later (h : a.Counted rate now) (ht : now ≤ time) : a.Counted rate time :=
  ⟨h.1,h.2.1.trans ht,h.2.2⟩

theorem counted_getActionCounts (h : All (fun _ a => a.Counted rate now) actions) (key : K) :
    (getActionCounts actions key now).Counted rate now := by
  rw [getActionCounts]
  cases hl : actions.lookup key with
  | none => exact ⟨le_refl 0,le_refl now,.inl rfl⟩
  | some a => exact h key a hl

theorem level_later (hr : 0 < rate) (h : now ≤ time) :
    level rate actions time key = max 0 (level rate actions now key-(time-now)*rate) := by
  have hd : 0 ≤ (time-now)*rate := mul_nonneg (sub_nonneg.mpr h) hr.le
  rw [level,level,getActionCounts,getActionCounts]
  cases actions.lookup key with
  | none => simpa [Actions.remaining] using hd
  | some a =>
    rw [Option.getD_some,Option.getD_some,remaining_later a now time]
    rcases le_total 0 (a.remaining rate now) with hp | hn
    · rw [max_eq_right hp]
    · rw [max_eq_left hn,max_eq_left (by linarith),max_eq_left (by linarith)]

theorem level_prune (hr : 0 < rate) (h : All (fun _ a => a.Counted rate now) actions) :
    level rate (pruneMessageCounts actions now) now = level rate actions now := by
  funext key
  rw [level,level,getActionCounts,getActionCounts,pruneMessageCounts,lookup_filter]
  cases hl : actions.lookup key with
  | none => rfl
  | some a =>
    obtain ⟨-,hs,ha⟩ := h key a hl
    have hd : 0 ≤ (now-a.timeStart)*rate := mul_nonneg (sub_nonneg.mpr hs) hr.le
    rw [Option.filter_some]
    split
    · rfl
    · next hn =>
      have hle : a.remaining rate now ≤ 0 := by
        rcases ha with ha | ha <;> simp [Actions.remaining,ha] at hn ⊢ <;> linarith
      simpa [Actions.remaining] using hle

theorem level_set : level rate (actions.insert key a) now =
    Function.update (level rate actions now) key (max 0 (a.remaining rate now)) := by
  funext l
  rw [level,getActionCounts,lookup_set,Function.update_apply]
  split <;> rfl

theorem forgive_remaining (cts : Actions) :
    (forgive cts rate now).remaining rate now = max 0 (cts.remaining rate now) := by
  rw [forgive]
  split
  · next h => rw [max_eq_left h.le,Actions.remaining,sub_self,zero_mul,sub_zero]
  · next h => rw [max_eq_right (not_lt.mp h)]

theorem forgive_counted (h : a.Counted rate now) : (forgive a rate now).Counted rate now := by
  rw [forgive]
  split
  · exact ⟨le_refl 0,le_refl now,h.2.2⟩
  · exact h

structure Meters (rate : ℚ) (s : Limiter K) (b : Buckets K) : Prop where
  now : s.now = b.now
  answers : s.answers = b.answers
  level : level rate s.actions s.now = b.level
  counted : All (fun _ a => a.Counted rate s.now) s.actions

variable {s : Limiter K} {b : Buckets K}

theorem Meters.drained (h : Meters rate s b) (hr : 0 < rate) (ht : s.now ≤ time) :
    Ratelimiter.drained rate b time = Ratelimiter.level rate s.actions time := by
  funext key
  rw [Ratelimiter.drained,← h.level,← h.now,level_later hr ht]

theorem Meters.canDoAction (h : Meters rate s b) (hr : 0 < rate) (ht : s.now ≤ time) (key : K)
    (update : Bool) (n : ℕ) :
    Meters rate (step rate burst (.canDoAction key update n time) s)
      (leakyStep rate burst (.canDoAction key update n time) b) := by
  have hc : All (fun _ a => a.Counted rate time) s.actions :=
    fun k a ha => (h.counted k a ha).later ht
  have hp : All (fun _ a => a.Counted rate time) (pruneMessageCounts s.actions time) := by
    intro k a ha
    rw [pruneMessageCounts,lookup_filter,Option.filter_eq_some_iff] at ha
    exact hc k a ha.1
  have hl := level_prune hr hc
  have hk := congrFun hl key
  have hf := forgive_counted (counted_getActionCounts hp key)
  rw [Ratelimiter.level] at hk
  have he :=
    (forgive_remaining (getActionCounts (pruneMessageCounts s.actions time) key time)).trans hk
  have h0 : 0 ≤ Ratelimiter.level rate s.actions time key := le_max_left _ _
  simp only [step,leakyStep,Ratelimiter.canDoAction,h.drained hr ht,hk,le_sub_iff_add_le']
  generalize forgive (getActionCounts (pruneMessageCounts s.actions time) key time) rate time =
    counts at he hf
  generalize decide (n+Ratelimiter.level rate s.actions time key ≤ burst) = allowed
  rw [Actions.remaining] at he
  refine ⟨rfl,congrArg (· ++ [allowed]) h.answers,?_,?_⟩
  · cases update with
    | false => exact hl
    | true =>
      simp only [if_true,level_set,hl,Actions.remaining]
      cases allowed with
      | false => simp [he,max_eq_right h0]
      | true =>
        have hs : counts.actionCount+n-(time-counts.timeStart)*rate =
            Ratelimiter.level rate s.actions time key+n := by
          rw [← he]
          ring
        simp only [if_true,hs,max_eq_right (add_nonneg h0 (Nat.cast_nonneg _))]
        rfl
  · cases update with
    | false => exact hp
    | true =>
      refine hp.set ⟨?_,hf.2.1,.inr rfl⟩
      cases allowed with
      | false => exact hf.1
      | true => exact add_nonneg hf.1 (Nat.cast_nonneg _)

theorem Meters.recordAction (h : Meters rate s b) (hr : 0 < rate) {n : ℕ}
    (ha : Undrained rate (.recordAction key n time) s) :
    Meters rate (step rate burst (.recordAction key n time) s)
      (leakyStep rate burst (.recordAction key n time) b) := by
  have hc : All (fun _ a => a.Counted rate time) s.actions :=
    fun k a hk => (h.counted k a hk).later ha.1
  have hn := counted_getActionCounts hc key
  refine ⟨rfl,h.answers,?_,hc.set ⟨add_nonneg hn.1 (Nat.cast_nonneg _),hn.2⟩⟩
  simp only [step,leakyStep,Ratelimiter.recordAction,h.drained hr ha.1,level_set,pour]
  have he : ∀ cts : Actions, ({ cts with actionCount := cts.actionCount+n } :
      Actions).remaining rate time = cts.remaining rate time+n := by
    intro cts
    rw [Actions.remaining,Actions.remaining]
    ring
  rw [he,Ratelimiter.level]
  rcases ha.2 with rfl | hu
  · simp
  · have hp : 0 ≤ (getActionCounts s.actions key time).remaining rate time := by
      rw [getActionCounts]
      cases hl : s.actions.lookup key with
      | none => simp [Actions.remaining]
      | some a => exact hu a hl
    rw [max_eq_right hp,max_eq_right (add_nonneg hp (Nat.cast_nonneg _))]

/-- The limiter answers as leaky buckets do, as long as no action is recorded on a bucket
that has drained beyond its counted actions. -/
theorem allowed_iff_bucket {start : ℚ} (hr : 0 < rate) {ops : List (Op K)}
    (ha : Admitted (step rate burst) (Undrained rate) ops ⟨∅,start,[]⟩) :
    (run (step rate burst) ops ⟨∅,start,[]⟩).answers =
      (run (leakyStep rate burst) ops ⟨fun _ => 0,start,[]⟩).answers := by
  refine (ha.simulation (R := Meters rate) (fun op s b h hop => ?_) ?_).answers
  · cases op with
    | canDoAction key update n time => exact h.canDoAction hr hop key update n
    | recordAction key n time => exact h.recordAction hr hop
  · exact ⟨rfl,rfl,by funext key; simp [level,getActionCounts,Actions.remaining],all_empty _⟩

/-- A burst of one action: a checked action, and one that is recorded at the given time. -/
def checkedAndRecorded (time : ℚ) : List (Op String) :=
  [.canDoAction "k" true 1 0,.recordAction "k" 1 time,.canDoAction "k" true 1 time]

theorem allowed_iff_bucket_atOnce :
    Admitted (step 1 1) (Undrained 1) (checkedAndRecorded 0) ⟨∅,0,[]⟩ ∧
      (run (step 1 1) (checkedAndRecorded 0) ⟨∅,0,[]⟩).answers =
        (run (leakyStep 1 1) (checkedAndRecorded 0) ⟨fun _ => 0,0,[]⟩).answers :=
  ⟨by decide +kernel,allowed_iff_bucket (by decide) (by decide +kernel)⟩

/-- After a minute and a half the first action has drained, and the recorded one is lost. -/
theorem recorded_action_forgotten :
    (run (step 1 1) (checkedAndRecorded 90) ⟨∅,0,[]⟩).answers = [true,true] ∧
      (run (leakyStep 1 1) (checkedAndRecorded 90) ⟨fun _ => 0,0,[]⟩).answers = [true,false] := by
  decide +kernel

section Retry

/-- Rate and burst can be given with a call. -/
abbrev Call (K : Type) := (ℚ × ℚ) × Op K

def callStep (call : Call K) : Limiter K → Limiter K := step call.1.1 call.1.2 call.2

def Op.target : Op K → K
  | .canDoAction key _ _ _ => key
  | .recordAction key _ _ => key

/-- A call for another key; time does not go back. -/
def Elsewhere (key : K) (call : Call K) (s : Limiter K) : Prop :=
  call.2.target ≠ key ∧ s.now ≤ (callStep call s).now

instance (key : K) (call : Call K) (s : Limiter K) : Decidable (Elsewhere key call s) :=
  inferInstanceAs (Decidable (_ ∧ _))

/-- The bucket is as it was, or was dropped when it had drained at its stored rate. -/
def Untouched (key : K) (a : Actions) (start : ℚ) (s : Limiter K) : Prop :=
  start ≤ s.now ∧ (s.actions.lookup key = some a ∨
    s.actions.lookup key = none ∧ a.remaining a.rateHz s.now ≤ 0)

section

variable {start : ℚ} (ha : 0 < a.remaining a.rateHz start)
include ha

theorem remaining_nonpos_later (h : a.remaining a.rateHz now ≤ 0) (hs : start ≤ now)
    (ht : now ≤ time) : a.remaining a.rateHz time ≤ 0 := by
  have hd : a.remaining a.rateHz now = a.remaining a.rateHz start-(now-start)*a.rateHz :=
    remaining_later a start now
  rw [remaining_later a now time]
  have hr : 0 ≤ a.rateHz := by
    by_contra hn
    nlinarith
  nlinarith

theorem Untouched.later (h : Untouched key a start s) (ht : s.now ≤ time) :
    Untouched key a start { s with now := time } :=
  ⟨h.1.trans ht,h.2.imp_right (And.imp_right fun hle => remaining_nonpos_later ha hle h.1 ht)⟩

omit ha in
theorem Untouched.prune (h : Untouched key a start s) :
    Untouched key a start { s with actions := pruneMessageCounts s.actions s.now } := by
  refine ⟨h.1,?_⟩
  rw [pruneMessageCounts,lookup_filter]
  rcases h.2 with h | ⟨h,hle⟩
  · rw [h,Option.filter_some]
    split
    · exact .inl rfl
    · next hn => exact .inr ⟨rfl,by simpa using hn⟩
  · exact .inr ⟨by simp [h],hle⟩

omit ha in
theorem Untouched.set {other : K} {a' : Actions} (h : Untouched key a start s)
    (hne : other ≠ key) :
    Untouched key a start { s with actions := s.actions.insert other a' } := by
  rw [Untouched,lookup_set,if_neg hne.symm]
  exact h

theorem Untouched.callStep {call : Call K} (h : Untouched key a start s)
    (he : Elsewhere key call s) : Untouched key a start (callStep call s) := by
  obtain ⟨⟨r,b⟩,op⟩ := call
  have hl := h.later ha he.2
  cases op with
  | canDoAction other update n time =>
    cases update with
    | false => exact hl.prune
    | true => exact hl.prune.set he.1
  | recordAction other n time => exact hl.set he.1

theorem Untouched.allowed_iff (h : Untouched key a start s) (ht : s.now ≤ time) {n : ℕ}
    (hn : n ≤ burst) (update : Bool) :
    (Ratelimiter.canDoAction rate burst s.actions key update n time).1 = true ↔
      a.remaining a.rateHz time ≤ 0 ∨ a.remaining rate time ≤ burst-n := by
  have hb : 0 ≤ burst-n := sub_nonneg.mpr hn
  rw [Ratelimiter.canDoAction,decide_eq_true_eq,getActionCounts,pruneMessageCounts,lookup_filter]
  rcases (h.later ha ht).2 with h | ⟨h,hle⟩
  · rw [h,Option.filter_some]
    split
    · next hp => simpa [hb] using fun hle => absurd (decide_eq_true_eq.mp hp) (not_lt.mpr hle)
    · next hp => simpa [Actions.remaining,hn] using Or.inl (by simpa [Actions.remaining] using hp)
  · simpa [h,Actions.remaining,hn] using Or.inl (by simpa [Actions.remaining] using hle)

end

variable {left : Dict K Actions} {told : ℚ}

theorem denied_leaves {update : Bool} {n : ℕ} (hr : 0 < rate) (hn : n ≤ burst)
    (hd : canDoAction rate burst actions key update n now = (false,told,left)) :
    ∃ stored a : Actions, actions.lookup key = some stored ∧
      a = { stored with rateHz := if update then rate else stored.rateHz } ∧
      left.lookup key = some a ∧ 0 < a.remaining a.rateHz now ∧ burst-n < a.remaining rate now ∧
      told = max (a.timeStart+(a.actionCount-burst+1)/rate) now := by
  have hb : 0 ≤ burst-n := sub_nonneg.mpr hn
  simp only [canDoAction,Prod.mk.injEq,decide_eq_false_iff_not] at hd
  obtain ⟨hd,rfl,rfl⟩ := hd
  rw [getActionCounts] at hd ⊢
  cases hl : (pruneMessageCounts actions now).lookup key with
  | none =>
    rw [hl] at hd
    exact absurd (by simpa [Actions.remaining] using hn) hd
  | some a =>
    rw [hl,Option.getD_some] at hd
    have hlt : burst-n < a.remaining rate now :=
      (lt_max_iff.mp (not_le.mp hd)).resolve_left (not_lt.mpr hb)
    have hp : ¬ a.remaining rate now < 0 := by linarith
    rw [Option.getD_some,forgive,if_neg hp]
    simp only [if_pos hr,decide_eq_true_eq,if_neg hd]
    have hst := hl
    rw [pruneMessageCounts,lookup_filter,Option.filter_eq_some_iff,decide_eq_true_eq] at hst
    refine ⟨a,_,hst.1,rfl,?_,?_,hlt,rfl⟩
    · cases update with
      | true => simp
      | false => simpa using hl
    · cases update with
      | true => exact hb.trans_lt hlt
      | false => exact hst.2

theorem remaining_le_iff (hr : 0 < rate) (level : ℚ) : a.remaining rate time ≤ level ↔
    a.timeStart+(a.actionCount-level)/rate ≤ time := by
  rw [Actions.remaining,sub_le_comm,← le_sub_iff_add_le' (a := a.timeStart),div_le_iff₀ hr]

theorem told_from_iff {P : ℚ → Prop} {first told start : ℚ} (h : start < first)
    (hP : ∀ time ≥ start, (P time ↔ first ≤ time)) :
    (∀ time ≥ start, (P time ↔ max told start ≤ time)) ↔ first = told := by
  constructor
  · intro htold
    have h1 := (max_le_iff.mp ((htold first h.le).mp ((hP first h.le).mpr le_rfl))).1
    have hle : start ≤ max told start := le_max_right _ _
    have h2 := le_max_iff.mp ((hP _ hle).mp ((htold _ hle).mpr le_rfl))
    exact le_antisymm (h2.resolve_right (not_le.mpr h)) h1
  · rintro rfl time ht
    rw [hP time ht,max_le_iff,and_iff_left ht]

/-- The time from which on a call is allowed is the one that is told, if and only if the call
is for one action and the bucket is not dropped before at its stored rate, or it happens to be
dropped just then. -/
theorem told_iff {n : ℕ} (hr : 0 < rate) (hn : 1 ≤ n) (hd : 0 < a.remaining a.rateHz now)
    (hl : burst-n < a.remaining rate now) :
    (∀ time ≥ now, ((a.remaining a.rateHz time ≤ 0 ∨ a.remaining rate time ≤ burst-n) ↔
      max (a.timeStart+(a.actionCount-burst+1)/rate) now ≤ time)) ↔
    n = 1 ∧ (a.rateHz ≤ 0 ∨ (a.actionCount-burst+1)*a.rateHz ≤ a.actionCount*rate) ∨
      0 < a.rateHz ∧ (a.actionCount-burst+1)*a.rateHz = a.actionCount*rate := by
  have hfirst : now < a.timeStart+(a.actionCount-(burst-n))/rate :=
    not_le.mp (mt (remaining_le_iff hr (burst-n)).mpr (not_le.mpr hl))
  have hlater : a.timeStart+(a.actionCount-(burst-n))/rate =
      a.timeStart+(a.actionCount-burst+1)/rate+((n:ℚ)-1)/rate := by ring
  rcases le_or_gt a.rateHz 0 with h0 | h0
  · have hnever : ∀ time ≥ now, ¬ a.remaining a.rateHz time ≤ 0 := by
      intro time ht
      rw [remaining_later a now time]
      nlinarith
    rw [told_from_iff hfirst fun time ht => by
        rw [or_iff_right (hnever time ht),remaining_le_iff hr],hlater]
    simp [h0,not_lt.mpr h0,hr.ne',sub_eq_zero]
  · have hdrop : now < a.timeStart+(a.actionCount-0)/a.rateHz :=
      not_le.mp (mt (remaining_le_iff h0 0).mpr (not_le.mpr hd))
    rw [told_from_iff (lt_min hdrop hfirst) fun time _ => by
        rw [remaining_le_iff hr,remaining_le_iff h0,min_le_iff],
      hlater,← div_le_div_iff₀ hr h0,← div_eq_div_iff hr.ne' h0.ne',sub_zero]
    rcases hn.eq_or_lt with rfl | hn
    · rw [Nat.cast_one,sub_self,zero_div,add_zero,min_eq_right_iff,add_le_add_iff_left]
      simpa [h0,not_le.mpr h0] using Eq.le
    · have hpos : 0 < ((n:ℚ)-1)/rate := div_pos (sub_pos.mpr (by exact_mod_cast hn)) hr
      simp only [hn.ne',false_and,false_or,h0,true_and,min_eq_iff]
      constructor
      · rintro (⟨h,-⟩ | ⟨h,-⟩) <;> linarith
      · intro h
        exact .inl ⟨by rw [h],by linarith⟩

/-- A call that was denied is allowed from the time that was told on, and not before it,
whatever is done for other keys meanwhile, if and only if it is for one action and the bucket
does not drain before at the rate it is stored with, or drains just at the time told. -/
theorem retry_allowed_iff (rate burst : ℚ) (hrate : 0 < rate) (n : ℕ) (hn : 1 ≤ n)
    (hburst : n ≤ burst) (actions left : Dict K Actions) (key : K) (update : Bool) (now told : ℚ)
    (hdenied : canDoAction rate burst actions key update n now = (false,told,left)) :
    (∀ calls : List (Call K), Admitted callStep (Elsewhere key) calls ⟨left,now,[]⟩ →
      ∀ time ≥ (run callStep calls ⟨left,now,[]⟩).now,
        ((canDoAction rate burst (run callStep calls ⟨left,now,[]⟩).actions key update n time).1 =
          true ↔ told ≤ time)) ↔
    n = 1 ∧ (update = true ∨ ∀ a ∈ actions.lookup key, a.rateHz ≤ 0 ∨
        (a.actionCount-burst+1)*a.rateHz ≤ a.actionCount*rate) ∨
      update = false ∧ ∃ a ∈ actions.lookup key, 0 < a.rateHz ∧
        (a.actionCount-burst+1)*a.rateHz = a.actionCount*rate := by
  obtain ⟨stored,a,hst,ha,hleft,hd,hl,rfl⟩ := denied_leaves hrate hburst hdenied
  have hallowed : ∀ calls, Admitted callStep (Elsewhere key) calls ⟨left,now,[]⟩ →
      ∀ time ≥ (run callStep calls ⟨left,now,[]⟩).now, now ≤ time ∧
        ((canDoAction rate burst (run callStep calls ⟨left,now,[]⟩).actions key update n time).1 =
          true ↔ a.remaining a.rateHz time ≤ 0 ∨ a.remaining rate time ≤ burst-n) := by
    intro calls hcalls time htime
    have hu := hcalls.invariant (I := Untouched key a now)
      (fun call s hs he => hs.callStep hd he) ⟨le_rfl,.inl hleft⟩
    exact ⟨hu.1.trans htime,hu.allowed_iff hd htime hburst update⟩
  refine Iff.trans ⟨fun h time ht => ?_,fun h calls hcalls time ht => ?_⟩
    ((told_iff hrate hn hd hl).trans ?_)
  · exact (hallowed [] trivial time ht).2.symm.trans (h [] trivial time ht)
  · obtain ⟨hle,hiff⟩ := hallowed calls hcalls time ht
    exact hiff.trans (h time hle)
  · rw [hst]
    subst ha
    cases update with
    | false => simp
    | true =>
      have hone : (1:ℚ) ≤ n := by exact_mod_cast hn
      simp only [if_true,true_or,and_true,reduceCtorEq,false_and,or_false,hrate,true_and,
        not_le.mpr hrate,false_or,mul_le_mul_iff_left₀ hrate]
      constructor
      · rintro (h | h)
        · exact h.1
        · have hb := mul_right_cancel₀ hrate.ne' h
          have hle : (n:ℚ) ≤ 1 := by linarith
          exact le_antisymm (by exact_mod_cast hle) hn
      · intro h
        exact .inl ⟨h,by linarith⟩

def oneDone : Dict String Actions := (canDoAction 1 2 ∅ "k" true 1 0).2.2

theorem retry_allowed_iff_oneDone :
    let answer := canDoAction 1 1 oneDone "k" true 1 (1/2)
    (canDoAction 1 1 (run callStep [((1,1),.canDoAction "o" true 1 (3/4))]
      ⟨answer.2.2,1/2,[]⟩).actions "k" true 1 1).1 = true ↔ answer.2.1 ≤ 1 :=
  (retry_allowed_iff 1 1 (by decide) 1 le_rfl (by decide) oneDone _ "k" true (1/2) _
    (Prod.ext (by decide +kernel) rfl)).mpr (.inl ⟨rfl,.inl rfl⟩) _ (by decide +kernel) 1
    (by decide +kernel)

/-- Two actions at once are told the time of a single one. -/
theorem pair_denied_when_told :
    let answer := canDoAction 1 2 oneDone "k" true 2 (1/2)
    answer.1 = false ∧ (canDoAction 1 2 answer.2.2 "k" true 2 answer.2.1).1 = false := by
  decide +kernel

end Retry

end Synapse.Ratelimiter
