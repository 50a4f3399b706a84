import Synapse.Dict

/-!
# Changes of a dictionary, one key at a time

A log of changes, each of which sets or removes one key, is replayed on a copy of
the dictionary. For a key that the log changes the last change counts, whatever the copy
had, and the other keys stay. So a copy that is right at the keys which the outstanding
changes do not touch becomes right when they have been replayed.
-/

set_option autoImplicit false

namespace Synapse.ChangeLog
open List

structure Change (K V : Type) where
  key : K
  value : Option V
  deriving DecidableEq

variable {K V : Type}

def Touches (log : List (Change K V)) (k : K) : Prop := ∃ change ∈ log, change.key = k

variable {log fs : List (Change K V)} {target d : Dict K V} {k : K} {change : Change K V}
  {n j : ℕ}

theorem touches_cons : Touches (change::log) k ↔ k = change.key ∨ Touches log k := by
  simp [Touches,eq_comm]

theorem touches_append {rs : List (Change K V)} :
    Touches (log ++ rs) k ↔ Touches log k ∨ Touches rs k := by
  simp only [Touches,mem_append,or_and_right,exists_or]

theorem touches_drop (hj : j ≤ n) (h : Touches (log.drop n) k) : Touches (log.drop j) k := by
  obtain ⟨change,hm,hk⟩ := h
  exact ⟨change,(drop_subset_drop_left log hj) hm,hk⟩

variable [DecidableEq K]

def set (change : Change K V) (d : Dict K V) : Dict K V :=
  match change.value with
  | none => d.erase change.key
  | some v => d.insert change.key v

theorem lookup_set (change : Change K V) (d : Dict K V) (k : K) :
    (set change d).lookup k = if k = change.key then change.value else d.lookup k := by
  unfold set
  cases hv : change.value with
  | none => exact Dict.lookup_pop d change.key k
  | some v => exact Dict.lookup_set d change.key k v

def replay (log : List (Change K V)) (d : Dict K V) : Dict K V :=
  log.foldl (fun d change => set change d) d

theorem replay_append (log rs : List (Change K V)) (d : Dict K V) :
    replay (log ++ rs) d = replay rs (replay log d) :=
  foldl_append

theorem lookup_replay_of_not_touches (h : ¬Touches log k) (d : Dict K V) :
    (replay log d).lookup k = d.lookup k := by
  induction log generalizing d with
  | nil => rfl
  | cons change log ih =>
    have hk : k ≠ change.key := fun hk => h (touches_cons.mpr (.inl hk))
    have hl : ¬Touches log k := fun hl => h (touches_cons.mpr (.inr hl))
    show (replay log (set change d)).lookup k = d.lookup k
    rw [ih hl,lookup_set,if_neg hk]

theorem lookup_replay_of_touches (h : Touches log k) (d e : Dict K V) :
    (replay log d).lookup k = (replay log e).lookup k := by
  induction log generalizing d e with
  | nil =>
    obtain ⟨change,hm,-⟩ := h
    cases hm
  | cons change log ih =>
    show (replay log (set change d)).lookup k = (replay log (set change e)).lookup k
    by_cases hl : Touches log k
    · exact ih hl _ _
    · have hk : k = change.key := (touches_cons.mp h).resolve_right hl
      rw [lookup_replay_of_not_touches hl,lookup_replay_of_not_touches hl,lookup_set,
        lookup_set,if_pos hk,if_pos hk]

/-- What the changes touch, they leave as in the dictionary. -/
def Leads (log : List (Change K V)) (target : Dict K V) : Prop :=
  ∀ k, Touches log k → ∀ d, (replay log d).lookup k = target.lookup k

/-- The copy is right where the changes do not touch it. -/
def Right (log : List (Change K V)) (target d : Dict K V) : Prop :=
  ∀ k, ¬Touches log k → d.lookup k = target.lookup k

theorem right_self (log : List (Change K V)) (target : Dict K V) : Right log target target :=
  fun _ _ => rfl

theorem Right.lookup (h : Right [] target d) (k : K) : d.lookup k = target.lookup k := by
  apply h
  rintro ⟨change,hm,-⟩
  cases hm

theorem Leads.snoc (h : Leads log target) (change : Change K V) :
    Leads (log ++ [change]) (set change target) := by
  intro k hk d
  rw [replay_append]
  show (set change (replay log d)).lookup k = _
  rw [lookup_set,lookup_set]
  by_cases heq : k = change.key
  · rw [if_pos heq,if_pos heq]
  · rw [if_neg heq,if_neg heq]
    apply h k
    rcases touches_append.mp hk with hl | hc
    · exact hl
    · obtain ⟨o,hm,rfl⟩ := hc
      rw [mem_singleton.mp hm] at heq
      exact absurd rfl heq

theorem Right.snoc (h : Right log target d) (change : Change K V) :
    Right (log ++ [change]) (set change target) d := by
  intro k hk
  have hl : ¬Touches log k := fun hl => hk (touches_append.mpr (.inl hl))
  have hne : k ≠ change.key :=
    fun heq => hk (touches_append.mpr (.inr ⟨change,mem_singleton.mpr rfl,heq.symm⟩))
  rw [lookup_set,if_neg hne]
  exact h k hl

theorem Leads.tail (h : Leads (change::log) target) : Leads log target := by
  intro k hk d
  rw [lookup_replay_of_touches hk d (set change d)]
  exact h k (touches_cons.mpr (.inr hk)) d

theorem Leads.suffix {rs : List (Change K V)} (h : Leads (fs ++ rs) target) : Leads rs target := by
  induction fs with
  | nil => exact h
  | cons change fs ih => exact ih h.tail

theorem Right.head (h : Right (change::log) target d) (hl : Leads (change::log) target) :
    Right log target (set change d) := by
  intro k hk
  by_cases heq : k = change.key
  · have ht : Touches (change::log) k := touches_cons.mpr (.inl heq)
    rw [← hl k ht d]
    show _ = (replay log (set change d)).lookup k
    rw [lookup_replay_of_not_touches hk]
  · rw [lookup_set,if_neg heq]
    apply h k
    intro ht
    exact hk ((touches_cons.mp ht).resolve_left heq)

theorem leads_drop (log : List (Change K V)) (n : ℕ) (d : Dict K V) :
    Leads (log.drop n) (replay log d) := by
  intro k hk e
  have hs : replay log d = replay (log.drop n) (replay (log.take n) d) := by
    rw [← replay_append,take_append_drop]
  rw [hs]
  exact lookup_replay_of_touches hk _ _

theorem Leads.rewind (h : Leads (fs ++ log.drop n) (replay log d)) (hj : j ≤ n) :
    Leads (fs ++ log.drop j) (replay log d) := by
  intro k hk e
  rw [replay_append]
  by_cases hd : Touches (log.drop j) k
  · exact leads_drop log j d k hd _
  · have hn : ¬Touches (log.drop n) k := fun hn => hd (touches_drop hj hn)
    have hf : Touches fs k := (touches_append.mp hk).resolve_right hd
    have hl := h k (touches_append.mpr (.inl hf)) e
    rw [replay_append,lookup_replay_of_not_touches hn] at hl
    rw [lookup_replay_of_not_touches hd]
    exact hl

theorem Right.rewind (h : Right (fs ++ log.drop n) target d) (hj : j ≤ n) :
    Right (fs ++ log.drop j) target d := by
  intro k hk
  refine h k (fun ht => hk ?_)
  rcases touches_append.mp ht with hf | hd
  · exact touches_append.mpr (.inl hf)
  · exact touches_append.mpr (.inr (touches_drop hj hd))

end Synapse.ChangeLog
