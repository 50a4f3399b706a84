import Synapse.StateGroupRuns

/-!
# Purges of history

The groups that no event refers to are searched for, and then purged. The search
is to follow the edges to previous groups, but asks for the edges that lead to the
groups at hand. A purge leaves the edges of what it deletes, and a later one writes
rows for the groups that have such an edge to what it deletes.
-/

set_option autoImplicit false

namespace Synapse.StateGroups
open Dict Finset

section Search

variable (t : StateTables)

/-- The rows are selected by `prev_state_group`. -/
def getPreviousStateGroups (stateGroups : Finset ℕ) : Dict ℕ ℕ :=
  filter t.stateGroupEdges (fun _ prevStateGroup => prevStateGroup ∈ stateGroups)

structure Search where
  referencedGroups : Finset ℕ
  stateGroupsSeen : Finset ℕ
  nextToSearch : Finset ℕ

variable (order : Iteration ℕ) (referenced : Finset ℕ)

def currentSearch (nextToSearch : Finset ℕ) : Finset ℕ :=
  if nextToSearch.card < 100 then nextToSearch
  else ((order.list nextToSearch).take 100).toFinset

def searchStep (s : Search) : Search :=
  let current := currentSearch order s.nextToSearch
  let prevs := (values (getPreviousStateGroups t (current \ (current ∩ referenced)))).toFinset \
    s.stateGroupsSeen
  ⟨s.referencedGroups ∪ current ∩ referenced,s.stateGroupsSeen ∪ prevs,
    (s.nextToSearch \ current) ∪ prevs⟩

def searchLoop : ℕ → Search → Option Search
  | fuel, s =>
    if s.nextToSearch = ∅ then some s
    else
      match fuel with
      | 0 => none
      | fuel+1 => searchLoop fuel (searchStep t order referenced s)

/-- `referenced` are the groups that `get_referenced_state_groups` finds. -/
def findUnreferencedGroups (fuel : ℕ) (stateGroups : Finset ℕ) : Option (Finset ℕ) :=
  (searchLoop t order referenced fuel ⟨∅,stateGroups,stateGroups⟩).map
    (fun s => s.stateGroupsSeen \ s.referencedGroups)

/-- What can be deleted: reached from the start over groups that no event refers to. -/
inductive Unreferenced (start : Finset ℕ) : ℕ → Prop
  | start {g : ℕ} (h : g ∈ start) (hn : g ∉ referenced) : Unreferenced start g
  | prev {g p : ℕ} (h : Unreferenced start g) (hp : t.stateGroupEdges.lookup g = some p)
      (hn : p ∉ referenced) : Unreferenced start p

variable {t order referenced} {start : Finset ℕ}

theorem currentSearch_sub (s : Finset ℕ) : currentSearch order s ⊆ s := by
  unfold currentSearch
  split
  · rfl
  · intro g hg
    exact (order.mem s g).mp (List.mem_of_mem_take (List.mem_toFinset.mp hg))

theorem currentSearch_ne {s : Finset ℕ} (h : s ≠ ∅) : currentSearch order s ≠ ∅ := by
  unfold currentSearch
  split
  · exact h
  · have hl : order.list s ≠ [] := by
      intro hn
      obtain ⟨g,hg⟩ := nonempty_iff_ne_empty.mpr h
      rw [← order.mem,hn] at hg
      cases hg
    simpa using hl

theorem searchStep_eq {s : Search} (h : s.nextToSearch ⊆ s.stateGroupsSeen) :
    searchStep t order referenced s = ⟨s.referencedGroups ∪ currentSearch order s.nextToSearch ∩
      referenced,s.stateGroupsSeen,s.nextToSearch \ currentSearch order s.nextToSearch⟩ := by
  have hp : (values (getPreviousStateGroups t (currentSearch order s.nextToSearch \
      (currentSearch order s.nextToSearch ∩ referenced)))).toFinset \ s.stateGroupsSeen = ∅ := by
    rw [sdiff_eq_empty_iff_subset]
    intro p hp
    obtain ⟨g,hg⟩ := (mem_values _ p).mp (List.mem_toFinset.mp hp)
    rw [getPreviousStateGroups,lookup_filter,Option.filter_eq_some_iff,decide_eq_true_eq] at hg
    exact h (currentSearch_sub _ (mem_sdiff.mp hg.2).1)
  simp only [searchStep,hp,union_empty]

theorem searchLoop_eq (fuel : ℕ) (s : Search) (h : s.nextToSearch ⊆ s.stateGroupsSeen)
    (hf : s.nextToSearch.card ≤ fuel) : searchLoop t order referenced fuel s =
      some ⟨s.referencedGroups ∪ s.nextToSearch ∩ referenced,s.stateGroupsSeen,∅⟩ := by
  induction fuel generalizing s with
  | zero =>
    obtain ⟨found,seen,next⟩ := s
    obtain rfl : next = ∅ := by simpa using hf
    simp [searchLoop]
  | succ fuel ih =>
    rw [searchLoop]
    by_cases hn : s.nextToSearch = ∅
    · obtain ⟨found,seen,next⟩ := s
      simp_all
    · have hsub : currentSearch order s.nextToSearch ⊆ _ := currentSearch_sub _
      have hlt := card_lt_card
        (sdiff_ssubset hsub (nonempty_iff_ne_empty.mpr (currentSearch_ne hn)))
      rw [if_neg hn,searchStep_eq h,ih _ (sdiff_subset.trans h) (by dsimp only; omega)]
      simp only [Option.some.injEq,Search.mk.injEq,and_true]
      rw [union_assoc,← union_inter_distrib_right,union_sdiff_of_subset hsub]

/-- The search gives the groups that can be deleted if and only if it starts with
the previous groups as well. -/
theorem findUnreferencedGroups_exact_iff (t : StateTables) (order : Iteration ℕ)
    (referenced start : Finset ℕ) (fuel : ℕ) (hfuel : start.card ≤ fuel) :
    (∃ found, findUnreferencedGroups t order referenced fuel start = some found ∧
      ∀ g, g ∈ found ↔ Unreferenced t referenced start g) ↔
    ∀ g ∈ start, g ∉ referenced → ∀ p, t.stateGroupEdges.lookup g = some p → p ∉ referenced →
      p ∈ start := by
  have hfound : findUnreferencedGroups t order referenced fuel start =
      some (start \ referenced) := by
    rw [findUnreferencedGroups,searchLoop_eq _ _ subset_rfl hfuel]
    simp
  constructor
  · rintro ⟨found,hf,hexact⟩ g hg hn p hp hnp
    obtain rfl := Option.some.inj (hfound.symm.trans hf)
    exact (mem_sdiff.mp ((hexact p).mpr (.prev (.start hg hn) hp hnp))).1
  · intro hprev
    refine ⟨_,hfound,fun g => ⟨fun h => ?_,fun h => ?_⟩⟩
    · exact .start (mem_sdiff.mp h).1 (mem_sdiff.mp h).2
    · induction h with
      | start h hn => exact mem_sdiff.mpr ⟨h,hn⟩
      | prev _ hp hn ih =>
        obtain ⟨hg,hu⟩ := mem_sdiff.mp ih
        exact mem_sdiff.mpr ⟨hprev _ hg hu _ hp hn,hn⟩

end Search

def increasingGroups : Iteration ℕ := Iteration.sortedBy id (fun _ _ h => h)

theorem findUnreferencedGroups_exact_readDelta :
    ∃ found, findUnreferencedGroups readDelta.tables increasingGroups ∅ 2 {1,2} = some found ∧
      ∀ g, g ∈ found ↔ Unreferenced readDelta.tables ∅ {1,2} g :=
  (findUnreferencedGroups_exact_iff _ _ _ _ 2 (by decide)).mpr (by
    intro g _ _ p hp _
    have hlower := readDelta.tables.lower g p hp
    simp_all
    omega)

/-- The previous group of the only group to start with is not found. -/
theorem previous_group_missed :
    findUnreferencedGroups readDelta.tables increasingGroups ∅ 10 {2} = some {2} ∧
      Unreferenced readDelta.tables ∅ {2} 1 :=
  ⟨by decide +kernel,.prev (.start (mem_singleton_self 2) (by simp)) (by decide +kernel) (by simp)⟩

abbrev Purges := List (Iteration ℕ × Finset ℕ)

def purgeAll (engine : Engine) (t : StateTables) (purges : Purges) : Result StateTables :=
  purges.foldlM (fun t purge => purgeUnreferencedStateGroups engine purge.1 t purge.2) t

/-- No group that is purged has an edge to one of a later purge, unless that purge is
for it too. -/
def EdgesGone (t : StateTables) (purges : Purges) : Prop :=
  purges.Pairwise (fun purge later => ∀ g ∈ purge.2, ∀ p ∈ later.2,
    t.stateGroupEdges.lookup g = some p → g ∈ later.2)

theorem purgeAll_spec (engine : Engine) (t : StateTables) (ps : Purges) :
    ∃ t', purgeAll engine t ps = .ok t' ∧ (∀ g, (∀ purge ∈ ps, g ∉ purge.2) → ∀ key,
        (t'.resolved g).lookup key = (t.resolved g).lookup key) ∧
      (∀ g, t.stateGroupsState.lookup g = none → (∀ purge ∈ ps, ∀ p ∈ purge.2,
        t.stateGroupEdges.lookup g = some p → g ∈ purge.2) → t'.stateGroupsState.lookup g = none) ∧
      (EdgesGone t ps → ∀ purge ∈ ps, ∀ g ∈ purge.2, t'.stateGroupsState.lookup g = none) := by
  induction ps generalizing t with
  | nil => exact ⟨t,rfl,by simp,by simp,by simp⟩
  | cons purge ps ih =>
    obtain ⟨t₁,h₁,-,he,hs,hr⟩ := purge_spec t engine purge.1 purge.2
    obtain ⟨t',h',hs',hr',hg'⟩ := ih t₁
    refine ⟨t',?_,?_,?_,?_⟩
    · rw [purgeAll,List.foldlM_cons,h₁]
      exact h'
    · intro g hg key
      rw [List.forall_mem_cons] at hg
      rw [hs' g hg.2,hs g hg.1]
    · intro g hn hg
      rw [List.forall_mem_cons] at hg
      apply hr' g
      · apply hr
        by_cases hd : g ∈ purge.2
        · exact .inl hd
        · refine .inr ⟨fun hm => ?_,hn⟩
          obtain ⟨⟨p,hp,hl⟩,-⟩ := mem_remainingStateGroups.mp hm
          exact hd (hg.1 p hp hl)
      · intro later hla p hp hl
        exact hg.2 later hla p hp (he g p hl).1
    · intro hgo
      obtain ⟨hf,hgo⟩ := List.pairwise_cons.mp hgo
      rw [List.forall_mem_cons]
      refine ⟨fun g hg => hr' g (hr g (.inl hg)) ?_,hg' (hgo.imp ?_)⟩
      · intro later hla p hp hl
        exact hf later hla g hg p hp (he g p hl).1
      · intro a b hab g hg p hp hl
        exact hab g hg p hp (he g p hl).1

/-- Purges do not change the state of the groups that stay, and leave no rows of the
deleted ones if no edge leads from these to a group that is purged later. -/
theorem purges_invisible (engine : Engine) (t : StateTables) (purges : Purges)
    (hgone : EdgesGone t purges) : ∃ t', purgeAll engine t purges = .ok t' ∧
      (∀ g, (∀ purge ∈ purges, g ∉ purge.2) → ∀ key,
        (t'.resolved g).lookup key = (t.resolved g).lookup key) ∧
      ∀ purge ∈ purges, ∀ g ∈ purge.2, t'.stateGroupsState.lookup g = none := by
  obtain ⟨t',hrun,hstate,-,hrows⟩ := purgeAll_spec engine t purges
  exact ⟨t',hrun,hstate,hrows hgone⟩

theorem purges_invisible_readDelta : ∃ t',
    purgeAll .sqlite readDelta.tables [(increasingGroups,{1})] = .ok t' ∧
      (∀ key, (t'.resolved 2).lookup key = (readDelta.tables.resolved 2).lookup key) ∧
      t'.stateGroupsState.lookup 1 = none := by
  obtain ⟨t',hrun,hstate,hrows⟩ := purges_invisible .sqlite readDelta.tables
    [(increasingGroups,{1})] (List.pairwise_singleton _ _)
  exact ⟨t',hrun,hstate 2 (by simp),hrows _ List.mem_cons_self 1 (mem_singleton_self 1)⟩

/-- The second purge writes the state of a group that the first has deleted. -/
theorem rows_of_deleted_group :
    (purgeAll .sqlite readDelta.tables [(increasingGroups,{2}),(increasingGroups,{1})]).toOption.map
      (fun t => (t.stateGroups,(t.stateGroupsState.lookup 2).map AList.keys)) =
    some (∅,some [(EventTypes.create,"")]) := by decide +kernel

end Synapse.StateGroups
