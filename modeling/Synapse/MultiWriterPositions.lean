import Synapse.MultiWriterStream

/-!
# What the recorded positions promise

Every position an instance records is past all outstanding IDs of the writer
it belongs to. The promises survive any step that only finishes outstanding
IDs or draws new ones, so each step has to be checked only at the instance
that takes it.
-/

set_option autoImplicit false

namespace Synapse.MultiWriterStream
open MultiWriterIdGenerator List Dict Option

variable {I : Type*} [DecidableEq I]

variable {cl cl' : List (Call I)} {seq seq' : ℤ}

section

variable (h : Extends cl cl' seq seq')
include h

omit [DecidableEq I] in
theorem Extends.pastOf {j : I} {t : ℤ} (hp : PastOf cl seq j t) : PastOf cl' seq' j t := by
  refine ⟨hp.1.trans h.1,?_⟩
  intro c' hc' ho x hx
  rcases h.2 c' hc' x hx with ⟨c,hc,hco,hcx⟩ | hlt
  · exact hp.2 c hc (hco.trans ho) x hcx
  · exact lt_of_le_of_lt hp.1 hlt

omit [DecidableEq I] in
theorem Extends.clear {t : ℤ} (hp : Clear cl seq t) : Clear cl' seq' t := by
  refine ⟨hp.1.trans h.1,?_⟩
  intro c' hc' hx
  rcases h.2 c' hc' t hx with ⟨c,hc,-,hcx⟩ | hlt
  · exact hp.2 c hc hcx
  · exact absurd hp.1 (not_le.mpr hlt)

/-- Positions recorded before a step stay good after it: this is the frame of
every step for every instance. -/
theorem Extends.positions {ws : List I} {i : I} {g : Generator I} (hp : Positions cl seq ws i g) :
    Positions cl' seq' ws i g where
  name := hp.name
  persisted := fun j => h.pastOf (hp.persisted j)
  current := fun j t ht => h.pastOf (hp.current j t ht)
  own := fun t ht => h.clear (hp.own t ht)
  localMax := h.pastOf hp.localMax
  localClear := h.clear hp.localClear
  known := fun y hy => h.clear (hp.known y hy)
  finished := fun y hy => h.clear (hp.finished y hy)
  seenLe := hp.seenLe.trans h.1
  seen := by
    intro c' hc' ho hx
    rcases h.2 c' hc' _ hx with ⟨c,hc,hco,hcx⟩ | hlt
    · exact hp.seen c hc (hco ▸ ho) hcx
    · exact absurd hp.seenLe (not_le.mpr hlt)
  entries := hp.entries
  nonzero := hp.nonzero

end

section Generator

variable {cl : List (Call I)} {seq : ℤ} {ws : List I} {i : I}

variable {g g' : Generator I} {t u : ℤ} {j : I} {ids : List ℤ}

omit [DecidableEq I] in
theorem pastOf_mono (h : PastOf cl seq j t) (hu : u ≤ t) : PastOf cl seq j u :=
  ⟨hu.trans h.1,fun c hc ho x hx => lt_of_le_of_lt hu (h.2 c hc ho x hx)⟩

omit [DecidableEq I] in
theorem pastOf_max (ht : PastOf cl seq j t) (hu : PastOf cl seq j u) :
    PastOf cl seq j (max t u) := by
  rcases max_choice t u with h | h <;> rw [h]
  · exact ht
  · exact hu

omit [DecidableEq I] in
theorem clear_max (ht : Clear cl seq t) (hu : Clear cl seq u) : Clear cl seq (max t u) := by
  rcases max_choice t u with h | h <;> rw [h]
  · exact ht
  · exact hu

omit [DecidableEq I] in
theorem clear_of_pastOf (i : I) (ht : ∀ j, PastOf cl seq j t) : Clear cl seq t :=
  ⟨(ht i).1,fun c hc hx => lt_irrefl t ((ht c.owner).2 c hc rfl t hx)⟩

theorem idle_pastOf (hb : Books cl i g) (hi : ¬ g.busy) (ht : t ≤ seq) : PastOf cl seq i t := by
  refine ⟨ht,?_⟩
  intro c hc ho x hx
  exfalso
  apply hi
  by_cases hph : c.phase = .drawing
  · have hm : c.currentMax ∈ g.inFlightFetches := by
      rw [hb.inFlight.mem_iff]
      exact mem_map.mpr ⟨c,mem_filter.mpr ⟨hc,by simp [ho,hph]⟩,rfl⟩
    exact .inr (ne_nil_of_mem hm)
  · exact .inl (ne_nil_of_mem ((hb.unfinished x).mpr ⟨c,hc,ho,hph,hx⟩))

theorem minOfOthers_le (hj : j ≠ g.instanceName) (ht : g.currentPositions.lookup j = some t) :
    minOfOthers g ≤ t := by
  have hm : t ∈ values (g.currentPositions.erase g.instanceName) := by
    rw [mem_values]
    exact ⟨j,by rw [lookup_pop,if_neg hj]; exact ht⟩
  unfold minOfOthers
  cases hmin : (values (g.currentPositions.erase g.instanceName)).min? with
  | none => simp [min?_eq_none_iff.mp hmin] at hm
  | some u => exact (min?_eq_some_iff.mp hmin).2 t hm

theorem minOfOthers_source (g : Generator I) :
    (∃ j t, j ≠ g.instanceName ∧ g.currentPositions.lookup j = some t ∧ minOfOthers g = t) ∨
      ((∀ j, j ≠ g.instanceName → g.currentPositions.lookup j = none) ∧
        minOfOthers g = ourCurrentPosition g) := by
  unfold minOfOthers
  cases hmin : (values (g.currentPositions.erase g.instanceName)).min? with
  | none =>
    refine .inr ⟨?_,rfl⟩
    intro j hj
    cases hl : g.currentPositions.lookup j with
    | none => rfl
    | some t =>
      have hm : t ∈ values (g.currentPositions.erase g.instanceName) := by
        rw [mem_values]
        exact ⟨j,by rw [lookup_pop,if_neg hj]; exact hl⟩
      simp [min?_eq_none_iff.mp hmin] at hm
  | some u =>
    obtain ⟨j,hj⟩ := (mem_values _ _).mp (min?_eq_some_iff.mp hmin).1
    obtain ⟨hne,hj⟩ := pop_cases hj
    exact .inl ⟨j,u,hne,hj,rfl⟩

theorem minCurr_le (g : Generator I) : minCurr g ≤ minOfOthers g := by
  unfold minCurr
  split
  · exact min_le_left _ _
  · exact le_refl _

omit [DecidableEq I] in
theorem absorb_pastOf (known : List ℤ) (up : ℤ) (hu : ∀ j, PastOf cl seq j up)
    (hk : ∀ y ∈ known, Clear cl seq y) :
    (∀ j, PastOf cl seq j (absorb up known).1) ∧ ∀ y ∈ (absorb up known).2, Clear cl seq y := by
  induction known generalizing up with
  | nil => exact ⟨hu,hk⟩
  | cons p rs ih =>
    have hr : ∀ y ∈ rs, Clear cl seq y := fun y hy => hk y (by simp [hy])
    simp only [absorb]
    split
    · exact ih up hu hr
    · split
      · next hp =>
        apply ih (up+1) _ hr
        intro j
        have hcl := hk p (by simp)
        refine ⟨hp ▸ hcl.1,?_⟩
        intro c hc ho x hx
        have hlt := (hu j).2 c hc ho x hx
        have hne : x ≠ p := fun h => hcl.2 c hc (h ▸ hx)
        omega
      · exact ⟨hu,hk⟩

omit [DecidableEq I] in
theorem registerIds_spec (h : registerIds g ids = some g') :
    ∃ gt, gt ∈ g.unfinishedIds ∪ ids ∧ g' = { g with
      unfinishedIds := g.unfinishedIds ∪ ids
      maxSeenAllocatedStreamId := max g.maxSeenAllocatedStreamId gt } := by
  obtain ⟨gt,hg,rfl⟩ := map_eq_some_iff.mp h
  exact ⟨gt,(max?_eq_some_iff.mp hg).1,rfl⟩

omit [DecidableEq I] in
theorem minUnfinished_none (h : minUnfinished g = none) : ¬ g.busy := by
  unfold minUnfinished at h
  split at h <;> simp only [reduceCtorEq] at h
  next hu hf =>
    rw [min?_eq_none_iff] at hu hf
    simp [Generator.busy,hu,hf]

theorem raisePosition_books (hb : Books cl i g) (newCur : Option ℤ) :
    Books cl i (raisePosition g newCur) := by
  cases newCur with
  | none => exact hb
  | some v =>
    simp only [raisePosition]
    split <;> exact ⟨hb.unfinished,hb.inFlight⟩

theorem keepFinished_books (hb : Books cl i g) (kept : List ℤ) :
    Books cl i { g with finishedIds := kept } := ⟨hb.unfinished,hb.inFlight⟩

theorem settleFinished_none (h : settleFinished (noteFinished g ids) = none) : ids = [] := by
  unfold settleFinished at h
  split at h
  · simp at h
  · rw [map_eq_none_iff,max?_eq_none_iff] at h
    by_contra hne
    obtain ⟨x,hx⟩ := exists_mem_of_ne_nil _ hne
    have hm : x ∈ (noteFinished g ids).finishedIds := mem_union_iff.mpr (.inr hx)
    rw [h] at hm
    simp at hm

variable (hc : Calls cl seq ws) (hp : Positions cl seq ws i g)

section

include hc

omit [DecidableEq I] in
theorem foreign_pastOf (hj : j ∉ ws) (ht : t ≤ seq) : PastOf cl seq j t :=
  ⟨ht,fun c hm ho => absurd (ho ▸ hc.owners c hm) hj⟩

theorem busy_writer (hb : Books cl i g) (h : g.busy) : i ∈ ws := by
  rcases h with h | h
  · obtain ⟨x,hx⟩ := exists_mem_of_ne_nil _ h
    obtain ⟨c,hm,ho,-,-⟩ := (hb.unfinished x).mp hx
    exact ho ▸ hc.owners c hm
  · obtain ⟨x,hx⟩ := exists_mem_of_ne_nil _ h
    rw [hb.inFlight.mem_iff] at hx
    obtain ⟨c,hm,-⟩ := mem_map.mp hx
    obtain ⟨hm,ho⟩ := mem_filter.mp hm
    have ho : c.owner = i := by simpa using (decide_eq_true_iff.mp ho).1
    exact ho ▸ hc.owners c hm

theorem minUnfinished_le (hb : Books cl i g) {bd : ℤ}
    (h : minUnfinished g = some bd) (c : Call I) (hm : c ∈ cl) (ho : c.owner = i) (x : ℤ)
    (hx : x ∈ c.ids) : bd ≤ x := by
  have hunf : ∀ u, g.unfinishedIds.min? = some u → c.phase ≠ .drawing → u ≤ x := by
    intro u hu hph
    exact (min?_eq_some_iff.mp hu).2 x ((hb.unfinished x).mpr ⟨c,hm,ho,hph,hx⟩)
  have hfl : ∀ f, g.inFlightFetches.min? = some f → c.phase = .drawing → f+1 ≤ x := by
    intro f hf hph
    have hmem : c.currentMax ∈ g.inFlightFetches := by
      rw [hb.inFlight.mem_iff]
      exact mem_map.mpr ⟨c,mem_filter.mpr ⟨hm,by simp [ho,hph]⟩,rfl⟩
    have hle := (min?_eq_some_iff.mp hf).2 _ hmem
    have hlt := (hc.above c hm (by simp [hph])).2 x hx
    omega
  have hnu : g.unfinishedIds.min? = none → c.phase = .drawing := by
    intro hn
    by_contra hph
    have hmem := (hb.unfinished x).mpr ⟨c,hm,ho,hph,hx⟩
    rw [min?_eq_none_iff.mp hn] at hmem
    simp at hmem
  have hnf : g.inFlightFetches.min? = none → c.phase ≠ .drawing := by
    intro hn hph
    have hmem : c.currentMax ∈ g.inFlightFetches := by
      rw [hb.inFlight.mem_iff]
      exact mem_map.mpr ⟨c,mem_filter.mpr ⟨hm,by simp [ho,hph]⟩,rfl⟩
    rw [min?_eq_none_iff.mp hn] at hmem
    simp at hmem
  unfold minUnfinished at h
  split at h
  · next u f hu hf =>
    cases h
    by_cases hph : c.phase = .drawing
    · exact (min_le_right _ _).trans (hfl f hf hph)
    · exact (min_le_left _ _).trans (hunf u hu hph)
  · next f hu hf =>
    cases h
    exact hfl f hf (hnu hu)
  · next u hu hf =>
    obtain rfl := some.inj h
    exact hunf u hu (hnf hf)
  · simp at h

end

include hp

theorem registerIds_positions (h : registerIds g ids = some g')
    (hown : ∀ x ∈ g.unfinishedIds ∪ ids, x ≤ seq ∧ ∀ c ∈ cl, c.owner ≠ i → x ∉ c.ids) :
    Positions cl seq ws i g' := by
  obtain ⟨gt,hm,rfl⟩ := registerIds_spec h
  refine { hp with seenLe := max_le hp.seenLe (hown gt hm).1, seen := ?_ }
  intro c hc ho hx
  rcases max_choice g.maxSeenAllocatedStreamId gt with he | he
  · exact hp.seen c hc ho (he ▸ hx)
  · exact (hown gt hm).2 c hc ho (he ▸ hx)

theorem raisePosition_positions (hw : i ∈ ws) {newCur : Option ℤ}
    (hn : ∀ v, newCur = some v → PastOf cl seq i v ∧ Clear cl seq v) :
    Positions cl seq ws i (raisePosition g newCur) := by
  cases newCur with
  | none => exact hp
  | some v =>
    obtain ⟨hpa,hc⟩ := hn v rfl
    obtain ⟨t,ht⟩ := hp.entries i hw
    have ho : ourCurrentPosition g = t := by rw [ourCurrentPosition,hp.name,ht]; rfl
    have hm := pastOf_max (hp.current i t ht) hpa
    have hcl := clear_max (hp.own t ht) hc
    simp only [raisePosition,ho]
    split
    · exact hp
    · refine ⟨hp.name,hp.persisted,?_,?_,pastOf_max hm hp.localMax,clear_max hcl hp.localClear,
        hp.known,hp.finished,hp.seenLe,hp.seen,?_,?_⟩
      · intro j u hu
        simp only [lookup_set,hp.name] at hu
        split at hu
        · next hj =>
          cases hu
          rw [hj]
          exact hm
        · exact hp.current j u hu
      · intro u hu
        simp only [lookup_set,hp.name,if_true,some.injEq] at hu
        exact hu ▸ hcl
      · intro j hj
        simp only [lookup_set]
        split
        · exact ⟨_,rfl⟩
        · exact hp.entries j hj
      · intro _ u hu
        simp only [lookup_set,hp.name,if_true,some.injEq] at hu
        have h1 := hp.nonzero hw t ht
        omega

theorem noteFinished_positions (hi : ∀ x ∈ ids, Clear cl seq x) :
    Positions cl seq ws i (noteFinished g ids) := by
  refine { hp with finished := ?_ }
  intro y hy
  rcases mem_union_iff.mp hy with hy | hy
  · exact hp.finished y hy
  · exact hi y hy

theorem keepFinished_positions {kept : List ℤ}
    (hk : ∀ y ∈ kept, y ∈ g.finishedIds) : Positions cl seq ws i { g with finishedIds := kept } :=
  { hp with finished := fun y hy => hp.finished y (hk y hy) }

include hc

theorem entry_pastOf (j : I) :
    PastOf cl seq j ((g.currentPositions.lookup j).getD 0) := by
  cases hl : g.currentPositions.lookup j with
  | some t => exact hp.current j t hl
  | none =>
    apply foreign_pastOf hc _ hc.nonneg
    intro hw
    obtain ⟨t,ht⟩ := hp.entries j hw
    simp [hl] at ht

theorem our_pastOf :
    PastOf cl seq i (ourCurrentPosition g) := by
  rw [ourCurrentPosition,hp.name]
  exact entry_pastOf hc hp i

theorem minCurr_le_seq : minCurr g ≤ seq := by
  apply (minCurr_le g).trans
  rcases minOfOthers_source g with ⟨j,t,-,ht,he⟩ | ⟨-,he⟩
  · exact he ▸ (hp.current j t ht).1
  · exact he ▸ (our_pastOf hc hp).1

theorem minCurr_pastOf (hb : Books cl i g)
    (j : I) : PastOf cl seq j (minCurr g) := by
  have hs := minCurr_le_seq hc hp
  by_cases hj : j = i
  · subst hj
    by_cases hbu : g.busy
    · have hw := busy_writer hc hb hbu
      obtain ⟨t,ht⟩ := hp.entries j hw
      have ho : ourCurrentPosition g = t := by rw [ourCurrentPosition,hp.name,ht]; rfl
      have ht1 := hp.nonzero hw t ht
      have hle : minCurr g ≤ ourCurrentPosition g := by
        rw [minCurr,if_pos ⟨by omega,hbu⟩]
        exact min_le_right _ _
      exact pastOf_mono (our_pastOf hc hp) hle
    · exact idle_pastOf hb hbu hs
  · by_cases hw : j ∈ ws
    · obtain ⟨t,ht⟩ := hp.entries j hw
      have hle := minOfOthers_le (hp.name ▸ hj) ht
      exact pastOf_mono (hp.current j t ht) ((minCurr_le g).trans hle)
    · exact foreign_pastOf hc hw hs

/-- Recording a persisted position keeps every promise, whether the bound
moves because of the other instances' positions, because nothing is in
flight here, or through a run of known positions without a gap. -/
theorem addPersistedPosition_positions
    (hb : Books cl i g) {newId : ℤ} (hn : Clear cl seq newId) :
    Positions cl seq ws i (addPersistedPosition g newId) := by
  have hu : ∀ j, PastOf cl seq j (max (minCurr g) g.persistedUptoPosition) :=
    fun j => pastOf_max (minCurr_pastOf hc hp hb j) (hp.persisted j)
  have hk : ∀ y ∈ g.knownPersistedPositions.orderedInsert (· ≤ ·) newId,Clear cl seq y := by
    intro y hy
    rcases (mem_orderedInsert _).mp hy with rfl | hy
    · exact hn
    · exact hp.known y hy
  obtain ⟨hw,hl⟩ := absorb_pastOf _ _ hu hk
  have hmax := pastOf_max hp.localMax (hu i)
  have hcl := clear_max hp.localClear (clear_of_pastOf i hu)
  refine ⟨hp.name,hw,hp.current,hp.own,?_,?_,hl,hp.finished,hp.seenLe,hp.seen,hp.entries,hp.nonzero⟩
  · simp only [addPersistedPosition]
    split
    · exact hmax
    · next hi => exact pastOf_max (idle_pastOf hb hi hp.seenLe) hmax
  · simp only [addPersistedPosition]
    split
    · exact hcl
    · next hi =>
      apply clear_max _ hcl
      refine ⟨hp.seenLe,?_⟩
      intro c hm hx
      by_cases ho : c.owner = i
      · exact lt_irrefl _ ((idle_pastOf hb hi hp.seenLe).2 c hm ho _ hx)
      · exact hp.seen c hm ho hx

theorem addPersistedPositions (ids : List ℤ)
    (hb : Books cl i g) (hn : ∀ x ∈ ids, Clear cl seq x) :
    Positions cl seq ws i (ids.foldl addPersistedPosition g) ∧
      Books cl i (ids.foldl addPersistedPosition g) := by
  induction ids generalizing g with
  | nil => exact ⟨hp,hb⟩
  | cons x ids ih =>
    exact ih (addPersistedPosition_positions hc hp hb (hn x (by simp)))
      ⟨hb.unfinished,hb.inFlight⟩ (fun y hy => hn y (by simp [hy]))

theorem noteWriterPosition_positions
    (hj : j ≠ i) {newId : ℤ} (hpa : PastOf cl seq j newId) (hcl : Clear cl seq newId) :
    Positions cl seq ws i (noteWriterPosition g j newId) := by
  refine ⟨hp.name,hp.persisted,?_,?_,hp.localMax,hp.localClear,hp.known,hp.finished,
    max_le hp.seenLe hpa.1,?_,?_,?_⟩
  · intro k t ht
    rcases set_cases ht with ⟨hk,rfl⟩ | ⟨-,ht⟩
    · rw [hk]
      exact pastOf_max hpa (entry_pastOf hc hp j)
    · exact hp.current k t ht
  · intro t ht
    simp only [noteWriterPosition,lookup_set,if_neg (Ne.symm hj)] at ht
    exact hp.own t ht
  · intro c hm ho hx
    rcases max_choice g.maxSeenAllocatedStreamId newId with h | h
    · exact hp.seen c hm ho (h ▸ hx)
    · exact hcl.2 c hm (h ▸ hx)
  · intro k hk
    simp only [noteWriterPosition,lookup_set]
    split
    · exact ⟨_,rfl⟩
    · exact hp.entries k hk
  · intro hw t ht
    simp only [noteWriterPosition,lookup_set,if_neg (Ne.symm hj)] at ht
    exact hp.nonzero hw t ht

theorem advance_positions (hb : Books cl i g)
    (hj : j ≠ i) {tk : ℤ} (hpa : PastOf cl seq j (returnFactor g.positive*tk))
    (hcl : Clear cl seq (returnFactor g.positive*tk)) :
    Positions cl seq ws i (advance g j tk) ∧ Books cl i (advance g j tk) := by
  have hb' : Books cl i (noteWriterPosition g j (returnFactor g.positive*tk)) :=
    ⟨hb.unfinished,hb.inFlight⟩
  exact ⟨addPersistedPosition_positions hc (noteWriterPosition_positions hc hp hj hpa hcl) hb' hcl,
    ⟨hb.unfinished,hb.inFlight⟩⟩

theorem settleFinished_keeps
    (hb : Books cl i g) (hw : i ∈ ws) (h : settleFinished g = some g') :
    Positions cl seq ws i g' ∧ Books cl i g' := by
  unfold settleFinished at h
  split at h
  · next bd hbo =>
    cases h
    refine ⟨raisePosition_positions (keepFinished_positions hp fun y hy => mem_of_mem_filter hy)
      hw ?_,raisePosition_books (keepFinished_books hb _) _⟩
    intro v hv
    obtain ⟨hm,hlt⟩ := mem_filter.mp (max?_eq_some_iff.mp hv).1
    have hlt : v < bd := by simpa using hlt
    have hcl := hp.finished v hm
    refine ⟨⟨hcl.1,?_⟩,hcl⟩
    intro c hcm ho x hx
    exact lt_of_lt_of_le hlt (minUnfinished_le hc hb hbo c hcm ho x hx)
  · next hn =>
    obtain ⟨v,hv,rfl⟩ := map_eq_some_iff.mp h
    refine ⟨raisePosition_positions (keepFinished_positions hp (by simp)) hw ?_,
      raisePosition_books (keepFinished_books hb _) _⟩
    intro u hu
    obtain rfl : v = u := some.inj hu
    have hcl := hp.finished v (max?_eq_some_iff.mp hv).1
    exact ⟨idle_pastOf hb (minUnfinished_none hn) hcl.1,hcl⟩

theorem markIdsAsFinished_keeps
    (hb : Books cl i (noteFinished g ids)) (hw : i ∈ ws) (hi : ∀ x ∈ ids, Clear cl seq x) :
    Positions cl seq ws i ((markIdsAsFinished g ids).getD g) ∧
      Books cl i ((markIdsAsFinished g ids).getD g) := by
  unfold markIdsAsFinished
  cases h : settleFinished (noteFinished g ids) with
  | none =>
    obtain rfl := settleFinished_none h
    refine ⟨hp,?_,hb.inFlight⟩
    simpa [noteFinished] using hb.unfinished
  | some g' =>
    obtain ⟨hp',hb'⟩ := settleFinished_keeps hc (noteFinished_positions hp hi) hb hw h
    exact addPersistedPositions hc hp' ids hb' hi

end Generator

end Synapse.MultiWriterStream
