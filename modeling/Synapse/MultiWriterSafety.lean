import Synapse.MultiWriterLoading

/-!
# No position passes an outstanding ID

Each step keeps the invariant; the positions an instance reports are then
below every ID that is unfinished or can still be handed out.
-/

set_option autoImplicit false

namespace Synapse.MultiWriterStream
open MultiWriterIdGenerator List

variable {I : Type*} [DecidableEq I] {writers : List I}

variable {c : Call I} {seq : ℤ} {pre post cl : List (Call I)} {g : Generator I} {j : I}

omit [DecidableEq I] in
theorem callIn_some {s : System I} {n : ℕ} {ph : Phase} (h : s.callIn n ph = some c) :
    c.phase = ph ∧ ∃ pre post, s.calls = pre ++ c::post ∧
      (∀ c', s.calls.set n c' = pre ++ c'::post) ∧ s.calls.eraseIdx n = pre ++ post := by
  obtain ⟨hn,hph⟩ := Option.filter_eq_some_iff.mp h
  obtain ⟨hlt,rfl⟩ := List.getElem?_eq_some_iff.mp hn
  refine ⟨by simpa using hph,s.calls.take n,s.calls.drop (n+1),?_,?_,?_⟩
  · rw [← drop_eq_getElem_cons hlt,take_append_drop]
  · intro c'
    rw [set_eq_take_append_cons_drop,if_pos hlt]
  · exact eraseIdx_eq_take_drop_succ ..

omit [DecidableEq I] in
theorem same_call (hc : Calls cl seq writers) {d : Call I} (hm : c ∈ cl) (hd : d ∈ cl) {x : ℤ}
    (hx : x ∈ c.ids) (hy : x ∈ d.ids) : c = d := by
  by_contra hne
  have hs : Std.Symm (fun a b : Call I => a.ids.Disjoint b.ids) := ⟨fun a b h => h.symm⟩
  exact hc.disjoint.forall hm hd hne hx hy

theorem Books.congr {cs' : List (Call I)} (hb : Books cl j g)
    (h : cs'.filter (fun c => c.owner = j) = cl.filter (fun c => c.owner = j)) : Books cs' j g := by
  have hm : ∀ c, c.owner = j → (c ∈ cs' ↔ c ∈ cl) := by
    intro c ho
    have := congrArg (fun l => c ∈ l) h
    simpa [ho] using this
  constructor
  · intro x
    rw [hb.unfinished]
    constructor
    · rintro ⟨c,hc,ho,hr⟩
      exact ⟨c,(hm c ho).mpr hc,ho,hr⟩
    · rintro ⟨c,hc,ho,hr⟩
      exact ⟨c,(hm c ho).mp hc,ho,hr⟩
  · have hf : ∀ l : List (Call I), l.filter (fun c => c.owner = j ∧ c.phase ≠ .allocated) =
        (l.filter (fun c => c.owner = j)).filter (fun c => c.phase ≠ .allocated) := by
      simp [Bool.and_comm]
    rw [hf,h,← hf]
    exact hb.inFlight

theorem replaced_filter {c' : Call I} (ho : c'.owner = c.owner) (hj : c.owner ≠ j) :
    (pre ++ c'::post).filter (fun c => c.owner = j) =
      (pre ++ c::post).filter (fun c => c.owner = j) := by
  simp [ho,hj]

omit [DecidableEq I] in
theorem forall_replaced {c' : Call I} {p : Call I → Prop} (h : ∀ d ∈ pre ++ c::post, p d)
    (hc : p c') : ∀ d ∈ pre ++ c'::post, p d := by
  intro d hd
  simp only [mem_append,mem_cons] at hd
  rcases hd with hd | rfl | hd
  · exact h d (by simp [hd])
  · exact hc
  · exact h d (by simp [hd])

omit [DecidableEq I] in
theorem phase_extends (pre post : List (Call I)) (c : Call I) (seq : ℤ) (ph : Phase) :
    Extends (pre ++ c::post) (pre ++ { c with phase := ph }::post) seq seq := by
  refine ⟨le_refl _,forall_replaced (c := c) ?_ ?_⟩
  · intro d hd x hx
    exact .inl ⟨d,hd,rfl,hx⟩
  · intro x hx
    exact .inl ⟨c,by simp,rfl,hx⟩

omit [DecidableEq I] in
theorem phase_calls {ph : Phase} (hc : Calls (pre ++ c::post) seq writers)
    (hph : ph ≠ .allocated → c.phase ≠ .allocated) :
    Calls (pre ++ { c with phase := ph }::post) seq writers := by
  have hcm : c ∈ pre ++ c::post := by simp
  refine ⟨hc.nonneg,forall_replaced hc.owners (hc.owners c hcm),
    forall_replaced hc.drawn (hc.drawn c hcm),forall_replaced hc.above ?_,?_⟩
  · intro hp
    exact hc.above c hcm (hph hp)
  · simpa [pairwise_append] using hc.disjoint

omit [DecidableEq I] in
theorem drawn_extends (pre post : List (Call I)) (c : Call I) {id : ℤ} (hid : seq < id) :
    Extends (pre ++ c::post) (pre ++ { c with ids := c.ids ++ [id] }::post) seq id := by
  refine ⟨le_of_lt hid,forall_replaced (c := c) ?_ ?_⟩
  · intro d hd x hx
    exact .inl ⟨d,hd,rfl,hx⟩
  · intro x hx
    rcases mem_append.mp hx with hx | hx
    · exact .inl ⟨c,by simp,rfl,hx⟩
    · exact .inr (mem_singleton.mp hx ▸ hid)

omit [DecidableEq I] in
theorem drawn_calls {id : ℤ} (hid : seq < id) (hc : Calls (pre ++ c::post) seq writers) :
    Calls (pre ++ { c with ids := c.ids ++ [id] }::post) id writers := by
  have hcm : c ∈ pre ++ c::post := by simp
  have hn : ∀ d ∈ pre ++ c::post, id ∉ d.ids := by
    intro d hd hx
    have := hc.drawn d hd id hx
    omega
  refine ⟨hc.nonneg.trans (le_of_lt hid),forall_replaced hc.owners (hc.owners c hcm),
    forall_replaced (c := c) ?_ ?_,forall_replaced (c := c) ?_ ?_,?_⟩
  · intro d hd x hx
    exact (hc.drawn d hd x hx).trans (le_of_lt hid)
  · intro x hx
    rcases mem_append.mp hx with hx | hx
    · exact (hc.drawn c hcm x hx).trans (le_of_lt hid)
    · exact le_of_eq (mem_singleton.mp hx)
  · intro d hd hp
    obtain ⟨h1,h2⟩ := hc.above d hd hp
    exact ⟨h1.trans (le_of_lt hid),h2⟩
  · intro hp
    obtain ⟨h1,h2⟩ := hc.above c hcm hp
    exact ⟨h1.trans (le_of_lt hid),
      forall_mem_append.mpr ⟨h2,forall_mem_singleton.mpr (lt_of_le_of_lt h1 hid)⟩⟩
  · have hdis := hc.disjoint
    simp only [pairwise_append,pairwise_cons,mem_cons] at hdis ⊢
    obtain ⟨h1,⟨h2,h3⟩,h4⟩ := hdis
    refine ⟨h1,⟨?_,h3⟩,?_⟩
    · intro d hd
      exact disjoint_append_left.mpr ⟨h2 d hd,by simpa using hn d (by simp [hd])⟩
    · rintro d hd e (rfl | he')
      · exact disjoint_append_right.mpr
          ⟨h4 d hd c (.inl rfl),by simpa using hn d (by simp [hd])⟩
      · exact h4 d hd e (.inr he')

omit [DecidableEq I] in
theorem removed_extends (pre post : List (Call I)) (c : Call I) (seq : ℤ) :
    Extends (pre ++ c::post) (pre ++ post) seq seq := by
  refine ⟨le_refl _,?_⟩
  intro d hd x hx
  refine .inl ⟨d,?_,rfl,hx⟩
  simp only [mem_append] at hd ⊢
  tauto

omit [DecidableEq I] in
theorem removed_calls (hc : Calls (pre ++ c::post) seq writers) :
    Calls (pre ++ post) seq writers := by
  have hs : (pre ++ post).Sublist (pre ++ c::post) :=
    List.Sublist.append_left (sublist_cons_self c post) pre
  exact ⟨hc.nonneg,fun d hd => hc.owners d (hs.subset hd),fun d hd => hc.drawn d (hs.subset hd),
    fun d hd => hc.above d (hs.subset hd),hc.disjoint.sublist hs⟩

theorem endFetch_positions {i : I} (hp : Positions cl seq writers i g) (currentMax : ℤ) :
    Positions cl seq writers i (endFetch g currentMax) := { hp with }

theorem local_invariant {pv : Bool} {s s' : System I} (hi : Invariant writers pv s) (i : I)
    (he : Extends s.calls s'.calls s.sequence s'.sequence) (hc : Calls s'.calls s'.sequence writers)
    (hg : ∀ j, j ≠ i → s'.generators j = s.generators j)
    (ho : ∀ j, j ≠ i → s'.calls.filter (fun c => c.owner = j) =
      s.calls.filter (fun c => c.owner = j)) (hgi : s'.generators i = g)
    (hp : Positions s'.calls s'.sequence writers i g) (hb : Books s'.calls i g)
    (hw : g.writers = (s.generators i).writers) (hs : g.positive = (s.generators i).positive)
    (ha : s'.announced = s.announced) : Invariant writers pv s' := by
  subst hgi
  refine ⟨hc,?_,?_,?_,?_,?_⟩
  · intro j
    by_cases hj : j = i
    · exact hj ▸ hp
    · rw [hg j hj]
      exact he.positions (hi.positions j)
  · intro j
    by_cases hj : j = i
    · exact hj ▸ hb
    · rw [hg j hj]
      exact (hi.books j).congr (ho j hj)
  · intro j
    by_cases hj : j = i
    · exact hj ▸ hw.trans (hi.sameWriters i)
    · rw [hg j hj]
      exact hi.sameWriters j
  · intro j
    by_cases hj : j = i
    · exact hj ▸ hs.trans (hi.samePositive i)
    · rw [hg j hj]
      exact hi.samePositive j
  · intro m hm
    obtain ⟨h1,h2⟩ := hi.announced m (ha ▸ hm)
    exact ⟨he.pastOf h1,he.clear h2⟩

variable {positive : Bool} {s s' : System I}

section

variable (hi : Invariant writers positive s)
include hi

theorem onGenerator_invariant {i : I} (he : Extends s.calls cl s.sequence s.sequence)
    (hc : Calls cl s.sequence writers)
    (ho : ∀ j, j ≠ i → cl.filter (fun c => c.owner = j) = s.calls.filter (fun c => c.owner = j))
    (hp : Positions cl s.sequence writers i g) (hb : Books cl i g)
    (hw : g.writers = (s.generators i).writers) (hs : g.positive = (s.generators i).positive) :
    Invariant writers positive (s.onGenerator i g cl) := by
  refine local_invariant hi i he hc ?_ ho ?_ hp hb hw hs rfl
  · intro j hj
    simp [System.onGenerator,hj]
  · simp [System.onGenerator]

theorem phase_invariant {ph : Phase} (hca : s.calls = pre ++ c::post)
    (hph : ph ≠ .allocated → c.phase ≠ .allocated)
    (hp : Positions s.calls s.sequence writers c.owner g)
    (hb : Books (pre ++ { c with phase := ph }::post) c.owner g)
    (hw : g.writers = (s.generators c.owner).writers)
    (hs : g.positive = (s.generators c.owner).positive) :
    Invariant writers positive (s.onGenerator c.owner g (pre ++ { c with phase := ph }::post)) := by
  have he := phase_extends pre post c s.sequence ph
  rw [← hca] at he
  refine onGenerator_invariant hi he (phase_calls (hca ▸ hi.calls) hph) ?_ (he.positions hp)
    hb hw hs
  intro j hj
  rw [hca]
  exact replaced_filter rfl (Ne.symm hj)

theorem removed_invariant (hca : s.calls = pre ++ c::post)
    (hp : Positions (pre ++ post) s.sequence writers c.owner g) (hb : Books (pre ++ post) c.owner g)
    (hw : g.writers = (s.generators c.owner).writers)
    (hs : g.positive = (s.generators c.owner).positive) :
    Invariant writers positive (s.onGenerator c.owner g (pre ++ post)) := by
  have he := removed_extends pre post c s.sequence
  rw [← hca] at he
  refine onGenerator_invariant hi he (removed_calls (hca ▸ hi.calls)) ?_ hp hb hw hs
  intro j hj
  rw [hca]
  simp [Ne.symm hj]

theorem startFetch_invariant (hne : writers ≠ []) (i : I)
    (h : step s (.startFetch i) = some s') : Invariant writers positive s' := by
  simp only [step] at h
  split at h
  · simp at h
  · next hw =>
    cases h
    have hiw : i ∈ writers := by
      by_contra hni
      exact hw ⟨by rw [hi.sameWriters]; exact hne,by rw [hi.sameWriters]; exact hni⟩
    have hp := hi.positions i
    have hc := hi.calls
    have he : Extends s.calls
        (s.calls ++ [⟨i,(s.generators i).maxSeenAllocatedStreamId,[],.drawing⟩])
        s.sequence s.sequence := by
      refine ⟨le_refl _,?_⟩
      intro c hc x hx
      rcases mem_append.mp hc with hc | hc
      · exact .inl ⟨c,hc,rfl,hx⟩
      · obtain rfl := mem_singleton.mp hc
        simp at hx
    apply onGenerator_invariant hi he
    · refine ⟨hc.nonneg,?_,?_,?_,?_⟩
      · exact forall_mem_append.mpr ⟨hc.owners,by simpa using hiw⟩
      · exact forall_mem_append.mpr ⟨hc.drawn,by simp⟩
      · exact forall_mem_append.mpr ⟨hc.above,by simpa using hp.seenLe⟩
      · exact pairwise_append.mpr ⟨hc.disjoint,by simp,by simp⟩
    · intro j hj
      simp [Ne.symm hj]
    · exact he.positions { hp with }
    · have hb := hi.books i
      constructor
      · simp only [startFetch,hb.unfinished]
        simp
      · refine (List.Perm.cons _ hb.inFlight).trans ?_
        simpa using (perm_append_singleton _ _).symm
    · rfl
    · rfl

theorem draw_invariant (n : ℕ) (id : ℤ)
    (h : step s (.draw n id) = some s') : Invariant writers positive s' := by
  simp only [step] at h
  split at h
  · next hid =>
    obtain ⟨c,hca,rfl⟩ := Option.map_eq_some_iff.mp h
    obtain ⟨hph,pre,post,hc,hs,-⟩ := callIn_some hca
    rw [hs]
    have he := drawn_extends pre post c hid
    have hb := hi.books c.owner
    rw [← hc] at he
    apply local_invariant hi c.owner he (drawn_calls hid (hc ▸ hi.calls))
    · intro j _
      rfl
    · intro j hj
      rw [hc]
      exact replaced_filter rfl (Ne.symm hj)
    · rfl
    · exact he.positions (hi.positions c.owner)
    · constructor
      · intro x
        rw [hb.unfinished,hc]
        simp only [mem_append,mem_cons,or_and_right,exists_or,exists_eq_left,hph]
        simp
      · refine hb.inFlight.trans (List.Perm.of_eq ?_)
        simp [hc,hph]
    · rfl
    · rfl
    · rfl
  · simp at h

theorem register_invariant (n : ℕ)
    (h : step s (.register n) = some s') : Invariant writers positive s' := by
  obtain ⟨c,hcl,h⟩ := Option.bind_eq_some_iff.mp h
  obtain ⟨g,hg,rfl⟩ := Option.map_eq_some_iff.mp h
  obtain ⟨hph,pre,post,hca,hs,-⟩ := callIn_some hcl
  rw [hs]
  have hcm : c ∈ s.calls := by simp [hca]
  have hb := hi.books c.owner
  have hown : ∀ x ∈ (s.generators c.owner).unfinishedIds ∪ c.ids,
      x ≤ s.sequence ∧ ∀ d ∈ s.calls, d.owner ≠ c.owner → x ∉ d.ids := by
    intro x hx
    have hx : ∃ d ∈ s.calls, d.owner = c.owner ∧ x ∈ d.ids := by
      rcases mem_union_iff.mp hx with hx | hx
      · obtain ⟨d,hd,ho,-,hx⟩ := (hb.unfinished x).mp hx
        exact ⟨d,hd,ho,hx⟩
      · exact ⟨c,hcm,rfl,hx⟩
    obtain ⟨d,hd,ho,hx⟩ := hx
    refine ⟨hi.calls.drawn d hd x hx,?_⟩
    intro e he hne hxe
    exact hne (same_call hi.calls hd he hx hxe ▸ ho)
  have hp := registerIds_positions (hi.positions c.owner) hg hown
  obtain ⟨gt,-,rfl⟩ := registerIds_spec hg
  refine phase_invariant hi hca (by simp [hph]) hp ⟨?_,?_⟩ rfl rfl
  · intro x
    simp only [mem_union_iff,hb.unfinished,hca]
    simp only [mem_append,mem_cons,or_and_right,exists_or,exists_eq_left,hph]
    simp only [ne_eq,not_true_eq_false,false_and,false_or,reduceCtorEq,not_false_eq_true,true_and]
    rw [or_assoc]
    exact or_congr Iff.rfl or_comm
  · refine hb.inFlight.trans (List.Perm.of_eq ?_)
    simp [hca,hph]

end

theorem erase_inFlight (hb : Books (pre ++ c::post) c.owner g) (hph : c.phase ≠ .allocated) :
    (g.inFlightFetches.erase c.currentMax).Perm
      (((pre ++ post).filter (fun d => d.owner = c.owner ∧ d.phase ≠ .allocated)).map
        Call.currentMax) := by
  have hp : g.inFlightFetches.Perm (c.currentMax::
      ((pre ++ post).filter (fun d => d.owner = c.owner ∧ d.phase ≠ .allocated)).map
        Call.currentMax) := by
    refine hb.inFlight.trans ?_
    simp [hph]
  simpa using hp.erase c.currentMax

theorem release_invariant (hi : Invariant writers positive s) (n : ℕ)
    (h : step s (.release n) = some s') : Invariant writers positive s' := by
  obtain ⟨c,hcl,rfl⟩ := Option.map_eq_some_iff.mp h
  obtain ⟨hph,pre,post,hca,hs,-⟩ := callIn_some hcl
  rw [hs]
  have hb := hi.books c.owner
  refine phase_invariant hi hca (by simp) (endFetch_positions (hi.positions c.owner) _)
    ⟨?_,?_⟩ rfl rfl
  · simp only [endFetch,hb.unfinished,hca]
    simp only [mem_append,mem_cons,or_and_right,exists_or,exists_eq_left,hph]
    simp
  · rw [hca] at hb
    refine (erase_inFlight hb (by simp [hph])).trans (List.Perm.of_eq ?_)
    simp

theorem fail_invariant (hi : Invariant writers positive s) (n : ℕ)
    (h : step s (.fail n) = some s') : Invariant writers positive s' := by
  obtain ⟨c,hcl,rfl⟩ := Option.map_eq_some_iff.mp h
  obtain ⟨hph,pre,post,hca,-,her⟩ := callIn_some hcl
  rw [her]
  have hb := hi.books c.owner
  have hp := hi.positions c.owner
  rw [hca] at hb hp
  refine removed_invariant hi hca
    ((removed_extends pre post c s.sequence).positions (endFetch_positions hp _)) ⟨?_,?_⟩ rfl rfl
  · simp only [endFetch,hb.unfinished]
    simp only [mem_append,mem_cons,or_and_right,exists_or,exists_eq_left,hph]
    simp
  · exact erase_inFlight hb (by simp [hph])

theorem foldl_config (ids : List ℤ) (g : Generator I) :
    (ids.foldl addPersistedPosition g).writers = g.writers ∧
      (ids.foldl addPersistedPosition g).positive = g.positive := by
  induction ids generalizing g with
  | nil => exact ⟨rfl,rfl⟩
  | cons x ids ih => exact ih (addPersistedPosition g x)

theorem raisePosition_config (g : Generator I) (newCur : Option ℤ) :
    (raisePosition g newCur).writers = g.writers ∧
      (raisePosition g newCur).positive = g.positive := by
  cases newCur with
  | none => exact ⟨rfl,rfl⟩
  | some v =>
    simp only [raisePosition]
    split <;> exact ⟨rfl,rfl⟩

theorem settleFinished_config {g' : Generator I} (h : settleFinished g = some g') :
    g'.writers = g.writers ∧ g'.positive = g.positive := by
  unfold settleFinished at h
  split at h
  · cases h
    exact raisePosition_config _ _
  · obtain ⟨v,-,rfl⟩ := Option.map_eq_some_iff.mp h
    exact raisePosition_config _ _

theorem markIdsAsFinished_config (g : Generator I) (ids : List ℤ) :
    ((markIdsAsFinished g ids).getD g).writers = g.writers ∧
      ((markIdsAsFinished g ids).getD g).positive = g.positive := by
  unfold markIdsAsFinished
  cases h : settleFinished (noteFinished g ids) with
  | none => exact ⟨rfl,rfl⟩
  | some g' =>
    obtain ⟨h1,h2⟩ := settleFinished_config h
    obtain ⟨h3,h4⟩ := foldl_config ids g'
    exact ⟨h3.trans h1,h4.trans h2⟩

omit [DecidableEq I] in
theorem removed_clear (hc : Calls (pre ++ c::post) seq writers) :
    ∀ x ∈ c.ids, Clear (pre ++ post) seq x := by
  intro x hx
  refine ⟨hc.drawn c (by simp) x hx,?_⟩
  intro d hd hxd
  have hdis := hc.disjoint
  rw [pairwise_append,pairwise_cons] at hdis
  obtain ⟨-,⟨hp,-⟩,hpre⟩ := hdis
  rcases mem_append.mp hd with hd | hd
  · exact hpre d hd c (by simp) hxd hx
  · exact hp d hd hx hxd

theorem noteFinished_books (hc : Calls (pre ++ c::post) seq writers)
    (hb : Books (pre ++ c::post) c.owner g) (hph : c.phase = .allocated) :
    Books (pre ++ post) c.owner (noteFinished g c.ids) := by
  constructor
  · intro x
    simp only [noteFinished,mem_filter,hb.unfinished,decide_eq_true_eq]
    constructor
    · rintro ⟨⟨d,hd,ho,hp,hx⟩,hnx⟩
      refine ⟨d,?_,ho,hp,hx⟩
      simp only [mem_append,mem_cons] at hd ⊢
      rcases hd with hd | rfl | hd
      · exact .inl hd
      · exact absurd hx hnx
      · exact .inr hd
    · rintro ⟨d,hd,ho,hp,hx⟩
      refine ⟨⟨d,?_,ho,hp,hx⟩,fun hxc => (removed_clear hc x hxc).2 d hd hx⟩
      simp only [mem_append] at hd ⊢
      tauto
  · refine hb.inFlight.trans (List.Perm.of_eq ?_)
    simp [hph]

section

variable (hi : Invariant writers positive s)
include hi

theorem finish_invariant (n : ℕ)
    (h : step s (.finish n) = some s') : Invariant writers positive s' := by
  obtain ⟨c,hcl,rfl⟩ := Option.map_eq_some_iff.mp h
  obtain ⟨hph,pre,post,hca,-,her⟩ := callIn_some hcl
  rw [her]
  have ha : Calls (pre ++ c::post) s.sequence writers := hca ▸ hi.calls
  have hb : Books (pre ++ c::post) c.owner (s.generators c.owner) := hca ▸ hi.books c.owner
  have hp := hi.positions c.owner
  rw [hca] at hp
  obtain ⟨hp',hb'⟩ := markIdsAsFinished_keeps (removed_calls ha)
    ((removed_extends pre post c s.sequence).positions hp) (noteFinished_books ha hb hph)
    (ha.owners c (by simp)) (removed_clear ha)
  exact removed_invariant hi hca hp' hb' (markIdsAsFinished_config _ _).1
    (markIdsAsFinished_config _ _).2

theorem announce_invariant (i : I)
    (h : step s (.announce i) = some s') : Invariant writers positive s' := by
  cases h
  refine { hi with announced := ?_ }
  intro m hm
  rcases mem_cons.mp hm with rfl | hm
  · have hp := hi.positions i
    simp only [getCurrentTokenForWriter,hp.name,if_true,hi.samePositive,returnFactor_mul_self]
    exact ⟨hp.localMax,hp.localClear⟩
  · exact hi.announced m hm

theorem deliver_invariant (tg : I) (msg : I × ℤ)
    (h : step s (.deliver tg msg) = some s') : Invariant writers positive s' := by
  simp only [step] at h
  split at h
  · next hd =>
    cases h
    obtain ⟨hp,hcl⟩ := hi.announced msg hd.1
    rw [← hi.samePositive tg] at hp hcl
    obtain ⟨hp',hb'⟩ := advance_positions hi.calls (hi.positions tg) (hi.books tg) hd.2 hp hcl
    have he : Extends s.calls s.calls s.sequence s.sequence :=
      ⟨le_refl _,fun c hc x hx => .inl ⟨c,hc,rfl,hx⟩⟩
    exact onGenerator_invariant hi he hi.calls (fun _ _ => rfl) hp' hb' rfl rfl
  · simp at h

theorem step_invariant (hne : writers ≠ []) (action : Action I)
    (h : step s action = some s') : Invariant writers positive s' := by
  cases action with
  | startFetch i => exact startFetch_invariant hi hne i h
  | draw n id => exact draw_invariant hi n id h
  | register n => exact register_invariant hi n h
  | release n => exact release_invariant hi n h
  | fail n => exact fail_invariant hi n h
  | finish n => exact finish_invariant hi n h
  | announce i => exact announce_invariant hi i h
  | deliver tg msg => exact deliver_invariant hi tg msg h

end

theorem run_invariant (hne : writers ≠ []) (acts : List (Action I))
    (hi : Invariant writers positive s) (h : run s acts = some s') :
    Invariant writers positive s' := by
  induction acts generalizing s with
  | nil =>
    cases h
    exact hi
  | cons action acts ih =>
    obtain ⟨t,ht,h⟩ := Option.bind_eq_some_iff.mp h
    exact ih (step_invariant hi hne action ht) h

/-- Below a position that is past the IDs of a writer, nothing of that writer
is unfinished and nothing can still be handed to it. -/
theorem pastOf_safe (hi : Invariant writers positive s) {t : ℤ} (ht : PastOf s.calls s.sequence j t)
    {x : ℤ} (hx : x ≤ t) : ¬ Unfinished s j x ∧ ¬ MayReceive s j x := by
  constructor
  · rintro (h | ⟨c,hc,ho,-,hxc⟩)
    · obtain ⟨c,hc,ho,-,hxc⟩ := ((hi.books j).unfinished x).mp h
      have := ht.2 c hc ho x hxc
      omega
    · have := ht.2 c hc ho x hxc
      omega
  · rintro ⟨c,hc,ho,-,hxc | hlt⟩
    · have := ht.2 c hc ho x hxc
      omega
    · have := ht.1
      omega

theorem writerToken_pastOf (hi : Invariant writers positive s) (i w : I) :
    PastOf s.calls s.sequence w
      (returnFactor positive*getCurrentTokenForWriter (s.generators i) w) := by
  have hp := hi.positions i
  simp only [getCurrentTokenForWriter,hp.name,hi.samePositive]
  split
  · next h =>
    subst h
    rw [returnFactor_mul_self]
    exact hp.localMax
  · rw [returnFactor_mul_self]
    apply pastOf_max _ (hp.persisted w)
    cases hl : (s.generators i).currentPositions.lookup w with
    | none => exact hp.persisted w
    | some t => exact hp.current w t hl

theorem start_invariant {db : Database I} (h : Consistent positive db) (hne : writers ≠ []) :
    Invariant writers positive (start writers positive db) :=
  ⟨calls_nil h,fun i => (create_start h hne i).1,fun i => (create_start h hne i).2.1,
    fun i => (create_start h hne i).2.2.1,fun i => (create_start h hne i).2.2.2,by simp [start]⟩

/-- In every reachable state no ID at or below the current token of an
instance is unfinished or can still be handed out at any instance, and none of
a writer's IDs at or below the token an instance reports for it is. IDs are
compared as the generators keep them, positive in both kinds of stream. -/
theorem positions_safe (writers : List I) (positive : Bool) (db : Database I)
    (actions : List (Action I)) (s : System I) (hne : writers ≠ []) (h : Consistent positive db)
    (hr : run (start writers positive db) actions = some s) (i : I) (x : ℤ) :
    (x ≤ returnFactor positive*getCurrentToken (s.generators i) →
      ∀ j, ¬ Unfinished s j x ∧ ¬ MayReceive s j x) ∧
    ∀ w, x ≤ returnFactor positive*getCurrentTokenForWriter (s.generators i) w →
      ¬ Unfinished s w x ∧ ¬ MayReceive s w x := by
  have hi := run_invariant hne actions (start_invariant h hne) hr
  constructor
  · intro hx j
    rw [getCurrentToken,hi.samePositive,returnFactor_mul_self] at hx
    exact pastOf_safe hi ((hi.positions i).persisted j) hx
  · intro w hx
    exact pastOf_safe hi (writerToken_pastOf hi i w) hx

/-- The second writer finishes its ID while the first still holds a smaller
one, announces its position and has it delivered. -/
def outOfOrder : List (Action Bool) :=
  [.startFetch false,.draw 0 2,.startFetch true,.draw 1 3,.register 0,.release 0,.register 1,
    .release 1,.finish 1,.announce true,.deliver false (true,3)]

theorem positions_safe_outOfOrder : ∃ s : System Bool,
    run (start [false,true] true ⟨∅,[[(false,1)]],1⟩) outOfOrder = some s ∧
    2 ∈ (s.generators false).unfinishedIds ∧ getCurrentToken (s.generators false) = 1 ∧
    getCurrentTokenForWriter (s.generators false) true = 3 ∧
    (∀ j, ¬ Unfinished s j 1 ∧ ¬ MayReceive s j 1) ∧
    ¬ Unfinished s true 3 ∧ ¬ MayReceive s true 3 := by
  have hc : Consistent true (⟨∅,[[(false,1)]],1⟩ : Database Bool) :=
    ⟨by decide,by simp,by simp [returnFactor]⟩
  obtain ⟨s,hs⟩ := Option.isSome_iff_exists.mp (show
    (run (start [false,true] true ⟨∅,[[(false,1)]],1⟩) outOfOrder).isSome = true by decide)
  have hv : (run (start [false,true] true ⟨∅,[[(false,1)]],1⟩) outOfOrder).all (fun s =>
      2 ∈ (s.generators false).unfinishedIds ∧ getCurrentToken (s.generators false) = 1 ∧
      getCurrentTokenForWriter (s.generators false) true = 3) = true := by decide
  rw [hs] at hv
  obtain ⟨h2,htoken,hwriter⟩ := of_decide_eq_true hv
  have hsafe := positions_safe [false,true] true _ outOfOrder s (by decide) hc hs false
  refine ⟨s,hs,h2,htoken,hwriter,(hsafe 1).1 ?_,(hsafe 3).2 true ?_⟩
  · simp [returnFactor,htoken]
  · simp [returnFactor,hwriter]

end Synapse.MultiWriterStream
