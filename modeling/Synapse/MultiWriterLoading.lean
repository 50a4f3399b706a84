import Synapse.MultiWriterPositions

/-!
# Start-up positions

What the constructor reads from a consistent database lies at or below the
last value of the sequence, and each writer gets an entry. While rows are
loaded nothing is outstanding, so the lemmas on positions apply with no calls
and, the entries being incomplete, with no writers.
-/

set_option autoImplicit false

namespace Synapse.MultiWriterStream
open MultiWriterIdGenerator List Dict Option

variable {I : Type*} [DecidableEq I] {writers : List I} {positive : Bool} {db : Database I}

omit [DecidableEq I] in
theorem pastOf_nil {seq t : ℤ} {j : I} (h : t ≤ seq) : PastOf [] seq j t :=
  ⟨h,fun _ hc => absurd hc not_mem_nil⟩

omit [DecidableEq I] in
theorem clear_nil {seq t : ℤ} (h : t ≤ seq) : Clear ([] : List (Call I)) seq t :=
  ⟨h,fun _ hc => absurd hc not_mem_nil⟩

theorem calls_nil (h : Consistent positive db) :
    Calls ([] : List (Call I)) db.lastValue writers := by
  have := h.lastValue
  exact ⟨by omega,by simp,by simp,by simp,by simp⟩

theorem foldl_insert_le (es : List (Sigma fun _ : I => ℤ)) (f : ℤ → ℤ) (bd : ℤ) (d : Dict I ℤ)
    (hd : ∀ j t, d.lookup j = some t → t ≤ bd) (he : ∀ e ∈ es, f e.2 ≤ bd) (j : I) (t : ℤ)
    (h : (es.foldl (fun d e => d.insert e.1 (f e.2)) d).lookup j = some t) : t ≤ bd := by
  induction es generalizing d with
  | nil => exact hd j t h
  | cons e es ih =>
    refine ih (d.insert e.1 (f e.2)) ?_ (fun e' h' => he e' (by simp [h'])) h
    intro k u hu
    rcases set_cases hu with ⟨-,rfl⟩ | ⟨-,hu⟩
    · exact he e (by simp)
    · exact hd k u hu

theorem storedPositions_le (h : Consistent positive db) (j : I) (t : ℤ)
    (hl : (storedPositions writers positive db).lookup j = some t) : t ≤ db.lastValue := by
  refine foldl_insert_le _ (fun x => x*returnFactor positive) _ ∅ (by simp) ?_ j t hl
  intro e he
  have hlo := AList.mem_lookup_iff.mpr (mem_of_mem_filter he)
  rw [mul_comm]
  exact h.positions e.1 e.2 hlo

theorem loadedPositions_le (g : Generator I) (h : Consistent g.positive db) (j : I) (t : ℤ)
    (hl : (loadedPositions g db).lookup j = some t) : t ≤ db.lastValue := by
  have hs : ∀ k u, (if g.writers = [] then ∅
      else storedPositions g.writers g.positive db).lookup k = some u → u ≤ db.lastValue := by
    intro k u hu
    split at hu
    · simp at hu
    · exact storedPositions_le h k u hu
  unfold loadedPositions at hl
  by_cases hi : g.instanceName ∈ g.writers
  · rw [if_pos hi,lookup_set] at hl
    split at hl
    · exact le_of_eq (some.inj hl).symm
    · exact hs j t hl
  · rw [if_neg hi] at hl
    exact hs j t hl

theorem greatestStored_le (h : Consistent positive db) {tl : List (I × ℤ)} (ht : tl ∈ db.tables) :
    greatestStored positive tl ≤ db.lastValue := by
  refine max_le ?_ h.lastValue
  cases hm : (tl.map (fun row => returnFactor positive*row.2)).max? with
  | none => exact h.lastValue
  | some m =>
    obtain ⟨row,hr,rfl⟩ := mem_map.mp (max?_eq_some_iff.mp hm).1
    exact (h.rows tl ht row hr).2

theorem foldl_max_le (l : List ℤ) (a b : ℤ) (ha : a ≤ b) (hl : ∀ x ∈ l, x ≤ b) :
    l.foldl max a ≤ b := by
  induction l generalizing a with
  | nil => exact ha
  | cons x l ih => exact ih (max a x) (max_le ha (hl x (by simp))) fun y hy => hl y (by simp [hy])

omit [DecidableEq I] in
theorem rowsFrom_mem {minStreamId : ℤ} {row : I × ℤ} (hr : row ∈ rowsFrom positive db minStreamId) :
    ∃ tl ∈ db.tables, row ∈ tl := by
  rw [rowsFrom,mem_insertionSort,mem_flatMap] at hr
  obtain ⟨tl,ht,hrow⟩ := hr
  exact ⟨tl,ht,mem_of_mem_filter hrow⟩

structure Loading (writers : List I) (positive : Bool) (seq : ℤ) (i : I) (g : Generator I) :
    Prop where
  positions : Positions [] seq [] i g
  books : Books [] i g
  own : i ∈ writers → ∃ t, g.currentPositions.lookup i = some t ∧ 1 ≤ t
  writersKept : g.writers = writers
  positiveKept : g.positive = positive

theorem loadRow_loading {seq : ℤ} (hs : 0 ≤ seq) {i : I} {g : Generator I} {row : I × ℤ}
    (hg : Loading writers positive seq i g) (hlow : 1 ≤ returnFactor positive*row.2)
    (hh : returnFactor positive*row.2 ≤ seq) : Loading writers positive seq i (loadRow g row) := by
  have hc : Calls ([] : List (Call I)) seq [] := ⟨hs,by simp,by simp,by simp,by simp⟩
  have hp := addPersistedPosition_positions hc hg.positions hg.books (clear_nil hh)
  simp only [loadRow,hg.positiveKept]
  split
  · next hr =>
    have hr : row.1 = i := hr.trans hg.positions.name
    have hl : ∀ j t, (g.currentPositions.insert row.1 (returnFactor positive*row.2)).lookup j
        = some t → t ≤ seq := by
      intro j t ht
      rcases set_cases ht with ⟨-,rfl⟩ | ⟨-,ht⟩
      · exact hh
      · exact (hg.positions.current j t ht).1
    refine ⟨?_,⟨hg.books.unfinished,hg.books.inFlight⟩,?_,hg.writersKept,hg.positiveKept⟩
    · exact ⟨hp.name,hp.persisted,fun j t ht => pastOf_nil (hl j t ht),
        fun t ht => clear_nil (hl i t ht),hp.localMax,hp.localClear,hp.known,hp.finished,
        hp.seenLe,hp.seen,by simp,by simp⟩
    · intro _
      exact ⟨returnFactor positive*row.2,by simp [hr],hlow⟩
  · exact ⟨hp,⟨hg.books.unfinished,hg.books.inFlight⟩,hg.own,hg.writersKept,hg.positiveKept⟩

section

variable (h : Consistent positive db)
include h

theorem loadRows_loading {i : I} (rw : List (I × ℤ)) (hro : ∀ row ∈ rw, ∃ tl ∈ db.tables, row ∈ tl)
    {g : Generator I} (hg : Loading writers positive db.lastValue i g) :
    Loading writers positive db.lastValue i (rw.foldl loadRow g) := by
  induction rw generalizing g with
  | nil => exact hg
  | cons row rw ih =>
    obtain ⟨tl,ht,hrow⟩ := hro row (by simp)
    obtain ⟨hl,hh⟩ := h.rows tl ht row hrow
    have hs : 0 ≤ db.lastValue := by omega
    exact ih (fun r hr => hro r (by simp [hr])) (loadRow_loading hs hg hl hh)

theorem startAt_loading (i : I) {up : ℤ} (hu : up ≤ db.lastValue) :
    Loading writers positive db.lastValue i
      (startAt (blank i writers positive) (loadedPositions (blank i writers positive) db) up) := by
  have hle := loadedPositions_le (blank i writers positive) h
  refine ⟨?_,⟨by simp [startAt,blank],by simp [startAt,blank]⟩,?_,rfl,rfl⟩
  · exact ⟨rfl,fun j => pastOf_nil hu,fun j t ht => pastOf_nil (hle j t ht),
      fun t ht => clear_nil (hle i t ht),pastOf_nil h.lastValue,clear_nil h.lastValue,
      by simp [startAt,blank],by simp [startAt,blank],h.lastValue,by simp,by simp,by simp⟩
  · intro hi
    exact ⟨db.lastValue,by simp [startAt,loadedPositions,blank,hi],h.lastValue⟩

theorem loadPersisted_loading (i : I) :
    Loading writers positive db.lastValue i (loadPersisted (blank i writers positive) db
      (loadedPositions (blank i writers positive) db)) := by
  unfold loadPersisted
  cases hm : (values (loadedPositions (blank i writers positive) db)).min? with
  | none =>
    apply startAt_loading h i
    apply foldl_max_le _ _ _ h.lastValue
    intro x hx
    obtain ⟨tl,ht,rfl⟩ := mem_map.mp hx
    exact greatestStored_le h ht
  | some m =>
    have hle : m ≤ db.lastValue := by
      obtain ⟨j,hj⟩ := (mem_values _ _).mp (min?_eq_some_iff.mp hm).1
      exact loadedPositions_le _ h j m hj
    exact loadRows_loading h _ (fun row hr => rowsFrom_mem hr) (startAt_loading h i hle)

theorem create_start (hne : writers ≠ []) (i : I) :
    Positions [] db.lastValue writers i (create i writers positive db) ∧
      Books [] i (create i writers positive db) ∧ (create i writers positive db).writers = writers ∧
      (create i writers positive db).positive = positive := by
  have hg : Loading writers positive db.lastValue i _ := loadPersisted_loading h i
  have hw : (blank i writers positive).writers = writers := rfl
  simp only [create,loadCurrentIds,if_neg hne,hw]
  generalize loadPersisted _ db _ = g at hg ⊢
  have hp := hg.positions
  have hlo : ∀ j t, (g.currentPositions.setDefaults writers g.persistedUptoPosition).lookup j
      = some t → t ≤ db.lastValue := by
    intro j t ht
    rw [lookup_setDefaults] at ht
    split at ht
    · cases ht
      cases hl : g.currentPositions.lookup j with
      | none => exact (hp.persisted j).1
      | some u => exact (hp.current j u hl).1
    · exact (hp.current j t ht).1
  have hs : max (((values (g.currentPositions.setDefaults writers
      g.persistedUptoPosition)).max?).getD 1) g.persistedUptoPosition ≤ db.lastValue := by
    refine max_le ?_ (hp.persisted i).1
    cases hm : (values (g.currentPositions.setDefaults writers g.persistedUptoPosition)).max? with
    | none => exact h.lastValue
    | some m =>
      obtain ⟨j,hj⟩ := (mem_values _ _).mp (max?_eq_some_iff.mp hm).1
      exact hlo j m hj
  refine ⟨?_,⟨hg.books.unfinished,hg.books.inFlight⟩,hg.writersKept,hg.positiveKept⟩
  refine ⟨hp.name,hp.persisted,fun j t ht => pastOf_nil (hlo j t ht),
    fun t ht => clear_nil (hlo i t ht),pastOf_nil hs,clear_nil hs,hp.known,hp.finished,
    hs,by simp,?_,?_⟩
  · intro j hj
    exact ⟨_,by rw [lookup_setDefaults,if_pos hj]⟩
  · intro hi t ht
    obtain ⟨u,hu,hlow⟩ := hg.own hi
    simp only [lookup_setDefaults,if_pos hi,hu,some.injEq] at ht
    exact ht ▸ hlow

end

end Synapse.MultiWriterStream
