import Synapse.ForwardExtremities

/-!
# Backward extremities

The backward extremities are meant to be the prev events of stored events that
have not been fetched themselves. The table is updated for new events and for
outliers that cease to be ones, but not for rejected events, and not when no
event of the update has prev events.
-/

set_option autoImplicit false

namespace Synapse.EventPersistence
open Python Loops List Dict Option AList Finset
open Bool (and_eq_true not_eq_true not_eq_true')

def EventRow.isLinked (row : EventRow) : Bool := !row.outlier && !row.rejected

/-- A prev event of a stored event that is neither an outlier nor rejected. -/
def Wanted (tables : Tables) (p : String) : Prop :=
  ∃ x row, tables.events.lookup x = some row ∧ row.isLinked ∧ p ∈ row.event.prevEventIds

def BackwardExact (tables : Tables) : Prop :=
  ∀ p, p ∈ tables.backwardExtremities ↔ Wanted tables p ∧ isFetched tables p = false

/-- The tables after batches stored one after the other, backfilled or not,
that are each admitted by what is required of a batch. -/
inductive Written (admitted : Tables → Batch → Tables → Prop) : Tables → Prop
  | start : Written admitted noTables
  | step {tables tables' : Tables} (batch : Batch) (newLatest : Option (Finset String))
      (delta : Option DeltaState) (before : Written admitted tables)
      (persisted : persistEvents tables batch newLatest delta = .ok tables')
      (required : admitted tables batch tables') : Written admitted tables'

/-- A prev event of an event that was stored before and is now neither an
outlier nor rejected. -/
def WantedBefore (tables tables' : Tables) (p : String) : Prop :=
  ∃ x row, x ∈ tables.events ∧ tables'.events.lookup x = some row ∧ row.isLinked ∧
    p ∈ row.event.prevEventIds

def Joins (tables tables' : Tables) : Prop :=
  ∃ x row, x ∉ tables.events ∧ tables'.events.lookup x = some row ∧ row.isLinked ∧
    row.event.prevEventIds ≠ []

structure Linked (tables : Tables) (batch : Batch) (tables' : Tables) : Prop where
  /-- Copies of an event have the prev events of the one that is stored, and a
  rejected outlier stays one. -/
  copies : ∀ item ∈ batch, clears item → ∀ row, tables.events.lookup item.1.eventId = some row →
    row.outlier = true → row.rejected = false ∧ row.event.prevEventIds = item.1.prevEventIds
  /-- A wanted event that is fetched now is not rejected and has prev events,
  unless it is new and stored along with one that has. -/
  fetched : ∀ p row, WantedBefore tables tables' p → tables'.events.lookup p = some row →
    row.outlier = false → isFetched tables p = false → row.rejected = false ∧
      (row.event.prevEventIds ≠ [] ∨ p ∉ tables.events ∧ Joins tables tables')
  /-- A wanted event that is stored now as an outlier has prev events, unless
  it is rejected or stored without one that has. -/
  outliers : ∀ p row, Wanted tables' p → p ∉ tables.events →
    tables'.events.lookup p = some row → row.outlier = true → row.rejected = false →
    row.event.prevEventIds = [] → ¬ Joins tables tables'

section Update

variable {tables : Tables}

theorem isFetched_iff {e : String} : isFetched tables e = true ↔
    ∃ row, tables.events.lookup e = some row ∧ row.outlier = false := by
  rw [isFetched]
  cases tables.events.lookup e <;> simp

theorem mem_updateBackwardExtremities {evs : List NewEvent} {p : String} :
    p ∈ (updateBackwardExtremities tables evs).backwardExtremities ↔
      if ∃ ev ∈ evs, ev.outlier = false ∧ ev.prevEventIds ≠ [] then
        (p ∈ tables.backwardExtremities ∨ isFetched tables p = false ∧
          ∃ ev ∈ evs, ev.outlier = false ∧ p ∈ ev.prevEventIds) ∧
        ¬ ∃ ev ∈ evs, ev.eventId = p ∧ (ev.outlier = false ∨ ev.prevEventIds = [])
      else p ∈ tables.backwardExtremities := by
  have hp : ∀ q, q ∈ ((evs.filter (fun ev => !ev.outlier)).flatMap
      NewEvent.prevEventIds).toFinset ↔ ∃ ev ∈ evs, ev.outlier = false ∧ q ∈ ev.prevEventIds := by
    simp [and_assoc]
  have hr : ∀ q, q ∈ ((evs.filter (fun ev => !ev.outlier || ev.prevEventIds.isEmpty)).map
      NewEvent.eventId).toFinset ↔
      ∃ ev ∈ evs, ev.eventId = q ∧ (ev.outlier = false ∨ ev.prevEventIds = []) := by
    intro q
    simp only [List.mem_toFinset,List.mem_map,List.mem_filter,Bool.or_eq_true,not_eq_true',
      List.isEmpty_iff]
    constructor
    · rintro ⟨ev,⟨hin,hk⟩,hid⟩
      exact ⟨ev,hin,hid,hk⟩
    · rintro ⟨ev,hin,hid,hk⟩
      exact ⟨ev,⟨hin,hk⟩,hid⟩
  have he : ((evs.filter (fun ev => !ev.outlier)).flatMap
      NewEvent.prevEventIds).toFinset = ∅ ↔
      ¬ ∃ ev ∈ evs, ev.outlier = false ∧ ev.prevEventIds ≠ [] := by
    rw [eq_empty_iff_forall_notMem]
    constructor
    · rintro hn ⟨ev,hin,ho,hpr⟩
      obtain ⟨q,hq⟩ := exists_mem_of_ne_nil _ hpr
      exact hn q ((hp q).mpr ⟨ev,hin,ho,hq⟩)
    · intro hn q hq
      obtain ⟨ev,hin,ho,hq⟩ := (hp q).mp hq
      exact hn ⟨ev,hin,ho,ne_nil_of_mem hq⟩
  rw [updateBackwardExtremities]
  by_cases hs : ∃ ev ∈ evs, ev.outlier = false ∧ ev.prevEventIds ≠ []
  · rw [if_neg (fun h => he.mp h hs),if_pos hs]
    simp only [mem_sdiff,Finset.mem_union,Finset.mem_filter,hp,hr,not_eq_true']
    rw [and_comm (a := isFetched tables p = false)]
  · rw [if_pos (he.mpr hs),if_neg hs]

end Update

variable {tables : Tables} {it : NewEvent × EventContext}

theorem clear_exact {row : EventRow} (hex : BackwardExact tables)
    (hrow : tables.events.lookup it.1.eventId = some row) (hr : row.outlier = true)
    (ho : it.1.outlier = false) (hre : row.rejected = false)
    (hpr : row.event.prevEventIds = it.1.prevEventIds)
    (hro : it.1.prevEventIds ≠ [] ∨ ¬ Wanted tables it.1.eventId) :
    BackwardExact (updateBackwardExtremities (clearOutlier tables it.1.eventId row) [it.1]) := by
  have he : (updateBackwardExtremities (clearOutlier tables it.1.eventId row)
      [it.1]).events = tables.events.insert it.1.eventId (clearRow row) := by
    obtain ⟨exs,hb⟩ := updateBackwardExtremities_eq (clearOutlier tables it.1.eventId row) [it.1]
    rw [hb]
    rfl
  have hf : ∀ p, isFetched (updateBackwardExtremities
      (clearOutlier tables it.1.eventId row) [it.1]) p = true ↔
      p = it.1.eventId ∨ isFetched tables p = true := by
    intro p
    rw [isFetched,he,lookup_set,isFetched]
    by_cases hp : p = it.1.eventId
    · simp [hp,clearRow]
    · simp [hp]
  have hf' : ∀ p, isFetched (clearOutlier tables it.1.eventId row) p = true ↔
      p = it.1.eventId ∨ isFetched tables p = true := by
    intro p
    rw [← hf,isFetched,isFetched,he]
    rfl
  have hwa : ∀ p, Wanted (updateBackwardExtremities
      (clearOutlier tables it.1.eventId row) [it.1]) p ↔
      Wanted tables p ∨ p ∈ it.1.prevEventIds := by
    intro p
    rw [Wanted,he]
    constructor
    · rintro ⟨x,row',hr',hl,hp⟩
      rcases set_cases hr' with ⟨-,rfl⟩ | ⟨-,hr'⟩
      · exact .inr (hpr ▸ hp)
      · exact .inl ⟨x,row',hr',hl,hp⟩
    · rintro (⟨x,row',hr',hl,hp⟩ | hp)
      · have hne : x ≠ it.1.eventId := by
          rintro rfl
          obtain rfl := some.inj (hrow.symm.trans hr')
          simp [EventRow.isLinked,hr] at hl
        exact ⟨x,row',by rw [lookup_set,if_neg hne,hr'],hl,hp⟩
      · refine ⟨it.1.eventId,clearRow row,by rw [lookup_set,if_pos rfl],?_,?_⟩
        · simp [EventRow.isLinked,clearRow,hre]
        · exact hpr ▸ hp
  intro p
  rw [mem_updateBackwardExtremities,hwa,← not_eq_true,hf',← not_eq_true,hf]
  change (if _ then (p ∈ tables.backwardExtremities ∨ _) ∧ _
    else p ∈ tables.backwardExtremities) ↔ _
  rw [hex p,← not_eq_true]
  simp only [List.mem_singleton,exists_eq_left,ho,true_and,true_or,and_true,not_or]
  split
  · constructor
    · rintro ⟨⟨hw,hnf⟩ | ⟨⟨hne,hnf⟩,hp⟩,hid⟩
      · exact ⟨.inl hw,fun h => hid h.symm,hnf⟩
      · exact ⟨.inr hp,hne,hnf⟩
    · rintro ⟨hw | hp,hne,hnf⟩
      · exact ⟨.inl ⟨hw,hnf⟩,fun h => hne h.symm⟩
      · exact ⟨.inr ⟨⟨hne,hnf⟩,hp⟩,fun h => hne h.symm⟩
  · next hn =>
    have hn : it.1.prevEventIds = [] := not_not.mp hn
    constructor
    · rintro ⟨hw,hnf⟩
      refine ⟨.inl hw,?_,hnf⟩
      rintro rfl
      exact hro.elim (fun h => h hn) (fun h => h hw)
    · rintro ⟨hw | hp,-,hnf⟩
      · exact ⟨hw,hnf⟩
      · simp [hn] at hp

theorem updateOutlier_exact {tables' : Tables} (he : BackwardExact tables)
    (hg : clears it → ∀ row, tables.events.lookup it.1.eventId = some row →
      row.outlier = true → row.rejected = false ∧ row.event.prevEventIds = it.1.prevEventIds ∧
        (it.1.prevEventIds ≠ [] ∨ ¬ Wanted tables it.1.eventId))
    (h : updateOutlier tables it = .ok tables') : BackwardExact tables' := by
  rcases updateOutlier_cases h with ⟨rfl,-⟩ | ⟨row,gs,hrow,hcl,ho,-,rfl⟩
  · exact he
  · obtain ⟨hrej,hp,hro⟩ := hg hcl row hrow ho
    simp only [clears,and_eq_true,not_eq_true'] at hcl
    have hs : BackwardExact { tables with eventToStateGroups := gs } := he
    exact clear_exact hs hrow ho hcl.1 hrej hp hro

theorem updateOutliers_exact {wanted : Set String} {its : Batch}
    (ha : its.Pairwise (fun a b => a.1.eventId ≠ b.1.eventId)) {tables' : Tables}
    (he : BackwardExact tables) (hwa : ∀ p, Wanted tables p → p ∈ wanted)
    (hg : ∀ it ∈ its, clears it → ∀ row,
      tables.events.lookup it.1.eventId = some row → row.outlier = true →
        row.rejected = false ∧ row.event.prevEventIds = it.1.prevEventIds ∧
        (it.1.prevEventIds ≠ [] ∨ it.1.eventId ∉ wanted) ∧ ∀ p ∈ it.1.prevEventIds, p ∈ wanted)
    (h : its.foldlM updateOutlier tables = .ok tables') :
    BackwardExact tables' ∧ ∀ p, Wanted tables' p → p ∈ wanted := by
  induction its generalizing tables with
  | nil =>
    cases h
    exact ⟨he,hwa⟩
  | cons it its ih =>
    obtain ⟨tables₁,hst,hre⟩ := bind_eq_ok.mp h
    obtain ⟨hf,hot⟩ := pairwise_cons.mp ha
    have hr := (updateOutlier_ok hst).2
    have he₁ : BackwardExact tables₁ := by
      apply updateOutlier_exact he _ hst
      intro hc row hrow hout
      obtain ⟨hrej,hpr,hro,-⟩ := hg it (by simp) hc row hrow hout
      exact ⟨hrej,hpr,hro.imp_right (fun hn hw => hn (hwa _ hw))⟩
    have hwa₁ : ∀ p, Wanted tables₁ p → p ∈ wanted := by
      rintro p ⟨x,row',hr',hl,hp⟩
      rw [hr] at hr'
      obtain ⟨row,hrow,heq⟩ := map_eq_some_iff.mp hr'
      split at heq
      · next hc =>
        obtain ⟨rfl,hc⟩ := hc
        subst heq
        cases hout : row.outlier with
        | true =>
          obtain ⟨-,hpr,-,hin⟩ := hg it (by simp) hc row hrow hout
          exact hin p (hpr ▸ hp)
        | false =>
          have hs : clearRow row = row := by
            rw [clearRow,← hout]
          rw [hs] at hl hp
          exact hwa p ⟨_,row,hrow,hl,hp⟩
      · subst heq
        exact hwa p ⟨x,row,hrow,hl,hp⟩
    apply ih hot he₁ hwa₁ _ hre
    intro o ho hc row hrow hout
    have hne : ¬ (o.1.eventId = it.1.eventId ∧ clears it = true) := fun hs => hf o ho hs.1.symm
    rw [hr] at hrow
    simp only [hne,if_false,Option.map_id_fun'] at hrow
    exact hg o (by simp [ho]) hc row hrow hout

section Step

variable {tables tables' : Tables} {b : Batch} {nl : Option (Finset String)}
  {d : Option DeltaState}

theorem Stored.wantedBefore (h : Stored tables b tables') {p : String} (hp : Wanted tables p) :
    WantedBefore tables tables' p := by
  obtain ⟨x,row,hr,hl,hp⟩ := hp
  obtain ⟨row',hr',rfl | ⟨rfl,-⟩⟩ := h.old x row hr
  · exact ⟨x,row',mem_iff_lookup.mpr ⟨row',hr⟩,hr',hl,hp⟩
  · refine ⟨x,clearRow row,mem_iff_lookup.mpr ⟨row,hr⟩,hr',?_,hp⟩
    simp only [EventRow.isLinked,and_eq_true] at hl ⊢
    exact ⟨rfl,hl.2⟩

variable {upd : Tables}

theorem Linked.updated (he : BackwardExact tables) (hst : Stored tables b tables')
    (hl : Linked tables b tables')
    (hu : (filterEventsAndContextsForDuplicates b).foldlM updateOutlier tables = .ok upd)
    (hev : tables'.events = ((newItems tables b).foldl storeEvent upd).events) :
    BackwardExact upd ∧ ∀ p, Wanted upd p → WantedBefore tables tables' p := by
  have hk := filterDuplicates_kept b
  refine updateOutliers_exact hk.apart he (fun p hp => hst.wantedBefore hp) ?_ hu
  intro it hi hc row hrow ho
  obtain ⟨hrej,hpr⟩ := hl.copies it (hk.sub it hi) hc row hrow ho
  have hs : it.1.eventId ∈ tables.events := mem_iff_lookup.mpr ⟨row,hrow⟩
  have hr' : tables'.events.lookup it.1.eventId = some (clearRow row) := by
    rw [hev,lookup_old hrow,(updateOutliers_ok hu).2,hrow,map_some,if_pos ⟨it,hi,rfl,hc⟩]
  refine ⟨hrej,hpr,?_,?_⟩
  · by_contra hcon
    obtain ⟨hn,hin⟩ := not_or.mp hcon
    obtain ⟨-,hr⟩ := hl.fetched _ _ (not_not.mp hin) hr' rfl (by simp [isFetched,hrow,ho])
    rcases hr with hne | ⟨hnew,-⟩
    · exact hne (hpr.trans (not_not.mp hn))
    · exact hnew hs
  · intro p hp
    refine ⟨_,clearRow row,hs,hr',?_,?_⟩
    · simp [EventRow.isLinked,clearRow,hrej]
    · exact hpr ▸ hp

structure Adds (updated : Tables) (items : Batch) (tables' : Tables) : Prop where
  keeps : ∀ e row, updated.events.lookup e = some row → tables'.events.lookup e = some row
  new : ∀ item ∈ items, tables'.events.lookup item.1.eventId = some (rowOf item)
  only : ∀ e row, tables'.events.lookup e = some row → updated.events.lookup e = some row ∨
    ∃ item ∈ items, item.1.eventId = e ∧ row = rowOf item

theorem newItems_adds
    (hu : (filterEventsAndContextsForDuplicates b).foldlM updateOutlier tables = .ok upd)
    (he : tables'.events = ((newItems tables b).foldl storeEvent upd).events) :
    Adds upd (newItems tables b) tables' := by
  have hn : ∀ it ∈ newItems tables b,tables'.events.lookup it.1.eventId = some (rowOf it) := by
    intro it hi
    rw [he]
    exact lookup_newItem hi upd
  refine ⟨?_,hn,?_⟩
  · intro e row hr
    have ho := hr
    rw [(updateOutliers_ok hu).2] at ho
    obtain ⟨row₀,hr₀,-⟩ := map_eq_some_iff.mp ho
    rw [he,lookup_old hr₀,hr]
  · intro e row hr
    cases hl : tables.events.lookup e with
    | some row₀ =>
      rw [he,lookup_old hl] at hr
      exact .inl hr
    | none =>
      obtain ⟨it,hi,rfl⟩ := exists_newItem hu hl (he ▸ hr)
      exact .inr ⟨it,hi,rfl,(some.inj ((hn it hi).symm.trans hr)).symm⟩

theorem Adds.wanted_iff {its : Batch} (h : Adds upd its tables') (p : String) :
    Wanted tables' p ↔ Wanted upd p ∨
      ∃ ev ∈ notRejected its, ev.outlier = false ∧ p ∈ ev.prevEventIds := by
  constructor
  · rintro ⟨x,row,hr,hl,hp⟩
    rcases h.only x row hr with ho | ⟨it,hi,rfl,rfl⟩
    · exact .inl ⟨x,row,ho,hl,hp⟩
    · simp only [EventRow.isLinked,and_eq_true,not_eq_true'] at hl
      exact .inr ⟨it.1,mem_notRejected.mpr ⟨it,hi,hl.2,rfl⟩,hl.1,hp⟩
  · rintro (⟨x,row,hr,hl,hp⟩ | ⟨ev,hev,hout,hp⟩)
    · exact ⟨x,row,h.keeps x row hr,hl,hp⟩
    · obtain ⟨it,hi,hrej,rfl⟩ := mem_notRejected.mp hev
      exact ⟨_,rowOf it,h.new it hi,by simp [EventRow.isLinked,rowOf,hout,hrej],hp⟩

theorem Adds.fetched_iff {its : Batch} (h : Adds upd its tables') (p : String) :
    isFetched tables' p = true ↔ isFetched upd p = true ∨
      ∃ it ∈ its, it.1.eventId = p ∧ it.1.outlier = false := by
  rw [isFetched_iff,isFetched_iff]
  constructor
  · rintro ⟨row,hr,ho⟩
    rcases h.only p row hr with hold | ⟨it,hi,hid,rfl⟩
    · exact .inl ⟨row,hold,ho⟩
    · exact .inr ⟨it,hi,hid,ho⟩
  · rintro (⟨row,hr,ho⟩ | ⟨it,hi,rfl,ho⟩)
    · exact ⟨row,h.keeps p row hr,ho⟩
    · exact ⟨rowOf it,h.new it hi,ho⟩

theorem Adds.joins_iff (h : Adds upd (newItems tables b) tables')
    (ho : ∀ e ∉ tables.events, e ∉ upd.events) :
    Joins tables tables' ↔
      ∃ ev ∈ notRejected (newItems tables b), ev.outlier = false ∧ ev.prevEventIds ≠ [] := by
  constructor
  · rintro ⟨x,row,hx,hr,hl,hp⟩
    rcases h.only x row hr with hr₀ | ⟨it,hi,rfl,rfl⟩
    · exact absurd (mem_iff_lookup.mpr ⟨row,hr₀⟩) (ho x hx)
    · simp only [EventRow.isLinked,and_eq_true,not_eq_true'] at hl
      exact ⟨it.1,mem_notRejected.mpr ⟨it,hi,hl.2,rfl⟩,hl.1,hp⟩
  · rintro ⟨ev,hev,hout,hp⟩
    obtain ⟨it,hi,hrej,rfl⟩ := mem_notRejected.mp hev
    refine ⟨_,rowOf it,lookup_eq_none.mp (mem_newItems.mp hi).2,h.new it hi,?_,hp⟩
    simp [EventRow.isLinked,rowOf,hout,hrej]

theorem Linked.fetched_new (hl : Linked tables b tables')
    (ha : Adds upd (newItems tables b) tables') {it : NewEvent × EventContext}
    (hi : it ∈ newItems tables b) (ho : it.1.outlier = false)
    (hw : WantedBefore tables tables' it.1.eventId) :
    it.1 ∈ notRejected (newItems tables b) ∧ (it.1.prevEventIds ≠ [] ∨ Joins tables tables') := by
  obtain ⟨hr,hp⟩ := hl.fetched _ _ hw (ha.new it hi) ho (by simp [isFetched,(mem_newItems.mp hi).2])
  exact ⟨mem_notRejected.mpr ⟨it,hi,hr,rfl⟩,hp.imp_right And.right⟩

theorem persistEvents_backward (h : persistEvents tables b nl d = .ok tables') :
    ∃ upd, (filterEventsAndContextsForDuplicates b).foldlM updateOutlier tables =
        .ok upd ∧
      tables'.events = ((newItems tables b).foldl storeEvent upd).events ∧
      ∀ p, p ∈ tables'.backwardExtremities ↔
        if ∃ ev ∈ notRejected (newItems tables b), ev.outlier = false ∧ ev.prevEventIds ≠ [] then
          (p ∈ upd.backwardExtremities ∨ isFetched tables' p = false ∧
            ∃ ev ∈ notRejected (newItems tables b), ev.outlier = false ∧ p ∈ ev.prevEventIds) ∧
          ¬ ∃ ev ∈ notRejected (newItems tables b),
            ev.eventId = p ∧ (ev.outlier = false ∨ ev.prevEventIds = [])
        else p ∈ upd.backwardExtremities := by
  obtain ⟨upd,sd,hu,hs,hr⟩ := persistEvents_stages h
  obtain ⟨gs,rfl⟩ := storeMappings_eq hs
  have he : tables'.events = ((newItems tables b).foldl storeEvent upd).events := by
    obtain ⟨exs,hb⟩ := updateBackwardExtremities_eq _ _
    rw [hr,handleMultPrevEvents,hb]
  refine ⟨upd,hu,he,?_⟩
  intro p
  have hb : ((newItems tables b).foldl storeEvent upd).backwardExtremities =
      upd.backwardExtremities := by
    obtain ⟨evs,heq⟩ := storeEvents_eq (newItems tables b) upd
    rw [heq]
  have hf : isFetched tables' p = isFetched ((newItems tables b).foldl storeEvent upd) p := by
    rw [isFetched,isFetched,he]
  rw [hf,← hb,hr]
  exact mem_updateBackwardExtremities

theorem persistEvents_exact (hex : BackwardExact tables)
    (h : persistEvents tables b nl d = .ok tables') (hl : Linked tables b tables') :
    BackwardExact tables' := by
  obtain ⟨upd,hu,hen,hba⟩ := persistEvents_backward h
  obtain ⟨hup,hb⟩ := hl.updated hex (persistEvents_stored h) hu hen
  have ha := newItems_adds hu hen
  have hold : ∀ e ∉ tables.events, e ∉ upd.events := by
    intro e he
    rw [← lookup_eq_none] at he ⊢
    rw [(updateOutliers_ok hu).2,he,map_none]
  have hjn := ha.joins_iff hold
  intro p
  rw [hba p,hup p,ha.wanted_iff]
  have hf := ha.fetched_iff p
  split
  · next hjo =>
    constructor
    · rintro ⟨⟨hw,hnf⟩ | ⟨hnf,hev⟩,hs⟩
      · refine ⟨.inl hw,?_⟩
        rw [← not_eq_true,hf,not_or,not_eq_true]
        refine ⟨hnf,?_⟩
        rintro ⟨it,hi,rfl,ho⟩
        have hin := (hl.fetched_new ha hi ho (hb _ hw)).1
        exact hs ⟨it.1,hin,rfl,.inl ho⟩
      · exact ⟨.inr hev,hnf⟩
    · rintro ⟨hw,hnf⟩
      have hnf' := hnf
      rw [← not_eq_true,hf,not_or,not_eq_true] at hnf'
      refine ⟨hw.imp (fun hw => ⟨hw,hnf'.1⟩) (fun hev => ⟨hnf,hev⟩),?_⟩
      rintro ⟨ev,hev,rfl,hk⟩
      obtain ⟨it,hi,hr,rfl⟩ := mem_notRejected.mp hev
      cases ho : it.1.outlier with
      | false => exact hnf'.2 ⟨it,hi,rfl,ho⟩
      | true =>
        have hn := hk.resolve_left (by simp [ho])
        exact hl.outliers _ _ ((ha.wanted_iff _).mpr hw)
          (lookup_eq_none.mp (mem_newItems.mp hi).2) (ha.new it hi) ho hr hn (hjn.mpr hjo)
  · next hjo =>
    constructor
    · rintro ⟨hw,hnf⟩
      refine ⟨.inl hw,?_⟩
      rw [← not_eq_true,hf,not_or,not_eq_true]
      refine ⟨hnf,?_⟩
      rintro ⟨it,hi,rfl,ho⟩
      obtain ⟨hin,hne | hj⟩ := hl.fetched_new ha hi ho (hb _ hw)
      · exact hjo ⟨it.1,hin,ho,hne⟩
      · exact hjo (hjn.mp hj)
    · rintro ⟨hw | ⟨ev,hev,ho,hp⟩,hnf⟩
      · rw [← not_eq_true,hf,not_or,not_eq_true] at hnf
        exact ⟨hw,hnf.1⟩
      · exact absurd ⟨ev,hev,ho,ne_nil_of_mem hp⟩ hjo

theorem Stored.linked (h : Stored tables b tables')
    (hg : ∀ it ∈ b, it.1.eventId ∉ tables.events ∧ it.1.outlier = false ∧
      it.2.isRejected = false ∧ it.1.prevEventIds ≠ []) : Linked tables b tables' := by
  refine ⟨?_,?_,?_⟩
  · intro it hi _ row hr
    exact absurd (mem_iff_lookup.mpr ⟨row,hr⟩) (hg it hi).1
  · intro p row _ hr ho hf
    cases hl : tables.events.lookup p with
    | none =>
      obtain ⟨it,hi,-,rfl⟩ := h.new p row hl hr
      exact ⟨(hg it hi).2.2.1,.inl (hg it hi).2.2.2⟩
    | some row₀ =>
      obtain ⟨row',hr',hs⟩ := h.old p row₀ hl
      obtain rfl := some.inj (hr'.symm.trans hr)
      rcases hs with rfl | ⟨-,it,hi,rfl,-⟩
      · simp [isFetched,hl,ho] at hf
      · exact absurd (mem_iff_lookup.mpr ⟨row₀,hl⟩) (hg it hi).1
  · intro p row _ hp hr ho
    obtain ⟨it,hi,-,rfl⟩ := h.new p row (lookup_eq_none.mpr hp) hr
    simp [rowOf,(hg it hi).2.1] at ho

end Step

theorem Written.mono {ad ad' : Tables → Batch → Tables → Prop}
    (hm : ∀ tables ba tables', ad tables ba tables' → ad' tables ba tables')
    (h : Written ad tables) :
    Written ad' tables := by
  induction h with
  | start => exact .start
  | step ba nl d _ persisted required ih =>
    exact .step ba nl d ih persisted (hm _ _ _ required)

/-- In every run whose batches all meet the requirements, the backward
extremities are exact after each batch. -/
theorem backwardExtremities_exact_of_linked (h : Written Linked tables) : BackwardExact tables := by
  induction h with
  | start => simp [BackwardExact,Wanted,noTables]
  | step _ _ _ _ persisted required ih => exact persistEvents_exact ih persisted required

def afterWrite (tables : Tables) (batch : Batch) : Tables :=
  (persistEvents tables batch none none).toOption.getD noTables

theorem afterWrite_ok {ba : Batch} (h : (persistEvents tables ba none none).toOption.isSome) :
    persistEvents tables ba none none = .ok (afterWrite tables ba) := by
  exact eq_ok_getD h noTables

def answer : Event := smallRoomEvent "$answer" "m.room.message" none ["$question"]

def question : Event := smallRoomEvent "$question" "m.room.message" none ["$create"]

def backfilled : Tables :=
  afterWrite (afterWrite noTables [accept answer 1]) [accept question 1]

theorem backfilled_written : Written Linked backfilled := by
  have hr : Written Linked (afterWrite noTables [accept answer 1]) := by
    have hrun : persistEvents noTables [accept answer 1] none none =
        .ok (afterWrite noTables [accept answer 1]) := afterWrite_ok (by decide +kernel)
    exact .step _ none none .start hrun ((persistEvents_stored hrun).linked (by decide +kernel))
  have hrun : persistEvents (afterWrite noTables [accept answer 1]) [accept question 1] none none =
      .ok backfilled := afterWrite_ok (by decide +kernel)
  exact .step _ none none hr hrun ((persistEvents_stored hrun).linked (by decide +kernel))

theorem backwardExtremities_exact_of_linked_backfilled :
    BackwardExact backfilled ∧ backfilled.backwardExtremities = {"$create"} :=
  ⟨backwardExtremities_exact_of_linked backfilled_written,by decide +kernel⟩

/-- The create event has no prev events, so that it stays a backward extremity
once it is fetched on its own. -/
theorem backwardExtremities_keep_create :
    Written (fun _ _ _ => True) (afterWrite backfilled [accept create 1]) ∧
      "$create" ∈ (afterWrite backfilled [accept create 1]).backwardExtremities ∧
      isFetched (afterWrite backfilled [accept create 1]) "$create" = true ∧
      ¬ BackwardExact (afterWrite backfilled [accept create 1]) := by
  have hstays : "$create" ∈ (afterWrite backfilled [accept create 1]).backwardExtremities := by
    decide +kernel
  have hfetched : isFetched (afterWrite backfilled [accept create 1]) "$create" = true := by
    decide +kernel
  refine ⟨?_,hstays,hfetched,?_⟩
  · have hbefore := backfilled_written.mono (fun _ _ _ _ => trivial)
    exact .step _ none none hbefore (afterWrite_ok (by decide +kernel)) trivial
  · intro hexact
    have hnot := ((hexact "$create").mp hstays).2
    simp [hfetched] at hnot

end Synapse.EventPersistence
