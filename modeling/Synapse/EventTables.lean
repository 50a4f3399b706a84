import Synapse.EventPersistence

/-!
# What a persisted batch leaves in the tables

An event is stored once, with the verdict it first came with. Later copies at
most clear its outlier flag. The edges are those of the stored events that are
not rejected.
-/

set_option autoImplicit false

namespace Synapse.EventPersistence
open Python Loops List Dict Option

def rowOf (item : NewEvent × EventContext) : EventRow :=
  ⟨item.1.event,item.1.depth,item.1.outlier,item.1.softFailed,item.2.isRejected⟩

def clears (item : NewEvent × EventContext) : Bool := !item.1.outlier && !item.2.isRejected

/-- Each event of the batch is kept once, and not as an outlier unless all its
copies are. -/
structure Kept (batch kept : Batch) : Prop where
  sub : ∀ item ∈ kept, item ∈ batch
  apart : kept.Pairwise (fun a b => a.1.eventId ≠ b.1.eventId)
  all : ∀ item ∈ batch, ∃ k ∈ kept, k.1.eventId = item.1.eventId ∧
    (item.1.outlier = false → k.1.outlier = false)

variable {batch its kept : Batch} {tables tables' : Tables} {item : NewEvent × EventContext}
  {nl : Option (Finset String)} {d : Option DeltaState}

theorem Kept.replace (h : Kept batch kept)
    (hi : item.1.outlier = false ∨ ∀ k ∈ kept, k.1.eventId ≠ item.1.eventId) :
    Kept (batch ++ [item]) (kept.filter (fun k => k.1.eventId ≠ item.1.eventId) ++ [item]) := by
  refine ⟨?_,?_,?_⟩
  · intro k hk
    rcases mem_append.mp hk with hk | hk
    · exact mem_append_left _ (h.sub k (mem_of_mem_filter hk))
    · exact mem_append_right _ hk
  · rw [pairwise_append]
    refine ⟨h.apart.filter _,pairwise_singleton _ _,?_⟩
    intro k hk o ho
    obtain rfl := mem_singleton.mp ho
    simpa using (mem_filter.mp hk).2
  · intro o ho
    rcases mem_append.mp ho with ho | ho
    · obtain ⟨k,hk,hid,hout⟩ := h.all o ho
      by_cases hs : k.1.eventId = item.1.eventId
      · exact ⟨item,by simp,hs ▸ hid,fun _ => hi.resolve_right (fun hn => hn k hk hs)⟩
      · exact ⟨k,mem_append_left _ (mem_filter.mpr ⟨hk,by simpa using hs⟩),hid,hout⟩
    · obtain rfl := mem_singleton.mp ho
      exact ⟨o,by simp,rfl,id⟩

theorem filterDuplicates_kept (batch : Batch) :
    Kept batch (filterEventsAndContextsForDuplicates batch) := by
  induction batch using reverseRecOn with
  | nil => exact ⟨by simp [filterEventsAndContextsForDuplicates],
      by simp [filterEventsAndContextsForDuplicates],by simp⟩
  | append_singleton batch item ih =>
    rw [filterEventsAndContextsForDuplicates,foldl_append,foldl_cons]
    split
    · next o hf =>
      have ho := mem_of_find?_eq_some hf
      have hid : o.1.eventId = item.1.eventId := by simpa using find?_some hf
      split
      · next hr =>
        simp only [Bool.and_eq_true,Bool.not_eq_true'] at hr
        exact ih.replace (.inl hr.1)
      · next hke =>
        refine ⟨fun k hk => mem_append_left _ (ih.sub k hk),ih.apart,
          forall_mem_append.mpr ⟨ih.all,forall_mem_singleton.mpr ⟨o,ho,hid,?_⟩⟩⟩
        intro hi
        simpa [hi] using hke
    · next hf =>
      have hn : ∀ k ∈ filterEventsAndContextsForDuplicates batch,
          k.1.eventId ≠ item.1.eventId := fun k hk => by simpa using find?_eq_none.mp hf k hk
      have hr := ih.replace (.inr hn)
      rwa [filter_eq_self.mpr (by simpa using hn)] at hr

theorem storeEventStateMapping_eq (h : storeEventStateMapping tables item = .ok tables') :
    ∃ gs, tables' = { tables with eventToStateGroups := gs } := by
  rw [storeEventStateMapping] at h
  split at h
  · cases h
    exact ⟨tables.eventToStateGroups,rfl⟩
  · split at h
    · cases h
      exact ⟨_,rfl⟩
    · simp at h

theorem storeMappings_eq (h : its.foldlM storeEventStateMapping tables = .ok tables') :
    ∃ gs, tables' = { tables with eventToStateGroups := gs } := by
  induction its generalizing tables with
  | nil =>
    obtain rfl := Except.ok.inj h
    exact ⟨tables.eventToStateGroups,rfl⟩
  | cons item its ih =>
    obtain ⟨tables₁,hs,hr⟩ := bind_eq_ok.mp h
    obtain ⟨gs₁,rfl⟩ := storeEventStateMapping_eq hs
    obtain ⟨gs,rfl⟩ := ih hr
    exact ⟨gs,rfl⟩

theorem updateBackwardExtremities_eq (tables : Tables) (evs : List NewEvent) :
    ∃ exs, updateBackwardExtremities tables evs = { tables with backwardExtremities := exs } := by
  rw [updateBackwardExtremities]
  split
  · exact ⟨tables.backwardExtremities,rfl⟩
  · exact ⟨_,rfl⟩

def clearRow (row : EventRow) : EventRow := { row with outlier := false }

theorem updateOutlier_cases (h : updateOutlier tables item = .ok tables') :
    (tables' = tables ∧ ∀ row, tables.events.lookup item.1.eventId = some row →
      clears item → row.outlier = false) ∨
    ∃ row gs, tables.events.lookup item.1.eventId = some row ∧ clears item ∧ row.outlier ∧
      storeEventStateMapping tables item = .ok { tables with eventToStateGroups := gs } ∧
      tables' = updateBackwardExtremities
        (clearOutlier { tables with eventToStateGroups := gs } item.1.eventId row) [item.1] := by
  rw [updateOutlier] at h
  split at h
  · next hn =>
    cases h
    exact .inl ⟨rfl,by simp [hn]⟩
  · next row hrow =>
    split at h
    · next hr =>
      cases h
      exact .inl ⟨rfl,by simp [clears,hr]⟩
    · next hr =>
      split at h
      · next ho =>
        simp only [Bool.and_eq_true] at ho
        obtain ⟨tables₁,hm,hre⟩ := bind_eq_ok.mp h
        obtain ⟨gs,rfl⟩ := storeEventStateMapping_eq hm
        cases hre
        exact .inr ⟨row,gs,hrow,by simp [clears,ho.1,hr],ho.2,hm,rfl⟩
      · next ho =>
        cases h
        refine .inl ⟨rfl,?_⟩
        intro row' hrow' hcl
        obtain rfl := some.inj (hrow.symm.trans hrow')
        simp only [clears,Bool.and_eq_true] at hcl
        simpa [hcl.1] using ho

theorem updateOutlier_ok (h : updateOutlier tables item = .ok tables') :
    (tables'.eventEdges = tables.eventEdges ∧
      tables'.forwardExtremities = tables.forwardExtremities ∧
      tables'.currentState = tables.currentState) ∧
    ∀ eid, tables'.events.lookup eid = (tables.events.lookup eid).map (fun row =>
      if eid = item.1.eventId ∧ clears item then clearRow row else row) := by
  rcases updateOutlier_cases h with ⟨rfl,hkeep⟩ | ⟨row,gs,hrow,hcl,-,-,rfl⟩
  · refine ⟨⟨rfl,rfl,rfl⟩,?_⟩
    intro eid
    by_cases heq : eid = item.1.eventId ∧ clears item = true
    · obtain ⟨rfl,hc⟩ := heq
      cases hrow : tables'.events.lookup item.1.eventId with
      | none => rfl
      | some row =>
        have hs : clearRow row = row := by rw [clearRow,← hkeep row hrow hc]
        simp [hc,hs]
    · simp [heq]
  · obtain ⟨exs,hb⟩ := updateBackwardExtremities_eq
      (clearOutlier { tables with eventToStateGroups := gs } item.1.eventId row) [item.1]
    rw [hb]
    refine ⟨⟨rfl,rfl,rfl⟩,?_⟩
    intro eid
    rw [clearOutlier]
    by_cases heq : eid = item.1.eventId
    · subst heq
      simp [hrow,hcl,clearRow]
    · simp [heq]

theorem updateOutliers_ok (h : its.foldlM updateOutlier tables = .ok tables') :
    (tables'.eventEdges = tables.eventEdges ∧
      tables'.forwardExtremities = tables.forwardExtremities ∧
      tables'.currentState = tables.currentState) ∧
    ∀ eid, tables'.events.lookup eid = (tables.events.lookup eid).map (fun row =>
      if ∃ item ∈ its, item.1.eventId = eid ∧ clears item then clearRow row else row) := by
  induction its generalizing tables with
  | nil =>
    cases h
    simp
  | cons item its ih =>
    obtain ⟨tables₁,hs,hr⟩ := bind_eq_ok.mp h
    obtain ⟨⟨hg,hx,hc⟩,he⟩ := updateOutlier_ok hs
    obtain ⟨⟨hg',hx',hc'⟩,he'⟩ := ih hr
    refine ⟨⟨hg'.trans hg,hx'.trans hx,hc'.trans hc⟩,?_⟩
    intro eid
    rw [he',he]
    cases tables.events.lookup eid with
    | none => rfl
    | some row =>
      simp only [map_some,exists_mem_cons_iff]
      by_cases hfi : item.1.eventId = eid ∧ clears item = true
      · have hfi' : eid = item.1.eventId ∧ clears item = true := ⟨hfi.1.symm,hfi.2⟩
        rw [if_pos (Or.inl hfi)]
        split <;> rfl
      · have hfi' : ¬ (eid = item.1.eventId ∧ clears item = true) := fun hf => hfi ⟨hf.1.symm,hf.2⟩
        rw [if_neg hfi']
        simp only [hfi,false_or]

theorem storeEvents_eq (its : Batch) (tables : Tables) :
    ∃ evs, its.foldl storeEvent tables = { tables with events := evs } := by
  induction its generalizing tables with
  | nil => exact ⟨tables.events,rfl⟩
  | cons item its ih =>
    obtain ⟨evs,heq⟩ := ih (storeEvent tables item)
    exact ⟨evs,heq⟩

theorem storeEvents_other {eid : String} (h : ∀ item ∈ its, item.1.eventId ≠ eid)
    (tables : Tables) :
    (its.foldl storeEvent tables).events.lookup eid = tables.events.lookup eid := by
  induction its generalizing tables with
  | nil => rfl
  | cons item its ih =>
    rw [foldl_cons,ih (fun o ho => h o (by simp [ho])),storeEvent,lookup_set,
      if_neg (h item (by simp)).symm]

theorem storeEvents_new (ha : its.Pairwise (fun a b => a.1.eventId ≠ b.1.eventId)) (hi : item ∈ its)
    (tables : Tables) :
    (its.foldl storeEvent tables).events.lookup item.1.eventId = some (rowOf item) := by
  induction its generalizing tables with
  | nil => simp at hi
  | cons first its ih =>
    obtain ⟨hf,hr⟩ := pairwise_cons.mp ha
    rw [foldl_cons]
    rcases mem_cons.mp hi with rfl | hin
    · rw [storeEvents_other (fun o ho => (hf o ho).symm),storeEvent,lookup_set,if_pos rfl]
      rfl
    · exact ih hr hin _

structure Stored (tables : Tables) (batch : Batch) (tables' : Tables) : Prop where
  old : ∀ eventId row, tables.events.lookup eventId = some row → ∃ row',
    tables'.events.lookup eventId = some row' ∧ (row' = row ∨ row' = clearRow row ∧
      ∃ item ∈ batch, item.1.eventId = eventId ∧ clears item)
  new : ∀ eventId row, tables.events.lookup eventId = none →
    tables'.events.lookup eventId = some row →
    ∃ item ∈ batch, item.1.eventId = eventId ∧ row = rowOf item
  copies : ∀ item ∈ batch, item.1.outlier = false → ∃ k ∈ batch,
    k.1.eventId = item.1.eventId ∧ k.1.outlier = false ∧ ∃ row,
      tables'.events.lookup item.1.eventId = some row ∧
        (k.2.isRejected = false → row.outlier = false)
  edges : ∀ x y, (x,y) ∈ tables'.eventEdges ↔ (x,y) ∈ tables.eventEdges ∨
    tables.events.lookup x = none ∧ ∃ row, tables'.events.lookup x = some row ∧
      row.rejected = false ∧ y ∈ row.event.prevEventIds

theorem mem_notRejected {ev : NewEvent} :
    ev ∈ notRejected batch ↔ ∃ item ∈ batch, item.2.isRejected = false ∧ item.1 = ev := by
  simp [notRejected]

theorem mem_edgesOf {x y : String} : (x,y) ∈ edgesOf (notRejected batch) ↔
    ∃ item ∈ batch, item.1.eventId = x ∧ item.2.isRejected = false ∧ y ∈ item.1.prevEventIds := by
  simp only [edgesOf,mem_flatMap,mem_notRejected,List.mem_map,Prod.mk.injEq]
  constructor
  · rintro ⟨ev,⟨item,hin,hr,rfl⟩,prev,hp,hid,rfl⟩
    exact ⟨item,hin,hid,hr,hp⟩
  · rintro ⟨item,hin,hid,hr,hp⟩
    exact ⟨item.1,⟨item,hin,hr,rfl⟩,y,hp,hid,rfl⟩

def newItems (tables : Tables) (batch : Batch) : Batch :=
  (filterEventsAndContextsForDuplicates batch).filter (fun item => item.1.eventId ∉ tables.events)

theorem mem_newItems :
    item ∈ newItems tables batch ↔ item ∈ filterEventsAndContextsForDuplicates batch ∧
      tables.events.lookup item.1.eventId = none := by
  rw [newItems,mem_filter,AList.lookup_eq_none,decide_eq_true_eq]

theorem persistEvents_stages (h : persistEvents tables batch nl d = .ok tables') :
    ∃ ud sd,
      (filterEventsAndContextsForDuplicates batch).foldlM updateOutlier tables = .ok ud ∧
      (newItems tables batch).foldlM storeEventStateMapping
        ((newItems tables batch).foldl storeEvent ud) = .ok sd ∧
      tables' = { handleMultPrevEvents sd (notRejected (newItems tables batch)) with
        forwardExtremities := updateForwardExtremities sd.forwardExtremities nl
        currentState := updateCurrentState sd.currentState d } := by
  obtain ⟨ud,hupdate,h⟩ := bind_eq_ok.mp h
  obtain ⟨sd,hs,h⟩ := bind_eq_ok.mp h
  refine ⟨ud,sd,hupdate,hs,?_⟩
  cases h
  obtain ⟨exs,hb⟩ := updateBackwardExtremities_eq
    { sd with eventEdges := sd.eventEdges ++ edgesOf (notRejected (newItems tables batch)) }
    (notRejected (newItems tables batch))
  simp only [handleMultPrevEvents,hb,newItems] at hb ⊢

section Rows

variable {tables upd : Tables} {b : Batch}
  (hupdate : (filterEventsAndContextsForDuplicates b).foldlM updateOutlier tables = .ok upd)

theorem lookup_old {e : String} {row : EventRow} (hr : tables.events.lookup e = some row)
    (upd : Tables) :
    ((newItems tables b).foldl storeEvent upd).events.lookup e = upd.events.lookup e := by
  apply storeEvents_other
  rintro item hi rfl
  simp [(mem_newItems.mp hi).2] at hr

theorem lookup_newItem {item : NewEvent × EventContext} (hi : item ∈ newItems tables b)
    (upd : Tables) :
    ((newItems tables b).foldl storeEvent upd).events.lookup item.1.eventId = some (rowOf item) :=
  storeEvents_new ((filterDuplicates_kept b).apart.filter _) hi upd

include hupdate in
theorem exists_newItem {e : String} {row : EventRow} (hn : tables.events.lookup e = none)
    (hr : ((newItems tables b).foldl storeEvent upd).events.lookup e = some row) :
    ∃ item ∈ newItems tables b, item.1.eventId = e := by
  by_contra hcon
  rw [storeEvents_other,(updateOutliers_ok hupdate).2,hn] at hr
  · simp at hr
  · rintro item hi rfl
    exact hcon ⟨item,hi,rfl⟩

end Rows

theorem persistEvents_stored (h : persistEvents tables batch nl d = .ok tables') :
    Stored tables batch tables' := by
  obtain ⟨ud,sd,hupdate,hs,rfl⟩ := persistEvents_stages h
  obtain ⟨gs,rfl⟩ := storeMappings_eq hs
  obtain ⟨exs,hb⟩ := updateBackwardExtremities_eq _ _
  rw [handleMultPrevEvents,hb]
  have hke := filterDuplicates_kept batch
  obtain ⟨⟨he,-,-⟩,hr⟩ := updateOutliers_ok hupdate
  refine ⟨?_,?_,?_,?_⟩
  · intro eid row hrow
    refine ⟨_,(lookup_old hrow ud).trans ((hr eid).trans (by rw [hrow]; rfl)),?_⟩
    split
    · next hcl =>
      obtain ⟨item,hi,hid,hc⟩ := hcl
      exact .inr ⟨rfl,item,hke.sub item hi,hid,hc⟩
    · exact .inl rfl
  · intro eid row hno hrow
    obtain ⟨item,hi,rfl⟩ := exists_newItem hupdate hno hrow
    have hsa := (lookup_newItem hi ud).symm.trans hrow
    exact ⟨item,hke.sub item (mem_newItems.mp hi).1,rfl,(some.inj hsa).symm⟩
  · intro item hi ho
    obtain ⟨k,hk,hid,hko⟩ := hke.all item hi
    refine ⟨k,hke.sub k hk,hid,hko ho,?_⟩
    rw [← hid]
    cases hl : tables.events.lookup k.1.eventId with
    | none => exact ⟨rowOf k,lookup_newItem (mem_newItems.mpr ⟨hk,hl⟩) ud,fun _ => hko ho⟩
    | some row =>
      refine ⟨_,(lookup_old hl ud).trans ((hr _).trans (by rw [hl]; rfl)),?_⟩
      intro hrej
      beta_reduce
      rw [if_pos ⟨k,hk,rfl,by simp [clears,hko ho,hrej]⟩]
      rfl
  · intro x y
    have hst : ((newItems tables batch).foldl storeEvent ud).eventEdges = tables.eventEdges := by
      obtain ⟨evs,heq⟩ := storeEvents_eq (newItems tables batch) ud
      rw [heq,← he]
    rw [mem_append,mem_edgesOf,hst]
    apply or_congr_right
    constructor
    · rintro ⟨item,hi,rfl,hrej,hy⟩
      exact ⟨(mem_newItems.mp hi).2,rowOf item,lookup_newItem hi ud,hrej,hy⟩
    · rintro ⟨hno,row,hrow,hrej,hy⟩
      obtain ⟨item,hi,rfl⟩ := exists_newItem hupdate hno hrow
      obtain rfl := some.inj ((lookup_newItem hi ud).symm.trans hrow)
      exact ⟨item,hi,rfl,hrej,hy⟩

theorem persistEvents_latest (h : persistEvents tables batch nl d = .ok tables') :
    tables'.forwardExtremities = updateForwardExtremities tables.forwardExtremities nl ∧
      tables'.currentState = updateCurrentState tables.currentState d := by
  obtain ⟨upd,sd,hu,hs,rfl⟩ := persistEvents_stages h
  obtain ⟨⟨-,hf,hc⟩,-⟩ := updateOutliers_ok hu
  obtain ⟨evs,he⟩ := storeEvents_eq (newItems tables batch) upd
  obtain ⟨gs,rfl⟩ := storeMappings_eq hs
  exact ⟨by rw [he,← hf],by rw [he,← hc]⟩

theorem persistBatch_stored {r : Room} {now : Circumstances} {fuel : ℕ}
    (h : persistBatch r now fuel tables batch = .ok tables') : Stored tables batch tables' := by
  obtain ⟨⟨nl,d⟩,-,hp⟩ := bind_eq_ok.mp h
  exact persistEvents_stored hp

def EdgesStored (tables : Tables) : Prop :=
  ∀ x y, (x,y) ∈ tables.eventEdges ↔ ∃ row, tables.events.lookup x = some row ∧
    row.rejected = false ∧ y ∈ row.event.prevEventIds

theorem Stored.edgesStored (h : Stored tables batch tables') (he : EdgesStored tables) :
    EdgesStored tables' := by
  intro x y
  rw [h.edges,he]
  constructor
  · rintro (⟨row,hr,hrej,hy⟩ | ⟨-,hn⟩)
    · obtain ⟨row',hr',rfl | ⟨rfl,-⟩⟩ := h.old x row hr
      · exact ⟨row',hr',hrej,hy⟩
      · exact ⟨clearRow row,hr',hrej,hy⟩
    · exact hn
  · rintro ⟨row',hr',hrej,hy⟩
    cases hl : tables.events.lookup x with
    | none => exact .inr ⟨rfl,row',hr',hrej,hy⟩
    | some row =>
      obtain ⟨row₁,hr₁,hs⟩ := h.old x row hl
      obtain rfl := some.inj (hr₁.symm.trans hr')
      rcases hs with rfl | ⟨rfl,-⟩
      · exact .inl ⟨row₁,rfl,hrej,hy⟩
      · exact .inl ⟨row,rfl,hrej,hy⟩

theorem Reached.edgesStored {r : Room} {ad : Tables → Circumstances → Batch → Tables → Prop}
    (h : Reached r ad tables) : EdgesStored tables := by
  induction h with
  | start => simp [EdgesStored,noTables]
  | step now fuel batch _ persisted _ ih => exact (persistBatch_stored persisted).edgesStored ih

end Synapse.EventPersistence
