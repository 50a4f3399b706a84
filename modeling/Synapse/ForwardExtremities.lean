import Synapse.EventTables
import Synapse.References

/-!
# Forward extremities

The forward extremities are meant to be the accepted events that no other
accepted event leads to through rejected and soft-failed events only. They are
as long as the events in between were stored with their edges before, as
soft-failed events that are not outliers, and no event arrives after those
that lead to it through failed events.
-/

set_option autoImplicit false

namespace Synapse.EventPersistence
open Python Loops References List Option Relation
open Bool (and_eq_true not_eq_true')

section Meaning

variable (tables : Tables)

def prevsOf (eventId : String) : List String :=
  ((tables.events.lookup eventId).map (fun row => row.event.prevEventIds)).getD []

def Accepted (eventId : String) : Prop :=
  ∃ row, tables.events.lookup eventId = some row ∧ row.isAccepted

def Failed (eventId : String) : Prop :=
  ∃ row, tables.events.lookup eventId = some row ∧ (row.rejected || row.softFailed)

def Through (x y : String) : Prop := y ∈ prevsOf tables x ∧ Failed tables y

def Leads (x y : String) : Prop :=
  ∃ last, ReflTransGen (Through tables) x last ∧ y ∈ prevsOf tables last

def IsExtremity (eventId : String) : Prop :=
  Accepted tables eventId ∧
    ¬ ∃ other, other ≠ eventId ∧ Accepted tables other ∧ Leads tables other eventId

def Followed (eventId : String) : Prop :=
  ∃ row, tables.events.lookup eventId = some row ∧ row.softFailed = true ∧
    row.rejected = false ∧ row.outlier = false

end Meaning

section Tables

variable {tables : Tables}

variable {y : String}

theorem mem_prevsOf {x : String} : y ∈ prevsOf tables x ↔
    ∃ row, tables.events.lookup x = some row ∧ y ∈ row.event.prevEventIds := by
  rw [prevsOf]
  cases tables.events.lookup x <;> simp

theorem Followed.failed {eventId : String} (h : Followed tables eventId) :
    Failed tables eventId := by
  obtain ⟨row,hr,hs,-,-⟩ := h
  exact ⟨row,hr,by simp [hs]⟩

theorem Followed.edge (he : EdgesStored tables) {x : String} (h : Followed tables x) :
    (x,y) ∈ tables.eventEdges ↔ y ∈ prevsOf tables x := by
  obtain ⟨row,hrow,-,hr,-⟩ := h
  rw [he,mem_prevsOf]
  simp [hrow,hr]

def Follows (tables : Tables) (x y : String) : Prop :=
  Followed tables x ∧ y ∈ prevsOf tables x

theorem mem_prevsOfRejected (hed : EdgesStored tables) (lv : List String) (y : String) :
    y ∈ prevsOfRejected tables lv ↔ ∃ x ∈ lv, Follows tables x y := by
  simp only [prevsOfRejected,List.mem_map,mem_filter,decide_eq_true_eq,Prod.exists]
  constructor
  · rintro ⟨x,y',⟨he,hx,hr⟩,rfl⟩
    obtain ⟨row,hr',hrej,hy⟩ := (hed x y').mp he
    simp only [hr',any_some,hrej,Bool.or_false,and_eq_true,not_eq_true'] at hr
    exact ⟨x,hx,⟨row,hr',hr.2,hrej,hr.1⟩,mem_prevsOf.mpr ⟨row,hr',hy⟩⟩
  · rintro ⟨x,hx,hf,hy⟩
    have he := (hf.edge hed).mpr hy
    obtain ⟨row,hr,hs,hrej,ho⟩ := hf
    exact ⟨x,y,⟨he,hx,by simp [hr,hs,ho]⟩,rfl⟩

theorem mem_getEventsWhichArePrevs (he : EdgesStored tables) {eids : Finset String} :
    y ∈ getEventsWhichArePrevs tables eids ↔
      y ∈ eids ∧ ∃ x, Accepted tables x ∧ y ∈ prevsOf tables x := by
  simp only [getEventsWhichArePrevs,List.mem_toFinset,List.mem_map,mem_filter,
    decide_eq_true_eq,Prod.exists]
  constructor
  · rintro ⟨x,y',⟨hed,hy,hr⟩,rfl⟩
    obtain ⟨row,hr',-,hp⟩ := (he x y').mp hed
    rw [hr'] at hr
    exact ⟨hy,x,⟨row,hr',hr⟩,mem_prevsOf.mpr ⟨row,hr',hp⟩⟩
  · rintro ⟨hy,x,⟨row,hr,ha⟩,hp⟩
    obtain ⟨row',hr',hp'⟩ := mem_prevsOf.mp hp
    obtain rfl := some.inj (hr.symm.trans hr')
    have hrej : row.rejected = false := by
      simp only [EventRow.isAccepted,and_eq_true,not_eq_true'] at ha
      exact ha.1.2
    exact ⟨x,y,⟨(he x y).mpr ⟨row,hr,hrej,hp'⟩,hy,by simp [hr,ha]⟩,rfl⟩

variable {batch : Batch}

def AcceptedIn (batch : Batch) (eventId : String) : Prop :=
  ∃ item ∈ batch, isAccepted item ∧ item.1.eventId = eventId

def PrevIn (batch : Batch) (y : String) : Prop :=
  ∃ item ∈ batch, isAccepted item ∧ y ∈ item.1.prevEventIds

theorem calculateNewExtremities_ok (he : EdgesStored tables) {fuel : ℕ} {lt res : Finset String}
    (h : calculateNewExtremities tables fuel batch lt = .ok res) (e : String) :
    e ∈ res ↔ (e ∈ lt ∨ AcceptedIn batch e) ∧ ¬ PrevIn batch e ∧
      (¬ ∃ x, Accepted tables x ∧ e ∈ prevsOf tables x) ∧
      ¬ ∃ x, PrevIn batch x ∧ TransGen (Follows tables) x e := by
  have hn : ∀ x, x ∈ ((newEvents batch).map NewEvent.eventId).toFinset ↔ AcceptedIn batch x := by
    simp [newEvents,AcceptedIn,and_assoc]
  have hpr : ∀ x, x ∈ (newEvents batch).flatMap NewEvent.prevEventIds ↔ PrevIn batch x := by
    intro x
    simp only [newEvents,mem_flatMap,List.mem_map,mem_filter]
    constructor
    · rintro ⟨e,⟨it,⟨hin,ha⟩,rfl⟩,hx⟩
      exact ⟨it,hin,ha,hx⟩
    · rintro ⟨it,hin,ha,hx⟩
      exact ⟨it.1,⟨it,⟨hin,ha⟩,rfl⟩,hx⟩
  obtain ⟨ex,hw,h⟩ := bind_eq_ok.mp h
  cases h
  have hex := Worklist.walkBatches_ok (mem_prevsOfRejected he) (by omega) hw
  simp only [Finset.mem_sdiff,mem_getEventsWhichArePrevs he,hex,hpr,Finset.mem_union,
    hn,List.mem_toFinset]
  constructor
  · rintro ⟨⟨⟨hin,hp⟩,hd⟩,hf⟩
    exact ⟨hin,hp,fun h => hd ⟨⟨hin,hp⟩,h⟩,hf⟩
  · rintro ⟨hin,hp,hd,hf⟩
    exact ⟨⟨⟨hin,hp⟩,fun h => hd h.2⟩,hf⟩

theorem calculateNewExtremities_unique (he : EdgesStored tables) {fuel fuel' : ℕ}
    {lt res res' : Finset String} (h : calculateNewExtremities tables fuel batch lt = .ok res)
    (h' : calculateNewExtremities tables fuel' batch lt = .ok res') : res = res' := by
  ext e
  rw [calculateNewExtremities_ok he h,calculateNewExtremities_ok he h']

theorem calculateNewExtremities_eventually (he : EdgesStored tables) (batch : Batch)
    (lt : Finset String) :
    ∃ res, Eventually (fun fuel => calculateNewExtremities tables fuel batch lt) res := by
  have hen : ∀ fuel, (tables.eventEdges.map Prod.snd).toFinset.card+1 ≤ fuel →
      ∃ res, calculateNewExtremities tables fuel batch lt = .ok res := by
    intro fuel hf
    obtain ⟨ex,hw⟩ := Worklist.walkBatches_ends (E := Exn SynapseError)
      (mem_prevsOfRejected he) (fun x y hxy => by
        rw [List.mem_toFinset]
        exact mem_map.mpr ⟨(x,y),(hxy.1.edge he).mpr hxy.2,rfl⟩) 100
      ((newEvents batch).flatMap NewEvent.prevEventIds) hf
    simp only [calculateNewExtremities,getPrevsBeforeRejected,hw]
    exact ⟨_,rfl⟩
  obtain ⟨res,hr⟩ := hen _ le_rfl
  refine ⟨res,(tables.eventEdges.map Prod.snd).toFinset.card+1,?_⟩
  intro fuel hf
  obtain ⟨o,ho⟩ := hen fuel hf
  exact ho.trans (by rw [calculateNewExtremities_unique he ho hr])

end Tables

section Step

variable {tables tables' : Tables} {batch : Batch}

/-- What is required of a batch. Its events are stored with the verdict and
the prev events they come with; the failed events that an accepted one leads
through were stored before with their edges; an accepted event of the batch
that a stored one already leads to is a prev event of a stored one; and no
extremity is pruned. -/
structure Clean (room : Room) (tables : Tables) (now : Circumstances) (batch : Batch)
    (tables' : Tables) : Prop where
  recorded : ∀ item ∈ batch, item.1.outlier = false → ∀ row,
    tables'.events.lookup item.1.eventId = some row → row.rejected = item.2.isRejected ∧
      row.softFailed = item.1.softFailed ∧ row.event.prevEventIds = item.1.prevEventIds
  behind : ∀ x y, Accepted tables' x → TransGen (Through tables') x y → Followed tables y
  early : ∀ x e, AcceptedIn batch e → Accepted tables x → Leads tables x e →
    ∃ y, Accepted tables y ∧ e ∈ prevsOf tables y
  acyclic : Acyclic (prevsOf tables')
  kept : ∀ fuel newLatest state,
    calculateNewExtremities tables fuel batch tables.forwardExtremities = .ok newLatest →
    getNewStateAfterEvents tables room now fuel batch tables.forwardExtremities newLatest =
      .ok state → state.latestEventIds = newLatest

variable {x e : String} {room : Room} {now : Circumstances}

section

variable (h : Stored tables batch tables')
include h

theorem Stored.prevsOf {row : EventRow}
    (hr : tables.events.lookup x = some row) : prevsOf tables' x = prevsOf tables x := by
  obtain ⟨row',hr',rfl | ⟨rfl,-⟩⟩ := h.old x row hr
  · simp [EventPersistence.prevsOf,hr,hr']
  · simp [EventPersistence.prevsOf,hr,hr',clearRow]

theorem Stored.accepted (hx : Accepted tables x) : Accepted tables' x := by
  obtain ⟨row,hr,ha⟩ := hx
  obtain ⟨row',hr',rfl | ⟨rfl,-⟩⟩ := h.old x row hr
  · exact ⟨row',hr',ha⟩
  · refine ⟨clearRow row,hr',?_⟩
    simp only [EventRow.isAccepted,and_eq_true] at ha ⊢
    exact ⟨⟨rfl,ha.1.2⟩,ha.2⟩

theorem Stored.failed (hx : Failed tables x) : Failed tables' x := by
  obtain ⟨row,hr,hf⟩ := hx
  obtain ⟨row',hr',rfl | ⟨rfl,-⟩⟩ := h.old x row hr
  · exact ⟨row',hr',hf⟩
  · exact ⟨clearRow row,hr',hf⟩

end

theorem mem_lookup_of_prevsOf {y : String} (h : y ∈ prevsOf tables x) :
    ∃ row, tables.events.lookup x = some row := by
  obtain ⟨row,hr,-⟩ := mem_prevsOf.mp h
  exact ⟨row,hr⟩

section

variable (h : Stored tables batch tables')
include h

theorem Stored.leads {y : String} (hxy : Leads tables x y) : Leads tables' x y := by
  have hs : ∀ {a b}, b ∈ EventPersistence.prevsOf tables a →
      b ∈ EventPersistence.prevsOf tables' a := by
    intro a b hab
    obtain ⟨row,hr⟩ := mem_lookup_of_prevsOf hab
    rwa [h.prevsOf hr]
  obtain ⟨la,hp,hl⟩ := hxy
  refine ⟨la,?_,hs hl⟩
  exact ReflTransGen.mono (fun a b hab => ⟨hs hab.1,h.failed hab.2⟩) x la hp

theorem Stored.acceptedIn (hc : Clean room tables now batch tables') {it : NewEvent × EventContext}
    (hi : it ∈ batch) (ha : isAccepted it) : Accepted tables' it.1.eventId := by
  simp only [isAccepted,and_eq_true,not_eq_true'] at ha
  obtain ⟨k,hk,hid,hko,row,hr,ho⟩ := h.copies it hi ha.1.1
  obtain ⟨hrej,hs,-⟩ := hc.recorded it hi ha.1.1 row hr
  obtain ⟨hkr,-,-⟩ := hc.recorded k hk hko row (by rw [hid,hr])
  refine ⟨row,hr,?_⟩
  simp [EventRow.isAccepted,hrej,hs,ha.1.2,ha.2,ho (by rw [← hkr,hrej,ha.1.2])]

theorem Stored.accepted_iff (hcl : Clean room tables now batch tables')
    (e : String) : Accepted tables' e ↔ Accepted tables e ∨ AcceptedIn batch e := by
  constructor
  · rintro ⟨row',hr',ha⟩
    have hf := ha
    simp only [EventRow.isAccepted,and_eq_true] at hf
    cases hl : tables.events.lookup e with
    | none =>
      obtain ⟨it,hi,hid,rfl⟩ := h.new e row' hl hr'
      exact .inr ⟨it,hi,ha,hid⟩
    | some row =>
      obtain ⟨row₁,hr₁,hs⟩ := h.old e row hl
      obtain rfl := some.inj (hr₁.symm.trans hr')
      rcases hs with rfl | ⟨rfl,it,hi,rfl,hc⟩
      · exact .inl ⟨row₁,hl,ha⟩
      · -- an outlier until now, which the copy in the batch has cleared
        simp only [clears,and_eq_true,not_eq_true'] at hc
        obtain ⟨-,hso,-⟩ := hcl.recorded it hi hc.1 _ hr'
        refine .inr ⟨it,hi,?_,rfl⟩
        simp [isAccepted,hc,← hso,hf.2]
  · rintro (ha | ⟨it,hi,ha,rfl⟩)
    · exact h.accepted ha
    · exact h.acceptedIn hcl hi ha

section

variable (hc : Clean room tables now batch tables')
include hc

theorem Stored.prevsOf_item {it : NewEvent × EventContext} (hi : it ∈ batch) (ha : isAccepted it) :
    EventPersistence.prevsOf tables' it.1.eventId = it.1.prevEventIds := by
  obtain ⟨row,hr,-⟩ := h.acceptedIn hc hi ha
  simp only [isAccepted,and_eq_true,not_eq_true'] at ha
  rw [EventPersistence.prevsOf,hr]
  exact (hc.recorded it hi ha.1.1 row hr).2.2

theorem Clean.follows
    {la : String} (hx : Accepted tables' x) (hp : TransGen (Through tables') x la) :
    ∃ first, first ∈ EventPersistence.prevsOf tables' x ∧
      ReflTransGen (Follows tables) first la := by
  induction hp with
  | single hs => exact ⟨_,hs.1,.refl⟩
  | @tail mid la hpre hs ih =>
    obtain ⟨first,hf,hr⟩ := ih
    have hm := hc.behind x mid hx hpre
    obtain ⟨row,hrow,hfl⟩ := hm
    refine ⟨first,hf,hr.tail ⟨⟨row,hrow,hfl⟩,?_⟩⟩
    rw [← h.prevsOf hrow]
    exact hs.1

theorem Clean.leads_new (hx : Accepted tables' x) :
    Leads tables' x e ↔ e ∈ EventPersistence.prevsOf tables' x ∨
      ∃ y ∈ EventPersistence.prevsOf tables' x, TransGen (Follows tables) y e := by
  constructor
  · rintro ⟨la,hp,hl⟩
    rcases reflTransGen_iff_eq_or_transGen.mp hp with rfl | hp
    · exact .inl hl
    · obtain ⟨first,hfi,hr⟩ := hc.follows h hx hp
      obtain ⟨row,hrow,hfl⟩ := hc.behind x la hx hp
      refine .inr ⟨first,hfi,TransGen.tail' hr ⟨⟨row,hrow,hfl⟩,?_⟩⟩
      rwa [← h.prevsOf hrow]
  · rintro (hd | ⟨y,hy,hp⟩)
    · exact ⟨x,.refl,hd⟩
    · -- each node but the last on the path is a followed, hence failed, event
      have hs : ∀ {a b}, Follows tables a b → b ∈ EventPersistence.prevsOf tables' a := by
        rintro a b ⟨⟨row,hrow,-⟩,hab⟩
        rwa [h.prevsOf hrow]
      have hfa : ∀ {a b}, Follows tables a b → Failed tables' a := fun hab => h.failed hab.1.failed
      obtain ⟨la,hpre,hl⟩ := TransGen.tail'_iff.mp hp
      refine ⟨la,?_,hs hl⟩
      have hre : ∀ {a}, ReflTransGen (Follows tables) y a → Failed tables' a →
          ReflTransGen (Through tables') x a := by
        intro a ha
        induction ha with
        | refl => exact fun hf => .single ⟨hy,hf⟩
        | tail _ hab ih => exact fun hf => (ih (hfa hab)).tail ⟨hs hab,hf⟩
      exact hre hpre (hfa hl)

theorem Clean.leads_old (hx : Accepted tables x) (hxe : Leads tables' x e) : Leads tables x e := by
  obtain ⟨row,hrow,-⟩ := id hx
  rcases (hc.leads_new h (h.accepted hx)).mp hxe with hd | ⟨y,hy,hp⟩
  · rw [h.prevsOf hrow] at hd
    exact ⟨x,.refl,hd⟩
  · rw [h.prevsOf hrow] at hy
    obtain ⟨la,hpre,hl⟩ := TransGen.tail'_iff.mp hp
    refine ⟨la,?_,hl.2⟩
    have hr : ∀ {a}, ReflTransGen (Follows tables) y a → Failed tables a →
        ReflTransGen (Through tables) x a := by
      intro a ha
      induction ha with
      | refl => exact fun hf => .single ⟨hy,hf⟩
      | tail _ hab ih => exact fun hf => (ih hab.1.failed).tail ⟨hab.2,hf⟩
    exact hr hpre hl.1.failed

end

end

theorem not_leads_self (ha : Acyclic (prevsOf tables)) (h : Leads tables x e) : x ≠ e := by
  rintro rfl
  obtain ⟨la,hp,hl⟩ := h
  apply ha x
  have hup : ReflTransGen (Refers (prevsOf tables)) la x := reflTransGen_swap.mp
      (ReflTransGen.mono (fun a b (hab : Through tables a b) => hab.1) x la hp)
  exact TransGen.head' hl hup

theorem Clean.calculated (hed : EdgesStored tables)
    (hla : ∀ e, e ∈ tables.forwardExtremities ↔ IsExtremity tables e)
    (h : Stored tables batch tables') (hc : Clean room tables now batch tables') {fuel : ℕ}
    {res : Finset String}
    (hca : calculateNewExtremities tables fuel batch tables.forwardExtremities = .ok res)
    (e : String) : e ∈ res ↔ IsExtremity tables' e := by
  -- the two searches together find what an accepted event of the batch leads to
  have hnew : (¬ PrevIn batch e ∧ ¬ ∃ x, PrevIn batch x ∧ TransGen (Follows tables) x e) ↔
      ¬ ∃ x, AcceptedIn batch x ∧ Leads tables' x e := by
    rw [← not_or,not_iff_not]
    constructor
    · rintro (⟨it,hi,ha,he⟩ | ⟨y,⟨it,hi,ha,hy⟩,hp⟩)
      all_goals
        refine ⟨it.1.eventId,⟨it,hi,ha,rfl⟩,?_⟩
        rw [hc.leads_new h (h.acceptedIn hc hi ha),h.prevsOf_item hc hi ha]
      · exact .inl he
      · exact .inr ⟨y,hy,hp⟩
    · rintro ⟨x,⟨it,hi,ha,rfl⟩,hl⟩
      rw [hc.leads_new h (h.acceptedIn hc hi ha),h.prevsOf_item hc hi ha] at hl
      rcases hl with he | ⟨y,hy,hp⟩
      · exact .inl ⟨it,hi,ha,he⟩
      · exact .inr ⟨y,⟨it,hi,ha,hy⟩,hp⟩
  rw [calculateNewExtremities_ok hed hca,hla]
  unfold IsExtremity
  rw [h.accepted_iff hc e]
  constructor
  · rintro ⟨hin,hpr,hd,hfar⟩
    refine ⟨hin.imp_left (fun hext => hext.1),?_⟩
    rintro ⟨x,hne,hx,hl⟩
    rcases (h.accepted_iff hc x).mp hx with ho | hb
    · have hl' := hc.leads_old h ho hl
      rcases hin with hext | hb
      · exact hext.2 ⟨x,hne,ho,hl'⟩
      · exact hd (hc.early x e hb ho hl')
    · exact hnew.mp ⟨hpr,hfar⟩ ⟨x,hb,hl⟩
  · rintro ⟨hin,hn⟩
    have hf : ∀ x, Accepted tables' x → ¬ Leads tables' x e :=
      fun x hx hl => hn ⟨x,not_leads_self hc.acyclic hl,hx,hl⟩
    obtain ⟨hpr,hfar⟩ := hnew.mpr (by
      rintro ⟨x,⟨it,hi,ha,rfl⟩,hl⟩
      exact hf _ (h.acceptedIn hc hi ha) hl)
    refine ⟨hin.imp_left (fun ha => ⟨ha,?_⟩),hpr,?_,hfar⟩
    · rintro ⟨x,-,hx,hl⟩
      exact hf x (h.accepted hx) (h.leads hl)
    · rintro ⟨x,hx,he⟩
      exact hf x (h.accepted hx) (h.leads ⟨x,.refl,he⟩)

end Step

section Run

variable {room : Room} {tables tables' : Tables}

theorem calculatedLatest {now : Circumstances} {fuel : ℕ} {b : Batch} {nl : Option (Finset String)}
    {d : Option DeltaState}
    (h : calculateNewForwardExtremitiesAndStateDelta tables room now fuel b = .ok (nl,d)) :
    updateForwardExtremities tables.forwardExtremities nl = nl.getD tables.forwardExtremities ∧
      ∃ new, calculateNewExtremities tables fuel b tables.forwardExtremities = .ok new ∧
        (nl.getD tables.forwardExtremities = new ∨ ∃ state,
          getNewStateAfterEvents tables room now fuel b tables.forwardExtremities new =
            .ok state ∧ nl.getD tables.forwardExtremities = state.latestEventIds) := by
  obtain ⟨new,hn,h⟩ := bind_eq_ok.mp h
  split at h
  · next hsame =>
    cases h
    exact ⟨rfl,new,hn,.inl hsame.symm⟩
  · split at h
    · simp at h
    · next hne =>
      split at h
      · cases h
        exact ⟨if_neg hne,new,hn,.inl rfl⟩
      · obtain ⟨state,hs,h⟩ := bind_eq_ok.mp h
        split at h
        · simp at h
        · next hne' =>
          cases h
          exact ⟨if_neg hne',new,hn,.inr ⟨state,hs,rfl⟩⟩

theorem Reached.extremities (h : Reached room (Clean room) tables) (e : String) :
    e ∈ tables.forwardExtremities ↔ IsExtremity tables e := by
  induction h generalizing e with
  | start => simp [noTables,IsExtremity,Accepted]
  | @step tables tables' now fuel batch before persisted required ih =>
    obtain ⟨⟨nl,d⟩,hcalc,hp⟩ := bind_eq_ok.mp persisted
    obtain ⟨hl,new,hn,hlast⟩ := calculatedLatest hcalc
    have hk : nl.getD tables.forwardExtremities = new := by
      rcases hlast with hlast | ⟨state,hs,hlast⟩
      · exact hlast
      · exact hlast.trans (required.kept fuel new state hn hs)
    rw [(persistEvents_latest hp).1,hl,hk]
    exact required.calculated before.edgesStored ih (persistBatch_stored persisted) hn e

/-- In a run of clean batches, the set calculated for each batch is that of the
accepted events that no other accepted event leads to through failed events
only. -/
theorem extremities_exact_of_clean (h : Reached room (Clean room) tables) {now : Circumstances}
    {fuel : ℕ} {batch : Batch} (hstep : persistBatch room now fuel tables batch = .ok tables')
    (hclean : Clean room tables now batch tables') :
    ∃ result, Eventually (fun fuel =>
        calculateNewExtremities tables fuel batch tables.forwardExtremities) result ∧
      ∀ e, e ∈ result ↔ IsExtremity tables' e := by
  obtain ⟨result,n,hresult⟩ := calculateNewExtremities_eventually h.edgesStored batch
    tables.forwardExtremities
  refine ⟨result,⟨n,hresult⟩,?_⟩
  exact hclean.calculated h.edgesStored h.extremities (persistBatch_stored hstep) (hresult n le_rfl)

end Run

instance (tables : Tables) (eventId : String) : Decidable (Failed tables eventId) :=
  decidable_of_iff ((tables.events.lookup eventId).any
    (fun row => row.rejected || row.softFailed) = true) (by
      rw [Failed]
      cases tables.events.lookup eventId <;> simp)

instance (tables : Tables) (eventId : String) : Decidable (Accepted tables eventId) :=
  decidable_of_iff ((tables.events.lookup eventId).any EventRow.isAccepted = true) (by
    rw [Accepted]
    cases tables.events.lookup eventId <;> simp)

instance (tables : Tables) (eventId : String) : Decidable (Followed tables eventId) :=
  decidable_of_iff ((tables.events.lookup eventId).any
    (fun row => row.softFailed && !row.rejected && !row.outlier) = true) (by
      rw [Followed]
      cases tables.events.lookup eventId <;> simp [and_assoc])

def smallRoomEvent (eventId type : String) (stateKey : Option String)
    (prevEventIds : List String) : Event :=
  { eventId := eventId, roomId := "!r:x", sender := "@a:x", type := type, stateKey := stateKey,
    content := [], prevEventIds := prevEventIds, authEventIds := [], originServerTs := 0,
    topLevelRedacts := .null, roomVersion := .v10, rejectedReason := none }

def smallRoom : Room where
  stateForGroup group :=
    if group = 2 then
      (AList.insert (EventTypes.create,"") "$create" ∅).insert ("m.room.topic","") "$topic"
    else AList.insert (EventTypes.create,"") "$create" ∅
  resolveStateGroups groups := .group (groups.sup id)
  isMineId _ := false
  py := default

def smallRoomNow : Circumstances where
  now := 0
  missing := Iteration.sortedBy id (fun _ _ h => h)
  dropped := Iteration.sortedBy id (fun _ _ h => h)
  prevs := Iteration.sortedBy id (fun _ _ h => h)
  isServerStillJoined _ _ _ := true

def accept (event : Event) (group : ℕ) : NewEvent × EventContext :=
  (⟨event,0,false,false⟩,⟨none,some group,some group,∅⟩)

def softFail (event : Event) (group : ℕ) : NewEvent × EventContext :=
  (⟨event,0,false,true⟩,⟨none,some group,some group,∅⟩)

def reject (event : Event) (group : ℕ) : NewEvent × EventContext :=
  (⟨event,0,false,false⟩,⟨some "auth_error",some group,some group,∅⟩)

def afterBatch (tables : Tables) (batch : Batch) : Tables :=
  (persistBatch smallRoom smallRoomNow 10 tables batch).toOption.getD noTables

theorem afterBatch_ok {tables : Tables} {b : Batch}
    (h : (persistBatch smallRoom smallRoomNow 10 tables b).toOption.isSome) :
    persistBatch smallRoom smallRoomNow 10 tables b = .ok (afterBatch tables b) := by
  exact eq_ok_getD h noTables

def create : Event := smallRoomEvent "$create" EventTypes.create (some "") []

def created : Tables := afterBatch noTables [accept create 1]

def FailedPrevsStored (tables : Tables) (_now : Circumstances) (batch : Batch)
    (tables' : Tables) : Prop :=
  ∀ item ∈ batch, ∀ prev ∈ item.1.prevEventIds, Failed tables' prev → prev ∈ tables.events

def afterRejected : Tables :=
  afterBatch created [reject (smallRoomEvent "$failed" "m.room.message" none ["$create"]) 1]

def message : Batch :=
  [accept (smallRoomEvent "$message" "m.room.message" none ["$failed"]) 1]

/-- A message that follows a rejected event leaves the create event an
extremity: the edges of rejected events are not stored. -/
theorem extremities_dangling :
    Reached smallRoom FailedPrevsStored afterRejected ∧
      persistBatch smallRoom smallRoomNow 10 afterRejected message =
        .ok (afterBatch afterRejected message) ∧
      FailedPrevsStored afterRejected smallRoomNow message (afterBatch afterRejected message) ∧
      (calculateNewExtremities afterRejected 10 message
        afterRejected.forwardExtremities).toOption = some {"$create","$message"} ∧
      ¬ IsExtremity (afterBatch afterRejected message) "$create" := by
  refine ⟨?_,afterBatch_ok (by decide +kernel),by unfold FailedPrevsStored; decide +kernel,
    by decide +kernel,?_⟩
  · refine .step smallRoomNow 10 _ (.step smallRoomNow 10 _ .start (afterBatch_ok ?_) ?_)
      (afterBatch_ok ?_) ?_
    · decide +kernel
    · unfold FailedPrevsStored
      decide +kernel
    · decide +kernel
    · unfold FailedPrevsStored
      decide +kernel
  · rintro ⟨-,hnone⟩
    refine hnone ⟨"$message",by decide,by decide +kernel,"$failed",?_,by decide +kernel⟩
    exact .single ⟨by decide +kernel,by decide +kernel⟩

/-- A clean batch can be told from its rows: the failed prev events of stored
events were followed before it, and its events are new prev events of none. -/
theorem Clean.of_rows {room : Room} {tables tables' : Tables} {now : Circumstances} {b : Batch}
    (he : EdgesStored tables)
    (hr : ∀ it ∈ b, (tables'.events.lookup it.1.eventId).all (fun row =>
      row.rejected = it.2.isRejected ∧ row.softFailed = it.1.softFailed ∧
        row.event.prevEventIds = it.1.prevEventIds))
    (hb : ∀ x ∈ tables'.events.keys, ∀ y ∈ prevsOf tables' x, Failed tables' y → Followed tables y)
    (hea : ∀ it ∈ b, ∀ x ∈ tables.events.keys, it.1.eventId ∉ prevsOf tables x) (nm : String → ℕ)
    (hn : ∀ x ∈ tables'.events.keys, ∀ y ∈ prevsOf tables' x, nm y < nm x) (fuel : ℕ)
    (hk : (calculateNewExtremities tables fuel b
      tables.forwardExtremities).toOption = some tables'.forwardExtremities)
    (hg : (groupsOf tables b tables.forwardExtremities tables'.forwardExtremities).card = 1) :
    Clean room tables now b tables' := by
  have hkey : ∀ {tables : Tables} {x y : String}, y ∈ prevsOf tables x →
      x ∈ tables.events.keys := by
    intro tables x y hy
    exact AList.mem_keys.mp (Dict.mem_iff_lookup.mpr (mem_lookup_of_prevsOf hy))
  refine ⟨?_,?_,?_,?_,?_⟩
  · intro it hi _ row hrow
    simpa [hrow] using hr it hi
  · intro x y _ hp
    obtain ⟨la,-,hl⟩ := TransGen.tail'_iff.mp hp
    exact hb la (hkey hl.1) y hl.1 hl.2
  · rintro x e ⟨it,hi,-,rfl⟩ _ ⟨la,-,hl⟩
    exact absurd hl (hea it hi la (hkey hl))
  · have hs : SupportedOn (prevsOf tables') tables'.events.keys.toFinset := by
      intro x hne
      obtain ⟨y,hy⟩ := exists_mem_of_ne_nil _ hne
      exact mem_toFinset.mpr (hkey hy)
    exact acyclic_of_rank hs nm (fun x hx y hy => hn x (mem_toFinset.mp hx) y hy)
  · intro fuel' new state hn hs
    obtain rfl := calculateNewExtremities_unique he (toOption_eq_some.mp hk) hn
    obtain ⟨deltas,-,hs⟩ := bind_eq_ok.mp hs
    obtain ⟨-,-,hs⟩ := bind_eq_ok.mp hs
    simp only [only,if_pos hg] at hs
    split at hs
    · cases hs
      rfl
    · generalize knownDelta _ _ _ = known at hs
      cases known <;> cases hs <;> rfl

def afterSoftFailed : Tables :=
  afterBatch created [softFail (smallRoomEvent "$failed" "m.room.message" none ["$create"]) 1]

def smallRoomNumber (eventId : String) : ℕ := ["$create","$failed","$message"].idxOf eventId

theorem afterSoftFailed_reached : Reached smallRoom (Clean smallRoom) afterSoftFailed := by
  have hs : Reached smallRoom (Clean smallRoom) noTables := .start
  have hc : Reached smallRoom (Clean smallRoom) created := by
    refine .step smallRoomNow 10 _ hs (afterBatch_ok (by decide +kernel)) ?_
    exact Clean.of_rows hs.edgesStored (by decide +kernel) (by decide +kernel)
      (by decide +kernel) smallRoomNumber (by decide +kernel) 10 (by decide +kernel)
      (by decide +kernel)
  refine .step smallRoomNow 10 _ hc (afterBatch_ok (by decide +kernel)) ?_
  exact Clean.of_rows hc.edgesStored (by decide +kernel) (by decide +kernel)
    (by decide +kernel) smallRoomNumber (by decide +kernel) 10 (by decide +kernel)
    (by decide +kernel)

/-- A message that follows a soft-failed one replaces the create event. -/
theorem extremities_exact_of_clean_message :
    ∃ result, Eventually (fun fuel => calculateNewExtremities afterSoftFailed fuel message
        afterSoftFailed.forwardExtremities) result ∧
      ∀ e, e ∈ result ↔ IsExtremity (afterBatch afterSoftFailed message) e :=
  extremities_exact_of_clean afterSoftFailed_reached (afterBatch_ok (by decide +kernel))
    (Clean.of_rows afterSoftFailed_reached.edgesStored (by decide +kernel) (by decide +kernel)
      (by decide +kernel) smallRoomNumber (by decide +kernel) 10 (by decide +kernel)
      (by decide +kernel))

end Synapse.EventPersistence
