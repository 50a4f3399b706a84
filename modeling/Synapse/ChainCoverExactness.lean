import Synapse.ChainCoverLinks

/-!
# The index is exact

Persisting a batch keeps the index a chain cover of the indexed events, so
after any batches an event is in the auth chain of another exactly when its
position is reached.
-/

set_option autoImplicit false

namespace Synapse.ChainCoverIndex
open Python Loops References Relation ChainCover TopologicalSort
open List Dict Option AList

variable {all : Dict String StateRow} {tables : Tables}

section Calculate

variable {g : Gathered} {tc : Finset String} {chs : Dict String ChainPosition}

theorem lookup_update_old (hg : GatheredFrom all tables g) (hs : tc ⊆ g.toCalc)
    (hc : ∀ eid, eid ∈ chs ↔ eid ∈ tc) {eid : String} {p : ChainPosition}
    (h : tables.chains.lookup eid = some p) : (update tables.chains chs).lookup eid = some p := by
  have hn : chs.lookup eid = none := by
    rw [lookup_eq_none,hc]
    intro hin
    obtain ⟨l,hl⟩ := mem_iff_lookup.mp ((hg.toCalc eid).mp (hs hin))
    simp [(hg.auths eid l hl).2] at h
  rw [lookup_update,hn,h]
  rfl

theorem lookup_update_located (hg : GatheredFrom all tables g) {eid : String} {p : ChainPosition}
    (h : (update g.chainMap chs).lookup eid = some p) :
    (update tables.chains chs).lookup eid = some p := by
  rw [lookup_update] at h ⊢
  cases hn : chs.lookup eid with
  | some q => simpa [hn] using h
  | none =>
    rw [hn] at h
    rw [none_or,hg.chainMap eid p h]

section Linked

variable {place : String → Option ChainPosition} {dn : Finset String}
  {st : LinkMap × List ChainLink}
  (hi : Indexed all tables) (ho : ∀ eid p, tables.chains.lookup eid = some p → place eid = some p)
  (h : Linking all tables place dn st) (hrep : RepeatsReached (authsIn all) place)
  {a b : String} {q : ChainPosition} (hb : b ∈ tables.chains ∨ b ∈ dn) (hq : place b = some q)
include hi ho h hrep hb hq

theorem Linking.reaches {p : ChainPosition} (ha : a ∈ authsIn all b) (hp : place a = some p) :
    Reaches {lk | lk ∈ tables.links ++ st.2} q p := by
  rcases hb with hb | hb
  · obtain ⟨q₀,hq₀⟩ := mem_iff_lookup.mp hb
    obtain ⟨p₀,hp₀⟩ := hi.covers.closed b q₀ hq₀ a ha
    obtain rfl := some.inj (hq.symm.trans (ho b q₀ hq₀))
    obtain rfl := some.inj (hp.symm.trans (ho a p₀ hp₀))
    have hr := hi.covers.complete (hrep.mono ho) b q hq₀ a ha p hp₀
    exact hr.mono (fun _ hl => mem_append_left _ hl)
  · exact h.complete hrep b hb q hq a ha p hp

theorem Linking.reaches_below
    (hcl : ∀ e, e ∈ tables.chains ∨ e ∈ dn → ∀ aid ∈ authsIn all e,
      (aid ∈ tables.chains ∨ aid ∈ dn) ∧ ∃ p, place aid = some p)
    (hab : ReflTransGen (Refers (authsIn all)) a b) :
    (a ∈ tables.chains ∨ a ∈ dn) ∧
      ∃ p, place a = some p ∧ Reaches {lk | lk ∈ tables.links ++ st.2} q p := by
  induction hab using ReflTransGen.head_induction_on with
  | refl => exact ⟨hb,q,hq,.refl⟩
  | head hac _ ih =>
    obtain ⟨hin,r,hr,hre⟩ := ih
    obtain ⟨hin',p,hp⟩ := hcl _ hin _ hac
    exact ⟨hin',p,hp,hre.trans (h.reaches hi ho hrep hin hr hac hp)⟩

end Linked

theorem Linking.covers (hi : Indexed all tables) (ho : ∀ eid p, tables.chains.lookup eid = some p →
      (update tables.chains chs).lookup eid = some p)
    (hpl : Placed (authsIn all) (fun eid => (update tables.chains chs).lookup eid))
    (hcl : ∀ eid ∈ chs, ∀ aid ∈ authsIn all eid, aid ∈ update tables.chains chs)
    {done : Finset String} (hd : ∀ eid ∈ chs, eid ∈ done) {st : LinkMap × List ChainLink}
    (h : Linking all tables (fun eid => (update tables.chains chs).lookup eid) done st) :
    Covers (authsIn all) (fun eid => (update tables.chains chs).lookup eid)
      {link | link ∈ tables.links ++ st.2} := by
  have hc : ∀ eid p, (update tables.chains chs).lookup eid = some p →
      eid ∈ chs ∨ tables.chains.lookup eid = some p := by
    intro eid p hp
    by_cases hin : eid ∈ chs
    · exact .inl hin
    · rw [lookup_update,lookup_eq_none.mpr hin] at hp
      exact .inr hp
  refine ⟨hpl,?_,h.sound,?_⟩
  · intro a p ha b hb
    rcases hc a p ha with hin | hin
    · exact mem_iff_lookup.mp (hcl a hin b hb)
    · obtain ⟨q,hq⟩ := hi.covers.closed a p hin b hb
      exact ⟨q,ho b q hq⟩
  · intro hrep a p ha b hb q hq
    have hin := (hc a p ha).symm.imp (fun hl => mem_iff_lookup.mpr ⟨p,hl⟩) (hd a)
    exact h.reaches hi ho hrep hin ha hb hq

theorem calculateLinks_eventually (wf : WellFounded (Refers (authsIn all)))
    (hi : Indexed all tables) (hg : GatheredFrom all tables g)
    (hsub : tc ⊆ g.toCalc) (hcl : ∀ eid ∈ tc, ∀ aid ∈ authsIn all eid,aid ∈ g.chainMap ∨ aid ∈ tc)
    (hc : ∀ eid, eid ∈ chs ↔ eid ∈ tc)
    (hp : Placed (authsIn all) (fun eid => (update tables.chains chs).lookup eid))
    (orders : Orders) :
    ∃ lks, Eventually (fun fuel => calculateLinks tables orders fuel g tc
        (update g.chainMap chs)) lks ∧ (∀ lk ∈ lks, lk.1.1 ≠ lk.2.1) ∧
      Covers (authsIn all) (fun eid => (update tables.chains chs).lookup eid)
        {lk | lk ∈ tables.links ++ lks} := by
  have ho : ∀ eid p, tables.chains.lookup eid = some p →
      (update tables.chains chs).lookup eid = some p := fun _ _ h => lookup_update_old hg hsub hc h
  have hlo : ∀ eid ∈ tc, ∀ aid ∈ authsIn all eid,aid ∈ update g.chainMap chs := by
    intro eid hin aid hau
    rw [mem_update,hc]
    exact (hcl eid hin aid hau).symm
  obtain ⟨mp,hld,hm⟩ := loadLinks_ok (getChainLinks tables.links
    ((values (update g.chainMap chs)).map Prod.fst).toFinset)
    (fun lk hli => hi.apart lk (mem_of_mem_filter hli)) ∅
  have hst : Linking all tables
      (fun eid => (update tables.chains chs).lookup eid) ∅ (mp,[]) := by
    refine ⟨?_,?_,by simp,by simp⟩
    · intro lk hli
      rw [append_nil]
      rcases hm lk hli with hno | hin
      · simp [linksOf_empty] at hno
      · exact mem_of_mem_filter hin
    · intro p q hli
      rw [append_nil] at hli
      obtain ⟨a,b,ha,hb,hab⟩ := hi.covers.sound p q hli
      exact ⟨a,b,ho a p ha,ho b q hb,hab⟩
  have hls : ∀ eid ∈ tc, g.auths.lookup eid = some (authsIn all eid) := by
    intro eid hin
    obtain ⟨l,hl⟩ := mem_iff_lookup.mp ((hg.toCalc eid).mp (hsub hin))
    rw [hl,(hg.auths eid l hl).1]
  -- the invariant is carried along the topological order of the new events
  obtain ⟨srt,he,hs⟩ := sorted_eventually orders.sort tc g.auths
  obtain ⟨st,hsta,-,hf⟩ := hs.eventually_foldlM
    (f := linkEvent orders g (update g.chainMap chs))
    (P := fun done st => done ⊆ tc ∧
      Linking all tables (fun eid => (update tables.chains chs).lookup eid) done st) (by
      rintro done st eid hav hdone ⟨hdt,h⟩
      have hin : ∀ e ∈ tc, edgesWithin tc g.auths e ⊆ done → ∀ aid ∈ authsIn all e,
          aid ∈ tables.chains ∨ aid ∈ done := by
        intro e het hed aid ha
        rcases hcl e het aid ha with hold | hnew
        · obtain ⟨q,hq⟩ := mem_iff_lookup.mp hold
          exact .inl (mem_iff_lookup.mpr ⟨q,hg.chainMap aid q hq⟩)
        · exact .inr (hed (by simp [edgesWithin,hls e het,ha,hnew]))
      have hpd : ∀ e, e ∈ tables.chains ∨ e ∈ done →
          ∃ p, (update tables.chains chs).lookup e = some p := by
        intro e he
        rw [← mem_iff_lookup,mem_update,hc]
        exact he.symm.imp_left (hdt ·)
      obtain ⟨st',hev,hl⟩ := linkEvent_linking wf hp orders (fun _ _ => lookup_update_located hg)
        (mem_update.mpr (.inl ((hc eid).mpr hav.1))) (hls eid hav.1) (hlo eid hav.1) h (by
          -- the auth events have been linked before, now or in an earlier batch
          intro hrep b hb q hq a hab p hpa
          obtain ⟨-,p',hp',hr⟩ := h.reaches_below hi ho hrep (hin eid hav.1 hav.2.2 b hb) hq (by
            intro e he aid ha
            have hin' : aid ∈ tables.chains ∨ aid ∈ done := by
              rcases he with he | he
              · obtain ⟨r,hr⟩ := mem_iff_lookup.mp he
                exact .inl (mem_iff_lookup.mpr (hi.covers.closed e r hr aid ha))
              · exact hin e (hdt he) (hdone e he) aid ha
            exact ⟨hin',hpd aid hin'⟩) hab
          obtain rfl := some.inj (hpa.symm.trans hp')
          exact hr)
      exact ⟨st',hev,Finset.insert_subset hav.1 hdt,hl⟩)
    (by simp) ⟨Finset.empty_subset tc,hst⟩
  rw [Finset.empty_union,sorted_complete wf (fun e l hl => (hg.auths e l hl).1) hs] at hf
  refine ⟨st.2,?_,hf.apart,?_⟩
  · simp only [calculateLinks,hld]
    exact he.bind (hsta.bind (eventually_ok _))
  · apply hf.covers hi ho hp _ (fun eid hin => (hc eid).mp hin)
    intro eid hin aid hau
    obtain ⟨q,hq⟩ := mem_iff_lookup.mp (hlo eid ((hc eid).mp hin) aid hau)
    exact mem_iff_lookup.mpr ⟨q,lookup_update_located hg hq⟩

end Calculate

/-- What is calculated for a batch of events without a position. -/
structure CalculatedFrom (all : Dict String StateRow) (tables : Tables) (batch : Batch)
    (calculated : Calculated) : Prop where
  covers : Covers (authsIn all)
    (fun eventId => (update tables.chains calculated.chains).lookup eventId)
    {link | link ∈ tables.links ++ calculated.links}
  apart : ∀ link ∈ calculated.links, link.1.1 ≠ link.2.1
  split : ∀ eventId, eventId ∈ calculated.chains ∨ eventId ∈ calculated.toCalculate ↔
    eventId ∈ batch ∨ eventId ∈ tables.toCalculate
  blocked : ∀ eventId ∈ calculated.toCalculate, eventId ∉ calculated.chains →
    ∃ a ∈ authsIn all eventId, a ∉ tables.chains ∧ a ∉ calculated.chains
  chainIds : ∀ eventId c s, calculated.chains.lookup eventId = some (c,s) →
    c ≤ tables.lastChainId+calculated.used

variable {batch : Batch}

theorem Indexed.persist (hi : Indexed all tables)
    (hb : ∀ eid row, batch.lookup eid = some row → all.lookup eid = some row) {ca : Calculated}
    (h : CalculatedFrom all tables (unindexed tables batch) ca) :
    Indexed all { persistChainCoverIndex tables ca with
      events := update tables.events batch } := by
  have hu : ∀ eid, eid ∈ unindexed tables batch ↔ eid ∈ batch ∧ eid ∉ tables.chains := by
    intro eid
    rw [unindexed,mem_popAll,← AList.mem_keys]
  refine ⟨h.covers,?_,?_,?_,?_,?_⟩
  · intro lk hli
    exact (mem_append.mp hli).elim (hi.apart lk) (h.apart lk)
  · intro eid row hr
    rw [lookup_update] at hr
    rcases or_eq_some_iff.mp hr with hn | ⟨-,ho⟩
    · exact hb eid row hn
    · exact hi.events eid row ho
  · intro eid
    have hs := h.split eid
    rw [hu] at hs
    simp only [persistChainCoverIndex,mem_update,mem_popAll,hi.split,← AList.mem_keys]
    tauto
  · intro eid hin
    rw [persistChainCoverIndex,mem_popAll] at hin
    obtain ⟨a,ha,ho,hn⟩ := h.blocked eid hin.1 hin.2
    exact ⟨a,ha,fun hin => (mem_update.mp hin).elim hn ho⟩
  · intro eid c s hl
    rw [persistChainCoverIndex,lookup_update] at hl
    rcases or_eq_some_iff.mp hl with hn | ⟨-,ho⟩
    · exact h.chainIds eid c s hn
    · exact (hi.chainIds eid c s ho).trans (Nat.le_add_right _ _)

theorem indexed_noTables (all : Dict String StateRow) : Indexed all noTables := by
  refine ⟨⟨⟨?_,?_,?_⟩,?_,?_,?_⟩,?_,?_,?_,?_,?_⟩ <;> simp [noTables,Sound]

theorem authsIn_supported (all : Dict String StateRow) :
    SupportedOn (authsIn all) all.keys.toFinset := by
  intro eid hne
  rw [List.mem_toFinset]
  by_contra hn
  exact hne (by simp [authsIn,lookup_eq_none.mpr hn])

theorem finite_indexed (tables : Tables) : {eid | (tables.chains.lookup eid).isSome}.Finite := by
  apply (finite_toSet tables.chains.keys).subset
  intro eid hin
  exact mem_keys.mp (lookup_isSome.mp hin)

def stateRow (type stateKey : String) (authEventIds : List String) : StateRow :=
  ⟨type,stateKey,authEventIds⟩

def joinedRoom : Dict String StateRow :=
  [("$create",stateRow "m.room.create" "" []),
    ("$join",stateRow "m.room.member" "@a:x" ["$create"]),
    ("$renew",stateRow "m.room.member" "@a:x" ["$create","$join"]),
    ("$topic",stateRow "m.room.topic" "" ["$create","$renew"])].foldl
      (fun all entry => all.insert entry.1 entry.2) ∅

def increasing : Orders :=
  let strings : Iteration String := Iteration.sortedBy id (fun _ _ h => h)
  ⟨strings,⟨strings,fun _ => strings,fun _ => strings⟩,Iteration.sortedBy id (fun _ _ h => h),
    fun _ => strings⟩

def joinedRoomBatches : List (Orders × Batch) :=
  [(increasing,(joinedRoom.erase "$renew").erase "$join"),(increasing,joinedRoom)]

section

variable (wf : WellFounded (Refers (authsIn all)))
include wf

theorem calculateChainCoverIndex_eventually (hi : Indexed all tables)
    (hb : Fresh all tables batch) (orders : Orders) :
    ∃ ca, Eventually (fun fuel => calculateChainCoverIndex tables orders fuel batch)
      ca ∧ CalculatedFrom all tables batch ca := by
  obtain ⟨g,hga,hg,htc,hloc⟩ := gather_eventually hi hb orders
  obtain ⟨⟨tc,toCalculate⟩,hd,h⟩ := defer_eventually wf hg htc orders
  have hsub : tc ⊆ g.toCalc := fun eid hin => (h.split eid).mpr (.inl hin)
  have hbl : ∀ eid ∈ toCalculate, eid ∉ tc →
      ∃ a ∈ authsIn all eid, a ∉ tables.chains ∧ a ∉ tc := by
    intro eid hin hn
    have hcalc := (h.split eid).mpr (.inr hin)
    obtain ⟨a,ha,hmap,hat⟩ := h.blocked eid hcalc hn
    exact ⟨a,ha,fun hc => hmap (hloc eid hcalc a ha hc),hat⟩
  by_cases he : tc = ∅
  · refine ⟨⟨∅,[],toCalculate,0⟩,?_,?_,by simp,?_,?_,by simp⟩
    · refine hga.bind (hd.bind ?_)
      simp only [he]
      exact eventually_ok _
    · rw [append_nil]
      exact hi.covers
    · simp [← htc,h.split,he]
    · intro eid hin _
      simpa [he] using hbl eid hin
  · have hc : ∀ eid ∈ tc, ∀ aid ∈ authsIn all eid,aid ∈ g.chainMap ∨ aid ∈ tc := by
      intro eid hin
      apply h.closed eid _ hin
      rw [List.mem_toFinset,← AList.mem_keys,← hg.toCalc]
      exact hsub hin
    obtain ⟨chs,used,ha,hch,hp,hids⟩ := allocateChainIds_eventually wf hi hg hsub hc orders
    obtain ⟨lks,hl,hap,hco⟩ := calculateLinks_eventually wf hi hg hsub hc hch hp orders
    refine ⟨⟨chs,lks,toCalculate,used⟩,?_,hco,hap,?_,?_,hids⟩
    · refine hga.bind (hd.bind ?_)
      simp only [he]
      exact ha.bind (hl.bind (eventually_ok _))
    · simp [← htc,h.split,hch]
    · simpa only [hch] using hbl

theorem persistBatch_indexed (hi : Indexed all tables)
    (hb : ∀ eid row, batch.lookup eid = some row → all.lookup eid = some row) (orders : Orders) :
    ∃ tables', Eventually (fun fuel => persistBatch orders fuel tables batch) tables' ∧
      Indexed all tables' := by
  have hf : Fresh all tables (unindexed tables batch) := by
    intro eid row hr
    rw [unindexed,lookup_popAll] at hr
    split at hr
    · simp at hr
    · next hfr =>
      exact ⟨hb eid row hr,lookup_eq_none.mpr (fun hin => hfr (mem_keys.mp hin))⟩
  by_cases he : (unindexed tables batch).entries = []
  · refine ⟨{ tables with events := update tables.events batch },?_,?_⟩
    · simp only [persistBatch,he]
      exact eventually_ok _
    · -- persisting nothing new leaves the tables as they are
      have hno : ∀ eid, eid ∉ unindexed tables batch := by
        intro eid hin
        rw [AList.mem_keys,AList.keys,he] at hin
        simp at hin
      have h : CalculatedFrom all tables (unindexed tables batch) ⟨∅,[],tables.toCalculate,0⟩ := by
        refine ⟨?_,by simp,by simp [hno],?_,by simp⟩
        · rw [append_nil]
          exact hi.covers
        · intro eid hin _
          simpa using hi.blocked eid hin
      have hp := hi.persist hb h
      simp only [persistChainCoverIndex,append_nil] at hp
      exact hp
  · obtain ⟨ca,hc,h⟩ := calculateChainCoverIndex_eventually wf hi hf orders
    refine ⟨_,?_,hi.persist hb h⟩
    simp only [persistBatch,he]
    exact hc.bind (eventually_ok _)

end

theorem persistBatch_events {orders : Orders} {fuel : ℕ} {tables' : Tables}
    (h : persistBatch orders fuel tables batch = .ok tables') :
    tables'.events = update tables.events batch := by
  rw [persistBatch] at h
  split at h
  · obtain rfl := Except.ok.inj h
    rfl
  · obtain ⟨ca,-,hok⟩ := bind_eq_ok.mp h
    obtain rfl := Except.ok.inj hok
    rfl

def Drawn (all : Dict String StateRow) (batches : List (Orders × Batch)) : Prop :=
  ∀ batch ∈ batches, ∀ eventId row, batch.2.lookup eventId = some row →
    all.lookup eventId = some row

def Persisted (batches : List (Orders × Batch)) (eventId : String) : Prop :=
  ∃ batch ∈ batches, eventId ∈ batch.2

theorem foldlM_persistBatch_events {fuel : ℕ} {bs : List (Orders × Batch)} {tables' : Tables}
    (h : bs.foldlM (fun tables batch => persistBatch batch.1 fuel tables batch.2) tables =
      .ok tables') (eid : String) :
    eid ∈ tables'.events ↔ eid ∈ tables.events ∨ Persisted bs eid := by
  induction bs generalizing tables with
  | nil =>
    obtain rfl := Except.ok.inj h
    simp [Persisted]
  | cons batch bs ih =>
    obtain ⟨tables₁,hs,hr⟩ := bind_eq_ok.mp h
    rw [ih hr,persistBatch_events hs,mem_update]
    simp only [Persisted,exists_mem_cons_iff]
    tauto

/-- An event is indexed once its auth chain is stored. -/
theorem Indexed.indexed_iff (wf : WellFounded (Refers (authsIn all))) (hi : Indexed all tables)
    (a : String) : a ∈ tables.chains ↔
      ∀ b, ReflTransGen (Refers (authsIn all)) b a → b ∈ tables.events := by
  constructor
  · intro ha b hb
    refine (hi.split b).mpr (.inl ?_)
    induction hb using ReflTransGen.head_induction_on with
    | refl => exact ha
    | head hs _ ih =>
      obtain ⟨p,hp⟩ := mem_iff_lookup.mp ih
      exact mem_iff_lookup.mpr (hi.covers.closed _ p hp _ hs)
  · intro hst
    induction a using wf.induction with
    | _ a ih =>
      rcases (hi.split a).mp (hst a .refl) with hin | hd
      · exact hin
      · obtain ⟨b,hb,hn⟩ := hi.blocked a hd
        exact absurd (ih b hb (fun c hc => hst c (hc.tail hb))) hn

theorem persistBatches_indexed (wf : WellFounded (Refers (authsIn all)))
    {bs : List (Orders × Batch)} (hb : Drawn all bs) :
    ∃ tables, Eventually (fun fuel => persistBatches fuel bs) tables ∧
      (∀ a, a ∈ tables.chains ↔
        ∀ b, ReflTransGen (Refers (authsIn all)) b a → Persisted bs b) ∧
      Indexed all tables := by
  obtain ⟨tables,⟨n,hn⟩,hi⟩ := eventually_foldlM
    (f := fun fuel tables (batch : Orders × Batch) => persistBatch batch.1 fuel tables batch.2)
    (fun batch hin _ hi => persistBatch_indexed wf hi (hb batch hin) batch.1)
    (indexed_noTables all)
  refine ⟨tables,⟨n,hn⟩,?_,hi⟩
  have hev := foldlM_persistBatch_events (hn n le_rfl)
  simpa [hev,noTables] using hi.indexed_iff wf

/-- The index after any batches has the events whose auth chain is persisted, and
from the position of each those of its auth chain are reached and no others. -/
theorem chainCoverIndex_exact (all : Dict String StateRow) (hacyclic : Acyclic (authsIn all))
    (hnodup : ∀ eventId row, all.lookup eventId = some row → row.authEventIds.Nodup)
    (batches : List (Orders × Batch))
    (hbatches : ∀ batch ∈ batches, ∀ eventId row, batch.2.lookup eventId = some row →
      all.lookup eventId = some row) :
    ∃ tables, Eventually (fun fuel => persistBatches fuel batches) tables ∧
      (∀ a, a ∈ tables.chains ↔
        ∀ b, ReflTransGen (Refers (authsIn all)) b a → Persisted batches b) ∧
      (∀ a b p, tables.chains.lookup a = some p → tables.chains.lookup b = some p → a = b) ∧
      (∀ c, ∃ n, ∀ s, (∃ a, tables.chains.lookup a = some (c,s)) ↔ 1 ≤ s ∧ s ≤ n) ∧
      ∀ a b p q, tables.chains.lookup a = some p → tables.chains.lookup b = some q →
        (ReflTransGen (Refers (authsIn all)) b a ↔
          Reaches {link | link ∈ tables.links} p q) := by
  obtain ⟨tables,hrun,hin,hi⟩ := persistBatches_indexed
    (hacyclic.wellFounded (authsIn_supported all)) hbatches
  refine ⟨tables,hrun,hin,hi.covers.placed.unique,?_,?_⟩
  · exact hi.covers.placed.numbers (finite_indexed tables)
  · have hauths : ∀ eventId, (authsIn all eventId).Nodup := by
      intro eventId
      cases hrow : all.lookup eventId with
      | none => simp [authsIn,hrow]
      | some row => simpa [authsIn,hrow] using hnodup eventId row hrow
    intro a b p q ha hb
    exact hi.covers.exact (repeatsReached_of_nodup hauths) ha hb

theorem joinedRoom_acyclic : Acyclic (authsIn joinedRoom) :=
  acyclic_of_rank (authsIn_supported joinedRoom)
    (fun eid => ["$create","$join","$renew","$topic"].idxOf eid) (by decide +kernel)

theorem joinedRoom_nodup :
    ∀ eid row, joinedRoom.lookup eid = some row → row.authEventIds.Nodup := by
  have hr : ∀ row ∈ values joinedRoom, row.authEventIds.Nodup := by decide +kernel
  intro eid row hrow
  exact hr row ((mem_values joinedRoom row).mpr ⟨eid,hrow⟩)

theorem joinedRoomBatches_drawn : ∀ batch ∈ joinedRoomBatches, ∀ eid row,
    batch.2.lookup eid = some row → joinedRoom.lookup eid = some row := by
  intro batch hin eid row hr
  simp only [joinedRoomBatches,mem_cons,not_mem_nil,or_false] at hin
  rcases hin with rfl | rfl
  · rw [lookup_pop,lookup_pop] at hr
    split_ifs at hr
    exact hr
  · exact hr

theorem chainCoverIndex_exact_joinedRoom :
    (persistBatches 10 joinedRoomBatches).toOption.map (fun tables =>
      (["$create","$join","$renew","$topic"].map (fun eventId => tables.chains.lookup eventId),
        tables.links)) =
      some ([some (1,1),some (2,1),some (2,2),some (3,1)],[((2,1),(1,1)),((3,1),(2,2))]) ∧
    ∃ tables, Eventually (fun fuel => persistBatches fuel joinedRoomBatches) tables ∧
      (∀ a b p, tables.chains.lookup a = some p → tables.chains.lookup b = some p → a = b) ∧
      (∀ c, ∃ n, ∀ s, (∃ a, tables.chains.lookup a = some (c,s)) ↔ 1 ≤ s ∧ s ≤ n) ∧
      ∀ a b p q, tables.chains.lookup a = some p → tables.chains.lookup b = some q →
        (ReflTransGen (Refers (authsIn joinedRoom)) b a ↔
          Reaches {link | link ∈ tables.links} p q) := by
  refine ⟨by decide +kernel,?_⟩
  obtain ⟨tables,hrun,-,hindex⟩ := chainCoverIndex_exact joinedRoom joinedRoom_acyclic
    joinedRoom_nodup joinedRoomBatches joinedRoomBatches_drawn
  exact ⟨tables,hrun,hindex⟩

section Repeats

def withoutRepeats (rows : Dict String StateRow) : Dict String StateRow :=
  mapValues rows (fun row => { row with authEventIds := row.authEventIds.dedup })

theorem authsIn_withoutRepeats (eid : String) :
    authsIn (withoutRepeats all) eid = (authsIn all eid).dedup := by
  rw [authsIn,authsIn,withoutRepeats,lookup_mapValues]
  cases all.lookup eid <;> simp

variable {bs : List (Orders × Batch)}

theorem Drawn.withoutRepeats (h : Drawn all bs) :
    Drawn (withoutRepeats all) (bs.map (Prod.map id withoutRepeats)) := by
  intro b hb eid row hr
  obtain ⟨⟨orders,batch⟩,hin,rfl⟩ := mem_map.mp hb
  rw [Prod.map_snd,ChainCoverIndex.withoutRepeats,lookup_mapValues,map_eq_some_iff] at hr
  obtain ⟨row₀,h₀,rfl⟩ := hr
  rw [ChainCoverIndex.withoutRepeats,lookup_mapValues,h _ hin eid row₀ h₀,map_some]

theorem persisted_withoutRepeats (eid : String) :
    Persisted (bs.map (Prod.map id withoutRepeats)) eid ↔ Persisted bs eid := by
  simp [Persisted,mem_iff_lookup,withoutRepeats,lookup_mapValues]

end Repeats

def IndexReaches (tables : Tables) : String → String → Prop :=
  ReachesNode (fun eventId => tables.chains.lookup eventId) {link | link ∈ tables.links}

/-- Repeated auth events change nothing exactly when each is on the chain of the
event that repeats it or leads to another auth event of it. -/
theorem sameReach_iff (all : Dict String StateRow) (hacyclic : Acyclic (authsIn all))
    (batches : List (Orders × Batch)) (hdrawn : Drawn all batches) :
    ∃ tables tables', Eventually (fun fuel => persistBatches fuel batches) tables ∧
      Eventually (fun fuel => persistBatches fuel (batches.map (Prod.map id withoutRepeats)))
        tables' ∧
      ((∀ a b, IndexReaches tables a b ↔ IndexReaches tables' a b) ↔
        RepeatsReached (authsIn all) (fun eventId => tables.chains.lookup eventId)) := by
  have hr : Refers (authsIn (withoutRepeats all)) = Refers (authsIn all) := by
    ext a eventId
    simp [Refers,authsIn_withoutRepeats]
  have wf := hacyclic.wellFounded (authsIn_supported all)
  obtain ⟨tables,hrun,hin,hi⟩ := persistBatches_indexed wf hdrawn
  obtain ⟨tables',hrun',hin',hi'⟩ := persistBatches_indexed (hr ▸ wf) hdrawn.withoutRepeats
  refine ⟨tables,tables',hrun,hrun',?_⟩
  have hnodup : ∀ eventId, (authsIn (withoutRepeats all) eventId).Nodup := by
    intro eventId
    rw [authsIn_withoutRepeats]
    exact nodup_dedup _
  have hreach : ∀ a b, IndexReaches tables' a b ↔
      (∃ p, tables.chains.lookup a = some p) ∧ ReflTransGen (Refers (authsIn all)) b a := by
    intro a b
    rw [IndexReaches,hi'.covers.reachesNode_iff (repeatsReached_of_nodup hnodup),hr,
      ← mem_iff_lookup,← mem_iff_lookup,hin,hin',hr]
    simp only [persisted_withoutRepeats]
  rw [← hi.covers.exact_iff]
  simp only [hreach]
  rfl

def repeatedRoom : Dict String StateRow :=
  joinedRoom.insert "$topic" (stateRow "m.room.topic" "" ["$create","$renew","$create"])

theorem sameReach_iff_repeatedRoom : ∃ tables tables',
    Eventually (fun fuel => persistBatches fuel [(increasing,repeatedRoom)]) tables ∧
    Eventually (fun fuel => persistBatches fuel [(increasing,withoutRepeats repeatedRoom)])
      tables' ∧
    ∀ a b, IndexReaches tables a b ↔ IndexReaches tables' a b := by
  have hacyclic : Acyclic (authsIn repeatedRoom) :=
    acyclic_of_rank (authsIn_supported repeatedRoom)
      (fun eid => ["$create","$join","$renew","$topic"].idxOf eid) (by decide +kernel)
  obtain ⟨tables,tables',hrun,hrun',hiff⟩ := sameReach_iff repeatedRoom hacyclic
    [(increasing,repeatedRoom)] (by simp [Drawn])
  refine ⟨tables,tables',hrun,hrun',hiff.mpr ?_⟩
  -- the create event is an auth event of the membership event
  intro eventId p _ a ha q _
  have hk : ∀ eventId ∈ repeatedRoom.keys.toFinset, ∀ a ∈ authsIn repeatedRoom eventId,
      a ∈ (authsIn repeatedRoom eventId).erase a →
        ∃ b ∈ authsIn repeatedRoom eventId, b ≠ a ∧ a ∈ authsIn repeatedRoom b := by decide +kernel
  have hin := mem_of_mem_erase ha
  obtain ⟨b,hb,hne,hab⟩ :=
    hk eventId (authsIn_supported repeatedRoom eventId (ne_nil_of_mem hin)) a hin ha
  exact .inr ⟨b,hb,hne,.single hab⟩

def joinBatches (authEventIds : List String) : List (Orders × Batch) :=
  [(increasing,AList.singleton "$create" (stateRow "m.room.create" "" [])),
    (increasing,AList.singleton "$join" (stateRow "m.room.member" "@a:x" authEventIds))]

theorem repeated_create_unlinked : ∃ tables tables',
    (persistBatches 10 (joinBatches ["$create"])).toOption = some tables ∧
    (persistBatches 10 (joinBatches ["$create","$create"])).toOption = some tables' ∧
    IndexReaches tables "$join" "$create" ∧ ¬ IndexReaches tables' "$join" "$create" := by
  let shown := fun tables : Tables =>
    (tables.chains.lookup "$join",tables.chains.lookup "$create",tables.links)
  have h : (persistBatches 10 (joinBatches ["$create"])).toOption.map shown =
      some (some (2,1),some (1,1),[((2,1),(1,1))]) := by decide +kernel
  have h' : (persistBatches 10 (joinBatches ["$create","$create"])).toOption.map shown =
      some (some (2,1),some (1,1),[]) := by decide +kernel
  obtain ⟨tables,ht,he⟩ := map_eq_some_iff.mp h
  obtain ⟨tables',ht',he'⟩ := map_eq_some_iff.mp h'
  simp only [shown,Prod.mk.injEq] at he he'
  refine ⟨tables,tables',ht,ht',⟨_,_,he.1,he.2.1,?_⟩,?_⟩
  · exact .single (.along 2 (by simp [he.2.2]) le_rfl)
  · rintro ⟨p,q,hp,hq,hr⟩
    obtain rfl := some.inj (he'.1.symm.trans hp)
    obtain rfl := some.inj (he'.2.1.symm.trans hq)
    -- a link would leave the chain of the join
    obtain ⟨t,r,hl,-⟩ := hr.leaves (by simp)
    simp [he'.2.2] at hl

end Synapse.ChainCoverIndex
