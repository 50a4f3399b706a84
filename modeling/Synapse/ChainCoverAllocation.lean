import Synapse.ChainCoverIndex

/-!
# The positions of new events

What has been gathered for a batch, which events are left for later, and that
the positions given to the others extend a placement of the indexed events.
-/

set_option autoImplicit false

namespace Synapse.ChainCoverIndex
open Python Loops References ChainCover TopologicalSort Prod
open List Dict Option AList Finset Function

def authsIn (all : Dict String StateRow) (eventId : String) : List String :=
  ((all.lookup eventId).map StateRow.authEventIds).getD []

structure Indexed (all : Dict String StateRow) (tables : Tables) : Prop where
  covers : Covers (authsIn all) (fun eventId => tables.chains.lookup eventId)
    {link | link ∈ tables.links}
  apart : ∀ link ∈ tables.links, link.1.1 ≠ link.2.1
  events : ∀ eventId row, tables.events.lookup eventId = some row → all.lookup eventId = some row
  split : ∀ eventId, eventId ∈ tables.events ↔
    eventId ∈ tables.chains ∨ eventId ∈ tables.toCalculate
  blocked : ∀ eventId ∈ tables.toCalculate, ∃ a ∈ authsIn all eventId, a ∉ tables.chains
  chainIds : ∀ eventId c s, tables.chains.lookup eventId = some (c,s) → c ≤ tables.lastChainId

theorem Indexed.unplaced {all : Dict String StateRow} {tables : Tables} (hi : Indexed all tables)
    {eid : String} (h : eid ∈ tables.toCalculate) : tables.chains.lookup eid = none := by
  obtain ⟨a,ha,hn⟩ := hi.blocked eid h
  rw [eq_none_iff_forall_ne_some]
  intro p hp
  exact hn (mem_iff_lookup.mpr (hi.covers.closed eid p hp a ha))

def Fresh (all : Dict String StateRow) (tables : Tables) (batch : Batch) : Prop :=
  ∀ eventId row, batch.lookup eventId = some row →
    all.lookup eventId = some row ∧ tables.chains.lookup eventId = none

section Gather

variable {all : Dict String StateRow} {tables : Tables}

structure GatheredFrom (all : Dict String StateRow) (tables : Tables) (g : Gathered) : Prop where
  auths : ∀ eventId l, g.auths.lookup eventId = some l → l = authsIn all eventId ∧
    tables.chains.lookup eventId = none
  toCalc : ∀ eventId, eventId ∈ g.toCalc ↔ eventId ∈ g.auths
  types : ∀ eventId ∈ g.auths, eventId ∈ g.types
  chainMap : ∀ eventId p, g.chainMap.lookup eventId = some p →
    tables.chains.lookup eventId = some p

theorem gatheredFrom_empty : GatheredFrom all tables ⟨∅,∅,∅,∅⟩ := by
  constructor <;> simp

variable {g : Gathered}

theorem GatheredFrom.add (h : GatheredFrom all tables g) {eid : String} (tys : String × String)
    {au : List String} (ha : au = authsIn all eid) (hn : tables.chains.lookup eid = none) :
    GatheredFrom all tables (g.add eid tys au) := by
  refine ⟨?_,?_,?_,h.chainMap⟩
  · intro o l hl
    rw [Gathered.add,lookup_set] at hl
    split at hl
    · next heq =>
      subst heq
      exact ⟨(some.inj hl).symm.trans ha,hn⟩
    · exact h.auths o l hl
  · intro o
    rw [Gathered.add,Dict.mem_set,Finset.mem_insert,h.toCalc]
  · intro o ho
    rw [Gathered.add,Dict.mem_set] at ho ⊢
    exact ho.imp_right (h.types o)

theorem GatheredFrom.locate (h : GatheredFrom all tables g) {eid : String} (tys : String × String)
    {pos : ChainPosition} (hpo : tables.chains.lookup eid = some pos) :
    GatheredFrom all tables (g.locate eid tys pos) := by
  refine ⟨h.auths,h.toCalc,?_,?_⟩
  · intro o hin
    exact mem_set.mpr (.inr (h.types o hin))
  · intro o p hp
    rw [Gathered.locate,lookup_set] at hp
    split at hp
    · next heq => rw [heq,hpo,hp]
    · exact h.chainMap o p hp

theorem foldl_add_from {ι : Type} (xs : List ι) (eid : ι → String) (tys : ι → String × String)
    (au : ι → List String) (h : GatheredFrom all tables g)
    (hxs : ∀ x ∈ xs, au x = authsIn all (eid x) ∧ tables.chains.lookup (eid x) = none) :
    GatheredFrom all tables (xs.foldl (fun g x => g.add (eid x) (tys x) (au x)) g) ∧
      ∀ e, e ∈ (xs.foldl (fun g x => g.add (eid x) (tys x) (au x)) g).toCalc ↔
        e ∈ g.toCalc ∨ ∃ x ∈ xs, eid x = e := by
  induction xs generalizing g with
  | nil => exact ⟨h,by simp⟩
  | cons x xs ih =>
    obtain ⟨ha,hn⟩ := hxs x (by simp)
    obtain ⟨hf,hm⟩ := ih (h.add (tys x) ha hn) (fun y hy => hxs y (by simp [hy]))
    refine ⟨hf,?_⟩
    intro e
    rw [foldl_cons,hm,Gathered.add,Finset.mem_insert,exists_mem_cons_iff]
    tauto

theorem gathered_start (hi : Indexed all tables) {ba : Batch} (hb : Fresh all tables ba) :
    GatheredFrom all tables (gatherDeferred tables (gatherBatch ba)) ∧
      ∀ eid, eid ∈ (gatherDeferred tables (gatherBatch ba)).toCalc ↔
        eid ∈ ba ∨ eid ∈ tables.toCalculate := by
  have hen : ∀ {V : Type} (d : Dict String V) (e : String),(∃ x ∈ d.entries, x.1 = e) ↔ e ∈ d := by
    intro V d e
    rw [AList.mem_keys,AList.keys,List.keys,List.mem_map]
  have hbr : ∀ en ∈ ba.entries, en.2.authEventIds = authsIn all en.1 ∧
      tables.chains.lookup en.1 = none := by
    intro en he
    obtain ⟨ha,hn⟩ := hb en.1 en.2 (mem_lookup_iff.mpr he)
    refine ⟨?_,hn⟩
    rw [authsIn,ha]
    rfl
  have hdr : ∀ en ∈ tables.toCalculate.entries,
      storedAuths tables en.1 = authsIn all en.1 ∧ tables.chains.lookup en.1 = none := by
    intro en he
    have hin : en.1 ∈ tables.toCalculate := mem_iff_lookup.mpr ⟨en.2,mem_lookup_iff.mpr he⟩
    obtain ⟨row,hr⟩ := mem_iff_lookup.mp ((hi.split en.1).mpr (.inr hin))
    refine ⟨?_,hi.unplaced hin⟩
    rw [authsIn,storedAuths,hr,hi.events _ _ hr]
  obtain ⟨hf,hm⟩ := foldl_add_from ba.entries Sigma.fst
    (fun en => (en.2.type,en.2.stateKey)) _ gatheredFrom_empty hbr
  obtain ⟨hs,hm'⟩ := foldl_add_from tables.toCalculate.entries Sigma.fst Sigma.snd _ hf hdr
  refine ⟨hs,?_⟩
  intro eid
  refine (hm' eid).trans ?_
  rw [hm,hen,hen]
  simp

theorem fetchRows_from (hi : Indexed all tables) (h : GatheredFrom all tables g)
    (hd : ∀ eid ∈ tables.toCalculate, eid ∈ g.toCalc) (mi : List String)
    (hm : ∀ aid ∈ mi, aid ∉ g.toCalc) :
    ∃ g', mi.foldl (fetchRow tables) (g,∅) = (g',∅) ∧ GatheredFrom all tables g' ∧
      g'.toCalc = g.toCalc ∧
      ∀ a, a ∈ g.chainMap ∨ a ∈ mi ∧ a ∈ tables.chains → a ∈ g'.chainMap := by
  induction mi generalizing g with
  | nil => exact ⟨g,rfl,h,rfl,by simp⟩
  | cons aid mi ih =>
    have hr : ∀ a ∈ mi, a ∉ g.toCalc := fun a ha => hm a (by simp [ha])
    cases he : tables.events.lookup aid with
    | none =>
      simp only [foldl_cons,fetchRow,he]
      obtain ⟨g',hf,hg,htc,hl⟩ := ih h hd hr
      refine ⟨g',hf,hg,htc,?_⟩
      rintro a (ha | ⟨ha,hc⟩)
      · exact hl a (.inl ha)
      · rcases List.mem_cons.mp ha with rfl | ha
        · exact absurd ((hi.split a).mpr (.inl hc)) (lookup_eq_none.mp he)
        · exact hl a (.inr ⟨ha,hc⟩)
    | some row =>
      have hid : aid ∈ tables.chains := by
        rcases (hi.split aid).mp (mem_iff_lookup.mpr ⟨row,he⟩) with hin | hl
        · exact hin
        · exact absurd (hd aid hl) (hm aid (by simp))
      obtain ⟨pos,hp⟩ := mem_iff_lookup.mp hid
      simp only [foldl_cons,fetchRow,he,hp]
      obtain ⟨g',hf,hg,htc,hl⟩ := ih (h.locate _ hp) hd hr
      refine ⟨g',hf,hg,htc,?_⟩
      rintro a (ha | ⟨ha,hc⟩)
      · exact hl a (.inl (mem_set.mpr (.inr ha)))
      · rcases List.mem_cons.mp ha with rfl | ha
        · exact hl a (.inl (mem_set.mpr (.inl rfl)))
        · exact hl a (.inr ⟨ha,hc⟩)

theorem gather_eventually (hi : Indexed all tables) {ba : Batch} (hb : Fresh all tables ba)
    (orders : Orders) :
    ∃ g, Eventually (fun fuel => gather tables orders fuel ba) g ∧ GatheredFrom all tables g ∧
      (∀ eid, eid ∈ g.toCalc ↔ eid ∈ ba ∨ eid ∈ tables.toCalculate) ∧
      ∀ eid ∈ g.toCalc, ∀ a ∈ authsIn all eid, a ∈ tables.chains → a ∈ g.chainMap := by
  obtain ⟨hf,hmem⟩ := gathered_start hi hb
  have hmiss : ∀ eid ∈ (gatherDeferred tables (gatherBatch ba)).toCalc, ∀ a ∈ authsIn all eid,
      a ∈ tables.chains → a ∈ missingAuthChains (gatherDeferred tables (gatherBatch ba)) := by
    intro eid hin a ha hc
    obtain ⟨l,hl⟩ := mem_iff_lookup.mp ((hf.toCalc eid).mp hin)
    rw [missingAuthChains,Finset.mem_filter,List.mem_toFinset,List.mem_flatten]
    refine ⟨⟨l,(mem_values _ l).mpr ⟨eid,hl⟩,(hf.auths eid l hl).1 ▸ ha⟩,?_⟩
    intro htc
    obtain ⟨l',hl'⟩ := mem_iff_lookup.mp ((hf.toCalc a).mp htc)
    exact lookup_eq_none.mp (hf.auths a l' hl').2 hc
  have hm : ∀ aid ∈ orders.rows.list
      (missingAuthChains (gatherDeferred tables (gatherBatch ba))),
      aid ∉ (gatherDeferred tables (gatherBatch ba)).toCalc := by
    intro aid ha
    rw [orders.rows.mem,missingAuthChains,Finset.mem_filter] at ha
    exact ha.2
  obtain ⟨g,hfo,hg,htc,hloc⟩ := fetchRows_from hi hf (fun eid hin => (hmem eid).mpr (.inr hin)) _ hm
  by_cases he : missingAuthChains (gatherDeferred tables (gatherBatch ba)) = ∅
  · refine ⟨_,⟨0,?_⟩,hf,hmem,?_⟩
    · intro fuel _
      simp only [gather]
      unfold fetchMissing
      rw [if_pos he]
    · intro eid hin a ha hc
      exact absurd (he ▸ hmiss eid hin a ha hc) (Finset.notMem_empty a)
  · refine ⟨g,⟨1,?_⟩,hg,fun eid => by rw [htc,hmem],?_⟩
    · intro fuel hfu
      obtain ⟨fuel,rfl⟩ : ∃ f, fuel = f+1 := ⟨fuel-1,by omega⟩
      simp only [gather]
      unfold fetchMissing
      rw [if_neg he]
      simp only [hfo]
      unfold fetchMissing
      rw [if_pos rfl]
    · intro eid hin a ha hc
      exact hloc a (.inr ⟨(orders.rows.mem _ _).mpr (hmiss eid (htc ▸ hin) a ha hc),hc⟩)

end Gather

section Sorted

variable {all : Dict String StateRow}

theorem sorted_eventually (orders : TopologicalSort.Orders String) (ns : Finset String)
    (gr : Dict String (List String)) :
    ∃ srt, Eventually (fun fuel => orOutOfFuel (sortedTopologically orders fuel ns gr))
      srt ∧ Sorts id ns (edgesWithin ns gr) ∅ srt := by
  obtain ⟨srt,hs⟩ := isSome_iff_exists.mp (sortedTopologically_isSome orders gr (le_refl ns.card))
  refine ⟨srt,⟨ns.card,?_⟩,sortedTopologically_sorts hs⟩
  intro fuel hf
  obtain ⟨o,ho⟩ := isSome_iff_exists.mp (sortedTopologically_isSome orders gr hf)
  have hsa := (sortedTopologically_sorts ho).unique (fun _ _ _ _ h => h)
    (sortedTopologically_sorts hs)
  simp only [ho,hsa,orOutOfFuel]

variable {gr : Dict String (List String)}

theorem edgesWithin_wf (wf : WellFounded (Refers (authsIn all))) {ns : Finset String}
    (hg : ∀ eid l, gr.lookup eid = some l → l = authsIn all eid) :
    WellFounded (fun a b => a ∈ edgesWithin ns gr b) := by
  apply Subrelation.wf _ wf
  intro a b hab
  rw [edgesWithin,mem_inter,List.mem_toFinset] at hab
  cases hl : gr.lookup b with
  | none => simp [hl] at hab
  | some l =>
    rw [hl,hg b l hl] at hab
    exact hab.1

theorem sorted_complete (wf : WellFounded (Refers (authsIn all))) {ns : Finset String}
    (hg : ∀ eid l, gr.lookup eid = some l → l = authsIn all eid)
    {srt : List String} (h : Sorts id ns (edgesWithin ns gr) ∅ srt) : srt.toFinset = ns := by
  ext eid
  rw [List.mem_toFinset]
  constructor
  · intro hm
    exact (h.nodup.2 eid hm).1
  · intro hm
    simpa using h.complete (fun _ _ => inter_subset_right) (edgesWithin_wf wf hg) hm

end Sorted

section Defer

variable {all : Dict String StateRow} {tables : Tables}

theorem item_ok {K V : Type} [DecidableEq K] {d : Dict K V} {key : K} {v : V}
    (h : d.lookup key = some v) : item d key = .ok v := by
  rw [item,h]

/-- The events still to be calculated once the ones in `done` have been looked
at, and the table of the events left for later. -/
structure Deferring (all : Dict String StateRow) (g : Gathered)
    (table : Dict String (String × String)) (done : Finset String)
    (state : Finset String × Dict String (String × String)) : Prop where
  closed : ∀ eventId ∈ done, eventId ∈ state.1 → ∀ authId ∈ authsIn all eventId,
    authId ∈ g.chainMap ∨ authId ∈ state.1
  blocked : ∀ eventId ∈ g.toCalc, eventId ∉ state.1 → ∃ a ∈ authsIn all eventId,
    a ∉ g.chainMap ∧ a ∉ state.1
  split : ∀ eventId, eventId ∈ g.toCalc ↔ eventId ∈ state.1 ∨ eventId ∈ state.2
  old : ∀ eventId ∈ table, eventId ∈ state.2

variable {b : Batch} {g : Gathered} {st : Finset String × Dict String (String × String)}
  {tl : Dict String (String × String)}

/-- Discarding an event does not concern those looked at before, which have no
auth event that comes later. -/
theorem Deferring.discard (hg : GatheredFrom all tables g) {done : Finset String}
    (h : Deferring all g tl done st) {eid : String} (hn : eid ∈ g.auths) (hnew : eid ∉ done)
    (hbl : ∃ a ∈ authsIn all eid, a ∉ g.chainMap ∧ a ∉ st.1)
    (hcl : ∀ p ∈ done, edgesWithin g.auths.keys.toFinset g.auths p ⊆ done)
    {tl' : Dict String (String × String)} (hm : ∀ e, e ∈ tl' ↔ e = eid ∨ e ∈ st.2) :
    Deferring all g tl (insert eid done) (st.1.erase eid,tl') := by
  refine ⟨?_,?_,?_,fun e he => (hm e).mpr (.inr (h.old e he))⟩
  · intro e he hk aid ha
    obtain ⟨hne,hc⟩ := mem_erase.mp hk
    have hd := (mem_insert.mp he).resolve_left hne
    rcases h.closed e hd hc aid ha with hmap | hl
    · exact .inl hmap
    · refine .inr (mem_erase.mpr ⟨?_,hl⟩)
      rintro rfl
      obtain ⟨au,hau⟩ := mem_iff_lookup.mp ((hg.toCalc e).mp ((h.split e).mpr (.inl hc)))
      apply hnew
      apply hcl e hd
      rw [edgesWithin,mem_inter,List.mem_toFinset,List.mem_toFinset,hau]
      exact ⟨(hg.auths e au hau).1 ▸ ha,hn⟩
  · intro e he hk
    have hw : ∃ a ∈ authsIn all e, a ∉ g.chainMap ∧ a ∉ st.1 := by
      by_cases heq : e = eid
      · exact heq ▸ hbl
      · exact h.blocked e he (fun hin => hk (mem_erase.mpr ⟨heq,hin⟩))
    obtain ⟨a,ha,hmap,hst⟩ := hw
    exact ⟨a,ha,hmap,fun hin => hst (Finset.mem_of_mem_erase hin)⟩
  · intro e
    by_cases heq : e = eid
    · simp [heq,(hg.toCalc eid).mpr hn,hm]
    · simp [heq,h.split e,hm]

theorem deferIfUnknown_deferring (hg : GatheredFrom all tables g)
    (htc : ∀ e, e ∈ g.toCalc ↔ e ∈ b ∨ e ∈ tl) {done : Finset String} {eid : String}
    (hav : Available g.auths.keys.toFinset (edgesWithin g.auths.keys.toFinset g.auths) done eid)
    (hc : ∀ p ∈ done, edgesWithin g.auths.keys.toFinset g.auths p ⊆ done)
    (h : Deferring all g tl done st) :
    ∃ st', deferIfUnknown b g st eid = .ok st' ∧ Deferring all g tl (insert eid done) st' := by
  obtain ⟨hn,hnew,-⟩ := hav
  rw [List.mem_toFinset] at hn
  obtain ⟨au,ha⟩ := mem_iff_lookup.mp hn
  obtain ⟨tys,ht⟩ := mem_iff_lookup.mp (hg.types eid hn)
  obtain rfl := (hg.auths eid au ha).1
  rw [deferIfUnknown,item_ok ha,ok_bind]
  split
  · next hany =>
    have hbl : ∃ a ∈ authsIn all eid, a ∉ g.chainMap ∧ a ∉ st.1 := by simpa using hany
    split
    · rw [item_ok ht]
      exact ⟨_,rfl,h.discard hg hn hnew hbl hc (fun _ => mem_set)⟩
    · next hb =>
      refine ⟨_,rfl,h.discard hg hn hnew hbl hc (fun e => ?_)⟩
      -- an event that is not of the batch has been left for later before
      have hold := h.old eid (((htc eid).mp ((hg.toCalc eid).mpr hn)).resolve_left hb)
      exact (or_iff_right_of_imp (fun heq => heq ▸ hold)).symm
  · next hk =>
    refine ⟨st,rfl,?_,h.blocked,h.split,h.old⟩
    intro e he hin aid hau
    rcases mem_insert.mp he with rfl | he
    · by_contra hnot
      apply hk
      rw [List.any_eq_true]
      exact ⟨aid,hau,by simpa [not_or] using hnot⟩
    · exact h.closed e he hin aid hau

theorem defer_eventually (wf : WellFounded (Refers (authsIn all))) (hg : GatheredFrom all tables g)
    (htc : ∀ e, e ∈ g.toCalc ↔ e ∈ b ∨ e ∈ tl) (orders : Orders) :
    ∃ st, Eventually (fun fuel => defer orders fuel b g tl) st ∧
      Deferring all g tl g.auths.keys.toFinset st := by
  obtain ⟨srt,hev,hs⟩ := sorted_eventually orders.sort g.auths.keys.toFinset g.auths
  have hst : Deferring all g tl ∅ (g.toCalc,tl) :=
    ⟨by simp,fun _ hin hn => absurd hin hn,
      fun e => (or_iff_left_of_imp (fun he => (htc e).mpr (.inr he))).symm,fun _ he => he⟩
  obtain ⟨st,hsta,hf⟩ := hs.eventually_foldlM
    (f := fun _ => deferIfUnknown b g) (P := Deferring all g tl) (by
      intro done st eid ha hc h
      obtain ⟨st',hok,h'⟩ := deferIfUnknown_deferring hg htc ha hc h
      exact ⟨st',⟨0,fun _ _ => hok⟩,h'⟩) (by simp) hst
  refine ⟨st,hev.bind hsta,?_⟩
  rwa [sorted_complete wf (fun e l hl => (hg.auths e l hl).1) hs] at hf

end Defer

section Allocate

variable {all : Dict String StateRow} {tables : Tables} {g : Gathered}

def placeOf (tables : Tables) (a : Allocation) (eventId : String) : Option (Position ChainRef) :=
  (a.newChainTuples.lookup eventId).or
    ((tables.chains.lookup eventId).map (fun p => (.allocated p.1,p.2)))

structure Allocating (all : Dict String StateRow) (tables : Tables) (existing : List ℕ)
    (done : Finset String) (a : Allocation) : Prop where
  members : ∀ eventId, eventId ∈ a.newChainTuples ↔ eventId ∈ done
  placed : Placed (authsIn all) (placeOf tables a)
  tops : ∀ eventId c s, placeOf tables a eventId = some (c,s) →
    ∀ m, a.chainToMaxSeqNo.lookup c = some m → s ≤ m
  refs : ∀ eventId c s, a.newChainTuples.lookup eventId = some (c,s) → c ∈ a.chainToMaxSeqNo
  existing : ∀ c ∈ existing, .allocated c ∈ a.chainToMaxSeqNo
  temporaries : ∀ eventId n s, a.newChainTuples.lookup eventId = some (.temporary n,s) →
    n < a.unallocated
  chainIds : ∀ eventId c s, a.newChainTuples.lookup eventId = some (.allocated c,s) →
    c ≤ tables.lastChainId

variable {eid : String} {dn : Finset String} {a : Allocation}

theorem Allocating.record {ex : List ℕ} (h : Allocating all tables ex dn a) (hnew : eid ∉ dn)
    (hun : tables.chains.lookup eid = none) {u : ℕ} (hu : a.unallocated ≤ u) {c : ChainRef} {n : ℕ}
    (hpos : 1 ≤ n) (htop : ∀ e s, placeOf tables a e = some (c,s) → s < n)
    (hb : ∀ s, n = s+1 → 1 ≤ s → ∃ b ∈ authsIn all eid, placeOf tables a b = some (c,s))
    (ht : ∀ k, c = .temporary k → k < u) (hc : ∀ k, c = .allocated k → k ≤ tables.lastChainId) :
    Allocating all tables ex (insert eid dn) ({ a with unallocated := u }.record eid (c,n)) := by
  have hp : placeOf tables ({ a with unallocated := u }.record eid (c,n)) =
      update (placeOf tables a) eid (some (c,n)) := by
    funext other
    rw [placeOf,Allocation.record,lookup_set,update_apply]
    split <;> rfl
  have hf : ∀ e, placeOf tables a e ≠ some (c,n) := fun e he => lt_irrefl _ (htop e n he)
  have hn : placeOf tables a eid = none := by
    have : a.newChainTuples.lookup eid = none := by
      rw [lookup_eq_none,h.members]
      exact hnew
    rw [placeOf,this,hun]
    rfl
  refine ⟨?_,?_,?_,?_,?_,?_,?_⟩
  · intro e
    rw [Allocation.record,Dict.mem_set,Finset.mem_insert,h.members]
  · rw [hp]
    exact h.placed.insert hn hf hpos hb
  · intro e d s he m hm
    rw [hp,update_apply] at he
    rw [Allocation.record,lookup_set] at hm
    split at he
    · obtain ⟨rfl,rfl⟩ := mk.inj (some.inj he)
      rw [if_pos rfl] at hm
      exact le_of_eq (some.inj hm)
    · split at hm
      · next heq =>
        obtain rfl : d = c := heq
        cases hm
        exact le_of_lt (htop e s he)
      · exact h.tops e d s he m hm
  · intro e d s he
    rw [Allocation.record,lookup_set] at he
    rw [Allocation.record,Dict.mem_set]
    split at he
    · exact .inl (congrArg fst (some.inj he)).symm
    · exact .inr (h.refs e d s he)
  · intro d hd
    rw [Allocation.record,Dict.mem_set]
    exact .inr (h.existing d hd)
  · intro e k s he
    rw [Allocation.record,lookup_set] at he
    split at he
    · exact ht k (congrArg fst (some.inj he))
    · exact lt_of_lt_of_le (h.temporaries e k s he) hu
  · intro e k s he
    rw [Allocation.record,lookup_set] at he
    split at he
    · exact hc k (congrArg fst (some.inj he))
    · exact h.chainIds e k s he

theorem chainOfParent_ok (hg : GatheredFrom all tables g) {tc : Finset String} {srt : List String}
    (h : Allocating all tables (existingChains g srt) dn a) (hs : eid ∈ srt) (ha : eid ∈ g.auths)
    (he : edgesWithin tc g.auths eid ⊆ dn)
    (hc : ∀ aid ∈ authsIn all eid, aid ∈ g.chainMap ∨ aid ∈ tc) :
    ∃ ex, chainOfParent g a (treeParent g eid) = .ok ex ∧
      ∀ c s, ex = some (c,s) → c ∈ a.chainToMaxSeqNo ∧
        ∃ b ∈ authsIn all eid, placeOf tables a b = some (c,s) := by
  obtain ⟨au,hl⟩ := mem_iff_lookup.mp ha
  obtain rfl := (hg.auths eid au hl).1
  rw [chainOfParent]
  split
  · exact ⟨none,rfl,by simp⟩
  · next aid hpa =>
    have ht : treeParent g eid = some aid := (filter_eq_some_iff.mp hpa).1
    have hm : aid ∈ authsIn all eid := by
      rw [treeParent,hl] at ht
      exact mem_of_find?_eq_some ht
    split
    · next pos hp =>
      refine ⟨_,rfl,?_⟩
      intro c s heq
      cases heq
      refine ⟨h.refs aid c s hp,aid,hm,?_⟩
      rw [placeOf,hp]
      rfl
    · next hn =>
      have hnd : aid ∉ dn := by
        rw [← h.members,← lookup_eq_none]
        exact hn
      have hmap : aid ∈ g.chainMap := by
        refine (hc aid hm).resolve_right ?_
        intro hca
        apply hnd
        apply he
        rw [edgesWithin,hl,mem_inter,List.mem_toFinset]
        exact ⟨hm,hca⟩
      obtain ⟨pos,hp⟩ := mem_iff_lookup.mp hmap
      refine ⟨some (.allocated pos.1,pos.2),by rw [item_ok hp]; rfl,?_⟩
      intro c s heq
      obtain ⟨rfl,rfl⟩ := mk.inj (some.inj heq)
      refine ⟨h.existing _ ?_,aid,hm,?_⟩
      · rw [existingChains,List.mem_filterMap]
        exact ⟨eid,hs,by simp [ht,hp]⟩
      · rw [placeOf,hn,hg.chainMap aid pos hp]
        rfl

section

variable {ex : List ℕ} {s : ℕ} (h : Allocating all tables ex dn a)
include h

theorem temporary_lt {n : ℕ} (he : placeOf tables a eid = some (.temporary n,s)) :
    n < a.unallocated := by
  rw [placeOf,or_eq_some_iff] at he
  rcases he with hn | ⟨-,hin⟩
  · exact h.temporaries eid n s hn
  · simp at hin

theorem allocated_le (hi : Indexed all tables) {c : ℕ}
    (he : placeOf tables a eid = some (.allocated c,s)) : c ≤ tables.lastChainId := by
  rw [placeOf,or_eq_some_iff] at he
  rcases he with hn | ⟨-,hin⟩
  · exact h.chainIds eid c s hn
  · obtain ⟨⟨c',t⟩,hch,hp⟩ := map_eq_some_iff.mp hin
    obtain ⟨rfl,rfl⟩ : c' = c ∧ t = s := by simpa using hp
    exact hi.chainIds eid c' t hch

end

theorem allocateOne_allocating (hg : GatheredFrom all tables g) (hi : Indexed all tables)
    {tc : Finset String} {srt : List String} (h : Allocating all tables (existingChains g srt) dn a)
    (hso : eid ∈ srt) (ha : eid ∈ g.auths) (hn : eid ∉ dn) (hed : edgesWithin tc g.auths eid ⊆ dn)
    (hcl : ∀ aid ∈ authsIn all eid, aid ∈ g.chainMap ∨ aid ∈ tc) :
    ∃ a', allocateOne g a eid = .ok a' ∧
      Allocating all tables (existingChains g srt) (insert eid dn) a' := by
  obtain ⟨au,hl⟩ := mem_iff_lookup.mp ha
  have hu := (hg.auths eid au hl).2
  obtain ⟨ex,hex,hpa⟩ := chainOfParent_ok hg h hso ha hed hcl
  rw [allocateOne,hex,ok_bind]
  have hs : Allocating all tables (existingChains g srt) (insert eid dn)
      ({ a with unallocated := a.unallocated+1 }.record eid (.temporary a.unallocated,1)) := by
    refine h.record hn hu (Nat.le_succ _) le_rfl ?_ (by omega) ?_ (by simp)
    · intro e s he
      exact absurd (temporary_lt h he) (lt_irrefl _)
    · rintro k ⟨⟩
      exact Nat.lt_succ_self _
  cases ex with
  | none => exact ⟨_,rfl,hs⟩
  | some pos =>
    obtain ⟨c,s⟩ := pos
    obtain ⟨hc,b,hb,hp⟩ := hpa c s rfl
    obtain ⟨m,hm⟩ := mem_iff_lookup.mp hc
    rw [proposed,item_ok hm]
    by_cases hf : m < s+1
    · refine ⟨a.record eid (c,s+1),by simp only [ok_bind,if_pos hf],?_⟩
      refine h.record hn hu le_rfl (Nat.succ_pos s) ?_ ?_ ?_ ?_
      · intro e t he
        exact lt_of_le_of_lt (h.tops e c t he m hm) hf
      · intro t ht _
        obtain rfl : s = t := Nat.succ.inj ht
        exact ⟨b,hb,hp⟩
      · rintro k rfl
        exact temporary_lt h hp
      · rintro k rfl
        exact allocated_le h hi hp
    · exact ⟨_,by simp only [ok_bind,if_neg hf],hs⟩

theorem foldl_max_ge (poss : List ChainPosition) (m : ℕ) :
    m ≤ poss.foldl (fun m pos => max m pos.2) m ∧
      ∀ p ∈ poss, p.2 ≤ poss.foldl (fun m pos => max m pos.2) m := by
  induction poss generalizing m with
  | nil => simp
  | cons first poss ih =>
    obtain ⟨hs,ha⟩ := ih (max m first.2)
    exact ⟨le_trans (le_max_left _ _) hs,forall_mem_cons.mpr ⟨le_trans (le_max_right _ _) hs,ha⟩⟩

theorem le_maxSequenceNumber {chs : Dict String ChainPosition} {c s : ℕ}
    (h : chs.lookup eid = some (c,s)) : s ≤ maxSequenceNumber chs c := by
  apply (foldl_max_ge _ 0).2 (c,s)
  rw [mem_filter]
  exact ⟨(mem_values _ _).mpr ⟨eid,h⟩,by simp⟩

theorem maxima_lookup (f : ℕ → ℕ) (ex : List ℕ) (d : Dict ChainRef ℕ) (c : ℕ) :
    (ex.foldl (fun d cid => d.insert (.allocated cid) (f cid)) d).lookup
      (.allocated c) = if c ∈ ex then some (f c) else d.lookup (.allocated c) :=
  read_foldl (r := AList.lookup (ChainRef.allocated c)) (f := fun _ => some (f c))
    (fun d => lookup_insert d) (fun d cid hc => lookup_insert_ne (by simp [hc])) (fun _ => rfl) ex d

theorem allocating_start (hi : Indexed all tables) (ex : List ℕ) :
    Allocating all tables ex ∅ ⟨∅,ex.foldl (fun d cid =>
      d.insert (.allocated cid) (maxSequenceNumber tables.chains cid)) ∅,0⟩ := by
  refine ⟨by simp,?_,?_,by simp,?_,by simp,by simp⟩
  · exact hi.covers.placed.rename ChainRef.allocated (fun _ _ _ _ _ _ _ _ h => by simpa using h)
  · intro eid c s he m hm
    obtain ⟨⟨c',t⟩,hch,heq⟩ := map_eq_some_iff.mp he
    obtain ⟨rfl,rfl⟩ := mk.inj heq
    simp only [maxima_lookup] at hm
    split at hm
    · cases hm
      exact le_maxSequenceNumber hch
    · simp at hm
  · intro c hc
    exact mem_iff_lookup.mpr ⟨_,by rw [maxima_lookup,if_pos hc]⟩

end Allocate

section Resolve

variable {all : Dict String StateRow} {tables : Tables} {g : Gathered}

theorem zipIdx_lookup (base : ℕ) (temporaries : List ℕ) (k : ℕ) (hn : temporaries.Nodup)
    (d : Dict ℕ ℕ) (n : ℕ) :
    ((temporaries.zipIdx k).foldl (fun d e => d.insert e.1 (base+e.2)) d).lookup n =
      if n ∈ temporaries then some (base+(k+temporaries.idxOf n)) else d.lookup n := by
  induction temporaries generalizing k d with
  | nil => simp
  | cons first rs ih =>
    rw [nodup_cons] at hn
    rw [zipIdx_cons,foldl_cons,ih (k+1) hn.2,lookup_set]
    by_cases hf : n = first
    · subst hf
      simp [hn.1]
    · have hne : first ≠ n := fun h => hf h.symm
      simp only [hf,List.mem_cons,false_or,idxOf_cons_ne _ hne]
      split
      · congr 2
        omega
      · rfl

theorem allocatedMap_lookup (ord : Iteration ℕ) (lastChainId : ℕ) {un n : ℕ} (hn : n < un) :
    ∃ i < un, (ord.list (range un)).idxOf n = i ∧
      (allocatedMap ord lastChainId un).lookup n = some (lastChainId+1+i) := by
  have hm : n ∈ ord.list (Finset.range un) := (ord.mem _ _).mpr (Finset.mem_range.mpr hn)
  refine ⟨_,?_,rfl,?_⟩
  · have hl : (ord.list (range un)).length = un := by
      rw [← toFinset_card_of_nodup (ord.nodup _)]
      have : (ord.list (Finset.range un)).toFinset = Finset.range un := by
        ext x
        rw [List.mem_toFinset,ord.mem]
      rw [this,card_range]
    exact lt_of_lt_of_eq (idxOf_lt_length_of_mem hm) hl
  · rw [allocatedMap,zipIdx_lookup _ _ _ (ord.nodup _),if_pos hm,Nat.zero_add]

def realChain (allocated : Dict ℕ ℕ) : ChainRef → ℕ
  | .allocated chainId => chainId
  | .temporary n => (allocated.lookup n).getD 0

theorem resolveEntries_ok {allocated : Dict ℕ ℕ}
    (entries : List (Sigma fun _ : String => Position ChainRef)) (hn : entries.NodupKeys)
    (ht : ∀ e ∈ entries, ∀ n, e.2.1 = .temporary n → n ∈ allocated)
    (d : Dict String ChainPosition) :
    ∃ d', entries.foldlM (resolveEntry allocated) d = .ok d' ∧ ∀ eventId, d'.lookup eventId =
      ((entries.dlookup eventId).map (fun p => (realChain allocated p.1,p.2))).or
        (d.lookup eventId) := by
  induction entries generalizing d with
  | nil => exact ⟨d,rfl,by simp⟩
  | cons entry entries ih =>
    obtain ⟨key,ref,seq⟩ := entry
    rw [nodupKeys_cons] at hn
    have hr : resolveRef allocated (ref,seq) = .ok (realChain allocated ref,seq) := by
      cases ref with
      | allocated chainId => rfl
      | temporary n =>
        obtain ⟨chainId,hc⟩ := mem_iff_lookup.mp (ht _ mem_cons_self n rfl)
        simp [resolveRef,item_ok hc,realChain,hc]
    obtain ⟨d',hd',hl⟩ := ih hn.2 (fun e he => ht e (mem_cons_of_mem _ he))
      (d.insert key (realChain allocated ref,seq))
    refine ⟨d',?_,?_⟩
    · rw [foldlM_cons,resolveEntry,hr]
      exact hd'
    · intro eventId
      rw [hl]
      by_cases hk : eventId = key
      · subst hk
        rw [dlookup_eq_none.mpr hn.1]
        simp
      · simp [hk]

theorem realChain_injective {ex : List ℕ} {done : Finset String} {a : Allocation}
    (hi : Indexed all tables) (h : Allocating all tables ex done a) (ord : Iteration ℕ)
    {e e' : String} {c d : ChainRef} {s t : ℕ} (he : placeOf tables a e = some (c,s))
    (he' : placeOf tables a e' = some (d,t))
    (heq : realChain (allocatedMap ord tables.lastChainId a.unallocated) c =
      realChain (allocatedMap ord tables.lastChainId a.unallocated) d) : c = d := by
  cases c with
  | allocated c =>
    have hc := allocated_le h hi he
    cases d with
    | allocated d => exact congrArg ChainRef.allocated heq
    | temporary n =>
      obtain ⟨i,-,-,hl⟩ := allocatedMap_lookup ord tables.lastChainId (temporary_lt h he')
      simp only [realChain,hl,getD_some] at heq
      omega
  | temporary m =>
    obtain ⟨i,-,hm,hl⟩ := allocatedMap_lookup ord tables.lastChainId (temporary_lt h he)
    cases d with
    | allocated d =>
      have hd := allocated_le h hi he'
      simp only [realChain,hl,getD_some] at heq
      omega
    | temporary n =>
      obtain ⟨j,-,hn,hl'⟩ := allocatedMap_lookup ord tables.lastChainId (temporary_lt h he')
      simp only [realChain,hl,hl',getD_some] at heq
      have hidx : i = j := by omega
      have hmem : m ∈ ord.list (range a.unallocated) :=
        (ord.mem _ _).mpr (Finset.mem_range.mpr (temporary_lt h he))
      rw [← hm,← hn,idxOf_inj hmem] at hidx
      rw [hidx]

theorem allocateChainIds_eventually (wf : WellFounded (Refers (authsIn all)))
    (hi : Indexed all tables) (hg : GatheredFrom all tables g) {toCalc : Finset String}
    (hsub : toCalc ⊆ g.toCalc) (hcl : ∀ eventId ∈ toCalc, ∀ authId ∈ authsIn all eventId,
      authId ∈ g.chainMap ∨ authId ∈ toCalc) (orders : Orders) :
    ∃ chains used, Eventually (fun fuel => allocateChainIds tables orders fuel g toCalc)
        (chains,used) ∧ (∀ eventId, eventId ∈ chains ↔ eventId ∈ toCalc) ∧
      Placed (authsIn all) (fun eventId => (update tables.chains chains).lookup eventId) ∧
      ∀ eventId c s, chains.lookup eventId = some (c,s) → c ≤ tables.lastChainId+used := by
  obtain ⟨sorted,hev,hs⟩ := sorted_eventually orders.sort toCalc g.auths
  have hc := sorted_complete wf (fun e l hl => (hg.auths e l hl).1) hs
  obtain ⟨a,ha,hf⟩ := hs.eventually_foldlM (f := fun _ => allocateOne g)
    (P := Allocating all tables (existingChains g sorted)) (by
      intro done a eventId hav _ h
      have hin := hav.1
      have hso : eventId ∈ sorted := by
        rw [← List.mem_toFinset,hc]
        exact hin
      obtain ⟨a',hok,h'⟩ := allocateOne_allocating hg hi h hso
        ((hg.toCalc eventId).mp (hsub hin)) hav.2.1 hav.2.2 (hcl eventId hin)
      exact ⟨a',⟨0,fun _ _ => hok⟩,h'⟩) (by simp) (allocating_start hi _)
  rw [Finset.empty_union,hc] at hf
  obtain ⟨allocated,hal⟩ : ∃ allocated, allocated =
    allocatedMap orders.unallocated tables.lastChainId a.unallocated := ⟨_,rfl⟩
  have ht : ∀ e ∈ a.newChainTuples.entries, ∀ n, e.2.1 = .temporary n → n ∈ allocated := by
    rintro ⟨e,ref,seq⟩ he n hn
    obtain rfl : ref = .temporary n := hn
    obtain ⟨i,-,-,hlo⟩ := allocatedMap_lookup orders.unallocated tables.lastChainId
      (hf.temporaries e n seq (mem_lookup_iff.mpr he))
    exact mem_iff_lookup.mpr ⟨_,hal ▸ hlo⟩
  obtain ⟨chains,hch,hlo⟩ :=
    resolveEntries_ok a.newChainTuples.entries a.newChainTuples.nodupKeys ht ∅
  have hlk : ∀ e, chains.lookup e = (a.newChainTuples.lookup e).map
      (fun p => (realChain allocated p.1,p.2)) := by
    intro e
    rw [hlo,lookup_empty,or_none]
    rfl
  refine ⟨chains,a.unallocated,?_,?_,?_,?_⟩
  · refine hev.bind (ha.bind ?_)
    refine ⟨0,?_⟩
    intro fuel _
    simp only [← hal,hch,ok_bind]
  · intro e
    rw [← hf.members,← lookup_isSome,← lookup_isSome,hlk,isSome_map]
  · have hp : (fun e => (update tables.chains chains).lookup e) =
        fun e => (placeOf tables a e).map (fun p => (realChain allocated p.1,p.2)) := by
      funext e
      rw [lookup_update,hlk,placeOf]
      cases a.newChainTuples.lookup e with
      | some p => rfl
      | none =>
        cases tables.chains.lookup e <;> rfl
    rw [hp]
    apply hf.placed.rename
    intro e e' c d s t he he' heq
    exact realChain_injective hi hf orders.unallocated he he' (hal ▸ heq)
  · intro e c s he
    rw [hlk] at he
    obtain ⟨⟨ref,t⟩,hnew,hpa⟩ := map_eq_some_iff.mp he
    obtain ⟨rfl,rfl⟩ := mk.inj hpa
    cases ref with
    | allocated c => exact le_trans (hf.chainIds e c t hnew) (Nat.le_add_right _ _)
    | temporary n =>
      obtain ⟨i,hi',-,hm⟩ := allocatedMap_lookup orders.unallocated tables.lastChainId
        (hf.temporaries e n t hnew)
      simp only [realChain,hal,hm,getD_some]
      omega

end Resolve

end Synapse.ChainCoverIndex
