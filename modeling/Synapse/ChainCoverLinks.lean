import Synapse.ChainCoverAllocation

/-!
# The links of new events

A path found in the link map leads along stored links. What the reduction
leaves out of an event's auth events is reached through another one.
-/

set_option autoImplicit false

namespace Synapse.ChainCoverIndex
open Python Loops References Relation ChainCover TopologicalSort
open List Dict Option Finset

def linksOf (maps : LinkMap) : Set ChainLink :=
  {link | (linksBetween maps link.1.1 link.2.1).lookup link.1.2 = some link.2.2}

theorem linksBetween_setLink (mp : LinkMap) (src tg : ChainPosition) (c d : ℕ) :
    linksBetween (setLink mp src tg) c d =
      if c = src.1 ∧ d = tg.1 then (linksBetween mp src.1 tg.1).insert src.2 tg.2
      else linksBetween mp c d := by
  rw [linksBetween,setLink,lookup_set]
  by_cases hc : c = src.1
  · subst hc
    rw [if_pos rfl,getD_some,lookup_set]
    by_cases hd : d = tg.1
    · simp [hd]
    · simp only [hd]
      rfl
  · simp only [hc]
    rfl

theorem linksOf_setLink {mp : LinkMap} {src tg : ChainPosition} {lk : ChainLink}
    (h : lk ∈ linksOf (setLink mp src tg)) : lk ∈ linksOf mp ∨ lk = (src,tg) := by
  obtain ⟨⟨c,s⟩,d,t⟩ := lk
  have hl : (linksBetween (setLink mp src tg) c d).lookup s = some t := h
  rw [linksBetween_setLink] at hl
  split at hl
  · next hc =>
    obtain ⟨rfl,rfl⟩ := hc
    rw [lookup_set] at hl
    split at hl
    · next hs =>
      obtain rfl := hs
      exact .inr (by rw [← some.inj hl])
    · exact .inl hl
  · exact .inl hl

theorem addLink_ok (mp : LinkMap) {src tg : ChainPosition} (new : Bool) (hne : src.1 ≠ tg.1) :
    ∃ mp', addLink mp src tg new = .ok mp' ∧
      ∀ lk ∈ linksOf mp', lk ∈ linksOf mp ∨ lk = (src,tg) := by
  rw [addLink,if_neg hne]
  split
  · exact ⟨mp,rfl,fun _ h => .inl h⟩
  · exact ⟨_,rfl,fun _ h => linksOf_setLink h⟩

theorem mem_linksFrom {mp : LinkMap} {c tc ss ts : ℕ} (h : (tc,ss,ts) ∈ linksFrom mp c) :
    ((c,ss),(tc,ts)) ∈ linksOf mp := by
  rw [linksFrom,mem_flatMap] at h
  obtain ⟨⟨tc',lks⟩,hl,h⟩ := h
  obtain ⟨⟨ss',ts'⟩,hli,heq⟩ := mem_map.mp h
  obtain ⟨rfl,rfl,rfl⟩ : tc' = tc ∧ ss' = ss ∧ ts' = ts := by simpa using heq
  change (linksBetween mp c tc').lookup ss' = some ts'
  rw [linksBetween,AList.mem_lookup_iff.mpr hl]
  exact AList.mem_lookup_iff.mpr hli

theorem linksOf_empty : linksOf ∅ = ∅ := by
  simp [linksOf,linksBetween]

theorem loadLinks_ok (lks : List ChainLink) (ha : ∀ lk ∈ lks, lk.1.1 ≠ lk.2.1) (mp : LinkMap) :
    ∃ mp', lks.foldlM addOldLink mp = .ok mp' ∧ ∀ lk ∈ linksOf mp', lk ∈ linksOf mp ∨ lk ∈ lks := by
  induction lks generalizing mp with
  | nil => exact ⟨mp,rfl,fun _ h => .inl h⟩
  | cons first lks ih =>
    obtain ⟨mp₁,hf,hs⟩ := addLink_ok mp false (ha first (by simp))
    obtain ⟨mp₂,hr,hs'⟩ := ih (fun lk h => ha lk (by simp [h])) mp₁
    refine ⟨mp₂,?_,?_⟩
    · rw [foldlM_cons,addOldLink,hf]
      exact hr
    · intro lk hl
      rcases hs' lk hl with hone | hin
      · rcases hs lk hone with ho | rfl
        · exact .inl ho
        · exact .inr (by simp)
      · exact .inr (by simp [hin])

section Search

variable {maps : LinkMap} {target : ChainPosition}

variable {visited : Dict ℕ ℕ}

theorem scanLinks_none {seq : ℕ} {lks : List (ℕ × ℕ × ℕ)}
    (h : scanLinks visited seq target lks = none) :
    ∃ ss ts, (target.1,ss,ts) ∈ lks ∧ ss ≤ seq ∧ target.2 ≤ ts := by
  induction lks with
  | nil => simp [scanLinks] at h
  | cons lk lks ih =>
    obtain ⟨tc,ss,ts⟩ := lk
    by_cases hl : scanLinks visited seq target lks = none
    · obtain ⟨ss',ts',hm,hle⟩ := ih hl
      exact ⟨ss',ts',mem_cons_of_mem _ hm,hle⟩
    · rw [scanLinks] at h
      split_ifs at h with hs hss htc hts
      · exact absurd h hl
      · exact ⟨ss,ts,by simp [htc],hss,hts⟩
      · exact absurd h hl
      · exact absurd (map_eq_none_iff.mp h) hl
      · exact absurd h hl

theorem scanLinks_some {seq : ℕ} {lks : List (ℕ × ℕ × ℕ)} {pushed : List ChainPosition}
    (h : scanLinks visited seq target lks = some pushed) :
    ∀ p ∈ pushed, ∃ ss, (p.1,ss,p.2) ∈ lks ∧ ss ≤ seq := by
  induction lks generalizing pushed with
  | nil =>
    obtain rfl : pushed = [] := by simpa [scanLinks] using h.symm
    simp
  | cons lk lks ih =>
    obtain ⟨tc,ss,ts⟩ := lk
    have hl : ∀ rs, scanLinks visited seq target lks = some rs →
        ∀ p ∈ rs, ∃ ss', (p.1,ss',p.2) ∈ (tc,ss,ts)::lks ∧ ss' ≤ seq := by
      intro rs hr p hp
      obtain ⟨ss',hm,hle⟩ := ih hr p hp
      exact ⟨ss',mem_cons_of_mem _ hm,hle⟩
    rw [scanLinks] at h
    split_ifs at h with hs hss htc
    · exact hl pushed h
    · exact hl pushed h
    · obtain ⟨rs,hr,rfl⟩ := map_eq_some_iff.mp h
      exact forall_mem_cons.mpr ⟨⟨ss,by simp,hss⟩,hl rs hr⟩
    · exact hl pushed h

theorem searchLoop_sound {src : ChainPosition} {fuel : ℕ} {search : List ChainPosition}
    (hse : ∀ p ∈ search, Reaches (linksOf maps) src p)
    (h : searchLoop maps target fuel visited search = .ok true) :
    Reaches (linksOf maps) src target := by
  induction fuel generalizing visited search with
  | zero => cases search <;> simp [searchLoop] at h
  | succ fuel ih =>
    cases search with
    | nil => simp [searchLoop] at h
    | cons p search =>
      obtain ⟨ch,seq⟩ := p
      have hp : Reaches (linksOf maps) src (ch,seq) := hse _ (by simp)
      simp only [searchLoop] at h
      split at h
      · next hs =>
        obtain ⟨ss,ts,hm,hss,hts⟩ := scanLinks_none hs
        have hl : Reaches (linksOf maps) src (target.1,ts) :=
          ReflTransGen.tail hp (.along ch (mem_linksFrom hm) hss)
        exact ReflTransGen.tail hl (.down target.1 hts)
      · next pushed hs =>
        apply ih _ h
        intro q hq
        rcases mem_append.mp hq with hq | hq
        · obtain ⟨ss,hm,hss⟩ := scanLinks_some hs q (mem_reverse.mp hq)
          exact ReflTransGen.tail hp (.along ch (mem_linksFrom hm) hss)
        · exact hse q (by simp [hq])

section Ends

variable {α : Type} {next : α → List α} {pl : α → Option ChainPosition}

def SearchEnds (maps : LinkMap) (target : ChainPosition) (search : List ChainPosition) : Prop :=
  ∀ visited, ∃ found, Eventually (fun fuel => searchLoop maps target fuel visited search) found

theorem searchEnds_nil (maps : LinkMap) (target : ChainPosition) : SearchEnds maps target [] := by
  intro visited
  refine ⟨false,0,?_⟩
  intro fuel _
  cases fuel <;> rfl

theorem searchEnds_cons (wf : WellFounded (Refers next)) (h : Placed next pl)
    (hs : Sound next pl (linksOf maps)) {a : α} {p : ChainPosition} (ha : pl a = some p)
    {rs : List ChainPosition} (hre : SearchEnds maps target rs) :
    SearchEnds maps target (p::rs) := by
  induction a using wf.transGen.induction generalizing p rs with
  | _ a ih =>
    obtain ⟨ch,seq⟩ := p
    have hp : ∀ stack : List ChainPosition,
        (∀ q ∈ stack, ∃ ss, (q.1,ss,q.2) ∈ linksFrom maps ch ∧ ss ≤ seq) →
        SearchEnds maps target (stack ++ rs) := by
      intro stack hst
      induction stack with
      | nil => exact hre
      | cons q stack ihstack =>
        obtain ⟨ss,hm,hss⟩ := hst q (by simp)
        obtain ⟨o,b,ho,hb,hbo⟩ := hs _ _ (mem_linksFrom hm)
        obtain ⟨o',ho',hoa⟩ := h.chain ha (h.positive o ch ss ho) hss
        obtain rfl := h.unique o o' _ ho ho'
        exact ih b (TransGen.head' hbo hoa) hb (ihstack (fun r hr => hst r (by simp [hr])))
    intro visited
    cases hsc : scanLinks (visited.insert ch (max seq ((visited.lookup ch).getD 0))) seq
        target (linksFrom maps ch) with
    | none =>
      refine ⟨true,1,?_⟩
      intro fuel hf
      obtain ⟨fuel,rfl⟩ := Nat.exists_eq_add_of_le' hf
      simp only [searchLoop,hsc]
    | some pushed =>
      obtain ⟨fd,n,hn⟩ := hp pushed.reverse (fun q hq => scanLinks_some hsc q (mem_reverse.mp hq))
        (visited.insert ch (max seq ((visited.lookup ch).getD 0)))
      refine ⟨fd,n+1,?_⟩
      intro fuel hf
      obtain ⟨fuel,rfl⟩ := Nat.exists_eq_add_of_le' (le_of_add_le_right hf)
      simp only [searchLoop,hsc]
      exact hn fuel (by omega)

theorem existsPathFrom_eventually (wf : WellFounded (Refers next)) (h : Placed next pl)
    (hs : Sound next pl (linksOf maps)) {a : α} {src : ChainPosition} (ha : pl a = some src)
    (target : ChainPosition) :
    ∃ fd, Eventually (fun fuel => existsPathFrom maps fuel src target) fd ∧
      (fd = true → Reaches (linksOf maps) src target) := by
  by_cases hsa : src.1 = target.1
  · refine ⟨decide (target.2 ≤ src.2),⟨0,?_⟩,?_⟩
    · intro fuel _
      simp only [existsPathFrom,hsa,if_true]
    · intro hle
      obtain ⟨c,s⟩ := src
      obtain ⟨d,t⟩ := target
      obtain rfl : c = d := hsa
      exact .single (.down c (of_decide_eq_true hle))
  · obtain ⟨fd,n,hn⟩ := searchEnds_cons wf h hs ha (searchEnds_nil maps target) ∅
    refine ⟨fd,⟨n,?_⟩,?_⟩
    · intro fuel hf
      simp only [existsPathFrom,hsa]
      exact hn fuel hf
    · rintro rfl
      exact searchLoop_sound (by simp only [List.mem_singleton,forall_eq]; exact .refl)
        (hn n le_rfl)

end Ends

end Search

section Reduction

variable {chainMap : Dict String ChainPosition} {chainId : ℕ}

theorem mem_permutations2 {l : List String} {a b : String} (h : (a,b) ∈ permutations2 l) :
    a ∈ l ∧ b ∈ l ∧ (a = b → b ∈ l.erase b) := by
  rw [permutations2,mem_flatMap] at h
  obtain ⟨⟨a',i⟩,ha,h⟩ := h
  obtain ⟨b',hb,heq⟩ := mem_map.mp h
  obtain ⟨rfl,rfl⟩ := Prod.mk.inj heq
  obtain ⟨hi,hai : l[i] = a'⟩ := List.getElem?_eq_some_iff.mp (mem_zipIdx_iff_getElem?.mp ha)
  have ha' : a' ∈ l := hai ▸ getElem_mem hi
  refine ⟨ha',mem_of_mem_eraseIdx hb,?_⟩
  rintro rfl
  have hp : (a'::l.eraseIdx i).Perm (a'::l.erase a') :=
    (hai ▸ getElem_cons_eraseIdx_perm hi).trans (perm_cons_erase ha')
  exact ((perm_cons a').mp hp).mem_iff.mp hb

theorem permutations2_of_repeated {l : List String} {a : String} (h : a ∈ l.erase a) :
    (a,a) ∈ permutations2 l := by
  have hin := idxOf_lt_length_iff.mpr (mem_of_mem_erase h)
  rw [permutations2,mem_flatMap]
  refine ⟨(a,l.idxOf a),mem_zipIdx_iff_getElem?.mpr ?_,mem_map.mpr ⟨a,?_,rfl⟩⟩
  · simp [List.getElem?_eq_getElem hin]
  · rwa [← erase_eq_eraseIdx_of_idxOf rfl]

theorem otherChains_ok (chainId : ℕ) (au : List String) (hau : ∀ a ∈ au, a ∈ chainMap)
    (start : Finset String) :
    ∃ others, au.foldlM (otherChain chainMap chainId) start = .ok others ∧
      ∀ a, a ∈ others ↔ a ∈ start ∨ a ∈ au ∧ ∃ p, chainMap.lookup a = some p ∧ p.1 ≠ chainId := by
  induction au generalizing start with
  | nil => exact ⟨start,rfl,by simp⟩
  | cons first au ih =>
    obtain ⟨p,hp⟩ := mem_iff_lookup.mp (hau first (by simp))
    obtain ⟨others,hr,hm⟩ := ih (fun a ha => hau a (by simp [ha]))
      (if p.1 ≠ chainId then insert first start else start)
    refine ⟨others,?_,?_⟩
    · rw [foldlM_cons,otherChain,item_ok hp]
      exact hr
    · intro a
      rw [hm]
      by_cases heq : a = first
      · subst heq
        split
        · next hne => simp [hp,hne]
        · next hs => simp [hp,hs]
      · split <;> simp [heq]

variable {next : String → List String} {place : String → Option ChainPosition} {maps : LinkMap}

/-- The auth events on other chains are kept, repeated or reached from another
auth event. -/
structure Reduced (chainMap : Dict String ChainPosition) (maps : LinkMap) (chainId : ℕ)
    (auths : List String) (reduction : Finset String) : Prop where
  sub : ∀ a ∈ reduction, a ∈ auths ∧ ∃ p, chainMap.lookup a = some p ∧ p.1 ≠ chainId
  rest : ∀ a ∈ auths, ∀ p, chainMap.lookup a = some p → p.1 ≠ chainId →
    a ∈ reduction ∨ a ∈ auths.erase a ∨
      ∃ b ∈ auths, b ≠ a ∧ ∃ q, chainMap.lookup b = some q ∧ Reaches (linksOf maps) q p

theorem Reduced.discard {au : List String} {red : Finset String}
    (h : Reduced chainMap maps chainId au red) {a b : String} (hb : b ∈ au)
    (heq : b = a → a ∈ au.erase a) {p q : ChainPosition} (hp : chainMap.lookup a = some p)
    (hq : chainMap.lookup b = some q) (hre : Reaches (linksOf maps) q p) :
    Reduced chainMap maps chainId au (red.erase a) := by
  constructor
  · intro c hc
    exact h.sub c (Finset.mem_of_mem_erase hc)
  · intro c hc r hr ho
    by_cases hca : c = a
    · subst hca
      obtain rfl := some.inj (hp.symm.trans hr)
      by_cases hne : b = c
      · exact .inr (.inl (heq hne))
      · exact .inr (.inr ⟨b,hb,hne,q,hq,hre⟩)
    · exact (h.rest c hc r hr ho).imp_left (mem_erase.mpr ⟨hca,·⟩)

/-- An auth event that is compared with itself is left out. -/
theorem discardReachable_self {fuel : ℕ} {pairs : List (String × String)}
    {red red' : Finset String}
    (h : pairs.foldlM (discardReachable maps chainMap fuel) red = .ok red') :
    red' ⊆ red ∧ ∀ a, (a,a) ∈ pairs → a ∉ red' := by
  induction pairs generalizing red with
  | nil =>
    cases h
    simp
  | cons pair pairs ih =>
    obtain ⟨red₁,hs,hr⟩ := bind_eq_ok.mp h
    obtain ⟨hsub,hno⟩ := ih hr
    obtain ⟨start,hst,hs⟩ := bind_eq_ok.mp hs
    obtain ⟨stop,hsp,hs⟩ := bind_eq_ok.mp hs
    obtain ⟨found,hf,hs⟩ := bind_eq_ok.mp hs
    cases found with
    | true =>
      cases hs
      refine ⟨hsub.trans (erase_subset _ _),?_⟩
      intro a ha
      rcases mem_cons.mp ha with rfl | ha
      · exact fun hin => notMem_erase _ _ (hsub hin)
      · exact hno a ha
    | false =>
      cases hs
      refine ⟨hsub,?_⟩
      intro a ha
      rcases mem_cons.mp ha with rfl | ha
      · -- a position is reached from itself at once
        obtain rfl := Except.ok.inj (hst.symm.trans hsp)
        simp [existsPathFrom] at hf
      · exact hno a ha

theorem reductionOf_eventually (wf : WellFounded (Refers next)) (h : Placed next place)
    (hs : Sound next place (linksOf maps))
    (hmap : ∀ a p, chainMap.lookup a = some p → place a = some p) {au : List String}
    (hau : ∀ a ∈ au, a ∈ chainMap) (chainId : ℕ) :
    ∃ red, Eventually (fun fuel => reductionOf maps chainMap fuel chainId au) red ∧
      Reduced chainMap maps chainId au red ∧ ∀ a ∈ red, a ∉ au.erase a := by
  obtain ⟨others,ho,hm⟩ := otherChains_ok chainId au hau ∅
  have hst : Reduced chainMap maps chainId au others := by
    constructor
    · intro a ha
      exact ((hm a).mp ha).resolve_left (notMem_empty a)
    · intro a ha p hp hne
      exact .inl ((hm a).mpr (.inr ⟨ha,p,hp,hne⟩))
  obtain ⟨red,⟨n,hl⟩,hred⟩ := eventually_foldlM
    (f := discardReachable maps chainMap) (P := Reduced chainMap maps chainId au) (by
      rintro ⟨b,a⟩ hpa red hred
      obtain ⟨hb,ha,heq⟩ := mem_permutations2 hpa
      obtain ⟨q,hq⟩ := mem_iff_lookup.mp (hau b hb)
      obtain ⟨p,hp⟩ := mem_iff_lookup.mp (hau a ha)
      obtain ⟨fd,hf,hr⟩ := existsPathFrom_eventually wf h hs (hmap b q hq) p
      simp only [discardReachable,item_ok hq,item_ok hp]
      cases fd with
      | false => exact ⟨_,hf.bind (eventually_ok _),hred⟩
      | true => exact ⟨_,hf.bind (eventually_ok _),hred.discard hb heq hp hq (hr rfl)⟩)
    hst
  refine ⟨red,⟨n,?_⟩,hred,?_⟩
  · simp only [reductionOf,ho]
    exact hl
  · intro a ha hrep
    exact (discardReachable_self (hl n le_rfl)).2 a (permutations2_of_repeated hrep) ha

end Reduction

section Linking

variable {all : Dict String StateRow} {tables : Tables} {place : String → Option ChainPosition}
  {cm : Dict String ChainPosition}

/-- The link map and the new links once the events in `done` are linked. -/
structure Linking (all : Dict String StateRow) (tables : Tables)
    (place : String → Option ChainPosition) (done : Finset String)
    (state : LinkMap × List ChainLink) : Prop where
  maps : ∀ link ∈ linksOf state.1, link ∈ tables.links ++ state.2
  sound : Sound (once (authsIn all)) place {link | link ∈ tables.links ++ state.2}
  apart : ∀ link ∈ state.2, link.1.1 ≠ link.2.1
  complete : RepeatsReached (authsIn all) place → ∀ eventId ∈ done, ∀ p,
    place eventId = some p → ∀ authId ∈ authsIn all eventId, ∀ q, place authId = some q →
      Reaches {link | link ∈ tables.links ++ state.2} p q

variable {eid : String} {dn : Finset String} {st : LinkMap × List ChainLink}

theorem Linking.linkTo (h : Linking all tables place dn st)
    (hm : ∀ a p, cm.lookup a = some p → place a = some p) {aid : String} {src tg : ChainPosition}
    (hsrc : place eid = some src) (ht : cm.lookup aid = some tg)
    (hau : aid ∈ once (authsIn all) eid) (hne : tg.1 ≠ src.1) :
    ∃ mp, linkTo cm src st aid = .ok (mp,st.2 ++ [(src,tg)]) ∧
      Linking all tables place dn (mp,st.2 ++ [(src,tg)]) := by
  obtain ⟨mp,hadd,hs⟩ := addLink_ok st.1 true hne.symm
  refine ⟨mp,?_,?_,?_,?_,?_⟩
  · rw [ChainCoverIndex.linkTo,item_ok ht,ok_bind,hadd]
    rfl
  · intro lk hl
    rw [← append_assoc,mem_append,List.mem_singleton]
    exact (hs lk hl).imp_left (h.maps lk)
  · intro p q hl
    rw [Set.mem_ofPred_eq,← append_assoc,mem_append,List.mem_singleton] at hl
    rcases hl with hl | heq
    · exact h.sound p q hl
    · obtain ⟨rfl,rfl⟩ := Prod.mk.inj heq
      exact ⟨eid,aid,hsrc,hm aid _ ht,hau⟩
  · exact forall_mem_append.mpr ⟨h.apart,forall_mem_singleton.mpr hne.symm⟩
  · intro hrep e he p hp a ha q hq
    apply (h.complete hrep e he p hp a ha q hq).mono
    intro lk hl
    rw [← append_assoc]
    exact mem_append_left _ hl

theorem Linking.linkAll {src : ChainPosition} (hm : ∀ a p, cm.lookup a = some p → place a = some p)
    (hsrc : place eid = some src) (kept : List String)
    (hk : ∀ a ∈ kept, a ∈ once (authsIn all) eid ∧ ∃ p, cm.lookup a = some p ∧ p.1 ≠ src.1)
    (h : Linking all tables place dn st) :
    ∃ st', kept.foldlM (ChainCoverIndex.linkTo cm src) st = .ok st' ∧
      Linking all tables place dn st' ∧ (∀ lk ∈ st.2, lk ∈ st'.2) ∧
      ∀ a ∈ kept, ∀ p, cm.lookup a = some p → (src,p) ∈ st'.2 := by
  induction kept generalizing st with
  | nil => exact ⟨st,rfl,h,fun _ hl => hl,by simp⟩
  | cons first kept ih =>
    obtain ⟨hau,tg,ht,hne⟩ := hk first (by simp)
    obtain ⟨mp,hs,h₁⟩ := h.linkTo hm hsrc ht hau hne
    obtain ⟨st',hr,h',hg,hli⟩ := ih (fun a ha => hk a (by simp [ha])) h₁
    refine ⟨st',?_,h',?_,?_⟩
    · rw [foldlM_cons,hs]
      exact hr
    · intro lk hln
      exact hg lk (mem_append_left _ hln)
    · intro a ha p hp
      rcases mem_cons.mp ha with rfl | ha
      · obtain rfl := some.inj (ht.symm.trans hp)
        exact hg _ (by simp)
      · exact hli a ha p hp

theorem below_of_same_chain (wf : WellFounded (Refers (authsIn all)))
    (h : Placed (authsIn all) place) {aid : String} {c s t : ℕ} (he : place eid = some (c,s))
    (ha : place aid = some (c,t)) (hin : aid ∈ authsIn all eid) : t ≤ s := by
  by_contra hlt
  obtain ⟨o,ho,hl⟩ := h.chain ha (h.positive eid c s he) (by omega)
  obtain rfl := h.unique o eid _ ho he
  exact wf.transGen.irrefl.irrefl _ (TransGen.head' hin hl)

theorem linkEvent_linking (wf : WellFounded (Refers (authsIn all)))
    (hpl : Placed (authsIn all) place) (orders : Orders) {g : Gathered}
    (hm : ∀ a p, cm.lookup a = some p → place a = some p) (hev : eid ∈ cm)
    (hli : g.auths.lookup eid = some (authsIn all eid))
    (hau : ∀ a ∈ authsIn all eid, a ∈ cm) (h : Linking all tables place dn st)
    (hab : RepeatsReached (authsIn all) place → ∀ b ∈ authsIn all eid, ∀ q, place b = some q →
      ∀ a, ReflTransGen (Refers (authsIn all)) a b → ∀ p, place a = some p →
        Reaches {lk | lk ∈ tables.links ++ st.2} q p) :
    ∃ st', Eventually (fun fuel => linkEvent orders g cm fuel st eid) st' ∧
      Linking all tables place (insert eid dn) st' := by
  obtain ⟨src,hsrc⟩ := mem_iff_lookup.mp hev
  have hso : Sound (authsIn all) place (linksOf st.1) :=
    fun p q hl => sound_of_once h.sound p q (h.maps _ hl)
  obtain ⟨red,hred,hre,honce⟩ := reductionOf_eventually wf hpl hso hm hau src.1
  obtain ⟨st',hf,h',hg,hln⟩ := h.linkAll hm (hm _ _ hsrc) ((orders.reduction eid).list red) (by
    intro a ha
    have hr := ((orders.reduction eid).mem _ _).mp ha
    obtain ⟨hin,ho⟩ := hre.sub a hr
    exact ⟨mem_filter.mpr ⟨hin,decide_eq_true (honce a hr)⟩,ho⟩)
  refine ⟨st',?_,h'.maps,h'.sound,h'.apart,?_⟩
  · simp only [linkEvent,item_ok hsrc,hli]
    exact hred.bind ⟨0,fun _ _ => hf⟩
  · intro hrep e he p hp a ha q hq
    rcases mem_insert.mp he with rfl | he
    · obtain rfl := some.inj ((hm _ _ hsrc).symm.trans hp)
      refine hpl.reaches_of_pruned (sound_of_once h'.sound) wf ?_ ha hq
      intro b hb r hr
      obtain ⟨r',hr'⟩ := mem_iff_lookup.mp (hau b hb)
      obtain rfl := some.inj (hr.symm.trans (hm _ _ hr'))
      by_cases hs : r.1 = src.1
      · -- on the event's own chain the auth event is reached by stepping down
        obtain ⟨c,t⟩ := r
        obtain ⟨d,s⟩ := src
        obtain rfl : c = d := hs
        exact .inl (.single (.down c (below_of_same_chain wf hpl hp hr hb)))
      · have hmo : ∀ lk ∈ tables.links ++ st.2, lk ∈ tables.links ++ st'.2 := by
          intro lk hl
          rcases mem_append.mp hl with ho | hnew
          · exact mem_append_left _ ho
          · exact mem_append_right _ (hg lk hnew)
        rcases hre.rest b hb r hr' hs with hk | hb₂ | ⟨b',hb',hne,r₁,hr₁,hrc⟩
        · have hl := hln b (((orders.reduction e).mem _ _).mpr hk) r hr'
          exact .inl (.single (.along src.1 (mem_append_right _ hl) le_rfl))
        · obtain ⟨b',hb',hne,hbb⟩ := (hrep e src hp b hb₂ r hr).resolve_left hs
          obtain ⟨r₁,hr₁⟩ := mem_iff_lookup.mp (hau b' hb')
          have hrc := hab hrep b' hb' r₁ (hm _ _ hr₁) b hbb r hr
          exact .inr ⟨b',hb',hne,r₁,hm _ _ hr₁,hrc.mono hmo⟩
        · exact .inr ⟨b',hb',hne,r₁,hm _ _ hr₁,hrc.mono (fun lk hl => hmo lk (h.maps lk hl))⟩
    · exact h'.complete hrep e he p hp a ha q hq

end Linking

end Synapse.ChainCoverIndex
