import Synapse.DeferredCache

/-!
# Callbacks of deferred caches

A callback that was registered for a key is kept with the entry that it is for, and moves on
to the node of the key when the entry completes. As long as no entry is pushed out while it
has callbacks, each of them is called when its value goes.
-/

set_option autoImplicit false

namespace Synapse.DeferredCache
open Dict Runs List Option

variable {A V C : Type} [DecidableEq A] [DecidableEq C]

def Current (w : Cache A V C) (r : Registration A C) : Prop :=
  w.pendingDeferredCache.lookup r.key = some r.origin ∨
    ∃ node, w.cache.lookup r.key = some node ∧ r.origin ∈ node.origins

def WithEntry (w : Cache A V C) (r : Registration A C) : Prop :=
  w.pendingDeferredCache.lookup r.key = some r.origin ∧ r.callback ∈ callbacksOf w r.origin r.key

def WithNode (w : Cache A V C) (r : Registration A C) : Prop :=
  ∃ node, w.cache.lookup r.key = some node ∧ r.origin ∈ node.origins ∧ r.callback ∈ node.callbacks

def Attached (w : Cache A V C) (r : Registration A C) : Prop := WithEntry w r ∨ WithNode w r

structure Inv (w : Cache A V C) : Prop where
  known : ∀ key origin, w.pendingDeferredCache.lookup key = some origin → origin < w.next
  attached : ∀ r ∈ w.outstanding, Attached w r

/-- No callbacks would be lost with the entry that is pending for a key. -/
def Replaceable (w : Cache A V C) (key : Key A) : Prop :=
  ∀ origin ∈ w.pendingDeferredCache.lookup key, callbacksOf w origin key = []

/-- No entry is replaced that has callbacks for the key; and where keys are invalidated by a
shorter one, no entry for several keys has callbacks for one of them. -/
def Careful (tree : Bool) (op : Op A V C) (w : Cache A V C) : Prop :=
  match op with
  | .set key _ => Replaceable w key
  | .startBulkInput keys _ => ∀ key ∈ keys, Replaceable w key
  | .prefill key _ _ => Replaceable w key
  | .invalidate key => ∀ entry ∈ w.pendingDeferredCache.entries, covers tree key entry.1 = true →
      ∀ callback ∈ callbacksOf w entry.2 entry.1, callback ∈ callbacksOf w entry.2 key
  | _ => True

instance decidableReplaceable (w : Cache A V C) (key : Key A) : Decidable (Replaceable w key) :=
  inferInstanceAs (Decidable (∀ origin ∈ w.pendingDeferredCache.lookup key, _))

instance decidableCareful (tree : Bool) (op : Op A V C) (w : Cache A V C) :
    Decidable (Careful tree op w) :=
  match op with
  | .set key _ => decidableReplaceable w key
  | .startBulkInput keys _ => inferInstanceAs (Decidable (∀ key ∈ keys, Replaceable w key))
  | .prefill key _ _ => decidableReplaceable w key
  | .invalidate _ => inferInstanceAs (Decidable (∀ entry ∈ w.pendingDeferredCache.entries, _ → _))
  | .get _ _ | .getBulk _ _ | .completed _ _ | .failed _ | .completeBulk _ _ | .errorBulk _ _
  | .invalidateAll | .evict _ => inferInstanceAs (Decidable True)

variable {w : Cache A V C} {r : Registration A C} {cb : Option C}

theorem mem_addCallback {cbs : List C} {c : C} :
    c ∈ addCallback cbs cb ↔ c ∈ cbs ∨ cb = some c := by
  cases cb with
  | none => simp [addCallback]
  | some d =>
    rw [addCallback,mem_insert_iff,some.injEq]
    constructor
    · rintro (rfl | h)
      · exact .inr rfl
      · exact .inl h
    · rintro (h | rfl)
      · exact .inr h
      · exact .inl rfl

theorem mem_addInvalidationCallback (e : CacheEntry A C) (key k : Key A) {c : C}
    (h : c ∈ e.getInvalidationCallbacks k ∨ k = key ∧ cb = some c) :
    c ∈ (e.addInvalidationCallback key cb).getInvalidationCallbacks k := by
  cases e with
  | single k' cbs =>
    show c ∈ addCallback cbs cb
    rw [mem_addCallback]
    exact h.imp id And.right
  | multiple cbs globalCallbacks =>
    cases cb with
    | none =>
      rcases h with h | h
      · exact h
      · cases h.2
    | some d =>
      show c ∈ ((cbs.insert key (((cbs.lookup key).getD []).insert d)).lookup k).getD []
        ∪ globalCallbacks
      simp only [CacheEntry.getInvalidationCallbacks,mem_union_iff,some.injEq] at h ⊢
      rw [lookup_set]
      by_cases hk : k = key
      · subst hk
        rw [if_pos rfl,getD_some,mem_insert_iff]
        tauto
      · rw [if_neg hk]
        tauto

theorem callbacksOf_insert (w : Cache A V C) (og o : ℕ) (e : CacheEntry A C) (next : ℕ)
    (k : Key A) :
    callbacksOf { w with entries := w.entries.insert og e, next := next } o k =
      if o = og then e.getInvalidationCallbacks k else callbacksOf w o k := by
  unfold callbacksOf
  rw [lookup_set]
  split <;> rfl

omit [DecidableEq A] [DecidableEq C] in
theorem mem_register {key : Key A} {og : ℕ} :
    r ∈ (register key og cb w).outstanding ↔
      r ∈ w.outstanding ∨ r.key = key ∧ r.origin = og ∧ cb = some r.callback := by
  cases cb with
  | none => simp [register]
  | some c =>
    simp only [register,map_some,toList_some,singleton_append,mem_cons,some.injEq]
    constructor
    · rintro (rfl | h)
      · exact .inr ⟨rfl,rfl,rfl⟩
      · exact .inl h
    · rintro (h | ⟨rfl,rfl,rfl⟩)
      · exact .inr h
      · exact .inl rfl

theorem mem_runCallbacks {key : Key A} {cbs : List C} :
    r ∈ (runCallbacks key cbs w).outstanding ↔
      r ∈ w.outstanding ∧ ¬(r.key = key ∧ r.callback ∈ cbs) := by
  rw [runCallbacks,mem_filter,decide_eq_true_eq]

theorem mem_runAll {β : Type*} {es : List β} {key : β → Key A} {cbs : Cache A V C → β → List C}
    (hc : ∀ w k l e, cbs (runCallbacks k l w) e = cbs w e)
    (h : r ∈ (es.foldl (fun w e => runCallbacks (key e) (cbs w e) w) w).outstanding) :
    r ∈ w.outstanding ∧ ∀ e ∈ es, r.key = key e → r.callback ∉ cbs w e := by
  induction es generalizing w with
  | nil => exact ⟨h,by simp⟩
  | cons e es ih =>
    obtain ⟨ho,hr⟩ := ih h
    rw [mem_runCallbacks] at ho
    refine ⟨ho.1,?_⟩
    intro e' he' hk
    rcases mem_cons.mp he' with rfl | he'
    · exact fun hin => ho.2 ⟨hk,hin⟩
    · exact hc w .. ▸ hr e' he' hk

section Steps

variable {w : Cache A V C}

variable {key : Key A} {r : Registration A C} {w' : Cache A V C} {nd : Node V C} {org : ℕ}
  {cb : Option C}

theorem Attached.alike (h : Attached w r) (ha : Alike w w') : Attached w' r := by
  unfold Attached WithEntry WithNode callbacksOf at h ⊢
  rw [ha.pending,ha.cache,ha.entries]
  exact h

theorem Inv.alike (h : Inv w) (ha : Alike w w')
    (ho : ∀ r ∈ w'.outstanding, r ∈ w.outstanding ∨ Attached w r) : Inv w' where
  known := by
    rw [ha.pending,ha.next]
    exact h.known
  attached := by
    intro r hr
    rcases ho r hr with hr | hr
    · exact (h.attached r hr).alike ha
    · exact hr.alike ha

theorem lookup_cacheSet [DecidableEq V] (key k : Key A) (v : V) (cbs : List C) (org : ℕ)
    (w : Cache A V C) :
    ∃ nd, (cacheSet key v cbs org w).cache.lookup k =
      (if k = key then some nd else w.cache.lookup k) ∧ org ∈ nd.origins ∧
        ∀ c ∈ cbs, c ∈ nd.callbacks := by
  unfold cacheSet
  split
  · next nd hn =>
    split
    · exact ⟨⟨v,cbs,[org]⟩,lookup_set _ _ _ _,mem_singleton_self _,fun c hc => hc⟩
    · exact ⟨⟨v,nd.callbacks ∪ cbs,org::nd.origins⟩,lookup_set _ _ _ _,
        mem_cons_self,fun c hc => mem_union_right _ hc⟩
  · exact ⟨⟨v,cbs,[org]⟩,lookup_set _ _ _ _,mem_singleton_self _,fun c hc => hc⟩

omit [DecidableEq C] in
theorem withNode_set (hk : r.key = key) (ho : r.origin ∈ nd.origins)
    (hc : r.callback ∈ nd.callbacks) : WithNode { w with cache := w.cache.insert key nd } r :=
  ⟨nd,by rw [lookup_set,if_pos hk],ho,hc⟩

theorem Attached.setNode (h : Attached w r)
    (hk : ∀ nd' ∈ w.cache.lookup key, r.key = key → r.origin ∈ nd'.origins →
      r.callback ∈ nd'.callbacks → r.origin ∈ nd.origins ∧ r.callback ∈ nd.callbacks) :
    Attached { w with cache := w.cache.insert key nd } r := by
  rcases h with h | ⟨nd',hn',ho,hc⟩
  · exact .inl h
  · right
    by_cases hkey : r.key = key
    · obtain ⟨ho,hc⟩ := hk nd' (hkey ▸ hn') hkey ho hc
      exact withNode_set hkey ho hc
    · exact ⟨nd',by rw [lookup_set,if_neg hkey]; exact hn',ho,hc⟩

theorem cacheSet_attached [DecidableEq V] (key : Key A) (v : V) (cbs : List C) (org : ℕ)
    (h : ∀ r ∈ w.outstanding, Attached w r ∨ r.key = key ∧ r.origin = org ∧ r.callback ∈ cbs) :
    ∀ r ∈ (cacheSet key v cbs org w).outstanding, Attached (cacheSet key v cbs org w) r := by
  intro r hr
  cases hn : w.cache.lookup key with
  | some nd =>
    by_cases hne : v ≠ nd.value
    · simp only [cacheSet,hn,if_pos hne] at hr ⊢
      obtain ⟨hr,hk⟩ := mem_runCallbacks.mp hr
      rcases h r hr with hr | ⟨hkey,rfl,hc⟩
      · apply (hr.alike (runCallbacks_alike w key nd.callbacks)).setNode
        intro nd' hn' hkey _ hin
        cases hn.symm.trans hn'
        exact absurd ⟨hkey,hin⟩ hk
      · exact .inr (withNode_set hkey (mem_singleton_self _) hc)
    · simp only [cacheSet,hn,if_neg hne] at hr ⊢
      rcases h r hr with hr | ⟨hkey,rfl,hc⟩
      · apply hr.setNode
        intro nd' hn' _ ho hin
        cases hn.symm.trans hn'
        exact ⟨mem_cons_of_mem _ ho,mem_union_left hin _⟩
      · exact .inr (withNode_set hkey mem_cons_self (mem_union_right _ hc))
  | none =>
    simp only [cacheSet,hn] at hr ⊢
    rcases h r hr with hr | ⟨hkey,rfl,hc⟩
    · apply hr.setNode
      intro nd' hn'
      cases hn.symm.trans hn'
    · exact .inr (withNode_set hkey (mem_singleton_self _) hc)

theorem cacheSet_pending [DecidableEq V] (key : Key A) (v : V) (cbs : List C) (org : ℕ)
    (w : Cache A V C) :
    (cacheSet key v cbs org w).pendingDeferredCache = w.pendingDeferredCache ∧
      (cacheSet key v cbs org w).entries = w.entries ∧
        (cacheSet key v cbs org w).next = w.next := by
  unfold cacheSet
  split
  · split <;> exact ⟨rfl,rfl,rfl⟩
  · exact ⟨rfl,rfl,rfl⟩

theorem Attached.popPending (h : Attached w r) (key : Key A) :
    Attached { w with pendingDeferredCache := w.pendingDeferredCache.erase key } r ∨
      r.key = key ∧ WithEntry w r := by
  rcases h with h | h
  · by_cases hk : r.key = key
    · exact .inr ⟨hk,h⟩
    · left
      left
      refine ⟨?_,h.2⟩
      rw [lookup_pop,if_neg hk]
      exact h.1
  · exact .inl (.inr h)

theorem known_pop (h : Inv w) (key : Key A) :
    ∀ k org, (w.pendingDeferredCache.erase key).lookup k = some org → org < w.next := by
  intro k org ho
  exact h.known k org (pop_cases ho).2

theorem Inv.completedCallback [DecidableEq V] (h : Inv w) (v : V) (org : ℕ) (key : Key A) :
    Inv (completedCallback v org key w) := by
  unfold DeferredCache.completedCallback
  split
  · next hp =>
    obtain ⟨hs,-,hn⟩ := cacheSet_pending key v (callbacksOf w org key) org
      { w with pendingDeferredCache := w.pendingDeferredCache.erase key }
    constructor
    · rw [hs,hn]
      exact known_pop h key
    · apply cacheSet_attached
      intro r hr
      rcases (h.attached r hr).popPending key with hr | ⟨hk,he,hc⟩
      · exact .inl hr
      · rw [hk,hp] at he
        cases he
        exact .inr ⟨hk,rfl,hk ▸ hc⟩
  · exact h

theorem Inv.errorCallback (h : Inv w) (org : ℕ) (key : Key A) : Inv (errorCallback org key w) := by
  unfold DeferredCache.errorCallback
  split
  · next hp =>
    constructor
    · exact known_pop h key
    · intro r hr
      obtain ⟨hr,hk⟩ := mem_runCallbacks.mp hr
      rcases (h.attached r hr).popPending key with hr | ⟨hkey,he,hc⟩
      · exact hr.alike (runCallbacks_alike _ key _)
      · rw [hkey,hp] at he
        cases he
        exact absurd ⟨hkey,hkey ▸ hc⟩ hk
  · exact h

theorem Inv.prefill [DecidableEq V] (h : Inv w) (hk : Replaceable w key) (v : V) (cb : Option C) :
    Inv (prefill key v cb w) := by
  have hb : ∀ r ∈ w.outstanding, Attached { w with next := w.next+1 } r := h.attached
  obtain ⟨hp,hen,hne⟩ := cacheSet_pending key v (addCallback [] cb) w.next
    { w with next := w.next+1 }
  have ha := cacheSet_attached (w := { w with next := w.next+1 }) key v
    (addCallback [] cb) w.next (fun r hr => .inl (hb r hr))
  constructor
  · intro k org ho
    change AList.lookup k (AList.erase key (cacheSet _ _ _ _ _).pendingDeferredCache) = _ at ho
    change org < (cacheSet _ _ _ _ _).next
    rw [hp,lookup_pop] at ho
    rw [hne]
    split at ho
    · cases ho
    · exact (h.known k org ho).trans (Nat.lt_succ_self _)
  · intro r hr
    rcases mem_register.mp hr with hr | ⟨hrk,ho,hc⟩
    · rcases (ha r hr).popPending key with hr | ⟨hrk,he,hin⟩
      · exact hr.alike (register_alike _ key _ cb)
      · rw [hp,hrk] at he
        have hno := hk r.origin he
        rw [callbacksOf,hen,hrk] at hin
        change r.callback ∈ callbacksOf w r.origin key at hin
        rw [hno] at hin
        cases hin
    · right
      obtain ⟨nd,hn,hin,hca⟩ := lookup_cacheSet key r.key v
        (addCallback [] cb) w.next { w with next := w.next+1 }
      rw [if_pos hrk] at hn
      exact ⟨nd,hn,ho ▸ hin,hca _ (mem_addCallback.mpr (.inr hc))⟩

theorem Inv.getPending (h : Inv w) (cb : Option C)
    (hor : w.pendingDeferredCache.lookup key = some org) : Inv (getPending key cb org w) := by
  unfold DeferredCache.getPending
  split
  · exact h
  · next e he =>
    have hca : ∀ o k c, c ∈ callbacksOf w o k ∨ o = org ∧ k = key ∧ cb = some c →
        c ∈ callbacksOf { w with
          entries := w.entries.insert org (e.addInvalidationCallback key cb) } o k := by
      intro o k c hc
      rw [callbacksOf_insert w org o _ w.next k]
      split
      · next heq =>
        apply mem_addInvalidationCallback
        rcases hc with hc | ⟨-,hk,hc⟩
        · rw [callbacksOf,heq,he] at hc
          exact .inl hc
        · exact .inr ⟨hk,hc⟩
      · next hne =>
        rcases hc with hc | ⟨heq,-⟩
        · exact hc
        · exact absurd heq hne
    constructor
    · exact h.known
    · intro r hr
      rcases mem_register.mp hr with hr | ⟨hkey,ho,hc⟩
      · rcases h.attached r hr with hr | hr
        · exact .inl ⟨hr.1,hca _ _ _ (.inl hr.2)⟩
        · exact .inr hr
      · left
        constructor
        · rw [hkey,ho]
          exact hor
        · exact hca _ _ _ (.inr ⟨ho,hkey,hc⟩)

omit [DecidableEq A] [DecidableEq C] in
theorem mem_registerAll {origins : List ℕ}
    (h : r ∈ (origins.foldl (fun w org => register key org cb w) w).outstanding) :
    r ∈ w.outstanding ∨ r.key = key ∧ r.origin ∈ origins ∧ cb = some r.callback := by
  induction origins generalizing w with
  | nil => exact .inl h
  | cons org origins ih =>
    rcases ih h with h | ⟨hk,ho,hc⟩
    · rcases mem_register.mp h with h | ⟨hk,ho,hc⟩
      · exact .inl h
      · exact .inr ⟨hk,ho ▸ mem_cons_self,hc⟩
    · exact .inr ⟨hk,mem_cons_of_mem org ho,hc⟩

section

variable (h : Inv w)
include h

theorem Inv.getNode (cb : Option C) (hn : w.cache.lookup key = some nd) :
    Inv (getNode key cb nd w) := by
  have hs : Inv { w with
      cache := w.cache.insert key { nd with callbacks := addCallback nd.callbacks cb } } := by
    constructor
    · exact h.known
    · intro r hr
      apply (h.attached r hr).setNode
      intro nd' hn' _ ho hc
      cases hn.symm.trans hn'
      exact ⟨ho,mem_addCallback.mpr (.inl hc)⟩
  apply hs.alike (foldl_alike _ (fun w org => register_alike w key org cb) _ _)
  intro r hr
  rcases mem_registerAll hr with hr | ⟨hk,ho,hc⟩
  · exact .inl hr
  · exact .inr (.inr (withNode_set hk ho (mem_addCallback.mpr (.inr hc))))

theorem Inv.get (key : Key A) (cb : Option C) : Inv (get key cb w).2 := by
  unfold DeferredCache.get
  split
  · next ho => exact h.getPending cb ho
  · split
    · next hn => exact h.getNode cb hn
    · exact h

theorem Inv.getBulkKey (cb : Option C) (key : Key A) : Inv (getBulkKey cb w key) := by
  unfold DeferredCache.getBulkKey
  split
  · next hn => exact h.getNode cb hn
  · split
    · next ho => exact h.getPending cb ho
    · exact h

theorem Inv.newEntry (e : CacheEntry A C) :
    Inv { w with entries := w.entries.insert w.next e, next := w.next+1 } := by
  constructor
  · intro key org ho
    exact (h.known key org ho).trans (Nat.lt_succ_self _)
  · intro r hr
    rcases h.attached r hr with ⟨he,hc⟩ | hr
    · left
      refine ⟨he,?_⟩
      have hlt := h.known r.key r.origin he
      rw [callbacksOf_insert,if_neg (by omega)]
      exact hc
    · exact .inr hr

theorem Inv.setPending (hor : org < w.next)
    (hk : ∀ o ∈ w.pendingDeferredCache.lookup key, o ≠ org → callbacksOf w o key = [])
    (hca : ∀ c ∈ cb, c ∈ callbacksOf w org key) :
    Inv (register key org cb
      { w with pendingDeferredCache := w.pendingDeferredCache.insert key org }) := by
  constructor
  · intro k o ho
    change (w.pendingDeferredCache.insert key org).lookup k = some o at ho
    rcases set_cases ho with ⟨-,rfl⟩ | ⟨-,ho⟩
    · exact hor
    · exact h.known k o ho
  · intro r hr
    rcases mem_register.mp hr with hr | ⟨hrk,rfl,hc⟩
    · rcases h.attached r hr with ⟨he,hc⟩ | hr
      · left
        refine ⟨?_,hc⟩
        show (w.pendingDeferredCache.insert key org).lookup r.key = some r.origin
        rw [lookup_set]
        split
        · next hrk =>
          by_contra hne
          rw [hrk] at he hc
          rw [hk r.origin he (fun heq => hne (by rw [heq]))] at hc
          cases hc
        · exact he
      · exact .inr hr
    · left
      constructor
      · show (w.pendingDeferredCache.insert key r.origin).lookup r.key = some r.origin
        rw [lookup_set,if_pos hrk]
      · rw [hrk]
        exact hca r.callback hc

theorem Inv.set (hk : Replaceable w key) (cb : Option C) : Inv (set key cb w) := by
  apply (h.newEntry (.single key (addCallback [] cb))).setPending (Nat.lt_succ_self _)
  · intro o ho _
    rw [callbacksOf_insert,if_neg (by omega)]
    exact hk o ho
  · intro c hc
    rw [callbacksOf_insert,if_pos rfl]
    exact mem_addCallback.mpr (.inr hc)

end

theorem foldl_setPending (ks : List (Key A)) (w : Cache A V C) (h : Inv w) (hor : org < w.next)
    (hke : ∀ key ∈ ks, ∀ o ∈ w.pendingDeferredCache.lookup key, o ≠ org → callbacksOf w o key = [])
    (hc : ∀ key, ∀ c ∈ cb, c ∈ callbacksOf w org key) :
    Inv (ks.foldl (fun w' key => register key org cb
      { w' with pendingDeferredCache := w'.pendingDeferredCache.insert key org }) w) := by
  induction ks generalizing w with
  | nil => exact h
  | cons key ks ih =>
    apply ih
    · exact h.setPending hor (hke key mem_cons_self) (hc key)
    · exact hor
    · intro k hk o ho hne
      change (w.pendingDeferredCache.insert key org).lookup k = some o at ho
      rcases set_cases ho with ⟨-,rfl⟩ | ⟨-,ho⟩
      · exact absurd rfl hne
      · exact hke k (mem_cons_of_mem key hk) o ho hne
    · exact hc

theorem Inv.startBulkInput (h : Inv w) {ks : List (Key A)} (hk : ∀ key ∈ ks, Replaceable w key)
    (cb : Option C) : Inv (startBulkInput ks cb w) := by
  apply foldl_setPending ks _ (h.newEntry (.multiple ∅ (addCallback [] cb))) (Nat.lt_succ_self _)
  · intro key hkey o ho _
    rw [callbacksOf_insert,if_neg (by omega)]
    exact hk key hkey o ho
  · intro key c hc
    rw [callbacksOf_insert,if_pos rfl]
    exact mem_union_right _ (mem_addCallback.mpr (.inr hc))

theorem callbacksOf_alike (ha : Alike w w') (org : ℕ) (key : Key A) :
    callbacksOf w' org key = callbacksOf w org key := by
  rw [callbacksOf,callbacksOf,ha.entries]

theorem Inv.invalidate (h : Inv w) {tr : Bool}
    (hca : Careful (V := V) tr (.invalidate key) w) : Inv (invalidate tr key w) := by
  by_cases hk : tr = true ∧ key = []
  · rw [DeferredCache.invalidate,if_pos hk]
    exact h
  · have ha := invalidate_alike w key hk
    have hd := delMulti_alike w key tr
    constructor
    · intro k org ho
      rw [ha.pending] at ho
      rw [ha.next]
      rw [lookup_filterKeys] at ho
      split at ho
      · exact h.known k org ho
      · cases ho
    · intro r hr
      have hr' := hr
      rw [DeferredCache.invalidate,if_neg hk] at hr'
      obtain ⟨hout,hen⟩ := mem_runAll (fun _ _ _ _ => rfl) hr'
      obtain ⟨hout,hno⟩ := mem_runAll (fun _ _ _ _ => rfl) hout
      refine Attached.alike ?_ ha
      rcases h.attached r hout with ⟨he,hc⟩ | ⟨nd,hn,ho,hc⟩
      · left
        refine ⟨?_,hc⟩
        rw [lookup_filterKeys]
        by_cases hco : covers tr key r.key = true
        · have hin := AList.mem_lookup_iff.mp he
          have hcl := hca _ hin hco r.callback hc
          apply absurd _ (hen ⟨r.key,r.origin⟩ ?_ rfl)
          · show r.callback ∈ callbacksOf (delMulti tr key w) r.origin key
            rw [callbacksOf_alike hd]
            exact hcl
          · rw [mem_filter,hd.pending]
            exact ⟨hin,hco⟩
        · simp [hco,he]
      · right
        refine ⟨nd,?_,ho,hc⟩
        rw [lookup_filterKeys]
        by_cases hco : covers tr key r.key = true
        · have hin := AList.mem_lookup_iff.mp hn
          exact absurd hc (hno ⟨r.key,nd⟩ (mem_filter.mpr ⟨hin,hco⟩) rfl)
        · simp [hco,hn]

theorem Inv.invalidateAll (h : Inv w) : Inv (invalidateAll w) := by
  have ha := invalidateAll_alike w
  constructor
  · intro k org ho
    rw [ha.pending] at ho
    simp at ho
  · intro r hr
    obtain ⟨hout,he⟩ := mem_runAll (fun _ _ _ _ => rfl) hr
    obtain ⟨hout,hn⟩ := mem_runAll (fun _ _ _ _ => rfl) hout
    rcases h.attached r hout with ⟨hen,hc⟩ | ⟨nd,hno,ho,hc⟩
    · apply absurd _ (he ⟨r.key,r.origin⟩ (AList.mem_lookup_iff.mp hen) rfl)
      rw [callbacksOf_alike (foldl_alike _ (fun w _ => runCallbacks_alike w _ _) _ _)]
      exact hc
    · exact absurd hc (hn ⟨r.key,nd⟩ (AList.mem_lookup_iff.mp hno) rfl)

theorem Inv.evict (h : Inv w) (key : Key A) : Inv (evict key w) := by
  unfold DeferredCache.evict
  split
  · exact h
  · next nd hn =>
    constructor
    · exact h.known
    · intro r hr
      obtain ⟨hr,hk⟩ := mem_runCallbacks.mp hr
      rcases h.attached r hr with hr | ⟨nd',hn',ho,hc⟩
      · exact .inl hr
      · right
        refine ⟨nd',?_,ho,hc⟩
        show (w.cache.erase key).lookup r.key = some nd'
        rw [lookup_pop]
        split
        · next hkey =>
          rw [hkey] at hn'
          cases hn.symm.trans hn'
          exact absurd ⟨hkey,hc⟩ hk
        · exact hn'

theorem step_inv [DecidableEq V] (tr : Bool) (op : Op A V C) (w : Cache A V C) (h : Inv w)
    (hc : Careful tr op w) : Inv (step tr op w) := by
  cases op with
  | get key cb => exact h.get key cb
  | getBulk ks cb =>
    exact foldlRecOn ks _ h (fun w' hw' key _ => hw'.getBulkKey cb key)
  | set key cb => exact h.set hc cb
  | startBulkInput ks cb => exact h.startBulkInput hc cb
  | completed org v =>
    unfold step
    dsimp only
    split
    · exact h.completedCallback v org _
    · exact h
  | failed org =>
    unfold step
    dsimp only
    split
    · exact h.errorCallback org _
    · exact h
  | completeBulk org res =>
    exact foldlRecOn res _ h (fun w' hw' it _ => hw'.completedCallback it.2 org it.1)
  | errorBulk org ks =>
    exact foldlRecOn ks _ h (fun w' hw' key _ => hw'.errorCallback org key)
  | prefill key v cb => exact h.prefill hc v cb
  | invalidate key => exact h.invalidate hc
  | invalidateAll => exact h.invalidateAll
  | evict key => exact h.evict key

theorem empty_inv : Inv (empty : Cache A V C) := by
  constructor
  · intro key org ho
    simp [empty] at ho
  · intro r hr
    cases hr

theorem Attached.current (h : Attached w r) : Current w r := by
  rcases h with h | ⟨nd,hn,ho,-⟩
  · exact .inl h.1
  · exact .inr ⟨nd,hn,ho⟩

end Steps

/-- In every run of careful operations, a callback that has not been called since it was
registered is for a value that is still the one for its key: it was neither invalidated nor
replaced by another value. -/
theorem callbacks_never_dropped [DecidableEq V] (tree : Bool) (ops : List (Op A V C))
    (hrun : Admitted (step tree) (Careful tree) ops empty) :
    ∀ r ∈ (run (step tree) ops empty).outstanding, Current (run (step tree) ops empty) r :=
  fun r hr => ((hrun.invariant (step_inv tree) empty_inv).attached r hr).current

def readAndInvalidated : List (Op String ℕ String) :=
  [.set ["a","b"] (some "set"),.get ["a","b"] (some "get"),.completed 0 5,.invalidate ["a"]]

theorem callbacks_never_dropped_invalidated :
    (run (step true) readAndInvalidated empty).calls = [(["a","b"],"get"),(["a","b"],"set")] ∧
      ∀ r ∈ (run (step true) readAndInvalidated empty).outstanding,
        Current (run (step true) readAndInvalidated empty) r :=
  ⟨by decide +kernel,callbacks_never_dropped true readAndInvalidated (by decide +kernel)⟩

def fetchedAgain : List (Op String ℕ String) :=
  [.set ["k"] (some "callback"),.set ["k"] none,.completed 1 6]

def bulkInvalidated : List (Op String ℕ String) :=
  [.startBulkInput [["a","b"]] none,.get ["a","b"] (some "callback"),.invalidate ["a"]]

/-- The callback of an entry that is pushed out by another fetch is never called, nor is that for
one key of several if they are invalidated by a shorter key. -/
theorem callbacks_dropped :
    (get ["k"] none (run (step false) fetchedAgain empty)).1 = some (.value 6 [1]) ∧
      (run (step false) fetchedAgain empty).calls = [] ∧
      (run (step false) fetchedAgain empty).outstanding = [⟨["k"],0,"callback"⟩] ∧
      (get ["a","b"] none (run (step true) bulkInvalidated empty)).1 = none ∧
      (run (step true) bulkInvalidated empty).calls = [] ∧
      (run (step true) bulkInvalidated empty).outstanding = [⟨["a","b"],0,"callback"⟩] := by
  decide +kernel

end Synapse.DeferredCache
