import Synapse.Runs
import Synapse.Dict

/-!
# Caches of results that are still being fetched

A cache has completed values, and for the keys that are being fetched an entry that will
complete later. An entry is for one key or for several keys at once. Callbacks that were
registered for a key are called when its value is invalidated. When an entry
completes after another one has taken its place, its value is not kept.

Which nodes are evicted is left open: any of them may be, at any time.
-/

set_option autoImplicit false

namespace Synapse.DeferredCache
open List Dict Runs

section Model

variable (A V C : Type)

/-- Keys are tuples. A shorter one stands for all keys that it begins. -/
abbrev Key := List A

/-- A completed value. The origins are the fetches that gave this value. -/
structure Node where
  value : V
  callbacks : List C
  origins : List ℕ
  deriving DecidableEq

inductive CacheEntry where
  | single (key : Key A) (callbacks : List C)
  | multiple (callbacks : Dict (Key A) (List C)) (globalCallbacks : List C)

structure Registration where
  key : Key A
  origin : ℕ
  callback : C
  deriving DecidableEq

/-- The cache, its entries by the number of their fetch, and a history: the calls of callbacks, and
those that were registered and not called since. -/
structure Cache where
  pendingDeferredCache : Dict (Key A) ℕ
  cache : Dict (Key A) (Node V C)
  entries : Dict ℕ (CacheEntry A C)
  next : ℕ
  calls : List (Key A × C)
  outstanding : List (Registration A C)

end Model

variable {A V C : Type} [DecidableEq A] [DecidableEq C]

def empty : Cache A V C where
  pendingDeferredCache := ∅
  cache := ∅
  entries := ∅
  next := 0
  calls := []
  outstanding := []

/-- `callback` is optional, and not added twice. -/
def addCallback (callbacks : List C) (callback : Option C) : List C :=
  match callback with
  | none => callbacks
  | some c => callbacks.insert c

def CacheEntry.addInvalidationCallback (entry : CacheEntry A C) (key : Key A)
    (callback : Option C) : CacheEntry A C :=
  match entry, callback with
  | .single k callbacks, _ => .single k (addCallback callbacks callback)
  | .multiple callbacks globalCallbacks, none => .multiple callbacks globalCallbacks
  | .multiple callbacks globalCallbacks, some c =>
    .multiple (callbacks.insert key (((callbacks.lookup key).getD []).insert c)) globalCallbacks

def CacheEntry.getInvalidationCallbacks (entry : CacheEntry A C) (key : Key A) : List C :=
  match entry with
  | .single _ callbacks => callbacks
  | .multiple callbacks globalCallbacks => (callbacks.lookup key).getD [] ∪ globalCallbacks

def register (key : Key A) (origin : ℕ) (callback : Option C) (w : Cache A V C) : Cache A V C :=
  { w with outstanding := (callback.map (Registration.mk key origin)).toList ++ w.outstanding }

def runCallbacks (key : Key A) (callbacks : List C) (w : Cache A V C) : Cache A V C :=
  { w with
    calls := w.calls ++ callbacks.map (Prod.mk key)
    outstanding := w.outstanding.filter (fun r => ¬(r.key = key ∧ r.callback ∈ callbacks)) }

def callbacksOf (w : Cache A V C) (origin : ℕ) (key : Key A) : List C :=
  ((w.entries.lookup origin).map (fun entry => entry.getInvalidationCallbacks key)).getD []

def cacheSet [DecidableEq V] (key : Key A) (value : V) (callbacks : List C) (origin : ℕ)
    (w : Cache A V C) : Cache A V C :=
  match w.cache.lookup key with
  | some node =>
    if value ≠ node.value then
      let w := runCallbacks key node.callbacks w
      { w with cache := w.cache.insert key ⟨value,callbacks,[origin]⟩ }
    else
      { w with
        cache := w.cache.insert key ⟨value,node.callbacks ∪ callbacks,origin::node.origins⟩ }
  | none => { w with cache := w.cache.insert key ⟨value,callbacks,[origin]⟩ }

inductive Found (V : Type) where
  | pending (origin : ℕ)
  | value (v : V) (origins : List ℕ)
  deriving DecidableEq

def Found.origins {V : Type} : Found V → List ℕ
  | .pending origin => [origin]
  | .value _ origins => origins

def getPending (key : Key A) (callback : Option C) (origin : ℕ) (w : Cache A V C) : Cache A V C :=
  match w.entries.lookup origin with
  | none => w
  | some entry =>
    register key origin callback
      { w with entries := w.entries.insert origin (entry.addInvalidationCallback key callback) }

/-- A callback is for all the fetches that gave the value. -/
def getNode (key : Key A) (callback : Option C) (node : Node V C) (w : Cache A V C) : Cache A V C :=
  node.origins.foldl (fun w origin => register key origin callback w)
    { w with
      cache := w.cache.insert key { node with callbacks := addCallback node.callbacks callback } }

def get (key : Key A) (callback : Option C) (w : Cache A V C) : Option (Found V) × Cache A V C :=
  match w.pendingDeferredCache.lookup key with
  | some origin => (some (.pending origin),getPending key callback origin w)
  | none =>
    match w.cache.lookup key with
    | some node => (some (.value node.value node.origins),getNode key callback node w)
    | none => (none,w)

def getBulkKey (callback : Option C) (w : Cache A V C) (key : Key A) : Cache A V C :=
  match w.cache.lookup key with
  | some node => getNode key callback node w
  | none =>
    match w.pendingDeferredCache.lookup key with
    | some origin => getPending key callback origin w
    | none => w

def set (key : Key A) (callback : Option C) (w : Cache A V C) : Cache A V C :=
  register key w.next callback
    { w with
      pendingDeferredCache := w.pendingDeferredCache.insert key w.next
      entries := w.entries.insert w.next (.single key (addCallback [] callback))
      next := w.next+1 }

def startBulkInput (keys : List (Key A)) (callback : Option C) (w : Cache A V C) : Cache A V C :=
  keys.foldl (fun w' key => register key w.next callback
      { w' with pendingDeferredCache := w'.pendingDeferredCache.insert key w.next })
    { w with
      entries := w.entries.insert w.next (.multiple ∅ (addCallback [] callback))
      next := w.next+1 }

def completedCallback [DecidableEq V] (value : V) (origin : ℕ) (key : Key A) (w : Cache A V C) :
    Cache A V C :=
  if w.pendingDeferredCache.lookup key = some origin then
    cacheSet key value (callbacksOf w origin key) origin
      { w with pendingDeferredCache := w.pendingDeferredCache.erase key }
  else w

def errorCallback (origin : ℕ) (key : Key A) (w : Cache A V C) : Cache A V C :=
  if w.pendingDeferredCache.lookup key = some origin then
    runCallbacks key (callbacksOf w origin key)
      { w with pendingDeferredCache := w.pendingDeferredCache.erase key }
  else w

def prefill [DecidableEq V] (key : Key A) (value : V) (callback : Option C) (w : Cache A V C) :
    Cache A V C :=
  let origin := w.next
  let w := cacheSet key value (addCallback [] callback) origin { w with next := w.next+1 }
  register key origin callback
    { w with pendingDeferredCache := w.pendingDeferredCache.erase key }

/-- The keys that are invalidated with a key, by whether the cache is backed by a tree. -/
def covers (tree : Bool) (key k : Key A) : Bool := if tree then key.isPrefixOf k else key = k

def delMulti (tree : Bool) (key : Key A) (w : Cache A V C) : Cache A V C :=
  let popped := w.cache.entries.filter (fun entry => covers tree key entry.1)
  let w := { w with cache := Dict.filterKeys w.cache (fun k => !covers tree key k) }
  popped.foldl (fun w entry => runCallbacks entry.1 entry.2.callbacks w) w

/-- The callbacks of an entry that was removed are looked up with the key that was given. -/
def invalidate (tree : Bool) (key : Key A) (w : Cache A V C) : Cache A V C :=
  if tree ∧ key = [] then w
  else
    let w := delMulti tree key w
    let popped := w.pendingDeferredCache.entries.filter (fun entry => covers tree key entry.1)
    let w := { w with
      pendingDeferredCache := Dict.filterKeys w.pendingDeferredCache (fun k => !covers tree key k) }
    popped.foldl (fun w entry => runCallbacks entry.1 (callbacksOf w entry.2 key) w) w

def invalidateAll (w : Cache A V C) : Cache A V C :=
  let nodes := w.cache.entries
  let entries := w.pendingDeferredCache.entries
  let w := { w with cache := ∅, pendingDeferredCache := ∅ }
  let w := nodes.foldl (fun w entry => runCallbacks entry.1 entry.2.callbacks w) w
  entries.foldl (fun w entry => runCallbacks entry.1 (callbacksOf w entry.2 entry.1) w) w

def evict (key : Key A) (w : Cache A V C) : Cache A V C :=
  match w.cache.lookup key with
  | none => w
  | some node => runCallbacks key node.callbacks { w with cache := w.cache.erase key }

inductive Op (A V C : Type) where
  | get (key : Key A) (callback : Option C)
  | getBulk (keys : List (Key A)) (callback : Option C)
  | set (key : Key A) (callback : Option C)
  | startBulkInput (keys : List (Key A)) (callback : Option C)
  | completed (origin : ℕ) (value : V)
  | failed (origin : ℕ)
  | completeBulk (origin : ℕ) (result : List (Key A × V))
  | errorBulk (origin : ℕ) (keys : List (Key A))
  | prefill (key : Key A) (value : V) (callback : Option C)
  | invalidate (key : Key A)
  | invalidateAll
  | evict (key : Key A)

/-- The fetch of an entry for one key gives a value or fails; an entry for several keys is told
so by the one who fetches. -/
def step [DecidableEq V] (tree : Bool) (op : Op A V C) (w : Cache A V C) : Cache A V C :=
  match op with
  | .get key callback => (get key callback w).2
  | .getBulk keys callback => keys.foldl (getBulkKey callback) w
  | .set key callback => set key callback w
  | .startBulkInput keys callback => startBulkInput keys callback w
  | .completed origin value =>
    match w.entries.lookup origin with
    | some (.single key _) => completedCallback value origin key w
    | _ => w
  | .failed origin =>
    match w.entries.lookup origin with
    | some (.single key _) => errorCallback origin key w
    | _ => w
  | .completeBulk origin result =>
    result.foldl (fun w item => completedCallback item.2 origin item.1 w) w
  | .errorBulk origin keys => keys.foldl (fun w key => errorCallback origin key w) w
  | .prefill key value callback => prefill key value callback w
  | .invalidate key => invalidate tree key w
  | .invalidateAll => invalidateAll w
  | .evict key => evict key w

section Frame

variable (w : Cache A V C) (key : Key A) (org : ℕ) (cb : Option C) (cbs : List C)

structure Alike (w w' : Cache A V C) : Prop where
  pending : w'.pendingDeferredCache = w.pendingDeferredCache
  cache : w'.cache = w.cache
  entries : w'.entries = w.entries
  next : w'.next = w.next

omit [DecidableEq A] [DecidableEq C] in
theorem Alike.trans {w w' w'' : Cache A V C} (h : Alike w w') (h' : Alike w' w'') :
    Alike w w'' where
  pending := h'.pending.trans h.pending
  cache := h'.cache.trans h.cache
  entries := h'.entries.trans h.entries
  next := h'.next.trans h.next

omit [DecidableEq A] [DecidableEq C] in
theorem foldl_alike {α : Type} (f : Cache A V C → α → Cache A V C) (hf : ∀ w x, Alike w (f w x))
    (l : List α) (w : Cache A V C) : Alike w (l.foldl f w) := by
  induction l generalizing w with
  | nil => exact ⟨rfl,rfl,rfl,rfl⟩
  | cons x l ih => exact (hf w x).trans (ih (f w x))

theorem runCallbacks_alike : Alike w (runCallbacks key cbs w) := ⟨rfl,rfl,rfl,rfl⟩

omit [DecidableEq A] [DecidableEq C] in
theorem register_alike : Alike w (register key org cb w) := ⟨rfl,rfl,rfl,rfl⟩

theorem delMulti_alike (tr : Bool) :
    Alike { w with cache := filterKeys w.cache (fun k => !covers tr key k) }
    (delMulti tr key w) := by
  exact foldl_alike _ (fun w _ => runCallbacks_alike w _ _) _ _

theorem invalidate_alike {tr : Bool} (hk : ¬(tr = true ∧ key = [])) :
    Alike { w with
      cache := filterKeys w.cache (fun k => !covers tr key k)
      pendingDeferredCache := filterKeys w.pendingDeferredCache (fun k => !covers tr key k) }
      (invalidate tr key w) := by
  have hd := delMulti_alike w key tr
  unfold invalidate
  rw [if_neg hk]
  refine Alike.trans ?_ (foldl_alike _ (fun w _ => runCallbacks_alike w _ _) _ _)
  exact ⟨by rw [hd.pending],hd.cache,hd.entries,hd.next⟩

theorem invalidateAll_alike :
    Alike { w with cache := ∅, pendingDeferredCache := ∅ } (invalidateAll w) := by
  exact (foldl_alike _ (fun w _ => runCallbacks_alike w _ _) _ _).trans
    (foldl_alike _ (fun w _ => runCallbacks_alike w _ _) _ _)

end Frame

section Staleness

structure Fresh (n : ℕ) (key : Key A) (w : Cache A V C) : Prop where
  next : n ≤ w.next
  pending : ∀ origin, w.pendingDeferredCache.lookup key = some origin → n ≤ origin
  cache : ∀ node, w.cache.lookup key = some node → ∀ origin ∈ node.origins, n ≤ origin

variable {n : ℕ} {key : Key A} {w : Cache A V C}

section

variable (h : Fresh n key w)
include h

omit [DecidableEq C] in
theorem Fresh.alike {w' : Cache A V C} (ha : Alike w w') :
    Fresh n key w' where
  next := ha.next ▸ h.next
  pending := by
    rw [ha.pending]
    exact h.pending
  cache := by
    rw [ha.cache]
    exact h.cache

omit [DecidableEq C] in
theorem Fresh.newEntry (es : Dict ℕ (CacheEntry A C)) :
    Fresh n key { w with entries := es, next := w.next+1 } where
  next := h.next.trans (Nat.le_succ _)
  pending := h.pending
  cache := h.cache

omit [DecidableEq C] in
theorem Fresh.filterKeys (p : Key A → Bool) :
    Fresh n key { w with
      cache := filterKeys w.cache p
      pendingDeferredCache := filterKeys w.pendingDeferredCache p } where
  next := h.next
  pending := by
    intro og ho
    rw [lookup_filterKeys] at ho
    split at ho
    · exact h.pending og ho
    · cases ho
  cache := by
    intro nd hn
    rw [lookup_filterKeys] at hn
    split at hn
    · exact h.cache nd hn
    · cases hn

theorem Fresh.invalidate (tr : Bool) (k : Key A) : Fresh n key (invalidate tr k w) := by
  by_cases hk : tr = true ∧ k = []
  · rw [DeferredCache.invalidate,if_pos hk]
    exact h
  · exact (h.filterKeys _).alike (invalidate_alike w k hk)

section

variable (k : Key A)
include k

omit [DecidableEq C] in
theorem Fresh.setNode {nd : Node V C}
    (hn : k = key → ∀ og ∈ nd.origins, n ≤ og) :
    Fresh n key { w with cache := w.cache.insert k nd } where
  next := h.next
  pending := h.pending
  cache := by
    intro nd' hn'
    rcases set_cases hn' with ⟨heq,rfl⟩ | ⟨-,hn'⟩
    · exact hn heq.symm
    · exact h.cache nd' hn'

omit [DecidableEq C] in
theorem Fresh.setPending {og : ℕ} (hor : n ≤ og) :
    Fresh n key { w with pendingDeferredCache := w.pendingDeferredCache.insert k og } where
  next := h.next
  pending := by
    intro o ho
    rcases set_cases ho with ⟨-,rfl⟩ | ⟨-,ho⟩
    · exact hor
    · exact h.pending o ho
  cache := h.cache

omit [DecidableEq C] in
theorem Fresh.popPending :
    Fresh n key { w with pendingDeferredCache := w.pendingDeferredCache.erase k } where
  next := h.next
  pending := by
    intro o ho
    exact h.pending o (pop_cases ho).2
  cache := h.cache

theorem Fresh.cacheSet [DecidableEq V] (v : V) (cbs : List C) {og : ℕ}
    (hor : k = key → n ≤ og) : Fresh n key (cacheSet k v cbs og w) := by
  have hone : k = key → ∀ o ∈ [og], n ≤ o := by
    intro heq o ho
    rw [mem_singleton.mp ho]
    exact hor heq
  unfold DeferredCache.cacheSet
  split
  · next nd hn =>
    split
    · exact (h.alike (runCallbacks_alike w k nd.callbacks)).setNode k hone
    · exact h.setNode k (fun heq => forall_mem_cons.mpr ⟨hor heq,h.cache nd (heq ▸ hn)⟩)
  · exact h.setNode k hone

theorem Fresh.getPending (cbk : Option C) (og : ℕ) :
    Fresh n key (getPending k cbk og w) := by
  unfold DeferredCache.getPending
  split
  · exact h
  · exact ⟨h.next,h.pending,h.cache⟩

theorem Fresh.getNode (cbk : Option C) {nd : Node V C}
    (hn : w.cache.lookup k = some nd) : Fresh n key (getNode k cbk nd w) := by
  refine Fresh.alike ?_ (foldl_alike _ (fun w og => register_alike w k og cbk) _ _)
  exact h.setNode k (fun heq => h.cache nd (heq ▸ hn))

theorem Fresh.get (cbk : Option C) : Fresh n key (get k cbk w).2 := by
  unfold DeferredCache.get
  split
  · exact h.getPending k cbk _
  · split
    · next hn => exact h.getNode k cbk hn
    · exact h

theorem Fresh.set (cbk : Option C) : Fresh n key (set k cbk w) :=
  ((h.newEntry _).setPending k h.next).alike (register_alike _ k w.next cbk)

theorem Fresh.prefill [DecidableEq V] (v : V) (cbk : Option C) :
    Fresh n key (prefill k v cbk w) := by
  have hs := (h.newEntry w.entries).cacheSet k v (addCallback [] cbk) (fun _ => h.next)
  exact (hs.popPending k).alike (register_alike _ k w.next cbk)

end

theorem Fresh.getBulkKey (cbk : Option C) (k : Key A) : Fresh n key (getBulkKey cbk w k) := by
  unfold DeferredCache.getBulkKey
  split
  · next hn => exact h.getNode k cbk hn
  · split
    · exact h.getPending k cbk _
    · exact h

theorem Fresh.startBulkInput (ks : List (Key A)) (cbk : Option C) :
    Fresh n key (startBulkInput ks cbk w) := by
  refine foldlRecOn ks _ (h.newEntry _) ?_
  intro w' hw' k _
  exact (hw'.setPending k h.next).alike (register_alike _ k w.next cbk)

theorem Fresh.completedCallback [DecidableEq V] (v : V) (og : ℕ) (k : Key A) :
    Fresh n key (completedCallback v og k w) := by
  unfold DeferredCache.completedCallback
  split
  · next hp =>
    exact (h.popPending k).cacheSet k v _ (fun heq => h.pending og (heq ▸ hp))
  · exact h

theorem Fresh.errorCallback (og : ℕ) (k : Key A) : Fresh n key (errorCallback og k w) := by
  unfold DeferredCache.errorCallback
  split
  · exact (h.popPending k).alike (runCallbacks_alike _ k _)
  · exact h

end

omit [DecidableEq C] in
theorem fresh_of_missing (hne : n ≤ w.next) (hp : w.pendingDeferredCache.lookup key = none)
    (hc : w.cache.lookup key = none) : Fresh n key w where
  next := hne
  pending := by
    intro og ho
    rw [hp] at ho
    cases ho
  cache := by
    intro nd hn
    rw [hc] at hn
    cases hn

omit [DecidableEq C] in
theorem Fresh.later {m : ℕ} (h : Fresh m key w) (hle : n ≤ m) : Fresh n key w where
  next := hle.trans h.next
  pending := fun og ho => hle.trans (h.pending og ho)
  cache := fun nd hn og ho => hle.trans (h.cache nd hn og ho)

theorem invalidateAll_fresh (key : Key A) (w : Cache A V C) :
    Fresh w.next key (invalidateAll w) := by
  have hm : Fresh w.next key
      ({ w with cache := ∅, pendingDeferredCache := ∅ } : Cache A V C) := by
    refine fresh_of_missing le_rfl ?_ ?_
    · rfl
    · rfl
  exact hm.alike (invalidateAll_alike w)

theorem Fresh.evict (h : Fresh n key w) (k : Key A) : Fresh n key (evict k w) := by
  unfold DeferredCache.evict
  split
  · exact h
  · have hp : Fresh n key { w with cache := w.cache.erase k } := by
      refine ⟨h.next,h.pending,?_⟩
      intro nd hn
      exact h.cache nd (pop_cases hn).2
    exact hp.alike (runCallbacks_alike _ k _)

theorem step_fresh [DecidableEq V] (tr : Bool) (op : Op A V C) (w : Cache A V C)
    (h : Fresh n key w) : Fresh n key (step tr op w) := by
  cases op with
  | get k cbk => exact h.get k cbk
  | getBulk ks cbk =>
    exact foldlRecOn ks _ h (fun w' hw' k _ => hw'.getBulkKey cbk k)
  | set k cbk => exact h.set k cbk
  | startBulkInput ks cbk => exact h.startBulkInput ks cbk
  | completed og v =>
    unfold step
    dsimp only
    split
    · exact h.completedCallback v og _
    · exact h
  | failed og =>
    unfold step
    dsimp only
    split
    · exact h.errorCallback og _
    · exact h
  | completeBulk og res =>
    exact foldlRecOn res _ h (fun w' hw' it _ => hw'.completedCallback it.2 og it.1)
  | errorBulk og ks =>
    exact foldlRecOn ks _ h (fun w' hw' k _ => hw'.errorCallback og k)
  | prefill k v cbk => exact h.prefill k v cbk
  | invalidate k => exact h.invalidate tr k
  | invalidateAll => exact (invalidateAll_fresh key w).later h.next
  | evict k => exact h.evict k

def Invalidates (tree : Bool) (key : Key A) : Op A V C → Prop
  | .invalidate k => covers tree k key = true ∧ ¬(tree = true ∧ k = [])
  | .invalidateAll => True
  | _ => False

theorem invalidated_fresh [DecidableEq V] {tr : Bool} {op : Op A V C}
    (hop : Invalidates tr key op) : Fresh w.next key (step tr op w) := by
  cases op with
  | invalidate k =>
    have hm : Fresh w.next key { w with
        cache := filterKeys w.cache (fun k' => !covers tr k k')
        pendingDeferredCache := filterKeys w.pendingDeferredCache
          (fun k' => !covers tr k k') } := by
      refine fresh_of_missing le_rfl ?_ ?_ <;> rw [lookup_filterKeys,hop.1] <;> rfl
    exact hm.alike (invalidate_alike w k hop.2)
  | invalidateAll => exact invalidateAll_fresh key w
  | _ => exact absurd hop id

/-- What a read finds for a key after an invalidation that covers it is from a fetch that was
registered after the invalidation, in whatever order the fetches complete. -/
theorem get_never_stale [DecidableEq V] (tree : Bool) (before after : List (Op A V C))
    (op : Op A V C) (key : Key A) (callback : Option C) (hop : Invalidates tree key op) :
    ∀ found ∈ (get key callback (run (step tree) (before ++ op::after) empty)).1,
      ∀ origin ∈ found.origins, (run (step tree) before empty).next ≤ origin := by
  have hfresh : Fresh (run (step tree) before empty).next key
      (run (step tree) (before ++ op::after) empty) := by
    rw [run_append]
    exact run_invariant (step_fresh tree) after (invalidated_fresh hop)
  intro found hfound origin horigin
  unfold DeferredCache.get at hfound
  split at hfound
  · next o ho =>
    cases hfound
    rw [mem_singleton.mp horigin]
    exact hfresh.pending o ho
  · split at hfound
    · next node hnode =>
      cases hfound
      exact hfresh.cache node hnode origin horigin
    · cases hfound

def slowFetch : List (Op String ℕ Unit) := [.completed 0 5,.set ["k"] none,.completed 1 6]

theorem get_never_stale_slowFetch :
    (get ["k"] none (run (step false) ([.set ["k"] none] ++ .invalidate ["k"]::slowFetch)
        empty)).1 = some (.value 6 [1]) ∧ ∀ found ∈ (get ["k"] none (run (step false)
          ([.set ["k"] none] ++ .invalidate ["k"]::slowFetch) empty)).1, ∀ origin ∈ found.origins,
          (run (step false) ([.set ["k"] none] : List (Op String ℕ Unit)) empty).next ≤ origin :=
  ⟨by decide +kernel,
    get_never_stale false [.set ["k"] none] slowFetch (.invalidate ["k"]) ["k"] none
    ⟨by decide,by decide⟩⟩

end Staleness

end Synapse.DeferredCache
