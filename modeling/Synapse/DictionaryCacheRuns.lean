import Synapse.DictionaryCache
import Synapse.Runs

/-!
# Dictionaries that change under a cache

Each change of a dictionary is followed by an invalidation of its key. A reader
notes the sequence number before it reads, and what it read is dropped if any
key was invalidated since. So what the cache holds of a key can be stale only
while a change of the key awaits its invalidation.
-/

set_option autoImplicit false

namespace Synapse.DictionaryCache
open List Dict Function Runs

variable {KT DKT DV : Type} [DecidableEq KT] [DecidableEq DKT]

def invalidate (c : DictionaryCache KT DKT DV) (key : KT) : DictionaryCache KT DKT DV :=
  ⟨c.cache.delMulti (fun k => k.1 = key),c.sequence+1⟩

/-- What a reader noted before it read, and what it read of which keys. -/
structure Reader (KT DKT DV : Type) where
  key : KT
  sequence : ℕ
  read : Option (Dict DKT DV × Option (List DKT))

structure World (KT DKT DV : Type) where
  truth : KT → Dict DKT DV
  cache : DictionaryCache KT DKT DV
  readers : List (Reader KT DKT DV)
  awaiting : List KT

inductive Op (KT DKT DV : Type) where
  | begin (key : KT)
  | read (reader : ℕ) (dictKeys : Option (List DKT))
  | update (reader : ℕ)
  | get (key : KT) (dictKeys : Option (List DKT))
  | change (key : KT) (value : Dict DKT DV)
  | invalidate (key : KT)
  | evict (dropped : KT × Option DKT → Bool)

def select (value : Dict DKT DV) : Option (List DKT) → Dict DKT DV
  | none => value
  | some dictKeys => filterKeys value (· ∈ dictKeys)

def step : Op KT DKT DV → World KT DKT DV → World KT DKT DV
  | .begin key, w => { w with readers := w.readers ++ [⟨key,w.cache.sequence,none⟩] }
  | .read reader dictKeys, w =>
    { w with readers := w.readers.modify reader (fun r =>
        { r with read := some (select (w.truth r.key) dictKeys,dictKeys) }) }
  | .update reader, w =>
    match w.readers[reader]? with
    | some ⟨key,sequence,some (value,fetchedKeys)⟩ =>
      { w with cache := w.cache.update sequence key value fetchedKeys }
    | _ => w
  | .get key dictKeys, w => { w with cache := (w.cache.get key dictKeys).2 }
  | .change key value, w =>
    { w with truth := Function.update w.truth key value, awaiting := key::w.awaiting }
  | .invalidate key, w =>
    { w with cache := invalidate w.cache key, awaiting := w.awaiting.erase key }
  | .evict dropped, w =>
    { w with cache := { w.cache with cache := w.cache.cache.delMulti dropped } }

def start (truth : KT → Dict DKT DV) (maxEntries : ℕ) : World KT DKT DV :=
  ⟨truth,empty maxEntries,[],[]⟩

variable {w w' : World KT DKT DV}

/-- What may still be cached of what a reader read is right, unless a change of the key
awaits its invalidation. -/
def Fresh (w : World KT DKT DV) (r : Reader KT DKT DV) : Prop :=
  r.sequence ≤ w.cache.sequence ∧ (r.sequence = w.cache.sequence → r.key ∉ w.awaiting →
    ∀ read ∈ r.read, read.1 = select (w.truth r.key) read.2)

structure Coherent (w : World KT DKT DV) : Prop where
  cache : ExactOn w.truth (· ∉ w.awaiting) w.cache.cache
  readers : ∀ r ∈ w.readers, Fresh w r

theorem lookup_select {d : Dict DKT DV} {dks : Option (List DKT)} {l : DKT}
    (hl : ∀ ask, dks = some ask → l ∈ ask) : (select d dks).lookup l = d.lookup l := by
  cases dks with
  | none => rfl
  | some ask => simp [select,lookup_filterKeys,hl ask rfl]

theorem lookup_of_select {d : Dict DKT DV} {dks : Option (List DKT)} {l : DKT} {v : DV}
    (h : (select d dks).lookup l = some v) : d.lookup l = some v := by
  cases dks with
  | none => exact h
  | some ask =>
    rw [select,lookup_filterKeys] at h
    split at h
    · exact h
    · cases h

theorem sequence_get (c : DictionaryCache KT DKT DV) (key : KT) (dks : Option (List DKT)) :
    (c.get key dks).2.sequence = c.sequence := by
  unfold get getFullDict
  dsimp only
  repeat' split
  all_goals rfl

theorem sequence_update (c : DictionaryCache KT DKT DV) (sq : ℕ) (key : KT) (v : Dict DKT DV)
    (fks : Option (List DKT)) : (c.update sq key v fks).sequence = c.sequence := by
  unfold update
  repeat' split
  all_goals rfl

omit [DecidableEq KT] in
theorem Agrees.congr {tr tr' : KT → Dict DKT DV} {k : KT × Option DKT} {v : Slot DKT DV k.2}
    (h : Agrees tr k v) (ht : tr' k.1 = tr k.1) : Agrees tr' k v := by
  obtain ⟨key,- | l⟩ := k
  · intro l
    exact (h l).trans (congrArg _ ht.symm)
  · exact (congrArg _ ht).trans h

omit [DecidableEq KT] in
theorem Fresh.congr {r : Reader KT DKT DV} (h : Fresh w r)
    (hs : w'.cache.sequence = w.cache.sequence) (ht : w'.truth = w.truth)
    (ha : w'.awaiting = w.awaiting) : Fresh w' r := by
  rw [Fresh,hs,ht,ha]
  exact h

theorem Coherent.step (h : Coherent w) (op : Op KT DKT DV) : Coherent (step op w) := by
  cases op with
  | begin key =>
    exact ⟨h.cache,forall_mem_append.mpr ⟨h.readers,forall_mem_singleton.mpr ⟨le_refl _,by simp⟩⟩⟩
  | read reader dks =>
    refine ⟨h.cache,fun r hr => ?_⟩
    obtain ⟨n,hn⟩ := mem_iff_getElem?.mp hr
    rw [DictionaryCache.step,getElem?_modify] at hn
    obtain ⟨r₀,hr₀,rfl⟩ := Option.map_eq_some_iff.mp hn
    have hf := h.readers r₀ (mem_of_getElem? hr₀)
    split
    · exact ⟨hf.1,by simp [DictionaryCache.step]⟩
    · exact hf
  | update reader =>
    rw [DictionaryCache.step]
    split
    · next key sq va fks hr =>
      have hf : w.cache.sequence = sq → key ∉ w.awaiting →
          va = select (w.truth key) fks := fun hs hl =>
        (h.readers _ (mem_of_getElem? hr)).2 hs.symm hl _ rfl
      refine ⟨h.cache.update (fun hs hl => ?_) (fun hs hl => ?_),fun r hr => ?_⟩
      · rw [hf hs hl]
        exact fun l v => lookup_of_select
      · rw [hf hs hl]
        exact fun l => lookup_select
      · exact (h.readers r hr).congr (sequence_update _ _ _ _ _) rfl rfl
    · exact h
  | get key dks =>
    exact ⟨(h.cache.get key dks).1,fun r hr => (h.readers r hr).congr (sequence_get _ _ _) rfl rfl⟩
  | change key va =>
    refine ⟨fun k v hv hl => ?_,fun r hr => ⟨(h.readers r hr).1,fun hs hl => ?_⟩⟩
    · have hl := not_or.mp (mt mem_cons.mpr hl)
      exact (h.cache k v hv hl.2).congr (update_of_ne hl.1 _ _)
    · have hl := not_or.mp (mt mem_cons.mpr hl)
      have ht : Function.update w.truth key va r.key = w.truth r.key := update_of_ne hl.1 _ _
      refine fun read hre => ((h.readers r hr).2 hs hl.2 read hre).trans ?_
      exact congrArg (fun d => select d read.2) ht.symm
  | invalidate key =>
    refine ⟨LruCache.holds_delMulti fun k v hk hv hl => ?_,fun r hr => ?_⟩
    · have hne : k.1 ≠ key := by simpa using hk
      exact h.cache k v hv (fun hm => hl ((mem_erase_of_ne hne).mpr hm))
    · have hle := (h.readers r hr).1
      exact ⟨Nat.le_succ_of_le hle,fun hs => absurd hs (Nat.lt_succ_of_le hle).ne⟩
  | evict dropped => exact ⟨LruCache.holds_delMulti fun k v _ hv => h.cache k v hv,h.readers⟩

theorem get_never_stale_dictionary (truth : KT → Dict DKT DV) (maxEntries : ℕ)
    (ops : List (Op KT DKT DV)) (key : KT) (dks : Option (List DKT))
    (hw : (run DictionaryCache.step ops (start truth maxEntries)).awaiting = []) :
    Reads (run DictionaryCache.step ops (start truth maxEntries)).truth key dks
      ((run DictionaryCache.step ops (start truth maxEntries)).cache.get key dks).1 := by
  have h : Coherent (run DictionaryCache.step ops (start truth maxEntries)) :=
    run_invariant (fun op _ hs => hs.step op) ops ⟨LruCache.holds_empty _,by simp [start]⟩
  exact (h.cache.get key dks).2 (by simp [hw])

/-- The second reader read before the change and comes too late, the third one reads after it. -/
def changedOnce : List (Op ℕ ℕ ℕ) :=
  [.begin 1,.read 0 none,.update 0,.begin 1,.read 1 (some [5,6]),
    .change 1 ((∅ : Dict ℕ ℕ).insert 5 8),
    .get 1 (some [5]),.invalidate 1,.update 1,.begin 1,.read 2 none,.update 2]

theorem get_never_stale_dictionary_changedOnce :
    (run step changedOnce (start (fun _ => (∅ : Dict ℕ ℕ).insert 5 7) 9)).awaiting = [] ∧
      Reads (run step changedOnce (start (fun _ => (∅ : Dict ℕ ℕ).insert 5 7) 9)).truth 1
        (some [5,6]) ((run step changedOnce
          (start (fun _ => (∅ : Dict ℕ ℕ).insert 5 7) 9)).cache.get 1 (some [5,6])).1 :=
  ⟨by decide +kernel,get_never_stale_dictionary _ _ _ _ _ (by decide +kernel)⟩

end Synapse.DictionaryCache
