import Synapse.LruCache

/-!
# Caches of partial dictionaries

For a key the cache may hold the full dictionary, the values of some of its
keys, and keys that are known to be absent from it. Each is an entry of its own
that may be evicted on its own. A cache that is exact for given dictionaries
stays so, and what is read from it agrees with them.
-/

set_option autoImplicit false

namespace Synapse
open List AList

/-- What is cached for a key under `_FullCacheKey.KEY` or under a dictionary
key, where `none` marks one that is known to be absent. -/
def Slot (DKT DV : Type) : Option DKT → Type
  | none => Dict DKT DV
  | some _ => Option DV

def Slot.size {KT DKT DV : Type} : (Σ k : KT × Option DKT, Slot DKT DV k.2) → ℕ
  | ⟨(_,none),d⟩ => AList.entries (β := fun _ : DKT => DV) d |>.length
  | ⟨(_,some _),_⟩ => 1

/-- `knownAbsent` is empty if `full` is set. -/
structure DictionaryEntry (DKT DV : Type) where
  full : Bool
  knownAbsent : Finset DKT
  value : Dict DKT DV

structure DictionaryCache (KT DKT DV : Type) where
  cache : LruCache (fun k : KT × Option DKT => Slot DKT DV k.2)
  sequence : ℕ

namespace DictionaryCache

variable {KT DKT DV : Type}

def empty (maxEntries : ℕ) : DictionaryCache KT DKT DV := ⟨LruCache.empty maxEntries,0⟩

variable [DecidableEq KT] [DecidableEq DKT]

abbrev Entries (KT DKT DV : Type) := LruCache (fun k : KT × Option DKT => Slot DKT DV k.2)

def readKey (entries : Entries KT DKT DV) (key : KT) (dictKey : DKT) :
    Option (Option DV) × Entries KT DKT DV :=
  entries.get (key,some dictKey) true

def readFull (entries : Entries KT DKT DV) (key : KT) (updateLastAccess : Bool) :
    Option (Dict DKT DV) × Entries KT DKT DV :=
  entries.get (key,none) updateLastAccess

def writeKey (entries : Entries KT DKT DV) (key : KT) (dictKey : DKT) (value : Option DV) :
    Entries KT DKT DV :=
  entries.set Slot.size (key,some dictKey) value

def writeFull (entries : Entries KT DKT DV) (key : KT) (value : Dict DKT DV) :
    Entries KT DKT DV :=
  entries.set Slot.size (key,none) value

structure Found (KT DKT DV : Type) where
  entries : Entries KT DKT DV
  values : Dict DKT DV
  knownAbsent : Finset DKT
  missing : List DKT

def findKey (key : KT) (found : Found KT DKT DV) (dictKey : DKT) : Found KT DKT DV :=
  match readKey found.entries key dictKey with
  | (none,entries) => { found with entries := entries, missing := found.missing ++ [dictKey] }
  | (some none,entries) =>
    { found with entries := entries, knownAbsent := insert dictKey found.knownAbsent }
  | (some (some value),entries) =>
    { found with entries := entries, values := found.values.insert dictKey value }

def copyKey (key : KT) (full : Dict DKT DV) (state : Entries KT DKT DV × Dict DKT DV)
    (dictKey : DKT) : Entries KT DKT DV × Dict DKT DV :=
  (writeKey state.1 key dictKey (full.lookup dictKey),
    match full.lookup dictKey with
    | some value => state.2.insert dictKey value
    | none => state.2)

def getFullDict (c : DictionaryCache KT DKT DV) (key : KT) :
    DictionaryEntry DKT DV × DictionaryCache KT DKT DV :=
  match readFull c.cache key true with
  | (some full,entries) => (⟨true,∅,full⟩,{ c with cache := entries })
  | (none,entries) => (⟨false,∅,∅⟩,{ c with cache := entries })

/-- The full dictionary does not count as used when it is read for some of its
keys. -/
def get (c : DictionaryCache KT DKT DV) (key : KT) (dictKeys : Option (List DKT)) :
    DictionaryEntry DKT DV × DictionaryCache KT DKT DV :=
  match dictKeys with
  | none => getFullDict c key
  | some dictKeys =>
    let found := dictKeys.foldl (findKey key) ⟨c.cache,∅,∅,[]⟩
    if found.missing = [] then
      (⟨false,found.knownAbsent,found.values⟩,{ c with cache := found.entries })
    else
      match readFull found.entries key false with
      | (none,entries) => (⟨false,found.knownAbsent,found.values⟩,{ c with cache := entries })
      | (some full,entries) =>
        let copied := found.missing.foldl (copyKey key full) (entries,found.values)
        (⟨true,∅,copied.2⟩,{ c with cache := copied.1 })

def updateSubset (entries : Entries KT DKT DV) (key : KT) (value : Dict DKT DV)
    (fetchedKeys : List DKT) : Entries KT DKT DV :=
  fetchedKeys.foldl
    (fun entries dictKey =>
      if dictKey ∈ value then entries else writeKey entries key dictKey none)
    (value.entries.foldl (fun entries item => writeKey entries key item.1 (some item.2)) entries)

def update (c : DictionaryCache KT DKT DV) (sequence : ℕ) (key : KT) (value : Dict DKT DV)
    (fetchedKeys : Option (List DKT)) : DictionaryCache KT DKT DV :=
  if c.sequence = sequence then
    match fetchedKeys with
    | none => { c with cache := writeFull c.cache key value }
    | some fetchedKeys => { c with cache := updateSubset c.cache key value fetchedKeys }
  else c

section Exact

variable (truth : KT → Dict DKT DV)

def Agrees : (k : KT × Option DKT) → Slot DKT DV k.2 → Prop
  | (key,none), full => ∀ l, AList.lookup (β := fun _ : DKT => DV) l full = (truth key).lookup l
  | (key,some l), value => (truth key).lookup l = value

def Exact (entries : Entries KT DKT DV) : Prop := entries.Holds (Agrees truth)

def ExactOn (live : KT → Prop) (entries : Entries KT DKT DV) : Prop :=
  entries.Holds (fun k v => live k.1 → Agrees truth k v)

variable {truth} {live : KT → Prop} {entries : Entries KT DKT DV} {key : KT}

section

variable (h : ExactOn truth live entries)
include h

theorem ExactOn.readKey (key : KT) (l : DKT) :
    ExactOn truth live (readKey entries key l).2 ∧
      ∀ v, (readKey entries key l).1 = some v → live key → (truth key).lookup l = v :=
  LruCache.Holds.get h (key,some l) true

theorem ExactOn.readFull (key : KT) (ula : Bool) :
    ExactOn truth live (readFull entries key ula).2 ∧
      ∀ fl, (readFull entries key ula).1 = some fl → live key →
        ∀ l, fl.lookup l = (truth key).lookup l :=
  LruCache.Holds.get h (key,none) ula

theorem ExactOn.writeKey {l : DKT} {v : Option DV}
    (hv : live key → (truth key).lookup l = v) : ExactOn truth live (writeKey entries key l v) :=
  LruCache.Holds.set h Slot.size hv

theorem ExactOn.writeFull {v : Dict DKT DV}
    (hv : live key → ∀ l, v.lookup l = (truth key).lookup l) :
    ExactOn truth live (writeFull entries key v) :=
  LruCache.Holds.set h Slot.size hv

end

variable (truth live key) in
structure Finds (asked : List DKT) (found : Found KT DKT DV) : Prop where
  entries : ExactOn truth live found.entries
  values : live key → ∀ l v, found.values.lookup l = some v → (truth key).lookup l = some v
  absent : live key → ∀ l ∈ found.knownAbsent, (truth key).lookup l = none
  all : ∀ l ∈ asked, l ∈ found.values ∨ l ∈ found.knownAbsent ∨ l ∈ found.missing

theorem Finds.findKey {ask : List DKT} {fd : Found KT DKT DV} (h : Finds truth live key ask fd)
    (dictKey : DKT) : Finds truth live key (ask ++ [dictKey]) (findKey key fd dictKey) := by
  obtain ⟨he,hr⟩ := h.entries.readKey key dictKey
  rw [DictionaryCache.findKey]
  split
  · next entries heq =>
    rw [heq] at he
    refine ⟨he,h.values,h.absent,?_⟩
    intro l hl
    rcases mem_append.mp hl with hl | hl
    · rcases h.all l hl with hv | ha | hm
      · exact .inl hv
      · exact .inr (.inl ha)
      · exact .inr (.inr (mem_append_left _ hm))
    · exact .inr (.inr (mem_append_right _ hl))
  · next entries heq =>
    rw [heq] at he hr
    refine ⟨he,h.values,?_,?_⟩
    · intro hli l hl
      rcases Finset.mem_insert.mp hl with rfl | hl
      · exact hr none rfl hli
      · exact h.absent hli l hl
    · intro l hl
      rcases mem_append.mp hl with hl | hl
      · rcases h.all l hl with hv | ha | hm
        · exact .inl hv
        · exact .inr (.inl (Finset.mem_insert_of_mem ha))
        · exact .inr (.inr hm)
      · obtain rfl := mem_singleton.mp hl
        exact .inr (.inl (Finset.mem_insert_self _ _))
  · next va entries heq =>
    rw [heq] at he hr
    refine ⟨he,?_,h.absent,?_⟩
    · intro hli l v hv
      rw [Dict.lookup_set] at hv
      split at hv
      · next hl =>
        subst hl
        rw [← hv]
        exact hr (some va) rfl hli
      · exact h.values hli l v hv
    · intro l hl
      rw [Dict.mem_set]
      rcases mem_append.mp hl with hl | hl
      · rcases h.all l hl with hv | ha | hm
        · exact .inl (.inr hv)
        · exact .inr (.inl ha)
        · exact .inr (.inr hm)
      · exact .inl (.inl (mem_singleton.mp hl))

theorem Finds.findKeys {ask : List DKT} {fd : Found KT DKT DV} (h : Finds truth live key ask fd)
    (dks : List DKT) :
    Finds truth live key (ask ++ dks) (dks.foldl (DictionaryCache.findKey key) fd) := by
  induction dks generalizing ask fd with
  | nil => simpa using h
  | cons l dks ih =>
    have hs := ih (h.findKey l)
    rw [append_assoc] at hs
    exact hs

theorem ExactOn.copyKeys (h : ExactOn truth live entries) {fl : Dict DKT DV}
    (hf : live key → ∀ l, fl.lookup l = (truth key).lookup l) (mi : List DKT) (vs : Dict DKT DV) :
    ExactOn truth live (mi.foldl (copyKey key fl) (entries,vs)).1 ∧
      ∀ l, (mi.foldl (copyKey key fl) (entries,vs)).2.lookup l =
        if l ∈ mi then (fl.lookup l).or (vs.lookup l) else vs.lookup l := by
  constructor
  · induction mi generalizing entries vs with
    | nil => exact h
    | cons k mi ih =>
      exact ih (h.writeKey (fun hl => (hf hl k).symm)) (copyKey key fl (entries,vs) k).2
  · intro l
    refine Dict.read_foldl (g := copyKey key fl) (r := fun st => st.2.lookup l) ?_ ?_
      (Dict.or_or (fl.lookup l)) mi (entries,vs)
    · intro st
      rw [copyKey]
      cases fl.lookup l with
      | none => rfl
      | some v => exact lookup_insert _
    · intro st k hk
      rw [copyKey]
      cases fl.lookup k with
      | none => rfl
      | some v => exact lookup_insert_ne hk

variable (truth key) in
/-- An entry that agrees with the dictionary, and with all of what was asked
for if it is full. -/
structure Reads (dictKeys : Option (List DKT)) (entry : DictionaryEntry DKT DV) : Prop where
  values : ∀ l v, entry.value.lookup l = some v → (truth key).lookup l = some v
  absent : ∀ l ∈ entry.knownAbsent, (truth key).lookup l = none
  full : entry.full = true → ∀ l, (∀ asked, dictKeys = some asked → l ∈ asked) →
    entry.value.lookup l = (truth key).lookup l

variable {c : DictionaryCache KT DKT DV}

theorem ExactOn.get (h : ExactOn truth live c.cache) (key : KT)
    (dks : Option (List DKT)) : ExactOn truth live (c.get key dks).2.cache ∧
      (live key → Reads truth key dks (c.get key dks).1) := by
  cases dks with
  | none =>
    obtain ⟨he,hr⟩ := h.readFull key true
    rw [DictionaryCache.get,getFullDict]
    split
    · next fl entries heq =>
      rw [heq] at he hr
      refine ⟨he,fun hli => ⟨?_,by simp,fun _ l _ => hr fl rfl hli l⟩⟩
      intro l v hv
      rw [← hr fl rfl hli]
      exact hv
    · next entries heq =>
      rw [heq] at he
      exact ⟨he,fun _ => ⟨by simp,by simp,by simp⟩⟩
  | some ask =>
    have hs : Finds truth live key [] (⟨c.cache,∅,∅,[]⟩ : Found KT DKT DV) :=
      ⟨h,by simp,by simp,by simp⟩
    have hf := hs.findKeys ask
    rw [DictionaryCache.get]
    generalize ask.foldl (DictionaryCache.findKey key) ⟨c.cache,∅,∅,[]⟩ = found at hf
    split
    · exact ⟨hf.entries,fun hli => ⟨hf.values hli,hf.absent hli,by simp⟩⟩
    · obtain ⟨he,hr⟩ := hf.entries.readFull key false
      split
      · next entries heq =>
        rw [heq] at he
        exact ⟨he,fun hli => ⟨hf.values hli,hf.absent hli,by simp⟩⟩
      · next fl entries heq =>
        rw [heq] at he hr
        obtain ⟨hc,hl⟩ := ExactOn.copyKeys he (hr fl rfl) found.missing found.values
        refine ⟨hc,fun hli => ?_⟩
        have ht := hr fl rfl hli
        have hv := hf.values hli
        refine ⟨?_,by simp,?_⟩
        · intro l v hlv
          rw [hl,ht] at hlv
          split at hlv
          · rcases Option.or_eq_some_iff.mp hlv with hw | ⟨-,hw⟩
            · exact hw
            · exact hv l v hw
          · exact hv l v hlv
        · intro _ l ha
          rw [hl,ht]
          rcases hf.all l (ha ask rfl) with hin | hab | hm
          · obtain ⟨v,hlv⟩ := Dict.mem_iff_lookup.mp hin
            simp [hlv,hv l v hlv]
          · cases hlv : found.values.lookup l with
            | none => simp [hf.absent hli l hab]
            | some v => simp [hv l v hlv]
          · cases hlv : found.values.lookup l with
            | none => simp [hm]
            | some v => simp [hv l v hlv]

variable {va : Dict DKT DV}

theorem ExactOn.updateSubset (h : ExactOn truth live entries) {fks : List DKT}
    (hv : live key → ∀ l v, va.lookup l = some v → (truth key).lookup l = some v)
    (hf : live key → ∀ l ∈ fks, va.lookup l = (truth key).lookup l) :
    ExactOn truth live (updateSubset entries key va fks) := by
  have hw : ExactOn truth live (va.entries.foldl
      (fun entries it => DictionaryCache.writeKey entries key it.1 (some it.2)) entries) := by
    refine foldlRecOn va.entries _ h ?_
    intro entries he it hi
    exact he.writeKey (fun hli => hv hli it.1 it.2 (mem_lookup_iff.mpr hi))
  refine foldlRecOn fks _ hw ?_
  intro entries he l hl
  split
  · exact he
  · next ha =>
    apply he.writeKey
    intro hli
    rw [← hf hli l hl]
    exact lookup_eq_none.mpr ha

theorem ExactOn.update (h : ExactOn truth live c.cache) {sq : ℕ} {fks : Option (List DKT)}
    (hv : c.sequence = sq → live key → ∀ l v, va.lookup l = some v → (truth key).lookup l = some v)
    (hf : c.sequence = sq → live key → ∀ l, (∀ ask, fks = some ask → l ∈ ask) →
      va.lookup l = (truth key).lookup l) : ExactOn truth live (c.update sq key va fks).cache := by
  unfold DictionaryCache.update
  split
  · next hs =>
    cases fks with
    | none => exact h.writeFull (fun hli l => hf hs hli l (by simp))
    | some ask => exact h.updateSubset (hv hs) (fun hli l hl => hf hs hli l (by simpa using hl))
  · exact h

theorem exact_iff : Exact truth entries ↔ ExactOn truth (fun _ => True) entries := by
  simp [Exact,ExactOn]

theorem Exact.get (h : Exact truth c.cache) (key : KT) (dks : Option (List DKT)) :
    Exact truth (c.get key dks).2.cache ∧ Reads truth key dks (c.get key dks).1 := by
  obtain ⟨he,hr⟩ := (exact_iff.mp h).get key dks
  exact ⟨exact_iff.mpr he,hr trivial⟩

theorem Exact.update (h : Exact truth c.cache) (sq : ℕ) {fks : Option (List DKT)}
    (hv : ∀ l v, va.lookup l = some v → (truth key).lookup l = some v)
    (hf : ∀ l, (∀ ask, fks = some ask → l ∈ ask) → va.lookup l = (truth key).lookup l) :
    Exact truth (c.update sq key va fks).cache :=
  exact_iff.mpr ((exact_iff.mp h).update (fun _ _ => hv) (fun _ _ => hf))

end Exact

end DictionaryCache

end Synapse
