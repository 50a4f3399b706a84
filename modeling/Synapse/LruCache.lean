import Synapse.Dict

/-!
# Least recently used caches

The entries of a cache are kept in the order of their last use, and the type of
a value may depend on its key. What holds of every entry survives reads,
evictions and the writes of entries of which it holds.
-/

set_option autoImplicit false

namespace Synapse
open List AList

structure LruCache {K : Type} (V : K → Type) where
  maxSize : ℕ
  entries : AList V

namespace LruCache

variable {K : Type} {V : K → Type}

def empty (maxSize : ℕ) : LruCache V := ⟨maxSize,∅⟩

/-- The entries that are left when the last ones are dropped until the total
size is at most `maxSize`. -/
def fit (size : (Σ k, V k) → ℕ) : ℕ → List (Σ k, V k) → List (Σ k, V k)
  | _, [] => []
  | maxSize, entry::entries =>
    if size entry ≤ maxSize then entry::fit size (maxSize-size entry) entries else []

theorem fit_sublist (size : (Σ k, V k) → ℕ) (mx : ℕ) (es : List (Σ k, V k)) :
    (fit size mx es).Sublist es := by
  induction es generalizing mx with
  | nil => exact List.Sublist.refl _
  | cons e es ih =>
    rw [fit]
    split
    · exact (ih _).cons_cons e
    · exact nil_sublist _

def evict (size : (Σ k, V k) → ℕ) (c : LruCache V) : LruCache V :=
  { c with
    entries := ⟨fit size c.maxSize c.entries.entries,
      c.entries.nodupKeys.sublist (fit_sublist _ _ _)⟩ }

def delMulti (c : LruCache V) (dropped : K → Bool) : LruCache V :=
  { c with
    entries := ⟨c.entries.entries.filter (fun entry => !dropped entry.1),
      c.entries.nodupKeys.sublist filter_sublist⟩ }

variable [DecidableEq K]

def get (c : LruCache V) (k : K) (updateLastAccess : Bool) : Option (V k) × LruCache V :=
  match c.entries.lookup k with
  | none => (none,c)
  | some v => (some v,if updateLastAccess then { c with entries := c.entries.insert k v } else c)

def set (size : (Σ k, V k) → ℕ) (c : LruCache V) (k : K) (v : V k) : LruCache V :=
  evict size { c with entries := c.entries.insert k v }

def Evicts (c c' : LruCache V) : Prop :=
  ∀ k v, c'.entries.lookup k = some v → c.entries.lookup k = some v

theorem evict_evicts (size : (Σ k, V k) → ℕ) (c : LruCache V) : Evicts c (evict size c) := by
  intro k v hv
  exact mem_lookup_iff.mpr ((fit_sublist _ _ _).subset (mem_lookup_iff.mp hv))

def Holds (P : (k : K) → V k → Prop) (c : LruCache V) : Prop :=
  ∀ k v, c.entries.lookup k = some v → P k v

variable {P : (k : K) → V k → Prop} {c c' : LruCache V}

theorem holds_empty (mx : ℕ) : Holds P (empty mx : LruCache V) := by
  intro k v hv
  simp [empty] at hv

theorem Holds.evicts (h : Holds P c) (he : Evicts c c') : Holds P c' :=
  fun k v hv => h k v (he k v hv)

theorem holds_delMulti {dropped : K → Bool}
    (h : ∀ k v, dropped k = false → c.entries.lookup k = some v → P k v) :
    Holds P (c.delMulti dropped) := by
  intro k v hv
  have hm := mem_filter.mp (mem_lookup_iff.mp hv)
  exact h k v (by simpa using hm.2) (mem_lookup_iff.mpr hm.1)

theorem Holds.insert (h : Holds P c) {k : K} {v : V k} (hv : P k v) :
    Holds P { c with entries := c.entries.insert k v } := by
  intro l w hw
  by_cases hl : l = k
  · subst hl
    rw [lookup_insert] at hw
    cases hw
    exact hv
  · rw [lookup_insert_ne hl] at hw
    exact h l w hw

theorem Holds.set (h : Holds P c) (size : (Σ k, V k) → ℕ) {k : K} {v : V k} (hv : P k v) :
    Holds P (c.set size k v) :=
  (h.insert hv).evicts (evict_evicts size _)

theorem Holds.get (h : Holds P c) (k : K) (ula : Bool) :
    Holds P (c.get k ula).2 ∧ ∀ v, (c.get k ula).1 = some v → P k v := by
  rw [LruCache.get]
  cases hl : c.entries.lookup k with
  | none => exact ⟨h,by simp⟩
  | some v =>
    refine ⟨?_,?_⟩
    · dsimp only
      split
      · exact h.insert (h k v hl)
      · exact h
    · intro w hw
      cases hw
      exact h k v hl

end LruCache

end Synapse
