import Mathlib

/-!
# Dictionaries kept in key order

A finite map whose items are stored in strictly increasing key order. The
order is a field of the structure, so the first item is the least key, the
last item is the greatest, and the items above a bisection point are exactly
the items with larger keys.
-/

set_option autoImplicit false

namespace Synapse
open List Option

structure SortedDict (K : Type*) (V : Type*) [LinearOrder K] where
  items : List (K × V)
  sorted : items.Pairwise (fun a b => a.1 < b.1)

namespace SortedDict

variable {K V : Type*} [LinearOrder K]

def empty : SortedDict K V := ⟨[],List.Pairwise.nil⟩

def get (d : SortedDict K V) (k : K) : Option V :=
  (d.items.find? (fun kv => kv.1 = k)).map Prod.snd

def set (d : SortedDict K V) (k : K) (v : V) : SortedDict K V where
  items := d.items.filter (fun kv => kv.1 < k) ++ (k,v) :: d.items.filter (fun kv => k < kv.1)
  sorted := by
    have hl := d.sorted.filter (fun kv => decide (kv.1 < k))
    have hr := d.sorted.filter (fun kv => decide (k < kv.1))
    refine pairwise_append.mpr ⟨hl,pairwise_cons.mpr ⟨?_,hr⟩,?_⟩
    · intro b hb
      simpa using (mem_filter.mp hb).2
    · intro a ha b hb
      have hak : a.1 < k := by simpa using (mem_filter.mp ha).2
      rcases mem_cons.mp hb with rfl | hb
      · exact hak
      · have hkb : k < b.1 := by simpa using (mem_filter.mp hb).2
        exact hak.trans hkb

def erase (d : SortedDict K V) (k : K) : SortedDict K V where
  items := d.items.filter (fun kv => kv.1 ≠ k)
  sorted := d.sorted.filter _

def length (d : SortedDict K V) : ℕ := d.items.length

def peekLast (d : SortedDict K V) : Option (K × V) := d.items.getLast?

def popFirst (d : SortedDict K V) : Option ((K × V) × SortedDict K V) :=
  match d with
  | ⟨[],_⟩ => none
  | ⟨kv::rest,h⟩ => some (kv,⟨rest,h.of_cons⟩)

/-- The slice that starts at the right bisection point of a key. -/
def itemsAfter (d : SortedDict K V) (k : K) : List (K × V) :=
  d.items.dropWhile (fun kv => kv.1 ≤ k)

/-- The keys before `bisect_left(k)` are deleted. -/
def dropBefore (d : SortedDict K V) (k : K) : SortedDict K V where
  items := d.items.dropWhile (fun kv => kv.1 < k)
  sorted := d.sorted.sublist (dropWhile_sublist _)

variable (d : SortedDict K V)

theorem items_unique (a b : K × V) (ha : a ∈ d.items) (hb : b ∈ d.items)
    (h : a.1 = b.1) : a = b := by
  obtain ⟨its,hs⟩ := d
  induction its with
  | nil => simp at ha
  | cons c rs ih =>
    have hc : ∀ e ∈ rs, c.1 < e.1 := fun e he => rel_of_pairwise_cons hs he
    rcases mem_cons.mp ha with hac | har <;> rcases mem_cons.mp hb with hbc | hbr
    · exact hac.trans hbc.symm
    · exact absurd (hac ▸ h) (ne_of_lt (hc b hbr))
    · exact absurd (hbc ▸ h).symm (ne_of_lt (hc a har))
    · exact ih hs.of_cons har hbr

theorem get_eq_some (k : K) (v : V) : d.get k = some v ↔ (k,v) ∈ d.items := by
  constructor
  · intro h
    obtain ⟨⟨k',v'⟩,hf,rfl⟩ := map_eq_some_iff.mp h
    have hk : k' = k := by simpa using find?_some hf
    exact hk ▸ mem_of_find?_eq_some hf
  · intro h
    cases hf : d.items.find? (fun kv => kv.1 = k) with
    | none => simpa using find?_eq_none.mp hf (k,v) h
    | some kv =>
      have hk : kv.1 = k := by simpa using find?_some hf
      have he := items_unique d kv (k,v) (mem_of_find?_eq_some hf) h hk
      simp [get,hf,he]

theorem get_eq_none (k : K) : d.get k = none ↔ ∀ v, (k,v) ∉ d.items := by
  constructor
  · intro h v hv
    rw [(get_eq_some d k v).mpr hv] at h
    simp at h
  · intro h
    cases hg : d.get k with
    | none => rfl
    | some v => exact absurd ((get_eq_some d k v).mp hg) (h v)

@[simp] theorem get_empty (k : K) : (empty : SortedDict K V).get k = none := rfl

theorem mem_set (k l : K) (v w : V) :
    (l,w) ∈ (d.set k v).items ↔ (l = k ∧ w = v) ∨ (l ≠ k ∧ (l,w) ∈ d.items) := by
  simp only [set,mem_append,mem_cons,mem_filter,decide_eq_true_eq,Prod.mk.injEq]
  constructor
  · rintro (⟨h,hlt⟩ | ⟨rfl,rfl⟩ | ⟨h,hlt⟩)
    · exact .inr ⟨ne_of_lt hlt,h⟩
    · exact .inl ⟨rfl,rfl⟩
    · exact .inr ⟨ne_of_gt hlt,h⟩
  · rintro (⟨rfl,rfl⟩ | ⟨hne,h⟩)
    · exact .inr (.inl ⟨rfl,rfl⟩)
    · rcases lt_or_gt_of_ne hne with hlt | hlt
      · exact .inl ⟨h,hlt⟩
      · exact .inr (.inr ⟨h,hlt⟩)

theorem get_set (k l : K) (v : V) : (d.set k v).get l = if l = k then some v else d.get l := by
  apply ext
  intro w
  rw [get_eq_some,mem_set]
  by_cases h : l = k
  · simp [h,eq_comm]
  · simp [h,get_eq_some]

theorem get_erase (k l : K) : (d.erase k).get l = if l = k then none else d.get l := by
  apply ext
  intro w
  rw [get_eq_some]
  by_cases h : l = k
  · simp [erase,h]
  · simp [erase,h,get_eq_some]

theorem popFirst_get (d r : SortedDict K V) (k : K) (v : V) (h : d.popFirst = some ((k,v),r)) :
    d.get k = some v ∧ (∀ l, r.get l = if l = k then none else d.get l) ∧
      ∀ l w, r.get l = some w → k < l := by
  obtain ⟨its,hs⟩ := d
  cases its with
  | nil => simp [popFirst] at h
  | cons a rs =>
    obtain ⟨rfl,rfl⟩ := h
    have hlt : ∀ b ∈ rs, k < b.1 := fun b hb => rel_of_pairwise_cons hs hb
    refine ⟨by simp [get],?_,?_⟩
    · intro l
      by_cases hl : l = k
      · subst hl
        rw [if_pos rfl,get_eq_none]
        intro w hw
        exact lt_irrefl _ (hlt _ hw)
      · simp [get,hl,Ne.symm hl]
    · intro l w hw
      exact hlt _ ((get_eq_some _ l w).mp hw)

theorem peekLast_none (h : d.peekLast = none) (k : K) : d.get k = none := by
  rw [get_eq_none]
  intro v hv
  rw [peekLast,getLast?_eq_none_iff] at h
  simp [h] at hv

theorem le_peekLast (k : K) (v : V) (la : K × V) (h : d.peekLast = some la)
    (hk : d.get k = some v) : k ≤ la.1 := by
  have hm := (get_eq_some d k v).mp hk
  obtain ⟨init,hi⟩ := getLast?_eq_some_iff.mp h
  have hs := d.sorted
  rw [hi] at hm hs
  rcases mem_append.mp hm with hm | hm
  · exact le_of_lt ((pairwise_append.mp hs).2.2 _ hm la (by simp))
  · rw [mem_singleton] at hm
    exact le_of_eq (congrArg Prod.fst hm)

theorem mem_dropWhile {p : K → Prop} [DecidablePred p] (hp : ∀ {k l : K}, k < l → p l → p k)
    (kv : K × V) : kv ∈ d.items.dropWhile (fun kv => p kv.1) ↔ kv ∈ d.items ∧ ¬ p kv.1 := by
  obtain ⟨its,hs⟩ := d
  induction its with
  | nil => simp
  | cons a rs ih =>
    have ih := ih hs.of_cons
    by_cases ha : p a.1
    · rw [dropWhile_cons_of_pos (by simpa using ha)]
      rw [ih,mem_cons]
      constructor
      · rintro ⟨hm,hk⟩
        exact ⟨.inr hm,hk⟩
      · rintro ⟨rfl | hm,hk⟩
        · exact absurd ha hk
        · exact ⟨hm,hk⟩
    · rw [dropWhile_cons_of_neg (by simpa using ha),iff_self_and]
      intro hm
      rcases mem_cons.mp hm with rfl | hr
      · exact ha
      · exact fun hk => ha (hp (rel_of_pairwise_cons hs hr) hk)

theorem mem_itemsAfter (k : K) (kv : K × V) : kv ∈ d.itemsAfter k ↔ kv ∈ d.items ∧ k < kv.1 := by
  rw [itemsAfter,mem_dropWhile d (fun hlt hle => hlt.le.trans hle),not_le]

theorem get_dropBefore (k l : K) : (d.dropBefore k).get l = if l < k then none else d.get l := by
  ext v
  rw [get_eq_some,dropBefore,mem_dropWhile d (fun hlt hlt' => hlt.trans hlt')]
  split
  · rename_i hl
    simp [hl]
  · rename_i hl
    simp [hl,get_eq_some]

end SortedDict
end Synapse
