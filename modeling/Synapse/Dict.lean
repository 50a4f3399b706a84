import Mathlib

/-!
# Dictionaries

Finite maps of a fixed value type over `AList`, with lookups written as one
conditional. The order of the entries is that of the last insertions; no
result below depends on it.
-/

set_option autoImplicit false

namespace Synapse
open List Option AList

abbrev Dict (K : Type*) (V : Type*) := AList (fun _ : K => V)

namespace Dict

variable {K V : Type*}

def values (d : Dict K V) : List V := d.entries.map Sigma.snd

variable [DecidableEq K]

@[grind =]
theorem lookup_set (d : Dict K V) (k l : K) (v : V) :
    (d.insert k v).lookup l = if l = k then some v else d.lookup l := by
  by_cases h : l = k
  · subst h
    simp
  · simp [h]

@[grind =]
theorem lookup_pop (d : Dict K V) (k l : K) :
    (d.erase k).lookup l = if l = k then none else d.lookup l := by
  by_cases h : l = k
  · subst h
    simp
  · simp [h]

theorem mem_values (d : Dict K V) (v : V) : v ∈ values d ↔ ∃ k, d.lookup k = some v := by
  constructor
  · intro h
    obtain ⟨⟨k,w⟩,hm,rfl⟩ := mem_map.mp h
    exact ⟨k,mem_lookup_iff.mpr hm⟩
  · rintro ⟨k,hk⟩
    exact mem_map.mpr ⟨⟨k,v⟩,mem_lookup_iff.mp hk,rfl⟩

variable {d : Dict K V} {k l : K} {W : Type*}

theorem set_cases {v w : V} (h : (d.insert k v).lookup l = some w) :
    l = k ∧ v = w ∨ l ≠ k ∧ d.lookup l = some w := by
  rw [lookup_set] at h
  split at h
  · exact .inl ⟨‹_›,some.inj h⟩
  · exact .inr ⟨‹_›,h⟩

theorem pop_cases {v : V} (h : (d.erase k).lookup l = some v) : l ≠ k ∧ d.lookup l = some v := by
  rw [lookup_pop] at h
  split at h
  · cases h
  · exact ⟨‹_›,h⟩

@[grind =]
theorem mem_iff_lookup : k ∈ d ↔ ∃ v, d.lookup k = some v := by
  rw [← lookup_isSome,isSome_iff_exists]

@[grind =]
theorem mem_set {v : V} : l ∈ d.insert k v ↔ l = k ∨ l ∈ d :=
  mem_insert d

def All (P : K → V → Prop) (d : Dict K V) : Prop := ∀ k v, d.lookup k = some v → P k v

theorem all_empty (P : K → V → Prop) : All P (∅ : Dict K V) := by
  intro k v h
  simp at h

theorem All.set {P : K → V → Prop} (h : All P d) {v : V} (hv : P k v) : All P (d.insert k v) := by
  intro l w hl
  rw [lookup_set] at hl
  split at hl
  · rename_i hk
    rw [hk,← some.inj hl]
    exact hv
  · exact h l w hl

/-- `{key(row): value(row) for row in rows}` -/
theorem foldl_set_spec {S : Type*} (key : S → K) (va : S → V) (rws : List S) :
    All (fun k v => ∃ row ∈ rws, key row = k ∧ va row = v)
      (rws.foldl (fun d row => d.insert (key row) (va row)) (∅ : Dict K V)) ∧
    ∀ row ∈ rws, key row ∈
      (rws.foldl (fun d row => d.insert (key row) (va row)) (∅ : Dict K V)) := by
  induction rws using reverseRecOn with
  | nil => exact ⟨all_empty _,fun row hrow => by cases hrow⟩
  | append_singleton rws la ih =>
    rw [foldl_append]
    constructor
    · apply All.set
      · intro k v hk
        obtain ⟨row,hrow,hr⟩ := ih.1 k v hk
        exact ⟨row,mem_append_left _ hrow,hr⟩
      · exact ⟨la,by simp,rfl,rfl⟩
    · intro row hrow
      rcases mem_append.mp hrow with hm | hm
      · exact mem_set.mpr (Or.inr (ih.2 row hm))
      · exact mem_set.mpr (Or.inl (by rw [mem_singleton.mp hm]))

theorem sum_values_set (d : Dict K V) (k : K) (v : V) (f : V → ℕ) :
    ((values (d.insert k v)).map f).sum+((d.lookup k).map f).getD 0 =
      f v+((values d).map f).sum := by
  have ha : ∀ es : List (Sigma fun _ : K => V),
      (((es.kerase k).map Sigma.snd).map f).sum+((es.dlookup k).map f).getD 0 =
        ((es.map Sigma.snd).map f).sum := by
    intro es
    induction es with
    | nil => simp
    | cons e es ih =>
      by_cases hk : k = e.1
      · obtain ⟨l,w⟩ := e
        rw [kerase_cons_eq hk]
        subst hk
        simp only [dlookup_cons_eq,map_some,getD_some,map_cons,sum_cons]
        omega
      · rw [kerase_cons_ne hk,dlookup_cons_ne _ e hk]
        simp only [map_cons,sum_cons]
        omega
  have he := ha d.entries
  rw [values,entries_insert,values]
  simp only [map_cons,sum_cons]
  change _+(Option.map f (dlookup k d.entries)).getD 0 = _
  omega

theorem countP_eq_sum {A : Type*} (l : List A) (p : A → Bool) :
    l.countP p = (l.map (fun a => if p a then 1 else 0)).sum := by
  induction l with
  | nil => rfl
  | cons a l ih =>
    rw [countP_cons,map_cons,sum_cons]
    omega

theorem countP_values_set (d : Dict K V) (k : K) (v : V) (p : V → Bool) :
    (values (d.insert k v)).countP p+(if (d.lookup k).any p then 1 else 0) =
      (if p v then 1 else 0)+(values d).countP p := by
  have hs := sum_values_set d k v (fun v => if p v then 1 else 0)
  rw [countP_eq_sum,countP_eq_sum]
  cases hl : d.lookup k with
  | none => simpa [hl] using hs
  | some old => simpa [hl] using hs

/-- A loop that changes what is read only at its key, where a second change does nothing. -/
theorem read_foldl {S A : Type*} {g : S → K → S} {r : S → A} {f : A → A}
    (hs : ∀ s, r (g s l) = f (r s)) (ho : ∀ s k, l ≠ k → r (g s k) = r s) (hf : ∀ a, f (f a) = f a)
    (ks : List K) (s : S) : r (ks.foldl g s) = if l ∈ ks then f (r s) else r s := by
  induction ks generalizing s with
  | nil => simp
  | cons k ks ih =>
    rw [foldl_cons,ih]
    by_cases hk : l = k
    · subst hk
      simp [hs,hf]
    · simp [ho s k hk,hk]

theorem or_or (o x : Option V) : o.or (o.or x) = o.or x := by
  cases o <;> rfl

def popAll (d : Dict K V) (ks : List K) : Dict K V := ks.foldl (fun d k => d.erase k) d

@[grind =]
theorem lookup_popAll (d : Dict K V) (ks : List K) (l : K) :
    (popAll d ks).lookup l = if l ∈ ks then none else d.lookup l :=
  read_foldl (r := AList.lookup l) (f := fun _ => none) (fun d => lookup_erase l d)
    (fun _ _ hk => lookup_erase_ne hk) (fun _ => rfl) ks d

@[grind =]
theorem mem_popAll {ks : List K} : l ∈ popAll d ks ↔ l ∈ d ∧ l ∉ ks := by
  rw [← lookup_isSome,← lookup_isSome,lookup_popAll]
  by_cases hm : l ∈ ks <;> simp [hm]

/-- Keys that are missing are given the default, the others keep their value. -/
def setDefaults (d : Dict K V) (ks : List K) (v : V) : Dict K V :=
  ks.foldl (fun d k => if k ∈ d then d else d.insert k v) d

@[grind =]
theorem lookup_setDefaults (d : Dict K V) (ks : List K) (v : V) (l : K) :
    (setDefaults d ks v).lookup l =
      if l ∈ ks then some ((d.lookup l).getD v) else d.lookup l := by
  refine read_foldl (r := AList.lookup l) (f := fun o => some (o.getD v)) ?_ ?_
    (fun _ => rfl) ks d
  · intro d
    split
    · next hk =>
      obtain ⟨w,hw⟩ := mem_iff_lookup.mp hk
      simp [hw]
    · next hk => simp [lookup_eq_none.mpr hk]
  · intro d k hk
    split
    · rfl
    · exact lookup_insert_ne hk

theorem lookup_foldl_set (ks : List K) (f : K → V) (d : Dict K V) (l : K) :
    (ks.foldl (fun d k => d.insert k (f k)) d).lookup l =
      if l ∈ ks then some (f l) else d.lookup l :=
  read_foldl (r := AList.lookup l) (f := fun _ => some (f l)) (fun d => lookup_insert d)
    (fun _ _ hk => lookup_insert_ne hk) (fun _ => rfl) ks d

/-- `d.update(other)` -/
def update (d other : Dict K V) : Dict K V :=
  other.entries.foldl (fun d entry => d.insert entry.1 entry.2) d

theorem lookup_foldl_insert (f : W → V) (es : List (Sigma fun _ : K => W)) (hn : es.NodupKeys)
    (d : Dict K V) (l : K) :
    (es.foldl (fun d e => d.insert e.1 (f e.2)) d).lookup l =
      ((es.dlookup l).map f).or (d.lookup l) := by
  induction es generalizing d with
  | nil => simp
  | cons e es ih =>
    obtain ⟨k,v⟩ := e
    rw [nodupKeys_cons] at hn
    rw [foldl_cons,ih hn.2]
    by_cases hk : l = k
    · subst hk
      rw [dlookup_eq_none.mpr hn.1]
      simp
    · simp [hk]

@[grind =]
theorem lookup_update (d o : Dict K V) (l : K) :
    (update d o).lookup l = (o.lookup l).or (d.lookup l) := by
  have h := lookup_foldl_insert id o.entries o.nodupKeys d l
  rw [Option.map_id_fun] at h
  exact h

theorem All.update {P : K → V → Prop} {o : Dict K V} (h : All P d) (ho : All P o) :
    All P (Dict.update d o) := by
  intro l v hlo
  rw [lookup_update] at hlo
  cases hl : o.lookup l with
  | none =>
    rw [hl] at hlo
    exact h l v hlo
  | some w =>
    rw [hl] at hlo
    exact ho l v (hl.trans hlo)

@[grind =]
theorem mem_update {o : Dict K V} : l ∈ update d o ↔ l ∈ o ∨ l ∈ d := by
  rw [← lookup_isSome,lookup_update,isSome_or,Bool.or_eq_true,lookup_isSome,lookup_isSome]

/-- `{k: f(v) for k, v in d.items()}` -/
def mapValues {W : Type*} (d : Dict K V) (f : V → W) : Dict K W :=
  ⟨d.entries.map (fun entry => ⟨entry.1,f entry.2⟩),by
    rw [List.NodupKeys,List.keys,List.map_map]
    exact d.nodupKeys⟩

@[grind =]
theorem lookup_mapValues (d : Dict K V) (f : V → W) (l : K) :
    (mapValues d f).lookup l = (d.lookup l).map f := by
  ext w
  rw [← mem_def,mem_lookup_iff,mapValues,List.mem_map,map_eq_some_iff]
  constructor
  · rintro ⟨⟨k,v⟩,hm,heq⟩
    cases heq
    exact ⟨v,mem_lookup_iff.mpr hm,rfl⟩
  · rintro ⟨v,hv,rfl⟩
    exact ⟨⟨l,v⟩,mem_lookup_iff.mp hv,rfl⟩

/-- `{k: e[v] for k, v in d.items() if v in e}` -/
def compose {W : Type*} [DecidableEq V] (d : Dict K V) (e : Dict V W) : Dict K W :=
  ⟨d.entries.filterMap (fun entry => (e.lookup entry.2).map (fun w => ⟨entry.1,w⟩)),by
    have hnodup := d.nodupKeys
    rw [nodupKeys_iff_pairwise] at hnodup ⊢
    refine hnodup.filterMap _ ?_
    intro a b hab x hx y hy
    obtain ⟨_,_,rfl⟩ := map_eq_some_iff.mp hx
    obtain ⟨_,_,rfl⟩ := map_eq_some_iff.mp hy
    exact hab⟩

@[grind =]
theorem lookup_compose [DecidableEq V] (d : Dict K V) (e : Dict V W) (l : K) :
    (compose d e).lookup l = (d.lookup l).bind (fun v => e.lookup v) := by
  ext w
  rw [← mem_def,mem_lookup_iff,compose,mem_filterMap,bind_eq_some_iff]
  constructor
  · rintro ⟨⟨k,v⟩,hm,hw⟩
    obtain ⟨w',hw',heq⟩ := map_eq_some_iff.mp hw
    cases heq
    exact ⟨v,mem_lookup_iff.mpr hm,hw'⟩
  · rintro ⟨v,hv,hw⟩
    exact ⟨⟨l,v⟩,mem_lookup_iff.mp hv,by rw [hw]; rfl⟩

/-- `{k: v for k, v in d.items() if p(k, v)}` -/
def filter (d : Dict K V) (p : K → V → Bool) : Dict K V :=
  ⟨d.entries.filter (fun entry => p entry.1 entry.2),d.nodupKeys.sublist filter_sublist⟩

@[grind =]
theorem lookup_filter (d : Dict K V) (p : K → V → Bool) (l : K) :
    (filter d p).lookup l = (d.lookup l).filter (p l) := by
  ext v
  rw [← mem_def,mem_lookup_iff,filter,mem_filter,filter_eq_some_iff,← mem_def,mem_lookup_iff]

/-- `{k: v for k, v in d.items() if p(k)}` -/
def filterKeys (d : Dict K V) (p : K → Bool) : Dict K V := filter d (fun k _ => p k)

@[grind =]
theorem lookup_filterKeys (d : Dict K V) (p : K → Bool) (l : K) :
    (filterKeys d p).lookup l = if p l then d.lookup l else none := by
  rw [filterKeys,lookup_filter]
  cases d.lookup l with
  | none => simp
  | some v => cases p l <;> simp

/-- `d.update((k, v) for k, v in other.items() if k not in d)` -/
def addMissing (d other : Dict K V) : Dict K V :=
  other.entries.foldl (fun d entry => if entry.1 ∈ d then d else d.insert entry.1 entry.2) d

@[grind =]
theorem lookup_addMissing (d o : Dict K V) (l : K) :
    (addMissing d o).lookup l = (d.lookup l).or (o.lookup l) := by
  have ha : ∀ (es : List (Sigma fun _ : K => V)) (d : Dict K V),
      (es.foldl (fun d e => if e.1 ∈ d then d else d.insert e.1 e.2) d).lookup l
        = (d.lookup l).or (es.dlookup l) := by
    intro es
    induction es with
    | nil => simp
    | cons e es ih =>
      intro d
      obtain ⟨k,v⟩ := e
      rw [foldl_cons,ih]
      by_cases hk : l = k
      · subst hk
        by_cases hin : l ∈ d
        · obtain ⟨w,hw⟩ := mem_iff_lookup.mp hin
          simp [hin,hw]
        · simp [hin,lookup_eq_none.mpr hin]
      · rw [dlookup_cons_ne es (⟨k,v⟩ : Sigma fun _ : K => V) hk]
        by_cases hin : k ∈ d
        · simp [hin]
        · simp [hin,hk]
  exact ha o.entries d

end Dict
end Synapse
