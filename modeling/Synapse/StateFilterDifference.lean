import Synapse.Iteration
import Synapse.StateFilter

/-!
# Differences of state filters

A filter is taken apart into all state, the types taken out of it, and the types
and the single keys put in. The difference of two filters is computed on these
parts, and is as narrow as a filter can be.
-/

set_option autoImplicit false

namespace Synapse.StateFilter
open List

structure FourParts where
  all : Bool
  excludes : Finset String
  wildcards : Finset String
  concreteKeys : Finset StateKey

def wildcardTypes (f : StateFilter) : List String :=
  (f.types.entries.filter (fun entry => entry.2.isNone)).keys

def decomposeIntoFourParts (f : StateFilter) : FourParts where
  all := f.includeOthers
  excludes := if f.includeOthers then f.types.keys.toFinset else ∅
  wildcards := f.wildcardTypes.toFinset
  concreteKeys := f.concreteTypes.toFinset

structure PartOrders where
  types : Iteration String
  stateKeys : Iteration StateKey

def insertStateKey (allPart : Bool) (types : Dict String (Option FrozenSet)) (key : StateKey) :
    Dict String (Option FrozenSet) :=
  match types.lookup key.1 with
  | some (some entry) => types.insert key.1 (some (entry.add key.2))
  | some none => types
  | none => if allPart then types else types.insert key.1 (some (FrozenSet.empty.add key.2))

def recomposeFromFourParts (orders : PartOrders) (parts : FourParts) : StateFilter :=
  let excluded : Dict String (Option FrozenSet) :=
    if parts.all then (orders.types.list parts.excludes).foldl
      (fun types t => types.insert t (some FrozenSet.empty)) ∅ else ∅
  let wild :=
    (orders.types.list parts.wildcards).foldl (fun types t => types.insert t none) excluded
  make ((orders.stateKeys.list parts.concreteKeys).foldl (insertStateKey parts.all) wild) parts.all

/-- The parts of the difference. What the other filter starts with all state
leaves only the types it excludes. -/
def FourParts.difference (self other : FourParts) : FourParts :=
  let wildcards := self.wildcards \ other.wildcards
  let concreteKeys :=
    self.concreteKeys.filter (fun key => key.1 ∉ other.wildcards) \ other.concreteKeys
  if other.all then
    { all := false
      excludes := ∅
      wildcards := (if self.all then wildcards ∪ (other.excludes \ self.excludes) else wildcards) ∩
        other.excludes
      concreteKeys := concreteKeys.filter (fun key => key.1 ∈ other.excludes) }
  else
    { all := self.all
      excludes := self.excludes ∪ other.wildcards
      wildcards := wildcards
      concreteKeys := concreteKeys }

def approxDifference (orders : PartOrders) (self other : StateFilter) : StateFilter :=
  recomposeFromFourParts orders
    (self.decomposeIntoFourParts.difference other.decomposeIntoFourParts)

section Parts

variable {f : StateFilter} {key : StateKey}

theorem mem_wildcards {t : String} :
    t ∈ f.decomposeIntoFourParts.wildcards ↔ f.types.lookup t = some none := by
  rw [decomposeIntoFourParts,mem_toFinset,wildcardTypes,mem_keys]
  constructor
  · rintro ⟨ks,hin⟩
    obtain ⟨he,hn⟩ := mem_filter.mp hin
    cases ks with
    | none => exact AList.mem_lookup_iff.mpr he
    | some ks => simp at hn
  · intro hl
    exact ⟨none,mem_filter.mpr ⟨AList.mem_lookup_iff.mp hl,rfl⟩⟩

theorem mem_excludes {t : String} : t ∈ f.decomposeIntoFourParts.excludes ↔
    f.includeOthers = true ∧ (f.types.lookup t).isSome = true := by
  rw [decomposeIntoFourParts,AList.lookup_isSome,AList.mem_keys]
  cases f.includeOthers <;> simp

theorem mem_concreteKeys : key ∈ f.decomposeIntoFourParts.concreteKeys ↔
    ∃ ks, f.types.lookup key.1 = some (some ks) ∧ key.2 ∈ ks.elements := by
  rw [decomposeIntoFourParts,mem_toFinset,mem_concreteTypes]

/-- All state, minus the excluded types, plus the types and the keys put in. -/
def FourParts.Admits (parts : FourParts) (key : StateKey) : Prop :=
  (parts.all = true ∧ key.1 ∉ parts.excludes) ∨ key.1 ∈ parts.wildcards ∨ key ∈ parts.concreteKeys

theorem admits_insertStateKey (al : Bool) (tys : Dict String (Option FrozenSet)) (k : StateKey) :
    admits al key.2 ((insertStateKey al tys k).lookup key.1) = true ↔
      admits al key.2 (tys.lookup key.1) = true ∨ key = k := by
  by_cases ht : key.1 = k.1
  · unfold insertStateKey
    rw [Prod.ext_iff,ht]
    cases hl : tys.lookup k.1 with
    | none =>
      cases al with
      | true => simp [hl,admits]
      | false => simp [admits,FrozenSet.mem_add,FrozenSet.empty]
    | some ks =>
      cases ks with
      | none => simp [hl,admits]
      | some ks => simp [admits,FrozenSet.mem_add,or_comm]
  · have hs : (insertStateKey al tys k).lookup key.1 = tys.lookup key.1 := by
      unfold insertStateKey
      split
      · exact AList.lookup_insert_ne ht
      · rfl
      · split
        · rfl
        · exact AList.lookup_insert_ne ht
    have hne : key ≠ k := fun heq => ht (congrArg Prod.fst heq)
    simp [hs,hne]

theorem admits_foldl_insertStateKey (al : Bool) (ks : List StateKey)
    (tys : Dict String (Option FrozenSet)) :
    admits al key.2 ((ks.foldl (insertStateKey al) tys).lookup key.1) = true ↔
      admits al key.2 (tys.lookup key.1) = true ∨ key ∈ ks := by
  induction ks generalizing tys with
  | nil => simp
  | cons k ks ih => rw [foldl_cons,ih,admits_insertStateKey,mem_cons,or_assoc]

theorem contains_recompose (ord : PartOrders) (p : FourParts) :
    (recomposeFromFourParts ord p).contains key = true ↔ p.Admits key := by
  rw [recomposeFromFourParts,contains_make,admits_foldl_insertStateKey,Dict.lookup_foldl_set,
    FourParts.Admits]
  simp only [Iteration.mem]
  by_cases hw : key.1 ∈ p.wildcards
  · simp [hw,admits]
  · rw [if_neg hw]
    cases ha : p.all with
    | false => simp [hw,admits]
    | true =>
      rw [if_pos rfl,Dict.lookup_foldl_set]
      by_cases he : key.1 ∈ p.excludes
      · simp [hw,he,admits,FrozenSet.empty,Iteration.mem]
      · simp [he,admits,Iteration.mem]

variable {g : StateFilter}

def wantsType (f : StateFilter) (t : String) : Bool :=
  match f.types.lookup t with
  | some keys => keys.isNone
  | none => f.includeOthers

theorem admits_difference :
    (f.decomposeIntoFourParts.difference g.decomposeIntoFourParts).Admits key ↔
      f.contains key = true ∧
        (g.contains key = false ∨ f.wantsType key.1 = true ∧ g.wantsType key.1 = false) := by
  have hg : g.includeOthers = true → g.types.lookup key.1 ≠ some none := fun h => g.canonical h _
  have hall : ∀ h : StateFilter, h.decomposeIntoFourParts.all = h.includeOthers := fun _ => rfl
  rw [FourParts.difference,FourParts.Admits,contains,contains,wantsType,wantsType]
  -- by what each filter has for the type, and whether it takes the other types
  cases hfo : f.includeOthers <;> cases hgo : g.includeOthers <;>
    rcases hfl : f.types.lookup key.1 with _ | _ | ks <;>
    rcases hgl : g.types.lookup key.1 with _ | _ | ks' <;>
    simp_all [mem_wildcards,mem_excludes,mem_concreteKeys,admits]

end Parts

section Narrowest

def keysOf (f : StateFilter) (t : String) : Set String :=
  {stateKey | f.contains (t,stateKey) = true}

variable {f : StateFilter} {t : String}

theorem keysOf_of_wantsType (h : f.wantsType t = true) : f.keysOf t = Set.univ := by
  rw [wantsType] at h
  rw [keysOf,Set.eq_univ_iff_forall]
  intro sk
  rw [Set.mem_ofPred_eq,contains]
  cases hl : f.types.lookup t with
  | none => simpa [hl,admits] using h
  | some ks =>
    cases ks with
    | none => rfl
    | some ks => simp [hl] at h

theorem finite_keysOf (h : f.wantsType t = false) : (f.keysOf t).Finite := by
  rw [wantsType] at h
  rw [keysOf]
  simp only [contains]
  cases hl : f.types.lookup t with
  | none =>
    rw [hl] at h
    simp [admits,h]
  | some ks =>
    cases ks with
    | none => simp [hl] at h
    | some ks =>
      simp only [admits,decide_eq_true_eq]
      exact ks.elements.finite_toSet

theorem finite_keysOf_iff : (f.keysOf t).Finite ↔ f.wantsType t = false := by
  constructor
  · intro hfin
    by_contra hw
    rw [keysOf_of_wantsType (by simpa using hw)] at hfin
    exact Set.infinite_univ hfin
  · exact finite_keysOf

theorem keysOf_eq_univ_iff : f.keysOf t = Set.univ ↔ f.wantsType t = true := by
  constructor
  · intro hu
    by_contra hw
    have hfin := finite_keysOf (f := f) (t := t) (by simpa using hw)
    rw [hu] at hfin
    exact Set.infinite_univ hfin
  · exact keysOf_of_wantsType

/-- A finite set of keys, or one of which nothing remains, is subtracted from
exactly. A type that is wanted whole and not given whole is kept. -/
theorem keysOf_approxDifference (orders : PartOrders) (self other : StateFilter) (t : String) :
    ((self.keysOf t).Finite ∨ other.keysOf t = Set.univ →
      (approxDifference orders self other).keysOf t = self.keysOf t \ other.keysOf t) ∧
    (¬ ((self.keysOf t).Finite ∨ other.keysOf t = Set.univ) →
      (approxDifference orders self other).keysOf t = self.keysOf t) := by
  have hd : ∀ sk, sk ∈ (approxDifference orders self other).keysOf t ↔ sk ∈ self.keysOf t ∧
      (sk ∉ other.keysOf t ∨ self.wantsType t = true ∧ other.wantsType t = false) := by
    intro sk
    rw [keysOf,Set.mem_ofPred_eq,approxDifference,contains_recompose,admits_difference]
    simp [keysOf]
  rw [finite_keysOf_iff,keysOf_eq_univ_iff]
  constructor
  · intro h
    ext sk
    rw [hd]
    rcases h with h | h <;> simp [h]
  · intro h
    ext sk
    rw [hd]
    simp only [not_or] at h
    simp [h]

end Narrowest

end Synapse.StateFilter
