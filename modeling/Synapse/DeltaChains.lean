import Synapse.Dict

/-!
# Chains of deltas

A store numbers its states. A state is kept in full, or as the entries that it
has on top of a state with a lower number. Overlaying the entries from the root
of a chain gives the state.
-/

set_option autoImplicit false

namespace Synapse
open List

structure DeltaStore (K V : Type) where
  prev : Dict ℕ ℕ
  rows : Dict ℕ (Dict K V)
  lower : ∀ g p, prev.lookup g = some p → p < g

namespace DeltaStore

variable {K V : Type}

def rowsOf (rows : Dict ℕ (Dict K V)) (g : ℕ) : Dict K V := (rows.lookup g).getD ∅

def chain (prev : Dict ℕ ℕ) : ℕ → ℕ → List ℕ
  | 0, _ => []
  | fuel+1, g =>
    g::match prev.lookup g with
      | some p => chain prev fuel p
      | none => []

def ancestors (s : DeltaStore K V) (g : ℕ) : List ℕ := chain s.prev (g+1) g

def hops (s : DeltaStore K V) (g : ℕ) : ℕ := (s.ancestors g).length-1

section Chain

variable {s : DeltaStore K V}

theorem chain_fuel {fuel fuel' g : ℕ} (h : g < fuel) (h' : g < fuel') :
    chain s.prev fuel g = chain s.prev fuel' g := by
  induction fuel generalizing fuel' g with
  | zero => omega
  | succ fuel ih =>
    cases fuel' with
    | zero => omega
    | succ fuel' =>
      rw [chain,chain]
      cases hp : s.prev.lookup g with
      | none => rfl
      | some p =>
        have hl := s.lower g p hp
        exact congrArg (g::·) (ih (by omega) (by omega))

theorem ancestors_of_some {g p : ℕ} (h : s.prev.lookup g = some p) :
    s.ancestors g = g::s.ancestors p := by
  have hl := s.lower g p h
  rw [ancestors,chain,h]
  exact congrArg (g::·) (chain_fuel (by omega) (by omega))

theorem ancestors_of_none {g : ℕ} (h : s.prev.lookup g = none) : s.ancestors g = [g] := by
  rw [ancestors,chain,h]

theorem chain_induction {P : ℕ → Prop} (s : DeltaStore K V)
    (root : ∀ g, s.prev.lookup g = none → P g) (step : ∀ g p, s.prev.lookup g = some p → P p → P g)
    (g : ℕ) : P g := by
  induction g using Nat.strong_induction_on with
  | _ g ih =>
    cases hp : s.prev.lookup g with
    | none => exact root g hp
    | some p => exact step g p hp (ih p (s.lower g p hp))

theorem ancestors_descending (g : ℕ) :
    (s.ancestors g).Pairwise (· > ·) ∧ ∀ h ∈ s.ancestors g, h ≤ g := by
  induction g using s.chain_induction with
  | root g h =>
    rw [ancestors_of_none h]
    simp
  | step g p h ih =>
    have hl := s.lower g p h
    rw [ancestors_of_some h,pairwise_cons]
    refine ⟨⟨?_,ih.1⟩,?_⟩
    · intro a ha
      have hle := ih.2 a ha
      omega
    · intro a ha
      rcases mem_cons.mp ha with rfl | ha
      · exact le_rfl
      · have hle := ih.2 a ha
        omega

theorem hops_of_none {g : ℕ} (h : s.prev.lookup g = none) : s.hops g = 0 := by
  rw [hops,ancestors_of_none h]
  rfl

theorem hops_of_some {g p : ℕ} (h : s.prev.lookup g = some p) : s.hops g = s.hops p+1 := by
  have hp : 0 < (s.ancestors p).length := by
    exact Nat.succ_pos _
  rw [hops,hops,ancestors_of_some h,length_cons]
  omega

theorem hops_mono {s' : DeltaStore K V}
    (h : ∀ g p, s'.prev.lookup g = some p → s.prev.lookup g = some p) (g : ℕ) :
    s'.hops g ≤ s.hops g := by
  induction g using s'.chain_induction with
  | root g hg =>
    rw [hops_of_none hg]
    exact Nat.zero_le _
  | step g p hg ih =>
    rw [hops_of_some hg,hops_of_some (h g p hg)]
    omega

end Chain

section Resolve

variable [DecidableEq K]

def resolve (s : DeltaStore K V) (g : ℕ) : Dict K V :=
  (s.ancestors g).foldr (fun g state => Dict.update state (rowsOf s.rows g)) ∅

variable {s : DeltaStore K V}

theorem resolve_of_none {g : ℕ} (h : s.prev.lookup g = none) (k : K) :
    (s.resolve g).lookup k = (rowsOf s.rows g).lookup k := by
  rw [resolve,ancestors_of_none h,foldr_cons,Dict.lookup_update]
  simp

theorem resolve_of_some {g p : ℕ} (h : s.prev.lookup g = some p) :
    s.resolve g = Dict.update (s.resolve p) (rowsOf s.rows g) := by
  rw [resolve,ancestors_of_some h,foldr_cons,← resolve]

theorem lookup_resolve (g : ℕ) (k : K) : (s.resolve g).lookup k =
    (s.ancestors g).findSome? (fun h => (rowsOf s.rows h).lookup k) := by
  rw [resolve]
  induction s.ancestors g with
  | nil => simp
  | cons h ch ih =>
    rw [foldr_cons,Dict.lookup_update,ih,findSome?_cons]
    cases (rowsOf s.rows h).lookup k <;> rfl

theorem resolve_congr {t : DeltaStore K V} {P : ℕ → Prop}
    (hc : ∀ g p, P g → s.prev.lookup g = some p → P p)
    (hp : ∀ g, P g → t.prev.lookup g = s.prev.lookup g)
    (hr : ∀ g, P g → rowsOf t.rows g = rowsOf s.rows g) {g : ℕ} (hg : P g) :
    t.ancestors g = s.ancestors g ∧ t.resolve g = s.resolve g := by
  induction g using s.chain_induction with
  | root g h =>
    have h' := (hp g hg).trans h
    refine ⟨by rw [ancestors_of_none h,ancestors_of_none h'],?_⟩
    rw [resolve,resolve,ancestors_of_none h,ancestors_of_none h']
    simp only [foldr_cons,foldr_nil]
    rw [hr g hg]
  | step g p h ih =>
    have h' := (hp g hg).trans h
    obtain ⟨hch,hs⟩ := ih (hc g p hg h)
    refine ⟨by rw [ancestors_of_some h,ancestors_of_some h',hch],?_⟩
    rw [resolve_of_some h,resolve_of_some h',hs,hr g hg]

end Resolve

end DeltaStore

end Synapse
