import Mathlib

/-!
# References between finitely many nodes

Each node lists the nodes it refers to, and all but finitely many list none.
When no node leads back to itself every node has a weight that exceeds the
weights of its references together, which bounds any search that replaces a
node by some of its references.
-/

set_option autoImplicit false

namespace Synapse.References
open Relation List Finset

variable {α : Type} (next : α → List α)

def Refers (a b : α) : Prop := a ∈ next b

def Acyclic : Prop := ∀ a, ¬ TransGen (Refers next) a a

def SupportedOn (support : Finset α) : Prop := ∀ a, next a ≠ [] → a ∈ support

section Weight

variable {next} {support : Finset α}

variable {a b : α}

theorem SupportedOn.mem (hs : SupportedOn next support) (h : Refers next a b) : b ∈ support :=
  hs b (ne_nil_of_mem h)

/-- The number of nodes of the support that a node leads to, itself included. -/
noncomputable def rank (next : α → List α) (support : Finset α) (a : α) : ℕ := by
  classical
  exact (support.filter (fun b => ReflTransGen (Refers next) b a)).card

theorem Acyclic.rank_lt (hac : Acyclic next) (hs : SupportedOn next support) (h : Refers next a b) :
    rank next support a < rank next support b := by
  classical
  apply card_lt_card
  rw [ssubset_iff_of_subset]
  · refine ⟨b,mem_filter.mpr ⟨hs.mem h,.refl⟩,?_⟩
    intro hb
    exact hac a (TransGen.head' h (mem_filter.mp hb).2)
  · intro c hc
    obtain ⟨hcs,hca⟩ := mem_filter.mp hc
    exact mem_filter.mpr ⟨hcs,hca.tail h⟩

theorem Acyclic.wellFounded (hac : Acyclic next) (hs : SupportedOn next support) :
    WellFounded (Refers next) :=
  Subrelation.wf (fun h => hac.rank_lt hs h) (InvImage.wf (rank next support) wellFounded_lt)

theorem acyclic_of_rank (hs : SupportedOn next support) (nm : α → ℕ)
    (h : ∀ b ∈ support, ∀ a ∈ next b, nm a < nm b) : Acyclic next := by
  have hlt : ∀ a b, TransGen (Refers next) a b → nm a < nm b := by
    intro a b hab
    induction hab with
    | single hst => exact h _ (hs.mem hst) _ hst
    | tail _ hst ih => exact ih.trans (h _ (hs.mem hst) _ hst)
  exact fun a ha => lt_irrefl _ (hlt a a ha)

/-- One more than the weights of all references together. -/
noncomputable def weight (wf : WellFounded (Refers next)) : α → ℕ :=
  wf.fix (fun a ih => 1+((next a).attach.map (fun b => ih b.1 b.2)).sum)

section

variable (wf : WellFounded (Refers next))
include wf

theorem weight_eq (a : α) :
    weight wf a = 1+((next a).map (weight wf)).sum := by
  conv_lhs => rw [weight,wf.fix_eq]
  change 1+((next a).attach.map (weight wf ∘ Subtype.val)).sum = _
  rw [← List.map_map,attach_map_subtype_val]

theorem weight_pos (a : α) : 0 < weight wf a := by
  rw [weight_eq]
  omega

theorem weight_lt (h : Refers next a b) :
    weight wf a < weight wf b := by
  rw [weight_eq wf b]
  have := single_le_sum (fun _ _ => Nat.zero_le _) _ (mem_map_of_mem (f := weight wf) h)
  omega

theorem weight_lt_of_transGen (h : TransGen (Refers next) a b) :
    weight wf a < weight wf b := by
  induction h with
  | single hs => exact weight_lt wf hs
  | tail _ hs ih => exact ih.trans (weight_lt wf hs)

end

end Weight

section Closure

variable [DecidableEq α]

def expand (s : Finset α) : Finset α := s ∪ s.biUnion (fun a => (next a).toFinset)

def reach : ℕ → Finset α → Finset α
  | 0, s => s
  | n+1, s => expand next (reach n s)

end Closure

end Synapse.References
