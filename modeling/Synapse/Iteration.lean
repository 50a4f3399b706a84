import Mathlib

/-!
# Iterating over a set

The order in which the elements of a set come is not specified. An iteration
fixes one; what a loop computes should not depend on which.
-/

set_option autoImplicit false

namespace Synapse
open List Finset

structure Iteration (α : Type) where
  list : Finset α → List α
  nodup : ∀ s, (list s).Nodup
  mem : ∀ s x, x ∈ list s ↔ x ∈ s

namespace Iteration

variable {α κ : Type}

theorem perm (i j : Iteration α) (s : Finset α) : (i.list s).Perm (j.list s) := by
  rw [perm_ext_iff_of_nodup (i.nodup s) (j.nodup s)]
  intro x
  rw [i.mem,j.mem]

noncomputable instance : Inhabited (Iteration α) :=
  ⟨Finset.toList,nodup_toList,fun _ _ => mem_toList⟩

noncomputable def endingWith [DecidableEq α] (x : α) : Iteration α where
  list s := (s.erase x).toList ++ if x ∈ s then [x] else []
  nodup s := by
    refine Nodup.append (nodup_toList _) (by split <;> simp) ?_
    intro y hy hx
    split at hx
    · exact ne_of_mem_erase (mem_toList.mp hy) (List.mem_singleton.mp hx)
    · cases hx
  mem s y := by
    by_cases hy : y = x
    · subst hy
      by_cases h : y ∈ s <;> simp [h]
    · by_cases h : x ∈ s <;> simp [h,hy]

theorem endingWith_list [DecidableEq α] {x : α} {s : Finset α} (h : x ∈ s) :
    (endingWith x).list s = (s.erase x).toList ++ [x] := by
  simp [endingWith,h]

variable [LinearOrder κ]

theorem insertionSort_eq {key : α → κ} {xs ys : List α} (hp : xs.Perm ys)
    (hk : ∀ a ∈ xs, ∀ b ∈ xs, key a = key b → a = b) :
    xs.insertionSort (fun a b => key a ≤ key b) = ys.insertionSort (fun a b => key a ≤ key b) := by
  apply List.Perm.eq_of_pairwise _ (pairwise_insertionSort _ _) (pairwise_insertionSort _ _)
  · exact (perm_insertionSort _ _).trans (hp.trans (perm_insertionSort _ _).symm)
  · intro a b ha hb hab hba
    rw [mem_insertionSort] at ha hb
    exact hk a ha b (hp.mem_iff.mpr hb) (le_antisymm hab hba)

def sortedBy (key : α → κ) (hkey : Function.Injective key) : Iteration α where
  list s := Quotient.liftOn s.val (fun xs => xs.insertionSort (fun a b => key a ≤ key b))
    (fun _ _ h => insertionSort_eq h (fun _ _ _ _ heq => hkey heq))
  nodup s := by
    obtain ⟨⟨xs⟩,hs⟩ := s
    exact (perm_insertionSort _ xs).nodup_iff.mpr hs
  mem s x := by
    obtain ⟨⟨xs⟩,hs⟩ := s
    exact mem_insertionSort _

end Iteration

end Synapse
