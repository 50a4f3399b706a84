import Mathlib

/-!
# Reading a list page by page

A fetch from a cursor gives a page of items, the next cursor and whether there may
be more. The cursors are followed until a page is empty or the last one.
-/

set_option autoImplicit false

namespace Paging

variable {C α ε : Type}

structure Page (C α : Type) where
  items : List α
  next : C
  limited : Bool

def follow (fetch : C → Except ε (Page C α)) : ℕ → C → Except ε (Option (List α))
  | 0, _ => .ok none
  | n+1, c => do
    let page ← fetch c
    if page.items.isEmpty || !page.limited then .ok (some page.items)
    else do
      let rest ← follow fetch n page.next
      .ok (rest.map (page.items ++ ·))

/-- Following the cursors from `c` on ends and gives the items. -/
def Collects (fetch : C → Except ε (Page C α)) (c : C) (items : List α) : Prop :=
  ∃ n, follow fetch n c = .ok (some items)

theorem collects_iff {fetch : C → Except ε (Page C α)} {c : C} {page : Page C α}
    (hp : fetch c = .ok page) (items : List α) : Collects fetch c items ↔
      if page.items = [] ∨ page.limited = false then items = page.items
      else ∃ rest, items = page.items ++ rest ∧ Collects fetch page.next rest := by
  have hstep : ∀ n, follow fetch (n+1) c =
      if page.items = [] ∨ page.limited = false then .ok (some page.items)
      else (follow fetch n page.next).map (Option.map (page.items ++ ·)) := by
    intro n
    rw [follow,hp]
    change (if (page.items.isEmpty || !page.limited) = true then _ else _) = _
    simp only [Bool.or_eq_true,List.isEmpty_iff,Bool.not_eq_true']
    congr 1
  constructor
  · rintro ⟨n,hn⟩
    cases n with
    | zero => cases hn
    | succ n =>
      rw [hstep] at hn
      split at hn
      · next hlast =>
        rw [if_pos hlast]
        cases hn
        rfl
      · next hmore =>
        rw [if_neg hmore]
        cases hrest : follow fetch n page.next with
        | error e => simp [hrest,Except.map] at hn
        | ok rest =>
          cases rest with
          | none => simp [hrest,Except.map] at hn
          | some rest =>
            simp only [hrest,Except.map,Option.map_some,Except.ok.injEq,Option.some.injEq] at hn
            exact ⟨rest,hn.symm,n,hrest⟩
  · intro h
    split at h
    · next hlast => exact ⟨1,by rw [hstep,if_pos hlast,h]⟩
    · next hmore =>
      obtain ⟨rest,rfl,n,hn⟩ := h
      exact ⟨n+1,by rw [hstep,if_neg hmore,hn]; rfl⟩

end Paging
