import Synapse.Loops

/-!
# Walking a graph level by level

A walk starts from a list of nodes and keeps the set of nodes it has been led
to. A node is followed once, when it is first found, and the nodes to start
from may come in several batches that share the set.
-/

set_option autoImplicit false

namespace Synapse.Worklist
open Python Loops List Finset

section Batches

variable {α : Type}

/-- `batch_iter(l, size)` -/
def batchIter (size : ℕ) (l : List α) : List (List α) :=
  (List.range ((l.length+size-1)/size)).map (fun i => (l.drop (i*size)).take size)

theorem mem_batchIter {size : ℕ} (hs : 0 < size) {l : List α} {x : α} :
    x ∈ l ↔ ∃ b ∈ batchIter size l, x ∈ b := by
  constructor
  · intro hx
    obtain ⟨j,hj,rfl⟩ := mem_iff_getElem.mp hx
    refine ⟨(l.drop (j/size*size)).take size,?_,?_⟩
    · refine List.mem_map.mpr ⟨j/size,?_,rfl⟩
      rw [List.mem_range,Nat.div_lt_iff_lt_mul hs]
      have hc := Nat.lt_div_mul_add hs (a := l.length+size-1)
      omega
    · have hm := Nat.div_add_mod' j size
      have hlt := Nat.mod_lt j hs
      rw [mem_iff_getElem]
      refine ⟨j%size,?_,?_⟩
      · rw [length_take,length_drop]
        omega
      · simp only [getElem_take,getElem_drop]
        congr 1
  · rintro ⟨b,hb,hx⟩
    obtain ⟨i,-,rfl⟩ := List.mem_map.mp hb
    exact mem_of_mem_drop (mem_of_mem_take hx)

end Batches

variable {E α : Type} [DecidableEq α]

def visit (state : Finset α × List α) (node : α) : Finset α × List α :=
  if node ∈ state.1 then state else (insert node state.1,state.2 ++ [node])

/-- The nodes found, when `targets` gives those that a level leads to. -/
def walk (targets : List α → List α) : ℕ → Finset α → List α → Run E (Finset α)
  | _, found, [] => .ok found
  | 0, _, _::_ => .error .outOfFuel
  | fuel+1, found, node::level =>
    let state := (targets (node::level)).foldl visit (found,[])
    walk targets fuel state.1 state.2

def walkBatches (targets : List α → List α) (fuel size : ℕ) (nodes : List α) :
    Run E (Finset α) :=
  (batchIter size nodes).foldlM (walk targets fuel) ∅

theorem visit_all (ns : List α) (st : Finset α × List α) :
    (∀ x, x ∈ (ns.foldl visit st).1 ↔ x ∈ st.1 ∨ x ∈ ns) ∧
    (∀ x, x ∈ (ns.foldl visit st).2 ↔ x ∈ st.2 ∨ x ∈ ns ∧ x ∉ st.1) := by
  induction ns generalizing st with
  | nil => simp
  | cons nd ns ih =>
    obtain ⟨hf,hl⟩ := ih (visit st nd)
    rw [foldl_cons]
    by_cases hin : nd ∈ st.1
    · rw [visit,if_pos hin] at hf hl ⊢
      refine ⟨fun x => ?_,fun x => ?_⟩
      all_goals by_cases heq : x = nd
      all_goals simp [hf,hl,heq,hin]
    · rw [visit,if_neg hin] at hf hl ⊢
      refine ⟨fun x => ?_,fun x => ?_⟩
      all_goals by_cases heq : x = nd
      all_goals simp [hf,hl,heq,hin]

section Follow

variable {tgs : List α → List α} {R : α → α → Prop}
  (htargets : ∀ level y, y ∈ tgs level ↔ ∃ x ∈ level, R x y)

include htargets

theorem walk_ok {fuel : ℕ} {fd res : Finset α} {lv : List α}
    (hd : ∀ x ∈ fd, x ∉ lv → ∀ y, R x y → y ∈ fd)
    (h : walk tgs fuel fd lv = (.ok res : Run E (Finset α))) :
    (∀ y, y ∈ res ↔ y ∈ fd ∨ ∃ x ∈ lv, Relation.TransGen R x y) ∧
      ∀ x ∈ res, ∀ y, R x y → y ∈ res := by
  induction fuel generalizing fd lv with
  | zero =>
    cases lv with
    | nil =>
      obtain rfl : fd = res := by simpa [walk] using h
      exact ⟨by simp,fun x hx => hd x hx (by simp)⟩
    | cons nd lv => simp [walk] at h
  | succ fuel ih =>
    cases lv with
    | nil =>
      obtain rfl : fd = res := by simpa [walk] using h
      exact ⟨by simp,fun x hx => hd x hx (by simp)⟩
    | cons nd lv =>
      obtain ⟨hf,hl⟩ := visit_all (tgs (nd::lv)) (fd,[])
      have hd' : ∀ x ∈ ((tgs (nd::lv)).foldl visit (fd,[])).1,
          x ∉ ((tgs (nd::lv)).foldl visit (fd,[])).2 → ∀ y, R x y →
          y ∈ ((tgs (nd::lv)).foldl visit (fd,[])).1 := by
        intro x hx hn y hxy
        rw [hf,htargets]
        rw [hf] at hx
        rw [hl] at hn
        have ho : x ∈ fd := by
          by_contra hnew
          exact hn (.inr ⟨hx.resolve_left hnew,hnew⟩)
        by_cases hin : x ∈ nd::lv
        · exact .inr ⟨x,hin,hxy⟩
        · exact .inl (hd x ho hin y hxy)
      obtain ⟨hr,hc⟩ := ih hd' h
      refine ⟨?_,hc⟩
      have hst : ∀ x ∈ nd::lv, ∀ y, R x y → y ∈ res := by
        intro x hx y hxy
        rw [hr,hf,htargets]
        exact .inl (.inr ⟨x,hx,hxy⟩)
      intro y
      constructor
      · intro hy
        rcases (hr y).mp hy with hy | ⟨x,hx,hxy⟩
        · rcases (hf y).mp hy with hy | hy
          · exact .inl hy
          · obtain ⟨x,hx,hxy⟩ := (htargets _ y).mp hy
            exact .inr ⟨x,hx,.single hxy⟩
        · obtain hx | ⟨hx,-⟩ := (hl x).mp hx
          · simp at hx
          · obtain ⟨w,hw,hwx⟩ := (htargets _ x).mp hx
            exact .inr ⟨w,hw,hxy.head hwx⟩
      · rintro (hy | ⟨x,hx,hxy⟩)
        · exact (hr y).mpr (.inl ((hf y).mpr (.inl hy)))
        · induction hxy with
          | single hs => exact hst x hx _ hs
          | tail _ hs ihpath => exact hc _ ihpath _ hs

theorem walk_ends {bd : Finset α} (hb : ∀ x y, R x y → y ∈ bd) {fuel : ℕ} (fd : Finset α)
    (lv : List α) (hfu : (bd \ fd).card+1 ≤ fuel) :
    ∃ res, walk tgs fuel fd lv = (.ok res : Run E (Finset α)) := by
  induction fuel generalizing fd lv with
  | zero => omega
  | succ fuel ih =>
    cases lv with
    | nil => exact ⟨fd,rfl⟩
    | cons nd lv =>
      obtain ⟨hf,hl⟩ := visit_all (tgs (nd::lv)) (fd,[])
      rw [walk]
      cases hn : ((tgs (nd::lv)).foldl visit (fd,[])).2 with
      | nil => exact ⟨((tgs (nd::lv)).foldl visit (fd,[])).1,by cases fuel <;> rfl⟩
      | cons next rs =>
        apply ih
        -- the first node of the next level is new
        have hnew : next ∈ tgs (nd::lv) ∧ next ∉ fd := by
          have := (hl next).mp (by simp [hn])
          simpa using this
        obtain ⟨x,-,hx⟩ := (htargets _ next).mp hnew.1
        have hle : (bd \ ((tgs (nd::lv)).foldl visit (fd,[])).1).card <
            (bd \ fd).card := by
          apply card_lt_card
          rw [ssubset_iff_of_subset]
          · refine ⟨next,mem_sdiff.mpr ⟨hb x next hx,hnew.2⟩,?_⟩
            rw [mem_sdiff,hf]
            exact fun h => h.2 (.inr hnew.1)
          · intro y hy
            rw [mem_sdiff,hf] at hy
            exact mem_sdiff.mpr ⟨hy.1,fun h => hy.2 (.inl h)⟩
        omega

theorem walkBatches_ok {fuel size : ℕ} (hs : 0 < size) {ns : List α} {res : Finset α}
    (h : walkBatches tgs fuel size ns = (.ok res : Run E (Finset α))) (y : α) :
    y ∈ res ↔ ∃ x ∈ ns, Relation.TransGen R x y := by
  have hf : ∀ (bs : List (List α)) (fd : Finset α),(∀ x ∈ fd, ∀ y, R x y → y ∈ fd) →
      bs.foldlM (walk tgs fuel) fd = (.ok res : Run E (Finset α)) →
      (y ∈ res ↔ y ∈ fd ∨ ∃ b ∈ bs, ∃ x ∈ b, Relation.TransGen R x y) := by
    intro bs
    induction bs with
    | nil =>
      intro fd _ hok
      obtain rfl : fd = res := Except.ok.inj hok
      simp
    | cons b bs ih =>
      intro fd hc hok
      obtain ⟨fd',hw,hr⟩ := bind_eq_ok.mp hok
      obtain ⟨hfo,hc'⟩ := walk_ok htargets (fun x hx _ => hc x hx) hw
      rw [ih fd' hc' hr,hfo,exists_mem_cons_iff,or_assoc]
  rw [hf _ ∅ (by simp) h]
  simp only [notMem_empty,false_or]
  constructor
  · rintro ⟨b,hb,x,hx,hxy⟩
    exact ⟨x,(mem_batchIter hs).mpr ⟨b,hb,hx⟩,hxy⟩
  · rintro ⟨x,hx,hxy⟩
    obtain ⟨b,hb,hx⟩ := (mem_batchIter hs).mp hx
    exact ⟨b,hb,x,hx,hxy⟩

theorem walkBatches_ends {bd : Finset α} (hb : ∀ x y, R x y → y ∈ bd) {fuel : ℕ} (size : ℕ)
    (ns : List α) (hf : bd.card+1 ≤ fuel) :
    ∃ res, walkBatches tgs fuel size ns = (.ok res : Run E (Finset α)) := by
  have hfo : ∀ (bs : List (List α)) (fd : Finset α), ∃ res,
      bs.foldlM (walk tgs fuel) fd = (.ok res : Run E (Finset α)) := by
    intro bs
    induction bs with
    | nil => exact fun fd => ⟨fd,rfl⟩
    | cons b bs ih =>
      intro fd
      have hl : (bd \ fd).card+1 ≤ fuel := (Nat.succ_le_succ (card_le_card sdiff_subset)).trans hf
      obtain ⟨fd',hw⟩ := walk_ends (E := E) htargets hb fd b hl
      obtain ⟨res,hr⟩ := ih fd'
      refine ⟨res,?_⟩
      rw [foldlM_cons,hw]
      exact hr
  exact hfo _ ∅

end Follow

end Synapse.Worklist
