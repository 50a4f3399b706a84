import Synapse.Iteration
import Synapse.Loops

/-!
# Topological sorts

Kahn's algorithm from the nodes without outgoing edges, with a queue that
gives out the least node by a key. The queue is a list of nodes from which the
least is taken. The output is the only list that always continues with the
least node all of whose edges lead back into the list. What is left of a
node's edges is kept as a set or only counted.
-/

set_option autoImplicit false

namespace Synapse.TopologicalSort
open Loops List Dict Option AList Finset

variable {α κ ρ : Type} [DecidableEq α] [LinearOrder κ]

abbrev Graph (α : Type) := Dict α (Finset α)

def nodesOf (graph : Graph α) : Finset α := graph.keys.toFinset

def edgesOf (graph : Graph α) (node : α) : Finset α := (graph.lookup node).getD ∅

def addEdge (node : α) (reverse : Graph α) (edge : α) : Graph α :=
  reverse.insert edge (insert node ((reverse.lookup edge).getD ∅))

def addNode (edges : α → Iteration α) (reverse : Graph α) (item : α × Finset α) : Graph α :=
  ((edges item.1).list item.2).foldl (addEdge item.1)
    (reverse.insert item.1 ((reverse.lookup item.1).getD ∅))

structure Remaining (α ρ : Type) [DecidableEq α] where
  of : Finset α → ρ
  remove : α → ρ → ρ
  isEmpty : ρ → Bool
  remove_of : ∀ s node, node ∈ s → remove node (of s) = of (s.erase node)
  isEmpty_of : ∀ s, isEmpty (of s) = true ↔ s = ∅

def outSets : Remaining α (Finset α) where
  of := id
  remove node out := out.erase node
  isEmpty out := out = ∅
  remove_of _ _ _ := rfl
  isEmpty_of _ := decide_eq_true_iff

def degrees : Remaining α ℕ where
  of := Finset.card
  remove _ degree := degree-1
  isEmpty degree := degree = 0
  remove_of _ _ h := (card_erase_of_mem h).symm
  isEmpty_of _ := decide_eq_true_iff.trans card_eq_zero

def relax (remaining : Remaining α ρ) (node : α) (state : Dict α ρ × List α) (parent : α) :
    Dict α ρ × List α :=
  let out := remaining.remove node ((state.1.lookup parent).getD (remaining.of ∅))
  (state.1.insert parent out,if remaining.isEmpty out then parent::state.2 else state.2)

/-- The main loop. `none` stands for more iterations than allowed. -/
def sortLoop (remaining : Remaining α ρ) (key : α → κ) (reverse : Graph α)
    (parents : α → Iteration α) : ℕ → Dict α ρ → List α → Option (List α)
  | fuel, out, queue =>
    match queue.argmin key with
    | none => some []
    | some node =>
      match fuel with
      | 0 => none
      | fuel+1 =>
        let state := ((parents node).list (edgesOf reverse node)).foldl (relax remaining node)
          (out,queue.erase node)
        (sortLoop remaining key reverse parents fuel state.1 state.2).map (fun rest => node::rest)

/-- The orders in which the sort iterates over the graph, the edges of a node
and the parents of a node. -/
structure Orders (α : Type) where
  items : Iteration α
  edges : α → Iteration α
  parents : α → Iteration α

def itemsOf (orders : Orders α) (graph : Graph α) : List (α × Finset α) :=
  (orders.items.list (nodesOf graph)).map (fun node => (node,edgesOf graph node))

def lexicographicalTopologicalSort (key : α → κ) (orders : Orders α) (fuel : ℕ)
    (graph : Graph α) : Option (List α) :=
  let items := itemsOf orders graph
  let zeroOutdegree := (items.filter (fun item => item.2 = ∅)).map Prod.fst
  let reverse := items.foldl (addNode orders.edges) ∅
  sortLoop outSets key reverse orders.parents fuel graph zeroOutdegree

/-- The nodes in topological order, where the graph may list other nodes too. -/
def sortedTopologically [LinearOrder α] (orders : Orders α) (fuel : ℕ) (nodes : Finset α)
    (graph : Dict α (List α)) : Option (List α) :=
  let items := (orders.items.list (graph.keys.toFinset ∩ nodes)).map
    (fun node => (node,((graph.lookup node).getD []).toFinset))
  let reverse := items.foldl (addNode orders.edges) ∅
  let degreeMap : Dict α ℕ := (orders.items.list nodes).foldl (fun degreeMap node =>
    degreeMap.insert node (((graph.lookup node).getD []).toFinset ∩ nodes).card) ∅
  let zeroDegree := (orders.items.list nodes).filter (fun node => degreeMap.lookup node = some 0)
  sortLoop degrees id reverse orders.parents fuel degreeMap zeroDegree

section Specification

variable (key : α → κ) (nodes : Finset α) (edges : α → Finset α)

def Available (done : Finset α) (node : α) : Prop :=
  node ∈ nodes ∧ node ∉ done ∧ edges node ⊆ done

/-- Each element is the least one available when its turn comes, and nothing
is available at the end. -/
inductive Sorts : Finset α → List α → Prop
  | nil {done : Finset α} (h : ∀ node, ¬ Available nodes edges done node) : Sorts done []
  | cons {done : Finset α} {node : α} {rest : List α} (h : Available nodes edges done node)
      (least : ∀ other, Available nodes edges done other → key node ≤ key other)
      (tail : Sorts (insert node done) rest) : Sorts done (node::rest)

variable {key nodes edges}

variable {dn : Finset α} {output : List α}

theorem Sorts.unique (hk : ∀ x ∈ nodes, ∀ y ∈ nodes, key x = key y → x = y) {first second : List α}
    (h₁ : Sorts key nodes edges dn first) (h₂ : Sorts key nodes edges dn second) :
    first = second := by
  induction h₁ generalizing second with
  | nil h =>
    cases h₂ with
    | nil _ => rfl
    | cons h' _ _ => exact absurd h' (h _)
  | cons h le tail ih =>
    cases h₂ with
    | nil h' => exact absurd h (h' _)
    | cons h' le' tail' =>
      have heq := hk _ h.1 _ h'.1 (le_antisymm (le _ h') (le' _ h))
      subst heq
      rw [ih tail']

theorem Sorts.nodup (h : Sorts key nodes edges dn output) :
    output.Nodup ∧ ∀ nd ∈ output, nd ∈ nodes ∧ nd ∉ dn := by
  induction h with
  | nil _ => simp
  | cons h _ _ ih =>
    refine ⟨nodup_cons.mpr ⟨?_,ih.1⟩,?_⟩
    · intro hm
      exact (ih.2 _ hm).2 (mem_insert_self _ _)
    · intro nd hm
      rcases mem_cons.mp hm with rfl | hm
      · exact ⟨h.1,h.2.1⟩
      · obtain ⟨h1,h2⟩ := ih.2 nd hm
        exact ⟨h1,fun hd => h2 (mem_insert_of_mem hd)⟩

theorem mem_done (hin : ∀ nd ∈ nodes, edges nd ⊆ nodes) (wf : WellFounded (fun a b => a ∈ edges b))
    (h : ∀ nd, ¬ Available nodes edges dn nd) {nd : α} (hn : nd ∈ nodes) : nd ∈ dn := by
  induction nd using wf.induction with
  | _ nd ih =>
    by_contra hnot
    exact h nd ⟨hn,hnot,fun edge he => ih edge he (hin nd hn he)⟩

theorem Sorts.complete (hin : ∀ nd ∈ nodes, edges nd ⊆ nodes)
    (wf : WellFounded (fun a b => a ∈ edges b)) (h : Sorts key nodes edges dn output) {nd : α}
    (hn : nd ∈ nodes) : nd ∈ dn ∨ nd ∈ output := by
  induction h with
  | nil h => exact .inl (mem_done hin wf h hn)
  | cons h _ _ ih =>
    rcases ih with hd | ho
    · rcases mem_insert.mp hd with rfl | hd
      · exact .inr mem_cons_self
      · exact .inl hd
    · exact .inr (mem_cons_of_mem _ ho)

theorem Sorts.eventually_foldlM {E σ : Type} {f : ℕ → σ → α → Run E σ} {P : Finset α → σ → Prop}
    (hst : ∀ dn s nd, Available nodes edges dn nd → (∀ p ∈ dn, edges p ⊆ dn) →
      P dn s → ∃ s', Eventually (fun fuel => f fuel s nd) s' ∧ P (insert nd dn) s')
    (h : Sorts key nodes edges dn output) (hc : ∀ p ∈ dn, edges p ⊆ dn) {s : σ} (hs : P dn s) :
    ∃ s', Eventually (fun fuel => output.foldlM (f fuel) s) s' ∧ P (dn ∪ output.toFinset) s' := by
  induction h generalizing s with
  | nil _ => exact ⟨s,eventually_ok s,by simpa using hs⟩
  | @cons dn nd rest h _ _ ih =>
    obtain ⟨s₁,h₁,hs₁⟩ := hst dn s nd h hc hs
    have hc' : ∀ p ∈ insert nd dn, edges p ⊆ insert nd dn := by
      intro p hp
      rcases mem_insert.mp hp with rfl | hp
      · exact h.2.2.trans (subset_insert _ _)
      · exact (hc p hp).trans (subset_insert _ _)
    obtain ⟨s₂,h₂,hs₂⟩ := ih hc' hs₁
    refine ⟨s₂,?_,?_⟩
    · exact h₁.bind h₂
    · simpa [insert_union_comm] using hs₂

end Specification

section Loop

variable {key : α → κ} {nodes : Finset α} {edges : α → Finset α} {remaining : Remaining α ρ}

theorem relax_lookup (nd : α) (pts : List α) (hn : pts.Nodup) (out : Dict α ρ)
    (qu : List α) (p : α) :
    (pts.foldl (relax remaining nd) (out,qu)).1.lookup p =
      if p ∈ pts then some (remaining.remove nd ((out.lookup p).getD (remaining.of ∅)))
      else out.lookup p := by
  induction pts generalizing out qu with
  | nil => simp
  | cons parent pts ih =>
    rw [nodup_cons] at hn
    rw [foldl_cons,relax,ih hn.2]
    by_cases hp : p = parent
    · subst hp
      simp [hn.1]
    · simp [hp]

theorem relax_queue (nd : α) (pts : List α) (hn : pts.Nodup) (out : Dict α ρ)
    (qu : List α) (p : α) :
    p ∈ (pts.foldl (relax remaining nd) (out,qu)).2 ↔ p ∈ qu ∨ p ∈ pts ∧
      remaining.isEmpty (remaining.remove nd ((out.lookup p).getD (remaining.of ∅))) = true := by
  induction pts generalizing out qu with
  | nil => simp
  | cons parent pts ih =>
    rw [nodup_cons] at hn
    rw [foldl_cons,relax,ih hn.2]
    by_cases hp : p = parent
    · subst hp
      split <;> simp [*]
    · split <;> simp [hp]

theorem relax_nodup (nd : α) (pts : List α) (hn : pts.Nodup) (out : Dict α ρ) (qu : List α)
    (hq : qu.Nodup) (hd : ∀ p ∈ pts, p ∉ qu) :
    (pts.foldl (relax remaining nd) (out,qu)).2.Nodup := by
  induction pts generalizing out qu with
  | nil => exact hq
  | cons parent pts ih =>
    rw [nodup_cons] at hn
    apply ih hn.2
    · split
      · exact nodup_cons.mpr ⟨hd parent (by simp),hq⟩
      · exact hq
    · intro p hp
      have hq' := hd p (by simp [hp])
      split
      · intro hm
        rcases mem_cons.mp hm with rfl | hm
        · exact hn.1 hp
        · exact hq' hm
      · exact hq'

/-- The state of the loop when the nodes in `done` have been put out. -/
structure LoopState (remaining : Remaining α ρ) (nodes : Finset α) (edges : α → Finset α)
    (done : Finset α) (out : Dict α ρ) (queue : List α) : Prop where
  out : ∀ p ∈ nodes, out.lookup p = some (remaining.of (edges p \ done))
  nodup : queue.Nodup
  queue : ∀ x, x ∈ queue ↔ Available nodes edges done x
  closed : ∀ p ∈ done, edges p ⊆ done

variable {done : Finset α} {out : Dict α ρ} {q : List α} {reverse : Graph α}
  {ps : α → Iteration α}

theorem LoopState.step (h : LoopState remaining nodes edges done out q) {nd : α} (hm : nd ∈ q)
    {ps : List α} (hn : ps.Nodup) (hp : ∀ p, p ∈ ps ↔ p ∈ nodes ∧ nd ∈ edges p) :
    LoopState remaining nodes edges (insert nd done)
      (ps.foldl (relax remaining nd) (out,q.erase nd)).1
      (ps.foldl (relax remaining nd) (out,q.erase nd)).2 := by
  obtain ⟨hno,hnew,hed⟩ := (h.queue nd).mp hm
  have hw : ∀ p ∈ ps, p ∉ q := by
    intro p hmem hq
    obtain ⟨-,-,hs⟩ := (h.queue p).mp hq
    exact hnew (hs ((hp p).mp hmem).2)
  have hr : ∀ p ∈ ps,remaining.remove nd ((out.lookup p).getD (remaining.of ∅)) =
        remaining.of (edges p \ insert nd done) := by
    intro p hmem
    obtain ⟨hpn,heg⟩ := (hp p).mp hmem
    rw [h.out p hpn,getD_some,remaining.remove_of _ _ (mem_sdiff.mpr ⟨heg,hnew⟩),sdiff_insert]
  refine ⟨?_,?_,?_,?_⟩
  · intro p hpn
    rw [relax_lookup _ _ hn]
    split
    · next hmem => rw [hr p hmem]
    · next hnot =>
      have hng : nd ∉ edges p := fun he => hnot ((hp p).mpr ⟨hpn,he⟩)
      rw [h.out p hpn,sdiff_insert]
      simp [hng]
  · apply relax_nodup _ _ hn
    · exact h.nodup.erase nd
    · intro p hmem hq
      exact hw p hmem (mem_of_mem_erase hq)
  · intro x
    rw [relax_queue _ _ hn,h.nodup.mem_erase_iff,h.queue]
    constructor
    · rintro (⟨hne,hx,hnd,hs⟩ | ⟨hmem,hem⟩)
      · exact ⟨hx,by simp [hne,hnd],hs.trans (subset_insert _ _)⟩
      · obtain ⟨hx,hex⟩ := (hp x).mp hmem
        rw [hr x hmem,remaining.isEmpty_of,sdiff_eq_empty_iff_subset] at hem
        refine ⟨hx,?_,hem⟩
        intro hin
        rcases mem_insert.mp hin with rfl | hd
        · exact hnew (hed hex)
        · exact hnew (h.closed x hd hex)
    · rintro ⟨hx,hnd,hs⟩
      rw [Finset.mem_insert,not_or] at hnd
      by_cases hex : nd ∈ edges x
      · have hmem := (hp x).mpr ⟨hx,hex⟩
        refine .inr ⟨hmem,?_⟩
        rw [hr x hmem,remaining.isEmpty_of]
        exact sdiff_eq_empty_iff_subset.mpr hs
      · refine .inl ⟨hnd.1,hx,hnd.2,?_⟩
        exact (subset_insert_iff_of_notMem hex).mp hs
  · intro p hd
    rcases mem_insert.mp hd with rfl | hd
    · exact hed.trans (subset_insert _ _)
    · exact (h.closed p hd).trans (subset_insert _ _)

theorem LoopState.pop (hr : ∀ x ∈ nodes, ∀ p, p ∈ edgesOf reverse x ↔ p ∈ nodes ∧ x ∈ edges p)
    (h : LoopState remaining nodes edges done out q) {nd : α} (hm : nd ∈ q) (ps : α → Iteration α) :
    LoopState remaining nodes edges (insert nd done)
      (((ps nd).list (edgesOf reverse nd)).foldl (relax remaining nd) (out,q.erase nd)).1
      (((ps nd).list (edgesOf reverse nd)).foldl (relax remaining nd) (out,q.erase nd)).2 :=
  h.step hm ((ps nd).nodup _) (fun p => ((ps nd).mem _ p).trans (hr nd ((h.queue nd).mp hm).1 p))

theorem LoopState.queue_nil (h : LoopState remaining nodes edges done out q)
    (hc : (nodes \ done).card = 0) : q = [] := by
  rw [eq_nil_iff_forall_not_mem]
  intro x hx
  obtain ⟨hxn,hxd,-⟩ := (h.queue x).mp hx
  exact Finset.notMem_empty x (card_eq_zero.mp hc ▸ mem_sdiff.mpr ⟨hxn,hxd⟩)

theorem LoopState.empty (h : LoopState remaining nodes edges done out []) :
    Sorts key nodes edges done [] :=
  .nil (fun x hx => not_mem_nil ((h.queue x).mpr hx))

section

variable (hr : ∀ x ∈ nodes, ∀ p, p ∈ edgesOf reverse x ↔ p ∈ nodes ∧ x ∈ edges p)
include hr

theorem sortLoop_sorts {fuel : ℕ} {output : List α} (h : LoopState remaining nodes edges done out q)
    (hrun : sortLoop remaining key reverse ps fuel out q = some output) :
    Sorts key nodes edges done output := by
  induction fuel generalizing done out q output with
  | zero =>
    unfold sortLoop at hrun
    cases hmin : q.argmin key with
    | none =>
      have he := argmin_eq_none.mp hmin
      subst he
      simp at hrun
      exact hrun ▸ h.empty
    | some nd => simp [hmin] at hrun
  | succ fuel ih =>
    unfold sortLoop at hrun
    cases hmin : q.argmin key with
    | none =>
      have he := argmin_eq_none.mp hmin
      subst he
      simp at hrun
      exact hrun ▸ h.empty
    | some nd =>
      have hm := argmin_mem hmin
      simp only [hmin,map_eq_some_iff] at hrun
      obtain ⟨rs,hre,rfl⟩ := hrun
      refine .cons ((h.queue nd).mp hm) ?_ (ih (h.pop hr hm ps) hre)
      intro o ho
      exact le_of_mem_argmin ((h.queue o).mpr ho) hmin

theorem sortLoop_isSome {fuel : ℕ} (h : LoopState remaining nodes edges done out q)
    (hf : (nodes \ done).card ≤ fuel) : (sortLoop remaining key reverse ps fuel out q).isSome := by
  induction fuel generalizing done out q with
  | zero =>
    rw [h.queue_nil (Nat.le_zero.mp hf)]
    rfl
  | succ fuel ih =>
    unfold sortLoop
    cases hmin : q.argmin key with
    | none => rfl
    | some nd =>
      have hm := argmin_mem hmin
      obtain ⟨hn,hnew,-⟩ := (h.queue nd).mp hm
      have hl : (nodes \ insert nd done).card ≤ fuel := by
        rw [sdiff_insert]
        have := card_erase_lt_of_mem (mem_sdiff.mpr ⟨hn,hnew⟩)
        omega
      simpa using ih (h.pop hr hm ps) hl

end

end Loop

theorem addEdge_edgesOf (nd : α) (edges : List α) (reverse : Graph α) (x p : α) :
    p ∈ edgesOf (edges.foldl (addEdge nd) reverse) x ↔
      p ∈ edgesOf reverse x ∨ p = nd ∧ x ∈ edges := by
  induction edges generalizing reverse with
  | nil => simp
  | cons edge edges ih =>
    rw [foldl_cons,ih,addEdge,edgesOf,edgesOf,lookup_set]
    by_cases hx : x = edge
    · subst hx
      simp only [if_true,getD_some,Finset.mem_insert]
      tauto
    · simp [hx]

theorem addNode_edgesOf (edges : α → Iteration α) (its : List (α × Finset α)) (reverse : Graph α)
    (x p : α) :
    p ∈ edgesOf (its.foldl (addNode edges) reverse) x ↔
      p ∈ edgesOf reverse x ∨ ∃ tgs, (p,tgs) ∈ its ∧ x ∈ tgs := by
  induction its generalizing reverse with
  | nil => simp
  | cons it its ih =>
    have hk : p ∈ edgesOf (reverse.insert it.1 ((reverse.lookup it.1).getD ∅)) x ↔
        p ∈ edgesOf reverse x := by
      rw [edgesOf,lookup_set]
      split
      · next h => rw [h,getD_some,edgesOf]
      · rfl
    rw [foldl_cons,ih,addNode,addEdge_edgesOf,hk,(edges it.1).mem]
    constructor
    · rintro ((h | ⟨rfl,h⟩) | ⟨tgs,h,hx⟩)
      · exact .inl h
      · exact .inr ⟨it.2,by simp,h⟩
      · exact .inr ⟨tgs,by simp [h],hx⟩
    · rintro (h | ⟨tgs,h,hx⟩)
      · exact .inl (.inl h)
      · rcases mem_cons.mp h with rfl | h
        · exact .inl (.inr ⟨rfl,hx⟩)
        · exact .inr ⟨tgs,h,hx⟩

variable {graph : Graph α}

theorem mem_nodesOf {nd : α} : nd ∈ nodesOf graph ↔ (graph.lookup nd).isSome := by
  rw [nodesOf,List.mem_toFinset,lookup_isSome,AList.mem_keys]

theorem reverse_edgesOf (ord : Orders α) (graph : Graph α) (x p : α) :
    p ∈ edgesOf ((itemsOf ord graph).foldl (addNode ord.edges) ∅) x ↔
      p ∈ nodesOf graph ∧ x ∈ edgesOf graph p := by
  rw [addNode_edgesOf]
  simp [itemsOf,edgesOf,ord.items.mem]

theorem loopState_start (ord : Orders α) (graph : Graph α) :
    LoopState outSets (nodesOf graph) (edgesOf graph) ∅ graph
      (((itemsOf ord graph).filter (fun it => it.2 = ∅)).map Prod.fst) := by
  refine ⟨?_,?_,?_,by simp⟩
  · intro p hp
    obtain ⟨tgs,ht⟩ := isSome_iff_exists.mp (mem_nodesOf.mp hp)
    simp [edgesOf,ht,outSets]
  · rw [itemsOf,List.filter_map]
    simpa [Function.comp_def] using (ord.items.nodup (nodesOf graph)).filter _
  · simp [itemsOf,ord.items.mem,Available]

theorem lexicographicalTopologicalSort_sorts {key : α → κ} {ord : Orders α} {fuel : ℕ}
    {output : List α} (h : lexicographicalTopologicalSort key ord fuel graph = some output) :
    Sorts key (nodesOf graph) (edgesOf graph) ∅ output :=
  sortLoop_sorts (fun x _ => reverse_edgesOf ord graph x) (loopState_start ord graph) h

theorem lexicographicalTopologicalSort_isSome (key : α → κ) (ord : Orders α) {fuel : ℕ}
    (hf : (nodesOf graph).card ≤ fuel) :
    (lexicographicalTopologicalSort key ord fuel graph).isSome :=
  sortLoop_isSome (fun x _ => reverse_edgesOf ord graph x) (loopState_start ord graph)
    (by simpa using hf)

section Nodes

variable {orders : Orders α} {n : ℕ} {nodes : Finset α} {graph : Dict α (List α)}

def edgesWithin (nodes : Finset α) (graph : Dict α (List α)) (node : α) : Finset α :=
  ((graph.lookup node).getD []).toFinset ∩ nodes

theorem reverse_edgesWithin (ord : Iteration α) (edges : α → Iteration α) {x : α} (hx : x ∈ nodes)
    (p : α) :
    p ∈ edgesOf (((ord.list (graph.keys.toFinset ∩ nodes)).map
        (fun nd => (nd,((graph.lookup nd).getD []).toFinset))).foldl (addNode edges) ∅) x ↔
      p ∈ nodes ∧ x ∈ edgesWithin nodes graph p := by
  have hk : x ∈ (graph.lookup p).getD [] → p ∈ graph.keys := by
    intro h
    rw [← AList.mem_keys,← lookup_isSome]
    cases hl : graph.lookup p with
    | none => simp [hl] at h
    | some tgs => rfl
  rw [addNode_edgesOf]
  simp only [edgesOf,lookup_empty,getD_none,Finset.notMem_empty,false_or,
    List.mem_map,Prod.mk.injEq,ord.mem,mem_inter,List.mem_toFinset,edgesWithin]
  constructor
  · rintro ⟨tgs,⟨nd,⟨-,hn⟩,rfl,rfl⟩,hm⟩
    exact ⟨hn,by simpa using hm,hx⟩
  · rintro ⟨hp,hm,-⟩
    exact ⟨_,⟨p,⟨hk hm,hp⟩,rfl,rfl⟩,by simpa using hm⟩

theorem loopState_nodes (ord : Iteration α) :
    LoopState degrees nodes (edgesWithin nodes graph) ∅
      ((ord.list nodes).foldl (fun degreeMap nd =>
        degreeMap.insert nd (edgesWithin nodes graph nd).card) ∅)
      ((ord.list nodes).filter (fun nd => ((ord.list nodes).foldl (fun degreeMap nd =>
        degreeMap.insert nd (edgesWithin nodes graph nd).card) ∅ : Dict α ℕ).lookup nd =
          some 0)) := by
  refine ⟨?_,(ord.nodup nodes).filter _,?_,by simp⟩
  · intro p hp
    rw [lookup_foldl_set,if_pos ((ord.mem nodes p).mpr hp)]
    simp [degrees]
  · intro x
    simp only [mem_filter,ord.mem,decide_eq_true_eq,lookup_foldl_set]
    constructor
    · rintro ⟨hx,hz⟩
      rw [if_pos hx] at hz
      refine ⟨hx,by simp,?_⟩
      rw [card_eq_zero.mp (some.inj hz)]
    · rintro ⟨hx,-,hs⟩
      rw [if_pos hx]
      exact ⟨hx,by simp [subset_empty.mp hs]⟩

variable [LinearOrder α]

theorem sortedTopologically_sorts {output : List α}
    (h : sortedTopologically orders n nodes graph = some output) :
    Sorts id nodes (edgesWithin nodes graph) ∅ output :=
  sortLoop_sorts (fun _ hx => reverse_edgesWithin orders.items orders.edges hx)
    (loopState_nodes orders.items) h

theorem sortedTopologically_isSome (orders : Orders α) (graph : Dict α (List α))
    (hf : nodes.card ≤ n) : (sortedTopologically orders n nodes graph).isSome :=
  sortLoop_isSome (fun _ hx => reverse_edgesWithin orders.items orders.edges hx)
    (loopState_nodes orders.items) (by simpa using hf)

end Nodes

end Synapse.TopologicalSort
