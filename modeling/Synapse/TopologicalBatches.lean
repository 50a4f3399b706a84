import Synapse.TopologicalSort

/-!
# Topological batches

Draining the queue of the nodes without outgoing edges a whole batch at a time
gives the layers of the graph: a node's batch is the length of the longest path
that starts from it.
-/

set_option autoImplicit false

namespace Synapse.TopologicalSort
open List Dict Option Finset

variable {α : Type} {edges : α → Finset α}

inductive HasPath (edges : α → Finset α) : ℕ → α → Prop
  | zero (node : α) : HasPath edges 0 node
  | succ {length : ℕ} {node edge : α} (h : edge ∈ edges node) (tail : HasPath edges length edge) :
      HasPath edges (length+1) node

def Longest (edges : α → Finset α) (length : ℕ) (node : α) : Prop :=
  HasPath edges length node ∧ ¬ HasPath edges (length+1) node

theorem HasPath.shorter {k : ℕ} {nd : α} (h : HasPath edges (k+1) nd) : HasPath edges k nd := by
  induction k generalizing nd with
  | zero => exact .zero nd
  | succ k ih =>
    cases h with
    | succ he ht => exact .succ he (ih ht)

variable [DecidableEq α]

def relaxParents (reverse : Graph α) (parents : α → Iteration α) (state : Dict α ℕ × List α)
    (node : α) : Dict α ℕ × List α :=
  ((parents node).list (edgesOf reverse node)).foldl (relax degrees node) state

/-- The loop over the batches. `none` stands for more iterations than allowed. -/
def batchLoop (reverse : Graph α) (parents : α → Iteration α) :
    ℕ → Dict α ℕ → List α → Option (List (List α))
  | _, _, [] => some []
  | 0, _, _::_ => none
  | fuel+1, degreeMap, node::rest =>
    let state := (node::rest).foldl (relaxParents reverse parents) (degreeMap,[])
    -- the source appends to the next batch what `relax` puts in front
    (batchLoop reverse parents fuel state.1 state.2.reverse).map
      (fun batches => (node::rest)::batches)

def sortedTopologicallyBatched (orders : Orders α) (fuel : ℕ) (nodes : Finset α)
    (graph : Dict α (List α)) : Option (List (List α)) :=
  let items := (orders.items.list (graph.keys.toFinset ∩ nodes)).map
    (fun node => (node,((graph.lookup node).getD []).toFinset))
  let reverse := items.foldl (addNode orders.edges) ∅
  let degreeMap : Dict α ℕ := (orders.items.list nodes).foldl (fun degreeMap node =>
    degreeMap.insert node (((graph.lookup node).getD []).toFinset ∩ nodes).card) ∅
  let zeroDegree := (orders.items.list nodes).filter (fun node => degreeMap.lookup node = some 0)
  batchLoop reverse orders.parents fuel degreeMap zeroDegree

section Layers

variable {nodes : Finset α}

theorem relax_append (nd : α) (pts : List α) (out : Dict α ℕ) (qu rs : List α) :
    pts.foldl (relax degrees nd) (out,qu ++ rs) =
      ((pts.foldl (relax degrees nd) (out,qu)).1,
        (pts.foldl (relax degrees nd) (out,qu)).2 ++ rs) := by
  induction pts generalizing out qu with
  | nil => rfl
  | cons p pts ih =>
    rw [foldl_cons,foldl_cons,relax,relax]
    split
    · exact ih _ (p::qu)
    · exact ih _ qu

variable {done : Finset α} {out : Dict α ℕ} {q : List α} {reverse : Graph α} {ps : α → Iteration α}
  (hr : ∀ x ∈ nodes, ∀ p, p ∈ edgesOf reverse x ↔ p ∈ nodes ∧ x ∈ edges p)
  (hin : ∀ x ∈ nodes, edges x ⊆ nodes)

include hr in
theorem LoopState.drain (ps : α → Iteration α) (new : List α)
    (h : LoopState degrees nodes edges done out (new ++ q)) :
    LoopState degrees nodes edges (done ∪ q.toFinset)
      (q.foldl (relaxParents reverse ps) (out,new)).1
      (q.foldl (relaxParents reverse ps) (out,new)).2 := by
  induction q generalizing done out new with
  | nil => simpa using h
  | cons nd q ih =>
    have hnew : nd ∉ new := fun hm => (nodup_append.mp h.nodup).2.2 nd hm nd mem_cons_self rfl
    have hp := h.pop hr (by simp : nd ∈ new ++ nd::q) ps
    rw [erase_append_right _ hnew,erase_cons_head,relax_append] at hp
    simpa [insert_union_comm,relaxParents] using ih _ hp

include hin in
theorem LoopState.longest (h : LoopState degrees nodes edges done out q) {k : ℕ}
    (hk : ∀ x ∈ nodes, x ∈ done ↔ ¬ HasPath edges k x) (x : α) :
    x ∈ q ↔ x ∈ nodes ∧ Longest edges k x := by
  rw [h.queue]
  constructor
  · rintro ⟨hx,hd,hs⟩
    refine ⟨hx,by simpa [hk x hx] using hd,?_⟩
    rintro (_ | ⟨he,ht⟩)
    exact (hk _ (hin x hx he)).mp (hs he) ht
  · rintro ⟨hx,hp,hno⟩
    refine ⟨hx,fun hd => (hk x hx).mp hd hp,?_⟩
    intro edge he
    exact (hk edge (hin x hx he)).mpr (fun ht => hno (.succ he ht))

include hin in
theorem LoopState.all_done (wf : WellFounded (fun a b => a ∈ edges b))
    (h : LoopState degrees nodes edges done out []) {x : α} (hx : x ∈ nodes) : x ∈ done :=
  mem_done hin wf (fun y hy => not_mem_nil ((h.queue y).mpr hy)) hx

include hr hin in
-- The nodes put out before the k-th batch are those without a path of length k.
theorem batchLoop_layers (wf : WellFounded (fun a b => a ∈ edges b)) {k fuel : ℕ}
    (h : LoopState degrees nodes edges done out q)
    (hk : ∀ x ∈ nodes, x ∈ done ↔ ¬ HasPath edges k x) (hf : (nodes \ done).card ≤ fuel) :
    ∃ bs, batchLoop reverse ps fuel out q = some bs ∧ bs.flatten.Nodup ∧
      (∀ x, x ∈ bs.flatten ↔ x ∈ nodes ∧ x ∉ done) ∧
      ∀ i b, bs[i]? = some b → ∀ x, x ∈ b ↔ x ∈ nodes ∧ Longest edges (k+i) x := by
  induction fuel generalizing done out q k with
  | zero =>
    have hq := h.queue_nil (Nat.le_zero.mp hf)
    subst hq
    exact ⟨[],rfl,nodup_nil,by simpa using fun x => h.all_done hin wf,by simp⟩
  | succ fuel ih =>
    cases q with
    | nil => exact ⟨[],rfl,nodup_nil,by simpa using fun x => h.all_done hin wf,by simp⟩
    | cons nd rs =>
      have hd := LoopState.drain hr ps [] h
      obtain ⟨hn,hnew,-⟩ := (h.queue nd).mp mem_cons_self
      have hl := h.longest hin hk
      have hk' : ∀ x ∈ nodes, x ∈ done ∪ (nd::rs).toFinset ↔ ¬ HasPath edges (k+1) x := by
        intro x hx
        have hs : HasPath edges (k+1) x → HasPath edges k x := HasPath.shorter
        rw [mem_union,List.mem_toFinset,hl,hk x hx,Longest]
        tauto
      have hc : (nodes \ (done ∪ (nd::rs).toFinset)).card < (nodes \ done).card := by
        apply card_lt_card
        rw [ssubset_iff_of_subset (sdiff_subset_sdiff (subset_refl _) subset_union_left)]
        exact ⟨nd,mem_sdiff.mpr ⟨hn,hnew⟩,by simp⟩
      obtain ⟨bs,hrun,hbs,hm,hb⟩ := ih ⟨hd.out,nodup_reverse.mpr hd.nodup,
        fun x => List.mem_reverse.trans (hd.queue x),hd.closed⟩ hk' (by omega)
      refine ⟨(nd::rs)::bs,?_,?_,?_,?_⟩
      · rw [batchLoop,hrun]
        rfl
      · rw [flatten_cons]
        refine h.nodup.append hbs ?_
        intro x hx hx'
        exact ((hm x).mp hx').2 (mem_union_right _ (List.mem_toFinset.mpr hx))
      · intro x
        have ha : x ∈ nd::rs → x ∈ nodes ∧ x ∉ done := fun hx =>
          ⟨((h.queue x).mp hx).1,((h.queue x).mp hx).2.1⟩
        rw [flatten_cons,mem_append,hm,mem_union,List.mem_toFinset]
        tauto
      · intro i b hi x
        cases i with
        | zero =>
          cases hi
          exact hl x
        | succ i => simpa only [Nat.add_assoc,Nat.add_comm 1] using hb i b hi x

end Layers

/-- Topological batching is the layering by longest paths. -/
theorem topological_layers [LinearOrder α] (nodes : Finset α) (graph : Dict α (List α))
    (hacyclic : WellFounded (fun a b => a ∈ edgesWithin nodes graph b)) (orders : Orders α)
    (fuel : ℕ) (hfuel : nodes.card ≤ fuel) :
    ∃ sorted batches, sortedTopologically orders fuel nodes graph = some sorted ∧
      sorted.Nodup ∧ (∀ node, node ∈ sorted ↔ node ∈ nodes) ∧
      Sorts id nodes (edgesWithin nodes graph) ∅ sorted ∧
      sortedTopologicallyBatched orders fuel nodes graph = some batches ∧
      batches.flatten.Nodup ∧ (∀ node, node ∈ batches.flatten ↔ node ∈ nodes) ∧
      ∀ k batch, batches[k]? = some batch → ∀ node, node ∈ batch ↔
        node ∈ nodes ∧ Longest (edgesWithin nodes graph) k node := by
  have hin : ∀ node ∈ nodes, edgesWithin nodes graph node ⊆ nodes := fun _ _ => inter_subset_right
  obtain ⟨sorted,hsorted⟩ := isSome_iff_exists.mp (sortedTopologically_isSome orders graph hfuel)
  have hsorts := sortedTopologically_sorts hsorted
  obtain ⟨hnodup,hmem⟩ := hsorts.nodup
  obtain ⟨batches,hbatches,hflat,hall,hlayers⟩ := batchLoop_layers (k := 0)
    (fun _ hx => reverse_edgesWithin orders.items orders.edges hx) hin hacyclic
    (loopState_nodes orders.items) (by simp [HasPath.zero])
    (by simpa using hfuel : (nodes \ ∅).card ≤ fuel)
  refine ⟨sorted,batches,hsorted,hnodup,?_,hsorts,hbatches,hflat,by simpa using hall,?_⟩
  · intro node
    refine ⟨fun h => (hmem node h).1,fun h => ?_⟩
    simpa using hsorts.complete hin hacyclic h
  · simpa using hlayers

def repeatedEdges : Dict ℕ (List ℕ) := AList.insert 0 [1,1,7] ∅

theorem topological_layers_repeatedEdges :
    ∃ sorted batches, sortedTopologically ⟨default,fun _ => default,fun _ => default⟩ 2 {0,1}
        repeatedEdges = some sorted ∧
      sortedTopologicallyBatched ⟨default,fun _ => default,fun _ => default⟩ 2 {0,1}
        repeatedEdges = some batches ∧ ∀ node, node ∈ batches.flatten ↔ node ∈ sorted := by
  have hwf : WellFounded (fun a b => a ∈ edgesWithin {0,1} repeatedEdges b) := by
    refine Subrelation.wf (fun {a b} h => ?_) (measure (fun node => 1-node)).wf
    have hb : b = 0 ∧ a = 1 := by
      rw [edgesWithin,repeatedEdges,lookup_set] at h
      split at h
      · next hb => exact ⟨hb,by simp at h; omega⟩
      · simp at h
    show 1-a < 1-b
    omega
  obtain ⟨sorted,batches,hsorted,-,hmem,-,hbatches,-,hall,-⟩ :=
    topological_layers {0,1} repeatedEdges hwf _ 2 (by decide)
  exact ⟨sorted,batches,hsorted,hbatches,fun node => (hall node).trans (hmem node).symm⟩

end Synapse.TopologicalSort
