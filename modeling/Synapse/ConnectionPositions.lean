import Synapse.Runs

/-!
# Positions of a sliding sync connection

Each response that changes what a connection has been sent adds a position. The
others are deleted when the client is seen to use one of them, inside a read that
every worker memoises: a request that is sent again is answered from the cache
and deletes nothing.
-/

set_option autoImplicit false

namespace Synapse.ConnectionPositions
open List Runs

/-- The rows of one connection in `sliding_sync_connection_positions`, the positions each
worker has memoised, and the requests that are between their read and their response.
Position 0 stands for no position. -/
structure World where
  positions : List ℕ
  nextPosition : ℕ
  memoised : List (ℕ × ℕ)
  requests : List ℕ

def start : World := ⟨[],1,[],[]⟩

/-- `get_and_clear_connection_positions`, or nothing if the position is not known. -/
def getAndClearConnectionPositions (worker position : ℕ) (w : World) : Option World :=
  if position = 0 then some w
  else if (worker,position) ∈ w.memoised then some w
  else if position ∈ w.positions then
    some { w with
      positions := w.positions.filter (· = position)
      memoised := (worker,position)::w.memoised }
  else none

/-- `persist_per_connection_state`: without a previous position the connection is deleted,
its positions with it, and made anew. -/
def persistPerConnectionState (previous : ℕ) (w : World) : World :=
  let persisted := { w with nextPosition := w.nextPosition+1 }
  if previous = 0 then { persisted with positions := [w.nextPosition] }
  else if previous ∈ w.positions then
    { persisted with positions := w.positions ++ [w.nextPosition] }
  else w

inductive Op where
  | request (worker position : ℕ)
  | respond (n : ℕ) (hasUpdates : Bool)
  | evict (worker position : ℕ)
  -- another connection takes the next position
  | skipPosition

def step : Op → World → World
  | .request worker position, w =>
    match getAndClearConnectionPositions worker position w with
    | none => w
    | some w => { w with requests := w.requests ++ [position] }
  | .respond n hasUpdates, w =>
    match w.requests[n]? with
    | none => w
    | some position =>
      let w := { w with requests := w.requests.eraseIdx n }
      if hasUpdates then persistPerConnectionState position w else w
  | .evict worker position, w => { w with memoised := w.memoised.filter (· ≠ (worker,position)) }
  | .skipPosition, w => { w with nextPosition := w.nextPosition+1 }

/-- A request comes after the response to the one before, and its read is not answered from
the cache. -/
def Fresh : Op → World → Prop
  | .request worker position, w => w.requests = [] ∧ (worker,position) ∉ w.memoised
  | _, _ => True

instance : ∀ op w, Decidable (Fresh op w)
  | .request _ _, _ => inferInstanceAs (Decidable (_ ∧ _))
  | .respond _ _, _ | .evict _ _, _ | .skipPosition, _ => inferInstanceAs (Decidable True)

structure Inv (w : World) : Prop where
  nodup : w.positions.Nodup
  issued : ∀ position ∈ w.positions, position < w.nextPosition
  two : w.positions.length ≤ 2
  one : w.requests.length ≤ 1
  cleared : ∀ position ∈ w.requests, position ≠ 0 → w.positions.length ≤ 1

variable {w : World}

theorem Inv.request (h : Inv w) {worker pos : ℕ} (hf : Fresh (.request worker pos) w) :
    Inv (step (.request worker pos) w) := by
  obtain ⟨hn,hr⟩ := hf
  simp only [step,getAndClearConnectionPositions,if_neg hr]
  by_cases hz : pos = 0
  · simp only [if_pos hz,hn]
    exact { h with
      one := le_rfl
      cleared := fun p hp hne => absurd ((mem_singleton.mp hp).trans hz) hne }
  · rw [if_neg hz]
    split
    · exact h
    · next hs =>
      split at hs
      · cases hs
        have hsub : (w.positions.filter (· = pos)).Sublist w.positions := filter_sublist
        have ho : (w.positions.filter (· = pos)).length ≤ 1 := by
          rw [← countP_eq_length_filter]
          exact nodup_iff_count_le_one.mp h.nodup pos
        exact {
          nodup := h.nodup.sublist hsub
          issued := fun p hp => h.issued p (hsub.subset hp)
          two := ho.trans one_le_two
          one := by simp [hn]
          cleared := fun _ _ _ => ho }
      · cases hs

theorem Inv.persist (h : Inv w) {prev : ℕ} (hc : prev ≠ 0 → w.positions.length ≤ 1)
    (hn : w.requests = []) : Inv (persistPerConnectionState prev w) := by
  rw [persistPerConnectionState]
  split
  · exact ⟨by simp,by simp,by simp,by simp [hn],by simp [hn]⟩
  · next hne =>
    split
    · refine ⟨?_,?_,?_,by simp [hn],by simp [hn]⟩
      · rw [nodup_append_comm]
        exact h.nodup.cons (fun hm => (h.issued _ hm).ne rfl)
      · rw [forall_mem_append,forall_mem_singleton]
        exact ⟨fun p hp => (h.issued p hp).trans (Nat.lt_succ_self _),Nat.lt_succ_self _⟩
      · rw [length_append]
        exact Nat.succ_le_succ (hc hne)
    · exact h

theorem Inv.step (h : Inv w) {op : Op} (hf : Fresh op w) : Inv (step op w) := by
  cases op with
  | request worker pos => exact h.request hf
  | respond n hasUpdates =>
    simp only [ConnectionPositions.step]
    cases hr : w.requests[n]? with
    | none => exact h
    | some pos =>
      have hc := h.cleared pos (mem_of_getElem? hr)
      have ho : w.requests.eraseIdx n = [] := by
        have hl := length_eraseIdx_of_lt (List.getElem?_eq_some_iff.mp hr).1
        have hle := h.one
        exact eq_nil_of_length_eq_zero (by omega)
      have hre : Inv { w with requests := w.requests.eraseIdx n } :=
        { h with one := by simp [ho], cleared := by simp [ho] }
      dsimp only
      split
      · exact hre.persist hc ho
      · exact hre
  | evict worker pos => exact { h with }
  | skipPosition =>
    exact { h with issued := fun p hp => (h.issued p hp).trans (Nat.lt_succ_self _) }

/-- In every run of requests that come one after the other and are not answered from the
cache, the connection has at most two positions. -/
theorem at_most_two_positions {ops : List Op} (h : Admitted step Fresh ops start) :
    (run step ops start).positions.length ≤ 2 := by
  have hstart : Inv start :=
    ⟨nodup_nil,by simp [start],by simp [start],by simp [start],by simp [start]⟩
  exact (h.invariant (I := Inv) (fun _ _ hw hop => hw.step hop) hstart).two

/-- The client starts, goes on from position 1, and goes on from position 2. -/
def goesOn : List Op :=
  [.request 0 0,.respond 0 true,.request 0 1,.respond 0 true,.request 0 2,.respond 0 true]

theorem at_most_two_positions_goesOn :
    Admitted step Fresh goesOn start ∧ (run step goesOn start).positions = [2,3] ∧
      (run step goesOn start).positions.length ≤ 2 :=
  ⟨by decide +kernel,by decide +kernel,at_most_two_positions (by decide +kernel)⟩

/-- A request from position 1 that is sent again, one after the other: each response leaves a
position. -/
theorem retries_keep_positions :
    (run step [.request 0 0,.respond 0 true,.request 0 1,.respond 0 true,.request 0 1,
      .respond 0 true,.request 0 1,.respond 0 true] start).positions = [1,2,3,4] := by
  decide +kernel

end Synapse.ConnectionPositions
