import Synapse.Runs

/-!
# The queues of the application services

Each service has a loop that takes what is queued for it into one transaction after
the other. The loops take turns where they wait, and each clears the device list
summaries of all services.
-/

set_option autoImplicit false

namespace Synapse.AppserviceQueues
open List Option Finset Function

open Runs

structure DeviceListUpdates where
  changed : Finset String
  left : Finset String
deriving DecidableEq

def DeviceListUpdates.bool (u : DeviceListUpdates) : Bool := u.changed ≠ ∅ || u.left ≠ ∅

inductive Kind
  | events | ephemeral | toDeviceMessages

def maxPerTransaction : Kind → ℕ
  | .events => 100
  | .ephemeral => 100
  | .toDeviceMessages => 100

structure Transaction (A : Type) where
  items : Kind → List A
  deviceListSummary : DeviceListUpdates

inductive Loop (A : Type)
  /-- The key counts of the users in the transaction are read. -/
  | computing (txn : Transaction A)
  | sending

/-- The queues of a service, with what was handed to the controller so far. -/
structure Service (A : Type) where
  queued : Kind → List A
  queuedDeviceListSummaries : List DeviceListUpdates
  loop : Option (Loop A)
  sent : List (Transaction A)

inductive Op (A : Type)
  | enqueueForAppservice (service : String) (items : Kind → List A)
      (deviceListSummary : Option DeviceListUpdates)
  | computed (service : String)
  | failed (service : String)
  /-- The controller returned or raised, which the loop only logs. -/
  | returned (service : String)

section Model

variable {A : Type}

def Op.service : Op A → String
  | .enqueueForAppservice service _ _ => service
  | .computed service => service
  | .failed service => service
  | .returned service => service

def Op.itemsFor (service : String) (kind : Kind) : Op A → List A
  | .enqueueForAppservice service' items _ => if service' = service then items kind else []
  | _ => []

def Op.summariesFor (service : String) : Op A → List DeviceListUpdates
  | .enqueueForAppservice service' _ summary =>
    if service' = service then (summary.filter (·.bool)).toList else []
  | _ => []

def Transaction.isEmpty (txn : Transaction A) : Bool :=
  (txn.items .events).isEmpty && (txn.items .ephemeral).isEmpty &&
    (txn.items .toDeviceMessages).isEmpty && !txn.deviceListSummary.bool

def consolidate (summary next : DeviceListUpdates) : DeviceListUpdates where
  changed := (summary.changed ∪ next.changed) \ next.left
  left := summary.left \ next.changed ∪ next.left

def handOver (txn : Transaction A) (x : Service A) : Service A :=
  { x with loop := some .sending, sent := x.sent ++ [txn] }

def takeTransaction (x : Service A) : Transaction A where
  items kind := (x.queued kind).take (maxPerTransaction kind)
  deviceListSummary := x.queuedDeviceListSummaries.foldl consolidate ⟨∅,∅⟩

/-- One turn of the loop, as far as its own service goes. -/
def takeTurn (computes : Bool) (x : Service A) : Service A :=
  let txn := takeTransaction x
  let x := { x with
    queued := fun kind => (x.queued kind).drop (maxPerTransaction kind)
    queuedDeviceListSummaries := [] }
  if txn.isEmpty then { x with loop := none }
  else if computes then { x with loop := some (.computing txn) }
  else handOver txn x

/-- The summaries are cleared for all services. -/
def sendRequest (computes : String → Bool) (service : String) (q : String → Service A) :
    String → Service A :=
  Function.update (fun other => { q other with queuedDeviceListSummaries := [] }) service
    (takeTurn (computes service) (q service))

def enqueue (items : Kind → List A) (summary : Option DeviceListUpdates) (x : Service A) :
    Service A :=
  { x with
    queued := fun kind => x.queued kind ++ items kind
    queuedDeviceListSummaries := x.queuedDeviceListSummaries ++ (summary.filter (·.bool)).toList }

def step (computes : String → Bool) (op : Op A) (q : String → Service A) : String → Service A :=
  match op with
  | .enqueueForAppservice service items summary =>
    if Transaction.isEmpty ⟨items,summary.getD ⟨∅,∅⟩⟩ then q
    else
      let q := Function.update q service (enqueue items summary (q service))
      if (q service).loop.isSome then q else sendRequest computes service q
  | .computed service =>
    match (q service).loop with
    | some (.computing txn) => Function.update q service (handOver txn (q service))
    | _ => q
  | .failed service =>
    match (q service).loop with
    | some (.computing _) => Function.update q service { q service with loop := none }
    | _ => q
  | .returned service =>
    match (q service).loop with
    | some .sending => sendRequest computes service q
    | _ => q

def start : String → Service A := fun _ => ⟨fun _ => [],[],none,[]⟩

/-- The key counts can be read, and a loop takes its turn while no other service has a summary
queued. -/
def Spares (op : Op A) (q : String → Service A) : Prop :=
  match op with
  | .enqueueForAppservice service _ _ => (q service).loop.isSome = true ∨
    ∀ other, other ≠ service → (q other).queuedDeviceListSummaries = []
  | .computed _ => True
  | .failed service => ∀ txn, (q service).loop ≠ some (.computing txn)
  | .returned service => ∀ other, other ≠ service → (q other).queuedDeviceListSummaries = []

def Service.given (x : Service A) : List (Transaction A) :=
  x.sent ++ match x.loop with
    | some (.computing txn) => [txn]
    | _ => []

def mentions (user : String) (s : DeviceListUpdates) : Bool := user ∈ s.changed || user ∈ s.left

/-- The last of the summaries that mentions a user decides. -/
def Consolidates (block : List DeviceListUpdates) (summary : DeviceListUpdates) : Prop :=
  ∀ user, (user ∈ summary.left ↔ ∃ s ∈ (block.filter (mentions user)).getLast?, user ∈ s.left) ∧
    (user ∈ summary.changed ↔ ∃ s ∈ (block.filter (mentions user)).getLast?, user ∉ s.left)

/-- What was asked for is in the transactions, in its order, or still queued. -/
structure Ledger (asked : Kind → List A) (askedSummaries : List DeviceListUpdates)
    (x : Service A) : Prop where
  items : ∀ kind, x.given.flatMap (fun txn => txn.items kind) ++ x.queued kind = asked kind
  summaries : ∃ blocks : List (List DeviceListUpdates),
    List.Forall₂ Consolidates blocks (x.given.map Transaction.deviceListSummary) ∧
      blocks.flatten ++ x.queuedDeviceListSummaries = askedSummaries
  limits : ∀ txn ∈ x.given, ∀ kind, (txn.items kind).length ≤ maxPerTransaction kind
  bools : ∀ s ∈ x.queuedDeviceListSummaries, s.bool = true

def Idle (x : Service A) : Prop :=
  x.loop = none → (∀ kind, x.queued kind = []) ∧ x.queuedDeviceListSummaries = []

/-- What the operations enqueue for a service is accounted for. -/
def Accounted (ops : List (Op A)) (service : String) (x : Service A) : Prop :=
  Ledger (fun kind => ops.flatMap (Op.itemsFor service kind))
    (ops.flatMap (Op.summariesFor service)) x ∧ Idle x

end Model

section Turns

variable {A : Type} {x : Service A} {asked : Kind → List A}
  {askedSummaries : List DeviceListUpdates}

theorem consolidates_foldl (block : List DeviceListUpdates) :
    Consolidates block (block.foldl consolidate ⟨∅,∅⟩) := by
  intro u
  induction block using reverseRecOn with
  | nil => simp
  | append_singleton block s ih =>
    by_cases hc : u ∈ s.changed <;> by_cases hl : u ∈ s.left <;>
      simp [consolidate,mentions,hc,hl,ih.1,ih.2]

theorem bool_foldl {block : List DeviceListUpdates} (hb : ∀ s ∈ block, s.bool = true)
    (he : (block.foldl consolidate ⟨∅,∅⟩).bool = false) : block = [] := by
  induction block using reverseRecOn with
  | nil => rfl
  | append_singleton block s ih =>
    have hs := hb s (by simp)
    simp only [foldl_append,foldl_cons,foldl_nil,consolidate,DeviceListUpdates.bool,
      Bool.or_eq_false_iff,decide_eq_false_iff_not,not_not,union_eq_empty] at he
    obtain ⟨hc,-,hl⟩ := he
    rw [hl,sdiff_empty,union_eq_empty] at hc
    simp [DeviceListUpdates.bool,hc.2,hl] at hs

theorem Ledger.enqueue (h : Ledger asked askedSummaries x) (items : Kind → List A)
    (summary : Option DeviceListUpdates) :
    Ledger (fun kind => asked kind ++ items kind)
      (askedSummaries ++ (summary.filter (·.bool)).toList)
      (AppserviceQueues.enqueue items summary x) where
  items kind := by
    change _ ++ (x.queued kind ++ items kind) = asked kind ++ items kind
    rw [← h.items kind,append_assoc]
    rfl
  summaries := by
    obtain ⟨blocks,hb,hq⟩ := h.summaries
    exact ⟨blocks,hb,by simp only [AppserviceQueues.enqueue,← hq,append_assoc]⟩
  limits := h.limits
  bools s hs := by
    rcases mem_append.mp hs with hs | hs
    · exact h.bools s hs
    · rw [Option.mem_toList,filter_eq_some_iff] at hs
      exact hs.2

theorem Ledger.takeTransaction (h : Ledger asked askedSummaries x) {y : Service A}
    (hg : y.given = x.given ++ [AppserviceQueues.takeTransaction x])
    (hq : y.queued = fun kind => (x.queued kind).drop (maxPerTransaction kind))
    (hs : y.queuedDeviceListSummaries = []) : Ledger asked askedSummaries y where
  items kind := by
    rw [hg,hq,← h.items kind,flatMap_append,append_assoc]
    simp [AppserviceQueues.takeTransaction]
  summaries := by
    obtain ⟨blocks,hb,hf⟩ := h.summaries
    refine ⟨blocks ++ [x.queuedDeviceListSummaries],?_,by simp [hs,← hf]⟩
    rw [hg,map_append]
    exact rel_append hb (.cons (consolidates_foldl _) .nil)
  limits := by
    rw [hg,forall_mem_append]
    exact ⟨h.limits,by simp [AppserviceQueues.takeTransaction]⟩
  bools := by simp [hs]

theorem empty_of_isEmpty (h : Ledger asked askedSummaries x)
    (he : (takeTransaction x).isEmpty = true) :
    (∀ kind, x.queued kind = []) ∧ x.queuedDeviceListSummaries = [] := by
  simp only [Transaction.isEmpty,takeTransaction,Bool.and_eq_true,List.isEmpty_iff,
    take_eq_nil_iff,Bool.not_eq_true'] at he
  obtain ⟨⟨⟨h1,h2⟩,h3⟩,hs⟩ := he
  refine ⟨fun kind => ?_,bool_foldl h.bools hs⟩
  cases kind with
  | events => exact h1.resolve_left (by decide)
  | ephemeral => exact h2.resolve_left (by decide)
  | toDeviceMessages => exact h3.resolve_left (by decide)

theorem Ledger.takeTurn (h : Ledger asked askedSummaries x) (computes : Bool)
    (hl : ∀ txn, x.loop ≠ some (.computing txn)) :
    Ledger asked askedSummaries (AppserviceQueues.takeTurn computes x) ∧
      Idle (AppserviceQueues.takeTurn computes x) := by
  rw [AppserviceQueues.takeTurn]
  split
  · next he =>
    -- nothing was left to take
    obtain ⟨hq,hs⟩ := empty_of_isEmpty h he
    refine ⟨⟨fun kind => ?_,?_,?_,nofun⟩,fun _ => ⟨fun kind => by simp [hq],rfl⟩⟩
    · simpa [Service.given,hq] using h.items kind
    · simpa [Service.given,hs] using h.summaries
    · simpa [Service.given] using h.limits
  · split
    · exact ⟨h.takeTransaction (by simp [Service.given]) rfl rfl,nofun⟩
    · exact ⟨h.takeTransaction (by simp [Service.given,handOver]) rfl rfl,nofun⟩

end Turns

section Steps

variable {A : Type} {computes : String → Bool} {op : Op A} {q : String → Service A}

theorem sendRequest_eq {sv : String} (hs : ∀ o, o ≠ sv → (q o).queuedDeviceListSummaries = []) :
    sendRequest computes sv q = update q sv (takeTurn (computes sv) (q sv)) := by
  funext o
  by_cases ho : o = sv
  · rw [sendRequest,ho,update_self,update_self]
  · rw [sendRequest,update_of_ne ho,update_of_ne ho,← hs o ho]

theorem summaries_step {sv : String} {its : Kind → List A} {sy : Option DeviceListUpdates}
    (hl : (q sv).loop = none) (hq : ∀ o, (q o).queuedDeviceListSummaries = []) (o : String) :
    (step computes (.enqueueForAppservice sv its sy) q o).queuedDeviceListSummaries = [] := by
  simp only [step,update_self,enqueue,hl,isSome_none,Bool.false_eq_true,if_false]
  split
  · exact hq o
  · rw [sendRequest,update_apply]
    split
    · rw [takeTurn]
      split
      · rfl
      · split <;> rfl
    · rfl

theorem accounted_of_same {ops : List (Op A)} {sv : String} {x : Service A}
    (h : Accounted ops sv x) (hi : ∀ kind, op.itemsFor sv kind = [])
    (hs : op.summariesFor sv = []) :
    Accounted (ops ++ [op]) sv x := by
  simpa [Accounted,hi,hs] using h

theorem step_eq (computes : String → Bool) {ops : List (Op A)} (hs : Spares op q)
    (h : ∀ sv, Accounted ops sv (q sv)) :
    ∃ x, Accounted (ops ++ [op]) op.service x ∧ step computes op q = update q op.service x := by
  have hn : (∀ kind, op.itemsFor op.service kind = []) → op.summariesFor op.service = [] →
      ∃ x, Accounted (ops ++ [op]) op.service x ∧ q = update q op.service x :=
    fun hi hs => ⟨q op.service,accounted_of_same (h _) hi hs,(update_eq_self _ _).symm⟩
  cases op with
  | enqueueForAppservice sv its sy =>
    let asked := ops ++ [.enqueueForAppservice sv its sy]
    have he : Ledger (fun kind => asked.flatMap (Op.itemsFor sv kind))
        (asked.flatMap (Op.summariesFor sv)) (enqueue its sy (q sv)) := by
      simpa [asked,Op.itemsFor,Op.summariesFor] using (h sv).1.enqueue its sy
    simp only [step,update_self]
    split
    · next hempty =>
      simp only [Transaction.isEmpty,Bool.and_eq_true,List.isEmpty_iff,Bool.not_eq_true'] at hempty
      obtain ⟨⟨⟨h1,h2⟩,h3⟩,hsy⟩ := hempty
      refine hn (fun kind => ?_) ?_
      · cases kind <;> simp [Op.itemsFor,Op.service,h1,h2,h3]
      · cases sy <;> simp_all [Op.summariesFor,Op.service]
    · split
      · next hl => exact ⟨_,⟨he,fun hi => nomatch hi ▸ hl⟩,rfl⟩
      · next hl =>
        have ho := hs.resolve_left hl
        rw [sendRequest_eq (fun o hne => by rw [update_of_ne hne]; exact ho o hne),
          update_idem,update_self]
        rw [not_isSome_iff_eq_none] at hl
        exact ⟨_,he.takeTurn _ (by simp [hl]),rfl⟩
  | computed sv =>
    simp only [step]
    split
    · next txn hl =>
      have hg : (handOver txn (q sv)).given = (q sv).given := by
        simp [Service.given,handOver,hl]
      obtain ⟨⟨h1,h2,h3,h4⟩,-⟩ := h sv
      exact ⟨handOver txn (q sv),accounted_of_same ⟨⟨hg ▸ h1,hg ▸ h2,hg ▸ h3,h4⟩,nofun⟩
        (fun _ => rfl) rfl,rfl⟩
    · exact hn (fun _ => rfl) rfl
  | failed sv =>
    simp only [step]
    split
    · next txn hl => exact absurd hl (hs txn)
    · exact hn (fun _ => rfl) rfl
  | returned sv =>
    simp only [step]
    split
    · next hl =>
      rw [sendRequest_eq hs]
      exact ⟨_,accounted_of_same ((h sv).1.takeTurn _ (by simp [hl])) (fun _ => rfl) rfl,rfl⟩
    · exact hn (fun _ => rfl) rfl

theorem run_accounted {ops : List (Op A)} (ha : Admitted (step computes) Spares ops start) :
    ∀ sv, Accounted ops sv (run (step computes) ops start sv) := by
  refine ha.history (I := fun ops q => ∀ sv, Accounted ops sv (q sv)) (fun ops op q h hs => ?_)
    (fun _ => ⟨⟨fun _ => rfl,⟨[],.nil,rfl⟩,nofun,nofun⟩,fun _ => ⟨fun _ => rfl,rfl⟩⟩)
  obtain ⟨x,hx,he⟩ := step_eq computes hs h
  intro o
  rw [he,update_apply]
  split
  · next ho => exact ho ▸ hx
  · next ho =>
    refine accounted_of_same (h o) ?_ ?_
    · cases op <;> simp_all [Op.itemsFor,Op.service,eq_comm]
    · cases op <;> simp_all [Op.summariesFor,Op.service,eq_comm]

def oneSummary : List (Op ℕ) :=
  [.enqueueForAppservice "a" (fun _ => [1]) none,
    .enqueueForAppservice "b" (fun _ => [2]) (some ⟨{"@u:x"},∅⟩),.returned "a"]

end Steps

end Synapse.AppserviceQueues
