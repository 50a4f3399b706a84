import Synapse.ChainCover
import Synapse.TopologicalSort

/-!
# The chain cover index

How the chain cover index of one room is calculated for a batch of state
events and persisted. Each iteration over a set takes its order from `Orders`,
and each loop without a bound is given a number of iterations.
-/

set_option autoImplicit false

namespace Synapse.ChainCoverIndex
open Python Loops ChainCover Dict

structure StateRow where
  type : String
  stateKey : String
  authEventIds : List String

abbrev ChainPosition := Position ℕ

abbrev ChainLink := ChainPosition × ChainPosition

/-- The tables of a room: `events` with `state_events` and `event_auth`,
`event_auth_chains`, `event_auth_chain_links`, `event_auth_chain_to_calculate`
and the last chain ID given out. -/
structure Tables where
  events : Dict String StateRow
  chains : Dict String ChainPosition
  links : List ChainLink
  toCalculate : Dict String (String × String)
  lastChainId : ℕ

structure Orders where
  rows : Iteration String
  sort : TopologicalSort.Orders String
  unallocated : Iteration ℕ
  reduction : String → Iteration String

abbrev Batch := Dict String StateRow

abbrev Result (α : Type) := Run (Exn Empty) α

def item {K V : Type} [DecidableEq K] (d : Dict K V) (key : K) : Result V :=
  match d.lookup key with
  | some v => .ok v
  | none => .error (.raised .keyError)

def orOutOfFuel {α : Type} : Option α → Result α
  | some a => .ok a
  | none => .error .outOfFuel

section Gather

/-- `events_to_calc_chain_id_for`, `event_to_types`, `event_to_auth_chain` and
`chain_map`. -/
structure Gathered where
  toCalc : Finset String
  types : Dict String (String × String)
  auths : Dict String (List String)
  chainMap : Dict String ChainPosition

variable (tables : Tables)

def storedAuths (eventId : String) : List String :=
  ((tables.events.lookup eventId).map StateRow.authEventIds).getD []

def Gathered.add (g : Gathered) (eventId : String) (types : String × String)
    (auths : List String) : Gathered :=
  { g with
    toCalc := insert eventId g.toCalc
    types := g.types.insert eventId types
    auths := g.auths.insert eventId auths }

def Gathered.locate (g : Gathered) (eventId : String) (types : String × String)
    (position : ChainPosition) : Gathered :=
  { g with
    types := g.types.insert eventId types
    chainMap := g.chainMap.insert eventId position }

def gatherBatch (batch : Batch) : Gathered :=
  batch.entries.foldl (fun g entry =>
    g.add entry.1 (entry.2.type,entry.2.stateKey) entry.2.authEventIds) ⟨∅,∅,∅,∅⟩

def gatherDeferred (g : Gathered) : Gathered :=
  tables.toCalculate.entries.foldl (fun g entry =>
    g.add entry.1 entry.2 (storedAuths tables entry.1)) g

def missingAuthChains (g : Gathered) : Finset String :=
  (values g.auths).flatten.toFinset.filter (fun aId => aId ∉ g.toCalc)

/-- One row of the query for the missing auth events. An event without a
position was persisted out of band and joins the calculation. -/
def fetchRow (state : Gathered × Finset String) (authId : String) : Gathered × Finset String :=
  match tables.events.lookup authId, tables.chains.lookup authId with
  | none, _ => state
  | some row, some position =>
    (state.1.locate authId (row.type,row.stateKey) position,state.2)
  | some row, none =>
    let g := state.1.add authId (row.type,row.stateKey) row.authEventIds
    (g,state.2 ∪ (row.authEventIds.filter (fun e => e ∉ g.types)).toFinset)

def fetchMissing (order : Iteration String) : ℕ → Gathered → Finset String → Result Gathered
  | fuel, g, missing =>
    if missing = ∅ then .ok g
    else
      match fuel with
      | 0 => .error .outOfFuel
      | fuel+1 =>
        let state := (order.list missing).foldl (fetchRow tables) (g,∅)
        fetchMissing order fuel state.1 state.2

def gather (orders : Orders) (fuel : ℕ) (batch : Batch) : Result Gathered :=
  let g := gatherDeferred tables (gatherBatch batch)
  fetchMissing tables orders.rows fuel g (missingAuthChains g)

end Gather

/-- An event with an auth event that has no position and will not get one is
left for later. -/
def deferIfUnknown (batch : Batch) (g : Gathered)
    (state : Finset String × Dict String (String × String)) (eventId : String) :
    Result (Finset String × Dict String (String × String)) := do
  let auths ← item g.auths eventId
  if auths.any (fun authId => authId ∉ g.chainMap ∧ authId ∉ state.1) then
    if eventId ∈ batch then do
      let types ← item g.types eventId
      .ok (state.1.erase eventId,state.2.insert eventId types)
    else .ok (state.1.erase eventId,state.2)
  else .ok state

def defer (orders : Orders) (fuel : ℕ) (batch : Batch) (g : Gathered)
    (toCalculate : Dict String (String × String)) :
    Result (Finset String × Dict String (String × String)) := do
  let sorted ← orOutOfFuel
    (TopologicalSort.sortedTopologically orders.sort fuel g.auths.keys.toFinset g.auths)
  sorted.foldlM (deferIfUnknown batch g) (g.toCalc,toCalculate)

/-- A chain ID, or the temporary object that stands for one. -/
inductive ChainRef where
  | allocated (chainId : ℕ)
  | temporary (n : ℕ)
  deriving DecidableEq

structure Allocation where
  newChainTuples : Dict String (Position ChainRef)
  chainToMaxSeqNo : Dict ChainRef ℕ
  unallocated : ℕ

def treeParent (g : Gathered) (eventId : String) : Option String :=
  ((g.auths.lookup eventId).getD []).find?
    (fun authId => g.types.lookup eventId = g.types.lookup authId)

def existingChains (g : Gathered) (sorted : List String) : List ℕ :=
  sorted.filterMap (fun eventId =>
    ((treeParent g eventId).bind (fun authId => g.chainMap.lookup authId)).map Prod.fst)

def maxSequenceNumber (chains : Dict String ChainPosition) (chainId : ℕ) : ℕ :=
  ((values chains).filter (fun position => position.1 = chainId)).foldl
    (fun m position => max m position.2) 0

def chainOfParent (g : Gathered) (a : Allocation) (authEventId : Option String) :
    Result (Option (Position ChainRef)) :=
  match authEventId.filter (fun authId => authId ≠ "") with
  | none => .ok none
  | some authId =>
    match a.newChainTuples.lookup authId with
    | some position => .ok (some position)
    | none => do
      let position ← item g.chainMap authId
      .ok (some (.allocated position.1,position.2))

def proposed (a : Allocation) (existing : Option (Position ChainRef)) :
    Result (Option (Position ChainRef)) :=
  match existing with
  | none => .ok none
  | some (chainRef,seq) => do
    let maxSeq ← item a.chainToMaxSeqNo chainRef
    .ok (if maxSeq < seq+1 then some (chainRef,seq+1) else none)

def Allocation.record (a : Allocation) (eventId : String) (position : Position ChainRef) :
    Allocation :=
  { a with
    newChainTuples := a.newChainTuples.insert eventId position
    chainToMaxSeqNo := a.chainToMaxSeqNo.insert position.1 position.2 }

def allocateOne (g : Gathered) (a : Allocation) (eventId : String) : Result Allocation := do
  let existing ← chainOfParent g a (treeParent g eventId)
  match ← proposed a existing with
  | some position => .ok (a.record eventId position)
  | none =>
    .ok ({ a with unallocated := a.unallocated+1 }.record eventId (.temporary a.unallocated,1))

/-- The chain IDs the temporary objects are replaced by: the next ones, in the
order in which the set of objects is iterated over. -/
def allocatedMap (order : Iteration ℕ) (lastChainId unallocated : ℕ) : Dict ℕ ℕ :=
  (order.list (Finset.range unallocated)).zipIdx.foldl
    (fun d entry => d.insert entry.1 (lastChainId+1+entry.2)) ∅

def resolveRef (allocated : Dict ℕ ℕ) (position : Position ChainRef) : Result ChainPosition :=
  match position.1 with
  | .allocated chainId => .ok (chainId,position.2)
  | .temporary n => do
    let chainId ← item allocated n
    .ok (chainId,position.2)

def resolveEntry (allocated : Dict ℕ ℕ) (chains : Dict String ChainPosition)
    (entry : Sigma fun _ : String => Position ChainRef) : Result (Dict String ChainPosition) := do
  let position ← resolveRef allocated entry.2
  .ok (chains.insert entry.1 position)

def allocateChainIds (tables : Tables) (orders : Orders) (fuel : ℕ) (g : Gathered)
    (toCalc : Finset String) : Result (Dict String ChainPosition × ℕ) := do
  let sorted ← orOutOfFuel (TopologicalSort.sortedTopologically orders.sort fuel toCalc g.auths)
  let chainToMaxSeqNo : Dict ChainRef ℕ := (existingChains g sorted).foldl
    (fun d chainId => d.insert (.allocated chainId) (maxSequenceNumber tables.chains chainId)) ∅
  let a ← sorted.foldlM (allocateOne g) ⟨∅,chainToMaxSeqNo,0⟩
  let allocated := allocatedMap orders.unallocated tables.lastChainId a.unallocated
  let chains ← a.newChainTuples.entries.foldlM (resolveEntry allocated) ∅
  .ok (chains,a.unallocated)

/-- Source chain ID to target chain ID to source sequence number to target
sequence number. -/
abbrev LinkMap := Dict ℕ (Dict ℕ (Dict ℕ ℕ))

def linksBetween (maps : LinkMap) (src target : ℕ) : Dict ℕ ℕ :=
  (((maps.lookup src).getD ∅).lookup target).getD ∅

def setLink (maps : LinkMap) (src target : ChainPosition) : LinkMap :=
  maps.insert src.1 (((maps.lookup src.1).getD ∅).insert target.1
    ((linksBetween maps src.1 target.1).insert src.2 target.2))

def addLink (maps : LinkMap) (src target : ChainPosition) (new : Bool) : Result LinkMap :=
  if src.1 = target.1 then .error (.raised .assertionError)
  else if new && (linksBetween maps src.1 target.1).entries.any
      (fun current => current.1 ≤ src.2 ∧ target.2 ≤ current.2) then .ok maps
  else .ok (setLink maps src target)

def linksFrom (maps : LinkMap) (chain : ℕ) : List (ℕ × ℕ × ℕ) :=
  ((maps.lookup chain).getD ∅).entries.flatMap (fun links =>
    links.2.entries.map (fun link => (links.1,link.1,link.2)))

def scanLinks (visited : Dict ℕ ℕ) (seq : ℕ) (target : ChainPosition) :
    List (ℕ × ℕ × ℕ) → Option (List ChainPosition)
  | [] => some []
  | (tc,ss,ts)::links =>
    if ts ≤ (visited.lookup tc).getD 0 then scanLinks visited seq target links
    else if ss ≤ seq then
      if tc = target.1 then
        if target.2 ≤ ts then none else scanLinks visited seq target links
      else (scanLinks visited seq target links).map (fun pushed => (tc,ts)::pushed)
    else scanLinks visited seq target links

def searchLoop (maps : LinkMap) (target : ChainPosition) :
    ℕ → Dict ℕ ℕ → List ChainPosition → Result Bool
  | _, _, [] => .ok false
  | 0, _, _::_ => .error .outOfFuel
  | fuel+1, visited, (chain,seq)::search =>
    let visited := visited.insert chain (max seq ((visited.lookup chain).getD 0))
    match scanLinks visited seq target (linksFrom maps chain) with
    | none => .ok true
    | some pushed => searchLoop maps target fuel visited (pushed.reverse ++ search)

def existsPathFrom (maps : LinkMap) (fuel : ℕ) (src target : ChainPosition) : Result Bool :=
  if src.1 = target.1 then .ok (decide (target.2 ≤ src.2))
  else searchLoop maps target fuel ∅ [src]

/-- `itertools.permutations(l, r=2)` -/
def permutations2 {α : Type} (l : List α) : List (α × α) :=
  l.zipIdx.flatMap (fun entry => (l.eraseIdx entry.2).map (fun other => (entry.1,other)))

def discardReachable (maps : LinkMap) (chainMap : Dict String ChainPosition) (fuel : ℕ)
    (reduction : Finset String) (pair : String × String) : Result (Finset String) := do
  let start ← item chainMap pair.1
  let stop ← item chainMap pair.2
  if ← existsPathFrom maps fuel start stop then .ok (reduction.erase pair.2)
  else .ok reduction

def otherChain (chainMap : Dict String ChainPosition) (chainId : ℕ) (reduction : Finset String)
    (aId : String) : Result (Finset String) := do
  let position ← item chainMap aId
  .ok (if position.1 ≠ chainId then insert aId reduction else reduction)

def reductionOf (maps : LinkMap) (chainMap : Dict String ChainPosition) (fuel : ℕ)
    (chainId : ℕ) (auths : List String) : Result (Finset String) := do
  let others ← auths.foldlM (otherChain chainMap chainId) ∅
  (permutations2 auths).foldlM (discardReachable maps chainMap fuel) others

def linkTo (chainMap : Dict String ChainPosition) (src : ChainPosition)
    (state : LinkMap × List ChainLink) (authId : String) : Result (LinkMap × List ChainLink) := do
  let target ← item chainMap authId
  let maps ← addLink state.1 src target true
  .ok (maps,state.2 ++ [(src,target)])

def linkEvent (orders : Orders) (g : Gathered) (chainMap : Dict String ChainPosition) (fuel : ℕ)
    (state : LinkMap × List ChainLink) (eventId : String) : Result (LinkMap × List ChainLink) := do
  let src ← item chainMap eventId
  let reduction ← reductionOf state.1 chainMap fuel src.1 ((g.auths.lookup eventId).getD [])
  ((orders.reduction eventId).list reduction).foldlM (linkTo chainMap src) state

def chainsLinkedFrom (links : List ChainLink) (chainId : ℕ) : List ℕ :=
  (links.filter (fun link => link.1.1 = chainId)).map (fun link => link.2.1)

def getChainLinks (links : List ChainLink) (chains : Finset ℕ) : List ChainLink :=
  let fetched := References.reach (chainsLinkedFrom links) (links.length+1) chains
  links.filter (fun link => link.1.1 ∈ fetched)

def addOldLink (maps : LinkMap) (link : ChainLink) : Result LinkMap :=
  addLink maps link.1 link.2 false

def calculateLinks (tables : Tables) (orders : Orders) (fuel : ℕ) (g : Gathered)
    (toCalc : Finset String) (chainMap : Dict String ChainPosition) : Result (List ChainLink) := do
  let chains := ((values chainMap).map Prod.fst).toFinset
  let maps ← (getChainLinks tables.links chains).foldlM addOldLink ∅
  let sorted ← orOutOfFuel (TopologicalSort.sortedTopologically orders.sort fuel toCalc g.auths)
  let state ← sorted.foldlM (linkEvent orders g chainMap fuel) (maps,[])
  .ok state.2

/-- The new positions, the new links, the deferred events and the number of
chain IDs used. -/
structure Calculated where
  chains : Dict String ChainPosition
  links : List ChainLink
  toCalculate : Dict String (String × String)
  used : ℕ

def calculateChainCoverIndex (tables : Tables) (orders : Orders) (fuel : ℕ) (batch : Batch) :
    Result Calculated := do
  let g ← gather tables orders fuel batch
  let (toCalc,toCalculate) ← defer orders fuel batch g tables.toCalculate
  if toCalc = ∅ then .ok ⟨∅,[],toCalculate,0⟩
  else do
    let (newChainTuples,used) ← allocateChainIds tables orders fuel g toCalc
    let links ← calculateLinks tables orders fuel g toCalc (update g.chainMap newChainTuples)
    .ok ⟨newChainTuples,links,toCalculate,used⟩

def persistChainCoverIndex (tables : Tables) (calculated : Calculated) : Tables :=
  { tables with
    chains := update tables.chains calculated.chains
    links := tables.links ++ calculated.links
    toCalculate := popAll calculated.toCalculate calculated.chains.keys
    lastChainId := tables.lastChainId+calculated.used }

def unindexed (tables : Tables) (batch : Batch) : Batch :=
  popAll batch tables.chains.keys

def persistBatch (orders : Orders) (fuel : ℕ) (tables : Tables) (batch : Batch) :
    Result Tables := do
  let stateEvents := unindexed tables batch
  if stateEvents.entries = [] then
    .ok { tables with events := update tables.events batch }
  else do
    let calculated ← calculateChainCoverIndex tables orders fuel stateEvents
    let persisted := persistChainCoverIndex tables calculated
    .ok { persisted with events := update tables.events batch }

def noTables : Tables := ⟨∅,∅,[],∅,0⟩

def persistBatches (fuel : ℕ) (batches : List (Orders × Batch)) : Result Tables :=
  batches.foldlM (fun tables batch => persistBatch batch.1 fuel tables batch.2) noTables

end Synapse.ChainCoverIndex
