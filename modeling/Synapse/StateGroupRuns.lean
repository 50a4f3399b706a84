import Synapse.StateGroupStore

/-!
# Runs of the state group store

The transactions of the store in any order, and what holds after each. The
number of deltas in a chain is bounded as long as no batch of events exceeds
the bound on its own. A delta that has been read once is given out again even
if the group it is on top of has been purged in between.
-/

set_option autoImplicit false

namespace Synapse.StateGroups
open Python List Dict Option Finset Except

/-- `store_state_group` runs the first of these unless there is no prev group,
and the second if the first stores nothing. -/
inductive Transaction where
  | insertDeltaGroup (prevGroup : ℕ) (deltaIds : StateMap String)
  | insertFullState (currentStateIds : StateMap String)
  | insertDeltasGroup (events : List Event) (prevGroup : ℕ)
  | purge (order : Iteration ℕ) (toDelete : Finset ℕ)
  | getStateGroupDelta (group : ℕ)
  | evict (kept : ℕ → Bool)

def perform (engine : Engine) (s : StateStore) : Transaction → Result StateStore
  | .insertDeltaGroup prevGroup deltaIds => do
    let (_,tables) ← insertDeltaGroupTxn engine s.tables prevGroup deltaIds
    .ok { s with tables := tables }
  | .insertFullState currentStateIds =>
    .ok { s with tables := (insertFullStateTxn s.tables currentStateIds).2 }
  | .insertDeltasGroup events prevGroup => do
    let batched ← insertDeltasGroupTxn s.tables events prevGroup
    .ok { s with tables := batched.tables }
  | .purge order toDelete => do
    let tables ← purgeUnreferencedStateGroups engine order s.tables toDelete
    .ok { s with tables := tables }
  | .getStateGroupDelta group => .ok (getStateGroupDelta s group).2
  | .evict kept =>
    .ok { s with
      deltaCache := { s.deltaCache with entries := filterKeys s.deltaCache.entries kept } }

def emptyTables : StateTables where
  stateGroups := ∅
  stateGroupEdges := ∅
  stateGroupsState := ∅
  nextStateGroup := 1
  positive := by decide
  lower := noEdges_lower
  fresh := by simp

/-- The stores after transactions that are each admitted by what is required of
one. -/
inductive Runs (engine : Engine) (admitted : StateStore → Transaction → Prop) :
    StateStore → Prop
  | start (maxEntries : ℕ) : Runs engine admitted ⟨emptyTables,LruCache.empty maxEntries⟩
  | step {s s' : StateStore} (before : Runs engine admitted s) (transaction : Transaction)
      (performed : perform engine s transaction = .ok s') (required : admitted s transaction) :
    Runs engine admitted s'

variable {ad : StateStore → Transaction → Prop} {s : StateStore}

section Extends

variable {t t' t'' : StateTables}

/-- New groups are added, and the groups that were there stay as they are. -/
structure Extends (t t' : StateTables) : Prop where
  next : t.nextStateGroup ≤ t'.nextStateGroup
  groups : t.stateGroups ⊆ t'.stateGroups
  new : ∀ g ∈ t'.stateGroups, g ∉ t.stateGroups → t.nextStateGroup ≤ g
  old : ∀ g < t.nextStateGroup, t'.deltas.ancestors g = t.deltas.ancestors g ∧
    t'.resolved g = t.resolved g

theorem Extends.refl (t : StateTables) : Extends t t :=
  ⟨le_rfl,Finset.Subset.refl _,fun _ hg hn => absurd hg hn,fun _ _ => ⟨rfl,rfl⟩⟩

theorem Extends.trans (h : Extends t t') (h' : Extends t' t'') : Extends t t'' := by
  refine ⟨h.next.trans h'.next,h.groups.trans h'.groups,?_,?_⟩
  · intro g hg hn
    by_cases hm : g ∈ t'.stateGroups
    · exact h.new g hm hn
    · exact h.next.trans (h'.new g hg hm)
  · intro g hg
    obtain ⟨hc,hs⟩ := h.old g hg
    obtain ⟨hc',hs'⟩ := h'.old g (lt_of_lt_of_le hg h.next)
    exact ⟨hc'.trans hc,hs'.trans hs⟩

theorem addGroup_extends {prev : Option ℕ} {rw : StateMap String}
    {h : ∀ p, prev = some p → 0 < p ∧ p < t.nextStateGroup} : Extends t (t.addGroup prev rw h) := by
  refine ⟨Nat.le_succ _,subset_insert _ _,?_,fun g hg => addGroup_old hg⟩
  intro g hg hn
  exact ((mem_insert.mp hg).resolve_right hn).ge

variable {b : Batched} {eng : Engine}

theorem addEvent_of_none {ev : Event} (h : ev.stateKey = none) :
    (b.addEvent ev).tables = b.tables ∧ (b.addEvent ev).sgBefore = b.sgBefore := by
  rw [Batched.addEvent,h]
  exact ⟨rfl,rfl⟩

theorem addEvent_of_some {ev : Event} {sk : String} (h : ev.stateKey = some sk) :
    ∃ rws hpr, (b.addEvent ev).tables = b.tables.addGroup (some b.sgBefore) rws hpr ∧
        (b.addEvent ev).sgBefore = b.tables.nextStateGroup := by
  have hpr : ∀ p, some b.sgBefore = some p → 0 < p ∧ p < b.tables.nextStateGroup := by
    intro p hp
    cases hp
    exact b.before
  rw [Batched.addEvent,h]
  exact ⟨_,hpr,rfl,rfl⟩

theorem addEvents_extends (evs : List Event) (hl : Linked b.tables)
    (hb : b.sgBefore ∈ b.tables.stateGroups) :
    Extends b.tables (evs.foldl Batched.addEvent b).tables ∧
      Linked (evs.foldl Batched.addEvent b).tables := by
  induction evs generalizing b with
  | nil => exact ⟨Extends.refl _,hl⟩
  | cons ev evs ih =>
    cases hk : ev.stateKey with
    | none =>
      obtain ⟨ht,hsg⟩ := addEvent_of_none (b := b) hk
      have hr := ih (b := b.addEvent ev) (ht ▸ hl) (by rw [ht,hsg]; exact hb)
      rw [ht] at hr
      exact hr
    | some sk =>
      obtain ⟨rws,hpr,ht,hsg⟩ := addEvent_of_some (b := b) hk
      have hl' : Linked (b.addEvent ev).tables := by
        rw [ht]
        apply addGroup_linked hl
        intro p hp
        cases hp
        exact hb
      obtain ⟨he,hla⟩ := ih hl' (by
        rw [ht,hsg]
        exact mem_insert_self _ _)
      rw [ht] at he
      exact ⟨addGroup_extends.trans he,hla⟩

theorem insertDeltaGroupTxn_cases {pg : ℕ} {dis : StateMap String} {sd : Option ℕ}
    (h : insertDeltaGroupTxn eng t pg dis = .ok (sd,t')) :
    t' = t ∨ pg ∈ t.stateGroups ∧ countStateGroupHopsTxn eng t pg < maxStateDeltaHops ∧
      ∃ hp, t' = t.addGroup (some pg) dis hp := by
  rw [insertDeltaGroupTxn] at h
  split at h
  · next hin =>
    split at h
    · exact .inl (Prod.mk.inj (ok.inj h)).2.symm
    · next hf => exact .inr ⟨hin.1,not_le.mp hf,_,(Prod.mk.inj (ok.inj h)).2.symm⟩
  · simp [unpersisted] at h

theorem insertDeltasGroupTxn_cases {evs : List Event} {pg : ℕ} {batched : Batched}
    (h : insertDeltasGroupTxn t evs pg = .ok batched) :
    pg ∈ t.stateGroups ∧ ∃ hb, batched = evs.foldl Batched.addEvent ⟨t,[],pg,hb⟩ := by
  rw [insertDeltasGroupTxn] at h
  split at h
  · next hin => exact ⟨hin.1,_,(ok.inj h).symm⟩
  · simp [unpersisted] at h

theorem getStateGroupDelta_tables (s : StateStore) (gp : ℕ) :
    (getStateGroupDelta s gp).2.tables = s.tables := by
  rw [getStateGroupDelta]
  split <;> rfl

theorem perform_cases {s s' : StateStore} {txn : Transaction} (hl : Linked s.tables)
    (h : perform eng s txn = .ok s') :
    Linked s'.tables ∧ (Extends s.tables s'.tables ∧ s'.deltaCache = s.deltaCache ∨
        (∃ ord del, txn = .purge ord del ∧
          Purged s.tables del s'.tables ∧ s'.deltaCache = s.deltaCache) ∨
        (∃ gp, s' = (getStateGroupDelta s gp).2) ∨
        s'.tables = s.tables ∧ s.deltaCache.Evicts s'.deltaCache) := by
  cases txn with
  | insertDeltaGroup pg dis =>
    obtain ⟨⟨sd,t'⟩,ht,hr⟩ := bind_eq_ok.mp h
    cases hr
    rcases insertDeltaGroupTxn_cases ht with rfl | ⟨hin,-,hpr,rfl⟩
    · exact ⟨hl,.inl ⟨Extends.refl _,rfl⟩⟩
    · have he : Extends s.tables (s.tables.addGroup (some pg) dis hpr) := addGroup_extends
      refine ⟨addGroup_linked hl ?_,.inl ⟨he,rfl⟩⟩
      intro p hp
      cases hp
      exact hin
  | insertFullState csi =>
    cases h
    have he : Extends s.tables (insertFullStateTxn s.tables csi).2 := by
      dsimp only [insertFullStateTxn]
      exact addGroup_extends
    exact ⟨addGroup_linked hl (by simp),.inl ⟨he,rfl⟩⟩
  | insertDeltasGroup evs pg =>
    obtain ⟨batched,ht,hr⟩ := bind_eq_ok.mp h
    cases hr
    obtain ⟨hin,hb,rfl⟩ := insertDeltasGroupTxn_cases ht
    obtain ⟨he,hl'⟩ := addEvents_extends evs (b := ⟨s.tables,[],pg,hb⟩) hl hin
    exact ⟨hl',.inl ⟨he,rfl⟩⟩
  | purge ord del =>
    obtain ⟨t',hpg,hpu⟩ := purgeUnreferencedStateGroups_ok hl eng ord del
    rw [perform,hpg] at h
    cases h
    exact ⟨hpu.linked,.inr (.inl ⟨ord,del,rfl,hpu,rfl⟩)⟩
  | getStateGroupDelta gp =>
    cases h
    rw [getStateGroupDelta_tables]
    exact ⟨hl,.inr (.inr (.inl ⟨gp,rfl⟩))⟩
  | evict kept =>
    cases h
    refine ⟨hl,.inr (.inr (.inr ⟨rfl,?_⟩))⟩
    intro g d hd
    rw [lookup_filterKeys] at hd
    split at hd
    · exact hd
    · simp at hd

theorem Runs.linked {ad : StateStore → Transaction → Prop} {s : StateStore} (h : Runs eng ad s) :
    Linked s.tables := by
  induction h with
  | start maxEntries => simp [Linked,emptyTables]
  | step _ _ performed _ ih => exact (perform_cases ih performed).1

end Extends

section Hops

variable {t : StateTables} {engine : Engine}

def HopsBounded (t : StateTables) : Prop :=
  ∀ g ∈ t.stateGroups, t.deltas.hops g ≤ maxStateDeltaHops

variable {g : ℕ} {s : StateStore}

theorem Extends.hops {t' : StateTables} (h : Extends t t') (hg : g < t.nextStateGroup) :
    t'.deltas.hops g = t.deltas.hops g := by
  rw [DeltaStore.hops,(h.old g hg).1,DeltaStore.hops]

theorem countHops_eq (fuel g count : ℕ) (hpos : 0 < g) (hf : g < fuel) :
    countHops t fuel (some g) count = count+t.deltas.hops g := by
  induction fuel generalizing g count with
  | zero => omega
  | succ fuel ih =>
    obtain ⟨g,rfl⟩ := Nat.exists_eq_succ_of_ne_zero (Nat.ne_of_gt hpos)
    rw [countHops]
    cases hpr : t.stateGroupEdges.lookup (g+1) with
    | none =>
      rw [DeltaStore.hops_of_none (s := t.deltas) hpr]
      cases fuel <;> simp [countHops]
    | some p =>
      obtain ⟨hp,hl⟩ := t.lower _ p hpr
      have hne : p ≠ 0 := by omega
      rw [DeltaStore.hops_of_some (s := t.deltas) hpr]
      simp only [any_some,hne,ne_eq,not_false_eq_true,decide_true,if_true]
      rw [ih p (count+1) hp (by omega)]
      omega

theorem hops_le_count (hp : 0 < g) : t.deltas.hops g ≤ countStateGroupHopsTxn engine t g := by
  cases engine with
  | postgres =>
    exact Nat.sub_le _ _
  | sqlite =>
    rw [countStateGroupHopsTxn,countHops_eq (g+1) g 0 hp (Nat.lt_succ_self g)]
    omega

variable {prev : Option ℕ} {rws : StateMap String}
  {h : ∀ p, prev = some p → 0 < p ∧ p < t.nextStateGroup}

theorem addGroup_hops :
    (t.addGroup prev rws h).deltas.hops t.nextStateGroup =
      match prev with
      | some p => t.deltas.hops p+1
      | none => 0 := by
  have he : (t.addGroup prev rws h).deltas.prev.lookup t.nextStateGroup = prev := by
    change (t.addGroup prev rws h).stateGroupEdges.lookup _ = _
    rw [addGroup_edges,if_pos rfl]
  cases prev with
  | none => exact DeltaStore.hops_of_none he
  | some p =>
    rw [DeltaStore.hops_of_some he,addGroup_extends.hops (h p rfl).2]

theorem HopsBounded.addGroup (hb : HopsBounded t)
    (hp : ∀ p, prev = some p → t.deltas.hops p < maxStateDeltaHops) :
    HopsBounded (t.addGroup prev rws h) := by
  intro g hg
  rcases mem_insert.mp hg with rfl | hg
  · rw [addGroup_hops]
    cases prev with
    | none => exact Nat.zero_le _
    | some p => exact hp p rfl
  · rw [addGroup_extends.hops (t.lt_of_mem hg)]
    exact hb g hg

def stateEvents (events : List Event) : ℕ := events.countP (fun event => event.stateKey.isSome)

theorem HopsBounded.addEvents (evs : List Event) {b : Batched} (hb : HopsBounded b.tables)
    (hr : b.tables.deltas.hops b.sgBefore+stateEvents evs ≤ maxStateDeltaHops) :
    HopsBounded (evs.foldl Batched.addEvent b).tables := by
  induction evs generalizing b with
  | nil => exact hb
  | cons ev evs ih =>
    rw [stateEvents,countP_cons,← stateEvents] at hr
    cases hk : ev.stateKey with
    | none =>
      obtain ⟨ht,hsg⟩ := addEvent_of_none (b := b) hk
      apply ih (ht ▸ hb)
      rw [ht,hsg]
      simpa [hk] using hr
    | some sk =>
      obtain ⟨rws,hpr,ht,hsg⟩ := addEvent_of_some (b := b) hk
      simp only [hk,isSome_some,if_true] at hr
      apply ih
      · rw [ht]
        apply hb.addGroup
        intro p hp
        cases hp
        omega
      · rw [ht,hsg,addGroup_hops]
        dsimp only
        omega

/-- A batch does not make a chain longer than the bound. -/
def FitsBatches (s : StateStore) : Transaction → Prop
  | .insertDeltasGroup events prevGroup =>
    s.tables.deltas.hops prevGroup+stateEvents events ≤ maxStateDeltaHops
  | _ => True

theorem perform_hopsBounded {s' : StateStore} {txn : Transaction} (hl : Linked s.tables)
    (hb : HopsBounded s.tables) (h : perform engine s txn = .ok s') (hf : FitsBatches s txn) :
    HopsBounded s'.tables := by
  cases txn with
  | insertDeltaGroup pg dis =>
    obtain ⟨⟨sd,t'⟩,ht,hr⟩ := bind_eq_ok.mp h
    cases hr
    rcases insertDeltaGroupTxn_cases ht with rfl | ⟨-,hc,hpr,rfl⟩
    · exact hb
    · apply hb.addGroup
      intro p hp
      exact lt_of_le_of_lt (hops_le_count (hpr p hp).1) (some.inj hp ▸ hc)
  | insertFullState csi =>
    cases h
    exact hb.addGroup (by simp)
  | insertDeltasGroup evs pg =>
    obtain ⟨batched,ht,hr⟩ := bind_eq_ok.mp h
    cases hr
    obtain ⟨-,hbe,rfl⟩ := insertDeltasGroupTxn_cases ht
    exact HopsBounded.addEvents evs hb hf
  | purge ord del =>
    obtain ⟨t',hpg,hpu⟩ := purgeUnreferencedStateGroups_ok hl engine ord del
    rw [perform,hpg] at h
    cases h
    intro g hg
    rw [hpu.groups] at hg
    exact (DeltaStore.hops_mono hpu.edges g).trans (hb g (mem_sdiff.mp hg).1)
  | getStateGroupDelta gp =>
    cases h
    rw [getStateGroupDelta_tables]
    exact hb
  | evict kept =>
    cases h
    exact hb

theorem Runs.hopsBounded (h : Runs engine FitsBatches s) : HopsBounded s.tables := by
  induction h with
  | start maxEntries => simp [HopsBounded,emptyTables]
  | step bf txn performed required ih =>
    exact perform_hopsBounded bf.linked ih performed required

/-- In every run whose batches do not make a chain longer than the bound on
their own, no group is more hops away from one that is stored in full. -/
theorem hops_bounded_of_fitsBatches (h : Runs engine FitsBatches s)
    (hg : g ∈ s.tables.stateGroups) : s.tables.deltas.hops g ≤ maxStateDeltaHops :=
  h.hopsBounded g hg

end Hops

section Deltas

variable {t t' : StateTables} {engine : Engine}

/-- If the delta has a prev group, it is stored and the delta on top of it gives
the state of the group. -/
def DeltaValid (t : StateTables) (g : ℕ) (delta : GroupDelta) : Prop :=
  ∀ p, delta.prevGroup = some p → p ∈ t.stateGroups ∧ ∃ ids, delta.deltaIds = some ids ∧
    ∀ key, (t.resolved g).lookup key = (ids.lookup key).or ((t.resolved p).lookup key)

variable {g : ℕ} {s : StateStore}

theorem getStateGroupDeltaTxn_valid (hl : Linked t) (hg : g ∈ t.stateGroups) :
    DeltaValid t g (getStateGroupDeltaTxn t g) := by
  intro p hp
  rw [getStateGroupDeltaTxn] at hp ⊢
  split at hp
  · simp at hp
  · simp at hp
  · next q hpr =>
    cases hp
    refine ⟨hl g hg _ hpr,_,rfl,?_⟩
    intro key
    rw [StateTables.resolved,DeltaStore.resolve_of_some (s := t.deltas) hpr,lookup_update]
    rfl

/-- What is kept for a group is valid while the group is stored. Nothing with a
prev group is kept for a group that is yet to be stored. -/
def KeptValid (t : StateTables) (g : ℕ) (delta : GroupDelta) : Prop :=
  (∀ p, delta.prevGroup = some p → g < t.nextStateGroup) ∧
    (g ∈ t.stateGroups → DeltaValid t g delta)

theorem KeptValid.extends (h : Extends t t') {d : GroupDelta} (hv : KeptValid t g d) :
    KeptValid t' g d := by
  refine ⟨fun p hp => lt_of_lt_of_le (hv.1 p hp) h.next,?_⟩
  intro hg
  by_cases ho : g ∈ t.stateGroups
  · intro p hp
    obtain ⟨hin,ids,hi,hs⟩ := hv.2 ho p hp
    refine ⟨h.groups hin,ids,hi,?_⟩
    rw [(h.old g (t.lt_of_mem ho)).2,(h.old p (t.lt_of_mem hin)).2]
    exact hs
  · intro p hp
    exact absurd (hv.1 p hp) (not_lt.mpr (h.new g hg ho))

theorem KeptValid.purged {del : Finset ℕ} (h : Purged t del t') {d : GroupDelta}
    (hv : KeptValid t g d)
    (hs : ∀ p, d.prevGroup = some p → g ∈ t.stateGroups → g ∉ del → p ∉ del) :
    KeptValid t' g d := by
  refine ⟨fun p hp => h.next ▸ hv.1 p hp,?_⟩
  intro hg p hp
  have ho := hg
  rw [h.groups,mem_sdiff] at ho
  obtain ⟨hin,ids,hi,hst⟩ := hv.2 ho.1 p hp
  have hin' : p ∈ t'.stateGroups := by
    rw [h.groups,mem_sdiff]
    exact ⟨hin,hs p hp ho.1 ho.2⟩
  refine ⟨hin',ids,hi,?_⟩
  intro key
  rw [h.state g hg,h.state p hin',hst]

/-- A purge deletes no group that is the prev group in what is kept for a group
that stays. -/
def SparesKept (s : StateStore) : Transaction → Prop
  | .purge _ toDelete => ∀ g delta p, s.deltaCache.entries.lookup g = some delta →
    delta.prevGroup = some p → g ∈ s.tables.stateGroups → g ∉ toDelete → p ∉ toDelete
  | _ => True

theorem getStateGroupDeltaTxn_kept (hl : Linked t) (g : ℕ) :
    KeptValid t g (getStateGroupDeltaTxn t g) := by
  refine ⟨?_,getStateGroupDeltaTxn_valid hl⟩
  intro p hp
  by_contra hle
  rw [getStateGroupDeltaTxn,(t.fresh g (not_lt.mp hle)).2.1] at hp
  simp at hp

theorem getStateGroupDelta_kept (hl : Linked s.tables) (h : s.deltaCache.Holds (KeptValid s.tables))
    (g : ℕ) :
    KeptValid s.tables g (getStateGroupDelta s g).1 ∧
      (getStateGroupDelta s g).2.deltaCache.Holds (KeptValid s.tables) := by
  obtain ⟨hc,hh⟩ := h.get g true
  rw [getStateGroupDelta]
  split
  · next d ca heq =>
    rw [heq] at hc hh
    exact ⟨hh d rfl,hc⟩
  · next ca heq =>
    rw [heq] at hc
    have hr := getStateGroupDeltaTxn_kept hl g
    exact ⟨hr,hc.set GroupDelta.size hr⟩

theorem Runs.keptValid (h : Runs engine SparesKept s) :
    s.deltaCache.Holds (KeptValid s.tables) := by
  induction h with
  | start maxEntries => exact LruCache.holds_empty _
  | step bf txn performed required ih =>
    rcases (perform_cases bf.linked performed).2 with
      ⟨he,hc⟩ | ⟨order,toDelete,rfl,hpu,hc⟩ | ⟨group,rfl⟩ | ⟨ht,hev⟩
    · intro g d hd
      rw [hc] at hd
      exact (ih g d hd).extends he
    · intro g d hd
      rw [hc] at hd
      exact (ih g d hd).purged hpu (fun p hp => required g d p hd hp)
    · rw [getStateGroupDelta_tables]
      exact (getStateGroupDelta_kept bf.linked ih group).2
    · rw [ht]
      exact ih.evicts hev

/-- In every run whose purges spare the prev groups in what is kept for groups
that stay, the delta that a call returns for a stored group is valid. -/
theorem stateGroupDelta_valid_of_sparesKept (h : Runs engine SparesKept s)
    (hg : g ∈ s.tables.stateGroups) : DeltaValid s.tables g (getStateGroupDelta s g).1 :=
  (getStateGroupDelta_kept h.linked h.keptValid g).1.2 hg

end Deltas

def performed (s : StateStore) (transaction : Transaction) : StateStore :=
  (perform .sqlite s transaction).toOption.getD s

theorem performed_ok {txn : Transaction} (h : (perform .sqlite s txn).toOption.isSome) :
    perform .sqlite s txn = .ok (performed s txn) := by
  exact eq_ok_getD h s

theorem Runs.performed (h : Runs .sqlite ad s) {txn : Transaction}
    (hp : (perform .sqlite s txn).toOption.isSome) (ha : ad s txn) :
    Runs .sqlite ad (performed s txn) :=
  h.step txn (performed_ok hp) ha

def oneGroup : StateStore :=
  performed ⟨emptyTables,LruCache.empty 100⟩
    (.insertFullState (AList.insert (EventTypes.create,"") "$create" ∅))

def readDelta : StateStore :=
  performed
    (performed oneGroup (.insertDeltaGroup 1 (AList.insert ("m.room.name","") "$name" ∅)))
    (.getStateGroupDelta 2)

theorem oneGroup_runs (h : ∀ s csi, ad s (.insertFullState csi)) : Runs .sqlite ad oneGroup :=
  (Runs.start 100).performed (by decide +kernel) (h _ _)

theorem readDelta_runs (h : ∀ s txn, (∀ ord del, txn ≠ .purge ord del) → ad s txn) :
    Runs .sqlite ad readDelta := by
  have ho := oneGroup_runs (fun s csi => h s (.insertFullState csi) (by simp))
  exact (ho.performed (by decide +kernel) (h _ _ (by simp))).performed (by decide +kernel)
    (h _ _ (by simp))

theorem stateGroupDelta_valid_of_sparesKept_readDelta :
    (getStateGroupDelta readDelta 2).1.prevGroup = some 1 ∧
      DeltaValid readDelta.tables 2 (getStateGroupDelta readDelta 2).1 := by
  refine ⟨by decide +kernel,stateGroupDelta_valid_of_sparesKept (readDelta_runs ?_)
    (by decide +kernel)⟩
  intro s transaction hpurge
  cases transaction with
  | purge order toDelete => exact absurd rfl (hpurge order toDelete)
  | _ => trivial

def purgedStore : StateStore :=
  performed readDelta (.purge (Iteration.sortedBy id (fun _ _ h => h)) {1})

/-- What was read before the purge is returned after it, with a prev group that
is gone. -/
theorem stateGroupDelta_dangling : Runs .sqlite (fun _ _ => True) purgedStore ∧
    2 ∈ purgedStore.tables.stateGroups ∧
    (getStateGroupDelta purgedStore 2).1.prevGroup = some 1 ∧
    1 ∉ purgedStore.tables.stateGroups ∧
    ¬ DeltaValid purgedStore.tables 2 (getStateGroupDelta purgedStore 2).1 := by
  have hprev : (getStateGroupDelta purgedStore 2).1.prevGroup = some 1 := by decide +kernel
  have hgone : 1 ∉ purgedStore.tables.stateGroups := by decide +kernel
  refine ⟨?_,by decide +kernel,hprev,hgone,fun hvalid => hgone (hvalid 1 hprev).1⟩
  exact (readDelta_runs (fun _ _ _ => trivial)).performed (by decide +kernel) trivial

/-- No delta dangles in the tables, however stores and purges interleave. -/
theorem ancestors_stored {engine : Engine} (h : Runs engine ad s) (g : ℕ)
    (hg : g ∈ s.tables.stateGroups) :
    ∀ p ∈ s.tables.deltas.ancestors g, p ∈ s.tables.stateGroups := by
  induction g using s.tables.deltas.chain_induction with
  | root g hp => simpa [DeltaStore.ancestors_of_none hp] using hg
  | step g p hp ih =>
    rw [DeltaStore.ancestors_of_some hp]
    exact forall_mem_cons.mpr ⟨hg,ih (h.linked g hg p hp)⟩

theorem ancestors_stored_readDelta : 1 ∈ readDelta.tables.stateGroups :=
  ancestors_stored (readDelta_runs (fun _ _ _ => trivial)) 2 (by decide +kernel) 1
    (by decide +kernel)

def topicEvent : Event :=
  { eventId := "$topic", roomId := "!r:x", sender := "@a:x", type := "m.room.topic",
    stateKey := some "", content := [], prevEventIds := [], authEventIds := [],
    originServerTs := 0, topLevelRedacts := .null, roomVersion := .v10, rejectedReason := none }

theorem hops_bounded_of_fitsBatches_twoTopics :
    (performed oneGroup (.insertDeltasGroup [topicEvent,topicEvent] 1)).tables.deltas.hops 3 ≤
      maxStateDeltaHops := by
  have hfits : oneGroup.tables.deltas.hops 1+stateEvents [topicEvent,topicEvent] ≤
      maxStateDeltaHops := by decide +kernel
  exact hops_bounded_of_fitsBatches ((oneGroup_runs (fun _ _ => trivial)).performed
    (by decide +kernel) hfits) (by decide +kernel)

def longBatch : StateStore :=
  performed oneGroup (.insertDeltasGroup (List.replicate 101 topicEvent) 1)

theorem hops_exceed : Runs .sqlite (fun _ _ => True) longBatch ∧
    102 ∈ longBatch.tables.stateGroups ∧ longBatch.tables.deltas.hops 102 = 101 ∧
    maxStateDeltaHops < longBatch.tables.deltas.hops 102 := by
  refine ⟨?_,by decide +kernel,by decide +kernel,by decide +kernel⟩
  exact (oneGroup_runs (fun _ _ => trivial)).performed (by decide +kernel) trivial

end Synapse.StateGroups
