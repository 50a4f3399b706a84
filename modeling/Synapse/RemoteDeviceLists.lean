import Synapse.ChangeLog
import Synapse.Runs

/-!
# The cached device list of a remote user

The other server sends each change of a device. A change whose predecessor is known
is written to the cache, and any other marks the cache as stale and starts a resync,
which asks for the whole list. Changes are handled one batch at a time and resyncs one at
a time, but the two run side by side.
-/

set_option autoImplicit false

namespace Synapse.RemoteDeviceLists
open List Option AList Runs

open ChangeLog

/-- Stream IDs come as text in an EDU and as numbers in the answer of a query. -/
inductive StreamId where
  | text (streamId : ℕ)
  | number (streamId : ℕ)
  deriving DecidableEq

section Model

variable (C : Type)

structure Update where
  streamId : ℕ
  prevIds : List ℕ
  change : Change String C

/-- Where `_handle_device_updates` is, by the next call of the store. -/
inductive Handler where
  | readExtremity (updates : List (Update C)) (seenUpdates : List StreamId)
  | decide (updates : List (Update C)) (seenUpdates : List StreamId) (extremity : Option ℕ)
  | markStale
  | marked
  | apply (rest updates : List (Update C))
  | notify (updates : List (Update C))

/-- Where `_user_device_resync_returning_failed` is. -/
inductive Resync where
  | readExtremity
  | readStale (hasExtremity : Bool)
  | query
  | readPrevious (devices : Dict String C) (streamId : ℕ)
  | readCached (devices : Dict String C) (streamId : ℕ) (hasPrevious : Bool)
  | write (devices : Dict String C) (streamId : ℕ)
  | validate (streamId : ℕ)
  | notify (streamId : ℕ)

/-- Where `_maybe_retry_device_resync` is. -/
inductive Retry where
  | idle
  | reading
  | read (stale : Bool)
  | resyncing

structure World where
  changes : List (ℕ × Change String C)
  next : ℕ
  pendingUpdates : List (Update C)
  handler : Option (Handler C)
  seenUpdates : List StreamId
  /-- The rows of `device_lists_remote_cache`, `..._extremeties` and `..._resync`. -/
  cache : Dict String C
  extremity : Option ℕ
  stale : Bool
  /-- The call that holds the lock for resyncs, and if it is one of the retries. -/
  resync : Option (Bool × Resync C)
  waiting : List Bool
  retry : Retry

end Model

variable {C : Type}

def start : World C := ⟨[],0,[],none,[],∅,none,false,none,[],.idle⟩

section Remote

variable (w : World C)

def log : List (Change String C) := w.changes.map Prod.snd

def devices : Dict String C := replay (log w) ∅

def streamId : ℕ := (w.changes.getLast?.map Prod.fst).getD 0

def update? (changes : List (ℕ × Change String C)) (n : ℕ) : Option (Update C) :=
  changes[n]?.map (fun change =>
    ⟨change.1,((changes.take n).getLast?.map Prod.fst).toList,change.2⟩)

end Remote

/-- `_need_to_do_resync`, after it has read the extremity. -/
def needToDoResync (seenUpdates : List StreamId) (extremity : Option ℕ) :
    List (Update C) → List ℕ → Bool
  | [], _ => false
  | update::updates, streamIdInUpdates =>
    update.prevIds.isEmpty ||
      update.prevIds.any (fun prevId => !(decide (extremity = some prevId) ||
        decide (.text prevId ∈ seenUpdates) || decide (prevId ∈ streamIdInUpdates))) ||
      needToDoResync seenUpdates extremity updates (update.streamId::streamIdInUpdates)

def handlerStep (w : World C) : Handler C → World C
  | .readExtremity updates seenUpdates =>
    { w with handler := some (.decide updates seenUpdates w.extremity) }
  | .decide updates seenUpdates extremity =>
    if needToDoResync seenUpdates extremity updates [] then { w with handler := some .markStale }
    else { w with handler := some (.apply updates updates) }
  | .markStale => { w with stale := true, handler := some .marked }
  | .marked => { w with waiting := w.waiting ++ [false], handler := none }
  | .apply [] updates => { w with handler := some (.notify updates) }
  | .apply (update::rest) updates =>
    { w with
      cache := set update.change w.cache
      extremity := some update.streamId
      handler := some (.apply rest updates) }
  | .notify updates =>
    { w with
      seenUpdates := w.seenUpdates ++ updates.map (fun update => .text update.streamId)
      handler := none }

/-- The entries that EDUs wrote have no `device_id`, so with one of them the source finds a
difference where this finds none, and writes the same devices again. -/
def sameDevices [DecidableEq C] (d e : Dict String C) : Bool :=
  (d.keys ++ e.keys).all (fun deviceId => decide (d.lookup deviceId = e.lookup deviceId))

def endResync (w : World C) (ofRetry : Bool) : World C :=
  { w with resync := none, retry := if ofRetry then .idle else w.retry }

def resyncStep [DecidableEq C] (w : World C) (ofRetry answered : Bool) : Resync C → World C
  | .readExtremity => { w with resync := some (ofRetry,.readStale w.extremity.isSome) }
  | .readStale hasExtremity =>
    if hasExtremity && !w.stale then endResync w ofRetry
    else { w with resync := some (ofRetry,.query) }
  | .query =>
    if answered then
      if 1000 < (devices w).keys.length then
        { w with resync := some (ofRetry,.validate (streamId w)) }
      else { w with resync := some (ofRetry,.readPrevious (devices w) (streamId w)) }
    else endResync w ofRetry
  | .readPrevious devices streamId =>
    { w with resync := some (ofRetry,.readCached devices streamId w.extremity.isSome) }
  | .readCached devices streamId hasPrevious =>
    if hasPrevious && sameDevices w.cache devices then
      { w with resync := some (ofRetry,.validate streamId) }
    else { w with resync := some (ofRetry,.write devices streamId) }
  | .write devices streamId =>
    { w with
      cache := devices
      extremity := some streamId
      resync := some (ofRetry,.validate streamId) }
  | .validate streamId => { w with stale := false, resync := some (ofRetry,.notify streamId) }
  | .notify streamId => endResync { w with seenUpdates := [.number streamId] } ofRetry

inductive Op (C : Type) where
  | change (streamId : ℕ) (change : Change String C)
  | deliver
  | rewind (n : ℕ)
  | handle
  | handlerStep
  | acquire
  | resyncStep (answered : Bool)
  | retry
  | retryStep (up : Bool)
  | expire

def step [DecidableEq C] : Op C → World C → World C
  | .change streamId change, w => { w with changes := w.changes ++ [(streamId,change)] }
  | .deliver, w =>
    match update? w.changes w.next with
    | none => w
    | some update =>
      { w with pendingUpdates := w.pendingUpdates ++ [update], next := w.next+1 }
  | .rewind n, w => { w with next := min n w.next }
  | .handle, w =>
    if w.handler.isSome ∨ w.pendingUpdates.isEmpty then w
    else
      { w with
        handler := some (.readExtremity w.pendingUpdates w.seenUpdates)
        pendingUpdates := [] }
  | .handlerStep, w =>
    match w.handler with
    | none => w
    | some handler => RemoteDeviceLists.handlerStep w handler
  | .acquire, w =>
    match w.resync,w.waiting with
    | none,ofRetry::waiting => { w with resync := some (ofRetry,.readExtremity), waiting }
    | _,_ => w
  | .resyncStep answered, w =>
    match w.resync with
    | none => w
    | some (ofRetry,resync) => RemoteDeviceLists.resyncStep w ofRetry answered resync
  | .retry, w =>
    match w.retry with
    | .idle => { w with retry := .reading }
    | _ => w
  | .retryStep up, w =>
    match w.retry with
    | .reading => { w with retry := .read w.stale }
    | .read stale =>
      if stale && up then { w with retry := .resyncing, waiting := w.waiting ++ [true] }
      else { w with retry := .idle }
    | _ => w
  | .expire, w => { w with seenUpdates := [] }

/-- Every EDU has been handled and no resync runs or waits. -/
def Quiet (w : World C) : Prop :=
  w.next = w.changes.length ∧ w.pendingUpdates = [] ∧ w.handler.isNone ∧ w.resync.isNone ∧
    w.waiting = []

/-- The cache is marked, or it is what the other server has. -/
def NotSilentlyStale (w : World C) : Prop :=
  w.stale = true ∨ ∀ deviceId, w.cache.lookup deviceId = (devices w).lookup deviceId

def Resync.snapshot : Resync C → Option (Dict String C)
  | .readPrevious devices _ | .readCached devices _ _ | .write devices _ => some devices
  | _ => none

def Resync.answered : Resync C → Bool
  | .readPrevious _ _ | .readCached _ _ _ | .write _ _ | .validate _ => true
  | _ => false

/-- No resync is between its answer and the mark that the cache is valid when an update marks it as
stale, nor between its answer and its write when an update is written. Answers have at most 1000
devices. -/
def Orderly : Op C → World C → Prop
  | .handlerStep, w =>
    match w.handler with
    | some .markStale => ∀ r ∈ w.resync, r.2.answered = false
    | some (.apply (_::_) _) => ∀ r ∈ w.resync, r.2.snapshot.isNone
    | _ => True
  | .resyncStep _, w => (devices w).keys.length ≤ 1000
  | _, _ => True

instance [DecidableEq C] : ∀ (op : Op C) (w : World C), Decidable (Orderly op w)
  | .handlerStep, w =>
    match h : w.handler with
    | some .markStale => decidable_of_iff (∀ r ∈ w.resync, r.2.answered = false)
        (by simp only [Orderly,h])
    | some (.apply (update::rest) updates) => decidable_of_iff (∀ r ∈ w.resync, r.2.snapshot.isNone)
        (by simp only [Orderly,h])
    | none | some (.readExtremity _ _) | some (.decide _ _ _) | some .marked
    | some (.apply [] _) | some (.notify _) => isTrue (by simp only [Orderly,h])
  | .resyncStep _, w => inferInstanceAs (Decidable ((devices w).keys.length ≤ 1000))
  | .change _ _, _ | .deliver, _ | .rewind _, _ | .handle, _ | .acquire, _ | .retry, _
  | .retryStep _, _ | .expire, _ => isTrue trivial

instance (w : World C) : Decidable (Quiet w) := inferInstanceAs (Decidable (_ ∧ _))

def Handler.rest : Handler C → List (Update C)
  | .readExtremity updates _ | .decide updates _ _ | .apply updates _ => updates
  | _ => []

def Handler.marking : Handler C → Bool
  | .markStale => true
  | _ => false

/-- The changes that have not come, or have not been handled. -/
def outstanding (w : World C) : List (Change String C) :=
  ((w.handler.map Handler.rest).getD [] ++ w.pendingUpdates).map Update.change ++
    (log w).drop w.next

def Marking (w : World C) : Prop := ∃ handler ∈ w.handler, handler.marking = true

/-- What is copied is right but for the outstanding changes, or the cache is about to be marked. -/
def Covered (w : World C) (d : Dict String C) : Prop :=
  Marking w ∨ Right (outstanding w) (devices w) d

def Inv (w : World C) : Prop :=
  w.next ≤ w.changes.length ∧ Leads (outstanding w) (devices w) ∧
    (w.stale = true ∨ Covered w w.cache) ∧
    (∀ r ∈ w.resync, ∀ d ∈ r.2.snapshot, Covered w d) ∧
    ∀ r ∈ w.resync, ∀ streamId, r.2 = .validate streamId → Covered w w.cache

variable {w w' : World C}

theorem Covered.mono {d : Dict String C} (h : Covered w d) (hm : Marking w → Marking w')
    (ho : outstanding w' = outstanding w) (hd : devices w' = devices w) : Covered w' d := by
  unfold Covered
  rw [ho,hd]
  exact h.imp_left hm

theorem Inv.frame (h : Inv w) (hle : w'.next ≤ w'.changes.length)
    (ho : outstanding w' = outstanding w) (hde : devices w' = devices w)
    (hm : Marking w → Marking w') (hc : w'.cache = w.cache) (hs : w'.stale = w.stale)
    (hsn : ∀ r ∈ w'.resync, ∀ d ∈ r.2.snapshot, Covered w d)
    (hv : ∀ r ∈ w'.resync, ∀ sid, r.2 = .validate sid → Covered w w.cache) : Inv w' := by
  obtain ⟨-,hl,hri,-,-⟩ := h
  refine ⟨hle,by rw [ho,hde]; exact hl,?_,?_,?_⟩
  · rw [hc,hs]
    exact hri.imp_right (fun hco => hco.mono hm ho hde)
  · intro r hr d hd
    exact (hsn r hr d hd).mono hm ho hde
  · intro r hr sid heq
    rw [hc]
    exact (hv r hr sid heq).mono hm ho hde

theorem Inv.snapshot (h : Inv w) : ∀ r ∈ w.resync, ∀ d ∈ r.2.snapshot, Covered w d := h.2.2.2.1

theorem Inv.validate (h : Inv w) :
    ∀ r ∈ w.resync, ∀ sid, r.2 = .validate sid → Covered w w.cache := h.2.2.2.2

theorem outstanding_change (hle : w.next ≤ w.changes.length) (sid : ℕ) (change : Change String C) :
    outstanding { w with changes := w.changes ++ [(sid,change)] } = outstanding w ++ [change] := by
  have hlog : (log { w with changes := w.changes ++ [(sid,change)] }) = log w ++ [change] := by
    unfold log
    rw [map_append]
    rfl
  have hl : w.next ≤ (log w).length := by
    rw [log,length_map]
    exact hle
  unfold outstanding
  rw [hlog]
  rw [drop_append_of_le_length hl,append_assoc]

theorem devices_change (w : World C) (sid : ℕ) (change : Change String C) :
    devices { w with changes := w.changes ++ [(sid,change)] } = set change (devices w) := by
  have hl : (log { w with changes := w.changes ++ [(sid,change)] }) = log w ++ [change] := by
    unfold log
    rw [map_append]
    rfl
  unfold devices
  rw [hl,replay_append]
  rfl

theorem Inv.change (h : Inv w) (sid : ℕ) (change : Change String C) :
    Inv { w with changes := w.changes ++ [(sid,change)] } := by
  have ho := outstanding_change h.1 sid change
  have hde := devices_change w sid change
  have hc : ∀ d, Covered w d → Covered { w with changes := w.changes ++ [(sid,change)] } d := by
    intro d hd
    unfold Covered
    rw [ho,hde]
    exact hd.imp_right (fun hri => hri.snoc change)
  refine ⟨?_,?_,?_,?_,?_⟩
  · rw [length_append]
    exact Nat.le_add_right_of_le h.1
  · rw [ho,hde]
    exact h.2.1.snoc change
  · exact h.2.2.1.imp_right (hc _)
  · exact fun r hr d hd => hc d (h.snapshot r hr d hd)
  · exact fun r hr sid heq => hc _ (h.validate r hr sid heq)

theorem update?_eq_some {cs : List (ℕ × Change String C)} {n : ℕ} {update : Update C}
    (h : update? cs n = some update) :
    n < cs.length ∧ (cs.map Prod.snd).drop n = update.change::(cs.map Prod.snd).drop (n+1) := by
  obtain ⟨change,hc,rfl⟩ := map_eq_some_iff.mp h
  obtain ⟨hn,rfl⟩ := List.getElem?_eq_some_iff.mp hc
  have hl : n < (cs.map Prod.snd).length := by rwa [length_map]
  refine ⟨hn,?_⟩
  rw [drop_eq_getElem_cons hl,getElem_map]

theorem Inv.deliver (h : Inv w) {update : Update C} (hu : update? w.changes w.next = some update) :
    Inv { w with pendingUpdates := w.pendingUpdates ++ [update], next := w.next+1 } := by
  obtain ⟨hlt,hd⟩ := update?_eq_some hu
  refine h.frame hlt ?_ rfl id rfl rfl h.snapshot h.validate
  unfold outstanding
  unfold log
  rw [hd]
  simp

theorem Inv.rewind (h : Inv w) (n : ℕ) : Inv { w with next := min n w.next } := by
  have hn : min n w.next ≤ w.next := Nat.min_le_right n w.next
  have hc : ∀ d, Covered w d → Covered { w with next := min n w.next } d :=
    fun d hd => hd.imp_right (fun hri => hri.rewind hn)
  refine ⟨hn.trans h.1,h.2.1.rewind hn,h.2.2.1.imp_right (hc _),?_,?_⟩
  · exact fun r hr d hd => hc d (h.snapshot r hr d hd)
  · exact fun r hr sid heq => hc _ (h.validate r hr sid heq)

theorem Inv.handle (h : Inv w) (hn : w.handler = none) :
    Inv { w with
      handler := some (.readExtremity w.pendingUpdates w.seenUpdates)
      pendingUpdates := [] } := by
  refine h.frame h.1 ?_ rfl ?_ rfl rfl h.snapshot h.validate
  · simp [outstanding,hn,Handler.rest,log]
  · rintro ⟨ha,hh,-⟩
    rw [hn] at hh
    cases hh

theorem Inv.goOn (h : Inv w) {ha : Handler C} (hh : w.handler = some ha) (hma : ha.marking = false)
    (hre : (w'.handler.map Handler.rest).getD [] = ha.rest) (hc : w'.changes = w.changes)
    (hn : w'.next = w.next) (hp : w'.pendingUpdates = w.pendingUpdates) (hca : w'.cache = w.cache)
    (hs : w'.stale = w.stale) (hr : w'.resync = w.resync) : Inv w' := by
  have hl : log w' = log w := by rw [log,log,hc]
  refine h.frame (by rw [hn,hc]; exact h.1) ?_ (by rw [devices,devices,hl]) ?_ hca
    hs (by rw [hr]; exact h.snapshot) (by rw [hr]; exact h.validate)
  · rw [outstanding,outstanding,hre,hp,hl,hn,hh]
    rfl
  · rintro ⟨o,ho,hm⟩
    rw [hh] at ho
    cases ho
    rw [hma] at hm
    cases hm

theorem Inv.handlerStep (h : Inv w) {han : Handler C} (hh : w.handler = some han)
    (ho : Orderly .handlerStep w) : Inv (handlerStep w han) := by
  cases han with
  | readExtremity us seenUpdates => exact h.goOn hh rfl rfl rfl rfl rfl rfl rfl rfl
  | decide us seenUpdates extremity =>
    simp only [RemoteDeviceLists.handlerStep]
    split
    · -- the updates are dropped, and the cache will be marked
      have hm : Marking { w with handler := some .markStale } := ⟨_,rfl,rfl⟩
      refine ⟨h.1,?_,.inr (.inl hm),fun _ _ _ _ => .inl hm,fun _ _ _ _ => .inl hm⟩
      have hl := h.2.1
      unfold outstanding at hl ⊢
      rw [map_append,append_assoc] at hl
      exact hl.suffix
    · exact h.goOn hh rfl rfl rfl rfl rfl rfl rfl rfl
  | markStale =>
    simp only [Orderly,hh] at ho
    refine ⟨h.1,?_,.inl rfl,?_,?_⟩
    · have hl := h.2.1
      unfold outstanding at hl
      rw [hh] at hl
      exact hl
    · intro r hr d hd
      have ha := ho r hr
      cases hr2 : r.2 <;> rw [hr2] at ha hd <;> cases ha <;> cases hd
    · intro r hr sid heq
      have ha := ho r hr
      rw [heq] at ha
      cases ha
  | marked => exact h.goOn hh rfl rfl rfl rfl rfl rfl rfl rfl
  | apply rs us =>
    cases rs with
    | nil => exact h.goOn hh rfl rfl rfl rfl rfl rfl rfl rfl
    | cons update rs =>
      simp only [Orderly,hh] at ho
      have hou : outstanding w = update.change::
          outstanding (RemoteDeviceLists.handlerStep w (.apply (update::rs) us)) := by
        unfold outstanding
        rw [hh]
        rfl
      have hl := h.2.1
      rw [hou] at hl
      have hc : Covered w w.cache →
          Covered (RemoteDeviceLists.handlerStep w (.apply (update::rs) us))
            (set update.change w.cache) := by
        rintro (⟨o,hot,hma⟩ | hri)
        · rw [hh] at hot
          cases hot
          cases hma
        · rw [hou] at hri
          exact .inr (hri.head hl)
      refine ⟨h.1,hl.tail,h.2.2.1.imp_right hc,?_,?_⟩
      · intro r hr d hd
        have hn := ho r hr
        rw [hd] at hn
        cases hn
      · exact fun r hr sid heq => hc (h.validate r hr sid heq)
  | notify us => exact h.goOn hh rfl rfl rfl rfl rfl rfl rfl rfl

section Resyncs

variable {w : World C}

theorem Inv.proceed (h : Inv w) (ofRetry : Bool) (resync : Resync C)
    (hs : ∀ d ∈ resync.snapshot, Covered w d)
    (hv : ∀ sid, resync = .validate sid → Covered w w.cache) :
    Inv { w with resync := some (ofRetry,resync) } := by
  refine h.frame h.1 rfl rfl id rfl rfl ?_ ?_
  · intro r hr d hd
    cases hr
    exact hs d hd
  · intro r hr sid heq
    cases hr
    exact hv sid heq

theorem Inv.endResync (h : Inv w) (ofRetry : Bool) : Inv (endResync w ofRetry) := by
  refine h.frame h.1 rfl rfl id rfl rfl ?_ ?_ <;> intro r hr <;> cases hr

theorem start_inv : Inv (start : World C) := by
  refine ⟨Nat.le_refl 0,?_,.inr (.inr (right_self _ _)),?_,?_⟩
  · exact leads_drop (log (start : World C)) 0 ∅
  · intro r hr
    cases hr
  · intro r hr
    cases hr

theorem Inv.quiet (h : Inv w) (hq : Quiet w) : NotSilentlyStale w := by
  obtain ⟨hne,hp,hh,-,-⟩ := hq
  have hn : w.handler = none := isNone_iff_eq_none.mp hh
  have ho : outstanding w = [] := by
    simp [outstanding,hn,hp,hne,log]
  rcases h.2.2.1 with hst | ⟨ha,hs,-⟩ | hr
  · exact .inl hst
  · rw [hn] at hs
    cases hs
  · rw [ho] at hr
    exact .inr hr.lookup

variable [DecidableEq C]

theorem lookup_of_sameDevices {d e : Dict String C} (h : sameDevices d e = true) (did : String) :
    d.lookup did = e.lookup did := by
  have ha : ∀ k ∈ d.keys ++ e.keys, d.lookup k = e.lookup k := by
    intro k hk
    exact of_decide_eq_true (all_eq_true.mp h k hk)
  by_cases hd : did ∈ d
  · exact ha did (mem_append_left _ (mem_keys.mp hd))
  · by_cases he : did ∈ e
    · exact ha did (mem_append_right _ (mem_keys.mp he))
    · rw [lookup_eq_none.mpr hd,lookup_eq_none.mpr he]

theorem Inv.resyncStep (h : Inv w) {ofRetry : Bool} {resync : Resync C}
    (hre : w.resync = some (ofRetry,resync)) (answered : Bool)
    (hl : (devices w).keys.length ≤ 1000) : Inv (resyncStep w ofRetry answered resync) := by
  cases resync with
  | readExtremity =>
    exact h.proceed ofRetry _ (fun d hd => by cases hd) (fun _ heq => by cases heq)
  | readStale hasExtremity =>
    simp only [RemoteDeviceLists.resyncStep]
    split
    · exact h.endResync ofRetry
    · exact h.proceed ofRetry _ (fun d hd => by cases hd) (fun _ heq => by cases heq)
  | query =>
    simp only [RemoteDeviceLists.resyncStep]
    split
    · rw [if_neg (by omega)]
      apply h.proceed ofRetry
      · intro d hd
        cases hd
        exact .inr (right_self _ _)
      · intro streamId heq
        cases heq
    · exact h.endResync ofRetry
  | readPrevious devices streamId =>
    exact h.proceed ofRetry _ (h.snapshot _ hre) (fun _ heq => by cases heq)
  | readCached devices streamId hasPrevious =>
    have hde := h.snapshot _ hre devices rfl
    simp only [RemoteDeviceLists.resyncStep]
    split
    · next hs =>
      rw [Bool.and_eq_true] at hs
      apply h.proceed ofRetry
      · intro d hd
        cases hd
      · intro _ _
        refine hde.imp_right (fun hri k hk => ?_)
        rw [lookup_of_sameDevices hs.2]
        exact hri k hk
    · exact h.proceed ofRetry _ (h.snapshot _ hre) (fun _ heq => by cases heq)
  | write devices streamId =>
    have hde := h.snapshot _ hre devices rfl
    have hc : Covered (RemoteDeviceLists.resyncStep w ofRetry answered
        (.write devices streamId)) devices := hde
    refine ⟨h.1,h.2.1,.inr hc,?_,fun _ _ _ _ => hc⟩
    intro r hr d hd
    cases hr
    cases hd
  | validate streamId =>
    have hca := h.validate _ hre streamId rfl
    have hc : Covered (RemoteDeviceLists.resyncStep w ofRetry answered
        (.validate streamId)) w.cache := hca
    refine ⟨h.1,h.2.1,.inr hc,?_,fun _ _ _ _ => hc⟩
    intro r hr d hd
    cases hr
    cases hd
  | notify streamId =>
    have hse : Inv { w with seenUpdates := [.number streamId] } :=
      h.frame h.1 rfl rfl id rfl rfl h.snapshot h.validate
    exact hse.endResync ofRetry

theorem Inv.step (h : Inv w) {op : Op C} (ho : Orderly op w) : Inv (step op w) := by
  cases op with
  | change sid change => exact h.change sid change
  | deliver =>
    cases hu : update? w.changes w.next with
    | none =>
      simp only [RemoteDeviceLists.step,hu]
      exact h
    | some update =>
      simp only [RemoteDeviceLists.step,hu]
      exact h.deliver hu
  | rewind n => exact h.rewind n
  | handle =>
    simp only [RemoteDeviceLists.step]
    split
    · exact h
    · next hf =>
      have hn : w.handler = none := not_isSome_iff_eq_none.mp (fun hs => hf (.inl hs))
      exact h.handle hn
  | handlerStep =>
    cases hh : w.handler with
    | none =>
      simp only [RemoteDeviceLists.step,hh]
      exact h
    | some ha =>
      simp only [RemoteDeviceLists.step,hh]
      exact h.handlerStep hh ho
  | acquire =>
    simp only [RemoteDeviceLists.step]
    split
    · refine h.frame h.1 rfl rfl id rfl rfl ?_ ?_
      · intro r hr d hd
        cases hr
        cases hd
      · intro r hr sid heq
        cases hr
        cases heq
    · exact h
  | resyncStep answered =>
    cases hre : w.resync with
    | none =>
      simp only [RemoteDeviceLists.step,hre]
      exact h
    | some r =>
      simp only [RemoteDeviceLists.step,hre]
      exact h.resyncStep hre answered ho
  | retry =>
    simp only [RemoteDeviceLists.step]
    split
    · exact h.frame h.1 rfl rfl id rfl rfl h.snapshot h.validate
    · exact h
  | retryStep up =>
    simp only [RemoteDeviceLists.step]
    split
    · exact h.frame h.1 rfl rfl id rfl rfl h.snapshot h.validate
    · split <;> exact h.frame h.1 rfl rfl id rfl rfl h.snapshot h.validate
    · exact h
  | expire => exact h.frame h.1 rfl rfl id rfl rfl h.snapshot h.validate

/-- In every run where no update is written or marks the cache within a resync, a quiet cache that
is not marked is what the other server has. -/
theorem cache_not_silently_stale {ops : List (Op C)}
    (h : Admitted step Orderly ops (start : World C))
    (hquiet : Quiet (run step ops (start : World C))) :
    NotSilentlyStale (run step ops (start : World C)) := by
  have hinv : Inv (run step ops (start : World C)) :=
    h.invariant (fun op w hw hop => hw.step hop) start_inv
  exact hinv.quiet hquiet

def twoChanges : List (Op ℕ) :=
  [.change 1 ⟨"phone",some 1⟩,.deliver,.handle] ++ List.replicate 4 .handlerStep ++
  [.acquire] ++ List.replicate 8 (.resyncStep true) ++
  [.change 2 ⟨"phone",some 2⟩,.deliver,.handle] ++ List.replicate 5 .handlerStep

theorem cache_not_silently_stale_twoChanges :
    Admitted step Orderly twoChanges (start : World ℕ) ∧
      Quiet (run step twoChanges start) ∧ (run step twoChanges start).stale = false ∧
      (run step twoChanges start).cache.lookup "phone" = some 2 ∧
      NotSilentlyStale (run step twoChanges start) := by
  have hadmitted : Admitted step Orderly twoChanges (start : World ℕ) := by decide +kernel
  have hquiet : Quiet (run step twoChanges start) := by decide +kernel
  exact ⟨hadmitted,hquiet,by decide +kernel,by decide +kernel,
    cache_not_silently_stale hadmitted hquiet⟩

def changeDuringResync : List (Op ℕ) :=
  [.change 1 ⟨"phone",some 1⟩,.deliver,.handle] ++ List.replicate 4 .handlerStep ++
  [.acquire] ++ List.replicate 3 (.resyncStep true) ++
  [.change 2 ⟨"phone",some 2⟩,.deliver,.handle] ++ List.replicate 4 .handlerStep ++
  List.replicate 5 (.resyncStep true) ++ [.acquire] ++ List.replicate 2 (.resyncStep true)

/-- The mark of the second change is removed by the first resync, so that the second resync does
nothing. -/
theorem cache_silently_stale :
    Quiet (run step changeDuringResync start) ∧ (run step changeDuringResync start).stale = false ∧
      (run step changeDuringResync start).cache.lookup "phone" = some 1 ∧
      (devices (run step changeDuringResync start)).lookup "phone" = some 2 := by
  decide +kernel

end Resyncs

end Synapse.RemoteDeviceLists
