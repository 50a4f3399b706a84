import Synapse.EventPersistenceQueue

/-!
# Every task is passed to the callback once and in order

The callers of a room fall into groups, one after the other, such that the items
that were passed to the callback, followed by those in the queue, have the merged
tasks of the groups. An item that is taken from the queue changes nothing about
this. A room has one loop at most, which holds the queue that the map has.
-/

set_option autoImplicit false

namespace Synapse.EventPersistenceQueue
open List Dict Option Finset

variable {E X R : Type}

def queued (s : EventPersistenceQueue E X R) (roomId : String) : List (Item E) :=
  match s.eventPersistQueues.lookup roomId with
  | some queue => deque s queue
  | none => []

def callsOf (s : EventPersistenceQueue E X R) (roomId : String) : List (Call E X R) :=
  s.calls.filter (·.roomId = roomId)

def callersOf (s : EventPersistenceQueue E X R) (roomId : String) : List (Caller E × ℕ) :=
  s.callers.zipIdx.filter (·.1.roomId = roomId)

def Call.item (call : Call E X R) : Item E := ⟨call.task,call.deferred⟩

def items (s : EventPersistenceQueue E X R) (roomId : String) : List (Item E) :=
  (callsOf s roomId).map Call.item ++ queued s roomId

def mergeAll : List (Task E) → Option (Task E)
  | [] => none
  | task::tasks => tasks.foldlM tryMerge task

def Handles (group : List (Caller E × ℕ)) (item : Item E) : Prop :=
  mergeAll (group.map (·.1.task)) = some item.task ∧ ∀ p ∈ group, p.1.deferred = item.deferred

def Alive (s : EventPersistenceQueue E X R) (loop : ℕ) (roomId : String) : Prop :=
  ∃ phase, s.loops.lookup loop = some ⟨roomId,phase⟩ ∧ phase ≠ .finished

def LoopPhase.queue : LoopPhase E → Option ℕ
  | .draining queue => some queue
  | .running queue _ _ => some queue
  | _ => none

structure LoopsSound (s : EventPersistenceQueue E X R) : Prop where
  loopIds : ∀ l loop, s.loops.lookup l = some loop → l < s.nextId
  queueIds : ∀ room queue, s.eventPersistQueues.lookup room = some queue → queue < s.nextId
  distinct : ∀ room room' queue, s.eventPersistQueues.lookup room = some queue →
    s.eventPersistQueues.lookup room' = some queue → room = room'
  persisting : ∀ room, room ∈ s.currentlyPersistingRooms ↔ ∃ l, Alive s l room
  one : ∀ room l l', Alive s l room → Alive s l' room → l = l'
  holds : ∀ l room phase queue, s.loops.lookup l = some ⟨room,phase⟩ → phase.queue = some queue →
    s.eventPersistQueues.lookup room = some queue
  running : ∀ l room queue item i, s.loops.lookup l = some ⟨room,.running queue item i⟩ →
    s.calls[i]? = some ⟨room,item.task,item.deferred,none⟩
  unfinished : ∀ i call, s.calls[i]? = some call → call.result = none →
    ∃ l queue item, s.loops.lookup l = some ⟨call.roomId,.running queue item i⟩

structure ItemsSound (s : EventPersistenceQueue E X R) : Prop where
  called : ∀ call ∈ s.calls, ∃ observers,
    s.deferreds.lookup call.deferred = some ⟨call.result,observers⟩
  pending : ∀ room, ∀ d ∈ (queued s room).map Item.deferred, ∃ observers,
    s.deferreds.lookup d = some ⟨none,observers⟩
  callsNodup : (s.calls.map Call.deferred).Nodup
  itemsNodup : ∀ room, ((items s room).map Item.deferred).Nodup
  itemRoom : ∀ room room' d, d ∈ (items s room).map Item.deferred →
    d ∈ (items s room').map Item.deferred → room = room'
  groups : ∀ room, ∃ groups : List (List (Caller E × ℕ)),
    callersOf s room = groups.flatten ∧ List.Forall₂ Handles groups (items s room)

structure ResultsSound (s : EventPersistenceQueue E X R) : Prop where
  deferredIds : ∀ d x, s.deferreds.lookup d = some x → d < s.nextId
  observers : ∀ d x n, s.deferreds.lookup d = some x → n ∈ x.observers → n ∈ s.observed ∧
    ∃ c, s.callers[n]? = some c ∧ c.deferred = d
  unobserved : ∀ n, n ∉ s.observed → s.returned.lookup n = none
  outcome : ∀ n ∈ s.observed, ∃ c x, s.callers[n]? = some c ∧
    s.deferreds.lookup c.deferred = some x ∧ (x.result = none → n ∈ x.observers) ∧
      s.returned.lookup n = x.result

structure Sound (s : EventPersistenceQueue E X R) : Prop extends
  LoopsSound s, ItemsSound s, ResultsSound s

def Idle (s : EventPersistenceQueue E X R) : Prop :=
  ∀ room, room ∉ s.currentlyPersistingRooms → queued s room = []

theorem start_sound : Sound (start : EventPersistenceQueue E X R) := by
  refine { toLoopsSound := ?_, toItemsSound := ?_, toResultsSound := ?_ }
  all_goals
    constructor
    all_goals simp [start,Alive,items,queued,callsOf,callersOf]

variable {s s' : EventPersistenceQueue E X R}

section SetDefault

theorem ItemsSound.congr (h : ItemsSound s) (hc : s'.calls = s.calls)
    (hd : s'.deferreds = s.deferreds) (hcl : s'.callers = s.callers)
    (hq : ∀ r, queued s' r = queued s r) : ItemsSound s' := by
  have hi : ∀ r, items s' r = items s r := by
    intro r
    rw [items,hq,callsOf,hc]
    rfl
  have hca : ∀ r, callersOf s' r = callersOf s r := by
    intro r
    rw [callersOf,hcl]
    rfl
  constructor
  · rw [hc,hd]
    exact h.called
  · simp only [hq,hd]
    exact h.pending
  · rw [hc]
    exact h.callsNodup
  · simp only [hi]
    exact h.itemsNodup
  · simp only [hi]
    exact h.itemRoom
  · simp only [hca,hi]
    exact h.groups

theorem deque_insert (s : EventPersistenceQueue E X R) (q q' : ℕ) (its : List (Item E)) :
    deque { s with deques := s.deques.insert q its } q' =
      if q' = q then its else deque s q' := by
  rw [deque,lookup_set]
  split <;> rfl

theorem queued_of_lookup {r : String} {q : ℕ} (h : s.eventPersistQueues.lookup r = some q) :
    queued s r = deque s q := by
  rw [queued,h]

theorem queued_setDefaultQueue (h : Sound s) (r r' : String) :
    queued (setDefaultQueue r s).2 r' = queued s r' := by
  unfold setDefaultQueue
  cases hlo : s.eventPersistQueues.lookup r with
  | some q => rfl
  | none =>
    simp only [queued,lookup_set]
    by_cases hr : r' = r
    · rw [hr,hlo]
      simp [deque]
    · rw [if_neg hr]
      cases hlo' : s.eventPersistQueues.lookup r' with
      | none => rfl
      | some q =>
        have hlt := h.queueIds r' q hlo'
        have hne : q ≠ s.nextId := by omega
        simp [deque,hne]

theorem setDefaultQueue_lookup (r : String) (s : EventPersistenceQueue E X R) :
    (setDefaultQueue r s).2.eventPersistQueues.lookup r = some (setDefaultQueue r s).1 := by
  unfold setDefaultQueue
  cases hlo : s.eventPersistQueues.lookup r with
  | some q => exact hlo
  | none => simp

theorem setDefaultQueue_frame (r : String) (s : EventPersistenceQueue E X R) :
    (setDefaultQueue r s).2.currentlyPersistingRooms = s.currentlyPersistingRooms ∧
    (setDefaultQueue r s).2.loops = s.loops ∧ (setDefaultQueue r s).2.calls = s.calls ∧
    (setDefaultQueue r s).2.callers = s.callers ∧
    (setDefaultQueue r s).2.deferreds = s.deferreds := by
  unfold setDefaultQueue
  cases s.eventPersistQueues.lookup r <;> exact ⟨rfl,rfl,rfl,rfl,rfl⟩

theorem setDefaultQueue_sound (h : Sound s) (r : String) : Sound (setDefaultQueue r s).2 := by
  obtain ⟨-,-,hc,hcl,hd⟩ := setDefaultQueue_frame r s
  have hi := h.toItemsSound.congr hc hd hcl (queued_setDefaultQueue h r)
  unfold setDefaultQueue at hi ⊢
  cases hlo : s.eventPersistQueues.lookup r with
  | some q => exact h
  | none =>
    rw [hlo] at hi
    refine { hi, h with
      loopIds := ?_, queueIds := ?_, distinct := ?_, holds := ?_, deferredIds := ?_ }
    · intro l lp hl
      exact Nat.lt_succ_of_lt (h.loopIds l lp hl)
    · intro r' q hq
      dsimp only at hq ⊢
      rw [lookup_set] at hq
      split at hq
      · have hne := some.inj hq
        omega
      · have hlt := h.queueIds r' q hq
        omega
    · intro r₁ r₂ q h₁ h₂
      rw [lookup_set] at h₁ h₂
      split at h₁ <;> split at h₂
      · simp_all
      · have hlt := h.queueIds r₂ q h₂
        have hne := some.inj h₁
        omega
      · have hlt := h.queueIds r₁ q h₁
        have hne := some.inj h₂
        omega
      · exact h.distinct r₁ r₂ q h₁ h₂
    · intro l r' ph q hl hph
      have ho := h.holds l r' ph q hl hph
      rw [lookup_set,if_neg]
      · exact ho
      · rintro rfl
        rw [hlo] at ho
        cases ho
    · intro d x hd
      exact Nat.lt_succ_of_lt (h.deferredIds d x hd)

end SetDefault

section Enqueue

variable {rm : String} {q : ℕ}

theorem getElem?_append_of_some {α : Type} {l : List α} {n : ℕ} {a : α} (h : l[n]? = some a)
    (l' : List α) : (l ++ l')[n]? = some a := by
  obtain ⟨hlt,-⟩ := List.getElem?_eq_some_iff.mp h
  rw [getElem?_append_left hlt,h]

theorem forall₂_concat {α β : Type} {r : α → β → Prop} {gs : List α} {xs : List β} {x : β}
    (h : List.Forall₂ r gs (xs ++ [x])) :
    ∃ gs' g, gs = gs' ++ [g] ∧ List.Forall₂ r gs' xs ∧ r g x := by
  have hd := forall₂_drop_append _ _ _ h
  obtain ⟨g,_,hg,hn,he⟩ := forall₂_cons_right_iff.mp hd
  cases hn
  exact ⟨_,g,by rw [← he,take_append_drop],forall₂_take_append _ _ _ h,hg⟩

variable {tk : Task E} {c : Caller E} {d : ℕ}

theorem mergeAll_append {tks : List (Task E)} (h : mergeAll tks = some tk) (tk' : Task E) :
    mergeAll (tks ++ [tk']) = tryMerge tk tk' := by
  cases tks with
  | nil => cases h
  | cons first rs =>
    rw [mergeAll] at h
    rw [cons_append,mergeAll,foldlM_append,h]
    simp

theorem mergeLast_eq_some {its its' : List (Item E)} {endItem : Item E}
    (h : mergeLast its tk = some (its',endItem)) :
    ∃ la mg, its = its' ++ [la] ∧ tryMerge la.task tk = some mg ∧ endItem = ⟨mg,la.deferred⟩ := by
  unfold mergeLast at h
  simp only [bind_eq_bind,bind_eq_some_iff,some.injEq,Prod.mk.injEq] at h
  obtain ⟨la,hla,mg,hm,hi,he⟩ := h
  refine ⟨la,mg,?_,hm,he.symm⟩
  rw [← hi]
  exact (dropLast_append_getLast? la hla).symm

theorem callersOf_append (hc : s'.callers = s.callers ++ [c]) (rm : String) :
    callersOf s' rm = callersOf s rm ++ if c.roomId = rm then [(c,s.callers.length)] else [] := by
  rw [callersOf,callersOf,hc,zipIdx_append]
  by_cases hr : c.roomId = rm <;> simp [hr]

theorem Sound.item_lt (h : Sound s) (hd : d ∈ (items s rm).map Item.deferred) : d < s.nextId := by
  rw [items,map_append,mem_append,List.map_map] at hd
  rcases hd with hd | hd
  · obtain ⟨cl,hc,rfl⟩ := List.mem_map.mp hd
    obtain ⟨obs,ho⟩ := h.called cl (mem_of_mem_filter hc)
    exact h.deferredIds _ _ ho
  · obtain ⟨obs,ho⟩ := h.pending rm d hd
    exact h.deferredIds _ _ ho

theorem groups_append (hc : s'.callers = s.callers ++ [c])
    (hg : ∃ gs : List (List (Caller E × ℕ)), callersOf s rm = gs.flatten ∧
      List.Forall₂ Handles gs (items s rm)) (ho : c.roomId ≠ rm → items s' rm = items s rm)
    (hs : c.roomId = rm → (∃ bf la mg, items s rm = bf ++ [la] ∧
        items s' rm = bf ++ [⟨mg,la.deferred⟩] ∧
        tryMerge la.task c.task = some mg ∧ c.deferred = la.deferred) ∨
      items s' rm = items s rm ++ [⟨c.task,c.deferred⟩]) :
    ∃ gs : List (List (Caller E × ℕ)), callersOf s' rm = gs.flatten ∧
      List.Forall₂ Handles gs (items s' rm) := by
  obtain ⟨gs,hf,hh⟩ := hg
  rw [callersOf_append hc,hf]
  split
  · next hr =>
    rcases hs hr with ⟨bf,la,mg,hi,hi',hm,hd⟩ | hi'
    · rw [hi] at hh
      obtain ⟨gs',g,rfl,hb,ht,hgr⟩ := forall₂_concat hh
      refine ⟨gs' ++ [g ++ [(c,s.callers.length)]],by simp,?_⟩
      rw [hi']
      refine rel_append hb (.cons ⟨?_,?_⟩ .nil)
      · rw [map_append]
        exact (mergeAll_append ht c.task).trans hm
      · exact forall_mem_append.mpr ⟨hgr,forall_mem_singleton.mpr hd⟩
    · refine ⟨gs ++ [[(c,s.callers.length)]],by simp,?_⟩
      rw [hi']
      refine rel_append hh (.cons ⟨rfl,?_⟩ .nil)
      intro p hp
      rw [List.mem_singleton.mp hp]
  · next hr =>
    rw [append_nil,ho hr]
    exact ⟨gs,rfl,hh⟩

theorem ResultsSound.addCaller (h : ResultsSound s) (hc : s'.callers = s.callers ++ [c])
    (ho : s'.observed = s.observed) (hr : s'.returned = s.returned) (hne : s.nextId ≤ s'.nextId)
    (hk : ∀ d x, s.deferreds.lookup d = some x → s'.deferreds.lookup d = some x)
    (hnew : ∀ d x, s'.deferreds.lookup d = some x →
      s.deferreds.lookup d = some x ∨ (d < s'.nextId ∧ x.observers = [])) : ResultsSound s' := by
  refine ⟨?_,?_,?_,?_⟩
  · intro d x hd
    rcases hnew d x hd with hd | ⟨hlt,-⟩
    · have hlt := h.deferredIds d x hd
      omega
    · exact hlt
  · intro d x n hd hn
    rcases hnew d x hd with hd | ⟨-,hno⟩
    · obtain ⟨hm,c',hc',hde⟩ := h.observers d x n hd hn
      rw [ho,hc]
      exact ⟨hm,c',getElem?_append_of_some hc' _,hde⟩
    · simp [hno] at hn
  · rw [ho,hr]
    exact h.unobserved
  · intro n hn
    rw [ho] at hn
    obtain ⟨c',x,hc',hx,hre⟩ := h.outcome n hn
    rw [hc,hr]
    exact ⟨c',x,getElem?_append_of_some hc' _,hk _ _ hx,hre⟩

theorem deferreds_appendItem (rm : String) (tk : Task E) (q : ℕ) (s : EventPersistenceQueue E X R)
    (d : ℕ) :
    (appendItem rm tk q s).deferreds.lookup d =
      if d = s.nextId then some ⟨none,[]⟩ else s.deferreds.lookup d :=
  lookup_set _ _ _ _

theorem deferreds_appendItem_of_some (h : Sound s) (rm : String) (tk : Task E) (q : ℕ)
    {x : ObservableDeferred X R} (hd : s.deferreds.lookup d = some x) :
    (appendItem rm tk q s).deferreds.lookup d = some x := by
  have hlt := h.deferredIds d x hd
  rw [deferreds_appendItem,if_neg (by omega)]
  exact hd

section

variable (h : Sound s) (hlo : s.eventPersistQueues.lookup rm = some q)
include h hlo

theorem queued_setDeque (rs : List (Item E)) (r' : String) :
    queued { s with deques := s.deques.insert q rs } r' =
      if r' = rm then rs else queued s r' := by
  by_cases hr : r' = rm
  · rw [hr]
    simp only [queued,hlo,deque_insert,if_true]
  · rw [if_neg hr]
    cases hlo' : s.eventPersistQueues.lookup r' with
    | none => simp [queued,hlo']
    | some q' =>
      have hne : q' ≠ q := by
        rintro rfl
        exact hr (h.distinct r' rm q' hlo' hlo)
      simp only [queued,hlo',deque_insert,if_neg hne]

theorem queued_appendItem (tk : Task E) (r' : String) :
    queued (appendItem rm tk q s) r' = queued s r' ++ if r' = rm then [⟨tk,s.nextId⟩] else [] := by
  refine (queued_setDeque h hlo (deque s q ++ [⟨tk,s.nextId⟩]) r').trans ?_
  by_cases hr : r' = rm
  · rw [if_pos hr,if_pos hr,hr,queued_of_lookup hlo]
  · rw [if_neg hr,if_neg hr,append_nil]

theorem items_appendItem (tk : Task E) (r' : String) :
    items (appendItem rm tk q s) r' = items s r' ++ if r' = rm then [⟨tk,s.nextId⟩] else [] := by
  rw [items,items,queued_appendItem h hlo,append_assoc]
  rfl

theorem mergeItem_items {mg : Task E} {rs : List (Item E)} {la : Item E}
    (hde : deque s q = rs ++ [la]) (hm : tryMerge la.task tk = some mg) :
    ItemsSound (mergeItem rm tk q rs ⟨mg,la.deferred⟩ s) := by
  have hq : ∀ r', queued (mergeItem rm tk q rs ⟨mg,la.deferred⟩ s) r' =
      if r' = rm then rs ++ [⟨mg,la.deferred⟩] else queued s r' := queued_setDeque h hlo _
  have ho : queued s rm = rs ++ [la] := (queued_of_lookup hlo).trans hde
  have hco : ∀ r', callsOf (mergeItem rm tk q rs ⟨mg,la.deferred⟩ s) r' =
      callsOf s r' := fun _ => rfl
  have hd : ∀ r',(queued (mergeItem rm tk q rs ⟨mg,la.deferred⟩ s) r').map Item.deferred =
        (queued s r').map Item.deferred := by
    intro r'
    rw [hq]
    by_cases hr : r' = rm
    · rw [hr,ho]
      simp
    · rw [if_neg hr]
  have hi : ∀ r',(items (mergeItem rm tk q rs ⟨mg,la.deferred⟩ s) r').map Item.deferred =
        (items s r').map Item.deferred := by
    intro r'
    rw [items,items,map_append,map_append,hd,hco]
  refine {
    called := h.called, callsNodup := h.callsNodup
    pending := ?_, itemsNodup := ?_, itemRoom := ?_, groups := ?_ }
  · simp only [hd]
    exact h.pending
  · simp only [hi]
    exact h.itemsNodup
  · simp only [hi]
    exact h.itemRoom
  · intro r'
    refine groups_append rfl (h.groups r') ?_ ?_
    · intro hne
      rw [items,items,hq,hco,if_neg (Ne.symm hne)]
    · intro heq
      subst heq
      refine .inl ⟨(callsOf s rm).map Call.item ++ rs,la,mg,?_,?_,hm,rfl⟩
      · rw [items,ho,append_assoc]
      · rw [items,hq,if_pos rfl,hco,append_assoc]

theorem mergeItem_sound {rs : List (Item E)} {endItem : Item E}
    (hm : mergeLast (deque s q) tk = some (rs,endItem)) :
    Sound (mergeItem rm tk q rs endItem s) := by
  obtain ⟨la,mg,hde,hme,rfl⟩ := mergeLast_eq_some hm
  exact {
    toLoopsSound := { h.toLoopsSound with }
    toItemsSound := mergeItem_items h hlo hde hme
    toResultsSound := h.toResultsSound.addCaller rfl rfl rfl le_rfl (fun _ _ hd => hd)
      (fun _ _ hd => .inl hd) }

theorem mem_items_appendItem {r' : String}
    (hd : d ∈ (items (appendItem rm tk q s) r').map Item.deferred) :
    d ∈ (items s r').map Item.deferred ∨ (r' = rm ∧ d = s.nextId) := by
  rw [items_appendItem h hlo,map_append,mem_append] at hd
  rcases hd with hd | hd
  · exact .inl hd
  · by_cases hr : r' = rm
    · rw [if_pos hr] at hd
      exact .inr ⟨hr,by simpa using hd⟩
    · simp [hr] at hd

theorem appendItem_items (tk : Task E) : ItemsSound (appendItem rm tk q s) := by
  have hk := fun d x => deferreds_appendItem_of_some h rm tk q (d := d) (x := x)
  have hi := items_appendItem h hlo tk
  refine {
    callsNodup := h.callsNodup
    called := ?_, pending := ?_, itemsNodup := ?_, itemRoom := ?_, groups := ?_ }
  · intro cl hc
    obtain ⟨obs,ho⟩ := h.called cl hc
    exact ⟨obs,hk _ _ ho⟩
  · intro r' d hd
    rw [queued_appendItem h hlo,map_append,mem_append] at hd
    rcases hd with hd | hd
    · obtain ⟨obs,ho⟩ := h.pending r' d hd
      exact ⟨obs,hk _ _ ho⟩
    · by_cases hr : r' = rm
      · have hd' : d = s.nextId := by simpa [hr] using hd
        exact ⟨[],by rw [deferreds_appendItem,if_pos hd']⟩
      · simp [hr] at hd
  · intro r'
    rw [hi,map_append]
    refine List.Nodup.append (h.itemsNodup r') ?_ ?_
    · split <;> simp
    · intro d hd hd'
      have hlt := h.item_lt hd
      by_cases hr : r' = rm
      · have hd'' : d = s.nextId := by simpa [hr] using hd'
        omega
      · simp [hr] at hd'
  · intro r₁ r₂ d h₁ h₂
    rcases mem_items_appendItem h hlo h₁ with h₁ | ⟨hr₁,hd₁⟩ <;>
      rcases mem_items_appendItem h hlo h₂ with h₂ | ⟨hr₂,hd₂⟩
    · exact h.itemRoom r₁ r₂ d h₁ h₂
    · have hlt := h.item_lt h₁
      omega
    · have hlt := h.item_lt h₂
      omega
    · rw [hr₁,hr₂]
  · intro r'
    refine groups_append rfl (h.groups r') ?_ ?_
    · intro hne
      rw [hi,if_neg (Ne.symm hne),append_nil]
    · intro heq
      exact .inr (by rw [hi,if_pos heq.symm])

theorem appendItem_sound (tk : Task E) : Sound (appendItem rm tk q s) := by
  refine {
    toLoopsSound := { h.toLoopsSound with loopIds := ?_, queueIds := ?_ }
    toItemsSound := appendItem_items h hlo tk
    toResultsSound := h.toResultsSound.addCaller rfl rfl rfl (Nat.le_succ _)
      (fun _ _ hd => deferreds_appendItem_of_some h rm tk q hd) ?_ }
  · intro l lp hl
    exact Nat.lt_succ_of_lt (h.loopIds l lp hl)
  · intro r' q' hq'
    exact Nat.lt_succ_of_lt (h.queueIds r' q' hq')
  · intro d x hd
    rw [deferreds_appendItem] at hd
    split at hd
    · rename_i heq
      rw [heq,← some.inj hd]
      exact .inr ⟨Nat.lt_succ_self _,rfl⟩
    · exact .inl hd

end

section

variable (h : Sound s)
include h

theorem enqueue_sound (rm : String) (tk : Task E) : Sound (enqueue rm tk s) := by
  have hd := setDefaultQueue_sound h rm
  have hlo := setDefaultQueue_lookup rm s
  unfold enqueue
  dsimp only
  split
  · rename_i rs endItem hm
    exact mergeItem_sound hd hlo hm
  · exact appendItem_sound hd hlo tk

theorem queued_enqueue {r' : String} (hne : r' ≠ rm) (tk : Task E) :
    queued (enqueue rm tk s) r' = queued s r' := by
  have hd := setDefaultQueue_sound h rm
  have hs := fun its => queued_setDeque hd (setDefaultQueue_lookup rm s) its r'
  unfold enqueue
  dsimp only
  split <;> refine (hs _).trans ?_ <;> rw [if_neg hne,queued_setDefaultQueue h]

end

theorem enqueue_currentlyPersistingRooms (rm : String) (tk : Task E)
    (s : EventPersistenceQueue E X R) :
    (enqueue rm tk s).currentlyPersistingRooms = s.currentlyPersistingRooms := by
  unfold enqueue
  dsimp only
  split <;> exact (setDefaultQueue_frame rm s).1

end Enqueue

section HandleQueue

variable {l : ℕ} {r : String} {ph ph' : LoopPhase E}

def Only (s : EventPersistenceQueue E X R) (l : ℕ) (room : String) : Prop :=
  (∀ l', Alive s l' room → l' = l) ∧ ∀ loop, s.loops.lookup l = some loop → loop.roomId = room

theorem Sound.only (h : Sound s) (hl : s.loops.lookup l = some ⟨r,ph⟩) (hp : ph ≠ .finished) :
    Only s l r := by
  refine ⟨fun l' ha => h.one r l' l ha ⟨ph,hl,hp⟩,?_⟩
  intro lp hlp
  rw [hl] at hlp
  cases hlp
  rfl

theorem alive_setLoop (ho : Only s l r) (hlp : s'.loops = s.loops.insert l ⟨r,ph'⟩) (l' : ℕ)
    (r' : String) :
    Alive s' l' r' ↔ if r' = r then l' = l ∧ ph' ≠ .finished else Alive s l' r' := by
  rw [Alive,hlp,lookup_set]
  by_cases hl : l' = l
  · subst hl
    by_cases hr : r' = r
    · simp [hr]
    · have hn : ¬Alive s l' r' := fun ⟨_,ha,_⟩ => hr (ho.2 _ ha)
      simp [hr,hn,Ne.symm hr]
  · rw [if_neg hl]
    split
    · rename_i hr
      subst hr
      exact iff_of_false (fun ha => hl (ho.1 l' ha)) (fun ha => hl ha.1)
    · rfl

theorem LoopsSound.setLoop (h : LoopsSound s) (hon : Only s l r) (ph' : LoopPhase E)
    (hlp : s'.loops = s.loops.insert l ⟨r,ph'⟩) (hlt : l < s'.nextId) (hn : s.nextId ≤ s'.nextId)
    (hro : ∀ r', r' ∈ s'.currentlyPersistingRooms ↔
      if r' = r then ph' ≠ .finished else r' ∈ s.currentlyPersistingRooms)
    (hq : ∀ r' qu, s'.eventPersistQueues.lookup r' = some qu →
      s.eventPersistQueues.lookup r' = some qu)
    (hqo : ∀ r', r' ≠ r → s'.eventPersistQueues.lookup r' = s.eventPersistQueues.lookup r')
    (hqu : ∀ qu, ph'.queue = some qu → s'.eventPersistQueues.lookup r = some qu)
    (hru : ∀ qu it i, ph' = .running qu it i → s'.calls[i]? = some ⟨r,it.task,it.deferred,none⟩)
    (ho : ∀ l' r' qu it i, l' ≠ l → s.loops.lookup l' = some ⟨r',.running qu it i⟩ →
      s'.calls[i]? = some ⟨r',it.task,it.deferred,none⟩)
    (hu : ∀ i cl, s'.calls[i]? = some cl → cl.result = none →
      (cl.roomId = r ∧ ∃ qu it, ph' = .running qu it i) ∨
        ∃ l' qu it, l' ≠ l ∧ s.loops.lookup l' = some ⟨cl.roomId,.running qu it i⟩) :
    LoopsSound s' := by
  have hlo : ∀ l', s'.loops.lookup l' = if l' = l then some ⟨r,ph'⟩ else s.loops.lookup l' := by
    intro l'
    rw [hlp]
    exact lookup_set _ _ _ _
  have ha := alive_setLoop hon hlp
  refine ⟨?_,?_,?_,?_,?_,?_,?_,?_⟩
  · intro l' lp hl'
    rw [hlo] at hl'
    split at hl'
    · rename_i heq
      exact heq ▸ hlt
    · exact (h.loopIds l' lp hl').trans_le hn
  · intro r' qu hr'
    exact (h.queueIds r' qu (hq r' qu hr')).trans_le hn
  · intro r₁ r₂ qu h₁ h₂
    exact h.distinct r₁ r₂ qu (hq r₁ qu h₁) (hq r₂ qu h₂)
  · intro r'
    simp only [hro,ha]
    split
    · simp
    · exact h.persisting r'
  · intro r' l₁ l₂ h₁ h₂
    rw [ha] at h₁ h₂
    split at h₁
    · rw [if_pos ‹_›] at h₂
      exact h₁.1.trans h₂.1.symm
    · rw [if_neg ‹_›] at h₂
      exact h.one r' l₁ l₂ h₁ h₂
  · intro l' r' ph₁ qu hl' hp₁
    rw [hlo] at hl'
    split at hl'
    · cases hl'
      exact hqu qu hp₁
    · rename_i hne
      rw [hqo]
      · exact h.holds l' r' ph₁ qu hl' hp₁
      · rintro rfl
        refine hne (hon.1 l' ⟨ph₁,hl',?_⟩)
        rintro rfl
        cases hp₁
  · intro l' r' qu it i hl'
    rw [hlo] at hl'
    split at hl'
    · have hloo := some.inj hl'
      injection hloo with hr hrun
      rw [← hr]
      exact hru qu it i hrun
    · exact ho l' r' qu it i ‹_› hl'
  · intro i cl hc hre
    rcases hu i cl hc hre with ⟨hr,qu,it,rfl⟩ | ⟨l',qu,it,hne,hl'⟩
    · exact ⟨l,qu,it,by rw [hlo,if_pos rfl,hr]⟩
    · exact ⟨l',qu,it,by rw [hlo,if_neg hne]; exact hl'⟩

theorem Sound.persisting_iff (h : Sound s) (hl : s.loops.lookup l = some ⟨r,ph⟩)
    (hp : ph ≠ .finished) (hp' : ph' ≠ .finished) (r' : String) : r' ∈ s.currentlyPersistingRooms ↔
      if r' = r then ph' ≠ .finished else r' ∈ s.currentlyPersistingRooms := by
  split
  · rename_i hr
    exact iff_of_true ((h.persisting r').mpr ⟨l,ph,hr ▸ hl,hp⟩) hp'
  · rfl

theorem Sound.unfinished_other (h : Sound s) (hl : ∀ qu it i,
    s.loops.lookup l ≠ some ⟨r,.running qu it i⟩) (hon : Only s l r) {i : ℕ} {cl : Call E X R}
    (hc : s.calls[i]? = some cl) (hr : cl.result = none) :
    ∃ l' qu it, l' ≠ l ∧ s.loops.lookup l' = some ⟨cl.roomId,.running qu it i⟩ := by
  obtain ⟨l',qu,it,hl'⟩ := h.unfinished i cl hc hr
  refine ⟨l',qu,it,?_,hl'⟩
  rintro rfl
  have hro := hon.2 _ hl'
  exact hl qu it i (hro ▸ hl')

theorem handleQueue_sound (h : Sound s) (r : String) : Sound (handleQueue r s) := by
  unfold handleQueue
  split
  · exact h
  · next hm =>
    have hf : ∀ lp, s.loops.lookup s.nextId ≠ some lp := fun lp hl =>
      absurd (h.loopIds _ lp hl) (lt_irrefl _)
    have hon : Only s s.nextId r :=
      ⟨fun l hl => absurd ((h.persisting r).mpr ⟨l,hl⟩) hm,fun lp hl => absurd hl (hf lp)⟩
    refine {
      toLoopsSound := h.toLoopsSound.setLoop hon .starting rfl (Nat.lt_succ_self _) (Nat.le_succ _)
        ?_ (fun _ _ hq => hq) (fun _ _ => rfl) (by simp [LoopPhase.queue]) (by simp) ?_ ?_
      toItemsSound := { h.toItemsSound with }
      toResultsSound := { h.toResultsSound with deferredIds := ?_ } }
    · intro r'
      by_cases hr : r' = r <;> simp [hr]
    · intro l' r' qu it i _ hl'
      exact h.running l' r' qu it i hl'
    · intro i cl hc hre
      exact .inr (h.unfinished_other (fun _ _ _ => hf _) hon hc hre)
    · intro d x hd
      exact Nat.lt_succ_of_lt (h.deferredIds d x hd)

theorem handleQueue_currentlyPersistingRooms (r : String) (s : EventPersistenceQueue E X R) :
    (handleQueue r s).currentlyPersistingRooms = insert r s.currentlyPersistingRooms := by
  unfold handleQueue
  by_cases hm : r ∈ s.currentlyPersistingRooms
  · rw [if_pos hm,insert_eq_of_mem hm]
  · rw [if_neg hm]

theorem queued_handleQueue (r r' : String) (s : EventPersistenceQueue E X R) :
    queued (handleQueue r s) r' = queued s r' := by
  unfold handleQueue
  split <;> rfl

theorem handleQueue_idle (h : Idle s) (r : String) : Idle (handleQueue r s) := by
  intro r' hn
  rw [handleQueue_currentlyPersistingRooms,mem_insert,not_or] at hn
  rw [queued_handleQueue]
  exact h r' hn.2

theorem addToQueue_idle (hs : Sound s) (h : Idle s) (r : String) (tk : Task E) :
    Idle (addToQueue r tk s) := by
  intro r' hn
  rw [addToQueue,handleQueue_currentlyPersistingRooms,mem_insert,not_or,
    enqueue_currentlyPersistingRooms] at hn
  rw [addToQueue,queued_handleQueue,queued_enqueue hs hn.1]
  exact h r' hn.2

end HandleQueue

section Observe

theorem Sound.addObserver (h : Sound s) {n : ℕ} {c : Caller E} {observers : List ℕ}
    (hc : s.callers[n]? = some c) (hn : n ∉ s.observed)
    (hlo : s.deferreds.lookup c.deferred = some ⟨none,observers⟩) :
    Sound { s with
      observed := insert n s.observed
      deferreds := s.deferreds.insert c.deferred ⟨none,observers ++ [n]⟩ } := by
  have hde := lookup_set s.deferreds c.deferred
  have hr : ∀ d res obs, s.deferreds.lookup d = some ⟨res,obs⟩ →
      ∃ obs', (s.deferreds.insert c.deferred
        (⟨none,observers ++ [n]⟩ : ObservableDeferred X R)).lookup
        d = some ⟨res,obs'⟩ ∧ ∀ m ∈ obs, m ∈ obs' := by
    intro d res obs hd
    rw [hde]
    split
    · next heq =>
      rw [heq,hlo] at hd
      cases hd
      exact ⟨_,rfl,fun m hm => mem_append_left _ hm⟩
    · exact ⟨obs,hd,fun m hm => hm⟩
  refine { h with
    called := ?_, pending := ?_, deferredIds := ?_, observers := ?_, unobserved := ?_
    outcome := ?_ }
  · intro cl hcl
    obtain ⟨obs,hobs⟩ := h.called cl hcl
    obtain ⟨obs',ho',-⟩ := hr _ _ _ hobs
    exact ⟨obs',ho'⟩
  · intro r d hd
    obtain ⟨obs,hobs⟩ := h.pending r d hd
    obtain ⟨obs',ho',-⟩ := hr _ _ _ hobs
    exact ⟨obs',ho'⟩
  · intro d x hd
    rw [hde] at hd
    split at hd
    · rename_i heq
      rw [heq]
      exact h.deferredIds _ _ hlo
    · exact h.deferredIds d x hd
  · intro d x m hd hm
    rw [hde] at hd
    rw [mem_insert]
    split at hd
    · rename_i heq
      cases hd
      rcases mem_append.mp hm with hm | hm
      · obtain ⟨ho,hca⟩ := h.observers _ _ m hlo hm
        exact ⟨.inr ho,heq ▸ hca⟩
      · rw [List.mem_singleton.mp hm]
        exact ⟨.inl rfl,c,hc,heq.symm⟩
    · obtain ⟨ho,hca⟩ := h.observers d x m hd hm
      exact ⟨.inr ho,hca⟩
  · intro m hm
    exact h.unobserved m (fun hmem => hm (mem_insert_of_mem hmem))
  · intro m hm
    rcases mem_insert.mp hm with rfl | hm
    · refine ⟨c,⟨none,observers ++ [m]⟩,hc,?_,fun _ => by simp,h.unobserved m hn⟩
      exact (hde _ _).trans (if_pos rfl)
    · obtain ⟨c',⟨res,obs⟩,hc',hx,hw,hre⟩ := h.outcome m hm
      obtain ⟨obs',ho',hs⟩ := hr _ _ _ hx
      exact ⟨c',⟨res,obs'⟩,hc',ho',fun hno => hs m (hw hno),hre⟩

theorem Sound.returnAtOnce (h : Sound s) {n : ℕ} {c : Caller E} {obs : List ℕ} {res : Except X R}
    (hc : s.callers[n]? = some c) (hlo : s.deferreds.lookup c.deferred = some ⟨some res,obs⟩) :
    Sound { s with
      observed := insert n s.observed
      returned := s.returned.insert n res } := by
  refine { h with observers := ?_, unobserved := ?_, outcome := ?_ }
  · intro d x m hd hm
    obtain ⟨ho,hca⟩ := h.observers d x m hd hm
    exact ⟨mem_insert_of_mem ho,hca⟩
  · intro m hm
    rw [mem_insert,not_or] at hm
    rw [lookup_set,if_neg hm.1]
    exact h.unobserved m hm.2
  · intro m hm
    rw [lookup_set]
    by_cases hmn : m = n
    · subst hmn
      exact ⟨c,_,hc,hlo,by simp,by simp⟩
    · rw [if_neg hmn]
      exact h.outcome m ((mem_insert.mp hm).resolve_left hmn)

theorem observe_sound (h : Sound s) (n : ℕ) : Sound (observe n s) := by
  unfold observe
  cases hc : s.callers[n]? with
  | none => exact h
  | some c =>
    dsimp only
    split
    · exact h
    · next hn =>
      split
      · rename_i obs hlo
        exact h.addObserver hc hn hlo
      · rename_i res obs hlo
        exact h.returnAtOnce hc hlo
      · exact h

theorem observe_idle (h : Idle s) (n : ℕ) : Idle (observe n s) := by
  unfold observe
  repeat' split
  all_goals exact h

end Observe

section Loops

variable {l : ℕ} {r : String} {qu : ℕ}

variable {ph : LoopPhase E} {it : Item E}
  {rs : List (Item E)}

theorem finishLoop_eventPersistQueues (he : queued s r = []) (l : ℕ) :
    (finishLoop l r s).eventPersistQueues = s.eventPersistQueues.erase r := by
  rw [finishLoop]
  cases hlo : s.eventPersistQueues.lookup r with
  | none => rfl
  | some qu =>
    rw [queued_of_lookup hlo] at he
    simp [he]

theorem queued_finishLoop (he : queued s r = []) (l : ℕ) (r' : String) :
    queued (finishLoop l r s) r' = queued s r' := by
  rw [queued,finishLoop_eventPersistQueues he,lookup_pop]
  by_cases hr : r' = r
  · rw [if_pos hr,hr,he]
  · rw [if_neg hr]
    rfl

theorem finishLoop_sound (h : Sound s) (hl : s.loops.lookup l = some ⟨r,ph⟩) (hp : ph ≠ .finished)
    (hru : ∀ qu it i, ph ≠ .running qu it i) (he : queued s r = []) : Sound (finishLoop l r s) := by
  have hqu := finishLoop_eventPersistQueues he l
  have hon := h.only hl hp
  refine {
    toLoopsSound := h.toLoopsSound.setLoop hon .finished rfl (h.loopIds l _ hl) le_rfl ?_ ?_ ?_
      (by simp [LoopPhase.queue]) (by simp) ?_ ?_
    toItemsSound := h.toItemsSound.congr rfl rfl rfl (queued_finishLoop he l)
    toResultsSound := { h.toResultsSound with } }
  · intro r'
    rw [finishLoop,mem_erase]
    by_cases hr : r' = r <;> simp [hr]
  · intro r' qu hq
    rw [hqu] at hq
    exact (pop_cases hq).2
  · intro r' hr
    rw [hqu,lookup_pop,if_neg hr]
  · intro l' r' qu it i _ hl'
    exact h.running l' r' qu it i hl'
  · intro i cl hc hre
    exact .inr (h.unfinished_other (by simpa [hl] using hru) hon hc hre)

theorem callsOf_append {cl : Call E X R} (hc : s'.calls = s.calls ++ [cl]) (r : String) :
    callsOf s' r = callsOf s r ++ if cl.roomId = r then [cl] else [] := by
  rw [callsOf,callsOf,hc]
  by_cases hr : cl.roomId = r <;> simp [hr]

theorem Sound.queued_not_called (h : Sound s) {d : ℕ} (hd : d ∈ (queued s r).map Item.deferred) :
    d ∉ s.calls.map Call.deferred := by
  -- a call with the deferred is an item of the same room
  intro hc
  obtain ⟨cl,hc,heq⟩ := mem_map.mp hc
  have hci : d ∈ ((callsOf s cl.roomId).map Call.item).map Item.deferred := by
    rw [List.map_map]
    exact mem_map.mpr ⟨cl,mem_filter.mpr ⟨hc,by simp⟩,heq⟩
  have hr : cl.roomId = r := h.itemRoom _ _ d
    (by rw [items,map_append]; exact mem_append_left _ hci)
    (by rw [items,map_append]; exact mem_append_right _ hd)
  have hn := h.itemsNodup r
  rw [items,map_append] at hn
  exact disjoint_of_nodup_append hn (hr ▸ hci) hd

section

variable (h : Sound s) (hlo : s.eventPersistQueues.lookup r = some qu)
include h hlo

theorem queued_passItem (l : ℕ) (it : Item E) (rs : List (Item E)) (r' : String) :
    queued (passItem l r qu it rs s) r' =
      if r' = r then rs else queued s r' :=
  queued_setDeque h hlo rs r'

theorem items_passItem (hd : deque s qu = it::rs) (l : ℕ) (r' : String) :
    items (passItem l r qu it rs s) r' = items s r' := by
  have hc : (passItem l r qu it rs s).calls = s.calls ++ [⟨r,it.task,it.deferred,none⟩] := rfl
  rw [items,items,queued_passItem h hlo,callsOf_append hc]
  by_cases hr : r = r'
  · subst hr
    rw [queued_of_lookup hlo,hd]
    simp [Call.item]
  · rw [if_neg hr,if_neg (Ne.symm hr),append_nil]

theorem passItem_items (hde : deque s qu = it::rs) (l : ℕ) :
    ItemsSound (passItem l r qu it rs s) := by
  have hi := items_passItem h hlo hde l
  have ho : queued s r = it::rs := (queued_of_lookup hlo).trans hde
  have hm : it.deferred ∈ (queued s r).map Item.deferred := by simp [ho]
  refine ⟨?_,?_,?_,?_,?_,?_⟩
  · exact forall_mem_append.mpr ⟨h.called,forall_mem_singleton.mpr (h.pending r _ hm)⟩
  · intro r' d hd
    rw [queued_passItem h hlo] at hd
    refine h.pending r' d ?_
    split at hd
    · next hr =>
      rw [hr,ho]
      exact mem_cons_of_mem _ hd
    · exact hd
  · rw [passItem,map_append]
    exact List.Nodup.append h.callsNodup (by simp) (by simpa using h.queued_not_called hm)
  · simp only [hi]
    exact h.itemsNodup
  · simp only [hi]
    exact h.itemRoom
  · simp only [hi]
    exact h.groups

variable (hl : s.loops.lookup l = some ⟨r,ph⟩) (hp : ph ≠ .finished)
  (hr : ∀ qu it i, ph ≠ .running qu it i)
include hl hp hr

theorem passItem_loops (rs : List (Item E)) : LoopsSound (passItem l r qu it rs s) := by
  have hon := h.only hl hp
  refine h.toLoopsSound.setLoop hon (.running qu it s.calls.length) rfl (h.loopIds l _ hl) le_rfl
    (h.persisting_iff hl hp (by simp)) (fun _ _ hq => hq) (fun _ _ => rfl) ?_ ?_ ?_ ?_
  · intro q' hq'
    cases hq'
    exact hlo
  · intro q' it' i hrun
    injection hrun with hq hit hi
    subst hit hi
    simp [passItem]
  · intro l' r' q' it' i _ hl'
    exact getElem?_append_of_some (h.running l' r' q' it' i hl') _
  · intro i cl hc hre
    rw [passItem,getElem?_append] at hc
    split at hc
    · exact .inr (h.unfinished_other (by simpa [hl] using hr) hon hc hre)
    · obtain ⟨hlt,hc⟩ := List.getElem?_eq_some_iff.mp hc
      rw [length_singleton] at hlt
      have hi : i = s.calls.length := by omega
      rw [getElem_singleton] at hc
      rw [← hc,hi]
      exact .inl ⟨rfl,qu,it,rfl⟩

theorem drain_sound : Sound (drain l r qu s) := by
  unfold drain
  cases hd : deque s qu with
  | nil => exact finishLoop_sound h hl hp hr ((queued_of_lookup hlo).trans hd)
  | cons it rs =>
    exact ⟨passItem_loops h hlo hl hp hr rs,passItem_items h hlo hd l,{ h.toResultsSound with }⟩

end

theorem drain_idle (hs : Sound s) (h : Idle s) (hlo : s.eventPersistQueues.lookup r = some qu)
    (hm : r ∈ s.currentlyPersistingRooms) : Idle (drain l r qu s) := by
  unfold drain
  cases hd : deque s qu with
  | nil =>
    have he : queued s r = [] := (queued_of_lookup hlo).trans hd
    intro r' hn
    rw [queued_finishLoop he]
    by_cases hr : r' = r
    · rw [hr,he]
    · exact h r' (fun hm' => hn (mem_erase.mpr ⟨hr,hm'⟩))
  | cons it rs =>
    intro r' hn
    refine (queued_setDeque hs hlo rs r').trans ?_
    rw [if_neg]
    · exact h r' hn
    · rintro rfl
      exact hn hm

theorem next_sound (h : Sound s) (l : ℕ) : Sound (next l s) := by
  unfold next
  split
  · rename_i r hl
    rw [← (setDefaultQueue_frame r s).2.1] at hl
    exact drain_sound (setDefaultQueue_sound h r) (setDefaultQueue_lookup r s) hl (by simp)
      (by simp)
  · rename_i r qu hl
    exact drain_sound h (h.holds l r _ qu hl rfl) hl (by simp) (by simp)
  · exact h

theorem next_idle (hs : Sound s) (h : Idle s) (l : ℕ) : Idle (next l s) := by
  unfold next
  split
  · rename_i r hl
    dsimp only
    have hf := (setDefaultQueue_frame r s).1
    refine drain_idle (setDefaultQueue_sound hs r) ?_ (setDefaultQueue_lookup r s) ?_
    · intro r' hn
      rw [queued_setDefaultQueue hs]
      exact h r' (hf ▸ hn)
    · rw [hf]
      exact (hs.persisting r).mpr ⟨l,_,hl,by simp⟩
  · rename_i r qu hl
    exact drain_idle hs h (hs.holds l r _ qu hl rfl) ((hs.persisting r).mpr ⟨l,_,hl,by simp⟩)
  · exact h

end Loops

section Complete

variable {l : ℕ} {room : String} {queue : ℕ}

theorem map_filter_modify {α β : Type} {f : α → α} {p : α → Bool} {g : α → β}
    (hp : ∀ a, p (f a) = p a) (hg : ∀ a, g (f a) = g a) (l : List α) (i : ℕ) :
    ((l.modify i f).filter p).map g = (l.filter p).map g := by
  induction l generalizing i with
  | nil => simp
  | cons a l ih =>
    cases i with
    | zero => simp only [modify_zero_cons,List.filter_cons,hp]; split <;> simp [hg]
    | succ i => simp only [modify_succ_cons,List.filter_cons]; split <;> simp [ih]

theorem getElem?_setResult (i : ℕ) (res : Except X R) (s : EventPersistenceQueue E X R) (j : ℕ) :
    (setResult i res s).calls[j]? = (s.calls[j]?).map
      (fun cl => if i = j then { cl with result := some res } else cl) :=
  getElem?_modify _ _ _ _

theorem items_setResult (i : ℕ) (res : Except X R) (s : EventPersistenceQueue E X R)
    (room : String) : items (setResult i res s) room = items s room := by
  rw [items,callsOf,setResult]
  rw [map_filter_modify]
  · rfl
  · exact fun _ => rfl
  · exact fun _ => rfl

theorem deferreds_setResult (i : ℕ) (res : Except X R) (s : EventPersistenceQueue E X R) :
    (setResult i res s).calls.map Call.deferred = s.calls.map Call.deferred := by
  have hf := map_filter_modify (p := fun _ => true) (g := Call.deferred)
    (f := fun call : Call E X R => { call with result := some res }) (fun _ => rfl)
    (fun _ => rfl) s.calls i
  simp only [List.filter_true] at hf
  exact hf

theorem Sound.call_inj (h : Sound s) {i j : ℕ} {cl cl' : Call E X R} (hi : s.calls[i]? = some cl)
    (hj : s.calls[j]? = some cl') (heq : cl.deferred = cl'.deferred) : i = j := by
  have hlt : i < (s.calls.map Call.deferred).length := by
    rw [length_map]
    exact (List.getElem?_eq_some_iff.mp hi).1
  refine (getElem?_inj hlt h.callsNodup).mp ?_
  rw [getElem?_map,getElem?_map,hi,hj,map_some,map_some,heq]

section Callback

variable {im : Item E} {i : ℕ} (h : Sound s)
  (hl : s.loops.lookup l = some ⟨room,.running queue im i⟩)

include h hl

theorem callback_loops (obs : List ℕ) (res : Except X R) :
    LoopsSound (callback l room queue im.deferred obs res (setResult i res s)) := by
  have hc := h.running l room queue im i hl
  have hon := h.only hl (by simp)
  refine h.toLoopsSound.setLoop hon (.draining queue) rfl (h.loopIds l _ hl) le_rfl
    (h.persisting_iff hl (by simp) (by simp)) (fun _ _ hq => hq) (fun _ _ => rfl) ?_ ?_ ?_ ?_
  · intro q' hq'
    exact h.holds l room _ q' hl hq'
  · intro q' it' j hrun
    cases hrun
  · intro l' r' q' it' j hne hl'
    have hj := h.running l' r' q' it' j hl'
    have hij : i ≠ j := by
      -- two loops that await one call are for one room
      rintro rfl
      rw [hc] at hj
      have hro : room = r' := congrArg Call.roomId (some.inj hj)
      subst hro
      exact hne (hon.1 l' ⟨_,hl',by simp⟩)
    refine (getElem?_setResult i res s j).trans ?_
    rw [hj,map_some,if_neg hij]
  · intro j cl hj hr
    have hj' := (getElem?_setResult i res s j).symm.trans hj
    obtain ⟨cl₀,hc₀,rfl⟩ := map_eq_some_iff.mp hj'
    by_cases hij : i = j
    · simp [hij] at hr
    · rw [if_neg hij] at hr ⊢
      obtain ⟨l',q',it',hl'⟩ := h.unfinished j cl₀ hc₀ hr
      refine .inr ⟨l',q',it',?_,hl'⟩
      rintro rfl
      rw [hl] at hl'
      cases hl'
      exact hij rfl

omit h hl in
variable (s l room queue im i) in
theorem deferreds_callback (obs : List ℕ) (res : Except X R) (d : ℕ) :
    (callback l room queue im.deferred obs res (setResult i res s)).deferreds.lookup d =
      if d = im.deferred then some ⟨some res,[]⟩ else s.deferreds.lookup d :=
  lookup_set _ _ _ _

theorem callback_items (observers : List ℕ) (res : Except X R) :
    ItemsSound (callback l room queue im.deferred observers res (setResult i res s)) := by
  have hc := h.running l room queue im i hl
  have hde := deferreds_callback s l room queue im i observers res
  have hi := items_setResult i res s
  refine ⟨?_,?_,?_,?_,?_,?_⟩
  · intro cl hm
    obtain ⟨j,hj⟩ := mem_iff_getElem?.mp hm
    have hj' := (getElem?_setResult i res s j).symm.trans hj
    obtain ⟨cl₀,hc₀,rfl⟩ := map_eq_some_iff.mp hj'
    rw [hde]
    by_cases hij : i = j
    · subst hij
      rw [hc] at hc₀
      cases hc₀
      exact ⟨[],by simp⟩
    · have hne : cl₀.deferred ≠ im.deferred := fun heq => hij (h.call_inj hc hc₀ heq.symm)
      rw [if_neg hij,if_neg hne]
      exact h.called cl₀ (mem_of_getElem? hc₀)
  · intro r' d hd
    have hne : d ≠ im.deferred := by
      rintro rfl
      exact h.queued_not_called hd (mem_map.mpr ⟨_,mem_of_getElem? hc,rfl⟩)
    obtain ⟨obs,ho⟩ := h.pending r' d hd
    exact ⟨obs,(hde d).trans ((if_neg hne).trans ho)⟩
  · exact (deferreds_setResult i res s).symm ▸ h.callsNodup
  · intro r'
    exact (hi r').symm ▸ h.itemsNodup r'
  · intro r₁ r₂ d h₁ h₂
    exact h.itemRoom r₁ r₂ d (hi r₁ ▸ h₁) (hi r₂ ▸ h₂)
  · intro r'
    exact (hi r').symm ▸ h.groups r'

omit hl in
theorem callback_results {obs : List ℕ} (hdf : s.deferreds.lookup im.deferred = some ⟨none,obs⟩)
    (res : Except X R) :
    ResultsSound (callback l room queue im.deferred obs res (setResult i res s)) := by
  have hde := deferreds_callback s l room queue im i obs res
  have hr := lookup_foldl_set obs (fun _ => res) s.returned
  have ho := fun n => h.observers _ _ n hdf
  refine ⟨?_,?_,?_,?_⟩
  · intro d x hd
    rw [hde] at hd
    split at hd
    · rename_i heq
      rw [heq]
      exact h.deferredIds _ _ hdf
    · exact h.deferredIds d x hd
  · intro d x n hd hn
    rw [hde] at hd
    split at hd
    · rw [← some.inj hd] at hn
      cases hn
    · exact h.observers d x n hd hn
  · intro n hn
    refine (hr n).trans ?_
    rw [if_neg (fun hm => hn (ho n hm).1)]
    exact h.unobserved n hn
  · intro n hn
    obtain ⟨c,x,hc,hx,hw,hret⟩ := h.outcome n hn
    by_cases heq : c.deferred = im.deferred
    · rw [heq,hdf] at hx
      have hm : n ∈ obs := by
        rw [← some.inj hx] at hw
        exact hw rfl
      exact ⟨c,⟨some res,[]⟩,hc,(hde _).trans (if_pos heq),by simp,(hr n).trans (if_pos hm)⟩
    · have hnot : n ∉ obs := by
        intro hm
        obtain ⟨-,c',hc',heq'⟩ := ho n hm
        rw [hc] at hc'
        exact heq (some.inj hc' ▸ heq')
      exact ⟨c,x,hc,(hde _).trans ((if_neg heq).trans hx),hw,
        (hr n).trans ((if_neg hnot).trans hret)⟩

theorem complete_eq (res : Except X R) :
    ∃ obs, s.deferreds.lookup im.deferred = some ⟨none,obs⟩ ∧ complete l res s =
        callback l room queue im.deferred obs res (setResult i res s) := by
  obtain ⟨obs,hd⟩ := h.called _ (mem_of_getElem? (h.running l room queue im i hl))
  refine ⟨obs,hd,?_⟩
  simp only [complete,hl,hd]

end Callback

theorem complete_eq_self {res : Except X R}
    (h : ∀ room queue it i, s.loops.lookup l ≠ some ⟨room,.running queue it i⟩) :
    complete l res s = s := by
  unfold complete
  split
  · rename_i room queue it i hl
    exact absurd hl (h room queue it i)
  · rfl

theorem complete_sound (h : Sound s) (l : ℕ) (res : Except X R) :
    Sound (complete l res s) ∧
      (complete l res s).currentlyPersistingRooms = s.currentlyPersistingRooms ∧
        ∀ room, queued (complete l res s) room = queued s room := by
  by_cases hr : ∃ room queue it i, s.loops.lookup l = some ⟨room,.running queue it i⟩
  · obtain ⟨room,queue,it,i,hl⟩ := hr
    obtain ⟨obs,hd,heq⟩ := complete_eq h hl res
    rw [heq]
    exact ⟨⟨callback_loops h hl obs res,callback_items h hl obs res,
      callback_results h hd res⟩,rfl,fun _ => rfl⟩
  · push Not at hr
    rw [complete_eq_self hr]
    exact ⟨h,rfl,fun _ => rfl⟩

end Complete

theorem step_sound (op : Op E X R) (s : EventPersistenceQueue E X R) (h : Sound s ∧ Idle s) :
    Sound (step op s) ∧ Idle (step op s) := by
  obtain ⟨hs,hi⟩ := h
  cases op with
  | addToQueue r tk =>
    exact ⟨handleQueue_sound (enqueue_sound hs r tk) r,addToQueue_idle hs hi r tk⟩
  | observe n => exact ⟨observe_sound hs n,observe_idle hi n⟩
  | handleQueue r => exact ⟨handleQueue_sound hs r,handleQueue_idle hi r⟩
  | next l => exact ⟨next_sound hs l,next_idle hs hi l⟩
  | complete l res =>
    obtain ⟨hso,hp,hq⟩ := complete_sound hs l res
    refine ⟨hso,fun r hn => ?_⟩
    rw [step,hp] at hn
    rw [step,hq]
    exact hi r hn

section Drained

variable {l : ℕ} {room : String}

def drainOps (l : ℕ) : List (Except X R) → List (Op E X R)
  | [] => [.next l]
  | result::results => .next l::.complete l result::drainOps l results

def Ready (s : EventPersistenceQueue E X R) (l : ℕ) (room : String) : Prop :=
  ∃ phase, s.loops.lookup l = some ⟨room,phase⟩ ∧
    (phase = .starting ∨ ∃ queue, phase = .draining queue)

theorem next_eq_drain (h : Sound s) (hr : Ready s l room) :
    ∃ s₀ q, Sound s₀ ∧ s₀.eventPersistQueues.lookup room = some q ∧
      queued s₀ room = queued s room ∧ next l s = drain l room q s₀ := by
  obtain ⟨ph,hl,rfl | ⟨q,rfl⟩⟩ := hr
  · refine ⟨(setDefaultQueue room s).2,(setDefaultQueue room s).1,setDefaultQueue_sound h room,
      setDefaultQueue_lookup room s,queued_setDefaultQueue h room room,?_⟩
    rw [next,hl]
  · refine ⟨s,q,h,h.holds l room _ q hl rfl,rfl,?_⟩
    rw [next,hl]

theorem next_empty (h : Sound s) (hr : Ready s l room) (he : queued s room = []) :
    room ∉ (next l s).currentlyPersistingRooms := by
  obtain ⟨s₀,q,-,hlo,hq,heq⟩ := next_eq_drain h hr
  rw [he,queued_of_lookup hlo] at hq
  rw [heq,drain,hq]
  exact notMem_erase _ _

theorem next_item (h : Sound s) (hr : Ready s l room) {it : Item E} {rs : List (Item E)}
    (hi : queued s room = it::rs) :
    (∃ q i, (next l s).loops.lookup l = some ⟨room,.running q it i⟩) ∧
      queued (next l s) room = rs := by
  obtain ⟨s₀,q,hs₀,hlo,hq,heq⟩ := next_eq_drain h hr
  have hs := queued_setDeque hs₀ hlo rs room
  rw [hi,queued_of_lookup hlo] at hq
  rw [heq,drain,hq]
  refine ⟨⟨q,s₀.calls.length,?_⟩,hs.trans (if_pos rfl)⟩
  exact (lookup_set _ _ _ _).trans (if_pos rfl)

theorem complete_running (h : Sound s) {q : ℕ} {it : Item E} {i : ℕ}
    (hl : s.loops.lookup l = some ⟨room,.running q it i⟩) (res : Except X R) :
    Ready (complete l res s) l room := by
  obtain ⟨obs,-,heq⟩ := complete_eq h hl res
  rw [heq]
  exact ⟨_,(lookup_set _ _ _ _).trans (if_pos rfl),.inr ⟨q,rfl⟩⟩

theorem run_drainOps (rs : List (Except X R)) (h : Sound s) (hr : Ready s l room)
    (hle : rs.length = (queued s room).length) :
    room ∉ (run (drainOps l rs) s).currentlyPersistingRooms := by
  induction rs generalizing s with
  | nil => exact next_empty h hr (length_eq_zero_iff.mp hle.symm)
  | cons res rs ih =>
    cases hi : queued s room with
    | nil => simp [hi] at hle
    | cons it tl =>
      obtain ⟨⟨q,i,hru⟩,hq⟩ := next_item h hr hi
      have hn := next_sound h l
      obtain ⟨hs,-,hq'⟩ := complete_sound hn l res
      have hlength : rs.length = (queued (complete l res (next l s)) room).length := by
        rw [hq',hq]
        simpa [hi] using hle
      exact ih hs (complete_running hn hru res) hlength

theorem complete_ready (h : Sound s) (hm : room ∈ s.currentlyPersistingRooms) :
    ∃ l, ∀ res, Ready (complete l res s) l room := by
  obtain ⟨l,ph,hl,hp⟩ := (h.persisting room).mp hm
  refine ⟨l,fun res => ?_⟩
  have hi : (ph = .starting ∨ ∃ q, ph = .draining q) → Ready (complete l res s) l room := by
    intro hr
    rw [complete_eq_self]
    · exact ⟨ph,hl,hr⟩
    · intro r' q it i hru
      rw [hl] at hru
      cases hru
      rcases hr with hr | ⟨_,hr⟩ <;> cases hr
  cases ph with
  | starting => exact hi (.inl rfl)
  | draining q => exact hi (.inr ⟨q,rfl⟩)
  | running q it i => exact complete_running h hl res
  | finished => exact absurd rfl hp

end Drained

section Exact

variable {room : String}

theorem Sound.one_running (h : Sound s) {i j : ℕ} {cl cl' : Call E X R} (hi : s.calls[i]? = some cl)
    (hj : s.calls[j]? = some cl') (hro : cl.roomId = cl'.roomId) (hr : cl.result = none)
    (hr' : cl'.result = none) : i = j := by
  obtain ⟨l,q,it,hl⟩ := h.unfinished i cl hi hr
  obtain ⟨l',q',it',hl'⟩ := h.unfinished j cl' hj hr'
  have heq : l' = l := (h.only hl (by simp)).1 l' ⟨_,hro ▸ hl',by simp⟩
  rw [heq,hl] at hl'
  have hp := congrArg Loop.phase (some.inj hl')
  injection hp

theorem Sound.returned_eq (h : Sound s) {p : Caller E × ℕ} (hp : p ∈ callersOf s room)
    {res : Option (Except X R)} {obs : List ℕ}
    (hd : s.deferreds.lookup p.1.deferred = some ⟨res,obs⟩) :
    s.returned.lookup p.2 = if p.2 ∈ s.observed then res else none := by
  have hca := mem_zipIdx_iff_getElem?.mp (mem_of_mem_filter hp)
  split
  · next hn =>
    obtain ⟨c,x,hc,hx,-,hr⟩ := h.outcome p.2 hn
    rw [hca] at hc
    cases hc
    rw [hd] at hx
    cases hx
    exact hr
  · next hn => exact h.unobserved p.2 hn

theorem Sound.partition (h : Sound s) (room : String) :
    ∃ passed wt : List (List (Caller E × ℕ)), callersOf s room = passed.flatten ++ wt.flatten ∧
      List.Forall₂ (fun g cl => mergeAll (g.map (·.1.task)) = some cl.task ∧
        ∀ p ∈ g, s.returned.lookup p.2 = if p.2 ∈ s.observed then cl.result else none)
        passed (callsOf s room) ∧
      List.Forall₂ (fun g it => mergeAll (g.map (·.1.task)) = some it.task ∧
        ∀ p ∈ g, s.returned.lookup p.2 = none) wt (queued s room) := by
  obtain ⟨gs,hf,hh⟩ := h.groups room
  have hm : ∀ g ∈ gs, ∀ p ∈ g, p ∈ callersOf s room := by
    intro g hg p hp
    rw [hf]
    exact mem_flatten.mpr ⟨g,hg,hp⟩
  have hpa := forall₂_take_append _ _ _ hh
  have hw := forall₂_drop_append _ _ _ hh
  rw [forall₂_map_right_iff,forall₂_iff_zip] at hpa
  rw [forall₂_iff_zip] at hw
  refine ⟨_,_,?_,forall₂_iff_zip.mpr ⟨hpa.1,?_⟩,forall₂_iff_zip.mpr ⟨hw.1,?_⟩⟩
  · rw [← flatten_append,take_append_drop,hf]
  · intro g cl hz
    obtain ⟨ht,hd⟩ := hpa.2 hz
    obtain ⟨hg,hc⟩ := of_mem_zip hz
    refine ⟨ht,fun p hp => ?_⟩
    obtain ⟨obs,ho⟩ := h.called cl (mem_of_mem_filter hc)
    have hd' : p.1.deferred = cl.deferred := hd p hp
    rw [← hd'] at ho
    exact h.returned_eq (hm g (mem_of_mem_take hg) p hp) ho
  · intro g it hz
    obtain ⟨ht,hd⟩ := hw.2 hz
    obtain ⟨hg,hi⟩ := of_mem_zip hz
    refine ⟨ht,fun p hp => ?_⟩
    obtain ⟨obs,ho⟩ := h.pending room it.deferred (mem_map_of_mem hi)
    rw [← hd p hp] at ho
    rw [h.returned_eq (hm g (mem_of_mem_drop hg) p hp) ho]
    exact ite_self none

end Exact

section Callers

def Op.taskFor (room : String) : Op E X R → Option (Task E)
  | .addToQueue roomId task => if roomId = room then some task else none
  | _ => none

theorem callers_next (l : ℕ) : (next l s).callers = s.callers := by
  have hdrain : ∀ room queue (s : EventPersistenceQueue E X R),
      (drain l room queue s).callers = s.callers := by
    intro room queue s
    rw [drain]
    split <;> rfl
  rw [next]
  split
  · exact (hdrain _ _ _).trans (setDefaultQueue_frame _ s).2.2.2.1
  · exact hdrain _ _ _
  · rfl

theorem callers_complete (l : ℕ) (res : Except X R) : (complete l res s).callers = s.callers := by
  rw [complete]
  split
  · split <;> rfl
  · rfl

theorem callers_drainOps (l : ℕ) (rs : List (Except X R)) :
    (run (drainOps l rs) s).callers = s.callers := by
  induction rs generalizing s with
  | nil => exact callers_next l
  | cons res rs ih => exact (ih.trans (callers_complete l res)).trans (callers_next l)

theorem callers_handleQueue (room : String) : (handleQueue room s).callers = s.callers := by
  rw [handleQueue]
  split <;> rfl

theorem callers_addToQueue (room : String) (tk : Task E) :
    ∃ d, (addToQueue room tk s).callers = s.callers ++ [⟨room,tk,d⟩] := by
  rw [addToQueue,callers_handleQueue,← (setDefaultQueue_frame room s).2.2.2.1,enqueue]
  dsimp only
  split <;> exact ⟨_,rfl⟩

theorem callers_observe (n : ℕ) : (observe n s).callers = s.callers := by
  rw [observe]
  split
  · split
    · rfl
    · split <;> rfl
  · rfl

theorem tasks_step (op : Op E X R) (room : String) :
    (callersOf (step op s) room).map (·.1.task) =
      (callersOf s room).map (·.1.task) ++ (op.taskFor room).toList := by
  have hsame : ∀ {s' : EventPersistenceQueue E X R}, s'.callers = s.callers →
      (callersOf s' room).map (·.1.task) = (callersOf s room).map (·.1.task) ++ [] := by
    intro s' h
    rw [callersOf,h,append_nil]
    rfl
  cases op with
  | addToQueue r tk =>
    obtain ⟨d,hd⟩ := callers_addToQueue (s := s) r tk
    rw [step,callersOf_append hd]
    by_cases hr : r = room <;> simp [Op.taskFor,hr]
  | observe n => exact hsame (callers_observe n)
  | handleQueue r => exact hsame (callers_handleQueue r)
  | next l => exact hsame (callers_next l)
  | complete l res => exact hsame (callers_complete l res)

theorem tasks_run (ops : List (Op E X R)) (room : String) :
    (callersOf (run ops start) room).map (·.1.task) = ops.filterMap (Op.taskFor room) := by
  induction ops using reverseRecOn with
  | nil => rfl
  | append_singleton ops op ih =>
    rw [run,Runs.run_append,filterMap_append,← ih]
    exact tasks_step op room

end Callers

/-- Two tasks for one room that are passed as one, and a third one that comes while the callback
runs: the callback fails, and the next one is started. -/
def mergedTasks : List (Op ℕ String ℕ) :=
  [.addToQueue "!r:x" (.persistEvents [1] false),.addToQueue "!r:x" (.persistEvents [2] false),
    .next 2,.observe 0,.addToQueue "!r:x" .updateCurrentState,.complete 2 (.error "failed"),
    .next 2,.observe 1]

example : (run mergedTasks start).calls.map (fun call => (call.task,call.result)) =
      [(.persistEvents [1,2] false,some (.error "failed")),(.updateCurrentState,none)] ∧
    [0,1,2].map (fun n => (run mergedTasks start).returned.lookup n) =
      [some (.error "failed"),some (.error "failed"),none] :=
  ⟨rfl,rfl⟩

end Synapse.EventPersistenceQueue
