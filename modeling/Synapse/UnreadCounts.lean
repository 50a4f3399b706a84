import Synapse.PushActions

/-!
# Unread counts

The count of a room among the counts for all rooms of a user, and the counts of
the room by thread, are sums over the same summaries and actions. They make
different threads out to have a current summary, since the counts for all rooms
do not tell the threads of different rooms apart.
-/

set_option autoImplicit false

namespace Synapse.PushActions
open Dict
open List (foldl foldlRecOn map_congr_left map_cons max mem_filter mem_map sum_cons sum_map_add)

section Sums

variable {α β : Type}

theorem sum_filter (l : List α) (p : α → Bool) (w : α → ℕ) :
    ((l.filter p).map w).sum = (l.map (fun a => if p a then w a else 0)).sum := by
  induction l with
  | nil => rfl
  | cons a l ih =>
    rw [List.filter_cons,map_cons,sum_cons]
    split
    · rw [map_cons,sum_cons,ih]
    · rw [ih,zero_add]

theorem length_eq_sum (l : List α) : l.length = (l.map (fun _ => 1)).sum := by simp

variable [DecidableEq β]

theorem sum_by_value (f : α → β) (w : α → ℕ) (rws : List α) {vs : List β} (hn : vs.Nodup)
    (ha : ∀ a ∈ rws, f a ∈ vs) :
    (vs.map (fun v => ((rws.filter (fun a => f a = v)).map w).sum)).sum = (rws.map w).sum := by
  induction rws with
  | nil => simp
  | cons a rws ih =>
    have hr := ih (fun b hb => ha b (by simp [hb]))
    have hs : ∀ v, (((a::rws).filter (fun b => f b = v)).map w).sum =
        (if v = f a then w a else 0)+((rws.filter (fun b => f b = v)).map w).sum := by
      intro v
      by_cases hv : f a = v
      · simp [hv]
      · simp [hv,Ne.symm hv]
    have ho : (vs.map (fun v => if v = f a then w a else 0)).sum = w a := by
      have hf := sum_filter vs (fun v => v = f a) (fun _ => w a)
      simp only [decide_eq_true_eq] at hf
      rw [← hf,List.map_const',List.sum_replicate,← List.countP_eq_length_filter]
      have hc := List.count_eq_one_of_mem hn (ha a (by simp))
      simp only [List.count,beq_eq_decide] at hc
      rw [hc,one_smul]
    rw [map_congr_left (fun v _ => hs v),sum_map_add,hr,ho]
    rfl

theorem sum_groupBy (f : α → β) (p : β → Bool) (w : α → ℕ) (rws : List α) :
    ((groupBy f rws).map (fun g => if p g.1 then (g.2.map w).sum else 0)).sum =
      (rws.map (fun a => if p (f a) then w a else 0)).sum := by
  rw [← sum_by_value f _ rws (List.nodup_dedup (rws.map f))
    (fun a ha => List.mem_dedup.mpr (List.mem_map_of_mem ha)),groupBy,List.map_map]
  congr 1
  apply map_congr_left
  intro v _
  simp only [Function.comp_apply]
  have hg : ∀ a ∈ rws.filter (fun a => f a = v), (if p (f a) then w a else 0) =
      if p v then w a else 0 := by
    intro a ha
    rw [of_decide_eq_true (mem_filter.mp ha).2]
  rw [map_congr_left hg]
  split
  · rfl
  · simp

theorem mem_groupBy {f : α → β} {rw : List α} {g : β × List α} (h : g ∈ groupBy f rw) :
    g.2 = rw.filter (fun row => f row = g.1) ∧ ∃ row ∈ g.2, f row = g.1 := by
  obtain ⟨v,hv,rfl⟩ := mem_map.mp h
  obtain ⟨row,hr,rfl⟩ := mem_map.mp (List.mem_dedup.mp hv)
  exact ⟨rfl,row,by simp [hr],rfl⟩

end Sums

variable {t : Tables} {roomId userId : String} {rotated position : ℕ} {α : Type}
  {changed : String → ℕ → Bool}

theorem lookup_addCounts (q : α → Bool) (r : α → String) (n : α → ℕ) (rws : List α)
    (cts : Dict String ℕ) (roomId : String) :
    ((rws.foldl (fun cts row => if q row then addCount cts (r row) (n row) else cts)
      cts).lookup roomId).getD 0 = (cts.lookup roomId).getD 0 +
        (rws.map (fun row => if q row && r row = roomId then n row else 0)).sum := by
  induction rws generalizing cts with
  | nil => simp
  | cons row rws ih =>
    rw [List.foldl_cons,ih,map_cons,sum_cons,← add_assoc]
    cases q row with
    | false => simp
    | true =>
      simp only [if_true,Bool.true_and,decide_eq_true_eq]
      rw [addCount,lookup_set]
      by_cases hr : r row = roomId
      · rw [if_pos hr.symm,if_pos hr,hr]
        rfl
      · rw [if_neg (Ne.symm hr),if_neg hr,add_zero]

theorem totalNotify_addTo (cts : RoomNotifCounts) (tid : String) (n : NotifCounts) :
    (cts.addTo tid n).totalNotify = cts.totalNotify+n.notifyCount := by
  rw [RoomNotifCounts.addTo]
  split
  · simp only [RoomNotifCounts.totalNotify,NotifCounts.add]
    omega
  · simp only [RoomNotifCounts.totalNotify]
    have hs := sum_values_set cts.threads tid
      (((cts.threads.lookup tid).getD .zero).add n) NotifCounts.notifyCount
    have ho : ((cts.threads.lookup tid).map NotifCounts.notifyCount).getD 0 =
        ((cts.threads.lookup tid).getD .zero).notifyCount := by
      cases cts.threads.lookup tid <;> rfl
    have ha : (((cts.threads.lookup tid).getD .zero).add n).notifyCount =
        ((cts.threads.lookup tid).getD .zero).notifyCount+n.notifyCount := rfl
    omega

theorem totalNotify_foldl {g : RoomNotifCounts → α → RoomNotifCounts} {n : α → ℕ}
    (h : ∀ cts a, (g cts a).totalNotify = cts.totalNotify+n a) (rws : List α)
    (cts : RoomNotifCounts) : (rws.foldl g cts).totalNotify = cts.totalNotify+(rws.map n).sum := by
  induction rws generalizing cts with
  | nil => simp
  | cons row rws ih =>
    rw [List.foldl_cons,ih,h,map_cons,sum_cons,add_assoc]

theorem totalNotify_foldl_addTo (tid : α → String) (n : α → NotifCounts) (rw : List α)
    (cts : RoomNotifCounts) :
    (rw.foldl (fun cts a => cts.addTo (tid a) (n a)) cts).totalNotify =
      cts.totalNotify+(rw.map (fun a => (n a).notifyCount)).sum :=
  totalNotify_foldl (fun cts a => totalNotify_addTo cts (tid a) (n a)) rw cts

/-- A summary does not go beyond the rotation, and one that counts anything is
for a receipt before it. -/
def Summary.Within (rotated : ℕ) (s : Summary) : Prop :=
  s.streamOrdering ≤ rotated ∧ (s.notifCount ≠ 0 ∨ s.unreadCount ≠ 0 →
    ∀ last, s.lastReceiptStreamOrdering = some last → last < rotated)

def AllWithin (rotated : ℕ) (summary : Dict Key Summary) : Prop :=
  All (fun _ s => s.Within rotated) summary

theorem AllWithin.update {sy : Dict Key Summary} (h : AllWithin rotated sy) (key : Key)
    {s : Summary} (hs : s.Within rotated) : AllWithin rotated (updateSummary sy key s) := by
  rw [updateSummary]
  split
  · exact All.set h hs
  · exact h

theorem AllWithin.clear {sy : Dict Key Summary} (h : AllWithin rotated sy) (userId roomId : String)
    (receipt : ℕ) : AllWithin rotated (clearSummaries sy userId roomId rotated receipt) := by
  apply foldlRecOn _ _ h
  intro sy h key _
  split
  · exact h.update key ⟨le_refl _,fun hne => by simp at hne⟩
  · exact h

theorem lt_of_mem_notifUnreadCount {so : ℕ} {tid : Option String} {row : NotifCounts × String}
    (h : row ∈ getNotifUnreadCountForUserRoom changed t roomId userId so (some rotated) tid) :
    so < rotated := by
  rw [getNotifUnreadCountForUserRoom] at h
  split at h
  · cases h
  · split at h
    · cases h
    · rename_i hm
      simp only [Option.any_some,decide_eq_true_eq] at hm
      omega

theorem handleReceipt_within (changed : String → ℕ → Bool) (t : Tables) (r : Receipt)
    (h : AllWithin t.rotatedUpto t.summary) :
    ∃ acts sy, handleReceipt changed t r = { t with
      actions := acts
      summary := sy } ∧ AllWithin t.rotatedUpto sy := by
  refine ⟨_,_,rfl,?_⟩
  apply foldlRecOn
  · cases r.threadId with
    | none => exact h.clear _ _ _
    | some tid => exact h
  · intro sy hs row hr
    apply hs.update
    refine ⟨le_refl _,fun hne la hl => ?_⟩
    rw [← Option.some.inj hl]
    cases ht : r.threadId with
    | none =>
      simp only [ht] at hr
      exact lt_of_mem_notifUnreadCount hr
    | some tid =>
      simp only [ht] at hr
      split at hr
      · -- the thread has no unread actions, and its counts are 0
        rw [List.mem_singleton.mp hr] at hne
        simp [NotifCounts.zero] at hne
      · exact lt_of_mem_notifUnreadCount hr

theorem maxOrdering_le {rws : List PushAction} {n : ℕ} (h : ∀ a ∈ rws, a.streamOrdering ≤ n) :
    maxOrdering rws ≤ n := by
  rw [maxOrdering]
  induction rws with
  | nil => simp
  | cons a rws ih =>
    exact max_le (h a (by simp)) (ih (fun b hb => h b (by simp [hb])))

/-- What rotation makes of a thread: an action after the last receipt was
added. -/
def Rotated (t : Tables) (rotateTo : ℕ) (key : Key) (s : Summary) : Prop :=
  s.streamOrdering ≤ rotateTo ∧ ∀ last,
    (t.summary.lookup key).bind Summary.lastReceiptStreamOrdering = some last → last < rotateTo

theorem rotated_of_mem_groupBy {rot : ℕ} {col : PushAction → Bool} {g : Key × List PushAction}
    (h : g ∈ groupBy PushAction.key (rotatedActions t rot col)) (s : Summary)
    (hs : s.streamOrdering = maxOrdering g.2) : Rotated t rot g.1 s := by
  obtain ⟨hro,a,ha,hk⟩ := mem_groupBy h
  have hr : ∀ b ∈ g.2, b.streamOrdering ≤ rot ∧
      ((t.summary.lookup b.key).bind Summary.lastReceiptStreamOrdering).all
        (fun la => la < b.streamOrdering) := by
    intro b hb
    rw [hro] at hb
    have hb := mem_filter.mp (mem_filter.mp hb).1
    simp only [decide_eq_true_eq] at hb
    exact ⟨hb.2.2.1,hb.2.2.2.1⟩
  refine ⟨hs ▸ maxOrdering_le (fun b hb => (hr b hb).1),fun la hla => ?_⟩
  have hl := (hr a ha).2
  rw [hk,hla] at hl
  simp only [Option.all_some,decide_eq_true_eq] at hl
  exact hl.trans_le (hr a ha).1

theorem rotated_rotatedSummaries (t : Tables) (rot : ℕ) :
    All (Rotated t rot) (rotatedSummaries t rot) := by
  apply foldlRecOn (motive := All (Rotated t rot))
  · apply foldlRecOn (motive := All (Rotated t rot)) _ _ (all_empty _)
    intro summaries h g hg
    exact h.set (rotated_of_mem_groupBy hg _ rfl)
  · intro summaries h g hg
    split
    · rename_i old ho
      have hr := h g.1 old ho
      exact h.set hr
    · exact h.set (rotated_of_mem_groupBy hg _ rfl)

theorem rotateNotifsBeforeTxn_within (t : Tables) (rot : ℕ) (hle : t.rotatedUpto ≤ rot)
    (h : AllWithin t.rotatedUpto t.summary) :
    AllWithin rot (rotateNotifsBeforeTxn t rot).summary := by
  apply foldlRecOn (motive := fun sy => AllWithin rot sy)
  · intro key s hs
    obtain ⟨hb,hla⟩ := h key s hs
    exact ⟨hb.trans hle,fun hne la hl => (hla hne la hl).trans_le hle⟩
  · intro sy hsu row hrow
    have hr := rotated_rotatedSummaries t rot row.1 row.2 (AList.mem_lookup_iff.mpr hrow)
    exact All.set hsu ⟨hr.1,fun _ la hl => hr.2 la hl⟩

theorem rotateTo_bounds (t : Tables) (h : t.rotatedUpto ≤ t.eventToken) :
    ∃ rot, rotateNotifsTxn t = rotateNotifsBeforeTxn t rot ∧
      t.rotatedUpto ≤ rot ∧ rot ≤ t.eventToken := by
  refine ⟨_,rfl,?_⟩
  split
  · rename_i offset ho
    have hm := List.mem_of_getElem? ho
    rw [List.mem_insertionSort] at hm
    obtain ⟨a,ha,rfl⟩ := mem_map.mp hm
    have hl := of_decide_eq_true (mem_filter.mp ha).2
    exact ⟨le_min hl.le h,min_le_right _ _⟩
  · exact ⟨h,le_refl _⟩

theorem Maintained.within {isMine : String → Bool} (h : Maintained isMine t) :
    t.rotatedUpto ≤ t.eventToken ∧ AllWithin t.rotatedUpto t.summary := by
  induction h with
  | start => exact ⟨le_refl _,fun key s hs => by simp [noActions] at hs⟩
  | persist _ acts tk later _ ih => exact ⟨ih.1.trans later,ih.2⟩
  | receive _ receipts ih => exact ih
  | @handle t _ changed receiptToken ih =>
    suffices hf : ∀ rws : List Receipt, ∃ acts sy,rws.foldl (handleReceipt changed) t = { t with
          actions := acts
          summary := sy } ∧ AllWithin t.rotatedUpto sy by
      obtain ⟨acts,sy,hrun,hsu⟩ := hf
        (((t.receipts.filter (fun r => t.lastReceiptStreamId < r.streamId ∧
          r.streamId ≤ receiptToken ∧ isMine r.userId)).insertionSort
            (fun a b => a.streamId ≤ b.streamId)).take 100)
      rw [handleNewReceiptsForNotifsTxn]
      simp only [hrun]
      exact ⟨ih.1,hsu⟩
    intro rws
    induction rws using List.reverseRecOn with
    | nil => exact ⟨t.actions,t.summary,rfl,ih.2⟩
    | append_singleton rws r hr =>
      obtain ⟨acts,sy,hrun,hsu⟩ := hr
      rw [List.foldl_append,hrun]
      obtain ⟨acts',sum',hst,hsu'⟩ := handleReceipt_within changed
        { t with
          actions := acts
          summary := sy } r hsu
      exact ⟨acts',sum',hst,hsu'⟩
  | @rotate t _ ih =>
    obtain ⟨rot,hro,hle,ht⟩ := rotateTo_bounds t ih.1
    rw [hro]
    exact ⟨ht,rotateNotifsBeforeTxn_within t rot hle ih.2⟩

section Receipts

theorem getD_max?_le (l : List ℕ) (d n : ℕ) (hd : ∀ x ∈ l, d ≤ x) :
    l.max?.getD d ≤ n ↔ d ≤ n ∧ ∀ x ∈ l, x ≤ n := by
  cases hmax : l.max? with
  | none =>
    rw [List.max?_eq_none_iff.mp hmax]
    simp
  | some m =>
    constructor
    · intro hle
      have hm := List.max?_mem hmax
      exact ⟨(hd m hm).trans hle,(List.max?_le_iff hmax).mp hle⟩
    · rintro ⟨-,ha⟩
      exact (List.max?_le_iff hmax).mpr ha

theorem threadReceipt_eq (t : Tables) (userId roomId tid : String) (position : ℕ) :
    threadReceipt t userId roomId position tid =
      max ((maxReceipt t userId roomId (some tid)).getD 0) position := by
  apply eq_of_forall_ge_iff
  intro n
  rw [threadReceipt,max_le_iff,maxReceipt,getD_max?_le,getD_max?_le _ 0]
  · simp only [mem_map,mem_filter,decide_eq_true_eq]
    constructor
    · rintro ⟨hp,ha⟩
      refine ⟨⟨Nat.zero_le n,?_⟩,hp⟩
      rintro x ⟨r,⟨hr,ht,hu,hro,hth⟩,rfl⟩
      by_cases hl : position < r.eventStreamOrdering
      · exact ha _ ⟨r,⟨hr,hu,hro,hl,ht,hth⟩,rfl⟩
      · omega
    · rintro ⟨⟨-,ha⟩,hp⟩
      refine ⟨hp,?_⟩
      rintro x ⟨r,⟨hr,hu,hro,-,ht,hth⟩,rfl⟩
      exact ha _ ⟨r,⟨hr,ht,hu,hro,hth⟩,rfl⟩
  · exact fun x _ => Nat.zero_le x
  · intro x hx
    obtain ⟨r,hr,rfl⟩ := mem_map.mp hx
    exact (of_decide_eq_true (mem_filter.mp hr).2).2.2.1.le

variable {t : Tables} {userId rid : String} {pos : ℕ}
  (hreceipt : maxReceipt t userId rid none = some pos)

include hreceipt

theorem maxClause_eq (eng : Engine) (tid : String) :
    maxClause eng (maxReceipt t userId rid (some tid)) (maxReceipt t userId rid none) =
        some (threadReceipt t userId rid pos tid) := by
  rw [threadReceipt_eq,hreceipt]
  cases eng with
  | postgres =>
    cases maxReceipt t userId rid (some tid) <;> simp [maxClause]
  | sqlite => rfl

theorem afterReceipts_iff (tid : String) (so : ℕ) :
    afterReceipt (maxReceipt t userId rid (some tid)) so ∧
      afterReceipt (maxReceipt t userId rid none) so ↔ threadReceipt t userId rid pos tid < so := by
  rw [threadReceipt_eq,hreceipt]
  cases maxReceipt t userId rid (some tid) with
  | none =>
    simp only [afterReceipt,Option.all_none,Option.all_some,Option.getD_none,decide_eq_true_eq,
      true_and]
    omega
  | some m => simp [afterReceipt]

end Receipts

/-- The threads, of any room, that the counts for all rooms take from a
summary. -/
def seenThreadIds (engine : Engine) (t : Tables) (userId : String) : List String :=
  (currentSummaries engine t userId).map (fun row => row.1.threadId)

/-- The threads of a room that its own counts take from a summary. -/
def summarisedThreads (t : Tables) (roomId userId : String) (position : ℕ) : List String :=
  (roomSummaries t roomId userId position).map (fun row => row.1.threadId)

/-- The actions that the counts for all rooms add to the summaries of a room. -/
def addedForAll (engine : Engine) (t : Tables) (userId roomId : String) : ℕ :=
  ((unreadActions t userId).map (fun a => if t.rotatedUpto < a.streamOrdering ∧
    a.key.threadId ∈ seenThreadIds engine t userId ∧ a.key.roomId = roomId then 1 else 0)).sum +
  ((unreadActions t userId).map (fun a =>
    if a.key.threadId ∉ seenThreadIds engine t userId ∧ a.key.roomId = roomId then 1 else 0)).sum

/-- The actions that the counts of a room add to its summaries. -/
def addedForRoom (t : Tables) (roomId userId : String) (position : ℕ) : ℕ :=
  (t.actions.map (fun a => if a.key.userId = userId ∧ a.key.roomId = roomId ∧
    t.rotatedUpto < a.streamOrdering ∧
    a.key.threadId ∈ summarisedThreads t roomId userId position ∧ a.notif then 1 else 0)).sum +
  ((roomActions t roomId userId position).map (fun a =>
    if a.key.threadId ∉ summarisedThreads t roomId userId position ∧ a.notif then 1 else 0)).sum

theorem lookup_getUnreadCountsByRoomForUserTxn (eng : Engine) (t : Tables)
    (userId roomId : String) :
    ((getUnreadCountsByRoomForUserTxn eng t userId).lookup roomId).getD 0 =
      ((currentSummaries eng t userId).map
        (fun row => if row.1.roomId = roomId then row.2.notifCount else 0)).sum +
      addedForAll eng t userId roomId := by
  have ha : ∀ {α : Type} (r : α → String) (n : α → ℕ) (rws : List α)
      (cts : Dict String ℕ), ((rws.foldl (fun cts row => addCount cts (r row) (n row))
        cts).lookup roomId).getD 0 = (cts.lookup roomId).getD 0 +
          (rws.map (fun row => if r row = roomId then n row else 0)).sum := by
    intro α r n rws cts
    have h := lookup_addCounts (fun _ : α => true) r n rws cts roomId
    simpa only [if_true,Bool.true_and,decide_eq_true_eq] using h
  have hr := sum_groupBy (fun a : PushAction => (a.key.roomId,a.key.threadId))
    (fun g => decide (g.2 ∈ seenThreadIds eng t userId) && decide (g.1 = roomId))
    (fun _ => 1) ((unreadActions t userId).filter (fun a => t.rotatedUpto < a.streamOrdering))
  have ho := sum_groupBy (fun a : PushAction => a.key.roomId) (fun r => r = roomId) (fun _ => 1)
    ((unreadActions t userId).filter (fun a => a.key.threadId ∉ seenThreadIds eng t userId))
  have hc := lookup_addCounts
    (fun g : (String × String) × List PushAction =>
      decide (g.1.2 ∈ seenThreadIds eng t userId))
    (fun g => g.1.1) (fun g => g.2.length)
  rw [sum_filter] at hr ho
  simp only [decide_eq_true_eq,Bool.and_eq_true,ite_and] at hr ho hc
  simp only [← length_eq_sum] at hr ho
  change ((foldl _ (foldl (fun cts (g : (String × String) × List PushAction) =>
    if g.1.2 ∈ seenThreadIds eng t userId then
      addCount cts g.1.1 g.2.length else cts) _ _) _).lookup roomId).getD 0 = _
  rw [ha,hc,ha,addedForAll,← add_assoc]
  simp only [ite_and]
  exact congrArg₂ (·+·) (congrArg₂ (·+·) (zero_add _) hr) ho

theorem totalNotify_addRecent (summaries : List (Sigma fun _ : Key => Summary))
    (cts : RoomNotifCounts) (row : NotifCounts × String) :
    (addRecent summaries cts row).totalNotify = cts.totalNotify +
      if row.2 ∈ summaries.map (fun row => row.1.threadId) then row.1.notifyCount else 0 := by
  rw [addRecent]
  by_cases hs : row.2 ∈ summaries.map (fun row => row.1.threadId)
  · rw [if_neg (not_not.mpr hs)]
    split <;> exact totalNotify_addTo _ _ _
  · rw [if_pos hs,if_neg hs,add_zero]

theorem sum_getNotifUnreadCountForUserRoom (userId : String) (p : String → Prop) [DecidablePred p]
    (hc : ∀ a ∈ t.actions, a.key.roomId = roomId → t.rotatedUpto < a.streamOrdering →
      changed roomId t.rotatedUpto) :
    ((getNotifUnreadCountForUserRoom changed t roomId userId t.rotatedUpto none none).map
      (fun row => if p row.2 then row.1.notifyCount else 0)).sum =
        (t.actions.map (fun a => if a.key.userId = userId ∧ a.key.roomId = roomId ∧
          t.rotatedUpto < a.streamOrdering ∧ p a.key.threadId ∧ a.notif then 1 else 0)).sum := by
  by_cases hro : changed roomId t.rotatedUpto
  · have hs := sum_groupBy (fun a : PushAction => a.key.threadId) (fun tid => p tid)
      (fun a => if a.notif then 1 else 0) (t.actions.filter (fun a =>
        a.key.userId = userId ∧ a.key.roomId = roomId ∧ t.rotatedUpto < a.streamOrdering))
    rw [sum_filter] at hs
    simp only [decide_eq_true_eq,← countP_eq_sum] at hs
    simp only [ite_and] at hs ⊢
    rw [← hs,getNotifUnreadCountForUserRoom,hro]
    simp [Function.comp_def,countActions]
  · have hn : ∀ a ∈ t.actions, ¬ (a.key.userId = userId ∧ a.key.roomId = roomId ∧
        t.rotatedUpto < a.streamOrdering ∧ p a.key.threadId ∧ a.notif) := by
      rintro a ha ⟨-,hr,hl,-⟩
      exact hro (hc a ha hr hl)
    rw [getNotifUnreadCountForUserRoom,map_congr_left (fun a ha => if_neg (hn a ha))]
    simp [hro]

theorem totalNotify_getUnreadCountsByPosTxn (userId : String) (position : ℕ)
    (hc : ∀ a ∈ t.actions, a.key.roomId = roomId → t.rotatedUpto < a.streamOrdering →
      changed roomId t.rotatedUpto) :
    (getUnreadCountsByPosTxn changed t roomId userId position).totalNotify =
      ((roomSummaries t roomId userId position).map (fun row => row.2.notifCount)).sum +
      addedForRoom t roomId userId position := by
  have ho := sum_groupBy (fun a : PushAction => a.key.threadId) (fun _ => true)
    (fun a => if a.notif then 1 else 0) ((roomActions t roomId userId position).filter
      (fun a => a.key.threadId ∉ summarisedThreads t roomId userId position))
  rw [sum_filter] at ho
  simp only [decide_eq_true_eq,← countP_eq_sum] at ho
  rw [getUnreadCountsByPosTxn,totalNotify_foldl_addTo,totalNotify_foldl (totalNotify_addRecent _),
    totalNotify_foldl_addTo,totalNotify_foldl_addTo,sum_getNotifUnreadCountForUserRoom userId
      (· ∈ (roomSummaries t roomId userId position).map (fun row => row.1.threadId)) hc]
  have hh : ∀ gs : List (String × List PushAction), (gs.map (fun _ => 0)).sum = 0 := by simp
  have he : (⟨.zero,∅⟩ : RoomNotifCounts).totalNotify = 0 := rfl
  rw [hh,he,zero_add,addedForRoom,← add_assoc]
  simp only [ite_and] at ho ⊢
  exact congrArg (_+·) ho

theorem threadReceipt_lt_of_summarised {tid : String} (h : AllWithin t.rotatedUpto t.summary)
    (ht : tid ∈ summarisedThreads t roomId userId position) :
    threadReceipt t userId roomId position tid < t.rotatedUpto := by
  obtain ⟨row,hr,rfl⟩ := mem_map.mp ht
  obtain ⟨he,hco⟩ := mem_filter.mp hr
  simp only [decide_eq_true_eq] at hco
  obtain ⟨hso,hl⟩ := h row.1 row.2 (AList.mem_lookup_iff.mpr he)
  have hc := hco.2.2.1
  rw [isCurrent] at hc
  cases hreceipt : row.2.lastReceiptStreamOrdering with
  | none =>
    simp only [hreceipt,decide_eq_true_eq] at hc
    omega
  | some la =>
    simp only [hreceipt,decide_eq_true_eq] at hc
    rw [← hc]
    exact hl hco.2.2.2 la hreceipt

theorem sum_currentSummaries (hreceipt : maxReceipt t userId roomId none = some position)
    (eng : Engine) :
    ((currentSummaries eng t userId).map
      (fun row => if row.1.roomId = roomId then row.2.notifCount else 0)).sum =
        ((roomSummaries t roomId userId position).map (fun row => row.2.notifCount)).sum := by
  rw [currentSummaries,roomSummaries,sum_filter,sum_filter]
  congr 1
  apply map_congr_left
  intro row _
  by_cases hr : row.1.roomId = roomId
  · subst hr
    simp only [maxClause_eq hreceipt]
    by_cases hc : row.2.notifCount = 0 <;> simp [hc]
  · simp [hr]

/-- The summary of a thread, where it is for the latest of the receipts. -/
def currentSummary (engine : Engine) (t : Tables) (key : Key) : Option Summary :=
  (t.summary.lookup key).filter (isCurrent (maxClause engine
    (maxReceipt t key.userId key.roomId (some key.threadId))
    (maxReceipt t key.userId key.roomId none)))

def summarised (engine : Engine) (t : Tables) (key : Key) : Bool :=
  (currentSummary engine t key).any (fun s => s.notifCount ≠ 0 ∨ s.unreadCount ≠ 0)

/-- The summary of a thread with this ID counts notifications, in whichever room. -/
def summarisedSomewhere (engine : Engine) (t : Tables) (userId threadId : String) : Bool :=
  t.summary.keys.any (fun key => key.userId = userId ∧ key.threadId = threadId ∧
    (currentSummary engine t key).any (fun s => s.notifCount ≠ 0))

/-- The action notifies of something in the room that is not read, and was rotated. -/
def rotatedUnread (t : Tables) (userId roomId : String) (a : PushAction) : Bool :=
  a.key.userId = userId ∧ a.key.roomId = roomId ∧ a.notif ∧
    (afterReceipt (maxReceipt t userId roomId (some a.key.threadId)) a.streamOrdering ∧
      afterReceipt (maxReceipt t userId roomId none) a.streamOrdering) ∧
    a.streamOrdering ≤ t.rotatedUpto

/-- The action is in no summary of its room, but that of another room hides it. -/
def hidden (engine : Engine) (t : Tables) (userId roomId : String) (a : PushAction) : Bool :=
  rotatedUnread t userId roomId a ∧ summarised engine t a.key = false ∧
    summarisedSomewhere engine t userId a.key.threadId

/-- The summary of the thread counts no notifications, nor does one of another room. -/
def recounted (engine : Engine) (t : Tables) (userId roomId : String) (a : PushAction) : Bool :=
  rotatedUnread t userId roomId a ∧ summarised engine t a.key ∧
    summarisedSomewhere engine t userId a.key.threadId = false

theorem currentSummary_any {engine : Engine} {key : Key} {p : Summary → Prop} [DecidablePred p] :
    (currentSummary engine t key).any (fun s => p s) = true ↔ ∃ s, ⟨key,s⟩ ∈ t.summary.entries ∧
      isCurrent (maxClause engine (maxReceipt t key.userId key.roomId (some key.threadId))
        (maxReceipt t key.userId key.roomId none)) s ∧ p s := by
  simp only [currentSummary,Option.any_eq_true,Option.filter_eq_some_iff,decide_eq_true_eq,
    and_assoc,← AList.mem_lookup_iff,Option.mem_def]

theorem mem_seenThreadIds {engine : Engine} {threadId : String} :
    threadId ∈ seenThreadIds engine t userId ↔
      summarisedSomewhere engine t userId threadId = true := by
  simp only [seenThreadIds,currentSummaries,summarisedSomewhere,mem_map,mem_filter,
    List.any_eq_true,decide_eq_true_eq,currentSummary_any]
  constructor
  · rintro ⟨⟨key,s⟩,⟨hmem,rfl,hcount,hcurrent⟩,rfl⟩
    have hkey : key ∈ t.summary := mem_iff_lookup.mpr ⟨s,AList.mem_lookup_iff.mpr hmem⟩
    exact ⟨key,AList.mem_keys.mp hkey,rfl,rfl,s,hmem,hcurrent,hcount⟩
  · rintro ⟨key,-,rfl,rfl,s,hmem,hcurrent,hcount⟩
    exact ⟨⟨key,s⟩,⟨hmem,rfl,hcount,hcurrent⟩,rfl⟩

theorem mem_summarisedThreads {key : Key}
    (hreceipt : maxReceipt t key.userId key.roomId none = some position) (engine : Engine) :
    key.threadId ∈ summarisedThreads t key.roomId key.userId position ↔
      summarised engine t key = true := by
  simp only [summarisedThreads,roomSummaries,summarised,mem_map,mem_filter,decide_eq_true_eq,
    currentSummary_any,maxClause_eq hreceipt]
  constructor
  · rintro ⟨⟨⟨userId,roomId,threadId⟩,s⟩,⟨hmem,rfl,rfl,hcurrent,hcount⟩,rfl⟩
    exact ⟨s,hmem,hcurrent,hcount⟩
  · rintro ⟨s,hmem,hcurrent,hcount⟩
    exact ⟨⟨key,s⟩,⟨hmem,rfl,rfl,hcurrent,hcount⟩,rfl⟩

theorem addedForAll_add (hreceipt : maxReceipt t userId roomId none = some position)
    (hw : AllWithin t.rotatedUpto t.summary) (engine : Engine) :
    addedForAll engine t userId roomId+t.actions.countP (hidden engine t userId roomId) =
      addedForRoom t roomId userId position+
        t.actions.countP (recounted engine t userId roomId) := by
  rw [addedForAll,addedForRoom,unreadActions,roomActions,sum_filter,sum_filter,sum_filter,
    countP_eq_sum,countP_eq_sum,← sum_map_add,← sum_map_add,← sum_map_add,← sum_map_add]
  congr 1
  apply map_congr_left
  intro a ha
  by_cases hro : a.key.roomId = roomId
  swap
  · simp [hro,hidden,recounted,rotatedUnread]
  by_cases hu : a.key.userId = userId
  swap
  · simp [hu,hidden,recounted,rotatedUnread]
  cases hn : a.notif with
  | false => simp [hn,hidden,recounted,rotatedUnread]
  | true =>
    subst hro hu
    have haf := afterReceipts_iff hreceipt a.key.threadId a.streamOrdering
    simp only [hidden,recounted,rotatedUnread,hn,mem_seenThreadIds,
      mem_summarisedThreads hreceipt engine]
    by_cases hr : threadReceipt t a.key.userId a.key.roomId position a.key.threadId <
        a.streamOrdering
    · -- unread: counted on both sides unless a summary has counted it
      obtain ⟨h1,h2⟩ := haf.mpr hr
      by_cases hl : t.rotatedUpto < a.streamOrdering
      · cases summarisedSomewhere engine t a.key.userId a.key.threadId <;>
          cases summarised engine t a.key <;> simp [hr,hl,h1,h2,not_le.mpr hl]
      · cases summarisedSomewhere engine t a.key.userId a.key.threadId <;>
          cases summarised engine t a.key <;> simp [hr,hl,h1,h2,not_lt.mp hl]
    · -- read: a summary that counts is for a receipt before the rotation
      have hnot : ¬ (t.rotatedUpto < a.streamOrdering ∧ summarised engine t a.key = true) := by
        rintro ⟨hl,hs⟩
        have hlt := threadReceipt_lt_of_summarised hw
          ((mem_summarisedThreads hreceipt engine).mpr hs)
        omega
      have hread := mt haf.mp hr
      simp [hr,hnot,hread]

/-- The count of a room among the counts for all rooms is the sum of its counts over the main
timeline and the threads, if and only if as many actions are hidden by the summary of another
room as are counted though there is a summary. -/
theorem unreadCounts_agree_iff (engine : Engine) (isMine : String → Bool)
    (changed : String → ℕ → Bool) (t : Tables) (userId roomId : String) (position joined : ℕ)
    (hmaintained : Maintained isMine t)
    (hchanged : ∀ a ∈ t.actions, a.key.roomId = roomId → t.rotatedUpto < a.streamOrdering →
      changed roomId t.rotatedUpto) (hreceipt : maxReceipt t userId roomId none = some position) :
    ((getUnreadCountsByRoomForUserTxn engine t userId).lookup roomId).getD 0 =
      (getUnreadCountsByReceiptTxn changed t roomId userId joined).totalNotify ↔
    t.actions.countP (hidden engine t userId roomId) =
      t.actions.countP (recounted engine t userId roomId) := by
  rw [lookup_getUnreadCountsByRoomForUserTxn,getUnreadCountsByReceiptTxn,hreceipt,
    Option.getD_some,totalNotify_getUnreadCountsByPosTxn userId position hchanged,
    sum_currentSummaries hreceipt engine]
  have hadd := addedForAll_add hreceipt hmaintained.within.2 engine
  omega

def notified (roomId : String) (streamOrdering : ℕ) : PushAction :=
  ⟨⟨"@a:x",roomId,mainTimeline⟩,streamOrdering,true,false,true⟩

def readUpto (roomId : String) (eventStreamOrdering streamId : ℕ) : Receipt :=
  ⟨roomId,"m.read","@a:x",none,eventStreamOrdering,streamId⟩

def handledReceipts : Tables :=
  handleNewReceiptsForNotifsTxn (fun _ _ => true) (fun _ => true) 2
    { rotateNotifsTxn { noActions with
        actions := [notified "!r:x" 2,notified "!s:x" 3,notified "!s:x" 4]
        eventToken := 4 } with
      receipts := [readUpto "!r:x" 1 1,readUpto "!s:x" 1 2] }

theorem maintained_handledReceipts : Maintained (fun _ => true) handledReceipts :=
  .handle (.receive (.rotate (.persist .start
    [notified "!r:x" 2,notified "!s:x" 3,notified "!s:x" 4] 4 (by decide) (by decide))) _) _ _

def notifiedLater : Tables :=
  { handledReceipts with
    actions := handledReceipts.actions ++ [notified "!s:x" 5]
    eventToken := 5 }

theorem unreadCounts_agree_iff_notifiedLater :
    ((getUnreadCountsByRoomForUserTxn .postgres notifiedLater "@a:x").lookup "!s:x").getD 0 = 3 ∧
    ((getUnreadCountsByRoomForUserTxn .postgres notifiedLater "@a:x").lookup "!s:x").getD 0 =
      (getUnreadCountsByReceiptTxn (fun _ _ => true) notifiedLater "!s:x" "@a:x" 0).totalNotify :=
  ⟨by decide +kernel,
    (unreadCounts_agree_iff .postgres (fun _ => true) (fun _ _ => true) notifiedLater
      "@a:x" "!s:x" 1 0
      (.persist maintained_handledReceipts [notified "!s:x" 5] 5 (by decide +kernel)
        (by decide +kernel)) (fun _ _ _ _ => rfl) (by decide +kernel)).mpr (by decide +kernel)⟩

def readOnward : Tables :=
  { handledReceipts with receipts := [readUpto "!r:x" 1 1,readUpto "!s:x" 3 3] }

/-- The summary of the main timeline of one room hides what is unread in the
main timeline of the other. -/
theorem unreadCounts_disagree :
    Maintained (fun _ => true) readOnward ∧
    maxReceipt readOnward "@a:x" "!r:x" none = some 1 ∧
    maxReceipt readOnward "@a:x" "!s:x" none = some 3 ∧
    (∀ engine, ((getUnreadCountsByRoomForUserTxn engine readOnward "@a:x").lookup
      "!s:x").getD 0 = 0) ∧
    (getUnreadCountsByReceiptTxn (fun _ _ => true) readOnward "!s:x" "@a:x" 0).totalNotify = 1 := by
  refine ⟨.receive maintained_handledReceipts _,by decide +kernel,by decide +kernel,?_,
    by decide +kernel⟩
  intro engine
  cases engine <;> decide +kernel

end Synapse.PushActions
