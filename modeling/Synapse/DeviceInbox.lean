import Synapse.Runs
import Synapse.StreamChangeCache

/-!
# The inbox of a device

Messages to devices wait in a table until the device has fetched them, and are
deleted when it shows the token that it got with them. A cache of the last change for
each user saves queries, and another one, of the last deletions, saves deletions.
-/

set_option autoImplicit false

namespace Synapse.DeviceInbox
open List Bool Runs

section Model

variable (M : Type)

structure Row where
  userId : String
  deviceId : String
  streamId : ℤ
  message : M

structure Store where
  deviceInbox : List (Row M)
  deviceInboxStreamCache : StreamChangeCache.Cache String
  lastDeviceDeleteCache : Dict (String × String) ℤ
  token : ℤ

end Model

variable {M : Type}

/-- `user_id = ? AND device_id = ? AND ? < stream_id AND stream_id <= ?` -/
def Row.within (userId deviceId : String) (fromStreamId toStreamId : ℤ) (row : Row M) : Bool :=
  row.userId = userId ∧ row.deviceId = deviceId ∧ fromStreamId < row.streamId ∧
    row.streamId ≤ toStreamId

section Queries

variable (s : Store M) (userId deviceId : String)

def selectRows (fromStreamId toStreamId : ℤ) (limit : ℕ) : List (Row M) :=
  ((s.deviceInbox.filter (Row.within userId deviceId fromStreamId toStreamId)).insertionSort
    (fun row row' => row.streamId ≤ row'.streamId)).take limit

def getDeviceMessagesTxn (fromStreamId toStreamId : ℤ) (limit : ℕ) : List M × ℤ :=
  let rows := selectRows s userId deviceId fromStreamId toStreamId limit
  let lastProcessedStreamPos := rows.foldl (fun _ row => row.streamId) toStreamId
  if rows.length = limit then (rows.map Row.message,lastProcessedStreamPos)
  else (rows.map Row.message,toStreamId)

def getMessagesForDevice (fromStreamId toStreamId : ℤ) (limit : ℕ) : List M × ℤ :=
  if !StreamChangeCache.hasEntityChanged s.deviceInboxStreamCache userId fromStreamId then
    ([],toStreamId)
  else getDeviceMessagesTxn s userId deviceId fromStreamId toStreamId limit

/-- The highest stream ID that was deleted, if there may be more, and the number of messages. -/
def deleteMessagesForDeviceBetween (fromStreamId : Option ℤ) (toStreamId : ℤ) (limit : ℕ) :
    (Option ℤ × ℕ) × Store M :=
  let fromStreamId := fromStreamId.getD 0
  match ((selectRows s userId deviceId fromStreamId toStreamId limit).map Row.streamId).max? with
  | none => ((none,0),s)
  | some maxStreamId =>
    let kept := s.deviceInbox.filter
      (fun row => !row.within userId deviceId fromStreamId maxStreamId)
    let numDeleted := s.deviceInbox.length-kept.length
    ((if numDeleted < limit then none else some maxStreamId,numDeleted),
      { s with deviceInbox := kept })

end Queries

structure Deletion where
  userId : String
  deviceId : String
  upToStreamId : ℤ
  fromStreamId : Option ℤ
  count : ℕ

section Deletions

variable (s : Store M)

/-- The part of `delete_messages_for_device` before its loop, `none` if it returns at once. -/
def beginDeletion (userId deviceId : String) (upToStreamId : ℤ) : Option Deletion :=
  match s.lastDeviceDeleteCache.lookup (userId,deviceId) with
  | some lastDeletedStreamId =>
    if lastDeletedStreamId ≠ 0 ∧ !StreamChangeCache.hasEntityChanged s.deviceInboxStreamCache userId
        lastDeletedStreamId then none
    else some ⟨userId,deviceId,upToStreamId,none,0⟩
  | none => some ⟨userId,deviceId,upToStreamId,none,0⟩

def deletionRound (d : Deletion) : Option Deletion × Store M :=
  match deleteMessagesForDeviceBetween s d.userId d.deviceId d.fromStreamId d.upToStreamId 1000 with
  | ((some fromStreamId,loopCount),s) =>
    (some { d with fromStreamId := some fromStreamId, count := d.count+loopCount },s)
  | ((none,_),s) =>
    let updatedLastDeletedStreamId := (s.lastDeviceDeleteCache.lookup (d.userId,d.deviceId)).getD 0
    (none,{ s with lastDeviceDeleteCache := (s.lastDeviceDeleteCache.insert (d.userId,d.deviceId)
      (max updatedLastDeletedStreamId d.upToStreamId)) })

end Deletions

section Steps

structure Fetch (M : Type) where
  fromStreamId : ℤ
  next : ℤ
  messages : List M

/-- The store and the device, with the calls that delete messages, and a history: all messages
that were ever added and all changes that the cache was told of. -/
structure World (M : Type) where
  store : Store M
  deletions : List Deletion
  deviceToken : ℤ
  fetches : List (Fetch M)
  added : List (Row M)
  notified : List (String × ℤ)

inductive Op (M : Type) where
  | commit (rows : List (Row M))
  | notify (userId : String) (streamId : ℤ)
  | setCacheFactor (factor : ℤ → ℤ)
  | advance (token : ℤ)
  | fetch (toStreamId : ℤ) (limit : ℕ)
  | deleteMessagesForDevice (userId deviceId : String) (upToStreamId : ℤ)
  | deletionRound (n : ℕ)
  | expire (userId deviceId : String)

def World.returned (w : World M) : List M := w.fetches.flatMap Fetch.messages

variable (userId deviceId : String)

def fetch (toStreamId : ℤ) (limit : ℕ) (w : World M) : World M :=
  let result := getMessagesForDevice w.store userId deviceId w.deviceToken toStreamId limit
  { w with
    deviceToken := result.2
    fetches := w.fetches ++ [⟨w.deviceToken,result.2,result.1⟩] }

def step (op : Op M) (w : World M) : World M :=
  match op with
  | .commit rows =>
    { w with
      store := { w.store with deviceInbox := w.store.deviceInbox ++ rows }
      added := w.added ++ rows }
  | .notify user streamId =>
    { w with
      store := { w.store with
        deviceInboxStreamCache := StreamChangeCache.step w.store.deviceInboxStreamCache
          (.entityHasChanged user streamId) }
      notified := w.notified ++ [(user,streamId)] }
  | .setCacheFactor factor =>
    { w with
      store := { w.store with
        deviceInboxStreamCache := StreamChangeCache.step w.store.deviceInboxStreamCache
          (.setCacheFactor factor) } }
  | .advance token => { w with store := { w.store with token := token } }
  | .fetch toStreamId limit => fetch userId deviceId toStreamId limit w
  | .deleteMessagesForDevice user device upToStreamId =>
    match beginDeletion w.store user device upToStreamId with
    | none => w
    | some d => { w with deletions := d::w.deletions }
  | .deletionRound n =>
    match w.deletions[n]? with
    | none => w
    | some d =>
      match deletionRound w.store d with
      | (none,s) => { w with store := s, deletions := w.deletions.eraseIdx n }
      | (some d,s) => { w with store := s, deletions := w.deletions.set n d }
  | .expire user device =>
    { w with
      store := { w.store with
        lastDeviceDeleteCache := w.store.lastDeviceDeleteCache.erase (user,device) } }

def start (cache : StreamChangeCache.Cache String) (token : ℕ) : World M where
  store := ⟨[],cache,∅,token⟩
  deletions := []
  deviceToken := 0
  fetches := []
  added := []
  notified := []

/-- Messages are added at increasing stream IDs, at most one for a device at each; the token
passes them when the cache has been told; the device fetches up to a token that has been
reached, and deletes up to one that it has been given. -/
def Allowed (op : Op M) (w : World M) : Prop :=
  match op with
  | .commit rows => (∀ row ∈ rows, w.store.token < row.streamId) ∧
      (∀ row ∈ rows, ∀ old ∈ w.added, old.streamId < row.streamId) ∧
      (∀ row ∈ rows, ∀ row' ∈ rows, row.streamId = row'.streamId) ∧
      rows.Pairwise (fun row row' => (row.userId,row.deviceId) ≠ (row'.userId,row'.deviceId))
  | .advance token => w.store.token ≤ token ∧
      ∀ row ∈ w.added, row.streamId ≤ token → (row.userId,row.streamId) ∈ w.notified
  | .fetch toStreamId _ => w.deviceToken ≤ toStreamId ∧ toStreamId ≤ w.store.token
  | .deleteMessagesForDevice user device upToStreamId => user = userId → device = deviceId →
      ∃ fetch ∈ w.fetches, upToStreamId = fetch.next
  | _ => True

instance decidableAllowed (op : Op M) (w : World M) : Decidable (Allowed userId deviceId op w) :=
  match op with
  | .commit _ => inferInstanceAs (Decidable (_ ∧ _ ∧ _ ∧ _))
  | .advance _ => inferInstanceAs (Decidable (_ ∧ _))
  | .fetch _ _ => inferInstanceAs (Decidable (_ ∧ _))
  | .deleteMessagesForDevice user device upToStreamId =>
    inferInstanceAs (Decidable (user = userId → device = deviceId →
      ∃ fetch ∈ w.fetches, upToStreamId = fetch.next))
  | .notify _ _ | .setCacheFactor _ | .deletionRound _ | .expire _ _ =>
    inferInstanceAs (Decidable True)

/-- A fetch that asks for no messages at all is told that there are none. -/
def PositiveLimit : Op M → Prop
  | .fetch _ limit => 0 < limit
  | _ => True

instance decidablePositiveLimit : ∀ op : Op M, Decidable (PositiveLimit op)
  | .fetch _ limit => inferInstanceAs (Decidable (0 < limit))
  | .commit _ | .advance _ | .deleteMessagesForDevice _ _ _ | .notify _ _ | .setCacheFactor _
  | .deletionRound _ | .expire _ _ => inferInstanceAs (Decidable True)

end Steps

section Sorted

variable {α : Type} {key : α → ℤ}

theorem filter_le_append {l : List α} (h : l.Pairwise (fun x y => key x ≤ key y)) {a b : ℤ}
    (hab : a ≤ b) :
    l.filter (fun x => key x ≤ a) ++ l.filter (fun x => a < key x ∧ key x ≤ b) =
      l.filter (fun x => key x ≤ b) := by
  induction l with
  | nil => rfl
  | cons x l ih =>
    obtain ⟨hx,hl⟩ := pairwise_cons.mp h
    by_cases hxa : key x ≤ a
    · have hxb : key x ≤ b := hxa.trans hab
      simp [hxa,hxb,← ih hl]
    · have hn : l.filter (fun x => key x ≤ a) = [] := by
        rw [filter_eq_nil_iff]
        intro y hy
        have := hx y hy
        simp only [decide_eq_true_eq]
        omega
      have hr := ih hl
      by_cases hxb : key x ≤ b
      · simpa [hxb,not_le.mp hxa,hn] using hr
      · simpa [hxa,hxb,hn] using hr

theorem filter_eq_of_imp {l l' : List α} {p q : α → Bool} (h : l.filter q = l'.filter q)
    (hpq : ∀ x, p x = true → q x = true) : l.filter p = l'.filter p := by
  have hp : ∀ l : List α, l.filter p = (l.filter q).filter p := by
    intro l
    rw [filter_filter]
    refine filter_congr (fun x _ => ?_)
    rw [Bool.eq_iff_iff,and_eq_true]
    exact ⟨fun hx => ⟨hx,hpq x hx⟩,And.left⟩
  rw [hp,h,← hp]

theorem take_eq_filter {l : List α} (h : l.Pairwise (fun x y => key x < key y)) {n : ℕ} {x : α}
    (hx : (l.take n).getLast? = some x) : l.take n = l.filter (fun y => key y ≤ key x) := by
  obtain ⟨front,hf⟩ := getLast?_eq_some_iff.mp hx
  have hs := h
  rw [← take_append_drop n l,pairwise_append] at hs
  have ht : (l.take n).filter (fun y => key y ≤ key x) = l.take n := by
    rw [filter_eq_self]
    intro y hy
    have hso := hs.1
    rw [hf,pairwise_append] at hso
    rw [hf] at hy
    rcases mem_append.mp hy with hy | hy
    · exact decide_eq_true (hso.2.2 y hy x (mem_singleton_self x)).le
    · rw [mem_singleton.mp hy]
      exact decide_eq_true le_rfl
  have hd : (l.drop n).filter (fun y => key y ≤ key x) = [] := by
    rw [filter_eq_nil_iff]
    intro y hy
    have := hs.2.2 x (mem_of_getLast? hx) y hy
    simp only [decide_eq_true_eq]
    omega
  conv_rhs => rw [← take_append_drop n l,filter_append,ht,hd,append_nil]

theorem foldl_last {l : List α} {x : α} (h : l.getLast? = some x) (b : ℤ) :
    l.foldl (fun _ y => key y) b = key x := by
  obtain ⟨front,rfl⟩ := getLast?_eq_some_iff.mp h
  rw [foldl_append]
  rfl

end Sorted

section Invariant

variable (userId deviceId : String)

def Row.isFor (row : Row M) : Bool := row.userId = userId ∧ row.deviceId = deviceId

def World.between (w : World M) (fromStreamId toStreamId : ℤ) : List (Row M) :=
  w.added.filter (Row.within userId deviceId fromStreamId toStreamId)

def World.upTo (w : World M) (toStreamId : ℤ) : List (Row M) :=
  (w.added.filter (Row.isFor userId deviceId)).filter (fun row => row.streamId ≤ toStreamId)

structure Inv (w : World M) : Prop where
  sorted : (w.added.filter (Row.isFor userId deviceId)).Pairwise
    (fun row row' => row.streamId < row'.streamId)
  reached : w.deviceToken ≤ w.store.token
  returned : w.returned = (w.upTo userId deviceId w.deviceToken).map Row.message
  fetched : ∀ fetch ∈ w.fetches, fetch.next ≤ w.deviceToken ∧
    fetch.messages = (w.between userId deviceId fetch.fromStreamId fetch.next).map Row.message
  waiting : w.store.deviceInbox.filter
      (fun row => row.isFor userId deviceId ∧ w.deviceToken < row.streamId) =
    w.added.filter (fun row => row.isFor userId deviceId ∧ w.deviceToken < row.streamId)
  deleting : ∀ d ∈ w.deletions, d.userId = userId → d.deviceId = deviceId →
    d.upToStreamId ≤ w.deviceToken
  inverse : StreamChangeCache.Inverse w.store.deviceInboxStreamCache
  covers : StreamChangeCache.Covers w.store.deviceInboxStreamCache w.notified
  told : ∀ row ∈ w.added, row.streamId ≤ w.store.token → (row.userId,row.streamId) ∈ w.notified

variable {userId deviceId} {w : World M}

theorem within_eq (row : Row M) (lo hi : ℤ) :
    row.within userId deviceId lo hi = (row.isFor userId deviceId &&
        decide (lo < row.streamId ∧ row.streamId ≤ hi)) := by
  simp only [Row.within,Row.isFor,decide_and,Bool.and_assoc]

theorem between_eq (w : World M) (lo hi : ℤ) :
    w.between userId deviceId lo hi = (w.added.filter (Row.isFor userId deviceId)).filter
        (fun row => lo < row.streamId ∧ row.streamId ≤ hi) := by
  rw [filter_filter]
  refine filter_congr (fun row _ => ?_)
  rw [within_eq,Bool.and_comm]

section

variable (h : Inv userId deviceId w)
include h

theorem Inv.selectRows_eq (hi : ℤ) (lim : ℕ) :
    selectRows w.store userId deviceId w.deviceToken hi lim =
      (w.between userId deviceId w.deviceToken hi).take lim := by
  have hf : w.store.deviceInbox.filter (Row.within userId deviceId w.deviceToken hi) =
      w.between userId deviceId w.deviceToken hi := by
    refine filter_eq_of_imp h.waiting (fun row hw => ?_)
    rw [within_eq,and_eq_true] at hw
    exact decide_eq_true ⟨hw.1,(of_decide_eq_true hw.2).1⟩
  have hs : (w.between userId deviceId w.deviceToken hi).Pairwise
      (fun row row' => row.streamId ≤ row'.streamId) := by
    rw [between_eq]
    exact (h.sorted.sublist filter_sublist).imp le_of_lt
  rw [selectRows,hf,hs.insertionSort_eq]

theorem Inv.fetch_result {hi : ℤ} {lim : ℕ} (hfr : w.deviceToken ≤ hi)
    (hto : hi ≤ w.store.token) (hli : 0 < lim) :
    ∃ next, w.deviceToken ≤ next ∧ next ≤ hi ∧
      getMessagesForDevice w.store userId deviceId w.deviceToken hi lim =
        ((w.between userId deviceId w.deviceToken next).map Row.message,next) ∧
      (next = hi ∨ (w.between userId deviceId w.deviceToken next).length = lim) := by
  unfold getMessagesForDevice
  split
  · next hu =>
    have hn : w.between userId deviceId w.deviceToken hi = [] := by
      rw [World.between,filter_eq_nil_iff]
      intro row hr hw
      simp only [Row.within,decide_eq_true_eq] at hw
      obtain ⟨hus,-,hlow,hh⟩ := hw
      have ht := h.told row hr (hh.trans hto)
      rw [hus] at ht
      have hc : StreamChangeCache.hasEntityChanged w.store.deviceInboxStreamCache userId
          w.deviceToken = true :=
        StreamChangeCache.hasEntityChanged_of_covers _ _ h.covers userId _ _ ht hlow
      rw [hc] at hu
      cases hu
    exact ⟨hi,hfr,le_rfl,by rw [hn]; rfl,.inl rfl⟩
  · unfold getDeviceMessagesTxn
    rw [h.selectRows_eq]
    dsimp only
    split
    · next hf =>
      have hs : (w.between userId deviceId w.deviceToken hi).Pairwise
          (fun row row' => row.streamId < row'.streamId) := by
        rw [between_eq]
        exact h.sorted.sublist filter_sublist
      cases hl : ((w.between userId deviceId w.deviceToken hi).take lim).getLast? with
      | none =>
        rw [getLast?_eq_none_iff] at hl
        rw [hl] at hf
        exact absurd hf (by simp; omega)
      | some row =>
        have hm := mem_of_mem_take (mem_of_getLast? hl)
        rw [between_eq,mem_filter,decide_eq_true_eq] at hm
        have hta : (w.between userId deviceId w.deviceToken hi).take lim =
            w.between userId deviceId w.deviceToken row.streamId := by
          rw [take_eq_filter hs hl,between_eq,between_eq,filter_filter]
          refine filter_congr (fun row' _ => ?_)
          rw [Bool.eq_iff_iff]
          simp only [and_eq_true,decide_eq_true_eq]
          omega
        refine ⟨row.streamId,hm.2.1.le,hm.2.2,?_,.inr ?_⟩
        · rw [foldl_last hl,hta]
        · rw [← hta]
          exact hf
    · next hf =>
      have hsh : (w.between userId deviceId w.deviceToken hi).length ≤ lim := by
        rw [length_take] at hf
        omega
      exact ⟨hi,hfr,le_rfl,by rw [take_of_length_le hsh],.inl rfl⟩

theorem Inv.upTo_append {lo hi : ℤ} (hle : lo ≤ hi) :
    w.upTo userId deviceId lo ++ w.between userId deviceId lo hi = w.upTo userId deviceId hi := by
  rw [between_eq]
  exact filter_le_append (h.sorted.imp le_of_lt) hle

theorem Inv.fetch {hi : ℤ} {lim : ℕ} (hfr : w.deviceToken ≤ hi) (hto : hi ≤ w.store.token)
    (hli : 0 < lim) : Inv userId deviceId (fetch userId deviceId hi lim w) := by
  obtain ⟨next,hge,hle,hre,-⟩ := h.fetch_result hfr hto hli
  have hw : DeviceInbox.fetch userId deviceId hi lim w = { w with
        deviceToken := next
        fetches := w.fetches ++ [⟨w.deviceToken,next,
          (w.between userId deviceId w.deviceToken next).map Row.message⟩] } := by
    rw [DeviceInbox.fetch,hre]
  rw [hw]
  exact
    { h with
      reached := hle.trans hto
      returned := by
        have hr := h.returned
        rw [World.returned] at hr ⊢
        rw [flatMap_append,hr,flatMap_singleton]
        rw [← map_append,h.upTo_append hge]
        rfl
      fetched := by
        refine forall_mem_append.mpr ⟨?_,forall_mem_singleton.mpr ⟨le_rfl,rfl⟩⟩
        exact fun f hf => ⟨(h.fetched f hf).1.trans hge,(h.fetched f hf).2⟩
      waiting := by
        refine filter_eq_of_imp h.waiting (fun row hn => decide_eq_true ?_)
        have hn := of_decide_eq_true hn
        exact ⟨hn.1,hge.trans_lt hn.2⟩
      deleting := fun d hd hu hde => (h.deleting d hd hu hde).trans hge }

theorem Inv.commit {rws : List (Row M)} (ha : Allowed userId deviceId (.commit rws) w) :
    Inv userId deviceId (step userId deviceId (.commit rws) w) := by
  obtain ⟨hnew,hi,hs,hd⟩ := ha
  have hfr : ∀ (p : Row M → Bool) {toStreamId : ℤ}, toStreamId ≤ w.store.token →
      (∀ row, p row = true → row.streamId ≤ toStreamId) →
        (w.added ++ rws).filter p = w.added.filter p := by
    intro p toStreamId hle hp
    rw [filter_append]
    have hn : rws.filter p = [] := by
      rw [filter_eq_nil_iff]
      intro row hr hpa
      have := hnew row hr
      have := hp row hpa
      omega
    rw [hn,append_nil]
  exact
    { h with
      sorted := by
        change ((w.added ++ rws).filter _).Pairwise _
        rw [filter_append,pairwise_append]
        refine ⟨h.sorted,?_,?_⟩
        · refine (hd.filter _).imp_of_mem ?_
          intro row row' hr hr' hne
          have hr := of_decide_eq_true (mem_filter.mp hr).2
          have hr' := of_decide_eq_true (mem_filter.mp hr').2
          exact absurd (Prod.ext (hr.1.trans hr'.1.symm) (hr.2.trans hr'.2.symm)) hne
        · intro old ho row hr
          exact hi row (mem_filter.mp hr).1 old (mem_filter.mp ho).1
      returned := by
        refine h.returned.trans ?_
        congr 1
        change _ = ((w.added ++ rws).filter _).filter _
        rw [World.upTo,filter_filter,filter_filter]
        refine (hfr _ h.reached (fun row hpa => ?_)).symm
        simp only [and_eq_true,decide_eq_true_eq] at hpa
        exact hpa.1
      fetched := by
        intro f hf
        obtain ⟨hle,hm⟩ := h.fetched f hf
        refine ⟨hle,hm.trans ?_⟩
        congr 1
        refine (hfr _ (hle.trans h.reached) (fun row hpa => ?_)).symm
        exact (of_decide_eq_true hpa).2.2.2
      waiting := by
        change (w.store.deviceInbox ++ rws).filter _ = (w.added ++ rws).filter _
        rw [filter_append,filter_append]
        congr 1
        exact h.waiting
      told := by
        intro row hr hle
        rcases mem_append.mp hr with hr | hr
        · exact h.told row hr hle
        · exact absurd hle (not_le.mpr (hnew row hr)) }

theorem Inv.cacheStep (cl : StreamChangeCache.Call String) :
    Inv userId deviceId { w with
      store := { w.store with
        deviceInboxStreamCache := StreamChangeCache.step w.store.deviceInboxStreamCache cl }
      notified := w.notified ++ StreamChangeCache.recorded [cl] } := by
  obtain ⟨hi,hc⟩ := StreamChangeCache.step_keeps w.store.deviceInboxStreamCache cl
    w.notified h.inverse h.covers
  exact
    { h with
      inverse := hi
      covers := hc
      told := fun row hr hle => mem_append_left _ (h.told row hr hle) }

theorem Inv.advance {tk : ℤ} (hle : w.store.token ≤ tk)
    (ht : ∀ row ∈ w.added, row.streamId ≤ tk → (row.userId,row.streamId) ∈ w.notified) :
    Inv userId deviceId { w with store := { w.store with token := tk } } :=
  { h with
    reached := h.reached.trans hle
    told := ht }

theorem Inv.deletions {deletions : List Deletion}
    (hd : ∀ d ∈ deletions, d.userId = userId → d.deviceId = deviceId →
      d.upToStreamId ≤ w.deviceToken) : Inv userId deviceId { w with deletions := deletions } :=
  { h with
    deleting := hd }

end

theorem beginDeletion_spec {s : Store M} {u dev : String} {upToStreamId : ℤ} {d : Deletion}
    (hd : beginDeletion s u dev upToStreamId = some d) : d = ⟨u,dev,upToStreamId,none,0⟩ := by
  unfold beginDeletion at hd
  split at hd
  · split at hd
    · cases hd
    · exact (Option.some.inj hd).symm
  · exact (Option.some.inj hd).symm

theorem deleteBetween_spec (s : Store M) (u dev : String) (lo : Option ℤ) (hi : ℤ) (lim : ℕ) :
    ∃ mx ≤ hi,
      (deleteMessagesForDeviceBetween s u dev lo hi lim).2 =
        { s with
          deviceInbox := s.deviceInbox.filter (fun row => !row.within u dev (lo.getD 0) mx) } ∨
      (deleteMessagesForDeviceBetween s u dev lo hi lim).2 = s := by
  unfold deleteMessagesForDeviceBetween
  dsimp only
  split
  · exact ⟨hi,le_rfl,.inr rfl⟩
  · next mx hm =>
    obtain ⟨row,hr,hid⟩ := mem_map.mp (max?_mem hm)
    have hin := mem_of_mem_take hr
    rw [mem_insertionSort,mem_filter] at hin
    have hw := of_decide_eq_true hin.2
    exact ⟨mx,by rw [← hid]; exact hw.2.2.2,.inl rfl⟩

theorem deletionRound_spec (s : Store M) (d : Deletion) :
    (∃ s', (deletionRound s d).2.deviceInbox = s'.deviceInbox ∧
      s' = (deleteMessagesForDeviceBetween s d.userId d.deviceId d.fromStreamId
        d.upToStreamId 1000).2) ∧
    (deletionRound s d).2.deviceInboxStreamCache = s.deviceInboxStreamCache ∧
    (deletionRound s d).2.token = s.token ∧
    ∀ d' ∈ (deletionRound s d).1, d'.userId = d.userId ∧ d'.deviceId = d.deviceId ∧
      d'.upToStreamId = d.upToStreamId := by
  obtain ⟨mx,-,hst⟩ := deleteBetween_spec s d.userId d.deviceId d.fromStreamId d.upToStreamId 1000
  have hs : (deleteMessagesForDeviceBetween s d.userId d.deviceId d.fromStreamId
      d.upToStreamId 1000).2.deviceInboxStreamCache = s.deviceInboxStreamCache ∧
      (deleteMessagesForDeviceBetween s d.userId d.deviceId d.fromStreamId
        d.upToStreamId 1000).2.token = s.token := by
    rcases hst with hst | hst <;> rw [hst] <;> exact ⟨rfl,rfl⟩
  unfold deletionRound
  split
  · next lo loopCount s' heq =>
    rw [heq] at hs
    refine ⟨⟨s',rfl,by rw [heq]⟩,hs.1,hs.2,?_⟩
    rintro d' ⟨rfl⟩
    exact ⟨rfl,rfl,rfl⟩
  · next loopCount s' heq =>
    rw [heq] at hs
    refine ⟨⟨s',rfl,by rw [heq]⟩,hs.1,hs.2,?_⟩
    intro d' hd'
    cases hd'

theorem Inv.deletionRound (h : Inv userId deviceId w) {d : Deletion} (hd : d ∈ w.deletions) :
    Inv userId deviceId { w with store := (deletionRound w.store d).2 } := by
  obtain ⟨⟨s',hi,hs'⟩,hc,ht,-⟩ := deletionRound_spec w.store d
  obtain ⟨mx,hle,hs⟩ := deleteBetween_spec w.store d.userId d.deviceId
    d.fromStreamId d.upToStreamId 1000
  have hwa : (DeviceInbox.deletionRound w.store d).2.deviceInbox.filter
      (fun row => row.isFor userId deviceId ∧ w.deviceToken < row.streamId) =
        w.store.deviceInbox.filter
          (fun row => row.isFor userId deviceId ∧ w.deviceToken < row.streamId) := by
    rw [hi,hs']
    rcases hs with hs | hs
    · rw [hs,filter_filter]
      refine filter_congr (fun row _ => ?_)
      rw [Bool.eq_iff_iff]
      simp only [and_eq_true,decide_eq_true_eq,not_eq_true',and_iff_left_iff_imp]
      rintro ⟨hf,hl⟩
      -- a row that is deleted is not one of the device after its token
      by_contra hw
      rw [not_eq_false] at hw
      have hw := of_decide_eq_true hw
      have hf := of_decide_eq_true hf
      have := h.deleting d hd (hw.1.symm.trans hf.1) (hw.2.1.symm.trans hf.2)
      omega
    · rw [hs]
  exact
    { h with
      reached := by
        rw [ht]
        exact h.reached
      waiting := hwa.trans h.waiting
      inverse := by
        rw [hc]
        exact h.inverse
      covers := by
        rw [hc]
        exact h.covers
      told := by
        rw [ht]
        exact h.told }

theorem Inv.expire (h : Inv userId deviceId w) (ca : Dict (String × String) ℤ) :
    Inv userId deviceId { w with store := { w.store with lastDeviceDeleteCache := ca } } :=
  { h with }

theorem step_inv (op : Op M) (w : World M) (h : Inv userId deviceId w)
    (ha : Allowed userId deviceId op w ∧ PositiveLimit op) :
    Inv userId deviceId (step userId deviceId op w) := by
  cases op with
  | commit rws => exact h.commit ha.1
  | notify u sid => exact h.cacheStep (.entityHasChanged u sid)
  | setCacheFactor fa =>
    have hst := h.cacheStep (.setCacheFactor fa)
    rw [show StreamChangeCache.recorded [.setCacheFactor fa] = ([] : List (String × ℤ)) from rfl,
      append_nil] at hst
    exact hst
  | advance token => exact h.advance ha.1.1 ha.1.2
  | fetch hi lim => exact h.fetch ha.1.1 ha.1.2 ha.2
  | deleteMessagesForDevice u dev upToStreamId =>
    unfold step
    dsimp only
    split
    · exact h
    · next d hd =>
      refine h.deletions ?_
      intro d' hd' hu hde
      rcases mem_cons.mp hd' with rfl | hd'
      · rw [beginDeletion_spec hd] at hu hde ⊢
        obtain ⟨f,hf,heq⟩ := ha.1 hu hde
        exact heq.le.trans (h.fetched f hf).1
      · exact h.deleting d' hd' hu hde
  | deletionRound n =>
    unfold step
    dsimp only
    split
    · exact h
    · next d hd =>
      have hin := mem_of_getElem? hd
      have hr := h.deletionRound hin
      obtain ⟨-,-,-,hn⟩ := deletionRound_spec w.store d
      split
      · next s hs =>
        rw [hs] at hr
        exact hr.deletions (fun d' hd' => h.deleting d' (mem_of_mem_eraseIdx hd'))
      · next d' s hs =>
        rw [hs] at hr hn
        obtain ⟨hu,hde,hut⟩ := hn d' rfl
        refine hr.deletions ?_
        intro d'' hd''
        rcases mem_or_eq_of_mem_set hd'' with hd'' | rfl
        · exact h.deleting d'' hd''
        · rw [hu,hde,hut]
          exact h.deleting d hin
  | expire u dev => exact h.expire _

theorem start_inv {ca : StreamChangeCache.Cache String} (hc : StreamChangeCache.Inverse ca)
    (token : ℕ) :
    Inv userId deviceId (start ca token : World M) where
  sorted := List.Pairwise.nil
  reached := Int.natCast_nonneg token
  returned := rfl
  fetched := by
    intro f hf
    cases hf
  waiting := rfl
  deleting := by
    intro d hd
    cases hd
  inverse := hc
  covers := by
    intro u sid hin
    cases hin
  told := by
    intro row hr
    cases hr

end Invariant

section Delivery

variable (userId deviceId : String)

def drain (limits : List ℕ) (w : World M) : World M :=
  run (step userId deviceId) (limits.map (Op.fetch w.store.token)) w

variable {userId deviceId} {w : World M}

section

variable (h : Inv userId deviceId w)
include h

theorem Inv.length_between {lo hi : ℤ} (hle : lo ≤ hi) :
    (w.upTo userId deviceId lo).length + (w.between userId deviceId lo hi).length =
      (w.upTo userId deviceId hi).length := by
  rw [← h.upTo_append hle,length_append]

theorem Inv.drain_reaches (lms : List ℕ) (hli : ∀ lim ∈ lms, 0 < lim)
    (hln : w.deviceToken = w.store.token ∨
      (w.between userId deviceId w.deviceToken w.store.token).length < lms.length) :
    (drain userId deviceId lms w).deviceToken = w.store.token := by
  induction lms generalizing w with
  | nil => exact hln.resolve_right (Nat.not_lt_zero _)
  | cons lim lms ih =>
    have hlm := hli lim mem_cons_self
    obtain ⟨next,hge,hle,hre,hf⟩ := h.fetch_result h.reached le_rfl hlm
    refine ih (h.fetch h.reached le_rfl hlm) (fun l hl => hli l (mem_cons_of_mem lim hl)) ?_
    rw [DeviceInbox.fetch,hre]
    change next = w.store.token ∨ (w.between userId deviceId next w.store.token).length < lms.length
    have hfi := h.length_between hge
    have hs := h.length_between hle
    have hb := h.length_between h.reached
    rw [length_cons] at hln
    omega

theorem Inv.drain (lms : List ℕ) (hli : ∀ lim ∈ lms, 0 < lim) :
    Inv userId deviceId (drain userId deviceId lms w) ∧
      (DeviceInbox.drain userId deviceId lms w).added = w.added := by
  induction lms generalizing w with
  | nil => exact ⟨h,rfl⟩
  | cons lim lms ih =>
    exact ih (h.fetch h.reached le_rfl (hli lim mem_cons_self))
      (fun l hl => hli l (mem_cons_of_mem lim hl))

end

variable (userId deviceId) in
/-- The messages of the device are in the order of the stream; those that it has got are the
ones up to its token, each once and in order; no fetch skipped one; none that it has not got
is deleted; and all up to the current token come with enough further fetches. -/
structure DeliveredOnce (w : World M) : Prop where
  inOrder : (w.added.filter (Row.isFor userId deviceId)).Pairwise
    (fun row row' => row.streamId < row'.streamId)
  returned : w.returned = (w.upTo userId deviceId w.deviceToken).map Row.message
  unskipped : ∀ fetch ∈ w.fetches,
    fetch.messages = (w.between userId deviceId fetch.fromStreamId fetch.next).map Row.message
  kept : ∀ row ∈ w.added, row.isFor userId deviceId = true → w.deviceToken < row.streamId →
    row ∈ w.store.deviceInbox
  all : ∀ limits : List ℕ, (∀ limit ∈ limits, 0 < limit) →
    (w.between userId deviceId w.deviceToken w.store.token).length < limits.length →
      (drain userId deviceId limits w).returned =
        (w.upTo userId deviceId w.store.token).map Row.message

theorem Inv.deliveredOnce (h : Inv userId deviceId w) : DeliveredOnce userId deviceId w where
  inOrder := h.sorted
  returned := h.returned
  unskipped := fun f hf => (h.fetched f hf).2
  kept := by
    intro row hr hfor hla
    have hin : row ∈ w.added.filter
        (fun row => row.isFor userId deviceId ∧ w.deviceToken < row.streamId) :=
      mem_filter.mpr ⟨hr,decide_eq_true ⟨hfor,hla⟩⟩
    rw [← h.waiting] at hin
    exact (mem_filter.mp hin).1
  all := by
    intro lms hl hle
    obtain ⟨hd,ha⟩ := h.drain lms hl
    rw [hd.returned,h.drain_reaches lms hl (.inr hle),World.upTo,World.upTo,ha]

/-- In every run in which the limits of the fetches are positive, the messages of a device are
delivered exactly once and in order, before they are deleted. -/
theorem messages_delivered_exactly_once (userId deviceId : String) (currentStreamPos maxSize : ℤ)
    (factor : ℤ → ℤ) (token : ℕ) (ops : List (Op M)) (hrun : Admitted (step userId deviceId)
      (fun op w => Allowed userId deviceId op w ∧ PositiveLimit op) ops
        (start (StreamChangeCache.create currentStreamPos maxSize factor []) token)) :
    DeliveredOnce userId deviceId (run (step userId deviceId) ops
      (start (StreamChangeCache.create currentStreamPos maxSize factor []) token)) := by
  have hcache := (StreamChangeCache.reachable_keeps currentStreamPos maxSize factor
    ([] : List (String × ℤ)) []).1
  exact (hrun.invariant step_inv (start_inv hcache token)).deliveredOnce

def arrival (streamId : ℕ) (message : String) : List (Op String) :=
  [.commit [⟨"@a:x","D",streamId,message⟩],.notify "@a:x" streamId,.advance streamId]

def acknowledgement (streamId : ℕ) : List (Op String) :=
  [.deleteMessagesForDevice "@a:x" "D" streamId,.deletionRound 0]

def emptyInbox : World String := start (StreamChangeCache.create 0 100 id []) 0

def twoMessages : List (Op String) :=
  arrival 1 "one" ++ arrival 2 "two" ++ [.fetch 2 1] ++ acknowledgement 1 ++ [.fetch 2 5]

theorem messages_delivered_exactly_once_twoMessages :
    DeliveredOnce "@a:x" "D" (run (step "@a:x" "D") twoMessages emptyInbox) ∧
      (run (step "@a:x" "D") twoMessages emptyInbox).returned = ["one","two"] :=
  ⟨messages_delivered_exactly_once "@a:x" "D" 0 100 id 0 twoMessages (by decide +kernel),
    by decide +kernel⟩

def lostMessage : List (Op String) := arrival 1 "one" ++ [.fetch 1 0] ++ acknowledgement 1

/-- With the limit zero the number of rows equals the limit, and the token is the one that was
asked for: the message is never returned, and deleted. -/
theorem message_lost_with_limit_zero :
    Admitted (step "@a:x" "D") (Allowed "@a:x" "D") lostMessage emptyInbox ∧
      (run (step "@a:x" "D") lostMessage emptyInbox).added.map Row.message = ["one"] ∧
      (run (step "@a:x" "D") lostMessage emptyInbox).returned = [] ∧
      (run (step "@a:x" "D") lostMessage emptyInbox).store.deviceInbox.length = 0 ∧
      ¬DeliveredOnce "@a:x" "D" (run (step "@a:x" "D") lostMessage emptyInbox) :=
  ⟨by decide +kernel,by decide +kernel,by decide +kernel,by decide +kernel,
    fun h => absurd h.returned (by decide +kernel)⟩

end Delivery

end Synapse.DeviceInbox
