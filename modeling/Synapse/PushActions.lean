import Synapse.Events

/-!
# Push actions and their summary

Each event that may notify a user leaves a push action. A background job counts
the actions up to a position of the stream into a summary, by thread, and
counts a thread anew when the user sends a receipt. The counts for one room and
the counts for all rooms of a user are computed by different queries from the
summary and the actions after it.
-/

set_option autoImplicit false

namespace Synapse.PushActions

def mainTimeline : String := "main"

structure Key where
  userId : String
  roomId : String
  threadId : String
  deriving DecidableEq

structure PushAction where
  key : Key
  streamOrdering : ℕ
  notif : Bool
  highlight : Bool
  unread : Bool

structure Receipt where
  roomId : String
  receiptType : String
  userId : String
  threadId : Option String
  eventStreamOrdering : ℕ
  streamId : ℕ

structure Summary where
  notifCount : ℕ
  unreadCount : ℕ
  streamOrdering : ℕ
  lastReceiptStreamOrdering : Option ℕ

structure Tables where
  receipts : List Receipt
  actions : List PushAction
  summary : Dict Key Summary
  /-- `event_push_summary_stream_ordering` -/
  rotatedUpto : ℕ
  /-- `event_push_summary_last_receipt_stream_id` -/
  lastReceiptStreamId : ℕ
  /-- The position up to which all events have been persisted. -/
  eventToken : ℕ

def receiptTypes : List String := ["m.read","m.read.private"]

/-- The greatest position of the receipts of a user for a thread of a room, or
of the unthreaded ones. -/
def maxReceipt (t : Tables) (userId roomId : String) (threadId : Option String) : Option ℕ :=
  ((t.receipts.filter (fun r => r.receiptType ∈ receiptTypes ∧ r.userId = userId ∧
    r.roomId = roomId ∧ r.threadId = threadId)).map Receipt.eventStreamOrdering).max?

def groupBy {α β : Type} [DecidableEq β] (f : α → β) (rows : List α) : List (β × List α) :=
  (rows.map f).dedup.map (fun value => (value,rows.filter (fun row => f row = value)))

/-- Whether an action or a summary is after the receipts of its thread, where
there may be none. -/
def afterReceipt (receipt : Option ℕ) (position : ℕ) : Bool := receipt.all (fun r => r < position)

/-- The greater of two columns. `MAX` of SQLite is null if one of them is, which
is why nulls are taken for 0 there. -/
def maxClause (engine : Engine) (threaded unthreaded : Option ℕ) : Option ℕ :=
  match engine with
  | .postgres => (threaded.toList ++ unthreaded.toList).max?
  | .sqlite => some (max (threaded.getD 0) (unthreaded.getD 0))

def isCurrent (latest : Option ℕ) (s : Summary) : Bool :=
  match latest with
  | none => false
  | some latest =>
    match s.lastReceiptStreamOrdering with
    | none => latest < s.streamOrdering
    | some last => last = latest

def addCount (counts : Dict String ℕ) (roomId : String) (n : ℕ) : Dict String ℕ :=
  counts.insert roomId ((counts.lookup roomId).getD 0+n)

def currentSummaries (engine : Engine) (t : Tables) (userId : String) :
    List (Sigma fun _ : Key => Summary) :=
  t.summary.entries.filter (fun row => row.1.userId = userId ∧ row.2.notifCount ≠ 0 ∧
    isCurrent (maxClause engine (maxReceipt t userId row.1.roomId (some row.1.threadId))
      (maxReceipt t userId row.1.roomId none)) row.2)

def unreadActions (t : Tables) (userId : String) : List PushAction :=
  t.actions.filter (fun a => a.key.userId = userId ∧ a.notif ∧
    afterReceipt (maxReceipt t userId a.key.roomId (some a.key.threadId)) a.streamOrdering ∧
    afterReceipt (maxReceipt t userId a.key.roomId none) a.streamOrdering)

/-- The threads with a current summary are not told apart by room. -/
def getUnreadCountsByRoomForUserTxn (engine : Engine) (t : Tables) (userId : String) :
    Dict String ℕ :=
  let summaries := currentSummaries engine t userId
  let seenThreadIds := summaries.map (fun row => row.1.threadId)
  let counts := summaries.foldl
    (fun counts row => addCount counts row.1.roomId row.2.notifCount) ∅
  let recent := groupBy (fun a : PushAction => (a.key.roomId,a.key.threadId))
    ((unreadActions t userId).filter (fun a => t.rotatedUpto < a.streamOrdering))
  let counts := recent.foldl (fun counts (group : (String × String) × List PushAction) =>
    if group.1.2 ∈ seenThreadIds then addCount counts group.1.1 group.2.length else counts) counts
  let others := groupBy (fun a : PushAction => a.key.roomId)
    ((unreadActions t userId).filter (fun a => a.key.threadId ∉ seenThreadIds))
  others.foldl (fun counts group => addCount counts group.1 group.2.length) counts

structure NotifCounts where
  notifyCount : ℕ
  unreadCount : ℕ
  highlightCount : ℕ

def NotifCounts.zero : NotifCounts := ⟨0,0,0⟩

def NotifCounts.add (a b : NotifCounts) : NotifCounts :=
  ⟨a.notifyCount+b.notifyCount,a.unreadCount+b.unreadCount,a.highlightCount+b.highlightCount⟩

structure RoomNotifCounts where
  mainTimeline : NotifCounts
  threads : Dict String NotifCounts

/-- `_get_thread(thread_id)`, with counts added to it. -/
def RoomNotifCounts.addTo (counts : RoomNotifCounts) (threadId : String) (n : NotifCounts) :
    RoomNotifCounts :=
  if threadId = PushActions.mainTimeline then
    { counts with mainTimeline := counts.mainTimeline.add n }
  else { counts with
    threads := counts.threads.insert threadId
      (((counts.threads.lookup threadId).getD .zero).add n) }

def countActions (rows : List PushAction) : NotifCounts :=
  ⟨rows.countP PushAction.notif,rows.countP PushAction.unread,0⟩

/-- The receipt that counts for a thread: a threaded one if it is after the
given position. -/
def threadReceipt (t : Tables) (userId roomId : String) (position : ℕ) (threadId : String) : ℕ :=
  (((t.receipts.filter (fun r => r.userId = userId ∧ r.roomId = roomId ∧
    position < r.eventStreamOrdering ∧ r.receiptType ∈ receiptTypes ∧
    r.threadId = some threadId)).map Receipt.eventStreamOrdering).max?).getD position

/-- `changed` is what the cache of changed rooms says. -/
def getNotifUnreadCountForUserRoom (changed : String → ℕ → Bool) (t : Tables)
    (roomId userId : String) (streamOrdering : ℕ) (maxStreamOrdering : Option ℕ)
    (threadId : Option String) : List (NotifCounts × String) :=
  if !changed roomId streamOrdering then []
  else if maxStreamOrdering.any (fun m => m ≤ streamOrdering) then []
  else
    (groupBy (fun a : PushAction => a.key.threadId) (t.actions.filter (fun a =>
      a.key.userId = userId ∧ a.key.roomId = roomId ∧ streamOrdering < a.streamOrdering ∧
      maxStreamOrdering.all (fun m => a.streamOrdering ≤ m) ∧
      threadId.all (fun threadId => a.key.threadId = threadId)))).map
        (fun group => (countActions group.2,group.1))

def roomSummaries (t : Tables) (roomId userId : String) (position : ℕ) :
    List (Sigma fun _ : Key => Summary) :=
  t.summary.entries.filter (fun row => row.1.roomId = roomId ∧ row.1.userId = userId ∧
    isCurrent (some (threadReceipt t userId roomId position row.1.threadId)) row.2 ∧
    (row.2.notifCount ≠ 0 ∨ row.2.unreadCount ≠ 0))

def roomActions (t : Tables) (roomId userId : String) (position : ℕ) : List PushAction :=
  t.actions.filter (fun a => a.key.userId = userId ∧ a.key.roomId = roomId ∧
    threadReceipt t userId roomId position a.key.threadId < a.streamOrdering)

/-- The counts of the actions since the last rotation. Those of the main
timeline are added to the counts of the last summary. -/
def addRecent (summaries : List (Sigma fun _ : Key => Summary)) (counts : RoomNotifCounts)
    (row : NotifCounts × String) : RoomNotifCounts :=
  if row.2 ∉ summaries.map (fun row => row.1.threadId) then counts
  else if row.2 = mainTimeline then
    counts.addTo ((summaries.getLast?.map (fun row => row.1.threadId)).getD mainTimeline) row.1
  else counts.addTo row.2 row.1

def getUnreadCountsByPosTxn (changed : String → ℕ → Bool) (t : Tables) (roomId userId : String)
    (position : ℕ) : RoomNotifCounts :=
  let summaries := roomSummaries t roomId userId position
  let counts := summaries.foldl (fun counts row =>
    counts.addTo row.1.threadId ⟨row.2.notifCount,row.2.unreadCount,0⟩) ⟨.zero,∅⟩
  let highlights := groupBy (fun a : PushAction => a.key.threadId)
    ((roomActions t roomId userId position).filter PushAction.highlight)
  let counts := highlights.foldl (fun counts group => counts.addTo group.1 ⟨0,0,group.2.length⟩)
    counts
  let counts := (getNotifUnreadCountForUserRoom changed t roomId userId t.rotatedUpto none
    none).foldl (addRecent summaries) counts
  let others := groupBy (fun a : PushAction => a.key.threadId)
    ((roomActions t roomId userId position).filter
      (fun a => a.key.threadId ∉ summaries.map (fun row => row.1.threadId)))
  others.foldl (fun counts group => counts.addTo group.1 (countActions group.2)) counts

/-- `joined` is the position of the user's join, used if there is no unthreaded
receipt. -/
def getUnreadCountsByReceiptTxn (changed : String → ℕ → Bool) (t : Tables) (roomId userId : String)
    (joined : ℕ) : RoomNotifCounts :=
  getUnreadCountsByPosTxn changed t roomId userId ((maxReceipt t userId roomId none).getD joined)

def RoomNotifCounts.totalNotify (counts : RoomNotifCounts) : ℕ :=
  counts.mainTimeline.notifyCount + ((Dict.values counts.threads).map NotifCounts.notifyCount).sum

def updateSummary (summary : Dict Key Summary) (key : Key) (s : Summary) : Dict Key Summary :=
  if key ∈ summary then summary.insert key s else summary

def clearSummaries (summary : Dict Key Summary) (userId roomId : String)
    (rotated receipt : ℕ) : Dict Key Summary :=
  summary.keys.foldl (fun summary key =>
    if key.userId = userId ∧ key.roomId = roomId then
      updateSummary summary key ⟨0,0,rotated,some receipt⟩
    else summary) summary

def handleReceipt (changed : String → ℕ → Bool) (t : Tables) (r : Receipt) : Tables :=
  let t := { t with
    actions := t.actions.filter (fun a => ¬ (a.key.roomId = r.roomId ∧ a.key.userId = r.userId ∧
      a.streamOrdering ≤ r.eventStreamOrdering ∧ a.highlight = false ∧
      r.threadId.all (fun threadId => a.key.threadId = threadId))) }
  let unreadCounts := getNotifUnreadCountForUserRoom changed t r.roomId r.userId
    r.eventStreamOrdering (some t.rotatedUpto) r.threadId
  let (summary,unreadCounts) :=
    match r.threadId with
    | none => (clearSummaries t.summary r.userId r.roomId t.rotatedUpto r.eventStreamOrdering,
        unreadCounts)
    | some threadId =>
      (t.summary,if unreadCounts.isEmpty then [(.zero,threadId)] else unreadCounts)
  { t with
    summary := unreadCounts.foldl (fun summary row => updateSummary summary
      ⟨r.userId,r.roomId,row.2⟩ ⟨row.1.notifyCount,row.1.unreadCount,t.rotatedUpto,
        some r.eventStreamOrdering⟩) summary }

/-- At most 100 receipts are handled, in the order of their stream. -/
def handleNewReceiptsForNotifsTxn (changed : String → ℕ → Bool) (isMine : String → Bool)
    (receiptToken : ℕ) (t : Tables) : Tables :=
  let rows := ((t.receipts.filter (fun r => t.lastReceiptStreamId < r.streamId ∧
    r.streamId ≤ receiptToken ∧ isMine r.userId)).insertionSort
      (fun a b => a.streamId ≤ b.streamId)).take 100
  let handled := rows.foldl (handleReceipt changed) t
  { handled with
    lastReceiptStreamId :=
      if 100 ≤ rows.length then (rows.getLast?.map Receipt.streamId).getD receiptToken
      else receiptToken }

def rotatedActions (t : Tables) (rotateTo : ℕ) (column : PushAction → Bool) : List PushAction :=
  t.actions.filter (fun a => t.rotatedUpto < a.streamOrdering ∧ a.streamOrdering ≤ rotateTo ∧
    ((t.summary.lookup a.key).bind Summary.lastReceiptStreamOrdering).all
      (fun last => last < a.streamOrdering) ∧ column a)

def maxOrdering (rows : List PushAction) : ℕ := (rows.map PushAction.streamOrdering).foldr max 0

/-- The new counts of the threads with unread messages, and then of those with
notifications. A count that is in one of the two only is 0 in the other. -/
def rotatedSummaries (t : Tables) (rotateTo : ℕ) : Dict Key Summary :=
  let unread := (groupBy PushAction.key (rotatedActions t rotateTo PushAction.unread)).foldl
    (fun summaries group => summaries.insert group.1
      (⟨0,((t.summary.lookup group.1).map Summary.unreadCount).getD 0+group.2.length,
        maxOrdering group.2,none⟩ : Summary)) (∅ : Dict Key Summary)
  (groupBy PushAction.key (rotatedActions t rotateTo PushAction.notif)).foldl
    (fun summaries group =>
      let notifCount := ((t.summary.lookup group.1).map Summary.notifCount).getD 0+group.2.length
      match summaries.lookup group.1 with
      | some s => summaries.insert group.1 { s with notifCount := notifCount }
      | none => summaries.insert group.1 ⟨notifCount,0,maxOrdering group.2,none⟩) unread

def rotateNotifsBeforeTxn (t : Tables) (rotateTo : ℕ) : Tables :=
  { t with
    summary := (rotatedSummaries t rotateTo).entries.foldl (fun summary row =>
      summary.insert row.1 { row.2 with
        lastReceiptStreamOrdering :=
          (t.summary.lookup row.1).bind Summary.lastReceiptStreamOrdering }) t.summary
    rotatedUpto := rotateTo }

def rotateCount : ℕ := 10000

/-- The actions are rotated up to the current position of the stream, or to the
end of a limited number of them. -/
def rotateNotifsTxn (t : Tables) : Tables :=
  let later := ((t.actions.filter (fun a => t.rotatedUpto < a.streamOrdering)).map
    PushAction.streamOrdering).insertionSort (· ≤ ·)
  rotateNotifsBeforeTxn t
    (match later[rotateCount]? with
    | some offset => min offset t.eventToken
    | none => t.eventToken)

def noActions : Tables := ⟨[],[],∅,0,0,0⟩

/-- The tables that are kept up by the handling of receipts and by rotation,
for any receipts. -/
inductive Maintained (isMine : String → Bool) : Tables → Prop
  | start : Maintained isMine noActions
  | persist {t : Tables} (h : Maintained isMine t) (actions : List PushAction) (token : ℕ)
      (later : t.eventToken ≤ token)
      (new : ∀ a ∈ actions, t.eventToken < a.streamOrdering ∧ a.streamOrdering ≤ token) :
    Maintained isMine { t with actions := t.actions ++ actions, eventToken := token }
  | receive {t : Tables} (h : Maintained isMine t) (receipts : List Receipt) :
    Maintained isMine { t with receipts := receipts }
  | handle {t : Tables} (h : Maintained isMine t) (changed : String → ℕ → Bool)
      (receiptToken : ℕ) :
    Maintained isMine (handleNewReceiptsForNotifsTxn changed isMine receiptToken t)
  | rotate {t : Tables} (h : Maintained isMine t) : Maintained isMine (rotateNotifsTxn t)

end Synapse.PushActions
