import Synapse.Paging
import Synapse.Python
import Synapse.StreamChangeCache
import Synapse.StreamTokens

/-!
# Paginating a room by stream ordering

The events of a room between two tokens are read in pages, forwards or backwards.
The query bounds the stream ordering by the outermost positions in the tokens and
fetches twice the limit; what the writers' positions exclude is dropped from that,
and the next token is the position of the last row that is left.
-/

set_option autoImplicit false

namespace Synapse.Pagination
open Python StreamChangeCache Paging List Option

inductive Direction where
  | forwards
  | backwards
  deriving DecidableEq

structure EventRow where
  eventId : String
  roomId : String
  type : String
  instanceName : Option String
  streamOrdering : ℤ
  topologicalOrdering : ℤ
  outlier : Bool
  rejected : Bool
  withheldRedaction : Bool
  deriving DecidableEq

structure EventsTable where
  rows : List EventRow
  sorted : rows.Pairwise (fun a b => a.streamOrdering < b.streamOrdering)

/-- A topological and a stream position; the first is missing for live tokens. -/
abbrev Bound := Option ℤ × ℤ

def asBound (token : RoomStreamToken) (live : ℤ) : Bound :=
  match token.topological with
  | some topological => (some topological,token.stream)
  | none => (none,live)

/-- The bounds that are made of the tokens for one direction. -/
def generatePaginationBounds (direction : Direction) (fromToken toToken : Option RoomStreamToken) :
    Option Bound × Option Bound :=
  match direction with
  | .backwards => (fromToken.map (fun t => asBound t t.getMaxStreamPos),
      toToken.map (fun t => asBound t t.stream))
  | .forwards => (fromToken.map (fun t => asBound t t.stream),
      toToken.map (fun t => asBound t t.getMaxStreamPos))

/-- `values < columns` -/
def sqlBelow (values : Bound) (topological stream : ℤ) : Bool :=
  match values.1 with
  | none => values.2 < stream
  | some value => value < topological ∨ value = topological ∧ values.2 < stream

/-- `values >= columns` -/
def sqlAtLeast (values : Bound) (topological stream : ℤ) : Bool :=
  match values.1 with
  | none => values.2 ≥ stream
  | some value => value > topological ∨ value = topological ∧ values.2 ≥ stream

def generatePaginationWhereClause (direction : Direction) (fromBound toBound : Option Bound)
    (row : EventRow) : Bool :=
  match direction with
  | .backwards =>
    fromBound.all (fun b => sqlAtLeast b row.topologicalOrdering row.streamOrdering) &&
      toBound.all (fun b => sqlBelow b row.topologicalOrdering row.streamOrdering)
  | .forwards =>
    fromBound.all (fun b => sqlBelow b row.topologicalOrdering row.streamOrdering) &&
      toBound.all (fun b => sqlAtLeast b row.topologicalOrdering row.streamOrdering)

/-- The token points after the last row; backwards it has to point before it. -/
def generateNextToken (direction : Direction) (lastStreamOrdering : ℤ) : RoomStreamToken :=
  match direction with
  | .backwards => .plain (lastStreamOrdering-1)
  | .forwards => .plain lastStreamOrdering

def writerOf (row : EventRow) : String := row.instanceName.getD "master"

def filterResultsByStream (lowerToken upperToken : Option RoomStreamToken) (row : EventRow) :
    Bool :=
  lowerToken.all (fun t => t.getStreamPosForInstance (writerOf row) < row.streamOrdering) &&
    upperToken.all (fun t => row.streamOrdering ≤ t.getStreamPosForInstance (writerOf row))

section Paginate

variable (table : EventsTable) (cache : Cache String) (roomId : String)

/-- `get_events_as_list` leaves out rejected events and some redactions. -/
def served (row : EventRow) : Bool := !row.rejected && !row.withheldRedaction

/-- `ORDER BY stream_ordering ASC` or `DESC` -/
def ordered (direction : Direction) (rows : List EventRow) : List EventRow :=
  match direction with
  | .forwards => rows
  | .backwards => rows.reverse

def hasChanged (direction : Direction) (fromKey : RoomStreamToken)
    (toKey : Option RoomStreamToken) : Bool :=
  match direction with
  | .forwards => hasEntityChanged cache roomId fromKey.stream
  | .backwards => toKey.all (fun t => hasEntityChanged cache roomId t.stream)

def isReversed (direction : Direction) (fromKey : RoomStreamToken)
    (toKey : Option RoomStreamToken) : Bool :=
  match direction with
  | .forwards => toKey.any (fun t => t.isBeforeOrEq fromKey)
  | .backwards => toKey.any (fun t => fromKey.isBeforeOrEq t)

def lowerToken (direction : Direction) (fromKey : RoomStreamToken)
    (toKey : Option RoomStreamToken) : Option RoomStreamToken :=
  match direction with
  | .backwards => toKey
  | .forwards => some fromKey

def upperToken (direction : Direction) (fromKey : RoomStreamToken)
    (toKey : Option RoomStreamToken) : Option RoomStreamToken :=
  match direction with
  | .backwards => some fromKey
  | .forwards => toKey

def inRange (direction : Direction) (fromKey : RoomStreamToken) (toKey : Option RoomStreamToken)
    (row : EventRow) : Bool :=
  let bounds := generatePaginationBounds direction (some fromKey) toKey
  row.roomId = roomId && !row.outlier &&
    generatePaginationWhereClause direction bounds.1 bounds.2 row

def rangeRows (direction : Direction) (fromKey : RoomStreamToken)
    (toKey : Option RoomStreamToken) : List EventRow :=
  ordered direction (table.rows.filter (inRange roomId direction fromKey toKey))

def fetchedRows (direction : Direction) (fromKey : RoomStreamToken)
    (toKey : Option RoomStreamToken) (limit : ℕ) : List EventRow :=
  (rangeRows table roomId direction fromKey toKey).take (2*limit)

def between (direction : Direction) (fromKey : RoomStreamToken) (toKey : Option RoomStreamToken) :
    EventRow → Bool :=
  filterResultsByStream (lowerToken direction fromKey toKey) (upperToken direction fromKey toKey)

def pageOf (direction : Direction) (fromKey : RoomStreamToken) (toKey : Option RoomStreamToken)
    (limit : ℕ) (fetched : List EventRow) : Page RoomStreamToken EventRow :=
  let rows := fetched.filter (between direction fromKey toKey)
  { items := (rows.take limit).filter served
    next := match (rows.take limit).getLast? with
      | some last => generateNextToken direction last.streamOrdering
      | none => toKey.getD fromKey
    limited := 2*limit ≤ fetched.length || limit < rows.length }

def paginateRoomEventsByStreamOrdering (fromKey : RoomStreamToken)
    (toKey : Option RoomStreamToken) (direction : Direction) (limit : ℕ) :
    Py Empty (Page RoomStreamToken EventRow) := do
  raiseIf (fromKey.topological.isSome) .assertionError
  raiseIf (toKey.any (fun t => t.topological.isSome)) .assertionError
  if isReversed direction fromKey toKey then .ok ⟨[],toKey.getD fromKey,false⟩
  else if !hasChanged cache roomId direction fromKey toKey then .ok ⟨[],toKey.getD fromKey,false⟩
  else .ok (pageOf direction fromKey toKey limit
    (fetchedRows table roomId direction fromKey toKey limit))

end Paginate

section Specification

variable (table : EventsTable) (roomId : String)

def eventsBetween (direction : Direction) (fromKey : RoomStreamToken)
    (toKey : Option RoomStreamToken) : List EventRow :=
  ordered direction (table.rows.filter (fun row => row.roomId = roomId && !row.outlier &&
    served row && between direction fromKey toKey row))

/-- The cache was made from the table and told about the later events: an event that is not
older than the cache is at or before a position that was recorded for its room. -/
def Notified (cache : Cache String) : Prop :=
  ∃ currentStreamPos maxSize factor prefilled calls,
    cache = run (create currentStreamPos maxSize factor prefilled) calls ∧
      ∀ row ∈ table.rows, row.streamOrdering ≤ currentStreamPos ∨
        ∃ pos, (row.roomId,pos) ∈ prefilled ++ recorded calls ∧ row.streamOrdering ≤ pos

/-- What the end token admits, from wherever the page starts. -/
def admitted (direction : Direction) (toKey : Option RoomStreamToken) : EventRow → Bool :=
  match direction with
  | .forwards => filterResultsByStream none toKey
  | .backwards => filterResultsByStream toKey none

def before (direction : Direction) (a b : EventRow) : Prop :=
  match direction with
  | .forwards => a.streamOrdering < b.streamOrdering
  | .backwards => b.streamOrdering < a.streamOrdering

instance (direction : Direction) (a b : EventRow) : Decidable (before direction a b) :=
  match direction with
  | .forwards => inferInstanceAs (Decidable (a.streamOrdering < b.streamOrdering))
  | .backwards => inferInstanceAs (Decidable (b.streamOrdering < a.streamOrdering))

/-- Of the first `2*limit` rows, the first that are kept. -/
def pageRows (limit : ℕ) (keeps : EventRow → Bool) (rows : List EventRow) : List EventRow :=
  ((rows.take (2*limit)).filter keeps).take limit

/-- The rows are cut into pages, the first of those that are kept and the others of those that
are kept later. What is served of each page is an event to be read, and where a page serves
nothing or is the last one, no event is left that is not on it. -/
def ReadsEach (direction : Direction) (limit : ℕ) (event keptLater : EventRow → Bool) :
    ℕ → (EventRow → Bool) → List EventRow → Prop
  | 0, _, _ => False
  | pages+1, keeps, rows =>
    (∀ row ∈ pageRows limit keeps rows, served row → event row) ∧
      if (pageRows limit keeps rows).any served ∧
          (2*limit ≤ rows.length ∨ limit < (rows.filter keeps).length) then
        ReadsEach direction limit event keptLater pages keptLater (rows.filter (fun row =>
          (pageRows limit keeps rows).getLast?.all (fun last => before direction last row)))
      else ∀ row ∈ rows, event row → row ∈ pageRows limit keeps rows

instance decidableReadsEach (direction : Direction) (limit : ℕ)
    (event keptLater : EventRow → Bool) :
    ∀ pages keeps rows, Decidable (ReadsEach direction limit event keptLater pages keeps rows)
  | 0, _, _ => isFalse id
  | pages+1, _, _ =>
    have := decidableReadsEach direction limit event keptLater pages
    inferInstanceAs (Decidable (_ ∧ ite _ _ _))

end Specification

section Cache

variable {table : EventsTable} {cache : Cache String} {roomId : String}

theorem hasEntityChanged_of_row (h : Notified table cache) {row : EventRow}
    (hrow : row ∈ table.rows) {q : ℤ} (hq : q < row.streamOrdering) :
    hasEntityChanged cache row.roomId q = true := by
  obtain ⟨currentStreamPos,maxSize,factor,prefilled,calls,rfl,hr⟩ := h
  rcases hr row hrow with ho | ⟨pos,hpos,hle⟩
  · -- an event that is older than the cache counts as one that it covers from the start
    have hc := (run_keeps (initialCalls factor prefilled ++ calls)
      (unfilled currentStreamPos maxSize) [(row.roomId,row.streamOrdering)] (unfilled_inverse _ _)
      (by
        intro e p hp
        simp only [mem_singleton,Prod.mk.injEq] at hp
        exact .inl (by rw [hp.2]; exact ho))).2
    rw [run,foldl_append] at hc
    exact hasEntityChanged_of_covers _ _ hc row.roomId row.streamOrdering q (by simp) hq
  · exact hasEntityChanged_of_covers _ _ (reachable_keeps _ _ _ _ _).2 row.roomId pos q hpos
      (lt_of_lt_of_le hq hle)

end Cache

section Range

variable {table : EventsTable} {roomId : String} {direction : Direction} {row : EventRow}
  {fromKey : RoomStreamToken} {toKey : Option RoomStreamToken}

def Live (fromKey : RoomStreamToken) (toKey : Option RoomStreamToken) : Prop :=
  fromKey.topological = none ∧ ∀ t ∈ toKey, t.topological = none

theorem asBound_live {token : RoomStreamToken} (h : token.topological = none) (live : ℤ) :
    asBound token live = (none,live) := by
  rw [asBound,h]

theorem inRange_iff (hl : Live fromKey toKey) :
    inRange roomId direction fromKey toKey row = true ↔
      (row.roomId = roomId ∧ row.outlier = false) ∧
        (∀ t ∈ lowerToken direction fromKey toKey, t.stream < row.streamOrdering) ∧
          ∀ t ∈ upperToken direction fromKey toKey, row.streamOrdering ≤ t.getMaxStreamPos := by
  obtain ⟨hf,hto⟩ := hl
  cases toKey with
  | none =>
    cases direction with
    | forwards => simp [inRange,generatePaginationBounds,generatePaginationWhereClause,
        asBound_live hf,sqlBelow,lowerToken,upperToken]
    | backwards => simp [inRange,generatePaginationBounds,generatePaginationWhereClause,
        asBound_live hf,sqlAtLeast,lowerToken,upperToken]
  | some t =>
    have ht := hto t rfl
    cases direction with
    | forwards => simp [inRange,generatePaginationBounds,generatePaginationWhereClause,
        asBound_live hf,asBound_live ht,sqlBelow,sqlAtLeast,lowerToken,upperToken]
    | backwards => simp [inRange,generatePaginationBounds,generatePaginationWhereClause,
        asBound_live hf,asBound_live ht,sqlBelow,sqlAtLeast,lowerToken,upperToken,and_comm]

theorem filterResultsByStream_iff {lower upper : Option RoomStreamToken} :
    filterResultsByStream lower upper row = true ↔
      (∀ t ∈ lower, t.getStreamPosForInstance (writerOf row) < row.streamOrdering) ∧
        ∀ t ∈ upper, row.streamOrdering ≤ t.getStreamPosForInstance (writerOf row) := by
  simp [filterResultsByStream,Option.all_eq_true]

theorem inRange_of_between (hl : Live fromKey toKey) (hr : row.roomId = roomId)
    (ho : row.outlier = false) (h : between direction fromKey toKey row = true) :
    inRange roomId direction fromKey toKey row = true := by
  rw [between,filterResultsByStream_iff] at h
  refine (inRange_iff hl).mpr ⟨⟨hr,ho⟩,?_,?_⟩
  · intro t ht
    exact lt_of_le_of_lt (t.stream_le_pos _) (h.1 t ht)
  · intro t ht
    exact le_trans (h.2 t ht) (t.pos_le_max _)

theorem mem_ordered {rows : List EventRow} : row ∈ ordered direction rows ↔ row ∈ rows := by
  cases direction with
  | forwards => rfl
  | backwards => exact mem_reverse

theorem mem_eventsBetween : row ∈ eventsBetween table roomId direction fromKey toKey ↔
    row ∈ table.rows ∧ ((row.roomId = roomId ∧ row.outlier = false) ∧ served row = true) ∧
      between direction fromKey toKey row = true := by
  simp [eventsBetween,mem_ordered]

theorem ordered_pairwise {rows : List EventRow}
    (h : rows.Pairwise (fun a b => a.streamOrdering < b.streamOrdering)) :
    (ordered direction rows).Pairwise (before direction) := by
  cases direction with
  | forwards => exact h
  | backwards => exact pairwise_reverse.mpr h

theorem ordered_filter (p : EventRow → Bool) (rows : List EventRow) :
    ordered direction (rows.filter p) = (ordered direction rows).filter p := by
  cases direction with
  | forwards => rfl
  | backwards => exact filter_reverse.symm

theorem eventsBetween_reversed (h : isReversed direction fromKey toKey = true) :
    eventsBetween table roomId direction fromKey toKey = [] := by
  rw [eq_nil_iff_forall_not_mem]
  intro row hr
  obtain ⟨-,-,hb⟩ := mem_eventsBetween.mp hr
  rw [between,filterResultsByStream_iff] at hb
  cases toKey with
  | none =>
    cases direction <;> simp [isReversed] at h
  | some t =>
    cases direction with
    | forwards =>
      have hle := t.pos_le_of_isBeforeOrEq fromKey (by simpa [isReversed] using h) (writerOf row)
      have hl := hb.1 fromKey rfl
      have hup := hb.2 t rfl
      omega
    | backwards =>
      have hle := fromKey.pos_le_of_isBeforeOrEq t (by simpa [isReversed] using h) (writerOf row)
      have hl := hb.1 t rfl
      have hup := hb.2 fromKey rfl
      omega

theorem eventsBetween_unchanged {cache : Cache String} (hn : Notified table cache)
    (h : hasChanged cache roomId direction fromKey toKey = false) :
    eventsBetween table roomId direction fromKey toKey = [] := by
  rw [eq_nil_iff_forall_not_mem]
  intro row hr
  obtain ⟨hm,⟨⟨rfl,-⟩,-⟩,hb⟩ := mem_eventsBetween.mp hr
  rw [between,filterResultsByStream_iff] at hb
  have hs : ∀ t ∈ lowerToken direction fromKey toKey,
      hasEntityChanged cache row.roomId t.stream = true := by
    intro t ht
    exact hasEntityChanged_of_row hn hm (lt_of_le_of_lt (t.stream_le_pos _) (hb.1 t ht))
  cases direction with
  | forwards =>
    rw [hasChanged,hs fromKey rfl] at h
    exact Bool.noConfusion h
  | backwards =>
    cases toKey with
    | none => simp [hasChanged] at h
    | some t =>
      simp only [hasChanged,all_some,hs t rfl] at h
      exact Bool.noConfusion h

theorem eventsBetween_eq (hl : Live fromKey toKey) :
    eventsBetween table roomId direction fromKey toKey =
      (rangeRows table roomId direction fromKey toKey).filter
        (fun row => served row && between direction fromKey toKey row) := by
  rw [eventsBetween,rangeRows,← ordered_filter,List.filter_filter]
  congr 1
  apply filter_congr
  intro row _
  rw [Bool.eq_iff_iff]
  simp only [Bool.and_eq_true,decide_eq_true_eq,Bool.not_eq_true']
  constructor
  · rintro ⟨⟨⟨hr,ho⟩,hs⟩,hb⟩
    exact ⟨⟨hs,hb⟩,inRange_of_between hl hr ho hb⟩
  · rintro ⟨⟨hs,hb⟩,hin⟩
    exact ⟨⟨((inRange_iff hl).mp hin).1,hs⟩,hb⟩

end Range

section Pages

variable {table : EventsTable} {roomId : String} {direction : Direction} {fromKey : RoomStreamToken}
  {toKey : Option RoomStreamToken} {last : EventRow}

theorem live_next (hl : Live fromKey toKey) :
    Live (generateNextToken direction last.streamOrdering) toKey := by
  refine ⟨?_,hl.2⟩
  cases direction <;> rfl

theorem inRange_next (hl : Live fromKey toKey)
    (hla : inRange roomId direction fromKey toKey last = true) (row : EventRow) :
    inRange roomId direction (generateNextToken direction last.streamOrdering) toKey row = true ↔
      inRange roomId direction fromKey toKey row = true ∧ before direction last row := by
  rw [inRange_iff hl] at hla
  rw [inRange_iff (live_next hl),inRange_iff hl]
  cases direction with
  | forwards =>
    have hs := hla.2.1 fromKey rfl
    simp only [lowerToken,generateNextToken,mem_def,some.injEq,forall_eq',RoomStreamToken.plain]
    constructor
    · rintro ⟨hr,hlow,hup⟩
      exact ⟨⟨hr,by omega,hup⟩,hlow⟩
    · rintro ⟨⟨hr,-,hup⟩,ha⟩
      exact ⟨hr,ha,hup⟩
  | backwards =>
    have hs := hla.2.2 fromKey rfl
    simp only [upperToken,generateNextToken,mem_def,some.injEq,
      forall_eq',before,RoomStreamToken.plain_getMaxStreamPos]
    constructor
    · rintro ⟨hr,hlow,hup⟩
      exact ⟨⟨hr,hlow,by omega⟩,by omega⟩
    · rintro ⟨⟨hr,hlow,-⟩,ha⟩
      exact ⟨hr,hlow,by omega⟩

theorem rangeRows_next (hl : Live fromKey toKey)
    (hla : inRange roomId direction fromKey toKey last = true) :
    rangeRows table roomId direction (generateNextToken direction last.streamOrdering) toKey =
      (rangeRows table roomId direction fromKey toKey).filter
        (fun row => before direction last row) := by
  rw [rangeRows,rangeRows,← ordered_filter,List.filter_filter]
  congr 1
  apply filter_congr
  intro row _
  rw [Bool.eq_iff_iff,inRange_next hl hla,Bool.and_eq_true,decide_eq_true_eq,and_comm]

theorem between_next {row : EventRow} (h : before direction last row) :
    between direction (generateNextToken direction last.streamOrdering) toKey row =
      admitted direction toKey row := by
  have hplain : ∀ s w, (RoomStreamToken.plain s).getStreamPosForInstance w = s := fun _ _ => rfl
  cases direction with
  | forwards =>
    have hlt : last.streamOrdering < row.streamOrdering := h
    simp [between,admitted,filterResultsByStream,lowerToken,upperToken,generateNextToken,hplain,hlt]
  | backwards =>
    have hlt : row.streamOrdering ≤ last.streamOrdering-1 := Int.le_sub_one_of_lt h
    simp [between,admitted,filterResultsByStream,lowerToken,upperToken,generateNextToken,hplain,hlt]

theorem filter_before_eq_drop {rows : List EventRow} (hr : rows.Pairwise (before direction))
    {limit : ℕ} (hl : (rows.take limit).getLast? = some last) :
    rows.filter (fun row => before direction last row) = rows.drop limit := by
  have hi : ¬before direction last last := by
    cases direction <;> exact lt_irrefl last.streamOrdering
  have ha : ∀ row, before direction row last → ¬before direction last row := by
    intro row hrow
    cases direction <;> exact lt_asymm hrow
  obtain ⟨front,hf⟩ : ∃ front, rows.take limit = front ++ [last] := getLast?_eq_some_iff.mp hl
  have hs : rows = front ++ [last] ++ rows.drop limit := by
    rw [← hf,take_append_drop]
  have hp := hr
  rw [hs,pairwise_append,pairwise_append] at hp
  have ht : (front ++ [last]).filter (fun row => before direction last row) = [] := by
    rw [filter_eq_nil_iff]
    intro row hrow
    rw [decide_eq_true_eq]
    rcases mem_append.mp hrow with hrow | hrow
    · exact ha row (hp.1.2.2 row hrow last (mem_singleton_self _))
    · rw [mem_singleton.mp hrow]
      exact hi
  have hd : (rows.drop limit).filter (fun row => before direction last row) = rows.drop limit := by
    rw [filter_eq_self]
    intro row hrow
    exact decide_eq_true (hp.2.2 last (by simp) row hrow)
  calc rows.filter (fun row => before direction last row)
      = (front ++ [last] ++ rows.drop limit).filter (fun row => before direction last row) := by
        rw [← hs]
    _ = rows.drop limit := by rw [filter_append,ht,hd,nil_append]

theorem not_before_last {rows : List EventRow} (hr : rows.Pairwise (before direction))
    (hla : rows.getLast? = some last) : ∀ row ∈ rows, ¬before direction last row := by
  rw [← take_length (l := rows)] at hla
  have hdrop := filter_before_eq_drop hr hla
  rw [drop_length,filter_eq_nil_iff] at hdrop
  simpa using hdrop

variable {rows : List EventRow} {keeps event : EventRow → Bool} {limit : ℕ}

theorem pageRows_isPrefix (limit : ℕ) (keeps : EventRow → Bool) (rows : List EventRow) :
    pageRows limit keeps rows <+: rows.filter keeps :=
  ( take_prefix _ _).trans (( take_prefix _ _).filter _)

theorem pageRows_sublist : (pageRows limit keeps rows).Sublist rows :=
  (pageRows_isPrefix _ _ _).sublist.trans filter_sublist

theorem filter_eq_page (hr : rows.Pairwise (before direction))
    (he : ∀ row ∈ rows, event row → keeps row)
    (hla : (pageRows limit keeps rows).getLast? = some last) :
    rows.filter event = (pageRows limit keeps rows).filter event ++
      (rows.filter (fun row => before direction last row)).filter event := by
  obtain ⟨rest,hrest⟩ := pageRows_isPrefix limit keeps rows
  have hkept : ∀ l : List EventRow, l ⊆ rows → (l.filter keeps).filter event = l.filter event := by
    intro l hl
    rw [List.filter_filter]
    apply filter_congr
    intro row hrow
    cases hev : event row with
    | false => rfl
    | true => exact he row (hl hrow) hev
  have hafter : (rows.filter keeps).filter (fun row => before direction last row) = rest := by
    have htake : (rows.filter keeps).take (pageRows limit keeps rows).length =
        pageRows limit keeps rows := by rw [← hrest,take_left]
    rw [filter_before_eq_drop (hr.filter keeps) (htake ▸ hla),← hrest,drop_left]
  calc rows.filter event
      = (rows.filter keeps).filter event := (hkept rows (List.Subset.refl _)).symm
    _ = (pageRows limit keeps rows).filter event ++ rest.filter event := by
      rw [← hrest,filter_append]
    _ = _ := by rw [← hafter,filter_comm,hkept rows (List.Subset.refl _),filter_comm]

end Pages

section Main

variable {table : EventsTable} {cache : Cache String} {roomId : String} {direction : Direction}
  {fromKey : RoomStreamToken} {toKey : Option RoomStreamToken} {limit : ℕ}

/-- Each call gives what is served of a page of the rows in its range. -/
theorem paginate_page (hn : Notified table cache) (hl : Live fromKey toKey) (roomId : String)
    (direction : Direction) (limit : ℕ) :
    ∃ page, paginateRoomEventsByStreamOrdering table cache roomId fromKey toKey direction limit =
        .ok page ∧
      page.items = (pageRows limit (between direction fromKey toKey)
        (rangeRows table roomId direction fromKey toKey)).filter served ∧
      (page.items ≠ [] → (∀ last ∈ (pageRows limit (between direction fromKey toKey)
          (rangeRows table roomId direction fromKey toKey)).getLast?,
            page.next = generateNextToken direction last.streamOrdering) ∧
        (page.limited = true ↔ 2*limit ≤ (rangeRows table roomId direction fromKey toKey).length ∨
          limit < ((rangeRows table roomId direction fromKey toKey).filter
            (between direction fromKey toKey)).length)) := by
  have hp : paginateRoomEventsByStreamOrdering table cache roomId fromKey toKey direction limit =
      if isReversed direction fromKey toKey then .ok ⟨[],toKey.getD fromKey,false⟩
      else if !hasChanged cache roomId direction fromKey toKey then
        .ok ⟨[],toKey.getD fromKey,false⟩
      else .ok (pageOf direction fromKey toKey limit
        (fetchedRows table roomId direction fromKey toKey limit)) := by
    have hto : ¬toKey.any (fun t => t.topological.isSome) = true := by
      cases toKey with
      | none => simp
      | some t => simp [hl.2 t rfl]
    rw [paginateRoomEventsByStreamOrdering,raiseIf,if_neg (by simp [hl.1]),ok_bind,raiseIf,
      if_neg hto,ok_bind]
  -- where nothing is between the tokens, nothing of the page is served
  have hempty : eventsBetween table roomId direction fromKey toKey = [] →
      (pageRows limit (between direction fromKey toKey)
        (rangeRows table roomId direction fromKey toKey)).filter served = [] := by
    intro hnil
    rw [eventsBetween_eq hl,← List.filter_filter] at hnil
    exact prefix_nil.mp (hnil ▸ (pageRows_isPrefix _ _ _).filter served)
  rw [hp]
  by_cases hr : isReversed direction fromKey toKey = true
  · rw [if_pos hr]
    exact ⟨_,rfl,(hempty (eventsBetween_reversed hr)).symm,fun h => absurd rfl h⟩
  rw [if_neg hr]
  cases hc : hasChanged cache roomId direction fromKey toKey with
  | false =>
    exact ⟨_,rfl,(hempty (eventsBetween_unchanged hn hc)).symm,fun h => absurd rfl h⟩
  | true =>
    refine ⟨_,rfl,rfl,fun _ => ⟨fun last hlast => ?_,?_⟩⟩
    · change (match (pageRows limit (between direction fromKey toKey)
        (rangeRows table roomId direction fromKey toKey)).getLast? with
          | some last => generateNextToken direction last.streamOrdering
          | none => toKey.getD fromKey) = _
      rw [hlast]
    · change (decide (2*limit ≤ ((rangeRows table roomId direction fromKey toKey).take
          (2*limit)).length) || decide (limit < (((rangeRows table roomId direction fromKey
            toKey).take (2*limit)).filter (between direction fromKey toKey)).length)) = true ↔ _
      generalize rangeRows table roomId direction fromKey toKey = rows
      rw [Bool.or_eq_true,decide_eq_true_eq,decide_eq_true_eq,length_take]
      by_cases hle : 2*limit ≤ rows.length
      · simp [hle]
      · rw [take_of_length_le (by omega)]
        omega

theorem filter_served {rows : List EventRow} {keeps event : EventRow → Bool}
    (hevent : ∀ row ∈ rows, event row → served row ∧ keeps row)
    (hserved : ∀ row ∈ pageRows limit keeps rows, served row → event row) :
    (pageRows limit keeps rows).filter served = (pageRows limit keeps rows).filter event := by
  apply filter_congr
  intro row hrow
  exact Bool.eq_iff_iff.mpr
    ⟨hserved row hrow,fun he => (hevent row (pageRows_sublist.subset hrow) he).1⟩

theorem filter_eq_page_iff {rows : List EventRow} {keeps event : EventRow → Bool}
    (hr : rows.Pairwise (before direction))
    (hevent : ∀ row ∈ rows, event row → served row ∧ keeps row) :
    rows.filter event = (pageRows limit keeps rows).filter served ↔
      (∀ row ∈ pageRows limit keeps rows, served row → event row) ∧
        ∀ row ∈ rows, event row → row ∈ pageRows limit keeps rows := by
  constructor
  · intro heq
    refine ⟨fun row hrow hs => ?_,fun row hrow he => ?_⟩
    · exact (mem_filter.mp (heq ▸ mem_filter.mpr ⟨hrow,hs⟩)).2
    · exact (mem_filter.mp (heq ▸ mem_filter.mpr ⟨hrow,he⟩)).1
  · rintro ⟨hserved,hleft⟩
    rw [filter_served hevent hserved]
    cases hlast : (pageRows limit keeps rows).getLast? with
    | none =>
      rw [getLast?_eq_none_iff] at hlast
      rw [hlast] at hleft ⊢
      exact filter_eq_nil_iff.mpr (fun row hrow he => absurd (hleft row hrow he) not_mem_nil)
    | some last =>
      rw [filter_eq_page hr (fun row hrow he => (hevent row hrow he).2) hlast,append_right_eq_self,
        filter_eq_nil_iff]
      intro row hrow he
      obtain ⟨hmem,hbefore⟩ := mem_filter.mp hrow
      exact not_before_last (hr.sublist pageRows_sublist) hlast row (hleft row hmem he)
        (of_decide_eq_true hbefore)

theorem collects_iff_readsEach (hn : Notified table cache) (roomId : String)
    (direction : Direction) (limit : ℕ) (event : EventRow → Bool) (pages : ℕ)
    {key : RoomStreamToken} {keeps : EventRow → Bool} {rows : List EventRow}
    (hl : Live key toKey) (hrows : rangeRows table roomId direction key toKey = rows)
    (hkeeps : ∀ row ∈ rows, between direction key toKey row = keeps row)
    (hevent : ∀ row ∈ rows, event row → served row ∧ keeps row ∧ admitted direction toKey row)
    (hlen : rows.length < pages) :
    Collects (fun key => paginateRoomEventsByStreamOrdering table cache roomId key toKey
        direction limit) key (rows.filter event) ↔
      ReadsEach direction limit event (admitted direction toKey) pages keeps rows := by
  induction pages generalizing key keeps rows with
  | zero => omega
  | succ pages ih =>
    have hr : rows.Pairwise (before direction) :=
      hrows ▸ ordered_pairwise (table.sorted.filter _)
    have hkept : ∀ row ∈ rows, event row → served row ∧ keeps row :=
      fun row hrow he => ⟨(hevent row hrow he).1,(hevent row hrow he).2.1⟩
    have hpr : pageRows limit (between direction key toKey) rows = pageRows limit keeps rows := by
      unfold pageRows
      rw [filter_congr (fun row hrow => hkeeps row (mem_of_mem_take hrow))]
    obtain ⟨page,hpage,hitems,hmore⟩ := paginate_page hn hl roomId direction limit
    rw [hrows,hpr] at hitems hmore
    rw [filter_congr hkeeps] at hmore
    rw [collects_iff hpage,ReadsEach]
    have hany : (pageRows limit keeps rows).any served = true ↔ page.items ≠ [] := by
      rw [hitems,Ne,filter_eq_nil_iff,List.any_eq_true]
      push Not
      rfl
    by_cases hserves : page.items = []
    · rw [if_pos (.inl hserves),if_neg (fun h => hany.mp h.1 hserves),hitems]
      exact filter_eq_page_iff hr hkept
    obtain ⟨hnext,hlimited⟩ := hmore hserves
    by_cases hlim : page.limited = true
    · obtain ⟨last,hlast⟩ : ∃ last, (pageRows limit keeps rows).getLast? = some last := by
        refine Option.ne_none_iff_exists'.mp (fun hnone => hserves ?_)
        rw [hitems,getLast?_eq_none_iff.mp hnone]
        rfl
      have hstop : ¬(page.items = [] ∨ page.limited = false) := by simp [hserves,hlim]
      rw [if_neg hstop,if_pos ⟨hany.mpr hserves,hlimited.mp hlim⟩,hnext last hlast,hlast]
      simp only [all_some]
      have hmem := pageRows_sublist.subset (mem_of_getLast? hlast)
      have hin : inRange roomId direction key toKey last = true := by
        rw [← hrows,rangeRows,mem_ordered] at hmem
        exact (mem_filter.mp hmem).2
      have hsplit := filter_eq_page hr (fun row hrow he => (hkept row hrow he).2) hlast
      have hafter := ih (live_next hl) ((rangeRows_next hl hin).trans (by rw [hrows]))
        (fun row hrow => between_next (of_decide_eq_true (mem_filter.mp hrow).2))
        (fun row hrow he => ?_) ?_
      · rw [← hafter,hsplit,hitems]
        constructor
        · rintro ⟨rest,heq,hrest⟩
          have hserved : ∀ row ∈ pageRows limit keeps rows, served row → event row := by
            intro row hrow hs
            have hleft : row ∈ rows.filter event := by
              rw [hsplit,heq]
              exact mem_append_left _ (mem_filter.mpr ⟨hrow,hs⟩)
            exact (mem_filter.mp hleft).2
          rw [filter_served hkept hserved] at heq
          exact ⟨hserved,append_cancel_left heq ▸ hrest⟩
        · rintro ⟨hserved,hrest⟩
          exact ⟨_,by rw [filter_served hkept hserved],hrest⟩
      · have ha := hevent row (mem_filter.mp hrow).1 he
        exact ⟨ha.1,ha.2.2,ha.2.2⟩
      · have hlt : (rows.filter (fun row => before direction last row)).length < rows.length := by
          refine length_filter_lt_length_iff_exists.mpr ⟨last,hmem,?_⟩
          simpa using not_before_last (hr.sublist pageRows_sublist) hlast last
            (mem_of_getLast? hlast)
        omega
    · rw [if_pos (.inr (Bool.eq_false_iff.mpr hlim)),
        if_neg (fun h => hlim (hlimited.mpr h.2)),hitems]
      exact filter_eq_page_iff hr hkept

def rowAt (writer : String) (streamOrdering : ℤ) : EventRow where
  eventId := "$" ++ writer
  roomId := "!r"
  type := "m.room.message"
  instanceName := some writer
  streamOrdering := streamOrdering
  topologicalOrdering := streamOrdering
  outlier := false
  rejected := false
  withheldRedaction := false

def vectorToken (stream : ℤ) (writer : String) (pos : ℤ) (h : stream < pos) : RoomStreamToken where
  topological := none
  stream := stream
  instanceMap := AList.insert writer pos ∅
  ahead := by
    intro instanceName p hp
    rcases Dict.set_cases hp with ⟨-,rfl⟩ | ⟨-,hp⟩
    · exact h
    · simp at hp

def alternatingTable : EventsTable where
  rows := [rowAt "w1" 2,rowAt "w2" 3,rowAt "w1" 5,rowAt "w2" 6]
  sorted := by decide

def laggingTable : EventsTable where
  rows := [rowAt "w1" 2,rowAt "w1" 3,rowAt "w2" 5]
  sorted := by decide

end Main

end Synapse.Pagination
