import Synapse.MultiWriterIdGenerator
import Synapse.Runs

/-!
# A replicated stream

The writers of one stream send its rows and their positions, and a reader takes
them in from the connection that it has. Commands are in flight for each writer in
their order, and those that have arrived wait in the queue of the stream. Where
commands were not sent or did not arrive, `lost` stands for them.
-/

set_option autoImplicit false

namespace Synapse.ReplicationStream
open MultiWriterIdGenerator (Generator Database create advance getCurrentTokenForWriter)

variable {Row : Type}

def between (rows : List (ℤ × Row)) (fromToken uptoToken : ℤ) : List (ℤ × Row) :=
  rows.filter (fun p => fromToken < p.1 ∧ p.1 ≤ uptoToken)

/-- What the query for the rows of a writer comes to: the updates, how far they go, and
whether there are more. -/
structure UpdateFunction (Row : Type) where
  fetch : List (ℤ × Row) → ℤ → ℤ → List (ℤ × Row) × ℤ × Bool
  updates : ∀ rows fromToken uptoToken, (fetch rows fromToken uptoToken).1 =
    between rows fromToken (fetch rows fromToken uptoToken).2.1
  upto_le : ∀ rows fromToken uptoToken, (fetch rows fromToken uptoToken).2.1 ≤ uptoToken
  limited : ∀ rows fromToken uptoToken, (fetch rows fromToken uptoToken).2.2 = true →
    fromToken < (fetch rows fromToken uptoToken).2.1
  complete : ∀ rows fromToken uptoToken, (fetch rows fromToken uptoToken).2.2 = false →
    (fetch rows fromToken uptoToken).2.1 = uptoToken

def getUpdatesSince (u : UpdateFunction Row) (rows : List (ℤ × Row)) (fromToken uptoToken : ℤ) :
    List (ℤ × Row) × ℤ × Bool :=
  if fromToken = uptoToken then ([],uptoToken,false) else u.fetch rows fromToken uptoToken

/-- `_batch_updates` of the writer: the token is left out where the next row has the
same. -/
def batchTokens : List (ℤ × Row) → List (Option ℤ × Row)
  | [] => []
  | [update] => [(some update.1,update.2)]
  | update::next::updates =>
    (if update.1 = next.1 then none else some update.1,update.2)::batchTokens (next::updates)

def batchFrom (batchToken : ℤ) (batch : List Row) : List (ℤ × Row) → List (ℤ × List Row)
  | [] => [(batchToken,batch)]
  | (token,row)::updates =>
    if token ≠ batchToken then (batchToken,batch)::batchFrom token [row] updates
    else batchFrom batchToken (batch ++ [row]) updates

/-- `_batch_updates` of the reader: the rows with the same token together. -/
def batchUpdates : List (ℤ × Row) → List (ℤ × List Row)
  | [] => []
  | (token,row)::updates => batchFrom token [row] updates

inductive Command (Row : Type) where
  | rdata (token : Option ℤ) (row : Row)
  | position (prevToken newToken : ℤ)
  | lost

def toRdata (update : Option ℤ × Row) : Command Row := .rdata update.1 update.2

/-- A row is seen once the writer has advanced to its position. -/
structure Writer (Row : Type) where
  rows : List (ℤ × Row)
  currentToken : ℤ
  lastToken : ℤ
  outbox : List (Command Row)

def minimalLocalCurrentToken (w : Writer Row) : ℤ :=
  match w.rows.getLast? with
  | some update => update.1
  | none => w.currentToken

/-- Rows are persisted in the order of their positions, and the writer advances. -/
def write (rows : List (ℤ × Row)) (uptoToken : ℤ) (w : Writer Row) : Writer Row :=
  if rows.Pairwise (fun p q => p.1 ≤ q.1) ∧
      (∀ p ∈ rows, w.currentToken < p.1 ∧ p.1 ≤ uptoToken) ∧ w.currentToken ≤ uptoToken then
    { w with rows := w.rows ++ rows, currentToken := uptoToken }
  else w

def getUpdates (u : UpdateFunction Row) (w : Writer Row) :
    (List (ℤ × Row) × ℤ × Bool) × Writer Row :=
  if w.lastToken ≥ minimalLocalCurrentToken w then
    (([],w.currentToken,false),{ w with lastToken := w.currentToken })
  else
    let result := getUpdatesSince u w.rows w.lastToken w.currentToken
    (result,{ w with lastToken := result.2.1 })

def send (commands : List (Command Row)) (w : Writer Row) : Writer Row :=
  { w with outbox := w.outbox ++ commands }

/-- What `_run_notifier_loop` does for the stream. -/
def sendUpdates (u : UpdateFunction Row) (isCaches : Bool) (w : Writer Row) : Writer Row :=
  if w.lastToken = w.currentToken then w
  else
    let ((updates,currentToken,_),w') := getUpdates u w
    match updates.getLast? with
    | none =>
      if isCaches ∧ minimalLocalCurrentToken w' ≤ w.lastToken then w'
      else send [.position w.lastToken currentToken] w'
    | some last =>
      send ((batchTokens updates).map toRdata ++
        if last.1 < currentToken then [.position last.1 currentToken] else []) w'

def announcePosition (w : Writer Row) : Writer Row :=
  send [.position w.lastToken w.lastToken] w

def discardUpdatesAndAdvance (w : Writer Row) : Writer Row :=
  send [.lost] { w with lastToken := w.currentToken }

def lose (count : ℕ) (w : Writer Row) : Writer Row :=
  if count = 0 then w else { w with outbox := .lost::w.outbox.drop count }

structure Entry (Row : Type) where
  instanceName : String
  command : Command Row
  conn : ℕ
  discarded : Bool

/-- A call of the data handler. For a position there are no rows. -/
structure Handled (Row : Type) where
  instanceName : String
  token : ℤ
  rows : List Row
  deriving DecidableEq

structure Reader (Row : Type) where
  generator : Generator String
  pendingBatch : List Row
  streamsByConnection : Finset ℕ
  queue : List (Entry Row)
  handled : List (Handled Row)
  conn : ℕ
  /-- The writers of which commands were missed since their last position. -/
  behind : Finset String
  /-- The writer of the last row of the pending batch. -/
  pendingOf : Option String

def currentToken (r : Reader Row) (instanceName : String) : ℤ :=
  getCurrentTokenForWriter r.generator instanceName

/-- `on_rdata` of the data handler, which advances the generator of the store. -/
def onRdata (instanceName : String) (r : Reader Row) (batch : ℤ × List Row) : Reader Row :=
  { r with
    generator := advance r.generator instanceName batch.1
    handled := r.handled ++ [⟨instanceName,batch.1,batch.2⟩] }

def processRdata (instanceName : String) (conn : ℕ) (token : Option ℤ) (row : Row)
    (r : Reader Row) : Reader Row :=
  if conn ∉ r.streamsByConnection then { r with behind := insert instanceName r.behind }
  else
    match token with
    | none =>
      { r with pendingBatch := r.pendingBatch ++ [row], pendingOf := some instanceName }
    | some token =>
      let rows := r.pendingBatch ++ [row]
      let r := { r with pendingBatch := [], pendingOf := none }
      if token ≤ currentToken r instanceName then r else onRdata instanceName r (token,rows)

def discardPosition (instanceName : String) (r : Reader Row) : Reader Row :=
  { r with
    behind := if r.pendingOf = some instanceName then r.behind else r.behind.erase instanceName }

/-- The loop over the missing updates, with as many passes as there are positions. -/
def fetchMissing (u : UpdateFunction Row) (rows : List (ℤ × Row)) (instanceName : String) :
    ℕ → ℤ → ℤ → Reader Row → Reader Row
  | 0, _, _, r => r
  | fuel + 1, current, newToken, r =>
    let (updates,uptoToken,missingUpdates) := getUpdatesSince u rows current newToken
    let r := (batchUpdates updates).foldl (onRdata instanceName) r
    if missingUpdates then fetchMissing u rows instanceName fuel uptoToken newToken r else r

def canDiscardPosition (instanceName : String) (conn : ℕ) (newToken : ℤ) (r : Reader Row) : Bool :=
  newToken ≤ currentToken r instanceName ∧ conn ∈ r.streamsByConnection

/-- The stream is disconnected, and the rows of a batch are dropped. -/
def disconnectStream (instanceName : String) (r : Reader Row) : Reader Row :=
  { r with
    streamsByConnection := ∅
    pendingBatch := []
    pendingOf := none
    behind := (r.behind ∪ r.pendingOf.toFinset).erase instanceName }

def catchUp (u : UpdateFunction Row) (rows : List (ℤ × Row)) (instanceName : String)
    (prevToken newToken : ℤ) (r : Reader Row) : Reader Row :=
  let current := currentToken r instanceName
  if prevToken ≤ current ∧ current ≤ newToken then r
  else fetchMissing u rows instanceName ((newToken - current).toNat + 1) current newToken r

def processPosition (u : UpdateFunction Row) (rows : List (ℤ × Row)) (instanceName : String)
    (conn : ℕ) (prevToken newToken : ℤ) (r : Reader Row) : Reader Row :=
  if canDiscardPosition instanceName conn newToken r then discardPosition instanceName r
  else
    let r := catchUp u rows instanceName prevToken newToken (disconnectStream instanceName r)
    { onRdata instanceName r (newToken,[]) with streamsByConnection := {conn} }

section System

structure System (Row : Type) where
  writers : String → Writer Row
  reader : Reader Row

variable (u : UpdateFunction Row) (isCaches : Bool)

def update (instanceName : String) (f : Writer Row → Writer Row) (s : System Row) : System Row :=
  { s with writers := Function.update s.writers instanceName (f (s.writers instanceName)) }

/-- `on_POSITION` discards a position that is redundant. -/
def discardsOnArrival (instanceName : String) (command : Command Row) (r : Reader Row) : Bool :=
  match command with
  | .position _ newToken => canDiscardPosition instanceName r.conn newToken r
  | _ => false

def arrive (instanceName : String) (command : Command Row) (outbox : List (Command Row))
    (s : System Row) : System Row :=
  { update instanceName (fun w => { w with outbox := outbox }) s with
    reader := { s.reader with
      queue := s.reader.queue ++ [⟨instanceName,command,s.reader.conn,
        discardsOnArrival instanceName command s.reader⟩] } }

/-- The next command of a writer arrives. The reader's own are ignored. -/
def receive (instanceName : String) (s : System Row) : System Row :=
  match (s.writers instanceName).outbox with
  | [] => s
  | command::outbox =>
    if instanceName = s.reader.generator.instanceName then
      update instanceName (fun w => { w with outbox := outbox }) s
    else arrive instanceName command outbox s

/-- The connection is lost and made again, and commands on their way are lost with it. -/
def reconnect (lost : String → ℕ) (s : System Row) : System Row :=
  { s with
    writers := fun instanceName => lose (lost instanceName) (s.writers instanceName)
    reader := { s.reader with
      streamsByConnection := s.reader.streamsByConnection.erase s.reader.conn
      conn := s.reader.conn + 1 } }

def processCommand (entry : Entry Row) (s : System Row) (r : Reader Row) : Reader Row :=
  match entry.command with
  | .rdata token row => processRdata entry.instanceName entry.conn token row r
  | .position prevToken newToken =>
    if entry.discarded then discardPosition entry.instanceName r
    else processPosition u (s.writers entry.instanceName).rows entry.instanceName entry.conn
      prevToken newToken r
  | .lost => { r with behind := insert entry.instanceName r.behind }

def setQueue (queue : List (Entry Row)) (r : Reader Row) : Reader Row := { r with queue := queue }

def process (s : System Row) : System Row :=
  match s.reader.queue with
  | [] => s
  | entry::queue => { s with reader := processCommand u entry s (setQueue queue s.reader) }

inductive Op (Row : Type) where
  | write (instanceName : String) (rows : List (ℤ × Row)) (uptoToken : ℤ)
  | sendUpdates (instanceName : String)
  | announcePosition (instanceName : String)
  | discardUpdatesAndAdvance (instanceName : String)
  | receive (instanceName : String)
  | reconnect (lost : String → ℕ)
  | process

def step : Op Row → System Row → System Row
  | .write instanceName rows uptoToken, s => update instanceName (write rows uptoToken) s
  | .sendUpdates instanceName, s => update instanceName (sendUpdates u isCaches) s
  | .announcePosition instanceName, s => update instanceName announcePosition s
  | .discardUpdatesAndAdvance instanceName, s => update instanceName discardUpdatesAndAdvance s
  | .receive instanceName, s => receive instanceName s
  | .reconnect lost, s => reconnect lost s
  | .process, s => process u s

abbrev run : List (Op Row) → System Row → System Row := Runs.run (step u isCaches)

def start (reader : String) (writers : List String) : System Row :=
  { writers := fun _ => ⟨[],1,1,[]⟩
    reader :=
      { generator := create reader writers true ⟨∅,[],1⟩
        pendingBatch := []
        streamsByConnection := ∅
        queue := []
        handled := []
        conn := 0
        behind := ∅
        pendingOf := none } }

end System

end Synapse.ReplicationStream
