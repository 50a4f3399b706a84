import Synapse.Dict
import Synapse.Runs

/-!
# Locks between worker instances

A lock is a row of `worker_locks` with a token, together with a `Lock` object in
the memory of the instance that took it. Calls are suspended at each `await`, so
that a call is a sequence of operations between which any others may come. Each
statement of the database is one operation. The read/write locks have a table and
a map of their own and are not part of this.
-/

set_option autoImplicit false

namespace Synapse.LockStore
open Dict

abbrev LockKey := String × String

structure Row where
  instanceName : String
  token : String
  lastRenewedTs : ℤ
  deriving DecidableEq

def lockTimeoutMs : ℤ := 2*60*1000

/-- The call that renews a lock, which is set up a while after the lock. -/
inductive LoopingCall where
  | notSetUp
  | running
  | stopped
  deriving DecidableEq

structure Lock where
  instanceName : String
  key : LockKey
  token : String
  loopingCall : LoopingCall
  dropped : Bool
  deriving DecidableEq

/-- Where a call of `try_acquire_lock` is suspended. -/
inductive Acquisition where
  | validating (lock : ℕ)
  | validated (lastRenewedTs : Option ℤ)
  | inserting (now : ℤ) (token : String)
  | inserted (now : ℤ) (token : String) (didLock : Bool)
  deriving DecidableEq

structure Renewal where
  instanceName : String
  key : LockKey
  token : String
  lastRenewedTs : ℤ
  deriving DecidableEq

structure Release where
  lock : ℕ
  deleted : Bool
  deriving DecidableEq

/-- The database and the memories of all instances. What is in the memory of an
instance is under its name. Lock objects are numbered as they are made. -/
structure Cluster where
  time : ℤ
  workerLocks : Dict LockKey Row
  locks : Dict ℕ Lock
  nextLock : ℕ
  liveLockTokens : Dict (String × LockKey) ℕ
  /-- `_acquiring_locks`, with where the calls are. -/
  acquiringLocks : Dict (String × LockKey) Acquisition
  renewals : Dict ℕ Renewal
  releases : Dict ℕ Release

def start (time : ℤ) (workerLocks : Dict LockKey Row) : Cluster :=
  ⟨time,workerLocks,∅,0,∅,∅,∅,∅⟩

def selectLastRenewedTs (s : Cluster) (lock : Lock) : Option ℤ :=
  match s.workerLocks.lookup lock.key with
  | some row => if row.token = lock.token then some row.lastRenewedTs else none
  | none => none

def withinTimeout (time : ℤ) : Option ℤ → Bool
  | some lastRenewedTs => time - lockTimeoutMs < lastRenewedTs
  | none => false

/-- `is_still_valid`, with the row read at the time of the comparison. -/
def isStillValid (s : Cluster) (lock : Lock) : Bool :=
  withinTimeout s.time (selectLastRenewedTs s lock)

section Acquire

variable (instanceName : String) (key : LockKey)

def setAcquisition (acquisition : Acquisition) (s : Cluster) : Cluster :=
  { s with acquiringLocks := s.acquiringLocks.insert (instanceName,key) acquisition }

def endAcquisition (s : Cluster) : Cluster :=
  { s with acquiringLocks := s.acquiringLocks.erase (instanceName,key) }

/-- `try_acquire_lock` up to its first `await`. The token is the one that is drawn
if the statement is sent. -/
def tryAcquireLock (token : String) (s : Cluster) : Cluster :=
  if (instanceName,key) ∈ s.acquiringLocks then s
  else
    match s.liveLockTokens.lookup (instanceName,key) with
    | some lock => setAcquisition instanceName key (.validating lock) s
    | none => setAcquisition instanceName key (.inserting s.time token) s

def readValidity (s : Cluster) : Cluster :=
  match s.acquiringLocks.lookup (instanceName,key) with
  | some (.validating lock) =>
    setAcquisition instanceName key
      (.validated ((s.locks.lookup lock).bind (selectLastRenewedTs s))) s
  | _ => s

def checkValidity (token : String) (s : Cluster) : Cluster :=
  match s.acquiringLocks.lookup (instanceName,key) with
  | some (.validated lastRenewedTs) =>
    if withinTimeout s.time lastRenewedTs then endAcquisition instanceName key s
    else setAcquisition instanceName key (.inserting s.time token) s
  | _ => s

def takesRow (now : ℤ) : Option Row → Bool
  | none => true
  | some row => row.lastRenewedTs < now - lockTimeoutMs ∨ row.instanceName = instanceName

/-- `_try_acquire_lock_txn` -/
def insertRow (s : Cluster) : Cluster :=
  match s.acquiringLocks.lookup (instanceName,key) with
  | some (.inserting now token) =>
    if takesRow instanceName now (s.workerLocks.lookup key) then
      setAcquisition instanceName key (.inserted now token true)
        { s with workerLocks := s.workerLocks.insert key ⟨instanceName,token,now⟩ }
    else setAcquisition instanceName key (.inserted now token false) s
  | _ => s

def finishAcquire (s : Cluster) : Cluster :=
  match s.acquiringLocks.lookup (instanceName,key) with
  | some (.inserted _ token true) =>
    endAcquisition instanceName key
      { s with
        locks := s.locks.insert s.nextLock ⟨instanceName,key,token,.notSetUp,false⟩
        nextLock := s.nextLock + 1
        liveLockTokens := s.liveLockTokens.insert (instanceName,key) s.nextLock }
  | some (.inserted _ _ false) => endAcquisition instanceName key s
  | _ => s

end Acquire

def setLock (id : ℕ) (lock : Lock) (s : Cluster) : Cluster :=
  { s with locks := s.locks.insert id lock }

def setupLoopingCall (id : ℕ) (s : Cluster) : Cluster :=
  match s.locks.lookup id with
  | some lock =>
    if lock.loopingCall = .notSetUp then setLock id { lock with loopingCall := .running } s else s
  | none => s

/-- `_renew` up to its statement. It is not called again before it has ended. -/
def startRenewal (id : ℕ) (s : Cluster) : Cluster :=
  match s.locks.lookup id with
  | some lock =>
    if lock.loopingCall = .running ∧ id ∉ s.renewals then
      { s with renewals := s.renewals.insert id ⟨lock.instanceName,lock.key,lock.token,s.time⟩ }
    else s
  | none => s

def endRenewal (id : ℕ) (s : Cluster) : Cluster := { s with renewals := s.renewals.erase id }

def renewRow (id : ℕ) (s : Cluster) : Cluster :=
  match s.renewals.lookup id with
  | some renewal =>
    match s.workerLocks.lookup renewal.key with
    | some row =>
      if row.token = renewal.token then
        let row := { row with lastRenewedTs := renewal.lastRenewedTs }
        endRenewal id { s with workerLocks := s.workerLocks.insert renewal.key row }
      else endRenewal id s
    | none => endRenewal id s
  | none => s

/-- `release` up to its statement, as the call of a number not in use. -/
def release (call id : ℕ) (s : Cluster) : Cluster :=
  match s.locks.lookup id with
  | some lock =>
    if lock.dropped ∨ call ∈ s.releases then s
    else
      { setLock id { lock with loopingCall :=
          if lock.loopingCall = .running then .stopped else lock.loopingCall } s with
        releases := s.releases.insert call ⟨id,false⟩ }
  | none => s

def deleteRow (call : ℕ) (s : Cluster) : Cluster :=
  match s.releases.lookup call with
  | some ⟨id,false⟩ =>
    let deleted := { s with releases := s.releases.insert call ⟨id,true⟩ }
    match s.locks.lookup id with
    | some lock =>
      if (selectLastRenewedTs s lock).isSome then
        { deleted with workerLocks := s.workerLocks.erase lock.key }
      else deleted
    | none => deleted
  | _ => s

def endRelease (call : ℕ) (s : Cluster) : Cluster := { s with releases := s.releases.erase call }

/-- Whichever lock is live under the key is taken out. -/
def finishRelease (call : ℕ) (s : Cluster) : Cluster :=
  match s.releases.lookup call with
  | some ⟨id,true⟩ =>
    match s.locks.lookup id with
    | some lock =>
      endRelease call (setLock id { lock with dropped := true }
        { s with liveLockTokens := s.liveLockTokens.erase (lock.instanceName,lock.key) })
    | none => endRelease call s
  | _ => s

/-- A lock that nothing refers to any more. It is not live any more either, and is
not renewed. -/
def collect (id : ℕ) (s : Cluster) : Cluster :=
  match s.locks.lookup id with
  | some lock =>
    if lock.loopingCall = .notSetUp ∨ .validating id ∈ values s.acquiringLocks ∨
        id ∈ (values s.releases).map Release.lock then s
    else
      { s with
        locks := s.locks.erase id
        liveLockTokens := filter s.liveLockTokens (fun _ live => live ≠ id) }
  | none => s

/-- What an instance has in memory is lost, and its calls with it. -/
def restart (instanceName : String) (s : Cluster) : Cluster :=
  { s with
    locks := filter s.locks (fun _ lock => lock.instanceName ≠ instanceName)
    liveLockTokens := filterKeys s.liveLockTokens (fun key => key.1 ≠ instanceName)
    acquiringLocks := filterKeys s.acquiringLocks (fun key => key.1 ≠ instanceName)
    renewals := filter s.renewals (fun _ renewal => renewal.instanceName ≠ instanceName)
    releases := filter s.releases (fun _ release =>
      (s.locks.lookup release.lock).all (fun lock => lock.instanceName ≠ instanceName)) }

/-- Calls fail where their statement does. -/
inductive Op where
  | advance (ms : ℕ)
  | tryAcquireLock (instanceName : String) (key : LockKey) (token : String)
  | readValidity (instanceName : String) (key : LockKey)
  | checkValidity (instanceName : String) (key : LockKey) (token : String)
  | insertRow (instanceName : String) (key : LockKey)
  | finishAcquire (instanceName : String) (key : LockKey)
  | failAcquire (instanceName : String) (key : LockKey)
  | setupLoopingCall (lock : ℕ)
  | startRenewal (lock : ℕ)
  | renewRow (lock : ℕ)
  | failRenewal (lock : ℕ)
  | release (call lock : ℕ)
  | deleteRow (call : ℕ)
  | finishRelease (call : ℕ)
  | failRelease (call : ℕ)
  | collect (lock : ℕ)
  | restart (instanceName : String)

def step : Op → Cluster → Cluster
  | .advance ms, s => { s with time := s.time + ms }
  | .tryAcquireLock instanceName key token, s => tryAcquireLock instanceName key token s
  | .readValidity instanceName key, s => readValidity instanceName key s
  | .checkValidity instanceName key token, s => checkValidity instanceName key token s
  | .insertRow instanceName key, s => insertRow instanceName key s
  | .finishAcquire instanceName key, s => finishAcquire instanceName key s
  | .failAcquire instanceName key, s => endAcquisition instanceName key s
  | .setupLoopingCall lock, s => setupLoopingCall lock s
  | .startRenewal lock, s => startRenewal lock s
  | .renewRow lock, s => renewRow lock s
  | .failRenewal lock, s => endRenewal lock s
  | .release call lock, s => release call lock s
  | .deleteRow call, s => deleteRow call s
  | .finishRelease call, s => finishRelease call s
  | .failRelease call, s => endRelease call s
  | .collect lock, s => collect lock s
  | .restart instanceName, s => restart instanceName s

abbrev run : List Op → Cluster → Cluster := Runs.run step

end Synapse.LockStore
