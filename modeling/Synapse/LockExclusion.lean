import Synapse.LockStore

/-!
# When locks exclude each other

The row of a lock that is held has to be known to its instance, as the statement
that takes a row does not look at its age where the instance is the same. A
release that takes out the entry of a later lock, or a renewal that comes after
the lock was found to have timed out, makes it take the row of a valid lock.
-/

set_option autoImplicit false

namespace Synapse.LockStore
open Dict Option AList

def Acquisition.token : Acquisition → Option String
  | .validating _ => none
  | .validated _ => none
  | .inserting _ token => some token
  | .inserted _ token _ => some token

/-- No lock has the token, and no call of another instance or renewal under way. -/
structure Unused (s : Cluster) (instanceName : String) (key : LockKey) (token : String) : Prop where
  locks : ∀ lock ∈ values s.locks, lock.key = key → lock.token ≠ token
  acquiring : ∀ entry ∈ s.acquiringLocks.entries, entry.1.1 ≠ instanceName → entry.1.2 = key →
    entry.2.token ≠ some token
  renewals : ∀ renewal ∈ values s.renewals, renewal.key = key → renewal.token ≠ token

/-- The age of the row has been read, or found to be past the timeout, and the
statement has not been executed. -/
def Acquisition.relying : Acquisition → Bool
  | .validating _ => false
  | .validated _ => true
  | .inserting _ _ => true
  | .inserted _ _ _ => false

/-- A renewal does not come between the check of a lock and the statement of the
call that made it. -/
def RenewedApart (s : Cluster) (id : ℕ) : Prop :=
  ∀ renewal ∈ s.renewals.lookup id, ∀ row ∈ s.workerLocks.lookup renewal.key,
    row.token = renewal.token →
      ∀ acquisition ∈ s.acquiringLocks.lookup (row.instanceName,renewal.key),
        acquisition.relying = false

/-- A call that took the row returns within the timeout. -/
def ReturnedInTime (s : Cluster) (instanceName : String) (key : LockKey) : Prop :=
  ∀ now token, s.acquiringLocks.lookup (instanceName,key) = some (.inserted now token true) →
    s.time ≤ now + lockTimeoutMs

/-- A release takes out the entry of its own lock or none. -/
def TakesOutOwn (s : Cluster) (call : ℕ) : Prop :=
  ∀ release ∈ s.releases.lookup call, ∀ lock ∈ s.locks.lookup release.lock,
    ∀ live ∈ s.liveLockTokens.lookup (lock.instanceName,lock.key), live = release.lock

def Admits : Op → Cluster → Prop
  | .tryAcquireLock instanceName key token, s => Unused s instanceName key token
  | .checkValidity instanceName key token, s => Unused s instanceName key token
  | .renewRow id, s => RenewedApart s id
  | .finishAcquire instanceName key, s => ReturnedInTime s instanceName key
  | .finishRelease call, s => TakesOutOwn s call
  | _, _ => True

abbrev Admitted : List Op → Cluster → Prop := Runs.Admitted step Admits

def Held (s : Cluster) (id : ℕ) (lock : Lock) : Prop :=
  s.locks.lookup id = some lock ∧ lock.dropped = false

def HasRow (s : Cluster) (lock : Lock) (row : Row) : Prop :=
  s.workerLocks.lookup lock.key = some row ∧ row.token = lock.token

def OwnRow (s : Cluster) (instanceName : String) (key : LockKey) (row : Row) : Prop :=
  ∃ id lock, Held s id lock ∧ lock.instanceName = instanceName ∧ lock.key = key ∧ HasRow s lock row

def Consistent (s : Cluster) (instanceName : String) (key : LockKey) : Acquisition → Prop
  | .validating id => s.liveLockTokens.lookup (instanceName,key) = some id ∨
      s.liveLockTokens.lookup (instanceName,key) = none
  | .validated lastRenewedTs =>
      ∀ row, OwnRow s instanceName key row → lastRenewedTs = some row.lastRenewedTs
  | .inserting now _ => now ≤ s.time ∧
      ∀ row, OwnRow s instanceName key row → row.lastRenewedTs ≤ s.time - lockTimeoutMs
  | .inserted now token true => (∀ row, ¬OwnRow s instanceName key row) ∧
      (∀ row, s.workerLocks.lookup key = some row → row.token = token →
        row.instanceName = instanceName) ∧
      (s.time ≤ now + lockTimeoutMs →
        s.workerLocks.lookup key = some ⟨instanceName,token,now⟩)
  | .inserted _ _ false => True

theorem Consistent.mono {s s' : Cluster} {ins : String} {key : LockKey} {acq : Acquisition}
    (h : Consistent s ins key acq) (ht : s.time ≤ s'.time) (hr : s'.workerLocks = s.workerLocks)
    (hl : s'.liveLockTokens.lookup (ins,key) = s.liveLockTokens.lookup (ins,key) ∨
      s'.liveLockTokens.lookup (ins,key) = none)
    (hown : ∀ row, OwnRow s' ins key row → OwnRow s ins key row) : Consistent s' ins key acq := by
  match acq, h with
  | .validating id, h =>
    rcases hl with heq | hn
    · rw [Consistent,heq]
      exact h
    · exact .inr hn
  | .validated lastRenewedTs, hre => exact fun row hrow => hre row (hown row hrow)
  | .inserting now token, ⟨hnow,hold⟩ =>
    refine ⟨hnow.trans ht,?_⟩
    intro row hrow
    have := hold row (hown row hrow)
    omega
  | .inserted now token true, ⟨hn,ho,hrow⟩ =>
    rw [Consistent,hr]
    exact ⟨fun row hrow => hn row (hown row hrow),ho,fun hle => hrow (by omega)⟩
  | .inserted now token false, _ => exact trivial

structure Sound (s : Cluster) : Prop where
  known : ∀ id lock row, Held s id lock → HasRow s lock row →
    row.instanceName = lock.instanceName ∧
      s.liveLockTokens.lookup (lock.instanceName,lock.key) = some id
  unused : ∀ instanceName key acquisition token,
    s.acquiringLocks.lookup (instanceName,key) = some acquisition →
      acquisition.token = some token → Unused s instanceName key token
  consistent : ∀ instanceName key acquisition,
    s.acquiringLocks.lookup (instanceName,key) = some acquisition →
      Consistent s instanceName key acquisition

theorem start_sound (time : ℤ) (workerLocks : Dict LockKey Row) :
    Sound (start time workerLocks) := by
  constructor
  · intro id lk row hh
    simp [Held,start] at hh
  · intro ins key acq tk h
    simp [start] at h
  · intro ins key acq h
    simp [start] at h

section Shrinking

variable {s s' : Cluster}

/-- Nothing is taken or entered: locks, entries and calls may go, and renewals of
locks that exist may come. -/
structure Shrinks (s s' : Cluster) : Prop where
  time : s.time ≤ s'.time
  rows : s'.workerLocks = s.workerLocks
  locks : ∀ id lock', s'.locks.lookup id = some lock' → ∃ lock, s.locks.lookup id = some lock ∧
    lock'.instanceName = lock.instanceName ∧ lock'.key = lock.key ∧ lock'.token = lock.token ∧
      (lock'.dropped = false → lock.dropped = false)
  entries : ∀ key, s'.liveLockTokens.lookup key = s.liveLockTokens.lookup key ∨
    s'.liveLockTokens.lookup key = none
  kept : ∀ id lock, Held s' id lock →
    s.liveLockTokens.lookup (lock.instanceName,lock.key) = some id →
      s'.liveLockTokens.lookup (lock.instanceName,lock.key) = some id
  acquiring : ∀ key acquisition, s'.acquiringLocks.lookup key = some acquisition →
    s.acquiringLocks.lookup key = some acquisition
  renewals : ∀ id renewal, s'.renewals.lookup id = some renewal →
    s.renewals.lookup id = some renewal ∨
      ∃ id lock, s.locks.lookup id = some lock ∧ renewal.key = lock.key ∧ renewal.token = lock.token

theorem Shrinks.refl (s : Cluster) : Shrinks s s where
  time := le_rfl
  rows := rfl
  locks := fun _ lk h => ⟨lk,h,rfl,rfl,rfl,fun h => h⟩
  entries := fun _ => .inl rfl
  kept := fun _ _ _ h => h
  acquiring := fun _ _ h => h
  renewals := fun _ _ h => .inl h

theorem Shrinks.unused (h : Shrinks s s') {ins : String} {key : LockKey} {tk : String}
    (hu : Unused s ins key tk) : Unused s' ins key tk where
  locks := by
    intro lk' hm hkey
    obtain ⟨id,hl'⟩ := (mem_values _ _).mp hm
    obtain ⟨lk,hl,-,hk,ht,-⟩ := h.locks id lk' hl'
    rw [ht]
    exact hu.locks lk ((mem_values _ _).mpr ⟨id,hl⟩) (hk.symm.trans hkey)
  acquiring := by
    rintro ⟨o,acq⟩ hm
    have hlo := h.acquiring o acq (mem_lookup_iff.mpr hm)
    exact hu.acquiring ⟨o,acq⟩ (mem_lookup_iff.mp hlo)
  renewals := by
    intro rn hm hkey
    obtain ⟨id,hr⟩ := (mem_values _ _).mp hm
    rcases h.renewals id rn hr with ho | ⟨id,lk,hl,hk,ht⟩
    · exact hu.renewals rn ((mem_values _ _).mpr ⟨id,ho⟩) hkey
    · rw [ht]
      exact hu.locks lk ((mem_values _ _).mpr ⟨id,hl⟩) (hk.symm.trans hkey)

theorem Shrinks.held (h : Shrinks s s') {id : ℕ} {lk' : Lock} (hh : Held s' id lk') :
    ∃ lk, Held s id lk ∧ lk'.instanceName = lk.instanceName ∧ lk'.key = lk.key ∧
      ∀ row, HasRow s' lk' row → HasRow s lk row := by
  obtain ⟨lk,hl,hi,hk,ht,hd⟩ := h.locks id lk' hh.1
  refine ⟨lk,⟨hl,hd hh.2⟩,hi,hk,?_⟩
  intro row hr
  rw [HasRow,h.rows,hk,ht] at hr
  exact hr

theorem Shrinks.ownRow (h : Shrinks s s') {ins : String} {key : LockKey} {row : Row}
    (ho : OwnRow s' ins key row) : OwnRow s ins key row := by
  obtain ⟨id,lk',hh',hi,hkey,hrow⟩ := ho
  obtain ⟨lk,hh,hin,hk,hr⟩ := h.held hh'
  exact ⟨id,lk,hh,hin.symm.trans hi,hk.symm.trans hkey,hr row hrow⟩

theorem Sound.shrink (h : Sound s) (hs : Shrinks s s') : Sound s' where
  known := by
    intro id lk' row hh' hr'
    obtain ⟨lk,hh,hi,hk,hr⟩ := hs.held hh'
    obtain ⟨ho,hli⟩ := h.known id lk row hh (hr row hr')
    rw [← hi,← hk] at hli
    exact ⟨ho.trans hi.symm,hs.kept id lk' hh' hli⟩
  unused := fun ins key acq tk hl ht =>
    hs.unused (h.unused ins key acq tk (hs.acquiring _ _ hl) ht)
  consistent := fun ins key acq hl =>
    (h.consistent ins key acq (hs.acquiring _ _ hl)).mono hs.time
      hs.rows (hs.entries _) (fun _ => hs.ownRow)

end Shrinking

section Calls

variable {s : Cluster} {inst : String} {key : LockKey}

theorem Sound.setAcquisition (h : Sound s) {acq : Acquisition}
    (hu : ∀ tk, acq.token = some tk → Unused s inst key tk) (hc : Consistent s inst key acq) :
    Sound (setAcquisition inst key acq s) where
  known := h.known
  unused := by
    intro inst' key' acq' tk hl ht
    rw [LockStore.setAcquisition,lookup_set] at hl
    split at hl
    · next heq =>
      cases hl
      obtain ⟨rfl,rfl⟩ := Prod.mk.inj heq
      have hold := hu tk ht
      refine ⟨hold.locks,?_,hold.renewals⟩
      rintro ⟨o,otherAcquisition⟩ hm hne hkey
      have ho := mem_lookup_iff.mpr hm
      rw [mem_def,LockStore.setAcquisition,lookup_set,
        if_neg (fun h => hne (congrArg Prod.fst h))] at ho
      exact hold.acquiring ⟨o,otherAcquisition⟩ (mem_lookup_iff.mp ho) hne hkey
    · have hold := h.unused inst' key' acq' tk hl ht
      refine ⟨hold.locks,?_,hold.renewals⟩
      rintro ⟨o,otherAcquisition⟩ hm hne hkey
      have ho := mem_lookup_iff.mpr hm
      rw [mem_def,LockStore.setAcquisition,lookup_set] at ho
      split at ho
      · next hs =>
        cases ho
        subst hs
        -- the token that is drawn is not that of the other call
        intro hsa
        obtain rfl : key = key' := hkey
        exact (hu tk hsa).acquiring ⟨(inst',key),acq'⟩ (mem_lookup_iff.mp hl) (Ne.symm hne) rfl ht
      · exact hold.acquiring ⟨o,otherAcquisition⟩ (mem_lookup_iff.mp ho) hne hkey
  consistent := by
    intro inst' key' acq' hl
    rw [LockStore.setAcquisition,lookup_set] at hl
    split at hl
    · next heq =>
      cases hl
      obtain ⟨rfl,rfl⟩ := Prod.mk.inj heq
      exact hc
    · exact h.consistent inst' key' acq' hl

theorem shrinks_endAcquisition (s : Cluster) (inst : String) (key : LockKey) :
    Shrinks s (endAcquisition inst key s) where
  __ := Shrinks.refl s
  acquiring := by
    intro o acq hl
    exact (pop_cases hl).2

theorem Sound.tryAcquireLock (h : Sound s) {tk : String} (hu : Unused s inst key tk) :
    Sound (tryAcquireLock inst key tk s) := by
  rw [LockStore.tryAcquireLock]
  split
  · exact h
  · cases hl : s.liveLockTokens.lookup (inst,key) with
    | some id => exact h.setAcquisition (fun _ ht => nomatch ht) (.inl hl)
    | none =>
      apply h.setAcquisition
      · rintro _ ⟨⟩
        exact hu
      · refine ⟨le_rfl,?_⟩
        rintro row ⟨id,lk,hh,rfl,rfl,hr⟩
        rw [(h.known id lk row hh hr).2] at hl
        cases hl

theorem Sound.readValidity (h : Sound s) : Sound (readValidity inst key s) := by
  rw [LockStore.readValidity]
  split
  · rename_i id hl
    apply h.setAcquisition
    · exact fun _ ht => nomatch ht
    · rintro row ⟨id',lk,hh,rfl,rfl,hr⟩
      have hli := (h.known id' lk row hh hr).2
      have hc := h.consistent _ _ _ hl
      rw [Consistent,hli] at hc
      obtain rfl : id' = id := by simpa using hc
      rw [hh.1,bind_some,selectLastRenewedTs,hr.1]
      simp [hr.2]
  · exact h

theorem Sound.checkValidity (h : Sound s) {tk : String} (hu : Unused s inst key tk) :
    Sound (checkValidity inst key tk s) := by
  rw [LockStore.checkValidity]
  split
  · rename_i lastRenewedTs hl
    split
    · exact h.shrink (shrinks_endAcquisition s inst key)
    · next hv =>
      apply h.setAcquisition
      · rintro _ ⟨⟩
        exact hu
      · refine ⟨le_rfl,?_⟩
        intro row ho
        rw [h.consistent _ _ _ hl row ho,withinTimeout,decide_eq_true_eq] at hv
        omega
  · exact h

end Calls

section Rows

variable {s : Cluster}

theorem Sound.setRows (h : Sound s) (key : LockKey) {rws : Dict LockKey Row}
    (ho : ∀ o, o ≠ key → rws.lookup o = s.workerLocks.lookup o)
    (hlo : ∀ id lk row, Held s id lk → lk.key = key → rws.lookup key = some row →
      row.token = lk.token → ∃ old, s.workerLocks.lookup key = some old ∧
        old.token = row.token ∧ old.instanceName = row.instanceName ∧
          ∀ acq ∈ s.acquiringLocks.lookup (old.instanceName,key),
            acq.relying = false) (hta : ∀ ins now tk,
      s.acquiringLocks.lookup (ins,key) = some (.inserted now tk true) →
        (∀ row, rws.lookup key = some row → row.token = tk → row.instanceName = ins) ∧
        (s.time ≤ now + lockTimeoutMs → rws.lookup key = some ⟨ins,tk,now⟩)) :
    Sound { s with workerLocks := rws } := by
  have hro : ∀ id lk row, Held s id lk → HasRow { s with workerLocks := rws } lk row →
      ∃ old, HasRow s lk old ∧ old.instanceName = row.instanceName ∧ (lk.key ≠ key ∧ old = row ∨
          ∀ acq ∈ s.acquiringLocks.lookup (old.instanceName,lk.key),acq.relying = false) := by
    intro id lk row hh hrow
    by_cases hk : lk.key = key
    · obtain ⟨old,hold,ht,hi,hr⟩ := hlo id lk row hh hk (hk ▸ hrow.1) hrow.2
      rw [← hk] at hold hr
      exact ⟨old,⟨hold,ht.trans hrow.2⟩,hi,.inr hr⟩
    · exact ⟨row,⟨(ho lk.key hk).symm.trans hrow.1,hrow.2⟩,rfl,.inl ⟨hk,rfl⟩⟩
  -- a call that relies on the age of the row of a lock keeps that row
  have hown : ∀ ins key' acq row, acq.relying = true →
      s.acquiringLocks.lookup (ins,key') = some acq →
        OwnRow { s with workerLocks := rws } ins key' row → OwnRow s ins key' row := by
    rintro ins key' acq row hr hl ⟨id,lk,hh,rfl,rfl,hrow⟩
    obtain ⟨old,hold,hi,⟨hk,rfl⟩ | hnot⟩ := hro id lk row hh hrow
    · exact ⟨id,lk,hh,rfl,rfl,hold⟩
    · rw [(h.known id lk old hh hold).1] at hnot
      rw [hnot acq hl] at hr
      cases hr
  constructor
  · intro id lk row hh hrow
    obtain ⟨old,hold,hi,-⟩ := hro id lk row hh hrow
    rw [← hi]
    exact h.known id lk old hh hold
  · intro ins key' acq tk hl ht
    have hu := h.unused ins key' acq tk hl ht
    exact ⟨hu.locks,hu.acquiring,hu.renewals⟩
  · intro ins key' acq hl
    have hc := h.consistent ins key' acq hl
    match acq, hl, hc with
    | .validating id, _, hli => exact hli
    | .validated lastRenewedTs, hl, hre =>
      exact fun row hrow => hre row (hown _ _ _ row rfl hl hrow)
    | .inserting now tk, hl, ⟨hnow,hold⟩ =>
      exact ⟨hnow,fun row hrow => hold row (hown _ _ _ row rfl hl hrow)⟩
    | .inserted now tk true, hl, ⟨hn,how,hrow⟩ =>
      refine ⟨?_,?_⟩
      · rintro row ⟨id,lk,hh,hi,hk,hrow⟩
        obtain ⟨old,hold,-,-⟩ := hro id lk row hh hrow
        exact hn old ⟨id,lk,hh,hi,hk,hold⟩
      · by_cases hk : key' = key
        · subst hk
          exact hta ins now tk hl
        · simp only [ho key' hk]
          exact ⟨how,hrow⟩
    | .inserted now tk false, _, _ => exact trivial

theorem Sound.insertRow (h : Sound s) (ins : String) (key : LockKey) :
    Sound (insertRow ins key s) := by
  rw [LockStore.insertRow]
  split
  · rename_i now tk hlo
    have hu := h.unused _ _ _ tk hlo rfl
    obtain ⟨hn,-⟩ := h.consistent _ _ _ hlo
    split
    · next hta =>
      have hf : ∀ id lk, s.locks.lookup id = some lk → lk.key = key → lk.token ≠ tk :=
        fun id lk hl => hu.locks lk ((mem_values _ _).mpr ⟨id,hl⟩)
      have hr : (s.workerLocks.insert key ⟨ins,tk,now⟩).lookup key =
          some ⟨ins,tk,now⟩ := by rw [lookup_set,if_pos rfl]
      have hs : Sound
          { s with workerLocks := s.workerLocks.insert key ⟨ins,tk,now⟩ } := by
        apply h.setRows key
        · intro o hne
          rw [lookup_set,if_neg hne]
        · intro id lk row hh hk hl ht
          obtain rfl := some.inj (hr.symm.trans hl)
          exact absurd ht.symm (hf id lk hh.1 hk)
        · intro o now' tk' ho
          have hne : ins ≠ o := by
            rintro rfl
            rw [hlo] at ho
            cases ho
          have hd : tk ≠ tk' := by
            intro heq
            exact (h.unused _ _ _ tk' ho rfl).acquiring
              ⟨(ins,key),.inserting now tk⟩ (mem_lookup_iff.mp hlo) hne rfl (congrArg some heq)
          refine ⟨?_,?_⟩
          · intro row hl ht
            obtain rfl := some.inj (hr.symm.trans hl)
            exact absurd ht hd
          · -- the row that the other call took has not timed out
            intro hle
            obtain ⟨-,-,hold⟩ := h.consistent _ _ _ ho
            rw [hold hle] at hta
            have : now' < now - lockTimeoutMs ∨ o = ins := by
              simpa [takesRow] using hta
            rcases this with hlt | heq
            · omega
            · exact absurd heq.symm hne
      apply hs.setAcquisition
      · rintro _ ⟨⟩
        exact ⟨hu.locks,hu.acquiring,hu.renewals⟩
      · refine ⟨?_,?_,?_⟩
        · rintro row ⟨id,lk,hh,-,hk,hl,ht⟩
          rw [hk] at hl
          obtain rfl := some.inj (hr.symm.trans hl)
          exact hf id lk hh.1 hk ht.symm
        · intro row hl _
          obtain rfl := some.inj (hr.symm.trans hl)
          rfl
        · exact fun _ => hr
    · apply h.setAcquisition
      · rintro _ ⟨⟩
        exact hu
      · exact trivial
  · exact h

theorem shrinks_endRenewal (s : Cluster) (id : ℕ) : Shrinks s (endRenewal id s) where
  __ := Shrinks.refl s
  renewals := by
    intro id' rn hl
    exact .inl (pop_cases hl).2

theorem Sound.renewRow (h : Sound s) {id : ℕ} (ha : RenewedApart s id) : Sound (renewRow id s) := by
  rw [LockStore.renewRow]
  cases hr : s.renewals.lookup id with
  | none => exact h
  | some rn =>
    cases hrow : s.workerLocks.lookup rn.key with
    | none => simpa only [hrow] using h.shrink (shrinks_endRenewal s id)
    | some row =>
      by_cases ht : row.token = rn.token
      · simp only [hrow,if_pos ht]
        refine Sound.shrink ?_ (shrinks_endRenewal _ id)
        apply h.setRows rn.key
        · intro o hne
          rw [lookup_set,if_neg hne]
        · intro id lk row' hh hk hl _
          rw [lookup_set,if_pos rfl] at hl
          cases hl
          exact ⟨row,hrow,rfl,rfl,ha rn hr row hrow ht⟩
        · intro ins now tk hta
          obtain ⟨-,ho,hold⟩ := h.consistent _ _ _ hta
          rw [lookup_set,if_pos rfl]
          refine ⟨?_,?_⟩
          · intro row' hl ht'
            cases hl
            exact ho row hrow ht'
          · -- a lock that has not been made is not renewed
            intro hle
            have hu := h.unused _ _ _ tk hta rfl
            rw [hold hle] at hrow
            cases hrow
            exact absurd ht.symm (hu.renewals rn ((mem_values _ _).mpr ⟨id,hr⟩) rfl)
      · simpa only [hrow,if_neg ht] using h.shrink (shrinks_endRenewal s id)

theorem Sound.deleteRow (h : Sound s) (cl : ℕ) : Sound (deleteRow cl s) := by
  rw [LockStore.deleteRow]
  split
  · rename_i id hre
    have hr : Sound { s with releases := s.releases.insert cl ⟨id,true⟩ } :=
      h.shrink { Shrinks.refl s with }
    cases hlo : s.locks.lookup id with
    | none => exact hr
    | some lk =>
      by_cases hs : (selectLastRenewedTs s lk).isSome
      · have hrow : ∃ row, HasRow s lk row := by
          rw [selectLastRenewedTs] at hs
          split at hs
          · rename_i row hrow
            by_cases ht : row.token = lk.token
            · exact ⟨row,hrow,ht⟩
            · simp [ht] at hs
          · cases hs
        obtain ⟨row,hrow,ht⟩ := hrow
        have hg : (s.workerLocks.erase lk.key).lookup lk.key = none := by
          rw [lookup_pop,if_pos rfl]
        change Sound (if (selectLastRenewedTs s lk).isSome then _ else _)
        rw [if_pos hs]
        apply hr.setRows lk.key
        · intro o hne
          rw [lookup_pop,if_neg hne]
        · intro _ _ row' _ _ hl
          rw [hg] at hl
          cases hl
        · intro ins now tk hta
          obtain ⟨-,-,ho⟩ := h.consistent _ _ _ hta
          refine ⟨?_,?_⟩
          · intro row' hl
            rw [hg] at hl
            cases hl
          · intro hle
            rw [ho hle] at hrow
            cases hrow
            exact absurd ht.symm ((h.unused _ _ _ tk hta rfl).locks lk
              ((mem_values _ _).mpr ⟨id,hlo⟩) rfl)
      · change Sound (if (selectLastRenewedTs s lk).isSome then _ else _)
        rw [if_neg hs]
        exact hr
  · exact h

end Rows

section Objects

variable {s : Cluster}

theorem Sound.finishAcquire (h : Sound s) (ins : String) (key : LockKey) :
    Sound (finishAcquire ins key s) := by
  rw [LockStore.finishAcquire]
  split
  · rename_i now tk hlo
    obtain ⟨hno,how,-⟩ := h.consistent _ _ _ hlo
    have ha : ∀ o acq,(s.acquiringLocks.erase (ins,key)).lookup o = some acq →
          o ≠ (ins,key) ∧ s.acquiringLocks.lookup o = some acq := by
      intro o acq ho
      obtain ⟨hne,ho⟩ := pop_cases ho
      exact ⟨hne,ho⟩
    constructor
    · rintro id lk row ⟨hl,hd⟩ hr
      simp only [endAcquisition,lookup_set] at hl ⊢
      split at hl
      · next hid =>
        cases hl
        exact ⟨how row hr.1 hr.2,by rw [if_pos rfl,hid]⟩
      · obtain ⟨hi,hli⟩ := h.known id lk row ⟨hl,hd⟩ hr
        refine ⟨hi,?_⟩
        by_cases hk : (lk.instanceName,lk.key) = (ins,key)
        · obtain ⟨hn,hk⟩ := Prod.mk.inj hk
          exact absurd ⟨id,lk,⟨hl,hd⟩,hn,hk,hr⟩ (hno row)
        · rw [if_neg hk]
          exact hli
    · intro o key' acq tk' ho ht'
      obtain ⟨hne,ho⟩ := ha _ _ ho
      have hu := h.unused o key' acq tk' ho ht'
      refine ⟨?_,?_,hu.renewals⟩
      · intro lk hm hk
        obtain ⟨id,hl⟩ := (mem_values _ _).mp hm
        rcases set_cases hl with ⟨-,rfl⟩ | ⟨-,hl⟩
        · obtain rfl : key = key' := hk
          intro ht
          have hn : ins ≠ o := by
            rintro rfl
            exact hne rfl
          exact hu.acquiring ⟨(ins,key),.inserted now tk true⟩
            (mem_lookup_iff.mp hlo) hn rfl (congrArg some ht)
        · exact hu.locks lk ((mem_values _ _).mpr ⟨id,hl⟩) hk
      · rintro ⟨third,acq'⟩ hm
        obtain ⟨-,hth⟩ := ha _ _ (mem_lookup_iff.mpr hm)
        exact hu.acquiring ⟨third,acq'⟩ (mem_lookup_iff.mp hth)
    · intro o key' acq ho
      obtain ⟨hne,ho⟩ := ha _ _ ho
      apply (h.consistent o key' acq ho).mono
      · exact le_rfl
      · rfl
      · left
        simp only [endAcquisition,lookup_set,if_neg hne]
      · rintro row ⟨id,lk,⟨hl,hd⟩,hn,hk,hr⟩
        rcases set_cases hl with ⟨-,rfl⟩ | ⟨-,hl⟩
        · exact absurd (Prod.ext hn.symm hk.symm) hne
        · exact ⟨id,lk,⟨hl,hd⟩,hn,hk,hr⟩
  · exact h.shrink (shrinks_endAcquisition s ins key)
  · exact h

theorem shrinks_setLock {id : ℕ} {lk : Lock} (lk' : Lock) (hl : s.locks.lookup id = some lk)
    (hn : lk'.instanceName = lk.instanceName) (hk : lk'.key = lk.key) (ht : lk'.token = lk.token)
    (hd : lk'.dropped = false → lk.dropped = false) :
    Shrinks s (setLock id lk' s) where
  __ := Shrinks.refl s
  locks := by
    intro id' o ho
    rcases set_cases ho with ⟨hid,rfl⟩ | ⟨-,ho⟩
    · exact ⟨lk,hid ▸ hl,hn,hk,ht,hd⟩
    · exact ⟨o,ho,rfl,rfl,rfl,fun h => h⟩
  kept := fun _ _ _ hli => hli

section

variable (h : Sound s)
include h

theorem Sound.setupLoopingCall (id : ℕ) : Sound (setupLoopingCall id s) := by
  rw [LockStore.setupLoopingCall]
  cases hl : s.locks.lookup id with
  | none => exact h
  | some lk =>
    by_cases hc : lk.loopingCall = .notSetUp
    · simp only [if_pos hc]
      exact h.shrink (shrinks_setLock _ hl rfl rfl rfl (fun hd => hd))
    · simp only [if_neg hc]
      exact h

theorem Sound.startRenewal (id : ℕ) : Sound (startRenewal id s) := by
  rw [LockStore.startRenewal]
  cases hl : s.locks.lookup id with
  | none => exact h
  | some lk =>
    by_cases hc : lk.loopingCall = .running ∧ id ∉ s.renewals
    · simp only [if_pos hc]
      refine h.shrink { Shrinks.refl s with renewals := ?_ }
      intro id' rn hr
      rcases set_cases hr with ⟨-,rfl⟩ | ⟨-,hr⟩
      · exact .inr ⟨id,lk,hl,rfl,rfl⟩
      · exact .inl hr
    · simp only [if_neg hc]
      exact h

theorem Sound.release (cl id : ℕ) : Sound (release cl id s) := by
  rw [LockStore.release]
  cases hl : s.locks.lookup id with
  | none => exact h
  | some lk =>
    by_cases he : lk.dropped ∨ cl ∈ s.releases
    · simp only [if_pos he]
      exact h
    · simp only [if_neg he]
      have hs := h.shrink (shrinks_setLock { lk with loopingCall :=
        if lk.loopingCall = .running then .stopped else lk.loopingCall } hl rfl rfl rfl
        (fun hd => hd))
      exact hs.shrink { Shrinks.refl _ with }

theorem Sound.finishRelease {cl : ℕ} (ho : TakesOutOwn s cl) : Sound (finishRelease cl s) := by
  rw [LockStore.finishRelease]
  split
  · rename_i id hr
    cases hlo : s.locks.lookup id with
    | none => exact h.shrink { Shrinks.refl s with }
    | some lk =>
      have hset := shrinks_setLock { lk with dropped := true } hlo rfl rfl rfl
        (fun hd => nomatch hd)
      refine h.shrink { hset with entries := ?_, kept := ?_ }
      · intro key
        simp only [endRelease,setLock,lookup_pop]
        split
        · exact .inr rfl
        · exact .inl rfl
      · intro id' o hh hl
        simp only [endRelease,setLock,lookup_pop]
        by_cases hk : (o.instanceName,o.key) = (lk.instanceName,lk.key)
        · -- the entry that is taken out is that of the lock, which is not held any more
          rw [hk] at hl
          obtain rfl := ho _ hr lk hlo id' hl
          have hs := hh.1
          simp only [endRelease,setLock,lookup_set] at hs
          cases hs
          exact absurd hh.2 (by simp)
        · rw [if_neg hk]
          exact hl
  · exact h

theorem Sound.collect (id : ℕ) : Sound (collect id s) := by
  rw [LockStore.collect]
  cases hl : s.locks.lookup id with
  | none => exact h
  | some lk =>
    dsimp only
    split
    · exact h
    · have hlo : ∀ id' lk', (s.locks.erase id).lookup id' = some lk' →
          id' ≠ id ∧ s.locks.lookup id' = some lk' := by
        intro id' lk' hl'
        obtain ⟨hne,hl'⟩ := pop_cases hl'
        exact ⟨hne,hl'⟩
      refine h.shrink { Shrinks.refl s with locks := ?_, entries := ?_, kept := ?_ }
      · intro id' lk' hl'
        exact ⟨lk',(hlo id' lk' hl').2,rfl,rfl,rfl,fun h => h⟩
      · intro key
        rw [lookup_filter]
        cases s.liveLockTokens.lookup key with
        | none => exact .inl rfl
        | some live =>
          by_cases hli : live = id <;> simp [hli]
      · intro id' lk' hh hli
        have hne := (hlo id' lk' hh.1).1
        rw [lookup_filter,hli]
        simp [hne]

theorem Sound.restart (ins : String) : Sound (restart ins s) := by
  have hlc : ∀ id lk, (LockStore.restart ins s).locks.lookup id = some lk →
      s.locks.lookup id = some lk ∧ lk.instanceName ≠ ins := by
    intro id lk hlo
    rw [LockStore.restart,lookup_filter] at hlo
    simpa using hlo
  refine h.shrink
    { Shrinks.refl s with locks := ?_, entries := ?_, kept := ?_, acquiring := ?_, renewals := ?_ }
  · intro id lk hlo
    exact ⟨lk,(hlc id lk hlo).1,rfl,rfl,rfl,fun h => h⟩
  · intro key
    rw [LockStore.restart,lookup_filterKeys]
    split
    · exact .inl rfl
    · exact .inr rfl
  · intro id lk hh hli
    have hn := (hlc id lk hh.1).2
    rw [LockStore.restart,lookup_filterKeys]
    simpa [hn] using hli
  · intro key acq hl
    rw [LockStore.restart,lookup_filterKeys] at hl
    split at hl
    · exact hl
    · cases hl
  · intro id rn hl
    rw [LockStore.restart,lookup_filter,filter_eq_some_iff] at hl
    exact .inl hl.1

end

end Objects

section Exclusion

variable {s : Cluster}

theorem Sound.step (h : Sound s) {op : Op} (ha : Admits op s) : Sound (step op s) := by
  cases op with
  | advance ms =>
    refine h.shrink { Shrinks.refl s with time := ?_ }
    change s.time ≤ s.time + ms
    omega
  | tryAcquireLock ins key tk => exact h.tryAcquireLock ha
  | readValidity ins key => exact h.readValidity
  | checkValidity ins key tk => exact h.checkValidity ha
  | insertRow ins key => exact h.insertRow ins key
  | finishAcquire ins key => exact h.finishAcquire ins key
  | failAcquire ins key => exact h.shrink (shrinks_endAcquisition s ins key)
  | setupLoopingCall id => exact h.setupLoopingCall id
  | startRenewal id => exact h.startRenewal id
  | renewRow id => exact h.renewRow ha
  | failRenewal id => exact h.shrink (shrinks_endRenewal s id)
  | release cl id => exact h.release cl id
  | deleteRow cl => exact h.deleteRow cl
  | finishRelease cl => exact h.finishRelease ha
  | failRelease cl => exact h.shrink { Shrinks.refl s with }
  | collect id => exact h.collect id
  | restart ins => exact h.restart ins

def acquires : Op → Cluster → Option LockKey
  | .insertRow instanceName key, s =>
    match s.acquiringLocks.lookup (instanceName,key) with
    | some (.inserting now _) =>
      if takesRow instanceName now (s.workerLocks.lookup key) then some key else none
    | _ => none
  | .finishAcquire instanceName key, s =>
    match s.acquiringLocks.lookup (instanceName,key) with
    | some (.inserted _ _ true) => some key
    | _ => none
  | _, _ => none

theorem isStillValid_iff {lk : Lock} : isStillValid s lk = true ↔
    ∃ row, HasRow s lk row ∧ s.time - lockTimeoutMs < row.lastRenewedTs := by
  rw [isStillValid,selectLastRenewedTs]
  simp only [HasRow]
  cases s.workerLocks.lookup lk.key with
  | none => simp [withinTimeout]
  | some row =>
    by_cases ht : row.token = lk.token <;> simp [withinTimeout,ht]

theorem Sound.excludes (h : Sound s) {op : Op} (had : Admits op s) {key : LockKey}
    (ha : acquires op s = some key) {id : ℕ} {lk : Lock} (hh : Held s id lk) (hk : lk.key = key) :
    isStillValid s lk = false := by
  rw [← Bool.not_eq_true,isStillValid_iff]
  rintro ⟨row,hr,hv⟩
  unfold acquires at ha
  split at ha
  · rename_i ins key'
    split at ha
    · rename_i now tk hl
      split at ha
      · rename_i ht
        cases ha
        obtain ⟨hnow,ho⟩ := h.consistent _ _ _ hl
        rw [← hk,hr.1] at ht
        have ht : row.lastRenewedTs < now - lockTimeoutMs ∨ row.instanceName = ins := by
          simpa [takesRow] using ht
        rcases ht with hlt | hn
        · omega
        · -- the row is of the instance itself, which has found the lock to have timed out
          have hs := (h.known id lk row hh hr).1.symm.trans hn
          have := ho row ⟨id,lk,hh,hs,hk,hr⟩
          omega
      · cases ha
    · cases ha
  · split at ha
    · rename_i now tk hl
      cases ha
      obtain ⟨-,-,hown⟩ := h.consistent _ _ _ hl
      have hr' := hr.1
      rw [hk,hown (had _ _ hl)] at hr'
      cases hr'
      exact (h.unused _ _ _ tk hl rfl).locks lk ((mem_values _ _).mpr ⟨id,hh.1⟩) hk hr.2.symm
    · cases ha
  · cases ha

/-- In every run that meets the conditions, a row is taken and a lock returned only
while no lock for the key is valid that has not been released or lost. -/
theorem no_lock_acquired_while_valid (time : ℤ) (workerLocks : Dict LockKey Row) (ops : List Op)
    (op : Op) (hadmitted : Admitted (ops ++ [op]) (start time workerLocks)) (key : LockKey)
    (hacquires : acquires op (run ops (start time workerLocks)) = some key) (id : ℕ) (lock : Lock)
    (hheld : Held (run ops (start time workerLocks)) id lock) (hkey : lock.key = key) :
    isStillValid (run ops (start time workerLocks)) lock = false := by
  obtain ⟨hops,hop,-⟩ := (Runs.admitted_append step Admits ops [op] _).mp hadmitted
  have hsound := hops.invariant (fun _ _ hsound hadmits => hsound.step hadmits)
    (start_sound time workerLocks)
  exact hsound.excludes hop hacquires hheld hkey

end Exclusion

def roomKey : LockKey := ("room","!r:x")

def acquire (instanceName token : String) : List Op :=
  [.tryAcquireLock instanceName roomKey token,.insertRow instanceName roomKey,
    .finishAcquire instanceName roomKey]

def takenOver : List Op :=
  acquire "A" "t0" ++ [.advance 120001,.tryAcquireLock "B" roomKey "t1"]

theorem no_lock_acquired_while_valid_takenOver :
    Admitted (takenOver ++ [.insertRow "B" roomKey]) (start 0 ∅) ∧
      acquires (.insertRow "B" roomKey) (run takenOver (start 0 ∅)) = some roomKey ∧
      Held (run takenOver (start 0 ∅)) 0 ⟨"A",roomKey,"t0",.notSetUp,false⟩ ∧
      isStillValid (run takenOver (start 0 ∅)) ⟨"A",roomKey,"t0",.notSetUp,false⟩ = false := by
  have hadmitted : Admitted (takenOver ++ [.insertRow "B" roomKey]) (start 0 ∅) := by
    have hreturned : ReturnedInTime
        (run [.tryAcquireLock "A" roomKey "t0",.insertRow "A" roomKey] (start 0 ∅))
        "A" roomKey := by
      intro now token hlookup
      cases hlookup
      decide +kernel
    refine ⟨⟨?_,?_,?_⟩,trivial,hreturned,trivial,⟨?_,?_,?_⟩,trivial,trivial⟩
    all_goals decide +kernel
  have hacquires :
      acquires (.insertRow "B" roomKey) (run takenOver (start 0 ∅)) = some roomKey := by
    decide +kernel
  have hheld : Held (run takenOver (start 0 ∅)) 0 ⟨"A",roomKey,"t0",.notSetUp,false⟩ :=
    ⟨by decide +kernel,rfl⟩
  exact ⟨hadmitted,hacquires,hheld,
    no_lock_acquired_while_valid 0 ∅ takenOver _ hadmitted roomKey hacquires 0 _ hheld rfl⟩

/-- A lock times out and is acquired again by its instance. The release of the old
lock takes out the entry of the new one, and the lock is tried once more. -/
def releasedLate : List Op :=
  acquire "A" "t0" ++ [.advance 120001,.tryAcquireLock "A" roomKey "t1",.readValidity "A" roomKey,
    .checkValidity "A" roomKey "t1",.insertRow "A" roomKey,.finishAcquire "A" roomKey,.release 0 0,
    .deleteRow 0,.finishRelease 0,.tryAcquireLock "A" roomKey "t2"]

def returnedLate : List Op :=
  [.tryAcquireLock "A" roomKey "t0",.insertRow "A" roomKey,.advance 120001] ++ acquire "B" "t1"

theorem valid_lock_taken :
    (Held (run releasedLate (start 0 ∅)) 1 ⟨"A",roomKey,"t1",.notSetUp,false⟩ ∧
      isStillValid (run releasedLate (start 0 ∅)) ⟨"A",roomKey,"t1",.notSetUp,false⟩ = true ∧
      acquires (.insertRow "A" roomKey) (run releasedLate (start 0 ∅)) = some roomKey ∧
      acquires (.finishAcquire "A" roomKey)
        (step (.insertRow "A" roomKey) (run releasedLate (start 0 ∅))) = some roomKey) ∧
    (Held (run returnedLate (start 0 ∅)) 0 ⟨"B",roomKey,"t1",.notSetUp,false⟩ ∧
      isStillValid (run returnedLate (start 0 ∅)) ⟨"B",roomKey,"t1",.notSetUp,false⟩ = true ∧
      acquires (.finishAcquire "A" roomKey) (run returnedLate (start 0 ∅)) = some roomKey) := by
  refine ⟨⟨⟨?_,rfl⟩,?_,?_,?_⟩,⟨?_,rfl⟩,?_,?_⟩
  all_goals decide +kernel

end Synapse.LockStore
