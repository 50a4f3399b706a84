import Synapse.Dict
import Synapse.Runs

/-!
# The scheduler of tasks

Tasks are rows of a table. A call that launches one works from the row that it
read or wrote before its last wait, and looks only at the set of the tasks that are
running in memory. Each call that waits for the database, or for the function of a
task, is a process, and the processes go on in any order.
-/

set_option autoImplicit false

namespace Synapse.TaskScheduler
open List Dict Option Runs

inductive TaskStatus where
  | scheduled
  | active
  | complete
  | failed
  deriving DecidableEq

/-- The statuses that only the end of the function of a task sets. -/
def TaskStatus.Finished (status : TaskStatus) : Prop :=
  status = .complete ∨ status = .failed

instance (status : TaskStatus) : Decidable status.Finished :=
  inferInstanceAs (Decidable (_ ∨ _))

structure ScheduledTask where
  id : String
  action : String
  status : TaskStatus
  timestamp : ℕ
  deriving DecidableEq

def maxConcurrentRunningTasks : ℕ := 5

inductive Loop where
  | active
  | scheduled (maxTimestamp : ℕ)
  deriving DecidableEq

/-- What a call waits for, and what it will go on with: for each call of the database the
request, and then its answer. A launch was asked for by a loop or else by a single call. -/
inductive Process where
  | inserting (task : ScheduledTask)
  | inserted (task : ScheduledTask)
  | gettingTask (id : String)
  | gotTask (task : Option ScheduledTask)
  | gettingTasks (loop : Loop)
  | gotTasks (loop : Loop) (tasks : List ScheduledTask)
  | activating (task : ScheduledTask) (caller : Option Loop) (rest : List ScheduledTask)
  | activated (task : ScheduledTask) (caller : Option Loop) (rest : List ScheduledTask)
  | function (task : ScheduledTask)
  | updating (task : ScheduledTask) (status : TaskStatus)
  | updated (task : ScheduledTask)
  deriving DecidableEq

structure World where
  actions : List String
  scheduledTasks : Dict String ScheduledTask
  runningTasks : List String
  launchingNewTasks : Bool
  processes : List Process
  /-- The tasks whose stored status has been one of a finished task. -/
  finished : List String

def start (actions : List String) : World := ⟨actions,∅,[],false,[],[]⟩

/-- `ORDER BY timestamp LIMIT ?` -/
def getScheduledTasks (scheduledTasks : Dict String ScheduledTask) (status : TaskStatus)
    (maxTimestamp : Option ℕ) (limit : ℕ) : List ScheduledTask :=
  ((values scheduledTasks).filter (fun task => decide (task.status = status) &&
    maxTimestamp.all (fun timestamp => decide (task.timestamp ≤ timestamp)))).insertionSort
      (fun task task' => task.timestamp ≤ task'.timestamp) |>.take limit

def Loop.tasks (scheduledTasks : Dict String ScheduledTask) : Loop → List ScheduledTask
  | .active => getScheduledTasks scheduledTasks .active none maxConcurrentRunningTasks
  | .scheduled maxTimestamp =>
    getScheduledTasks scheduledTasks .scheduled (some maxTimestamp) maxConcurrentRunningTasks

def updateScheduledTask (id : String) (timestamp : ℕ) (status : TaskStatus) (w : World) : World :=
  match w.scheduledTasks.lookup id with
  | none => w
  | some row =>
    { w with
      scheduledTasks := w.scheduledTasks.insert id { row with timestamp, status }
      finished := if status.Finished then id::w.finished else w.finished }

def World.put (process : Process) (w : World) : World :=
  { w with processes := w.processes ++ [process] }

/-- How a call of `_launch_task` goes until it waits. -/
inductive Launch where
  | raised
  | returned
  | waits (runningTasks : List String)

def launchTask (w : World) (task : ScheduledTask) : Launch :=
  if task.action ∉ w.actions then .raised
  else if maxConcurrentRunningTasks ≤ w.runningTasks.length then .returned
  else if task.id ∈ w.runningTasks then .returned
  else .waits (task.id::w.runningTasks)

def leave (caller : Option Loop) (w : World) : World :=
  if caller.isSome then { w with launchingNewTasks := false } else w

def endLoop (now : ℕ) (caller : Option Loop) (w : World) : World :=
  match caller with
  | some .active => w.put (.gettingTasks (.scheduled now))
  | _ => leave caller w

/-- `for task in tasks: await self._launch_task(task)`, until it waits. -/
def launchTasks (now : ℕ) (caller : Option Loop) : List ScheduledTask → World → World
  | [], w => endLoop now caller w
  | task::rest, w =>
    match launchTask w task with
    | .raised => leave caller w
    | .returned => launchTasks now caller rest w
    | .waits runningTasks => ({ w with runningTasks } : World).put (.activating task caller rest)

/-- One move of a process, which has been taken out of the world. The status is what the function
of a task returns; it is `failed` where the function raises. -/
def advance (now : ℕ) (status : TaskStatus) : Process → World → World
  | .inserting task, w =>
    -- a second row with this key is refused, and `schedule_task` raises
    if task.id ∈ w.scheduledTasks then w
    else ({ w with scheduledTasks := w.scheduledTasks.insert task.id task } : World).put
      (.inserted task)
  | .inserted task, w => if task.status = .active then launchTasks now none [task] w else w
  | .gettingTask id, w => w.put (.gotTask (w.scheduledTasks.lookup id))
  | .gotTask none, w => w
  | .gotTask (some task), w => launchTasks now none [task] w
  | .gettingTasks loop, w => w.put (.gotTasks loop (loop.tasks w.scheduledTasks))
  | .gotTasks loop tasks, w => launchTasks now (some loop) tasks w
  | .activating task caller rest, w =>
    (updateScheduledTask task.id now .active w).put (.activated task caller rest)
  | .activated task caller rest, w => launchTasks now caller rest (w.put (.function task))
  | .function task, w => w.put (.updating task status)
  | .updating task status', w =>
    (updateScheduledTask task.id now status' w).put (.updated task)
  | .updated task, w => { w with runningTasks := w.runningTasks.erase task.id }

/-- The database refuses what a process waits for. -/
def fail : Process → World → World
  | .gettingTasks loop, w => leave (some loop) w
  | .activating _ caller _, w => leave caller w
  | _, w => w

def Process.waits : Process → Bool
  | .inserting _ | .gettingTask _ | .gettingTasks _ | .activating _ _ _ | .updating _ _ => true
  | _ => false

inductive Op where
  | scheduleTask (id action : String) (timestamp : Option ℕ) (now : ℕ)
  | launchTaskById (id : String)
  | launchScheduledTasks
  | advance (process now : ℕ) (status : TaskStatus)
  | fail (process : ℕ)
  deriving DecidableEq

def newTask (id action : String) (timestamp : Option ℕ) (now : ℕ) : ScheduledTask :=
  match timestamp with
  | none => ⟨id,action,.active,now⟩
  | some timestamp =>
    if timestamp < now then ⟨id,action,.active,now⟩ else ⟨id,action,.scheduled,timestamp⟩

def step : Op → World → World
  | .scheduleTask id action timestamp now, w =>
    w.put (.inserting (newTask id action timestamp now))
  | .launchTaskById id, w =>
    if maxConcurrentRunningTasks ≤ w.runningTasks.length then w else w.put (.gettingTask id)
  | .launchScheduledTasks, w =>
    if maxConcurrentRunningTasks ≤ w.runningTasks.length then w
    else if w.launchingNewTasks then w
    else ({ w with launchingNewTasks := true } : World).put (.gettingTasks .active)
  | .advance n now status, w =>
    match w.processes[n]? with
    | none => w
    | some process =>
      TaskScheduler.advance now status process { w with processes := w.processes.eraseIdx n }
  | .fail n, w =>
    match w.processes[n]? with
    | none => w
    | some process =>
      if process.waits then
        TaskScheduler.fail process { w with processes := w.processes.eraseIdx n }
      else w

def Process.running : Process → Option String
  | .function task => some task.id
  | _ => none

def functions (w : World) : List String := w.processes.filterMap Process.running

def Unfinished (w : World) (id : String) : Prop :=
  ∀ row, w.scheduledTasks.lookup id = some row → ¬row.status.Finished

instance (w : World) (id : String) : Decidable (Unfinished w id) :=
  match h : w.scheduledTasks.lookup id with
  | none => isTrue (by simp [Unfinished,h])
  | some row => decidable_of_iff (¬row.status.Finished) (by simp [Unfinished,h])

/-- A task that has finished stays so, and its function does not run. -/
def FinishedStay (w : World) : Prop :=
  ∀ id ∈ w.finished, ¬Unfinished w id ∧ id ∉ functions w

instance (w : World) : Decidable (FinishedStay w) :=
  inferInstanceAs (Decidable (∀ _ ∈ _,_))

def Process.rows : Process → List ScheduledTask
  | .inserted task => if task.status = .active then [task] else []
  | .gotTask task => task.toList
  | .gotTasks _ tasks => tasks
  | .activating _ _ rest | .activated _ _ rest => rest
  | _ => []

/-- The process, which has been taken out of the world, stores no finished status while another
one holds a row of the task that it has still to launch, and does not launch a task by its ID that
is finished. -/
def TimelyMove (w : World) : Process → Prop
  | .updating task status =>
    status.Finished → ∀ process ∈ w.processes, ∀ row ∈ process.rows, row.id ≠ task.id
  | .gettingTask id => Unfinished w id
  | _ => True

instance (w : World) : DecidablePred (TimelyMove w)
  | .updating _ _ => inferInstanceAs (Decidable (_ → _))
  | .gettingTask id => inferInstanceAs (Decidable (Unfinished w id))
  | .inserting _ | .inserted _ | .gotTask _ | .gettingTasks _ | .gotTasks _ _ | .activating _ _ _
  | .activated _ _ _ | .function _ | .updated _ => inferInstanceAs (Decidable True)

def Timely : Op → World → Prop
  | .advance n _ _, w => ∀ process ∈ w.processes[n]?,
    TimelyMove { w with processes := w.processes.eraseIdx n } process
  | _, _ => True

instance : ∀ op w, Decidable (Timely op w)
  | .advance _ _ _, _ => inferInstanceAs (Decidable (∀ _ ∈ _,_))
  | .scheduleTask _ _ _ _, _ | .launchTaskById _, _ | .launchScheduledTasks, _ | .fail _, _ =>
    inferInstanceAs (Decidable True)

/-- The task whose entry in the set of running tasks the process holds. -/
def Process.holds : Process → Option String
  | .activating task _ _ | .activated task _ _ | .function task | .updating task _
  | .updated task => some task.id
  | _ => none

def Process.unstored : Process → Option String
  | .activating task _ _ | .activated task _ _ | .function task | .updating task _ => some task.id
  | _ => none

variable {w : World} {process : Process} {processes rs others' : List Process} {id : String}
  {task : ScheduledTask}

theorem Process.holds_of_unstored (h : process.unstored = some id) : process.holds = some id := by
  cases process <;> first | exact h | cases h

theorem Process.unstored_of_running (h : process.running = some id) :
    process.unstored = some id := by
  cases process <;> first | exact h | cases h

theorem launchTask_waits {runningTasks : List String}
    (h : launchTask w task = .waits runningTasks) :
    w.runningTasks.length < maxConcurrentRunningTasks ∧ task.id ∉ w.runningTasks ∧
      runningTasks = task.id::w.runningTasks := by
  unfold launchTask at h
  split_ifs at h with ha hl hmem
  · exact ⟨Nat.lt_of_not_le hl,hmem,(Launch.waits.inj h).symm⟩

def Process.New (process : Process) : Prop :=
  process.holds = none ∧ process.rows = [] ∧ ∀ task, process = .inserting task →
    ¬task.status.Finished

theorem endLoop_spec (now : ℕ) (caller : Option Loop) (w : World) :
    ∃ launching added, (∀ process ∈ added, process.New) ∧ endLoop now caller w =
        { w with launchingNewTasks := launching, processes := w.processes ++ added } := by
  rcases caller with _ | _ | maxTimestamp
  · exact ⟨w.launchingNewTasks,[],by simp,by simp [endLoop,leave]⟩
  · refine ⟨w.launchingNewTasks,[.gettingTasks (.scheduled now)],?_,rfl⟩
    simp [Process.New,Process.holds,Process.rows]
  · exact ⟨false,[],by simp,by simp [endLoop,leave]⟩

theorem leave_spec (caller : Option Loop) (w : World) :
    ∃ launching, leave caller w = { w with launchingNewTasks := launching } := by
  cases caller with
  | none => exact ⟨w.launchingNewTasks,rfl⟩
  | some loop => exact ⟨false,rfl⟩

theorem launchTasks_spec (now : ℕ) (caller : Option Loop) (tasks : List ScheduledTask) (w : World) :
    (∃ launching added, (∀ process ∈ added, process.New) ∧ launchTasks now caller tasks w =
        { w with launchingNewTasks := launching, processes := w.processes ++ added }) ∨
    ∃ task rs, task ∈ tasks ∧ rs ⊆ tasks ∧
      w.runningTasks.length < maxConcurrentRunningTasks ∧ task.id ∉ w.runningTasks ∧
      launchTasks now caller tasks w =
        { w with
          runningTasks := task.id::w.runningTasks
          processes := w.processes ++ [.activating task caller rs] } := by
  induction tasks with
  | nil => exact .inl (endLoop_spec now caller w)
  | cons task rs ih =>
    cases hl : launchTask w task with
    | raised =>
      obtain ⟨launching,hle⟩ := leave_spec caller w
      left
      refine ⟨launching,[],by simp,?_⟩
      simp only [launchTasks,hl,hle,append_nil]
    | returned =>
      simp only [launchTasks,hl]
      rcases ih with hleft | ⟨next,rs',hmem,hsub,hln,hnot,heq⟩
      · exact .inl hleft
      · exact .inr ⟨next,rs',mem_cons_of_mem _ hmem,subset_cons_of_subset _ hsub,hln,hnot,heq⟩
    | waits runningTasks =>
      obtain ⟨hln,hm,rfl⟩ := launchTask_waits hl
      right
      refine ⟨task,rs,mem_cons_self,subset_cons_self _ _,hln,hm,?_⟩
      simp only [launchTasks,hl,World.put]

/-- The processes hold different entries of the set of running tasks, which is never larger than
it may be. -/
def Slots (processes : List Process) (w : World) : Prop :=
  w.runningTasks.Nodup ∧ w.runningTasks.length ≤ maxConcurrentRunningTasks ∧
    (processes.filterMap Process.holds).Nodup ∧
    ∀ id ∈ processes.filterMap Process.holds, id ∈ w.runningTasks

abbrev Slotted (w : World) : Prop := Slots w.processes w

theorem Slots.perm (h : Slots processes w) (hp : processes.Perm others') : Slots others' w := by
  have hh := hp.filterMap Process.holds
  refine ⟨h.1,h.2.1,hh.nodup_iff.mp h.2.2.1,fun id hid => ?_⟩
  exact h.2.2.2 id (hh.mem_iff.mpr hid)

theorem Slots.congr {w' : World} (h : Slots processes w) (hr : w'.runningTasks = w.runningTasks) :
    Slots processes w' := by
  unfold Slots
  rw [hr]
  exact h

theorem Slots.replace (h : Slots (process::rs) w) (added : List Process)
    (ha : (added.filterMap Process.holds).Sublist process.holds.toList) :
    Slots (rs ++ added) w := by
  have hsub : (filterMap Process.holds (added ++ rs)).Sublist
      (filterMap Process.holds (process::rs)) := by
    rw [filterMap_append,filterMap_cons]
    cases hh : process.holds with
    | none =>
      rw [hh] at ha
      have hn : added.filterMap Process.holds = [] := sublist_nil.mp ha
      simp [hn]
    | some id =>
      rw [hh] at ha
      exact ha.append (List.Sublist.refl _)
  have hs : Slots (added ++ rs) w :=
    ⟨h.1,h.2.1,h.2.2.1.sublist hsub,fun id hid => h.2.2.2 id (hsub.subset hid)⟩
  exact hs.perm perm_append_comm

theorem Slots.drop (h : Slots (process::rs) w) : Slots rs w := by
  simpa using h.replace [] (by simp)

theorem Slots.add (h : Slots processes w) (added : List Process)
    (ha : ∀ process ∈ added, process.New) : Slots (processes ++ added) w := by
  have hn : added.filterMap Process.holds = [] :=
    filterMap_eq_nil_iff.mpr (fun process hp => (ha process hp).1)
  simpa [Slots,hn] using h

theorem Slots.take (h : Slots processes w) (process : Process) (hh : process.holds = some task.id)
    (hl : w.runningTasks.length < maxConcurrentRunningTasks) (hm : task.id ∉ w.runningTasks) :
    Slots (processes ++ [process]) { w with runningTasks := task.id::w.runningTasks } := by
  have hs : Slots (process::processes)
      { w with runningTasks := task.id::w.runningTasks } := by
    unfold Slots
    rw [filterMap_cons_some hh]
    refine ⟨nodup_cons.mpr ⟨hm,h.1⟩,hl,?_,?_⟩
    · exact nodup_cons.mpr ⟨fun hid => hm (h.2.2.2 _ hid),h.2.2.1⟩
    · exact forall_mem_cons.mpr
        ⟨mem_cons_self,fun id hid => mem_cons_of_mem _ (h.2.2.2 id hid)⟩
  exact hs.perm (perm_append_singleton process processes).symm

theorem Slots.launchTasks (h : Slotted w) (now : ℕ) (caller : Option Loop)
    (tasks : List ScheduledTask) : Slotted (launchTasks now caller tasks w) := by
  rcases launchTasks_spec now caller tasks w with
    ⟨launching,added,ha,heq⟩ | ⟨task,rs,-,-,hl,hmem,heq⟩
  · rw [heq]
    exact (h.add added ha).congr rfl
  · rw [heq]
    exact (h.take (.activating task caller rs) rfl hl hmem).congr rfl

theorem updateScheduledTask_runningTasks (id : String) (ts : ℕ) (status : TaskStatus) (w : World) :
    (updateScheduledTask id ts status w).runningTasks = w.runningTasks ∧
      (updateScheduledTask id ts status w).processes = w.processes := by
  unfold updateScheduledTask
  split <;> exact ⟨rfl,rfl⟩

theorem Slots.release (h : Slots (.updated task::rs) w) :
    Slots rs { w with runningTasks := w.runningTasks.erase task.id } := by
  have hh := h.2.2
  obtain ⟨hnot,hn⟩ := nodup_cons.mp hh.1
  refine ⟨h.1.erase _,?_,hn,?_⟩
  · exact (length_erase_le).trans h.2.1
  · intro id hid
    have hne : id ≠ task.id := fun heq => hnot (heq ▸ hid)
    exact (mem_erase_of_ne hne).mpr (hh.2 id (mem_cons_of_mem _ hid))

theorem Slots.advance (h : Slots (process::w.processes) w) (now : ℕ) (status : TaskStatus) :
    Slotted (advance now status process w) := by
  cases process with
  | inserting task =>
    simp only [TaskScheduler.advance]
    split
    · exact h.drop
    · exact (h.replace [.inserted task] (by simp [Process.holds])).congr rfl
  | inserted task =>
    simp only [TaskScheduler.advance]
    split
    · exact h.drop.launchTasks now none _
    · exact h.drop
  | gettingTask id =>
    exact (h.replace [.gotTask (w.scheduledTasks.lookup id)] (by simp [Process.holds])).congr rfl
  | gotTask task =>
    cases task with
    | none => exact h.drop
    | some task => exact h.drop.launchTasks now none _
  | gettingTasks loop =>
    exact (h.replace [.gotTasks loop (loop.tasks w.scheduledTasks)]
      (by simp [Process.holds])).congr rfl
  | gotTasks loop tasks => exact h.drop.launchTasks now _ _
  | activating task caller rs =>
    obtain ⟨hr,hp⟩ := updateScheduledTask_runningTasks task.id now .active w
    simp only [TaskScheduler.advance,World.put,hp]
    exact (h.replace [.activated task caller rs] (by simp [Process.holds])).congr hr
  | activated task caller rs =>
    have hput : Slotted (w.put (.function task)) :=
      (h.replace [.function task] (by simp [Process.holds])).congr rfl
    exact hput.launchTasks now caller rs
  | function task =>
    exact (h.replace [.updating task status] (by simp [Process.holds])).congr rfl
  | updating task status' =>
    obtain ⟨hr,hp⟩ := updateScheduledTask_runningTasks task.id now status' w
    simp only [TaskScheduler.advance,World.put,hp]
    exact (h.replace [.updated task] (by simp [Process.holds])).congr hr
  | updated task => exact h.release

theorem fail_spec (process : Process) (w : World) :
    ∃ launching, fail process w = { w with launchingNewTasks := launching } := by
  cases process with
  | gettingTasks loop => exact leave_spec (some loop) w
  | activating task caller rs => exact leave_spec caller w
  | _ => exact ⟨w.launchingNewTasks,rfl⟩

theorem cons_eraseIdx_perm {A : Type} {l : List A} {n : ℕ} {a : A} (h : l[n]? = some a) :
    l.Perm (a::l.eraseIdx n) := by
  obtain ⟨hn,rfl⟩ := List.getElem?_eq_some_iff.mp h
  exact (getElem_cons_eraseIdx_perm hn).symm

theorem newTask_new (id action : String) (timestamp : Option ℕ) (now : ℕ) :
    (Process.inserting (newTask id action timestamp now)).New := by
  refine ⟨rfl,rfl,fun task htask => ?_⟩
  cases htask
  unfold newTask
  split
  · simp [TaskStatus.Finished]
  · split <;> simp [TaskStatus.Finished]

theorem step_rule {I : World → Prop} {op : Op} (h : I w)
    (hput : ∀ launching process, process.New →
      I (({ w with launchingNewTasks := launching } : World).put process))
    (hdrop : ∀ n process launching, w.processes[n]? = some process →
      I { w with launchingNewTasks := launching, processes := w.processes.eraseIdx n })
    (hadvance : ∀ n now status process, op = .advance n now status →
      w.processes[n]? = some process →
      I (advance now status process { w with processes := w.processes.eraseIdx n })) :
    I (step op w) := by
  cases op with
  | scheduleTask id action ts now => exact hput w.launchingNewTasks _ (newTask_new id action ts now)
  | launchTaskById id =>
    simp only [step]
    split
    · exact h
    · exact hput w.launchingNewTasks _ (by simp [Process.New,Process.holds,Process.rows])
  | launchScheduledTasks =>
    simp only [step]
    split_ifs
    · exact h
    · exact h
    · exact hput true _ (by simp [Process.New,Process.holds,Process.rows])
  | advance n now status =>
    simp only [step]
    split
    · exact h
    · next process hp => exact hadvance n now status process rfl hp
  | fail n =>
    simp only [step]
    split
    · exact h
    · next process hp =>
      split
      · obtain ⟨launching,hf⟩ := fail_spec process { w with processes := w.processes.eraseIdx n }
        rw [hf]
        exact hdrop n process launching hp
      · exact h

theorem Slots.step (h : Slotted w) (op : Op) : Slotted (step op w) := by
  apply step_rule (I := fun w => Slotted w) h
  · intro launching process hn
    exact (h.add [process] (by simp [hn])).congr rfl
  · intro n process launching hp
    exact (h.perm (cons_eraseIdx_perm hp)).drop.congr rfl
  · intro n now status process _ hp
    exact Slots.advance ((h.perm (cons_eraseIdx_perm hp)).congr rfl) now status

theorem start_slots (actions : List String) : Slotted (start actions) := by
  simp [Slots,start]

theorem filterMap_running_sublist (processes : List Process) :
    (processes.filterMap Process.running).Sublist (processes.filterMap Process.holds) := by
  induction processes with
  | nil => exact List.Sublist.refl _
  | cons process rs ih =>
    cases hr : process.running with
    | none =>
      rw [filterMap_cons_none hr,filterMap_cons]
      split
      · exact ih
      · exact ih.cons _
    | some id =>
      have hh := Process.holds_of_unstored (Process.unstored_of_running hr)
      rw [filterMap_cons_some hr,filterMap_cons_some hh]
      exact ih.cons_cons _

theorem Slots.functions (h : Slotted w) :
    (functions w).Nodup ∧ (functions w).length ≤ maxConcurrentRunningTasks := by
  have hsub := filterMap_running_sublist w.processes
  have hn : (TaskScheduler.functions w).Nodup := h.2.2.1.sublist hsub
  have hs : TaskScheduler.functions w ⊆ w.runningTasks := fun id hid => h.2.2.2 id (hsub.subset hid)
  exact ⟨hn,(hn.subperm hs).length_le.trans h.2.1⟩

/-- The task of each row that the process will launch, or insert, is not finished. -/
def Process.Current (w : World) (process : Process) : Prop :=
  (∀ row ∈ process.rows, Unfinished w row.id) ∧ ∀ task, process = .inserting task →
    ¬task.status.Finished

theorem Process.New.current (h : process.New) : process.Current w := by
  refine ⟨?_,h.2.2⟩
  rw [h.2.1]
  exact fun _ hrow => absurd hrow not_mem_nil

/-- What is finished is stored as finished, and no process is about to change this. -/
structure Settled (processes : List Process) (w : World) : Prop where
  keyed : ∀ id row, w.scheduledTasks.lookup id = some row → row.id = id
  current : ∀ process ∈ processes, process.Current w
  stays : ∀ id ∈ w.finished, ¬Unfinished w id ∧ ∀ process ∈ processes, process.unstored ≠ some id

abbrev AllSettled (w : World) : Prop := Settled w.processes w

section

variable (h : Settled processes w)
include h

theorem Settled.subset (hsub : others' ⊆ processes) : Settled others' w :=
  ⟨h.keyed,fun process hp => h.current process (hsub hp),fun id hid =>
    ⟨(h.stays id hid).1,fun process hp => (h.stays id hid).2 process (hsub hp)⟩⟩

theorem Settled.extend (added : List Process) (hc : ∀ process ∈ added, process.Current w)
    (hu : ∀ process ∈ added, ∀ id ∈ w.finished, process.unstored ≠ some id) :
    Settled (processes ++ added) w := by
  refine ⟨h.keyed,?_,fun id hid => ?_⟩
  · intro process hp
    rcases mem_append.mp hp with hm | hm
    · exact h.current process hm
    · exact hc process hm
  · obtain ⟨hs,hn⟩ := h.stays id hid
    refine ⟨hs,fun process hp => ?_⟩
    rcases mem_append.mp hp with hm | hm
    · exact hn process hm
    · exact hu process hm id hid

theorem Settled.add (added : List Process) (ha : ∀ process ∈ added, process.New) :
    Settled (processes ++ added) w := by
  refine h.extend added (fun process hp => (ha process hp).current) ?_
  intro process hp id _ hid
  have hh := Process.holds_of_unstored hid
  rw [(ha process hp).1] at hh
  cases hh

theorem Settled.congr {w' : World} (ht : w'.scheduledTasks = w.scheduledTasks)
    (hf : w'.finished = w.finished) : Settled processes w' := by
  obtain ⟨hk,hc,hs⟩ := h
  unfold Process.Current at hc
  unfold Unfinished at hc hs
  rw [← ht] at hk hc hs
  rw [← hf] at hs
  exact ⟨hk,hc,hs⟩

end

theorem Settled.drop (h : Settled (process::rs) w) : Settled rs w :=
  h.subset (subset_cons_self _ _)

theorem Settled.replace (h : Settled (process::rs) w) (next : Process) (hc : next.Current w)
    (hn : next.unstored = none ∨ next.unstored = process.unstored) : Settled (rs ++ [next]) w := by
  refine h.drop.extend [next] (by simpa using hc) ?_
  intro o ho id hid
  rw [mem_singleton.mp ho]
  rcases hn with hn | hn
  · simp [hn]
  · rw [hn]
    exact (h.stays id hid).2 process mem_cons_self

theorem Settled.launchTasks (h : AllSettled w) (now : ℕ) (caller : Option Loop)
    (tasks : List ScheduledTask) (ht : ∀ task ∈ tasks, Unfinished w task.id) :
    AllSettled (launchTasks now caller tasks w) := by
  rcases launchTasks_spec now caller tasks w with
    ⟨launching,added,ha,heq⟩ | ⟨task,rs,hmem,hsub,-,-,heq⟩
  · rw [heq]
    exact (h.add added ha).congr rfl rfl
  · rw [heq]
    refine (h.extend [.activating task caller rs] ?_ ?_).congr rfl rfl
    · rw [forall_mem_singleton]
      exact ⟨fun row hrow => ht row (hsub hrow),fun task heq => by cases heq⟩
    · intro process hp id hid hsa
      rw [mem_singleton.mp hp] at hsa
      cases hsa
      exact (h.stays task.id hid).1 (ht task hmem)

theorem lookup_updateScheduledTask (id : String) (timestamp : ℕ) (status : TaskStatus) (w : World)
    (other : String) :
    (updateScheduledTask id timestamp status w).scheduledTasks.lookup other =
      if other = id then
        (w.scheduledTasks.lookup id).map (fun row => { row with timestamp, status })
      else w.scheduledTasks.lookup other := by
  unfold updateScheduledTask
  cases hr : w.scheduledTasks.lookup id with
  | none =>
    by_cases heq : other = id
    · rw [if_pos heq,heq]
      exact hr
    · rw [if_neg heq]
  | some row =>
    rw [lookup_set]
    by_cases heq : other = id <;> simp [heq]

theorem unfinished_updateScheduledTask_of_ne {o : String} (hne : o ≠ id) (ts : ℕ)
    (status : TaskStatus) (w : World) :
    Unfinished (updateScheduledTask id ts status w) o ↔ Unfinished w o := by
  unfold Unfinished
  rw [lookup_updateScheduledTask,if_neg hne]

variable {status : TaskStatus}

theorem finished_updateScheduledTask {o : String} {ts : ℕ}
    (h : o ∈ (updateScheduledTask id ts status w).finished) :
    o ∈ w.finished ∨ o = id ∧ ¬Unfinished (updateScheduledTask id ts status w) id := by
  have hl := lookup_updateScheduledTask id ts status w id
  rw [if_pos rfl] at hl
  unfold updateScheduledTask at h
  cases hr : w.scheduledTasks.lookup id with
  | none =>
    rw [hr] at h
    exact .inl h
  | some row =>
    rw [hr] at h hl
    dsimp only at h
    split at h
    · next hf =>
      rcases mem_cons.mp h with rfl | hmem
      · right
        refine ⟨rfl,fun hu => ?_⟩
        exact hu _ hl hf
      · exact .inl hmem
    · exact .inl h

theorem unfinished_updateScheduledTask (hf : ¬status.Finished) (ts : ℕ)
    (w : World) : Unfinished (updateScheduledTask id ts status w) id := by
  intro row hrow
  rw [lookup_updateScheduledTask,if_pos rfl] at hrow
  obtain ⟨old,-,rfl⟩ := map_eq_some_iff.mp hrow
  exact hf

theorem Process.Current.update (h : process.Current w)
    (hrows : status.Finished → ∀ row ∈ process.rows, row.id ≠ id) (ts : ℕ) :
    process.Current (updateScheduledTask id ts status w) := by
  refine ⟨fun row hrow => ?_,h.2⟩
  by_cases hf : status.Finished
  · exact (unfinished_updateScheduledTask_of_ne (hrows hf row hrow) ts status w).mpr
      (h.1 row hrow)
  · by_cases hid : row.id = id
    · rw [hid]
      exact unfinished_updateScheduledTask hf ts w
    · exact (unfinished_updateScheduledTask_of_ne hid ts status w).mpr (h.1 row hrow)

theorem Settled.update (h : Settled (process::rs) w) (next : Process) (hsl : Slots (process::rs) w)
    (hp : process.unstored = some id) (ts : ℕ)
    (hrows : status.Finished → ∀ o ∈ rs, ∀ row ∈ o.rows, row.id ≠ id)
    (hc : next.Current (updateScheduledTask id ts status w))
    (hn : next.unstored = none ∨ next.unstored = some id ∧ ¬status.Finished) :
    Settled (rs ++ [next]) (updateScheduledTask id ts status w) := by
  have hid : id ∉ w.finished := fun hid => (h.stays id hid).2 process mem_cons_self hp
  have hr : ∀ o ∈ rs, o.unstored ≠ some id := by
    intro o ho hsa
    have hh := hsl.2.2.1
    rw [filterMap_cons_some (Process.holds_of_unstored hp)] at hh
    apply (nodup_cons.mp hh).1
    exact mem_filterMap.mpr ⟨o,ho,Process.holds_of_unstored hsa⟩
  have hs : Settled rs (updateScheduledTask id ts status w) := by
    refine ⟨?_,?_,fun o ho => ?_⟩
    · intro o row hrow
      rw [lookup_updateScheduledTask] at hrow
      split at hrow
      · next heq =>
        obtain ⟨old,hold,rfl⟩ := map_eq_some_iff.mp hrow
        exact (h.keyed id old hold).trans heq.symm
      · exact h.keyed o row hrow
    · intro o ho
      exact (h.drop.current o ho).update (fun hf => hrows hf o ho) ts
    · rcases finished_updateScheduledTask ho with hm | ⟨rfl,hs⟩
      · have hne : o ≠ id := fun heq => hid (heq ▸ hm)
        refine ⟨fun hu => (h.stays o hm).1 ?_,(h.drop.stays o hm).2⟩
        exact (unfinished_updateScheduledTask_of_ne hne ts status w).mp hu
      · exact ⟨hs,hr⟩
  refine hs.extend [next] (by simpa using hc) ?_
  intro o ho id' hid' heq
  rw [mem_singleton.mp ho] at heq
  rcases hn with hn | hn
  · simp [hn] at heq
  · -- the status that has just been stored is not one of a finished task
    rw [hn.1] at heq
    cases heq
    exact (hs.stays id hid').1 (unfinished_updateScheduledTask hn.2 ts w)

theorem Settled.insert (h : Settled processes w) (hnew : task.id ∉ w.scheduledTasks)
    (hf : ¬task.status.Finished) :
    Settled processes { w with scheduledTasks := w.scheduledTasks.insert task.id task } := by
  refine ⟨?_,fun process hp => ?_,fun id hid => ?_⟩
  · intro id row hrow
    rcases set_cases hrow with ⟨rfl,rfl⟩ | ⟨-,hrow⟩
    · rfl
    · exact h.keyed id row hrow
  · refine ⟨fun held hheld row hrow => ?_,(h.current process hp).2⟩
    rcases set_cases hrow with ⟨-,rfl⟩ | ⟨-,hrow⟩
    · exact hf
    · exact (h.current process hp).1 held hheld row hrow
  · obtain ⟨hs,hn⟩ := h.stays id hid
    refine ⟨fun hu => hs (fun row hr => hu row ?_),hn⟩
    have hne : id ≠ task.id := by
      intro heq
      exact hnew (heq ▸ mem_iff_lookup.mpr ⟨row,hr⟩)
    rw [lookup_set,if_neg hne]
    exact hr

theorem Settled.unfinished_of_mem_tasks (h : Settled processes w) (loop : Loop) :
    ∀ task ∈ loop.tasks w.scheduledTasks, Unfinished w task.id := by
  have hget : ∀ {status timestamp limit}, ¬TaskStatus.Finished status →
      ∀ task ∈ getScheduledTasks w.scheduledTasks status timestamp limit,
        Unfinished w task.id := by
    intro status timestamp limit hf task htask row hrow
    have hmem := mem_of_mem_take htask
    rw [mem_insertionSort,mem_filter,Bool.and_eq_true,decide_eq_true_eq] at hmem
    obtain ⟨id,hid⟩ := (mem_values _ _).mp hmem.1
    rw [h.keyed id task hid,hid] at hrow
    cases hrow
    rw [hmem.2.1]
    exact hf
  cases loop with
  | active => exact hget (by decide)
  | scheduled maxTimestamp => exact hget (by decide)

theorem Settled.advance (h : Settled (process::w.processes) w) (hs : Slots (process::w.processes) w)
    (now : ℕ) (status : TaskStatus) (ht : TimelyMove w process) :
    AllSettled (advance now status process w) := by
  have hnone : ∀ {next : Process}, next.rows = [] → (∀ task, next ≠ .inserting task) →
      ∀ w, next.Current w := by
    intro next hrows hne w
    exact ⟨by simp [hrows],fun task heq => absurd heq (hne task)⟩
  have hrows := (h.current process mem_cons_self).1
  cases process with
  | inserting task =>
    simp only [TaskScheduler.advance]
    split
    · exact h.drop
    · next hn =>
      have hf := (h.current _ mem_cons_self).2 task rfl
      have hin := h.drop.insert hn hf
      refine (hin.extend [.inserted task] ?_ (by simp [Process.unstored])).congr rfl rfl
      rw [forall_mem_singleton]
      refine ⟨fun row hrow stored hstored => ?_,by simp⟩
      have hrow' : row = task := by
        simp only [Process.rows] at hrow
        split at hrow
        · exact mem_singleton.mp hrow
        · cases hrow
      rw [hrow',lookup_set,if_pos rfl] at hstored
      cases hstored
      exact hf
  | inserted task =>
    simp only [TaskScheduler.advance]
    simp only [Process.rows] at hrows
    split
    · next ha =>
      rw [if_pos ha] at hrows
      exact h.drop.launchTasks now none _ hrows
    · exact h.drop
  | gettingTask id =>
    refine (h.replace (.gotTask (w.scheduledTasks.lookup id)) ⟨?_,by simp⟩ (.inl rfl)).congr rfl rfl
    intro row hrow
    rw [h.keyed id row (mem_toList.mp hrow)]
    exact ht
  | gotTask task =>
    cases task with
    | none => exact h.drop
    | some task => exact h.drop.launchTasks now none _ hrows
  | gettingTasks loop =>
    exact (h.replace (.gotTasks loop (loop.tasks w.scheduledTasks))
      ⟨h.unfinished_of_mem_tasks loop,by simp⟩ (.inl rfl)).congr rfl rfl
  | gotTasks loop tasks => exact h.drop.launchTasks now _ _ hrows
  | activating task caller rs =>
    obtain ⟨-,hp⟩ := updateScheduledTask_runningTasks task.id now .active w
    have hactive : ¬TaskStatus.active.Finished := by decide
    simp only [TaskScheduler.advance,World.put,hp]
    refine (h.update (.activated task caller rs) hs rfl now (fun hf => absurd hf hactive) ?_
      (.inr ⟨rfl,hactive⟩)).congr rfl rfl
    have hrest : (Process.activated task caller rs).Current w := ⟨hrows,by simp⟩
    exact hrest.update (fun hf => absurd hf hactive) now
  | activated task caller rs =>
    have hput : AllSettled (w.put (.function task)) :=
      (h.replace (.function task) (hnone rfl (by simp) w) (.inr rfl)).congr rfl rfl
    exact hput.launchTasks now caller rs hrows
  | function task =>
    exact (h.replace (.updating task status) (hnone rfl (by simp) w) (.inr rfl)).congr rfl rfl
  | updating task status' =>
    obtain ⟨-,hp⟩ := updateScheduledTask_runningTasks task.id now status' w
    simp only [TaskScheduler.advance,World.put,hp]
    exact (h.update (.updated task) hs rfl now ht (hnone rfl (by simp) _) (.inl rfl)).congr rfl rfl
  | updated task => exact h.drop.congr rfl rfl

theorem Settled.perm (h : Settled processes w) (hp : processes.Perm others') : Settled others' w :=
  h.subset hp.symm.subset

theorem Settled.step (h : AllSettled w) (hs : Slotted w) {op : Op}
    (ht : Timely op w) : AllSettled (step op w) := by
  apply step_rule (I := fun w => AllSettled w) h
  · intro launching process hn
    exact (h.add [process] (by simp [hn])).congr rfl rfl
  · intro n process launching hp
    exact (h.perm (cons_eraseIdx_perm hp)).drop.congr rfl rfl
  · rintro n now status process rfl hp
    have hpe := cons_eraseIdx_perm hp
    apply Settled.advance
    · exact (h.perm hpe).congr rfl rfl
    · exact (hs.perm hpe).congr rfl
    · exact ht process hp

theorem Settled.finishedStay (h : AllSettled w) : FinishedStay w := by
  intro id hid
  obtain ⟨hs,hn⟩ := h.stays id hid
  refine ⟨hs,fun hm => ?_⟩
  obtain ⟨process,hp,hr⟩ := mem_filterMap.mp hm
  exact hn process hp (Process.unstored_of_running hr)

theorem run_slots (actions : List String) (ops : List Op) :
    Slotted (run step ops (start actions)) :=
  run_invariant (I := fun w => Slotted w) (fun op _ h => h.step op) ops (start_slots actions)

theorem run_settled (actions : List String) {ops : List Op}
    (ht : Admitted step Timely ops (start actions)) :
    AllSettled (run step ops (start actions)) := by
  have h : Slotted (run step ops (start actions)) ∧ AllSettled (run step ops (start actions)) := by
    apply ht.invariant (I := fun w => Slotted w ∧ AllSettled w)
    · intro op w h hop
      exact ⟨h.1.step op,h.2.step h.1 hop⟩
    · refine ⟨start_slots actions,?_,?_,?_⟩
      · intro id row hrow
        cases hrow
      · intro process hp
        cases hp
      · intro id hid
        cases hid
  exact h.2

/-- In every run, no more functions than allowed run at once and no task has two runs in
progress. Where no finished status is stored while a call holds a row of the task, and no finished
task is launched by its ID, a finished task stays finished and is not run again. -/
theorem finished_never_run_again (actions : List String) (ops : List Op) :
    (functions (run step ops (start actions))).length ≤ maxConcurrentRunningTasks ∧
      (functions (run step ops (start actions))).Nodup ∧
      (Admitted step Timely ops (start actions) → FinishedStay (run step ops (start actions))) := by
  obtain ⟨hnodup,hlength⟩ := (run_slots actions ops).functions
  exact ⟨hlength,hnodup,fun htimely => (run_settled actions htimely).finishedStay⟩

def twoTasks : List Op :=
  [.scheduleTask "first" "purge" none 1,.advance 0 1 .active,.advance 0 1 .active,
    .advance 0 1 .active,.advance 0 1 .active,
    .scheduleTask "second" "purge" none 2,.advance 1 2 .active,.advance 1 2 .active,
    .advance 0 3 .complete,.advance 1 3 .complete,.advance 1 3 .complete]

theorem finished_never_run_again_twoTasks :
    Admitted step Timely twoTasks (start ["purge"]) ∧
      (run step twoTasks (start ["purge"])).finished = ["first"] ∧
      FinishedStay (run step twoTasks (start ["purge"])) := by
  have hadmitted : Admitted step Timely twoTasks (start ["purge"]) := by decide +kernel
  exact ⟨hadmitted,by decide +kernel,(finished_never_run_again ["purge"] twoTasks).2.2 hadmitted⟩

def staleRow : List Op :=
  [.scheduleTask "first" "purge" none 1,.advance 0 1 .active,.advance 0 1 .active,
    .advance 0 1 .active,.advance 0 1 .active,
    .launchScheduledTasks,.advance 1 2 .active,
    .advance 0 3 .complete,.advance 1 3 .complete,.advance 1 3 .complete,
    .advance 0 4 .active,.advance 0 4 .active,.advance 0 4 .active]

/-- The task was complete, is active again and its function runs a second time. -/
theorem finished_task_run_again :
    (run step staleRow (start ["purge"])).finished = ["first"] ∧
      (run step staleRow (start ["purge"])).scheduledTasks.lookup "first" =
        some ⟨"first","purge",.active,4⟩ ∧
      functions (run step staleRow (start ["purge"])) = ["first"] ∧
      ¬FinishedStay (run step staleRow (start ["purge"])) := by
  decide +kernel

end Synapse.TaskScheduler
