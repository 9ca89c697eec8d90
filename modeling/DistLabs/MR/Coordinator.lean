import DistLabs.Schemes.Run
import DistLabs.Schemes.Slice

/-! # The MapReduce coordinator

    The coordinator of `mr/coordinator.go` with everything that runs in its process: the calls of
    `RequestTask`, cut at every access to shared memory that is not under the lock, the
    `checkTimeout` goroutines they start, `ReportTask` and the iterations of `checkPhase`. Worker
    ids are any integers, and what `Glob` finds is given with the iteration that calls it. -/

namespace DistLabs.MR

inductive TaskType where | MapTask | ReduceTask | WaitTask | ExitTask
  deriving DecidableEq

inductive TaskStat where | NotAssign | Assigned | Finished
  deriving DecidableEq

inductive Phase where | MapPhase | ReducePhase | AllDone
  deriving DecidableEq

structure Task where
  taskType : TaskType
  taskStat : TaskStat
  inputFiles : List String
  taskID : ℤ
  workerID : ℤ
  deriving DecidableEq

structure Coordinator where
  inputFiles : List String
  nMap : ℕ
  nReduce : ℕ
  mapTask : List Task
  reduceTask : List Task
  phase : Phase
  deriving DecidableEq

structure RequestTaskReplys where
  taskType : TaskType
  taskID : ℤ
  inputFiles : List String
  reduceNum : ℕ
  deriving DecidableEq

structure ReportTaskArgs where
  taskType : TaskType
  taskId : ℤ
  workerID : ℤ
  deriving DecidableEq

/-- A pointer to a task: into `mapTask` or `reduceTask`, or to a task that `selectTask` allocates
    for a worker that has to wait. -/
inductive TaskRef where
  | map (i : ℕ)
  | reduce (i : ℕ)
  | wait (i : ℕ)
  deriving DecidableEq

/-- How far a call of `RequestTask` has come. -/
inductive Pc where
  /-- before `c.phase == MapPhase` -/
  | entered
  /-- before `c.phase == ReducePhase` -/
  | notMap
  /-- before `c.phase` is read as the argument of `selectTask` -/
  | branch
  /-- before `selectTask` takes the lock -/
  | selecting (phase : Phase)
  /-- before `task.WorkerID = args.WorkerID` -/
  | assigning (task : TaskRef)
  /-- before the reply is filled in -/
  | filling (task : TaskRef)
  /-- before `go c.checkTimeout(args.WorkerID, task)` -/
  | timing (task : TaskRef) (replys : RequestTaskReplys)
  /-- returned; `timer` is the task that its `checkTimeout` goroutine has still to look at -/
  | returned (replys : RequestTaskReplys) (timer : Option TaskRef)
  deriving DecidableEq

structure Call where
  workerID : ℤ
  pc : Pc
  deriving DecidableEq

/-- The process of the coordinator. `calls` are all calls of `RequestTask` so far, and `selected` is
    history: the tasks `selectTask` has handed out, newest first, each with the number of the
    call. -/
structure Server where
  c : Coordinator
  waits : List Task
  calls : List Call
  selected : List (TaskRef × ℕ)
  deriving DecidableEq

inductive Event where
  /-- a call of `RequestTask` arrives -/
  | request (workerID : ℤ)
  /-- the next step of call `k` -/
  | run (k : ℕ)
  | report (args : ReportTaskArgs)
  /-- the `checkTimeout` goroutine of call `k` wakes up -/
  | timeout (k : ℕ)
  /-- an iteration of `checkPhase`, with what `Glob` finds for each `reduceId` -/
  | checkPhase (glob : ℕ → List String)

/-! ### The coordinator -/

namespace Coordinator

def makeMapTask (c : Coordinator) : Coordinator :=
  { c with
    mapTask := c.mapTask ++ (List.range c.nMap).map fun mapId =>
      ⟨.MapTask, .NotAssign, [c.inputFiles.getD mapId ""], mapId, -1⟩
    -- from here on the number of finished tasks
    nMap := 0 }

def makeReduceTask (c : Coordinator) (glob : ℕ → List String) : Coordinator :=
  { c with
    reduceTask := c.reduceTask ++ (List.range c.nReduce).map fun reduceId =>
      ⟨.ReduceTask, .NotAssign, glob reduceId, reduceId, -1⟩
    nReduce := 0 }

def makeCoordinator (files : List String) (nReduce : ℕ) : Coordinator :=
  makeMapTask
    { inputFiles := files
      nMap := files.length
      nReduce := nReduce
      mapTask := []
      reduceTask := []
      phase := .MapPhase }

/-- The locked part of an iteration of `checkPhase`. -/
def checkPhase (c : Coordinator) (glob : ℕ → List String) : Coordinator :=
  match c.phase with
  | .MapPhase =>
    if c.nMap = c.mapTask.length then { c with phase := .ReducePhase }.makeReduceTask glob else c
  | .ReducePhase => if c.nReduce = c.reduceTask.length then { c with phase := .AllDone } else c
  | .AllDone => c

/-- `Done`. -/
def done (c : Coordinator) : Bool := decide (c.phase = .AllDone)

/-- A task of this type is finished. -/
def count (c : Coordinator) : TaskType → Coordinator
  | .MapTask => { c with nMap := c.nMap + 1 }
  | .ReduceTask => { c with nReduce := c.nReduce + 1 }
  | _ => c

end Coordinator

/-- The locked part of `checkTimeout`. -/
def Task.checkTimeout (workerId : ℤ) (task : Task) : Task :=
  if task.taskStat = .Finished then task
  else if task.workerID = workerId ∧ task.taskStat = .Assigned ∨ task.workerID ≠ workerId then
    { task with taskStat := .NotAssign, workerID := -1 }
  else task

/-- The task of a report; `ReportTask` dereferences a nil pointer for the other types. -/
def ReportTaskArgs.task (args : ReportTaskArgs) : Option TaskRef :=
  if 0 ≤ args.taskId then
    match args.taskType with
    | .MapTask => some (.map args.taskId.toNat)
    | .ReduceTask => some (.reduce args.taskId.toNat)
    | _ => none
  else none

/-! ### Its process -/

namespace Server

def make (files : List String) (nReduce : ℕ) : Server :=
  ⟨.makeCoordinator files nReduce, [], [], []⟩

def task (s : Server) : TaskRef → Option Task
  | .map i => s.c.mapTask[i]?
  | .reduce i => s.c.reduceTask[i]?
  | .wait i => s.waits[i]?

/-- A write through the pointer. -/
def update (s : Server) (r : TaskRef) (f : Task → Task) : Server :=
  match r with
  | .map i => { s with c := { s.c with mapTask := s.c.mapTask.modify i f } }
  | .reduce i => { s with c := { s.c with reduceTask := s.c.reduceTask.modify i f } }
  | .wait i => { s with waits := s.waits.modify i f }

def goto (s : Server) (k : ℕ) (pc : Pc) : Server :=
  { s with calls := s.calls.modify k ({ · with pc := pc }) }

/-- The first task that is not assigned. -/
def free (tasks : List Task) : Option ℕ := tasks.findIdx? fun t => decide (t.taskStat = .NotAssign)

/-- The task `selectTask` finds in this phase. -/
def pick (s : Server) : Phase → Option TaskRef
  | .MapPhase => (free s.c.mapTask).map .map
  | .ReducePhase => (free s.c.reduceTask).map .reduce
  | .AllDone => none

def waitTask : Task := ⟨.WaitTask, .Finished, [], -1, -1⟩

/-- `selectTask` for call `k`. -/
def selectTask (s : Server) (k : ℕ) (phase : Phase) : Server × TaskRef :=
  match s.pick phase with
  | some r =>
    ({ s.update r ({ · with taskStat := .Assigned }) with selected := (r, k) :: s.selected }, r)
  | none => ({ s with waits := s.waits ++ [waitTask] }, .wait s.waits.length)

def runCall (s : Server) (k : ℕ) (call : Call) : Except Halt Server :=
  match call.pc with
  | .entered => .ok (s.goto k (if s.c.phase = .MapPhase then .branch else .notMap))
  | .notMap => .ok (s.goto k
      (if s.c.phase = .ReducePhase then .branch else .returned ⟨.ExitTask, 0, [], 0⟩ none))
  | .branch => .ok (s.goto k (.selecting s.c.phase))
  | .selecting phase => .ok ((s.selectTask k phase).1.goto k (.assigning (s.selectTask k phase).2))
  | .assigning r =>
    .ok ((s.update r ({ · with workerID := call.workerID })).goto k (.filling r))
  | .filling r =>
    match s.task r with
    | none => .error .panic
    | some t => .ok (s.goto k (.timing r ⟨t.taskType, t.taskID, t.inputFiles, s.c.nReduce⟩))
  | .timing r replys => .ok (s.goto k (.returned replys (some r)))
  | .returned _ _ => .error .disabled

def reportTask (s : Server) (args : ReportTaskArgs) : Except Halt Server :=
  match args.task with
  | none => .error .panic
  | some r =>
    match s.task r with
    | none => .error .panic
    | some t =>
      if t.workerID = args.workerID ∧ t.taskStat = .Assigned then
        let s' := s.update r ({ · with taskStat := .Finished })
        .ok { s' with c := s'.c.count t.taskType }
      else .ok s

def timeout (s : Server) (k : ℕ) (call : Call) : Except Halt Server :=
  match call.pc with
  | .returned replys (some r) =>
    .ok ((s.update r (·.checkTimeout call.workerID)).goto k (.returned replys none))
  | _ => .error .disabled

def step (s : Server) : Event → Except Halt Server
  | .request w => .ok { s with calls := s.calls ++ [⟨w, .entered⟩] }
  | .run k =>
    match s.calls[k]? with
    | none => .error .disabled
    | some call => s.runCall k call
  | .report args => s.reportTask args
  | .timeout k =>
    match s.calls[k]? with
    | none => .error .disabled
    | some call => s.timeout k call
  | .checkPhase glob =>
    if s.c.phase = .AllDone then .error .disabled else .ok { s with c := s.c.checkPhase glob }

end Server

/-! ### What a step does -/

/-- The steps of `RequestTask` that only read the phase. -/
inductive Coordinator.Reads (c : Coordinator) : Pc → Pc → Prop
  | isMap (phase : c.phase = .MapPhase) : Reads c .entered .branch
  | isNotMap (phase : c.phase ≠ .MapPhase) : Reads c .entered .notMap
  | isReduce (phase : c.phase = .ReducePhase) : Reads c .notMap .branch
  | exit (phase : c.phase ≠ .ReducePhase) :
      Reads c .notMap (.returned ⟨.ExitTask, 0, [], 0⟩ none)
  | argument : Reads c .branch (.selecting c.phase)

namespace Server

/-- All steps of the process. -/
inductive Moves (s : Server) : Event → Server → Prop
  | request (w : ℤ) : Moves s (.request w) { s with calls := s.calls ++ [⟨w, .entered⟩] }
  | reads {k : ℕ} {call : Call} {pc : Pc} (call_k : s.calls[k]? = some call)
      (reads : s.c.Reads call.pc pc) : Moves s (.run k) (s.goto k pc)
  | select {k : ℕ} {call : Call} {phase : Phase} {r : TaskRef} (call_k : s.calls[k]? = some call)
      (pc : call.pc = .selecting phase) (pick : s.pick phase = some r) :
      Moves s (.run k) ({ s.update r ({ · with taskStat := .Assigned }) with
        selected := (r, k) :: s.selected }.goto k (.assigning r))
  | wait {k : ℕ} {call : Call} {phase : Phase} (call_k : s.calls[k]? = some call)
      (pc : call.pc = .selecting phase) (pick : s.pick phase = none) :
      Moves s (.run k) ({ s with waits := s.waits ++ [waitTask] }.goto k
        (.assigning (.wait s.waits.length)))
  | assign {k : ℕ} {call : Call} {r : TaskRef} (call_k : s.calls[k]? = some call)
      (pc : call.pc = .assigning r) :
      Moves s (.run k) ((s.update r ({ · with workerID := call.workerID })).goto k (.filling r))
  | fill {k : ℕ} {call : Call} {r : TaskRef} {t : Task} (call_k : s.calls[k]? = some call)
      (pc : call.pc = .filling r) (task : s.task r = some t) :
      Moves s (.run k) (s.goto k (.timing r ⟨t.taskType, t.taskID, t.inputFiles, s.c.nReduce⟩))
  | start {k : ℕ} {call : Call} {r : TaskRef} {replys : RequestTaskReplys}
      (call_k : s.calls[k]? = some call) (pc : call.pc = .timing r replys) :
      Moves s (.run k) (s.goto k (.returned replys (some r)))
  | finish {args : ReportTaskArgs} {r : TaskRef} {t : Task} (args_task : args.task = some r)
      (task : s.task r = some t) (worker : t.workerID = args.workerID)
      (stat : t.taskStat = .Assigned) :
      Moves s (.report args) { s.update r ({ · with taskStat := .Finished }) with
        c := (s.update r ({ · with taskStat := .Finished })).c.count t.taskType }
  | late {args : ReportTaskArgs} : Moves s (.report args) s
  | timeout {k : ℕ} {call : Call} {r : TaskRef} {replys : RequestTaskReplys}
      (call_k : s.calls[k]? = some call) (pc : call.pc = .returned replys (some r)) :
      Moves s (.timeout k)
        ((s.update r (·.checkTimeout call.workerID)).goto k (.returned replys none))
  | checkPhase (glob : ℕ → List String) (phase : s.c.phase ≠ .AllDone) :
      Moves s (.checkPhase glob) { s with c := s.c.checkPhase glob }

theorem runCall_moves {s s' : Server} {k : ℕ} {call : Call} (hk : s.calls[k]? = some call)
    (h : s.runCall k call = .ok s') : s.Moves (.run k) s' := by
  unfold runCall at h
  split at h
  next hpc =>
    cases h
    split
    · exact .reads hk (hpc ▸ .isMap (by assumption))
    · exact .reads hk (hpc ▸ .isNotMap (by assumption))
  next hpc =>
    cases h
    split
    · exact .reads hk (hpc ▸ .isReduce (by assumption))
    · exact .reads hk (hpc ▸ .exit (by assumption))
  next hpc =>
    cases h
    exact .reads hk (hpc ▸ .argument)
  next phase hpc =>
    cases h
    unfold selectTask
    cases hp : s.pick phase with
    | some r => exact .select hk hpc hp
    | none => exact .wait hk hpc hp
  next r hpc =>
    cases h
    exact .assign hk hpc
  next r hpc =>
    split at h
    · cases h
    · cases h
      exact .fill hk hpc (by assumption)
  next r replys hpc =>
    cases h
    exact .start hk hpc
  next => cases h

theorem reportTask_moves {s s' : Server} {args : ReportTaskArgs} (h : s.reportTask args = .ok s') :
    s.Moves (.report args) s' := by
  unfold reportTask at h
  split at h
  · cases h
  split at h
  · cases h
  split at h
  next hok =>
    cases h
    exact .finish (by assumption) (by assumption) hok.1 hok.2
  next =>
    cases h
    exact .late

theorem step_moves {s s' : Server} {e : Event} (h : s.step e = .ok s') : s.Moves e s' := by
  cases e with
  | request w =>
    cases h
    exact .request w
  | run k =>
    rw [step] at h
    split at h
    · cases h
    · exact runCall_moves (by assumption) h
  | report args => exact reportTask_moves h
  | timeout k =>
    rw [step] at h
    split at h
    · cases h
    · rename_i hk
      unfold timeout at h
      split at h
      · cases h
        exact .timeout hk (by assumption)
      · cases h
  | checkPhase glob =>
    rw [step] at h
    split at h
    · cases h
    · cases h
      exact .checkPhase glob (by assumption)

/-! ### Reading after a write -/

variable (s : Server) (r : TaskRef) (f : Task → Task) (k : ℕ) (pc : Pc)

theorem task_update (r' : TaskRef) :
    (s.update r f).task r' = if r = r' then (s.task r').map f else s.task r' := by
  cases r <;> cases r' <;> simp [update, task, List.getElem?_modify, apply_ite]
  all_goals split <;> simp [*]

@[simp] theorem task_update_self : (s.update r f).task r = (s.task r).map f := by
  rw [task_update, if_pos rfl]

theorem task_update_of_ne {r' : TaskRef} (h : r ≠ r') : (s.update r f).task r' = s.task r' := by
  rw [task_update, if_neg h]

@[simp] theorem update_calls : (s.update r f).calls = s.calls := by
  cases r <;> rfl

@[simp] theorem update_selected : (s.update r f).selected = s.selected := by
  cases r <;> rfl

@[simp] theorem goto_task : (s.goto k pc).task r = s.task r := by
  cases r <;> rfl

end Server
end DistLabs.MR
