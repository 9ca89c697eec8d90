import DistLabs.MR.Files
import DistLabs.MR.Lease

/-! # A MapReduce job

    The coordinator, the workers and the two directories they share. Worker `w` has the process id
    `w`; there is no bound on their number, and a worker that has crashed or stalled is one that
    takes no more steps. To read, create, flush or rename a file is one step each, and so is every
    `Glob` of `makeReduceTask`. What `mapf`, `sort.Sort` and `os.CreateTemp` return is given with
    the step that calls them. -/

namespace DistLabs.MR

open Grouping

/-- The application and its input. -/
structure Setting where
  mapf : String → String → List KeyValue
  reducef : String → List String → String
  contents : String → String
  files : List String
  nReduce : ℕ

/-- Where a worker is in the loop of `Worker`. -/
inductive WorkerPc where
  /-- before `requestTask` -/
  | idle
  /-- in `requestTask`, which has made call `k` -/
  | requesting (k : ℕ)
  /-- `doMap` with the input files it has still to read, and the pairs so far -/
  | mapping (replys : RequestTaskReplys) (rest : List String) (kva : List KeyValue)
  /-- `writeIntoTmpFiles` with the temporary files it has created so far -/
  | creating (replys : RequestTaskReplys) (kva : List KeyValue) (names : List String)
  /-- it has flushed the first `i` of them -/
  | flushing (replys : RequestTaskReplys) (kva : List KeyValue) (names : List String) (i : ℕ)
  /-- it has renamed the first `i` of them -/
  | renaming (replys : RequestTaskReplys) (names : List String) (i : ℕ)
  /-- `doReduce` with the files it has still to read, and the map so far -/
  | reading (replys : RequestTaskReplys) (rest : List String)
      (kva : AList fun _ : String => List String)
  /-- it has printed these lines to its temporary file and has still to print these keys -/
  | printing (replys : RequestTaskReplys) (kva : AList fun _ : String => List String)
      (keys : List String) (printed : List Line) (name : String)
  /-- before `reportTask` -/
  | reporting (replys : RequestTaskReplys)
  /-- in `time.Sleep` -/
  | waiting
  | exited

/-- The steps of a worker. -/
inductive Work where
  | request
  | receive
  /-- the next input file is read, and `mapf` returns -/
  | mapFile (kva : List KeyValue)
  /-- `sort.Sort` returns -/
  | sort (kva : List KeyValue)
  /-- `os.CreateTemp` adds `random` to the name -/
  | createTemp (random : String)
  /-- the loop over the pairs, into the buffers of the writers -/
  | encode
  | flush
  | rename
  | readFile
  | print
  | report
  | wake

structure Job where
  server : Server
  workers : ℕ → WorkerPc
  /-- `TempDir` -/
  tmp : Dir
  /-- the working directory -/
  out : Dir
  /-- what `Glob` has returned to `makeReduceTask` so far, by `reduceId` -/
  found : List (List String)

inductive JobEvent where
  | run (k : ℕ)
  | timeout (k : ℕ)
  /-- `makeReduceTask`, within an iteration of `checkPhase`, calls `Glob` for the next `reduceId` -/
  | glob
  /-- an iteration of `checkPhase` ends -/
  | checkPhase
  | work (w : ℕ) (a : Work)

namespace Job

/-- `createTmpDir` empties `TempDir`; the working directory may have files of earlier jobs. -/
def init (S : Setting) (out : Dir) : Job :=
  ⟨.make S.files S.nReduce, fun _ => .idle, ∅, out, []⟩

def goto (j : Job) (w : ℕ) (pc : WorkerPc) : Job :=
  { j with workers := Function.update j.workers w pc }

/-- The `switch` over the type of the task. -/
def dispatch (replys : RequestTaskReplys) : WorkerPc :=
  match replys.taskType with
  | .MapTask => .mapping replys replys.inputFiles []
  | .ReduceTask => .reading replys replys.inputFiles ∅
  | .WaitTask => .waiting
  | .ExitTask => .exited

/-- A step of the coordinator. -/
def serve (j : Job) (e : Event) : Except Halt Job :=
  match j.server.step e with
  | .ok s => .ok { j with server := s }
  | .error x => .error x

/-- The file in `TempDir` now holds this. -/
def write (j : Job) (name : String) (file : File) : Job :=
  { j with tmp := j.tmp.insert name file }

/-- `os.CreateTemp` picks a name that does not exist. -/
def createTemp (j : Job) (w : ℕ) (name : String) (file : File) (pc : WorkerPc) : Except Halt Job :=
  if (j.tmp.lookup name).isSome then .error .disabled
  else .ok ((j.write name file).goto w pc)

/-- `os.Rename` of a temporary file to an intermediate file; where it fails, only a message is
    printed. -/
def renameTmp (j : Job) (name newName : String) : Job :=
  match j.tmp.take name with
  | some (file, tmp) => { j with tmp := tmp.insert newName file }
  | none => j

/-- `os.Rename` of a temporary file to an output file. -/
def renameOut (j : Job) (name newName : String) : Job :=
  match j.tmp.take name with
  | some (file, tmp) => { j with tmp := tmp, out := j.out.insert newName file }
  | none => j

def work (S : Setting) (j : Job) (w : ℕ) (a : Work) : Except Halt Job :=
  match j.workers w, a with
  | .idle, .request => (j.goto w (.requesting j.server.calls.length)).serve (.request w)
  | .requesting k, .receive =>
    match j.server.calls[k]? with
    | some ⟨_, .returned replys _⟩ => .ok (j.goto w (dispatch replys))
    | _ => .error .disabled
  | .mapping replys (_ :: rest) kva, .mapFile kva' =>
    .ok (j.goto w (.mapping replys rest (kva ++ kva')))
  | .mapping replys [] _, .sort kva => .ok (j.goto w (.creating replys kva []))
  | .creating replys kva names, .createTemp random =>
    if names.length < replys.reduceNum then
      let name := mrName replys.taskID names.length ++ random
      j.createTemp w name (.pairs []) (.creating replys kva (names ++ [name]))
    else .error .disabled
  | .creating replys kva names, .encode =>
    if names.length < replys.reduceNum then .error .disabled
    -- `ihash(kv.Key) % numFiles`
    else if replys.reduceNum = 0 ∧ kva ≠ [] then .error .panic
    else .ok (j.goto w (.flushing replys kva names 0))
  | .flushing replys kva names i, .flush =>
    match names[i]? with
    | some name =>
      let file := .pairs ((writeIntoTmpFiles replys.reduceNum kva).getD i [])
      .ok ((j.write name file).goto w (.flushing replys kva names (i + 1)))
    | none => .ok (j.goto w (.renaming replys names 0))
  | .renaming replys names i, .rename =>
    match names[i]? with
    | some name =>
      .ok ((j.renameTmp name (mrName replys.taskID i)).goto w (.renaming replys names (i + 1)))
    | none => .ok (j.goto w (.reporting replys))
  | .reading replys (f :: rest) kva, .readFile =>
    .ok (j.goto w (.reading replys rest
      (collect KeyValue.key KeyValue.value kva (j.tmp.decode f))))
  | .reading replys [] kva, .createTemp random =>
    let name := outName replys.taskID ++ random
    j.createTemp w name (.lines []) (.printing replys kva (sortedKeys kva) [] name)
  | .printing replys kva (key :: keys) printed name, .print =>
    let printed := printed ++ [reduceKey S.reducef kva key]
    .ok ((j.write name (.lines printed)).goto w (.printing replys kva keys printed name))
  | .printing replys _ [] _ name, .rename =>
    .ok ((j.renameOut name (outName replys.taskID)).goto w (.reporting replys))
  | .reporting replys, .report =>
    (j.goto w .idle).serve (.report ⟨replys.taskType, replys.taskID, w⟩)
  | .waiting, .wake => .ok (j.goto w .idle)
  | _, _ => .error .disabled

/-- `makeReduceTask` has been called and has still to call `Glob`. -/
def Scans (j : Job) : Prop :=
  j.server.c.phase = .MapPhase ∧ j.server.c.nMap = j.server.c.mapTask.length ∧
    j.found.length < j.server.c.nReduce

instance (j : Job) : Decidable j.Scans := inferInstanceAs (Decidable (_ ∧ _ ∧ _))

def step (S : Setting) (j : Job) : JobEvent → Except Halt Job
  | .run k => j.serve (.run k)
  | .timeout k => j.serve (.timeout k)
  | .glob =>
    if j.Scans then .ok { j with found := j.found ++ [j.tmp.glob j.found.length] }
    else .error .disabled
  | .checkPhase =>
    if j.Scans then .error .disabled
    else j.serve (.checkPhase fun reduceId => j.found.getD reduceId [])
  | .work w a => j.work S w a

/-- What is assumed of the calls out of the worker: `mapf` returns the same pairs each time, in any
    order, `sort.Sort` sorts, and `os.CreateTemp` keeps clear of the names `mr-*-Y` for
    `Y < nReduce`. -/
def Assumed (S : Setting) (j : Job) : JobEvent → Prop
  | .work w (.mapFile kva) =>
    match j.workers w with
    | .mapping _ (f :: _) _ => kva.Perm (S.mapf f (S.contents f))
    | _ => True
  | .work w (.sort kva) =>
    match j.workers w with
    | .mapping _ _ kva' => kva.Perm kva' ∧ kva.Pairwise fun a b => a.key ≤ b.key
    | _ => True
  | .work w (.createTemp random) =>
    match j.workers w with
    | .creating replys _ names =>
      ∀ y < S.nReduce, globMatches y (mrName replys.taskID names.length ++ random) = false
    | .reading replys _ _ =>
      ∀ y < S.nReduce, globMatches y (outName replys.taskID ++ random) = false
    | _ => True
  | _ => True

/-! ### What a step does -/

/-- All steps of a job. -/
inductive Moves (S : Setting) (j : Job) : JobEvent → Job → Prop
  | run {k : ℕ} {s : Server} (moves : j.server.Moves (.run k) s) :
      Moves S j (.run k) { j with server := s }
  | timeout {k : ℕ} {s : Server} (moves : j.server.Moves (.timeout k) s) :
      Moves S j (.timeout k) { j with server := s }
  | glob (scans : j.Scans) :
      Moves S j .glob { j with found := j.found ++ [j.tmp.glob j.found.length] }
  | checkPhase {s : Server} (scanned : ¬ j.Scans)
      (moves : j.server.Moves (.checkPhase fun reduceId => j.found.getD reduceId []) s) :
      Moves S j .checkPhase { j with server := s }
  | request {w : ℕ} {s : Server} (pc : j.workers w = .idle)
      (moves : j.server.Moves (.request w) s) : Moves S j (.work w .request)
        { j.goto w (.requesting j.server.calls.length) with server := s }
  | receive {w k : ℕ} {id : ℤ} {replys : RequestTaskReplys} {timer : Option TaskRef}
      (pc : j.workers w = .requesting k)
      (call : j.server.calls[k]? = some ⟨id, .returned replys timer⟩) :
      Moves S j (.work w .receive) (j.goto w (dispatch replys))
  | mapFile {w : ℕ} {replys : RequestTaskReplys} {f : String} {rest : List String}
      {kva kva' : List KeyValue} (pc : j.workers w = .mapping replys (f :: rest) kva) :
      Moves S j (.work w (.mapFile kva')) (j.goto w (.mapping replys rest (kva ++ kva')))
  | sort {w : ℕ} {replys : RequestTaskReplys} {kva kva' : List KeyValue}
      (pc : j.workers w = .mapping replys [] kva) :
      Moves S j (.work w (.sort kva')) (j.goto w (.creating replys kva' []))
  | createTmp {w : ℕ} {replys : RequestTaskReplys} {kva : List KeyValue} {names : List String}
      {random : String} (pc : j.workers w = .creating replys kva names)
      (lt : names.length < replys.reduceNum)
      (fresh : j.tmp.lookup (mrName replys.taskID names.length ++ random) = none) :
      Moves S j (.work w (.createTemp random))
        ((j.write (mrName replys.taskID names.length ++ random) (.pairs [])).goto w
          (.creating replys kva (names ++ [mrName replys.taskID names.length ++ random])))
  | encode {w : ℕ} {replys : RequestTaskReplys} {kva : List KeyValue} {names : List String}
      (pc : j.workers w = .creating replys kva names) (le : replys.reduceNum ≤ names.length) :
      Moves S j (.work w .encode) (j.goto w (.flushing replys kva names 0))
  | flush {w : ℕ} {replys : RequestTaskReplys} {kva : List KeyValue} {names : List String} {i : ℕ}
      {name : String} (pc : j.workers w = .flushing replys kva names i)
      (name_i : names[i]? = some name) : Moves S j (.work w .flush)
        ((j.write name (.pairs ((writeIntoTmpFiles replys.reduceNum kva).getD i []))).goto w
          (.flushing replys kva names (i + 1)))
  | flushed {w : ℕ} {replys : RequestTaskReplys} {kva : List KeyValue} {names : List String} {i : ℕ}
      (pc : j.workers w = .flushing replys kva names i) (name_i : names[i]? = none) :
      Moves S j (.work w .flush) (j.goto w (.renaming replys names 0))
  | renameTmp {w : ℕ} {replys : RequestTaskReplys} {names : List String} {i : ℕ} {name : String}
      (pc : j.workers w = .renaming replys names i) (name_i : names[i]? = some name) :
      Moves S j (.work w .rename)
        ((j.renameTmp name (mrName replys.taskID i)).goto w (.renaming replys names (i + 1)))
  | renamed {w : ℕ} {replys : RequestTaskReplys} {names : List String} {i : ℕ}
      (pc : j.workers w = .renaming replys names i) (name_i : names[i]? = none) :
      Moves S j (.work w .rename) (j.goto w (.reporting replys))
  | readFile {w : ℕ} {replys : RequestTaskReplys} {f : String} {rest : List String}
      {kva : AList fun _ : String => List String}
      (pc : j.workers w = .reading replys (f :: rest) kva) : Moves S j (.work w .readFile)
        (j.goto w (.reading replys rest
          (collect KeyValue.key KeyValue.value kva (j.tmp.decode f))))
  | createOut {w : ℕ} {replys : RequestTaskReplys} {kva : AList fun _ : String => List String}
      {random : String} (pc : j.workers w = .reading replys [] kva)
      (fresh : j.tmp.lookup (outName replys.taskID ++ random) = none) :
      Moves S j (.work w (.createTemp random))
        ((j.write (outName replys.taskID ++ random) (.lines [])).goto w
          (.printing replys kva (sortedKeys kva) [] (outName replys.taskID ++ random)))
  | print {w : ℕ} {replys : RequestTaskReplys} {kva : AList fun _ : String => List String}
      {key : String} {keys : List String} {printed : List Line} {name : String}
      (pc : j.workers w = .printing replys kva (key :: keys) printed name) :
      Moves S j (.work w .print)
        ((j.write name (.lines (printed ++ [reduceKey S.reducef kva key]))).goto w
          (.printing replys kva keys (printed ++ [reduceKey S.reducef kva key]) name))
  | renameOut {w : ℕ} {replys : RequestTaskReplys} {kva : AList fun _ : String => List String}
      {printed : List Line} {name : String}
      (pc : j.workers w = .printing replys kva [] printed name) : Moves S j (.work w .rename)
        ((j.renameOut name (outName replys.taskID)).goto w (.reporting replys))
  | report {w : ℕ} {replys : RequestTaskReplys} {s : Server} (pc : j.workers w = .reporting replys)
      (moves : j.server.Moves (.report ⟨replys.taskType, replys.taskID, w⟩) s) :
      Moves S j (.work w .report) { j.goto w .idle with server := s }
  | wake {w : ℕ} (pc : j.workers w = .waiting) : Moves S j (.work w .wake) (j.goto w .idle)

variable {S : Setting} {j j' : Job}

theorem serve_ok {e : Event} (h : j.serve e = .ok j') :
    ∃ s, j.server.Moves e s ∧ j' = { j with server := s } := by
  unfold serve at h
  split at h
  · cases h
    exact ⟨_, Server.step_moves (by assumption), rfl⟩
  · cases h

theorem createTemp_ok {w : ℕ} {name : String} {file : File} {pc : WorkerPc}
    (h : j.createTemp w name file pc = .ok j') :
    j.tmp.lookup name = none ∧ j' = (j.write name file).goto w pc := by
  unfold createTemp at h
  split at h
  · cases h
  · cases h
    exact ⟨Option.not_isSome_iff_eq_none.mp (by assumption), rfl⟩

theorem work_moves {w : ℕ} {a : Work} (h : j.work S w a = .ok j') :
    j.Moves S (.work w a) j' := by
  unfold work at h
  split at h
  next hpc =>
    obtain ⟨s, hm, rfl⟩ := serve_ok h
    exact .request hpc hm
  next k hpc =>
    split at h
    · cases h
      exact .receive hpc (by assumption)
    · cases h
  next hpc =>
    cases h
    exact .mapFile hpc
  next hpc =>
    cases h
    exact .sort hpc
  next hpc =>
    split at h
    · obtain ⟨hfresh, rfl⟩ := createTemp_ok h
      exact .createTmp hpc (by assumption) hfresh
    · cases h
  next hpc =>
    split at h
    · cases h
    split at h
    · cases h
    · cases h
      exact .encode hpc (by omega)
  next hpc =>
    split at h
    · cases h
      exact .flush hpc (by assumption)
    · cases h
      exact .flushed hpc (by assumption)
  next hpc =>
    split at h
    · cases h
      exact .renameTmp hpc (by assumption)
    · cases h
      exact .renamed hpc (by assumption)
  next hpc =>
    cases h
    exact .readFile hpc
  next hpc =>
    obtain ⟨hfresh, rfl⟩ := createTemp_ok h
    exact .createOut hpc hfresh
  next hpc =>
    cases h
    exact .print hpc
  next hpc =>
    cases h
    exact .renameOut hpc
  next hpc =>
    obtain ⟨s, hm, rfl⟩ := serve_ok h
    exact .report hpc hm
  next hpc =>
    cases h
    exact .wake hpc
  next => cases h

theorem step_moves {e : JobEvent} (h : j.step S e = .ok j') : j.Moves S e j' := by
  cases e with
  | run k =>
    obtain ⟨s, hm, rfl⟩ := serve_ok h
    exact .run hm
  | timeout k =>
    obtain ⟨s, hm, rfl⟩ := serve_ok h
    exact .timeout hm
  | glob =>
    rw [step] at h
    split at h
    · cases h
      exact .glob (by assumption)
    · cases h
  | checkPhase =>
    rw [step] at h
    split at h
    · cases h
    · obtain ⟨s, hm, rfl⟩ := serve_ok h
      exact .checkPhase (by assumption) hm
  | work w a => exact work_moves h

end Job
end DistLabs.MR
