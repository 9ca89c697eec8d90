import DistLabs.MR.Coordinator

/-! # Counters and phases

    `nMap` and `nReduce` are the numbers of tasks until the tasks have been made, and count the
    finished ones from then on. `Coordinator.Effect` keeps of a step what it does to the tasks, the
    counters and the phase, and `Counted` is the relation between them that every step keeps. -/

namespace DistLabs.MR

/-- What is fixed when a task is made. -/
def Task.label (t : Task) : TaskType × List String × ℤ := (t.taskType, t.inputFiles, t.taskID)

/-- The number of finished tasks. -/
def finished (tasks : List Task) : ℕ := tasks.countP fun t => decide (t.taskStat = .Finished)

theorem finished_eq_length {tasks : List Task} :
    finished tasks = tasks.length ↔ ∀ t ∈ tasks, t.taskStat = .Finished := by
  simp [finished, List.countP_eq_length]

theorem finished_map_of_ne {α : Type*} {f : α → Task} (h : ∀ a, (f a).taskStat ≠ .Finished)
    (l : List α) : finished (l.map f) = 0 := by
  simp [finished, List.countP_eq_zero, h]

/-- A write that neither finishes the task nor takes that back. -/
structure Task.Like (t t' : Task) : Prop where
  label : t'.label = t.label
  stat : t'.taskStat = .Finished ↔ t.taskStat = .Finished

theorem Task.like_checkTimeout (w : ℤ) (t : Task) : t.Like (t.checkTimeout w) := by
  unfold checkTimeout
  split
  · exact ⟨rfl, Iff.rfl⟩
  split
  · exact ⟨rfl, by simpa using by assumption⟩
  · exact ⟨rfl, Iff.rfl⟩

namespace Coordinator

/-- What a step does to the coordinator itself. -/
inductive Effect (c : Coordinator) : Coordinator → Prop
  | keep : Effect c c
  | map {i : ℕ} {f : Task → Task} (like : ∀ t, c.mapTask[i]? = some t → t.Like (f t)) :
      Effect c { c with mapTask := c.mapTask.modify i f }
  | reduce {i : ℕ} {f : Task → Task} (like : ∀ t, c.reduceTask[i]? = some t → t.Like (f t)) :
      Effect c { c with reduceTask := c.reduceTask.modify i f }
  | finishMap {i : ℕ} {t : Task} (task : c.mapTask[i]? = some t) (stat : t.taskStat = .Assigned) :
      Effect c ({ c with
        mapTask := c.mapTask.modify i ({ · with taskStat := .Finished }) }.count t.taskType)
  | finishReduce {i : ℕ} {t : Task} (task : c.reduceTask[i]? = some t)
      (stat : t.taskStat = .Assigned) :
      Effect c ({ c with
        reduceTask := c.reduceTask.modify i ({ · with taskStat := .Finished }) }.count t.taskType)
  | phase (glob : ℕ → List String) : Effect c (c.checkPhase glob)

end Coordinator

namespace Server

variable {s s' : Server} {e : Event} {r : TaskRef}

theorem free_spec {tasks : List Task} {i : ℕ} (h : free tasks = some i) :
    ∃ t, tasks[i]? = some t ∧ t.taskStat = .NotAssign := by
  obtain ⟨hi, hp, -⟩ := List.findIdx?_eq_some_iff_getElem.mp h
  exact ⟨tasks[i], List.getElem?_eq_getElem hi, of_decide_eq_true hp⟩

/-- `selectTask` finds a task of the phase it is called for, and it is free. -/
theorem pick_spec {phase : Phase} (h : s.pick phase = some r) :
    (∃ t, s.task r = some t ∧ t.taskStat = .NotAssign) ∧
      ((∃ i, r = .map i ∧ phase = .MapPhase) ∨ ∃ i, r = .reduce i ∧ phase = .ReducePhase) := by
  cases phase with
  | MapPhase =>
    obtain ⟨i, hi, rfl⟩ := Option.map_eq_some_iff.mp h
    exact ⟨free_spec hi, .inl ⟨i, rfl, rfl⟩⟩
  | ReducePhase =>
    obtain ⟨i, hi, rfl⟩ := Option.map_eq_some_iff.mp h
    exact ⟨free_spec hi, .inr ⟨i, rfl, rfl⟩⟩
  | AllDone => cases h

theorem effect_update {f : Task → Task} (h : ∀ t, s.task r = some t → t.Like (f t)) :
    s.c.Effect (s.update r f).c := by
  cases r with
  | map i => exact .map h
  | reduce i => exact .reduce h
  | wait i => exact .keep

theorem Moves.effect (h : s.Moves e s') : s.c.Effect s'.c := by
  cases h with
  | select call_k pc pick =>
    obtain ⟨t, ht, hfree⟩ := (pick_spec pick).1
    refine effect_update fun t' ht' => ?_
    obtain rfl : t = t' := by simpa [ht] using ht'
    exact ⟨rfl, by simp [hfree]⟩
  | assign call_k pc => exact effect_update fun t _ => ⟨rfl, Iff.rfl⟩
  | @finish args r t args_task task worker stat =>
    cases r with
    | map i => exact .finishMap task stat
    | reduce i => exact .finishReduce task stat
    | wait i =>
      unfold ReportTaskArgs.task at args_task
      split at args_task
      · split at args_task <;> cases args_task
      · cases args_task
  | timeout call_k pc => exact effect_update fun t _ => t.like_checkTimeout _
  | checkPhase glob phase => exact .phase glob
  | _ => exact .keep

end Server

/-! ### The counters -/

/-- The counters of a coordinator made for `files` and `nReduce`. -/
structure Counted (files : List String) (nReduce : ℕ) (c : Coordinator) : Prop where
  mapTask : c.mapTask.map Task.label =
    (List.range files.length).map fun i => (.MapTask, [files.getD i ""], (i : ℤ))
  nMap : c.nMap = finished c.mapTask
  before : c.phase = .MapPhase → c.nReduce = nReduce ∧ c.reduceTask = []
  after : c.phase ≠ .MapPhase → (∀ t ∈ c.mapTask, t.taskStat = .Finished) ∧
    c.nReduce = finished c.reduceTask ∧ ∃ glob : ℕ → List String, c.reduceTask.map Task.label =
      (List.range nReduce).map fun i => (.ReduceTask, glob i, (i : ℤ))
  done : c.phase = .AllDone → ∀ t ∈ c.reduceTask, t.taskStat = .Finished

namespace Counted

variable {files : List String} {nReduce : ℕ} {c c' : Coordinator}

theorem make : Counted files nReduce (.makeCoordinator files nReduce) where
  mapTask := by simp [Coordinator.makeCoordinator, Coordinator.makeMapTask, Task.label]
  nMap := (finished_map_of_ne (by rintro _ ⟨⟩) _).symm
  before := fun _ => ⟨rfl, rfl⟩
  after := fun h => absurd rfl h
  done := by rintro ⟨⟩

theorem map_type (h : Counted files nReduce c) {i : ℕ} {t : Task} (ht : c.mapTask[i]? = some t) :
    t.taskType = .MapTask := by
  have hmem : t.label ∈ c.mapTask.map Task.label :=
    List.mem_map_of_mem (List.mem_of_getElem? ht)
  rw [h.mapTask] at hmem
  obtain ⟨j, -, hj⟩ := List.mem_map.mp hmem
  exact (congrArg Prod.fst hj).symm

theorem reduce_after (h : Counted files nReduce c) {i : ℕ} {t : Task}
    (ht : c.reduceTask[i]? = some t) : c.phase ≠ .MapPhase ∧ t.taskType = .ReduceTask := by
  have hphase : c.phase ≠ .MapPhase := by
    intro hp
    rw [(h.before hp).2] at ht
    cases ht
  obtain ⟨-, -, glob, hlabels⟩ := h.after hphase
  have hmem : t.label ∈ c.reduceTask.map Task.label :=
    List.mem_map_of_mem (List.mem_of_getElem? ht)
  rw [hlabels] at hmem
  obtain ⟨j, -, hj⟩ := List.mem_map.mp hmem
  exact ⟨hphase, (congrArg Prod.fst hj).symm⟩

theorem map_label (h : Counted files nReduce c) {i : ℕ} {t : Task} (ht : c.mapTask[i]? = some t) :
    i < files.length ∧ t.taskType = .MapTask ∧ t.inputFiles = [files.getD i ""] ∧
      t.taskID = i := by
  have hget : (c.mapTask.map Task.label)[i]? = some t.label := by simp [ht]
  rw [h.mapTask, List.getElem?_map] at hget
  obtain ⟨j, hj, hlabel⟩ := Option.map_eq_some_iff.mp hget
  obtain ⟨hlt, rfl⟩ := List.getElem?_eq_some_iff.mp hj
  rw [List.getElem_range] at hlabel
  exact ⟨by simpa using hlt, congrArg Prod.fst hlabel.symm, congrArg (·.2.1) hlabel.symm,
    congrArg (·.2.2) hlabel.symm⟩

theorem reduce_label (h : Counted files nReduce c) {i : ℕ} {t : Task}
    (ht : c.reduceTask[i]? = some t) : i < nReduce ∧ t.taskID = i := by
  obtain ⟨-, -, glob, hlabels⟩ := h.after (h.reduce_after ht).1
  have hget : (c.reduceTask.map Task.label)[i]? = some t.label := by simp [ht]
  rw [hlabels, List.getElem?_map] at hget
  obtain ⟨j, hj, hlabel⟩ := Option.map_eq_some_iff.mp hget
  obtain ⟨hlt, rfl⟩ := List.getElem?_eq_some_iff.mp hj
  rw [List.getElem_range] at hlabel
  exact ⟨by simpa using hlt, congrArg (·.2.2) hlabel.symm⟩

theorem length_mapTask (h : Counted files nReduce c) : c.mapTask.length = files.length := by
  simpa using congrArg List.length h.mapTask

theorem length_reduceTask (h : Counted files nReduce c) (hp : c.phase ≠ .MapPhase) :
    c.reduceTask.length = nReduce := by
  obtain ⟨-, -, glob, hlabels⟩ := h.after hp
  simpa using congrArg List.length hlabels

theorem finished_modify_like {tasks : List Task} {i : ℕ} {f : Task → Task}
    (h : ∀ t, tasks[i]? = some t → t.Like (f t)) : finished (tasks.modify i f) = finished tasks :=
  Slice.countP_modify_of_eq fun t ht => by simp [(h t ht).stat]

theorem finished_modify_succ {tasks : List Task} {i : ℕ} {t : Task} (ht : tasks[i]? = some t)
    (hstat : t.taskStat = .Assigned) :
    finished (tasks.modify i ({ · with taskStat := .Finished })) = finished tasks + 1 :=
  Slice.countP_modify_succ ht (by simp [hstat]) (by simp)

theorem forall_modify {tasks : List Task} {i : ℕ} {f : Task → Task}
    (h : ∀ t, tasks[i]? = some t → t.Like (f t)) (hall : ∀ t ∈ tasks, t.taskStat = .Finished) :
    ∀ t ∈ tasks.modify i f, t.taskStat = .Finished := by
  rw [← finished_eq_length] at hall ⊢
  rw [finished_modify_like h, List.length_modify, hall]

theorem map_effect (h : Counted files nReduce c) {i : ℕ} {f : Task → Task}
    (like : ∀ t, c.mapTask[i]? = some t → t.Like (f t)) :
    Counted files nReduce { c with mapTask := c.mapTask.modify i f } where
  mapTask := (Slice.map_modify_of_eq fun t ht => (like t ht).label).trans h.mapTask
  nMap := h.nMap.trans (finished_modify_like like).symm
  before := h.before
  after := fun hp => ⟨forall_modify like (h.after hp).1, (h.after hp).2⟩
  done := h.done

theorem reduce_effect (h : Counted files nReduce c) {i : ℕ} {f : Task → Task}
    (like : ∀ t, c.reduceTask[i]? = some t → t.Like (f t)) :
    Counted files nReduce { c with reduceTask := c.reduceTask.modify i f } where
  mapTask := h.mapTask
  nMap := h.nMap
  before := fun hp => by simp [h.before hp]
  after := fun hp => by
    obtain ⟨hmap, hcount, glob, hlabels⟩ := h.after hp
    exact ⟨hmap, hcount.trans (finished_modify_like like).symm, glob,
      (Slice.map_modify_of_eq fun t ht => (like t ht).label).trans hlabels⟩
  done := fun hp => forall_modify like (h.done hp)

theorem labels_finish (tasks : List Task) (i : ℕ) :
    (tasks.modify i ({ · with taskStat := .Finished })).map Task.label = tasks.map Task.label :=
  Slice.map_modify_of_eq fun _ _ => rfl

/-- A map task can only be finished in the map phase. -/
theorem finishMap (h : Counted files nReduce c) {i : ℕ} {t : Task} (ht : c.mapTask[i]? = some t)
    (hstat : t.taskStat = .Assigned) : Counted files nReduce ({ c with
      mapTask := c.mapTask.modify i ({ · with taskStat := .Finished }) }.count t.taskType) := by
  have hphase : c.phase = .MapPhase := by
    by_contra hp
    have hfin := (h.after hp).1 t (List.mem_of_getElem? ht)
    rw [hstat] at hfin
    cases hfin
  rw [h.map_type ht, Coordinator.count]
  exact
    { mapTask := (labels_finish ..).trans h.mapTask
      nMap := by rw [finished_modify_succ ht hstat, h.nMap]
      before := h.before
      after := fun hp => absurd hphase hp
      done := fun hp => absurd (hphase.symm.trans hp) (by decide) }

theorem finishReduce (h : Counted files nReduce c) {i : ℕ} {t : Task}
    (ht : c.reduceTask[i]? = some t) (hstat : t.taskStat = .Assigned) :
    Counted files nReduce ({ c with
      reduceTask := c.reduceTask.modify i ({ · with taskStat := .Finished }) }.count
        t.taskType) := by
  obtain ⟨hphase, htype⟩ := h.reduce_after ht
  obtain ⟨hmap, hcount, glob, hlabels⟩ := h.after hphase
  rw [htype, Coordinator.count]
  exact
    { mapTask := h.mapTask
      nMap := h.nMap
      before := fun hp => absurd hp hphase
      after := fun _ => ⟨hmap, by rw [finished_modify_succ ht hstat, hcount], glob,
        (labels_finish ..).trans hlabels⟩
      done := fun hp => by
        have hfin := h.done hp t (List.mem_of_getElem? ht)
        rw [hstat] at hfin
        cases hfin }

/-- The counter says when all map tasks are finished, and `nReduce` is then still their number. -/
theorem checkPhase (h : Counted files nReduce c) (glob : ℕ → List String) :
    Counted files nReduce (c.checkPhase glob) := by
  unfold Coordinator.checkPhase
  split
  next hp =>
    split
    next hall =>
      obtain ⟨hn, hnil⟩ := h.before hp
      exact
        { mapTask := h.mapTask
          nMap := h.nMap
          before := by rintro ⟨⟩
          after := fun _ => by
            refine ⟨finished_eq_length.mp (h.nMap.symm.trans hall), ?_, glob, ?_⟩
            · simp [Coordinator.makeReduceTask, hnil, finished_map_of_ne]
            · simp [Coordinator.makeReduceTask, hnil, hn, Task.label]
          done := by rintro ⟨⟩ }
    next => exact h
  next hp =>
    have hne : c.phase ≠ .MapPhase := by rw [hp]; decide
    split
    next hall =>
      exact
        { mapTask := h.mapTask
          nMap := h.nMap
          before := by rintro ⟨⟩
          after := fun _ => h.after hne
          done := fun _ => finished_eq_length.mp ((h.after hne).2.1.symm.trans hall) }
    next => exact h
  next => exact h

theorem effect (h : Counted files nReduce c) (he : c.Effect c') : Counted files nReduce c' := by
  cases he with
  | keep => exact h
  | map like => exact h.map_effect like
  | reduce like => exact h.reduce_effect like
  | finishMap task stat => exact h.finishMap task stat
  | finishReduce task stat => exact h.finishReduce task stat
  | phase glob => exact h.checkPhase glob

end Counted

/-! ### What is finished stays finished -/

/-- Phases only advance, one at a time. -/
def Phase.Next (p q : Phase) : Prop :=
  q = p ∨ p = .MapPhase ∧ q = .ReducePhase ∨ p = .ReducePhase ∧ q = .AllDone

theorem Coordinator.Effect.phase_next {c c' : Coordinator} (h : c.Effect c') :
    c.phase.Next c'.phase := by
  cases h with
  | @finishMap i t task stat => cases ht : t.taskType <;> exact .inl rfl
  | @finishReduce i t task stat => cases ht : t.taskType <;> exact .inl rfl
  | phase glob =>
    unfold Coordinator.checkPhase
    split
    next hp =>
      split
      · exact .inr (.inl ⟨hp, rfl⟩)
      · exact .inl rfl
    next hp =>
      split
      · exact .inr (.inr ⟨hp, rfl⟩)
      · exact .inl rfl
    next => exact .inl rfl
  | _ => exact .inl rfl

/-- The task is the same, and finished if it was. -/
structure Task.Grows (t t' : Task) : Prop where
  label : t'.label = t.label
  finished : t.taskStat = .Finished → t'.taskStat = .Finished

namespace Server

variable {s s' t : Server} {e : Event} {r : TaskRef} {files : List String} {nReduce : ℕ}

/-- Every task of `s` is still there in `s'`. -/
def Keeps (s s' : Server) : Prop :=
  ∀ r task, s.task r = some task → ∃ task', s'.task r = some task' ∧ task.Grows task'

theorem keeps_update {f : Task → Task} (h : ∀ t, s.task r = some t → t.Grows (f t)) :
    s.Keeps (s.update r f) := by
  intro r' task htask
  rcases eq_or_ne r r' with rfl | hne
  · exact ⟨f task, by simp [htask], h task htask⟩
  · exact ⟨task, by rw [task_update_of_ne _ _ _ hne, htask], rfl, id⟩

theorem Keeps.refl (s : Server) : s.Keeps s := fun _ task htask => ⟨task, htask, rfl, id⟩

theorem Keeps.trans (h : s.Keeps s') (h' : s'.Keeps t) : s.Keeps t := by
  intro r task htask
  obtain ⟨task', htask', hgrows⟩ := h r task htask
  obtain ⟨task'', htask'', hgrows'⟩ := h' r task' htask'
  exact ⟨task'', htask'', hgrows'.label.trans hgrows.label, hgrows'.finished ∘ hgrows.finished⟩

theorem Keeps.of_task (h : s.Keeps s') (heq : ∀ r, t.task r = s'.task r) : s.Keeps t := by
  intro r task htask
  rw [heq]
  exact h r task htask

theorem task_count {c : TaskType} (r : TaskRef) :
    { s with c := s.c.count c }.task r = s.task r := by
  cases c <;> cases r <;> rfl

theorem task_checkPhase {task : Task} (htask : s.task r = some task) (glob : ℕ → List String) :
    { s with c := s.c.checkPhase glob }.task r = some task := by
  unfold Coordinator.checkPhase
  split
  next =>
    split
    next =>
      cases r with
      | map i => exact htask
      | reduce i =>
        exact (List.getElem?_append_left (List.getElem?_eq_some_iff.mp htask).1).trans htask
      | wait i => exact htask
    next => exact htask
  next => split <;> cases r <;> exact htask
  next => exact htask

theorem Moves.keeps (h : s.Moves e s') : s.Keeps s' := by
  cases h with
  | request w => exact (Keeps.refl s).of_task fun r => by cases r <;> rfl
  | reads call_k reads => exact (Keeps.refl s).of_task fun r => goto_task ..
  | @select k call phase r call_k pc pick =>
    obtain ⟨t, ht, hfree⟩ := (pick_spec pick).1
    have hgrows : s.Keeps (s.update r ({ · with taskStat := .Assigned })) := by
      refine keeps_update fun t' ht' => ⟨rfl, fun hfin => ?_⟩
      obtain rfl : t = t' := by simpa [ht] using ht'
      simp [hfree] at hfin
    exact hgrows.of_task fun r' => by rw [goto_task]; cases r' <;> rfl
  | wait call_k pc pick =>
    intro r task htask
    refine ⟨task, ?_, rfl, id⟩
    rw [goto_task]
    cases r with
    | map i => exact htask
    | reduce i => exact htask
    | wait i =>
      exact (List.getElem?_append_left (List.getElem?_eq_some_iff.mp htask).1).trans htask
  | @assign k call r call_k pc =>
    have hgrows : s.Keeps (s.update r ({ · with workerID := call.workerID })) :=
      keeps_update fun t _ => ⟨rfl, id⟩
    exact hgrows.of_task fun r => goto_task ..
  | fill call_k pc task => exact (Keeps.refl s).of_task fun r => goto_task ..
  | start call_k pc => exact (Keeps.refl s).of_task fun r => goto_task ..
  | @finish args r t args_task task worker stat =>
    have hgrows : s.Keeps (s.update r ({ · with taskStat := .Finished })) :=
      keeps_update fun t _ => ⟨rfl, fun _ => rfl⟩
    exact hgrows.of_task fun r => task_count r
  | late => exact .refl s
  | @timeout k call r replys call_k pc =>
    have hgrows : s.Keeps (s.update r (·.checkTimeout call.workerID)) := keeps_update fun t _ =>
      ⟨(t.like_checkTimeout _).label, (t.like_checkTimeout _).stat.mpr⟩
    exact hgrows.of_task fun r => goto_task ..
  | checkPhase glob phase =>
    exact fun r task htask => ⟨task, task_checkPhase htask glob, rfl, id⟩

theorem counted_run (h : Run step (fun _ _ => True) (make files nReduce) s) :
    Counted files nReduce s.c :=
  h.invariant (P := fun s => Counted files nReduce s.c) .make
    fun _ _ _ hc _ hstep => hc.effect (step_moves hstep).effect

/-- The counters and the phase of every reachable state of the coordinator, and what holds of every
    state `t` that is reached from it and of every next step. -/
theorem counters_and_phases (hs : Run step (fun _ _ => True) (make files nReduce) s)
    (ht : Run step (fun _ _ => True) s t) :
    s.c.nMap = finished s.c.mapTask ∧ s.c.mapTask.length = files.length ∧
    (s.c.phase ≠ .MapPhase → s.c.nReduce = finished s.c.reduceTask ∧
      s.c.reduceTask.length = nReduce ∧ ∀ task ∈ s.c.mapTask, task.taskStat = .Finished) ∧
    (s.c.phase = .AllDone → ∀ task ∈ s.c.reduceTask, task.taskStat = .Finished) ∧
    (∀ r task, s.task r = some task → task.taskStat = .Finished →
      ∃ task', t.task r = some task' ∧ task'.taskStat = .Finished) ∧
    ∀ e u, s.step e = .ok u → s.c.phase.Next u.c.phase := by
  have hc := counted_run hs
  have hkeeps : s.Keeps t := ht.relates Keeps.refl (fun _ _ _ => Keeps.trans)
    fun _ _ _ _ hstep => (step_moves hstep).keeps
  refine ⟨hc.nMap, hc.length_mapTask, fun hp => ?_, hc.done, fun r task htask hfin => ?_,
    fun e u hstep => (step_moves hstep).effect.phase_next⟩
  · obtain ⟨hmap, hcount, -⟩ := hc.after hp
    exact ⟨hcount, hc.length_reduceTask hp, hmap⟩
  · obtain ⟨task', htask', hgrows⟩ := hkeeps r task htask
    exact ⟨task', htask', hgrows.finished hfin⟩

/-- Worker 7 asks for the only map task and reports it. -/
def oneMap : List Event :=
  [.request 7, .run 0, .run 0, .run 0, .run 0, .run 0, .run 0, .report ⟨.MapTask, 0, 7⟩,
    .checkPhase fun _ => []]

theorem counters_and_phases_one_map : ∃ s, Run step (fun _ _ => True) (make ["pg.txt"] 2) s ∧
    s.c.phase = .ReducePhase ∧ s.c.nMap = finished s.c.mapTask ∧ s.c.reduceTask.length = 2 := by
  obtain ⟨s, hs, hphase⟩ := exists_run_of_play step (fun _ _ => True) (make ["pg.txt"] 2) oneMap
    (fun s => s.c.phase = .ReducePhase) (by decide +kernel)
  obtain ⟨hmap, -, hafter, -⟩ := counters_and_phases hs .refl
  exact ⟨s, hs, hphase, hmap, (hafter (by rw [hphase]; decide)).2.1⟩

end Server
end DistLabs.MR
