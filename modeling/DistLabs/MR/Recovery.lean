import DistLabs.MR.Control

/-! # The job can always be finished

    Whatever has happened, and even if all workers but one have died, the job is not stuck: when the
    calls that are under way have returned and their timers have gone off, every task that is not
    finished is free again, and one worker can do them all. -/

namespace DistLabs.MR

/-- The steps a call has left, its timer included. -/
def Pc.rank : Pc → ℕ
  | .entered => 8
  | .notMap => 7
  | .branch => 6
  | .selecting _ => 5
  | .assigning _ => 4
  | .filling _ => 3
  | .timing _ _ => 2
  | .returned _ (some _) => 1
  | .returned _ none => 0

namespace Coordinator

/-- The tasks of the phase. -/
def phaseTasks (c : Coordinator) : List Task :=
  match c.phase with
  | .MapPhase => c.mapTask
  | .ReducePhase => c.reduceTask
  | .AllDone => []

/-- The number of tasks of the phase that are not finished. -/
def unfinished (c : Coordinator) : ℕ := c.phaseTasks.length - finished c.phaseTasks

end Coordinator

namespace Server

variable {s s' : Server} {e : Event} {k : ℕ} {r : TaskRef} {t : Task} {call : Call} {pc : Pc}
  {w : ℤ} {files : List String} {nReduce : ℕ}

/-- No worker but `w` makes requests or reports, and `w` reports only what a reply has told it to
    do. -/
def OnlyBy (w : ℤ) (s : Server) : Event → Prop
  | .request w' => w' = w
  | .report args => args.workerID = w ∧ ∃ call ∈ s.calls, call.workerID = w ∧
      ∃ replys timer, call.pc = .returned replys timer ∧
        replys.taskType = args.taskType ∧ replys.taskID = args.taskId
  | _ => True

/-! ### Steps that finish nothing -/

/-- The phase and the finished tasks are as before. -/
structure Quiet (s s' : Server) : Prop where
  phase : s'.c.phase = s.c.phase
  unfinished : s'.c.unfinished = s.c.unfinished

theorem Quiet.refl (s : Server) : s.Quiet s := ⟨rfl, rfl⟩

theorem Quiet.trans {u : Server} (h : s.Quiet s') (h' : s'.Quiet u) : s.Quiet u :=
  ⟨h'.phase.trans h.phase, h'.unfinished.trans h.unfinished⟩

theorem quiet_update {f : Task → Task} (h : ∀ t, s.task r = some t → t.Like (f t)) :
    s.Quiet (s.update r f) := by
  cases r with
  | map i =>
    refine ⟨rfl, ?_⟩
    cases hphase : s.c.phase <;>
      simp [update, Coordinator.unfinished, Coordinator.phaseTasks, hphase,
        Counted.finished_modify_like h]
  | reduce i =>
    refine ⟨rfl, ?_⟩
    cases hphase : s.c.phase <;>
      simp [update, Coordinator.unfinished, Coordinator.phaseTasks, hphase,
        Counted.finished_modify_like h]
  | wait i => exact ⟨rfl, rfl⟩

theorem Quiet.goto (h : s.Quiet s') : s.Quiet (s'.goto k pc) := ⟨h.phase, h.unfinished⟩

/-- The steps a call takes by itself finish nothing. -/
theorem Moves.quiet (h : s.Moves e s') (he : e = .run k ∨ e = .timeout k) : s.Quiet s' := by
  cases h with
  | reads => exact ⟨rfl, rfl⟩
  | @select _ _ _ r call_k pc pick =>
    obtain ⟨t, ht, hfree⟩ := (pick_spec pick).1
    have hquiet : s.Quiet (s.update r ({ · with taskStat := .Assigned })) := by
      refine quiet_update fun t' ht' => ?_
      obtain rfl : t = t' := by simpa [ht] using ht'
      exact ⟨rfl, by simp [hfree]⟩
    exact ⟨hquiet.phase, hquiet.unfinished⟩
  | wait => exact ⟨rfl, rfl⟩
  | assign =>
    refine (quiet_update ?_).goto
    exact fun t _ => ⟨rfl, Iff.rfl⟩
  | fill => exact ⟨rfl, rfl⟩
  | start => exact ⟨rfl, rfl⟩
  | timeout => exact (quiet_update fun t _ => t.like_checkTimeout _).goto
  | request | finish | late | checkPhase => rcases he with he | he <;> cases he

/-! ### The calls under way return -/

/-- The steps all calls have left. -/
def remaining (s : Server) : ℕ := (s.calls.map fun call => call.pc.rank).sum

theorem remaining_goto (hc : s'.calls = s.calls) (hk : s.calls[k]? = some call)
    (hlt : pc.rank < call.pc.rank) : (s'.goto k pc).remaining < s.remaining := by
  rw [remaining, goto, hc]
  exact Slice.sum_map_modify_lt hk hlt

theorem Moves.remaining_lt (h : s.Moves e s') (he : e = .run k ∨ e = .timeout k) :
    s'.remaining < s.remaining := by
  cases h with
  | reads call_k reads =>
    refine remaining_goto rfl call_k ?_
    generalize Call.pc _ = q at reads
    cases reads <;> simp [Pc.rank]
  | select call_k pc pick => exact remaining_goto (by simp) call_k (by simp [pc, Pc.rank])
  | wait call_k pc pick => exact remaining_goto rfl call_k (by simp [pc, Pc.rank])
  | assign call_k pc => exact remaining_goto (by simp) call_k (by simp [pc, Pc.rank])
  | fill call_k pc task => exact remaining_goto rfl call_k (by simp [pc, Pc.rank])
  | start call_k pc => exact remaining_goto rfl call_k (by simp [pc, Pc.rank])
  | timeout call_k pc => exact remaining_goto (by simp) call_k (by simp [pc, Pc.rank])
  | request | finish | late | checkPhase => rcases he with he | he <;> cases he

/-- A call that has steps left can take one. -/
theorem exists_step (hl : s.Leased) (hk : s.calls[k]? = some call) (hrank : 0 < call.pc.rank) :
    ∃ e s', (e = .run k ∨ e = .timeout k) ∧ s.step e = .ok s' := by
  have hrun : ∀ {s'}, s.runCall k call = .ok s' →
      ∃ e s', (e = .run k ∨ e = .timeout k) ∧ s.step e = .ok s' := fun {s'} h =>
    ⟨.run k, s', .inl rfl, by rw [step, hk]; exact h⟩
  obtain ⟨w, pc⟩ := call
  cases pc with
  | filling r =>
    obtain ⟨t, ht⟩ := hl.valid k r w (by rw [lease_eq hk]; rfl)
    exact hrun (by simp only [runCall, ht]; rfl)
  | returned replys timer =>
    cases timer with
    | none => exact absurd hrank (by simp [Pc.rank])
    | some r => exact ⟨.timeout k, _, .inr rfl, by rw [step, hk]; rfl⟩
  | _ => exact hrun rfl

/-- All calls have returned and no timer is pending. -/
def Drained (s : Server) : Prop := ∀ call ∈ s.calls, call.pc.rank = 0

theorem exists_drained (h : Run step (fun _ _ => True) (make files nReduce) s) (w : ℤ) :
    ∃ s', Run step (OnlyBy w) s s' ∧ s.Quiet s' ∧ s'.Drained := by
  -- induction on the steps that are left
  induction hn : s.remaining using Nat.strong_induction_on generalizing s with
  | _ n ih =>
    by_cases hdrained : s.Drained
    · exact ⟨s, .refl, .refl s, hdrained⟩
    · simp only [Drained, not_forall] at hdrained
      obtain ⟨call, hmem, hrank⟩ := hdrained
      obtain ⟨k, hk⟩ := List.mem_iff_getElem?.mp hmem
      obtain ⟨e, s₁, he, hs⟩ := exists_step (leased_run h) hk (by omega)
      have hmoves := step_moves hs
      obtain ⟨s', hrun, hquiet, hdrained⟩ :=
        ih _ (hn ▸ hmoves.remaining_lt he) (h.tail trivial hs) rfl
      refine ⟨s', Run.trans (.tail .refl ?_ hs) hrun, (hmoves.quiet he).trans hquiet, hdrained⟩
      rcases he with rfl | rfl <;> trivial

/-- A call that has nothing left holds no task. -/
theorem Drained.lease (h : s.Drained) (k : ℕ) : s.lease k = none := by
  rw [Server.lease]
  cases hk : s.calls[k]? with
  | none => rfl
  | some call =>
    have hrank := h call (List.mem_of_getElem? hk)
    obtain ⟨w, pc⟩ := call
    cases pc with
    | returned replys timer =>
      cases timer with
      | none => rfl
      | some r => cases hrank
    | _ => cases hrank

/-- A task that is not finished is free. -/
theorem Drained.free (h : s.Drained) (hl : s.Leased) (ht : s.task r = some t)
    (hstat : t.taskStat ≠ .Finished) : t.taskStat = .NotAssign := by
  cases hst : t.taskStat with
  | NotAssign => rfl
  | Assigned =>
    obtain ⟨k, hk, -⟩ := (hl.tenancy r t ht).held hst
    rw [h.lease k] at hk
    cases hk
  | Finished => exact absurd hst hstat

theorem exists_free (tasks : List Task) (h : finished tasks < tasks.length)
    (hfree : ∀ t ∈ tasks, t.taskStat ≠ .Finished → t.taskStat = .NotAssign) :
    ∃ i, free tasks = some i := by
  have hnot : ¬ ∀ t ∈ tasks, t.taskStat = .Finished := fun hall =>
    h.ne (finished_eq_length.mpr hall)
  simp only [not_forall] at hnot
  obtain ⟨t, hmem, hstat⟩ := hnot
  exact Option.isSome_iff_exists.mp (List.findIdx?_isSome ▸ List.any_eq_true.mpr
    ⟨t, hmem, decide_eq_true (hfree t hmem hstat)⟩)

/-- `selectTask` finds a task if the phase is not over. -/
theorem Drained.exists_pick (h : s.Drained) (hl : s.Leased) (hunf : 0 < s.c.unfinished) :
    ∃ r, s.pick s.c.phase = some r := by
  unfold Coordinator.unfinished Coordinator.phaseTasks at hunf
  unfold pick
  cases hphase : s.c.phase with
  | MapPhase =>
    simp only [hphase] at hunf ⊢
    obtain ⟨i, hi⟩ := exists_free s.c.mapTask (by omega) fun t ht hstat => by
      obtain ⟨i, hi⟩ := List.mem_iff_getElem?.mp ht
      exact h.free hl (r := .map i) hi hstat
    exact ⟨.map i, by rw [hi]; rfl⟩
  | ReducePhase =>
    simp only [hphase] at hunf ⊢
    obtain ⟨i, hi⟩ := exists_free s.c.reduceTask (by omega) fun t ht hstat => by
      obtain ⟨i, hi⟩ := List.mem_iff_getElem?.mp ht
      exact h.free hl (r := .reduce i) hi hstat
    exact ⟨.reduce i, by rw [hi]; rfl⟩
  | AllDone => simp [hphase] at hunf

/-! ### One worker does a task -/

theorem run_runCall (hk : s.calls[k]? = some call) (h : s.runCall k call = .ok s') :
    Run step (OnlyBy w) s s' :=
  .tail .refl (e := .run k) trivial (by rw [step, hk]; exact h)

/-- A call comes to `selectTask`. -/
theorem exists_selecting (hk : s.calls[k]? = some ⟨w, .entered⟩) (hphase : s.c.phase ≠ .AllDone) :
    ∃ s' : Server, Run step (OnlyBy w) s s' ∧ s'.c = s.c ∧
      s'.calls[k]? = some ⟨w, .selecting s.c.phase⟩ := by
  -- both branches of `RequestTask` read the phase again for the argument
  have hbranch : ∀ u : Server, u.c = s.c → u.calls[k]? = some ⟨w, .branch⟩ →
      Run step (OnlyBy w) s u → ∃ s' : Server, Run step (OnlyBy w) s s' ∧
        s'.c = s.c ∧ s'.calls[k]? = some ⟨w, .selecting s.c.phase⟩ := by
    intro u hu hku hrun
    refine ⟨u.goto k (.selecting u.c.phase), hrun.trans (run_runCall hku rfl), hu, ?_⟩
    rw [goto_calls_self hku, hu]
  cases hp : s.c.phase with
  | MapPhase =>
    rw [← hp]
    refine hbranch (s.goto k .branch) rfl (goto_calls_self hk) (run_runCall hk ?_)
    simp only [runCall, if_pos hp]
  | ReducePhase =>
    rw [← hp]
    have hk₁ : (s.goto k .notMap).calls[k]? = some ⟨w, .notMap⟩ := goto_calls_self hk
    have hrun₁ : s.runCall k ⟨w, .entered⟩ = .ok (s.goto k .notMap) := by
      simp only [runCall, hp, reduceCtorEq, if_false]
    have hrun₂ : (s.goto k .notMap).runCall k ⟨w, .notMap⟩ =
        .ok ((s.goto k .notMap).goto k .branch) := by
      simp only [runCall, goto, hp, if_true]
    exact hbranch ((s.goto k .notMap).goto k .branch) rfl (goto_calls_self hk₁)
      ((run_runCall hk hrun₁).trans (run_runCall hk₁ hrun₂))
  | AllDone => exact absurd hp hphase

theorem quiet_runCall (hk : s.calls[k]? = some call) (h : s.runCall k call = .ok s') :
    Run step (OnlyBy w) s s' ∧ s.Quiet s' :=
  ⟨run_runCall hk h, (runCall_moves hk h).quiet (.inl rfl)⟩

/-- The call goes on until it returns, with the task that `selectTask` has found. -/
theorem exists_assigned {phase : Phase} (hk : s.calls[k]? = some ⟨w, .selecting phase⟩)
    (hpick : s.pick phase = some r) :
    ∃ (s' : Server) (t : Task) (replys : RequestTaskReplys), Run step (OnlyBy w) s s' ∧
      s.Quiet s' ∧ s'.task r = some t ∧ t.taskStat = .Assigned ∧ t.workerID = w ∧
      s'.calls[k]? = some ⟨w, .returned replys (some r)⟩ ∧
      replys.taskType = t.taskType ∧ replys.taskID = t.taskID := by
  obtain ⟨t, ht, -⟩ := (pick_spec hpick).1
  -- after `selectTask`
  obtain ⟨s₁, hs₁⟩ : ∃ s₁, s.runCall k ⟨w, .selecting phase⟩ = .ok s₁ := ⟨_, rfl⟩
  obtain ⟨hrun₁, hquiet₁⟩ := quiet_runCall (w := w) hk hs₁
  simp only [runCall, selectTask, hpick, Except.ok.injEq] at hs₁
  have hk₁ : s₁.calls[k]? = some ⟨w, .assigning r⟩ := by simp [← hs₁, goto, hk]
  have ht₁ : s₁.task r = some { t with taskStat := .Assigned } := by
    rw [← hs₁, goto_task]
    exact (s.task_update_self r _).trans (by rw [ht]; rfl)
  -- after the write of `WorkerID`
  obtain ⟨s₂, hs₂⟩ : ∃ s₂, s₁.runCall k ⟨w, .assigning r⟩ = .ok s₂ := ⟨_, rfl⟩
  obtain ⟨hrun₂, hquiet₂⟩ := quiet_runCall (w := w) hk₁ hs₂
  simp only [runCall, Except.ok.injEq] at hs₂
  have hk₂ : s₂.calls[k]? = some ⟨w, .filling r⟩ := by simp [← hs₂, goto, hk₁]
  have ht₂ : s₂.task r = some { t with taskStat := .Assigned, workerID := w } := by
    rw [← hs₂, goto_task, task_update_self, ht₁]
    rfl
  -- with the reply, and after the start of the timer
  obtain ⟨replys, hreplys⟩ : ∃ replys : RequestTaskReplys,
      replys = ⟨t.taskType, t.taskID, t.inputFiles, s₂.c.nReduce⟩ := ⟨_, rfl⟩
  have hs₃ : s₂.runCall k ⟨w, .filling r⟩ = .ok (s₂.goto k (.timing r replys)) := by
    simp only [runCall, ht₂, hreplys]
  have hk₃ : (s₂.goto k (.timing r replys)).calls[k]? = some ⟨w, .timing r replys⟩ :=
    goto_calls_self hk₂
  have hs₄ : (s₂.goto k (.timing r replys)).runCall k ⟨w, .timing r replys⟩ =
      .ok ((s₂.goto k (.timing r replys)).goto k (.returned replys (some r))) := rfl
  obtain ⟨hrun₃, hquiet₃⟩ := quiet_runCall (w := w) hk₂ hs₃
  obtain ⟨hrun₄, hquiet₄⟩ := quiet_runCall (w := w) hk₃ hs₄
  refine ⟨_, { t with taskStat := .Assigned, workerID := w }, replys,
    ((hrun₁.trans hrun₂).trans hrun₃).trans hrun₄,
    ((hquiet₁.trans hquiet₂).trans hquiet₃).trans hquiet₄, ?_, rfl, rfl,
    goto_calls_self hk₃, by rw [hreplys], by rw [hreplys]⟩
  rw [goto_task, goto_task, ht₂]

theorem unfinished_modify_lt {tasks : List Task} {i : ℕ} (ht : tasks[i]? = some t)
    (hstat : t.taskStat = .Assigned) :
    tasks.length - finished (tasks.modify i ({ · with taskStat := .Finished })) <
      tasks.length - finished tasks := by
  have hsucc := Counted.finished_modify_succ ht hstat
  have hle : finished (tasks.modify i ({ · with taskStat := .Finished })) ≤ tasks.length :=
    List.countP_le_length.trans_eq (List.length_modify ..)
  omega

/-- A report of the task by the worker that has it. -/
theorem exists_reported (hc : Counted files nReduce s.c) {replys : RequestTaskReplys}
    (hk : s.calls[k]? = some ⟨w, .returned replys (some r)⟩) (ht : s.task r = some t)
    (hstat : t.taskStat = .Assigned) (hw : t.workerID = w) (htype : replys.taskType = t.taskType)
    (hid : replys.taskID = t.taskID) (hr : (∃ i, r = .map i ∧ s.c.phase = .MapPhase) ∨
      ∃ i, r = .reduce i ∧ s.c.phase = .ReducePhase) :
    ∃ s', Run step (OnlyBy w) s s' ∧ s'.c.phase = s.c.phase ∧
      s'.c.unfinished < s.c.unfinished := by
  have hby : s.OnlyBy w (.report ⟨t.taskType, t.taskID, w⟩) :=
    ⟨rfl, _, List.mem_of_getElem? hk, rfl, replys, some r, rfl, htype, hid⟩
  rcases hr with ⟨i, rfl, hphase⟩ | ⟨i, rfl, hphase⟩
  · obtain ⟨-, htype, -, hid⟩ := hc.map_label ht
    refine ⟨{ s with c := { s.c with
      mapTask := s.c.mapTask.modify i ({ · with taskStat := .Finished }),
      nMap := s.c.nMap + 1 } }, .tail .refl hby ?_, rfl, ?_⟩
    · simp [step, reportTask, ReportTaskArgs.task, htype, hid, ht, hstat, hw, update,
        Coordinator.count]
    · simpa [Coordinator.unfinished, Coordinator.phaseTasks, hphase] using
        unfinished_modify_lt ht hstat
  · have htype := (hc.reduce_after ht).2
    have hid := (hc.reduce_label ht).2
    refine ⟨{ s with c := { s.c with
      reduceTask := s.c.reduceTask.modify i ({ · with taskStat := .Finished }),
      nReduce := s.c.nReduce + 1 } }, .tail .refl hby ?_, rfl, ?_⟩
    · simp [step, reportTask, ReportTaskArgs.task, htype, hid, ht, hstat, hw, update,
        Coordinator.count]
    · simpa [Coordinator.unfinished, Coordinator.phaseTasks, hphase] using
        unfinished_modify_lt ht hstat

/-- The worker gets a task and does it. -/
theorem exists_progress (h : Run step (fun _ _ => True) (make files nReduce) s)
    (hdrained : s.Drained) (hunf : 0 < s.c.unfinished) :
    ∃ s', Run step (OnlyBy w) s s' ∧ s'.c.phase = s.c.phase ∧
      s'.c.unfinished < s.c.unfinished := by
  obtain ⟨r, hpick⟩ := hdrained.exists_pick (leased_run h) hunf
  have hr := (pick_spec hpick).2
  have hreq : Run step (OnlyBy w) s { s with calls := s.calls ++ [⟨w, .entered⟩] } :=
    .tail .refl (e := .request w) rfl rfl
  obtain ⟨s₁, hrun₁, hc₁, hk₁⟩ := exists_selecting
    (s := { s with calls := s.calls ++ [⟨w, .entered⟩] }) (k := s.calls.length) (w := w)
    (by simp) (by rcases hr with ⟨_, -, hp⟩ | ⟨_, -, hp⟩ <;> simp [hp])
  obtain ⟨s₂, t, replys, hrun₂, hquiet, ht, hstat, hw, hk₂, htype, hid⟩ :=
    exists_assigned hk₁ (r := r) (by unfold pick; rw [hc₁]; exact hpick)
  have hrun : Run step (OnlyBy w) s s₂ := (hreq.trans hrun₁).trans hrun₂
  have hphase₂ : s₂.c.phase = s.c.phase := hquiet.phase.trans (by rw [hc₁])
  have hunf₂ : s₂.c.unfinished = s.c.unfinished := hquiet.unfinished.trans (by rw [hc₁])
  obtain ⟨s₃, hrun₃, hphase₃, hlt⟩ :=
    exists_reported (counted_run (h.trans (hrun.mono fun _ _ _ => trivial))) hk₂ ht hstat hw htype
      hid (by rw [hphase₂]; exact hr)
  exact ⟨s₃, hrun.trans hrun₃, hphase₃.trans hphase₂, hunf₂ ▸ hlt⟩

/-! ### The phases -/

/-- The worker does all tasks of the phase. -/
theorem exists_finished (h : Run step (fun _ _ => True) (make files nReduce) s) (w : ℤ) :
    ∃ s', Run step (OnlyBy w) s s' ∧ s'.c.phase = s.c.phase ∧ s'.c.unfinished = 0 := by
  -- induction on the tasks that are left
  induction hn : s.c.unfinished using Nat.strong_induction_on generalizing s with
  | _ n ih =>
    rcases Nat.eq_zero_or_pos n with rfl | hpos
    · exact ⟨s, .refl, rfl, hn⟩
    · obtain ⟨s₁, hrun₁, hquiet, hdrained⟩ := exists_drained h w
      have h₁ := h.trans (hrun₁.mono fun _ _ _ => trivial)
      have hunf : s₁.c.unfinished = n := hquiet.unfinished.trans hn
      obtain ⟨s₂, hrun₂, hphase₂, hlt⟩ := exists_progress (w := w) h₁ hdrained (by omega)
      have h₂ := h₁.trans (hrun₂.mono fun _ _ _ => trivial)
      obtain ⟨s₃, hrun₃, hphase₃, hzero⟩ := ih _ (by omega) h₂ rfl
      exact ⟨s₃, (hrun₁.trans hrun₂).trans hrun₃,
        hphase₃.trans (hphase₂.trans hquiet.phase), hzero⟩

/-- `checkPhase` ends the phase. -/
theorem exists_next (h : Run step (fun _ _ => True) (make files nReduce) s)
    (hphase : s.c.phase ≠ .AllDone) (w : ℤ) (glob : ℕ → List String) :
    ∃ s', Run step (OnlyBy w) s s' ∧
      (s.c.phase = .MapPhase → s'.c.phase = .ReducePhase) ∧
      (s.c.phase = .ReducePhase → s'.c.phase = .AllDone) := by
  obtain ⟨s₁, hrun, hphase₁, hzero⟩ := exists_finished h w
  have hc := counted_run (h.trans (hrun.mono fun _ _ _ => trivial))
  refine ⟨{ s₁ with c := s₁.c.checkPhase glob },
    hrun.tail (e := .checkPhase glob) trivial (by simp [step, hphase₁, hphase]), fun hp => ?_,
    fun hp => ?_⟩
  · have hall : s₁.c.nMap = s₁.c.mapTask.length := by
      have hle : finished s₁.c.mapTask ≤ s₁.c.mapTask.length := List.countP_le_length
      simp only [Coordinator.unfinished, Coordinator.phaseTasks, hphase₁, hp] at hzero
      rw [hc.nMap]
      omega
    simp [Coordinator.checkPhase, hphase₁, hp, hall, Coordinator.makeReduceTask]
  · have hall : s₁.c.nReduce = s₁.c.reduceTask.length := by
      have hle : finished s₁.c.reduceTask ≤ s₁.c.reduceTask.length := List.countP_le_length
      simp only [Coordinator.unfinished, Coordinator.phaseTasks, hphase₁, hp] at hzero
      rw [(hc.after (by simp [hphase₁, hp])).2.1]
      omega
    simp [Coordinator.checkPhase, hphase₁, hp, hall]

/-- From every reachable state, whatever other workers have left behind, a single worker that only
    reports what it has been told to do can bring the job to its end. -/
theorem job_recoverable (h : Run step (fun _ _ => True) (make files nReduce) s) (w : ℤ)
    (glob : ℕ → List String) : ∃ s', Run step (OnlyBy w) s s' ∧ s'.c.done = true := by
  have hreduce : ∀ {s : Server}, Run step (fun _ _ => True) (make files nReduce) s →
      s.c.phase ≠ .MapPhase → ∃ s', Run step (OnlyBy w) s s' ∧ s'.c.done = true := by
    intro s h hp
    cases hphase : s.c.phase with
    | MapPhase => exact absurd hphase hp
    | ReducePhase =>
      obtain ⟨s', hrun, -, hdone⟩ := exists_next h (by simp [hphase]) w glob
      exact ⟨s', hrun, decide_eq_true (hdone hphase)⟩
    | AllDone => exact ⟨s, .refl, decide_eq_true hphase⟩
  by_cases hp : s.c.phase = .MapPhase
  · obtain ⟨s₁, hrun₁, hnext, -⟩ := exists_next h (by simp [hp]) w glob
    obtain ⟨s', hrun, hdone⟩ := hreduce (h.trans (hrun₁.mono fun _ _ _ => trivial))
      (by simp [hnext hp])
    exact ⟨s', hrun₁.trans hrun, hdone⟩
  · exact hreduce h hp

/-- Worker 7 gets a map task and is not heard of again. -/
def lostWorker : List Event := [.request 7, .run 0, .run 0, .run 0, .run 0, .run 0, .run 0]

theorem job_recoverable_lost_worker :
    ∃ s, Run step (fun _ _ => True) (make ["pg.txt", "sherlock.txt"] 2) s ∧
      s.task (.map 0) = some ⟨.MapTask, .Assigned, ["pg.txt"], 0, 7⟩ ∧
      ∃ s', Run step (OnlyBy 8) s s' ∧ s'.c.done = true := by
  obtain ⟨s, hs, htask⟩ := exists_run_of_play step (fun _ _ => True)
    (make ["pg.txt", "sherlock.txt"] 2) lostWorker
    (fun s => s.task (.map 0) = some ⟨.MapTask, .Assigned, ["pg.txt"], 0, 7⟩) (by decide +kernel)
  exact ⟨s, hs, htask, job_recoverable hs 8 fun _ => []⟩

end Server
end DistLabs.MR
