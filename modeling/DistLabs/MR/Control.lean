import DistLabs.MR.Job

/-! # Who works on what

    A worker makes one call at a time, so while a call of `RequestTask` is in progress on a task
    nobody can report that task, and it is not finished. The assignments of the map phase are
    therefore complete, reply included, before the phase is over, and every map task is told the
    same number of partitions. -/

namespace DistLabs.MR

def Pc.isReturned : Pc → Bool
  | .returned _ _ => true
  | _ => false

/-- The reply, once it has been filled in. -/
def Pc.replys : Pc → Option RequestTaskReplys
  | .timing _ replys => some replys
  | .returned replys _ => some replys
  | _ => none

namespace Server

variable {s s' : Server} {e : Event} {k : ℕ} {r : TaskRef} {t : Task} {call call' : Call} {pc : Pc}

theorem goto_calls_self (hk : s.calls[k]? = some call) :
    (s.goto k pc).calls[k]? = some { call with pc := pc } := by
  simp [goto, hk]

theorem goto_calls_of_ne {i : ℕ} (h : k ≠ i) : (s.goto k pc).calls[i]? = s.calls[i]? := by
  simp [goto, h]

/-- A call that `run` or a timer moves. -/
theorem goto_calls {i : ℕ} {c : Call} (hc : s'.calls = s.calls) (hk : s.calls[k]? = some call)
    (h : (s'.goto k pc).calls[i]? = some c) :
    (k = i ∧ c = { call with pc := pc }) ∨ k ≠ i ∧ s.calls[i]? = some c := by
  rcases eq_or_ne k i with rfl | hne
  · rw [goto_calls_self (hc ▸ hk)] at h
    exact .inl ⟨rfl, (Option.some.inj h).symm⟩
  · rw [goto_calls_of_ne hne, hc] at h
    exact .inr ⟨hne, h⟩

theorem request_calls {w : ℤ} {i : ℕ} (h : (s.calls ++ [Call.mk w .entered])[i]? = some call) :
    s.calls[i]? = some call ∨ i = s.calls.length ∧ call = ⟨w, .entered⟩ := by
  rcases lt_trichotomy i s.calls.length with hlt | rfl | hgt
  · exact .inl (List.getElem?_append_left hlt ▸ h)
  · exact .inr ⟨rfl, by simpa using h.symm⟩
  · rw [List.getElem?_eq_none (by simp; omega)] at h
    cases h

/-- What a step from `s` to `s'` does to a call. -/
inductive CallStep (s s' : Server) : Pc → Pc → Prop
  | keep {pc : Pc} : CallStep s s' pc pc
  | reads {pc pc' : Pc} (reads : s.c.Reads pc pc') : CallStep s s' pc pc'
  | select {phase : Phase} {r : TaskRef}
      (assigned : ∀ t, s'.task r = some t → t.taskStat = .Assigned) :
      CallStep s s' (.selecting phase) (.assigning r)
  | wait {phase : Phase} {n : ℕ} : CallStep s s' (.selecting phase) (.assigning (.wait n))
  | assign {r : TaskRef} : CallStep s s' (.assigning r) (.filling r)
  | fill {r : TaskRef} {t : Task} (task : s.task r = some t) : CallStep s s' (.filling r)
      (.timing r ⟨t.taskType, t.taskID, t.inputFiles, s.c.nReduce⟩)
  | start {r : TaskRef} {replys : RequestTaskReplys} :
      CallStep s s' (.timing r replys) (.returned replys (some r))
  | timeout {r : TaskRef} {replys : RequestTaskReplys} :
      CallStep s s' (.returned replys (some r)) (.returned replys none)

/-- Every call is a call of before, of the same worker, or new. -/
theorem Moves.calls (h : s.Moves e s') {i : ℕ} (hi : s'.calls[i]? = some call') :
    (∃ call, s.calls[i]? = some call ∧ call'.workerID = call.workerID ∧
      s.CallStep s' call.pc call'.pc) ∨
    ∃ w, e = .request w ∧ i = s.calls.length ∧ call' = ⟨w, .entered⟩ := by
  have hkeep : s.calls[i]? = some call' → ∃ call, s.calls[i]? = some call ∧
      call'.workerID = call.workerID ∧ s.CallStep s' call.pc call'.pc :=
    fun hi => ⟨call', hi, rfl, .keep⟩
  have hgoto : ∀ {s₁ : Server} {k : ℕ} {call : Call} {pc : Pc}, s₁.calls = s.calls →
      s.calls[k]? = some call → s.CallStep s' call.pc pc → (s₁.goto k pc).calls[i]? = some call' →
      ∃ call, s.calls[i]? = some call ∧ call'.workerID = call.workerID ∧
        s.CallStep s' call.pc call'.pc := by
    intro s₁ k call pc hc hk hpc hi
    rcases goto_calls hc hk hi with ⟨rfl, rfl⟩ | ⟨-, hi⟩
    · exact ⟨call, hk, rfl, hpc⟩
    · exact hkeep hi
  cases h with
  | request w =>
    rcases request_calls hi with hi | ⟨rfl, rfl⟩
    · exact .inl (hkeep hi)
    · exact .inr ⟨w, rfl, rfl, rfl⟩
  | reads call_k reads => exact .inl (hgoto rfl call_k (.reads reads) hi)
  | @select k call phase r call_k pc pick =>
    refine .inl (hgoto (update_calls ..) call_k (pc ▸ .select fun t ht => ?_) hi)
    have hupd : (s.update r ({ · with taskStat := .Assigned })).task r = some t := by
      rw [← ht, goto_task]
      cases r <;> rfl
    rw [task_update_self] at hupd
    obtain ⟨t, -, rfl⟩ := Option.map_eq_some_iff.mp hupd
    rfl
  | wait call_k pc pick => exact .inl (hgoto rfl call_k (pc ▸ .wait) hi)
  | assign call_k pc => exact .inl (hgoto (update_calls ..) call_k (pc ▸ .assign) hi)
  | fill call_k pc task => exact .inl (hgoto rfl call_k (pc ▸ .fill task) hi)
  | start call_k pc => exact .inl (hgoto rfl call_k (pc ▸ .start) hi)
  | finish args_task task worker stat => exact .inl (hkeep (by simpa using hi))
  | late => exact .inl (hkeep hi)
  | timeout call_k pc => exact .inl (hgoto (update_calls ..) call_k (pc ▸ .timeout) hi)
  | checkPhase glob phase => exact .inl (hkeep hi)

/-- A call does not go on after it has returned. -/
theorem CallStep.isReturned {pc' : Pc} (h : s.CallStep s' pc pc') (hret : pc.isReturned = true) :
    pc'.isReturned = true := by
  cases h with
  | keep => exact hret
  | reads reads => cases reads <;> cases hret
  | timeout => rfl
  | _ => cases hret

/-- A call at work on a task was so before, or has just selected it. -/
theorem Moves.inProgress (h : s.Moves e s') {i : ℕ} (hp : s'.InProgress i r) :
    s.InProgress i r ∨ (∃ n, r = .wait n) ∨
      ∀ t, s'.task r = some t → t.taskStat ≠ .Finished := by
  obtain ⟨call', hi, hpc⟩ := hp
  rcases h.calls hi with ⟨call, hk, -, hstep⟩ | ⟨w, -, -, rfl⟩
  · have hwork : call.pc.working = some r → s.InProgress i r := fun hw => ⟨call, hk, hw⟩
    generalize call.pc = q, call'.pc = q' at hstep hpc hwork
    cases hstep with
    | keep => exact .inl (hwork hpc)
    | reads reads => cases reads <;> cases hpc
    | select assigned =>
      cases hpc
      refine .inr (.inr fun t ht => ?_)
      rw [assigned t ht]
      rintro ⟨⟩
    | wait =>
      cases hpc
      exact .inr (.inl ⟨_, rfl⟩)
    | assign => exact .inl (hwork hpc)
    | fill task => exact .inl (hwork hpc)
    | start => cases hpc
    | timeout => cases hpc
  · cases hpc

/-- Where a reply comes from. -/
theorem Moves.replys (h : s.Moves e s') {i : ℕ} {replys : RequestTaskReplys}
    (hi : s'.calls[i]? = some call') (hr : call'.pc.replys = some replys) :
    (∃ call, s.calls[i]? = some call ∧ call.pc.replys = some replys) ∨
    replys.taskType = .ExitTask ∨
    ∃ r t, s.InProgress i r ∧ s.task r = some t ∧
      replys = ⟨t.taskType, t.taskID, t.inputFiles, s.c.nReduce⟩ := by
  rcases h.calls hi with ⟨call, hk, -, hstep⟩ | ⟨w, -, -, rfl⟩
  · have hold : call.pc.replys = some replys → ∃ call, s.calls[i]? = some call ∧
        call.pc.replys = some replys := fun hr => ⟨call, hk, hr⟩
    have hwork : ∀ r, call.pc.working = some r → s.InProgress i r := fun r hw => ⟨call, hk, hw⟩
    generalize call.pc = q, call'.pc = q' at hstep hr hold hwork
    cases hstep with
    | keep => exact .inl (hold hr)
    | reads reads =>
      cases reads <;> cases hr
      exact .inr (.inl rfl)
    | fill task =>
      cases hr
      exact .inr (.inr ⟨_, _, hwork _ rfl, task, rfl⟩)
    | start => exact .inl (hold hr)
    | timeout => exact .inl (hold hr)
    | _ => cases hr
  · cases hr

/-- Only a report finishes a task, and only the task it names. -/
theorem Moves.unfinished (h : s.Moves e s') (ht : s.task r = some t)
    (hstat : t.taskStat ≠ .Finished) (he : ∀ args, e = .report args → args.task ≠ some r)
    {t' : Task} (ht' : s'.task r = some t') : t'.taskStat ≠ .Finished := by
  have hsame : s'.task r = s.task r → t'.taskStat ≠ .Finished := by
    intro heq
    rw [heq, ht] at ht'
    exact Option.some.inj ht' ▸ hstat
  have hwrite : ∀ {r' : TaskRef} {f : Task → Task}, s'.task r = (s.update r' f).task r →
      (f t).taskStat ≠ .Finished → t'.taskStat ≠ .Finished := by
    intro r' f heq hf
    rcases eq_or_ne r' r with rfl | hne
    · rw [heq, task_update_self, ht] at ht'
      exact Option.some.inj ht' ▸ hf
    · exact hsame (heq.trans (task_update_of_ne _ _ _ hne))
  cases h with
  | request w => exact hsame (by cases r <;> rfl)
  | reads call_k reads => exact hsame (goto_task ..)
  | select call_k pc pick =>
    exact hwrite (f := ({ · with taskStat := .Assigned })) (by rw [goto_task]; cases r <;> rfl)
      (by rintro ⟨⟩)
  | wait call_k pc pick =>
    refine hsame ?_
    rw [goto_task]
    cases r with
    | map i => rfl
    | reduce i => rfl
    | wait i => exact List.getElem?_append_left (List.getElem?_eq_some_iff.mp ht).1
  | @assign k call r' call_k pc =>
    exact hwrite (f := ({ · with workerID := call.workerID })) (goto_task ..) hstat
  | fill call_k pc task => exact hsame (goto_task ..)
  | start call_k pc => exact hsame (goto_task ..)
  | @finish args r' t₀ args_task task worker stat =>
    have hne : r' ≠ r := fun heq => he args rfl (heq ▸ args_task)
    exact hsame ((task_count r).trans (task_update_of_ne _ _ _ hne))
  | late => exact hsame rfl
  | timeout call_k pc =>
    exact hwrite (goto_task ..) ((not_congr (t.like_checkTimeout _).stat).mpr hstat)
  | checkPhase glob phase =>
    exact hsame ((task_checkPhase ht glob).trans ht.symm)

theorem Moves.waits (h : s.Moves e s') (hw : ∀ t ∈ s.waits, t.taskType = .WaitTask) :
    ∀ t ∈ s'.waits, t.taskType = .WaitTask := by
  have hupdate : ∀ {r : TaskRef} {f : Task → Task}, (∀ t, (f t).taskType = t.taskType) →
      ∀ t ∈ (s.update r f).waits, t.taskType = .WaitTask := by
    intro r f hf t ht
    cases r with
    | map i => exact hw t ht
    | reduce i => exact hw t ht
    | wait i =>
      obtain ⟨n, hn⟩ := List.mem_iff_getElem?.mp ht
      rw [update, List.getElem?_modify] at hn
      obtain ⟨t₀, ht₀, rfl⟩ := Option.map_eq_some_iff.mp hn
      have := hw t₀ (List.mem_of_getElem? ht₀)
      split
      · exact (hf t₀).trans this
      · exact this
  cases h with
  | select call_k pc pick => exact hupdate fun _ => rfl
  | wait call_k pc pick =>
    intro t ht
    rcases List.mem_append.mp ht with ht | ht
    · exact hw t ht
    · rw [List.mem_singleton.mp ht, waitTask]
  | assign call_k pc => exact hupdate fun _ => rfl
  | finish args_task task worker stat => exact hupdate fun _ => rfl
  | timeout call_k pc =>
    exact hupdate fun t => congrArg Prod.fst (t.like_checkTimeout _).label
  | _ => exact hw

/-- Reduce tasks are made by `checkPhase` when all map tasks are finished. -/
theorem Moves.reduce_new {files : List String} {nReduce : ℕ} (h : s.Moves e s')
    (hc : Counted files nReduce s.c) {y : ℕ} (hnone : s.task (.reduce y) = none)
    (ht : s'.task (.reduce y) = some t) : ∃ glob, e = .checkPhase glob ∧ y < nReduce ∧
      t = ⟨.ReduceTask, .NotAssign, glob y, y, -1⟩ ∧ s.c.phase = .MapPhase ∧
      s.c.nMap = s.c.mapTask.length := by
  have hold : ∀ {r : TaskRef} {f : Task → Task}, (s.update r f).task (.reduce y) ≠ some t := by
    intro r f ht
    rw [task_update, hnone] at ht
    split at ht <;> cases ht
  have hkept : s.task (.reduce y) ≠ some t := by
    rw [hnone]
    rintro ⟨⟩
  cases h with
  | select call_k pc pick => exact absurd ht hold
  | assign call_k pc => exact absurd ht (by rw [goto_task]; exact hold)
  | finish args_task task worker stat => exact absurd ht (by rw [task_count]; exact hold)
  | timeout call_k pc => exact absurd ht (by rw [goto_task]; exact hold)
  | checkPhase glob phase =>
    refine ⟨glob, rfl, ?_⟩
    unfold Coordinator.checkPhase at ht
    split at ht
    next hp =>
      obtain ⟨hn, hnil⟩ := hc.before hp
      split at ht
      next hall =>
        have hget : ((List.range nReduce).map fun reduceId : ℕ =>
            (⟨.ReduceTask, .NotAssign, glob reduceId, reduceId, -1⟩ : Task))[y]? = some t := by
          simpa [task, Coordinator.makeReduceTask, hnil, hn] using ht
        obtain ⟨i, hi, rfl⟩ := Option.map_eq_some_iff.mp (List.getElem?_map .. ▸ hget)
        obtain ⟨hlt, rfl⟩ := List.getElem?_eq_some_iff.mp hi
        exact ⟨by simpa using hlt, by simp, hp, hall⟩
      next => exact absurd ht hkept
    next => split at ht <;> exact absurd ht hkept
    next => exact absurd ht hkept
  | _ => exact absurd ht hkept

/-- A call in progress has not returned, and has left its worker's id at the task or is about to. -/
theorem InProgress.owner (h : s.InProgress k r) : ∃ call, s.calls[k]? = some call ∧
    call.pc.isReturned = false ∧
      (s.lease k = some (r, -1) ∨ s.lease k = some (r, call.workerID)) := by
  obtain ⟨call, hk, hpc⟩ := h
  refine ⟨call, hk, ?_⟩
  rw [lease_eq hk, Call.lease]
  generalize call.pc = q at hpc
  cases q with
  | assigning r' =>
    cases hpc
    exact ⟨rfl, .inl rfl⟩
  | filling r' =>
    cases hpc
    exact ⟨rfl, .inr rfl⟩
  | timing r' replys =>
    cases hpc
    exact ⟨rfl, .inr rfl⟩
  | _ => cases hpc

/-- No task that a call is at work on is finished. -/
def Busy (s : Server) : Prop :=
  ∀ k r t, s.InProgress k r → (∀ i, r ≠ .wait i) → s.task r = some t → t.taskStat ≠ .Finished

/-- A worker has an id of its own, which is not -1, and reports a task before it requests another,
    so a report comes while no call of its worker is in progress. -/
def ReportsFirst (s : Server) : Event → Prop
  | .report args => args.workerID ≠ -1 ∧
      ∀ call ∈ s.calls, call.workerID = args.workerID → call.pc.isReturned = true
  | _ => True

instance (s : Server) : (e : Event) → Decidable (s.ReportsFirst e)
  | .report _ => inferInstanceAs (Decidable (_ ∧ _))
  | .request _ | .run _ | .timeout _ | .checkPhase _ => inferInstanceAs (Decidable True)

/-- Nobody is at work on a task whose worker has no call in progress. -/
theorem Leased.not_inProgress (h : s.Leased) (ht : s.task r = some t)
    (hstat : t.taskStat = .Assigned) (hid : t.workerID ≠ -1)
    (hret : ∀ call ∈ s.calls, call.workerID = t.workerID → call.pc.isReturned = true) :
    ¬ s.InProgress k r := by
  intro hp
  obtain ⟨call, hk, hnot, hlease⟩ := hp.owner
  have hunfinished : t.taskStat ≠ .Finished := by rw [hstat]; decide
  rcases hlease with hlease | hlease
  · exact hid (h.holder hlease ht hunfinished).2.1
  · have hmine := hret call (List.mem_of_getElem? hk) (h.holder hlease ht hunfinished).2.1.symm
    rw [hnot] at hmine
    cases hmine

theorem Moves.busy (h : s.Moves e s') (hl : s.Leased) (hb : s.Busy) (he : s.ReportsFirst e) :
    s'.Busy := by
  intro k r t hp hr ht
  rcases h.inProgress hp with hwork | ⟨n, rfl⟩ | hstat
  · have hreport : s' = s ∨ ∀ args, e = .report args → args.task ≠ some r := by
      cases h with
      | late => exact .inl rfl
      | finish args_task task worker stat =>
        refine .inr fun args heq htask => ?_
        cases heq
        cases args_task.symm.trans htask
        exact hl.not_inProgress task stat (worker ▸ he.1) (worker ▸ he.2) hwork
      | _ => exact .inr (by rintro _ ⟨⟩)
    obtain ⟨id, hlease⟩ := hwork.lease
    obtain ⟨t₀, ht₀⟩ := hl.valid k r id hlease
    rcases hreport with rfl | hother
    · exact hb k r t hwork hr ht
    · exact h.unfinished ht₀ (hb k r t₀ hwork hr ht₀) hother ht
  · exact absurd rfl (hr n)
  · exact hstat t ht

/-- While a call is at work on a map task the map phase is not over. -/
theorem Busy.mapPhase {files : List String} {nReduce x : ℕ} (h : s.Busy)
    (hc : Counted files nReduce s.c) (hp : s.InProgress k (.map x))
    (ht : s.task (.map x) = some t) : s.c.phase = .MapPhase := by
  by_contra hne
  exact h k _ t hp (by rintro _ ⟨⟩) ht ((hc.after hne).1 t (List.mem_of_getElem? ht))

/-! ### The number of partitions -/

/-- What a run with well-behaved reports keeps, with the partition count of every map reply. -/
structure Partitioned (files : List String) (nReduce : ℕ) (s : Server) : Prop where
  counted : Counted files nReduce s.c
  leased : s.Leased
  waits : ∀ t ∈ s.waits, t.taskType = .WaitTask
  busy : s.Busy
  replies : ∀ (k : ℕ) (call : Call) (replys : RequestTaskReplys), s.calls[k]? = some call →
    call.pc.replys = some replys → replys.taskType = .MapTask → replys.reduceNum = nReduce

namespace Partitioned

variable {files : List String} {nReduce : ℕ}

theorem make (files : List String) (nReduce : ℕ) :
    Partitioned files nReduce (make files nReduce) where
  counted := .make
  leased := leased_make ..
  waits := by rintro _ ⟨⟩
  busy := by rintro _ _ _ ⟨_, ⟨⟩, _⟩
  replies := by rintro _ _ _ ⟨⟩

/-- `c.nReduce` is read outside the lock, but before the map phase can end. -/
theorem nReduce_eq (h : Partitioned files nReduce s) (hp : s.InProgress k r)
    (ht : s.task r = some t) (htype : t.taskType = .MapTask) : s.c.nReduce = nReduce := by
  cases r with
  | map x => exact (h.counted.before (h.busy.mapPhase h.counted hp ht)).1
  | reduce y => cases htype.symm.trans (h.counted.reduce_after ht).2
  | wait i => cases htype.symm.trans (h.waits t (List.mem_of_getElem? ht))

theorem moves (h : Partitioned files nReduce s) (hm : s.Moves e s') (he : s.ReportsFirst e) :
    Partitioned files nReduce s' where
  counted := h.counted.effect hm.effect
  leased := hm.leased h.counted h.leased
  waits := hm.waits h.waits
  busy := hm.busy h.leased h.busy he
  replies := fun k call replys hk hr htype => by
    rcases hm.replys hk hr with ⟨call, hk, hr⟩ | hexit | ⟨r, t, hp, ht, rfl⟩
    · exact h.replies k call replys hk hr htype
    · cases htype.symm.trans hexit
    · exact h.nReduce_eq hp ht htype

end Partitioned

/-- Every reply with a map task carries the `nReduce` of `MakeCoordinator`. -/
theorem map_replies_partition {files : List String} {nReduce : ℕ}
    (h : Run step ReportsFirst (make files nReduce) s) :
    ∀ call ∈ s.calls, ∀ replys, call.pc.replys = some replys → replys.taskType = .MapTask →
      replys.reduceNum = nReduce := by
  have hinv : Partitioned files nReduce s :=
    h.invariant (.make files nReduce) fun _ _ _ hp he hstep => hp.moves (step_moves hstep) he
  intro call hcall replys hr htype
  obtain ⟨k, hk⟩ := List.mem_iff_getElem?.mp hcall
  exact hinv.replies k call replys hk hr htype

/-- Worker 7 is too slow, worker 8 gets its task and reports it after worker 7 has; the reduce phase
    begins and worker 8 gets a reduce task. -/
def lateReport : List Event :=
  [.request 7, .run 0, .run 0, .run 0, .run 0, .run 0, .run 0, .timeout 0,
    .request 8, .run 1, .run 1, .run 1, .run 1, .run 1, .report ⟨.MapTask, 0, 7⟩, .run 1,
    .report ⟨.MapTask, 0, 8⟩, .checkPhase fun _ => [],
    .request 8, .run 2, .run 2, .run 2, .run 2, .run 2, .run 2, .run 2]

theorem map_replies_partition_late_report : ∃ s, Run step ReportsFirst (make ["pg.txt"] 2) s ∧
    s.c.nReduce = 0 ∧ ∃ call ∈ s.calls, ∃ replys, call.pc.replys = some replys ∧
      replys.taskType = .MapTask ∧ replys.reduceNum = 2 := by
  obtain ⟨s, hs, hzero, hcall⟩ := exists_run_of_play step ReportsFirst (make ["pg.txt"] 2)
    lateReport (fun s => s.c.nReduce = 0 ∧ s.calls[1]? =
      some ⟨8, .returned ⟨.MapTask, 0, ["pg.txt"], 2⟩ (some (.map 0))⟩) (by decide +kernel)
  refine ⟨s, hs, hzero, _, List.mem_of_getElem? hcall, _, rfl, rfl, ?_⟩
  exact map_replies_partition hs _ (List.mem_of_getElem? hcall) _ rfl rfl

end Server

namespace Job

/-- The coordinator and its workers. -/
structure Control (S : Setting) (j : Job) : Prop where
  counted : Counted S.files S.nReduce j.server.c
  leased : j.server.Leased
  waits : ∀ t ∈ j.server.waits, t.taskType = .WaitTask
  callers : ∀ k call, j.server.calls[k]? = some call → ∃ w : ℕ, call.workerID = (w : ℤ) ∧
    (call.pc.isReturned = true ∨ j.workers w = .requesting k)
  busy : ∀ k r t, j.server.InProgress k r → (∀ i, r ≠ .wait i) → j.server.task r = some t →
    t.taskStat ≠ .Finished

variable {S : Setting} {j j' : Job} {s : Server} {e : Event} {w : ℕ} {pc : WorkerPc}

theorem control_init (S : Setting) (out : Dir) : (init S out).Control S where
  counted := .make
  leased := Server.leased_make ..
  waits := by rintro _ ⟨⟩
  callers := by rintro _ _ ⟨⟩
  busy := by rintro _ _ _ ⟨_, ⟨⟩, _⟩

/-- A step of the coordinator keeps the tasks that calls are at work on unfinished. -/
theorem Control.moves (h : j.Control S) (hm : j.server.Moves e s)
    (he : j.server.ReportsFirst e) {workers : ℕ → WorkerPc}
    (hcallers : ∀ k call, s.calls[k]? = some call → ∃ w : ℕ,
      call.workerID = (w : ℤ) ∧ (call.pc.isReturned = true ∨ workers w = .requesting k)) :
    ({ j with server := s, workers := workers } : Job).Control S where
  counted := h.counted.effect hm.effect
  leased := hm.leased h.counted h.leased
  waits := hm.waits h.waits
  callers := hcallers
  busy := hm.busy h.leased h.busy he

/-- A step of the coordinator on its own. -/
theorem Control.serve (h : j.Control S) (hm : j.server.Moves e s)
    (hreport : ∀ args, e ≠ .report args) (hreq : ∀ id, e ≠ .request id) :
    ({ j with server := s } : Job).Control S := by
  have hfirst : j.server.ReportsFirst e := by
    cases e with
    | report args => exact absurd rfl (hreport args)
    | _ => trivial
  refine h.moves hm hfirst fun k call hk => ?_
  rcases hm.calls hk with ⟨call₀, hk₀, hid, hstep⟩ | ⟨id, rfl, -⟩
  · obtain ⟨w, hw, hpc⟩ := h.callers k call₀ hk₀
    exact ⟨w, hid.trans hw, hpc.imp_left hstep.isReturned⟩
  · exact absurd rfl (hreq id)

theorem Control.request (h : j.Control S) (hidle : j.workers w = .idle)
    (hm : j.server.Moves (.request w) s) :
    ({ j.goto w (.requesting j.server.calls.length) with server := s } : Job).Control S := by
  refine h.moves hm trivial fun k call hk => ?_
  rcases hm.calls hk with ⟨call₀, hk₀, hid, hstep⟩ | ⟨id, heq, rfl, rfl⟩
  · obtain ⟨w', hw, hpc⟩ := h.callers k call₀ hk₀
    refine ⟨w', hid.trans hw, hpc.imp hstep.isReturned fun hreq => ?_⟩
    have hne : w' ≠ w := by
      rintro rfl
      cases hidle.symm.trans hreq
    exact (Function.update_of_ne hne _ _).trans hreq
  · cases heq
    exact ⟨w, rfl, .inr (Function.update_self ..)⟩

/-- A worker that is not waiting for its call goes on, whatever happens to the files. -/
theorem Control.goto (h : j.Control S) (hpc : ∀ k, j.workers w = .requesting k →
    ∃ call, j.server.calls[k]? = some call ∧ call.pc.isReturned = true) (tmp out : Dir) :
    ({ j with tmp := tmp, out := out }.goto w pc).Control S where
  counted := h.counted
  leased := h.leased
  waits := h.waits
  callers := fun k call hk => by
    obtain ⟨w', hw, hret | hreq⟩ := h.callers k call hk
    · exact ⟨w', hw, .inl hret⟩
    refine ⟨w', hw, ?_⟩
    rcases eq_or_ne w' w with rfl | hne
    · obtain ⟨call', hk', hret⟩ := hpc k hreq
      cases hk.symm.trans hk'
      exact .inl hret
    · exact .inr ((Function.update_of_ne hne _ _).trans hreq)
  busy := h.busy

/-- The workers of a job report before they request another task. -/
theorem Control.reportsFirst (h : j.Control S) {replys : RequestTaskReplys}
    (hpc : j.workers w = .reporting replys) :
    j.server.ReportsFirst (.report ⟨replys.taskType, replys.taskID, w⟩) := by
  refine ⟨by dsimp only; omega, fun call hcall hid => ?_⟩
  obtain ⟨k, hk⟩ := List.mem_iff_getElem?.mp hcall
  obtain ⟨w', hw', hret | hreq⟩ := h.callers k call hk
  · exact hret
  · obtain rfl : w' = w := Int.ofNat_inj.mp (hw'.symm.trans hid)
    cases hpc.symm.trans hreq

theorem Control.report (h : j.Control S) {replys : RequestTaskReplys}
    (hpc : j.workers w = .reporting replys)
    (hm : j.server.Moves (.report ⟨replys.taskType, replys.taskID, w⟩) s) :
    ({ j.goto w .idle with server := s } : Job).Control S := by
  have hgoto : (j.goto w .idle).Control S := by
    refine h.goto (fun k hreq => ?_) j.tmp j.out
    cases hpc.symm.trans hreq
  refine hgoto.moves hm (h.reportsFirst hpc) fun k call hk => ?_
  rcases hm.calls hk with ⟨call₀, hk₀, hid, hstep⟩ | ⟨id, heq, -⟩
  · obtain ⟨w', hw, hcall⟩ := hgoto.callers k call₀ hk₀
    exact ⟨w', hid.trans hw, hcall.imp_left hstep.isReturned⟩
  · cases heq

theorem renameTmp_eq (j : Job) (name newName : String) :
    ∃ tmp, j.renameTmp name newName = { j with tmp := tmp } := by
  unfold renameTmp
  split <;> exact ⟨_, rfl⟩

theorem renameOut_eq (j : Job) (name newName : String) :
    ∃ tmp out, j.renameOut name newName = { j with tmp := tmp, out := out } := by
  unfold renameOut
  split <;> exact ⟨_, _, rfl⟩

theorem Moves.control {e : JobEvent} (hm : j.Moves S e j') (h : j.Control S) : j'.Control S := by
  have hgoto : ∀ {w : ℕ} {pc pc' : WorkerPc} (tmp out : Dir), j.workers w = pc →
      (∀ k, pc ≠ .requesting k) → ({ j with tmp := tmp, out := out }.goto w pc').Control S := by
    intro w pc pc' tmp out hw hpc
    exact h.goto (fun k hreq => absurd (hw.symm.trans hreq) (hpc k)) tmp out
  cases hm with
  | run moves => exact h.serve moves (by rintro _ ⟨⟩) (by rintro _ ⟨⟩)
  | timeout moves => exact h.serve moves (by rintro _ ⟨⟩) (by rintro _ ⟨⟩)
  | glob scans => exact ⟨h.counted, h.leased, h.waits, h.callers, h.busy⟩
  | checkPhase scanned moves => exact h.serve moves (by rintro _ ⟨⟩) (by rintro _ ⟨⟩)
  | request pc moves => exact h.request pc moves
  | receive pc call =>
    refine h.goto (fun k hreq => ?_) j.tmp j.out
    cases pc.symm.trans hreq
    exact ⟨_, call, rfl⟩
  | renameTmp pc name_i =>
    obtain ⟨tmp, heq⟩ := renameTmp_eq j _ _
    rw [heq]
    exact hgoto tmp j.out pc (by rintro _ ⟨⟩)
  | renameOut pc =>
    obtain ⟨tmp, out, heq⟩ := renameOut_eq j _ _
    rw [heq]
    exact hgoto tmp out pc (by rintro _ ⟨⟩)
  | report pc moves => exact h.report pc moves
  | _ => exact hgoto _ j.out (by assumption) (by rintro _ ⟨⟩)

end Job
end DistLabs.MR
