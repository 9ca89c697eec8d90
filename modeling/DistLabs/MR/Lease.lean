import DistLabs.MR.Counting

/-! # Assignments and timers

    A call of `RequestTask` holds the task it has selected until its `checkTimeout` goroutine has
    looked at it. At most one call holds a task that is not finished, although timers are never
    cancelled and compare worker ids only. -/

namespace DistLabs.MR

/-- The task a call holds, and the `WorkerID` it has left there. -/
def Call.lease (call : Call) : Option (TaskRef × ℤ) :=
  match call.pc with
  | .assigning r => some (r, -1)
  | .filling r => some (r, call.workerID)
  | .timing r _ => some (r, call.workerID)
  | .returned _ timer => timer.map (·, call.workerID)
  | _ => none

/-- The task that a call which has not returned is at work on. -/
def Pc.working : Pc → Option TaskRef
  | .assigning r => some r
  | .filling r => some r
  | .timing r _ => some r
  | _ => none

/-- The task whose `checkTimeout` goroutine is still to wake up. -/
def Pc.pending : Pc → Option TaskRef
  | .returned _ timer => timer
  | _ => none

namespace Server

def lease (s : Server) (k : ℕ) : Option (TaskRef × ℤ) := s.calls[k]?.bind Call.lease

/-- The call that the task was last selected for. -/
def lastCall (s : Server) (r : TaskRef) : Option ℕ :=
  (s.selected.find? fun p => decide (p.1 = r)).map Prod.snd

/-- Call `k` is in progress on the task. -/
def InProgress (s : Server) (k : ℕ) (r : TaskRef) : Prop :=
  ∃ call, s.calls[k]? = some call ∧ call.pc.working = some r

/-- The timer that call `k` has started on the task, for worker `w`, is pending. -/
def Pending (s : Server) (k : ℕ) (r : TaskRef) (w : ℤ) : Prop :=
  ∃ call, s.calls[k]? = some call ∧ call.pc.pending = some r ∧ call.workerID = w

/-- The calls that hold the task agree with its status. -/
structure Tenancy (s : Server) (r : TaskRef) (t : Task) : Prop where
  free : t.taskStat = .NotAssign → t.workerID = -1 ∧ ∀ k w, s.lease k ≠ some (r, w)
  held : t.taskStat = .Assigned → ∃ k, s.lease k = some (r, t.workerID) ∧
    (∀ j w, s.lease j = some (r, w) → j = k) ∧ s.lastCall r = some k

structure Leased (s : Server) : Prop where
  tenancy : ∀ r t, s.task r = some t → s.Tenancy r t
  waits : ∀ i t, s.task (.wait i) = some t → t.taskStat = .Finished
  valid : ∀ k r w, s.lease k = some (r, w) → ∃ t, s.task r = some t

variable {s s' : Server} {e : Event} {k : ℕ} {call : Call} {pc : Pc} {r r' : TaskRef} {t : Task}

/-! ### What a step does to the leases -/

theorem lease_eq (hk : s.calls[k]? = some call) : s.lease k = call.lease := by
  rw [lease, hk]
  rfl

theorem lease_goto (hc : s'.calls = s.calls) (hk : s.calls[k]? = some call) (pc : Pc) (j : ℕ) :
    (s'.goto k pc).lease j
      = if k = j then ({ call with pc := pc } : Call).lease else s.lease j := by
  rw [lease, goto, hc, List.getElem?_modify]
  split
  next heq =>
    subst heq
    rw [hk]
    rfl
  next => simp [lease]

/-- A step of a call that leaves it with the lease it had. -/
theorem lease_goto_same (hk : s.calls[k]? = some call)
    (hpc : ({ call with pc := pc } : Call).lease = call.lease) (j : ℕ) :
    (s.goto k pc).lease j = s.lease j := by
  rw [lease_goto rfl hk]
  split
  next heq =>
    subst heq
    rw [hpc, lease_eq hk]
  next => rfl

theorem lease_request (w : ℤ) (j : ℕ) :
    { s with calls := s.calls ++ [Call.mk w .entered] }.lease j = s.lease j := by
  unfold lease
  rcases lt_trichotomy j s.calls.length with hlt | rfl | hgt
  · simp [List.getElem?_append_left hlt]
  · simp [Call.lease]
  · simp [List.getElem?_append_right hgt.le, show j - s.calls.length ≠ 0 by omega,
      List.getElem?_eq_none hgt.le]

theorem Tenancy.frame (h : s.Tenancy r t)
    (hlease : ∀ k w, s'.lease k = some (r, w) ↔ s.lease k = some (r, w))
    (hlast : s'.lastCall r = s.lastCall r) : s'.Tenancy r t where
  free := fun hstat => by
    obtain ⟨hid, hno⟩ := h.free hstat
    exact ⟨hid, fun k w hk => hno k w ((hlease k w).mp hk)⟩
  held := fun hstat => by
    obtain ⟨k, hk, huniq, hsel⟩ := h.held hstat
    exact ⟨k, (hlease k _).mpr hk, fun j w hj => huniq j w ((hlease j w).mp hj), hlast.trans hsel⟩

theorem Tenancy.of_finished (h : t.taskStat = .Finished) : s.Tenancy r t where
  free := fun hstat => by cases h.symm.trans hstat
  held := fun hstat => by cases h.symm.trans hstat

theorem Leased.frame (h : s.Leased) (htask : ∀ r, s'.task r = s.task r)
    (hlease : ∀ k, s'.lease k = s.lease k) (hsel : s'.selected = s.selected) : s'.Leased where
  tenancy := fun r t ht => (h.tenancy r t (htask r ▸ ht)).frame
    (fun k w => by rw [hlease]) (by rw [lastCall, hsel, lastCall])
  waits := fun i t ht => h.waits i t (htask _ ▸ ht)
  valid := fun k r w hk => by
    rw [htask]
    exact h.valid k r w (hlease k ▸ hk)

theorem lastCall_cons (hsel : s'.selected = (r, k) :: s.selected) :
    s'.lastCall r = some k ∧ ∀ r', r ≠ r' → s'.lastCall r' = s.lastCall r' := by
  constructor
  · simp [lastCall, hsel]
  · intro r' hne
    simp [lastCall, hsel, hne]

/-! ### The steps -/

theorem Leased.reads (h : s.Leased) (hk : s.calls[k]? = some call) (hreads : s.c.Reads call.pc pc) :
    (s.goto k pc).Leased := by
  refine h.frame (fun r => goto_task ..) (lease_goto_same hk ?_) rfl
  unfold Call.lease
  generalize call.pc = q at hreads
  cases hreads <;> rfl

/-- A step of call `k` that writes the task `r`, which it holds before it, after it, or both. -/
theorem Leased.write (h : s.Leased) {f : Task → Task} (new : Option ℤ)
    (htask : ∀ r', s'.task r' = (s.update r f).task r')
    (hlease : ∀ j, s'.lease j = if k = j then new.map (r, ·) else s.lease j)
    (hold : ∀ r' w, s.lease k = some (r', w) → r' = r)
    (hlast : ∀ r', r ≠ r' → s'.lastCall r' = s.lastCall r')
    (hfin : ∀ t, s.task r = some t → t.taskStat = .Finished → (f t).taskStat = .Finished)
    (hown : ∃ t, s.task r = some t ∧ s'.Tenancy r (f t)) : s'.Leased := by
  obtain ⟨t₀, ht₀, hten⟩ := hown
  have hother : ∀ r', r ≠ r' → ∀ j w, s'.lease j = some (r', w) ↔ s.lease j = some (r', w) := by
    intro r' hne j w
    rw [hlease]
    split
    next heq =>
      subst heq
      refine ⟨fun hj => ?_, fun hj => absurd (hold r' w hj).symm hne⟩
      obtain ⟨w', -, hw⟩ := Option.map_eq_some_iff.mp hj
      exact absurd (congrArg Prod.fst hw) hne
    next => rfl
  have hsplit : ∀ r' t, s'.task r' = some t → r = r' ∧ t = f t₀ ∨ r ≠ r' ∧ s.task r' = some t := by
    intro r' t ht
    rw [htask] at ht
    rcases eq_or_ne r r' with rfl | hne
    · rw [task_update_self, ht₀] at ht
      exact .inl ⟨rfl, (Option.some.inj ht).symm⟩
    · rw [task_update_of_ne _ _ _ hne] at ht
      exact .inr ⟨hne, ht⟩
  refine ⟨fun r' t ht => ?_, fun i t ht => ?_, fun j r' w hj => ?_⟩
  · rcases hsplit r' t ht with ⟨rfl, rfl⟩ | ⟨hne, ht⟩
    · exact hten
    · exact (h.tenancy r' t ht).frame (hother r' hne) (hlast r' hne)
  · rcases hsplit _ t ht with ⟨rfl, rfl⟩ | ⟨-, ht⟩
    · exact hfin t₀ ht₀ (h.waits i t₀ ht₀)
    · exact h.waits i t ht
  · rw [htask]
    rcases eq_or_ne r r' with rfl | hne
    · exact ⟨f t₀, by rw [task_update_self, ht₀]; rfl⟩
    · rw [task_update_of_ne _ _ _ hne]
      exact h.valid j r' w ((hother r' hne j w).mp hj)

theorem Leased.select (h : s.Leased) (hk : s.calls[k]? = some call) {phase : Phase}
    (hpc : call.pc = .selecting phase) (hpick : s.pick phase = some r)
    (htask : ∀ r', s'.task r' = (s.update r ({ · with taskStat := .Assigned })).task r')
    (hlease : ∀ j, s'.lease j = if k = j then some (r, -1) else s.lease j)
    (hsel : s'.selected = (r, k) :: s.selected) : s'.Leased := by
  obtain ⟨t, ht, hfree⟩ := (pick_spec hpick).1
  obtain ⟨hid, hno⟩ := (h.tenancy r t ht).free hfree
  obtain ⟨hlast, hlast'⟩ := lastCall_cons hsel
  refine h.write (some (-1)) htask hlease ?_ hlast' ?_
    ⟨t, ht, by rintro ⟨⟩, fun _ => ⟨k, ?_, fun j w hj => ?_, hlast⟩⟩
  · rw [lease_eq hk, Call.lease, hpc]
    rintro _ _ ⟨⟩
  · intro t' ht' hfin
    obtain rfl : t = t' := by simpa [ht] using ht'
    simp [hfree] at hfin
  · simp [hlease, hid]
  · by_contra hne
    rw [hlease, if_neg (Ne.symm hne)] at hj
    exact hno j w hj

/-- A call that holds a task which is not finished is the one it was last selected for. -/
theorem Leased.holder (h : s.Leased) {w : ℤ} (hk : s.lease k = some (r, w)) (ht : s.task r = some t)
    (hstat : t.taskStat ≠ .Finished) : t.taskStat = .Assigned ∧ t.workerID = w ∧
      (∀ j w', s.lease j = some (r, w') → j = k) ∧ s.lastCall r = some k := by
  cases hs : t.taskStat with
  | NotAssign => exact absurd hk (((h.tenancy r t ht).free hs).2 k w)
  | Assigned =>
    obtain ⟨k', hk', huniq, hlast⟩ := (h.tenancy r t ht).held hs
    obtain rfl := huniq k w hk
    have heq : (r, t.workerID) = (r, w) := Option.some.inj (hk'.symm.trans hk)
    exact ⟨rfl, congrArg Prod.snd heq, huniq, hlast⟩
  | Finished => exact absurd hs hstat

theorem Leased.assign (h : s.Leased) (hk : s.calls[k]? = some call) (hpc : call.pc = .assigning r)
    (htask : ∀ r', s'.task r' = (s.update r ({ · with workerID := call.workerID })).task r')
    (hlease : ∀ j, s'.lease j = if k = j then some (r, call.workerID) else s.lease j)
    (hsel : s'.selected = s.selected) : s'.Leased := by
  have hold : s.lease k = some (r, -1) := by rw [lease_eq hk, Call.lease, hpc]
  obtain ⟨t, ht⟩ := h.valid k r _ hold
  have hlast : ∀ r', s'.lastCall r' = s.lastCall r' := fun r' => by rw [lastCall, hsel, lastCall]
  refine h.write (some call.workerID) htask hlease ?_ (fun r' _ => hlast r') (fun _ _ => id)
    ⟨t, ht, fun hstat => ?_, fun hstat => ?_⟩
  · rw [hold]
    rintro _ _ ⟨⟩
    rfl
  · have hnot : t.taskStat ≠ .Finished := by rintro hfin; cases hfin.symm.trans hstat
    cases (h.holder hold ht hnot).1.symm.trans hstat
  · have hnot : t.taskStat ≠ .Finished := by rintro hfin; cases hfin.symm.trans hstat
    obtain ⟨-, -, huniq, hcall⟩ := h.holder hold ht hnot
    refine ⟨k, by simp [hlease], fun j w hj => ?_, (hlast r).trans hcall⟩
    by_contra hne
    rw [hlease, if_neg (Ne.symm hne)] at hj
    exact hne (huniq j w hj)

/-- A timer that wakes up takes back the assignment it was started for. -/
theorem Leased.timeout (h : s.Leased) (hk : s.calls[k]? = some call) {replys : RequestTaskReplys}
    (hpc : call.pc = .returned replys (some r))
    (htask : ∀ r', s'.task r' = (s.update r (·.checkTimeout call.workerID)).task r')
    (hlease : ∀ j, s'.lease j = if k = j then none else s.lease j)
    (hsel : s'.selected = s.selected) : s'.Leased := by
  have hold : s.lease k = some (r, call.workerID) := by
    rw [lease_eq hk, Call.lease, hpc]
    rfl
  obtain ⟨t, ht⟩ := h.valid k r _ hold
  have hlast : ∀ r', s'.lastCall r' = s.lastCall r' := fun r' => by rw [lastCall, hsel, lastCall]
  refine h.write none htask hlease ?_ (fun r' _ => hlast r')
    (fun t _ => (t.like_checkTimeout _).stat.mpr) ⟨t, ht, ?_⟩
  · rw [hold]
    rintro _ _ ⟨⟩
    rfl
  by_cases hfin : t.taskStat = .Finished
  · exact .of_finished ((t.like_checkTimeout call.workerID).stat.mpr hfin)
  · obtain ⟨hstat, hid, huniq, -⟩ := h.holder hold ht hfin
    rw [Task.checkTimeout, if_neg hfin, if_pos (.inl ⟨hid, hstat⟩)]
    refine ⟨fun _ => ⟨rfl, fun j w hj => ?_⟩, by rintro ⟨⟩⟩
    rw [hlease] at hj
    split at hj
    · cases hj
    next hne => exact hne (huniq j w hj).symm

theorem Leased.finish (h : s.Leased)
    (htask : ∀ r', s'.task r' = (s.update r ({ · with taskStat := .Finished })).task r')
    (hlease : ∀ j, s'.lease j = s.lease j) (hsel : s'.selected = s.selected) : s'.Leased := by
  have hsplit : ∀ r' t, s'.task r' = some t → t.taskStat = .Finished ∨ s.task r' = some t := by
    intro r' t ht
    rw [htask, task_update] at ht
    split at ht
    · obtain ⟨t, -, rfl⟩ := Option.map_eq_some_iff.mp ht
      exact .inl rfl
    · exact .inr ht
  refine ⟨fun r' t ht => ?_, fun i t ht => ?_, fun j r' w hj => ?_⟩
  · rcases hsplit r' t ht with hfin | ht
    · exact .of_finished hfin
    · exact (h.tenancy r' t ht).frame (fun j w => by rw [hlease])
        (by rw [lastCall, hsel, lastCall])
  · rcases hsplit _ t ht with hfin | ht
    · exact hfin
    · exact h.waits i t ht
  · rw [hlease] at hj
    obtain ⟨t, ht⟩ := h.valid j r' w hj
    rw [htask, task_update, ht]
    split <;> exact ⟨_, rfl⟩

/-- New tasks are finished or free, and no call holds them. -/
theorem Leased.add (h : s.Leased) (hkeeps : ∀ r t, s.task r = some t → s'.task r = some t)
    (hnew : ∀ r t, s'.task r = some t → s.task r = none →
      t.taskStat = .Finished ∨ t.taskStat = .NotAssign ∧ t.workerID = -1 ∧ ∀ i, r ≠ .wait i)
    (hlease : ∀ j, s'.lease j = s.lease j) (hsel : s'.selected = s.selected) : s'.Leased := by
  have hold : ∀ r t, s'.task r = some t → s.task r = some t ∨ s.task r = none := by
    intro r t ht
    cases hr : s.task r with
    | none => exact .inr rfl
    | some t' => exact .inl ((hkeeps r t' hr).symm.trans ht)
  refine ⟨fun r t ht => ?_, fun i t ht => ?_, fun j r w hj => ?_⟩
  · rcases hold r t ht with hr | hr
    · exact (h.tenancy r t hr).frame (fun j w => by rw [hlease]) (by rw [lastCall, hsel, lastCall])
    · rcases hnew r t ht hr with hfin | ⟨hfree, hid, -⟩
      · exact .of_finished hfin
      refine ⟨fun _ => ⟨hid, fun j w hj => ?_⟩, fun hstat => by cases hfree.symm.trans hstat⟩
      rw [hlease] at hj
      obtain ⟨t', ht'⟩ := h.valid j r w hj
      cases hr.symm.trans ht'
  · rcases hold _ t ht with hr | hr
    · exact h.waits i t hr
    · rcases hnew _ t ht hr with hfin | ⟨-, -, hne⟩
      · exact hfin
      · exact absurd rfl (hne i)
  · rw [hlease] at hj
    obtain ⟨t, ht⟩ := h.valid j r w hj
    exact ⟨t, hkeeps r t ht⟩

/-- A call told to wait holds a task of its own. -/
theorem Leased.wait (h : s.Leased) (hk : s.calls[k]? = some call) {phase : Phase}
    (hpc : call.pc = .selecting phase) :
    ({ s with waits := s.waits ++ [waitTask] }.goto k
      (.assigning (.wait s.waits.length))).Leased := by
  have hnew : ({ s with waits := s.waits ++ [waitTask] } : Server).Leased := by
    refine h.add (fun r t ht => ?_) (fun r t ht hnone => ?_) (fun _ => rfl) rfl
    · cases r with
      | map i => exact ht
      | reduce i => exact ht
      | wait i => exact (List.getElem?_append_left (List.getElem?_eq_some_iff.mp ht).1).trans ht
    · cases r with
      | map i => cases hnone.symm.trans ht
      | reduce i => cases hnone.symm.trans ht
      | wait i =>
        have hmem := List.mem_of_getElem? ((List.getElem?_append_right
          (List.getElem?_eq_none_iff.mp hnone)).symm.trans ht)
        exact .inl (by rw [List.mem_singleton.mp hmem, waitTask])
  refine hnew.write (f := id) (some (-1)) (fun r' => ?_) (lease_goto rfl hk _) ?_
    (fun _ _ => rfl) (fun _ _ => id) ⟨waitTask, by simp [task], .of_finished rfl⟩
  · rw [goto_task, task_update]
    split <;> simp
  · rw [lease_eq (show ({ s with waits := s.waits ++ [waitTask] } : Server).calls[k]? = _ from hk),
      Call.lease, hpc]
    rintro _ _ ⟨⟩

theorem Leased.checkPhase (h : s.Leased) {files : List String} {nReduce : ℕ}
    (hc : Counted files nReduce s.c) (glob : ℕ → List String) :
    { s with c := s.c.checkPhase glob }.Leased := by
  unfold Coordinator.checkPhase
  split
  next hp =>
    split
    next =>
      have hnil := (hc.before hp).2
      refine h.add (fun r t ht => ?_) (fun r t ht hnone => ?_) (fun _ => rfl) rfl
      · cases r with
        | map i => exact ht
        | reduce i => simp [task, hnil] at ht
        | wait i => exact ht
      · cases r with
        | map i => cases hnone.symm.trans ht
        | reduce i =>
          obtain ⟨y, -, rfl⟩ : ∃ y, y ∈ List.range s.c.nReduce ∧
              (⟨.ReduceTask, .NotAssign, glob y, y, -1⟩ : Task) = t := by
            have hmem := List.mem_of_getElem? ht
            simpa [Coordinator.makeReduceTask, hnil] using hmem
          exact .inr ⟨rfl, rfl, by rintro _ ⟨⟩⟩
        | wait i => cases hnone.symm.trans ht
    next => exact h
  next => split <;> exact h.frame (fun r => by cases r <;> rfl) (fun _ => rfl) rfl
  next => exact h

theorem Moves.leased {files : List String} {nReduce : ℕ} (h : s.Moves e s')
    (hc : Counted files nReduce s.c) (hl : s.Leased) : s'.Leased := by
  cases h with
  | request w => exact hl.frame (fun r => by cases r <;> rfl) (lease_request w) rfl
  | reads call_k reads => exact hl.reads call_k reads
  | select call_k pc pick =>
    exact hl.select call_k pc pick (fun r' => by rw [goto_task]; cases r' <;> rfl)
      (lease_goto (update_calls ..) call_k _) rfl
  | wait call_k pc pick => exact hl.wait call_k pc
  | assign call_k pc =>
    exact hl.assign call_k pc (fun r' => goto_task ..) (lease_goto (update_calls ..) call_k _)
      (update_selected ..)
  | fill call_k pc task =>
    refine hl.frame (fun r => goto_task ..) (lease_goto_same call_k ?_) rfl
    rw [Call.lease, Call.lease, pc]
  | start call_k pc =>
    refine hl.frame (fun r => goto_task ..) (lease_goto_same call_k ?_) rfl
    rw [Call.lease, Call.lease, pc]
    rfl
  | finish args_task task worker stat =>
    exact hl.finish (fun r' => task_count r') (fun j => by simp [lease]) (update_selected ..)
  | late => exact hl
  | timeout call_k pc =>
    exact hl.timeout call_k pc (fun r' => goto_task ..) (lease_goto (update_calls ..) call_k _)
      (update_selected ..)
  | checkPhase glob phase => exact hl.checkPhase hc glob

/-! ### Calls and timers -/

theorem InProgress.lease (h : s.InProgress k r) : ∃ w, s.lease k = some (r, w) := by
  obtain ⟨call, hk, hpc⟩ := h
  rw [lease_eq hk, Call.lease]
  generalize call.pc = q at hpc
  cases q <;> simp_all [Pc.working]

theorem Pending.lease {w : ℤ} (h : s.Pending k r w) : s.lease k = some (r, w) := by
  obtain ⟨call, hk, hpc, rfl⟩ := h
  rw [lease_eq hk, Call.lease]
  generalize call.pc = q at hpc
  cases q <;> simp_all [Pc.pending]

theorem pending_eq_some (h : pc.pending = some r) : ∃ replys, pc = .returned replys (some r) := by
  cases pc with
  | returned replys timer => exact ⟨replys, congrArg _ h⟩
  | _ => cases h

/-- A call holds its task while it is in progress, or by its timer. -/
theorem lease_cases {w : ℤ} (h : s.lease k = some (r, w)) :
    (s.InProgress k r ∧ ∀ r' w', ¬ s.Pending k r' w') ∨
      s.Pending k r w ∧ ∀ r', ¬ s.InProgress k r' := by
  obtain ⟨call, hk, hlease⟩ := Option.bind_eq_some_iff.mp h
  have hone : ∀ {call'}, s.calls[k]? = some call' → call' = call := by
    intro call' hk'
    exact Option.some.inj (hk'.symm.trans hk)
  unfold InProgress Pending
  unfold Call.lease at hlease
  split at hlease
  case h_4 q replys timer hpc =>
    obtain ⟨r', hr', hw⟩ := Option.map_eq_some_iff.mp hlease
    cases hw
    refine .inr ⟨⟨call, hk, by rw [hpc]; exact hr', rfl⟩, ?_⟩
    rintro r' ⟨call', hk', hpc'⟩
    rw [hone hk', hpc] at hpc'
    cases hpc'
  case h_5 => cases hlease
  all_goals
    next hpc =>
    cases hlease
    refine .inl ⟨⟨call, hk, by rw [hpc]; rfl⟩, ?_⟩
    rintro r' w' ⟨call', hk', hpc', -⟩
    rw [hone hk', hpc] at hpc'
    cases hpc'

theorem leased_make (files : List String) (nReduce : ℕ) : (make files nReduce).Leased where
  tenancy := fun r t ht => by
    refine ⟨fun _ => ⟨?_, by rintro _ _ ⟨⟩⟩, fun hstat => ?_⟩
    all_goals
      cases r with
      | map i =>
        obtain ⟨j, -, rfl⟩ := List.mem_map.mp (List.mem_of_getElem? ht)
        first | rfl | cases hstat
      | reduce i => cases ht
      | wait i => cases ht
  waits := by rintro _ _ ⟨⟩
  valid := by rintro _ _ _ ⟨⟩

theorem leased_run {files : List String} {nReduce : ℕ}
    (h : Run step (fun _ _ => True) (make files nReduce) s) : s.Leased := by
  have hinv : Counted files nReduce s.c ∧ s.Leased := by
    refine h.invariant (P := fun s => Counted files nReduce s.c ∧ s.Leased)
      ⟨.make, leased_make files nReduce⟩ ?_
    rintro s s' e ⟨hc, hl⟩ - hstep
    have hm := step_moves hstep
    exact ⟨hc.effect hm.effect, hm.leased hc hl⟩
  exact hinv.2

/-- The timer of a call that was told to wait changes nothing. -/
theorem timeout_wait (hl : s.Leased) {i : ℕ} {w : ℤ} (h : s.Pending k (.wait i) w) :
    ∃ s', s.step (.timeout k) = .ok s' ∧ s'.c = s.c ∧ s'.waits = s.waits := by
  obtain ⟨t, ht⟩ := hl.valid k _ w h.lease
  obtain ⟨call, hk, hpc, rfl⟩ := h
  obtain ⟨replys, hpc⟩ := pending_eq_some hpc
  refine ⟨(s.update (.wait i) (·.checkTimeout call.workerID)).goto k (.returned replys none), ?_,
    rfl, ?_⟩
  · simp only [step, hk, Server.timeout, hpc]
  · -- the task is finished from the start, so `checkTimeout` returns at once
    refine List.ext_getElem? fun j => ?_
    simp only [goto, update, List.getElem?_modify]
    rcases eq_or_ne i j with rfl | hne
    · rw [show s.waits[i]? = some t from ht]
      simp [Task.checkTimeout, hl.waits i t ht]
    · simp [hne]

/-- No task is lost and no timer takes back another assignment, in every reachable state of the
    coordinator. -/
theorem no_task_lost {files : List String} {nReduce : ℕ}
    (h : Run step (fun _ _ => True) (make files nReduce) s) :
    (∀ r task, s.task r = some task → (∀ i, r ≠ .wait i) →
      (task.taskStat = .NotAssign ∧ task.workerID = -1 ∧ (∀ k, ¬ s.InProgress k r) ∧
        ∀ k w, ¬ s.Pending k r w) ∨
      (task.taskStat = .Assigned ∧ ∃ k,
        ((∀ j, s.InProgress j r ↔ j = k) ∧ ∀ j w, ¬ s.Pending j r w) ∨
        ((∀ j, ¬ s.InProgress j r) ∧ ∀ j w, s.Pending j r w ↔ j = k ∧ w = task.workerID)) ∨
      task.taskStat = .Finished) ∧
    (∀ k r w, s.Pending k r w → ∃ task, s.task r = some task ∧ (task.taskStat ≠ .Finished →
      task.taskStat = .Assigned ∧ task.workerID = w ∧ s.lastCall r = some k)) ∧
    ∀ k i w, s.Pending k (.wait i) w →
      ∃ s', s.step (.timeout k) = .ok s' ∧ s'.c = s.c ∧ s'.waits = s.waits := by
  have hl := leased_run h
  refine ⟨fun r task ht _ => ?_, fun k r w hp => ?_, fun k i w => timeout_wait hl⟩
  · cases hstat : task.taskStat with
    | NotAssign =>
      obtain ⟨hid, hno⟩ := (hl.tenancy r task ht).free hstat
      refine .inl ⟨rfl, hid, fun k hk => ?_, fun k w hk => hno k w hk.lease⟩
      obtain ⟨w, hw⟩ := hk.lease
      exact hno k w hw
    | Assigned =>
      obtain ⟨k, hk, huniq, -⟩ := (hl.tenancy r task ht).held hstat
      have hworking : ∀ {j}, s.InProgress j r → j = k := fun hj => by
        obtain ⟨w, hw⟩ := hj.lease
        exact huniq _ w hw
      refine .inr (.inl ⟨rfl, k, ?_⟩)
      rcases lease_cases hk with ⟨hin, hno⟩ | ⟨hin, hno⟩
      · refine .inl ⟨fun j => ⟨hworking, fun heq => heq ▸ hin⟩, fun j w hj => ?_⟩
        exact hno r w (huniq j w hj.lease ▸ hj)
      · refine .inr ⟨fun j hj => hno r (hworking hj ▸ hj), fun j w => ⟨fun hj => ?_, ?_⟩⟩
        · obtain rfl := huniq j w hj.lease
          exact ⟨rfl, congrArg Prod.snd (Option.some.inj (hj.lease.symm.trans hk))⟩
        · rintro ⟨rfl, rfl⟩
          exact hin
    | Finished => exact .inr (.inr rfl)
  · obtain ⟨task, ht⟩ := hl.valid k r w hp.lease
    refine ⟨task, ht, fun hstat => ?_⟩
    obtain ⟨hassigned, hid, -, hlast⟩ := hl.holder hp.lease ht hstat
    exact ⟨hassigned, hid, hlast⟩

/-- Worker 7 is given the same map task twice, the second time after the timer of the first. -/
def sameWorkerTwice : List Event :=
  [.request 7, .run 0, .run 0, .run 0, .run 0, .run 0, .run 0, .timeout 0,
    .request 7, .run 1, .run 1, .run 1, .run 1, .run 1, .run 1]

theorem no_task_lost_same_worker : ∃ s, Run step (fun _ _ => True) (make ["pg.txt"] 2) s ∧
    s.Pending 1 (.map 0) 7 ∧ ∃ task, s.task (.map 0) = some task ∧
      (task.taskStat ≠ .Finished → task.workerID = 7 ∧ s.lastCall (.map 0) = some 1) := by
  obtain ⟨s, hs, hcall⟩ := exists_run_of_play step (fun _ _ => True) (make ["pg.txt"] 2)
    sameWorkerTwice (fun s => s.calls[1]? =
      some ⟨7, .returned ⟨.MapTask, 0, ["pg.txt"], 2⟩ (some (.map 0))⟩) (by decide +kernel)
  have hp : s.Pending 1 (.map 0) 7 := ⟨_, hcall, rfl, rfl⟩
  obtain ⟨task, ht, hmine⟩ := (no_task_lost hs).2.1 1 (.map 0) 7 hp
  exact ⟨s, hs, hp, task, ht, fun hstat => (hmine hstat).2⟩

end Server
end DistLabs.MR
