import DistLabs.Raft.Bookkeeping

/-! # No log access out of range

    Every index and slice bound that a handler applies to `rf.logs` is computed from indices that
    other handlers move. An access out of range is `none` in the handlers and `Halt.panic` in the
    cluster; `Node.Panics` lists the accesses, and the invariant `Node.Bounded` keeps each of them
    within the log as long as the steps meet `Node.InRange`. -/

namespace DistLabs

variable {n : ℕ} {C S : Type}

/-- A heartbeat goroutine before `genAppendEntries`. -/
def Thread.isHeartbeat : Thread n C S → Bool
  | .heartbeat _ => true
  | _ => false

/-- The messages a goroutine still has to send on `applyCh`. -/
def Thread.msgs : Thread n C S → List (ApplyMsg C S)
  | .applying msgs => msgs
  | .applied _ msgs => msgs
  | .snapshotMsg msg => [msg]
  | _ => []

/-- A goroutine on its way to `condInstallSnapshot`. -/
def Thread.isCond : Thread n C S → Bool
  | .condRead => true
  | .condInstall _ _ => true
  | _ => false

/-- No command of the message lies behind index `c`. -/
def ApplyMsg.AtMost (c : ℤ) (m : ApplyMsg C S) : Prop := ∀ i, m.isCommandAt i = true → i ≤ c

namespace Node

variable {nd : Node n C S} {inp : Input n C S} {out : Out n C S} {rf' : Raft n C S}

/-- An accepted `AppendEntries` does not cut the log below `commitIndex`. -/
def AppendCommitted (nd : Node n C S) (inp : Input n C S) : Prop :=
  ∀ args ∈ inp.appendRequest, nd.rf.Accepts args →
    nd.rf.commitIndex ≤ args.prevLogIndex + args.entries.length

/-- A heartbeat goroutine builds its request while the server is leader. -/
def HeartbeatLeads (nd : Node n C S) (inp : Input n C S) : Prop :=
  ∀ t ∈ nd.running inp, t.isHeartbeat = true → nd.rf.role = .Leader

/-- The steps that stay within the log. -/
def InRange (nd : Node n C S) (inp : Input n C S) : Prop :=
  nd.LedgerKept inp ∧ nd.AppendCommitted inp ∧ nd.ApplyAhead inp ∧ nd.HeartbeatLeads inp

instance (nd : Node n C S) (inp : Input n C S) : Decidable (nd.AppendCommitted inp) :=
  inferInstanceAs (Decidable (∀ args ∈ inp.appendRequest, _))

instance (nd : Node n C S) (inp : Input n C S) : Decidable (nd.HeartbeatLeads inp) :=
  inferInstanceAs (Decidable (∀ t ∈ nd.running inp, _))

instance (nd : Node n C S) (inp : Input n C S) : Decidable (nd.InRange inp) :=
  inferInstanceAs (Decidable (_ ∧ _ ∧ _ ∧ _))

/-! ### Where the code can panic -/

/-- The accesses that fail when a server panics. -/
inductive Panics (nd : Node n C S) (inp : Input n C S) : Prop
  | requestVotes (gen : nd.rf.genRequestVoteArgs = none)
  | snapshot {index : ℤ} {data : Option S}
      (received : nd.received.any (·.isCommandAt index) = true)
      (handler : nd.rf.snapshotTo index data = none)
  | heartbeat {server : Fin n} (running : nd.running inp = some (.heartbeat server))
      (gen : nd.rf.genAppendEntries server = none)
  | apply (logs : nd.rf.applyLogs = none)
  | condInstall {t i : ℤ} (running : nd.running inp = some (.condInstall t i))
  | requestVote {args : RequestVoteArgs n} (handler : nd.rf.requestVote args = none)
  | appendEntries {args : AppendEntriesArgs n C} (request : inp.appendRequest = some args)
      (handler : nd.rf.appendEntries args = none)
  | installSnapshot {args : InstallSnapshotArgs n S} (handler : nd.rf.installSnapshot args = none)
  | reply {server : Fin n} {args : AppendEntriesArgs n C} {reply : AppendEntriesReply}
      (handler : nd.rf.handleAppendEntries server args reply = none)

theorem guard_bind_panic {α β : Type} {o : Option α} {f : α → Except Halt β}
    (h : (guard o >>= f) = .error .panic) : o = none ∨ ∃ a, o = some a ∧ f a = .error .panic := by
  cases o with
  | none => exact .inl rfl
  | some a => exact .inr ⟨a, rfl, h⟩

theorem runThread_panics {k : ℕ} {t : Thread n C S} (thread : nd.threads[k]? = some t)
    (h : { nd with threads := nd.threads.eraseIdx k }.runThread t = .error .panic) :
    nd.Panics (.act (.run k)) := by
  have hrun : nd.running (.act (.run k)) = some t := thread
  cases t with
  | heartbeat server =>
    rcases guard_bind_panic h with hnone | ⟨⟨args, b⟩, -, hf⟩
    · exact .heartbeat hrun hnone
    · cases hf
  | append server args isSnapshot =>
    simp only [runThread] at h
    split at h
    · split at h <;> cases h
    · cases h
  | installSend server args =>
    simp only [runThread] at h
    split at h <;> cases h
  | apply =>
    rcases guard_bind_panic h with hnone | ⟨batch, -, hf⟩
    · exact .apply hnone
    · cases batch <;> cases hf
  | applying msgs => cases msgs <;> cases h
  | condInstall t i => exact .condInstall hrun
  | _ => cases h

theorem act_panics {a : Action C S} (h : nd.act a = .error .panic) : nd.Panics (.act a) := by
  cases a with
  | timeout | startElection | persistElection | heartbeat | start =>
    simp only [act] at h
    split at h <;> cases h
  | sendRequestVotes =>
    simp only [act] at h
    split at h
    · rcases guard_bind_panic h with hnone | ⟨args, -, hf⟩
      · exact .requestVotes hnone
      · cases hf
    · cases h
  | snapshot index data =>
    simp only [act] at h
    split at h
    · rename_i hrec
      rcases guard_bind_panic h with hnone | ⟨rf, -, hf⟩
      · exact .snapshot hrec hnone
      · cases hf
    · cases h
  | run k =>
    simp only [act] at h
    split at h
    · cases h
    · rename_i t ht
      exact runThread_panics ht h
  | crash => cases h

theorem recv_panics {p : Packet n C S} (h : nd.recv p = .error .panic) : nd.Panics (.recv p) := by
  unfold recv at h
  split at h
  · rcases guard_bind_panic h with hnone | ⟨⟨rf, reply⟩, -, hf⟩
    · exact .requestVote hnone
    · cases hf
  · rename_i args hbody
    rcases guard_bind_panic h with hnone | ⟨⟨rf, reply, go⟩, -, hf⟩
    · exact .appendEntries (by rw [Input.appendRequest, hbody]) hnone
    · cases hf
  · rcases guard_bind_panic h with hnone | ⟨⟨rf, reply, msg⟩, -, hf⟩
    · exact .installSnapshot hnone
    · cases hf
  · split at h <;> cases h
  · split at h
    · rcases guard_bind_panic h with hnone | ⟨⟨rf, go⟩, -, hf⟩
      · exact .reply hnone
      · cases hf
    · cases h
  · split at h <;> cases h

theorem on_panics (h : nd.on inp = .error .panic) : nd.Panics inp := by
  cases inp with
  | act a => exact act_panics h
  | recv p => exact recv_panics h

end Node

/-! ### Handlers within bounds -/

namespace Raft

variable {rf : Raft n C S}

theorem termAt_last_isSome (h : rf.logs ≠ []) : ∃ t, rf.termAt rf.getLastStorageIndex = some t := by
  have := List.length_pos_of_ne_nil h
  exact termAt_isSome rf (by rw [getLastStorageIndex]; omega) (by rw [getLastStorageIndex]; omega)

theorem genRequestVoteArgs_ne_none (h : rf.logs ≠ []) : rf.genRequestVoteArgs ≠ none := by
  obtain ⟨t, ht⟩ := termAt_last_isSome h
  rw [genRequestVoteArgs, ht]
  rintro ⟨⟩

theorem requestVote_ne_none (h : rf.logs ≠ []) (args : RequestVoteArgs n) :
    rf.requestVote args ≠ none := by
  obtain ⟨t, ht⟩ := termAt_last_isSome (by rwa [meet_logs] : (rf.meet args.term).logs ≠ [])
  rw [requestVote_eq, isLogUpToDate, ht]
  split <;> rintro ⟨⟩

theorem genAppendEntries_ne_none {server : Fin n}
    (h : rf.nextIndex server ≤ rf.getLastLogicalIndex + 1) : rf.genAppendEntries server ≠ none := by
  unfold genAppendEntries convertToStorageIndex
  dsimp only
  split
  · rintro ⟨⟩
  rename_i hlow
  rw [getLastLogicalIndex] at h
  obtain ⟨t, ht⟩ := termAt_isSome rf
    (i := rf.nextIndex server - 1 - rf.lastIncludedIndex) (by omega) (by omega)
  have hdrop : Slice.dropFrom rf.logs (rf.nextIndex server - rf.lastIncludedIndex)
      = some (rf.logs.drop (rf.nextIndex server - rf.lastIncludedIndex).toNat) :=
    Slice.dropFrom_eq_some.mpr ⟨by omega, by omega, rfl⟩
  rw [if_neg (by omega), ht, hdrop]
  rintro ⟨⟩

theorem exists_applyRange (rf : Raft n C S) : ∀ {k : ℕ} {i : ℤ}, rf.lastIncludedIndex ≤ i →
    i + k ≤ rf.getLastLogicalIndex + 1 → ∃ msgs, rf.applyRange k i = some msgs
  | 0, _, _, _ => ⟨[], rfl⟩
  | k + 1, i, hi, hk => by
    push_cast at hk
    obtain ⟨msgs, hmsgs⟩ := exists_applyRange rf (k := k) (i := i + 1) (by omega) (by omega)
    rw [getLastLogicalIndex] at hk
    obtain ⟨e, he⟩ := Slice.index_isSome (s := rf.logs) (i := i - rf.lastIncludedIndex) (by omega)
      (by omega)
    exact ⟨.command e.command i :: msgs, by
      simp only [applyRange, convertToStorageIndex, he, hmsgs]⟩

theorem applyLogs_ne_none (h : rf.commitIndex ≤ rf.getLastLogicalIndex) : rf.applyLogs ≠ none := by
  unfold applyLogs
  split
  · rintro ⟨⟩
  split
  · rintro ⟨⟩
  · obtain ⟨msgs, hmsgs⟩ := exists_applyRange rf
      (k := (rf.commitIndex - rf.lastApplied).toNat) (i := rf.lastApplied + 1) (by omega) (by omega)
    rw [hmsgs]
    rintro ⟨⟩

theorem appendEntries_ne_none {args : AppendEntriesArgs n C}
    (h : rf.Accepts args → rf.lastIncludedIndex ≤ args.prevLogIndex + 1) :
    rf.appendEntries args ≠ none := by
  rw [appendEntries_eq]
  split
  · rintro ⟨⟩
  rename_i hterm
  rw [matchEntries, convertToStorageIndex, follow_lastIncludedIndex]
  split
  · rintro ⟨⟩
  rename_i hlast
  rw [getLastLogicalIndex, follow_logs, follow_lastIncludedIndex] at hlast
  have hstore : rf.Accepts args → (rf.follow args.term).storeEntries args
      (args.prevLogIndex - rf.lastIncludedIndex) ≠ none := by
    intro hacc
    have := h hacc
    rw [storeEntries_eq, if_pos ⟨by omega, by rw [follow_logs]; omega⟩]
    rintro ⟨⟩
  dsimp only
  split
  · rename_i hpos
    obtain ⟨t, ht⟩ := termAt_isSome (rf.follow args.term)
      (i := args.prevLogIndex - rf.lastIncludedIndex) (by omega) (by rw [follow_logs]; omega)
    rw [ht]
    dsimp only
    split
    · have hk : (args.prevLogIndex - rf.lastIncludedIndex).toNat
          < (rf.follow args.term).logs.length := by
        rw [follow_logs]
        omega
      obtain ⟨m, hm, -⟩ := conflictScan_spec (t := t) hk
      rw [hm]
      rintro ⟨⟩
    · rename_i heq
      refine hstore ⟨not_lt.mp hterm, not_lt.mp hlast, fun _ => ?_⟩
      rw [termAt, follow_logs] at ht
      rw [termAt, ht, not_not.mp heq]
  · rename_i hpos
    exact hstore ⟨not_lt.mp hterm, not_lt.mp hlast, fun hlt => absurd hlt hpos⟩

theorem trimToSnapshot_ne_none (args : InstallSnapshotArgs n S) (reply : InstallSnapshotReply) :
    rf.trimToSnapshot args reply ≠ none := by
  unfold trimToSnapshot convertToStorageIndex
  split
  · rintro ⟨⟩
  rename_i hnew
  rw [not_or] at hnew
  split
  · rintro ⟨⟩
  · rename_i hlast
    rw [getLastLogicalIndex] at hlast
    have hdrop : Slice.dropFrom rf.logs (args.lastIncludedIndex - rf.lastIncludedIndex)
        = some (rf.logs.drop (args.lastIncludedIndex - rf.lastIncludedIndex).toNat) :=
      Slice.dropFrom_eq_some.mpr ⟨by omega, by omega, rfl⟩
    have hne : rf.logs.drop (args.lastIncludedIndex - rf.lastIncludedIndex).toNat ≠ [] := by
      rw [Ne, List.drop_eq_nil_iff]
      omega
    obtain ⟨e, rest, heq⟩ := List.exists_cons_of_ne_nil hne
    rw [hdrop, heq]
    rintro ⟨⟩

theorem installSnapshot_ne_none (args : InstallSnapshotArgs n S) :
    rf.installSnapshot args ≠ none := by
  unfold installSnapshot
  split
  · rintro ⟨⟩
  split
  · exact trimToSnapshot_ne_none _ _
  · exact trimToSnapshot_ne_none _ _

theorem handleAppendEntries_ne_none {server : Fin n} (args : AppendEntriesArgs n C)
    (reply : AppendEntriesReply) (hcommit : rf.lastIncludedIndex ≤ rf.commitIndex)
    (hnext : rf.role = .Leader → rf.nextIndex server ≤ rf.getLastLogicalIndex + 1) :
    rf.handleAppendEntries server args reply ≠ none := by
  by_cases hrole : rf.role = .Leader
  · by_cases hterm : reply.term ≤ rf.currentTerm
    · cases hs : reply.success with
      | false =>
        obtain ⟨x, hx, -⟩ := exists_backUp reply (hnext hrole)
        rw [handleAppendEntries_rejected hrole hterm hs, hx]
        rintro ⟨⟩
      | true =>
        obtain ⟨r, hr⟩ := exists_advanceCommit (rf.matched server args)
          (k := (rf.getLastLogicalIndex - rf.commitIndex).toNat)
          (show rf.lastIncludedIndex ≤ rf.commitIndex + 1 by omega)
          fun hk => show rf.commitIndex + ((rf.getLastLogicalIndex - rf.commitIndex).toNat : ℤ)
            ≤ rf.getLastLogicalIndex by omega
        rw [handleAppendEntries_eq_of_success _ _ _ hs, if_neg (not_not.mpr hrole),
          if_neg (not_lt.mpr hterm), hr]
        rintro ⟨⟩
    · rw [handleAppendEntries, if_neg (not_not.mpr hrole), if_pos (not_le.mp hterm)]
      rintro ⟨⟩
  · rw [handleAppendEntries, if_pos hrole]
    rintro ⟨⟩

/-- An accepted request that does not end below `commitIndex` does not cut what is committed. -/
theorem stored_commit {args : AppendEntriesArgs n C} (hacc : rf.Accepts args)
    (hlow : rf.lastIncludedIndex ≤ args.prevLogIndex)
    (hcut : rf.commitIndex ≤ args.prevLogIndex + args.entries.length) :
    rf.commitIndex ≤ (rf.stored args).commitIndex ∧
      (rf.stored args).commitIndex ≤ (rf.stored args).getLastLogicalIndex := by
  have hlast := hacc.2.1
  have hlen : (rf.stored args).getLastLogicalIndex
      = args.prevLogIndex + args.entries.length := by
    rw [getLastLogicalIndex] at hlast
    rw [getLastLogicalIndex, stored, follow_lastIncludedIndex, List.length_append,
      List.length_take]
    push_cast
    omega
  rw [stored_commitIndex, hlen]
  exact newCommit_bounds args.leaderCommit hcut

end Raft

/-! ### The invariant -/

theorem ApplyMsg.AtMost.mono {c d : ℤ} {m : ApplyMsg C S} (h : m.AtMost c) (hcd : c ≤ d) :
    m.AtMost d := fun i hi => (h i hi).trans hcd

/-- What has been handed out for applying is committed, and what is committed is in the log. -/
structure Node.Bounded (nd : Node n C S) : Prop where
  logs : nd.rf.logs ≠ []
  low : nd.rf.lastIncludedIndex ≤ nd.rf.commitIndex
  high : nd.rf.commitIndex ≤ nd.rf.getLastLogicalIndex
  saved : nd.rf.restored.logs ≠ []
  received : ∀ m ∈ nd.received, m.AtMost nd.rf.commitIndex
  threads : ∀ t ∈ nd.threads, (∀ m ∈ t.msgs, m.AtMost nd.rf.commitIndex) ∧ t.isCond = false

namespace Node

variable {nd : Node n C S} {inp : Input n C S} {out : Out n C S} {rf' : Raft n C S}

theorem bounded_boot (i : Fin n) : (Node.boot i : Node n C S).Bounded where
  logs := List.cons_ne_nil _ _
  low := le_rfl
  high := le_rfl
  saved := List.cons_ne_nil _ _
  received := by rintro _ ⟨⟩
  threads := by rintro _ ⟨⟩

theorem Bounded.edit (h : nd.Bounded) (hok : nd.InRange inp) (he : nd.Edit inp rf') :
    rf'.logs ≠ [] ∧ rf'.lastIncludedIndex ≤ rf'.commitIndex ∧
      rf'.commitIndex ≤ rf'.getLastLogicalIndex ∧
      (inp.isCrash = false → nd.rf.commitIndex ≤ rf'.commitIndex) := by
  have hlow := h.low
  have hhigh := h.high
  cases he with
  | keep same =>
    rw [same.logs, same.index, same.commit, same.last]
    exact ⟨h.logs, hlow, hhigh, fun _ => le_rfl⟩
  | @append term command running =>
    refine ⟨List.append_ne_nil_of_left_ne_nil h.logs _, hlow, hhigh.trans ?_, fun _ => le_rfl⟩
    rw [Raft.getLastLogicalIndex, Raft.getLastLogicalIndex, Raft.startAppend, List.length_append]
    push_cast
    omega
  | @store args request accepts low =>
    have hprev := hok.1.2 _ request accepts
    obtain ⟨hge, hle⟩ := Raft.stored_commit accepts hprev (hok.2.1 _ request accepts)
    refine ⟨List.append_ne_nil_of_left_ne_nil (fun hnil => ?_) _, ?_, hle, fun _ => hge⟩
    · rcases List.take_eq_nil_iff.mp hnil with h0 | h0
      · omega
      · exact h.logs h0
    · exact ((Raft.follow_lastIncludedIndex _).le.trans hlow).trans hge
  | commit same lt le applied =>
    rw [same.logs, same.index, same.last]
    exact ⟨h.logs, hlow.trans lt.le, le, fun _ => lt.le⟩
  | applied running => exact ⟨h.logs, hlow, hhigh, fun _ => le_rfl⟩
  | @compact index data e rest received lt le drop =>
    -- the service has received the command, so it is committed
    obtain ⟨m, hm, hat⟩ := List.any_eq_true.mp received
    refine ⟨List.cons_ne_nil _ _, h.received m hm index hat, hhigh.trans_eq ?_, fun _ => le_rfl⟩
    exact (Raft.getLastLogicalIndex_of_drop lt.le drop rfl rfl).symm
  | @install args logs request term lt ahead trim =>
    have hne : logs ≠ [] := by
      rcases trim with ⟨-, rfl⟩ | ⟨-, e, rest, -, rfl⟩ <;> exact List.cons_ne_nil _ _
    rw [Raft.persist_commitIndex, Raft.installed_commitIndex,
      Raft.getLastLogicalIndex_trimmed lt.le trim]
    exact ⟨hne, le_max_right .., max_le_max_right _ hhigh, fun _ => le_max_left ..⟩
  | cond running handler =>
    cases (h.threads _ (mem_of_running running)).2
  | restart crash =>
    have hlen := List.length_pos_of_ne_nil h.saved
    have hcommit : nd.rf.restored.commitIndex = nd.rf.restored.lastIncludedIndex :=
      Raft.make_commitIndex ..
    refine ⟨h.saved, hcommit.ge, ?_, fun hno => ?_⟩
    · rw [hcommit, Raft.getLastLogicalIndex]
      omega
    · rw [crash] at hno
      cases hno

/-- What the service has received is what it had or what a goroutine has just sent. -/
theorem Move.received (h : nd.Move inp out) {m : ApplyMsg C S} (hm : m ∈ out.node.received) :
    m ∈ nd.received ∨ ∃ t, nd.running inp = some t ∧ m ∈ t.msgs := by
  cases h with
  | run thread goes =>
    cases goes with
    | applySend msg msgs =>
      rcases List.mem_cons.mp hm with rfl | hm
      · exact .inr ⟨_, thread, List.mem_cons_self ..⟩
      · exact .inl hm
    | snapshotMsg msg =>
      rcases List.mem_cons.mp hm with rfl | hm
      · exact .inr ⟨_, thread, List.mem_cons_self ..⟩
      · exact .inl hm
    | _ => exact .inl hm
  | crash => cases hm
  | _ => exact .inl hm

theorem Bounded.spawned (h : nd.Bounded) (hok : nd.InRange inp) {t : Thread n C S}
    (hs : nd.Spawned inp t) :
    (∀ m ∈ t.msgs, m.AtMost nd.rf.commitIndex) ∧ t.isCond = false := by
  cases hs with
  | condRead running logs => exact absurd logs (hok.2.2.1.not_cond running)
  | condInstall running => cases (h.threads _ (mem_of_running running)).2
  | applying running logs =>
    obtain ⟨-, hbatch, hlen⟩ := Raft.applyLogs_batch logs
    refine ⟨fun m hm => ?_, rfl⟩
    rcases hlen with rfl | hlen
    · cases hm
    obtain ⟨c, j, rfl, -, hlt⟩ := hbatch.mem m hm
    intro i hi
    have : j = i := of_decide_eq_true hi
    omega
  | applied running =>
    have hold := (h.threads _ (mem_of_running running)).1
    exact ⟨fun m hm => hold m (List.mem_cons_of_mem _ hm), rfl⟩
  | resume running => exact ⟨(h.threads _ (mem_of_running running)).1, rfl⟩
  | snapshotMsg request =>
    refine ⟨fun m hm => ?_, rfl⟩
    rw [List.mem_singleton.mp hm]
    rintro i ⟨⟩
  | _ => exact ⟨by rintro _ ⟨⟩, rfl⟩

theorem Bounded.move (h : nd.Bounded) (hok : nd.InRange inp) (hm : nd.Move inp out) :
    out.node.Bounded := by
  have hedit := hm.edit
  obtain ⟨hlogs, hlow, hhigh, hcommit⟩ := h.edit hok hedit
  have hsaved : out.node.rf.restored.logs ≠ [] := by
    obtain ⟨hme, hp | hp⟩ := hedit.saved
    · rw [Raft.restored, hme, hp]
      exact h.saved
    · rw [← hp, (Raft.restored_persist _).1]
      exact hlogs
  cases hcrash : inp.isCrash with
  | false =>
    have hcommit := hcommit hcrash
    refine ⟨hlogs, hlow, hhigh, hsaved, fun m hmem => ?_, fun t ht => ?_⟩
    · rcases hm.received hmem with hold | ⟨t, hrun, hmem⟩
      · exact (h.received m hold).mono hcommit
      · exact ((h.threads t (mem_of_running hrun)).1 m hmem).mono hcommit
    · obtain ⟨hmsgs, hcond⟩ : (∀ m ∈ t.msgs, m.AtMost nd.rf.commitIndex) ∧ t.isCond = false := by
        rcases hm.threads ht with hold | hnew
        · exact h.threads t hold
        · exact h.spawned hok hnew
      exact ⟨fun m hmem => (hmsgs m hmem).mono hcommit, hcond⟩
  | true =>
    cases hm with
    | crash => exact ⟨hlogs, hlow, hhigh, hsaved, by rintro _ ⟨⟩, by rintro _ ⟨⟩⟩
    | _ => cases hcrash

/-- A server within bounds does not panic, if it has kept its books. -/
theorem Bounded.not_panics (h : nd.Bounded) (hok : nd.InRange inp)
    (hnext : nd.rf.role = .Leader → ∀ j, nd.rf.nextIndex j ≤ nd.rf.getLastLogicalIndex + 1) :
    ¬ nd.Panics inp := by
  intro hp
  cases hp with
  | requestVotes gen => exact Raft.genRequestVoteArgs_ne_none h.logs gen
  | @snapshot index data received handler =>
    obtain ⟨m, hm, hat⟩ := List.any_eq_true.mp received
    obtain ⟨rf', hrf'⟩ := Raft.snapshotTo_isSome ((h.received m hm index hat).trans h.high) data
    cases handler.symm.trans hrf'
  | heartbeat running gen =>
    exact Raft.genAppendEntries_ne_none (hnext (hok.2.2.2 _ running rfl) _) gen
  | apply logs => exact Raft.applyLogs_ne_none h.high logs
  | condInstall running => cases (h.threads _ (mem_of_running running)).2
  | requestVote handler => exact Raft.requestVote_ne_none h.logs _ handler
  | appendEntries request handler =>
    exact Raft.appendEntries_ne_none
      (fun hacc => (hok.1.2 _ request hacc).trans (Int.le_add_one le_rfl)) handler
  | installSnapshot handler => exact Raft.installSnapshot_ne_none _ handler
  | reply handler =>
    exact Raft.handleAppendEntries_ne_none _ _ h.low (fun hrole => hnext hrole _) handler

end Node

namespace Cluster

variable {s : Cluster n C S}

/-- The logs are never empty, `lastIncludedIndex ≤ commitIndex ≤` the last index, and no next step
    that stays in range panics. -/
theorem inRange_run (h : Run step (At Node.InRange) init s) (i : Fin n) :
    (s.nodes i).Bounded ∧
      ∀ inp, (s.nodes i).InRange inp → (s.nodes i).on inp ≠ .error .panic := by
  have hb : ∀ i, (s.nodes i).Bounded := (local_invariant (G := fun _ nd => nd.Bounded)
    (M := fun _ _ => True) h (fun _ => Node.bounded_boot) (fun _ _ _ => id) (fun _ _ _ => id)
    fun _ _ _ _ hG _ _ hok hm => ⟨hG.move hok hm, fun _ _ => trivial⟩).1
  have hl := (ledgerInv_run (h.mono fun _ _ hok => hok.mono fun _ _ h => h.1)).1
  refine ⟨hb i, fun inp hok hpanic => ?_⟩
  exact (hb i).not_panics hok (fun hrole j => (hl.books i hrole j).2.2) (Node.on_panics hpanic)

/-- The event makes a server panic. -/
def panicsAt (s : Cluster n C S) (e : Event n C S) : Bool :=
  match s.step e with
  | .error .panic => true
  | _ => false

theorem panicsAt_eq_true {e : Event n C S} (h : s.panicsAt e = true) :
    s.step e = .error .panic := by
  unfold panicsAt at h
  split at h
  · assumption
  · cases h

/-- Two servers. The first heartbeat of server 0, empty, is late. Two commands are committed, server
    1 applies them and its service compacts both. -/
def heartbeatBelowSnapshot [NeZero n] : List (Event n ℕ Unit) :=
  [.act 0 .timeout, .act 0 .startElection, .act 0 .sendRequestVotes, .act 0 .persistElection,
    .deliver 0, .deliver 0, .act 0 .heartbeat, .act 0 (.run 0), .act 0 (.run 0),
    .act 0 (.start (some 7)), .act 0 (.run 0), .act 0 (.run 0),
    .act 0 (.start (some 8)), .act 0 (.run 0), .act 0 (.run 0),
    .act 0 .heartbeat, .act 0 (.run 0), .act 0 (.run 0), .deliver 1, .deliver 1,
    .act 0 .heartbeat, .act 0 (.run 1), .act 0 (.run 1), .deliver 1,
    .act 1 (.run 0), .act 1 (.run 0), .act 1 (.run 0), .act 1 (.run 0), .act 1 (.run 0),
    .act 1 (.snapshot 2 (some ()))]

end Cluster

/-! ### Code without the lock -/

theorem Node.crashLocal_inRange : Node.CrashLocal (Node.InRange (n := n) (C := C) (S := S)) :=
  fun _ _ _ _ => ⟨⟨by rintro _ ⟨⟩, by rintro _ ⟨⟩⟩, by rintro _ ⟨⟩, by rintro _ ⟨⟩, by rintro _ ⟨⟩⟩

namespace Interleaved

variable {s : Interleaved n C S} {t : Cluster n C S}

/-- An access without the lock does not panic, and neither does a server that begins such code. -/
theorem step_panic {e : FineEvent n C S} (h : s.step e = .error .panic) :
    ∃ e₀ i inp net, e = .event e₀ ∧ s.cluster.input e₀ = some (i, inp, net) ∧
      (s.cluster.nodes i).on inp = .error .panic := by
  cases e with
  | access i k =>
    simp only [step, Node.access] at h
    split at h
    · cases h
    · split at h <;> cases h
  | event e =>
    simp only [step] at h
    split at h
    · cases h
    rename_i i inp net hin
    refine ⟨e, i, inp, net, rfl, hin, ?_⟩
    unfold Node.take at h
    split at h
    · cases hon : (s.cluster.nodes i).on inp with
      | error x => rw [hon] at h; cases h; rfl
      | ok out => rw [hon] at h; cases h
    · split at h <;> cases h

/-- No log access is out of range, in every run of steps that stay in range and do not interrupt
    code without the lock: the logs are never empty, `lastIncludedIndex ≤ commitIndex ≤` the last
    index, and no next step of this kind panics. -/
theorem no_access_out_of_range (h : Run step (Steady Node.InRange) init s) :
    (∀ i, (s.cluster.nodes i).rf.logs ≠ [] ∧
      (s.cluster.nodes i).rf.lastIncludedIndex ≤ (s.cluster.nodes i).rf.commitIndex ∧
      (s.cluster.nodes i).rf.commitIndex ≤ (s.cluster.nodes i).rf.getLastLogicalIndex) ∧
    ∀ e, Steady Node.InRange s e → s.step e ≠ .error .panic := by
  obtain ⟨t, ht, hst⟩ := exists_stands Node.crashLocal_inRange h
  refine ⟨fun i => ?_, fun e hok hpanic => ?_⟩
  · have hunder := hst.underway i
    have hb := (Cluster.inRange_run ht i).1
    rw [hunder.logs, hunder.lastIncludedIndex, hunder.commitIndex, hunder.getLastLogicalIndex]
    exact ⟨hb.logs, hb.low, hb.high⟩
  · obtain ⟨e, i, inp, net, rfl, hin, hon⟩ := step_panic hpanic
    rcases hok.2 _ hin with hidle | hcrash
    · have hrange := hok.1.at_input hin
      rw [hst.node_eq hidle] at hon hrange
      exact (Cluster.inRange_run ht i).2 inp hrange hon
    · obtain rfl : inp = .act .crash := Input.eq_crash hcrash
      cases hon

theorem no_access_out_of_range_first_command : ∃ s : Interleaved 3 ℕ Unit,
    Run step (Steady Node.InRange) init s ∧ (s.cluster.nodes 1).rf.commitIndex = 1 ∧
      1 ≤ (s.cluster.nodes 1).rf.getLastLogicalIndex ∧
      ∀ e, Steady Node.InRange s e → s.step e ≠ .error .panic := by
  obtain ⟨s, t, hs, hem, hcommit⟩ := exists_run_of_schedule (n := 3) Node.InRange
    (Cluster.firstVote ++ Cluster.firstLeader ++ Cluster.firstCommand)
    (fun t => (t.nodes 1).rf.commitIndex = 1) (by decide +kernel)
  rw [← hem.nodes] at hcommit
  obtain ⟨hlogs, hnext⟩ := no_access_out_of_range hs
  exact ⟨s, hs, hcommit, hcommit ▸ (hlogs 1).2.2, hnext⟩

theorem Embeds.step_panic (h : Embeds t s) {e : Event n C S} (hpanic : t.step e = .error .panic) :
    s.step (.event e) = .error .panic := by
  unfold Cluster.step at hpanic
  split at hpanic
  · cases hpanic
  rename_i i inp net hin
  have hon : (t.nodes i).on inp = .error .panic := by
    cases hon : (t.nodes i).on inp with
    | error x => rw [hon] at hpanic; cases hpanic; rfl
    | ok out => rw [hon] at hpanic; cases hpanic
  have henters : (t.nodes i).enters inp = none := by
    refine Option.eq_none_iff_forall_ne_some.mpr fun r hr => ?_
    obtain ⟨rf, ending, -, hok⟩ := (Node.along_enters (show _ = some (r.1, r.2) from hr)).ends
    rw [hon] at hok
    cases hok
  simp only [step, (h.input_eq e).trans hin, h.nodes, Node.take, henters, hon]
  rfl

/-- The late heartbeat makes server 1 slice its log at -1. -/
theorem heartbeat_below_snapshot_panics :
    ¬ ∀ s : Interleaved 2 ℕ Unit, Run step (Steady Node.NoCrash) init s →
      ∀ e, s.step e ≠ .error .panic := by
  obtain ⟨s, t, hs, hem, hbad⟩ := exists_run_of_schedule (n := 2) Node.NoCrash
    Cluster.heartbeatBelowSnapshot (fun t => t.panicsAt (.deliver 0) = true) (by decide +kernel)
  exact fun h => h s hs _ (hem.step_panic (Cluster.panicsAt_eq_true hbad))

end Interleaved
end DistLabs
