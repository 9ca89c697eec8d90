import DistLabs.Raft.Server

/-! # What each handler does

    One lemma a handler, saying everything it can do to the peer. Later modules use these and do not
    unfold the handlers again. -/

namespace DistLabs.Raft

variable {n : ℕ} {C S : Type} {rf rf' : Raft n C S}

/-! ### Fields kept by `persist`, `stepDown` and `convertRole` -/

@[simp] theorem persist_me : rf.persist.me = rf.me := rfl
@[simp] theorem persist_currentTerm : rf.persist.currentTerm = rf.currentTerm := rfl
@[simp] theorem persist_votedFor : rf.persist.votedFor = rf.votedFor := rfl
@[simp] theorem persist_logs : rf.persist.logs = rf.logs := rfl
@[simp] theorem persist_commitIndex : rf.persist.commitIndex = rf.commitIndex := rfl
@[simp] theorem persist_lastApplied : rf.persist.lastApplied = rf.lastApplied := rfl
@[simp] theorem persist_nextIndex : rf.persist.nextIndex = rf.nextIndex := rfl
@[simp] theorem persist_matchIndex : rf.persist.matchIndex = rf.matchIndex := rfl
@[simp] theorem persist_role : rf.persist.role = rf.role := rfl
@[simp] theorem persist_snapshot : rf.persist.snapshot = rf.snapshot := rfl
@[simp] theorem persist_lastIncludedIndex :
    rf.persist.lastIncludedIndex = rf.lastIncludedIndex := rfl
@[simp] theorem persist_lastIncludedTerm :
    rf.persist.lastIncludedTerm = rf.lastIncludedTerm := rfl

@[simp] theorem convertRole_me (r : Role) : (rf.convertRole r).me = rf.me := by cases r <;> rfl
@[simp] theorem convertRole_currentTerm (r : Role) :
    (rf.convertRole r).currentTerm = rf.currentTerm := by cases r <;> rfl
@[simp] theorem convertRole_votedFor (r : Role) :
    (rf.convertRole r).votedFor = rf.votedFor := by cases r <;> rfl
@[simp] theorem convertRole_logs (r : Role) : (rf.convertRole r).logs = rf.logs := by
  cases r <;> rfl
@[simp] theorem convertRole_commitIndex (r : Role) :
    (rf.convertRole r).commitIndex = rf.commitIndex := by cases r <;> rfl
@[simp] theorem convertRole_lastApplied (r : Role) :
    (rf.convertRole r).lastApplied = rf.lastApplied := by cases r <;> rfl
@[simp] theorem convertRole_role (r : Role) : (rf.convertRole r).role = r := by cases r <;> rfl
@[simp] theorem convertRole_snapshot (r : Role) :
    (rf.convertRole r).snapshot = rf.snapshot := by cases r <;> rfl
@[simp] theorem convertRole_lastIncludedIndex (r : Role) :
    (rf.convertRole r).lastIncludedIndex = rf.lastIncludedIndex := by cases r <;> rfl
@[simp] theorem convertRole_lastIncludedTerm (r : Role) :
    (rf.convertRole r).lastIncludedTerm = rf.lastIncludedTerm := by cases r <;> rfl
@[simp] theorem convertRole_persister (r : Role) :
    (rf.convertRole r).persister = rf.persister := by cases r <;> rfl

@[simp] theorem stepDown_me (t : ℤ) : (rf.stepDown t).me = rf.me := rfl
@[simp] theorem stepDown_currentTerm (t : ℤ) : (rf.stepDown t).currentTerm = t := rfl
@[simp] theorem stepDown_votedFor (t : ℤ) : (rf.stepDown t).votedFor = none := rfl
@[simp] theorem stepDown_logs (t : ℤ) : (rf.stepDown t).logs = rf.logs := rfl
@[simp] theorem stepDown_commitIndex (t : ℤ) : (rf.stepDown t).commitIndex = rf.commitIndex := rfl
@[simp] theorem stepDown_lastApplied (t : ℤ) : (rf.stepDown t).lastApplied = rf.lastApplied := rfl
@[simp] theorem stepDown_role (t : ℤ) : (rf.stepDown t).role = .Follower := rfl
@[simp] theorem stepDown_lastIncludedIndex (t : ℤ) :
    (rf.stepDown t).lastIncludedIndex = rf.lastIncludedIndex := rfl
@[simp] theorem stepDown_lastIncludedTerm (t : ℤ) :
    (rf.stepDown t).lastIncludedTerm = rf.lastIncludedTerm := rfl
@[simp] theorem stepDown_persister (t : ℤ) : (rf.stepDown t).persister = rf.persister := rfl

/-! ### Terms, votes and roles -/

/-- A change that casts no vote and wins no election: either the term stays, with the vote, and the
    role stays or becomes `Follower`; or the peer enters a larger term as a follower without a
    vote. -/
def Quiet (rf rf' : Raft n C S) : Prop :=
  rf'.me = rf.me ∧
    ((rf'.currentTerm = rf.currentTerm ∧ rf'.votedFor = rf.votedFor ∧
        (rf'.role = rf.role ∨ rf'.role = .Follower)) ∨
      (rf.currentTerm < rf'.currentTerm ∧ rf'.votedFor = none ∧ rf'.role = .Follower))

/-- Only the log, the indices or the stable storage have changed. -/
theorem quiet_of_eq (hme : rf'.me = rf.me) (ht : rf'.currentTerm = rf.currentTerm)
    (hv : rf'.votedFor = rf.votedFor) (hr : rf'.role = rf.role) : Quiet rf rf' :=
  ⟨hme, .inl ⟨ht, hv, .inl hr⟩⟩

theorem Quiet.refl (rf : Raft n C S) : Quiet rf rf := quiet_of_eq rfl rfl rfl rfl

theorem quiet_persist_stepDown {t : ℤ} (h : rf.currentTerm < t) :
    Quiet rf (rf.stepDown t).persist := ⟨rfl, .inr ⟨h, rfl, rfl⟩⟩

/-- The role and term that `AppendEntries` gives the peer for a request of term `t`. -/
def follow (rf : Raft n C S) (t : ℤ) : Raft n C S :=
  if t > rf.currentTerm then rf.stepDown t else rf.convertRole .Follower

theorem quiet_follow {t : ℤ} : Quiet rf (rf.follow t) := by
  unfold follow
  split
  · exact ⟨rfl, .inr ⟨by assumption, rfl, rfl⟩⟩
  · exact ⟨rfl, .inl ⟨rfl, rfl, .inr rfl⟩⟩

@[simp] theorem follow_me (t : ℤ) : (rf.follow t).me = rf.me := by
  unfold follow; split <;> rfl
@[simp] theorem follow_logs (t : ℤ) : (rf.follow t).logs = rf.logs := by
  unfold follow; split <;> rfl
@[simp] theorem follow_role (t : ℤ) : (rf.follow t).role = .Follower := by
  unfold follow; split <;> rfl
@[simp] theorem follow_commitIndex (t : ℤ) : (rf.follow t).commitIndex = rf.commitIndex := by
  unfold follow; split <;> rfl
@[simp] theorem follow_lastApplied (t : ℤ) : (rf.follow t).lastApplied = rf.lastApplied := by
  unfold follow; split <;> rfl
@[simp] theorem follow_lastIncludedIndex (t : ℤ) :
    (rf.follow t).lastIncludedIndex = rf.lastIncludedIndex := by
  unfold follow; split <;> rfl
@[simp] theorem follow_lastIncludedTerm (t : ℤ) :
    (rf.follow t).lastIncludedTerm = rf.lastIncludedTerm := by
  unfold follow; split <;> rfl

theorem follow_currentTerm {t : ℤ} (h : rf.currentTerm ≤ t) : (rf.follow t).currentTerm = t := by
  unfold follow
  split
  · rfl
  · simp only [convertRole_currentTerm]; omega

/-! ### RequestVote -/

/-- The term a vote request of term `t` leaves the peer in, before it looks at the log. -/
def meet (rf : Raft n C S) (t : ℤ) : Raft n C S :=
  if t > rf.currentTerm then rf.stepDown t else rf

/-- `RequestVote` refuses at once, or meets the term of the request and votes by the logs. -/
theorem requestVote_eq (rf : Raft n C S) (args : RequestVoteArgs n) :
    rf.requestVote args =
      if args.term < rf.currentTerm ∨ args.term = rf.currentTerm ∧ rf.votedFor ≠ none ∧
          rf.votedFor ≠ some args.candidateId then
        some (rf.persist, ⟨rf.currentTerm, false⟩)
      else ((rf.meet args.term).isLogUpToDate args.lastLogTerm args.lastLogIndex).map fun b =>
        ({ rf.meet args.term with votedFor := if b then some args.candidateId else none }.persist,
          ⟨(rf.meet args.term).currentTerm, b⟩) := by
  unfold requestVote
  split
  · rename_i hlt
    rw [if_pos (.inl hlt)]
  rename_i hlt
  split
  · rename_i hvote
    rw [if_pos (.inr hvote)]
  rename_i hvote
  rw [if_neg (not_or.mpr ⟨hlt, hvote⟩)]
  rw [meet]
  split
  · dsimp only
    split <;> rename_i hup <;> rw [hup] <;> rfl
  · dsimp only
    split <;> rename_i hup <;> rw [hup] <;> rfl

theorem requestVote_cases {args : RequestVoteArgs n} {reply : RequestVoteReply}
    (h : rf.requestVote args = some (rf', reply)) :
    ((args.term < rf.currentTerm ∨ args.term = rf.currentTerm ∧ rf.votedFor ≠ none ∧
        rf.votedFor ≠ some args.candidateId) ∧
      rf' = rf.persist ∧ reply = ⟨rf.currentTerm, false⟩) ∨
    (rf.currentTerm ≤ args.term ∧
      (args.term = rf.currentTerm → rf.votedFor = none ∨ rf.votedFor = some args.candidateId) ∧
      ∃ b, (rf.meet args.term).isLogUpToDate args.lastLogTerm args.lastLogIndex = some b ∧
        rf' = { rf.meet args.term with
          votedFor := if b then some args.candidateId else none }.persist ∧
        reply = ⟨(rf.meet args.term).currentTerm, b⟩) := by
  rw [requestVote_eq] at h
  split at h
  · exact .inl ⟨by assumption, by simpa [eq_comm] using h⟩
  rename_i hc
  obtain ⟨hlt, hvote⟩ := not_or.mp hc
  obtain ⟨b, hb, heq⟩ := Option.map_eq_some_iff.mp h
  obtain ⟨rfl, rfl⟩ := Prod.mk.inj heq
  refine .inr ⟨by omega, fun ht => ?_, b, hb, rfl, rfl⟩
  by_contra hc
  exact hvote ⟨ht, fun h0 => hc (.inl h0), fun h1 => hc (.inr h1)⟩

theorem meet_currentTerm {t : ℤ} (h : rf.currentTerm ≤ t) : (rf.meet t).currentTerm = t := by
  unfold meet
  split
  · rfl
  · omega

@[simp] theorem meet_me (t : ℤ) : (rf.meet t).me = rf.me := by unfold meet; split <;> rfl
@[simp] theorem meet_logs (t : ℤ) : (rf.meet t).logs = rf.logs := by unfold meet; split <;> rfl
@[simp] theorem meet_lastIncludedIndex (t : ℤ) :
    (rf.meet t).lastIncludedIndex = rf.lastIncludedIndex := by unfold meet; split <;> rfl
@[simp] theorem meet_lastIncludedTerm (t : ℤ) :
    (rf.meet t).lastIncludedTerm = rf.lastIncludedTerm := by unfold meet; split <;> rfl
@[simp] theorem meet_commitIndex (t : ℤ) :
    (rf.meet t).commitIndex = rf.commitIndex := by unfold meet; split <;> rfl
@[simp] theorem meet_lastApplied (t : ℤ) :
    (rf.meet t).lastApplied = rf.lastApplied := by unfold meet; split <;> rfl

/-- A vote reply wins the election, makes the peer step down or changes nothing. -/
theorem handleRequestVote_cases (rf : Raft n C S) (k : ℕ) (reply : RequestVoteReply) :
    (rf.role = .Candidate ∧ (rf.handleRequestVote k reply).1 = rf.convertRole .Leader) ∨
    (rf.currentTerm < reply.term ∧
      (rf.handleRequestVote k reply).1 = { rf.stepDown reply.term with unsaved := true }) ∨
    (rf.handleRequestVote k reply).1 = rf := by
  unfold handleRequestVote
  split
  · rename_i hc
    split
    · exact .inl ⟨hc.1, rfl⟩
    · exact .inr (.inr rfl)
  · split
    · exact .inr (.inl ⟨by assumption, rfl⟩)
    · exact .inr (.inr rfl)

/-! ### AppendEntries -/

/-- `commitIndex` after an accepted `AppendEntries` that leaves `last` as the last index. -/
def newCommit (rf : Raft n C S) (leaderCommit last : ℤ) : ℤ :=
  if leaderCommit > rf.commitIndex then (if leaderCommit < last then leaderCommit else last)
  else rf.commitIndex

/-- The peer after an accepted `AppendEntries`, before its `persist`. -/
def stored (rf : Raft n C S) (args : AppendEntriesArgs n C) : Raft n C S :=
  let logs := rf.logs.take (args.prevLogIndex - rf.lastIncludedIndex + 1).toNat ++ args.entries
  { rf.follow args.term with
    logs := logs
    commitIndex := rf.newCommit args.leaderCommit ((logs.length : ℤ) - 1 + rf.lastIncludedIndex) }

@[simp] theorem stored_role (rf : Raft n C S) (args : AppendEntriesArgs n C) :
    (rf.stored args).role = .Follower := follow_role _
@[simp] theorem stored_lastIncludedIndex (rf : Raft n C S) (args : AppendEntriesArgs n C) :
    (rf.stored args).lastIncludedIndex = rf.lastIncludedIndex := follow_lastIncludedIndex _
@[simp] theorem stored_lastIncludedTerm (rf : Raft n C S) (args : AppendEntriesArgs n C) :
    (rf.stored args).lastIncludedTerm = rf.lastIncludedTerm := follow_lastIncludedTerm _

theorem stored_commitIndex (rf : Raft n C S) (args : AppendEntriesArgs n C) :
    (rf.stored args).commitIndex
      = rf.newCommit args.leaderCommit (rf.stored args).getLastLogicalIndex := by
  rw [getLastLogicalIndex, stored_lastIncludedIndex]
  rfl

/-- The commit index after an accepted request: as it was, or what the leader says is committed. -/
theorem newCommit_spec (rf : Raft n C S) (leaderCommit last : ℤ) :
    rf.newCommit leaderCommit last = rf.commitIndex ∨
      rf.commitIndex < leaderCommit ∧ rf.newCommit leaderCommit last = min leaderCommit last := by
  unfold newCommit
  split
  · refine .inr ⟨by omega, ?_⟩
    split <;> omega
  · exact .inl rfl

theorem newCommit_bounds (leaderCommit : ℤ) {last : ℤ} (h : rf.commitIndex ≤ last) :
    rf.commitIndex ≤ rf.newCommit leaderCommit last ∧ rf.newCommit leaderCommit last ≤ last := by
  have := rf.newCommit_spec leaderCommit last
  omega

theorem storeEntries_eq (rf : Raft n C S) (args : AppendEntriesArgs n C) (index : ℤ) :
    rf.storeEntries args index =
      if 0 ≤ index + 1 ∧ index + 1 ≤ rf.logs.length then
        some ({ rf with
          logs := rf.logs.take (index + 1).toNat ++ args.entries
          commitIndex := rf.newCommit args.leaderCommit
            (((rf.logs.take (index + 1).toNat ++ args.entries).length : ℤ) - 1 +
              rf.lastIncludedIndex) }.persist,
          ⟨args.term, true, 0, 0⟩, decide (args.leaderCommit > rf.commitIndex))
      else none := by
  unfold storeEntries Slice.takeTo
  split_ifs with hidx
  · simp only [newCommit, getLastLogicalIndex]
    by_cases hc : args.leaderCommit > rf.commitIndex <;> simp [hc]
  · rfl

theorem storeEntries_eq_some {args : AppendEntriesArgs n C} {index : ℤ}
    {reply : AppendEntriesReply} {go : Bool}
    (h : rf.storeEntries args index = some (rf', reply, go)) :
    0 ≤ index + 1 ∧ index + 1 ≤ rf.logs.length ∧
    rf' = { rf with
      logs := rf.logs.take (index + 1).toNat ++ args.entries
      commitIndex := rf.newCommit args.leaderCommit
        (((rf.logs.take (index + 1).toNat ++ args.entries).length : ℤ) - 1 +
          rf.lastIncludedIndex) }.persist ∧
    reply = ⟨args.term, true, 0, 0⟩ ∧ go = decide (args.leaderCommit > rf.commitIndex) := by
  rw [storeEntries_eq] at h
  split at h
  · rename_i hidx
    obtain ⟨rfl, hrest⟩ := Prod.mk.inj (Option.some.inj h)
    obtain ⟨rfl, rfl⟩ := Prod.mk.inj hrest
    exact ⟨hidx.1, hidx.2, rfl, rfl, rfl⟩
  · cases h

/-- The follower's scan stops at the last entry of a smaller term. -/
theorem conflictScan_spec {logs : List (LogEntry C)} {t : ℤ} : ∀ {k : ℕ}, k < logs.length →
    ∃ m, conflictScan logs t k = some m ∧ m ≤ k ∧
      (∀ j e, m < j → j ≤ k → logs[j]? = some e → t ≤ e.term) ∧
      (m = 0 ∨ ∃ e, logs[m]? = some e ∧ e.term < t)
  | 0, _ => ⟨0, rfl, le_rfl, fun j e h1 h2 => by omega, .inl rfl⟩
  | k + 1, hk => by
    have hget : logs[k + 1]? = some (logs.get ⟨k + 1, hk⟩) := List.getElem?_eq_getElem hk
    rw [conflictScan, hget]
    by_cases hge : (logs.get ⟨k + 1, hk⟩).term ≥ t
    · obtain ⟨m, hm, hle, hall, hend⟩ := conflictScan_spec (t := t)
        (show k < logs.length by omega)
      refine ⟨m, by simpa only [if_pos hge] using hm, by omega, fun j e h1 h2 he => ?_, hend⟩
      rcases Nat.lt_succ_iff_lt_or_eq.mp (Nat.lt_succ_of_le h2) with hlt | rfl
      · exact hall j e h1 (by omega) he
      · rw [hget] at he
        exact Option.some.inj he ▸ hge
    · refine ⟨k + 1, by simp only [if_neg hge], le_rfl, fun j e h1 h2 => by omega, .inr ?_⟩
      exact ⟨_, hget, not_le.mp hge⟩

/-- A reply that refuses: the term of the peer, and where the leader should look next. -/
theorem matchEntries_cases {args : AppendEntriesArgs n C} {reply : AppendEntriesReply} {go : Bool}
    (h : rf.matchEntries args = some (rf', reply, go)) :
    (rf' = rf.persist ∧ reply.success = false ∧ reply.term = rf.currentTerm ∧ go = false) ∨
    (args.prevLogIndex ≤ rf.getLastLogicalIndex ∧
      (0 < args.prevLogIndex - rf.lastIncludedIndex →
        rf.termAt (args.prevLogIndex - rf.lastIncludedIndex) = some args.prevLogTerm) ∧
      rf.storeEntries args (args.prevLogIndex - rf.lastIncludedIndex) = some (rf', reply, go)) := by
  unfold matchEntries convertToStorageIndex at h
  split at h
  · simp only [Option.some.injEq, Prod.mk.injEq] at h
    obtain ⟨rfl, rfl, rfl⟩ := h
    exact .inl ⟨rfl, rfl, rfl, rfl⟩
  rename_i hle
  dsimp only at h
  split at h
  · split at h
    · cases h
    rename_i t ht
    split at h
    · obtain ⟨k, -, hk⟩ := Option.map_eq_some_iff.mp h
      simp only [Prod.mk.injEq] at hk
      obtain ⟨rfl, rfl, rfl⟩ := hk
      exact .inl ⟨rfl, rfl, rfl, rfl⟩
    · rename_i hne
      exact .inr ⟨by omega, fun _ => by rw [ht]; simpa using hne, h⟩
  · rename_i hidx
    exact .inr ⟨by omega, fun hpos => absurd hpos (by omega), h⟩

theorem appendEntries_eq (rf : Raft n C S) (args : AppendEntriesArgs n C) :
    rf.appendEntries args =
      if args.term < rf.currentTerm then some (rf.persist, ⟨rf.currentTerm, false, 0, 0⟩, false)
      else (rf.follow args.term).matchEntries args := by
  unfold appendEntries follow
  split
  · rfl
  · split <;> rfl

theorem appendEntries_cases {args : AppendEntriesArgs n C} {reply : AppendEntriesReply} {go : Bool}
    (h : rf.appendEntries args = some (rf', reply, go)) :
    (args.term < rf.currentTerm ∧ rf' = rf.persist ∧ reply = ⟨rf.currentTerm, false, 0, 0⟩ ∧
      go = false) ∨
    (rf.currentTerm ≤ args.term ∧ rf' = (rf.follow args.term).persist ∧ reply.success = false ∧
      reply.term = args.term ∧ go = false) ∨
    (rf.currentTerm ≤ args.term ∧ args.prevLogIndex ≤ rf.getLastLogicalIndex ∧
      0 ≤ args.prevLogIndex - rf.lastIncludedIndex + 1 ∧
      (0 < args.prevLogIndex - rf.lastIncludedIndex →
        rf.termAt (args.prevLogIndex - rf.lastIncludedIndex) = some args.prevLogTerm) ∧
      rf' = (rf.stored args).persist ∧ reply = ⟨args.term, true, 0, 0⟩ ∧
      go = decide (args.leaderCommit > rf.commitIndex)) := by
  rcases lt_or_ge args.term rf.currentTerm with hlt | hle
  · rw [appendEntries_eq, if_pos hlt] at h
    simp only [Option.some.injEq, Prod.mk.injEq] at h
    obtain ⟨rfl, rfl, rfl⟩ := h
    exact .inl ⟨hlt, rfl, rfl, rfl⟩
  rw [appendEntries_eq, if_neg (by omega)] at h
  rcases matchEntries_cases h with ⟨rfl, hs, ht, hgo⟩ | ⟨hle', hterm, hst⟩
  · exact .inr (.inl ⟨hle, rfl, hs, by rw [ht, follow_currentTerm hle], hgo⟩)
  · obtain ⟨h0, -, hrf, hrep, hgo⟩ := storeEntries_eq_some hst
    simp only [follow_lastIncludedIndex, follow_logs, follow_commitIndex, getLastLogicalIndex,
      termAt] at hle' hterm h0 hrf hgo
    exact .inr (.inr ⟨hle, hle', h0, hterm, by simpa [stored, newCommit] using hrf, hrep, hgo⟩)

/-- The conflict index of a refusal is not behind the request, unless the request is of an older
    term. -/
theorem appendEntries_conflict {args : AppendEntriesArgs n C} {reply : AppendEntriesReply}
    {go : Bool} (h : rf.appendEntries args = some (rf', reply, go)) (hs : reply.success = false) :
    args.term < reply.term ∨ reply.conflictIndex ≤ args.prevLogIndex := by
  rw [appendEntries_eq] at h
  split at h
  · rename_i hlt
    simp only [Option.some.injEq, Prod.mk.injEq] at h
    obtain ⟨-, rfl, -⟩ := h
    exact .inl hlt
  refine .inr ?_
  unfold matchEntries convertToStorageIndex convertToLogicalIndex at h
  split at h
  · rename_i hgt
    simp only [Option.some.injEq, Prod.mk.injEq] at h
    obtain ⟨-, rfl, -⟩ := h
    exact hgt.le
  dsimp only at h
  have hstore : ∀ {index : ℤ}, (rf.follow args.term).storeEntries args index ≠
      some (rf', reply, go) := by
    intro index hst
    obtain ⟨-, -, -, rfl, -⟩ := storeEntries_eq_some hst
    cases hs
  split at h
  · rename_i hpos
    split at h
    · cases h
    rename_i t ht
    split at h
    · -- the scan leaves the entry that conflicts
      obtain ⟨m, hm, heq⟩ := Option.map_eq_some_iff.mp h
      simp only [Prod.mk.injEq] at heq
      obtain ⟨-, rfl, -⟩ := heq
      obtain ⟨e, he, rfl⟩ := Option.map_eq_some_iff.mp ht
      obtain ⟨-, hidx⟩ := Slice.index_eq_some.mp he
      obtain ⟨m', hm', hle, -, hend⟩ := conflictScan_spec (t := e.term)
        (List.getElem?_eq_some_iff.mp hidx).1
      obtain rfl := Option.some.inj (hm.symm.trans hm')
      have hlt : m < (args.prevLogIndex - (rf.follow args.term).lastIncludedIndex).toNat := by
        rcases hend with rfl | ⟨e', he', hlt⟩
        · omega
        · refine lt_of_le_of_ne hle fun heq => ?_
          rw [heq, hidx, Option.some.injEq] at he'
          exact absurd hlt (he' ▸ lt_irrefl _)
      dsimp only
      omega
    · exact absurd h hstore
  · exact absurd h hstore

theorem quiet_appendEntries {args : AppendEntriesArgs n C} {reply : AppendEntriesReply} {go : Bool}
    (h : rf.appendEntries args = some (rf', reply, go)) : Quiet rf rf' := by
  rcases appendEntries_cases h with ⟨-, rfl, -⟩ | ⟨-, rfl, -⟩ | ⟨-, -, -, -, rfl, -⟩
  · exact .refl rf
  · exact quiet_follow
  · exact quiet_follow

/-- What `genAppendEntries` sends: the log from `nextIndex[server]` on and the entry before it. -/
theorem genAppendEntries_eq_some {server : Fin n} {args : AppendEntriesArgs n C} {isSnapshot : Bool}
    (h : rf.genAppendEntries server = some (args, isSnapshot)) :
    args.term = rf.currentTerm ∧ args.leaderId = rf.me ∧
    (isSnapshot = false → rf.lastIncludedIndex ≤ args.prevLogIndex ∧
      args.prevLogIndex + 1 - rf.lastIncludedIndex ≤ rf.logs.length ∧
      rf.termAt (args.prevLogIndex - rf.lastIncludedIndex) = some args.prevLogTerm ∧
      args.entries = rf.logs.drop (args.prevLogIndex + 1 - rf.lastIncludedIndex).toNat ∧
      args.leaderCommit = rf.commitIndex) := by
  unfold genAppendEntries convertToStorageIndex at h
  dsimp only at h
  split at h
  · simp only [Option.some.injEq, Prod.mk.injEq] at h
    obtain ⟨rfl, rfl⟩ := h
    exact ⟨rfl, rfl, by simp⟩
  rename_i hlt
  rw [if_neg (by omega)] at h
  split at h
  · rename_i t entries ht he
    simp only [Option.some.injEq, Prod.mk.injEq] at h
    obtain ⟨rfl, rfl⟩ := h
    obtain ⟨h0, h1, rfl⟩ := Slice.dropFrom_eq_some.mp he
    exact ⟨rfl, rfl, fun _ => ⟨by simpa using hlt, by simpa using h1, ht, by simp, rfl⟩⟩
  · cases h

/-! ### The leader's side -/

theorem backUp_eq_some {server : Fin n} {reply : AppendEntriesReply}
    (h : rf.backUp server reply = some rf') :
    ∃ x, rf' = { rf with nextIndex := Function.update rf.nextIndex server x } := by
  unfold backUp at h
  split at h
  · dsimp only at h
    split at h
    · cases h
    · split at h <;> cases h <;> exact ⟨_, rfl⟩
  · cases h; exact ⟨_, rfl⟩

/-- The leader's scan stays within the log and stops at the last entry whose term is not larger. -/
theorem backtrack_stops {logs : List (LogEntry C)} {t : ℤ} : ∀ {k : ℕ}, k ≤ logs.length →
    ∃ x, backtrack logs t k = some x ∧ x < k ∧
      (x = -1 ∨ ∃ (m : ℕ) (e : LogEntry C), x = m ∧ logs[m]? = some e ∧ e.term ≤ t) ∧
      ∀ (j : ℕ) (e : LogEntry C), x < j → j < k → logs[j]? = some e → t < e.term
  | 0, _ => ⟨-1, rfl, by decide, .inl rfl, fun j e _ hj => absurd hj j.not_lt_zero⟩
  | k + 1, hk => by
    have hget : logs[k]? = some (logs.get ⟨k, hk⟩) := List.getElem?_eq_getElem hk
    rw [backtrack, hget]
    by_cases hgt : (logs.get ⟨k, hk⟩).term > t
    · obtain ⟨x, hx, hlt, hstop, hall⟩ := backtrack_stops (t := t) (Nat.le_of_succ_le hk)
      refine ⟨x, by simpa only [if_pos hgt] using hx, by push_cast; omega, hstop,
        fun j e hxj hjk he => ?_⟩
      rcases Nat.lt_succ_iff_lt_or_eq.mp hjk with hjk | rfl
      · exact hall j e hxj hjk he
      · rw [hget] at he
        exact Option.some.inj he ▸ hgt
    · exact ⟨k, by simp only [if_neg hgt], by push_cast; omega,
        .inr ⟨k, _, rfl, hget, not_lt.mp hgt⟩, fun j e hkj hjk => by omega⟩

/-- `nextIndex[server]` goes back to the conflict index, or below where it was; the others stay. -/
theorem exists_backUp {server : Fin n} (reply : AppendEntriesReply)
    (hnext : rf.nextIndex server ≤ rf.getLastLogicalIndex + 1) :
    ∃ x, rf.backUp server reply
        = some { rf with nextIndex := Function.update rf.nextIndex server x } ∧
      (x = reply.conflictIndex ∨ x ≤ rf.nextIndex server - rf.lastIncludedIndex) := by
  unfold backUp
  split
  · rw [getLastLogicalIndex] at hnext
    have hk : (rf.convertToStorageIndex (rf.nextIndex server - 1) + 1).toNat
        ≤ rf.logs.length := by
      rw [convertToStorageIndex]
      omega
    obtain ⟨x, hx, hlt, -⟩ := backtrack_stops (t := reply.conflictTerm) hk
    simp only [hx]
    rw [convertToStorageIndex] at hlt
    split
    · exact ⟨x + 1, rfl, .inr (by omega)⟩
    · exact ⟨_, rfl, .inl rfl⟩
  · exact ⟨_, rfl, .inl rfl⟩

/-- `advanceCommit` stops at an index of the current term that a majority holds, or changes
    nothing. -/
theorem advanceCommit_cases : ∀ {k : ℕ} {go : Bool}, rf.advanceCommit k = some (rf', go) →
    (rf' = rf ∧ go = false) ∨
    (go = true ∧ ∃ idx t, rf.commitIndex < idx ∧ idx ≤ rf.commitIndex + k ∧
      rf.termAt (idx - rf.lastIncludedIndex) = some t ∧ n / 2 < rf.replicaCount idx t ∧
      rf' = { rf with commitIndex := idx })
  | 0, go, h => by
    simp only [advanceCommit, Option.some.injEq, Prod.mk.injEq] at h
    exact .inl ⟨h.1.symm, h.2.symm⟩
  | k + 1, go, h => by
    rw [advanceCommit, convertToStorageIndex] at h
    split at h
    · cases h
    rename_i t ht
    split at h
    · rename_i hcount
      simp only [Option.some.injEq, Prod.mk.injEq] at h
      exact .inr ⟨h.2.symm, _, t, by push_cast; omega, le_rfl, ht, hcount, h.1.symm⟩
    · rcases advanceCommit_cases h with h' | ⟨hgo, idx, t', h1, h2, h'⟩
      · exact .inl h'
      · exact .inr ⟨hgo, idx, t', h1, by push_cast; omega, h'⟩

/-- The commit loop stays within the log. -/
theorem exists_advanceCommit (rf : Raft n C S) (hlii : rf.lastIncludedIndex ≤ rf.commitIndex + 1) :
    ∀ {k : ℕ}, (0 < k → rf.commitIndex + k ≤ rf.getLastLogicalIndex) →
      ∃ r, rf.advanceCommit k = some r
  | 0, _ => ⟨_, rfl⟩
  | k + 1, hk => by
    have hk := hk k.succ_pos
    have hlast : rf.getLastLogicalIndex = (rf.logs.length : ℤ) - 1 + rf.lastIncludedIndex := rfl
    obtain ⟨e, he⟩ := Slice.index_isSome (s := rf.logs)
      (i := rf.commitIndex + (k + 1 : ℕ) - rf.lastIncludedIndex) (by omega) (by omega)
    obtain ⟨r, hr⟩ := rf.exists_advanceCommit hlii (k := k) fun _ => by omega
    simp only [advanceCommit, termAt, convertToStorageIndex, he, Option.map_some, hr]
    split
    · exact ⟨_, rfl⟩
    · exact ⟨r, rfl⟩

/-- The leader after a successful reply, before it looks for a new `commitIndex`. -/
def matched (rf : Raft n C S) (server : Fin n) (args : AppendEntriesArgs n C) : Raft n C S :=
  { rf with
    nextIndex := Function.update rf.nextIndex server (rf.getLastLogicalIndex + 1)
    matchIndex := Function.update rf.matchIndex server
      (args.prevLogIndex + args.entries.length) }

theorem handleAppendEntries_cases {server : Fin n} {args : AppendEntriesArgs n C}
    {reply : AppendEntriesReply} {go : Bool}
    (h : rf.handleAppendEntries server args reply = some (rf', go)) :
    (rf.role ≠ .Leader ∧ rf' = rf.persist ∧ go = false) ∨
    (rf.role = .Leader ∧ rf.currentTerm < reply.term ∧ rf' = (rf.stepDown reply.term).persist ∧
      go = false) ∨
    (rf.role = .Leader ∧ reply.term ≤ rf.currentTerm ∧ reply.success = false ∧
      (∃ x, rf' = { rf with nextIndex := Function.update rf.nextIndex server x }.persist) ∧
      go = false) ∨
    (rf.role = .Leader ∧ reply.term ≤ rf.currentTerm ∧ reply.success = true ∧
      ∃ idx, rf' = { rf.matched server args with commitIndex := idx }.persist ∧
        (idx = rf.commitIndex ∧ go = false ∨
          go = true ∧ rf.commitIndex < idx ∧ idx ≤ rf.getLastLogicalIndex ∧
          ∃ t, rf.termAt (idx - rf.lastIncludedIndex) = some t ∧
            n / 2 < (rf.matched server args).replicaCount idx t)) := by
  unfold handleAppendEntries at h
  split at h
  · simp only [Option.some.injEq, Prod.mk.injEq] at h
    exact .inl ⟨by assumption, h.1.symm, h.2.symm⟩
  rename_i hrole
  rw [not_not] at hrole
  refine .inr ?_
  split at h
  · simp only [Option.some.injEq, Prod.mk.injEq] at h
    exact .inl ⟨hrole, by assumption, h.1.symm, h.2.symm⟩
  rename_i hterm
  refine .inr ?_
  split at h
  · rename_i hs
    obtain ⟨rf1, hb, heq⟩ := Option.map_eq_some_iff.mp h
    obtain ⟨x, rfl⟩ := backUp_eq_some hb
    simp only [Prod.mk.injEq] at heq
    exact .inl ⟨hrole, by omega, hs, ⟨x, heq.1.symm⟩, heq.2.symm⟩
  · rename_i hs
    obtain ⟨⟨rf1, go1⟩, hb, heq⟩ := Option.map_eq_some_iff.mp h
    simp only [Prod.mk.injEq] at heq
    obtain ⟨rfl, rfl⟩ := heq
    refine .inr ⟨hrole, by omega, by simpa using hs, ?_⟩
    rcases advanceCommit_cases hb with ⟨rfl, rfl⟩ | ⟨rfl, idx, t, h1, h2, h3, h4, rfl⟩
    · exact ⟨rf.commitIndex, rfl, .inl ⟨rfl, rfl⟩⟩
    · refine ⟨idx, rfl, .inr ⟨rfl, h1, ?_, t, h3, h4⟩⟩
      simp only [getLastLogicalIndex] at h2 ⊢
      dsimp only at h1
      omega

/-- A leader handles a rejection of its own term by moving `nextIndex[server]`. -/
theorem handleAppendEntries_rejected {server : Fin n} {args : AppendEntriesArgs n C}
    {reply : AppendEntriesReply} (hrole : rf.role = .Leader)
    (hterm : reply.term ≤ rf.currentTerm) (hno : reply.success = false) :
    rf.handleAppendEntries server args reply
      = (rf.backUp server reply).map fun rf => (rf.persist, false) := by
  rw [handleAppendEntries, if_neg (not_not.mpr hrole), if_neg (not_lt.mpr hterm), if_pos hno]

theorem handleAppendEntries_eq_of_success (rf : Raft n C S) (server : Fin n)
    (args : AppendEntriesArgs n C) {reply : AppendEntriesReply} (h : reply.success = true) :
    rf.handleAppendEntries server args reply =
      if rf.role ≠ .Leader then some (rf.persist, false)
      else if reply.term > rf.currentTerm then some ((rf.stepDown reply.term).persist, false)
      else ((rf.matched server args).advanceCommit
        (rf.getLastLogicalIndex - rf.commitIndex).toNat).map fun x => (x.1.persist, x.2) := by
  unfold handleAppendEntries
  rw [h]
  rfl

theorem quiet_handleAppendEntries {server : Fin n} {args : AppendEntriesArgs n C}
    {reply : AppendEntriesReply} {go : Bool}
    (h : rf.handleAppendEntries server args reply = some (rf', go)) : Quiet rf rf' := by
  rcases handleAppendEntries_cases h with ⟨-, rfl, -⟩ | ⟨-, ht, rfl, -⟩ |
    ⟨-, -, -, ⟨x, rfl⟩, -⟩ | ⟨-, -, -, idx, rfl, -⟩
  · exact .refl rf
  · exact quiet_persist_stepDown ht
  · exact .refl rf
  · exact .refl rf

/-! ### Applying -/

/-- The messages are commands with the indices `i`, `i + 1` and so on. -/
def Batch (i : ℤ) : List (ApplyMsg C S) → Prop
  | [] => True
  | m :: msgs => (∃ c, m = .command c i) ∧ Batch (i + 1) msgs

theorem applyRange_batch : ∀ {k : ℕ} {i : ℤ} {msgs : List (ApplyMsg C S)},
    rf.applyRange k i = some msgs → Batch i msgs ∧ msgs.length = k
  | 0, i, msgs, h => by
    obtain rfl := Option.some.inj h
    exact ⟨trivial, rfl⟩
  | k + 1, i, msgs, h => by
    rw [applyRange] at h
    split at h
    · rename_i e rest he hrest
      obtain rfl := Option.some.inj h
      obtain ⟨hbatch, hlen⟩ := applyRange_batch hrest
      exact ⟨⟨⟨e.command, rfl⟩, hbatch⟩, by rw [List.length_cons, hlen]⟩
    · cases h

/-- The batch of `applyLogs` goes from `lastApplied` to `commitIndex`. -/
theorem applyLogs_batch {msgs : List (ApplyMsg C S)} (h : rf.applyLogs = some (some msgs)) :
    rf.lastIncludedIndex ≤ rf.lastApplied ∧ Batch (rf.lastApplied + 1) msgs ∧
      (msgs = [] ∨ rf.lastApplied + msgs.length = rf.commitIndex) := by
  unfold applyLogs at h
  split at h
  · cases h
  rename_i hlii
  refine ⟨not_lt.mp hlii, ?_⟩
  split at h
  · obtain rfl := Option.some.inj (Option.some.inj h)
    exact ⟨trivial, .inl rfl⟩
  · obtain ⟨msgs', hr, heq⟩ := Option.map_eq_some_iff.mp h
    obtain rfl := Option.some.inj heq
    obtain ⟨hbatch, hlen⟩ := applyRange_batch hr
    exact ⟨hbatch, .inr (by omega)⟩

theorem Batch.mem : ∀ {i : ℤ} {msgs : List (ApplyMsg C S)}, Batch i msgs → ∀ m ∈ msgs,
    ∃ c j, m = .command c j ∧ i ≤ j ∧ j < i + msgs.length
  | i, [], _, m, hm => by cases hm
  | i, a :: msgs, h, m, hm => by
    rcases List.mem_cons.mp hm with rfl | hm
    · obtain ⟨c, rfl⟩ := h.1
      exact ⟨c, i, rfl, le_rfl, by rw [List.length_cons]; push_cast; omega⟩
    · obtain ⟨c, j, rfl, hle, hlt⟩ := Batch.mem h.2 m hm
      exact ⟨c, j, rfl, by omega, by rw [List.length_cons]; push_cast; omega⟩

/-! ### Snapshots -/

/-- A log that is cut at `index` still ends where it did. -/
theorem getLastLogicalIndex_of_drop {index : ℤ} {e marker : LogEntry C}
    {rest : List (LogEntry C)} (hlow : rf.lastIncludedIndex ≤ index)
    (hdrop : rf.logs.drop (index - rf.lastIncludedIndex).toNat = e :: rest)
    (hlogs : rf'.logs = marker :: rest) (hindex : rf'.lastIncludedIndex = index) :
    rf'.getLastLogicalIndex = rf.getLastLogicalIndex := by
  have hlen := congrArg List.length hdrop
  rw [List.length_drop, List.length_cons] at hlen
  rw [getLastLogicalIndex, getLastLogicalIndex, hlogs, hindex, List.length_cons]
  push_cast
  omega

theorem termAt_isSome (rf : Raft n C S) {i : ℤ} (h0 : 0 ≤ i) (h : i < rf.logs.length) :
    ∃ t, rf.termAt i = some t := by
  obtain ⟨e, he⟩ := Slice.index_isSome h0 h
  exact ⟨e.term, by rw [termAt, he]; rfl⟩

/-- `Snapshot` does not panic on an index the log reaches. -/
theorem snapshotTo_isSome {index : ℤ} (h : index ≤ rf.getLastLogicalIndex) (data : Option S) :
    ∃ rf', rf.snapshotTo index data = some rf' := by
  unfold snapshotTo convertToStorageIndex
  split
  · exact ⟨rf, rfl⟩
  rename_i hlt
  rw [getLastLogicalIndex] at h
  obtain ⟨t, ht⟩ := termAt_isSome rf (i := index - rf.lastIncludedIndex) (by omega) (by omega)
  have hdrop : Slice.dropFrom rf.logs (index - rf.lastIncludedIndex)
      = some (rf.logs.drop (index - rf.lastIncludedIndex).toNat) :=
    Slice.dropFrom_eq_some.mpr ⟨by omega, by omega, rfl⟩
  have hne : rf.logs.drop (index - rf.lastIncludedIndex).toNat ≠ [] := by
    rw [Ne, List.drop_eq_nil_iff]
    omega
  obtain ⟨e, rest, heq⟩ := List.exists_cons_of_ne_nil hne
  rw [ht, hdrop, heq]
  exact ⟨_, rfl⟩

theorem snapshotTo_cases {index : ℤ} {data : Option S} (h : rf.snapshotTo index data = some rf') :
    (index ≤ rf.lastIncludedIndex ∧ rf' = rf) ∨
    (rf.lastIncludedIndex < index ∧ index ≤ rf.getLastLogicalIndex ∧
      ∃ e rest, rf.logs.drop (index - rf.lastIncludedIndex).toNat = e :: rest ∧
        rf' = { rf with
          lastIncludedTerm := e.term
          logs := { term := e.term, command := none } :: rest
          lastIncludedIndex := index
          snapshot := data }.persist) := by
  unfold snapshotTo convertToStorageIndex at h
  split at h
  · exact .inl ⟨by assumption, by simpa [eq_comm] using h⟩
  rename_i hlt
  split at h
  · rename_i t tmp ht htmp
    obtain ⟨logs, hl, rfl⟩ := Option.map_eq_some_iff.mp h
    obtain ⟨e, rest, rfl, rfl⟩ := Slice.modifyHead_eq_some.mp hl
    obtain ⟨h0, h1, h2⟩ := Slice.dropFrom_eq_some.mp htmp
    obtain ⟨e', he', rfl⟩ := Option.map_eq_some_iff.mp ht
    obtain ⟨-, hidx⟩ := Slice.index_eq_some.mp he'
    have hhead : rf.logs[(index - rf.lastIncludedIndex).toNat]? = some e := by
      have := congrArg (·[0]?) h2
      simpa using this.symm
    rw [hhead] at hidx
    cases hidx
    have hlen : (index - rf.lastIncludedIndex).toNat < rf.logs.length :=
      (List.getElem?_eq_some_iff.mp hhead).1
    refine .inr ⟨by omega, ?_, e, rest, h2.symm, rfl⟩
    rw [getLastLogicalIndex]; omega
  · cases h

theorem quiet_snapshotTo {index : ℤ} {data : Option S} (h : rf.snapshotTo index data = some rf') :
    Quiet rf rf' := by
  rcases snapshotTo_cases h with ⟨-, rfl⟩ | ⟨-, -, e, rest, -, rfl⟩
  · exact .refl _
  · exact .refl rf

theorem condInstallSnapshot_cases {t i : ℤ} (h : rf.condInstallSnapshot t i = some rf') :
    ∃ rest, rf' = { rf with
        logs := { term := t, command := none } :: rest
        lastIncludedIndex := i
        lastIncludedTerm := t
        lastApplied := i
        commitIndex := i }.persist ∧
      (rf.getLastLogicalIndex < i ∧ rest = [] ∨
        rf.lastIncludedIndex ≤ i ∧ i ≤ rf.getLastLogicalIndex ∧
          ∃ e, rf.logs.drop (i - rf.lastIncludedIndex).toNat = e :: rest) := by
  obtain ⟨logs, hl, rfl⟩ := Option.map_eq_some_iff.mp h
  obtain ⟨trimmed, htrim, hmod⟩ := Option.bind_eq_some_iff.mp hl
  obtain ⟨a, rest, rfl, rfl⟩ := Slice.modifyHead_eq_some.mp hmod
  split at htrim
  · rename_i hgt
    obtain ⟨rfl, rfl⟩ := List.cons.inj (Option.some.inj htrim)
    exact ⟨[], rfl, .inl ⟨hgt, rfl⟩⟩
  · rename_i hle
    obtain ⟨d, hd, hmod'⟩ := Option.bind_eq_some_iff.mp htrim
    obtain ⟨e, r, rfl, heq⟩ := Slice.modifyHead_eq_some.mp hmod'
    obtain ⟨rfl, rfl⟩ := List.cons.inj heq
    obtain ⟨h0, -, hdrop⟩ := Slice.dropFrom_eq_some.mp hd
    exact ⟨rest, rfl, .inr ⟨by omega, by omega, e, hdrop.symm⟩⟩

theorem quiet_condInstallSnapshot {t i : ℤ} (h : rf.condInstallSnapshot t i = some rf') :
    Quiet rf rf' := by
  obtain ⟨rest, rfl, -⟩ := condInstallSnapshot_cases h
  exact .refl rf

/-- An accepted `InstallSnapshot`. -/
def installed (rf : Raft n C S) (args : InstallSnapshotArgs n S) (logs : List (LogEntry C)) :
    Raft n C S :=
  { rf.meet args.term with
    logs := logs
    lastIncludedIndex := args.lastIncludedIndex
    lastIncludedTerm := args.lastIncludedTerm
    snapshot := args.data
    lastApplied := args.lastIncludedIndex
    commitIndex := if rf.commitIndex < args.lastIncludedIndex then args.lastIncludedIndex
      else rf.commitIndex }

theorem installed_commitIndex {args : InstallSnapshotArgs n S} {logs : List (LogEntry C)} :
    (rf.installed args logs).commitIndex = max rf.commitIndex args.lastIncludedIndex := by
  simp only [installed]
  split <;> omega

theorem getLastLogicalIndex_installed {args : InstallSnapshotArgs n S} {marker : LogEntry C} :
    (rf.installed args [marker]).persist.getLastLogicalIndex = args.lastIncludedIndex := by
  simp [getLastLogicalIndex, installed]

/-- The log is cut at the snapshot, or replaced by one that ends there. -/
theorem getLastLogicalIndex_trimmed {args : InstallSnapshotArgs n S} {logs : List (LogEntry C)}
    (hlow : rf.lastIncludedIndex ≤ args.lastIncludedIndex)
    (htrim : rf.getLastLogicalIndex ≤ args.lastIncludedIndex ∧
        logs = [⟨args.lastIncludedTerm, none⟩] ∨
      args.lastIncludedIndex < rf.getLastLogicalIndex ∧
        ∃ e rest, rf.logs.drop (args.lastIncludedIndex - rf.lastIncludedIndex).toNat = e :: rest ∧
          logs = ⟨0, none⟩ :: rest) :
    (rf.installed args logs).persist.getLastLogicalIndex
      = max rf.getLastLogicalIndex args.lastIncludedIndex := by
  rcases htrim with ⟨hle, rfl⟩ | ⟨hlt, e, rest, hdrop, rfl⟩
  · rw [getLastLogicalIndex_installed, max_eq_right hle]
  · rw [max_eq_left hlt.le]
    exact getLastLogicalIndex_of_drop hlow hdrop rfl rfl

theorem trimToSnapshot_cases {args : InstallSnapshotArgs n S} {r reply : InstallSnapshotReply}
    {msg : Option (ApplyMsg C S)} (h : rf.trimToSnapshot args r = some (rf', reply, msg)) :
    reply = r ∧
    (((args.lastIncludedIndex ≤ rf.lastIncludedIndex ∨
          args.lastIncludedIndex ≤ rf.lastApplied) ∧ rf' = rf.persist ∧ msg = none) ∨
      (rf.lastIncludedIndex < args.lastIncludedIndex ∧ rf.lastApplied < args.lastIncludedIndex ∧
        msg = some (.snapshot args.data args.lastIncludedTerm args.lastIncludedIndex) ∧
        ∃ logs, (rf.getLastLogicalIndex ≤ args.lastIncludedIndex ∧
              logs = [{ term := args.lastIncludedTerm, command := none }] ∨
            args.lastIncludedIndex < rf.getLastLogicalIndex ∧
              ∃ e rest, rf.logs.drop (args.lastIncludedIndex - rf.lastIncludedIndex).toNat
                  = e :: rest ∧ logs = { term := 0, command := none } :: rest) ∧
          rf' = { rf with
            logs := logs
            lastIncludedIndex := args.lastIncludedIndex
            lastIncludedTerm := args.lastIncludedTerm
            snapshot := args.data
            lastApplied := args.lastIncludedIndex
            commitIndex := if rf.commitIndex < args.lastIncludedIndex then args.lastIncludedIndex
              else rf.commitIndex }.persist)) := by
  unfold trimToSnapshot convertToStorageIndex at h
  split at h
  · simp only [Option.some.injEq, Prod.mk.injEq] at h
    exact ⟨h.2.1.symm, .inl ⟨by assumption, h.1.symm, h.2.2.symm⟩⟩
  rename_i hnew
  rw [not_or] at hnew
  obtain ⟨logs, hl, heq⟩ := Option.map_eq_some_iff.mp h
  simp only [Prod.mk.injEq] at heq
  refine ⟨heq.2.1.symm, .inr ⟨by omega, by omega, heq.2.2.symm, logs, ?_, heq.1.symm⟩⟩
  split at hl
  · exact .inl ⟨by assumption, by simpa [eq_comm] using hl⟩
  · obtain ⟨tmp, htmp, hmod⟩ := Option.bind_eq_some_iff.mp hl
    obtain ⟨e, rest, rfl, rfl⟩ := Slice.modifyHead_eq_some.mp hmod
    exact .inr ⟨by omega, e, rest, (Slice.dropFrom_eq_some.mp htmp).2.2.symm, rfl⟩

theorem installSnapshot_cases {args : InstallSnapshotArgs n S} {reply : InstallSnapshotReply}
    {msg : Option (ApplyMsg C S)} (h : rf.installSnapshot args = some (rf', reply, msg)) :
    (args.term < rf.currentTerm ∧ rf' = rf ∧ reply = ⟨rf.currentTerm⟩ ∧ msg = none) ∨
    (rf.currentTerm ≤ args.term ∧ reply.term ≤ max args.term 0 ∧
      ((args.lastIncludedIndex ≤ rf.lastIncludedIndex ∨ args.lastIncludedIndex ≤ rf.lastApplied) ∧
          rf' = (rf.meet args.term).persist ∧ msg = none ∨
        rf.lastIncludedIndex < args.lastIncludedIndex ∧ rf.lastApplied < args.lastIncludedIndex ∧
          msg = some (.snapshot args.data args.lastIncludedTerm args.lastIncludedIndex) ∧
          ∃ logs, (rf.getLastLogicalIndex ≤ args.lastIncludedIndex ∧
              logs = [{ term := args.lastIncludedTerm, command := none }] ∨
            args.lastIncludedIndex < rf.getLastLogicalIndex ∧
              ∃ e rest, rf.logs.drop (args.lastIncludedIndex - rf.lastIncludedIndex).toNat
                  = e :: rest ∧ logs = { term := 0, command := none } :: rest) ∧
            rf' = (rf.installed args logs).persist)) := by
  rcases lt_or_ge args.term rf.currentTerm with hlt | hle
  · rw [installSnapshot, if_pos hlt] at h
    simp only [Option.some.injEq, Prod.mk.injEq] at h
    exact .inl ⟨hlt, h.1.symm, h.2.1.symm, h.2.2.symm⟩
  have hm : ∃ r : InstallSnapshotReply, r.term ≤ max args.term 0 ∧
      (rf.meet args.term).trimToSnapshot args r = some (rf', reply, msg) := by
    rw [installSnapshot, if_neg (by omega)] at h
    unfold meet
    split <;> rename_i hgt
    · exact ⟨_, le_max_left .., by rwa [if_pos hgt] at h⟩
    · exact ⟨_, le_max_right .., by rwa [if_neg hgt] at h⟩
  obtain ⟨r, hr, hm⟩ := hm
  obtain ⟨rfl, hcases⟩ := trimToSnapshot_cases hm
  simp only [meet_lastIncludedIndex, meet_lastApplied, meet_logs, meet_commitIndex,
    getLastLogicalIndex] at hcases
  exact .inr ⟨hle, hr, hcases⟩

theorem quiet_meet {t : ℤ} : Quiet rf (rf.meet t) := by
  unfold meet
  split
  · exact ⟨rfl, .inr ⟨by assumption, rfl, rfl⟩⟩
  · exact .refl rf

theorem quiet_installSnapshot {args : InstallSnapshotArgs n S} {reply : InstallSnapshotReply}
    {msg : Option (ApplyMsg C S)} (h : rf.installSnapshot args = some (rf', reply, msg)) :
    Quiet rf rf' := by
  rcases installSnapshot_cases h with ⟨-, rfl, -⟩ |
    ⟨-, -, ⟨-, rfl, -⟩ | ⟨-, -, -, logs, -, rfl⟩⟩
  · exact .refl _
  · exact quiet_meet
  · exact quiet_meet

theorem handleInstallSnapshot_cases (rf : Raft n C S) (server : Fin n)
    (args : InstallSnapshotArgs n S) (reply : InstallSnapshotReply) :
    rf.handleInstallSnapshot server args reply = rf ∨
    (rf.role = .Leader ∧ rf.currentTerm = args.term ∧
      (rf.currentTerm < reply.term ∧
          rf.handleInstallSnapshot server args reply = (rf.stepDown reply.term).persist ∨
        reply.term ≤ rf.currentTerm ∧ rf.nextIndex server ≤ args.lastIncludedIndex ∧
          rf.handleInstallSnapshot server args reply = { rf with
            nextIndex := Function.update rf.nextIndex server (args.lastIncludedIndex + 1)
            matchIndex := Function.update rf.matchIndex server args.lastIncludedIndex })) := by
  unfold handleInstallSnapshot
  split
  · exact .inl rfl
  rename_i hc
  rw [not_or, not_not, not_not] at hc
  split
  · exact .inr ⟨hc.1, hc.2, .inl ⟨by assumption, rfl⟩⟩
  · split
    · exact .inr ⟨hc.1, hc.2, .inr ⟨by omega, by assumption, rfl⟩⟩
    · exact .inl rfl

theorem quiet_handleInstallSnapshot (rf : Raft n C S) (server : Fin n)
    (args : InstallSnapshotArgs n S) (reply : InstallSnapshotReply) :
    Quiet rf (rf.handleInstallSnapshot server args reply) := by
  rcases handleInstallSnapshot_cases rf server args reply with h | ⟨-, -, ⟨ht, h⟩ | ⟨-, -, h⟩⟩ <;>
    rw [h]
  · exact .refl rf
  · exact quiet_persist_stepDown ht
  · exact .refl rf

end DistLabs.Raft
