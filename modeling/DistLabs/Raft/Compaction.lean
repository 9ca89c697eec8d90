import DistLabs.Raft.WholeLog
import DistLabs.Raft.Moves
import DistLabs.Schemes.Run

/-! # Compaction cannot be seen

    A peer and a reference peer take the same local operations, but the reference ignores every call
    of `Snapshot`. Both logs are views of one whole log, the reference's from its start and the
    peer's from its last snapshot on, and every handler reads its log through that view: all results
    are the same, except that a peer cannot ask its leader for entries it has compacted. -/

namespace DistLabs

variable {n : ℕ} {C S : Type}

/-- One peer, with the `voteCount` variable of each of its elections. -/
structure Local (n : ℕ) (C S : Type) where
  rf : Raft n C S
  voteCounts : List ℕ

/-- The local operations: each is one section of the source. -/
inductive LocalOp (n : ℕ) (C S : Type) where
  /-- `Start` reads `GetState` -/
  | start
  /-- `Start` appends, with the term it has read -/
  | startAppend (term : ℤ) (command : Option C)
  /-- a `persist` after a section: that of `Start` or of `startElection` -/
  | persist
  | startElection
  /-- `genRequestVoteArgs`, for an election that counts from one vote -/
  | sendRequestVotes
  | voteReply (election : ℕ) (reply : RequestVoteReply)
  | requestVote (args : RequestVoteArgs n)
  | appendEntries (args : AppendEntriesArgs n C)
  | appendReply (server : Fin n) (args : AppendEntriesArgs n C) (reply : AppendEntriesReply)
  | snapshot (index : ℤ) (data : Option S)

/-- What an operation returns. -/
inductive Answer (n : ℕ) where
  | none
  | state (term : ℤ) (isLeader : Bool)
  | index (index : ℤ)
  | voteArgs (args : RequestVoteArgs n)
  | vote (reply : RequestVoteReply)
  | append (reply : AppendEntriesReply)
  deriving DecidableEq

namespace Local

/-- A peer that starts for the first time. -/
def boot (me : Fin n) : Local n C S := ⟨Raft.make me ⟨none, none⟩, []⟩

/-- One operation of a peer; `none` is a panic. -/
def on (l : Local n C S) : LocalOp n C S → Option (Local n C S × Answer n)
  | .start => some (l, .state l.rf.getState.1 l.rf.getState.2)
  | .startAppend term command =>
    let (rf, index) := l.rf.startAppend term command
    some ({ l with rf := rf }, .index index)
  | .persist => some ({ l with rf := l.rf.persist }, .none)
  | .startElection => some ({ l with rf := l.rf.startElection }, .none)
  | .sendRequestVotes =>
    l.rf.genRequestVoteArgs.map fun args =>
      ({ l with voteCounts := l.voteCounts ++ [1] }, .voteArgs args)
  | .voteReply election reply =>
    let (rf, count) := l.rf.handleRequestVote (l.voteCounts.getD election 0) reply
    some (⟨rf, l.voteCounts.set election count⟩, .none)
  | .requestVote args =>
    (l.rf.requestVote args).map fun (rf, reply) => ({ l with rf := rf }, .vote reply)
  | .appendEntries args =>
    (l.rf.appendEntries args).map fun (rf, reply, _) => ({ l with rf := rf }, .append reply)
  | .appendReply server args reply =>
    (l.rf.handleAppendEntries server args reply).map fun (rf, _) => ({ l with rf := rf }, .none)
  | .snapshot index data =>
    (l.rf.snapshotTo index data).map fun rf => ({ l with rf := rf }, .none)

/-- One operation of the reference. -/
def onReference (l : Local n C S) : LocalOp n C S → Option (Local n C S × Answer n)
  | .snapshot _ _ => some (l, .none)
  | op => l.on op

/-- One operation of both. -/
def onBoth (s : Local n C S × Local n C S) (op : LocalOp n C S) :
    Except Halt (Local n C S × Local n C S) := do
  let (l, _) ← Node.guard (s.1.on op)
  let (r, _) ← Node.guard (s.2.onReference op)
  .ok (l, r)

end Local

/-- The operations considered: no `AppendEntries` from before the last snapshot, and one that starts
    right at it has its term; only successful replies; only snapshots of what is committed. -/
def LocalOp.Allowed (rf : Raft n C S) : LocalOp n C S → Prop
  | .appendEntries args => rf.lastIncludedIndex ≤ args.prevLogIndex ∧
      (args.prevLogIndex = rf.lastIncludedIndex → rf.termAt 0 = some args.prevLogTerm)
  | .appendReply _ _ reply => reply.success = true
  | .snapshot index _ => index ≤ rf.commitIndex ∧ index ≤ rf.getLastLogicalIndex
  | _ => True

instance (rf : Raft n C S) : DecidablePred (LocalOp.Allowed rf) := fun op => by
  cases op <;> unfold LocalOp.Allowed <;> infer_instance

namespace Raft

variable {rf ref rf' ref' : Raft n C S} {full : List (LogEntry C)}

/-- The peer is the reference with the log before `lastIncludedIndex` dropped. -/
structure Refines (rf ref : Raft n C S) : Prop where
  currentTerm : rf.currentTerm = ref.currentTerm
  votedFor : rf.votedFor = ref.votedFor
  role : rf.role = ref.role
  commitIndex : rf.commitIndex = ref.commitIndex
  nextIndex : rf.nextIndex = ref.nextIndex
  matchIndex : rf.matchIndex = ref.matchIndex
  last : rf.getLastLogicalIndex = ref.getLastLogicalIndex
  base : ref.lastIncludedIndex = 0
  logs : ∃ e rest, ref.logs.drop rf.lastIncludedIndex.toNat = e :: rest ∧
    rf.logs = { e with command := none } :: rest

/-- `AppendEntries` refuses the request because of the term of the entry at `prevLogIndex`. -/
def TermConflict (rf : Raft n C S) (args : AppendEntriesArgs n C) : Prop :=
  rf.currentTerm ≤ args.term ∧ args.prevLogIndex ≤ rf.getLastLogicalIndex ∧
    0 < args.prevLogIndex - rf.lastIncludedIndex ∧
    rf.termAt (args.prevLogIndex - rf.lastIncludedIndex) ≠ some args.prevLogTerm

instance (rf : Raft n C S) (args : AppendEntriesArgs n C) : Decidable (rf.TermConflict args) :=
  inferInstanceAs (Decidable (_ ∧ _ ∧ _ ∧ _))

/-- The reply `r` of the peer and the reply `r'` of the reference: they differ at most in where a
    term conflict begins, which the peer cannot place before what it still has. -/
def RepliesAgree (rf : Raft n C S) (args : AppendEntriesArgs n C) (r r' : AppendEntriesReply) :
    Prop :=
  r.term = r'.term ∧ r.success = r'.success ∧ r.conflictTerm = r'.conflictTerm ∧
    r.conflictIndex = if rf.TermConflict args then max r'.conflictIndex (rf.lastIncludedIndex + 1)
      else r'.conflictIndex

/-- The peer and the reference are views of the log `full`. -/
structure Twins (rf ref : Raft n C S) (full : List (LogEntry C)) : Prop where
  me : rf.me = ref.me
  currentTerm : rf.currentTerm = ref.currentTerm
  votedFor : rf.votedFor = ref.votedFor
  role : rf.role = ref.role
  commitIndex : rf.commitIndex = ref.commitIndex
  nextIndex : rf.nextIndex = ref.nextIndex
  matchIndex : rf.matchIndex = ref.matchIndex
  whole : rf.Compacts full
  reference : ref.Compacts full
  base : ref.lastIncludedIndex = 0
  marker : ∃ t rest, rf.logs = ⟨t, none⟩ :: rest
  behind : rf.lastIncludedIndex ≤ rf.commitIndex

theorem Twins.last (h : Twins rf ref full) : rf.getLastLogicalIndex = ref.getLastLogicalIndex := by
  rw [h.whole.getLastLogicalIndex, h.reference.getLastLogicalIndex]

theorem Twins.refines (h : Twins rf ref full) : Refines rf ref := by
  refine ⟨h.currentTerm, h.votedFor, h.role, h.commitIndex, h.nextIndex, h.matchIndex, h.last,
    h.base, ?_⟩
  obtain ⟨k, e, hk, hle, hl, he, -⟩ := h.whole
  obtain ⟨k', d, hk', -, hl', hd, -⟩ := h.reference
  obtain rfl : k' = 0 := by have := h.base; omega
  obtain ⟨t, rest, hmark⟩ := h.marker
  rw [hl] at hmark
  obtain ⟨rfl, rfl⟩ := List.cons.inj hmark
  rw [hk, Int.toNat_natCast, hl, hl']
  rcases k with _ | k
  · exact ⟨d, full, rfl, by rw [hd, ← he]; rfl⟩
  · have hget := List.getElem?_eq_getElem (Nat.lt_of_succ_le hle)
    rw [lastTerm_take_succ hget] at he
    exact ⟨full[k], full.drop (k + 1), by simp, by rw [← he]⟩

/-! ### Roles and votes -/

theorem Twins.persist (h : Twins rf ref full) : Twins rf.persist ref.persist full :=
  ⟨h.me, h.currentTerm, h.votedFor, h.role, h.commitIndex, h.nextIndex, h.matchIndex, h.whole,
    h.reference, h.base, h.marker, h.behind⟩

theorem Twins.stepDown (h : Twins rf ref full) (t : ℤ) :
    Twins (rf.stepDown t) (ref.stepDown t) full :=
  ⟨h.me, rfl, rfl, rfl, h.commitIndex, h.nextIndex, h.matchIndex, h.whole, h.reference, h.base,
    h.marker, h.behind⟩

theorem Twins.vote (h : Twins rf ref full) (v : Option (Fin n)) :
    Twins { rf with votedFor := v } { ref with votedFor := v } full :=
  ⟨h.me, h.currentTerm, rfl, h.role, h.commitIndex, h.nextIndex, h.matchIndex, h.whole,
    h.reference, h.base, h.marker, h.behind⟩

theorem Twins.meet (h : Twins rf ref full) (t : ℤ) : Twins (rf.meet t) (ref.meet t) full := by
  unfold Raft.meet
  rw [h.currentTerm]
  split
  · exact h.stepDown t
  · exact h

theorem Twins.follow (h : Twins rf ref full) (t : ℤ) : Twins (rf.follow t) (ref.follow t) full := by
  unfold Raft.follow
  rw [h.currentTerm]
  split
  · exact h.stepDown t
  · exact ⟨h.me, h.currentTerm, h.votedFor, rfl, h.commitIndex, h.nextIndex, h.matchIndex, h.whole,
      h.reference, h.base, h.marker, h.behind⟩

theorem Twins.startElection (h : Twins rf ref full) :
    Twins rf.startElection ref.startElection full := by
  refine ⟨h.me, ?_, ?_, rfl, h.commitIndex, h.nextIndex, h.matchIndex, h.whole, h.reference, h.base,
    h.marker, h.behind⟩
  · simp only [Raft.startElection, h.currentTerm]
  · simp only [Raft.startElection, h.me]

theorem Twins.handleRequestVote (h : Twins rf ref full) (k : ℕ) (reply : RequestVoteReply) :
    Twins (rf.handleRequestVote k reply).1 (ref.handleRequestVote k reply).1 full ∧
      (rf.handleRequestVote k reply).2 = (ref.handleRequestVote k reply).2 := by
  unfold Raft.handleRequestVote
  rw [h.role, h.currentTerm]
  split
  · split
    · refine ⟨⟨h.me, h.currentTerm, h.votedFor, rfl, h.commitIndex, ?_, rfl, h.whole, h.reference,
        h.base, h.marker, h.behind⟩, rfl⟩
      simp only [convertRole, h.last]
    · exact ⟨h, rfl⟩
  · split
    · have hd := h.stepDown reply.term
      exact ⟨⟨hd.me, rfl, rfl, rfl, hd.commitIndex, hd.nextIndex, hd.matchIndex, hd.whole,
        hd.reference, hd.base, hd.marker, hd.behind⟩, rfl⟩
    · exact ⟨h, rfl⟩

theorem Twins.requestVote (h : Twins rf ref full) (args : RequestVoteArgs n) :
    ∃ rf' ref' reply, rf.requestVote args = some (rf', reply) ∧
      ref.requestVote args = some (ref', reply) ∧ Twins rf' ref' full := by
  have hmeet := h.meet args.term
  rw [requestVote_eq, requestVote_eq, hmeet.whole.isLogUpToDate_eq,
    hmeet.reference.isLogUpToDate_eq, h.currentTerm, h.votedFor, hmeet.currentTerm]
  split
  · exact ⟨_, _, _, rfl, rfl, h.persist⟩
  · exact ⟨_, _, _, rfl, rfl, (hmeet.vote _).persist⟩

/-! ### AppendEntries -/

/-- On a log without its first `k` entries the scan stops where it does on the whole one, or at the
    marker. -/
theorem conflictScan_drop {l L : List (LogEntry C)} {k : ℕ} (t : ℤ)
    (hdrop : ∀ j, l[j + 1]? = L[k + j + 1]?) : ∀ {j : ℕ}, k + j < L.length →
    ∃ m m', conflictScan l t j = some m ∧ conflictScan L t (k + j) = some m' ∧ m + k = max m' k
  | 0, hj => by
    obtain ⟨m', hm', hle, -⟩ := conflictScan_spec (t := t) hj
    exact ⟨0, m', rfl, hm', by omega⟩
  | j + 1, hj => by
    obtain ⟨m, m', hm, hm', heq⟩ := conflictScan_drop t hdrop (Nat.lt_of_succ_lt hj)
    have hlt : k + j + 1 < L.length := hj
    rw [conflictScan, hdrop, ← Nat.add_assoc, conflictScan, List.getElem?_eq_getElem hlt]
    dsimp only
    split
    · exact ⟨m, m', hm, hm', heq⟩
    · exact ⟨j + 1, k + j + 1, rfl, rfl, by omega⟩

/-- `AppendEntries` after the term check, in terms of the whole log. -/
theorem Compacts.matchEntries_eq (h : rf.Compacts full) {args : AppendEntriesArgs n C}
    (hp : rf.lastIncludedIndex ≤ args.prevLogIndex) :
    rf.matchEntries args =
      if args.prevLogIndex > full.length then
        some (rf.persist, ⟨rf.currentTerm, false, full.length, 0⟩, false)
      else if rf.lastIncludedIndex < args.prevLogIndex ∧
          lastTerm (full.take args.prevLogIndex.toNat) ≠ args.prevLogTerm then
        (conflictScan rf.logs (lastTerm (full.take args.prevLogIndex.toNat))
          (args.prevLogIndex - rf.lastIncludedIndex).toNat).map fun k : ℕ =>
            (rf.persist, ⟨rf.currentTerm, false, (k : ℤ) + 1 + rf.lastIncludedIndex,
              lastTerm (full.take args.prevLogIndex.toNat)⟩, false)
      else rf.storeEntries args (args.prevLogIndex - rf.lastIncludedIndex) := by
  unfold Raft.matchEntries convertToStorageIndex convertToLogicalIndex
  dsimp only
  rw [h.getLastLogicalIndex, h.termAt_eq hp]
  split
  · rfl
  rename_i hle
  rw [if_pos (not_lt.mp hle)]
  dsimp only
  by_cases hpos : rf.lastIncludedIndex < args.prevLogIndex
  · rw [if_pos (by omega)]
    by_cases hterm : lastTerm (full.take args.prevLogIndex.toNat) ≠ args.prevLogTerm
    · rw [if_pos hterm, if_pos ⟨hpos, hterm⟩]
    · rw [if_neg hterm, if_neg fun hc => hterm hc.2]
  · rw [if_neg (by omega), if_neg fun hc => hpos hc.1]

/-- Both store the entries behind the same index. -/
theorem Twins.storeEntries (h : Twins rf ref full) (args : AppendEntriesArgs n C) {p : ℕ}
    (hlii : rf.lastIncludedIndex ≤ p) (hp : p ≤ full.length) :
    ∃ rf' ref' go, rf.storeEntries args (p - rf.lastIncludedIndex)
        = some (rf', ⟨args.term, true, 0, 0⟩, go) ∧
      ref.storeEntries args (p - ref.lastIncludedIndex)
        = some (ref', ⟨args.term, true, 0, 0⟩, go) ∧
      Twins rf' ref' (full.take p ++ args.entries) := by
  have hbase := h.base
  have hcut := h.whole.cut hlii hp args.entries
  have hcut' := h.reference.cut (by omega) hp args.entries
  have hlast := hcut.getLastLogicalIndex
  have hlast' := hcut'.getLastLogicalIndex
  have hlen := h.whole.getLastLogicalIndex
  have hlen' := h.reference.getLastLogicalIndex
  rw [getLastLogicalIndex] at hlast hlast' hlen hlen'
  dsimp only at hlast hlast'
  have hnewCommit : rf.newCommit = ref.newCommit := by
    funext leaderCommit last
    rw [newCommit, newCommit, h.commitIndex]
  rw [storeEntries_eq, storeEntries_eq, if_pos (by omega), if_pos (by omega), hlast, hlast',
    h.commitIndex, hnewCommit]
  refine ⟨_, _, _, rfl, rfl, Twins.persist ⟨h.me, h.currentTerm, h.votedFor, h.role, rfl,
    h.nextIndex, h.matchIndex, hcut.congr rfl rfl rfl, hcut'.congr rfl rfl rfl, h.base, ?_, ?_⟩⟩
  · obtain ⟨t, rest, hmark⟩ := h.marker
    rw [hmark, show ((p : ℤ) - rf.lastIncludedIndex + 1).toNat
      = ((p : ℤ) - rf.lastIncludedIndex).toNat + 1 by omega, List.take_succ_cons, List.cons_append]
    exact ⟨t, _, rfl⟩
  · have hbehind := h.behind
    rw [h.commitIndex] at hbehind
    simp only [newCommit, List.length_append, List.length_take, min_eq_left hp]
    split
    · split <;> omega
    · exact hbehind

theorem Compacts.termConflict_iff (h : rf.Compacts full) {args : AppendEntriesArgs n C}
    (hp : rf.lastIncludedIndex ≤ args.prevLogIndex) :
    rf.TermConflict args ↔ rf.currentTerm ≤ args.term ∧ args.prevLogIndex ≤ full.length ∧
      rf.lastIncludedIndex < args.prevLogIndex ∧
      lastTerm (full.take args.prevLogIndex.toNat) ≠ args.prevLogTerm := by
  rw [TermConflict, h.getLastLogicalIndex, h.termAt_eq hp, sub_pos]
  refine and_congr_right fun _ => and_congr_right fun hle => ?_
  rw [if_pos hle, ne_eq, Option.some.injEq]

theorem repliesAgree_self {args : AppendEntriesArgs n C} (h : ¬ rf.TermConflict args)
    (r : AppendEntriesReply) : rf.RepliesAgree args r r :=
  ⟨rfl, rfl, rfl, by rw [if_neg h]⟩

theorem Twins.appendEntries (h : Twins rf ref full) {args : AppendEntriesArgs n C}
    (hp : rf.lastIncludedIndex ≤ args.prevLogIndex)
    (hmark : args.prevLogIndex = rf.lastIncludedIndex → rf.termAt 0 = some args.prevLogTerm) :
    ∃ rf' ref' r r' go full', rf.appendEntries args = some (rf', r, go) ∧
      ref.appendEntries args = some (ref', r', go) ∧ Twins rf' ref' full' ∧
      rf.RepliesAgree args r r' := by
  have hconflict := h.whole.termConflict_iff hp
  have hf := h.follow args.term
  have hbase := h.base
  obtain ⟨hlii, hliile⟩ := h.whole.lastIncludedIndex_le
  rw [appendEntries_eq, appendEntries_eq, h.currentTerm]
  split
  · rename_i hlt
    refine ⟨_, _, _, _, _, full, rfl, rfl, h.persist, repliesAgree_self (fun hc => ?_) _⟩
    rw [hconflict, h.currentTerm] at hc
    omega
  rename_i hterm
  rw [hf.whole.matchEntries_eq (by simpa using hp),
    hf.reference.matchEntries_eq (by simp only [follow_lastIncludedIndex]; omega), hf.currentTerm]
  simp only [follow_lastIncludedIndex, follow_logs]
  split
  · refine ⟨_, _, _, _, _, full, rfl, rfl, hf.persist, repliesAgree_self (fun hc => ?_) _⟩
    rw [hconflict] at hc
    omega
  rename_i hle
  by_cases hdiff : rf.lastIncludedIndex < args.prevLogIndex ∧
      lastTerm (full.take args.prevLogIndex.toNat) ≠ args.prevLogTerm
  · -- both scan back; the peer stops at its marker
    rw [if_pos hdiff, if_pos ⟨by omega, hdiff.2⟩]
    obtain ⟨k, e, hk, -, hl, -⟩ := h.whole
    obtain ⟨k', d, hk', -, hl', -⟩ := h.reference
    obtain rfl : k' = 0 := by omega
    have hdrop : ∀ j, rf.logs[j + 1]? = ref.logs[k + j + 1]? := by
      intro j
      rw [hl, hl', List.getElem?_cons_succ, List.getElem?_cons_succ, List.getElem?_drop,
        List.drop_zero]
    obtain ⟨m, m', hm, hm', heq⟩ := conflictScan_drop
      (lastTerm (full.take args.prevLogIndex.toNat)) hdrop
      (j := (args.prevLogIndex - rf.lastIncludedIndex).toNat)
      (by rw [hl', List.length_cons, List.drop_zero]; omega)
    rw [show k + (args.prevLogIndex - rf.lastIncludedIndex).toNat
      = (args.prevLogIndex - ref.lastIncludedIndex).toNat by omega] at hm'
    rw [hm, hm']
    refine ⟨_, _, _, _, _, full, rfl, rfl, hf.persist, rfl, rfl, rfl, ?_⟩
    rw [if_pos (hconflict.mpr ⟨by rw [h.currentTerm]; omega, by omega, hdiff⟩)]
    dsimp only
    omega
  · -- at the marker the reference compares terms, and they are the same
    have hsame : ¬ (ref.lastIncludedIndex < args.prevLogIndex ∧
        lastTerm (full.take args.prevLogIndex.toNat) ≠ args.prevLogTerm) := by
      rintro ⟨hpos, hne⟩
      rcases hp.lt_or_eq with hlt | heq
      · exact hdiff ⟨hlt, hne⟩
      · have hmark' := hmark heq.symm
        rw [← sub_self rf.lastIncludedIndex, h.whole.termAt_eq le_rfl, if_pos hliile, heq] at hmark'
        exact hne (Option.some.inj hmark')
    rw [if_neg hdiff, if_neg hsame]
    obtain ⟨p, hpn⟩ : ∃ p : ℕ, args.prevLogIndex = p := ⟨args.prevLogIndex.toNat, by omega⟩
    rw [hpn] at hp hle ⊢
    obtain ⟨rf', ref', go, hst, hst', htw⟩ := hf.storeEntries args (p := p)
      (by simpa using hp) (by omega)
    simp only [follow_lastIncludedIndex] at hst hst'
    refine ⟨rf', ref', _, _, go, _, hst, hst', htw, repliesAgree_self (fun hc => ?_) _⟩
    exact hdiff (hconflict.mp hc).2.2

/-! ### The other operations -/

theorem Twins.replicaCount (h : Twins rf ref full) (idx t : ℤ) :
    rf.replicaCount idx t = ref.replicaCount idx t := by
  rw [Raft.replicaCount, Raft.replicaCount, h.currentTerm, h.me, h.matchIndex]

theorem Twins.advanceCommit (h : Twins rf ref full) :
    ∀ {k : ℕ}, rf.commitIndex + k ≤ full.length → ∃ idx go, rf.commitIndex ≤ idx ∧
      rf.advanceCommit k = some ({ rf with commitIndex := idx }, go) ∧
      ref.advanceCommit k = some ({ ref with commitIndex := idx }, go)
  | 0, _ => ⟨rf.commitIndex, false, le_rfl, rfl, by rw [h.commitIndex]; rfl⟩
  | k + 1, hk => by
    obtain ⟨idx, go, hle, hrf, href⟩ := h.advanceCommit (k := k) (by omega)
    have hbehind := h.behind
    have hbase := h.base
    obtain ⟨hlii, -⟩ := h.whole.lastIncludedIndex_le
    rw [Raft.advanceCommit, Raft.advanceCommit, ← h.commitIndex, convertToStorageIndex,
      convertToStorageIndex, h.whole.termAt_eq (by omega), h.reference.termAt_eq (by omega),
      if_pos hk]
    dsimp only
    rw [h.replicaCount]
    split
    · exact ⟨_, true, by omega, rfl, rfl⟩
    · exact ⟨idx, go, hle, hrf, href⟩

theorem Twins.handleAppendEntries (h : Twins rf ref full) (server : Fin n)
    (args : AppendEntriesArgs n C) {reply : AppendEntriesReply} (hs : reply.success = true) :
    ∃ rf' ref' go, rf.handleAppendEntries server args reply = some (rf', go) ∧
      ref.handleAppendEntries server args reply = some (ref', go) ∧ Twins rf' ref' full := by
  rw [handleAppendEntries_eq_of_success rf server args hs,
    handleAppendEntries_eq_of_success ref server args hs, h.role, h.currentTerm, h.last,
    h.commitIndex]
  split
  · exact ⟨_, _, _, rfl, rfl, h.persist⟩
  split
  · exact ⟨_, _, _, rfl, rfl, (h.stepDown _).persist⟩
  have hm : Twins (rf.matched server args) (ref.matched server args) full := by
    refine ⟨h.me, h.currentTerm, h.votedFor, h.role, h.commitIndex, ?_, ?_, h.whole, h.reference,
      h.base, h.marker, h.behind⟩
    · simp only [matched, h.nextIndex, h.last]
    · simp only [matched, h.matchIndex]
  by_cases hk : ref.commitIndex ≤ full.length
  · obtain ⟨idx, go, hle, hrf, href⟩ := hm.advanceCommit
      (k := (ref.getLastLogicalIndex - ref.commitIndex).toNat)
      (by rw [hm.commitIndex, h.reference.getLastLogicalIndex]; simp only [matched]; omega)
    rw [hrf, href]
    refine ⟨_, _, _, rfl, rfl, Twins.persist ⟨hm.me, hm.currentTerm, hm.votedFor, hm.role, rfl,
      hm.nextIndex, hm.matchIndex, hm.whole, hm.reference, hm.base, hm.marker, ?_⟩⟩
    exact hm.behind.trans hle
  · -- the log has been cut below `commitIndex`: there is nothing to look at
    rw [h.reference.getLastLogicalIndex, show (full.length - ref.commitIndex).toNat = 0 by omega]
    exact ⟨_, _, _, rfl, rfl, hm.persist⟩

theorem Twins.startAppend (h : Twins rf ref full) (term : ℤ) (command : Option C) :
    Twins (rf.startAppend term command).1 (ref.startAppend term command).1
        (full ++ [⟨term, command⟩]) ∧
      (rf.startAppend term command).2 = (ref.startAppend term command).2 := by
  obtain ⟨hwhole, hindex⟩ := h.whole.startAppend term command
  obtain ⟨hwhole', hindex'⟩ := h.reference.startAppend term command
  refine ⟨⟨h.me, h.currentTerm, h.votedFor, h.role, h.commitIndex, h.nextIndex, h.matchIndex,
    hwhole, hwhole', h.base, ?_, h.behind⟩, hindex.trans hindex'.symm⟩
  obtain ⟨t, rest, hmark⟩ := h.marker
  exact ⟨t, rest ++ [⟨term, command⟩], by simp [Raft.startAppend, hmark]⟩

theorem Twins.snapshotTo (h : Twins rf ref full) {index : ℤ} (hcommit : index ≤ rf.commitIndex)
    (hle : index ≤ rf.getLastLogicalIndex) (data : Option S) :
    ∃ rf', rf.snapshotTo index data = some rf' ∧ Twins rf' ref full := by
  obtain ⟨rf', hrf'⟩ := Raft.snapshotTo_isSome hle data
  have hwhole := h.whole.snapshotTo hrf'
  refine ⟨rf', hrf', ?_⟩
  rcases snapshotTo_cases hrf' with ⟨-, rfl⟩ | ⟨-, -, e, rest, -, rfl⟩
  · exact h
  · exact ⟨h.me, h.currentTerm, h.votedFor, h.role, h.commitIndex, h.nextIndex, h.matchIndex,
      hwhole, h.reference, h.base, ⟨_, _, rfl⟩, hcommit⟩

end Raft

/-- The answers of the two are the same, up to the start of a term conflict. -/
def LocalOp.Agree (rf : Raft n C S) : LocalOp n C S → Answer n → Answer n → Prop
  | .appendEntries args, .append r, .append r' => rf.RepliesAgree args r r'
  | _, x, y => x = y

namespace Local

variable {l r : Local n C S} {op : LocalOp n C S}

/-- The peer and the reference, with their elections. -/
def Twins (l r : Local n C S) : Prop :=
  l.voteCounts = r.voteCounts ∧ ∃ full, l.rf.Twins r.rf full

theorem twins_boot (me : Fin n) : Twins (boot me : Local n C S) (boot me) := by
  have hcompacts : (Raft.make me ⟨none, none⟩ : Raft n C S).Compacts [] :=
    ⟨0, ⟨0, none⟩, rfl, le_rfl, rfl, rfl, rfl⟩
  exact ⟨rfl, [], rfl, rfl, rfl, rfl, rfl, rfl, rfl, hcompacts, hcompacts, rfl, ⟨0, [], rfl⟩,
    le_rfl⟩

/-- One operation: neither side panics, the answers agree, and the two still are views of one
    log. -/
theorem Twins.on (h : l.Twins r) (hop : op.Allowed l.rf) :
    ∃ l' x r' y, l.on op = some (l', x) ∧ r.onReference op = some (r', y) ∧ l'.Twins r' ∧
      op.Agree l.rf x y := by
  obtain ⟨hcounts, full, htw⟩ := h
  cases op with
  | start =>
    refine ⟨_, _, _, _, rfl, rfl, ⟨hcounts, full, htw⟩, ?_⟩
    simp only [LocalOp.Agree, Raft.getState, htw.currentTerm, htw.role]
  | startAppend term command =>
    obtain ⟨htw', hindex⟩ := htw.startAppend term command
    exact ⟨_, _, _, _, rfl, rfl, ⟨hcounts, _, htw'⟩, congrArg Answer.index hindex⟩
  | persist => exact ⟨_, _, _, _, rfl, rfl, ⟨hcounts, full, htw.persist⟩, rfl⟩
  | startElection => exact ⟨_, _, _, _, rfl, rfl, ⟨hcounts, full, htw.startElection⟩, rfl⟩
  | sendRequestVotes =>
    simp only [Local.on, onReference, htw.whole.genRequestVoteArgs,
      htw.reference.genRequestVoteArgs, htw.currentTerm, htw.me, hcounts]
    exact ⟨_, _, _, _, rfl, rfl, ⟨rfl, full, htw⟩, rfl⟩
  | voteReply election reply =>
    obtain ⟨htw', hcount⟩ := htw.handleRequestVote (r.voteCounts.getD election 0) reply
    simp only [Local.on, onReference, hcounts]
    exact ⟨_, _, _, _, rfl, rfl, ⟨by rw [hcount], full, htw'⟩, rfl⟩
  | requestVote args =>
    obtain ⟨rf', ref', reply, hrf, href, htw'⟩ := htw.requestVote args
    simp only [Local.on, onReference, hrf, href]
    exact ⟨_, _, _, _, rfl, rfl, ⟨hcounts, full, htw'⟩, rfl⟩
  | appendEntries args =>
    obtain ⟨rf', ref', x, y, go, full', hrf, href, htw', hagree⟩ := htw.appendEntries hop.1 hop.2
    simp only [Local.on, onReference, hrf, href]
    exact ⟨_, _, _, _, rfl, rfl, ⟨hcounts, full', htw'⟩, hagree⟩
  | appendReply server args reply =>
    obtain ⟨rf', ref', go, hrf, href, htw'⟩ := htw.handleAppendEntries server args hop
    simp only [Local.on, onReference, hrf, href]
    exact ⟨_, _, _, _, rfl, rfl, ⟨hcounts, full, htw'⟩, rfl⟩
  | snapshot index data =>
    obtain ⟨rf', hrf, htw'⟩ := htw.snapshotTo hop.1 hop.2 data
    simp only [Local.on, onReference, hrf]
    exact ⟨_, _, _, _, rfl, rfl, ⟨hcounts, full, htw'⟩, rfl⟩

theorem twins_run {s₀ s : Local n C S × Local n C S} (h₀ : s₀.1.Twins s₀.2)
    (h : Run onBoth (fun s op => op.Allowed s.1.rf) s₀ s) : s.1.Twins s.2 := by
  refine h.invariant (P := fun s => s.1.Twins s.2) h₀ ?_
  intro s s' op htw hop hstep
  obtain ⟨l, x, r, y, hl, hr, htw', -⟩ := htw.on hop
  simp only [onBoth, hl, hr] at hstep
  cases hstep
  exact htw'

/-- Compaction refines the whole log: after any allowed operations the peer is the reference with
    the front of its log dropped, and whatever allowed operation comes next, both return, the
    answers agree, and the peer still is such a view of the reference. -/
theorem compaction_refines {me : Fin n} {s : Local n C S × Local n C S}
    (h : Run onBoth (fun s op => op.Allowed s.1.rf) (boot me, boot me) s) :
    s.1.rf.Refines s.2.rf ∧ ∀ op : LocalOp n C S, op.Allowed s.1.rf →
      ∃ l x r y, s.1.on op = some (l, x) ∧ s.2.onReference op = some (r, y) ∧
        l.rf.Refines r.rf ∧ op.Agree s.1.rf x y := by
  have htw := twins_run (twins_boot me) h
  refine ⟨htw.2.choose_spec.refines, fun op hop => ?_⟩
  obtain ⟨l, x, r, y, hl, hr, ⟨-, full, htw'⟩, hagree⟩ := htw.on hop
  exact ⟨l, x, r, y, hl, hr, htw'.refines, hagree⟩

/-- Server 1 takes two entries of term 1 and compacts the first. -/
def twoEntries [NeZero n] : List (LocalOp n ℕ Unit) :=
  [.appendEntries ⟨1, 0, 0, 0, [⟨1, some 7⟩, ⟨1, some 8⟩], 2⟩, .snapshot 1 (some ())]

/-- A leader of term 2 has another entry at index 2. -/
def conflicting [NeZero n] : LocalOp n ℕ Unit := .appendEntries ⟨2, 2, 2, 2, [], 2⟩

/-- The reference puts the start of the conflict at index 1, the peer at index 2. -/
theorem compaction_refines_two_entries : ∃ s : Local 3 ℕ Unit × Local 3 ℕ Unit,
    Run onBoth (fun s op => op.Allowed s.1.rf) (boot 1, boot 1) s ∧
      s.1.rf.lastIncludedIndex = 1 ∧ s.1.rf.Refines s.2.rf ∧
      ∃ l r, s.1.on conflicting = some (l, .append ⟨2, false, 2, 1⟩) ∧
        s.2.onReference conflicting = some (r, .append ⟨2, false, 1, 1⟩) ∧ l.rf.Refines r.rf ∧
        s.1.rf.RepliesAgree ⟨2, 2, 2, 2, [], 2⟩ ⟨2, false, 2, 1⟩ ⟨2, false, 1, 1⟩ := by
  obtain ⟨s, hs, hlii, hop, hx, hy⟩ := exists_run_of_play onBoth
    (fun s op => op.Allowed s.1.rf) (boot 1, boot 1) twoEntries
    (fun s : Local 3 ℕ Unit × Local 3 ℕ Unit =>
      s.1.rf.lastIncludedIndex = 1 ∧ conflicting.Allowed s.1.rf ∧
      (s.1.on conflicting).map (·.2) = some (.append ⟨2, false, 2, 1⟩) ∧
      (s.2.onReference conflicting).map (·.2) = some (.append ⟨2, false, 1, 1⟩)) (by decide)
  obtain ⟨href, hnext⟩ := compaction_refines hs
  obtain ⟨l, x, r, y, hl, hr, href', hagree⟩ := hnext conflicting hop
  rw [hl, Option.map_some, Option.some.injEq] at hx
  rw [hr, Option.map_some, Option.some.injEq] at hy
  dsimp only at hx hy
  subst hx hy
  exact ⟨s, hs, hlii, href, l, r, hl, hr, href', hagree⟩

end Local
end DistLabs
