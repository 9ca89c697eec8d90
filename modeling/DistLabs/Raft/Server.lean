import DistLabs.Raft.Types

/-! # The Raft peer: its functions (`raft.go`)

    Every section that `raft.go` runs under `rf.mu` is one function of the peer's state here, with
    the source's name where the section is the whole function. `none` is a Go panic (an index or a
    slice bound out of range). A goroutine started in the section is part of the result. -/

namespace DistLabs.Raft

variable {n : ℕ} {C S : Type}

/-! ### Persistence -/

/-- Save the persistent fields and the snapshot in one atomic `persister.Save`. -/
def persist (rf : Raft n C S) : Raft n C S :=
  { rf with
    persister :=
      { raftstate := some
          { currentTerm := rf.currentTerm
            votedFor := rf.votedFor
            logs := rf.logs
            lastIncludedIndex := rf.lastIncludedIndex
            lastIncludedTerm := rf.lastIncludedTerm }
        snapshot := rf.snapshot }
    unsaved := false }

/-- Restore the persisted state; with none saved the peer keeps its initial values. -/
def readPersist (rf : Raft n C S) (data : Option (RaftState n C)) : Raft n C S :=
  match data with
  | none => rf
  | some d =>
    { rf with
      currentTerm := d.currentTerm
      votedFor := d.votedFor
      logs := d.logs
      lastIncludedIndex := d.lastIncludedIndex
      lastIncludedTerm := d.lastIncludedTerm
      commitIndex := d.lastIncludedIndex
      lastApplied := d.lastIncludedIndex }

def readSnapshotPersist (rf : Raft n C S) (data : Option S) : Raft n C S :=
  match data with
  | none => rf
  | some d => { rf with snapshot := some d }

/-- `Make`: a fresh peer, then whatever the persister holds. -/
def make (me : Fin n) (persister : Persister n C S) : Raft n C S :=
  let rf : Raft n C S :=
    { persister := persister
      me := me
      currentTerm := 0
      votedFor := none
      logs := [{ term := 0, command := none }]
      commitIndex := 0
      lastApplied := 0
      nextIndex := fun _ => 0
      matchIndex := fun _ => 0
      role := .Follower
      snapshot := none
      lastIncludedIndex := 0
      lastIncludedTerm := 0
      unsaved := false }
  (rf.readPersist persister.raftstate).readSnapshotPersist persister.snapshot

/-! ### Indices -/

def getLastStorageIndex (rf : Raft n C S) : ℤ := (rf.logs.length : ℤ) - 1

def getLastLogicalIndex (rf : Raft n C S) : ℤ := (rf.logs.length : ℤ) - 1 + rf.lastIncludedIndex

def convertToStorageIndex (rf : Raft n C S) (logicalIndex : ℤ) : ℤ :=
  logicalIndex - rf.lastIncludedIndex

def convertToLogicalIndex (rf : Raft n C S) (storageIndex : ℤ) : ℤ :=
  storageIndex + rf.lastIncludedIndex

/-- `rf.logs[i].Term`. -/
def termAt (rf : Raft n C S) (i : ℤ) : Option ℤ := (Slice.index rf.logs i).map (·.term)

def isLogUpToDate (rf : Raft n C S) (prevLogTerm prevLogIndex : ℤ) : Option Bool :=
  (rf.termAt rf.getLastStorageIndex).map fun lastTerm =>
    if prevLogTerm = lastTerm then decide (prevLogIndex ≥ rf.getLastLogicalIndex)
    else decide (prevLogTerm > lastTerm)

/-! ### Roles -/

def getState (rf : Raft n C S) : ℤ × Bool := (rf.currentTerm, decide (rf.role = .Leader))

/-- `convertRole`: a new leader resets `nextIndex` and `matchIndex`. -/
def convertRole (rf : Raft n C S) (role : Role) : Raft n C S :=
  match role with
  | .Leader =>
    { rf with
      nextIndex := fun _ => rf.getLastLogicalIndex + 1
      matchIndex := fun _ => -1
      role := .Leader }
  | role => { rf with role := role }

/-- The step-down written out at every place that meets a larger term. -/
def stepDown (rf : Raft n C S) (term : ℤ) : Raft n C S :=
  { rf.convertRole .Follower with currentTerm := term, votedFor := none }

/-! ### Elections -/

/-- RequestVote RPC handler, with its deferred `persist`. -/
def requestVote (rf : Raft n C S) (args : RequestVoteArgs n) :
    Option (Raft n C S × RequestVoteReply) :=
  if args.term < rf.currentTerm then
    some (rf.persist, ⟨rf.currentTerm, false⟩)
  else if args.term = rf.currentTerm ∧ rf.votedFor ≠ none ∧
      rf.votedFor ≠ some args.candidateId then
    some (rf.persist, ⟨rf.currentTerm, false⟩)
  else
    let rf := if args.term > rf.currentTerm then rf.stepDown args.term else rf
    match rf.isLogUpToDate args.lastLogTerm args.lastLogIndex with
    | none => none
    | some false =>
      some ({ rf with votedFor := none }.persist, ⟨rf.currentTerm, false⟩)
    | some true =>
      some ({ rf with votedFor := some args.candidateId }.persist, ⟨rf.currentTerm, true⟩)

/-- The first locked section of `startElection`. Its `persist` is deferred to the end of the
    function, after the requests are sent. -/
def startElection (rf : Raft n C S) : Raft n C S :=
  { rf.convertRole .Candidate with
    currentTerm := rf.currentTerm + 1
    votedFor := some rf.me
    unsaved := true }

def genRequestVoteArgs (rf : Raft n C S) : Option (RequestVoteArgs n) :=
  (rf.termAt rf.getLastStorageIndex).map fun lastTerm =>
    { term := rf.currentTerm
      candidateId := rf.me
      lastLogIndex := rf.getLastLogicalIndex
      lastLogTerm := lastTerm }

/-- The locked section run by `startElection`'s goroutine on a reply. `voteCount` is the variable
    that the goroutines of this one election share. The step-down is not followed by a `persist`. -/
def handleRequestVote (rf : Raft n C S) (voteCount : ℕ) (reply : RequestVoteReply) :
    Raft n C S × ℕ :=
  if rf.role = .Candidate ∧ reply.voteGranted = true then
    if voteCount + 1 > n / 2 then (rf.convertRole .Leader, voteCount + 1)
    else (rf, voteCount + 1)
  else if reply.term > rf.currentTerm then
    ({ rf.stepDown reply.term with unsaved := true }, voteCount)
  else (rf, voteCount)

/-! ### Log replication -/

/-- `for index > 0 && rf.logs[index].Term >= t { index-- }`, from `index`. -/
def conflictScan (logs : List (LogEntry C)) (t : ℤ) : ℕ → Option ℕ
  | 0 => some 0
  | k + 1 =>
    match logs[k + 1]? with
    | none => none
    | some e => if e.term ≥ t then conflictScan logs t k else some (k + 1)

/-- The end of `AppendEntries`, reached when the entry at `index` is accepted: cut the log behind
    it, append the entries and advance `commitIndex`. The flag is `go rf.applyLogs()`. -/
def storeEntries (rf : Raft n C S) (args : AppendEntriesArgs n C) (index : ℤ) :
    Option (Raft n C S × AppendEntriesReply × Bool) :=
  match Slice.takeTo rf.logs (index + 1) with
  | none => none
  | some kept =>
    let rf := { rf with logs := kept ++ args.entries }
    if args.leaderCommit > rf.commitIndex then
      let commitIndex :=
        if args.leaderCommit < rf.getLastLogicalIndex then args.leaderCommit
        else rf.getLastLogicalIndex
      some ({ rf with commitIndex := commitIndex }.persist, ⟨args.term, true, 0, 0⟩, true)
    else some (rf.persist, ⟨args.term, true, 0, 0⟩, false)

/-- `AppendEntries` after the term check: `rf` is already a follower of `args.term`. -/
def matchEntries (rf : Raft n C S) (args : AppendEntriesArgs n C) :
    Option (Raft n C S × AppendEntriesReply × Bool) :=
  if args.prevLogIndex > rf.getLastLogicalIndex then
    some (rf.persist, ⟨rf.currentTerm, false, rf.getLastLogicalIndex, 0⟩, false)
  else
    let index := rf.convertToStorageIndex args.prevLogIndex
    if index > 0 then
      match rf.termAt index with
      | none => none
      | some t =>
        if t ≠ args.prevLogTerm then
          (conflictScan rf.logs t index.toNat).map fun k : ℕ =>
            (rf.persist, ⟨rf.currentTerm, false, rf.convertToLogicalIndex ((k : ℤ) + 1), t⟩, false)
        else rf.storeEntries args index
    else rf.storeEntries args index

/-- AppendEntries RPC handler, with its deferred `persist`. -/
def appendEntries (rf : Raft n C S) (args : AppendEntriesArgs n C) :
    Option (Raft n C S × AppendEntriesReply × Bool) :=
  if args.term < rf.currentTerm then
    some (rf.persist, ⟨rf.currentTerm, false, 0, 0⟩, false)
  else if args.term > rf.currentTerm then (rf.stepDown args.term).matchEntries args
  else (rf.convertRole .Follower).matchEntries args

/-- `genAppendEntries`: the request for `server`, and whether a snapshot is needed instead. -/
def genAppendEntries (rf : Raft n C S) (server : Fin n) :
    Option (AppendEntriesArgs n C × Bool) :=
  let prevLogIndex := rf.nextIndex server - 1
  if prevLogIndex < rf.lastIncludedIndex then
    some (⟨rf.currentTerm, rf.me, prevLogIndex, 0, [], 0⟩, true)
  else
    let index := rf.convertToStorageIndex prevLogIndex
    match (if index < 0 then some 0 else rf.termAt index),
        Slice.dropFrom rf.logs (rf.convertToStorageIndex (rf.nextIndex server)) with
    | some prevLogTerm, some entries =>
      some (⟨rf.currentTerm, rf.me, prevLogIndex, prevLogTerm, entries, rf.commitIndex⟩, false)
    | _, _ => none

/-- `for index >= 0 && rf.logs[index].Term > t { index-- }`, from `index + 1 = k`. -/
def backtrack (logs : List (LogEntry C)) (t : ℤ) : ℕ → Option ℤ
  | 0 => some (-1)
  | k + 1 =>
    match logs[k]? with
    | none => none
    | some e => if e.term > t then backtrack logs t k else some k

/-- How many servers hold the entry at `idx`, counting the leader; an entry of an older term counts
    for the leader alone. -/
def replicaCount (rf : Raft n C S) (idx term : ℤ) : ℕ :=
  1 + if term = rf.currentTerm then
    ((List.finRange n).filter fun i => decide (i ≠ rf.me ∧ rf.matchIndex i ≥ idx)).length else 0

/-- `for n := last; n > rf.commitIndex; n--`, from `n = rf.commitIndex + k`. -/
def advanceCommit (rf : Raft n C S) : ℕ → Option (Raft n C S × Bool)
  | 0 => some (rf, false)
  | k + 1 =>
    let idx := rf.commitIndex + (k + 1 : ℕ)
    match rf.termAt (rf.convertToStorageIndex idx) with
    | none => none
    | some t =>
      if rf.replicaCount idx t > n / 2 then some ({ rf with commitIndex := idx }, true)
      else rf.advanceCommit k

/-- The leader's answer to a rejected `AppendEntries`: move `nextIndex[server]` back. -/
def backUp (rf : Raft n C S) (server : Fin n) (reply : AppendEntriesReply) :
    Option (Raft n C S) :=
  if reply.conflictTerm ≠ 0 then
    let index := rf.convertToStorageIndex (rf.nextIndex server - 1)
    match backtrack rf.logs reply.conflictTerm (index + 1).toNat with
    | none => none
    | some index =>
      if index ≥ 0 ∧ rf.termAt index = some reply.conflictTerm then
        some { rf with nextIndex := Function.update rf.nextIndex server (index + 1) }
      else some { rf with nextIndex := Function.update rf.nextIndex server reply.conflictIndex }
  else some { rf with nextIndex := Function.update rf.nextIndex server reply.conflictIndex }

/-- `handleAppendEntries`, with its deferred `persist`. The flag is `go rf.applyLogs()`. -/
def handleAppendEntries (rf : Raft n C S) (server : Fin n) (args : AppendEntriesArgs n C)
    (reply : AppendEntriesReply) : Option (Raft n C S × Bool) :=
  if rf.role ≠ .Leader then some (rf.persist, false)
  else if reply.term > rf.currentTerm then some ((rf.stepDown reply.term).persist, false)
  else if reply.success = false then
    (rf.backUp server reply).map fun rf => (rf.persist, false)
  else
    let rf := { rf with
      nextIndex := Function.update rf.nextIndex server (rf.getLastLogicalIndex + 1)
      matchIndex := Function.update rf.matchIndex server
        (args.prevLogIndex + args.entries.length) }
    (rf.advanceCommit (rf.getLastLogicalIndex - rf.commitIndex).toNat).map fun (rf, go) =>
      (rf.persist, go)

/-! ### Applying -/

/-- `for i := rf.lastApplied + 1; i <= rf.commitIndex; i++`, `k` messages from index `i`. -/
def applyRange (rf : Raft n C S) : ℕ → ℤ → Option (List (ApplyMsg C S))
  | 0, _ => some []
  | k + 1, i =>
    match Slice.index rf.logs (rf.convertToStorageIndex i), rf.applyRange k (i + 1) with
    | some e, some msgs => some (.command e.command i :: msgs)
    | _, _ => none

/-- The first locked section of `applyLogs`: `some none` is the branch that goes on to
    `condInstallSnapshot`, otherwise the batch to send. -/
def applyLogs (rf : Raft n C S) : Option (Option (List (ApplyMsg C S))) :=
  if rf.lastApplied < rf.lastIncludedIndex then some none
  else if rf.commitIndex ≤ rf.lastApplied then some (some [])
  else (rf.applyRange (rf.commitIndex - rf.lastApplied).toNat (rf.lastApplied + 1)).map some

/-! ### Snapshots -/

/-- `condInstallSnapshot`. -/
def condInstallSnapshot (rf : Raft n C S) (lastIncludedTerm lastIncludedIndex : ℤ) :
    Option (Raft n C S) :=
  let trimmed :=
    if lastIncludedIndex > rf.getLastLogicalIndex then some [{ term := 0, command := none }]
    else (Slice.dropFrom rf.logs (lastIncludedIndex - rf.lastIncludedIndex)).bind
      (Slice.modifyHead fun e => { e with command := none })
  (trimmed.bind (Slice.modifyHead fun e => { e with term := lastIncludedTerm })).map fun logs =>
    { rf with
      logs := logs
      lastIncludedIndex := lastIncludedIndex
      lastIncludedTerm := lastIncludedTerm
      lastApplied := lastIncludedIndex
      commitIndex := lastIncludedIndex }.persist

/-- `Snapshot`: the service has everything up to `index`, so the log before it goes. -/
def snapshotTo (rf : Raft n C S) (index : ℤ) (snapshot : Option S) : Option (Raft n C S) :=
  if index ≤ rf.lastIncludedIndex then some rf
  else
    match rf.termAt (rf.convertToStorageIndex index),
        Slice.dropFrom rf.logs (rf.convertToStorageIndex index) with
    | some term, some tmpLogs =>
      (Slice.modifyHead (fun _ => { term := term, command := none }) tmpLogs).map fun logs =>
        { rf with
          lastIncludedTerm := term
          logs := logs
          lastIncludedIndex := index
          snapshot := snapshot }.persist
    | _, _ => none

/-- `InstallSnapshot` after the term check. The message is the one its goroutine sends. -/
def trimToSnapshot (rf : Raft n C S) (args : InstallSnapshotArgs n S)
    (reply : InstallSnapshotReply) :
    Option (Raft n C S × InstallSnapshotReply × Option (ApplyMsg C S)) :=
  if args.lastIncludedIndex ≤ rf.lastIncludedIndex ∨ args.lastIncludedIndex ≤ rf.lastApplied then
    some (rf.persist, reply, none)
  else
    let trimmed :=
      if rf.getLastLogicalIndex ≤ args.lastIncludedIndex then
        some [{ term := args.lastIncludedTerm, command := none }]
      else (Slice.dropFrom rf.logs (rf.convertToStorageIndex args.lastIncludedIndex)).bind
        (Slice.modifyHead fun _ => { term := 0, command := none })
    trimmed.map fun logs =>
      ({ rf with
          logs := logs
          lastIncludedIndex := args.lastIncludedIndex
          lastIncludedTerm := args.lastIncludedTerm
          snapshot := args.data
          lastApplied := args.lastIncludedIndex
          commitIndex := if rf.commitIndex < args.lastIncludedIndex then args.lastIncludedIndex
            else rf.commitIndex }.persist,
        reply, some (.snapshot args.data args.lastIncludedTerm args.lastIncludedIndex))

/-- InstallSnapshot RPC handler. Only the refusal of an older term does not `persist`, and only a
    newer term writes `reply.Term`. -/
def installSnapshot (rf : Raft n C S) (args : InstallSnapshotArgs n S) :
    Option (Raft n C S × InstallSnapshotReply × Option (ApplyMsg C S)) :=
  if args.term < rf.currentTerm then some (rf, ⟨rf.currentTerm⟩, none)
  else if args.term > rf.currentTerm then (rf.stepDown args.term).trimToSnapshot args ⟨args.term⟩
  else rf.trimToSnapshot args ⟨0⟩

/-- The locked section of `handleInstallSnapshot`: the request. -/
def genInstallSnapshot (rf : Raft n C S) : InstallSnapshotArgs n S :=
  ⟨rf.currentTerm, rf.me, rf.lastIncludedIndex, rf.lastIncludedTerm, rf.snapshot⟩

/-- The unlocked tail of `handleInstallSnapshot`, run on a reply. -/
def handleInstallSnapshot (rf : Raft n C S) (server : Fin n) (args : InstallSnapshotArgs n S)
    (reply : InstallSnapshotReply) : Raft n C S :=
  if rf.role ≠ .Leader ∨ rf.currentTerm ≠ args.term then rf
  else if reply.term > rf.currentTerm then (rf.stepDown reply.term).persist
  else if rf.nextIndex server ≤ args.lastIncludedIndex then
    { rf with
      nextIndex := Function.update rf.nextIndex server (args.lastIncludedIndex + 1)
      matchIndex := Function.update rf.matchIndex server args.lastIncludedIndex }
  else rf

/-! ### Client commands -/

/-- The second locked section of `Start`: append the entry and read the index it got. -/
def startAppend (rf : Raft n C S) (term : ℤ) (command : Option C) : Raft n C S × ℤ :=
  let rf := { rf with logs := rf.logs ++ [{ term := term, command := command }] }
  (rf, rf.getLastLogicalIndex)

end DistLabs.Raft
