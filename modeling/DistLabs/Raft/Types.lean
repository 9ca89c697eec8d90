import DistLabs.Schemes.Slice

/-! # The Raft peer: data model (`raft.go`, `persister.go`)

    The `Raft` object with the fields its functions read and write, the RPC arguments and replies,
    the messages put on `applyCh` and the `Persister`. Terms and indices are the source's signed
    integers; `votedFor = -1` is `none`, a `nil` command or snapshot is `none`. The number `n` of
    peers, the commands `C` and the snapshot bytes `S` are parameters. Clocks (`lastUpdate`), the
    mutex and the channel that stops the heartbeat loop carry no data and are left out. -/

namespace DistLabs

/-- `type Role string`. -/
inductive Role where | Follower | Candidate | Leader
  deriving DecidableEq, Repr

/-- One log entry; `command = none` is Go's `nil`. -/
structure LogEntry (C : Type) where
  term : ℤ
  command : Option C
  deriving DecidableEq, Repr

/-- What `persist` encodes, in the order it encodes it. -/
structure RaftState (n : ℕ) (C : Type) where
  currentTerm : ℤ
  votedFor : Option (Fin n)
  logs : List (LogEntry C)
  lastIncludedIndex : ℤ
  lastIncludedTerm : ℤ
  deriving DecidableEq

/-- Stable storage: the encoded Raft state and the service's snapshot, both absent at first. -/
structure Persister (n : ℕ) (C S : Type) where
  raftstate : Option (RaftState n C)
  snapshot : Option S
  deriving DecidableEq

/-- A single Raft peer. `unsaved` is history that no function reads: a section has changed the term
    or the vote and left it to a later `persist` to save them, and none has run since. -/
structure Raft (n : ℕ) (C S : Type) where
  persister : Persister n C S
  me : Fin n
  currentTerm : ℤ
  votedFor : Option (Fin n)
  logs : List (LogEntry C)
  commitIndex : ℤ
  lastApplied : ℤ
  nextIndex : Fin n → ℤ
  matchIndex : Fin n → ℤ
  role : Role
  snapshot : Option S
  lastIncludedIndex : ℤ
  lastIncludedTerm : ℤ
  unsaved : Bool

structure RequestVoteArgs (n : ℕ) where
  term : ℤ
  candidateId : Fin n
  lastLogIndex : ℤ
  lastLogTerm : ℤ
  deriving DecidableEq

structure RequestVoteReply where
  term : ℤ
  voteGranted : Bool
  deriving DecidableEq

structure AppendEntriesArgs (n : ℕ) (C : Type) where
  term : ℤ
  leaderId : Fin n
  prevLogIndex : ℤ
  prevLogTerm : ℤ
  entries : List (LogEntry C)
  leaderCommit : ℤ
  deriving DecidableEq

structure AppendEntriesReply where
  term : ℤ
  success : Bool
  conflictIndex : ℤ
  conflictTerm : ℤ
  deriving DecidableEq

structure InstallSnapshotArgs (n : ℕ) (S : Type) where
  term : ℤ
  leaderId : Fin n
  lastIncludedIndex : ℤ
  lastIncludedTerm : ℤ
  data : Option S
  deriving DecidableEq

structure InstallSnapshotReply where
  term : ℤ
  deriving DecidableEq

/-- A message on `applyCh`: `CommandValid` or `SnapshotValid` is the constructor. -/
inductive ApplyMsg (C S : Type) where
  | command (command : Option C) (commandIndex : ℤ)
  | snapshot (snapshot : Option S) (snapshotTerm : ℤ) (snapshotIndex : ℤ)
  deriving DecidableEq

/-- `msg.CommandIndex`, zero in a snapshot message. -/
def ApplyMsg.commandIndex {C S : Type} : ApplyMsg C S → ℤ
  | .command _ i => i
  | .snapshot _ _ _ => 0

/-- The message delivers the command at index `i`. -/
def ApplyMsg.isCommandAt {C S : Type} (i : ℤ) : ApplyMsg C S → Bool
  | .command _ j => decide (j = i)
  | .snapshot _ _ _ => false

end DistLabs
