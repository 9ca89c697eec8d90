import DistLabs.Raft.Moves

/-! # Code that runs without the lock

    `Cluster` takes the code that `raft.go` runs without `rf.mu` as one step, like a section: the
    tail of `handleInstallSnapshot`, `persist` where `Start` and `startElection` call it, and the
    two arguments that `applyLogs` reads for `condInstallSnapshot`. Here every read or write of a
    field of the peer in this code is a step of its own, and sections of the same server, or other
    code without the lock, may come between two of them. `rf.logs` is read in one access, and
    closing `heartChan` in `convertRole` carries no data and is left out.

    Where such code is not interrupted the two systems are the same: `Interleaved.Steady` says so of
    a step, and the next module proves it of whole runs. -/

namespace DistLabs

variable {n : ℕ} {C S : Type}

/-- `persist` before it reads the field it is named after, with what it has encoded so far. -/
inductive Saving (n : ℕ) (C S : Type) where
  | currentTerm
  | votedFor (currentTerm : ℤ)
  | logs (currentTerm : ℤ) (votedFor : Option (Fin n))
  | lastIncludedIndex (currentTerm : ℤ) (votedFor : Option (Fin n)) (logs : List (LogEntry C))
  | lastIncludedTerm (currentTerm : ℤ) (votedFor : Option (Fin n)) (logs : List (LogEntry C))
      (lastIncludedIndex : ℤ)
  | snapshot (raftstate : RaftState n C)
  /-- before `persister.Save` -/
  | save (raftstate : RaftState n C) (snapshot : Option S)
  deriving DecidableEq

/-- How code without the lock ends. -/
inductive Ending (C : Type) where
  /-- `handleInstallSnapshot` returns -/
  | done
  /-- `Start` returns -/
  | start (index term : ℤ) (command : Option C)
  /-- `startElection` returns -/
  | election
  /-- `applyLogs` calls `condInstallSnapshot` -/
  | condInstall (lastIncludedTerm lastIncludedIndex : ℤ)
  deriving DecidableEq

/-- Where a goroutine is in code without the lock: before which access. -/
inductive Unlocked (n : ℕ) (C S : Type) where
  /-- the test `rf.role != Leader` -/
  | role (server : Fin n) (args : InstallSnapshotArgs n S) (reply : InstallSnapshotReply)
  /-- the test `rf.currentTerm != args.Term` -/
  | sameTerm (server : Fin n) (args : InstallSnapshotArgs n S) (reply : InstallSnapshotReply)
  /-- the test `reply.Term > rf.currentTerm` -/
  | newerTerm (server : Fin n) (args : InstallSnapshotArgs n S) (reply : InstallSnapshotReply)
  /-- `rf.currentTerm = reply.Term` -/
  | setTerm (term : ℤ)
  /-- `rf.convertRole(Follower)` -/
  | setRole
  /-- `rf.votedFor = -1` -/
  | setVote
  /-- the test `rf.nextIndex[server] <= args.LastIncludedIndex` -/
  | behind (server : Fin n) (index : ℤ)
  /-- `rf.nextIndex[server] = args.LastIncludedIndex + 1` -/
  | setNext (server : Fin n) (index : ℤ)
  /-- `rf.matchIndex[server] = args.LastIncludedIndex` -/
  | setMatch (server : Fin n) (index : ℤ)
  /-- inside `persist` -/
  | persist (at_ : Saving n C S) (ending : Ending C)
  /-- the first argument of `condInstallSnapshot` -/
  | condIndex
  /-- the second argument of `condInstallSnapshot` -/
  | condTerm (lastIncludedIndex : ℤ)
  deriving DecidableEq

/-- The next access of `persist`, which is over with what it gives to `Save`. -/
def Saving.next (rf : Raft n C S) : Saving n C S → Saving n C S ⊕ Persister n C S
  | .currentTerm => .inl (.votedFor rf.currentTerm)
  | .votedFor t => .inl (.logs t rf.votedFor)
  | .logs t v => .inl (.lastIncludedIndex t v rf.logs)
  | .lastIncludedIndex t v l => .inl (.lastIncludedTerm t v l rf.lastIncludedIndex)
  | .lastIncludedTerm t v l i => .inl (.snapshot ⟨t, v, l, i, rf.lastIncludedTerm⟩)
  | .snapshot raftstate => .inl (.save raftstate rf.snapshot)
  | .save raftstate data => .inr ⟨some raftstate, data⟩

namespace Unlocked

/-- The next access of code without the lock. -/
def next (rf : Raft n C S) :
    Unlocked n C S → (Raft n C S × Unlocked n C S) ⊕ (Raft n C S × Ending C)
  | .role server args reply =>
    if rf.role ≠ .Leader then .inr (rf, .done) else .inl (rf, .sameTerm server args reply)
  | .sameTerm server args reply =>
    if rf.currentTerm ≠ args.term then .inr (rf, .done)
    else .inl (rf, .newerTerm server args reply)
  | .newerTerm server args reply =>
    if reply.term > rf.currentTerm then .inl (rf, .setTerm reply.term)
    else .inl (rf, .behind server args.lastIncludedIndex)
  | .setTerm term => .inl ({ rf with currentTerm := term }, .setRole)
  | .setRole => .inl (rf.convertRole .Follower, .setVote)
  | .setVote => .inl ({ rf with votedFor := none }, .persist .currentTerm .done)
  | .behind server index =>
    if rf.nextIndex server ≤ index then .inl (rf, .setNext server index) else .inr (rf, .done)
  | .setNext server index =>
    .inl ({ rf with nextIndex := Function.update rf.nextIndex server (index + 1) },
      .setMatch server index)
  | .setMatch server index =>
    .inr ({ rf with matchIndex := Function.update rf.matchIndex server index }, .done)
  | .persist w ending =>
    match w.next rf with
    | .inl w => .inl (rf, .persist w ending)
    | .inr persister => .inr ({ rf with persister := persister, unsaved := false }, ending)
  | .condIndex => .inl (rf, .condTerm rf.lastIncludedIndex)
  -- the call passes the index first, the parameters take the term first
  | .condTerm index => .inr (rf, .condInstall index rf.lastIncludedTerm)

/-- The goroutine is in the tail of `handleInstallSnapshot`, the only one of the three that writes
    more than the stable storage. -/
def inTail : Unlocked n C S → Bool
  | .persist _ .done => true
  | .persist _ _ => false
  | .condIndex => false
  | .condTerm _ => false
  | _ => true

/-- The goroutine is the ticker, in the deferred `persist` of `startElection`. -/
def inElection : Unlocked n C S → Bool
  | .persist _ .election => true
  | _ => false

end Unlocked

/-- Where a goroutine is when it starts code without the lock. -/
def Thread.unlocked : Thread n C S → Option (Unlocked n C S)
  | .startPersist index term command => some (.persist .currentTerm (.start index term command))
  | .condRead => some .condIndex
  | _ => none

namespace Node

/-- The input starts code without the lock: the server without the goroutine that does, and where
    this goroutine is. -/
def enters (nd : Node n C S) : Input n C S → Option (Node n C S × Unlocked n C S)
  | .act (.run k) =>
    (nd.threads[k]?.bind Thread.unlocked).map fun u =>
      ({ nd with threads := nd.threads.eraseIdx k }, u)
  | .act .persistElection =>
    if nd.ticker = .persisting then some (nd, .persist .currentTerm .election) else none
  | .recv p =>
    match p.body with
    | .installSnapshotReply args reply =>
      if p.incarnation = nd.incarnation then some (nd, .role p.src args reply) else none
    | _ => none
  | _ => none

/-- What the end of code without the lock does. -/
def leave (nd : Node n C S) : Ending C → Out n C S
  | .done => { node := nd }
  | .start index term command => { node := nd, started := [⟨nd.rf.me, index, term, command⟩] }
  | .election => { node := { nd with ticker := .idle } }
  | .condInstall t i => { node := nd.spawn [.condInstall t i] }

/-- One step of a server with the goroutines `us` in code without the lock: a section, a crash that
    ends them, or one more goroutine. The ticker is one goroutine, so it is there at most once. -/
def take (nd : Node n C S) (us : List (Unlocked n C S)) (inp : Input n C S) :
    Except Halt (Out n C S × List (Unlocked n C S)) :=
  match nd.enters inp with
  | none => (nd.on inp).map fun out => (out, if inp.isCrash then [] else us)
  | some (nd, u) =>
    if u.inElection ∧ us.any Unlocked.inElection then .error .disabled
    else .ok ({ node := nd }, us ++ [u])

/-- One access of goroutine number `k` of them. -/
def access (nd : Node n C S) (us : List (Unlocked n C S)) (k : ℕ) :
    Except Halt (Out n C S × List (Unlocked n C S)) :=
  match us[k]? with
  | none => .error .disabled
  | some u =>
    match u.next nd.rf with
    | .inl (rf, u) => .ok ({ node := { nd with rf := rf } }, us.set k u)
    | .inr (rf, ending) => .ok ({ nd with rf := rf }.leave ending, us.eraseIdx k)

end Node

/-- The cluster with the goroutines of each server that are in code without the lock. -/
structure Interleaved (n : ℕ) (C S : Type) where
  cluster : Cluster n C S
  unlocked : Fin n → List (Unlocked n C S)

/-- A step of a server as before, or an access of one of its goroutines without the lock. -/
inductive FineEvent (n : ℕ) (C S : Type) where
  | event (e : Event n C S)
  | access (i : Fin n) (k : ℕ)
  deriving DecidableEq

namespace Interleaved

def init : Interleaved n C S := ⟨Cluster.init, fun _ => []⟩

/-- Server `i` has taken a step with result `out`, and `us` are its goroutines without the lock. -/
def advance (s : Interleaved n C S) (i : Fin n) (net : List (Packet n C S))
    (r : Out n C S × List (Unlocked n C S)) : Interleaved n C S :=
  ⟨s.cluster.advance i net r.1, Function.update s.unlocked i r.2⟩

def step (s : Interleaved n C S) : FineEvent n C S → Except Halt (Interleaved n C S)
  | .event e =>
    match s.cluster.input e with
    | none => .error .disabled
    | some (i, inp, net) =>
      ((s.cluster.nodes i).take (s.unlocked i) inp).map (s.advance i net)
  | .access i k =>
    ((s.cluster.nodes i).access (s.unlocked i) k).map (s.advance i s.cluster.net)

/-- A goroutine of server `i` is in the tail of `handleInstallSnapshot`. -/
def InTail (s : Interleaved n C S) (i : Fin n) : Prop :=
  (s.unlocked i).any Unlocked.inTail = true

/-- The step meets `P`, and it does not interrupt code without the lock: while a goroutine of the
    server is there the server may crash, but it runs no section and starts no other such code. -/
def Steady (P : Node n C S → Input n C S → Prop) (s : Interleaved n C S) :
    FineEvent n C S → Prop
  | .access _ _ => True
  | .event e => Cluster.At P s.cluster e ∧
      ∀ x ∈ s.cluster.input e, s.unlocked x.1 = [] ∨ x.2.1.isCrash = true

/-- The step meets `P` and may interrupt code without the lock. -/
def Loose (P : Node n C S → Input n C S → Prop) (s : Interleaved n C S) : FineEvent n C S → Prop
  | .access _ _ => True
  | .event e => Cluster.At P s.cluster e

instance (P : Node n C S → Input n C S → Prop) [∀ nd inp, Decidable (P nd inp)]
    (s : Interleaved n C S) (e : FineEvent n C S) : Decidable (Steady P s e) :=
  match e with
  | .access _ _ => .isTrue trivial
  | .event e => decidable_of_iff
      (Cluster.At P s.cluster e ∧
        ∀ x ∈ s.cluster.input e, (s.unlocked x.1).isEmpty = true ∨ x.2.1.isCrash = true)
      (by simp [Steady, List.isEmpty_iff])

instance (P : Node n C S → Input n C S → Prop) [∀ nd inp, Decidable (P nd inp)]
    (s : Interleaved n C S) (e : FineEvent n C S) : Decidable (Loose P s e) :=
  match e with
  | .access _ _ => .isTrue trivial
  | .event e => inferInstanceAs (Decidable (Cluster.At P s.cluster e))

end Interleaved
end DistLabs
