import DistLabs.Schemes.Run
import DistLabs.Raft.Server
import Mathlib.Logic.Function.Basic

/-! # The cluster as a transition system

    `n` peers, the goroutines each of them has started and the RPC messages in flight. Each section
    under `rf.mu` is one atomic step, so what a goroutine still has to do between two sections is a
    `Thread` of its server. The code that runs without the lock (the tail of
    `handleInstallSnapshot`, `persist` as `Start` and `startElection` call it, and the arguments
    that `applyLogs` reads for `condInstallSnapshot`) is also one step each here; `Interleaved`
    takes it access by access. A request is consumed by its delivery (`labrpc` delivers it at most
    once); a message that is lost is one that no step ever consumes. A crash forgets everything but
    the `Persister` and restarts the peer through `Make`; a reply to an RPC of an earlier
    incarnation finds nobody waiting for it. -/

namespace DistLabs

variable {n : ℕ} {C S : Type}

/-- What one goroutine of a server does next. -/
inductive Thread (n : ℕ) (C S : Type) where
  /-- `Start` between its `GetState` and its append -/
  | start (term : ℤ) (command : Option C)
  /-- `Start` before its unlocked `rf.persist()` -/
  | startPersist (index term : ℤ) (command : Option C)
  /-- a heartbeat goroutine before `genAppendEntries` -/
  | heartbeat (server : Fin n)
  /-- a heartbeat goroutine between `genAppendEntries` and `GetState` -/
  | append (server : Fin n) (args : AppendEntriesArgs n C) (isSnapshot : Bool)
  /-- `handleInstallSnapshot` before it builds its request -/
  | install (server : Fin n)
  /-- `handleInstallSnapshot` between the request and `GetState` -/
  | installSend (server : Fin n) (args : InstallSnapshotArgs n S)
  /-- `applyLogs` before its first section -/
  | apply
  /-- `applyLogs` with a batch still to send -/
  | applying (msgs : List (ApplyMsg C S))
  /-- `applyLogs` after a send, before it writes `lastApplied` -/
  | applied (commandIndex : ℤ) (msgs : List (ApplyMsg C S))
  /-- `applyLogs` before it reads the arguments of `condInstallSnapshot` -/
  | condRead
  /-- `condInstallSnapshot` before its section -/
  | condInstall (lastIncludedTerm lastIncludedIndex : ℤ)
  /-- the goroutine of `InstallSnapshot` before it sends the snapshot message -/
  | snapshotMsg (msg : ApplyMsg C S)
  deriving DecidableEq

/-- Where the ticker goroutine is. The term in `elected` is the one `startElection` counted up to;
    the source does not keep it and no step reads it. -/
inductive Ticker where
  | idle
  | timedOut
  | elected (term : ℤ)
  | persisting
  deriving DecidableEq

/-- The content of a message. A vote request carries the number of the election that sent it, and
    a reply the arguments that the waiting goroutine still holds. -/
inductive Body (n : ℕ) (C S : Type) where
  | requestVote (election : ℕ) (args : RequestVoteArgs n)
  | requestVoteReply (election : ℕ) (args : RequestVoteArgs n) (reply : RequestVoteReply)
  | appendEntries (args : AppendEntriesArgs n C)
  | appendEntriesReply (args : AppendEntriesArgs n C) (reply : AppendEntriesReply)
  | installSnapshot (args : InstallSnapshotArgs n S)
  | installSnapshotReply (args : InstallSnapshotArgs n S) (reply : InstallSnapshotReply)
  deriving DecidableEq

/-- A message in flight; `incarnation` is that of the server that called the RPC. -/
structure Packet (n : ℕ) (C S : Type) where
  src : Fin n
  dst : Fin n
  incarnation : ℕ
  body : Body n C S
  deriving DecidableEq

/-- What a `Start` call with `isLeader = true` returned. -/
structure Started (n : ℕ) (C : Type) where
  server : Fin n
  index : ℤ
  term : ℤ
  command : Option C
  deriving DecidableEq

/-- One server: its peer, its goroutines and what its service has received on `applyCh`.
    `voteCounts` holds the `voteCount` variable of each election of this incarnation. -/
structure Node (n : ℕ) (C S : Type) where
  rf : Raft n C S
  incarnation : ℕ
  ticker : Ticker
  voteCounts : List ℕ
  threads : List (Thread n C S)
  received : List (ApplyMsg C S)

/-- The result of one step of one server: its new state and what it put on the network, on
    `applyCh` and returned from `Start`. -/
structure Out (n : ℕ) (C S : Type) where
  node : Node n C S
  sent : List (Packet n C S) := []
  applied : List (ApplyMsg C S) := []
  started : List (Started n C) := []

/-- The steps a server takes on its own. -/
inductive Action (C S : Type) where
  /-- the ticker finds that it is no leader and that the election timeout has passed -/
  | timeout
  | startElection
  /-- `genRequestVoteArgs` and the goroutines that send its result -/
  | sendRequestVotes
  /-- the deferred `rf.persist()` of `startElection` -/
  | persistElection
  /-- the heartbeat loop finds `isLeader` and starts a goroutine for each peer -/
  | heartbeat
  /-- the service calls `Start`, which reads `GetState` -/
  | start (command : Option C)
  /-- the service calls `Snapshot` for an index it has received -/
  | snapshot (index : ℤ) (data : Option S)
  /-- goroutine number `k` takes its next step -/
  | run (k : ℕ)
  | crash
  deriving DecidableEq

/-- What makes a server take a step: itself, or a message that reaches it. -/
inductive Input (n : ℕ) (C S : Type) where
  | act (a : Action C S)
  | recv (p : Packet n C S)
  deriving DecidableEq

/-- A crash. -/
def Input.isCrash : Input n C S → Bool
  | .act .crash => true
  | _ => false

namespace Node

/-- The peers a broadcast goes to: `for i := range rf.peers { if i != rf.me`. -/
def others (nd : Node n C S) : List (Fin n) := (List.finRange n).filter (· ≠ nd.rf.me)

def spawn (nd : Node n C S) (ts : List (Thread n C S)) : Node n C S :=
  { nd with threads := nd.threads ++ ts }

def packet (nd : Node n C S) (dst : Fin n) (body : Body n C S) : Packet n C S :=
  ⟨nd.rf.me, dst, nd.incarnation, body⟩

/-- A handler result: `none` is a panic. -/
def guard {α : Type} : Option α → Except Halt α
  | none => .error .panic
  | some a => .ok a

/-- One step of the goroutine `t`, already taken off the list of `nd`. -/
def runThread (nd : Node n C S) : Thread n C S → Except Halt (Out n C S)
  | .start term command =>
    let (rf, index) := nd.rf.startAppend term command
    .ok { node := { nd with rf := rf }.spawn [.startPersist index term command] }
  | .startPersist index term command =>
    .ok { node := { nd with rf := nd.rf.persist }
          started := [⟨nd.rf.me, index, term, command⟩] }
  | .heartbeat server => do
    let (args, isSnapshot) ← guard (nd.rf.genAppendEntries server)
    .ok { node := nd.spawn [.append server args isSnapshot] }
  | .append server args isSnapshot =>
    if nd.rf.getState.2 then
      if isSnapshot then .ok { node := nd.spawn [.install server] }
      else .ok { node := nd, sent := [nd.packet server (.appendEntries args)] }
    else .ok { node := nd }
  | .install server => .ok { node := nd.spawn [.installSend server nd.rf.genInstallSnapshot] }
  | .installSend server args =>
    if nd.rf.getState.2 then
      .ok { node := nd, sent := [nd.packet server (.installSnapshot args)] }
    else .ok { node := nd }
  | .apply => do
    match ← guard nd.rf.applyLogs with
    | none => .ok { node := nd.spawn [.condRead] }
    | some msgs => .ok { node := nd.spawn [.applying msgs] }
  | .applying [] => .ok { node := nd }
  | .applying (msg :: msgs) =>
    .ok { node := { nd with received := msg :: nd.received }.spawn [.applied msg.commandIndex msgs]
          applied := [msg] }
  | .applied i msgs =>
    .ok { node := { nd with rf := { nd.rf with lastApplied := i } }.spawn [.applying msgs] }
  | .condRead =>
    -- the call passes the index first, the parameters take the term first
    .ok { node := nd.spawn [.condInstall nd.rf.lastIncludedIndex nd.rf.lastIncludedTerm] }
  | .condInstall lastIncludedTerm lastIncludedIndex => do
    let rf ← guard (nd.rf.condInstallSnapshot lastIncludedTerm lastIncludedIndex)
    .ok { node := { nd with rf := rf } }
  | .snapshotMsg msg =>
    .ok { node := { nd with received := msg :: nd.received }, applied := [msg] }

/-- One step a server takes on its own. -/
def act (nd : Node n C S) : Action C S → Except Halt (Out n C S)
  | .timeout =>
    if nd.ticker = .idle ∧ nd.rf.getState.2 = false then
      .ok { node := { nd with ticker := .timedOut } }
    else .error .disabled
  | .startElection =>
    if nd.ticker = .timedOut then
      .ok { node := { nd with
              rf := nd.rf.startElection
              ticker := .elected nd.rf.startElection.currentTerm } }
    else .error .disabled
  | .sendRequestVotes =>
    match nd.ticker with
    | .elected _ => do
      let args ← guard nd.rf.genRequestVoteArgs
      .ok { node := { nd with ticker := .persisting, voteCounts := nd.voteCounts ++ [1] }
            sent := nd.others.map fun i =>
              nd.packet i (.requestVote nd.voteCounts.length args) }
    | _ => .error .disabled
  | .persistElection =>
    if nd.ticker = .persisting then
      .ok { node := { nd with rf := nd.rf.persist, ticker := .idle } }
    else .error .disabled
  | .heartbeat =>
    if nd.rf.getState.2 then .ok { node := nd.spawn (nd.others.map .heartbeat) }
    else .error .disabled
  | .start command =>
    if nd.rf.getState.2 then .ok { node := nd.spawn [.start nd.rf.getState.1 command] }
    else .ok { node := nd }
  | .snapshot index data =>
    if nd.received.any (·.isCommandAt index) then do
      let rf ← guard (nd.rf.snapshotTo index data)
      .ok { node := { nd with rf := rf } }
    else .error .disabled
  | .run k =>
    match nd.threads[k]? with
    | none => .error .disabled
    | some t => { nd with threads := nd.threads.eraseIdx k }.runThread t
  | .crash =>
    .ok { node :=
            { rf := Raft.make nd.rf.me nd.rf.persister
              incarnation := nd.incarnation + 1
              ticker := .idle
              voteCounts := []
              threads := []
              received := [] } }

/-- The delivery of a message: the handler of a request and its reply, or the goroutine that waits
    for a reply. -/
def recv (nd : Node n C S) (p : Packet n C S) : Except Halt (Out n C S) :=
  match p.body with
  | .requestVote election args => do
    let (rf, reply) ← guard (nd.rf.requestVote args)
    .ok { node := { nd with rf := rf }
          sent := [⟨p.dst, p.src, p.incarnation, .requestVoteReply election args reply⟩] }
  | .appendEntries args => do
    let (rf, reply, go) ← guard (nd.rf.appendEntries args)
    .ok { node := { nd with rf := rf }.spawn (if go then [.apply] else [])
          sent := [⟨p.dst, p.src, p.incarnation, .appendEntriesReply args reply⟩] }
  | .installSnapshot args => do
    let (rf, reply, msg) ← guard (nd.rf.installSnapshot args)
    .ok { node := { nd with rf := rf }.spawn (msg.toList.map .snapshotMsg)
          sent := [⟨p.dst, p.src, p.incarnation, .installSnapshotReply args reply⟩] }
  | .requestVoteReply election _ reply =>
    if p.incarnation = nd.incarnation then
      let (rf, count) := nd.rf.handleRequestVote (nd.voteCounts.getD election 0) reply
      .ok { node := { nd with rf := rf, voteCounts := nd.voteCounts.set election count } }
    else .ok { node := nd }
  | .appendEntriesReply args reply =>
    if p.incarnation = nd.incarnation then do
      let (rf, go) ← guard (nd.rf.handleAppendEntries p.src args reply)
      .ok { node := { nd with rf := rf }.spawn (if go then [.apply] else []) }
    else .ok { node := nd }
  | .installSnapshotReply args reply =>
    if p.incarnation = nd.incarnation then
      .ok { node := { nd with rf := nd.rf.handleInstallSnapshot p.src args reply } }
    else .ok { node := nd }

/-- One step of one server. -/
def on (nd : Node n C S) : Input n C S → Except Halt (Out n C S)
  | .act a => nd.act a
  | .recv p => nd.recv p

/-- A server that starts for the first time. -/
def boot (me : Fin n) : Node n C S :=
  { rf := Raft.make me ⟨none, none⟩
    incarnation := 0
    ticker := .idle
    voteCounts := []
    threads := []
    received := [] }

end Node

/-- The state of the system. `sent`, `past`, `applied` and `started` are history: every message ever
    put on the network, every state a peer has gone through, every message put on an `applyCh` and
    every result of `Start`. No step reads them. -/
structure Cluster (n : ℕ) (C S : Type) where
  nodes : Fin n → Node n C S
  net : List (Packet n C S)
  sent : List (Packet n C S)
  past : List (Raft n C S)
  applied : List (Fin n × ApplyMsg C S)
  started : List (Started n C)

/-- A step of the system: a server acts, or message number `k` in flight is delivered. -/
inductive Event (n : ℕ) (C S : Type) where
  | act (i : Fin n) (a : Action C S)
  | deliver (k : ℕ)
  deriving DecidableEq

namespace Cluster

/-- Every server has just been started, nothing is in flight. -/
def init : Cluster n C S :=
  { nodes := Node.boot
    net := []
    sent := []
    past := (List.finRange n).map fun i => (Node.boot i).rf
    applied := []
    started := [] }

/-- Server `i` has taken a step with result `out`, and `net` is what it left in flight. -/
def advance (s : Cluster n C S) (i : Fin n) (net : List (Packet n C S)) (out : Out n C S) :
    Cluster n C S :=
  { nodes := Function.update s.nodes i out.node
    net := net ++ out.sent
    sent := out.sent ++ s.sent
    past := out.node.rf :: s.past
    applied := out.applied.map (fun m => (i, m)) ++ s.applied
    started := out.started ++ s.started }

/-- Who takes the step, on what input, and what stays in flight. -/
def input (s : Cluster n C S) : Event n C S → Option (Fin n × Input n C S × List (Packet n C S))
  | .act i a => some (i, .act a, s.net)
  | .deliver k => s.net[k]?.map fun p => (p.dst, .recv p, s.net.eraseIdx k)

def step (s : Cluster n C S) (e : Event n C S) : Except Halt (Cluster n C S) :=
  match s.input e with
  | none => .error .disabled
  | some (i, inp, net) => ((s.nodes i).on inp).map (s.advance i net)

/-- A condition on one server's step, read as a condition on a step of the system. -/
def At (P : Node n C S → Input n C S → Prop) (s : Cluster n C S) (e : Event n C S) : Prop :=
  match s.input e with
  | none => True
  | some (i, inp, _) => P (s.nodes i) inp

instance (P : Node n C S → Input n C S → Prop) [∀ nd inp, Decidable (P nd inp)]
    (s : Cluster n C S) (e : Event n C S) : Decidable (At P s e) :=
  match h : s.input e with
  | none => .isTrue (by simp [At, h])
  | some (i, inp, _) => decidable_of_iff (P (s.nodes i) inp) (by simp [At, h])

variable {s s' : Cluster n C S} {e : Event n C S} {i : Fin n} {inp : Input n C S}
  {net : List (Packet n C S)} {out : Out n C S}

/-- A step is one server's step. -/
theorem step_ok (h : s.step e = .ok s') :
    ∃ i inp net out, s.input e = some (i, inp, net) ∧ (s.nodes i).on inp = .ok out ∧
      s' = s.advance i net out := by
  unfold step at h
  split at h
  · cases h
  rename_i i inp net hin
  cases hon : (s.nodes i).on inp with
  | error x => rw [hon] at h; cases h
  | ok out => rw [hon] at h; cases h; exact ⟨i, inp, net, out, hin, hon, rfl⟩

theorem At.at_input {P : Node n C S → Input n C S → Prop} (h : At P s e)
    (hin : s.input e = some (i, inp, net)) : P (s.nodes i) inp := by
  rw [At, hin] at h; exact h

theorem At.mono {P Q : Node n C S → Input n C S → Prop} (hPQ : ∀ nd inp, P nd inp → Q nd inp)
    (h : At P s e) : At Q s e := by
  unfold At at h ⊢
  split at h
  · trivial
  · exact hPQ _ _ h

/-- What stays in flight was in flight. -/
theorem input_sublist (hin : s.input e = some (i, inp, net)) : net.Sublist s.net := by
  cases e with
  | act j a => cases hin; exact List.Sublist.refl _
  | deliver k =>
    obtain ⟨p, -, heq⟩ := Option.map_eq_some_iff.mp hin
    cases heq
    exact List.eraseIdx_sublist ..

/-- A server that acts on its own leaves every message in flight. -/
theorem input_act {a : Action C S} (hin : s.input e = some (i, .act a, net)) : net = s.net := by
  cases e with
  | act j b => cases hin; rfl
  | deliver k =>
    obtain ⟨p, -, heq⟩ := Option.map_eq_some_iff.mp hin
    cases heq

/-- A delivered message is taken out of the messages in flight, once. -/
theorem input_recv {p : Packet n C S} (hin : s.input e = some (i, .recv p, net)) :
    p.dst = i ∧ (p :: net).Perm s.net := by
  cases e with
  | act j a => cases hin
  | deliver k =>
    obtain ⟨q, hq, heq⟩ := Option.map_eq_some_iff.mp hin
    cases heq
    obtain ⟨hk, rfl⟩ := List.getElem?_eq_some_iff.mp hq
    exact ⟨rfl, List.getElem_cons_eraseIdx_perm hk⟩

@[simp] theorem advance_nodes_self : (s.advance i net out).nodes i = out.node := by
  simp [advance]

theorem advance_nodes_of_ne {j : Fin n} (h : j ≠ i) :
    (s.advance i net out).nodes j = s.nodes j := by
  simp [advance, h]

@[simp] theorem mem_advance_net {p : Packet n C S} :
    p ∈ (s.advance i net out).net ↔ p ∈ net ∨ p ∈ out.sent := by simp [advance]

@[simp] theorem mem_advance_sent {p : Packet n C S} :
    p ∈ (s.advance i net out).sent ↔ p ∈ out.sent ∨ p ∈ s.sent := by simp [advance]

@[simp] theorem mem_advance_past {rf : Raft n C S} :
    rf ∈ (s.advance i net out).past ↔ rf = out.node.rf ∨ rf ∈ s.past := by simp [advance]

end Cluster
end DistLabs
