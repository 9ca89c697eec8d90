import DistLabs.Raft.Moves
import DistLabs.Raft.Specs
import DistLabs.Schemes.Run

/-! # What a step does to elections

    `Node.Ballot` keeps of a step what it does to the term, the vote, the role and the vote messages
    of a server, and leaves the rest out. The invariants of the votes and of the vote counts need no
    more. `Raft.Saves` says which of the steps save the term and the vote. -/

namespace DistLabs

variable {n : ℕ} {C S : Type}

/-- A vote request or a reply to one. -/
def Packet.isVote (p : Packet n C S) : Bool :=
  match p.body with
  | .requestVote _ _ => true
  | .requestVoteReply _ _ _ => true
  | _ => false

/-- The ticker is between the two sections of `startElection`. -/
def Ticker.isElected : Ticker → Bool
  | .elected _ => true
  | _ => false

namespace Node

/-- What a step does to elections. Everything that is not about votes is `quiet`. -/
inductive Ballot (nd : Node n C S) : Input n C S → Out n C S → Prop
  | quiet {inp : Input n C S} {out : Out n C S} (rf : Raft.Quiet nd.rf out.node.rf)
      (incarnation : out.node.incarnation = nd.incarnation)
      (voteCounts : out.node.voteCounts = nd.voteCounts)
      (ticker : out.node.ticker = nd.ticker ∨ out.node.ticker.isElected = false)
      (sent : ∀ p ∈ out.sent, p.isVote = false)
      (recv : ∀ p, inp = .recv p → p.isVote = false) : Ballot nd inp out
  | start (ticker : nd.ticker = .timedOut) :
      Ballot nd (.act .startElection)
        { node := { nd with
            rf := nd.rf.startElection
            ticker := .elected nd.rf.startElection.currentTerm } }
  | send {t : ℤ} {args : RequestVoteArgs n} (ticker : nd.ticker = .elected t)
      (args_eq : nd.rf.genRequestVoteArgs = some args) :
      Ballot nd (.act .sendRequestVotes)
        { node := { nd with ticker := .persisting, voteCounts := nd.voteCounts ++ [1] }
          sent := nd.others.map fun i => nd.packet i (.requestVote nd.voteCounts.length args) }
  | vote {p : Packet n C S} {e : ℕ} {args : RequestVoteArgs n} {rf' : Raft n C S}
      {reply : RequestVoteReply} (body : p.body = .requestVote e args)
      (handler : nd.rf.requestVote args = some (rf', reply)) :
      Ballot nd (.recv p)
        { node := { nd with rf := rf' }
          sent := [⟨p.dst, p.src, p.incarnation, .requestVoteReply e args reply⟩] }
  | count {p : Packet n C S} {e : ℕ} {args : RequestVoteArgs n} {reply : RequestVoteReply}
      (body : p.body = .requestVoteReply e args reply)
      (incarnation : p.incarnation = nd.incarnation) :
      Ballot nd (.recv p)
        { node := { nd with
            rf := (nd.rf.handleRequestVote (nd.voteCounts.getD e 0) reply).1
            voteCounts := nd.voteCounts.set e
              (nd.rf.handleRequestVote (nd.voteCounts.getD e 0) reply).2 } }
  | late {p : Packet n C S} (incarnation : p.incarnation ≠ nd.incarnation) :
      Ballot nd (.recv p) { node := nd }
  | crash : Ballot nd (.act .crash) { node := nd.restart }

/-- A goroutine step never votes. -/
theorem Goes.quiet {nd : Node n C S} {t : Thread n C S} {out : Out n C S} (h : Goes nd t out) :
    Raft.Quiet nd.rf out.node.rf ∧ out.node.incarnation = nd.incarnation ∧
      out.node.voteCounts = nd.voteCounts ∧ out.node.ticker = nd.ticker ∧
      ∀ p ∈ out.sent, p.isVote = false := by
  cases h with
  | condInstall handler =>
    exact ⟨Raft.quiet_condInstallSnapshot handler, rfl, rfl, rfl, by simp⟩
  | appendSend | installSend =>
    exact ⟨.refl _, rfl, rfl, rfl, by simp [packet, Packet.isVote]⟩
  | _ => exact ⟨.refl nd.rf, rfl, rfl, rfl, by simp⟩

theorem Move.ballot {nd : Node n C S} {inp : Input n C S} {out : Out n C S}
    (h : nd.Move inp out) : nd.Ballot inp out := by
  cases h with
  | startElection ticker => exact .start ticker
  | sendRequestVotes ticker gen => exact .send ticker gen
  | run thread goes =>
    obtain ⟨hq, hi, hv, ht, hs⟩ := goes.quiet
    exact .quiet hq hi hv (.inl ht) hs (by simp)
  | snapshot received handler =>
    exact .quiet (Raft.quiet_snapshotTo handler) rfl rfl (.inl rfl) (by simp) (by simp)
  | crash => exact .crash
  | requestVote body handler => exact .vote body handler
  | requestVoteReply body incarnation => exact .count body incarnation
  | appendEntries body handler =>
    exact .quiet (Raft.quiet_appendEntries handler) rfl rfl (.inl rfl) (by simp [Packet.isVote])
      (by simp [Packet.isVote, body])
  | installSnapshot body handler =>
    exact .quiet (Raft.quiet_installSnapshot handler) rfl rfl (.inl rfl) (by simp [Packet.isVote])
      (by simp [Packet.isVote, body])
  | appendEntriesReply body incarnation handler =>
    exact .quiet (Raft.quiet_handleAppendEntries handler) rfl rfl (.inl rfl) (by simp)
      (by simp [Packet.isVote, body])
  | installSnapshotReply body incarnation =>
    exact .quiet (Raft.quiet_handleInstallSnapshot ..) rfl rfl (.inl rfl) (by simp)
      (by simp [Packet.isVote, body])
  | late incarnation => exact .late incarnation
  | timeout | persistElection => exact .quiet (.refl nd.rf) rfl rfl (.inr rfl) (by simp) (by simp)
  | _ => exact .quiet (.refl nd.rf) rfl rfl (.inl rfl) (by simp) (by simp)

theorem on_ballot {nd : Node n C S} {inp : Input n C S} {out : Out n C S}
    (h : nd.on inp = .ok out) : nd.Ballot inp out :=
  (on_move h).ballot

end Node

/-! ### What a step saves -/

namespace Raft

variable {rf rf' : Raft n C S}

theorem make_role (me : Fin n) (p : Persister n C S) : (make me p).role = .Follower := by
  unfold make readPersist readSnapshotPersist
  dsimp only
  split <;> split <;> rfl

theorem make_me (me : Fin n) (p : Persister n C S) : (make me p).me = me := by
  unfold make readPersist readSnapshotPersist
  dsimp only
  split <;> split <;> rfl

theorem make_persister (me : Fin n) (p : Persister n C S) : (make me p).persister = p := by
  unfold make readPersist readSnapshotPersist
  dsimp only
  split <;> split <;> rfl

/-- What a restart would find is the term and the vote the peer has now. -/
def Saved (rf : Raft n C S) : Prop :=
  (make rf.me rf.persister).currentTerm = rf.currentTerm ∧
    (make rf.me rf.persister).votedFor = rf.votedFor

theorem saved_persist (rf : Raft n C S) : rf.persist.Saved := by
  unfold Saved persist make readPersist readSnapshotPersist
  dsimp only
  split <;> exact ⟨rfl, rfl⟩

theorem saved_make (me : Fin n) (p : Persister n C S) : (make me p).Saved := by
  unfold Saved
  rw [make_me, make_persister]
  exact ⟨rfl, rfl⟩

/-- A step ends with a `persist`, changes nothing that would have to be saved, leaves the saving to
    a later `persist`, or restarts the peer. -/
inductive Saves (rf : Raft n C S) : Raft n C S → Prop
  | persist (rf₀ : Raft n C S) : Saves rf rf₀.persist
  | same {rf' : Raft n C S} (me : rf'.me = rf.me) (persister : rf'.persister = rf.persister)
      (currentTerm : rf'.currentTerm = rf.currentTerm) (votedFor : rf'.votedFor = rf.votedFor)
      (unsaved : rf'.unsaved = rf.unsaved) : Saves rf rf'
  | later {rf' : Raft n C S} (unsaved : rf'.unsaved = true) : Saves rf rf'
  | restart : Saves rf (make rf.me rf.persister)

theorem Saves.refl (rf : Raft n C S) : Saves rf rf := .same rfl rfl rfl rfl rfl

/-- The term and the vote stay saved, but for what is left to a later `persist`. -/
theorem Saves.saved (h : rf.Saves rf') (hrf : rf.unsaved = false → rf.Saved)
    (hrf' : rf'.unsaved = false) : rf'.Saved := by
  cases h with
  | persist rf₀ => exact saved_persist rf₀
  | same me persister currentTerm votedFor unsaved =>
    have hsaved := hrf (unsaved ▸ hrf')
    rw [Saved, me, persister, currentTerm, votedFor]
    exact hsaved
  | later unsaved => rw [unsaved] at hrf'; cases hrf'
  | restart => exact saved_make ..

theorem saves_requestVote {args : RequestVoteArgs n} {reply : RequestVoteReply}
    (h : rf.requestVote args = some (rf', reply)) : rf.Saves rf' := by
  rcases requestVote_cases h with ⟨-, rfl, -⟩ | ⟨-, -, b, -, rfl, -⟩ <;> exact .persist _

theorem saves_handleRequestVote (rf : Raft n C S) (k : ℕ) (reply : RequestVoteReply) :
    rf.Saves (rf.handleRequestVote k reply).1 := by
  rcases handleRequestVote_cases rf k reply with ⟨-, h⟩ | ⟨-, h⟩ | h <;> rw [h]
  · exact .same rfl rfl rfl rfl rfl
  · exact .later rfl
  · exact .refl rf

theorem saves_appendEntries {args : AppendEntriesArgs n C} {reply : AppendEntriesReply} {go : Bool}
    (h : rf.appendEntries args = some (rf', reply, go)) : rf.Saves rf' := by
  rcases appendEntries_cases h with ⟨-, rfl, -⟩ | ⟨-, rfl, -⟩ | ⟨-, -, -, -, rfl, -⟩ <;>
    exact .persist _

theorem saves_handleAppendEntries {server : Fin n} {args : AppendEntriesArgs n C}
    {reply : AppendEntriesReply} {go : Bool}
    (h : rf.handleAppendEntries server args reply = some (rf', go)) : rf.Saves rf' := by
  rcases handleAppendEntries_cases h with ⟨-, rfl, -⟩ | ⟨-, -, rfl, -⟩ | ⟨-, -, -, ⟨x, rfl⟩, -⟩ |
    ⟨-, -, -, idx, rfl, -⟩ <;> exact .persist _

theorem saves_snapshotTo {index : ℤ} {data : Option S} (h : rf.snapshotTo index data = some rf') :
    rf.Saves rf' := by
  rcases snapshotTo_cases h with ⟨-, rfl⟩ | ⟨-, -, e, rest, -, rfl⟩
  · exact .refl rf'
  · exact .persist _

theorem saves_condInstallSnapshot {t i : ℤ} (h : rf.condInstallSnapshot t i = some rf') :
    rf.Saves rf' := by
  obtain ⟨logs, -, rfl⟩ := Option.map_eq_some_iff.mp h
  exact .persist _

theorem saves_installSnapshot {args : InstallSnapshotArgs n S} {reply : InstallSnapshotReply}
    {msg : Option (ApplyMsg C S)} (h : rf.installSnapshot args = some (rf', reply, msg)) :
    rf.Saves rf' := by
  rcases installSnapshot_cases h with ⟨-, rfl, -⟩ | ⟨-, -, ⟨-, rfl, -⟩ | ⟨-, -, -, logs, -, rfl⟩⟩
  · exact .refl rf'
  · exact .persist _
  · exact .persist _

theorem saves_handleInstallSnapshot (rf : Raft n C S) (server : Fin n)
    (args : InstallSnapshotArgs n S) (reply : InstallSnapshotReply) :
    rf.Saves (rf.handleInstallSnapshot server args reply) := by
  rcases handleInstallSnapshot_cases rf server args reply with h | ⟨-, -, ⟨-, h⟩ | ⟨-, -, h⟩⟩ <;>
    rw [h]
  · exact .refl rf
  · exact .persist _
  · exact .same rfl rfl rfl rfl rfl

end Raft

namespace Node

variable {nd : Node n C S} {out : Out n C S}

theorem Goes.saves {t : Thread n C S} (h : Goes nd t out) : nd.rf.Saves out.node.rf := by
  cases h with
  | startPersist => exact .persist _
  | condInstall handler => exact Raft.saves_condInstallSnapshot handler
  | _ => exact .same rfl rfl rfl rfl rfl

theorem Move.saves {inp : Input n C S} (h : nd.Move inp out) : nd.rf.Saves out.node.rf := by
  cases h with
  | startElection ticker => exact .later rfl
  | persistElection ticker => exact .persist _
  | snapshot received handler => exact Raft.saves_snapshotTo handler
  | run thread goes => exact goes.saves
  | crash => exact .restart
  | requestVote body handler => exact Raft.saves_requestVote handler
  | appendEntries body handler => exact Raft.saves_appendEntries handler
  | installSnapshot body handler => exact Raft.saves_installSnapshot handler
  | requestVoteReply body incarnation => exact Raft.saves_handleRequestVote ..
  | appendEntriesReply body incarnation handler => exact Raft.saves_handleAppendEntries handler
  | installSnapshotReply body incarnation => exact Raft.saves_handleInstallSnapshot ..
  | _ => exact .refl nd.rf

end Node
end DistLabs
