import DistLabs.Raft.Cluster

/-! # What one step of a server can be

    `Node.Goes` lists the steps of the goroutines, `Node.Move` all steps of a server, each with what
    has to hold before it and its whole result. Every invariant of the cluster is proved by cases on
    these two, so the functions of the cluster are taken apart here only. -/

namespace DistLabs

variable {n : ℕ} {C S : Type}

/-- The peer starts anew from its stable storage; its goroutines are gone. -/
def Node.restart (nd : Node n C S) : Node n C S :=
  { rf := Raft.make nd.rf.me nd.rf.persister
    incarnation := nd.incarnation + 1
    ticker := .idle
    voteCounts := []
    threads := []
    received := [] }

/-- What `go rf.applyLogs()` behind a condition starts. -/
theorem Thread.eq_apply_of_mem {go : Bool} {t : Thread n C S}
    (h : t ∈ (if go then [.apply] else [] : List (Thread n C S))) : t = .apply := by
  cases go with
  | false => cases h
  | true => exact List.mem_singleton.mp h

namespace Node

/-- The steps of a goroutine that is already taken off the list of `nd`. -/
inductive Goes (nd : Node n C S) : Thread n C S → Out n C S → Prop
  | start (term : ℤ) (command : Option C) : Goes nd (.start term command)
      { node := { nd with rf := (nd.rf.startAppend term command).1 }.spawn
          [.startPersist (nd.rf.startAppend term command).2 term command] }
  | startPersist (index term : ℤ) (command : Option C) : Goes nd (.startPersist index term command)
      { node := { nd with rf := nd.rf.persist }, started := [⟨nd.rf.me, index, term, command⟩] }
  | heartbeat {server : Fin n} {args : AppendEntriesArgs n C} {isSnapshot : Bool}
      (gen : nd.rf.genAppendEntries server = some (args, isSnapshot)) :
      Goes nd (.heartbeat server) { node := nd.spawn [.append server args isSnapshot] }
  | appendSnapshot {server : Fin n} {args : AppendEntriesArgs n C} (role : nd.rf.role = .Leader) :
      Goes nd (.append server args true) { node := nd.spawn [.install server] }
  | appendSend {server : Fin n} {args : AppendEntriesArgs n C} (role : nd.rf.role = .Leader) :
      Goes nd (.append server args false)
        { node := nd, sent := [nd.packet server (.appendEntries args)] }
  | appendDrop {server : Fin n} {args : AppendEntriesArgs n C} {isSnapshot : Bool}
      (role : nd.rf.role ≠ .Leader) : Goes nd (.append server args isSnapshot) { node := nd }
  | install (server : Fin n) :
      Goes nd (.install server) { node := nd.spawn [.installSend server nd.rf.genInstallSnapshot] }
  | installSend {server : Fin n} {args : InstallSnapshotArgs n S} (role : nd.rf.role = .Leader) :
      Goes nd (.installSend server args)
        { node := nd, sent := [nd.packet server (.installSnapshot args)] }
  | installDrop {server : Fin n} {args : InstallSnapshotArgs n S} (role : nd.rf.role ≠ .Leader) :
      Goes nd (.installSend server args) { node := nd }
  | applyCond (logs : nd.rf.applyLogs = some none) : Goes nd .apply { node := nd.spawn [.condRead] }
  | apply {msgs : List (ApplyMsg C S)} (logs : nd.rf.applyLogs = some (some msgs)) :
      Goes nd .apply { node := nd.spawn [.applying msgs] }
  | applyDone : Goes nd (.applying []) { node := nd }
  | applySend (msg : ApplyMsg C S) (msgs : List (ApplyMsg C S)) : Goes nd (.applying (msg :: msgs))
      { node := { nd with received := msg :: nd.received }.spawn [.applied msg.commandIndex msgs]
        applied := [msg] }
  | applied (i : ℤ) (msgs : List (ApplyMsg C S)) : Goes nd (.applied i msgs)
      { node := { nd with rf := { nd.rf with lastApplied := i } }.spawn [.applying msgs] }
  | condRead : Goes nd .condRead
      { node := nd.spawn [.condInstall nd.rf.lastIncludedIndex nd.rf.lastIncludedTerm] }
  | condInstall {t i : ℤ} {rf : Raft n C S} (handler : nd.rf.condInstallSnapshot t i = some rf) :
      Goes nd (.condInstall t i) { node := { nd with rf := rf } }
  | snapshotMsg (msg : ApplyMsg C S) : Goes nd (.snapshotMsg msg)
      { node := { nd with received := msg :: nd.received }, applied := [msg] }

/-- All steps of a server. -/
inductive Move (nd : Node n C S) : Input n C S → Out n C S → Prop
  | timeout (ticker : nd.ticker = .idle) (role : nd.rf.role ≠ .Leader) :
      Move nd (.act .timeout) { node := { nd with ticker := .timedOut } }
  | startElection (ticker : nd.ticker = .timedOut) : Move nd (.act .startElection)
      { node := { nd with
          rf := nd.rf.startElection
          ticker := .elected nd.rf.startElection.currentTerm } }
  | sendRequestVotes {t : ℤ} {args : RequestVoteArgs n} (ticker : nd.ticker = .elected t)
      (gen : nd.rf.genRequestVoteArgs = some args) : Move nd (.act .sendRequestVotes)
      { node := { nd with ticker := .persisting, voteCounts := nd.voteCounts ++ [1] }
        sent := nd.others.map fun i => nd.packet i (.requestVote nd.voteCounts.length args) }
  | persistElection (ticker : nd.ticker = .persisting) : Move nd (.act .persistElection)
      { node := { nd with rf := nd.rf.persist, ticker := .idle } }
  | heartbeat (role : nd.rf.role = .Leader) : Move nd (.act .heartbeat)
      { node := nd.spawn (nd.others.map .heartbeat) }
  | start (role : nd.rf.role = .Leader) (command : Option C) : Move nd (.act (.start command))
      { node := nd.spawn [.start nd.rf.currentTerm command] }
  | startRefused (role : nd.rf.role ≠ .Leader) (command : Option C) :
      Move nd (.act (.start command)) { node := nd }
  | snapshot {index : ℤ} {data : Option S} {rf : Raft n C S}
      (received : nd.received.any (·.isCommandAt index) = true)
      (handler : nd.rf.snapshotTo index data = some rf) : Move nd (.act (.snapshot index data))
      { node := { nd with rf := rf } }
  | run {k : ℕ} {t : Thread n C S} {out : Out n C S} (thread : nd.threads[k]? = some t)
      (goes : Goes { nd with threads := nd.threads.eraseIdx k } t out) :
      Move nd (.act (.run k)) out
  | crash : Move nd (.act .crash) { node := nd.restart }
  | requestVote {p : Packet n C S} {e : ℕ} {args : RequestVoteArgs n} {rf : Raft n C S}
      {reply : RequestVoteReply} (body : p.body = .requestVote e args)
      (handler : nd.rf.requestVote args = some (rf, reply)) : Move nd (.recv p)
      { node := { nd with rf := rf }
        sent := [⟨p.dst, p.src, p.incarnation, .requestVoteReply e args reply⟩] }
  | appendEntries {p : Packet n C S} {args : AppendEntriesArgs n C} {rf : Raft n C S}
      {reply : AppendEntriesReply} {go : Bool} (body : p.body = .appendEntries args)
      (handler : nd.rf.appendEntries args = some (rf, reply, go)) : Move nd (.recv p)
      { node := { nd with rf := rf }.spawn (if go then [.apply] else [])
        sent := [⟨p.dst, p.src, p.incarnation, .appendEntriesReply args reply⟩] }
  | installSnapshot {p : Packet n C S} {args : InstallSnapshotArgs n S} {rf : Raft n C S}
      {reply : InstallSnapshotReply} {msg : Option (ApplyMsg C S)}
      (body : p.body = .installSnapshot args)
      (handler : nd.rf.installSnapshot args = some (rf, reply, msg)) : Move nd (.recv p)
      { node := { nd with rf := rf }.spawn (msg.toList.map .snapshotMsg)
        sent := [⟨p.dst, p.src, p.incarnation, .installSnapshotReply args reply⟩] }
  | requestVoteReply {p : Packet n C S} {e : ℕ} {args : RequestVoteArgs n}
      {reply : RequestVoteReply} (body : p.body = .requestVoteReply e args reply)
      (incarnation : p.incarnation = nd.incarnation) : Move nd (.recv p)
      { node := { nd with
          rf := (nd.rf.handleRequestVote (nd.voteCounts.getD e 0) reply).1
          voteCounts := nd.voteCounts.set e
            (nd.rf.handleRequestVote (nd.voteCounts.getD e 0) reply).2 } }
  | appendEntriesReply {p : Packet n C S} {args : AppendEntriesArgs n C}
      {reply : AppendEntriesReply} {rf : Raft n C S} {go : Bool}
      (body : p.body = .appendEntriesReply args reply)
      (incarnation : p.incarnation = nd.incarnation)
      (handler : nd.rf.handleAppendEntries p.src args reply = some (rf, go)) : Move nd (.recv p)
      { node := { nd with rf := rf }.spawn (if go then [.apply] else []) }
  | installSnapshotReply {p : Packet n C S} {args : InstallSnapshotArgs n S}
      {reply : InstallSnapshotReply} (body : p.body = .installSnapshotReply args reply)
      (incarnation : p.incarnation = nd.incarnation) : Move nd (.recv p)
      { node := { nd with rf := nd.rf.handleInstallSnapshot p.src args reply } }
  | late {p : Packet n C S} (incarnation : p.incarnation ≠ nd.incarnation) :
      Move nd (.recv p) { node := nd }

/-- `guard o` is followed by `f` and the whole succeeds. -/
theorem guard_bind_ok {α β : Type} {o : Option α} {f : α → Except Halt β} {b : β}
    (h : (guard o >>= f) = .ok b) : ∃ a, o = some a ∧ f a = .ok b := by
  cases o with
  | none => cases h
  | some a => exact ⟨a, rfl, h⟩

theorem getState_iff {rf : Raft n C S} : rf.getState.2 = true ↔ rf.role = .Leader := by
  simp [Raft.getState]

theorem runThread_goes {nd : Node n C S} {t : Thread n C S} {out : Out n C S}
    (h : nd.runThread t = .ok out) : Goes nd t out := by
  cases t with
  | start term command => cases h; exact .start ..
  | startPersist index term command => cases h; exact .startPersist ..
  | heartbeat server =>
    obtain ⟨⟨args, isSnapshot⟩, hgen, hf⟩ := guard_bind_ok h
    cases hf; exact .heartbeat hgen
  | append server args isSnapshot =>
    simp only [runThread, getState_iff] at h
    split at h
    · cases isSnapshot <;> cases h
      · exact .appendSend (by assumption)
      · exact .appendSnapshot (by assumption)
    · cases h; exact .appendDrop (by assumption)
  | install server => cases h; exact .install server
  | installSend server args =>
    simp only [runThread, getState_iff] at h
    split at h <;> cases h
    · exact .installSend (by assumption)
    · exact .installDrop (by assumption)
  | apply =>
    obtain ⟨batch, hlogs, hf⟩ := guard_bind_ok h
    cases batch <;> cases hf
    · exact .applyCond hlogs
    · exact .apply hlogs
  | applying msgs =>
    cases msgs <;> cases h
    · exact .applyDone
    · exact .applySend ..
  | applied i msgs => cases h; exact .applied ..
  | condRead => cases h; exact .condRead
  | condInstall t i =>
    obtain ⟨rf, hrf, hf⟩ := guard_bind_ok h
    cases hf; exact .condInstall hrf
  | snapshotMsg msg => cases h; exact .snapshotMsg msg

theorem act_move {nd : Node n C S} {a : Action C S} {out : Out n C S}
    (h : nd.act a = .ok out) : nd.Move (.act a) out := by
  cases a with
  | timeout =>
    simp only [act] at h
    split at h <;> cases h
    rename_i hc
    exact .timeout hc.1 (by simpa [Raft.getState] using hc.2)
  | startElection =>
    simp only [act] at h
    split at h <;> cases h
    exact .startElection (by assumption)
  | sendRequestVotes =>
    simp only [act] at h
    split at h
    · obtain ⟨args, hargs, hf⟩ := guard_bind_ok h
      cases hf
      exact .sendRequestVotes (by assumption) hargs
    · cases h
  | persistElection =>
    simp only [act] at h
    split at h <;> cases h
    exact .persistElection (by assumption)
  | heartbeat =>
    simp only [act, getState_iff] at h
    split at h <;> cases h
    exact .heartbeat (by assumption)
  | start command =>
    simp only [act, getState_iff] at h
    split at h <;> cases h
    · exact .start (by assumption) command
    · exact .startRefused (by assumption) command
  | snapshot index data =>
    simp only [act] at h
    split at h
    · obtain ⟨rf, hrf, hf⟩ := guard_bind_ok h
      cases hf
      exact .snapshot (by assumption) hrf
    · cases h
  | run k =>
    simp only [act] at h
    split at h
    · cases h
    · exact .run (by assumption) (runThread_goes h)
  | crash => cases h; exact .crash

theorem recv_move {nd : Node n C S} {p : Packet n C S} {out : Out n C S}
    (h : nd.recv p = .ok out) : nd.Move (.recv p) out := by
  unfold recv at h
  split at h
  · obtain ⟨⟨rf, reply⟩, hrf, hf⟩ := guard_bind_ok h
    cases hf
    exact .requestVote (by assumption) hrf
  · obtain ⟨⟨rf, reply, go⟩, hrf, hf⟩ := guard_bind_ok h
    cases hf
    exact .appendEntries (by assumption) hrf
  · obtain ⟨⟨rf, reply, msg⟩, hrf, hf⟩ := guard_bind_ok h
    cases hf
    exact .installSnapshot (by assumption) hrf
  · split at h <;> cases h
    · exact .requestVoteReply (by assumption) (by assumption)
    · exact .late (by assumption)
  · split at h
    · obtain ⟨⟨rf, go⟩, hrf, hf⟩ := guard_bind_ok h
      cases hf
      exact .appendEntriesReply (by assumption) (by assumption) hrf
    · cases h; exact .late (by assumption)
  · split at h <;> cases h
    · exact .installSnapshotReply (by assumption) (by assumption)
    · exact .late (by assumption)

theorem on_move {nd : Node n C S} {inp : Input n C S} {out : Out n C S}
    (h : nd.on inp = .ok out) : nd.Move inp out := by
  cases inp with
  | act a => exact act_move h
  | recv p => exact recv_move h

end Node
end DistLabs
