import DistLabs.Raft.Shadow

/-! # What a step does to the log

    `Node.Edit` keeps of a step what it does to the log, its marker and its indices, and
    `Node.Emits` what it puts on the network. A property of the log, of the goroutines and of the
    requests in flight that both of them and `Node.Spawned` keep holds in every run
    (`Maintained.run`). -/

namespace DistLabs

variable {n : ℕ} {C S : Type}

/-- The log and its marker are as they were; the term has not fallen, and the stable storage is as
    before or up to date. -/
structure Raft.SameEntries (rf rf' : Raft n C S) : Prop where
  me : rf'.me = rf.me
  term : rf.currentTerm ≤ rf'.currentTerm
  logs : rf'.logs = rf.logs
  index : rf'.lastIncludedIndex = rf.lastIncludedIndex
  marker : rf'.lastIncludedTerm = rf.lastIncludedTerm
  saved : rf'.persister = rf.persister ∨ rf'.persist = rf'

/-- And so are `commitIndex` and `lastApplied`. -/
structure Raft.SameLog (rf rf' : Raft n C S) : Prop extends rf.SameEntries rf' where
  commit : rf'.commitIndex = rf.commitIndex
  applied : rf'.lastApplied = rf.lastApplied

namespace Raft

variable {rf rf' : Raft n C S}

theorem SameLog.refl (rf : Raft n C S) : rf.SameLog rf :=
  ⟨⟨rfl, le_rfl, rfl, rfl, rfl, .inl rfl⟩, rfl, rfl⟩

theorem SameLog.persist (rf : Raft n C S) : rf.SameLog rf.persist :=
  ⟨⟨rfl, le_rfl, rfl, rfl, rfl, .inr rfl⟩, rfl, rfl⟩

theorem SameEntries.last (h : rf.SameEntries rf') :
    rf'.getLastLogicalIndex = rf.getLastLogicalIndex := by
  rw [getLastLogicalIndex, getLastLogicalIndex, h.logs, h.index]

theorem restored_persist_currentTerm (rf : Raft n C S) :
    rf.persist.restored.currentTerm = rf.currentTerm := by
  unfold restored make readPersist readSnapshotPersist Raft.persist
  dsimp only
  split <;> rfl

theorem sameLog_stepDown_persist {t : ℤ} (h : rf.currentTerm ≤ t) :
    rf.SameLog (rf.stepDown t).persist :=
  ⟨⟨rfl, h, rfl, rfl, rfl, .inr rfl⟩, rfl, rfl⟩

theorem sameLog_requestVote {args : RequestVoteArgs n} {reply : RequestVoteReply}
    (h : rf.requestVote args = some (rf', reply)) : rf.SameLog rf' := by
  rcases requestVote_cases h with ⟨-, rfl, -⟩ | ⟨hle, -, b, -, rfl, -⟩
  · exact .persist rf
  · exact ⟨⟨meet_me _, (meet_currentTerm hle).ge.trans' hle, meet_logs _, meet_lastIncludedIndex _,
      meet_lastIncludedTerm _, .inr rfl⟩, meet_commitIndex _, meet_lastApplied _⟩

theorem sameLog_handleRequestVote (rf : Raft n C S) (k : ℕ) (reply : RequestVoteReply) :
    rf.SameLog (rf.handleRequestVote k reply).1 := by
  rcases handleRequestVote_cases rf k reply with ⟨-, h⟩ | ⟨hlt, h⟩ | h <;> rw [h]
  · exact ⟨⟨rfl, le_rfl, rfl, rfl, rfl, .inl rfl⟩, rfl, rfl⟩
  · exact ⟨⟨rfl, hlt.le, rfl, rfl, rfl, .inl rfl⟩, rfl, rfl⟩
  · exact .refl rf

theorem sameLog_handleInstallSnapshot (rf : Raft n C S) (server : Fin n)
    (args : InstallSnapshotArgs n S) (reply : InstallSnapshotReply) :
    rf.SameLog (rf.handleInstallSnapshot server args reply) := by
  rcases handleInstallSnapshot_cases rf server args reply with h | ⟨-, -, ⟨hlt, h⟩ | ⟨-, -, h⟩⟩ <;>
    rw [h]
  · exact .refl rf
  · exact sameLog_stepDown_persist hlt.le
  · exact ⟨⟨rfl, le_rfl, rfl, rfl, rfl, .inl rfl⟩, rfl, rfl⟩

theorem sameLog_meet_persist {t : ℤ} (h : rf.currentTerm ≤ t) : rf.SameLog (rf.meet t).persist :=
  ⟨⟨meet_me _, (meet_currentTerm h).ge.trans' h, meet_logs _, meet_lastIncludedIndex _,
    meet_lastIncludedTerm _, .inr rfl⟩, meet_commitIndex _, meet_lastApplied _⟩

theorem sameLog_follow_persist {t : ℤ} (h : rf.currentTerm ≤ t) :
    rf.SameLog (rf.follow t).persist :=
  ⟨⟨follow_me _, (follow_currentTerm h).ge.trans' h, follow_logs _, follow_lastIncludedIndex _,
    follow_lastIncludedTerm _, .inr rfl⟩, follow_commitIndex _, follow_lastApplied _⟩

end Raft

namespace Node

variable {nd : Node n C S} {inp : Input n C S} {out : Out n C S}

/-- What a step does to the log of the server. -/
inductive Edit (nd : Node n C S) (inp : Input n C S) : Raft n C S → Prop
  | keep {rf' : Raft n C S} (same : nd.rf.SameLog rf') : Edit nd inp rf'
  /-- the second section of `Start` -/
  | append {term : ℤ} {command : Option C}
      (running : nd.running inp = some (.start term command)) :
      Edit nd inp (nd.rf.startAppend term command).1
  /-- an accepted `AppendEntries` -/
  | store {args : AppendEntriesArgs n C} (request : inp.appendRequest = some args)
      (accepts : nd.rf.Accepts args) (low : nd.rf.lastIncludedIndex ≤ args.prevLogIndex + 1) :
      Edit nd inp (nd.rf.stored args).persist
  /-- a leader that counts a majority -/
  | commit {rf' : Raft n C S} (same : nd.rf.SameEntries rf')
      (lt : nd.rf.commitIndex < rf'.commitIndex)
      (le : rf'.commitIndex ≤ nd.rf.getLastLogicalIndex)
      (applied : rf'.lastApplied = nd.rf.lastApplied) : Edit nd inp rf'
  /-- `applyLogs` after a send -/
  | applied {i : ℤ} {msgs : List (ApplyMsg C S)}
      (running : nd.running inp = some (.applied i msgs)) :
      Edit nd inp { nd.rf with lastApplied := i }
  /-- `Snapshot` for a new index -/
  | compact {index : ℤ} {data : Option S} {e : LogEntry C} {rest : List (LogEntry C)}
      (received : nd.received.any (·.isCommandAt index) = true)
      (lt : nd.rf.lastIncludedIndex < index) (le : index ≤ nd.rf.getLastLogicalIndex)
      (drop : nd.rf.logs.drop (index - nd.rf.lastIncludedIndex).toNat = e :: rest) :
      Edit nd inp { nd.rf with
        lastIncludedTerm := e.term
        logs := ⟨e.term, none⟩ :: rest
        lastIncludedIndex := index
        snapshot := data }.persist
  /-- `InstallSnapshot` of a snapshot that is new to the server -/
  | install {args : InstallSnapshotArgs n S} {logs : List (LogEntry C)}
      (request : inp.installRequest = some args) (term : nd.rf.currentTerm ≤ args.term)
      (lt : nd.rf.lastIncludedIndex < args.lastIncludedIndex)
      (ahead : nd.rf.lastApplied < args.lastIncludedIndex)
      (trim : nd.rf.getLastLogicalIndex ≤ args.lastIncludedIndex ∧
          logs = [⟨args.lastIncludedTerm, none⟩] ∨
        args.lastIncludedIndex < nd.rf.getLastLogicalIndex ∧
          ∃ e rest, nd.rf.logs.drop (args.lastIncludedIndex - nd.rf.lastIncludedIndex).toNat
            = e :: rest ∧ logs = ⟨0, none⟩ :: rest) :
      Edit nd inp (nd.rf.installed args logs).persist
  | cond {t i : ℤ} {rf' : Raft n C S} (running : nd.running inp = some (.condInstall t i))
      (handler : nd.rf.condInstallSnapshot t i = some rf') : Edit nd inp rf'
  | restart (crash : inp.isCrash = true) : Edit nd inp nd.rf.restored

theorem edit_appendEntries {p : Packet n C S} {args : AppendEntriesArgs n C} {rf' : Raft n C S}
    {reply : AppendEntriesReply} {go : Bool} (body : p.body = .appendEntries args)
    (handler : nd.rf.appendEntries args = some (rf', reply, go)) : nd.Edit (.recv p) rf' := by
  rcases Raft.appendEntries_cases handler with ⟨-, rfl, -⟩ | ⟨hle, rfl, -⟩ |
    ⟨hle, hlast, hlow, hterm, rfl, -⟩
  · exact .keep (.persist _)
  · exact .keep (Raft.sameLog_follow_persist hle)
  · exact .store (by rw [Input.appendRequest, body]) ⟨hle, hlast, hterm⟩ (by omega)

theorem edit_installSnapshot {p : Packet n C S} {args : InstallSnapshotArgs n S}
    {rf' : Raft n C S} {reply : InstallSnapshotReply} {msg : Option (ApplyMsg C S)}
    (body : p.body = .installSnapshot args)
    (handler : nd.rf.installSnapshot args = some (rf', reply, msg)) : nd.Edit (.recv p) rf' := by
  rcases Raft.installSnapshot_cases handler with ⟨-, rfl, -⟩ |
    ⟨hle, -, ⟨-, rfl, -⟩ | ⟨hlt, hahead, -, logs, hlogs, rfl⟩⟩
  · exact .keep (.refl _)
  · exact .keep (Raft.sameLog_meet_persist hle)
  · exact .install (by rw [Input.installRequest, body]) hle hlt hahead hlogs

theorem edit_appendEntriesReply {p : Packet n C S} {args : AppendEntriesArgs n C}
    {reply : AppendEntriesReply} {rf' : Raft n C S} {go : Bool}
    (handler : nd.rf.handleAppendEntries p.src args reply = some (rf', go)) :
    nd.Edit (.recv p) rf' := by
  rcases Raft.handleAppendEntries_cases handler with ⟨-, rfl, -⟩ | ⟨-, hlt, rfl, -⟩ |
    ⟨-, -, -, ⟨x, rfl⟩, -⟩ | ⟨-, -, -, idx, rfl, ⟨rfl, -⟩ | ⟨-, hlt, hle, -⟩⟩
  · exact .keep (.persist _)
  · exact .keep (Raft.sameLog_stepDown_persist hlt.le)
  · exact .keep ⟨⟨rfl, le_rfl, rfl, rfl, rfl, .inr rfl⟩, rfl, rfl⟩
  · exact .keep ⟨⟨rfl, le_rfl, rfl, rfl, rfl, .inr rfl⟩, rfl, rfl⟩
  · exact .commit ⟨rfl, le_rfl, rfl, rfl, rfl, .inr rfl⟩ hlt hle rfl

theorem Move.edit (h : nd.Move inp out) : nd.Edit inp out.node.rf := by
  cases h with
  | startElection ticker =>
    exact .keep ⟨⟨rfl, (Int.le_add_one le_rfl : nd.rf.currentTerm ≤ nd.rf.currentTerm + 1), rfl,
      rfl, rfl, .inl rfl⟩, rfl, rfl⟩
  | persistElection ticker => exact .keep (.persist _)
  | snapshot received handler =>
    rcases Raft.snapshotTo_cases handler with ⟨-, rfl⟩ | ⟨hlt, hle, e, rest, hdrop, rfl⟩
    · exact .keep (.refl _)
    · exact .compact received hlt hle hdrop
  | run thread goes =>
    cases goes with
    | start term command => exact .append thread
    | startPersist index term command => exact .keep (.persist _)
    | applied i msgs => exact .applied thread
    | condInstall handler => exact .cond thread handler
    | _ => exact .keep (.refl _)
  | crash => exact .restart rfl
  | requestVote body handler => exact .keep (Raft.sameLog_requestVote handler)
  | appendEntries body handler => exact edit_appendEntries body handler
  | installSnapshot body handler => exact edit_installSnapshot body handler
  | requestVoteReply body incarnation => exact .keep (Raft.sameLog_handleRequestVote ..)
  | appendEntriesReply body incarnation handler => exact edit_appendEntriesReply handler
  | installSnapshotReply body incarnation => exact .keep (Raft.sameLog_handleInstallSnapshot ..)
  | _ => exact .keep (.refl _)

/-- Stable storage is untouched or brought up to date. -/
theorem Edit.saved {rf' : Raft n C S} (h : nd.Edit inp rf') :
    rf'.me = nd.rf.me ∧ (rf'.persister = nd.rf.persister ∨ rf'.persist = rf') := by
  cases h with
  | keep same => exact ⟨same.me, same.saved⟩
  | append running => exact ⟨rfl, .inl rfl⟩
  | store request accepts low => exact ⟨Raft.follow_me _, .inr rfl⟩
  | commit same lt le applied => exact ⟨same.me, same.saved⟩
  | applied running => exact ⟨rfl, .inl rfl⟩
  | compact received lt le drop => exact ⟨rfl, .inr rfl⟩
  | install request term lt ahead trim => exact ⟨Raft.meet_me _, .inr rfl⟩
  | cond running handler =>
    obtain ⟨logs, -, rfl⟩ := Option.map_eq_some_iff.mp handler
    exact ⟨rfl, .inr rfl⟩
  | restart crash => exact ⟨Raft.make_me .., .inl (Raft.make_persister ..)⟩

/-- What a step puts on the network, the messages of elections aside. -/
inductive Emits (nd : Node n C S) (inp : Input n C S) (out : Out n C S) : Packet n C S → Prop
  | vote {p : Packet n C S} (vote : p.isVote = true) : Emits nd inp out p
  | append {server : Fin n} {args : AppendEntriesArgs n C}
      (running : nd.running inp = some (.append server args false)) (role : nd.rf.role = .Leader)
      (rf : out.node.rf = nd.rf) :
      Emits nd inp out (nd.packet server (.appendEntries args))
  | install {server : Fin n} {args : InstallSnapshotArgs n S}
      (running : nd.running inp = some (.installSend server args)) (role : nd.rf.role = .Leader)
      (rf : out.node.rf = nd.rf) :
      Emits nd inp out (nd.packet server (.installSnapshot args))
  | appendReply {p : Packet n C S} {args : AppendEntriesArgs n C} {reply : AppendEntriesReply}
      {go : Bool} (input : inp = .recv p) (body : p.body = .appendEntries args)
      (handler : nd.rf.appendEntries args = some (out.node.rf, reply, go)) :
      Emits nd inp out ⟨p.dst, p.src, p.incarnation, .appendEntriesReply args reply⟩
  | installReply {p : Packet n C S} {args : InstallSnapshotArgs n S}
      {reply : InstallSnapshotReply} (input : inp = .recv p)
      (body : p.body = .installSnapshot args) :
      Emits nd inp out ⟨p.dst, p.src, p.incarnation, .installSnapshotReply args reply⟩

theorem Move.emits (h : nd.Move inp out) {p : Packet n C S} (hp : p ∈ out.sent) :
    nd.Emits inp out p := by
  cases h with
  | sendRequestVotes ticker gen =>
    obtain ⟨j, -, rfl⟩ := List.mem_map.mp hp
    exact .vote rfl
  | run thread goes =>
    cases goes with
    | appendSend role =>
      obtain rfl := List.mem_singleton.mp hp
      exact .append thread role rfl
    | installSend role =>
      obtain rfl := List.mem_singleton.mp hp
      exact .install thread role rfl
    | _ => cases hp
  | requestVote body handler =>
    obtain rfl := List.mem_singleton.mp hp
    exact .vote rfl
  | appendEntries body handler =>
    obtain rfl := List.mem_singleton.mp hp
    exact .appendReply rfl body handler
  | installSnapshot body handler =>
    obtain rfl := List.mem_singleton.mp hp
    exact .installReply rfl body
  | _ => cases hp

end Node

/-! ### Properties kept by all steps -/

namespace Cluster

variable {s t : Cluster n C S} {ok : Node n C S → Input n C S → Prop}

/-- A property of each server and of each message in flight, relative to the states the peers have
    gone through, that every step of a server keeps, holds in every run. -/
theorem local_invariant {G : List (Raft n C S) → Node n C S → Prop}
    {M : List (Raft n C S) → Packet n C S → Prop} (h : Run step (At ok) init t)
    (hboot : ∀ past i, G past (Node.boot i))
    (hG : ∀ rf past nd, G past nd → G (rf :: past) nd)
    (hM : ∀ rf past p, M past p → M (rf :: past) p)
    (hstep : ∀ past nd inp out, G past nd → nd.rf ∈ past → (∀ p, inp = .recv p → M past p) →
      ok nd inp → nd.Move inp out → G (out.node.rf :: past) out.node ∧
        ∀ p ∈ out.sent, M (out.node.rf :: past) p) :
    (∀ i, G t.past (t.nodes i)) ∧ ∀ p ∈ t.net, M t.past p := by
  have hinv : (∀ i, G t.past (t.nodes i) ∧ (t.nodes i).rf ∈ t.past) ∧ ∀ p ∈ t.net, M t.past p := by
    refine h.invariant (P := fun s => (∀ i, G s.past (s.nodes i) ∧ (s.nodes i).rf ∈ s.past) ∧
      ∀ p ∈ s.net, M s.past p) ⟨fun i => ⟨hboot _ i, ?_⟩, by rintro _ ⟨⟩⟩ ?_
    · exact List.mem_map.mpr ⟨i, List.mem_finRange i, rfl⟩
    rintro s s' e ⟨hnodes, hnet⟩ hok hstep'
    obtain ⟨i, inp, net, out, hin, hon, rfl⟩ := step_ok hstep'
    have hrecv : ∀ p, inp = .recv p → M s.past p := by
      rintro p rfl
      exact hnet p ((input_recv hin).2.subset (List.mem_cons_self ..))
    obtain ⟨hnode, hsent⟩ := hstep s.past _ inp out (hnodes i).1 (hnodes i).2 hrecv
      (hok.at_input hin) (Node.on_move hon)
    refine ⟨fun j => ?_, fun p hp => ?_⟩
    · rcases eq_or_ne j i with rfl | hne
      · rw [advance_nodes_self]
        exact ⟨hnode, List.mem_cons_self ..⟩
      · rw [advance_nodes_of_ne hne]
        exact ⟨hG _ _ _ (hnodes j).1, List.mem_cons_of_mem _ (hnodes j).2⟩
    · rcases mem_advance_net.mp hp with hold | hnew
      · exact hM _ _ _ (hnet p ((input_sublist hin).subset hold))
      · exact hsent p hnew
  exact ⟨fun i => (hinv.1 i).1, hinv.2⟩

end Cluster

/-- The peers satisfy `Q` and would after a restart, their goroutines `W`, the requests in flight
    `A` and `I`, relative to the past states; and all of this is kept by the steps that meet
    `ok`. -/
structure Maintained (ok : Node n C S → Input n C S → Prop)
    (Q : List (Raft n C S) → Raft n C S → Prop) (W : List (Raft n C S) → Thread n C S → Prop)
    (A : List (Raft n C S) → AppendEntriesArgs n C → Prop)
    (I : List (Raft n C S) → InstallSnapshotArgs n S → Prop) : Prop where
  boot : ∀ past i, Q past (Node.boot i).rf ∧ Q past (Node.boot i).rf.restored
  later : ∀ rf past, (∀ x, Q past x → Q (rf :: past) x) ∧ (∀ x, W past x → W (rf :: past) x) ∧
    (∀ x, A past x → A (rf :: past) x) ∧ ∀ x, I past x → I (rf :: past) x
  stored : ∀ past rf, Q past rf → Q past rf.persist.restored
  edit : ∀ past nd inp rf', Q past nd.rf → Q past nd.rf.restored → nd.rf ∈ past →
    (∀ t ∈ nd.running inp, W past t) → (∀ args ∈ inp.appendRequest, A past args) →
    (∀ args ∈ inp.installRequest, I past args) → ok nd inp → nd.Edit inp rf' → Q (rf' :: past) rf'
  spawned : ∀ past nd inp t, Q past nd.rf → (∀ t ∈ nd.running inp, W past t) →
    (∀ args ∈ inp.installRequest, I past args) → ok nd inp → nd.Spawned inp t → W past t
  append : ∀ past server args, W past (.append server args false) → A past args
  install : ∀ past server args, W past (.installSend server args) → I past args

namespace Maintained

variable {ok : Node n C S → Input n C S → Prop} {Q : List (Raft n C S) → Raft n C S → Prop}
  {W : List (Raft n C S) → Thread n C S → Prop}
  {A : List (Raft n C S) → AppendEntriesArgs n C → Prop}
  {I : List (Raft n C S) → InstallSnapshotArgs n S → Prop}

theorem restored (hm : Maintained ok Q W A I) {past : List (Raft n C S)} {nd : Node n C S}
    {inp : Input n C S} {rf' : Raft n C S} (h : nd.Edit inp rf') (hold : Q past nd.rf.restored)
    (hnew : Q (rf' :: past) rf') : Q (rf' :: past) rf'.restored := by
  obtain ⟨hme, hp | hp⟩ := h.saved
  · rw [Raft.restored, hme, hp]
    exact (hm.later rf' past).1 _ hold
  · rw [← hp] at hnew ⊢
    exact hm.stored _ _ (hp ▸ hnew)

/-- The requests in flight satisfy `A` and `I`. -/
def Carried (A : List (Raft n C S) → AppendEntriesArgs n C → Prop)
    (I : List (Raft n C S) → InstallSnapshotArgs n S → Prop) (past : List (Raft n C S))
    (p : Packet n C S) : Prop :=
  (∀ args ∈ (Input.recv p).appendRequest, A past args) ∧
    ∀ args ∈ (Input.recv p).installRequest, I past args

theorem carried (hm : Maintained ok Q W A I) {past : List (Raft n C S)} {nd : Node n C S}
    {inp : Input n C S} {out : Out n C S} {p : Packet n C S}
    (hW : ∀ t ∈ nd.running inp, W past t) (h : nd.Emits inp out p) : Carried A I past p := by
  cases h with
  | vote vote =>
    rcases p with ⟨src, dst, inc, body⟩
    cases body <;> simp_all [Packet.isVote, Carried, Input.appendRequest, Input.installRequest]
  | append running role rf =>
    refine ⟨fun args hargs => ?_, by rintro _ ⟨⟩⟩
    obtain rfl := Option.some.inj hargs
    exact hm.append _ _ _ (hW _ running)
  | install running role rf =>
    refine ⟨by rintro _ ⟨⟩, fun args hargs => ?_⟩
    obtain rfl := Option.some.inj hargs
    exact hm.install _ _ _ (hW _ running)
  | appendReply input body handler =>
    exact ⟨by rintro _ ⟨⟩, by rintro _ ⟨⟩⟩
  | installReply input body =>
    exact ⟨by rintro _ ⟨⟩, by rintro _ ⟨⟩⟩

/-- What every step keeps holds in every run. -/
theorem run (hm : Maintained ok Q W A I) {t : Cluster n C S}
    (h : Run Cluster.step (Cluster.At ok) Cluster.init t) (i : Fin n) :
    Q t.past (t.nodes i).rf ∧ ∀ th ∈ (t.nodes i).threads, W t.past th := by
  have hinv := Cluster.local_invariant (M := Carried A I)
    (G := fun past nd => (Q past nd.rf ∧ Q past nd.rf.restored) ∧ ∀ th ∈ nd.threads, W past th) h
    (fun past i => ⟨hm.boot past i, by rintro _ ⟨⟩⟩)
    (fun rf past nd hG => ⟨⟨(hm.later rf past).1 _ hG.1.1, (hm.later rf past).1 _ hG.1.2⟩,
      fun th hth => (hm.later rf past).2.1 _ (hG.2 th hth)⟩)
    (fun rf past p hp => ⟨fun args hargs => (hm.later rf past).2.2.1 _ (hp.1 args hargs),
      fun args hargs => (hm.later rf past).2.2.2 _ (hp.2 args hargs)⟩)
    ?_
  · exact ⟨(hinv.1 i).1.1, (hinv.1 i).2⟩
  rintro past nd inp out ⟨⟨hQ, hR⟩, hW⟩ hpast hrecv hok hmove
  have hrun : ∀ t ∈ nd.running inp, W past t := fun t ht => hW t (Node.mem_of_running ht)
  have hA : ∀ args ∈ inp.appendRequest, A past args := by
    cases inp with
    | act a => rintro _ ⟨⟩
    | recv p => exact (hrecv p rfl).1
  have hI : ∀ args ∈ inp.installRequest, I past args := by
    cases inp with
    | act a => rintro _ ⟨⟩
    | recv p => exact (hrecv p rfl).2
  have hedit := hmove.edit
  have hQ' := hm.edit past nd inp _ hQ hR hpast hrun hA hI hok hedit
  refine ⟨⟨⟨hQ', hm.restored hedit hR hQ'⟩, fun th hth => ?_⟩, fun p hp => ?_⟩
  · refine (hm.later _ _).2.1 _ ?_
    rcases hmove.threads hth with hold | hnew
    · exact hW th hold
    · exact hm.spawned past nd inp th hQ hrun hI hok hnew
  · obtain ⟨ha, hi⟩ := hm.carried hrun (hmove.emits hp)
    exact ⟨fun args hargs => (hm.later _ _).2.2.1 _ (ha args hargs),
      fun args hargs => (hm.later _ _).2.2.2 _ (hi args hargs)⟩

end Maintained
end DistLabs
