import DistLabs.Raft.Sound
import DistLabs.Raft.WholeLog
import DistLabs.Schemes.Replication

/-! # The replicas behind the servers

    A cluster state is related to a state of the replicated log of `Schemes.Replication`: the whole
    logs behind the compacted ones, the leader logs of all terms, and who has voted for and
    acknowledged what. The relation is a conjunction over servers, goroutines and messages, and all
    parts of it that are not about the acting server itself only ask that the replicas grow. -/

namespace DistLabs

open Replicas

variable {n : ℕ} {C S : Type}

/-- The replicas that the servers of a cluster stand for. -/
abbrev Shadow (n : ℕ) (C : Type) := Replicas (Fin n) ℤ (LogEntry C)

/-- What a restart would find. -/
def Raft.restored (rf : Raft n C S) : Raft n C S := Raft.make rf.me rf.persister

theorem Raft.restored_persist (rf : Raft n C S) :
    rf.persist.restored.logs = rf.logs ∧
      rf.persist.restored.lastIncludedIndex = rf.lastIncludedIndex ∧
      rf.persist.restored.lastIncludedTerm = rf.lastIncludedTerm := by
  unfold Raft.restored Raft.make Raft.readPersist Raft.readSnapshotPersist Raft.persist
  dsimp only
  split <;> exact ⟨rfl, rfl, rfl⟩

theorem Raft.make_commitIndex (me : Fin n) (p : Persister n C S) :
    (Raft.make me p).commitIndex = (Raft.make me p).lastIncludedIndex := by
  unfold Raft.make Raft.readPersist Raft.readSnapshotPersist
  dsimp only
  split <;> split <;> rfl

theorem Raft.make_lastApplied (me : Fin n) (p : Persister n C S) :
    (Raft.make me p).lastApplied = (Raft.make me p).lastIncludedIndex := by
  unfold Raft.make Raft.readPersist Raft.readSnapshotPersist
  dsimp only
  split <;> split <;> rfl

theorem Raft.restored_restored (rf : Raft n C S) : rf.restored.restored = rf.restored := by
  unfold Raft.restored
  rw [Raft.make_me, Raft.make_persister]

namespace Shadow

variable {g g' : Shadow n C} {i : Fin n} {T U : ℤ} {L : List (LogEntry C)}

/-- Server `j` is counted rightly as holding the first `m` entries of the leader log of `T`: it has
    acknowledged them, or that many entries are committed anyway. -/
def Matched (g : Shadow n C) (T : ℤ) (j : Fin n) (m : ℤ) : Prop :=
  (∃ k : ℕ, m ≤ k ∧ g.ack T j k) ∨ ∃ P, Committed LogEntry.term g T P ∧ m ≤ P.length

/-- An `AppendEntries` request that a leader of `T` with log `L` may send. -/
def Backs (g : Shadow n C) (T : ℤ) (L : List (LogEntry C)) (args : AppendEntriesArgs n C) : Prop :=
  args.Carries L ∧ Committed LogEntry.term g T
    (L.take (min args.leaderCommit (args.prevLogIndex + args.entries.length)).toNat)

/-- An `InstallSnapshot` request that a leader of `T` with log `L` may send. -/
def Snaps (g : Shadow n C) (T : ℤ) (L : List (LogEntry C)) (args : InstallSnapshotArgs n S) :
    Prop :=
  args.Covers L ∧ Committed LogEntry.term g T (L.take args.lastIncludedIndex.toNat)

/-- The command in a message on `applyCh` is committed at its index. -/
def Agreed (g : Shadow n C) : ApplyMsg C S → Prop
  | .command c i => 0 < i ∧ ∃ T P e, Committed LogEntry.term g T P ∧ P[(i - 1).toNat]? = some e ∧
      e.command = c
  | .snapshot _ _ _ => True

/-- A message the server has, or is about to put, on `applyCh`. -/
def Delivers (g : Shadow n C) (rf : Raft n C S) (m : ApplyMsg C S) : Prop :=
  Agreed g m ∧ ∀ i, m.isCommandAt i = true → i ≤ rf.commitIndex

/-- The peer leads its term, or may still come to do so. -/
def Standing (g : Shadow n C) (rf : Raft n C S) : Prop :=
  rf.role = .Leader ∨ rf.role = .Candidate ∧ g.lead rf.currentTerm = none

/-- The leader log of the term has the command at the index. -/
def Records (g : Shadow n C) (index term : ℤ) (command : Option C) : Prop :=
  0 < index ∧ ∃ L, g.lead term = some L ∧ L[(index - 1).toNat]? = some ⟨term, command⟩

/-- What a goroutine of server `i` holds. -/
def Works (g : Shadow n C) (i : Fin n) (rf : Raft n C S) : Thread n C S → Prop
  | .startPersist index term command => Records g index term command
  | .heartbeat server => server ≠ i
  | .append server _ true => server ≠ i
  | .append server args false => server ≠ i ∧ args.term ≤ rf.currentTerm ∧
      (args.term = rf.currentTerm → Standing g rf → Backs g rf.currentTerm (g.log i) args)
  | .install server => server ≠ i
  | .installSend server args => server ≠ i ∧ args.term ≤ rf.currentTerm ∧
      (args.term = rf.currentTerm → Standing g rf → Snaps g rf.currentTerm (g.log i) args)
  | .applying msgs => ∀ m ∈ msgs, Delivers g rf m
  | .applied _ msgs => ∀ m ∈ msgs, Delivers g rf m
  | .condRead => False
  | .condInstall _ _ => False
  | .snapshotMsg msg => Delivers g rf msg
  | .start _ _ => True
  | .apply => True

/-- The peer of server `i`. -/
structure Peer (g : Shadow n C) (i : Fin n) (rf : Raft n C S) : Prop where
  me : rf.me = i
  cur : g.cur i = rf.currentTerm
  nonneg : 0 ≤ rf.currentTerm
  pos : rf.role ≠ .Follower → 0 < rf.currentTerm
  log : rf.Compacts (g.log i)
  behind : rf.lastIncludedIndex ≤ rf.commitIndex
  within : rf.commitIndex ≤ (g.log i).length
  commit : Committed LogEntry.term g rf.currentTerm ((g.log i).take rf.commitIndex.toNat)
  store : rf.restored.Compacts (g.stable i)
  storeCommit : Committed LogEntry.term g rf.currentTerm
    ((g.stable i).take rf.restored.lastIncludedIndex.toNat)
  leader : rf.role = .Leader → g.lead rf.currentTerm = some (g.log i)
  candidate : rf.role = .Candidate → g.lead rf.currentTerm = none →
    ∀ L, g.ask rf.currentTerm i = some L → L = g.log i
  matched : rf.role = .Leader → ∀ j, Matched g rf.currentTerm j (rf.matchIndex j)

/-- Server `i` with its goroutines. -/
structure Server (g : Shadow n C) (i : Fin n) (nd : Node n C S) : Prop where
  peer : Peer g i nd.rf
  asks : ∀ T L, g.ask T i = some L →
    T ≤ nd.rf.currentTerm ∧ (nd.ticker.isElected = true → T < nd.rf.currentTerm)
  threads : ∀ t ∈ nd.threads, Works g i nd.rf t
  received : ∀ m ∈ nd.received, Delivers g nd.rf m

/-- What a message that was ever sent says about the replicas. -/
def Says (g : Shadow n C) (p : Packet n C S) : Prop :=
  match p.body with
  | .requestVote _ args => ∃ L, g.ask args.term p.src = some L ∧ args.lastLogIndex = L.length ∧
      args.lastLogTerm = lastTerm L
  | .requestVoteReply _ args reply => reply.voteGranted = true → g.vote args.term p.src p.dst
  | .appendEntries args => p.src ≠ p.dst ∧ ∃ L, g.lead args.term = some L ∧ Backs g args.term L args
  | .appendEntriesReply args reply => p.src ≠ p.dst ∧ (reply.success = true →
      (∃ L, g.lead args.term = some L ∧ args.Carries L) ∧
        ∃ m : ℕ, args.prevLogIndex + args.entries.length = m ∧ g.ack args.term p.src m)
  | .installSnapshot args => p.src ≠ p.dst ∧
      ∃ L, g.lead args.term = some L ∧ Snaps g args.term L args
  | .installSnapshotReply args _ => ∃ P, Committed LogEntry.term g args.term P ∧
      args.lastIncludedIndex ≤ P.length

/-! ### Growth -/

theorem Matched.mono (hg : Grows g g') {j : Fin n} {m : ℤ} (h : Matched g T j m) :
    Matched g' T j m := by
  rcases h with ⟨k, hk, hack⟩ | ⟨P, hP, hm⟩
  · exact .inl ⟨k, hk, hg.ack T j k hack⟩
  · exact .inr ⟨P, hP.mono hg le_rfl, hm⟩

theorem Backs.mono (hg : Grows g g') {L' : List (LogEntry C)} (hL : L <+: L')
    {args : AppendEntriesArgs n C} (h : Backs g T L args) : Backs g' T L' args := by
  obtain ⟨hc, hcom⟩ := h
  refine ⟨hc.mono hL, ?_⟩
  rw [take_eq_of_isPrefix hL (by have := hc.length_le; omega)]
  exact hcom.mono hg le_rfl

theorem Snaps.mono (hg : Grows g g') {L' : List (LogEntry C)} (hL : L <+: L')
    {args : InstallSnapshotArgs n S} (h : Snaps g T L args) : Snaps g' T L' args := by
  obtain ⟨hc, hcom⟩ := h
  refine ⟨hc.mono hL, ?_⟩
  obtain ⟨k, hk, hle, -⟩ := hc
  rw [take_eq_of_isPrefix hL (by omega)]
  exact hcom.mono hg le_rfl

theorem Agreed.mono (hg : Grows g g') {m : ApplyMsg C S} (h : Agreed g m) : Agreed g' m := by
  cases m with
  | command c i =>
    obtain ⟨hi, T, P, e, hP, he⟩ := h
    exact ⟨hi, T, P, e, hP.mono hg le_rfl, he⟩
  | snapshot d t i => trivial

theorem Delivers.mono (hg : Grows g g') {rf rf' : Raft n C S}
    (hcommit : rf.commitIndex ≤ rf'.commitIndex) {m : ApplyMsg C S} (h : Delivers g rf m) :
    Delivers g' rf' m :=
  ⟨h.1.mono hg, fun i hi => (h.2 i hi).trans hcommit⟩

theorem Records.mono (hg : Grows g g') {index term : ℤ} {command : Option C}
    (h : Records g index term command) : Records g' index term command := by
  obtain ⟨hi, L, hL, hget⟩ := h
  obtain ⟨L', hL', hle⟩ := hg.lead term L hL
  obtain ⟨hlt, -⟩ := List.getElem?_eq_some_iff.mp hget
  exact ⟨hi, L', hL', by rw [getElem?_of_isPrefix hle hlt, hget]⟩

/-- What a goroutine holds stays good as long as its server makes no new start in a term. -/
theorem Works.mono (hg : Grows g g') {rf rf' : Raft n C S}
    (hcur : rf.currentTerm ≤ rf'.currentTerm)
    (hst : rf'.currentTerm = rf.currentTerm → Standing g' rf' →
      Standing g rf ∧ g.log i <+: g'.log i)
    (hcommit : rf.commitIndex ≤ rf'.commitIndex) {t : Thread n C S} (h : Works g i rf t) :
    Works g' i rf' t := by
  cases t with
  | startPersist index term command => exact Records.mono hg h
  | append server args isSnapshot =>
    cases isSnapshot with
    | true => exact h
    | false =>
      obtain ⟨hne, hle, hback⟩ := h
      refine ⟨hne, hle.trans hcur, fun hterm hs => ?_⟩
      have hsame : rf'.currentTerm = rf.currentTerm := le_antisymm (hterm ▸ hle) hcur
      obtain ⟨hs', hlog⟩ := hst hsame hs
      rw [hsame] at hterm ⊢
      exact (hback hterm hs').mono hg hlog
  | installSend server args =>
    obtain ⟨hne, hle, hsnap⟩ := h
    refine ⟨hne, hle.trans hcur, fun hterm hs => ?_⟩
    have hsame : rf'.currentTerm = rf.currentTerm := le_antisymm (hterm ▸ hle) hcur
    obtain ⟨hs', hlog⟩ := hst hsame hs
    rw [hsame] at hterm ⊢
    exact (hsnap hterm hs').mono hg hlog
  | applying msgs => exact fun m hm => (h m hm).mono hg hcommit
  | applied i msgs => exact fun m hm => (h m hm).mono hg hcommit
  | snapshotMsg msg => exact Delivers.mono hg hcommit h
  | _ => exact h

theorem Says.mono (hg : Grows g g') {p : Packet n C S} (h : Says g p) : Says g' p := by
  rcases p with ⟨src, dst, inc, body⟩
  cases body with
  | requestVote e args =>
    obtain ⟨L, hL, h⟩ := h
    exact ⟨L, hg.ask _ _ L hL, h⟩
  | requestVoteReply e args reply => exact fun hr => hg.vote _ _ _ (h hr)
  | appendEntries args =>
    obtain ⟨hne, L, hL, hback⟩ := h
    obtain ⟨L', hL', hle⟩ := hg.lead _ L hL
    exact ⟨hne, L', hL', hback.mono hg hle⟩
  | appendEntriesReply args reply =>
    refine ⟨h.1, fun hr => ?_⟩
    obtain ⟨⟨L, hL, hcar⟩, m, hm, hack⟩ := h.2 hr
    obtain ⟨L', hL', hle⟩ := hg.lead _ L hL
    exact ⟨⟨L', hL', hcar.mono hle⟩, m, hm, hg.ack _ _ m hack⟩
  | installSnapshot args =>
    obtain ⟨hne, L, hL, hsnap⟩ := h
    obtain ⟨L', hL', hle⟩ := hg.lead _ L hL
    exact ⟨hne, L', hL', hsnap.mono hg hle⟩
  | installSnapshotReply args reply =>
    obtain ⟨P, hP, hle⟩ := h
    exact ⟨P, hP.mono hg le_rfl, hle⟩

/-- The replica of server `i` is as it was. -/
def Same (g g' : Shadow n C) (i : Fin n) : Prop :=
  g'.cur i = g.cur i ∧ g'.log i = g.log i ∧ g'.stable i = g.stable i ∧
    ∀ T, g'.ask T i = g.ask T i

theorem lead_none_back (hg : Grows g g') (h : g'.lead T = none) : g.lead T = none := by
  rcases hold : g.lead T with _ | M
  · rfl
  · obtain ⟨M', hM', -⟩ := hg.lead _ M hold
    rw [h] at hM'; cases hM'

theorem Standing.back (hg : Grows g g') {rf : Raft n C S} (h : Standing g' rf) :
    Standing g rf :=
  h.imp_right fun ⟨hr, hnone⟩ => ⟨hr, lead_none_back hg hnone⟩

theorem Peer.frame (hg : Grows g g') {rf : Raft n C S} (h : Peer g i rf) (hsame : Same g g' i)
    (hlead : rf.role = .Leader → g'.lead rf.currentTerm = g.lead rf.currentTerm) :
    Peer g' i rf := by
  obtain ⟨hcur, hlog, hstable, hask⟩ := hsame
  refine ⟨h.me, hcur.trans h.cur, h.nonneg, h.pos, hlog ▸ h.log, h.behind, hlog ▸ h.within, ?_,
    hstable ▸ h.store, ?_, fun hr => ?_, fun hr hnone L hL => ?_, fun hr j => ?_⟩
  · rw [hlog]; exact h.commit.mono hg le_rfl
  · rw [hstable]; exact h.storeCommit.mono hg le_rfl
  · rw [hlead hr, hlog]; exact h.leader hr
  · rw [hlog]
    exact h.candidate hr (lead_none_back hg hnone) L (hask _ ▸ hL)
  · exact (h.matched hr j).mono hg

/-- A server that took no step is still related to replicas that have grown elsewhere. -/
theorem Server.frame (hg : Grows g g') {nd : Node n C S} (h : Server g i nd) (hsame : Same g g' i)
    (hlead : nd.rf.role = .Leader → g'.lead nd.rf.currentTerm = g.lead nd.rf.currentTerm) :
    Server g' i nd := by
  refine ⟨h.peer.frame hg hsame hlead, fun T L hL => h.asks T L (hsame.2.2.2 T ▸ hL),
    fun t ht => ?_, fun m hm => (h.received m hm).mono hg le_rfl⟩
  refine (h.threads t ht).mono hg le_rfl (fun _ hs => ⟨hs.back hg, ?_⟩) le_rfl
  rw [hsame.2.1]

end Shadow

/-- The replicas stand for the cluster. -/
structure Cluster.Shadowed (s : Cluster n C S) (g : Shadow n C) : Prop where
  reach : Steps LogEntry.term (Replicas.init 0) g
  nodes : ∀ i, Shadow.Server g i (s.nodes i)
  sent : ∀ p ∈ s.sent, Shadow.Says g p
  applied : ∀ a ∈ s.applied, Shadow.Agreed g a.2
  started : ∀ c ∈ s.started, Shadow.Records g c.index c.term c.command
  lead : ∀ T L, g.lead T = some L → 0 < T ∧ ∃ j, s.Led j T

end DistLabs
