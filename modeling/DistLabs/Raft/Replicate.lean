import DistLabs.Raft.Refine

/-! # The servers follow the replicated log: replication

    The steps that win an election, take over a log or a snapshot, and commit; then all steps
    together. -/

namespace DistLabs

open Replicas

variable {n : ℕ} {C S : Type}

namespace Shadow

variable {g g' : Shadow n C} {i j : Fin n} {T : ℤ} {rf rf' : Raft n C S} {nd : Node n C S}

/-! ### Winning an election -/

theorem Peer.elect (h : Peer g i rf) (hrole : rf.role = .Candidate)
    (hg : Grows g (g.elect i)) : Peer (g.elect i) i (rf.convertRole .Leader) := by
  refine ⟨h.me, h.cur, h.nonneg, fun _ => h.pos (by rw [hrole]; simp), h.log, h.behind, h.within,
    h.commit.mono hg le_rfl, h.store, h.storeCommit.mono hg le_rfl, fun _ => ?_, nofun,
    fun _ j => .inr ⟨[], .inl rfl, ?_⟩⟩
  · simp [Replicas.elect, Raft.convertRole, h.cur]
  · simp [Raft.convertRole]

theorem Server.follows_requestVoteReply (h : Server g i nd) {e : ℕ} {reply : RequestVoteReply}
    (hwins : nd.rf.role = .Candidate →
      (nd.rf.handleRequestVote (nd.voteCounts.getD e 0) reply).1.role = .Leader →
      g.lead nd.rf.currentTerm = none ∧ ∃ Q : Finset (Fin n), Majority Q ∧
        ∀ v ∈ Q, v = i ∨ g.vote nd.rf.currentTerm v i) :
    ∃ g', Follows g i
      { node := { nd with
          rf := (nd.rf.handleRequestVote (nd.voteCounts.getD e 0) reply).1
          voteCounts := nd.voteCounts.set e
            (nd.rf.handleRequestVote (nd.voteCounts.getD e 0) reply).2 } } g' := by
  rcases Raft.handleRequestVote_cases nd.rf (nd.voteCounts.getD e 0) reply with
    ⟨hrole, hrf⟩ | ⟨hlt, hrf⟩ | hrf
  · obtain ⟨hnone, Q, hQ, hvotes⟩ := hwins hrole (by rw [hrf]; rfl)
    rw [hrf]
    have hstep : Step LogEntry.term g (g.elect i) := by
      refine .elect (h.peer.cur.symm ▸ hnone) hQ (h.peer.cur.symm ▸ hvotes) fun L hL => ?_
      rw [h.peer.cur] at hL
      rw [h.peer.candidate hrole hnone L hL]
    have hpeer := h.peer.elect hrole hstep.grows
    refine ⟨_, h.follows (.single hstep) (fun j _ => ⟨rfl, rfl, rfl, fun _ => rfl⟩)
      (fun T L hL => ?_) hpeer le_rfl (fun _ _ => ⟨.inr ⟨hrole, hnone⟩, List.prefix_refl _⟩) le_rfl
      (fun _ => rfl) (fun ht => ht) (fun t ht => .inl ht) (fun m hm => .inl hm) (by simp) (by simp)
      (by simp)⟩
    rcases elect_lead hL with ⟨rfl, -⟩ | hL
    · exact .inr ⟨h.peer.cur, rfl⟩
    · exact .inl hL
  · rw [hrf]
    have hstep : Step LogEntry.term g (g.adopt i reply.term) := .adopt (h.peer.cur.trans_le hlt.le)
    refine ⟨_, h.follows (.single hstep) (fun j hj => same_adopt hj) (fun T L => .inl)
      ((h.peer.stepDown hlt.le).unsaved true) hlt.le (fun heq => absurd heq hlt.ne') le_rfl
      (fun _ => rfl) (fun ht => ht) (fun t ht => .inl ht) (fun m hm => .inl hm) (by simp) (by simp)
      (by simp)⟩
  · rw [hrf]
    exact ⟨g, h.still h.peer rfl rfl rfl (fun ht => ht) (fun t ht => .inl ht) (fun m hm => .inl hm)
      (by simp) (by simp) rfl⟩

/-! ### Taking over a log -/

/-- What the new commit index covers is committed: it was before, or the leader says so. -/
theorem committed_newCommit {T leaderCommit : ℤ} {P L : List (LogEntry C)} (hL : P <+: L)
    (hold : Committed LogEntry.term g T (P.take rf.commitIndex.toNat))
    (hlead : Committed LogEntry.term g T (L.take (min leaderCommit P.length).toNat)) :
    Committed LogEntry.term g T (P.take (rf.newCommit leaderCommit P.length).toNat) := by
  rcases rf.newCommit_spec leaderCommit P.length with heq | ⟨-, heq⟩
  · rwa [heq]
  · have hle : (min leaderCommit (P.length : ℤ)).toNat ≤ P.length := by omega
    rwa [heq, ← take_eq_of_isPrefix hL hle]

/-- Before the entries of a request that passes the check of `prevLogTerm`, the log of the peer is
    that of the leader. -/
theorem agrees_before (hI : Inv LogEntry.term g) (hlog : rf.Compacts (g.log i)) {T : ℤ}
    {L : List (LogEntry C)} (hlead : g.lead T = some L) {p : ℕ} (hpL : p ≤ L.length)
    (hterm : 0 < (p : ℤ) - rf.lastIncludedIndex →
      rf.termAt (p - rf.lastIncludedIndex) = some (lastTerm (L.take p))) :
    (g.log i).take p = L.take p ∨ (p : ℤ) ≤ rf.lastIncludedIndex := by
  rcases le_or_gt (p : ℤ) rf.lastIncludedIndex with hle | hgt
  · exact .inr hle
  · obtain ⟨hple, ht⟩ := hlog.termAt (by omega) (hterm (by omega))
    refine .inl (take_eq_of_lastTerm (hI.logCoh i) (hI.leadCoh hlead) (by omega) hpL ?_)
    rw [ht, Int.toNat_natCast]

theorem Peer.stored (hI : Inv LogEntry.term g) {args : AppendEntriesArgs n C}
    (h : Peer g i (rf.follow args.term)) (hT : rf.currentTerm ≤ args.term)
    {L : List (LogEntry C)} (hlead : g.lead args.term = some L) (hback : Backs g args.term L args)
    (h0 : 0 ≤ args.prevLogIndex - rf.lastIncludedIndex + 1)
    (hterm : 0 < args.prevLogIndex - rf.lastIncludedIndex →
      rf.termAt (args.prevLogIndex - rf.lastIncludedIndex) = some args.prevLogTerm)
    (hkeep : rf.getLastLogicalIndex ≤ args.prevLogIndex + args.entries.length ∨
      ∃ k ∈ List.range args.entries.length, rf.conflictsAt args k = true) :
    ∃ P, P <+: L ∧ (P.length : ℤ) = args.prevLogIndex + args.entries.length ∧
      (∀ R, R <+: g.log i → R <+: L → R <+: P) ∧
      Peer (g.accept i P) i (rf.stored args).persist ∧
      rf.commitIndex ≤ (rf.stored args).commitIndex := by
  have hlog : rf.Compacts (g.log i) := h.log.congr (by simp) (by simp) (by simp)
  have hcur : (rf.follow args.term).currentTerm = args.term := Raft.follow_currentTerm hT
  obtain ⟨⟨p, hp, hpL, hpt, hL⟩, hcom⟩ := hback
  have hcommon := keeps_common hlog hp hpL hL h0 hkeep
  rw [hp, hpt] at hterm
  have hagree := agrees_before hI hlog hlead hpL hterm
  have hlen : ((L.take p ++ args.entries).length : ℤ)
      = args.prevLogIndex + args.entries.length := by
    simp [hpL, hp]
  -- what the peer knows to be committed is in the leader log, and so in what it takes over
  have hwithin : rf.commitIndex ≤ (g.log i).length := by simpa using h.within
  have hbehind : rf.lastIncludedIndex ≤ rf.commitIndex := by simpa using h.behind
  have hnonneg : 0 ≤ rf.lastIncludedIndex := by
    obtain ⟨k, -, hk, -⟩ := hlog
    omega
  have hold : (g.log i).take rf.commitIndex.toNat <+: L :=
    h.commit_prefix hI (hcur.symm ▸ hlead) (by simp; omega)
  have holdP := hcommon _ (List.take_prefix ..) hold
  have hsame : (L.take p ++ args.entries).take rf.commitIndex.toNat
      = (g.log i).take rf.commitIndex.toNat := by
    have heq := List.prefix_iff_eq_take.mp holdP
    rw [List.length_take, min_eq_left (by omega)] at heq
    exact heq.symm
  have holdLen : rf.commitIndex ≤ (L.take p ++ args.entries).length := by
    have hle := holdP.length_le
    rw [List.length_take] at hle
    omega
  have hbase : (g.log i).take rf.lastIncludedIndex.toNat <+: L :=
    (List.take_prefix_take_left (Int.toNat_le_toNat hbehind)).trans hold
  have hcompacts := hlog.stored hp hpL hL h0 hagree hbase (by omega)
  have hcommit := rf.stored_commitIndex args
  rw [hcompacts.getLastLogicalIndex] at hcommit
  obtain ⟨hge, hle⟩ := Raft.newCommit_bounds args.leaderCommit holdLen
  rw [← hcommit] at hge hle
  have hrole := rf.stored_role args
  refine ⟨L.take p ++ args.entries, hL, hlen, hcommon, ?_, hge⟩
  refine h.accept (hcur.symm ▸ hlead) rfl rfl (by rw [hrole]; decide) (absurd hrole) hcompacts ?_
    hle ?_
  · rw [Raft.stored_lastIncludedIndex]
    exact hbehind.trans hge
  · rw [hcommit, hcur]
    refine committed_newCommit hL ?_ (hlen ▸ hcom)
    have hkept := h.commit
    rwa [hcur, Raft.follow_commitIndex, ← hsame] at hkept

theorem Server.follows_appendEntries (hI : Inv LogEntry.term g) (h : Server g i nd)
    {p : Packet n C S} {args : AppendEntriesArgs n C} {reply : AppendEntriesReply} {go : Bool}
    (body : p.body = .appendEntries args) (hsaid : Says g p) (hdst : p.dst = i)
    (hkeep : nd.AppendKeeps (.recv p))
    (handler : nd.rf.appendEntries args = some (rf', reply, go)) :
    ∃ g', Follows g i
      { node := { nd with rf := rf' }.spawn (if go then [.apply] else [])
        sent := [⟨p.dst, p.src, p.incarnation, .appendEntriesReply args reply⟩] } g' := by
  have hreq : args ∈ (Input.recv p).appendRequest := by simp [Input.appendRequest, body]
  rw [Says, body] at hsaid
  obtain ⟨hne, L, hlead, hback⟩ := hsaid
  rcases Raft.appendEntries_cases handler with ⟨-, rfl, rfl, rfl⟩ | ⟨hle, rfl, hfail, -, rfl⟩ |
    ⟨hle, hprev, h0, hterm, rfl, rfl, -⟩
  · refine ⟨_, h.enter le_rfl h.peer.save_adopt rfl (fun _ => .inl rfl) rfl (fun ht => ht)
      (fun t ht => by simpa [Node.spawn] using ht) (fun m hm => hm) (fun q hq => ?_) rfl (by simp)⟩
    obtain rfl := List.mem_singleton.mp hq
    exact ⟨hne.symm, by rintro ⟨⟩⟩
  · refine ⟨_, h.enter hle (h.peer.follow hle).save ?_ (fun _ => .inr ?_) ?_ (fun ht => ht)
      (fun t ht => by simpa [Node.spawn] using ht) (fun m hm => hm) (fun q hq => ?_) rfl (by simp)⟩
    · exact Raft.follow_currentTerm hle
    · simp [Node.spawn]
    · simp [Node.spawn]
    · obtain rfl := List.mem_singleton.mp hq
      exact ⟨hne.symm, fun hs => absurd hs (by simp [hfail])⟩
  · -- adopt the term, take the log over, acknowledge it
    have hg1 : Steps LogEntry.term g (g.adopt i args.term) :=
      .single (.adopt (h.peer.cur.trans_le hle))
    have hcur1 : (g.adopt i args.term).cur i = args.term := by simp [adopt]
    obtain ⟨P, hPL, hlen, hcommon, hpeer, hcommit⟩ := (h.peer.follow hle).stored (hI.steps hg1) hle
      hlead hback h0 hterm (hkeep args hreq ⟨hle, hprev, hterm⟩)
    have hlead2 : ((g.adopt i args.term).accept i P).lead
        (((g.adopt i args.term).accept i P).cur i) = some L := hcur1.symm ▸ hlead
    have hsteps2 : Steps LogEntry.term g ((g.adopt i args.term).accept i P) :=
      .tail hg1 (.accept (hcur1.symm ▸ hlead) hPL hcommon)
    have hack : Step LogEntry.term ((g.adopt i args.term).accept i P)
        (((g.adopt i args.term).accept i P).acknowledge i P.length) := by
      refine .acknowledge hlead2 hPL.length_le ?_
      rw [← List.prefix_iff_eq_take.mp hPL]
      simp [accept]
    have hrole : (nd.rf.stored args).persist.role = .Follower := nd.rf.stored_role args
    have hcur : (nd.rf.stored args).persist.currentTerm = args.term :=
      Raft.follow_currentTerm hle
    refine ⟨_, h.follows (.tail hsteps2 hack) (fun j hj => ?_) (fun T L => .inl)
      (hpeer.frame hack.grows ⟨rfl, rfl, rfl, fun _ => rfl⟩ fun _ => rfl) (hcur.symm ▸ hle)
      (fun _ hs => ?_) hcommit (fun _ => rfl) (fun ht => ht) (fun t ht => ?_) (fun m hm => .inl hm)
      (fun q hq => ?_) (by simp) (by simp)⟩
    · exact ((same_adopt hj).trans (same_accept hj)).trans ⟨rfl, rfl, rfl, fun _ => rfl⟩
    · rcases hs with hs | ⟨hs, -⟩ <;> rw [Node.spawn, hrole] at hs <;> cases hs
    · rcases List.mem_append.mp ht with ht | ht
      · exact .inl ht
      · split at ht
        · obtain rfl := List.mem_singleton.mp ht
          exact .inr trivial
        · cases ht
    · obtain rfl := List.mem_singleton.mp hq
      exact ⟨hne.symm, fun _ => ⟨⟨L, hlead, hback.1⟩, P.length, hlen.symm,
        .inl ⟨hcur1.symm, hdst, rfl⟩⟩⟩

/-! ### Taking over a snapshot -/

/-- A peer that installs a snapshot ending at entry `k` of the leader log, over a log that is no
    longer than that. -/
theorem Peer.installed {args : InstallSnapshotArgs n S} (h : Peer g i (rf.meet args.term))
    (hT : rf.currentTerm ≤ args.term) (hrole : (rf.meet args.term).role ≠ .Leader)
    {L : List (LogEntry C)} (hlead : g.lead args.term = some L) {k : ℕ}
    (hk : args.lastIncludedIndex = k) (hkL : k ≤ L.length)
    (hkt : args.lastIncludedTerm = lastTerm (L.take k))
    (hcom : Committed LogEntry.term g args.term (L.take k)) (hlen : (g.log i).length ≤ k) :
    Peer (g.accept i (L.take k)) i (rf.installed args [⟨args.lastIncludedTerm, none⟩]).persist ∧
      rf.commitIndex ≤ (rf.installed args [⟨args.lastIncludedTerm, none⟩]).commitIndex := by
  have hcur : (rf.meet args.term).currentTerm = args.term := Raft.meet_currentTerm hT
  have hwithin : rf.commitIndex ≤ (g.log i).length := by simpa using h.within
  have hcommitIndex : (rf.installed args [⟨args.lastIncludedTerm, none⟩]).commitIndex = k := by
    rw [Raft.installed_commitIndex, hk]
    omega
  refine ⟨?_, by rw [hcommitIndex]; omega⟩
  refine h.accept (hcur.symm ▸ hlead) rfl rfl hrole id (Raft.Compacts.installed hk hkL hkt) ?_ ?_ ?_
  · rw [hcommitIndex]; exact hk.le
  · rw [hcommitIndex, List.length_take, min_eq_left hkL]
  · rw [hcommitIndex, Int.toNat_natCast, List.take_take, min_self, hcur]
    exact hcom

theorem Server.follows_installSnapshot (h : Server g i nd)
    {p : Packet n C S} {args : InstallSnapshotArgs n S} {reply : InstallSnapshotReply}
    {msg : Option (ApplyMsg C S)} (body : p.body = .installSnapshot args) (hsaid : Says g p)
    (hfollows : nd.rf.role = .Leader → nd.rf.currentTerm ≠ args.term)
    (hahead : nd.InstallAhead (.recv p))
    (handler : nd.rf.installSnapshot args = some (rf', reply, msg)) :
    ∃ g', Follows g i
      { node := { nd with rf := rf' }.spawn (msg.toList.map .snapshotMsg)
        sent := [⟨p.dst, p.src, p.incarnation, .installSnapshotReply args reply⟩] } g' := by
  have hreq : args ∈ (Input.recv p).installRequest := by simp [Input.installRequest, body]
  rw [Says, body] at hsaid
  obtain ⟨hne, L, hlead, ⟨k, hk, hkL, hkt⟩, hcom⟩ := hsaid
  rw [hk, Int.toNat_natCast] at hcom
  have hreply : ∀ q ∈ [(⟨p.dst, p.src, p.incarnation, .installSnapshotReply args reply⟩ :
      Packet n C S)], Says g q := by
    intro q hq
    obtain rfl := List.mem_singleton.mp hq
    exact ⟨L.take k, hcom, by rw [hk, List.length_take, min_eq_left hkL]⟩
  rcases Raft.installSnapshot_cases handler with ⟨-, rfl, rfl, rfl⟩ | ⟨hle, -,
    ⟨-, rfl, rfl⟩ | ⟨hlii, happ, rfl, logs, hlogs, rfl⟩⟩
  · exact ⟨g, h.still h.peer rfl rfl rfl (fun ht => ht)
      (fun t ht => .inl (by simpa [Node.spawn] using ht)) (fun m hm => .inl hm) hreply (by simp)
      rfl⟩
  · refine ⟨_, h.enter hle (h.peer.meet hle).save ?_ (fun heq => .inl ?_) ?_ (fun ht => ht)
      (fun t ht => by simpa [Node.spawn] using ht) (fun m hm => hm) hreply rfl (by simp)⟩
    · exact Raft.meet_currentTerm hle
    · simp [Node.spawn, Raft.meet, heq]
    · simp [Node.spawn]
  · have hlast := hahead args hreq hle hlii happ
    rw [h.peer.log.getLastLogicalIndex, hk] at hlast
    obtain rfl : logs = [⟨args.lastIncludedTerm, none⟩] := by
      rcases hlogs with ⟨-, rfl⟩ | ⟨hlt, -⟩
      · rfl
      · rw [h.peer.log.getLastLogicalIndex] at hlt
        omega
    have hg1 : Step LogEntry.term g (g.adopt i args.term) := .adopt (h.peer.cur.trans_le hle)
    have hcur1 : (g.adopt i args.term).cur i = args.term := by simp [adopt]
    have hcur : (nd.rf.meet args.term).currentTerm = args.term := Raft.meet_currentTerm hle
    have hrole : (nd.rf.meet args.term).role ≠ .Leader := by
      unfold Raft.meet
      split
      · simp
      · exact fun hr => hfollows hr (by omega)
    obtain ⟨hpeer, hcommit⟩ := (h.peer.meet hle).installed hle hrole hlead hk hkL hkt hcom
      (Int.ofNat_le.mp hlast)
    have hkeep : ∀ R, R <+: (g.adopt i args.term).log i → R <+: L → R <+: L.take k := by
      intro R hR hRL
      have hlen : R.length ≤ (g.log i).length := hR.length_le
      exact List.prefix_take_iff.mpr ⟨hRL, by omega⟩
    have hsteps : Steps LogEntry.term g ((g.adopt i args.term).accept i (L.take k)) :=
      .tail (.single hg1) (.accept (hcur1.symm ▸ hlead) (List.take_prefix ..) hkeep)
    refine ⟨_, h.follows hsteps (fun j hj => (same_adopt hj).trans (same_accept hj))
      (fun T L => .inl) hpeer (hcur.symm ▸ hle) (fun _ hs => ?_) hcommit (fun _ => rfl)
      (fun ht => ht) (fun t ht => ?_) (fun m hm => .inl hm)
      (fun q hq => (hreply q hq).mono hsteps.grows) (by simp) (by simp)⟩
    · rcases hs with hs | ⟨-, hs⟩
      · exact absurd hs hrole
      · have hs' : g.lead (nd.rf.meet args.term).currentTerm = none := hs
        rw [hcur, hlead] at hs'; cases hs'
    · rcases List.mem_append.mp ht with ht | ht
      · exact .inl ht
      · simp only [Option.toList_some, List.map_cons, List.map_nil, List.mem_singleton] at ht
        subst ht
        exact .inr ⟨trivial, by rintro _ ⟨⟩⟩

/-! ### Committing -/

/-- A peer whose `nextIndex` and `matchIndex` have changed, and are right. -/
theorem Peer.counts (h : Peer g i rf) {nextIndex matchIndex : Fin n → ℤ}
    (hmatch : rf.role = .Leader → ∀ j, Matched g rf.currentTerm j (matchIndex j)) :
    Peer g i { rf with nextIndex := nextIndex, matchIndex := matchIndex } :=
  ⟨h.me, h.cur, h.nonneg, h.pos, h.log.congr rfl rfl rfl, h.behind, h.within, h.commit, h.store,
    h.storeCommit, h.leader, h.candidate, hmatch⟩

/-- A later commit index of the peer. -/
theorem Peer.commits (h : Peer g i rf) (idx : ℤ) (hge : rf.commitIndex ≤ idx)
    (hle : idx ≤ (g.log i).length)
    (hcom : Committed LogEntry.term g rf.currentTerm ((g.log i).take idx.toNat)) :
    Peer g i { rf with commitIndex := idx } :=
  ⟨h.me, h.cur, h.nonneg, h.pos, h.log.congr rfl rfl rfl, h.behind.trans hge, hle, hcom, h.store,
    h.storeCommit, h.leader, h.candidate, h.matched⟩

/-- The servers that `replicaCount` counts, with the leader itself. -/
def replicas (rf : Raft n C S) (idx : ℤ) : Finset (Fin n) :=
  insert rf.me (Finset.univ.filter fun j => j ≠ rf.me ∧ rf.matchIndex j ≥ idx)

theorem card_replicas (rf : Raft n C S) (idx : ℤ) :
    (replicas rf idx).card = rf.replicaCount idx rf.currentTerm := by
  have hcard : (Finset.univ.filter fun j => j ≠ rf.me ∧ rf.matchIndex j ≥ idx).card
      = ((List.finRange n).filter fun j => decide (j ≠ rf.me ∧ rf.matchIndex j ≥ idx)).length := by
    rw [← List.toFinset_card_of_nodup ((List.nodup_finRange n).filter _)]
    congr 1
    ext j
    simp
  rw [replicas, Finset.card_insert_of_notMem (by simp), hcard, Raft.replicaCount, if_pos rfl,
    add_comm]

theorem majority_replicas {idx t : ℤ} (ht : t = rf.currentTerm)
    (hcount : n / 2 < rf.replicaCount idx t) : Majority (replicas rf idx) := by
  rwa [Majority, card_replicas, Fintype.card_fin, ← ht]

/-- What a majority is counted as holding is committed, if it ends in an entry of the term. -/
theorem Peer.committed_of_count (hI : Inv LogEntry.term g) (h : Peer g i rf)
    (hrole : rf.role = .Leader) {idx : ℕ} (hidx : 0 < idx) (hle : idx ≤ (g.log i).length)
    (hterm : lastTerm ((g.log i).take idx) = rf.currentTerm)
    (hself : g.ack rf.currentTerm i idx) (hmaj : Majority (replicas rf idx)) :
    Committed LogEntry.term g rf.currentTerm ((g.log i).take idx) := by
  have hlead := h.leader hrole
  by_cases hcom : ∃ P, Committed LogEntry.term g rf.currentTerm P ∧ idx ≤ P.length
  · obtain ⟨P, hP, hlen⟩ := hcom
    have hPL := hI.committed_lead hP le_rfl hlead
    refine hP.restrict ?_
    rw [take_eq_of_isPrefix hPL hlen]
    exact List.take_prefix ..
  · refine .inr ⟨rf.currentTerm, (g.log i).take idx, le_rfl,
      ⟨⟨⟨g.log i, hlead, List.take_prefix ..⟩, ?_⟩, replicas rf idx, hmaj, fun v hv => ?_⟩,
      List.prefix_refl _⟩
    · obtain ⟨k, rfl⟩ : ∃ k, idx = k + 1 := ⟨idx - 1, by omega⟩
      have he := List.getElem?_eq_getElem (Nat.lt_of_succ_le hle)
      refine ⟨_, ?_, (lastTerm_take_succ he).symm.trans hterm⟩
      simp [List.getLast?_take, he]
    · rw [List.length_take, min_eq_left hle]
      rcases Finset.mem_insert.mp hv with rfl | hv
      · exact ⟨idx, le_rfl, h.me.symm ▸ hself⟩
      · rcases h.matched hrole v with ⟨m, hm, hack⟩ | ⟨P, hP, hm⟩
        · have := (Finset.mem_filter.mp hv).2.2
          exact ⟨m, by omega, hack⟩
        · have := (Finset.mem_filter.mp hv).2.2
          exact absurd ⟨P, hP, by omega⟩ hcom

theorem Server.follows_appendEntriesReply (hI : Inv LogEntry.term g) (h : Server g i nd)
    {p : Packet n C S} {args : AppendEntriesArgs n C} {reply : AppendEntriesReply} {go : Bool}
    (body : p.body = .appendEntriesReply args reply) (hsaid : Says g p)
    (hack : nd.AckCurrent (.recv p))
    (handler : nd.rf.handleAppendEntries p.src args reply = some (rf', go)) :
    ∃ g', Follows g i { node := { nd with rf := rf' }.spawn (if go then [.apply] else []) } g' := by
  have hreq : (args, reply) ∈ (Input.recv p).appendReply := by simp [Input.appendReply, body]
  rw [Says, body] at hsaid
  obtain ⟨hne, hsucc⟩ := hsaid
  rcases Raft.handleAppendEntries_cases handler with ⟨-, rfl, rfl⟩ | ⟨-, hlt, rfl, rfl⟩ |
    ⟨-, -, -, ⟨x, rfl⟩, rfl⟩ | ⟨hrole, hle, hs, idx, rfl, hidx⟩
  · exact ⟨_, h.enter le_rfl h.peer.save_adopt rfl (fun _ => .inl rfl) rfl (fun ht => ht)
      (fun t ht => by simpa [Node.spawn] using ht) (fun m hm => hm) (by simp) rfl (by simp)⟩
  · exact ⟨_, h.enter hlt.le (h.peer.stepDown hlt.le).save rfl (fun _ => .inr rfl) rfl
      (fun ht => ht) (fun t ht => by simpa [Node.spawn] using ht) (fun m hm => hm) (by simp) rfl
      (by simp)⟩
  · have hpeer : Peer g i { nd.rf with nextIndex := Function.update nd.rf.nextIndex p.src x } :=
      h.peer.congr rfl rfl rfl rfl rfl rfl rfl rfl rfl
    exact ⟨_, h.enter le_rfl hpeer.save_adopt rfl (fun _ => .inl rfl) rfl (fun ht => ht)
      (fun t ht => by simpa [Node.spawn] using ht) (fun m hm => hm) (by simp) rfl (by simp)⟩
  · -- a success of the leader's own term
    have hterm : args.term = nd.rf.currentTerm := hack _ hreq hrole hle hs
    obtain ⟨-, m, hm, hacked⟩ := hsucc hs
    have hpeer : Peer g i (nd.rf.matched p.src args) := by
      refine h.peer.counts fun _ j => ?_
      rcases eq_or_ne j p.src with rfl | hj
      · rw [Function.update_self, hm]
        exact .inl ⟨m, le_rfl, hterm ▸ hacked⟩
      · rw [Function.update_of_ne hj]
        exact h.peer.matched hrole j
    rcases hidx with ⟨rfl, rfl⟩ | ⟨rfl, hgt, hlast, t, ht, hcount⟩
    · have hpeer' : Peer g i { nd.rf.matched p.src args with commitIndex := nd.rf.commitIndex } :=
        hpeer
      exact ⟨_, h.enter le_rfl hpeer'.save_adopt rfl (fun _ => .inl rfl) rfl (fun ht => ht)
        (fun t ht => by simpa [Node.spawn] using ht) (fun m hm => hm) (by simp) rfl (by simp)⟩
    · rw [h.peer.log.getLastLogicalIndex] at hlast
      have hbehind := h.peer.behind
      have hnonneg : 0 ≤ nd.rf.lastIncludedIndex := by
        obtain ⟨k, -, hk, -⟩ := h.peer.log
        omega
      obtain ⟨hidxle, htt⟩ := h.peer.log.termAt (by omega) ht
      have htcur : t = nd.rf.currentTerm := by
        by_contra hne'
        have hne'' : ¬ t = (nd.rf.matched p.src args).currentTerm := hne'
        rw [Raft.replicaCount, if_neg hne''] at hcount
        have h1 := p.src.isLt
        have h2 := p.dst.isLt
        exact hne (Fin.ext (by omega))
      obtain ⟨m', rfl⟩ : ∃ m' : ℕ, idx = m' := ⟨idx.toNat, by omega⟩
      rw [Int.toNat_natCast] at htt
      have hsaved : Steps LogEntry.term g (g.save i) := .single .save
      have hself : Step LogEntry.term (g.save i) ((g.save i).acknowledge i m') := by
        refine .acknowledge (L := g.log i) (h.peer.cur.symm ▸ h.peer.leader hrole) (by omega) ?_
        simpa [save] using List.take_prefix m' (g.log i)
      have hsteps : Steps LogEntry.term g ((g.save i).acknowledge i m') := .tail hsaved hself
      have hpeer2 : Peer ((g.save i).acknowledge i m') i (nd.rf.matched p.src args).persist :=
        hpeer.save.frame hself.grows ⟨rfl, rfl, rfl, fun _ => rfl⟩ fun _ => rfl
      have hcom := hpeer2.committed_of_count (hI.steps hsteps) hrole (by omega)
        (by exact_mod_cast hlast) (htt.symm.trans htcur) (.inl ⟨h.peer.cur.symm, rfl, rfl⟩)
        (majority_replicas htcur hcount)
      have hpeer3 := hpeer2.commits m' hgt.le hlast hcom
      refine ⟨_, h.follows hsteps (fun j hj => (same_save hj).trans ⟨rfl, rfl, rfl, fun _ => rfl⟩)
        (fun T L => .inl) hpeer3 le_rfl (fun _ _ => ⟨.inl hrole, List.prefix_refl _⟩) hgt.le
        (fun _ => rfl) (fun ht => ht) (fun t ht => ?_) (fun m hm => .inl hm) (by simp) (by simp)
        (by simp)⟩
      rcases List.mem_append.mp ht with ht | ht
      · exact .inl ht
      · obtain rfl := List.mem_singleton.mp ht
        exact .inr trivial

/-! ### Snapshots and crashes -/

theorem Server.follows_installSnapshotReply (h : Server g i nd) {p : Packet n C S}
    {args : InstallSnapshotArgs n S} {reply : InstallSnapshotReply}
    (body : p.body = .installSnapshotReply args reply) (hsaid : Says g p) :
    ∃ g', Follows g i
      { node := { nd with rf := nd.rf.handleInstallSnapshot p.src args reply } } g' := by
  rw [Says, body] at hsaid
  obtain ⟨P, hP, hle⟩ := hsaid
  rcases Raft.handleInstallSnapshot_cases nd.rf p.src args reply with
    hrf | ⟨hrole, hcur, ⟨hlt, hrf⟩ | ⟨-, -, hrf⟩⟩ <;> rw [hrf]
  · exact ⟨g, h.sends (by simp)⟩
  · exact ⟨_, h.enter hlt.le (h.peer.stepDown hlt.le).save rfl (fun _ => .inr rfl) rfl
      (fun ht => ht) (fun t ht => ht) (fun m hm => hm) (by simp) rfl (by simp)⟩
  · -- the entries the snapshot stands for are committed, whether or not the peer has them
    refine ⟨g, h.still (h.peer.counts fun _ j => ?_) rfl rfl rfl (fun ht => ht)
      (fun t ht => .inl ht) (fun m hm => .inl hm) (by simp) (by simp) rfl⟩
    rcases eq_or_ne j p.src with rfl | hj
    · rw [Function.update_self, hcur]
      exact .inr ⟨P, hP, hle⟩
    · rw [Function.update_of_ne hj]
      exact h.peer.matched hrole j

theorem Server.follows_snapshot (h : Server g i nd) {index : ℤ} {data : Option S}
    (received : nd.received.any (·.isCommandAt index) = true)
    (handler : nd.rf.snapshotTo index data = some rf') :
    ∃ g', Follows g i { node := { nd with rf := rf' } } g' := by
  have hcommit : index ≤ nd.rf.commitIndex := by
    obtain ⟨m, hm, hat⟩ := List.any_eq_true.mp received
    exact (h.received m hm).2 index hat
  have hlog := h.peer.log.snapshotTo handler
  rcases Raft.snapshotTo_cases handler with ⟨-, rfl⟩ | ⟨-, -, e, rest, -, rfl⟩
  · exact ⟨g, h.sends (by simp)⟩
  · have hpeer : Peer g i { nd.rf with
          lastIncludedTerm := e.term
          logs := { term := e.term, command := none } :: rest
          lastIncludedIndex := index
          snapshot := data } :=
      ⟨h.peer.me, h.peer.cur, h.peer.nonneg, h.peer.pos, hlog.congr rfl rfl rfl, hcommit,
        h.peer.within, h.peer.commit, h.peer.store, h.peer.storeCommit, h.peer.leader,
        h.peer.candidate, h.peer.matched⟩
    exact ⟨_, h.enter le_rfl hpeer.save_adopt rfl (fun _ => .inl rfl) rfl (fun ht => ht)
      (fun t ht => ht) (fun m hm => hm) (by simp) rfl (by simp)⟩

/-- A peer that starts again knows as committed what its snapshot covers. -/
theorem Peer.restored (h : Peer g i rf) (hsaved : rf.Saved) : Peer (g.lose i) i rf.restored := by
  have hlog : (g.lose i).log i = g.stable i := by simp [lose]
  have hcur : rf.restored.currentTerm = rf.currentTerm := hsaved.1
  have hrole : rf.restored.role = .Follower := Raft.make_role ..
  have hcommit : rf.restored.commitIndex = rf.restored.lastIncludedIndex := Raft.make_commitIndex ..
  have hagain : rf.restored.restored = rf.restored := Raft.restored_restored rf
  have hg : Grows g (g.lose i) := (Step.lose : Step LogEntry.term g _).grows
  refine ⟨(Raft.make_me ..).trans h.me, hcur.symm ▸ h.cur, hcur.symm ▸ h.nonneg,
    fun hr => absurd hrole hr, hlog ▸ h.store, hcommit.ge, ?_, ?_, ?_, ?_, ?_, ?_, ?_⟩
  · obtain ⟨k, -, hk, hle, -⟩ := h.store
    rw [hcommit, hlog, hk]
    exact_mod_cast hle
  · rw [hcommit, hlog, hcur]; exact h.storeCommit.mono hg le_rfl
  · rw [hagain]; exact h.store
  · rw [hagain, hcur]; exact h.storeCommit.mono hg le_rfl
  all_goals intro hr; rw [hrole] at hr; cases hr

theorem Server.follows_crash (h : Server g i nd) (hsaved : nd.rf.Saved) :
    Follows g i { node := nd.restart } (g.lose i) := by
  have hcur : nd.restart.rf.currentTerm = nd.rf.currentTerm := hsaved.1
  refine ⟨.single .lose, fun j hj => same_lose hj, fun T L => .inl,
    ⟨h.peer.restored hsaved, fun T L hL => ⟨?_, nofun⟩, fun _ ht => absurd ht List.not_mem_nil,
      fun _ hm => absurd hm List.not_mem_nil⟩, fun _ hp => absurd hp List.not_mem_nil,
    fun _ hm => absurd hm List.not_mem_nil, fun _ hc => absurd hc List.not_mem_nil⟩
  rw [hcur]
  exact (h.asks T L hL).1

end Shadow
end DistLabs
