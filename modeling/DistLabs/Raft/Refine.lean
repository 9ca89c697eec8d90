import DistLabs.Raft.Shadow

/-! # The servers follow the replicated log

    Every sound step of a server is matched by steps of its replica. One lemma a kind of step says
    which ones; the steps that only move goroutines or indices are matched by none. -/

namespace DistLabs

open Replicas

variable {n : ℕ} {C S : Type}

namespace Shadow

variable {g g' : Shadow n C} {i j : Fin n} {T : ℤ} {rf rf' : Raft n C S} {nd : Node n C S}

/-- A step of server `i` with result `out` is matched by steps that lead from `g` to `g'`. -/
structure Follows (g : Shadow n C) (i : Fin n) (out : Out n C S) (g' : Shadow n C) : Prop where
  steps : Steps LogEntry.term g g'
  others : ∀ j, j ≠ i → Same g g' j
  lead : ∀ T L, g'.lead T = some L →
    g.lead T = some L ∨ T = out.node.rf.currentTerm ∧ out.node.rf.role = .Leader
  server : Server g' i out.node
  sent : ∀ p ∈ out.sent, Says g' p
  applied : ∀ m ∈ out.applied, Agreed g' m
  started : ∀ c ∈ out.started, Records g' c.index c.term c.command

theorem Same.refl (g : Shadow n C) (i : Fin n) : Same g g i := ⟨rfl, rfl, rfl, fun _ => rfl⟩

theorem Same.trans {g'' : Shadow n C} (h : Same g g' i) (h' : Same g' g'' i) : Same g g'' i :=
  ⟨h'.1.trans h.1, h'.2.1.trans h.2.1, h'.2.2.1.trans h.2.2.1,
    fun T => (h'.2.2.2 T).trans (h.2.2.2 T)⟩

theorem same_adopt (hj : j ≠ i) : Same g (g.adopt i T) j := by simp [Same, adopt, hj]

theorem same_save (hj : j ≠ i) : Same g (g.save i) j := by simp [Same, save, hj]

theorem same_lose (hj : j ≠ i) : Same g (g.lose i) j := by simp [Same, lose, hj]

theorem same_stand (hj : j ≠ i) : Same g (g.stand i) j := by simp [Same, stand, hj]

theorem same_append {e : LogEntry C} (hj : j ≠ i) : Same g (g.append i e) j := by
  simp [Same, append, hj]

theorem same_accept {P : List (LogEntry C)} (hj : j ≠ i) : Same g (g.accept i P) j := by
  simp [Same, accept, hj]

/-! ### The peer -/

/-- Votes, `nextIndex`, `lastApplied` and the snapshot do not matter. -/
theorem Peer.congr (h : Peer g i rf) (hme : rf'.me = rf.me)
    (hcur : rf'.currentTerm = rf.currentTerm) (hrole : rf'.role = rf.role)
    (hlogs : rf'.logs = rf.logs) (hlii : rf'.lastIncludedIndex = rf.lastIncludedIndex)
    (hlit : rf'.lastIncludedTerm = rf.lastIncludedTerm)
    (hcommit : rf'.commitIndex = rf.commitIndex) (hpers : rf'.persister = rf.persister)
    (hmatch : rf'.matchIndex = rf.matchIndex) : Peer g i rf' := by
  have hrest : rf'.restored = rf.restored := by rw [Raft.restored, Raft.restored, hme, hpers]
  refine ⟨hme.trans h.me, ?_, ?_, ?_, h.log.congr hlogs hlii hlit, ?_, ?_, ?_, ?_, ?_, ?_, ?_, ?_⟩
  all_goals simp only [hcur, hrole, hlii, hcommit, hrest, hmatch]
  · exact h.cur
  · exact h.nonneg
  · exact h.pos
  · exact h.behind
  · exact h.within
  · exact h.commit
  · exact h.store
  · exact h.storeCommit
  · exact h.leader
  · exact h.candidate
  · exact h.matched

/-- The peer follows, in its term or in a larger one. -/
theorem Peer.follower (h : Peer g i rf) (hme : rf'.me = rf.me)
    (hcur : rf.currentTerm ≤ rf'.currentTerm) (hrole : rf'.role = .Follower)
    (hlogs : rf'.logs = rf.logs) (hlii : rf'.lastIncludedIndex = rf.lastIncludedIndex)
    (hlit : rf'.lastIncludedTerm = rf.lastIncludedTerm)
    (hcommit : rf'.commitIndex = rf.commitIndex) (hpers : rf'.persister = rf.persister) :
    Peer (g.adopt i rf'.currentTerm) i rf' := by
  have hrest : rf'.restored = rf.restored := by rw [Raft.restored, Raft.restored, hme, hpers]
  have hg : Grows g (g.adopt i rf'.currentTerm) :=
    (Step.adopt (h.cur.trans_le hcur) : Step LogEntry.term g _).grows
  refine ⟨hme.trans h.me, by simp [adopt], h.nonneg.trans hcur, fun hr => absurd hrole hr,
    h.log.congr hlogs hlii hlit, ?_, ?_, ?_, hrest ▸ h.store, ?_, fun hr => ?_, fun hr => ?_,
    fun hr => ?_⟩
  · rw [hlii, hcommit]; exact h.behind
  · rw [hcommit]; exact h.within
  · rw [hcommit]; exact h.commit.mono hg hcur
  · rw [hrest]; exact h.storeCommit.mono hg hcur
  all_goals rw [hrole] at hr; cases hr

theorem adopt_self (g : Shadow n C) (i : Fin n) : g.adopt i (g.cur i) = g := by
  simp [adopt]

theorem Peer.stepDown (h : Peer g i rf) (hT : rf.currentTerm ≤ T) :
    Peer (g.adopt i T) i (rf.stepDown T) := by
  have hpeer : Peer (g.adopt i (rf.stepDown T).currentTerm) i (rf.stepDown T) :=
    h.follower rfl hT rfl rfl rfl rfl rfl rfl
  exact hpeer

theorem Peer.unsaved (h : Peer g i rf) (b : Bool) : Peer g i { rf with unsaved := b } :=
  ⟨h.me, h.cur, h.nonneg, h.pos, h.log.congr rfl rfl rfl, h.behind, h.within, h.commit, h.store,
    h.storeCommit, h.leader, h.candidate, h.matched⟩

theorem Peer.meet (h : Peer g i rf) (hT : rf.currentTerm ≤ T) :
    Peer (g.adopt i T) i (rf.meet T) := by
  unfold Raft.meet
  split
  · exact h.stepDown hT
  · obtain rfl : T = rf.currentTerm := by omega
    rw [← h.cur, adopt_self]; exact h

theorem Peer.follow (h : Peer g i rf) (hT : rf.currentTerm ≤ T) :
    Peer (g.adopt i T) i (rf.follow T) := by
  have hcur := Raft.follow_currentTerm hT
  have hpeer : Peer (g.adopt i (rf.follow T).currentTerm) i (rf.follow T) :=
    h.follower (by simp) (by rw [hcur]; exact hT) (by simp) (by simp) (by simp) (by simp) (by simp)
      (by unfold Raft.follow; split <;> simp)
  rwa [hcur] at hpeer

theorem Peer.save (h : Peer g i rf) : Peer (g.save i) i rf.persist := by
  obtain ⟨hlogs, hlii, hlit⟩ := Raft.restored_persist rf
  have hst : (g.save i).stable i = g.log i := by simp [Replicas.save]
  refine ⟨h.me, h.cur, h.nonneg, h.pos, h.log, h.behind, h.within, h.commit, ?_, ?_, h.leader,
    h.candidate, h.matched⟩
  · rw [hst]; exact h.log.congr hlogs hlii hlit
  · rw [hst, hlii]
    refine h.commit.restrict (List.take_prefix_take_left ?_)
    exact Int.toNat_le_toNat h.behind

/-- The peer takes over the part `P` of the leader log of its term, and saves it. -/
theorem Peer.accept (h : Peer g i rf) {L P : List (LogEntry C)}
    (hlead : g.lead rf.currentTerm = some L) (hme : rf'.me = rf.me)
    (hcur : rf'.currentTerm = rf.currentTerm) (hrole : rf'.role ≠ .Leader)
    (hpos : rf'.role ≠ .Follower → rf.role ≠ .Follower) (hlog : rf'.Compacts P)
    (hbehind : rf'.lastIncludedIndex ≤ rf'.commitIndex) (hwithin : rf'.commitIndex ≤ P.length)
    (hcommit : Committed LogEntry.term g rf.currentTerm (P.take rf'.commitIndex.toNat)) :
    Peer (g.accept i P) i rf'.persist := by
  obtain ⟨hlogs, hlii, hlit⟩ := Raft.restored_persist rf'
  have hl : (g.accept i P).log i = P := by simp [Replicas.accept]
  have hst : (g.accept i P).stable i = P := by simp [Replicas.accept]
  refine ⟨hme.trans h.me, ?_, ?_, ?_, ?_, hbehind, ?_, ?_, ?_, ?_, fun hr => absurd hr hrole,
    fun hr hnone => ?_, fun hr => absurd hr hrole⟩
  all_goals simp only [Raft.persist_currentTerm, Raft.persist_role, Raft.persist_commitIndex, hl,
    hst, hcur]
  · exact h.cur
  · exact h.nonneg
  · exact fun hr => h.pos (hpos hr)
  · exact hlog
  · exact hwithin
  · exact hcommit
  · exact hlog.congr hlogs hlii hlit
  · rw [hlii]
    exact hcommit.restrict (List.take_prefix_take_left (Int.toNat_le_toNat hbehind))
  · simp only [Raft.persist_currentTerm, hcur] at hnone
    have hnone' : g.lead rf.currentTerm = none := hnone
    rw [hlead] at hnone'; cases hnone'

/-- Two logs of the design that have the same last term before an index agree up to it. -/
theorem take_eq_of_lastTerm {X Y : List (LogEntry C)} (hX : Coherent LogEntry.term g X)
    (hY : Coherent LogEntry.term g Y) {p : ℕ} (hp : p ≤ X.length) (hp' : p ≤ Y.length)
    (h : lastTerm (X.take p) = lastTerm (Y.take p)) : X.take p = Y.take p := by
  rcases p with _ | p
  · simp
  · have he := List.getElem?_eq_getElem (Nat.lt_of_succ_le hp)
    have hd := List.getElem?_eq_getElem (Nat.lt_of_succ_le hp')
    rw [lastTerm_take_succ he, lastTerm_take_succ hd] at h
    exact hX.take_eq hY he hd h

/-- What the peer knows to be committed is part of the leader log of its term. -/
theorem Peer.commit_prefix (hI : Inv LogEntry.term g) (h : Peer g i rf) {L : List (LogEntry C)}
    (hlead : g.lead rf.currentTerm = some L) {k : ℕ} (hk : k ≤ rf.commitIndex) :
    (g.log i).take k <+: L := by
  refine (List.take_prefix_take_left ?_).trans (hI.committed_lead h.commit le_rfl hlead)
  omega

/-- A request that reaches to the end of the log or conflicts with it cuts off nothing that the
    leader has. -/
theorem keeps_common (hlog : rf.Compacts (g.log i)) {args : AppendEntriesArgs n C} {p : ℕ}
    {L : List (LogEntry C)} (hp : args.prevLogIndex = p) (hpL : p ≤ L.length)
    (hL : L.take p ++ args.entries <+: L)
    (h0 : 0 ≤ args.prevLogIndex - rf.lastIncludedIndex + 1)
    (hkeep : rf.getLastLogicalIndex ≤ args.prevLogIndex + args.entries.length ∨
      ∃ k ∈ List.range args.entries.length, rf.conflictsAt args k = true)
    (R : List (LogEntry C)) (hR : R <+: g.log i) (hRL : R <+: L) :
    R <+: L.take p ++ args.entries := by
  have hlen : (L.take p ++ args.entries).length = p + args.entries.length := by simp [hpL]
  refine List.prefix_of_prefix_length_le hRL hL ?_
  rw [hlen]
  rcases hkeep with hend | ⟨k, hk, hconf⟩
  · have := hR.length_le
    rw [hlog.getLastLogicalIndex] at hend
    omega
  · -- at the conflict the two logs differ, so their common part ends before it
    by_contra hlt
    rw [List.mem_range] at hk
    unfold Raft.conflictsAt at hconf
    split at hconf
    · rename_i t e ht he
      obtain ⟨hle, htt⟩ := hlog.termAt (by omega) ht
      have hget : (g.log i)[p + k]? = some e := by
        rw [getElem?_of_isPrefix hR (by omega), ← getElem?_of_isPrefix hRL (by omega),
          getElem?_of_isPrefix hL (by omega), List.getElem?_append_right (by simp)]
        simpa [hpL] using he
      have hterm := lastTerm_take_succ hget
      rw [show (args.prevLogIndex + 1 + k).toNat = p + k + 1 by omega, hterm] at htt
      simp [htt] at hconf
    · cases hconf

/-! ### The server -/

/-- A step that neither asks for votes nor enters the section between the two halves of
    `startElection`: it is enough to look at the peer and at what is new. -/
theorem Server.follows (h : Server g i nd) {out : Out n C S} (hsteps : Steps LogEntry.term g g')
    (hothers : ∀ j, j ≠ i → Same g g' j)
    (hlead : ∀ T L, g'.lead T = some L →
      g.lead T = some L ∨ T = out.node.rf.currentTerm ∧ out.node.rf.role = .Leader)
    (hpeer : Peer g' i out.node.rf) (hcur : nd.rf.currentTerm ≤ out.node.rf.currentTerm)
    (hst : out.node.rf.currentTerm = nd.rf.currentTerm → Standing g' out.node.rf →
      Standing g nd.rf ∧ g.log i <+: g'.log i)
    (hcommit : nd.rf.commitIndex ≤ out.node.rf.commitIndex)
    (hask : ∀ T, g'.ask T i = g.ask T i)
    (htick : out.node.ticker.isElected = true → nd.ticker.isElected = true)
    (hthreads : ∀ t ∈ out.node.threads, t ∈ nd.threads ∨ Works g' i out.node.rf t)
    (hrecv : ∀ m ∈ out.node.received, m ∈ nd.received ∨ Delivers g' out.node.rf m)
    (hsent : ∀ p ∈ out.sent, Says g' p) (happ : ∀ m ∈ out.applied, Agreed g' m)
    (hstarted : ∀ c ∈ out.started, Records g' c.index c.term c.command) :
    Follows g i out g' := by
  have hg := hsteps.grows
  refine ⟨hsteps, hothers, hlead, ⟨hpeer, fun T L hL => ?_, fun t ht => ?_, fun m hm => ?_⟩,
    hsent, happ, hstarted⟩
  · obtain ⟨hle, hlt⟩ := h.asks T L (hask T ▸ hL)
    exact ⟨hle.trans hcur, fun ht => (hlt (htick ht)).trans_le hcur⟩
  · rcases hthreads t ht with hold | hnew
    · exact (h.threads t hold).mono hg hcur hst hcommit
    · exact hnew
  · rcases hrecv m hm with hold | hnew
    · exact (h.received m hold).mono hg hcommit
    · exact hnew

/-- A step that the replica does not notice. -/
theorem Server.still (h : Server g i nd) {out : Out n C S} (hpeer : Peer g i out.node.rf)
    (hcur : out.node.rf.currentTerm = nd.rf.currentTerm) (hrole : out.node.rf.role = nd.rf.role)
    (hcommit : out.node.rf.commitIndex = nd.rf.commitIndex)
    (htick : out.node.ticker.isElected = true → nd.ticker.isElected = true)
    (hthreads : ∀ t ∈ out.node.threads, t ∈ nd.threads ∨ Works g i out.node.rf t)
    (hrecv : ∀ m ∈ out.node.received, m ∈ nd.received ∨ Delivers g out.node.rf m)
    (hsent : ∀ p ∈ out.sent, Says g p) (happ : ∀ m ∈ out.applied, Agreed g m)
    (hstarted : out.started = []) : Follows g i out g := by
  refine h.follows .refl (fun j _ => .refl g j) (fun T L => .inl) hpeer hcur.ge (fun _ hs => ?_)
    hcommit.ge (fun _ => rfl) htick hthreads hrecv hsent happ (by rw [hstarted]; simp)
  rw [Standing, hrole, hcur] at hs
  exact ⟨hs, List.prefix_refl _⟩

/-- A step that only sends. -/
theorem Server.sends (h : Server g i nd) {sent : List (Packet n C S)}
    (hsent : ∀ p ∈ sent, Says g p) : Follows g i { node := nd, sent := sent } g :=
  h.still h.peer rfl rfl rfl (fun ht => ht) (fun t ht => .inl ht) (fun m hm => .inl hm) hsent
    (by simp) rfl

/-- A step that only starts goroutines. -/
theorem Server.spawns (h : Server g i nd) {ts : List (Thread n C S)}
    (hts : ∀ t ∈ ts, Works g i nd.rf t) : Follows g i { node := nd.spawn ts } g := by
  refine h.still h.peer rfl rfl rfl (fun ht => ht) (fun t ht => ?_) (fun m hm => .inl hm) (by simp)
    (by simp) rfl
  exact (List.mem_append.mp ht).imp_right (hts t)

/-- The server while one of its goroutines takes a step. -/
theorem Server.erase (h : Server g i nd) (k : ℕ) :
    Server g i { nd with threads := nd.threads.eraseIdx k } :=
  ⟨h.peer, h.asks, fun t ht => h.threads t (List.mem_of_mem_eraseIdx ht), h.received⟩

/-- The server enters the term `T`, or stays in it, and saves. -/
theorem Server.enter (h : Server g i nd) {out : Out n C S} (hT : nd.rf.currentTerm ≤ T)
    (hpeer : Peer ((g.adopt i T).save i) i out.node.rf) (hcur : out.node.rf.currentTerm = T)
    (hrole : T = nd.rf.currentTerm → out.node.rf.role = nd.rf.role ∨ out.node.rf.role = .Follower)
    (hcommit : out.node.rf.commitIndex = nd.rf.commitIndex)
    (htick : out.node.ticker.isElected = true → nd.ticker.isElected = true)
    (hthreads : ∀ t ∈ out.node.threads, t ∈ nd.threads)
    (hrecv : ∀ m ∈ out.node.received, m ∈ nd.received)
    (hsent : ∀ p ∈ out.sent, Says g p) (happ : out.applied = [])
    (hstarted : ∀ c ∈ out.started, Records g c.index c.term c.command) :
    Follows g i out ((g.adopt i T).save i) := by
  have hsteps : Steps LogEntry.term g ((g.adopt i T).save i) :=
    .tail (.single (.adopt (h.peer.cur.trans_le hT))) .save
  refine h.follows hsteps (fun j hj => (same_adopt hj).trans (same_save hj)) (fun T L => .inl)
    hpeer (hcur ▸ hT) (fun hsame hs => ⟨?_, List.prefix_refl _⟩) hcommit.ge (fun _ => rfl) htick
    (fun t ht => .inl (hthreads t ht)) (fun m hm => .inl (hrecv m hm))
    (fun p hp => (hsent p hp).mono hsteps.grows) (by rw [happ]; simp)
    (fun c hc => (hstarted c hc).mono hsteps.grows)
  have hs' : Standing g out.node.rf := hs.back hsteps.grows
  rcases hrole (hcur.symm.trans hsame) with hr | hr
  · rw [Standing, hr, hsame] at hs'; exact hs'
  · rcases hs' with hs' | ⟨hs', -⟩ <;> rw [hr] at hs' <;> cases hs'

theorem Peer.save_adopt (h : Peer g i rf) :
    Peer ((g.adopt i rf.currentTerm).save i) i rf.persist := by
  rw [← h.cur, adopt_self]; exact h.save

/-- The leader adds an entry to its log and to that of its term. -/
theorem Peer.append (h : Peer g i rf) (hrole : rf.role = .Leader) (command : Option C) :
    Peer (g.append i ⟨rf.currentTerm, command⟩) i (rf.startAppend rf.currentTerm command).1 := by
  have hlead := h.leader hrole
  have hg : Grows g (g.append i ⟨rf.currentTerm, command⟩) :=
    (Step.append (h.cur.symm ▸ hlead) h.cur.symm : Step LogEntry.term g _).grows
  have hl : (g.append i ⟨rf.currentTerm, command⟩).log i
      = g.log i ++ [⟨rf.currentTerm, command⟩] := by simp [Replicas.append]
  have htake : (g.log i ++ [(⟨rf.currentTerm, command⟩ : LogEntry C)]).take rf.commitIndex.toNat
      = (g.log i).take rf.commitIndex.toNat :=
    List.take_append_of_le_length (by have := h.within; omega)
  refine ⟨h.me, h.cur, h.nonneg, h.pos, ?_, h.behind, ?_, ?_, h.store,
    h.storeCommit.mono hg le_rfl, fun _ => ?_, fun hr => ?_, fun hr j => (h.matched hr j).mono hg⟩
  · rw [hl]; exact (h.log.startAppend ..).1
  · rw [hl, List.length_append]
    have := h.within
    simp only [Raft.startAppend]
    push_cast
    omega
  · rw [hl]
    simp only [Raft.startAppend]
    rw [htake]
    exact h.commit.mono hg le_rfl
  · rw [hl]
    simp [Raft.startAppend, Replicas.append, h.cur]
  · simp only [Raft.startAppend, hrole] at hr; cases hr

theorem Peer.backs (h : Peer g i rf) {server : Fin n} {args : AppendEntriesArgs n C}
    (hgen : rf.genAppendEntries server = some (args, false)) :
    Backs g rf.currentTerm (g.log i) args := by
  obtain ⟨-, hcar, hcommit, hlen⟩ := h.log.genAppendEntries hgen
  refine ⟨hcar, ?_⟩
  rw [hcommit, hlen, min_eq_left h.within]
  exact h.commit

theorem Peer.snaps (h : Peer g i rf) :
    Snaps g rf.currentTerm (g.log i) rf.genInstallSnapshot :=
  ⟨h.log.genInstallSnapshot,
    h.commit.restrict (List.take_prefix_take_left (Int.toNat_le_toNat h.behind))⟩

theorem Peer.delivers (h : Peer g i rf) {msgs : List (ApplyMsg C S)}
    (ha : rf.applyLogs = some (some msgs)) (hlii : rf.lastIncludedIndex ≤ rf.lastApplied) :
    ∀ m ∈ msgs, Delivers g rf m := by
  intro m hm
  obtain ⟨j, e, rfl, hj, hle, he⟩ := h.log.applyLogs ha hlii m hm
  refine ⟨⟨hj, _, _, e, h.commit, ?_, rfl⟩, fun k hk => ?_⟩
  · rw [List.getElem?_take_of_lt (by omega), he]
  · obtain rfl : j = k := of_decide_eq_true hk
    exact hle

/-! ### Goroutines -/

theorem Server.follows_start (h : Server g i nd) (hrole : nd.rf.role = .Leader)
    (command : Option C) :
    ∃ g', Follows g i
      { node := { nd with rf := (nd.rf.startAppend nd.rf.currentTerm command).1 }.spawn
          [.startPersist (nd.rf.startAppend nd.rf.currentTerm command).2 nd.rf.currentTerm
            command] } g' := by
  have hlead := h.peer.leader hrole
  have hpeer := h.peer.append hrole command
  refine ⟨_, h.follows (.single (.append (h.peer.cur.symm ▸ hlead) h.peer.cur.symm))
    (fun j hj => same_append hj) (fun T L hL => ?_) hpeer le_rfl (fun _ _ => ⟨.inl hrole, ?_⟩)
    le_rfl (fun _ => rfl) (fun ht => ht) (fun t ht => ?_) (fun m hm => .inl hm) (by simp) (by simp)
    (by simp)⟩
  · rcases append_lead hL with ⟨rfl, -⟩ | hL
    · exact .inr ⟨h.peer.cur, hrole⟩
    · exact .inl hL
  · simp [Replicas.append]
  · rcases List.mem_append.mp ht with ht | ht
    · exact .inl ht
    · obtain rfl := List.mem_singleton.mp ht
      refine .inr ⟨?_, g.log i ++ [⟨nd.rf.currentTerm, command⟩], ?_, ?_⟩
      · rw [(h.peer.log.startAppend ..).2]; omega
      · simp [Replicas.append, h.peer.cur]
      · rw [(h.peer.log.startAppend ..).2]; simp

/-- A goroutine step: only `Start` and its `persist` touch the replica. -/
theorem Server.follows_goes (h : Server g i nd) {k : ℕ} {t : Thread n C S} {out : Out n C S}
    (thread : nd.threads[k]? = some t)
    (goes : Node.Goes { nd with threads := nd.threads.eraseIdx k } t out)
    (hsend : nd.SendCurrent (.act (.run k))) (hstart : nd.StartCurrent (.act (.run k)))
    (happly : nd.ApplyAhead (.act (.run k))) : ∃ g', Follows g i out g' := by
  have hw : Works g i nd.rf t := h.threads t (List.mem_of_getElem? thread)
  have h' := h.erase k
  cases goes with
  | start term command =>
    obtain ⟨hrole, rfl⟩ := hstart _ thread term rfl
    exact h'.follows_start hrole command
  | startPersist index term command =>
    refine ⟨_, h'.enter le_rfl h.peer.save_adopt rfl (fun _ => .inl rfl) rfl (fun ht => ht)
      (fun t' ht' => ht') (fun m hm => hm) (by simp) rfl ?_⟩
    intro c hc
    obtain rfl := List.mem_singleton.mp hc
    exact hw
  | @heartbeat server args isSnapshot gen =>
    refine ⟨g, h'.spawns fun t' ht' => ?_⟩
    obtain rfl := List.mem_singleton.mp ht'
    cases isSnapshot with
    | true => exact hw
    | false =>
      obtain ⟨hterm, -⟩ := Raft.genAppendEntries_eq_some gen
      exact ⟨hw, hterm.le, fun _ _ => h.peer.backs gen⟩
  | appendSnapshot role =>
    refine ⟨g, h'.spawns fun t' ht' => ?_⟩
    obtain rfl := List.mem_singleton.mp ht'
    exact hw
  | @appendSend server args role =>
    refine ⟨g, h'.sends fun p hp => ?_⟩
    obtain rfl := List.mem_singleton.mp hp
    obtain ⟨hne, -, hback⟩ := hw
    have hterm : args.term = nd.rf.currentTerm := hsend _ thread _ rfl role
    refine ⟨?_, g.log i, hterm ▸ h.peer.leader role, hterm ▸ hback hterm (.inl role)⟩
    exact fun heq => hne (heq.symm.trans h.peer.me)
  | appendDrop role => exact ⟨g, h'.sends (by simp)⟩
  | install server =>
    refine ⟨g, h'.spawns fun t' ht' => ?_⟩
    obtain rfl := List.mem_singleton.mp ht'
    exact ⟨hw, le_rfl, fun _ _ => h.peer.snaps⟩
  | @installSend server args role =>
    refine ⟨g, h'.sends fun p hp => ?_⟩
    obtain rfl := List.mem_singleton.mp hp
    obtain ⟨hne, -, hsnap⟩ := hw
    have hterm : args.term = nd.rf.currentTerm := hsend _ thread _ rfl role
    refine ⟨?_, g.log i, hterm ▸ h.peer.leader role, hterm ▸ hsnap hterm (.inl role)⟩
    exact fun heq => hne (heq.symm.trans h.peer.me)
  | installDrop role => exact ⟨g, h'.sends (by simp)⟩
  | applyCond logs =>
    have hle := happly _ thread rfl
    have hlogs : nd.rf.applyLogs = some none := logs
    unfold Raft.applyLogs at hlogs
    rw [if_neg (by omega)] at hlogs
    split at hlogs
    · cases hlogs
    · obtain ⟨a, -, ha⟩ := Option.map_eq_some_iff.mp hlogs
      cases ha
  | apply logs =>
    refine ⟨g, h'.spawns fun t' ht' => ?_⟩
    obtain rfl := List.mem_singleton.mp ht'
    exact h.peer.delivers logs (happly _ thread rfl)
  | applyDone => exact ⟨g, h'.sends (by simp)⟩
  | applySend msg msgs =>
    refine ⟨g, h'.still h.peer rfl rfl rfl (fun ht => ht) (fun t' ht' => ?_) (fun m hm => ?_)
      (by simp) (fun m hm => ?_) rfl⟩
    · refine (List.mem_append.mp ht').imp_right fun ht' => ?_
      obtain rfl := List.mem_singleton.mp ht'
      exact fun m hm => hw m (List.mem_cons_of_mem _ hm)
    · rcases List.mem_cons.mp hm with rfl | hm
      · exact .inr (hw _ (List.mem_cons_self ..))
      · exact .inl hm
    · obtain rfl := List.mem_singleton.mp hm
      exact (hw _ (List.mem_cons_self ..)).1
  | applied j msgs =>
    have hpeer : Peer g i { nd.rf with lastApplied := j } :=
      h.peer.congr rfl rfl rfl rfl rfl rfl rfl rfl rfl
    refine ⟨g, h'.still hpeer rfl rfl rfl (fun ht => ht) (fun t' ht' => ?_) (fun m hm => .inl hm)
      (by simp) (by simp) rfl⟩
    refine (List.mem_append.mp ht').imp_right fun ht' => ?_
    obtain rfl := List.mem_singleton.mp ht'
    exact hw
  | condRead => exact hw.elim
  | condInstall handler => exact hw.elim
  | snapshotMsg msg =>
    refine ⟨g, h'.still h.peer rfl rfl rfl (fun ht => ht) (fun t' ht' => .inl ht') (fun m hm => ?_)
      (by simp) (fun m hm => ?_) rfl⟩
    · rcases List.mem_cons.mp hm with rfl | hm
      · exact .inr hw
      · exact .inl hm
    · obtain rfl := List.mem_singleton.mp hm
      exact hw.1

/-! ### Elections -/

theorem Server.follows_startElection (h : Server g i nd) :
    ∃ g', Follows g i
      { node := { nd with
          rf := nd.rf.startElection
          ticker := .elected nd.rf.startElection.currentTerm } } g' := by
  have hstep : Step LogEntry.term g (g.adopt i (nd.rf.currentTerm + 1)) :=
    .adopt (by rw [h.peer.cur]; omega)
  have hg := hstep.grows
  have hle : nd.rf.currentTerm ≤ nd.rf.currentTerm + 1 := by omega
  have hasks : ∀ T L, g.ask T i = some L → T < nd.rf.currentTerm + 1 := by
    intro T L hL
    have := (h.asks T L hL).1
    omega
  have hpeer : Peer (g.adopt i (nd.rf.currentTerm + 1)) i nd.rf.startElection := by
    refine ⟨h.peer.me, by simp [adopt, Raft.startElection], ?_, fun _ => ?_, h.peer.log,
      h.peer.behind, h.peer.within, h.peer.commit.mono hg hle, h.peer.store,
      h.peer.storeCommit.mono hg hle, nofun, fun _ _ L hL => ?_, nofun⟩
    · exact h.peer.nonneg.trans hle
    · have := h.peer.nonneg
      simp only [Raft.startElection]; omega
    · exact absurd (hasks _ L hL) (lt_irrefl _)
  refine ⟨_, .single hstep, fun j hj => same_adopt hj, fun T L => .inl,
    ⟨hpeer, fun T L hL => ?_, fun t ht => ?_, fun m hm => ?_⟩, by simp, by simp, by simp⟩
  · exact ⟨(hasks T L hL).le, fun _ => hasks T L hL⟩
  · have hle' : nd.rf.currentTerm ≤ nd.rf.startElection.currentTerm := hle
    exact (h.threads t ht).mono hg hle'
      (fun heq => absurd heq (by simp [Raft.startElection])) le_rfl
  · exact (h.received m hm).mono hg le_rfl

theorem Server.follows_sendRequestVotes (h : Server g i nd) {t : ℤ} {args : RequestVoteArgs n}
    (ticker : nd.ticker = .elected t) (gen : nd.rf.genRequestVoteArgs = some args) :
    ∃ g', Follows g i
      { node := { nd with ticker := .persisting, voteCounts := nd.voteCounts ++ [1] }
        sent := nd.others.map fun j =>
          nd.packet j (.requestVote nd.voteCounts.length args) } g' := by
  have hfresh : g.ask (g.cur i) i = none := by
    rcases hask : g.ask (g.cur i) i with _ | L
    · rfl
    · have := (h.asks _ L hask).2 (by rw [ticker]; rfl)
      rw [h.peer.cur] at this
      exact absurd this (lt_irrefl _)
  have hstep : Step LogEntry.term g (g.stand i) := .stand hfresh
  have hg := hstep.grows
  have hask : ∀ T L, (g.stand i).ask T i = some L →
      T = g.cur i ∧ L = g.log i ∨ g.ask T i = some L := by
    intro T L hL
    simp only [stand] at hL
    split at hL
    · rename_i hc
      exact .inl ⟨hc.1, (Option.some.inj hL).symm⟩
    · exact .inr hL
  have hpeer : Peer (g.stand i) i nd.rf := by
    have hp := h.peer
    refine ⟨hp.me, hp.cur, hp.nonneg, hp.pos, hp.log, hp.behind, hp.within, hp.commit, hp.store,
      hp.storeCommit, hp.leader, fun hr hnone L hL => ?_, hp.matched⟩
    rcases hask _ L hL with ⟨-, rfl⟩ | hL
    · rfl
    · exact hp.candidate hr hnone L hL
  refine ⟨_, .single hstep, fun j hj => same_stand hj, fun T L => .inl,
    ⟨hpeer, fun T L hL => ?_, fun t ht => ?_, fun m hm => ?_⟩, fun p hp => ?_, by simp, by simp⟩
  · refine ⟨?_, by rintro ⟨⟩⟩
    rcases hask T L hL with ⟨rfl, -⟩ | hL
    · exact h.peer.cur.le
    · exact (h.asks T L hL).1
  · exact (h.threads t ht).mono hg le_rfl (fun _ hs => ⟨hs.back hg, List.prefix_refl _⟩) le_rfl
  · exact (h.received m hm).mono hg le_rfl
  · obtain ⟨j, -, rfl⟩ := List.mem_map.mp hp
    rw [h.peer.log.genRequestVoteArgs] at gen
    obtain rfl := Option.some.inj gen
    refine ⟨g.log i, ?_, rfl, rfl⟩
    simp [Node.packet, stand, h.peer.me, h.peer.cur]

/-- The log of the candidate is at least as up to date as the peer's. -/
theorem upToDate_of_isLogUpToDate (hI : Inv LogEntry.term g)
    (hpos : ∀ T L, g.lead T = some L → 0 < T) (hlog : rf.Compacts (g.log i))
    {L : List (LogEntry C)} (hup : rf.isLogUpToDate (lastTerm L) L.length = some true) :
    UpToDate LogEntry.term L (g.log i) := by
  intro e he
  obtain ⟨M, hM, -⟩ := (hI.logCoh i).getLast he
  have hposE := hpos _ M hM
  have hcmp := hlog.isLogUpToDate hup
  rw [lastTerm_of_getLast? he] at hcmp
  obtain ⟨d, hd⟩ : ∃ d, L.getLast? = some d := by
    rcases hlast : L.getLast? with _ | d
    · have : lastTerm L = 0 := by simp [lastTerm, hlast]
      omega
    · exact ⟨d, rfl⟩
  rw [lastTerm_of_getLast? hd] at hcmp
  refine ⟨d, hd, hcmp.imp_right fun h => ⟨h.1, by omega⟩⟩

theorem Server.follows_requestVote (hI : Inv LogEntry.term g)
    (hpos : ∀ T L, g.lead T = some L → 0 < T) (h : Server g i nd) {p : Packet n C S} {e : ℕ}
    {args : RequestVoteArgs n} {reply : RequestVoteReply} (body : p.body = .requestVote e args)
    (hdst : p.dst = i) (hsaid : Says g p)
    (handler : nd.rf.requestVote args = some (rf', reply)) :
    ∃ g', Follows g i
      { node := { nd with rf := rf' }
        sent := [⟨p.dst, p.src, p.incarnation, .requestVoteReply e args reply⟩] } g' := by
  rcases Raft.requestVote_cases handler with ⟨-, rfl, rfl⟩ | ⟨hle, -, b, hup, rfl, rfl⟩
  · refine ⟨_, h.enter le_rfl h.peer.save_adopt rfl (fun _ => .inl rfl) rfl (fun ht => ht)
      (fun t ht => ht) (fun m hm => hm) (fun q hq => ?_) rfl (by simp)⟩
    obtain rfl := List.mem_singleton.mp hq
    rintro ⟨⟩
  -- the peer is in the term of the request and has saved its vote
  have hcur := Raft.meet_currentTerm hle
  have hpeer : Peer ((g.adopt i args.term).save i) i
      { nd.rf.meet args.term with
        votedFor := if b then some args.candidateId else none }.persist := by
    refine Peer.save (Peer.congr (h.peer.meet hle) ?_ ?_ ?_ ?_ ?_ ?_ ?_ ?_ ?_) <;> rfl
  have hrole : args.term = nd.rf.currentTerm →
      (nd.rf.meet args.term).role = nd.rf.role ∨ (nd.rf.meet args.term).role = .Follower := by
    intro heq
    rw [Raft.meet, if_neg (by omega)]
    exact .inl rfl
  cases b with
  | false =>
    refine ⟨_, h.enter hle hpeer hcur hrole (by simp) (fun ht => ht) (fun t ht => ht)
      (fun m hm => hm) (fun q hq => ?_) rfl (by simp)⟩
    obtain rfl := List.mem_singleton.mp hq
    rintro ⟨⟩
  | true =>
    rw [Says, body] at hsaid
    obtain ⟨L, hask, hlen, hterm⟩ := hsaid
    rw [hlen, hterm] at hup
    have hg1 : Steps LogEntry.term g ((g.adopt i args.term).save i) :=
      .tail (.single (.adopt (h.peer.cur.trans_le hle))) .save
    have hup' : UpToDate LogEntry.term L (((g.adopt i args.term).save i).log i) :=
      upToDate_of_isLogUpToDate (hI.steps hg1) hpos (h.peer.meet hle).log hup
    have hstep : Step LogEntry.term ((g.adopt i args.term).save i)
        (((g.adopt i args.term).save i).grant args.term i p.src) :=
      .grant (by simp [adopt, save]) hask hup'
    have hbase : Follows g i { node := { nd with rf := { nd.rf.meet args.term with
        votedFor := some args.candidateId }.persist } } ((g.adopt i args.term).save i) :=
      h.enter hle hpeer hcur hrole (by simp) (fun ht => ht) (fun t ht => ht) (fun m hm => hm)
        (by simp) rfl (by simp)
    refine ⟨_, .tail hg1 hstep, fun j hj => (hbase.others j hj).trans ⟨rfl, rfl, rfl, fun _ => rfl⟩,
      hbase.lead, ?_, fun q hq => ?_, by simp, by simp⟩
    · exact hbase.server.frame hstep.grows ⟨rfl, rfl, rfl, fun _ => rfl⟩ fun _ => rfl
    · obtain rfl := List.mem_singleton.mp hq
      exact fun _ => .inl ⟨rfl, hdst, rfl⟩

end Shadow
end DistLabs
