import DistLabs.Raft.Safety

/-! # Leaders

    What the logs of leaders have over time, in runs of sound steps: an entry that some server knows
    to be committed is in the log of every leader of a later term, and as long as a leader stays in
    its term it only adds to its log. Both compare two states of one run, with crashes, compaction
    and elections in between, through the replicas that stand for them. -/

namespace DistLabs

open Replicas Shadow

variable {n : ℕ} {C S : Type}

theorem Raft.Compacts.lastIncludedIndex_nonneg {rf : Raft n C S} {full : List (LogEntry C)}
    (h : rf.Compacts full) : 0 ≤ rf.lastIncludedIndex := by
  obtain ⟨k, -, hk, -⟩ := h
  omega

namespace Cluster

variable {s s' : Cluster n C S} {g g' : Shadow n C} {i j : Fin n} {k : ℤ}

/-- The replicas of a later state come from those of an earlier one. -/
theorem Shadowed.run (hE : s.ElectionInv) (hg : s.Shadowed g)
    (h : Run step (At Node.Sound) s s') :
    s'.ElectionInv ∧ ∃ g', s'.Shadowed g' ∧ Steps LogEntry.term g g' := by
  refine h.invariant (P := fun t => t.ElectionInv ∧ ∃ g', t.Shadowed g' ∧ Steps LogEntry.term g g')
    ⟨hE, g, hg, .refl⟩ ?_
  rintro t t' e ⟨hE, g₁, hg₁, hsteps⟩ hok hstep
  have hE' := electionInv_step hE hok hstep
  obtain ⟨i, inp, net, out, hin, hon, rfl⟩ := step_ok hstep
  obtain ⟨g₂, hf⟩ := hg₁.follows hE hE' hin (hok.at_input hin) (Node.on_move hon)
  exact ⟨hE', g₂, hg₁.advance hE' hf, hsteps.trans hf.steps⟩

/-- What a server knows to be committed is a prefix of the log of every leader of its term or a
    later one, now or later. -/
theorem Shadowed.commit_prefix_leader (hg : s.Shadowed g) (hg' : s'.Shadowed g')
    (hsteps : Steps LogEntry.term g g') (hrole : (s'.nodes j).rf.role = .Leader)
    (hterm : (s.nodes i).rf.currentTerm ≤ (s'.nodes j).rf.currentTerm) :
    (g.log i).take (s.nodes i).rf.commitIndex.toNat <+: g'.log j := by
  have hcommit := (hg.nodes i).peer.commit.mono hsteps.grows hterm
  exact hg'.inv.committed_lead hcommit le_rfl ((hg'.nodes j).peer.leader hrole)

/-- An entry that a server knows to be committed in its term is in the log of every server that
    leads this or a later term. -/
theorem committed_in_leader (h : Run step (At Node.Sound) init s)
    (h' : Run step (At Node.Sound) s s') (hlow : (s.nodes i).rf.lastIncludedIndex < k)
    (hk : k ≤ (s.nodes i).rf.commitIndex) (hrole : (s'.nodes j).rf.role = .Leader)
    (hterm : (s.nodes i).rf.currentTerm ≤ (s'.nodes j).rf.currentTerm) :
    ∃ e, (s.nodes i).rf.entryAt k = some e ∧ k ≤ (s'.nodes j).rf.getLastLogicalIndex ∧
      ((s'.nodes j).rf.lastIncludedIndex < k → (s'.nodes j).rf.entryAt k = some e) := by
  obtain ⟨hE, g, hg⟩ := exists_shadow h
  obtain ⟨-, g', hg', hsteps⟩ := hg.run hE h'
  have hprefix := hg.commit_prefix_leader hg' hsteps hrole hterm
  have hpeer := (hg.nodes i).peer
  have hpeer' := (hg'.nodes j).peer
  have hpos := hpeer.log.lastIncludedIndex_nonneg
  have hwithin := hpeer.within
  have hlt : (k - 1).toNat < (g.log i).length := by omega
  have hcut : (k - 1).toNat < ((g.log i).take (s.nodes i).rf.commitIndex.toNat).length := by
    rw [List.length_take]
    omega
  have hlen := hprefix.length_le
  rw [hpeer.log.entryAt hlow, hpeer'.log.getLastLogicalIndex]
  refine ⟨_, List.getElem?_eq_getElem hlt, by omega, fun hlow' => ?_⟩
  rw [hpeer'.log.entryAt hlow', getElem?_of_isPrefix hprefix hcut,
    List.getElem?_take_of_lt (by omega), List.getElem?_eq_getElem hlt]

/-- Server 1, which has the entry the first leader has committed, is elected in term 2. -/
def secondLeader [NeZero n] : List (Event n ℕ Unit) :=
  [.act 1 .timeout, .act 1 .startElection, .act 1 .sendRequestVotes, .act 1 .persistElection,
    .deliver 5, .deliver 5]

theorem leader_log_grows (h : Run step (At Node.Sound) init s)
    (h' : Run step (At Node.Sound) s s') (hrole : (s.nodes i).rf.role = .Leader)
    (hrole' : (s'.nodes i).rf.role = .Leader)
    (hterm : (s'.nodes i).rf.currentTerm = (s.nodes i).rf.currentTerm) :
    (s.nodes i).rf.getLastLogicalIndex ≤ (s'.nodes i).rf.getLastLogicalIndex ∧
      ∀ k, (s.nodes i).rf.lastIncludedIndex < k → (s'.nodes i).rf.lastIncludedIndex < k →
        k ≤ (s.nodes i).rf.getLastLogicalIndex →
        (s'.nodes i).rf.entryAt k = (s.nodes i).rf.entryAt k := by
  obtain ⟨hE, g, hg⟩ := exists_shadow h
  obtain ⟨-, g', hg', hsteps⟩ := hg.run hE h'
  have hpeer := (hg.nodes i).peer
  have hpeer' := (hg'.nodes i).peer
  have hpos := hpeer.log.lastIncludedIndex_nonneg
  have hprefix : g.log i <+: g'.log i := by
    -- the leader log of the term has grown from the one to the other
    obtain ⟨L, hL, hle⟩ := hsteps.grows.lead _ _ (hpeer.leader hrole)
    rw [← hterm, hpeer'.leader hrole'] at hL
    exact Option.some.inj hL ▸ hle
  have hlen := hprefix.length_le
  rw [hpeer.log.getLastLogicalIndex, hpeer'.log.getLastLogicalIndex]
  refine ⟨by omega, fun k hlow hlow' hk => ?_⟩
  rw [hpeer.log.entryAt hlow, hpeer'.log.entryAt hlow']
  exact getElem?_of_isPrefix hprefix (by omega)

/-- The first leader starts another command. -/
def secondCommand [NeZero n] : List (Event n ℕ Unit) :=
  [.act 0 (.start (some 8)), .act 0 (.run 2), .act 0 (.run 2)]

end Cluster

namespace Interleaved

variable {s s' : Interleaved n C S} {i j : Fin n} {k : ℤ}

/-- Leader completeness: an entry that a server knows to be committed in its term is in the log of
    every server that leads this or a later term, at the same index, unless it has been compacted
    there. A leader inside the tail of `handleInstallSnapshot`, which writes the term before it
    gives up the role, is left out. -/
theorem leader_completeness (h : Run step (Steady Node.Sound) init s)
    (h' : Run step (Steady Node.Sound) s s')
    (hlow : (s.cluster.nodes i).rf.lastIncludedIndex < k)
    (hk : k ≤ (s.cluster.nodes i).rf.commitIndex) (htail : ¬ s'.InTail j)
    (hrole : (s'.cluster.nodes j).rf.role = .Leader)
    (hterm : (s.cluster.nodes i).rf.currentTerm ≤ (s'.cluster.nodes j).rf.currentTerm) :
    ∃ e, (s.cluster.nodes i).rf.entryAt k = some e ∧
      k ≤ (s'.cluster.nodes j).rf.getLastLogicalIndex ∧
      ((s'.cluster.nodes j).rf.lastIncludedIndex < k →
        (s'.cluster.nodes j).rf.entryAt k = some e) := by
  obtain ⟨t, ht, hst⟩ := exists_stands Node.crashLocal_sound h
  obtain ⟨t', ht', hst'⟩ := hst.run Node.crashLocal_sound h'
  have hunder := hst.underway i
  have hterm := hunder.currentTerm.trans hterm
  rw [hunder.lastIncludedIndex] at hlow
  rw [hunder.commitIndex] at hk
  rw [hst'.rf_eq htail] at hrole hterm ⊢
  rw [hunder.entryAt]
  exact Cluster.committed_in_leader ht ht' hlow hk hrole hterm

theorem leader_completeness_second_leader : ∃ s s' : Interleaved 3 ℕ Unit,
    Run step (Steady Node.Sound) init s ∧ Run step (Steady Node.Sound) s s' ∧
      (s'.cluster.nodes 1).rf.role = .Leader ∧ (s'.cluster.nodes 1).rf.currentTerm = 2 ∧
      ∃ e, (s.cluster.nodes 0).rf.entryAt 1 = some e ∧
        1 ≤ (s'.cluster.nodes 1).rf.getLastLogicalIndex ∧
        ((s'.cluster.nodes 1).rf.lastIncludedIndex < 1 →
          (s'.cluster.nodes 1).rf.entryAt 1 = some e) := by
  obtain ⟨s, s', t, t', hs, hs', hem, hem', hlow, hk, hrole, hterm, hterm'⟩ :=
    exists_runs_of_schedule (n := 3) Node.Sound
      (Cluster.firstVote ++ Cluster.firstLeader ++ Cluster.firstCommand) Cluster.secondLeader
      (fun t t' : Cluster 3 ℕ Unit => (t.nodes 0).rf.lastIncludedIndex < 1 ∧
        1 ≤ (t.nodes 0).rf.commitIndex ∧ (t'.nodes 1).rf.role = .Leader ∧
        (t.nodes 0).rf.currentTerm = 1 ∧ (t'.nodes 1).rf.currentTerm = 2) (by decide +kernel)
  rw [← hem.nodes] at hlow hk hterm
  rw [← hem'.nodes] at hrole hterm'
  exact ⟨s, s', hs, hs', hrole, hterm',
    leader_completeness hs hs' hlow hk (hem'.not_inTail 1) hrole (by omega)⟩

/-- A leader adds to its log: as long as it stays in its term, no entry of its log is changed or
    taken away, but for compaction. -/
theorem leader_append_only (h : Run step (Steady Node.Sound) init s)
    (h' : Run step (Steady Node.Sound) s s') (htail : ¬ s.InTail i) (htail' : ¬ s'.InTail i)
    (hrole : (s.cluster.nodes i).rf.role = .Leader)
    (hrole' : (s'.cluster.nodes i).rf.role = .Leader)
    (hterm : (s'.cluster.nodes i).rf.currentTerm = (s.cluster.nodes i).rf.currentTerm) :
    (s.cluster.nodes i).rf.getLastLogicalIndex ≤ (s'.cluster.nodes i).rf.getLastLogicalIndex ∧
      ∀ k, (s.cluster.nodes i).rf.lastIncludedIndex < k →
        (s'.cluster.nodes i).rf.lastIncludedIndex < k →
        k ≤ (s.cluster.nodes i).rf.getLastLogicalIndex →
        (s'.cluster.nodes i).rf.entryAt k = (s.cluster.nodes i).rf.entryAt k := by
  obtain ⟨t, ht, hst⟩ := exists_stands Node.crashLocal_sound h
  obtain ⟨t', ht', hst'⟩ := hst.run Node.crashLocal_sound h'
  rw [hst.rf_eq htail] at hrole hterm ⊢
  rw [hst'.rf_eq htail'] at hrole' hterm ⊢
  exact Cluster.leader_log_grows ht ht' hrole hrole' hterm

theorem leader_append_only_second_command : ∃ s s' : Interleaved 3 ℕ Unit,
    Run step (Steady Node.Sound) init s ∧ Run step (Steady Node.Sound) s s' ∧
      (s'.cluster.nodes 0).rf.getLastLogicalIndex = 2 ∧
      (s.cluster.nodes 0).rf.getLastLogicalIndex ≤
        (s'.cluster.nodes 0).rf.getLastLogicalIndex ∧
      ∀ k, (s.cluster.nodes 0).rf.lastIncludedIndex < k →
        (s'.cluster.nodes 0).rf.lastIncludedIndex < k →
        k ≤ (s.cluster.nodes 0).rf.getLastLogicalIndex →
        (s'.cluster.nodes 0).rf.entryAt k = (s.cluster.nodes 0).rf.entryAt k := by
  obtain ⟨s, s', t, t', hs, hs', hem, hem', hrole, hrole', hterm, hlast⟩ :=
    exists_runs_of_schedule (n := 3) Node.Sound
      (Cluster.firstVote ++ Cluster.firstLeader ++ Cluster.firstCommand) Cluster.secondCommand
      (fun t t' : Cluster 3 ℕ Unit => (t.nodes 0).rf.role = .Leader ∧
        (t'.nodes 0).rf.role = .Leader ∧
        (t'.nodes 0).rf.currentTerm = (t.nodes 0).rf.currentTerm ∧
        (t'.nodes 0).rf.getLastLogicalIndex = 2) (by decide +kernel)
  rw [← hem.nodes] at hrole hterm
  rw [← hem'.nodes] at hrole' hterm hlast
  exact ⟨s, s', hs, hs', hlast, leader_append_only hs hs' (hem.not_inTail 0) (hem'.not_inTail 0)
    hrole hrole' hterm⟩

end Interleaved
end DistLabs
