import DistLabs.Raft.Replicate

/-! # The cluster refines the replicated log

    In a run of sound steps the states of the cluster are matched by states that the replicated log
    reaches by its own steps. Of the election the simulation only uses that two servers that have
    led one term are the same, and that a candidate has not led its term. -/

namespace DistLabs

open Replicas Shadow

variable {n : ℕ} {C S : Type}

namespace Cluster

variable {s s' : Cluster n C S} {g g' : Shadow n C} {i : Fin n} {net : List (Packet n C S)}
  {out : Out n C S} {inp : Input n C S} {e : Event n C S}

/-- What is known of the elections. -/
structure ElectionInv (s : Cluster n C S) : Prop where
  votes : s.VoteInv
  counts : s.CountInv
  fresh : s.CandidatesFresh
  leaders : ∀ p ∈ s.sent, ∀ T ∈ p.leaderTerm, s.Led p.src T

theorem electionInv_init : ElectionInv (init : Cluster n C S) :=
  ⟨voteInv_init, countInv_init,
    by simp [CandidatesFresh, init, Node.boot, Raft.make, Raft.readPersist,
      Raft.readSnapshotPersist],
    by simp [init]⟩

theorem electionInv_step (hE : s.ElectionInv) (hok : At Node.Sound s e) (h : s.step e = .ok s') :
    s'.ElectionInv := by
  have hv' := voteInv_step hE.votes (hok.mono fun _ _ h => h.crash) h
  refine ⟨hv', countInv_step hE.votes hE.counts (hok.mono fun _ _ h => h.vote) h,
    candidatesFresh_step hE.votes hv' hE.fresh h, ?_⟩
  obtain ⟨i, inp, net, out, hin, hon, rfl⟩ := step_ok h
  intro p hp T hT
  refine led_advance.mpr (.inr ?_)
  rcases mem_advance_sent.mp hp with hnew | hold
  · exact hE.votes.led_sends (hok.at_input hin).send ((Node.on_move hon).sends p hnew) T hT
  · exact hE.leaders p hold T hT

/-- Two servers that have led one term are the same. -/
theorem ElectionInv.led_unique (hE : s.ElectionInv) {i j : Fin n} {T : ℤ} (hi : s.Led i T)
    (hj : s.Led j T) : i = j :=
  hE.votes.elected_unique (hE.counts.led i T hi) (hE.counts.led j T hj)

theorem ElectionInv.led_current (hE : s.ElectionInv) (hrole : (s.nodes i).rf.role = .Leader) :
    s.Led i (s.nodes i).rf.currentTerm :=
  ⟨_, hE.votes.current i, hE.votes.me i, hrole, rfl⟩

theorem Shadowed.inv (h : s.Shadowed g) : Inv LogEntry.term g := (inv_init 0).steps h.reach

/-- A vote on its way has been given. -/
theorem Shadowed.vote_of_granted (h : s.Shadowed g) {v c : Fin n} {T : ℤ} (hg : s.Granted v T c) :
    g.vote T v c := by
  obtain ⟨p, hp, hkey⟩ := List.mem_filterMap.mp hg
  have hsaid := h.sent p hp
  unfold Packet.grantKey at hkey
  split at hkey
  · rename_i e args reply hbody
    rw [Says, hbody] at hsaid
    split at hkey <;> cases hkey
    exact hsaid (by assumption)
  · cases hkey

/-- A candidate that a vote makes leader has a majority, and nobody has led its term. -/
theorem Shadowed.wins (h : s.Shadowed g) (hE : s.ElectionInv)
    (hE' : (s.advance i net out).ElectionInv) (hsent : out.sent = [])
    (hcand : (s.nodes i).rf.role = .Candidate) (hlead : out.node.rf.role = .Leader)
    (hcur : out.node.rf.currentTerm = (s.nodes i).rf.currentTerm) :
    g.lead (s.nodes i).rf.currentTerm = none ∧ ∃ Q : Finset (Fin n), Majority Q ∧
      ∀ v ∈ Q, v = i ∨ g.vote (s.nodes i).rf.currentTerm v i := by
  have hled : (s.advance i net out).Led i (s.nodes i).rf.currentTerm := by
    have := hE'.led_current (i := i) (by simpa using hlead)
    rwa [advance_nodes_self, hcur] at this
  refine ⟨?_, ?_⟩
  · rcases hL : g.lead (s.nodes i).rf.currentTerm with _ | L
    · rfl
    · obtain ⟨-, j, hj⟩ := h.lead _ L hL
      obtain rfl := hE'.led_unique hled (led_advance.mpr (.inr hj))
      exact absurd hj (hE.fresh i hcand)
  · obtain ⟨-, Q, hQ, hvotes⟩ := hE'.counts.led i _ hled
    refine ⟨Q, hQ, fun v hv => (hvotes v hv).imp_right fun hg => h.vote_of_granted ?_⟩
    rcases granted_advance.mp hg with hnew | hold
    · rw [hsent] at hnew; cases hnew
    · exact hold

/-- One step: every sound step of a server is matched. -/
theorem Shadowed.follows (h : s.Shadowed g) (hE : s.ElectionInv)
    (hE' : (s.advance i net out).ElectionInv) (hin : s.input e = some (i, inp, net))
    (hok : (s.nodes i).Sound inp) (hmove : (s.nodes i).Move inp out) :
    ∃ g', Follows g i out g' := by
  have hnode := h.nodes i
  have hmsg : ∀ p, inp = .recv p → p ∈ s.sent ∧ p.dst = i := by
    rintro p rfl
    obtain ⟨hdst, hperm⟩ := input_recv hin
    exact ⟨hE.votes.flight p (hperm.mem_iff.mp (List.mem_cons_self ..)), hdst⟩
  cases hmove with
  | timeout ticker role =>
    exact ⟨g, hnode.still hnode.peer rfl rfl rfl nofun (fun t ht => .inl ht) (fun m hm => .inl hm)
      (by simp) (by simp) rfl⟩
  | startElection ticker => exact hnode.follows_startElection
  | sendRequestVotes ticker gen => exact hnode.follows_sendRequestVotes ticker gen
  | persistElection ticker =>
    exact ⟨_, hnode.enter le_rfl hnode.peer.save_adopt rfl (fun _ => .inl rfl) rfl nofun
      (fun t ht => ht) (fun m hm => hm) (by simp) rfl (by simp)⟩
  | heartbeat role =>
    refine ⟨g, hnode.spawns fun t ht => ?_⟩
    obtain ⟨j, hj, rfl⟩ := List.mem_map.mp ht
    change j ≠ i
    simpa [Node.others, hE.votes.me i] using hj
  | start role command =>
    refine ⟨g, hnode.spawns fun t ht => ?_⟩
    obtain rfl := List.mem_singleton.mp ht
    exact trivial
  | startRefused role command => exact ⟨g, hnode.sends (by simp)⟩
  | snapshot received handler => exact hnode.follows_snapshot received handler
  | run thread goes => exact hnode.follows_goes thread goes hok.send hok.start hok.apply
  | crash => exact ⟨_, hnode.follows_crash (hE.votes.saved i (hok.crash rfl))⟩
  | @requestVote p _ _ _ _ body handler =>
    obtain ⟨hp, hdst⟩ := hmsg p rfl
    exact hnode.follows_requestVote h.inv (fun T L hL => (h.lead T L hL).1) body hdst (h.sent p hp)
      handler
  | @appendEntries p _ _ _ _ body handler =>
    obtain ⟨hp, hdst⟩ := hmsg p rfl
    exact hnode.follows_appendEntries h.inv body (h.sent p hp) hdst hok.append handler
  | @installSnapshot p args _ _ _ body handler =>
    obtain ⟨hp, hdst⟩ := hmsg p rfl
    have hsaid := h.sent p hp
    refine hnode.follows_installSnapshot body hsaid (fun hrole hterm => ?_) hok.install handler
    -- the sender has led the term too, but it is another server
    have hled := hE.leaders p hp args.term (by rw [Packet.leaderTerm, body]; rfl)
    rw [Says, body] at hsaid
    exact hsaid.1 ((hE.led_unique hled (hterm ▸ hE.led_current hrole)).trans hdst.symm)
  | requestVoteReply body incarnation =>
    refine hnode.follows_requestVoteReply fun hcand hlead => ?_
    refine h.wins hE hE' rfl hcand hlead ?_
    rcases Raft.handleRequestVote_cases (s.nodes i).rf ((s.nodes i).voteCounts.getD _ 0) _ with
      ⟨-, hrf⟩ | ⟨-, hrf⟩ | hrf <;> rw [hrf] at hlead ⊢
    · rfl
    · cases hlead
  | @appendEntriesReply p _ _ _ _ body incarnation handler =>
    obtain ⟨hp, -⟩ := hmsg p rfl
    exact hnode.follows_appendEntriesReply h.inv body (h.sent p hp) hok.ack handler
  | @installSnapshotReply p _ _ body incarnation =>
    obtain ⟨hp, -⟩ := hmsg p rfl
    exact hnode.follows_installSnapshotReply body (h.sent p hp)
  | late incarnation => exact ⟨g, hnode.sends (by simp)⟩

/-- The other servers are still related: of the leader logs only that of the acting server can have
    changed. -/
theorem Shadowed.advance (h : s.Shadowed g) (hE' : (s.advance i net out).ElectionInv)
    (hf : Follows g i out g') : (s.advance i net out).Shadowed g' := by
  have hg := hf.steps.grows
  have hself : out.node.rf.role = .Leader →
      (s.advance i net out).Led i out.node.rf.currentTerm := by
    intro hrole
    have := hE'.led_current (i := i) (by simpa using hrole)
    rwa [advance_nodes_self] at this
  refine ⟨h.reach.trans hf.steps, fun j => ?_, fun p hp => ?_, fun a ha => ?_, fun c hc => ?_,
    fun T L hL => ?_⟩
  · rcases eq_or_ne j i with rfl | hj
    · rw [advance_nodes_self]; exact hf.server
    · have hnode := h.nodes j
      have hcur := hE'.led_current (i := j)
      rw [advance_nodes_of_ne hj] at hcur ⊢
      refine hnode.frame hg (hf.others j hj) fun hrole => ?_
      have hold := hnode.peer.leader hrole
      obtain ⟨L, hL, -⟩ := hg.lead _ _ hold
      rcases hf.lead _ L hL with hL' | ⟨hterm, hlead⟩
      · rw [hL, hL']
      · have hled := hcur hrole
        rw [hterm] at hled
        exact absurd (hE'.led_unique hled (hself hlead)) hj
  · rcases mem_advance_sent.mp hp with hnew | hold
    · exact hf.sent p hnew
    · exact (h.sent p hold).mono hg
  · rcases List.mem_append.mp ha with hnew | hold
    · obtain ⟨m, hm, rfl⟩ := List.mem_map.mp hnew
      exact hf.applied m hm
    · exact (h.applied a hold).mono hg
  · rcases List.mem_append.mp hc with hnew | hold
    · exact hf.started c hnew
    · exact (h.started c hold).mono hg
  · rcases hf.lead T L hL with hold | ⟨rfl, hlead⟩
    · obtain ⟨hpos, j, hj⟩ := h.lead T L hold
      exact ⟨hpos, j, led_advance.mpr (.inr hj)⟩
    · exact ⟨hf.server.peer.pos (by rw [hlead]; simp), i, hself hlead⟩

/-- The replicas at the start. -/
theorem shadowed_init : (init : Cluster n C S).Shadowed (Replicas.init 0) := by
  have hcompacts : ∀ j : Fin n, (Raft.make j ⟨none, none⟩ : Raft n C S).Compacts [] :=
    fun j => ⟨0, ⟨0, none⟩, rfl, le_rfl, rfl, rfl, rfl⟩
  refine ⟨.refl, fun j => ⟨?_, nofun, fun _ ht => absurd ht List.not_mem_nil,
      fun _ hm => absurd hm List.not_mem_nil⟩, fun _ hp => absurd hp List.not_mem_nil,
    fun _ hm => absurd hm List.not_mem_nil, fun _ hc => absurd hc List.not_mem_nil, nofun⟩
  exact ⟨rfl, rfl, le_rfl, fun hr => absurd rfl hr, hcompacts j, le_rfl, le_rfl, .inl rfl,
    hcompacts j, .inl rfl, nofun, nofun, nofun⟩

/-- Refinement: a run of sound steps is matched by a run of the replicated log. -/
theorem exists_shadow (h : Run step (At Node.Sound) init s) :
    s.ElectionInv ∧ ∃ g, s.Shadowed g := by
  refine h.invariant (P := fun s => s.ElectionInv ∧ ∃ g, s.Shadowed g)
    ⟨electionInv_init, _, shadowed_init⟩ ?_
  rintro s s' e ⟨hE, g, hg⟩ hok hstep
  have hE' := electionInv_step hE hok hstep
  obtain ⟨i, inp, net, out, hin, hon, rfl⟩ := step_ok hstep
  obtain ⟨g', hf⟩ := hg.follows hE hE' hin (hok.at_input hin) (Node.on_move hon)
  exact ⟨hE', g', hg.advance hE' hf⟩

end Cluster
end DistLabs
