import DistLabs.Raft.Reduction
import DistLabs.Raft.Votes
import DistLabs.Schemes.Quorum

/-! # Elections: one vote per term, one leader per term

    The vote of a term is kept in every run without crashes. That a term has one leader needs more:
    the goroutines of an election outlive it, and a vote they bring late is counted for whatever
    term the server is a candidate in by then. Where every counted vote is of the current term, each
    leader has a majority of votes of its term, and two majorities share a voter. -/

namespace DistLabs

variable {n : ℕ} {C S : Type}

/-- The step is not a crash. -/
def Node.NoCrash (_ : Node n C S) (inp : Input n C S) : Prop := inp.isCrash = false

instance (nd : Node n C S) (inp : Input n C S) : Decidable (nd.NoCrash inp) :=
  inferInstanceAs (Decidable (_ = _))

/-- Every step is allowed. -/
def Node.Any (_ : Node n C S) (_ : Input n C S) : Prop := True

instance (nd : Node n C S) (inp : Input n C S) : Decidable (nd.Any inp) := .isTrue trivial

/-- The vote reply that reaches the server, with the incarnation that called. -/
def Input.voteReply : Input n C S → Option (ℕ × RequestVoteArgs n × RequestVoteReply)
  | .act _ => none
  | .recv p =>
    match p.body with
    | .requestVoteReply _ args reply => some (p.incarnation, args, reply)
    | _ => none

/-- A vote that is counted is one for the term the server is in. -/
def Node.VoteCurrent (nd : Node n C S) (inp : Input n C S) : Prop :=
  ∀ r ∈ inp.voteReply, r.1 = nd.incarnation → nd.rf.role = .Candidate →
    r.2.2.voteGranted = true → r.2.1.term = nd.rf.currentTerm

instance (nd : Node n C S) (inp : Input n C S) : Decidable (nd.VoteCurrent inp) :=
  inferInstanceAs (Decidable (∀ r ∈ inp.voteReply, _))

/-- Votes are counted in their own term and no crash loses a term or a vote. -/
def Node.VotesSound (nd : Node n C S) (inp : Input n C S) : Prop :=
  nd.VoteCurrent inp ∧ nd.CrashPersisted inp

instance (nd : Node n C S) (inp : Input n C S) : Decidable (nd.VotesSound inp) :=
  inferInstanceAs (Decidable (_ ∧ _))

namespace Cluster

variable {s s' : Cluster n C S}

theorem noCrash_saved (s : Cluster n C S) (e : Event n C S) (h : At Node.NoCrash s e) :
    At Node.CrashPersisted s e :=
  h.mono fun nd inp hno hc => by rw [hno] at hc; cases hc

/-- What history records only grows. -/
theorem history_step {e : Event n C S} (h : s.step e = .ok s') :
    (∀ p ∈ s.sent, p ∈ s'.sent) ∧ (∀ rf ∈ s.past, rf ∈ s'.past) := by
  obtain ⟨i, inp, net, out, -, -, rfl⟩ := step_ok h
  exact ⟨fun p hp => mem_advance_sent.mpr (.inr hp), fun rf hp => mem_advance_past.mpr (.inr hp)⟩

theorem history_run {ok : Cluster n C S → Event n C S → Prop} (h : Run step ok s s') :
    (∀ p ∈ s.sent, p ∈ s'.sent) ∧ (∀ rf ∈ s.past, rf ∈ s'.past) := by
  induction h with
  | refl => exact ⟨fun _ => id, fun _ => id⟩
  | tail _ _ hs ih =>
    have := history_step hs
    exact ⟨fun p hp => this.1 p (ih.1 p hp), fun rf hp => this.2 rf (ih.2 rf hp)⟩

theorem granted_mono (hsub : ∀ p ∈ s.sent, p ∈ s'.sent) {v c : Fin n} {T : ℤ}
    (h : s.Granted v T c) : s'.Granted v T c := by
  obtain ⟨p, hp, hk⟩ := List.mem_filterMap.mp h
  exact List.mem_filterMap.mpr ⟨p, hsub p hp, hk⟩

/-- A vote stays as long as the term does. -/
theorem VoteInv.vote_stays (hv : s.VoteInv) (hv' : s'.VoteInv)
    (hsent : ∀ p ∈ s.sent, p ∈ s'.sent) (hpast : ∀ rf ∈ s.past, rf ∈ s'.past) {v c : Fin n}
    (hvote : (s.nodes v).rf.votedFor = some c)
    (hterm : (s'.nodes v).rf.currentTerm = (s.nodes v).rf.currentTerm) :
    (s'.nodes v).rf.votedFor = some c := by
  rcases hv.backed v c hvote with ⟨rfl, rf, hrf, h⟩ | hg
  · refine hv'.stood c ?_
    rw [hterm]; exact ⟨rf, hpast rf hrf, h⟩
  · exact (hv'.granted v _ c (granted_mono hsent hg)).2.2.2 hterm.symm

/-- One vote per term: along every run without crashes the terms do not decrease, a vote is not
    changed or taken back while the term stays, a server grants its vote to at most one candidate a
    term and to none in a term it was a candidate in, and candidates and leaders have voted for
    themselves. -/
theorem one_vote_per_term (h : Run step (At Node.NoCrash) init s)
    (h' : Run step (At Node.NoCrash) s s') :
    (∀ i, (s.nodes i).rf.currentTerm ≤ (s'.nodes i).rf.currentTerm) ∧
    (∀ v c, (s.nodes v).rf.votedFor = some c →
      (s'.nodes v).rf.currentTerm = (s.nodes v).rf.currentTerm →
      (s'.nodes v).rf.votedFor = some c) ∧
    (∀ v T c c', s'.Granted v T c → s'.Granted v T c' → c = c') ∧
    (∀ v T c, s'.Granted v T c → ¬ s'.Stood v T) ∧
    (∀ i, (s'.nodes i).rf.role ≠ .Follower → (s'.nodes i).rf.votedFor = some i) := by
  have hv : s.VoteInv := voteInv_run noCrash_saved h voteInv_init
  have hv' : s'.VoteInv := voteInv_run noCrash_saved h' hv
  obtain ⟨hsent, hpast⟩ := history_run h'
  refine ⟨fun i => ?_, fun v c hvote hterm => hv.vote_stays hv' hsent hpast hvote hterm,
    hv'.unique, hv'.excl, hv'.self⟩
  have := hv'.past _ (hpast _ (hv.current i))
  rwa [hv.me i] at this

/-- Three servers: server 0 stands for election in term 1 and has the vote of server 1. -/
def firstVote [NeZero n] : List (Event n ℕ Unit) :=
  [.act 0 .timeout, .act 0 .startElection, .act 0 .sendRequestVotes, .act 0 .persistElection,
    .deliver 0]

/-- It then wins, while server 2 stands in term 1 itself and asks server 1. -/
def firstLeader [NeZero n] : List (Event n ℕ Unit) :=
  [.deliver 1, .act 2 .timeout, .act 2 .startElection, .act 2 .sendRequestVotes, .deliver 2]

theorem one_vote_per_term_first_leader : ∃ s s' : Cluster 3 ℕ Unit,
    Run step (At Node.NoCrash) init s ∧ Run step (At Node.NoCrash) s s' ∧
    (s.nodes 1).rf.votedFor = some 0 ∧ (s'.nodes 1).rf.currentTerm = 1 ∧
    (s'.nodes 0).rf.role = .Leader ∧ (s'.nodes 1).rf.votedFor = some 0 ∧
    (∀ c, s'.Granted 1 1 c → c = 0) ∧ ∀ c, ¬ s'.Granted 0 1 c := by
  obtain ⟨s, hs, hvote, hcur, hplay⟩ := exists_run_of_play step (At Node.NoCrash) init firstVote
    (fun s : Cluster 3 ℕ Unit => (s.nodes 1).rf.votedFor = some 0 ∧
      (s.nodes 1).rf.currentTerm = 1 ∧ (play step (At Node.NoCrash) s firstLeader).map
        (fun s' => decide ((s'.nodes 1).rf.currentTerm = 1 ∧ (s'.nodes 0).rf.role = .Leader ∧
          s'.Granted 1 1 0 ∧ s'.Stood 0 1)) = some true) (by decide)
  obtain ⟨s', hs', hterm, hrole, hg, hst⟩ := exists_run_of_play _ _ _ _ _ hplay
  obtain ⟨-, hstay, hone, hnone, -⟩ := one_vote_per_term hs hs'
  exact ⟨s, s', hs, hs', hvote, hterm, hrole, hstay 1 0 hvote (hterm.trans hcur.symm),
    fun c hc => hone 1 1 c 0 hc hg, fun c hc => hnone 0 1 c hc hst⟩

/-! ### Counting votes -/

/-- The RPC a vote message belongs to: caller, incarnation of the caller, election, callee. -/
def callKey (p : Packet n C S) : Option (Fin n × ℕ × ℕ × Fin n) :=
  match p.body with
  | .requestVote e _ => some (p.src, p.incarnation, e, p.dst)
  | .requestVoteReply e _ _ => some (p.dst, p.incarnation, e, p.src)
  | _ => none

/-- The term a vote message asks about. -/
def callTerm (p : Packet n C S) : Option ℤ :=
  match p.body with
  | .requestVote _ args => some args.term
  | .requestVoteReply _ args _ => some args.term
  | _ => none

/-- Server `i` was leader in term `T`. -/
def Led (s : Cluster n C S) (i : Fin n) (T : ℤ) : Prop :=
  ∃ rf ∈ s.past, rf.me = i ∧ rf.role = .Leader ∧ rf.currentTerm = T

/-- `i` has stood in term `T` and a majority, itself included, has given it its vote. -/
def Elected (s : Cluster n C S) (i : Fin n) (T : ℤ) : Prop :=
  s.Stood i T ∧ ∃ A : Finset (Fin n), Majority A ∧ ∀ w ∈ A, w = i ∨ s.Granted w T i

/-- The voters `W` are the ones election `e` of server `i` has counted, all in term `T`; what is
    still in flight for the election is about the same term and comes from others. -/
def CountedBy (s : Cluster n C S) (i : Fin n) (e k : ℕ) (T : ℤ) (W : Finset (Fin n)) : Prop :=
  k = W.card + 1 ∧ i ∉ W ∧ (∀ w ∈ W, s.Granted w T i) ∧
    ∀ p ∈ s.net, ∀ v, callKey p = some (i, (s.nodes i).incarnation, e, v) →
      callTerm p = some T ∧ v ∉ W

/-- The invariant of the vote counts. -/
structure CountInv (s : Cluster n C S) : Prop where
  nodup : (s.net.filterMap callKey).Nodup
  fresh : ∀ p ∈ s.net, ∀ c inc e v, callKey p = some (c, inc, e, v) →
    inc ≤ (s.nodes c).incarnation ∧ v ≠ c ∧
      (inc = (s.nodes c).incarnation → e < (s.nodes c).voteCounts.length)
  counted : ∀ i e k, (s.nodes i).voteCounts[e]? = some k → ∃ T W, s.CountedBy i e k T W
  led : ∀ i T, s.Led i T → s.Elected i T

theorem countInv_init : CountInv (init : Cluster n C S) := by
  refine ⟨?_, ?_, ?_, ?_⟩ <;>
    simp [init, Node.boot, Raft.make, Raft.readPersist, Raft.readSnapshotPersist, Led]

variable {i : Fin n} {net : List (Packet n C S)} {out : Out n C S}

theorem led_advance {j : Fin n} {T : ℤ} : (s.advance i net out).Led j T ↔
    (out.node.rf.me = j ∧ out.node.rf.role = .Leader ∧ out.node.rf.currentTerm = T) ∨
      s.Led j T := by
  simp only [Led, mem_advance_past, or_and_right, exists_or, exists_eq_left]

theorem Elected.advance {j : Fin n} {T : ℤ} (h : s.Elected j T) :
    (s.advance i net out).Elected j T := by
  obtain ⟨hst, A, hA, hg⟩ := h
  exact ⟨stood_advance.mpr (.inr hst), A, hA, fun w hw =>
    (hg w hw).imp_right fun h => granted_advance.mpr (.inr h)⟩

theorem callKey_of_not_isVote {p : Packet n C S} (h : p.isVote = false) : callKey p = none := by
  rcases p with ⟨src, dst, inc, body⟩
  cases body <;> simp_all [Packet.isVote, callKey]

/-- The counts of the other servers, and of the acting one where it keeps them, stay justified as
    long as no message of an old election appears that was not there before. -/
theorem CountedBy.advance {j : Fin n} {e k : ℕ} {T : ℤ} {W : Finset (Fin n)}
    (h : s.CountedBy j e k T W)
    (hinc : ((s.advance i net out).nodes j).incarnation = (s.nodes j).incarnation)
    (hnet : ∀ p, p ∈ net ∨ p ∈ out.sent → ∀ v, callKey p = some (j, (s.nodes j).incarnation, e, v) →
      ∃ q ∈ s.net, callKey q = callKey p ∧ callTerm q = callTerm p) :
    (s.advance i net out).CountedBy j e k T W := by
  obtain ⟨hk, hj, hg, hp⟩ := h
  refine ⟨hk, hj, fun w hw => granted_advance.mpr (.inr (hg w hw)), fun p hmem v hkey => ?_⟩
  rw [hinc] at hkey
  obtain ⟨q, hq, hqk, hqt⟩ := hnet p (mem_advance_net.mp hmem) v hkey
  exact hqt ▸ hp q hq v (hqk.trans hkey)

/-- What the acting server owes to the invariant of the counts. -/
structure CountStep (s : Cluster n C S) (i : Fin n) (net : List (Packet n C S))
    (out : Out n C S) : Prop where
  me : out.node.rf.me = i
  nodup : ((net ++ out.sent).filterMap callKey).Nodup
  incarnation : (s.nodes i).incarnation ≤ out.node.incarnation
  length : out.node.incarnation = (s.nodes i).incarnation →
    (s.nodes i).voteCounts.length ≤ out.node.voteCounts.length
  sent : ∀ p ∈ out.sent, ∀ c inc e v, callKey p = some (c, inc, e, v) →
    (∃ q ∈ s.net, callKey q = callKey p ∧ callTerm q = callTerm p) ∨
      (c = i ∧ v ≠ i ∧ inc = out.node.incarnation ∧ e < out.node.voteCounts.length)
  counted : ∀ e k, out.node.voteCounts[e]? = some k →
    ∃ T W, (s.advance i net out).CountedBy i e k T W
  led : out.node.rf.role = .Leader → (s.advance i net out).Elected i out.node.rf.currentTerm

theorem CountInv.advance (hc : s.CountInv) (hnet : net.Sublist s.net) (h : CountStep s i net out) :
    (s.advance i net out).CountInv := by
  have hinc : ∀ j, (s.nodes j).incarnation ≤ ((s.advance i net out).nodes j).incarnation := by
    intro j
    rcases eq_or_ne j i with rfl | hne
    · rw [advance_nodes_self]; exact h.incarnation
    · rw [advance_nodes_of_ne hne]
  have hlen : ∀ j, ((s.advance i net out).nodes j).incarnation = (s.nodes j).incarnation →
      (s.nodes j).voteCounts.length ≤ ((s.advance i net out).nodes j).voteCounts.length := by
    intro j
    rcases eq_or_ne j i with rfl | hne
    · rw [advance_nodes_self]; exact h.length
    · rw [advance_nodes_of_ne hne]; exact fun _ => le_rfl
  -- a message of an RPC that was in flight before is as fresh as that one
  have hold : ∀ q ∈ s.net, ∀ c inc e v, callKey q = some (c, inc, e, v) →
      inc ≤ ((s.advance i net out).nodes c).incarnation ∧ v ≠ c ∧
        (inc = ((s.advance i net out).nodes c).incarnation →
          e < ((s.advance i net out).nodes c).voteCounts.length) := by
    intro q hq c inc e v hk
    obtain ⟨h1, h2, h3⟩ := hc.fresh q hq c inc e v hk
    refine ⟨h1.trans (hinc c), h2, fun heq => ?_⟩
    have hsame : ((s.advance i net out).nodes c).incarnation = (s.nodes c).incarnation :=
      le_antisymm (heq ▸ h1) (hinc c)
    exact (h3 (heq.trans hsame)).trans_le (hlen c hsame)
  refine ⟨?_, fun p hp c inc e v hk => ?_, fun j e k hk => ?_, fun j T hl => ?_⟩
  · exact h.nodup
  · rcases mem_advance_net.mp hp with hp | hp
    · exact hold p (hnet.subset hp) c inc e v hk
    · rcases h.sent p hp c inc e v hk with ⟨q, hq, hqk, -⟩ | ⟨rfl, hv, rfl, he⟩
      · exact hold q hq c inc e v (hqk.trans hk)
      · rw [advance_nodes_self]; exact ⟨le_rfl, hv, fun _ => he⟩
  · rcases eq_or_ne j i with rfl | hne
    · rw [advance_nodes_self] at hk; exact h.counted e k hk
    · rw [advance_nodes_of_ne hne] at hk
      obtain ⟨T, W, hW⟩ := hc.counted j e k hk
      refine ⟨T, W, hW.advance (by rw [advance_nodes_of_ne hne]) fun p hp v hkey => ?_⟩
      rcases hp with hp | hp
      · exact ⟨p, hnet.subset hp, rfl, rfl⟩
      · exact (h.sent p hp _ _ _ _ hkey).resolve_right fun hr => hne hr.1
  · rcases led_advance.mp hl with ⟨rfl, hr, rfl⟩ | hl
    · rw [h.me]; exact h.led hr
    · exact (hc.led j T hl).advance

/-- A step that neither counts a vote nor sends a vote message. -/
theorem CountInv.countStep_quiet (hc : s.CountInv) (hv : s.VoteInv) (hnet : net.Sublist s.net)
    (hme : out.node.rf.me = i) (hinc : out.node.incarnation = (s.nodes i).incarnation)
    (hcounts : out.node.voteCounts = (s.nodes i).voteCounts)
    (hrole : out.node.rf.role = .Leader → (s.nodes i).rf.role = .Leader ∧
      out.node.rf.currentTerm = (s.nodes i).rf.currentTerm)
    (hsent : ∀ p ∈ out.sent, callKey p = none) : CountStep s i net out := by
  refine ⟨hme, ?_, hinc.ge, fun _ => by rw [hcounts], fun p hp c inc e v hk => ?_,
    fun e k hk => ?_, fun hr => ?_⟩
  · rw [List.filterMap_append, List.filterMap_eq_nil_iff.mpr hsent, List.append_nil]
    exact hc.nodup.sublist (hnet.filterMap _)
  · rw [hsent p hp] at hk; cases hk
  · rw [hcounts] at hk
    obtain ⟨T, W, hW⟩ := hc.counted i e k hk
    refine ⟨T, W, hW.advance (by rw [advance_nodes_self, hinc]) fun p hp v hkey => ?_⟩
    rcases hp with hp | hp
    · exact ⟨p, hnet.subset hp, rfl, rfl⟩
    · rw [hsent p hp] at hkey; cases hkey
  · obtain ⟨hlead, hterm⟩ := hrole hr
    rw [hterm]
    exact (hc.led i _ ⟨_, hv.current i, hv.me i, hlead, rfl⟩).advance

theorem CountInv.countStep_send (hc : s.CountInv) (hv : s.VoteInv) {args : RequestVoteArgs n} :
    CountStep s i s.net
      { node := { s.nodes i with
          ticker := .persisting, voteCounts := (s.nodes i).voteCounts ++ [1] }
        sent := (s.nodes i).others.map fun j =>
          (s.nodes i).packet j (.requestVote (s.nodes i).voteCounts.length args) } := by
  have hkeys : ((s.nodes i).others.map fun j => (s.nodes i).packet j
      (.requestVote (s.nodes i).voteCounts.length args)).filterMap callKey
      = (s.nodes i).others.map fun j =>
        (i, (s.nodes i).incarnation, (s.nodes i).voteCounts.length, j) := by
    simp [List.filterMap_map, Function.comp_def, callKey, Node.packet, hv.me i]
  -- the new election has no message in flight yet
  have hnew : ∀ p ∈ s.net, ∀ v, callKey p ≠
      some (i, (s.nodes i).incarnation, (s.nodes i).voteCounts.length, v) := fun p hp v hk =>
    lt_irrefl _ ((hc.fresh p hp _ _ _ _ hk).2.2 rfl)
  refine ⟨hv.me i, ?_, le_rfl, fun _ => by simp, fun p hp c inc e v hk => .inr ?_,
    fun e k hk => ?_, fun hr => ?_⟩
  · dsimp only
    rw [List.filterMap_append, hkeys]
    refine List.Nodup.append hc.nodup ?_ fun key hk hk' => ?_
    · exact ((List.nodup_finRange n).filter _).map fun a b hab => by simpa using hab
    · obtain ⟨p, hp, hpk⟩ := List.mem_filterMap.mp hk
      obtain ⟨j, -, rfl⟩ := List.mem_map.mp hk'
      exact hnew p hp j hpk
  · obtain ⟨j, hj, rfl⟩ := List.mem_map.mp hp
    have hji : j ≠ i := by simpa [Node.others, hv.me i] using hj
    simp only [callKey, Node.packet, hv.me i, Option.some.injEq, Prod.mk.injEq] at hk
    obtain ⟨rfl, rfl, rfl, rfl⟩ := hk
    exact ⟨rfl, hji, rfl, by simp⟩
  · rcases Nat.lt_or_ge e (s.nodes i).voteCounts.length with he | he
    · rw [List.getElem?_append_left he] at hk
      obtain ⟨T, W, hW⟩ := hc.counted i e k hk
      refine ⟨T, W, hW.advance (by rw [advance_nodes_self]) fun p hp v hkey => ?_⟩
      rcases hp with hp | hp
      · exact ⟨p, hp, rfl, rfl⟩
      · obtain ⟨j, -, rfl⟩ := List.mem_map.mp hp
        simp only [callKey, Node.packet, Option.some.injEq, Prod.mk.injEq] at hkey
        omega
    · rw [List.getElem?_append_right he] at hk
      obtain ⟨hz, rfl⟩ : e - (s.nodes i).voteCounts.length = 0 ∧ 1 = k := by
        cases hd : e - (s.nodes i).voteCounts.length with
        | zero => rw [hd] at hk; exact ⟨rfl, by simpa using hk⟩
        | succ m => rw [hd] at hk; simp at hk
      obtain rfl : e = (s.nodes i).voteCounts.length := by omega
      refine ⟨args.term, ∅, rfl, by simp, by simp, fun p hp v hkey => ⟨?_, by simp⟩⟩
      rw [advance_nodes_self] at hkey
      rcases mem_advance_net.mp hp with hp | hp
      · exact absurd hkey (hnew p hp v)
      · obtain ⟨j, -, rfl⟩ := List.mem_map.mp hp
        rfl
  · exact (hc.led i _ ⟨_, hv.current i, hv.me i, hr, rfl⟩).advance

/-- The RequestVote handler answers under the same RPC. -/
theorem CountInv.countStep_vote (hc : s.CountInv) (hv : s.VoteInv) {p : Packet n C S} {e : ℕ}
    {args : RequestVoteArgs n} {rf' : Raft n C S} {reply : RequestVoteReply}
    (hb : p.body = .requestVote e args) (hp : (p :: net).Perm s.net)
    (hh : (s.nodes p.dst).rf.requestVote args = some (rf', reply)) :
    CountStep s p.dst net
      { node := { s.nodes p.dst with rf := rf' }
        sent := [⟨p.dst, p.src, p.incarnation, .requestVoteReply e args reply⟩] } := by
  have hkey : callKey p = some (p.src, p.incarnation, e, p.dst) := by rw [callKey, hb]
  have hmem : p ∈ s.net := hp.subset (List.mem_cons_self ..)
  have hsame : ∀ q ∈ [(⟨p.dst, p.src, p.incarnation, .requestVoteReply e args reply⟩ :
      Packet n C S)], ∃ q' ∈ s.net, callKey q' = callKey q ∧ callTerm q' = callTerm q := by
    intro q hq
    obtain rfl := List.mem_singleton.mp hq
    exact ⟨p, hmem, hkey, by rw [callTerm, hb]; rfl⟩
  have hrole : rf'.me = p.dst ∧ (rf'.role = .Leader → (s.nodes p.dst).rf.role = .Leader ∧
      rf'.currentTerm = (s.nodes p.dst).rf.currentTerm) := by
    rcases Raft.requestVote_cases hh with ⟨-, rfl, -⟩ | ⟨hle, -, b, -, rfl, -⟩
    · exact ⟨hv.me p.dst, fun h => ⟨h, rfl⟩⟩
    · refine ⟨by simp [hv.me p.dst], fun h => ?_⟩
      rcases hle.lt_or_eq with hlt | heq
      · simp [Raft.meet, hlt] at h
      · simpa [Raft.meet, heq] using h
  refine ⟨hrole.1, ?_, le_rfl, fun _ => le_rfl, fun q hq c inc e v _ => .inl (hsame q hq),
    fun e' k hk => ?_, fun hr => ?_⟩
  · have hperm : ((net ++ [(⟨p.dst, p.src, p.incarnation, .requestVoteReply e args reply⟩ :
        Packet n C S)]).filterMap callKey).Perm (s.net.filterMap callKey) := by
      refine List.Perm.trans ?_ (hp.filterMap callKey)
      rw [List.filterMap_append, List.filterMap_cons_some hkey]
      exact List.perm_append_singleton ..
    exact hperm.nodup_iff.mpr hc.nodup
  · obtain ⟨T, W, hW⟩ := hc.counted p.dst e' k hk
    refine ⟨T, W, hW.advance (by rw [advance_nodes_self]) fun q hq v _ => ?_⟩
    rcases hq with hq | hq
    · exact ⟨q, hp.subset (List.mem_cons_of_mem _ hq), rfl, rfl⟩
    · exact hsame q hq
  · obtain ⟨hlead, hterm⟩ := hrole.2 hr
    dsimp only
    rw [hterm]
    exact (hc.led _ _ ⟨_, hv.current p.dst, hv.me p.dst, hlead, rfl⟩).advance

/-- A counted vote adds a new voter of the election's term. -/
theorem CountInv.counted_recv (hc : s.CountInv) (hv : s.VoteInv) {p : Packet n C S} {e : ℕ}
    {args : RequestVoteArgs n} {reply : RequestVoteReply}
    (hb : p.body = .requestVoteReply e args reply) (hp : (p :: net).Perm s.net)
    (hinc : p.incarnation = (s.nodes p.dst).incarnation) :
    ∃ (k : ℕ) (W : Finset (Fin n)),
      (s.nodes p.dst).voteCounts[e]? = some k ∧ k = W.card + 1 ∧ p.dst ∉ W ∧
      p.src ∉ W ∧ p.src ≠ p.dst ∧ (∀ w ∈ W, s.Granted w args.term p.dst) ∧
      (reply.voteGranted = true → s.Granted p.src args.term p.dst) ∧
      ∀ q ∈ net, ∀ v, callKey q = some (p.dst, (s.nodes p.dst).incarnation, e, v) →
        callTerm q = some args.term ∧ v ∉ W ∧ v ≠ p.src := by
  have hkey : callKey p = some (p.dst, (s.nodes p.dst).incarnation, e, p.src) := by
    rw [callKey, hb, hinc]
  have hmem : p ∈ s.net := hp.subset (List.mem_cons_self ..)
  obtain ⟨-, hne, he⟩ := hc.fresh p hmem _ _ _ _ hkey
  obtain ⟨k, hk⟩ : ∃ k, (s.nodes p.dst).voteCounts[e]? = some k :=
    ⟨_, List.getElem?_eq_getElem (he rfl)⟩
  obtain ⟨T, W, hcard, hi, hg, hnet⟩ := hc.counted p.dst e k hk
  obtain ⟨hT, hsrc⟩ := hnet p hmem p.src hkey
  obtain rfl : args.term = T := by simpa [callTerm, hb] using hT
  have hnd := (hp.filterMap callKey).nodup_iff.mpr hc.nodup
  rw [List.filterMap_cons_some hkey, List.nodup_cons] at hnd
  refine ⟨k, W, hk, hcard, hi, hsrc, hne, hg, fun hr => ?_, fun q hq v hqk => ?_⟩
  · exact List.mem_filterMap.mpr ⟨p, hv.flight p hmem, by simp [Packet.grantKey, hb, hr]⟩
  · obtain ⟨h1, h2⟩ := hnet q (hp.subset (List.mem_cons_of_mem _ hq)) v hqk
    refine ⟨h1, h2, ?_⟩
    rintro rfl
    exact hnd.1 (List.mem_filterMap.mpr ⟨q, hq, hqk⟩)

/-- The voters of an election after `handleRequestVote` has counted a reply of it: the handler
    leaves a leader only where there was one, or where the voters are a majority of the candidate's
    term. -/
theorem CountInv.counted_handleRequestVote (hc : s.CountInv) (hv : s.VoteInv) {p : Packet n C S}
    {e : ℕ} {args : RequestVoteArgs n} {reply : RequestVoteReply}
    (hb : p.body = .requestVoteReply e args reply) (hp : (p :: net).Perm s.net)
    (hinc : p.incarnation = (s.nodes p.dst).incarnation)
    (hok : (s.nodes p.dst).VoteCurrent (.recv p)) :
    ∃ (k : ℕ) (W : Finset (Fin n)), (s.nodes p.dst).voteCounts[e]? = some k ∧
      ((s.nodes p.dst).rf.handleRequestVote k reply).2 = W.card + 1 ∧ p.dst ∉ W ∧
      (∀ w ∈ W, s.Granted w args.term p.dst) ∧
      (∀ q ∈ net, ∀ v, callKey q = some (p.dst, (s.nodes p.dst).incarnation, e, v) →
        callTerm q = some args.term ∧ v ∉ W) ∧
      (((s.nodes p.dst).rf.handleRequestVote k reply).1.role = .Leader →
        ((s.nodes p.dst).rf.handleRequestVote k reply).1.currentTerm
            = (s.nodes p.dst).rf.currentTerm ∧
          ((s.nodes p.dst).rf.role = .Leader ∨
            (s.nodes p.dst).rf.role = .Candidate ∧ n / 2 < W.card + 1 ∧
              args.term = (s.nodes p.dst).rf.currentTerm)) := by
  obtain ⟨k, W, hk, hcard, hi, hsrc, hne, hg, hgrant, hflight⟩ := hc.counted_recv hv hb hp hinc
  unfold Raft.handleRequestVote
  by_cases hcand : (s.nodes p.dst).rf.role = .Candidate ∧ reply.voteGranted = true
  · have hins : (insert p.src W).card = W.card + 1 := Finset.card_insert_of_notMem hsrc
    have hterm : args.term = (s.nodes p.dst).rf.currentTerm :=
      hok (p.incarnation, args, reply) (by simp [Input.voteReply, hb]) hinc hcand.1 hcand.2
    simp only [if_pos hcand]
    refine ⟨k, insert p.src W, hk, by split <;> simp [hins, hcard], by simp [hi, hne.symm], ?_, ?_,
      ?_⟩
    · intro w hw
      rcases Finset.mem_insert.mp hw with rfl | hw
      · exact hgrant hcand.2
      · exact hg w hw
    · intro q hq v hqk
      obtain ⟨h1, h2, h3⟩ := hflight q hq v hqk
      exact ⟨h1, by simp [h2, h3]⟩
    · split
      · rename_i hmaj
        exact fun _ => ⟨rfl, .inr ⟨hcand.1, by omega, hterm⟩⟩
      · exact fun hr => ⟨rfl, .inl hr⟩
  · simp only [if_neg hcand]
    refine ⟨k, W, hk, by split <;> simp [hcard], hi, hg, fun q hq v hqk => ?_, ?_⟩
    · obtain ⟨h1, h2, -⟩ := hflight q hq v hqk
      exact ⟨h1, h2⟩
    · split
      · intro hr; cases hr
      · exact fun hr => ⟨rfl, .inl hr⟩

theorem CountInv.countStep_count (hc : s.CountInv) (hv : s.VoteInv) {p : Packet n C S} {e : ℕ}
    {args : RequestVoteArgs n} {reply : RequestVoteReply}
    (hb : p.body = .requestVoteReply e args reply) (hp : (p :: net).Perm s.net)
    (hnet : net.Sublist s.net) (hinc : p.incarnation = (s.nodes p.dst).incarnation)
    (hok : (s.nodes p.dst).VoteCurrent (.recv p)) :
    CountStep s p.dst net
      { node := { s.nodes p.dst with
          rf := ((s.nodes p.dst).rf.handleRequestVote
            ((s.nodes p.dst).voteCounts.getD e 0) reply).1
          voteCounts := (s.nodes p.dst).voteCounts.set e
            ((s.nodes p.dst).rf.handleRequestVote
              ((s.nodes p.dst).voteCounts.getD e 0) reply).2 } } := by
  obtain ⟨k, W, hk, hcard, hi, hg, hflight, hlead⟩ :=
    hc.counted_handleRequestVote hv hb hp hinc hok
  have hlt : e < (s.nodes p.dst).voteCounts.length := (List.getElem?_eq_some_iff.mp hk).1
  have hgetD : (s.nodes p.dst).voteCounts.getD e 0 = k := by
    rw [List.getD_eq_getElem?_getD, hk]; rfl
  rw [hgetD]
  refine ⟨(Raft.keeps_handleRequestVote ..).1.trans (hv.me p.dst), ?_, le_rfl, fun _ => by simp,
    by simp, fun e' k' hk' => ?_, fun hr => ?_⟩
  · simpa using hc.nodup.sublist (hnet.filterMap callKey)
  · rcases eq_or_ne e' e with rfl | hne'
    · simp only [List.getElem?_set_self hlt, Option.some.injEq] at hk'
      refine ⟨args.term, W, hk'.symm.trans hcard, hi,
        fun w hw => granted_advance.mpr (.inr (hg w hw)), fun q hq v hqk => ?_⟩
      rw [advance_nodes_self] at hqk
      exact hflight q (by simpa using hq) v hqk
    · simp only [List.getElem?_set_ne hne'.symm] at hk'
      obtain ⟨T, W₂, hW₂⟩ := hc.counted p.dst e' k' hk'
      refine ⟨T, W₂, hW₂.advance (by rw [advance_nodes_self]) fun q hq v _ => ?_⟩
      exact ⟨q, hnet.subset (by simpa using hq), rfl, rfl⟩
  · obtain ⟨hterm, hwas⟩ := hlead hr
    dsimp only
    rw [hterm]
    rcases hwas with hlead | ⟨hcand, hmaj, hargs⟩
    · exact (hc.led _ _ ⟨_, hv.current p.dst, hv.me p.dst, hlead, rfl⟩).advance
    · have hel : s.Elected p.dst (s.nodes p.dst).rf.currentTerm := by
        refine ⟨⟨_, hv.current p.dst, hv.me p.dst, hcand, rfl⟩, insert p.dst W, ?_, fun w hw =>
          (Finset.mem_insert.mp hw).imp_right fun hw => hargs ▸ hg w hw⟩
        rw [Majority, Finset.card_insert_of_notMem hi, Fintype.card_fin]
        exact hmaj
      exact hel.advance

theorem CountInv.countStep_crash (hc : s.CountInv) (hv : s.VoteInv) (hnet : net.Sublist s.net) :
    CountStep s i net { node := (s.nodes i).restart } := by
  refine ⟨?_, ?_, ?_, ?_, by simp, ?_, fun hr => ?_⟩
  · exact (Raft.make_me ..).trans (hv.me i)
  · simpa using hc.nodup.sublist (hnet.filterMap callKey)
  · simp [Node.restart]
  · simp [Node.restart]
  · simp [Node.restart]
  · simp only [Node.restart, Raft.make_role] at hr; cases hr

theorem countInv_step {e : Event n C S} (hv : s.VoteInv) (hc : s.CountInv)
    (hok : At Node.VoteCurrent s e) (h : s.step e = .ok s') : s'.CountInv := by
  obtain ⟨i, inp, net, out, hin, hon, rfl⟩ := step_ok h
  have hnet := input_sublist hin
  refine hc.advance hnet ?_
  cases Node.on_ballot hon with
  | quiet hrf hinc hvc htick hsent hrecv =>
    refine hc.countStep_quiet hv hnet (hrf.1.trans (hv.me i)) hinc hvc (fun hr => ?_)
      fun p hp => callKey_of_not_isVote (hsent p hp)
    rcases hrf.2 with ⟨ht, -, hr' | hr'⟩ | ⟨-, -, hr'⟩
    · exact ⟨hr'.symm.trans hr, ht⟩
    · rw [hr'] at hr; cases hr
    · rw [hr'] at hr; cases hr
  | start htick =>
    exact hc.countStep_quiet hv hnet (hv.me i) rfl rfl nofun (by simp)
  | send htick hargs => rw [input_act hin]; exact hc.countStep_send hv
  | vote hb hh =>
    obtain ⟨rfl, hp⟩ := input_recv hin
    exact hc.countStep_vote hv hb hp hh
  | count hb hinc =>
    obtain ⟨rfl, hp⟩ := input_recv hin
    exact hc.countStep_count hv hb hp hnet hinc (hok.at_input hin)
  | late hinc =>
    exact hc.countStep_quiet hv hnet (hv.me i) rfl rfl (fun hr => ⟨hr, rfl⟩) (by simp)
  | crash => exact hc.countStep_crash hv hnet

/-! ### Candidates -/

/-- A candidate has not led the term it stands in. -/
def CandidatesFresh (s : Cluster n C S) : Prop :=
  ∀ i, (s.nodes i).rf.role = .Candidate → ¬ s.Led i (s.nodes i).rf.currentTerm

/-- Who is a candidate was one in the same term, or stands in a larger one. -/
theorem candidate_cases {nd : Node n C S} {inp : Input n C S} (h : nd.Ballot inp out)
    (hr : out.node.rf.role = .Candidate) :
    nd.rf.role = .Candidate ∧ out.node.rf.currentTerm = nd.rf.currentTerm ∨
      nd.rf.currentTerm < out.node.rf.currentTerm := by
  cases h with
  | quiet hrf =>
    obtain ⟨-, ⟨ht, -, hr' | hr'⟩ | ⟨ht, -⟩⟩ := hrf
    · exact .inl ⟨hr'.symm.trans hr, ht⟩
    · rw [hr'] at hr; cases hr
    · exact .inr ht
  | start htick => exact .inr (by simp [Raft.startElection])
  | send htick hargs => exact .inl ⟨hr, rfl⟩
  | vote hb hh =>
    rcases Raft.requestVote_cases hh with ⟨-, rfl, -⟩ | ⟨hle, -, b, -, rfl, -⟩
    · exact .inl ⟨hr, rfl⟩
    · rcases hle.lt_or_eq with hlt | heq
      · simp [Raft.meet, hlt] at hr
      · simp only [Raft.persist_role, Raft.meet, heq, lt_irrefl, if_false] at hr
        exact .inl ⟨hr, by simp [Raft.meet, heq]⟩
  | @count p e args reply hb hinc =>
    rcases Raft.handleRequestVote_cases nd.rf (nd.voteCounts.getD e 0) reply with
      ⟨-, hrf⟩ | ⟨-, hrf⟩ | hrf <;> rw [hrf] at hr ⊢
    · cases hr
    · cases hr
    · exact .inl ⟨hr, rfl⟩
  | late hinc => exact .inl ⟨hr, rfl⟩
  | crash =>
    simp only [Node.restart, Raft.make_role] at hr
    cases hr

theorem candidatesFresh_step {e : Event n C S} (hv : s.VoteInv) (hv' : s'.VoteInv)
    (hf : s.CandidatesFresh) (h : s.step e = .ok s') : s'.CandidatesFresh := by
  obtain ⟨i, inp, net, out, -, hon, rfl⟩ := step_ok h
  have hme : out.node.rf.me = i := by simpa using hv'.me i
  intro j hr hled
  rcases eq_or_ne j i with rfl | hne
  · rw [advance_nodes_self] at hr hled
    rcases led_advance.mp hled with ⟨-, hlead, -⟩ | ⟨rf, hrf, rfl, hlead, hterm⟩
    · rw [hlead] at hr; cases hr
    · have hle := hv.past rf hrf
      rcases candidate_cases (Node.on_ballot hon) hr with ⟨hc, heq⟩ | hlt
      · exact hf _ hc ⟨rf, hrf, rfl, hlead, hterm.trans heq⟩
      · omega
  · rw [advance_nodes_of_ne hne] at hr hled
    rcases led_advance.mp hled with ⟨hj, -⟩ | hold
    · exact hne (hj.symm.trans hme)
    · exact hf j hr hold

/-- Two servers elected in one term are the same: their majorities share a voter. -/
theorem VoteInv.elected_unique (hv : s.VoteInv) {j : Fin n} {T : ℤ} (hi : s.Elected i T)
    (hj : s.Elected j T) : i = j := by
  obtain ⟨hsi, A, hA, hgi⟩ := hi
  obtain ⟨hsj, B, hB, hgj⟩ := hj
  obtain ⟨w, hwA, hwB⟩ := hA.exists_common hB
  rcases hgi w hwA with rfl | hgi <;> rcases hgj w hwB with rfl | hgj
  · rfl
  · exact absurd hsi (hv.excl _ _ _ hgj)
  · exact absurd hsj (hv.excl _ _ _ hgi)
  · exact hv.unique _ _ _ _ hgi hgj

theorem countInv_run {ok : Cluster n C S → Event n C S → Prop}
    (hsaved : ∀ s e, ok s e → At Node.CrashPersisted s e)
    (hcur : ∀ s e, ok s e → At Node.VoteCurrent s e) (h : Run step ok s s') (hv : s.VoteInv)
    (hc : s.CountInv) : s'.VoteInv ∧ s'.CountInv :=
  h.invariant (P := fun s => s.VoteInv ∧ s.CountInv) ⟨hv, hc⟩ fun _ _ _ hs hok hstep =>
    ⟨voteInv_step hs.1 (hsaved _ _ hok) hstep, countInv_step hs.1 hs.2 (hcur _ _ hok) hstep⟩

/-- No two servers are leader with the same `currentTerm`. -/
def ElectionSafe (s : Cluster n C S) : Prop :=
  ∀ i j, (s.nodes i).rf.role = .Leader → (s.nodes j).rf.role = .Leader →
    (s.nodes i).rf.currentTerm = (s.nodes j).rf.currentTerm → i = j

instance (s : Cluster n C S) : Decidable s.ElectionSafe :=
  inferInstanceAs (Decidable (∀ _ _, _))

/-- A leader has a majority of the votes of its own term, so a term has one leader. -/
theorem elected_run (h : Run step (At Node.VotesSound) init s) :
    s.ElectionSafe ∧
      ∀ i, (s.nodes i).rf.role = .Leader → s.Elected i (s.nodes i).rf.currentTerm := by
  obtain ⟨hv, hc⟩ := countInv_run (fun _ _ h => h.mono fun _ _ h => h.2)
    (fun _ _ h => h.mono fun _ _ h => h.1) h voteInv_init countInv_init
  have helected : ∀ i, (s.nodes i).rf.role = .Leader →
      s.Elected i (s.nodes i).rf.currentTerm := fun i hi =>
    hc.led i _ ⟨_, hv.current i, hv.me i, hi, rfl⟩
  refine ⟨fun i j hi hj hterm => ?_, helected⟩
  exact hv.elected_unique (helected i hi) (hterm ▸ helected j hj)

theorem Elected.mono {T : ℤ} (h : s.Elected i T) (hsent : ∀ p ∈ s.sent, p ∈ s'.sent)
    (hpast : ∀ rf ∈ s.past, rf ∈ s'.past) : s'.Elected i T := by
  obtain ⟨⟨rf, hrf, hst⟩, A, hA, hvotes⟩ := h
  exact ⟨⟨rf, hpast rf hrf, hst⟩, A, hA, fun w hw =>
    (hvotes w hw).imp_right fun hg => granted_mono hsent hg⟩

/-- Two servers: each has a vote of an earlier term still on its way when both stand in term 3. -/
def lateVotes [NeZero n] : List (Event n ℕ Unit) :=
  [.act 1 .timeout, .act 1 .startElection, .act 1 .sendRequestVotes, .act 1 .persistElection,
    .deliver 0,
    .act 0 .timeout, .act 0 .startElection, .act 0 .sendRequestVotes, .act 0 .persistElection,
    .deliver 1,
    .act 0 .timeout, .act 0 .startElection, .act 1 .timeout, .act 1 .startElection,
    .deliver 0, .deliver 0]

end Cluster

/-! ### Code without the lock -/

theorem Node.crashLocal_votesSound :
    Node.CrashLocal (Node.VotesSound (n := n) (C := C) (S := S)) := by
  rintro nd nd' hunsaved ⟨-, hcrash⟩
  exact ⟨by rintro _ ⟨⟩, fun _ => hunsaved.trans (hcrash rfl)⟩

namespace Interleaved

variable {s : Interleaved n C S} {t : Cluster n C S}

/-- No two servers are leader with the same `currentTerm`. The tail of `handleInstallSnapshot`
    writes the term before it gives up the role, so a server inside it is not counted. -/
def ElectionSafe (s : Interleaved n C S) : Prop :=
  ∀ i j, ¬ s.InTail i → ¬ s.InTail j → (s.cluster.nodes i).rf.role = .Leader →
    (s.cluster.nodes j).rf.role = .Leader →
    (s.cluster.nodes i).rf.currentTerm = (s.cluster.nodes j).rf.currentTerm → i = j

/-- Election safety: where counted votes are of the current term, no crash comes before a `persist`
    that is still to save a vote, and code without the lock is not interrupted, a term has at most
    one leader, and each leader has a majority of the votes of its own term. -/
theorem election_safety (h : Run step (Steady Node.VotesSound) init s) :
    s.ElectionSafe ∧ ∀ i, ¬ s.InTail i → (s.cluster.nodes i).rf.role = .Leader →
      s.cluster.Elected i (s.cluster.nodes i).rf.currentTerm := by
  obtain ⟨t, ht, hst⟩ := exists_stands Node.crashLocal_votesSound h
  obtain ⟨hsafe, helected⟩ := Cluster.elected_run ht
  refine ⟨fun i j hi hj => ?_, fun i hi => ?_⟩
  · rw [hst.rf_eq hi, hst.rf_eq hj]
    exact hsafe i j
  · rw [hst.rf_eq hi]
    intro hrole
    exact (helected i hrole).mono (fun p hp => hst.sent ▸ hp) hst.past

theorem election_safety_first_leader : ∃ s : Interleaved 3 ℕ Unit,
    Run step (Steady Node.VotesSound) init s ∧ (s.cluster.nodes 0).rf.role = .Leader ∧
      s.ElectionSafe ∧ s.cluster.Elected 0 1 := by
  obtain ⟨s, t, hs, hem, hrole, hterm⟩ := exists_run_of_schedule (n := 3) Node.VotesSound
    (Cluster.firstVote ++ Cluster.firstLeader)
    (fun t => (t.nodes 0).rf.role = .Leader ∧ (t.nodes 0).rf.currentTerm = 1) (by decide)
  rw [← hem.nodes] at hrole hterm
  obtain ⟨hsafe, helected⟩ := election_safety hs
  exact ⟨s, hs, hrole, hsafe, hterm ▸ helected 0 (hem.not_inTail 0) hrole⟩

theorem Embeds.electionSafe (h : Embeds t s) (hs : s.ElectionSafe) : t.ElectionSafe := by
  intro i j
  rw [← h.nodes]
  exact hs i j (h.not_inTail i) (h.not_inTail j)

/-- The late votes make both of them leader of term 3. -/
theorem late_votes_elect_two :
    ¬ ∀ s : Interleaved 2 ℕ Unit, Run step (Steady Node.NoCrash) init s → s.ElectionSafe := by
  obtain ⟨s, t, hs, hem, htwo⟩ := exists_run_of_schedule (n := 2) Node.NoCrash Cluster.lateVotes
    (fun t => ¬ t.ElectionSafe) (by decide)
  exact fun h => htwo (hem.electionSafe (h s hs))

end Interleaved
end DistLabs
