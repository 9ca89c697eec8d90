import DistLabs.Raft.Election
import DistLabs.Raft.Threads

/-! # What a sent message promises

    The term a server writes into a message is read in one section and used in a later one, and it
    is saved later still. Two rules are about that. A request is only sent in a role that the server
    has held in the term of the request. And what a server has sent binds it after a crash: it comes
    back in no smaller term, and in the same term with the same vote. Neither holds of every run;
    the conditions below say which steps break them. -/

namespace DistLabs

variable {n : ℕ} {C S : Type}

/-- The term a message carries as that of its sender. -/
def Packet.ownTerm (p : Packet n C S) : ℤ :=
  match p.body with
  | .requestVote _ args => args.term
  | .requestVoteReply _ _ reply => reply.term
  | .appendEntries args => args.term
  | .appendEntriesReply _ reply => reply.term
  | .installSnapshot args => args.term
  | .installSnapshotReply _ reply => reply.term

/-- The term of a request that only a leader sends. -/
def Packet.leaderTerm (p : Packet n C S) : Option ℤ :=
  match p.body with
  | .appendEntries args => some args.term
  | .installSnapshot args => some args.term
  | _ => none

/-- A reply, of any of the three RPCs. -/
def Packet.isReply (p : Packet n C S) : Bool :=
  match p.body with
  | .requestVoteReply _ _ _ => true
  | .appendEntriesReply _ _ => true
  | .installSnapshotReply _ _ => true
  | _ => false

theorem Packet.askKey_of_isReply {p : Packet n C S} (h : p.isReply = true) : p.askKey = none := by
  obtain ⟨src, dst, incarnation, body⟩ := p
  cases body with
  | requestVote e args => cases h
  | _ => rfl

theorem Packet.leaderTerm_of_isReply {p : Packet n C S} (h : p.isReply = true) :
    p.leaderTerm = none := by
  obtain ⟨src, dst, incarnation, body⟩ := p
  cases body with
  | appendEntries args => cases h
  | installSnapshot args => cases h
  | _ => rfl

theorem Packet.ownTerm_of_leaderTerm {p : Packet n C S} {T : ℤ} (h : p.leaderTerm = some T) :
    p.ownTerm = T := by
  obtain ⟨src, dst, incarnation, body⟩ := p
  cases body with
  | appendEntries args => exact Option.some.inj h
  | installSnapshot args => exact Option.some.inj h
  | _ => cases h

/-- The term of the request a goroutine is about to send. -/
def Thread.sends : Thread n C S → Option ℤ
  | .append _ args false => some args.term
  | .installSend _ args => some args.term
  | _ => none

/-- The goroutine is about to build a request that only a leader sends. -/
def Thread.builds : Thread n C S → Bool
  | .heartbeat _ => true
  | .install _ => true
  | _ => false

/-- The term `startElection` counted up to, until `genRequestVoteArgs` has run. -/
def Ticker.term : Ticker → Option ℤ
  | .elected t => some t
  | _ => none

/-- The step runs `genRequestVoteArgs`. -/
def Input.isAsk : Input n C S → Bool
  | .act .sendRequestVotes => true
  | _ => false

namespace Node

/-- `genRequestVoteArgs` finds the term that its election has counted up to. -/
def AskCurrent (nd : Node n C S) (inp : Input n C S) : Prop :=
  inp.isAsk = true → ∀ t ∈ nd.ticker.term, nd.rf.currentTerm = t

/-- A goroutine that finds itself leader sends a request built in the current term. -/
def SendCurrent (nd : Node n C S) (inp : Input n C S) : Prop :=
  ∀ t ∈ nd.running inp, ∀ T ∈ t.sends, nd.rf.role = .Leader → T = nd.rf.currentTerm

/-- `genAppendEntries` and the request section of `handleInstallSnapshot` run in a leader. -/
def BuildLeading (nd : Node n C S) (inp : Input n C S) : Prop :=
  ∀ t ∈ nd.running inp, t.builds = true → nd.rf.role = .Leader

/-- No crash, votes are asked for in the term of the election and requests of a leader are built by
    a leader. -/
def BuiltInRole (nd : Node n C S) (inp : Input n C S) : Prop :=
  nd.NoCrash inp ∧ nd.AskCurrent inp ∧ nd.BuildLeading inp

/-- No crash comes before a `persist` that is still to save a term or a vote, and votes are asked
    for in the term of the election. -/
def PromisesSaved (nd : Node n C S) (inp : Input n C S) : Prop :=
  nd.CrashPersisted inp ∧ nd.AskCurrent inp

instance (nd : Node n C S) (inp : Input n C S) : Decidable (nd.AskCurrent inp) :=
  inferInstanceAs (Decidable (_ → ∀ t ∈ nd.ticker.term, _))

instance (nd : Node n C S) (inp : Input n C S) : Decidable (nd.SendCurrent inp) :=
  inferInstanceAs (Decidable (∀ t ∈ nd.running inp, ∀ T ∈ t.sends, _))

instance (nd : Node n C S) (inp : Input n C S) : Decidable (nd.BuildLeading inp) :=
  inferInstanceAs (Decidable (∀ t ∈ nd.running inp, _))

instance (nd : Node n C S) (inp : Input n C S) : Decidable (nd.BuiltInRole inp) :=
  inferInstanceAs (Decidable (_ ∧ _))

instance (nd : Node n C S) (inp : Input n C S) : Decidable (nd.PromisesSaved inp) :=
  inferInstanceAs (Decidable (_ ∧ _))

/-- Why a step sends `p`. -/
inductive Sends (nd : Node n C S) (inp : Input n C S) (out : Out n C S) (p : Packet n C S) : Prop
  | ask {t : ℤ} {e : ℕ} {args : RequestVoteArgs n} (input : inp.isAsk = true)
      (ticker : nd.ticker = .elected t) (gen : nd.rf.genRequestVoteArgs = some args)
      (body : p.body = .requestVote e args) (src : p.src = nd.rf.me) (rf : out.node.rf = nd.rf)
  | request {t : Thread n C S} {T : ℤ} (running : nd.running inp = some t)
      (sends : t.sends = some T) (role : nd.rf.role = .Leader) (src : p.src = nd.rf.me)
      (term : p.ownTerm = T) (body : p.isVote = false) (rf : out.node.rf = nd.rf)
  | reply {q : Packet n C S} (input : inp = .recv q) (src : p.src = q.dst)
      (body : p.isReply = true) (term : p.ownTerm ≤ max out.node.rf.currentTerm 0)

theorem Move.sends {nd : Node n C S} {inp : Input n C S} {out : Out n C S} (h : nd.Move inp out) :
    ∀ p ∈ out.sent, nd.Sends inp out p := by
  cases h with
  | sendRequestVotes ticker gen =>
    intro p hp
    obtain ⟨j, -, rfl⟩ := List.mem_map.mp hp
    exact .ask rfl ticker gen rfl rfl rfl
  | run thread goes =>
    cases goes with
    | appendSend role =>
      intro p hp
      obtain rfl := List.mem_singleton.mp hp
      exact .request thread rfl role rfl rfl rfl rfl
    | installSend role =>
      intro p hp
      obtain rfl := List.mem_singleton.mp hp
      exact .request thread rfl role rfl rfl rfl rfl
    | _ => rintro _ ⟨⟩
  | requestVote body handler =>
    intro p hp
    obtain rfl := List.mem_singleton.mp hp
    refine .reply rfl rfl rfl (le_max_of_le_left (le_of_eq ?_))
    rcases Raft.requestVote_cases handler with ⟨-, rfl, rfl⟩ | ⟨-, -, b, -, rfl, rfl⟩ <;> rfl
  | appendEntries body handler =>
    intro p hp
    obtain rfl := List.mem_singleton.mp hp
    refine .reply rfl rfl rfl (le_max_of_le_left (le_of_eq ?_))
    rcases Raft.appendEntries_cases handler with ⟨-, rfl, rfl, -⟩ | ⟨hle, rfl, -, hterm, -⟩ |
      ⟨hle, -, -, -, rfl, rfl, -⟩
    · rfl
    · exact hterm.trans (Raft.follow_currentTerm hle).symm
    · exact (Raft.follow_currentTerm hle).symm
  | installSnapshot body handler =>
    intro p hp
    obtain rfl := List.mem_singleton.mp hp
    refine .reply rfl rfl rfl ?_
    rcases Raft.installSnapshot_cases handler with ⟨-, rfl, rfl, -⟩ |
      ⟨hle, hterm, ⟨-, rfl, -⟩ | ⟨-, -, -, logs, -, rfl⟩⟩
    · exact le_max_left ..
    · exact hterm.trans_eq (by simp [spawn, Raft.meet_currentTerm hle])
    · exact hterm.trans_eq (by simp [spawn, Raft.installed, Raft.meet_currentTerm hle])
  | _ => rintro _ ⟨⟩

/-- A goroutine has its request from before, or it has just built it in the current term. -/
theorem Move.threads_sends {nd : Node n C S} {inp : Input n C S} {out : Out n C S}
    (h : nd.Move inp out) {t : Thread n C S} (ht : t ∈ out.node.threads) {T : ℤ}
    (hT : t.sends = some T) : t ∈ nd.threads ∨
      T = nd.rf.currentTerm ∧ ∃ t₀, nd.running inp = some t₀ ∧ t₀.builds = true := by
  rcases h.threads ht with hold | hnew
  · exact .inl hold
  refine .inr ?_
  cases hnew with
  | @append server args isSnapshot running gen =>
    cases isSnapshot with
    | false =>
      exact ⟨(Option.some.inj hT).symm.trans (Raft.genAppendEntries_eq_some gen).1, _, running, rfl⟩
    | true => cases hT
  | installSend running => exact ⟨(Option.some.inj hT).symm, _, running, rfl⟩
  | _ => cases hT

end Node

namespace Cluster

variable {s s' : Cluster n C S} {i : Fin n} {net : List (Packet n C S)} {out : Out n C S}

/-- Server `i` had voted for itself while in term `T`. -/
def VotedSelf (s : Cluster n C S) (i : Fin n) (T : ℤ) : Prop :=
  ∃ rf ∈ s.past, rf.me = i ∧ rf.currentTerm = T ∧ rf.votedFor = some i

instance (s : Cluster n C S) (i : Fin n) (T : ℤ) : Decidable (s.VotedSelf i T) :=
  inferInstanceAs (Decidable (∃ rf ∈ s.past, _))

instance (s : Cluster n C S) (i : Fin n) (T : ℤ) : Decidable (s.Led i T) :=
  inferInstanceAs (Decidable (∃ rf ∈ s.past, _))

/-- A request comes from a server that has held the role for it in its term. -/
def InRole (s : Cluster n C S) (p : Packet n C S) : Prop :=
  (∀ k ∈ p.askKey, s.VotedSelf k.1 k.2.2) ∧ ∀ T ∈ p.leaderTerm, s.Led p.src T

instance (s : Cluster n C S) (p : Packet n C S) : Decidable (s.InRole p) :=
  inferInstanceAs (Decidable ((∀ k ∈ p.askKey, _) ∧ ∀ T ∈ p.leaderTerm, _))

theorem InRole.mono {p : Packet n C S} (h : s.InRole p) (hpast : ∀ rf ∈ s.past, rf ∈ s'.past) :
    s'.InRole p := by
  refine ⟨fun k hk => ?_, fun T hT => ?_⟩
  · obtain ⟨rf, hrf, hvoted⟩ := h.1 k hk
    exact ⟨rf, hpast rf hrf, hvoted⟩
  · obtain ⟨rf, hrf, hled⟩ := h.2 T hT
    exact ⟨rf, hpast rf hrf, hled⟩

theorem InRole.advance {p : Packet n C S} (h : s.InRole p) : (s.advance i net out).InRole p :=
  h.mono fun _ hrf => mem_advance_past.mpr (.inr hrf)

/-- The sender of a vote request has voted for itself. -/
theorem VoteInv.votedSelf_sends (hv : s.VoteInv) {inp : Input n C S} {p : Packet n C S}
    (hask : (s.nodes i).AskCurrent inp) (h : (s.nodes i).Sends inp out p) :
    ∀ k ∈ p.askKey, s.VotedSelf k.1 k.2.2 := by
  intro k hk
  cases h with
  | ask input ticker gen body src rf =>
    have hterm : (s.nodes i).rf.currentTerm = _ := hask input _ (by rw [ticker]; rfl)
    have hstood := hv.ticker i _ ticker
    rw [← hterm] at hstood
    obtain ⟨lastTerm, -, rfl⟩ := Option.map_eq_some_iff.mp gen
    rw [Packet.askKey, body] at hk
    obtain rfl := Option.some.inj hk
    exact ⟨_, hv.current i, src.symm, rfl, (src.trans (hv.me i)).symm ▸ hv.stood i hstood⟩
  | request running sends role src term body rf =>
    rw [(Packet.keys_of_not_isVote body).1] at hk
    cases hk
  | reply input src body term =>
    rw [Packet.askKey_of_isReply body] at hk
    cases hk

/-- The sender of a leader's request leads its term. -/
theorem VoteInv.led_sends (hv : s.VoteInv) {inp : Input n C S} {p : Packet n C S}
    (hsend : (s.nodes i).SendCurrent inp) (h : (s.nodes i).Sends inp out p) :
    ∀ T ∈ p.leaderTerm, s.Led p.src T := by
  intro T hT
  cases h with
  | ask input ticker gen body src rf =>
    rw [Packet.leaderTerm, body] at hT
    cases hT
  | request running sends role src term body rf =>
    have hcur := hsend _ running _ sends role
    have hown : p.ownTerm = T := Packet.ownTerm_of_leaderTerm hT
    exact ⟨_, hv.current i, src.symm, role, hcur.symm.trans (term.symm.trans hown)⟩
  | reply input src body term =>
    rw [Packet.leaderTerm_of_isReply body] at hT
    cases hT

/-- A request that a goroutine still holds, and every request sent, is one for its sender's role. -/
structure RoleInv (s : Cluster n C S) : Prop where
  threads : ∀ i, ∀ t ∈ (s.nodes i).threads, ∀ T, t.sends = some T → s.Led i T
  sent : ∀ p ∈ s.sent, s.InRole p

theorem roleInv_init : RoleInv (init : Cluster n C S) := by
  constructor <;> simp [init, Node.boot]

/-- The sender of a leader's request has led its term since it built the request. -/
theorem RoleInv.led_sends (hR : s.RoleInv) (hv : s.VoteInv) {inp : Input n C S}
    {p : Packet n C S} (h : (s.nodes i).Sends inp out p) : ∀ T ∈ p.leaderTerm, s.Led p.src T := by
  intro T hT
  cases h with
  | ask input ticker gen body src rf =>
    rw [Packet.leaderTerm, body] at hT
    cases hT
  | @request t T₀ running sends role src term body rf =>
    obtain rfl : T₀ = T := term.symm.trans (Packet.ownTerm_of_leaderTerm hT)
    rw [src, hv.me i]
    exact hR.threads i t (Node.mem_of_running running) T₀ sends
  | reply input src body term =>
    rw [Packet.leaderTerm_of_isReply body] at hT
    cases hT

theorem roleInv_step {e : Event n C S} (hv : s.VoteInv) (hR : s.RoleInv)
    (hok : At Node.BuiltInRole s e) (h : s.step e = .ok s') : s'.RoleInv := by
  obtain ⟨i, inp, net, out, hin, hon, rfl⟩ := step_ok h
  obtain ⟨-, hask, hbuild⟩ := hok.at_input hin
  have hmove := Node.on_move hon
  refine ⟨fun j t ht T hT => led_advance.mpr (.inr ?_), fun p hp => ?_⟩
  · rcases eq_or_ne j i with rfl | hne
    · rw [advance_nodes_self] at ht
      rcases hmove.threads_sends ht hT with hold | ⟨rfl, t₀, hrun, hbuilds⟩
      · exact hR.threads j t hold T hT
      · exact ⟨_, hv.current j, hv.me j, hbuild t₀ hrun hbuilds, rfl⟩
    · rw [advance_nodes_of_ne hne] at ht
      exact hR.threads j t ht T hT
  · rcases mem_advance_sent.mp hp with hnew | hold
    · have hsends := hmove.sends p hnew
      have hnow : s.InRole p := ⟨hv.votedSelf_sends hask hsends, hR.led_sends hv hsends⟩
      exact hnow.advance
    · exact (hR.sent p hold).advance

theorem roleInv_run (h : Run step (At Node.BuiltInRole) init s) : s.VoteInv ∧ s.RoleInv := by
  refine h.invariant (P := fun s => s.VoteInv ∧ s.RoleInv) ⟨voteInv_init, roleInv_init⟩ ?_
  rintro s s' e ⟨hv, hR⟩ hok hstep
  exact ⟨voteInv_step hv (noCrash_saved _ _ (hok.mono fun _ _ h => h.1)) hstep,
    roleInv_step hv hR hok hstep⟩

/-- The first leader's first heartbeat to server 1. -/
def firstHeartbeat [NeZero n] : List (Event n ℕ Unit) :=
  [.act 0 .heartbeat, .act 0 (.run 0), .act 0 (.run 1)]

/-! ### Promises across crashes -/

/-- What server `i` has sent binds it as the peer `rf`: in the term it comes back in, and in the
    same term by the vote it asked for or gave. -/
def Binds (s : Cluster n C S) (i : Fin n) (rf : Raft n C S) : Prop :=
  ∀ p ∈ s.sent, p.src = i → p.ownTerm ≤ rf.currentTerm ∧
    (∀ k ∈ p.askKey, rf.currentTerm = k.2.2 → rf.votedFor = some i) ∧
    (∀ k ∈ p.grantKey, rf.currentTerm = k.2.1 → rf.votedFor = some k.2.2)

instance (s : Cluster n C S) (i : Fin n) (rf : Raft n C S) : Decidable (s.Binds i rf) :=
  inferInstanceAs (Decidable (∀ p ∈ s.sent, _ → _ ∧ (∀ k ∈ p.askKey, _) ∧ ∀ k ∈ p.grantKey, _))

/-- Nothing a server has sent or is about to send is ahead of its term, and it has stood in the
    terms it asked for votes in. -/
structure PromiseInv (s : Cluster n C S) : Prop where
  nonneg : ∀ i, 0 ≤ (s.nodes i).rf.currentTerm
  threads : ∀ i, ∀ t ∈ (s.nodes i).threads, ∀ T, t.sends = some T →
    T ≤ (s.nodes i).rf.currentTerm
  sent : ∀ p ∈ s.sent, p.ownTerm ≤ (s.nodes p.src).rf.currentTerm
  asked : ∀ p ∈ s.sent, ∀ k ∈ p.askKey, s.Stood k.1 k.2.2

theorem promiseInv_init : PromiseInv (init : Cluster n C S) := by
  constructor <;> simp [init, Node.boot, Raft.make, Raft.readPersist, Raft.readSnapshotPersist]

/-- The term of the acting server does not fall, by the history of its states. -/
theorem VoteInv.term_le_advance (hv : s.VoteInv) (hv' : (s.advance i net out).VoteInv)
    (j : Fin n) :
    (s.nodes j).rf.currentTerm ≤ ((s.advance i net out).nodes j).rf.currentTerm := by
  have h := hv'.past _ (mem_advance_past.mpr (.inr (hv.current j)))
  rwa [hv.me j] at h

theorem PromiseInv.sends (hP : s.PromiseInv) (hv : s.VoteInv) {inp : Input n C S}
    (hterm : (s.nodes i).rf.currentTerm ≤ out.node.rf.currentTerm)
    (hrecv : ∀ q, inp = .recv q → q.dst = i) (hask : (s.nodes i).AskCurrent inp)
    {p : Packet n C S} (h : (s.nodes i).Sends inp out p) :
    p.src = i ∧ p.ownTerm ≤ out.node.rf.currentTerm ∧ ∀ k ∈ p.askKey, s.Stood k.1 k.2.2 := by
  cases h with
  | ask input ticker gen body src rf =>
    have hcur : (s.nodes i).rf.currentTerm = _ := hask input _ (by rw [ticker]; rfl)
    have hstood := hv.ticker i _ ticker
    rw [← hcur] at hstood
    obtain ⟨lastTerm, -, rfl⟩ := Option.map_eq_some_iff.mp gen
    have hsrc : p.src = i := src.trans (hv.me i)
    refine ⟨hsrc, ?_, ?_⟩
    · rw [Packet.ownTerm, body]; exact hterm
    · intro k hk
      rw [Packet.askKey, body] at hk
      obtain rfl := Option.some.inj hk
      rw [hsrc]; exact hstood
  | @request t _ running sends role src term body rf =>
    have hmem : t ∈ (s.nodes i).threads := Node.mem_of_running running
    refine ⟨src.trans (hv.me i), term ▸ (hP.threads i t hmem _ sends).trans hterm, ?_⟩
    intro k hk
    rw [(Packet.keys_of_not_isVote body).1] at hk
    cases hk
  | @reply q input src body term =>
    refine ⟨src.trans (hrecv q input), ?_, ?_⟩
    · rwa [max_eq_left ((hP.nonneg i).trans hterm)] at term
    · rw [Packet.askKey_of_isReply body]
      rintro _ ⟨⟩

theorem promiseInv_step {e : Event n C S} (hv : s.VoteInv) (hP : s.PromiseInv)
    (hok : At Node.PromisesSaved s e) (h : s.step e = .ok s') : s'.PromiseInv := by
  have hv' := voteInv_step hv (hok.mono fun _ _ h => h.1) h
  obtain ⟨i, inp, net, out, hin, hon, rfl⟩ := step_ok h
  have hmove := Node.on_move hon
  have hle := hv.term_le_advance hv'
  have hterm : (s.nodes i).rf.currentTerm ≤ out.node.rf.currentTerm := by simpa using hle i
  have hrecv : ∀ q, inp = .recv q → q.dst = i := by
    rintro q rfl
    exact (input_recv hin).1
  have hsends := fun p hp => hP.sends hv hterm hrecv (hok.at_input hin).2 (hmove.sends p hp)
  refine ⟨fun j => (hP.nonneg j).trans (hle j), fun j t ht T hT => ?_, fun p hp => ?_,
    fun p hp k hk => ?_⟩
  · rcases eq_or_ne j i with rfl | hne
    · rw [advance_nodes_self] at ht ⊢
      rcases hmove.threads_sends ht hT with hold | ⟨rfl, -⟩
      · exact (hP.threads j t hold T hT).trans hterm
      · exact hterm
    · rw [advance_nodes_of_ne hne] at ht ⊢
      exact hP.threads j t ht T hT
  · rcases mem_advance_sent.mp hp with hnew | hold
    · obtain ⟨hsrc, hown, -⟩ := hsends p hnew
      rw [hsrc, advance_nodes_self]; exact hown
    · exact (hP.sent p hold).trans (hle p.src)
  · refine stood_advance.mpr (.inr ?_)
    rcases mem_advance_sent.mp hp with hnew | hold
    · exact (hsends p hnew).2.2 k hk
    · exact hP.asked p hold k hk

/-- What a server has sent binds it in the state it is in. -/
theorem PromiseInv.binds (hP : s.PromiseInv) (hv : s.VoteInv) (i : Fin n) :
    s.Binds i (s.nodes i).rf := by
  rintro p hp rfl
  refine ⟨hP.sent p hp, ?_, ?_⟩
  · rintro ⟨c, v, T⟩ hk hcur
    have hc : c = p.src := by
      unfold Packet.askKey at hk
      split at hk <;> simp_all
    subst hc
    have hstood := hP.asked p hp _ hk
    rw [← hcur] at hstood
    exact hv.stood _ hstood
  · rintro ⟨v, T, c⟩ hk hcur
    have hc : v = p.src := by
      unfold Packet.grantKey at hk
      split at hk
      · split at hk <;> simp_all
      · cases hk
    subst hc
    exact (hv.granted _ T c (List.mem_filterMap.mpr ⟨p, hp, hk⟩)).2.2.2 hcur.symm

theorem promiseInv_run (h : Run step (At Node.PromisesSaved) init s) :
    s.VoteInv ∧ s.PromiseInv := by
  refine h.invariant (P := fun s => s.VoteInv ∧ s.PromiseInv) ⟨voteInv_init, promiseInv_init⟩ ?_
  rintro s s' e ⟨hv, hP⟩ hok hstep
  exact ⟨voteInv_step hv (hok.mono fun _ _ h => h.1) hstep, promiseInv_step hv hP hok hstep⟩

/-- What a server has sent binds it after a crash, too, if its term and its vote are saved. -/
theorem PromiseInv.binds_restart (hP : s.PromiseInv) (hv : s.VoteInv)
    (hsaved : (s.nodes i).rf.unsaved = false) : s.Binds i (s.nodes i).restart.rf := by
  obtain ⟨hterm, hvote⟩ := hv.saved i hsaved
  intro p hp hsrc
  obtain ⟨hown, hask, hgrant⟩ := hP.binds hv i p hp hsrc
  refine ⟨hterm ▸ hown, fun k hk hcur => ?_, fun k hk hcur => ?_⟩
  · exact hvote.trans (hask k hk (hterm ▸ hcur))
  · exact hvote.trans (hgrant k hk (hterm ▸ hcur))

/-- Server 0 asks for votes in term 1; the deferred `rf.persist()` has not run yet. -/
def askUnsaved [NeZero n] : List (Event n ℕ Unit) :=
  [.act 0 .timeout, .act 0 .startElection, .act 0 .sendRequestVotes]

end Cluster

/-! ### Code without the lock -/

theorem Node.crashLocal_builtInRole :
    Node.CrashLocal (Node.BuiltInRole (n := n) (C := C) (S := S)) := by
  rintro nd nd' - ⟨⟨⟩, -⟩

theorem Node.crashLocal_promisesSaved :
    Node.CrashLocal (Node.PromisesSaved (n := n) (C := C) (S := S)) := by
  rintro nd nd' hunsaved ⟨hcrash, -⟩
  exact ⟨fun _ => hunsaved.trans (hcrash rfl), by rintro ⟨⟩⟩

namespace Interleaved

variable {s s' : Interleaved n C S} {i : Fin n}

/-- Requests are sent only in a role held in their term: in every run without crashes in which votes
    are asked for in the term of the election, the requests of a leader are built by a leader and
    code without the lock is not interrupted. -/
theorem requests_in_role (h : Run step (Steady Node.BuiltInRole) init s) :
    ∀ p ∈ s.cluster.sent, s.cluster.InRole p := by
  obtain ⟨t, ht, hst⟩ := exists_stands Node.crashLocal_builtInRole h
  intro p hp
  rw [← hst.sent] at hp
  exact ((Cluster.roleInv_run ht).2.sent p hp).mono hst.past

theorem requests_in_role_first_heartbeat : ∃ s : Interleaved 3 ℕ Unit,
    Run step (Steady Node.BuiltInRole) init s ∧
    ⟨0, 1, 0, .appendEntries ⟨1, 0, 0, 0, [], 0⟩⟩ ∈ s.cluster.sent ∧ s.cluster.Led 0 1 := by
  obtain ⟨s, t, hs, hem, hsent⟩ := exists_run_of_schedule (n := 3) Node.BuiltInRole
    (Cluster.firstVote ++ Cluster.firstLeader ++ Cluster.firstHeartbeat)
    (fun t => ⟨0, 1, 0, .appendEntries ⟨1, 0, 0, 0, [], 0⟩⟩ ∈ t.sent) (by decide)
  rw [← hem.sent] at hsent
  exact ⟨s, hs, hsent, (requests_in_role hs _ hsent).2 1 rfl⟩

/-- The seven accesses of `persist`, by the only goroutine of server `i` without the lock. -/
def persists (i : Fin n) : List (FineEvent n C S) := List.replicate 7 (.access i 0)

/-- Server `i` stands for election. -/
def campaign (i : Fin n) : List (FineEvent n C S) :=
  [.event (.act i .timeout), .event (.act i .startElection), .event (.act i .sendRequestVotes),
    .event (.act i .persistElection)] ++ persists i

/-- Two servers: server 0 has counted up to term 1 when it gets a vote request of term 2, grants it
    and only then builds its own vote requests, with term 2. -/
def lateRequest [NeZero n] : List (FineEvent n ℕ Unit) :=
  [.event (.act 0 .timeout), .event (.act 0 .startElection)] ++ campaign 1 ++ campaign 1 ++
    [.event (.deliver 1), .event (.act 0 .sendRequestVotes)]

theorem late_request_out_of_role :
    ¬ ∀ s : Interleaved 2 ℕ Unit, Run step (Steady Node.NoCrash) init s →
      ∀ p ∈ s.cluster.sent, s.cluster.InRole p := by
  obtain ⟨s, hs, hbad⟩ := exists_run_of_play step (Steady Node.NoCrash) init lateRequest
    (fun s : Interleaved 2 ℕ Unit => ¬ ∀ p ∈ s.cluster.sent, s.cluster.InRole p) (by decide +kernel)
  exact fun h => hbad (h s hs)

theorem step_crash (s : Interleaved n C S) (i : Fin n) : s.step (.event (.act i .crash)) =
    .ok (s.advance i s.cluster.net ({ node := (s.cluster.nodes i).restart }, [])) := rfl

/-- Promises survive crashes: if no server crashes before a `persist` that is still to save a term
    or a vote, votes are asked for in the term of the election and code without the lock is not
    interrupted but by crashes, then each new incarnation of a server is bound by everything the
    server has sent before. -/
theorem promises_survive_crash (h : Run step (Steady Node.PromisesSaved) init s)
    (hok : Steady Node.PromisesSaved s (.event (.act i .crash)))
    (hcrash : s.step (.event (.act i .crash)) = .ok s') :
    s.cluster.Binds i (s'.cluster.nodes i).rf := by
  obtain ⟨t, ht, hst⟩ := exists_stands Node.crashLocal_promisesSaved h
  obtain ⟨hv, hP⟩ := Cluster.promiseInv_run ht
  have hunder := hst.underway i
  -- the crash finds the stable storage that the code without the lock began with
  have hbinds := hP.binds_restart hv (hunder.unsaved.symm.trans ((hok.1.at_input rfl).1 rfl))
  rw [step_crash] at hcrash
  cases hcrash
  rw [advance_cluster, Cluster.advance_nodes_self]
  intro p hp
  rw [Node.restart, hunder.me, hunder.persister]
  exact hbinds p (hst.sent ▸ hp)

theorem promises_survive_crash_first_vote : ∃ s s' : Interleaved 3 ℕ Unit,
    Run step (Steady Node.PromisesSaved) init s ∧ s.step (.event (.act 1 .crash)) = .ok s' ∧
    s.cluster.Granted 1 1 0 ∧ s.cluster.Binds 1 (s'.cluster.nodes 1).rf := by
  obtain ⟨s, t, hs, hem, hg, hok⟩ := exists_run_of_schedule (n := 3) Node.PromisesSaved
    Cluster.firstVote
    (fun t => t.Granted 1 1 0 ∧ (t.nodes 1).PromisesSaved (.act .crash)) (by decide)
  rw [← hem.nodes] at hok
  rw [Cluster.Granted, ← hem.sent] at hg
  exact ⟨s, _, hs, step_crash s 1, hg,
    promises_survive_crash hs ⟨hok, fun _ _ => .inl (hem.unlocked _)⟩ (step_crash s 1)⟩

/-- A crash after server 0 has asked for votes and before it has saved its own brings it back in
    term 0. -/
theorem ask_unsaved_forgotten :
    ¬ ∀ (s s' : Interleaved 2 ℕ Unit) (i : Fin 2), Run step (Steady Node.Any) init s →
      s.step (.event (.act i .crash)) = .ok s' → s.cluster.Binds i (s'.cluster.nodes i).rf := by
  obtain ⟨s, t, hs, hem, hbad⟩ := exists_run_of_schedule (n := 2) Node.Any Cluster.askUnsaved
    (fun t => ¬ t.Binds 0 (t.nodes 0).restart.rf) (by decide)
  intro h
  have hb := h s _ 0 hs (step_crash s 0)
  rw [advance_cluster, Cluster.advance_nodes_self, Cluster.Binds, hem.sent, hem.nodes] at hb
  exact hbad hb

end Interleaved
end DistLabs
