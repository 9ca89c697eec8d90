import DistLabs.Raft.Ballot

/-! # One vote per term

    `VoteInv` is the invariant behind every promise a server makes with its vote. It is stated over
    the history of the run: `Asked` and `Granted` are vote requests and granted votes that were ever
    sent, `Stood` says that a server was ever a candidate in a term. -/

namespace DistLabs

variable {n : ℕ} {C S : Type}

/-- A vote request as candidate, voter and term. -/
def Packet.askKey (p : Packet n C S) : Option (Fin n × Fin n × ℤ) :=
  match p.body with
  | .requestVote _ args => some (p.src, p.dst, args.term)
  | _ => none

/-- A granted vote as voter, term and candidate. -/
def Packet.grantKey (p : Packet n C S) : Option (Fin n × ℤ × Fin n) :=
  match p.body with
  | .requestVoteReply _ args reply =>
    if reply.voteGranted then some (p.src, args.term, p.dst) else none
  | _ => none

theorem Packet.keys_of_not_isVote {p : Packet n C S} (h : p.isVote = false) :
    p.askKey = none ∧ p.grantKey = none := by
  rcases p with ⟨src, dst, inc, body⟩
  cases body <;> simp_all [isVote, askKey, grantKey]

theorem filterMap_eq_nil_of_not_isVote {l : List (Packet n C S)}
    (h : ∀ p ∈ l, p.isVote = false) :
    l.filterMap Packet.askKey = [] ∧ l.filterMap Packet.grantKey = [] := by
  simp only [List.filterMap_eq_nil_iff]
  exact ⟨fun p hp => (Packet.keys_of_not_isVote (h p hp)).1,
    fun p hp => (Packet.keys_of_not_isVote (h p hp)).2⟩

/-- A server does not crash between a section that leaves the term and the vote to a later `persist`
    and the next `persist`. Such sections are the first one of `startElection` and the step-down on
    a vote reply. -/
def Node.CrashPersisted (nd : Node n C S) (inp : Input n C S) : Prop :=
  inp.isCrash = true → nd.rf.unsaved = false

instance (nd : Node n C S) (inp : Input n C S) : Decidable (nd.CrashPersisted inp) :=
  inferInstanceAs (Decidable (_ → _))

/-- A change of one server that casts no vote: the term and the vote stay and the server is no new
    candidate or leader, or it enters a larger term as a follower without a vote. -/
def Raft.Keeps (rf rf' : Raft n C S) : Prop :=
  rf'.me = rf.me ∧
    ((rf'.currentTerm = rf.currentTerm ∧ rf'.votedFor = rf.votedFor ∧
        (rf'.role ≠ .Follower → rf.role ≠ .Follower)) ∨
      (rf.currentTerm < rf'.currentTerm ∧ rf'.votedFor = none ∧ rf'.role = .Follower))

theorem Raft.Quiet.keeps {rf rf' : Raft n C S} (h : Raft.Quiet rf rf') : Raft.Keeps rf rf' := by
  obtain ⟨hme, ⟨ht, hv, hr⟩ | h⟩ := h
  · refine ⟨hme, .inl ⟨ht, hv, fun hne => ?_⟩⟩
    rcases hr with hr | hr
    · rwa [hr] at hne
    · exact absurd hr hne
  · exact ⟨hme, .inr h⟩

/-- Counting a vote, or not, gives none. -/
theorem Raft.keeps_handleRequestVote (rf : Raft n C S) (k : ℕ) (reply : RequestVoteReply) :
    Raft.Keeps rf (rf.handleRequestVote k reply).1 := by
  unfold Raft.handleRequestVote
  split
  · rename_i hc
    split
    · exact ⟨rfl, .inl ⟨rfl, rfl, fun _ => by rw [hc.1]; simp⟩⟩
    · exact (Raft.Quiet.refl rf).keeps
  · split
    · exact ⟨rfl, .inr ⟨by assumption, rfl, rfl⟩⟩
    · exact (Raft.Quiet.refl rf).keeps

theorem Raft.Saved.keeps {rf : Raft n C S} (h : rf.Saved) :
    Raft.Keeps rf (Raft.make rf.me rf.persister) :=
  ⟨Raft.make_me .., .inl ⟨h.1, h.2, fun hne => absurd (Raft.make_role ..) hne⟩⟩

namespace Cluster

/-- `c` sent `v` a vote request of term `T`. -/
def Asked (s : Cluster n C S) (c v : Fin n) (T : ℤ) : Prop :=
  (c, v, T) ∈ s.sent.filterMap Packet.askKey

/-- `v` answered `VoteGranted = true` to `c` in term `T`. -/
def Granted (s : Cluster n C S) (v : Fin n) (T : ℤ) (c : Fin n) : Prop :=
  (v, T, c) ∈ s.sent.filterMap Packet.grantKey

/-- Server `i` was a candidate in term `T`. -/
def Stood (s : Cluster n C S) (i : Fin n) (T : ℤ) : Prop :=
  ∃ rf ∈ s.past, rf.me = i ∧ rf.role = .Candidate ∧ rf.currentTerm = T

instance (s : Cluster n C S) (v : Fin n) (T : ℤ) (c : Fin n) : Decidable (s.Granted v T c) :=
  inferInstanceAs (Decidable (_ ∈ _))

instance (s : Cluster n C S) (i : Fin n) (T : ℤ) : Decidable (s.Stood i T) :=
  inferInstanceAs (Decidable (∃ rf ∈ s.past, _))

/-- The invariant of the votes. -/
structure VoteInv (s : Cluster n C S) : Prop where
  me : ∀ i, (s.nodes i).rf.me = i
  current : ∀ i, (s.nodes i).rf ∈ s.past
  past : ∀ rf ∈ s.past, rf.currentTerm ≤ (s.nodes rf.me).rf.currentTerm
  self : ∀ i, (s.nodes i).rf.role ≠ .Follower → (s.nodes i).rf.votedFor = some i
  stood : ∀ i, s.Stood i (s.nodes i).rf.currentTerm → (s.nodes i).rf.votedFor = some i
  ticker : ∀ i t, (s.nodes i).ticker = .elected t → s.Stood i t
  flight : ∀ p ∈ s.net, p ∈ s.sent
  candidate : ∀ p ∈ s.net, ∀ e args, p.body = .requestVote e args → args.candidateId = p.src
  asked : ∀ c v T, s.Asked c v T → c ≠ v ∧ T ≤ (s.nodes c).rf.currentTerm ∧
    ((s.nodes c).ticker.isElected = true → T < (s.nodes c).rf.currentTerm)
  nodup : (s.net.filterMap Packet.askKey).Nodup
  granted : ∀ v T c, s.Granted v T c → s.Asked c v T ∧
    (c, v, T) ∉ s.net.filterMap Packet.askKey ∧ T ≤ (s.nodes v).rf.currentTerm ∧
    (T = (s.nodes v).rf.currentTerm → (s.nodes v).rf.votedFor = some c)
  unique : ∀ v T c c', s.Granted v T c → s.Granted v T c' → c = c'
  excl : ∀ v T c, s.Granted v T c → ¬ s.Stood v T
  backed : ∀ i c, (s.nodes i).rf.votedFor = some c →
    c = i ∧ s.Stood i (s.nodes i).rf.currentTerm ∨ s.Granted i (s.nodes i).rf.currentTerm c
  saved : ∀ i, (s.nodes i).rf.unsaved = false → (s.nodes i).rf.Saved

theorem voteInv_init : VoteInv (init : Cluster n C S) := by
  constructor
  case saved => exact fun i _ => Raft.saved_make ..
  all_goals simp [init, Node.boot, Raft.make, Raft.readPersist, Raft.readSnapshotPersist, Asked,
    Granted, Stood]

variable {s : Cluster n C S} {i : Fin n} {net : List (Packet n C S)} {out : Out n C S}

theorem asked_advance {c v : Fin n} {T : ℤ} : (s.advance i net out).Asked c v T ↔
    (c, v, T) ∈ out.sent.filterMap Packet.askKey ∨ s.Asked c v T := by
  simp only [Asked, advance, List.filterMap_append, List.mem_append]

theorem granted_advance {c v : Fin n} {T : ℤ} : (s.advance i net out).Granted v T c ↔
    (v, T, c) ∈ out.sent.filterMap Packet.grantKey ∨ s.Granted v T c := by
  simp only [Granted, advance, List.filterMap_append, List.mem_append]

theorem stood_advance {j : Fin n} {T : ℤ} : (s.advance i net out).Stood j T ↔
    (out.node.rf.me = j ∧ out.node.rf.role = .Candidate ∧ out.node.rf.currentTerm = T) ∨
      s.Stood j T := by
  simp only [Stood, mem_advance_past, or_and_right, exists_or, exists_eq_left]

theorem asks_advance : (s.advance i net out).net.filterMap Packet.askKey
    = net.filterMap Packet.askKey ++ out.sent.filterMap Packet.askKey := by
  simp only [advance, List.filterMap_append]

theorem VoteInv.stood_le (hv : s.VoteInv) {j : Fin n} {T : ℤ} (h : s.Stood j T) :
    T ≤ (s.nodes j).rf.currentTerm := by
  obtain ⟨rf, hrf, rfl, -, rfl⟩ := h
  exact hv.past rf hrf

/-- What the acting server owes to the invariant. -/
structure VoteStep (s : Cluster n C S) (i : Fin n) (net : List (Packet n C S))
    (out : Out n C S) : Prop where
  me : out.node.rf.me = i
  term : (s.nodes i).rf.currentTerm ≤ out.node.rf.currentTerm
  self : out.node.rf.role ≠ .Follower → out.node.rf.votedFor = some i
  stood : s.Stood i out.node.rf.currentTerm → out.node.rf.votedFor = some i
  ticker : ∀ t, out.node.ticker = .elected t →
    s.Stood i t ∨ out.node.rf.role = .Candidate ∧ out.node.rf.currentTerm = t
  candidate : ∀ p ∈ out.sent, ∀ e args, p.body = .requestVote e args → args.candidateId = p.src
  askNew : ∀ c v T, (c, v, T) ∈ out.sent.filterMap Packet.askKey →
    c = i ∧ v ≠ i ∧ T ≤ out.node.rf.currentTerm ∧ out.node.ticker.isElected = false
  askOld : ∀ v T, s.Asked i v T → out.node.ticker.isElected = true → T < out.node.rf.currentTerm
  nodup : (net.filterMap Packet.askKey ++ out.sent.filterMap Packet.askKey).Nodup
  spent : ∀ v T c, s.Granted v T c → (c, v, T) ∉ out.sent.filterMap Packet.askKey
  grantOld : ∀ T c, s.Granted i T c → T = out.node.rf.currentTerm →
    out.node.rf.votedFor = some c
  grantNew : ∀ v T c, (v, T, c) ∈ out.sent.filterMap Packet.grantKey →
    v = i ∧ T = out.node.rf.currentTerm ∧ out.node.rf.votedFor = some c ∧ s.Asked c i T ∧
      (c, i, T) ∉ net.filterMap Packet.askKey ++ out.sent.filterMap Packet.askKey
  backed : ∀ c, out.node.rf.votedFor = some c →
    c = i ∧ (out.node.rf.role = .Candidate ∨ s.Stood i out.node.rf.currentTerm) ∨
      (i, out.node.rf.currentTerm, c) ∈ out.sent.filterMap Packet.grantKey ∨
      s.Granted i out.node.rf.currentTerm c

/-- A vote of the step is the one the server now holds, and so is an old one of the same term. -/
theorem VoteStep.eq_of_new (h : VoteStep s i net out) {v : Fin n} {T : ℤ} {c c' : Fin n}
    (hnew : (v, T, c) ∈ out.sent.filterMap Packet.grantKey)
    (hany : (v, T, c') ∈ out.sent.filterMap Packet.grantKey ∨ s.Granted v T c') : c = c' := by
  obtain ⟨rfl, hT, hvote, -⟩ := h.grantNew v T c hnew
  have hvote' : out.node.rf.votedFor = some c' := by
    rcases hany with hnew' | hold
    · exact (h.grantNew v T c' hnew').2.2.1
    · exact h.grantOld T c' hold hT
  exact Option.some.inj (hvote.symm.trans hvote')

/-- A server that has granted a vote of a term does not stand in it: a candidate has voted for
    itself, and nobody asks itself for a vote. -/
theorem VoteInv.not_stood (hv : s.VoteInv) (h : VoteStep s i net out) {v : Fin n} {T : ℤ}
    {c : Fin n} (hg : (s.advance i net out).Granted v T c) : ¬ (s.advance i net out).Stood v T := by
  intro hst
  have key : ∀ (ha : s.Asked c i T), out.node.rf.votedFor = some c →
      out.node.rf.votedFor ≠ some i := fun ha hc hi =>
    (hv.asked c i T ha).1 (Option.some.inj (hc.symm.trans hi))
  rcases granted_advance.mp hg with hnew | hold
  · obtain ⟨rfl, hT, hvote, ha, -⟩ := h.grantNew v T c hnew
    rcases stood_advance.mp hst with ⟨-, hr, -⟩ | hst
    · exact key ha hvote (h.self (by rw [hr]; simp))
    · exact key ha hvote (h.stood (hT ▸ hst))
  · rcases stood_advance.mp hst with ⟨hme, hr, hT⟩ | hst
    · obtain rfl : v = i := hme.symm.trans h.me
      exact key (hv.granted v T c hold).1 (h.grantOld T c hold hT.symm)
        (h.self (by rw [hr]; simp))
    · exact hv.excl v T c hold hst

theorem VoteInv.advance (hv : s.VoteInv) (hnet : net.Sublist s.net) (h : VoteStep s i net out)
    (hsaves : (s.nodes i).rf.Saves out.node.rf) : (s.advance i net out).VoteInv := by
  have hsub := hnet.filterMap Packet.askKey
  refine
    { me := fun j => ?_, current := fun j => ?_, past := fun rf hp => ?_, self := fun j hj => ?_
      stood := fun j hj => ?_, ticker := fun j t hj => ?_, flight := fun p hp => ?_
      candidate := fun p hp e args hb => ?_, asked := fun c v T ha => ?_, nodup := ?_
      granted := fun v T c hg => ?_, unique := fun v T c c' hg hg' => ?_
      excl := fun v T c hg => hv.not_stood h hg, backed := fun j c hj => ?_
      saved := fun j hj => ?_ }
  · rcases eq_or_ne j i with rfl | hne
    · simpa using h.me
    · rw [advance_nodes_of_ne hne]; exact hv.me j
  · rcases eq_or_ne j i with rfl | hne
    · simp
    · rw [advance_nodes_of_ne hne]; exact mem_advance_past.mpr (.inr (hv.current j))
  · rcases mem_advance_past.mp hp with rfl | hp
    · rw [h.me, advance_nodes_self]
    · have hle := hv.past rf hp
      rcases eq_or_ne rf.me i with heq | hne
      · rw [heq] at hle ⊢
        rw [advance_nodes_self]; exact hle.trans h.term
      · rwa [advance_nodes_of_ne hne]
  · rcases eq_or_ne j i with rfl | hne
    · rw [advance_nodes_self] at hj ⊢; exact h.self hj
    · rw [advance_nodes_of_ne hne] at hj ⊢; exact hv.self j hj
  · rcases eq_or_ne j i with rfl | hne
    · rw [advance_nodes_self] at hj ⊢
      rcases stood_advance.mp hj with ⟨-, hr, -⟩ | hst
      · exact h.self (by rw [hr]; simp)
      · exact h.stood hst
    · rw [advance_nodes_of_ne hne] at hj ⊢
      rcases stood_advance.mp hj with ⟨hme, -⟩ | hst
      · exact absurd (hme.symm.trans h.me) hne
      · exact hv.stood j hst
  · rw [stood_advance]
    rcases eq_or_ne j i with rfl | hne
    · rw [advance_nodes_self] at hj
      exact (h.ticker t hj).symm.imp_left fun hc => ⟨h.me, hc⟩
    · rw [advance_nodes_of_ne hne] at hj; exact .inr (hv.ticker j t hj)
  · rw [mem_advance_sent]
    exact (mem_advance_net.mp hp).symm.imp_right fun hp => hv.flight p (hnet.subset hp)
  · rcases mem_advance_net.mp hp with hp | hp
    · exact hv.candidate p (hnet.subset hp) e args hb
    · exact h.candidate p hp e args hb
  · rcases asked_advance.mp ha with hnew | hold
    · obtain ⟨rfl, hvi, hT, hel⟩ := h.askNew c v T hnew
      rw [advance_nodes_self, hel]; exact ⟨hvi.symm, hT, nofun⟩
    · obtain ⟨hcv, hT, hel⟩ := hv.asked c v T hold
      rcases eq_or_ne c i with rfl | hne
      · rw [advance_nodes_self]; exact ⟨hcv, hT.trans h.term, h.askOld v T hold⟩
      · rw [advance_nodes_of_ne hne]; exact ⟨hcv, hT, hel⟩
  · rw [asks_advance]; exact h.nodup
  · rw [asks_advance, asked_advance]
    rcases granted_advance.mp hg with hnew | hold
    · obtain ⟨rfl, hT, hvote, ha, hnot⟩ := h.grantNew v T c hnew
      rw [advance_nodes_self]; exact ⟨.inr ha, hnot, hT.le, fun _ => hvote⟩
    · obtain ⟨ha, hnot, hT, himp⟩ := hv.granted v T c hold
      refine ⟨.inr ha, fun hc => ?_, ?_⟩
      · rcases List.mem_append.mp hc with hc | hc
        · exact hnot (hsub.subset hc)
        · exact h.spent v T c hold hc
      · rcases eq_or_ne v i with rfl | hne
        · rw [advance_nodes_self]; exact ⟨hT.trans h.term, h.grantOld T c hold⟩
        · rw [advance_nodes_of_ne hne]; exact ⟨hT, himp⟩
  · rcases granted_advance.mp hg with hnew | hold
    · exact h.eq_of_new hnew (granted_advance.mp hg')
    · rcases granted_advance.mp hg' with hnew' | hold'
      · exact (h.eq_of_new hnew' (.inr hold)).symm
      · exact hv.unique v T c c' hold hold'
  · rw [granted_advance, stood_advance]
    rcases eq_or_ne j i with rfl | hne
    · rw [advance_nodes_self] at hj ⊢
      exact (h.backed c hj).imp_left fun hc => ⟨hc.1, hc.2.imp_left fun hr => ⟨h.me, hr, rfl⟩⟩
    · rw [advance_nodes_of_ne hne] at hj ⊢
      exact (hv.backed j c hj).imp (fun hc => ⟨hc.1, .inr hc.2⟩) .inr
  · rcases eq_or_ne j i with rfl | hne
    · rw [advance_nodes_self] at hj ⊢; exact hsaves.saved (hv.saved j) hj
    · rw [advance_nodes_of_ne hne] at hj ⊢; exact hv.saved j hj

/-- A step that casts no vote and sends no vote request. -/
theorem VoteInv.voteStep_keeps (hv : s.VoteInv) (hnet : net.Sublist s.net)
    (hrf : Raft.Keeps (s.nodes i).rf out.node.rf)
    (htick : out.node.ticker = (s.nodes i).ticker ∨ out.node.ticker.isElected = false)
    (hask : out.sent.filterMap Packet.askKey = [])
    (hgrant : out.sent.filterMap Packet.grantKey = []) : VoteStep s i net out := by
  have hle : (s.nodes i).rf.currentTerm ≤ out.node.rf.currentTerm := by
    rcases hrf.2 with ⟨h, -⟩ | ⟨h, -⟩ <;> omega
  -- a vote of the term the server is still in has not changed
  have hvote : ∀ T c, T ≤ (s.nodes i).rf.currentTerm →
      (T = (s.nodes i).rf.currentTerm → (s.nodes i).rf.votedFor = some c) →
      T = out.node.rf.currentTerm → out.node.rf.votedFor = some c := by
    intro T c hT himp heq
    rcases hrf.2 with ⟨hcur, hvf, -⟩ | ⟨hlt, -⟩
    · rw [hvf]; exact himp (heq.trans hcur)
    · omega
  refine
    { me := hrf.1.trans (hv.me i), term := hle, self := fun hne => ?_
      stood := fun hst => ?_, ticker := fun t ht => .inl ?_, candidate := fun p hp e args hb => ?_
      askNew := by simp [hask], askOld := fun v T ha hel => ?_, nodup := ?_
      spent := by simp [hask], grantOld := fun T c hg => ?_, grantNew := by simp [hgrant]
      backed := fun c hc => ?_ }
  · rcases hrf.2 with ⟨-, hvf, hr⟩ | ⟨-, -, hr⟩
    · rw [hvf]; exact hv.self i (hr hne)
    · exact absurd hr hne
  · exact hvote _ _ (hv.stood_le hst) (fun heq => hv.stood i (heq ▸ hst)) rfl
  · rcases htick with h | h
    · exact hv.ticker i t (h ▸ ht)
    · rw [ht] at h; cases h
  · have := List.filterMap_eq_nil_iff.mp hask p hp
    simp [Packet.askKey, hb] at this
  · rcases htick with h | h
    · exact ((hv.asked i v T ha).2.2 (h ▸ hel)).trans_le hle
    · rw [h] at hel; cases hel
  · rw [hask, List.append_nil]; exact hv.nodup.sublist (hnet.filterMap _)
  · obtain ⟨-, -, hT, himp⟩ := hv.granted i T c hg
    exact hvote T c hT himp
  · rcases hrf.2 with ⟨hcur, hvf, -⟩ | ⟨-, hnone, -⟩
    · rw [hcur]; exact (hv.backed i c (hvf ▸ hc)).imp (fun h => ⟨h.1, .inr h.2⟩) .inr
    · rw [hnone] at hc; cases hc

/-- The first section of `startElection` enters a term the server has never been in. -/
theorem VoteInv.voteStep_start (hv : s.VoteInv) :
    VoteStep s i s.net { node := { s.nodes i with
      rf := (s.nodes i).rf.startElection
      ticker := .elected (s.nodes i).rf.startElection.currentTerm } } := by
  have hcur : (s.nodes i).rf.startElection.currentTerm = (s.nodes i).rf.currentTerm + 1 := rfl
  have hvote : (s.nodes i).rf.startElection.votedFor = some i := congrArg some (hv.me i)
  refine
    { me := hv.me i, term := by dsimp only; omega, self := fun _ => hvote, stood := fun _ => hvote
      ticker := fun t ht => .inr ⟨rfl, by simpa using ht⟩, candidate := by simp
      askNew := by simp, askOld := fun v T ha _ => ?_, nodup := by simpa using hv.nodup
      spent := by simp, grantOld := fun T c hg hT => ?_, grantNew := by simp
      backed := fun c hc => .inl ⟨Option.some.inj (hc.symm.trans hvote), .inl rfl⟩ }
  · have := (hv.asked i v T ha).2.1
    dsimp only; omega
  · have := (hv.granted i T c hg).2.2.1
    dsimp only at hT; omega

/-- `genRequestVoteArgs` asks for votes in a term for which the server has not asked before. -/
theorem VoteInv.voteStep_send (hv : s.VoteInv) {t : ℤ} {args : RequestVoteArgs n}
    (htick : (s.nodes i).ticker = .elected t)
    (hargs : (s.nodes i).rf.genRequestVoteArgs = some args) :
    VoteStep s i s.net
      { node := { s.nodes i with
          ticker := .persisting, voteCounts := (s.nodes i).voteCounts ++ [1] }
        sent := (s.nodes i).others.map fun j =>
          (s.nodes i).packet j (.requestVote (s.nodes i).voteCounts.length args) } := by
  obtain ⟨lastTerm, -, rfl⟩ := Option.map_eq_some_iff.mp hargs
  have hkeys : ((s.nodes i).others.map fun j => (s.nodes i).packet j
      (.requestVote (s.nodes i).voteCounts.length
        { term := (s.nodes i).rf.currentTerm, candidateId := (s.nodes i).rf.me
          lastLogIndex := (s.nodes i).rf.getLastLogicalIndex, lastLogTerm := lastTerm })).filterMap
        Packet.askKey
      = (s.nodes i).others.map fun j => (i, j, (s.nodes i).rf.currentTerm) := by
    simp [List.filterMap_map, Function.comp_def, Packet.askKey, Node.packet, hv.me i]
  have hgrants : ((s.nodes i).others.map fun j => (s.nodes i).packet j
      (.requestVote (s.nodes i).voteCounts.length
        { term := (s.nodes i).rf.currentTerm, candidateId := (s.nodes i).rf.me
          lastLogIndex := (s.nodes i).rf.getLastLogicalIndex, lastLogTerm := lastTerm })).filterMap
        Packet.grantKey = [] := by
    simp [List.filterMap_map, Function.comp_def, Packet.grantKey, Node.packet]
  -- every earlier request of this server is of a smaller term
  have hfresh : ∀ v T, s.Asked i v T → T < (s.nodes i).rf.currentTerm := fun v T ha =>
    (hv.asked i v T ha).2.2 (by rw [htick]; rfl)
  have hflight : ∀ k ∈ s.net.filterMap Packet.askKey, k ∈ s.sent.filterMap Packet.askKey := by
    intro k hk
    obtain ⟨p, hp, hpk⟩ := List.mem_filterMap.mp hk
    exact List.mem_filterMap.mpr ⟨p, hv.flight p hp, hpk⟩
  refine
    { me := hv.me i, term := le_rfl, self := hv.self i, stood := hv.stood i
      ticker := by simp, candidate := ?_, askNew := ?_, askOld := by simp [Ticker.isElected]
      nodup := ?_, spent := fun v T c hg hc => ?_, grantOld := fun T c hg => ?_
      grantNew := fun v T c hg => ?_
      backed := fun c hc => (hv.backed i c hc).imp (fun h => ⟨h.1, .inr h.2⟩) .inr }
  · simp only [List.mem_map, forall_exists_index, and_imp]
    rintro p j - rfl e args hb
    cases hb; rfl
  · dsimp only
    rw [hkeys]
    simp only [List.mem_map, Prod.mk.injEq, forall_exists_index, and_imp]
    rintro c v T j hj rfl rfl rfl
    have hji : j ≠ i := by simpa [Node.others, hv.me i] using hj
    exact ⟨rfl, hji, le_rfl, rfl⟩
  · dsimp only
    rw [hkeys]
    refine List.Nodup.append hv.nodup ?_ fun k hk hk' => ?_
    · exact ((List.nodup_finRange n).filter _).map fun a b hab => by simpa using hab
    · simp only [List.mem_map] at hk'
      obtain ⟨j, -, rfl⟩ := hk'
      exact lt_irrefl _ (hfresh _ _ (hflight _ hk))
  · dsimp only at hc
    rw [hkeys] at hc
    simp only [List.mem_map, Prod.mk.injEq] at hc
    obtain ⟨j, -, rfl, rfl, rfl⟩ := hc
    exact lt_irrefl _ (hfresh _ _ (hv.granted _ _ _ hg).1)
  · exact (hv.granted i T c hg).2.2.2
  · dsimp only at hg
    rw [hgrants] at hg; cases hg

/-- A vote request that reaches `i` names its sender, is not from `i`, and is the only one of this
    sender for this term. -/
theorem VoteInv.asked_recv (hv : s.VoteInv) {p : Packet n C S} {e : ℕ} {args : RequestVoteArgs n}
    (hb : p.body = .requestVote e args) (hp : (p :: net).Perm s.net) :
    args.candidateId = p.src ∧ s.Asked p.src p.dst args.term ∧ p.src ≠ p.dst ∧
      (p.src, p.dst, args.term) ∈ s.net.filterMap Packet.askKey ∧
      (p.src, p.dst, args.term) ∉ net.filterMap Packet.askKey := by
  have hmem : p ∈ s.net := hp.subset (List.mem_cons_self ..)
  have hkey : p.askKey = some (p.src, p.dst, args.term) := by rw [Packet.askKey, hb]
  have hnd := ((hp.filterMap Packet.askKey).nodup_iff).mpr hv.nodup
  rw [List.filterMap_cons_some hkey, List.nodup_cons] at hnd
  have hasked : s.Asked p.src p.dst args.term :=
    List.mem_filterMap.mpr ⟨p, hv.flight p hmem, hkey⟩
  exact ⟨hv.candidate p hmem e args hb, hasked, (hv.asked _ _ _ hasked).1,
    List.mem_filterMap.mpr ⟨p, hmem, hkey⟩, hnd.1⟩

/-- A refusal changes no vote of the term: `votedFor` is reset only for the candidate it names, and
    that candidate's only request of the term is already spent. -/
theorem VoteInv.keeps_refused (hv : s.VoteInv) {p : Packet n C S} {e : ℕ}
    {args : RequestVoteArgs n} {rf' : Raft n C S} {reply : RequestVoteReply}
    (hb : p.body = .requestVote e args) (hp : (p :: net).Perm s.net)
    (hh : (s.nodes p.dst).rf.requestVote args = some (rf', reply))
    (hr : reply.voteGranted = false) : Raft.Keeps (s.nodes p.dst).rf rf' := by
  obtain ⟨hcand, -, hne, hin, -⟩ := hv.asked_recv hb hp
  rcases Raft.requestVote_cases hh with ⟨-, rfl, rfl⟩ | ⟨hle, hvote, b, -, rfl, rfl⟩
  · exact (Raft.Quiet.refl (s.nodes p.dst).rf).keeps
  obtain rfl : b = false := hr
  rcases hle.lt_or_eq with hlt | heq
  · refine ⟨by simp, .inr ⟨?_, rfl, ?_⟩⟩
    · simpa [Raft.meet_currentTerm hle] using hlt
    · simp [Raft.meet, hlt]
  · have hnone : (s.nodes p.dst).rf.votedFor = none := by
      rcases hvote heq.symm with h | h
      · exact h
      · rw [hcand] at h
        rcases hv.backed p.dst p.src h with h' | h'
        · exact absurd h'.1 hne
        · exact absurd (heq ▸ hin) (hv.granted _ _ _ h').2.1
    refine ⟨by simp, .inl ⟨?_, by simp [hnone], ?_⟩⟩
    · simp [Raft.meet_currentTerm hle, heq]
    · simp [Raft.meet, heq]

/-- The RequestVote handler. -/
theorem VoteInv.voteStep_vote (hv : s.VoteInv) {p : Packet n C S} {e : ℕ}
    {args : RequestVoteArgs n} {rf' : Raft n C S} {reply : RequestVoteReply}
    (hb : p.body = .requestVote e args) (hp : (p :: net).Perm s.net) (hnet : net.Sublist s.net)
    (hh : (s.nodes p.dst).rf.requestVote args = some (rf', reply)) :
    VoteStep s p.dst net
      { node := { s.nodes p.dst with rf := rf' }
        sent := [⟨p.dst, p.src, p.incarnation, .requestVoteReply e args reply⟩] } := by
  cases hr : reply.voteGranted with
  | false =>
    refine hv.voteStep_keeps hnet (hv.keeps_refused hb hp hh hr) (.inl rfl) rfl ?_
    simp only [List.filterMap_cons, List.filterMap_nil, Packet.grantKey, hr]
    rfl
  | true =>
    obtain ⟨hcand, hasked, hne, hin, hout⟩ := hv.asked_recv hb hp
    rcases Raft.requestVote_cases hh with ⟨-, rfl, rfl⟩ | ⟨hle, hvote, b, -, rfl, rfl⟩
    · cases hr
    obtain rfl : b = true := hr
    have hcur : ((s.nodes p.dst).rf.meet args.term).currentTerm = args.term :=
      Raft.meet_currentTerm hle
    -- a vote of this term can only have been for the same candidate
    have hold : args.term = (s.nodes p.dst).rf.currentTerm →
        ∀ c, (s.nodes p.dst).rf.votedFor = some c → c = p.src := by
      intro heq c hc
      rcases hvote heq with h | h
      · rw [h] at hc; cases hc
      · rw [hc, hcand] at h; exact Option.some.inj h
    -- and not for itself
    have hself : ∀ T, T = args.term → T ≤ (s.nodes p.dst).rf.currentTerm →
        (T = (s.nodes p.dst).rf.currentTerm → (s.nodes p.dst).rf.votedFor = some p.dst) →
        False := by
      rintro T rfl hT himp
      have heq := le_antisymm hT hle
      exact hne (hold heq p.dst (himp heq)).symm
    refine
      { me := by simp [hv.me p.dst], term := by simpa [hcur] using hle, self := fun hrole => ?_
        stood := fun hst => ?_, ticker := fun t ht => .inl (hv.ticker _ t ht)
        candidate := by simp, askNew := by rintro _ _ _ ⟨⟩
        askOld := fun v T ha hel => ?_
        nodup := by
          change (net.filterMap Packet.askKey ++ []).Nodup
          rw [List.append_nil]; exact hv.nodup.sublist (hnet.filterMap _)
        spent := by rintro _ _ _ _ ⟨⟩, grantOld := fun T c hg hT => ?_
        grantNew := fun v T c hg => ?_, backed := fun c hc => .inr (.inl ?_) }
    · rcases hle.lt_or_eq with hlt | heq
      · simp [Raft.meet, hlt] at hrole
      · refine (hself _ rfl heq.ge fun h => hv.self p.dst ?_).elim
        simpa [Raft.meet, heq] using hrole
    · have hst' : s.Stood p.dst args.term := by simpa [hcur] using hst
      exact (hself _ rfl (hv.stood_le hst') fun h => hv.stood p.dst (h ▸ hst')).elim
    · have := (hv.asked p.dst v T ha).2.2 hel
      simp only [Raft.persist_currentTerm, hcur]; omega
    · have hT' : T = args.term := by simpa [hcur] using hT
      obtain ⟨-, -, hle', himp⟩ := hv.granted _ T c hg
      have heq : args.term = (s.nodes p.dst).rf.currentTerm := by omega
      simp [hold heq c (himp (hT'.trans heq)), hcand]
    · simp only [List.filterMap_cons, List.filterMap_nil, Packet.grantKey, if_true, List.mem_cons,
        Prod.mk.injEq, List.not_mem_nil, or_false] at hg
      obtain ⟨rfl, rfl, rfl⟩ := hg
      refine ⟨rfl, by simp [hcur], by simp [hcand], hasked, ?_⟩
      change _ ∉ net.filterMap Packet.askKey ++ []
      rwa [List.append_nil]
    · have hc' : p.src = c := by simpa [hcand] using hc
      simp [Packet.grantKey, hcur, hc']

/-- A step keeps the invariant, also a crash if no section is waiting for its `persist`. -/
theorem voteInv_step {s' : Cluster n C S} {e : Event n C S} (hv : s.VoteInv)
    (hok : At Node.CrashPersisted s e) (h : s.step e = .ok s') : s'.VoteInv := by
  obtain ⟨i, inp, net, out, hin, hon, rfl⟩ := step_ok h
  have hnet := input_sublist hin
  refine hv.advance hnet ?_ (Node.on_move hon).saves
  cases Node.on_ballot hon with
  | quiet hrf hinc hvc htick hsent hrecv =>
    obtain ⟨hask, hgrant⟩ := filterMap_eq_nil_of_not_isVote hsent
    exact hv.voteStep_keeps hnet hrf.keeps htick hask hgrant
  | start htick => rw [input_act hin]; exact hv.voteStep_start
  | send htick hargs => rw [input_act hin]; exact hv.voteStep_send htick hargs
  | vote hb hh =>
    obtain ⟨rfl, hp⟩ := input_recv hin
    exact hv.voteStep_vote hb hp hnet hh
  | count hb hinc =>
    exact hv.voteStep_keeps hnet (Raft.keeps_handleRequestVote ..) (.inl rfl) rfl rfl
  | late hinc =>
    exact hv.voteStep_keeps hnet (Raft.Quiet.refl _).keeps (.inl rfl) rfl rfl
  | crash =>
    have hsaved := hv.saved i (hok.at_input hin rfl)
    exact hv.voteStep_keeps hnet hsaved.keeps (.inr rfl) rfl rfl

/-- The invariant along a whole run. -/
theorem voteInv_run {s' : Cluster n C S} {ok : Cluster n C S → Event n C S → Prop}
    (himp : ∀ s e, ok s e → At Node.CrashPersisted s e) (h : Run step ok s s') (hv : s.VoteInv) :
    s'.VoteInv :=
  h.invariant hv fun _ _ e hv hok hs => voteInv_step hv (himp _ e hok) hs

end Cluster
end DistLabs
