import DistLabs.Raft.Specs

/-! # Refused requests

    A vote that is not granted, entries that are not stored and a snapshot that is not installed
    should leave nothing behind but the larger term. The three handlers have eight ways to refuse;
    one of them, a vote refused for the candidate's log, also takes back the vote of the term. -/

namespace DistLabs.Raft

variable {n : ℕ} {C S : Type} {rf rf' : Raft n C S} {t : ℤ}

/-- All that a refused request of term `t` may do. The deferred `persist` saves the state the server
    is in; in memory a request of an older term changes nothing. -/
structure Inert (t : ℤ) (rf rf' : Raft n C S) : Prop where
  logs : rf'.logs = rf.logs
  commitIndex : rf'.commitIndex = rf.commitIndex
  lastApplied : rf'.lastApplied = rf.lastApplied
  lastIncludedIndex : rf'.lastIncludedIndex = rf.lastIncludedIndex
  lastIncludedTerm : rf'.lastIncludedTerm = rf.lastIncludedTerm
  snapshot : rf'.snapshot = rf.snapshot
  nextIndex : rf'.nextIndex = rf.nextIndex
  matchIndex : rf'.matchIndex = rf.matchIndex
  currentTerm : rf'.currentTerm = max rf.currentTerm t
  votedFor : rf'.votedFor ≠ rf.votedFor → rf.currentTerm < t ∧ rf'.votedFor = none
  older : t < rf.currentTerm → rf' = rf ∨ rf' = rf.persist

/-! ### The ways to refuse -/

theorem inert_refl (h : t < rf.currentTerm) : Inert t rf rf where
  logs := rfl
  commitIndex := rfl
  lastApplied := rfl
  lastIncludedIndex := rfl
  lastIncludedTerm := rfl
  snapshot := rfl
  nextIndex := rfl
  matchIndex := rfl
  currentTerm := (max_eq_left h.le).symm
  votedFor hne := absurd rfl hne
  older _ := .inl rfl

theorem inert_persist (h : t ≤ rf.currentTerm) : Inert t rf rf.persist where
  logs := rfl
  commitIndex := rfl
  lastApplied := rfl
  lastIncludedIndex := rfl
  lastIncludedTerm := rfl
  snapshot := rfl
  nextIndex := rfl
  matchIndex := rfl
  currentTerm := (max_eq_left h).symm
  votedFor hne := absurd rfl hne
  older _ := .inr rfl

theorem inert_stepDown (h : rf.currentTerm < t) : Inert t rf (rf.stepDown t).persist where
  logs := rfl
  commitIndex := rfl
  lastApplied := rfl
  lastIncludedIndex := rfl
  lastIncludedTerm := rfl
  snapshot := rfl
  nextIndex := rfl
  matchIndex := rfl
  currentTerm := (max_eq_right h.le).symm
  votedFor _ := ⟨h, rfl⟩
  older hlt := absurd hlt h.le.not_gt

theorem inert_meet (h : rf.currentTerm ≤ t) : Inert t rf (rf.meet t).persist := by
  unfold meet
  split
  · exact inert_stepDown (by assumption)
  · exact inert_persist (by omega)

theorem inert_follow (h : rf.currentTerm ≤ t) : Inert t rf (rf.follow t).persist := by
  unfold follow
  split
  · exact inert_stepDown (by assumption)
  · rename_i hle
    have hkept := inert_persist (not_lt.mp hle)
    exact { hkept with older := fun hlt => absurd hlt h.not_gt }

/-- The vote is taken back only in the server's own term. -/
theorem inert_unvote_iff (h : rf.currentTerm ≤ t) :
    Inert t rf { rf.meet t with votedFor := none }.persist ↔
      ¬ (t = rf.currentTerm ∧ rf.votedFor ≠ none) := by
  unfold meet
  split
  · rename_i hgt
    exact iff_of_true (inert_stepDown hgt) fun hc => absurd hc.1 hgt.ne'
  · rename_i hle
    obtain rfl : t = rf.currentTerm := by omega
    constructor
    · rintro hinert ⟨-, hvote⟩
      exact absurd (hinert.votedFor (Ne.symm hvote)).1 (lt_irrefl _)
    · intro hvote
      have hnone : rf.votedFor = none := not_not.mp fun hne => hvote ⟨rfl, hne⟩
      have heq : { rf with votedFor := none } = rf := by rw [← hnone]
      rw [heq]
      exact inert_persist le_rfl

/-! ### The three handlers -/

theorem requestVote_refused_inert_iff {args : RequestVoteArgs n} {reply : RequestVoteReply}
    (h : rf.requestVote args = some (rf', reply)) (hno : reply.voteGranted = false) :
    Inert args.term rf rf' ↔
      ¬ (args.term = rf.currentTerm ∧ rf.votedFor = some args.candidateId) := by
  rcases requestVote_cases h with ⟨hrefuse, rfl, -⟩ | ⟨hle, hvote, b, -, rfl, rfl⟩
  · refine iff_of_true (inert_persist ?_) ?_
    · rcases hrefuse with hlt | ⟨heq, -⟩
      · exact hlt.le
      · exact heq.le
    · rintro ⟨hterm, hsame⟩
      rcases hrefuse with hlt | ⟨-, -, hother⟩
      · omega
      · exact hother hsame
  · obtain rfl : b = false := hno
    rw [if_neg Bool.false_ne_true, inert_unvote_iff hle]
    refine not_congr (and_congr_right fun hterm => ?_)
    constructor
    · exact fun hne => (hvote hterm).resolve_left hne
    · intro hsame
      rw [hsame]
      exact Option.some_ne_none _

theorem appendEntries_refused_inert {args : AppendEntriesArgs n C} {reply : AppendEntriesReply}
    {go : Bool} (h : rf.appendEntries args = some (rf', reply, go)) (hno : reply.success = false) :
    Inert args.term rf rf' := by
  rcases appendEntries_cases h with ⟨hlt, rfl, -⟩ | ⟨hle, rfl, -⟩ | ⟨-, -, -, -, -, rfl, -⟩
  · exact inert_persist hlt.le
  · exact inert_follow hle
  · cases hno

theorem installSnapshot_refused_inert {args : InstallSnapshotArgs n S}
    {reply : InstallSnapshotReply} (h : rf.installSnapshot args = some (rf', reply, none)) :
    Inert args.term rf rf' := by
  rcases installSnapshot_cases h with ⟨hlt, rfl, -⟩ | ⟨hle, -, ⟨-, rfl, -⟩ | ⟨-, -, hmsg, -⟩⟩
  · exact inert_refl hlt
  · exact inert_meet hle
  · cases hmsg

/-- A refused request is inert, unless it is a `RequestVote` of the server's own term from the
    candidate it has voted for. -/
theorem refused_inert_iff (rf : Raft n C S) :
    (∀ args rf' reply, rf.requestVote args = some (rf', reply) → reply.voteGranted = false →
      (Inert args.term rf rf' ↔
        ¬ (args.term = rf.currentTerm ∧ rf.votedFor = some args.candidateId))) ∧
    (∀ args rf' reply go, rf.appendEntries args = some (rf', reply, go) →
      reply.success = false → Inert args.term rf rf') ∧
    (∀ args rf' reply, rf.installSnapshot args = some (rf', reply, none) →
      Inert args.term rf rf') :=
  ⟨fun _ _ _ h hno => requestVote_refused_inert_iff h hno,
    fun _ _ _ _ h hno => appendEntries_refused_inert h hno,
    fun _ _ _ h => installSnapshot_refused_inert h⟩

/-- A server of term 2 that has voted for server 1 and then stored an entry. -/
def votedForOne : Raft 3 ℕ Unit :=
  { make 0 ⟨none, none⟩ with
    currentTerm := 2
    votedFor := some 1
    logs := [⟨0, none⟩, ⟨2, some 7⟩] }

theorem other_candidate_refused : ∃ rf' reply,
    votedForOne.requestVote ⟨2, 2, 1, 2⟩ = some (rf', reply) ∧ reply.voteGranted = false ∧
      rf'.votedFor = some 1 := by
  refine ⟨_, _, rfl, rfl, ?_⟩
  have hinert := (votedForOne.refused_inert_iff.1 ⟨2, 2, 1, 2⟩ _ _ rfl rfl).mpr (by decide)
  by_contra hne
  exact absurd (hinert.votedFor hne).1 (by decide)

/-- The request of server 1 comes once more, with the log it had when it stood: the vote of term 2
    is taken back. -/
theorem repeated_request_takes_vote_back : ∃ rf' reply,
    votedForOne.requestVote ⟨2, 1, 0, 0⟩ = some (rf', reply) ∧ reply.voteGranted = false ∧
      ¬ Inert 2 votedForOne rf' := by
  refine ⟨_, _, rfl, rfl, fun hinert => ?_⟩
  exact absurd (hinert.votedFor (by decide)).1 (by decide)

end DistLabs.Raft
