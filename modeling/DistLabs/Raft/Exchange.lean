import DistLabs.Raft.Safety
import DistLabs.Raft.Backtrack
import DistLabs.Raft.Bounds

/-! # One exchange between compacted logs

    What a leader and a follower have after one `AppendEntries` and its reply, each with a snapshot
    of its own: an accepted request makes their logs equal, the leader commits the largest index
    that the commit rule allows, and a rejection sends `nextIndex` back. The last of these mixes
    storage and logical indices, and is right only on a log that was never compacted. -/

namespace DistLabs.Raft

variable {n : ℕ} {C S : Type} {rf rf' l f : Raft n C S} {server : Fin n}
  {args : AppendEntriesArgs n C} {reply : AppendEntriesReply}

/-! ### The log after an accepted request -/

/-- Entries of one index and one term are the same, and so is all before them that both logs still
    have. -/
def LogMatch (rf rf' : Raft n C S) : Prop :=
  ∀ index e e', rf.lastIncludedIndex < index → rf'.lastIncludedIndex < index →
    rf.entryAt index = some e → rf'.entryAt index = some e' → e.term = e'.term →
    e.command = e'.command ∧ ∀ k, rf.lastIncludedIndex < k → rf'.lastIncludedIndex < k → k < index →
      rf.entryAt k = rf'.entryAt k

theorem LogMatch.of_agree (h : ∀ k, rf.lastIncludedIndex < k → rf'.lastIncludedIndex < k →
    rf'.entryAt k = rf.entryAt k) : rf.LogMatch rf' := by
  intro index e e' hi hi' he he' _
  rw [h index hi hi', he] at he'
  exact ⟨by rw [Option.some.inj he'], fun k hk hk' _ => (h k hk hk').symm⟩

theorem getLastLogicalIndex_stored (hlow : rf.lastIncludedIndex ≤ args.prevLogIndex)
    (hlast : args.prevLogIndex ≤ rf.getLastLogicalIndex) :
    (rf.stored args).getLastLogicalIndex = args.prevLogIndex + args.entries.length := by
  rw [getLastLogicalIndex] at hlast
  rw [getLastLogicalIndex, stored_lastIncludedIndex, stored, List.length_append, List.length_take]
  push_cast
  omega

/-- Up to `PrevLogIndex` the follower keeps what it has. -/
theorem entryAt_stored_of_le {k : ℤ} (hlast : args.prevLogIndex ≤ rf.getLastLogicalIndex)
    (hlow : rf.lastIncludedIndex ≤ k) (hk : k ≤ args.prevLogIndex) :
    (rf.stored args).entryAt k = rf.entryAt k := by
  rw [getLastLogicalIndex] at hlast
  rw [entryAt_eq (by rwa [stored_lastIncludedIndex]), entryAt_eq hlow, stored_lastIncludedIndex,
    stored, List.getElem?_append_left (by rw [List.length_take]; omega),
    List.getElem?_take_of_lt (by omega)]

/-- Behind `PrevLogIndex` the follower has what was sent. -/
theorem entryAt_stored_of_gt {k : ℤ} (hlow : rf.lastIncludedIndex ≤ args.prevLogIndex)
    (hlast : args.prevLogIndex ≤ rf.getLastLogicalIndex) (hk : args.prevLogIndex < k) :
    (rf.stored args).entryAt k = args.entries[(k - args.prevLogIndex - 1).toNat]? := by
  rw [getLastLogicalIndex] at hlast
  have hlen : (rf.logs.take (args.prevLogIndex - rf.lastIncludedIndex + 1).toNat).length
      = (args.prevLogIndex - rf.lastIncludedIndex + 1).toNat := by
    rw [List.length_take]
    omega
  rw [entryAt_eq (by rw [stored_lastIncludedIndex]; omega), stored_lastIncludedIndex, stored,
    List.getElem?_append_right (by rw [hlen]; omega), hlen]
  congr 1
  omega

/-- A follower that accepts what the leader has just built holds the leader's log. -/
theorem entryAt_stored_eq (hmatch : l.LogMatch f)
    (hgen : l.genAppendEntries server = some (args, false))
    (hlow : f.lastIncludedIndex ≤ args.prevLogIndex)
    (hlast : args.prevLogIndex ≤ f.getLastLogicalIndex)
    (hterm : 0 < args.prevLogIndex - f.lastIncludedIndex →
      f.termAt (args.prevLogIndex - f.lastIncludedIndex) = some args.prevLogTerm)
    {k : ℤ} (hl : l.lastIncludedIndex < k) (hf : f.lastIncludedIndex < k) :
    (f.stored args).entryAt k = l.entryAt k := by
  obtain ⟨-, -, hbuilt⟩ := genAppendEntries_eq_some hgen
  obtain ⟨hprev, -, hprevTerm, hentries, -⟩ := hbuilt rfl
  rcases lt_or_ge args.prevLogIndex k with hk | hk
  · rw [entryAt_stored_of_gt hlow hlast hk, entryAt_eq hl.le, hentries, List.getElem?_drop]
    congr 1
    omega
  · -- the entries at `PrevLogIndex` have one term, so the logs match up to there
    obtain ⟨e, he, heterm⟩ := Option.map_eq_some_iff.mp hprevTerm
    obtain ⟨e', he', hterm'⟩ := Option.map_eq_some_iff.mp (hterm (by omega))
    obtain ⟨hcommand, hbelow⟩ := hmatch args.prevLogIndex e e' (by omega) (by omega) he he'
      (heterm.trans hterm'.symm)
    rw [entryAt_stored_of_le hlast hf.le hk]
    rcases hk.lt_or_eq with hk | rfl
    · exact (hbelow k hl hf hk).symm
    · have : e = e' := by
        cases e
        cases e'
        simp_all
      rw [entryAt, convertToStorageIndex, he', ← this, ← he]
      rfl

/-- The request reaches to the end of the leader's log. -/
theorem genAppendEntries_last (hgen : l.genAppendEntries server = some (args, false)) :
    args.prevLogIndex + args.entries.length = l.getLastLogicalIndex := by
  obtain ⟨-, -, hbuilt⟩ := genAppendEntries_eq_some hgen
  obtain ⟨hprev, hlen, -, hentries, -⟩ := hbuilt rfl
  rw [hentries, List.length_drop, getLastLogicalIndex]
  omega

/-! ### The leader after a successful reply -/

theorem handleAppendEntries_success (hrole : rf.role = .Leader)
    (hterm : reply.term ≤ rf.currentTerm) (hs : reply.success = true) :
    rf.handleAppendEntries server args reply = ((rf.matched server args).advanceCommit
      (rf.getLastLogicalIndex - rf.commitIndex).toNat).map fun x => (x.1.persist, x.2) := by
  rw [handleAppendEntries_eq_of_success _ _ _ hs, if_neg (not_not.mpr hrole),
    if_neg (not_lt.mpr hterm)]

theorem exists_advanceCommit_matched (server : Fin n) (args : AppendEntriesArgs n C)
    (hlii : rf.lastIncludedIndex ≤ rf.commitIndex + 1) :
    ∃ r, (rf.matched server args).advanceCommit
      (rf.getLastLogicalIndex - rf.commitIndex).toNat = some r := by
  refine (rf.matched server args).exists_advanceCommit hlii fun hpos => ?_
  change rf.commitIndex + _ ≤ rf.getLastLogicalIndex
  omega

theorem advanceCommit_matchIndex {k : ℕ} {go : Bool} (h : rf.advanceCommit k = some (rf', go)) :
    rf'.matchIndex = rf.matchIndex := by
  rcases advanceCommit_cases h with ⟨rfl, -⟩ | ⟨-, idx, t, -, -, -, -, rfl⟩ <;> rfl

/-- One request of a leader and its reply, whatever the two have compacted: accepted, it makes the
    follower's log the leader's and `matchIndex` its end; refused, it changes neither the log nor
    `commitIndex`. The commit loop that follows can leave the log only if `commitIndex` has fallen
    behind the snapshot. -/
theorem replication_step (hrole : l.role = .Leader)
    (hcommit : l.commitIndex ≤ l.getLastLogicalIndex) (hmatch : l.LogMatch f)
    (hgen : l.genAppendEntries server = some (args, false))
    (hlow : f.lastIncludedIndex ≤ args.prevLogIndex) :
    ∃ f' reply go, f.appendEntries args = some (f', reply, go) ∧
      (reply.success = true →
        f'.lastIncludedIndex = f.lastIncludedIndex ∧
        f'.getLastLogicalIndex = l.getLastLogicalIndex ∧
        (∀ k, l.lastIncludedIndex < k → f'.lastIncludedIndex < k →
          f'.entryAt k = l.entryAt k) ∧
        l.LogMatch f' ∧
        f'.commitIndex
          = (if l.commitIndex > f.commitIndex then l.commitIndex else f.commitIndex) ∧
        (∀ l' go', l.handleAppendEntries server args reply = some (l', go') →
          l'.matchIndex server = f'.getLastLogicalIndex) ∧
        (l.lastIncludedIndex ≤ l.commitIndex + 1 →
          ∃ l' go', l.handleAppendEntries server args reply = some (l', go'))) ∧
      (reply.success = false →
        f'.logs = f.logs ∧ f'.lastIncludedIndex = f.lastIncludedIndex ∧
        f'.commitIndex = f.commitIndex) := by
  have hanswers : f.appendEntries args ≠ none := appendEntries_ne_none fun _ => by omega
  obtain ⟨⟨f', reply, go⟩, hf⟩ := Option.ne_none_iff_exists'.mp hanswers
  refine ⟨f', reply, go, hf, ?_⟩
  rcases appendEntries_cases hf with ⟨-, rfl, rfl, -⟩ | ⟨-, rfl, hs, -⟩ |
    ⟨-, hlast, -, hterm, rfl, rfl, -⟩
  · exact ⟨nofun, fun _ => ⟨rfl, rfl, rfl⟩⟩
  · exact ⟨fun h => absurd (hs.symm.trans h) nofun, fun _ => by simp⟩
  refine ⟨fun _ => ?_, nofun⟩
  obtain ⟨hcur, -, hbuilt⟩ := genAppendEntries_eq_some hgen
  obtain ⟨-, -, -, -, hleader⟩ := hbuilt rfl
  have hagree : ∀ k, l.lastIncludedIndex < k → (f.stored args).lastIncludedIndex < k →
      (f.stored args).entryAt k = l.entryAt k := by
    intro k hl hk
    rw [stored_lastIncludedIndex] at hk
    exact entryAt_stored_eq hmatch hgen hlow hlast hterm hl hk
  have hlast' : (f.stored args).getLastLogicalIndex = l.getLastLogicalIndex := by
    rw [getLastLogicalIndex_stored hlow hlast, genAppendEntries_last hgen]
  refine ⟨by simp, hlast', hagree, .of_agree hagree, ?_, ?_, fun hlii => ?_⟩
  · rw [persist_commitIndex, stored_commitIndex, hlast', hleader, newCommit]
    split <;> rename_i hgt
    · split <;> omega
    · rfl
  · intro l' go' hl'
    rw [handleAppendEntries_success hrole hcur.le rfl] at hl'
    obtain ⟨⟨x, go''⟩, hx, heq⟩ := Option.map_eq_some_iff.mp hl'
    obtain ⟨rfl, rfl⟩ := Prod.mk.inj heq
    have hmatched : x.matchIndex server = args.prevLogIndex + args.entries.length := by
      rw [advanceCommit_matchIndex hx]
      exact Function.update_self ..
    rw [persist_matchIndex, hmatched, genAppendEntries_last hgen]
    exact hlast'.symm
  · obtain ⟨r, hr⟩ := exists_advanceCommit_matched server args hlii
    rw [handleAppendEntries_success hrole hcur.le rfl, hr]
    exact ⟨_, _, rfl⟩

/-- A leader of term 2 that has compacted index 1, about to send its entry at index 4. -/
def leaderFrom1 : Raft 2 ℕ Unit :=
  { make leaderOfThree.me ⟨none, none⟩ with
    currentTerm := 2
    logs := [⟨1, none⟩, ⟨1, some 5⟩, ⟨1, some 6⟩, ⟨2, some 7⟩]
    commitIndex := 3
    nextIndex := fun _ => 4
    role := .Leader
    lastIncludedIndex := 1
    lastIncludedTerm := 1 }

/-- A follower that has compacted index 2 and holds an entry of term 1 at index 4. -/
def followerFrom2 : Raft 2 ℕ Unit :=
  { make followerOfTwo.me ⟨none, none⟩ with
    currentTerm := 1
    logs := [⟨1, none⟩, ⟨1, some 6⟩, ⟨1, some 8⟩]
    commitIndex := 2
    lastIncludedIndex := 2
    lastIncludedTerm := 1 }

def sentFrom4 : AppendEntriesArgs 2 ℕ := ⟨2, leaderFrom1.me, 3, 1, [⟨2, some 7⟩], 3⟩

theorem logMatch_followerFrom2 : leaderFrom1.LogMatch followerFrom2 := by
  intro index e e' hl hf he he' hterm
  have hlow : 2 < index := hf
  have hhigh : index ≤ 4 := entryAt_le he'
  obtain rfl | rfl : index = 3 ∨ index = 4 := by omega
  · cases he
    cases he'
    exact ⟨rfl, fun k _ hk hlt => absurd hlt (by have : 2 < k := hk; omega)⟩
  · cases he
    cases he'
    cases hterm

theorem replication_step_overwrites : ∃ f' reply go,
    followerFrom2.appendEntries sentFrom4 = some (f', reply, go) ∧ reply.success = true ∧
      f'.getLastLogicalIndex = 4 ∧ f'.entryAt 4 = some ⟨2, some 7⟩ ∧ f'.commitIndex = 3 := by
  obtain ⟨f', reply, go, hf, hyes, -⟩ := replication_step rfl (by decide) logMatch_followerFrom2
    (show leaderFrom1.genAppendEntries 1 = some (sentFrom4, false) from rfl) (by decide)
  have hs : reply.success = true := by
    cases hf
    rfl
  obtain ⟨hlii, hlast, hagree, -, hcommit, -⟩ := hyes hs
  refine ⟨f', reply, go, hf, hs, hlast, ?_, hcommit⟩
  rw [hagree 4 (by decide) (by rw [hlii]; decide)]
  rfl

/-! ### The commit rule -/

/-- The leader may commit up to `m`: the entry there is new and of its own term, and it and the
    peers that hold the log up to there are more than half of the cluster. -/
structure Committable (rf : Raft n C S) (m : ℤ) : Prop where
  new : rf.commitIndex < m
  inLog : m ≤ rf.getLastLogicalIndex
  term : rf.termAt (rf.convertToStorageIndex m) = some rf.currentTerm
  majority : n < 2 * (Shadow.replicas rf m).card

/-- No index that the loop has passed is counted by a majority. -/
theorem advanceCommit_above : ∀ {k : ℕ} {go : Bool}, rf.advanceCommit k = some (rf', go) →
    ∀ {m t : ℤ}, rf'.commitIndex < m → m ≤ rf.commitIndex + k →
      rf.termAt (rf.convertToStorageIndex m) = some t → rf.replicaCount m t ≤ n / 2
  | 0, go, h, m, t, hlow, hhigh, _ => by
    obtain ⟨rfl, -⟩ := Prod.mk.inj (Option.some.inj h)
    omega
  | k + 1, go, h, m, t, hlow, hhigh, ht => by
    rw [advanceCommit] at h
    split at h
    · cases h
    rename_i t' ht'
    split at h
    · obtain ⟨rfl, -⟩ := Prod.mk.inj (Option.some.inj h)
      exact absurd hlow (not_lt.mpr hhigh)
    · rename_i hcount
      rcases hhigh.lt_or_eq with hlt | rfl
      · exact advanceCommit_above h hlow (by push_cast at hlt; omega) ht
      · rw [ht', Option.some.injEq] at ht
        exact ht ▸ not_lt.mp hcount

/-- An entry of an older term counts for the leader alone, which is no majority of two or more. -/
theorem replicaCount_le_of_term_ne (hn : 2 ≤ n) {m t : ℤ} (ht : t ≠ rf.currentTerm) :
    rf.replicaCount m t ≤ n / 2 := by
  rw [replicaCount, if_neg ht]
  omega

/-- The loop over `n` finds the largest index that may be committed, if there is one. -/
theorem advanceCommit_greatest (hn : 2 ≤ n) {k : ℕ} {go : Bool}
    (hk : k = (rf.getLastLogicalIndex - rf.commitIndex).toNat)
    (h : rf.advanceCommit k = some (rf', go)) :
    IsGreatest {m | rf.Committable m} rf'.commitIndex ∨
      (∀ m, ¬ rf.Committable m) ∧ rf'.commitIndex = rf.commitIndex := by
  have habove : ∀ m, rf.Committable m → m ≤ rf'.commitIndex := by
    intro m hm
    by_contra hlt
    have hcount := advanceCommit_above h (not_le.mp hlt) (by have := hm.inLog; omega) hm.term
    have hmaj := hm.majority
    rw [Shadow.card_replicas] at hmaj
    omega
  rcases advanceCommit_cases h with ⟨rfl, -⟩ | ⟨-, idx, t, hlow, hhigh, ht, hcount, rfl⟩
  · exact .inr ⟨fun m hm => absurd (habove m hm) (not_le.mpr hm.new), rfl⟩
  · have hlast : idx ≤ rf.getLastLogicalIndex := by omega
    obtain rfl : t = rf.currentTerm := by
      by_contra hne
      exact absurd (replicaCount_le_of_term_ne hn hne) (not_le.mpr hcount)
    have hmaj : n < 2 * (Shadow.replicas rf idx).card := by
      rw [Shadow.card_replicas]
      omega
    exact .inl ⟨⟨hlow, hlast, ht, hmaj⟩, habove⟩

/-- A leader that handles a success moves `commitIndex` to the largest index of its own term that a
    strict majority of the peers holds, and leaves it where it is if there is none. -/
theorem commit_rule (server : Fin n) (args : AppendEntriesArgs n C) (hn : 2 ≤ n)
    (hrole : rf.role = .Leader) (hlii : rf.lastIncludedIndex ≤ rf.commitIndex)
    (hterm : reply.term ≤ rf.currentTerm) (hs : reply.success = true) :
    ∃ rf' go, rf.handleAppendEntries server args reply = some (rf', go) ∧
      rf'.matchIndex
        = Function.update rf.matchIndex server (args.prevLogIndex + args.entries.length) ∧
      (IsGreatest {m | (rf.matched server args).Committable m} rf'.commitIndex ∨
        (∀ m, ¬ (rf.matched server args).Committable m) ∧ rf'.commitIndex = rf.commitIndex) ∧
      rf.commitIndex ≤ rf'.commitIndex ∧
      (rf'.commitIndex ≠ rf.commitIndex →
        rf.termAt (rf.convertToStorageIndex rf'.commitIndex) = some rf.currentTerm) := by
  have hlow : rf.lastIncludedIndex ≤ rf.commitIndex + 1 := by omega
  obtain ⟨⟨x, go⟩, hx⟩ := exists_advanceCommit_matched server args hlow
  refine ⟨x.persist, go, by rw [handleAppendEntries_success hrole hterm hs, hx]; rfl, ?_, ?_⟩
  · rw [persist_matchIndex, advanceCommit_matchIndex hx]
    rfl
  have hrule := advanceCommit_greatest hn rfl hx
  refine ⟨hrule, ?_⟩
  rcases hrule with ⟨hmax, -⟩ | ⟨-, heq⟩
  · exact ⟨hmax.new.le, fun _ => hmax.term⟩
  · exact ⟨heq.ge, fun hne => absurd heq hne⟩

/-- A leader of term 2 among three, with two entries of term 1 and one of its own. -/
def leaderOfTermTwo [NeZero n] : Raft n ℕ Unit :=
  { make 0 ⟨none, none⟩ with
    currentTerm := 2
    logs := [⟨1, none⟩, ⟨1, some 5⟩, ⟨1, some 6⟩, ⟨2, some 7⟩]
    commitIndex := 1
    matchIndex := fun _ => -1
    role := .Leader
    lastIncludedIndex := 1
    lastIncludedTerm := 1 }

/-- All its entries, and the reply that they were stored. -/
def sentFrom2 [NeZero n] : AppendEntriesArgs n ℕ :=
  ⟨2, 0, 1, 1, [⟨1, some 5⟩, ⟨1, some 6⟩, ⟨2, some 7⟩], 1⟩

def storedInTwo : AppendEntriesReply := ⟨2, true, 0, 0⟩

theorem commit_rule_own_entry : ∃ rf' go,
    (leaderOfTermTwo (n := 3)).handleAppendEntries 2 sentFrom2 storedInTwo = some (rf', go) ∧
      rf'.commitIndex = 4 := by
  obtain ⟨rf', go, h, -, hrule, -⟩ := commit_rule 2 sentFrom2 (by decide)
    (show (leaderOfTermTwo (n := 3)).role = .Leader from rfl) (by decide)
    (show storedInTwo.term ≤ _ by decide) rfl
  have hfour : ((leaderOfTermTwo (n := 3)).matched 2 sentFrom2).Committable 4 :=
    ⟨by decide, by decide, rfl, by decide⟩
  refine ⟨rf', go, h, ?_⟩
  rcases hrule with hmax | ⟨hnone, -⟩
  · exact le_antisymm hmax.1.inLog (hmax.2 hfour)
  · exact absurd hfour (hnone 4)

/-! ### Backtracking on a compacted log -/

/-- The logical indices before `nextIndex[server]` at which the log, marker included, has term
    `t`. -/
def heldBefore (rf : Raft n C S) (server : Fin n) (t : ℤ) : Set ℤ :=
  {j | rf.lastIncludedIndex ≤ j ∧ j < rf.nextIndex server ∧
    rf.termAt (rf.convertToStorageIndex j) = some t}

/-- `nextIndex[server]` after the reply was handled. -/
def nextAfter (rf : Raft n C S) (server : Fin n) (args : AppendEntriesArgs n C)
    (reply : AppendEntriesReply) : Option ℤ :=
  (rf.handleAppendEntries server args reply).map fun x => x.1.nextIndex server

/-- A rejection that a leader of at least its term handles, for an entry within the log. -/
structure Rejects (rf : Raft n C S) (server : Fin n) (reply : AppendEntriesReply) : Prop where
  role : rf.role = .Leader
  sorted : (rf.logs.map LogEntry.term).Pairwise (· ≤ ·)
  next : rf.lastIncludedIndex < rf.nextIndex server ∧
    rf.nextIndex server ≤ rf.getLastLogicalIndex + 1
  term : reply.term ≤ rf.currentTerm
  rejected : reply.success = false
  conflictTerm : reply.conflictTerm ≠ 0

theorem mem_heldBefore {t : ℤ} {m : ℕ} {e : LogEntry C} (he : rf.logs[m]? = some e)
    (ht : e.term = t) (hm : m + rf.lastIncludedIndex < rf.nextIndex server) :
    m + rf.lastIncludedIndex ∈ rf.heldBefore server t := by
  refine ⟨by omega, hm, ?_⟩
  rw [convertToStorageIndex, add_sub_cancel_right, termAt_natCast, he, ← ht]
  rfl

theorem exists_of_mem_heldBefore {t j : ℤ} (h : j ∈ rf.heldBefore server t) :
    ∃ (m : ℕ) (e : LogEntry C), j = m + rf.lastIncludedIndex ∧ rf.logs[m]? = some e ∧
      e.term = t := by
  obtain ⟨hlow, -, hterm⟩ := h
  obtain ⟨e, he, rfl⟩ := Option.map_eq_some_iff.mp hterm
  obtain ⟨-, hget⟩ := Slice.index_eq_some.mp he
  rw [convertToStorageIndex] at hget
  exact ⟨(j - rf.lastIncludedIndex).toNat, e, by omega, hget, rfl⟩

/-- The last place of a term that is held at all. -/
theorem exists_greatest_heldBefore {t : ℤ} (h : (rf.heldBefore server t).Nonempty) :
    ∃ j, IsGreatest (rf.heldBefore server t) j := by
  have hbound : ∀ j ∈ rf.heldBefore server t, j ≤ rf.nextIndex server := fun j hj => hj.2.1.le
  obtain ⟨j, hj, hmax⟩ := Int.exists_greatest_of_bdd ⟨_, hbound⟩ h
  exact ⟨j, hj, hmax⟩

/-- What the code computes: the last entry of the conflict term counted from the marker, not from
    index 0, or the conflict index. -/
theorem Rejects.nextAfter (h : rf.Rejects server reply) (args : AppendEntriesArgs n C) :
    (∀ j, IsGreatest (rf.heldBefore server reply.conflictTerm) j →
      rf.nextAfter server args reply = some (j - rf.lastIncludedIndex + 1)) ∧
    (rf.heldBefore server reply.conflictTerm = ∅ →
      rf.nextAfter server args reply = some reply.conflictIndex) := by
  obtain ⟨hlow, hhigh⟩ := h.next
  rw [getLastLogicalIndex] at hhigh
  have hk : (rf.convertToStorageIndex (rf.nextIndex server - 1) + 1).toNat
      = (rf.nextIndex server - rf.lastIncludedIndex).toNat := by
    rw [convertToStorageIndex]
    omega
  have hinLog : (rf.nextIndex server - rf.lastIncludedIndex).toNat ≤ rf.logs.length := by omega
  obtain ⟨x, hx, hlt, hstop, hall⟩ := backtrack_stops (t := reply.conflictTerm) hinLog
  have hnext : rf.nextAfter server args reply = some
      (if x ≥ 0 ∧ rf.termAt x = some reply.conflictTerm then x + 1 else reply.conflictIndex) := by
    rw [Raft.nextAfter, handleAppendEntries_rejected h.role h.term h.rejected,
      backUp_eq h.conflictTerm (by rw [hk]; exact hx)]
    simp
  rw [hnext]
  constructor
  · intro j hj
    obtain ⟨m, e, rfl, he, hterm⟩ := exists_of_mem_heldBefore hj.1
    have hm := hj.1.2.1
    -- the scan does not pass the last entry of the term, and stops there as the terms are sorted
    have hle : (m : ℤ) ≤ x := by
      by_contra hgt
      exact absurd (hall m e (by omega) (by omega) he) (by omega)
    obtain rfl | ⟨m', e', rfl, he', hle'⟩ := hstop
    · omega
    have hterm' : e'.term = reply.conflictTerm := by
      have := term_le_of_sorted h.sorted (by omega : m ≤ m') he he'
      omega
    have := hj.2 (mem_heldBefore he' hterm' (by omega))
    obtain rfl : m = m' := by omega
    rw [if_pos ⟨by omega, by rw [termAt_natCast, he', ← hterm']; rfl⟩, add_sub_cancel_right]
  · intro hnone
    rw [if_neg]
    rintro ⟨hpos, hterm⟩
    obtain rfl | ⟨m', e', rfl, he', -⟩ := hstop
    · omega
    rw [termAt_natCast, he', Option.map_some, Option.some.injEq] at hterm
    have hmem : m' + rf.lastIncludedIndex ∈ rf.heldBefore server reply.conflictTerm :=
      mem_heldBefore he' hterm (by omega)
    rw [hnone] at hmem
    exact hmem

/-- A compaction keeps the terms from the new marker on. -/
theorem terms_snapshotTo {i : ℤ} {data : Option S} (hi : rf.lastIncludedIndex < i)
    (h : rf.snapshotTo i data = some rf') :
    rf'.lastIncludedIndex = i ∧ rf'.logs.map LogEntry.term
      = (rf.logs.map LogEntry.term).drop (i - rf.lastIncludedIndex).toNat := by
  rcases snapshotTo_cases h with ⟨hle, -⟩ | ⟨-, -, e, rest, hdrop, rfl⟩
  · omega
  · refine ⟨rfl, ?_⟩
    rw [← List.map_drop, hdrop]
    rfl

theorem termAt_eq {x : ℤ} (h : 0 ≤ x) : rf.termAt x = (rf.logs.map LogEntry.term)[x.toNat]? := by
  rw [termAt, Slice.index, if_pos h, List.getElem?_map]

theorem termAt_snapshotTo {i j : ℤ} {data : Option S} (hi : rf.lastIncludedIndex < i)
    (h : rf.snapshotTo i data = some rf') (hj : i ≤ j) :
    rf'.termAt (rf'.convertToStorageIndex j) = rf.termAt (rf.convertToStorageIndex j) := by
  obtain ⟨hlii, hterms⟩ := terms_snapshotTo hi h
  rw [convertToStorageIndex, convertToStorageIndex, hlii, termAt_eq (by omega),
    termAt_eq (by omega), hterms, List.getElem?_drop]
  congr 1
  omega

/-- The same reply, after a compaction below the last entry of the conflict term. -/
theorem Rejects.nextAfter_snapshotTo (h : rf.Rejects server reply) (args : AppendEntriesArgs n C)
    {i j : ℤ} {data : Option S} (hj : IsGreatest (rf.heldBefore server reply.conflictTerm) j)
    (hi : rf.lastIncludedIndex < i) (hij : i ≤ j) (hsnap : rf.snapshotTo i data = some rf') :
    rf'.nextAfter server args reply = some (j - i + 1) := by
  obtain ⟨hlii, hterms⟩ := terms_snapshotTo hi hsnap
  have hkept : rf'.role = rf.role ∧ rf'.currentTerm = rf.currentTerm ∧
      rf'.nextIndex = rf.nextIndex := by
    rcases snapshotTo_cases hsnap with ⟨-, rfl⟩ | ⟨-, -, e, rest, -, rfl⟩ <;>
      exact ⟨rfl, rfl, rfl⟩
  have hlast : rf'.getLastLogicalIndex = rf.getLastLogicalIndex := by
    have hlen := congrArg List.length hterms
    have := h.next.2
    have := hj.1.2.1
    rw [List.length_map, List.length_drop, List.length_map] at hlen
    rw [getLastLogicalIndex] at *
    rw [getLastLogicalIndex, hlii]
    omega
  have hheld : ∀ j', j' ∈ rf'.heldBefore server reply.conflictTerm ↔
      i ≤ j' ∧ j' ∈ rf.heldBefore server reply.conflictTerm := by
    intro j'
    constructor
    · rintro ⟨hle, hlt, ht⟩
      rw [hlii] at hle
      rw [hkept.2.2] at hlt
      exact ⟨hle, by omega, hlt, termAt_snapshotTo hi hsnap hle ▸ ht⟩
    · rintro ⟨hle, -, hlt, ht⟩
      exact ⟨by rwa [hlii], by rwa [hkept.2.2], (termAt_snapshotTo hi hsnap hle).trans ht⟩
  have hrejects : rf'.Rejects server reply := by
    refine ⟨hkept.1 ▸ h.role, ?_, ?_, hkept.2.1 ▸ h.term, h.rejected, h.conflictTerm⟩
    · rw [hterms]
      exact h.sorted.sublist (List.drop_sublist ..)
    · rw [hlii, hlast, hkept.2.2]
      exact ⟨hij.trans_lt hj.1.2.1, h.next.2⟩
  rw [← hlii]
  exact (hrejects.nextAfter args).1 j
    ⟨(hheld j).mpr ⟨hij, hj.1⟩, fun j' hj' => hj.2 ((hheld j').mp hj').2⟩

/-- A rejection sends `nextIndex` behind the last entry of the conflict term, and a `Snapshot` up to
    that entry makes no difference, exactly where no such entry is held or neither the log nor the
    `Snapshot` is a compaction. -/
theorem backtracks_iff_uncompacted (h : rf.Rejects server reply) (args : AppendEntriesArgs n C)
    (i : ℤ) (data : Option S) :
    ((∀ j, IsGreatest (rf.heldBefore server reply.conflictTerm) j →
        rf.nextAfter server args reply = some (j + 1)) ∧
      (rf.heldBefore server reply.conflictTerm = ∅ →
        rf.nextAfter server args reply = some reply.conflictIndex) ∧
      ∀ j, IsGreatest (rf.heldBefore server reply.conflictTerm) j → i ≤ j →
        ∃ snap, rf.snapshotTo i data = some snap ∧
          snap.nextAfter server args reply = rf.nextAfter server args reply) ↔
    rf.heldBefore server reply.conflictTerm = ∅ ∨
      rf.lastIncludedIndex = 0 ∧ ∀ j ∈ rf.heldBefore server reply.conflictTerm, i ≤ j → i ≤ 0 := by
  obtain ⟨hfound, hnone⟩ := h.nextAfter args
  rcases Set.eq_empty_or_nonempty (rf.heldBefore server reply.conflictTerm) with hempty | hheld
  · refine iff_of_true ⟨fun j hj => ?_, hnone, fun j hj => ?_⟩ (.inl hempty) <;>
      exact absurd hj.1 (hempty ▸ Set.notMem_empty j)
  obtain ⟨j, hj⟩ := exists_greatest_heldBefore hheld
  constructor
  · rintro ⟨hnext, -, hsame⟩
    have hzero : rf.lastIncludedIndex = 0 := by
      have := (hfound j hj).symm.trans (hnext j hj)
      rw [Option.some.injEq] at this
      omega
    refine .inr ⟨hzero, fun j' hj' hi => ?_⟩
    by_contra hpos
    have hij : i ≤ j := hi.trans (hj.2 hj')
    obtain ⟨snap, hsnap, heq⟩ := hsame j hj hij
    rw [h.nextAfter_snapshotTo args hj (by omega) hij hsnap, hfound j hj, Option.some.injEq] at heq
    omega
  · rintro (hempty | ⟨hzero, hi⟩)
    · exact absurd hempty hheld.ne_empty
    refine ⟨fun j hj => ?_, hnone, fun j hj hij => ⟨rf, ?_, rfl⟩⟩
    · rw [hfound j hj, hzero, sub_zero]
    · rw [snapshotTo, if_pos (by rw [hzero]; exact hi j hj.1 hij)]

theorem leaderOfThree_goes_behind_one :
    leaderOfThree.nextAfter 1 ⟨3, 0, 4, 3, [], 0⟩ ⟨3, false, 1, 1⟩ = some 3 := by
  have hrejects : leaderOfThree.Rejects 1 ⟨3, false, 1, 1⟩ :=
    ⟨rfl, by decide, by decide, by decide, rfl, by decide⟩
  have hheld : IsGreatest (leaderOfThree.heldBefore 1 1) 2 := by
    refine ⟨⟨by decide, by decide, rfl⟩, fun j ⟨_, hlt, hterm⟩ => ?_⟩
    have hlt : j < 5 := hlt
    by_contra hgt
    obtain rfl | rfl : j = 3 ∨ j = 4 := by omega
    all_goals cases hterm
  exact ((backtracks_iff_uncompacted hrejects _ 0 none).mpr
    (.inr ⟨rfl, fun _ _ _ => le_rfl⟩)).1 2 hheld

/-- A leader of term 3 that has compacted index 2 and holds an entry of term 2 at index 3. -/
def compactedLeader : Raft 2 ℕ Unit :=
  { make leaderOfThree.me ⟨none, none⟩ with
    currentTerm := 3
    logs := [⟨1, none⟩, ⟨2, some 5⟩, ⟨3, some 6⟩]
    commitIndex := 2
    lastApplied := 2
    nextIndex := fun _ => 5
    role := .Leader
    lastIncludedIndex := 2
    lastIncludedTerm := 1 }

/-- The heartbeat behind index 4, and its rejection by a follower with entries of term 2 at 3 and
    4. -/
def heartbeatAt4 : AppendEntriesArgs 2 ℕ := ⟨3, compactedLeader.me, 4, 3, [], 2⟩

def conflictInTwo : AppendEntriesReply := ⟨3, false, 3, 2⟩

/-- The leader goes back to 2 instead of 4, and after `Snapshot(3)` to 1. -/
theorem compacted_leader_falls_behind : compactedLeader.Rejects 1 conflictInTwo ∧
    ¬ (∀ j, IsGreatest (compactedLeader.heldBefore 1 conflictInTwo.conflictTerm) j →
      compactedLeader.nextAfter 1 heartbeatAt4 conflictInTwo = some (j + 1)) ∧
    ¬ (∀ j, IsGreatest (compactedLeader.heldBefore 1 conflictInTwo.conflictTerm) j → 3 ≤ j →
      ∃ snap, compactedLeader.snapshotTo 3 none = some snap ∧
        snap.nextAfter 1 heartbeatAt4 conflictInTwo
          = compactedLeader.nextAfter 1 heartbeatAt4 conflictInTwo) := by
  have hheld : IsGreatest (compactedLeader.heldBefore 1 conflictInTwo.conflictTerm) 3 := by
    refine ⟨⟨by decide, by decide, rfl⟩, fun j ⟨_, hlt, hterm⟩ => ?_⟩
    have hlt : j < 5 := hlt
    by_contra hgt
    obtain rfl : j = 4 := by omega
    cases hterm
  have hnext : compactedLeader.nextAfter 1 heartbeatAt4 conflictInTwo = some 2 := rfl
  refine ⟨⟨rfl, by decide, by decide, by decide, rfl, by decide⟩, fun h => ?_, fun h => ?_⟩
  · cases hnext.symm.trans (h 3 hheld)
  · obtain ⟨snap, hsnap, heq⟩ := h 3 hheld le_rfl
    cases hsnap
    cases heq

end DistLabs.Raft
