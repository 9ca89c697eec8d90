import DistLabs.Raft.Exchange

/-! # Catching up with a snapshot

    A server meets a snapshot that is ahead of it in two places. `InstallSnapshot` should keep the
    entries behind the snapshot only if its log agrees with it, but looks at the length of the log
    alone. `applyLogs` should leave the log as it is, but calls `condInstallSnapshot` with the index
    for the term and the term for the index. Each result here says exactly when no harm is done. -/

namespace DistLabs.Raft

variable {n : ℕ} {C S : Type} {rf rf' rf'' : Raft n C S}

/-! ### InstallSnapshot -/

/-- The log has the entry that the snapshot ends with. -/
def HoldsLast (rf : Raft n C S) (args : InstallSnapshotArgs n S) : Prop :=
  rf.termAt (rf.convertToStorageIndex args.lastIncludedIndex) = some args.lastIncludedTerm

instance (rf : Raft n C S) (args : InstallSnapshotArgs n S) : Decidable (rf.HoldsLast args) :=
  inferInstanceAs (Decidable (_ = _))

/-- An accepted snapshot keeps the entries behind it if the log agrees with it, and nothing
    otherwise. -/
structure KeepsMatching (rf : Raft n C S) (args : InstallSnapshotArgs n S) (rf' : Raft n C S) :
    Prop where
  kept : rf.HoldsLast args → ∀ k, args.lastIncludedIndex < k → rf'.entryAt k = rf.entryAt k
  discarded : ¬ rf.HoldsLast args → rf'.getLastLogicalIndex = args.lastIncludedIndex
  lastIncludedIndex_le : rf.lastIncludedIndex ≤ rf'.lastIncludedIndex
  lastApplied_le : rf.lastApplied ≤ rf'.lastApplied
  commitIndex_le : rf.commitIndex ≤ rf'.commitIndex
  lastIncludedIndex_eq : rf'.lastIncludedIndex = args.lastIncludedIndex
  lastApplied_eq : rf'.lastApplied = args.lastIncludedIndex

/-- The part of the log that `InstallSnapshot` keeps stays at its indices. -/
theorem entryAt_installed {args : InstallSnapshotArgs n S} {e marker : LogEntry C}
    {rest : List (LogEntry C)} (hlii : rf.lastIncludedIndex < args.lastIncludedIndex)
    (hdrop : rf.logs.drop (args.lastIncludedIndex - rf.lastIncludedIndex).toNat = e :: rest) {k : ℤ}
    (hk : args.lastIncludedIndex < k) :
    (rf.installed args (marker :: rest)).persist.entryAt k = rf.entryAt k := by
  have hget := congrArg (·[(k - args.lastIncludedIndex).toNat]?) hdrop
  obtain ⟨m, hm⟩ : ∃ m : ℕ, (k - args.lastIncludedIndex).toNat = m + 1 :=
    ⟨(k - args.lastIncludedIndex - 1).toNat, by omega⟩
  simp only [List.getElem?_drop, hm, List.getElem?_cons_succ] at hget
  have hidx : (k - rf.lastIncludedIndex).toNat
      = (args.lastIncludedIndex - rf.lastIncludedIndex).toNat + (m + 1) := by
    omega
  rw [entryAt_eq (by exact hk.le), entryAt_eq (by omega), hidx, hget]
  change (marker :: rest)[(k - args.lastIncludedIndex).toNat]? = _
  rw [hm, List.getElem?_cons_succ]

/-- The indices are right in any case. -/
theorem keepsMatching_installed {args : InstallSnapshotArgs n S} {logs : List (LogEntry C)}
    (hlii : rf.lastIncludedIndex < args.lastIncludedIndex)
    (happlied : rf.lastApplied < args.lastIncludedIndex)
    (hkept : rf.HoldsLast args → ∀ k, args.lastIncludedIndex < k →
      (rf.installed args logs).persist.entryAt k = rf.entryAt k)
    (hdiscarded : ¬ rf.HoldsLast args →
      (rf.installed args logs).persist.getLastLogicalIndex = args.lastIncludedIndex) :
    rf.KeepsMatching args (rf.installed args logs).persist where
  kept := hkept
  discarded := hdiscarded
  lastIncludedIndex_le := hlii.le
  lastApplied_le := happlied.le
  commitIndex_le := by
    rw [persist_commitIndex, installed_commitIndex]
    exact le_max_left ..
  lastIncludedIndex_eq := rfl
  lastApplied_eq := rfl

theorem exists_result_iff {args : InstallSnapshotArgs n S} {reply : InstallSnapshotReply}
    {msg : Option (ApplyMsg C S)} (h : rf.installSnapshot args = some (rf', reply, msg))
    (P : Raft n C S → Prop) :
    (∃ rf' reply msg, rf.installSnapshot args = some (rf', reply, msg) ∧ P rf') ↔ P rf' := by
  refine ⟨?_, fun hP => ⟨rf', reply, msg, h, hP⟩⟩
  rintro ⟨rf'', reply', msg', h', hP⟩
  rw [h] at h'
  cases h'
  exact hP

/-- An accepted `InstallSnapshot` does the right thing exactly where the log does not go beyond the
    snapshot or has the entry it ends with. -/
theorem installSnapshot_keeps_iff {args : InstallSnapshotArgs n S}
    (hterm : rf.currentTerm ≤ args.term) (hlii : rf.lastIncludedIndex < args.lastIncludedIndex)
    (happlied : rf.lastApplied < args.lastIncludedIndex) :
    (∃ rf' reply msg, rf.installSnapshot args = some (rf', reply, msg) ∧
      rf.KeepsMatching args rf') ↔
    rf.getLastLogicalIndex ≤ args.lastIncludedIndex ∨ rf.HoldsLast args := by
  have hanswers : rf.installSnapshot args ≠ none := installSnapshot_ne_none args
  obtain ⟨⟨rf', reply, msg⟩, h⟩ := Option.ne_none_iff_exists'.mp hanswers
  rw [exists_result_iff h]
  rcases installSnapshot_cases h with ⟨hlt, -⟩ |
    ⟨-, -, ⟨hold, -⟩ | ⟨-, -, -, logs, hlogs, rfl⟩⟩
  · omega
  · omega
  rcases hlogs with ⟨hle, rfl⟩ | ⟨hlt, e, rest, hdrop, rfl⟩
  · refine iff_of_true (keepsMatching_installed hlii happlied (fun _ k hk => ?_) fun _ => ?_)
      (.inl hle)
    · rw [entryAt_eq_none (hle.trans_lt hk), entryAt_eq_none]
      rwa [getLastLogicalIndex_installed]
    · exact getLastLogicalIndex_installed
  constructor
  · intro hkeeps
    by_contra hno
    -- the entries behind the snapshot are still there
    have hlast := hkeeps.discarded fun hholds => hno (.inr hholds)
    rw [getLastLogicalIndex_trimmed hlii.le (.inr ⟨hlt, e, rest, hdrop, rfl⟩)] at hlast
    omega
  · rintro (hle | hholds)
    · omega
    · exact keepsMatching_installed hlii happlied
        (fun _ k hk => entryAt_installed hlii hdrop hk) fun hno => absurd hholds hno

/-- A server of term 2 with two uncommitted entries of term 1. -/
def leftBehind : Raft 2 ℕ Unit :=
  { make followerFrom2.me ⟨none, none⟩ with
    currentTerm := 2
    logs := [⟨0, none⟩, ⟨1, some 5⟩, ⟨1, some 6⟩] }

/-- Snapshots up to index 1, of the entry the server has and of another one. -/
def snapshotOfTerm (lastIncludedTerm : ℤ) : InstallSnapshotArgs 2 Unit :=
  ⟨2, leaderFrom1.me, 1, lastIncludedTerm, some ()⟩

theorem installSnapshot_keeps_second_entry : ∃ rf' reply msg,
    leftBehind.installSnapshot (snapshotOfTerm 1) = some (rf', reply, msg) ∧
      rf'.entryAt 2 = some ⟨1, some 6⟩ := by
  have hholds : leftBehind.HoldsLast (snapshotOfTerm 1) := by decide
  obtain ⟨rf', reply, msg, h, hkeeps⟩ := (installSnapshot_keeps_iff (by decide) (by decide)
    (by decide)).mpr (.inr hholds)
  exact ⟨rf', reply, msg, h, hkeeps.kept hholds 2 (by decide)⟩

/-- A snapshot that ends with an entry of term 2 leaves the entry of term 1 behind it. -/
theorem conflicting_suffix_kept :
    leftBehind.currentTerm ≤ (snapshotOfTerm 2).term ∧
      leftBehind.lastIncludedIndex < (snapshotOfTerm 2).lastIncludedIndex ∧
      leftBehind.lastApplied < (snapshotOfTerm 2).lastIncludedIndex ∧
      ¬ ∃ rf' reply msg,
        leftBehind.installSnapshot (snapshotOfTerm 2) = some (rf', reply, msg) ∧
          leftBehind.KeepsMatching (snapshotOfTerm 2) rf' := by
  refine ⟨by decide, by decide, by decide, ?_⟩
  rintro ⟨rf', reply, msg, h, hkeeps⟩
  cases h
  exact absurd (hkeeps.discarded (by decide)) (by decide)

/-! ### applyLogs -/

/-- `rf.lastApplied = msg.CommandIndex`. -/
def setApplied (rf : Raft n C S) (msg : ApplyMsg C S) : Raft n C S :=
  { rf with lastApplied := msg.commandIndex }

/-- `applyLogs` from its first section to its end, with no other goroutine in between. -/
def runApplyLogs (rf : Raft n C S) : Option (Raft n C S × List (ApplyMsg C S)) :=
  match rf.applyLogs with
  | none => none
  | some none =>
    -- the call passes the index first, the parameters take the term first
    (rf.condInstallSnapshot rf.lastIncludedIndex rf.lastIncludedTerm).map fun rf => (rf, [])
  | some (some msgs) => some (msgs.foldl setApplied rf, msgs)

/-- The log and the snapshot are as they were, and nothing goes back. -/
structure Unharmed (rf rf' : Raft n C S) : Prop where
  lastIncludedIndex : rf'.lastIncludedIndex = rf.lastIncludedIndex
  lastIncludedTerm : rf'.lastIncludedTerm = rf.lastIncludedTerm
  snapshot : rf'.snapshot = rf.snapshot
  last : rf'.getLastLogicalIndex = rf.getLastLogicalIndex
  entries : ∀ k, rf.lastIncludedIndex < k → rf'.entryAt k = rf.entryAt k
  commitIndex : rf.commitIndex ≤ rf'.commitIndex
  lastApplied : rf.lastApplied ≤ rf'.lastApplied
  persisted : rf'.persister = rf.persister ∨ ∃ d, rf'.persister.raftstate = some d ∧
    d.lastIncludedIndex = rf.lastIncludedIndex ∧ d.lastIncludedTerm = rf.lastIncludedTerm

theorem Unharmed.refl (rf : Raft n C S) : Unharmed rf rf :=
  ⟨rfl, rfl, rfl, rfl, fun _ _ => rfl, le_rfl, le_rfl, .inl rfl⟩

theorem Unharmed.trans (h : Unharmed rf rf') (h' : Unharmed rf' rf'') : Unharmed rf rf'' where
  lastIncludedIndex := h'.lastIncludedIndex.trans h.lastIncludedIndex
  lastIncludedTerm := h'.lastIncludedTerm.trans h.lastIncludedTerm
  snapshot := h'.snapshot.trans h.snapshot
  last := h'.last.trans h.last
  entries k hk := (h'.entries k (h.lastIncludedIndex ▸ hk)).trans (h.entries k hk)
  commitIndex := h.commitIndex.trans h'.commitIndex
  lastApplied := h.lastApplied.trans h'.lastApplied
  persisted := by
    rcases h'.persisted with heq | ⟨d, hd, hidx, hterm⟩
    · rw [heq]
      exact h.persisted
    · exact .inr ⟨d, hd, hidx.trans h.lastIncludedIndex, hterm.trans h.lastIncludedTerm⟩

theorem unharmed_setApplied {msg : ApplyMsg C S} (h : rf.lastApplied ≤ msg.commandIndex) :
    Unharmed rf (rf.setApplied msg) :=
  ⟨rfl, rfl, rfl, rfl, fun _ _ => rfl, le_rfl, h, .inl rfl⟩

/-- Sending a whole batch. -/
theorem unharmed_foldl_setApplied : ∀ {msgs : List (ApplyMsg C S)} {rf : Raft n C S},
    Batch (rf.lastApplied + 1) msgs → Unharmed rf (msgs.foldl setApplied rf)
  | [], rf, _ => .refl rf
  | msg :: msgs, rf, h => by
    obtain ⟨⟨c, rfl⟩, hrest⟩ := h
    refine (unharmed_setApplied ?_).trans (unharmed_foldl_setApplied hrest)
    exact (lt_add_one rf.lastApplied).le

/-- Without the branch for an old `lastApplied` nothing can go wrong. -/
theorem runApplyLogs_of_applied (hcommit : rf.commitIndex ≤ rf.getLastLogicalIndex)
    (h : rf.lastIncludedIndex ≤ rf.lastApplied) :
    ∃ rf' msgs, rf.runApplyLogs = some (rf', msgs) ∧ Unharmed rf rf' := by
  obtain ⟨batch, hbatch⟩ := Option.ne_none_iff_exists'.mp (applyLogs_ne_none hcommit)
  rw [runApplyLogs, hbatch]
  cases batch with
  | none =>
    rw [applyLogs, if_neg (not_lt.mpr h)] at hbatch
    split at hbatch
    · cases hbatch
    · obtain ⟨msgs, -, hmsgs⟩ := Option.map_eq_some_iff.mp hbatch
      cases hmsgs
  | some msgs =>
    exact ⟨_, _, rfl, unharmed_foldl_setApplied (applyLogs_batch hbatch).2.1⟩

/-- With equal index and term `condInstallSnapshot` writes back what is there, and forgets what was
    committed behind the snapshot. -/
theorem unharmed_condInstallSnapshot (hlast : rf.lastIncludedIndex ≤ rf.getLastLogicalIndex)
    (happlied : rf.lastApplied < rf.lastIncludedIndex)
    (hterm : rf.lastIncludedTerm = rf.lastIncludedIndex)
    (hcommit : rf.commitIndex = rf.lastIncludedIndex) :
    ∃ rf', rf.condInstallSnapshot rf.lastIncludedIndex rf.lastIncludedTerm = some rf' ∧
      Unharmed rf rf' := by
  have hne : rf.logs ≠ [] := by
    rw [getLastLogicalIndex] at hlast
    rintro hnil
    rw [hnil, List.length_nil] at hlast
    omega
  obtain ⟨e, rest, hlogs⟩ := List.exists_cons_of_ne_nil hne
  have hdrop : Slice.dropFrom rf.logs (rf.lastIncludedIndex - rf.lastIncludedIndex)
      = some (e :: rest) := by
    rw [sub_self, hlogs]
    exact Slice.dropFrom_eq_some.mpr ⟨le_rfl, by omega, rfl⟩
  have hsome : rf.condInstallSnapshot rf.lastIncludedIndex rf.lastIncludedTerm ≠ none := by
    rw [condInstallSnapshot, hterm, if_neg (not_lt.mpr hlast), hdrop]
    rintro ⟨⟩
  obtain ⟨rf', h⟩ := Option.ne_none_iff_exists'.mp hsome
  refine ⟨rf', h, ?_⟩
  obtain ⟨rest', rfl, hrest⟩ := condInstallSnapshot_cases h
  obtain rfl : rest' = rest := by
    rcases hrest with ⟨hlt, -⟩ | ⟨-, -, e', hdrop'⟩
    · omega
    · rw [hterm, sub_self, hlogs] at hdrop'
      exact (List.cons.inj hdrop').2.symm
  refine ⟨hterm, hterm.symm, rfl, ?_, fun k hk => ?_, ?_, ?_, .inr ⟨_, rfl, hterm, hterm.symm⟩⟩
  · rw [getLastLogicalIndex, getLastLogicalIndex, hlogs, persist_lastIncludedIndex, hterm]
    rfl
  · obtain ⟨m, hm⟩ : ∃ m : ℕ, (k - rf.lastIncludedIndex).toNat = m + 1 :=
      ⟨(k - rf.lastIncludedIndex - 1).toNat, by omega⟩
    rw [entryAt_eq hk.le, entryAt_eq (hterm.trans_le hk.le), hlogs,
      persist_lastIncludedIndex, hterm, hm]
    rfl
  · exact (hcommit.trans hterm.symm).le
  · exact (happlied.trans_eq hterm.symm).le

/-- `applyLogs` does no harm to a well-formed log exactly where it does not reach
    `condInstallSnapshot`, or where index and term of the snapshot are equal and nothing behind it
    is committed. -/
theorem applyLogs_unharmed_iff (hlow : rf.lastIncludedIndex ≤ rf.commitIndex)
    (hhigh : rf.commitIndex ≤ rf.getLastLogicalIndex) :
    (∃ rf' msgs, rf.runApplyLogs = some (rf', msgs) ∧ Unharmed rf rf') ↔
    rf.lastIncludedIndex ≤ rf.lastApplied ∨
      rf.lastIncludedTerm = rf.lastIncludedIndex ∧ rf.commitIndex = rf.lastIncludedIndex := by
  rcases le_or_gt rf.lastIncludedIndex rf.lastApplied with happlied | happlied
  · exact iff_of_true (runApplyLogs_of_applied hhigh happlied) (.inl happlied)
  have hrun : rf.runApplyLogs = (rf.condInstallSnapshot rf.lastIncludedIndex
      rf.lastIncludedTerm).map fun rf => (rf, []) := by
    rw [runApplyLogs, applyLogs, if_pos happlied]
  rw [hrun]
  constructor
  · rintro ⟨rf', msgs, h, hunharmed⟩
    obtain ⟨x, hx, heq⟩ := Option.map_eq_some_iff.mp h
    obtain ⟨rfl, rfl⟩ := Prod.mk.inj heq
    obtain ⟨rest, rfl, -⟩ := condInstallSnapshot_cases hx
    have hterm : rf.lastIncludedTerm = rf.lastIncludedIndex := hunharmed.lastIncludedIndex
    have hcommit : rf.commitIndex ≤ rf.lastIncludedTerm := hunharmed.commitIndex
    exact .inr ⟨hterm, by omega⟩
  · rintro (hle | ⟨hterm, hcommit⟩)
    · omega
    obtain ⟨rf', h, hunharmed⟩ := unharmed_condInstallSnapshot (by omega) happlied hterm hcommit
    exact ⟨rf', [], by rw [h]; rfl, hunharmed⟩

/-- A server whose `lastApplied` lags one behind a snapshot of index 3, term 1. -/
def laggingApplier : Raft 2 ℕ Unit :=
  { make followerFrom2.me ⟨none, none⟩ with
    currentTerm := 1
    logs := [⟨1, none⟩, ⟨1, some 7⟩]
    commitIndex := 3
    lastApplied := 2
    lastIncludedIndex := 3
    lastIncludedTerm := 1 }

/-- The same server once `lastApplied` is up to date and index 4 is committed. -/
def caughtUp : Raft 2 ℕ Unit := { laggingApplier with commitIndex := 4, lastApplied := 3 }

theorem caughtUp_unharmed : ∃ rf' msgs, caughtUp.runApplyLogs = some (rf', msgs) ∧
    rf'.lastIncludedIndex = 3 ∧ rf'.entryAt 4 = some ⟨1, some 7⟩ ∧ 3 ≤ rf'.lastApplied := by
  have happlied : caughtUp.lastIncludedIndex ≤ caughtUp.lastApplied := by decide
  obtain ⟨rf', msgs, h, hunharmed⟩ :=
    (applyLogs_unharmed_iff (by decide) (by decide)).mpr (.inl happlied)
  exact ⟨rf', msgs, h, hunharmed.lastIncludedIndex, hunharmed.entries 4 (by decide),
    hunharmed.lastApplied⟩

/-- The slice is taken from 1 - 3 on. -/
theorem lagging_applier_panics :
    laggingApplier.logs ≠ [] ∧ laggingApplier.lastIncludedIndex ≤ laggingApplier.commitIndex ∧
      laggingApplier.commitIndex ≤ laggingApplier.getLastLogicalIndex ∧
      laggingApplier.runApplyLogs = none :=
  ⟨by decide, by decide, by decide, rfl⟩

end DistLabs.Raft
