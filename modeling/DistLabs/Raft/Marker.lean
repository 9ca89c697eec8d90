import DistLabs.Raft.LogTerms

/-! # The marker in front of the log

    Storage index 0 stands for everything a server has compacted. Its term is read as that of the
    entry at `lastIncludedIndex`, by the vote and by `AppendEntries`, so it has to be the term that
    entry had. `Snapshot`, the two branches of `InstallSnapshot` and `condInstallSnapshot` each
    build a marker of their own. -/

namespace DistLabs

variable {n : ℕ} {C S : Type}

/-- Some peer has had an entry of term `t` at index `i` in its log; index 0 is the sentinel. -/
def Held (past : List (Raft n C S)) (i t : ℤ) : Prop :=
  i = 0 ∧ t = 0 ∨ ∃ rf ∈ past, rf.lastIncludedIndex < i ∧
    rf.termAt (i - rf.lastIncludedIndex) = some t

/-- The log begins with a marker that has the term of the compacted entry, and both requests and
    both checks that read the marker see this term. -/
structure Raft.Marked (past : List (Raft n C S)) (rf : Raft n C S) : Prop where
  marker : rf.logs.head?.map LogEntry.term = some rf.lastIncludedTerm
  held : Held past rf.lastIncludedIndex rf.lastIncludedTerm
  prevLogTerm : ∀ server args, rf.genAppendEntries server = some (args, false) →
    args.prevLogIndex = rf.lastIncludedIndex → args.prevLogTerm = rf.lastIncludedTerm
  lastLogTerm : rf.logs.length = 1 → rf.genRequestVoteArgs
    = some ⟨rf.currentTerm, rf.me, rf.lastIncludedIndex, rf.lastIncludedTerm⟩
  upToDate : rf.logs.length = 1 → ∀ term index, rf.isLogUpToDate term index
    = some (if term = rf.lastIncludedTerm then decide (index ≥ rf.lastIncludedIndex)
      else decide (term > rf.lastIncludedTerm))

namespace Node

/-- An accepted `AppendEntries` does not start below the marker. -/
def AppendAhead (nd : Node n C S) (inp : Input n C S) : Prop :=
  ∀ args ∈ inp.appendRequest, nd.rf.Accepts args → nd.rf.lastIncludedIndex ≤ args.prevLogIndex

/-- The steps that leave a true marker. -/
def MarkerKept (nd : Node n C S) (inp : Input n C S) : Prop :=
  nd.AppendAhead inp ∧ nd.InstallAhead inp ∧ nd.ApplyAhead inp

instance (nd : Node n C S) (inp : Input n C S) : Decidable (nd.AppendAhead inp) :=
  inferInstanceAs (Decidable (∀ args ∈ inp.appendRequest, _))

instance (nd : Node n C S) (inp : Input n C S) : Decidable (nd.MarkerKept inp) :=
  inferInstanceAs (Decidable (_ ∧ _ ∧ _))

end Node

theorem Held.mono {past past' : List (Raft n C S)} {i t : ℤ} (h : Held past i t)
    (hsub : ∀ rf ∈ past, rf ∈ past') : Held past' i t := by
  rcases h with h | ⟨rf, hrf, hheld⟩
  · exact .inl h
  · exact .inr ⟨rf, hsub rf hrf, hheld⟩

theorem Held.later {past : List (Raft n C S)} {i t : ℤ} (h : Held past i t) (rf : Raft n C S) :
    Held (rf :: past) i t := h.mono fun _ => List.mem_cons_of_mem _

/-- A goroutine carries a true snapshot; none is on its way to `condInstallSnapshot`. -/
def Thread.Marked (past : List (Raft n C S)) : Thread n C S → Prop
  | .installSend _ args => Held past args.lastIncludedIndex args.lastIncludedTerm
  | .condRead => False
  | .condInstall _ _ => False
  | _ => True

theorem Thread.Marked.later {past : List (Raft n C S)} {t : Thread n C S} (h : t.Marked past)
    (rf : Raft n C S) : t.Marked (rf :: past) := by
  cases t with
  | installSend server args => exact Held.later h rf
  | condRead => exact h
  | condInstall t i => exact h
  | _ => trivial

/-- The part of `Raft.Marked` that the rest follows from. -/
def Raft.TrueMarker (past : List (Raft n C S)) (rf : Raft n C S) : Prop :=
  rf.logs.head?.map LogEntry.term = some rf.lastIncludedTerm ∧
    Held past rf.lastIncludedIndex rf.lastIncludedTerm

namespace Raft.TrueMarker

variable {past : List (Raft n C S)} {rf rf' : Raft n C S}

theorem same (h : rf.TrueMarker past) (hs : rf.SameEntries rf') : rf'.TrueMarker past := by
  rw [TrueMarker, hs.logs, hs.index, hs.marker]
  exact h

theorem later (h : rf.TrueMarker past) (rf' : Raft n C S) : rf.TrueMarker (rf' :: past) :=
  ⟨h.1, h.2.later rf'⟩

theorem persist_restored (h : rf.TrueMarker past) : rf.persist.restored.TrueMarker past := by
  obtain ⟨hlogs, hindex, hmarker⟩ := restored_persist rf
  rw [TrueMarker, hlogs, hindex, hmarker]
  exact h

theorem marked (h : rf.TrueMarker past) : rf.Marked past := by
  obtain ⟨hmark, hheld⟩ := h
  obtain ⟨e, he, heq⟩ := Option.map_eq_some_iff.mp hmark
  obtain ⟨rest, hlogs⟩ : ∃ rest, rf.logs = e :: rest := by
    cases hl : rf.logs with
    | nil => rw [hl] at he; cases he
    | cons a r =>
      rw [hl] at he
      exact ⟨r, by rw [Option.some.inj he]⟩
  have hfirst : rf.termAt 0 = some rf.lastIncludedTerm := by
    rw [termAt, hlogs, ← heq]
    rfl
  have hlast : rf.logs.length = 1 → rf.termAt rf.getLastStorageIndex = some rf.lastIncludedTerm ∧
      rf.getLastLogicalIndex = rf.lastIncludedIndex := by
    intro hlen
    rw [getLastStorageIndex, getLastLogicalIndex, hlen]
    exact ⟨hfirst, by simp⟩
  refine ⟨hmark, hheld, fun server args hgen hprev => ?_, fun hlen => ?_, fun hlen term index => ?_⟩
  · obtain ⟨-, -, hargs⟩ := genAppendEntries_eq_some hgen
    obtain ⟨-, -, hterm, -⟩ := hargs rfl
    rw [hprev, sub_self, hfirst] at hterm
    exact (Option.some.inj hterm).symm
  · obtain ⟨hterm, hidx⟩ := hlast hlen
    rw [genRequestVoteArgs, hterm, hidx]
    rfl
  · obtain ⟨hterm, hidx⟩ := hlast hlen
    rw [isLogUpToDate, hterm, hidx]
    rfl

end Raft.TrueMarker

theorem Node.Edit.trueMarker {past : List (Raft n C S)} {nd : Node n C S} {inp : Input n C S}
    {rf' : Raft n C S} (h : nd.rf.TrueMarker past) (hr : nd.rf.restored.TrueMarker past)
    (hpast : nd.rf ∈ past) (hW : ∀ t ∈ nd.running inp, t.Marked past)
    (hI : ∀ args ∈ inp.installRequest, Held past args.lastIncludedIndex args.lastIncludedTerm)
    (hok : nd.MarkerKept inp) (he : nd.Edit inp rf') : rf'.TrueMarker past := by
  cases he with
  | keep same => exact h.same same.toSameEntries
  | append running =>
    refine ⟨?_, h.2⟩
    rw [Raft.startAppend, List.head?_append, Option.map_or, h.1]
    rfl
  | @store args request accepts low =>
    -- at least the marker is kept
    have hlow := hok.1 _ request accepts
    obtain ⟨k, hk⟩ : ∃ k : ℕ, (args.prevLogIndex - nd.rf.lastIncludedIndex + 1).toNat = k + 1 :=
      ⟨(args.prevLogIndex - nd.rf.lastIncludedIndex).toNat, by omega⟩
    rw [Raft.TrueMarker, Raft.persist_logs, Raft.persist_lastIncludedIndex,
      Raft.persist_lastIncludedTerm, Raft.stored, Raft.follow_lastIncludedIndex,
      Raft.follow_lastIncludedTerm]
    refine ⟨?_, h.2⟩
    rw [hk, List.head?_append, Option.map_or, List.head?_take, if_neg (Nat.succ_ne_zero k), h.1]
    rfl
  | commit same lt le applied => exact h.same same
  | applied running => exact h
  | @compact index _ e rest received lt le drop =>
    have hterm : nd.rf.termAt (index - nd.rf.lastIncludedIndex) = some e.term := by
      rw [Raft.termAt, Slice.index, if_pos (by omega), ← List.head?_drop, drop]
      rfl
    exact ⟨rfl, .inr ⟨nd.rf, hpast, lt, hterm⟩⟩
  | install request term lt ahead trim =>
    rcases trim with ⟨-, rfl⟩ | ⟨hlt, -⟩
    · exact ⟨rfl, hI _ request⟩
    · exact absurd (hok.2.1 _ request term lt ahead) (not_le.mpr hlt)
  | cond running handler => exact (hW _ running).elim
  | restart crash => exact hr

theorem Node.Spawned.marked {past : List (Raft n C S)} {nd : Node n C S} {inp : Input n C S}
    {t : Thread n C S} (h : nd.rf.TrueMarker past) (hW : ∀ t ∈ nd.running inp, t.Marked past)
    (hok : nd.MarkerKept inp) (hs : nd.Spawned inp t) : t.Marked past := by
  cases hs with
  | installSend running => exact h.2
  | condRead running logs => exact hok.2.2.not_cond running logs
  | condInstall running => exact (hW _ running).elim
  | _ => trivial

theorem marker_maintained : Maintained (Node.MarkerKept (n := n) (C := C) (S := S))
    (fun past rf => rf.TrueMarker past) (fun past t => t.Marked past) (fun _ _ => True)
    (fun past args => Held past args.lastIncludedIndex args.lastIncludedTerm) where
  boot _ _ := ⟨⟨rfl, .inl ⟨rfl, rfl⟩⟩, ⟨rfl, .inl ⟨rfl, rfl⟩⟩⟩
  later rf _ := ⟨fun _ h => h.later rf, fun _ h => h.later rf, fun _ => id, fun _ h => h.later rf⟩
  stored _ _ h := h.persist_restored
  edit _ _ _ rf' h hr hpast hW _ hI hok he := (he.trueMarker h hr hpast hW hI hok).later rf'
  spawned _ _ _ _ h hW _ hok hs := hs.marked h hW hok
  append _ _ _ _ := trivial
  install _ _ _ h := h

namespace Cluster

/-- The first leader has two commands. Server 1 has them, its reply is on the way; server 2 has
    acknowledged them. The leader has applied the first one and compacts it. -/
def firstSnapshot [NeZero n] : List (Event n ℕ Unit) :=
  [.deliver 1, .act 0 (.start (some 7)), .act 0 (.run 0), .act 0 (.run 0),
    .act 0 (.start (some 8)), .act 0 (.run 0), .act 0 (.run 0),
    .act 0 .heartbeat, .act 0 (.run 0), .act 0 (.run 1), .act 0 (.run 0), .act 0 (.run 0),
    .deliver 1, .deliver 1, .deliver 2, .act 0 (.run 0), .act 0 (.run 0), .act 0 (.run 0),
    .act 0 (.snapshot 1 (some ()))]

/-- The leader has not seen the reply of server 1 and sends it the snapshot, which does not cover
    the log of server 1. -/
def snapshotOverLog [NeZero n] : List (Event n ℕ Unit) :=
  [.act 0 .heartbeat, .act 0 (.run 1), .act 0 (.run 2), .act 0 (.run 2), .act 0 (.run 2),
    .deliver 2]

end Cluster

/-! ### Code without the lock -/

theorem Node.crashLocal_markerKept :
    Node.CrashLocal (Node.MarkerKept (n := n) (C := C) (S := S)) :=
  fun _ _ _ _ => ⟨by rintro _ ⟨⟩, by rintro _ ⟨⟩, by rintro _ ⟨⟩⟩

namespace Interleaved

/-- Every log begins with the true marker, in every run in which accepted requests do not start
    below the marker, snapshots are installed only over logs they cover, `applyLogs` is not entered
    behind the snapshot and code without the lock is not interrupted. -/
theorem snapshot_marker {s : Interleaved n C S} (h : Run step (Steady Node.MarkerKept) init s)
    (i : Fin n) : (s.cluster.nodes i).rf.Marked s.cluster.past := by
  obtain ⟨t, ht, hst⟩ := exists_stands Node.crashLocal_markerKept h
  obtain ⟨hmarker, hheld⟩ := (marker_maintained.run ht i).1
  have hunder := hst.underway i
  refine Raft.TrueMarker.marked ?_
  rw [Raft.TrueMarker, hunder.logs, hunder.lastIncludedIndex, hunder.lastIncludedTerm]
  exact ⟨hmarker, hheld.mono hst.past⟩

theorem snapshot_marker_first_snapshot : ∃ s : Interleaved 3 ℕ Unit,
    Run step (Steady Node.MarkerKept) init s ∧ (s.cluster.nodes 0).rf.lastIncludedIndex = 1 ∧
      (s.cluster.nodes 0).rf.Marked s.cluster.past := by
  obtain ⟨s, t, hs, hem, hlii⟩ := exists_run_of_schedule (n := 3) Node.MarkerKept
    (Cluster.firstVote ++ Cluster.firstSnapshot)
    (fun t => (t.nodes 0).rf.lastIncludedIndex = 1) (by decide +kernel)
  rw [← hem.nodes] at hlii
  exact ⟨s, hs, hlii, snapshot_marker hs 0⟩

/-- Server 1 has a marker of term 0 for the entry of term 1. -/
theorem snapshot_over_log_loses_term :
    ¬ ∀ s : Interleaved 3 ℕ Unit, Run step (Steady Node.NoCrash) init s →
      ∀ i, (s.cluster.nodes i).rf.logs.head?.map LogEntry.term
        = some (s.cluster.nodes i).rf.lastIncludedTerm := by
  obtain ⟨s, t, hs, hem, hbad⟩ := exists_run_of_schedule (n := 3) Node.NoCrash
    (Cluster.firstVote ++ Cluster.firstSnapshot ++ Cluster.snapshotOverLog)
    (fun t => (t.nodes 1).rf.logs.head?.map LogEntry.term ≠ some (t.nodes 1).rf.lastIncludedTerm)
    (by decide +kernel)
  rw [← hem.nodes] at hbad
  exact fun h => hbad (h s hs 1)

/-- Two servers. Server 0 leads, its first command is applied, and `Start` of the second has encoded
    the log in its `persist` when the service compacts the first. -/
def interruptedPersist [NeZero n] : List (FineEvent n ℕ Unit) :=
  campaign 0 ++ [.event (.deliver 0), .event (.deliver 0)] ++ command 0 0 7 ++
  [.event (.act 0 .heartbeat), .event (.act 0 (.run 0)), .event (.act 0 (.run 0)),
    .event (.deliver 0), .event (.deliver 0), .event (.act 0 (.run 0)), .event (.act 0 (.run 0)),
    .event (.act 0 (.start (some 8))), .event (.act 0 (.run 1)), .event (.act 0 (.run 1)),
    .access 0 0, .access 0 0, .access 0 0, .event (.act 0 (.snapshot 1 (some ()))),
    .access 0 0, .access 0 0, .access 0 0, .access 0 0, .event (.act 0 .crash)]

/-- What `persist` has saved is the old log with the new `lastIncludedTerm`, and so the server has a
    false marker after its crash. -/
theorem interrupted_persist_loses_marker :
    ¬ ∀ s : Interleaved 2 ℕ Unit, Run step (Loose Node.MarkerKept) init s →
      ∀ i, (s.cluster.nodes i).rf.logs.head?.map LogEntry.term
        = some (s.cluster.nodes i).rf.lastIncludedTerm := by
  obtain ⟨s, hs, hbad⟩ := exists_run_of_play step (Loose Node.MarkerKept) init interruptedPersist
    (fun s : Interleaved 2 ℕ Unit => (s.cluster.nodes 0).rf.logs.head?.map LogEntry.term
      ≠ some (s.cluster.nodes 0).rf.lastIncludedTerm) (by decide +kernel)
  exact fun h => hbad (h s hs 0)

end Interleaved
end DistLabs
