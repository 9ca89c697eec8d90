import DistLabs.Raft.Specs

/-! # The whole log behind a compacted one

    `rf.Compacts full` says that the log of the peer is `full` with the first `lastIncludedIndex`
    entries replaced by the marker at storage index 0. A logical index is then a position in `full`,
    counted from 1, and every handler is described by what it does to `full`. -/

namespace DistLabs

variable {n : ℕ} {C S : Type}

/-- The term of the last entry; the marker of an empty log has term 0. -/
def lastTerm (l : List (LogEntry C)) : ℤ := (l.getLast?.map (·.term)).getD 0

theorem lastTerm_of_getLast? {l : List (LogEntry C)} {e : LogEntry C} (h : l.getLast? = some e) :
    lastTerm l = e.term := by simp [lastTerm, h]

theorem lastTerm_take_succ {l : List (LogEntry C)} {k : ℕ} {e : LogEntry C} (h : l[k]? = some e) :
    lastTerm (l.take (k + 1)) = e.term := by
  simp [lastTerm, List.getLast?_take, h]

/-- The peer's log is `full` without its first `lastIncludedIndex` entries. -/
def Raft.Compacts (rf : Raft n C S) (full : List (LogEntry C)) : Prop :=
  ∃ (k : ℕ) (e : LogEntry C), rf.lastIncludedIndex = k ∧ k ≤ full.length ∧
    rf.logs = e :: full.drop k ∧ e.term = lastTerm (full.take k) ∧ rf.lastIncludedTerm = e.term

/-- An `AppendEntries` request carries a stretch of the log `L` and the term before it. -/
def AppendEntriesArgs.Carries (args : AppendEntriesArgs n C) (L : List (LogEntry C)) : Prop :=
  ∃ p : ℕ, args.prevLogIndex = p ∧ p ≤ L.length ∧ args.prevLogTerm = lastTerm (L.take p) ∧
    L.take p ++ args.entries <+: L

/-- An `InstallSnapshot` request stands for a prefix of the log `L`. -/
def InstallSnapshotArgs.Covers (args : InstallSnapshotArgs n S) (L : List (LogEntry C)) : Prop :=
  ∃ k : ℕ, args.lastIncludedIndex = k ∧ k ≤ L.length ∧ args.lastIncludedTerm = lastTerm (L.take k)

theorem take_eq_of_isPrefix {L L' : List (LogEntry C)} (h : L <+: L') {k : ℕ} (hk : k ≤ L.length) :
    L'.take k = L.take k := by
  obtain ⟨t, rfl⟩ := h
  rw [List.take_append_of_le_length hk]

theorem getElem?_of_isPrefix {L L' : List (LogEntry C)} (h : L <+: L') {k : ℕ} (hk : k < L.length) :
    L'[k]? = L[k]? := by
  obtain ⟨t, rfl⟩ := h
  rw [List.getElem?_append_left hk]

/-- A request that fits a log fits every log that extends it. -/
theorem AppendEntriesArgs.Carries.mono {args : AppendEntriesArgs n C} {L L' : List (LogEntry C)}
    (h : args.Carries L) (hL : L <+: L') : args.Carries L' := by
  obtain ⟨p, hp, hle, ht, hpre⟩ := h
  refine ⟨p, hp, hle.trans hL.length_le, ?_, ?_⟩
  · rw [take_eq_of_isPrefix hL hle]; exact ht
  · rw [take_eq_of_isPrefix hL hle]; exact hpre.trans hL

theorem AppendEntriesArgs.Carries.length_le {args : AppendEntriesArgs n C} {L : List (LogEntry C)}
    (h : args.Carries L) : args.prevLogIndex + args.entries.length ≤ L.length := by
  obtain ⟨p, hp, hle, -, hpre⟩ := h
  have := hpre.length_le
  rw [List.length_append, List.length_take, min_eq_left hle] at this
  omega

theorem InstallSnapshotArgs.Covers.mono {args : InstallSnapshotArgs n S} {L L' : List (LogEntry C)}
    (h : args.Covers L) (hL : L <+: L') : args.Covers L' := by
  obtain ⟨k, hk, hle, ht⟩ := h
  exact ⟨k, hk, hle.trans hL.length_le, by rw [take_eq_of_isPrefix hL hle]; exact ht⟩

namespace Raft.Compacts

variable {rf rf' : Raft n C S} {full L : List (LogEntry C)}

theorem congr (h : rf.Compacts full) (hlogs : rf'.logs = rf.logs)
    (hindex : rf'.lastIncludedIndex = rf.lastIncludedIndex)
    (hterm : rf'.lastIncludedTerm = rf.lastIncludedTerm) : rf'.Compacts full := by
  obtain ⟨k, e, hk, hle, hl, he, ht⟩ := h
  exact ⟨k, e, hindex.trans hk, hle, hlogs.trans hl, he, hterm.trans ht⟩

theorem getLastLogicalIndex (h : rf.Compacts full) : rf.getLastLogicalIndex = full.length := by
  obtain ⟨k, e, hk, hle, hl, -⟩ := h
  rw [Raft.getLastLogicalIndex, hl, hk, List.length_cons, List.length_drop]
  push_cast [hle]
  omega

theorem index (h : rf.Compacts full) {i : ℤ} (hi : rf.lastIncludedIndex < i) :
    Slice.index rf.logs (i - rf.lastIncludedIndex) = full[(i - 1).toNat]? := by
  obtain ⟨k, e, hk, hle, hl, -⟩ := h
  obtain ⟨j, rfl⟩ : ∃ j : ℕ, i = k + 1 + j := ⟨(i - k - 1).toNat, by omega⟩
  rw [hk, hl, show (k : ℤ) + 1 + j - k = ((j + 1 : ℕ) : ℤ) by push_cast; ring,
    Slice.index_natCast, List.getElem?_cons_succ, List.getElem?_drop,
    show ((k : ℤ) + 1 + j - 1).toNat = k + j by omega]

/-- The term at a logical index that the peer still holds, the marker included. -/
theorem termAt_eq (h : rf.Compacts full) {i : ℤ} (hi : rf.lastIncludedIndex ≤ i) :
    rf.termAt (i - rf.lastIncludedIndex)
      = if i ≤ full.length then some (lastTerm (full.take i.toNat)) else none := by
  rcases hi.lt_or_eq with hlt | rfl
  · rw [Raft.termAt, h.index hlt]
    obtain ⟨k, -, hk, -⟩ := h
    split
    · have hget := List.getElem?_eq_getElem (l := full) (i := (i - 1).toNat) (by omega)
      rw [hget, Option.map_some, ← lastTerm_take_succ hget,
        show (i - 1).toNat + 1 = i.toNat by omega]
    · rw [List.getElem?_eq_none (by omega), Option.map_none]
  · obtain ⟨k, e, hk, hle, hl, he, -⟩ := h
    rw [if_pos (by omega), Raft.termAt, sub_self, hl, hk, Int.toNat_natCast, ← he]
    rfl

theorem termAt (h : rf.Compacts full) {i : ℤ} (hi : rf.lastIncludedIndex ≤ i) {t : ℤ}
    (ht : rf.termAt (i - rf.lastIncludedIndex) = some t) :
    i ≤ full.length ∧ t = lastTerm (full.take i.toNat) := by
  rw [h.termAt_eq hi] at ht
  split at ht
  · exact ⟨by assumption, (Option.some.inj ht).symm⟩
  · cases ht

theorem lastIncludedIndex_le (h : rf.Compacts full) :
    0 ≤ rf.lastIncludedIndex ∧ rf.lastIncludedIndex ≤ full.length := by
  obtain ⟨k, -, hk, hle, -⟩ := h
  omega

theorem termAt_last (h : rf.Compacts full) :
    rf.termAt rf.getLastStorageIndex = some (lastTerm full) := by
  have hlast : rf.getLastStorageIndex = full.length - rf.lastIncludedIndex := by
    rw [← h.getLastLogicalIndex, Raft.getLastLogicalIndex, Raft.getLastStorageIndex]; ring
  rw [hlast, h.termAt_eq h.lastIncludedIndex_le.2, if_pos le_rfl, Int.toNat_natCast,
    List.take_length]

/-! ### Requests built from the log -/

theorem genRequestVoteArgs (h : rf.Compacts full) :
    rf.genRequestVoteArgs = some ⟨rf.currentTerm, rf.me, full.length, lastTerm full⟩ := by
  rw [Raft.genRequestVoteArgs, h.termAt_last, h.getLastLogicalIndex]
  rfl

theorem isLogUpToDate_eq (h : rf.Compacts full) (t i : ℤ) :
    rf.isLogUpToDate t i = some (if t = lastTerm full then decide (i ≥ full.length)
      else decide (t > lastTerm full)) := by
  rw [Raft.isLogUpToDate, h.termAt_last, h.getLastLogicalIndex]
  rfl

theorem isLogUpToDate (h : rf.Compacts full) {t i : ℤ} (hup : rf.isLogUpToDate t i = some true) :
    lastTerm full < t ∨ lastTerm full = t ∧ full.length ≤ i := by
  rw [h.isLogUpToDate_eq, Option.some.injEq] at hup
  split at hup
  · rename_i heq
    exact .inr ⟨heq.symm, of_decide_eq_true hup⟩
  · exact .inl (of_decide_eq_true hup)

theorem genAppendEntries (h : rf.Compacts full) {server : Fin n} {args : AppendEntriesArgs n C}
    (hgen : rf.genAppendEntries server = some (args, false)) :
    args.term = rf.currentTerm ∧ args.Carries full ∧ args.leaderCommit = rf.commitIndex ∧
      args.prevLogIndex + args.entries.length = full.length := by
  obtain ⟨hterm, -, hargs⟩ := Raft.genAppendEntries_eq_some hgen
  obtain ⟨hle, -, hprev, hent, hcommit⟩ := hargs rfl
  obtain ⟨hlen, hpt⟩ := h.termAt hle hprev
  obtain ⟨k, e, hk, -, hl, -⟩ := h
  have hdrop : args.entries = full.drop args.prevLogIndex.toNat := by
    rw [hent, hl, hk, show (args.prevLogIndex + 1 - (k : ℤ)).toNat
      = args.prevLogIndex.toNat - k + 1 by omega, List.drop_succ_cons, List.drop_drop]
    congr 1
    omega
  refine ⟨hterm, ⟨args.prevLogIndex.toNat, by omega, by omega, hpt, ?_⟩, hcommit, ?_⟩
  · rw [hdrop, List.take_append_drop]
  · rw [hdrop, List.length_drop]
    omega

theorem genInstallSnapshot (h : rf.Compacts full) : rf.genInstallSnapshot.Covers full := by
  obtain ⟨k, e, hk, hle, -, he, ht⟩ := h
  exact ⟨k, hk, hle, ht.trans he⟩

/-! ### Changes of the log -/

/-- Cutting the log behind index `p` and appending is done on the whole log. -/
theorem cut (h : rf.Compacts full) {p : ℕ} (hlii : rf.lastIncludedIndex ≤ p)
    (hp : p ≤ full.length) (entries : List (LogEntry C)) :
    { rf with logs := rf.logs.take (p - rf.lastIncludedIndex + 1).toNat ++ entries }.Compacts
      (full.take p ++ entries) := by
  obtain ⟨k, e, hk, hle, hl, he, ht⟩ := h
  have hkp : k ≤ p := by omega
  refine ⟨k, e, hk, by simp; omega, ?_, ?_, ht⟩
  · rw [hk, hl, show ((p : ℤ) - k + 1).toNat = p - k + 1 by omega, List.take_succ_cons,
      List.cons_append, List.drop_append_of_le_length (by simp [hp, hkp]), List.drop_take]
  · rw [List.take_append_of_le_length (by simp [hp, hkp]), List.take_take, min_eq_left hkp]
    exact he

/-- An accepted `AppendEntries` leaves the leader's log up to the end of the request, if the peer
    agrees with the leader on what it keeps. -/
theorem stored (h : rf.Compacts full) {args : AppendEntriesArgs n C} {p : ℕ}
    (hp : args.prevLogIndex = p) (hpL : p ≤ L.length) (hL : L.take p ++ args.entries <+: L)
    (h0 : 0 ≤ args.prevLogIndex - rf.lastIncludedIndex + 1)
    (hagree : full.take p = L.take p ∨ p ≤ rf.lastIncludedIndex)
    (hbase : full.take rf.lastIncludedIndex.toNat <+: L)
    (hreach : rf.lastIncludedIndex ≤ p + args.entries.length) :
    (rf.stored args).Compacts (L.take p ++ args.entries) := by
  have hcut := h.cut (p := p)
  obtain ⟨k, e, hk, hle, hl, he, ht⟩ := h
  rw [hk, Int.toNat_natCast] at hbase
  rw [hk] at hagree hreach h0 hcut
  have hlen : (L.take p ++ args.entries).length = p + args.entries.length := by simp [hpL]
  have hbase' : (L.take p ++ args.entries).take k = full.take k := by
    have h1 := List.prefix_iff_eq_take.mp hbase
    have h2 := List.prefix_iff_eq_take.mp ((List.take_prefix k _).trans hL)
    rw [h1, h2]
    congr 1
    simp only [List.length_take, hlen]
    omega
  have hlit : (rf.stored args).lastIncludedTerm = lastTerm ((L.take p ++ args.entries).take k) := by
    rw [hbase', ← he, ← ht]; simp [Raft.stored]
  rcases le_or_gt k p with hkp | hkp
  · have hfull : full.take p = L.take p := by
      rcases hagree with h | h
      · exact h
      · obtain rfl : k = p := by omega
        rw [← hbase', List.take_append_of_le_length (by simp [hpL]), List.take_take, min_self]
    have hpf : p ≤ full.length := by
      have := congrArg List.length hfull
      simp only [List.length_take] at this
      omega
    rw [← hfull]
    refine (hcut (by omega) hpf args.entries).congr ?_ ?_ ?_ <;> simp [Raft.stored, hp, hk]
  · -- the request starts one entry below the marker, whose place its first entry takes
    obtain rfl : k = p + 1 := by omega
    obtain ⟨a, rest, hent⟩ : ∃ a rest, args.entries = a :: rest := by
      rcases hent : args.entries with _ | ⟨a, rest⟩
      · simp [hent] at hreach
      · exact ⟨a, rest, rfl⟩
    have hto : (args.prevLogIndex - rf.lastIncludedIndex + 1).toNat = 0 := by omega
    have hlast : lastTerm ((L.take p ++ args.entries).take (p + 1)) = a.term := by
      refine lastTerm_take_succ ?_
      rw [hent, List.getElem?_append_right (by simp)]
      simp [hpL]
    refine ⟨p + 1, a, by simp [Raft.stored, hk], by rw [hlen, hent]; simp, ?_, hlast.symm,
      hlit.trans hlast⟩
    simp only [Raft.stored, hto, List.take_zero, List.nil_append, hent]
    rw [List.drop_append, List.drop_of_length_le (by simp)]
    simp [hpL]

theorem startAppend (h : rf.Compacts full) (term : ℤ) (command : Option C) :
    (rf.startAppend term command).1.Compacts (full ++ [⟨term, command⟩]) ∧
      (rf.startAppend term command).2 = full.length + 1 := by
  have hlast := h.getLastLogicalIndex
  obtain ⟨k, e, hk, hle, hl, he, ht⟩ := h
  refine ⟨⟨k, e, hk, by simp; omega, ?_, ?_, ht⟩, ?_⟩
  · simp [Raft.startAppend, hl, List.drop_append_of_le_length hle]
  · rw [List.take_append_of_le_length hle]; exact he
  · rw [Raft.getLastLogicalIndex] at hlast
    simp only [Raft.startAppend, Raft.getLastLogicalIndex, List.length_append,
      List.length_singleton]
    push_cast
    omega

theorem snapshotTo (h : rf.Compacts full) {index : ℤ} {data : Option S}
    (hs : rf.snapshotTo index data = some rf') : rf'.Compacts full := by
  rcases Raft.snapshotTo_cases hs with ⟨-, rfl⟩ | ⟨hlt, hle', e', rest, hdrop, rfl⟩
  · exact h
  rw [h.getLastLogicalIndex] at hle'
  have hterm : lastTerm (full.take index.toNat) = e'.term := by
    have hidx := h.index hlt
    rw [Slice.index, if_pos (by omega), ← List.head?_drop, hdrop] at hidx
    obtain ⟨k, -, hk, -⟩ := h
    rw [show index.toNat = (index - 1).toNat + 1 by omega]
    exact lastTerm_take_succ hidx.symm
  obtain ⟨k, e, hk, -, hl, -⟩ := h
  obtain ⟨j, rfl⟩ : ∃ j : ℕ, index = k + 1 + j := ⟨(index - k - 1).toNat, by omega⟩
  refine ⟨k + 1 + j, ⟨e'.term, none⟩, by simp, by omega, ?_, ?_, rfl⟩
  · rw [hl, hk, show ((k : ℤ) + 1 + j - k).toNat = j + 1 by omega, List.drop_succ_cons,
      List.drop_drop] at hdrop
    have hrest := congrArg (List.drop 1) hdrop
    rw [List.drop_drop, List.drop_succ_cons, List.drop_zero] at hrest
    simp only [Raft.persist_logs]
    rw [show k + 1 + j = k + j + 1 by omega, hrest]
  · rw [← hterm]; congr 2

theorem installed {args : InstallSnapshotArgs n S} {k : ℕ} (hk : args.lastIncludedIndex = k)
    (hle : k ≤ L.length) (hterm : args.lastIncludedTerm = lastTerm (L.take k)) :
    (rf.installed args [⟨args.lastIncludedTerm, none⟩]).Compacts (L.take k) := by
  refine ⟨k, ⟨args.lastIncludedTerm, none⟩, hk, by simp [hle], ?_, ?_, rfl⟩
  · rw [List.drop_of_length_le (by simp)]; rfl
  · rw [List.take_take, min_self]; exact hterm

/-! ### Applying -/

theorem applyRange (h : rf.Compacts full) : ∀ {k : ℕ} {i : ℤ} {msgs : List (ApplyMsg C S)},
    rf.lastIncludedIndex < i → rf.applyRange k i = some msgs →
    ∀ m ∈ msgs, ∃ j e, m = .command e.command j ∧ i ≤ j ∧ j < i + k ∧
      full[(j - 1).toNat]? = some e
  | 0, i, msgs, _, hr => by
    cases hr; simp
  | k + 1, i, msgs, hi, hr => by
    rw [Raft.applyRange, Raft.convertToStorageIndex, h.index hi] at hr
    split at hr
    · rename_i e rest he hrest
      obtain rfl := Option.some.inj hr
      intro m hm
      rcases List.mem_cons.mp hm with rfl | hm
      · exact ⟨i, e, rfl, le_rfl, by push_cast; omega, he⟩
      · obtain ⟨j, e', hj, hij, hjk, hej⟩ := applyRange h (by omega) hrest m hm
        exact ⟨j, e', hj, by omega, by push_cast; omega, hej⟩
    · cases hr

/-- The batch of `applyLogs`: committed entries at their own indices. -/
theorem applyLogs (h : rf.Compacts full) {msgs : List (ApplyMsg C S)}
    (ha : rf.applyLogs = some (some msgs)) (hlii : rf.lastIncludedIndex ≤ rf.lastApplied) :
    ∀ m ∈ msgs, ∃ j e, m = .command e.command j ∧ 0 < j ∧ j ≤ rf.commitIndex ∧
      full[(j - 1).toNat]? = some e := by
  unfold Raft.applyLogs at ha
  rw [if_neg (by omega)] at ha
  split at ha
  · cases ha; simp
  · obtain ⟨msgs', hr, heq⟩ := Option.map_eq_some_iff.mp ha
    obtain rfl := Option.some.inj heq
    intro m hm
    obtain ⟨j, e, hj, hij, hjk, hej⟩ := h.applyRange (by omega) hr m hm
    obtain ⟨k, -, hk, -⟩ := h
    exact ⟨j, e, hj, by omega, by omega, hej⟩

end Raft.Compacts
end DistLabs
