import DistLabs.Raft.Specs

/-! # Fast backtracking

    A leader and one follower, alone on a network that loses nothing, repeat the exchange of
    `AppendEntries` until it succeeds. The follower answers a mismatch with the term of its entry
    and the place where that term begins; the leader goes back to its own last entry of that term,
    or to that place. Either way the follower's term at the next `PrevLogIndex` is smaller, or the
    next request succeeds, so each term of the follower costs at most one rejection. -/

namespace DistLabs.Raft

variable {n : ℕ} {C S : Type} {l f l' f' : Raft n C S} {server : Fin n}

/-- How one exchange ends. -/
inductive Outcome where
  | rejected
  | success
  /-- the leader had compacted the entries and sent its snapshot instead -/
  | installed
  deriving DecidableEq

/-- One turn of the heartbeat goroutine for `server`: the request of leader `l`, the handler of the
    follower `f` and the leader's handling of the reply. -/
def exchange (server : Fin n) (l f : Raft n C S) : Option (Raft n C S × Raft n C S × Outcome) :=
  match l.genAppendEntries server with
  | none => none
  | some (_, true) =>
    (f.installSnapshot l.genInstallSnapshot).map fun (f, reply, _) =>
      (l.handleInstallSnapshot server l.genInstallSnapshot reply, f, .installed)
  | some (args, false) =>
    match f.appendEntries args with
    | none => none
    | some (f, reply, _) =>
      (l.handleAppendEntries server args reply).map fun (l, _) =>
        (l, f, if reply.success then .success else .rejected)

/-- The exchange is repeated until it succeeds; the number counts the rejections. -/
def repeatExchange (server : Fin n) :
    ℕ → Raft n C S → Raft n C S → Option (ℕ × Raft n C S × Raft n C S)
  | 0, _, _ => none
  | fuel + 1, l, f =>
    match exchange server l f with
    | none => none
    | some (l, f, .success) => some (0, l, f)
    | some (l, f, .rejected) => (repeatExchange server fuel l f).map fun (k, r) => (k + 1, r)
    | some (l, f, .installed) => repeatExchange server fuel l f

/-- The states before one of the repeated exchanges. -/
inductive Reached (server : Fin n) (l f : Raft n C S) : Raft n C S → Raft n C S → Prop
  | refl : Reached server l f l f
  | tail {l₁ f₁ l₂ f₂ : Raft n C S} {o : Outcome} : Reached server l f l₁ f₁ →
      exchange server l₁ f₁ = some (l₂, f₂, o) → o ≠ .success → Reached server l f l₂ f₂

/-- A log that starts with the sentinel, with terms from 1 on that never decrease. -/
structure Ordered (logs : List (LogEntry C)) : Prop where
  sentinel : logs.head? = some ⟨0, none⟩
  sorted : (logs.map LogEntry.term).Pairwise (· ≤ ·)
  pos : ∀ e ∈ logs.tail, 1 ≤ e.term

/-- The leader and the follower of the exchange. The first three conditions hold of every leader. -/
structure Backtracks (server : Fin n) (l f : Raft n C S) : Prop where
  role : l.role = .Leader
  nonneg : 0 ≤ l.currentTerm
  commit : 0 ≤ l.commitIndex
  term : f.currentTerm ≤ l.currentTerm
  base : l.lastIncludedIndex = 0 ∧ f.lastIncludedIndex = 0
  leader : Ordered l.logs
  follower : Ordered f.logs

/-- The distinct terms of the log up to index `p`, without the sentinel. -/
def termsTo (logs : List (LogEntry C)) (p : ℕ) : Finset ℤ :=
  ((logs.take (p + 1)).tail.map LogEntry.term).toFinset

/-- The distinct terms of the log, without the sentinel. -/
def distinctTerms (logs : List (LogEntry C)) : Finset ℤ := (logs.tail.map LogEntry.term).toFinset

/-- Two logs that have entries of one term at an index are the same up to it. -/
def Matching (logs logs' : List (LogEntry C)) : Prop :=
  ∀ i e e', logs[i]? = some e → logs'[i]? = some e' → e.term = e'.term →
    logs.take (i + 1) = logs'.take (i + 1)

/-! ### Ordered logs -/

theorem term_le_of_sorted {logs : List (LogEntry C)}
    (h : (logs.map LogEntry.term).Pairwise (· ≤ ·)) {i j : ℕ} {e e' : LogEntry C} (hij : i ≤ j)
    (hi : logs[i]? = some e) (hj : logs[j]? = some e') : e.term ≤ e'.term := by
  obtain ⟨hi', rfl⟩ := List.getElem?_eq_some_iff.mp hi
  obtain ⟨hj', rfl⟩ := List.getElem?_eq_some_iff.mp hj
  rcases hij.lt_or_eq with hlt | rfl
  · have := List.pairwise_iff_getElem.mp h i j (by simpa using hi') (by simpa using hj') hlt
    simpa using this
  · exact le_rfl

namespace Ordered

variable {logs : List (LogEntry C)} {i j : ℕ} {e e' : LogEntry C}

theorem length_pos (h : Ordered logs) : 0 < logs.length := by
  cases logs with
  | nil => cases h.sentinel
  | cons a r => exact Nat.succ_pos _

theorem term_le (h : Ordered logs) (hij : i ≤ j) (hi : logs[i]? = some e)
    (hj : logs[j]? = some e') : e.term ≤ e'.term := term_le_of_sorted h.sorted hij hi hj

theorem term_pos (h : Ordered logs) (hi : 0 < i) (he : logs[i]? = some e) : 1 ≤ e.term := by
  refine h.pos e (List.mem_of_getElem? (i := i - 1) ?_)
  rw [List.getElem?_tail, Nat.sub_add_cancel hi, he]

theorem zero (h : Ordered logs) : logs[0]? = some ⟨0, none⟩ := by
  rw [← List.head?_eq_getElem?, h.sentinel]

end Ordered

/-! ### The leader's scan -/

/-- On a log that starts with a small enough term the leader's scan finds an entry. -/
theorem backtrack_spec {logs : List (LogEntry C)} {t : ℤ} {e₀ : LogEntry C}
    (h0 : logs[0]? = some e₀) (ht : e₀.term ≤ t) {k : ℕ} (hpos : 0 < k) (hk : k ≤ logs.length) :
    ∃ (m : ℕ) (e : LogEntry C), backtrack logs t k = some (m : ℤ) ∧ m < k ∧ logs[m]? = some e ∧
      e.term ≤ t ∧ ∀ j e', m < j → j < k → logs[j]? = some e' → t < e'.term := by
  obtain ⟨x, hx, hlt, hstop, hall⟩ := backtrack_stops (t := t) hk
  rcases hstop with rfl | ⟨m, e, rfl, he, hle⟩
  · exact absurd (hall 0 e₀ (by decide) hpos h0) (not_lt.mpr ht)
  · exact ⟨m, e, hx, by omega, he, hle, fun j e' hmj => hall j e' (by omega)⟩

/-! ### One exchange -/

/-- The leader has moved `nextIndex[server]`. -/
def backTo (l : Raft n C S) (server : Fin n) (x : ℤ) : Raft n C S :=
  { l with nextIndex := Function.update l.nextIndex server x }.persist

@[simp] theorem backTo_nextIndex (l : Raft n C S) (server : Fin n) (x : ℤ) :
    (l.backTo server x).nextIndex server = x := Function.update_self ..

/-- The request with `PrevLogIndex = p` passes the checks of the follower. -/
def MatchAt (l f : Raft n C S) (p : ℕ) : Prop :=
  p < f.logs.length ∧ (p = 0 ∨ l.logs[p]?.map LogEntry.term = f.logs[p]?.map LogEntry.term)

theorem getLastLogicalIndex_of_base (h : l.lastIncludedIndex = 0) :
    l.getLastLogicalIndex = l.logs.length - 1 := by
  rw [getLastLogicalIndex, h, add_zero]

theorem termAt_natCast {p : ℕ} : l.termAt (p : ℤ) = l.logs[p]?.map LogEntry.term := by
  rw [termAt, Slice.index_natCast]

theorem backUp_eq {reply : AppendEntriesReply} {x : ℤ} (hne : reply.conflictTerm ≠ 0)
    (hback : backtrack l.logs reply.conflictTerm
      (l.convertToStorageIndex (l.nextIndex server - 1) + 1).toNat = some x) :
    l.backUp server reply = some { l with
      nextIndex := Function.update l.nextIndex server
        (if x ≥ 0 ∧ l.termAt x = some reply.conflictTerm then x + 1
          else reply.conflictIndex) } := by
  rw [backUp, if_pos hne]
  simp only [hback]
  split <;> rfl

namespace Backtracks

variable {p : ℕ} {e : LogEntry C}

theorem genAppendEntries (h : Backtracks server l f) (hp : l.nextIndex server = p + 1)
    (he : l.logs[p]? = some e) : l.genAppendEntries server = some
      (⟨l.currentTerm, l.me, p, e.term, l.logs.drop (p + 1), l.commitIndex⟩, false) := by
  obtain ⟨hlt, -⟩ := List.getElem?_eq_some_iff.mp he
  have hterm : l.termAt (p : ℤ) = some e.term := by rw [termAt_natCast, he]; rfl
  have hdrop : Slice.dropFrom l.logs ((p : ℤ) + 1) = some (l.logs.drop (p + 1)) :=
    Slice.dropFrom_eq_some.mpr ⟨by omega, by omega, by congr 1⟩
  simp only [Raft.genAppendEntries, hp, add_sub_cancel_right, h.base.1, convertToStorageIndex,
    sub_zero, hterm, hdrop, if_neg (show ¬ (p : ℤ) < 0 by omega)]

/-- The follower's log ends before `PrevLogIndex`. -/
theorem exchange_long (h : Backtracks server l f) (hp : l.nextIndex server = p + 1)
    (he : l.logs[p]? = some e) (hlong : f.logs.length ≤ p) :
    exchange server l f = some (l.backTo server (f.logs.length - 1),
      (f.follow l.currentTerm).persist, .rejected) := by
  have hlast : (p : ℤ) > (f.follow l.currentTerm).getLastLogicalIndex := by
    rw [getLastLogicalIndex_of_base (by rw [follow_lastIncludedIndex, h.base.2]), follow_logs]
    omega
  have hf : f.appendEntries ⟨l.currentTerm, l.me, p, e.term, l.logs.drop (p + 1), l.commitIndex⟩
      = some ((f.follow l.currentTerm).persist,
        ⟨l.currentTerm, false, f.logs.length - 1, 0⟩, false) := by
    rw [appendEntries_eq, if_neg (not_lt.mpr h.term), matchEntries, if_pos hlast,
      follow_currentTerm h.term,
      getLastLogicalIndex_of_base (by rw [follow_lastIncludedIndex, h.base.2]), follow_logs]
  rw [exchange, h.genAppendEntries hp he]
  simp only [hf]
  rw [handleAppendEntries_rejected h.role le_rfl rfl, backUp, if_neg (by simp)]
  rfl

/-- The follower's entry at `PrevLogIndex` has another term: its answer names that term and the
    place after an earlier entry, which has a smaller term or is the marker. -/
theorem appendEntries_other_term (h : Backtracks server l f) {ef : LogEntry C}
    (hef : f.logs[p]? = some ef) (hpos : 0 < p) (hne : ef.term ≠ e.term) :
    ∃ m : ℕ, m < p ∧
      f.appendEntries ⟨l.currentTerm, l.me, p, e.term, l.logs.drop (p + 1), l.commitIndex⟩
        = some ((f.follow l.currentTerm).persist, ⟨l.currentTerm, false, m + 1, ef.term⟩, false) ∧
      (m = 0 ∨ ∃ em, f.logs[m]? = some em ∧ em.term < ef.term) := by
  obtain ⟨hlt, -⟩ := List.getElem?_eq_some_iff.mp hef
  obtain ⟨m, hscan, hmp, -, hend⟩ := conflictScan_spec (t := ef.term) hlt
  have hbase : (f.follow l.currentTerm).lastIncludedIndex = 0 := by
    rw [follow_lastIncludedIndex, h.base.2]
  have hlast : ¬ (p : ℤ) > (f.follow l.currentTerm).getLastLogicalIndex := by
    rw [getLastLogicalIndex_of_base hbase, follow_logs]
    omega
  have hterm : (f.follow l.currentTerm).termAt (p : ℤ) = some ef.term := by
    rw [termAt_natCast, follow_logs, hef]; rfl
  refine ⟨m, ?_, ?_, hend⟩
  · rcases hend with rfl | ⟨em, hem, hlt'⟩
    · exact hpos
    · rcases hmp.lt_or_eq with hlt'' | rfl
      · exact hlt''
      · rw [hef] at hem
        rw [Option.some.inj hem] at hlt'
        exact absurd hlt' (lt_irrefl _)
  · rw [appendEntries_eq, if_neg (not_lt.mpr h.term), matchEntries, if_neg hlast]
    simp only [convertToStorageIndex, convertToLogicalIndex, hbase, sub_zero, add_zero, hterm,
      if_pos (show (p : ℤ) > 0 by omega), if_pos hne, Int.toNat_natCast, follow_logs, hscan,
      Option.map_some, follow_currentTerm h.term]

/-- The follower's entry at `PrevLogIndex` has another term: the leader goes back to `p' < p`, and
    there the request succeeds or the follower's term is smaller. -/
theorem exchange_conflict (h : Backtracks server l f) {ef : LogEntry C}
    (hp : l.nextIndex server = p + 1) (he : l.logs[p]? = some e) (hef : f.logs[p]? = some ef)
    (hpos : 0 < p) (hne : ef.term ≠ e.term) :
    ∃ p' : ℕ, p' < p ∧ exchange server l f = some (l.backTo server (p' + 1),
        (f.follow l.currentTerm).persist, .rejected) ∧
      (MatchAt l f p' ∨ ∃ ef', f.logs[p']? = some ef' ∧ ef'.term < ef.term) := by
  obtain ⟨hlt, -⟩ := List.getElem?_eq_some_iff.mp hef
  obtain ⟨hltl, -⟩ := List.getElem?_eq_some_iff.mp he
  obtain ⟨m, hm, hf, hend⟩ := h.appendEntries_other_term hef hpos hne
  -- the leader's own scan
  have hefpos := h.follower.term_pos hpos hef
  obtain ⟨q, eq, hback, hqp, heq, hqle, hqgt⟩ := backtrack_spec h.leader.zero
    (t := ef.term) (by dsimp only; omega) (Nat.succ_pos p) hltl
  have hidx : (l.convertToStorageIndex (l.nextIndex server - 1) + 1).toNat = p + 1 := by
    rw [convertToStorageIndex, hp, h.base.1]; omega
  have hmatch : exchange server l f = some (l.backTo server
      (if (q : ℤ) ≥ 0 ∧ l.termAt (q : ℤ) = some ef.term then (q : ℤ) + 1 else m + 1),
        (f.follow l.currentTerm).persist, .rejected) := by
    rw [exchange, h.genAppendEntries hp he]
    simp only [hf]
    rw [handleAppendEntries_rejected h.role le_rfl rfl,
      backUp_eq (x := q) (by dsimp only; omega) (by rw [hidx]; exact hback)]
    rfl
  by_cases hq : eq.term = ef.term
  · -- the leader has the follower's term
    have hqp' : q < p := by
      rcases Nat.lt_succ_iff_lt_or_eq.mp hqp with hlt' | rfl
      · exact hlt'
      · rw [he] at heq
        rw [← Option.some.inj heq] at hq
        exact absurd hq.symm hne
    have hqt : l.termAt (q : ℤ) = some ef.term := by rw [termAt_natCast, heq, ← hq]; rfl
    refine ⟨q, hqp', by rw [hmatch, if_pos ⟨by omega, hqt⟩], ?_⟩
    have hqlt : q < f.logs.length := by omega
    have hget : f.logs[q]? = some (f.logs.get ⟨q, hqlt⟩) := List.getElem?_eq_getElem hqlt
    rcases (h.follower.term_le hqp'.le hget hef).lt_or_eq with hlt' | heq'
    · exact .inr ⟨_, hget, hlt'⟩
    · exact .inl ⟨hqlt, .inr (by rw [heq, hget, Option.map_some, Option.map_some, hq, heq'])⟩
  · have hqt : ¬ ((q : ℤ) ≥ 0 ∧ l.termAt (q : ℤ) = some ef.term) := by
      rintro ⟨-, hqt⟩
      rw [termAt_natCast, heq] at hqt
      exact hq (Option.some.inj hqt)
    refine ⟨m, hm, by rw [hmatch, if_neg hqt], ?_⟩
    rcases hend with rfl | ⟨em, hem, hlt'⟩
    · exact .inl ⟨h.follower.length_pos, .inl rfl⟩
    · exact .inr ⟨em, hem, hlt'⟩

/-- The request passes the checks of the follower. -/
theorem exchange_match (h : Backtracks server l f) (hp : l.nextIndex server = p + 1)
    (he : l.logs[p]? = some e) (hmatch : MatchAt l f p) :
    ∃ l' f', exchange server l f = some (l', f', .success) ∧
      f'.logs = f.logs.take (p + 1) ++ l.logs.drop (p + 1) := by
  obtain ⟨hlt, hterm⟩ := hmatch
  have hbase : (f.follow l.currentTerm).lastIncludedIndex = 0 := by
    rw [follow_lastIncludedIndex, h.base.2]
  have hlast : ¬ (p : ℤ) > (f.follow l.currentTerm).getLastLogicalIndex := by
    rw [getLastLogicalIndex_of_base hbase, follow_logs]
    omega
  have hstored : (f.follow l.currentTerm).matchEntries
      ⟨l.currentTerm, l.me, p, e.term, l.logs.drop (p + 1), l.commitIndex⟩
      = (f.follow l.currentTerm).storeEntries
        ⟨l.currentTerm, l.me, p, e.term, l.logs.drop (p + 1), l.commitIndex⟩ p := by
    rw [matchEntries, if_neg hlast]
    simp only [convertToStorageIndex, hbase, sub_zero]
    rcases hterm with rfl | hterm
    · rw [if_neg (by simp)]
    · have hf : (f.follow l.currentTerm).termAt (p : ℤ) = some e.term := by
        rw [termAt_natCast, follow_logs, ← hterm, he]; rfl
      simp only [hf, ne_eq, not_true_eq_false, if_false, ite_self]
  have hcommit := h.commit
  obtain ⟨r, hr⟩ := exists_advanceCommit (l.matched server
      ⟨l.currentTerm, l.me, p, e.term, l.logs.drop (p + 1), l.commitIndex⟩)
      (k := (l.getLastLogicalIndex - l.commitIndex).toNat)
    (show l.lastIncludedIndex ≤ l.commitIndex + 1 by rw [h.base.1]; omega)
    (fun hk => show l.commitIndex + ((l.getLastLogicalIndex - l.commitIndex).toNat : ℤ)
      ≤ l.getLastLogicalIndex by omega)
  rw [exchange, h.genAppendEntries hp he]
  simp only
  rw [appendEntries_eq, if_neg (not_lt.mpr h.term), hstored, storeEntries_eq,
    if_pos ⟨by omega, by rw [follow_logs]; omega⟩]
  simp only
  rw [handleAppendEntries_eq_of_success _ _ _ rfl, if_neg (not_not.mpr h.role),
    if_neg (lt_irrefl _), hr]
  refine ⟨_, _, rfl, ?_⟩
  rw [persist_logs, follow_logs]
  congr 2

/-- Nothing but the sentinel is before `nextIndex`: the leader sends its (empty) snapshot, and goes
    on with the first entry. -/
theorem exchange_installed (h : Backtracks server l f) (hp : l.nextIndex server = 0) :
    ∃ l' f', exchange server l f = some (l', f', .installed) ∧ Backtracks server l' f' ∧
      l'.nextIndex server = 1 ∧ l'.logs = l.logs ∧ f'.logs = f.logs := by
  have hgen : l.genAppendEntries server
      = some (⟨l.currentTerm, l.me, -1, 0, [], 0⟩, true) := by
    simp [Raft.genAppendEntries, hp, h.base.1]
  have hargs : l.genInstallSnapshot.lastIncludedIndex = 0 := h.base.1
  -- the follower has everything the snapshot covers
  obtain ⟨r, hinst, hr⟩ : ∃ r : InstallSnapshotReply, f.installSnapshot l.genInstallSnapshot
      = some (if l.currentTerm > f.currentTerm then (f.stepDown l.currentTerm).persist
        else f.persist, r, none) ∧ r.term ≤ l.currentTerm := by
    have hnot : ¬ l.genInstallSnapshot.term < f.currentTerm := not_lt.mpr h.term
    rw [installSnapshot, if_neg hnot]
    split
    · rename_i hgt
      refine ⟨⟨l.currentTerm⟩, ?_, le_rfl⟩
      rw [trimToSnapshot, if_pos (.inl (by rw [hargs]; exact h.base.2.ge)),
        if_pos (show l.currentTerm > f.currentTerm from hgt)]
      rfl
    · rename_i hgt
      refine ⟨⟨0⟩, ?_, h.nonneg⟩
      rw [trimToSnapshot, if_pos (.inl (by rw [hargs]; exact h.base.2.ge)),
        if_neg (show ¬ l.currentTerm > f.currentTerm from hgt)]
  have hhandle : l.handleInstallSnapshot server l.genInstallSnapshot r = { l with
      nextIndex := Function.update l.nextIndex server 1
      matchIndex := Function.update l.matchIndex server 0 } := by
    rw [handleInstallSnapshot, if_neg (by simp [h.role, genInstallSnapshot]),
      if_neg (not_lt.mpr hr), if_pos (by rw [hp, hargs]), hargs, zero_add]
  refine ⟨_, _, by rw [exchange, hgen]; simp only [hinst, Option.map_some]; rfl, ?_⟩
  rw [hhandle]
  have hf : ∀ f' : Raft n C S, f' = (if l.currentTerm > f.currentTerm then
      (f.stepDown l.currentTerm).persist else f.persist) → f'.logs = f.logs ∧
      f'.lastIncludedIndex = 0 ∧ f'.currentTerm ≤ l.currentTerm := by
    rintro f' rfl
    split
    · exact ⟨rfl, h.base.2, le_rfl⟩
    · exact ⟨rfl, h.base.2, h.term⟩
  obtain ⟨hlogs, hlii, hle⟩ := hf _ rfl
  exact ⟨⟨h.role, h.nonneg, h.commit, hle, ⟨h.base.1, hlii⟩, h.leader, hlogs ▸ h.follower⟩,
    Function.update_self .., rfl, hlogs⟩

/-- A rejection moves only `nextIndex`; the pair is as before. -/
theorem backTo (h : Backtracks server l f) (x : ℤ) :
    Backtracks server (l.backTo server x) (f.follow l.currentTerm).persist where
  role := h.role
  nonneg := h.nonneg
  commit := h.commit
  term := (follow_currentTerm h.term).le
  base := ⟨h.base.1, by rw [persist_lastIncludedIndex, follow_lastIncludedIndex, h.base.2]⟩
  leader := h.leader
  follower := by
    rw [persist_logs, follow_logs]
    exact h.follower

/-- All an exchange can do from a `nextIndex` inside the log. -/
theorem exchange_cases (h : Backtracks server l f) (h0 : 0 ≤ l.nextIndex server)
    (hle : l.nextIndex server ≤ l.logs.length) :
    (∃ l' f', exchange server l f = some (l', f', .success)) ∨
    (∃ x, 0 ≤ x ∧ x < l.nextIndex server ∧ exchange server l f
      = some (l.backTo server x, (f.follow l.currentTerm).persist, .rejected)) ∨
    ∃ l' f', exchange server l f = some (l', f', .installed) ∧ Backtracks server l' f' ∧
      l'.nextIndex server = 1 ∧ l'.logs = l.logs := by
  rcases h0.lt_or_eq with hpos | hzero
  · obtain ⟨p, hp⟩ : ∃ p : ℕ, l.nextIndex server = p + 1 :=
      ⟨(l.nextIndex server - 1).toNat, by omega⟩
    have hlt : p < l.logs.length := by omega
    have he : l.logs[p]? = some (l.logs.get ⟨p, hlt⟩) := List.getElem?_eq_getElem hlt
    have hfpos := h.follower.length_pos
    by_cases hlong : f.logs.length ≤ p
    · exact .inr (.inl ⟨_, by omega, by omega, h.exchange_long hp he hlong⟩)
    have hef : f.logs[p]? = some (f.logs.get ⟨p, not_le.mp hlong⟩) :=
      List.getElem?_eq_getElem (not_le.mp hlong)
    by_cases hmatch : MatchAt l f p
    · obtain ⟨l', f', hex, -⟩ := h.exchange_match hp he hmatch
      exact .inl ⟨l', f', hex⟩
    · rw [MatchAt, he, hef, Option.map_some, Option.map_some, Option.some.injEq] at hmatch
      obtain ⟨p', hlt', hex, -⟩ := h.exchange_conflict hp he hef
        (Nat.pos_of_ne_zero fun h0 => hmatch ⟨not_le.mp hlong, .inl h0⟩)
        fun heq => hmatch ⟨not_le.mp hlong, .inr heq.symm⟩
      exact .inr (.inl ⟨_, by omega, by omega, hex⟩)
  · obtain ⟨l', f', hex, h', hone, hlogs, -⟩ := h.exchange_installed hzero.symm
    exact .inr (.inr ⟨l', f', hex, h', hone, hlogs⟩)

/-- The pair keeps its shape through the repeated exchanges. -/
theorem reached (h : Backtracks server l f) (h0 : 0 ≤ l.nextIndex server)
    (hle : l.nextIndex server ≤ l.logs.length) {l₁ f₁ : Raft n C S}
    (hr : Reached server l f l₁ f₁) :
    Backtracks server l₁ f₁ ∧ 0 ≤ l₁.nextIndex server ∧ l₁.nextIndex server ≤ l₁.logs.length := by
  induction hr with
  | refl => exact ⟨h, h0, hle⟩
  | tail _ hex ho ih =>
    obtain ⟨h₁, h0, hle⟩ := ih
    rcases h₁.exchange_cases h0 hle with ⟨_, _, heq⟩ | ⟨x, hx, hlt, heq⟩ | ⟨_, _, heq, h', hone, hl⟩
    all_goals
      rw [heq, Option.some.injEq, Prod.mk.injEq, Prod.mk.injEq] at hex
      obtain ⟨rfl, rfl, rfl⟩ := hex
    · exact absurd rfl ho
    · refine ⟨h₁.backTo x, by rwa [backTo_nextIndex], ?_⟩
      rw [backTo_nextIndex]
      exact hlt.le.trans hle
    · have := h₁.leader.length_pos
      exact ⟨h', by omega, by rw [hone, hl]; omega⟩

/-! ### Convergence -/

/-- A matching request ends the repetition; under log matching the follower has the leader's log. -/
theorem converges_of_match (h : Backtracks server l f) (hp : l.nextIndex server = p + 1)
    (hlt : p < l.logs.length) (hmatch : MatchAt l f p) :
    ∃ l' f', repeatExchange server 1 l f = some (0, l', f') ∧
      (Matching l.logs f.logs → f'.logs = l.logs) := by
  have he : l.logs[p]? = some (l.logs.get ⟨p, hlt⟩) := List.getElem?_eq_getElem hlt
  obtain ⟨l', f', hex, hlogs⟩ := h.exchange_match hp he hmatch
  refine ⟨l', f', by simp only [repeatExchange, hex], fun hm => ?_⟩
  obtain ⟨hltf, hterm⟩ := hmatch
  have hef : f.logs[p]? = some (f.logs.get ⟨p, hltf⟩) := List.getElem?_eq_getElem hltf
  have hterm : (l.logs.get ⟨p, hlt⟩).term = (f.logs.get ⟨p, hltf⟩).term := by
    rcases hterm with rfl | hterm
    · have hel := h.leader.zero.symm.trans he
      have hel' := h.follower.zero.symm.trans hef
      rw [← Option.some.inj hel, ← Option.some.inj hel']
    · rwa [he, hef, Option.map_some, Option.map_some, Option.some.injEq] at hterm
  rw [hlogs, ← hm p _ _ he hef hterm, List.take_append_drop]

theorem term_mem_termsTo {logs : List (LogEntry C)} (hpos : 0 < p) (he : logs[p]? = some e) :
    e.term ∈ termsTo logs p := by
  refine List.mem_toFinset.mpr (List.mem_map.mpr ⟨e, List.mem_of_getElem? (i := p - 1) ?_, rfl⟩)
  rw [List.getElem?_tail, Nat.sub_add_cancel hpos, List.getElem?_take_of_lt p.lt_succ_self, he]

theorem termsTo_subset (logs : List (LogEntry C)) (p : ℕ) :
    termsTo logs p ⊆ distinctTerms logs := by
  intro t ht
  rw [termsTo, List.mem_toFinset, List.mem_map] at ht
  obtain ⟨a, ha, rfl⟩ := ht
  exact List.mem_toFinset.mpr (List.mem_map.mpr
    ⟨a, (List.take_prefix _ _).sublist.tail.subset ha, rfl⟩)

/-- Going back to an entry of a smaller term leaves a whole term behind. -/
theorem card_termsTo_lt {logs : List (LogEntry C)} (h : Ordered logs) {p' : ℕ} {e' : LogEntry C}
    (hp : p' < p) (he : logs[p]? = some e) (he' : logs[p']? = some e') (hlt : e'.term < e.term) :
    (termsTo logs p').card < (termsTo logs p).card := by
  refine Finset.card_lt_card (Finset.ssubset_iff_subset_ne.mpr ⟨fun t ht => ?_, fun heq => ?_⟩)
  · rw [termsTo, List.mem_toFinset, List.mem_map] at ht ⊢
    obtain ⟨a, ha, rfl⟩ := ht
    have hsub : logs.take (p' + 1) <+: logs.take (p + 1) := List.take_prefix_take_left (by omega)
    exact ⟨a, hsub.sublist.tail.subset ha, rfl⟩
  · have hmem := heq ▸ term_mem_termsTo (Nat.pos_of_ne_zero (by omega)) he
    rw [termsTo, List.mem_toFinset, List.mem_map] at hmem
    obtain ⟨a, ha, hterm⟩ := hmem
    obtain ⟨i, hi⟩ := List.mem_iff_getElem?.mp (List.mem_of_mem_tail ha)
    have hip : i < p' + 1 := by
      by_contra hge
      rw [List.getElem?_take_eq_none (by omega)] at hi
      cases hi
    rw [List.getElem?_take_of_lt hip] at hi
    have := h.term_le (Nat.lt_succ_iff.mp hip) hi he'
    omega

/-- Once `PrevLogIndex` is inside the follower's log, each rejection leaves one of the follower's
    terms behind. -/
theorem converges_inside (h : Backtracks server l f) (hp : l.nextIndex server = p + 1)
    (hlt : p < l.logs.length) (hltf : p < f.logs.length) :
    ∃ fuel r l' f', repeatExchange server fuel l f = some (r, l', f') ∧
      r ≤ (termsTo f.logs p).card ∧ (Matching l.logs f.logs → f'.logs = l.logs) := by
  induction p using Nat.strong_induction_on generalizing l f with
  | _ p ih =>
    by_cases hmatch : MatchAt l f p
    · obtain ⟨l', f', hex, hm⟩ := h.converges_of_match hp hlt hmatch
      exact ⟨1, 0, l', f', hex, Nat.zero_le _, hm⟩
    have he : l.logs[p]? = some (l.logs.get ⟨p, hlt⟩) := List.getElem?_eq_getElem hlt
    have hef : f.logs[p]? = some (f.logs.get ⟨p, hltf⟩) := List.getElem?_eq_getElem hltf
    have hne := hmatch
    rw [MatchAt, he, hef, Option.map_some, Option.map_some, Option.some.injEq] at hne
    have hpos : 0 < p := Nat.pos_of_ne_zero fun h0 => hne ⟨hltf, .inl h0⟩
    obtain ⟨p', hlt', hex, hnext⟩ := h.exchange_conflict hp he hef hpos
      fun heq => hne ⟨hltf, .inr heq.symm⟩
    have hlogs : (f.follow l.currentTerm).persist.logs = f.logs := by
      rw [persist_logs, follow_logs]
    rcases hnext with hnext | ⟨ef', hef', hsmall⟩
    · have hnext' : MatchAt (l.backTo server (p' + 1)) (f.follow l.currentTerm).persist p' := by
        rw [MatchAt, hlogs]
        exact hnext
      obtain ⟨l', f', hrest, hm⟩ := (h.backTo (p' + 1)).converges_of_match
        (backTo_nextIndex ..) (show p' < l.logs.length by omega) hnext'
      refine ⟨2, 1, l', f', by simp only [repeatExchange, hex] at hrest ⊢; rw [hrest]; rfl, ?_,
        fun hmt => hm (hlogs.symm ▸ hmt)⟩
      exact Finset.card_pos.mpr ⟨_, term_mem_termsTo hpos hef⟩
    · obtain ⟨fuel, r, l', f', hrest, hr, hm⟩ := ih p' hlt' (h.backTo (p' + 1))
        (backTo_nextIndex ..) (show p' < l.logs.length by omega) (by rw [hlogs]; omega)
      refine ⟨fuel + 1, r + 1, l', f', by rw [repeatExchange, hex]; simp only [hrest]; rfl, ?_,
        fun hmt => hm (hlogs.symm ▸ hmt)⟩
      have := card_termsTo_lt h.follower hlt' hef hef' hsmall
      rw [hlogs] at hr
      omega

/-- The follower's log ends before `PrevLogIndex`: one rejection brings the exchange to its last
    entry, or through the snapshot of a leader that has nothing smaller to send. -/
theorem converges_long (h : Backtracks server l f) (hp : l.nextIndex server = p + 1)
    (hlt : p < l.logs.length) (hlong : f.logs.length ≤ p) :
    ∃ fuel r l' f', repeatExchange server fuel l f = some (r, l', f') ∧
      r ≤ 1 + (distinctTerms f.logs).card ∧ (Matching l.logs f.logs → f'.logs = l.logs) := by
  have hpos := h.follower.length_pos
  have hex := h.exchange_long hp (List.getElem?_eq_getElem hlt) hlong
  have hback := h.backTo ((f.logs.length : ℤ) - 1)
  have hflogs : (f.follow l.currentTerm).persist.logs = f.logs := by
    rw [persist_logs, follow_logs]
  rcases Nat.lt_or_ge 1 f.logs.length with hlen | hlen
  · obtain ⟨fuel, r, l', f', hrest, hr, hm⟩ := hback.converges_inside (p := f.logs.length - 2)
      (by rw [backTo_nextIndex]; omega) (show f.logs.length - 2 < l.logs.length by omega)
      (by rw [hflogs]; omega)
    refine ⟨fuel + 1, r + 1, l', f', by rw [repeatExchange, hex]; simp only [hrest]; rfl, ?_,
      fun hmt => hm (hflogs.symm ▸ hmt)⟩
    have := (termsTo_subset f.logs (f.logs.length - 2)) |> Finset.card_le_card
    rw [hflogs] at hr
    omega
  · -- the corner: `nextIndex` falls to 0
    obtain ⟨l₁, f₁, hinst, h₁, hone, hlogs₁, hflogs₁⟩ := hback.exchange_installed
      (by rw [backTo_nextIndex]; omega)
    obtain ⟨l', f', hrest, hm⟩ := h₁.converges_of_match (p := 0) (by rw [hone]; rfl)
      (by rw [hlogs₁]; exact h.leader.length_pos) ⟨h₁.follower.length_pos, .inl rfl⟩
    refine ⟨3, 1, l', f', ?_, by omega, fun hmt => ?_⟩
    · simp only [repeatExchange] at hrest
      simp only [repeatExchange, hex, hinst, hrest]
      rfl
    · exact (hm (by rw [hlogs₁, hflogs₁, hflogs]; exact hmt)).trans hlogs₁

end Backtracks

/-- The exchange, repeated from any `nextIndex` inside the leader's log, ends in a success after at
    most one rejection more than the follower's log has terms. -/
theorem fast_backtracking (h : Backtracks server l f)
    (hnext : 1 ≤ l.nextIndex server ∧ l.nextIndex server ≤ l.getLastLogicalIndex + 1) :
    (∃ fuel r l' f', repeatExchange server fuel l f = some (r, l', f') ∧
      r ≤ 1 + (distinctTerms f.logs).card ∧ (Matching l.logs f.logs → f'.logs = l.logs)) ∧
    ∀ l₁ f₁ l₂ f₂, Reached server l f l₁ f₁ → exchange server l₁ f₁ = some (l₂, f₂, .rejected) →
      l₂.nextIndex server < l₁.nextIndex server := by
  obtain ⟨hone, hle⟩ := hnext
  rw [getLastLogicalIndex_of_base h.base.1, sub_add_cancel] at hle
  constructor
  · obtain ⟨p, hp⟩ : ∃ p : ℕ, l.nextIndex server = p + 1 :=
      ⟨(l.nextIndex server - 1).toNat, by omega⟩
    have hlt : p < l.logs.length := by omega
    rcases Nat.lt_or_ge p f.logs.length with hltf | hlong
    · obtain ⟨fuel, r, l', f', hrest, hr, hm⟩ := h.converges_inside hp hlt hltf
      have := Finset.card_le_card (Backtracks.termsTo_subset f.logs p)
      exact ⟨fuel, r, l', f', hrest, by omega, hm⟩
    · exact h.converges_long hp hlt hlong
  · intro l₁ f₁ l₂ f₂ hr hex
    obtain ⟨h₁, h0, hle₁⟩ := h.reached (by omega) hle hr
    rcases h₁.exchange_cases h0 hle₁ with ⟨_, _, heq⟩ | ⟨x, -, hlt, heq⟩ | ⟨_, _, heq, -⟩
    all_goals
      rw [heq, Option.some.injEq, Prod.mk.injEq, Prod.mk.injEq] at hex
      obtain ⟨rfl, -, ho⟩ := hex
    · cases ho
    · rwa [backTo_nextIndex]
    · cases ho

/-- A leader of term 3 with `1, 1, 3, 3` after the sentinel. -/
def leaderOfThree : Raft 2 ℕ Unit :=
  { Raft.make 0 ⟨none, none⟩ with
    role := .Leader
    currentTerm := 3
    nextIndex := fun _ => 5
    logs := [⟨0, none⟩, ⟨1, some 0⟩, ⟨1, some 1⟩, ⟨3, some 2⟩, ⟨3, some 3⟩] }

/-- A follower with `1, 2, 2` after the sentinel. -/
def followerOfTwo : Raft 2 ℕ Unit :=
  { Raft.make 1 ⟨none, none⟩ with
    currentTerm := 2
    logs := [⟨0, none⟩, ⟨1, some 0⟩, ⟨2, some 4⟩, ⟨2, some 5⟩] }

theorem leaderOfThree_matching : Matching leaderOfThree.logs followerOfTwo.logs := by
  intro i e e' he he' hterm
  have hlt : i < 4 := (List.getElem?_eq_some_iff.mp he').1
  interval_cases i <;> obtain rfl := Option.some.inj he <;> obtain rfl := Option.some.inj he'
  · rfl
  · rfl
  · cases hterm
  · cases hterm

theorem leaderOfThree_backtracks : Backtracks 1 leaderOfThree followerOfTwo where
  role := rfl
  nonneg := by decide
  commit := by decide
  term := by decide
  base := by decide
  leader := ⟨rfl, by decide, by decide⟩
  follower := ⟨rfl, by decide, by decide⟩

theorem fast_backtracking_two_terms :
    ∃ fuel r l' f', repeatExchange 1 fuel leaderOfThree followerOfTwo = some (r, l', f') ∧
      r ≤ 3 ∧ f'.logs = leaderOfThree.logs := by
  obtain ⟨⟨fuel, r, l', f', hrun, hr, hm⟩, -⟩ :=
    fast_backtracking leaderOfThree_backtracks ⟨by decide, by decide⟩
  exact ⟨fuel, r, l', f', hrun, hr, hm leaderOfThree_matching⟩

end DistLabs.Raft
