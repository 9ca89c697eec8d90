import DistLabs.Raft.Edits
import DistLabs.Raft.Safety

/-! # The terms of a log

    Entries reach a log through `Start`, `AppendEntries`, `InstallSnapshot` and a restart. No term
    or index on these ways is ever negative. In order, and at most `currentTerm`, they are only as
    long as each way compares what it writes with what is there: `Start` writes a term that it has
    read in an earlier section, `AppendEntries` does not look at the marker in front of the log, and
    `condInstallSnapshot` takes an index for a term. -/

namespace DistLabs

variable {n : ℕ} {C S : Type}

/-! ### Signs -/

/-- No term and no index of the peer is negative. -/
structure Raft.Nonneg (rf : Raft n C S) : Prop where
  term : 0 ≤ rf.currentTerm
  index : 0 ≤ rf.lastIncludedIndex
  marker : 0 ≤ rf.lastIncludedTerm
  logs : ∀ e ∈ rf.logs, 0 ≤ e.term

/-- Nor is one that a goroutine carries. -/
def Thread.Nonneg : Thread n C S → Prop
  | .start term _ => 0 ≤ term
  | .append _ args false => ∀ e ∈ args.entries, 0 ≤ e.term
  | .installSend _ args => 0 ≤ args.lastIncludedTerm
  | .condInstall a b => 0 ≤ a ∧ 0 ≤ b
  | _ => True

namespace Raft.Nonneg

variable {rf rf' : Raft n C S}

theorem same (h : rf.Nonneg) (hs : rf.SameEntries rf') : rf'.Nonneg :=
  ⟨h.term.trans hs.term, hs.index ▸ h.index, hs.marker ▸ h.marker, hs.logs ▸ h.logs⟩

theorem make (me : Fin n) : (Raft.make me ⟨none, none⟩ : Raft n C S).Nonneg :=
  ⟨le_rfl, le_rfl, le_rfl, by simp [Raft.make, readPersist, readSnapshotPersist]⟩

theorem persist_restored (h : rf.Nonneg) : rf.persist.restored.Nonneg := by
  obtain ⟨hlogs, hindex, hmarker⟩ := restored_persist rf
  exact ⟨restored_persist_currentTerm rf ▸ h.term, hindex ▸ h.index, hmarker ▸ h.marker,
    hlogs ▸ h.logs⟩

theorem entries (h : rf.Nonneg) {server : Fin n} {args : AppendEntriesArgs n C}
    (hgen : rf.genAppendEntries server = some (args, false)) : ∀ e ∈ args.entries, 0 ≤ e.term := by
  obtain ⟨-, -, hargs⟩ := genAppendEntries_eq_some hgen
  obtain ⟨-, -, -, hent, -⟩ := hargs rfl
  exact fun e he => h.logs e (List.mem_of_mem_drop (hent ▸ he))

theorem cond (h : rf.Nonneg) {t i : ℤ} (ht : 0 ≤ t) (hi : 0 ≤ i)
    (hc : rf.condInstallSnapshot t i = some rf') : rf'.Nonneg := by
  obtain ⟨rest, rfl, hrest⟩ := condInstallSnapshot_cases hc
  refine ⟨h.term, hi, ht, fun e he => ?_⟩
  rcases List.mem_cons.mp he with rfl | he
  · exact ht
  rcases hrest with ⟨-, rfl⟩ | ⟨-, -, e', hdrop⟩
  · cases he
  · exact h.logs e (List.mem_of_mem_drop (hdrop ▸ List.mem_cons_of_mem _ he))

end Raft.Nonneg

theorem Node.Edit.nonneg {nd : Node n C S} {inp : Input n C S} {rf' : Raft n C S}
    (h : nd.rf.Nonneg) (hr : nd.rf.restored.Nonneg) (hW : ∀ t ∈ nd.running inp, t.Nonneg)
    (hA : ∀ args ∈ inp.appendRequest, ∀ e ∈ args.entries, 0 ≤ e.term)
    (hI : ∀ args ∈ inp.installRequest, 0 ≤ args.lastIncludedTerm) (he : nd.Edit inp rf') :
    rf'.Nonneg := by
  cases he with
  | keep same => exact h.same same.toSameEntries
  | append running =>
    refine ⟨h.term, h.index, h.marker, fun e he => ?_⟩
    rcases List.mem_append.mp he with he | he
    · exact h.logs e he
    · exact List.mem_singleton.mp he ▸ hW _ running
  | store request accepts low =>
    refine ⟨?_, by simpa using h.index, by simpa using h.marker,
      fun e he => ?_⟩
    · exact (Raft.follow_currentTerm accepts.1).ge.trans' (h.term.trans accepts.1)
    · rcases List.mem_append.mp he with he | he
      · exact h.logs e (List.mem_of_mem_take he)
      · exact hA _ request e he
  | commit same lt le applied => exact h.same same
  | applied running => exact ⟨h.term, h.index, h.marker, h.logs⟩
  | @compact _ _ e rest received lt le drop =>
    have hdrop : ∀ a ∈ e :: rest, 0 ≤ a.term := fun a ha =>
      h.logs a (List.mem_of_mem_drop (drop ▸ ha))
    refine ⟨h.term, h.index.trans lt.le, hdrop e (List.mem_cons_self ..), fun a ha => ?_⟩
    rcases List.mem_cons.mp ha with rfl | ha
    · exact hdrop e (List.mem_cons_self ..)
    · exact hdrop a (List.mem_cons_of_mem _ ha)
  | install request term lt ahead trim =>
    refine ⟨(Raft.meet_currentTerm term).ge.trans' (h.term.trans term), h.index.trans lt.le,
      hI _ request, fun a ha => ?_⟩
    rcases trim with ⟨-, rfl⟩ | ⟨-, e, rest, drop, rfl⟩
    · exact List.mem_singleton.mp ha ▸ hI _ request
    · rcases List.mem_cons.mp ha with rfl | ha
      · exact le_rfl
      · exact h.logs a (List.mem_of_mem_drop (drop ▸ List.mem_cons_of_mem _ ha))
  | cond running handler => exact h.cond (hW _ running).1 (hW _ running).2 handler
  | restart crash => exact hr

theorem Node.Spawned.nonneg {nd : Node n C S} {inp : Input n C S} {t : Thread n C S}
    (h : nd.rf.Nonneg) (hs : nd.Spawned inp t) : t.Nonneg := by
  cases hs with
  | start role command => exact h.term
  | @append _ _ isSnapshot running gen =>
    cases isSnapshot with
    | false => exact h.entries gen
    | true => trivial
  | installSend running => exact h.marker
  | condInstall running => exact ⟨h.index, h.marker⟩
  | _ => trivial

theorem nonneg_maintained (ok : Node n C S → Input n C S → Prop) : Maintained ok
    (fun _ => Raft.Nonneg) (fun _ => Thread.Nonneg) (fun _ args => ∀ e ∈ args.entries, 0 ≤ e.term)
    (fun _ args => 0 ≤ args.lastIncludedTerm) where
  boot _ i := ⟨.make i, .make i⟩
  later _ _ := ⟨fun _ => id, fun _ => id, fun _ => id, fun _ => id⟩
  stored _ _ h := h.persist_restored
  edit _ _ _ _ h hr _ hW hA hI _ he := he.nonneg h hr hW hA hI
  spawned _ _ _ _ h _ _ _ hs := hs.nonneg h
  append _ _ _ h := h
  install _ _ _ h := h

/-! ### Order -/

/-- The terms of the log never decrease from storage index 0 on, and none is larger than
    `currentTerm`. -/
def Raft.TermsOrdered (rf : Raft n C S) : Prop :=
  (rf.logs.map LogEntry.term).Pairwise (· ≤ ·) ∧ ∀ e ∈ rf.logs, e.term ≤ rf.currentTerm

instance (rf : Raft n C S) : Decidable rf.TermsOrdered :=
  inferInstanceAs (Decidable (List.Pairwise _ _ ∧ ∀ e ∈ rf.logs, _))

/-- A request continues the term before it in order, up to its own term. -/
def AppendEntriesArgs.Ordered (args : AppendEntriesArgs n C) : Prop :=
  (args.prevLogTerm :: args.entries.map LogEntry.term).Pairwise (· ≤ ·) ∧
    ∀ e ∈ args.entries, e.term ≤ args.term

namespace Node

/-- `Start` appends only while the server is still in the term it has read. -/
def StartInTerm (nd : Node n C S) (inp : Input n C S) : Prop :=
  ∀ t ∈ nd.running inp, ∀ term ∈ t.startTerm, nd.rf.currentTerm = term

/-- `AppendEntries` at the marker, whose term the code does not compare, finds no larger term
    there. -/
def MarkerBelow (nd : Node n C S) (inp : Input n C S) : Prop :=
  ∀ args ∈ inp.appendRequest, nd.rf.Accepts args → args.prevLogIndex = nd.rf.lastIncludedIndex →
    ∀ e ∈ nd.rf.logs.head?, e.term ≤ args.prevLogTerm

/-- The steps that write terms in order. -/
def TermsKept (nd : Node n C S) (inp : Input n C S) : Prop :=
  nd.StartInTerm inp ∧ nd.MarkerBelow inp ∧ nd.ApplyAhead inp

instance (nd : Node n C S) (inp : Input n C S) : Decidable (nd.StartInTerm inp) :=
  inferInstanceAs (Decidable (∀ t ∈ nd.running inp, ∀ term ∈ t.startTerm, _))

instance (nd : Node n C S) (inp : Input n C S) : Decidable (nd.MarkerBelow inp) :=
  inferInstanceAs (Decidable (∀ args ∈ inp.appendRequest, _ → _ → ∀ e ∈ nd.rf.logs.head?, _))

instance (nd : Node n C S) (inp : Input n C S) : Decidable (nd.TermsKept inp) :=
  inferInstanceAs (Decidable (_ ∧ _ ∧ _))

end Node

/-- A goroutine carries an ordered request; none is on its way to `condInstallSnapshot`. -/
def Thread.Ordered : Thread n C S → Prop
  | .append _ args false => args.Ordered
  | .installSend _ args => args.lastIncludedTerm ≤ args.term
  | .condRead => False
  | .condInstall _ _ => False
  | _ => True

namespace Raft

variable {rf rf' : Raft n C S}

/-- The marker's term is one the peer has reached, too. -/
def TermsReached (rf : Raft n C S) : Prop := rf.TermsOrdered ∧ rf.lastIncludedTerm ≤ rf.currentTerm

theorem TermsReached.same (h : rf.TermsReached) (hs : rf.SameEntries rf') : rf'.TermsReached := by
  obtain ⟨⟨hsort, hle⟩, hmark⟩ := h
  refine ⟨⟨hs.logs ▸ hsort, fun e he => ?_⟩, hs.marker ▸ hmark.trans hs.term⟩
  exact (hle e (hs.logs ▸ he)).trans hs.term

theorem TermsReached.make (me : Fin n) : (Raft.make me ⟨none, none⟩ : Raft n C S).TermsReached :=
  ⟨⟨List.pairwise_singleton .., by simp [Raft.make, readPersist, readSnapshotPersist]⟩, le_rfl⟩

theorem TermsReached.persist_restored (h : rf.TermsReached) : rf.persist.restored.TermsReached := by
  obtain ⟨hlogs, -, hmarker⟩ := restored_persist rf
  obtain ⟨⟨hsort, hle⟩, hmark⟩ := h
  refine ⟨⟨hlogs ▸ hsort, fun e he => ?_⟩, ?_⟩
  · rw [restored_persist_currentTerm]
    exact hle e (hlogs ▸ he)
  · rwa [hmarker, restored_persist_currentTerm]

/-- The log up to an entry has no larger term. -/
theorem TermsOrdered.take_le (h : rf.TermsOrdered) {k : ℕ} {t : ℤ} (ht : rf.termAt k = some t) :
    ∀ e ∈ rf.logs.take (k + 1), e.term ≤ t := by
  intro e he
  rw [termAt, Slice.index_natCast] at ht
  obtain ⟨a, ha, rfl⟩ := Option.map_eq_some_iff.mp ht
  obtain ⟨i, hi⟩ := List.mem_iff_getElem?.mp he
  obtain ⟨hilt, -⟩ := List.getElem?_eq_some_iff.mp hi
  rw [List.length_take] at hilt
  rw [List.getElem?_take_of_lt (by omega)] at hi
  rcases Nat.lt_or_ge i k with hik | hik
  · obtain ⟨hi', rfl⟩ := List.getElem?_eq_some_iff.mp hi
    obtain ⟨hk', rfl⟩ := List.getElem?_eq_some_iff.mp ha
    have := List.pairwise_iff_getElem.mp h.1 i k (by simpa using hi') (by simpa using hk') hik
    simpa using this
  · obtain rfl : i = k := by omega
    rw [hi] at ha
    exact (Option.some.inj ha ▸ le_rfl : e.term ≤ a.term)

/-- What an accepted `AppendEntries` keeps has no larger term than the request says. -/
theorem TermsOrdered.kept_le (h : rf.TermsOrdered) {args : AppendEntriesArgs n C}
    (hacc : rf.Accepts args) (hlow : rf.lastIncludedIndex ≤ args.prevLogIndex + 1)
    (hmark : args.prevLogIndex = rf.lastIncludedIndex →
      ∀ e ∈ rf.logs.head?, e.term ≤ args.prevLogTerm) :
    ∀ e ∈ rf.logs.take (args.prevLogIndex - rf.lastIncludedIndex + 1).toNat,
      e.term ≤ args.prevLogTerm := by
  intro e he
  rcases lt_trichotomy args.prevLogIndex rf.lastIncludedIndex with hlt | heq | hgt
  · rw [show (args.prevLogIndex - rf.lastIncludedIndex + 1).toNat = 0 by omega] at he
    cases he
  · rw [show (args.prevLogIndex - rf.lastIncludedIndex + 1).toNat = 1 by omega] at he
    refine hmark heq e ?_
    cases hl : rf.logs with
    | nil => rw [hl] at he; cases he
    | cons a r =>
      rw [hl] at he
      exact congrArg some (List.mem_singleton.mp he).symm
  · obtain ⟨k, hk⟩ : ∃ k : ℕ, args.prevLogIndex - rf.lastIncludedIndex = k :=
      ⟨(args.prevLogIndex - rf.lastIncludedIndex).toNat, by omega⟩
    have hterm := hacc.2.2 (by omega)
    rw [hk] at hterm he
    exact h.take_le hterm e he

theorem TermsReached.entries (h : rf.TermsReached) {server : Fin n} {args : AppendEntriesArgs n C}
    (hgen : rf.genAppendEntries server = some (args, false)) : args.Ordered := by
  obtain ⟨hterm, -, hargs⟩ := genAppendEntries_eq_some hgen
  obtain ⟨hlow, -, hprev, hent, -⟩ := hargs rfl
  obtain ⟨k, hk⟩ : ∃ k : ℕ, args.prevLogIndex - rf.lastIncludedIndex = k :=
    ⟨(args.prevLogIndex - rf.lastIncludedIndex).toNat, by omega⟩
  rw [show (args.prevLogIndex + 1 - rf.lastIncludedIndex).toNat = k + 1 by omega] at hent
  rw [hk] at hprev
  obtain ⟨a, ha, hat⟩ := Option.map_eq_some_iff.mp hprev
  rw [Slice.index_natCast] at ha
  obtain ⟨⟨hsort, hle⟩, -⟩ := h
  refine ⟨?_, fun e he => hterm ▸ hle e (List.mem_of_mem_drop (hent ▸ he))⟩
  -- the request is the end of the log, from the entry before it on
  have hdrop : rf.logs.drop k = a :: args.entries := by
    obtain ⟨hlt, rfl⟩ := List.getElem?_eq_some_iff.mp ha
    rw [hent, List.drop_eq_getElem_cons hlt]
  have := hsort.sublist ((List.drop_sublist k rf.logs).map LogEntry.term)
  rwa [hdrop, List.map_cons, hat] at this

theorem TermsOrdered.drop (h : rf.TermsOrdered) {k : ℕ} {e : LogEntry C}
    {rest : List (LogEntry C)} (hdrop : rf.logs.drop k = e :: rest) :
    ((e :: rest).map LogEntry.term).Pairwise (· ≤ ·) ∧
      ∀ a ∈ e :: rest, a.term ≤ rf.currentTerm := by
  refine ⟨?_, fun a ha => h.2 a (List.mem_of_mem_drop (hdrop ▸ ha))⟩
  have := h.1.sublist ((List.drop_sublist k rf.logs).map LogEntry.term)
  rwa [hdrop] at this

theorem TermsReached.startAppend (h : rf.TermsReached) (command : Option C) :
    (rf.startAppend rf.currentTerm command).1.TermsReached := by
  obtain ⟨⟨hsort, hle⟩, hmark⟩ := h
  refine ⟨⟨?_, fun e he => ?_⟩, hmark⟩
  · rw [Raft.startAppend, List.map_append, List.pairwise_append]
    refine ⟨hsort, List.pairwise_singleton .., fun a ha b hb => ?_⟩
    obtain ⟨e, he, rfl⟩ := List.mem_map.mp ha
    rw [List.mem_singleton.mp hb]
    exact hle e he
  · rcases List.mem_append.mp he with he | he
    · exact hle e he
    · rw [List.mem_singleton.mp he]
      exact le_rfl

theorem TermsReached.stored (h : rf.TermsReached) {args : AppendEntriesArgs n C}
    (hargs : args.Ordered) (hterm : rf.currentTerm ≤ args.term)
    (hkept : ∀ e ∈ rf.logs.take (args.prevLogIndex - rf.lastIncludedIndex + 1).toNat,
      e.term ≤ args.prevLogTerm) : (rf.stored args).persist.TermsReached := by
  obtain ⟨⟨hsort, hle⟩, hmark⟩ := h
  obtain ⟨hord, hent⟩ := hargs
  have hcur : (rf.stored args).persist.currentTerm = args.term := follow_currentTerm hterm
  rw [List.pairwise_cons] at hord
  refine ⟨⟨?_, fun e he => ?_⟩, ?_⟩
  · rw [persist_logs, Raft.stored, List.map_append, List.pairwise_append]
    refine ⟨hsort.sublist ((List.take_sublist ..).map _), hord.2, fun a ha b hb => ?_⟩
    obtain ⟨e, he, rfl⟩ := List.mem_map.mp ha
    exact (hkept e he).trans (hord.1 b hb)
  · rw [hcur]
    rcases List.mem_append.mp he with he | he
    · exact (hle e (List.mem_of_mem_take he)).trans hterm
    · exact hent e he
  · rw [hcur]
    exact (follow_lastIncludedTerm _).le.trans (hmark.trans hterm)

/-- The log that `InstallSnapshot` leaves: the new marker, or the marker with term 0 that it puts
    in front of the entries it keeps. -/
theorem TermsReached.installed (h : rf.TermsReached) (hn : rf.Nonneg)
    {args : InstallSnapshotArgs n S} {logs : List (LogEntry C)}
    (hargs : args.lastIncludedTerm ≤ args.term) (hterm : rf.currentTerm ≤ args.term)
    (hlogs : logs = [⟨args.lastIncludedTerm, none⟩] ∨
      ∃ (k : ℕ) (e : LogEntry C) (rest : List (LogEntry C)), rf.logs.drop k = e :: rest ∧
        logs = ⟨0, none⟩ :: rest) : (rf.installed args logs).persist.TermsReached := by
  have hcur : (rf.installed args logs).persist.currentTerm = args.term := meet_currentTerm hterm
  refine ⟨?_, hargs.trans hcur.ge⟩
  rw [TermsOrdered, hcur]
  rcases hlogs with rfl | ⟨k, e, rest, hdrop, rfl⟩
  · refine ⟨List.pairwise_singleton .., fun a ha => ?_⟩
    rw [List.mem_singleton.mp ha]
    exact hargs
  · obtain ⟨hsort, hle⟩ := h.1.drop hdrop
    refine ⟨List.pairwise_cons.mpr ⟨fun t ht => ?_, hsort.of_cons⟩, fun a ha => ?_⟩
    · obtain ⟨a, ha, rfl⟩ := List.mem_map.mp ht
      exact hn.logs a (List.mem_of_mem_drop (hdrop ▸ List.mem_cons_of_mem _ ha))
    · rcases List.mem_cons.mp ha with rfl | ha
      · exact hn.term.trans hterm
      · exact (hle a (List.mem_cons_of_mem _ ha)).trans hterm

end Raft

theorem Node.Edit.termsReached {nd : Node n C S} {inp : Input n C S} {rf' : Raft n C S}
    (hn : nd.rf.Nonneg) (h : nd.rf.TermsReached) (hr : nd.rf.restored.TermsReached)
    (hW : ∀ t ∈ nd.running inp, t.Ordered) (hA : ∀ args ∈ inp.appendRequest, args.Ordered)
    (hI : ∀ args ∈ inp.installRequest, args.lastIncludedTerm ≤ args.term)
    (hok : nd.TermsKept inp) (he : nd.Edit inp rf') : rf'.TermsReached := by
  cases he with
  | keep same => exact h.same same.toSameEntries
  | append running =>
    obtain rfl := hok.1 _ running _ rfl
    exact h.startAppend _
  | store request accepts low =>
    exact h.stored (hA _ request) accepts.1
      (h.1.kept_le accepts low (hok.2.1 _ request accepts))
  | commit same lt le applied => exact h.same same
  | applied running => exact h
  | @compact _ _ e rest received lt le drop =>
    obtain ⟨hsort, hle⟩ := h.1.drop drop
    have he := hle e (List.mem_cons_self ..)
    refine ⟨⟨hsort, fun a ha => ?_⟩, he⟩
    rcases List.mem_cons.mp ha with rfl | ha
    · exact he
    · exact hle a (List.mem_cons_of_mem _ ha)
  | install request term lt ahead trim =>
    refine h.installed hn (hI _ request) term ?_
    rcases trim with ⟨-, hlogs⟩ | ⟨-, e, rest, hdrop, hlogs⟩
    · exact .inl hlogs
    · exact .inr ⟨_, e, rest, hdrop, hlogs⟩
  | cond running handler => exact (hW _ running).elim
  | restart crash => exact hr

/-- `applyLogs` goes on to `condInstallSnapshot` only from behind the snapshot. -/
theorem Node.ApplyAhead.not_cond {nd : Node n C S} {inp : Input n C S} (h : nd.ApplyAhead inp)
    (running : nd.running inp = some .apply) : nd.rf.applyLogs ≠ some none := by
  have hle := h _ running rfl
  unfold Raft.applyLogs
  rw [if_neg (not_lt.mpr hle)]
  split
  · rintro ⟨⟩
  · intro hnone
    obtain ⟨msgs, -, hc⟩ := Option.map_eq_some_iff.mp hnone
    cases hc

theorem Node.Spawned.ordered {nd : Node n C S} {inp : Input n C S} {t : Thread n C S}
    (h : nd.rf.TermsReached) (hW : ∀ t ∈ nd.running inp, t.Ordered) (hok : nd.TermsKept inp)
    (hs : nd.Spawned inp t) : t.Ordered := by
  cases hs with
  | @append _ _ isSnapshot running gen =>
    cases isSnapshot with
    | false => exact h.entries gen
    | true => trivial
  | installSend running => exact h.2
  | condRead running logs => exact hok.2.2.not_cond running logs
  | condInstall running => exact (hW _ running).elim
  | _ => trivial

theorem ordered_maintained : Maintained (Node.TermsKept (n := n) (C := C) (S := S))
    (fun _ rf => rf.Nonneg ∧ rf.TermsReached) (fun _ t => t.Nonneg ∧ t.Ordered)
    (fun _ args => (∀ e ∈ args.entries, 0 ≤ e.term) ∧ args.Ordered)
    (fun _ args => 0 ≤ args.lastIncludedTerm ∧ args.lastIncludedTerm ≤ args.term) where
  boot _ i := ⟨⟨.make i, .make i⟩, ⟨.make i, .make i⟩⟩
  later _ _ := ⟨fun _ => id, fun _ => id, fun _ => id, fun _ => id⟩
  stored _ _ h := ⟨h.1.persist_restored, h.2.persist_restored⟩
  edit _ _ _ _ h hr _ hW hA hI hok he :=
    ⟨he.nonneg h.1 hr.1 (fun t ht => (hW t ht).1) (fun a ha => (hA a ha).1) fun a ha => (hI a ha).1,
      he.termsReached h.1 h.2 hr.2 (fun t ht => (hW t ht).2) (fun a ha => (hA a ha).2)
        (fun a ha => (hI a ha).2) hok⟩
  spawned _ _ _ _ h hW _ hok hs := ⟨hs.nonneg h.1, hs.ordered h.2 (fun t ht => (hW t ht).2) hok⟩
  append _ _ _ h := h
  install _ _ _ h := h

namespace Cluster

/-- Two servers. A call of `Start` has read term 1 from server 0. Server 1 leads term 2 and its
    first command reaches server 0, where the call then appends. -/
def startOvertaken [NeZero n] : List (Event n ℕ Unit) :=
  [.act 0 .timeout, .act 0 .startElection, .act 0 .sendRequestVotes, .act 0 .persistElection,
    .deliver 0, .deliver 0, .act 0 (.start (some 7)),
    .act 1 .timeout, .act 1 .startElection, .act 1 .sendRequestVotes, .act 1 .persistElection,
    .deliver 0, .deliver 0,
    .act 1 (.start (some 8)), .act 1 (.run 0), .act 1 (.run 0),
    .act 1 .heartbeat, .act 1 (.run 0), .act 1 (.run 0), .deliver 0, .act 0 (.run 0)]

end Cluster

/-! ### Code without the lock -/

theorem Node.crashLocal_termsKept : Node.CrashLocal (Node.TermsKept (n := n) (C := C) (S := S)) :=
  fun _ _ _ _ => ⟨by rintro _ ⟨⟩, by rintro _ ⟨⟩, by rintro _ ⟨⟩⟩

namespace Interleaved

/-- The terms of every log are in order, in every run in which `Start` appends in the term it has
    read, `AppendEntries` at the marker finds no larger term there, `applyLogs` is not entered
    behind the snapshot and code without the lock is not interrupted. -/
theorem log_terms_ordered {s : Interleaved n C S} (h : Run step (Steady Node.TermsKept) init s)
    (i : Fin n) : (s.cluster.nodes i).rf.TermsOrdered := by
  obtain ⟨t, ht, hst⟩ := exists_stands Node.crashLocal_termsKept h
  obtain ⟨hsorted, hterms⟩ := (ordered_maintained.run ht i).1.2.1
  have hunder := hst.underway i
  rw [Raft.TermsOrdered, hunder.logs]
  exact ⟨hsorted, fun e he => (hterms e he).trans hunder.currentTerm⟩

theorem log_terms_ordered_first_command : ∃ s : Interleaved 3 ℕ Unit,
    Run step (Steady Node.TermsKept) init s ∧
      (s.cluster.nodes 1).rf.logs = [⟨0, none⟩, ⟨1, some 7⟩] ∧
      (s.cluster.nodes 1).rf.TermsOrdered := by
  obtain ⟨s, t, hs, hem, hlogs⟩ := exists_run_of_schedule (n := 3) Node.TermsKept
    (Cluster.firstVote ++ Cluster.firstLeader ++ Cluster.firstCommand)
    (fun t => (t.nodes 1).rf.logs = [⟨0, none⟩, ⟨1, some 7⟩]) (by decide +kernel)
  rw [← hem.nodes] at hlogs
  exact ⟨s, hs, hlogs, log_terms_ordered hs 1⟩

/-- The log of server 0 has terms 0, 2, 1. -/
theorem start_overtaken_disorders :
    ¬ ∀ s : Interleaved 2 ℕ Unit, Run step (Steady Node.NoCrash) init s →
      ∀ i, (s.cluster.nodes i).rf.TermsOrdered := by
  obtain ⟨s, t, hs, hem, hbad⟩ := exists_run_of_schedule (n := 2) Node.NoCrash
    Cluster.startOvertaken (fun t => ¬ (t.nodes 0).rf.TermsOrdered) (by decide +kernel)
  rw [← hem.nodes] at hbad
  exact fun h => hbad (h s hs 0)

/-- `Start` on server `i`, where its goroutine gets number `k`. -/
def command (i : Fin n) (k : ℕ) (c : C) : List (FineEvent n C S) :=
  [.event (.act i (.start (some c))), .event (.act i (.run k)), .event (.act i (.run k))] ++
    persists i

/-- Server 0 leads term 1 and has compacted its first command, which servers 1 and 2 have. The reply
    of server 1 is still on its way, so server 0 sends it the snapshot. -/
def sendsSnapshot [NeZero n] : List (FineEvent n ℕ Unit) :=
  campaign 0 ++
  [.event (.deliver 0), .event (.deliver 1), .event (.deliver 0), .event (.deliver 0)] ++
  command 0 0 7 ++
  [.event (.act 0 .heartbeat), .event (.act 0 (.run 0)), .event (.act 0 (.run 0)),
    .event (.act 0 (.run 0)), .event (.act 0 (.run 0)), .event (.deliver 0), .event (.deliver 0),
    .event (.deliver 1), .event (.act 0 (.run 0)), .event (.act 0 (.run 0)),
    .event (.act 0 (.run 0)), .event (.act 0 (.run 0)), .event (.act 0 (.snapshot 1 (some ()))),
    .event (.act 0 .heartbeat), .event (.act 0 (.run 0)), .event (.act 0 (.run 1)),
    .event (.act 0 (.run 1)), .event (.act 0 (.run 1))]

/-- Server 1 has gone on to term 2 and refuses the snapshot. In the tail of `handleInstallSnapshot`
    server 0 is about to write this term. Before it does, server 2 is elected in term 3 and sends
    server 0 an entry. -/
def interruptedTail [NeZero n] : List (FineEvent n ℕ Unit) :=
  sendsSnapshot ++
  [.event (.act 1 .timeout), .event (.act 1 .startElection), .event (.deliver 1),
    .event (.deliver 1), .access 0 0, .access 0 0, .access 0 0] ++
  campaign 2 ++ campaign 2 ++ [.event (.deliver 4), .event (.deliver 4)] ++ command 2 0 9 ++
  [.event (.act 2 .heartbeat), .event (.act 2 (.run 0)), .event (.act 2 (.run 1)),
    .event (.deliver 4), .access 0 0]

/-- The tail then takes server 0 back to term 2, with an entry of term 3 in its log, although every
    section of every server is a sound one. -/
theorem interrupted_tail_lowers_term :
    ¬ ∀ s : Interleaved 3 ℕ Unit, Run step (Loose Node.Sound) init s →
      ∀ i, (s.cluster.nodes i).rf.TermsOrdered := by
  obtain ⟨s, hs, hbad⟩ := exists_run_of_play step (Loose Node.Sound) init interruptedTail
    (fun s : Interleaved 3 ℕ Unit => ¬ (s.cluster.nodes 0).rf.TermsOrdered) (by decide +kernel)
  exact fun h => hbad (h s hs 0)

end Interleaved
end DistLabs
