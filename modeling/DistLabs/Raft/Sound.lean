import DistLabs.Raft.Promise

/-! # Steps that replicate soundly

    Agreement of the logs fails in some runs. Each of the conditions below keeps a server from one
    of the steps that break it, and is about the server's state and the input of the step. Each is
    what the code would check if it read its state again in the section that uses it. -/

namespace DistLabs

variable {n : ℕ} {C S : Type}

/-- The term a `Start` call has read before it appends. -/
def Thread.startTerm : Thread n C S → Option ℤ
  | .start term _ => some term
  | _ => none

/-- The goroutine is about to enter `applyLogs`. -/
def Thread.isApply : Thread n C S → Bool
  | .apply => true
  | _ => false

namespace Raft

/-- The request passes the checks of `AppendEntries`. -/
def Accepts (rf : Raft n C S) (args : AppendEntriesArgs n C) : Prop :=
  rf.currentTerm ≤ args.term ∧ args.prevLogIndex ≤ rf.getLastLogicalIndex ∧
    (0 < args.prevLogIndex - rf.lastIncludedIndex →
      rf.termAt (args.prevLogIndex - rf.lastIncludedIndex) = some args.prevLogTerm)

instance (rf : Raft n C S) (args : AppendEntriesArgs n C) : Decidable (rf.Accepts args) :=
  inferInstanceAs (Decidable (_ ∧ _ ∧ (_ → _)))

/-- Entry `k` of the request has another term than the peer's entry at its place. -/
def conflictsAt (rf : Raft n C S) (args : AppendEntriesArgs n C) (k : ℕ) : Bool :=
  match rf.termAt (args.prevLogIndex + 1 + k - rf.lastIncludedIndex), args.entries[k]? with
  | some t, some e => decide (t ≠ e.term)
  | _, _ => false

end Raft

namespace Node

/-- `Start` appends only while the server still leads the term it has read. -/
def StartCurrent (nd : Node n C S) (inp : Input n C S) : Prop :=
  ∀ t ∈ nd.running inp, ∀ term ∈ t.startTerm,
    nd.rf.role = .Leader ∧ nd.rf.currentTerm = term

/-- An accepted `AppendEntries` reaches to the end of the log, or it has an entry that conflicts
    with the log: nothing is cut off that the leader may have. -/
def AppendKeeps (nd : Node n C S) (inp : Input n C S) : Prop :=
  ∀ args ∈ inp.appendRequest, nd.rf.Accepts args →
    nd.rf.getLastLogicalIndex ≤ args.prevLogIndex + args.entries.length ∨
      ∃ k ∈ List.range args.entries.length, nd.rf.conflictsAt args k = true

/-- A leader counts the success of requests of its own term only. -/
def AckCurrent (nd : Node n C S) (inp : Input n C S) : Prop :=
  ∀ r ∈ inp.appendReply, nd.rf.role = .Leader → r.2.term ≤ nd.rf.currentTerm →
    r.2.success = true → r.1.term = nd.rf.currentTerm

/-- `applyLogs` is not entered behind the snapshot. -/
def ApplyAhead (nd : Node n C S) (inp : Input n C S) : Prop :=
  ∀ t ∈ nd.running inp, t.isApply = true → nd.rf.lastIncludedIndex ≤ nd.rf.lastApplied

/-- A snapshot is installed only over a log that it covers. -/
def InstallAhead (nd : Node n C S) (inp : Input n C S) : Prop :=
  ∀ args ∈ inp.installRequest, nd.rf.currentTerm ≤ args.term →
    nd.rf.lastIncludedIndex < args.lastIncludedIndex →
    nd.rf.lastApplied < args.lastIncludedIndex →
    nd.rf.getLastLogicalIndex ≤ args.lastIncludedIndex

/-- All conditions together. -/
structure Sound (nd : Node n C S) (inp : Input n C S) : Prop where
  vote : nd.VoteCurrent inp
  crash : nd.CrashPersisted inp
  send : nd.SendCurrent inp
  start : nd.StartCurrent inp
  append : nd.AppendKeeps inp
  ack : nd.AckCurrent inp
  apply : nd.ApplyAhead inp
  install : nd.InstallAhead inp

instance (nd : Node n C S) (inp : Input n C S) : Decidable (nd.StartCurrent inp) :=
  inferInstanceAs (Decidable (∀ t ∈ nd.running inp, ∀ term ∈ t.startTerm, _))

instance (nd : Node n C S) (inp : Input n C S) : Decidable (nd.AppendKeeps inp) :=
  inferInstanceAs (Decidable (∀ args ∈ inp.appendRequest, _ → _ ∨ ∃ k ∈ List.range _, _))

instance (nd : Node n C S) (inp : Input n C S) : Decidable (nd.AckCurrent inp) :=
  inferInstanceAs (Decidable (∀ r ∈ inp.appendReply, _))

instance (nd : Node n C S) (inp : Input n C S) : Decidable (nd.ApplyAhead inp) :=
  inferInstanceAs (Decidable (∀ t ∈ nd.running inp, _))

instance (nd : Node n C S) (inp : Input n C S) : Decidable (nd.InstallAhead inp) :=
  inferInstanceAs (Decidable (∀ args ∈ inp.installRequest, _))

instance (nd : Node n C S) (inp : Input n C S) : Decidable (nd.Sound inp) :=
  decidable_of_iff (nd.VoteCurrent inp ∧ nd.CrashPersisted inp ∧ nd.SendCurrent inp ∧
      nd.StartCurrent inp ∧ nd.AppendKeeps inp ∧ nd.AckCurrent inp ∧ nd.ApplyAhead inp ∧
      nd.InstallAhead inp)
    ⟨fun ⟨h1, h2, h3, h4, h5, h6, h7, h8⟩ => ⟨h1, h2, h3, h4, h5, h6, h7, h8⟩,
      fun ⟨h1, h2, h3, h4, h5, h6, h7, h8⟩ => ⟨h1, h2, h3, h4, h5, h6, h7, h8⟩⟩

end Node
end DistLabs
