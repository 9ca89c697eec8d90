import DistLabs.Raft.Marker

/-! # The leader's bookkeeping

    `nextIndex` and `matchIndex` are written by goroutines that wait for replies, and a goroutine
    may outlive the term it was started in. As long as a server stays in one term and is no follower
    its log does not get shorter, so what a request of this term covers stays within the log; a
    reply to a request of an earlier term has no such bound. -/

namespace DistLabs

variable {n : ℕ} {C S : Type}

/-- The term of a request and the last index it covers. -/
def AppendEntriesArgs.reach (args : AppendEntriesArgs n C) : ℤ × ℤ :=
  (args.term, args.prevLogIndex + args.entries.length)

def InstallSnapshotArgs.reach (args : InstallSnapshotArgs n S) : ℤ × ℤ :=
  (args.term, args.lastIncludedIndex)

/-- The request a goroutine is about to send. -/
def Thread.reach : Thread n C S → Option (ℤ × ℤ)
  | .append _ args false => some args.reach
  | .installSend _ args => some args.reach
  | _ => none

/-- The request that the message is or answers. -/
def Packet.reach (p : Packet n C S) : Option (ℤ × ℤ) :=
  match p.body with
  | .appendEntries args => some args.reach
  | .appendEntriesReply args _ => some args.reach
  | .installSnapshot args => some args.reach
  | .installSnapshotReply args _ => some args.reach
  | _ => none

/-- The server whose goroutine waits for the reply. -/
def Packet.caller (p : Packet n C S) : Fin n := if p.isReply then p.dst else p.src

/-- The request that a reply answers. -/
def Packet.asked (p : Packet n C S) : Option (Packet n C S) :=
  match p.body with
  | .appendEntriesReply args _ => some ⟨p.dst, p.src, p.incarnation, .appendEntries args⟩
  | .installSnapshotReply args _ => some ⟨p.dst, p.src, p.incarnation, .installSnapshot args⟩
  | _ => none

/-- The conflict index of a refusal lies within the request, or the request was of an older term. -/
def Packet.ConflictWithin (p : Packet n C S) : Prop :=
  ∀ args reply, p.body = .appendEntriesReply args reply → reply.success = false →
    args.term < reply.term ∨ reply.conflictIndex ≤ args.prevLogIndex

/-- What was built in this term, by a server that is no follower, is within the log. -/
def Raft.Within (rf : Raft n C S) (r : ℤ × ℤ) : Prop :=
  r.1 ≤ rf.currentTerm ∧ (r.1 = rf.currentTerm → rf.role ≠ .Follower → r.2 ≤ rf.getLastLogicalIndex)

namespace Node

variable {nd : Node n C S} {inp : Input n C S} {out : Out n C S} {rf' : Raft n C S}

/-- The reply to an `AppendEntries` that a goroutine of the server still waits for. -/
def awaited (nd : Node n C S) (inp : Input n C S) :
    Option (AppendEntriesArgs n C × AppendEntriesReply) :=
  match inp with
  | .act _ => none
  | .recv p => if p.incarnation = nd.incarnation then (Input.recv p).appendReply else none

/-- A leader uses replies to requests of its own term only. -/
def ReplyCurrent (nd : Node n C S) (inp : Input n C S) : Prop :=
  ∀ r ∈ nd.awaited inp, nd.rf.role = .Leader → r.2.term ≤ nd.rf.currentTerm →
    r.1.term = nd.rf.currentTerm

/-- The steps that keep the books. -/
def LedgerKept (nd : Node n C S) (inp : Input n C S) : Prop :=
  nd.ReplyCurrent inp ∧ nd.AppendAhead inp

instance (nd : Node n C S) (inp : Input n C S) : Decidable (nd.ReplyCurrent inp) :=
  inferInstanceAs (Decidable (∀ r ∈ nd.awaited inp, _))

instance (nd : Node n C S) (inp : Input n C S) : Decidable (nd.LedgerKept inp) :=
  inferInstanceAs (Decidable (_ ∧ _))

/-! ### A log in one term -/

/-- Only an accepted `AppendEntries`, which makes the server a follower, and a restart make a log
    shorter. -/
theorem Edit.last_le (h : nd.Edit inp rf') (hcrash : inp.isCrash = false)
    (hrole : rf'.role ≠ .Follower) : nd.rf.getLastLogicalIndex ≤ rf'.getLastLogicalIndex := by
  cases h with
  | keep same => exact same.last.ge
  | append running =>
    simp only [Raft.getLastLogicalIndex, Raft.startAppend, List.length_append,
      List.length_singleton]
    push_cast
    omega
  | store request accepts low => exact absurd (Raft.follow_role _) hrole
  | commit same lt le applied => exact same.last.ge
  | applied running => exact le_rfl
  | compact received lt le drop =>
    exact (Raft.getLastLogicalIndex_of_drop lt.le drop rfl rfl).ge
  | install request term lt ahead trim =>
    rw [Raft.getLastLogicalIndex_trimmed lt.le trim]
    exact le_max_left ..
  | cond running handler =>
    obtain ⟨rest, rfl, ⟨hlt, rfl⟩ | ⟨hlow, -, e, hdrop⟩⟩ := Raft.condInstallSnapshot_cases handler
    · simpa [Raft.getLastLogicalIndex] using hlt.le
    · exact (Raft.getLastLogicalIndex_of_drop hlow hdrop rfl rfl).ge
  | restart crash =>
    rw [crash] at hcrash
    cases hcrash

/-- Within one term a follower stays a follower. -/
theorem Move.role_kept (h : nd.Move inp out) (hcrash : inp.isCrash = false) :
    nd.rf.currentTerm ≤ out.node.rf.currentTerm ∧ out.node.incarnation = nd.incarnation ∧
    (out.node.rf.currentTerm = nd.rf.currentTerm → out.node.rf.role ≠ .Follower →
      nd.rf.role ≠ .Follower) := by
  have hkeeps : ∀ {rf' : Raft n C S}, nd.rf.Keeps rf' → nd.rf.currentTerm ≤ rf'.currentTerm ∧
      (rf'.currentTerm = nd.rf.currentTerm → rf'.role ≠ .Follower → nd.rf.role ≠ .Follower) := by
    rintro rf' ⟨-, ⟨ht, -, hr⟩ | ⟨ht, -, hr⟩⟩
    · exact ⟨ht.ge, fun _ => hr⟩
    · exact ⟨ht.le, fun _ hne => absurd hr hne⟩
  cases h.ballot with
  | quiet rf incarnation voteCounts ticker sent recv =>
    exact ⟨(hkeeps rf.keeps).1, incarnation, (hkeeps rf.keeps).2⟩
  | start ticker =>
    refine ⟨Int.le_add_one le_rfl, rfl, fun heq => ?_⟩
    exact absurd heq (Int.ne_of_gt (Int.lt_succ nd.rf.currentTerm))
  | send ticker args_eq => exact ⟨le_rfl, rfl, fun _ => id⟩
  | vote body handler =>
    rcases Raft.requestVote_cases handler with ⟨-, rfl, -⟩ | ⟨hle, -, b, -, rfl, -⟩
    · exact ⟨le_rfl, rfl, fun _ => id⟩
    · obtain ⟨h1, h2⟩ := hkeeps (Raft.quiet_meet : nd.rf.Quiet (nd.rf.meet _)).keeps
      exact ⟨h1, rfl, h2⟩
  | count body incarnation =>
    obtain ⟨h1, h2⟩ := hkeeps (Raft.keeps_handleRequestVote nd.rf _ _)
    exact ⟨h1, rfl, h2⟩
  | late incarnation => exact ⟨le_rfl, rfl, fun _ => id⟩
  | crash => cases hcrash

theorem Move.within (h : nd.Move inp out) (hcrash : inp.isCrash = false) {r : ℤ × ℤ}
    (hr : nd.rf.Within r) : out.node.rf.Within r := by
  obtain ⟨hterm, -, hrole⟩ := h.role_kept hcrash
  refine ⟨hr.1.trans hterm, fun heq hne => ?_⟩
  have hsame : out.node.rf.currentTerm = nd.rf.currentTerm := le_antisymm (heq ▸ hr.1) hterm
  exact (hr.2 (heq.trans hsame) (hrole hsame hne)).trans (h.edit.last_le hcrash hne)

/-! ### What a step does to the books -/

/-- What a step of a server that is leader after it does to `nextIndex` and `matchIndex`. -/
inductive Counts (nd : Node n C S) (inp : Input n C S) (rf' : Raft n C S) : Prop
  | same (role : nd.rf.role = .Leader) (term : rf'.currentTerm = nd.rf.currentTerm)
      (next : rf'.nextIndex = nd.rf.nextIndex) (matched : rf'.matchIndex = nd.rf.matchIndex)
  | elected (next : ∀ j, rf'.nextIndex j = rf'.getLastLogicalIndex + 1)
      (matched : ∀ j, rf'.matchIndex j = -1)
  | refused {p : Packet n C S} {args : AppendEntriesArgs n C} {reply : AppendEntriesReply} {x : ℤ}
      (input : inp = .recv p) (body : p.body = .appendEntriesReply args reply)
      (incarnation : p.incarnation = nd.incarnation) (role : nd.rf.role = .Leader)
      (current : reply.term ≤ nd.rf.currentTerm) (success : reply.success = false)
      (term : rf'.currentTerm = nd.rf.currentTerm)
      (next : rf'.nextIndex = Function.update nd.rf.nextIndex p.src x)
      (matched : rf'.matchIndex = nd.rf.matchIndex)
      (back : nd.rf.nextIndex p.src ≤ nd.rf.getLastLogicalIndex + 1 →
        x = reply.conflictIndex ∨ x ≤ nd.rf.nextIndex p.src - nd.rf.lastIncludedIndex)
  | acknowledged {p : Packet n C S} {args : AppendEntriesArgs n C} {reply : AppendEntriesReply}
      (input : inp = .recv p) (body : p.body = .appendEntriesReply args reply)
      (incarnation : p.incarnation = nd.incarnation) (role : nd.rf.role = .Leader)
      (current : reply.term ≤ nd.rf.currentTerm) (success : reply.success = true)
      (term : rf'.currentTerm = nd.rf.currentTerm)
      (next : rf'.nextIndex = Function.update nd.rf.nextIndex p.src (nd.rf.getLastLogicalIndex + 1))
      (matched : rf'.matchIndex = Function.update nd.rf.matchIndex p.src args.reach.2)
  | installed {p : Packet n C S} {args : InstallSnapshotArgs n S} {reply : InstallSnapshotReply}
      (input : inp = .recv p) (body : p.body = .installSnapshotReply args reply)
      (incarnation : p.incarnation = nd.incarnation) (role : nd.rf.role = .Leader)
      (current : args.term = nd.rf.currentTerm) (term : rf'.currentTerm = nd.rf.currentTerm)
      (next : rf'.nextIndex = Function.update nd.rf.nextIndex p.src (args.lastIncludedIndex + 1))
      (matched : rf'.matchIndex = Function.update nd.rf.matchIndex p.src args.lastIncludedIndex)

theorem meet_of_leader {rf : Raft n C S} {t : ℤ} (h : (rf.meet t).role = .Leader) :
    rf.meet t = rf := by
  unfold Raft.meet at h ⊢
  split at h
  · cases h
  · rename_i hgt
    rw [if_neg hgt]

theorem counts_appendEntriesReply {p : Packet n C S} {args : AppendEntriesArgs n C}
    {reply : AppendEntriesReply} {go : Bool} (body : p.body = .appendEntriesReply args reply)
    (incarnation : p.incarnation = nd.incarnation)
    (handler : nd.rf.handleAppendEntries p.src args reply = some (rf', go))
    (hrole : rf'.role = .Leader) : nd.Counts (.recv p) rf' := by
  rcases Raft.handleAppendEntries_cases handler with ⟨hne, rfl, -⟩ | ⟨-, -, rfl, -⟩ |
    ⟨hlead, hterm, hs, -⟩ | ⟨hlead, hterm, hs, idx, rfl, -⟩
  · exact absurd hrole hne
  · cases hrole
  · rw [Raft.handleAppendEntries_rejected hlead hterm hs] at handler
    obtain ⟨rf₁, hback, heq⟩ := Option.map_eq_some_iff.mp handler
    obtain ⟨x, rfl⟩ := Raft.backUp_eq_some hback
    obtain ⟨rfl, -⟩ := Prod.mk.inj heq
    refine .refused (x := x) rfl body incarnation hlead hterm hs rfl rfl rfl fun hnext => ?_
    obtain ⟨y, hy, hle⟩ := Raft.exists_backUp reply hnext
    have hxy := congrArg (Raft.nextIndex · p.src) (Option.some.inj (hback.symm.trans hy))
    simp only [Function.update_self] at hxy
    rwa [hxy]
  · exact .acknowledged rfl body incarnation hlead hterm hs rfl rfl rfl

theorem Move.counts (h : nd.Move inp out) (hrole : out.node.rf.role = .Leader) :
    nd.Counts inp out.node.rf := by
  cases h with
  | startElection ticker => cases hrole
  | snapshot received handler =>
    rcases Raft.snapshotTo_cases handler with ⟨-, rfl⟩ | ⟨-, -, e, rest, -, rfl⟩
    · exact .same hrole rfl rfl rfl
    · exact .same hrole rfl rfl rfl
  | run thread goes =>
    cases goes with
    | condInstall handler =>
      obtain ⟨rest, rfl, -⟩ := Raft.condInstallSnapshot_cases handler
      exact .same hrole rfl rfl rfl
    | _ => exact .same hrole rfl rfl rfl
  | crash =>
    rw [show (Node.restart nd).rf.role = .Follower from Raft.make_role ..] at hrole
    cases hrole
  | requestVote body handler =>
    rcases Raft.requestVote_cases handler with ⟨-, rfl, -⟩ | ⟨-, -, b, -, rfl, -⟩
    · exact .same hrole rfl rfl rfl
    · have hmeet := meet_of_leader hrole
      rw [hmeet]
      exact .same (hmeet ▸ hrole) rfl rfl rfl
  | appendEntries body handler =>
    rcases Raft.appendEntries_cases handler with ⟨-, rfl, -⟩ | ⟨-, rfl, -⟩ | ⟨-, -, -, -, rfl, -⟩
    · exact .same hrole rfl rfl rfl
    · cases (Raft.follow_role _ : (nd.rf.follow _).role = _).symm.trans hrole
    · cases (Raft.follow_role _ : (nd.rf.follow _).role = _).symm.trans hrole
  | installSnapshot body handler =>
    rcases Raft.installSnapshot_cases handler with ⟨-, rfl, -⟩ |
      ⟨-, -, ⟨-, rfl, -⟩ | ⟨-, -, -, logs, -, rfl⟩⟩
    · exact .same hrole rfl rfl rfl
    · have hmeet := meet_of_leader hrole
      rw [hmeet]
      exact .same (hmeet ▸ hrole) rfl rfl rfl
    · have hmeet := meet_of_leader hrole
      rw [Raft.installed, hmeet]
      exact .same (hmeet ▸ hrole) rfl rfl rfl
  | requestVoteReply body incarnation =>
    rcases Raft.handleRequestVote_cases nd.rf (nd.voteCounts.getD _ 0) _ with
      ⟨-, heq⟩ | ⟨-, heq⟩ | heq
    · exact .elected (fun j => by rw [heq]; rfl) fun j => by rw [heq]; rfl
    · rw [heq] at hrole
      cases hrole
    · exact .same (by rwa [heq] at hrole) (by rw [heq]) (by rw [heq]) (by rw [heq])
  | appendEntriesReply body incarnation handler =>
    exact counts_appendEntriesReply body incarnation handler hrole
  | @installSnapshotReply p args reply body incarnation =>
    rcases Raft.handleInstallSnapshot_cases nd.rf p.src args reply with heq |
      ⟨hlead, hterm, ⟨-, heq⟩ | ⟨-, -, heq⟩⟩
    · exact .same (by rwa [heq] at hrole) (by rw [heq]) (by rw [heq]) (by rw [heq])
    · rw [heq] at hrole
      cases hrole
    · exact .installed rfl body incarnation hlead hterm.symm (by rw [heq]) (by rw [heq])
        (by rw [heq])
  | _ => exact .same hrole rfl rfl rfl

end Node

/-- A log never loses its first element, if accepted requests do not start below the marker. -/
theorem nonempty_maintained : Maintained (Node.AppendAhead (n := n) (C := C) (S := S))
    (fun _ rf => rf.logs ≠ []) (fun _ _ => True) (fun _ _ => True) (fun _ _ => True) where
  boot _ _ := ⟨List.cons_ne_nil _ _, List.cons_ne_nil _ _⟩
  later _ _ := ⟨fun _ => id, fun _ => id, fun _ => id, fun _ => id⟩
  stored _ rf h := (Raft.restored_persist rf).1 ▸ h
  edit past nd inp rf' h hr _ _ _ _ hok he := by
    cases he with
    | keep same => exact same.logs ▸ h
    | append running => exact List.append_ne_nil_of_left_ne_nil h _
    | @store args request accepts low =>
      have hlow := hok _ request accepts
      refine List.append_ne_nil_of_left_ne_nil (fun hnil => ?_) _
      rcases List.take_eq_nil_iff.mp hnil with h0 | h0
      · omega
      · exact h h0
    | commit same lt le applied => exact same.logs ▸ h
    | applied running => exact h
    | compact received lt le drop => exact List.cons_ne_nil _ _
    | install request term lt ahead trim =>
      rcases trim with ⟨-, rfl⟩ | ⟨-, e, rest, -, rfl⟩
      · exact List.cons_ne_nil _ _
      · exact List.cons_ne_nil _ _
    | cond running handler =>
      obtain ⟨rest, rfl, -⟩ := Raft.condInstallSnapshot_cases handler
      exact List.cons_ne_nil _ _
    | restart crash => exact hr
  spawned _ _ _ _ _ _ _ _ _ := trivial
  append _ _ _ _ := trivial
  install _ _ _ _ := trivial

namespace Cluster

variable {s s' : Cluster n C S} {i : Fin n} {net : List (Packet n C S)} {out : Out n C S}
  {inp : Input n C S}

/-- In its present term and incarnation server `i` has sent `j` a request that covers index `m`, and
    `j` has answered it: an `AppendEntries` with success, or an `InstallSnapshot`. -/
def Acknowledged (s : Cluster n C S) (i j : Fin n) (m : ℤ) : Prop :=
  (∃ args reply, args.reach = ((s.nodes i).rf.currentTerm, m) ∧ reply.success = true ∧
    ⟨i, j, (s.nodes i).incarnation, .appendEntries args⟩ ∈ s.sent ∧
    ⟨j, i, (s.nodes i).incarnation, .appendEntriesReply args reply⟩ ∈ s.sent) ∨
  ∃ args reply, args.reach = ((s.nodes i).rf.currentTerm, m) ∧
    ⟨i, j, (s.nodes i).incarnation, .installSnapshot args⟩ ∈ s.sent ∧
    ⟨j, i, (s.nodes i).incarnation, .installSnapshotReply args reply⟩ ∈ s.sent

/-- The books of a leader: what it counts was acknowledged in its term and is within its log. -/
def Books (s : Cluster n C S) (i j : Fin n) : Prop :=
  (0 ≤ (s.nodes i).rf.matchIndex j → s.Acknowledged i j ((s.nodes i).rf.matchIndex j)) ∧
    (s.nodes i).rf.matchIndex j ≤ (s.nodes i).rf.getLastLogicalIndex ∧
    (s.nodes i).rf.nextIndex j ≤ (s.nodes i).rf.getLastLogicalIndex + 1

/-- A request or reply of this incarnation is within the log of the server that waits for it. -/
def Waits (nd : Node n C S) (p : Packet n C S) : Prop :=
  ∀ r ∈ p.reach, p.incarnation ≤ nd.incarnation ∧
    (p.incarnation = nd.incarnation → nd.rf.Within r)

structure LedgerInv (s : Cluster n C S) : Prop where
  me : ∀ i, (s.nodes i).rf.me = i
  sent : ∀ p ∈ s.net, p ∈ s.sent
  asked : ∀ p ∈ s.net, ∀ q ∈ p.asked, q ∈ s.sent
  threads : ∀ i, ∀ t ∈ (s.nodes i).threads, ∀ r ∈ t.reach, (s.nodes i).rf.Within r
  waits : ∀ p ∈ s.net, Waits (s.nodes p.caller) p
  conflict : ∀ p ∈ s.net, p.ConflictWithin
  books : ∀ i, (s.nodes i).rf.role = .Leader → ∀ j, s.Books i j

theorem ledgerInv_init : LedgerInv (init : Cluster n C S) where
  me _ := rfl
  sent := by rintro _ ⟨⟩
  asked := by rintro _ ⟨⟩
  threads := by rintro _ _ ⟨⟩
  waits := by rintro _ ⟨⟩
  conflict := by rintro _ ⟨⟩
  books := by rintro _ ⟨⟩

/-- Later steps of the waiting server keep a request within its log, a crash makes it one of an
    earlier incarnation. -/
theorem Waits.move {nd : Node n C S} {p : Packet n C S} (h : Waits nd p) (hm : nd.Move inp out) :
    Waits out.node p := by
  intro r hr
  obtain ⟨hle, hwithin⟩ := h r hr
  cases hcrash : inp.isCrash with
  | false =>
    obtain ⟨-, hinc, -⟩ := hm.role_kept hcrash
    rw [hinc]
    exact ⟨hle, fun heq => hm.within hcrash (hwithin heq)⟩
  | true =>
    cases hm with
    | crash =>
      exact ⟨Nat.le_succ_of_le hle, fun heq => absurd heq (Nat.lt_succ_of_le hle).ne⟩
    | _ => cases hcrash

theorem Waits.advance (net : List (Packet n C S)) (h : ∀ p ∈ s.net, Waits (s.nodes p.caller) p)
    (hm : (s.nodes i).Move inp out) {p : Packet n C S} (hp : p ∈ s.net) :
    Waits ((s.advance i net out).nodes p.caller) p := by
  rcases eq_or_ne p.caller i with heq | hne
  · rw [heq, advance_nodes_self]
    exact (heq ▸ h p hp).move hm
  · rw [advance_nodes_of_ne hne]
    exact h p hp

/-- What a server sends is within its log, or answers what is within the log of the caller. -/
theorem LedgerInv.emitted (hl : s.LedgerInv) (net : List (Packet n C S))
    (hin : ∀ q, inp = .recv q → q ∈ s.net)
    (hm : (s.nodes i).Move inp out) {p : Packet n C S} (hp : p ∈ out.sent) :
    Waits ((s.advance i net out).nodes p.caller) p ∧ p.ConflictWithin ∧
      ∀ q ∈ p.asked, q ∈ s.sent := by
  have hown : ∀ {t : Thread n C S} {server : Fin n} {body : Body n C S},
      (s.nodes i).running inp = some t → out.node.rf = (s.nodes i).rf →
      t.reach = ((s.nodes i).packet server body).reach →
      ((s.nodes i).packet server body).isReply = false →
      Waits ((s.advance i net out).nodes ((s.nodes i).packet server body).caller)
        ((s.nodes i).packet server body) := by
    intro t server body hrun hrf hreach hreq r hr
    have hcaller : ((s.nodes i).packet server body).caller = i := by
      rw [Packet.caller, hreq]
      exact hl.me i
    have hcrash : inp.isCrash = false := by
      cases inp with
      | act a => cases a with
        | run k => rfl
        | _ => cases hrun
      | recv q => rfl
    obtain ⟨-, hinc, -⟩ := hm.role_kept hcrash
    rw [hcaller, advance_nodes_self, hinc, hrf]
    exact ⟨le_rfl, fun _ => hl.threads i t (Node.mem_of_running hrun) r (hreach ▸ hr)⟩
  cases hm.emits hp with
  | vote vote =>
    rcases p with ⟨src, dst, inc, body⟩
    cases body with
    | requestVote e args => exact ⟨by rintro _ ⟨⟩, by rintro _ _ ⟨⟩, by rintro _ ⟨⟩⟩
    | requestVoteReply e args reply => exact ⟨by rintro _ ⟨⟩, by rintro _ _ ⟨⟩, by rintro _ ⟨⟩⟩
    | _ => cases vote
  | append running role rf =>
    exact ⟨hown running rf rfl rfl, by rintro _ _ ⟨⟩, by rintro _ ⟨⟩⟩
  | install running role rf =>
    exact ⟨hown running rf rfl rfl, by rintro _ _ ⟨⟩, by rintro _ ⟨⟩⟩
  | @appendReply q args reply go input body handler =>
    have hq := hin q input
    refine ⟨?_, ?_, ?_⟩
    · have hw := Waits.advance net hl.waits hm hq
      unfold Waits Packet.reach Packet.caller Packet.isReply at hw ⊢
      rw [body] at hw
      exact hw
    · rintro args' reply' heq hs
      obtain ⟨rfl, rfl⟩ := Body.appendEntriesReply.inj heq
      exact Raft.appendEntries_conflict handler hs
    · rintro q' hq'
      obtain rfl := Option.some.inj hq'
      have := hl.sent q hq
      rcases q with ⟨src, dst, inc, b⟩
      cases body
      exact this
  | @installReply q args reply input body =>
    have hq := hin q input
    refine ⟨?_, by rintro _ _ ⟨⟩, ?_⟩
    · have hw := Waits.advance net hl.waits hm hq
      unfold Waits Packet.reach Packet.caller Packet.isReply at hw ⊢
      rw [body] at hw
      exact hw
    · rintro q' hq'
      obtain rfl := Option.some.inj hq'
      have := hl.sent q hq
      rcases q with ⟨src, dst, inc, b⟩
      cases body
      exact this

theorem Acknowledged.mono {j k : Fin n} {m : ℤ} (h : s.Acknowledged j k m)
    (hterm : (s'.nodes j).rf.currentTerm = (s.nodes j).rf.currentTerm)
    (hinc : (s'.nodes j).incarnation = (s.nodes j).incarnation)
    (hsent : ∀ p ∈ s.sent, p ∈ s'.sent) : s'.Acknowledged j k m := by
  rw [Acknowledged, hterm, hinc]
  rcases h with ⟨args, reply, hreach, hs, hreq, hrep⟩ | ⟨args, reply, hreach, hreq, hrep⟩
  · exact .inl ⟨args, reply, hreach, hs, hsent _ hreq, hsent _ hrep⟩
  · exact .inr ⟨args, reply, hreach, hsent _ hreq, hsent _ hrep⟩

/-- A reply that a goroutine of server `i` waits for answers a request that `i` has sent, and this
    request is within the log if it is of the present term. -/
theorem LedgerInv.reply (hl : s.LedgerInv) {p : Packet n C S} (hp : p ∈ s.net) (hdst : p.dst = i)
    (hreply : p.isReply = true) {r : ℤ × ℤ} (hr : p.reach = some r)
    (hinc : p.incarnation = (s.nodes i).incarnation)
    (hterm : r.1 = (s.nodes i).rf.currentTerm) (hrole : (s.nodes i).rf.role = .Leader) :
    r.2 ≤ (s.nodes i).rf.getLastLogicalIndex := by
  have hcaller : p.caller = i := by rw [Packet.caller, hreply]; exact hdst
  have hw := hl.waits p hp
  rw [hcaller] at hw
  exact ((hw r hr).2 hinc).2 hterm (by rw [hrole]; rintro ⟨⟩)

/-- A step that changes the books for one server, to what it has acknowledged in this term. -/
theorem LedgerInv.books_update (hl : s.LedgerInv) {k : Fin n} {x y : ℤ}
    (hinc : out.node.incarnation = (s.nodes i).incarnation)
    (hlast : (s.nodes i).rf.getLastLogicalIndex ≤ out.node.rf.getLastLogicalIndex)
    (hrole : (s.nodes i).rf.role = .Leader)
    (hterm : out.node.rf.currentTerm = (s.nodes i).rf.currentTerm)
    (hnext : out.node.rf.nextIndex = Function.update (s.nodes i).rf.nextIndex k x)
    (hmatch : out.node.rf.matchIndex = Function.update (s.nodes i).rf.matchIndex k y)
    (hx : x ≤ (s.nodes i).rf.getLastLogicalIndex + 1) (hy : y ≤ (s.nodes i).rf.getLastLogicalIndex)
    (hack : 0 ≤ y → s.Acknowledged i k y) (j : Fin n) : (s.advance i net out).Books i j := by
  have hmono : ∀ {m}, s.Acknowledged i j m → (s.advance i net out).Acknowledged i j m := fun h =>
    h.mono (by rwa [advance_nodes_self]) (by rwa [advance_nodes_self])
      fun p hp => mem_advance_sent.mpr (.inr hp)
  rw [Books, advance_nodes_self, hnext, hmatch]
  rcases eq_or_ne j k with rfl | hne
  · rw [Function.update_self, Function.update_self]
    exact ⟨fun h0 => hmono (hack h0), hy.trans hlast, by omega⟩
  · obtain ⟨hb, hm, hn⟩ := hl.books i hrole j
    rw [Function.update_of_ne hne, Function.update_of_ne hne]
    exact ⟨fun h0 => hmono (hb h0), hm.trans hlast, by omega⟩

/-- Every step of a leader keeps its books, if it uses replies to requests of its term only. -/
theorem LedgerInv.books_advance (hl : s.LedgerInv) (hindex : 0 ≤ (s.nodes i).rf.lastIncludedIndex)
    (hlast0 : 0 ≤ out.node.rf.getLastLogicalIndex)
    (hin : ∀ q, inp = .recv q → q ∈ s.net ∧ q.dst = i)
    (hok : (s.nodes i).ReplyCurrent inp) (hm : (s.nodes i).Move inp out)
    (hrole : out.node.rf.role = .Leader) (j : Fin n) : (s.advance i net out).Books i j := by
  have hcrash : inp.isCrash = false := by
    cases hm with
    | crash => cases (Raft.make_role ..).symm.trans hrole
    | _ => rfl
  obtain ⟨-, hinc, -⟩ := hm.role_kept hcrash
  have hlast := hm.edit.last_le hcrash (by rw [hrole]; rintro ⟨⟩)
  have hawaited : ∀ {p : Packet n C S} {args reply}, inp = .recv p →
      p.body = .appendEntriesReply args reply → p.incarnation = (s.nodes i).incarnation →
      (s.nodes i).rf.role = .Leader → reply.term ≤ (s.nodes i).rf.currentTerm →
      args.term = (s.nodes i).rf.currentTerm := by
    rintro p args reply rfl body incarnation
    refine hok (args, reply) ?_
    rw [Node.awaited, if_pos incarnation, Input.appendReply, body]
    rfl
  cases hm.counts hrole with
  | same role term next matched =>
    obtain ⟨hb, hmatch, hnext⟩ := hl.books i role j
    exact hl.books_update (k := j) hinc hlast role term (by rw [next, Function.update_eq_self])
      (by rw [matched, Function.update_eq_self]) hnext hmatch hb j
  | elected next matched =>
    rw [Books, advance_nodes_self, next, matched]
    exact ⟨fun h0 => absurd h0 (by decide), by omega, le_rfl⟩
  | @refused p args reply x input body incarnation role current success term next matched back =>
    obtain ⟨hp, hdst⟩ := hin p input
    obtain ⟨hb, hmatch, hnext⟩ := hl.books i role p.src
    have hterm := hawaited input body incarnation role current
    have hreach := hl.reply hp hdst (by rw [Packet.isReply, body]) (by rw [Packet.reach, body])
      incarnation hterm role
    have hconf := hl.conflict p hp args reply body success
    refine hl.books_update hinc hlast role term next (by rw [matched, Function.update_eq_self]) ?_
      hmatch hb j
    rw [AppendEntriesArgs.reach] at hreach
    dsimp only at hreach
    rcases back hnext with rfl | hle <;> omega
  | @acknowledged p args reply input body incarnation role current success term next matched =>
    obtain ⟨hp, hdst⟩ := hin p input
    have hterm := hawaited input body incarnation role current
    have hreach := hl.reply hp hdst (by rw [Packet.isReply, body]) (by rw [Packet.reach, body])
      incarnation hterm role
    have hasked := hl.asked p hp _ (by rw [Packet.asked, body]; rfl)
    have hsent := hl.sent p hp
    refine hl.books_update hinc hlast role term next matched le_rfl hreach (fun _ => .inl ?_) j
    subst hdst
    rw [← incarnation]
    exact ⟨args, reply, by rw [← hterm]; rfl, success, hasked, body ▸ hsent⟩
  | @installed p args reply input body incarnation role current term next matched =>
    obtain ⟨hp, hdst⟩ := hin p input
    have hreach := hl.reply hp hdst (by rw [Packet.isReply, body]) (by rw [Packet.reach, body])
      incarnation current role
    have hasked := hl.asked p hp _ (by rw [Packet.asked, body]; rfl)
    have hsent := hl.sent p hp
    refine hl.books_update hinc hlast role term next matched (Int.add_le_add_right hreach 1) hreach
      (fun _ => .inr ?_) j
    subst hdst
    rw [← incarnation]
    exact ⟨args, reply, by rw [← current]; rfl, hasked, body ▸ hsent⟩

/-- A goroutine has its request from before or has just built it. -/
theorem LedgerInv.threads_advance (hl : s.LedgerInv) (hlogs : (s.nodes i).rf.logs ≠ [])
    (hm : (s.nodes i).Move inp out) {t : Thread n C S} (ht : t ∈ out.node.threads) {r : ℤ × ℤ}
    (hr : t.reach = some r) : out.node.rf.Within r := by
  have hcrash : inp.isCrash = false := by
    cases hm with
    | crash => cases ht
    | _ => rfl
  refine hm.within hcrash ?_
  rcases hm.threads ht with hold | hnew
  · exact hl.threads i t hold r hr
  have hlen := List.length_pos_of_ne_nil hlogs
  cases hnew with
  | @append server args isSnapshot running gen =>
    cases isSnapshot with
    | true => cases hr
    | false =>
      obtain ⟨hterm, -, hargs⟩ := Raft.genAppendEntries_eq_some gen
      obtain ⟨hlow, hhigh, -, hent, -⟩ := hargs rfl
      obtain rfl := Option.some.inj hr
      refine ⟨hterm.le, fun _ _ => ?_⟩
      rw [AppendEntriesArgs.reach, hent, List.length_drop, Raft.getLastLogicalIndex]
      omega
  | installSend running =>
    obtain rfl := Option.some.inj hr
    refine ⟨le_rfl, fun _ _ => ?_⟩
    rw [InstallSnapshotArgs.reach, Raft.genInstallSnapshot, Raft.getLastLogicalIndex]
    dsimp only
    omega
  | _ => cases hr

theorem ledgerInv_step {e : Event n C S} (hl : s.LedgerInv)
    (hshape : ∀ i, 0 ≤ (s.nodes i).rf.lastIncludedIndex ∧ (s.nodes i).rf.logs ≠ [])
    (hshape' : ∀ i, 0 ≤ (s'.nodes i).rf.lastIncludedIndex ∧ (s'.nodes i).rf.logs ≠ [])
    (hok : At Node.LedgerKept s e) (h : s.step e = .ok s') : s'.LedgerInv := by
  obtain ⟨i, inp, net, out, hin, hon, rfl⟩ := step_ok h
  have hm := Node.on_move hon
  have hrecv : ∀ q, inp = .recv q → q ∈ s.net ∧ q.dst = i := by
    rintro q rfl
    exact ⟨(input_recv hin).2.subset (List.mem_cons_self ..), (input_recv hin).1⟩
  have hemit := fun p hp => hl.emitted net (fun q hq => (hrecv q hq).1) hm (p := p) hp
  have hold := fun p hp => (input_sublist hin).subset (a := p) hp
  have hnode : ∀ {P : Fin n → Node n C S → Prop}, (∀ j, P j (s.nodes j)) → P i out.node →
      ∀ j, P j ((s.advance i net out).nodes j) := by
    intro P hs hi j
    rcases eq_or_ne j i with rfl | hne
    · rwa [advance_nodes_self]
    · rw [advance_nodes_of_ne hne]
      exact hs j
  refine ⟨?_, fun p hp => ?_, fun p hp q hq => ?_, ?_, fun p hp => ?_, fun p hp => ?_,
    fun j hrole k => ?_⟩
  · exact hnode (P := fun j nd => nd.rf.me = j) hl.me (hm.edit.saved.1.trans (hl.me i))
  · rcases mem_advance_net.mp hp with hp | hp
    · exact mem_advance_sent.mpr (.inr (hl.sent p (hold p hp)))
    · exact mem_advance_sent.mpr (.inl hp)
  · rcases mem_advance_net.mp hp with hp | hp
    · exact mem_advance_sent.mpr (.inr (hl.asked p (hold p hp) q hq))
    · exact mem_advance_sent.mpr (.inr ((hemit p hp).2.2 q hq))
  · exact hnode (P := fun _ nd => ∀ t ∈ nd.threads, ∀ r ∈ t.reach, nd.rf.Within r) hl.threads
      fun t ht r hr => hl.threads_advance (hshape i).2 hm ht hr
  · rcases mem_advance_net.mp hp with hp | hp
    · exact Waits.advance _ hl.waits hm (hold p hp)
    · exact (hemit p hp).1
  · rcases mem_advance_net.mp hp with hp | hp
    · exact hl.conflict p (hold p hp)
    · exact (hemit p hp).2.1
  · rcases eq_or_ne j i with rfl | hne
    · have hpos := hshape' j
      rw [advance_nodes_self] at hrole hpos
      have hlen := List.length_pos_of_ne_nil hpos.2
      exact hl.books_advance (hshape j).1 (by rw [Raft.getLastLogicalIndex]; omega) hrecv
        (hok.at_input hin).1 hm hrole k
    · rw [advance_nodes_of_ne hne] at hrole
      obtain ⟨hb, hmatch, hnext⟩ := hl.books j hrole k
      rw [Books, advance_nodes_of_ne hne]
      exact ⟨fun h0 => (hb h0).mono (by rw [advance_nodes_of_ne hne])
        (by rw [advance_nodes_of_ne hne]) fun p hp => mem_advance_sent.mpr (.inr hp), hmatch, hnext⟩

/-- The ledger and the shape of the logs it rests on, in every run of the steps that keep it. -/
theorem ledgerInv_run (h : Run step (At Node.LedgerKept) init s) : s.LedgerInv ∧
    ∀ i, 0 ≤ (s.nodes i).rf.lastIncludedIndex ∧ (s.nodes i).rf.logs ≠ [] := by
  have hshape : ∀ {s : Cluster n C S}, Run step (At Node.LedgerKept) init s →
      ∀ i, 0 ≤ (s.nodes i).rf.lastIncludedIndex ∧ (s.nodes i).rf.logs ≠ [] := fun h i =>
    ⟨((nonneg_maintained _).run h i).1.index,
      (nonempty_maintained.run (h.mono fun _ _ hok => hok.mono fun _ _ h => h.2) i).1⟩
  refine ⟨?_, hshape h⟩
  induction h with
  | refl => exact ledgerInv_init
  | tail hr hok hstep ih =>
    exact ledgerInv_step ih (hshape hr) (hshape (.tail hr hok hstep)) hok hstep

/-- Three servers. Server 0 leads term 1 and server 1 acknowledges its first command; this reply is
    late. An older heartbeat cuts the command from server 1, whose vote makes server 2 leader of
    term 2; a heartbeat of server 2 cuts it from server 0. Then server 0 leads term 3, and the reply
    arrives. -/
def replyFromOldTerm [NeZero n] : List (Event n ℕ Unit) :=
  [.act 0 .timeout, .act 0 .startElection, .act 0 .sendRequestVotes, .act 0 .persistElection,
    .deliver 0, .deliver 0, .deliver 0,
    .act 0 .heartbeat, .act 0 (.run 0), .act 0 (.run 1),
    .act 0 (.start (some 7)), .act 0 (.run 1), .act 0 (.run 1),
    .act 0 .heartbeat, .act 0 (.run 1), .act 0 (.run 2), .deliver 2, .deliver 1,
    .act 2 .timeout, .act 2 .startElection, .act 2 .sendRequestVotes, .act 2 .persistElection,
    .deliver 4, .deliver 4, .act 2 .heartbeat, .act 2 (.run 0), .act 2 (.run 1), .deliver 4,
    .act 0 .timeout, .act 0 .startElection, .act 0 .sendRequestVotes, .act 0 .persistElection,
    .deliver 5, .deliver 6, .deliver 1]

/-- The books are the same for a server that is. -/
theorem Books.congr {j : Fin n} (h : s.Books i j) (hrf : (s'.nodes i).rf = (s.nodes i).rf)
    (hinc : (s'.nodes i).incarnation = (s.nodes i).incarnation)
    (hsent : ∀ p ∈ s.sent, p ∈ s'.sent) : s'.Books i j := by
  obtain ⟨hack, hmatch, hnext⟩ := h
  rw [Books, hrf]
  exact ⟨fun h0 => (hack h0).mono (congrArg _ hrf) hinc hsent, hmatch, hnext⟩

end Cluster

/-! ### Code without the lock -/

theorem Node.crashLocal_ledgerKept :
    Node.CrashLocal (Node.LedgerKept (n := n) (C := C) (S := S)) :=
  fun _ _ _ _ => ⟨by rintro _ ⟨⟩, by rintro _ ⟨⟩⟩

namespace Interleaved

variable {s : Interleaved n C S} {i : Fin n}

/-- The books of every leader are justified by its own term, in every run in which leaders use
    replies to requests of their present term only, accepted requests do not start below the marker
    and code without the lock is not interrupted. A leader inside the tail of
    `handleInstallSnapshot`, which writes the term before it gives up the role, is left out. -/
theorem leader_bookkeeping (h : Run step (Steady Node.LedgerKept) init s) (htail : ¬ s.InTail i)
    (hrole : (s.cluster.nodes i).rf.role = .Leader) (j : Fin n) : s.cluster.Books i j := by
  obtain ⟨t, ht, hst⟩ := exists_stands Node.crashLocal_ledgerKept h
  have hrf := hst.rf_eq htail
  rw [hrf] at hrole
  exact ((Cluster.ledgerInv_run ht).1.books i hrole j).congr hrf (hst.incarnation i)
    fun p hp => hst.sent ▸ hp

theorem leader_bookkeeping_first_command : ∃ s : Interleaved 3 ℕ Unit,
    Run step (Steady Node.LedgerKept) init s ∧ (s.cluster.nodes 0).rf.role = .Leader ∧
      (s.cluster.nodes 0).rf.matchIndex 1 = 1 ∧ s.cluster.Acknowledged 0 1 1 := by
  obtain ⟨s, t, hs, hem, hrole, hmatch⟩ := exists_run_of_schedule (n := 3) Node.LedgerKept
    (Cluster.firstVote ++ Cluster.firstLeader ++ Cluster.firstCommand)
    (fun t => (t.nodes 0).rf.role = .Leader ∧ (t.nodes 0).rf.matchIndex 1 = 1) (by decide +kernel)
  rw [← hem.nodes] at hrole hmatch
  have hack := (leader_bookkeeping hs (hem.not_inTail 0) hrole 1).1 (by rw [hmatch]; decide)
  exact ⟨s, hs, hrole, hmatch, hmatch ▸ hack⟩

/-- The leader of term 3 then counts server 1 for an index behind the end of its own log. -/
theorem reply_from_old_term_counted :
    ¬ ∀ s : Interleaved 3 ℕ Unit, Run step (Steady Node.NoCrash) init s → ∀ i, ¬ s.InTail i →
      (s.cluster.nodes i).rf.role = .Leader → ∀ j, s.cluster.Books i j := by
  obtain ⟨s, t, hs, hem, hrole, hbad⟩ := exists_run_of_schedule (n := 3) Node.NoCrash
    Cluster.replyFromOldTerm
    (fun t => (t.nodes 0).rf.role = .Leader ∧
      (t.nodes 0).rf.getLastLogicalIndex < (t.nodes 0).rf.matchIndex 1) (by decide +kernel)
  rw [← hem.nodes] at hrole hbad
  intro h
  exact absurd (h s hs 0 (hem.not_inTail 0) hrole 1).2.1 (not_le.mpr hbad)

end Interleaved
end DistLabs
