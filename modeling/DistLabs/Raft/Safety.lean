import DistLabs.Raft.Simulation

/-! # Agreement

    What the refinement gives for the cluster: the services are sent the same commands, the logs
    match, results of `Start` are not given twice, and what a follower has acknowledged it keeps.
    Each of them fails in some run with a step that is not sound, also where code without the lock
    is not interrupted. -/

namespace DistLabs

open Replicas Shadow

variable {n : ℕ} {C S : Type}

/-- The entry at a logical index, read as the source reads it. -/
def Raft.entryAt (rf : Raft n C S) (index : ℤ) : Option (LogEntry C) :=
  Slice.index rf.logs (rf.convertToStorageIndex index)

namespace Raft

variable {rf : Raft n C S} {k : ℤ}

theorem Compacts.entryAt {full : List (LogEntry C)} (h : rf.Compacts full)
    (hk : rf.lastIncludedIndex < k) : rf.entryAt k = full[(k - 1).toNat]? := h.index hk

theorem entryAt_eq (h : rf.lastIncludedIndex ≤ k) :
    rf.entryAt k = rf.logs[(k - rf.lastIncludedIndex).toNat]? := by
  rw [entryAt, convertToStorageIndex, Slice.index, if_pos (by omega)]

theorem entryAt_le {e : LogEntry C} (h : rf.entryAt k = some e) : k ≤ rf.getLastLogicalIndex := by
  obtain ⟨h0, hget⟩ := Slice.index_eq_some.mp h
  have hlt := (List.getElem?_eq_some_iff.mp hget).1
  rw [convertToStorageIndex] at h0 hlt
  rw [getLastLogicalIndex]
  omega

theorem entryAt_eq_none (h : rf.getLastLogicalIndex < k) : rf.entryAt k = none := by
  by_contra hsome
  obtain ⟨e, he⟩ := Option.ne_none_iff_exists'.mp hsome
  exact absurd (entryAt_le he) (not_le.mpr h)

end Raft

/-- The index and the term that a call of `Start` returned. -/
def Started.key (c : Started n C) : ℤ × ℤ := (c.index, c.term)

/-- The index and the term that a call of `Start` is going to return. -/
def Thread.startKey : Thread n C S → Option (ℤ × ℤ)
  | .startPersist index term _ => some (index, term)
  | _ => none

namespace Node

variable {nd : Node n C S} {inp : Input n C S} {out : Out n C S}

def startKeys (nd : Node n C S) : Multiset (ℤ × ℤ) := ↑(nd.threads.filterMap Thread.startKey)

theorem startKeys_eraseIdx {k : ℕ} {t : Thread n C S} (h : nd.threads[k]? = some t) :
    nd.startKeys = ↑t.startKey.toList + startKeys { nd with threads := nd.threads.eraseIdx k } := by
  obtain ⟨hk, rfl⟩ := List.getElem?_eq_some_iff.mp h
  have hperm := (List.getElem_cons_eraseIdx_perm hk).filterMap Thread.startKey
  rw [startKeys, ← Multiset.coe_eq_coe.mpr hperm]
  cases hkey : (nd.threads[k]).startKey <;> simp [startKeys, hkey]

/-- New goroutines that are not about to return from `Start`. -/
theorem startKeys_spawn {ts : List (Thread n C S)} (h : ∀ t ∈ ts, t.startKey = none) :
    (nd.spawn ts).startKeys = nd.startKeys := by
  rw [startKeys, spawn, List.filterMap_append, List.filterMap_eq_nil_iff.mpr h, List.append_nil,
    startKeys]

theorem startKeys_spawn_one {t : Thread n C S} (h : t.startKey = none) :
    (nd.spawn [t]).startKeys = nd.startKeys :=
  startKeys_spawn fun _ ht => List.mem_singleton.mp ht ▸ h

theorem Goes.startKeys {t : Thread n C S} (h : Goes nd t out) :
    (out.started.map Started.key : Multiset (ℤ × ℤ)) + out.node.startKeys
        ≤ ↑t.startKey.toList + nd.startKeys ∨
      ∃ term command, t = .start term command ∧
        (out.started.map Started.key : Multiset (ℤ × ℤ)) + out.node.startKeys
          = ((nd.rf.startAppend term command).2, term) ::ₘ nd.startKeys := by
  have hkeep : ∀ {nd' : Node n C S}, nd'.startKeys = nd.startKeys →
      (([] : List (Started n C)).map Started.key : Multiset (ℤ × ℤ)) + nd'.startKeys
        ≤ ↑t.startKey.toList + nd.startKeys := by
    intro nd' heq
    rw [heq, List.map_nil, Multiset.coe_nil, zero_add]
    exact Multiset.le_add_left ..
  cases h with
  | start term command =>
    refine .inr ⟨term, command, rfl, ?_⟩
    rw [List.map_nil, Multiset.coe_nil, zero_add, Node.startKeys, spawn, List.filterMap_append,
      ← Multiset.coe_add, add_comm]
    rfl
  | startPersist index term command => exact .inl le_rfl
  | heartbeat gen => exact .inl (hkeep (startKeys_spawn_one rfl))
  | appendSnapshot role => exact .inl (hkeep (startKeys_spawn_one rfl))
  | install server => exact .inl (hkeep (startKeys_spawn_one rfl))
  | applyCond logs => exact .inl (hkeep (startKeys_spawn_one rfl))
  | apply logs => exact .inl (hkeep (startKeys_spawn_one rfl))
  | applySend msg msgs => exact .inl (hkeep (startKeys_spawn_one rfl))
  | applied i msgs => exact .inl (hkeep (startKeys_spawn_one rfl))
  | condRead => exact .inl (hkeep (startKeys_spawn_one rfl))
  | _ => exact .inl (hkeep rfl)

/-- Only an append of `Start` makes a new result. -/
theorem Move.startKeys (h : nd.Move inp out) :
    (out.started.map Started.key : Multiset (ℤ × ℤ)) + out.node.startKeys ≤ nd.startKeys ∨
      ∃ k term command, inp = .act (.run k) ∧ nd.threads[k]? = some (.start term command) ∧
        (out.started.map Started.key : Multiset (ℤ × ℤ)) + out.node.startKeys
          ≤ ((nd.rf.startAppend term command).2, term) ::ₘ nd.startKeys := by
  have hkeep : ∀ {nd' : Node n C S}, nd'.startKeys = nd.startKeys →
      (([] : List (Started n C)).map Started.key : Multiset (ℤ × ℤ)) + nd'.startKeys
        ≤ nd.startKeys := by
    intro nd' heq
    rw [heq, List.map_nil, Multiset.coe_nil, zero_add]
  cases h with
  | @run k t out thread goes =>
    rw [startKeys_eraseIdx thread]
    rcases goes.startKeys with hle | ⟨term, command, rfl, heq⟩
    · exact .inl hle
    · exact .inr ⟨k, term, command, rfl, thread, by simp [heq, Thread.startKey]⟩
  | heartbeat role =>
    refine .inl (hkeep (startKeys_spawn fun t ht => ?_))
    obtain ⟨server, -, rfl⟩ := List.mem_map.mp ht
    rfl
  | start role command => exact .inl (hkeep (startKeys_spawn_one rfl))
  | appendEntries body handler =>
    exact .inl (hkeep (startKeys_spawn fun t ht => Thread.eq_apply_of_mem ht ▸ rfl))
  | installSnapshot body handler =>
    refine .inl (hkeep (startKeys_spawn fun t ht => ?_))
    obtain ⟨msg, -, rfl⟩ := List.mem_map.mp ht
    rfl
  | appendEntriesReply body incarnation handler =>
    exact .inl (hkeep (startKeys_spawn fun t ht => Thread.eq_apply_of_mem ht ▸ rfl))
  | crash =>
    refine .inl ?_
    rw [List.map_nil, Multiset.coe_nil, zero_add]
    exact Multiset.zero_le _
  | _ => exact .inl (hkeep rfl)

end Node

namespace Cluster

variable {s s' : Cluster n C S} {g : Shadow n C} {i : Fin n}

/-! ### Applied commands -/

/-- No two commands are sent to services under one index. -/
def AppliesAgree (s : Cluster n C S) : Prop :=
  ∀ i j c c' index, (i, .command c index) ∈ s.applied → (j, .command c' index) ∈ s.applied → c = c'

/-- Committed prefixes are comparable, and every command that is sent is the one at its index in
    some committed prefix. -/
theorem appliesAgree_run (h : Run step (At Node.Sound) init s) : s.AppliesAgree := by
  obtain ⟨-, g, hg⟩ := exists_shadow h
  intro i j c c' index hi hj
  obtain ⟨-, T, P, e, hP, he, rfl⟩ := hg.applied _ hi
  obtain ⟨-, T', P', e', hP', he', rfl⟩ := hg.applied _ hj
  have hlt := (List.getElem?_eq_some_iff.mp he).1
  have hlt' := (List.getElem?_eq_some_iff.mp he').1
  rcases hg.inv.committed_comparable hP hP' with hle | hle
  · rw [getElem?_of_isPrefix hle hlt, he] at he'
    rw [Option.some.inj he']
  · rw [getElem?_of_isPrefix hle hlt', he'] at he
    rw [Option.some.inj he]

/-- The first leader starts a command, has it acknowledged by server 1 and applies it; server 1
    learns from the next heartbeat that it is committed. -/
def firstCommand [NeZero n] : List (Event n ℕ Unit) :=
  [.act 0 (.start (some 7)), .act 0 (.run 0), .act 0 (.run 0),
    .act 0 .heartbeat, .act 0 (.run 0), .act 0 (.run 1), .deliver 3, .deliver 3,
    .act 0 (.run 1), .act 0 (.run 1),
    .act 0 .heartbeat, .act 0 (.run 2), .act 0 (.run 3), .deliver 3, .act 1 (.run 0),
    .act 1 (.run 0)]

/-- Two servers. Server 1 stands in term 1, and the vote of server 0 is late. Server 0 leads term 2,
    commits and applies a command; an older empty heartbeat cuts it from the log of server 1.
    Server 1 stands in term 3, the late vote makes it leader, and it commits and applies its own
    command. -/
def cutAndOutvoted [NeZero n] : List (Event n ℕ Unit) :=
  [.act 1 .timeout, .act 1 .startElection, .act 1 .sendRequestVotes, .act 1 .persistElection,
    .deliver 0,
    .act 0 .timeout, .act 0 .startElection, .act 0 .sendRequestVotes, .act 0 .persistElection,
    .deliver 1, .deliver 1,
    .act 0 .heartbeat, .act 0 (.run 0), .act 0 (.run 0),
    .act 0 (.start (some 7)), .act 0 (.run 0), .act 0 (.run 0),
    .act 0 .heartbeat, .act 0 (.run 0), .act 0 (.run 0), .deliver 2, .deliver 2,
    .act 0 (.run 0), .act 0 (.run 0),
    .deliver 1, .act 1 .timeout, .act 1 .startElection, .deliver 0,
    .act 1 (.start (some 8)), .act 1 (.run 0), .act 1 (.run 0),
    .act 1 .heartbeat, .act 1 (.run 0), .act 1 (.run 0), .deliver 1, .deliver 1,
    .act 1 (.run 0), .act 1 (.run 0)]

/-! ### Logs -/

/-- Entries of one index and one term are the same, and so is all before them that both logs still
    have. -/
def LogsMatch (s : Cluster n C S) : Prop :=
  ∀ i j index e e', (s.nodes i).rf.lastIncludedIndex < index →
    (s.nodes j).rf.lastIncludedIndex < index → (s.nodes i).rf.entryAt index = some e →
    (s.nodes j).rf.entryAt index = some e' → e.term = e'.term →
    e.command = e'.command ∧ ∀ k, (s.nodes i).rf.lastIncludedIndex < k →
      (s.nodes j).rf.lastIncludedIndex < k → k < index →
      (s.nodes i).rf.entryAt k = (s.nodes j).rf.entryAt k

theorem Shadowed.logsMatch (h : s.Shadowed g) : s.LogsMatch := by
  intro i j index e e' hi hj he he' hterm
  have hlogi := (h.nodes i).peer.log
  have hlogj := (h.nodes j).peer.log
  have hnonneg : 0 ≤ (s.nodes i).rf.lastIncludedIndex := by
    obtain ⟨k, -, hk, -⟩ := hlogi
    omega
  rw [hlogi.entryAt hi] at he
  rw [hlogj.entryAt hj] at he'
  have htake := (h.inv.logCoh i).take_eq (h.inv.logCoh j) he he' hterm
  have hget : ∀ m ≤ (index - 1).toNat, (g.log i)[m]? = (g.log j)[m]? := by
    intro m hm
    have := congrArg (·[m]?) htake
    rwa [List.getElem?_take_of_lt (by omega), List.getElem?_take_of_lt (by omega)] at this
  refine ⟨?_, fun k hik hjk hk => ?_⟩
  · rw [hget _ le_rfl, he'] at he
    rw [Option.some.inj he]
  · rw [hlogi.entryAt hik, hlogj.entryAt hjk]
    exact hget _ (by omega)

/-! ### Results of `Start` -/

/-- The results that calls of `Start` have returned, or are going to return. -/
def startKeys (s : Cluster n C S) : Multiset (ℤ × ℤ) :=
  ↑(s.started.map Started.key) + ∑ i, (s.nodes i).startKeys

theorem startKeys_advance (s : Cluster n C S) (i : Fin n) (net : List (Packet n C S))
    (out : Out n C S) : ∃ rest, s.startKeys = (s.nodes i).startKeys + rest ∧
      (s.advance i net out).startKeys
        = (out.started.map Started.key + out.node.startKeys) + rest := by
  refine ⟨↑(s.started.map Started.key) + ∑ j ∈ Finset.univ.erase i, (s.nodes j).startKeys, ?_, ?_⟩
  · rw [startKeys, ← Finset.add_sum_erase _ _ (Finset.mem_univ i)]
    abel
  · have hrest : ∑ j ∈ Finset.univ.erase i, ((s.advance i net out).nodes j).startKeys
        = ∑ j ∈ Finset.univ.erase i, (s.nodes j).startKeys :=
      Finset.sum_congr rfl fun j hj => by rw [advance_nodes_of_ne (Finset.ne_of_mem_erase hj)]
    rw [startKeys, ← Finset.add_sum_erase _ _ (Finset.mem_univ i), hrest, advance_nodes_self]
    simp only [advance, List.map_append, ← Multiset.coe_add]
    abel

/-- Every result is recorded in the leader log of its term. -/
theorem Shadowed.records (h : s.Shadowed g) {index term : ℤ} (hk : (index, term) ∈ s.startKeys) :
    ∃ command, Records g index term command := by
  rcases Multiset.mem_add.mp hk with hk | hk
  · obtain ⟨c, hc, hkey⟩ := List.mem_map.mp (Multiset.mem_coe.mp hk)
    obtain ⟨rfl, rfl⟩ := Prod.mk.inj hkey
    exact ⟨c.command, h.started c hc⟩
  · obtain ⟨i, -, hk⟩ := Multiset.mem_sum.mp hk
    obtain ⟨t, ht, hkey⟩ := List.mem_filterMap.mp (Multiset.mem_coe.mp hk)
    have hworks := (h.nodes i).threads t ht
    cases t with
    | startPersist index' term' command =>
      obtain ⟨rfl, rfl⟩ := Prod.mk.inj (Option.some.inj hkey)
      exact ⟨command, hworks⟩
    | _ => cases hkey

/-- What the leader appends gets an index that no call in its term has had. -/
theorem Shadowed.start_fresh (h : s.Shadowed g) (hrole : (s.nodes i).rf.role = .Leader)
    (command : Option C) :
    (((s.nodes i).rf.startAppend (s.nodes i).rf.currentTerm command).2,
      (s.nodes i).rf.currentTerm) ∉ s.startKeys := by
  intro hk
  obtain ⟨c, -, L, hL, hget⟩ := h.records hk
  have hpeer := (h.nodes i).peer
  rw [hpeer.leader hrole] at hL
  obtain rfl := Option.some.inj hL
  rw [(hpeer.log.startAppend ..).2] at hget
  have := (List.getElem?_eq_some_iff.mp hget).1
  omega

theorem startKeys_nodup (h : Run step (At Node.Sound) init s) : s.startKeys.Nodup := by
  induction h with
  | refl => simp [startKeys, init, Node.boot, Node.startKeys]
  | @tail s s' e hrun hok hstep ih =>
    obtain ⟨-, g, hg⟩ := exists_shadow hrun
    obtain ⟨i, inp, net, out, hin, hon, rfl⟩ := step_ok hstep
    obtain ⟨rest, hold, hnew⟩ := startKeys_advance s i net out
    rw [hold] at ih
    rw [hnew]
    rcases (Node.on_move hon).startKeys with hle | ⟨k, term, command, rfl, hthread, hkeys⟩
    · exact Multiset.nodup_of_le (Multiset.add_le_add_right hle) ih
    · obtain ⟨hrole, rfl⟩ := (hok.at_input hin).start _ hthread term rfl
      have hfresh := hg.start_fresh hrole command
      rw [hold] at hfresh
      refine Multiset.nodup_of_le (Multiset.add_le_add_right hkeys) ?_
      rw [Multiset.cons_add]
      exact Multiset.nodup_cons.mpr ⟨hfresh, ih⟩

/-- Two calls of `Start` that return the same index and term are the same call. -/
def StartsDistinct (s : Cluster n C S) : Prop := (s.started.map Started.key).Nodup

theorem logsMatch_run (h : Run step (At Node.Sound) init s) : s.LogsMatch ∧ s.StartsDistinct := by
  obtain ⟨-, g, hg⟩ := exists_shadow h
  refine ⟨hg.logsMatch, ?_⟩
  exact Multiset.coe_nodup.mp (Multiset.nodup_of_le (Multiset.le_add_right ..) (startKeys_nodup h))

/-- Five servers. Server 0 leads term 1 with the votes of 1 and 2; its first command reaches server
    1 only, and a second call of `Start` has read the term. Server 4 leads term 2 with the votes of
    2 and 3, and its heartbeat cuts the log of server 0, where the second call then appends. -/
def lateStart : List (Event 5 ℕ Unit) :=
  [.act 0 .timeout, .act 0 .startElection, .act 0 .sendRequestVotes, .act 0 .persistElection,
    .deliver 0, .deliver 0, .deliver 2, .deliver 2,
    .act 0 (.start (some 7)), .act 0 (.run 0), .act 0 (.run 0),
    .act 0 .heartbeat, .act 0 (.run 0), .act 0 (.run 3), .deliver 2,
    .act 0 (.start (some 8)),
    .deliver 1, .act 4 .timeout, .act 4 .startElection, .act 4 .sendRequestVotes,
    .act 4 .persistElection, .deliver 5, .deliver 5, .deliver 5, .deliver 5,
    .act 4 .heartbeat, .act 4 (.run 0), .act 4 (.run 3), .deliver 5,
    .act 0 (.run 3), .act 0 (.run 3)]

/-! ### Acknowledged entries -/

/-- What a server has acknowledged in its term is in its log, as far as the log goes back, and the
    log reaches to the acknowledged and to the committed index. -/
def KeepsAcknowledged (s : Cluster n C S) : Prop :=
  ∀ p ∈ s.sent, ∀ args reply, p.body = .appendEntriesReply args reply → reply.success = true →
    (s.nodes p.src).rf.currentTerm = args.term →
    (∀ k < args.entries.length, (s.nodes p.src).rf.lastIncludedIndex < args.prevLogIndex + 1 + k →
      (s.nodes p.src).rf.entryAt (args.prevLogIndex + 1 + k) = args.entries[k]?) ∧
    args.prevLogIndex + args.entries.length ≤ (s.nodes p.src).rf.getLastLogicalIndex ∧
    (s.nodes p.src).rf.commitIndex ≤ (s.nodes p.src).rf.getLastLogicalIndex

/-- A server is not in an earlier term than a request it has acknowledged. -/
theorem acknowledged_term_le (h : Run step (At Node.Sound) init s) {p : Packet n C S}
    (hp : p ∈ s.sent) {args : AppendEntriesArgs n C} {reply : AppendEntriesReply}
    (hbody : p.body = .appendEntriesReply args reply) (hsucc : reply.success = true) :
    args.term ≤ (s.nodes p.src).rf.currentTerm := by
  obtain ⟨-, g, hg⟩ := exists_shadow h
  have hsaid := hg.sent p hp
  rw [Says, hbody] at hsaid
  obtain ⟨-, m, -, hack⟩ := hsaid.2 hsucc
  rw [← (hg.nodes p.src).peer.cur]
  exact (hg.inv.acks hack).1

theorem keepsAcknowledged_run (h : Run step (At Node.Sound) init s) : s.KeepsAcknowledged := by
  obtain ⟨-, g, hg⟩ := exists_shadow h
  intro p hp args reply hbody hsucc hterm
  have hpeer := (hg.nodes p.src).peer
  have hsaid := hg.sent p hp
  rw [Says, hbody] at hsaid
  obtain ⟨⟨L, hL, q, hq, hqL, -, hcar⟩, m, hm, hack⟩ := hsaid.2 hsucc
  -- the acknowledged part of the leader log is saved, so it is in the log
  have hheld : L.take m <+: g.log p.src :=
    (hg.inv.held hack (hpeer.cur.trans hterm) hL).trans (hg.inv.stable _)
  have hmL : m ≤ L.length := by
    have := hcar.length_le
    rw [List.length_append, List.length_take] at this
    omega
  refine ⟨fun k hk hlii => ?_, ?_, ?_⟩
  · rw [hpeer.log.entryAt hlii, show (args.prevLogIndex + 1 + k - 1).toNat = q + k by omega,
      getElem?_of_isPrefix hheld (by rw [List.length_take]; omega),
      List.getElem?_take_of_lt (by omega),
      getElem?_of_isPrefix hcar (by rw [List.length_append, List.length_take]; omega),
      List.getElem?_append_right (by rw [List.length_take]; omega), List.length_take]
    congr 1
    omega
  · have := hheld.length_le
    rw [List.length_take] at this
    rw [hpeer.log.getLastLogicalIndex, hm]
    omega
  · rw [hpeer.log.getLastLogicalIndex]
    exact hpeer.within

/-- Two servers. The first heartbeat of server 0, empty, is overtaken by the one with the first
    command, which server 1 acknowledges. -/
def overtakenHeartbeat [NeZero n] : List (Event n ℕ Unit) :=
  [.act 0 .timeout, .act 0 .startElection, .act 0 .sendRequestVotes, .act 0 .persistElection,
    .deliver 0, .deliver 0,
    .act 0 .heartbeat, .act 0 (.run 0), .act 0 (.run 0),
    .act 0 (.start (some 7)), .act 0 (.run 0), .act 0 (.run 0),
    .act 0 .heartbeat, .act 0 (.run 0), .act 0 (.run 0), .deliver 1, .deliver 0]

end Cluster

/-! ### Code without the lock -/

theorem Node.crashLocal_sound : Node.CrashLocal (Node.Sound (n := n) (C := C) (S := S)) := by
  intro nd nd' hunsaved h
  exact ⟨by rintro _ ⟨⟩, fun _ => hunsaved.trans (h.crash rfl), by rintro _ ⟨⟩, by rintro _ ⟨⟩,
    by rintro _ ⟨⟩, by rintro _ ⟨⟩, by rintro _ ⟨⟩, by rintro _ ⟨⟩⟩

theorem Raft.Underway.entryAt {rf₀ rf : Raft n C S} (h : rf₀.Underway rf) (k : ℤ) :
    rf.entryAt k = rf₀.entryAt k := by
  rw [Raft.entryAt, Raft.entryAt, Raft.convertToStorageIndex, Raft.convertToStorageIndex, h.logs,
    h.lastIncludedIndex]

namespace Interleaved

variable {s s' : Interleaved n C S}

/-- State machine safety, in every run of sound steps that does not interrupt code without the
    lock. -/
theorem state_machine_safety (h : Run step (Steady Node.Sound) init s) :
    s.cluster.AppliesAgree := by
  obtain ⟨t, ht, hst⟩ := exists_stands Node.crashLocal_sound h
  rw [Cluster.AppliesAgree, ← hst.applied]
  exact Cluster.appliesAgree_run ht

theorem state_machine_safety_first_command : ∃ s : Interleaved 3 ℕ Unit,
    Run step (Steady Node.Sound) init s ∧ (0, .command (some 7) 1) ∈ s.cluster.applied ∧
      ∀ c, (1, .command c 1) ∈ s.cluster.applied → c = some 7 := by
  obtain ⟨s, t, hs, hem, happ⟩ := exists_run_of_schedule (n := 3) Node.Sound
    (Cluster.firstVote ++ Cluster.firstLeader ++ Cluster.firstCommand)
    (fun t => (0, .command (some 7) 1) ∈ t.applied) (by decide +kernel)
  rw [← hem.applied] at happ
  exact ⟨s, hs, happ, fun c hc => state_machine_safety hs 1 0 c (some 7) 1 hc happ⟩

/-- The services of two servers are sent different commands under index 1. -/
theorem cut_and_outvoted_disagree :
    ¬ ∀ s : Interleaved 2 ℕ Unit, Run step (Steady Node.NoCrash) init s →
      ∀ i j c c' index, i ≠ j → (i, .command c index) ∈ s.cluster.applied →
        (j, .command c' index) ∈ s.cluster.applied → c = c' := by
  obtain ⟨s, t, hs, hem, h7, h8⟩ := exists_run_of_schedule (n := 2) Node.NoCrash
    Cluster.cutAndOutvoted
    (fun t => (0, .command (some 7) 1) ∈ t.applied ∧ (1, .command (some 8) 1) ∈ t.applied)
    (by decide +kernel)
  rw [← hem.applied] at h7 h8
  intro h
  exact absurd (h s hs 0 1 _ _ 1 (by decide) h7 h8) (by decide)

/-- Log matching, and no index is given to two calls of `Start` in one term. -/
theorem log_matching (h : Run step (Steady Node.Sound) init s) :
    s.cluster.LogsMatch ∧ s.cluster.StartsDistinct := by
  obtain ⟨t, ht, hst⟩ := exists_stands Node.crashLocal_sound h
  obtain ⟨hmatch, hstarts⟩ := Cluster.logsMatch_run ht
  refine ⟨fun i j index => ?_, ?_⟩
  · simp only [(hst.underway i).entryAt, (hst.underway j).entryAt,
      (hst.underway i).lastIncludedIndex, (hst.underway j).lastIncludedIndex]
    exact hmatch i j index
  · rw [Cluster.StartsDistinct, ← hst.started]
    exact hstarts

theorem log_matching_first_command : ∃ s : Interleaved 3 ℕ Unit,
    Run step (Steady Node.Sound) init s ∧
      (s.cluster.nodes 0).rf.entryAt 1 = some ⟨1, some 7⟩ ∧
      (∀ e, (s.cluster.nodes 1).rf.entryAt 1 = some e → e.term = 1 → e.command = some 7) ∧
      s.cluster.StartsDistinct := by
  obtain ⟨s, t, hs, hem, h0, h1, he⟩ := exists_run_of_schedule (n := 3) Node.Sound
    (Cluster.firstVote ++ Cluster.firstLeader ++ Cluster.firstCommand)
    (fun t => (t.nodes 0).rf.lastIncludedIndex = 0 ∧ (t.nodes 1).rf.lastIncludedIndex = 0 ∧
      (t.nodes 0).rf.entryAt 1 = some ⟨1, some 7⟩) (by decide +kernel)
  rw [← hem.nodes] at h0 h1 he
  obtain ⟨hmatch, hstarts⟩ := log_matching hs
  refine ⟨s, hs, he, fun e hget hterm => ?_, hstarts⟩
  exact (hmatch 1 0 1 e _ (by rw [h1]; decide) (by rw [h0]; decide) hget he hterm).1

/-- Servers 0 and 1 have two commands of term 1 at index 1, and both calls have returned index 1 and
    term 1. -/
theorem late_start_breaks_matching :
    ¬ ∀ s : Interleaved 5 ℕ Unit, Run step (Steady Node.NoCrash) init s →
      s.cluster.LogsMatch ∧ s.cluster.StartsDistinct := by
  obtain ⟨s, t, hs, hem, h0, h1, he, he', -⟩ := exists_run_of_schedule (n := 5) Node.NoCrash
    Cluster.lateStart
    (fun t => (t.nodes 0).rf.lastIncludedIndex = 0 ∧ (t.nodes 1).rf.lastIncludedIndex = 0 ∧
      (t.nodes 0).rf.entryAt 1 = some ⟨1, some 8⟩ ∧ (t.nodes 1).rf.entryAt 1 = some ⟨1, some 7⟩ ∧
      t.started.map Started.key = [(1, 1), (1, 1)]) (by decide +kernel)
  rw [← hem.nodes] at h0 h1 he he'
  intro h
  have := ((h s hs).1 0 1 1 _ _ (by rw [h0]; decide) (by rw [h1]; decide) he he' rfl).1
  exact absurd this (by decide)

/-- An acknowledged entry stays. -/
theorem acknowledged_stays (h : Run step (Steady Node.Sound) init s) :
    s.cluster.KeepsAcknowledged := by
  obtain ⟨t, ht, hst⟩ := exists_stands Node.crashLocal_sound h
  intro p hp args reply hbody hsucc hterm
  rw [← hst.sent] at hp
  have hunder := hst.underway p.src
  -- a tail that has written a new term cannot have reached that of the request
  have hterm' : (t.nodes p.src).rf.currentTerm = args.term :=
    le_antisymm (hunder.currentTerm.trans hterm.le)
      (Cluster.acknowledged_term_le ht hp hbody hsucc)
  simp only [hunder.entryAt, hunder.lastIncludedIndex, hunder.getLastLogicalIndex,
    hunder.commitIndex]
  exact Cluster.keepsAcknowledged_run ht p hp args reply hbody hsucc hterm'

theorem acknowledged_stays_first_command : ∃ s : Interleaved 3 ℕ Unit,
    Run step (Steady Node.Sound) init s ∧ (s.cluster.nodes 1).rf.currentTerm = 1 ∧
      (s.cluster.nodes 1).rf.entryAt 1 = some ⟨1, some 7⟩ ∧
      1 ≤ (s.cluster.nodes 1).rf.getLastLogicalIndex := by
  obtain ⟨s, t, hs, hem, hsent, hcur, hlii⟩ := exists_run_of_schedule (n := 3) Node.Sound
    (Cluster.firstVote ++ Cluster.firstLeader ++ Cluster.firstCommand)
    (fun t =>
      ⟨1, 0, 0, .appendEntriesReply ⟨1, 0, 0, 0, [⟨1, some 7⟩], 0⟩ ⟨1, true, 0, 0⟩⟩ ∈ t.sent ∧
      (t.nodes 1).rf.currentTerm = 1 ∧ (t.nodes 1).rf.lastIncludedIndex = 0) (by decide +kernel)
  rw [← hem.sent] at hsent
  rw [← hem.nodes] at hcur hlii
  obtain ⟨hkeep, hlast, -⟩ := acknowledged_stays hs _ hsent _ _ rfl rfl hcur
  exact ⟨s, hs, hcur, hkeep 0 (by decide) (by rw [hlii]; decide), hlast⟩

/-- The late heartbeat cuts the acknowledged command from the log of server 1. -/
theorem overtaken_heartbeat_cuts :
    ¬ ∀ s : Interleaved 2 ℕ Unit, Run step (Steady Node.NoCrash) init s →
      s.cluster.KeepsAcknowledged := by
  obtain ⟨s, t, hs, hem, hsent, hcur, hlast⟩ := exists_run_of_schedule (n := 2) Node.NoCrash
    Cluster.overtakenHeartbeat
    (fun t =>
      ⟨1, 0, 0, .appendEntriesReply ⟨1, 0, 0, 0, [⟨1, some 7⟩], 0⟩ ⟨1, true, 0, 0⟩⟩ ∈ t.sent ∧
      (t.nodes 1).rf.currentTerm = 1 ∧ (t.nodes 1).rf.getLastLogicalIndex = 0) (by decide +kernel)
  rw [← hem.sent] at hsent
  rw [← hem.nodes] at hcur hlast
  intro h
  have hle := (h s hs _ hsent _ _ rfl rfl hcur).2.1
  rw [hlast] at hle
  exact absurd hle (by decide)

end Interleaved
end DistLabs
