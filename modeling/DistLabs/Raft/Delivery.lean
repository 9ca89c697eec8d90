import DistLabs.Raft.Bounds

/-! # What the service receives

    One `applyLogs` goroutine is started for each advance of `commitIndex`, and one goroutine for
    each installed snapshot. Each holds messages computed from a `lastApplied` that the others move.
    Where at most one of them is under way at a time, the service receives every index once and in
    order. -/

namespace DistLabs

variable {n : ℕ} {C S : Type}

/-- `CommandIndex` of a command, `SnapshotIndex` of a snapshot. -/
def ApplyMsg.index : ApplyMsg C S → ℤ
  | .command _ i => i
  | .snapshot _ _ i => i

/-- The index of the newest message, or `base` before the first. -/
def lastIndex (base : ℤ) : List (ApplyMsg C S) → ℤ
  | [] => base
  | m :: _ => m.index

/-- The messages of an incarnation, newest first: a command follows the index before it, a snapshot
    is ahead of every index before it. -/
def InOrder (base : ℤ) : List (ApplyMsg C S) → Prop
  | [] => True
  | .command _ i :: r => i = lastIndex base r + 1 ∧ InOrder base r
  | .snapshot _ _ i :: r => (base < i ∧ ∀ m ∈ r, m.index < i) ∧ InOrder base r

/-- The goroutine has messages to send, or an update of `lastApplied` to make. -/
def Thread.delivers : Thread n C S → Bool
  | .applying msgs => !msgs.isEmpty
  | .applied _ _ => true
  | .snapshotMsg _ => true
  | _ => false

namespace Node

/-- No goroutine of the server is under way to `applyCh`. -/
def Quiescent (nd : Node n C S) : Prop := ∀ t ∈ nd.threads, t.delivers = false

/-- `applyLogs` computes a batch, and `InstallSnapshot` installs a snapshot, only while no goroutine
    is under way to `applyCh`. -/
def Serial (nd : Node n C S) (inp : Input n C S) : Prop :=
  (∀ t ∈ nd.running inp, t.isApply = true → nd.Quiescent) ∧
    ∀ args ∈ inp.installRequest, nd.rf.currentTerm ≤ args.term →
      nd.rf.lastIncludedIndex < args.lastIncludedIndex →
      nd.rf.lastApplied < args.lastIncludedIndex → nd.Quiescent

instance (nd : Node n C S) : Decidable nd.Quiescent :=
  inferInstanceAs (Decidable (∀ t ∈ nd.threads, _))

instance (nd : Node n C S) (inp : Input n C S) : Decidable (nd.Serial inp) :=
  inferInstanceAs (Decidable ((∀ t ∈ nd.running inp, _) ∧ ∀ args ∈ inp.installRequest, _))

end Node

theorem InOrder.le {base : ℤ} : ∀ {r : List (ApplyMsg C S)}, InOrder base r →
    base ≤ lastIndex base r ∧ ∀ m ∈ r, m.index ≤ lastIndex base r
  | [], _ => ⟨le_rfl, by rintro _ ⟨⟩⟩
  | .command c i :: r, h => by
    obtain ⟨hbase, hall⟩ := InOrder.le h.2
    have hi : i = lastIndex base r + 1 := h.1
    refine ⟨show base ≤ i by omega, fun m hm => show m.index ≤ i from ?_⟩
    rcases List.mem_cons.mp hm with rfl | hm
    · exact le_rfl
    · have := hall m hm
      omega
  | .snapshot d t i :: r, h => by
    refine ⟨h.1.1.le, fun m hm => show m.index ≤ i from ?_⟩
    rcases List.mem_cons.mp hm with rfl | hm
    · exact le_rfl
    · exact (h.1.2 m hm).le

/-- A snapshot ahead of the newest message is ahead of all. -/
theorem InOrder.snapshot {base i t : ℤ} {d : Option S} {r : List (ApplyMsg C S)}
    (h : InOrder base r) (hlt : lastIndex base r < i) : InOrder base (.snapshot d t i :: r) := by
  obtain ⟨hbase, hall⟩ := h.le
  exact ⟨⟨hbase.trans_lt hlt, fun m hm => (hall m hm).trans_lt hlt⟩, h⟩

/-- The goroutine under way to `applyCh`, if there is one, when the service has received everything
    up to index `d`. -/
inductive Pipeline (d : ℤ) (rf : Raft n C S) : List (Thread n C S) → Prop
  | idle (applied : rf.lastApplied = d) (low : rf.lastIncludedIndex ≤ d) : Pipeline d rf []
  | sending {msgs : List (ApplyMsg C S)} (applied : rf.lastApplied = d)
      (low : rf.lastIncludedIndex ≤ d) (batch : Raft.Batch (d + 1) msgs) :
      Pipeline d rf [.applying msgs]
  | sent {msgs : List (ApplyMsg C S)} (applied : rf.lastApplied ≤ d)
      (low : rf.lastIncludedIndex ≤ d) (batch : Raft.Batch (d + 1) msgs) :
      Pipeline d rf [.applied d msgs]
  | snapshot {data : Option S} {t x : ℤ} (applied : rf.lastApplied = x) (lt : d < x)
      (low : rf.lastIncludedIndex ≤ x) : Pipeline d rf [.snapshotMsg (.snapshot data t x)]

/-- The service of an incarnation that was restored at `base` has received the indices in order. -/
structure Flow (base : ℤ) (nd : Node n C S) : Prop where
  stream : InOrder base nd.received
  pipeline : Pipeline (lastIndex base nd.received) nd.rf (nd.threads.filter Thread.delivers)
  cond : ∀ t ∈ nd.threads, t.isCond = false

/-! ### The goroutines of a server -/

section Threads

variable {l : List (Thread n C S)} {k : ℕ} {t : Thread n C S}

theorem thread_split (h : l[k]? = some t) :
    l = l.take k ++ t :: l.drop (k + 1) ∧ l.eraseIdx k = l.take k ++ l.drop (k + 1) := by
  obtain ⟨hk, rfl⟩ := List.getElem?_eq_some_iff.mp h
  exact ⟨by rw [← List.drop_eq_getElem_cons hk, List.take_append_drop],
    List.eraseIdx_eq_take_drop_succ ..⟩

theorem filter_eraseIdx_of_not (h : l[k]? = some t) (ht : t.delivers = false) :
    (l.eraseIdx k).filter Thread.delivers = l.filter Thread.delivers := by
  obtain ⟨hl, he⟩ := thread_split h
  rw [he, List.filter_append]
  conv_rhs => rw [hl, List.filter_append, List.filter_cons_of_neg (by rw [ht]; decide)]

theorem filter_eraseIdx_of_delivers (h : l[k]? = some t) (ht : t.delivers = true)
    {u : Thread n C S} (hu : l.filter Thread.delivers = [u]) :
    u = t ∧ (l.eraseIdx k).filter Thread.delivers = [] := by
  obtain ⟨hl, he⟩ := thread_split h
  rw [hl, List.filter_append, List.filter_cons_of_pos ht, List.append_eq_singleton_iff] at hu
  rw [he, List.filter_append]
  rcases hu with ⟨h1, h2⟩ | ⟨-, h2⟩
  · obtain ⟨rfl, h3⟩ := List.cons.inj h2
    exact ⟨rfl, by rw [h1, h3]; rfl⟩
  · cases h2

end Threads

namespace Pipeline

variable {d : ℤ} {rf rf' : Raft n C S} {l : List (Thread n C S)}

/-- The pipeline depends on two indices of the peer only. -/
theorem congr (h : Pipeline d rf l) (happ : rf'.lastApplied = rf.lastApplied)
    (hlow : rf'.lastIncludedIndex = rf.lastIncludedIndex ∨ rf'.lastIncludedIndex ≤ d) :
    Pipeline d rf' l := by
  have hle : ∀ {x}, d ≤ x → rf.lastIncludedIndex ≤ x → rf'.lastIncludedIndex ≤ x := by
    intro x hd hx
    rcases hlow with heq | hle
    · exact heq.le.trans hx
    · exact hle.trans hd
  cases h with
  | idle applied low => exact .idle (happ.trans applied) (hle le_rfl low)
  | sending applied low batch => exact .sending (happ.trans applied) (hle le_rfl low) batch
  | sent applied low batch => exact .sent (happ.le.trans applied) (hle le_rfl low) batch
  | snapshot applied lt low => exact .snapshot (happ.trans applied) lt (hle lt.le low)

theorem singleton (h : Pipeline d rf l) {t : Thread n C S} (ht : t ∈ l) : l = [t] := by
  cases h with
  | idle applied low => cases ht
  | sending applied low batch => rw [List.mem_singleton.mp ht]
  | sent applied low batch => rw [List.mem_singleton.mp ht]
  | snapshot applied lt low => rw [List.mem_singleton.mp ht]

end Pipeline

namespace Flow

variable {base : ℤ} {nd : Node n C S} {inp : Input n C S} {out : Out n C S}

theorem restart (nd : Node n C S) : Flow nd.restart.rf.lastIncludedIndex nd.restart where
  stream := trivial
  pipeline := .idle (Raft.make_lastApplied ..) le_rfl
  cond := by rintro _ ⟨⟩

theorem boot (i : Fin n) : Flow 0 (Node.boot i : Node n C S) where
  stream := trivial
  pipeline := .idle rfl le_rfl
  cond := by rintro _ ⟨⟩

/-- With no goroutine under way, everything applied has been received. -/
theorem idle (h : Flow base nd) (hq : nd.Quiescent) :
    nd.threads.filter Thread.delivers = [] ∧ nd.rf.lastApplied = lastIndex base nd.received ∧
      nd.rf.lastIncludedIndex ≤ lastIndex base nd.received := by
  have hnil : nd.threads.filter Thread.delivers = [] :=
    List.filter_eq_nil_iff.mpr fun t ht => by rw [hq t ht]; decide
  have hp := h.pipeline
  rw [hnil] at hp
  cases hp with
  | idle applied low => exact ⟨hnil, applied, low⟩

/-- The goroutine that runs is the one under way. -/
theorem running (h : Flow base nd) {k : ℕ} {t : Thread n C S} (ht : nd.threads[k]? = some t)
    (hd : t.delivers = true) : Pipeline (lastIndex base nd.received) nd.rf [t] ∧
      (nd.threads.eraseIdx k).filter Thread.delivers = [] := by
  have hmem : t ∈ nd.threads.filter Thread.delivers :=
    List.mem_filter.mpr ⟨List.mem_of_getElem? ht, hd⟩
  have hone := h.pipeline.singleton hmem
  exact ⟨hone ▸ h.pipeline, (filter_eraseIdx_of_delivers ht hd hone).2⟩

/-- A step that neither delivers nor starts to. -/
theorem frame (h : Flow base nd) (hrec : out.node.received = nd.received)
    (happ : out.node.rf.lastApplied = nd.rf.lastApplied)
    (hlow : out.node.rf.lastIncludedIndex = nd.rf.lastIncludedIndex ∨
      out.node.rf.lastIncludedIndex ≤ lastIndex base nd.received)
    (hthreads : out.node.threads.filter Thread.delivers = nd.threads.filter Thread.delivers)
    (hcond : ∀ t ∈ out.node.threads, t.isCond = false) : Flow base out.node where
  stream := hrec ▸ h.stream
  pipeline := by
    rw [hrec, hthreads]
    exact h.pipeline.congr happ hlow
  cond := hcond

/-- `applyLogs` never falls behind the snapshot. -/
theorem applyAhead (h : Flow base nd) (hok : nd.Serial inp) : nd.ApplyAhead inp := by
  intro t ht hap
  obtain ⟨-, happ, hlow⟩ := h.idle (hok.1 t ht hap)
  exact happ ▸ hlow

theorem cond_move (h : Flow base nd) (hok : nd.Serial inp) (hm : nd.Move inp out)
    {t : Thread n C S} (ht : t ∈ out.node.threads) : t.isCond = false := by
  rcases hm.threads ht with hold | hnew
  · exact h.cond t hold
  cases hnew with
  | condRead running logs => exact absurd logs ((h.applyAhead hok).not_cond running)
  | condInstall running => cases h.cond _ (Node.mem_of_running running)
  | _ => rfl

/-- A step of a goroutine that is not under way to `applyCh`, before and after. -/
theorem spawn (h : Flow base nd) {k : ℕ} {t : Thread n C S} (ht : nd.threads[k]? = some t)
    (hd : t.delivers = false) (ts : List (Thread n C S)) (hts : ts.filter Thread.delivers = [])
    (hthreads : out.node.threads = nd.threads.eraseIdx k ++ ts)
    (hrec : out.node.received = nd.received)
    (happ : out.node.rf.lastApplied = nd.rf.lastApplied)
    (hlow : out.node.rf.lastIncludedIndex = nd.rf.lastIncludedIndex)
    (hcond : ∀ t ∈ out.node.threads, t.isCond = false) : Flow base out.node := by
  refine h.frame hrec happ (.inl hlow) ?_ hcond
  rw [hthreads, List.filter_append, hts, List.append_nil, filter_eraseIdx_of_not ht hd]

/-- The goroutine under way takes its next step, and goes on as `t'`. -/
theorem advance {k : ℕ} {t' : Thread n C S} {rf : Raft n C S} {msgs : List (ApplyMsg C S)}
    (hnil : (nd.threads.eraseIdx k).filter Thread.delivers = [])
    (hd : t'.delivers = true) (hp : Pipeline (lastIndex base msgs) rf [t']) :
    Pipeline (lastIndex base msgs) rf
      ((nd.threads.eraseIdx k ++ [t']).filter Thread.delivers) := by
  rw [List.filter_append, hnil, List.filter_cons_of_pos hd]
  exact hp

/-- A batch computed while nothing is under way starts after the newest message. -/
theorem apply (h : Flow base nd) {k : ℕ} {msgs : List (ApplyMsg C S)}
    (ht : nd.threads[k]? = some .apply) (hok : nd.Serial (.act (.run k)))
    (logs : nd.rf.applyLogs = some (some msgs)) :
    Pipeline (lastIndex base nd.received) nd.rf
      ((nd.threads.eraseIdx k ++ [Thread.applying msgs]).filter Thread.delivers) := by
  obtain ⟨hnil, happ, hlow⟩ := h.idle (hok.1 .apply ht rfl)
  obtain ⟨-, hbatch, -⟩ := Raft.applyLogs_batch logs
  rw [List.filter_append, filter_eraseIdx_of_not ht rfl, hnil]
  cases msgs with
  | nil => exact .idle happ hlow
  | cons m msgs => exact .sending happ hlow (happ ▸ hbatch)

theorem goes (h : Flow base nd) {k : ℕ} {t : Thread n C S} (hok : nd.Serial (.act (.run k)))
    (thread : nd.threads[k]? = some t)
    (hg : Node.Goes { nd with threads := nd.threads.eraseIdx k } t out) :
    Flow base out.node ∧ nd.rf.lastApplied ≤ out.node.rf.lastApplied := by
  have hcond : ∀ t ∈ out.node.threads, t.isCond = false := fun t ht =>
    h.cond_move hok (.run thread hg) ht
  cases hg with
  | start term command => exact ⟨h.spawn thread rfl _ rfl rfl rfl rfl rfl hcond, le_rfl⟩
  | heartbeat gen => exact ⟨h.spawn thread rfl _ rfl rfl rfl rfl rfl hcond, le_rfl⟩
  | appendSnapshot role => exact ⟨h.spawn thread rfl _ rfl rfl rfl rfl rfl hcond, le_rfl⟩
  | install server => exact ⟨h.spawn thread rfl _ rfl rfl rfl rfl rfl hcond, le_rfl⟩
  | applyCond logs => exact ⟨h.spawn thread rfl _ rfl rfl rfl rfl rfl hcond, le_rfl⟩
  | condRead => exact ⟨h.spawn thread rfl _ rfl rfl rfl rfl rfl hcond, le_rfl⟩
  | condInstall handler => cases h.cond _ (List.mem_of_getElem? thread)
  | apply logs => exact ⟨⟨h.stream, h.apply thread hok logs, hcond⟩, le_rfl⟩
  | applySend msg msgs =>
    -- the message is the next index, and the goroutine still has to set `lastApplied`
    obtain ⟨hp, hnil⟩ := h.running thread rfl
    refine ⟨?_, le_rfl⟩
    cases hp with
    | sending applied low batch =>
      obtain ⟨⟨c, rfl⟩, hrest⟩ := batch
      exact ⟨⟨rfl, h.stream⟩, advance hnil rfl (.sent (applied.le.trans (Int.le_add_one le_rfl))
        (low.trans (Int.le_add_one le_rfl)) hrest), hcond⟩
  | applied i msgs =>
    obtain ⟨hp, hnil⟩ := h.running thread rfl
    cases hp with
    | sent applied low batch =>
      refine ⟨⟨h.stream, ?_, hcond⟩, applied⟩
      cases msgs with
      | nil =>
        rw [Node.spawn, List.filter_append, hnil]
        exact .idle rfl low
      | cons m msgs => exact advance hnil rfl (.sending rfl low batch)
  | snapshotMsg msg =>
    obtain ⟨hp, hnil⟩ := h.running thread rfl
    refine ⟨?_, le_rfl⟩
    cases hp with
    | snapshot applied lt low =>
      refine ⟨h.stream.snapshot lt, ?_, hcond⟩
      rw [hnil]
      exact .idle applied low
  | _ => exact ⟨h.spawn thread rfl [] rfl (List.append_nil _).symm rfl rfl rfl hcond, le_rfl⟩

/-- A snapshot installed while nothing is under way is ahead of every message. -/
theorem install (h : Flow base nd) {args : InstallSnapshotArgs n S} {logs : List (LogEntry C)}
    (hq : nd.Quiescent) (hahead : nd.rf.lastApplied < args.lastIncludedIndex) :
    Pipeline (lastIndex base nd.received) (nd.rf.installed args logs).persist
      ((nd.threads ++ [Thread.snapshotMsg (.snapshot args.data args.lastIncludedTerm
        args.lastIncludedIndex)]).filter Thread.delivers) := by
  obtain ⟨hnil, happ, -⟩ := h.idle hq
  rw [List.filter_append, hnil]
  exact .snapshot rfl (happ ▸ hahead) le_rfl

/-- `Snapshot` is called for an index that has been received. -/
theorem compact (h : Flow base nd) {index : ℤ}
    (hrec : nd.received.any (·.isCommandAt index) = true) :
    index ≤ lastIndex base nd.received := by
  obtain ⟨m, hm, hat⟩ := List.any_eq_true.mp hrec
  have hle := h.stream.le.2 m hm
  cases m with
  | command c j => exact (of_decide_eq_true hat : j = index) ▸ hle
  | snapshot d t j => cases hat

/-- Where no goroutine runs and no snapshot is installed, `lastApplied` stays, and the log is not
    compacted beyond what was received. -/
theorem indices (h : Flow base nd) {rf' : Raft n C S} (hedit : nd.Edit inp rf')
    (hrun : nd.running inp = none) (hinstall : inp.installRequest = none)
    (hcrash : inp.isCrash = false) : rf'.lastApplied = nd.rf.lastApplied ∧
      (rf'.lastIncludedIndex = nd.rf.lastIncludedIndex ∨
        rf'.lastIncludedIndex ≤ lastIndex base nd.received) := by
  have hno : ∀ {t}, nd.running inp ≠ some t := by
    intro t ht
    cases hrun.symm.trans ht
  cases hedit with
  | keep same => exact ⟨same.applied, .inl same.index⟩
  | store request accepts low =>
    exact ⟨Raft.follow_lastApplied _, .inl (Raft.follow_lastIncludedIndex _)⟩
  | commit same lt le applied => exact ⟨applied, .inl same.index⟩
  | compact received lt le drop => exact ⟨rfl, .inr (h.compact received)⟩
  | install request term lt ahead trim => cases hinstall.symm.trans request
  | append running => exact (hno running).elim
  | applied running => exact (hno running).elim
  | cond running handler => exact (hno running).elim
  | restart crash => cases hcrash.symm.trans crash

theorem move (h : Flow base nd) (hok : nd.Serial inp) (hcrash : inp.isCrash = false)
    (hm : nd.Move inp out) :
    Flow base out.node ∧ nd.rf.lastApplied ≤ out.node.rf.lastApplied := by
  have hcond : ∀ t ∈ out.node.threads, t.isCond = false := fun t => h.cond_move hok hm
  have hedit := hm.edit
  have hspawn : ∀ ts : List (Thread n C S), ts.filter Thread.delivers = [] →
      out.node.threads = nd.threads ++ ts → out.node.received = nd.received →
      nd.running inp = none → inp.installRequest = none →
      Flow base out.node ∧ nd.rf.lastApplied ≤ out.node.rf.lastApplied := by
    intro ts hts hthreads hrec hrun hinstall
    obtain ⟨happ, hlow⟩ := h.indices hedit hrun hinstall hcrash
    refine ⟨h.frame hrec happ hlow ?_ hcond, happ.ge⟩
    rw [hthreads, List.filter_append, hts, List.append_nil]
  have hnone := fun hrec hthreads => hspawn [] rfl hthreads hrec
  have happly : ∀ go : Bool, (if go then [.apply] else [] : List (Thread n C S)).filter
      Thread.delivers = [] := by
    intro go
    cases go <;> rfl
  cases hm with
  | run thread goes => exact h.goes hok thread goes
  | crash => cases hcrash
  | heartbeat role =>
    refine hspawn _ (List.filter_eq_nil_iff.mpr fun t ht => ?_) rfl rfl rfl rfl
    obtain ⟨server, -, rfl⟩ := List.mem_map.mp ht
    exact Bool.false_ne_true
  | start role command => exact hspawn _ rfl rfl rfl rfl rfl
  | requestVote body handler =>
    exact hnone rfl (List.append_nil _).symm rfl (by rw [Input.installRequest, body])
  | appendEntries body handler =>
    exact hspawn _ (happly _) rfl rfl rfl (by rw [Input.installRequest, body])
  | requestVoteReply body incarnation =>
    exact hnone rfl (List.append_nil _).symm rfl (by rw [Input.installRequest, body])
  | appendEntriesReply body incarnation handler =>
    exact hspawn _ (happly _) rfl rfl rfl (by rw [Input.installRequest, body])
  | installSnapshotReply body incarnation =>
    exact hnone rfl (List.append_nil _).symm rfl (by rw [Input.installRequest, body])
  | late incarnation => exact ⟨h, le_rfl⟩
  | installSnapshot body handler =>
    rcases Raft.installSnapshot_cases handler with ⟨-, rfl, -, rfl⟩ |
      ⟨hle, -, ⟨-, rfl, rfl⟩ | ⟨hlt, hahead, rfl, logs, -, rfl⟩⟩
    · exact ⟨h.frame rfl rfl (.inl rfl) (congrArg _ (List.append_nil _)) hcond, le_rfl⟩
    · have hsame := Raft.sameLog_meet_persist hle
      exact ⟨h.frame rfl hsame.applied (.inl hsame.index) (congrArg _ (List.append_nil _)) hcond,
        hsame.applied.ge⟩
    · have hq := hok.2 _ (by rw [Input.installRequest, body]; rfl) hle hlt hahead
      exact ⟨⟨h.stream, h.install hq hahead, hcond⟩, hahead.le⟩
  | _ => exact hnone rfl (List.append_nil _).symm rfl rfl

end Flow

namespace Cluster

variable {s s₀ s₁ s₂ : Cluster n C S} {i : Fin n}

/-- An incarnation of server `i` begins: the cluster boots, or the server has just restarted. -/
def Begins (i : Fin n) (s₀ : Cluster n C S) : Prop :=
  s₀ = init ∨ ∃ s : Cluster n C S, s.step (.act i .crash) = .ok s₀

theorem Begins.flow (h : s₀.Begins i) :
    Flow (s₀.nodes i).rf.lastIncludedIndex (s₀.nodes i) := by
  rcases h with rfl | ⟨s, hs⟩
  · exact .boot i
  · obtain ⟨j, inp, net, out, hin, hon, rfl⟩ := step_ok hs
    obtain ⟨rfl, rfl, -⟩ : i = j ∧ Input.act .crash = inp ∧ s.net = net := by
      simpa [input] using hin
    cases hon
    rw [advance_nodes_self]
    exact .restart _

theorem incarnation_mono {ok : Cluster n C S → Event n C S → Prop} (h : Run step ok s₁ s₂) :
    (s₁.nodes i).incarnation ≤ (s₂.nodes i).incarnation := by
  refine h.invariant (P := fun s => (s₁.nodes i).incarnation ≤ (s.nodes i).incarnation) le_rfl ?_
  intro s s' e hle _ hstep
  obtain ⟨j, inp, net, out, -, hon, rfl⟩ := step_ok hstep
  rcases eq_or_ne i j with rfl | hne
  · rw [advance_nodes_self]
    have hm := Node.on_move hon
    cases hcrash : inp.isCrash with
    | false => exact (hm.role_kept hcrash).2.1 ▸ hle
    | true =>
      cases hm with
      | crash => exact hle.trans (Nat.le_succ _)
      | _ => cases hcrash
  · rw [advance_nodes_of_ne hne]
    exact hle

/-- Within an incarnation the stream stays in order and `lastApplied` does not decrease. -/
theorem flow_run {base : ℤ} (hflow : Flow base (s₁.nodes i))
    (h : Run step (At Node.Serial) s₁ s₂)
    (hinc : (s₂.nodes i).incarnation = (s₁.nodes i).incarnation) :
    Flow base (s₂.nodes i) ∧ (s₁.nodes i).rf.lastApplied ≤ (s₂.nodes i).rf.lastApplied := by
  -- the invariant is claimed only of the states that have not left the incarnation
  refine (h.invariant (P := fun s => (s₁.nodes i).incarnation ≤ (s.nodes i).incarnation ∧
    ((s.nodes i).incarnation = (s₁.nodes i).incarnation → Flow base (s.nodes i) ∧
      (s₁.nodes i).rf.lastApplied ≤ (s.nodes i).rf.lastApplied))
    ⟨le_rfl, fun _ => ⟨hflow, le_rfl⟩⟩ ?_).2 hinc
  rintro s s' e ⟨hle, hinv⟩ hok hstep
  refine ⟨hle.trans (incarnation_mono (.tail .refl hok hstep)), ?_⟩
  obtain ⟨j, inp, net, out, hin, hon, rfl⟩ := step_ok hstep
  rcases eq_or_ne i j with rfl | hne
  · rw [advance_nodes_self]
    have hm := Node.on_move hon
    intro heq
    cases hcrash : inp.isCrash with
    | false =>
      obtain ⟨hf, hmono⟩ := hinv ((hm.role_kept hcrash).2.1.symm.trans heq)
      obtain ⟨hf', hmono'⟩ := hf.move (hok.at_input hin) hcrash hm
      exact ⟨hf', hmono.trans hmono'⟩
    | true =>
      cases hm with
      | crash => exact absurd heq (Nat.lt_succ_of_le hle).ne'
      | _ => cases hcrash
  · rw [advance_nodes_of_ne hne]
    exact hinv

/-- What the service of an incarnation receives is in order and gap-free from the restored
    `lastIncludedIndex` on, and `lastApplied` never decreases, in every run that has one goroutine
    at a time under way to `applyCh`. -/
theorem apply_stream_in_order (hbegin : s₀.Begins i) (h₁ : Run step (At Node.Serial) s₀ s₁)
    (h₂ : Run step (At Node.Serial) s₁ s₂)
    (hinc : (s₂.nodes i).incarnation = (s₀.nodes i).incarnation) :
    InOrder (s₀.nodes i).rf.lastIncludedIndex (s₂.nodes i).received ∧
      (s₁.nodes i).rf.lastApplied ≤ (s₂.nodes i).rf.lastApplied := by
  have hinc₁ : (s₁.nodes i).incarnation = (s₀.nodes i).incarnation :=
    le_antisymm (hinc ▸ incarnation_mono h₂) (incarnation_mono h₁)
  have hflow₁ := (flow_run hbegin.flow h₁ hinc₁).1
  obtain ⟨hflow₂, hmono⟩ := flow_run hflow₁ h₂ (hinc.trans hinc₁.symm)
  exact ⟨hflow₂.stream, hmono⟩

/-- Three servers. The first leader has two commands acknowledged by both others and applies them;
    the next heartbeat tells server 1, which applies them too. -/
def twoCommands [NeZero n] : List (Event n ℕ Unit) :=
  [.deliver 1, .deliver 0, .deliver 0, .act 0 (.start (some 7)), .act 0 (.run 0), .act 0 (.run 0),
    .act 0 (.start (some 8)), .act 0 (.run 0), .act 0 (.run 0),
    .act 0 .heartbeat, .act 0 (.run 0), .act 0 (.run 0), .act 0 (.run 0), .act 0 (.run 0),
    .deliver 0, .deliver 0, .deliver 0, .deliver 0,
    .act 0 (.run 0), .act 0 (.run 0), .act 0 (.run 0), .act 0 (.run 0), .act 0 (.run 0),
    .act 0 (.run 0),
    .act 0 .heartbeat, .act 0 (.run 0), .act 0 (.run 1), .deliver 0, .deliver 0,
    .act 1 (.run 0), .act 1 (.run 0), .act 1 (.run 0), .act 1 (.run 0), .act 1 (.run 0),
    .act 1 (.run 0)]

/-- A third command reaches server 2 only. The leader applies it, compacts its log up to it and
    sends server 1 the snapshot. -/
def thenSnapshot [NeZero n] : List (Event n ℕ Unit) :=
  [.act 0 (.start (some 9)), .act 0 (.run 1), .act 0 (.run 1), .act 0 (.run 0), .act 0 (.run 0),
    .deliver 0, .deliver 0, .act 0 (.run 0), .act 0 (.run 0), .act 0 (.run 0), .act 0 (.run 0),
    .act 0 (.snapshot 3 (some ())),
    .act 0 .heartbeat, .act 0 (.run 0), .act 0 (.run 1), .act 0 (.run 1), .act 0 (.run 1),
    .deliver 0, .act 1 (.run 0)]

theorem apply_stream_in_order_commands_then_snapshot : ∃ s₁ s₂ : Cluster 3 ℕ Unit,
    Run step (At Node.Serial) init s₁ ∧ Run step (At Node.Serial) s₁ s₂ ∧
      (s₂.nodes 1).received =
        [.snapshot (some ()) 1 3, .command (some 8) 2, .command (some 7) 1] ∧
      InOrder 0 (s₂.nodes 1).received ∧
      (s₁.nodes 1).rf.lastApplied ≤ (s₂.nodes 1).rf.lastApplied := by
  obtain ⟨s₁, s₂, h₁, h₂, hrec, hinc⟩ := exists_runs_of_play step (At Node.Serial) init
    (firstVote ++ twoCommands) thenSnapshot
    (fun _ s₂ : Cluster 3 ℕ Unit => (s₂.nodes 1).received =
        [.snapshot (some ()) 1 3, .command (some 8) 2, .command (some 7) 1] ∧
      (s₂.nodes 1).incarnation = 0) (by decide +kernel)
  exact ⟨s₁, s₂, h₁, h₂, hrec, apply_stream_in_order (.inl rfl) h₁ h₂ hinc⟩

/-- Two servers. Server 0 commits a first command, and a second one before the goroutine it started
    for the first has read `lastApplied`; then each of the two goroutines computes its batch and
    sends the first command of it. -/
def overlappingAppliers [NeZero n] : List (Event n ℕ Unit) :=
  [.act 0 .timeout, .act 0 .startElection, .act 0 .sendRequestVotes, .act 0 .persistElection,
    .deliver 0, .deliver 0,
    .act 0 (.start (some 7)), .act 0 (.run 0), .act 0 (.run 0),
    .act 0 .heartbeat, .act 0 (.run 0), .act 0 (.run 0), .deliver 0, .deliver 0,
    .act 0 (.start (some 8)), .act 0 (.run 1), .act 0 (.run 1),
    .act 0 .heartbeat, .act 0 (.run 1), .act 0 (.run 1), .deliver 0, .deliver 0,
    .act 0 (.run 0), .act 0 (.run 0), .act 0 (.run 0), .act 0 (.run 0)]

/-- The service receives the first command twice. -/
theorem overlapping_appliers_repeat :
    ¬ ∀ (s₀ s₁ s₂ : Cluster 2 ℕ Unit) (i : Fin 2), s₀.Begins i →
      Run step (At Node.NoCrash) s₀ s₁ → Run step (At Node.NoCrash) s₁ s₂ →
      (s₂.nodes i).incarnation = (s₀.nodes i).incarnation →
      InOrder (s₀.nodes i).rf.lastIncludedIndex (s₂.nodes i).received ∧
        (s₁.nodes i).rf.lastApplied ≤ (s₂.nodes i).rf.lastApplied := by
  obtain ⟨s, hs, hrec, hinc⟩ := exists_run_of_play step (At Node.NoCrash) init overlappingAppliers
    (fun s : Cluster 2 ℕ Unit => (s.nodes 0).received = [.command (some 7) 1, .command (some 7) 1] ∧
      (s.nodes 0).incarnation = 0) (by decide +kernel)
  intro h
  have hbad := (h init init s 0 (.inl rfl) .refl hs hinc).1
  rw [hrec] at hbad
  exact absurd hbad.1 (by decide)

end Cluster
end DistLabs
