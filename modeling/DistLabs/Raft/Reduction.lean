import DistLabs.Raft.Interleaved

/-! # Code without the lock that is not interrupted is one step

    A run of `Interleaved` whose steps are `Steady` is matched by a run of `Cluster`: the step of
    `Cluster` comes with the last access, and until then its server is still where the code without
    the lock began. Servers outside such code are the same in both. Conversely every run of
    `Cluster` is one of `Interleaved`. So what holds in `Cluster` holds in the code as long as
    nothing comes between its accesses without the lock. -/

namespace DistLabs

variable {n : ℕ} {C S : Type}

/-! ### One goroutine without the lock -/

/-- What code without the lock has not changed before its last access. -/
structure Raft.Underway (rf₀ rf : Raft n C S) : Prop where
  me : rf.me = rf₀.me
  persister : rf.persister = rf₀.persister
  logs : rf.logs = rf₀.logs
  commitIndex : rf.commitIndex = rf₀.commitIndex
  lastApplied : rf.lastApplied = rf₀.lastApplied
  lastIncludedIndex : rf.lastIncludedIndex = rf₀.lastIncludedIndex
  lastIncludedTerm : rf.lastIncludedTerm = rf₀.lastIncludedTerm
  unsaved : rf.unsaved = rf₀.unsaved
  currentTerm : rf₀.currentTerm ≤ rf.currentTerm

theorem Raft.Underway.refl (rf : Raft n C S) : rf.Underway rf where
  me := rfl
  persister := rfl
  logs := rfl
  commitIndex := rfl
  lastApplied := rfl
  lastIncludedIndex := rfl
  lastIncludedTerm := rfl
  unsaved := rfl
  currentTerm := le_rfl

theorem Raft.Underway.trans {rf₀ rf₁ rf₂ : Raft n C S} (h₁ : rf₀.Underway rf₁)
    (h₂ : rf₁.Underway rf₂) : rf₀.Underway rf₂ where
  me := h₂.me.trans h₁.me
  persister := h₂.persister.trans h₁.persister
  logs := h₂.logs.trans h₁.logs
  commitIndex := h₂.commitIndex.trans h₁.commitIndex
  lastApplied := h₂.lastApplied.trans h₁.lastApplied
  lastIncludedIndex := h₂.lastIncludedIndex.trans h₁.lastIncludedIndex
  lastIncludedTerm := h₂.lastIncludedTerm.trans h₁.lastIncludedTerm
  unsaved := h₂.unsaved.trans h₁.unsaved
  currentTerm := h₁.currentTerm.trans h₂.currentTerm

theorem Raft.Underway.getLastLogicalIndex {rf₀ rf : Raft n C S} (h : rf₀.Underway rf) :
    rf.getLastLogicalIndex = rf₀.getLastLogicalIndex := by
  rw [Raft.getLastLogicalIndex, Raft.getLastLogicalIndex, h.logs, h.lastIncludedIndex]

namespace Unlocked

variable {rf rf' : Raft n C S} {u u' : Unlocked n C S}

/-- The term that the goroutine is about to write is a larger one. -/
def Rises (rf : Raft n C S) : Unlocked n C S → Prop
  | .setTerm term => rf.currentTerm < term
  | _ => True

/-- `next` on a pair. -/
def go (p : Raft n C S × Unlocked n C S) :
    (Raft n C S × Unlocked n C S) ⊕ (Raft n C S × Ending C) := p.2.next p.1

/-- An access that is not the last one. -/
theorem next_inl (h : u.next rf = .inl (rf', u')) (hu : u.Rises rf) :
    rf.Underway rf' ∧ u'.Rises rf' ∧ u'.inTail = u.inTail ∧ (u.inTail = false → rf' = rf) := by
  cases u with
  | role | sameTerm =>
    simp only [next] at h
    split at h <;> cases h
    exact ⟨.refl rf, trivial, rfl, by rintro ⟨⟩⟩
  | newerTerm =>
    simp only [next] at h
    split at h <;> cases h
    · exact ⟨.refl rf, by assumption, rfl, by rintro ⟨⟩⟩
    · exact ⟨.refl rf, trivial, rfl, by rintro ⟨⟩⟩
  | setTerm term =>
    cases h
    exact ⟨{ Raft.Underway.refl rf with currentTerm := hu.le }, trivial, rfl, by rintro ⟨⟩⟩
  | setRole | setVote | setNext =>
    cases h
    exact ⟨{ Raft.Underway.refl rf with currentTerm := le_rfl }, trivial, rfl, by rintro ⟨⟩⟩
  | behind =>
    simp only [next] at h
    split at h <;> cases h
    exact ⟨.refl rf, trivial, rfl, by rintro ⟨⟩⟩
  | setMatch | condTerm => cases h
  | persist w ending =>
    simp only [next] at h
    split at h <;> cases h
    exact ⟨.refl rf, trivial, by cases ending <;> rfl, fun _ => rfl⟩
  | condIndex =>
    cases h
    exact ⟨.refl rf, trivial, rfl, fun _ => rfl⟩

/-- `persist` alone is the section `Raft.persist`. -/
theorem ends_persist (rf : Raft n C S) (ending : Ending C) :
    Ends go (rf, .persist .currentTerm ending) (rf.persist, ending) :=
  .next rfl <| .next rfl <| .next rfl <| .next rfl <| .next rfl <| .next rfl <| .stop rfl

/-- The tail of `handleInstallSnapshot` alone. -/
theorem ends_tail (rf : Raft n C S) (server : Fin n) (args : InstallSnapshotArgs n S)
    (reply : InstallSnapshotReply) :
    Ends go (rf, .role server args reply) (rf.handleInstallSnapshot server args reply, .done) := by
  unfold Raft.handleInstallSnapshot
  by_cases hrole : rf.role ≠ .Leader
  · rw [if_pos (.inl hrole)]
    exact .stop (if_pos hrole)
  by_cases hterm : rf.currentTerm ≠ args.term
  · rw [if_pos (.inr hterm)]
    exact .next (if_neg hrole) (.stop (if_pos hterm))
  rw [if_neg (not_or.mpr ⟨hrole, hterm⟩)]
  refine .next (if_neg hrole) (.next (if_neg hterm) ?_)
  by_cases hnew : reply.term > rf.currentTerm
  · rw [if_pos hnew]
    exact .next (if_pos hnew) <| .next rfl <| .next rfl <| .next rfl <| ends_persist ..
  rw [if_neg hnew]
  refine .next (if_neg hnew) ?_
  by_cases hbehind : rf.nextIndex server ≤ args.lastIncludedIndex
  · rw [if_pos hbehind]
    exact .next (if_pos hbehind) (.next rfl (.stop rfl))
  · rw [if_neg hbehind]
    exact .stop (if_neg hbehind)

end Unlocked

namespace Node

variable {nd₀ nd : Node n C S} {inp : Input n C S} {u u' : Unlocked n C S} {rf : Raft n C S}

/-- The server was `nd₀` when input `inp` started code without the lock. It is `nd` now, with the
    goroutine at `u`, and nothing else has happened to it. -/
structure Along (nd₀ : Node n C S) (inp : Input n C S) (nd : Node n C S) (u : Unlocked n C S) :
    Prop where
  rf : nd₀.rf.Underway nd.rf
  incarnation : nd.incarnation = nd₀.incarnation
  rises : u.Rises nd.rf
  reads : u.inTail = false → nd.rf = nd₀.rf
  ends : ∃ rf ending, Ends Unlocked.go (nd.rf, u) (rf, ending) ∧
    nd₀.on inp = .ok ({ nd with rf := rf }.leave ending)

theorem along_enters (h : nd₀.enters inp = some (nd, u)) : nd₀.Along inp nd u := by
  unfold enters at h
  split at h
  · rename_i k
    obtain ⟨u, hu, heq⟩ := Option.map_eq_some_iff.mp h
    obtain ⟨t, ht, hu⟩ := Option.bind_eq_some_iff.mp hu
    cases heq
    have hon : nd₀.on (.act (.run k)) =
        { nd₀ with threads := nd₀.threads.eraseIdx k }.runThread t := by
      simp only [on, act, ht]
    unfold Thread.unlocked at hu
    split at hu <;> cases hu
    · exact ⟨.refl _, rfl, trivial, fun _ => rfl, _, _, Unlocked.ends_persist .., hon⟩
    · exact ⟨.refl _, rfl, trivial, fun _ => rfl, _, _, .next rfl (.stop rfl), hon⟩
  · split at h <;> cases h
    rename_i htick
    refine ⟨.refl _, rfl, trivial, fun _ => rfl, _, _, Unlocked.ends_persist .., ?_⟩
    simp only [on, act, htick, if_true]
    rfl
  · split at h
    · split at h <;> cases h
      rename_i hbody hinc
      refine ⟨.refl _, rfl, trivial, by rintro ⟨⟩, _, _, Unlocked.ends_tail .., ?_⟩
      simp only [on, recv, hbody, hinc, if_true]
      rfl
    · cases h
  · cases h

theorem Along.next (h : nd₀.Along inp nd u) (hn : u.next nd.rf = .inl (rf, u')) :
    nd₀.Along inp { nd with rf := rf } u' := by
  obtain ⟨hrf, hrises, htail, hreads⟩ := Unlocked.next_inl hn h.rises
  obtain ⟨r, ending, hends, hon⟩ := h.ends
  refine ⟨h.rf.trans hrf, h.incarnation, hrises, fun hu => ?_, r, ending, hends.of_inl hn, hon⟩
  rw [htail] at hu
  exact (hreads hu).trans (h.reads hu)

theorem Along.last (h : nd₀.Along inp nd u) {ending : Ending C}
    (hn : u.next nd.rf = .inr (rf, ending)) :
    nd₀.on inp = .ok ({ nd with rf := rf }.leave ending) := by
  obtain ⟨r, e, hends, hon⟩ := h.ends
  cases hends.eq_of_inr hn
  exact hon

/-- A crash finds the same stable storage. -/
theorem Along.restart (h : nd₀.Along inp nd u) : nd.restart = nd₀.restart := by
  simp only [Node.restart, h.rf.me, h.rf.persister, h.incarnation]

/-- Of the state of a server that crashes the condition looks at `unsaved` only. -/
def CrashLocal (P : Node n C S → Input n C S → Prop) : Prop :=
  ∀ nd nd' : Node n C S, nd'.rf.unsaved = nd.rf.unsaved → P nd (.act .crash) → P nd' (.act .crash)

end Node

/-! ### Inputs -/

theorem Input.eq_crash {inp : Input n C S} (h : inp.isCrash = true) : inp = .act .crash := by
  unfold isCrash at h
  split at h
  · rfl
  · cases h

/-- The message that the input takes from the network. -/
def Input.packets : Input n C S → List (Packet n C S)
  | .act _ => []
  | .recv p => [p]

namespace Cluster

variable {s t : Cluster n C S} {e : Event n C S} {i : Fin n} {inp : Input n C S}
  {net : List (Packet n C S)} {out : Out n C S}

theorem input_packets (hin : s.input e = some (i, inp, net)) :
    (∀ p ∈ inp.packets, p.dst = i) ∧ (inp.packets ++ net).Perm s.net := by
  cases inp with
  | act a =>
    refine ⟨fun p hp => absurd hp List.not_mem_nil, ?_⟩
    rw [input_act hin]
    exact .refl _
  | recv p =>
    obtain ⟨hdst, hperm⟩ := input_recv hin
    exact ⟨fun q hq => List.mem_singleton.mp hq ▸ hdst, hperm⟩

/-- An input is possible if its message is in flight. -/
theorem exists_input (inp : Input n C S) (h : ∀ p ∈ inp.packets, p ∈ s.net ∧ p.dst = i) :
    ∃ e net, s.input e = some (i, inp, net) := by
  cases inp with
  | act a => exact ⟨.act i a, s.net, rfl⟩
  | recv p =>
    obtain ⟨hp, rfl⟩ := h p (List.mem_singleton_self p)
    obtain ⟨k, hk⟩ := List.getElem?_of_mem hp
    exact ⟨.deliver k, s.net.eraseIdx k, by simp only [input, hk, Option.map_some]⟩

/-- The messages of an input, put aside. -/
theorem exists_packets_append {l : List (Packet n C S)} (h : ∀ p ∈ inp.packets, p ∈ l) :
    ∃ l', (inp.packets ++ l').Perm l := by
  cases inp with
  | act a => exact ⟨l, .refl l⟩
  | recv p =>
    obtain ⟨l₁, l₂, rfl⟩ := List.append_of_mem (h p (List.mem_singleton_self p))
    exact ⟨l₁ ++ l₂, (List.perm_middle : (l₁ ++ p :: l₂).Perm _).symm⟩

/-- A server takes a step on an input whose message, if it has one, is in flight; `l` are the other
    messages. -/
theorem exists_run_on {P : Node n C S → Input n C S → Prop} {l : List (Packet n C S)}
    (hdst : ∀ p ∈ inp.packets, p.dst = i) (hl : (inp.packets ++ l).Perm s.net)
    (hP : P (s.nodes i) inp) (hon : (s.nodes i).on inp = .ok out) :
    ∃ net, l.Perm net ∧ Run step (At P) s (s.advance i net out) := by
  obtain ⟨e, net, hin⟩ := exists_input (s := s) (i := i) inp fun p hp =>
    ⟨hl.subset (List.mem_append_left _ hp), hdst p hp⟩
  have hat : At P s e := by
    rw [At, hin]
    exact hP
  have hstep : s.step e = .ok (s.advance i net out) := by simp only [step, hin, hon, Except.map]
  exact ⟨net, (List.perm_append_left_iff _).mp (hl.trans (input_packets hin).2.symm),
    .tail .refl hat hstep⟩

end Cluster

namespace Interleaved

open Cluster (At)

variable {s s' : Interleaved n C S} {t t' : Cluster n C S} {i : Fin n} {inp : Input n C S}
  {net : List (Packet n C S)} {P : Node n C S → Input n C S → Prop}

@[simp] theorem advance_cluster {r : Out n C S × List (Unlocked n C S)} :
    (s.advance i net r).cluster = s.cluster.advance i net r.1 := rfl

@[simp] theorem advance_unlocked_self {r : Out n C S × List (Unlocked n C S)} :
    (s.advance i net r).unlocked i = r.2 := Function.update_self ..

theorem advance_unlocked_of_ne {r : Out n C S × List (Unlocked n C S)} {j : Fin n} (h : j ≠ i) :
    (s.advance i net r).unlocked j = s.unlocked j := Function.update_of_ne h ..

/-! ### Interleaved runs are runs of whole steps -/

/-- `t` is `s` with the code without the lock not begun where it has not ended: `pending i` is the
    input that made server `i` begin it, `held` are the messages that are still in flight in `t`. -/
structure Standing (P : Node n C S → Input n C S → Prop) (s : Interleaved n C S)
    (t : Cluster n C S) (pending : Fin n → Option (Input n C S)) (held : List (Packet n C S)) :
    Prop where
  idle : ∀ i, pending i = none → s.unlocked i = [] ∧ t.nodes i = s.cluster.nodes i
  busy : ∀ i inp, pending i = some inp → P (t.nodes i) inp ∧
    ∃ u, s.unlocked i = [u] ∧ (t.nodes i).Along inp (s.cluster.nodes i) u
  net : (s.cluster.net ++ held).Perm t.net
  held : ∀ i inp, pending i = some inp → ∀ p ∈ inp.packets, p ∈ held ∧ p.dst = i
  sent : t.sent = s.cluster.sent
  applied : t.applied = s.cluster.applied
  started : t.started = s.cluster.started
  past : ∀ rf ∈ t.past, rf ∈ s.cluster.past

variable {pending : Fin n → Option (Input n C S)} {held held' : List (Packet n C S)}

theorem standing_init : Standing P init Cluster.init (fun _ => none) [] where
  idle _ _ := ⟨rfl, rfl⟩
  busy := by rintro _ _ ⟨⟩
  net := .refl _
  held := by rintro _ _ ⟨⟩
  sent := rfl
  applied := rfl
  started := rfl
  past _ := id

/-- A step of server `i` in both. -/
theorem Standing.both (h : Standing P s t pending held) {out : Out n C S}
    {net' : List (Packet n C S)} (hnet : (net ++ held').Perm net')
    (hheld : ∀ j ≠ i, ∀ inp, pending j = some inp → ∀ p ∈ inp.packets, p ∈ held') :
    Standing P (s.advance i net (out, [])) (t.advance i net' out)
      (Function.update pending i none) held' where
  idle j hj := by
    rcases eq_or_ne j i with rfl | hne
    · exact ⟨advance_unlocked_self, by simp⟩
    · rw [Function.update_of_ne hne] at hj
      rw [advance_unlocked_of_ne hne, advance_cluster, Cluster.advance_nodes_of_ne hne,
        Cluster.advance_nodes_of_ne hne]
      exact h.idle j hj
  busy j inp hj := by
    rcases eq_or_ne j i with rfl | hne
    · rw [Function.update_self] at hj; cases hj
    · rw [Function.update_of_ne hne] at hj
      rw [advance_unlocked_of_ne hne, advance_cluster, Cluster.advance_nodes_of_ne hne,
        Cluster.advance_nodes_of_ne hne]
      exact h.busy j inp hj
  net := by
    have hperm : (net ++ out.sent ++ held').Perm (net ++ held' ++ out.sent) := by
      rw [List.append_assoc, List.append_assoc]
      exact List.Perm.append_left _ List.perm_append_comm
    exact hperm.trans (hnet.append_right _)
  held j inp hj p hp := by
    rcases eq_or_ne j i with rfl | hne
    · rw [Function.update_self] at hj; cases hj
    · rw [Function.update_of_ne hne] at hj
      exact ⟨hheld j hne inp hj p hp, (h.held j inp hj p hp).2⟩
  sent := congrArg (out.sent ++ ·) h.sent
  applied := congrArg (out.applied.map (fun m => (i, m)) ++ ·) h.applied
  started := congrArg (out.started ++ ·) h.started
  past rf hrf :=
    Cluster.mem_advance_past.mpr ((Cluster.mem_advance_past.mp hrf).imp_right (h.past rf))

/-- A step of server `i` in `Interleaved` only, which begins code without the lock or goes on with
    it. -/
theorem Standing.stutter (h : Standing P s t pending held) {nd : Node n C S} {u : Unlocked n C S}
    (hP : P (t.nodes i) inp) (halong : (t.nodes i).Along inp nd u)
    (hnet : (net ++ held').Perm t.net)
    (hheld : ∀ j ≠ i, ∀ inp, pending j = some inp → ∀ p ∈ inp.packets, p ∈ held')
    (hnew : ∀ p ∈ inp.packets, p ∈ held' ∧ p.dst = i) :
    Standing P (s.advance i net ({ node := nd }, [u])) t
      (Function.update pending i (some inp)) held' where
  idle j hj := by
    rcases eq_or_ne j i with rfl | hne
    · rw [Function.update_self] at hj; cases hj
    · rw [Function.update_of_ne hne] at hj
      rw [advance_unlocked_of_ne hne, advance_cluster, Cluster.advance_nodes_of_ne hne]
      exact h.idle j hj
  busy j inp' hj := by
    rcases eq_or_ne j i with rfl | hne
    · rw [Function.update_self] at hj
      cases hj
      exact ⟨hP, u, advance_unlocked_self, by simpa using halong⟩
    · rw [Function.update_of_ne hne] at hj
      rw [advance_unlocked_of_ne hne, advance_cluster, Cluster.advance_nodes_of_ne hne]
      exact h.busy j inp' hj
  net := by simpa [Cluster.advance] using hnet
  held j inp' hj p hp := by
    rcases eq_or_ne j i with rfl | hne
    · rw [Function.update_self] at hj
      cases hj
      exact hnew p hp
    · rw [Function.update_of_ne hne] at hj
      exact ⟨hheld j hne inp' hj p hp, (h.held j inp' hj p hp).2⟩
  sent := h.sent
  applied := h.applied
  started := h.started
  past rf hrf := Cluster.mem_advance_past.mpr (.inr (h.past rf hrf))

/-- A step of a server: it begins code without the lock, or it runs a section or crashes. -/
theorem step_event {e : Event n C S} (h : s.step (.event e) = .ok s') :
    ∃ i inp net, s.cluster.input e = some (i, inp, net) ∧
      ((∃ nd u, (s.cluster.nodes i).enters inp = some (nd, u) ∧
        s' = s.advance i net ({ node := nd }, s.unlocked i ++ [u])) ∨
      (∃ out, (s.cluster.nodes i).on inp = .ok out ∧
        s' = s.advance i net (out, if inp.isCrash then [] else s.unlocked i))) := by
  simp only [step] at h
  split at h
  · cases h
  rename_i i inp net hin
  refine ⟨i, inp, net, hin, ?_⟩
  unfold Node.take at h
  split at h
  · refine .inr ?_
    cases hon : (s.cluster.nodes i).on inp with
    | error x => rw [hon] at h; cases h
    | ok out => rw [hon] at h; cases h; exact ⟨out, rfl, rfl⟩
  · rename_i nd u henters
    split at h <;> cases h
    exact .inl ⟨nd, u, henters, rfl⟩

/-- An access, which is the last one or not. -/
theorem step_access {k : ℕ} (h : s.step (.access i k) = .ok s') :
    ∃ u, (s.unlocked i)[k]? = some u ∧
      ((∃ rf u', u.next (s.cluster.nodes i).rf = .inl (rf, u') ∧ s' = s.advance i s.cluster.net
        ({ node := { s.cluster.nodes i with rf := rf } }, (s.unlocked i).set k u')) ∨
      (∃ rf ending, u.next (s.cluster.nodes i).rf = .inr (rf, ending) ∧
        s' = s.advance i s.cluster.net
          ({ s.cluster.nodes i with rf := rf }.leave ending, (s.unlocked i).eraseIdx k))) := by
  simp only [step, Node.access] at h
  split at h
  · cases h
  rename_i u hu
  refine ⟨u, hu, ?_⟩
  split at h <;> cases h
  · rename_i rf u' hn
    exact .inl ⟨rf, u', hn, rfl⟩
  · rename_i rf ending hn
    exact .inr ⟨rf, ending, hn, rfl⟩

/-- `t` is `s` with the code without the lock not begun where it has not ended. -/
def Stands (P : Node n C S → Input n C S → Prop) (s : Interleaved n C S) (t : Cluster n C S) :
    Prop := ∃ pending held, Standing P s t pending held

/-- A section, or the start of code without the lock, on a server that is not in such code. -/
theorem Standing.idle_step (h : Standing P s t pending held) {e : Event n C S}
    (hin : s.cluster.input e = some (i, inp, net)) (hP : P (s.cluster.nodes i) inp)
    (hidle : pending i = none) (hs : s.step (.event e) = .ok s') :
    ∃ t', Run Cluster.step (At P) t t' ∧ Stands P s' t' := by
  obtain ⟨hunlocked, hnode⟩ := h.idle i hidle
  obtain ⟨hdst, hperm⟩ := Cluster.input_packets hin
  have hheld : ∀ j ≠ i, ∀ inp, pending j = some inp → ∀ p ∈ inp.packets, p ∈ held :=
    fun j _ inp hj p hp => (h.held j inp hj p hp).1
  have hall : (inp.packets ++ (net ++ held)).Perm t.net := by
    rw [← List.append_assoc]
    exact (hperm.append_right held).trans h.net
  obtain ⟨i', inp', net', hin', hs⟩ := step_event hs
  rw [hin] at hin'
  cases hin'
  rcases hs with ⟨nd, u, henters, rfl⟩ | ⟨out, hon, rfl⟩
  · -- the cluster does not move, the message of the input is put aside
    refine ⟨t, .refl, Function.update pending i (some inp), inp.packets ++ held, ?_⟩
    rw [hunlocked]
    refine h.stutter (hnode ▸ hP) (hnode ▸ Node.along_enters henters) ?_
      (fun j hj inp' hp' p hp => List.mem_append_right _ (hheld j hj inp' hp' p hp))
      fun p hp => ⟨List.mem_append_left _ hp, hdst p hp⟩
    exact (List.perm_append_comm_assoc ..).trans hall
  · obtain ⟨net', hnet', hrun⟩ := Cluster.exists_run_on hdst hall (hnode ▸ hP) (hnode ▸ hon)
    refine ⟨_, hrun, Function.update pending i none, held, ?_⟩
    rw [hunlocked, ite_self]
    exact h.both hnet' hheld

/-- A crash in the middle of code without the lock: the cluster crashes before it. -/
theorem Standing.crash_step (h : Standing P s t pending held) {inp₀ : Input n C S}
    (hP : P (t.nodes i) (.act .crash)) (hbusy : pending i = some inp₀)
    (hs : s.step (.event (.act i .crash)) = .ok s') :
    ∃ t', Run Cluster.step (At P) t t' ∧ Stands P s' t' := by
  obtain ⟨-, u, -, halong⟩ := h.busy i inp₀ hbusy
  cases hs
  have hstep : t.step (.act i .crash) = .ok (t.advance i t.net { node := (t.nodes i).restart }) :=
    rfl
  refine ⟨_, .tail .refl (show At P t (.act i .crash) from hP) hstep,
    Function.update pending i none, held, ?_⟩
  rw [← halong.restart]
  exact h.both h.net fun j _ inp hj p hp => (h.held j inp hj p hp).1

/-- An access: with the last one the cluster makes its step. -/
theorem Standing.access_step (h : Standing P s t pending held) {k : ℕ}
    (hs : s.step (.access i k) = .ok s') :
    ∃ t', Run Cluster.step (At P) t t' ∧ Stands P s' t' := by
  obtain ⟨u', hk, hs⟩ := step_access hs
  obtain ⟨inp, hbusy⟩ : ∃ inp, pending i = some inp := by
    rw [← Option.ne_none_iff_exists']
    intro hnone
    rw [(h.idle i hnone).1] at hk
    cases hk
  obtain ⟨hP, u, hunlocked, halong⟩ := h.busy i inp hbusy
  rw [hunlocked] at hk hs
  obtain ⟨rfl, rfl⟩ : k = 0 ∧ u = u' := by
    cases k with
    | zero => exact ⟨rfl, Option.some.inj hk⟩
    | succ k => cases hk
  rcases hs with ⟨rf, u', hn, rfl⟩ | ⟨rf, ending, hn, rfl⟩
  · exact ⟨t, .refl, _, held, h.stutter hP (halong.next hn) h.net
      (fun j _ inp hj p hp => (h.held j inp hj p hp).1) (h.held i inp hbusy)⟩
  · have hmem := h.held i inp hbusy
    obtain ⟨held', hheld'⟩ := Cluster.exists_packets_append fun p hp => (hmem p hp).1
    have hall : (inp.packets ++ (s.cluster.net ++ held')).Perm t.net := calc
      List.Perm _ (s.cluster.net ++ (inp.packets ++ held')) := List.perm_append_comm_assoc ..
      List.Perm _ (s.cluster.net ++ held) := hheld'.append_left _
      List.Perm _ t.net := h.net
    obtain ⟨net', hnet', hrun⟩ :=
      Cluster.exists_run_on (fun p hp => (hmem p hp).2) hall hP (halong.last hn)
    refine ⟨_, hrun, _, held', h.both hnet' fun j hj inp' hp' p hp => ?_⟩
    obtain ⟨hin, hdst⟩ := h.held j inp' hp' p hp
    rcases List.mem_append.mp (hheld'.symm.subset hin) with hmine | hmem'
    · exact absurd (hdst.symm.trans (hmem p hmine).2) hj
    · exact hmem'

theorem Stands.move (hP : Node.CrashLocal P) (h : Stands P s t) {e : FineEvent n C S}
    (hok : Steady P s e) (hs : s.step e = .ok s') :
    ∃ t', Run Cluster.step (At P) t t' ∧ Stands P s' t' := by
  obtain ⟨pending, held, h⟩ := h
  cases e with
  | access i k => exact h.access_step hs
  | event e =>
    obtain ⟨hat, halone⟩ := hok
    obtain ⟨i, inp, net, hin, -⟩ := step_event hs
    cases hi : pending i with
    | none => exact h.idle_step hin (hat.at_input hin) hi hs
    | some inp₀ =>
      obtain ⟨-, u, hunlocked, halong⟩ := h.busy i inp₀ hi
      rcases halone _ hin with hempty | hcrash
      · rw [hunlocked] at hempty; cases hempty
      · obtain rfl := Input.eq_crash hcrash
        cases e with
        | deliver k =>
          obtain ⟨p, -, heq⟩ := Option.map_eq_some_iff.mp hin
          cases heq
        | act j a =>
          cases hin
          exact h.crash_step (hP _ _ halong.rf.unsaved.symm (hat.at_input rfl)) hi hs

/-- Reduction: a run that does not interrupt code without the lock is one of whole steps. -/
theorem Stands.run (hP : Node.CrashLocal P) (hst : Stands P s t) (h : Run step (Steady P) s s') :
    ∃ t', Run Cluster.step (At P) t t' ∧ Stands P s' t' :=
  h.simulation hst fun _ _ _ _ hst hok hs => hst.move hP hok hs

theorem exists_stands (hP : Node.CrashLocal P) (h : Run step (Steady P) init s) :
    ∃ t, Run Cluster.step (At P) Cluster.init t ∧ Stands P s t :=
  Stands.run hP ⟨_, _, standing_init⟩ h

/-! ### What the two have in common -/

theorem Stands.sent (h : Stands P s t) : t.sent = s.cluster.sent := by
  obtain ⟨pending, held, h⟩ := h; exact h.sent

theorem Stands.applied (h : Stands P s t) : t.applied = s.cluster.applied := by
  obtain ⟨pending, held, h⟩ := h; exact h.applied

theorem Stands.started (h : Stands P s t) : t.started = s.cluster.started := by
  obtain ⟨pending, held, h⟩ := h; exact h.started

theorem Stands.past (h : Stands P s t) : ∀ rf ∈ t.past, rf ∈ s.cluster.past := by
  obtain ⟨pending, held, h⟩ := h; exact h.past

/-- A server is the same in both, or it has one goroutine in code without the lock. -/
theorem Stands.node_cases (h : Stands P s t) (i : Fin n) :
    (s.unlocked i = [] ∧ s.cluster.nodes i = t.nodes i) ∨
      ∃ inp u, s.unlocked i = [u] ∧ (t.nodes i).Along inp (s.cluster.nodes i) u := by
  obtain ⟨pending, held, h⟩ := h
  cases hi : pending i with
  | none => exact .inl ⟨(h.idle i hi).1, (h.idle i hi).2.symm⟩
  | some inp =>
    obtain ⟨-, u, hunlocked, halong⟩ := h.busy i inp hi
    exact .inr ⟨inp, u, hunlocked, halong⟩

theorem Stands.underway (h : Stands P s t) (i : Fin n) :
    (t.nodes i).rf.Underway (s.cluster.nodes i).rf := by
  rcases h.node_cases i with ⟨-, hnode⟩ | ⟨inp, u, -, halong⟩
  · rw [hnode]
    exact .refl _
  · exact halong.rf

theorem Stands.incarnation (h : Stands P s t) (i : Fin n) :
    (s.cluster.nodes i).incarnation = (t.nodes i).incarnation := by
  rcases h.node_cases i with ⟨-, hnode⟩ | ⟨inp, u, -, halong⟩
  · rw [hnode]
  · exact halong.incarnation

/-- Outside the tail of `handleInstallSnapshot` the peer is the same. -/
theorem Stands.rf_eq (h : Stands P s t) (htail : ¬ s.InTail i) :
    (s.cluster.nodes i).rf = (t.nodes i).rf := by
  rcases h.node_cases i with ⟨-, hnode⟩ | ⟨inp, u, hunlocked, halong⟩
  · rw [hnode]
  · refine halong.reads ?_
    simpa [InTail, hunlocked] using htail

/-- Outside all code without the lock the server is the same. -/
theorem Stands.node_eq (h : Stands P s t) (hi : s.unlocked i = []) :
    s.cluster.nodes i = t.nodes i := by
  rcases h.node_cases i with ⟨-, hnode⟩ | ⟨inp, u, hunlocked, -⟩
  · exact hnode
  · rw [hunlocked] at hi
    cases hi

/-! ### Runs of whole steps are interleaved runs -/

/-- `s` is `t` with no goroutine in code without the lock; its history of states may have more. -/
structure Embeds (t : Cluster n C S) (s : Interleaved n C S) : Prop where
  unlocked : ∀ i, s.unlocked i = []
  nodes : s.cluster.nodes = t.nodes
  net : s.cluster.net = t.net
  sent : s.cluster.sent = t.sent
  applied : s.cluster.applied = t.applied
  started : s.cluster.started = t.started
  past : ∀ rf ∈ t.past, rf ∈ s.cluster.past

theorem embeds_init : Embeds (Cluster.init : Cluster n C S) init where
  unlocked _ := rfl
  nodes := rfl
  net := rfl
  sent := rfl
  applied := rfl
  started := rfl
  past _ := id

/-- `s'` is `s` when the only goroutine of server `i` without the lock has ended with `out`. -/
structure Finished (s : Interleaved n C S) (i : Fin n) (out : Out n C S)
    (s' : Interleaved n C S) : Prop where
  unlocked : s'.unlocked = Function.update s.unlocked i []
  nodes : s'.cluster.nodes = Function.update s.cluster.nodes i out.node
  net : s'.cluster.net = s.cluster.net ++ out.sent
  sent : s'.cluster.sent = out.sent ++ s.cluster.sent
  applied : s'.cluster.applied = out.applied.map (fun m => (i, m)) ++ s.cluster.applied
  started : s'.cluster.started = out.started ++ s.cluster.started
  past : ∀ rf, rf = out.node.rf ∨ rf ∈ s.cluster.past → rf ∈ s'.cluster.past

/-- The last access. -/
theorem finished_advance (s : Interleaved n C S) (out : Out n C S) :
    Finished s i out (s.advance i s.cluster.net (out, [])) where
  unlocked := rfl
  nodes := rfl
  net := rfl
  sent := rfl
  applied := rfl
  started := rfl
  past _ := Cluster.mem_advance_past.mpr

/-- An access before the last one leaves nothing behind that the end of the goroutine does not
    overwrite. -/
theorem Finished.after_access {nd : Node n C S} {us : List (Unlocked n C S)} {out : Out n C S}
    (h : Finished (s.advance i s.cluster.net ({ node := nd }, us)) i out s') :
    Finished s i out s' where
  unlocked := by rw [h.unlocked]; exact Function.update_idem ..
  nodes := by rw [h.nodes]; exact Function.update_idem ..
  net := by rw [h.net]; simp [Cluster.advance]
  sent := by rw [h.sent]; simp [Cluster.advance]
  applied := by rw [h.applied]; simp [Cluster.advance]
  started := by rw [h.started]; simp [Cluster.advance]
  past rf hrf := h.past rf (hrf.imp_right fun hrf => Cluster.mem_advance_past.mpr (.inr hrf))

/-- A goroutine without the lock can run to its end. -/
theorem exists_finished {a : Raft n C S × Unlocked n C S} {b : Raft n C S × Ending C}
    (h : Ends Unlocked.go a b) : ∀ {s : Interleaved n C S}, s.unlocked i = [a.2] →
      (s.cluster.nodes i).rf = a.1 → ∃ s', Run step (Steady P) s s' ∧
        Finished s i ({ s.cluster.nodes i with rf := b.1 }.leave b.2) s' := by
  induction h with
  | @stop a b hb =>
    intro s hu hrf
    have hn : a.2.next (s.cluster.nodes i).rf = .inr b := by rw [hrf]; exact hb
    have hs : s.step (.access i 0) = .ok (s.advance i s.cluster.net
        ({ s.cluster.nodes i with rf := b.1 }.leave b.2, [])) := by
      simp only [step, Node.access, hu, List.getElem?_cons_zero, hn]
      rfl
    exact ⟨_, .tail (e := .access i 0) .refl trivial hs, finished_advance s _⟩
  | @next a a' b hn _ ih =>
    intro s hu hrf
    have hn : a.2.next (s.cluster.nodes i).rf = .inl a' := by rw [hrf]; exact hn
    have hs : s.step (.access i 0) = .ok (s.advance i s.cluster.net
        ({ node := { s.cluster.nodes i with rf := a'.1 } }, [a'.2])) := by
      simp only [step, Node.access, hu, List.getElem?_cons_zero, hn]
      rfl
    obtain ⟨s', hrun, hfin⟩ := ih (s := s.advance i s.cluster.net
      ({ node := { s.cluster.nodes i with rf := a'.1 } }, [a'.2])) advance_unlocked_self (by simp)
    rw [advance_cluster, Cluster.advance_nodes_self] at hfin
    exact ⟨s', Run.trans (.tail (e := .access i 0) .refl trivial hs) hrun, hfin.after_access⟩

theorem Embeds.input_eq (h : Embeds t s) (e : Event n C S) : s.cluster.input e = t.input e := by
  cases e with
  | act i a => simp only [Cluster.input, h.net]
  | deliver k => simp only [Cluster.input, h.net]

/-- A section in both. -/
theorem Embeds.advance (h : Embeds t s) (out : Out n C S) :
    Embeds (t.advance i net out) (s.advance i net (out, [])) where
  unlocked j := by
    rcases eq_or_ne j i with rfl | hne
    · exact advance_unlocked_self
    · rw [advance_unlocked_of_ne hne]; exact h.unlocked j
  nodes := by simp only [advance_cluster, Cluster.advance, h.nodes]
  net := rfl
  sent := by simp only [advance_cluster, Cluster.advance, h.sent]
  applied := by simp only [advance_cluster, Cluster.advance, h.applied]
  started := by simp only [advance_cluster, Cluster.advance, h.started]
  past rf hrf :=
    Cluster.mem_advance_past.mpr ((Cluster.mem_advance_past.mp hrf).imp_right (h.past rf))

/-- A whole step, and all accesses of the goroutine that makes it. -/
theorem Embeds.finished (h : Embeds t s) {nd : Node n C S} {u : Unlocked n C S} {out : Out n C S}
    (hfin : Finished (s.advance i net ({ node := nd }, [u])) i out s') :
    Embeds (t.advance i net out) s' where
  unlocked j := by
    rw [hfin.unlocked]
    rcases eq_or_ne j i with rfl | hne
    · exact Function.update_self ..
    · rw [Function.update_of_ne hne, advance_unlocked_of_ne hne]; exact h.unlocked j
  nodes := by
    rw [hfin.nodes]
    simp only [advance_cluster, Cluster.advance, h.nodes, Function.update_idem]
  net := by rw [hfin.net]; simp [Cluster.advance]
  sent := by rw [hfin.sent]; simp [Cluster.advance, h.sent]
  applied := by rw [hfin.applied]; simp [Cluster.advance, h.applied]
  started := by rw [hfin.started]; simp [Cluster.advance, h.started]
  past rf hrf := by
    refine hfin.past rf ((Cluster.mem_advance_past.mp hrf).imp_right fun hrf => ?_)
    exact Cluster.mem_advance_past.mpr (.inr (h.past rf hrf))

theorem Embeds.move (h : Embeds t s) {e : Event n C S} (hat : At P t e)
    (ht : t.step e = .ok t') : ∃ s', Run step (Steady P) s s' ∧ Embeds t' s' := by
  obtain ⟨i, inp, net, out, hin, hon, rfl⟩ := Cluster.step_ok ht
  have hin' : s.cluster.input e = some (i, inp, net) := (h.input_eq e).trans hin
  have hnode : s.cluster.nodes i = t.nodes i := congrFun h.nodes i
  have hok : Steady P s (.event e) := by
    refine ⟨?_, fun x _ => .inl (h.unlocked x.1)⟩
    rw [At, hin']
    change P (s.cluster.nodes i) inp
    rw [hnode]; exact hat.at_input hin
  cases henters : (t.nodes i).enters inp with
  | none =>
    have hs : s.step (.event e) = .ok (s.advance i net (out, [])) := by
      simp only [step, hin', Node.take, hnode, henters, hon, h.unlocked, ite_self]
      rfl
    exact ⟨_, .tail .refl hok hs, h.advance out⟩
  | some r =>
    obtain ⟨nd, u⟩ := r
    have hs : s.step (.event e) = .ok (s.advance i net ({ node := nd }, [u])) := by
      simp only [step, hin', Node.take, hnode, henters, h.unlocked, List.any_nil,
        Bool.false_eq_true, and_false, if_false, List.nil_append]
      rfl
    obtain ⟨r, ending, hends, hout⟩ := (Node.along_enters henters).ends
    rw [hon] at hout
    cases hout
    obtain ⟨s', hrun, hfin⟩ := exists_finished (P := P) hends
      (s := s.advance i net ({ node := nd }, [u])) advance_unlocked_self (by simp)
    rw [advance_cluster, Cluster.advance_nodes_self] at hfin
    exact ⟨s', Run.trans (.tail .refl hok hs) hrun, h.finished hfin⟩

/-- Every run of whole steps is one that does not interrupt code without the lock. -/
theorem Embeds.run (hem : Embeds t s) (h : Run Cluster.step (At P) t t') :
    ∃ s', Run step (Steady P) s s' ∧ Embeds t' s' :=
  h.simulation (R := fun t s => Embeds t s) hem fun _ _ _ _ hem hat ht => hem.move hat ht

theorem Embeds.not_inTail (h : Embeds t s) (i : Fin n) : ¬ s.InTail i := by
  simp [InTail, h.unlocked i]

theorem exists_embeds (h : Run Cluster.step (At P) Cluster.init t) :
    ∃ s, Run step (Steady P) init s ∧ Embeds t s :=
  embeds_init.run h

/-- A schedule of whole steps that replays exhibits an interleaved run. -/
theorem exists_run_of_schedule (P : Node n C S → Input n C S → Prop)
    [∀ nd inp, Decidable (P nd inp)] (es : List (Event n C S)) (Q : Cluster n C S → Prop)
    [DecidablePred Q] (h : (play Cluster.step (At P) Cluster.init es).map (fun t => decide (Q t)) =
      some true) : ∃ s t, Run step (Steady P) init s ∧ Embeds t s ∧ Q t := by
  obtain ⟨t, ht, hQ⟩ := exists_run_of_play Cluster.step (At P) Cluster.init es Q h
  obtain ⟨s, hs, hem⟩ := exists_embeds ht
  exact ⟨s, t, hs, hem, hQ⟩

/-- The same for two states of one run. -/
theorem exists_runs_of_schedule (P : Node n C S → Input n C S → Prop)
    [∀ nd inp, Decidable (P nd inp)] (es es' : List (Event n C S))
    (Q : Cluster n C S → Cluster n C S → Prop) [∀ t t', Decidable (Q t t')]
    (h : ((play Cluster.step (At P) Cluster.init es).bind fun t =>
      (play Cluster.step (At P) t es').map fun t' => decide (Q t t')) = some true) :
    ∃ s s' t t', Run step (Steady P) init s ∧ Run step (Steady P) s s' ∧ Embeds t s ∧
      Embeds t' s' ∧ Q t t' := by
  obtain ⟨t, t', ht, ht', hQ⟩ :=
    exists_runs_of_play Cluster.step (At P) Cluster.init es es' Q h
  obtain ⟨s, hs, hem⟩ := exists_embeds ht
  obtain ⟨s', hs', hem'⟩ := hem.run ht'
  exact ⟨s, s', t, t', hs, hs', hem, hem', hQ⟩

end Interleaved
end DistLabs
