import DistLabs.Raft.Moves
import DistLabs.Raft.Specs

/-! # What a step does to goroutines

    What reaches a server in a step, which goroutine of it runs, and `Node.Spawned`: which
    goroutines are new after the step. -/

namespace DistLabs

variable {n : ℕ} {C S : Type}

/-- The `AppendEntries` request that reaches the server. -/
def Input.appendRequest : Input n C S → Option (AppendEntriesArgs n C)
  | .act _ => none
  | .recv p =>
    match p.body with
    | .appendEntries args => some args
    | _ => none

/-- The `InstallSnapshot` request that reaches the server. -/
def Input.installRequest : Input n C S → Option (InstallSnapshotArgs n S)
  | .act _ => none
  | .recv p =>
    match p.body with
    | .installSnapshot args => some args
    | _ => none

/-- The reply to an `AppendEntries` that reaches the server. -/
def Input.appendReply : Input n C S → Option (AppendEntriesArgs n C × AppendEntriesReply)
  | .act _ => none
  | .recv p =>
    match p.body with
    | .appendEntriesReply args reply => some (args, reply)
    | _ => none

namespace Node

variable {nd : Node n C S} {inp : Input n C S} {out : Out n C S}

/-- The goroutine that takes the step. -/
def running (nd : Node n C S) : Input n C S → Option (Thread n C S)
  | .act (.run k) => nd.threads[k]?
  | _ => none

theorem mem_of_running {t : Thread n C S} (h : nd.running inp = some t) : t ∈ nd.threads := by
  unfold running at h
  split at h
  · exact List.mem_of_getElem? h
  · cases h

/-- The goroutines a step may start, or leave with their next section still to run. -/
inductive Spawned (nd : Node n C S) (inp : Input n C S) : Thread n C S → Prop
  | start (role : nd.rf.role = .Leader) (command : Option C) :
      Spawned nd inp (.start nd.rf.currentTerm command)
  | startPersist {term : ℤ} {command : Option C}
      (running : nd.running inp = some (.start term command)) :
      Spawned nd inp (.startPersist (nd.rf.startAppend term command).2 term command)
  | heartbeat (role : nd.rf.role = .Leader) (server : Fin n) : Spawned nd inp (.heartbeat server)
  | append {server : Fin n} {args : AppendEntriesArgs n C} {isSnapshot : Bool}
      (running : nd.running inp = some (.heartbeat server))
      (gen : nd.rf.genAppendEntries server = some (args, isSnapshot)) :
      Spawned nd inp (.append server args isSnapshot)
  | install (server : Fin n) : Spawned nd inp (.install server)
  | installSend {server : Fin n} (running : nd.running inp = some (.install server)) :
      Spawned nd inp (.installSend server nd.rf.genInstallSnapshot)
  | apply : Spawned nd inp .apply
  | condRead (running : nd.running inp = some .apply) (logs : nd.rf.applyLogs = some none) :
      Spawned nd inp .condRead
  | condInstall (running : nd.running inp = some .condRead) :
      Spawned nd inp (.condInstall nd.rf.lastIncludedIndex nd.rf.lastIncludedTerm)
  | applying {msgs : List (ApplyMsg C S)} (running : nd.running inp = some .apply)
      (logs : nd.rf.applyLogs = some (some msgs)) : Spawned nd inp (.applying msgs)
  | applied {msg : ApplyMsg C S} {msgs : List (ApplyMsg C S)}
      (running : nd.running inp = some (.applying (msg :: msgs))) :
      Spawned nd inp (.applied msg.commandIndex msgs)
  | resume {i : ℤ} {msgs : List (ApplyMsg C S)}
      (running : nd.running inp = some (.applied i msgs)) : Spawned nd inp (.applying msgs)
  | snapshotMsg {args : InstallSnapshotArgs n S} (request : inp.installRequest = some args) :
      Spawned nd inp (.snapshotMsg (.snapshot args.data args.lastIncludedTerm
        args.lastIncludedIndex))

theorem Goes.threads {k : ℕ} {t t' : Thread n C S} (thread : nd.threads[k]? = some t)
    (h : Goes { nd with threads := nd.threads.eraseIdx k } t out)
    (ht : t' ∈ out.node.threads) : t' ∈ nd.threads ∨ nd.Spawned (.act (.run k)) t' := by
  have hrun : nd.running (.act (.run k)) = some t := thread
  have hnew : ∀ t₀, t' ∈ nd.threads.eraseIdx k ++ [t₀] →
      nd.Spawned (.act (.run k)) t₀ → t' ∈ nd.threads ∨ nd.Spawned (.act (.run k)) t' := by
    intro t₀ hmem hsp
    rcases List.mem_append.mp hmem with hold | hone
    · exact .inl (List.mem_of_mem_eraseIdx hold)
    · exact .inr (List.mem_singleton.mp hone ▸ hsp)
  cases h with
  | start term command => exact hnew _ ht (.startPersist hrun)
  | heartbeat gen => exact hnew _ ht (.append hrun gen)
  | appendSnapshot role => exact hnew _ ht (.install _)
  | install server => exact hnew _ ht (.installSend hrun)
  | applyCond logs => exact hnew _ ht (.condRead hrun logs)
  | apply logs => exact hnew _ ht (.applying hrun logs)
  | applySend msg msgs => exact hnew _ ht (.applied hrun)
  | applied i msgs => exact hnew _ ht (.resume hrun)
  | condRead => exact hnew _ ht (.condInstall hrun)
  | _ => exact .inl (List.mem_of_mem_eraseIdx ht)

theorem Move.threads (h : nd.Move inp out) {t : Thread n C S} (ht : t ∈ out.node.threads) :
    t ∈ nd.threads ∨ nd.Spawned inp t := by
  have hnew : ∀ ts : List (Thread n C S), t ∈ nd.threads ++ ts →
      (∀ t ∈ ts, nd.Spawned inp t) → t ∈ nd.threads ∨ nd.Spawned inp t := by
    intro ts hmem hts
    exact (List.mem_append.mp hmem).imp_right (hts t)
  cases h with
  | heartbeat role =>
    refine hnew _ ht fun t ht => ?_
    obtain ⟨server, -, rfl⟩ := List.mem_map.mp ht
    exact .heartbeat role server
  | start role command =>
    exact hnew _ ht fun t ht => List.mem_singleton.mp ht ▸ .start role command
  | run thread goes => exact goes.threads thread ht
  | crash => cases ht
  | appendEntries body handler =>
    exact hnew _ ht fun t ht => Thread.eq_apply_of_mem ht ▸ .apply
  | appendEntriesReply body incarnation handler =>
    exact hnew _ ht fun t ht => Thread.eq_apply_of_mem ht ▸ .apply
  | @installSnapshot p args _ _ _ body handler =>
    refine hnew _ ht fun t ht => ?_
    obtain ⟨msg, hmsg, rfl⟩ := List.mem_map.mp ht
    rcases Raft.installSnapshot_cases handler with ⟨-, -, -, rfl⟩ |
      ⟨-, -, ⟨-, -, rfl⟩ | ⟨-, -, rfl, -⟩⟩
    · cases hmsg
    · cases hmsg
    · rw [List.mem_singleton.mp hmsg]
      exact .snapshotMsg (by rw [Input.installRequest, body])
  | _ => exact .inl ht

end Node
end DistLabs
