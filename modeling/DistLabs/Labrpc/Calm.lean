import DistLabs.Labrpc.Calls

/-! # Calls that are not cut off

    As long as nobody switches off the end or the server of a call under way, the handler of a call
    that has returned is over: a request is not executed after `Call` has given it up. If the
    network is reliable as well, `Call` returns false only where the request has not been
    executed. -/

namespace DistLabs.Labrpc

variable {η ν σ α β : Type}

/-- The handler is not running when the reply is a failure; the call does not give up waiting. -/
def Settled (g : Handler β) : Proc ν β → Prop
  | .collected _ none => False
  | .replying none | .returned none => ¬ g.Running
  | _ => True

theorem Settled.advance {g g' : Handler β} {proc : Proc ν β} (h : Settled g proc)
    (hg : g.Running) : Settled g' proc := by
  cases proc with
  | collected r reply =>
    cases reply with
    | none => exact h
    | some => trivial
  | replying reply =>
    cases reply with
    | none => exact absurd hg h
    | some => trivial
  | returned reply =>
    cases reply with
    | none => exact absurd hg h
    | some => trivial
  | _ => trivial

namespace Net

/-- The end and the server of the call are there as long as the call needs them. -/
def attends (s : Net η ν σ α β) (c : Rpc η ν α β) : Bool :=
  match c.proc with
  | .routed r | .waiting r | .collected r (some _) =>
    !s.isServerDead c.endname r.servername r.server
  | _ => true

variable {handle : σ → α → σ × β} {objects : ℕ → σ} {s s' : Net η ν σ α β} {k : ℕ}
  {c c' : Rpc η ν α β} {a : CallAction}

theorem readEndnameInfo_eq_some {e : η} {r : Route ν} (h : s.readEndnameInfo e = some r) :
    s.enabled e = true ∧ s.servers r.servername = some r.server ∧ r.reliable = s.reliable := by
  unfold readEndnameInfo at h
  split at h
  · rename_i henabled
    obtain ⟨name, -, h⟩ := Option.bind_eq_some_iff.mp h
    obtain ⟨server, hserver, h⟩ := Option.bind_eq_some_iff.mp h
    obtain rfl := Option.some.inj h
    exact ⟨henabled, hserver, rfl⟩
  · cases h

theorem isServerDead_of_readEndnameInfo {e : η} {r : Route ν} (h : s.readEndnameInfo e = some r) :
    s.isServerDead e r.servername r.server = false := by
  obtain ⟨henabled, hserver, -⟩ := readEndnameInfo_eq_some h
  simp [isServerDead, henabled, hserver]

/-- What a call that is attended has in addition. -/
structure Calm (s : Net η ν σ α β) (c : Rpc η ν α β) : Prop where
  attended : s.attends c = true
  settled : Settled c.handler c.proc

theorem Calm.not_running (h : s.Calm c) (hproc : ProcInv c.handler c.proc) {reply : Option β}
    (hreturned : c.proc = .returned reply) : ¬ c.handler.Running := by
  have hset := h.settled
  rw [hreturned] at hset hproc
  cases reply with
  | none => exact hset
  | some reply =>
    have htaken : c.handler = .taken reply := hproc
    simp [htaken, Handler.Running]

theorem Act.attends_eq (h : s.Act handle k c a s' c') (d : Rpc η ν α β) :
    s'.attends d = s.attends d := by
  cases h <;> rfl

theorem Act.calm (h : s.Act handle k c a s' c') (hproc : ProcInv c.handler c.proc)
    (hcalm : s.Calm c) : s'.Calm c' := by
  obtain ⟨hatt, hset⟩ := hcalm
  cases h with
  | accept | unrouted | release | delay | answer => exact ⟨rfl, trivial⟩
  | abandon proc | expire proc | dropRequest proc =>
    rw [proc] at hproc
    have hidle : c.handler = .idle := hproc
    exact ⟨rfl, by simp [Settled, hidle, Handler.Running]⟩
  | route proc info => exact ⟨by simp [attends, isServerDead_of_readEndnameInfo info], trivial⟩
  | dispatch proc | collect proc =>
    rw [attends, proc] at hatt
    exact ⟨hatt, trivial⟩
  | enter handler | handle handler | drain _ handler =>
    rw [handler] at hset
    exact ⟨hatt, hset.advance trivial⟩
  | dead proc dead | killed proc dead =>
    -- the call would give up, but its server is there
    rw [attends, proc] at hatt
    simp [dead] at hatt
  | alive => exact ⟨hatt, hset⟩
  | refuse proc =>
    rw [proc] at hset
    exact absurd hset id
  | dropReply proc =>
    rw [proc] at hproc
    have htaken : c.handler = .taken _ := hproc
    exact ⟨rfl, by simp [Settled, htaken, Handler.Running]⟩
  | deliver proc =>
    rename_i reply
    rw [proc] at hset
    cases reply with
    | none => exact ⟨rfl, hset⟩
    | some => exact ⟨rfl, trivial⟩

/-- When a call has returned only its handler can go on. -/
theorem Act.running (h : s.Act handle k c a s' c') {reply : Option β}
    (hproc : c.proc = .returned reply) : c.handler.Running := by
  cases h with
  | enter handler | handle handler | drain _ handler =>
    rw [handler]
    trivial
  | accept proc | abandon proc | route proc | unrouted proc | expire proc | release proc
  | dropRequest proc | dispatch proc | collect proc | dead proc | alive proc | refuse proc
  | killed proc | dropReply proc | delay proc | answer proc | deliver proc =>
    rw [hproc] at proc
    cases proc

/-- The call can reach server `p` only. -/
structure Bound (p : ℕ) (c : Rpc η ν α β) : Prop where
  routed : ∀ r, c.proc = .routed r → r.server = p
  spawned : ∀ q, c.handler = .spawned q → q = p
  entered : ∀ q, c.handler = .entered q → q = p

theorem Act.bound {p : ℕ} (h : s.Act handle k c a s' c')
    (hservers : ∀ name q, s.servers name = some q → q = p) (hc : Bound p c) : Bound p c' := by
  cases h with
  | route proc info =>
    refine ⟨fun r hr => ?_, hc.spawned, hc.entered⟩
    obtain rfl := Proc.routed.inj hr
    exact hservers _ _ (readEndnameInfo_eq_some info).2.1
  | dispatch proc =>
    refine ⟨by simp, fun q hq => ?_, by simp⟩
    obtain rfl := Handler.spawned.inj hq
    exact hc.routed _ proc
  | enter handler =>
    refine ⟨hc.routed, by simp, fun q hq => ?_⟩
    obtain rfl := Handler.entered.inj hq
    exact hc.spawned _ handler
  | handle | drain => exact ⟨hc.routed, by simp, by simp⟩
  | collect => exact ⟨by simp, by simp, by simp⟩
  | alive => exact hc
  | _ => exact ⟨by simp, hc.spawned, hc.entered⟩

/-- A call fails only where its handler has not been started. -/
def Lossless (g : Handler β) : Proc ν β → Prop
  | .routed r | .waiting r | .collected r _ => r.reliable = true
  | .replying none | .returned none => g = .idle
  | _ => True

theorem Lossless.advance {g g' : Handler β} {proc : Proc ν β} (h : Lossless g proc)
    (hg : g.Running) : Lossless g' proc := by
  cases proc with
  | replying reply =>
    cases reply with
    | none => exact absurd h hg.ne_idle
    | some => trivial
  | returned reply =>
    cases reply with
    | none => exact absurd h hg.ne_idle
    | some => trivial
  | _ => exact h

theorem Act.lossless (h : s.Act handle k c a s' c') (hreliable : s.reliable = true)
    (hproc : ProcInv c.handler c.proc) (hcalm : s.Calm c) (hc : Lossless c.handler c.proc) :
    Lossless c'.handler c'.proc := by
  obtain ⟨hatt, hset⟩ := hcalm
  cases h with
  | accept | unrouted | release | delay | answer => trivial
  | abandon proc | expire proc | dropRequest proc =>
    rw [proc] at hproc
    exact hproc
  | route proc info => exact (readEndnameInfo_eq_some info).2.2.trans hreliable
  | dispatch proc | collect proc | dead proc =>
    rw [proc] at hc
    exact hc
  | enter handler | handle handler | drain _ handler =>
    rw [handler] at hc
    exact hc.advance trivial
  | alive => exact hc
  | refuse proc =>
    rw [proc] at hset
    exact absurd hset id
  | killed proc dead =>
    rw [Net.attends, proc] at hatt
    simp [dead] at hatt
  | dropReply proc _ reliable =>
    rw [proc] at hc
    exact absurd (reliable.symm.trans hc) (by decide)
  | deliver proc =>
    rename_i reply
    rw [proc] at hc
    cases reply with
    | none => exact hc
    | some => trivial

/-! ### Steps and runs -/

variable [DecidableEq η] [DecidableEq ν]

/-- The tests do not switch off what a call needs. -/
def keeps (s : Net η ν σ α β) : Action η ν α → Bool
  | .config a =>
    match s.configStep a with
    | .ok s' => s.calls.all s'.attends
    | .error _ => true
  | _ => true

/-- The rule for what holds of every call: of a new one, of the one that makes the step and of the
    others. -/
theorem forall_calls_step {P Q : Rpc η ν α β → Prop} {e : Action η ν α}
    (hs : s.step handle e = .ok s') (h : ∀ c ∈ s.calls, P c)
    (hnew : ∀ endname req, Q ⟨endname, req, .sending, .idle⟩)
    (hact : ∀ k c a s₁ c', s.calls[k]? = some c → s.Act handle k c a s₁ c' →
      s' = { s₁ with calls := s.calls.set k c' } → P c → Q c')
    (hkeep : ∀ c ∈ s.calls, P c → Q c) : ∀ c ∈ s'.calls, Q c := by
  intro d hd
  cases step_move hs with
  | call endname req =>
    rcases List.mem_append.mp hd with hd | hd
    · exact hkeep d hd (h d hd)
    · rw [List.mem_singleton.mp hd]
      exact hnew endname req
  | on hget hact' =>
    rcases List.mem_or_eq_of_mem_set hd with hd | rfl
    · exact hkeep d hd (h d hd)
    · exact hact _ _ _ _ _ hget hact' rfl (h _ (List.mem_of_getElem? hget))
  | config hconfig =>
    rw [(configStep_frame hconfig).1] at hd
    exact hkeep d hd (h d hd)

/-- A step that the rest of a run allows keeps what the calls under way need. -/
theorem attends_step {e : Action η ν α} (hkeeps : s.keeps e = true)
    (hs : s.step handle e = .ok s') (hc : c ∈ s.calls) (h : s.attends c = true) :
    s'.attends c = true := by
  cases step_move hs with
  | call endname req => exact h
  | on hget hact => exact (hact.attends_eq c).trans h
  | config hconfig =>
    rw [keeps, hconfig] at hkeeps
    exact List.all_eq_true.mp hkeeps c hc

theorem calm_step {e : Action η ν α} (hinv : s.Inv handle objects)
    (h : ∀ c ∈ s.calls, s.Calm c) (hkeeps : s.keeps e = true) (hs : s.step handle e = .ok s') :
    ∀ c ∈ s'.calls, s'.Calm c := by
  refine forall_calls_step hs h (fun _ _ => ⟨rfl, trivial⟩) ?_ ?_
  · rintro k c a s₁ c' hget hact rfl hcalm
    have hcalm' := hact.calm (hinv.calls k c hget).proc hcalm
    exact ⟨hcalm'.attended, hcalm'.settled⟩
  · intro c hc hcalm
    exact ⟨attends_step hkeeps hs hc hcalm.attended, hcalm.settled⟩

theorem run_calm (h : Run (step handle) (fun s e => s.keeps e = true) (makeNetwork objects) s) :
    s.Inv handle objects ∧ ∀ c ∈ s.calls, s.Calm c :=
  h.invariant (P := fun s => s.Inv handle objects ∧ ∀ c ∈ s.calls, s.Calm c)
    ⟨inv_makeNetwork handle objects, fun c hc => by simp [makeNetwork] at hc⟩
    fun _ _ _ hinv hkeeps hs => ⟨inv_step hinv.1 hs, calm_step hinv.1 hinv.2 hkeeps hs⟩

/-- A call that is over stays as it is and is not executed any more. -/
theorem over_step {e : Action η ν α} {reply : Option β} (hproc : c.proc = .returned reply)
    (hover : ¬ c.handler.Running) (hget : s.calls[k]? = some c) (hs : s.step handle e = .ok s') :
    s'.calls[k]? = some c ∧
      (s'.executed.filter fun x => x.call = k) = s.executed.filter fun x => x.call = k := by
  cases step_move hs with
  | call endname req =>
    have hk : k < s.calls.length := (List.getElem?_eq_some_iff.mp hget).1
    exact ⟨(List.getElem?_append_left hk).trans hget, rfl⟩
  | on hget' hact =>
    rename_i j d d' a s₁
    by_cases hj : j = k
    · subst hj
      obtain rfl := Option.some.inj (hget.symm.trans hget')
      exact absurd (hact.running hproc) hover
    · refine ⟨(List.getElem?_set_ne hj).trans hget, ?_⟩
      rcases hact.effect with ⟨hexec, -⟩ | ⟨p, -, hexec, -⟩
      · rw [hexec]
      · rw [hexec, List.filter_append]
        simp [hj]
  | config hconfig =>
    obtain ⟨hcalls, -, hexec, -⟩ := configStep_frame hconfig
    rw [hcalls, hexec]
    exact ⟨hget, rfl⟩

/-- If the tests do not switch off what a call needs, a request is not executed after its `Call` has
    returned, whatever happens then. -/
theorem returned_not_executed_again {s' : Net η ν σ α β} {reply : Option β}
    (h : Run (step handle) (fun s e => s.keeps e = true) (makeNetwork objects) s)
    (hget : s.calls[k]? = some c) (hreturned : c.proc = .returned reply)
    (h' : Run (step handle) (fun _ _ => True) s s') :
    (s'.executed.filter fun x => x.call = k) = s.executed.filter fun x => x.call = k := by
  obtain ⟨hinv, hcalm⟩ := run_calm h
  have hover : ¬ c.handler.Running :=
    (hcalm c (List.mem_of_getElem? hget)).not_running (hinv.calls k c hget).proc hreturned
  refine (h'.invariant (P := fun t => t.calls[k]? = some c ∧
    (t.executed.filter fun x => x.call = k) = s.executed.filter fun x => x.call = k)
    ⟨hget, rfl⟩ ?_).2
  intro t t' e ht _ hs
  obtain ⟨hget', hexec⟩ := over_step hreturned hover ht.1 hs
  exact ⟨hget', hexec.trans ht.2⟩

theorem returned_not_executed_again_deposits :
    ∃ (s : Net ℕ ℕ ℕ ℕ ℕ) (c : Rpc ℕ ℕ ℕ ℕ),
      Run (step deposit) (fun s e => s.keeps e = true) (makeNetwork fun _ => 0) s ∧
      s.calls[1]? = some c ∧ c.proc = .returned none ∧ s.executed.length = 2 ∧
      ((s.startCall 7 6).executed.filter fun x => x.call = 1) =
        s.executed.filter fun x => x.call = 1 := by
  obtain ⟨s, hrun, hget, hlength⟩ :=
    exists_run_of_play (step deposit) (fun s e => s.keeps e = true) (makeNetwork fun _ => 0)
      deposits (fun s : Net ℕ ℕ ℕ ℕ ℕ => s.calls[1]? = some ⟨7, 6, .returned none, .taken 5⟩ ∧
        s.executed.length = 2)
      (by decide +kernel)
  exact ⟨s, _, hrun, hget, rfl, hlength,
    returned_not_executed_again hrun hget rfl (.tail (e := .call 7 6) .refl trivial rfl)⟩

/-! ### One server, and a network that loses nothing -/

/-- `p` is the only server there is. -/
structure OnlyServer (p : ℕ) (s : Net η ν σ α β) : Prop where
  servers : ∀ name q, s.servers name = some q → q = p
  calls : ∀ c ∈ s.calls, Bound p c

/-- No server but `p` is added. -/
def addsOnly (p : ℕ) : Action η ν α → Bool
  | .config (.addServer _ rs) => rs = p
  | _ => true

theorem servers_step {p : ℕ} {e : Action η ν α} (hadds : addsOnly p e = true)
    (h : ∀ name q, s.servers name = some q → q = p) (hs : s.step handle e = .ok s') :
    ∀ name q, s'.servers name = some q → q = p := by
  cases step_move hs with
  | call => exact h
  | on hget hact => cases hact <;> exact h
  | config hconfig =>
    cases configStep_config hconfig with
    | addServer name rs =>
      intro name' q hq
      simp only [Function.update_apply] at hq
      split at hq
      · exact (Option.some.inj hq).symm.trans (of_decide_eq_true hadds)
      · exact h name' q hq
    | deleteServer name =>
      intro name' q hq
      simp only [Function.update_apply] at hq
      split at hq
      · cases hq
      · exact h name' q hq
    | _ => exact h

theorem OnlyServer.step {p : ℕ} {e : Action η ν α} (h : s.OnlyServer p)
    (hadds : addsOnly p e = true) (hs : s.step handle e = .ok s') : s'.OnlyServer p where
  servers := servers_step hadds h.servers hs
  calls := by
    refine forall_calls_step hs h.calls (fun _ _ => ⟨by simp, by simp, by simp⟩) ?_ fun _ _ hc => hc
    intro k c a s₁ c' _ hact _ hc
    exact hact.bound h.servers hc

/-- Nothing is lost. -/
structure Faultless (s : Net η ν σ α β) : Prop where
  reliable : s.reliable = true
  calls : ∀ c ∈ s.calls, Lossless c.handler c.proc

/-- The network stays reliable. -/
def staysReliable : Action η ν α → Bool
  | .config (.reliable yes) => yes
  | _ => true

theorem Faultless.step {e : Action η ν α} (h : s.Faultless) (hinv : s.Inv handle objects)
    (hcalm : ∀ c ∈ s.calls, s.Calm c) (hstays : staysReliable e = true)
    (hs : s.step handle e = .ok s') : s'.Faultless where
  reliable := by
    cases step_move hs with
    | call => exact h.reliable
    | on hget hact => cases hact <;> exact h.reliable
    | config hconfig =>
      cases configStep_config hconfig with
      | reliable yes => exact hstays
      | _ => exact h.reliable
  calls := by
    refine forall_calls_step hs h.calls (fun _ _ => trivial) ?_ fun _ _ hc => hc
    intro k c a s₁ c' hget hact _ hc
    exact hact.lossless h.reliable (hinv.calls k c hget).proc
      (hcalm c (List.mem_of_getElem? hget)) hc

end Net

end DistLabs.Labrpc
