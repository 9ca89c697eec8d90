import DistLabs.Labrpc.Network
import DistLabs.Schemes.Slice

/-! # What a call can rely on

    A handler runs at most once for a call. A call that returns true has the reply of its handler,
    and a server has gone through the requests of the calls that were executed, in this order. -/

namespace DistLabs.Labrpc

variable {η ν σ α β : Type}

/-- A server goes from `st` to `st'` through the requests, and each gets its reply. -/
def Serves (handle : σ → α → σ × β) : σ → List (Execution α β) → σ → Prop
  | st, [], st' => st = st'
  | st, x :: xs, st' => (handle st x.req).2 = x.reply ∧ Serves handle (handle st x.req).1 xs st'

theorem serves_concat {handle : σ → α → σ × β} {x : Execution α β} {st' : σ}
    (hx : (handle st' x.req).2 = x.reply) :
    ∀ {xs : List (Execution α β)} {st : σ}, Serves handle st xs st' →
      Serves handle st (xs ++ [x]) (handle st' x.req).1
  | [], st, h => by
    obtain rfl : st = st' := h
    exact ⟨hx, rfl⟩
  | _ :: _, _, h => ⟨h.1, serves_concat hx h.2⟩

/-- What the executions say about the handler of call `k`. -/
def HandlerInv (executed : List (Execution α β)) (k : ℕ) (req : α) : Handler β → Prop
  | .finished reply | .taken reply => ∃ p, ⟨k, p, req, reply⟩ ∈ executed
  | _ => ∀ x ∈ executed, x.call ≠ k

theorem HandlerInv.concat {executed : List (Execution α β)} {k : ℕ} {req : α} {g : Handler β}
    (h : HandlerInv executed k req g) {x : Execution α β} (hx : x.call ≠ k) :
    HandlerInv (executed ++ [x]) k req g := by
  have hcall : (∀ y ∈ executed, y.call ≠ k) → ∀ y ∈ executed ++ [x], y.call ≠ k := by
    intro hall y hy
    rcases List.mem_append.mp hy with hy | hy
    · exact hall y hy
    · obtain rfl := List.mem_singleton.mp hy
      exact hx
  cases g with
  | idle => exact hcall h
  | spawned => exact hcall h
  | entered => exact hcall h
  | finished reply => exact h.imp fun p hp => List.mem_append_left _ hp
  | taken reply => exact h.imp fun p hp => List.mem_append_left _ hp

/-- The handler has been started and its reply has not been received. -/
def Handler.Running : Handler β → Prop
  | .idle | .taken _ => False
  | _ => True

/-- Where the handler is when the call is here. -/
def ProcInv (g : Handler β) : Proc ν β → Prop
  | .waiting _ => g.Running
  | .collected _ none => g ≠ .idle
  | .collected _ (some reply) | .delayed reply | .replying (some reply)
  | .returned (some reply) => g = .taken reply
  | .replying none | .returned none => True
  | _ => g = .idle

theorem Handler.Running.ne_idle {g : Handler β} (h : g.Running) : g ≠ .idle := by
  rintro rfl
  exact h

theorem Handler.Running.ne_taken {g : Handler β} (h : g.Running) (reply : β) :
    g ≠ .taken reply := by
  rintro rfl
  exact h

/-- A handler that is running goes on without anybody noticing. -/
theorem ProcInv.advance {g g' : Handler β} {proc : Proc ν β} (h : ProcInv g proc)
    (hg : g.Running) (hidle : g' ≠ .idle) (hwaiting : ∀ r, proc = .waiting r → g'.Running) :
    ProcInv g' proc := by
  cases proc with
  | sending => exact absurd h hg.ne_idle
  | received => exact absurd h hg.ne_idle
  | timer => exact absurd h hg.ne_idle
  | routed => exact absurd h hg.ne_idle
  | waiting r => exact hwaiting r rfl
  | collected r reply =>
    cases reply with
    | none => exact hidle
    | some reply => exact absurd h (hg.ne_taken reply)
  | delayed reply => exact absurd h (hg.ne_taken reply)
  | replying reply =>
    cases reply with
    | none => trivial
    | some reply => exact absurd h (hg.ne_taken reply)
  | returned reply =>
    cases reply with
    | none => trivial
    | some reply => exact absurd h (hg.ne_taken reply)

structure Rpc.Inv (executed : List (Execution α β)) (k : ℕ) (c : Rpc η ν α β) : Prop where
  handler : HandlerInv executed k c.req c.handler
  proc : ProcInv c.handler c.proc

namespace Net

variable {handle : σ → α → σ × β} {objects : ℕ → σ} {s s' : Net η ν σ α β} {k : ℕ}
  {c c' : Rpc η ν α β} {a : CallAction}

/-- The executions on one server. -/
def executedOn (s : Net η ν σ α β) (p : ℕ) : List (Execution α β) :=
  s.executed.filter fun x => x.server = p

/-- The handler has been counted by server `p` and has not run. -/
def pends (p : ℕ) (c : Rpc η ν α β) : Bool :=
  match c.handler with
  | .entered q => q = p
  | _ => false

structure Inv (handle : σ → α → σ × β) (objects : ℕ → σ) (s : Net η ν σ α β) : Prop where
  calls : ∀ (k : ℕ) (c : Rpc η ν α β), s.calls[k]? = some c → c.Inv s.executed k
  nodup : (s.executed.map Execution.call).Nodup
  bound : ∀ x ∈ s.executed, x.call < s.calls.length
  serves : ∀ p, Serves handle (objects p) (s.executedOn p) (s.objects p)
  served : ∀ p, s.served p = (s.executedOn p).length + s.calls.countP (pends p)

theorem inv_makeNetwork (handle : σ → α → σ × β) (objects : ℕ → σ) :
    (makeNetwork objects : Net η ν σ α β).Inv handle objects where
  calls k c h := by simp [makeNetwork] at h
  nodup := List.nodup_nil
  bound x hx := by simp [makeNetwork] at hx
  serves p := rfl
  served p := rfl

/-- The handler runs in one kind of step; the others leave the servers as they are. -/
theorem Act.effect (h : s.Act handle k c a s' c') :
    (s'.executed = s.executed ∧ s'.objects = s.objects) ∨
    ∃ p, c.handler = .entered p ∧
      s'.executed = s.executed ++ [⟨k, p, c.req, (handle (s.objects p) c.req).2⟩] ∧
      s'.objects = Function.update s.objects p (handle (s.objects p) c.req).1 := by
  cases h with
  | handle hhandler => exact .inr ⟨_, hhandler, rfl, rfl⟩
  | _ => exact .inl ⟨rfl, rfl⟩

/-- The invariant of the call that makes the step. -/
theorem Act.inv (h : s.Act handle k c a s' c') (hinv : c.Inv s.executed k) :
    c'.Inv s'.executed k := by
  obtain ⟨hh, hp⟩ := hinv
  cases h with
  | accept proc | abandon proc | route proc | unrouted proc | expire proc | release proc
  | dropRequest proc | killed proc | dropReply proc | delay proc | answer proc | refuse proc =>
    rw [proc] at hp
    exact ⟨hh, by trivial⟩
  | dispatch proc =>
    rw [proc] at hp
    have hidle : c.handler = .idle := hp
    rw [hidle] at hh
    exact ⟨hh, trivial⟩
  | enter handler =>
    rw [handler] at hh hp
    exact ⟨hh, hp.advance trivial (by simp) fun _ _ => trivial⟩
  | handle handler =>
    rw [handler] at hp
    exact ⟨⟨_, List.mem_append_right _ (List.mem_singleton_self _)⟩,
      hp.advance trivial (by simp) fun _ _ => trivial⟩
  | collect proc handler =>
    rw [handler] at hh
    exact ⟨hh, rfl⟩
  | dead proc =>
    rw [proc] at hp
    exact ⟨hh, Handler.Running.ne_idle hp⟩
  | alive => exact ⟨hh, hp⟩
  | deliver proc =>
    rename_i reply
    rw [proc] at hp
    cases reply with
    | none => exact ⟨hh, trivial⟩
    | some reply => exact ⟨hh, hp⟩
  | drain proc handler =>
    rw [handler] at hh hp
    exact ⟨hh, hp.advance trivial (by simp) fun r hr => absurd hr (proc r)⟩

theorem executedOn_concat {x : Execution α β} (h : s'.executed = s.executed ++ [x]) (p : ℕ) :
    s'.executedOn p = s.executedOn p ++ if x.server = p then [x] else [] := by
  rw [executedOn, h, List.filter_append, executedOn]
  by_cases hx : x.server = p <;> simp [hx]

/-- A step moves a call past the count of its server, runs its handler, or touches neither. -/
theorem Act.served (h : s.Act handle k c a s' c') (hproc : ProcInv c.handler c.proc) (p : ℕ) :
    s'.served p + (s.executedOn p).length + (pends p c).toNat =
      s.served p + (s'.executedOn p).length + (pends p c').toNat := by
  cases h with
  | enter handler =>
    rename_i q
    by_cases hq : q = p
    · subst hq
      simp [pends, handler, executedOn]
      omega
    · simp [pends, handler, executedOn, hq, Function.update_of_ne (Ne.symm hq)]
  | handle handler =>
    rename_i q
    -- the call leaves the pending ones of its server when it joins the executed ones
    by_cases hq : q = p <;> simp [pends, handler, hq, executedOn]
    omega
  | dispatch proc =>
    rw [proc] at hproc
    have hidle : c.handler = .idle := hproc
    simp [pends, executedOn, hidle]
  | collect proc handler => simp [pends, executedOn, handler]
  | drain proc handler => simp [pends, executedOn, handler]
  | _ => rfl

theorem Inv.on (h : s.Inv handle objects) (hget : s.calls[k]? = some c)
    (hact : s.Act handle k c a s' c') :
    ({ s' with calls := s.calls.set k c' } : Net η ν σ α β).Inv handle objects := by
  have hk : k < s.calls.length := (List.getElem?_eq_some_iff.mp hget).1
  have hc := h.calls k c hget
  have hcalls : ∀ (j : ℕ) (d : Rpc η ν α β), (s.calls.set k c')[j]? = some d →
      d.Inv s'.executed j := by
    intro j d hd
    by_cases hj : k = j
    · subst hj
      rw [List.getElem?_set_self hk] at hd
      obtain rfl := Option.some.inj hd
      exact hact.inv hc
    · rw [List.getElem?_set_ne hj] at hd
      have hdinv := h.calls j d hd
      rcases hact.effect with ⟨hexec, -⟩ | ⟨p, -, hexec, -⟩
      · rw [hexec]
        exact hdinv
      · rw [hexec]
        exact ⟨hdinv.handler.concat hj, hdinv.proc⟩
  have hserved : ∀ p, s'.served p =
      (s'.executedOn p).length + (s.calls.set k c').countP (pends p) := by
    intro p
    have hcount := Slice.countP_set_add (p := pends p) (b := c') hget
    have hstep := hact.served hc.proc p
    have hbefore := h.served p
    omega
  rcases hact.effect with ⟨hexec, hobj⟩ | ⟨p, hhandler, hexec, hobj⟩
  · refine ⟨hcalls, ?_, ?_, ?_, hserved⟩
    · rw [hexec]
      exact h.nodup
    · intro x hx
      rw [List.length_set]
      exact h.bound x (hexec ▸ hx)
    · intro p
      have := h.serves p
      simpa only [executedOn, hexec, hobj] using this
  · refine ⟨hcalls, ?_, ?_, ?_, hserved⟩
    · -- the handler of call k has not run before
      have hfresh : ∀ x ∈ s.executed, x.call ≠ k := by
        have := hc.handler
        rwa [hhandler] at this
      rw [hexec, List.map_append, List.map_singleton]
      refine List.nodup_append.mpr ⟨h.nodup, List.nodup_singleton _, ?_⟩
      intro i hi j hj
      obtain ⟨x, hx, rfl⟩ := List.mem_map.mp hi
      rw [List.mem_singleton.mp hj]
      exact hfresh x hx
    · intro x hx
      rw [List.length_set]
      rcases List.mem_append.mp (hexec ▸ hx) with hx | hx
      · exact h.bound x hx
      · rw [List.mem_singleton.mp hx]
        exact hk
    · intro q
      show Serves handle (objects q) (s'.executedOn q) (s'.objects q)
      rw [executedOn_concat hexec, hobj]
      by_cases hq : p = q
      · subst hq
        rw [if_pos rfl, Function.update_self]
        exact serves_concat rfl (h.serves p)
      · rw [if_neg hq, List.append_nil, Function.update_of_ne (Ne.symm hq)]
        exact h.serves q

theorem Inv.startCall (h : s.Inv handle objects) (endname : η) (req : α) :
    (s.startCall endname req).Inv handle objects where
  calls j d hd := by
    rcases Slice.getElem?_concat_eq_some hd with hd | ⟨rfl, rfl⟩
    · exact h.calls j d hd
    · exact ⟨fun x hx => (h.bound x hx).ne, rfl⟩
  nodup := h.nodup
  bound x hx := by
    have := h.bound x hx
    simp only [Net.startCall, List.length_append]
    omega
  serves := h.serves
  served p := by
    have hnew : pends p (⟨endname, req, .sending, .idle⟩ : Rpc η ν α β) = false := rfl
    simpa [Net.startCall, executedOn, List.countP_append, hnew] using h.served p

theorem Inv.config (h : s.Inv handle objects) (hcalls : s'.calls = s.calls)
    (hobjects : s'.objects = s.objects) (hexecuted : s'.executed = s.executed)
    (hserved : s'.served = s.served) : s'.Inv handle objects where
  calls := by
    rw [hcalls, hexecuted]
    exact h.calls
  nodup := by
    rw [hexecuted]
    exact h.nodup
  bound := by
    rw [hexecuted, hcalls]
    exact h.bound
  serves p := by
    rw [executedOn, hexecuted, hobjects]
    exact h.serves p
  served p := by
    rw [executedOn, hexecuted, hserved, hcalls]
    exact h.served p

/-- An execution is that of a call that was made, with its request. -/
theorem Inv.exists_call (h : s.Inv handle objects) {x : Execution α β} (hx : x ∈ s.executed) :
    ∃ c, s.calls[x.call]? = some c ∧ c.req = x.req := by
  obtain ⟨c, hget⟩ : ∃ c, s.calls[x.call]? = some c :=
    ⟨_, List.getElem?_eq_getElem (h.bound x hx)⟩
  refine ⟨c, hget, ?_⟩
  have hh := (h.calls x.call c hget).handler
  -- of the executions of this call there is only one
  have honly : (∃ reply p, ⟨x.call, p, c.req, reply⟩ ∈ s.executed) → c.req = x.req := by
    rintro ⟨reply, p, hmem⟩
    exact congrArg Execution.req (List.inj_on_of_nodup_map h.nodup hmem hx rfl)
  cases hg : c.handler with
  | idle => rw [hg] at hh; exact absurd rfl (hh x hx)
  | spawned => rw [hg] at hh; exact absurd rfl (hh x hx)
  | entered => rw [hg] at hh; exact absurd rfl (hh x hx)
  | finished reply => rw [hg] at hh; exact honly ⟨reply, hh⟩
  | taken reply => rw [hg] at hh; exact honly ⟨reply, hh⟩

theorem Inv.length_filter_le (h : s.Inv handle objects) (k : ℕ) :
    (s.executed.filter fun x => x.call = k).length ≤ 1 := by
  have hcount := List.nodup_iff_count_le_one.mp h.nodup k
  rw [List.count_eq_countP, List.countP_map, List.countP_eq_length_filter] at hcount
  exact hcount

variable [DecidableEq η] [DecidableEq ν]

theorem inv_step {e : Action η ν α} (h : s.Inv handle objects) (hs : s.step handle e = .ok s') :
    s'.Inv handle objects := by
  cases step_move hs with
  | call endname req => exact h.startCall endname req
  | on hget hact => exact h.on hget hact
  | config hconfig =>
    obtain ⟨hcalls, hobjects, hexecuted, hserved⟩ := configStep_frame hconfig
    exact h.config hcalls hobjects hexecuted hserved

theorem run_inv {ok : Net η ν σ α β → Action η ν α → Prop}
    (h : Run (step handle) ok (makeNetwork objects) s) : s.Inv handle objects :=
  h.invariant (inv_makeNetwork handle objects) fun _ _ _ hinv _ hs => inv_step hinv hs

/-- A handler runs at most once for a call, on the request of the call; a `Call` that returns true
    has its reply; each server has served the executed requests one after the other, and its count
    is that of the executions and of the requests about to be executed. -/
theorem calls_executed (h : Run (step handle) (fun _ _ => True) (makeNetwork objects) s) :
    (∀ k, (s.executed.filter fun x => x.call = k).length ≤ 1) ∧
    (∀ x ∈ s.executed, ∃ c, s.calls[x.call]? = some c ∧ c.req = x.req) ∧
    (∀ (k : ℕ) (c : Rpc η ν α β) (reply : β), s.calls[k]? = some c →
      c.proc = .returned (some reply) → ∃ p, ⟨k, p, c.req, reply⟩ ∈ s.executed) ∧
    ∀ p, Serves handle (objects p) (s.executedOn p) (s.objects p) ∧
      s.served p = (s.executedOn p).length + s.calls.countP (pends p) := by
  have hinv := run_inv h
  refine ⟨hinv.length_filter_le, fun x hx => hinv.exists_call hx, ?_,
    fun p => ⟨hinv.serves p, hinv.served p⟩⟩
  intro k c reply hget hproc
  obtain ⟨hh, hp⟩ := hinv.calls k c hget
  rw [hproc] at hp
  have htaken : c.handler = .taken reply := hp
  rw [htaken] at hh
  exact hh

/-- An account as the server. -/
def deposit (balance amount : ℕ) : ℕ × ℕ := (balance + amount, balance)

/-- Two calls over an unreliable network; the reply of the second is lost. -/
def deposits : List (Action ℕ ℕ ℕ) :=
  [.config (.makeEnd 7), .config (.connect 7 1), .config (.addServer 1 0), .config (.enable 7 true),
    .config (.reliable false), .call 7 5, .on 0 .accept, .on 0 .route, .on 0 .dispatch,
    .on 0 .enter, .call 7 6, .on 1 .accept, .on 1 .route, .on 0 .handle, .on 1 .dispatch,
    .on 1 .enter, .on 0 .collect, .on 0 (.answer false false), .on 1 .handle, .on 1 .poll,
    .on 1 .collect, .on 1 (.answer true false), .on 0 .deliver, .on 1 .deliver]

theorem calls_executed_deposits :
    ∃ s : Net ℕ ℕ ℕ ℕ ℕ, Run (step deposit) (fun _ _ => True) (makeNetwork fun _ => 0) s ∧
      s.objects 0 = 11 ∧ s.calls.map Rpc.proc = [.returned (some 0), .returned none] ∧
      (∀ k, (s.executed.filter fun x => x.call = k).length ≤ 1) ∧
      (∀ x ∈ s.executed, ∃ c, s.calls[x.call]? = some c ∧ c.req = x.req) ∧
      (∀ (k : ℕ) (c : Rpc ℕ ℕ ℕ ℕ) (reply : ℕ), s.calls[k]? = some c →
        c.proc = .returned (some reply) → ∃ p, ⟨k, p, c.req, reply⟩ ∈ s.executed) ∧
      ∀ p, Serves deposit 0 (s.executedOn p) (s.objects p) ∧
        s.served p = (s.executedOn p).length + s.calls.countP (pends p) := by
  obtain ⟨s, hrun, hobject, hprocs⟩ :=
    exists_run_of_play (step deposit) (fun _ _ => True) (makeNetwork fun _ => 0) deposits
      (fun s : Net ℕ ℕ ℕ ℕ ℕ => s.objects 0 = 11 ∧
        s.calls.map Rpc.proc = [.returned (some 0), .returned none])
      (by decide +kernel)
  exact ⟨s, hrun, hobject, hprocs, calls_executed hrun⟩

end Net

end DistLabs.Labrpc
