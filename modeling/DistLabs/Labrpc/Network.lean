import DistLabs.Schemes.Run

/-! # The network of the labs (`labrpc/labrpc.go`)

    A client end sends requests over one channel; the network starts a goroutine for each, which
    looks up the server, may lose the request, lets the server run the handler in a goroutine of its
    own, waits for it as long as the server is there, and may lose or delay the reply. The tests
    switch ends and servers on and off at any time.

    The requests are of type `α` and the replies of type `β`; a server is an object with states `σ`
    whose handler runs in one step. Servers are compared by their addresses. Time is left out: what
    waits for a timer goes on at some time. -/

namespace DistLabs.Labrpc

variable {η ν σ α β : Type}

/-- What `processReq` has read of the network. -/
structure Route (ν : Type) where
  servername : ν
  server : ℕ
  reliable : Bool
  longreordering : Bool
  deriving DecidableEq

/-- Where a call and its `processReq` are; a reply that is not `ok` is `none`. -/
inductive Proc (ν β : Type) where
  /-- `Call` sends the request -/
  | sending
  | received
  /-- no server was found; the failure comes after a while -/
  | timer
  | routed (r : Route ν)
  /-- in the loop that waits for the handler -/
  | waiting (r : Route ν)
  /-- behind the loop, with the reply of the handler if there is one -/
  | collected (r : Route ν) (reply : Option β)
  /-- the reply comes after a while -/
  | delayed (reply : β)
  | replying (reply : Option β)
  /-- `Call` has returned -/
  | returned (reply : Option β)
  deriving DecidableEq

/-- Where the goroutine of the handler is: not started, before and behind the count of the server,
    with its reply, or at the end. -/
inductive Handler (β : Type) where
  | idle
  | spawned (server : ℕ)
  | entered (server : ℕ)
  | finished (reply : β)
  | taken (reply : β)
  deriving DecidableEq

structure Rpc (η ν α β : Type) where
  endname : η
  req : α
  proc : Proc ν β
  handler : Handler β
  deriving DecidableEq

/-- The handler of a server has run for a call. -/
structure Execution (α β : Type) where
  call : ℕ
  server : ℕ
  req : α
  reply : β
  deriving DecidableEq

/-- The network, the servers and all calls so far. No step reads `executed`. -/
structure Net (η ν σ α β : Type) where
  reliable : Bool
  longReordering : Bool
  ends : η → Bool
  enabled : η → Bool
  connections : η → Option ν
  servers : ν → Option ℕ
  /-- the goroutine of `MakeNetwork` receives requests -/
  receiving : Bool
  done : Bool
  objects : ℕ → σ
  /-- incoming RPCs of each server -/
  served : ℕ → ℕ
  calls : List (Rpc η ν α β)
  executed : List (Execution α β)

/-- The steps of a call. -/
inductive CallAction where
  | accept
  /-- the network has been destroyed -/
  | abandon
  | route
  | fire
  | dropRequest
  | dispatch
  | enter
  | handle
  | collect
  /-- a tenth of a second has passed -/
  | poll
  | answer (drop delay : Bool)
  | deliver
  /-- the result of a handler nobody waits for is thrown away -/
  | drain
  deriving DecidableEq

/-- What the tests do with the network. -/
inductive ConfigAction (η ν : Type) where
  | reliable (yes : Bool)
  | longReordering (yes : Bool)
  | makeEnd (endname : η)
  | deleteEnd (endname : η)
  | addServer (servername : ν) (rs : ℕ)
  | deleteServer (servername : ν)
  | connect (endname : η) (servername : ν)
  | enable (endname : η) (enabled : Bool)
  | cleanup
  /-- the goroutine of `MakeNetwork` returns -/
  | stop

inductive Action (η ν α : Type) where
  /-- a client calls `Call` -/
  | call (endname : η) (req : α)
  | on (k : ℕ) (a : CallAction)
  | config (a : ConfigAction η ν)

namespace Net

/-- `MakeNetwork`, with the servers the tests will add. -/
def makeNetwork (objects : ℕ → σ) : Net η ν σ α β where
  reliable := true
  longReordering := false
  ends _ := false
  enabled _ := false
  connections _ := none
  servers _ := none
  receiving := true
  done := false
  objects := objects
  served _ := 0
  calls := []
  executed := []

/-- `readEndnameInfo`, if the end is enabled and connected to a server. -/
def readEndnameInfo (s : Net η ν σ α β) (endname : η) : Option (Route ν) :=
  if s.enabled endname then do
    let servername ← s.connections endname
    let server ← s.servers servername
    some ⟨servername, server, s.reliable, s.longReordering⟩
  else none

def isServerDead (s : Net η ν σ α β) (endname : η) (servername : ν) (server : ℕ) : Bool :=
  s.enabled endname = false ∨ s.servers servername ≠ some server

/-- One step of call `k`, which is `c`. -/
def callStep (handle : σ → α → σ × β) (s : Net η ν σ α β) (k : ℕ) (c : Rpc η ν α β)
    (a : CallAction) : Option (Net η ν σ α β × Rpc η ν α β) :=
  match a, c.proc, c.handler with
  | .accept, .sending, _ =>
    if s.receiving then some (s, { c with proc := .received }) else none
  | .abandon, .sending, _ => if s.done then some (s, { c with proc := .returned none }) else none
  | .route, .received, _ =>
    match s.readEndnameInfo c.endname with
    | some r => some (s, { c with proc := .routed r })
    | none => some (s, { c with proc := .timer })
  | .fire, .timer, _ => some (s, { c with proc := .replying none })
  | .fire, .delayed reply, _ => some (s, { c with proc := .replying (some reply) })
  | .dropRequest, .routed r, _ =>
    if r.reliable = false then some (s, { c with proc := .replying none }) else none
  | .dispatch, .routed r, _ => some (s, { c with proc := .waiting r, handler := .spawned r.server })
  | .enter, _, .spawned p =>
    some ({ s with served := Function.update s.served p (s.served p + 1) },
      { c with handler := .entered p })
  | .handle, _, .entered p =>
    let (object, reply) := handle (s.objects p) c.req
    some ({ s with
        objects := Function.update s.objects p object
        executed := s.executed ++ [⟨k, p, c.req, reply⟩] },
      { c with handler := .finished reply })
  | .collect, .waiting r, .finished reply =>
    some (s, { c with proc := .collected r (some reply), handler := .taken reply })
  | .poll, .waiting r, _ =>
    if s.isServerDead c.endname r.servername r.server then
      some (s, { c with proc := .collected r none })
    else some (s, c)
  | .answer drop delay, .collected r reply, _ =>
    match reply with
    | none => some (s, { c with proc := .replying none })
    | some reply =>
      if s.isServerDead c.endname r.servername r.server then
        some (s, { c with proc := .replying none })
      else if drop then
        if r.reliable = false then some (s, { c with proc := .replying none }) else none
      else if delay then
        if r.longreordering then some (s, { c with proc := .delayed reply }) else none
      else some (s, { c with proc := .replying (some reply) })
  | .deliver, .replying reply, _ => some (s, { c with proc := .returned reply })
  | .drain, .waiting _, _ => none
  | .drain, _, .finished reply => some (s, { c with handler := .taken reply })
  | _, _, _ => none

/-! ### What a call can do -/

/-- All steps of a call, with what has to hold before them. -/
inductive Act (handle : σ → α → σ × β) (s : Net η ν σ α β) (k : ℕ) (c : Rpc η ν α β) :
    CallAction → Net η ν σ α β → Rpc η ν α β → Prop
  | accept (proc : c.proc = .sending) (receiving : s.receiving = true) :
      Act handle s k c .accept s { c with proc := .received }
  | abandon (proc : c.proc = .sending) (done : s.done = true) :
      Act handle s k c .abandon s { c with proc := .returned none }
  | route {r : Route ν} (proc : c.proc = .received) (info : s.readEndnameInfo c.endname = some r) :
      Act handle s k c .route s { c with proc := .routed r }
  | unrouted (proc : c.proc = .received) (info : s.readEndnameInfo c.endname = none) :
      Act handle s k c .route s { c with proc := .timer }
  | expire (proc : c.proc = .timer) :
      Act handle s k c .fire s { c with proc := .replying none }
  | release {reply : β} (proc : c.proc = .delayed reply) :
      Act handle s k c .fire s { c with proc := .replying (some reply) }
  | dropRequest {r : Route ν} (proc : c.proc = .routed r) (reliable : r.reliable = false) :
      Act handle s k c .dropRequest s { c with proc := .replying none }
  | dispatch {r : Route ν} (proc : c.proc = .routed r) :
      Act handle s k c .dispatch s { c with proc := .waiting r, handler := .spawned r.server }
  | enter {p : ℕ} (handler : c.handler = .spawned p) :
      Act handle s k c .enter { s with served := Function.update s.served p (s.served p + 1) }
        { c with handler := .entered p }
  | handle {p : ℕ} (handler : c.handler = .entered p) :
      Act handle s k c .handle
        { s with
          objects := Function.update s.objects p (handle (s.objects p) c.req).1
          executed := s.executed ++ [⟨k, p, c.req, (handle (s.objects p) c.req).2⟩] }
        { c with handler := .finished (handle (s.objects p) c.req).2 }
  | collect {r : Route ν} {reply : β} (proc : c.proc = .waiting r)
      (handler : c.handler = .finished reply) :
      Act handle s k c .collect s
        { c with proc := .collected r (some reply), handler := .taken reply }
  | dead {r : Route ν} (proc : c.proc = .waiting r)
      (dead : s.isServerDead c.endname r.servername r.server = true) :
      Act handle s k c .poll s { c with proc := .collected r none }
  | alive {r : Route ν} (proc : c.proc = .waiting r)
      (dead : s.isServerDead c.endname r.servername r.server = false) :
      Act handle s k c .poll s c
  | refuse {r : Route ν} {drop delay : Bool} (proc : c.proc = .collected r none) :
      Act handle s k c (.answer drop delay) s { c with proc := .replying none }
  | killed {r : Route ν} {reply : β} {drop delay : Bool} (proc : c.proc = .collected r (some reply))
      (dead : s.isServerDead c.endname r.servername r.server = true) :
      Act handle s k c (.answer drop delay) s { c with proc := .replying none }
  | dropReply {r : Route ν} {reply : β} {delay : Bool} (proc : c.proc = .collected r (some reply))
      (dead : s.isServerDead c.endname r.servername r.server = false)
      (reliable : r.reliable = false) :
      Act handle s k c (.answer true delay) s { c with proc := .replying none }
  | delay {r : Route ν} {reply : β} (proc : c.proc = .collected r (some reply))
      (dead : s.isServerDead c.endname r.servername r.server = false)
      (longreordering : r.longreordering = true) :
      Act handle s k c (.answer false true) s { c with proc := .delayed reply }
  | answer {r : Route ν} {reply : β} (proc : c.proc = .collected r (some reply))
      (dead : s.isServerDead c.endname r.servername r.server = false) :
      Act handle s k c (.answer false false) s { c with proc := .replying (some reply) }
  | deliver {reply : Option β} (proc : c.proc = .replying reply) :
      Act handle s k c .deliver s { c with proc := .returned reply }
  | drain {reply : β} (proc : ∀ r, c.proc ≠ .waiting r) (handler : c.handler = .finished reply) :
      Act handle s k c .drain s { c with handler := .taken reply }

variable {handle : σ → α → σ × β} {s s' : Net η ν σ α β} {k : ℕ} {c c' : Rpc η ν α β}
  {a : CallAction}

theorem callStep_act (h : s.callStep handle k c a = some (s', c')) : s.Act handle k c a s' c' := by
  unfold callStep at h
  split at h
  case h_1 hproc =>
    split at h
    · obtain ⟨rfl, rfl⟩ := Prod.mk.inj (Option.some.inj h)
      exact .accept hproc ‹_›
    · cases h
  case h_2 hproc =>
    split at h
    · obtain ⟨rfl, rfl⟩ := Prod.mk.inj (Option.some.inj h)
      exact .abandon hproc ‹_›
    · cases h
  case h_3 hproc =>
    split at h
    · obtain ⟨rfl, rfl⟩ := Prod.mk.inj (Option.some.inj h)
      exact .route hproc ‹_›
    · obtain ⟨rfl, rfl⟩ := Prod.mk.inj (Option.some.inj h)
      exact .unrouted hproc ‹_›
  case h_4 hproc =>
    obtain ⟨rfl, rfl⟩ := Prod.mk.inj (Option.some.inj h)
    exact .expire hproc
  case h_5 hproc =>
    obtain ⟨rfl, rfl⟩ := Prod.mk.inj (Option.some.inj h)
    exact .release hproc
  case h_6 hproc =>
    split at h
    · obtain ⟨rfl, rfl⟩ := Prod.mk.inj (Option.some.inj h)
      exact .dropRequest hproc ‹_›
    · cases h
  case h_7 hproc =>
    obtain ⟨rfl, rfl⟩ := Prod.mk.inj (Option.some.inj h)
    exact .dispatch hproc
  case h_8 hhandler =>
    obtain ⟨rfl, rfl⟩ := Prod.mk.inj (Option.some.inj h)
    exact .enter hhandler
  case h_9 hhandler =>
    obtain ⟨rfl, rfl⟩ := Prod.mk.inj (Option.some.inj h)
    exact .handle hhandler
  case h_10 hproc hhandler =>
    obtain ⟨rfl, rfl⟩ := Prod.mk.inj (Option.some.inj h)
    exact .collect hproc hhandler
  case h_11 hproc =>
    split at h
    · obtain ⟨rfl, rfl⟩ := Prod.mk.inj (Option.some.inj h)
      exact .dead hproc ‹_›
    · obtain ⟨rfl, rfl⟩ := Prod.mk.inj (Option.some.inj h)
      exact .alive hproc (Bool.eq_false_of_not_eq_true ‹_›)
  case h_12 drop delay r reply hproc =>
    cases reply with
    | none =>
      obtain ⟨rfl, rfl⟩ := Prod.mk.inj (Option.some.inj h)
      exact .refuse hproc
    | some reply =>
      simp only at h
      by_cases hdead : s.isServerDead c.endname r.servername r.server = true
      · rw [if_pos hdead] at h
        obtain ⟨rfl, rfl⟩ := Prod.mk.inj (Option.some.inj h)
        exact .killed hproc hdead
      · rw [if_neg hdead] at h
        have hdead := Bool.eq_false_of_not_eq_true hdead
        cases drop with
        | true =>
          rw [if_pos rfl] at h
          split at h
          · obtain ⟨rfl, rfl⟩ := Prod.mk.inj (Option.some.inj h)
            exact .dropReply hproc hdead ‹_›
          · cases h
        | false =>
          rw [if_neg (by decide)] at h
          cases delay with
          | true =>
            rw [if_pos rfl] at h
            split at h
            · obtain ⟨rfl, rfl⟩ := Prod.mk.inj (Option.some.inj h)
              exact .delay hproc hdead ‹_›
            · cases h
          | false =>
            rw [if_neg (by decide)] at h
            obtain ⟨rfl, rfl⟩ := Prod.mk.inj (Option.some.inj h)
            exact .answer hproc hdead
  case h_13 hproc =>
    obtain ⟨rfl, rfl⟩ := Prod.mk.inj (Option.some.inj h)
    exact .deliver hproc
  case h_14 => cases h
  case h_15 hhandler hproc =>
    obtain ⟨rfl, rfl⟩ := Prod.mk.inj (Option.some.inj h)
    exact .drain hproc hhandler
  case h_16 => cases h

/-! ### Steps of the network -/

variable [DecidableEq η] [DecidableEq ν]

/-- One step of the tests; `log.Fatalf` and a second `close` are a panic. -/
def configStep (s : Net η ν σ α β) : ConfigAction η ν → Except Halt (Net η ν σ α β)
  | .reliable yes => .ok { s with reliable := yes }
  | .longReordering yes => .ok { s with longReordering := yes }
  | .makeEnd e =>
    if s.ends e then .error .panic
    else .ok { s with
      ends := Function.update s.ends e true
      enabled := Function.update s.enabled e false
      connections := Function.update s.connections e none }
  | .deleteEnd e =>
    if s.ends e then .ok { s with
      ends := Function.update s.ends e false
      enabled := Function.update s.enabled e false
      connections := Function.update s.connections e none }
    else .error .panic
  | .addServer name rs => .ok { s with servers := Function.update s.servers name (some rs) }
  | .deleteServer name => .ok { s with servers := Function.update s.servers name none }
  | .connect e name => .ok { s with connections := Function.update s.connections e (some name) }
  | .enable e enabled => .ok { s with enabled := Function.update s.enabled e enabled }
  | .cleanup => if s.done then .error .panic else .ok { s with done := true }
  | .stop => if s.done ∧ s.receiving then .ok { s with receiving := false } else .error .disabled

/-- `Call` up to the send. -/
def startCall (s : Net η ν σ α β) (endname : η) (req : α) : Net η ν σ α β :=
  { s with calls := s.calls ++ [⟨endname, req, .sending, .idle⟩] }

def step (handle : σ → α → σ × β) (s : Net η ν σ α β) :
    Action η ν α → Except Halt (Net η ν σ α β)
  | .call endname req => .ok (s.startCall endname req)
  | .on k a =>
    match s.calls[k]? with
    | none => .error .disabled
    | some c =>
      match s.callStep handle k c a with
      | none => .error .disabled
      | some (s', c') => .ok { s' with calls := s.calls.set k c' }
  | .config a => s.configStep a

/-- All steps of the network. -/
inductive Move (handle : σ → α → σ × β) (s : Net η ν σ α β) :
    Action η ν α → Net η ν σ α β → Prop
  | call (endname : η) (req : α) : Move handle s (.call endname req) (s.startCall endname req)
  | on {k : ℕ} {c c' : Rpc η ν α β} {a : CallAction} {s' : Net η ν σ α β}
      (get : s.calls[k]? = some c) (act : s.Act handle k c a s' c') :
      Move handle s (.on k a) { s' with calls := s.calls.set k c' }
  | config {a : ConfigAction η ν} {s' : Net η ν σ α β} (config : s.configStep a = .ok s') :
      Move handle s (.config a) s'

theorem step_move {a : Action η ν α} (h : s.step handle a = .ok s') : s.Move handle a s' := by
  cases a with
  | call endname req =>
    obtain rfl := Except.ok.inj h
    exact .call endname req
  | on k a =>
    simp only [step] at h
    split at h
    · cases h
    · rename_i c hget
      split at h
      · cases h
      · rename_i s₁ c' hstep
        obtain rfl := Except.ok.inj h
        exact .on hget (callStep_act hstep)
  | config a => exact .config h

/-- All steps of the tests, with what has to hold before them. -/
inductive Config (s : Net η ν σ α β) : ConfigAction η ν → Net η ν σ α β → Prop
  | reliable (yes : Bool) : Config s (.reliable yes) { s with reliable := yes }
  | longReordering (yes : Bool) : Config s (.longReordering yes) { s with longReordering := yes }
  | makeEnd {e : η} (ends : s.ends e = false) : Config s (.makeEnd e) { s with
      ends := Function.update s.ends e true
      enabled := Function.update s.enabled e false
      connections := Function.update s.connections e none }
  | deleteEnd {e : η} (ends : s.ends e = true) : Config s (.deleteEnd e) { s with
      ends := Function.update s.ends e false
      enabled := Function.update s.enabled e false
      connections := Function.update s.connections e none }
  | addServer (name : ν) (rs : ℕ) :
      Config s (.addServer name rs) { s with servers := Function.update s.servers name (some rs) }
  | deleteServer (name : ν) :
      Config s (.deleteServer name) { s with servers := Function.update s.servers name none }
  | connect (e : η) (name : ν) :
      Config s (.connect e name)
        { s with connections := Function.update s.connections e (some name) }
  | enable (e : η) (enabled : Bool) :
      Config s (.enable e enabled) { s with enabled := Function.update s.enabled e enabled }
  | cleanup (done : s.done = false) : Config s .cleanup { s with done := true }
  | stop (done : s.done = true) (receiving : s.receiving = true) :
      Config s .stop { s with receiving := false }

theorem configStep_config {a : ConfigAction η ν} (h : s.configStep a = .ok s') : s.Config a s' := by
  cases a with
  | reliable yes =>
    obtain rfl := Except.ok.inj h
    exact .reliable yes
  | longReordering yes =>
    obtain rfl := Except.ok.inj h
    exact .longReordering yes
  | makeEnd e =>
    simp only [configStep] at h
    split at h
    · cases h
    · obtain rfl := Except.ok.inj h
      exact .makeEnd (Bool.eq_false_of_not_eq_true ‹_›)
  | deleteEnd e =>
    simp only [configStep] at h
    split at h
    · obtain rfl := Except.ok.inj h
      exact .deleteEnd ‹_›
    · cases h
  | addServer name rs =>
    obtain rfl := Except.ok.inj h
    exact .addServer name rs
  | deleteServer name =>
    obtain rfl := Except.ok.inj h
    exact .deleteServer name
  | connect e name =>
    obtain rfl := Except.ok.inj h
    exact .connect e name
  | enable e enabled =>
    obtain rfl := Except.ok.inj h
    exact .enable e enabled
  | cleanup =>
    simp only [configStep] at h
    split at h
    · cases h
    · obtain rfl := Except.ok.inj h
      exact .cleanup (Bool.eq_false_of_not_eq_true ‹_›)
  | stop =>
    simp only [configStep] at h
    split at h
    · rename_i hdone
      obtain rfl := Except.ok.inj h
      exact .stop hdone.1 hdone.2
    · cases h

/-- The tests do not touch the servers' objects or the calls. -/
theorem configStep_frame {a : ConfigAction η ν} (h : s.configStep a = .ok s') :
    s'.calls = s.calls ∧ s'.objects = s.objects ∧ s'.executed = s.executed ∧
      s'.served = s.served := by
  cases configStep_config h <;> exact ⟨rfl, rfl, rfl, rfl⟩

end Net

end DistLabs.Labrpc
