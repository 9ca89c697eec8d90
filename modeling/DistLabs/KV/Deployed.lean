import DistLabs.KV.Checked
import DistLabs.Labrpc.Calm

/-! # The clerks over the network

    The clerks of `kvsrv/client.go` call the server through `labrpc`, as `kvsrv/config.go` sets it
    up: every clerk has an end of its own and there is one server. The loops of `Get` and
    `PutAppend` repeat `Call` until it returns true. This refines the system of clerks and server in
    which an attempt is one request and one reply: a `Call` that returns false has lost one of
    them. -/

namespace DistLabs.KV

open Labrpc

/-- The arguments of an RPC, with the method it is for. -/
structure Request where
  clientId : ℤ
  seq : ℤ
  op : KVOp
  deriving DecidableEq

/-- The method of the server for a request. -/
def KVServer.serve (kv : KVServer) (req : Request) : KVServer × String :=
  kv.call req.clientId req.seq req.op

/-- Where a clerk is: between calls, or in its loop, waiting for a `Call`. -/
inductive Loop where
  | idle
  | calling (op : KVOp) (k : ℕ)
  deriving DecidableEq

structure Caller where
  seq : ℤ
  loop : Loop
  deriving DecidableEq

/-- The network and the clerks, named by their `clientId`. No step reads `history`. -/
structure Deployment (η ν : Type) where
  net : Net η ν KVServer Request String
  callers : ℤ → Caller
  history : List (CallEvent (ℤ × ℤ) KVOp String)

inductive DeployAction (η ν : Type) where
  /-- `Get`, `Put` or `Append` of a clerk -/
  | invoke (c : ℤ) (op : KVOp)
  /-- the clerk goes on when its `Call` has returned -/
  | resume (c : ℤ)
  | on (k : ℕ) (a : CallAction)
  | config (a : ConfigAction η ν)

/-! ### What a clerk sees of its call -/

/-- The reply the handler has given. -/
def reply (g : Handler String) : Option String :=
  match g with
  | .finished value | .taken value => some value
  | _ => none

section Calls

variable {η ν : Type} {net net' : Net η ν KVServer Request String} {k : ℕ}
  {c c' : Rpc η ν Request String} {a : CallAction}

/-- The reply the handler of call `k` has given. -/
def replyOf (net : Net η ν KVServer Request String) (k : ℕ) : Option String :=
  net.calls[k]?.bind fun c => reply c.handler

theorem replyOf_of_get (h : net.calls[k]? = some c) : replyOf net k = reply c.handler := by
  rw [replyOf, h, Option.bind_some]

/-- A call keeps its request, and stays returned. -/
structure Continues (c c' : Rpc η ν Request String) : Prop where
  req : c'.req = c.req
  returned : ∀ value, c.proc = .returned value → c'.proc = .returned value

theorem continues_of_act (h : net.Act KVServer.serve k c a net' c') : Continues c c' := by
  cases h with
  | enter | handle | drain | alive => exact ⟨rfl, fun _ h => h⟩
  | accept proc | abandon proc | route proc | unrouted proc | expire proc | release proc
  | dropRequest proc | dispatch proc | collect proc | dead proc | refuse proc
  | killed proc | dropReply proc | delay proc | answer proc | deliver proc =>
    refine ⟨rfl, fun value h => ?_⟩
    rw [proc] at h
    cases h

theorem Continues.refl (c : Rpc η ν Request String) : Continues c c := ⟨rfl, fun _ h => h⟩

/-- The same calls are there. -/
structure SameCalls (net net' : Net η ν KVServer Request String) : Prop where
  from_old : ∀ (k : ℕ) c, net.calls[k]? = some c → ∃ c', net'.calls[k]? = some c' ∧ Continues c c'
  to_old : ∀ (k : ℕ) c', net'.calls[k]? = some c' → ∃ c, net.calls[k]? = some c ∧ Continues c c'

theorem sameCalls_of_eq (h : net'.calls = net.calls) : SameCalls net net' := by
  refine ⟨fun k c hget => ⟨c, ?_, .refl c⟩, fun k c hget => ⟨c, ?_, .refl c⟩⟩
  · rwa [h]
  · rwa [← h]

theorem sameCalls_of_set (hget : net.calls[k]? = some c) (hcont : Continues c c')
    (h : net'.calls = net.calls.set k c') : SameCalls net net' := by
  have hk : k < net.calls.length := (List.getElem?_eq_some_iff.mp hget).1
  constructor
  · intro j d hd
    rw [h]
    by_cases hj : k = j
    · subst hj
      obtain rfl := Option.some.inj (hget.symm.trans hd)
      exact ⟨c', List.getElem?_set_self hk, hcont⟩
    · exact ⟨d, (List.getElem?_set_ne hj).trans hd, .refl d⟩
  · intro j d hd
    rw [h] at hd
    by_cases hj : k = j
    · subst hj
      rw [List.getElem?_set_self hk] at hd
      obtain rfl := Option.some.inj hd
      exact ⟨c, hget, hcont⟩
    · exact ⟨d, (List.getElem?_set_ne hj).symm.trans hd, .refl d⟩

/-- Either the handler runs or the clerk sees no difference. -/
theorem reply_of_act (h : net.Act KVServer.serve k c a net' c')
    (hproc : ProcInv c.handler c.proc) :
    (net'.objects = net.objects ∧ reply c'.handler = reply c.handler) ∨
    ∃ p, c.handler = .entered p ∧
      reply c'.handler = some ((net.objects p).serve c.req).2 ∧
      net'.objects = Function.update net.objects p ((net.objects p).serve c.req).1 := by
  cases h with
  | handle handler => exact .inr ⟨_, handler, rfl, rfl⟩
  | dispatch proc =>
    rw [proc] at hproc
    have hidle : c.handler = .idle := hproc
    exact .inl ⟨rfl, by rw [hidle]; rfl⟩
  | enter handler | collect _ handler | drain _ handler => exact .inl ⟨rfl, by rw [handler]; rfl⟩
  | _ => exact .inl ⟨rfl, rfl⟩

end Calls

namespace Deployment

variable {η ν : Type}

def init : Deployment η ν := ⟨.makeNetwork fun _ => .start, fun _ => ⟨0, .idle⟩, []⟩

/-- The next round of the loop of clerk `c`. -/
def send (s : Deployment η ν) (endname : η) (c seq : ℤ) (op : KVOp) : Deployment η ν :=
  { s with
    net := s.net.startCall endname ⟨c, seq, op⟩
    callers := Function.update s.callers c ⟨seq, .calling op s.net.calls.length⟩ }

/-- A clerk is called, or returns. -/
def record (s : Deployment η ν) (ev : CallEvent (ℤ × ℤ) KVOp String) : Deployment η ν :=
  { s with history := s.history ++ [ev] }

/-- The clerk of client `c` returns `value`. -/
def finish (s : Deployment η ν) (c : ℤ) (value : String) : Deployment η ν :=
  record { s with callers := Function.update s.callers c ⟨(s.callers c).seq, .idle⟩ }
    (.res (c, (s.callers c).seq) value)

variable [DecidableEq η] [DecidableEq ν]

/-- One step; `ends c` is the end of the clerk of client `c`. -/
def step (ends : ℤ → η) (s : Deployment η ν) : DeployAction η ν → Except Halt (Deployment η ν)
  | .invoke c op =>
    match (s.callers c).loop with
    | .idle =>
      let seq := (s.callers c).seq + 1
      .ok ((s.send (ends c) c seq op).record (.inv (c, seq) op))
    | .calling _ _ => .error .disabled
  | .resume c =>
    match (s.callers c).loop with
    | .idle => .error .disabled
    | .calling op k =>
      match s.net.calls[k]?.map Rpc.proc with
      | some (.returned none) => .ok (s.send (ends c) c (s.callers c).seq op)
      | some (.returned (some value)) => .ok (s.finish c value)
      | _ => .error .disabled
  | .on k a => (s.net.step KVServer.serve (.on k a)).map fun net => { s with net := net }
  | .config a => (s.net.step KVServer.serve (.config a)).map fun net => { s with net := net }

/-- All steps, with what has to hold before them. -/
inductive Move (ends : ℤ → η) (s : Deployment η ν) : DeployAction η ν → Deployment η ν → Prop
  | invoke {c : ℤ} (op : KVOp) (loop : (s.callers c).loop = .idle) :
      Move ends s (.invoke c op) ((s.send (ends c) c ((s.callers c).seq + 1) op).record
        (.inv (c, (s.callers c).seq + 1) op))
  | again {c : ℤ} {op : KVOp} {k : ℕ} {r : Rpc η ν Request String}
      (loop : (s.callers c).loop = .calling op k) (get : s.net.calls[k]? = some r)
      (proc : r.proc = .returned none) :
      Move ends s (.resume c) (s.send (ends c) c (s.callers c).seq op)
  | finish {c : ℤ} {op : KVOp} {k : ℕ} {r : Rpc η ν Request String} {value : String}
      (loop : (s.callers c).loop = .calling op k) (get : s.net.calls[k]? = some r)
      (proc : r.proc = .returned (some value)) : Move ends s (.resume c) (s.finish c value)
  | on {k : ℕ} {a : CallAction} {net : Net η ν KVServer Request String}
      (step : s.net.step KVServer.serve (.on k a) = .ok net) :
      Move ends s (.on k a) { s with net := net }
  | config {a : ConfigAction η ν} {net : Net η ν KVServer Request String}
      (step : s.net.step KVServer.serve (.config a) = .ok net) :
      Move ends s (.config a) { s with net := net }

variable {ends : ℤ → η} {s s' : Deployment η ν} {e : DeployAction η ν}

theorem step_move (h : s.step ends e = .ok s') : s.Move ends e s' := by
  cases e with
  | invoke c op =>
    simp only [step] at h
    split at h
    · rename_i hloop
      obtain rfl := Except.ok.inj h
      exact .invoke op hloop
    · cases h
  | resume c =>
    simp only [step] at h
    split at h
    · cases h
    · rename_i op k hloop
      split at h
      · rename_i hproc
        obtain ⟨r, hget, hproc⟩ := Option.map_eq_some_iff.mp hproc
        obtain rfl := Except.ok.inj h
        exact .again hloop hget hproc
      · rename_i value hproc
        obtain ⟨r, hget, hproc⟩ := Option.map_eq_some_iff.mp hproc
        obtain rfl := Except.ok.inj h
        exact .finish hloop hget hproc
      · cases h
  | on k a =>
    simp only [step] at h
    cases hnet : s.net.step KVServer.serve (.on k a) with
    | error => rw [hnet] at h; cases h
    | ok net =>
      rw [hnet] at h
      obtain rfl := Except.ok.inj h
      exact .on hnet
  | config a =>
    simp only [step] at h
    cases hnet : s.net.step KVServer.serve (.config a) with
    | error => rw [hnet] at h; cases h
    | ok net =>
      rw [hnet] at h
      obtain rfl := Except.ok.inj h
      exact .config hnet

/-! ### The invariant -/

/-- The calls of the network and the loops of the clerks fit together: a clerk waits for its call,
    and a call that has not returned is one a clerk waits for. -/
structure Inv (s : Deployment η ν) : Prop where
  net : s.net.Inv KVServer.serve fun _ => .start
  calm : ∀ r ∈ s.net.calls, s.net.Calm r
  server : s.net.OnlyServer 0
  current : ∀ c op k, (s.callers c).loop = .calling op k →
    ∃ r, s.net.calls[k]? = some r ∧ r.req = ⟨c, (s.callers c).seq, op⟩
  pending : ∀ (k : ℕ) (r : Rpc η ν Request String), s.net.calls[k]? = some r →
    (∀ reply, r.proc ≠ .returned reply) →
    s.callers r.req.clientId = ⟨r.req.seq, .calling r.req.op k⟩

omit [DecidableEq η] [DecidableEq ν] in
theorem inv_init : (init : Deployment η ν).Inv where
  net := Net.inv_makeNetwork _ _
  calm r hr := by simp [init, Net.makeNetwork] at hr
  server := ⟨by simp [init, Net.makeNetwork], by simp [init, Net.makeNetwork]⟩
  current c op k h := by simp [init] at h
  pending k r h := by simp [init, Net.makeNetwork] at h

/-- There is one server, and the tests do not switch off what a call needs. -/
def allows (s : Deployment η ν) : DeployAction η ν → Bool
  | .config a => s.net.keeps (.config a) && Net.addsOnly (α := Request) 0 (.config a)
  | _ => true

omit [DecidableEq η] [DecidableEq ν] in
theorem Inv.record (h : s.Inv) (ev : CallEvent (ℤ × ℤ) KVOp String) : (s.record ev).Inv :=
  ⟨h.net, h.calm, h.server, h.current, h.pending⟩

/-- A clerk sends when no call of its own is under way. -/
theorem Inv.send (h : s.Inv) {c : ℤ} (seq : ℤ) (op : KVOp) (endname : η)
    (hfree : ∀ (k : ℕ) (r : Rpc η ν Request String), s.net.calls[k]? = some r →
      (∀ value, r.proc ≠ .returned value) → r.req.clientId ≠ c) :
    (s.send endname c seq op).Inv := by
  have hs : s.net.step KVServer.serve (.call endname ⟨c, seq, op⟩) =
      .ok (s.send endname c seq op).net := rfl
  refine ⟨Net.inv_step h.net hs, Net.calm_step h.net h.calm rfl hs, h.server.step rfl hs, ?_, ?_⟩
  · intro d op' k hloop
    by_cases hd : d = c
    · subst hd
      simp only [Deployment.send, Function.update_self, Loop.calling.injEq] at hloop ⊢
      obtain ⟨rfl, rfl⟩ := hloop
      exact ⟨_, List.getElem?_concat_length, rfl⟩
    · simp only [Deployment.send, Function.update_of_ne hd] at hloop ⊢
      obtain ⟨r, hget, hreq⟩ := h.current d op' k hloop
      exact ⟨r, (List.getElem?_append_left (List.getElem?_eq_some_iff.mp hget).1).trans hget, hreq⟩
  · intro k r hget hproc
    rcases Slice.getElem?_concat_eq_some hget with hget | ⟨rfl, rfl⟩
    · simp only [Deployment.send, Function.update_of_ne (hfree k r hget hproc)]
      exact h.pending k r hget hproc
    · simp only [Deployment.send, Function.update_self]

omit [DecidableEq η] [DecidableEq ν] in
/-- A clerk that is not in a loop has no call under way. -/
theorem Inv.free_of_idle (h : s.Inv) {c : ℤ} (hloop : (s.callers c).loop = .idle) {k : ℕ}
    {r : Rpc η ν Request String} (hget : s.net.calls[k]? = some r)
    (hproc : ∀ value, r.proc ≠ .returned value) : r.req.clientId ≠ c := by
  rintro rfl
  rw [h.pending k r hget hproc] at hloop
  cases hloop

omit [DecidableEq η] [DecidableEq ν] in
/-- A clerk whose call has returned has no other call under way. -/
theorem Inv.free_of_returned (h : s.Inv) {c : ℤ} {op : KVOp} {j : ℕ}
    (hloop : (s.callers c).loop = .calling op j) {q : Rpc η ν Request String}
    (hq : s.net.calls[j]? = some q) {value : Option String} (hreturned : q.proc = .returned value)
    {k : ℕ} {r : Rpc η ν Request String} (hget : s.net.calls[k]? = some r)
    (hproc : ∀ value, r.proc ≠ .returned value) : r.req.clientId ≠ c := by
  rintro rfl
  rw [h.pending k r hget hproc] at hloop
  obtain ⟨-, rfl⟩ := Loop.calling.inj hloop
  obtain rfl := Option.some.inj (hget.symm.trans hq)
  exact hproc value hreturned

/-- The network makes a step; the clerks see the same calls as before. -/
theorem Inv.netStep (h : s.Inv) {e : Action η ν Request} (hkeeps : s.net.keeps e = true)
    (hadds : Net.addsOnly 0 e = true) {net : Net η ν KVServer Request String}
    (hs : s.net.step KVServer.serve e = .ok net)
    (hsame : SameCalls s.net net) : Inv { s with net := net } := by
  refine ⟨Net.inv_step h.net hs, Net.calm_step h.net h.calm hkeeps hs, h.server.step hadds hs,
    ?_, ?_⟩
  · intro c op k hloop
    obtain ⟨r, hget, hreq⟩ := h.current c op k hloop
    obtain ⟨r', hget', hcont⟩ := hsame.from_old k r hget
    exact ⟨r', hget', hcont.req.trans hreq⟩
  · intro k r' hget' hproc
    obtain ⟨r, hget, hcont⟩ := hsame.to_old k r' hget'
    rw [hcont.req]
    exact h.pending k r hget fun value hvalue => hproc value (hcont.returned value hvalue)

theorem sameCalls_of_step {k : ℕ} {a : CallAction} {net net' : Net η ν KVServer Request String}
    (hs : net.step KVServer.serve (.on k a) = .ok net') : SameCalls net net' := by
  cases Net.step_move hs with
  | on hget hact => exact sameCalls_of_set hget (continues_of_act hact) rfl

omit [DecidableEq η] [DecidableEq ν] in
/-- A clerk leaves its loop. -/
theorem Inv.finish (h : s.Inv) {c : ℤ} (value : String)
    (hfree : ∀ (k : ℕ) (r : Rpc η ν Request String), s.net.calls[k]? = some r →
      (∀ value, r.proc ≠ .returned value) → r.req.clientId ≠ c) : (s.finish c value).Inv := by
  have hidle :
      Inv { s with callers := Function.update s.callers c ⟨(s.callers c).seq, .idle⟩ } := by
    refine ⟨h.net, h.calm, h.server, ?_, ?_⟩
    · intro d op k hloop
      by_cases hd : d = c
      · subst hd
        simp at hloop
      · simp only [Function.update_of_ne hd] at hloop ⊢
        exact h.current d op k hloop
    · intro k r hget hproc
      simp only [Function.update_of_ne (hfree k r hget hproc)]
      exact h.pending k r hget hproc
  exact hidle.record _

theorem inv_step (h : s.Inv) (hallows : s.allows e = true) (hs : s.step ends e = .ok s') :
    s'.Inv := by
  cases step_move hs with
  | invoke op hloop => exact (h.send _ op _ fun k r => h.free_of_idle hloop).record _
  | again hloop hget hreturned =>
    exact h.send _ _ _ fun k r => h.free_of_returned hloop hget hreturned
  | finish hloop hget hreturned =>
    exact h.finish _ fun k r => h.free_of_returned hloop hget hreturned
  | on hnet => exact h.netStep rfl rfl hnet (sameCalls_of_step hnet)
  | config hnet =>
    rw [allows, Bool.and_eq_true] at hallows
    refine h.netStep hallows.1 hallows.2 hnet ?_
    cases Net.step_move hnet with
    | config hconfig => exact sameCalls_of_eq (Net.configStep_frame hconfig).1

/-! ### The refinement -/

/-- Where the clerk is in terms of requests and replies. -/
def phase (net : Net η ν KVServer Request String) : Loop → Phase
  | .idle => .idle
  | .calling op k =>
    match replyOf net k with
    | none => .sent op
    | some value => .answered op value

structure Refines (s : Deployment η ν) (t : KVSystem) : Prop where
  kv : t.kv = s.net.objects 0
  clerks : ∀ c, t.clerks c = ⟨(s.callers c).seq, phase s.net (s.callers c).loop⟩
  history : t.history = s.history

section Clerks

variable {t : KVSystem}

omit [DecidableEq η] [DecidableEq ν]

theorem phase_congr {net net' : Net η ν KVServer Request String} {l : Loop}
    (h : ∀ op k, l = .calling op k → replyOf net' k = replyOf net k) :
    phase net' l = phase net l := by
  cases l with
  | idle => rfl
  | calling op k => rw [phase, phase, h op k rfl]

/-- A new round of the loop of clerk `c` is a request on its way. -/
theorem Refines.clerks_send (h : s.Refines t) (hinv : s.Inv) (endname : η) (c seq : ℤ) (op : KVOp)
    (ev : KVEvent) (d : ℤ) : (t.advance c ⟨seq, .sent op⟩ t.kv ev).clerks d =
      ⟨((s.send endname c seq op).callers d).seq,
        phase (s.send endname c seq op).net ((s.send endname c seq op).callers d).loop⟩ := by
  by_cases hd : d = c
  · subst hd
    have hnew : replyOf (s.send endname d seq op).net s.net.calls.length = none := by
      simp [replyOf, Deployment.send, Net.startCall, reply]
    have hcaller : (s.send endname d seq op).callers d = ⟨seq, .calling op s.net.calls.length⟩ :=
      Function.update_self ..
    rw [KVSystem.advance_clerks_self, hcaller, phase, hnew]
  · have hcaller : (s.send endname c seq op).callers d = s.callers d := Function.update_of_ne hd ..
    rw [KVSystem.advance_clerks_of_ne hd, hcaller, h.clerks d]
    refine congrArg _ (phase_congr fun op' k hloop => ?_).symm
    -- the call the other clerk waits for was there before
    obtain ⟨r, hget, -⟩ := hinv.current d op' k hloop
    rw [replyOf_of_get hget]
    exact replyOf_of_get
      ((List.getElem?_append_left (List.getElem?_eq_some_iff.mp hget).1).trans hget)

theorem Refines.invoke (h : s.Refines t) (hinv : s.Inv) (endname : η) {c : ℤ} (op : KVOp)
    (hloop : (s.callers c).loop = .idle) : ∃ t', t.step (c, .invoke op) = .ok t' ∧
      ((s.send endname c ((s.callers c).seq + 1) op).record
        (.inv (c, (s.callers c).seq + 1) op)).Refines t' := by
  have hclerk : t.clerks c = ⟨(s.callers c).seq, .idle⟩ := by
    rw [h.clerks c, hloop, phase]
  refine ⟨t.advance c ⟨(s.callers c).seq + 1, .sent op⟩ t.kv
    (.invoke c ((s.callers c).seq + 1) op), by simp only [KVSystem.step, hclerk],
    h.kv, h.clerks_send hinv _ _ _ _ _, ?_⟩
  rw [KVSystem.history_concat rfl, h.history]
  rfl

/-- The request or the reply was lost. -/
theorem Refines.again (h : s.Refines t) (hinv : s.Inv) (endname : η) {c : ℤ} {op : KVOp} {k : ℕ}
    {r : Rpc η ν Request String} (hloop : (s.callers c).loop = .calling op k)
    (hget : s.net.calls[k]? = some r) :
    ∃ a t', t.step (c, a) = .ok t' ∧ (a = .dropReply → r.handler ≠ .idle) ∧
      (s.send endname c (s.callers c).seq op).Refines t' := by
  have hrefines : (s.send endname c (s.callers c).seq op).Refines
      (t.advance c ⟨(s.callers c).seq, .sent op⟩ t.kv (.lost c (s.callers c).seq)) := by
    refine ⟨h.kv, h.clerks_send hinv _ _ _ _ _, ?_⟩
    rw [KVSystem.history_concat rfl, h.history]
    exact List.append_nil _
  cases hreply : replyOf s.net k with
  | none =>
    have hclerk : t.clerks c = ⟨(s.callers c).seq, .sent op⟩ := by
      rw [h.clerks c, hloop, phase, hreply]
    exact ⟨.dropRequest, _, by simp only [KVSystem.step, hclerk], by simp, hrefines⟩
  | some value =>
    have hclerk : t.clerks c = ⟨(s.callers c).seq, .answered op value⟩ := by
      rw [h.clerks c, hloop, phase, hreply]
    refine ⟨.dropReply, _, by simp only [KVSystem.step, hclerk], fun _ hidle => ?_, hrefines⟩
    rw [replyOf_of_get hget, hidle] at hreply
    cases hreply

theorem Refines.finish (h : s.Refines t) (hinv : s.Inv) {c : ℤ} {op : KVOp} {k : ℕ}
    {r : Rpc η ν Request String} {value : String} (hloop : (s.callers c).loop = .calling op k)
    (hget : s.net.calls[k]? = some r) (hproc : r.proc = .returned (some value)) :
    ∃ t', t.step (c, .ret) = .ok t' ∧ (s.finish c value).Refines t' := by
  have htaken : r.handler = .taken value := by
    have := (hinv.net.calls k r hget).proc
    rwa [hproc] at this
  have hclerk : t.clerks c = ⟨(s.callers c).seq, .answered op value⟩ := by
    rw [h.clerks c, hloop, phase, replyOf_of_get hget, htaken]
    rfl
  refine ⟨t.advance c ⟨(s.callers c).seq, .idle⟩ t.kv (.ret c (s.callers c).seq op value),
    by simp only [KVSystem.step, hclerk], h.kv, fun d => ?_, ?_⟩
  · by_cases hd : d = c
    · subst hd
      simp [Deployment.finish, record, phase]
    · rw [KVSystem.advance_clerks_of_ne hd, h.clerks d]
      simp [Deployment.finish, record, Function.update_of_ne hd]
  · rw [KVSystem.history_concat rfl, h.history]
    rfl

/-- A step of a call is the execution of a request, or no step. -/
theorem Refines.act (h : s.Refines t) (hinv : s.Inv) {k : ℕ} {r r' : Rpc η ν Request String}
    {a : CallAction} {net : Net η ν KVServer Request String} (hget : s.net.calls[k]? = some r)
    (hact : s.net.Act KVServer.serve k r a net r') :
    Refines { s with net := { net with calls := s.net.calls.set k r' } } t ∨
    ∃ c t', t.step (c, .exec) = .ok t' ∧
      Refines { s with net := { net with calls := s.net.calls.set k r' } } t' := by
  have hk : k < s.net.calls.length := (List.getElem?_eq_some_iff.mp hget).1
  set net' : Net η ν KVServer Request String :=
    { net with calls := s.net.calls.set k r' } with hnet'
  have hself : replyOf net' k = reply r'.handler := replyOf_of_get (List.getElem?_set_self hk)
  have hother : ∀ j, j ≠ k → replyOf net' j = replyOf s.net j := by
    intro j hj
    rw [replyOf, replyOf, hnet', List.getElem?_set_ne (Ne.symm hj)]
  rcases reply_of_act hact (hinv.net.calls k r hget).proc with ⟨hobjects, hreply⟩ | hrun
  · left
    refine ⟨h.kv.trans (congrFun hobjects.symm 0), fun c => ?_, h.history⟩
    rw [h.clerks c]
    refine congrArg _ (phase_congr fun op j _ => ?_).symm
    by_cases hj : j = k
    · rw [hj, hself, hreply, replyOf_of_get hget]
    · exact hother j hj
  · right
    obtain ⟨p, hhandler, hreply, hobjects⟩ := hrun
    obtain rfl : p = 0 := (hinv.server.calls r (List.mem_of_getElem? hget)).entered p hhandler
    have hcaller : s.callers r.req.clientId = ⟨r.req.seq, .calling r.req.op k⟩ := by
      refine hinv.pending k r hget fun value hreturned => ?_
      refine (hinv.calm r (List.mem_of_getElem? hget)).not_running (hinv.net.calls k r hget).proc
        hreturned ?_
      rw [hhandler]
      trivial
    have hclerk : t.clerks r.req.clientId = ⟨r.req.seq, .sent r.req.op⟩ := by
      rw [h.clerks, hcaller, phase, replyOf_of_get hget, hhandler]
      rfl
    refine ⟨r.req.clientId, t.advance r.req.clientId
      ⟨r.req.seq, .answered r.req.op (t.kv.serve r.req).2⟩ (t.kv.serve r.req).1
      (.exec ⟨r.req.clientId, r.req.seq, r.req.op, t.kv⟩),
      by simp only [KVSystem.step, hclerk, KVServer.serve], ?_, fun d => ?_, ?_⟩
    · rw [KVSystem.advance_kv, h.kv]
      exact ((congrFun hobjects 0).trans (Function.update_self ..)).symm
    · by_cases hd : d = r.req.clientId
      · subst hd
        rw [KVSystem.advance_clerks_self, hcaller, phase, hself, hreply, h.kv]
      · rw [KVSystem.advance_clerks_of_ne hd, h.clerks d]
        refine congrArg _ (phase_congr fun op j hloop => ?_).symm
        -- the other clerk waits for another call
        refine hother j fun hj => hd ?_
        obtain ⟨q, hq, hreq⟩ := hinv.current d op j hloop
        obtain rfl := Option.some.inj (hget.symm.trans (hj ▸ hq))
        rw [hreq]
    · rw [KVSystem.history_concat rfl, h.history]
      exact List.append_nil _

end Clerks

/-- A step of the deployment is a step of the clerks and the server, or none. -/
theorem Refines.step {t : KVSystem} (h : s.Refines t) (hinv : s.Inv)
    (hs : s.step ends e = .ok s') : s'.Refines t ∨ ∃ c a t', t.step (c, a) = .ok t' ∧
      (a = .dropReply → ∃ r ∈ s.net.calls, r.proc = .returned none ∧ r.handler ≠ .idle) ∧
      s'.Refines t' := by
  cases step_move hs with
  | invoke op hloop =>
    obtain ⟨t', ht, href⟩ := h.invoke hinv (ends _) op hloop
    exact .inr ⟨_, _, t', ht, by simp, href⟩
  | again hloop hget hproc =>
    obtain ⟨a, t', ht, hdrop, href⟩ := h.again hinv (ends _) hloop hget
    exact .inr ⟨_, a, t', ht, fun ha => ⟨_, List.mem_of_getElem? hget, hproc, hdrop ha⟩, href⟩
  | finish hloop hget hproc =>
    obtain ⟨t', ht, href⟩ := h.finish hinv hloop hget hproc
    exact .inr ⟨_, _, t', ht, by simp, href⟩
  | on hnet =>
    cases Net.step_move hnet with
    | on hget hact =>
      rcases h.act hinv hget hact with href | ⟨c, t', ht, href⟩
      · exact .inl href
      · exact .inr ⟨c, _, t', ht, by simp, href⟩
  | config hnet =>
    cases Net.step_move hnet with
    | config hconfig =>
      obtain ⟨hcalls, hobjects, -, -⟩ := Net.configStep_frame hconfig
      refine .inl ⟨h.kv.trans (congrFun hobjects.symm 0), fun c => ?_, h.history⟩
      rw [h.clerks c]
      refine congrArg _ (phase_congr fun op k _ => ?_).symm
      rw [replyOf, hcalls, replyOf]

omit [DecidableEq η] [DecidableEq ν] in
theorem refines_init : (init : Deployment η ν).Refines KVSystem.init := ⟨rfl, fun _ => rfl, rfl⟩

/-- The clerks over the network do what the clerks do that exchange single requests and replies with
    the server: the data and the history are those of a run of theirs. -/
theorem deployment_refines (h : Run (step ends) (fun s e => s.allows e = true) init s) :
    ∃ t, Run KVSystem.step (fun _ _ => True) KVSystem.init t ∧ t.kv = s.net.objects 0 ∧
      t.history = s.history := by
  obtain ⟨-, t, ht, href⟩ := h.invariant
    (P := fun s => s.Inv ∧ ∃ t, Run KVSystem.step (fun _ _ => True) KVSystem.init t ∧ s.Refines t)
    ⟨inv_init, _, .refl, refines_init⟩ fun s s' e ⟨hinv, t, ht, href⟩ hallows hs => by
      refine ⟨inv_step hinv hallows hs, ?_⟩
      rcases href.step hinv hs with href' | ⟨c, a, t', hstep, -, href'⟩
      · exact ⟨t, ht, href'⟩
      · exact ⟨t', ht.tail trivial hstep, href'⟩
  exact ⟨t, ht, href.kv, href.history⟩

/-- The end of client `c` is `c`, and the server has the name 0. -/
def oneClerk : List (DeployAction ℤ ℕ) :=
  [.config (.addServer 0 0), .config (.makeEnd 1), .config (.connect 1 0), .config (.enable 1 true),
    .config (.reliable false), .invoke 1 (.append "x" "a"), .on 0 .accept, .on 0 .route,
    .on 0 .dropRequest, .on 0 .deliver, .resume 1, .on 1 .accept, .on 1 .route, .on 1 .dispatch,
    .on 1 .enter, .on 1 .handle, .on 1 .collect, .on 1 (.answer true false), .on 1 .deliver,
    .resume 1, .on 2 .accept, .on 2 .route, .on 2 .dispatch, .on 2 .enter, .on 2 .handle,
    .on 2 .collect, .on 2 (.answer false false), .on 2 .deliver, .resume 1,
    .config (.deleteEnd 1)]

theorem deployment_refines_oneClerk :
    ∃ s : Deployment ℤ ℕ, Run (step id) (fun s e => s.allows e = true) init s ∧
      (s.net.objects 0).read "x" = "a" ∧
      s.history = [.inv (1, 1) (.append "x" "a"), .res (1, 1) ""] ∧
      ∃ t, Run KVSystem.step (fun _ _ => True) KVSystem.init t ∧ t.kv = s.net.objects 0 ∧
        t.history = s.history := by
  obtain ⟨s, hrun, hread, hhistory⟩ :=
    exists_run_of_play (step id) (fun s e => s.allows e = true) (init : Deployment ℤ ℕ) oneClerk
      (fun s => (s.net.objects 0).read "x" = "a" ∧
        s.history = [.inv (1, 1) (.append "x" "a"), .res (1, 1) ""])
      (by decide +kernel)
  exact ⟨s, hrun, hread, hhistory, deployment_refines hrun⟩

end Deployment

/-! ### A reliable network -/

namespace KVSystem

variable {s s' : KVSystem} {c : ℤ}

/-- The request that is under way has not been executed before. -/
def FirstTry (s : KVSystem) (c : ℤ) : Prop :=
  ∀ op, (s.clerks c).phase = .sent op → s.effects c (s.clerks c).seq = []

theorem FirstTry.putsSettled (h : s.FirstTry c) (a : KVAction) : s.PutsSettled (c, a) := by
  unfold PutsSettled
  split
  · rename_i hphase
    exact .inr (.inl (h _ hphase))
  · trivial

theorem FirstTry.advance_of_ne (h : s.FirstTry c) {d : ℤ} (hne : c ≠ d) {ck : Clerk}
    {kv : KVServer} {ev : KVEvent} (hev : ev.client = d) : (s.advance d ck kv ev).FirstTry c := by
  intro op hphase
  rw [advance_clerks_of_ne hne] at hphase ⊢
  rw [effects_frame rfl (KVEvent.effect_eq_none fun hc => absurd (hc.symm.trans hev) hne)]
  exact h op hphase

theorem firstTry_step {e : ℤ × KVAction} (hI : ∀ c, s.CallInv c) (h : ∀ c, s.FirstTry c)
    (he : e.2 ≠ .dropReply) (hmove : s.Move e s') (c : ℤ) : s'.FirstTry c := by
  by_cases hc : c = e.1
  · subst hc
    cases hmove with
    | invoke op phase =>
      rename_i c
      intro op' _
      -- the sequence number is a new one
      rw [advance_clerks_self, effects_frame rfl rfl, effects, List.filterMap_eq_nil_iff]
      intro ev hev
      refine KVEvent.effect_eq_none fun hclient hseq => ?_
      have hseq : ev.seq = (s.clerks c).seq + 1 := hseq
      have hseen := (hI c).seen ev hev hclient
      omega
    | dropRequest phase =>
      intro op' _
      rw [advance_clerks_self, effects_frame rfl rfl]
      exact h _ _ phase
    | exec phase =>
      intro op' hphase
      rw [advance_clerks_self] at hphase
      cases hphase
    | dropReply phase => exact absurd rfl he
    | ret phase =>
      intro op' hphase
      rw [advance_clerks_self] at hphase
      cases hphase
  · cases hmove with
    | _ => exact (h c).advance_of_ne hc rfl

end KVSystem

namespace Deployment

variable {η ν : Type} [DecidableEq η] [DecidableEq ν] {ends : ℤ → η} {s s' : Deployment η ν}
  {e : DeployAction η ν}

/-- The network stays reliable. -/
def staysReliable : DeployAction η ν → Bool
  | .config a => Net.staysReliable (α := Request) (.config a)
  | _ => true

theorem faultless_step (h : s.net.Faultless) (hinv : s.Inv) (hstays : staysReliable e = true)
    (hs : s.step ends e = .ok s') : s'.net.Faultless := by
  have hsend : ∀ endname req, (s.net.startCall endname req).Faultless := fun endname req =>
    have hcall :
        s.net.step KVServer.serve (.call endname req) = .ok (s.net.startCall endname req) := rfl
    h.step hinv.net hinv.calm rfl hcall
  cases step_move hs with
  | invoke => exact hsend _ _
  | again => exact hsend _ _
  | finish => exact h
  | on hnet => exact h.step hinv.net hinv.calm rfl hnet
  | config hnet => exact h.step hinv.net hinv.calm hstays hnet

/-- On a reliable network a request is not executed twice, and the history is linearizable. -/
theorem reliable_linearizable
    (h : Run (step ends) (fun s e => s.allows e = true ∧ staysReliable e = true) init s) :
    kvObject.Linearizable s.history := by
  have hsim : s.Inv ∧ s.net.Faultless ∧ ∃ t, Run KVSystem.step KVSystem.PutsSettled
      KVSystem.init t ∧ (∀ c, t.CallInv c) ∧ (∀ c, t.FirstTry c) ∧ s.Refines t := by
    refine h.invariant (P := fun s => s.Inv ∧ s.net.Faultless ∧ ∃ t, Run KVSystem.step
      KVSystem.PutsSettled KVSystem.init t ∧ (∀ c, t.CallInv c) ∧ (∀ c, t.FirstTry c) ∧ s.Refines t)
      ⟨inv_init, ⟨rfl, by simp [init, Net.makeNetwork]⟩, _, .refl, KVSystem.callInv_init,
        by simp [KVSystem.FirstTry, KVSystem.init], refines_init⟩ ?_
    rintro s s' e ⟨hinv, hfault, t, ht, hI, hfirst, href⟩ ⟨hallows, hstays⟩ hs
    refine ⟨inv_step hinv hallows hs, faultless_step hfault hinv hstays hs, ?_⟩
    rcases href.step hinv hs with href' | ⟨c, a, t', hstep, hdrop, href'⟩
    · exact ⟨t, ht, hI, hfirst, href'⟩
    -- a call whose handler has run does not return false
    have ha : a ≠ .dropReply := by
      rintro rfl
      obtain ⟨r, hr, hproc, hidle⟩ := hdrop rfl
      have hloss := hfault.calls r hr
      rw [hproc] at hloss
      exact hidle hloss
    have hmove := KVSystem.step_move hstep
    exact ⟨t', ht.tail ((hfirst c).putsSettled a) hstep, KVSystem.callInv_step hI hmove,
      KVSystem.firstTry_step hI hfirst ha hmove, href'⟩
  obtain ⟨-, -, t, ht, -, -, href⟩ := hsim
  obtain ⟨-, L, hL⟩ := KVSystem.explained_of_run ht
  exact ⟨L, href.history ▸ hL.linearizes⟩

/-- Two clerks put and read at the same time; the end of the first is connected late. -/
def twoClerks : List (DeployAction ℤ ℕ) :=
  [.config (.addServer 0 0), .config (.makeEnd 1), .config (.makeEnd 2), .config (.connect 1 0),
    .config (.connect 2 0), .config (.enable 2 true), .invoke 1 (.put "x" "a"), .on 0 .accept,
    .on 0 .route, .on 0 .fire, .on 0 .deliver, .config (.enable 1 true), .resume 1,
    .invoke 2 (.get "x"), .on 1 .accept, .on 2 .accept, .on 1 .route, .on 2 .route, .on 2 .dispatch,
    .on 1 .dispatch, .on 1 .enter, .on 2 .enter, .on 1 .handle, .on 2 .handle, .on 2 .collect,
    .on 1 .collect, .on 2 (.answer false false), .on 2 .deliver, .resume 2,
    .on 1 (.answer false false), .on 1 .deliver, .resume 1]

theorem reliable_linearizable_twoClerks :
    ∃ s : Deployment ℤ ℕ,
      Run (step id) (fun s e => s.allows e = true ∧ staysReliable e = true) init s ∧
      s.history = [.inv (1, 1) (.put "x" "a"), .inv (2, 1) (.get "x"), .res (2, 1) "a",
        .res (1, 1) ""] ∧ kvObject.Linearizable s.history := by
  obtain ⟨s, hrun, hhistory⟩ :=
    exists_run_of_play (step id) (fun s e => s.allows e = true ∧ staysReliable e = true)
      (init : Deployment ℤ ℕ) twoClerks
      (fun s => s.history = [.inv (1, 1) (.put "x" "a"), .inv (2, 1) (.get "x"), .res (2, 1) "a",
        .res (1, 1) ""])
      (by decide +kernel)
  exact ⟨s, hrun, hhistory, reliable_linearizable hrun⟩

end Deployment

end DistLabs.KV
