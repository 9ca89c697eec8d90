import DistLabs.Schemes.Run
import Mathlib.Logic.Function.Basic

/-! # The key/value service (`kvsrv`)

    The server with its handlers, the clerks that call them, and the two together as a transition
    system. A clerk repeats an RPC until `Call` returns true; a `Call` that returns false was lost
    before the handler ran or after it. A clerk makes one call after the other, so at most one
    attempt of it is under way. Clerks are named by their `clientId`. -/

namespace DistLabs.KV

/-! ### The server (`server.go`) -/

/-- The last request of a client that the server has recorded, with its answer. -/
structure DupTable where
  seq : ℤ
  value : String
  deriving DecidableEq

structure KVServer where
  data : String → Option String
  clientTable : ℤ → Option DupTable

structure GetArgs where
  key : String
  clientId : ℤ
  seq : ℤ

structure GetReply where
  value : String

structure PutAppendArgs where
  key : String
  value : String
  clientId : ℤ
  seq : ℤ

structure PutAppendReply where
  value : String

namespace KVServer

/-- `kv.data[key]`, empty for a key that is absent. -/
def read (kv : KVServer) (key : String) : String := (kv.data key).getD ""

/-- `kv.data[key] = value`. -/
def write (kv : KVServer) (key value : String) : KVServer :=
  { kv with data := Function.update kv.data key (some value) }

/-- The table entry of the client is `dt` from now on. -/
def record (kv : KVServer) (clientId : ℤ) (dt : DupTable) : KVServer :=
  { kv with clientTable := Function.update kv.clientTable clientId (some dt) }

def get (kv : KVServer) (args : GetArgs) : KVServer × GetReply :=
  match kv.clientTable args.clientId with
  | none => (kv, ⟨kv.read args.key⟩)
  | some dt =>
    if dt.seq = args.seq then (kv, ⟨dt.value⟩)
    else (kv.record args.clientId ⟨args.seq, kv.read args.key⟩, ⟨kv.read args.key⟩)

def put (kv : KVServer) (args : PutAppendArgs) : KVServer × PutAppendReply :=
  match kv.clientTable args.clientId with
  | none => (kv.write args.key args.value, ⟨""⟩)
  | some dt =>
    if dt.seq = args.seq then (kv, ⟨""⟩)
    else ((kv.record args.clientId ⟨args.seq, ""⟩).write args.key args.value, ⟨""⟩)

def append (kv : KVServer) (args : PutAppendArgs) : KVServer × PutAppendReply :=
  let (kv, dt) : KVServer × DupTable :=
    match kv.clientTable args.clientId with
    | none => (kv.record args.clientId ⟨-1, ""⟩, ⟨-1, ""⟩)
    | some dt => (kv, dt)
  if dt.seq = args.seq then (kv, ⟨dt.value⟩)
  else
    let value := kv.read args.key
    ((kv.record args.clientId ⟨args.seq, value⟩).write args.key (value ++ args.value), ⟨value⟩)

@[simp] theorem read_write (kv : KVServer) (key value key' : String) :
    (kv.write key value).read key' = if key' = key then value else kv.read key' := by
  by_cases h : key' = key <;> simp [read, write, h]

@[simp] theorem read_record (kv : KVServer) (clientId : ℤ) (dt : DupTable) (key : String) :
    (kv.record clientId dt).read key = kv.read key := rfl

/-- `StartKVServer`. -/
def start : KVServer := ⟨fun _ => none, fun _ => none⟩

end KVServer

/-! ### Operations -/

/-- What a clerk is asked to do. -/
inductive KVOp where
  | get (key : String)
  | put (key value : String)
  | append (key value : String)
  deriving DecidableEq

/-- The key and the value that an `Append` appends. -/
def KVOp.appends : KVOp → Option (String × String)
  | .append key value => some (key, value)
  | _ => none

/-- The key that a `Put` overwrites. -/
def KVOp.puts : KVOp → Option String
  | .put key _ => some key
  | _ => none

namespace KVServer

/-- The RPC a clerk makes for an operation. -/
def call (kv : KVServer) (clientId seq : ℤ) : KVOp → KVServer × String
  | .get key =>
    let (kv, reply) := kv.get ⟨key, clientId, seq⟩
    (kv, reply.value)
  | .put key value =>
    let (kv, reply) := kv.put ⟨key, value, clientId, seq⟩
    (kv, reply.value)
  | .append key value =>
    let (kv, reply) := kv.append ⟨key, value, clientId, seq⟩
    (kv, reply.value)

/-- The operation itself, without duplicate detection. -/
def apply (kv : KVServer) : KVOp → KVServer
  | .get _ => kv
  | .put key value => kv.write key value
  | .append key value => kv.write key (kv.read key ++ value)

@[simp] theorem apply_clientTable (kv : KVServer) (op : KVOp) :
    (kv.apply op).clientTable = kv.clientTable := by cases op <;> rfl

/-- What the operation returns. -/
def result (kv : KVServer) : KVOp → String
  | .get key => kv.read key
  | .put _ _ => ""
  | .append key _ => kv.read key

/-- The table has an answer for this request. -/
def Answers (kv : KVServer) (clientId seq : ℤ) : Prop :=
  ∃ dt ∈ kv.clientTable clientId, dt.seq = seq

instance (kv : KVServer) (clientId seq : ℤ) : Decidable (kv.Answers clientId seq) :=
  inferInstanceAs (Decidable (∃ dt ∈ kv.clientTable clientId, dt.seq = seq))

theorem answers_congr {kv kv' : KVServer} {clientId : ℤ}
    (h : kv'.clientTable clientId = kv.clientTable clientId) (seq : ℤ) :
    kv'.Answers clientId seq ↔ kv.Answers clientId seq := by
  rw [Answers, h, Answers]

theorem not_answers_of_eq_none {kv : KVServer} {clientId : ℤ} (h : kv.clientTable clientId = none)
    (seq : ℤ) : ¬ kv.Answers clientId seq := by
  rintro ⟨dt, hdt, -⟩
  rw [h] at hdt
  cases hdt

/-- The request of the client is going to be recorded, if it is not answered from the table. -/
def Records (kv : KVServer) (clientId : ℤ) (op : KVOp) : Prop :=
  kv.clientTable clientId ≠ none ∨ op.appends ≠ none

/-- The three ways in which a request is served: from the table, by doing the operation and
    recording it, or by only doing it. -/
theorem call_cases (kv : KVServer) (clientId : ℤ) {seq : ℤ} (hseq : seq ≠ -1) (op : KVOp) :
    (∃ dt, kv.clientTable clientId = some dt ∧ dt.seq = seq ∧
      kv.call clientId seq op = (kv, if op.puts = none then dt.value else "")) ∨
    (¬ kv.Answers clientId seq ∧ kv.Records clientId op ∧ kv.call clientId seq op =
      ((kv.apply op).record clientId ⟨seq, kv.result op⟩, kv.result op)) ∨
    (kv.clientTable clientId = none ∧ op.appends = none ∧
      kv.call clientId seq op = (kv.apply op, kv.result op)) := by
  rcases htable : kv.clientTable clientId with _ | dt
  · have hanswers := not_answers_of_eq_none htable seq
    cases op with
    | get key => exact .inr (.inr ⟨rfl, rfl, by simp [call, get, htable, apply, result]⟩)
    | put key value => exact .inr (.inr ⟨rfl, rfl, by simp [call, put, htable, apply, result]⟩)
    | append key value =>
      refine .inr (.inl ⟨hanswers, .inr (by simp [KVOp.appends]), ?_⟩)
      simp [call, append, htable, apply, result, hseq.symm, record, write, read]
  · by_cases hdup : dt.seq = seq
    · refine .inl ⟨dt, rfl, hdup, ?_⟩
      cases op <;> simp [call, get, put, append, htable, hdup, KVOp.puts]
    · refine .inr (.inl ⟨?_, .inl (by simp [htable]), ?_⟩)
      · rintro ⟨dt', hdt', heq⟩
        rw [htable] at hdt'
        cases hdt'
        exact hdup heq
      · cases op <;> simp [call, get, put, append, htable, hdup, apply, result, record, write, read]

/-- A request changes no table entry but its client's. -/
theorem call_clientTable_of_ne (kv : KVServer) {c d : ℤ} (hne : d ≠ c) (seq : ℤ) (op : KVOp) :
    (kv.call c seq op).1.clientTable d = kv.clientTable d := by
  cases op with
  | get key =>
    simp only [call, get]
    split
    · rfl
    · split <;> simp [record, hne]
  | put key value =>
    simp only [call, put]
    split
    · rfl
    · split <;> simp [record, write, hne]
  | append key value =>
    simp only [call, append]
    split <;> split <;> simp [record, write, hne]

end KVServer

/-! ### The clerks (`client.go`) and the system -/

/-- Where a clerk is in its call: between calls, with a request under way, or with the reply of a
    handler under way. -/
inductive Phase where
  | idle
  | sent (op : KVOp)
  | answered (op : KVOp) (value : String)
  deriving DecidableEq

/-- The operation of the call the clerk is in. -/
def Phase.op : Phase → Option KVOp
  | .idle => none
  | .sent op => some op
  | .answered op _ => some op

structure Clerk where
  seq : ℤ
  phase : Phase
  deriving DecidableEq

/-- One run of a handler, with the server as it found it. -/
structure Exec where
  client : ℤ
  seq : ℤ
  op : KVOp
  before : KVServer

/-- The server as the handler left it. -/
def Exec.after (e : Exec) : KVServer := (e.before.call e.client e.seq e.op).1

def Exec.reply (e : Exec) : String := (e.before.call e.client e.seq e.op).2

/-- What happens in the system; calls are named by client and sequence number. -/
inductive KVEvent where
  | invoke (client seq : ℤ) (op : KVOp)
  | exec (e : Exec)
  /-- a `Call` of the clerk returns false -/
  | lost (client seq : ℤ)
  | ret (client seq : ℤ) (op : KVOp) (value : String)

/-- The server, the clerks and all that has happened, in order. No step reads `events`. -/
structure KVSystem where
  kv : KVServer
  clerks : ℤ → Clerk
  events : List KVEvent

/-- The steps of one clerk's call. -/
inductive KVAction where
  | invoke (op : KVOp)
  /-- the request is lost; the clerk sends it again -/
  | dropRequest
  | exec
  /-- the reply is lost; the clerk sends its request again -/
  | dropReply
  | ret
  deriving DecidableEq

namespace KVSystem

def init : KVSystem := ⟨.start, fun _ => ⟨0, .idle⟩, []⟩

/-- Clerk `c` goes on as `ck`, the server is `kv` and the event `e` has happened. -/
def advance (s : KVSystem) (c : ℤ) (ck : Clerk) (kv : KVServer) (e : KVEvent) : KVSystem :=
  ⟨kv, Function.update s.clerks c ck, s.events ++ [e]⟩

@[simp] theorem advance_kv (s : KVSystem) (c : ℤ) (ck : Clerk) (kv : KVServer) (e : KVEvent) :
    (s.advance c ck kv e).kv = kv := rfl

@[simp] theorem advance_clerks_self (s : KVSystem) (c : ℤ) (ck : Clerk) (kv : KVServer)
    (e : KVEvent) : (s.advance c ck kv e).clerks c = ck := by simp [advance]

@[simp] theorem advance_events (s : KVSystem) (c : ℤ) (ck : Clerk) (kv : KVServer) (e : KVEvent) :
    (s.advance c ck kv e).events = s.events ++ [e] := rfl

theorem advance_clerks_of_ne {s : KVSystem} {c d : ℤ} (h : d ≠ c) (ck : Clerk) (kv : KVServer)
    (e : KVEvent) : (s.advance c ck kv e).clerks d = s.clerks d := by simp [advance, h]

/-- A step of the call of clerk `e.1`. -/
def step (s : KVSystem) (e : ℤ × KVAction) : Except Unit KVSystem :=
  let ck := s.clerks e.1
  match e.2, ck.phase with
  | .invoke op, .idle =>
    .ok (s.advance e.1 ⟨ck.seq + 1, .sent op⟩ s.kv (.invoke e.1 (ck.seq + 1) op))
  | .dropRequest, .sent op => .ok (s.advance e.1 ⟨ck.seq, .sent op⟩ s.kv (.lost e.1 ck.seq))
  | .exec, .sent op =>
    let (kv, value) := s.kv.call e.1 ck.seq op
    .ok (s.advance e.1 ⟨ck.seq, .answered op value⟩ kv (.exec ⟨e.1, ck.seq, op, s.kv⟩))
  | .dropReply, .answered op _ =>
    .ok (s.advance e.1 ⟨ck.seq, .sent op⟩ s.kv (.lost e.1 ck.seq))
  | .ret, .answered op value =>
    .ok (s.advance e.1 ⟨ck.seq, .idle⟩ s.kv (.ret e.1 ck.seq op value))
  | _, _ => .error ()

/-- All steps, with what has to hold before them. -/
inductive Move (s : KVSystem) : ℤ × KVAction → KVSystem → Prop
  | invoke {c : ℤ} (op : KVOp) (phase : (s.clerks c).phase = .idle) :
      Move s (c, .invoke op) (s.advance c ⟨(s.clerks c).seq + 1, .sent op⟩ s.kv
        (.invoke c ((s.clerks c).seq + 1) op))
  | dropRequest {c : ℤ} {op : KVOp} (phase : (s.clerks c).phase = .sent op) :
      Move s (c, .dropRequest) (s.advance c ⟨(s.clerks c).seq, .sent op⟩ s.kv
        (.lost c (s.clerks c).seq))
  | exec {c : ℤ} {op : KVOp} (phase : (s.clerks c).phase = .sent op) :
      Move s (c, .exec) (s.advance c
        ⟨(s.clerks c).seq, .answered op (s.kv.call c (s.clerks c).seq op).2⟩
        (s.kv.call c (s.clerks c).seq op).1 (.exec ⟨c, (s.clerks c).seq, op, s.kv⟩))
  | dropReply {c : ℤ} {op : KVOp} {value : String}
      (phase : (s.clerks c).phase = .answered op value) :
      Move s (c, .dropReply) (s.advance c ⟨(s.clerks c).seq, .sent op⟩ s.kv
        (.lost c (s.clerks c).seq))
  | ret {c : ℤ} {op : KVOp} {value : String} (phase : (s.clerks c).phase = .answered op value) :
      Move s (c, .ret) (s.advance c ⟨(s.clerks c).seq, .idle⟩ s.kv
        (.ret c (s.clerks c).seq op value))

theorem step_move {s s' : KVSystem} {e : ℤ × KVAction} (h : s.step e = .ok s') : s.Move e s' := by
  obtain ⟨c, a⟩ := e
  unfold step at h
  dsimp only at h
  split at h
  · rename_i hphase
    cases h
    exact .invoke _ hphase
  · rename_i hphase
    cases h
    exact .dropRequest hphase
  · rename_i hphase
    cases h
    exact .exec hphase
  · rename_i hphase
    cases h
    exact .dropReply hphase
  · rename_i hphase
    cases h
    exact .ret hphase
  · cases h

end KVSystem
end DistLabs.KV
