import DistLabs.KV.Linear
import DistLabs.Porcupine.Check

/-! # The checker accepts the service (`kvsrv/test_test.go`)

    The tests log each call of a clerk with the times before and after it and give the log to the
    checker. Where the history of the service is linearizable and no call is under way any more, the
    log is linearizable for the key/value model, and so the answer is never `Illegal`. -/

namespace DistLabs.KV

open Porcupine

/-- What the wrappers `Get`, `Put` and `Append` of the tests log. -/
def KVOp.input : KVOp → KvInput
  | .get key => ⟨0, key, ""⟩
  | .put key value => ⟨1, key, value⟩
  | .append key value => ⟨3, key, value⟩

/-- `Put` logs no result. -/
def KVOp.output (value : String) : KVOp → KvOutput
  | .put _ _ => ⟨""⟩
  | _ => ⟨value⟩

/-- The times before and after each call. -/
structure Times where
  start : ℤ × ℤ → ℤ
  finish : ℤ × ℤ → ℤ

/-- The log entry of a call that has returned. -/
def Times.operation (times : Times) (call : Call (ℤ × ℤ) KVOp String) : KvOperation :=
  ⟨call.id.1, call.op.input, times.start call.id, call.op.output call.result, times.finish call.id⟩

def KVEvent.returnedCall : KVEvent → Option (Call (ℤ × ℤ) KVOp String)
  | .ret c seq op value => some ⟨(c, seq), op, value⟩
  | _ => none

namespace KVSystem

/-- The calls that have returned. -/
def returnedCalls (s : KVSystem) : List (Call (ℤ × ℤ) KVOp String) :=
  s.events.filterMap KVEvent.returnedCall

/-- The log of the tests, up to its order: a wrapper appends the entry some time after the call
    returns. -/
def opLog (s : KVSystem) (times : Times) : List KvOperation := s.returnedCalls.map times.operation

/-- The times are those of a clock that does not go back: a call starts no later than it is invoked
    and finishes no earlier than it returns. -/
structure Clocked (s : KVSystem) (times : Times) (clock : ℕ → ℤ) : Prop where
  mono : Monotone clock
  start : ∀ p c seq op, s.events[p]? = some (.invoke c seq op) → times.start (c, seq) ≤ clock p
  finish : ∀ p c seq op value, s.events[p]? = some (.ret c seq op value) →
    clock p ≤ times.finish (c, seq)

variable {s s' : KVSystem} {c seq : ℤ} {op : KVOp} {value : String}

theorem mem_returnedCalls {call : Call (ℤ × ℤ) KVOp String} : call ∈ s.returnedCalls ↔
    .ret call.id.1 call.id.2 call.op call.result ∈ s.events := by
  rw [returnedCalls, List.mem_filterMap]
  constructor
  · rintro ⟨ev, hev, heq⟩
    cases ev with
    | ret c seq op value =>
      obtain rfl := Option.some.inj heq
      exact hev
    | _ => cases heq
  · exact fun h => ⟨_, h, rfl⟩

/-- Every call that was invoked has returned or is under way, and none returns twice. -/
structure Logged (s : KVSystem) : Prop where
  nodup : (s.returnedCalls.map Call.id).Nodup
  returned : ∀ c seq op, .invoke c seq op ∈ s.events → (∃ value, .ret c seq op value ∈ s.events) ∨
    (s.clerks c).phase.op = some op ∧ seq = (s.clerks c).seq
  invoked : ∀ (q : ℕ) c seq op value, s.events[q]? = some (.ret c seq op value) →
    ∃ p < q, s.events[p]? = some (.invoke c seq op)

/-- A return that comes last is behind the events so far. -/
theorem exists_invoke_concat {l : List KVEvent} {ev : KVEvent}
    (h : ∀ (q : ℕ) c seq op value, l[q]? = some (.ret c seq op value) →
      ∃ p < q, l[p]? = some (.invoke c seq op))
    (hlast : ∀ c seq op value, ev = .ret c seq op value → .invoke c seq op ∈ l) :
    ∀ (q : ℕ) c seq op value, (l ++ [ev])[q]? = some (.ret c seq op value) →
      ∃ p < q, (l ++ [ev])[p]? = some (.invoke c seq op) := by
  intro q c seq op value hq
  have hold : ∀ {p : ℕ}, l[p]? = some (.invoke c seq op) →
      (l ++ [ev])[p]? = some (.invoke c seq op) :=
    fun {p} hp => by rw [List.getElem?_append_left (List.getElem?_eq_some_iff.mp hp).1, hp]
  by_cases hlt : q < l.length
  · rw [List.getElem?_append_left hlt] at hq
    obtain ⟨p, hpq, hp⟩ := h q c seq op value hq
    exact ⟨p, hpq, hold hp⟩
  · rw [List.getElem?_append_right (not_lt.mp hlt), List.getElem?_singleton] at hq
    split at hq
    · obtain ⟨p, hp⟩ := List.mem_iff_getElem?.mp (hlast c seq op value (Option.some.inj hq))
      exact ⟨p, (List.getElem?_eq_some_iff.mp hp).1.trans_le (not_lt.mp hlt), hold hp⟩
    · cases hq

theorem logged_init : init.Logged := by
  constructor <;> simp [init, returnedCalls]

/-- A step of clerk `c` inside of its call. -/
theorem Logged.keep (h : s.Logged) {ck : Clerk} {kv : KVServer} {ev : KVEvent}
    (hop : (s.clerks c).phase.op = ck.phase.op) (hseq : (s.clerks c).seq = ck.seq)
    (hinv : ∀ d seq op, ev ≠ .invoke d seq op) (hret : ∀ d seq op value, ev ≠ .ret d seq op value) :
    (s.advance c ck kv ev).Logged := by
  have hmem : ∀ {ev'}, ev' ∈ (s.advance c ck kv ev).events → ev' = ev ∨ ev' ∈ s.events := by
    intro ev' hev'
    rw [advance_events, List.mem_append, List.mem_singleton] at hev'
    exact hev'.symm
  have hold : ∀ {ev'}, ev' ∈ s.events → ev' ∈ (s.advance c ck kv ev).events := by
    intro ev' hev'
    rw [advance_events]
    exact List.mem_append_left _ hev'
  have hclerk : ∀ d, ((s.advance c ck kv ev).clerks d).phase.op = (s.clerks d).phase.op ∧
      ((s.advance c ck kv ev).clerks d).seq = (s.clerks d).seq := by
    intro d
    by_cases hd : d = c
    · subst hd
      rw [advance_clerks_self]
      exact ⟨hop.symm, hseq.symm⟩
    · rw [advance_clerks_of_ne hd]
      exact ⟨rfl, rfl⟩
  have hcalls : (s.advance c ck kv ev).returnedCalls = s.returnedCalls := by
    have : ev.returnedCall = none := by
      cases ev with
      | ret d seq op value => exact absurd rfl (hret d seq op value)
      | _ => rfl
    simp [returnedCalls, this]
  refine ⟨hcalls ▸ h.nodup, fun d seq op hev => ?_,
    exists_invoke_concat h.invoked fun d seq op value heq => absurd heq (hret d seq op value)⟩
  · obtain ⟨h1, h2⟩ := hclerk d
    rw [h1, h2]
    rcases hmem hev with heq | hev
    · exact absurd heq.symm (hinv d seq op)
    · exact (h.returned d seq op hev).imp_left fun ⟨value, hv⟩ => ⟨value, hold hv⟩

theorem returnedCalls_advance (s : KVSystem) (c : ℤ) (ck : Clerk) (kv : KVServer) (ev : KVEvent) :
    (s.advance c ck kv ev).returnedCalls = s.returnedCalls ++ ev.returnedCall.toList := by
  rw [returnedCalls, advance_events, filterMap_concat, returnedCalls]

theorem Logged.invoke (h : s.Logged) (hphase : (s.clerks c).phase = .idle) (op : KVOp) :
    (s.advance c ⟨(s.clerks c).seq + 1, .sent op⟩ s.kv
      (.invoke c ((s.clerks c).seq + 1) op)).Logged := by
  refine ⟨?_, fun d seq op' hev => ?_,
    exists_invoke_concat h.invoked fun d seq op' value heq => by cases heq⟩
  · rw [returnedCalls_advance]
    simpa [KVEvent.returnedCall] using h.nodup
  · rw [advance_events, List.mem_append, List.mem_singleton] at hev
    rcases hev with hev | heq
    · rcases h.returned d seq op' hev with ⟨value, hv⟩ | ⟨hop, hseq⟩
      · exact .inl ⟨value, by simp [hv]⟩
      · have hd : d ≠ c := by
          -- the clerk was between two calls
          rintro rfl
          rw [hphase] at hop
          cases hop
        rw [advance_clerks_of_ne hd]
        exact .inr ⟨hop, hseq⟩
    · obtain ⟨rfl, rfl, rfl⟩ := KVEvent.invoke.inj heq
      exact .inr ⟨by simp [Phase.op], by simp⟩

theorem Logged.ret (h : s.Logged) (hI : s.CallInv c)
    (hphase : (s.clerks c).phase = .answered op value) :
    (s.advance c ⟨(s.clerks c).seq, .idle⟩ s.kv (.ret c (s.clerks c).seq op value)).Logged := by
  have hactive : (s.clerks c).phase ≠ .idle := by simp [hphase]
  refine ⟨?_, fun d seq op' hev => ?_,
    exists_invoke_concat h.invoked fun d seq op' value' heq => ?_⟩
  · rw [returnedCalls_advance]
    simp only [KVEvent.returnedCall, Option.toList_some, List.map_append, List.map_cons,
      List.map_nil]
    refine List.nodup_append.mpr ⟨h.nodup, List.nodup_singleton _, fun i hi j hj => ?_⟩
    rw [List.mem_singleton.mp hj]
    rintro rfl
    -- the call under way is later than all that have returned
    obtain ⟨call, hcall, hid⟩ := List.mem_map.mp hi
    have hev := mem_returnedCalls.mp hcall
    rw [hid] at hev
    exact absurd (hI.old _ _ _ hev hactive) (lt_irrefl _)
  · rw [advance_events, List.mem_append, List.mem_singleton] at hev
    rcases hev with hev | heq
    · rcases h.returned d seq op' hev with ⟨v, hv⟩ | ⟨hop, hseq⟩
      · exact .inl ⟨v, by simp [hv]⟩
      · by_cases hd : d = c
        · subst hd
          rw [hphase] at hop
          obtain rfl : op = op' := Option.some.inj hop
          exact .inl ⟨value, by simp [hseq]⟩
        · rw [advance_clerks_of_ne hd]
          exact .inr ⟨hop, hseq⟩
    · cases heq
  · obtain ⟨rfl, rfl, rfl, rfl⟩ := KVEvent.ret.inj heq
    exact hI.invoked op (by rw [hphase]; rfl)

theorem Logged.step {e : ℤ × KVAction} (h : s.Logged) (hI : ∀ c, s.CallInv c)
    (hmove : s.Move e s') : s'.Logged := by
  cases hmove with
  | @invoke c op phase => exact h.invoke phase op
  | @dropRequest c op phase => exact h.keep (by rw [phase]) rfl (by simp) (by simp)
  | @exec c op phase => exact h.keep (by rw [phase]; rfl) rfl (by simp) (by simp)
  | @dropReply c op value phase => exact h.keep (by rw [phase]; rfl) rfl (by simp) (by simp)
  | @ret c op value phase => exact h.ret (hI c) phase

/-! ### The log is linearizable -/

/-- The model of the checker does at the key of an operation what the specification does. -/
theorem kvModel_step (m : String → String) (op : KVOp) :
    KvModel.step (m op.input.key) op.input (op.output (kvObject.step m op).2) =
        (true, (kvObject.step m op).1 op.input.key) ∧
      Function.update m op.input.key ((kvObject.step m op).1 op.input.key) =
        (kvObject.step m op).1 := by
  cases op with
  | get key => simp [KvModel, KVOp.input, KVOp.output, kvObject]
  | put key value => simp [KvModel, KVOp.input, KVOp.output, kvObject]
  | append key value => simp [KvModel, KVOp.input, KVOp.output, kvObject]

theorem storeAccepts_of_legal (times : Times) {L : List (Call (ℤ × ℤ) KVOp String)}
    {m : String → String} (h : kvObject.Legal m L) :
    KvModel.storeAccepts KvInput.key m (L.map times.operation) = true := by
  induction L generalizing m with
  | nil => rfl
  | cons call L ih =>
    obtain ⟨hresult, hrest⟩ := h
    obtain ⟨hstep, hupdate⟩ := kvModel_step m call.op
    rw [hresult] at hstep
    have hinput : (times.operation call).input = call.op.input := rfl
    have houtput : (times.operation call).output = call.op.output call.result := rfl
    rw [List.map_cons, Model.storeAccepts, hinput, houtput, hstep]
    simp only [hupdate]
    exact ih hrest

theorem not_pair_sublist_swap {γ : Type*} {L : List γ} {a b : γ} (hnodup : L.Nodup)
    (h : [a, b].Sublist L) : ¬ [b, a].Sublist L := by
  induction L with
  | nil => cases h
  | cons c L ih =>
    obtain ⟨hc, hL⟩ := List.nodup_cons.mp hnodup
    intro h'
    cases h with
    | cons _ h =>
      cases h' with
      | cons _ h' => exact ih hL h h'
      | cons_cons _ h' => exact hc (h.subset (by simp))
    | cons_cons _ h =>
      have hb : b ∈ L := List.singleton_sublist.mp h
      cases h' with
      | cons _ h' => exact hc (h'.subset (by simp))
      | cons_cons _ h' => exact hc hb

theorem pair_sublist_of_lt {γ : Type*} {l : List γ} {p q : ℕ} {a b : γ} (hp : l[p]? = some a)
    (hq : l[q]? = some b) (hlt : p < q) : [a, b].Sublist l := by
  have ha : a ∈ l.take q := List.mem_iff_getElem?.mpr ⟨p, by rw [List.getElem?_take_of_lt hlt, hp]⟩
  have hb : b ∈ l.drop q := List.mem_iff_getElem?.mpr ⟨0, by rw [List.getElem?_drop, ← hq]; rfl⟩
  have := (List.singleton_sublist.mpr ha).append (List.singleton_sublist.mpr hb)
  rwa [List.take_append_drop] at this

/-- A call that finishes before another one starts has returned before the other was invoked. -/
theorem Clocked.pair_sublist {times : Times} {clock : ℕ → ℤ} (h : s.Clocked times clock)
    {a b : Call (ℤ × ℤ) KVOp String} (ha : .invoke a.id.1 a.id.2 a.op ∈ s.events)
    (hb : b ∈ s.returnedCalls) (hlt : times.finish b.id < times.start a.id) :
    [.res b.id b.result, .inv a.id a.op].Sublist s.history := by
  obtain ⟨p, hp⟩ := List.mem_iff_getElem?.mp ha
  obtain ⟨q, hq⟩ := List.mem_iff_getElem?.mp (mem_returnedCalls.mp hb)
  have hclock : clock q < clock p := calc
    clock q ≤ times.finish b.id := h.finish q _ _ _ _ hq
    _ < times.start a.id := hlt
    _ ≤ clock p := h.start p _ _ _ hp
  exact (pair_sublist_of_lt hq hp (h.mono.reflect_lt hclock)).filterMap KVEvent.callEvent

/-- The log of a run with a linearization that is over. -/
theorem Explains.opLog_linearizable {L : List (Call (ℤ × ℤ) KVOp String)} (h : s.Explains L)
    (hlogged : s.Logged) (hidle : ∀ c, (s.clerks c).phase = .idle) {times : Times} {clock : ℕ → ℤ}
    (hclock : s.Clocked times clock) :
    StoreLinearizable KvModel KvInput.key (s.opLog times) := by
  have hlin := h.linearizes
  have hperm : L.Perm s.returnedCalls := by
    refine hlin.perm hlogged.nodup (fun call hcall => ?_) fun i op hinv => ?_
    · exact List.mem_filterMap.mpr ⟨_, mem_returnedCalls.mp hcall, rfl⟩
    · obtain ⟨ev, hev, heq⟩ := List.mem_filterMap.mp hinv
      cases ev with
      | invoke c seq op' =>
        obtain ⟨rfl, rfl⟩ := CallEvent.inv.inj (Option.some.inj heq)
        rcases hlogged.returned c seq op' hev with ⟨value, hv⟩ | ⟨hop, -⟩
        · exact ⟨value, mem_returnedCalls.mpr hv⟩
        · rw [hidle c] at hop
          cases hop
      | _ => cases heq
  refine ⟨L.map times.operation, hperm.map _, storeAccepts_of_legal times hlin.legal,
    List.pairwise_map.mpr (List.pairwise_iff_forall_sublist.mpr fun {a b} hab hlt => ?_)⟩
  -- the later one of the two would have returned before the earlier one was invoked
  have ha : a ∈ L := hab.subset (by simp)
  have hb : b ∈ L := hab.subset (by simp)
  obtain ⟨q, hq⟩ := List.mem_iff_getElem?.mp (mem_returnedCalls.mp (hperm.mem_iff.mp ha))
  obtain ⟨p, -, hp⟩ := hlogged.invoked _ _ _ _ _ hq
  have hpair := hclock.pair_sublist (List.mem_of_getElem? hp) (hperm.mem_iff.mp hb) hlt
  exact not_pair_sublist_swap hlin.nodup.of_map hab (hlin.realTime b hb a ha _ hpair)

theorem Clocked.call_le {times : Times} {clock : ℕ → ℤ} (h : s.Clocked times clock)
    (hlogged : s.Logged) : ∀ o ∈ s.opLog times, o.call ≤ o.ret := by
  intro o ho
  obtain ⟨call, hcall, rfl⟩ := List.mem_map.mp ho
  obtain ⟨q, hq⟩ := List.mem_iff_getElem?.mp (mem_returnedCalls.mp hcall)
  obtain ⟨p, hpq, hp⟩ := hlogged.invoked _ _ _ _ _ hq
  calc times.start call.id ≤ clock p := h.start p _ _ _ hp
    _ ≤ clock q := h.mono hpq.le
    _ ≤ times.finish call.id := h.finish q _ _ _ _ hq

theorem explained_of_run (h : Run step PutsSettled init s) : s.Logged ∧ ∃ L, s.Explains L := by
  obtain ⟨-, hlogged, hL⟩ := h.invariant
    (P := fun s => (∀ c, s.CallInv c) ∧ s.Logged ∧ ∃ L, s.Explains L)
    ⟨callInv_init, logged_init, [], explains_init⟩ fun s s' e ⟨hI, hlogged, L, hL⟩ hok hstep =>
      ⟨callInv_step hI (step_move hstep), hlogged.step hI (step_move hstep),
        hL.step hI hok (step_move hstep)⟩
  exact ⟨hlogged, hL⟩

theorem storeLinearizable_perm {log log' : List KvOperation} (hperm : log.Perm log')
    (h : StoreLinearizable KvModel KvInput.key log') :
    StoreLinearizable KvModel KvInput.key log := by
  obtain ⟨L, hL, hlegal, horder⟩ := h
  exact ⟨L, hL.trans hperm.symm, hlegal, horder⟩

/-- In a run in which no `Put` is done again over another value and all calls have returned, the
    checker of the tests does not answer `Illegal`, and without a limit of time it answers `Ok`,
    whatever the order of the log. -/
theorem checkOperations_opLog (h : Run step PutsSettled init s)
    (hidle : ∀ c, (s.clerks c).phase = .idle) {times : Times} {clock : ℕ → ℤ}
    (hclock : s.Clocked times clock) {log : List KvOperation} (hlog : log.Perm (s.opLog times))
    {sort : List (Entry KvInput KvOutput) → List (Entry KvInput KvOutput)}
    (hsort : SortsByTime sort) {verbose : Bool} {timeout : ℤ} {r : CheckResult}
    {p : Par String KvInput KvOutput (KvModel.partition log).length}
    (hp : Par.Reaches KvModel verbose timeout (checkOperations KvModel sort log) p)
    (hret : p.phase = .returned r) : r ≠ .illegal ∧ (¬ timeout > 0 → r = .ok) := by
  obtain ⟨hlogged, L, hL⟩ := explained_of_run h
  have hlin := storeLinearizable_perm hlog (hL.opLog_linearizable hlogged hidle hclock)
  have hcall : ∀ o ∈ log, o.call ≤ o.ret :=
    fun o ho => hclock.call_le hlogged o (hlog.mem_iff.mp ho)
  obtain ⟨-, hillegal, hunknown⟩ := kvModel_answer hsort hcall hp hret
  have hne : r ≠ .illegal := fun hr => hillegal hr hlin
  refine ⟨hne, fun htimeout => ?_⟩
  cases r with
  | unknown => exact absurd (hunknown rfl) htimeout
  | ok => rfl
  | illegal => exact absurd rfl hne

/-- Client 1 puts a value; its first reply is lost. Then client 2 gets the value. -/
def putTwice : KVSystem :=
  let put := KVOp.put "x" "1"
  let s₁ := init.advance 1 ⟨1, .sent put⟩ .start (.invoke 1 1 put)
  let kv := (KVServer.start.call 1 1 put).1
  let s₂ := s₁.advance 1 ⟨1, .answered put ""⟩ kv (.exec ⟨1, 1, put, .start⟩)
  let s₃ := s₂.advance 1 ⟨1, .sent put⟩ kv (.lost 1 1)
  let kv' := (kv.call 1 1 put).1
  let s₄ := s₃.advance 1 ⟨1, .answered put ""⟩ kv' (.exec ⟨1, 1, put, kv⟩)
  let s₅ := s₄.advance 1 ⟨1, .idle⟩ kv' (.ret 1 1 put "")
  let get := KVOp.get "x"
  let s₆ := s₅.advance 2 ⟨1, .sent get⟩ kv' (.invoke 2 1 get)
  let s₇ := s₆.advance 2 ⟨1, .answered get "1"⟩ (kv'.call 2 1 get).1 (.exec ⟨2, 1, get, kv'⟩)
  s₇.advance 2 ⟨1, .idle⟩ (kv'.call 2 1 get).1 (.ret 2 1 get "1")

/-- The calls take from 0 to 9. -/
def putTwiceTimes : Times := ⟨fun _ => 0, fun _ => 9⟩

/-- Client 2 logs first. -/
def putTwiceLog : List KvOperation := (putTwice.opLog putTwiceTimes).reverse

def putTwiceSchedule : List (Par.Action (KvModel.partition putTwiceLog).length) :=
  List.replicate 7 (.work ⟨0, by decide +kernel⟩) ++ [.receive]

theorem checkOperations_opLog_putTwice : Run step PutsSettled init putTwice ∧
    (∀ c, (putTwice.clerks c).phase = .idle) ∧
    putTwice.Clocked putTwiceTimes (fun p => min p 9) ∧ ∃ p, Par.Reaches KvModel false 0
      (checkOperations KvModel sortEntries putTwiceLog) p ∧
      p.phase = .returned .ok ∧ CheckResult.ok ≠ .illegal := by
  have hplay : play step PutsSettled init [(1, .invoke (.put "x" "1")), (1, .exec), (1, .dropReply),
    (1, .exec), (1, .ret), (2, .invoke (.get "x")), (2, .exec), (2, .ret)] = some putTwice := rfl
  have hidle : ∀ c, (putTwice.clerks c).phase = .idle := by
    intro c
    by_cases hc : c = 2
    · subst hc
      rfl
    by_cases hc' : c = 1
    · subst hc'
      rfl
    · simp [putTwice, advance_clerks_of_ne hc, advance_clerks_of_ne hc', init]
  have hclock : putTwice.Clocked putTwiceTimes (fun p => min p 9) :=
    ⟨fun p q hpq => min_le_min_right _ (Int.ofNat_le.mpr hpq),
      fun p c seq op _ => by simp [putTwiceTimes], fun p c seq op value _ => min_le_right _ _⟩
  obtain ⟨p, hp, hret⟩ := exists_run_of_play (Par.step KvModel false 0) (fun _ _ => True)
    (checkOperations KvModel sortEntries putTwiceLog) putTwiceSchedule
    (fun s => s.phase = .returned .ok) (by decide +kernel)
  exact ⟨play_run hplay, hidle, hclock, p, hp, hret, (checkOperations_opLog (play_run hplay) hidle
    hclock (List.reverse_perm _) sortsByTime_insertionSort hp hret).1⟩

end KVSystem

end DistLabs.KV
