import DistLabs.KV.Service

/-! # Exactly once

    What the table of the server gives: a recorded call takes effect once, between its invocation
    and its return, and repeated requests get the answer of that one execution. The invariant ties
    the table entry of a client to the sequence number of its clerk and to the executions of the
    call the clerk is in. -/

namespace DistLabs.KV

/-- The client that an event belongs to. -/
def KVEvent.client : KVEvent → ℤ
  | .invoke c _ _ => c
  | .exec e => e.client
  | .lost c _ => c
  | .ret c _ _ _ => c

/-- The sequence number of the call that an event belongs to. -/
def KVEvent.seq : KVEvent → ℤ
  | .invoke _ seq _ => seq
  | .exec e => e.seq
  | .lost _ seq => seq
  | .ret _ seq _ _ => seq

/-- The execution that the event is. -/
def KVEvent.execution : KVEvent → Option Exec
  | .exec e => some e
  | _ => none

/-- The call that the event returns from, with what it returns. -/
def KVEvent.result : KVEvent → Option (ℤ × ℤ × KVOp × String)
  | .ret c seq op value => some (c, seq, op, value)
  | _ => none

/-- The operation that the event asks for. -/
def KVEvent.asked : KVEvent → Option KVOp
  | .invoke _ _ op => some op
  | _ => none

/-- The event is an execution of the call that is not answered from the table. -/
def KVEvent.effect (c seq : ℤ) : KVEvent → Option Exec
  | .exec e => if e.client = c ∧ e.seq = seq ∧ ¬ e.before.Answers c seq then some e else none
  | _ => none

theorem KVEvent.effect_eq_none {c seq : ℤ} {ev : KVEvent} (h : ev.client = c → ev.seq ≠ seq) :
    ev.effect c seq = none := by
  cases ev with
  | exec e => exact if_neg fun hc => h hc.1 hc.2.1
  | _ => rfl

namespace KVSystem

variable {s s' : KVSystem} {c seq : ℤ} {op : KVOp} {value : String}

/-- All executions of handlers, in order. -/
def execs (s : KVSystem) : List Exec := s.events.filterMap KVEvent.execution

theorem mem_execs {e : Exec} : e ∈ s.execs ↔ .exec e ∈ s.events := by
  rw [execs, List.mem_filterMap]
  constructor
  · rintro ⟨ev, hev, he⟩
    cases ev with
    | exec e' =>
      cases he
      exact hev
    | _ => cases he
  · exact fun h => ⟨_, h, rfl⟩

/-- The calls that have returned, with what they returned. -/
def results (s : KVSystem) : List (ℤ × ℤ × KVOp × String) := s.events.filterMap KVEvent.result

theorem mem_results : (c, seq, op, value) ∈ s.results ↔ .ret c seq op value ∈ s.events := by
  rw [results, List.mem_filterMap]
  constructor
  · rintro ⟨ev, hev, he⟩
    cases ev with
    | ret c' seq' op' value' =>
      cases he
      exact hev
    | _ => cases he
  · exact fun h => ⟨_, h, rfl⟩

/-- The executions of a call that do the operation. -/
def effects (s : KVSystem) (c seq : ℤ) : List Exec := s.events.filterMap (KVEvent.effect c seq)

/-- The call has done its operation once, after it was invoked and before it returned, and has
    returned what the operation returns there. -/
def TakesEffectOnce (s : KVSystem) (c seq : ℤ) (op : KVOp) (value : String) : Prop :=
  ∃ e, s.effects c seq = [e] ∧ e.op = op ∧ e.after.data = (e.before.apply op).data ∧
    value = e.before.result op ∧
    [.invoke c seq op, .exec e, .ret c seq op value].Sublist s.events

/-- The table entry `dt` comes from the one execution of the call. -/
def Recorded (s : KVSystem) (c seq : ℤ) (op : KVOp) (dt : DupTable) : Prop :=
  ∃ e, s.effects c seq = [e] ∧ e.op = op ∧ e.after.data = (e.before.apply op).data ∧
    dt = ⟨seq, e.before.result op⟩ ∧ e.reply = e.before.result op ∧
    e.after.clientTable c = some dt ∧ [.invoke c seq op, .exec e].Sublist s.events

/-- Client `c` returned from an `Append` before its call `seq`. -/
def AppendedBefore (s : KVSystem) (c seq : ℤ) : Prop :=
  ∃ seq' op' value', seq' < seq ∧ op'.appends ≠ none ∧ .ret c seq' op' value' ∈ s.events

/-- The invariant of one clerk. -/
structure CallInv (s : KVSystem) (c : ℤ) : Prop where
  nonneg : 0 ≤ (s.clerks c).seq
  active : (s.clerks c).phase ≠ .idle → 0 < (s.clerks c).seq
  seen : ∀ ev ∈ s.events, ev.client = c → ev.seq ≤ (s.clerks c).seq
  old : ∀ seq op value, .ret c seq op value ∈ s.events → (s.clerks c).phase ≠ .idle →
    seq < (s.clerks c).seq
  table : ∀ dt, s.kv.clientTable c = some dt → dt.seq ≤ (s.clerks c).seq
  invoked : ∀ op, (s.clerks c).phase.op = some op → .invoke c (s.clerks c).seq op ∈ s.events
  recorded : ∀ op dt, (s.clerks c).phase.op = some op → s.kv.clientTable c = some dt →
    dt.seq = (s.clerks c).seq → s.Recorded c (s.clerks c).seq op dt
  pending : ∀ op, (s.clerks c).phase.op = some op → s.kv.Records c op →
    ¬ s.kv.Answers c (s.clerks c).seq → s.effects c (s.clerks c).seq = []
  answered : ∀ op value, (s.clerks c).phase = .answered op value → s.kv.Records c op →
    s.kv.clientTable c = some ⟨(s.clerks c).seq, value⟩
  appended : ∀ seq op value, .ret c seq op value ∈ s.events → op.appends ≠ none →
    s.kv.clientTable c ≠ none
  once : ∀ seq op value, .ret c seq op value ∈ s.events →
    op.appends ≠ none ∨ op.puts ≠ none ∧ s.AppendedBefore c seq → s.TakesEffectOnce c seq op value

/-- An execution that is answered from the table changes nothing and repeats the answer of an
    earlier execution of the same call, the one that made the table entry. -/
def DupAnswered (s : KVSystem) (e : Exec) : Prop :=
  ∀ dt, e.before.clientTable e.client = some dt → dt.seq = e.seq →
    e.after = e.before ∧ e.reply = dt.value ∧
    ∃ e' : Exec, e'.client = e.client ∧ e'.seq = e.seq ∧ e'.op = e.op ∧
      ¬ e'.before.Answers e'.client e'.seq ∧ e'.after.clientTable e'.client = some dt ∧
      e'.reply = dt.value ∧ [.exec e', .exec e].Sublist s.events

theorem callInv_init (c : ℤ) : init.CallInv c := by
  constructor <;> simp [init, Phase.op, KVServer.start]

/-! ### Frame -/

theorem filterMap_concat {α β : Type*} (f : α → Option β) (l : List α) (a : α) :
    (l ++ [a]).filterMap f = l.filterMap f ++ (f a).toList := by
  cases h : f a <;> simp [h]

theorem effects_concat {ev : KVEvent} (hev : s'.events = s.events ++ [ev]) (c seq : ℤ) :
    s'.effects c seq = s.effects c seq ++ (ev.effect c seq).toList := by
  rw [effects, hev, filterMap_concat, effects]

theorem effects_frame {ev : KVEvent} (hev : s'.events = s.events ++ [ev])
    (h : ev.effect c seq = none) : s'.effects c seq = s.effects c seq := by
  rw [effects_concat hev, h, Option.toList_none, List.append_nil]

theorem TakesEffectOnce.frame {ev : KVEvent} (hev : s'.events = s.events ++ [ev])
    (hnone : ev.effect c seq = none) (h : s.TakesEffectOnce c seq op value) :
    s'.TakesEffectOnce c seq op value := by
  obtain ⟨e, heff, hop, hdata, hval, hsub⟩ := h
  exact ⟨e, (effects_frame hev hnone).trans heff, hop, hdata, hval,
    hev ▸ hsub.trans (List.sublist_append_left ..)⟩

theorem Recorded.frame {ev : KVEvent} (hev : s'.events = s.events ++ [ev])
    (hnone : ev.effect c seq = none) {dt : DupTable} (h : s.Recorded c seq op dt) :
    s'.Recorded c seq op dt := by
  obtain ⟨e, heff, hop, hdata, hdt, hreply, htable, hsub⟩ := h
  exact ⟨e, (effects_frame hev hnone).trans heff, hop, hdata, hdt, hreply, htable,
    hev ▸ hsub.trans (List.sublist_append_left ..)⟩

/-- A return that is there after another event was there before it. -/
theorem ret_of_concat {ev : KVEvent} (hev : s'.events = s.events ++ [ev])
    (hne : ∀ seq op value, ev ≠ .ret c seq op value) (h : .ret c seq op value ∈ s'.events) :
    .ret c seq op value ∈ s.events := by
  rw [hev] at h
  rcases List.mem_append.mp h with hold | hnew
  · exact hold
  · exact absurd (List.mem_singleton.mp hnew).symm (hne seq op value)

theorem AppendedBefore.of_concat {ev : KVEvent} (hev : s'.events = s.events ++ [ev])
    (hne : ∀ seq op value, ev ≠ .ret c seq op value) (h : s'.AppendedBefore c seq) :
    s.AppendedBefore c seq := by
  obtain ⟨seq', op', value', hlt, hop, hret⟩ := h
  exact ⟨seq', op', value', hlt, hop, ret_of_concat hev hne hret⟩

/-- A new event of the clerk carries no later sequence number than the clerk does after it. -/
theorem CallInv.seen_concat (h : s.CallInv c) {ev : KVEvent} (hev : s'.events = s.events ++ [ev])
    {k : ℤ} (hle : (s.clerks c).seq ≤ k) (hnew : ev.client = c → ev.seq ≤ k) :
    ∀ e ∈ s'.events, e.client = c → e.seq ≤ k := by
  intro e he hc
  rw [hev] at he
  rcases List.mem_append.mp he with hold | hlast
  · exact (h.seen e hold hc).trans hle
  · obtain rfl := List.mem_singleton.mp hlast
    exact hnew hc

/-- The returned calls, after an event that is neither a return of the clerk nor the effect of a
    call it has returned from. -/
theorem CallInv.once_concat (h : s.CallInv c) {ev : KVEvent} (hev : s'.events = s.events ++ [ev])
    (hne : ∀ seq op value, ev ≠ .ret c seq op value)
    (hnone : ∀ seq op value, .ret c seq op value ∈ s.events → ev.effect c seq = none) :
    ∀ seq op value, .ret c seq op value ∈ s'.events →
      op.appends ≠ none ∨ op.puts ≠ none ∧ s'.AppendedBefore c seq →
      s'.TakesEffectOnce c seq op value := by
  intro seq op value hr hcase
  have hold := ret_of_concat hev hne hr
  refine (h.once seq op value hold ?_).frame hev (hnone seq op value hold)
  exact hcase.imp_right (And.imp_right (AppendedBefore.of_concat hev hne))

/-- A clerk that took no step. -/
theorem CallInv.frame (h : s.CallInv c) {ev : KVEvent} (hev : s'.events = s.events ++ [ev])
    (hne : ev.client ≠ c) (hck : s'.clerks c = s.clerks c)
    (htable : s'.kv.clientTable c = s.kv.clientTable c) : s'.CallInv c := by
  have hret : ∀ seq op value, ev ≠ .ret c seq op value := by
    rintro seq op value rfl
    exact hne rfl
  have hnone : ∀ seq, ev.effect c seq = none := fun seq =>
    KVEvent.effect_eq_none fun hc => absurd hc hne
  have hrec : ∀ op, s'.kv.Records c op ↔ s.kv.Records c op := fun op => by
    rw [KVServer.Records, htable, KVServer.Records]
  refine ⟨hck ▸ h.nonneg, hck ▸ h.active, ?_, fun seq op v hr => ?_, ?_, ?_, ?_, ?_, ?_, ?_,
    h.once_concat hev hret fun seq _ _ _ => hnone seq⟩
  · rw [hck]; exact h.seen_concat hev le_rfl fun hc => absurd hc hne
  · rw [hck]; exact h.old seq op v (ret_of_concat hev hret hr)
  · rw [hck, htable]; exact h.table
  · rw [hck, hev]; exact fun op hop => List.mem_append_left _ (h.invoked op hop)
  · rw [hck, htable]
    exact fun op dt hop hdt hseq => (h.recorded op dt hop hdt hseq).frame hev (hnone _)
  · rw [hck]
    intro op hop hr ha
    rw [effects_frame hev (hnone _)]
    exact h.pending op hop ((hrec op).mp hr) fun hc => ha ((KVServer.answers_congr htable _).mpr hc)
  · rw [hck, htable]
    exact fun op v hp hr => h.answered op v hp ((hrec op).mp hr)
  · rw [htable]
    exact fun seq op v hr => h.appended seq op v (ret_of_concat hev hret hr)

/-! ### The clerk that takes the step -/

theorem CallInv.invoke (h : s.CallInv c)
    (hck : s'.clerks c = ⟨(s.clerks c).seq + 1, .sent op⟩) (hkv : s'.kv = s.kv)
    (hev : s'.events = s.events ++ [.invoke c ((s.clerks c).seq + 1) op]) : s'.CallInv c := by
  have hret : ∀ {seq op' v}, .ret c seq op' v ∈ s'.events → .ret c seq op' v ∈ s.events :=
    ret_of_concat hev (by rintro _ _ _ ⟨⟩)
  have hnonneg := h.nonneg
  constructor
  · rw [hck]; dsimp only; omega
  · rw [hck]; intro _; dsimp only; omega
  · rw [hck]; exact h.seen_concat hev (Int.le_add_one le_rfl) fun _ => le_rfl
  · intro seq op' v hr _
    rw [hck]
    exact Int.lt_add_one_of_le (h.seen _ (hret hr) rfl)
  · rw [hkv, hck]
    exact fun dt hdt => (h.table dt hdt).trans (Int.le_add_one le_rfl)
  · rw [hck, hev]
    intro op' hop
    obtain rfl := Option.some.inj hop
    simp
  · rw [hkv, hck]
    intro op' dt _ hdt hseq
    have := h.table dt hdt
    dsimp only at hseq
    omega
  · rw [hck]
    intro op' _ _ _
    rw [effects_frame hev rfl, effects, List.filterMap_eq_nil_iff]
    intro ev hmem
    refine KVEvent.effect_eq_none fun hc => ?_
    have := h.seen ev hmem hc
    dsimp only
    omega
  · rw [hck]; exact nofun
  · rw [hkv]
    exact fun seq op' v hr => h.appended seq op' v (hret hr)
  · exact h.once_concat hev (by rintro _ _ _ ⟨⟩) fun _ _ _ _ => rfl

/-- The request or its reply is lost. -/
theorem CallInv.lost (h : s.CallInv c) (hop : (s.clerks c).phase.op = some op)
    (hck : s'.clerks c = ⟨(s.clerks c).seq, .sent op⟩) (hkv : s'.kv = s.kv)
    (hev : s'.events = s.events ++ [.lost c (s.clerks c).seq]) : s'.CallInv c := by
  have hne : (s.clerks c).phase ≠ .idle := by rintro heq; rw [heq] at hop; cases hop
  have hret : ∀ {seq op' v}, .ret c seq op' v ∈ s'.events → .ret c seq op' v ∈ s.events :=
    ret_of_concat hev (by rintro _ _ _ ⟨⟩)
  constructor
  · rw [hck]; exact h.nonneg
  · rw [hck]; exact fun _ => h.active hne
  · rw [hck]; exact h.seen_concat hev le_rfl fun _ => le_rfl
  · rw [hck]; exact fun seq op' v hr _ => h.old seq op' v (hret hr) hne
  · rw [hck, hkv]; exact h.table
  · rw [hck, hev]
    exact fun op' hop' => List.mem_append_left _ (h.invoked op' (hop.trans hop'))
  · rw [hck, hkv]
    exact fun op' dt hop' hdt hseq => (h.recorded op' dt (hop.trans hop') hdt hseq).frame hev rfl
  · rw [hck, hkv, effects_frame hev rfl]
    exact fun op' hop' => h.pending op' (hop.trans hop')
  · rw [hck]; exact nofun
  · rw [hkv]; exact fun seq op' v hr => h.appended seq op' v (hret hr)
  · exact h.once_concat hev (by rintro _ _ _ ⟨⟩) fun _ _ _ _ => rfl

theorem CallInv.ret (h : s.CallInv c) (hphase : (s.clerks c).phase = .answered op value)
    (hck : s'.clerks c = ⟨(s.clerks c).seq, .idle⟩) (hkv : s'.kv = s.kv)
    (hev : s'.events = s.events ++ [.ret c (s.clerks c).seq op value]) : s'.CallInv c := by
  have hop : (s.clerks c).phase.op = some op := by rw [hphase]; rfl
  have hne : (s.clerks c).phase ≠ .idle := by rw [hphase]; rintro ⟨⟩
  have hret : ∀ {seq op' v}, .ret c seq op' v ∈ s'.events →
      .ret c seq op' v ∈ s.events ∧ seq < (s.clerks c).seq ∨
        seq = (s.clerks c).seq ∧ op' = op ∧ v = value := by
    intro seq op' v hr
    rw [hev] at hr
    rcases List.mem_append.mp hr with hold | hnew
    · exact .inl ⟨hold, h.old seq op' v hold hne⟩
    · obtain ⟨-, h1, h2, h3⟩ := KVEvent.ret.inj (List.mem_singleton.mp hnew)
      exact .inr ⟨h1, h2, h3⟩
  have hbefore : ∀ {seq}, seq ≤ (s.clerks c).seq → s'.AppendedBefore c seq →
      s.AppendedBefore c seq := by
    rintro seq hle ⟨seq', op', v', hlt, happ, hr⟩
    rcases hret hr with ⟨hold, -⟩ | ⟨rfl, -⟩
    · exact ⟨seq', op', v', hlt, happ, hold⟩
    · omega
  constructor
  · rw [hck]; exact h.nonneg
  · rw [hck]; exact fun hc => absurd rfl hc
  · rw [hck]; exact h.seen_concat hev le_rfl fun _ => le_rfl
  · rw [hck]; exact fun _ _ _ _ hc => absurd rfl hc
  · rw [hck, hkv]; exact h.table
  · rw [hck]; exact nofun
  · rw [hck]; exact nofun
  · rw [hck]; exact nofun
  · rw [hck]; exact nofun
  · rw [hkv]
    intro seq op' v hr happ
    rcases hret hr with ⟨hold, -⟩ | ⟨-, rfl, -⟩
    · exact h.appended seq op' v hold happ
    · rw [h.answered op' value hphase (.inr happ)]
      exact nofun
  · intro seq op' v hr hcase
    rcases hret hr with ⟨hold, hlt⟩ | ⟨rfl, rfl, rfl⟩
    · exact (h.once seq op' v hold (hcase.imp_right (And.imp_right (hbefore hlt.le)))).frame hev rfl
    · -- the call is recorded: it appends, or the client has a table entry since it appended
      have hrec : s.kv.Records c op' := by
        rcases hcase with happ | ⟨-, hb⟩
        · exact .inr happ
        · obtain ⟨seq', op'', v', -, happ, hr'⟩ := hbefore le_rfl hb
          exact .inl (h.appended seq' op'' v' hr' happ)
      have htable := h.answered op' v hphase hrec
      obtain ⟨e, heff, hop', hdata, hdt, -, -, hsub⟩ := h.recorded op' _ hop htable rfl
      refine ⟨e, (effects_frame hev rfl).trans heff, hop', hdata, (DupTable.mk.inj hdt).2, ?_⟩
      rw [hev]
      exact hsub.append (List.Sublist.refl [_])

/-- An answer from the table is the one that was recorded, also for a `Put`. -/
theorem CallInv.call_dup (h : s.CallInv c) (hop : (s.clerks c).phase.op = some op) {dt : DupTable}
    (hdt : s.kv.clientTable c = some dt) (hdup : dt.seq = (s.clerks c).seq) :
    s.kv.call c (s.clerks c).seq op = (s.kv, dt.value) := by
  obtain ⟨e, -, -, -, rfl, -⟩ := h.recorded op dt hop hdt hdup
  cases op <;>
    simp [KVServer.call, KVServer.get, KVServer.put, KVServer.append, hdt, KVServer.result]

/-- What an execution keeps, however the handler serves the request: the table entry it leaves is
    not ahead of the clerk, comes from the call if it has its number, and holds the answer if the
    call is one to record. -/
theorem CallInv.served (h : s.CallInv c) (hphase : (s.clerks c).phase = .sent op)
    (hck : s'.clerks c = ⟨(s.clerks c).seq, .answered op value⟩)
    (hev : s'.events = s.events ++ [.exec ⟨c, (s.clerks c).seq, op, s.kv⟩])
    (htable : ∀ dt, s'.kv.clientTable c = some dt → dt.seq ≤ (s.clerks c).seq)
    (hrecorded : ∀ dt, s'.kv.clientTable c = some dt → dt.seq = (s.clerks c).seq →
      s'.Recorded c (s.clerks c).seq op dt)
    (hanswered : s'.kv.Records c op → s'.kv.clientTable c = some ⟨(s.clerks c).seq, value⟩)
    (hsome : s.kv.clientTable c ≠ none → s'.kv.clientTable c ≠ none) : s'.CallInv c := by
  have hop : (s.clerks c).phase.op = some op := by rw [hphase]; rfl
  have hne : (s.clerks c).phase ≠ .idle := by rw [hphase]; rintro ⟨⟩
  have hret : ∀ {seq op' v}, .ret c seq op' v ∈ s'.events → .ret c seq op' v ∈ s.events :=
    ret_of_concat hev (by rintro _ _ _ ⟨⟩)
  constructor
  · rw [hck]; exact h.nonneg
  · rw [hck]; exact fun _ => h.active hne
  · rw [hck]; exact h.seen_concat hev le_rfl fun _ => le_rfl
  · rw [hck]; exact fun seq op' v hr _ => h.old seq op' v (hret hr) hne
  · rw [hck]; exact htable
  · rw [hck, hev]
    exact fun op' hop' => List.mem_append_left _ (h.invoked op' (hop.trans hop'))
  · rw [hck]
    intro op' dt hop'
    obtain rfl := Option.some.inj hop'
    exact hrecorded dt
  · rw [hck]
    intro op' hop' hr ha
    obtain rfl := Option.some.inj hop'
    exact absurd ⟨_, hanswered hr, rfl⟩ ha
  · rw [hck]
    intro op' v hp hr
    obtain ⟨rfl, rfl⟩ := Phase.answered.inj hp
    exact hanswered hr
  · exact fun seq op' v hr happ => hsome (h.appended seq op' v (hret hr) happ)
  · exact h.once_concat hev (by rintro _ _ _ ⟨⟩) fun seq op' v hr =>
      KVEvent.effect_eq_none fun _ => (ne_of_lt (h.old seq op' v hr hne)).symm

/-- An execution that records the call is the one its table entry comes from. -/
theorem CallInv.recorded_exec (h : s.CallInv c) (hop : (s.clerks c).phase.op = some op)
    (hans : ¬ s.kv.Answers c (s.clerks c).seq) (hrec : s.kv.Records c op)
    (hcall : s.kv.call c (s.clerks c).seq op
      = ((s.kv.apply op).record c ⟨(s.clerks c).seq, s.kv.result op⟩, s.kv.result op))
    (hev : s'.events = s.events ++ [.exec ⟨c, (s.clerks c).seq, op, s.kv⟩]) :
    s'.Recorded c (s.clerks c).seq op ⟨(s.clerks c).seq, s.kv.result op⟩ := by
  refine ⟨⟨c, (s.clerks c).seq, op, s.kv⟩, ?_, rfl, ?_, rfl, ?_, ?_, ?_⟩
  · rw [effects_concat hev, h.pending op hop hrec hans, KVEvent.effect, if_pos ⟨rfl, rfl, hans⟩]
    rfl
  · rw [Exec.after, hcall]; rfl
  · rw [Exec.reply, hcall]
  · rw [Exec.after, hcall]; simp [KVServer.record]
  · rw [hev]
    exact (List.singleton_sublist.mpr (h.invoked op hop)).append (List.Sublist.refl [_])

/-- The handler runs: from the table, recording the call, or leaving it unrecorded. -/
theorem CallInv.exec (h : s.CallInv c) (hphase : (s.clerks c).phase = .sent op)
    (hck : s'.clerks c = ⟨(s.clerks c).seq, .answered op (s.kv.call c (s.clerks c).seq op).2⟩)
    (hkv : s'.kv = (s.kv.call c (s.clerks c).seq op).1)
    (hev : s'.events = s.events ++ [.exec ⟨c, (s.clerks c).seq, op, s.kv⟩]) : s'.CallInv c := by
  have hop : (s.clerks c).phase.op = some op := by rw [hphase]; rfl
  have hne : (s.clerks c).phase ≠ .idle := by rw [hphase]; rintro ⟨⟩
  have hseq : (s.clerks c).seq ≠ -1 := by have := h.active hne; omega
  rcases s.kv.call_cases c hseq op with ⟨dt, hdt, hdup, -⟩ | ⟨hans, hrec, hcall⟩ |
    ⟨hnone, happ, hcall⟩
  · rw [h.call_dup hop hdt hdup] at hkv hck
    refine h.served hphase hck hev (hkv ▸ h.table) (fun dt' hdt' _ => ?_) (fun _ => ?_) (hkv ▸ id)
    · rw [hkv, hdt] at hdt'
      obtain rfl := Option.some.inj hdt'
      exact (h.recorded op dt hop hdt hdup).frame hev (if_neg fun hc => hc.2.2 ⟨dt, hdt, hdup⟩)
    · rw [hkv, hdt, ← hdup]
  · rw [hcall] at hkv hck
    have htable : s'.kv.clientTable c = some ⟨(s.clerks c).seq, s.kv.result op⟩ := by
      rw [hkv]; simp [KVServer.record]
    refine h.served hphase hck hev (fun dt' hdt' => ?_) (fun dt' hdt' _ => ?_) (fun _ => htable)
      (fun _ => by rw [htable]; rintro ⟨⟩)
    · rw [htable] at hdt'
      obtain rfl := Option.some.inj hdt'
      exact le_rfl
    · rw [htable] at hdt'
      obtain rfl := Option.some.inj hdt'
      exact h.recorded_exec hop hans hrec hcall hev
  · rw [hcall] at hkv hck
    have htable : s'.kv.clientTable c = none := by rw [hkv, KVServer.apply_clientTable, hnone]
    refine h.served hphase hck hev (by rw [htable]; rintro _ ⟨⟩) (by rw [htable]; rintro _ ⟨⟩)
      (fun hr => ?_) (fun hc => absurd hnone hc)
    rcases hr with hr | hr
    · exact absurd htable hr
    · exact absurd happ hr

/-- All clerks, after a step of one of them. -/
theorem callInv_step {e : ℤ × KVAction} (h : ∀ c, s.CallInv c) (hmove : s.Move e s') :
    ∀ c, s'.CallInv c := by
  intro d
  cases hmove with
  | @invoke c op phase =>
    rcases eq_or_ne d c with rfl | hne
    · exact (h d).invoke (advance_clerks_self ..) rfl rfl
    · exact (h d).frame rfl hne.symm (advance_clerks_of_ne hne ..) rfl
  | @dropRequest c op phase =>
    rcases eq_or_ne d c with rfl | hne
    · exact (h d).lost (by rw [phase]; rfl) (advance_clerks_self ..) rfl rfl
    · exact (h d).frame rfl hne.symm (advance_clerks_of_ne hne ..) rfl
  | @exec c op phase =>
    rcases eq_or_ne d c with rfl | hne
    · exact (h d).exec phase (advance_clerks_self ..) rfl rfl
    · exact (h d).frame rfl hne.symm (advance_clerks_of_ne hne ..)
        (KVServer.call_clientTable_of_ne _ hne ..)
  | @dropReply c op value phase =>
    rcases eq_or_ne d c with rfl | hne
    · exact (h d).lost (by rw [phase]; rfl) (advance_clerks_self ..) rfl rfl
    · exact (h d).frame rfl hne.symm (advance_clerks_of_ne hne ..) rfl
  | @ret c op value phase =>
    rcases eq_or_ne d c with rfl | hne
    · exact (h d).ret phase (advance_clerks_self ..) rfl rfl
    · exact (h d).frame rfl hne.symm (advance_clerks_of_ne hne ..) rfl

theorem callInv_run {ok : KVSystem → ℤ × KVAction → Prop} (h : Run step ok init s) (c : ℤ) :
    s.CallInv c :=
  h.invariant (P := fun s => ∀ c, s.CallInv c) callInv_init
    (fun _ _ _ hs _ hstep => callInv_step hs (step_move hstep)) c

/-! ### Answers from the table -/

theorem Recorded.exec_mem {dt : DupTable} (h : s.Recorded c seq op dt) :
    ∃ e : Exec, e.client = c ∧ e.seq = seq ∧ e.op = op ∧ ¬ e.before.Answers c seq ∧
      e.after.clientTable c = some dt ∧ e.reply = dt.value ∧ .exec e ∈ s.events := by
  obtain ⟨e, heff, hop, -, rfl, hreply, htable, -⟩ := h
  have hmem : e ∈ s.effects c seq := by rw [heff]; exact List.mem_singleton_self e
  obtain ⟨ev, hev, heffect⟩ := List.mem_filterMap.mp hmem
  cases ev with
  | exec e' =>
    rw [KVEvent.effect] at heffect
    split at heffect
    · rename_i hc
      obtain rfl := Option.some.inj heffect
      exact ⟨e', hc.1, hc.2.1, hop, hc.2.2, htable, hreply, hev⟩
    · cases heffect
  | _ => cases heffect

theorem DupAnswered.frame {ev : KVEvent} (hev : s'.events = s.events ++ [ev]) {e : Exec}
    (h : s.DupAnswered e) : s'.DupAnswered e := by
  intro dt hdt hseq
  obtain ⟨hafter, hreply, e', h1, h2, h3, h4, h5, h6, hsub⟩ := h dt hdt hseq
  exact ⟨hafter, hreply, e', h1, h2, h3, h4, h5, h6,
    hev ▸ hsub.trans (List.sublist_append_left ..)⟩

theorem dupAnswered_step {e : ℤ × KVAction} (hI : ∀ c, s.CallInv c)
    (h : ∀ x, .exec x ∈ s.events → s.DupAnswered x) (hmove : s.Move e s') :
    ∀ x, .exec x ∈ s'.events → s'.DupAnswered x := by
  have hold : ∀ {ev x}, s'.events = s.events ++ [ev] → .exec x ∈ s.events → s'.DupAnswered x :=
    fun hev hx => (h _ hx).frame hev
  intro x hx
  cases hmove with
  | @exec c op phase =>
    rcases List.mem_append.mp hx with hx | hx
    · exact hold rfl hx
    · obtain rfl := KVEvent.exec.inj (List.mem_singleton.mp hx)
      have hop : (s.clerks c).phase.op = some op := by rw [phase]; rfl
      intro dt hdt hseq
      obtain ⟨e', rfl, h2, h3, h4, h5, h6, hmem⟩ := ((hI c).recorded op dt hop hdt hseq).exec_mem
      refine ⟨?_, ?_, e', rfl, h2, h3, h2.symm ▸ h4, h5, h6, ?_⟩
      · rw [Exec.after, (hI _).call_dup hop hdt hseq]
      · rw [Exec.reply, (hI _).call_dup hop hdt hseq]
      · exact (List.singleton_sublist.mpr hmem).append (List.Sublist.refl [_])
  | _ =>
    rcases List.mem_append.mp hx with hx | hx
    · exact hold rfl hx
    · cases List.mem_singleton.mp hx

theorem dupAnswered_run {ok : KVSystem → ℤ × KVAction → Prop} (h : Run step ok init s) :
    ∀ x, .exec x ∈ s.events → s.DupAnswered x := by
  refine (h.invariant (P := fun s => (∀ c, s.CallInv c) ∧ ∀ x, .exec x ∈ s.events → s.DupAnswered x)
    ⟨callInv_init, fun x hx => by cases hx⟩ fun s s' e hs _ hstep => ?_).2
  exact ⟨callInv_step hs.1 (step_move hstep), dupAnswered_step hs.1 hs.2 (step_move hstep)⟩

/-! ### The server is what the executions make of it -/

/-- The server after the event. -/
def KVEvent.runs (kv : KVServer) : KVEvent → KVServer
  | .exec e => (kv.call e.client e.seq e.op).1
  | _ => kv

/-- The server after these events. -/
def replay (events : List KVEvent) : KVServer := events.foldl KVEvent.runs .start

/-- The server is the one that the executions lead to, and each execution found the one that those
    before it lead to. -/
def Replayed (s : KVSystem) : Prop :=
  s.kv = replay s.events ∧ ∀ before e, before ++ [.exec e] <+: s.events → e.before = replay before

theorem Replayed.concat (h : s.Replayed) {ev : KVEvent} (hev : s'.events = s.events ++ [ev])
    (hkv : s'.kv = KVEvent.runs s.kv ev) (hexec : ∀ e, ev = .exec e → e.before = s.kv) :
    s'.Replayed := by
  constructor
  · rw [hkv, hev, replay, List.foldl_append, h.1]
    rfl
  · intro before e hpre
    rw [hev] at hpre
    rcases List.prefix_concat_iff.mp hpre with heq | hold
    · obtain ⟨rfl, heq'⟩ := List.append_inj' heq rfl
      rw [← h.1]
      exact hexec e (List.singleton_inj.mp heq').symm
    · exact h.2 before e hold

theorem replayed_run {ok : KVSystem → ℤ × KVAction → Prop} (h : Run step ok init s) :
    s.Replayed := by
  refine h.invariant ⟨rfl, fun before e hpre => ?_⟩ fun s s' e hs _ hstep => ?_
  · simp [init] at hpre
  · cases step_move hstep with
    | @exec c op phase =>
      refine hs.concat rfl rfl ?_
      rintro _ ⟨⟩
      rfl
    | _ => exact hs.concat rfl rfl nofun

end KVSystem
end DistLabs.KV
