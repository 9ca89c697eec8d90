import DistLabs.KV.ExactlyOnce
import DistLabs.Schemes.Linearize
import Mathlib.Data.List.Permutation

/-! # Linearizability of the key/value service

    The specification is a map from keys to strings. A call takes its place in the linearization
    when a handler does its operation; a `Get` that is done again, because the server has not
    recorded it, moves to the end. A `Put` that is done again cannot move: others may have read
    what it wrote. It has to find its own value still there, and where it does not, the history may
    fail to be linearizable. -/

namespace DistLabs.KV

/-- A map from keys to strings: `Put` overwrites, `Append` concatenates and returns the old value,
    `Get` reads. -/
def kvObject : SeqObject (String → String) KVOp String where
  init := fun _ => ""
  step m
    | .get key => (m, m key)
    | .put key value => (Function.update m key value, "")
    | .append key value => (Function.update m key (m key ++ value), m key)

/-- The operations of the server are those of the map. -/
theorem kvObject_step_read (kv : KVServer) (op : KVOp) :
    kvObject.step kv.read op = ((kv.apply op).read, kv.result op) := by
  cases op with
  | get key => rfl
  | put key value =>
    refine Prod.ext (funext fun k => ?_) rfl
    simp [kvObject, KVServer.apply, Function.update_apply]
  | append key value =>
    refine Prod.ext (funext fun k => ?_) rfl
    simp [kvObject, KVServer.apply, Function.update_apply]

/-- What the history has of an event. -/
def KVEvent.callEvent : KVEvent → Option (CallEvent (ℤ × ℤ) KVOp String)
  | .invoke c seq op => some (.inv (c, seq) op)
  | .ret c seq _ value => some (.res (c, seq) value)
  | _ => none

namespace KVSystem

variable {s s' : KVSystem} {c seq : ℤ} {op : KVOp} {value : String}
  {L L' : List (Call (ℤ × ℤ) KVOp String)}

/-- The invocations and returns of all calls. -/
def history (s : KVSystem) : List (CallEvent (ℤ × ℤ) KVOp String) :=
  s.events.filterMap KVEvent.callEvent

theorem history_concat {ev : KVEvent} (hev : s'.events = s.events ++ [ev]) :
    s'.history = s.history ++ ev.callEvent.toList := by
  rw [history, hev, filterMap_concat, history]

theorem inv_mem_history (h : .invoke c seq op ∈ s.events) : .inv (c, seq) op ∈ s.history :=
  List.mem_filterMap.mpr ⟨_, h, rfl⟩

theorem exists_ret_of_res_mem_history (h : .res (c, seq) value ∈ s.history) :
    ∃ op, .ret c seq op value ∈ s.events := by
  obtain ⟨ev, hev, heq⟩ := List.mem_filterMap.mp h
  cases ev with
  | ret c' seq' op' value' =>
    cases heq
    exact ⟨op', hev⟩
  | _ => cases heq

/-- The call a clerk is in has not returned. -/
theorem CallInv.not_responded (h : s.CallInv c) (hop : (s.clerks c).phase.op = some op)
    (value : String) : .res (c, (s.clerks c).seq) value ∉ s.history := by
  intro hres
  obtain ⟨op', hret⟩ := exists_ret_of_res_mem_history hres
  refine (h.old _ op' value hret ?_).ne rfl
  rintro hidle
  rw [hidle] at hop
  cases hop

/-- A handler that does a `Put` again without a table entry of the client finds that the key still
    has the value of the `Put`. -/
def PutsSettled (s : KVSystem) (e : ℤ × KVAction) : Prop :=
  match e.2, (s.clerks e.1).phase with
  | .exec, .sent (.put key value) => s.kv.clientTable e.1 ≠ none ∨
      s.effects e.1 (s.clerks e.1).seq = [] ∨ s.kv.read key = value
  | _, _ => True

instance (s : KVSystem) (e : ℤ × KVAction) : Decidable (s.PutsSettled e) := by
  unfold PutsSettled
  split <;> infer_instance

/-- What the linearization has of the calls of client `c`. -/
structure Placed (s : KVSystem) (L : List (Call (ℤ × ℤ) KVOp String)) (c : ℤ) : Prop where
  bound : ∀ call ∈ L, call.id.1 = c → call.id.2 ≤ (s.clerks c).seq
  same : ∀ op, (s.clerks c).phase.op = some op →
    ∀ call ∈ L, call.id = (c, (s.clerks c).seq) → call.op = op
  absent : ∀ op, (s.clerks c).phase.op = some op → s.effects c (s.clerks c).seq = [] →
    ∀ call ∈ L, call.id ≠ (c, (s.clerks c).seq)
  put : ∀ op, (s.clerks c).phase.op = some op → op.puts ≠ none →
    s.effects c (s.clerks c).seq ≠ [] → ⟨(c, (s.clerks c).seq), op, ""⟩ ∈ L
  answered : ∀ op value, (s.clerks c).phase = .answered op value →
    ⟨(c, (s.clerks c).seq), op, value⟩ ∈ L
  recorded : ∀ op dt, (s.clerks c).phase.op = some op → s.kv.clientTable c = some dt →
    dt.seq = (s.clerks c).seq → ⟨(c, (s.clerks c).seq), op, dt.value⟩ ∈ L

/-- `L` linearizes the history and leads to the data of the server. -/
structure Explains (s : KVSystem) (L : List (Call (ℤ × ℤ) KVOp String)) : Prop where
  linearizes : kvObject.Linearizes s.history L
  data : kvObject.after kvObject.init L = s.kv.read
  placed : ∀ c, s.Placed L c

theorem explains_init : init.Explains [] := by
  refine ⟨SeqObject.linearizes_nil, rfl, fun c => ?_⟩
  constructor <;> simp [init, Phase.op]

/-! ### Frame -/

/-- A clerk that took no step and whose calls kept their places. -/
theorem Placed.frame (h : s.Placed L c) (hL : ∀ call, call.id.1 = c → (call ∈ L' ↔ call ∈ L))
    {ev : KVEvent} (hev : s'.events = s.events ++ [ev]) (hne : ev.client ≠ c)
    (hck : s'.clerks c = s.clerks c) (htable : s'.kv.clientTable c = s.kv.clientTable c) :
    s'.Placed L' c := by
  have heff : s'.effects c (s.clerks c).seq = s.effects c (s.clerks c).seq :=
    effects_frame hev (KVEvent.effect_eq_none fun hc => absurd hc hne)
  have hid : ∀ {call : Call (ℤ × ℤ) KVOp String}, call.id = (c, (s.clerks c).seq) →
      call.id.1 = c := fun heq => by rw [heq]
  constructor
  · rw [hck]
    exact fun call hcall hc => h.bound call ((hL call hc).mp hcall) hc
  · rw [hck]
    exact fun op hop call hcall hc => h.same op hop call ((hL call (hid hc)).mp hcall) hc
  · rw [hck, heff]
    exact fun op hop hnil call hcall hc =>
      h.absent op hop hnil call ((hL call (hid hc)).mp hcall) hc
  · rw [hck, heff]
    exact fun op hop hput hnil => (hL _ rfl).mpr (h.put op hop hput hnil)
  · rw [hck]
    exact fun op v hphase => (hL _ rfl).mpr (h.answered op v hphase)
  · rw [hck, htable]
    exact fun op dt hop hdt hseq => (hL _ rfl).mpr (h.recorded op dt hop hdt hseq)

/-! ### The clerk that takes the step -/

theorem Placed.invoke (h : s.Placed L c) (hI : s.CallInv c)
    (hck : s'.clerks c = ⟨(s.clerks c).seq + 1, .sent op⟩) (hkv : s'.kv = s.kv)
    (hev : s'.events = s.events ++ [.invoke c ((s.clerks c).seq + 1) op]) :
    s'.Placed L c ∧ ∀ call ∈ L, call.id ≠ (c, (s.clerks c).seq + 1) := by
  have hfresh : ∀ call ∈ L, call.id ≠ (c, (s.clerks c).seq + 1) := by
    intro call hcall heq
    have := h.bound call hcall (by rw [heq])
    rw [heq] at this
    dsimp only at this
    omega
  have hnew : s'.effects c ((s.clerks c).seq + 1) = [] := by
    rw [effects_frame hev rfl, effects, List.filterMap_eq_nil_iff]
    intro ev hmem
    refine KVEvent.effect_eq_none fun hc => ?_
    have := hI.seen ev hmem hc
    omega
  refine ⟨?_, hfresh⟩
  constructor
  · rw [hck]
    exact fun call hcall hc => (h.bound call hcall hc).trans (Int.le_add_one le_rfl)
  · rw [hck]
    exact fun op' _ call hcall heq => absurd heq (hfresh call hcall)
  · rw [hck]
    exact fun op' _ _ => hfresh
  · rw [hck]
    exact fun op' _ _ hne => absurd hnew hne
  · rw [hck]; rintro _ _ ⟨⟩
  · rw [hck, hkv]
    intro op' dt _ hdt hseq
    have := hI.table dt hdt
    dsimp only at hseq
    omega

theorem Placed.lost (h : s.Placed L c) (hop : (s.clerks c).phase.op = some op)
    (hck : s'.clerks c = ⟨(s.clerks c).seq, .sent op⟩) (hkv : s'.kv = s.kv)
    (hev : s'.events = s.events ++ [.lost c (s.clerks c).seq]) : s'.Placed L c := by
  constructor
  · rw [hck]; exact h.bound
  · rw [hck]; exact fun op' hop' => h.same op' (hop.trans hop')
  · rw [hck, effects_frame hev rfl]; exact fun op' hop' => h.absent op' (hop.trans hop')
  · rw [hck, effects_frame hev rfl]; exact fun op' hop' => h.put op' (hop.trans hop')
  · rw [hck]; rintro _ _ ⟨⟩
  · rw [hck, hkv]; exact fun op' dt hop' => h.recorded op' dt (hop.trans hop')

theorem Placed.ret (h : s.Placed L c) (hck : s'.clerks c = ⟨(s.clerks c).seq, .idle⟩) :
    s'.Placed L c := by
  constructor
  · rw [hck]; exact h.bound
  all_goals rw [hck]; exact nofun

/-- The handler has run and the call has its place. -/
theorem Placed.exec (hck : s'.clerks c = ⟨(s.clerks c).seq, .answered op value⟩)
    (hbound : ∀ call ∈ L', call.id.1 = c → call.id.2 ≤ (s.clerks c).seq)
    (hsame : ∀ call ∈ L', call.id = (c, (s.clerks c).seq) → call.op = op)
    (hmem : ⟨(c, (s.clerks c).seq), op, value⟩ ∈ L')
    (heff : s'.effects c (s.clerks c).seq ≠ []) (hput : op.puts ≠ none → value = "")
    (hrec : ∀ dt, s'.kv.clientTable c = some dt → dt.seq = (s.clerks c).seq → dt.value = value) :
    s'.Placed L' c := by
  constructor
  · rw [hck]; exact hbound
  · rw [hck]
    intro op' hop'
    obtain rfl := Option.some.inj hop'
    exact hsame
  · rw [hck]
    exact fun op' _ hnil => absurd hnil heff
  · rw [hck]
    intro op' hop' hp _
    obtain rfl := Option.some.inj hop'
    rw [← hput hp]
    exact hmem
  · rw [hck]
    intro op' v hphase
    obtain ⟨rfl, rfl⟩ := Phase.answered.inj hphase
    exact hmem
  · rw [hck]
    intro op' dt hop' hdt hseq
    obtain rfl := Option.some.inj hop'
    rw [hrec dt hdt hseq]
    exact hmem

/-! ### The handler runs -/

/-- From `s` to `s'` a handler has run for clerk `c` and has answered `value`. -/
structure Executed (s s' : KVSystem) (c : ℤ) (op : KVOp) (value : String) : Prop where
  phase : (s.clerks c).phase.op = some op
  clerk : s'.clerks c = ⟨(s.clerks c).seq, .answered op value⟩
  clerks : ∀ d ≠ c, s'.clerks d = s.clerks d
  table : ∀ d ≠ c, s'.kv.clientTable d = s.kv.clientTable d
  events : s'.events = s.events ++ [.exec ⟨c, (s.clerks c).seq, op, s.kv⟩]

theorem executed_advance (hphase : (s.clerks c).phase = .sent op) :
    s.Executed (s.advance c
      ⟨(s.clerks c).seq, .answered op (s.kv.call c (s.clerks c).seq op).2⟩
      (s.kv.call c (s.clerks c).seq op).1 (.exec ⟨c, (s.clerks c).seq, op, s.kv⟩))
      c op (s.kv.call c (s.clerks c).seq op).2 where
  phase := by rw [hphase]; rfl
  clerk := advance_clerks_self ..
  clerks _ hne := advance_clerks_of_ne hne ..
  table _ hne := KVServer.call_clientTable_of_ne _ hne ..
  events := rfl

theorem Executed.history (hx : s.Executed s' c op value) : s'.history = s.history := by
  rw [history_concat hx.events]
  exact List.append_nil _

/-- The other clerks, when only calls of `c` change their places. -/
theorem Executed.placed_of_ne (hx : s.Executed s' c op value) (h : ∀ d, s.Placed L d)
    (hL : ∀ call : Call (ℤ × ℤ) KVOp String, call.id.1 ≠ c → (call ∈ L' ↔ call ∈ L)) {d : ℤ}
    (hne : d ≠ c) : s'.Placed L' d :=
  (h d).frame (fun call hd => hL call (hd ▸ hne)) hx.events hne.symm (hx.clerks d hne)
    (hx.table d hne)

/-- The call keeps the place it has. -/
theorem Explains.keep (h : s.Explains L) (hx : s.Executed s' c op value)
    (hread : s'.kv.read = s.kv.read) (hmem : ⟨(c, (s.clerks c).seq), op, value⟩ ∈ L)
    (heff : s'.effects c (s.clerks c).seq ≠ []) (hput : op.puts ≠ none → value = "")
    (hrec : ∀ dt, s'.kv.clientTable c = some dt → dt.seq = (s.clerks c).seq → dt.value = value) :
    s'.Explains L := by
  refine ⟨hx.history ▸ h.linearizes, hread ▸ h.data, fun d => ?_⟩
  rcases eq_or_ne d c with rfl | hne
  · exact .exec hx.clerk (h.placed d).bound ((h.placed d).same op hx.phase) hmem heff hput hrec
  · exact hx.placed_of_ne h.placed (fun _ _ => Iff.rfl) hne

/-- A call begins. -/
theorem Explains.invoke (h : s.Explains L) (hI : s.CallInv c) (op : KVOp) :
    (s.advance c ⟨(s.clerks c).seq + 1, .sent op⟩ s.kv
      (.invoke c ((s.clerks c).seq + 1) op)).Explains L := by
  have hclerk := s.advance_clerks_self c ⟨(s.clerks c).seq + 1, .sent op⟩ s.kv
    (.invoke c ((s.clerks c).seq + 1) op)
  obtain ⟨hplaced, hfresh⟩ := (h.placed c).invoke hI hclerk rfl rfl
  refine ⟨?_, h.data, fun d => ?_⟩
  · rw [history_concat rfl]
    exact h.linearizes.invoke hfresh
  · rcases eq_or_ne d c with rfl | hne
    · exact hplaced
    · exact (h.placed d).frame (fun _ _ => Iff.rfl) rfl hne.symm (advance_clerks_of_ne hne ..) rfl

/-- A request or a reply is lost. -/
theorem Explains.lost (h : s.Explains L) (hop : (s.clerks c).phase.op = some op) :
    (s.advance c ⟨(s.clerks c).seq, .sent op⟩ s.kv (.lost c (s.clerks c).seq)).Explains L := by
  refine ⟨?_, h.data, fun d => ?_⟩
  · rw [history_concat rfl]
    exact (List.append_nil s.history).symm ▸ h.linearizes
  · rcases eq_or_ne d c with rfl | hne
    · exact (h.placed d).lost hop (advance_clerks_self ..) rfl rfl
    · exact (h.placed d).frame (fun _ _ => Iff.rfl) rfl hne.symm (advance_clerks_of_ne hne ..) rfl

/-- A call returns. -/
theorem Explains.ret (h : s.Explains L) (hphase : (s.clerks c).phase = .answered op value) :
    (s.advance c ⟨(s.clerks c).seq, .idle⟩ s.kv (.ret c (s.clerks c).seq op value)).Explains L := by
  refine ⟨?_, h.data, fun d => ?_⟩
  · rw [history_concat rfl]
    exact h.linearizes.respond ((h.placed c).answered op value hphase)
  · rcases eq_or_ne d c with rfl | hne
    · exact (h.placed d).ret (advance_clerks_self ..)
    · exact (h.placed d).frame (fun _ _ => Iff.rfl) rfl hne.symm (advance_clerks_of_ne hne ..) rfl

/-- The linearization with the call of clerk `c` moved to its end. -/
def moved (s : KVSystem) (L : List (Call (ℤ × ℤ) KVOp String)) (c : ℤ) (op : KVOp) :
    List (Call (ℤ × ℤ) KVOp String) :=
  L.filter (·.id ≠ (c, (s.clerks c).seq)) ++ [⟨(c, (s.clerks c).seq), op, s.kv.result op⟩]

theorem mem_moved_of_ne {call : Call (ℤ × ℤ) KVOp String} (hne : call.id.1 ≠ c) :
    call ∈ s.moved L c op ↔ call ∈ L := by
  have hid : call.id ≠ (c, (s.clerks c).seq) := fun heq => hne (by rw [heq])
  have hnew : call ≠ ⟨(c, (s.clerks c).seq), op, s.kv.result op⟩ := fun heq => hid (by rw [heq])
  simp [moved, hid, hnew]

/-- The call takes its place at the end; a place it already had can have been that of a read
    only. -/
theorem Explains.moved (h : s.Explains L) (hI : s.CallInv c)
    (hx : s.Executed s' c op (s.kv.result op)) (hdata : s'.kv.read = (s.kv.apply op).read)
    (hreads : ∀ call ∈ L, call.id = (c, (s.clerks c).seq) →
      ∀ m, (kvObject.step m call.op).1 = m)
    (hans : ¬ s.kv.Answers c (s.clerks c).seq)
    (hrec : ∀ dt, s'.kv.clientTable c = some dt → dt.seq = (s.clerks c).seq →
      dt.value = s.kv.result op) : s'.Explains (s.moved L c op) := by
  obtain ⟨hlin, hafter⟩ := h.linearizes.retract (hI.not_responded hx.phase) hreads
  rw [h.data] at hafter
  have hstep := kvObject_step_read s.kv op
  have hfresh : ∀ call ∈ L.filter (·.id ≠ (c, (s.clerks c).seq)),
      call.id ≠ (c, (s.clerks c).seq) :=
    fun call hcall => of_decide_eq_true (List.mem_filter.mp hcall).2
  refine ⟨?_, ?_, fun d => ?_⟩
  · rw [hx.history]
    exact hlin.takeEffect (inv_mem_history (hI.invoked op hx.phase)) (hI.not_responded hx.phase)
      hfresh (by rw [hafter, hstep])
  · rw [KVSystem.moved, SeqObject.after_append, hafter, hdata]
    exact congrArg Prod.fst hstep
  · rcases eq_or_ne d c with rfl | hne
    · refine .exec hx.clerk (fun call hcall hd => ?_) (fun call hcall heq => ?_)
        (List.mem_append_right _ (List.mem_singleton_self _)) ?_ (fun hput => ?_) hrec
      · rcases List.mem_append.mp hcall with hold | hnew
        · exact (h.placed d).bound call (List.mem_of_mem_filter hold) hd
        · rw [List.mem_singleton.mp hnew]
      · rcases List.mem_append.mp hcall with hold | hnew
        · exact absurd heq (hfresh call hold)
        · rw [List.mem_singleton.mp hnew]
      · rw [effects_concat hx.events, KVEvent.effect, if_pos ⟨rfl, rfl, hans⟩]
        simp
      · cases op with
        | put => rfl
        | _ => exact absurd rfl hput
    · exact hx.placed_of_ne h.placed (fun _ hne => mem_moved_of_ne hne) hne

/-- A linearization is found for every way in which the handler serves the request. -/
theorem Explains.exec (h : s.Explains L) (hI : s.CallInv c) (hok : s.PutsSettled (c, .exec))
    (hphase : (s.clerks c).phase = .sent op)
    (hx : s.Executed s' c op (s.kv.call c (s.clerks c).seq op).2)
    (hkv : s'.kv = (s.kv.call c (s.clerks c).seq op).1) : ∃ L', s'.Explains L' := by
  have hop := hx.phase
  have hseq : (s.clerks c).seq ≠ -1 := by
    have := hI.active (by rw [hphase]; rintro ⟨⟩)
    omega
  rcases s.kv.call_cases c hseq op with ⟨dt, hdt, hdup, -⟩ | ⟨hans, hrec, hcall⟩ |
    ⟨hnone, happ, hcall⟩
  · -- from the table: the call has had its effect
    obtain ⟨e, heff, -, -, hval, -⟩ := hI.recorded op dt hop hdt hdup
    rw [hI.call_dup hop hdt hdup] at hx hkv
    refine ⟨L, h.keep hx (by rw [hkv]) ((h.placed c).recorded op dt hop hdt hdup) ?_
      (fun hput => ?_) (fun dt' hdt' _ => ?_)⟩
    · rw [effects_frame hx.events (if_neg fun hc => hc.2.2 ⟨dt, hdt, hdup⟩), heff]
      exact List.cons_ne_nil _ _
    · rw [hval]
      cases op with
      | put => rfl
      | _ => exact absurd rfl hput
    · rw [hkv, hdt] at hdt'
      rw [Option.some.inj hdt']
  · -- done and recorded: this is its first execution
    have habsent := (h.placed c).absent op hop (hI.pending op hop hrec hans)
    rw [hcall] at hx hkv
    refine ⟨_, h.moved hI hx (by rw [hkv]; rfl)
      (fun call hc heq => absurd heq (habsent call hc)) hans fun dt hdt _ => ?_⟩
    rw [hkv] at hdt
    simp only [KVServer.record, Function.update_self, Option.some.injEq] at hdt
    rw [← hdt]
  · -- done and not recorded, possibly not for the first time
    have hans := KVServer.not_answers_of_eq_none hnone (s.clerks c).seq
    have htable : (s.kv.apply op).clientTable c = none := by
      rw [KVServer.apply_clientTable, hnone]
    rw [hcall] at hx hkv
    have hrec : ∀ dt, s'.kv.clientTable c = some dt → dt.seq = (s.clerks c).seq →
        dt.value = s.kv.result op := by
      rw [hkv, htable]
      rintro _ ⟨⟩
    cases op with
    | append => cases happ
    | get key =>
      refine ⟨_, h.moved hI hx (by rw [hkv]) (fun call hc heq m => ?_) hans hrec⟩
      rw [(h.placed c).same _ hop call hc heq]
      rfl
    | put key value =>
      by_cases heff : s.effects c (s.clerks c).seq = []
      · refine ⟨_, h.moved hI hx (by rw [hkv]) (fun call hc heq => ?_) hans hrec⟩
        exact absurd heq ((h.placed c).absent _ hop heff call hc)
      · have hread : s.kv.read key = value := by
          rw [PutsSettled] at hok
          simp only [hphase] at hok
          exact (hok.resolve_left (absurd hnone)).resolve_left heff
        refine ⟨L, h.keep hx (funext fun k => ?_) ((h.placed c).put _ hop (by rintro ⟨⟩) heff) ?_
          (fun _ => rfl) hrec⟩
        · rw [hkv, KVServer.apply, KVServer.read_write]
          split
          · rename_i hk
            rw [hk, hread]
          · rfl
        · rw [effects_concat hx.events]
          exact List.append_ne_nil_of_left_ne_nil heff _

/-! ### Runs -/

theorem Explains.step {e : ℤ × KVAction} (h : s.Explains L) (hI : ∀ c, s.CallInv c)
    (hok : s.PutsSettled e) (hmove : s.Move e s') : ∃ L', s'.Explains L' := by
  cases hmove with
  | @invoke c op phase => exact ⟨L, h.invoke (hI c) op⟩
  | @dropRequest c op phase => exact ⟨L, h.lost (by rw [phase]; rfl)⟩
  | @exec c op phase => exact h.exec (hI c) hok phase (executed_advance phase) rfl
  | @dropReply c op value phase => exact ⟨L, h.lost (by rw [phase]; rfl)⟩
  | @ret c op value phase => exact ⟨L, h.ret phase⟩

/-- A run in which no `Put` is done again over another value has a linearizable history. -/
theorem history_linearizable (h : Run step PutsSettled init s) :
    kvObject.Linearizable s.history := by
  obtain ⟨-, L, hL⟩ := h.invariant (P := fun s => (∀ c, s.CallInv c) ∧ ∃ L, s.Explains L)
    ⟨callInv_init, [], explains_init⟩ fun s s' e ⟨hI, L, hL⟩ hok hstep =>
      ⟨callInv_step hI (step_move hstep), hL.step hI hok (step_move hstep)⟩
  exact ⟨L, hL.linearizes⟩

/-- Client 1 loses the reply of a `Put` and does it again while client 2 reads; neither has
    appended anything. -/
def repeatedPut : List (ℤ × KVAction) :=
  [(1, .invoke (.put "x" "1")), (1, .exec), (1, .dropReply),
   (2, .invoke (.get "x")), (2, .exec), (2, .dropReply), (1, .exec), (1, .ret),
   (2, .exec), (2, .ret)]

theorem history_linearizable_repeated_put : ∃ s, Run step PutsSettled init s ∧
    s.history = [.inv (1, 1) (.put "x" "1"), .inv (2, 1) (.get "x"), .res (1, 1) "",
      .res (2, 1) "1"] ∧ kvObject.Linearizable s.history := by
  obtain ⟨s, hs, hhist⟩ := exists_run_of_play step PutsSettled init repeatedPut
    (fun s => s.history = [.inv (1, 1) (.put "x" "1"), .inv (2, 1) (.get "x"), .res (1, 1) "",
      .res (2, 1) "1"]) (by decide +kernel)
  exact ⟨s, hs, hhist, history_linearizable hs⟩

/-- Client 1 loses the reply of its `Put`; client 2 reads the value and overwrites it; client 1
    tries again, and client 2 reads. -/
def overwrittenPut : List (ℤ × KVAction) :=
  [(1, .invoke (.put "x" "1")), (1, .exec), (1, .dropReply),
   (2, .invoke (.get "x")), (2, .exec), (2, .ret),
   (2, .invoke (.put "x" "2")), (2, .exec), (2, .ret), (1, .exec), (1, .ret),
   (2, .invoke (.get "x")), (2, .exec), (2, .ret)]

/-- What the clerks see of it. -/
def overwrittenHistory : List (CallEvent (ℤ × ℤ) KVOp String) :=
  [.inv (1, 1) (.put "x" "1"), .inv (2, 1) (.get "x"), .res (2, 1) "1",
   .inv (2, 2) (.put "x" "2"), .res (2, 2) "", .res (1, 1) "",
   .inv (2, 3) (.get "x"), .res (2, 3) "1"]

/-- Its calls. -/
def overwrittenCalls : List (Call (ℤ × ℤ) KVOp String) :=
  [⟨(1, 1), .put "x" "1", ""⟩, ⟨(2, 1), .get "x", "1"⟩, ⟨(2, 2), .put "x" "2", ""⟩,
   ⟨(2, 3), .get "x", "1"⟩]

/-- No order of the calls in which those of client 2 are in order gives these results. -/
theorem overwrittenCalls_not_legal : ∀ L ∈ overwrittenCalls.permutations',
    kvObject.Legal kvObject.init L →
    [⟨(2, 1), .get "x", "1"⟩, ⟨(2, 2), .put "x" "2", ""⟩].Sublist L →
    ¬ [⟨(2, 2), .put "x" "2", ""⟩, ⟨(2, 3), .get "x", "1"⟩].Sublist L := by
  decide +kernel

theorem overwrittenHistory_not_linearizable : ¬ kvObject.Linearizable overwrittenHistory := by
  rintro ⟨L, hL⟩
  have hperm : L.Perm overwrittenCalls := by
    refine hL.perm (by decide) (by decide) fun i x hmem => ?_
    simp only [overwrittenHistory, List.mem_cons, List.not_mem_nil, or_false, reduceCtorEq,
      false_or, CallEvent.inv.injEq] at hmem
    rcases hmem with ⟨rfl, rfl⟩ | ⟨rfl, rfl⟩ | ⟨rfl, rfl⟩ | ⟨rfl, rfl⟩
    · exact ⟨"", by decide⟩
    · exact ⟨"1", by decide⟩
    · exact ⟨"", by decide⟩
    · exact ⟨"1", by decide⟩
  have hmem : ∀ call ∈ overwrittenCalls, call ∈ L := fun call hcall => hperm.mem_iff.mpr hcall
  refine overwrittenCalls_not_legal L (List.mem_permutations'.mpr hperm) hL.legal ?_ ?_
  · exact hL.realTime _ (hmem _ (by decide)) _ (hmem _ (by decide)) "1" (by decide)
  · exact hL.realTime _ (hmem _ (by decide)) _ (hmem _ (by decide)) "" (by decide)

/-- The history of a run in which a `Put` is done again need not be linearizable. -/
theorem overwritten_put_not_linearizable : ∃ s, Run step (fun _ _ => True) init s ∧
    ¬ kvObject.Linearizable s.history := by
  obtain ⟨s, hs, hhist⟩ := exists_run_of_play step (fun _ _ => True) init overwrittenPut
    (fun s => s.history = overwrittenHistory) (by decide +kernel)
  exact ⟨s, hs, hhist ▸ overwrittenHistory_not_linearizable⟩

end KVSystem
end DistLabs.KV
