import DistLabs.KV.ExactlyOnce

/-! # The order of the appends

    A key that is only appended to holds the values of the executions that appended to it, one
    after the other. Of each client these are the values it appended, in the order of its calls:
    those of the calls that have returned, and that of the call under way from the moment it is
    recorded. -/

namespace DistLabs.KV

/-- The value that the operation appends to `key`. -/
def KVOp.appendTo (key : String) : KVOp → Option String
  | .append key' value => if key' = key then some value else none
  | _ => none

theorem KVOp.appendTo_eq_none {op : KVOp} (h : op.appends = none) (key : String) :
    op.appendTo key = none := by
  cases op with
  | append => cases h
  | _ => rfl

/-- What a call of client `c` has appended to `key`, seen when it is invoked. -/
def KVEvent.invoked (c : ℤ) (key : String) : KVEvent → Option String
  | .invoke d _ op => if d = c then op.appendTo key else none
  | _ => none

/-- The same, seen when the call returns. -/
def KVEvent.returned (c : ℤ) (key : String) : KVEvent → Option String
  | .ret d _ op _ => if d = c then op.appendTo key else none
  | _ => none

/-- The same for all clients, seen when a handler does the operation. -/
def KVEvent.applied (key : String) : KVEvent → Option (ℤ × String)
  | .exec e =>
    if e.before.Answers e.client e.seq then none else (e.op.appendTo key).map (e.client, ·)
  | _ => none

/-- The values of client `c`. -/
def ofClient (c : ℤ) (order : List (ℤ × String)) : List String :=
  (order.filter (·.1 = c)).map Prod.snd

theorem ofClient_append (c : ℤ) (l₁ l₂ : List (ℤ × String)) :
    ofClient c (l₁ ++ l₂) = ofClient c l₁ ++ ofClient c l₂ := by
  simp [ofClient]

theorem ofClient_toList_self (c : ℤ) (o : Option String) :
    ofClient c (o.map (c, ·)).toList = o.toList := by
  cases o <;> simp [ofClient]

theorem ofClient_toList_of_ne {c d : ℤ} (hne : d ≠ c) (o : Option String) :
    ofClient c (o.map (d, ·)).toList = [] := by
  cases o <;> simp [ofClient, hne]

namespace KVSystem

variable {s s' : KVSystem} {c : ℤ} {op : KVOp} {value key : String}

/-- What client `c` was asked to append to `key`, in the order of its calls. -/
def invoked (s : KVSystem) (c : ℤ) (key : String) : List String :=
  s.events.filterMap (KVEvent.invoked c key)

/-- What the calls of client `c` that have returned appended to `key`. -/
def returned (s : KVSystem) (c : ℤ) (key : String) : List String :=
  s.events.filterMap (KVEvent.returned c key)

/-- What was appended to `key`, in the order of the executions. -/
def applied (s : KVSystem) (key : String) : List (ℤ × String) :=
  s.events.filterMap (KVEvent.applied key)

/-- What the call under way is to append to `key`. -/
def current (s : KVSystem) (c : ℤ) (key : String) : List String :=
  ((s.clerks c).phase.op.bind (KVOp.appendTo key)).toList

/-- No `Put` on `key` was ever asked for. -/
def OnlyAppends (s : KVSystem) (key : String) : Prop :=
  ∀ op ∈ s.events.filterMap KVEvent.asked, op.puts ≠ some key

instance (s : KVSystem) (key : String) : Decidable (s.OnlyAppends key) :=
  inferInstanceAs (Decidable (∀ op ∈ s.events.filterMap KVEvent.asked, op.puts ≠ some key))

/-- The invariant of client `c` and `key`. -/
structure OrderInv (s : KVSystem) (c : ℤ) (key : String) : Prop where
  issued : s.invoked c key = s.returned c key ++ s.current c key
  done : ofClient c (s.applied key) = s.returned c key ++
    if s.kv.Answers c (s.clerks c).seq then s.current c key else []

/-! ### One more event -/

theorem invoked_concat {ev : KVEvent} (hev : s'.events = s.events ++ [ev]) (c : ℤ) (key : String) :
    s'.invoked c key = s.invoked c key ++ (ev.invoked c key).toList := by
  rw [invoked, hev, filterMap_concat, invoked]

theorem returned_concat {ev : KVEvent} (hev : s'.events = s.events ++ [ev]) (c : ℤ) (key : String) :
    s'.returned c key = s.returned c key ++ (ev.returned c key).toList := by
  rw [returned, hev, filterMap_concat, returned]

theorem applied_concat {ev : KVEvent} (hev : s'.events = s.events ++ [ev]) (key : String) :
    s'.applied key = s.applied key ++ (ev.applied key).toList := by
  rw [applied, hev, filterMap_concat, applied]

/-- An event of another client is not seen. -/
theorem KVEvent.unseen {ev : KVEvent} (hne : ev.client ≠ c) (key : String) :
    ev.invoked c key = none ∧ ev.returned c key = none ∧
      ofClient c (ev.applied key).toList = [] := by
  cases ev with
  | invoke d seq op => exact ⟨if_neg hne, rfl, rfl⟩
  | lost d seq => exact ⟨rfl, rfl, rfl⟩
  | ret d seq op v => exact ⟨rfl, if_neg hne, rfl⟩
  | exec e =>
    refine ⟨rfl, rfl, ?_⟩
    rw [KVEvent.applied]
    split
    · rfl
    · exact ofClient_toList_of_ne hne _

theorem OrderInv.frame (h : s.OrderInv c key) {ev : KVEvent} (hev : s'.events = s.events ++ [ev])
    (hne : ev.client ≠ c) (hck : s'.clerks c = s.clerks c)
    (htable : s'.kv.clientTable c = s.kv.clientTable c) : s'.OrderInv c key := by
  obtain ⟨hinv, hret, happ⟩ := KVEvent.unseen hne key
  have hcur : s'.current c key = s.current c key := by rw [current, hck, current]
  constructor
  · rw [invoked_concat hev, returned_concat hev, hinv, hret, hcur]
    simpa using h.issued
  · rw [applied_concat hev, returned_concat hev, ofClient_append, happ, hret, hcur, hck]
    simp only [KVServer.answers_congr htable]
    simpa using h.done

/-! ### The clerk that takes the step -/

theorem OrderInv.invoke (h : s.OrderInv c key) (hI : s.CallInv c)
    (hphase : (s.clerks c).phase = .idle)
    (hck : s'.clerks c = ⟨(s.clerks c).seq + 1, .sent op⟩) (hkv : s'.kv = s.kv)
    (hev : s'.events = s.events ++ [.invoke c ((s.clerks c).seq + 1) op]) :
    s'.OrderInv c key := by
  have hcur : s.current c key = [] := by rw [current, hphase]; rfl
  have hans : ¬ s.kv.Answers c ((s.clerks c).seq + 1) := by
    rintro ⟨dt, hdt, hseq⟩
    have := hI.table dt hdt
    omega
  constructor
  · rw [invoked_concat hev, returned_concat hev, h.issued, hcur, current, hck]
    simp [KVEvent.invoked, KVEvent.returned, Phase.op]
  · rw [applied_concat hev, returned_concat hev, ofClient_append, h.done, hcur, hck, hkv,
      if_neg hans]
    simp [KVEvent.applied, KVEvent.returned, ofClient]

theorem OrderInv.lost (h : s.OrderInv c key) (hop : (s.clerks c).phase.op = some op)
    (hck : s'.clerks c = ⟨(s.clerks c).seq, .sent op⟩) (hkv : s'.kv = s.kv)
    (hev : s'.events = s.events ++ [.lost c (s.clerks c).seq]) : s'.OrderInv c key := by
  have hcur : s'.current c key = s.current c key := by rw [current, hck, current, hop]; rfl
  constructor
  · rw [invoked_concat hev, returned_concat hev, h.issued, hcur]
    simp [KVEvent.invoked, KVEvent.returned]
  · rw [applied_concat hev, returned_concat hev, ofClient_append, h.done, hcur, hck, hkv]
    simp [KVEvent.applied, KVEvent.returned, ofClient]

theorem OrderInv.ret (h : s.OrderInv c key) (hI : s.CallInv c)
    (hphase : (s.clerks c).phase = .answered op value)
    (hck : s'.clerks c = ⟨(s.clerks c).seq, .idle⟩)
    (hev : s'.events = s.events ++ [.ret c (s.clerks c).seq op value]) : s'.OrderInv c key := by
  have hcur : s.current c key = (op.appendTo key).toList := by rw [current, hphase]; rfl
  have hcur' : s'.current c key = [] := by rw [current, hck]; rfl
  have hret : s'.returned c key = s.returned c key ++ s.current c key := by
    rw [returned_concat hev, hcur, KVEvent.returned, if_pos rfl]
  constructor
  · rw [invoked_concat hev, h.issued, hret, hcur']
    rfl
  · -- a call that appends is recorded when it has an answer
    have hdone : (if s.kv.Answers c (s.clerks c).seq then s.current c key else [])
        = s.current c key := by
      split
      · rfl
      · rename_i hans
        by_cases happ : op.appends = none
        · rw [hcur, KVOp.appendTo_eq_none happ]; rfl
        · exact absurd ⟨_, hI.answered op value hphase (.inr happ), rfl⟩ hans
    rw [applied_concat hev, ofClient_append, h.done, hdone, hret, hcur', ite_self]
    simp [KVEvent.applied, ofClient]

theorem OrderInv.exec (h : s.OrderInv c key) (hI : s.CallInv c)
    (hphase : (s.clerks c).phase = .sent op)
    (hck : s'.clerks c = ⟨(s.clerks c).seq, .answered op (s.kv.call c (s.clerks c).seq op).2⟩)
    (hkv : s'.kv = (s.kv.call c (s.clerks c).seq op).1)
    (hev : s'.events = s.events ++ [.exec ⟨c, (s.clerks c).seq, op, s.kv⟩]) :
    s'.OrderInv c key := by
  have hop : (s.clerks c).phase.op = some op := by rw [hphase]; rfl
  have hseq : (s.clerks c).seq ≠ -1 := by
    have := hI.active (by rw [hphase]; rintro ⟨⟩)
    omega
  have hcur : s.current c key = (op.appendTo key).toList := by rw [current, hop]; rfl
  have hcur' : s'.current c key = s.current c key := by rw [current, hck, hcur]; rfl
  have hret : s'.returned c key = s.returned c key := by
    rw [returned_concat hev]
    exact List.append_nil _
  constructor
  · rw [invoked_concat hev, h.issued, hret, hcur']
    exact List.append_nil _
  · rw [applied_concat hev, ofClient_append, h.done, hret, hcur', hck, KVEvent.applied]
    rcases s.kv.call_cases c hseq op with ⟨dt, hdt, hdup, -⟩ | ⟨hans, -, hcall⟩ |
      ⟨hnone, happ, -⟩
    · have hans : s.kv.Answers c (s.clerks c).seq := ⟨dt, hdt, hdup⟩
      rw [hkv, hI.call_dup hop hdt hdup, if_pos hans, if_pos hans]
      exact List.append_nil _
    · have hans' : s'.kv.Answers c (s.clerks c).seq := by
        rw [hkv, hcall]
        exact ⟨_, Function.update_self .., rfl⟩
      rw [if_neg hans, if_neg hans, if_pos hans', List.append_nil, ofClient_toList_self, hcur]
    · rw [hcur, KVOp.appendTo_eq_none happ]
      simp [ofClient]

theorem orderInv_init (c : ℤ) (key : String) : init.OrderInv c key := by
  constructor
  · rfl
  · have hcur : init.current c key = [] := rfl
    rw [hcur, ite_self]
    rfl

theorem orderInv_step {e : ℤ × KVAction} (hI : ∀ c, s.CallInv c)
    (h : ∀ c key, s.OrderInv c key) (hmove : s.Move e s') : ∀ c key, s'.OrderInv c key := by
  intro d key
  cases hmove with
  | @invoke c op phase =>
    rcases eq_or_ne d c with rfl | hne
    · exact (h d key).invoke (hI d) phase (advance_clerks_self ..) rfl rfl
    · exact (h d key).frame rfl hne.symm (advance_clerks_of_ne hne ..) rfl
  | @dropRequest c op phase =>
    rcases eq_or_ne d c with rfl | hne
    · exact (h d key).lost (by rw [phase]; rfl) (advance_clerks_self ..) rfl rfl
    · exact (h d key).frame rfl hne.symm (advance_clerks_of_ne hne ..) rfl
  | @exec c op phase =>
    rcases eq_or_ne d c with rfl | hne
    · exact (h d key).exec (hI d) phase (advance_clerks_self ..) rfl rfl
    · exact (h d key).frame rfl hne.symm (advance_clerks_of_ne hne ..)
        (KVServer.call_clientTable_of_ne _ hne ..)
  | @dropReply c op value phase =>
    rcases eq_or_ne d c with rfl | hne
    · exact (h d key).lost (by rw [phase]; rfl) (advance_clerks_self ..) rfl rfl
    · exact (h d key).frame rfl hne.symm (advance_clerks_of_ne hne ..) rfl
  | @ret c op value phase =>
    rcases eq_or_ne d c with rfl | hne
    · exact (h d key).ret (hI d) phase (advance_clerks_self ..) rfl
    · exact (h d key).frame rfl hne.symm (advance_clerks_of_ne hne ..) rfl

/-! ### What the key holds -/

theorem OnlyAppends.of_concat {ev : KVEvent} (hev : s'.events = s.events ++ [ev])
    (h : s'.OnlyAppends key) : s.OnlyAppends key := by
  intro op hop
  refine h op ?_
  rw [hev, List.filterMap_append]
  exact List.mem_append_left _ hop

/-- An operation that does not overwrite the key appends to it what it says. -/
theorem apply_read_of_ne {kv : KVServer} (hput : op.puts ≠ some key) :
    (kv.apply op).read key = kv.read key ++ (op.appendTo key).getD "" := by
  cases op with
  | get key' => simp [KVServer.apply, KVOp.appendTo]
  | put key' v =>
    have hne : key ≠ key' := fun hc => hput (hc ▸ rfl)
    simp [KVServer.apply, KVOp.appendTo, hne]
  | append key' v =>
    by_cases hk : key = key'
    · simp [KVServer.apply, KVOp.appendTo, hk]
    · simp [KVServer.apply, KVOp.appendTo, hk, Ne.symm hk]

/-- The value of the key is what was appended to it. -/
def Joined (s : KVSystem) (key : String) : Prop :=
  s.OnlyAppends key → s.kv.read key = String.join ((s.applied key).map Prod.snd)

theorem Joined.frame (h : s.Joined key) {ev : KVEvent} (hev : s'.events = s.events ++ [ev])
    (hkv : s'.kv = s.kv) (happ : ev.applied key = none) : s'.Joined key := by
  intro honly
  rw [hkv, h (honly.of_concat hev), applied_concat hev, happ, Option.toList_none, List.append_nil]

theorem Joined.exec (h : s.Joined key) (hI : s.CallInv c) (hphase : (s.clerks c).phase = .sent op)
    (hkv : s'.kv = (s.kv.call c (s.clerks c).seq op).1)
    (hev : s'.events = s.events ++ [.exec ⟨c, (s.clerks c).seq, op, s.kv⟩]) : s'.Joined key := by
  have hop : (s.clerks c).phase.op = some op := by rw [hphase]; rfl
  have hseq : (s.clerks c).seq ≠ -1 := by
    have := hI.active (by rw [hphase]; rintro ⟨⟩)
    omega
  intro honly
  have hput : op.puts ≠ some key :=
    honly.of_concat hev op (List.mem_filterMap.mpr ⟨_, hI.invoked op hop, rfl⟩)
  have hread := h (honly.of_concat hev)
  -- an execution that is not answered from the table
  have happly : ¬ s.kv.Answers c (s.clerks c).seq →
      s'.kv.read key = (s.kv.apply op).read key →
      s'.kv.read key = String.join ((s'.applied key).map Prod.snd) := by
    intro hans hread'
    rw [hread', apply_read_of_ne hput, hread, applied_concat hev, KVEvent.applied, if_neg hans]
    cases op.appendTo key <;> simp
  rcases s.kv.call_cases c hseq op with ⟨dt, hdt, hdup, -⟩ | ⟨hans, -, hcall⟩ | ⟨hnone, -, hcall⟩
  · rw [applied_concat hev, KVEvent.applied, if_pos ⟨dt, hdt, hdup⟩, hkv, hI.call_dup hop hdt hdup,
      hread, Option.toList_none, List.append_nil]
  · exact happly hans (by rw [hkv, hcall, KVServer.read_record])
  · exact happly (KVServer.not_answers_of_eq_none hnone _) (by rw [hkv, hcall])

theorem joined_step {e : ℤ × KVAction} (hI : ∀ c, s.CallInv c) (h : ∀ key, s.Joined key)
    (hmove : s.Move e s') : ∀ key, s'.Joined key := by
  intro key
  cases hmove with
  | @exec c op phase => exact (h key).exec (hI c) phase rfl rfl
  | _ => exact (h key).frame rfl rfl rfl

theorem order_run {ok : KVSystem → ℤ × KVAction → Prop} (h : Run step ok init s) :
    (∀ c key, s.OrderInv c key) ∧ ∀ key, s.Joined key := by
  refine (h.invariant
    (P := fun s => (∀ c, s.CallInv c) ∧ (∀ c key, s.OrderInv c key) ∧ ∀ key, s.Joined key)
    ⟨callInv_init, orderInv_init, fun key _ => rfl⟩ fun s s' e hs _ hstep => ?_).2
  obtain ⟨hI, ho, hj⟩ := hs
  have hmove := step_move hstep
  exact ⟨callInv_step hI hmove, orderInv_step hI ho hmove, joined_step hI hj hmove⟩

/-! ### Exactly once -/

/-- The key holds a concatenation of values in which those of each client are, in the order of its
    calls, what it has appended: all of its calls that returned, and no others than it made. -/
def HoldsAppends (s : KVSystem) (key : String) : Prop :=
  ∃ order : List (ℤ × String), s.kv.read key = String.join (order.map Prod.snd) ∧
    ∀ c, s.returned c key <+: ofClient c order ∧ ofClient c order <+: s.invoked c key ∧
      ((s.clerks c).phase = .idle → ofClient c order = s.invoked c key)

theorem OrderInv.prefixes (h : s.OrderInv c key) :
    s.returned c key <+: ofClient c (s.applied key) ∧
      ofClient c (s.applied key) <+: s.invoked c key ∧
      ((s.clerks c).phase = .idle → ofClient c (s.applied key) = s.invoked c key) := by
  rw [h.issued, h.done]
  refine ⟨List.prefix_append .., ?_, fun hidle => ?_⟩
  · split
    · exact List.prefix_rfl
    · rw [List.append_nil]
      exact List.prefix_append ..
  · have hcur : s.current c key = [] := by rw [current, hidle]; rfl
    rw [hcur, ite_self]

/-- In every run: the server is what its executions made of it; an `Append` that has returned, and a
    `Put` of a client that had appended before, took effect in exactly one of them; the others of
    such a call, like every execution answered from the table, changed nothing and gave the answer
    that an earlier execution of the same call recorded; and a key that was only appended to holds
    each client's values once each, in the client's order. -/
theorem append_exactly_once (h : Run step (fun _ _ => True) init s) :
    s.Replayed ∧
    (∀ c seq op value, .ret c seq op value ∈ s.events →
      op.appends ≠ none ∨ op.puts ≠ none ∧ s.AppendedBefore c seq →
        s.TakesEffectOnce c seq op value) ∧
    (∀ e ∈ s.execs, s.DupAnswered e) ∧
    ∀ key, s.OnlyAppends key → s.HoldsAppends key := by
  obtain ⟨horder, hjoined⟩ := order_run h
  refine ⟨replayed_run h, fun c => (callInv_run h c).once,
    fun e he => dupAnswered_run h e (mem_execs.mp he), fun key honly => ?_⟩
  exact ⟨s.applied key, hjoined key honly, fun c => (horder c key).prefixes⟩

/-- Client 1 appends to "x" and loses the reply; client 2 appends to "x"; client 1 tries again, and
    then loses the reply of a `Put` as well. -/
def lostReplies : List (ℤ × KVAction) :=
  [(1, .invoke (.append "x" "a")), (1, .exec), (1, .dropReply),
   (2, .invoke (.append "x" "b")), (2, .exec), (2, .ret), (1, .exec), (1, .ret),
   (1, .invoke (.put "y" "c")), (1, .exec), (1, .dropReply), (1, .exec), (1, .ret)]

theorem append_exactly_once_lost_replies : ∃ s : KVSystem, Run step (fun _ _ => True) init s ∧
    s.TakesEffectOnce 1 1 (.append "x" "a") "" ∧ s.TakesEffectOnce 1 2 (.put "y" "c") "" ∧
    (∃ e ∈ s.execs, e.before.Answers e.client e.seq ∧ s.DupAnswered e) ∧
    s.kv.read "x" = "ab" ∧ s.HoldsAppends "x" := by
  obtain ⟨s, hs, happend, hput, ⟨e, he, hans⟩, honly, hx⟩ := exists_run_of_play step
    (fun _ _ => True) init lostReplies
    (fun s => (1, 1, .append "x" "a", "") ∈ s.results ∧ (1, 2, .put "y" "c", "") ∈ s.results ∧
      (∃ e ∈ s.execs, e.before.Answers e.client e.seq) ∧ s.OnlyAppends "x" ∧ s.kv.read "x" = "ab")
    (by decide +kernel)
  rw [mem_results] at happend hput
  obtain ⟨-, honce, hdup, hholds⟩ := append_exactly_once hs
  refine ⟨s, hs, honce _ _ _ _ happend (.inl (by decide)),
    honce _ _ _ _ hput (.inr ⟨by decide, ?_⟩), ⟨e, he, hans, hdup e he⟩, hx, hholds "x" honly⟩
  exact ⟨1, _, _, by decide, by decide, happend⟩

end KVSystem
end DistLabs.KV
