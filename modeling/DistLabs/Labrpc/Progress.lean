import DistLabs.Labrpc.Calm
import DistLabs.Schemes.Fairness

/-! # Every call returns

    Whatever the tests switch off and whatever is lost, `Call` returns, with a reply or a failure:
    the goroutines of a call can always go on, and apart from the waiting loop of `processReq` each
    of their steps brings the end nearer. -/

namespace DistLabs.Labrpc

variable {η ν σ α β : Type}

/-- The steps that are left before the call returns, those of the handler apart. -/
def Proc.rank : Proc ν β → ℕ
  | .sending => 10
  | .received => 9
  | .routed _ => 8
  | .waiting _ => 4
  | .collected _ _ => 3
  | .timer | .delayed _ => 2
  | .replying _ => 1
  | .returned _ => 0

def Handler.rank : Handler β → ℕ
  | .spawned _ => 3
  | .entered _ => 2
  | .finished _ => 1
  | .idle | .taken _ => 0

def Rpc.rank (c : Rpc η ν α β) : ℕ := c.proc.rank + c.handler.rank

namespace Net

variable {handle : σ → α → σ × β} {objects : ℕ → σ} {s s' : Net η ν σ α β} {k : ℕ}
  {c c' : Rpc η ν α β} {a : CallAction}

/-- Only a round of the waiting loop leaves the call where it is. -/
theorem Act.rank_lt (h : s.Act handle k c a s' c') : c' = c ∨ c'.rank < c.rank := by
  cases h with
  | alive => exact .inl rfl
  | accept proc | abandon proc | route proc | unrouted proc | expire proc | release proc
  | dropRequest proc | dead proc | refuse proc | killed proc | dropReply proc | delay proc
  | answer proc | deliver proc | dispatch proc =>
    right
    simp only [Rpc.rank, proc, Proc.rank, Handler.rank]
    omega
  | enter handler | handle handler | drain _ handler =>
    right
    simp only [Rpc.rank, handler, Handler.rank]
    omega
  | collect proc handler =>
    right
    simp only [Rpc.rank, proc, handler, Proc.rank, Handler.rank]
    omega

/-- A call that has not returned can go on. -/
theorem exists_callStep (handle : σ → α → σ × β) (hproc : ProcInv c.handler c.proc)
    (hdone : s.receiving = true ∨ s.done = true) (hreturned : ∀ reply, c.proc ≠ .returned reply) :
    ∃ a s' c', s.callStep handle k c a = some (s', c') ∧ c' ≠ c := by
  obtain ⟨endname, req, proc, g⟩ := c
  cases proc with
  | sending =>
    rcases hdone with hdone | hdone
    · exact ⟨.accept, s, _, if_pos hdone, by simp⟩
    · exact ⟨.abandon, s, _, if_pos hdone, by simp⟩
  | received =>
    cases hinfo : s.readEndnameInfo endname with
    | none => exact ⟨.route, s, ⟨endname, req, .timer, g⟩, by simp only [callStep, hinfo], by simp⟩
    | some r =>
      exact ⟨.route, s, ⟨endname, req, .routed r, g⟩, by simp only [callStep, hinfo], by simp⟩
  | timer => exact ⟨.fire, s, _, rfl, by simp⟩
  | routed r => exact ⟨.dispatch, s, _, rfl, by simp⟩
  | waiting r =>
    -- the handler is running
    cases g with
    | idle => exact absurd hproc id
    | spawned p => exact ⟨.enter, _, _, rfl, by simp⟩
    | entered p => exact ⟨.handle, _, _, rfl, by simp⟩
    | finished reply => exact ⟨.collect, s, _, rfl, by simp⟩
    | taken reply => exact absurd hproc id
  | collected r reply =>
    cases reply with
    | none => exact ⟨.answer false false, s, _, rfl, by simp⟩
    | some reply =>
      by_cases hdead : s.isServerDead endname r.servername r.server = true
      · exact ⟨.answer false false, s, _, if_pos hdead, by simp⟩
      · exact ⟨.answer false false, s, ⟨endname, req, .replying (some reply), g⟩,
          by simp [callStep, hdead], by simp⟩
  | delayed reply => exact ⟨.fire, s, _, rfl, by simp⟩
  | replying reply => exact ⟨.deliver, s, _, rfl, by simp⟩
  | returned reply => exact absurd rfl (hreturned reply)

variable [DecidableEq η] [DecidableEq ν]

theorem configStep_done {a : ConfigAction η ν} (hs : s.configStep a = .ok s')
    (h : s.receiving = true ∨ s.done = true) : s'.receiving = true ∨ s'.done = true := by
  cases configStep_config hs with
  | cleanup => exact .inr rfl
  | stop done => exact .inr done
  | _ => exact h

theorem step_done {e : Action η ν α} (hs : s.step handle e = .ok s')
    (h : s.receiving = true ∨ s.done = true) : s'.receiving = true ∨ s'.done = true := by
  cases step_move hs with
  | call => exact h
  | on hget hact => cases hact <;> exact h
  | config hconfig => exact configStep_done hconfig h

/-- Call `k` has returned, if it was made. -/
def Returned (k : ℕ) (s : Net η ν σ α β) : Prop :=
  ∀ c, s.calls[k]? = some c → ∃ reply, c.proc = .returned reply

/-- A step of a goroutine of call `k`, other than an idle round of the waiting loop. -/
def Works (handle : σ → α → σ × β) (k : ℕ) (s : Net η ν σ α β) (e : Action η ν α) : Prop :=
  ∃ a, e = .on k a ∧ ∀ t, s.step handle e = .ok t → t.calls[k]? ≠ s.calls[k]?

def rankOf (k : ℕ) (s : Net η ν σ α β) : ℕ := (s.calls[k]?.map Rpc.rank).getD 0

theorem exists_works (hinv : s.Inv handle objects) (hdone : s.receiving = true ∨ s.done = true)
    (hreturned : ¬ Returned k s) : ∃ e t, Works handle k s e ∧ s.step handle e = .ok t := by
  simp only [Returned, not_forall, not_exists] at hreturned
  obtain ⟨c, hget, hproc⟩ := hreturned
  obtain ⟨a, s₁, c', hact, hne⟩ :=
    exists_callStep (k := k) handle (hinv.calls k c hget).proc hdone hproc
  have hs : s.step handle (.on k a) = .ok { s₁ with calls := s.calls.set k c' } := by
    simp only [step, hget, hact]
  refine ⟨.on k a, _, ⟨a, rfl, ?_⟩, hs⟩
  intro t ht
  obtain rfl := Except.ok.inj (hs.symm.trans ht)
  rw [List.getElem?_set_self (List.getElem?_eq_some_iff.mp hget).1, hget]
  exact fun h => hne (Option.some.inj h)

theorem rankOf_le {e : Action η ν α} (hreturned : ¬ Returned k s) (hs : s.step handle e = .ok s') :
    s'.calls[k]? = s.calls[k]? ∨ rankOf k s' < rankOf k s := by
  simp only [Returned, not_forall] at hreturned
  obtain ⟨c, hget, -⟩ := hreturned
  have hk : k < s.calls.length := (List.getElem?_eq_some_iff.mp hget).1
  cases step_move hs with
  | call endname req => exact .inl (List.getElem?_append_left hk)
  | on hget' hact =>
    rename_i j d d' a s₁
    by_cases hj : j = k
    · subst hj
      obtain rfl := Option.some.inj (hget.symm.trans hget')
      simp only [rankOf, List.getElem?_set_self hk, hget]
      rcases hact.rank_lt with rfl | hlt
      · exact .inl rfl
      · exact .inr hlt
    · exact .inl (List.getElem?_set_ne hj)
  | config hconfig => exact .inl (by rw [(configStep_frame hconfig).1])

theorem length_calls_le {e : Action η ν α} (hs : s.step handle e = .ok s') :
    s.calls.length ≤ s'.calls.length := by
  cases step_move hs with
  | call endname req => simp [startCall]
  | on hget hact => simp
  | config hconfig => rw [(configStep_frame hconfig).1]

/-- On every path on which the goroutines of a call are not stopped for ever, `Call` returns,
    whatever the tests do with the network meanwhile. -/
theorem call_returns {p : Path (step (η := η) (ν := ν) handle)}
    (h : Run (step handle) (fun _ _ => True) (makeNetwork objects) (p.state 0))
    (hfair : p.Fair (Works handle k)) {i : ℕ} (hk : k < (p.state i).calls.length) :
    ∃ j c reply, i ≤ j ∧ (p.state j).calls[k]? = some c ∧ c.proc = .returned reply := by
  have hrun : ∀ j, Run (step handle) (fun _ _ => True) (p.state 0) (p.state j) :=
    p.run fun _ => trivial
  have hinv : ∀ j, (p.state j).Inv handle objects := fun j => run_inv (h.trans (hrun j))
  have hdone : ∀ j, (p.state j).receiving = true ∨ (p.state j).done = true := fun j =>
    (h.trans (hrun j)).invariant (P := fun s => s.receiving = true ∨ s.done = true) (.inl rfl)
      fun _ _ _ hd _ hs => step_done hs hd
  obtain ⟨j, hij, hreturned⟩ := p.reaches (Returned k) (rankOf k) hfair
    (fun j hj => exists_works (hinv j) (hdone j) hj)
    (fun j hj _ hworks => by
      obtain ⟨a, -, hne⟩ := hworks
      exact (rankOf_le hj (p.next j)).resolve_left (hne _ (p.next j)))
    (fun j hj _ => by
      rcases rankOf_le hj (p.next j) with heq | hlt
      · rw [rankOf, heq, rankOf]
      · exact hlt.le) i
  have hlength : ∀ j, i ≤ j → k < (p.state j).calls.length := by
    intro j hij
    induction j, hij using Nat.le_induction with
    | base => exact hk
    | succ j _ ih => exact ih.trans_le (length_calls_le (p.next j))
  obtain ⟨reply, hproc⟩ := hreturned _ (List.getElem?_eq_getElem (hlength j hij))
  exact ⟨j, _, reply, hij, List.getElem?_eq_getElem (hlength j hij), hproc⟩

/-- The path on which the two calls are made and nothing else happens. -/
theorem exists_path_deposits :
    ∃ p : Path (step (η := ℕ) (ν := ℕ) deposit), p.state 0 = makeNetwork (fun _ => 0) ∧
      (p.state 11).calls.map Rpc.proc = [.waiting ⟨1, 0, false, false⟩, .sending] ∧
      ∀ j, 24 ≤ j → (p.state j).calls[1]? = some ⟨7, 6, .returned none, .taken 5⟩ := by
  obtain ⟨t, ht, hP⟩ := Option.map_eq_some_iff.mp (show (play (step deposit) (fun _ _ => True)
    (makeNetwork fun _ => 0) deposits).map (fun t : Net ℕ ℕ ℕ ℕ ℕ => decide (t.reliable = false ∧
      t.calls[1]? = some ⟨7, 6, .returned none, .taken 5⟩)) = some true by decide +kernel)
  obtain ⟨hreliable, hget⟩ := of_decide_eq_true hP
  have hidle : t.step deposit (.config (.reliable false)) = .ok t := by
    rw [← hreliable]
    rfl
  obtain ⟨p, hzero, hp⟩ := exists_path_of_play hidle ht
  refine ⟨p, hzero, ?_, ?_⟩
  · obtain ⟨u, hu, hP⟩ := Option.map_eq_some_iff.mp (show (play (step deposit) (fun _ _ => True)
      (makeNetwork fun _ => 0) (deposits.take 11)).map (fun t : Net ℕ ℕ ℕ ℕ ℕ =>
        decide (t.calls.map Rpc.proc = [.waiting ⟨1, 0, false, false⟩, .sending])) = some true
      by decide +kernel)
    obtain rfl := Option.some.inj ((hp 11).symm.trans hu)
    exact of_decide_eq_true hP
  · intro j hj
    have hj' := hp j
    rw [List.take_of_length_le (by simpa [deposits] using hj), ht] at hj'
    rw [← Option.some.inj hj']
    exact hget

theorem call_returns_deposits :
    ∃ p : Path (step (η := ℕ) (ν := ℕ) deposit), p.state 0 = makeNetwork (fun _ => 0) ∧
      (p.state 11).calls.map Rpc.proc = [.waiting ⟨1, 0, false, false⟩, .sending] ∧
      p.Fair (Works deposit 1) ∧
      ∃ j c reply, 11 ≤ j ∧ (p.state j).calls[1]? = some c ∧ c.proc = .returned reply := by
  obtain ⟨p, hzero, hprocs, hover⟩ := exists_path_deposits
  have hfair : p.Fair (Works deposit 1) := by
    -- the call is over at last, so its goroutines cannot go on for ever
    intro i henabled
    obtain ⟨e, t, ⟨a, -, hne⟩, hs⟩ := henabled (max i 24) (le_max_left _ _)
    have hget := hover (max i 24) (le_max_right _ _)
    have hsame := (over_step (c := ⟨7, 6, .returned none, .taken 5⟩) rfl id hget hs).1
    exact absurd (hsame.trans hget.symm) (hne t hs)
  have hlength : (p.state 11).calls.length = 2 := by
    simpa using congrArg List.length hprocs
  have hstart : Run (step deposit) (fun _ _ => True) (makeNetwork fun _ => 0) (p.state 0) := by
    rw [hzero]
    exact .refl
  exact ⟨p, hzero, hprocs, hfair, call_returns hstart hfair (by omega)⟩

end Net

end DistLabs.Labrpc
