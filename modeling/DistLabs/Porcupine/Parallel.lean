import DistLabs.Porcupine.KvModel
import DistLabs.Schemes.Run

/-! # Checking the parts of a history at the same time (`checkParallel`)

    A goroutine checks each part with `checkSingle` and sends what it finds; the caller takes the
    results as they come and stops early when one is false or the time is over, in which case the
    goroutines are told to stop. A step is one round of a goroutine or one receive of the caller,
    and they interleave in any way. The variables that are shared are `kill`, `longest` and the
    channel, which has room for all results. -/

namespace DistLabs.Porcupine

variable {σ α β : Type} [DecidableEq σ] {n : ℕ}

inductive CheckResult where | unknown | ok | illegal
  deriving DecidableEq

/-- Where a goroutine is: before `checkSingle`, in its loop, with its result, with the result in
    `longest`, or at the end. -/
inductive Task (σ α β : Type) where
  | start (history : List (Entry α β))
  | running (s : Loop σ α β)
  | returned (r : SingleResult)
  | stored (ok : Bool)
  | done

/-- Where the caller is: in its loop, waiting for the goroutines, or at the end. -/
inductive Phase where
  | select
  | drain
  | returned (result : CheckResult)
  deriving DecidableEq

/-- The goroutines and the variables of `checkParallel`. -/
structure Par (σ α β : Type) (n : ℕ) where
  tasks : Fin n → Task σ α β
  longest : Fin n → List (Option (List ℤ))
  results : List Bool
  kill : Bool
  ok : Bool
  timedOut : Bool
  count : ℕ
  phase : Phase

namespace Par

/-- All goroutines are started. -/
def init (history : Fin n → List (Entry α β)) : Par σ α β n where
  tasks i := .start (history i)
  longest _ := []
  results := []
  kill := false
  ok := true
  timedOut := false
  count := 0
  phase := .select

def result (s : Par σ α β n) : CheckResult :=
  if ¬ s.ok then .illegal else if s.timedOut then .unknown else .ok

/-- The end of the loop of the caller. -/
def leave (computeInfo : Bool) (s : Par σ α β n) : Par σ α β n :=
  { s with phase := if computeInfo then .drain else .returned s.result }

inductive Action (n : ℕ) where
  /-- goroutine `i` makes a step -/
  | work (i : Fin n)
  /-- the caller takes a result from the channel -/
  | receive
  | timeout
  /-- the caller returns with the sequences in `longest` -/
  | finish

/-- One step of goroutine `i`. -/
def work (model : Model σ α β) (computeInfo : Bool) (s : Par σ α β n) (i : Fin n) :
    Except Halt (Par σ α β n) :=
  match s.tasks i with
  | .start history =>
    match checkSingleInit model history with
    | none => .error .panic
    | some l => .ok { s with tasks := Function.update s.tasks i (.running l) }
  | .running l =>
    match checkSingleStep model computeInfo s.kill l with
    | none => .error .panic
    | some (.inl l') => .ok { s with tasks := Function.update s.tasks i (.running l') }
    | some (.inr r) => .ok { s with tasks := Function.update s.tasks i (.returned r) }
  | .returned r =>
    .ok { s with
      tasks := Function.update s.tasks i (.stored r.1)
      longest := Function.update s.longest i r.2 }
  | .stored ok =>
    .ok { s with
      tasks := Function.update s.tasks i .done
      results := s.results ++ [ok] }
  | .done => .error .disabled

/-- `result := <-results` in the loop of the caller. -/
def selectResult (computeInfo : Bool) (s : Par σ α β n) (result : Bool) (results : List Bool) :
    Par σ α β n :=
  let s := { s with results := results, count := s.count + 1, ok := s.ok && result }
  if ¬ s.ok ∧ ¬ computeInfo then leave computeInfo { s with kill := true }
  else if s.count ≥ n then leave computeInfo s
  else s

def step (model : Model σ α β) (computeInfo : Bool) (timeout : ℤ) (s : Par σ α β n) :
    Action n → Except Halt (Par σ α β n)
  | .work i => s.work model computeInfo i
  | .receive =>
    match s.phase, s.results with
    | .select, result :: results => .ok (s.selectResult computeInfo result results)
    | .drain, _ :: results =>
      if s.count < n then .ok { s with results := results, count := s.count + 1 }
      else .error .disabled
    | _, _ => .error .disabled
  | .timeout =>
    if s.phase = .select ∧ timeout > 0 then
      .ok (leave computeInfo { s with timedOut := true, kill := true })
    else .error .disabled
  | .finish =>
    if s.phase = .drain ∧ n ≤ s.count then .ok { s with phase := .returned s.result }
    else .error .disabled

/-- All schedules. -/
abbrev Reaches (model : Model σ α β) (computeInfo : Bool) (timeout : ℤ)
    (s t : Par σ α β n) : Prop :=
  Run (step model computeInfo timeout) (fun _ _ => True) s t

/-! ### What holds in every schedule -/

variable {model : Model σ α β} {ts : Fin n → Timeline α β} {history : Fin n → List (Entry α β)}
  {computeInfo : Bool} {timeout : ℤ} {s s' : Par σ α β n} {i : Fin n}

/-- What goroutine `i` has done, with a bound `w` for its steps; `out` are the results sent. -/
def TaskInv (model : Model σ α β) (ts : Fin n → Timeline α β) (history : Fin n → List (Entry α β))
    (computeInfo : Bool) (out : Fin n → Bool) (s : Par σ α β n) (i : Fin n) (w : ℕ) :
    Task σ α β → Prop
  | .start H => H = history i ∧ maxRounds (history i).length + 4 ≤ w
  | .running l => ∃ k, k + 4 ≤ w ∧ Searching model (ts i) (history i) computeInfo k l
  | .returned r => 3 ≤ w ∧ Verdict model (ts i) computeInfo s.kill r
  | .stored ok => 2 ≤ w ∧ Verdict model (ts i) computeInfo s.kill (ok, s.longest i)
  | .done => Verdict model (ts i) computeInfo s.kill (out i, s.longest i)

/-- What the caller knows when it has left its loop. -/
structure Settled (model : Model σ α β) (ts : Fin n → Timeline α β) (computeInfo : Bool)
    (timeout : ℤ) (s : Par σ α β n) : Prop where
  illegal : s.ok = false → ∃ i, ¬ (ts i).Linearizable model
  ok : s.ok = true → s.timedOut = false → ∀ i, (ts i).Linearizable model
  timedOut : s.timedOut = true → timeout > 0
  kill : computeInfo = true → s.timedOut = false → s.kill = false

/-- What holds where the caller is; `sent` are the goroutines that have sent, in this order. -/
def CallerInv (model : Model σ α β) (ts : Fin n → Timeline α β) (computeInfo : Bool)
    (timeout : ℤ) (sent : List (Fin n)) (out : Fin n → Bool) (s : Par σ α β n) : Phase → Prop
  | .select => s.kill = false ∧ s.timedOut = false ∧ (s.count < n ∨ n = 0) ∧
      (s.ok = true ↔ ∀ i ∈ sent.take s.count, out i = true)
  | .drain => Settled model ts computeInfo timeout s ∧ computeInfo = true
  | .returned r => Settled model ts computeInfo timeout s ∧ r = s.result ∧
      (computeInfo = true → n ≤ s.count)

structure Tracks (model : Model σ α β) (ts : Fin n → Timeline α β)
    (history : Fin n → List (Entry α β)) (computeInfo : Bool) (timeout : ℤ)
    (w : Fin n → ℕ) (sent : List (Fin n)) (out : Fin n → Bool) (s : Par σ α β n) : Prop where
  tasks : ∀ i, TaskInv model ts history computeInfo out s i (w i) (s.tasks i)
  nodup : sent.Nodup
  mem : ∀ i, i ∈ sent ↔ s.tasks i = .done
  results : s.results = (sent.drop s.count).map out
  count : s.count ≤ sent.length
  caller : CallerInv model ts computeInfo timeout sent out s s.phase

variable {w : Fin n → ℕ} {sent sent' : List (Fin n)} {out out' : Fin n → Bool} {task : Task σ α β}
  {phase : Phase}

/-- A goroutine does not notice what the others do. -/
theorem TaskInv.congr {k : ℕ} (h : TaskInv model ts history computeInfo out s i k task)
    (hkill : s.kill = true → s'.kill = true) (hlongest : s'.longest i = s.longest i)
    (hout : out' i = out i) : TaskInv model ts history computeInfo out' s' i k task := by
  cases task with
  | start => exact h
  | running => exact h
  | returned => exact ⟨h.1, h.2.mono hkill⟩
  | stored =>
    refine ⟨h.1, ?_⟩
    rw [hlongest]
    exact h.2.mono hkill
  | done =>
    have h : Verdict model (ts i) computeInfo s.kill (out i, s.longest i) := h
    rw [← hlongest, ← hout] at h
    exact h.mono hkill

theorem Settled.congr (h : Settled model ts computeInfo timeout s) (hok : s'.ok = s.ok)
    (htimed : s'.timedOut = s.timedOut) (hkill : s'.kill = s.kill) :
    Settled model ts computeInfo timeout s' := by
  obtain ⟨h1, h2, h3, h4⟩ := h
  constructor
  · rwa [hok]
  · rwa [hok, htimed]
  · rwa [htimed]
  · rwa [htimed, hkill]

/-- The caller notices only what it receives. -/
theorem CallerInv.congr (h : CallerInv model ts computeInfo timeout sent out s phase)
    (hok : s'.ok = s.ok) (htimed : s'.timedOut = s.timedOut) (hkill : s'.kill = s.kill)
    (hcount : s'.count = s.count) (hsent : sent'.take s.count = sent.take s.count)
    (hout : ∀ j ∈ sent, out' j = out j) :
    CallerInv model ts computeInfo timeout sent' out' s' phase := by
  cases phase with
  | select =>
    obtain ⟨h1, h2, h3, h4⟩ := h
    refine ⟨hkill.trans h1, htimed.trans h2, hcount ▸ h3, ?_⟩
    rw [hok, hcount, hsent, h4]
    refine forall₂_congr fun j hj => ?_
    rw [hout j (List.mem_of_mem_take hj)]
  | drain => exact ⟨h.1.congr hok htimed hkill, h.2⟩
  | returned r =>
    refine ⟨h.1.congr hok htimed hkill, ?_, hcount ▸ h.2.2⟩
    rw [h.2.1, result, result, hok, htimed]

/-- Goroutine `i` goes on without sending. -/
theorem Tracks.move (h : Tracks model ts history computeInfo timeout w sent out s)
    (hi : s.tasks i ≠ .done) (task : Task σ α β) (hdone : task ≠ .done) (k : ℕ)
    (longest : Fin n → List (Option (List ℤ))) (hlongest : ∀ j, j ≠ i → longest j = s.longest j)
    (htask : TaskInv model ts history computeInfo out { s with longest := longest } i k task) :
    Tracks model ts history computeInfo timeout (Function.update w i k) sent out
      { s with tasks := Function.update s.tasks i task, longest := longest } where
  tasks j := by
    by_cases hj : j = i
    · subst hj
      simp only [Function.update_self]
      exact htask.congr id rfl rfl
    · simp only [Function.update_of_ne hj]
      exact (h.tasks j).congr id (hlongest j hj) rfl
  nodup := h.nodup
  mem j := by
    by_cases hj : j = i
    · subst hj
      simp only [Function.update_self, hdone, iff_false]
      exact fun hmem => hi ((h.mem j).mp hmem)
    · simp only [Function.update_of_ne hj]
      exact h.mem j
  results := h.results
  count := h.count
  caller := h.caller.congr rfl rfl rfl rfl rfl fun _ _ => rfl

/-- Goroutine `i` sends its result. -/
theorem Tracks.send (h : Tracks model ts history computeInfo timeout w sent out s) {ok : Bool}
    (hi : s.tasks i = .stored ok) :
    Tracks model ts history computeInfo timeout (Function.update w i 0) (sent ++ [i])
      (Function.update out i ok)
      { s with tasks := Function.update s.tasks i .done, results := s.results ++ [ok] } := by
  have hnot : i ∉ sent := fun hmem => by
    rw [(h.mem i).mp hmem] at hi
    cases hi
  have hout : ∀ j ∈ sent, Function.update out i ok j = out j := by
    intro j hj
    have hji : j ≠ i := fun heq => hnot (heq ▸ hj)
    exact Function.update_of_ne hji ..
  constructor
  · intro j
    by_cases hj : j = i
    · subst hj
      simp only [Function.update_self]
      have htask := h.tasks j
      rw [hi] at htask
      refine (congrArg (fun b => Verdict model (ts j) computeInfo s.kill (b, s.longest j)) ?_).mpr
        htask.2
      exact Function.update_self ..
    · simp only [Function.update_of_ne hj]
      exact (h.tasks j).congr id rfl (Function.update_of_ne hj ..)
  · exact List.nodup_append.mpr ⟨h.nodup, List.nodup_singleton i, fun a ha b hb => by
      rw [List.mem_singleton.mp hb]
      rintro rfl
      exact hnot ha⟩
  · intro j
    by_cases hj : j = i
    · subst hj
      simp
    · simp [hj, h.mem j]
  · simp only [List.drop_append_of_le_length h.count, List.map_append, List.map_cons,
      List.map_nil, Function.update_self, h.results]
    congr 1
    exact List.map_congr_left fun j hj => (hout j (List.mem_of_mem_drop hj)).symm
  · rw [List.length_append]
    exact h.count.trans (Nat.le_add_right _ _)
  · exact h.caller.congr rfl rfl rfl rfl (List.take_append_of_le_length h.count) hout

theorem sum_update_add (w : Fin n → ℕ) (i : Fin n) (k : ℕ) :
    ∑ j, Function.update w i k j + w i = ∑ j, w j + k := by
  rw [Finset.sum_update_of_mem (Finset.mem_univ i), ← Finset.add_sum_erase _ w (Finset.mem_univ i),
    Finset.sdiff_singleton_eq_erase]
  ring

/-- A goroutine that is not at its end makes a step, and has fewer ahead. -/
theorem Tracks.work (hof : ∀ i, (ts i).Of (history i)) (hcongr : model.EqualCongr)
    (h : Tracks model ts history computeInfo timeout w sent out s) (hi : s.tasks i ≠ .done) :
    ∃ s' w' sent' out', s.work model computeInfo i = .ok s' ∧
      Tracks model ts history computeInfo timeout w' sent' out' s' ∧ s'.phase = s.phase ∧
      ∑ j, w' j + s'.results.length < ∑ j, w j + s.results.length := by
  have htask := h.tasks i
  cases hti : s.tasks i with
  | start H =>
    rw [hti] at htask
    obtain ⟨rfl, hw⟩ := htask
    obtain ⟨l, k, hl, hk, hsearch⟩ := exists_searching model computeInfo (hof i)
    refine ⟨_, _, _, _, ?_, h.move hi (.running l) (by simp) (k + 4) _ (fun _ _ => rfl)
      ⟨k, le_rfl, hsearch⟩, rfl, ?_⟩
    · simp only [Par.work, hti, hl]
    · have := sum_update_add w i (k + 4)
      simp only
      omega
  | running l =>
    rw [hti] at htask
    obtain ⟨k, hk, hsearch⟩ := htask
    rcases hsearch.step (hof i) hcongr s.kill with ⟨r, hr, hverdict⟩ | ⟨l', k', hlt, hl', hsearch'⟩
    · refine ⟨_, _, _, _, ?_, h.move hi (.returned r) (by simp) 3 _ (fun _ _ => rfl)
        ⟨le_rfl, hverdict⟩, rfl, ?_⟩
      · simp only [Par.work, hti, hr]
      · have := sum_update_add w i 3
        simp only
        omega
    · refine ⟨_, _, _, _, ?_, h.move hi (.running l') (by simp) (k' + 4) _
        (fun _ _ => rfl) ⟨k', le_rfl, hsearch'⟩, rfl, ?_⟩
      · simp only [Par.work, hti, hl']
      · have := sum_update_add w i (k' + 4)
        simp only
        omega
  | returned r =>
    rw [hti] at htask
    obtain ⟨hw, hverdict⟩ := htask
    refine ⟨_, _, _, _, ?_, h.move hi (.stored r.1) (by simp) 2 (Function.update s.longest i r.2)
      (fun j hj => Function.update_of_ne hj ..) ⟨le_rfl, ?_⟩, rfl, ?_⟩
    · simp only [Par.work, hti]
    · simp only [Function.update_self]
      exact hverdict
    · have := sum_update_add w i 2
      simp only
      omega
  | stored ok =>
    rw [hti] at htask
    have hw := htask.1
    refine ⟨_, _, _, _, ?_, h.send hti, rfl, ?_⟩
    · simp only [Par.work, hti]
    · have := sum_update_add w i 0
      simp only [List.length_append, List.length_singleton]
      omega
  | done => exact absurd hti hi

/-- A result that was sent before the goroutines are told to stop is right. -/
theorem Tracks.out_iff (h : Tracks model ts history computeInfo timeout w sent out s)
    (hkill : s.kill = false) (hi : i ∈ sent) : out i = true ↔ (ts i).Linearizable model := by
  have htask := h.tasks i
  rw [(h.mem i).mp hi] at htask
  have hverdict : Verdict model (ts i) computeInfo s.kill (out i, s.longest i) := htask
  constructor
  · intro hout
    obtain ⟨T, hT, hall, -⟩ := hverdict.ok hout
    exact ⟨T, hT, hall⟩
  · intro hlin
    by_contra hout
    exact hverdict.fail (Bool.eq_false_of_not_eq_true hout) hkill hlin

theorem mem_of_le_length {l : List (Fin n)} (hnodup : l.Nodup) (hlen : n ≤ l.length) (i : Fin n) :
    i ∈ l := by
  have huniv : l.toFinset = Finset.univ := by
    refine Finset.eq_univ_of_card _ (le_antisymm (Finset.card_le_univ _) ?_)
    rw [List.toFinset_card_of_nodup hnodup, Fintype.card_fin]
    exact hlen
  rw [← List.mem_toFinset, huniv]
  exact Finset.mem_univ i

/-- The caller leaves its loop. -/
theorem Settled.leave (h : Settled model ts computeInfo timeout s) :
    CallerInv model ts computeInfo timeout sent out (s.leave computeInfo)
      (s.leave computeInfo).phase := by
  cases computeInfo with
  | false => exact ⟨h.congr rfl rfl rfl, rfl, by simp⟩
  | true => exact ⟨h.congr rfl rfl rfl, rfl⟩

/-- The caller makes a step. -/
theorem Tracks.caller_step (h : Tracks model ts history computeInfo timeout w sent out s)
    (htasks : s'.tasks = s.tasks) (hlongest : s'.longest = s.longest)
    (hkill : s.kill = true → s'.kill = true) (hresults : s'.results = (sent.drop s'.count).map out)
    (hcount : s'.count ≤ sent.length)
    (hcaller : CallerInv model ts computeInfo timeout sent out s' s'.phase) :
    Tracks model ts history computeInfo timeout w sent out s' where
  tasks i := by
    rw [htasks]
    exact (h.tasks i).congr hkill (congrFun hlongest i) rfl
  nodup := h.nodup
  mem i := by rw [htasks, h.mem]
  results := hresults
  count := hcount
  caller := hcaller

/-- The caller takes a result in its loop. -/
theorem Tracks.selectResult (h : Tracks model ts history computeInfo timeout w sent out s)
    (hphase : s.phase = .select) {result : Bool} {results : List Bool}
    (hresults : s.results = result :: results) :
    Tracks model ts history computeInfo timeout w sent out
      (s.selectResult computeInfo result results) := by
  obtain ⟨htasks, hnodup, hmem, hres, hcount, hcaller⟩ := id h
  rw [hphase] at hcaller
  obtain ⟨hkill, htimed, hlt, hok⟩ := hcaller
  rw [hresults] at hres
  have hpos : s.count < sent.length := by
    by_contra hle
    rw [List.drop_eq_nil_of_le (not_lt.mp hle)] at hres
    cases hres
  rw [List.drop_eq_getElem_cons hpos, List.map_cons] at hres
  obtain ⟨hresult, hrest⟩ := List.cons.inj hres
  -- what is received now belongs to the results so far
  have hok' : (s.ok && result) = true ↔ ∀ i ∈ sent.take (s.count + 1), out i = true := by
    rw [Bool.and_eq_true, hok, hresult, ← List.take_append_getElem hpos]
    simp only [List.mem_append, List.mem_singleton, or_imp, forall_and, forall_eq]
  have hmem' : ∀ i ∈ sent.take (s.count + 1), i ∈ sent := fun i hi => List.mem_of_mem_take hi
  have hillegal : (s.ok && result) = false → ∃ i, ¬ (ts i).Linearizable model := by
    intro hfalse
    by_contra hall
    have htrue := hok'.mpr fun i hi =>
      (h.out_iff hkill (hmem' i hi)).mpr (not_not.mp fun hnot => hall ⟨i, hnot⟩)
    rw [htrue] at hfalse
    cases hfalse
  have hlegal : (s.ok && result) = true → n ≤ s.count + 1 → ∀ i, (ts i).Linearizable model := by
    intro htrue hle i
    have hi : i ∈ sent.take (s.count + 1) :=
      mem_of_le_length (hnodup.sublist (List.take_sublist ..)) (by
        rw [List.length_take]
        omega) i
    exact (h.out_iff hkill (hmem' i hi)).mp (hok'.mp htrue i hi)
  -- the caller stops early, has all results, or goes on
  by_cases hstop : ¬ (s.ok && result) = true ∧ ¬ computeInfo = true
  · rw [Par.selectResult, if_pos hstop]
    have hfalse := Bool.eq_false_of_not_eq_true hstop.1
    refine h.caller_step rfl rfl (fun _ => rfl) hrest hpos (Settled.leave ⟨fun _ => hillegal hfalse,
      fun htrue => absurd htrue hstop.1, fun ht => ?_, fun hc => absurd hc hstop.2⟩)
    rw [htimed] at ht
    cases ht
  · by_cases hend : s.count + 1 ≥ n
    · rw [Par.selectResult, if_neg hstop, if_pos hend]
      refine h.caller_step rfl rfl id hrest hpos (Settled.leave ⟨hillegal,
        fun htrue _ => hlegal htrue hend, fun ht => ?_, fun _ _ => hkill⟩)
      rw [htimed] at ht
      cases ht
    · rw [Par.selectResult, if_neg hstop, if_neg hend]
      refine h.caller_step rfl rfl id hrest hpos ?_
      simp only [hphase]
      exact ⟨hkill, htimed, .inl (not_le.mp hend), hok'⟩

/-! ### Runs -/

/-- The steps of the caller that are ahead, apart from receives. -/
def stepsAhead : Phase → ℕ
  | .select => 2
  | .drain => 1
  | .returned _ => 0

/-- The invariant, with a bound for the steps ahead. -/
def Inv (model : Model σ α β) (ts : Fin n → Timeline α β) (history : Fin n → List (Entry α β))
    (computeInfo : Bool) (timeout : ℤ) (N : ℕ) (s : Par σ α β n) : Prop :=
  ∃ w sent out, Tracks model ts history computeInfo timeout w sent out s ∧
    ∑ i, w i + s.results.length + stepsAhead s.phase ≤ N

def maxSteps (history : Fin n → List (Entry α β)) : ℕ :=
  ∑ i, (maxRounds (history i).length + 4) + 2

theorem inv_init (history : Fin n → List (Entry α β)) :
    Inv model ts history computeInfo timeout (maxSteps history) (init history) := by
  refine ⟨fun i => maxRounds (history i).length + 4, [], fun _ => true,
    ⟨fun i => ⟨rfl, le_rfl⟩, List.nodup_nil, fun i => by simp [init], rfl, le_rfl,
      ⟨rfl, rfl, ?_, by simp [init]⟩⟩, le_rfl⟩
  rcases Nat.eq_zero_or_pos n with hn | hn
  · exact .inr hn
  · exact .inl hn

omit [DecidableEq σ] in
theorem stepsAhead_leave (computeInfo : Bool) (s : Par σ α β n) :
    stepsAhead (s.leave computeInfo).phase ≤ 1 := by
  cases computeInfo <;> simp [leave, stepsAhead]

omit [DecidableEq σ] in
theorem stepsAhead_selectResult (computeInfo : Bool) (result : Bool) (results : List Bool)
    (hphase : s.phase = .select) :
    stepsAhead (s.selectResult computeInfo result results).phase ≤ 2 ∧
      (s.selectResult computeInfo result results).results = results := by
  simp only [selectResult]
  split
  · exact ⟨(stepsAhead_leave ..).trans (by decide), rfl⟩
  · split
    · exact ⟨(stepsAhead_leave ..).trans (by decide), rfl⟩
    · simp [hphase, stepsAhead]

variable {N : ℕ} {a : Action n}

/-- The time is over. -/
theorem Tracks.timeOver (h : Tracks model ts history computeInfo timeout w sent out s)
    (hphase : s.phase = .select) (htimeout : timeout > 0) :
    Tracks model ts history computeInfo timeout w sent out
      (leave computeInfo { s with timedOut := true, kill := true }) := by
  have hcaller := h.caller
  rw [hphase] at hcaller
  obtain ⟨hkill, -, -, hok⟩ := hcaller
  refine h.caller_step rfl rfl (fun _ => rfl) h.results h.count (Settled.leave ⟨fun hfalse => ?_,
    fun _ ht => ?_, fun _ => htimeout, fun _ ht => ?_⟩)
  · by_contra hall
    have htrue := hok.mpr fun i hi => (h.out_iff hkill (List.mem_of_mem_take hi)).mpr
      (not_not.mp fun hnot => hall ⟨i, hnot⟩)
    exact absurd (htrue.symm.trans hfalse) (by decide)
  · cases ht
  · cases ht

theorem Inv.step (hof : ∀ i, (ts i).Of (history i)) (hcongr : model.EqualCongr)
    (h : Inv model ts history computeInfo timeout N s)
    (hstep : s.step model computeInfo timeout a = .ok s') :
    ∃ N' < N, Inv model ts history computeInfo timeout N' s' := by
  obtain ⟨w, sent, out, htracks, hN⟩ := h
  cases a with
  | work i =>
    have hi : s.tasks i ≠ .done := by
      intro hi
      simp [Par.step, Par.work, hi] at hstep
    obtain ⟨s₁, w', sent', out', hs₁, htracks', hphase, hlt⟩ := htracks.work hof hcongr hi
    obtain rfl : s₁ = s' := Except.ok.inj (hs₁.symm.trans hstep)
    refine ⟨_, ?_, w', sent', out', htracks', le_rfl⟩
    rw [hphase]
    omega
  | receive =>
    simp only [Par.step] at hstep
    split at hstep
    · rename_i result results hphase hresults
      obtain rfl := Except.ok.inj hstep
      obtain ⟨hahead, hlen⟩ := stepsAhead_selectResult computeInfo result results hphase
      refine ⟨_, ?_, w, sent, out, htracks.selectResult hphase hresults, le_rfl⟩
      rw [hlen]
      rw [hphase, hresults, List.length_cons, stepsAhead] at hN
      omega
    · rename_i result results hphase hresults
      split at hstep
      · obtain rfl := Except.ok.inj hstep
        have hcaller := htracks.caller
        rw [hphase] at hcaller
        have hres := htracks.results
        rw [hresults] at hres
        have hpos : s.count < sent.length := by
          by_contra hle
          rw [List.drop_eq_nil_of_le (not_lt.mp hle)] at hres
          cases hres
        rw [List.drop_eq_getElem_cons hpos, List.map_cons] at hres
        refine ⟨_, ?_, w, sent, out, htracks.caller_step rfl rfl id (List.cons.inj hres).2 hpos ?_,
          le_rfl⟩
        · rw [hresults, List.length_cons] at hN
          simp only
          omega
        · simp only [hphase]
          exact ⟨hcaller.1.congr rfl rfl rfl, hcaller.2⟩
      · cases hstep
    · cases hstep
  | timeout =>
    simp only [Par.step] at hstep
    split at hstep
    · rename_i hcond
      obtain rfl := Except.ok.inj hstep
      have hahead := stepsAhead_leave computeInfo { s with timedOut := true, kill := true }
      refine ⟨_, ?_, w, sent, out, htracks.timeOver hcond.1 hcond.2, le_rfl⟩
      rw [hcond.1, stepsAhead] at hN
      simp only [leave] at hahead ⊢
      omega
    · cases hstep
  | finish =>
    simp only [Par.step] at hstep
    split at hstep
    · rename_i hcond
      obtain rfl := Except.ok.inj hstep
      have hcaller := htracks.caller
      rw [hcond.1] at hcaller
      refine ⟨_, ?_, w, sent, out, htracks.caller_step rfl rfl id htracks.results htracks.count
        ⟨hcaller.1.congr rfl rfl rfl, rfl, fun _ => hcond.2⟩, le_rfl⟩
      rw [hcond.1, stepsAhead] at hN
      simp only [stepsAhead]
      omega
    · cases hstep

theorem inv_of_reaches (hof : ∀ i, (ts i).Of (history i)) (hcongr : model.EqualCongr)
    (h : Reaches model computeInfo timeout (init history) s) :
    ∃ N, Inv model ts history computeInfo timeout N s :=
  h.invariant (P := fun s => ∃ N, Inv model ts history computeInfo timeout N s)
    ⟨_, inv_init history⟩ fun s s' a ⟨N, hN⟩ _ hstep => by
      obtain ⟨N', -, hN'⟩ := hN.step hof hcongr hstep
      exact ⟨N', hN'⟩

theorem Inv.length_le (hof : ∀ i, (ts i).Of (history i)) (hcongr : model.EqualCongr) :
    ∀ {es : List (Action n)} {N : ℕ} {s : Par σ α β n},
      Inv model ts history computeInfo timeout N s →
      play (Par.step model computeInfo timeout) (fun _ _ => True) s es = some s' → es.length ≤ N
  | [], _, _, _, _ => Nat.zero_le _
  | e :: es, N, s, h, hplay => by
    rw [play, if_pos trivial] at hplay
    split at hplay
    · rename_i u hu
      obtain ⟨N', hlt, h'⟩ := h.step hof hcongr hu
      have := Inv.length_le hof hcongr h' hplay
      rw [List.length_cons]
      omega
    · cases hplay

theorem Inv.not_panic (hof : ∀ i, (ts i).Of (history i)) (hcongr : model.EqualCongr)
    (h : Inv model ts history computeInfo timeout N s) (a : Action n) :
    s.step model computeInfo timeout a ≠ .error .panic := by
  obtain ⟨w, sent, out, htracks, -⟩ := h
  cases a with
  | work i =>
    intro hpanic
    by_cases hi : s.tasks i = .done
    · simp [Par.step, Par.work, hi] at hpanic
    · obtain ⟨s', -, -, -, hs', -⟩ := htracks.work hof hcongr hi
      rw [Par.step, hs'] at hpanic
      cases hpanic
  | receive =>
    simp only [Par.step]
    split
    · simp
    · split <;> simp
    · simp
  | timeout =>
    simp only [Par.step]
    split <;> simp
  | finish =>
    simp only [Par.step]
    split <;> simp

/-- Before the caller returns, there is a step, unless there is nothing to wait for. -/
theorem Inv.progress (hof : ∀ i, (ts i).Of (history i)) (hcongr : model.EqualCongr)
    (h : Inv model ts history computeInfo timeout N s) (hn : 0 < n ∨ timeout > 0) :
    (∃ r, s.phase = .returned r) ∨ ∃ a s', s.step model computeInfo timeout a = .ok s' := by
  obtain ⟨w, sent, out, htracks, -⟩ := h
  by_cases hall : ∀ i, s.tasks i = .done
  · -- all results are sent: those that are not received are in the channel
    have hsent : n ≤ sent.length := by
      have hcard := List.toFinset_card_of_nodup htracks.nodup
      have huniv : sent.toFinset = Finset.univ :=
        Finset.eq_univ_iff_forall.mpr fun i => List.mem_toFinset.mpr ((htracks.mem i).mpr (hall i))
      rw [huniv, Finset.card_fin] at hcard
      exact hcard.le
    have hreceive : s.count < n → ∃ result results, s.results = result :: results := by
      intro hlt
      refine List.exists_cons_of_ne_nil fun hnil => ?_
      have hres := htracks.results
      rw [hnil, eq_comm, List.map_eq_nil_iff, List.drop_eq_nil_iff] at hres
      omega
    have hcaller := htracks.caller
    cases hphase : s.phase with
    | select =>
      rw [hphase] at hcaller
      right
      rcases hcaller.2.2.1 with hlt | hzero
      · obtain ⟨result, results, hres⟩ := hreceive hlt
        exact ⟨.receive, s.selectResult computeInfo result results,
          by simp only [Par.step, hphase, hres]⟩
      · have htimeout : timeout > 0 := hn.resolve_left (by omega)
        exact ⟨.timeout, _, by rw [Par.step, if_pos ⟨hphase, htimeout⟩]⟩
    | drain =>
      right
      by_cases hlt : s.count < n
      · obtain ⟨result, results, hres⟩ := hreceive hlt
        exact ⟨.receive, { s with results := results, count := s.count + 1 },
          by simp only [Par.step, hphase, hres, if_pos hlt]⟩
      · exact ⟨.finish, _, by rw [Par.step, if_pos ⟨hphase, not_lt.mp hlt⟩]⟩
    | returned r => exact .inl ⟨r, rfl⟩
  · obtain ⟨i, hi⟩ := not_forall.mp hall
    obtain ⟨s', -, -, -, hs', -⟩ := htracks.work hof hcongr hi
    exact .inr ⟨.work i, s', hs'⟩

/-- Without parts and without a limit of time the caller waits forever. -/
theorem init_step_ne (hn : n = 0) (htimeout : ¬ timeout > 0) (history : Fin n → List (Entry α β))
    (a : Action n) (s' : Par σ α β n) :
    (init history : Par σ α β n).step model computeInfo timeout a ≠ .ok s' := by
  subst hn
  cases a with
  | work i => exact i.elim0
  | receive => simp [Par.step, init]
  | timeout => simp [Par.step, htimeout]
  | finish => simp [Par.step, init]

/-- The answer of a run that is over. -/
theorem Inv.result {r : CheckResult} (h : Inv model ts history computeInfo timeout N s)
    (hret : s.phase = .returned r) : (r = .ok → ∀ i, (ts i).Linearizable model) ∧
      (r = .illegal → ∃ i, ¬ (ts i).Linearizable model) ∧ (r = .unknown → timeout > 0) := by
  obtain ⟨w, sent, out, htracks, -⟩ := h
  have hcaller := htracks.caller
  rw [hret] at hcaller
  obtain ⟨hsettled, rfl, -⟩ := hcaller
  unfold Par.result
  cases hok : s.ok with
  | false => exact ⟨by simp, fun _ => hsettled.illegal hok, by simp⟩
  | true =>
    cases htimed : s.timedOut with
    | false => exact ⟨fun _ => hsettled.ok hok htimed, by simp, by simp⟩
    | true => exact ⟨by simp, by simp, fun _ => hsettled.timedOut htimed⟩

/-- What goroutine `i` has left when the caller returns with the sequences. -/
theorem Inv.verdict {r : CheckResult} (h : Inv model ts history true timeout N s)
    (hret : s.phase = .returned r) (i : Fin n) :
    ∃ ok, Verdict model (ts i) true s.kill (ok, s.longest i) ∧
      (s.timedOut = false → s.kill = false) := by
  obtain ⟨w, sent, out, htracks, -⟩ := h
  have hcaller := htracks.caller
  rw [hret] at hcaller
  obtain ⟨hsettled, -, hcount⟩ := hcaller
  have hi : i ∈ sent := mem_of_le_length htracks.nodup ((hcount rfl).trans htracks.count) i
  have htask := htracks.tasks i
  rw [(htracks.mem i).mp hi] at htask
  exact ⟨out i, htask, hsettled.kill rfl⟩

end Par

end DistLabs.Porcupine
