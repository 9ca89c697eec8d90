import DistLabs.Porcupine.Parallel

/-! # Checking a history of operations (`porcupine/porcupine.go`, `checkOperations`)

    The parts of a history are sorted and checked at the same time. In every schedule the answer is
    the right one: `Ok` and `Illegal` say whether the parts are linearizable, which for the
    key/value model is whether the whole history is, and without a limit of time there is no other
    answer. With `verbose`, the sequences that are returned are linearizable prefixes, longest ones
    if the time was not over. -/

namespace DistLabs.Porcupine

variable {σ α β : Type} [DecidableEq σ] [Inhabited α] [Inhabited β]
  {sort : List (Entry α β) → List (Entry α β)}

/-- The goroutines that `checkOperations` starts. -/
def checkOperations (model : Model σ α β) (sort : List (Entry α β) → List (Entry α β))
    (history : List (Operation α β)) : Par σ α β (model.partition history).length :=
  Par.init fun i => makeEntries sort ((model.partition history).get i)

/-- The operations of part `i`, with their positions in its entries. -/
def partTimeline (model : Model σ α β) (sort : List (Entry α β) → List (Entry α β))
    (history : List (Operation α β)) (i : Fin (model.partition history).length) : Timeline α β :=
  timeline ((model.partition history).get i) (makeEntries sort ((model.partition history).get i))

variable {model : Model σ α β} {history : List (Operation α β)} {verbose : Bool} {timeout : ℤ}
  {s : Par σ α β (model.partition history).length} {r : CheckResult}

theorem partTimeline_of (hsort : SortsByTime sort)
    (hcall : ∀ part ∈ model.partition history, ∀ o ∈ part, o.call ≤ o.ret)
    (i : Fin (model.partition history).length) :
    (partTimeline model sort history i).Of (makeEntries sort ((model.partition history).get i)) :=
  timeline_of hsort (hcall _ (List.get_mem ..))

theorem partTimeline_linearizable (hsort : SortsByTime sort)
    (hcall : ∀ part ∈ model.partition history, ∀ o ∈ part, o.call ≤ o.ret)
    (i : Fin (model.partition history).length) :
    (partTimeline model sort history i).Linearizable model ↔
      Linearizable model ((model.partition history).get i) :=
  linearizable_timeline_iff hsort (hcall _ (List.get_mem ..))

theorem checkOperations_result (hsort : SortsByTime sort) (hcongr : model.EqualCongr)
    (hcall : ∀ part ∈ model.partition history, ∀ o ∈ part, o.call ≤ o.ret)
    (h : Par.Reaches model verbose timeout (checkOperations model sort history) s)
    (hret : s.phase = .returned r) :
    (r = .ok → ∀ part ∈ model.partition history, Linearizable model part) ∧
      (r = .illegal → ∃ part ∈ model.partition history, ¬ Linearizable model part) ∧
      (r = .unknown → timeout > 0) := by
  obtain ⟨N, hN⟩ := Par.inv_of_reaches (partTimeline_of hsort hcall) hcongr h
  obtain ⟨hok, hillegal, hunknown⟩ := hN.result hret
  refine ⟨fun hr part hpart => ?_, fun hr => ?_, hunknown⟩
  · obtain ⟨i, rfl⟩ := List.mem_iff_get.mp hpart
    exact (partTimeline_linearizable hsort hcall i).mp (hok hr i)
  · obtain ⟨i, hi⟩ := hillegal hr
    exact ⟨_, List.get_mem .., fun hlin => hi ((partTimeline_linearizable hsort hcall i).mpr hlin)⟩

/-- `checkOperations` comes to an end, whatever the schedule, if and only if there is a part to wait
    for or a limit of time. -/
theorem checkOperations_returns (verbose : Bool) (timeout : ℤ) (hsort : SortsByTime sort)
    (hcongr : model.EqualCongr)
    (hcall : ∀ part ∈ model.partition history, ∀ o ∈ part, o.call ≤ o.ret) :
    (∀ es s, play (Par.step model verbose timeout) (fun _ _ => True)
      (checkOperations model sort history) es = some s → es.length ≤
        Par.maxSteps fun i => makeEntries sort ((model.partition history).get i)) ∧
    (∀ s, Par.Reaches model verbose timeout (checkOperations model sort history) s →
      ∀ a, s.step model verbose timeout a ≠ .error .panic) ∧
    ((∀ s, Par.Reaches model verbose timeout (checkOperations model sort history) s →
      (∃ r, s.phase = .returned r) ∨ ∃ a s', s.step model verbose timeout a = .ok s') ↔
        model.partition history ≠ [] ∨ timeout > 0) := by
  have hof := partTimeline_of hsort hcall
  refine ⟨fun es s hplay => (Par.inv_init _).length_le hof hcongr hplay, fun s hs a => ?_, ?_⟩
  · obtain ⟨N, hN⟩ := Par.inv_of_reaches hof hcongr hs
    exact hN.not_panic hof hcongr a
  · rw [← List.length_pos_iff]
    constructor
    · intro h
      by_contra hnone
      rw [not_or, not_lt, Nat.le_zero] at hnone
      rcases h _ .refl with ⟨r, hr⟩ | ⟨a, s', hstep⟩
      · cases hr
      · exact Par.init_step_ne hnone.1 hnone.2 _ a s' hstep
    · intro hn s hs
      obtain ⟨N, hN⟩ := Par.inv_of_reaches hof hcongr hs
      exact hN.progress hof hcongr hn

theorem putGetAppend_call_le :
    ∀ part ∈ KvModel.partition putGetAppend, ∀ o ∈ part, o.call ≤ o.ret := by
  decide +kernel

theorem checkOperations_returns_putGetAppend : KvModel.partition putGetAppend ≠ [] ∧
    ∀ s, Par.Reaches KvModel false 0 (checkOperations KvModel sortEntries putGetAppend) s →
      (∃ r, s.phase = .returned r) ∨ ∃ a s', s.step KvModel false 0 a = .ok s' := by
  have hne : KvModel.partition putGetAppend ≠ [] := by decide +kernel
  have h := checkOperations_returns false 0 sortsByTime_insertionSort
    kvModel_equalCongr putGetAppend_call_le
  exact ⟨hne, h.2.2.mpr (.inl hne)⟩

/-- The goroutine of the second part is first; then the first part is checked. -/
def putGetAppendSchedule : List (Par.Action (KvModel.partition putGetAppend).length) :=
  List.replicate 5 (.work ⟨1, by decide +kernel⟩) ++ [.receive] ++
    List.replicate 6 (.work ⟨0, by decide +kernel⟩) ++ [.receive]

/-- The sequences of a run with `verbose` are linearizable prefixes, and longest ones if the time
    was not over. -/
theorem checkOperations_partials (hsort : SortsByTime sort) (hcongr : model.EqualCongr)
    (hcall : ∀ part ∈ model.partition history, ∀ o ∈ part, o.call ≤ o.ret)
    (h : Par.Reaches model true timeout (checkOperations model sort history) s)
    (hret : s.phase = .returned r) (i : Fin (model.partition history).length) :
    (∀ k seq, (s.longest i)[k]? = some (some seq) →
      ∃ T, LinearizablePrefix model (partTimeline model sort history i) T ∧ k ∈ T ∧ seq = ids T) ∧
    (s.timedOut = false → ∀ T, LinearizablePrefix model (partTimeline model sort history i) T →
      ∀ k ∈ T, ∃ seq, (s.longest i)[k]? = some (some seq) ∧ T.length ≤ seq.length) := by
  obtain ⟨N, hN⟩ := Par.inv_of_reaches (partTimeline_of hsort hcall) hcongr h
  obtain ⟨ok, hverdict, hkill⟩ := hN.verdict hret i
  exact ⟨hverdict.partials, fun htimed => hverdict.longest rfl fun _ => hkill htimed⟩

theorem checkOperations_partials_putGetAppend : ∃ s,
    Par.Reaches KvModel true 0 (checkOperations KvModel sortEntries putGetAppend) s ∧
      s.phase = .returned .ok ∧ s.timedOut = false ∧
      ∀ i k seq, (s.longest i)[k]? = some (some seq) → ∃ T,
        LinearizablePrefix KvModel (partTimeline KvModel sortEntries putGetAppend i) T ∧
          k ∈ T ∧ seq = ids T := by
  obtain ⟨s, hs, hret, htimed⟩ := exists_run_of_play (Par.step KvModel true 0) (fun _ _ => True)
    (checkOperations KvModel sortEntries putGetAppend) (putGetAppendSchedule ++ [.finish])
    (fun s => s.phase = .returned .ok ∧ s.timedOut = false) (by decide +kernel)
  exact ⟨s, hs, hret, htimed, fun i => (checkOperations_partials sortsByTime_insertionSort
    kvModel_equalCongr putGetAppend_call_le hs hret i).1⟩

/-! ### The key/value model -/

theorem kvModel_answer
    {sort : List (Entry KvInput KvOutput) → List (Entry KvInput KvOutput)}
    {history : List KvOperation}
    {s : Par String KvInput KvOutput (KvModel.partition history).length}
    (hsort : SortsByTime sort) (hcall : ∀ o ∈ history, o.call ≤ o.ret)
    (h : Par.Reaches KvModel verbose timeout (checkOperations KvModel sort history) s)
    (hret : s.phase = .returned r) :
    (r = .ok → StoreLinearizable KvModel KvInput.key history) ∧
      (r = .illegal → ¬ StoreLinearizable KvModel KvInput.key history) ∧
      (r = .unknown → timeout > 0) := by
  have hcall' : ∀ part ∈ KvModel.partition history, ∀ o ∈ part, o.call ≤ o.ret := by
    intro part hpart o ho
    obtain ⟨v, -, rfl⟩ := mem_partition.mp hpart
    exact hcall o (List.mem_filter.mp ho).1
  obtain ⟨hok, hillegal, hunknown⟩ :=
    checkOperations_result hsort kvModel_equalCongr hcall' h hret
  rw [← partition_linearizable hcall]
  refine ⟨hok, fun hr hall => ?_, hunknown⟩
  obtain ⟨part, hpart, hnot⟩ := hillegal hr
  exact hnot (hall part hpart)

/-- `CheckOperations` answers true exactly for the linearizable histories of a store. With a limit
    of time, `Ok` and `Illegal` are still right. -/
theorem checkOperations_kvModel
    {sort : List (Entry KvInput KvOutput) → List (Entry KvInput KvOutput)}
    {history : List KvOperation}
    {s : Par String KvInput KvOutput (KvModel.partition history).length}
    (hsort : SortsByTime sort) (hcall : ∀ o ∈ history, o.call ≤ o.ret)
    (h : Par.Reaches KvModel verbose timeout (checkOperations KvModel sort history) s)
    (hret : s.phase = .returned r) :
    (r ≠ .unknown → (r = .ok ↔ StoreLinearizable KvModel KvInput.key history)) ∧
      (¬ timeout > 0 → r ≠ .unknown) := by
  obtain ⟨hok, hillegal, hunknown⟩ := kvModel_answer hsort hcall h hret
  refine ⟨fun hne => ⟨hok, fun hlin => ?_⟩, fun htimeout hr => htimeout (hunknown hr)⟩
  cases r with
  | unknown => exact absurd rfl hne
  | ok => rfl
  | illegal => exact absurd hlin (hillegal rfl)

theorem checkOperations_kvModel_putGetAppend : ∃ s,
    Par.Reaches KvModel false 0 (checkOperations KvModel sortEntries putGetAppend) s ∧
      s.phase = .returned .ok ∧ StoreLinearizable KvModel KvInput.key putGetAppend := by
  obtain ⟨s, hs, hret⟩ := exists_run_of_play (Par.step KvModel false 0) (fun _ _ => True)
    (checkOperations KvModel sortEntries putGetAppend) putGetAppendSchedule
    (fun s => s.phase = .returned .ok) (by decide +kernel)
  exact ⟨s, hs, hret, ((checkOperations_kvModel sortsByTime_insertionSort (by decide) hs hret).1
    (by decide)).mp rfl⟩

end DistLabs.Porcupine
