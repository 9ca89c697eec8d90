import DistLabs.Porcupine.Single
import DistLabs.Schemes.Intervals

/-! # From operations to entries

    `makeEntries` puts the calls and returns of a history in the order of their times, and of a call
    and a return at the same time the call comes first: two operations are apart in the entries
    exactly when the one returns at an earlier time than the other is called. So the order that
    `checkSingle` looks for is an order of the operations themselves. -/

namespace DistLabs.Porcupine

variable {σ α β : Type} [DecidableEq σ]

/-- What `sort.Sort` does with the order `byTime`: equal entries are in any order. -/
def SortsByTime (sort : List (Entry α β) → List (Entry α β)) : Prop :=
  ∀ l, (sort l).Perm l ∧ (sort l).Pairwise fun a b => b.less a = false

/-- The model accepts the operations in this order. -/
def Model.accepts (model : Model σ α β) : σ → List (Operation α β) → Bool
  | _, [] => true
  | s, o :: L =>
    match model.step s o.input o.output with
    | (true, s') => model.accepts s' L
    | (false, _) => false

theorem Model.accepts_cons (model : Model σ α β) (s : σ) (o : Operation α β)
    (L : List (Operation α β)) : model.accepts s (o :: L) =
      if (model.step s o.input o.output).1 = true
      then model.accepts (model.step s o.input o.output).2 L else false := by
  rw [Model.accepts]
  rcases model.step s o.input o.output with ⟨ok, s'⟩
  cases ok <;> rfl

/-- The operations have an order that the model accepts and in which none stands behind one that was
    called after it returned. -/
def Linearizable (model : Model σ α β) (history : List (Operation α β)) : Prop :=
  ∃ L : List (Operation α β), L.Perm history ∧ model.accepts model.init L = true ∧
    Intervals.InOrder Operation.call Operation.ret L

section Timeline

variable [Inhabited α] [Inhabited β]

/-- The operations of a history, with the positions of their calls and returns in `H`. -/
def timeline (history : List (Operation α β)) (H : List (Entry α β)) : Timeline α β where
  n := history.length
  call i := H.findIdx fun e => e.kind = .callEntry ∧ e.id = i
  ret i := H.findIdx fun e => e.kind = .returnEntry ∧ e.id = i
  input i := (history.getD i default).input
  output i := (history.getD i default).output

variable {sort : List (Entry α β) → List (Entry α β)} {history : List (Operation α β)}

omit [Inhabited α] [Inhabited β] in
theorem mem_makeEntries (hsort : SortsByTime sort) {e : Entry α β} :
    e ∈ makeEntries sort history ↔
      ∃ (i : ℕ) (o : Operation α β), history[i]? = some o ∧ e ∈ o.entries i := by
  rw [makeEntries, (hsort _).1.mem_iff, List.mem_flatMap]
  constructor
  · rintro ⟨⟨o, i⟩, hmem, he⟩
    exact ⟨i, o, List.mem_zipIdx_iff_getElem?.mp hmem, he⟩
  · rintro ⟨i, o, ho, he⟩
    exact ⟨(o, i), List.mem_zipIdx_iff_getElem?.mpr ho, he⟩

omit [Inhabited α] [Inhabited β] in
theorem length_makeEntries (hsort : SortsByTime sort) :
    (makeEntries sort history).length = 2 * history.length := by
  have hflat : (history.zipIdx.flatMap fun p => p.1.entries p.2).length = 2 * history.length := by
    rw [List.length_flatMap]
    simp [Operation.entries, mul_comm]
  rw [makeEntries, (hsort _).1.length_eq, hflat]

omit [Inhabited α] [Inhabited β] in
/-- An operation has one call and one return. -/
theorem nodup_makeEntries (hsort : SortsByTime sort) (history : List (Operation α β)) :
    ((makeEntries sort history).map fun e => (e.kind, e.id)).Nodup := by
  refine (((hsort _).1.map _).nodup_iff).mpr ?_
  rw [List.map_flatMap, List.nodup_flatMap]
  refine ⟨fun p _ => by simp [Operation.entries], ?_⟩
  have hsnd : (history.zipIdx.map Prod.snd).Nodup := by
    rw [List.zipIdx_map_snd]
    exact List.nodup_range'
  refine (List.pairwise_map.mp hsnd).imp fun {p q} hne => ?_
  intro x hx hy
  simp only [Operation.entries, List.map_cons, List.map_nil, List.mem_cons, List.not_mem_nil,
    or_false] at hx hy
  rcases hx with rfl | rfl <;> rcases hy with hy | hy <;> simp_all

omit [Inhabited α] [Inhabited β] in
/-- Entries of the same kind and operation are at the same place. -/
theorem pos_inj {H : List (Entry α β)} (hnodup : (H.map fun e => (e.kind, e.id)).Nodup) {p q : ℕ}
    {a b : Entry α β} (hp : H[p]? = some a) (hq : H[q]? = some b) (hkind : a.kind = b.kind)
    (hid : a.id = b.id) : p = q := by
  obtain ⟨hp', rfl⟩ := List.getElem?_eq_some_iff.mp hp
  obtain ⟨hq', rfl⟩ := List.getElem?_eq_some_iff.mp hq
  have hpairs := List.pairwise_iff_getElem.mp (List.pairwise_map.mp hnodup)
  rcases lt_trichotomy p q with hlt | heq | hgt
  · exact absurd (Prod.ext hkind hid) (hpairs p q hp' hq' hlt)
  · exact heq
  · exact absurd (Prod.ext hkind.symm hid.symm) (hpairs q p hq' hp' hgt)

omit [Inhabited α] [Inhabited β] in
/-- An entry that is alone with its kind and operation is found. -/
theorem findIdx_eq_pos {H : List (Entry α β)} (hnodup : (H.map fun e => (e.kind, e.id)).Nodup)
    {p : ℕ} {e : Entry α β} (hp : H[p]? = some e) {kind : EntryKind} (hkind : e.kind = kind) :
    H.findIdx (fun e' => decide (e'.kind = kind ∧ e'.id = e.id)) = p := by
  obtain ⟨hlt, hget⟩ := List.getElem?_eq_some_iff.mp hp
  rw [List.findIdx_eq hlt]
  refine ⟨by simp [hget, hkind], fun j hj => decide_eq_false fun ⟨h1, h2⟩ => ?_⟩
  exact hj.ne (pos_inj hnodup (List.getElem?_eq_getElem (hj.trans hlt)) hp (h1.trans hkind.symm) h2)

variable {H : List (Entry α β)} {i j : ℕ} {o o' : Operation α β}

/-- Where the entries of an operation are, and what they are. -/
theorem getElem?_call (hsort : SortsByTime sort) (ho : history[i]? = some o) :
    (makeEntries sort history)[(timeline history (makeEntries sort history)).call i]? =
      some ⟨.callEntry, .inl o.input, i, o.call, o.clientId⟩ := by
  have hmem : ⟨.callEntry, .inl o.input, i, o.call, o.clientId⟩ ∈ makeEntries sort history :=
    (mem_makeEntries hsort).mpr ⟨i, o, ho, by simp [Operation.entries]⟩
  obtain ⟨p, hp⟩ := List.mem_iff_getElem?.mp hmem
  have hpos : (timeline history (makeEntries sort history)).call i = p :=
    findIdx_eq_pos (nodup_makeEntries hsort history) hp rfl
  rw [hpos, hp]

theorem getElem?_ret (hsort : SortsByTime sort) (ho : history[i]? = some o) :
    (makeEntries sort history)[(timeline history (makeEntries sort history)).ret i]? =
      some ⟨.returnEntry, .inr o.output, i, o.ret, o.clientId⟩ := by
  have hmem : ⟨.returnEntry, .inr o.output, i, o.ret, o.clientId⟩ ∈ makeEntries sort history :=
    (mem_makeEntries hsort).mpr ⟨i, o, ho, by simp [Operation.entries]⟩
  obtain ⟨p, hp⟩ := List.mem_iff_getElem?.mp hmem
  have hpos : (timeline history (makeEntries sort history)).ret i = p :=
    findIdx_eq_pos (nodup_makeEntries hsort history) hp rfl
  rw [hpos, hp]

omit [Inhabited α] [Inhabited β] in
/-- Entries that are in order stand in that order. -/
theorem lt_of_less (hsorted : H.Pairwise fun a b => b.less a = false) {p q : ℕ} {a b : Entry α β}
    (hp : H[p]? = some a) (hq : H[q]? = some b) (hless : a.less b = true) : p < q := by
  obtain ⟨hp', rfl⟩ := List.getElem?_eq_some_iff.mp hp
  obtain ⟨hq', rfl⟩ := List.getElem?_eq_some_iff.mp hq
  rcases lt_trichotomy p q with hlt | rfl | hgt
  · exact hlt
  · -- no entry is before itself
    cases hk : H[p].kind <;> simp [Entry.less, hk] at hless
  · have := List.pairwise_iff_getElem.mp hsorted q p hq' hp' hgt
    rw [this] at hless
    cases hless

/-- A return stands before a call exactly when its time is earlier. -/
theorem ret_lt_call_iff (hsort : SortsByTime sort) (ho : history[i]? = some o)
    (ho' : history[j]? = some o') :
    (timeline history (makeEntries sort history)).ret i <
      (timeline history (makeEntries sort history)).call j ↔ o.ret < o'.call := by
  have hret := getElem?_ret hsort ho
  have hcall := getElem?_call hsort ho'
  have hsorted : (makeEntries sort history).Pairwise fun a b => b.less a = false := (hsort _).2
  constructor
  · intro hlt
    by_contra hge
    -- the call would come first, also at the same time
    refine hlt.not_gt (lt_of_less hsorted hcall hret ?_)
    unfold Entry.less
    split
    · rename_i hne
      exact decide_eq_true (lt_of_le_of_ne (not_lt.mp hge) hne)
    · rfl
  · intro hlt
    refine lt_of_less hsorted hret hcall ?_
    simp [Entry.less, hlt.ne, hlt]

theorem timeline_of (hsort : SortsByTime sort) (hcall : ∀ o ∈ history, o.call ≤ o.ret) :
    (timeline history (makeEntries sort history)).Of (makeEntries sort history) where
  length := length_makeEntries hsort
  lt i hi := by
    have ho := List.getElem?_eq_getElem hi
    have hne : ¬ _ := mt (ret_lt_call_iff hsort ho ho).mp
      (not_lt.mpr (hcall _ (List.getElem_mem hi)))
    refine lt_of_le_of_ne (not_lt.mp hne) fun heq => ?_
    -- a call is not a return
    have hget := getElem?_call hsort ho
    rw [heq, getElem?_ret hsort ho] at hget
    cases Option.some.inj hget
  called i hi := by
    obtain ⟨o, ho⟩ : ∃ o, history[i]? = some o := ⟨_, List.getElem?_eq_getElem hi⟩
    exact ⟨_, getElem?_call hsort ho, rfl, by simp [timeline, ho], rfl⟩
  returned i hi := by
    obtain ⟨o, ho⟩ : ∃ o, history[i]? = some o := ⟨_, List.getElem?_eq_getElem hi⟩
    exact ⟨_, getElem?_ret hsort ho, rfl, by simp [timeline, ho], rfl⟩
  cover p e hp := by
    obtain ⟨i, o, ho, he⟩ := (mem_makeEntries hsort).mp (List.mem_of_getElem? hp)
    have hid : e.id = i := by
      simp only [Operation.entries, List.mem_cons, List.not_mem_nil, or_false] at he
      rcases he with rfl | rfl <;> rfl
    have hnodup := nodup_makeEntries hsort history
    rw [hid]
    refine ⟨(List.getElem?_eq_some_iff.mp ho).1, fun hk => ?_, fun hk => ?_⟩
    · exact pos_inj hnodup hp (getElem?_call hsort ho) hk hid
    · exact pos_inj hnodup hp (getElem?_ret hsort ho) hk hid

/-! ### Orders of operations -/

/-- A sequence of operations by their numbers. -/
def pick (history : List (Operation α β)) (T : List ℕ) : List (Operation α β) :=
  T.map fun i => history.getD i default

theorem pick_range (history : List (Operation α β)) :
    pick history (List.range history.length) = history := by
  refine List.ext_getElem (by simp [pick]) fun i h₁ h₂ => ?_
  simp [pick, List.getElem?_eq_getElem h₂]

theorem accepts_pick {model : Model σ α β} (s : σ) (T : List ℕ) :
    model.accepts s (pick history T) = true ↔
      ∃ s', model.run (timeline history H) s T = some s' := by
  induction T generalizing s with
  | nil => simp [pick, Model.accepts, Model.run]
  | cons i T ih =>
    have hpick : pick history (i :: T) = history.getD i default :: pick history T := rfl
    have hinput : (timeline history H).input i = (history.getD i default).input := rfl
    have houtput : (timeline history H).output i = (history.getD i default).output := rfl
    rw [hpick, Model.accepts_cons, Model.run_cons, hinput, houtput]
    split
    · exact ih _
    · simp

omit [Inhabited α] [Inhabited β] in
theorem pairwise_iff_split {γ : Type*} {R : γ → γ → Prop} {T : List γ} :
    T.Pairwise R ↔ ∀ P a Q, T = P ++ a :: Q → ∀ b ∈ Q, R a b := by
  constructor
  · rintro h P a Q rfl b hb
    exact (List.pairwise_cons.mp (List.pairwise_append.mp h).2.1).1 b hb
  · intro h
    induction T with
    | nil => exact .nil
    | cons a T ih =>
      exact .cons (h [] a T rfl) (ih fun P b Q heq => h (a :: P) b Q (by rw [heq]; rfl))

theorem linearizable_timeline_iff {model : Model σ α β} (hsort : SortsByTime sort)
    (hcall : ∀ o ∈ history, o.call ≤ o.ret) :
    (timeline history (makeEntries sort history)).Linearizable model ↔
      Linearizable model history := by
  have hget : ∀ i < history.length, history[i]? = some (history.getD i default) := by
    intro i hi
    simp [List.getElem?_eq_getElem hi]
  constructor
  · rintro ⟨T, hT, hall⟩
    have hperm : T.Perm (List.range history.length) :=
      (List.perm_ext_iff_of_nodup hT.nodup List.nodup_range).mpr fun i =>
        ⟨fun hi => List.mem_range.mpr (hT.lt i hi), fun hi => hall i (List.mem_range.mp hi)⟩
    refine ⟨pick history T, ?_, (accepts_pick _ T).mpr hT.legal, List.pairwise_map.mpr ?_⟩
    · conv_rhs => rw [← pick_range history]
      exact hperm.map _
    · refine pairwise_iff_split.mpr fun P j Q heq i hi hlt => ?_
      have hmem : i ∈ T := by
        rw [heq]
        simp [hi]
      have hj : j < history.length := hT.lt j (by rw [heq]; simp)
      have hi' : i < history.length := hT.lt i hmem
      have hP := hT.realTime P j Q heq i hi'
        ((ret_lt_call_iff hsort (hget i hi') (hget j hj)).mpr hlt)
      have hnodup := hT.nodup
      rw [heq] at hnodup
      exact (List.nodup_append.mp hnodup).2.2 i hP i (List.mem_cons_of_mem _ hi) rfl
  · rintro ⟨L, hperm, haccepts, horder⟩
    -- the order of the operations as an order of their numbers
    obtain ⟨T, rfl, hT⟩ : ∃ T, L = pick history T ∧ T.Perm (List.range history.length) := by
      rw [← pick_range history] at hperm
      have := congrFun (congrFun (List.eq_map_comp_perm fun i => history.getD i default) L)
        (List.range history.length)
      exact this.mpr hperm
    have hlt : ∀ i ∈ T, i < history.length := fun i hi => List.mem_range.mp (hT.mem_iff.mp hi)
    refine ⟨T, ⟨hT.nodup_iff.mpr List.nodup_range, hlt, (accepts_pick _ T).mp haccepts, ?_⟩,
      fun i hi => hT.mem_iff.mpr (List.mem_range.mpr hi)⟩
    intro P j Q heq i hi hprec
    have hj : j < history.length := hlt j (by rw [heq]; simp)
    have hprec := (ret_lt_call_iff hsort (hget i hi) (hget j hj)).mp hprec
    have hmem : i ∈ T := hT.mem_iff.mpr (List.mem_range.mpr hi)
    rw [heq] at hmem
    rcases List.mem_append.mp hmem with hP | hQ
    · exact hP
    · rcases List.mem_cons.mp hQ with rfl | hQ
      · have hle := hcall _ (List.mem_of_getElem? (hget i hi))
        exact absurd hprec (not_lt.mpr hle)
      · exact absurd hprec (pairwise_iff_split.mp (List.pairwise_map.mp horder) P j Q heq i hQ)

end Timeline

/-! ### A sort -/

theorem Entry.less_iff {a b : Entry α β} : a.less b = true ↔
    a.time < b.time ∨ a.time = b.time ∧ a.kind = .callEntry ∧ b.kind = .returnEntry := by
  unfold Entry.less
  split
  · rename_i hne
    simp [hne]
  · rename_i heq
    simp [not_not.mp heq]

/-- Insertion sort sorts by time. -/
theorem sortsByTime_insertionSort :
    SortsByTime fun l : List (Entry α β) => l.insertionSort fun a b => b.less a = false := by
  have htrans : IsTrans (Entry α β) fun a b => b.less a = false := ⟨by
    intro a b c
    simp only [Bool.eq_false_iff, ne_eq, Entry.less_iff]
    cases a.kind <;> cases b.kind <;> cases c.kind <;> simp <;> omega⟩
  have htotal : Std.Total fun a b : Entry α β => b.less a = false := ⟨by
    intro a b
    simp only [Bool.eq_false_iff, ne_eq, Entry.less_iff]
    cases a.kind <;> cases b.kind <;> simp <;> omega⟩
  exact fun l => ⟨List.perm_insertionSort _ l, List.pairwise_insertionSort _ l⟩

/-! ### What `checkSingle` says about a history -/

variable {model : Model σ α β} {sort : List (Entry α β) → List (Entry α β)}
  {history : List (Operation α β)} {t : Timeline α β} {H : List (Entry α β)}

/-- `checkSingle` ends and says whether the history is linearizable. -/
theorem checkSingle_iff_linearizable [Inhabited α] [Inhabited β] (hsort : SortsByTime sort)
    (hcall : ∀ o ∈ history, o.call ≤ o.ret) (hcongr : model.EqualCongr) (computePartial : Bool)
    {fuel : ℕ} (hfuel : maxRounds (2 * history.length) ≤ fuel) :
    ∃ ok longest, checkSingle model (makeEntries sort history) computePartial fuel =
      some (some (ok, longest)) ∧ (ok = true ↔ Linearizable model history) := by
  rw [← length_makeEntries hsort] at hfuel
  obtain ⟨⟨ok, longest⟩, hr, hverdict⟩ :=
    exists_verdict (timeline_of hsort hcall) hcongr computePartial hfuel
  refine ⟨ok, longest, hr, ?_⟩
  rw [← linearizable_timeline_iff hsort hcall]
  constructor
  · intro hok
    obtain ⟨T, hT, hall, -⟩ := hverdict.ok hok
    exact ⟨T, hT, hall⟩
  · intro hlin
    by_contra hok
    exact hverdict.fail (Bool.eq_false_of_not_eq_true hok) rfl hlin

/-- A counter that answers with its value and goes on. -/
def counter : Model ℕ Unit ℕ where
  init := 0
  step s _ y := (y = s, s + 1)

/-- The first client is called first and counted second. -/
def countTwice : List (Operation Unit ℕ) := [⟨0, (), 0, 1, 3⟩, ⟨1, (), 1, 0, 2⟩]

/-- The sort of the examples. -/
def sortEntries (l : List (Entry α β)) : List (Entry α β) :=
  l.insertionSort fun a b => b.less a = false

theorem checkSingle_iff_linearizable_counter : ∃ ok longest,
    checkSingle counter (makeEntries sortEntries countTwice) true (maxRounds 4) =
      some (some (ok, longest)) ∧ (ok = true ↔ Linearizable counter countTwice) :=
  checkSingle_iff_linearizable sortsByTime_insertionSort (by decide)
    (equalCongr_of_shallowEqual rfl) true le_rfl

/-- `longest` has for each operation a longest linearizable prefix with it, or nothing if there is
    none. -/
theorem checkSingle_longest (ht : t.Of H) (hcongr : model.EqualCongr) {fuel : ℕ}
    (hfuel : maxRounds H.length ≤ fuel) :
    ∃ r, checkSingle model H true fuel = some (some r) ∧ ∀ i < t.n,
      (r.2[i]? = some none ∧ ∀ T, LinearizablePrefix model t T → i ∉ T) ∨
      ∃ T, r.2[i]? = some (some (ids T)) ∧ LinearizablePrefix model t T ∧ i ∈ T ∧
        ∀ T', LinearizablePrefix model t T' → i ∈ T' → T'.length ≤ T.length := by
  obtain ⟨r, hr, hverdict⟩ := exists_verdict ht hcongr true hfuel
  refine ⟨r, hr, fun i hi => ?_⟩
  have hlongest := hverdict.longest rfl fun _ => rfl
  have hlen : i < r.2.length := hverdict.length ▸ hi
  have hget := List.getElem?_eq_getElem hlen
  cases hseq : r.2[i] with
  | none =>
    rw [hseq] at hget
    refine .inl ⟨hget, fun T hT hiT => ?_⟩
    obtain ⟨seq, hseq', -⟩ := hlongest T hT i hiT
    rw [hget] at hseq'
    cases hseq'
  | some seq =>
    rw [hseq] at hget
    obtain ⟨T, hT, hiT, rfl⟩ := hverdict.partials i seq hget
    refine .inr ⟨T, hget, hT, hiT, fun T' hT' hiT' => ?_⟩
    obtain ⟨seq', hseq', hle⟩ := hlongest T' hT' i hiT'
    rw [hget] at hseq'
    rwa [← Option.some.inj (Option.some.inj hseq'), length_ids] at hle

theorem checkSingle_longest_counter : ∃ r,
    checkSingle counter (makeEntries sortEntries countTwice) true (maxRounds 4) = some (some r) ∧
      ∀ i < 2, (r.2[i]? = some none ∧ ∀ T, LinearizablePrefix counter
          (timeline countTwice (makeEntries sortEntries countTwice)) T → i ∉ T) ∨
        ∃ T, r.2[i]? = some (some (ids T)) ∧ LinearizablePrefix counter
          (timeline countTwice (makeEntries sortEntries countTwice)) T ∧ i ∈ T ∧
          ∀ T', LinearizablePrefix counter
            (timeline countTwice (makeEntries sortEntries countTwice)) T' → i ∈ T' →
            T'.length ≤ T.length :=
  checkSingle_longest (timeline_of sortsByTime_insertionSort (by decide))
    (equalCongr_of_shallowEqual rfl) le_rfl

end DistLabs.Porcupine
