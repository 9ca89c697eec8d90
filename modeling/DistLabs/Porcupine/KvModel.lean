import DistLabs.Porcupine.Operations

/-! # The key/value model (`models/kv.go`)

    The model of a history is the value of a single key: the checker looks at each key on its own.
    That loses nothing. A history is linearizable for a store with many keys exactly when its parts
    are linearizable, key by key, because orders of the parts can be merged. -/

namespace DistLabs.Porcupine

/-! ### Many objects -/

section Store

variable {σ α β κ : Type} [DecidableEq σ] [DecidableEq κ]

/-- A store has an object for each key; the model accepts the operations in this order. -/
def Model.storeAccepts (model : Model σ α β) (key : α → κ) :
    (κ → σ) → List (Operation α β) → Bool
  | _, [] => true
  | m, o :: L =>
    match model.step (m (key o.input)) o.input o.output with
    | (true, s') => model.storeAccepts key (Function.update m (key o.input) s') L
    | (false, _) => false

/-- The history of a store whose objects all start in the initial state is linearizable. -/
def StoreLinearizable (model : Model σ α β) (key : α → κ) (history : List (Operation α β)) : Prop :=
  ∃ L : List (Operation α β), L.Perm history ∧
    model.storeAccepts key (fun _ => model.init) L = true ∧
    Intervals.InOrder Operation.call Operation.ret L

/-- The operations on one key. -/
def onKey (key : α → κ) (k : κ) (history : List (Operation α β)) : List (Operation α β) :=
  history.filter fun o => key o.input = k

variable {model : Model σ α β} {key : α → κ} {history : List (Operation α β)}

/-- The objects do not see each other. -/
theorem storeAccepts_iff (m : κ → σ) (L : List (Operation α β)) :
    model.storeAccepts key m L = true ↔ ∀ k, model.accepts (m k) (onKey key k L) = true := by
  induction L generalizing m with
  | nil => simp [Model.storeAccepts, onKey, Model.accepts]
  | cons o L ih =>
    have hself : onKey key (key o.input) (o :: L) = o :: onKey key (key o.input) L :=
      List.filter_cons_of_pos (by simp)
    have hother : ∀ k, k ≠ key o.input → onKey key k (o :: L) = onKey key k L := fun k hk =>
      List.filter_cons_of_neg (by simpa using hk.symm)
    rw [Model.storeAccepts]
    cases hstep : model.step (m (key o.input)) o.input o.output with
    | mk ok s' =>
      cases ok with
      | false =>
        refine iff_of_false (by simp) fun h => ?_
        have := h (key o.input)
        rw [hself, Model.accepts_cons, hstep] at this
        simp at this
      | true =>
        simp only [ih]
        refine forall_congr' fun k => ?_
        by_cases hk : k = key o.input
        · rw [hk, Function.update_self, hself, Model.accepts_cons, hstep]
          simp
        · rw [Function.update_of_ne hk, hother k hk]

theorem flatten_onKey_perm {ks : List κ} (hks : ks.Nodup) :
    (ks.map fun k => onKey key k history).flatten.Perm
      (history.filter fun o => key o.input ∈ ks) := by
  induction ks with
  | nil => simp
  | cons k ks ih =>
    obtain ⟨hk, hks⟩ := List.nodup_cons.mp hks
    refine ((ih hks).append_left _).trans ?_
    -- the operations on the key and those on the other keys
    have hsplit := List.filter_append_perm (fun o : Operation α β => decide (key o.input = k))
      (history.filter fun o => key o.input ∈ k :: ks)
    refine List.Perm.trans (List.Perm.of_eq ?_) hsplit
    rw [List.filter_filter, List.filter_filter]
    congr 1
    · refine List.filter_congr fun o _ => ?_
      by_cases ho : key o.input = k <;> simp [ho]
    · refine List.filter_congr fun o _ => ?_
      by_cases ho : key o.input = k <;> simp [ho, hk]

theorem storeLinearizable_iff (hcall : ∀ o ∈ history, o.call ≤ o.ret) :
    StoreLinearizable model key history ↔ ∀ k, Linearizable model (onKey key k history) := by
  constructor
  · rintro ⟨L, hperm, haccepts, horder⟩ k
    exact ⟨onKey key k L, hperm.filter _, (storeAccepts_iff _ L).mp haccepts k, horder.filter _⟩
  · intro h
    choose f hperm haccepts horder using h
    have hmem : ∀ k, ∀ o ∈ f k, o ∈ history ∧ key o.input = k := by
      intro k o ho
      have := List.mem_filter.mp ((hperm k).mem_iff.mp ho)
      exact ⟨this.1, of_decide_eq_true this.2⟩
    set ks := (history.map fun o => key o.input).dedup with hks
    obtain ⟨M, hM, hMorder, hsub⟩ : ∃ M : List (Operation α β), M.Perm (ks.map f).flatten ∧
        Intervals.InOrder Operation.call Operation.ret M ∧ ∀ L ∈ ks.map f, L.Sublist M := by
      refine Intervals.exists_merge (fun L hL => ?_) fun L hL o ho => ?_
      · obtain ⟨k, -, rfl⟩ := List.mem_map.mp hL
        exact horder k
      · obtain ⟨k, -, rfl⟩ := List.mem_map.mp hL
        exact hcall o (hmem k o ho).1
    have hhistory : M.Perm history := calc
      M.Perm (ks.map f).flatten := hM
      List.Perm _ (ks.map fun k => onKey key k history).flatten :=
        List.Perm.flatten_congr (List.forall₂_map_left_iff.mpr
          (List.forall₂_map_right_iff.mpr (List.forall₂_same.mpr fun k _ => hperm k)))
      List.Perm _ (history.filter fun o => key o.input ∈ ks) :=
        flatten_onKey_perm (List.nodup_dedup _)
      _ = history := List.filter_eq_self.mpr fun o ho => by
        simpa [hks] using ⟨o, ho, rfl⟩
    -- the part of the merged order on a key is the order it was made from
    have hpart : ∀ k, onKey key k M = f k := by
      intro k
      have hlen : (onKey key k M).length = (f k).length :=
        ((hhistory.filter _).trans (hperm k).symm).length_eq
      by_cases hk : k ∈ ks
      · have hself : onKey key k (f k) = f k :=
          List.filter_eq_self.mpr fun o ho => decide_eq_true (hmem k o ho).2
        have hsublist : (f k).Sublist (onKey key k M) := by
          rw [← hself]
          exact (hsub _ (List.mem_map_of_mem hk)).filter _
        exact (hsublist.eq_of_length hlen.symm).symm
      · have hnil : f k = [] := List.eq_nil_iff_forall_not_mem.mpr fun o ho => by
          refine hk (List.mem_dedup.mpr (List.mem_map.mpr ⟨o, ?_⟩))
          exact hmem k o ho
        rw [hnil] at hlen ⊢
        exact List.length_eq_zero_iff.mp hlen
    refine ⟨M, hhistory, (storeAccepts_iff _ M).mpr fun k => ?_, hMorder⟩
    rw [hpart]
    exact haccepts k

end Store

/-! ### The model -/

structure KvInput where
  /-- 0 for get, 1 for put, 2 for append, any other for append with return value -/
  op : UInt8
  key : String
  value : String
  deriving DecidableEq, Inhabited

structure KvOutput where
  value : String
  deriving DecidableEq, Inhabited

abbrev KvOperation := Operation KvInput KvOutput

/-- The loop of `Partition`: the operations by key, in the order of the history. -/
def byKey (history : List KvOperation) : String → List KvOperation :=
  history.foldl (fun m v => Function.update m v.input.key (m v.input.key ++ [v])) fun _ => []

/-- The keys of the map, sorted. -/
def sortedKeys (history : List KvOperation) : List String :=
  (history.map fun v => v.input.key).dedup.insertionSort (· ≤ ·)

def KvModel : Model String KvInput KvOutput where
  partition history := (sortedKeys history).map (byKey history)
  init := ""
  step st inp out :=
    if inp.op = 0 then (out.value = st, st)
    else if inp.op = 1 then (true, inp.value)
    else if inp.op = 2 then (true, st ++ inp.value)
    else (out.value = st, st ++ inp.value)

theorem foldl_byKey (m : String → List KvOperation) (history : List KvOperation) (k : String) :
    history.foldl (fun m v => Function.update m v.input.key (m v.input.key ++ [v])) m k =
      m k ++ onKey KvInput.key k history := by
  induction history generalizing m with
  | nil => simp [onKey]
  | cons v history ih =>
    rw [List.foldl_cons, ih]
    by_cases hk : v.input.key = k
    · subst hk
      simp [onKey]
    · simp [onKey, hk, Function.update_of_ne (Ne.symm hk)]

theorem byKey_eq (history : List KvOperation) (k : String) :
    byKey history k = onKey KvInput.key k history :=
  (foldl_byKey _ history k).trans (List.nil_append _)

theorem mem_partition {history part : List KvOperation} : part ∈ KvModel.partition history ↔
    ∃ v ∈ history, part = onKey KvInput.key v.input.key history := by
  simp only [KvModel, sortedKeys, List.mem_map, List.mem_insertionSort, List.mem_dedup]
  constructor
  · rintro ⟨k, ⟨v, hv, rfl⟩, rfl⟩
    exact ⟨v, hv, byKey_eq history _⟩
  · rintro ⟨v, hv, rfl⟩
    exact ⟨_, ⟨v, hv, rfl⟩, byKey_eq history _⟩

theorem linearizable_nil {σ α β : Type} [DecidableEq σ] (model : Model σ α β) :
    Linearizable model [] := ⟨[], .nil, rfl, .nil⟩

theorem partition_linearizable {history : List KvOperation}
    (hcall : ∀ o ∈ history, o.call ≤ o.ret) :
    (∀ part ∈ KvModel.partition history, Linearizable KvModel part) ↔
      StoreLinearizable KvModel KvInput.key history := by
  rw [storeLinearizable_iff hcall]
  constructor
  · intro h k
    by_cases hk : ∃ v ∈ history, v.input.key = k
    · obtain ⟨v, hv, rfl⟩ := hk
      exact h _ (mem_partition.mpr ⟨v, hv, rfl⟩)
    · have hnil : onKey KvInput.key k history = [] :=
        List.filter_eq_nil_iff.mpr fun v hv hkey => hk ⟨v, hv, of_decide_eq_true hkey⟩
      rw [hnil]
      exact linearizable_nil KvModel
  · intro h part hpart
    obtain ⟨v, -, rfl⟩ := mem_partition.mp hpart
    exact h _

theorem kvModel_equalCongr : KvModel.EqualCongr := equalCongr_of_shallowEqual rfl

/-- `Partition` puts every operation in the part of its key, and the history is linearizable for a
    store of many keys exactly when the parts are for one key. -/
theorem kvModel_partition {history : List KvOperation} (hcall : ∀ o ∈ history, o.call ≤ o.ret) :
    (KvModel.partition history).flatten.Perm history ∧
      (∀ part ∈ KvModel.partition history, part ≠ [] ∧
        ∃ k, part = history.filter fun o => o.input.key = k) ∧
      ((∀ part ∈ KvModel.partition history, Linearizable KvModel part) ↔
        StoreLinearizable KvModel KvInput.key history) := by
  refine ⟨?_, fun part hpart => ?_, partition_linearizable hcall⟩
  · have hparts : KvModel.partition history =
        (sortedKeys history).map fun k => onKey KvInput.key k history :=
      List.map_congr_left fun k _ => byKey_eq history k
    have hnodup : (sortedKeys history).Nodup :=
      (List.perm_insertionSort _ _).nodup_iff.mpr (List.nodup_dedup _)
    have hall : (history.filter fun o => o.input.key ∈ sortedKeys history) = history :=
      List.filter_eq_self.mpr fun o ho => by
        simpa [sortedKeys] using ⟨o, ho, rfl⟩
    rw [hparts]
    exact (flatten_onKey_perm hnodup).trans (List.Perm.of_eq hall)
  · obtain ⟨v, hv, rfl⟩ := mem_partition.mp hpart
    exact ⟨List.ne_nil_of_mem (List.mem_filter.mpr ⟨hv, decide_eq_true rfl⟩), v.input.key, rfl⟩

/-- A put of one client and a get of another overlap; a third one appends to another key. -/
def putGetAppend : List KvOperation :=
  [⟨1, ⟨1, "x", "1"⟩, 0, ⟨""⟩, 2⟩, ⟨3, ⟨3, "y", "2"⟩, 1, ⟨""⟩, 4⟩, ⟨2, ⟨0, "x", ""⟩, 1, ⟨"1"⟩, 3⟩]

theorem kvModel_partition_putGetAppend : (∀ o ∈ putGetAppend, o.call ≤ o.ret) ∧
    (KvModel.partition putGetAppend).flatten.Perm putGetAppend ∧
    ((∀ part ∈ KvModel.partition putGetAppend, Linearizable KvModel part) ↔
      StoreLinearizable KvModel KvInput.key putGetAppend) := by
  have hcall : ∀ o ∈ putGetAppend, o.call ≤ o.ret := by decide
  obtain ⟨hperm, -, hiff⟩ := kvModel_partition hcall
  exact ⟨hcall, hperm, hiff⟩

end DistLabs.Porcupine
