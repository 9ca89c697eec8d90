import DistLabs.Porcupine.Checker
import DistLabs.Schemes.Search

/-! # What the checker looks for

    A history of calls and returns is about operations: where they are called and return, what they
    are given and what they answer. A linearizable prefix is a sequence of operations that the model
    accepts and in which an operation stands behind all that returned before it was called; the
    history is linearizable if such a sequence has all operations.

    The prefixes are the nodes of a search tree: an operation may come next if it is not taken yet
    and is called before the first return that is left. -/

namespace DistLabs.Porcupine

variable {σ α β : Type} [DecidableEq σ]

/-- `n` operations with the positions of their calls and returns. -/
structure Timeline (α β : Type) where
  n : ℕ
  call : ℕ → ℕ
  ret : ℕ → ℕ
  input : ℕ → α
  output : ℕ → β

/-- The history has exactly the calls and returns of the operations. -/
structure Timeline.Of (t : Timeline α β) (H : List (Entry α β)) : Prop where
  length : H.length = 2 * t.n
  lt : ∀ i < t.n, t.call i < t.ret i
  called : ∀ i < t.n, ∃ e, H[t.call i]? = some e ∧ e.kind = .callEntry ∧
    e.value = .inl (t.input i) ∧ e.id = i
  returned : ∀ i < t.n, ∃ e, H[t.ret i]? = some e ∧ e.kind = .returnEntry ∧
    e.value = .inr (t.output i) ∧ e.id = i
  cover : ∀ p e, H[p]? = some e → e.id < t.n ∧
    (e.kind = .callEntry → p = t.call e.id) ∧ (e.kind = .returnEntry → p = t.ret e.id)

/-- The state after a sequence of operations that the model accepts. -/
def Model.run (model : Model σ α β) (t : Timeline α β) : σ → List ℕ → Option σ
  | s, [] => some s
  | s, i :: T =>
    match model.step s (t.input i) (t.output i) with
    | (true, s') => model.run t s' T
    | (false, _) => none

/-- The operations of `T`, in this order, are a linearizable prefix. -/
structure LinearizablePrefix (model : Model σ α β) (t : Timeline α β) (T : List ℕ) : Prop where
  nodup : T.Nodup
  lt : ∀ i ∈ T, i < t.n
  legal : ∃ s, model.run t model.init T = some s
  realTime : ∀ P j Q, T = P ++ j :: Q → ∀ i < t.n, t.ret i < t.call j → i ∈ P

/-- All operations can be put in order. -/
def Timeline.Linearizable (model : Model σ α β) (t : Timeline α β) : Prop :=
  ∃ T, LinearizablePrefix model t T ∧ ∀ i < t.n, i ∈ T

variable {model : Model σ α β} {t : Timeline α β} {H : List (Entry α β)} {P T : List ℕ}

theorem Model.run_cons (s : σ) (i : ℕ) : model.run t s (i :: T) =
    if (model.step s (t.input i) (t.output i)).1 = true
    then model.run t (model.step s (t.input i) (t.output i)).2 T else none := by
  rw [Model.run]
  rcases model.step s (t.input i) (t.output i) with ⟨ok, s'⟩
  cases ok <;> rfl

theorem Model.run_concat (s : σ) (i : ℕ) : model.run t s (T ++ [i]) =
    (model.run t s T).bind fun s' => model.run t s' [i] := by
  induction T generalizing s with
  | nil => rfl
  | cons j T ih =>
    rw [List.cons_append, Model.run_cons, Model.run_cons]
    split
    · exact ih _
    · rfl

theorem Model.run_concat_eq_some {s s' : σ} {i : ℕ} : model.run t s (T ++ [i]) = some s' ↔
    ∃ s₁, model.run t s T = some s₁ ∧ model.step s₁ (t.input i) (t.output i) = (true, s') := by
  rw [Model.run_concat, Option.bind_eq_some_iff]
  refine exists_congr fun s₁ => and_congr_right fun _ => ?_
  simp only [Model.run]
  rcases model.step s₁ (t.input i) (t.output i) with ⟨ok, s₂⟩
  cases ok <;> simp

theorem linearizablePrefix_nil : LinearizablePrefix model t [] where
  nodup := List.nodup_nil
  lt := by simp
  legal := ⟨_, rfl⟩
  realTime := by simp

theorem LinearizablePrefix.of_concat {i : ℕ} (h : LinearizablePrefix model t (T ++ [i])) :
    LinearizablePrefix model t T := by
  obtain ⟨s, hs⟩ := h.legal
  obtain ⟨s₁, hs₁, -⟩ := Model.run_concat_eq_some.mp hs
  refine ⟨(List.nodup_append.mp h.nodup).1, fun j hj => h.lt j (List.mem_append_left _ hj),
    ⟨s₁, hs₁⟩, fun P j Q heq => h.realTime P j (Q ++ [i]) (by rw [heq]; simp)⟩

theorem LinearizablePrefix.concat {i : ℕ} {s s' : σ} (h : LinearizablePrefix model t T)
    (hs : model.run t model.init T = some s) (hi : i < t.n) (hT : i ∉ T)
    (hprec : ∀ j < t.n, t.ret j < t.call i → j ∈ T)
    (hstep : model.step s (t.input i) (t.output i) = (true, s')) :
    LinearizablePrefix model t (T ++ [i]) where
  nodup := List.nodup_append.mpr ⟨h.nodup, List.nodup_singleton i, fun a ha b hb => by
    rw [List.mem_singleton.mp hb]
    rintro rfl
    exact hT ha⟩
  lt j hj := by
    rcases List.mem_append.mp hj with hj | hj
    · exact h.lt j hj
    · rwa [List.mem_singleton.mp hj]
  legal := ⟨s', Model.run_concat_eq_some.mpr ⟨s, hs, hstep⟩⟩
  realTime P j Q heq := by
    rcases List.eq_nil_or_concat Q with rfl | ⟨Q', k, rfl⟩
    · obtain ⟨rfl, hj⟩ := List.append_inj' heq rfl
      obtain rfl : i = j := by simpa using hj
      exact hprec
    · refine h.realTime P j Q' ?_
      have heq' : T ++ [i] = (P ++ j :: Q') ++ [k] := by rw [heq]; simp
      exact (List.append_inj' heq' rfl).1

omit [DecidableEq σ] in
theorem Timeline.Of.value_call (ht : t.Of H) {p : ℕ} {e : Entry α β} (hp : H[p]? = some e)
    (hk : e.kind = .callEntry) : e.value = .inl (t.input e.id) := by
  obtain ⟨hn, hpos, -⟩ := ht.cover p e hp
  obtain ⟨b, hb, -, hvalue, -⟩ := ht.called e.id hn
  rw [← hpos hk, hp] at hb
  rw [Option.some.inj hb, hvalue, ← Option.some.inj hb]

/-! ### The search tree -/

/-- A sequence of operations with the state of the model after it. -/
structure Tried (σ : Type) where
  path : List ℕ
  state : σ

/-- The entries, with their positions, of the operations that are not in `P`. -/
def remaining (H : List (Entry α β)) (P : List ℕ) : List (Entry α β × ℕ) :=
  H.zipIdx.filter fun e => e.1.id ∉ P

/-- The entries up to the first return. -/
def candidates (l : List (Entry α β × ℕ)) : List (Entry α β × ℕ) :=
  l.takeWhile fun e => e.1.kind = .callEntry

/-- The search of `checkSingle`. -/
def tree (model : Model σ α β) (t : Timeline α β) (H : List (Entry α β)) :
    SearchTree (Tried σ) (Entry α β × ℕ) where
  moves v := candidates (remaining H v.path)
  child v e :=
    match model.step v.state (t.input e.1.id) (t.output e.1.id) with
    | (true, s) => some ⟨v.path ++ [e.1.id], s⟩
    | (false, _) => none
  Goal v := remaining H v.path = []
  Same v w := (∀ i, i ∈ v.path ↔ i ∈ w.path) ∧ model.equal v.state w.state = true

def root (model : Model σ α β) : Tried σ := ⟨[], model.init⟩

variable {e : Entry α β × ℕ} {v w : Tried σ}

omit [DecidableEq σ] in
theorem mem_remaining : e ∈ remaining H P ↔ H[e.2]? = some e.1 ∧ e.1.id ∉ P := by
  simp [remaining, List.mem_zipIdx_iff_getElem?]

omit [DecidableEq σ] in
theorem remaining_pairwise (H : List (Entry α β)) (P : List ℕ) :
    (remaining H P).Pairwise fun a b => a.2 < b.2 := by
  refine List.Pairwise.filter _ (List.pairwise_map.mp ?_)
  rw [List.zipIdx_map_snd]
  exact List.pairwise_lt_range'

/-- In an ordered list, the elements before the first that fails `p`. -/
theorem mem_takeWhile_iff {γ : Type*} {p : γ → Bool} {f : γ → ℕ} {l : List γ} {a : γ}
    (h : l.Pairwise fun a b => f a < f b) :
    a ∈ l.takeWhile p ↔ a ∈ l ∧ ∀ b ∈ l, f b ≤ f a → p b = true := by
  induction l with
  | nil => simp
  | cons c l ih =>
    obtain ⟨hc, hl⟩ := List.pairwise_cons.mp h
    rw [List.takeWhile_cons]
    split
    · rename_i hp
      rw [List.mem_cons, ih hl]
      constructor
      · rintro (rfl | ⟨hmem, hall⟩)
        · refine ⟨List.mem_cons_self .., fun b hb hle => ?_⟩
          rcases List.mem_cons.mp hb with rfl | hb
          · exact hp
          · exact absurd (hc b hb) (not_lt.mpr hle)
        · refine ⟨List.mem_cons_of_mem _ hmem, fun b hb hle => ?_⟩
          rcases List.mem_cons.mp hb with rfl | hb
          · exact hp
          · exact hall b hb hle
      · rintro ⟨hmem, hall⟩
        rcases List.mem_cons.mp hmem with rfl | hmem
        · exact .inl rfl
        · exact .inr ⟨hmem, fun b hb => hall b (List.mem_cons_of_mem _ hb)⟩
    · rename_i hp
      refine iff_of_false (by simp) fun ⟨hmem, hall⟩ => hp (hall c (List.mem_cons_self ..) ?_)
      rcases List.mem_cons.mp hmem with rfl | hmem
      · exact le_rfl
      · exact (hc a hmem).le

/-- An operation may come next if it is left and all that returned before its call are taken. -/
theorem mem_moves (ht : t.Of H) : e ∈ candidates (remaining H P) ↔
    H[e.2]? = some e.1 ∧ e.1.kind = .callEntry ∧ e.1.id ∉ P ∧
      ∀ i < t.n, t.ret i < t.call e.1.id → i ∈ P := by
  rw [candidates, mem_takeWhile_iff (remaining_pairwise H P), mem_remaining]
  constructor
  · rintro ⟨⟨hget, hid⟩, hall⟩
    have hcall : e.1.kind = .callEntry :=
      of_decide_eq_true (hall e (mem_remaining.mpr ⟨hget, hid⟩) le_rfl)
    refine ⟨hget, hcall, hid, fun i hi hlt => ?_⟩
    by_contra hiP
    obtain ⟨b, hb, hkind, -, rfl⟩ := ht.returned i hi
    have hpos := ((ht.cover _ _ hget).2.1 hcall)
    have := of_decide_eq_true (hall (b, t.ret b.id) (mem_remaining.mpr ⟨hb, hiP⟩) (hpos ▸ hlt.le))
    rw [hkind] at this
    cases this
  · rintro ⟨hget, hcall, hid, hall⟩
    refine ⟨⟨hget, hid⟩, fun b hb hle => decide_eq_true ?_⟩
    obtain ⟨hbget, hbid⟩ := mem_remaining.mp hb
    obtain ⟨hbn, -, hbret⟩ := ht.cover _ _ hbget
    have hpos := ((ht.cover _ _ hget).2.1 hcall)
    by_contra hne
    have hkind : b.1.kind = .returnEntry := by
      cases hk : b.1.kind
      · exact absurd hk hne
      · rfl
    rw [hbret hkind, hpos] at hle
    rcases hle.lt_or_eq with hlt | heq
    · exact hbid (hall b.1.id hbn hlt)
    · -- a call and a return are at different places
      have hsame := hbget
      rw [hbret hkind, heq, ← hpos, hget] at hsame
      rw [Option.some.inj hsame] at hcall
      exact hne hcall

theorem child_eq_some : (tree model t H).child v e = some w ↔
    model.step v.state (t.input e.1.id) (t.output e.1.id) = (true, w.state) ∧
      w.path = v.path ++ [e.1.id] := by
  simp only [tree]
  rcases model.step v.state (t.input e.1.id) (t.output e.1.id) with ⟨ok, s⟩
  obtain ⟨path, state⟩ := w
  cases ok
  · simp
  · simp only [Option.some.injEq, Tried.mk.injEq, Prod.mk.injEq, true_and]
    exact ⟨fun ⟨h1, h2⟩ => ⟨h2, h1.symm⟩, fun ⟨h1, h2⟩ => ⟨h2.symm, h1⟩⟩

/-- The nodes of the tree are the linearizable prefixes. -/
theorem below_iff (ht : t.Of H) : (tree model t H).Below (root model) v ↔
    LinearizablePrefix model t v.path ∧ model.run t model.init v.path = some v.state := by
  constructor
  · intro h
    induction h with
    | refl => exact ⟨linearizablePrefix_nil, rfl⟩
    | tail _ hc hchild ih =>
      obtain ⟨hpre, hrun⟩ := ih
      obtain ⟨hstep, hpath⟩ := child_eq_some.mp hchild
      obtain ⟨hget, hcall, hid, hprec⟩ := (mem_moves ht).mp hc
      have hlt := (ht.cover _ _ hget).1
      rw [hpath]
      exact ⟨hpre.concat hrun hlt hid hprec hstep, Model.run_concat_eq_some.mpr ⟨_, hrun, hstep⟩⟩
  · obtain ⟨path, state⟩ := v
    induction path using List.reverseRecOn generalizing state with
    | nil =>
      rintro ⟨-, hrun⟩
      obtain rfl := Option.some.inj hrun
      exact .refl
    | append_singleton path i ih =>
      rintro ⟨hpre, hrun⟩
      obtain ⟨s₁, hs₁, hstep⟩ := Model.run_concat_eq_some.mp hrun
      have hi : i < t.n := hpre.lt i (by simp)
      obtain ⟨b, hb, hkind, -, rfl⟩ := ht.called i hi
      have hid : b.id ∉ path := fun hmem =>
        (List.nodup_append.mp hpre.nodup).2.2 _ hmem _ (List.mem_singleton_self _) rfl
      exact (ih s₁ ⟨hpre.of_concat, hs₁⟩).tail (c := (b, t.call b.id))
        ((mem_moves ht).mpr ⟨hb, hkind, hid, hpre.realTime path b.id [] rfl⟩)
        (child_eq_some.mpr ⟨hstep, rfl⟩)

/-- Nothing is left when all operations are taken. -/
theorem remaining_eq_nil_iff (ht : t.Of H) : remaining H P = [] ↔ ∀ i < t.n, i ∈ P := by
  rw [List.eq_nil_iff_forall_not_mem]
  constructor
  · intro h i hi
    by_contra hiP
    obtain ⟨b, hb, -, -, rfl⟩ := ht.called i hi
    exact h (b, t.call b.id) (mem_remaining.mpr ⟨hb, hiP⟩)
  · intro h e he
    obtain ⟨hget, hid⟩ := mem_remaining.mp he
    exact hid (h _ (ht.cover _ _ hget).1)

/-! ### Nodes that are the same for the cache -/

/-- States that the model takes for equal behave in the same way. -/
def Model.EqualCongr (model : Model σ α β) : Prop :=
  ∀ s s', model.equal s s' = true → ∀ x y, (model.step s x y).1 = (model.step s' x y).1 ∧
    ((model.step s x y).1 = true → model.equal (model.step s x y).2 (model.step s' x y).2 = true)

/-- The default test compares the states. -/
theorem equalCongr_of_shallowEqual (h : model.equal = ShallowEqual) : model.EqualCongr := by
  intro s s' hs x y
  rw [h] at hs ⊢
  obtain rfl : s = s' := of_decide_eq_true hs
  exact ⟨rfl, fun _ => decide_eq_true rfl⟩

/-- The same operations are taken, and a chain of states leads from the one to the other of which
    each is equal to the next for the model. -/
def Alike (model : Model σ α β) (v w : Tried σ) : Prop :=
  (∀ i, i ∈ v.path ↔ i ∈ w.path) ∧
    Relation.ReflTransGen (fun s s' => model.equal s s' = true) v.state w.state

theorem Model.EqualCongr.step (h : model.EqualCongr) {s s' s₁ : σ} {x : α} {y : β}
    (hs : Relation.ReflTransGen (fun s s' => model.equal s s' = true) s s')
    (hstep : model.step s x y = (true, s₁)) : ∃ s₁', model.step s' x y = (true, s₁') ∧
      Relation.ReflTransGen (fun s s' => model.equal s s' = true) s₁ s₁' := by
  induction hs with
  | refl => exact ⟨s₁, hstep, .refl⟩
  | @tail a b _ hab ih =>
    obtain ⟨a₁, ha, hrel⟩ := ih
    obtain ⟨hok, hequal⟩ := h _ _ hab x y
    rw [ha] at hok hequal
    exact ⟨(model.step b x y).2, Prod.ext hok.symm rfl, hrel.tail (hequal rfl)⟩

theorem alike_simulates (ht : t.Of H) (hcongr : model.EqualCongr) :
    (tree model t H).Simulates (Alike model) where
  refl v := ⟨fun _ => Iff.rfl, .refl⟩
  trans h h' := ⟨fun i => (h.1 i).trans (h'.1 i), h.2.trans h'.2⟩
  same h := ⟨h.1, .single h.2⟩
  child := by
    rintro v w e v' ⟨hpath, hstate⟩ he hchild
    obtain ⟨hstep, hv'⟩ := child_eq_some.mp hchild
    obtain ⟨s, hs, hrel⟩ := hcongr.step hstate hstep
    obtain ⟨hget, hcall, hid, hprec⟩ := (mem_moves ht).mp he
    refine ⟨e, (mem_moves ht).mpr ⟨hget, hcall, fun hw => hid ((hpath _).mpr hw), fun i hi hlt =>
      (hpath i).mp (hprec i hi hlt)⟩, ⟨w.path ++ [e.1.id], s⟩,
      child_eq_some.mpr ⟨hs, rfl⟩, ?_, hrel⟩
    intro i
    rw [hv', List.mem_append, List.mem_append, hpath i]

end DistLabs.Porcupine
