import Mathlib.Tactic

/-! # Linearizable histories

    A sequential object answers one operation at a time. A history lists the invocations and the
    responses of concurrent calls in the order in which they happen; each call has an identity of
    its own. The history is linearizable if its calls can be put in one sequence that the object
    would answer in the same way and that respects the order of calls that do not overlap. Calls
    that have not responded may be part of that sequence or not.

    The rules build a linearization along with the history: an invocation and a response leave it as
    it is, a call takes effect by going to its end, and a call that has only read may be taken out
    again as long as it has not responded. -/

namespace DistLabs

/-- An object with states `σ`, operations `α` and results `β`. -/
structure SeqObject (σ α β : Type*) where
  init : σ
  step : σ → α → σ × β

/-- Call `i` is invoked with the operation `x`, or responds with `y`. -/
inductive CallEvent (ι α β : Type*) where
  | inv (i : ι) (x : α)
  | res (i : ι) (y : β)
  deriving DecidableEq

/-- A call with its result. -/
@[ext] structure Call (ι α β : Type*) where
  id : ι
  op : α
  result : β
  deriving DecidableEq

namespace SeqObject

variable {σ α β ι : Type*} (obj : SeqObject σ α β)

/-- The state after a sequence of calls. -/
def after (s : σ) (L : List (Call ι α β)) : σ := L.foldl (fun s c => (obj.step s c.op).1) s

/-- The object gives each call of the sequence its result. -/
def Legal : σ → List (Call ι α β) → Prop
  | _, [] => True
  | s, c :: L => (obj.step s c.op).2 = c.result ∧ Legal (obj.step s c.op).1 L

instance [DecidableEq β] : ∀ (s : σ) (L : List (Call ι α β)), Decidable (obj.Legal s L)
  | _, [] => .isTrue trivial
  | s, c :: L =>
    have := instDecidableLegalOfDecidableEq (obj.step s c.op).1 L
    inferInstanceAs (Decidable (_ ∧ _))

/-- The sequence `L` explains the history `H`. -/
structure Linearizes (H : List (CallEvent ι α β)) (L : List (Call ι α β)) : Prop where
  legal : obj.Legal obj.init L
  nodup : (L.map Call.id).Nodup
  invoked : ∀ c ∈ L, .inv c.id c.op ∈ H
  responded : ∀ i y, .res i y ∈ H → ∃ x, ⟨i, x, y⟩ ∈ L
  realTime : ∀ c ∈ L, ∀ d ∈ L, ∀ y, [.res c.id y, .inv d.id d.op].Sublist H → [c, d].Sublist L

/-- Some sequence explains the history. -/
def Linearizable (H : List (CallEvent ι α β)) : Prop := ∃ L, obj.Linearizes H L

variable {obj} {H : List (CallEvent ι α β)} {L : List (Call ι α β)} {i : ι} {x : α} {y : β}

@[simp] theorem after_append (s : σ) (L L' : List (Call ι α β)) :
    obj.after s (L ++ L') = obj.after (obj.after s L) L' := by
  simp [after]

theorem legal_append {s : σ} {L' : List (Call ι α β)} :
    obj.Legal s (L ++ L') ↔ obj.Legal s L ∧ obj.Legal (obj.after s L) L' := by
  induction L generalizing s with
  | nil => simp [Legal, after]
  | cons c L ih => simp [Legal, ih, after, and_assoc]

/-- Two events in this order, the later one possibly the last. -/
theorem pair_sublist_concat {γ : Type*} {l : List γ} {a b e : γ} :
    [a, b].Sublist (l ++ [e]) ↔ [a, b].Sublist l ∨ a ∈ l ∧ b = e := by
  rw [List.sublist_append_iff]
  constructor
  · rintro ⟨l₁, l₂, heq, h₁, h₂⟩
    rcases l₁ with _ | ⟨a', _ | ⟨b', l₁⟩⟩
    · have := h₂.length_le
      simp only [List.nil_append] at heq
      simp [← heq] at this
    · simp only [List.singleton_append, List.cons.injEq] at heq
      obtain ⟨rfl, rfl⟩ := heq
      refine .inr ⟨List.singleton_sublist.mp h₁, ?_⟩
      simpa using h₂
    · simp only [List.cons_append, List.cons.injEq] at heq
      obtain ⟨rfl, rfl, hnil⟩ := heq
      obtain ⟨rfl, rfl⟩ := List.nil_eq_append_iff.mp hnil
      exact .inl h₁
  · rintro (h | ⟨ha, rfl⟩)
    · exact ⟨[a, b], [], by simp, h, List.nil_sublist _⟩
    · exact ⟨[a], [b], by simp, List.singleton_sublist.mpr ha, List.Sublist.refl _⟩

theorem linearizes_nil : obj.Linearizes ([] : List (CallEvent ι α β)) [] := by
  constructor <;> simp [Legal]

/-- A new call is invoked. -/
theorem Linearizes.invoke (h : obj.Linearizes H L) (hfresh : ∀ c ∈ L, c.id ≠ i) :
    obj.Linearizes (H ++ [.inv i x]) L := by
  refine ⟨h.legal, h.nodup, fun c hc => List.mem_append_left _ (h.invoked c hc), fun j y hj => ?_,
    fun c hc d hd y hcd => ?_⟩
  · refine h.responded j y ?_
    simpa using hj
  · rcases pair_sublist_concat.mp hcd with hold | ⟨-, heq⟩
    · exact h.realTime c hc d hd y hold
    · exact absurd (CallEvent.inv.inj heq).1 (hfresh d hd)

/-- A call that has taken effect responds. -/
theorem Linearizes.respond (h : obj.Linearizes H L) (hc : ⟨i, x, y⟩ ∈ L) :
    obj.Linearizes (H ++ [.res i y]) L := by
  refine ⟨h.legal, h.nodup, fun c hc => List.mem_append_left _ (h.invoked c hc), fun j z hj => ?_,
    fun c hc d hd z hcd => ?_⟩
  · rcases List.mem_append.mp hj with hold | hnew
    · exact h.responded j z hold
    · obtain ⟨rfl, rfl⟩ := CallEvent.res.inj (List.mem_singleton.mp hnew)
      exact ⟨x, hc⟩
  · rcases pair_sublist_concat.mp hcd with hold | ⟨-, heq⟩
    · exact h.realTime c hc d hd z hold
    · cases heq

/-- A call that is invoked and has not responded takes effect. -/
theorem Linearizes.takeEffect (h : obj.Linearizes H L) (hinv : .inv i x ∈ H)
    (hres : ∀ y, .res i y ∉ H) (hfresh : ∀ c ∈ L, c.id ≠ i)
    (hy : (obj.step (obj.after obj.init L) x).2 = y) :
    obj.Linearizes H (L ++ [⟨i, x, y⟩]) := by
  refine ⟨legal_append.mpr ⟨h.legal, hy, trivial⟩, ?_, fun c hc => ?_, fun j z hj => ?_,
    fun c hc d hd z hcd => ?_⟩
  · rw [List.map_append, List.map_singleton, List.nodup_append]
    refine ⟨h.nodup, List.nodup_singleton _, fun j hj k hk => ?_⟩
    obtain ⟨c, hc, rfl⟩ := List.mem_map.mp hj
    obtain rfl := List.mem_singleton.mp hk
    exact hfresh c hc
  · rcases List.mem_append.mp hc with hc | hc
    · exact h.invoked c hc
    · obtain rfl := List.mem_singleton.mp hc
      exact hinv
  · obtain ⟨w, hw⟩ := h.responded j z hj
    exact ⟨w, List.mem_append_left _ hw⟩
  · rcases List.mem_append.mp hc with hc | hc
    · rcases List.mem_append.mp hd with hd | hd
      · exact (h.realTime c hc d hd z hcd).trans (List.sublist_append_left ..)
      · exact pair_sublist_concat.mpr (.inr ⟨hc, List.mem_singleton.mp hd⟩)
    · obtain rfl := List.mem_singleton.mp hc
      exact absurd (hcd.subset (List.mem_cons_self ..)) (hres z)

/-- Taking out calls that do not change the state. -/
theorem legal_filter (p : Call ι α β → Bool) (s : σ)
    (hread : ∀ c ∈ L, p c = false → ∀ s, (obj.step s c.op).1 = s) (h : obj.Legal s L) :
    obj.Legal s (L.filter p) ∧ obj.after s (L.filter p) = obj.after s L := by
  induction L generalizing s with
  | nil => exact ⟨trivial, rfl⟩
  | cons c L ih =>
    obtain ⟨hc, hL⟩ := h
    obtain ⟨hleg, haft⟩ := ih (obj.step s c.op).1
      (fun d hd => hread d (List.mem_cons_of_mem _ hd)) hL
    cases hp : p c with
    | true =>
      rw [List.filter_cons_of_pos hp]
      exact ⟨⟨hc, hleg⟩, haft⟩
    | false =>
      have hs := hread c (List.mem_cons_self ..) hp s
      rw [hs] at hleg haft
      rw [List.filter_cons_of_neg (by simp [hp]), haft]
      exact ⟨hleg, by rw [after, after, List.foldl_cons, hs]⟩

/-- A call that only reads and has not responded gives up its place. -/
theorem Linearizes.retract [DecidableEq ι] (h : obj.Linearizes H L) (hres : ∀ y, .res i y ∉ H)
    (hread : ∀ c ∈ L, c.id = i → ∀ s, (obj.step s c.op).1 = s) :
    obj.Linearizes H (L.filter (·.id ≠ i)) ∧
      obj.after obj.init (L.filter (·.id ≠ i)) = obj.after obj.init L := by
  obtain ⟨hleg, haft⟩ := legal_filter (fun c => decide (c.id ≠ i)) obj.init
    (fun c hc hp => hread c hc (by simpa using hp)) h.legal
  refine ⟨⟨hleg, h.nodup.sublist (List.filter_sublist.map _), fun c hc => ?_, fun j z hj => ?_,
    fun c hc d hd z hcd => ?_⟩, haft⟩
  · exact h.invoked c (List.mem_of_mem_filter hc)
  · obtain ⟨w, hw⟩ := h.responded j z hj
    refine ⟨w, List.mem_filter.mpr ⟨hw, decide_eq_true ?_⟩⟩
    rintro rfl
    exact hres z hj
  · obtain ⟨hcL, hci⟩ := List.mem_filter.mp hc
    obtain ⟨hdL, hdi⟩ := List.mem_filter.mp hd
    have hpair := (h.realTime c hcL d hdL z hcd).filter fun c => decide (c.id ≠ i)
    have hself : [c, d].filter (fun c => decide (c.id ≠ i)) = [c, d] := by
      simp_all
    rwa [hself] at hpair

/-- When all calls of a history have responded, a linearization is an order of these calls. -/
theorem Linearizes.perm (h : obj.Linearizes H L) {calls : List (Call ι α β)}
    (hnodup : (calls.map Call.id).Nodup) (hres : ∀ c ∈ calls, .res c.id c.result ∈ H)
    (hinv : ∀ i x, .inv i x ∈ H → ∃ y, ⟨i, x, y⟩ ∈ calls) : L.Perm calls := by
  refine (List.perm_ext_iff_of_nodup h.nodup.of_map hnodup.of_map).mpr fun c => ⟨fun hc => ?_,
    fun hc => ?_⟩
  · obtain ⟨y, hy⟩ := hinv c.id c.op (h.invoked c hc)
    obtain ⟨x, hx⟩ := h.responded c.id y (hres _ hy)
    have heq : c = ⟨c.id, x, y⟩ := List.inj_on_of_nodup_map h.nodup hc hx rfl
    have hresult : c.result = y := congrArg Call.result heq
    rwa [← hresult] at hy
  · obtain ⟨x, hx⟩ := h.responded c.id c.result (hres c hc)
    obtain ⟨y, hy⟩ := hinv c.id x (h.invoked _ hx)
    have heq : c = ⟨c.id, x, y⟩ := List.inj_on_of_nodup_map hnodup hc hy rfl
    have hop : c.op = x := congrArg Call.op heq
    rwa [← hop] at hx

end SeqObject
end DistLabs
