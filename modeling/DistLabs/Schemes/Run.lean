import Mathlib.Tactic

/-! # Runs of a transition function

    `step s e` is the next state under event `e`, or an error when the event cannot happen.
    `Run step ok s t` says that `t` is reached from `s` by steps that all satisfy `ok`; with
    `ok := fun _ _ => True` these are all runs. `play` replays a concrete schedule and checks `ok`
    at each step, which is how a concrete run is exhibited. -/

namespace DistLabs

/-- Why there is no next state: the step is not enabled, or the code panics. -/
inductive Halt where | disabled | panic
  deriving DecidableEq

variable {σ ε η : Type*}

/-- `t` is reached from `s` by steps that satisfy `ok` in the state they are taken in. -/
inductive Run (step : σ → ε → Except η σ) (ok : σ → ε → Prop) (s : σ) : σ → Prop
  | refl : Run step ok s s
  | tail {t u : σ} {e : ε} : Run step ok s t → ok t e → step t e = .ok u → Run step ok s u

namespace Run

variable {step : σ → ε → Except η σ} {ok ok' : σ → ε → Prop} {s t u : σ} {τ ζ θ : Type*}

theorem trans (h₁ : Run step ok s t) (h₂ : Run step ok t u) : Run step ok s u := by
  induction h₂ with
  | refl => exact h₁
  | tail _ hok hstep ih => exact .tail ih hok hstep

theorem mono (himp : ∀ s e, ok s e → ok' s e) (h : Run step ok s t) : Run step ok' s t := by
  induction h with
  | refl => exact .refl
  | tail _ hok hstep ih => exact .tail ih (himp _ _ hok) hstep

/-- The invariant rule: what holds at the start and is kept by every step holds at the end. -/
theorem invariant {P : σ → Prop} (h : Run step ok s t) (h0 : P s)
    (hstep : ∀ s s' e, P s → ok s e → step s e = .ok s' → P s') : P t := by
  induction h with
  | refl => exact h0
  | tail _ hok hs ih => exact hstep _ _ _ ih hok hs

/-- A relation between states that every step obeys is obeyed by every run, if it is a preorder. -/
theorem relates {R : σ → σ → Prop} (hrefl : ∀ s, R s s) (htrans : ∀ a b c, R a b → R b c → R a c)
    (hstep : ∀ s s' e, ok s e → step s e = .ok s' → R s s') (h : Run step ok s t) : R s t := by
  induction h with
  | refl => exact hrefl s
  | tail _ hok hs ih => exact htrans _ _ _ ih (hstep _ _ _ hok hs)

/-- Simulation: if every step is matched by a run of another system, so is every run. -/
theorem simulation {step₂ : τ → ζ → Except θ τ} {ok₂ : τ → ζ → Prop} {R : σ → τ → Prop} {a : τ}
    (h : Run step ok s t) (h0 : R s a)
    (hstep : ∀ s s' e a, R s a → ok s e → step s e = .ok s' → ∃ b, Run step₂ ok₂ a b ∧ R s' b) :
    ∃ b, Run step₂ ok₂ a b ∧ R t b := by
  induction h with
  | refl => exact ⟨a, .refl, h0⟩
  | tail _ hok hs ih =>
    obtain ⟨b, hb, hR⟩ := ih
    obtain ⟨c, hc, hR'⟩ := hstep _ _ _ b hR hok hs
    exact ⟨c, hb.trans hc, hR'⟩

end Run

/-- The computation `f`, which goes on at `inl` and is over at `inr`, takes `a` to `b`. -/
inductive Ends {α β : Type*} (f : α → α ⊕ β) : α → β → Prop
  | stop {a : α} {b : β} : f a = .inr b → Ends f a b
  | next {a a' : α} {b : β} : f a = .inl a' → Ends f a' b → Ends f a b

namespace Ends

variable {α β : Type*} {f : α → α ⊕ β} {a a' : α} {b b' : β}

theorem of_inl (h : Ends f a b) (ha : f a = .inl a') : Ends f a' b := by
  cases h with
  | stop hb => rw [ha] at hb; cases hb
  | next hn h => rw [ha] at hn; cases hn; exact h

theorem eq_of_inr (h : Ends f a b) (ha : f a = .inr b') : b = b' := by
  cases h with
  | stop hb => rw [ha] at hb; cases hb; rfl
  | next hn h => rw [ha] at hn; cases hn

end Ends

/-- Replay a schedule, checking `ok` before every event. -/
def play (step : σ → ε → Except η σ) (ok : σ → ε → Prop) [∀ s e, Decidable (ok s e)] :
    σ → List ε → Option σ
  | s, [] => some s
  | s, e :: es =>
    if ok s e then
      match step s e with
      | .ok t => play step ok t es
      | .error _ => none
    else none

theorem play_run {step : σ → ε → Except η σ} {ok : σ → ε → Prop} [∀ s e, Decidable (ok s e)] :
    ∀ {es : List ε} {s t : σ}, play step ok s es = some t → Run step ok s t
  | [], s, t, h => by
    cases h; exact .refl
  | e :: es, s, t, h => by
    rw [play] at h
    split at h
    · rename_i hok
      split at h
      · rename_i u hu
        exact Run.trans (.tail .refl hok hu) (play_run h)
      · cases h
    · cases h

/-- A schedule that replays to a state with property `P` exhibits a run to such a state. -/
theorem exists_run_of_play (step : σ → ε → Except η σ) (ok : σ → ε → Prop)
    [∀ s e, Decidable (ok s e)] (s : σ) (es : List ε) (P : σ → Prop) [DecidablePred P]
    (h : (play step ok s es).map (fun t => decide (P t)) = some true) :
    ∃ t, Run step ok s t ∧ P t := by
  obtain ⟨t, ht, hP⟩ := Option.map_eq_some_iff.mp h
  exact ⟨t, play_run ht, of_decide_eq_true hP⟩

/-- The same for two states of one run. -/
theorem exists_runs_of_play (step : σ → ε → Except η σ) (ok : σ → ε → Prop)
    [∀ s e, Decidable (ok s e)] (s : σ) (es es' : List ε) (P : σ → σ → Prop)
    [∀ t u, Decidable (P t u)]
    (h : ((play step ok s es).bind fun t => (play step ok t es').map fun u => decide (P t u)) =
      some true) :
    ∃ t u, Run step ok s t ∧ Run step ok t u ∧ P t u := by
  obtain ⟨t, ht, h⟩ := Option.bind_eq_some_iff.mp h
  obtain ⟨u, hu, hP⟩ := Option.map_eq_some_iff.mp h
  exact ⟨t, u, play_run ht, play_run hu, of_decide_eq_true hP⟩

end DistLabs
