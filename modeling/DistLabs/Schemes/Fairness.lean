import DistLabs.Schemes.Run

/-! # What happens at last

    An infinite path of a transition function, and the rule for what it reaches under weak
    fairness: as long as the goal is not reached some helpful step can be taken, a helpful step
    lowers a rank, and no step raises it. -/

namespace DistLabs

variable {σ ε η ρ : Type*}

/-- A path without end; at each time one event happens. -/
structure Path (step : σ → ε → Except η σ) where
  state : ℕ → σ
  event : ℕ → ε
  next : ∀ i, step (state i) (event i) = .ok (state (i + 1))

namespace Path

variable {step : σ → ε → Except η σ} (p : Path step) {helps : σ → ε → Prop} {ok : σ → ε → Prop}

/-- Weak fairness: if a helpful step can be taken from some time on, one is taken. -/
def Fair (helps : σ → ε → Prop) : Prop :=
  ∀ i, (∀ j, i ≤ j → ∃ e t, helps (p.state j) e ∧ step (p.state j) e = .ok t) →
    ∃ j, i ≤ j ∧ helps (p.state j) (p.event j)

theorem run (hok : ∀ i, ok (p.state i) (p.event i)) :
    ∀ i, Run step ok (p.state 0) (p.state i)
  | 0 => .refl
  | i + 1 => .tail (run hok i) (hok i) (p.next i)

variable [Preorder ρ] {goal : σ → Prop} {rank : σ → ρ}

theorem rank_antitone {i : ℕ} (hgoal : ∀ j, i ≤ j → ¬ goal (p.state j))
    (hothers : ∀ j, ¬ goal (p.state j) → ¬ goal (p.state (j + 1)) →
      rank (p.state (j + 1)) ≤ rank (p.state j)) {j : ℕ} (hj : i ≤ j) :
    rank (p.state j) ≤ rank (p.state i) := by
  induction j, hj using Nat.le_induction with
  | base => exact le_rfl
  | succ j hj ih =>
    exact (hothers j (hgoal j hj) (hgoal (j + 1) (by omega))).trans ih

/-- The rule of weak fairness with a rank. -/
theorem reaches [WellFoundedLT ρ] (goal : σ → Prop) (rank : σ → ρ) (hfair : p.Fair helps)
    (henabled : ∀ j, ¬ goal (p.state j) → ∃ e t, helps (p.state j) e ∧ step (p.state j) e = .ok t)
    (hhelps : ∀ j, ¬ goal (p.state j) → ¬ goal (p.state (j + 1)) →
      helps (p.state j) (p.event j) → rank (p.state (j + 1)) < rank (p.state j))
    (hothers : ∀ j, ¬ goal (p.state j) → ¬ goal (p.state (j + 1)) →
      rank (p.state (j + 1)) ≤ rank (p.state j)) (i : ℕ) : ∃ j, i ≤ j ∧ goal (p.state j) := by
  by_contra hnever
  have hgoal : ∀ j, i ≤ j → ¬ goal (p.state j) := fun j hj hg => hnever ⟨j, hj, hg⟩
  -- induction on the rank at the time from which on we look
  suffices h : ∀ r, ∀ j, i ≤ j → rank (p.state j) = r → False from h _ i le_rfl rfl
  intro r
  induction r using WellFoundedLT.induction with
  | ind r ih =>
    rintro j hj rfl
    obtain ⟨m, hm, hhelp⟩ :=
      hfair j fun m hm => henabled m (hgoal m (hj.trans hm))
    have hbelow := p.rank_antitone (fun l hl => hgoal l (hj.trans hl)) hothers hm
    have hlt := hhelps m (hgoal m (by omega)) (hgoal (m + 1) (by omega)) hhelp
    exact ih _ (hlt.trans_le hbelow) (m + 1) (by omega) rfl

end Path

/-- A schedule that replays to a state with a step to itself gives a path that ends there. -/
theorem exists_path_of_play {step : σ → ε → Except η σ} {ok : σ → ε → Prop}
    [∀ s e, Decidable (ok s e)] {t : σ} {e : ε} (hidle : step t e = .ok t) :
    ∀ {es : List ε} {s : σ}, play step ok s es = some t →
      ∃ p : Path step, p.state 0 = s ∧ ∀ i, play step ok s (es.take i) = some (p.state i)
  | [], s, h => by
    obtain rfl := Option.some.inj h
    exact ⟨⟨fun _ => s, fun _ => e, fun _ => hidle⟩, rfl, fun i => by simp [play]⟩
  | e' :: es, s, h => by
    rw [play] at h
    split at h
    · rename_i hok
      split at h
      · rename_i u hu
        obtain ⟨p, rfl, hp⟩ := exists_path_of_play hidle h
        refine ⟨⟨fun i => i.casesOn s p.state, fun i => i.casesOn e' p.event, ?_⟩, rfl, ?_⟩
        · rintro (_ | i)
          · exact hu
          · exact p.next i
        · rintro (_ | i)
          · simp [play]
          · rw [List.take_succ_cons, play, if_pos hok, hu]
            exact hp i
      · cases h
    · cases h

end DistLabs
