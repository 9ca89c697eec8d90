import Mathlib.Tactic

/-! # Orders of intervals

    Operations take time: each has an interval from its call to its return. An order of operations
    is one they can have happened in if none stands behind an operation that was called after it
    returned. Such an order gives every interval a point, the latest call up to it, at which the
    operation may be taken to happen. Orders of different groups of operations can therefore be
    merged: by their points. -/

namespace DistLabs.Intervals

variable {γ τ : Type*} [LinearOrder τ] {call ret : γ → τ}

/-- Nothing stands behind what was called after it returned. -/
def InOrder (call ret : γ → τ) (L : List γ) : Prop := L.Pairwise fun a b => ¬ ret b < call a

/-- The intervals with their points: the latest call so far, at least `m`. -/
def points (call : γ → τ) : τ → List γ → List (γ × τ)
  | _, [] => []
  | m, a :: L => (a, max m (call a)) :: points call (max m (call a)) L

variable {m : τ} {L : List γ}

theorem map_fst_points (m : τ) (L : List γ) : (points call m L).map Prod.fst = L := by
  induction L generalizing m with
  | nil => rfl
  | cons a L ih => rw [points, List.map_cons, ih]

theorem le_of_mem_points {x : γ × τ} (h : x ∈ points call m L) : m ≤ x.2 := by
  induction L generalizing m with
  | nil => cases h
  | cons a L ih =>
    rcases List.mem_cons.mp h with rfl | h
    · exact le_max_left _ _
    · exact (le_max_left _ _).trans (ih h)

theorem points_pairwise (m : τ) (L : List γ) :
    (points call m L).Pairwise fun x y => x.2 ≤ y.2 := by
  induction L generalizing m with
  | nil => exact .nil
  | cons a L ih => exact .cons (fun y hy => le_of_mem_points hy) (ih _)

/-- The points are in the intervals. -/
theorem points_mem (h : InOrder call ret L) (hcall : ∀ a ∈ L, call a ≤ ret a)
    (hm : ∀ a ∈ L, m ≤ ret a) : ∀ x ∈ points call m L, call x.1 ≤ x.2 ∧ x.2 ≤ ret x.1 := by
  induction L generalizing m with
  | nil => simp [points]
  | cons a L ih =>
    obtain ⟨ha, hL⟩ := List.pairwise_cons.mp h
    intro x hx
    rcases List.mem_cons.mp hx with rfl | hx
    · exact ⟨le_max_right _ _,
        max_le (hm a (List.mem_cons_self ..)) (hcall a (List.mem_cons_self ..))⟩
    · refine ih hL (fun b hb => hcall b (List.mem_cons_of_mem _ hb)) (fun b hb => ?_) x hx
      exact max_le (hm b (List.mem_cons_of_mem _ hb)) (not_lt.mp (ha b hb))

theorem exists_points (h : InOrder call ret L) (hcall : ∀ a ∈ L, call a ≤ ret a) :
    ∃ M : List (γ × τ), M.map Prod.fst = L ∧ (M.Pairwise fun x y => x.2 ≤ y.2) ∧
      ∀ x ∈ M, call x.1 ≤ x.2 ∧ x.2 ≤ ret x.1 := by
  cases L with
  | nil => exact ⟨[], rfl, .nil, by simp⟩
  | cons a L =>
    refine ⟨points call (call a) (a :: L), map_fst_points _ _, points_pairwise _ _,
      points_mem h hcall fun b hb => ?_⟩
    rcases List.mem_cons.mp hb with rfl | hb
    · exact hcall b (List.mem_cons_self ..)
    · exact not_lt.mp ((List.pairwise_cons.mp h).1 b hb)

/-- What is ordered by points in the intervals is in order. -/
theorem inOrder_of_points {M : List (γ × τ)} (h : M.Pairwise fun x y => x.2 ≤ y.2)
    (hmem : ∀ x ∈ M, call x.1 ≤ x.2 ∧ x.2 ≤ ret x.1) : InOrder call ret (M.map Prod.fst) := by
  refine List.pairwise_map.mpr (h.imp_of_mem fun {x y} hx hy hle => not_lt.mpr ?_)
  calc call x.1 ≤ x.2 := (hmem x hx).1
    _ ≤ y.2 := hle
    _ ≤ ret y.1 := (hmem y hy).2

/-- Orders of several groups have a common one. -/
theorem exists_merge {Ls : List (List γ)} (h : ∀ L ∈ Ls, InOrder call ret L)
    (hcall : ∀ L ∈ Ls, ∀ a ∈ L, call a ≤ ret a) :
    ∃ M : List γ, M.Perm Ls.flatten ∧ InOrder call ret M ∧ ∀ L ∈ Ls, L.Sublist M := by
  have hpoints : ∀ L : {L // L ∈ Ls}, ∃ M : List (γ × τ), M.map Prod.fst = L ∧
      (M.Pairwise fun x y => x.2 ≤ y.2) ∧ ∀ x ∈ M, call x.1 ≤ x.2 ∧ x.2 ≤ ret x.1 :=
    fun L => exists_points (h L L.2) (hcall L L.2)
  choose f hfst hsorted hmem using hpoints
  set le : γ × τ → γ × τ → Bool := fun x y => decide (x.2 ≤ y.2)
  have htrans : ∀ x y z, le x y = true → le y z = true → le x z = true := by
    intro x y z hxy hyz
    exact decide_eq_true ((of_decide_eq_true hxy).trans (of_decide_eq_true hyz))
  have htotal : ∀ x y, (le x y || le y x) = true := by
    intro x y
    simpa [le] using le_total x.2 y.2
  have hflat : ((Ls.attach.map f).flatten).map Prod.fst = Ls.flatten := by
    rw [List.map_flatten, List.map_map]
    have : (fun M => List.map Prod.fst M) ∘ f = Subtype.val := funext hfst
    rw [this, List.attach_map_subtype_val]
  refine ⟨((Ls.attach.map f).flatten.mergeSort le).map Prod.fst, ?_, ?_, fun L hL => ?_⟩
  · rw [← hflat]
    exact (List.mergeSort_perm _ _).map _
  · refine inOrder_of_points ?_ fun x hx => ?_
    · exact (List.pairwise_mergeSort htrans htotal _).imp fun hle => of_decide_eq_true hle
    · obtain ⟨M, hM, hx⟩ := List.mem_flatten.mp ((List.mergeSort_perm _ _).mem_iff.mp hx)
      obtain ⟨L, -, rfl⟩ := List.mem_map.mp hM
      exact hmem L x hx
  · -- the sort is stable
    have hsub : (f ⟨L, hL⟩).Sublist ((Ls.attach.map f).flatten.mergeSort le) := by
      refine List.sublist_mergeSort htrans htotal ((hsorted _).imp fun hle => decide_eq_true hle) ?_
      exact List.sublist_flatten_of_mem (List.mem_map_of_mem (List.mem_attach _ _))
    have := hsub.map Prod.fst
    rwa [hfst] at this

end DistLabs.Intervals
