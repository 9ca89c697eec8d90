import Mathlib.Data.Fintype.Card
import Mathlib.Tactic

/-! # Majorities

    A set of more than half of the members. Two of them share a member, which is what every
    agreement argument rests on. -/

namespace DistLabs

variable {ι : Type*} [Fintype ι]

/-- More than half of all members. -/
def Majority (A : Finset ι) : Prop := Fintype.card ι / 2 < A.card

/-- Two majorities share a member. -/
theorem Majority.exists_common {A B : Finset ι} (hA : Majority A) (hB : Majority B) :
    ∃ x ∈ A, x ∈ B := by
  classical
  have hcard : (Finset.univ : Finset ι).card < A.card + B.card := by
    rw [Finset.card_univ]
    unfold Majority at hA hB
    omega
  obtain ⟨x, hx⟩ := Finset.inter_nonempty_of_card_lt_card_add_card (Finset.subset_univ A)
    (Finset.subset_univ B) hcard
  exact ⟨x, (Finset.mem_inter.mp hx).1, (Finset.mem_inter.mp hx).2⟩

end DistLabs
