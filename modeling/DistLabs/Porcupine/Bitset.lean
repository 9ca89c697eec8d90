import Mathlib.Tactic

/-! # Bitsets (`porcupine/bitset.go`)

    A set of small numbers as a list of 64-bit words. Writing a bit beyond the last word is an
    error. A bitset of the right length stands for the set of its bits, and two such bitsets are
    equal exactly when they stand for the same set. -/

namespace DistLabs.Porcupine

/-- Bits 0 to 63 are in the first word, the next ones in the second, and so on. -/
@[ext] structure Bitset where
  data : List (BitVec 64)
  deriving DecidableEq

namespace Bitset

def newBitset (bits : ℕ) : Bitset :=
  let extra := if bits % 64 ≠ 0 then 1 else 0
  ⟨List.replicate (bits / 64 + extra) 0#64⟩

def bitsetIndex (pos : ℕ) : ℕ × ℕ := (pos / 64, pos % 64)

/-- The word `1 << minor`. -/
def bit (minor : ℕ) : BitVec 64 := 1#64 <<< minor

/-- `b[major]` becomes `f(b[major])`. -/
def update (b : Bitset) (major : ℕ) (f : BitVec 64 → BitVec 64) : Option Bitset :=
  if major < b.data.length then some ⟨b.data.modify major f⟩ else none

def set (b : Bitset) (pos : ℕ) : Option Bitset :=
  let (major, minor) := bitsetIndex pos
  b.update major (· ||| bit minor)

def clear (b : Bitset) (pos : ℕ) : Option Bitset :=
  let (major, minor) := bitsetIndex pos
  b.update major (· &&& ~~~ bit minor)

def popcnt (b : Bitset) : ℕ := (b.data.map fun v => v.cpop.toNat).sum

def hash (b : Bitset) : BitVec 64 := b.data.foldl (· ^^^ ·) (BitVec.ofNat 64 b.popcnt)

def equals (b b2 : Bitset) : Bool :=
  if b.data.length ≠ b2.data.length then false
  else (b.data.zip b2.data).all fun p => p.1 == p.2

/-- Bit `pos`; there are no bits beyond the last word. -/
def test (b : Bitset) (pos : ℕ) : Bool := (b.data.getD (pos / 64) 0).getLsbD (pos % 64)

variable {b b' : Bitset} {pos : ℕ}

theorem getLsbD_bit {i j : ℕ} (hi : i < 64) : (bit i).getLsbD j = decide (j = i) := by
  rw [bit, BitVec.getLsbD_shiftLeft, BitVec.getLsbD_one]
  by_cases h : j = i
  · simp [h, hi]
  · rcases Nat.lt_or_ge j i with hlt | hge
    · simp [h, hlt]
    · have : j - i ≠ 0 := by omega
      simp [h, this]

theorem length_update {major : ℕ} {f : BitVec 64 → BitVec 64} (h : b.update major f = some b') :
    b'.data.length = b.data.length := by
  unfold update at h
  split at h
  · obtain rfl := Option.some.inj h
    exact List.length_modify ..
  · cases h

theorem test_update {major : ℕ} {f : BitVec 64 → BitVec 64} (h : b.update major f = some b')
    (i : ℕ) : b'.test i = if i / 64 = major then (f (b.data.getD major 0)).getLsbD (i % 64)
      else b.test i := by
  unfold update at h
  split at h
  · rename_i hlt
    obtain rfl := Option.some.inj h
    unfold test
    by_cases hi : i / 64 = major
    · simp [hi, List.getD_eq_getElem?_getD, List.getElem?_eq_getElem hlt]
    · simp [hi, List.getD_eq_getElem?_getD, Ne.symm hi]
  · cases h

theorem mod_eq_iff {i j : ℕ} (h : i / 64 = j / 64) : i % 64 = j % 64 ↔ i = j := by omega

theorem test_set (h : b.set pos = some b') (i : ℕ) :
    b'.test i = (decide (i = pos) || b.test i) := by
  rw [test_update h]
  split
  · rename_i hi
    rw [BitVec.getLsbD_or, getLsbD_bit (Nat.mod_lt _ (by decide)), Bool.or_comm, ← hi, test]
    rw [decide_eq_decide.mpr (mod_eq_iff hi)]
  · rename_i hi
    have : i ≠ pos := fun heq => hi (by rw [heq])
    simp [this]

theorem test_clear (h : b.clear pos = some b') (i : ℕ) :
    b'.test i = (decide (i ≠ pos) && b.test i) := by
  rw [test_update h]
  split
  · rename_i hi
    rw [BitVec.getLsbD_and, BitVec.getLsbD_not, getLsbD_bit (Nat.mod_lt _ (by decide)), ← hi, test]
    have hbit : decide (i % 64 = pos % 64) = decide (i = pos) :=
      decide_eq_decide.mpr (mod_eq_iff hi)
    rw [hbit]
    have hlt : i % 64 < 64 := Nat.mod_lt _ (by decide)
    simp [hlt, Bool.and_comm]
  · rename_i hi
    have : i ≠ pos := fun heq => hi (by rw [heq])
    simp [this]

theorem equals_iff : b.equals b' = true ↔ b = b' := by
  unfold equals
  constructor
  · intro h
    split at h
    · cases h
    · rename_i hlen
      refine Bitset.ext (List.ext_getElem (not_not.mp hlen) fun i h₁ h₂ => ?_)
      have hz : i < (b.data.zip b'.data).length := by rw [List.length_zip]; omega
      have := List.all_eq_true.mp h _ (List.getElem_mem hz)
      simpa using this
  · rintro rfl
    rw [if_neg (by simp), List.all_eq_true]
    intro p hp
    rw [List.zip_eq_zipWith, List.zipWith_self] at hp
    obtain ⟨v, -, rfl⟩ := List.mem_map.mp hp
    exact beq_self_eq_true v

/-! ### The set a bitset stands for -/

/-- `b` has room for the numbers below `n` and its bits are the elements of `X`. -/
structure Bits (n : ℕ) (b : Bitset) (X : List ℕ) : Prop where
  length : b.data.length = (newBitset n).data.length
  test : ∀ i, b.test i = decide (i ∈ X)

theorem lt_length_newBitset {n i : ℕ} (h : i < n) : i / 64 < (newBitset n).data.length := by
  simp only [newBitset, List.length_replicate]
  split <;> omega

theorem bits_newBitset (n : ℕ) : Bits n (newBitset n) [] where
  length := rfl
  test i := by
    simp only [Bitset.test, newBitset, List.getD_eq_getElem?_getD, List.getElem?_replicate]
    rw [apply_ite (Option.getD · _)]
    simp

theorem Bits.set {n i : ℕ} {X : List ℕ} (h : Bits n b X) (hi : i < n) :
    ∃ b', b.set i = some b' ∧ Bits n b' (X ++ [i]) := by
  have hlt : i / 64 < b.data.length := h.length ▸ lt_length_newBitset hi
  have hset : b.set i = some ⟨b.data.modify (i / 64) (· ||| bit (i % 64))⟩ := if_pos hlt
  refine ⟨_, hset, (length_update hset).trans h.length, fun j => ?_⟩
  rw [test_set hset, h.test]
  by_cases hj : j = i <;> simp [hj]

theorem Bits.clear {n i : ℕ} {X : List ℕ} (h : Bits n b (X ++ [i])) (hi : i < n) (hX : i ∉ X) :
    ∃ b', b.clear i = some b' ∧ Bits n b' X := by
  have hlt : i / 64 < b.data.length := h.length ▸ lt_length_newBitset hi
  have hclear : b.clear i = some ⟨b.data.modify (i / 64) (· &&& ~~~ bit (i % 64))⟩ := if_pos hlt
  refine ⟨_, hclear, (length_update hclear).trans h.length, fun j => ?_⟩
  rw [test_clear hclear, h.test]
  by_cases hj : j = i <;> simp [hj, hX]

/-- Equal bitsets are those of the same set. -/
theorem Bits.eq_iff {n : ℕ} {X X' : List ℕ} (h : Bits n b X) (h' : Bits n b' X') :
    b = b' ↔ ∀ i, i ∈ X ↔ i ∈ X' := by
  constructor
  · rintro rfl i
    have := (h.test i).symm.trans (h'.test i)
    simpa using this
  · intro hX
    have hlen : b.data.length = b'.data.length := h.length.trans h'.length.symm
    refine Bitset.ext (List.ext_getElem hlen fun k hk hk' => BitVec.eq_of_getLsbD_eq fun j hj => ?_)
    have htest : b.test (64 * k + j) = b'.test (64 * k + j) := by
      rw [h.test, h'.test, decide_eq_decide]
      exact hX _
    have hdiv : (64 * k + j) / 64 = k := by omega
    have hmod : (64 * k + j) % 64 = j := by omega
    simpa [Bitset.test, hdiv, hmod, List.getD_eq_getElem?_getD, List.getElem?_eq_getElem hk,
      List.getElem?_eq_getElem hk'] using htest

end Bitset
end DistLabs.Porcupine
