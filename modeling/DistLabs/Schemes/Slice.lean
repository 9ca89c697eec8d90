import Mathlib.Tactic

/-! # Slices with signed indices

    A Go slice is a list read through signed indices. Every access that Go would stop with an
    index-out-of-range panic is `none` here, so a program that indexes a slice becomes a function
    into `Option` and "it never panics" is "it never returns `none`". -/

namespace DistLabs.Slice

variable {α : Type*}

/-- `s[i]`. -/
def index (s : List α) (i : ℤ) : Option α := if 0 ≤ i then s[i.toNat]? else none

/-- `s[i:]`. -/
def dropFrom (s : List α) (i : ℤ) : Option (List α) :=
  if 0 ≤ i ∧ i ≤ s.length then some (s.drop i.toNat) else none

/-- `s[:i]`, for the bounds up to the length of `s`. -/
def takeTo (s : List α) (i : ℤ) : Option (List α) :=
  if 0 ≤ i ∧ i ≤ s.length then some (s.take i.toNat) else none

/-- `s[0] = f(s[0])`. -/
def modifyHead (f : α → α) : List α → Option (List α)
  | [] => none
  | a :: s => some (f a :: s)

theorem index_natCast (s : List α) (k : ℕ) : index s (k : ℤ) = s[k]? := by
  simp [index]

theorem index_eq_some {s : List α} {i : ℤ} {a : α} :
    index s i = some a ↔ 0 ≤ i ∧ s[i.toNat]? = some a := by
  unfold index; split <;> simp_all

theorem index_isSome {s : List α} {i : ℤ} (h0 : 0 ≤ i) (h : i < s.length) :
    ∃ a, index s i = some a := by
  have hlt : i.toNat < s.length := by omega
  exact ⟨s.get ⟨i.toNat, hlt⟩, index_eq_some.mpr ⟨h0, List.getElem?_eq_getElem hlt⟩⟩

theorem dropFrom_eq_some {s t : List α} {i : ℤ} :
    dropFrom s i = some t ↔ 0 ≤ i ∧ i ≤ s.length ∧ t = s.drop i.toNat := by
  unfold dropFrom; split <;> simp_all [eq_comm]

theorem modifyHead_eq_some {f : α → α} {s t : List α} :
    modifyHead f s = some t ↔ ∃ a r, s = a :: r ∧ t = f a :: r := by
  cases s <;> simp [modifyHead, eq_comm]

theorem getElem?_concat_eq_some {l : List α} {a b : α} {i : ℕ} (h : (l ++ [a])[i]? = some b) :
    l[i]? = some b ∨ i = l.length ∧ b = a := by
  rcases Nat.lt_trichotomy i l.length with hi | rfl | hi
  · rw [List.getElem?_append_left hi] at h
    exact .inl h
  · rw [List.getElem?_concat_length] at h
    exact .inr ⟨rfl, (Option.some.inj h).symm⟩
  · rw [List.getElem?_eq_none (by simpa using hi)] at h
    cases h

/-! ### Writing an element in place -/

section Modify

variable {β : Type*} {f : α → α} {p : α → Bool} {g : α → β}

theorem countP_modify_of_eq {l : List α} {i : ℕ} (h : ∀ a, l[i]? = some a → p (f a) = p a) :
    (l.modify i f).countP p = l.countP p := by
  induction l generalizing i with
  | nil => simp
  | cons b l ih =>
    cases i with
    | zero => simp [List.countP_cons, h b (by simp)]
    | succ i => simp [List.countP_cons, ih fun a ha => h a (by simpa using ha)]

theorem countP_modify_succ {l : List α} {i : ℕ} {a : α} (ha : l[i]? = some a) (hp : p a = false)
    (hf : p (f a) = true) : (l.modify i f).countP p = l.countP p + 1 := by
  induction l generalizing i with
  | nil => simp at ha
  | cons b l ih =>
    cases i with
    | zero =>
      obtain rfl : b = a := by simpa using ha
      simp [hp, hf]
    | succ i =>
      have := ih (i := i) (by simpa using ha)
      simp only [List.modify_succ_cons, List.countP_cons]
      omega

theorem sum_map_modify_lt {w : α → ℕ} {l : List α} {i : ℕ} {a : α} (ha : l[i]? = some a)
    (hlt : w (f a) < w a) : ((l.modify i f).map w).sum < (l.map w).sum := by
  induction l generalizing i with
  | nil => simp at ha
  | cons d l ih =>
    cases i with
    | zero =>
      obtain rfl : d = a := by simpa using ha
      simpa using hlt
    | succ i =>
      have := ih (i := i) (by simpa using ha)
      simp only [List.modify_succ_cons, List.map_cons, List.sum_cons]
      omega

/-- One element for another in a count. -/
theorem countP_set_add {l : List α} {i : ℕ} {a b : α} (ha : l[i]? = some a) :
    (l.set i b).countP p + (p a).toNat = l.countP p + (p b).toNat := by
  induction l generalizing i with
  | nil => simp at ha
  | cons d l ih =>
    cases i with
    | zero =>
      obtain rfl : d = a := by simpa using ha
      cases hd : p d <;> cases hb : p b <;> simp [hd, hb]
    | succ i =>
      have := ih (i := i) (by simpa using ha)
      simp only [List.set_cons_succ, List.countP_cons]
      omega

theorem map_modify_of_eq {l : List α} {i : ℕ} (h : ∀ a, l[i]? = some a → g (f a) = g a) :
    (l.modify i f).map g = l.map g := by
  induction l generalizing i with
  | nil => simp
  | cons b l ih =>
    cases i with
    | zero => simp [h b (by simp)]
    | succ i => simp [ih fun a ha => h a (by simpa using ha)]

end Modify

end DistLabs.Slice
