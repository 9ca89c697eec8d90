import Mathlib.Tactic

/-! # Doubly linked lists

    The links of a doubly linked list are two maps from nodes to nodes; `none` is the nil pointer,
    and writing through it is an error. Taking a node out of a list changes its neighbours and
    leaves the links of the node itself, which is why it can be put back: as long as the list is
    otherwise as it was, `relink` undoes `unlink`. -/

namespace DistLabs

@[ext] structure Links (ι : Type*) where
  next : ι → Option ι
  prev : ι → Option ι

namespace Links

variable {ι : Type*}

/-- No node points anywhere. -/
def empty : Links ι := ⟨fun _ => none, fun _ => none⟩

section Operations

variable [DecidableEq ι]

/-- `p.next = q`. -/
def setNext (l : Links ι) (p q : Option ι) : Option (Links ι) :=
  p.map fun x => { l with next := Function.update l.next x q }

/-- `p.prev = q`. -/
def setPrev (l : Links ι) (p q : Option ι) : Option (Links ι) :=
  p.map fun x => { l with prev := Function.update l.prev x q }

/-- Take `x` out of the list it is in. -/
def unlink (l : Links ι) (x : ι) : Option (Links ι) := do
  let l ← l.setNext (l.prev x) (l.next x)
  match l.next x with
  | none => some l
  | some y => l.setPrev (some y) (l.prev x)

/-- Put `x` back where its own links say. -/
def relink (l : Links ι) (x : ι) : Option (Links ι) := do
  let l ← l.setNext (l.prev x) (some x)
  match l.next x with
  | none => some l
  | some y => l.setPrev (some y) (some x)

end Operations

/-- The nodes of `L` are linked in this order, up to the end of the list. -/
def Linked (l : Links ι) : List ι → Prop
  | [] => True
  | x :: L => l.next x = L.head? ∧ (∀ y ∈ L.head?, l.prev y = some x) ∧ Linked l L

variable {l l' : Links ι} {x p : ι} {A B L : List ι}

theorem Linked.of_append (h : l.Linked (A ++ B)) : l.Linked B := by
  induction A with
  | nil => exact h
  | cons a A ih => exact ih h.2.2

theorem Linked.next_eq (h : l.Linked (A ++ x :: B)) : l.next x = B.head? := h.of_append.1

theorem Linked.prev_eq (h : l.Linked (A ++ p :: x :: B)) : l.prev x = some p :=
  h.of_append.2.1 x rfl

/-- The links matter only at the nodes of the list, the link back of the first one not at all. -/
theorem Linked.congr (h : l.Linked L) (hnext : ∀ x ∈ L, l'.next x = l.next x)
    (hprev : ∀ x ∈ L.tail, l'.prev x = l.prev x) : l'.Linked L := by
  induction L with
  | nil => trivial
  | cons x L ih =>
    obtain ⟨h1, h2, h3⟩ := h
    refine ⟨(hnext x (List.mem_cons_self ..)).trans h1, fun y hy => ?_, ?_⟩
    · rw [hprev y (List.mem_of_mem_head? hy)]
      exact h2 y hy
    · refine ih h3 (fun y hy => hnext y (List.mem_cons_of_mem _ hy)) fun y hy => ?_
      exact hprev y (List.mem_of_mem_tail hy)

variable [DecidableEq ι]

/-- The links without `x`, which is between `p` and the start of `B`. -/
def bypass (l : Links ι) (p : ι) (B : List ι) : Links ι where
  next := Function.update l.next p B.head?
  prev := fun z => if z ∈ B.head? then some p else l.prev z

theorem bypass_next_of_ne {z : ι} (h : z ≠ p) (B : List ι) : (l.bypass p B).next z = l.next z :=
  Function.update_of_ne h ..

theorem bypass_prev_of_notMem {z : ι} (h : z ∉ B) : (l.bypass p B).prev z = l.prev z :=
  if_neg fun hz => h (List.mem_of_mem_head? hz)

theorem bypass_linked (h : l.Linked (A ++ p :: x :: B)) (hnodup : (A ++ p :: x :: B).Nodup) :
    (l.bypass p B).Linked (A ++ p :: B) := by
  induction A with
  | nil =>
    obtain ⟨-, -, -, -, hB⟩ := h
    have hp : p ∉ B := fun hp => (List.nodup_cons.mp hnodup).1 (List.mem_cons_of_mem _ hp)
    have hndB : B.Nodup := (hnodup.of_cons).of_cons
    refine ⟨by simp [bypass], fun y hy => if_pos hy, hB.congr (fun z hz => ?_) fun z hz => ?_⟩
    · exact bypass_next_of_ne (fun heq => hp (by rwa [heq] at hz)) B
    · refine if_neg fun hhead => ?_
      cases B with
      | nil => cases hz
      | cons b B =>
        obtain rfl : b = z := by simpa using hhead
        exact (List.nodup_cons.mp hndB).1 hz
  | cons a A ih =>
    obtain ⟨h1, h2, h3⟩ := h
    have ha : a ∉ A ++ p :: x :: B := (List.nodup_cons.mp hnodup).1
    have hhead : (A ++ p :: B).head? = (A ++ p :: x :: B).head? := by cases A <;> rfl
    have hap : a ≠ p := by
      rintro rfl
      exact ha (by simp)
    refine ⟨?_, fun y hy => ?_, ih h3 hnodup.of_cons⟩
    · exact (bypass_next_of_ne hap B).trans (h1.trans hhead.symm)
    · have hy : y ∈ (A ++ p :: x :: B).head? := hhead ▸ hy
      refine (bypass_prev_of_notMem fun hyB => ?_).trans (h2 y hy)
      -- `y` is in `A` or is `p`, so it is not in `B`
      have hnd : (A ++ p :: x :: B).Nodup := hnodup.of_cons
      cases A with
      | nil =>
        obtain rfl : p = y := by simpa using hy
        exact (List.nodup_cons.mp hnd).1 (List.mem_cons_of_mem _ hyB)
      | cons b A =>
        obtain rfl : b = y := by simpa using hy
        exact (List.nodup_cons.mp hnd).1 (by simp [hyB])

theorem unlink_eq_bypass (h : l.Linked (A ++ p :: x :: B)) (hne : p ≠ x) :
    l.unlink x = some (l.bypass p B) := by
  have hprev : l.prev x = some p := h.prev_eq
  have hnext : l.next x = B.head? := (h.of_append (B := p :: x :: B)).2.2.1
  have hx : Function.update l.next p B.head? x = B.head? := by
    rw [Function.update_of_ne hne.symm, hnext]
  rw [unlink, hprev, hnext, setNext, Option.map_some, Option.bind_eq_bind, Option.bind_some]
  simp only [hx]
  cases B with
  | nil => simp [bypass]
  | cons b B =>
    simp only [List.head?_cons, setPrev, Option.map_some, hprev, Option.some.injEq]
    refine Links.ext rfl (funext fun z => ?_)
    simp [bypass, Function.update_apply, eq_comm]

/-- `relink` undoes `unlink`. -/
theorem relink_bypass (h : l.Linked (A ++ p :: x :: B)) (hnodup : (A ++ p :: x :: B).Nodup) :
    (l.bypass p B).relink x = some l := by
  have hprev : l.prev x = some p := h.prev_eq
  have hnext : l.next x = B.head? := (h.of_append (B := p :: x :: B)).2.2.1
  have hnd : (p :: x :: B).Nodup := hnodup.of_append_right
  have hxB : x ∉ B := (List.nodup_cons.mp hnd.of_cons).1
  have hprev' : (l.bypass p B).prev x = some p := (bypass_prev_of_notMem hxB).trans hprev
  have hpnext : l.next p = some x := h.of_append.1
  -- the link of `p` is `x` again
  have hback : Function.update (l.bypass p B).next p (some x) = l.next := by
    rw [bypass, Function.update_idem, ← hpnext, Function.update_eq_self]
  rw [relink, hprev', setNext, Option.map_some, Option.bind_eq_bind, Option.bind_some]
  simp only [hback, hnext]
  cases B with
  | nil =>
    refine congrArg some (Links.ext rfl (funext fun z => ?_))
    simp [bypass]
  | cons b B =>
    have hprevb : l.prev b = some x := (h.of_append (B := p :: x :: b :: B)).2.2.2.1 b rfl
    simp only [List.head?_cons, setPrev, Option.map_some, Option.some.injEq]
    refine Links.ext rfl (funext fun z => ?_)
    by_cases hz : z = b
    · simp [hz, hprevb]
    · simp [bypass, hz, Ne.symm hz]

/-- Taking a node out of a list and putting it back. -/
theorem Linked.unlink (h : l.Linked (A ++ p :: x :: B)) (hnodup : (A ++ p :: x :: B).Nodup) :
    ∃ l', l.unlink x = some l' ∧ l'.Linked (A ++ p :: B) ∧ l'.relink x = some l := by
  refine ⟨_, unlink_eq_bypass h ?_, bypass_linked h hnodup, relink_bypass h hnodup⟩
  rintro rfl
  exact (List.nodup_cons.mp hnodup.of_append_right).1 (List.mem_cons_self ..)

end Links
end DistLabs
