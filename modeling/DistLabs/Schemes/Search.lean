import Mathlib.Tactic

/-! # Depth-first search with a cache

    A node of a search tree has candidates, which are tried in order; a candidate may fail or lead
    to a child. The search keeps a stack of nodes with the candidates that are left, newest first,
    and enters no node that the cache knows already, where the cache may take different nodes for
    the same.

    When the search fails, the nodes it has left are closed: every child of one of them is taken for
    one of them. If taking two nodes for the same is harmless, no node of the tree is a goal. The
    search ends because the children of a node are smaller and its candidates few. -/

namespace DistLabs

/-- The candidates of a node, where they lead, what is looked for, and the test of the cache. -/
structure SearchTree (ν κ : Type*) where
  moves : ν → List κ
  child : ν → κ → Option ν
  Goal : ν → Prop
  Same : ν → ν → Prop

namespace SearchTree

variable {ν κ : Type*}

/-- The stack, the nodes entered so far and the nodes left again. -/
structure State (ν κ : Type*) where
  stack : List (ν × List κ)
  cache : List ν
  left : List ν

variable (t : SearchTree ν κ)

def start (root : ν) : State ν κ := ⟨[(root, t.moves root)], [], []⟩

/-- One step of the search, at a node that is no goal. -/
inductive Step : State ν κ → State ν κ → Prop
  | fail {v : ν} {c : κ} {cs : List κ} {stack : List (ν × List κ)} {cache left : List ν}
      (goal : ¬ t.Goal v) (child : t.child v c = none) :
      Step ⟨(v, c :: cs) :: stack, cache, left⟩ ⟨(v, cs) :: stack, cache, left⟩
  | skip {v w u : ν} {c : κ} {cs : List κ} {stack : List (ν × List κ)} {cache left : List ν}
      (goal : ¬ t.Goal v) (child : t.child v c = some w) (cached : u ∈ cache) (same : t.Same w u) :
      Step ⟨(v, c :: cs) :: stack, cache, left⟩ ⟨(v, cs) :: stack, cache, left⟩
  | enter {v w : ν} {c : κ} {cs : List κ} {stack : List (ν × List κ)} {cache left : List ν}
      (goal : ¬ t.Goal v) (child : t.child v c = some w) :
      Step ⟨(v, c :: cs) :: stack, cache, left⟩
        ⟨(w, t.moves w) :: (v, cs) :: stack, w :: cache, left⟩
  | leave {v : ν} {f : ν × List κ} {stack : List (ν × List κ)} {cache left : List ν}
      (goal : ¬ t.Goal v) :
      Step ⟨(v, []) :: f :: stack, cache, left⟩ ⟨f :: stack, cache, v :: left⟩

/-- A node of the tree below `root`. -/
inductive Below (root : ν) : ν → Prop
  | refl : Below root root
  | tail {v w : ν} {c : κ} : Below root v → c ∈ t.moves v → t.child v c = some w → Below root w

/-- The nodes that the search has entered. -/
def State.entered (s : State ν κ) : List ν := s.stack.map Prod.fst ++ s.left

/-- The node is taken for one of the nodes of `l`. -/
def Known (l : List ν) (w : ν) : Prop := ∃ u ∈ l, w = u ∨ t.Same w u

variable {t} {root v w : ν} {s s' : State ν κ}

theorem Known.mono {l l' : List ν} (h : t.Known l w) (hsub : ∀ u ∈ l, u ∈ l') : t.Known l' w := by
  obtain ⟨u, hu, heq⟩ := h
  exact ⟨u, hsub u hu, heq⟩

/-- What the search has behind it: the candidates that are no longer to be tried have failed or lead
    to nodes that are known. -/
structure Inv (t : SearchTree ν κ) (root : ν) (s : State ν κ) : Prop where
  bottom : ∃ cs, s.stack.getLast? = some (root, cs)
  below : ∀ v ∈ s.entered, t.Below root v
  todo : ∀ f ∈ s.stack, ∀ c ∈ f.2, c ∈ t.moves f.1
  cached : ∀ u ∈ s.cache, u ∈ s.entered
  tried : ∀ f ∈ s.stack, ∀ c ∈ t.moves f.1, c ∈ f.2 ∨
    ∀ w, t.child f.1 c = some w → t.Known s.entered w
  closed : ∀ v ∈ s.left, ¬ t.Goal v ∧ ∀ c ∈ t.moves v, ∀ w, t.child v c = some w →
    t.Known s.entered w

theorem inv_start (t : SearchTree ν κ) (root : ν) : t.Inv root (t.start root) where
  bottom := ⟨_, rfl⟩
  below := by
    intro v hv
    obtain rfl : v = root := by simpa [State.entered, start] using hv
    exact .refl
  todo := by
    intro f hf c hc
    obtain rfl := List.mem_singleton.mp hf
    exact hc
  cached := by simp [start]
  tried := by
    intro f hf c hc
    obtain rfl := List.mem_singleton.mp hf
    exact .inl hc
  closed := by simp [start]

/-- The top node goes on to its next candidate: the one before has failed or its child is known. -/
theorem Inv.next {c : κ} {cs : List κ} {stack : List (ν × List κ)} {cache left : List ν}
    (h : t.Inv root ⟨(v, c :: cs) :: stack, cache, left⟩)
    (hc : ∀ w, t.child v c = some w → t.Known (v :: (stack.map Prod.fst ++ left)) w) :
    t.Inv root ⟨(v, cs) :: stack, cache, left⟩ := by
  obtain ⟨⟨ds, hbottom⟩, hbelow, htodo, hcached, htried, hclosed⟩ := h
  refine ⟨?_, hbelow, ?_, hcached, ?_, hclosed⟩
  · cases stack with
    | nil =>
      simp only [List.getLast?_singleton, Option.some.injEq, Prod.mk.injEq] at hbottom
      exact ⟨cs, by simp [hbottom.1]⟩
    | cons f stack => exact ⟨ds, by simpa using hbottom⟩
  · intro f hf d hd
    rcases List.mem_cons.mp hf with rfl | hf
    · exact htodo _ (List.mem_cons_self ..) d (List.mem_cons_of_mem _ hd)
    · exact htodo f (List.mem_cons_of_mem _ hf) d hd
  · intro f hf d hd
    rcases List.mem_cons.mp hf with rfl | hf
    · rcases htried _ (List.mem_cons_self ..) d hd with hin | hknown
      · rcases List.mem_cons.mp hin with rfl | hin
        · exact .inr hc
        · exact .inl hin
      · exact .inr hknown
    · exact htried f (List.mem_cons_of_mem _ hf) d hd

theorem Inv.enter {c : κ} {cs : List κ} {stack : List (ν × List κ)} {cache left : List ν}
    (h : t.Inv root ⟨(v, c :: cs) :: stack, cache, left⟩) (hchild : t.child v c = some w) :
    t.Inv root ⟨(w, t.moves w) :: (v, cs) :: stack, w :: cache, left⟩ := by
  have hv : t.Below root v := h.below v (List.mem_cons_self ..)
  have hc : c ∈ t.moves v := h.todo _ (List.mem_cons_self ..) c (List.mem_cons_self ..)
  -- more nodes have been entered than before
  have hmono : ∀ {x}, t.Known (v :: (stack.map Prod.fst ++ left)) x →
      t.Known (w :: v :: (stack.map Prod.fst ++ left)) x :=
    fun hx => hx.mono fun u hu => List.mem_cons_of_mem _ hu
  obtain ⟨⟨ds, hbottom⟩, hbelow, htodo, hcached, htried, hclosed⟩ := h
  refine ⟨?_, ?_, ?_, ?_, ?_, fun x hx => ⟨(hclosed x hx).1, fun d hd y hy =>
    hmono ((hclosed x hx).2 d hd y hy)⟩⟩
  · cases stack with
    | nil =>
      simp only [List.getLast?_singleton, Option.some.injEq, Prod.mk.injEq] at hbottom
      exact ⟨cs, by simp [hbottom.1]⟩
    | cons f stack => exact ⟨ds, by simpa using hbottom⟩
  · intro x hx
    rcases List.mem_cons.mp hx with rfl | hx
    · exact hv.tail hc hchild
    · exact hbelow x hx
  · intro f hf d hd
    rcases List.mem_cons.mp hf with rfl | hf
    · exact hd
    · rcases List.mem_cons.mp hf with rfl | hf
      · exact htodo _ (List.mem_cons_self ..) d (List.mem_cons_of_mem _ hd)
      · exact htodo f (List.mem_cons_of_mem _ hf) d hd
  · intro u hu
    rcases List.mem_cons.mp hu with rfl | hu
    · exact List.mem_cons_self ..
    · exact List.mem_cons_of_mem _ (hcached u hu)
  · intro f hf d hd
    rcases List.mem_cons.mp hf with rfl | hf
    · exact .inl hd
    · rcases List.mem_cons.mp hf with rfl | hf
      · rcases htried _ (List.mem_cons_self ..) d hd with hin | hknown
        · rcases List.mem_cons.mp hin with rfl | hin
          · refine .inr fun x hx => ⟨w, List.mem_cons_self .., .inl ?_⟩
            exact Option.some.inj (hx.symm.trans hchild)
          · exact .inl hin
        · exact .inr fun x hx => hmono (hknown x hx)
      · exact (htried f (List.mem_cons_of_mem _ hf) d hd).imp_right fun hknown x hx =>
          hmono (hknown x hx)

theorem Inv.leave {f : ν × List κ} {stack : List (ν × List κ)} {cache left : List ν}
    (h : t.Inv root ⟨(v, []) :: f :: stack, cache, left⟩) (hgoal : ¬ t.Goal v) :
    t.Inv root ⟨f :: stack, cache, v :: left⟩ := by
  -- the same nodes have been entered
  have hsub : ∀ u, u ∈ State.entered ⟨(v, []) :: f :: stack, cache, left⟩ →
      u ∈ State.entered ⟨f :: stack, cache, v :: left⟩ := by
    intro u hu
    simp only [State.entered, List.map_cons, List.cons_append, List.mem_cons, List.mem_append]
      at hu ⊢
    tauto
  have hsub' : ∀ u, u ∈ State.entered ⟨f :: stack, cache, v :: left⟩ →
      u ∈ State.entered ⟨(v, []) :: f :: stack, cache, left⟩ := by
    intro u hu
    simp only [State.entered, List.map_cons, List.cons_append, List.mem_cons, List.mem_append]
      at hu ⊢
    tauto
  obtain ⟨⟨ds, hbottom⟩, hbelow, htodo, hcached, htried, hclosed⟩ := h
  refine ⟨⟨ds, by simpa using hbottom⟩, fun x hx => hbelow x (hsub' x hx), fun g hg =>
    htodo g (List.mem_cons_of_mem _ hg), fun u hu => hsub u (hcached u hu), fun g hg d hd =>
    (htried g (List.mem_cons_of_mem _ hg) d hd).imp_right fun hknown x hx =>
      (hknown x hx).mono hsub, fun x hx => ?_⟩
  rcases List.mem_cons.mp hx with rfl | hx
  · refine ⟨hgoal, fun d hd y hy => ?_⟩
    rcases htried _ (List.mem_cons_self ..) d hd with hin | hknown
    · cases hin
    · exact (hknown y hy).mono hsub
  · exact ⟨(hclosed x hx).1, fun d hd y hy => ((hclosed x hx).2 d hd y hy).mono hsub⟩

theorem Inv.step (h : t.Inv root s) (hstep : t.Step s s') : t.Inv root s' := by
  cases hstep with
  | fail goal child => exact h.next fun w hw => by rw [child] at hw; cases hw
  | @skip v w u c cs stack cache left goal child cached same =>
    refine h.next fun x hx => ⟨u, h.cached u cached, .inr ?_⟩
    rwa [← Option.some.inj (hx.symm.trans child)] at same
  | enter goal child => exact h.enter child
  | leave goal => exact h.leave goal

/-! ### What a failed search shows -/

/-- The search has no candidate left at the root: the nodes it has entered are closed. -/
theorem Inv.closed_of_failed {cache left : List ν} (h : t.Inv root ⟨[(v, [])], cache, left⟩)
    (hgoal : ¬ t.Goal v) : v = root ∧ ∀ x ∈ v :: left, ¬ t.Goal x ∧ ∀ c ∈ t.moves x, ∀ w,
      t.child x c = some w → t.Known (v :: left) w := by
  obtain ⟨⟨ds, hbottom⟩, -, -, -, htried, hclosed⟩ := h
  simp only [List.getLast?_singleton, Option.some.injEq, Prod.mk.injEq] at hbottom
  refine ⟨hbottom.1, fun x hx => ?_⟩
  rcases List.mem_cons.mp hx with rfl | hx
  · refine ⟨hgoal, fun c hc w hw => ?_⟩
    rcases htried _ (List.mem_cons_self ..) c hc with hin | hknown
    · cases hin
    · exact hknown w hw
  · exact hclosed x hx

/-- Nodes that have the same children, up to nodes that have the same children. -/
structure Simulates (t : SearchTree ν κ) (R : ν → ν → Prop) : Prop where
  refl : ∀ v, R v v
  trans : ∀ {u v w}, R u v → R v w → R u w
  same : ∀ {v w}, t.Same v w → R v w
  child : ∀ {v w c v'}, R v w → c ∈ t.moves v → t.child v c = some v' →
    ∃ c' ∈ t.moves w, ∃ w', t.child w c' = some w' ∧ R v' w'

/-- A closed set of nodes that has the root has a like of every node of the tree. -/
theorem Simulates.covers {R : ν → ν → Prop} (hR : t.Simulates R) {l : List ν} (hroot : root ∈ l)
    (hclosed : ∀ x ∈ l, ∀ c ∈ t.moves x, ∀ w, t.child x c = some w → t.Known l w)
    (h : t.Below root v) : ∃ u ∈ l, R v u := by
  induction h with
  | refl => exact ⟨root, hroot, hR.refl root⟩
  | tail _ hc hchild ih =>
    obtain ⟨u, hu, hsim⟩ := ih
    obtain ⟨c', hc', w', hw', hsim'⟩ := hR.child hsim hc hchild
    obtain ⟨x, hx, heq⟩ := hclosed u hu c' hc' w' hw'
    refine ⟨x, hx, hR.trans hsim' ?_⟩
    rcases heq with rfl | hsame
    · exact hR.refl _
    · exact hR.same hsame

/-! ### The search ends -/

/-- A bound for the number of steps below a node of size less than the argument, for nodes with at
    most `b` candidates. -/
def weight (b : ℕ) : ℕ → ℕ
  | 0 => 0
  | m + 1 => 1 + b * (1 + weight b m)

theorem weight_mono (b : ℕ) : Monotone (weight b) := by
  refine monotone_nat_of_le_succ fun m => ?_
  induction m with
  | zero => exact Nat.zero_le _
  | succ m ih => exact Nat.add_le_add_left (Nat.mul_le_mul_left _ (Nat.add_le_add_left ih 1)) 1

/-- The steps a frame may still need, at most. -/
def pot (b : ℕ) (size : ν → ℕ) (f : ν × List κ) : ℕ := 1 + f.2.length * (1 + weight b (size f.1))

def State.potential (b : ℕ) (size : ν → ℕ) (s : State ν κ) : ℕ := (s.stack.map (pot b size)).sum

theorem Inv.potential_lt {b : ℕ} {size : ν → ℕ} (hinv : t.Inv root s)
    (hsize : ∀ v, ∀ c ∈ t.moves v, ∀ w, t.child v c = some w → size w < size v)
    (hb : ∀ v, (t.moves v).length ≤ b) (h : t.Step s s') :
    s'.potential b size < s.potential b size := by
  have hnext : ∀ (v : ν) (c : κ) (cs : List κ),
      pot b size (v, cs) + weight b (size v) + 1 = pot b size (v, c :: cs) := by
    intro v c cs
    simp only [pot, List.length_cons]
    ring
  cases h with
  | @fail v c cs =>
    simp only [State.potential, List.map_cons, List.sum_cons]
    have := hnext v c cs
    omega
  | @skip v w u c cs =>
    simp only [State.potential, List.map_cons, List.sum_cons]
    have := hnext v c cs
    omega
  | @enter v w c cs stack cache left goal child =>
    have hc : c ∈ t.moves v := hinv.todo _ (List.mem_cons_self ..) c (List.mem_cons_self ..)
    have hw : pot b size (w, t.moves w) ≤ weight b (size v) := calc
      pot b size (w, t.moves w) ≤ 1 + b * (1 + weight b (size w)) :=
        Nat.add_le_add_left (Nat.mul_le_mul_right _ (hb w)) 1
      _ = weight b (size w + 1) := rfl
      _ ≤ weight b (size v) := weight_mono b (hsize v c hc w child)
    simp only [State.potential, List.map_cons, List.sum_cons]
    have := hnext v c cs
    omega
  | leave =>
    simp only [State.potential, List.map_cons, List.sum_cons, pot]
    omega

end SearchTree
end DistLabs
