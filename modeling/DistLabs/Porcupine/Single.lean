import DistLabs.Porcupine.Nodes

/-! # The loop of `checkSingle` is a depth-first search

    The loop goes through the search tree of the linearizable prefixes: the calls that are taken out
    are the path to the current node, the cursor stands at its next candidate, and the nodes further
    up can be found again because `unlift` brings back the memory they were left with. So the loop
    never fails, ends, and returns whether the history is linearizable. The sequences in `longest`
    are linearizable prefixes, and the longest ones if the search is over. -/

namespace DistLabs.Porcupine

open SearchTree (State Step Inv Below)

variable {σ α β : Type} [DecidableEq σ] {model : Model σ α β} {t : Timeline α β}
  {H : List (Entry α β)} {computePartial kill : Bool} {s s' : Loop σ α β}

/-! ### The longest prefixes -/

/-- Operations as they stand in a sequence. -/
def ids (P : List ℕ) : List ℤ := P.map Nat.cast

theorem length_ids (P : List ℕ) : (ids P).length = P.length := List.length_map ..

/-- The sequence that is kept for an operation of `seq`. -/
def better (seq : List ℤ) : Option (List ℤ) → Option (List ℤ)
  | none => some seq
  | some old => if seq.length > old.length then some seq else some old

theorem better_eq (seq : List ℤ) (old : Option (List ℤ)) : ∃ new, better seq old = some new ∧
    seq.length ≤ new.length ∧ (∀ o ∈ old, o.length ≤ new.length) ∧
      (new = seq ∨ old = some new) := by
  cases old with
  | none => exact ⟨seq, rfl, le_rfl, by simp, .inl rfl⟩
  | some o =>
    by_cases h : seq.length > o.length
    · exact ⟨seq, if_pos h, le_rfl, by simpa using h.le, .inl rfl⟩
    · exact ⟨o, if_neg h, not_lt.mp h, by simp, .inr rfl⟩

theorem recordSeq_eq {seq : List ℤ} {l : List (Option (List ℤ))} {i : ℕ} {old : Option (List ℤ)}
    (h : l[i]? = some old) : recordSeq seq.length seq l i = some (l.set i (better seq old)) := by
  rw [recordSeq, Slice.index_natCast, h]
  cases old with
  | none => simp [better]
  | some o =>
    -- a sequence that is kept is written again
    have hself : l.set i (some o) = l := by
      obtain ⟨hi, hl⟩ := List.getElem?_eq_some_iff.mp h
      rw [← hl, List.set_getElem_self]
    by_cases hlt : seq.length > o.length
    · simp [better, hlt]
    · simp [better, hlt, hself]

/-- The loop that records a sequence after it has seen the operations `X`. -/
theorem foldlM_recordSeq (seq : List ℤ) (X : List ℕ) : ∀ l : List (Option (List ℤ)),
    (∀ i ∈ X, i < l.length) → X.Nodup →
      ∃ l', (ids X).foldlM (recordSeq seq.length seq) l = some l' ∧ l'.length = l.length ∧
        ∀ i, l'[i]? = if i ∈ X then (l[i]?).map (better seq) else l[i]? := by
  induction X with
  | nil => exact fun l _ _ => ⟨l, rfl, rfl, by simp⟩
  | cons j X ih =>
    intro l hlt hnodup
    obtain ⟨hjX, hX⟩ := List.nodup_cons.mp hnodup
    have hj : j < l.length := hlt j (List.mem_cons_self ..)
    obtain ⟨l', hl', hlen, hget⟩ := ih (l.set j (better seq l[j])) (fun i hi => by
      rw [List.length_set]
      exact hlt i (List.mem_cons_of_mem _ hi)) hX
    refine ⟨l', ?_, hlen.trans (List.length_set ..), fun i => ?_⟩
    · rw [ids, List.map_cons, List.foldlM_cons, recordSeq_eq (List.getElem?_eq_getElem hj)]
      exact hl'
    · rw [hget]
      by_cases hij : i = j
      · subst hij
        simp [hjX, hj]
      · simp [hij, Ne.symm hij]

/-- The kept sequences are those of nodes that have been left, and none of those is longer. -/
structure Longest (n : ℕ) (longest : List (Option (List ℤ))) (left : List (Tried σ)) : Prop where
  length : longest.length = n
  sound : ∀ i seq, longest[i]? = some (some seq) → ∃ u ∈ left, i ∈ u.path ∧ seq = ids u.path
  covers : ∀ u ∈ left, ∀ i ∈ u.path, ∃ seq, longest[i]? = some (some seq) ∧
    u.path.length ≤ seq.length

omit [DecidableEq σ] in
theorem longest_replicate (n : ℕ) : Longest n (List.replicate n none) ([] : List (Tried σ)) where
  length := List.length_replicate
  sound i seq h := by
    rw [List.getElem?_replicate] at h
    split at h <;> cases h
  covers := by simp

omit [DecidableEq σ] in
theorem Longest.record {v : Tried σ} {n : ℕ} {left : List (Tried σ)}
    (h : Longest n s.longest left) (hseq : s.seq = ids v.path)
    (hlt : ∀ i ∈ v.path, i < n) (hnodup : v.path.Nodup) :
    ∃ longest, recordLongest s = some longest ∧ Longest n longest (v :: left) := by
  have hcalls : s.calls.length = s.seq.length := (List.length_map ..).symm
  obtain ⟨l, hl, hlen, hget⟩ := foldlM_recordSeq s.seq v.path s.longest
    (fun i hi => h.length ▸ hlt i hi) hnodup
  refine ⟨l, ?_, hlen.trans h.length, ?_, ?_⟩
  · rw [recordLongest, hcalls, ← hl, ← hseq]
  · intro i seq hi
    rw [hget] at hi
    split at hi
    · rename_i hiv
      obtain ⟨old, hold, hbetter⟩ := Option.map_eq_some_iff.mp hi
      obtain ⟨new, hnew, -, -, hwhich⟩ := better_eq s.seq old
      obtain rfl : new = seq := Option.some.inj (hnew.symm.trans hbetter)
      rcases hwhich with rfl | rfl
      · exact ⟨v, List.mem_cons_self .., hiv, hseq⟩
      · obtain ⟨u, hu, hiu, heq⟩ := h.sound i new hold
        exact ⟨u, List.mem_cons_of_mem _ hu, hiu, heq⟩
    · obtain ⟨u, hu, hiu, heq⟩ := h.sound i seq hi
      exact ⟨u, List.mem_cons_of_mem _ hu, hiu, heq⟩
  · intro u hu i hi
    rw [hget]
    split
    · rename_i hiv
      have hil : i < s.longest.length := h.length ▸ hlt i hiv
      obtain ⟨new, hnew, hge, hold, -⟩ := better_eq s.seq s.longest[i]
      refine ⟨new, by rw [List.getElem?_eq_getElem hil, Option.map_some, hnew], ?_⟩
      rcases List.mem_cons.mp hu with rfl | hu
      · rwa [hseq, length_ids] at hge
      · obtain ⟨seq, hseq', hle⟩ := h.covers u hu i hi
        rw [List.getElem?_eq_getElem hil] at hseq'
        exact hle.trans (hold seq (Option.some.inj hseq'))
    · rename_i hiv
      rcases List.mem_cons.mp hu with rfl | hu
      · exact absurd hi hiv
      · exact h.covers u hu i hi

/-! ### The loop and the search -/

/-- The nodes above the current one: each has been left with the memory that `unlift` brings back,
    and goes on behind the call that has been taken out. -/
inductive Frames (model : Model σ α β) (t : Timeline α β) (H : List (Entry α β)) :
    Heap α β → Tried σ → List (ℕ × σ) → List (Tried σ × List (Entry α β × ℕ)) → Prop
  | root {h : Heap α β} : Frames model t H h (root model) [] []
  | call {h h₀ : Heap α β} {v v₀ : Tried σ} {calls : List (ℕ × σ)}
      {lower : List (Tried σ × List (Entry α β × ℕ))} {A B : List (Entry α β × ℕ)}
      {e : Entry α β × ℕ} (frames : Frames model t H h₀ v₀ calls lower)
      (memory : Memory t H h₀ v₀.path) (seq : calls.map (fun c => h₀.id c.1) = ids v₀.path)
      (path : v.path = v₀.path ++ [e.1.id])
      (split : remaining H v₀.path = A ++ e :: B)
      (before : ∀ a ∈ A ++ [e], a.1.kind = .callEntry)
      (unlift : unlift h (node H e.2) = some h₀) :
      Frames model t H h v (calls ++ [(node H e.2, v₀.state)]) ((v₀, candidates B) :: lower)

/-- The loop is at node `v`, has tried the candidates `A` and goes on with `rest`. -/
structure At (model : Model σ α β) (t : Timeline α β) (H : List (Entry α β)) (s : Loop σ α β)
    (v : Tried σ) (A rest : List (Entry α β × ℕ))
    (lower : List (Tried σ × List (Entry α β × ℕ))) : Prop where
  frames : Frames model t H s.heap v s.calls lower
  memory : Memory t H s.heap v.path
  head : s.headEntry = H.length
  split : remaining H v.path = A ++ rest
  before : ∀ a ∈ A, a.1.kind = .callEntry
  entry : s.entry = rest.head?.map fun e => node H e.2
  state : s.state = v.state
  bits : Bitset.Bits t.n s.linearized v.path
  seq : s.seq = ids v.path

/-- The loop is where the search is. -/
structure Refines (model : Model σ α β) (t : Timeline α β) (H : List (Entry α β))
    (computePartial : Bool) (s : Loop σ α β) (ss : State (Tried σ) (Entry α β × ℕ)) : Prop where
  current : ∃ v A rest lower, At model t H s v A rest lower ∧
    ss.stack = (v, candidates rest) :: lower
  cache : ∀ k, ∀ c ∈ s.cache k, ∃ u ∈ ss.cache, Bitset.Bits t.n c.1 u.path ∧ c.2 = u.state
  longest : Longest t.n s.longest (if computePartial then ss.left else [])

variable {ss : State (Tried σ) (Entry α β × ℕ)} {v : Tried σ} {A rest : List (Entry α β × ℕ)}
  {lower : List (Tried σ × List (Entry α β × ℕ))} {e : Entry α β × ℕ}

/-- Before the loop, the search is at the root. -/
theorem exists_init (model : Model σ α β) (computePartial : Bool) (ht : t.Of H) :
    ∃ s, checkSingleInit model H = some s ∧
      Refines model t H computePartial s ((tree model t H).start (root model)) := by
  obtain ⟨b, hb, hbuilt⟩ := exists_built H
  have hnodup : (H.length :: nodes H.length).Nodup := nodes_succ H.length ▸ nodup_nodes _
  obtain ⟨l, hl, hlinked, -⟩ :=
    insertBefore_linked hbuilt.linked hnodup (hbuilt.fresh _ le_rfl).1 hbuilt.first
  have hlen : length b.heap.links b.heap.size b.root = H.length := by
    have := length_linked hbuilt.linked
    simpa [nodes, hbuilt.size, hbuilt.root] using this
  have hn : H.length / 2 = t.n := by
    rw [ht.length]
    omega
  have hl' : insertBefore b.heap.links b.heap.size b.root = some l := by
    rw [hbuilt.size, hbuilt.root, hl]
  refine ⟨_, by simp only [checkSingleInit, hb, Option.bind_eq_bind, Option.bind_some, Heap.alloc,
    hl', hlen, hn]; rfl, ⟨root model, [], remaining H [], [], ?_, rfl⟩, by simp, ?_⟩
  · refine ⟨.root, (hbuilt.fields.alloc_head hbuilt.size l).memory ht hlinked, hbuilt.size, rfl,
      by simp, ?_, rfl, Bitset.bits_newBitset _, rfl⟩
    rw [hbuilt.root, ← live_nil, live, List.head?_map]
  · simpa [SearchTree.start] using longest_replicate t.n

/-- The cursor goes on behind a call. -/
theorem At.next (h : At model t H s v A (e :: rest) lower) (hcall : e.1.kind = .callEntry) :
    At model t H { s with entry := s.heap.links.next (node H e.2) } v (A ++ [e]) rest lower where
  frames := h.frames
  memory := h.memory
  head := h.head
  split := by rw [h.split, List.append_assoc, List.singleton_append]
  before a ha := by
    rcases List.mem_append.mp ha with ha | ha
    · exact h.before a ha
    · rwa [List.mem_singleton.mp ha]
  entry := h.memory.next h.split
  state := h.state
  bits := h.bits
  seq := h.seq

/-- A call is taken out, and the cursor goes back to the start. -/
theorem At.take (h : At model t H s v A (e :: rest) lower) (ht : t.Of H)
    (hcall : e.1.kind = .callEntry) (s₁ : σ) (cache : Cache σ) : ∃ heap linearized,
      lift s.heap (node H e.2) = some heap ∧ s.linearized.set e.1.id = some linearized ∧
      Bitset.Bits t.n linearized (v.path ++ [e.1.id]) ∧
      At model t H { s with
          heap := heap
          entry := heap.links.next s.headEntry
          linearized := linearized
          cache := cache
          calls := s.calls ++ [(node H e.2, s.state)]
          state := s₁ } ⟨v.path ++ [e.1.id], s₁⟩ [] (remaining H (v.path ++ [e.1.id]))
        ((v, candidates rest) :: lower) := by
  have he : e ∈ remaining H v.path := by
    rw [h.split]
    simp
  have hget : H[e.2]? = some e.1 := (mem_remaining.mp he).1
  obtain ⟨heap, hlift, hmem, hunlift, hid⟩ := h.memory.lift ht h.split hcall
  obtain ⟨linearized, hset, hbits⟩ := h.bits.set (ht.cover _ _ hget).1
  refine ⟨heap, linearized, hlift, hset, hbits, ?_, hmem, h.head, rfl, by simp, ?_, rfl, hbits, ?_⟩
  · rw [h.state]
    refine .call h.frames h.memory h.seq rfl h.split (fun a ha => ?_) hunlift
    rcases List.mem_append.mp ha with ha | ha
    · exact h.before a ha
    · rwa [List.mem_singleton.mp ha]
  · simp only [h.head, hmem.next_head]
  · have hseq := h.seq
    simp only [Loop.seq, hid, List.map_append, ids] at hseq ⊢
    simp [hseq, h.memory.id _ _ hget]

/-- The last call is put back, and the cursor goes on behind it. -/
theorem At.back {calls : List (ℕ × σ)} {c : ℕ × σ} (h : At model t H s v A rest lower)
    (hcalls : s.calls = calls ++ [c]) (hpath : v.path.Nodup)
    (hlt : ∀ i ∈ v.path, i < t.n) (longest : List (Option (List ℤ))) :
    ∃ heap linearized v₀ A' B lower', unlift s.heap c.1 = some heap ∧
      s.linearized.clear (s.heap.id c.1).toNat = some linearized ∧
      lower = (v₀, candidates B) :: lower' ∧
      At model t H { s with
          heap := heap
          entry := heap.links.next c.1
          linearized := linearized
          calls := calls
          state := c.2
          longest := longest } v₀ A' B lower' := by
  obtain ⟨hframes, hmem, hhead, hsplit, hbefore, hentry, hstate, hbits, hseq⟩ := h
  rw [hcalls] at hframes
  generalize hc : calls ++ [c] = cs at hframes
  cases hframes with
  | root => simp at hc
  | @call _ heap _ v₀ calls' lower' A' B e frames memory seq path split before unlift =>
    obtain ⟨rfl, hc⟩ := List.append_inj' hc rfl
    obtain rfl : c = (node H e.2, v₀.state) := by simpa using hc
    rw [path] at hbits hpath hlt hseq
    have hid : s.heap.id (node H e.2) = (e.1.id : ℤ) := by
      have he : e ∈ remaining H v₀.path := by
        rw [split]
        simp
      exact hmem.id _ _ (mem_remaining.mp he).1
    have hnot : e.1.id ∉ v₀.path := fun hmem =>
      (List.nodup_append.mp hpath).2.2 _ hmem _ (List.mem_singleton_self _) rfl
    obtain ⟨linearized, hclear, hbits'⟩ := hbits.clear (hlt _ (by simp)) hnot
    refine ⟨heap, linearized, v₀, A' ++ [e], B, lower', unlift, ?_, rfl, frames, memory, hhead,
      ?_, before, memory.next split, rfl, hbits', seq⟩
    · rw [hid, Int.toNat_natCast, hclear]
    · rw [split, List.append_assoc, List.singleton_append]

/-- A history does not end with a call. -/
theorem At.rest_ne_nil (h : At model t H s v A rest lower) (ht : t.Of H)
    (hgoal : ¬ (tree model t H).Goal v) : rest ≠ [] := by
  rintro rfl
  rcases List.eq_nil_or_concat' A with rfl | ⟨A', e, rfl⟩
  · exact hgoal h.split
  · have hsplit : remaining H v.path = A' ++ e :: [] := by simpa using h.split
    obtain ⟨r, B₁, B₂, hB, -⟩ := ht.split hsplit (h.before e (by simp))
    simp at hB

/-- What the cache of the loop has is in the cache of the search. -/
theorem Refines.same_of_cacheContains (h : Refines model t H computePartial s ss)
    {b : Bitset} {w : Tried σ} (hb : Bitset.Bits t.n b w.path)
    (hcache : cacheContains model s.cache (b, w.state) = true) :
    ∃ u ∈ ss.cache, (tree model t H).Same w u := by
  obtain ⟨c, hc, hequal⟩ := List.any_eq_true.mp hcache
  rw [Bool.and_eq_true, Bitset.equals_iff] at hequal
  obtain ⟨u, hu, hbits, hstate⟩ := h.cache _ c hc
  refine ⟨u, hu, (hb.eq_iff hbits).mp hequal.1, ?_⟩
  rw [← hstate]
  exact hequal.2

/-- One round at a call is one step of the search. -/
theorem At.step_call (h : At model t H s v A (e :: rest) lower) (ht : t.Of H)
    (href : Refines model t H computePartial s ss)
    (hstack : ss.stack = (v, candidates (e :: rest)) :: lower)
    (hgoal : ¬ (tree model t H).Goal v) (hcall : e.1.kind = .callEntry) :
    ∃ s' ss', checkSingleStep model computePartial false s = some (.inl s') ∧
      (tree model t H).Step ss ss' ∧ Refines model t H computePartial s' ss' := by
  have he : e ∈ remaining H v.path := by
    rw [h.split]
    simp
  have hget : H[e.2]? = some e.1 := (mem_remaining.mp he).1
  have hn := (ht.cover _ _ hget).1
  obtain ⟨b, hb, -, hout, hbid⟩ := ht.returned _ hn
  have hmatch := h.memory.call _ _ hget hcall
  have hin : s.heap.value (node H e.2) = some (.inl (t.input e.1.id)) := by
    rw [h.memory.value _ _ hget, ht.value_call hget hcall]
  have hret : s.heap.value (node H (t.ret e.1.id)) = some (.inr (t.output e.1.id)) := by
    rw [h.memory.value _ _ hb, hout]
  have hid : (s.heap.id (node H e.2)).toNat = e.1.id := by
    rw [h.memory.id _ _ hget, Int.toNat_natCast]
  have hhead : s.heap.links.next s.headEntry ≠ none := by
    rw [h.head, h.memory.next_head, h.split]
    cases A <;> simp
  have hentry : s.entry = some (node H e.2) := h.entry
  have hcand : candidates (e :: rest) = e :: candidates rest := by
    simp [candidates, hcall]
  obtain ⟨stack, cache, left⟩ := ss
  obtain rfl : stack = (v, e :: candidates rest) :: lower := hcand ▸ hstack
  -- the cursor goes on: the call fails or its child is known
  have hskip : Refines model t H computePartial
      { s with entry := s.heap.links.next (node H e.2) }
      ⟨(v, candidates rest) :: lower, cache, left⟩ :=
    ⟨⟨v, A ++ [e], rest, lower, h.next hcall, rfl⟩, href.cache, href.longest⟩
  cases hstep : model.step s.state (t.input e.1.id) (t.output e.1.id) with
  | mk ok s₁ =>
    rw [h.state] at hstep
    cases ok with
    | false =>
      refine ⟨_, _, ?_, .fail hgoal (c := e) ?_, hskip⟩
      · simp [checkSingleStep, hhead, hentry, hmatch, hin, hret, h.state, hstep]
      · simp [tree, hstep]
    | true =>
      have hchild : (tree model t H).child v e = some ⟨v.path ++ [e.1.id], s₁⟩ :=
        child_eq_some.mpr ⟨hstep, rfl⟩
      obtain ⟨linearized, hset, hbits⟩ := h.bits.set hn
      by_cases hcache : cacheContains model s.cache (linearized, s₁) = true
      · obtain ⟨u, hu, hsame⟩ := href.same_of_cacheContains (w := ⟨_, s₁⟩) hbits hcache
        refine ⟨_, _, ?_, .skip hgoal hchild hu hsame, hskip⟩
        simp [checkSingleStep, hhead, hentry, hmatch, hin, hret, h.state, hstep, hid, hset, hcache]
      · obtain ⟨heap, linearized', hlift, hset', -, hat⟩ := h.take ht hcall s₁
          (Function.update s.cache linearized.hash
            (s.cache linearized.hash ++ [(linearized, s₁)]))
        obtain rfl : linearized = linearized' := Option.some.inj (hset.symm.trans hset')
        refine ⟨_, _, ?_, .enter hgoal hchild, ⟨_, _, _, _, hat, rfl⟩, ?_, href.longest⟩
        · simp [checkSingleStep, hhead, hentry, hmatch, hin, hret, h.state, hstep, hid, hset,
            hcache, hlift]
        · intro k c hc
          simp only [Function.update_apply] at hc
          split at hc
          · rcases List.mem_append.mp hc with hc | hc
            · obtain ⟨u, hu, hub⟩ := href.cache _ c hc
              exact ⟨u, List.mem_cons_of_mem _ hu, hub⟩
            · obtain rfl := List.mem_singleton.mp hc
              exact ⟨_, List.mem_cons_self .., hbits, rfl⟩
          · obtain ⟨u, hu, hub⟩ := href.cache _ c hc
            exact ⟨u, List.mem_cons_of_mem _ hu, hub⟩

/-- One round at a return leaves the node, or ends the search at the root. -/
theorem At.step_return (h : At model t H s v A (e :: rest) lower) (ht : t.Of H)
    (href : Refines model t H computePartial s ss)
    (hstack : ss.stack = (v, candidates (e :: rest)) :: lower)
    (hinv : (tree model t H).Inv (root model) ss)
    (hgoal : ¬ (tree model t H).Goal v) (hret : e.1.kind = .returnEntry) :
    (ss.stack = [(v, [])] ∧
      checkSingleStep model computePartial false s = some (.inr (false, s.longest))) ∨
    ∃ s' ss', checkSingleStep model computePartial false s = some (.inl s') ∧
      (tree model t H).Step ss ss' ∧ Refines model t H computePartial s' ss' := by
  have he : e ∈ remaining H v.path := by
    rw [h.split]
    simp
  have hget : H[e.2]? = some e.1 := (mem_remaining.mp he).1
  have hmatch := h.memory.ret _ _ hget hret
  have hhead : s.heap.links.next s.headEntry ≠ none := by
    rw [h.head, h.memory.next_head, h.split]
    cases A <;> simp
  have hentry : s.entry = some (node H e.2) := h.entry
  have hcand : candidates (e :: rest) = [] := by
    simp [candidates, hret]
  have hbelow := (below_iff ht).mp (hinv.below v (by simp [State.entered, hstack]))
  obtain ⟨stack, cache, left⟩ := ss
  obtain rfl : stack = (v, []) :: lower := hcand ▸ hstack
  rcases List.eq_nil_or_concat' s.calls with hcalls | ⟨calls, c, hcalls⟩
  · left
    refine ⟨?_, by simp [checkSingleStep, hhead, hentry, hmatch, hcalls]⟩
    have hframes := h.frames
    generalize hcs : s.calls = cs at hframes
    cases hframes with
    | root => rfl
    | call => simp [hcs] at hcalls
  · right
    obtain ⟨longest, hrecord, hlongest⟩ : ∃ longest,
        (if computePartial then recordLongest s else some s.longest) = some longest ∧
        Longest t.n longest (if computePartial then v :: left else []) := by
      have hl := href.longest
      cases computePartial with
      | false => exact ⟨_, rfl, hl⟩
      | true => exact hl.record h.seq hbelow.1.lt hbelow.1.nodup
    obtain ⟨heap, linearized, v₀, A', B, lower', hunlift, hclear, rfl, hat⟩ :=
      h.back hcalls hbelow.1.nodup hbelow.1.lt longest
    refine ⟨_, _, ?_, .leave hgoal, ⟨_, _, _, _, hat, rfl⟩, href.cache, hlongest⟩
    cases computePartial with
    | false =>
      obtain rfl : s.longest = longest := Option.some.inj hrecord
      simp [checkSingleStep, hhead, hentry, hmatch, hcalls, hclear, hunlift]
    | true =>
      have hrecord : recordLongest s = some longest := hrecord
      simp [checkSingleStep, hhead, hentry, hmatch, hcalls, hrecord, hclear, hunlift]

/-- One round of the loop: at a goal it returns true, at the end of the search or if it is asked to
    stop it returns false, and else the search makes a step. -/
theorem checkSingleStep_spec (ht : t.Of H) (href : Refines model t H computePartial s ss)
    (hinv : (tree model t H).Inv (root model) ss) (kill : Bool) :
    ∃ v todo lower, ss.stack = (v, todo) :: lower ∧ s.seq = ids v.path ∧
      (((tree model t H).Goal v ∧ checkSingleStep model computePartial kill s =
          some (.inr (true, s.longest.map fun _ => some s.seq))) ∨
        (¬ (tree model t H).Goal v ∧ (kill = true ∨ ss.stack = [(v, [])]) ∧
          checkSingleStep model computePartial kill s = some (.inr (false, s.longest))) ∨
        ∃ s' ss', checkSingleStep model computePartial kill s = some (.inl s') ∧
          (tree model t H).Step ss ss' ∧ Refines model t H computePartial s' ss') := by
  obtain ⟨v, A, rest, lower, h, hstack⟩ := href.current
  refine ⟨v, _, lower, hstack, h.seq, ?_⟩
  have hnext : s.heap.links.next s.headEntry = none ↔ (tree model t H).Goal v := by
    rw [h.head, h.memory.next_head, Option.map_eq_none_iff, List.head?_eq_none_iff]
    rfl
  by_cases hgoal : (tree model t H).Goal v
  · exact .inl ⟨hgoal, by simp [checkSingleStep, hnext.mpr hgoal]⟩
  · right
    cases kill with
    | true => exact .inl ⟨hgoal, .inl rfl, by simp [checkSingleStep, mt hnext.mp hgoal]⟩
    | false =>
      obtain ⟨e, rest, rfl⟩ := List.exists_cons_of_ne_nil (h.rest_ne_nil ht hgoal)
      cases hk : e.1.kind with
      | callEntry => exact .inr (h.step_call ht href hstack hgoal hk)
      | returnEntry =>
        rcases h.step_return ht href hstack hinv hgoal hk with ⟨hend, hres⟩ | hstep
        · exact .inl ⟨hgoal, .inr hend, hres⟩
        · exact .inr hstep

/-! ### What the loop returns -/

/-- A result of `checkSingle`: true comes with a linearization, false, unless somebody asked to
    stop, means that there is none. The sequences are linearizable prefixes with the operation they
    are kept for; if the search was not stopped and computes them, they are the longest ones. -/
structure Verdict (model : Model σ α β) (t : Timeline α β) (computePartial kill : Bool)
    (r : SingleResult) : Prop where
  length : r.2.length = t.n
  ok : r.1 = true → ∃ T, LinearizablePrefix model t T ∧ (∀ i < t.n, i ∈ T) ∧
    ∀ i < t.n, r.2[i]? = some (some (ids T))
  fail : r.1 = false → kill = false → ¬ t.Linearizable model
  partials : ∀ i seq, r.2[i]? = some (some seq) →
    ∃ T, LinearizablePrefix model t T ∧ i ∈ T ∧ seq = ids T
  longest : computePartial = true → (r.1 = false → kill = false) →
    ∀ T, LinearizablePrefix model t T → ∀ i ∈ T,
      ∃ seq, r.2[i]? = some (some seq) ∧ T.length ≤ seq.length

/-- A search that is asked to stop says less. -/
theorem Verdict.mono {kill' : Bool} {r : SingleResult} (h : Verdict model t computePartial kill r)
    (hkill : kill = true → kill' = true) : Verdict model t computePartial kill' r := by
  have hfalse : kill' = false → kill = false := by
    intro hk'
    cases kill with
    | false => rfl
    | true =>
      rw [hkill rfl] at hk'
      cases hk'
  exact ⟨h.length, h.ok, fun hr hk => h.fail hr (hfalse hk), h.partials,
    fun hc hr => h.longest hc fun hf => hfalse (hr hf)⟩

theorem length_le_of_nodup {T T' : List ℕ} (h : T.Nodup) (hsub : ∀ i ∈ T, i ∈ T') :
    T.length ≤ T'.length := (List.subperm_of_subset h hsub).length_le

/-- The result at a goal. -/
theorem verdict_of_goal (ht : t.Of H) (href : Refines model t H computePartial s ss)
    (hv : (tree model t H).Below (root model) v) (hgoal : (tree model t H).Goal v)
    (hseq : s.seq = ids v.path) :
    Verdict model t computePartial kill (true, s.longest.map fun _ => some s.seq) := by
  obtain ⟨hpre, -⟩ := (below_iff ht).mp hv
  have hall := (remaining_eq_nil_iff ht).mp hgoal
  have hget : ∀ i < t.n, (s.longest.map fun _ => some s.seq)[i]? = some (some (ids v.path)) := by
    intro i hi
    rw [List.getElem?_map, List.getElem?_eq_getElem (href.longest.length ▸ hi), Option.map_some,
      hseq]
  refine ⟨by simpa using href.longest.length, fun _ => ⟨v.path, hpre, hall, hget⟩, by simp,
    fun i seq hi => ?_, fun _ _ T hT i hi => ?_⟩
  · have hlt : i < t.n := by
      have := (List.getElem?_eq_some_iff.mp hi).1
      simpa [href.longest.length] using this
    rw [hget i hlt] at hi
    exact ⟨v.path, hpre, hall i hlt, (Option.some.inj (Option.some.inj hi)).symm⟩
  · refine ⟨_, hget i (hT.lt i hi), ?_⟩
    rw [length_ids]
    exact length_le_of_nodup hT.nodup fun j hj => hall j (hT.lt j hj)

/-- The result at the end of the search, or when it is stopped. -/
theorem verdict_of_not_goal (ht : t.Of H) (hcongr : model.EqualCongr)
    (href : Refines model t H computePartial s ss) (hinv : (tree model t H).Inv (root model) ss)
    (hgoal : ¬ (tree model t H).Goal v) (hend : kill = true ∨ ss.stack = [(v, [])]) :
    Verdict model t computePartial kill (false, s.longest) := by
  -- a search that is over has seen a like of every linearizable prefix
  have hcover : kill = false → ∀ T, LinearizablePrefix model t T → ∃ u ∈ v :: ss.left,
      ¬ (tree model t H).Goal u ∧ ∀ i, i ∈ T ↔ i ∈ u.path := by
    intro hkill T hT
    obtain ⟨state, hstate⟩ := hT.legal
    have hstack := hend.resolve_left (by simp [hkill])
    obtain ⟨stack, cache, left⟩ := ss
    obtain rfl : stack = [(v, [])] := hstack
    obtain ⟨rfl, hclosed⟩ := hinv.closed_of_failed hgoal
    obtain ⟨u, hu, halike⟩ := (alike_simulates ht hcongr).covers (List.mem_cons_self ..)
      (fun x hx => (hclosed x hx).2) ((below_iff ht (v := ⟨T, state⟩)).mpr ⟨hT, hstate⟩)
    exact ⟨u, hu, (hclosed u hu).1, halike.1⟩
  have hroot : kill = false → v = root model := by
    intro hkill
    have hstack := hend.resolve_left (by simp [hkill])
    obtain ⟨cs, hbottom⟩ := hinv.bottom
    rw [hstack] at hbottom
    exact (Prod.mk.inj (Option.some.inj hbottom)).1
  refine ⟨href.longest.length, by simp, fun _ hkill => ?_, fun i seq hi => ?_,
    fun hcompute hkill T hT i hi => ?_⟩
  · rintro ⟨T, hT, hall⟩
    obtain ⟨u, -, hu, hsame⟩ := hcover hkill T hT
    exact hu ((remaining_eq_nil_iff ht).mpr fun i hi => (hsame i).mp (hall i hi))
  · obtain ⟨u, hu, hiu, rfl⟩ := href.longest.sound i seq hi
    have hleft : u ∈ ss.left := by
      split at hu
      · exact hu
      · cases hu
    have hbelow := hinv.below u (List.mem_append_right _ hleft)
    exact ⟨u.path, ((below_iff ht).mp hbelow).1, hiu, rfl⟩
  · obtain ⟨u, hu, -, hsame⟩ := hcover (hkill rfl) T hT
    have hiu : i ∈ u.path := (hsame i).mp hi
    rcases List.mem_cons.mp hu with rfl | hu
    · rw [hroot (hkill rfl)] at hiu
      cases hiu
    · obtain ⟨seq, hseq, hle⟩ := href.longest.covers u (by simpa [hcompute] using hu) i hiu
      exact ⟨seq, hseq, (length_le_of_nodup hT.nodup fun j hj => (hsame j).mp hj).trans hle⟩

/-- The loop has at most `k` rounds ahead. -/
def Searching (model : Model σ α β) (t : Timeline α β) (H : List (Entry α β))
    (computePartial : Bool) (k : ℕ) (s : Loop σ α β) : Prop :=
  ∃ ss, Refines model t H computePartial s ss ∧ (tree model t H).Inv (root model) ss ∧
    ss.potential H.length (fun v => (remaining H v.path).length) ≤ k

omit [DecidableEq σ] in
theorem length_remaining_le (H : List (Entry α β)) (P : List ℕ) :
    (remaining H P).length ≤ H.length := by
  have := List.length_filter_le (fun e : Entry α β × ℕ => decide (e.1.id ∉ P)) H.zipIdx
  simpa [remaining] using this

theorem length_moves_le (v : Tried σ) : ((tree model t H).moves v).length ≤ H.length :=
  ((List.takeWhile_sublist _).length_le).trans (length_remaining_le H v.path)

theorem length_remaining_lt {w : Tried σ} (he : e ∈ (tree model t H).moves v)
    (hchild : (tree model t H).child v e = some w) :
    (remaining H w.path).length < (remaining H v.path).length := by
  rw [(child_eq_some.mp hchild).2, remaining_concat]
  exact List.length_filter_lt_length_iff_exists.mpr
    ⟨e, (List.takeWhile_sublist _).mem he, by simp⟩

/-- `checkSingle` needs fewer rounds for a history of `m` entries. -/
def maxRounds (m : ℕ) : ℕ := SearchTree.weight m (m + 1) + 1

theorem potential_start_lt : ((tree model t H).start (root model)).potential H.length
    (fun v => (remaining H v.path).length) < maxRounds H.length := by
  have hweight := SearchTree.weight_mono H.length (length_remaining_le H (root model).path)
  refine Nat.lt_succ_of_le ?_
  simp only [SearchTree.start, State.potential, SearchTree.pot, SearchTree.weight, List.map_cons,
    List.map_nil, List.sum_cons, List.sum_nil, Nat.add_zero]
  exact Nat.add_le_add_left (Nat.mul_le_mul (length_moves_le _) (Nat.add_le_add_left hweight 1)) 1

theorem exists_searching (model : Model σ α β) (computePartial : Bool) (ht : t.Of H) :
    ∃ s k, checkSingleInit model H = some s ∧ k < maxRounds H.length ∧
      Searching model t H computePartial k s := by
  obtain ⟨s, hs, href⟩ := exists_init model computePartial ht
  exact ⟨s, _, hs, potential_start_lt, _, href, SearchTree.inv_start _ _, le_rfl⟩

/-- One round: the loop goes on, with fewer rounds ahead, or returns. -/
theorem Searching.step (ht : t.Of H) (hcongr : model.EqualCongr) {k : ℕ}
    (h : Searching model t H computePartial k s) (kill : Bool) :
    (∃ r, checkSingleStep model computePartial kill s = some (.inr r) ∧
      Verdict model t computePartial kill r) ∨
    ∃ s' k', k' < k ∧ checkSingleStep model computePartial kill s = some (.inl s') ∧
      Searching model t H computePartial k' s' := by
  obtain ⟨ss, href, hinv, hk⟩ := h
  obtain ⟨v, todo, lower, hstack, hseq, hcases⟩ := checkSingleStep_spec ht href hinv kill
  have hv : (tree model t H).Below (root model) v :=
    hinv.below v (by simp [State.entered, hstack])
  rcases hcases with ⟨hgoal, hres⟩ | ⟨hgoal, hend, hres⟩ | ⟨s', ss', hres, hstep, href'⟩
  · exact .inl ⟨_, hres, verdict_of_goal ht href hv hgoal hseq⟩
  · exact .inl ⟨_, hres, verdict_of_not_goal ht hcongr href hinv hgoal hend⟩
  · have hlt := hinv.potential_lt (b := H.length) (fun v c hc w hw => length_remaining_lt hc hw)
      length_moves_le hstep
    exact .inr ⟨s', _, hlt.trans_le hk, hres, ss', href', hinv.step hstep, le_rfl⟩

theorem Searching.loop (ht : t.Of H) (hcongr : model.EqualCongr) {k fuel : ℕ}
    (h : Searching model t H computePartial k s) (hfuel : k < fuel) :
    ∃ r, checkSingleLoop model computePartial fuel s = some (some r) ∧
      Verdict model t computePartial false r := by
  induction fuel generalizing s k with
  | zero => cases hfuel
  | succ fuel ih =>
    rcases h.step ht hcongr false with ⟨r, hr, hverdict⟩ | ⟨s', k', hlt, hs', hsearching⟩
    · exact ⟨r, by rw [checkSingleLoop, hr], hverdict⟩
    · obtain ⟨r, hr, hverdict⟩ := ih hsearching (by omega)
      exact ⟨r, by simp only [checkSingleLoop, hs', hr], hverdict⟩

theorem exists_verdict (ht : t.Of H) (hcongr : model.EqualCongr) (computePartial : Bool) {fuel : ℕ}
    (hfuel : maxRounds H.length ≤ fuel) :
    ∃ r, checkSingle model H computePartial fuel = some (some r) ∧
      Verdict model t computePartial false r := by
  obtain ⟨s, k, hs, hk, hsearching⟩ := exists_searching model computePartial ht
  obtain ⟨r, hr, hverdict⟩ := hsearching.loop ht hcongr (hk.trans_le hfuel)
  exact ⟨r, by simp [checkSingle, hs, hr], hverdict⟩

end DistLabs.Porcupine
