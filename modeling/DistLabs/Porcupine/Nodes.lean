import DistLabs.Porcupine.Order

/-! # The nodes of a history

    `makeLinkedEntries` gives every entry a node and every call the node of its return. What
    `checkSingle` finds in memory then never changes but for the links, which always lead through
    the entries of the operations that are not taken yet: `lift` takes the two entries of an
    operation out of the list and `unlift` puts them back. -/

namespace DistLabs.Porcupine

variable {α β : Type} {t : Timeline α β} {H : List (Entry α β)} {P : List ℕ}

/-! ### Linking the entries -/

/-- A node goes to the front of a list; nodes outside of the list stay as they are. -/
theorem insertBefore_linked {l : Links ℕ} {L : List ℕ} {n : ℕ} (h : l.Linked L)
    (hnodup : (n :: L).Nodup) (hnext : l.next n = none)
    (hfirst : ∀ y ∈ L.head?, l.prev y = none) :
    ∃ l', insertBefore l n L.head? = some l' ∧ l'.Linked (n :: L) ∧ l'.prev n = l.prev n ∧
      ∀ a, a ∉ n :: L → l'.next a = l.next a ∧ l'.prev a = l.prev a := by
  obtain ⟨hn, hL⟩ := List.nodup_cons.mp hnodup
  cases L with
  | nil => exact ⟨l, rfl, ⟨hnext, by simp, trivial⟩, rfl, fun _ _ => ⟨rfl, rfl⟩⟩
  | cons y L =>
    have hny : n ≠ y := fun heq => hn (heq ▸ List.mem_cons_self ..)
    have hbefore : l.prev y = none := hfirst y rfl
    refine ⟨⟨Function.update l.next n (some y), Function.update l.prev y (some n)⟩, ?_, ?_, ?_, ?_⟩
    · simp [insertBefore, hbefore, Links.setNext, Links.setPrev]
    · refine ⟨Function.update_self .., fun z hz => ?_, h.congr (fun z hz => ?_) fun z hz => ?_⟩
      · obtain rfl : y = z := by simpa using hz
        exact Function.update_self ..
      · have hzn : z ≠ n := fun heq => hn (heq ▸ hz)
        exact Function.update_of_ne hzn ..
      · have hzy : z ≠ y := fun heq => (List.nodup_cons.mp hL).1 (heq ▸ hz)
        exact Function.update_of_ne hzy ..
    · exact Function.update_of_ne hny ..
    · intro a ha
      rw [List.mem_cons, List.mem_cons, not_or, not_or] at ha
      exact ⟨Function.update_of_ne ha.1 .., Function.update_of_ne ha.2.1 ..⟩

/-- The addresses of the first `m` nodes, newest first. -/
def nodes (m : ℕ) : List ℕ := (List.range m).reverse

theorem nodes_succ (m : ℕ) : nodes (m + 1) = m :: nodes m := by simp [nodes, List.range_succ]

@[simp] theorem mem_nodes {a m : ℕ} : a ∈ nodes m ↔ a < m := by simp [nodes]

theorem nodup_nodes (m : ℕ) : (nodes m).Nodup := List.nodup_reverse.mpr List.nodup_range

/-- The node of the first return of an operation: a node has the address that is the number of the
    entries behind its own. -/
def matchOf : List (Entry α β) → ℕ → Option ℕ
  | [], _ => none
  | e :: H, id => if e.kind = .returnEntry ∧ e.id = id then some H.length else matchOf H id

/-- The fields of the nodes that are not links. -/
def Fields (h : Heap α β) (H : List (Entry α β)) : Prop :=
  ∀ A e B, H = A ++ e :: B → h.value B.length = some e.value ∧ h.id B.length = e.id ∧
    h.match_ B.length = if e.kind = .callEntry then matchOf B e.id else none

/-- What `makeLinkedEntries` has made of the entries `H`. -/
structure Built (H : List (Entry α β)) (s : Linking α β) : Prop where
  size : s.heap.size = H.length
  root : s.root = (nodes H.length).head?
  linked : s.heap.links.Linked (nodes H.length)
  first : ∀ a ∈ (nodes H.length).head?, s.heap.links.prev a = none
  fresh : ∀ a, H.length ≤ a → s.heap.links.next a = none ∧ s.heap.links.prev a = none
  match_ : s.match_ = matchOf H
  fields : Fields s.heap H

/-- The node for one more entry, in front of the others. -/
theorem Fields.alloc {h : Heap α β} (hf : Fields h H) (hsize : h.size = H.length)
    (e : Entry α β) (links : Links ℕ) :
    Fields { h.alloc (some e.value) (if e.kind = .callEntry then matchOf H e.id else none) e.id
      with links := links } (e :: H) := by
  intro A e' B heq
  cases A with
  | nil =>
    obtain ⟨rfl, rfl⟩ := List.cons.inj heq
    simp [Heap.alloc, hsize]
  | cons a A =>
    obtain ⟨-, hH⟩ := List.cons.inj heq
    have hne : B.length ≠ h.size := by
      rw [hsize, hH]
      simp
      omega
    obtain ⟨h1, h2, h3⟩ := hf A e' B hH
    simp only [Heap.alloc, Function.update_of_ne hne]
    exact ⟨h1, h2, h3⟩

/-- The head of the list gets a node of its own. -/
theorem Fields.alloc_head {h : Heap α β} (hf : Fields h H) (hsize : h.size = H.length)
    (links : Links ℕ) : Fields { h.alloc none none (-1) with links := links } H := by
  intro A e B heq
  have hne : B.length ≠ h.size := by
    rw [hsize, heq]
    simp
    omega
  simp only [Heap.alloc, Function.update_of_ne hne]
  exact hf A e B heq

theorem Built.linkEntry {s : Linking α β} (h : Built H s) (e : Entry α β) :
    ∃ s', Porcupine.linkEntry e s = some s' ∧ Built (e :: H) s' := by
  have hnodup : (H.length :: nodes H.length).Nodup := nodes_succ H.length ▸ nodup_nodes _
  obtain ⟨l, hl, hlinked, hprev, hframe⟩ :=
    insertBefore_linked h.linked hnodup (h.fresh _ le_rfl).1 h.first
  have hl' : insertBefore s.heap.links s.heap.size s.root = some l := by rw [h.size, h.root, hl]
  have hfields := h.fields.alloc h.size e l
  have hfirst : ∀ a ∈ (nodes (e :: H).length).head?, l.prev a = none := by
    intro a ha
    rw [List.length_cons, nodes_succ] at ha
    obtain rfl : H.length = a := by simpa using ha
    exact hprev.trans (h.fresh _ le_rfl).2
  have hfresh : ∀ a, (e :: H).length ≤ a → l.next a = none ∧ l.prev a = none := by
    intro a ha
    rw [List.length_cons] at ha
    obtain ⟨h1, h2⟩ := hframe a (by rw [List.mem_cons, mem_nodes]; omega)
    rw [h1, h2]
    exact h.fresh a (by omega)
  have hroot : some s.heap.size = (nodes (e :: H).length).head? := by
    rw [List.length_cons, nodes_succ, h.size, List.head?_cons]
  have hlinked' : l.Linked (nodes (e :: H).length) := by rwa [List.length_cons, nodes_succ]
  -- the two kinds of entries differ in the node they point to and in the map
  have hbuilt : ∀ m, m = matchOf (e :: H) → Built (e :: H)
      ⟨{ s.heap.alloc (some e.value) (if e.kind = .callEntry then matchOf H e.id else none) e.id
        with links := l }, some s.heap.size, m⟩ := fun m hm =>
    ⟨by simp [Heap.alloc, h.size], hroot, hlinked', hfirst, hfresh, hm, hfields⟩
  cases hk : e.kind
  · refine ⟨_, ?_, hbuilt s.match_ ?_⟩
    · simp [Porcupine.linkEntry, hk, Heap.alloc, hl', h.match_]
    · rw [h.match_]
      funext id
      simp [matchOf, hk]
  · refine ⟨_, ?_, hbuilt (Function.update s.match_ e.id (some s.heap.size)) ?_⟩
    · simp [Porcupine.linkEntry, hk, Heap.alloc, hl']
    · funext id
      simp only [matchOf, hk, h.match_, h.size, true_and, Function.update_apply, eq_comm]

theorem exists_built : ∀ H : List (Entry α β), ∃ s, makeLinkedEntries H = some s ∧ Built H s
  | [] => by
    refine ⟨_, rfl, rfl, rfl, trivial, by simp [nodes], fun _ _ => ⟨rfl, rfl⟩, rfl, ?_⟩
    intro A e B h
    simp at h
  | e :: H => by
    obtain ⟨s, hs, hbuilt⟩ := exists_built H
    obtain ⟨s', hs', hbuilt'⟩ := hbuilt.linkEntry e
    exact ⟨s', by simp [makeLinkedEntries, hs, hs'], hbuilt'⟩

theorem length_linked {l : Links ℕ} :
    ∀ {L : List ℕ}, l.Linked L → length l L.length L.head? = L.length
  | [], _ => rfl
  | x :: L, ⟨hnext, _, h⟩ => by
    simp only [List.length_cons, List.head?_cons, length, hnext, length_linked h]

/-! ### The memory of `checkSingle` -/

/-- The node of the entry at a position of the history. -/
def node (H : List (Entry α β)) (p : ℕ) : ℕ := H.length - 1 - p

/-- The nodes of the operations that are not in `P`. -/
def live (H : List (Entry α β)) (P : List ℕ) : List ℕ := (remaining H P).map fun e => node H e.2

/-- The nodes are those of the history, and the list has the operations that are not in `P`. -/
structure Memory (t : Timeline α β) (H : List (Entry α β)) (h : Heap α β) (P : List ℕ) : Prop where
  value : ∀ p e, H[p]? = some e → h.value (node H p) = some e.value
  id : ∀ p e, H[p]? = some e → h.id (node H p) = e.id
  call : ∀ p e, H[p]? = some e → e.kind = .callEntry →
    h.match_ (node H p) = some (node H (t.ret e.id))
  ret : ∀ p e, H[p]? = some e → e.kind = .returnEntry → h.match_ (node H p) = none
  linked : h.links.Linked (H.length :: live H P)

theorem node_lt {p : ℕ} {e : Entry α β} (h : H[p]? = some e) : node H p < H.length := by
  obtain ⟨hp, -⟩ := List.getElem?_eq_some_iff.mp h
  unfold node
  omega

theorem node_inj {p q : ℕ} (hp : p < H.length) (hq : q < H.length) (h : node H p = node H q) :
    p = q := by
  unfold node at h
  omega

theorem live_nodup (H : List (Entry α β)) (P : List ℕ) : (H.length :: live H P).Nodup := by
  refine List.nodup_cons.mpr ⟨fun hmem => ?_, ?_⟩
  · obtain ⟨e, he, heq⟩ := List.mem_map.mp hmem
    exact absurd heq (node_lt (mem_remaining.mp he).1).ne
  · refine List.Nodup.map_on (fun a ha b hb heq => ?_) ?_
    · obtain ⟨ha, -⟩ := mem_remaining.mp ha
      obtain ⟨hb, -⟩ := mem_remaining.mp hb
      have hpos := node_inj (List.getElem?_eq_some_iff.mp ha).1
        (List.getElem?_eq_some_iff.mp hb).1 heq
      rw [hpos, hb] at ha
      exact Prod.ext (Option.some.inj ha).symm hpos
    · exact (remaining_pairwise H P).imp fun hlt heq => absurd (congrArg Prod.snd heq) hlt.ne

theorem live_nil (H : List (Entry α β)) : live H [] = nodes H.length := by
  have hall : remaining H [] = H.zipIdx := by simp [remaining]
  have hmap : live H [] = (H.zipIdx.map Prod.snd).map (node H) := by
    rw [List.map_map, live, hall]
    rfl
  rw [hmap, List.zipIdx_map_snd, nodes, List.range_eq_range', List.reverse_range',
    ← List.range_eq_range']
  simp [node]

/-- The only return of an operation is the one that is found. -/
theorem matchOf_eq {B : List (Entry α β)} {q : ℕ} {e : Entry α β} (hq : B[q]? = some e)
    (he : e.kind = .returnEntry) (huniq : ∀ q' e', B[q']? = some e' → e'.kind = .returnEntry →
      e'.id = e.id → q' = q) : matchOf B e.id = some (B.length - 1 - q) := by
  induction B generalizing q with
  | nil => simp at hq
  | cons b B ih =>
    rw [matchOf]
    split
    · rename_i hb
      obtain rfl := huniq 0 b rfl hb.1 hb.2
      simp
    · rename_i hb
      cases q with
      | zero =>
        obtain rfl : b = e := by simpa using hq
        exact absurd ⟨he, rfl⟩ hb
      | succ q =>
        rw [ih (by simpa using hq) fun q' e' hq' hk hid =>
          Nat.succ.inj (huniq (q' + 1) e' (by simpa using hq') hk hid)]
        simp only [List.length_cons, Option.some.injEq]
        omega

/-- A call is in front of its return. -/
theorem Timeline.Of.matchOf_drop (ht : t.Of H) {p : ℕ} {e : Entry α β} (hp : H[p]? = some e)
    (hcall : e.kind = .callEntry) : matchOf (H.drop (p + 1)) e.id = some (node H (t.ret e.id)) := by
  obtain ⟨hn, hpos, -⟩ := ht.cover p e hp
  obtain ⟨b, hb, hkind, -, hid⟩ := ht.returned e.id hn
  have hlt : p < t.ret e.id := hpos hcall ▸ ht.lt e.id hn
  have hlen : t.ret e.id < H.length := (List.getElem?_eq_some_iff.mp hb).1
  have hq : (H.drop (p + 1))[t.ret e.id - (p + 1)]? = some b := by
    rw [List.getElem?_drop, ← hb]
    congr 1
    omega
  rw [← hid] at hq ⊢
  rw [matchOf_eq hq hkind fun q' e' hq' hk hid' => ?_]
  · rw [List.length_drop, node, hid]
    congr 1
    omega
  · rw [List.getElem?_drop] at hq'
    have := (ht.cover _ _ hq').2.2 hk
    rw [hid'] at this
    omega

theorem Fields.get {h : Heap α β} (hf : Fields h H) {p : ℕ} {e : Entry α β} (hp : H[p]? = some e) :
    h.value (node H p) = some e.value ∧ h.id (node H p) = e.id ∧ h.match_ (node H p) =
      if e.kind = .callEntry then matchOf (H.drop (p + 1)) e.id else none := by
  obtain ⟨hlt, heq⟩ := List.getElem?_eq_some_iff.mp hp
  have hlen : (H.drop (p + 1)).length = node H p := by
    rw [List.length_drop, node]
    omega
  rw [← hlen]
  refine hf (H.take p) e _ ?_
  rw [← heq, List.cons_getElem_drop_succ, List.take_append_drop]

theorem Fields.memory {h : Heap α β} (hf : Fields h H) (ht : t.Of H)
    (hlinked : h.links.Linked (H.length :: nodes H.length)) : Memory t H h [] where
  value p e hp := (hf.get hp).1
  id p e hp := (hf.get hp).2.1
  call p e hp hk := by rw [(hf.get hp).2.2, if_pos hk, ht.matchOf_drop hp hk]
  ret p e hp hk := by
    rw [(hf.get hp).2.2, if_neg]
    rw [hk]
    decide
  linked := by rwa [live_nil]

theorem Memory.next_head {h : Heap α β} (hm : Memory t H h P) :
    h.links.next H.length = (remaining H P).head?.map fun e => node H e.2 := by
  rw [hm.linked.1, live, List.head?_map]

theorem Memory.next {h : Heap α β} (hm : Memory t H h P) {A B : List (Entry α β × ℕ)}
    {e : Entry α β × ℕ} (hP : remaining H P = A ++ e :: B) :
    h.links.next (node H e.2) = B.head?.map fun e => node H e.2 := by
  have hlinked := hm.linked
  rw [live, hP, List.map_append, List.map_cons, ← List.cons_append] at hlinked
  rw [hlinked.next_eq, List.head?_map]

/-! ### Taking operations out -/

theorem remaining_concat (H : List (Entry α β)) (P : List ℕ) (i : ℕ) :
    remaining H (P ++ [i]) = (remaining H P).filter fun e => e.1.id ≠ i := by
  rw [remaining, remaining, List.filter_filter]
  refine List.filter_congr fun e _ => ?_
  simp [and_comm, not_or]

/-- Behind a call there is its return; without the two, the other operations are left. -/
theorem Timeline.Of.split (ht : t.Of H) {A B : List (Entry α β × ℕ)} {e : Entry α β × ℕ}
    (hP : remaining H P = A ++ e :: B) (hcall : e.1.kind = .callEntry) :
    ∃ r B₁ B₂, B = B₁ ++ r :: B₂ ∧ r.2 = t.ret e.1.id ∧
      remaining H (P ++ [e.1.id]) = A ++ (B₁ ++ B₂) := by
  have hmem : ∀ {c}, c ∈ A ++ e :: B → c ∈ remaining H P := fun hc => hP ▸ hc
  obtain ⟨heget, heP⟩ := mem_remaining.mp (hmem (by simp : e ∈ A ++ e :: B))
  obtain ⟨hn, hepos, -⟩ := ht.cover _ _ heget
  have hepos := hepos hcall
  have hlt := ht.lt _ hn
  obtain ⟨b, hb, hkind, -, hid⟩ := ht.returned _ hn
  have hsort := remaining_pairwise H P
  rw [hP, List.pairwise_append] at hsort
  obtain ⟨-, hsortB, hA⟩ := hsort
  obtain ⟨heB, hsortB⟩ := List.pairwise_cons.mp hsortB
  -- the return is left and stands behind the call
  have hr : (b, t.ret e.1.id) ∈ B := by
    have hr : (b, t.ret e.1.id) ∈ A ++ e :: B := by
      rw [← hP]
      exact mem_remaining.mpr ⟨hb, hid ▸ heP⟩
    rcases List.mem_append.mp hr with hr | hr
    · have := hA _ hr e (List.mem_cons_self ..)
      omega
    · rcases List.mem_cons.mp hr with hr | hr
      · have : t.ret e.1.id = e.2 := congrArg Prod.snd hr
        omega
      · exact hr
  obtain ⟨B₁, B₂, rfl⟩ := List.append_of_mem hr
  rw [List.pairwise_append] at hsortB
  obtain ⟨-, hsort₂, hB₁⟩ := hsortB
  obtain ⟨hB₂, -⟩ := List.pairwise_cons.mp hsort₂
  refine ⟨_, B₁, B₂, rfl, rfl, ?_⟩
  -- the entries of the operation are at these two positions
  have hother : ∀ c ∈ remaining H P, c.2 ≠ e.2 → c.2 ≠ t.ret e.1.id → c.1.id ≠ e.1.id := by
    intro c hc hce hcr heq
    obtain ⟨-, hc1, hc2⟩ := ht.cover _ _ (mem_remaining.mp hc).1
    cases hk : c.1.kind
    · exact hce (by rw [hc1 hk, heq, hepos])
    · exact hcr (by rw [hc2 hk, heq])
  have hkeep : ∀ X : List (Entry α β × ℕ), (∀ c ∈ X, c ∈ remaining H P ∧ c.2 ≠ e.2 ∧
      c.2 ≠ t.ret e.1.id) → X.filter (fun c => c.1.id ≠ e.1.id) = X := by
    intro X hX
    refine List.filter_eq_self.mpr fun c hc => decide_eq_true ?_
    obtain ⟨h1, h2, h3⟩ := hX c hc
    exact hother c h1 h2 h3
  rw [remaining_concat, hP, List.filter_append, List.filter_cons_of_neg (by simp),
    List.filter_append, List.filter_cons_of_neg (by simp [hid]), hkeep A, hkeep B₁, hkeep B₂]
  · intro c hc
    have h1 := heB c (by simp [hc])
    have h2 := hB₂ c hc
    exact ⟨hmem (by simp [hc]), by omega, by omega⟩
  · intro c hc
    have h1 := heB c (by simp [hc])
    have h2 := hB₁ c hc _ (List.mem_cons_self ..)
    exact ⟨hmem (by simp [hc]), by omega, by omega⟩
  · intro c hc
    have h1 := hA c hc e (List.mem_cons_self ..)
    exact ⟨hmem (by simp [hc]), by omega, by omega⟩

/-- `lift` unlinks two nodes. -/
theorem lift_eq {h : Heap α β} {A B : List ℕ} {p x y m : ℕ} {l₁ l₂ : Links ℕ}
    (hlinked : h.links.Linked (A ++ p :: x :: y :: B)) (hne : p ≠ x) (hmatch : h.match_ x = some m)
    (h₁ : h.links.unlink x = some l₁) (h₂ : l₁.unlink m = some l₂) :
    lift h x = some { h with links := l₂ } := by
  have hprev : h.links.prev x = some p := hlinked.prev_eq
  have hnext : h.links.next x = some y := (hlinked.of_append (B := p :: x :: y :: B)).2.2.1
  have hx : Function.update h.links.next p (some y) x = some y := by
    rw [Function.update_of_ne hne.symm, hnext]
  have hl₁ : ((h.links.setNext (h.links.prev x) (h.links.next x)).bind fun l =>
      l.setPrev (l.next x) (l.prev x)) = some l₁ := by
    rw [← h₁, Links.unlink, hprev, hnext, Links.setNext]
    simp only [Option.map_some, Option.bind_eq_bind, Option.bind_some, hx]
  rw [lift]
  obtain ⟨l, hl, hl₁⟩ := Option.bind_eq_some_iff.mp hl₁
  simp only [hl, hl₁, hmatch, h₂, Option.bind_eq_bind, Option.bind_some]

/-- `unlift` puts them back. -/
theorem unlift_eq {h : Heap α β} {A B : List ℕ} {p x y m : ℕ} {l l₁ l₂ : Links ℕ}
    (hlinked : l.Linked (A ++ p :: x :: y :: B)) (hmatch : h.match_ x = some m)
    (h₂ : l₂.relink m = some l₁) (h₁ : l₁.relink x = some l) :
    unlift { h with links := l₂ } x = some { h with links := l } := by
  have hnext : l.next x = some y := (hlinked.of_append (B := p :: x :: y :: B)).2.2.1
  obtain ⟨l', hl', hl⟩ := Option.bind_eq_some_iff.mp h₁
  have hl : l'.setPrev (l'.next x) (some x) = some l := by
    cases hx : l'.next x with
    | none =>
      -- then the call would be the last node
      simp only [hx, Option.some.injEq] at hl
      rw [hl, hnext] at hx
      cases hx
    | some z => simpa only [hx] using hl
  simp only [unlift, hmatch, h₂, hl', hl, Option.bind_eq_bind, Option.bind_some]

/-- Operation `e` is taken out of the list, and can be put back as long as the list stays so. -/
theorem Memory.lift {h : Heap α β} (hm : Memory t H h P) (ht : t.Of H)
    {A B : List (Entry α β × ℕ)} {e : Entry α β × ℕ} (hP : remaining H P = A ++ e :: B)
    (hcall : e.1.kind = .callEntry) : ∃ h', Porcupine.lift h (node H e.2) = some h' ∧
      Memory t H h' (P ++ [e.1.id]) ∧ unlift h' (node H e.2) = some h ∧ h'.id = h.id := by
  have he : e ∈ remaining H P := by
    rw [hP]
    simp
  have hget : H[e.2]? = some e.1 := (mem_remaining.mp he).1
  have hmatch := hm.call _ _ hget hcall
  obtain ⟨r, B₁, B₂, rfl, hr, hrest⟩ := ht.split hP hcall
  set f : Entry α β × ℕ → ℕ := fun e => node H e.2 with hf
  -- the node before the call
  obtain ⟨A', p, hA⟩ : ∃ A' p, H.length :: A.map f = A' ++ [p] :=
    (List.eq_nil_or_concat' _).resolve_left (List.cons_ne_nil _ _)
  have hlive : H.length :: live H P = A' ++ p :: f e :: (B₁.map f ++ f r :: B₂.map f) := by
    rw [live, hP, List.map_append, ← List.cons_append, hA]
    simp [hf]
  have hlive' : H.length :: live H (P ++ [e.1.id]) = A' ++ p :: (B₁.map f ++ B₂.map f) := by
    rw [live, hrest, List.map_append, ← List.cons_append, hA]
    simp [hf]
  have hlinked := hm.linked
  have hnodup := live_nodup H P
  rw [hlive] at hlinked hnodup
  obtain ⟨l₁, h₁, hlinked₁, hback₁⟩ := hlinked.unlink hnodup
  -- the node before the return
  obtain ⟨C, q, hC⟩ : ∃ C q, A' ++ p :: B₁.map f = C ++ [q] :=
    (List.eq_nil_or_concat' _).resolve_left
      (List.append_ne_nil_of_right_ne_nil _ (List.cons_ne_nil _ _))
  have hlist : A' ++ p :: (B₁.map f ++ f r :: B₂.map f) = C ++ q :: f r :: B₂.map f := by
    rw [← List.cons_append, ← List.append_assoc, hC]
    simp
  have hnodup₁ : (A' ++ p :: (B₁.map f ++ f r :: B₂.map f)).Nodup :=
    hnodup.sublist (List.Sublist.append_left ((List.sublist_cons_self _ _).cons_cons _) _)
  rw [hlist] at hlinked₁ hnodup₁
  obtain ⟨l₂, h₂, hlinked₂, hback₂⟩ := hlinked₁.unlink hnodup₁
  have hne : p ≠ f e := by
    rintro rfl
    exact (List.nodup_cons.mp hnodup.of_append_right).1 (by simp)
  have hmr : h.match_ (f e) = some (f r) := by rw [hmatch, ← hr]
  obtain ⟨y, Y, hY⟩ : ∃ y Y, B₁.map f ++ f r :: B₂.map f = y :: Y :=
    List.exists_cons_of_ne_nil (by simp)
  rw [hY] at hlinked
  refine ⟨{ h with links := l₂ }, lift_eq hlinked hne hmr h₁ h₂,
    ⟨hm.value, hm.id, hm.call, hm.ret, ?_⟩, unlift_eq hlinked hmr hback₂ hback₁, rfl⟩
  rw [hlive', ← List.cons_append, ← List.append_assoc, hC, List.append_assoc]
  exact hlinked₂

end DistLabs.Porcupine
