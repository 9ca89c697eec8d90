import Mathlib.Data.List.AList
import Mathlib.Data.List.Sort
import Mathlib.Tactic

/-! # Grouping records by key

    A list of records is summarised by one line for each key that occurs, computed from the values
    recorded under it. Two ways to do this are proved to be summaries: appending each value to the
    entry of its key in a map (`collect`), and cutting a list that is sorted by key into its runs
    (`runs`). Summaries of the same records agree up to order, and the summaries of the buckets of a
    partition by key make up a summary of the whole. -/

namespace DistLabs.Grouping

variable {ρ α β γ : Type*} [DecidableEq α] (key : ρ → α) (val : ρ → β)

/-- The values recorded under `k`, in order. -/
def valuesOf (k : α) (l : List ρ) : List β := (l.filter fun r => decide (key r = k)).map val

/-- One line for each key of `l`, made by `f` from the values of the key. -/
structure Summary (f : α → List β → γ) (l : List ρ) (out : List (α × γ)) : Prop where
  nodup : (out.map Prod.fst).Nodup
  keys : ∀ k, k ∈ out.map Prod.fst ↔ k ∈ l.map key
  value : ∀ p ∈ out, p.2 = f p.1 (valuesOf key val p.1 l)

/-- The result does not depend on the order of the values. -/
def OrderFree (f : α → List β → γ) : Prop := ∀ k vs vs', vs.Perm vs' → f k vs = f k vs'

/-- Each value appended to the entry of its key. -/
def collect (m : AList fun _ : α => List β) (l : List ρ) : AList fun _ : α => List β :=
  l.foldl (fun m r => m.insert (key r) ((m.lookup (key r)).getD [] ++ [val r])) m

/-- The maximal runs of one key, each with its values. -/
def runs : List ρ → List (α × List β)
  | [] => []
  | r :: l =>
    (key r, val r :: (l.takeWhile fun r' => decide (key r' = key r)).map val) ::
      runs (l.dropWhile fun r' => decide (key r' = key r))
termination_by l => l.length
decreasing_by exact Nat.lt_succ_of_le (List.dropWhile_sublist _).length_le

variable {key val} {f : α → List β → γ} {l l' : List ρ} {out out' : List (α × γ)}

/-! ### Values of a key -/

theorem valuesOf_perm (h : l.Perm l') (k : α) :
    (valuesOf key val k l).Perm (valuesOf key val k l') :=
  (h.filter _).map _

theorem valuesOf_append (k : α) :
    valuesOf key val k (l ++ l') = valuesOf key val k l ++ valuesOf key val k l' := by
  simp [valuesOf]

theorem valuesOf_eq_nil {k : α} (h : k ∉ l.map key) : valuesOf key val k l = [] := by
  simp only [valuesOf, List.map_eq_nil_iff, List.filter_eq_nil_iff, decide_eq_true_eq]
  rintro r hr rfl
  exact h (List.mem_map_of_mem hr)

/-- A bucket has all the values of its keys. -/
theorem valuesOf_filter (k : α) {p : α → Bool} (hp : p k = true) :
    valuesOf key val k (l.filter fun r => p (key r)) = valuesOf key val k l := by
  unfold valuesOf
  rw [List.filter_filter]
  congr 1
  refine List.filter_congr fun r _ => ?_
  by_cases hk : key r = k
  · simp [hk, hp]
  · simp [hk]

/-! ### Summaries -/

theorem Summary.congr (hf : OrderFree f) (h : Summary key val f l out) (hl : l.Perm l') :
    Summary key val f l' out where
  nodup := h.nodup
  keys := fun k => (h.keys k).trans (hl.map key).mem_iff
  value := fun p hp => (h.value p hp).trans (hf _ _ _ (valuesOf_perm hl _))

theorem Summary.mem_iff (h : Summary key val f l out) {p : α × γ} :
    p ∈ out ↔ p.1 ∈ l.map key ∧ p.2 = f p.1 (valuesOf key val p.1 l) := by
  refine ⟨fun hp => ⟨(h.keys _).mp (List.mem_map_of_mem hp), h.value p hp⟩, fun ⟨hk, hv⟩ => ?_⟩
  obtain ⟨q, hq, hfst⟩ := List.mem_map.mp ((h.keys p.1).mpr hk)
  have hqp : q = p := Prod.ext hfst (by rw [h.value q hq, hfst, hv])
  exact hqp ▸ hq

/-- Summaries of the same records agree up to order. -/
theorem Summary.perm (h : Summary key val f l out) (h' : Summary key val f l out') :
    out.Perm out' :=
  (List.perm_ext_iff_of_nodup h.nodup.of_map h'.nodup.of_map).mpr fun _ =>
    h.mem_iff.trans h'.mem_iff.symm

/-- The summaries of the buckets make up a summary of the whole. -/
theorem Summary.flatMap {n : ℕ} {b : α → ℕ} (hb : ∀ k, b k < n) {outs : ℕ → List (α × γ)}
    (h : ∀ y < n, Summary key val f (l.filter fun r => decide (b (key r) = y)) (outs y)) :
    Summary key val f l ((List.range n).flatMap outs) := by
  have hkey : ∀ {y p}, y < n → p ∈ outs y → b p.1 = y := by
    intro y p hy hp
    obtain ⟨r, hr, hrk⟩ := List.mem_map.mp (((h y hy).mem_iff.mp hp).1)
    rw [← hrk]
    exact of_decide_eq_true (List.mem_filter.mp hr).2
  refine ⟨?_, fun k => ?_, fun p hp => ?_⟩
  · rw [List.map_flatMap, List.nodup_flatMap]
    refine ⟨fun y hy => (h y (List.mem_range.mp hy)).nodup, ?_⟩
    refine List.Pairwise.imp_of_mem ?_ List.nodup_range
    intro y y' hy hy' hne k hk hk'
    obtain ⟨p, hp, rfl⟩ := List.mem_map.mp hk
    obtain ⟨p', hp', hfst⟩ := List.mem_map.mp hk'
    have h1 := hkey (List.mem_range.mp hy) hp
    have h2 := hkey (List.mem_range.mp hy') hp'
    exact hne (by rw [← h1, ← h2, hfst])
  · rw [List.map_flatMap, List.mem_flatMap]
    constructor
    · rintro ⟨y, hy, hk⟩
      obtain ⟨r, hr, rfl⟩ := List.mem_map.mp (((h y (List.mem_range.mp hy)).keys k).mp hk)
      exact List.mem_map_of_mem (List.mem_filter.mp hr).1
    · intro hk
      obtain ⟨r, hr, rfl⟩ := List.mem_map.mp hk
      refine ⟨b (key r), List.mem_range.mpr (hb _), ((h _ (hb _)).keys _).mpr ?_⟩
      exact List.mem_map_of_mem (List.mem_filter.mpr ⟨hr, by simp⟩)
  · obtain ⟨y, hy, hp⟩ := List.mem_flatMap.mp hp
    have hy := List.mem_range.mp hy
    rw [(h y hy).value p hp, valuesOf_filter p.1 (p := fun k => decide (b k = y))
      (decide_eq_true (hkey hy hp))]

/-! ### Collecting in a map -/

theorem collect_append (m : AList fun _ : α => List β) :
    collect key val m (l ++ l') = collect key val (collect key val m l) l' :=
  List.foldl_append

theorem lookup_collect (k : α) :
    (collect key val ∅ l).lookup k
      = if k ∈ l.map key then some (valuesOf key val k l) else none := by
  induction l using List.reverseRecOn with
  | nil => rfl
  | append_singleton l r ih =>
    rw [collect_append, valuesOf_append]
    show AList.lookup k (AList.insert (key r) _ _) = _
    rcases eq_or_ne k (key r) with rfl | hne
    · have hold : ((collect key val ∅ l).lookup (key r)).getD [] = valuesOf key val (key r) l := by
        rw [ih]
        split
        · rfl
        · rw [valuesOf_eq_nil (by assumption)]
          rfl
      rw [AList.lookup_insert, hold]
      simp [valuesOf]
    · rw [AList.lookup_insert_ne hne, ih]
      simp [valuesOf, hne, hne.symm]

theorem mem_keys_collect {k : α} : k ∈ (collect key val ∅ l).keys ↔ k ∈ l.map key := by
  rw [← AList.mem_keys, ← AList.lookup_isSome, lookup_collect]
  split <;> simp_all

/-- The entries of the map, taken in any order. -/
theorem summary_collect (f : α → List β → γ) {ks : List α}
    (hks : ks.Perm (collect key val ∅ l).keys) : Summary key val f l
      (ks.map fun k => (k, f k (((collect key val ∅ l).lookup k).getD []))) where
  nodup := by
    rw [List.map_map]
    exact (List.map_id ks).symm ▸ hks.nodup_iff.mpr (AList.keys_nodup _)
  keys := fun k => by
    rw [List.map_map]
    exact (List.map_id ks).symm ▸ hks.mem_iff.trans mem_keys_collect
  value := fun p hp => by
    obtain ⟨k, hk, rfl⟩ := List.mem_map.mp hp
    rw [lookup_collect, if_pos (mem_keys_collect.mp (hks.mem_iff.mp hk))]
    rfl

/-! ### Runs of a sorted list -/

section Runs

variable {α : Type*} [LinearOrder α] {key : ρ → α} {f : α → List β → γ}

/-- In a sorted list the records of the least key stand at the front. -/
theorem takeWhile_dropWhile_of_sorted {k : α} (h : l.Pairwise fun r r' => key r ≤ key r')
    (hk : ∀ r ∈ l, k ≤ key r) :
    (l.takeWhile fun r => decide (key r = k)) = (l.filter fun r => decide (key r = k)) ∧
      ∀ r, r ∈ (l.dropWhile fun r => decide (key r = k)) ↔ r ∈ l ∧ k < key r := by
  induction l with
  | nil => simp
  | cons a l ih =>
    obtain ⟨hle, hl⟩ := List.pairwise_cons.mp h
    obtain ⟨hka, hkl⟩ := List.forall_mem_cons.mp hk
    obtain ⟨htake, hdrop⟩ := ih hl hkl
    rcases hka.eq_or_lt with rfl | hlt
    · refine ⟨by simp [htake], fun r => ?_⟩
      rw [List.dropWhile_cons_of_pos (by simp), hdrop, List.mem_cons]
      refine ⟨fun ⟨hr, hlt⟩ => ⟨.inr hr, hlt⟩, ?_⟩
      rintro ⟨rfl | hr, hlt⟩
      · exact absurd hlt (lt_irrefl _)
      · exact ⟨hr, hlt⟩
    · have hall : ∀ r ∈ a :: l, k < key r := by
        rintro r (_ | ⟨_, hr⟩)
        · exact hlt
        · exact hlt.trans_le (hle r hr)
      refine ⟨?_, fun r => ?_⟩
      · rw [List.takeWhile_cons_of_neg (by simp [hlt.ne']), eq_comm, List.filter_eq_nil_iff]
        exact fun r hr => by simp [(hall r hr).ne']
      · rw [List.dropWhile_cons_of_neg (by simp [hlt.ne'])]
        exact ⟨fun hr => ⟨hr, hall r hr⟩, And.left⟩

/-- The runs of a sorted list have increasing keys, one for each key that occurs, and all its
    values. -/
theorem runs_spec (val : ρ → β) (h : l.Pairwise fun r r' => key r ≤ key r') :
    ((runs key val l).map Prod.fst).Pairwise (· < ·) ∧
      (∀ k, k ∈ (runs key val l).map Prod.fst ↔ k ∈ l.map key) ∧
      ∀ p ∈ runs key val l, p.2 = valuesOf key val p.1 l := by
  induction l using runs.induct key with
  | case1 => simp [runs]
  | case2 r l ih =>
    obtain ⟨hle, hl⟩ := List.pairwise_cons.mp h
    obtain ⟨htake, hdrop⟩ := takeWhile_dropWhile_of_sorted hl hle
    obtain ⟨hsorted, hkeys, hvalues⟩ := ih (hl.sublist (List.dropWhile_sublist _))
    -- the keys of the later runs are larger
    have hlater : ∀ k ∈ (runs key val (l.dropWhile fun r' => decide (key r' = key r))).map Prod.fst,
        key r < k := by
      intro k hk
      obtain ⟨r', hr', rfl⟩ := List.mem_map.mp ((hkeys k).mp hk)
      exact ((hdrop r').mp hr').2
    rw [runs]
    refine ⟨List.pairwise_cons.mpr ⟨hlater, hsorted⟩, fun k => ?_, fun p hp => ?_⟩
    · rw [List.map_cons, List.mem_cons, hkeys, List.map_cons, List.mem_cons]
      refine or_congr_right' fun hne => ⟨fun hk => ?_, fun hk => ?_⟩
      · exact ((List.dropWhile_sublist _).map key).subset hk
      · obtain ⟨r', hr', rfl⟩ := List.mem_map.mp hk
        exact List.mem_map_of_mem ((hdrop r').mpr ⟨hr', (hle r' hr').lt_of_ne (Ne.symm hne)⟩)
    · rcases List.mem_cons.mp hp with rfl | hp
      · simp [valuesOf, htake]
      · have hfront : p.1 ∉ (r :: l.takeWhile fun r' => decide (key r' = key r)).map key := by
          have hne := (hlater p.1 (List.mem_map_of_mem hp)).ne'
          intro hmem
          obtain ⟨r', hr', hk⟩ := List.mem_map.mp hmem
          rcases List.mem_cons.mp hr' with rfl | hr'
          · exact hne hk.symm
          · rw [htake] at hr'
            exact hne (hk.symm.trans (by simpa using (List.mem_filter.mp hr').2))
        calc p.2 = valuesOf key val p.1 (l.dropWhile fun r' => decide (key r' = key r)) :=
              hvalues p hp
          _ = valuesOf key val p.1 ((r :: l.takeWhile fun r' => decide (key r' = key r)) ++
                l.dropWhile fun r' => decide (key r' = key r)) := by
              rw [valuesOf_append, valuesOf_eq_nil hfront, List.nil_append]
          _ = valuesOf key val p.1 (r :: l) := by
              rw [List.cons_append, List.takeWhile_append_dropWhile]

theorem summary_runs (f : α → List β → γ) (h : l.Pairwise fun r r' => key r ≤ key r') :
    Summary key val f l ((runs key val l).map fun p => (p.1, f p.1 p.2)) := by
  obtain ⟨hsorted, hkeys, hvalues⟩ := runs_spec val h
  refine ⟨?_, fun k => ?_, fun p hp => ?_⟩
  · rw [List.map_map]
    exact hsorted.imp ne_of_lt
  · rw [List.map_map]
    exact hkeys k
  · obtain ⟨q, hq, rfl⟩ := List.mem_map.mp hp
    rw [hvalues q hq]

end Runs

end DistLabs.Grouping
