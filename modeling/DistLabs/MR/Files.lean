import DistLabs.MR.Worker

/-! # File names and directories

    The intermediate files are `mr-X-Y` in the temporary directory, which also has the files of
    `os.CreateTemp`, and the output files are `mr-out-Y`. `Glob` picks the files of a bucket by
    their names. -/

namespace DistLabs.MR

/-- `fmt.Sprintf("mr-%v-%v", mapId, i)`. -/
def mrName (mapId : ℤ) (i : ℕ) : String := "mr-" ++ toString mapId ++ "-" ++ toString i

/-- `fmt.Sprintf("mr-out-%v", fileId)`. -/
def outName (fileId : ℤ) : String := "mr-out-" ++ toString fileId

/-- The name matches the pattern `mr-*-reduceId`. -/
def globMatches (reduceId : ℕ) (name : String) : Bool :=
  "mr-".toList.isPrefixOf name.toList &&
    ("-" ++ toString reduceId).toList.isSuffixOf (name.toList.drop 3)

/-- What a file holds: the pairs that a decoder finds, or lines. -/
inductive File where
  | pairs (kva : List KeyValue)
  | lines (ls : List Line)
  deriving DecidableEq

abbrev Dir := AList fun _ : String => File

namespace Dir

/-- `os.Rename` within the directory or out of it, with the file it has moved. -/
def take (d : Dir) (name : String) : Option (File × Dir) :=
  (d.lookup name).map fun file => (file, d.erase name)

/-- The pairs a decoder reads from the file, none where there is no such file or it has none. -/
def decode (d : Dir) (name : String) : List KeyValue :=
  match d.lookup name with
  | some (.pairs kva) => kva
  | _ => []

/-- `filepath.Glob` for the pattern `mr-*-reduceId`. -/
def glob (d : Dir) (reduceId : ℕ) : List String :=
  (d.keys.insertionSort (· ≤ ·)).filter (globMatches reduceId)

end Dir

/-! ### Names -/

theorem dash_notMem_digits (n : ℕ) : '-' ∉ Nat.toDigits 10 n := by
  intro h
  have := Nat.isDigit_of_mem_toDigits (by decide) (by decide) h
  exact absurd this (by decide)

theorem toDigits_inj {m n : ℕ} (h : Nat.toDigits 10 m = Nat.toDigits 10 n) : m = n := by
  simpa using congrArg (fun digits => Nat.ofDigitChars 10 digits 0) h

theorem toList_toString_natCast (n : ℕ) : (toString (n : ℤ)).toList = Nat.toDigits 10 n := by
  show (Int.repr (n : ℤ)).toList = _
  simp [Int.repr]

theorem toList_mrName (x y : ℕ) : (mrName x y).toList =
    "mr-".toList ++ (Nat.toDigits 10 x ++ '-' :: Nat.toDigits 10 y) := by
  simp only [mrName, String.toList_append, toList_toString_natCast, List.append_assoc]
  simp

theorem mrName_inj {x y x' y' : ℕ} (h : mrName x y = mrName x' y') : x = x' ∧ y = y' := by
  have hlist := congrArg String.toList h
  rw [toList_mrName, toList_mrName, List.append_cancel_left_eq,
    List.append_cons_inj_of_notMem (dash_notMem_digits x) (dash_notMem_digits y)] at hlist
  exact ⟨toDigits_inj hlist.1, toDigits_inj hlist.2.2⟩

theorem outName_inj {y y' : ℕ} (h : outName y = outName y') : y = y' := by
  have hlist := congrArg String.toList h
  rw [outName, outName, String.toList_append, String.toList_append, List.append_cancel_left_eq,
    toList_toString_natCast, toList_toString_natCast] at hlist
  exact toDigits_inj hlist

/-- `Glob` finds the files of its own bucket. -/
theorem globMatches_mrName {x y y' : ℕ} : globMatches y (mrName x y') = true ↔ y' = y := by
  have hdrop : (mrName x y').toList.drop 3 = Nat.toDigits 10 x ++ '-' :: Nat.toDigits 10 y' := by
    rw [toList_mrName]
    rfl
  rw [globMatches, hdrop, toList_mrName, Bool.and_eq_true, List.isPrefixOf_iff_prefix,
    List.isSuffixOf_iff_suffix, String.toList_append, Nat.toString_eq_repr, Nat.toList_repr]
  constructor
  · rintro ⟨-, t, ht⟩
    have heq : Nat.toDigits 10 x ++ '-' :: Nat.toDigits 10 y' = t ++ '-' :: Nat.toDigits 10 y :=
      ht.symm
    rw [List.append_cons_inj_of_notMem (dash_notMem_digits x) (dash_notMem_digits y')] at heq
    exact toDigits_inj heq.2.2
  · rintro rfl
    exact ⟨List.prefix_append _ _, List.suffix_append _ _⟩

/-! ### Directories -/

namespace Dir

variable {d d' : Dir} {name name' : String} {file : File}

theorem mem_glob {y : ℕ} :
    name ∈ d.glob y ↔ (d.lookup name).isSome = true ∧ globMatches y name = true := by
  rw [glob, List.mem_filter, (List.perm_insertionSort _ _).mem_iff, ← AList.mem_keys,
    AList.lookup_isSome]

theorem nodup_glob (d : Dir) (y : ℕ) : (d.glob y).Nodup :=
  ((List.perm_insertionSort _ _).nodup_iff.mpr d.keys_nodup).filter _

end Dir

end DistLabs.MR
