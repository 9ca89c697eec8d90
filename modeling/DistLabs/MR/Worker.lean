import DistLabs.Schemes.Grouping
import Mathlib.Data.String.Basic

/-! # What workers compute

    The computations of `doMap` and `doReduce` in `mr/worker.go` and of `main/mrsequential.go`. The
    contents of a file is the sequence of pairs that was encoded into it, or the sequence of lines
    that was printed. `sort.Sort` is not stable, so each call of it comes with a sorting function of
    its own. Running `doMap` on every input and then `doReduce` on every bucket gives the lines of
    the sequential program. -/

namespace DistLabs.MR

open Grouping

structure KeyValue where
  key : String
  value : String
  deriving DecidableEq

/-- A key and its output. -/
abbrev Line := String × String

/-- How a line is printed. -/
def Line.text (l : Line) : String := l.1 ++ " " ++ l.2 ++ "\n"

/-- FNV-1a of the bytes of the key, without the sign bit. -/
def ihash (key : String) : ℕ :=
  let sum32 : UInt32 := key.toUTF8.data.toList.foldl (fun h b => (h ^^^ b.toUInt32) * 16777619)
    2166136261
  (sum32 &&& 0x7fffffff).toNat

example : ihash "a" = 1678518572 := by decide +kernel

/-- The function does what `sort.Sort(ByKey(kva))` guarantees. -/
def SortsByKey (sort : List KeyValue → List KeyValue) : Prop :=
  ∀ kva, (sort kva).Perm kva ∧ (sort kva).Pairwise fun a b => a.key ≤ b.key

/-- The pairs that go to reduce task `y`. -/
def bucket (numFiles y : ℕ) (kva : List KeyValue) : List KeyValue :=
  kva.filter fun kv => decide (ihash kv.key % numFiles = y)

/-- What the encoders of `writeIntoTmpFiles` have been given, by number of the file. -/
def writeIntoTmpFiles (numFiles : ℕ) (kva : List KeyValue) : List (List KeyValue) :=
  kva.foldl (fun files kv => files.modify (ihash kv.key % numFiles) (· ++ [kv]))
    (List.replicate numFiles [])

variable (mapf : String → String → List KeyValue) (reducef : String → List String → String)

/-- The pairs of all input files, each given with its contents. -/
def intermediate (inputFiles : List (String × String)) : List KeyValue :=
  inputFiles.foldl (fun kva file => kva ++ mapf file.1 file.2) []

def doMap (sort : List KeyValue → List KeyValue) (inputFiles : List (String × String))
    (numFiles : ℕ) : List (List KeyValue) :=
  writeIntoTmpFiles numFiles (sort (intermediate mapf inputFiles))

/-- The line of a key in `doReduce`. -/
def reduceKey (kva : AList fun _ : String => List String) (key : String) : Line :=
  (key, reducef key ((kva.lookup key).getD []))

/-- The keys of the map; Go ranges over them in any order, but `sort.Strings` sorts them. -/
def sortedKeys (kva : AList fun _ : String => List String) : List String :=
  kva.keys.insertionSort (· ≤ ·)

/-- The values of each key in the files read so far. -/
def decodeAll (files : List (List KeyValue)) : AList fun _ : String => List String :=
  files.foldl (collect KeyValue.key KeyValue.value) ∅

def doReduce (files : List (List KeyValue)) : List Line :=
  (sortedKeys (decodeAll files)).map (reduceKey reducef (decodeAll files))

def mrsequential (sort : List KeyValue → List KeyValue) (inputFiles : List (String × String)) :
    List Line :=
  (runs KeyValue.key KeyValue.value (sort (intermediate mapf inputFiles))).map
    fun run => (run.1, reducef run.1 run.2)

variable {mapf reducef} {numFiles y : ℕ} {kva : List KeyValue}

/-! ### Buckets -/

/-- File `y` gets the pairs of its bucket, in order. -/
theorem getElem?_writeIntoTmpFiles (hy : y < numFiles) :
    (writeIntoTmpFiles numFiles kva)[y]? = some (bucket numFiles y kva) := by
  induction kva using List.reverseRecOn with
  | nil => simp [writeIntoTmpFiles, bucket, hy]
  | append_singleton kva kv ih =>
    rw [writeIntoTmpFiles, List.foldl_append] at *
    simp only [List.foldl_cons, List.foldl_nil, List.getElem?_modify, ih, bucket,
      List.filter_append]
    by_cases h : ihash kv.key % numFiles = y <;> simp [h]

theorem bucket_perm {kva' : List KeyValue} (h : kva.Perm kva') :
    (bucket numFiles y kva).Perm (bucket numFiles y kva') :=
  h.filter _

theorem intermediate_eq (inputFiles : List (String × String)) :
    intermediate mapf inputFiles = inputFiles.flatMap fun file => mapf file.1 file.2 := by
  rw [intermediate, List.foldl_append_eq_append, List.nil_append, List.flatMap]

/-! ### Both programs summarise the intermediate pairs -/

theorem decodeAll_eq (files : List (List KeyValue)) :
    decodeAll files = collect KeyValue.key KeyValue.value ∅ files.flatten := by
  rw [decodeAll, collect, List.foldl_flatten]
  rfl

theorem summary_doReduce (hf : OrderFree reducef) {files : List (List KeyValue)}
    (h : files.flatten.Perm kva) :
    Summary KeyValue.key KeyValue.value reducef kva (doReduce reducef files) := by
  rw [doReduce, decodeAll_eq]
  exact (summary_collect reducef (List.perm_insertionSort _ _)).congr hf h

/-- The keys of an output file are strictly increasing. -/
theorem doReduce_increasing (files : List (List KeyValue)) :
    ((doReduce reducef files).map Prod.fst).Pairwise (· < ·) := by
  rw [doReduce, List.map_map]
  have hnodup : (sortedKeys (decodeAll files)).Pairwise (· ≠ ·) :=
    (List.perm_insertionSort _ _).nodup_iff.mpr (decodeAll files).keys_nodup
  have hsorted := (List.pairwise_insertionSort (· ≤ ·) (decodeAll files).keys).and hnodup
  exact (List.map_id _).symm ▸ hsorted.imp fun h => lt_of_le_of_ne h.1 h.2

theorem summary_mrsequential (hf : OrderFree reducef) {sort : List KeyValue → List KeyValue}
    (hsort : SortsByKey sort) (inputFiles : List (String × String)) :
    Summary KeyValue.key KeyValue.value reducef (intermediate mapf inputFiles)
      (mrsequential mapf reducef sort inputFiles) := by
  obtain ⟨hperm, hsorted⟩ := hsort (intermediate mapf inputFiles)
  exact (summary_runs reducef hsorted).congr hf hperm

/-- The pairs of the files `mr-X-y` of all map tasks are those of the bucket. -/
theorem flatten_mapFiles {sort : ℕ → List KeyValue → List KeyValue}
    (hsort : ∀ x, SortsByKey (sort x)) (inputFiles : List (String × String)) (hy : y < numFiles) :
    (inputFiles.zipIdx.map fun p => (doMap mapf (sort p.2) [p.1] numFiles).getD y []).flatten.Perm
      (bucket numFiles y (intermediate mapf inputFiles)) := by
  have hfile : ∀ p : (String × String) × ℕ, ((doMap mapf (sort p.2) [p.1] numFiles).getD y []).Perm
      (bucket numFiles y (mapf p.1.1 p.1.2)) := by
    intro p
    rw [doMap, List.getD_eq_getElem?_getD, getElem?_writeIntoTmpFiles hy, intermediate_eq]
    simpa using bucket_perm (hsort p.2 (mapf p.1.1 p.1.2)).1
  calc (inputFiles.zipIdx.map fun p => (doMap mapf (sort p.2) [p.1] numFiles).getD y []).flatten
      = inputFiles.zipIdx.flatMap fun p => (doMap mapf (sort p.2) [p.1] numFiles).getD y [] := rfl
    List.Perm _ (inputFiles.zipIdx.flatMap fun p => bucket numFiles y (mapf p.1.1 p.1.2)) :=
      (List.Perm.refl _).flatMap fun p _ => hfile p
    _ = (inputFiles.zipIdx.map Prod.fst).flatMap fun file =>
        bucket numFiles y (mapf file.1 file.2) := by rw [List.flatMap_map]
    _ = bucket numFiles y (intermediate mapf inputFiles) := by
      rw [List.zipIdx_map_fst, intermediate_eq, bucket, List.filter_flatMap]
      rfl

/-! ### Distributed and sequential -/

/-- Output files that summarise the buckets make up the sequential output. -/
theorem outputs_perm (hf : OrderFree reducef) {sort : List KeyValue → List KeyValue}
    (hsort : SortsByKey sort) {inputFiles : List (String × String)} {nReduce : ℕ} (hn : 1 ≤ nReduce)
    {outs : ℕ → List Line} (h : ∀ y < nReduce, Summary KeyValue.key KeyValue.value reducef
      (bucket nReduce y (intermediate mapf inputFiles)) (outs y)) :
    ((List.range nReduce).flatMap outs).Perm (mrsequential mapf reducef sort inputFiles) :=
  (Summary.flatMap (b := fun key => ihash key % nReduce) (fun _ => Nat.mod_lt _ hn) h).perm
    (summary_mrsequential hf hsort inputFiles)

/-- Running `doMap` once on each input and `doReduce` on each bucket gives the lines of
    `mrsequential`. The files of a bucket may be read in any order, and every sort may order equal
    keys in its own way. -/
theorem distributed_eq_sequential (hf : OrderFree reducef) (inputFiles : List (String × String))
    {nReduce : ℕ} (hn : 1 ≤ nReduce) (sort : ℕ → List KeyValue → List KeyValue)
    (hsort : ∀ x, SortsByKey (sort x)) {seqSort : List KeyValue → List KeyValue}
    (hseq : SortsByKey seqSort) {files : ℕ → List (List KeyValue)}
    (hfiles : ∀ y < nReduce, (files y).Perm
      (inputFiles.zipIdx.map fun p => (doMap mapf (sort p.2) [p.1] nReduce).getD y [])) :
    ((List.range nReduce).flatMap fun y => doReduce reducef (files y)).Perm
      (mrsequential mapf reducef seqSort inputFiles) ∧
    (((List.range nReduce).flatMap fun y => doReduce reducef (files y)).map Line.text).Perm
      ((mrsequential mapf reducef seqSort inputFiles).map Line.text) ∧
    (∀ y < nReduce, ∀ key, key ∈ (doReduce reducef (files y)).map Prod.fst ↔
      ihash key % nReduce = y ∧ ∃ file ∈ inputFiles, ∃ kv ∈ mapf file.1 file.2, kv.key = key) ∧
    ∀ y < nReduce, ((doReduce reducef (files y)).map Prod.fst).Pairwise (· < ·) := by
  have hsum : ∀ y < nReduce, Summary KeyValue.key KeyValue.value reducef
      (bucket nReduce y (intermediate mapf inputFiles)) (doReduce reducef (files y)) :=
    fun y hy => summary_doReduce hf ((hfiles y hy).flatten.trans (flatten_mapFiles hsort _ hy))
  have hperm := outputs_perm hf hseq hn hsum
  refine ⟨hperm, hperm.map _, fun y hy key => ?_, fun y _ => doReduce_increasing _⟩
  rw [(hsum y hy).keys, bucket, intermediate_eq]
  constructor
  · intro hk
    obtain ⟨kv, hkv, rfl⟩ := List.mem_map.mp hk
    obtain ⟨hmem, hy⟩ := List.mem_filter.mp hkv
    obtain ⟨file, hfile, hkv⟩ := List.mem_flatMap.mp hmem
    exact ⟨of_decide_eq_true hy, file, hfile, kv, hkv, rfl⟩
  · rintro ⟨rfl, file, hfile, kv, hkv, rfl⟩
    exact List.mem_map_of_mem (List.mem_filter.mpr
      ⟨List.mem_flatMap.mpr ⟨file, hfile, hkv⟩, decide_eq_true rfl⟩)

theorem sortsByKey_insertionSort :
    SortsByKey (List.insertionSort fun a b : KeyValue => a.key ≤ b.key) := by
  have htotal : Std.Total fun a b : KeyValue => a.key ≤ b.key := ⟨fun a b => le_total a.key b.key⟩
  have htrans : IsTrans KeyValue fun a b => a.key ≤ b.key := ⟨fun _ _ _ => le_trans⟩
  exact fun kva => ⟨List.perm_insertionSort _ kva, List.pairwise_insertionSort _ kva⟩

/-- A line of text as one pair for each word. -/
def spaceWords (_ contents : String) : List KeyValue := (contents.splitOn " ").map (⟨·, "1"⟩)

def countValues (_ : String) (values : List String) : String := toString values.length

theorem orderFree_countValues : OrderFree countValues := fun _ _ _ hperm => by
  rw [countValues, countValues, hperm.length_eq]

theorem distributed_eq_sequential_word_count :
    ((List.range 2).flatMap fun y => doReduce countValues
      ([("x", "b a b"), ("y", "a c")].zipIdx.map fun p =>
        (doMap spaceWords (List.insertionSort fun a b => a.key ≤ b.key) [p.1] 2).getD y [])).Perm
      (mrsequential spaceWords countValues (List.insertionSort fun a b => a.key ≤ b.key)
        [("x", "b a b"), ("y", "a c")]) :=
  (distributed_eq_sequential orderFree_countValues _ (by decide)
    (fun _ => List.insertionSort fun a b => a.key ≤ b.key) (fun _ => sortsByKey_insertionSort)
    sortsByKey_insertionSort fun _ _ => List.Perm.refl _).1

end DistLabs.MR
