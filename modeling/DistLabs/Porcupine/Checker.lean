import DistLabs.Porcupine.Bitset
import DistLabs.Schemes.Links
import DistLabs.Schemes.Slice

/-! # The linearizability checker (`porcupine/model.go`, `porcupine/checker.go`)

    `checkSingle` looks for an order of the operations of a history that the model accepts and that
    keeps operations apart that do not overlap. It goes through the calls and returns of the history
    in a doubly linked list, takes an operation that may come next out of the list, and puts it back
    when it leads nowhere; a cache keeps the sets of operations, with the state of the model, that
    have been tried.

    Inputs are of type `α` and outputs of type `β`; a value of the history is one or the other. A
    nil pointer that is followed, an index out of range and a value of the wrong type are `none`. -/

namespace DistLabs.Porcupine

variable {σ α β : Type}

/-! ### Histories and models -/

structure Operation (α β : Type) where
  clientId : ℤ
  input : α
  call : ℤ
  output : β
  ret : ℤ
  deriving DecidableEq, Inhabited

def NoPartition (history : List (Operation α β)) : List (List (Operation α β)) := [history]

def ShallowEqual [DecidableEq σ] (state1 state2 : σ) : Bool := state1 = state2

/-- The functions a history is checked with. A function that is left out has the default that
    `fillDefault` gives it. -/
structure Model (σ α β : Type) [DecidableEq σ] where
  partition : List (Operation α β) → List (List (Operation α β)) := NoPartition
  init : σ
  step : σ → α → β → Bool × σ
  equal : σ → σ → Bool := ShallowEqual

inductive EntryKind where | callEntry | returnEntry
  deriving DecidableEq

structure Entry (α β : Type) where
  kind : EntryKind
  value : α ⊕ β
  id : ℕ
  time : ℤ
  clientId : ℤ
  deriving DecidableEq

/-- `byTime`: of entries with the same time, calls come before returns. -/
def Entry.less (a b : Entry α β) : Bool :=
  if a.time ≠ b.time then a.time < b.time
  else a.kind = .callEntry ∧ b.kind = .returnEntry

/-- The call and the return of operation `id`. -/
def Operation.entries (elem : Operation α β) (id : ℕ) : List (Entry α β) :=
  [⟨.callEntry, .inl elem.input, id, elem.call, elem.clientId⟩,
    ⟨.returnEntry, .inr elem.output, id, elem.ret, elem.clientId⟩]

/-- `makeEntries`; `sort` is `sort.Sort(byTime(_))`, which is not stable. -/
def makeEntries (sort : List (Entry α β) → List (Entry α β)) (history : List (Operation α β)) :
    List (Entry α β) :=
  sort (history.zipIdx.flatMap fun p => p.1.entries p.2)

/-! ### The linked list -/

/-- The memory of the nodes, one map for each field. Nodes get the addresses 0, 1, ... in the order
    of their allocation; the links of a new node are nil. -/
structure Heap (α β : Type) where
  size : ℕ
  value : ℕ → Option (α ⊕ β)
  /-- the return of a call -/
  match_ : ℕ → Option ℕ
  id : ℕ → ℤ
  links : Links ℕ

namespace Heap

def empty : Heap α β := ⟨0, fun _ => none, fun _ => none, fun _ => 0, .empty⟩

/-- `&node{value: value, match: match, id: id}`; its address is the old size. -/
def alloc (h : Heap α β) (value : Option (α ⊕ β)) (match_ : Option ℕ) (id : ℤ) : Heap α β where
  size := h.size + 1
  value := Function.update h.value h.size value
  match_ := Function.update h.match_ h.size match_
  id := Function.update h.id h.size id
  links := h.links

end Heap

def insertBefore (l : Links ℕ) (n : ℕ) (mark : Option ℕ) : Option (Links ℕ) :=
  match mark with
  | none => some l
  | some _ => do
    let beforeMark := mark.bind l.prev
    let l ← l.setPrev mark (some n)
    let l ← l.setNext (some n) mark
    match beforeMark with
    | none => some l
    | some _ => do
      let l ← l.setPrev (some n) beforeMark
      l.setNext beforeMark (some n)

/-- `length`, of a list with at most `fuel` nodes. -/
def length (l : Links ℕ) : (fuel : ℕ) → (n : Option ℕ) → ℕ
  | fuel + 1, some n => length l fuel (l.next n) + 1
  | _, _ => 0

/-- The nodes made so far by `makeLinkedEntries`, the first of them, and the returns by id. -/
structure Linking (α β : Type) where
  heap : Heap α β
  root : Option ℕ
  match_ : ℕ → Option ℕ

/-- One round of `makeLinkedEntries`. -/
def linkEntry (elem : Entry α β) (s : Linking α β) : Option (Linking α β) := do
  let entry := s.heap.size
  match elem.kind with
  | .returnEntry =>
    let heap := s.heap.alloc (some elem.value) none elem.id
    let links ← insertBefore heap.links entry s.root
    some ⟨{ heap with links := links }, some entry, Function.update s.match_ elem.id (some entry)⟩
  | .callEntry =>
    let heap := s.heap.alloc (some elem.value) (s.match_ elem.id) elem.id
    let links ← insertBefore heap.links entry s.root
    some ⟨{ heap with links := links }, some entry, s.match_⟩

/-- `makeLinkedEntries`, which goes through the entries from the last to the first. -/
def makeLinkedEntries : List (Entry α β) → Option (Linking α β)
  | [] => some ⟨.empty, none, fun _ => none⟩
  | elem :: entries => do linkEntry elem (← makeLinkedEntries entries)

/-- `lift`; unlike the return, the call has a node behind it. -/
def lift (h : Heap α β) (entry : ℕ) : Option (Heap α β) := do
  let l ← h.links.setNext (h.links.prev entry) (h.links.next entry)
  let l ← l.setPrev (l.next entry) (l.prev entry)
  let l ← l.unlink (← h.match_ entry)
  some { h with links := l }

def unlift (h : Heap α β) (entry : ℕ) : Option (Heap α β) := do
  let l ← h.links.relink (← h.match_ entry)
  let l ← l.setNext (l.prev entry) (some entry)
  let l ← l.setPrev (l.next entry) (some entry)
  some { h with links := l }

/-! ### The search -/

/-- `map[uint64][]cacheEntry`; an entry is a set of operations with a state of the model. -/
abbrev Cache (σ : Type) := BitVec 64 → List (Bitset × σ)

def cacheContains [DecidableEq σ] (model : Model σ α β) (cache : Cache σ) (entry : Bitset × σ) :
    Bool :=
  (cache entry.1.hash).any fun elem => entry.1.equals elem.1 && model.equal entry.2 elem.2

/-- The variables of `checkSingle`; `calls` has the calls that are taken out, with the states
    before them. -/
structure Loop (σ α β : Type) where
  heap : Heap α β
  headEntry : ℕ
  entry : Option ℕ
  linearized : Bitset
  cache : Cache σ
  calls : List (ℕ × σ)
  state : σ
  /-- longest linearizable prefix that includes the given entry -/
  longest : List (Option (List ℤ))

/-- The ids of the calls that are taken out. -/
def Loop.seq (s : Loop σ α β) : List ℤ := s.calls.map fun v => s.heap.id v.1

/-- What `checkSingle` returns. -/
abbrev SingleResult := Bool × List (Option (List ℤ))

/-- `checkSingle` up to its loop. -/
def checkSingleInit [DecidableEq σ] (model : Model σ α β) (history : List (Entry α β)) :
    Option (Loop σ α β) := do
  let s ← makeLinkedEntries history
  let n := length s.heap.links s.heap.size s.root / 2
  let headEntry := s.heap.size
  let heap := s.heap.alloc none none (-1)
  let links ← insertBefore heap.links headEntry s.root
  some
    { heap := { heap with links := links }
      headEntry := headEntry
      entry := s.root
      linearized := Bitset.newBitset n
      cache := fun _ => []
      calls := []
      state := model.init
      longest := List.replicate n none }

/-- `longest[id] = &seq`, if there is no sequence of at least `callsLen` calls. -/
def recordSeq (callsLen : ℕ) (seq : List ℤ) (longest : List (Option (List ℤ))) (id : ℤ) :
    Option (List (Option (List ℤ))) := do
  match ← Slice.index longest id with
  | none => some (longest.set id.toNat (some seq))
  | some old => some (if callsLen > old.length then longest.set id.toNat (some seq) else longest)

/-- The loop over the calls that computes `longest`. -/
def recordLongest (s : Loop σ α β) : Option (List (Option (List ℤ))) :=
  s.seq.foldlM (recordSeq s.calls.length s.seq) s.longest

/-- One round of the loop of `checkSingle`: the next round, or the result. -/
def checkSingleStep [DecidableEq σ] (model : Model σ α β) (computePartial kill : Bool)
    (s : Loop σ α β) : Option (Loop σ α β ⊕ SingleResult) :=
  if s.heap.links.next s.headEntry = none then
    -- the complete linearization
    some (.inr (true, s.longest.map fun _ => some s.seq))
  else if kill then some (.inr (false, s.longest))
  else do
    let entry ← s.entry
    match s.heap.match_ entry with
    | some matching =>
      match s.heap.value entry, s.heap.value matching with
      | some (.inl input), some (.inr output) =>
        let (ok, newState) := model.step s.state input output
        if ok then
          let newLinearized ← s.linearized.set (s.heap.id entry).toNat
          if ¬ cacheContains model s.cache (newLinearized, newState) then
            let hash := newLinearized.hash
            let linearized ← s.linearized.set (s.heap.id entry).toNat
            let heap ← lift s.heap entry
            some (.inl { s with
              heap := heap
              entry := heap.links.next s.headEntry
              linearized := linearized
              cache := Function.update s.cache hash (s.cache hash ++ [(newLinearized, newState)])
              calls := s.calls ++ [(entry, s.state)]
              state := newState })
          else some (.inl { s with entry := s.heap.links.next entry })
        else some (.inl { s with entry := s.heap.links.next entry })
      | _, _ => none
    | none =>
      match s.calls.getLast? with
      | none => some (.inr (false, s.longest))
      | some callsTop =>
        let longest ← if computePartial then recordLongest s else some s.longest
        let linearized ← s.linearized.clear (s.heap.id callsTop.1).toNat
        let heap ← unlift s.heap callsTop.1
        some (.inl { s with
          heap := heap
          entry := heap.links.next callsTop.1
          linearized := linearized
          calls := s.calls.dropLast
          state := callsTop.2
          longest := longest })

/-- `fuel` rounds of the loop, as long as nobody asks to stop; `some none` if these are too few. -/
def checkSingleLoop [DecidableEq σ] (model : Model σ α β) (computePartial : Bool) :
    (fuel : ℕ) → Loop σ α β → Option (Option SingleResult)
  | 0, _ => some none
  | fuel + 1, s =>
    match checkSingleStep model computePartial false s with
    | none => none
    | some (.inr result) => some (some result)
    | some (.inl s') => checkSingleLoop model computePartial fuel s'

def checkSingle [DecidableEq σ] (model : Model σ α β) (history : List (Entry α β))
    (computePartial : Bool) (fuel : ℕ) : Option (Option SingleResult) := do
  checkSingleLoop model computePartial fuel (← checkSingleInit model history)

end DistLabs.Porcupine
