import Mathlib.Data.List.Sort
import RaftLabs.Lib.Links
import RaftLabs.Porcupine.Bitset

/-! The linearizability checker that the tests of the services run on what their clients saw.

`checkSingle` looks for an order of the operations that the model explains. It keeps the calls and
returns that are not explained yet in a doubly linked list, in the order of their times. It takes
the first call of the list that the model can step with, together with its return; at a return
whose call is still there it takes back the last call it took and goes on after it. A set of calls
that was reached before with the same state is not tried again.

The nodes of the list live in a heap, where a pointer is a number; links are kept apart from the
fields that never change. What would stop the program (a pointer that is nil, an index that is out
of range, a value of the wrong type) is `none`. -/
namespace RaftLabs.Porcupine
open Lib
variable {σ ι ο : Type}

/-- An operation with the times of its call and its return. -/
structure Operation (ι ο : Type) where
  clientId : Int
  input : ι
  call : Int
  output : ο
  ret : Int

/-- A model; fields that may be nil have a default. -/
structure Model (σ ι ο : Type) where
  partition : Option (List (Operation ι ο) → List (List (Operation ι ο)))
  init : σ
  step : σ → ι → ο → Bool × σ
  equal : Option (σ → σ → Bool)

def noPartition (history : List (Operation ι ο)) : List (List (Operation ι ο)) := [history]

def shallowEqual [DecidableEq σ] (state1 state2 : σ) : Bool := decide (state1 = state2)

/-- What a model can do: whether it can take an operation, and the state after it. -/
structure Automaton (σ ι ο : Type) where
  init : σ
  step : σ → ι → ο → Bool × σ

/-- A model whose fields are there. -/
structure FullModel (σ ι ο : Type) extends Automaton σ ι ο where
  partition : List (Operation ι ο) → List (List (Operation ι ο))
  equal : σ → σ → Bool

def fillDefault [DecidableEq σ] (model : Model σ ι ο) : FullModel σ ι ο where
  partition := model.partition.getD noPartition
  init := model.init
  step := model.step
  equal := model.equal.getD shallowEqual

/-! ### Entries -/

/-- The value of an entry: a call has an input, a return an output. -/
inductive EntryValue (ι ο : Type) where
  | call (input : ι)
  | ret (output : ο)

structure Entry (ι ο : Type) where
  value : EntryValue ι ο
  id : Nat
  time : Int
  clientId : Int

def Entry.isCall (e : Entry ι ο) : Bool :=
  match e.value with
  | .call _ => true
  | .ret _ => false

/-- By time; at the same time calls are before returns. -/
def less (a b : Entry ι ο) : Bool :=
  if a.time ≠ b.time then decide (a.time < b.time)
  else a.isCall && !b.isCall

/-- The two entries of operation `id`. -/
def entriesOf (elem : Operation ι ο) (id : Nat) : List (Entry ι ο) :=
  [⟨.call elem.input, id, elem.call, elem.clientId⟩, ⟨.ret elem.output, id, elem.ret, elem.clientId⟩]

/-- `sort.Sort`, which may put entries that are not less than each other in any order. -/
structure Sorter (ι ο : Type) where
  sort : List (Entry ι ο) → List (Entry ι ο)
  perm : ∀ entries, (sort entries).Perm entries
  ordered : ∀ entries, (sort entries).Pairwise fun a b => less b a = false

def makeEntries (sorter : Sorter ι ο) (history : List (Operation ι ο)) : List (Entry ι ο) :=
  sorter.sort (history.zipIdx.flatMap fun (elem, id) => entriesOf elem id)

/-! ### Nodes -/

abbrev Ptr := Nat

/-- The nodes that were allocated. `matching` is the return of a call. -/
structure Heap (ι ο : Type) where
  size : Nat
  value : Ptr → Option (EntryValue ι ο)
  matching : Ptr → Option Ptr
  id : Ptr → Int
  links : Links Ptr

namespace Heap

def empty : Heap ι ο where
  size := 0
  value := fun _ => none
  matching := fun _ => none
  id := fun _ => 0
  links := ⟨fun _ => none, fun _ => none⟩

variable (h : Heap ι ο)

/-- A new node without neighbours. -/
def alloc (value : Option (EntryValue ι ο)) (matching : Option Ptr) (id : Int) : Heap ι ο × Ptr :=
  ({ size := h.size + 1
     value := Function.update h.value h.size value
     matching := Function.update h.matching h.size matching
     id := Function.update h.id h.size id
     links := (h.links.setNext h.size none).setPrev h.size none }, h.size)

def next (n : Ptr) : Option Ptr := h.links.next n

def prev (n : Ptr) : Option Ptr := h.links.prev n

def setNext (n : Ptr) (p : Option Ptr) : Heap ι ο := { h with links := h.links.setNext n p }

def setPrev (n : Ptr) (p : Option Ptr) : Heap ι ο := { h with links := h.links.setPrev n p }

end Heap

def insertBefore (h : Heap ι ο) (n : Ptr) (mark : Option Ptr) : Heap ι ο :=
  match mark with
  | none => h
  | some mark =>
    let beforeMark := h.prev mark
    let h := (h.setPrev mark (some n)).setNext n (some mark)
    match beforeMark with
    | none => h
    | some beforeMark => (h.setPrev n (some beforeMark)).setNext beforeMark (some n)

/-- The nodes from `n` on, in at most so many rounds. -/
def lengthIn (h : Heap ι ο) : Nat → Option Ptr → Nat
  | 0, _ => 0
  | _, none => 0
  | rounds + 1, some n => lengthIn h rounds (h.next n) + 1

/-- A list has no more nodes than there are. -/
def length (h : Heap ι ο) (n : Option Ptr) : Nat := lengthIn h h.size n

/-- What `makeLinkedEntries` has built from the end of the entries. -/
structure Linking (ι ο : Type) where
  heap : Heap ι ο
  root : Option Ptr
  returns : Nat → Option Ptr

def linkEntry (elem : Entry ι ο) (l : Linking ι ο) : Linking ι ο :=
  match elem.value with
  | .ret _ =>
    let (heap, entry) := l.heap.alloc (some elem.value) none elem.id
    { heap := insertBefore heap entry l.root
      root := some entry
      returns := Function.update l.returns elem.id (some entry) }
  | .call _ =>
    let (heap, entry) := l.heap.alloc (some elem.value) (l.returns elem.id) elem.id
    { l with heap := insertBefore heap entry l.root, root := some entry }

def linkEntries (entries : List (Entry ι ο)) : Linking ι ο :=
  entries.foldr linkEntry ⟨.empty, none, fun _ => none⟩

def makeLinkedEntries (entries : List (Entry ι ο)) : Heap ι ο × Option Ptr :=
  ((linkEntries entries).heap, (linkEntries entries).root)

/-- Takes a call and its return out of the list. -/
def lift (h : Heap ι ο) (entry : Ptr) : Option (Heap ι ο) :=
  (h.prev entry).bind fun prev =>
  let h := h.setNext prev (h.next entry)
  (h.next entry).bind fun next =>
  let h := h.setPrev next (h.prev entry)
  (h.matching entry).bind fun m =>
  (h.prev m).map fun matchPrev =>
  let h := h.setNext matchPrev (h.next m)
  match h.next m with
  | none => h
  | some matchNext => h.setPrev matchNext (h.prev m)

/-- Puts them back. -/
def unlift (h : Heap ι ο) (entry : Ptr) : Option (Heap ι ο) :=
  (h.matching entry).bind fun m =>
  (h.prev m).bind fun matchPrev =>
  let h := h.setNext matchPrev (some m)
  let h :=
    match h.next m with
    | none => h
    | some matchNext => h.setPrev matchNext (some m)
  (h.prev entry).bind fun prev =>
  let h := h.setNext prev (some entry)
  (h.next entry).map fun next =>
  h.setPrev next (some entry)

/-! ### The search for one partition -/

structure CacheEntry (σ : Type) where
  linearized : Bitset
  state : σ

/-- The cache, by the hash of the set. -/
abbrev Cache (σ : Type) := BitVec 64 → List (CacheEntry σ)

def cacheContains (model : FullModel σ ι ο) (cache : Cache σ) (entry : CacheEntry σ) : Bool :=
  (cache entry.linearized.hash).any fun elem =>
    entry.linearized.equals elem.linearized && model.equal entry.state elem.state

/-- A call that was taken, and the state before it. -/
structure CallsEntry (σ : Type) where
  entry : Ptr
  state : σ

/-- For each operation the longest order found that has it. -/
abbrev Longest := List (Option (List Int))

/-- An order is remembered for operation `id` if none as long is known. -/
def improve (seq : List Int) (longest : Longest) (id : Int) : Option Longest :=
  (longest[id.toNat]?).map fun known =>
    match known with
    | none => longest.set id.toNat (some seq)
    | some l => if l.length < seq.length then longest.set id.toNat (some seq) else longest

/-- The variables of `checkSingle`. -/
structure CheckState (σ ι ο : Type) where
  heap : Heap ι ο
  headEntry : Ptr
  entry : Option Ptr
  linearized : Bitset
  cache : Cache σ
  calls : List (CallsEntry σ)
  longest : Longest
  state : σ

/-- `checkSingle` up to its loop. -/
def startSingle (model : FullModel σ ι ο) (history : List (Entry ι ο)) : CheckState σ ι ο :=
  let (heap, entry) := makeLinkedEntries history
  let n := length heap entry / 2
  let (heap, headEntry) := heap.alloc none none (-1)
  { heap := insertBefore heap headEntry entry
    headEntry := headEntry
    entry := entry
    linearized := newBitset n
    cache := fun _ => []
    calls := []
    longest := List.replicate n none
    state := model.init }

/-- A search that goes on, or has returned. -/
inductive Progress (σ ι ο : Type) where
  | running (s : CheckState σ ι ο)
  | returned (ok : Bool) (longest : Longest)

namespace CheckState
variable (s : CheckState σ ι ο)

/-- The operations taken so far, in their order. -/
def seq : List Int := s.calls.map fun v => s.heap.id v.entry

/-- The order found replaces shorter ones at its operations. -/
def recordPartial : Option Longest := s.seq.foldlM (improve s.seq) s.longest

/-- On to the next entry. -/
def skip (entry : Ptr) : CheckState σ ι ο := { s with entry := s.heap.next entry }

/-- Takes the call at `entry`. -/
def take (entry : Ptr) (newLinearized : Bitset) (newState : σ) : Option (CheckState σ ι ο) :=
  let hash := newLinearized.hash
  (s.linearized.set (s.heap.id entry).toNat).bind fun linearized =>
  (lift s.heap entry).map fun heap =>
  { s with
    cache := Function.update s.cache hash (s.cache hash ++ [⟨newLinearized, newState⟩])
    calls := s.calls ++ [⟨entry, s.state⟩]
    state := newState
    linearized := linearized
    heap := heap
    entry := heap.next s.headEntry }

/-- At a call: takes it if the model can step and this was not tried before. -/
def atCall (model : FullModel σ ι ο) (entry matching : Ptr) : Option (CheckState σ ι ο) :=
  match s.heap.value entry, s.heap.value matching with
  | some (.call input), some (.ret output) =>
    match model.step s.state input output with
    | (true, newState) =>
      (s.linearized.set (s.heap.id entry).toNat).bind fun newLinearized =>
      if cacheContains model s.cache ⟨newLinearized, newState⟩ then some (s.skip entry)
      else s.take entry newLinearized newState
    | (false, _) => some (s.skip entry)
  -- the model's `Step` asserts the types of its arguments
  | _, _ => none

/-- At a return: takes the last call back and goes on after it. -/
def backtrack (callsTop : CallsEntry σ) : Option (CheckState σ ι ο) :=
  (s.linearized.clear (s.heap.id callsTop.entry).toNat).bind fun linearized =>
  (unlift s.heap callsTop.entry).map fun heap =>
  { s with
    state := callsTop.state
    linearized := linearized
    calls := s.calls.dropLast
    heap := heap
    entry := heap.next callsTop.entry }

def atReturn (computePartial : Bool) : Option (Progress σ ι ο) :=
  match s.calls.getLast? with
  | none => some (.returned false s.longest)
  | some callsTop =>
    (if computePartial then s.recordPartial else some s.longest).bind fun longest =>
    ({ s with longest := longest }.backtrack callsTop).map .running

/-- The body of the loop for an entry, which is a call if it has a return. -/
def visit (model : FullModel σ ι ο) (computePartial : Bool) (entry : Ptr) :
    Option (Progress σ ι ο) :=
  match s.heap.matching entry with
  | some matching => (s.atCall model entry matching).map .running
  | none => s.atReturn computePartial

/-- One round of the loop; `kill` is what the load of the flag gives. -/
def iterate (model : FullModel σ ι ο) (computePartial kill : Bool) : Option (Progress σ ι ο) :=
  if s.heap.next s.headEntry = none then
    some (.returned true (s.longest.map fun _ => some s.seq))
  else if kill then some (.returned false s.longest)
  else s.entry.bind (s.visit model computePartial)

end CheckState

/-- The loop of `checkSingle`, with what the loads of the flag give, one for each round. -/
def checkLoop (model : FullModel σ ι ο) (computePartial : Bool) :
    List Bool → Progress σ ι ο → Option (Progress σ ι ο)
  | _, .returned ok longest => some (.returned ok longest)
  | [], .running s => some (.running s)
  | kill :: kills, .running s =>
    (s.iterate model computePartial kill).bind (checkLoop model computePartial kills)

def checkSingle (model : FullModel σ ι ο) (history : List (Entry ι ο)) (computePartial : Bool)
    (kills : List Bool) : Option (Progress σ ι ο) :=
  checkLoop model computePartial kills (.running (startSingle model history))

end RaftLabs.Porcupine
