import Mathlib

/-!
# Binary heap

`src/binary_heap.c` and `src/kvp.c`: the min-heap behind the downloader's queue of
chunks. The C array is a list of slots; a slot is `none` from the `realloc` that
allocates it until it is first written. Every function that touches the array is
partial: `none` stands for an access outside the allocation or to a slot never
written, and for an `int` overflow in the index arithmetic.

The two `while` loops take their bound on the number of rounds as an argument;
`Spec.BinaryHeapCorrect` shows that the bound the callers pass is never reached.
-/

namespace Fsfuse.Native

/-- `kvp_t`. Keys are C `int`s, which the heap only ever compares. -/
structure Kvp (α : Type) where
  key : Int
  value : α
deriving Repr, DecidableEq

/-- `struct _binary_heap_t`. The array always has the length its header records. -/
structure BinaryHeap (α : Type) where
  allocated : Nat
  used : Nat
  array : List (Option (Kvp α))
  length_array : array.length = allocated
deriving Repr, DecidableEq

namespace BinaryHeap

variable {α : Type}

/-- `binary_heap_new`: `calloc` leaves an empty heap without an array. -/
def new : BinaryHeap α := ⟨0, 0, [], rfl⟩

/-- `heap->array[pos]`, read. -/
def node (heap : BinaryHeap α) (pos : Nat) : Option (Kvp α) :=
  heap.array[pos]?.join

/-- `heap->array[pos] = n`. -/
def store (heap : BinaryHeap α) (pos : Nat) (n : Kvp α) : Option (BinaryHeap α) :=
  if pos < heap.allocated then
    some { heap with
      array := heap.array.set pos (some n)
      length_array := by rw [List.length_set, heap.length_array] }
  else none

/-- The `SWAP` macro on two elements of the array. -/
def swap (heap : BinaryHeap α) (x y : Nat) : Option (BinaryHeap α) := do
  let tmp ← heap.node y
  let xNode ← heap.node x
  let heap ← heap.store y xNode
  heap.store x tmp

/-- `ensure_space`. -/
def ensureSpace (heap : BinaryHeap α) (space : Nat) : BinaryHeap α :=
  if heap.allocated < space then
    -- `realloc` leaves the new slots indeterminate
    let newSpace := max (heap.allocated * 2) space
    { heap with
      array := heap.array ++ List.replicate (newSpace - heap.allocated) none
      allocated := newSpace
      length_array := by
        rw [List.length_append, List.length_replicate, heap.length_array]; omega }
  else heap

/-- A position as an `int`: `none` past `INT_MAX`. -/
def asInt (pos : Nat) : Option Nat :=
  if pos < 2 ^ 31 then some pos else none

/-- `parent`. -/
def parent (pos : Nat) : Option Nat := do
  let node ← asInt pos
  return (node - 1) / 2

/-- `left_child`. -/
def leftChild (pos : Nat) : Option Nat := do
  let node ← asInt pos
  asInt (2 * node + 1)

/-- `right_child`. -/
def rightChild (pos : Nat) : Option Nat := do
  let node ← asInt pos
  asInt (2 * node + 2)

/-- The loop of `move_up`, for at most `rounds` rounds. -/
def moveUpLoop (rounds : Nat) (heap : BinaryHeap α) (targetPos : Nat) : Option (BinaryHeap α) :=
  if 0 < targetPos then
    match rounds with
    | 0 => none
    | rounds + 1 => do
      let targetNode ← heap.node targetPos
      let parentPos ← parent targetPos
      let parentNode ← heap.node parentPos
      -- the heap condition holds from here up
      if targetNode.key ≥ parentNode.key then
        some heap
      else
        let heap ← heap.swap targetPos parentPos
        moveUpLoop rounds heap parentPos
  else some heap

/-- `move_up`. -/
def moveUp (heap : BinaryHeap α) (targetPos : Nat) : Option (BinaryHeap α) :=
  moveUpLoop targetPos heap targetPos

/-- `binary_heap_add`. -/
def add (heap : BinaryHeap α) (key : Int) (value : α) : Option (BinaryHeap α) := do
  let heap := heap.ensureSpace (heap.used + 1)
  let heap ← heap.store heap.used ⟨key, value⟩
  let heap ← heap.moveUp heap.used
  return { heap with used := heap.used + 1 }

/-- The loop of `move_down`, for at most `rounds` rounds. The right child is read
    before it is known to be live. -/
def moveDownLoop (rounds : Nat) (heap : BinaryHeap α) (targetPos : Nat) : Option (BinaryHeap α) :=
  if targetPos < heap.used / 2 then
    match rounds with
    | 0 => none
    | rounds + 1 => do
      let targetNode ← heap.node targetPos
      let childLeftPos ← leftChild targetPos
      let childLeftNode ← heap.node childLeftPos
      let childRightPos ← rightChild targetPos
      let childRightNode ← heap.node childRightPos
      let (childPos, childNode) :=
        -- the smaller child, or the right one when there is no left one
        if childLeftPos > heap.used - 1 ∨ childLeftNode.key > childRightNode.key then
          (childRightPos, childRightNode)
        else
          (childLeftPos, childLeftNode)
      if targetNode.key ≤ childNode.key then
        some heap
      else
        let heap ← heap.swap targetPos childPos
        moveDownLoop rounds heap childPos
  else some heap

/-- `move_down`. -/
def moveDown (heap : BinaryHeap α) (targetPos : Nat) : Option (BinaryHeap α) :=
  moveDownLoop heap.used heap targetPos

/-- `binary_heap_trypop`: the entry taken (`none` where the C function returns 0) and
    the heap left behind. -/
def trypop (heap : BinaryHeap α) : Option (Option (Int × α) × BinaryHeap α) :=
  if 0 < heap.used then do
    let targetNode ← heap.node 0
    let heap := { heap with used := heap.used - 1 }
    if 0 < heap.used then
      -- the last entry takes the place of the first, and moves down from there
      let lastNode ← heap.node heap.used
      let heap ← heap.store 0 lastNode
      let heap ← heap.moveDown 0
      return (some (targetNode.key, targetNode.value), heap)
    else
      return (some (targetNode.key, targetNode.value), heap)
  else some (none, heap)

/-- The assertion of `binary_heap_delete`. -/
def deletable (heap : BinaryHeap α) : Bool := heap.used == 0

end BinaryHeap

end Fsfuse.Native
