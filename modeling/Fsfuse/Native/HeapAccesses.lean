import Fsfuse.Native.BinaryHeap

/-!
# Accesses to the array of a binary heap

`src/binary_heap.c` once more, with every access to the array on record. Here the array has
whatever memory holds in every slot, and nothing is checked: a read gives what is there, of a
slot that has not been written or is not allocated too. The only things that have no result are
an overflow in the arithmetic of positions, and a loop that has used up its rounds.
-/

namespace Fsfuse.Native

/-- What an access does. -/
inductive AccessKind
  | read
  | write
  /-- `binary_heap_add` puts its entry behind the others. -/
  | put
deriving Repr, DecidableEq

/-- An access to a position of the array, with what is allocated at the time. -/
structure Access where
  kind : AccessKind
  pos : Nat
  allocated : Nat
deriving Repr, DecidableEq

/-- `struct _binary_heap_t`, with the accesses made to its array, the last one last. -/
structure TracedHeap (α : Type) where
  allocated : Nat
  used : Nat
  array : Nat → Kvp α
  accesses : List Access

namespace TracedHeap

variable {α : Type}

/-- `binary_heap_new`. -/
def new (array : Nat → Kvp α) : TracedHeap α := ⟨0, 0, array, []⟩

/-- An access is put on record. -/
def access (heap : TracedHeap α) (kind : AccessKind) (pos : Nat) : TracedHeap α :=
  { heap with accesses := heap.accesses ++ [⟨kind, pos, heap.allocated⟩] }

/-- `heap->array[pos]`, read. -/
def node (heap : TracedHeap α) (pos : Nat) : Kvp α × TracedHeap α :=
  (heap.array pos, heap.access .read pos)

/-- `heap->array[pos] = n`. -/
def store (heap : TracedHeap α) (kind : AccessKind) (pos : Nat) (n : Kvp α) : TracedHeap α :=
  { heap.access kind pos with array := Function.update heap.array pos n }

/-- The `SWAP` macro on two elements of the array. -/
def swap (heap : TracedHeap α) (x y : Nat) : TracedHeap α :=
  let (tmp, heap) := heap.node y
  let (xNode, heap) := heap.node x
  let heap := heap.store .write y xNode
  heap.store .write x tmp

/-- `ensure_space`. -/
def ensureSpace (heap : TracedHeap α) (space : Nat) : TracedHeap α :=
  if heap.allocated < space then { heap with allocated := max (heap.allocated * 2) space }
  else heap

/-- The loop of `move_up`, for at most `rounds` rounds. -/
def moveUpLoop (rounds : Nat) (heap : TracedHeap α) (targetPos : Nat) : Option (TracedHeap α) :=
  if 0 < targetPos then
    match rounds with
    | 0 => none
    | rounds + 1 => do
      let (targetNode, heap) := heap.node targetPos
      let parentPos ← BinaryHeap.parent targetPos
      let (parentNode, heap) := heap.node parentPos
      if targetNode.key ≥ parentNode.key then some heap
      else moveUpLoop rounds (heap.swap targetPos parentPos) parentPos
  else some heap

/-- `move_up`. -/
def moveUp (heap : TracedHeap α) (targetPos : Nat) : Option (TracedHeap α) :=
  moveUpLoop targetPos heap targetPos

/-- `binary_heap_add`. -/
def add (heap : TracedHeap α) (key : Int) (value : α) : Option (TracedHeap α) := do
  let heap := heap.ensureSpace (heap.used + 1)
  let heap := heap.store .put heap.used ⟨key, value⟩
  let heap ← heap.moveUp heap.used
  return { heap with used := heap.used + 1 }

/-- The loop of `move_down`, for at most `rounds` rounds. -/
def moveDownLoop (rounds : Nat) (heap : TracedHeap α) (targetPos : Nat) :
    Option (TracedHeap α) :=
  if targetPos < heap.used / 2 then
    match rounds with
    | 0 => none
    | rounds + 1 => do
      let (targetNode, heap) := heap.node targetPos
      let childLeftPos ← BinaryHeap.leftChild targetPos
      let (childLeftNode, heap) := heap.node childLeftPos
      let childRightPos ← BinaryHeap.rightChild targetPos
      let (childRightNode, heap) := heap.node childRightPos
      let (childPos, childNode) :=
        if childLeftPos > heap.used - 1 ∨ childLeftNode.key > childRightNode.key then
          (childRightPos, childRightNode)
        else
          (childLeftPos, childLeftNode)
      if targetNode.key ≤ childNode.key then some heap
      else moveDownLoop rounds (heap.swap targetPos childPos) childPos
  else some heap

/-- `move_down`. -/
def moveDown (heap : TracedHeap α) (targetPos : Nat) : Option (TracedHeap α) :=
  moveDownLoop heap.used heap targetPos

/-- `binary_heap_trypop`. -/
def trypop (heap : TracedHeap α) : Option (Option (Int × α) × TracedHeap α) :=
  if 0 < heap.used then do
    let (targetNode, heap) := heap.node 0
    let heap := { heap with used := heap.used - 1 }
    if 0 < heap.used then
      let (lastNode, heap) := heap.node heap.used
      let heap ← (heap.store .write 0 lastNode).moveDown 0
      return (some (targetNode.key, targetNode.value), heap)
    else
      return (some (targetNode.key, targetNode.value), heap)
  else some (none, heap)

end TracedHeap

end Fsfuse.Native
