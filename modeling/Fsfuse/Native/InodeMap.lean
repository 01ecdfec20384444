import Fsfuse.Native.Direntry

/-!
# The inode map

`src/nativefs/inode_map.c`, with the array it is kept in, and the threads that make
direntries: each is given an inode by `inode_next`, and registers its direntry under that
inode by `inode_map_add` some time later. The prototype in `inode_map.h` leaves the inode
out; it is the one of the direntry.
-/

namespace Fsfuse.Native

/-- `s_inode_map`, of which some slots may not have been written yet, with
    `s_inode_map_used` and `s_inode_next`. -/
structure InodeMap (δ : Type*) where
  slots : List (Option δ)
  used : Nat
  inodeNext : Nat
deriving Repr, DecidableEq

namespace InodeMap

variable {δ : Type*}

/-- `INODE_MAP_MOD`. -/
def inodeMapMod : Nat := 32

/-- `inode_map_add`. -/
def inodeMapAdd (map : InodeMap δ) (inode : Nat) (de : δ) : Except Fault (InodeMap δ) :=
  -- one step of growth, however far off the inode is
  let slots :=
    if inode ≥ map.slots.length then map.slots ++ List.replicate inodeMapMod none else map.slots
  if inode < slots.length then
    .ok { map with slots := slots.set inode (some de), used := inode + 1 }
  else .error .outOfBounds

/-- `inode_map_get`. -/
def inodeMapGet (map : InodeMap δ) (inode : Nat) : Except Fault (Option δ) :=
  if inode < map.used then
    match map.slots[inode]? with
    | some (some de) => .ok (some de)
    -- a slot that has not been written, or that there is not
    | some none | none => .error .outOfBounds
  else .ok none

/-- `inode_next`. -/
def inodeNextStep (map : InodeMap δ) : InodeMap δ × Nat :=
  ({ map with inodeNext := map.inodeNext + 1 }, map.inodeNext)

/-- The map, the threads that have been given an inode and not added their direntry yet, what
    has been added, and what has gone wrong. -/
structure State (δ τ : Type*) where
  map : InodeMap δ
  pending : τ → Option (Nat × δ)
  added : List (Nat × δ)
  fault : Option Fault

/-- The two steps of `direntry_from_listing`. -/
inductive Label (δ τ : Type*)
  | inodeNext (t : τ) (de : δ)
  | inodeMapAdd (t : τ)
deriving Repr, DecidableEq

namespace State

variable {τ : Type*} [DecidableEq τ]

/-- The state of the map behind `direntry_init`, in which the root has been added. Copies are not
    counted here. -/
def new (root : δ) : State δ τ where
  map := ⟨(List.replicate inodeMapMod none).set fsfuseRootInode (some root), 2, 2⟩
  pending := fun _ => none
  added := [(fsfuseRootInode, root)]
  fault := none

/-- One step of one of the threads. Nothing goes on after a fault. -/
def step (s : State δ τ) : Label δ τ → Option (State δ τ)
  | .inodeNext t de =>
    if s.fault = none ∧ (s.pending t).isNone then
      let (map, inode) := s.map.inodeNextStep
      some { s with map, pending := Function.update s.pending t (some (inode, de)) }
    else none
  | .inodeMapAdd t =>
    match s.pending t with
    | none => none
    | some (inode, de) =>
      if s.fault = none then
        match s.map.inodeMapAdd inode de with
        | .ok map =>
          some
            { map
              pending := Function.update s.pending t none
              added := s.added ++ [(inode, de)]
              fault := none }
        | .error fault => some { s with fault := some fault }
      else none

end State

end InodeMap

end Fsfuse.Native
