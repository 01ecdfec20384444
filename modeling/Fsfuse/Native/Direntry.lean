import Fsfuse.Native.StringBuffer

/-!
# Direntries

`struct _direntry_t` of `src/nativefs/direntry.c`, with what it has of `listing.c` and
`ref_count.c`: the copies that are counted of a direntry, and its links to other direntries. A
direntry that `direntry_new_root` makes has no reference count and no indexnode, only the `NULL`
that `calloc` leaves there.

Direntries are in memory until their last copy is deleted; a pointer may outlive its direntry.
-/

namespace Fsfuse.Native

/-- `listing_type_t`. -/
inductive ListingType
  | file
  | directory
deriving Repr, DecidableEq

/-- `FSFUSE_ROOT_INODE`. -/
def fsfuseRootInode : Nat := 1

/-- `ENOENT`. -/
def enoent : Nat := 2

/-- `EIO`. -/
def eio : Nat := 5

/-- `struct _direntry_t`, and the part of its listing that directories need. -/
structure Direntry (ι : Type) where
  refCount : Option UInt32
  /-- which indexnode it is from -/
  in_ : Option Nat
  name : CStr
  type : ListingType
  inode : Nat
  next : Option ι
  parent : Option ι
  children : Option ι
  lookedForChildren : Bool
deriving DecidableEq

/-- The direntries that are in memory. -/
abbrev Direntries (ι : Type) := ι → Option (Direntry ι)

/-- `direntry_new_root`. -/
def direntryNewRoot {ι : Type} : Direntry ι where
  refCount := none
  in_ := none
  name := .empty
  type := .directory
  inode := fsfuseRootInode
  next := none
  parent := none
  children := none
  lookedForChildren := false

/-- `ref_count_inc`. The counter is unsigned and wraps. -/
def refCountInc : Option UInt32 → Except Fault UInt32
  | none => .error .nullPointer
  | some refCount => if refCount = 0 then .error .assertion else .ok (refCount + 1)

/-- `ref_count_dec`. -/
def refCountDec : Option UInt32 → Except Fault UInt32
  | none => .error .nullPointer
  | some refCount => if refCount = 0 then .error .assertion else .ok (refCount - 1)

namespace Direntries

variable {ι : Type} [DecidableEq ι]

/-! ### Copies -/

/-- What a pointer to a direntry points to. -/
def access (des : Direntries ι) (de : ι) : Except Fault (Direntry ι) :=
  (des de).elim (.error .useAfterFree) .ok

/-- `direntry_copy`. -/
def direntryCopy (des : Direntries ι) (de : ι) : Except Fault (Direntries ι) := do
  let node ← des.access de
  let refc ← refCountInc node.refCount
  return Function.update des de (some { node with refCount := some refc })

/-- `direntry_delete`. -/
def direntryDelete (des : Direntries ι) (de : ι) : Except Fault (Direntries ι) := do
  let node ← des.access de
  let refc ← refCountDec node.refCount
  if refc = 0 then return Function.update des de none
  return Function.update des de (some { node with refCount := some refc })

/-- `direntry_delete`, so many times. -/
def direntryDeletes (des : Direntries ι) (de : ι) : Nat → Except Fault (Direntries ι)
  | 0 => .ok des
  | n + 1 => do (← des.direntryDelete de).direntryDeletes de n

/-! ### Links -/

/-- A copy of what a link leads to, if it leads anywhere. -/
def copyLink (des : Direntries ι) : Option ι → Except Fault (Direntries ι × Option ι)
  | some de => return (← des.direntryCopy de, some de)
  | none => return (des, none)

/-- `direntry_get_parent`. -/
def direntryGetParent (des : Direntries ι) (de : ι) :
    Except Fault (Direntries ι × Option ι) := do
  des.copyLink (← des.access de).parent

/-- `direntry_get_first_child`. -/
def direntryGetFirstChild (des : Direntries ι) (de : ι) :
    Except Fault (Direntries ι × Option ι) := do
  des.copyLink (← des.access de).children

/-- `direntry_get_next_sibling`. -/
def direntryGetNextSibling (des : Direntries ι) (de : ι) :
    Except Fault (Direntries ι × Option ι) := do
  des.copyLink (← des.access de).next

/-! ### Attributes -/

/-- `direntry_get_name`. -/
def direntryGetName (des : Direntries ι) (de : ι) : Except Fault CStr := do
  let node ← des.access de
  return node.name

/-- `direntry_get_type`. -/
def direntryGetType (des : Direntries ι) (de : ι) : Except Fault ListingType := do
  let node ← des.access de
  return node.type

/-- `direntry_get_inode`. -/
def direntryGetInode (des : Direntries ι) (de : ι) : Except Fault Nat := do
  let node ← des.access de
  return node.inode

end Direntries

end Fsfuse.Native
