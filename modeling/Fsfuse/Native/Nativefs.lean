import Fsfuse.Native.DirentryPath
import Fsfuse.Native.InodeMap

/-!
# The tree of direntries

The rest of `src/nativefs/direntry.c`: direntries are found by their inodes and by their names,
and a directory is given its children when they are first asked for.

An indexnode is a number here, and the copies of it are not counted. What an indexnode answers is
up to it, and what `realloc` makes of a listing is up to memory.
-/

namespace Fsfuse.Native

/-- The direntries that are in memory, and the inode map. -/
structure Nativefs (ι : Type) where
  des : Direntries ι
  map : InodeMap ι

/-- What an indexnode tells of one entry of a directory. -/
structure Entry where
  name : CStr
  type : ListingType
deriving DecidableEq

/-- What `realloc` makes of the listing of an entry that becomes a direntry. -/
structure Grown (ι : Type) where
  de : ι
  /-- whether it is no longer where the listing was -/
  moved : Bool
  /-- whether what `bzero` clears, a good deal further on, belongs to anything -/
  inUse : Bool
  /-- what there is in the last two fields, which `bzero` does not come to -/
  children : Option ι
  lookedForChildren : Bool

/-- What comes of asking for a listing: what `indexnode_tryget_listing` returns, and the entries
    found on the way. -/
structure Fetch (ι : Type) where
  rc : Int
  found : List (Entry × Grown ι)

/-- What indexnodes have under their paths. -/
abbrev Listings (ι : Type) := (in_ : Nat) → (path : List UInt8) → Fetch ι

namespace Nativefs

open Direntries

variable {ι : Type} [DecidableEq ι]

/-! ### By inode -/

/-- `inode_map_add`, which copies what it is given. -/
def inodeMapAdd (fs : Nativefs ι) (inode : Nat) (de : ι) : Except Fault (Nativefs ι) := do
  let des ← fs.des.direntryCopy de
  let map ← fs.map.inodeMapAdd inode de
  return ⟨des, map⟩

/-- `inode_map_get`, which copies what it finds. -/
def inodeMapGet (fs : Nativefs ι) (inode : Nat) : Except Fault (Nativefs ι × Option ι) := do
  let (des, de) ← fs.des.copyLink (← fs.map.inodeMapGet inode)
  return ({ fs with des }, de)

/-- `direntry_init`, with the place of the root. The map takes a copy of it, and the one that has
    been made is deleted. -/
def direntryInit (root : ι) : Except Fault (Nativefs ι) := do
  let des : Direntries ι := Function.update (fun _ => none) root (some direntryNewRoot)
  let fs ← inodeMapAdd ⟨des, ⟨[], 0, 2⟩⟩ fsfuseRootInode root
  return { fs with des := ← fs.des.direntryDelete root }

/-- `direntry_get_by_inode`. -/
def direntryGetByInode (fs : Nativefs ι) (ino : Nat) :
    Except Fault (Nativefs ι × Except Nat ι) := do
  let (fs, de) ← fs.inodeMapGet ino
  return (fs, de.elim (.error enoent) .ok)

/-! ### Children -/

/-- `direntry_from_listing`, for a listing that has been found, put on a list and taken from it. -/
def direntryFromListing (fs : Nativefs ι) (in_ : Nat) (entry : Entry) (grown : Grown ι) :
    Except Fault (Nativefs ι) := do
  if grown.inUse then throw .outOfBounds
  let (map, inode) := fs.map.inodeNextStep
  let node : Direntry ι :=
    { refCount := some 3, in_ := some in_, name := entry.name, type := entry.type, inode
      next := none, parent := none
      children := grown.children, lookedForChildren := grown.lookedForChildren }
  inodeMapAdd ⟨Function.update fs.des grown.de (some node), map⟩ inode grown.de

/-- `de->parent = parent` and `de->next = prev`. -/
def link (fs : Nativefs ι) (de parent : ι) (prev : Option ι) : Nativefs ι :=
  { fs with
    des := Function.update fs.des de
      ((fs.des de).map fun node => { node with parent := some parent, next := prev }) }

/-- The body of the loop in `direntries_from_listing_list`, with the chain made so far. -/
def addDirentry (in_ : Nat) (parent : ι) (s : Nativefs ι × Option ι) (found : Entry × Grown ι) :
    Except Fault (Nativefs ι × Option ι) := do
  let (fs, prev) := s
  let (entry, grown) := found
  let fs ← fs.direntryFromListing in_ entry grown
  -- `listing_delete` goes by the old pointer
  if grown.moved then throw .useAfterFree
  let des ← fs.des.direntryDelete grown.de
  return (link { fs with des } grown.de parent prev, some grown.de)

/-- `direntries_from_listing_list`, and `listing_list_delete` behind it. -/
def direntriesFromListingList (fs : Nativefs ι) (in_ : Nat) (found : List (Entry × Grown ι))
    (parent : ι) : Except Fault (Nativefs ι × Option ι) := do
  let (fs, dirents) ← found.foldlM (addDirentry in_ parent) (fs, none)
  -- the listings on the list are direntries by now
  let des ← found.foldlM (fun des entry => direntryDelete des entry.2.de) fs.des
  return ({ fs with des }, dirents)

/-- What `direntry_ensure_children` stores. -/
def setChildren (fs : Nativefs ι) (de : ι) (dirents : Option ι) : Nativefs ι :=
  { fs with
    des := Function.update fs.des de
      ((fs.des de).map fun node => { node with children := dirents, lookedForChildren := true }) }

/-- `direntry_ensure_children`, with what it returns. -/
def ensureChildren (fuel : Nat) (fs : Nativefs ι) (de : ι) (listings : Listings ι) :
    ExceptT Fault Option (Nativefs ι × Nat) := do
  let node ← done (fs.des.access de)
  if node.lookedForChildren then return (fs, eio)
  let (des, path) ← direntryGetPath fuel fs.des de
  -- `indexnode_copy`
  let in_ ← done (node.in_.elim (.error .nullPointer) .ok)
  -- the path is asked for without its leading slash
  let fetch := listings in_ (path.val.drop 1)
  -- `indexnode_tryget_listing` returns 0 for success, which is taken for a failure
  if fetch.rc ≠ 0 then
    let (fs, dirents) ← done (direntriesFromListingList { fs with des } in_ fetch.found de)
    return (fs.setChildren de dirents, 0)
  else
    -- the flag is set in this branch too, so a failure is not tried again
    return (setChildren { fs with des } de none, eio)

/-! ### By name -/

/-- The loop of `direntry_get_child_by_name`, for as long as there is fuel for one more child. It
    has a copy of the child that it has come to. -/
def findChild (name : CStr) : Nat → Direntries ι → Option ι →
    ExceptT Fault Option (Direntries ι × Option ι)
  | _, des, none => return (des, none)
  | 0, _, some _ => ExceptT.mk none
  | fuel + 1, des, some child => do
    let childName ← done (des.direntryGetName child)
    -- the copy of the child found goes to the caller
    if childName = name then return (des, some child)
    let (des, next) ← done (des.direntryGetNextSibling child)
    let des ← done (des.direntryDelete child)
    findChild name fuel des next

/-- `direntry_get_child_by_name`. -/
def direntryGetChildByName (fuel : Nat) (fs : Nativefs ι) (parent : Nat) (name : CStr)
    (listings : Listings ι) : ExceptT Fault Option (Nativefs ι × Except Nat ι) := do
  match ← done (fs.direntryGetByInode parent) with
  | (fs, .error rc) => return (fs, .error rc)
  | (fs, .ok de) =>
    -- the outcome is not looked at: a directory that cannot be listed has no children
    let (fs, _) ← fs.ensureChildren fuel de listings
    let (des, child) ← done (fs.des.direntryGetFirstChild de)
    let (des, child) ← findChild name fuel des child
    let des ← done (des.direntryDelete de)
    return ({ fs with des }, child.elim (.error enoent) .ok)

end Nativefs

end Fsfuse.Native
