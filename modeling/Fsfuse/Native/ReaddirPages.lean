import Fsfuse.Native.FuseMethods

/-!
# The pages of readdir

`dirbuf_add` and the reply of `fsfuse_readdir`, of `src/fuse_methods/readdir.c`: the bytes that
the entries of a directory come to, and the part of them that is sent.
-/

namespace Fsfuse.Native

/-- What `fuse_add_direntry` is told of an entry. Of the `struct stat` it takes the inode and the
    type. -/
structure Dirent where
  name : List UInt8
  ino : Nat
  type : ListingType
  off : Nat
deriving Repr, DecidableEq

/-- `fuse_add_direntry`: what it returns for a name without a buffer, and what it writes into
    one that has room. -/
structure FuseAddDirentry where
  size : List UInt8 → Nat
  write : Dirent → List UInt8

namespace Nativefs

open Direntries

/-- What `dirbuf_add` writes. The length of the buffer is `*size`. -/
def dirbufWrite (fuse : FuseAddDirentry) (buf : List UInt8)
    (entry : List UInt8 × Nat × ListingType) : List UInt8 :=
  let (name, ino, type) := entry
  -- the offset of an entry is the size of the buffer behind it
  let size := buf.length + fuse.size name
  buf ++ fuse.write ⟨name, ino, type, size⟩

/-- What `fsfuse_readdir` replies with the buffer it has filled. -/
def readdirReply (buf : List UInt8) (size off : Nat) : Except Fault (List UInt8) :=
  -- `(unsigned)off`
  if off % 2 ^ 32 < buf.length then
    -- behind the end of the buffer, the unsigned difference of the two is a large number
    if off ≤ buf.length then .ok ((buf.drop off).take (min (buf.length - off) size))
    else .error .outOfBounds
  else .ok []

/-- `fsfuse_readdir`, with its reply. -/
def fsfuseReaddirPage {ι : Type} [DecidableEq ι] (fuse : FuseAddDirentry) (fuel : Nat)
    (fs : Nativefs ι) (de : ι) (listings : Listings ι) (size off : Nat) :
    ExceptT Fault Option (Nativefs ι × List UInt8) := do
  let (fs, entries) ← fs.fsfuseReaddir fuel de listings
  let reply ← done (readdirReply (entries.foldl (dirbufWrite fuse) []) size off)
  return (fs, reply)

end Nativefs

end Fsfuse.Native
