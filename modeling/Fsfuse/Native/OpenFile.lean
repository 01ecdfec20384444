import Fsfuse.Native.Direntry
import Fsfuse.Native.Downloader

/-!
# Open files

`src/fuse_methods/open.c`, `read.c` and `release.c`: the life of one file handle and of
the downloader it is given. The FUSE handlers and the steps of the downloader's thread
are the labels of one transition system. `fsfuse_release` leaves the thread alone (the
call that would stop it is commented out), so the thread goes on after it.
-/

namespace Fsfuse.Native

/-- A file handle: before `fsfuse_open`, while `fi->fh` holds the downloader, and after
    `fsfuse_release` has freed the handle. -/
inductive OpenFile
  | closed
  | opened (downloader : Downloader)
  | released (downloader : Downloader)

namespace OpenFile

/-- `EROFS`. -/
def erofs : Nat := 30

/-- `EISDIR`. -/
def eisdir : Nat := 21

/-- The `rc` of `fsfuse_open`, from the outcome of `direntry_get_by_inode`. A directory
    is complained of before a file opened for writing. -/
def openRc (lookup : Except Nat ListingType) (flags : Nat) : Nat :=
  match lookup with
  | .error rc => rc
  | .ok type =>
    let rc := if flags &&& 3 ≠ 0 then erofs else 0
    if type ≠ .file then eisdir else rc

/-- The size `fsfuse_read` asks the downloader for. The end of the range is cast to
    `unsigned` before it is compared with the size of the file. -/
def readSize (fileSize off size : Nat) : Nat :=
  if off ≥ fileSize then 0
  else if (off + size) % 2 ^ 32 ≥ fileSize then fileSize - off
  else size

/-- The request that `fsfuse_read` makes. -/
def readRequest (fileSize size off buf ctxt : Nat) : Request where
  start := off
  end_ := off + readSize fileSize off size
  buf := buf
  ctxt := ctxt

/-- A FUSE call on the handle, or a step of the downloader's thread. `open_` carries the
    indeterminate values the new thread starts with. -/
inductive Label
  | open_ (lookup : Except Nat ListingType) (flags : Nat) (rc : Int) (mem : Memory)
  | read (size off buf ctxt : Nat)
  | release
  | thread (l : Downloader.Label)

/-- A step of the downloader's thread; only `fsfuse_read` adds chunks. -/
def threadStep (fileSize : Nat) (d : Downloader) : Downloader.Label → Option Downloader
  | .chunkAdd _ => none
  | l => d.step fileSize l

/-- One step of a handle on a file of `fileSize` bytes. -/
def step (fileSize : Nat) : OpenFile → Label → Option OpenFile
  | .closed, .open_ lookup flags rc mem =>
    if openRc lookup flags = 0 then some (.opened (.new rc mem)) else some .closed
  -- the assertions of `downloader_chunk_add` are made on the range asked for
  | .opened d, .read size off buf ctxt =>
    (d.step fileSize (.chunkAdd (readRequest fileSize size off buf ctxt))).map .opened
  | .opened d, .release => if d.pc = .aborted then none else some (.released d)
  | .opened d, .thread l => (threadStep fileSize d l).map .opened
  -- the thread goes on with a handle that has been freed
  | .released d, .thread l => (threadStep fileSize d l).map .released
  | _, _ => none

end OpenFile

end Fsfuse.Native
