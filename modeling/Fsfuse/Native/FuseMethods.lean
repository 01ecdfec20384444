import Fsfuse.Native.Nativefs
import Fsfuse.Native.OpenFile

/-!
# FUSE methods on direntries

`src/fuse_methods/`: `lookup.c`, `forget.c`, `open.c`, `read.c`, `release.c`, `opendir.c`,
`readdir.c`, `releasedir.c` and `getattr.c`, by what they do with direntries, and the run of a
mounted file system, in which the kernel keeps to the protocol: it forgets what it has looked up,
and only uses handles that it has not given back.
-/

namespace Fsfuse.Native

/-- `ENOTDIR`. -/
def enotdir : Nat := 20

namespace Nativefs

open Direntries

variable {ι : Type} [DecidableEq ι]

/-- `fsfuse_lookup`, with the inode it replies. The copy is usurped. -/
def fsfuseLookup (fuel : Nat) (fs : Nativefs ι) (parent : Nat) (name : CStr)
    (listings : Listings ι) : ExceptT Fault Option (Nativefs ι × Except Nat Nat) := do
  match ← fs.direntryGetChildByName fuel parent name listings with
  | (fs, .ok de) => return (fs, .ok (← done (fs.des.direntryGetInode de)))
  | (fs, .error rc) => return (fs, .error rc)

/-- `fsfuse_forget`. -/
def fsfuseForget (fs : Nativefs ι) (ino nlookup : Nat) : Except Fault (Nativefs ι) := do
  match ← fs.direntryGetByInode ino with
  | (fs, .ok de) =>
    -- the copy of the look up by inode, and one for each of the lookups forgotten
    let des ← fs.des.direntryDelete de
    return { fs with des := ← des.direntryDeletes de nlookup }
  | (fs, .error _) => return fs

/-- `downloader_new`. -/
def downloaderNew (fs : Nativefs ι) (de : ι) : Except Fault (Nativefs ι) :=
  return { fs with des := ← fs.des.direntryCopy de }

/-- `thread_delete`. -/
def threadDelete (fs : Nativefs ι) (de : ι) : Except Fault (Nativefs ι) :=
  return { fs with des := ← fs.des.direntryDelete de }

/-- `fsfuse_open`, with the direntry of the open file. -/
def fsfuseOpen (fs : Nativefs ι) (ino flags : Nat) :
    Except Fault (Nativefs ι × Except Nat ι) := do
  match ← fs.direntryGetByInode ino with
  | (fs, .error rc) => return (fs, .error rc)
  | (fs, .ok de) =>
    let rc := OpenFile.openRc (.ok (← fs.des.direntryGetType de)) flags
    -- the copy of the look up is kept for the open file; on an error it is kept as well
    if rc = 0 then return (← fs.downloaderNew de, .ok de)
    return (fs, .error rc)

/-- `fsfuse_read` of `de`: the size of the file is looked at, and no copy is taken. -/
def fsfuseRead (fs : Nativefs ι) (de : ι) : Except Fault (Nativefs ι) := do
  let _ ← fs.des.access de
  return fs

/-- `chunk_done`, for a read of `de`. -/
def chunkDone (fs : Nativefs ι) (de : ι) : Except Fault (Nativefs ι) :=
  return { fs with des := ← fs.des.direntryDelete de }

/-- `fsfuse_release`, of a file open on `de`. -/
def fsfuseRelease (fs : Nativefs ι) (de : ι) : Except Fault (Nativefs ι) :=
  return { fs with des := ← fs.des.direntryDeletes de 2 }

/-- `fsfuse_getattr`, with a file that is open on `de`, or with `NULL` for its handle. -/
def fsfuseGetattr (fs : Nativefs ι) (de : Option ι) : Except Fault (Nativefs ι) := do
  match de with
  | some de => return { fs with des := ← fs.des.direntryDelete de }
  | none => throw .nullPointer

/-- The `rc` of `fsfuse_opendir` for a direntry. What is not a directory is complained of
    before a directory opened for writing. -/
def opendirRc (type : ListingType) (flags : Nat) : Nat :=
  let rc := if flags &&& 3 ≠ 0 then OpenFile.erofs else 0
  if type ≠ .directory then enotdir else rc

/-- `fsfuse_opendir`, with the direntry of the open directory. -/
def fsfuseOpendir (fs : Nativefs ι) (ino flags : Nat) :
    Except Fault (Nativefs ι × Except Nat ι) := do
  match ← fs.direntryGetByInode ino with
  | (fs, .error rc) => return (fs, .error rc)
  | (fs, .ok de) =>
    let rc := opendirRc (← fs.des.direntryGetType de) flags
    -- here too the copy is kept when the error is replied
    return (fs, if rc = 0 then .ok de else .error rc)

/-- `fsfuse_releasedir`, of a directory open on `de`. -/
def fsfuseReleasedir (fs : Nativefs ι) (de : ι) : Except Fault (Nativefs ι) :=
  return { fs with des := ← fs.des.direntryDeletes de 2 }

/-! ### Reading a directory -/

/-- What `dirbuf_add` puts into the buffer: a name, an inode and a type. -/
abbrev Dirbuf := List (List UInt8 × Nat × ListingType)

/-- `dirbuf_add`; without a name it takes that of the direntry. -/
def dirbufAdd (des : Direntries ι) (buf : Dirbuf) (de : ι) (name : Option CStr) :
    Except Fault Dirbuf := do
  let name ← name.elim (des.direntryGetName de) .ok
  return buf ++ [(name.val, ← des.direntryGetInode de, ← des.direntryGetType de)]

/-- `"."`. -/
def dot : CStr := ⟨ascii ".", by decide⟩

/-- `".."`. -/
def dotDot : CStr := ⟨ascii "..", by decide⟩

/-- The part of `fsfuse_readdir` that adds `..`. -/
def readdirParent (des : Direntries ι) (buf : Dirbuf) (de : ι) :
    Except Fault (Direntries ι × Dirbuf) := do
  match ← des.direntryGetParent de with
  | (des, some parent) =>
    let buf ← dirbufAdd des buf parent dotDot
    return (← des.direntryDelete parent, buf)
  -- the root is its own parent
  | (des, none) => return (des, ← dirbufAdd des buf de dotDot)

/-- The loop of `fsfuse_readdir`, for as long as there is fuel for one more child. It has a copy
    of the child that it has come to. -/
def readdirChildren : Nat → Direntries ι → Dirbuf → Option ι →
    ExceptT Fault Option (Direntries ι × Dirbuf)
  | _, des, buf, none => return (des, buf)
  | 0, _, _, some _ => ExceptT.mk none
  | fuel + 1, des, buf, some child => do
    let buf ← done (dirbufAdd des buf child none)
    let (des, next) ← done (des.direntryGetNextSibling child)
    let des ← done (des.direntryDelete child)
    readdirChildren fuel des buf next

/-- `fsfuse_readdir` of `de`, with what it has put into its buffer. -/
def fsfuseReaddir (fuel : Nat) (fs : Nativefs ι) (de : ι) (listings : Listings ι) :
    ExceptT Fault Option (Nativefs ι × Dirbuf) := do
  let buf ← done (dirbufAdd fs.des [] de dot)
  let (des, buf) ← done (readdirParent fs.des buf de)
  let (fs, _) ← ensureChildren fuel { fs with des } de listings
  let (des, child) ← done (fs.des.direntryGetFirstChild de)
  let (des, buf) ← readdirChildren fuel des buf child
  return ({ fs with des }, buf)

end Nativefs

/-! ### A mounted file system -/

/-- `open_file_ctxt_t`, with what becomes of the open file: its release, the exit of its
    downloader's thread, and the reads that are still to be answered. -/
structure OpenFileCtxt (ι : Type) where
  de : ι
  released : Bool
  running : Bool
  reads : Nat
deriving Repr, DecidableEq

/-- An open directory. -/
structure OpenDir (ι : Type) where
  de : ι
  released : Bool
deriving Repr, DecidableEq

/-- A mounted file system: the direntries, the lookups of each inode that the kernel has
    not forgotten, and all that has been opened. -/
structure Mount (ι : Type) where
  fs : Nativefs ι
  nlookup : Nat → Nat
  files : List (OpenFileCtxt ι)
  dirs : List (OpenDir ι)

namespace Mount

open Direntries

/-- What the kernel asks for, and what the downloaders' threads do. Files and directories
    are named by their handles. -/
inductive Label (ι : Type)
  | lookup (parent : Nat) (name : CStr) (listings : Listings ι)
  | forget (ino nlookup : Nat)
  | open_ (ino flags : Nat)
  | read (fh : Nat)
  | chunkDone (fh : Nat)
  | threadDelete (fh : Nat)
  | release (fh : Nat)
  | opendir (ino flags : Nat)
  | readdir (fh : Nat) (listings : Listings ι)
  | releasedir (fh : Nat)
  | getattr (fh : Option Nat)

variable {ι : Type} [DecidableEq ι]

/-- The open file with the handle meets a condition. -/
def File (m : Mount ι) (fh : Nat) (p : OpenFileCtxt ι → Bool) : Prop := (m.files[fh]?).any p

/-- So does the open directory. -/
def Dir (m : Mount ι) (fh : Nat) (p : OpenDir ι → Bool) : Prop := (m.dirs[fh]?).any p

instance (m : Mount ι) (fh : Nat) (p : OpenFileCtxt ι → Bool) : Decidable (m.File fh p) :=
  inferInstanceAs (Decidable (_ = true))

instance (m : Mount ι) (fh : Nat) (p : OpenDir ι → Bool) : Decidable (m.Dir fh p) :=
  inferInstanceAs (Decidable (_ = true))

/-- The step can be made by the protocol. There is no inode 0. Reads are made while the
    downloader's thread runs, and it exits when it has answered them all. -/
def Enabled (m : Mount ι) : Label ι → Prop
  | .lookup parent _ _ => parent ≠ 0
  | .forget ino nlookup => nlookup ≠ 0 ∧ nlookup ≤ m.nlookup ino
  | .open_ ino _ | .opendir ino _ => ino ≠ 0
  | .read fh => m.File fh fun f => !f.released && f.running
  | .chunkDone fh => m.File fh fun f => f.reads != 0
  | .threadDelete fh => m.File fh fun f => f.running && f.reads == 0
  | .release fh | .getattr (some fh) => m.File fh fun f => !f.released
  | .readdir fh _ | .releasedir fh => m.Dir fh fun d => !d.released
  | .getattr none => True

instance (m : Mount ι) : DecidablePred m.Enabled
  | .lookup .. | .open_ .. | .opendir .. => inferInstanceAs (Decidable (_ ≠ _))
  | .forget .. => inferInstanceAs (Decidable (_ ∧ _))
  | .read fh | .chunkDone fh | .threadDelete fh | .release fh | .getattr (some fh) =>
    inferInstanceAs (Decidable (m.File fh _))
  | .readdir fh _ | .releasedir fh => inferInstanceAs (Decidable (m.Dir fh _))
  | .getattr none => isTrue trivial

/-- A successful lookup is remembered by the kernel. -/
def remember (nlookup : Nat → Nat) : Except Nat Nat → Nat → Nat
  | .ok ino => Function.update nlookup ino (nlookup ino + 1)
  | .error _ => nlookup

/-- What is done with an open file. -/
def withFile {α : Type} (m : Mount ι) (fh : Nat) (k : OpenFileCtxt ι → Except Fault α) :
    ExceptT Fault Option α :=
  ExceptT.mk ((m.files[fh]?).map k)

/-- What is done with an open directory. -/
def withDir {α : Type} (m : Mount ι) (fh : Nat) (k : OpenDir ι → ExceptT Fault Option α) :
    ExceptT Fault Option α :=
  (m.dirs[fh]?).elim (ExceptT.mk none) k

/-- What a step does. -/
def apply (fuel : Nat) (m : Mount ι) : Label ι → ExceptT Fault Option (Mount ι)
  | .lookup parent name listings => do
    let (fs, entry) ← m.fs.fsfuseLookup fuel parent name listings
    return { m with fs, nlookup := remember m.nlookup entry }
  | .forget ino nlookup => done do
    let fs ← m.fs.fsfuseForget ino nlookup
    return { m with fs, nlookup := Function.update m.nlookup ino (m.nlookup ino - nlookup) }
  | .open_ ino flags => done do
    match ← m.fs.fsfuseOpen ino flags with
    | (fs, .ok de) => return { m with fs, files := m.files ++ [⟨de, false, true, 0⟩] }
    | (fs, .error _) => return { m with fs }
  | .read fh => m.withFile fh fun f => do
    let fs ← m.fs.fsfuseRead f.de
    return { m with fs, files := m.files.set fh { f with reads := f.reads + 1 } }
  | .chunkDone fh => m.withFile fh fun f => do
    let fs ← m.fs.chunkDone f.de
    return { m with fs, files := m.files.set fh { f with reads := f.reads - 1 } }
  | .threadDelete fh => m.withFile fh fun f => do
    let fs ← m.fs.threadDelete f.de
    return { m with fs, files := m.files.set fh { f with running := false } }
  | .release fh => m.withFile fh fun f => do
    let fs ← m.fs.fsfuseRelease f.de
    return { m with fs, files := m.files.set fh { f with released := true } }
  | .opendir ino flags => done do
    match ← m.fs.fsfuseOpendir ino flags with
    | (fs, .ok de) => return { m with fs, dirs := m.dirs ++ [⟨de, false⟩] }
    | (fs, .error _) => return { m with fs }
  | .readdir fh listings => m.withDir fh fun d => do
    let (fs, _) ← m.fs.fsfuseReaddir fuel d.de listings
    return { m with fs }
  | .releasedir fh => m.withDir fh fun d => done do
    let fs ← m.fs.fsfuseReleasedir d.de
    return { m with fs, dirs := m.dirs.set fh { d with released := true } }
  | .getattr (some fh) => m.withFile fh fun f => do
    let fs ← m.fs.fsfuseGetattr (some f.de)
    return { m with fs }
  | .getattr none => done do
    let fs ← m.fs.fsfuseGetattr none
    return { m with fs }

/-- A step of the protocol that does not go wrong. -/
def step (fuel : Nat) (m : Mount ι) (a : Label ι) : Option (Mount ι) :=
  if m.Enabled a then (m.apply fuel a).run.bind Except.toOption else none

end Mount

end Fsfuse.Native
