import Fsfuse.Native.Direntry

/-!
# Paths of direntries

`direntry_get_path` of `src/nativefs/direntry.c`: the names on the way up to the root, each
parent copied for as long as its own path is made.
-/

namespace Fsfuse.Native.Direntries

variable {ι : Type} [DecidableEq ι]

/-- A part of a computation that takes no fuel. -/
def done {α : Type} (x : Except Fault α) : ExceptT Fault Option α := ExceptT.mk (some x)

/-- `direntry_get_path_inner`, for as long as there is fuel for one more direntry. -/
def direntryGetPathInner : Nat → Direntries ι → ι → StringBuffer →
    ExceptT Fault Option (Direntries ι × StringBuffer)
  | 0, _, _, _ => ExceptT.mk none
  | fuel + 1, des, de, path => do
    let (des, parent) ← done (des.direntryGetParent de)
    let (des, path) ← match parent with
      | some parent => do
        let (des, path) ← direntryGetPathInner fuel des parent path
        let des ← done (des.direntryDelete parent)
        pure (des, path)
      | none => pure (des, path)
    let path ← done (des.direntryGetName de >>= path.append)
    let path ← done (path.append .slash)
    return (des, path)

/-- `direntry_get_path`. -/
def direntryGetPath (fuel : Nat) (des : Direntries ι) (de : ι) :
    ExceptT Fault Option (Direntries ι × CStr) := do
  let path ← done StringBuffer.new
  let (des, path) ← direntryGetPathInner fuel des de path
  let chars ← done path.commit
  return (des, .ofBytes chars)

end Fsfuse.Native.Direntries
