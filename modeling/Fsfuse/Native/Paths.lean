import Fsfuse.Native.StringBuffer

/-!
# Paths

`fsfuse_dirname`, `fsfuse_basename` and `path_combine` of `src/utils.c`, with the characters
that they read of their arguments on record. The makefile does not define `_GNU_SOURCE`, so
that `memrchr` is the macro for `strrchr`.
-/

namespace Fsfuse.Native

/-- A `const char *`: the string, and what memory has before it and behind its NUL. -/
structure PlacedStr where
  str : CStr
  around : Int → UInt8

/-- A character that is read of an argument: its index, and the length of the argument. -/
structure CharRead where
  index : Int
  length : Nat
deriving Repr, DecidableEq

namespace PlacedStr

/-- The character at an index. -/
def char (s : PlacedStr) (i : Int) : UInt8 :=
  if 0 ≤ i ∧ i ≤ s.str.val.length then s.str.val.getD i.toNat 0 else s.around i

/-- A character is read. -/
def reads (s : PlacedStr) (i : Int) : CharRead := ⟨i, s.str.val.length⟩

/-- The characters from an index on, as `memcpy` copies them. -/
def copied (s : PlacedStr) (i : Int) (n : Nat) : List UInt8 :=
  (List.range n).map fun (k : Nat) => s.char (i + k)

/-- The characters from an index on are read. -/
def copyReads (s : PlacedStr) (i : Int) (n : Nat) : List CharRead :=
  (List.range n).map fun (k : Nat) => s.reads (i + k)

/-- The string and its NUL are read, by one of the string functions. -/
def strReads (s : PlacedStr) : List CharRead := s.copyReads 0 (s.str.val.length + 1)

end PlacedStr

/-- `strrchr`, by the index of what it points to. -/
def strrchr (c : UInt8) : List UInt8 → Option Nat
  | [] => none
  | d :: s =>
    match strrchr c s with
    | some i => some (i + 1)
    | none => if d = c then some 0 else none

/-- The string that a block starts with. -/
def blockStr (block : Block UInt8) : Except Fault CStr :=
  (block.readWhile (· ≠ 0)).elim (.error .outOfBounds) fun bytes => .ok (.ofBytes bytes)

/-- Bytes are written to a block. -/
def blockWrite (block : Block UInt8) (pos : Nat) (bytes : List UInt8) :
    Except Fault (Block UInt8) :=
  (block.write pos bytes).elim (.error .outOfBounds) .ok

/-- A new block for some characters and a NUL, the characters copied to it, and the NUL. The
    size of the block is `unsigned`. -/
def copyTerminated (bytes : List UInt8) : Except Fault CStr := do
  let block ← blockWrite (.alloc ((bytes.length + 1) % 2 ^ 32)) 0 bytes
  let block ← blockWrite block bytes.length [0]
  blockStr block

/-- `fsfuse_dirname`. -/
def fsfuseDirname (path : PlacedStr) : Except Fault (CStr × List CharRead) :=
  match strrchr 47 path.str.val with
  | none => .ok (.empty, path.strReads)
  | some loc =>
    let dirLen := loc % 2 ^ 32
    if dirLen = 0 then .ok (.slash, path.strReads)
    else do
      let dir ← copyTerminated (path.copied 0 dirLen)
      return (dir, path.strReads ++ path.copyReads 0 dirLen)

/-- `fsfuse_basename`. -/
def fsfuseBasename (path : PlacedStr) : Except Fault (CStr × List CharRead) :=
  let pathLen := path.str.val.length
  -- `strlen` and `strrchr`
  let reads := path.strReads ++ path.strReads
  match strrchr 47 path.str.val with
  | none => .ok (path.str, reads ++ path.strReads)
  | some loc =>
    let baseLen := (pathLen - loc + 1) % 2 ^ 32
    if baseLen = 0 then .ok (.empty, reads)
    else do
      let base ← copyTerminated (path.copied (loc + 1) baseLen)
      return (base, reads ++ path.copyReads (loc + 1) baseLen)

/-- `path_combine`. -/
def pathCombine (a b : PlacedStr) : Except Fault (CStr × List CharRead) := do
  let aLen := a.str.val.length
  let bLen := b.str.val.length
  -- `aLen - 1` wraps for an empty string, and points to what is before it
  let addDelimiter := a.char (aLen - 1) ≠ 47
  if b.char 0 = 47 then throw .assertion
  let rLen := if addDelimiter then aLen + bLen + 1 else aLen + bLen
  let r ← blockWrite (.alloc (rLen + 1)) 0 (a.str.val ++ [0])
  let r ← if addDelimiter then blockWrite r aLen [47] else pure r
  let aLen := if addDelimiter then aLen + 1 else aLen
  if aLen + bLen ≠ rLen then throw .assertion
  let r ← blockWrite r aLen (b.str.val ++ [0])
  let r ← blockWrite r rLen [0]
  let str ← blockStr r
  return (str, a.strReads ++ b.strReads ++ [a.reads (a.str.val.length - 1), b.reads 0] ++
    a.strReads ++ b.strReads)

end Fsfuse.Native
