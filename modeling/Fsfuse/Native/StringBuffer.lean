import Fsfuse.ForStd.Block
import Fsfuse.Native.CString

/-!
# String buffers

`src/string_buffer.c`. The header records the size of the memory that is allocated for the
string, which is also the size that memory has here. What `vsnprintf` makes of a format and
its arguments is given as a text, which may have a NUL in it (from a `%c`).
-/

namespace Fsfuse.Native

/-- What a `const char *` points to: the bytes before its NUL. -/
abbrev CStr := {s : List UInt8 // 0 ∉ s}

namespace CStr

/-- `""`. -/
def empty : CStr := ⟨[], List.not_mem_nil⟩

/-- `"/"`. -/
def slash : CStr := ⟨ascii "/", by decide⟩

/-- The string at the start of some bytes. -/
def ofBytes (bytes : List UInt8) : CStr :=
  ⟨cString bytes, fun h => by simpa using List.mem_takeWhile_imp h⟩

end CStr

/-- `struct _string_buffer_t`. -/
structure StringBuffer where
  capacity : Nat
  length : Nat
  s : Block UInt8
  length_s : s.length = capacity

namespace StringBuffer

/-- Bytes written to `s` from a position on. -/
def write (sb : StringBuffer) (pos : Nat) (bytes : List UInt8) : Except Fault StringBuffer :=
  match h : sb.s.write pos bytes with
  | some s => .ok { sb with s, length_s := (Block.length_write h).trans sb.length_s }
  | none => .error .outOfBounds

/-- `string_buffer_from_chars`. -/
def fromChars (string : CStr) : Except Fault StringBuffer :=
  let len := string.val.length
  let ptr : StringBuffer := ⟨len + 1, len, .alloc (len + 1), Block.length_alloc (len + 1)⟩
  ptr.write 0 (string.val ++ [0])

/-- `string_buffer_new`. -/
def new : Except Fault StringBuffer := fromChars .empty

/-- `string_buffer_ensure_capacity`. -/
def ensureCapacity (sb : StringBuffer) (cap : Nat) : StringBuffer :=
  -- for the NUL
  let cap := cap + 1
  if sb.capacity < cap then
    { sb with capacity := cap, s := sb.s.resize cap, length_s := Block.length_resize sb.s cap }
  else sb

/-- `string_buffer_append`. -/
def append (sb : StringBuffer) (string : CStr) : Except Fault StringBuffer := do
  let len := string.val.length
  let sb := sb.ensureCapacity (sb.length + len)
  let sb ← sb.write sb.length (string.val ++ [0])
  return { sb with length := sb.length + len }

/-- `vsnprintf` to `s`: as much of the text as there is room for, and the length of all of
    it, if that is an `int`. -/
def vsnprintf (sb : StringBuffer) (text : List UInt8) : Except Fault (StringBuffer × Int) := do
  let outputSize : Int := if text.length < 2 ^ 31 then text.length else -1
  if sb.capacity = 0 then return (sb, outputSize)
  let sb ← sb.write 0 (text.take (sb.capacity - 1) ++ [0])
  return (sb, outputSize)

/-- `string_buffer_printf`. -/
def printf (sb : StringBuffer) (text : List UInt8) : Except Fault StringBuffer := do
  let (sb, outputSize) ← sb.vsnprintf text
  if outputSize < 0 then throw .assertion
  if outputSize.toNat ≥ sb.capacity then
    let (sb, outputSize) ← (sb.ensureCapacity outputSize.toNat).vsnprintf text
    if ¬ (outputSize ≥ 0 ∧ outputSize.toNat < sb.capacity) then throw .assertion
    return { sb with length := outputSize.toNat }
  else return { sb with length := outputSize.toNat }

/-- What is read of a `string_buffer_peek`. -/
def peek (sb : StringBuffer) : Except Fault (List UInt8) :=
  (sb.s.readWhile (· ≠ 0)).elim (.error .outOfBounds) .ok

/-- `string_buffer_commit`, with all the bytes of the block it returns. -/
def commit (sb : StringBuffer) : Except Fault (List UInt8) :=
  (sb.s.read (sb.length + 1)).elim (.error .outOfBounds) .ok

end StringBuffer

end Fsfuse.Native
