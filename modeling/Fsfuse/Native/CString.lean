import Mathlib

/-!
# C strings

Strings are lists of bytes without the terminating NUL. This file has what the parsers
of `src/` use of `<string.h>`, `<ctype.h>`, `<stdio.h>` and `<stdlib.h>`, in the C
locale, `src/utils.c`'s comparison of versions, and how C code goes wrong.
-/

namespace Fsfuse.Native

/-- What stops the daemon: a failed assertion, or undefined behaviour of its memory. -/
inductive Fault
  | assertion
  | outOfBounds
  | nullPointer
  | useAfterFree
  | doubleFree
  /-- a function called with other arguments than it takes -/
  | wrongArguments
deriving Repr, DecidableEq

/-- Two steps go through exactly if the first does and then the second. -/
theorem Except.bind_eq_ok_iff {ε α β : Type*} {x : Except ε α} {f : α → Except ε β} {b : β} :
    x.bind f = .ok b ↔ ∃ a, x = .ok a ∧ f a = .ok b := by
  cases x with
  | error _ => simp [Except.bind]
  | ok a => simp [Except.bind]

/-- Two steps of a `do` block go through exactly if the first does and then the second. -/
theorem Except.do_eq_ok_iff {ε α β : Type} {x : Except ε α} {f : α → Except ε β} {b : β} :
    (x >>= f) = .ok b ↔ ∃ a, x = .ok a ∧ f a = .ok b :=
  bind_eq_ok_iff

/-- What gives a value is no error. -/
theorem Except.eq_ok_of_toOption {ε α : Type*} {x : Except ε α} {a : α}
    (h : x.toOption = some a) : x = .ok a := by
  cases x with
  | error _ => cases h
  | ok b => exact congrArg Except.ok (Option.some.inj h)

/-! ### Strings -/

/-- The bytes of a string literal. -/
def ascii (s : String) : List UInt8 := s.toList.map fun c => c.toNat.toUInt8

/-- What the string functions see of a buffer: the bytes before its first NUL. -/
def cString (buf : List UInt8) : List UInt8 := buf.takeWhile (· ≠ 0)

/-- `isspace`. -/
def isSpace (c : UInt8) : Bool := c = 32 ∨ 9 ≤ c ∧ c ≤ 13

/-- What `sscanf` converts for a `%s`: the first word; it fails on an empty one. -/
def firstWord (s : List UInt8) : List UInt8 :=
  (s.dropWhile (isSpace ·)).takeWhile (!isSpace ·)

/-- The value of a digit of a number in a base up to 36. -/
def digitValue (c : UInt8) : Nat :=
  if 48 ≤ c ∧ c ≤ 57 then c.toNat - 48
  else if 97 ≤ c ∧ c ≤ 122 then c.toNat - 97 + 10
  else if 65 ≤ c ∧ c ≤ 90 then c.toNat - 65 + 10
  else 36

/-- A digit has the value that it is written for. -/
theorem digitValue_of_digit {c : UInt8} (hc : 48 ≤ c ∧ c ≤ 57) : digitValue c = c.toNat - 48 := by
  rw [digitValue, if_pos hc]

/-- Digits are read in the integers as they are in the natural numbers. -/
theorem foldl_digitValue (b : Nat) {text : List UInt8} (hdigits : ∀ c ∈ text, 48 ≤ c ∧ c ≤ 57)
    (m : Nat) :
    text.foldl (fun (n : Int) c => n * b + digitValue c) m =
      (text.foldl (fun m c => m * b + (c.toNat - 48)) m : Nat) := by
  induction text generalizing m with
  | nil => rfl
  | cons c text ih =>
    obtain ⟨hc, htext⟩ := List.forall_mem_cons.mp hdigits
    rw [List.foldl_cons, List.foldl_cons, ← ih htext, digitValue_of_digit hc]
    push_cast
    rfl

/-- The base `strtol` finds for a number, with the number after its prefix. -/
def strtolBase (s : List UInt8) : Nat × List UInt8 :=
  match s with
  | 48 :: x :: h :: rest =>
    -- `0x` is a prefix only before a digit; else the number is the 0
    if (x = 120 ∨ x = 88) ∧ digitValue h < 16 then (16, h :: rest) else (8, s)
  | 48 :: _ => (8, s)
  | _ => (10, s)

/-- The sign of a number, with the number after it. -/
def strtolSign (s : List UInt8) : Int × List UInt8 :=
  match s with
  | 45 :: rest => (-1, rest)
  | 43 :: rest => (1, rest)
  | _ => (1, s)

/-- `strtol` in base 0: the value, and where it left off. -/
def strtol (s : List UInt8) : Int × List UInt8 :=
  let (sign, rest) := strtolSign (s.dropWhile (isSpace ·))
  let (base, rest) := strtolBase rest
  -- no digits: nothing is converted, not even the white space skipped
  let digits := rest.takeWhile (digitValue · < base)
  if digits = [] then (0, s)
  else
    let value := digits.foldl (fun (n : Int) c => n * base + digitValue c) 0
    -- `LONG_MIN` and `LONG_MAX` on overflow
    (max (-2 ^ 63) (min (sign * value) (2 ^ 63 - 1)), rest.drop digits.length)

/-- A digit is no white space. -/
theorem dropWhile_isSpace_of_digit {c : UInt8} (hc : 48 ≤ c ∧ c ≤ 57) (rest : List UInt8) :
    (c :: rest).dropWhile (isSpace ·) = c :: rest := by
  have hc' : 48 ≤ c.toNat ∧ c.toNat ≤ 57 := hc
  apply List.dropWhile_cons_of_neg
  simp only [isSpace, UInt8.le_iff_toNat_le, ← UInt8.toNat_inj]
  simp
  omega

/-- A digit is no sign. -/
theorem strtolSign_of_digit {c : UInt8} (hc : 48 ≤ c ∧ c ≤ 57) (rest : List UInt8) :
    strtolSign (c :: rest) = (1, c :: rest) := by
  unfold strtolSign
  split
  · rename_i heq
    cases heq
    simp at hc
  · rename_i heq
    cases heq
    simp at hc
  · rfl

/-- What follows the sign is no longer than the string. -/
theorem length_strtolSign_le (s : List UInt8) : (strtolSign s).2.length ≤ s.length := by
  unfold strtolSign
  split <;> simp

/-- What follows the prefix is no longer than the string. -/
theorem length_strtolBase_le (s : List UInt8) : (strtolBase s).2.length ≤ s.length := by
  unfold strtolBase
  split
  · split <;> simp
  · simp
  · simp

/-- What follows the number is no longer than the string. -/
theorem length_strtol_le (s : List UInt8) : (strtol s).2.length ≤ s.length := by
  simp only [strtol]
  split
  · exact Nat.le_refl _
  · have h₁ := length_strtolBase_le (strtolSign (s.dropWhile (isSpace ·))).2
    have h₂ := length_strtolSign_le (s.dropWhile (isSpace ·))
    have h₃ := (s.dropWhile_sublist (isSpace ·)).length_le
    simp only [List.length_drop]
    omega

/-- The value of `strtoul` in base 0. -/
def strtoul (s : List UInt8) : Int :=
  let (sign, rest) := strtolSign (s.dropWhile (isSpace ·))
  let (base, rest) := strtolBase rest
  let digits := rest.takeWhile (digitValue · < base)
  let value := digits.foldl (fun (n : Int) c => n * base + digitValue c) 0
  -- `ULONG_MAX` on overflow, whatever the sign; else a negated value wraps
  if 2 ^ 64 ≤ value then 2 ^ 64 - 1 else sign * value % 2 ^ 64

/-- `atoll`, that is `strtoll` in base 10. -/
def atoll (s : List UInt8) : Int :=
  let (sign, rest) := strtolSign (s.dropWhile (isSpace ·))
  let value :=
    (rest.takeWhile (digitValue · < 10)).foldl (fun (n : Int) c => n * 10 + digitValue c) 0
  max (-2 ^ 63) (min (sign * value) (2 ^ 63 - 1))

/-- Conversion of a `long` to an `int`. -/
def longToInt (n : Int) : Int := n.bmod (2 ^ 32)

/-- `compare_dotted_version`. -/
def compareDottedVersion (ver cmp : List UInt8) : Int :=
  let n1 := longToInt (strtol ver).1
  let n2 := longToInt (strtol cmp).1
  if n1 < n2 then -1
  else if n1 > n2 then 1
  else if (strtol ver).2 = [] ∧ (strtol cmp).2 = [] then 0
  -- past the dot, or whatever stopped the conversion
  else compareDottedVersion ((strtol ver).2.drop 1) ((strtol cmp).2.drop 1)
termination_by ver.length + cmp.length
decreasing_by
  -- not both at their ends, so one of the two skips at least one byte more
  rename_i hmore
  have hver := length_strtol_le ver
  have hcmp := length_strtol_le cmp
  simp only [← List.length_eq_zero_iff] at hmore
  simp only [List.length_drop]
  omega

example : compareDottedVersion (ascii "0.5.1") (ascii "0.5.2") = -1 := by decide +kernel

end Fsfuse.Native
