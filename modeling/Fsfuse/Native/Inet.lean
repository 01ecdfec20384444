import Fsfuse.Native.CString

/-!
# Internet addresses

What `src/` uses of `<arpa/inet.h>`: the text of an address, and `inet_ntop`. Addresses are
bytes in network order.
-/

namespace Fsfuse.Native

/-- `AF_INET` and `AF_INET6`. -/
inductive AddressFamily
  | inet
  | inet6
deriving Repr, DecidableEq

namespace AddressFamily

/-- The size of an address. -/
def addressLen : AddressFamily → Nat
  | inet => 4
  | inet6 => 16

/-- `INET_ADDRSTRLEN` and `INET6_ADDRSTRLEN`: room for the longest text, with its
    terminator. -/
def addrstrlen : AddressFamily → Nat
  | inet => 16
  | inet6 => 46

/-- The size of `struct sockaddr_in` and `struct sockaddr_in6`. -/
def sizeofSockaddr : AddressFamily → Nat
  | inet => 16
  | inet6 => 28

/-- Where `sin_addr` and `sin6_addr` are in them. -/
def offsetofAddr : AddressFamily → Nat
  | inet => 4
  | inet6 => 8

end AddressFamily

/-- The separator of the words of an IPv6 address. -/
def addressColon : UInt8 := 58

/-- `%u`. -/
def decimal (n : Nat) : List UInt8 := (Nat.toDigits 10 n).map fun c => c.toNat.toUInt8

/-- `%x`. -/
def hexadecimal (n : Nat) : List UInt8 := (Nat.toDigits 16 n).map fun c => c.toNat.toUInt8

/-- The text of an IPv4 address. -/
def inetNtop4 (src : List UInt8) : List UInt8 :=
  (ascii ".").intercalate ((src.take 4).map fun octet => decimal octet.toNat)

/-- The eight words of an IPv6 address. -/
def words (src : List UInt8) : List Nat :=
  (List.range 8).map fun i => (src.getD (2 * i) 0).toNat * 256 + (src.getD (2 * i + 1) 0).toNat

/-- The first of the longest runs of zero words, with its length, if it is worth a `::`. -/
def zeroRun (words : List Nat) : Option (Nat × Nat) :=
  let best := (List.range 8).foldl
    (fun best i =>
      let len := ((words.drop i).takeWhile (· = 0)).length
      if best.2 < len then (i, len) else best)
    (0, 0)
  if 2 ≤ best.2 then some best else none

/-- What a word adds to the text of an IPv6 address. A run is as empty as its words, but for
    the colon that opens it. -/
def inetNtop6Word (words : List Nat) (run : Option (Nat × Nat)) (i : Nat) : List UInt8 :=
  let plain := (if i ≠ 0 then [addressColon] else []) ++ hexadecimal (words.getD i 0)
  match run with
  | none => plain
  | some (start, len) =>
    if i = start then [addressColon]
    else if start < i ∧ i < start + len then []
    else plain

/-- The text of an IPv6 address. -/
def inetNtop6 (src : List UInt8) : List UInt8 :=
  let run := zeroRun (words src)
  -- an embedded IPv4 address
  if run = some (0, 6) ∨ run = some (0, 5) ∧ (words src).getD 5 0 = 0xffff then
    (List.range 6).flatMap (inetNtop6Word (words src) run) ++
      addressColon :: inetNtop4 (src.drop 12)
  else
    (List.range 8).flatMap (inetNtop6Word (words src) run) ++
      if run.any fun (start, len) => start + len = 8 then [addressColon] else []

/-- The textual form of an address. -/
def addressText : AddressFamily → List UInt8 → List UInt8
  | .inet, src => inetNtop4 src
  | .inet6, src => inetNtop6 src

/-- `inet_ntop`: the text, if there is room for it with its terminator. -/
def inetNtop (af : AddressFamily) (src : List UInt8) (size : Nat) : Option (List UInt8) :=
  if (addressText af src).length + 1 ≤ size then some (addressText af src) else none

example : addressText .inet [192, 168, 0, 10] = ascii "192.168.0.10" := by decide +kernel

example : addressText .inet6 [0x20, 1, 0x0d, 0xb8, 0, 0, 0, 0, 0, 0, 0, 0, 0, 0, 0xab, 1] =
    ascii "2001:db8::ab01" := by decide +kernel

example : addressText .inet6 [0, 0, 0, 0, 0, 0, 0, 0, 0, 0, 0xff, 0xff, 10, 0, 0, 1] =
    ascii "::ffff:10.0.0.1" := by decide +kernel

/-! ### What tells the texts of the two families apart -/

/-- An octet has three digits from 100 on, and no colon. -/
theorem decimal_octet (octet : UInt8) :
    (decimal octet.toNat).length ≤ 3 ∧ ((decimal octet.toNat).length = 3 ↔ ¬ octet < 100) ∧
      addressColon ∉ decimal octet.toNat := by
  have hall : ∀ n < 256, (decimal n).length ≤ 3 ∧ ((decimal n).length = 3 ↔ ¬ n < 100) ∧
      addressColon ∉ decimal n := by decide +kernel
  have h := hall octet.toNat octet.toNat_lt
  rwa [UInt8.lt_iff_toNat_lt]

/-- Octets are told apart by their digits. -/
theorem decimal_octet_inj {octet octet' : UInt8} (h : decimal octet.toNat = decimal octet'.toNat) :
    octet = octet' := by
  -- the digits are those of `toString`, from which the number can be read back
  have hdigits : ∀ n < 256, (decimal n).foldl (fun n c => n * 10 + (c.toNat - 48)) 0 = n := by
    decide +kernel
  apply UInt8.toNat_inj.mp
  rw [← hdigits _ octet.toNat_lt, h, hdigits _ octet'.toNat_lt]

/-- An IPv4 address is written in four decimals with dots between them. -/
theorem inetNtop4_eq (a b c d : UInt8) (rest : List UInt8) :
    inetNtop4 (a :: b :: c :: d :: rest) =
      decimal a.toNat ++ 46 :: decimal b.toNat ++ 46 :: decimal c.toNat ++
        46 :: decimal d.toNat := by
  simp [inetNtop4, List.intercalate, ascii]

/-- An IPv4 address is written without a colon. -/
theorem addressColon_not_mem_inetNtop4 (a b c d : UInt8) (rest : List UInt8) :
    addressColon ∉ inetNtop4 (a :: b :: c :: d :: rest) := by
  have hdot : addressColon ≠ 46 := by decide
  simp only [inetNtop4_eq, List.mem_append, List.mem_cons, not_or]
  have ha := (decimal_octet a).2.2
  have hb := (decimal_octet b).2.2
  have hc := (decimal_octet c).2.2
  have hd := (decimal_octet d).2.2
  tauto

/-- An IPv6 address is written with a colon. -/
theorem addressColon_mem_inetNtop6 (src : List UInt8) : addressColon ∈ inetNtop6 src := by
  simp only [inetNtop6]
  split
  · simp
  · apply List.mem_append_left
    rw [List.mem_flatMap]
    -- the second word comes after a colon, or in a run that a colon opens
    cases hrun : zeroRun (words src) with
    | none => exact ⟨1, by simp, by simp [inetNtop6Word]⟩
    | some run =>
      obtain ⟨start, len⟩ := run
      by_cases hin : start < 1 ∧ 1 < start + len
      · exact ⟨start, List.mem_range.mpr (by omega), by simp [inetNtop6Word]⟩
      · refine ⟨1, by simp, ?_⟩
        simp only [inetNtop6Word, if_neg hin]
        split <;> simp

end Fsfuse.Native
