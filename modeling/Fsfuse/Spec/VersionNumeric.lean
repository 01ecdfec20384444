import Fsfuse.Spec.VersionOrder

/-!
# Versions as decimal numbers

Versions are meant to be compared number by number, where a number is what the digits
between two dots are in decimal.

`strtol` is given base 0, and reads as octal what begins with a 0. It stops at an 8 or a 9
there, which `compare_dotted_version` skips as it does a dot, so that one component of a
version may come to be several numbers.
-/

namespace Fsfuse.Native

/-! ### Digits -/

/-- The number that digits are in a base. -/
def numeral (b : Nat) (ds : List UInt8) : Nat :=
  ds.foldl (fun n c => n * b + (c.toNat - 48)) 0

/-- No digits are 0. -/
@[simp] theorem numeral_nil (b : Nat) : numeral b [] = 0 := rfl

/-- A digit at the end makes the numeral that many times larger, and adds itself. -/
theorem numeral_concat (b : Nat) (ds : List UInt8) (d : UInt8) :
    numeral b (ds ++ [d]) = numeral b ds * b + (d.toNat - 48) := by
  rw [numeral, List.foldl_append]
  rfl

/-- More digits do not make less of a number. -/
theorem numeral_le_append {b : Nat} (hb : 0 < b) (ds ds' : List UInt8) :
    numeral b ds ≤ numeral b (ds ++ ds') := by
  induction ds' using List.reverseRecOn with
  | nil => rw [List.append_nil]
  | append_singleton ds' d ih =>
    rw [← List.append_assoc, numeral_concat]
    have := Nat.le_mul_of_pos_right (numeral b (ds ++ ds')) hb
    omega

/-- A numeral is no smaller with digits in front. -/
theorem numeral_le_prepend (b : Nat) (ds ds' : List UInt8) :
    numeral b ds' ≤ numeral b (ds ++ ds') := by
  induction ds' using List.reverseRecOn with
  | nil => exact Nat.zero_le _
  | append_singleton ds' d ih =>
    rw [← List.append_assoc, numeral_concat, numeral_concat]
    exact Nat.add_le_add_right (Nat.mul_le_mul_right b ih) _

/-- The same digits are no more in octal than in decimal. -/
theorem numeral_eight_le_ten (ds : List UInt8) : numeral 8 ds ≤ numeral 10 ds := by
  induction ds using List.reverseRecOn with
  | nil => exact Nat.le_refl _
  | append_singleton ds d ih =>
    rw [numeral_concat, numeral_concat]
    omega

/-- Nor are the first of them. -/
theorem numeral_eight_takeWhile_le (p : UInt8 → Bool) (ds : List UInt8) :
    numeral 8 (ds.takeWhile p) ≤ numeral 10 ds := by
  obtain ⟨t, ht⟩ := ds.takeWhile_prefix p
  have hle := numeral_le_append (by decide : 0 < 10) (ds.takeWhile p) t
  rw [ht] at hle
  exact (numeral_eight_le_ten _).trans hle

/-- Octal digits that are 8 or more in decimal are less in octal. -/
theorem numeral_eight_lt_ten {ds : List UInt8} (hoctal : ∀ c ∈ ds, c.toNat < 56)
    (hvalue : 8 ≤ numeral 10 ds) : numeral 8 ds < numeral 10 ds := by
  induction ds using List.reverseRecOn with
  | nil => cases hvalue
  | append_singleton ds d ih =>
    have hd := hoctal d (by simp)
    have hle := numeral_eight_le_ten ds
    rw [numeral_concat] at hvalue
    rw [numeral_concat, numeral_concat]
    omega

/-- With an 8 or a 9 behind them, octal digits are less than all digits in decimal. -/
theorem numeral_eight_takeWhile_lt {ds : List UInt8}
    (hmore : (ds.takeWhile (·.toNat < 56)).length < ds.length) :
    numeral 8 (ds.takeWhile (·.toNat < 56)) < numeral 10 ds := by
  have hsplit := ds.takeWhile_append_dropWhile (p := (·.toNat < 56))
  cases hdrop : ds.dropWhile (·.toNat < 56) with
  | nil =>
    rw [hdrop, List.append_nil] at hsplit
    rw [hsplit] at hmore
    exact absurd hmore (Nat.lt_irrefl _)
  | cons e t =>
    have he := List.head_dropWhile_not (fun c : UInt8 => c.toNat < 56) (l := ds) (by simp [hdrop])
    simp only [hdrop, List.head_cons, decide_eq_false_iff_not] at he
    have hle := numeral_le_append (by decide : 0 < 10) (ds.takeWhile (·.toNat < 56) ++ [e]) t
    rw [numeral_concat, List.append_assoc, List.singleton_append, ← hdrop, hsplit] at hle
    have := numeral_eight_le_ten (ds.takeWhile (·.toNat < 56))
    omega

/-- Less than 8 is the same in both. -/
theorem numeral_eight_eq_ten {ds : List UInt8} (hvalue : numeral 10 ds < 8) :
    numeral 8 ds = numeral 10 ds := by
  induction ds using List.reverseRecOn with
  | nil => rfl
  | append_singleton ds d ih =>
    have hle := numeral_eight_le_ten ds
    rw [numeral_concat] at hvalue
    rw [numeral_concat, numeral_concat]
    omega

/-- Digits that are less than 8 are octal digits. -/
theorem octal_of_numeral_lt {ds : List UInt8} (hvalue : numeral 10 ds < 8) :
    ∀ c ∈ ds, c.toNat < 56 := by
  intro c hc
  obtain ⟨s, t, rfl⟩ := List.append_of_mem hc
  have hle := numeral_le_append (by decide : 0 < 10) (s ++ [c]) t
  rw [numeral_concat, List.append_assoc, List.singleton_append] at hle
  omega

/-! ### Versions -/

/-- A component of a version: digits that are an `int`. -/
structure Component where
  digits : List UInt8
  ne_nil : digits ≠ []
  isDigit : ∀ c ∈ digits, 48 ≤ c ∧ c ≤ 57
  le_intMax : numeral 10 digits ≤ 2 ^ 31 - 1

namespace Component

/-- What it is in decimal. -/
def value (c : Component) : Nat := numeral 10 c.digits

/-- It does not begin with a 0, or is less than 8. -/
def Plain (c : Component) : Prop := c.digits.head? ≠ some 48 ∨ c.value < 8

instance (c : Component) : Decidable c.Plain := inferInstanceAs (Decidable (_ ∨ _))

end Component

/-- The numbers in C's notation for them: decimal ones, and octal ones where there is a 0 in
    front, which end at the first digit that is not octal. That digit is skipped. -/
def cNumbers (ds : List UInt8) : List Nat :=
  if ds.head? = some 48 then
    let octal := ds.takeWhile (·.toNat < 56)
    if octal.length < ds.length then numeral 8 octal :: cNumbers (ds.drop (octal.length + 1))
    else [numeral 8 octal]
  else [numeral 10 ds]
termination_by ds.length

/-- Numbers in front of a sequence of numbers. -/
def prepend : List Nat → (Nat → Int) → Nat → Int
  | [], x => x
  | a :: as, x => fun
    | 0 => a
    | n + 1 => prepend as x n

/-- The components with dots between them. -/
def versionText : List Component → List UInt8
  | [] => []
  | [c] => c.digits
  | c :: cs => c.digits ++ 46 :: versionText cs

/-- The numbers of a version in decimal, and zeros behind them. -/
def decimals (v : List Component) : Nat → Int :=
  prepend (v.map Component.value) fun _ => 0

/-- The numbers of a version in C's notation, and zeros behind them. -/
def cDecimals (v : List Component) : Nat → Int :=
  prepend (v.flatMap fun c => cNumbers c.digits) fun _ => 0

/-- Two versions are compared by their numbers in decimal. -/
def ComparedInDecimal (ver cmp : List Component) : Prop :=
  ComparesBy (fun v => toLex (decimals v)) ver cmp
    (compareDottedVersion (versionText ver) (versionText cmp))

/-- Two versions are in the same order whether their numbers are in C's notation or all in
    decimal. -/
def SameOrderInC (ver cmp : List Component) : Prop :=
  (toLex (cDecimals ver) < toLex (cDecimals cmp) ↔
    toLex (decimals ver) < toLex (decimals cmp)) ∧
  (toLex (cDecimals cmp) < toLex (cDecimals ver) ↔
    toLex (decimals cmp) < toLex (decimals ver))

/-! ### Reading numbers -/

/-- What comes behind the digits of a component: a dot, or nothing. -/
def EndsDigits (rest : List UInt8) : Prop := ∀ c ∈ rest.head?, c = 46

/-- Where the digits have ended there is none to read. -/
theorem EndsDigits.takeWhile_digitValue {rest : List UInt8} (hrest : EndsDigits rest) {b : Nat}
    (hb : b ≤ 10) : rest.takeWhile (digitValue · < b) = [] := by
  cases rest with
  | nil => rfl
  | cons c rest =>
    obtain rfl : c = 46 := hrest c rfl
    have hdot : digitValue 46 = 36 := by decide
    apply List.takeWhile_cons_of_neg
    rw [hdot]
    simp
    omega

/-- The digits that are converted in a base. -/
theorem takeWhile_digitValue {ds rest : List UInt8} (hdigits : ∀ c ∈ ds, 48 ≤ c ∧ c ≤ 57)
    (hrest : EndsDigits rest) {b : Nat} (hb : b ≤ 10) :
    (ds ++ rest).takeWhile (digitValue · < b) = ds.takeWhile (·.toNat < 48 + b) := by
  induction ds with
  | nil => exact hrest.takeWhile_digitValue hb
  | cons c ds ih =>
    obtain ⟨hc, hds⟩ := List.forall_mem_cons.mp hdigits
    have hlow : 48 ≤ c.toNat := hc.1
    have hiff : digitValue c < b ↔ c.toNat < 48 + b := by
      rw [digitValue_of_digit hc]
      omega
    rw [List.cons_append, List.takeWhile_cons, List.takeWhile_cons, ih hds,
      decide_eq_decide.mpr hiff]

/-- The digits read from 0 are the numeral. -/
theorem foldl_digitValue_zero (b : Nat) {ds : List UInt8} (hdigits : ∀ c ∈ ds, 48 ≤ c ∧ c ≤ 57) :
    ds.foldl (fun (n : Int) c => n * b + digitValue c) 0 = numeral b ds :=
  foldl_digitValue b hdigits 0

/-- A number of an `int` is not clamped. -/
theorem clamp_eq {n : Nat} (h : n ≤ 2 ^ 31 - 1) :
    max (-2 ^ 63) (min ((1 : Int) * n) (2 ^ 63 - 1)) = n := by
  omega

/-- A number of an `int` is not truncated. -/
theorem longToInt_eq {n : Nat} (h : n ≤ 2 ^ 31 - 1) : longToInt n = n := by
  apply Int.bmod_eq_of_le_mul_two <;> omega

/-- A number without white space, sign or prefix of its base. -/
theorem strtol_of_digits {s taken : List UInt8} {b : Nat} {c : UInt8} (hhead : s.head? = some c)
    (hc : 48 ≤ c ∧ c ≤ 57) (hbase : strtolBase s = (b, s))
    (htaken : s.takeWhile (digitValue · < b) = taken) (hne : taken ≠ [])
    (hdigits : ∀ c ∈ taken, 48 ≤ c ∧ c ≤ 57) (hle : numeral b taken ≤ 2 ^ 31 - 1) :
    strtol s = ((numeral b taken : Int), s.drop taken.length) := by
  have hspace : s.dropWhile (isSpace ·) = s := by
    cases s with
    | nil => rfl
    | cons d s =>
      cases hhead
      exact dropWhile_isSpace_of_digit hc s
  have hsign : strtolSign s = (1, s) := by
    cases s with
    | nil => rfl
    | cons d s =>
      cases hhead
      exact strtolSign_of_digit hc s
  -- there is no white space, no sign, and the digits are all of it
  simp only [strtol, hspace, hsign, hbase, htaken, if_neg hne, foldl_digitValue_zero b hdigits,
    clamp_eq hle]

/-- Without a 0 in front there is no prefix. -/
theorem strtolBase_of_head {s : List UInt8} (hhead : s.head? ≠ some 48) :
    strtolBase s = (10, s) := by
  unfold strtolBase
  split
  · exact absurd rfl hhead
  · exact absurd rfl hhead
  · rfl

/-- Digits that do not begin with a 0 are read in decimal. -/
theorem strtol_decimal {ds rest : List UInt8} (hne : ds ≠ [])
    (hdigits : ∀ c ∈ ds, 48 ≤ c ∧ c ≤ 57) (hhead : ds.head? ≠ some 48)
    (hle : numeral 10 ds ≤ 2 ^ 31 - 1) (hrest : EndsDigits rest) :
    strtol (ds ++ rest) = ((numeral 10 ds : Int), rest) := by
  have htaken : (ds ++ rest).takeWhile (digitValue · < 10) = ds := by
    rw [takeWhile_digitValue hdigits hrest (Nat.le_refl 10), List.takeWhile_eq_self_iff]
    intro c hc
    have : c.toNat ≤ 57 := (hdigits c hc).2
    simp
    omega
  have hhead' : (ds ++ rest).head? = ds.head? := List.head?_append_of_ne_nil ds hne
  have hfirst := List.head?_eq_some_head hne
  have h := strtol_of_digits (hhead'.trans hfirst) (hdigits _ (List.head_mem hne))
    (strtolBase_of_head (hhead' ▸ hhead)) htaken hne hdigits hle
  rwa [List.drop_left] at h

/-- A 0 in front of a digit or a dot is the prefix of an octal number. -/
theorem strtolBase_zero {s : List UInt8} (h : ∀ c ∈ s.head?, c ≤ 57) :
    strtolBase (48 :: s) = (8, 48 :: s) := by
  unfold strtolBase
  split
  · rename_i x y rest heq
    cases heq
    have hx : x.toNat ≤ 57 := h x rfl
    rw [if_neg]
    simp only [← UInt8.toNat_inj]
    simp
    omega
  · rfl
  · rename_i hnot
    exact absurd rfl (hnot s)

/-- Digits that begin with a 0 are read in octal, as far as they are octal. -/
theorem strtol_octal {ds rest : List UInt8} (hdigits : ∀ c ∈ ds, 48 ≤ c ∧ c ≤ 57)
    (hhead : ds.head? = some 48) (hle : numeral 10 ds ≤ 2 ^ 31 - 1) (hrest : EndsDigits rest) :
    strtol (ds ++ rest) =
      ((numeral 8 (ds.takeWhile (·.toNat < 56)) : Int),
        ds.drop (ds.takeWhile (·.toNat < 56)).length ++ rest) := by
  -- the digits stop at the first one that is not octal
  have htaken : (ds ++ rest).takeWhile (digitValue · < 8) = ds.takeWhile (·.toNat < 56) :=
    takeWhile_digitValue hdigits hrest (by decide)
  have hoctal := ds.takeWhile_prefix (·.toNat < 56)
  have hsmall := (numeral_eight_takeWhile_le (·.toNat < 56) ds).trans hle
  cases ds with
  | nil => cases hhead
  | cons c ds =>
    cases hhead
    -- a leading 0 is not taken for the prefix of a hexadecimal number
    have hnext : ∀ c ∈ (ds ++ rest).head?, c ≤ 57 := by
      cases ds with
      | nil =>
        intro c hc
        rw [hrest c hc]
        decide
      | cons d ds =>
        intro c hc
        cases hc
        exact (hdigits d (by simp)).2
    have h := strtol_of_digits rfl (by decide) (strtolBase_zero hnext) htaken (by simp)
      (fun c hc => hdigits c (hoctal.subset hc)) hsmall
    rw [← List.drop_append_of_le_length hoctal.length_le]
    exact h

/-- Where there are no digits nothing is read. -/
theorem strtol_of_endsDigits {rest : List UInt8} (hrest : EndsDigits rest) :
    strtol rest = (0, rest) := by
  cases rest with
  | nil => decide
  | cons c rest =>
    obtain rfl : c = 46 := hrest c rfl
    have htaken := hrest.takeWhile_digitValue (Nat.le_refl 10)
    have hspace : (46 :: rest).dropWhile (isSpace ·) = 46 :: rest :=
      List.dropWhile_cons_of_neg (by decide)
    have hsign : strtolSign (46 :: rest) = (1, 46 :: rest) := rfl
    have hbase := strtolBase_of_head (s := 46 :: rest) (by simp)
    simp only [strtol, hspace, hsign, hbase, htaken, if_pos]

/-! ### The numbers of a version's text -/

/-- Numbers are put in front one after the other as they are put together. -/
theorem prepend_append (as bs : List Nat) (x : Nat → Int) :
    prepend (as ++ bs) x = prepend as (prepend bs x) := by
  induction as with
  | nil => rfl
  | cons a as ih =>
    funext n
    cases n with
    | zero => rfl
    | succ n => exact congrFun ih n

/-- The first number of a version is the one `strtol` reads, and the others are behind the
    delimiter. -/
theorem versionNumbers_of_strtol {s rest : List UInt8} {a : Nat}
    (h : strtol s = ((a : Int), rest)) (ha : a ≤ 2 ^ 31 - 1) :
    versionNumbers s = prepend [a] (versionNumbers (rest.drop 1)) := by
  funext n
  cases n with
  | zero =>
    show longToInt (strtol s).1 = a
    rw [h]
    exact longToInt_eq ha
  | succ n =>
    show versionNumbers ((strtol s).2.drop 1) n = versionNumbers (rest.drop 1) n
    rw [h]

/-- Behind the end there are only zeros. -/
theorem versionNumbers_nil : versionNumbers [] = fun _ => 0 := by
  funext n
  induction n with
  | zero => decide
  | succ n ih => exact ih

/-- The numbers of a component, and then those of what comes behind the dot. -/
theorem versionNumbers_append {ds rest : List UInt8} (hdigits : ∀ c ∈ ds, 48 ≤ c ∧ c ≤ 57)
    (hle : numeral 10 ds ≤ 2 ^ 31 - 1) (hrest : EndsDigits rest) :
    versionNumbers (ds ++ rest) = prepend (cNumbers ds) (versionNumbers (rest.drop 1)) := by
  induction ds using cNumbers.induct with
  | case1 ds hhead octal hmore ih =>
    -- an 8 or 9 ends the octal number, and is passed over as a delimiter
    rw [cNumbers, if_pos hhead, if_pos hmore]
    have hread := strtol_octal hdigits hhead hle hrest
    have hsplit : ds.drop octal.length ++ rest =
        ds[octal.length] :: (ds.drop (octal.length + 1) ++ rest) := by
      rw [List.drop_eq_getElem_cons hmore, List.cons_append]
    have hsuffix := ds.drop_suffix (octal.length + 1)
    have hoctal := (numeral_eight_takeWhile_le (·.toNat < 56) ds).trans hle
    have hrestle : numeral 10 (ds.drop (octal.length + 1)) ≤ 2 ^ 31 - 1 := by
      have := numeral_le_prepend 10 (ds.take (octal.length + 1)) (ds.drop (octal.length + 1))
      rw [List.take_append_drop] at this
      exact this.trans hle
    rw [versionNumbers_of_strtol hread hoctal, hsplit, List.drop_one, List.tail_cons,
      ih (fun c hc => hdigits c (hsuffix.subset hc)) hrestle]
    rfl
  | case2 ds hhead octal hend =>
    rw [cNumbers, if_pos hhead, if_neg hend]
    have hread := strtol_octal hdigits hhead hle hrest
    rw [List.drop_eq_nil_of_le (Nat.not_lt.mp hend), List.nil_append] at hread
    exact versionNumbers_of_strtol hread ((numeral_eight_takeWhile_le _ ds).trans hle)
  | case3 ds hhead =>
    rw [cNumbers, if_neg hhead]
    by_cases hne : ds = []
    · subst hne
      exact versionNumbers_of_strtol (strtol_of_endsDigits hrest) (Nat.zero_le _)
    · exact versionNumbers_of_strtol (strtol_decimal hne hdigits hhead hle hrest) hle

/-- What is read of a version's text are the numbers in C's notation. -/
theorem versionNumbers_versionText (v : List Component) :
    versionNumbers (versionText v) = cDecimals v := by
  induction v using versionText.induct with
  | case1 => exact versionNumbers_nil
  | case2 c =>
    have hend : EndsDigits [] := nofun
    have h := versionNumbers_append c.isDigit c.le_intMax hend
    rw [List.append_nil, List.drop_nil, versionNumbers_nil] at h
    rw [versionText, h, cDecimals, List.flatMap_singleton]
  | case3 c cs hcs ih =>
    have hrest : EndsDigits (46 :: versionText cs) := by
      intro d hd
      exact (Option.some.inj hd).symm
    have h := versionNumbers_append c.isDigit c.le_intMax hrest
    rw [List.drop_one, List.tail_cons, ih] at h
    rw [versionText, h, cDecimals, cDecimals, List.flatMap_cons, prepend_append]
    exact hcs

/-- The code's comparison is that of the numbers in C's notation. -/
theorem compareDottedVersion_versionText (ver cmp : List Component) :
    ComparesBy (fun v => toLex (cDecimals v)) ver cmp
      (compareDottedVersion (versionText ver) (versionText cmp)) := by
  have h := compareDottedVersion_spec (versionText ver) (versionText cmp)
  rw [versionNumbers_versionText, versionNumbers_versionText] at h
  exact h

/-- Versions are compared in decimal exactly if they are in the same order in C's notation. -/
theorem comparedInDecimal_iff (ver cmp : List Component) :
    ComparedInDecimal ver cmp ↔ SameOrderInC ver cmp :=
  (compareDottedVersion_versionText ver cmp).comparesBy_iff

/-! ### Plain components -/

/-- A plain component is the same in C's notation. -/
theorem Component.Plain.cNumbers {c : Component} (h : c.Plain) :
    cNumbers c.digits = [c.value] := by
  rw [Native.cNumbers]
  split
  · rename_i hhead
    have hvalue : numeral 10 c.digits < 8 := h.resolve_left (not_not.mpr hhead)
    have hoctal : c.digits.takeWhile (·.toNat < 56) = c.digits :=
      List.takeWhile_eq_self_iff.mpr fun d hd =>
        decide_eq_true (octal_of_numeral_lt hvalue d hd)
    dsimp only
    rw [hoctal, if_neg (Nat.lt_irrefl _), numeral_eight_eq_ten hvalue]
    rfl
  · rfl

/-- Plain components are read as they are in decimal. -/
theorem cDecimals_eq_decimals {v : List Component} (h : ∀ c ∈ v, c.Plain) :
    cDecimals v = decimals v := by
  rw [cDecimals, decimals, List.map_eq_flatMap]
  congr 1
  exact List.flatMap_congr fun c hc => (h c hc).cNumbers

/-- Versions of plain components are compared in decimal. -/
theorem comparedInDecimal_of_plain {ver cmp : List Component} (hver : ∀ c ∈ ver, c.Plain)
    (hcmp : ∀ c ∈ cmp, c.Plain) : ComparedInDecimal ver cmp := by
  rw [comparedInDecimal_iff, SameOrderInC, cDecimals_eq_decimals hver, cDecimals_eq_decimals hcmp]
  exact ⟨Iff.rfl, Iff.rfl⟩

/-- The first number of a component that is not plain is less than the component. -/
theorem Component.cNumbers_of_not_plain {c : Component} (h : ¬ c.Plain) :
    ∃ n ns, cNumbers c.digits = n :: ns ∧ n < c.value := by
  rw [Component.Plain, not_or, not_not, Nat.not_lt] at h
  obtain ⟨hhead, hvalue⟩ := h
  rw [cNumbers, if_pos hhead]
  dsimp only
  split
  · rename_i hmore
    exact ⟨_, _, rfl, numeral_eight_takeWhile_lt hmore⟩
  · rename_i hend
    refine ⟨_, _, rfl, ?_⟩
    have hall : c.digits.takeWhile (·.toNat < 56) = c.digits :=
      (c.digits.takeWhile_prefix _).eq_of_length_le (Nat.not_lt.mp hend)
    rw [hall]
    refine numeral_eight_lt_ten (fun d hd => ?_) hvalue
    exact of_decide_eq_true (List.takeWhile_eq_self_iff.mp hall d hd)

/-- The zeros in front of a number do not count. -/
theorem numeral_dropWhile_zero (b : Nat) (ds : List UInt8) :
    numeral b (ds.dropWhile (· = 48)) = numeral b ds := by
  induction ds with
  | nil => rfl
  | cons c ds ih =>
    rw [List.dropWhile_cons]
    split
    · rename_i hc
      obtain rfl : c = 48 := of_decide_eq_true hc
      rw [ih, numeral, numeral, List.foldl_cons, Nat.zero_mul]
      rfl
    · rfl

/-- A component that is not plain without the zeros in front. -/
def Component.stripped (c : Component) (h : ¬ c.Plain) : Component where
  digits := c.digits.dropWhile (· = 48)
  ne_nil := by
    intro hnil
    have hvalue := numeral_dropWhile_zero 10 c.digits
    rw [hnil, numeral_nil] at hvalue
    exact h (.inr (by rw [value, ← hvalue]; decide))
  isDigit d hd := c.isDigit d ((c.digits.dropWhile_sublist _).subset hd)
  le_intMax := (numeral_dropWhile_zero 10 c.digits).trans_le c.le_intMax

/-- A component has the same value without its zeros in front. -/
theorem Component.stripped_value (c : Component) (h : ¬ c.Plain) :
    (c.stripped h).value = c.value :=
  numeral_dropWhile_zero 10 c.digits

/-- A component without its zeros in front is plain. -/
theorem Component.stripped_plain (c : Component) (h : ¬ c.Plain) : (c.stripped h).Plain := by
  left
  intro hhead
  have hne : c.digits.dropWhile (· = 48) ≠ [] := (c.stripped h).ne_nil
  have hnot := List.head_dropWhile_not (fun d : UInt8 => d = 48) hne
  have hhead' := Option.some.inj ((List.head?_eq_some_head hne).symm.trans hhead)
  rw [hhead'] at hnot
  exact absurd hnot (by decide)

/-- What is the same in front of two sequences does not matter for their order. -/
theorem toLex_prepend_lt_iff (as : List Nat) {x y : Nat → Int} :
    toLex (prepend as x) < toLex (prepend as y) ↔ toLex x < toLex y := by
  induction as with
  | nil => exact Iff.rfl
  | cons a as ih =>
    rw [← ih]
    constructor
    · intro h
      obtain ⟨i, hbelow, hi⟩ := h
      cases i with
      | zero => exact absurd hi (lt_irrefl _)
      | succ i => exact ⟨i, fun j hj => hbelow (j + 1) (Nat.succ_lt_succ hj), hi⟩
    · exact fun h => toLex_lt_of_zero_eq (x := prepend (a :: as) x) rfl h

/-- No component's number is negative, and behind the last they are 0. -/
theorem prepend_nonneg (as : List Nat) (n : Nat) : 0 ≤ prepend as (fun _ => 0) n := by
  induction as generalizing n with
  | nil => exact Int.le_refl 0
  | cons a as ih =>
    cases n with
    | zero => exact Int.natCast_nonneg a
    | succ n => exact ih n

/-- A version with a component that is not plain is taken for less than the version that ends
    with that component, written without the zeros. -/
theorem not_comparedInDecimal_of_not_plain {pre post : List Component} {c : Component}
    (hpre : ∀ d ∈ pre, d.Plain) (hc : ¬ c.Plain) :
    ¬ ComparedInDecimal (pre ++ c :: post) (pre ++ [c.stripped hc]) := by
  rw [comparedInDecimal_iff]
  intro hsame
  have hplain : ∀ d ∈ pre ++ [c.stripped hc], d.Plain := by
    intro d hd
    rw [List.mem_append, List.mem_singleton] at hd
    obtain hd | rfl := hd
    · exact hpre d hd
    · exact c.stripped_plain hc
  -- read in C's notation it is less
  have hlt : toLex (cDecimals (pre ++ c :: post)) < toLex (cDecimals (pre ++ [c.stripped hc])) := by
    obtain ⟨n, ns, hn, hless⟩ := Component.cNumbers_of_not_plain hc
    rw [cDecimals, cDecimals, List.flatMap_append, List.flatMap_append, prepend_append,
      prepend_append, toLex_prepend_lt_iff, List.flatMap_cons, hn, List.flatMap_singleton,
      (c.stripped_plain hc).cNumbers, c.stripped_value]
    exact ⟨0, fun _ hj => absurd hj (Nat.not_lt_zero _), Int.ofNat_lt.mpr hless⟩
  -- in decimal it is not
  have hnot : ¬ toLex (decimals (pre ++ c :: post)) <
      toLex (decimals (pre ++ [c.stripped hc])) := by
    rw [decimals, decimals, List.map_append, List.map_append, prepend_append, prepend_append,
      toLex_prepend_lt_iff, List.map_cons, List.map_cons, c.stripped_value]
    intro h
    rw [← List.singleton_append, ← List.singleton_append (l := List.map _ _), prepend_append,
      prepend_append, toLex_prepend_lt_iff] at h
    obtain ⟨i, -, hi⟩ := h
    exact absurd hi (Int.not_lt.mpr (prepend_nonneg _ i))
  exact hnot (hsame.1.mp hlt)

/-- Two versions are compared in decimal exactly if C's notation does not make another order of
    them; and one version is compared in decimal with all those without octal components
    exactly if it has none itself. -/
theorem compareDottedVersion_numeric_iff (ver : List Component) :
    (∀ cmp, ComparedInDecimal ver cmp ↔ SameOrderInC ver cmp) ∧
      ((∀ cmp, (∀ c ∈ cmp, c.Plain) → ComparedInDecimal ver cmp) ↔ ∀ c ∈ ver, c.Plain) := by
  refine ⟨comparedInDecimal_iff ver, fun hall => ?_,
    fun hver cmp => comparedInDecimal_of_plain hver⟩
  by_contra hnot
  simp only [not_forall] at hnot
  obtain ⟨d, hd, hplain⟩ := hnot
  -- the first component that is not plain
  have hsome : (ver.find? fun c => ¬ c.Plain).isSome :=
    List.find?_isSome.mpr ⟨d, hd, decide_eq_true hplain⟩
  obtain ⟨c, hc⟩ := Option.isSome_iff_exists.mp hsome
  obtain ⟨hfirst, pre, post, rfl, hpre⟩ := List.find?_eq_some_iff_append.mp hc
  have hpre' : ∀ e ∈ pre, e.Plain := fun e he => by simpa using hpre e he
  have hc' : ¬ c.Plain := of_decide_eq_true hfirst
  refine not_comparedInDecimal_of_not_plain hpre' hc' (hall _ fun e he => ?_)
  rw [List.mem_append, List.mem_singleton] at he
  obtain he | rfl := he
  · exact hpre' e he
  · exact c.stripped_plain hc'

/-- 010 is taken for less than 9. -/
theorem not_comparedInDecimal_octal :
    ¬ ComparedInDecimal [⟨[48, 49, 48], by simp, by simp, by decide⟩]
      [⟨[57], by simp, by simp, by decide⟩] := by
  intro h
  have hcode : compareDottedVersion (ascii "010") (ascii "9") = -1 := by decide +kernel
  obtain ⟨-, i, -, hi⟩ | ⟨hn, -⟩ | ⟨hn, -⟩ := h
  · cases i with
    | zero => exact absurd hi (by decide)
    | succ i => exact absurd hi (lt_irrefl _)
  · exact absurd (hcode.symm.trans hn) (by decide)
  · exact absurd (hcode.symm.trans hn) (by decide)

end Fsfuse.Native
