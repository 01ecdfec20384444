import Fsfuse.Native.Indexnodes

/-!
# The order of versions

`compare_dotted_version` orders versions by the sequences of numbers that they are read
as: the numbers between the dots, and zeros from the end on. Two versions can be told
apart by the first number in which they differ, so this is the lexicographic order, and
a total one.

`check_version` asks for a version above the minimum *or* below the maximum. In a total
order that is no condition at all.
-/

namespace Fsfuse.Native

/-! ### Comparisons by a key -/

/-- A comparison in the manner of C is a total preorder. -/
structure TotalPreorder {α : Type*} (compare : α → α → Int) : Prop where
  refl : ∀ a, compare a a = 0
  swap : ∀ a b, compare b a = -compare a b
  trans : ∀ a b c, compare a b ≤ 0 → compare b c ≤ 0 → compare a c ≤ 0

/-- What a comparison returns says how the keys of its arguments are ordered. -/
def ComparesBy {α γ : Type*} [LT γ] (key : α → γ) (a b : α) (n : Int) : Prop :=
  n = -1 ∧ key a < key b ∨ n = 1 ∧ key b < key a ∨ n = 0 ∧ key a = key b

section ComparesBy

variable {α γ : Type*} [LinearOrder γ] {key : α → γ}

/-- A comparison is not positive exactly if the first key is no larger. -/
theorem ComparesBy.le_zero_iff {a b : α} {n : Int} (h : ComparesBy key a b n) :
    n ≤ 0 ↔ key a ≤ key b := by
  obtain ⟨rfl, hkey⟩ | ⟨rfl, hkey⟩ | ⟨rfl, hkey⟩ := h
  · exact iff_of_true (by decide) hkey.le
  · exact iff_of_false (by decide) hkey.not_ge
  · exact iff_of_true (by decide) hkey.le

/-- The order of the keys leaves no choice of what to return. -/
theorem ComparesBy.unique {a b : α} {m n : Int} (hm : ComparesBy key a b m)
    (hn : ComparesBy key a b n) : m = n := by
  obtain ⟨rfl, hm⟩ | ⟨rfl, hm⟩ | ⟨rfl, hm⟩ := hm <;>
    obtain ⟨rfl, hn⟩ | ⟨rfl, hn⟩ | ⟨rfl, hn⟩ := hn
  · rfl
  · exact absurd hm hn.asymm
  · exact absurd hn hm.ne
  · exact absurd hm hn.asymm
  · rfl
  · exact absurd hn.symm hm.ne
  · exact absurd hm hn.ne
  · exact absurd hm.symm hn.ne
  · rfl

/-- The other way round the comparison has the other sign. -/
theorem ComparesBy.swap {a b : α} {n : Int} (h : ComparesBy key a b n) :
    ComparesBy key b a (-n) := by
  obtain ⟨rfl, hkey⟩ | ⟨rfl, hkey⟩ | ⟨rfl, hkey⟩ := h
  · exact .inr (.inl ⟨rfl, hkey⟩)
  · exact .inl ⟨rfl, hkey⟩
  · exact .inr (.inr ⟨rfl, hkey.symm⟩)

/-- What compares by a key compares by another one exactly if the keys have the same order. -/
theorem ComparesBy.comparesBy_iff {δ : Type*} [LinearOrder δ] {key' : α → δ} {a b : α} {n : Int}
    (h : ComparesBy key a b n) :
    ComparesBy key' a b n ↔
      (key a < key b ↔ key' a < key' b) ∧ (key b < key a ↔ key' b < key' a) := by
  constructor
  · intro h'
    obtain ⟨rfl, hkey⟩ | ⟨rfl, hkey⟩ | ⟨rfl, hkey⟩ := h
    · obtain ⟨-, hkey'⟩ | ⟨hn, -⟩ | ⟨hn, -⟩ := h'
      · exact ⟨iff_of_true hkey hkey', iff_of_false hkey.asymm hkey'.asymm⟩
      · cases hn
      · cases hn
    · obtain ⟨hn, -⟩ | ⟨-, hkey'⟩ | ⟨hn, -⟩ := h'
      · cases hn
      · exact ⟨iff_of_false hkey.asymm hkey'.asymm, iff_of_true hkey hkey'⟩
      · cases hn
    · obtain ⟨hn, -⟩ | ⟨hn, -⟩ | ⟨-, hkey'⟩ := h'
      · cases hn
      · cases hn
      · exact ⟨iff_of_false hkey.not_lt hkey'.not_lt, iff_of_false hkey.not_gt hkey'.not_gt⟩
  · intro hsame
    obtain ⟨rfl, hkey⟩ | ⟨rfl, hkey⟩ | ⟨rfl, hkey⟩ := h
    · exact .inl ⟨rfl, hsame.1.mp hkey⟩
    · exact .inr (.inl ⟨rfl, hsame.2.mp hkey⟩)
    · have hle : ¬ key' a < key' b := fun hlt => hkey.not_lt (hsame.1.mpr hlt)
      have hge : ¬ key' b < key' a := fun hlt => hkey.not_gt (hsame.2.mpr hlt)
      exact .inr (.inr ⟨rfl, le_antisymm (not_lt.mp hge) (not_lt.mp hle)⟩)

/-- A comparison by keys from a linear order is a total preorder. -/
theorem TotalPreorder.of_key {compare : α → α → Int}
    (h : ∀ a b, ComparesBy key a b (compare a b)) : TotalPreorder compare where
  refl a := (h a a).unique (.inr (.inr ⟨rfl, rfl⟩))
  swap a b := (h b a).unique (h a b).swap
  trans a b c := by
    rw [(h a b).le_zero_iff, (h b c).le_zero_iff, (h a c).le_zero_iff]
    exact le_trans

end ComparesBy

/-! ### The numbers of a version -/

/-- The numbers that a conversion finds in a version, one behind the other, where it skips the
    byte that each of them ends at. -/
def numbersBy (strtol : List UInt8 → Int × List UInt8) (ver : List UInt8) : Nat → Int
  | 0 => longToInt (strtol ver).1
  | n + 1 => numbersBy strtol ((strtol ver).2.drop 1) n

/-- The numbers of a version, with zeros after its end. -/
def versionNumbers (ver : List UInt8) : Nat → Int
  | 0 => longToInt (strtol ver).1
  | n + 1 => versionNumbers ((strtol ver).2.drop 1) n

/-- The numbers that are read by `strtol` are the version's. -/
theorem numbersBy_strtol (ver : List UInt8) : numbersBy strtol ver = versionNumbers ver := by
  funext n
  induction n generalizing ver with
  | zero => rfl
  | succ n ih => exact ih _

/-- Sequences that begin with the same number compare as what comes behind it. -/
theorem toLex_lt_of_zero_eq {x y : Nat → Int} (h0 : x 0 = y 0)
    (h : toLex (fun n => x (n + 1)) < toLex fun n => y (n + 1)) : toLex x < toLex y := by
  obtain ⟨i, hbelow, hi⟩ := h
  refine ⟨i + 1, fun j hj => ?_, hi⟩
  cases j with
  | zero => exact h0
  | succ j => exact hbelow j (Nat.lt_of_succ_lt_succ hj)

/-! ### The loop -/

/-- The loop of `compare_dotted_version` for so many rounds, with any `strtol`: what it returns,
    if it has returned by then. -/
def compareRounds (strtol : List UInt8 → Int × List UInt8) :
    Nat → List UInt8 → List UInt8 → Option Int
  | 0, _, _ => none
  | rounds + 1, ver, cmp =>
    let n1 := longToInt (strtol ver).1
    let n2 := longToInt (strtol cmp).1
    if n1 < n2 then some (-1)
    else if n1 > n2 then some 1
    else if (strtol ver).2 = [] ∧ (strtol cmp).2 = [] then some 0
    else compareRounds strtol rounds ((strtol ver).2.drop 1) ((strtol cmp).2.drop 1)

/-- One round leaves less of the two versions, unless it ends both. -/
theorem length_drop_add_lt {ver cmp verRest cmpRest : List UInt8} (hver : verRest <:+ ver)
    (hcmp : cmpRest <:+ cmp) (hmore : ¬ (verRest = [] ∧ cmpRest = [])) :
    (verRest.drop 1).length + (cmpRest.drop 1).length < ver.length + cmp.length := by
  have hver := hver.length_le
  have hcmp := hcmp.length_le
  simp only [← List.length_eq_zero_iff] at hmore
  simp only [List.length_drop]
  omega

/-- The loop returns before it runs out of rounds, and compares the versions by their
    numbers. -/
theorem compareRounds_spec {strtol : List UInt8 → Int × List UInt8}
    (hstrtol : ∀ s, (strtol s).2 <:+ s) {rounds : Nat} {ver cmp : List UInt8}
    (hrounds : ver.length + cmp.length < rounds) :
    ∃ n, compareRounds strtol rounds ver cmp = some n ∧
      ComparesBy (fun v => toLex (numbersBy strtol v)) ver cmp n := by
  induction rounds generalizing ver cmp with
  | zero => omega
  | succ rounds ih =>
    rw [compareRounds]
    by_cases hlt : longToInt (strtol ver).1 < longToInt (strtol cmp).1
    · rw [if_pos hlt]
      exact ⟨_, rfl, .inl ⟨rfl, 0, fun _ hj => absurd hj (Nat.not_lt_zero _), hlt⟩⟩
    · by_cases hgt : longToInt (strtol ver).1 > longToInt (strtol cmp).1
      · rw [if_neg hlt, if_pos hgt]
        exact ⟨_, rfl, .inr (.inl ⟨rfl, 0, fun _ hj => absurd hj (Nat.not_lt_zero _), hgt⟩)⟩
      · rw [if_neg hlt, if_neg hgt]
        have h0 : numbersBy strtol ver 0 = numbersBy strtol cmp 0 :=
          Int.le_antisymm (Int.not_lt.mp hgt) (Int.not_lt.mp hlt)
        by_cases hend : (strtol ver).2 = [] ∧ (strtol cmp).2 = []
        · rw [if_pos hend]
          -- behind the end of both the conversion finds the same
          refine ⟨_, rfl, .inr (.inr ⟨rfl, congrArg toLex (funext fun n => ?_)⟩)⟩
          cases n with
          | zero => exact h0
          | succ n => rw [numbersBy, numbersBy, hend.1, hend.2]
        · rw [if_neg hend]
          have hless := length_drop_add_lt (hstrtol ver) (hstrtol cmp) hend
          obtain ⟨n, hn, hcompares⟩ := ih (Nat.lt_of_lt_of_le hless (Nat.le_of_lt_succ hrounds))
          refine ⟨n, hn, ?_⟩
          obtain ⟨rfl, hkey⟩ | ⟨rfl, hkey⟩ | ⟨rfl, hkey⟩ := hcompares
          · exact .inl ⟨rfl, toLex_lt_of_zero_eq h0 hkey⟩
          · exact .inr (.inl ⟨rfl, toLex_lt_of_zero_eq h0.symm hkey⟩)
          · refine .inr (.inr ⟨rfl, congrArg toLex (funext fun n => ?_)⟩)
            cases n with
            | zero => exact h0
            | succ n => exact congrFun (toLex_inj.mp hkey) n

/-- With any conversion that leaves off further on in its string, the loop returns for all
    versions, and what it returns is a total preorder of them. -/
theorem compareRounds_totalPreorder (strtol : List UInt8 → Int × List UInt8)
    (hstrtol : ∀ s, (strtol s).2 <:+ s) :
    ∃ compare : List UInt8 → List UInt8 → Int,
      (∀ ver cmp, compareRounds strtol (ver.length + cmp.length + 1) ver cmp =
        some (compare ver cmp)) ∧ TotalPreorder compare := by
  have hspec := fun ver cmp : List UInt8 =>
    compareRounds_spec hstrtol (Nat.lt_succ_self (ver.length + cmp.length))
  choose compare hrounds hcompares using hspec
  exact ⟨compare, hrounds, .of_key hcompares⟩

/-! ### The conversion of the C library -/

/-- What follows the sign is an end of the string. -/
theorem strtolSign_suffix (s : List UInt8) : (strtolSign s).2 <:+ s := by
  unfold strtolSign
  split
  · exact List.suffix_cons ..
  · exact List.suffix_cons ..
  · exact List.suffix_refl s

/-- What follows the prefix is an end of the string. -/
theorem strtolBase_suffix (s : List UInt8) : (strtolBase s).2 <:+ s := by
  unfold strtolBase
  split
  · split
    · exact (List.suffix_cons ..).trans (List.suffix_cons ..)
    · exact List.suffix_refl _
  · exact List.suffix_refl _
  · exact List.suffix_refl _

/-- What follows the number is an end of the string. -/
theorem strtol_suffix (s : List UInt8) : (strtol s).2 <:+ s := by
  simp only [strtol]
  split
  · exact List.suffix_refl s
  · exact (List.drop_suffix ..).trans ((strtolBase_suffix _).trans
      ((strtolSign_suffix _).trans (List.dropWhile_suffix _)))

/-- With it, the loop returns what `compare_dotted_version` does. -/
theorem compareRounds_strtol {rounds : Nat} {ver cmp : List UInt8}
    (hrounds : ver.length + cmp.length < rounds) :
    compareRounds strtol rounds ver cmp = some (compareDottedVersion ver cmp) := by
  induction rounds generalizing ver cmp with
  | zero => omega
  | succ rounds ih =>
    rw [compareRounds, compareDottedVersion]
    split
    · rfl
    · split
      · rfl
      · split
        · rfl
        · rename_i hend
          have hless := length_drop_add_lt (strtol_suffix ver) (strtol_suffix cmp) hend
          exact ih (Nat.lt_of_lt_of_le hless (Nat.le_of_lt_succ hrounds))

/-- Versions are totally preordered. -/
theorem compareDottedVersion_totalPreorder :
    (∀ ver cmp, compareRounds strtol (ver.length + cmp.length + 1) ver cmp =
      some (compareDottedVersion ver cmp)) ∧ TotalPreorder compareDottedVersion := by
  obtain ⟨compare, hrounds, horder⟩ := compareRounds_totalPreorder strtol strtol_suffix
  have hcompare : compare = compareDottedVersion := by
    funext ver cmp
    have h := hrounds ver cmp
    rw [compareRounds_strtol (Nat.lt_succ_self _)] at h
    exact (Option.some.inj h).symm
  rw [← hcompare]
  exact ⟨hrounds, horder⟩

/-- The comparison of versions is that of their numbers. -/
theorem compareDottedVersion_spec (ver cmp : List UInt8) :
    compareDottedVersion ver cmp = -1 ∧
        toLex (versionNumbers ver) < toLex (versionNumbers cmp) ∨
      compareDottedVersion ver cmp = 1 ∧
        toLex (versionNumbers cmp) < toLex (versionNumbers ver) ∨
      compareDottedVersion ver cmp = 0 ∧ versionNumbers ver = versionNumbers cmp := by
  have hrounds := Nat.lt_succ_self (ver.length + cmp.length)
  obtain ⟨n, hn, hcompares⟩ := compareRounds_spec strtol_suffix hrounds
  rw [compareRounds_strtol hrounds] at hn
  rw [Option.some.inj hn, ← numbersBy_strtol, ← numbersBy_strtol]
  exact hcompares

/-- The comparison is negative exactly if the numbers are lexicographically smaller. -/
theorem compareDottedVersion_neg_iff {ver cmp : List UInt8} :
    compareDottedVersion ver cmp < 0 ↔
      toLex (versionNumbers ver) < toLex (versionNumbers cmp) := by
  obtain ⟨heq, hver⟩ | ⟨heq, hver⟩ | ⟨heq, hver⟩ := compareDottedVersion_spec ver cmp
  · exact iff_of_true (by omega) hver
  · exact iff_of_false (by omega) (lt_asymm hver)
  · exact iff_of_false (by omega) (hver ▸ lt_irrefl _)

namespace Indexnode

/-- The versions that are supported, the bounds included. -/
def Supported (version : List UInt8) : Prop :=
  compareDottedVersion protoMinimum version ≤ 0 ∧ compareDottedVersion version protoMaximum ≤ 0

instance (version : List UInt8) : Decidable (Supported version) :=
  inferInstanceAs (Decidable (_ ∧ _))

/-- Every version is above the minimum or below the maximum. -/
theorem checkVersion_eq_true (version : List UInt8) : checkVersion version = true := by
  rw [checkVersion, Bool.or_eq_true, decide_eq_true_iff, decide_eq_true_iff,
    compareDottedVersion_neg_iff, compareDottedVersion_neg_iff]
  have hbounds : toLex (versionNumbers protoMinimum) < toLex (versionNumbers protoMaximum) :=
    compareDottedVersion_neg_iff.mp (by decide +kernel)
  -- one that is not above the minimum is below whatever is above that
  by_cases hmin : toLex (versionNumbers protoMinimum) < toLex (versionNumbers version)
  · exact .inl hmin
  · exact .inr (lt_of_le_of_lt (not_lt.mp hmin) hbounds)

/-- The empty version is below the minimum. -/
theorem Supported.ne_nil {version : List UInt8} (h : Supported version) : version ≠ [] := by
  intro heq
  subst heq
  revert h
  decide +kernel

/-- `indexnode_new` admits a version as it should: it makes an indexnode if the version is
    supported, and returns `NULL` if it is not. -/
def AdmitsAsSupported (now : Int) (host port version id : List UInt8) : Prop :=
  ((∃ in_, indexnodeNew now host port version id = .ok (some in_)) ↔ Supported version) ∧
    (¬ Supported version → indexnodeNew now host port version id = .ok none)

/-- `indexnode_new` makes an indexnode of any version, as long as its assertions hold. -/
theorem indexnodeNew_eq_ok_some_iff {now : Int} {host port version id : List UInt8} :
    (∃ in_, indexnodeNew now host port version id = .ok (some in_)) ↔
      (version ≠ [] ∧ id ≠ []) ∧ host ≠ [] ∧ port ≠ [] := by
  rw [indexnodeNew, protoIndexnodeInit, checkVersion_eq_true]
  -- the assertions of `indexnode_new` come before those of `proto_indexnode_init`
  by_cases hid : version = [] ∨ id = []
  · simp only [if_pos hid, reduceCtorEq, exists_false, false_iff]
    tauto
  · by_cases hhost : host = [] ∨ port = []
    · simp only [if_neg hid, if_pos hhost, bind, Except.bind, if_true, reduceCtorEq, exists_false,
        false_iff]
      tauto
    · simp only [if_neg hid, if_neg hhost, bind, Except.bind, if_true, pure, Except.pure,
        Except.ok.injEq, Option.some.injEq, exists_eq', true_iff]
      tauto

/-- `indexnode_new` never returns `NULL`. -/
theorem indexnodeNew_ne_ok_none (now : Int) (host port version id : List UInt8) :
    indexnodeNew now host port version id ≠ .ok none := by
  rw [indexnodeNew, checkVersion_eq_true]
  split
  · exact nofun
  · simp only [if_true, bind, Except.bind]
    split <;> exact nofun

/-- Versions are admitted as they should be exactly when they are supported: one that is not
    makes an indexnode all the same. -/
theorem indexnodeNew_admits_iff (now : Int) (host port version id : List UInt8) :
    AdmitsAsSupported now host port version id ↔
      Supported version ∧ id ≠ [] ∧ host ≠ [] ∧ port ≠ [] := by
  rw [AdmitsAsSupported, indexnodeNew_eq_ok_some_iff]
  constructor
  · intro h
    obtain ⟨hmade, hnull⟩ := h
    -- there is no `NULL` for a version that is not supported
    have hsupported : Supported version := by
      by_contra hnot
      exact indexnodeNew_ne_ok_none now host port version id (hnull hnot)
    obtain ⟨⟨-, hid⟩, hhost⟩ := hmade.mpr hsupported
    exact ⟨hsupported, hid, hhost⟩
  · intro h
    obtain ⟨hsupported, hid, hhost⟩ := h
    refine ⟨?_, fun hnot => absurd hsupported hnot⟩
    exact iff_of_true ⟨⟨hsupported.ne_nil, hid⟩, hhost⟩ hsupported

/-- A version above the range is admitted. -/
theorem indexnodeNew_not_admits_above :
    ¬ AdmitsAsSupported 0 (ascii "10.0.0.1") (ascii "1337") (ascii "0.14") (ascii "uid") := by
  intro h
  obtain ⟨hmade, -⟩ := h
  have habove : ¬ Supported (ascii "0.14") := by decide +kernel
  exact habove (hmade.mp (indexnodeNew_eq_ok_some_iff.mpr (by decide)))

end Indexnode

end Fsfuse.Native
