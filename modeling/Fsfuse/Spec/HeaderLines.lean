import Fsfuse.Spec.FetcherCallbacks

/-!
# Header lines

A header line is meant to be split into its key and its value, which begins behind the colon
and the space and ends in front of the line end.

`header_cb_wrapper` takes the value from the colon on, so that every value it passes begins
with the colon and the space. The length of the value is taken to leave room for a line end:
where nothing comes behind the colon it is less than 0, and wraps.
-/

namespace Fsfuse.Native.Fetcher

/-! ### Lines -/

/-- A line with a key and a value. -/
def headerLine (key value : List UInt8) : List UInt8 := key ++ 58 :: 32 :: (value ++ [13, 10])

/-- The key and the value of a line that has them. -/
def parseHeaderLine (line : List UInt8) : Option (List UInt8 × List UInt8) :=
  match line.dropWhile (· ≠ 58) with
  | 58 :: 32 :: rest =>
    if [13, 10] <:+ rest then
      some (line.takeWhile (· ≠ 58), rest.take (rest.length - 2))
    else none
  | _ => none

/-- The key ends at the first colon. -/
theorem takeWhile_headerLine {key : List UInt8} (hkey : 58 ∉ key) (rest : List UInt8) :
    (key ++ 58 :: rest).takeWhile (· ≠ 58) = key := by
  rw [List.takeWhile_append_of_pos fun c hc => decide_eq_true (ne_of_mem_of_not_mem hc hkey)]
  simp

/-- What follows the key starts with the colon. -/
theorem dropWhile_headerLine {key : List UInt8} (hkey : 58 ∉ key) (rest : List UInt8) :
    (key ++ 58 :: rest).dropWhile (· ≠ 58) = 58 :: rest := by
  rw [List.dropWhile_append_of_pos fun c hc => decide_eq_true (ne_of_mem_of_not_mem hc hkey)]
  simp

/-- A header line is parsed into a key without colons and what follows the first one. -/
theorem parseHeaderLine_eq_some_iff {line key value : List UInt8} :
    parseHeaderLine line = some (key, value) ↔ 58 ∉ key ∧ line = headerLine key value := by
  constructor
  · intro h
    unfold parseHeaderLine at h
    split at h
    · rename_i rest hdrop
      split at h
      · rename_i hend
        obtain ⟨body, rfl⟩ := hend
        simp only [Option.some.injEq, Prod.mk.injEq] at h
        obtain ⟨rfl, rfl⟩ := h
        constructor
        · intro hmem
          have := List.mem_takeWhile_imp hmem
          simp at this
        · have hsplit := line.takeWhile_append_dropWhile (p := (· ≠ 58))
          rw [hdrop] at hsplit
          have hbody : (body ++ [13, 10]).take ((body ++ [13, 10]).length - 2) = body := by simp
          rw [headerLine, hbody, hsplit]
      · cases h
    · cases h
  · intro h
    obtain ⟨hkey, rfl⟩ := h
    rw [parseHeaderLine, headerLine, dropWhile_headerLine hkey, takeWhile_headerLine hkey]
    simp

/-! ### What is passed on -/

/-- A line is split as it should be: into its key and its value, as far as strings can have them,
    if it has them, and at lengths within it in any case. -/
def SplitRight (line : List UInt8) : Prop :=
  (∀ key value, 58 ∉ key → line = headerLine key value →
    splitHeader line = .ok (some (cString key, cString value))) ∧
  ∀ keyLen valueLen, headerLengths line = some (keyLen, valueLen) →
    keyLen + valueLen ≤ line.length

/-- The lengths for a line by what comes in front of its first colon and behind it. -/
theorem headerLengths_append {key : List UInt8} (hkey : 58 ∉ key) (rest : List UInt8) :
    headerLengths (key ++ 58 :: rest) =
      some (key.length, if rest = [] then 2 ^ 64 - 1 else rest.length - 1) := by
  have hcolon : 58 ∈ key ++ 58 :: rest := by simp
  rw [headerLengths, if_pos hcolon, takeWhile_headerLine hkey]
  simp only [List.length_append, List.length_cons, Option.some.injEq, Prod.mk.injEq, true_and]
  cases rest with
  | nil => simp
  | cons c rest =>
    rw [if_neg (List.cons_ne_nil c rest), List.length_cons, if_pos (by omega)]
    omega

/-- The lengths are within the line exactly if its first colon is not its last byte. -/
theorem headerLengths_fit_iff (line : List UInt8) :
    (∀ keyLen valueLen, headerLengths line = some (keyLen, valueLen) →
      keyLen + valueLen ≤ line.length) ↔ line.dropWhile (· ≠ 58) ≠ [58] := by
  by_cases hcolon : 58 ∈ line
  · obtain ⟨key, rest, rfl, hkey⟩ := List.eq_append_cons_of_mem hcolon
    rw [headerLengths_append hkey, dropWhile_headerLine hkey]
    simp only [Option.some.injEq, Prod.mk.injEq, and_imp, forall_apply_eq_imp_iff, forall_eq',
      List.length_append, List.length_cons]
    cases rest with
    | nil => simp
    | cons c rest =>
      simp only [reduceCtorEq, if_false, List.length_cons]
      refine iff_of_true ?_ (by simp)
      omega
  · have hnone : headerLengths line = none := if_neg hcolon
    have hnil : line.dropWhile (· ≠ 58) = [] :=
      List.dropWhile_eq_nil_iff.mpr fun c hc => decide_eq_true (ne_of_mem_of_not_mem hc hcolon)
    rw [hnone, hnil]
    simp

/-- What is passed on of a line with a key and a value begins with the colon. -/
theorem splitHeader_headerLine {key : List UInt8} (hkey : 58 ∉ key) (value : List UInt8) :
    splitHeader (headerLine key value) =
      .ok (some (cString key, 58 :: 32 :: cString value)) := by
  rw [splitHeader, headerLine, headerLengths_append hkey]
  -- the length is right for the value, but it is counted from the colon on
  have htake : (58 :: 32 :: (value ++ [13, 10])).take ((32 :: (value ++ [13, 10])).length - 1) =
      58 :: 32 :: value := by
    simp
  have hcolon : cString (58 :: 32 :: value) = 58 :: 32 :: cString value := by
    simp [cString]
  dsimp only
  rw [if_neg (List.cons_ne_nil 32 _), if_pos (by simp), List.take_left, List.drop_left, htake,
    hcolon]

/-- Lines that end in a line feed are the ones whose key and value the wrapper is known by. -/
theorem splitHeader_eq_keyAndValue (line : HeaderLine) :
    splitHeader line.1 = .ok (keyAndValue line.1) := by
  obtain ⟨line, hline⟩ := line
  by_cases hcolon : 58 ∈ line
  · obtain ⟨key, rest, rfl, hkey⟩ := List.eq_append_cons_of_mem hcolon
    have hne : rest ≠ [] := by
      intro hnil
      subst hnil
      simp at hline
    have hpos := List.length_pos_iff.mpr hne
    have hlength : (key ++ 58 :: rest).length - key.length - 2 = rest.length - 1 := by
      rw [List.length_append, List.length_cons]
      omega
    have hfits : key.length + (rest.length - 1) ≤ (key ++ 58 :: rest).length := by
      rw [List.length_append, List.length_cons]
      omega
    rw [splitHeader, headerLengths_append hkey, if_neg hne, keyAndValue, if_pos hcolon,
      takeWhile_headerLine hkey, hlength]
    dsimp only
    rw [if_pos hfits, List.take_left]
  · rw [splitHeader, headerLengths, if_neg hcolon, keyAndValue, if_neg hcolon]

/-- A line is split as it should be exactly if it does not have a key and a value, and its first
    colon is not its last byte. -/
theorem splitRight_iff (line : List UInt8) :
    SplitRight line ↔ parseHeaderLine line = none ∧ line.dropWhile (· ≠ 58) ≠ [58] := by
  rw [SplitRight, headerLengths_fit_iff]
  refine and_congr_left fun _ => ?_
  rw [Option.eq_none_iff_forall_ne_some]
  constructor
  · intro h parsed hparsed
    obtain ⟨hkey, hline⟩ := parseHeaderLine_eq_some_iff.mp hparsed
    have hright := h _ _ hkey hline
    rw [hline, splitHeader_headerLine hkey] at hright
    simp only [Except.ok.injEq, Option.some.injEq, Prod.mk.injEq, true_and] at hright
    -- the colon and the space make it longer
    have hlonger := congrArg List.length hright
    rw [List.length_cons, List.length_cons] at hlonger
    omega
  · intro h key value hkey hline
    exact absurd (parseHeaderLine_eq_some_iff.mpr ⟨hkey, hline⟩) (h _)

/-- The version of an indexnode comes with the colon. -/
theorem not_splitRight_version :
    ¬ SplitRight (headerLine (ascii "fs2-version") (ascii "fs2protocol-0.13")) := by
  intro h
  have hright := h.1 _ _ (by decide) rfl
  rw [splitHeader_headerLine (by decide)] at hright
  exact absurd hright (by decide)

end Fsfuse.Native.Fetcher
