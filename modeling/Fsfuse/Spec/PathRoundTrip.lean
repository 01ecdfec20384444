import Fsfuse.Native.Paths
import Fsfuse.Spec.StringBufferCorrect

/-!
# Paths do not quite round-trip

A path is meant to be what its two parts combine to, and nothing is meant to be read of a
string but the string and its NUL. The base name of a path with a `/` is copied with its NUL
and one more character, which is behind the NUL; and a path without one has an empty directory
name, of which `path_combine` reads the character before the first. Depending on what that is,
it puts a `/` before the path.
-/

namespace Fsfuse.Native

/-! ### Strings in memory -/

/-- `strrchr` finds nothing exactly if the character does not occur. -/
theorem strrchr_eq_none_iff {c : UInt8} {s : List UInt8} : strrchr c s = none ↔ c ∉ s := by
  induction s with
  | nil => simp [strrchr]
  | cons d s ih =>
    rw [strrchr]
    cases hs : strrchr c s with
    | some i =>
      have hmem : c ∈ s := by
        by_contra hnot
        rw [ih.mpr hnot] at hs
        cases hs
      simp [hmem]
    | none =>
      have hnot : c ∉ s := ih.mp hs
      simp only [List.mem_cons, hnot, or_false]
      split
      · rename_i hd
        simp [hd]
      · rename_i hd
        simp [Ne.symm hd]

/-- What is behind the character that is found is the rest, without another one. -/
theorem strrchr_eq_some {c : UInt8} {s : List UInt8} {i : Nat} (h : strrchr c s = some i) :
    ∃ pre post, s = pre ++ c :: post ∧ pre.length = i ∧ c ∉ post := by
  induction s generalizing i with
  | nil => cases h
  | cons d s ih =>
    rw [strrchr] at h
    split at h
    · rename_i j hj
      cases h
      obtain ⟨pre, post, rfl, rfl, hpost⟩ := ih hj
      exact ⟨d :: pre, post, rfl, rfl, hpost⟩
    · rename_i hnone
      split at h
      · rename_i hd
        cases h
        exact ⟨[], s, by rw [hd]; rfl, rfl, strrchr_eq_none_iff.mp hnone⟩
      · cases h

/-- What `strrchr` finds is within the string. -/
theorem lt_length_of_strrchr {c : UInt8} {s : List UInt8} {i : Nat} (h : strrchr c s = some i) :
    i < s.length := by
  obtain ⟨pre, post, rfl, rfl, -⟩ := strrchr_eq_some h
  rw [List.length_append, List.length_cons]
  omega

/-- Where `strrchr` finds something the character occurs. -/
theorem mem_of_strrchr {c : UInt8} {s : List UInt8} {i : Nat} (h : strrchr c s = some i) :
    c ∈ s := by
  by_contra hnot
  rw [strrchr_eq_none_iff.mpr hnot] at h
  cases h

namespace PlacedStr

variable {s : PlacedStr}

/-- A character of a string, up to its NUL, is one of its text. -/
theorem char_of_lt {i : Nat} (h : i ≤ s.str.val.length) :
    s.char i = s.str.val.getD i 0 := by
  rw [char, if_pos ⟨Int.natCast_nonneg i, by exact_mod_cast h⟩, Int.toNat_natCast]

/-- A copy begins with the first character copied. -/
theorem copied_succ (i : Nat) (n : Nat) :
    s.copied i (n + 1) = s.char i :: s.copied (i + 1 : Nat) n := by
  rw [copied, List.range_succ_eq_map, List.map_cons, List.map_map, copied]
  simp only [Nat.cast_zero, add_zero, List.cons.injEq, true_and]
  apply List.map_congr_left
  intro k _
  show s.char (i + (k + 1 : Nat)) = s.char ((i + 1 : Nat) + k)
  congr 1
  omega

/-- What is copied from inside a string, as a string, is that part of it. -/
theorem cString_copied {i : Nat} (hi : i ≤ s.str.val.length) (n : Nat) :
    cString (s.copied i n) = (s.str.val.drop i).take n := by
  induction n generalizing i with
  | zero => simp [copied, cString]
  | succ n ih =>
    rw [copied_succ, char_of_lt hi]
    obtain rfl | hlt := Nat.eq_or_lt_of_le hi
    · -- the NUL
      simp [cString]
    · have hchar : s.str.val[i] ≠ 0 := by
        intro heq
        have hmem := List.getElem_mem hlt
        rw [heq] at hmem
        exact s.str.property hmem
      rw [List.drop_eq_getElem_cons hlt, List.take_succ_cons, ← ih hlt,
        List.getD_eq_getElem _ _ hlt, cString, List.takeWhile_cons_of_pos (by simpa using hchar)]
      rfl

end PlacedStr

/-! ### Blocks -/

/-- Bytes that fit are written into a block, over what follows in it. -/
theorem blockWrite_spec {block : Block UInt8} {pos : Nat} {vs bytes : List UInt8}
    (h : block.Starts vs) (hpos : pos ≤ vs.length) (hroom : pos + bytes.length ≤ block.length) :
    ∃ block', blockWrite block pos bytes = .ok block' ∧ block'.length = block.length ∧
      block'.Starts (vs.take pos ++ bytes) := by
  obtain ⟨block', hwrite⟩ := Block.exists_write hroom
  exact ⟨block', by rw [blockWrite, hwrite]; rfl, Block.length_write hwrite,
    h.write hpos hwrite⟩

/-- A block that starts with a terminated text is that string. -/
theorem blockStr_spec {block : Block UInt8} {bytes : List UInt8}
    (h : block.Starts (bytes ++ [0])) : blockStr block = .ok (.ofBytes bytes) := by
  have hread := h.readWhile (p := (· ≠ 0)) ⟨0, by simp, by decide⟩
  have htake : (bytes ++ [0]).takeWhile (· ≠ 0) = cString bytes := cString_append_nul bytes
  rw [blockStr, hread, htake]
  exact congrArg Except.ok (Subtype.ext (cString_of_not_mem (CStr.ofBytes bytes).property))

/-- A text that is copied with its NUL is that string, if its size does not wrap. -/
theorem copyTerminated_eq {bytes : List UInt8} (h : bytes.length + 1 < 2 ^ 32) :
    copyTerminated bytes = .ok (.ofBytes bytes) := by
  have hroom : 0 + bytes.length ≤ (Block.alloc (bytes.length + 1) : Block UInt8).length := by
    rw [Block.length_alloc]
    omega
  obtain ⟨block₁, hfirst, hlength₁, hstarts₁⟩ :=
    blockWrite_spec (Block.starts_nil _) (Nat.zero_le _) hroom
  rw [List.take_nil, List.nil_append] at hstarts₁
  have hroom' : bytes.length + [(0 : UInt8)].length ≤ block₁.length := by
    rw [hlength₁, Block.length_alloc]
    exact Nat.le_refl _
  obtain ⟨block₂, hsecond, -, hstarts₂⟩ := blockWrite_spec hstarts₁ (Nat.le_refl _) hroom'
  rw [List.take_of_length_le (Nat.le_refl _)] at hstarts₂
  rw [copyTerminated, Nat.mod_eq_of_lt h, hfirst]
  show (blockWrite block₁ bytes.length [0] >>= blockStr) = _
  rw [hsecond]
  exact blockStr_spec hstarts₂

/-- No block has room for as many characters as overflow its size. -/
theorem copyTerminated_overflow {bytes : List UInt8} (h : bytes.length + 1 = 2 ^ 32) :
    copyTerminated bytes = .error .outOfBounds := by
  have hnone : (Block.alloc 0 : Block UInt8).write 0 bytes = none := by
    rw [Block.write, if_neg]
    rw [Block.length_alloc]
    omega
  rw [copyTerminated, h, Nat.mod_self, blockWrite, hnone]
  rfl

/-! ### Combining -/

/-- What is put between the two parts. -/
def delimiter (a : PlacedStr) : List UInt8 :=
  if a.char (a.str.val.length - 1) ≠ 47 then [47] else []

/-- What `path_combine` reads. -/
def combineReads (a b : PlacedStr) : List CharRead :=
  a.strReads ++ b.strReads ++ [a.reads (a.str.val.length - 1), b.reads 0] ++
    a.strReads ++ b.strReads

/-- The second part and its NUL go behind the first, whatever is there. -/
theorem combine_rest {block : Block UInt8} {first rest second : List UInt8} {aLen rLen : Nat}
    (reads : List CharRead) (h : block.Starts (first ++ rest)) (haLen : first.length = aLen)
    (hrLen : aLen + second.length = rLen) (hlength : block.length = rLen + 1) :
    (blockWrite block aLen (second ++ [0]) >>= fun r => blockWrite r rLen [0] >>= fun r =>
      blockStr r >>= fun str => pure (str, reads)) =
        .ok (.ofBytes (first ++ second), reads) := by
  subst haLen
  subst hrLen
  have hpos : first.length ≤ (first ++ rest).length := by simp
  have hroom : first.length + (second ++ [0]).length ≤ block.length := by
    rw [hlength, List.length_append, List.length_singleton]
    omega
  -- the first write leaves the text and a NUL, over which the second one goes
  obtain ⟨block₁, hfirst, hlength₁, hstarts₁⟩ := blockWrite_spec h hpos hroom
  rw [List.take_left, ← List.append_assoc] at hstarts₁
  have hpos' : first.length + second.length ≤ (first ++ second ++ [0]).length := by simp
  have hroom' : first.length + second.length + [(0 : UInt8)].length ≤ block₁.length := by
    rw [hlength₁, hlength]
    exact Nat.le_refl _
  obtain ⟨block₂, hsecond, -, hstarts₂⟩ := blockWrite_spec hstarts₁ hpos' hroom'
  rw [← List.length_append, List.take_left] at hstarts₂
  rw [hfirst]
  show (blockWrite block₁ (first.length + second.length) [0] >>= _) = _
  rw [hsecond]
  show (blockStr block₂ >>= _) = _
  rw [blockStr_spec hstarts₂]
  rfl

/-- `path_combine` appends the two with a delimiter where it sees none, and asserts that the
    second is not absolute. -/
theorem pathCombine_eq (a b : PlacedStr) :
    pathCombine a b = if b.char 0 = 47 then .error .assertion
      else .ok (.ofBytes (a.str.val ++ delimiter a ++ b.str.val), combineReads a b) := by
  -- the block has room for the first path and its NUL, with or without the delimiter
  have hroom : ∀ n, a.str.val.length ≤ n →
      0 + (a.str.val ++ [0]).length ≤ (Block.alloc (n + 1) : Block UInt8).length := by
    intro n hn
    rw [Block.length_alloc, List.length_append, List.length_singleton]
    omega
  unfold pathCombine
  by_cases hb : b.char 0 = 47
  · rw [if_pos hb, if_pos hb]
    rfl
  rw [if_neg hb, if_neg hb]
  by_cases hdelimiter : a.char (a.str.val.length - 1) ≠ 47
  -- a delimiter goes over the NUL
  · obtain ⟨block₁, hfirst, hlength₁, hstarts₁⟩ := blockWrite_spec (Block.starts_nil _)
      (Nat.zero_le _) (hroom (a.str.val.length + b.str.val.length + 1) (by omega))
    rw [List.take_nil, List.nil_append] at hstarts₁
    have hpos : a.str.val.length ≤ (a.str.val ++ [0]).length := by simp
    have hroom' : a.str.val.length + [(47 : UInt8)].length ≤ block₁.length := by
      rw [hlength₁, Block.length_alloc, List.length_singleton]
      omega
    obtain ⟨block₂, hsecond, hlength₂, hstarts₂⟩ := blockWrite_spec hstarts₁ hpos hroom'
    rw [List.take_left] at hstarts₂
    have hsum : a.str.val.length + 1 + b.str.val.length =
        a.str.val.length + b.str.val.length + 1 := by omega
    simp only [if_pos hdelimiter, hfirst]
    show (blockWrite block₁ a.str.val.length [47] >>= _) = _
    rw [hsecond, delimiter, if_pos hdelimiter]
    show (if a.str.val.length + 1 + b.str.val.length ≠ _ then _ else _) = _
    rw [if_neg (not_not.mpr hsum)]
    rw [← List.append_nil (a.str.val ++ [47])] at hstarts₂
    exact combine_rest _ hstarts₂ (by simp) hsum
      (by rw [hlength₂, hlength₁, Block.length_alloc])
  -- the second path goes over the NUL
  · obtain ⟨block₁, hfirst, hlength₁, hstarts₁⟩ := blockWrite_spec (Block.starts_nil _)
      (Nat.zero_le _) (hroom (a.str.val.length + b.str.val.length) (by omega))
    rw [List.take_nil, List.nil_append] at hstarts₁
    simp only [if_neg hdelimiter, hfirst]
    rw [delimiter, if_neg hdelimiter, List.append_nil]
    show (if a.str.val.length + b.str.val.length ≠ _ then _ else _) = _
    rw [if_neg (not_not.mpr rfl)]
    exact combine_rest _ hstarts₁ rfl rfl (by rw [hlength₁, Block.length_alloc])

/-! ### What is read -/

/-- A character of the string, or its NUL. -/
def InRange (c : CharRead) : Prop := 0 ≤ c.index ∧ c.index ≤ c.length

/-- The characters that a copy reads are those from where it starts. -/
theorem mem_copyReads {s : PlacedStr} {i : Int} {n : Nat} {c : CharRead} :
    c ∈ s.copyReads i n ↔ ∃ k < n, c = s.reads (i + (k : Nat)) := by
  simp [PlacedStr.copyReads, eq_comm]

/-- A scan of a string reads none but its own characters. -/
theorem inRange_strReads (s : PlacedStr) : ∀ c ∈ s.strReads, InRange c := by
  intro c hc
  obtain ⟨k, hk, rfl⟩ := mem_copyReads.mp hc
  have hk' : k ≤ s.str.val.length := Nat.le_of_lt_succ hk
  constructor
  · show (0 : Int) ≤ 0 + k
    omega
  · show (0 : Int) + k ≤ s.str.val.length
    omega

/-- Reading the character before an empty string is all that `path_combine` does wrong. -/
theorem inRange_combineReads_iff {a b : PlacedStr} :
    (∀ c ∈ combineReads a b, InRange c) ↔ a.str.val ≠ [] := by
  -- the last character of an empty path is the one before it in memory
  have hlast : InRange (a.reads (a.str.val.length - 1)) ↔ a.str.val ≠ [] := by
    rw [← List.length_pos_iff]
    show (0 : Int) ≤ a.str.val.length - 1 ∧ (a.str.val.length : Int) - 1 ≤ a.str.val.length ↔ _
    omega
  have hfirst : InRange (b.reads 0) := ⟨Int.le_refl 0, Int.natCast_nonneg _⟩
  constructor
  · intro h
    exact hlast.mp (h _ (by simp [combineReads]))
  · intro h c hc
    simp only [combineReads, List.mem_append, List.mem_cons, List.not_mem_nil, or_false] at hc
    obtain (((ha | hb) | (rfl | rfl)) | ha) | hb := hc
    · exact inRange_strReads a c ha
    · exact inRange_strReads b c hb
    · exact hlast.mpr h
    · exact hfirst
    · exact inRange_strReads a c ha
    · exact inRange_strReads b c hb

/-! ### The two parts -/

variable {path : PlacedStr} {loc : Nat}

/-- A copy has as many characters as it was to have. -/
theorem length_copied (s : PlacedStr) (i : Int) (n : Nat) : (s.copied i n).length = n := by
  rw [PlacedStr.copied, List.length_map, List.length_range]

/-- A copy that is made is made of what was to be copied. -/
theorem copyTerminated_eq_ok {bytes : List UInt8} {str : CStr} (hlt : bytes.length < 2 ^ 32)
    (h : copyTerminated bytes = .ok str) : str = .ofBytes bytes := by
  obtain hoverflow | hfits : bytes.length + 1 = 2 ^ 32 ∨ bytes.length + 1 < 2 ^ 32 := by omega
  · rw [copyTerminated_overflow hoverflow] at h
    cases h
  · rw [copyTerminated_eq hfits] at h
    cases h
    rfl

/-- What comes before the first NUL is no longer than the whole. -/
theorem length_cString_le (s : List UInt8) : (cString s).length ≤ s.length :=
  (List.takeWhile_prefix _).length_le

/-- A path without a slash has an empty directory name. -/
theorem fsfuseDirname_of_not_mem (h : 47 ∉ path.str.val) :
    fsfuseDirname path = .ok (.empty, path.strReads) := by
  rw [fsfuseDirname, strrchr_eq_none_iff.mpr h]

/-- A path without a slash is its own base name. -/
theorem fsfuseBasename_of_not_mem (h : 47 ∉ path.str.val) :
    fsfuseBasename path =
      .ok (path.str, path.strReads ++ path.strReads ++ path.strReads) := by
  rw [fsfuseBasename, strrchr_eq_none_iff.mpr h]

/-- A directory name is no longer than what is before the last `/`, or is a `/`. -/
theorem length_fsfuseDirname_le {dir : CStr} {reads : List CharRead}
    (hloc : strrchr 47 path.str.val = some loc) (h : fsfuseDirname path = .ok (dir, reads)) :
    dir.val.length ≤ max loc 1 := by
  rw [fsfuseDirname, hloc] at h
  dsimp only at h
  split at h
  · cases h
    exact Nat.le_max_right loc 1
  · obtain ⟨str, hcopy, h⟩ := Except.do_eq_ok_iff.mp h
    cases h
    have hlt := Nat.mod_lt loc (show 0 < 2 ^ 32 by decide)
    rw [copyTerminated_eq_ok (by rwa [length_copied]) hcopy]
    have hle := length_cString_le (path.copied 0 (loc % 2 ^ 32))
    rw [length_copied] at hle
    exact (hle.trans (Nat.mod_le _ _)).trans (Nat.le_max_left _ _)

/-- The base name of a path with a slash is no longer than what is copied, and all of that is
    read. -/
theorem fsfuseBasename_cases {base : CStr} {reads : List CharRead}
    (hloc : strrchr 47 path.str.val = some loc) (h : fsfuseBasename path = .ok (base, reads)) :
    base.val.length ≤ (path.str.val.length - loc + 1) % 2 ^ 32 ∧
      ∀ k < (path.str.val.length - loc + 1) % 2 ^ 32,
        path.reads (loc + 1 + (k : Nat)) ∈ reads := by
  rw [fsfuseBasename, hloc] at h
  dsimp only at h
  split at h
  -- the size has wrapped to nothing, and nothing is copied
  · rename_i hzero
    cases h
    rw [hzero]
    exact ⟨Nat.le_refl 0, fun k hk => absurd hk (Nat.not_lt_zero k)⟩
  -- what is copied ends at its first NUL, but all of it is read
  · obtain ⟨str, hcopy, h⟩ := Except.do_eq_ok_iff.mp h
    cases h
    have hlt := Nat.mod_lt (path.str.val.length - loc + 1) (show 0 < 2 ^ 32 by decide)
    constructor
    · rw [copyTerminated_eq_ok (by rwa [length_copied]) hcopy]
      have hle := length_cString_le (path.copied (loc + 1)
        ((path.str.val.length - loc + 1) % 2 ^ 32))
      rwa [length_copied] at hle
    · intro k hk
      exact List.mem_append_right _ (mem_copyReads.mpr ⟨k, hk, rfl⟩)

/-- `fsfuse_dirname` reads what it should. -/
theorem inRange_fsfuseDirname {dir : CStr} {reads : List CharRead}
    (h : fsfuseDirname path = .ok (dir, reads)) : ∀ c ∈ reads, InRange c := by
  rw [fsfuseDirname] at h
  split at h
  · cases h
    exact inRange_strReads path
  · rename_i loc hloc
    dsimp only at h
    split at h
    · cases h
      exact inRange_strReads path
    · obtain ⟨str, -, h⟩ := Except.do_eq_ok_iff.mp h
      cases h
      have hlt := lt_length_of_strrchr hloc
      intro c hc
      obtain hc | hc := List.mem_append.mp hc
      · exact inRange_strReads path c hc
      · obtain ⟨k, hk, rfl⟩ := mem_copyReads.mp hc
        -- the copy ends before the slash
        have hmod := Nat.mod_le loc (2 ^ 32)
        constructor
        · show (0 : Int) ≤ 0 + k
          omega
        · show (0 : Int) + k ≤ path.str.val.length
          omega

/-- `fsfuse_basename` reads behind the NUL of every path with a `/`. -/
theorem inRange_fsfuseBasename_iff {base : CStr} {reads : List CharRead}
    (hshort : path.str.val.length + 2 < 2 ^ 32) (h : fsfuseBasename path = .ok (base, reads)) :
    (∀ c ∈ reads, InRange c) ↔ 47 ∉ path.str.val := by
  cases hloc : strrchr 47 path.str.val with
  | none =>
    have hnot := strrchr_eq_none_iff.mp hloc
    rw [fsfuseBasename_of_not_mem hnot] at h
    cases h
    refine ⟨fun _ => hnot, fun _ c hc => ?_⟩
    simp only [List.mem_append, or_self] at hc
    exact inRange_strReads path c hc
  | some loc =>
    have hlt := lt_length_of_strrchr hloc
    obtain ⟨-, hreads⟩ := fsfuseBasename_cases hloc h
    rw [Nat.mod_eq_of_lt (by omega)] at hreads
    -- the last character that is copied is behind the NUL
    have hlast := hreads (path.str.val.length - loc) (Nat.lt_succ_self _)
    constructor
    · intro hall
      have hle : (loc : Int) + 1 + (path.str.val.length - loc : Nat) ≤ path.str.val.length :=
        (hall _ hlast).2
      omega
    · intro hnot
      exact absurd (mem_of_strrchr hloc) hnot

/-! ### The value -/

/-- What is before the last `/`, or the `/` itself. -/
theorem fsfuseDirname_of_loc (hloc : strrchr 47 path.str.val = some loc)
    (hshort : path.str.val.length + 2 < 2 ^ 32) :
    ∃ dir reads, fsfuseDirname path = .ok (dir, reads) ∧
      dir.val = if loc = 0 then [47] else path.str.val.take loc := by
  have hlt := lt_length_of_strrchr hloc
  have hmod : loc % 2 ^ 32 = loc := Nat.mod_eq_of_lt (by omega)
  unfold fsfuseDirname
  rw [hloc]
  dsimp only
  rw [hmod]
  split
  · exact ⟨_, _, rfl, rfl⟩
  · rw [copyTerminated_eq (by rw [length_copied]; omega)]
    refine ⟨_, _, rfl, ?_⟩
    exact PlacedStr.cString_copied (Nat.zero_le _) loc

/-- What is behind the last `/`. -/
theorem fsfuseBasename_of_loc (hloc : strrchr 47 path.str.val = some loc)
    (hshort : path.str.val.length + 2 < 2 ^ 32) :
    ∃ base reads, fsfuseBasename path = .ok (base, reads) ∧
      base.val = path.str.val.drop (loc + 1) := by
  have hlt := lt_length_of_strrchr hloc
  have hmod : (path.str.val.length - loc + 1) % 2 ^ 32 = path.str.val.length - loc + 1 :=
    Nat.mod_eq_of_lt (by omega)
  unfold fsfuseBasename
  rw [hloc]
  dsimp only
  rw [hmod, if_neg (Nat.succ_ne_zero _), copyTerminated_eq (by rw [length_copied]; omega)]
  refine ⟨_, _, rfl, ?_⟩
  have hcopied := PlacedStr.cString_copied (s := path) hlt (path.str.val.length - loc + 1)
  rw [List.take_of_length_le (by rw [List.length_drop]; omega)] at hcopied
  exact hcopied

/-- A string without a slash does not start with one. -/
theorem char_zero_ne {b : PlacedStr} (h : 47 ∉ b.str.val) : b.char 0 ≠ 47 := by
  have hchar : b.char (0 : Nat) = b.str.val.getD 0 0 := PlacedStr.char_of_lt (Nat.zero_le _)
  rw [Nat.cast_zero] at hchar
  rw [hchar]
  cases hb : b.str.val with
  | nil => decide
  | cons c s =>
    rw [hb] at h
    exact fun hc => h (hc ▸ List.mem_cons_self)

/-- Combining with a string without a slash goes through, and appends it behind the delimiter. -/
theorem pathCombine_of_not_mem (a : PlacedStr) {b : PlacedStr} (h : 47 ∉ b.str.val) :
    ∃ r, pathCombine a b = .ok (r, combineReads a b) ∧
      r.val = a.str.val ++ delimiter a ++ b.str.val := by
  refine ⟨_, (pathCombine_eq a b).trans (if_neg (char_zero_ne h)), ?_⟩
  apply cString_of_not_mem
  have hdelimiter : 0 ∉ delimiter a := by
    unfold delimiter
    split <;> decide
  simp [a.str.property, b.str.property, hdelimiter]

/-- Behind an empty string the delimiter depends on the byte before it in memory. -/
theorem delimiter_nil (around : Int → UInt8) :
    delimiter ⟨.empty, around⟩ = if around (-1) ≠ 47 then [47] else [] := rfl

/-- A name that does not end in a `/` gets one. -/
theorem delimiter_concat {a : PlacedStr} {s : List UInt8} {c : UInt8} (h : a.str.val = s ++ [c]) :
    delimiter a = if c ≠ 47 then [47] else [] := by
  have hlast : (a.str.val.length : Int) - 1 = s.length := by
    rw [h, List.length_append, List.length_singleton]
    omega
  have hle : s.length ≤ a.str.val.length := by
    rw [h]
    simp
  have hchar : a.char s.length = c := by
    rw [PlacedStr.char_of_lt hle, h]
    simp
  rw [delimiter, hlast, hchar]

/-- The parts of a path without `//` combine to it exactly if it has a `/`, or the memory before
    its empty directory name happens to have one. -/
theorem pathCombine_parts_iff (hdouble : ¬ [47, 47] <:+: path.str.val)
    (hshort : path.str.val.length + 2 < 2 ^ 32) (aroundDir aroundBase : Int → UInt8) :
    (∃ dir base readsDir readsBase readsCombine,
      fsfuseDirname path = .ok (dir, readsDir) ∧ fsfuseBasename path = .ok (base, readsBase) ∧
      pathCombine ⟨dir, aroundDir⟩ ⟨base, aroundBase⟩ = .ok (path.str, readsCombine)) ↔
        47 ∈ path.str.val ∨ aroundDir (-1) = 47 := by
  cases hloc : strrchr 47 path.str.val with
  | none =>
    have hnot : 47 ∉ path.str.val := strrchr_eq_none_iff.mp hloc
    obtain ⟨r, hcombine, hr⟩ := pathCombine_of_not_mem
      ⟨.empty, aroundDir⟩ (b := ⟨path.str, aroundBase⟩) hnot
    rw [delimiter_nil] at hr
    constructor
    -- without a slash the directory is empty, and a delimiter is put in front
    · rintro ⟨dir, base, readsDir, readsBase, readsCombine, hdir, hbase, hcombine'⟩
      rw [fsfuseDirname_of_not_mem hnot] at hdir
      rw [fsfuseBasename_of_not_mem hnot] at hbase
      cases hdir
      cases hbase
      rw [hcombine] at hcombine'
      cases hcombine'
      -- a path cannot be itself with a slash in front
      by_contra hne
      have haround : aroundDir (-1) ≠ 47 := fun h => hne (.inr h)
      rw [if_pos haround] at hr
      simp [CStr.empty] at hr
    · rintro (hmem | haround)
      · exact absurd hmem hnot
      · rw [if_neg (not_not.mpr haround)] at hr
        rw [show r = path.str from Subtype.ext hr] at hcombine
        exact ⟨_, _, _, _, _, fsfuseDirname_of_not_mem hnot, fsfuseBasename_of_not_mem hnot,
          hcombine⟩
  | some loc =>
    obtain ⟨pre, post, hsplit, hpre, hpost⟩ := strrchr_eq_some hloc
    obtain ⟨dir, readsDir, hdirname, hdir⟩ := fsfuseDirname_of_loc hloc hshort
    obtain ⟨base, readsBase, hbasename, hbase⟩ := fsfuseBasename_of_loc hloc hshort
    have hbase' : base.val = post := by
      rw [hbase, hsplit, ← hpre]
      simp
    obtain ⟨r, hcombine, hr⟩ := pathCombine_of_not_mem ⟨dir, aroundDir⟩
      (b := ⟨base, aroundBase⟩) (hbase' ▸ hpost)
    -- with a slash the delimiter is the one there was
    have hwhole : dir.val ++ delimiter ⟨dir, aroundDir⟩ ++ base.val = path.str.val := by
      rw [hbase', hsplit]
      rcases List.eq_nil_or_concat pre with rfl | ⟨pre', c, rfl⟩
      · -- the root
        have hroot : dir.val = [] ++ [47] := hdir.trans (if_pos hpre.symm)
        rw [delimiter_concat (a := ⟨dir, aroundDir⟩) hroot, hroot]
        rfl
      · rw [List.concat_eq_append] at hsplit hpre ⊢
        -- what precedes the slash does not end in one, and so one is added
        have hne : loc ≠ 0 := by
          rw [← hpre]
          simp
        have htake : dir.val = pre' ++ [c] := by
          rw [hdir, if_neg hne, hsplit, ← hpre]
          exact List.take_left
        have hc : c ≠ 47 := by
          rintro rfl
          apply hdouble
          rw [hsplit]
          exact ⟨pre', post, by simp⟩
        rw [delimiter_concat (a := ⟨dir, aroundDir⟩) htake, if_pos hc, htake]
        simp
    refine ⟨fun _ => .inl (mem_of_strrchr hloc), fun _ => ?_⟩
    rw [hwhole] at hr
    rw [Subtype.ext hr] at hcombine
    exact ⟨dir, base, readsDir, readsBase, _, hdirname, hbasename, hcombine⟩

/-- The parts of a path combine to it, and no character is read outside of a string. -/
def RoundTrips (path : PlacedStr) (aroundDir aroundBase : Int → UInt8) : Prop :=
  ∃ dir base readsDir readsBase readsCombine,
    fsfuseDirname path = .ok (dir, readsDir) ∧ fsfuseBasename path = .ok (base, readsBase) ∧
    pathCombine ⟨dir, aroundDir⟩ ⟨base, aroundBase⟩ = .ok (path.str, readsCombine) ∧
    ∀ c ∈ readsDir ++ readsBase ++ readsCombine, InRange c

/-- No path comes through without a character that is read outside of a string: the one behind
    its NUL, or the one before its empty directory name. (A path with so much behind its last
    `/` that its length wraps does not come out whole.) -/
theorem not_roundTrips (path : PlacedStr) (aroundDir aroundBase : Int → UInt8) :
    ¬ RoundTrips path aroundDir aroundBase := by
  rintro ⟨dir, base, readsDir, readsBase, readsCombine, hdir, hbase, hcombine, hreads⟩
  have hcombined : (CStr.ofBytes (dir.val ++ delimiter ⟨dir, aroundDir⟩ ++ base.val),
      combineReads ⟨dir, aroundDir⟩ ⟨base, aroundBase⟩) = (path.str, readsCombine) := by
    rw [pathCombine_eq] at hcombine
    split at hcombine
    · cases hcombine
    · exact Except.ok.inj hcombine
  obtain ⟨hpath, rfl⟩ := Prod.mk.inj hcombined
  cases hloc : strrchr 47 path.str.val with
  | none =>
    rw [fsfuseDirname_of_not_mem (strrchr_eq_none_iff.mp hloc)] at hdir
    cases hdir
    have hrange := inRange_combineReads_iff.mp fun c hc =>
      hreads c (List.mem_append_right _ hc)
    exact hrange rfl
  | some loc =>
    obtain ⟨pre, post, hsplit, hpre, hpost⟩ := strrchr_eq_some hloc
    have hlength : path.str.val.length = loc + post.length + 1 := by
      rw [hsplit, List.length_append, List.length_cons, hpre]
      omega
    obtain ⟨hle, hmem⟩ := fsfuseBasename_cases hloc hbase
    by_cases hwrap : path.str.val.length - loc + 1 < 2 ^ 32
    · -- the last character that is copied is behind the NUL
      rw [Nat.mod_eq_of_lt hwrap] at hmem
      have hread := hmem (path.str.val.length - loc) (Nat.lt_succ_self _)
      have hrange := (hreads _ (List.mem_append_left _ (List.mem_append_right _ hread))).2
      have hle : ((loc + 1 + (path.str.val.length - loc : Nat) : Nat) : Int) ≤
          path.str.val.length := hrange
      omega
    · -- what is copied is shorter than what there is
      have hdir_le := length_fsfuseDirname_le hloc hdir
      have hdelimiter : (delimiter ⟨dir, aroundDir⟩).length ≤ 1 := by
        unfold delimiter
        split <;> decide
      have hmod : (path.str.val.length - loc + 1) % 2 ^ 32 + 2 ^ 32 ≤
          path.str.val.length - loc + 1 := by omega
      have hshort := length_cString_le (dir.val ++ delimiter ⟨dir, aroundDir⟩ ++ base.val)
      have hwhole : (cString (dir.val ++ delimiter ⟨dir, aroundDir⟩ ++ base.val)).length =
          path.str.val.length := congrArg List.length (congrArg Subtype.val hpath)
      rw [List.length_append, List.length_append] at hshort
      omega

/-- `/foo`: of its five characters, NUL included, `fsfuse_basename` reads a sixth. `foo`: what
    its parts combine to has a `/` more where the memory before the directory name has none. -/
theorem roundTrip_foo :
    (∃ base reads, fsfuseBasename ⟨⟨ascii "/foo", by decide⟩, fun _ => 46⟩ = .ok (base, reads) ∧
      ⟨5, 4⟩ ∈ reads) ∧
    ¬ RoundTrips ⟨⟨ascii "/foo", by decide⟩, fun _ => 46⟩ (fun _ => 46) (fun _ => 46) ∧
    (∃ reads, fsfuseDirname ⟨⟨ascii "foo", by decide⟩, fun _ => 46⟩ =
      .ok (.empty, reads)) ∧
    (∃ reads, fsfuseBasename ⟨⟨ascii "foo", by decide⟩, fun _ => 46⟩ =
      .ok (⟨ascii "foo", by decide⟩, reads)) ∧
    ∃ reads, pathCombine ⟨.empty, fun _ => 46⟩
      ⟨⟨ascii "foo", by decide⟩, fun _ => 46⟩ = .ok (⟨ascii "/foo", by decide⟩, reads) := by
  have hbase : ∃ base reads, fsfuseBasename ⟨⟨ascii "/foo", by decide⟩, fun _ => 46⟩ =
      .ok (base, reads) := ⟨_, _, rfl⟩
  have hread : ∀ base reads, fsfuseBasename ⟨⟨ascii "/foo", by decide⟩, fun _ => 46⟩ =
      .ok (base, reads) → ⟨5, 4⟩ ∈ reads := by
    intro base reads h
    have hloc : strrchr 47 (ascii "/foo") = some 0 := by decide
    exact (fsfuseBasename_cases hloc h).2 4 (by decide)
  -- the character behind the NUL is read
  obtain ⟨base, reads, h⟩ := hbase
  refine ⟨⟨base, reads, h, hread base reads h⟩, ?_, ⟨_, rfl⟩, ⟨_, rfl⟩, ⟨_, rfl⟩⟩
  rintro ⟨dir, base', readsDir, readsBase, readsCombine, -, hbase', -, hreads⟩
  have hrange := hreads _ (List.mem_append_left _ (List.mem_append_right _
    (hread base' readsBase hbase')))
  exact absurd hrange.2 (by decide)

end Fsfuse.Native
