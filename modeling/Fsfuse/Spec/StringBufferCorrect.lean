import Fsfuse.Native.StringBuffer

/-!
# String buffers hold strings

A string buffer is meant to be a string that can be appended to and printed to. The buffer
holds a string if its memory starts with the string and a NUL, and its length is the string's:
each operation on a buffer that holds a string leaves one that holds what the operation makes
of the string, and whatever it writes is within the memory that is allocated.

The one thing that can go wrong is a text of which `vsnprintf` cannot return the length: the
first assertion of `string_buffer_printf` stops it.
-/

namespace Fsfuse.Native

/-! ### Strings -/

/-- A string ends where its characters do, if there is no NUL among them. -/
theorem cString_of_not_mem {s : List UInt8} (h : 0 ∉ s) : cString s = s := by
  rw [cString, List.takeWhile_eq_self_iff]
  intro c hc
  exact decide_eq_true fun heq => h (heq ▸ hc)

/-- A NUL behind a string ends it, if it has not ended before. -/
theorem cString_append_nul (s : List UInt8) : cString (s ++ [0]) = cString s := by
  rw [cString, List.takeWhile_append]
  split
  · rename_i hall
    rw [List.takeWhile_cons_of_neg (by decide), List.append_nil, cString]
    exact (List.takeWhile_prefix _).eq_of_length hall |>.symm
  · rfl

/-- A string with its NUL is read back as the string. -/
theorem ofBytes_append_nul (s : CStr) : CStr.ofBytes (s.val ++ [0]) = s :=
  Subtype.ext ((cString_append_nul s.val).trans (cString_of_not_mem s.property))

namespace StringBuffer

/-! ### Holding a string -/

/-- A buffer that holds a string. -/
structure Holds (sb : StringBuffer) (content : List UInt8) : Prop where
  length : sb.length = content.length
  starts : sb.s.Starts (content ++ [0])

variable {sb : StringBuffer} {content : List UInt8}

/-- A buffer has room for its text and the NUL. -/
theorem Holds.lt_capacity (h : sb.Holds content) : sb.length + 1 ≤ sb.capacity := by
  have hle := h.starts.length_le
  rw [List.length_append, List.length_singleton, ← h.length] at hle
  exact hle.trans_eq sb.length_s

/-- A buffer is never without memory. -/
theorem Holds.capacity_ne_zero (h : sb.Holds content) : sb.capacity ≠ 0 :=
  Nat.ne_of_gt (Nat.lt_of_lt_of_le (Nat.succ_pos _) h.lt_capacity)

/-- The text of a buffer is terminated. -/
theorem Holds.terminated (h : sb.Holds content) : sb.s[sb.length]? = some (some 0) := by
  apply h.starts.getElem?
  rw [h.length, List.getElem?_append_right (Nat.le_refl _), Nat.sub_self]
  rfl

/-- What is read of the buffer ends at the first NUL, which is behind the string unless the
    string has one. -/
theorem Holds.peek (h : sb.Holds content) : sb.peek = .ok (cString content) := by
  have hread := h.starts.readWhile (p := (· ≠ 0)) ⟨0, by simp, by decide⟩
  have htake : (content ++ [0]).takeWhile (· ≠ 0) = cString content := cString_append_nul content
  rw [StringBuffer.peek, hread, htake]
  rfl

/-- `string_buffer_commit` gives the text with its NUL. -/
theorem Holds.commit (h : sb.Holds content) : sb.commit = .ok (content ++ [0]) := by
  have hread := h.starts.read
  rw [List.length_append, List.length_singleton, ← h.length] at hread
  rw [StringBuffer.commit, hread]
  rfl

/-! ### Writing -/

/-- A write within the capacity. -/
theorem exists_write (sb : StringBuffer) {pos : Nat} {bytes : List UInt8}
    (hroom : pos + bytes.length ≤ sb.capacity) :
    ∃ sb', sb.write pos bytes = .ok sb' ∧ sb'.capacity = sb.capacity ∧ sb'.length = sb.length ∧
      sb.s.write pos bytes = some sb'.s := by
  rw [← sb.length_s] at hroom
  obtain ⟨s, hs⟩ := Block.exists_write hroom
  unfold write
  split
  · rename_i s' hs'
    exact ⟨_, rfl, rfl, rfl, hs'⟩
  · rename_i hnone
    rw [hs] at hnone
    cases hnone

/-- There is room for the string that is asked for and its NUL, and nothing is lost. -/
theorem ensureCapacity_spec (sb : StringBuffer) (cap : Nat) :
    cap + 1 ≤ (sb.ensureCapacity cap).capacity ∧
      (sb.ensureCapacity cap).length = sb.length ∧
      ∀ vs, sb.s.Starts vs → (sb.ensureCapacity cap).s.Starts vs := by
  unfold ensureCapacity
  dsimp only
  split
  · rename_i hlt
    refine ⟨Nat.le_refl _, rfl, fun vs hvs => hvs.resize ?_⟩
    have hle := hvs.length_le
    rw [sb.length_s] at hle
    omega
  · rename_i hge
    exact ⟨Nat.le_of_not_lt hge, rfl, fun _ hvs => hvs⟩

/-- `string_buffer_from_chars` makes a buffer with the string as its text. -/
theorem fromChars_spec (string : CStr) :
    ∃ sb, fromChars string = .ok sb ∧ sb.Holds string.val := by
  have hroom : 0 + (string.val ++ [0]).length ≤ string.val.length + 1 := by simp
  obtain ⟨sb, hwrite, -, hlength, hblock⟩ := exists_write
    ⟨string.val.length + 1, string.val.length, .alloc (string.val.length + 1),
      Block.length_alloc (string.val.length + 1)⟩ hroom
  refine ⟨sb, hwrite, hlength, ?_⟩
  exact (Block.starts_nil _).write (Nat.zero_le _) hblock

/-- The string comes in the place of the NUL. -/
theorem append_spec (h : sb.Holds content) (string : CStr) :
    ∃ sb', sb.append string = .ok sb' ∧ sb'.Holds (content ++ string.val) := by
  obtain ⟨hcap, hlength, hstarts⟩ :=
    ensureCapacity_spec sb (sb.length + string.val.length)
  -- there is room for the string and its NUL behind the text
  have hroom : (sb.ensureCapacity (sb.length + string.val.length)).length +
      (string.val ++ [0]).length ≤
        (sb.ensureCapacity (sb.length + string.val.length)).capacity := by
    rw [hlength, List.length_append, List.length_singleton]
    omega
  obtain ⟨sb', hwrite, -, hlength', hblock⟩ := exists_write _ hroom
  refine ⟨{ sb' with length := sb'.length + string.val.length }, ?_, ?_, ?_⟩
  · unfold append
    dsimp only
    rw [hwrite]
    rfl
  · show sb'.length + string.val.length = _
    rw [hlength', hlength, h.length, List.length_append]
  · have hpos : (sb.ensureCapacity (sb.length + string.val.length)).length ≤
        (content ++ [0]).length := by
      rw [hlength, h.length, List.length_append]
      exact Nat.le_add_right _ _
    -- the string goes over the NUL of the text
    have hwritten := (hstarts _ h.starts).write hpos hblock
    rw [hlength, h.length, List.take_left, ← List.append_assoc] at hwritten
    exact hwritten

/-! ### Printing -/

/-- The size that `vsnprintf` returns. -/
def outputSize (text : List UInt8) : Int := if text.length < 2 ^ 31 then text.length else -1

/-- `vsnprintf` writes as much of the text as there is room for, and returns the length of all
    of it. -/
theorem vsnprintf_spec (hcap : sb.capacity ≠ 0) (text : List UInt8) :
    ∃ sb', sb.vsnprintf text = .ok (sb', outputSize text) ∧ sb'.capacity = sb.capacity ∧
      sb'.s.Starts (text.take (sb.capacity - 1) ++ [0]) := by
  have hroom : 0 + (text.take (sb.capacity - 1) ++ [0]).length ≤ sb.capacity := by
    rw [List.length_append, List.length_take, List.length_singleton]
    omega
  obtain ⟨sb', hwrite, hcapacity, -, hblock⟩ := exists_write sb hroom
  refine ⟨sb', ?_, hcapacity, (Block.starts_nil _).write (Nat.zero_le _) hblock⟩
  unfold vsnprintf
  dsimp only
  rw [if_neg hcap, hwrite]
  rfl

/-- A text replaces the string, whether or not there was room for it at first. -/
theorem printf_spec (h : sb.Holds content) {text : List UInt8} (hsize : text.length < 2 ^ 31) :
    ∃ sb', sb.printf text = .ok sb' ∧ sb'.Holds text := by
  have hsize' : outputSize text = text.length := if_pos hsize
  obtain ⟨sb₁, hfirst, hcap₁, hstarts₁⟩ := vsnprintf_spec h.capacity_ne_zero text
  have hnonneg : ¬ outputSize text < 0 := by omega
  unfold printf
  rw [hfirst]
  simp only [bind, Except.bind]
  rw [if_neg hnonneg]
  by_cases hfits : text.length < sb₁.capacity
  · -- all of the text is there
    have hall : text.take (sb.capacity - 1) = text := List.take_of_length_le (by omega)
    rw [hall] at hstarts₁
    rw [if_neg (by rw [hsize']; exact Nat.not_le_of_lt hfits)]
    refine ⟨_, rfl, ?_, hstarts₁⟩
    rw [hsize']
    rfl
  · -- there is room for it the second time
    obtain ⟨hroom, -, -⟩ := ensureCapacity_spec sb₁ text.length
    have hne : (sb₁.ensureCapacity text.length).capacity ≠ 0 := by omega
    obtain ⟨sb₂, hsecond, hcap₂, hstarts₂⟩ := vsnprintf_spec hne text
    have hall : text.take ((sb₁.ensureCapacity text.length).capacity - 1) = text :=
      List.take_of_length_le (by omega)
    rw [hall] at hstarts₂
    have hlt : (text.length : Int) ≥ 0 ∧ (text.length : Int).toNat < sb₂.capacity := by omega
    rw [if_pos (by omega)]
    simp only [hsize', Int.toNat_natCast] at hsecond ⊢
    rw [hsecond]
    dsimp only
    rw [if_neg (not_not.mpr hlt)]
    exact ⟨_, rfl, rfl, hstarts₂⟩

/-- A text whose length is no `int` stops the daemon. -/
theorem printf_of_le (h : sb.Holds content) {text : List UInt8} (hsize : 2 ^ 31 ≤ text.length) :
    sb.printf text = .error .assertion := by
  have hsize' : outputSize text = -1 := if_neg (Nat.not_lt_of_le hsize)
  obtain ⟨sb', hfirst, -, -⟩ := vsnprintf_spec h.capacity_ne_zero text
  unfold printf
  rw [hfirst, hsize']
  rfl

/-! ### Any operations -/

/-- What is done to a buffer. -/
inductive Op
  | append (string : CStr)
  | printf (text : List UInt8)

/-- An operation on a buffer. -/
def apply (sb : StringBuffer) : Op → Except Fault StringBuffer
  | .append string => sb.append string
  | .printf text => sb.printf text

/-- What an operation makes of a string. -/
def Op.denote (content : List UInt8) : Op → List UInt8
  | .append string => content ++ string.val
  | .printf text => text

/-- `vsnprintf` has a length to return for all that is printed. -/
def Op.Sized : Op → Prop
  | .append _ => True
  | .printf text => text.length < 2 ^ 31

/-- An operation leaves the string it should, or it is not sized. -/
theorem apply_spec (h : sb.Holds content) (op : Op) :
    (op.Sized → ∃ sb', sb.apply op = .ok sb' ∧ sb'.Holds (op.denote content)) ∧
      (¬ op.Sized → sb.apply op = .error .assertion) := by
  cases op with
  | append string => exact ⟨fun _ => append_spec h string, fun hnot => absurd trivial hnot⟩
  | printf text => exact ⟨fun hsize => printf_spec h hsize,
      fun hsize => printf_of_le h (Nat.le_of_not_lt hsize)⟩

/-- Operations go through, with the text that they are to make, if what they append is sized;
    otherwise the assertion fails. -/
theorem foldlM_apply_spec (h : sb.Holds content) (ops : List Op) :
    ((∀ op ∈ ops, op.Sized) →
        ∃ sb', ops.foldlM apply sb = .ok sb' ∧ sb'.Holds (ops.foldl Op.denote content)) ∧
      ((∃ op ∈ ops, ¬ op.Sized) → ops.foldlM apply sb = .error .assertion) := by
  induction ops generalizing sb content with
  | nil =>
    refine ⟨fun _ => ⟨sb, rfl, h⟩, ?_⟩
    rintro ⟨_, hop, -⟩
    cases hop
  | cons op ops ih =>
    obtain ⟨happly, hstop⟩ := apply_spec h op
    rw [List.foldlM_cons]
    -- the first operation that is not sized stops the run
    by_cases hsized : op.Sized
    · obtain ⟨sb₁, hsb₁, hholds⟩ := happly hsized
      obtain ⟨hrest, hrest'⟩ := ih hholds
      rw [hsb₁]
      constructor
      · intro hall
        exact hrest fun op' hop' => hall op' (List.mem_cons_of_mem op hop')
      · rintro ⟨op', hop', hnot⟩
        obtain rfl | hop' := List.mem_cons.mp hop'
        · exact absurd hsized hnot
        · exact hrest' ⟨op', hop', hnot⟩
    · rw [hstop hsized]
      exact ⟨fun hall => absurd (hall op List.mem_cons_self) hsized, fun _ => rfl⟩

/-- A buffer that is made of a string, appended to and printed to in any order. -/
def run (string : CStr) (ops : List Op) : Except Fault StringBuffer :=
  fromChars string >>= ops.foldlM apply

/-- A buffer is the string that its operations make: there is room for it and its NUL, which is
    where it should be, and it is what is read of the buffer and committed. No write is outside
    the memory allocated, and no assertion fails but for a text whose length is no `int`. -/
theorem run_refines (string : CStr) (ops : List Op) :
    (∀ sb, run string ops = .ok sb →
        sb.length = (ops.foldl Op.denote string.val).length ∧
        sb.length + 1 ≤ sb.capacity ∧
        sb.s[sb.length]? = some (some 0) ∧
        sb.peek = .ok (cString (ops.foldl Op.denote string.val)) ∧
        sb.commit = .ok (ops.foldl Op.denote string.val ++ [0])) ∧
      ((∃ sb, run string ops = .ok sb) ↔ ∀ text, .printf text ∈ ops → text.length < 2 ^ 31) ∧
      ∀ fault, run string ops = .error fault → fault = .assertion := by
  obtain ⟨sb₀, hnew, hholds₀⟩ := fromChars_spec string
  have hrun : run string ops = ops.foldlM apply sb₀ := by
    rw [run, hnew]
    rfl
  obtain ⟨hall, hstop⟩ := foldlM_apply_spec hholds₀ ops
  -- strings are always sized
  have hsized : (∀ op ∈ ops, op.Sized) ↔ ∀ text, .printf text ∈ ops → text.length < 2 ^ 31 := by
    constructor
    · intro h text htext
      exact h _ htext
    · intro h op hop
      cases op with
      | append string => trivial
      | printf text => exact h text hop
  rw [hrun, ← hsized]
  by_cases hops : ∀ op ∈ ops, op.Sized
  · obtain ⟨sb, hsb, hholds⟩ := hall hops
    rw [hsb]
    refine ⟨?_, ⟨fun _ => hops, fun _ => ⟨sb, rfl⟩⟩, ?_⟩
    · intro sb' heq
      cases heq
      exact ⟨hholds.length, hholds.lt_capacity, hholds.terminated, hholds.peek, hholds.commit⟩
    · intro fault heq
      cases heq
  · have herror := hstop (by simpa using hops)
    rw [herror]
    refine ⟨?_, ⟨?_, fun h => absurd h hops⟩, ?_⟩
    · intro sb heq
      cases heq
    · rintro ⟨sb, heq⟩
      cases heq
    · intro fault heq
      cases heq
      rfl

end StringBuffer

end Fsfuse.Native
