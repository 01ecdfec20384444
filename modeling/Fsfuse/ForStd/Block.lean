import Mathlib.Data.List.Basic

/-!
# Blocks of memory

A block that a program has allocated: its cells, which hold nothing until they are first
written. Access outside the block, and reading a cell that has not been written, have no
result. What a program knows of a block is mostly what it starts with: these are the rules
for what a block still starts with after an operation, and for reading that.
-/

/-- The cells of a block, and what they hold. -/
abbrev Block (β : Type*) := List (Option β)

namespace Block

variable {β : Type*}

/-- A block that has just been allocated. -/
def alloc (n : Nat) : Block β := List.replicate n none

/-- A block that has been given another size. -/
def resize (b : Block β) (n : Nat) : Block β := b.take n ++ alloc (n - b.length)

/-- A block with values written from a position on. -/
def write (b : Block β) (pos : Nat) (vs : List β) : Option (Block β) :=
  if pos + vs.length ≤ b.length then
    some (b.take pos ++ vs.map some ++ b.drop (pos + vs.length))
  else none

/-- The first values in a block. -/
def read : Nat → Block β → Option (List β)
  | 0, _ => some []
  | n + 1, some v :: b => (read n b).map (v :: ·)
  | _ + 1, _ => none

/-- The values of a block up to the first that lacks a property. -/
def readWhile (p : β → Bool) : Block β → Option (List β)
  | some v :: b => if p v then (readWhile p b).map (v :: ·) else some []
  | _ => none

/-- A block starts with some values. -/
def Starts (b : Block β) (vs : List β) : Prop := vs.map some <+: b

variable {b b' : Block β} {pos n : Nat} {vs ws : List β}

/-- Every block starts with nothing. -/
theorem starts_nil (b : Block β) : b.Starts [] := List.nil_prefix

/-- What a block starts with is in its first cells. -/
theorem starts_cons_iff {v : β} {vs : List β} {b : Block β} :
    b.Starts (v :: vs) ↔ ∃ rest : Block β, b = some v :: rest ∧ rest.Starts vs := by
  constructor
  · rintro ⟨rest, rfl⟩
    exact ⟨vs.map some ++ rest, rfl, rest, rfl⟩
  · rintro ⟨_, rfl, rest, rfl⟩
    exact ⟨rest, rfl⟩

/-- What a block starts with fits into it. -/
theorem Starts.length_le (h : b.Starts vs) : vs.length ≤ b.length := by
  have hle := List.IsPrefix.length_le h
  rwa [List.length_map] at hle

/-! ### Allocating -/

/-- A new block has as many cells as were asked for. -/
@[simp] theorem length_alloc (n : Nat) : (alloc n : Block β).length = n := List.length_replicate

/-- A block that is resized has as many cells as were asked for. -/
@[simp] theorem length_resize (b : Block β) (n : Nat) : (b.resize n).length = n := by
  rw [resize, List.length_append, List.length_take, length_alloc]
  omega

/-- A block that grows starts with what it started with. -/
theorem Starts.resize (h : b.Starts vs) (hn : vs.length ≤ n) : (b.resize n).Starts vs := by
  rw [Block.resize, Starts]
  refine (List.prefix_take_iff.mpr ⟨h, ?_⟩).trans (List.prefix_append _ _)
  rwa [List.length_map]

/-! ### Writing -/

/-- A write goes through where it fits, and leaves the other cells alone. -/
theorem write_eq_some_iff : b.write pos vs = some b' ↔
    pos + vs.length ≤ b.length ∧
      b' = b.take pos ++ vs.map some ++ b.drop (pos + vs.length) := by
  rw [write]
  split
  · rename_i hle
    rw [Option.some.injEq, eq_comm, iff_true_intro hle, true_and]
  · rename_i hlt
    simp [hlt]

/-- What fits can be written. -/
theorem exists_write (hroom : pos + vs.length ≤ b.length) : ∃ b', b.write pos vs = some b' :=
  ⟨_, write_eq_some_iff.mpr ⟨hroom, rfl⟩⟩

/-- A write does not change the size of a block. -/
theorem length_write (h : b.write pos vs = some b') : b'.length = b.length := by
  obtain ⟨hroom, rfl⟩ := write_eq_some_iff.mp h
  rw [List.length_append, List.length_append, List.length_take, List.length_map,
    List.length_drop]
  omega

/-- What is written goes to the end of what the block started with before its position. -/
theorem Starts.write (h : b.Starts vs) (hpos : pos ≤ vs.length)
    (hwrite : b.write pos ws = some b') : b'.Starts (vs.take pos ++ ws) := by
  obtain ⟨-, rfl⟩ := write_eq_some_iff.mp hwrite
  obtain ⟨rest, rfl⟩ := h
  have hpos' : pos ≤ (vs.map some).length := by rwa [List.length_map]
  rw [Starts, List.take_append_of_le_length hpos', ← List.map_take, List.map_append]
  exact List.prefix_append _ _

/-! ### Reading -/

/-- What the block starts with can be read. -/
theorem Starts.read (h : b.Starts vs) : b.read vs.length = some vs := by
  induction vs generalizing b with
  | nil => rfl
  | cons v vs ih =>
    obtain ⟨rest, rfl, hrest⟩ := starts_cons_iff.mp h
    show (Block.read vs.length rest).map (v :: ·) = _
    rw [ih hrest]
    rfl

/-- What a block starts with is read back. -/
theorem Starts.getElem? (h : b.Starts vs) {i : Nat} {v : β} (hv : vs[i]? = some v) :
    b[i]? = some (some v) := by
  obtain ⟨rest, rfl⟩ := h
  obtain ⟨hi, -⟩ := List.getElem?_eq_some_iff.mp hv
  have hi' : i < (vs.map some).length := by rwa [List.length_map]
  rw [List.getElem?_append_left hi', List.getElem?_map, hv]
  rfl

/-- A value that lacks the property ends what is read, if it comes in what the block starts
    with. -/
theorem Starts.readWhile {p : β → Bool} (h : b.Starts vs) (hstop : ∃ v ∈ vs, p v = false) :
    b.readWhile p = some (vs.takeWhile p) := by
  induction vs generalizing b with
  | nil =>
    obtain ⟨v, hv, -⟩ := hstop
    cases hv
  | cons v vs ih =>
    obtain ⟨rest, rfl, hrest⟩ := starts_cons_iff.mp h
    rw [Block.readWhile, List.takeWhile_cons]
    cases hp : p v with
    | false => rfl
    | true =>
      have hstop' : ∃ w ∈ vs, p w = false := by
        obtain ⟨w, hw, hpw⟩ := hstop
        obtain rfl | hw := List.mem_cons.mp hw
        · rw [hp] at hpw
          cases hpw
        · exact ⟨w, hw, hpw⟩
      rw [if_pos rfl, if_pos rfl, ih hrest hstop']
      rfl

end Block
