/-!
# Records read by the page

Records that are written one after the other, and read back from slices of that: a reader asks
for so much of it from some position on, takes the records that are in the slice as a whole,
and goes on at the position that the last of them gives. If every slice is long enough for any
record, and every record gives the position behind it, the reader gets all of them, in their
order and once each.
-/

namespace Records

variable {ρ β : Type}

/-- How records are written, and read from the front. -/
structure Format (ρ β : Type) where
  write : ρ → List β
  read : List β → Option (ρ × List β)

/-- What is written of a record is read back, whatever is behind it, and less of it is not. -/
structure Format.Delimits (f : Format ρ β) (r : ρ) : Prop where
  ne_nil : f.write r ≠ []
  read_write : ∀ rest, f.read (f.write r ++ rest) = some (r, rest)
  read_take : ∀ n < (f.write r).length, f.read ((f.write r).take n) = none

variable (f : Format ρ β)

/-- Records from the front, up to so many. -/
def Format.readUpTo : Nat → List β → List ρ
  | 0, _ => []
  | n + 1, bs =>
    match f.read bs with
    | none => []
    | some (r, rest) => r :: readUpTo n rest

/-- The records that are there as a whole. -/
def Format.records (bs : List β) : List ρ := f.readUpTo bs.length bs

/-- What is written of several records. -/
def Format.writeAll (rs : List ρ) : List β := rs.flatMap f.write

variable {f} {rs : List ρ}

@[simp] theorem writeAll_nil : f.writeAll [] = [] := rfl

@[simp] theorem writeAll_cons (r : ρ) (rs : List ρ) :
    f.writeAll (r :: rs) = f.write r ++ f.writeAll rs := rfl

/-- Records are written one after the other as they are written together. -/
theorem writeAll_append (rs rs' : List ρ) :
    f.writeAll (rs ++ rs') = f.writeAll rs ++ f.writeAll rs' :=
  List.flatMap_append

/-- The positions between records. -/
theorem length_writeAll_take_le (n : Nat) :
    (f.writeAll (rs.take n)).length ≤ (f.writeAll rs).length := by
  have hsplit : f.writeAll (rs.take n ++ rs.drop n) = _ := writeAll_append _ _
  rw [List.take_append_drop] at hsplit
  rw [hsplit, List.length_append]
  omega

/-- What follows the first records is the others, written. -/
theorem drop_writeAll (n : Nat) :
    (f.writeAll rs).drop (f.writeAll (rs.take n)).length = f.writeAll (rs.drop n) := by
  have hsplit : f.writeAll (rs.take n ++ rs.drop n) = _ := writeAll_append _ _
  rw [List.take_append_drop] at hsplit
  rw [hsplit, List.drop_left]

/-- No record is read from nothing. -/
theorem Format.Delimits.read_nil {r : ρ} (hr : f.Delimits r) : f.read [] = none :=
  hr.read_take 0 (List.length_pos_iff.mpr hr.ne_nil)

/-- From the start of what is written the first records are read, at least one if it fits in. -/
theorem readUpTo_take (hnil : f.read [] = none) (hrs : ∀ r ∈ rs, f.Delimits r) {n m : Nat}
    (hm : ((f.writeAll rs).take n).length ≤ m) :
    ∃ k ≤ rs.length, f.readUpTo m ((f.writeAll rs).take n) = rs.take k ∧
      ∀ r, rs.head? = some r → (f.write r).length ≤ n → 0 < k := by
  have hempty : ∀ m, f.readUpTo m [] = [] := by
    intro m
    cases m with
    | zero => rfl
    | succ m => rw [Format.readUpTo, hnil]
  induction rs generalizing n m with
  | nil =>
    refine ⟨0, Nat.le_refl 0, ?_, fun r hr => by cases hr⟩
    rw [writeAll_nil, List.take_nil, hempty]
    rfl
  | cons r rs ih =>
    obtain ⟨hr, hrs⟩ := List.forall_mem_cons.mp hrs
    have hpos := List.length_pos_iff.mpr hr.ne_nil
    by_cases hfits : (f.write r).length ≤ n
    · -- the first record is there, and the slice goes on behind it
      rw [writeAll_cons, List.take_append, List.take_of_length_le hfits] at hm ⊢
      rw [List.length_append] at hm
      cases m with
      | zero => omega
      | succ m =>
        obtain ⟨k, hk, hread, -⟩ := @ih hrs (n - (f.write r).length) m (by omega)
        refine ⟨k + 1, Nat.succ_le_succ hk, ?_, fun _ _ _ => Nat.succ_pos k⟩
        rw [Format.readUpTo, hr.read_write]
        dsimp only
        rw [hread, List.take_succ_cons]
    · -- the first record is cut off
      refine ⟨0, Nat.zero_le _, ?_, fun r' hr' hle => ?_⟩
      · rw [writeAll_cons, List.take_append, Nat.sub_eq_zero_of_le (by omega), List.take_zero,
          List.append_nil]
        cases m with
        | zero => rfl
        | succ m =>
          rw [Format.readUpTo, hr.read_take n (by omega)]
          rfl
      · obtain rfl : r = r' := Option.some.inj hr'
        exact absurd hle hfits

/-- The same of all that is there as a whole. -/
theorem records_take (hrs : ∀ r ∈ rs, f.Delimits r) (n : Nat) :
    ∃ k ≤ rs.length, f.records ((f.writeAll rs).take n) = rs.take k ∧
      ∀ r, rs.head? = some r → (f.write r).length ≤ n → 0 < k := by
  cases rs with
  | nil =>
    refine ⟨0, Nat.le_refl 0, ?_, fun r hr => by cases hr⟩
    rw [writeAll_nil, List.take_nil]
    rfl
  | cons r rs => exact readUpTo_take (hrs r (by simp)).read_nil hrs (Nat.le_refl _)

/-! ### Readers -/

/-- A reader: where it goes on, and what it has got. -/
structure Reader (ρ : Type) where
  position : Nat
  got : List ρ

/-- A reader that has not started. -/
def Reader.start : Reader ρ := ⟨0, []⟩

/-- A reader takes the records of a page, and goes on behind the last. -/
def Reader.turn (f : Format ρ β) (behind : ρ → Nat) (reader : Reader ρ) (page : List β) :
    Reader ρ where
  position := ((f.records page).getLast?.map behind).getD reader.position
  got := reader.got ++ f.records page

/-- The reader has got so many records, and is behind them. -/
structure Reader.At (f : Format ρ β) (rs : List ρ) (k : Nat) (reader : Reader ρ) : Prop where
  le_length : k ≤ rs.length
  position : reader.position = (f.writeAll (rs.take k)).length
  got : reader.got = rs.take k

/-- A reader starts at the first record. -/
theorem Reader.at_start : Reader.start.At f rs 0 := ⟨Nat.zero_le _, rfl, rfl⟩

variable {behind : ρ → Nat} {reader : Reader ρ} {k : Nat}

/-- The slice at the position of a reader. -/
def slice (f : Format ρ β) (rs : List ρ) (position size : Nat) : List β :=
  ((f.writeAll rs).drop position).take size

/-- A page that has room for any record takes the reader on, as long as there are records. -/
theorem Reader.At.turn (h : reader.At f rs k) (hrs : ∀ r ∈ rs, f.Delimits r)
    (hbehind : ∀ (i : Nat) (r : ρ), rs[i]? = some r →
      behind r = (f.writeAll (rs.take (i + 1))).length) {size : Nat}
    (hsize : ∀ r ∈ rs, (f.write r).length ≤ size) (hk : k < rs.length) :
    ∃ k' > k, (reader.turn f behind (slice f rs reader.position size)).At f rs k' ∧
      slice f rs reader.position size ≠ [] := by
  obtain ⟨j, hj, hread, hpos⟩ :=
    records_take (fun r hr => hrs r (List.mem_of_mem_drop hr) : ∀ r ∈ rs.drop k, _) size
  have hslice : slice f rs reader.position size = (f.writeAll (rs.drop k)).take size := by
    rw [slice, h.position, drop_writeAll]
  have hhead : (rs.drop k).head? = some rs[k] := by
    rw [List.head?_drop, List.getElem?_eq_getElem hk]
  have hj' := hpos _ hhead (hsize _ (List.getElem_mem hk))
  rw [List.length_drop] at hj
  refine ⟨k + j, by omega, ⟨by omega, ?_, ?_⟩, ?_⟩
  · -- the last of them
    have hlast : ((rs.drop k).take j).getLast? = some rs[k + j - 1] := by
      rw [List.getLast?_eq_getElem?, List.length_take, List.length_drop,
        Nat.min_eq_left (by omega), List.getElem?_take_of_lt (by omega), List.getElem?_drop,
        ← List.getElem?_eq_getElem]
      congr 1
      omega
    have hbehind' := hbehind (k + j - 1) _ (List.getElem?_eq_getElem (by omega))
    rw [Nat.sub_add_cancel (by omega)] at hbehind'
    rw [Reader.turn, hslice, hread, hlast]
    exact hbehind'
  · rw [Reader.turn, hslice, hread, h.got, List.take_add]
  · intro hnil
    rw [hslice] at hnil
    have hlength := congrArg List.length hread
    rw [hnil, List.length_take, List.length_drop] at hlength
    have hnone : (f.records []).length = 0 := rfl
    omega

/-- A reader that has got everything gets nothing more. -/
theorem Reader.At.slice_eq_nil (h : reader.At f rs rs.length) (size : Nat) :
    slice f rs reader.position size = [] := by
  rw [slice, h.position, List.take_length, List.drop_length, List.take_nil]

/-- So many turns of a reader, with pages of the sizes it asks for. -/
def Reader.run (f : Format ρ β) (behind : ρ → Nat) (rs : List ρ) (sizes : Nat → Nat) :
    Nat → Reader ρ
  | 0 => start
  | n + 1 =>
    let reader := run f behind rs sizes n
    reader.turn f behind (slice f rs reader.position (sizes n))

/-- A reader whose pages have room for any record gets all of them, and until then no page is
    empty. -/
theorem exists_run_at (behind : ρ → Nat) (sizes : Nat → Nat) (hrs : ∀ r ∈ rs, f.Delimits r)
    (hbehind : ∀ (i : Nat) (r : ρ), rs[i]? = some r →
      behind r = (f.writeAll (rs.take (i + 1))).length)
    (hsizes : ∀ n, ∀ r ∈ rs, (f.write r).length ≤ sizes n) :
    ∃ n, (Reader.run f behind rs sizes n).At f rs rs.length ∧
      (∀ i ≤ n, ∃ k, (Reader.run f behind rs sizes i).At f rs k) ∧
      ∀ i < n, slice f rs (Reader.run f behind rs sizes i).position (sizes i) ≠ [] := by
  have hrest : ∀ m k i, rs.length - k = m → (Reader.run f behind rs sizes i).At f rs k →
      ∃ n ≥ i, (Reader.run f behind rs sizes n).At f rs rs.length ∧
        (∀ j, i ≤ j → j ≤ n → ∃ k, (Reader.run f behind rs sizes j).At f rs k) ∧
        ∀ j, i ≤ j → j < n →
          slice f rs (Reader.run f behind rs sizes j).position (sizes j) ≠ [] := by
    intro m
    induction m using Nat.strongRecOn with
    | ind m ih =>
      intro k i hm hat
      by_cases hk : k < rs.length
      · obtain ⟨k', hk', hat', hne⟩ := hat.turn hrs hbehind (hsizes i) hk
        obtain ⟨n, hn, hend, hats, hpages⟩ := ih (rs.length - k') (by omega) k' (i + 1) rfl hat'
        refine ⟨n, by omega, hend, fun j hij hjn => ?_, fun j hij hjn => ?_⟩
        · obtain rfl | hlt := Nat.eq_or_lt_of_le hij
          · exact ⟨k, hat⟩
          · exact hats j hlt hjn
        · obtain rfl | hlt := Nat.eq_or_lt_of_le hij
          · exact hne
          · exact hpages j hlt hjn
      · obtain rfl : k = rs.length := Nat.le_antisymm hat.le_length (Nat.le_of_not_lt hk)
        refine ⟨i, Nat.le_refl i, hat, fun j hij hjn => ?_, fun j hij hjn => ?_⟩
        · obtain rfl := Nat.le_antisymm hij hjn
          exact ⟨_, hat⟩
        · omega
  obtain ⟨n, -, hend, hats, hpages⟩ := hrest _ 0 0 rfl Reader.at_start
  exact ⟨n, hend, fun i hi => hats i (Nat.zero_le i) hi, fun i hi => hpages i (Nat.zero_le i) hi⟩

end Records
