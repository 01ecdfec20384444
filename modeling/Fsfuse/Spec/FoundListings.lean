import Fsfuse.Native.Alternatives
import Fsfuse.Spec.PeerChoice

/-!
# The listings of the entries found

`entry_found` makes a listing of each entry that is reported, and puts it on the list of its
context: as long as every entry has one of the two types, the list has a listing for each of
them, in their order and with two references.
-/

namespace Fsfuse.Native

/-- The entry can be listed: it has one of the two types. -/
def Listable (found : Found) : Prop :=
  found.type = some (ascii "file") ∨ found.type = some (ascii "directory")

/-- A listing is made of an entry that has one of the two types. -/
theorem exists_listingNew_iff (found : Found) :
    (∃ li, ListingT.listingNew found = .ok li) ↔ Listable found := by
  rw [Listable]
  constructor
  · intro h
    obtain ⟨li, hnew⟩ := h
    obtain ⟨type, htype, -⟩ := Except.do_eq_ok_iff.mp hnew
    -- the string has been compared with both names
    cases hfound : found.type with
    | none =>
      rw [hfound] at htype
      cases htype
    | some s =>
      rw [hfound, ListingT.listingTypeFromString] at htype
      split at htype
      · rename_i hfile
        exact .inl (congrArg some hfile)
      · split at htype
        · rename_i hdirectory
          exact .inr (congrArg some hdirectory)
        · cases htype
  · intro h
    obtain ⟨type, htype⟩ : ∃ type, ListingT.listingTypeFromString found.type = .ok type := by
      obtain h | h := h
      · exact ⟨.file, by rw [h]; rfl⟩
      · exact ⟨.directory, by rw [h]; rfl⟩
    rw [ListingT.listingNew, htype]
    exact ⟨_, rfl⟩

/-- It has one copy, and the client and the place of the entry. -/
theorem of_listingNew {found : Found} {li : ListingT} (hnew : ListingT.listingNew found = .ok li) :
    li.refCount = 1 ∧ li.client = found.client ∧ li.href = found.href := by
  obtain ⟨type, -, hli⟩ := Except.do_eq_ok_iff.mp hnew
  cases hli
  exact ⟨rfl, rfl, rfl⟩

/-- An entry is put on the list with a copy of its own. -/
theorem entryFound_eq {s : ListingHeap × ListingList} {found : Found} {li : ListingT}
    (hnew : ListingT.listingNew found = .ok li) :
    entryFound s found =
      .ok ((s.1.make { li with refCount := 2 }).1, s.2 ++ [some s.1.made]) := by
  obtain ⟨hcount, -⟩ := of_listingNew hnew
  -- the array gets one slot longer, and the listing goes into it
  have hresize : ListingList.resize s.2 (s.2.length + 1) = s.2 ++ [none] := by
    simp [ListingList.resize]
  have hlive : (((s.1.make li).1).listings s.1.made).refCount ≠ 0 := by
    simp [ListingHeap.make, hcount]
  have hroom : s.2.length < (s.2 ++ [none]).length := by simp
  have hset := ListingHeap.setItem_eq hroom hlive
  -- the copy for the array makes it two
  have hcopy : (s.1.make li).1.add [s.1.made] = (s.1.make { li with refCount := 2 }).1 := by
    simp only [ListingHeap.make, ListingHeap.add, ListingHeap.mk.injEq, true_and]
    funext j
    by_cases hj : j = s.1.made
    · subst hj
      simp [hcount]
    · simp [hj, Ne.symm hj]
  rw [entryFound, hnew]
  simp only [bind, Except.bind, hresize, List.length_append, List.length_singleton,
    Nat.add_sub_cancel]
  rw [hcopy, List.set_append_right _ _ (Nat.le_refl _), Nat.sub_self] at hset
  exact hset

/-- The names of so many listings, from one on. -/
def namesFrom (first n : Nat) : List Nat := (List.range n).map (first + ·)

/-- The last of them is the next one. -/
theorem namesFrom_succ (first n : Nat) :
    namesFrom first (n + 1) = namesFrom first n ++ [first + n] := by
  rw [namesFrom, namesFrom, List.range_succ, List.map_append]
  rfl

/-- They are in order. -/
theorem getElem?_namesFrom {first n i : Nat} (hi : i < n) :
    (namesFrom first n)[i]? = some (first + i) := by
  simp [namesFrom, hi]

/-- They are those from the first on. -/
theorem mem_namesFrom {first n li : Nat} :
    li ∈ namesFrom first n ↔ ∃ i < n, li = first + i := by
  simp [namesFrom, eq_comm]

@[simp] theorem length_namesFrom (first n : Nat) : (namesFrom first n).length = n := by
  simp [namesFrom]

/-- They are all different. -/
theorem nodup_namesFrom (first n : Nat) : (namesFrom first n).Nodup :=
  List.nodup_range.map fun _ _ h => Nat.add_left_cancel h

/-- What the heap and the list look like when entries have been found: each has been listed, in
    order, and its listing has two copies. -/
structure Entered (h : ListingHeap) (founds : List Found) (s : ListingHeap × ListingList) :
    Prop where
  made : s.1.made = h.made + founds.length
  lis : s.2 = (namesFrom h.made founds.length).map some
  listing : ∀ i found, founds[i]? = some found →
    ∃ li, ListingT.listingNew found = .ok li ∧
      s.1.listings (h.made + i) = { li with refCount := 2 }
  others : ∀ li, li ∉ namesFrom h.made founds.length → s.1.listings li = h.listings li

/-- One entry. -/
theorem Entered.step {h : ListingHeap} {founds : List Found} {s : ListingHeap × ListingList}
    (hs : Entered h founds s) {found : Found} {li : ListingT}
    (hnew : ListingT.listingNew found = .ok li) :
    Entered h (founds ++ [found])
      ((s.1.make { li with refCount := 2 }).1, s.2 ++ [some s.1.made]) where
  made := by
    rw [List.length_append, List.length_singleton, ← Nat.add_assoc, ← hs.made]
    rfl
  lis := by
    rw [List.length_append, List.length_singleton, namesFrom_succ, List.map_append, ← hs.lis,
      hs.made]
    rfl
  listing i found' hfound := by
    rw [List.getElem?_append] at hfound
    have hmade := hs.made
    -- an entry found before, or the one found last
    split at hfound
    · rename_i hi
      obtain ⟨li', hnew', hlisting⟩ := hs.listing i found' hfound
      refine ⟨li', hnew', ?_⟩
      rw [← hlisting]
      exact Function.update_of_ne (by omega) _ _
    · rename_i hi
      obtain ⟨hlt, hi'⟩ := List.getElem?_eq_some_iff.mp hfound
      have hlast : h.made + i = s.1.made := by
        rw [List.length_singleton] at hlt
        omega
      have hfound' : found = found' := by
        simpa using hi'
      refine ⟨li, hfound' ▸ hnew, ?_⟩
      rw [hlast]
      exact Function.update_self _ _ _
  others li hli := by
    rw [List.length_append, List.length_singleton, namesFrom_succ, List.mem_append,
      List.mem_singleton, ← hs.made, not_or] at hli
    rw [← hs.others li hli.1]
    exact Function.update_of_ne hli.2 _ _

/-- All entries. -/
theorem entered_of_listable {h : ListingHeap} {founds : List Found}
    (hfounds : ∀ found ∈ founds, Listable found) :
    ∃ s, founds.foldlM entryFound (h, ListingList.new 0) = .ok s ∧ Entered h founds s := by
  -- entry by entry, each at the end of the list
  induction founds using List.reverseRecOn with
  | nil =>
    refine ⟨_, rfl, rfl, rfl, fun i found hfound => ?_, fun _ _ => rfl⟩
    cases hfound
  | append_singleton founds found ih =>
    obtain ⟨s, hs, hentered⟩ := ih fun found' hmem => hfounds found' (by simp [hmem])
    obtain ⟨li, hnew⟩ := (exists_listingNew_iff found).mpr (hfounds found (by simp))
    refine ⟨_, ?_, hentered.step hnew⟩
    rw [List.foldlM_append, hs]
    simp only [bind, Except.bind, List.foldlM_cons, List.foldlM_nil, entryFound_eq hnew]
    rfl

/-- Entries that have been found can be listed. -/
theorem listable_of_entriesFound {s s' : ListingHeap × ListingList} {founds : List Found}
    (h : founds.foldlM entryFound s = .ok s') : ∀ found ∈ founds, Listable found := by
  induction founds generalizing s with
  | nil => simp
  | cons found founds ih =>
    rw [List.foldlM_cons] at h
    obtain ⟨s₁, hfound, h⟩ := Except.do_eq_ok_iff.mp h
    obtain ⟨li, hnew, -⟩ := Except.do_eq_ok_iff.mp hfound
    rw [List.forall_mem_cons]
    exact ⟨(exists_listingNew_iff found).mp ⟨li, hnew⟩, ih h⟩

/-- So entries that have been found have all been listed. -/
theorem entered_of_entriesFound {h : ListingHeap} {founds : List Found}
    {s : ListingHeap × ListingList}
    (hs : founds.foldlM entryFound (h, ListingList.new 0) = .ok s) : Entered h founds s := by
  obtain ⟨s', hs', hentered⟩ := entered_of_listable (listable_of_entriesFound hs)
  rw [hs] at hs'
  cases hs'
  exact hentered

/-- Every entry that has been listed is the next alternative. -/
theorem Entered.exists_found {h : ListingHeap} {founds : List Found}
    {s : ListingHeap × ListingList} (hs : Entered h founds s) :
    ∀ li ∈ namesFrom h.made founds.length, ∃ found ∈ founds,
      (s.1.listings li).refCount = 2 ∧ (s.1.listings li).client = found.client ∧
        (s.1.listings li).href = found.href := by
  intro li hli
  obtain ⟨i, hi, rfl⟩ := mem_namesFrom.mp hli
  have hfound := List.getElem?_eq_getElem hi
  obtain ⟨t, hnew, hlisting⟩ := hs.listing i _ hfound
  obtain ⟨-, hclient, hhref⟩ := of_listingNew hnew
  rw [hlisting]
  exact ⟨_, List.getElem_mem _, rfl, hclient, hhref⟩

/-- It has not been freed. -/
theorem Entered.live {h : ListingHeap} {founds : List Found} {s : ListingHeap × ListingList}
    (hs : Entered h founds s) :
    ∀ li ∈ namesFrom h.made founds.length, (s.1.listings li).refCount ≠ 0 := by
  intro li hli
  obtain ⟨found, -, hcount, -⟩ := hs.exists_found li hli
  omega

end Fsfuse.Native
