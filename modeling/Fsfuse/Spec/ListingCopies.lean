import Fsfuse.Native.ListingList

/-!
# Copies of listings

Whatever is done with lists of listings comes to copies of some of the listings more (`add`), and
deleting is copying backwards. So what calls that go through have done to the counts can be told
from what they copy and what they delete.
-/

namespace Fsfuse.Native

namespace ListingHeap

/-- The heap with one copy more of each of some listings. -/
def add (h : ListingHeap) (lis : List Nat) : ListingHeap where
  made := h.made
  listings li := { h.listings li with refCount := (h.listings li).refCount + lis.count li }

variable {h h' : ListingHeap} {lis lis' : List Nat} {li : Nat}

@[simp] theorem add_nil : h.add [] = h := rfl

/-- Copies of some listings and of others. -/
theorem add_add : (h.add lis).add lis' = h.add (lis ++ lis') := by
  simp [add, List.count_append, Nat.add_assoc]

/-- Their order does not matter. -/
theorem add_perm (hperm : lis.Perm lis') : h.add lis = h.add lis' := by
  simp [add, hperm.count_eq]

@[simp] theorem client_add : ((h.add lis).listings li).client = (h.listings li).client := rfl

@[simp] theorem href_add : ((h.add lis).listings li).href = (h.listings li).href := rfl

/-- The count of a listing grows by how often it is copied. -/
theorem refCount_add :
    ((h.add lis).listings li).refCount = (h.listings li).refCount + lis.count li := rfl

/-- A copy is a count that is greater by one. -/
theorem setRefCount_eq_add :
    h.setRefCount li ((h.listings li).refCount + 1) = h.add [li] := by
  simp only [setRefCount, add, mk.injEq, true_and]
  funext j
  by_cases hj : j = li
  · subst hj
    simp
  · simp [hj, Ne.symm hj]

/-- With its old count back a listing is as it was. -/
theorem setRefCount_add :
    (h.add [li]).setRefCount li (h.listings li).refCount = h := by
  cases h
  simp only [setRefCount, add, mk.injEq, true_and]
  funext j
  by_cases hj : j = li
  · subst hj
    simp
  · simp [hj, Ne.symm hj]

/-- A listing that has not been freed can be copied. -/
theorem listingCopy_eq (hlive : (h.listings li).refCount ≠ 0) :
    h.listingCopy li = .ok (h.add [li]) := by
  rw [listingCopy, if_neg hlive, setRefCount_eq_add]

/-- What has been copied can be deleted. -/
theorem listingDelete_add : (h.add [li]).listingDelete li = .ok h := by
  have hcount : ((h.add [li]).listings li).refCount = (h.listings li).refCount + 1 := by
    rw [refCount_add, List.count_singleton_self]
  rw [listingDelete, if_neg (by omega), hcount, Nat.add_sub_cancel, setRefCount_add]

/-- A list gives back the copies it has. -/
theorem listDelete_add (lis : List Nat) : (h.add lis).listDelete (lis.map some) = .ok h := by
  induction lis with
  | nil => rfl
  | cons li lis ih =>
    have hsplit : h.add (li :: lis) = (h.add lis).add [li] := by
      rw [add_add]
      exact add_perm (List.perm_append_singleton li lis).symm
    rw [hsplit, List.map_cons, listDelete, List.foldlM_cons]
    show ((h.add lis).add [li]).listingDelete li >>= _ = _
    rw [listingDelete_add]
    exact ih

/-- A copy is taken of what a slot holds. -/
theorem getItem_eq {alts : ListingList} {i : Nat} (hitem : alts[i]? = some (some li))
    (hlive : (h.listings li).refCount ≠ 0) : h.getItem alts i = .ok (h.add [li], li) := by
  rw [getItem, hitem]
  dsimp only
  rw [listingCopy_eq hlive]
  rfl

/-- A slot gets a copy. -/
theorem setItem_eq {alts : ListingList} {i : Nat} (hitem : i < alts.length)
    (hlive : (h.listings li).refCount ≠ 0) :
    h.setItem alts i li = .ok (h.add [li], alts.set i (some li)) := by
  rw [setItem, listingCopy_eq hlive]
  exact if_pos hitem

/-! ### What calls show -/

/-- Copies of the same listings are copies of the same heap. -/
theorem add_inj : h.add lis = h'.add lis ↔ h = h' := by
  constructor
  · intro hadd
    simp only [add, mk.injEq] at hadd
    -- only the counts differ, each by the same number
    obtain ⟨hmade, hlistings⟩ := hadd
    cases h
    cases h'
    simp only [mk.injEq]
    refine ⟨hmade, funext fun li => ?_⟩
    have hli := congrFun hlistings li
    simp only [ListingT.mk.injEq, Nat.add_right_cancel_iff] at hli
    rw [← ListingT.mk.injEq] at hli
    exact hli
  · rintro rfl
    rfl

/-- A copy that has been taken. -/
theorem eq_add_of_listingCopy (hcopy : h.listingCopy li = .ok h') : h' = h.add [li] := by
  rw [listingCopy] at hcopy
  split at hcopy
  · cases hcopy
  · rw [← setRefCount_eq_add]
    exact (Except.ok.inj hcopy).symm

/-- A copy that has been deleted. -/
theorem eq_add_of_listingDelete (hdelete : h.listingDelete li = .ok h') : h = h'.add [li] := by
  rw [listingDelete] at hdelete
  split at hdelete
  · cases hdelete
  · rename_i hne
    obtain rfl := Except.ok.inj hdelete
    simp only [setRefCount, add]
    cases h
    simp only [mk.injEq, true_and]
    funext j
    -- the count that was decremented is the one with the copy
    by_cases hj : j = li
    · subst hj
      simp [Nat.sub_add_cancel (Nat.one_le_iff_ne_zero.mpr hne)]
    · simp [hj, Ne.symm hj]

/-- A list that has been deleted. -/
theorem eq_add_of_listDelete {lis : List Nat} (hdelete : h.listDelete (lis.map some) = .ok h') :
    h = h'.add lis := by
  induction lis generalizing h with
  | nil =>
    obtain rfl := Except.ok.inj hdelete
    rfl
  | cons li lis ih =>
    obtain ⟨h₁, hli, hdelete⟩ := Except.do_eq_ok_iff.mp hdelete
    rw [eq_add_of_listingDelete hli, ih hdelete, add_add]
    exact add_perm (List.perm_append_singleton li lis)

/-- An item that has been taken from a list. -/
theorem eq_add_of_getItem {alts : ListingList} {i : Nat} (hget : h.getItem alts i = .ok (h', li)) :
    alts[i]? = some (some li) ∧ h' = h.add [li] := by
  rw [getItem] at hget
  split at hget
  · cases hget
  · cases hget
  · rename_i j hslot
    cases hcopy : h.listingCopy j with
    | error _ =>
      rw [hcopy] at hget
      cases hget
    | ok h₁ =>
      rw [hcopy] at hget
      cases hget
      exact ⟨hslot, eq_add_of_listingCopy hcopy⟩

/-- An item that has been put on a list. -/
theorem eq_add_of_setItem {alts alts' : ListingList} {i : Nat}
    (hset : h.setItem alts i li = .ok (h', alts')) : h' = h.add [li] := by
  obtain ⟨h₁, hcopy, hset⟩ := Except.do_eq_ok_iff.mp hset
  split at hset
  · cases hset
    exact eq_add_of_listingCopy hcopy
  · cases hset

end ListingHeap

end Fsfuse.Native
