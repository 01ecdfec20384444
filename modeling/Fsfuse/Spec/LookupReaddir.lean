import Fsfuse.Spec.DirentryTree

/-!
# Lookups and listings

A lookup by name and a listing walk over the children of a directory separately. They are meant
to agree on every directory: a lookup finds the first of the entries that are listed with the
name, with the inode that is listed, and fails if there is none. And neither is to change a count,
but for the copy of the child that a lookup hands on.

Both hold as long as both walks get through. A directory must have been asked for its children, as
nothing can be asked below a root without an indexnode; and it, its parent and its children must
have counts that a copy can be added to. The root has none, so there is no lookup in the root, and
no listing of what is directly below it.

* `lookupReaddir_iff` — a lookup and a listing agree exactly if both get through.
-/

namespace Fsfuse.Native

open Direntries ParentLinks

variable {ι : Type} [DecidableEq ι]

namespace Nativefs

/-- A lookup finds what is listed first under the name, with the inode that is listed. -/
def Finds (des : Direntries ι) (name : CStr) (entry : Except Nat ι) (buf : Dirbuf) : Prop :=
  entry.map des.inodeOf =
    ((buf.drop 2).find? (·.1 = name.val)).elim (.error enoent) (fun listed => .ok listed.2.1)

/-- The counts are as before, but for one more copy of what has been found. -/
def Keeps (des des' : Direntries ι) (entry : Except Nat ι) : Prop :=
  ∀ d, (des'.countOf d).map UInt32.toNat =
    (des.countOf d).map fun count => count.toNat + if entry = .ok d then 1 else 0

/-- A lookup in a directory, and a listing of it, come back and agree; and neither changes the
    counts of a directory that has been populated. -/
def LookupReaddir (fs : Nativefs ι) (ino : Nat) (de : ι) (name : CStr) (listings : Listings ι) :
    Prop :=
  ∃ fs₁ fs₂ entry buf bound,
    (∀ fuel ≥ bound,
      (fs.direntryGetChildByName fuel ino name listings).run = some (.ok (fs₁, entry)) ∧
        (fs.fsfuseReaddir fuel de listings).run = some (.ok (fs₂, buf))) ∧
    Finds fs₁.des name entry buf ∧
    (fs.des.looked de = true →
      Keeps fs.des fs₁.des entry ∧ Keeps fs.des fs₂.des (.error enoent))

/-! ### The entry that is found -/

omit [DecidableEq ι] in
/-- What is listed first under a name is the first child with that name. -/
theorem finds_of_find {des des' : Direntries ι} (htree : SameTree des des') (de : ι) (cs : List ι)
    (name : CStr) :
    Finds des' name ((cs.find? (des.nameOf · = name.val)).elim (.error enoent) .ok)
      (listed des de cs) := by
  have hdrop : (listed des de cs).drop 2 = cs.map des.dirent := rfl
  rw [Finds, hdrop, List.find?_map, htree.inodeOf]
  have hname : ((fun entry : List UInt8 × Nat × ListingType => decide (entry.1 = name.val)) ∘
      des.dirent) = fun c => decide (des.nameOf c = name.val) := rfl
  rw [hname]
  cases cs.find? (fun c => decide (des.nameOf c = name.val)) <;> rfl

/-- Nothing has been found, and nothing has changed. -/
theorem keeps_refl (des : Direntries ι) (rc : Nat) : Keeps des des (.error rc) := by
  intro d
  simp

/-- A copy changes the count of what has been copied. -/
theorem keeps_of_direntryCopy {des des' : Direntries ι} {c : ι} (hc : des.Counted c)
    (hcopy : des.direntryCopy c = .ok des') : Keeps des des' (.ok c) := by
  obtain ⟨count, hcount, -, rfl⟩ := direntryCopy_eq_ok_iff.mp hcopy
  obtain ⟨count', hcount', -, hmax⟩ := hc
  obtain rfl : count = count' := Option.some.inj (hcount.symm.trans hcount')
  intro d
  by_cases hd : d = c
  · subst hd
    rw [countOf_setCount_self (ne_none_of_countOf hcount), hcount, Option.map_some,
      toNat_add_one hmax, Option.map_some, if_pos rfl]
  · have hne : ¬ (Except.ok c : Except Nat ι) = .ok d := fun heq => hd (Except.ok.inj heq).symm
    simp [countOf_setCount_of_ne hd, hne]

/-- A lookup in a directory and a listing of it agree exactly if both get through: the directory
    has been asked for its children, and it, its parent and its children can be copied. -/
theorem lookupReaddir_iff (fs : Nativefs ι) (h : fs.des.Rooted) (ino : Nat) (de : ι)
    (hmap : fs.map.inodeMapGet ino = .ok (some de)) (name : CStr) (listings : Listings ι) :
    LookupReaddir fs ino de name listings ↔ fs.des.Counted de ∧ fs.des.Walkable de := by
  obtain ⟨cs, hchain, hcs⟩ := h.exists_chain de
  constructor
  -- with fuel for both, the two have gone through the children
  · rintro ⟨fs₁, fs₂, entry, buf, bound, hruns, -, -⟩
    obtain ⟨hlookup, hreaddir⟩ := hruns (max bound cs.length) (Nat.le_max_left _ _)
    have hfuel : cs.length ≤ max bound cs.length := Nat.le_max_right _ _
    obtain ⟨hwalk, -⟩ := (fsfuseReaddir_iff h hchain hfuel listings).mp hreaddir
    obtain ⟨-, hde, -⟩ := (direntryGetChildByName_iff h (live_of_looked hwalk.looked) hmap hchain
      hcs hfuel).mp hlookup
    exact ⟨hde, hwalk⟩
  · rintro ⟨hde, hwalk⟩
    -- nothing is counted down below what it was, and what is found is counted once more
    have hcounted := hwalk.children cs hchain
    obtain ⟨t, ht, hkeeps, htree⟩ : ∃ t, fs.des.copyLink (cs.find? (fs.des.nameOf · = name.val)) =
        .ok t ∧ Keeps fs.des t.1 (t.2.elim (.error enoent) .ok) ∧ SameTree fs.des t.1 := by
      cases hfind : cs.find? (fs.des.nameOf · = name.val) with
      | none => exact ⟨_, rfl, keeps_refl fs.des enoent, SameTree.refl fs.des⟩
      | some c =>
        have hc := hcounted c (List.mem_of_find?_eq_some hfind)
        obtain ⟨des, hcopy⟩ := exists_direntryCopy hc
        exact ⟨(des, some c), copyLink_some_eq_ok_iff.mpr ⟨hcopy, rfl⟩,
          keeps_of_direntryCopy hc hcopy, sameTree_direntryCopy hcopy⟩
    refine ⟨{ fs with des := t.1 }, fs, t.2.elim (.error enoent) .ok, listed fs.des de cs,
      cs.length, fun fuel hfuel => ⟨?_, ?_⟩, ?_, fun _ => ⟨hkeeps, keeps_refl fs.des enoent⟩⟩
    · have hpassed : ∀ c ∈ cs.takeWhile (fs.des.nameOf · ≠ name.val), fs.des.Counted c :=
        fun c hc => hcounted c ((List.takeWhile_prefix _).subset hc)
      exact (direntryGetChildByName_iff h (live_of_looked hwalk.looked) hmap hchain hcs hfuel).mpr
        ⟨hwalk.looked, hde, hpassed, t, ht, rfl⟩
    · exact (fsfuseReaddir_iff h hchain hfuel listings).mpr ⟨hwalk, rfl⟩
    -- what is copied is the child with the name
    · have hfound : t.2 = cs.find? (fs.des.nameOf · = name.val) := by
        cases hfind : cs.find? (fs.des.nameOf · = name.val) with
        | none =>
          rw [hfind, copyLink_none] at ht
          cases ht
          rfl
        | some c =>
          rw [hfind] at ht
          exact (copyLink_some_eq_ok_iff.mp ht).2
      rw [hfound]
      exact finds_of_find htree de cs name

/-- A file in a directory two levels below the root. -/
theorem lookupReaddir_threeLevels :
    LookupReaddir (threeLevels 2) 3 2 ⟨ascii "f", by decide⟩ fun _ _ => ⟨0, []⟩ := by
  refine (lookupReaddir_iff (threeLevels 2) (rooted_threeLevels 2) 3 2 rfl _ _).mpr ⟨?_, ?_⟩
  · exact ⟨2, rfl, by decide, by decide⟩
  · refine ⟨rfl, fun p hp => ?_, fun cs hcs c hc => ?_⟩
    · obtain rfl : p = 1 := Option.some.inj hp.symm
      exact ⟨2, rfl, by decide, by decide⟩
    · obtain rfl := hcs.unique (.cons .nil : Chain (threeLevels 2).des.nextOf (some 3) [3])
      obtain rfl := List.mem_singleton.mp hc
      exact ⟨2, rfl, by decide, by decide⟩

/-- The root has no count: a lookup in it stops the daemon, and so does a listing of what is in
    it. -/
theorem not_lookupReaddir_threeLevels :
    (∀ fuel, ((threeLevels 2).direntryGetChildByName fuel 1 ⟨ascii "d", by decide⟩
        fun _ _ => ⟨0, []⟩).run = some (.error .nullPointer)) ∧
      ¬ LookupReaddir (threeLevels 2) 1 0 ⟨ascii "d", by decide⟩ (fun _ _ => ⟨0, []⟩) ∧
      (∀ fuel, ((threeLevels 2).fsfuseReaddir fuel 1 fun _ _ => ⟨0, []⟩).run =
        some (.error .nullPointer)) ∧
      ¬ LookupReaddir (threeLevels 2) 2 1 ⟨ascii "e", by decide⟩ (fun _ _ => ⟨0, []⟩) := by
  -- the directory below the root copies its parent, which has no count
  have hlookup : ∀ fuel, ((threeLevels 2).direntryGetChildByName fuel 1 ⟨ascii "d", by decide⟩
      fun _ _ => ⟨0, []⟩).run = some (.error .nullPointer) := fun _ => rfl
  have hreaddir : ∀ fuel, ((threeLevels 2).fsfuseReaddir fuel 1 fun _ _ => ⟨0, []⟩).run =
      some (.error .nullPointer) := fun _ => rfl
  refine ⟨hlookup, ?_, hreaddir, ?_⟩
  · rintro ⟨fs₁, fs₂, entry, buf, bound, hruns, -⟩
    have hrun := (hruns bound (Nat.le_refl bound)).1
    rw [hlookup] at hrun
    cases hrun
  · rintro ⟨fs₁, fs₂, entry, buf, bound, hruns, -⟩
    have hrun := (hruns bound (Nat.le_refl bound)).2
    rw [hreaddir] at hrun
    cases hrun

end Nativefs

end Fsfuse.Native
