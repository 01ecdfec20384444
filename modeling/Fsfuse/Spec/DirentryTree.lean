import Fsfuse.Native.FuseMethods
import Fsfuse.Spec.DirentryPaths

/-!
# Walks over the tree of direntries

A loop over the children of a directory holds a copy of the child it has come to, takes one of
the next and drops its own. What is left of a whole walk is nothing, or the copy of the child it
has stopped at; and it gets through exactly if every child on the way has a count that a copy can
be added to.

The root, as `direntry_new_root` makes it, has neither a count nor an indexnode. So no directory
can be populated: the root has no indexnode to ask, and the path of any other begins with a copy
of the root.

* `advance_iff` — one step of a walk;
* `readdirChildren_iff`, `findChild_iff` — the two walks;
* `ensureChildren_iff` — a directory can be asked for its children only when it has been already.
-/

namespace Fsfuse.Native

/-- A direntry, less its count. -/
def Direntry.uncounted {ι : Type} (node : Direntry ι) : Direntry ι := { node with refCount := none }

namespace Direntries

open ParentLinks

variable {ι : Type}

/-! ### Links and attributes -/

def nextOf (des : Direntries ι) (de : ι) : Option ι := (des de).bind (·.next)

def firstOf (des : Direntries ι) (de : ι) : Option ι := (des de).bind (·.children)

def inOf (des : Direntries ι) (de : ι) : Option Nat := (des de).bind (·.in_)

def inodeOf (des : Direntries ι) (de : ι) : Nat := (des de).elim 0 (·.inode)

def typeOf (des : Direntries ι) (de : ι) : ListingType := (des de).elim .file (·.type)

/-- The directory has been asked for its children. -/
def looked (des : Direntries ι) (de : ι) : Bool := (des de).any (·.lookedForChildren)

/-- What a listing says of a direntry. -/
def dirent (des : Direntries ι) (de : ι) : List UInt8 × Nat × ListingType :=
  (des.nameOf de, des.inodeOf de, des.typeOf de)

/-- The two differ in the numbers of copies at most. -/
structure SameTree (des des' : Direntries ι) : Prop where
  links : ∀ i, (des' i).map Direntry.uncounted = (des i).map Direntry.uncounted
  counts : ∀ i, des'.countOf i = none ↔ des.countOf i = none

namespace SameTree

variable {des des' des'' : Direntries ι}

/-- Direntries are the same tree as themselves. -/
theorem refl (des : Direntries ι) : SameTree des des := ⟨fun _ => rfl, fun _ => Iff.rfl⟩

/-- Two are the same tree in either order. -/
theorem symm (h : SameTree des des') : SameTree des' des :=
  ⟨fun i => (h.links i).symm, fun i => (h.counts i).symm⟩

/-- What is the same tree as a third is the same tree. -/
theorem trans (h : SameTree des des') (h' : SameTree des' des'') : SameTree des des'' :=
  ⟨fun i => (h'.links i).trans (h.links i), fun i => (h'.counts i).trans (h.counts i)⟩

/-- Whatever is read of a direntry but its count is the same. -/
theorem elim_eq (h : SameTree des des') {β : Type} (b : β) (f : Direntry ι → β)
    (hf : ∀ node, f node = f node.uncounted) (i : ι) : (des' i).elim b f = (des i).elim b f := by
  have hread : ∀ o : Option (Direntry ι), o.elim b f = (o.map Direntry.uncounted).elim b f := by
    intro o
    cases o with
    | none => rfl
    | some node => exact hf node
  rw [hread, hread (des i), h.links i]

/-- So are the links. -/
theorem bind_eq (h : SameTree des des') {β : Type} (f : Direntry ι → Option β)
    (hf : ∀ node, f node = f node.uncounted) (i : ι) : (des' i).bind f = (des i).bind f := by
  have helim : ∀ o : Option (Direntry ι), o.bind f = o.elim none f := by
    intro o
    cases o <;> rfl
  rw [helim, helim, h.elim_eq none f hf]

/-- The same direntries are there. -/
theorem live (h : SameTree des des') (i : ι) : des' i ≠ none ↔ des i ≠ none := by
  rw [← Option.isSome_iff_ne_none, ← Option.isSome_iff_ne_none, ← Option.isSome_map,
    h.links i, Option.isSome_map]

/-- Every direntry has the same parent. -/
theorem parentOf (h : SameTree des des') : des'.parentOf = des.parentOf :=
  funext fun i => h.bind_eq (·.parent) (fun _ => rfl) i

/-- Every direntry has the same next sibling. -/
theorem nextOf (h : SameTree des des') : des'.nextOf = des.nextOf :=
  funext fun i => h.bind_eq (·.next) (fun _ => rfl) i

/-- Every direntry has the same first child. -/
theorem firstOf (h : SameTree des des') : des'.firstOf = des.firstOf :=
  funext fun i => h.bind_eq (·.children) (fun _ => rfl) i

/-- Every direntry is of the same indexnode. -/
theorem inOf (h : SameTree des des') : des'.inOf = des.inOf :=
  funext fun i => h.bind_eq (·.in_) (fun _ => rfl) i

/-- Every direntry has the same name. -/
theorem nameOf (h : SameTree des des') : des'.nameOf = des.nameOf :=
  funext fun i => h.elim_eq [] (·.name.val) (fun _ => rfl) i

/-- Every direntry has the same inode. -/
theorem inodeOf (h : SameTree des des') : des'.inodeOf = des.inodeOf :=
  funext fun i => h.elim_eq 0 (·.inode) (fun _ => rfl) i

/-- Every direntry is of the same type. -/
theorem typeOf (h : SameTree des des') : des'.typeOf = des.typeOf :=
  funext fun i => h.elim_eq ListingType.file (·.type) (fun _ => rfl) i

/-- The children of the same direntries have been looked for. -/
theorem looked (h : SameTree des des') : des'.looked = des.looked := by
  have hany : ∀ o : Option (Direntry ι),
      o.any (·.lookedForChildren) = o.elim false (·.lookedForChildren) := by
    intro o
    cases o <;> rfl
  funext i
  rw [Direntries.looked, Direntries.looked, hany, hany]
  exact h.elim_eq false (·.lookedForChildren) (fun _ => rfl) i

/-- Every direntry is listed the same. -/
theorem dirent (h : SameTree des des') : des'.dirent = des.dirent := by
  funext i
  rw [Direntries.dirent, Direntries.dirent, h.nameOf, h.inodeOf, h.typeOf]

end SameTree

/-! ### Counts -/

variable [DecidableEq ι] {des des' : Direntries ι} {de p q : ι} {refCount : UInt32}

/-- A count that is not at its limit. -/
theorem toNat_add_one {c : UInt32} (h : c ≠ 2 ^ 32 - 1) : (c + 1).toNat = c.toNat + 1 := by
  have hmax : (2 ^ 32 - 1 : UInt32).toNat = 2 ^ 32 - 1 := by decide
  have hne : c.toNat ≠ 2 ^ 32 - 1 := fun heq => h (UInt32.toNat_inj.mp (by rw [heq, hmax]))
  have hlt := c.toNat_lt
  rw [UInt32.toNat_add]
  exact Nat.mod_eq_of_lt (by simpa using by omega)

/-- A count that is not used up. -/
theorem toNat_sub_one {c : UInt32} (h : c ≠ 0) : (c - 1).toNat = c.toNat - 1 := by
  have hne : c.toNat ≠ 0 := fun heq => h (UInt32.toNat_inj.mp heq)
  rw [UInt32.toNat_sub_of_le _ _ (by rw [UInt32.le_iff_toNat_le]; simp; omega)]
  rfl

/-- Another count for a direntry. -/
def setCount (des : Direntries ι) (de : ι) (refCount : UInt32) : Direntries ι :=
  Function.update des de ((des de).map fun node => { node with refCount := some refCount })

/-- Setting a count updates the direntry that is there. -/
theorem setCount_eq_update {node : Direntry ι} (hnode : des de = some node) :
    des.setCount de refCount =
      Function.update des de (some { node with refCount := some refCount }) := by
  rw [setCount, hnode, Option.map_some]

/-- A count that was set is read back. -/
theorem countOf_setCount_self (hlive : des de ≠ none) :
    (des.setCount de refCount).countOf de = some refCount := by
  obtain ⟨node, hnode⟩ := Option.ne_none_iff_exists'.mp hlive
  rw [setCount_eq_update hnode, countOf, Function.update_self, Option.bind_some]

/-- Setting a count leaves the others alone. -/
theorem countOf_setCount_of_ne (hne : q ≠ p) :
    (des.setCount p refCount).countOf q = des.countOf q := by
  rw [countOf, setCount, Function.update_of_ne hne, countOf]

omit [DecidableEq ι] in
/-- A direntry that has a count is there. -/
theorem ne_none_of_countOf (h : des.countOf de = some refCount) : des de ≠ none := by
  intro hnone
  rw [countOf, hnone] at h
  cases h

/-- What has a count may have another. -/
theorem sameTree_setCount (h : des.countOf p ≠ none) : SameTree des (des.setCount p refCount) := by
  obtain ⟨c, hc⟩ := Option.ne_none_iff_exists'.mp h
  obtain ⟨node, hnode⟩ := Option.ne_none_iff_exists'.mp (ne_none_of_countOf hc)
  constructor
  · intro i
    by_cases hi : i = p
    · subst hi
      rw [setCount_eq_update hnode, Function.update_self, hnode]
      rfl
    · rw [setCount, Function.update_of_ne hi]
  · intro i
    by_cases hi : i = p
    · subst hi
      rw [countOf_setCount_self (ne_none_of_countOf hc), hc]
      simp
    · rw [countOf_setCount_of_ne hi]

/-- The last count that is set stays. -/
theorem setCount_setCount (c d : UInt32) :
    (des.setCount p c).setCount p d = des.setCount p d := by
  cases hp : des p with
  | none => simp [setCount, hp]
  | some node => simp [setCount, hp]

/-- The count that it has. -/
theorem setCount_self (h : des.countOf p = some refCount) : des.setCount p refCount = des := by
  obtain ⟨node, hnode, hcount⟩ := Option.bind_eq_some_iff.mp h
  rw [setCount_eq_update hnode, ← hcount, ← hnode, Function.update_eq_self]

/-- Counts of different direntries are set in either order. -/
theorem setCount_comm (hne : p ≠ q) (c d : UInt32) :
    (des.setCount p c).setCount q d = (des.setCount q d).setCount p c := by
  rw [setCount, setCount, setCount, setCount, Function.update_of_ne hne.symm,
    Function.update_of_ne hne, Function.update_comm hne]

/-- `direntry_copy` goes through exactly where the direntry is counted and its count is not 0,
    which it increments. -/
theorem direntryCopy_eq_ok_iff :
    des.direntryCopy p = .ok des' ↔
      ∃ c, des.countOf p = some c ∧ c ≠ 0 ∧ des' = des.setCount p (c + 1) := by
  constructor
  · intro h
    obtain ⟨node, c, hnode, hcount, hne, rfl⟩ := exists_of_direntryCopy h
    exact ⟨c, by rw [countOf, hnode, Option.bind_some, hcount], hne,
      (setCount_eq_update hnode).symm⟩
  · intro h
    obtain ⟨c, hcount, hne, rfl⟩ := h
    obtain ⟨node, hnode, hcount⟩ := Option.bind_eq_some_iff.mp hcount
    rw [direntryCopy, access, hnode, Option.elim_some]
    simp only [bind, Except.bind, hcount, refCountInc, if_neg hne, setCount_eq_update hnode]
    rfl

/-- `direntry_delete` goes through exactly where the direntry is counted and its count is not 0:
    the last copy frees it, others decrement. -/
theorem direntryDelete_eq_ok_iff :
    des.direntryDelete p = .ok des' ↔
      ∃ c, des.countOf p = some c ∧ c ≠ 0 ∧
        des' = if c = 1 then Function.update des p none else des.setCount p (c - 1) := by
  have hlast : ∀ c : UInt32, c - 1 = 0 ↔ c = 1 := by
    intro c
    grind
  cases hp : des p with
  | none =>
    rw [direntryDelete, access, hp, countOf, hp]
    simp [bind, Except.bind]
  | some node =>
    rw [direntryDelete, access, hp, countOf, hp, Option.elim_some, Option.bind_some]
    simp only [bind, Except.bind, setCount_eq_update hp]
    cases hcount : node.refCount with
    | none => simp [refCountDec]
    | some c =>
      -- a count of 0 fails the assertion, and the last copy frees the direntry
      by_cases hc : c = 0
      · simp [refCountDec, hc]
      · by_cases hone : c = 1
        · simp [refCountDec, hone, pure, Except.pure, eq_comm]
        · simp [refCountDec, hc, hone, (hlast c).not.mpr hone, pure, Except.pure, eq_comm]

/-- As many copies. -/
def direntryCopies (des : Direntries ι) (de : ι) : Nat → Except Fault (Direntries ι)
  | 0 => .ok des
  | n + 1 => do (← des.direntryCopy de).direntryCopies de n

/-- Copies that can be counted. -/
theorem direntryCopies_of_lt {n : Nat} (hcount : des.countOf p = some refCount)
    (hzero : refCount ≠ 0) (hlt : refCount.toNat + n < 2 ^ 32) :
    des.direntryCopies p n = .ok (des.setCount p (UInt32.ofNat (refCount.toNat + n))) := by
  induction n generalizing des refCount with
  | zero => rw [direntryCopies, Nat.add_zero, UInt32.ofNat_toNat, setCount_self hcount]
  | succ n ih =>
    -- the count does not wrap, as there is room for this copy and the rest
    have hsucc : (refCount + 1).toNat = refCount.toNat + 1 := toNat_add_one (by
      rintro rfl
      have hmax : (2 ^ 32 - 1 : UInt32).toNat = 2 ^ 32 - 1 := by decide
      omega)
    have hcopy : des.direntryCopy p = .ok (des.setCount p (refCount + 1)) :=
      direntryCopy_eq_ok_iff.mpr ⟨refCount, hcount, hzero, rfl⟩
    rw [direntryCopies, hcopy]
    show (des.setCount p (refCount + 1)).direntryCopies p n = _
    rw [ih (countOf_setCount_self (ne_none_of_countOf hcount)) ?_ (by omega), setCount_setCount,
      hsucc, Nat.add_assoc, Nat.add_comm 1 n]
    intro heq
    rw [heq] at hsucc
    exact absurd hsucc (Nat.succ_ne_zero _).symm

/-- Copies that come to a count, and not to 0, could be counted. -/
theorem lt_of_direntryCopies {n : Nat} {refCount' : UInt32} (hcount : des.countOf p = some refCount)
    (h : des.direntryCopies p n = .ok des') (hcount' : des'.countOf p = some refCount')
    (hzero : refCount' ≠ 0) : refCount.toNat + n < 2 ^ 32 := by
  induction n generalizing des refCount with
  | zero => exact refCount.toNat_lt
  | succ n ih =>
    rw [direntryCopies] at h
    obtain ⟨des₁, hcopy, h⟩ := Except.do_eq_ok_iff.mp h
    obtain ⟨c, hc, -, rfl⟩ := direntryCopy_eq_ok_iff.mp hcopy
    obtain rfl : refCount = c := Option.some.inj (hcount.symm.trans hc)
    have hcount₁ : (des.setCount p (refCount + 1)).countOf p = some (refCount + 1) :=
      countOf_setCount_self (ne_none_of_countOf hcount)
    have hlast : refCount ≠ 2 ^ 32 - 1 := by
      rintro rfl
      -- the count has come to 0, and no copy can be taken then
      cases n with
      | zero =>
        cases h
        rw [hcount₁, Option.some.injEq] at hcount'
        exact hzero (hcount'.symm.trans (by decide))
      | succ n =>
        rw [direntryCopies] at h
        obtain ⟨_, hcopy, -⟩ := Except.do_eq_ok_iff.mp h
        obtain ⟨c, hc, hne, -⟩ := direntryCopy_eq_ok_iff.mp hcopy
        rw [hcount₁, Option.some.injEq] at hc
        exact hne (hc.symm.trans (by decide))
    have hlt := ih hcount₁ h
    rw [toNat_add_one hlast] at hlt
    omega

/-- Deletions that leave something. -/
theorem direntryDeletes_of_lt {n : Nat} (hcount : des.countOf p = some refCount)
    (hlt : n < refCount.toNat) :
    des.direntryDeletes p n = .ok (des.setCount p (UInt32.ofNat (refCount.toNat - n))) := by
  induction n generalizing des refCount with
  | zero =>
    rw [direntryDeletes, Nat.sub_zero, UInt32.ofNat_toNat, setCount_self hcount]
  | succ n ih =>
    -- there are more copies than are given back, and so this is not the last
    have hone : refCount ≠ 1 := by
      rintro rfl
      simp at hlt
    have hzero : refCount ≠ 0 := by
      rintro rfl
      simp at hlt
    have hdelete : des.direntryDelete p = .ok (des.setCount p (refCount - 1)) :=
      direntryDelete_eq_ok_iff.mpr ⟨refCount, hcount, hzero, by rw [if_neg hone]⟩
    rw [direntryDeletes, hdelete]
    show (des.setCount p (refCount - 1)).direntryDeletes p n = _
    rw [ih (countOf_setCount_self (ne_none_of_countOf hcount)) (by
      rw [toNat_sub_one hzero]
      omega), setCount_setCount, toNat_sub_one hzero, Nat.sub_sub, Nat.add_comm 1 n]

/-- Deletions that leave nothing free the direntry, if not more are made. -/
theorem direntryDeletes_of_le {n : Nat} (hcount : des.countOf p = some refCount)
    (hzero : refCount ≠ 0) (hle : refCount.toNat ≤ n) (h : des.direntryDeletes p n = .ok des') :
    des' p = none := by
  induction n generalizing des refCount with
  | zero =>
    have : refCount.toNat ≠ 0 := fun heq => hzero (UInt32.toNat_inj.mp heq)
    omega
  | succ n ih =>
    rw [direntryDeletes] at h
    obtain ⟨des₁, hdelete, h⟩ := Except.do_eq_ok_iff.mp h
    obtain ⟨c, hc, -, rfl⟩ := direntryDelete_eq_ok_iff.mp hdelete
    obtain rfl : refCount = c := Option.some.inj (hcount.symm.trans hc)
    by_cases hone : refCount = 1
    · rw [if_pos hone] at h
      cases n with
      | zero =>
        cases h
        exact Function.update_self _ _ _
      | succ n =>
        -- what has been freed is deleted again
        rw [direntryDeletes] at h
        obtain ⟨des₂, hdelete, -⟩ := Except.do_eq_ok_iff.mp h
        obtain ⟨c, hc, -⟩ := direntryDelete_eq_ok_iff.mp hdelete
        exact absurd (Function.update_self _ _ _) (ne_none_of_countOf hc)
    · rw [if_neg hone] at h
      have hpred := toNat_sub_one hzero
      refine ih (countOf_setCount_self (ne_none_of_countOf hcount)) ?_ (by omega) h
      intro heq
      exact hone (by grind)

/-- There is nothing to copy where there is no link. -/
theorem copyLink_none : des.copyLink none = .ok (des, none) := rfl

/-- A link is copied as the direntry it leads to. -/
theorem copyLink_some_eq_ok_iff {r : Direntries ι × Option ι} :
    des.copyLink (some p) = .ok r ↔ des.direntryCopy p = .ok r.1 ∧ r.2 = some p := by
  rw [copyLink]
  cases des.direntryCopy p with
  | error fault => simp [bind, Except.bind]
  | ok des' =>
    obtain ⟨des'', o⟩ := r
    simp [bind, Except.bind, pure, Except.pure, eq_comm]

/-- A copy leaves the tree as it is. -/
theorem sameTree_direntryCopy (h : des.direntryCopy p = .ok des') : SameTree des des' := by
  obtain ⟨c, hcount, -, rfl⟩ := direntryCopy_eq_ok_iff.mp h
  exact sameTree_setCount (by rw [hcount]; exact Option.some_ne_none _)

/-- What has been copied is there. -/
theorem live_of_direntryCopy (hcopy : des.direntryCopy p = .ok des') : des' p ≠ none := by
  obtain ⟨count, hcount, -⟩ := direntryCopy_eq_ok_iff.mp hcopy
  exact ((sameTree_direntryCopy hcopy).live p).mpr (ne_none_of_countOf hcount)

/-- Copies of different direntries can be taken in any order. -/
theorem direntryCopy_comm (hne : p ≠ q) {des₁ des₂ : Direntries ι}
    (h : des.direntryCopy p = .ok des₁) :
    des₁.direntryCopy q = .ok des₂ ↔
      ∃ des₁', des.direntryCopy q = .ok des₁' ∧ des₁'.direntryCopy p = .ok des₂ := by
  obtain ⟨c, hc, hc0, rfl⟩ := direntryCopy_eq_ok_iff.mp h
  simp only [direntryCopy_eq_ok_iff, countOf_setCount_of_ne hne.symm]
  constructor
  · rintro ⟨d, hd, hd0, rfl⟩
    refine ⟨_, ⟨d, hd, hd0, rfl⟩, c, ?_, hc0, setCount_comm hne _ _⟩
    rw [countOf_setCount_of_ne hne, hc]
  · rintro ⟨des₁', ⟨d, hd, hd0, rfl⟩, c', hc', -, rfl⟩
    rw [countOf_setCount_of_ne hne, hc, Option.some.injEq] at hc'
    subst hc'
    exact ⟨d, hd, hd0, setCount_comm hne.symm _ _⟩

/-! ### Walks -/

/-- `direntry_get_parent` copies the parent. -/
theorem direntryGetParent_eq (hlive : des de ≠ none) :
    des.direntryGetParent de = des.copyLink (des.parentOf de) := by
  obtain ⟨node, hnode⟩ := Option.ne_none_iff_exists'.mp hlive
  rw [direntryGetParent, access, hnode, parentOf, hnode]
  rfl

/-- `direntry_get_first_child` copies the first child. -/
theorem direntryGetFirstChild_eq (hlive : des de ≠ none) :
    des.direntryGetFirstChild de = des.copyLink (des.firstOf de) := by
  obtain ⟨node, hnode⟩ := Option.ne_none_iff_exists'.mp hlive
  rw [direntryGetFirstChild, access, hnode, firstOf, hnode]
  rfl

/-- `direntry_get_next_sibling` copies the next sibling. -/
theorem direntryGetNextSibling_eq (hlive : des de ≠ none) :
    des.direntryGetNextSibling de = des.copyLink (des.nextOf de) := by
  obtain ⟨node, hnode⟩ := Option.ne_none_iff_exists'.mp hlive
  rw [direntryGetNextSibling, access, hnode, nextOf, hnode]
  rfl

/-- What both loops over children do to come to the next. -/
def advance (des : Direntries ι) (child : ι) : Except Fault (Direntries ι × Option ι) := do
  let (des, next) ← des.direntryGetNextSibling child
  let des ← des.direntryDelete child
  return (des, next)

/-- A walk that holds a copy of a child goes on exactly if the copy can be dropped again and the
    next child can be copied. -/
theorem advance_iff {c : ι} (hcopy : des.direntryCopy c = .ok des')
    (hne : des.nextOf c ≠ some c) {r : Direntries ι × Option ι} :
    des'.advance c = .ok r ↔ des.Counted c ∧ des.copyLink (des.nextOf c) = .ok r := by
  rw [advance, direntryGetNextSibling_eq (live_of_direntryCopy hcopy),
    (sameTree_direntryCopy hcopy).nextOf]
  cases hnext : des.nextOf c with
  | none =>
    -- the last one: what is left is the copy of it
    simp only [copyLink_none, bind, Except.bind]
    constructor
    · intro h
      obtain ⟨des₂, hdelete, h⟩ := Except.do_eq_ok_iff.mp h
      obtain ⟨hcounted, rfl⟩ := (direntryDelete_direntryCopy hcopy).mp hdelete
      exact ⟨hcounted, h⟩
    · rintro ⟨hcounted, h⟩
      rw [(direntryDelete_direntryCopy hcopy).mpr ⟨hcounted, rfl⟩]
      exact h
  | some n =>
    have hcn : c ≠ n := fun heq => hne (heq ▸ hnext)
    rw [copyLink_some_eq_ok_iff]
    constructor
    · intro h
      obtain ⟨⟨des₂, next⟩, hlink, h⟩ := Except.do_eq_ok_iff.mp h
      obtain ⟨des₃, hdelete, h⟩ := Except.do_eq_ok_iff.mp h
      obtain ⟨hcopy', rfl⟩ := copyLink_some_eq_ok_iff.mp hlink
      cases h
      -- as if the next one had been copied first
      obtain ⟨desn, hcopyn, hback⟩ := (direntryCopy_comm hcn hcopy).mp hcopy'
      obtain ⟨hcounted, rfl⟩ := (direntryDelete_direntryCopy hback).mp hdelete
      exact ⟨((links_direntryCopy hcopyn).2.2.2 c hcn).mp hcounted, hcopyn, rfl⟩
    · rintro ⟨hcounted, hcopyn, hr⟩
      obtain ⟨desn, next⟩ := r
      dsimp only at hcopyn hr
      have hcounted' : desn.Counted c := ((links_direntryCopy hcopyn).2.2.2 c hcn).mpr hcounted
      obtain ⟨des₂, hback⟩ := exists_direntryCopy hcounted'
      have hlink : des'.copyLink (some n) = .ok (des₂, some n) :=
        copyLink_some_eq_ok_iff.mpr ⟨(direntryCopy_comm hcn hcopy).mpr ⟨desn, hcopyn, hback⟩, rfl⟩
      rw [hlink]
      simp only [bind, Except.bind, (direntryDelete_direntryCopy hback).mpr ⟨hcounted', rfl⟩]
      rw [hr]
      rfl

/-- A step of the loop of `readdir`: the child is listed, and then the next one is. -/
theorem readdirChildren_succ (fuel : Nat) (des : Direntries ι) (buf : Nativefs.Dirbuf) (c : ι) :
    Nativefs.readdirChildren (fuel + 1) des buf (some c) =
      done (Nativefs.dirbufAdd des buf c none) >>= fun buf =>
        done (des.advance c) >>= fun r => Nativefs.readdirChildren fuel r.1 buf r.2 := by
  rw [Nativefs.readdirChildren, advance]
  simp only [done_bind, bind_assoc]
  rfl

omit [DecidableEq ι] in
/-- A direntry that is there is listed under its own name. -/
theorem dirbufAdd_none {buf : Nativefs.Dirbuf} (hlive : des de ≠ none) :
    Nativefs.dirbufAdd des buf de none = .ok (buf ++ [des.dirent de]) := by
  obtain ⟨node, hnode⟩ := Option.ne_none_iff_exists'.mp hlive
  simp only [Nativefs.dirbufAdd, direntryGetName, direntryGetInode, direntryGetType, access,
    dirent, nameOf, inodeOf, typeOf, hnode]
  rfl

/-- The loop of `fsfuse_readdir` gets through exactly if it can take a copy of each child. -/
theorem readdirChildren_iff {head : Option ι} {cs : List ι} (h : Chain des.nextOf head cs)
    {fuel : Nat} (hfuel : cs.length ≤ fuel) {buf : Nativefs.Dirbuf}
    {r : Direntries ι × Nativefs.Dirbuf} :
    (done (des.copyLink head) >>= fun s => Nativefs.readdirChildren fuel s.1 buf s.2).run =
        some (.ok r) ↔
      (∀ c ∈ cs, des.Counted c) ∧ r = (des, buf ++ cs.map des.dirent) := by
  -- on the children; when the walk has gone on, the direntries are as they were
  induction h generalizing fuel buf with
  | nil =>
    rw [copyLink_none, run_done_bind_eq_ok_iff]
    cases fuel <;> simp [Nativefs.readdirChildren, eq_comm]
  | @cons c cs h ih =>
    obtain ⟨fuel, rfl⟩ := Nat.exists_eq_add_one_of_ne_zero (Nat.ne_zero_of_lt hfuel)
    have hstep : ∀ des', des.direntryCopy c = .ok des' →
        ((Nativefs.readdirChildren (fuel + 1) des' buf (some c)).run = some (.ok r) ↔
          des.Counted c ∧
            (∀ x ∈ cs, des.Counted x) ∧ r = (des, buf ++ [des.dirent c] ++ cs.map des.dirent)) := by
      intro des' hcopy
      rw [readdirChildren_succ, dirbufAdd_none (live_of_direntryCopy hcopy),
        (sameTree_direntryCopy hcopy).dirent]
      have hih := @ih fuel (Nat.le_of_succ_le_succ hfuel) (buf ++ [des.dirent c])
      simp only [run_done_bind_eq_ok_iff] at hih
      simp only [run_done_bind_eq_ok_iff, Except.ok.injEq, exists_eq_left',
        advance_iff hcopy h.link_ne, and_assoc, exists_and_left, hih]
    rw [run_done_bind_eq_ok_iff, List.forall_mem_cons, List.map_cons]
    constructor
    · rintro ⟨⟨des', o⟩, hlink, hrun⟩
      obtain ⟨hcopy, rfl⟩ := copyLink_some_eq_ok_iff.mp hlink
      obtain ⟨hc, hcs, hr⟩ := (hstep des' hcopy).mp hrun
      exact ⟨⟨hc, hcs⟩, by rw [hr, List.append_assoc]; rfl⟩
    · rintro ⟨⟨hc, hcs⟩, hr⟩
      obtain ⟨des', hcopy⟩ := exists_direntryCopy hc
      refine ⟨(des', some c), copyLink_some_eq_ok_iff.mpr ⟨hcopy, rfl⟩, (hstep des' hcopy).mpr ?_⟩
      exact ⟨hc, hcs, by rw [hr, List.append_assoc]; rfl⟩

omit [DecidableEq ι] in
/-- `direntry_get_name` gives the name of a direntry that is there. -/
theorem direntryGetName_eq (hlive : des de ≠ none) :
    des.direntryGetName de = .ok ⟨des.nameOf de, zero_not_mem_nameOf des de⟩ := by
  obtain ⟨node, hnode⟩ := Option.ne_none_iff_exists'.mp hlive
  rw [direntryGetName, access, hnode]
  have hname : node.name.val = des.nameOf de := by
    rw [nameOf, hnode]
    rfl
  exact congrArg Except.ok (Subtype.ext hname)

/-- A step of the search for a child: its name is compared, and then the next one's is. -/
theorem findChild_succ (name : CStr) (fuel : Nat) (des : Direntries ι) (c : ι) :
    Nativefs.findChild name (fuel + 1) des (some c) =
      done (des.direntryGetName c) >>= fun childName =>
        if childName = name then pure (des, some c)
        else done (des.advance c) >>= fun r => Nativefs.findChild name fuel r.1 r.2 := by
  rw [Nativefs.findChild, advance]
  simp only [done_bind, bind_assoc]
  rfl

/-- The loop of `direntry_get_child_by_name` comes to a copy of the first child with the name, if
    it can take a copy of each on the way there. -/
theorem findChild_iff {head : Option ι} {cs : List ι} (h : Chain des.nextOf head cs) {fuel : Nat}
    (hfuel : cs.length ≤ fuel) {name : CStr} {r : Direntries ι × Option ι} :
    (done (des.copyLink head) >>= fun s => Nativefs.findChild name fuel s.1 s.2).run =
        some (.ok r) ↔
      (∀ c ∈ cs.takeWhile (des.nameOf · ≠ name.val), des.Counted c) ∧
        des.copyLink (cs.find? (des.nameOf · = name.val)) = .ok r := by
  induction h generalizing fuel with
  | nil =>
    rw [copyLink_none, run_done_bind_eq_ok_iff]
    cases fuel <;> simp [Nativefs.findChild, copyLink_none, eq_comm]
  | @cons c cs h ih =>
    obtain ⟨fuel, rfl⟩ := Nat.exists_eq_add_one_of_ne_zero (Nat.ne_zero_of_lt hfuel)
    -- the name is that of the direntry in the tree, copied or not
    have hname : ∀ des', des.direntryCopy c = .ok des' →
        des'.direntryGetName c = .ok ⟨des.nameOf c, zero_not_mem_nameOf des c⟩ := by
      intro des' hcopy
      have hget := direntryGetName_eq (live_of_direntryCopy hcopy)
      simpa only [(sameTree_direntryCopy hcopy).nameOf] using hget
    rw [run_done_bind_eq_ok_iff]
    by_cases heq : des.nameOf c = name.val
    · -- the copy that is held is the one returned
      rw [List.takeWhile_cons_of_neg (by simpa using heq),
        List.find?_cons_of_pos (by simpa using heq), and_iff_right (by simp)]
      constructor
      · rintro ⟨⟨des', o⟩, hlink, hrun⟩
        obtain ⟨hcopy, rfl⟩ := copyLink_some_eq_ok_iff.mp hlink
        rw [findChild_succ, run_done_bind_eq_ok_iff] at hrun
        obtain ⟨_, hget, hrun⟩ := hrun
        rw [hname des' hcopy, Except.ok.injEq] at hget
        rw [if_pos (by rw [← hget]; exact Subtype.ext heq), run_pure_eq_ok_iff] at hrun
        exact hrun ▸ hlink
      · intro hlink
        obtain ⟨hcopy, hfound⟩ := copyLink_some_eq_ok_iff.mp hlink
        obtain ⟨des', o⟩ := r
        dsimp only at hcopy hfound
        subst hfound
        refine ⟨_, hlink, ?_⟩
        rw [findChild_succ, run_done_bind_eq_ok_iff]
        exact ⟨_, hname des' hcopy, by rw [if_pos (Subtype.ext heq)]; rfl⟩
    · have hih := ih (Nat.le_of_succ_le_succ hfuel)
      rw [run_done_bind_eq_ok_iff] at hih
      -- the child is passed: its copy is given back, and the search goes on with the next
      have hstep : ∀ des', des.direntryCopy c = .ok des' →
          ((Nativefs.findChild name (fuel + 1) des' (some c)).run = some (.ok r) ↔
            des.Counted c ∧ (∀ x ∈ cs.takeWhile (des.nameOf · ≠ name.val), des.Counted x) ∧
              des.copyLink (cs.find? (des.nameOf · = name.val)) = .ok r) := by
        intro des' hcopy
        simp only [findChild_succ, run_done_bind_eq_ok_iff, hname des' hcopy, Except.ok.injEq,
          exists_eq_left']
        rw [if_neg fun hsub => heq (congrArg Subtype.val hsub), run_done_bind_eq_ok_iff]
        simp only [advance_iff hcopy h.link_ne, and_assoc, exists_and_left, hih]
      rw [List.takeWhile_cons_of_pos (by simpa using heq),
        List.find?_cons_of_neg (by simpa using heq), List.forall_mem_cons, and_assoc]
      constructor
      · rintro ⟨⟨des', o⟩, hlink, hrun⟩
        obtain ⟨hcopy, rfl⟩ := copyLink_some_eq_ok_iff.mp hlink
        exact (hstep des' hcopy).mp hrun
      · intro hall
        obtain ⟨des', hcopy⟩ := exists_direntryCopy hall.1
        refine ⟨(des', some c), copyLink_some_eq_ok_iff.mpr ⟨hcopy, rfl⟩, ?_⟩
        exact (hstep des' hcopy).mpr hall

/-- A directory that can be walked over: it has been asked for its children, and a copy of its
    parent and of each child can be taken. -/
structure Walkable (des : Direntries ι) (de : ι) : Prop where
  looked : des.looked de = true
  parent : ∀ p, des.parentOf de = some p → des.Counted p
  children : ∀ cs, Chain des.nextOf (des.firstOf de) cs → ∀ c ∈ cs, des.Counted c

/-! ### Trees with a root of their own -/

/-- Trees as `direntry_new_root` begins them: what has no parent has neither a count nor an
    indexnode, and the children of a direntry are those that have it for a parent. Links may lead
    to direntries that are no longer in memory. -/
structure Rooted (des : Direntries ι) : Prop where
  isForest : ∃ nodes, (∀ de, des de ≠ none → de ∈ nodes) ∧ IsForest nodes des.parentOf
  root : ∀ de, des de ≠ none → des.parentOf de = none → des.countOf de = none ∧ des.inOf de = none
  chain : ∀ de, des de ≠ none → ∃ cs, Chain des.nextOf (des.firstOf de) cs ∧
    ∀ c ∈ cs, des c ≠ none → des.parentOf c = some de

omit [DecidableEq ι] in
/-- They stay so, however many copies there are. -/
theorem Rooted.of_sameTree (h : des.Rooted) (htree : SameTree des des') : des'.Rooted where
  isForest := by
    obtain ⟨nodes, hnodes, hforest⟩ := h.isForest
    rw [htree.parentOf]
    exact ⟨nodes, fun de hlive => hnodes de ((htree.live de).mp hlive), hforest⟩
  root de hlive htop := by
    rw [htree.counts, htree.inOf]
    rw [htree.parentOf] at htop
    exact h.root de ((htree.live de).mp hlive) htop
  chain de hlive := by
    rw [htree.nextOf, htree.firstOf, htree.parentOf]
    obtain ⟨cs, hchain, hcs⟩ := h.chain de ((htree.live de).mp hlive)
    exact ⟨cs, hchain, fun c hc hlive => hcs c hc ((htree.live c).mp hlive)⟩

omit [DecidableEq ι] in
/-- A directory is not one of its children. -/
theorem Rooted.ne_of_mem (h : des.Rooted) {cs : List ι} (hlive : des de ≠ none)
    (hcs : ∀ c ∈ cs, des c ≠ none → des.parentOf c = some de) {c : ι} (hc : c ∈ cs) : c ≠ de := by
  rintro rfl
  obtain ⟨nodes, hnodes, hforest⟩ := h.isForest
  exact hforest.acyclic c (hnodes c hlive) (.single (hcs c hc hlive))

omit [DecidableEq ι] in
/-- Every direntry has a chain of children, if only an empty one. -/
theorem Rooted.exists_chain (h : des.Rooted) (de : ι) :
    ∃ cs, Chain des.nextOf (des.firstOf de) cs ∧
      ∀ c ∈ cs, des c ≠ none → des.parentOf c = some de := by
  by_cases hlive : des de = none
  · refine ⟨[], ?_, by simp⟩
    rw [firstOf, hlive]
    exact .nil
  · exact h.chain de hlive

/-- There is no path for what is below the root. -/
theorem Rooted.not_getPath (h : des.Rooted) (hlive : des de ≠ none)
    (hparent : des.parentOf de ≠ none) (fuel : Nat) (r : Direntries ι × CStr) :
    (direntryGetPath fuel des de).run ≠ some (.ok r) := by
  intro hrun
  obtain ⟨nodes, hnodes, hforest⟩ := h.isForest
  obtain ⟨ancestors, hancestry⟩ := hforest.exists_ancestry (hnodes de hlive)
  obtain ⟨hcounted, -⟩ := getPath_sound hancestry hlive hrun
  have hne : ancestors ≠ [] := by
    rintro rfl
    cases hancestry with
    | top htop => exact hparent htop
  obtain ⟨t, ht, htop⟩ := hancestry.exists_top hne
  obtain ⟨count, hcount, -⟩ := hcounted t ht
  rw [(h.root t (hcounted t ht).ne_none htop).1] at hcount
  cases hcount

end Direntries

namespace Nativefs

open Direntries ParentLinks

variable {ι : Type} [DecidableEq ι] {fs : Nativefs ι} {de : ι} {cs : List ι} {fuel : Nat}

/-- Below a root without an indexnode only a directory that has been asked for its children
    can be asked again, and it is not looked for them then. -/
theorem ensureChildren_iff (h : fs.des.Rooted) (hlive : fs.des de ≠ none) (listings : Listings ι)
    {r : Nativefs ι × Nat} :
    (fs.ensureChildren fuel de listings).run = some (.ok r) ↔
      fs.des.looked de = true ∧ r = (fs, eio) := by
  -- the path and the indexnode are only asked for if they have not been yet
  obtain ⟨node, hnode⟩ := Option.ne_none_iff_exists'.mp hlive
  have haccess : fs.des.access de = .ok node := by
    rw [access, hnode]
    rfl
  have hlooked : fs.des.looked de = node.lookedForChildren := by
    rw [looked, hnode]
    rfl
  rw [ensureChildren, run_done_bind_eq_ok_iff]
  simp only [haccess, Except.ok.injEq, exists_eq_left', hlooked]
  by_cases hasked : node.lookedForChildren = true
  · rw [if_pos hasked, run_pure_eq_ok_iff]
    simp [hasked, eq_comm]
  · rw [if_neg hasked, run_bind_eq_ok_iff]
    constructor
    · rintro ⟨⟨des, path⟩, hpath, hrun⟩
      exfalso
      by_cases htop : fs.des.parentOf de = none
      · -- the root has its path, and no indexnode to ask
        have hin : node.in_ = none := by
          have := (h.root de hlive htop).2
          rwa [inOf, hnode] at this
        rw [hin, run_done_bind_eq_ok_iff] at hrun
        obtain ⟨in_, hnull, -⟩ := hrun
        cases hnull
      · exact h.not_getPath hlive htop fuel _ hpath
    · rintro ⟨hlook, -⟩
      exact absurd hlook hasked

omit [DecidableEq ι] in
/-- A direntry that is there can be listed under another name. -/
theorem dirbufAdd_some {des : Direntries ι} {buf : Dirbuf} {name : CStr} (hlive : des de ≠ none) :
    dirbufAdd des buf de (some name) =
      .ok (buf ++ [(name.val, des.inodeOf de, des.typeOf de)]) := by
  obtain ⟨node, hnode⟩ := Option.ne_none_iff_exists'.mp hlive
  simp only [dirbufAdd, direntryGetInode, direntryGetType, access, inodeOf, typeOf, hnode]
  rfl

/-- What a listing of a directory consists of. -/
def listed (des : Direntries ι) (de : ι) (cs : List ι) : Dirbuf :=
  let parent := (des.parentOf de).getD de
  (ascii ".", des.inodeOf de, des.typeOf de) ::
    (ascii "..", des.inodeOf parent, des.typeOf parent) :: cs.map des.dirent

/-- The parent is copied while its entry is added. -/
theorem readdirParent_iff {des : Direntries ι} (h : des.Rooted) (hlive : des de ≠ none)
    {buf : Dirbuf} {r : Direntries ι × Dirbuf} :
    readdirParent des buf de = .ok r ↔
      (∀ p, des.parentOf de = some p → des.Counted p) ∧
        r = (des, buf ++ [(ascii "..", des.inodeOf ((des.parentOf de).getD de),
          des.typeOf ((des.parentOf de).getD de))]) := by
  rw [readdirParent, direntryGetParent_eq hlive]
  -- the root lists itself, as it has no parent
  cases hparent : des.parentOf de with
  | none =>
    simp only [copyLink_none, bind, Except.bind]
    rw [dirbufAdd_some hlive]
    simp [pure, Except.pure, eq_comm, dotDot]
  | some p =>
    simp only [Option.some.injEq, forall_eq', Option.getD_some]
    constructor
    · intro hrun
      obtain ⟨⟨des', o⟩, hlink, hrun⟩ := Except.do_eq_ok_iff.mp hrun
      obtain ⟨hcopy, rfl⟩ := copyLink_some_eq_ok_iff.mp hlink
      have htree := sameTree_direntryCopy hcopy
      obtain ⟨buf', hadd, hrun⟩ := Except.do_eq_ok_iff.mp hrun
      obtain ⟨des'', hdelete, hrun⟩ := Except.do_eq_ok_iff.mp hrun
      obtain ⟨hcounted, rfl⟩ := (direntryDelete_direntryCopy hcopy).mp hdelete
      rw [dirbufAdd_some (live_of_direntryCopy hcopy), htree.inodeOf, htree.typeOf] at hadd
      cases hadd
      cases hrun
      exact ⟨hcounted, rfl⟩
    · rintro ⟨hcounted, rfl⟩
      obtain ⟨des', hcopy⟩ := exists_direntryCopy hcounted
      have htree := sameTree_direntryCopy hcopy
      have hlink : des.copyLink (some p) = .ok (des', some p) :=
        copyLink_some_eq_ok_iff.mpr ⟨hcopy, rfl⟩
      rw [hlink]
      simp only [bind, Except.bind]
      rw [dirbufAdd_some (live_of_direntryCopy hcopy), htree.inodeOf, htree.typeOf]
      simp only [(direntryDelete_direntryCopy hcopy).mpr ⟨hcounted, rfl⟩]
      rfl

omit [DecidableEq ι] in
/-- What has been asked for its children is there. -/
theorem live_of_looked {des : Direntries ι} (h : des.looked de = true) : des de ≠ none := by
  intro hnone
  rw [looked, hnone] at h
  cases h

/-- A directory can be listed exactly if it can be walked over, and the counts are as before
    then. -/
theorem fsfuseReaddir_iff (h : fs.des.Rooted)
    (hchain : Chain fs.des.nextOf (fs.des.firstOf de) cs) (hfuel : cs.length ≤ fuel)
    (listings : Listings ι) {r : Nativefs ι × Dirbuf} :
    (fs.fsfuseReaddir fuel de listings).run = some (.ok r) ↔
      fs.des.Walkable de ∧ r = (fs, listed fs.des de cs) := by
  by_cases hlive : fs.des de = none
  · -- nothing is read of a direntry that has been freed
    constructor
    · intro hrun
      obtain ⟨buf, hadd, -⟩ := run_done_bind_eq_ok_iff.mp hrun
      obtain ⟨name, -, hadd⟩ := Except.do_eq_ok_iff.mp hadd
      obtain ⟨inode, hinode, -⟩ := Except.do_eq_ok_iff.mp hadd
      rw [direntryGetInode, access, hlive] at hinode
      cases hinode
    · rintro ⟨hwalk, -⟩
      exact absurd hlive (live_of_looked hwalk.looked)
  have hfirst := direntryGetFirstChild_eq hlive
  rw [fsfuseReaddir, run_done_bind_eq_ok_iff]
  simp only [dirbufAdd_some hlive, Except.ok.injEq, exists_eq_left', run_done_bind_eq_ok_iff,
    readdirParent_iff h hlive]
  -- from the first child on the loop lists the children one by one
  have hloop : ∀ buf r, (∃ s, fs.des.copyLink (fs.des.firstOf de) = .ok s ∧
      (readdirChildren fuel s.1 buf s.2).run = some (.ok r)) ↔
        (∀ c ∈ cs, fs.des.Counted c) ∧ r = (fs.des, buf ++ cs.map fs.des.dirent) := by
    intro buf r
    rw [← readdirChildren_iff hchain hfuel, run_done_bind_eq_ok_iff]
  constructor
  -- each step goes through with the direntries as they were
  · rintro ⟨_, ⟨hparent, rfl⟩, hrun⟩
    obtain ⟨s, hensure, hrun⟩ := run_bind_eq_ok_iff.mp hrun
    obtain ⟨hlooked, rfl⟩ := (ensureChildren_iff h hlive listings).mp hensure
    obtain ⟨s, hlink, hrun⟩ := run_done_bind_eq_ok_iff.mp hrun
    obtain ⟨t, hwalk, hrun⟩ := run_bind_eq_ok_iff.mp hrun
    rw [hfirst] at hlink
    obtain ⟨hcounted, rfl⟩ := (hloop _ t).mp ⟨s, hlink, hwalk⟩
    rw [run_pure_eq_ok_iff] at hrun
    exact ⟨⟨hlooked, hparent, fun cs' hcs' => hchain.unique hcs' ▸ hcounted⟩, hrun.symm⟩
  · rintro ⟨⟨hlooked, hparent, hchildren⟩, rfl⟩
    have hcounted := hchildren cs hchain
    refine ⟨_, ⟨hparent, rfl⟩, ?_⟩
    rw [run_bind_eq_ok_iff]
    refine ⟨_, (ensureChildren_iff h hlive listings).mpr ⟨hlooked, rfl⟩, ?_⟩
    obtain ⟨s, hlink, hwalk⟩ := (hloop _ _).mpr ⟨hcounted, rfl⟩
    rw [run_done_bind_eq_ok_iff]
    refine ⟨s, hfirst.trans hlink, ?_⟩
    rw [run_bind_eq_ok_iff]
    exact ⟨_, hwalk, rfl⟩

/-- What the inode map has is copied. -/
theorem direntryGetByInode_some {ino : Nat} (hmap : fs.map.inodeMapGet ino = .ok (some de)) :
    fs.direntryGetByInode ino =
      fs.des.direntryCopy de >>= fun des => .ok ({ fs with des }, .ok de) := by
  rw [direntryGetByInode, inodeMapGet, hmap]
  show ((copyLink fs.des (some de) >>= _) >>= _) = _
  rw [copyLink]
  cases fs.des.direntryCopy de <;> rfl

/-- So it is found exactly if it can be copied. -/
theorem direntryGetByInode_iff {ino : Nat} (hmap : fs.map.inodeMapGet ino = .ok (some de))
    {r : Nativefs ι × Except Nat ι} :
    fs.direntryGetByInode ino = .ok r ↔
      ∃ des, fs.des.direntryCopy de = .ok des ∧ r = ({ fs with des }, .ok de) := by
  rw [direntryGetByInode_some hmap, Except.do_eq_ok_iff]
  simp only [Except.ok.injEq, eq_comm]

/-- What it does not have is not there. -/
theorem direntryGetByInode_none {ino : Nat} (hmap : fs.map.inodeMapGet ino = .ok none) :
    fs.direntryGetByInode ino = .ok (fs, .error enoent) := by
  rw [direntryGetByInode, inodeMapGet, hmap]
  rfl

/-- A lookup goes through the children of a directory that has been asked for them, of which it
    has a copy in the meantime. -/
theorem direntryGetChildByName_eq_ok_iff (h : fs.des.Rooted) (hlive : fs.des de ≠ none) {ino : Nat}
    (hmap : fs.map.inodeMapGet ino = .ok (some de)) {name : CStr} {listings : Listings ι}
    {r : Nativefs ι × Except Nat ι} :
    (fs.direntryGetChildByName fuel ino name listings).run = some (.ok r) ↔
      fs.des.looked de = true ∧ ∃ des, fs.des.direntryCopy de = .ok des ∧ ∃ t,
        (done (des.copyLink (fs.des.firstOf de)) >>= fun s => findChild name fuel s.1 s.2).run =
          some (.ok t) ∧ ∃ des', t.1.direntryDelete de = .ok des' ∧
            r = ({ fs with des := des' }, t.2.elim (.error enoent) .ok) := by
  rw [direntryGetChildByName, run_done_bind_eq_ok_iff]
  constructor
  -- the copy of the parent is held through the search
  · rintro ⟨_, hget, hrun⟩
    obtain ⟨des, hcopy, rfl⟩ := (direntryGetByInode_iff hmap).mp hget
    have htree := sameTree_direntryCopy hcopy
    have hlive' := (htree.live de).mpr hlive
    obtain ⟨_, hensure, hrun⟩ := run_bind_eq_ok_iff.mp hrun
    have hensured := @ensureChildren_iff _ _ { fs with des } de fuel (h.of_sameTree htree) hlive'
    obtain ⟨hlooked, rfl⟩ := (hensured listings).mp hensure
    obtain ⟨s, hfirst, hrun⟩ := run_done_bind_eq_ok_iff.mp hrun
    obtain ⟨t, hfind, hrun⟩ := run_bind_eq_ok_iff.mp hrun
    obtain ⟨des', hdelete, hrun⟩ := run_done_bind_eq_ok_iff.mp hrun
    rw [direntryGetFirstChild_eq hlive', htree.firstOf] at hfirst
    rw [htree.looked] at hlooked
    rw [run_pure_eq_ok_iff] at hrun
    exact ⟨hlooked, des, hcopy, t, run_done_bind_eq_ok_iff.mpr ⟨s, hfirst, hfind⟩, des', hdelete,
      hrun.symm⟩
  · rintro ⟨hlooked, des, hcopy, t, hwalk, des', hdelete, rfl⟩
    have htree := sameTree_direntryCopy hcopy
    have hlive' := (htree.live de).mpr hlive
    obtain ⟨s, hfirst, hfind⟩ := run_done_bind_eq_ok_iff.mp hwalk
    rw [← htree.firstOf, ← direntryGetFirstChild_eq hlive'] at hfirst
    rw [← htree.looked] at hlooked
    refine ⟨_, (direntryGetByInode_iff hmap).mpr ⟨des, hcopy, rfl⟩, run_bind_eq_ok_iff.mpr ?_⟩
    have hensured := @ensureChildren_iff _ _ { fs with des } de fuel (h.of_sameTree htree) hlive'
    refine ⟨_, (hensured listings).mpr ⟨hlooked, rfl⟩,
      run_done_bind_eq_ok_iff.mpr ⟨s, hfirst, ?_⟩⟩
    exact run_bind_eq_ok_iff.mpr ⟨t, hfind, run_done_bind_eq_ok_iff.mpr ⟨des', hdelete, rfl⟩⟩

/-- A lookup takes a copy of each child on the way to the one it finds, and what is left is the
    copy of that. -/
theorem direntryGetChildByName_iff (h : fs.des.Rooted) (hlive : fs.des de ≠ none) {ino : Nat}
    (hmap : fs.map.inodeMapGet ino = .ok (some de))
    (hchain : Chain fs.des.nextOf (fs.des.firstOf de) cs)
    (hcs : ∀ c ∈ cs, fs.des c ≠ none → fs.des.parentOf c = some de)
    (hfuel : cs.length ≤ fuel) {name : CStr}
    {listings : Listings ι} {r : Nativefs ι × Except Nat ι} :
    (fs.direntryGetChildByName fuel ino name listings).run = some (.ok r) ↔
      fs.des.looked de = true ∧ fs.des.Counted de ∧
        (∀ c ∈ cs.takeWhile (fs.des.nameOf · ≠ name.val), fs.des.Counted c) ∧ ∃ t,
          fs.des.copyLink (cs.find? (fs.des.nameOf · = name.val)) = .ok t ∧
            r = ({ fs with des := t.1 }, t.2.elim (.error enoent) .ok) := by
  rw [direntryGetChildByName_eq_ok_iff h hlive hmap]
  refine and_congr_right fun hlooked => ?_
  -- the walk, when the directory has been copied
  have hwalk : ∀ des, fs.des.direntryCopy de = .ok des → ∀ t,
      (done (des.copyLink (fs.des.firstOf de)) >>= fun s => findChild name fuel s.1 s.2).run =
          some (.ok t) ↔
        (∀ c ∈ cs.takeWhile (fs.des.nameOf · ≠ name.val), fs.des.Counted c) ∧
          des.copyLink (cs.find? (fs.des.nameOf · = name.val)) = .ok t := by
    intro des hcopy t
    have htree := sameTree_direntryCopy hcopy
    have hcounted : ∀ c ∈ cs, (des.Counted c ↔ fs.des.Counted c) := fun c hc =>
      (links_direntryCopy hcopy).2.2.2 c (h.ne_of_mem hlive hcs hc)
    rw [← htree.nextOf] at hchain
    rw [findChild_iff hchain hfuel, htree.nameOf]
    refine and_congr_left fun _ => forall₂_congr fun c hc => hcounted c ?_
    exact (List.takeWhile_prefix _).subset hc
  cases hfind : cs.find? (fs.des.nameOf · = name.val) with
  | none =>
    constructor
    · rintro ⟨des, hcopy, t, hrun, des', hdelete, rfl⟩
      rw [hwalk des hcopy, hfind, copyLink_none] at hrun
      obtain ⟨hpassed, hrun⟩ := hrun
      cases hrun
      obtain ⟨hde, rfl⟩ := (direntryDelete_direntryCopy hcopy).mp hdelete
      exact ⟨hde, hpassed, _, rfl, rfl⟩
    · rintro ⟨hde, hpassed, t, ht, rfl⟩
      cases ht
      obtain ⟨des, hcopy⟩ := exists_direntryCopy hde
      refine ⟨des, hcopy, (des, none), (hwalk des hcopy _).mpr ⟨hpassed, by rw [hfind]; rfl⟩,
        fs.des, (direntryDelete_direntryCopy hcopy).mpr ⟨hde, rfl⟩, rfl⟩
  | some x =>
    have hx : x ∈ cs := List.mem_of_find?_eq_some hfind
    have hne : de ≠ x := Ne.symm (h.ne_of_mem hlive hcs hx)
    constructor
    · rintro ⟨des, hcopy, t, hrun, des', hdelete, rfl⟩
      rw [hwalk des hcopy, hfind] at hrun
      obtain ⟨hpassed, hrun⟩ := hrun
      obtain ⟨hcopyx, hx'⟩ := copyLink_some_eq_ok_iff.mp hrun
      -- as if the child had been copied first
      obtain ⟨desx, hfirst, hback⟩ := (direntryCopy_comm hne hcopy).mp hcopyx
      obtain ⟨hde, rfl⟩ := (direntryDelete_direntryCopy hback).mp hdelete
      refine ⟨((links_direntryCopy hfirst).2.2.2 de hne).mp hde, hpassed, (_, some x),
        copyLink_some_eq_ok_iff.mpr ⟨hfirst, rfl⟩, by rw [hx']⟩
    · rintro ⟨hde, hpassed, ⟨desx, o⟩, ht, rfl⟩
      obtain ⟨hfirst, rfl⟩ := copyLink_some_eq_ok_iff.mp ht
      obtain ⟨des, hcopy⟩ := exists_direntryCopy hde
      have hde' : desx.Counted de := ((links_direntryCopy hfirst).2.2.2 de hne).mpr hde
      obtain ⟨des', hback⟩ := exists_direntryCopy hde'
      have hcopyx : des.direntryCopy x = .ok des' :=
        (direntryCopy_comm hne hcopy).mpr ⟨desx, hfirst, hback⟩
      refine ⟨des, hcopy, (des', some x), (hwalk des hcopy _).mpr ⟨hpassed, ?_⟩, desx,
        (direntryDelete_direntryCopy hback).mpr ⟨hde', rfl⟩, rfl⟩
      rw [hfind]
      exact copyLink_some_eq_ok_iff.mpr ⟨hcopyx, rfl⟩

/-! ### A tree of three levels -/

/-- The root, a directory in it, a directory in that, and a file, of which there are so many
    copies. All of them have been looked up. -/
def threeLevels (refCount : UInt32) : Nativefs (Fin 4) where
  des
    | 0 => some { direntryNewRoot with children := some 1, lookedForChildren := true }
    | 1 =>
      some
        { direntryNewRoot with
          refCount := some 2, in_ := some 0, name := ⟨ascii "d", by decide⟩, inode := 2
          parent := some 0, children := some 2, lookedForChildren := true }
    | 2 =>
      some
        { direntryNewRoot with
          refCount := some 2, in_ := some 0, name := ⟨ascii "e", by decide⟩, inode := 3
          parent := some 1, children := some 3, lookedForChildren := true }
    | 3 =>
      some
        { direntryNewRoot with
          refCount := some refCount, in_ := some 0, name := ⟨ascii "f", by decide⟩, type := .file
          inode := 4, parent := some 2 }
  map := ⟨[none, some 0, some 1, some 2, some 3] ++ List.replicate 27 none, 5, 5⟩

/-- The three levels are a tree below the root. -/
theorem rooted_threeLevels (refCount : UInt32) : (threeLevels refCount).des.Rooted where
  isForest := by
    refine ⟨Set.univ, fun _ _ => Set.mem_univ _, isForest_of_lt (Set.toFinite _)
      (fun _ _ => Set.mem_univ _) ?_⟩
    intro i p hlink
    fin_cases i <;> fin_cases p <;> first | decide | cases hlink
  root de _ htop := by
    fin_cases de
    · exact ⟨rfl, rfl⟩
    all_goals cases htop
  chain de _ := by
    fin_cases de
    · exact ⟨[1], .cons .nil, fun c hc _ => by rw [List.mem_singleton.mp hc]; rfl⟩
    · exact ⟨[2], .cons .nil, fun c hc _ => by rw [List.mem_singleton.mp hc]; rfl⟩
    · exact ⟨[3], .cons .nil, fun c hc _ => by rw [List.mem_singleton.mp hc]; rfl⟩
    · exact ⟨[], .nil, by simp⟩

end Nativefs

end Fsfuse.Native
