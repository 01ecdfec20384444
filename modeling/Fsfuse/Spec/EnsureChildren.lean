import Fsfuse.Spec.DirentryTree

/-!
# Populating a directory

`direntry_ensure_children` is meant to be all or nothing: a successful fetch gives a directory
its children, a failed one leaves it as it was, to be tried again, and once it has its
children there is nothing left to do.

`indexnode_tryget_listing` returns what the fetcher does, 0 for success, but is tested as if
0 were a failure; and the return value starts out as an error, and is one when a directory has
been asked for already. This is so wherever a call comes back at all: the root of
`direntry_new_root` has no indexnode, and stops the daemon before it is asked.

* `rc_of_ensureChildren` — what a call returns, if it does;
* `ensureChildren_not_allOrNothing` — it never does what it should;
* `direntryInit_stops` — nor can the root be made, which is copied on the way.
-/

namespace Fsfuse.Native.Nativefs

open Direntries ParentLinks

variable {ι : Type} [DecidableEq ι]

/-- The names and types of some children. -/
def entriesOf (des : Direntries ι) (cs : List ι) : List (List UInt8 × ListingType) :=
  cs.map fun c => (des.nameOf c, des.typeOf c)

/-- The names and types that an indexnode has told. -/
def toldOf (fetch : Fetch ι) : List (List UInt8 × ListingType) :=
  fetch.found.map fun entry => (entry.1.name.val, entry.1.type)

/-- With enough fuel, a call with such an outcome of the fetch comes to what is expected. -/
def Comes (fs : Nativefs ι) (de : ι) (fetch : Fetch ι) (expected : Nativefs ι → Nat → Prop) :
    Prop :=
  ∃ bound, ∀ fuel ≥ bound, ∃ fs' rc,
    (fs.ensureChildren fuel de fun _ _ => fetch).run = some (.ok (fs', rc)) ∧ expected fs' rc

/-- What `direntry_ensure_children` is for. -/
structure AllOrNothing (fs : Nativefs ι) (de : ι) (fetch : Fetch ι) : Prop where
  success : fs.des.looked de = false → fetch.rc = 0 → fs.Comes de fetch fun fs' rc =>
    rc = 0 ∧ fs'.des.looked de = true ∧
      ∃ cs, Chain fs'.des.nextOf (fs'.des.firstOf de) cs ∧
        (entriesOf fs'.des cs).Perm (toldOf fetch)
  failure : fs.des.looked de = false → fetch.rc ≠ 0 → fs.Comes de fetch fun fs' rc =>
    rc ≠ 0 ∧ fs'.des.looked de = false ∧ fs'.des.firstOf de = fs.des.firstOf de
  again : fs.des.looked de = true → fs.Comes de fetch fun fs' rc => rc = 0 ∧ fs' = fs

variable {fs fs' : Nativefs ι} {de : ι} {listings : Listings ι} {fuel rc : Nat}

/-- A call that comes back returns 0 exactly after a fetch that has failed. -/
theorem rc_of_ensureChildren {fetch : Fetch ι}
    (hrun : (fs.ensureChildren fuel de fun _ _ => fetch).run = some (.ok (fs', rc))) :
    rc = if fs.des.looked de = true ∨ fetch.rc = 0 then eio else 0 := by
  rw [ensureChildren, run_done_bind_eq_ok_iff] at hrun
  obtain ⟨node, haccess, hrun⟩ := hrun
  have hlooked : fs.des.looked de = node.lookedForChildren := by
    cases hde : fs.des de with
    | none =>
      rw [access, hde] at haccess
      cases haccess
    | some node' =>
      rw [access, hde] at haccess
      cases haccess
      rw [looked, hde]
      rfl
  rw [hlooked]
  by_cases hasked : node.lookedForChildren = true
  · rw [if_pos hasked, run_pure_eq_ok_iff] at hrun
    rw [if_pos (.inl hasked)]
    exact (congrArg Prod.snd hrun).symm
  · rw [if_neg hasked] at hrun
    obtain ⟨⟨des, path⟩, -, hrun⟩ := run_bind_eq_ok_iff.mp hrun
    obtain ⟨in_, -, hrun⟩ := run_done_bind_eq_ok_iff.mp hrun
    -- 0 is taken for a failure here
    by_cases hzero : fetch.rc = 0
    · rw [if_neg (not_not.mpr hzero), run_pure_eq_ok_iff] at hrun
      rw [if_pos (.inr hzero)]
      exact (congrArg Prod.snd hrun).symm
    · rw [if_pos hzero] at hrun
      obtain ⟨made, -, hrun⟩ := run_done_bind_eq_ok_iff.mp hrun
      rw [run_pure_eq_ok_iff] at hrun
      rw [if_neg (not_or.mpr ⟨hasked, hzero⟩)]
      exact (congrArg Prod.snd hrun).symm

/-- No call does what it should: if it comes back, a first one returns an error for a success and
    0 for a failure, and a later one returns an error. -/
theorem ensureChildren_not_allOrNothing (fs : Nativefs ι) (de : ι) (fetch : Fetch ι) :
    ¬ AllOrNothing fs de fetch := by
  intro hall
  -- what a call with enough fuel returns
  have hcomes : ∀ {expected : Nativefs ι → Nat → Prop}, fs.Comes de fetch expected →
      ∃ fs', expected fs' (if fs.des.looked de = true ∨ fetch.rc = 0 then eio else 0) := by
    rintro expected ⟨bound, hbound⟩
    obtain ⟨fs', rc, hrun, hexpected⟩ := hbound bound (Nat.le_refl bound)
    rw [rc_of_ensureChildren hrun] at hexpected
    exact ⟨fs', hexpected⟩
  cases hlooked : fs.des.looked de with
  | true =>
    obtain ⟨fs', hrc, -⟩ := hcomes (hall.again hlooked)
    rw [if_pos (.inl hlooked)] at hrc
    exact absurd hrc (by decide)
  | false =>
    by_cases hzero : fetch.rc = 0
    · obtain ⟨fs', hrc, -⟩ := hcomes (hall.success hlooked hzero)
      rw [if_pos (.inr hzero)] at hrc
      exact absurd hrc (by decide)
    · obtain ⟨fs', hrc, -⟩ := hcomes (hall.failure hlooked hzero)
      rw [if_neg (not_or.mpr ⟨by simp [hlooked], hzero⟩)] at hrc
      exact hrc rfl

/-! ### The root -/

/-- To add the root to the inode map is to copy it, so the daemon does not even get as far as its
    first request. -/
theorem direntryInit_stops (root : ι) : direntryInit root = .error .nullPointer := by
  have haccess : access (Function.update (fun _ => none) root (some direntryNewRoot)) root =
      .ok direntryNewRoot := by simp [access]
  rw [direntryInit, inodeMapAdd, direntryCopy, haccess]
  rfl

/-- A file system of a root only, which has been asked for its children or not. It is what
    `direntry_init` would leave if the root could be copied. -/
def rootOnly (lookedForChildren : Bool) : Nativefs Unit where
  des _ := some { direntryNewRoot with lookedForChildren }
  map := (InodeMap.State.new () : InodeMap.State Unit Unit).map

/-- A fetch that finds nothing, without trouble. -/
def nothingFound : Fetch Unit := ⟨0, []⟩

/-- The root has no indexnode to ask; a root that has been asked is complained of. -/
theorem rootOnly_not_allOrNothing :
    ((rootOnly false).ensureChildren 1 () fun _ _ => nothingFound).run =
        some (.error .nullPointer) ∧
      ¬ AllOrNothing (rootOnly false) () nothingFound ∧
      ((rootOnly true).ensureChildren 1 () fun _ _ => nothingFound).run =
        some (.ok (rootOnly true, eio)) ∧
      ¬ AllOrNothing (rootOnly true) () nothingFound := by
  refine ⟨by rfl, ?_, rfl, ?_⟩
  -- for the root without children looked for: its indexnode is copied
  · intro hall
    obtain ⟨bound, hbound⟩ := hall.success rfl rfl
    obtain ⟨fs', rc, hrun, hzero, -⟩ := hbound bound (Nat.le_refl bound)
    rw [rc_of_ensureChildren hrun] at hzero
    exact absurd hzero (by decide)
  -- for the root with children looked for: the error is returned again and again
  · intro hall
    obtain ⟨bound, hbound⟩ := hall.again rfl
    obtain ⟨fs', rc, hrun, hzero, -⟩ := hbound bound (Nat.le_refl bound)
    rw [rc_of_ensureChildren hrun] at hzero
    exact absurd hzero (by decide)

end Fsfuse.Native.Nativefs
