import Fsfuse.ForStd.List
import Fsfuse.Spec.DirentryTree

/-!
# What the handlers do to reference counts

The owners of a direntry's copies, besides the inode map and the tree, are the lookups not
forgotten, the open files and directories, and the downloaders. The handlers do not follow
them. A call of `fsfuse_open` or `fsfuse_opendir` that fails leaks the copy that
`direntry_get_by_inode` has made, while `fsfuse_release`, `fsfuse_releasedir`,
`fsfuse_getattr` and the end of each read delete a copy that none of them has made. And the root
cannot be copied at all, nor a directory be populated: a step that tries to stops the daemon.

* `Effect` — copies are taken of one direntry or deleted, and others passed on the way;
* `step_effect` — what each step does to the counts, and when it can be made.
-/

namespace Fsfuse.Native

open Direntries ParentLinks

variable {ι : Type} [DecidableEq ι]

/-! ### Owners -/

/-- The copies of `d` that an open file and its downloader own. -/
def OpenFileCtxt.holds (d : ι) (f : OpenFileCtxt ι) : Nat :=
  if f.de = d then (if f.released then 0 else 1) + (if f.running then 1 else 0) else 0

/-- The copies of `d` that an open directory owns. -/
def OpenDir.holds (d : ι) (o : OpenDir ι) : Nat :=
  if o.de = d then (if o.released then 0 else 1) else 0

namespace Mount

/-- The number of copies of `d`. -/
def count (m : Mount ι) (d : ι) : Nat := (m.fs.des.countOf d).elim 0 UInt32.toNat

/-- The copies of `d` that are owned, besides those of the inode map and the tree. -/
def owners (d : ι) (m : Mount ι) : Nat :=
  m.nlookup (m.fs.des.inodeOf d) + (m.files.map (·.holds d)).sum + (m.dirs.map (·.holds d)).sum

/-- A step on the open file `fh` counts `n` times, if that is open on `d`. -/
def onFile (m : Mount ι) (fh : Nat) (d : ι) (n : Nat) : Nat :=
  if (m.files[fh]?).any (·.de = d) then n else 0

/-- A step on the open directory `fh` counts `n` times, if that is open on `d`. -/
def onDir (m : Mount ι) (fh : Nat) (d : ι) (n : Nat) : Nat :=
  if (m.dirs[fh]?).any (·.de = d) then n else 0

/-- A step on the inode counts `n` times, if that is the inode of `d`. -/
def onInode (m : Mount ι) (ino : Nat) (d : ι) (n : Nat) : Nat :=
  if ino = m.fs.des.inodeOf d then n else 0

/-- The direntry can be opened with the flags. -/
def opens (m : Mount ι) (d : ι) (flags : Nat) : Bool :=
  OpenFile.openRc (.ok (m.fs.des.typeOf d)) flags = 0

/-- So can a directory. -/
def opensDir (m : Mount ι) (d : ι) (flags : Nat) : Bool :=
  Nativefs.opendirRc (m.fs.des.typeOf d) flags = 0

/-- The children of a direntry, as far as there is fuel to go through them. -/
def childrenOf (fuel : Nat) (m : Mount ι) (x : ι) : List ι :=
  follow m.fs.des.nextOf fuel (m.fs.des.firstOf x)

/-- The child of `x` that there is by a name. -/
def named (fuel : Nat) (m : Mount ι) (x : ι) (name : CStr) : Option ι :=
  (m.childrenOf fuel x).find? (m.fs.des.nameOf · = name.val)

/-- The copies of `d` that a step takes to keep. -/
def taken (fuel : Nat) (d : ι) (m : Mount ι) : Label ι → Nat
  | .lookup parent name _ =>
    match m.fs.map.inodeMapGet parent with
    | .ok (some x) => if m.named fuel x name = some d then 1 else 0
    | _ => 0
  | .open_ ino flags => m.onInode ino d (if m.opens d flags then 2 else 1)
  | .opendir ino _ => m.onInode ino d 1
  | _ => 0

/-- The copies of `d` that a step deletes, and has not made. -/
def dropped (d : ι) (m : Mount ι) : Label ι → Nat
  | .forget ino nlookup => m.onInode ino d nlookup
  | .chunkDone fh | .threadDelete fh | .getattr (some fh) => m.onFile fh d 1
  | .release fh => m.onFile fh d 2
  | .releasedir fh => m.onDir fh d 2
  | _ => 0

/-- The copies of `d` that a step leaks: it fails to open the direntry that it has found. -/
def leaked (d : ι) (m : Mount ι) : Label ι → Nat
  | .open_ ino flags => m.onInode ino d (if m.opens d flags then 0 else 1)
  | .opendir ino flags => m.onInode ino d (if m.opensDir d flags then 0 else 1)
  | _ => 0

/-- The copies of `d` that a step deletes without owning them. -/
def overdrawn (d : ι) (m : Mount ι) : Label ι → Nat
  | .release fh | .chunkDone fh | .getattr (some fh) => m.onFile fh d 1
  | .releasedir fh => m.onDir fh d 1
  | _ => 0

/-- The direntries that a lookup of the name in `x` takes a copy of, before it has found it. -/
def passed (fuel : Nat) (m : Mount ι) (x : ι) (name : CStr) : List ι :=
  x :: (m.childrenOf fuel x).takeWhile (m.fs.des.nameOf · ≠ name.val)

/-- The direntries that a listing of `x` takes a copy of. -/
def walked (fuel : Nat) (m : Mount ι) (x : ι) : List ι :=
  (m.fs.des.parentOf x).toList ++ m.childrenOf fuel x

/-- The most copies of `d` that a step takes at a time, to keep or not. -/
def peak (fuel : Nat) (d : ι) (m : Mount ι) : Label ι → Nat
  | .lookup parent name _ =>
    match m.fs.map.inodeMapGet parent with
    | .ok (some x) =>
      if m.named fuel x name = some d then 1 else if d ∈ m.passed fuel x name then 1 else 0
    | _ => 0
  | .forget ino _ => m.onInode ino d 1
  | .open_ ino flags => m.onInode ino d (if m.opens d flags then 2 else 1)
  | .opendir ino _ => m.onInode ino d 1
  | .readdir fh _ => if (m.dirs[fh]?).any (d ∈ m.walked fuel ·.de) then 1 else 0
  | _ => 0

/-- The inode, if it is one, is not that of the root. -/
def BelowRoot (m : Mount ι) (ino : Nat) : Prop :=
  ∀ de, m.fs.map.inodeMapGet ino = .ok (some de) → m.fs.des.parentOf de ≠ none

/-- A step that needs no copy of the root, and no children that have not been looked for. -/
def Can (m : Mount ι) : Label ι → Prop
  | .lookup parent _ _ => m.BelowRoot parent ∧
    ∀ de, m.fs.map.inodeMapGet parent = .ok (some de) → m.fs.des.looked de = true
  | .open_ ino _ | .opendir ino _ => m.BelowRoot ino
  | .readdir fh _ => ∀ o, m.dirs[fh]? = some o → m.fs.des.looked o.de = true ∧
    ∀ p, m.fs.des.parentOf o.de = some p → m.fs.des.parentOf p ≠ none
  | .getattr fh => fh ≠ none
  | _ => True

/-! ### Mounts -/

/-- A file system as it is mounted: below the root everything has a count and is in the inode map,
    nothing links to what is not there, and there is fuel to walk over any directory. What the
    kernel knows and has opened is not the root. -/
structure Sound (fuel : Nat) (m : Mount ι) : Prop where
  rooted : m.fs.des.Rooted
  counted : ∀ d, m.fs.des.parentOf d ≠ none → m.fs.des.countOf d ≠ none
  parents : ∀ d p, m.fs.des.parentOf d = some p → m.fs.des p ≠ none
  children : ∀ d cs, Chain m.fs.des.nextOf (m.fs.des.firstOf d) cs →
    (∀ c ∈ cs, m.fs.des.parentOf c = some d) ∧ cs.length ≤ fuel
  mapped : ∀ ino, ino ≠ 0 → m.fs.map.inodeMapGet ino = .ok none ∨
    ∃ de, m.fs.map.inodeMapGet ino = .ok (some de) ∧ m.fs.des de ≠ none ∧ m.fs.des.inodeOf de = ino
  inodes : ∀ d, m.fs.des.parentOf d ≠ none →
    m.fs.des.inodeOf d ≠ 0 ∧ m.fs.map.inodeMapGet (m.fs.des.inodeOf d) = .ok (some d)
  nlookup : ∀ ino, m.nlookup ino ≠ 0 →
    ino ≠ 0 ∧ ∃ de, m.fs.map.inodeMapGet ino = .ok (some de) ∧ m.fs.des.parentOf de ≠ none
  files : ∀ f ∈ m.files, m.fs.des.parentOf f.de ≠ none
  dirs : ∀ o ∈ m.dirs, m.fs.des.parentOf o.de ≠ none

/-- The same mount with other counts. -/
def withDes (m : Mount ι) (des : Direntries ι) : Mount ι := { m with fs := { m.fs with des } }

/-- Every direntry below the root has copies when the counts are these. -/
def Held (m : Mount ι) (des : Direntries ι) : Prop :=
  ∀ d, m.fs.des.parentOf d ≠ none → (m.withDes des).count d ≠ 0

variable {fuel : Nat} {m m' : Mount ι} {d : ι}

omit [DecidableEq ι] in
/-- The count of what is not the root. -/
theorem Sound.exists_count (h : m.Sound fuel) (hheld : m.Held m.fs.des)
    (hd : m.fs.des.parentOf d ≠ none) :
    ∃ c, m.fs.des.countOf d = some c ∧ m.count d = c.toNat ∧ c ≠ 0 := by
  obtain ⟨c, hc⟩ := Option.ne_none_iff_exists'.mp (h.counted d hd)
  have hcount : m.count d = c.toNat := by
    rw [count, hc]
    rfl
  refine ⟨c, hc, hcount, ?_⟩
  rintro rfl
  exact hheld d hd hcount

omit [DecidableEq ι] in
/-- It can be copied for the moment if one more copy can be counted. -/
theorem Sound.counted_iff (h : m.Sound fuel) (hheld : m.Held m.fs.des)
    (hd : m.fs.des.parentOf d ≠ none) : m.fs.des.Counted d ↔ m.count d + 1 < 2 ^ 32 := by
  obtain ⟨c, hc, hcount, hzero⟩ := h.exists_count hheld hd
  have hlt := c.toNat_lt
  have hmax : (2 ^ 32 - 1 : UInt32).toNat = 2 ^ 32 - 1 := by decide
  rw [hcount]
  constructor
  · rintro ⟨c', hc', -, hne⟩
    obtain rfl : c = c' := Option.some.inj (hc.symm.trans hc')
    have : c.toNat ≠ 2 ^ 32 - 1 := fun heq => hne (UInt32.toNat_inj.mp (by rw [heq, hmax]))
    omega
  · intro hroom
    refine ⟨c, hc, hzero, ?_⟩
    rintro rfl
    omega

omit [DecidableEq ι] in
/-- What can be copied is not the root. -/
theorem Sound.parentOf_ne_none (h : m.Sound fuel) (hd : m.fs.des.countOf d ≠ none) :
    m.fs.des.parentOf d ≠ none := by
  intro htop
  obtain ⟨c, hc⟩ := Option.ne_none_iff_exists'.mp hd
  exact hd (h.rooted.root d (ne_none_of_countOf hc) htop).1

omit [DecidableEq ι] in
/-- A direntry that is counted has a parent: only the root has none, and it has no count either.
    -/
theorem Sound.parentOf_of_counted (h : m.Sound fuel) (hd : m.fs.des.Counted d) :
    m.fs.des.parentOf d ≠ none := by
  obtain ⟨c, hc, -⟩ := hd
  exact h.parentOf_ne_none (by rw [hc]; exact Option.some_ne_none _)

omit [DecidableEq ι] in
/-- A child is not the root. -/
theorem Sound.parentOf_child (h : m.Sound fuel) {cs : List ι}
    (hchain : Chain m.fs.des.nextOf (m.fs.des.firstOf d) cs) {c : ι} (hc : c ∈ cs) :
    m.fs.des.parentOf c ≠ none := by
  rw [(h.children d cs hchain).1 c hc]
  exact Option.some_ne_none _

omit [DecidableEq ι] in
/-- An inode is that of one direntry. -/
theorem Sound.inodeOf_eq_iff (h : m.Sound fuel) {ino : Nat} {x : ι}
    (hmap : m.fs.map.inodeMapGet ino = .ok (some x)) (hd : m.fs.des.parentOf d ≠ none)
    (hino : ino ≠ 0) : ino = m.fs.des.inodeOf d ↔ d = x := by
  constructor
  · rintro rfl
    have hsame := (h.inodes d hd).2
    rw [hmap] at hsame
    exact (Option.some.inj (Except.ok.inj hsame)).symm
  · rintro rfl
    obtain hnone | ⟨de, hde, -, hinode⟩ := h.mapped ino hino
    · rw [hmap] at hnone
      cases hnone
    · rw [hmap] at hde
      cases hde
      exact hinode.symm

/-! ### Effects -/

/-- What may become of the counts: `t` copies are taken of each direntry and `r` deleted, if as many
    as `p` at a time can be counted in addition. -/
structure Effect (m : Mount ι) (R : Direntries ι → Prop) (t r p : ι → Nat) : Prop where
  exists_iff : (∃ des, R des ∧ m.Held des) ↔
    ∀ d, m.fs.des.parentOf d ≠ none → r d < m.count d ∧ m.count d + p d < 2 ^ 32
  spec : ∀ des, R des → m.Held des → SameTree m.fs.des des ∧ ∀ d, m.fs.des.parentOf d ≠ none →
    (m.withDes des).count d + r d = m.count d + t d

/-- A direntry that has been given another count. -/
theorem count_setCount_self {c : UInt32} (hlive : m.fs.des d ≠ none) :
    (m.withDes (m.fs.des.setCount d c)).count d = c.toNat := by
  show ((m.fs.des.setCount d c).countOf d).elim 0 UInt32.toNat = _
  rw [countOf_setCount_self hlive]
  rfl

/-- The others keep theirs. -/
theorem count_setCount_of_ne {c : UInt32} {x : ι} (hne : d ≠ x) :
    (m.withDes (m.fs.des.setCount x c)).count d = m.count d := by
  show ((m.fs.des.setCount x c).countOf d).elim 0 UInt32.toNat = _
  rw [countOf_setCount_of_ne hne, count]

omit [DecidableEq ι] in
/-- A direntry that has a parent is there. -/
theorem live_of_parentOf {des : Direntries ι} (hd : des.parentOf d ≠ none) : des d ≠ none := by
  intro hnone
  rw [parentOf, hnone] at hd
  exact hd rfl

/-- There is room for a copy of each of them. -/
theorem Sound.forall_counted_iff (h : m.Sound fuel) (hheld : m.Held m.fs.des) {ps : List ι}
    (hps : ∀ q ∈ ps, m.fs.des.parentOf q ≠ none) :
    (∀ q ∈ ps, m.fs.des.Counted q) ↔ ∀ d, m.fs.des.parentOf d ≠ none →
      0 < m.count d ∧ m.count d + (if d ∈ ps then 1 else 0) < 2 ^ 32 := by
  constructor
  · intro hcounted d hd
    obtain ⟨c, -, hcount, hzero⟩ := h.exists_count hheld hd
    refine ⟨Nat.pos_of_ne_zero (hheld d hd), ?_⟩
    split
    · next hmem => exact (h.counted_iff hheld hd).mp (hcounted d hmem)
    · rw [hcount]
      exact c.toNat_lt
  · intro hroom q hq
    have hlt := (hroom q (hps q hq)).2
    rw [if_pos hq] at hlt
    exact (h.counted_iff hheld (hps q hq)).mpr hlt

/-- Direntries are passed, and the counts are as before. -/
theorem Effect.pass (ps : List ι) (h : m.Sound fuel) (hheld : m.Held m.fs.des)
    (hps : ∀ q ∈ ps, m.fs.des.parentOf q ≠ none) :
    Effect m (fun des => (∀ q ∈ ps, m.fs.des.Counted q) ∧ des = m.fs.des) (fun _ => 0) (fun _ => 0)
      (fun d => if d ∈ ps then 1 else 0) where
  exists_iff := by
    rw [← h.forall_counted_iff hheld hps]
    constructor
    · rintro ⟨des, ⟨hcounted, -⟩, -⟩
      exact hcounted
    · intro hcounted
      exact ⟨_, ⟨hcounted, rfl⟩, hheld⟩
  spec des := by
    rintro ⟨-, rfl⟩ -
    exact ⟨.refl _, fun _ _ => rfl⟩

/-- Direntries are passed, and copies taken of one. -/
theorem Effect.take (ps : List ι) (h : m.Sound fuel) (hheld : m.Held m.fs.des)
    (hps : ∀ q ∈ ps, m.fs.des.parentOf q ≠ none) {x : ι} (hx : m.fs.des.parentOf x ≠ none) {k : Nat}
    (hk : k ≠ 0) :
    Effect m (fun des => (∀ q ∈ ps, m.fs.des.Counted q) ∧ m.fs.des.direntryCopies x k = .ok des)
      (fun d => if d = x then k else 0) (fun _ => 0)
      (fun d => if d = x then k else if d ∈ ps then 1 else 0) := by
  obtain ⟨c, hc, hcount, hzero⟩ := h.exists_count hheld hx
  -- the copies go through with the direntries alive only if the count does not wrap
  have hmade : ∀ des, m.fs.des.direntryCopies x k = .ok des → m.Held des →
      c.toNat + k < 2 ^ 32 := by
    intro des hcopies halive
    have hafter : (des.countOf x).elim 0 UInt32.toNat ≠ 0 := halive x hx
    cases hcount' : des.countOf x with
    | none =>
      rw [hcount'] at hafter
      exact absurd rfl hafter
    | some c' =>
      rw [hcount'] at hafter
      refine lt_of_direntryCopies hc hcopies hcount' ?_
      rintro rfl
      exact hafter rfl
  -- where they do, exactly the copied one has more
  have hspec : ∀ des, m.fs.des.direntryCopies x k = .ok des → m.Held des →
      SameTree m.fs.des des ∧ ∀ d, m.fs.des.parentOf d ≠ none →
        (m.withDes des).count d + 0 = m.count d + if d = x then k else 0 := by
    intro des hcopies halive
    have hlt := hmade des hcopies halive
    rw [direntryCopies_of_lt hc hzero hlt] at hcopies
    cases hcopies
    refine ⟨sameTree_setCount (h.counted x hx), fun d hd => ?_⟩
    by_cases heq : d = x
    · subst heq
      rw [count_setCount_self (live_of_parentOf hd), hcount, if_pos rfl, UInt32.toNat_ofNat',
        Nat.mod_eq_of_lt (by omega)]
      rfl
    · rw [count_setCount_of_ne heq, if_neg heq]
  refine ⟨?_, fun des hdes => hspec des hdes.2⟩
  have hpassed := h.forall_counted_iff hheld hps
  -- with what was there before, those that have been passed need a copy to be taken
  constructor
  · rintro ⟨des, ⟨hcounted, hcopies⟩, halive⟩ d hd
    obtain ⟨hpos, hroom⟩ := hpassed.mp hcounted d hd
    have hlt := hmade des hcopies halive
    refine ⟨hpos, ?_⟩
    split
    · next heq =>
      rw [heq, hcount]
      exact hlt
    · exact hroom
  -- where there is room the copies are made
  · intro hroom
    have hlt := (hroom x hx).2
    rw [if_pos rfl, hcount] at hlt
    have hcopies := direntryCopies_of_lt hc hzero hlt
    refine ⟨_, ⟨hpassed.mpr fun d hd => ?_, hcopies⟩, fun d hd => ?_⟩
    · obtain ⟨hpos, hlt⟩ := hroom d hd
      refine ⟨hpos, ?_⟩
      split at hlt
      · split <;> omega
      · exact hlt
    · by_cases heq : d = x
      · subst heq
        rw [count_setCount_self (live_of_parentOf hd), UInt32.toNat_ofNat',
          Nat.mod_eq_of_lt (by omega)]
        omega
      · rw [count_setCount_of_ne heq]
        exact hheld d hd

/-- Direntries are passed, and copies deleted of one. -/
theorem Effect.drop (ps : List ι) (h : m.Sound fuel) (hheld : m.Held m.fs.des)
    (hps : ∀ q ∈ ps, m.fs.des.parentOf q ≠ none) {x : ι} (hx : m.fs.des.parentOf x ≠ none)
    {n : Nat} :
    Effect m (fun des => (∀ q ∈ ps, m.fs.des.Counted q) ∧ m.fs.des.direntryDeletes x n = .ok des)
      (fun _ => 0) (fun d => if d = x then n else 0) (fun d => if d ∈ ps then 1 else 0) := by
  obtain ⟨c, hc, hcount, hzero⟩ := h.exists_count hheld hx
  have hleft : ∀ des, m.fs.des.direntryDeletes x n = .ok des → m.Held des → n < c.toNat := by
    intro des hdeletes halive
    by_contra hle
    -- the last copy is deleted, and the direntry with it
    have hgone := direntryDeletes_of_le hc hzero (Nat.le_of_not_lt hle) hdeletes
    refine halive x hx ?_
    show (des.countOf x).elim 0 UInt32.toNat = 0
    rw [countOf, hgone]
    rfl
  refine ⟨?_, ?_⟩
  · have hpassed := h.forall_counted_iff hheld hps
    constructor
    · rintro ⟨des, ⟨hcounted, hdeletes⟩, halive⟩ d hd
      obtain ⟨hpos, hroom⟩ := hpassed.mp hcounted d hd
      refine ⟨?_, hroom⟩
      split
      · next heq =>
        rw [heq, hcount]
        exact hleft des hdeletes halive
      · exact hpos
    · intro hroom
      have hn := (hroom x hx).1
      rw [if_pos rfl, hcount] at hn
      refine ⟨_, ⟨hpassed.mpr fun d hd => ⟨Nat.pos_of_ne_zero (hheld d hd), (hroom d hd).2⟩,
        direntryDeletes_of_lt hc hn⟩, fun d hd => ?_⟩
      by_cases heq : d = x
      · subst heq
        have hlt := c.toNat_lt
        rw [count_setCount_self (live_of_parentOf hd), UInt32.toNat_ofNat',
          Nat.mod_eq_of_lt (by omega)]
        omega
      · rw [count_setCount_of_ne heq]
        exact hheld d hd
  · rintro des ⟨-, hdeletes⟩ halive
    have hn := hleft des hdeletes halive
    rw [direntryDeletes_of_lt hc hn] at hdeletes
    cases hdeletes
    refine ⟨sameTree_setCount (h.counted x hx), fun d hd => ?_⟩
    by_cases heq : d = x
    · subst heq
      have hlt := c.toNat_lt
      rw [count_setCount_self (live_of_parentOf hd), hcount, if_pos rfl, UInt32.toNat_ofNat',
        Nat.mod_eq_of_lt (by omega)]
      omega
    · rw [count_setCount_of_ne heq, if_neg heq]

/-! ### Steps -/

/-- A step goes wrong if it cannot be made, and otherwise has an effect on the counts; what the
    owners hold is changed by what is taken and dropped, leaked and overdrawn. -/
structure Makes (fuel : Nat) (m : Mount ι) (a : Label ι) (R : Direntries ι → Prop)
    (next : Direntries ι → Mount ι) (t r p : ι → Nat) : Prop where
  step_iff : ∀ m', step fuel m a = some m' ↔ m.Can a ∧ ∃ des, R des ∧ m' = next des
  effect : m.Can a → Effect m R t r p
  taken : m.Can a → ∀ d, m.fs.des.parentOf d ≠ none → taken fuel d m a = t d
  dropped : m.Can a → ∀ d, m.fs.des.parentOf d ≠ none → dropped d m a = r d
  peak : m.Can a → ∀ d, m.fs.des.parentOf d ≠ none → peak fuel d m a = p d
  fs : ∀ des, (next des).fs = { m.fs with des }
  sound : m.Can a → ∀ des, SameTree m.fs.des des → (next des).Sound fuel
  owners : m.Can a → ∀ des, SameTree m.fs.des des → ∀ d, m.fs.des.parentOf d ≠ none →
    owners d (next des) + Mount.dropped d m a + leaked d m a =
      owners d m + Mount.taken fuel d m a + overdrawn d m a

/-- There is some effect that the step has. -/
def Effective (fuel : Nat) (m : Mount ι) (a : Label ι) : Prop :=
  ∃ R next t r p, Makes fuel m a R next t r p

omit [DecidableEq ι] in
/-- The tree of a mount is sound with other counts, and with anything else that the kernel may
    know and have opened. -/
theorem Sound.of_sameTree (h : m.Sound fuel) {des : Direntries ι} (htree : SameTree m.fs.des des)
    (hfs : m'.fs = { m.fs with des })
    (hnlookup : ∀ ino, m'.nlookup ino ≠ 0 →
      ino ≠ 0 ∧ ∃ de, m.fs.map.inodeMapGet ino = .ok (some de) ∧ m.fs.des.parentOf de ≠ none)
    (hfiles : ∀ f ∈ m'.files, m.fs.des.parentOf f.de ≠ none)
    (hdirs : ∀ o ∈ m'.dirs, m.fs.des.parentOf o.de ≠ none) : m'.Sound fuel := by
  have hdes : m'.fs.des = des := by rw [hfs]
  have hmap : m'.fs.map = m.fs.map := by rw [hfs]
  constructor
  -- the rooted tree, the counts, the parents and the children are the tree's
  · rw [hdes]
    exact h.rooted.of_sameTree htree
  · intro d hd
    rw [hdes, htree.parentOf] at hd
    rw [hdes, Ne, htree.counts]
    exact h.counted d hd
  · intro d p hp
    rw [hdes, htree.parentOf] at hp
    rw [hdes]
    exact (htree.live p).mpr (h.parents d p hp)
  · rw [hdes, htree.nextOf, htree.firstOf, htree.parentOf]
    exact h.children
  -- the inodes are the map's
  · intro ino hino
    rw [hdes, hmap, htree.inodeOf]
    obtain hnone | ⟨de, hde, hlive, hinode⟩ := h.mapped ino hino
    · exact .inl hnone
    · exact .inr ⟨de, hde, (htree.live de).mpr hlive, hinode⟩
  · rw [hdes, hmap, htree.inodeOf, htree.parentOf]
    exact h.inodes
  -- what is open and what is looked up is still there
  · intro ino hino
    rw [hdes, hmap, htree.parentOf]
    exact hnlookup ino hino
  · rw [hdes, htree.parentOf]
    exact hfiles
  · rw [hdes, htree.parentOf]
    exact hdirs

/-- A request that can be made is a step exactly if its handler goes through. -/
theorem step_eq_some_iff {a : Label ι} (henabled : m.Enabled a) :
    step fuel m a = some m' ↔ (m.apply fuel a).run = some (.ok m') := by
  rw [step, if_pos henabled]
  cases (m.apply fuel a).run with
  | none => simp
  | some r => cases r <;> simp [Except.toOption]

/-- A step that does something to the counts, and nothing else that can go wrong. -/
theorem step_iff_of_apply {a : Label ι} (henabled : m.Enabled a) (hcan : m.Can a)
    {op : Except Fault (Direntries ι)} {next : Direntries ι → Mount ι}
    (happly : m.apply fuel a = done (op >>= fun des => .ok (next des))) (m' : Mount ι) :
    step fuel m a = some m' ↔
      m.Can a ∧ ∃ des, ((∀ q ∈ ([] : List ι), m.fs.des.Counted q) ∧ op = .ok des) ∧
        m' = next des := by
  rw [step_eq_some_iff henabled, happly, run_done_eq_ok_iff, Except.do_eq_ok_iff,
    and_iff_right hcan]
  simp [eq_comm]

/-- One delete is a delete. -/
theorem direntryDeletes_one (des : Direntries ι) (x : ι) :
    des.direntryDeletes x 1 = des.direntryDelete x := by
  rw [direntryDeletes]
  cases des.direntryDelete x <;> rfl

/-- One copy is a copy. -/
theorem direntryCopies_one (des : Direntries ι) (x : ι) :
    des.direntryCopies x 1 = des.direntryCopy x := by
  rw [direntryCopies]
  cases des.direntryCopy x <;> rfl

/-- A step that takes no copies has no peak. -/
theorem peak_eq (d : ι) : 0 = if d ∈ ([] : List ι) then 1 else 0 := by
  rw [if_neg List.not_mem_nil]

/-! ### Handles -/

/-- The step goes by an open file, which stays open on the same direntry, and deletes copies of
    that. -/
theorem makes_file (f' : OpenFileCtxt ι) (n : Nat) (h : m.Sound fuel) (hheld : m.Held m.fs.des)
    {fh : Nat} {f : OpenFileCtxt ι} (hf : m.files[fh]? = some f) (hde : f'.de = f.de) {a : Label ι}
    (henabled : m.Enabled a) (hcan : m.Can a)
    (happly : m.apply fuel a = done (m.fs.des.direntryDeletes f.de n >>= fun des =>
      .ok { m with fs := { m.fs with des }, files := m.files.set fh f' }))
    (htaken : ∀ d, taken fuel d m a = 0)
    (hdropped : ∀ d, dropped d m a = if d = f.de then n else 0)
    (hpeak : ∀ d, peak fuel d m a = 0)
    (hholds : ∀ d, f'.holds d + dropped d m a + leaked d m a = f.holds d + overdrawn d m a) :
    Effective fuel m a := by
  refine ⟨_, fun des => { m with fs := { m.fs with des }, files := m.files.set fh f' }, _, _, _,
    step_iff_of_apply henabled hcan happly,
    fun _ => .drop [] h hheld (by simp) (h.files f (List.mem_of_getElem? hf)),
    fun _ d _ => htaken d, fun _ d _ => hdropped d, fun _ d _ => (hpeak d).trans (peak_eq d),
    fun _ => rfl, ?_, ?_⟩
  -- what is open afterwards was open before, or is the one that is set
  · intro _ des htree
    refine h.of_sameTree htree rfl h.nlookup (fun f'' hf'' => ?_) h.dirs
    obtain hmem | rfl := List.mem_or_eq_of_mem_set hf''
    · exact h.files f'' hmem
    · rw [hde]
      exact h.files f (List.mem_of_getElem? hf)
  -- of the owners only the handle has changed
  · intro _ des htree d _
    have hset := List.sum_map_set (·.holds d) hf f'
    have hone := hholds d
    have hzero := htaken d
    simp only [owners, htree.inodeOf]
    omega

/-- So for an open directory. -/
theorem makes_dir (o' : OpenDir ι) (n : Nat) (h : m.Sound fuel) (hheld : m.Held m.fs.des)
    {fh : Nat} {o : OpenDir ι} (ho : m.dirs[fh]? = some o) (hde : o'.de = o.de) {a : Label ι}
    (henabled : m.Enabled a) (hcan : m.Can a)
    (happly : m.apply fuel a = done (m.fs.des.direntryDeletes o.de n >>= fun des =>
      .ok { m with fs := { m.fs with des }, dirs := m.dirs.set fh o' }))
    (htaken : ∀ d, taken fuel d m a = 0)
    (hdropped : ∀ d, dropped d m a = if d = o.de then n else 0)
    (hpeak : ∀ d, peak fuel d m a = 0)
    (hholds : ∀ d, o'.holds d + dropped d m a + leaked d m a = o.holds d + overdrawn d m a) :
    Effective fuel m a := by
  refine ⟨_, fun des => { m with fs := { m.fs with des }, dirs := m.dirs.set fh o' }, _, _, _,
    step_iff_of_apply henabled hcan happly,
    fun _ => .drop [] h hheld (by simp) (h.dirs o (List.mem_of_getElem? ho)), fun _ d _ => htaken d,
    fun _ d _ => hdropped d, fun _ d _ => (hpeak d).trans (peak_eq d), fun _ => rfl, ?_, ?_⟩
  -- what is open afterwards was open before, or is the one that is set
  · intro _ des htree
    refine h.of_sameTree htree rfl h.nlookup h.files (fun o'' ho'' => ?_)
    obtain hmem | rfl := List.mem_or_eq_of_mem_set ho''
    · exact h.dirs o'' hmem
    · rw [hde]
      exact h.dirs o (List.mem_of_getElem? ho)
  -- of the owners only the handle has changed
  · intro _ des htree d _
    have hset := List.sum_map_set (·.holds d) ho o'
    have hone := hholds d
    have hzero := htaken d
    simp only [owners, htree.inodeOf]
    omega

omit [DecidableEq ι] in
/-- A handle that the protocol allows is open. -/
theorem exists_of_file {fh : Nat} {p : OpenFileCtxt ι → Bool} (h : m.File fh p) :
    ∃ f, m.files[fh]? = some f ∧ p f = true := by
  rw [File] at h
  cases hf : m.files[fh]? with
  | none =>
    rw [hf] at h
    cases h
  | some f =>
    rw [hf] at h
    exact ⟨f, rfl, h⟩

omit [DecidableEq ι] in
/-- An open directory has what its handle says. -/
theorem exists_of_dir {fh : Nat} {p : OpenDir ι → Bool} (h : m.Dir fh p) :
    ∃ o, m.dirs[fh]? = some o ∧ p o = true := by
  rw [Dir] at h
  cases ho : m.dirs[fh]? with
  | none =>
    rw [ho] at h
    cases h
  | some o =>
    rw [ho] at h
    exact ⟨o, rfl, h⟩

omit [DecidableEq ι] in
/-- A handler with an open file goes on with it. -/
theorem withFile_eq {α : Type} {fh : Nat} {f : OpenFileCtxt ι} (hf : m.files[fh]? = some f)
    (k : OpenFileCtxt ι → Except Fault α) : m.withFile fh k = done (k f) := by
  rw [withFile, hf]
  rfl

omit [DecidableEq ι] in
/-- A handler with an open directory goes on with it. -/
theorem withDir_eq {α : Type} {fh : Nat} {o : OpenDir ι} (ho : m.dirs[fh]? = some o)
    (k : OpenDir ι → ExceptT Fault Option α) : m.withDir fh k = k o := by
  rw [withDir, ho]
  rfl

/-- `read` counts one read more that is to be answered, and touches no direntry. -/
theorem effective_read (h : m.Sound fuel) (hheld : m.Held m.fs.des) {fh : Nat}
    (henabled : m.Enabled (.read fh)) : Effective fuel m (.read fh) := by
  obtain ⟨f, hf, hopen⟩ := exists_of_file henabled
  have hparent := h.files f (List.mem_of_getElem? hf)
  obtain ⟨node, hnode⟩ := Option.ne_none_iff_exists'.mp (live_of_parentOf hparent)
  refine makes_file { f with reads := f.reads + 1 } 0 h hheld hf rfl henabled trivial ?_
    (fun _ => rfl) (fun d => ?_) (fun _ => rfl) (fun _ => rfl)
  · rw [apply, withFile_eq hf, Nativefs.fsfuseRead, access, hnode]
    rfl
  · show 0 = if d = f.de then 0 else 0
    rw [ite_self]

/-- The answer to a read deletes a copy that the read has not taken. -/
theorem effective_chunkDone (h : m.Sound fuel) (hheld : m.Held m.fs.des) {fh : Nat}
    (henabled : m.Enabled (.chunkDone fh)) : Effective fuel m (.chunkDone fh) := by
  obtain ⟨f, hf, hreads⟩ := exists_of_file henabled
  refine makes_file { f with reads := f.reads - 1 } 1 h hheld hf rfl henabled trivial ?_
    (fun _ => rfl) ?_ (fun _ => rfl) (fun _ => rfl)
  · rw [apply, withFile_eq hf, Nativefs.chunkDone, direntryDeletes_one]
    cases m.fs.des.direntryDelete f.de <;> rfl
  · intro d
    simp [dropped, onFile, hf, eq_comm]

/-- The downloader's thread deletes the copy that has been taken for it. -/
theorem effective_threadDelete (h : m.Sound fuel) (hheld : m.Held m.fs.des) {fh : Nat}
    (henabled : m.Enabled (.threadDelete fh)) : Effective fuel m (.threadDelete fh) := by
  obtain ⟨f, hf, hruns⟩ := exists_of_file henabled
  have hrunning : f.running = true := ((Bool.and_eq_true _ _).mp hruns).1
  refine makes_file { f with running := false } 1 h hheld hf rfl henabled trivial ?_
    (fun _ => rfl) ?_ (fun _ => rfl) ?_
  · rw [apply, withFile_eq hf, Nativefs.threadDelete, direntryDeletes_one]
    cases m.fs.des.direntryDelete f.de <;> rfl
  · intro d
    simp [dropped, onFile, hf, eq_comm]
  · intro d
    simp only [OpenFileCtxt.holds, dropped, leaked, overdrawn, onFile, hf, hrunning,
      Option.any_some, decide_eq_true_eq]
    split <;> simp

/-- A release deletes two copies, of which the file has one. -/
theorem effective_release (h : m.Sound fuel) (hheld : m.Held m.fs.des) {fh : Nat}
    (henabled : m.Enabled (.release fh)) : Effective fuel m (.release fh) := by
  obtain ⟨f, hf, hopen⟩ := exists_of_file henabled
  have hreleased : f.released = false := by simpa using hopen
  refine makes_file { f with released := true } 2 h hheld hf rfl henabled trivial ?_
    (fun _ => rfl) ?_ (fun _ => rfl) ?_
  · rw [apply, withFile_eq hf, Nativefs.fsfuseRelease]
    cases m.fs.des.direntryDeletes f.de 2 <;> rfl
  · intro d
    simp [dropped, onFile, hf, eq_comm]
  · intro d
    simp only [OpenFileCtxt.holds, dropped, leaked, overdrawn, onFile, hf, hreleased,
      Option.any_some, decide_eq_true_eq]
    split
    · simp only [Bool.false_eq_true, if_false, if_true]
      omega
    · rfl

/-- The attributes of an open file cost it a copy. -/
theorem effective_getattr (h : m.Sound fuel) (hheld : m.Held m.fs.des) {fh : Nat}
    (henabled : m.Enabled (.getattr (some fh))) : Effective fuel m (.getattr (some fh)) := by
  obtain ⟨f, hf, hopen⟩ := exists_of_file henabled
  have hset : m.files.set fh f = m.files := by
    obtain ⟨hlt, rfl⟩ := List.getElem?_eq_some_iff.mp hf
    exact List.set_getElem_self hlt
  refine makes_file f 1 h hheld hf rfl henabled (Option.some_ne_none fh) ?_
    (fun _ => rfl) ?_ (fun _ => rfl) (fun _ => rfl)
  · rw [apply, withFile_eq hf, Nativefs.fsfuseGetattr, direntryDeletes_one, hset]
    cases m.fs.des.direntryDelete f.de <;> rfl
  · intro d
    simp [dropped, onFile, hf, eq_comm]

/-- A release of a directory deletes two copies, of which the directory has one. -/
theorem effective_releasedir (h : m.Sound fuel) (hheld : m.Held m.fs.des) {fh : Nat}
    (henabled : m.Enabled (.releasedir fh)) : Effective fuel m (.releasedir fh) := by
  obtain ⟨o, ho, hopen⟩ := exists_of_dir henabled
  have hreleased : o.released = false := by simpa using hopen
  refine makes_dir { o with released := true } 2 h hheld ho rfl henabled trivial ?_
    (fun _ => rfl) ?_ (fun _ => rfl) ?_
  · rw [apply, withDir_eq ho, Nativefs.fsfuseReleasedir]
    cases m.fs.des.direntryDeletes o.de 2 <;> rfl
  · intro d
    simp [dropped, onDir, ho, eq_comm]
  · intro d
    simp only [OpenDir.holds, dropped, leaked, overdrawn, onDir, ho, hreleased, Option.any_some,
      decide_eq_true_eq]
    split <;> simp

/-- A listing keeps the counts, if it gets through. -/
theorem effective_readdir (h : m.Sound fuel) (hheld : m.Held m.fs.des) {fh : Nat}
    {listings : Listings ι} (henabled : m.Enabled (.readdir fh listings)) :
    Effective fuel m (.readdir fh listings) := by
  obtain ⟨o, ho, hopen⟩ := exists_of_dir henabled
  obtain ⟨cs, hchain, -⟩ := h.rooted.exists_chain o.de
  have hfuel := (h.children o.de cs hchain).2
  -- what the loop passes is the parent and the children
  have hwalked : m.walked fuel o.de = (m.fs.des.parentOf o.de).toList ++ cs := by
    rw [walked, childrenOf, hchain.follow_eq hfuel]
  have hcan : m.Can (.readdir fh listings) ↔ m.fs.des.looked o.de = true ∧
      ∀ q ∈ m.walked fuel o.de, m.fs.des.parentOf q ≠ none := by
    rw [Can, hwalked]
    simp only [ho, Option.some.injEq, forall_eq', List.mem_append, Option.mem_toList]
    refine and_congr_right fun _ => ⟨?_, fun hall p hp => hall p (.inl hp)⟩
    rintro hparent q (hq | hq)
    · exact hparent q hq
    · exact h.parentOf_child hchain hq
  -- what `direntry_get_parent` and the loop copy is counted
  have hwalk : m.fs.des.Walkable o.de ↔ m.fs.des.looked o.de = true ∧
      ∀ q ∈ m.walked fuel o.de, m.fs.des.Counted q := by
    rw [hwalked]
    constructor
    · intro hwalk
      refine ⟨hwalk.looked, fun q hq => ?_⟩
      obtain hq | hq := List.mem_append.mp hq
      · exact hwalk.parent q (Option.mem_toList.mp hq)
      · exact hwalk.children cs hchain q hq
    · rintro ⟨hlooked, hcounted⟩
      refine ⟨hlooked, fun p hp => hcounted p ?_, fun cs' hcs' c hc => hcounted c ?_⟩
      · exact List.mem_append_left _ (Option.mem_toList.mpr hp)
      · exact List.mem_append_right _ (hchain.unique hcs' ▸ hc)
  refine ⟨_, m.withDes, _, _, _, fun m' => ?_,
    fun hc => .pass _ h hheld (hcan.mp hc).2, fun _ _ _ => rfl, fun _ _ _ => rfl, fun _ d _ => ?_,
    fun _ => rfl, fun _ des htree => h.of_sameTree htree rfl h.nlookup h.files h.dirs, ?_⟩
  · rw [step_eq_some_iff henabled, hcan, apply, withDir_eq ho, run_bind_eq_ok_iff]
    simp only [Nativefs.fsfuseReaddir_iff h.rooted hchain hfuel listings, run_pure_eq_ok_iff,
      hwalk]
    -- the loop leaves the direntries as they were
    constructor
    · rintro ⟨r, ⟨⟨hlooked, hcounted⟩, rfl⟩, rfl⟩
      exact ⟨⟨hlooked, fun q hq => h.parentOf_of_counted (hcounted q hq)⟩, _, ⟨hcounted, rfl⟩, rfl⟩
    · rintro ⟨⟨hlooked, -⟩, des, ⟨hcounted, rfl⟩, rfl⟩
      exact ⟨_, ⟨⟨hlooked, hcounted⟩, rfl⟩, rfl⟩
  · simp only [peak, ho, Option.any_some, decide_eq_true_eq]
  · intro _ des htree d _
    simp only [owners, withDes, htree.inodeOf, dropped, leaked, taken, overdrawn]

/-- A step that cannot be made goes wrong. -/
theorem effective_of_not_can {a : Label ι} (henabled : m.Enabled a) (hcan : ¬ m.Can a)
    (happly : ∀ m', (m.apply fuel a).run ≠ some (.ok m')) : Effective fuel m a := by
  refine ⟨fun _ => False, m.withDes, fun _ => 0, fun _ => 0, fun _ => 0, fun m' => ?_,
    fun hc => absurd hc hcan, fun hc => absurd hc hcan, fun hc => absurd hc hcan,
    fun hc => absurd hc hcan, fun _ => rfl, fun hc => absurd hc hcan, fun hc => absurd hc hcan⟩
  rw [step_eq_some_iff henabled, iff_false_intro hcan, false_and, iff_false]
  exact happly m'

/-- There are no attributes without a file. -/
theorem effective_getattr_none (fuel : Nat) (m : Mount ι) : Effective fuel m (.getattr none) := by
  refine effective_of_not_can trivial (fun hne => hne rfl) fun m' hrun => ?_
  cases hrun

/-! ### Inodes -/

omit [DecidableEq ι] in
/-- What the inode map does not have counts for nothing. -/
theorem Sound.onInode_none (h : m.Sound fuel) {ino : Nat}
    (hmap : m.fs.map.inodeMapGet ino = .ok none) (hd : m.fs.des.parentOf d ≠ none) (n : Nat) :
    m.onInode ino d n = 0 := by
  refine if_neg ?_
  rintro rfl
  have hsame := (h.inodes d hd).2
  rw [hmap] at hsame
  cases hsame

/-- What it has counts for one direntry. -/
theorem Sound.onInode_some (h : m.Sound fuel) {ino : Nat} {x : ι}
    (hmap : m.fs.map.inodeMapGet ino = .ok (some x)) (hino : ino ≠ 0)
    (hd : m.fs.des.parentOf d ≠ none) (n : Nat) :
    m.onInode ino d n = if d = x then n else 0 := by
  rw [onInode]
  simp only [h.inodeOf_eq_iff hmap hd hino]

/-- The root cannot be found by its inode. -/
theorem Sound.direntryGetByInode_ne_ok (h : m.Sound fuel) {ino : Nat} {x : ι}
    (hmap : m.fs.map.inodeMapGet ino = .ok (some x)) (hx : m.fs.des.parentOf x = none)
    (r : Nativefs ι × Except Nat ι) : m.fs.direntryGetByInode ino ≠ .ok r := by
  intro hget
  obtain ⟨des, hcopy, -⟩ := (Nativefs.direntryGetByInode_iff hmap).mp hget
  obtain ⟨c, hc, -⟩ := direntryCopy_eq_ok_iff.mp hcopy
  exact h.parentOf_ne_none (by rw [hc]; exact Option.some_ne_none _) hx

omit [DecidableEq ι] in
/-- A count below the limit has a successor. -/
theorem succ_ne_zero {c : UInt32} (hlt : c.toNat < 2 ^ 32 - 3) : c + 1 ≠ 0 := by
  intro heq
  have hsucc := toNat_add_one (c := c) (by rintro rfl; exact absurd hlt (by decide))
  rw [heq] at hsucc
  exact absurd hsucc (Nat.succ_ne_zero _).symm

/-- A step that only finds out that the inode map has no such inode leaves everything as it is. -/
theorem effective_of_pure (h : m.Sound fuel) (hheld : m.Held m.fs.des) {a : Label ι}
    (henabled : m.Enabled a) (hcan : m.Can a) (happly : m.apply fuel a = pure m)
    (hzero : ∀ d, m.fs.des.parentOf d ≠ none → taken fuel d m a = 0 ∧ dropped d m a = 0 ∧
      leaked d m a = 0 ∧ overdrawn d m a = 0 ∧ peak fuel d m a = 0) : Effective fuel m a := by
  refine ⟨_, m.withDes, _, _, _, fun m' => ?_, fun _ => .pass [] h hheld (by simp),
    fun _ d hd => (hzero d hd).1, fun _ d hd => (hzero d hd).2.1,
    fun _ d hd => (hzero d hd).2.2.2.2.trans (peak_eq d), fun _ => rfl,
    fun _ des htree => h.of_sameTree htree rfl h.nlookup h.files h.dirs, fun _ des htree d hd => ?_⟩
  · rw [step_eq_some_iff henabled, happly, run_pure_eq_ok_iff, and_iff_right hcan]
    constructor
    · rintro rfl
      exact ⟨_, ⟨by simp, rfl⟩, rfl⟩
    · rintro ⟨des, ⟨-, rfl⟩, rfl⟩
      rfl
  · obtain ⟨htaken, hdropped, hleaked, hoverdrawn, -⟩ := hzero d hd
    rw [htaken, hdropped, hleaked, hoverdrawn]
    simp only [owners, withDes, htree.inodeOf]

/-- A forget takes a copy and drops it again, and deletes as many as it has been told. -/
theorem fsfuseForget_eq_ok_iff {fs fs' : Nativefs ι} {ino nlookup : Nat} {x : ι}
    (hmap : fs.map.inodeMapGet ino = .ok (some x)) :
    fs.fsfuseForget ino nlookup = .ok fs' ↔
      fs.des.Counted x ∧ ∃ des, fs.des.direntryDeletes x nlookup = .ok des ∧
        fs' = { fs with des } := by
  rw [Nativefs.fsfuseForget, Nativefs.direntryGetByInode_some hmap]
  constructor
  -- the copy that is found is given back before the copies that are forgotten
  · intro hforget
    obtain ⟨_, hget, hforget⟩ := Except.do_eq_ok_iff.mp hforget
    obtain ⟨des, hcopy, hget⟩ := Except.do_eq_ok_iff.mp hget
    cases hget
    obtain ⟨des', hdelete, hforget⟩ := Except.do_eq_ok_iff.mp hforget
    obtain ⟨hcounted, rfl⟩ := (direntryDelete_direntryCopy hcopy).mp hdelete
    obtain ⟨des'', hdeletes, hforget⟩ := Except.do_eq_ok_iff.mp hforget
    cases hforget
    exact ⟨hcounted, des'', hdeletes, rfl⟩
  · rintro ⟨hcounted, des, hdeletes, rfl⟩
    obtain ⟨des', hcopy⟩ := exists_direntryCopy hcounted
    rw [hcopy]
    show (des'.direntryDelete x >>= fun des =>
      des.direntryDeletes x nlookup >>= fun des => .ok { fs with des }) = _
    rw [(direntryDelete_direntryCopy hcopy).mpr ⟨hcounted, rfl⟩]
    show (fs.des.direntryDeletes x nlookup >>= fun des => .ok { fs with des }) = _
    rw [hdeletes]
    rfl

/-- What has been looked up is given back. -/
theorem effective_forget (h : m.Sound fuel) (hheld : m.Held m.fs.des) {ino nlookup : Nat}
    (henabled : m.Enabled (.forget ino nlookup)) : Effective fuel m (.forget ino nlookup) := by
  have hle : nlookup ≠ 0 ∧ nlookup ≤ m.nlookup ino := henabled
  obtain ⟨hino, x, hmap, hx⟩ := h.nlookup ino (by omega)
  refine ⟨_, fun des =>
    { m with
      fs := { m.fs with des }
      nlookup := Function.update m.nlookup ino (m.nlookup ino - nlookup) },
    _, _, _, fun m' => ?_, fun _ => .drop [x] h hheld (by simpa using hx) hx,
    fun _ _ _ => rfl, fun _ d hd => h.onInode_some hmap hino hd nlookup, fun _ d hd => ?_,
    fun _ => rfl, fun _ des htree => ?_, fun _ des htree d hd => ?_⟩
  -- the request goes through where the copies can be given back
  · rw [step_eq_some_iff henabled, apply, run_done_eq_ok_iff, Except.do_eq_ok_iff,
      and_iff_right (show m.Can (.forget ino nlookup) from trivial)]
    simp only [fsfuseForget_eq_ok_iff hmap, List.mem_singleton, forall_eq]
    constructor
    · rintro ⟨fs', ⟨hcounted, des, hdeletes, rfl⟩, hm⟩
      cases hm
      exact ⟨des, ⟨hcounted, hdeletes⟩, rfl⟩
    · rintro ⟨des, ⟨hcounted, hdeletes⟩, rfl⟩
      exact ⟨_, ⟨hcounted, des, hdeletes, rfl⟩, rfl⟩
  · rw [peak, h.onInode_some hmap hino hd]
    simp only [List.mem_singleton]
  -- an inode that has been forgotten was looked up
  · refine h.of_sameTree htree rfl (fun ino' hino' => h.nlookup ino' fun hzero => hino' ?_) h.files
      h.dirs
    by_cases heq : ino' = ino
    · subst heq
      show Function.update m.nlookup ino' _ ino' = 0
      rw [Function.update_self, hzero, Nat.zero_sub]
    · show Function.update m.nlookup ino _ ino' = 0
      rw [Function.update_of_ne heq, hzero]
  -- of the owners only the kernel has changed
  · simp only [owners, htree.inodeOf, dropped, leaked, taken, overdrawn, onInode]
    by_cases heq : ino = m.fs.des.inodeOf d
    · rw [← heq, Function.update_self, if_pos rfl]
      omega
    · rw [Function.update_of_ne (Ne.symm heq), if_neg heq]

omit [DecidableEq ι] in
/-- `direntry_get_type` gives the type of a direntry that is there. -/
theorem direntryGetType_eq {des : Direntries ι} {x : ι} (hlive : des x ≠ none) :
    des.direntryGetType x = .ok (des.typeOf x) := by
  obtain ⟨node, hnode⟩ := Option.ne_none_iff_exists'.mp hlive
  rw [direntryGetType, access, hnode, typeOf, hnode]
  rfl

omit [DecidableEq ι] in
/-- `direntry_get_inode` gives the inode of a direntry that is there. -/
theorem direntryGetInode_eq {des : Direntries ι} {x : ι} (hlive : des x ≠ none) :
    des.direntryGetInode x = .ok (des.inodeOf x) := by
  obtain ⟨node, hnode⟩ := Option.ne_none_iff_exists'.mp hlive
  rw [direntryGetInode, access, hnode, inodeOf, hnode]
  rfl

/-- An open keeps the copy that it has found the direntry by, and takes one more for the
    downloader. When it fails it keeps that copy as well. -/
theorem fsfuseOpen_eq {fs : Nativefs ι} {ino : Nat} {x : ι}
    (hmap : fs.map.inodeMapGet ino = .ok (some x)) (flags : Nat) :
    fs.fsfuseOpen ino flags =
      if OpenFile.openRc (.ok (fs.des.typeOf x)) flags = 0 then
        fs.des.direntryCopies x 2 >>= fun des => .ok ({ fs with des }, .ok x)
      else
        fs.des.direntryCopies x 1 >>= fun des =>
          .ok ({ fs with des }, .error (OpenFile.openRc (.ok (fs.des.typeOf x)) flags)) := by
  rw [Nativefs.fsfuseOpen, Nativefs.direntryGetByInode_some hmap]
  simp only [direntryCopies]
  -- a second copy is for the downloader, which is made last
  cases hcopy : fs.des.direntryCopy x with
  | error fault => split <;> rfl
  | ok des =>
    have htype := direntryGetType_eq (live_of_direntryCopy hcopy)
    rw [(sameTree_direntryCopy hcopy).typeOf] at htype
    simp only [bind, Except.bind, htype]
    split
    · simp only [Nativefs.downloaderNew, bind, Except.bind]
      cases des.direntryCopy x <;> rfl
    · rfl

/-- So for a directory, which has no downloader. -/
theorem fsfuseOpendir_eq {fs : Nativefs ι} {ino : Nat} {x : ι}
    (hmap : fs.map.inodeMapGet ino = .ok (some x)) (flags : Nat) :
    fs.fsfuseOpendir ino flags =
      fs.des.direntryCopies x 1 >>= fun des => .ok ({ fs with des },
        if Nativefs.opendirRc (fs.des.typeOf x) flags = 0 then .ok x
        else .error (Nativefs.opendirRc (fs.des.typeOf x) flags)) := by
  rw [Nativefs.fsfuseOpendir, Nativefs.direntryGetByInode_some hmap]
  simp only [direntryCopies]
  cases hcopy : fs.des.direntryCopy x with
  | error fault => rfl
  | ok des =>
    have htype := direntryGetType_eq (live_of_direntryCopy hcopy)
    rw [(sameTree_direntryCopy hcopy).typeOf] at htype
    simp only [bind, Except.bind, htype]
    rfl

/-- A lookup gets through in a directory that has been asked for its children, if the counts of
    those on the way and its own allow copies. -/
theorem fsfuseLookup_iff {fs : Nativefs ι} {parent : Nat} {x : ι} {cs : List ι}
    (h : fs.des.Rooted) (hlive : fs.des x ≠ none) (hmap : fs.map.inodeMapGet parent = .ok (some x))
    (hchain : Chain fs.des.nextOf (fs.des.firstOf x) cs)
    (hcs : ∀ c ∈ cs, fs.des c ≠ none → fs.des.parentOf c = some x)
    (hfuel : cs.length ≤ fuel) {name : CStr}
    {listings : Listings ι} {r : Nativefs ι × Except Nat Nat} :
    (fs.fsfuseLookup fuel parent name listings).run = some (.ok r) ↔
      fs.des.looked x = true ∧ fs.des.Counted x ∧
        (∀ c ∈ cs.takeWhile (fs.des.nameOf · ≠ name.val), fs.des.Counted c) ∧ ∃ t,
          fs.des.copyLink (cs.find? (fs.des.nameOf · = name.val)) = .ok t ∧
            r = ({ fs with des := t.1 },
              t.2.elim (.error enoent) fun c => .ok (fs.des.inodeOf c)) := by
  have hfound : ∀ t, fs.des.copyLink (cs.find? (fs.des.nameOf · = name.val)) = .ok t →
      ∀ c, t.2 = some c → t.1.direntryGetInode c = .ok (fs.des.inodeOf c) := by
    -- the child that is found is there, and so its inode can be read
    intro t hcopy c hc
    cases hfind : cs.find? (fs.des.nameOf · = name.val) with
    | none =>
      rw [hfind, copyLink_none] at hcopy
      cases hcopy
      cases hc
    | some x =>
      rw [hfind, copyLink_some_eq_ok_iff] at hcopy
      obtain ⟨hcopy, hx⟩ := hcopy
      rw [hc, Option.some.injEq] at hx
      subst hx
      rw [direntryGetInode_eq (live_of_direntryCopy hcopy), (sameTree_direntryCopy hcopy).inodeOf]
  rw [Nativefs.fsfuseLookup, run_bind_eq_ok_iff]
  simp only [Nativefs.direntryGetChildByName_iff h hlive hmap hchain hcs hfuel]
  constructor
  -- what is replied is the inode of the child, or the error
  · rintro ⟨_, ⟨hlooked, hcopied, hpassed, t, hcopy, rfl⟩, hrun⟩
    refine ⟨hlooked, hcopied, hpassed, t, hcopy, ?_⟩
    obtain ⟨des, o⟩ := t
    cases o with
    | none =>
      rw [Option.elim_none, run_pure_eq_ok_iff] at hrun
      exact hrun.symm
    | some c =>
      obtain ⟨inode, hinode, hrun⟩ := run_done_bind_eq_ok_iff.mp hrun
      rw [hfound _ hcopy c rfl] at hinode
      cases hinode
      rw [run_pure_eq_ok_iff] at hrun
      exact hrun.symm
  -- and where the search goes through so does the request
  · rintro ⟨hlooked, hcopied, hpassed, t, hcopy, rfl⟩
    refine ⟨_, ⟨hlooked, hcopied, hpassed, t, hcopy, rfl⟩, ?_⟩
    obtain ⟨des, o⟩ := t
    cases o with
    | none => rfl
    | some c => exact run_done_bind_eq_ok_iff.mpr ⟨_, hfound _ hcopy c rfl, rfl⟩


/-- A step that takes copies of one direntry, and goes on with its file system in some way. -/
theorem effective_of_take (next : Direntries ι → Mount ι) (h : m.Sound fuel)
    (hheld : m.Held m.fs.des) {a : Label ι} (henabled : m.Enabled a) (hcan : m.Can a) {x : ι}
    (hx : m.fs.des.parentOf x ≠ none) {k : Nat} (hk : k ≠ 0)
    (happly : m.apply fuel a = done (m.fs.des.direntryCopies x k >>= fun des => .ok (next des)))
    (htaken : ∀ d, m.fs.des.parentOf d ≠ none → taken fuel d m a = if d = x then k else 0)
    (hdropped : ∀ d, m.fs.des.parentOf d ≠ none → dropped d m a = 0)
    (hpeak : ∀ d, m.fs.des.parentOf d ≠ none → peak fuel d m a = if d = x then k else 0)
    (hfs : ∀ des, (next des).fs = { m.fs with des })
    (hsound : ∀ des, SameTree m.fs.des des → (next des).Sound fuel)
    (howners : ∀ des, SameTree m.fs.des des → ∀ d, m.fs.des.parentOf d ≠ none →
      owners d (next des) + leaked d m a = owners d m + taken fuel d m a + overdrawn d m a) :
    Effective fuel m a := by
  refine ⟨_, next, _, _, _, step_iff_of_apply henabled hcan happly,
    fun _ => .take [] h hheld (by simp) hx hk, fun _ => htaken, fun _ => hdropped, fun _ d hd => ?_,
    hfs, fun _ => hsound, fun _ des htree d hd => ?_⟩
  -- nothing is dropped, and so the peak is what is taken
  · rw [hpeak d hd, ← peak_eq d]
  · rw [hdropped d hd]
    exact howners des htree d hd

/-- Where an inode is looked up first: it may not be there, or be that of the root. -/
theorem effective_of_inode (h : m.Sound fuel) (hheld : m.Held m.fs.des) {ino : Nat} (hino : ino ≠ 0)
    {a : Label ι} (henabled : m.Enabled a) (hcan : m.Can a ↔ m.BelowRoot ino)
    (hnone : m.fs.direntryGetByInode ino = .ok (m.fs, .error enoent) → m.apply fuel a = pure m)
    (hroot : (∀ r, m.fs.direntryGetByInode ino ≠ .ok r) →
      ∀ m', (m.apply fuel a).run ≠ some (.ok m'))
    (hzero : ∀ d, (∀ n, m.onInode ino d n = 0) → taken fuel d m a = 0 ∧ dropped d m a = 0 ∧
      leaked d m a = 0 ∧ overdrawn d m a = 0 ∧ peak fuel d m a = 0)
    (hsome : ∀ x, m.fs.map.inodeMapGet ino = .ok (some x) → m.fs.des.parentOf x ≠ none → m.Can a →
      Effective fuel m a) : Effective fuel m a := by
  obtain hmap | ⟨x, hmap, -⟩ := h.mapped ino hino
  -- an inode that nobody has is an error, which changes nothing
  · refine effective_of_pure h hheld henabled (hcan.mpr fun de hde => ?_)
      (hnone (Nativefs.direntryGetByInode_none hmap))
      fun d hd => hzero d fun n => h.onInode_none hmap hd n
    rw [hmap] at hde
    cases hde
  · by_cases hx : m.fs.des.parentOf x = none
    -- the root cannot be copied
    · refine effective_of_not_can henabled (fun hc => hcan.mp hc x hmap hx) (hroot fun r => ?_)
      exact h.direntryGetByInode_ne_ok hmap hx r
    · refine hsome x hmap hx (hcan.mpr fun de hde => ?_)
      rw [hmap] at hde
      cases hde
      exact hx

/-- An open takes a copy for the file and one for the downloader, or keeps the one it has found
    the direntry by. -/
theorem effective_open (h : m.Sound fuel) (hheld : m.Held m.fs.des) {ino flags : Nat}
    (henabled : m.Enabled (.open_ ino flags)) : Effective fuel m (.open_ ino flags) := by
  refine effective_of_inode h hheld henabled henabled Iff.rfl (fun hget => ?_)
    (fun hget m' hrun => ?_) (fun d hzero => ⟨hzero _, rfl, hzero _, rfl, hzero _⟩)
    fun x hmap hx hcan => ?_
  · rw [apply, Nativefs.fsfuseOpen, hget]
    rfl
  · obtain ⟨_, hopen, -⟩ := Except.do_eq_ok_iff.mp (run_done_eq_ok_iff.mp hrun)
    obtain ⟨r, hfound, -⟩ := Except.do_eq_ok_iff.mp hopen
    exact hget r hfound
  -- of all direntries only that of the inode is concerned
  have hcount : ∀ d, m.fs.des.parentOf d ≠ none → ∀ n, m.onInode ino d n = if d = x then n else 0 :=
    fun d hd n => h.onInode_some hmap henabled hd n
  by_cases hopens : OpenFile.openRc (.ok (m.fs.des.typeOf x)) flags = 0
  -- a file that opens takes one copy for itself and one for its downloader
  · have htwo : ∀ d, m.fs.des.parentOf d ≠ none →
        m.onInode ino d (if m.opens d flags then 2 else 1) = if d = x then 2 else 0 := by
      intro d hd
      rw [hcount d hd]
      split
      · next heq => rw [heq, opens, decide_eq_true hopens, if_pos rfl]
      · rfl
    have hone : ∀ d, m.fs.des.parentOf d ≠ none →
        m.onInode ino d (if m.opens d flags then 0 else 1) = 0 := by
      intro d hd
      rw [hcount d hd]
      split
      · next heq => rw [heq, opens, decide_eq_true hopens, if_pos rfl]
      · rfl
    have hnew : ∀ d, OpenFileCtxt.holds d ⟨x, false, true, 0⟩ = if d = x then 2 else 0 := by
      intro d
      simp only [OpenFileCtxt.holds, eq_comm]
      rfl
    refine effective_of_take
      (fun des => { m with fs := { m.fs with des }, files := m.files ++ [⟨x, false, true, 0⟩] })
      h hheld henabled hcan hx two_ne_zero ?_ htwo (fun _ _ => rfl) htwo (fun _ => rfl)
      (fun des htree => ?_) fun des htree d hd => ?_
    · rw [apply, fsfuseOpen_eq hmap, if_pos hopens]
      cases m.fs.des.direntryCopies x 2 <;> rfl
    · refine h.of_sameTree htree rfl h.nlookup (fun f hf => ?_) h.dirs
      obtain hmem | hmem := List.mem_append.mp hf
      · exact h.files f hmem
      · rw [List.mem_singleton.mp hmem]
        exact hx
    · simp only [owners, htree.inodeOf, leaked, taken, overdrawn, htwo d hd, hone d hd, hnew,
        List.map_append, List.sum_append, List.map_cons, List.map_nil, List.sum_singleton]
      omega
  -- a file that does not open keeps the copy it was found with
  · have hone : ∀ d, m.fs.des.parentOf d ≠ none → ∀ n,
        m.onInode ino d (if m.opens d flags then n else 1) = if d = x then 1 else 0 := by
      intro d hd n
      rw [hcount d hd]
      split
      · next heq => rw [heq, opens, decide_eq_false hopens, if_neg Bool.false_ne_true]
      · rfl
    refine effective_of_take m.withDes h hheld henabled hcan hx one_ne_zero ?_
      (fun d hd => hone d hd 2) (fun _ _ => rfl) (fun d hd => hone d hd 2) (fun _ => rfl)
      (fun des htree => h.of_sameTree htree rfl h.nlookup h.files h.dirs) fun des htree d hd => ?_
    · rw [apply, fsfuseOpen_eq hmap, if_neg hopens]
      cases m.fs.des.direntryCopies x 1 <;> rfl
    · -- the copy that is kept is leaked
      simp only [owners, withDes, htree.inodeOf, leaked, taken, overdrawn, hone d hd]
      omega

/-- An opening of a directory keeps the copy that has found the direntry, and leaks it when it
    fails. -/
theorem effective_opendir (h : m.Sound fuel) (hheld : m.Held m.fs.des) {ino flags : Nat}
    (henabled : m.Enabled (.opendir ino flags)) : Effective fuel m (.opendir ino flags) := by
  refine effective_of_inode h hheld henabled henabled Iff.rfl (fun hget => ?_)
    (fun hget m' hrun => ?_) (fun d hzero => ⟨hzero _, rfl, hzero _, rfl, hzero _⟩)
    fun x hmap hx hcan => ?_
  · rw [apply, Nativefs.fsfuseOpendir, hget]
    rfl
  · obtain ⟨_, hopen, -⟩ := Except.do_eq_ok_iff.mp (run_done_eq_ok_iff.mp hrun)
    obtain ⟨r, hfound, -⟩ := Except.do_eq_ok_iff.mp hopen
    exact hget r hfound
  have hcount : ∀ d, m.fs.des.parentOf d ≠ none → ∀ n, m.onInode ino d n = if d = x then n else 0 :=
    fun d hd n => h.onInode_some hmap henabled hd n
  by_cases hopens : Nativefs.opendirRc (m.fs.des.typeOf x) flags = 0
  -- a directory that opens keeps the copy it was found with, for itself
  · have hzero : ∀ d, m.fs.des.parentOf d ≠ none →
        m.onInode ino d (if m.opensDir d flags then 0 else 1) = 0 := by
      intro d hd
      rw [hcount d hd]
      split
      · next heq => rw [heq, opensDir, decide_eq_true hopens, if_pos rfl]
      · rfl
    have hnew : ∀ d, OpenDir.holds d ⟨x, false⟩ = if d = x then 1 else 0 := by
      intro d
      simp only [OpenDir.holds, eq_comm]
      rfl
    refine effective_of_take
      (fun des => { m with fs := { m.fs with des }, dirs := m.dirs ++ [⟨x, false⟩] })
      h hheld henabled hcan hx one_ne_zero ?_ (fun d hd => hcount d hd 1) (fun _ _ => rfl)
      (fun d hd => hcount d hd 1) (fun _ => rfl) (fun des htree => ?_) fun des htree d hd => ?_
    · rw [apply, fsfuseOpendir_eq hmap, if_pos hopens]
      cases m.fs.des.direntryCopies x 1 <;> rfl
    · refine h.of_sameTree htree rfl h.nlookup h.files (fun o ho => ?_)
      obtain hmem | hmem := List.mem_append.mp ho
      · exact h.dirs o hmem
      · rw [List.mem_singleton.mp hmem]
        exact hx
    · simp only [owners, htree.inodeOf, leaked, taken, overdrawn, hcount d hd 1, hzero d hd, hnew,
        List.map_append, List.sum_append, List.map_cons, List.map_nil, List.sum_singleton]
      omega
  · have hone : ∀ d, m.fs.des.parentOf d ≠ none →
        m.onInode ino d (if m.opensDir d flags then 0 else 1) = if d = x then 1 else 0 := by
      intro d hd
      rw [hcount d hd]
      split
      · next heq => rw [heq, opensDir, decide_eq_false hopens, if_neg Bool.false_ne_true]
      · rfl
    refine effective_of_take m.withDes h hheld henabled hcan hx one_ne_zero ?_
      (fun d hd => hcount d hd 1) (fun _ _ => rfl) (fun d hd => hcount d hd 1) (fun _ => rfl)
      (fun des htree => h.of_sameTree htree rfl h.nlookup h.files h.dirs) fun des htree d hd => ?_
    · rw [apply, fsfuseOpendir_eq hmap, if_neg hopens]
      cases m.fs.des.direntryCopies x 1 <;> rfl
    · simp only [owners, withDes, htree.inodeOf, leaked, taken, overdrawn, hcount d hd 1, hone d hd]
      omega

/-- A lookup gets through when what it asks for does, and the kernel remembers what it has
    found. -/
theorem apply_lookup_iff {parent : Nat} {name : CStr} {listings : Listings ι} :
    (m.apply fuel (.lookup parent name listings)).run = some (.ok m') ↔
      ∃ r, (m.fs.fsfuseLookup fuel parent name listings).run = some (.ok r) ∧
        m' = { m with fs := r.1, nlookup := remember m.nlookup r.2 } := by
  rw [apply, run_bind_eq_ok_iff]
  simp only [run_pure_eq_ok_iff]
  exact exists_congr fun _ => and_congr_right fun _ => eq_comm

/-- A lookup keeps the copy of the child that it has found for the kernel. -/
theorem effective_lookup (h : m.Sound fuel) (hheld : m.Held m.fs.des) {parent : Nat} {name : CStr}
    {listings : Listings ι} (henabled : m.Enabled (.lookup parent name listings)) :
    Effective fuel m (.lookup parent name listings) := by
  obtain hnone | ⟨x, hmap, hlive, -⟩ := h.mapped parent henabled
  · have hlookup : m.fs.fsfuseLookup fuel parent name listings =
        done (.ok (m.fs, .error enoent)) := by
      rw [Nativefs.fsfuseLookup, Nativefs.direntryGetChildByName,
        Nativefs.direntryGetByInode_none hnone]
      rfl
    refine effective_of_pure h hheld henabled ?_ ?_ fun d _ => ⟨?_, rfl, rfl, rfl, ?_⟩
    · constructor <;>
      · intro de hde
        rw [hnone] at hde
        cases hde
    · rw [apply, hlookup]
      rfl
    · rw [taken, hnone]
    · rw [peak, hnone]
  by_cases hcan : m.Can (.lookup parent name listings)
  · have hx := hcan.1 x hmap
    have hlooked := hcan.2 x hmap
    obtain ⟨cs, hchain, hcs⟩ := h.rooted.exists_chain x
    have hfuel := (h.children x cs hchain).2
    have hchildren : m.childrenOf fuel x = cs := hchain.follow_eq hfuel
    have hpassed : m.passed fuel x name = x :: cs.takeWhile (m.fs.des.nameOf · ≠ name.val) := by
      rw [passed, hchildren]
    have hnamed : m.named fuel x name = cs.find? (m.fs.des.nameOf · = name.val) := by
      rw [named, hchildren]
    have hne : ∀ q ∈ m.passed fuel x name, m.fs.des.parentOf q ≠ none := by
      intro q hq
      rw [hpassed] at hq
      obtain rfl | hq := List.mem_cons.mp hq
      · exact hx
      · exact h.parentOf_child hchain ((List.takeWhile_prefix _).subset hq)
    have hstep : ∀ m', step fuel m (.lookup parent name listings) = some m' ↔
        m.Can (.lookup parent name listings) ∧ ∃ t, (∀ q ∈ m.passed fuel x name,
          m.fs.des.Counted q) ∧ m.fs.des.copyLink (m.named fuel x name) = .ok t ∧
            m' =
              { m with
                fs := { m.fs with des := t.1 }
                nlookup := remember m.nlookup
                  (t.2.elim (.error enoent) fun c => .ok (m.fs.des.inodeOf c)) } := by
      intro m'
      rw [step_eq_some_iff henabled, apply_lookup_iff, and_iff_right hcan, hpassed, hnamed]
      simp only [fsfuseLookup_iff h.rooted hlive hmap hchain hcs hfuel, List.forall_mem_cons]
      constructor
      · rintro ⟨r, ⟨-, hde, hway, t, hcopy, rfl⟩, rfl⟩
        exact ⟨t, ⟨hde, hway⟩, hcopy, rfl⟩
      · rintro ⟨t, ⟨hde, hway⟩, hcopy, rfl⟩
        exact ⟨_, ⟨hlooked, hde, hway, t, hcopy, rfl⟩, rfl⟩
    have htaken : ∀ d, taken fuel d m (.lookup parent name listings) =
        if m.named fuel x name = some d then 1 else 0 := fun d => by
      rw [taken, hmap]
    have hpeak : ∀ d, peak fuel d m (.lookup parent name listings) =
        if m.named fuel x name = some d then 1 else if d ∈ m.passed fuel x name then 1 else 0 :=
      fun d => by rw [peak, hmap]
    cases hfind : m.named fuel x name with
    | none =>
      rw [hfind] at hstep
      refine ⟨_, m.withDes, _, _, _, fun m' => ?_, fun _ => .pass _ h hheld hne, fun _ d _ => ?_,
        fun _ _ _ => rfl, fun _ d _ => ?_, fun _ => rfl,
        fun _ des htree => h.of_sameTree htree rfl h.nlookup h.files h.dirs,
        fun _ des htree d _ => ?_⟩
      · rw [hstep, copyLink_none]
        constructor
        · rintro ⟨hc, t, hcounted, ht, rfl⟩
          cases ht
          exact ⟨hc, _, ⟨hcounted, rfl⟩, rfl⟩
        · rintro ⟨hc, des, ⟨hcounted, rfl⟩, rfl⟩
          exact ⟨hc, _, hcounted, rfl, rfl⟩
      · rw [htaken, hfind, if_neg (Option.some_ne_none d).symm]
      · rw [hpeak, hfind, if_neg (Option.some_ne_none d).symm]
      · rw [htaken, hfind, if_neg (Option.some_ne_none d).symm]
        simp only [owners, withDes, htree.inodeOf, dropped, leaked, overdrawn]
    | some y =>
      rw [hfind] at hstep
      have hy : m.fs.des.parentOf y ≠ none := by
        rw [hnamed] at hfind
        exact h.parentOf_child hchain (List.mem_of_find?_eq_some hfind)
      obtain ⟨hinode, hmapped⟩ := h.inodes y hy
      have hsame : ∀ d, m.named fuel x name = some d ↔ d = y := fun d => by
        rw [hfind, Option.some.injEq, eq_comm]
      refine ⟨_, fun des =>
        { m with
          fs := { m.fs with des }
          nlookup := remember m.nlookup (.ok (m.fs.des.inodeOf y)) },
        _, _, _, fun m' => ?_, fun _ => .take _ h hheld hne hy one_ne_zero, fun _ d _ => ?_,
        fun _ _ _ => rfl, fun _ d _ => ?_, fun _ => rfl, fun _ des htree => ?_,
        fun _ des htree d hd => ?_⟩
      · rw [hstep]
        refine and_congr_right fun _ => ?_
        simp only [direntryCopies_one, copyLink_some_eq_ok_iff]
        constructor
        · rintro ⟨⟨des, o⟩, hcounted, ⟨hcopy, rfl⟩, rfl⟩
          exact ⟨des, ⟨hcounted, hcopy⟩, rfl⟩
        · rintro ⟨des, ⟨hcounted, hcopy⟩, rfl⟩
          exact ⟨(des, some y), hcounted, ⟨hcopy, rfl⟩, rfl⟩
      · rw [htaken]
        simp only [hsame]
      · rw [hpeak]
        simp only [hsame]
      · refine h.of_sameTree htree rfl (fun ino hino => ?_) h.files h.dirs
        by_cases heq : ino = m.fs.des.inodeOf y
        · subst heq
          exact ⟨hinode, y, hmapped, hy⟩
        · have hino' : Function.update m.nlookup (m.fs.des.inodeOf y) _ ino ≠ 0 := hino
          rw [Function.update_of_ne heq] at hino'
          exact h.nlookup ino hino'
      · rw [htaken]
        simp only [owners, htree.inodeOf, dropped, leaked, overdrawn, remember, hsame]
        by_cases heq : d = y
        · rw [heq, Function.update_self, if_pos rfl]
          omega
        · have hother : m.fs.des.inodeOf d ≠ m.fs.des.inodeOf y := fun hino =>
            heq ((h.inodeOf_eq_iff hmapped hd hinode).mp hino.symm)
          rw [if_neg heq, Function.update_of_ne hother]
  · refine effective_of_not_can henabled hcan fun m' hrun => hcan ?_
    obtain ⟨_, hlookup, -⟩ := run_bind_eq_ok_iff.mp hrun
    obtain ⟨_, hget, -⟩ := run_bind_eq_ok_iff.mp hlookup
    obtain ⟨hlooked, des, hcopy, -⟩ :=
      (Nativefs.direntryGetChildByName_eq_ok_iff h.rooted hlive hmap).mp hget
    refine ⟨fun de hde htop => ?_, fun de hde => ?_⟩
    · rw [hmap] at hde
      cases hde
      exact h.direntryGetByInode_ne_ok hmap htop _
        ((Nativefs.direntryGetByInode_iff hmap).mpr ⟨des, hcopy, rfl⟩)
    · rw [hmap] at hde
      cases hde
      exact hlooked

/-- Every step either goes wrong because of the root or of children not yet looked for, or has an
    effect on the counts, and on what the owners hold. -/
theorem step_effect (h : m.Sound fuel) (hheld : m.Held m.fs.des) {a : Label ι}
    (henabled : m.Enabled a) : Effective fuel m a := by
  cases a with
  | lookup parent name listings => exact effective_lookup h hheld henabled
  | forget ino nlookup => exact effective_forget h hheld henabled
  | open_ ino flags => exact effective_open h hheld henabled
  | read fh => exact effective_read h hheld henabled
  | chunkDone fh => exact effective_chunkDone h hheld henabled
  | threadDelete fh => exact effective_threadDelete h hheld henabled
  | release fh => exact effective_release h hheld henabled
  | opendir ino flags => exact effective_opendir h hheld henabled
  | readdir fh listings => exact effective_readdir h hheld henabled
  | releasedir fh => exact effective_releasedir h hheld henabled
  | getattr fh =>
    cases fh with
    | none => exact effective_getattr_none fuel m
    | some fh => exact effective_getattr h hheld henabled

end Mount

end Fsfuse.Native
