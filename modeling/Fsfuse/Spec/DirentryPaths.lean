import Fsfuse.ForStd.List
import Fsfuse.ForStd.ParentLinks
import Fsfuse.Native.DirentryPath
import Fsfuse.Spec.StringBufferCorrect

/-!
# Paths name direntries

The path of a direntry is the names on the way down to it, each with a `/` behind it. On the
way up a copy is taken of each parent, which is dropped when its own path is there; what this
needs of a parent is that it has a reference count, which is neither that of a direntry that
has been freed nor about to wrap. The root, as `direntry_new_root` makes it, has none.
-/

namespace Fsfuse.Native.Direntries

open ParentLinks

variable {ι : Type}

/-! ### Trees of direntries -/

def parentOf (des : Direntries ι) (de : ι) : Option ι := (des de).bind (·.parent)

def nameOf (des : Direntries ι) (de : ι) : List UInt8 := (des de).elim [] (·.name.val)

/-- The reference count of a direntry. -/
def countOf (des : Direntries ι) (de : ι) : Option UInt32 := (des de).bind (·.refCount)

/-- A copy can be taken, and dropped again. -/
def Counted (des : Direntries ι) (de : ι) : Prop :=
  ∃ refCount, des.countOf de = some refCount ∧ refCount ≠ 0 ∧ refCount ≠ 2 ^ 32 - 1

/-- The direntries in memory, and links between them that make them a tree. -/
structure Tree (ι : Type) where
  des : Direntries ι
  isTree : IsTree {de | des de ≠ none} des.parentOf

/-- The names of some direntries, the last one first. -/
def pathOf (des : Direntries ι) (nodes : List ι) : List UInt8 :=
  nodes.reverse.flatMap (des.nameOf · ++ [47])

/-- The path of a direntry ends with its name and a slash. -/
theorem pathOf_cons (des : Direntries ι) (de : ι) (nodes : List ι) :
    des.pathOf (de :: nodes) = des.pathOf nodes ++ des.nameOf de ++ [47] := by
  simp [pathOf]

/-- A direntry that is counted is there. -/
theorem Counted.ne_none {des : Direntries ι} {de : ι} (h : des.Counted de) : des de ≠ none := by
  obtain ⟨refCount, hcount, -⟩ := h
  intro hnone
  rw [countOf, hnone] at hcount
  cases hcount

/-! ### Copies -/

variable [DecidableEq ι] {des des' : Direntries ι} {de p : ι}

/-- A copy goes through only where the direntry is counted, and increments its count. -/
theorem exists_of_direntryCopy (h : des.direntryCopy p = .ok des') :
    ∃ node refCount, des p = some node ∧ node.refCount = some refCount ∧ refCount ≠ 0 ∧
      des' = Function.update des p (some { node with refCount := some (refCount + 1) }) := by
  obtain ⟨node, haccess, h⟩ := Except.do_eq_ok_iff.mp h
  obtain ⟨refc, hinc, h⟩ := Except.do_eq_ok_iff.mp h
  -- the assertion, and a missing count, stop the daemon
  cases hde : des p with
  | none =>
    rw [access, hde] at haccess
    cases haccess
  | some node' =>
    rw [access, hde] at haccess
    cases haccess
    cases hcount : node.refCount with
    | none =>
      rw [hcount] at hinc
      cases hinc
    | some refCount =>
      rw [hcount, refCountInc] at hinc
      split at hinc
      · cases hinc
      · rename_i hne
        cases hinc
        cases h
        exact ⟨node, refCount, rfl, hcount, hne, rfl⟩

/-- A direntry that is counted can be copied. -/
theorem exists_direntryCopy (h : des.Counted p) : ∃ des', des.direntryCopy p = .ok des' := by
  obtain ⟨refCount, hcount, hne, -⟩ := h
  obtain ⟨node, hnode, hcount⟩ := Option.bind_eq_some_iff.mp hcount
  unfold direntryCopy
  rw [access, hnode, Option.elim_some]
  simp only [bind, Except.bind]
  rw [hcount, refCountInc, if_neg hne]
  exact ⟨_, rfl⟩

/-- A copy changes a count, and nothing else. -/
theorem links_direntryCopy (h : des.direntryCopy p = .ok des') :
    des'.parentOf = des.parentOf ∧ des'.nameOf = des.nameOf ∧
      (∀ i, des' i ≠ none ↔ des i ≠ none) ∧
      ∀ i, i ≠ p → (des'.Counted i ↔ des.Counted i) := by
  obtain ⟨node, refCount, hnode, hcount, -, rfl⟩ := exists_of_direntryCopy h
  refine ⟨?_, ?_, ?_, ?_⟩
  -- of the direntry only the count has changed
  · funext i
    by_cases hi : i = p
    · subst hi
      simp [parentOf, hnode]
    · simp [parentOf, hi]
  · funext i
    by_cases hi : i = p
    · subst hi
      simp [nameOf, hnode]
    · simp [nameOf, hi]
  · intro i
    by_cases hi : i = p
    · subst hi
      simp [hnode]
    · simp [hi]
  · intro i hi
    simp [Counted, countOf, hi]

/-- Dropping the copy undoes what taking it did, unless the count has wrapped. -/
theorem direntryDelete_direntryCopy {des'' : Direntries ι} (h : des.direntryCopy p = .ok des') :
    des'.direntryDelete p = .ok des'' ↔ des.Counted p ∧ des'' = des := by
  obtain ⟨node, refCount, hnode, hcount, hne, rfl⟩ := exists_of_direntryCopy h
  have hcountOf : des.countOf p = some refCount := by rw [countOf, hnode, Option.bind_some, hcount]
  -- the copy's count is 0 exactly if it has wrapped
  have hwrap : refCount + 1 = 0 ↔ refCount = 2 ^ 32 - 1 := by
    have hmax : (2 ^ 32 - 1 : UInt32) = 0 - 1 := by decide
    rw [hmax]
    grind
  have hcounted : des.Counted p ↔ ¬ refCount + 1 = 0 := by
    simp only [Counted, hcountOf, Option.some.injEq, exists_eq_left', hwrap]
    exact and_iff_right hne
  rw [hcounted]
  unfold direntryDelete
  rw [access, Function.update_self, Option.elim_some]
  simp only [bind, Except.bind]
  -- then the delete's assertion fails; otherwise the count is as before
  by_cases hzero : refCount + 1 = 0
  · rw [hzero]
    simp [refCountDec]
  · have hback : refCount + 1 - 1 = refCount := by grind
    rw [refCountDec, if_neg hzero, hback]
    simp only []
    rw [if_neg hne, ← hcount, Function.update_idem, ← hnode, Function.update_eq_self]
    simp [hzero, eq_comm, pure, Except.pure]

/-! ### Going up -/

/-- Two steps go through exactly if the first does and then the second. -/
theorem run_bind_eq_ok_iff {α β : Type} {x : ExceptT Fault Option α}
    {f : α → ExceptT Fault Option β} {b : β} :
    (x >>= f).run = some (.ok b) ↔ ∃ a, x.run = some (.ok a) ∧ (f a).run = some (.ok b) := by
  rw [ExceptT.run_bind]
  cases hx : x.run with
  | none => simp
  | some r => cases r <;> simp

/-- A step that does not loop goes through exactly if it is not a fault. -/
theorem run_done_eq_ok_iff {α : Type} {x : Except Fault α} {a : α} :
    (done x).run = some (.ok a) ↔ x = .ok a := by
  show some x = some (.ok a) ↔ _
  rw [Option.some.injEq]

/-- Nothing is done, and it goes through. -/
theorem run_pure_eq_ok_iff {α : Type} {a b : α} :
    (pure a : ExceptT Fault Option α).run = some (.ok b) ↔ a = b := by
  rw [ExceptT.run_pure]
  show some (Except.ok a) = some (.ok b) ↔ _
  rw [Option.some.injEq, Except.ok.injEq]

/-- A step that does not loop and another go through exactly if the one does and then the other.
    -/
theorem run_done_bind_eq_ok_iff {α β : Type} {x : Except Fault α}
    {f : α → ExceptT Fault Option β} {b : β} :
    (done x >>= f).run = some (.ok b) ↔ ∃ a, x = .ok a ∧ (f a).run = some (.ok b) := by
  simp only [run_bind_eq_ok_iff, run_done_eq_ok_iff]

/-- Steps that do not loop can be taken one by one. -/
theorem done_bind {α β : Type} (x : Except Fault α) (f : α → Except Fault β) :
    done (x >>= f) = done x >>= fun a => done (f a) := by
  cases x <;> rfl

/-- The part of the path that a direntry adds. -/
def appendName (des : Direntries ι) (de : ι) (path : StringBuffer) : Except Fault StringBuffer :=
  (des.direntryGetName de >>= path.append) >>= (·.append .slash)

omit [DecidableEq ι] in
/-- `append_name` takes the name, appends it, and appends a slash. -/
theorem done_appendName_bind {β : Type} (path : StringBuffer)
    (k : StringBuffer → ExceptT Fault Option β) :
    done (des.appendName de path) >>= k =
      done (des.direntryGetName de >>= path.append) >>= fun path =>
        done (path.append .slash) >>= k := by
  rw [appendName]
  cases des.direntryGetName de >>= path.append <;> rfl

omit [DecidableEq ι] in
/-- Appending the name of a direntry that is there goes through, and extends the text by it and
    a slash. -/
theorem appendName_spec {path : StringBuffer} {content : List UInt8} (h : path.Holds content)
    (hlive : des de ≠ none) :
    ∃ path', des.appendName de path = .ok path' ∧
      path'.Holds (content ++ des.nameOf de ++ [47]) := by
  obtain ⟨node, hnode⟩ := Option.ne_none_iff_exists'.mp hlive
  obtain ⟨path₁, hfirst, hholds₁⟩ := StringBuffer.append_spec h node.name
  obtain ⟨path₂, hsecond, hholds₂⟩ :=
    StringBuffer.append_spec hholds₁ .slash
  refine ⟨path₂, ?_, ?_⟩
  · rw [appendName, direntryGetName, access, hnode]
    show (path.append node.name >>= _) = _
    rw [hfirst]
    exact hsecond
  · rw [nameOf, hnode]
    exact hholds₂

/-- At a direntry without a parent only its own name is appended. -/
theorem getPathInner_top {fuel : Nat} {path : StringBuffer} (hlive : des de ≠ none)
    (hlink : des.parentOf de = none) :
    direntryGetPathInner (fuel + 1) des de path =
      done (des.appendName de path) >>= fun path => pure (des, path) := by
  obtain ⟨node, hnode⟩ := Option.ne_none_iff_exists'.mp hlive
  have hparent : node.parent = none := by
    rw [parentOf, hnode] at hlink
    exact hlink
  have hget : des.direntryGetParent de = .ok (des, none) := by
    rw [direntryGetParent, access, hnode, Option.elim_some]
    simp only [bind, Except.bind, hparent]
    rfl
  rw [direntryGetPathInner, hget, done_appendName_bind]
  rfl

/-- At any other direntry the parent is copied, its path appended, the copy deleted, and the
    name appended. -/
theorem getPathInner_child {fuel : Nat} {path : StringBuffer} (hlink : des.parentOf de = some p) :
    direntryGetPathInner (fuel + 1) des de path =
      done (des.direntryCopy p) >>= fun des => direntryGetPathInner fuel des p path >>= fun r =>
        done (r.1.direntryDelete p) >>= fun des => done (des.appendName de r.2) >>= fun path =>
          pure (des, path) := by
  obtain ⟨node, hnode, hparent⟩ := Option.bind_eq_some_iff.mp hlink
  have hget : des.direntryGetParent de =
      des.direntryCopy p >>= fun des => pure (des, some p) := by
    rw [direntryGetParent, access, hnode, Option.elim_some]
    simp only [bind, Except.bind, hparent]
    rfl
  rw [direntryGetPathInner, hget]
  simp only [done_appendName_bind, pure_bind]
  cases des.direntryCopy p <;> rfl

/-- What comes back is what should, and all counts on the way could be taken and dropped. -/
theorem getPathInner_sound {parent : ι → Option ι} {ancestors : List ι} {fuel : Nat}
    {path : StringBuffer} {content : List UInt8} {r : Direntries ι × StringBuffer}
    (h : Ancestry parent de ancestors) (hparent : des.parentOf = parent) (hlive : des de ≠ none)
    (hholds : path.Holds content)
    (hrun : (direntryGetPathInner fuel des de path).run = some (.ok r)) :
    (∀ a ∈ ancestors, des.Counted a) ∧ r.1 = des ∧
      r.2.Holds (content ++ des.pathOf (de :: ancestors)) := by
  induction h generalizing des fuel path content r with
  | top htop =>
    cases fuel with
    | zero => cases hrun
    | succ fuel =>
      rw [← hparent] at htop
      obtain ⟨path', happend, hholds'⟩ := appendName_spec hholds hlive
      rw [getPathInner_top hlive htop, happend] at hrun
      cases hrun
      refine ⟨fun a ha => absurd ha List.not_mem_nil, rfl, ?_⟩
      rw [pathOf_cons]
      simpa [pathOf] using hholds'
  | @child de p ancestors hlink hp ih =>
    cases fuel with
    | zero => cases hrun
    | succ fuel =>
      have hlink' : des.parentOf de = some p := by rw [hparent, hlink]
      rw [getPathInner_child hlink'] at hrun
      obtain ⟨des₁, hcopy, hrun⟩ := run_bind_eq_ok_iff.mp hrun
      obtain ⟨⟨des₂, path₁⟩, hinner, hrun⟩ := run_bind_eq_ok_iff.mp hrun
      obtain ⟨des₃, hdelete, hrun⟩ := run_bind_eq_ok_iff.mp hrun
      rw [run_done_eq_ok_iff] at hcopy hdelete
      obtain ⟨hparents, hnames, hlives, hcounts⟩ := links_direntryCopy hcopy
      obtain ⟨node, -, hnode, -⟩ := exists_of_direntryCopy hcopy
      have hlive₁ : des₁ p ≠ none := (hlives p).mpr (by rw [hnode]; exact Option.some_ne_none _)
      obtain ⟨hcounted, hsame, hholds₁⟩ := ih (hparents.trans hparent) hlive₁ hholds hinner
      -- the tree is as it was when the copy has been dropped
      dsimp only at hsame hholds₁ hdelete hrun
      rw [hsame, direntryDelete_direntryCopy hcopy] at hdelete
      obtain ⟨hp_counted, hback⟩ := hdelete
      rw [hback] at hrun
      obtain ⟨path₂, happend, hholds₂⟩ := appendName_spec hholds₁ hlive
      rw [happend] at hrun
      cases hrun
      have hpath : des₁.pathOf (p :: ancestors) = des.pathOf (p :: ancestors) := by
        rw [pathOf, pathOf, hnames]
      refine ⟨?_, rfl, ?_⟩
      · intro a ha
        obtain rfl | ha := List.mem_cons.mp ha
        · exact hp_counted
        · have hne : a ≠ p := fun heq => hp.not_mem (heq ▸ ha)
          exact (hcounts a hne).mp (hcounted a ha)
      · rw [pathOf_cons, ← hpath, ← List.append_assoc, ← List.append_assoc]
        exact hholds₂

/-- With fuel for each direntry on the way, there is a path if the counts allow it. -/
theorem getPathInner_progress {parent : ι → Option ι} {ancestors : List ι} {fuel : Nat}
    {path : StringBuffer} {content : List UInt8}
    (h : Ancestry parent de ancestors) (hparent : des.parentOf = parent) (hlive : des de ≠ none)
    (hholds : path.Holds content) (hcounted : ∀ a ∈ ancestors, des.Counted a)
    (hfuel : ancestors.length < fuel) :
    ∃ r, (direntryGetPathInner fuel des de path).run = some (.ok r) := by
  induction h generalizing des fuel path content with
  | top htop =>
    cases fuel with
    | zero => cases hfuel
    | succ fuel =>
      rw [← hparent] at htop
      obtain ⟨path', happend, -⟩ := appendName_spec hholds hlive
      rw [getPathInner_top hlive htop, happend]
      exact ⟨_, rfl⟩
  | @child de p ancestors hlink hp ih =>
    cases fuel with
    | zero => cases hfuel
    -- the parent is copied, its path appended, the copy given back, and the own name appended
    | succ fuel =>
      have hlink' : des.parentOf de = some p := by rw [hparent, hlink]
      have hp_counted : des.Counted p := hcounted p List.mem_cons_self
      obtain ⟨des₁, hcopy⟩ := exists_direntryCopy hp_counted
      obtain ⟨hparents, -, hlives, hcounts⟩ := links_direntryCopy hcopy
      have hlive₁ : des₁ p ≠ none := (hlives p).mpr hp_counted.ne_none
      -- no ancestor further up is the parent again
      have hcounted₁ : ∀ a ∈ ancestors, des₁.Counted a := by
        intro a ha
        have hne : a ≠ p := fun heq => hp.not_mem (heq ▸ ha)
        exact (hcounts a hne).mpr (hcounted a (List.mem_cons_of_mem p ha))
      obtain ⟨⟨des₂, path₁⟩, hinner⟩ :=
        ih (hparents.trans hparent) hlive₁ hholds hcounted₁ (Nat.lt_of_succ_lt_succ hfuel)
      obtain ⟨-, hsame, hholds₁⟩ :=
        getPathInner_sound hp (hparents.trans hparent) hlive₁ hholds hinner
      -- the copy that is given back is the one that was taken
      have hdelete : des₂.direntryDelete p = .ok des := by
        rw [show des₂ = des₁ from hsame]
        exact (direntryDelete_direntryCopy hcopy).mpr ⟨hp_counted, rfl⟩
      obtain ⟨path₂, happend, -⟩ := appendName_spec hholds₁ hlive
      refine ⟨(des, path₂), ?_⟩
      rw [getPathInner_child hlink', run_bind_eq_ok_iff]
      refine ⟨des₁, run_done_eq_ok_iff.mpr hcopy, run_bind_eq_ok_iff.mpr ⟨_, hinner, ?_⟩⟩
      refine run_bind_eq_ok_iff.mpr ⟨des, run_done_eq_ok_iff.mpr hdelete, ?_⟩
      dsimp only
      rw [happend]
      rfl

/-! ### Whole paths -/

omit [DecidableEq ι] in
/-- No name has a NUL in it. -/
theorem zero_not_mem_nameOf (des : Direntries ι) (de : ι) : 0 ∉ des.nameOf de := by
  unfold nameOf
  cases des de with
  | none => exact List.not_mem_nil
  | some node => exact node.name.property

omit [DecidableEq ι] in
/-- No path has a NUL in it. -/
theorem zero_not_mem_pathOf (des : Direntries ι) (nodes : List ι) : 0 ∉ des.pathOf nodes := by
  intro hmem
  obtain ⟨de, -, hmem⟩ := List.mem_flatMap.mp hmem
  obtain hname | hslash := List.mem_append.mp hmem
  · exact zero_not_mem_nameOf des de hname
  · revert hslash
    decide

/-- `direntry_get_path` commits what the recursion has appended to a new buffer. -/
theorem getPath_eq (fuel : Nat) (des : Direntries ι) (de : ι) {path : StringBuffer}
    (hnew : StringBuffer.new = .ok path) :
    direntryGetPath fuel des de = direntryGetPathInner fuel des de path >>= fun r =>
      done r.2.commit >>= fun chars => pure (r.1, .ofBytes chars) := by
  rw [direntryGetPath, hnew]
  rfl

/-- If `direntry_get_path` goes through, all ancestors are counted, the counts are as they were,
    and the path is the right one. -/
theorem getPath_sound {ancestors : List ι} {fuel : Nat} {r : Direntries ι × CStr}
    (h : Ancestry des.parentOf de ancestors) (hlive : des de ≠ none)
    (hrun : (direntryGetPath fuel des de).run = some (.ok r)) :
    (∀ a ∈ ancestors, des.Counted a) ∧ r.1 = des ∧ r.2.val = des.pathOf (de :: ancestors) := by
  obtain ⟨path, hnew, hholds⟩ := StringBuffer.fromChars_spec .empty
  rw [getPath_eq fuel des de hnew] at hrun
  obtain ⟨r', hinner, hrun⟩ := run_bind_eq_ok_iff.mp hrun
  obtain ⟨hcounted, hsame, hholds'⟩ := getPathInner_sound h rfl hlive hholds hinner
  have hcommit := hholds'.commit
  obtain ⟨chars, hchars, hrun⟩ := run_bind_eq_ok_iff.mp hrun
  rw [run_done_eq_ok_iff, hcommit] at hchars
  cases hchars
  cases hrun
  refine ⟨hcounted, hsame, (cString_append_nul _).trans ?_⟩
  exact cString_of_not_mem (zero_not_mem_pathOf des _)

/-- If all ancestors are counted `direntry_get_path` goes through, given as much fuel as there
    are levels. -/
theorem getPath_progress {ancestors : List ι} {fuel : Nat}
    (h : Ancestry des.parentOf de ancestors) (hlive : des de ≠ none)
    (hcounted : ∀ a ∈ ancestors, des.Counted a) (hfuel : ancestors.length < fuel) :
    ∃ r, (direntryGetPath fuel des de).run = some (.ok r) := by
  obtain ⟨path, hnew, hholds⟩ := StringBuffer.fromChars_spec .empty
  obtain ⟨r, hinner⟩ := getPathInner_progress h rfl hlive hholds hcounted hfuel
  obtain ⟨-, -, hholds'⟩ := getPathInner_sound h rfl hlive hholds hinner
  have hcommit := run_done_eq_ok_iff.mpr hholds'.commit
  rw [getPath_eq fuel des de hnew]
  exact ⟨_, run_bind_eq_ok_iff.mpr ⟨r, hinner, run_bind_eq_ok_iff.mpr ⟨_, hcommit, rfl⟩⟩⟩

/-- The call returns the path, and leaves the direntries and their counts as they are. -/
def PathRight (t : Tree ι) (de : ι) : Prop :=
  ∃ ancestors path, Ancestry t.des.parentOf de ancestors ∧
    path.val = t.des.pathOf (de :: ancestors) ∧
    ∃ bound, ∀ fuel ≥ bound, (direntryGetPath fuel t.des de).run = some (.ok (t.des, path))

omit [DecidableEq ι] in
/-- The names can be told from the path, if none has a `/`. -/
theorem names_of_pathOf {nodes nodes' : List ι} (hslash : ∀ de, 47 ∉ des.nameOf de)
    (h : des.pathOf nodes = des.pathOf nodes') :
    nodes.map des.nameOf = nodes'.map des.nameOf := by
  have hpath : ∀ nodes : List ι,
      des.pathOf nodes = (nodes.map des.nameOf).reverse.flatMap (· ++ [47]) := by
    intro nodes
    rw [pathOf, ← List.map_reverse, List.flatMap_map]
  have hnames : ∀ nodes : List ι, ∀ name ∈ (nodes.map des.nameOf).reverse, 47 ∉ name := by
    intro nodes name hname
    obtain ⟨de, -, rfl⟩ := List.mem_map.mp (List.mem_reverse.mp hname)
    exact hslash de
  rw [hpath, hpath] at h
  exact List.reverse_injective (List.flatMap_terminated_inj (hnames _) (hnames _) h)

/-- In every tree, a direntry's path is returned, and the counts are as before, exactly if each
    direntry on the way to the top has a count that allows a copy. Where no name has a `/` and
    siblings have different names, no two direntries have the same path. -/
theorem direntryGetPath_right_iff (t : Tree ι) :
    (∀ de, t.des de ≠ none →
      (PathRight t de ↔ ∀ a, IsAncestor t.des.parentOf a de → t.des.Counted a)) ∧
    ((∀ de, 47 ∉ t.des.nameOf de) →
      (∀ de de' parent, t.des.parentOf de = some parent → t.des.parentOf de' = some parent →
        t.des.nameOf de = t.des.nameOf de' → de = de') →
      ∀ de de', t.des de ≠ none → t.des de' ≠ none → de ≠ de' →
        ∀ fuel fuel' r r', (direntryGetPath fuel t.des de).run = some (.ok r) →
          (direntryGetPath fuel' t.des de').run = some (.ok r') → r.2 ≠ r'.2) := by
  constructor
  · intro de hlive
    obtain ⟨ancestors, h⟩ := t.isTree.exists_ancestry hlive
    constructor
    -- a path that is given has been made by copies of all ancestors
    · rintro ⟨ancestors', path, h', hpath, bound, hrun⟩ a ha
      obtain ⟨hcounted, -, -⟩ := getPath_sound h hlive (hrun bound (Nat.le_refl bound))
      exact hcounted a (h.mem_iff.mpr ha)
    -- and with those counted it is made
    · intro hcounted
      have hcounted' : ∀ a ∈ ancestors, t.des.Counted a := fun a ha =>
        hcounted a (h.mem_iff.mp ha)
      have hrun : ∀ fuel ≥ ancestors.length + 1, (direntryGetPath fuel t.des de).run =
          some (.ok (t.des, ⟨t.des.pathOf (de :: ancestors), zero_not_mem_pathOf t.des _⟩)) := by
        intro fuel hfuel
        obtain ⟨⟨des', path⟩, hrun⟩ := getPath_progress h hlive hcounted' hfuel
        obtain ⟨-, hsame, hpath⟩ := getPath_sound h hlive hrun
        have hpath' : path = ⟨_, zero_not_mem_pathOf t.des _⟩ := Subtype.ext hpath
        rw [hrun, ← hpath', show des' = t.des from hsame]
      exact ⟨ancestors, _, h, rfl, ancestors.length + 1, hrun⟩
  -- paths that are the same are made of the same names from the root on
  · intro hslash hsiblings de de' hlive hlive' hne fuel fuel' r r' hrun hrun' hpath
    obtain ⟨ancestors, h⟩ := t.isTree.exists_ancestry hlive
    obtain ⟨ancestors', h'⟩ := t.isTree.exists_ancestry hlive'
    obtain ⟨-, -, hr⟩ := getPath_sound h hlive hrun
    obtain ⟨-, -, hr'⟩ := getPath_sound h' hlive' hrun'
    rw [hpath, hr'] at hr
    have hsame : de = de' := h.eq_of_labels t.isTree
      (fun de _ de' _ parent hparent hparent' => hsiblings de de' parent hparent hparent')
      hlive hlive' h' (names_of_pathOf hslash hr.symm)
    exact hne hsame

/-- A root that has a reference count or not, and one direntry in it. -/
def rootAndChild (refCount : Option UInt32) : Direntries Bool
  | false => some { direntryNewRoot with refCount }
  | true =>
    some
      { direntryNewRoot with
        refCount := some 1, in_ := some 0, name := ⟨ascii "a", by decide⟩, inode := 2
        parent := some false }

/-- The root is nobody's child, and the child is the root's. -/
theorem ancestry_rootAndChild (refCount : Option UInt32) :
    Ancestry (rootAndChild refCount).parentOf false [] ∧
      Ancestry (rootAndChild refCount).parentOf true [false] := by
  have hroot : Ancestry (rootAndChild refCount).parentOf false [] := .top rfl
  exact ⟨hroot, .child rfl hroot⟩

/-- The root and its child are a tree. -/
theorem isTree_rootAndChild (refCount : Option UInt32) :
    IsTree {de | rootAndChild refCount de ≠ none} (rootAndChild refCount).parentOf := by
  obtain ⟨hroot, hchild⟩ := ancestry_rootAndChild refCount
  refine ⟨⟨Set.toFinite _, ?_, ?_⟩, ?_⟩
  · intro i p _ _
    cases p <;> exact Option.some_ne_none _
  · intro i _ hcycle
    cases i with
    | false => exact hroot.not_mem (hroot.mem_iff.mpr hcycle)
    | true => exact hchild.not_mem (hchild.mem_iff.mpr hcycle)
  · intro i j _ _ hi hj
    cases i with
    | false =>
      cases j with
      | false => rfl
      | true => cases hj
    | true => cases hi

/-- A root with a reference count can be copied on the way. -/
theorem direntryGetPath_right_example :
    PathRight ⟨rootAndChild (some 1), isTree_rootAndChild (some 1)⟩ true ∧
      ∀ fuel fuel' r r',
        (direntryGetPath fuel (rootAndChild (some 1)) false).run = some (.ok r) →
        (direntryGetPath fuel' (rootAndChild (some 1)) true).run = some (.ok r') →
        r.2 ≠ r'.2 := by
  obtain ⟨hright, hdifferent⟩ :=
    direntryGetPath_right_iff ⟨rootAndChild (some 1), isTree_rootAndChild (some 1)⟩
  constructor
  · apply (hright true (Option.some_ne_none _)).mpr
    intro a ha
    have hroot := (ancestry_rootAndChild (some 1)).2.mem_iff.mpr ha
    rw [List.mem_singleton.mp hroot]
    exact ⟨1, rfl, by decide, by decide⟩
  · apply hdifferent
    · intro de
      cases de with
      | false => exact List.not_mem_nil
      | true => exact show (47 : UInt8) ∉ ascii "a" by decide
    · intro de de' parent hparent hparent' _
      cases de with
      | false => cases hparent
      | true =>
        cases de' with
        | false => cases hparent'
        | true => rfl
    · exact Option.some_ne_none _
    · exact Option.some_ne_none _
    · decide

/-- The root of `direntry_new_root` has no reference count: whatever is in it has no path. -/
theorem direntryGetPath_root_null :
    rootAndChild none false = some direntryNewRoot ∧
      (direntryGetPath 2 (rootAndChild none) true).run = some (.error .nullPointer) ∧
      ¬ PathRight ⟨rootAndChild none, isTree_rootAndChild none⟩ true := by
  refine ⟨rfl, by decide, ?_⟩
  rintro ⟨ancestors, path, -, -, bound, hrun⟩
  obtain ⟨hcounted, -, -⟩ := getPath_sound (ancestry_rootAndChild none).2
    (Option.some_ne_none _) (hrun bound (Nat.le_refl bound))
  obtain ⟨refCount, hcount, -⟩ := hcounted false List.mem_cons_self
  cases hcount

end Fsfuse.Native.Direntries
