import Fsfuse.ForStd.RefCount
import Fsfuse.Spec.EnsureChildren
import Fsfuse.Spec.HandlerEffects

/-!
# The balance of reference counts

The handlers are meant to balance what they do to the reference counts, so that in a run at
whose end everything has been forgotten and given back, no direntry's count ever reaches 0
and all are what they were at the start.

* `accounting` — the books of the direntries below the root, kept by `RefCounted`;
* `exec_balanced_iff` — they balance a run exactly when each of its steps can be made, its leaks
  and overdrafts of each direntry are the same in the end, the overdrafts are never so far ahead
  that they use up what others own, and the copies can be counted.
-/

open Transition

namespace Fsfuse.Native.Mount

open Direntries ParentLinks

variable {ι : Type} [DecidableEq ι] {fuel : Nat} {m : Mount ι} {ls : List (Label ι)}

/-- The direntries of a tree, less the root. -/
abbrev Below (des : Direntries ι) : Type := { d // des.parentOf d ≠ none }

omit [DecidableEq ι] in
/-- In a mount with the same tree it is the same direntries that are to be held. -/
theorem held_of_sameTree {m₀ m' : Mount ι} (htree : SameTree m₀.fs.des m.fs.des)
    (hcount : ∀ d, m'.count d = (m.withDes m'.fs.des).count d)
    (halive : ∀ d : Below m₀.fs.des, m'.count d.1 ≠ 0) : m.Held m'.fs.des := by
  intro d hd
  rw [htree.parentOf] at hd
  rw [← hcount]
  exact halive ⟨d, hd⟩

/-- The books of the direntries below the root. -/
def accounting (fuel : Nat) (m₀ : Mount ι) :
    RefCounted (Below m₀.fs.des) (step fuel : Mount ι → Label ι → Option (Mount ι)) where
  Inv m := m.Sound fuel ∧ SameTree m₀.fs.des m.fs.des
  Enabled := Enabled
  Can := Can
  count m d := m.count d.1
  owners d := owners d.1
  taken d := taken fuel d.1
  dropped d := dropped d.1
  leaked d := leaked d.1
  overdrawn d := overdrawn d.1
  peak d := peak fuel d.1
  limit := 2 ^ 32
  step_iff m a := by
    rintro ⟨h, htree⟩ halive henabled
    have hparent : ∀ d, m.fs.des.parentOf d ≠ none ↔ m₀.fs.des.parentOf d ≠ none := by
      rw [htree.parentOf]
      exact fun _ => Iff.rfl
    have hheld : m.Held m.fs.des := held_of_sameTree htree (fun _ => rfl) halive
    obtain ⟨R, next, t, r, p, hmakes⟩ := step_effect h hheld henabled
    have hafter : ∀ des, (∀ d : Below m₀.fs.des, (next des).count d.1 ≠ 0) ↔ m.Held des := by
      intro des
      have hcount : ∀ d, (next des).count d = (m.withDes des).count d := fun d => by
        rw [count, hmakes.fs des]
        rfl
      simp only [Held, hcount, hparent]
      exact Subtype.forall
    have hstep : (∃ m', step fuel m a = some m' ∧ ∀ d : Below m₀.fs.des, m'.count d.1 ≠ 0) ↔
        m.Can a ∧ ∃ des, R des ∧ m.Held des := by
      constructor
      · rintro ⟨m', hm, hcount⟩
        obtain ⟨hcan, des, hdes, rfl⟩ := (hmakes.step_iff m').mp hm
        exact ⟨hcan, des, hdes, (hafter des).mp hcount⟩
      · rintro ⟨hcan, des, hdes, hholds⟩
        exact ⟨_, (hmakes.step_iff _).mpr ⟨hcan, des, hdes, rfl⟩, (hafter des).mpr hholds⟩
    rw [hstep]
    refine and_congr_right fun hcan => (hmakes.effect hcan).exists_iff.trans ?_
    constructor
    · rintro hroom ⟨d, hd⟩
      rw [← hparent] at hd
      rw [hmakes.dropped hcan d hd, hmakes.peak hcan d hd]
      exact hroom d hd
    · intro hroom d hd
      rw [← hmakes.dropped hcan d hd, ← hmakes.peak hcan d hd]
      exact hroom ⟨d, (hparent d).mp hd⟩
  step_spec m a m' := by
    rintro ⟨h, htree⟩ halive hstep hafter
    have henabled : m.Enabled a := by
      by_contra hnot
      rw [step, if_neg hnot] at hstep
      cases hstep
    have hheld : m.Held m.fs.des := held_of_sameTree htree (fun _ => rfl) halive
    obtain ⟨R, next, t, r, p, hmakes⟩ := step_effect h hheld henabled
    obtain ⟨hcan, des, hdes, rfl⟩ := (hmakes.step_iff m').mp hstep
    have hfs : (next des).fs.des = des := by rw [hmakes.fs des]
    have hcount : ∀ d, (next des).count d = (m.withDes des).count d := fun d => by
      rw [count, hmakes.fs des]
      rfl
    have hholds : m.Held des := by
      rw [← hfs]
      exact held_of_sameTree htree (fun d => by rw [hcount, hfs]) hafter
    obtain ⟨htree', hchange⟩ := (hmakes.effect hcan).spec des hdes hholds
    refine ⟨⟨hmakes.sound hcan des htree', ?_⟩, ?_⟩
    · rw [hfs]
      exact htree.trans htree'
    · rintro ⟨d, hd⟩
      rw [← htree.parentOf] at hd
      refine ⟨?_, hmakes.owners hcan des htree' d hd⟩
      rw [hcount, hmakes.dropped hcan d hd, hmakes.taken hcan d hd]
      exact hchange d hd

/-! ### Runs -/

/-- Nothing is outstanding: all has been forgotten, released and answered, and no downloader's
    thread runs. -/
structure Quiet (m : Mount ι) : Prop where
  nlookup : ∀ d, m.fs.des.parentOf d ≠ none → m.nlookup (m.fs.des.inodeOf d) = 0
  files : ∀ f ∈ m.files, f.released = true ∧ f.running = false ∧ f.reads = 0
  dirs : ∀ o ∈ m.dirs, o.released = true

/-- Every direntry but the root has a count that is not 0. -/
def Alive (m : Mount ι) : Prop := ∀ d, m.fs.des.parentOf d ≠ none → m.count d ≠ 0

/-- The kernel keeps to the protocol for as long as nothing goes wrong. -/
def Legal (fuel : Nat) (m : Mount ι) (ls : List (Label ι)) : Prop :=
  ∀ pre a t, pre ++ [a] <+: ls → exec (step fuel) m pre = some t → t.Enabled a

/-- The run goes through, no count of a direntry below the root ever reaches 0, and in the end all
    are what they were. -/
def Balanced (fuel : Nat) (m : Mount ι) (ls : List (Label ι)) : Prop :=
  ∃ m', exec (step fuel) m ls = some m' ∧
    (∀ pre t, pre <+: ls → exec (step fuel) m pre = some t → ∀ d, m.fs.des.parentOf d ≠ none →
      t.count d ≠ 0) ∧
    ∀ d, m.fs.des.parentOf d ≠ none → m'.count d = m.count d

/-- Each step can be made. By the books, which say that a direntry has the copies that it has had at
    the start, those that are owned and those that have been leaked, less those overdrawn, a step
    leaves something of each, and can count what it takes in addition. In the end the leaks and the
    overdrafts of each direntry are the same. -/
def Offset (fuel : Nat) (m : Mount ι) (ls : List (Label ι)) : Prop :=
  (∀ pre a t, pre ++ [a] <+: ls → exec (step fuel) m pre = some t → t.Can a ∧
    ∀ d, m.fs.des.parentOf d ≠ none →
      total (step fuel) (overdrawn d) m pre + dropped d t a <
          m.count d + owners d t + total (step fuel) (leaked d) m pre ∧
        m.count d + owners d t + total (step fuel) (leaked d) m pre + peak fuel d t a <
          total (step fuel) (overdrawn d) m pre + 2 ^ 32) ∧
  ∀ d, m.fs.des.parentOf d ≠ none →
    total (step fuel) (overdrawn d) m ls = total (step fuel) (leaked d) m ls

/-- Nothing is owned where nothing is outstanding. -/
theorem Quiet.owners_eq_zero (h : m.Quiet) {d : ι} (hd : m.fs.des.parentOf d ≠ none) :
    m.owners d = 0 := by
  have hfiles : (m.files.map (·.holds d)).sum = 0 := by
    refine List.sum_eq_zero fun n hn => ?_
    obtain ⟨f, hf, rfl⟩ := List.mem_map.mp hn
    obtain ⟨hreleased, hrunning, -⟩ := h.files f hf
    simp [OpenFileCtxt.holds, hreleased, hrunning]
  have hdirs : (m.dirs.map (·.holds d)).sum = 0 := by
    refine List.sum_eq_zero fun n hn => ?_
    obtain ⟨o, ho, rfl⟩ := List.mem_map.mp hn
    simp [OpenDir.holds, h.dirs o ho]
  rw [owners, h.nlookup d hd, hfiles, hdirs]

/-- The books of a run that starts with nothing outstanding. -/
theorem Quiet.solvent_iff (h : m.Quiet) :
    (accounting fuel m).Solvent m ls ↔
      ∀ pre a t, pre ++ [a] <+: ls → exec (step fuel) m pre = some t → t.Can a ∧
        ∀ d, m.fs.des.parentOf d ≠ none →
          total (step fuel) (overdrawn d) m pre + dropped d t a <
              m.count d + owners d t + total (step fuel) (leaked d) m pre ∧
            m.count d + owners d t + total (step fuel) (leaked d) m pre + peak fuel d t a <
              total (step fuel) (overdrawn d) m pre + 2 ^ 32 := by
  refine forall₃_congr fun pre a t => forall₂_congr fun _ _ => and_congr_right fun _ => ?_
  rw [Subtype.forall]
  refine forall₂_congr fun d hd => ?_
  show owners d m + _ + _ < _ ∧ _ < owners d m + _ + _ ↔ _
  rw [h.owners_eq_zero hd, Nat.zero_add]
  rfl

/-- The handlers balance a run exactly when each step can be made, and its leaks and overdrafts are
    offset against each other. -/
theorem exec_balanced_iff (fuel : Nat) (m : Mount ι) (ls : List (Label ι)) (h : m.Sound fuel)
    (halive : m.Alive) (hstart : m.Quiet) (hlegal : Legal fuel m ls)
    (hend : ∀ m', exec (step fuel) m ls = some m' → m'.Quiet) :
    Balanced fuel m ls ↔ Offset fuel m ls := by
  have hinv : (accounting fuel m).Inv m := ⟨h, .refl _⟩
  have halive' : (accounting fuel m).Alive m := fun d => halive d.1 d.2
  have hgoes := RefCounted.goesThrough_iff hinv halive' hlegal
  rw [hstart.solvent_iff] at hgoes
  have hthrough : Throughout (step fuel) (accounting fuel m).Alive m ls ↔
      ∀ pre t, pre <+: ls → exec (step fuel) m pre = some t → ∀ d, m.fs.des.parentOf d ≠ none →
        t.count d ≠ 0 :=
    forall₂_congr fun pre t => forall₂_congr fun _ _ => Subtype.forall
  -- once the counts are held, the books tell what they are at the end
  have hrestored : Throughout (step fuel) (accounting fuel m).Alive m ls → ∀ m',
      exec (step fuel) m ls = some m' → ∀ d, m.fs.des.parentOf d ≠ none →
        (m'.count d = m.count d ↔
          total (step fuel) (overdrawn d) m ls = total (step fuel) (leaked d) m ls) := by
    intro hheld m' hexec d hd
    obtain ⟨⟨-, htree⟩, hbal⟩ := RefCounted.balance hinv hheld ls m' List.prefix_rfl hexec
    have hbooks : m'.count d + m.owners d + total (step fuel) (overdrawn d) m ls =
        m.count d + m'.owners d + total (step fuel) (leaked d) m ls := hbal ⟨d, hd⟩
    have hd' : m'.fs.des.parentOf d ≠ none := by rwa [htree.parentOf]
    rw [hstart.owners_eq_zero hd, (hend m' hexec).owners_eq_zero hd'] at hbooks
    omega
  constructor
  · rintro ⟨m', hexec, hheld, hcounts⟩
    rw [← hthrough] at hheld
    refine ⟨hgoes.mp ⟨by rw [hexec]; rfl, hheld⟩, fun d hd => ?_⟩
    exact (hrestored hheld m' hexec d hd).mp (hcounts d hd)
  · rintro ⟨hsolvent, hsettled⟩
    obtain ⟨hsome, hheld⟩ := hgoes.mpr hsolvent
    obtain ⟨m', hexec⟩ := Option.isSome_iff_exists.mp hsome
    exact ⟨m', hexec, hthrough.mp hheld, fun d hd =>
      (hrestored hheld m' hexec d hd).mpr (hsettled d hd)⟩

/-! ### Some runs -/

/-- A file system that nothing is known of, and nothing of which is open. -/
def atRest (fs : Nativefs ι) : Mount ι := ⟨fs, fun _ => 0, [], []⟩

omit [DecidableEq ι] in
/-- A mount at rest has nothing open. -/
theorem quiet_atRest (fs : Nativefs ι) : (atRest fs).Quiet :=
  ⟨fun _ _ => rfl, by simp [atRest], by simp [atRest]⟩

/-- So the sample, and the fresh one, may be mounted. -/
theorem sound_threeLevels : (atRest (Nativefs.threeLevels 2)).Sound 1 where
  rooted := Nativefs.rooted_threeLevels 2
  counted := by decide +kernel
  parents := by decide +kernel
  -- the one child of each directory, and none of the file
  children d cs hchain := by
    fin_cases d
    · obtain rfl := hchain.unique (.cons .nil : Chain (Nativefs.threeLevels 2).des.nextOf _ [1])
      exact ⟨by decide +kernel, le_rfl⟩
    · obtain rfl := hchain.unique (.cons .nil : Chain (Nativefs.threeLevels 2).des.nextOf _ [2])
      exact ⟨by decide +kernel, le_rfl⟩
    · obtain rfl := hchain.unique (.cons .nil : Chain (Nativefs.threeLevels 2).des.nextOf _ [3])
      exact ⟨by decide +kernel, le_rfl⟩
    · obtain rfl := hchain.unique .nil
      exact ⟨by decide +kernel, Nat.zero_le 1⟩
  mapped ino hino := by
    -- the inodes 1 to 4 have been given out
    by_cases hlt : ino < 5
    · interval_cases ino
      · exact absurd rfl hino
      · exact .inr ⟨0, rfl, by decide +kernel, rfl⟩
      · exact .inr ⟨1, rfl, by decide +kernel, rfl⟩
      · exact .inr ⟨2, rfl, by decide +kernel, rfl⟩
      · exact .inr ⟨3, rfl, by decide +kernel, rfl⟩
    · exact .inl (if_neg hlt)
  inodes := by decide +kernel
  nlookup ino hino := absurd rfl hino
  files := by simp [atRest]
  dirs := by simp [atRest]

/-- The root alone is a sound mount. -/
theorem sound_rootOnly : (atRest (Nativefs.rootOnly false)).Sound 0 where
  rooted :=
    { isForest := ⟨Set.univ, fun _ _ => Set.mem_univ _, isForest_of_lt (Set.toFinite _)
        (fun _ _ => Set.mem_univ _) (fun _ _ hlink => nomatch hlink)⟩
      root := fun _ _ _ => ⟨rfl, rfl⟩
      chain := fun _ _ => ⟨[], .nil, by simp⟩ }
  counted := by decide +kernel
  parents := by decide +kernel
  -- there are no children yet
  children d cs hchain := by
    obtain rfl := hchain.unique .nil
    exact ⟨by simp, le_rfl⟩
  mapped ino hino := by
    by_cases hlt : ino < 2
    · obtain rfl : ino = 1 := by omega
      exact .inr ⟨(), rfl, by decide +kernel, rfl⟩
    · exact .inl (if_neg hlt)
  inodes := by decide +kernel
  nlookup ino hino := absurd rfl hino
  files := by simp [atRest]
  dirs := by simp [atRest]

instance [Fintype ι] (m : Mount ι) (ino : Nat) : Decidable (m.BelowRoot ino) :=
  inferInstanceAs (Decidable (∀ _, _ → _))

instance [Fintype ι] (m : Mount ι) : Decidable m.Alive :=
  inferInstanceAs (Decidable (∀ _, _ → _))

instance [Fintype ι] (m : Mount ι) : DecidablePred m.Can
  | .lookup .. => inferInstanceAs (Decidable (_ ∧ ∀ _, _ → _))
  | .open_ ino _ | .opendir ino _ => inferInstanceAs (Decidable (m.BelowRoot ino))
  | .readdir fh _ => inferInstanceAs (Decidable (∀ o ∈ m.dirs[fh]?, _ ∧ ∀ _, _ → _))
  | .getattr fh => inferInstanceAs (Decidable (fh ≠ none))
  | .forget .. | .read _ | .chunkDone _ | .threadDelete _ | .release _ | .releasedir _ =>
    isTrue trivial

instance [Fintype ι] (m : Mount ι) : Decidable m.Quiet :=
  decidable_of_iff
    ((∀ d, m.fs.des.parentOf d ≠ none → m.nlookup (m.fs.des.inodeOf d) = 0) ∧
      (∀ f ∈ m.files, f.released = true ∧ f.running = false ∧ f.reads = 0) ∧
      ∀ o ∈ m.dirs, o.released = true)
    ⟨fun h => ⟨h.1, h.2.1, h.2.2⟩, fun h => ⟨h.1, h.2, h.3⟩⟩

/-- A call that would write to a file fails, and leaks the copy that the next release of it takes
    too many. -/
theorem exec_balanced_failed_open : Balanced 1 (atRest (Nativefs.threeLevels 2))
    [.open_ 4 1, .open_ 4 0, .release 0, .threadDelete 0] := by
  refine (exec_balanced_iff 1 _ _ sound_threeLevels (by decide +kernel) (quiet_atRest _)
    (forall_step_iff.mp (by decide +kernel)) (by decide +kernel)).mpr ⟨?_, by decide +kernel⟩
  -- no point of the run is overdrawn by more than is owned
  exact forall_step_iff.mp (by decide +kernel)

/-- The first lookup in a fresh root stops the daemon. And a file that is there, of which there are
    two copies, is left with one when it has been opened and released. -/
theorem exec_not_balanced_release :
    ((atRest (Nativefs.rootOnly false)).Sound 0 ∧ (atRest (Nativefs.rootOnly false)).Quiet ∧
      Legal 0 (atRest (Nativefs.rootOnly false))
        [.lookup 1 ⟨ascii "a", by decide⟩ fun _ _ => Nativefs.nothingFound] ∧
      ¬ Balanced 0 (atRest (Nativefs.rootOnly false))
        [.lookup 1 ⟨ascii "a", by decide⟩ fun _ _ => Nativefs.nothingFound]) ∧
    (atRest (Nativefs.threeLevels 2)).Sound 1 ∧ (atRest (Nativefs.threeLevels 2)).Alive ∧
      (atRest (Nativefs.threeLevels 2)).Quiet ∧
      Legal 1 (atRest (Nativefs.threeLevels 2)) [.open_ 4 0, .release 0, .threadDelete 0] ∧
      (∃ m', exec (step 1) (atRest (Nativefs.threeLevels 2))
        [.open_ 4 0, .release 0, .threadDelete 0] = some m' ∧ m'.Quiet) ∧
      ¬ Balanced 1 (atRest (Nativefs.threeLevels 2)) [.open_ 4 0, .release 0, .threadDelete 0] := by
  -- a lookup below a fresh root, and a file whose `release` gives back one copy too many
  let fresh : List (Label Unit) :=
    [.lookup 1 ⟨ascii "a", by decide⟩ fun _ _ => Nativefs.nothingFound]
  let opened : List (Label (Fin 4)) := [.open_ 4 0, .release 0, .threadDelete 0]
  have hstops : exec (step 0) (atRest (Nativefs.rootOnly false)) fresh = none := by rfl
  have hsome : (exec (step 1) (atRest (Nativefs.threeLevels 2)) opened).isSome := by
    decide +kernel
  have hend : ∀ t ∈ exec (step 1) (atRest (Nativefs.threeLevels 2)) opened, t.Quiet ∧
      t.count 3 ≠ (atRest (Nativefs.threeLevels 2)).count 3 := by decide +kernel
  obtain ⟨m', hexec⟩ := Option.isSome_iff_exists.mp hsome
  refine ⟨⟨sound_rootOnly, quiet_atRest _, forall_step_iff.mp (by decide +kernel), ?_⟩,
    sound_threeLevels, by decide +kernel, quiet_atRest _, forall_step_iff.mp (by decide +kernel),
    ⟨m', hexec, (hend m' hexec).1⟩, ?_⟩
  · rintro ⟨m', hfresh, -⟩
    rw [hstops] at hfresh
    cases hfresh
  · rintro ⟨m'', hopened, -, hcounts⟩
    exact (hend m'' hopened).2 (hcounts 3 (by decide +kernel))

end Fsfuse.Native.Mount
