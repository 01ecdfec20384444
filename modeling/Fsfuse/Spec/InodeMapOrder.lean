import Fsfuse.ForStd.Transition
import Fsfuse.Native.InodeMap

/-!
# The inode map and the order of additions

Whatever the threads that make direntries do in turn, the inode map is meant to find each
direntry that has been added, and nothing under an inode that has not been.

`inode_map_add` takes the inode it is given for the last one there is, and the array to be long
enough for it after one step of growth. That is so as long as direntries are added in the order
in which their inodes were handed out; the first that overtakes another leaves a slot
that counts as used and has not been written.

* `Inv` — what the map is like as long as nothing has been overtaken;
* `exec_new_right_iff` — the map is right throughout a run exactly when nothing is.
-/

namespace Fsfuse.Native.InodeMap.State

open Transition

variable {δ τ : Type*} {s s' : State δ τ}

/-- Nothing has gone wrong, each direntry that has been added is found, and under any other inode
    there is none. The first inode is that of the root. It is left out: to find the root is to copy
    it, and that stops the daemon whatever the map is like. -/
def Right (s : State δ τ) : Prop :=
  s.fault = none ∧
    (∀ inode de, inode ≠ fsfuseRootInode → (inode, de) ∈ s.added →
      s.map.inodeMapGet inode = .ok (some de)) ∧
    ∀ inode, fsfuseRootInode ≤ inode → (∀ de, (inode, de) ∉ s.added) →
      s.map.inodeMapGet inode = .ok none

/-- An addition is of the next inode that has not been added. -/
def InOrder (s : State δ τ) : Label δ τ → Prop
  | .inodeNext _ _ => True
  | .inodeMapAdd t => ∀ inode de, s.pending t = some (inode, de) → inode = s.map.used

instance (s : State δ τ) : DecidablePred (InOrder s)
  | .inodeNext _ _ => isTrue trivial
  | .inodeMapAdd t =>
    decidable_of_iff (∀ p ∈ s.pending t, p.1 = s.map.used)
      ⟨fun h inode de hpending => h (inode, de) hpending, fun h p hp => h p.1 p.2 hp⟩

/-- What has been added are the inodes from the root's to the last used, and those handed out
    since are all different. -/
structure Inv (s : State δ τ) : Prop where
  fault : s.fault = none
  root : fsfuseRootInode < s.map.used
  next : s.map.used ≤ s.map.inodeNext
  filled : ∀ inode, fsfuseRootInode ≤ inode → inode < s.map.used →
    ∃ de, (inode, de) ∈ s.added
  stored : ∀ inode de, (inode, de) ∈ s.added →
    inode < s.map.used ∧ s.map.slots[inode]? = some (some de)
  size : s.map.used ≤ s.map.slots.length
  pending : ∀ t inode de, s.pending t = some (inode, de) →
    s.map.used ≤ inode ∧ inode < s.map.inodeNext
  distinct : ∀ t t' inode de de', s.pending t = some (inode, de) →
    s.pending t' = some (inode, de') → t = t'

/-! ### What the map finds -/

/-- An inode that has not been stored is not found. -/
theorem inodeMapGet_of_le {map : InodeMap δ} {inode : Nat} (h : map.used ≤ inode) :
    map.inodeMapGet inode = .ok none := if_neg (Nat.not_lt.mpr h)

/-- An inode that has been stored is found. -/
theorem inodeMapGet_of_stored {map : InodeMap δ} {inode : Nat} {de : δ} (h : inode < map.used)
    (hslot : map.slots[inode]? = some (some de)) :
    map.inodeMapGet inode = .ok (some de) := by
  rw [inodeMapGet, if_pos h, hslot]

/-- What is below the mark is never found to be nothing. -/
theorem inodeMapGet_ne_none {map : InodeMap δ} {inode : Nat} (h : inode < map.used) :
    map.inodeMapGet inode ≠ .ok none := by
  rw [inodeMapGet, if_pos h]
  split <;> simp

/-- Whatever is added last becomes the mark. -/
theorem used_of_inodeMapAdd {map map' : InodeMap δ} {inode : Nat} {de : δ}
    (h : map.inodeMapAdd inode de = .ok map') : map'.used = inode + 1 := by
  unfold inodeMapAdd at h
  extract_lets slots at h
  split at h
  · obtain rfl := Except.ok.inj h
    rfl
  · cases h

/-- By the invariant every inode is found as the direntry that it was given to. -/
theorem Inv.right (h : Inv s) : Right s := by
  refine ⟨h.fault, fun inode de _ hadded => ?_, fun inode hroot hnone => ?_⟩
  · obtain ⟨hused, hslot⟩ := h.stored inode de hadded
    exact inodeMapGet_of_stored hused hslot
  · refine inodeMapGet_of_le (Nat.not_lt.mp fun hused => ?_)
    obtain ⟨de, hadded⟩ := h.filled inode hroot hused
    exact hnone de hadded

/-- Slot 0 is below the mark and is never written: 0 is no inode. -/
theorem inodeMapGet_zero (root : δ) :
    (new root : State δ τ).map.inodeMapGet 0 = .error .outOfBounds := rfl

/-- A new map has its root at inode 0. -/
theorem new_inv (root : δ) : Inv (new root : State δ τ) where
  fault := rfl
  root := Nat.lt_succ_self _
  next := Nat.le_refl _
  filled := by
    intro inode hroot hused
    obtain rfl : inode = fsfuseRootInode := Nat.le_antisymm (Nat.lt_succ_iff.mp hused) hroot
    exact ⟨root, List.mem_singleton_self _⟩
  stored := by
    intro inode de hadded
    cases List.mem_singleton.mp hadded
    exact ⟨Nat.lt_succ_self _, rfl⟩
  size := by simp [new, inodeMapMod]
  pending := nofun
  distinct := nofun

/-! ### Steps -/

variable [DecidableEq τ]

/-- What taking an inode does. -/
theorem step_inodeNext {t : τ} {de : δ} :
    step s (.inodeNext t de) = some s' ↔
      (s.fault = none ∧ s.pending t = none) ∧
        { s with
          map := { s.map with inodeNext := s.map.inodeNext + 1 }
          pending := Function.update s.pending t (some (s.map.inodeNext, de)) } = s' := by
  simp [step, inodeNextStep]

/-- What storing a direntry does. -/
theorem step_inodeMapAdd {t : τ} :
    step s (.inodeMapAdd t) = some s' ↔
      ∃ inode de, s.pending t = some (inode, de) ∧ s.fault = none ∧
        ((∃ map, s.map.inodeMapAdd inode de = .ok map ∧
            { map
              pending := Function.update s.pending t none
              added := s.added ++ [(inode, de)]
              fault := none } = s') ∨
          ∃ fault, s.map.inodeMapAdd inode de = .error fault ∧
            { s with fault := some fault } = s') := by
  cases hpending : s.pending t with
  | none => simp [step, hpending]
  | some p =>
    obtain ⟨inode, de⟩ := p
    cases hadd : s.map.inodeMapAdd inode de with
    | ok map => simp [step, hpending, hadd]
    | error fault => simp [step, hpending, hadd]

/-- The next inode always fits after one step of growth. -/
theorem inodeMapAdd_used {map : InodeMap δ} (hsize : map.used ≤ map.slots.length) (de : δ) :
    ∃ slots, map.inodeMapAdd map.used de = .ok { map with slots, used := map.used + 1 } ∧
      map.used < slots.length ∧ slots[map.used]? = some (some de) ∧
      ∀ inode < map.used, slots[inode]? = map.slots[inode]? := by
  -- of the slots after the growth, if there is any, those there were are kept
  have hset : ∀ slots : List (Option δ), map.used < slots.length →
      (∀ inode < map.used, slots[inode]? = map.slots[inode]?) →
      map.used < (slots.set map.used (some de)).length ∧
        (slots.set map.used (some de))[map.used]? = some (some de) ∧
        ∀ inode < map.used, (slots.set map.used (some de))[inode]? = map.slots[inode]? := by
    intro slots hlt hsame
    refine ⟨by rwa [List.length_set], by simp [hlt], fun inode hinode => ?_⟩
    rw [List.getElem?_set_ne (Nat.ne_of_gt hinode), hsame inode hinode]
  unfold inodeMapAdd
  split
  · have hlt : map.used < (map.slots ++ List.replicate inodeMapMod none).length := by
      simp only [List.length_append, List.length_replicate, inodeMapMod]
      omega
    exact ⟨_, if_pos hlt, hset _ hlt fun inode hinode => List.getElem?_append_left (by omega)⟩
  · rename_i hge
    have hlt : map.used < map.slots.length := Nat.not_le.mp hge
    exact ⟨_, if_pos hlt, hset _ hlt fun _ _ => rfl⟩

/-- Steps in order keep the invariant. -/
theorem Inv.step {a : Label δ τ} (h : Inv s) (horder : InOrder s a)
    (hstep : s.step a = some s') : Inv s' := by
  cases a with
  | inodeNext t de =>
    obtain ⟨⟨hfault, hnone⟩, rfl⟩ := step_inodeNext.mp hstep
    have hnext := h.next
    -- the inode handed out is larger than those that are pending
    have hnew : ∀ t' inode de', t' ≠ t →
        Function.update s.pending t (some (s.map.inodeNext, de)) t' = some (inode, de') →
        s.pending t' = some (inode, de') ∧ inode < s.map.inodeNext := by
      intro t' inode de' hne hpending
      rw [Function.update_of_ne hne] at hpending
      exact ⟨hpending, (h.pending t' inode de' hpending).2⟩
    have hself : ∀ inode de',
        Function.update s.pending t (some (s.map.inodeNext, de)) t = some (inode, de') →
        inode = s.map.inodeNext := by
      intro inode de' hpending
      rw [Function.update_self] at hpending
      cases hpending
      rfl
    refine { h with next := by dsimp only; omega, pending := ?_, distinct := ?_ }
    · intro t' inode de' hpending
      dsimp only at hpending ⊢
      by_cases hne : t' = t
      · subst hne
        rw [hself inode de' hpending]
        omega
      · obtain ⟨hold, hlt⟩ := hnew t' inode de' hne hpending
        have := (h.pending t' inode de' hold).1
        omega
    · intro t₁ t₂ inode de₁ de₂ h₁ h₂
      by_cases hne₁ : t₁ = t <;> by_cases hne₂ : t₂ = t
      · rw [hne₁, hne₂]
      · subst hne₁
        have := hself inode de₁ h₁
        have := (hnew t₂ inode de₂ hne₂ h₂).2
        omega
      · subst hne₂
        have := hself inode de₂ h₂
        have := (hnew t₁ inode de₁ hne₁ h₁).2
        omega
      · exact h.distinct t₁ t₂ inode de₁ de₂ (hnew t₁ inode de₁ hne₁ h₁).1
          (hnew t₂ inode de₂ hne₂ h₂).1
  | inodeMapAdd t =>
    obtain ⟨inode, de, hpending, -, hadd⟩ := step_inodeMapAdd.mp hstep
    obtain rfl := horder inode de hpending
    obtain ⟨slots, hok, hlen, hslot, hrest⟩ := inodeMapAdd_used h.size de
    have hlt := (h.pending t s.map.used de hpending).2
    rcases hadd with ⟨map, hmap, rfl⟩ | ⟨fault, herror, -⟩
    · rw [hok] at hmap
      obtain rfl := Except.ok.inj hmap
      -- another thread that has been given an inode has a larger one
      have hother : ∀ t' inode' de', Function.update s.pending t none t' = some (inode', de') →
          s.pending t' = some (inode', de') ∧ s.map.used ≠ inode' := by
        intro t' inode' de' h'
        by_cases hne : t' = t
        · subst hne
          rw [Function.update_self] at h'
          cases h'
        · rw [Function.update_of_ne hne] at h'
          refine ⟨h', ?_⟩
          rintro rfl
          exact hne (h.distinct t' t _ de' de h' hpending)
      have hroot := h.root
      constructor <;> dsimp only
      · omega
      · omega
      · intro inode' hroot hused
        by_cases heq : inode' = s.map.used
        · subst heq
          exact ⟨de, List.mem_append_right _ (List.mem_singleton_self _)⟩
        · obtain ⟨de', hmem⟩ := h.filled inode' hroot (by omega)
          exact ⟨de', List.mem_append_left _ hmem⟩
      · intro inode' de' hmem
        rcases List.mem_append.mp hmem with hmem | hmem
        · obtain ⟨hused, hslot'⟩ := h.stored inode' de' hmem
          exact ⟨by omega, by rw [hrest inode' hused]; exact hslot'⟩
        · cases List.mem_singleton.mp hmem
          exact ⟨by omega, hslot⟩
      · omega
      · intro t' inode' de' h'
        obtain ⟨hold, hne⟩ := hother t' inode' de' h'
        have := h.pending t' inode' de' hold
        omega
      · intro t₁ t₂ inode' de₁ de₂ h₁ h₂
        exact h.distinct t₁ t₂ inode' de₁ de₂ (hother t₁ inode' de₁ h₁).1
          (hother t₂ inode' de₂ h₂).1
    · rw [hok] at herror
      cases herror

/-- A step that leaves the map right has been in order: an inode that is passed over is
    below the mark afterwards, and has not been added. -/
theorem Inv.inOrder {a : Label δ τ} (h : Inv s) (hstep : s.step a = some s')
    (hright : Right s') : InOrder s a := by
  cases a with
  | inodeNext t de => trivial
  | inodeMapAdd t =>
    intro inode de hpending
    obtain ⟨inode', de', hpending', -, hadd⟩ := step_inodeMapAdd.mp hstep
    rw [hpending] at hpending'
    cases hpending'
    have hge := (h.pending t inode de hpending).1
    obtain ⟨hfault, -, hnone⟩ := hright
    rcases hadd with ⟨map, hmap, rfl⟩ | ⟨fault, herror, rfl⟩
    · have hused := used_of_inodeMapAdd hmap
      refine Nat.le_antisymm (Nat.not_lt.mp fun hlt => ?_) hge
      -- the mark of before has not been added, neither then nor now
      have hused' : s.map.used < map.used := by omega
      apply inodeMapGet_ne_none hused'
      refine hnone s.map.used ?_ fun de' hmem => ?_
      · exact Nat.le_of_lt h.root
      · rcases List.mem_append.mp hmem with hmem | hmem
        · exact absurd (h.stored _ de' hmem).1 (Nat.lt_irrefl _)
        · cases List.mem_singleton.mp hmem
          exact absurd hlt (Nat.lt_irrefl _)
    · cases hfault

/-! ### Runs -/

/-- From the start of the daemon, the map is right throughout a run exactly when direntries
    are added in the order in which their inodes were handed out. -/
theorem exec_new_right_iff (root : δ) (ls : List (Label δ τ)) (s : State δ τ)
    (hexec : exec State.step (new root) ls = some s) :
    Throughout State.step Right (new root) ls ↔ StepsMeet State.step InOrder (new root) ls :=
  throughout_iff_stepsMeet (fun _ h => Inv.right h)
    (fun _ _ _ h horder hstep => Inv.step h horder hstep)
    (fun _ _ _ h hstep hright => Inv.inOrder h hstep hright) (new_inv root) hexec

/-- Two threads are handed inodes in turn and add their direntries in turn. -/
theorem exec_new_right_in_turn :
    Throughout State.step Right (new 100 : State Nat Bool)
      [.inodeNext true 101, .inodeNext false 102, .inodeMapAdd true, .inodeMapAdd false] := by
  have hsome : (exec State.step (new 100 : State Nat Bool) [.inodeNext true 101,
      .inodeNext false 102, .inodeMapAdd true, .inodeMapAdd false]).isSome := by decide +kernel
  obtain ⟨s, hexec⟩ := Option.isSome_iff_exists.mp hsome
  exact (exec_new_right_iff 100 _ s hexec).mpr (by decide +kernel)

/-- The second is faster. -/
theorem exec_new_not_right_overtaken :
    ¬ Throughout State.step Right (new 100 : State Nat Bool)
      [.inodeNext true 101, .inodeNext false 102, .inodeMapAdd false] := by
  intro hthr
  have hlast : (exec State.step (new 100 : State Nat Bool) [.inodeNext true 101,
      .inodeNext false 102, .inodeMapAdd false]).map
        (fun s => (s.map.inodeMapGet 2, s.added)) =
      some (.error .outOfBounds, [(1, 100), (3, 102)]) := by decide +kernel
  obtain ⟨s, hexec, hs⟩ := Option.map_eq_some_iff.mp hlast
  obtain ⟨-, -, hnone⟩ : Right s := hthr _ s List.prefix_rfl hexec
  simp only [Prod.mk.injEq] at hs
  -- inode 2 has not been added, but counts as used
  have hget := hnone 2 (by decide) (by simp [hs.2])
  rw [hs.1] at hget
  cases hget

end Fsfuse.Native.InodeMap.State
