import Fsfuse.ForStd.Transition
import Fsfuse.Native.IndexnodesLists

/-!
# Replacing the shared list of indexnodes

`indexnodes_get` deletes the list that `ins->list` still denotes and then stores its
replacement. Two things are shown of this.

* `exec_new_safe_iff` — no list is ever deleted twice or used after its deletion, and
  `ins->list` always denotes a live list, exactly in the runs in which nobody gets as
  far as deleting the old list.
* `exec_new_orderly` — what is needed for the replacement to work but for the moment
  between the deletion and the store: nobody else has the old list in hand when it is
  deleted, and nobody reads `ins->list` in that moment. The lock, held for reading,
  provides neither.
-/

namespace Fsfuse.Native.IndexnodesLists

open Transition

variable {ι : Type} {s s' : State ι}

/-! ### What a step does -/

/-- The list that a thread has read from `ins->list` and is about to use. -/
def inHand : Phase → Option Nat
  | .filtering orig | .filtered orig _ | .copying orig => some orig
  | .searching list _ | .adding list _ => some list
  | _ => none

/-- The list that a thread has built and is about to store in `ins->list`. -/
def built : Phase → Option Nat
  | .filtered _ ret | .deleted ret => some ret
  | _ => none

/-- Reading `ins->list`. -/
def Reads : Label ι → Prop
  | .readToFilter _ | .readToCopy _ | .readToSearch _ _ _ _ _ | .readToAdd _ => True
  | _ => False

/-- What a step of thread `t` to `phase` can do to the lists: nothing, or a reading of
    `ins->list`, or the last use of the list in hand, or one of the three stages of a
    replacement. -/
inductive Does (s s' : State ι) (l : Label ι) (t : ι) (phase : Phase) : Prop
  | moves (before : ∀ ret, s.phase t ≠ .deleted ret)
      (hand : inHand phase = none) (built : built phase = none)
      (list : s'.list = s.list) (deleted : s'.deleted = s.deleted)
      (misused : s'.misused = s.misused) (lists : s'.lists.length = s.lists.length)
  | reads (label : Reads l) (before : ∀ ret, s.phase t ≠ .deleted ret)
      (hand : inHand phase = some s.list) (built : built phase = none)
      (list : s'.list = s.list) (deleted : s'.deleted = s.deleted)
      (misused : s'.misused = s.misused) (lists : s'.lists.length = s.lists.length)
  | uses (used : Nat) (before : inHand (s.phase t) = some used)
      (hand : inHand phase = none) (built : built phase = none)
      (list : s'.list = s.list) (deleted : s'.deleted = s.deleted)
      (misused : s'.misused = (s.use used).misused) (lists : s.lists.length ≤ s'.lists.length)
  | filters (orig : Nat) (before : inHand (s.phase t) = some orig)
      (after : phase = .filtered orig s.lists.length)
      (list : s'.list = s.list) (deleted : s'.deleted = s.deleted)
      (misused : s'.misused = (s.use orig).misused) (lists : s'.lists.length = s.lists.length + 1)
  | deletes (orig ret : Nat) (label : l = .delete t) (before : s.phase t = .filtered orig ret)
      (after : phase = .deleted ret)
      (list : s'.list = s.list) (deleted : s'.deleted = s.deleted ++ [orig])
      (misused : s'.misused = s.misused) (lists : s'.lists.length = s.lists.length)
  | stores (ret : Nat) (before : s.phase t = .deleted ret) (after : phase = .stored)
      (list : s'.list = ret) (deleted : s'.deleted = s.deleted)
      (misused : s'.misused = s.misused) (lists : s'.lists.length = s.lists.length)

@[simp] theorem use_list (s : State ι) (l : Nat) : (s.use l).list = s.list := by
  rw [State.use]; split <;> rfl

@[simp] theorem use_deleted (s : State ι) (l : Nat) : (s.use l).deleted = s.deleted := by
  rw [State.use]; split <;> rfl

@[simp] theorem use_lists (s : State ι) (l : Nat) : (s.use l).lists = s.lists := by
  rw [State.use]; split <;> rfl

@[simp] theorem use_phase (s : State ι) (l : Nat) : (s.use l).phase = s.phase := by
  rw [State.use]; split <;> rfl

section Steps

variable [DecidableEq ι]

omit [DecidableEq ι] in
/-- Using a list that has not been deleted changes nothing. -/
theorem use_eq_self {list : Nat} (h : list ∉ s.deleted) : s.use list = s := by
  rw [State.use, if_neg h]

/-- Every step is a step of one thread that does one of these things. -/
theorem step_does {l : Label ι} (hstep : s.step l = some s') :
    ∃ t phase, s'.phase = Function.update s.phase t phase ∧ Does s s' l t phase := by
  cases l with
  | rlock t =>
    simp only [State.step] at hstep
    split at hstep
    · rename_i hphase
      obtain ⟨lock, -, rfl⟩ := Option.map_eq_some_iff.mp hstep
      exact ⟨t, _, rfl, .moves (by simp [hphase]) rfl rfl rfl rfl rfl rfl⟩
    · cases hstep
  | readToFilter t =>
    simp only [State.step] at hstep
    split at hstep
    · rename_i hphase
      obtain rfl := Option.some.inj hstep
      exact ⟨t, _, rfl, .reads trivial (by simp [hphase]) rfl rfl rfl rfl rfl rfl⟩
    · cases hstep
  | filter t now timeout =>
    simp only [State.step] at hstep
    split at hstep
    · rename_i orig hphase
      obtain rfl := Option.some.inj hstep
      -- the new list is the last one made
      refine ⟨t, .filtered orig s.lists.length, ?_,
        .filters orig (by rw [hphase]; rfl) rfl ?_ ?_ ?_ ?_⟩
      · simp [State.goto, State.make]
      · simp [State.goto, State.make]
      · simp [State.goto, State.make]
      · rfl
      · simp [State.goto, State.make]
    · cases hstep
  | delete t =>
    simp only [State.step] at hstep
    split at hstep
    · rename_i orig ret hphase
      obtain rfl := Option.some.inj hstep
      exact ⟨t, _, rfl, .deletes orig ret rfl hphase rfl rfl rfl rfl rfl⟩
    · cases hstep
  | store t =>
    simp only [State.step] at hstep
    split at hstep
    · rename_i ret hphase
      obtain rfl := Option.some.inj hstep
      exact ⟨t, _, rfl, .stores ret hphase rfl rfl rfl rfl rfl⟩
    · cases hstep
  | readToCopy t =>
    simp only [State.step] at hstep
    split at hstep
    · rename_i hphase
      obtain rfl := Option.some.inj hstep
      exact ⟨t, _, rfl, .reads trivial (by simp [hphase]) rfl rfl rfl rfl rfl rfl⟩
    · cases hstep
  | copy t =>
    simp only [State.step] at hstep
    split at hstep
    · rename_i orig hphase
      obtain rfl := Option.some.inj hstep
      refine ⟨t, .copied s.lists.length, ?_, .uses orig (by rw [hphase]; rfl) rfl rfl ?_ ?_ ?_ ?_⟩
      · simp [State.goto, State.make]
      · simp [State.goto, State.make]
      · simp [State.goto, State.make]
      · rfl
      · simp [State.goto, State.make]
    · cases hstep
  | runlock t =>
    simp only [State.step] at hstep
    split at hstep
    · rename_i hphase
      obtain rfl := Option.some.inj hstep
      exact ⟨t, _, rfl, .moves (by simp [hphase]) rfl rfl rfl rfl rfl rfl⟩
    · cases hstep
  | readToSearch t host port fs2protocol id =>
    simp only [State.step] at hstep
    split at hstep
    · rename_i hphase
      split at hstep
      · obtain rfl := Option.some.inj hstep
        exact ⟨t, _, rfl, .reads trivial (by simp [hphase]) rfl rfl rfl rfl rfl rfl⟩
      · cases hstep
      · cases hstep
    · cases hstep
  | search t now =>
    simp only [State.step] at hstep
    split at hstep
    · rename_i list heard hphase
      -- wherever the search leads, it was the last use of the list
      have hgoto : ∀ phase, inHand phase = none → built phase = none →
          s' = (s.use list).goto t phase →
          ∃ u phase, s'.phase = Function.update s.phase u phase ∧
            Does s s' (.search t now) u phase := by
        rintro phase hhand hbuilt rfl
        refine ⟨t, phase, ?_, .uses list (by rw [hphase]; rfl) hhand hbuilt ?_ ?_ rfl ?_⟩
        all_goals simp [State.goto]
      simp only [State.search] at hstep
      split at hstep
      · exact hgoto _ rfl rfl (Option.some.inj hstep).symm
      · split at hstep
        · exact hgoto _ rfl rfl (Option.some.inj hstep).symm
        · exact hgoto _ rfl rfl (Option.some.inj hstep).symm
        · cases hstep
    · cases hstep
  | seen t now =>
    simp only [State.step] at hstep
    split at hstep
    · rename_i hphase
      obtain rfl := Option.some.inj hstep
      exact ⟨t, _, rfl, .moves (by simp [hphase]) rfl rfl rfl rfl rfl rfl⟩
    · cases hstep
  | wlock t =>
    simp only [State.step] at hstep
    split at hstep
    · rename_i hphase
      obtain ⟨lock, -, rfl⟩ := Option.map_eq_some_iff.mp hstep
      exact ⟨t, _, rfl, .moves (by simp [hphase]) rfl rfl rfl rfl rfl rfl⟩
    · cases hstep
  | readToAdd t =>
    simp only [State.step] at hstep
    split at hstep
    · rename_i hphase
      obtain rfl := Option.some.inj hstep
      exact ⟨t, _, rfl, .reads trivial (by simp [hphase]) rfl rfl rfl rfl rfl rfl⟩
    · cases hstep
  | add t =>
    simp only [State.step] at hstep
    split at hstep
    · rename_i list new hphase
      obtain rfl := Option.some.inj hstep
      refine ⟨t, .added, ?_, .uses list (by rw [hphase]; rfl) rfl rfl ?_ ?_ rfl ?_⟩
      all_goals simp [State.goto, State.addTo]
    · cases hstep
  | wunlock t =>
    simp only [State.step] at hstep
    split at hstep
    · rename_i hphase
      obtain rfl := Option.some.inj hstep
      exact ⟨t, _, rfl, .moves (by simp [hphase]) rfl rfl rfl rfl rfl rfl⟩
    · cases hstep

end Steps

/-! ### What is asked of the lists -/

/-- Lists are deleted once and not used afterwards, and `ins->list` is live. -/
structure Safe (s : State ι) : Prop where
  once : s.deleted.Nodup
  unused : s.misused = []
  live : s.list ∉ s.deleted

/-- No list is deleted. -/
def KeepsLists (_ : State ι) : Label ι → Prop
  | .delete _ => False
  | _ => True

instance (s : State ι) : DecidablePred (KeepsLists s)
  | .delete _ => inferInstanceAs (Decidable False)
  | .rlock _ | .readToFilter _ | .filter _ _ _ | .store _ | .readToCopy _ | .copy _ | .runlock _
  | .readToSearch _ _ _ _ _ | .search _ _ | .seen _ _ | .wlock _ | .readToAdd _ | .add _
  | .wunlock _ => inferInstanceAs (Decidable True)

/-! ### While no list has been deleted -/

/-- The invariant of runs without a deletion: all lists in hand are the one and only. -/
structure Inv (s : State ι) : Prop where
  deleted : s.deleted = []
  unused : s.misused = []
  hand : ∀ t, ∀ list ∈ inHand (s.phase t), list = s.list
  phase : ∀ t ret, s.phase t ≠ .deleted ret

/-- At the start there is one list, and nothing has been deleted. -/
theorem new_inv : Inv (State.new : State ι) :=
  ⟨rfl, rfl, fun _ _ h => (Option.not_mem_none _ h).elim, fun _ _ h => Phase.noConfusion h⟩

/-- By the invariant nothing deleted was used, and nothing deleted twice. -/
theorem Inv.safe (h : Inv s) : Safe s where
  once := by rw [h.deleted]; exact List.nodup_nil
  unused := h.unused
  live := by rw [h.deleted]; exact List.not_mem_nil

section Runs

variable [DecidableEq ι]

/-- A step that deletes and stores nothing keeps the invariant. -/
theorem Inv.goto (h : Inv s) {t : ι} {phase : Phase} (hlist : s'.list = s.list)
    (hdeleted : s'.deleted = s.deleted) (hmisused : s'.misused = s.misused)
    (hphase : s'.phase = Function.update s.phase t phase)
    (hhand : ∀ list ∈ inHand phase, list = s.list) (hnot : ∀ ret, phase ≠ .deleted ret) :
    Inv s' := by
  refine ⟨hdeleted.trans h.deleted, hmisused.trans h.unused, fun u => ?_, fun u => ?_⟩
  · rw [hphase, hlist, Function.update_apply]
    split
    · exact hhand
    · exact h.hand u
  · rw [hphase, Function.update_apply]
    split
    · exact hnot
    · exact h.phase u

/-- Every step that keeps the lists that are in use keeps the invariant. -/
theorem step_inv {l : Label ι} (h : Inv s) (hkeep : KeepsLists s l)
    (hstep : s.step l = some s') : Inv s' := by
  -- no list is deleted, so none is misused
  have hunused : ∀ used, (s.use used).misused = s.misused := by
    intro used
    rw [use_eq_self (by rw [h.deleted]; exact List.not_mem_nil)]
  obtain ⟨t, phase, hphase, hdoes⟩ := step_does hstep
  cases hdoes with
  | moves before hand built list deleted misused lists =>
    apply h.goto list deleted misused hphase (by simp [hand])
    rintro ret rfl
    cases built
  | reads label before hand built list deleted misused lists =>
    apply h.goto list deleted misused hphase (by simp [hand])
    rintro ret rfl
    cases built
  | uses used before hand built list deleted misused lists =>
    apply h.goto list deleted (misused.trans (hunused used)) hphase (by simp [hand])
    rintro ret rfl
    cases built
  | filters orig before after list deleted misused lists =>
    subst after
    refine h.goto list deleted (misused.trans (hunused orig)) hphase ?_ (by simp)
    intro l hl
    obtain rfl := Option.mem_some.mp hl
    exact h.hand t _ before
  | deletes orig ret label before after list deleted misused lists =>
    subst label
    -- excluded by the condition
    exact hkeep.elim
  -- nobody has got as far as that
  | stores ret before after list deleted misused lists => exact absurd before (h.phase t ret)

/-- A step that leaves the lists safe has deleted none. -/
theorem keepsLists_of_step {l : Label ι} (h : Inv s) (hstep : s.step l = some s')
    (hsafe : Safe s') : KeepsLists s l := by
  cases l with
  | delete t =>
    simp only [State.step] at hstep
    split at hstep
    · rename_i orig ret hphase
      obtain rfl := Option.some.inj hstep
      -- the list deleted is the one that `ins->list` denotes
      have horig : orig = s.list := h.hand t orig (by rw [hphase]; rfl)
      apply hsafe.live
      show s.list ∈ s.deleted ++ [orig]
      rw [horig]
      exact List.mem_append_right _ (List.mem_singleton_self _)
    · cases hstep
  | _ => trivial

/-- The lists are safe in every state of a run exactly when the run deletes none. -/
theorem exec_new_safe_iff (ls : List (Label ι)) (s : State ι)
    (hexec : exec State.step (State.new : State ι) ls = some s) :
    Throughout State.step Safe (State.new : State ι) ls ↔
      StepsMeet State.step KeepsLists (State.new : State ι) ls :=
  throughout_iff_stepsMeet (fun _ h => h.safe) (fun _ _ _ => step_inv)
    (fun _ _ _ => keepsLists_of_step) new_inv hexec

/-- One getter on its own, as far as building the filtered list. -/
theorem exec_new_safe_one_getter :
    Throughout State.step Safe (State.new : State Bool)
      [.rlock true, .readToFilter true, .filter true 0 10] := by
  have hexec : (exec State.step (State.new : State Bool)
      [.rlock true, .readToFilter true, .filter true 0 10]).isSome := by decide +kernel
  obtain ⟨s, hs⟩ := Option.isSome_iff_exists.mp hexec
  exact (exec_new_safe_iff _ s hs).mpr (by decide +kernel)

/-- Two getters filter the same list, and both delete it. -/
theorem exec_new_not_safe :
    ¬ Throughout State.step Safe (State.new : State Bool)
      [.rlock true, .rlock false, .readToFilter true, .readToFilter false, .filter true 0 10,
        .filter false 0 10, .delete true, .delete false] := by
  intro hthr
  have hlast : (exec State.step (State.new : State Bool)
      [.rlock true, .rlock false, .readToFilter true, .readToFilter false, .filter true 0 10,
        .filter false 0 10, .delete true, .delete false]).map State.deleted =
      some [0, 0] := by decide +kernel
  obtain ⟨s, hexec, hdeleted⟩ := Option.map_eq_some_iff.mp hlast
  have honce := (hthr _ s List.prefix_rfl hexec).once
  rw [hdeleted] at honce
  simp at honce

/-! ### Replacements that nobody disturbs -/

/-- Nobody else has a list in hand when it is deleted, and nobody reads `ins->list`
    while it denotes a deleted list. -/
structure Undisturbed (s : State ι) (l : Label ι) : Prop where
  reads : Reads l → s.list ∉ s.deleted
  deletes : ∀ t, l = .delete t → ∀ u, u ≠ t → ∀ list ∈ inHand (s.phase u),
    list ∉ inHand (s.phase t)

/-- Lists are deleted once and not used afterwards, and `ins->list` is live except while
    a thread is between the deletion of the old list and the store of the new one. -/
structure Orderly (s : State ι) : Prop where
  once : s.deleted.Nodup
  unused : s.misused = []
  live : s.list ∈ s.deleted → ∃ t ret, s.phase t = .deleted ret

/-- The list has been made and not been deleted. -/
def Live (s : State ι) (list : Nat) : Prop := list < s.lists.length ∧ list ∉ s.deleted

/-- The invariant of undisturbed replacements: lists in hand are live, and a list that
    has been built is live and its builder's alone. -/
structure Owned (s : State ι) : Prop extends Orderly s where
  made : ∀ list, list = s.list ∨ list ∈ s.deleted → list < s.lists.length
  hand : ∀ t, ∀ list ∈ inHand (s.phase t), Live s list
  built : ∀ t, ∀ list ∈ built (s.phase t), Live s list
  own : ∀ t, ∀ list ∈ IndexnodesLists.built (s.phase t), list ≠ s.list ∧
    ∀ u, list ∉ inHand (s.phase u) ∧ (u ≠ t → list ∉ IndexnodesLists.built (s.phase u))

omit [DecidableEq ι] in
/-- At the start there is one list, which nobody has in hand. -/
theorem new_owned : Owned (State.new : State ι) := by
  refine ⟨⟨List.nodup_nil, rfl, ?_⟩, ?_, ?_, ?_, ?_⟩ <;>
    simp [State.new, inHand, built]

/-- A step that deletes and stores nothing: what is in hand afterwards was in hand before
    or is `ins->list`, and what is built is new. -/
theorem Owned.goto (h : Owned s) {t : ι} {phase : Phase} (hlist : s'.list = s.list)
    (hdeleted : s'.deleted = s.deleted) (hmisused : s'.misused = s.misused)
    (hlists : s.lists.length ≤ s'.lists.length)
    (hphase : s'.phase = Function.update s.phase t phase) (hnot : ∀ ret, s.phase t ≠ .deleted ret)
    (hhand : ∀ list ∈ inHand phase,
      list = s.list ∧ list ∉ s.deleted ∨ list ∈ inHand (s.phase t))
    (hbuilt : ∀ list ∈ IndexnodesLists.built phase,
      s.lists.length ≤ list ∧ list < s'.lists.length) :
    Owned s' := by
  have hself : s'.phase t = phase := by rw [hphase, Function.update_self]
  have hother : ∀ u, u ≠ t → s'.phase u = s.phase u := by
    intro u hu
    rw [hphase, Function.update_of_ne hu]
  have hlive : ∀ list, Live s list → Live s' list := by
    intro list hl
    exact ⟨Nat.lt_of_lt_of_le hl.1 hlists, hdeleted ▸ hl.2⟩
  -- a list in hand afterwards was live and nobody's own
  have hhand' : ∀ u, ∀ list ∈ inHand (s'.phase u), Live s list ∧
      ∀ v, list ∉ IndexnodesLists.built (s.phase v) := by
    intro u list hl
    have hbefore : list = s.list ∧ list ∉ s.deleted ∨ list ∈ inHand (s.phase u) := by
      by_cases hu : u = t
      · subst hu
        exact hhand list (hself ▸ hl)
      · exact .inr (hother u hu ▸ hl)
    obtain ⟨rfl, hd⟩ | hl := hbefore
    · exact ⟨⟨h.made _ (.inl rfl), hd⟩, fun v hv => (h.own v _ hv).1 rfl⟩
    · exact ⟨h.hand u list hl, fun v hv => ((h.own v list hv).2 u).1 hl⟩
  refine ⟨⟨hdeleted ▸ h.once, hmisused ▸ h.unused, ?_⟩, ?_, ?_, ?_, ?_⟩
  · rw [hlist, hdeleted]
    -- `ins->list` is dead only for a thread on its way to the store, which `t` is not
    intro hdead
    obtain ⟨u, ret, hu⟩ := h.live hdead
    have hut : u ≠ t := by
      intro heq
      subst heq
      exact hnot ret hu
    exact ⟨u, ret, (hother u hut).trans hu⟩
  · rw [hlist, hdeleted]
    exact fun list hl => Nat.lt_of_lt_of_le (h.made list hl) hlists
  · exact fun u list hl => hlive list (hhand' u list hl).1
  · intro u list hl
    by_cases hu : u = t
    · rw [hu, hself] at hl
      have hnew := hbuilt list hl
      exact ⟨hnew.2, fun hd => absurd (h.made list (.inr (hdeleted ▸ hd))) (by omega)⟩
    · exact hlive list (h.built u list (hother u hu ▸ hl))
  · intro u list hl
    rw [hlist]
    by_cases hu : u = t
    · -- the new list is not known to anybody
      rw [hu, hself] at hl
      have hnew := (hbuilt list hl).1
      refine ⟨?_, fun v => ⟨fun hv => ?_, fun hvu hv => ?_⟩⟩
      · have := h.made s.list (.inl rfl)
        omega
      · have := (hhand' v list hv).1.1
        omega
      · rw [hother v (hu ▸ hvu)] at hv
        have := (h.built v list hv).1
        omega
    · rw [hother u hu] at hl
      obtain ⟨hne, hown⟩ := h.own u list hl
      refine ⟨hne, fun v => ⟨fun hv => (hhand' v list hv).2 u hl, fun hvu hv => ?_⟩⟩
      by_cases hvt : v = t
      · rw [hvt, hself] at hv
        have := (hbuilt list hv).1
        have := (h.built u list hl).1
        omega
      · rw [hother v hvt] at hv
        exact (hown v).2 hvu hv

/-- Deleting a list that nobody else has in hand. -/
theorem Owned.deletes (h : Owned s) {t : ι} {orig ret : Nat}
    (hbefore : s.phase t = .filtered orig ret) (hlist : s'.list = s.list)
    (hdeleted : s'.deleted = s.deleted ++ [orig]) (hmisused : s'.misused = s.misused)
    (hlists : s'.lists.length = s.lists.length)
    (hphase : s'.phase = Function.update s.phase t (.deleted ret))
    (halone : ∀ u, u ≠ t → orig ∉ inHand (s.phase u)) : Owned s' := by
  have hself : s'.phase t = .deleted ret := by rw [hphase, Function.update_self]
  have hother : ∀ u, u ≠ t → s'.phase u = s.phase u := by
    intro u hu
    rw [hphase, Function.update_of_ne hu]
  have horig : orig ∈ inHand (s.phase t) := by rw [hbefore]; rfl
  -- the deletion leaves what has been built
  have hbuilt : ∀ u, IndexnodesLists.built (s'.phase u) = IndexnodesLists.built (s.phase u) := by
    intro u
    by_cases hu : u = t
    · rw [hu, hself, hbefore]
      rfl
    · rw [hother u hu]
  -- and takes the old list out of all hands
  have hhand : ∀ u, ∀ list ∈ inHand (s'.phase u), list ∈ inHand (s.phase u) ∧ list ≠ orig := by
    intro u list hl
    by_cases hu : u = t
    · rw [hu, hself] at hl
      cases hl
    · rw [hother u hu] at hl
      exact ⟨hl, fun he => halone u hu (he ▸ hl)⟩
  have hdead : ∀ list, list ∈ s'.deleted ↔ list ∈ s.deleted ∨ list = orig := by
    intro list
    rw [hdeleted, List.mem_append, List.mem_singleton]
  have hlive : ∀ list, Live s list → list ≠ orig → Live s' list := by
    intro list hl hne
    exact ⟨hlists ▸ hl.1, fun hd => ((hdead list).mp hd).elim hl.2 hne⟩
  refine ⟨⟨?_, hmisused ▸ h.unused, fun _ => ⟨t, ret, hself⟩⟩, ?_, ?_, ?_, ?_⟩
  · rw [hdeleted]
    exact List.concat_eq_append ▸ List.Nodup.concat (h.hand t orig horig).2 h.once
  · intro list hl
    rw [hlists]
    rcases hl with rfl | hl
    · exact h.made _ (.inl hlist)
    · rcases (hdead list).mp hl with hl | rfl
      · exact h.made list (.inr hl)
      · exact (h.hand t _ horig).1
  · intro u list hl
    obtain ⟨hl, hne⟩ := hhand u list hl
    exact hlive list (h.hand u list hl) hne
  · intro u list hl
    rw [hbuilt] at hl
    apply hlive list (h.built u list hl)
    intro heq
    subst heq
    exact ((h.own u _ hl).2 t).1 horig
  · intro u list hl
    rw [hbuilt] at hl
    obtain ⟨hne, hown⟩ := h.own u list hl
    refine ⟨hlist ▸ hne, fun v => ⟨fun hv => (hown v).1 (hhand v list hv).1, fun hvu => ?_⟩⟩
    rw [hbuilt]
    exact (hown v).2 hvu

/-- Storing the list that has been built. -/
theorem Owned.stores (h : Owned s) {t : ι} {ret : Nat} (hbefore : s.phase t = .deleted ret)
    (hlist : s'.list = ret) (hdeleted : s'.deleted = s.deleted)
    (hmisused : s'.misused = s.misused) (hlists : s'.lists.length = s.lists.length)
    (hphase : s'.phase = Function.update s.phase t .stored) : Owned s' := by
  have hself : s'.phase t = .stored := by rw [hphase, Function.update_self]
  have hother : ∀ u, u ≠ t → s'.phase u = s.phase u := by
    intro u hu
    rw [hphase, Function.update_of_ne hu]
  -- the list stored has been `t`'s own
  have hret : ret ∈ IndexnodesLists.built (s.phase t) := by rw [hbefore]; rfl
  have hlive : ∀ list, Live s list → Live s' list := by
    intro list hl
    exact ⟨hlists ▸ hl.1, hdeleted ▸ hl.2⟩
  have hhand : ∀ u, ∀ list ∈ inHand (s'.phase u), list ∈ inHand (s.phase u) := by
    intro u list hl
    by_cases hu : u = t
    · rw [hu, hself] at hl
      cases hl
    · exact hother u hu ▸ hl
  have hbuilt : ∀ u, ∀ list ∈ IndexnodesLists.built (s'.phase u),
      u ≠ t ∧ list ∈ IndexnodesLists.built (s.phase u) := by
    intro u list hl
    by_cases hu : u = t
    · rw [hu, hself] at hl
      cases hl
    · exact ⟨hu, hother u hu ▸ hl⟩
  refine ⟨⟨hdeleted ▸ h.once, hmisused ▸ h.unused, ?_⟩, ?_, ?_, ?_, ?_⟩
  · rw [hlist, hdeleted]
    -- `ins->list` is live again
    exact fun hd => absurd hd (h.built t ret hret).2
  · rw [hlist, hdeleted, hlists]
    rintro list (rfl | hl)
    · exact (h.built t _ hret).1
    · exact h.made list (.inr hl)
  · exact fun u list hl => hlive list (h.hand u list (hhand u list hl))
  · exact fun u list hl => hlive list (h.built u list (hbuilt u list hl).2)
  · intro u list hl
    obtain ⟨hu, hl⟩ := hbuilt u list hl
    obtain ⟨-, hown⟩ := h.own u list hl
    refine ⟨?_, fun v => ⟨fun hv => (hown v).1 (hhand v list hv), fun hvu hv => ?_⟩⟩
    · intro heq
      subst heq
      -- another thread has not built the list that is stored
      exact (hown t).2 (Ne.symm hu) (hlist ▸ hret)
    · exact (hown v).2 hvu (hbuilt v list hv).2

/-- An undisturbed step keeps the lists in order. -/
theorem step_owned {l : Label ι} (h : Owned s) (hundisturbed : Undisturbed s l)
    (hstep : s.step l = some s') : Owned s' := by
  obtain ⟨t, phase, hphase, hdoes⟩ := step_does hstep
  -- what is in hand is live, so using it is no misuse
  have hused : ∀ used ∈ inHand (s.phase t), (s.use used).misused = s.misused := by
    intro used hu
    rw [use_eq_self (h.hand t used hu).2]
  have hnot : ∀ used ∈ inHand (s.phase t), ∀ ret, s.phase t ≠ .deleted ret := by
    intro used hu ret hret
    rw [hret] at hu
    cases hu
  cases hdoes with
  | moves before hand built list deleted misused lists =>
    exact h.goto list deleted misused lists.ge hphase before (by simp [hand]) (by simp [built])
  | reads label before hand built list deleted misused lists =>
    refine h.goto list deleted misused lists.ge hphase before ?_ (by simp [built])
    intro read hread
    obtain rfl : s.list = read := Option.some.inj (hand ▸ hread)
    exact .inl ⟨rfl, hundisturbed.reads label⟩
  | uses used before hand built list deleted misused lists =>
    exact h.goto list deleted (misused.trans (hused used before)) lists hphase
      (hnot used before) (by simp [hand]) (by simp [built])
  | filters orig before after list deleted misused lists =>
    subst after
    refine h.goto list deleted (misused.trans (hused orig before)) (by omega) hphase
      (hnot orig before) ?_ ?_
    · intro l hl
      obtain rfl : orig = l := Option.some.inj hl
      exact .inr before
    · intro l hl
      obtain rfl : s.lists.length = l := Option.some.inj hl
      omega
  | deletes orig ret label before after list deleted misused lists =>
    subst after
    apply h.deletes before list deleted misused lists hphase
    intro u hu horig
    exact hundisturbed.deletes t label u hu orig horig (by rw [before]; rfl)
  | stores ret before after list deleted misused lists =>
    subst after
    exact h.stores before list deleted misused lists hphase

/-- In a run of undisturbed replacements no list is deleted twice or used after its
    deletion, and `ins->list` is live but for the moment before the store. -/
theorem exec_new_orderly (ls : List (Label ι))
    (hundisturbed : StepsMeet State.step Undisturbed (State.new : State ι) ls) :
    Throughout State.step Orderly (State.new : State ι) ls := by
  have hinv : Throughout State.step Owned (State.new : State ι) ls :=
    throughout_of_stepsMeet (fun _ _ _ => step_owned) new_owned hundisturbed
  exact fun pre s hpre hexec => (hinv pre s hpre hexec).toOrderly

end Runs

end Fsfuse.Native.IndexnodesLists
