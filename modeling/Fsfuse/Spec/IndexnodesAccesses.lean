import Fsfuse.ForStd.Simulation
import Fsfuse.Native.IndexnodesEvents
import Fsfuse.Native.IndexnodesLists

/-!
# Operations that nothing comes between

An operation on the list of indexnodes is one step in `IndexnodesEvents`, and takes several accesses
in `IndexnodesLists`, between which other threads may come. The runs of the one are those runs of
the other in which none does.

* `accesses` — what an operation consists of;
* `exec_new_accesses` — both get equally far, and to the same.
-/

namespace Fsfuse.Native.IndexnodesEvents

open Transition

variable {ι : Type}

/-- The accesses of an operation. -/
def accesses : Label ι → List (IndexnodesLists.Label ι)
  | .event t now host port fs2protocol id =>
    [.readToSearch t host port fs2protocol id, .search t now]
  | .seen t now => [.seen t now]
  | .wlock t => [.wlock t]
  | .add t => [.readToAdd t, .add t]
  | .wunlock t => [.wunlock t]
  | .rlock t => [.rlock t]
  | .removeExpired t now timeout => [.readToFilter t, .filter t now timeout, .delete t, .store t]
  | .copy t => [.readToCopy t, .copy t]
  | .runlock t => [.runlock t]

/-- A thread is in the same place, with the lists that there are and `ins->list`. A copy is a list
    of its own. -/
inductive SamePhase (lists : List (List Nat)) (list : Nat) : Phase → IndexnodesLists.Phase → Prop
  | idle : SamePhase lists list .idle .idle
  | found (in_ : Nat) : SamePhase lists list (.found in_) (.found in_)
  | made (new : Indexnode) : SamePhase lists list (.made new) (.made new)
  | wlocked (new : Indexnode) : SamePhase lists list (.wlocked new) (.wlocked new)
  | added : SamePhase lists list .added .added
  | rlocked : SamePhase lists list .rlocked .rlocked
  | replaced : SamePhase lists list .replaced .stored
  | copied {ret : Nat} (hlt : ret < lists.length) (hne : ret ≠ list) :
    SamePhase lists list (.copied (lists.getD ret [])) (.copied ret)

/-- The list of the indexnodes is what `ins->list` points to, and everything else is the same. -/
structure Represents (s : State ι) (f : IndexnodesLists.State ι) : Prop where
  store : f.store = s.ins.store
  current : f.list < f.lists.length
  list : f.contents f.list = s.ins.list
  lock : f.lock = s.lock
  phase : ∀ t, SamePhase f.lists f.list (s.phase t) (f.phase t)

/-- Copies are neither changed nor stored. -/
def CopiesKept (f f' : IndexnodesLists.State ι) : Prop :=
  ∀ ret < f.lists.length, ret ≠ f.list →
    ret < f'.lists.length ∧ ret ≠ f'.list ∧ f'.contents ret = f.contents ret

variable {s s₁ : State ι} {f f₁ g : IndexnodesLists.State ι}

/-- A thread that has made a copy still has it. -/
theorem SamePhase.kept {p : Phase} {q : IndexnodesLists.Phase}
    (h : SamePhase f.lists f.list p q) (hkept : CopiesKept f f₁) :
    SamePhase f₁.lists f₁.list p q := by
  cases h with
  | copied hlt hne =>
    obtain ⟨hlt', hne', hsame⟩ := hkept _ hlt hne
    have hcopied : SamePhase f₁.lists f₁.list (.copied (f₁.contents _)) (.copied _) :=
      .copied hlt' hne'
    rwa [hsame] at hcopied
  | idle => exact .idle
  | found in_ => exact .found in_
  | made new => exact .made new
  | wlocked new => exact .wlocked new
  | added => exact .added
  | rlocked => exact .rlocked
  | replaced => exact .replaced

/-- Where there are the same lists there are the same copies. -/
theorem CopiesKept.of_eq (hlists : f₁.lists = f.lists) (hlist : f₁.list = f.list) :
    CopiesKept f f₁ := by
  intro ret hlt hne
  rw [hlists, hlist, IndexnodesLists.State.contents, hlists]
  exact ⟨hlt, hne, rfl⟩

/-- A list is made, and `ins->list` is left alone or set to it. -/
theorem CopiesKept.of_make {ret : List Nat} (hlists : f₁.lists = f.lists ++ [ret])
    (hlist : f₁.list = f.list ∨ f₁.list = f.lists.length) : CopiesKept f f₁ := by
  intro old hlt hne
  rw [IndexnodesLists.State.contents, IndexnodesLists.State.contents, hlists, List.length_append,
    List.getD_append _ _ _ _ hlt]
  refine ⟨Nat.lt_add_right _ hlt, ?_, rfl⟩
  obtain hlist | hlist := hlist
  · rw [hlist]
    exact hne
  · rw [hlist]
    exact hlt.ne

/-- An indexnode is added to `ins->list`. -/
theorem CopiesKept.of_modify {add : List Nat → List Nat}
    (hlists : f₁.lists = f.lists.modify f.list add) (hlist : f₁.list = f.list) :
    CopiesKept f f₁ := by
  intro old hlt hne
  rw [IndexnodesLists.State.contents, IndexnodesLists.State.contents, hlists, hlist,
    List.length_modify, List.getD_eq_getElem?_getD, List.getElem?_modify_ne _ _ (Ne.symm hne),
    ← List.getD_eq_getElem?_getD]
  exact ⟨hlt, hne, rfl⟩

variable [DecidableEq ι]

/-- Where a thread is that has moved on. -/
theorem phase_goto (f : IndexnodesLists.State ι) (t : ι) (q : IndexnodesLists.Phase) :
    (f.goto t q).phase t = q := by
  simp only [IndexnodesLists.State.goto, Function.update_self]

/-- And where the others are. -/
theorem phase_goto_of_ne {t u : ι} (hut : u ≠ t) (f : IndexnodesLists.State ι)
    (q : IndexnodesLists.Phase) : (f.goto t q).phase u = f.phase u := by
  simp only [IndexnodesLists.State.goto, Function.update_of_ne hut]

/-- A thread has read `ins->list`, and used the list that it has found there. -/
structure Used (t : ι) (f g : IndexnodesLists.State ι) : Prop where
  store : g.store = f.store
  lists : g.lists = f.lists
  list : g.list = f.list
  lock : g.lock = f.lock
  phase : ∀ u ≠ t, g.phase u = f.phase u

/-- Where it is then does not matter, nor whether the list has been deleted. -/
theorem used (f : IndexnodesLists.State ι) (t : ι) (q : IndexnodesLists.Phase) :
    Used t f ((f.goto t q).use f.list) := by
  simp only [IndexnodesLists.State.use]
  split
  · exact ⟨rfl, rfl, rfl, rfl, fun u hu => phase_goto_of_ne hu f q⟩
  · exact ⟨rfl, rfl, rfl, rfl, fun u hu => phase_goto_of_ne hu f q⟩

variable {t : ι} {p : Phase} {q : IndexnodesLists.Phase}

/-- A thread moves on, and what it has done is the same. -/
theorem Represents.goto (h : Represents s f) (hphase : s₁.phase = s.phase)
    (hphase' : ∀ u ≠ t, f₁.phase u = f.phase u) (hstore : f₁.store = s₁.ins.store)
    (hcurrent : f₁.list < f₁.lists.length) (hlist : f₁.contents f₁.list = s₁.ins.list)
    (hlock : f₁.lock = s₁.lock) (hkept : CopiesKept f f₁)
    (hpq : SamePhase f₁.lists f₁.list p q) : Represents (s₁.goto t p) (f₁.goto t q) where
  store := hstore
  current := hcurrent
  list := hlist
  lock := hlock
  phase u := by
    simp only [State.goto, IndexnodesLists.State.goto, hphase]
    by_cases hut : u = t
    · subst hut
      rw [Function.update_self, Function.update_self]
      exact hpq
    · rw [Function.update_of_ne hut, Function.update_of_ne hut, hphase' u hut]
      exact (h.phase u).kept hkept

/-- It moves on and leaves the lists alone. -/
theorem Represents.move (h : Represents s f) (hphase : s₁.phase = s.phase)
    (hphase' : ∀ u ≠ t, f₁.phase u = f.phase u) (hstore : f₁.store = s₁.ins.store)
    (hlists : f₁.lists = f.lists) (hlist : f₁.list = f.list) (hsame : s₁.ins.list = s.ins.list)
    (hlock : f₁.lock = s₁.lock) (hpq : SamePhase f₁.lists f₁.list p q) :
    Represents (s₁.goto t p) (f₁.goto t q) := by
  refine h.goto hphase hphase' hstore ?_ ?_ hlock (.of_eq hlists hlist) hpq
  · rw [hlists, hlist]
    exact h.current
  · rw [IndexnodesLists.State.contents, hlists, hlist, hsame]
    exact h.list

/-- A search finds the same. -/
theorem rel_event (h : Represents s f) (hused : Used t f g) {now : Int}
    {host port fs2protocol version id : List UInt8}
    (hparse : Indexnodes.parseFs2protocol fs2protocol = .ok (some version)) :
    Option.Rel Represents (s.event t now host port fs2protocol id)
      (g.search t now f.list ⟨host, port, version, id⟩) := by
  have hfound : IndexnodesList.find g.store (g.contents f.list) id =
      IndexnodesList.find s.ins.store s.ins.list id := by
    rw [hused.store, IndexnodesLists.State.contents, hused.lists, h.store, ← h.list]
    rfl
  have hmove : ∀ {p q}, SamePhase g.lists g.list p q → Represents (s.goto t p) (g.goto t q) :=
    fun hpq => h.move rfl hused.phase (hused.store.trans h.store) hused.lists hused.list rfl
      (hused.lock.trans h.lock) hpq
  simp only [State.event, hparse, IndexnodesLists.State.search, hfound]
  cases IndexnodesList.find s.ins.store s.ins.list id with
  | some in_ => exact .some (hmove (.found in_))
  | none =>
    cases Indexnode.indexnodeNew now host port version id with
    | error fault => exact .none
    | ok new =>
      cases new with
      | none => exact .some (hmove .idle)
      | some new => exact .some (hmove (.made new))

/-- An addition is made to what is there. -/
theorem represents_add (h : Represents s f) (hused : Used t f g) (new : Indexnode) :
    Represents ({ s with ins := s.ins.addNew new }.goto t .added)
      ((g.addTo f.list new).goto t .added) := by
  have hget : f.lists[f.list]? = some s.ins.list := by
    rw [← h.list, IndexnodesLists.State.contents, List.getD_eq_getElem _ _ h.current,
      List.getElem?_eq_getElem h.current]
  have hlists : (g.addTo f.list new).lists =
      f.lists.modify f.list (IndexnodesList.add · s.ins.store.length) := by
    rw [IndexnodesLists.State.addTo, hused.store, hused.lists, h.store]
  refine h.goto rfl hused.phase ?_ ?_ ?_ (hused.lock.trans h.lock) (.of_modify hlists hused.list)
    .added
  · rw [IndexnodesLists.State.addTo, hused.store, h.store]
    rfl
  · rw [hlists, List.length_modify]
    exact hused.list ▸ h.current
  · show (g.addTo f.list new).lists.getD g.list [] = _
    rw [hlists, hused.list, List.getD_eq_getElem?_getD, List.getElem?_modify_eq, hget]
    rfl

/-- A list that is made is the last one. -/
theorem getD_length_append (lists : List (List Nat)) (ret : List Nat) :
    (lists ++ [ret]).getD lists.length [] = ret := by
  rw [List.getD_append_right _ _ _ _ (Nat.le_refl _), Nat.sub_self]
  rfl

/-- Clearing makes a list of what is left, and stores it. -/
theorem represents_removeExpired (h : Represents s f) (hused : Used t f g) (now timeout : Int)
    (hlists : f₁.lists =
      g.lists ++ [IndexnodesList.removeExpired now timeout f.store (f.contents f.list)])
    (hphase : ∀ u ≠ t, f₁.phase u = g.phase u) (hstore : f₁.store = g.store)
    (hlist : f₁.list = f.lists.length) (hlock : f₁.lock = g.lock) :
    Represents
      ({ s with ins := { s.ins with list :=
        IndexnodesList.removeExpired now timeout s.ins.store s.ins.list } }.goto t .replaced)
      (f₁.goto t .stored) := by
  rw [h.list, hused.lists, h.store] at hlists
  refine h.goto rfl (fun u hu => (hphase u hu).trans (hused.phase u hu)) ?_ ?_ ?_ ?_
    (.of_make hlists (.inr hlist)) .replaced
  · exact hstore.trans (hused.store.trans h.store)
  · rw [hlists, hlist, List.length_append]
    exact Nat.lt_succ_self _
  · rw [IndexnodesLists.State.contents, hlists, hlist, getD_length_append]
  · exact hlock.trans (hused.lock.trans h.lock)

/-- A copy is the last list made, and `ins->list` an earlier one. -/
theorem represents_copy (h : Represents s f) (hused : Used t f g) :
    Represents (s.goto t (.copied (IndexnodesList.copy s.ins.list)))
      ((g.make (IndexnodesList.copy (f.contents f.list))).goto t (.copied f.lists.length)) := by
  have hlists : (g.make (IndexnodesList.copy (f.contents f.list))).lists =
      f.lists ++ [IndexnodesList.copy s.ins.list] := by
    rw [IndexnodesLists.State.make, h.list, hused.lists]
  have hlt : f.lists.length < (f.lists ++ [IndexnodesList.copy s.ins.list]).length := by
    rw [List.length_append]
    exact Nat.lt_succ_self _
  refine h.goto rfl hused.phase (hused.store.trans h.store) ?_ ?_ (hused.lock.trans h.lock)
    (.of_make hlists (.inl hused.list)) ?_
  · rw [hlists]
    exact hused.list ▸ h.current.trans hlt
  · show List.getD _ g.list [] = s.ins.list
    rw [hlists, hused.list, List.getD_append _ _ _ _ h.current]
    exact h.list
  · have hcopied := SamePhase.copied hlt (hused.list ▸ h.current.ne' : f.lists.length ≠ g.list)
    rw [getD_length_append] at hcopied
    rw [hlists]
    exact hcopied

/-- An operation and its accesses come to the same. -/
theorem step_accesses (h : Represents s f) (l : Label ι) :
    Option.Rel Represents (s.step l) (exec IndexnodesLists.State.step f (accesses l)) := by
  cases l with
  | event t now host port fs2protocol id =>
    have ht := h.phase t
    simp only [accesses, exec_cons, exec_nil, Option.bind_fun_some, State.step,
      IndexnodesLists.State.step]
    generalize s.phase t = p at ht ⊢
    generalize f.phase t = q at ht ⊢
    cases ht with
    | idle =>
      -- a protocol without a version stops the one and the other
      cases hparse : Indexnodes.parseFs2protocol fs2protocol with
      | error fault =>
        simp only [State.event, hparse]
        exact .none
      | ok version =>
        cases version with
        | none =>
          simp only [State.event, hparse]
          exact .none
        | some version =>
          simp only [Option.bind_some, phase_goto]
          exact rel_event h (used f t _) hparse
    | _ => exact .none
  | seen t now =>
    have ht := h.phase t
    simp only [accesses, exec_cons, exec_nil, Option.bind_fun_some, State.step,
      IndexnodesLists.State.step]
    generalize s.phase t = p at ht ⊢
    generalize f.phase t = q at ht ⊢
    cases ht with
    | found in_ =>
      refine .some ?_
      refine h.move rfl (fun _ _ => rfl) ?_ rfl rfl rfl h.lock .idle
      simp only [Indexnodes.seen, h.store]
    | _ => exact .none
  | wlock t =>
    have ht := h.phase t
    simp only [accesses, exec_cons, exec_nil, Option.bind_fun_some, State.step,
      IndexnodesLists.State.step]
    generalize s.phase t = p at ht ⊢
    generalize f.phase t = q at ht ⊢
    cases ht with
    | made new =>
      simp only [h.lock]
      cases s.lock.wlock t with
      | none => exact .none
      | some lock =>
        refine .some ?_
        exact h.move rfl (fun _ _ => rfl) h.store rfl rfl rfl rfl (.wlocked new)
    | _ => exact .none
  | add t =>
    have ht := h.phase t
    simp only [accesses, exec_cons, exec_nil, Option.bind_fun_some, State.step,
      IndexnodesLists.State.step]
    generalize s.phase t = p at ht ⊢
    generalize f.phase t = q at ht ⊢
    cases ht with
    | wlocked new =>
      simp only [Option.bind_some, phase_goto]
      exact .some (represents_add h (used f t _) new)
    | _ => exact .none
  | wunlock t =>
    have ht := h.phase t
    simp only [accesses, exec_cons, exec_nil, Option.bind_fun_some, State.step,
      IndexnodesLists.State.step]
    generalize s.phase t = p at ht ⊢
    generalize f.phase t = q at ht ⊢
    cases ht with
    | added =>
      refine .some ?_
      refine h.move rfl (fun _ _ => rfl) h.store rfl rfl rfl ?_ .idle
      rw [h.lock]
    | _ => exact .none
  | rlock t =>
    have ht := h.phase t
    simp only [accesses, exec_cons, exec_nil, Option.bind_fun_some, State.step,
      IndexnodesLists.State.step]
    generalize s.phase t = p at ht ⊢
    generalize f.phase t = q at ht ⊢
    cases ht with
    | idle =>
      simp only [h.lock]
      cases s.lock.rlock t with
      | none => exact .none
      | some lock =>
        refine .some ?_
        exact h.move rfl (fun _ _ => rfl) h.store rfl rfl rfl rfl .rlocked
    | _ => exact .none
  | removeExpired t now timeout =>
    have ht := h.phase t
    simp only [accesses, exec_cons, exec_nil, Option.bind_fun_some, State.step,
      IndexnodesLists.State.step]
    generalize s.phase t = p at ht ⊢
    generalize f.phase t = q at ht ⊢
    cases ht with
    | rlocked =>
      simp only [Option.bind_some, phase_goto]
      refine .some ?_
      -- between the filtering and the storing the thread moves twice
      refine represents_removeExpired h (used f t _) now timeout rfl (fun u hu => ?_) rfl rfl rfl
      exact (phase_goto_of_ne hu _ _).trans (phase_goto_of_ne hu _ _)
    | _ => exact .none
  | copy t =>
    have ht := h.phase t
    simp only [accesses, exec_cons, exec_nil, Option.bind_fun_some, State.step,
      IndexnodesLists.State.step]
    generalize s.phase t = p at ht ⊢
    generalize f.phase t = q at ht ⊢
    cases ht with
    | replaced =>
      simp only [Option.bind_some, phase_goto]
      have hcopied := represents_copy h (used f t (.copying f.list))
      exact .some hcopied
    | _ => exact .none
  | runlock t =>
    have ht := h.phase t
    simp only [accesses, exec_cons, exec_nil, Option.bind_fun_some, State.step,
      IndexnodesLists.State.step]
    generalize s.phase t = p at ht ⊢
    generalize f.phase t = q at ht ⊢
    cases ht with
    | copied hlt hne =>
      refine .some ?_
      refine h.move rfl (fun _ _ => rfl) h.store rfl rfl rfl ?_ .idle
      rw [h.lock]
    | _ => exact .none

omit [DecidableEq ι] in
/-- At first there is one list, and nobody does anything. -/
theorem represents_new : Represents (State.new : State ι) IndexnodesLists.State.new where
  store := rfl
  current := Nat.one_pos
  list := rfl
  lock := rfl
  phase _ := .idle

/-- A run, and the run of the accesses of its operations, get equally far and to the same. -/
theorem exec_new_accesses (ls : List (Label ι)) :
    Option.Rel Represents (exec State.step (State.new : State ι) ls)
      (exec IndexnodesLists.State.step IndexnodesLists.State.new (ls.flatMap accesses)) :=
  exec_flatMap_rel (fun _ _ l h => step_accesses h l) represents_new ls

end Fsfuse.Native.IndexnodesEvents
