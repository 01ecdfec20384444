import Fsfuse.ForStd.Transition
import Fsfuse.Native.IndexnodesEvents

/-!
# One entry per indexnode

`new_indexnode_event` searches the list without the lock and adds to it under the lock,
without searching again. So the list has one entry per indexnode exactly as long as
each search is still right when the indexnode is added.
-/

namespace Fsfuse.Native.IndexnodesEvents

open Transition

variable {ι : Type} {s s' : State ι}

/-- The id of the indexnode in a position of the store. -/
def idAt (store : List Indexnode) (in_ : Nat) : Option (List UInt8) := (store[in_]?).map (·.id)

/-- The ids of the list. -/
def ids (ins : Indexnodes) : List (Option (List UInt8)) := ins.list.map (idAt ins.store)

/-- No two entries of the list have the same id. -/
def Unique (s : State ι) : Prop := (ids s.ins).Nodup

/-- The search that led a thread to where it is would still find nothing. -/
def StillUnseen (ins : Indexnodes) : Phase → Prop
  | .wlocked new => IndexnodesList.find ins.store ins.list new.id = none
  | _ => True

/-- An indexnode is added only while the search for it would still find nothing. -/
def AddsUnseen (s : State ι) : Label ι → Prop
  | .add t => StillUnseen s.ins (s.phase t)
  | _ => True

instance (ins : Indexnodes) : DecidablePred (StillUnseen ins)
  | .wlocked new =>
    inferInstanceAs (Decidable (IndexnodesList.find ins.store ins.list new.id = none))
  | .idle | .found _ | .made _ | .added | .rlocked | .replaced | .copied _ =>
    inferInstanceAs (Decidable True)

instance (s : State ι) : DecidablePred (AddsUnseen s)
  | .add t => inferInstanceAs (Decidable (StillUnseen s.ins (s.phase t)))
  | .event _ _ _ _ _ _ | .seen _ _ | .wlock _ | .wunlock _ | .rlock _ | .removeExpired _ _ _
  | .copy _ | .runlock _ => inferInstanceAs (Decidable True)

/-! ### Lists -/

/-- An indexnode is equal to an id exactly if it has it. -/
theorem equals_iff {store : List Indexnode} {in_ : Nat} {id : List UInt8} :
    IndexnodesList.equals store in_ id = true ↔ idAt store in_ = some id := by
  rw [IndexnodesList.equals, idAt, Option.any_eq_true, Option.map_eq_some_iff]
  simp only [beq_iff_eq]

/-- A search finds nothing exactly when the id is not in the list. -/
theorem find_eq_none_iff {ins : Indexnodes} {id : List UInt8} :
    IndexnodesList.find ins.store ins.list id = none ↔ some id ∉ ids ins := by
  simp only [IndexnodesList.find, List.find?_eq_none, equals_iff, ids, List.mem_map, not_exists,
    not_and]

/-- `indexnodes_list_copy` turns the list round. -/
theorem copy_eq (orig : List Nat) : IndexnodesList.copy orig = orig.reverse := by
  show orig.foldl (fun ins in_ => in_ :: ins) [] = _
  rw [List.foldl_flip_cons_eq_append', List.append_nil]

/-- `indexnodes_list_remove_expired` turns round what it keeps. -/
theorem removeExpired_eq (now timeout : Int) (store : List Indexnode) (orig : List Nat) :
    IndexnodesList.removeExpired now timeout store orig =
      (orig.filter fun in_ => (store[in_]?).any (Indexnode.stillValid now timeout)).reverse := by
  rw [IndexnodesList.removeExpired, ← List.foldl_filter]
  exact copy_eq _

/-! ### The invariant -/

/-- The invariant: the list holds indexnodes of the store, no two with the same id. -/
structure Inv (s : State ι) : Prop where
  stored : ∀ in_ ∈ s.ins.list, in_ < s.ins.store.length
  unique : Unique s

/-- At the start no indexnodes are listed. -/
theorem new_inv : Inv (State.new : State ι) :=
  ⟨by intro in_ h; simp [State.new] at h, List.nodup_nil⟩

/-- What is only a step of a thread leaves the indexnodes as they are. -/
theorem Inv.of_ins_eq (h : Inv s) (hins : s'.ins = s.ins) : Inv s' :=
  ⟨by rw [hins]; exact h.stored, by rw [Unique, hins]; exact h.unique⟩

/-- Seeing an indexnode again leaves the ids as they are. -/
theorem idAt_seen (ins : Indexnodes) (now : Int) (in_ i : Nat) :
    idAt (ins.seen now in_).store i = idAt ins.store i := by
  rw [idAt, idAt, Indexnodes.seen, List.getElem?_modify]
  split <;> simp [Function.comp_def]

/-- Marking an indexnode as seen keeps the invariant. -/
theorem Inv.seen (h : Inv s) {now : Int} {in_ : Nat} (hins : s'.ins = s.ins.seen now in_) :
    Inv s' := by
  refine ⟨?_, ?_⟩
  · rw [hins]
    simpa [Indexnodes.seen] using h.stored
  · have hids : ids s'.ins = ids s.ins := by
      rw [hins]
      exact List.map_congr_left fun i _ => idAt_seen s.ins now in_ i
    rw [Unique, hids]
    exact h.unique

/-- The ids after an indexnode has been added. -/
theorem ids_addNew {ins : Indexnodes} {new : Indexnode}
    (hstored : ∀ in_ ∈ ins.list, in_ < ins.store.length) :
    ids (ins.addNew new) = some new.id :: ids ins := by
  -- the positions in the list are old, so the store they see is the old one
  have hold : ∀ i ∈ ins.list, idAt (ins.store ++ [new]) i = idAt ins.store i := by
    intro i hi
    rw [idAt, List.getElem?_append_left (hstored i hi), idAt]
  rw [ids, Indexnodes.addNew, IndexnodesList.add, List.map_cons, List.map_congr_left hold]
  simp [idAt, ids]

/-- What is kept of a list without duplicates has none. -/
theorem Inv.removeExpired (h : Inv s) {now timeout : Int}
    (hins : s'.ins = { s.ins with
      list := IndexnodesList.removeExpired now timeout s.ins.store s.ins.list }) : Inv s' := by
  rw [removeExpired_eq] at hins
  refine ⟨fun i hi => ?_, ?_⟩
  · rw [hins] at hi ⊢
    exact h.stored i (List.mem_of_mem_filter (List.mem_reverse.mp hi))
  · rw [Unique, hins, ids]
    simp only [List.map_reverse, List.nodup_reverse]
    exact h.unique.sublist (List.filter_sublist.map _)

/-! ### Steps -/

variable [DecidableEq ι]

/-- A step keeps the list without duplicates if it adds nothing that could be found. -/
theorem step_inv {l : Label ι} (h : Inv s) (hadd : AddsUnseen s l) (hstep : s.step l = some s') :
    Inv s' := by
  -- only `seen`, `add` and `removeExpired` touch the indexnodes
  cases l with
  | event t now host port fs2protocol id =>
    simp only [State.step] at hstep
    split at hstep <;> try cases hstep
    simp only [State.event] at hstep
    split at hstep <;> try cases hstep
    split at hstep
    · obtain rfl := Option.some.inj hstep
      exact h.of_ins_eq rfl
    · split at hstep
      · obtain rfl := Option.some.inj hstep
        exact h.of_ins_eq rfl
      · obtain rfl := Option.some.inj hstep
        exact h.of_ins_eq rfl
      · cases hstep
  | seen t now =>
    simp only [State.step] at hstep
    split at hstep
    · obtain rfl := Option.some.inj hstep
      exact h.seen rfl
    · cases hstep
  | wlock t =>
    simp only [State.step] at hstep
    split at hstep
    · obtain ⟨lock, -, rfl⟩ := Option.map_eq_some_iff.mp hstep
      exact h.of_ins_eq rfl
    · cases hstep
  | add t =>
    simp only [State.step] at hstep
    split at hstep
    · rename_i new hphase
      obtain rfl := Option.some.inj hstep
      -- the search would still find nothing, so the id is new
      have hnew : some new.id ∉ ids s.ins := by
        rw [AddsUnseen, hphase] at hadd
        exact find_eq_none_iff.mp hadd
      refine ⟨fun i hi => ?_, ?_⟩
      · simp only [State.goto, Indexnodes.addNew, IndexnodesList.add, List.mem_cons,
          List.length_append, List.length_singleton] at hi ⊢
        rcases hi with rfl | hi
        · omega
        · have := h.stored i hi
          omega
      · show (ids (s.ins.addNew new)).Nodup
        rw [ids_addNew h.stored]
        exact List.nodup_cons.mpr ⟨hnew, h.unique⟩
    · cases hstep
  | wunlock t =>
    simp only [State.step] at hstep
    split at hstep
    · obtain rfl := Option.some.inj hstep
      exact h.of_ins_eq rfl
    · cases hstep
  | rlock t =>
    simp only [State.step] at hstep
    split at hstep
    · obtain ⟨lock, -, rfl⟩ := Option.map_eq_some_iff.mp hstep
      exact h.of_ins_eq rfl
    · cases hstep
  | removeExpired t now timeout =>
    simp only [State.step] at hstep
    split at hstep
    · obtain rfl := Option.some.inj hstep
      exact h.removeExpired rfl
    · cases hstep
  | copy t =>
    simp only [State.step] at hstep
    split at hstep
    · obtain rfl := Option.some.inj hstep
      exact h.of_ins_eq rfl
    · cases hstep
  | runlock t =>
    simp only [State.step] at hstep
    split at hstep
    · obtain rfl := Option.some.inj hstep
      exact h.of_ins_eq rfl
    · cases hstep

/-- A step that leaves the list without duplicates has added nothing that could be found. -/
theorem addsUnseen_of_step {l : Label ι} (h : Inv s) (hstep : s.step l = some s')
    (hunique : Unique s') : AddsUnseen s l := by
  cases l with
  | add t =>
    simp only [State.step] at hstep
    split at hstep
    · rename_i new hphase
      obtain rfl := Option.some.inj hstep
      change (ids (s.ins.addNew new)).Nodup at hunique
      -- the id added is not among the others, so a search for it finds nothing
      rw [ids_addNew h.stored] at hunique
      rw [AddsUnseen, hphase]
      exact find_eq_none_iff.mpr (List.nodup_cons.mp hunique).1
    · cases hstep
  | _ => trivial

/-! ### Runs -/

/-- The list has at most one indexnode with a given id in every state of a run exactly
    when each indexnode is added while the search for it would still find nothing. -/
theorem exec_new_unique_iff (ls : List (Label ι)) (s : State ι)
    (hexec : exec State.step (State.new : State ι) ls = some s) :
    Throughout State.step Unique (State.new : State ι) ls ↔
      StepsMeet State.step AddsUnseen (State.new : State ι) ls :=
  throughout_iff_stepsMeet (fun _ h => h.unique) (fun _ _ _ => step_inv)
    (fun _ _ _ => addsUnseen_of_step) new_inv hexec

/-- An indexnode is heard of by one thread and then, by its id, by another. -/
theorem exec_new_unique_in_turn :
    Throughout State.step Unique (State.new : State Bool)
      [.event true 0 (ascii "h") (ascii "1") (ascii "fs2protocol-0.13") (ascii "uid"),
        .wlock true, .add true, .wunlock true,
        .event false 1 (ascii "g") (ascii "2") (ascii "fs2protocol-0.13") (ascii "uid"),
        .seen false 1] := by
  have hexec : (exec State.step (State.new : State Bool)
      [.event true 0 (ascii "h") (ascii "1") (ascii "fs2protocol-0.13") (ascii "uid"),
        .wlock true, .add true, .wunlock true,
        .event false 1 (ascii "g") (ascii "2") (ascii "fs2protocol-0.13") (ascii "uid"),
        .seen false 1]).isSome := by decide +kernel
  obtain ⟨s, hs⟩ := Option.isSome_iff_exists.mp hexec
  exact (exec_new_unique_iff _ s hs).mpr (by decide +kernel)

/-- Two threads hear of an indexnode at once: both search before either has added it. -/
theorem exec_new_not_unique :
    ¬ Throughout State.step Unique (State.new : State Bool)
      [.event true 0 (ascii "h") (ascii "1") (ascii "fs2protocol-0.13") (ascii "uid"),
        .event false 0 (ascii "h") (ascii "1") (ascii "fs2protocol-0.13") (ascii "uid"),
        .wlock true, .add true, .wunlock true, .wlock false, .add false] := by
  intro hthr
  have hlast : (exec State.step (State.new : State Bool)
      [.event true 0 (ascii "h") (ascii "1") (ascii "fs2protocol-0.13") (ascii "uid"),
        .event false 0 (ascii "h") (ascii "1") (ascii "fs2protocol-0.13") (ascii "uid"),
        .wlock true, .add true, .wunlock true, .wlock false, .add false]).map
          (fun s => ids s.ins) =
      some [some (ascii "uid"), some (ascii "uid")] := by decide +kernel
  obtain ⟨s, hexec, hids⟩ := Option.map_eq_some_iff.mp hlast
  have hunique : (ids s.ins).Nodup := hthr _ s List.prefix_rfl hexec
  -- the same id twice
  rw [hids] at hunique
  simp at hunique

end Fsfuse.Native.IndexnodesEvents
