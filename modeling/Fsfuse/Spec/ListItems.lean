import Fsfuse.ForStd.Simulation
import Fsfuse.Native.IndexnodesItems
import Fsfuse.Spec.ListReferences

/-!
# Lists of indexnodes in memory

The lists as tail queues of allocated items refine the lists as lists: a client that makes the same
calls of both sees the same, every item is on one list that has not been deleted, and no pointer is
followed to a list or an item that has been freed.
-/

namespace Fsfuse.Native

open Transition TailQueue

namespace Items

variable {items items' : Items} {qs : Nat → Option (List Nat)} {refs : RefCounts} {q n : Nat}
  {ns : List Nat} {elem : Elem Nat}

/-! ### Accesses -/

/-- A list that is held has a head, which points to its first item. -/
theorem list_eq (h : Holds items qs) (hq : qs q = some ns) :
    ∃ head, items.list q = .ok head ∧ head.first = ns.head? := by
  obtain ⟨head, hhead, hfirst⟩ := h.first_eq hq
  exact ⟨head, by rw [list, hhead]; rfl, hfirst⟩

/-- An item that is allocated can be read. -/
theorem item_eq (h : items.elems n = some elem) : items.item n = .ok elem := by
  rw [item, h]
  rfl

/-- The link of an item that is allocated can be followed. -/
theorem next_eq (h : items.elems n = some elem) : items.next n = .ok elem.next := by
  rw [next, item_eq h]
  rfl

/-- The link of an item depends on the item alone. -/
theorem next_congr (h : items'.elems n = items.elems n) : items'.next n = items.next n := by
  rw [next, next, item, item, h]

/-- From an item on to the next one on its list. -/
theorem next_of_append (h : Holds items qs) {pre rest : List Nat}
    (hq : qs q = some (pre ++ n :: rest)) : items.next n = .ok rest.head? := by
  have hn : (pre ++ n :: rest)[pre.length]? = some n := by simp
  obtain ⟨elem, helem, hnext⟩ := h.next_eq hq hn
  rw [next_eq helem, hnext, List.getElem?_append_right (by omega)]
  simp [List.head?_eq_getElem?]

/-! ### Finding -/

/-- `indexnodes_list_find` over linked items compares what the plain search compares. -/
theorem forIn_findItem (store : List Indexnode) (id : List UInt8)
    (h : ∀ n ∈ ns, items.elems n ≠ none) :
    forIn ns (refs, none) (items.findItem store id) =
      refs.listFind store id (items.content ns) := by
  induction ns with
  | nil => rfl
  | cons n ns ih =>
    -- the first item is read, and the search is over if its indexnode has the id
    obtain ⟨elem, helem⟩ := Option.ne_none_iff_exists'.mp (h n List.mem_cons_self)
    rw [Memory.content_cons helem, List.forIn_cons, RefCounts.listFind, findItem, item_eq helem]
    cases haccess : refs.access elem.data with
    | error f => simp [bind, Except.bind, haccess]
    | ok count =>
      by_cases hid : IndexnodesList.equals store elem.data id = true
      · cases hcopy : refs.indexnodeCopy elem.data with
        | error f => simp [bind, Except.bind, haccess, hid, hcopy]
        | ok refs' => simp [bind, Except.bind, haccess, hid, hcopy, pure, Except.pure]
      · simpa [bind, Except.bind, haccess, hid, pure, Except.pure] using
          ih fun n hn => h n (List.mem_cons_of_mem _ hn)

/-- `indexnodes_list_find` comes to an end and finds what the plain search finds. -/
theorem find_run (h : Holds items qs) (hq : qs q = some ns) (store : List Indexnode)
    (id : List UInt8) :
    (items.find refs store q id).run = some (refs.listFind store id (items.content ns)) := by
  obtain ⟨head, hlist, hfirst⟩ := list_eq h hq
  rw [← forIn_findItem store id fun n hn => h.elems_ne_none hq hn, find, hlist]
  show (forEach _ _ _ head.first (refs, none)).run = _
  rw [hfirst]
  -- nothing is changed on the way
  refine forEach_eq_forIn (fun rest _ => ∃ pre, ns = pre ++ rest) ?_ ⟨[], rfl⟩ (h.length_le hq)
  rintro n rest s s' ⟨pre, rfl⟩ -
  exact ⟨next_of_append h hq, pre ++ [n], by simp⟩

/-! ### Deleting -/

/-- The items are freed from the first one on. -/
theorem foldlM_deleteItem {pre rest : List Nat} (hnodup : (pre ++ rest).Nodup)
    (h : ∀ n ∈ rest, items.elems n ≠ none) :
    rest.foldlM (fun s n => deleteItem n s) (refs, items.freeElems pre) =
      (refs.listDelete (items.content rest)).map
        fun refs => (refs, items.freeElems (pre ++ rest)) := by
  induction rest generalizing refs pre with
  | nil =>
    rw [List.append_nil]
    rfl
  | cons n rest ih =>
    obtain ⟨elem, helem⟩ := Option.ne_none_iff_exists'.mp (h n List.mem_cons_self)
    have hn : n ∉ pre := fun hmem =>
      (List.nodup_append.mp hnodup).2.2 n hmem n List.mem_cons_self rfl
    -- what has been freed so far is not what is read next
    have helem' : (items.freeElems pre).elems n = some elem := by
      rw [Memory.elems_freeElems, if_neg hn, helem]
    rw [List.append_cons] at hnodup ⊢
    rw [Memory.content_cons helem, List.foldlM_cons, deleteItem, item_eq helem',
      RefCounts.listDelete, List.foldlM_cons]
    cases hdelete : refs.indexnodeDelete elem.data with
    | error f => simp [bind, Except.bind, hdelete, Except.map]
    | ok refs' =>
      -- the next item has been read before this one is freed
      have hrest := @ih refs' (pre ++ [n]) hnodup fun n hn => h n (List.mem_cons_of_mem _ hn)
      rw [Memory.freeElems_append] at hrest
      simp only [bind, Except.bind, hdelete]
      exact hrest

/-- `indexnodes_list_delete` comes to an end, gives back the references that the plain list
    gives back, and frees the items and the head. -/
theorem delete_run (h : Holds items qs) (hq : qs q = some ns) (refs : RefCounts) :
    (items.delete refs q).run = some ((refs.listDelete (items.content ns)).map
      fun refs => (refs, (items.freeElems ns).freeHead q)) := by
  obtain ⟨head, hlist, hfirst⟩ := list_eq h hq
  have hnodup := (h.queue hq).1
  have hloop : (forEachSafe (fun s item => next s.2 item) deleteItem items.elemsMade
      ns.head? (refs, items)).run = some (ns.foldlM (fun s n => deleteItem n s) (refs, items)) := by
    -- what is still to come has not been freed
    refine forEachSafe_eq_foldlM (fun rest s => ∃ pre, ns = pre ++ rest ∧
      s.2 = items.freeElems pre) ?_ ?_ ⟨[], rfl, rfl⟩ (h.length_le hq)
    · rintro n rest ⟨refs, items'⟩ ⟨pre, rfl, rfl⟩
      have hn : n ∉ pre := fun hmem =>
        (List.nodup_append.mp hnodup).2.2 n hmem n List.mem_cons_self rfl
      refine (next_congr ?_).trans (next_of_append h hq)
      rw [Memory.elems_freeElems, if_neg hn]
    · rintro n rest ⟨refs, items'⟩ ⟨refs'', items''⟩ ⟨pre, rfl, rfl⟩ hdelete
      obtain ⟨elem, -, hdelete⟩ := Except.do_eq_ok_iff.mp hdelete
      obtain ⟨refs', -, hdelete⟩ := Except.do_eq_ok_iff.mp hdelete
      obtain ⟨-, rfl⟩ := Prod.mk.inj (Except.ok.inj hdelete)
      exact ⟨pre ++ [n], by simp, (Memory.freeElems_append items pre [n]).symm⟩
  rw [delete, hlist]
  show (do
    let s ← forEachSafe (fun s item => next s.2 item) deleteItem items.elemsMade head.first
      (refs, items)
    pure (s.1, s.2.freeHead q) : ExceptT Fault Option (RefCounts × Items)).run = _
  have hitems : ns.foldlM (fun s n => deleteItem n s) (refs, items) =
      (refs.listDelete (items.content ns)).map fun refs => (refs, items.freeElems ns) :=
    @foldlM_deleteItem items refs [] ns hnodup fun n hn => h.elems_ne_none hq hn
  rw [hfirst, ExceptT.run_bind, hloop, hitems]
  cases refs.listDelete (items.content ns) <;> rfl

/-! ### Copying -/

/-- A new list has been made, and all else is as it was. -/
structure NewList (items : Items) (qs : Nat → Option (List Nat)) (items' : Items)
    (new : List Nat) : Prop where
  holds : Holds items' (Function.update qs items.headsMade (some new))
  made : items'.headsMade = items.headsMade + 1
  same : ∀ r ns, qs r = some ns → ∀ n ∈ ns, items'.elems n = items.elems n

/-- A list that has just been made is empty, and the others are as they were. -/
theorem newList_newHead (h : Holds items qs) : NewList items qs items.newHead [] :=
  ⟨h.newHead, rfl, fun _ _ _ _ _ => rfl⟩

variable {new : List Nat}

/-- The lists that there were are left alone. -/
theorem NewList.content_eq (h : NewList items qs items' new) (hq : qs q = some ns) :
    Memory.content items' ns = Memory.content items ns :=
  Memory.content_congr fun n hn => congrArg _ (h.same q ns hq n hn)

/-- An item is added to a list. -/
theorem add_eq (h : Holds items qs) (hq : qs q = some ns) (in_ : Nat) :
    ∃ items', items.add q in_ = .ok items' ∧
      Holds items' (Function.update qs q (some (items.elemsMade :: ns))) ∧
      Memory.content items' (items.elemsMade :: ns) = in_ :: Memory.content items ns ∧
      (∀ r ns', r ≠ q → qs r = some ns' → ∀ n ∈ ns', items'.elems n = items.elems n) ∧
      items'.headsMade = items.headsMade := by
  obtain ⟨items', hinsert, hholds, hnew, hold, hsame, -, hmade⟩ :=
    h.insertHead hq ⟨in_, none, .first q⟩
  refine ⟨items', by rw [add, hinsert]; rfl, hholds, ?_, hsame, hmade⟩
  obtain ⟨elem, helem, hdata⟩ := Option.map_eq_some_iff.mp hnew
  rw [Memory.content_cons helem, hdata]
  congr 1
  exact Memory.content_congr fun n hn => hold n (h.elemsMade (h.elems_ne_none hq hn)).ne

/-- `indexnodes_list_add` puts the item at the head of the new list and leaves the others alone.
    -/
theorem NewList.add (h : Holds items qs) (hnew : NewList items qs items' new) (in_ : Nat) :
    ∃ items'' n, items'.add items.headsMade in_ = .ok items'' ∧
      NewList items qs items'' (n :: new) ∧
      Memory.content items'' (n :: new) = in_ :: Memory.content items' new := by
  obtain ⟨items'', hadd, hholds, hcontent, hsame, hmade⟩ :=
    add_eq hnew.holds (Function.update_self _ _ _) in_
  refine ⟨items'', items'.elemsMade, hadd, ⟨?_, hmade.trans hnew.made, ?_⟩, hcontent⟩
  · rwa [Function.update_idem] at hholds
  · intro r ns hr n hn
    have hne : r ≠ items.headsMade := (h.headsMade (h.heads_ne_none hr)).ne
    exact (hsame r ns hne ((Function.update_of_ne hne _ _).trans hr) n hn).trans
      (hnew.same r ns hr n hn)

/-- Copying an item has gone in memory as it has for a list. -/
inductive Copies (items : Items) (qs : Nat → Option (List Nat)) :
    Except Fault (RefCounts × Items) → Except Fault (RefCounts × List Nat) → Prop
  | error (f : Fault) : Copies items qs (.error f) (.error f)
  | ok {refs : RefCounts} {items' : Items} {new : List Nat} (h : NewList items qs items' new) :
    Copies items qs (.ok (refs, items')) (.ok (refs, Memory.content items' new))

/-- The body of the loop over a list. -/
def copyInto (p : Nat → Bool) :
    RefCounts × List Nat → Nat → Except Fault (RefCounts × List Nat)
  | (refs, ret), in_ => do
    let _ ← refs.access in_
    if p in_ then
      let refs ← refs.indexnodeCopy in_
      return (refs, IndexnodesList.add ret in_)
    else return (refs, ret)

/-- An item is copied as its indexnode is. -/
theorem copyItem_cases (h : Holds items qs) (hnew : NewList items qs items' new)
    (helem : items'.elems n = some elem) (p : Nat → Bool) (refs : RefCounts) :
    (∃ f, copyItem p items.headsMade n (refs, items') = .error f ∧
      copyInto p (refs, Memory.content items' new) elem.data = .error f) ∨
    ∃ refs' items'' new', copyItem p items.headsMade n (refs, items') =
        .ok (.yield (refs', items'')) ∧
      copyInto p (refs, Memory.content items' new) elem.data =
        .ok (refs', Memory.content items'' new') ∧ NewList items qs items'' new' := by
  rw [copyItem, item_eq helem, copyInto]
  cases haccess : refs.access elem.data with
  | error f => exact .inl ⟨f, by simp only [bind, Except.bind, haccess], rfl⟩
  | ok count =>
    -- a copy of the indexnode goes into the new list if it is wanted
    by_cases hp : p elem.data = true
    · cases hcopy : refs.indexnodeCopy elem.data with
      | error f =>
        refine .inl ⟨f, ?_, ?_⟩ <;> simp only [bind, Except.bind, haccess, hp, hcopy, if_true]
      | ok refs' =>
        obtain ⟨items'', n', hadd, hnew', hcontent⟩ := hnew.add h elem.data
        refine .inr ⟨refs', items'', n' :: new, ?_, ?_, hnew'⟩
        · simp only [bind, Except.bind, haccess, hp, hcopy, if_true, hadd, pure, Except.pure]
        · simp only [bind, Except.bind, hp, if_true, pure, Except.pure, hcontent,
            IndexnodesList.add]
    · refine .inr ⟨refs, items', new, ?_, ?_, hnew⟩
      · simp only [bind, Except.bind, haccess, hp, pure, Except.pure]
        rfl
      · simp only [bind, Except.bind, hp, pure, Except.pure]
        rfl

/-- The loop of the copies puts into the new list what the plain loop puts there. -/
theorem forIn_copyItem (h : Holds items qs) (hnew : NewList items qs items' new) (p : Nat → Bool)
    (hns : ∀ n ∈ ns, ∃ r ns', qs r = some ns' ∧ n ∈ ns') :
    Copies items qs (forIn ns (refs, items') (copyItem p items.headsMade))
      ((items.content ns).foldlM (copyInto p) (refs, Memory.content items' new)) := by
  induction ns generalizing refs items' new with
  | nil => exact .ok hnew
  | cons n ns ih =>
    obtain ⟨r, ns', hr, hn⟩ := hns n List.mem_cons_self
    obtain ⟨elem, helem⟩ := Option.ne_none_iff_exists'.mp (h.elems_ne_none hr hn)
    have helem' : items'.elems n = some elem := (hnew.same r ns' hr n hn).trans helem
    rw [Memory.content_cons helem, List.forIn_cons, List.foldlM_cons]
    obtain ⟨f, hitem, hlist⟩ | ⟨refs', items'', new', hitem, hlist, hnew'⟩ :=
      copyItem_cases h hnew helem' p refs
    · rw [hitem, hlist]
      exact .error f
    · rw [hitem, hlist]
      exact ih hnew' fun n hn => hns n (List.mem_cons_of_mem _ hn)

/-- `indexnodes_list_copy` and `indexnodes_list_remove_expired` come to an end with the copy
    that the plain list makes. -/
theorem copyIf_run (h : Holds items qs) (hq : qs q = some ns) (refs : RefCounts)
    (p : Nat → Bool) :
    ∃ x, (items.copyIf p refs q).run = some x ∧
      Copies items qs x (refs.listCopyIf p (items.content ns)) := by
  have hnew := newList_newHead h
  have hne : q ≠ items.headsMade := (h.headsMade (h.heads_ne_none hq)).ne
  obtain ⟨head, hlist, hfirst⟩ := list_eq hnew.holds ((Function.update_of_ne hne _ _).trans hq)
  refine ⟨forIn ns (refs, items.newHead) (copyItem p items.headsMade), ?_, ?_⟩
  · rw [copyIf, hlist]
    show (forEach _ _ _ head.first (refs, items.newHead)).run = _
    rw [hfirst]
    -- the links of the list that is copied stay as they are
    refine forEach_eq_forIn (fun rest (s : RefCounts × Items) => (∃ pre, ns = pre ++ rest) ∧
      ∃ new, NewList items qs s.2 new) ?_ ⟨⟨[], rfl⟩, [], hnew⟩ (h.length_le hq)
    rintro n rest ⟨refs, items'⟩ s' ⟨⟨pre, rfl⟩, new, hnew⟩ hcopy
    have hn : n ∈ pre ++ n :: rest := List.mem_append_right _ List.mem_cons_self
    obtain ⟨elem, helem⟩ := Option.ne_none_iff_exists'.mp (h.elems_ne_none hq hn)
    obtain ⟨f, hitem, -⟩ | ⟨refs', items'', new', hitem, -, hnew'⟩ :=
      copyItem_cases h hnew ((hnew.same q _ hq n hn).trans helem) p refs
    · cases hitem.symm.trans hcopy
    · obtain rfl := ForInStep.yield.inj (Except.ok.inj (hitem.symm.trans hcopy))
      refine ⟨(next_congr (hnew'.same q _ hq n hn)).trans (next_of_append h hq), ?_, new', hnew'⟩
      exact ⟨pre ++ [n], by simp⟩
  · exact forIn_copyItem h hnew p fun n hn => ⟨q, ns, hq, hn⟩

end Items

/-! ### Clients -/

namespace ItemsClient

open ListsClient (Label)

variable {s s' : ItemsClient} {a a' : ListsClient} {qs qs' : Nat → Option (List Nat)}
  {made made' : Nat}

/-- An iterator is at the item that has so many to go, if its list is still there. -/
def IterAt (qs : Nat → Option (List Nat)) (made : Nat) (iter : Nat × Option Nat)
    (iter' : Nat × Nat) : Prop :=
  iter'.1 = iter.1 ∧ iter.1 < made ∧
    ∀ ns, qs iter.1 = some ns → iter'.2 ≤ ns.length ∧ iter.2 = ns[ns.length - iter'.2]?

/-- The lists in memory are the client's lists. -/
structure Refines (s : ItemsClient) (a : ListsClient) (qs : Nat → Option (List Nat)) : Prop where
  store : s.store = a.store
  refs : s.refs = a.refs
  handles : s.handles = a.handles
  holds : Holds s.items qs
  made : a.lists.length = s.items.headsMade
  lists : ∀ q, (a.lists[q]?).join = (qs q).map s.items.content
  iterators : List.Forall₂ (Option.Rel (IterAt qs s.items.headsMade)) s.iterators a.iterators

/-- The client has come back from a call as it has from that of the other. -/
inductive Agrees : Option (Except Fault ItemsClient) → Except Fault ListsClient → Prop
  | error (f : Fault) : Agrees (some (.error f)) (.error f)
  | ok {s : ItemsClient} {a : ListsClient} {qs : Nat → Option (List Nat)} (h : Refines s a qs) :
    Agrees (some (.ok s)) (.ok a)

/-! ### Iterators -/

/-- An iterator stays at its item when lists are made and items put at the heads of others. -/
theorem IterAt.mono {iter : Nat × Option Nat} {iter' : Nat × Nat} (h : IterAt qs made iter iter')
    (hmade : made ≤ made') (hgrows : ∀ list < made, ∀ ns', qs' list = some ns' →
      ∃ added ns, qs list = some ns ∧ ns' = added ++ ns) : IterAt qs' made' iter iter' := by
  obtain ⟨hlist, hlt, hat⟩ := h
  refine ⟨hlist, hlt.trans_le hmade, fun ns' hns' => ?_⟩
  obtain ⟨added, ns, hns, rfl⟩ := hgrows iter.1 hlt ns' hns'
  obtain ⟨hle, hcur⟩ := hat ns hns
  rw [List.length_append]
  refine ⟨by omega, ?_⟩
  -- items are added before it only
  rw [List.getElem?_append_right (by omega), hcur]
  congr 1
  omega

/-- All iterators stay at their items when lists are made and items put at the heads of others. -/
theorem iterators_mono {iters : List (Option (Nat × Option Nat))}
    {iters' : List (Option (Nat × Nat))}
    (h : List.Forall₂ (Option.Rel (IterAt qs made)) iters iters') (hmade : made ≤ made')
    (hgrows : ∀ list < made, ∀ ns', qs' list = some ns' →
      ∃ added ns, qs list = some ns ∧ ns' = added ++ ns) :
    List.Forall₂ (Option.Rel (IterAt qs' made')) iters iters' := by
  refine h.imp fun x y hxy => ?_
  cases hxy with
  | some hat => exact .some (hat.mono hmade hgrows)
  | none => exact .none

/-- Related lists are related at every index. -/
theorem forall₂_getElem? {α β : Type} {R : α → β → Prop} {xs : List α} {ys : List β}
    (h : List.Forall₂ R xs ys) (i : Nat) : Option.Rel R xs[i]? ys[i]? := by
  induction h generalizing i with
  | nil => exact .none
  | cons hxy _ ih =>
    cases i with
    | zero => exact .some hxy
    | succ i => exact ih i

/-- Related elements can be put at the same index of related lists. -/
theorem forall₂_set {α β : Type} {R : α → β → Prop} {xs : List α} {ys : List β} {x : α} {y : β}
    (h : List.Forall₂ R xs ys) (hxy : R x y) (i : Nat) :
    List.Forall₂ R (xs.set i x) (ys.set i y) := by
  induction h generalizing i with
  | nil => exact .nil
  | cons h hrest ih =>
    cases i with
    | zero => exact .cons hxy hrest
    | succ i => exact .cons h (ih i)

/-- Related elements can be put at the ends of related lists. -/
theorem forall₂_concat {α β : Type} {R : α → β → Prop} {xs : List α} {ys : List β} {x : α} {y : β}
    (h : List.Forall₂ R xs ys) (hxy : R x y) : List.Forall₂ R (xs ++ [x]) (ys ++ [y]) :=
  List.rel_append h (.cons hxy .nil)

/-- An iterator is there for both clients, or for neither. -/
theorem iter_cases (h : Refines s a qs) (iter : Nat) :
    ((s.iterators[iter]?).join = none ∧ (a.iterators[iter]?).join = none) ∨
      ∃ x y, (s.iterators[iter]?).join = some x ∧ (a.iterators[iter]?).join = some y ∧
        IterAt qs s.items.headsMade x y := by
  have hrel := forall₂_getElem? h.iterators iter
  generalize s.iterators[iter]? = x at hrel
  generalize a.iterators[iter]? = y at hrel
  cases hrel with
  | none => exact .inl ⟨rfl, rfl⟩
  | some hxy =>
    cases hxy with
    | none => exact .inl ⟨rfl, rfl⟩
    | some hat => exact .inr ⟨_, _, rfl, rfl, hat⟩

/-- A list is on both sides, with the same indexnodes, or on neither. -/
theorem list_cases (h : Refines s a qs) (q : Nat) :
    (qs q = none ∧ s.items.heads q = none ∧ (a.lists[q]?).join = none) ∨
      ∃ ns, qs q = some ns ∧ s.items.heads q ≠ none ∧
        (a.lists[q]?).join = some (s.items.content ns) := by
  have hlists := h.lists q
  cases hq : qs q with
  | none =>
    rw [hq] at hlists
    exact .inl ⟨rfl, h.holds.gone hq, hlists⟩
  | some ns =>
    rw [hq] at hlists
    exact .inr ⟨ns, rfl, h.holds.heads_ne_none hq, hlists⟩

/-- A list has a head exactly if the plain lists have it. -/
theorem list_live (h : Refines s a qs) (q : Nat) :
    (s.items.heads q).isSome = (a.lists[q]?).join.isSome := by
  obtain ⟨-, hheads, hlists⟩ | ⟨ns, -, hheads, hlists⟩ := list_cases h q
  · rw [hheads, hlists]
    rfl
  · rw [Option.isSome_iff_ne_none.mpr hheads, hlists]
    rfl

/-- An iterator of a list that is there has some items to go unless it is at the end. -/
theorem iter_ahead (h : Refines s a qs) {iter : Nat × Option Nat} {iter' : Nat × Nat}
    (hat : IterAt qs s.items.headsMade iter iter') :
    ((s.items.heads iter.1).isSome ∧ iter.2 ≠ none) ↔
      (a.lists[iter'.1]?).join.isSome ∧ iter'.2 ≠ 0 := by
  obtain ⟨hlist, -, hat⟩ := hat
  rw [list_live h, hlist]
  refine and_congr_right fun hlive => ?_
  obtain ⟨-, -, hlists⟩ | ⟨ns, hns, -, -⟩ := list_cases h iter.1
  · rw [hlists] at hlive
    cases hlive
  · obtain ⟨hle, hcur⟩ := hat ns hns
    rw [hcur, ne_eq, List.getElem?_eq_none_iff]
    omega

/-- What is legal for one is legal for the other. -/
theorem legal_iff (h : Refines s a qs) (l : Label) : s.Legal l ↔ a.Legal l := by
  cases l with
  | indexnodeNew new | new => exact Iff.rfl
  | indexnodeCopy in_ | indexnodeDelete in_ | indexnodeSeen in_ now =>
    rw [Legal, ListsClient.Legal, h.handles]
  | add list in_ => rw [Legal, ListsClient.Legal, h.handles, list_live h]
  | find list id | copy list | removeExpired list now timeout | delete list
  | iteratorBegin list => rw [Legal, ListsClient.Legal, list_live h]
  -- an iterator has an item left on the one side exactly if it has on the other
  | iteratorCurrent iter | iteratorNext iter =>
    rw [Legal, ListsClient.Legal]
    obtain ⟨hnone, hnone'⟩ | ⟨x, y, hx, hy, hat⟩ := iter_cases h iter
    · rw [hnone, hnone']
      exact Iff.rfl
    · rw [hx, hy, Option.any_some, Option.any_some, decide_eq_true_iff, decide_eq_true_iff]
      exact iter_ahead h hat
  | iteratorDelete iter =>
    rw [Legal, ListsClient.Legal]
    obtain ⟨hnone, hnone'⟩ | ⟨x, y, hx, hy, -⟩ := iter_cases h iter
    · rw [hnone, hnone']
      exact Iff.rfl
    · rw [hx, hy]
      exact Iff.rfl

/-! ### Calls on lists -/

/-- What is set at an index is read there, and nowhere else. -/
theorem join_getElem?_set {β : Type} {xs : List (Option β)} {i : Nat} (hi : i < xs.length)
    (x : Option β) (j : Nat) :
    ((xs.set i x)[j]?).join = if j = i then x else (xs[j]?).join := by
  split
  · rename_i hj
    rw [hj, List.getElem?_set_self hi, Option.join_some]
  · rename_i hj
    rw [List.getElem?_set_ne (Ne.symm hj)]

/-- What is put at the end is read at the old length, and nowhere else. -/
theorem join_getElem?_concat {β : Type} (xs : List (Option β)) (x : Option β) (j : Nat) :
    ((xs ++ [x])[j]?).join = if j = xs.length then x else (xs[j]?).join := by
  split
  · rename_i hj
    rw [hj, List.getElem?_concat_length, Option.join_some]
  · rename_i hj
    by_cases hlt : j < xs.length
    · rw [List.getElem?_append_left hlt]
    · have hlen : (xs ++ [x]).length = xs.length + 1 := List.length_append
      rw [List.getElem?_eq_none (by omega), List.getElem?_eq_none (by omega)]

/-- A list that is there. -/
theorem exists_of_live (h : Refines s a qs) {q : Nat} (hlive : (a.lists[q]?).join.isSome) :
    ∃ ns, qs q = some ns ∧ a.items q = .ok (s.items.content ns) ∧ q < a.lists.length := by
  obtain ⟨-, -, hlists⟩ | ⟨ns, hns, -, hlists⟩ := list_cases h q
  · rw [hlists] at hlive
    cases hlive
  · refine ⟨ns, hns, by rw [ListsClient.items, hlists]; rfl, ?_⟩
    rw [h.made]
    exact h.holds.headsMade (h.holds.heads_ne_none hns)

/-- Only the references have changed. -/
theorem Refines.withRefs (h : Refines s a qs) {store store' : List Indexnode}
    {refs refs' : RefCounts} {handles handles' : Nat → Nat} (hstore : store = store')
    (hrefs : refs = refs') (hhandles : handles = handles') :
    Refines { s with store := store, refs := refs, handles := handles }
      { a with store := store', refs := refs', handles := handles' } qs :=
  ⟨hstore, hrefs, hhandles, h.holds, h.made, h.lists, h.iterators⟩

/-- The lists have changed, so that the iterators are where they were. -/
theorem Refines.withLists (h : Refines s a qs) {items : Items} {lists : List (Option (List Nat))}
    {refs refs' : RefCounts} {handles handles' : Nat → Nat} (hrefs : refs = refs')
    (hhandles : handles = handles') (hholds : Holds items qs')
    (hmade : lists.length = items.headsMade) (hle : s.items.headsMade ≤ items.headsMade)
    (hlists : ∀ q, (lists[q]?).join = (qs' q).map items.content)
    (hgrows : ∀ q < s.items.headsMade, ∀ ns', qs' q = some ns' →
      ∃ added ns, qs q = some ns ∧ ns' = added ++ ns) :
    Refines { s with refs := refs, items := items, handles := handles }
      { a with refs := refs', lists := lists, handles := handles' } qs' :=
  ⟨h.store, hrefs, hhandles, hholds, hmade, hlists, iterators_mono h.iterators hle hgrows⟩

/-- A list has been made. -/
theorem Refines.withNewList (h : Refines s a qs) {items : Items} {new : List Nat}
    {refs refs' : RefCounts} (hrefs : refs = refs') (hnew : Items.NewList s.items qs items new) :
    Refines { s with refs := refs, items := items }
      { a with refs := refs', lists := a.lists ++ [some (items.content new)] }
      (Function.update qs s.items.headsMade (some new)) := by
  -- the lists that were there have stayed where they were
  have hother : ∀ q ≠ s.items.headsMade,
      Function.update qs s.items.headsMade (some new) q = qs q :=
    fun q hq => Function.update_of_ne hq _ _
  refine h.withLists hrefs h.handles hnew.holds ?_ ?_ (fun q => ?_) fun q hq ns' hns' => ?_
  · rw [hnew.made, ← h.made]
    exact List.length_append
  · exact (Nat.le_succ _).trans_eq hnew.made.symm
  · rw [join_getElem?_concat, h.made]
    split
    · rename_i hq
      rw [hq, Function.update_self, Option.map_some]
    · rename_i hq
      rw [hother q hq, h.lists]
      cases hns : qs q with
      | none => rfl
      | some ns => rw [Option.map_some, Option.map_some, hnew.content_eq hns]
  · rw [hother q hq.ne] at hns'
    exact ⟨[], ns', hns', rfl⟩

/-- A list has been deleted. -/
theorem Refines.withoutList (h : Refines s a qs) {q : Nat} {ns : List Nat} (hq : qs q = some ns)
    {refs refs' : RefCounts} (hrefs : refs = refs') :
    Refines { s with refs := refs, items := (s.items.freeElems ns).freeHead q }
      { a with refs := refs', lists := a.lists.set q none } (Function.update qs q none) := by
  have hmade : ((s.items.freeElems ns).freeHead q).headsMade = s.items.headsMade :=
    Memory.headsMade_freeElems s.items ns
  have hlt : q < a.lists.length := h.made ▸ h.holds.headsMade (h.holds.heads_ne_none hq)
  have hother : ∀ r ≠ q, Function.update qs q none r = qs r :=
    fun r hr => Function.update_of_ne hr _ _
  refine h.withLists hrefs h.handles (h.holds.delete hq) ?_ hmade.ge (fun r => ?_)
    fun r hr ns' hns' => ?_
  · rw [List.length_set, hmade, h.made]
  · rw [join_getElem?_set hlt]
    split
    · rename_i hr
      rw [hr, Function.update_self]
      rfl
    · rename_i hr
      rw [hother r hr, h.lists]
      cases hns : qs r with
      | none => rfl
      | some ns' =>
        rw [Option.map_some, Option.map_some]
        congr 1
        -- what is on other lists has not been freed
        refine (Memory.content_congr fun n hn => ?_).symm
        have hmem : n ∉ ns := fun hmem => hr (h.holds.disjoint hns hq hn hmem)
        rw [show ((s.items.freeElems ns).freeHead q).elems n = (s.items.freeElems ns).elems n
          from rfl, Memory.elems_freeElems, if_neg hmem]
  · have hrq : r ≠ q := by
      rintro rfl
      rw [Function.update_self] at hns'
      cases hns'
    rw [hother r hrq] at hns'
    exact ⟨[], ns', hns', rfl⟩

/-- `indexnodes_list_new` does the same on both sides. -/
theorem new_agrees (h : Refines s a qs) : Agrees (s.apply .new).run (a.apply .new) :=
  .ok (h.withNewList h.refs (Items.newList_newHead h.holds))

/-- Taking a reference does the same on both sides. -/
theorem take_eq (h : Refines s a qs) (in_ : Nat) : s.take in_ = a.take in_ := by
  rw [take, ListsClient.take, h.handles]

/-- Giving a reference back does the same on both sides. -/
theorem give_eq (h : Refines s a qs) (in_ : Nat) : s.give in_ = a.give in_ := by
  rw [give, ListsClient.give, h.handles]

/-- `indexnodes_list_add` does the same on both sides. -/
theorem add_agrees (h : Refines s a qs) {q : Nat} (hlive : (a.lists[q]?).join.isSome) (in_ : Nat) :
    Agrees (s.apply (.add q in_)).run (a.apply (.add q in_)) := by
  obtain ⟨ns, hq, hitems, hlt⟩ := exists_of_live h hlive
  obtain ⟨items', hadd, hholds, hcontent, hsame, hmade⟩ := Items.add_eq h.holds hq in_
  have hother : ∀ r ≠ q, Function.update qs q (some (s.items.elemsMade :: ns)) r = qs r :=
    fun r hr => Function.update_of_ne hr _ _
  rw [ItemsClient.apply, hadd, ListsClient.apply, hitems]
  -- of the lists only the one that has been added to has changed
  refine .ok (h.withLists h.refs (give_eq h in_) hholds ?_ hmade.ge (fun r => ?_)
    fun r hr ns' hns' => ?_)
  · rw [List.length_set, h.made, hmade]
  · rw [join_getElem?_set hlt]
    split
    · rename_i hr
      rw [hr, Function.update_self, Option.map_some, hcontent, IndexnodesList.add]
    · rename_i hr
      rw [hother r hr, h.lists]
      cases hns : qs r with
      | none => rfl
      | some ns' =>
        -- an item that is put in front of a list leaves the others' content alone
        have hcongr : Memory.content items' ns' = s.items.content ns' :=
          Memory.content_congr fun n hn => congrArg _ (hsame r ns' hr hns n hn)
        rw [Option.map_some, Option.map_some, hcongr]
  · by_cases hrq : r = q
    · subst hrq
      rw [Function.update_self] at hns'
      exact ⟨[s.items.elemsMade], ns, hq, (Option.some.inj hns').symm⟩
    · rw [hother r hrq] at hns'
      exact ⟨[], ns', hns', rfl⟩

/-- `indexnodes_list_find` does the same on both sides. -/
theorem find_agrees (h : Refines s a qs) {q : Nat} (hlive : (a.lists[q]?).join.isSome)
    (id : List UInt8) : Agrees (s.apply (.find q id)).run (a.apply (.find q id)) := by
  obtain ⟨ns, hq, hitems, -⟩ := exists_of_live h hlive
  rw [ItemsClient.apply, ExceptT.run_bind, Items.find_run h.holds hq, ListsClient.apply, hitems,
    h.store, h.refs]
  simp only [bind, Except.bind]
  cases a.refs.listFind a.store id (s.items.content ns) with
  | error f => exact .error f
  | ok x =>
    obtain ⟨refs, found⟩ := x
    refine .ok (h.withRefs rfl rfl ?_)
    cases found with
    | none => exact h.handles
    | some in_ => exact take_eq h in_

/-- `indexnodes_list_copy` does the same on both sides. -/
theorem copy_agrees (h : Refines s a qs) {q : Nat} (hlive : (a.lists[q]?).join.isSome) :
    Agrees (s.apply (.copy q)).run (a.apply (.copy q)) := by
  obtain ⟨ns, hq, hitems, -⟩ := exists_of_live h hlive
  obtain ⟨x, hrun, hcopies⟩ := Items.copyIf_run h.holds hq s.refs fun _ => true
  rw [ItemsClient.apply, ExceptT.run_bind, hrun, ListsClient.apply, hitems, ← h.refs]
  simp only [bind, Except.bind, RefCounts.listCopy]
  generalize s.refs.listCopyIf (fun _ => true) (s.items.content ns) = y at hcopies ⊢
  cases hcopies with
  | error f => exact .error f
  | ok hnew => exact .ok (h.withNewList rfl hnew)

/-- `indexnodes_list_delete` does the same on both sides. -/
theorem delete_agrees (h : Refines s a qs) {q : Nat} (hlive : (a.lists[q]?).join.isSome) :
    Agrees (s.apply (.delete q)).run (a.apply (.delete q)) := by
  obtain ⟨ns, hq, hitems, -⟩ := exists_of_live h hlive
  rw [ItemsClient.apply, ExceptT.run_bind, Items.delete_run h.holds hq s.refs, ListsClient.apply,
    hitems, h.refs]
  simp only [bind, Except.bind]
  cases a.refs.listDelete (s.items.content ns) with
  | error f => exact .error f
  | ok refs => exact .ok (h.withoutList hq rfl)

/-- `indexnodes_list_remove_expired` does the same on both sides. -/
theorem removeExpired_agrees (h : Refines s a qs) {q : Nat} (hlive : (a.lists[q]?).join.isSome)
    (now timeout : Int) :
    Agrees (s.apply (.removeExpired q now timeout)).run
      (a.apply (.removeExpired q now timeout)) := by
  obtain ⟨ns, hq, hitems, hlt⟩ := exists_of_live h hlive
  obtain ⟨x, hrun, hcopies⟩ := Items.copyIf_run h.holds hq s.refs
    (RefCounts.stillValid s.store now timeout)
  rw [ItemsClient.apply, ExceptT.run_bind, Items.removeExpired, ExceptT.run_bind, hrun,
    ListsClient.apply, hitems, ← h.refs, ← h.store]
  simp only [bind, Except.bind, RefCounts.listRemoveExpired]
  generalize s.refs.listCopyIf (RefCounts.stillValid s.store now timeout)
    (s.items.content ns) = y at hcopies ⊢
  cases hcopies with
  | error f => exact .error f
  | @ok refs items' new hnew =>
    have hcopied := h.withNewList (Eq.refl refs) hnew
    have hq' : Function.update qs s.items.headsMade (some new) q = some ns :=
      (Function.update_of_ne (h.holds.headsMade (h.holds.heads_ne_none hq)).ne _ _).trans hq
    -- the old list is deleted after the copies have been made
    have hset : (a.lists ++ [some (Memory.content items' new)]).set q none =
        a.lists.set q none ++ [some (Memory.content items' new)] := List.set_append_left _ _ hlt
    have hrun' := Items.delete_run hcopied.holds hq' refs
    rw [hnew.content_eq hq] at hrun'
    dsimp only at hrun'
    simp only [Option.bind_some, hrun']
    cases hdelete : refs.listDelete (s.items.content ns) with
    | error f => exact .error f
    | ok refs' =>
      have hdeleted := hcopied.withoutList hq' (Eq.refl refs')
      rw [hset, ← h.store] at hdeleted
      exact .ok hdeleted

/-! ### Calls on indexnodes -/

/-- A call on an indexnode, which touches no list, does the same on both sides. -/
theorem indexnode_agrees (h : Refines s a qs) (x : Except Fault RefCounts)
    {handles handles' : Nat → Nat} (hhandles : handles = handles') :
    Agrees (do
        let refs ← Items.done x
        pure { s with refs := refs, handles := handles } : ExceptT Fault Option ItemsClient).run
      (do
        let refs ← x
        pure { a with refs := refs, handles := handles' }) := by
  cases x with
  | error f => exact .error f
  | ok refs => exact .ok (h.withRefs h.store rfl hhandles)

/-- `indexnode_seen` does the same on both sides. -/
theorem indexnodeSeen_agrees (h : Refines s a qs) (in_ : Nat) (now : Int) :
    Agrees (s.apply (.indexnodeSeen in_ now)).run (a.apply (.indexnodeSeen in_ now)) := by
  rw [ItemsClient.apply, ListsClient.apply, h.refs, h.store]
  cases a.refs.access in_ with
  | error f => exact .error f
  | ok count => exact .ok (h.withRefs rfl rfl h.handles)

/-! ### Calls on iterators -/

/-- The item of an iterator that is not at the end. -/
theorem currentItem_eq (h : Refines s a qs) {iter : Nat} {x : Nat × Option Nat} {y : Nat × Nat}
    (hx : (s.iterators[iter]?).join = some x) (hy : (a.iterators[iter]?).join = some y)
    (hat : IterAt qs s.items.headsMade x y) (hlive : (a.lists[y.1]?).join.isSome)
    (hleft : y.2 ≠ 0) :
    ∃ elem, s.currentItem iter = .ok (x.1, elem) ∧ a.currentItem iter = .ok elem.data ∧
      IterAt qs s.items.headsMade (x.1, elem.next) (y.1, y.2 - 1) := by
  obtain ⟨list, cur⟩ := x
  obtain ⟨list', left⟩ := y
  obtain ⟨rfl, hlt, hat⟩ := hat
  obtain ⟨ns, hns, hitems, -⟩ := exists_of_live h hlive
  obtain ⟨hle, hcur⟩ := hat ns hns
  dsimp only at hle hcur hleft hitems hlt
  -- an iterator with items left stands at one
  obtain ⟨n, hn⟩ : ∃ n, ns[ns.length - left]? = some n :=
    ⟨_, List.getElem?_eq_getElem (by omega)⟩
  obtain ⟨elem, helem, hnext⟩ := h.holds.next_eq hns hn
  have hcontent := Memory.length_content fun n hn => h.holds.elems_ne_none hns hn
  rw [hn] at hcur
  refine ⟨elem, ?_, ?_, rfl, hlt, fun ns' hns' => ?_⟩
  · rw [currentItem, current, hx, hcur]
    show (do return (list', ← s.items.item n) : Except Fault (Nat × Elem Nat)) = _
    rw [Items.item_eq helem]
    rfl
  · rw [ListsClient.currentItem, ListsClient.iterator, hy]
    show (do
      let ins ← a.items list'
      (ins[ins.length - left]?).elim (.error .nullPointer) .ok : Except Fault Nat) = _
    rw [hitems]
    show ((s.items.content ns)[(s.items.content ns).length - left]?).elim _ _ = _
    rw [hcontent, Memory.getElem?_content fun n hn => h.holds.elems_ne_none hns hn, hn,
      Option.bind_some, helem]
    rfl
  -- and is at the next one afterwards
  · obtain rfl := Option.some.inj (hns.symm.trans hns')
    refine ⟨(Nat.sub_le _ _).trans hle, hnext.trans ?_⟩
    congr 1
    dsimp only
    omega

/-- Changing the iterators alone keeps the lists refined. -/
theorem Refines.withIterators (h : Refines s a qs) {iters : List (Option (Nat × Option Nat))}
    {iters' : List (Option (Nat × Nat))}
    (hiters : List.Forall₂ (Option.Rel (IterAt qs s.items.headsMade)) iters iters') :
    Refines { s with iterators := iters } { a with iterators := iters' } qs :=
  ⟨h.store, h.refs, h.handles, h.holds, h.made, h.lists, hiters⟩

/-- `indexnodes_iterator_begin` does the same on both sides. -/
theorem iteratorBegin_agrees (h : Refines s a qs) {q : Nat}
    (hlive : (a.lists[q]?).join.isSome) :
    Agrees (s.apply (.iteratorBegin q)).run (a.apply (.iteratorBegin q)) := by
  obtain ⟨ns, hq, hitems, hlt⟩ := exists_of_live h hlive
  obtain ⟨head, hlist, hfirst⟩ := Items.list_eq h.holds hq
  have hcontent := Memory.length_content fun n hn => h.holds.elems_ne_none hq hn
  rw [ItemsClient.apply, hlist, ListsClient.apply, hitems]
  refine .ok (h.withIterators (forall₂_concat h.iterators (.some ⟨rfl, ?_, fun ns' hns' => ?_⟩)))
  · exact hlt.trans_eq h.made
  · obtain rfl := Option.some.inj (hq.symm.trans hns')
    refine ⟨hcontent.le, hfirst.trans ?_⟩
    rw [hcontent, Nat.sub_self, List.head?_eq_getElem?]

/-- `indexnodes_iterator_current` does the same on both sides. -/
theorem iteratorCurrent_agrees (h : Refines s a qs) {iter : Nat}
    (hlegal : a.Legal (.iteratorCurrent iter)) :
    Agrees (s.apply (.iteratorCurrent iter)).run (a.apply (.iteratorCurrent iter)) := by
  obtain ⟨-, hnone⟩ | ⟨x, y, hx, hy, hat⟩ := iter_cases h iter
  · rw [ListsClient.Legal, hnone] at hlegal
    cases hlegal
  · rw [ListsClient.Legal, hy, Option.any_some, decide_eq_true_iff] at hlegal
    obtain ⟨elem, hitem, hitem', -⟩ := currentItem_eq h hx hy hat hlegal.1 hlegal.2
    rw [ItemsClient.apply, hitem, ListsClient.apply, hitem', ← h.refs]
    exact indexnode_agrees h _ (take_eq h _)

/-- `indexnodes_iterator_next` does the same on both sides. -/
theorem iteratorNext_agrees (h : Refines s a qs) {iter : Nat}
    (hlegal : a.Legal (.iteratorNext iter)) :
    Agrees (s.apply (.iteratorNext iter)).run (a.apply (.iteratorNext iter)) := by
  obtain ⟨-, hnone⟩ | ⟨x, y, hx, hy, hat⟩ := iter_cases h iter
  · rw [ListsClient.Legal, hnone] at hlegal
    cases hlegal
  · rw [ListsClient.Legal, hy, Option.any_some, decide_eq_true_iff] at hlegal
    obtain ⟨elem, hitem, hitem', hnext⟩ := currentItem_eq h hx hy hat hlegal.1 hlegal.2
    rw [ItemsClient.apply, hitem, ListsClient.apply, ListsClient.iterator, hy, hitem']
    exact .ok (h.withIterators
      (forall₂_concat (forall₂_set h.iterators .none iter) (.some hnext)))

/-- `indexnodes_iterator_delete` does the same on both sides. -/
theorem iteratorDelete_agrees (h : Refines s a qs) (iter : Nat) :
    Agrees (s.apply (.iteratorDelete iter)).run (a.apply (.iteratorDelete iter)) := by
  rw [ItemsClient.apply, current, ListsClient.apply, ListsClient.iterator]
  obtain ⟨hnone, hnone'⟩ | ⟨x, y, hx, hy, -⟩ := iter_cases h iter
  · rw [hnone, hnone']
    exact .error _
  · rw [hx, hy]
    exact .ok (h.withIterators (forall₂_set h.iterators .none iter))

/-! ### Runs -/

/-- The clients agree on every call that is legal. -/
theorem apply_agrees (h : Refines s a qs) {l : Label} (hlegal : a.Legal l) :
    Agrees (s.apply l).run (a.apply l) := by
  cases l with
  -- the calls on indexnodes touch no list
  | indexnodeNew new =>
    refine .ok (h.withRefs ?_ ?_ ?_)
    · rw [h.store]
    · rw [h.store, h.refs]
    · rw [h.store, take_eq h]
  | indexnodeCopy in_ =>
    rw [ItemsClient.apply, h.refs]
    exact indexnode_agrees h _ (take_eq h in_)
  | indexnodeDelete in_ =>
    rw [ItemsClient.apply, h.refs]
    exact indexnode_agrees h _ (give_eq h in_)
  | indexnodeSeen in_ now => exact indexnodeSeen_agrees h in_ now
  | new => exact new_agrees h
  | add list in_ => exact add_agrees h hlegal.1 in_
  | find list id => exact find_agrees h hlegal id
  | copy list => exact copy_agrees h hlegal
  | removeExpired list now timeout => exact removeExpired_agrees h hlegal now timeout
  | delete list => exact delete_agrees h hlegal
  | iteratorBegin list => exact iteratorBegin_agrees h hlegal
  | iteratorCurrent iter => exact iteratorCurrent_agrees h hlegal
  | iteratorNext iter => exact iteratorNext_agrees h hlegal
  | iteratorDelete iter => exact iteratorDelete_agrees h iter

/-- At the start there are no lists on either side. -/
theorem start_refines : Refines start ListsClient.start fun _ => none :=
  ⟨rfl, rfl, rfl, .empty, rfl, fun _ => rfl, .nil⟩

/-- A call comes back for one client as it does for the other. -/
theorem step_rel (h : Refines s a qs) (l : Label) :
    Option.Rel (fun s a => ∃ qs, Refines s a qs) (s.step l) (a.step l) := by
  rw [step, ListsClient.step]
  by_cases hlegal : a.Legal l
  · rw [if_pos ((legal_iff h l).mpr hlegal), if_pos hlegal]
    have hagrees := apply_agrees h hlegal
    generalize (s.apply l).run = x at hagrees
    generalize a.apply l = y at hagrees
    cases hagrees with
    | error f => exact .none
    | ok h' => exact .some ⟨_, h'⟩
  · rw [if_neg (mt (legal_iff h l).mp hlegal), if_neg hlegal]
    exact .none

/-- A run of the linked lists is one of the plain lists, and the other way round. -/
theorem runs_rel (ls : List Label) :
    Option.Rel (fun s a => ∃ qs, Refines s a qs) (exec step start ls)
      (exec ListsClient.step ListsClient.start ls) :=
  exec_rel (fun _ _ l ⟨_, h⟩ => step_rel h l) ⟨_, start_refines⟩ ls

/-- Every run of the linked lists refines one of the plain lists. -/
theorem exists_refines {ls : List Label} (hexec : exec step start ls = some s) :
    ∃ a qs, exec ListsClient.step ListsClient.start ls = some a ∧ Refines s a qs := by
  have hrel := runs_rel ls
  rw [hexec] at hrel
  generalize exec ListsClient.step ListsClient.start ls = x at hrel
  cases hrel with
  | some h =>
    obtain ⟨qs, h⟩ := h
    exact ⟨_, qs, rfl, h⟩

/-- A client of the lists in memory and a client of the lists that are lists get equally far with
    the same calls, and are then at the same: the same indexnodes with the same counts, on each list
    the same of them in the same order, and each iterator at the same place. -/
theorem exec_start_refines (ls : List Label) :
    (∀ s, exec step start ls = some s →
        ∃ a qs, exec ListsClient.step ListsClient.start ls = some a ∧ Refines s a qs) ∧
      ∀ a, exec ListsClient.step ListsClient.start ls = some a →
        ∃ s qs, exec step start ls = some s ∧ Refines s a qs := by
  refine ⟨fun s hexec => exists_refines hexec, fun a hexec => ?_⟩
  have hrel := runs_rel ls
  rw [hexec] at hrel
  generalize exec step start ls = x at hrel
  cases hrel with
  | some h =>
    obtain ⟨qs, h⟩ := h
    exact ⟨_, qs, rfl, h⟩

/-- Every legal call of a client comes to an end. As long as no indexnode gets as many references as
    a count can have, none reads a list, an item or an indexnode that has been freed, follows a null
    pointer or breaks an assertion. -/
theorem exec_start_safe (ls : List Label) (l : Label) (s : ItemsClient)
    (hexec : exec step start ls = some s) (hlegal : s.Legal l) :
    (s.apply l).run ≠ none ∧
      (StepsMeet ListsClient.step ListsClient.Room ListsClient.start (ls ++ [l]) →
        ∃ s', (s.apply l).run = some (.ok s')) := by
  obtain ⟨a, qs, hexec', h⟩ := exists_refines hexec
  have hlegal' := (legal_iff h l).mp hlegal
  have hagrees := apply_agrees h hlegal'
  generalize (s.apply l).run = x at hagrees
  generalize hy : a.apply l = y at hagrees
  refine ⟨?_, fun hroom => ?_⟩
  · cases hagrees with
    | error f | ok h' => exact Option.some_ne_none _
  -- with room the plain lists go through, and the linked ones with them
  · have hinv := ListsClient.exec_start_inv hexec' (hroom.of_prefix (List.prefix_append ls [l]))
    obtain ⟨a', happly, -⟩ := hinv.apply hlegal' (hroom.of_concat hexec')
    obtain rfl : y = .ok a' := hy.symm.trans happly
    cases hagrees with
    | @ok s' _ _ h' => exact ⟨s', rfl⟩

/-- An indexnode is put on a list and looked at there, and the list gives way to one of what is
    still valid. -/
def lookedAt : List Label :=
  [.indexnodeNew ListsClient.peer, .new, .add 0 0, .iteratorBegin 0, .iteratorCurrent 0,
    .removeExpired 0 0 60]

/-- Then the new list is deleted. -/
theorem exec_start_safe_lookedAt :
    ∃ s s', exec step start lookedAt = some s ∧ (s.apply (.delete 1)).run = some (.ok s') := by
  have hsome : ((exec step start lookedAt).map fun s => decide (s.Legal (.delete 1))) =
      some true := by decide
  obtain ⟨s, hexec, hlegal⟩ := Option.map_eq_some_iff.mp hsome
  have hroom : StepsMeet ListsClient.step ListsClient.Room ListsClient.start
      (lookedAt ++ [.delete 1]) := by decide
  obtain ⟨s', happly⟩ :=
    (exec_start_safe lookedAt (.delete 1) s hexec (of_decide_eq_true hlegal)).2 hroom
  exact ⟨s, s', hexec, happly⟩

end ItemsClient

end Fsfuse.Native
