import Fsfuse.ForStd.Transition
import Fsfuse.Native.IndexnodesListRefs

/-!
# The references of lists of indexnodes

Whatever a client does with lists of indexnodes, one call after the other, the reference count of
each indexnode is meant to be the number of the places on lists it is in and of the references
the client has.

A count has 32 bits, and nothing checks that it stays within them. As long as no indexnode has
as many references as that, those that are taken on the way included, the count is right and
nothing goes wrong (`exec_start_counted`).
-/

namespace Fsfuse.Native

open Transition

/-! ### Counts -/

namespace RefCounts

/-- The counts as they should be when there are so many references to each indexnode. -/
def counting (n : Nat → Nat) : RefCounts :=
  fun in_ => if n in_ = 0 then none else some (UInt32.ofNat (n in_))

variable {n : Nat → Nat} {in_ : Nat} {ins : List Nat}

/-- A count below `2 ^ 32` is 0 in a `uint32_t` only if it is 0. -/
theorem ofNat_eq_zero_iff {k : Nat} (hk : k < 2 ^ 32) : UInt32.ofNat k = 0 ↔ k = 0 := by
  rw [← UInt32.toNat_inj, UInt32.toNat_ofNat_of_lt' hk]
  rfl

/-- An indexnode that is referred to is allocated. -/
theorem access_counting (h : n in_ ≠ 0) :
    (counting n).access in_ = .ok (UInt32.ofNat (n in_)) := by
  simp [access, counting, h]

/-- The references to some indexnodes, with those of a list. -/
def plus (n : Nat → Nat) (ins : List Nat) : Nat → Nat := fun in_ => n in_ + ins.count in_

/-- References are added one after the other as they are added together. -/
theorem plus_plus (ins' : List Nat) : plus (plus n ins) ins' = plus n (ins ++ ins') := by
  funext j
  simp only [plus, List.count_append]
  omega

/-- The order in which references are added does not matter. -/
theorem plus_perm {ins' : List Nat} (h : ins.Perm ins') : plus n ins = plus n ins' := by
  funext j
  simp only [plus, h.count_eq]

/-- A reference is taken to an indexnode that there are some to, as long as there is room. -/
theorem indexnodeCopy_counting (h : n in_ ≠ 0) (hlt : n in_ < 2 ^ 32) :
    (counting n).indexnodeCopy in_ = .ok (counting (plus n [in_])) := by
  have hne : UInt32.ofNat (n in_) ≠ 0 := mt (ofNat_eq_zero_iff hlt).mp h
  -- one more is written where the count was, and nothing elsewhere
  have hupdate : Function.update (counting n) in_ (some (UInt32.ofNat (n in_) + 1)) =
      counting (plus n [in_]) := by
    funext j
    by_cases hj : j = in_
    · subst hj
      rw [Function.update_self, counting, plus, List.count_singleton_self,
        if_neg (Nat.succ_ne_zero _), UInt32.ofNat_add]
      rfl
    · rw [Function.update_of_ne hj, counting, counting, plus,
        List.count_eq_zero_of_not_mem (by simp [hj]), Nat.add_zero]
  rw [indexnodeCopy, access_counting h]
  simp only [bind, Except.bind]
  rw [if_neg hne]
  simp only [pure, Except.pure, hupdate]

/-- A reference is given back. -/
theorem indexnodeDelete_counting (hlt : n in_ + 1 < 2 ^ 32) :
    (counting (plus n [in_])).indexnodeDelete in_ = .ok (counting n) := by
  have hcount : plus n [in_] in_ = n in_ + 1 := by rw [plus, List.count_singleton_self]
  have hne : UInt32.ofNat (n in_ + 1) ≠ 0 := mt (ofNat_eq_zero_iff hlt).mp (Nat.succ_ne_zero _)
  have hsub : UInt32.ofNat (n in_ + 1) - 1 = UInt32.ofNat (n in_) := by
    rw [UInt32.ofNat_add]
    exact UInt32.add_sub_cancel _ _
  -- the last reference frees the indexnode: what is not referred to is not counted
  have hupdate : Function.update (counting (plus n [in_])) in_
      (if UInt32.ofNat (n in_) = 0 then none else some (UInt32.ofNat (n in_))) = counting n := by
    funext j
    by_cases hj : j = in_
    · subst hj
      rw [Function.update_self, counting]
      simp only [ofNat_eq_zero_iff (Nat.lt_of_succ_lt hlt)]
    · rw [Function.update_of_ne hj, counting, counting, plus,
        List.count_eq_zero_of_not_mem (by simp [hj]), Nat.add_zero]
  rw [indexnodeDelete, access_counting (by omega), hcount]
  simp only [bind, Except.bind]
  rw [if_neg hne, hsub]
  simp only [pure, Except.pure, hupdate]

/-- The references of a list are given back. -/
theorem listDelete_counting (hlt : ∀ j, plus n ins j < 2 ^ 32) :
    (counting (plus n ins)).listDelete ins = .ok (counting n) := by
  induction ins with
  | nil => rfl
  | cons i ins ih =>
    -- the one that is deleted first was added last
    have hsplit : plus n (i :: ins) = plus (plus n ins) [i] := by
      rw [plus_plus]
      exact plus_perm (List.perm_append_singleton i ins).symm
    have hlt' : ∀ j, plus n ins j < 2 ^ 32 := by
      intro j
      have hj := hlt j
      simp only [plus, List.count_cons] at hj ⊢
      omega
    have hi := hlt i
    rw [hsplit, plus, List.count_singleton_self] at hi
    rw [hsplit, listDelete, List.foldlM_cons, indexnodeDelete_counting hi]
    exact ih hlt'

/-- References are taken to those on a list that are to be on the new one, which has them the
    other way round. -/
theorem listCopyIf_counting (p : Nat → Bool) (hlive : ∀ i ∈ ins, n i ≠ 0)
    (hlt : ∀ j, n j + (ins.filter p).count j < 2 ^ 32) (ret : List Nat) :
    ins.foldlM
        (fun (refs, ret) in_ => do
          let _ ← access refs in_
          if p in_ then
            let refs ← indexnodeCopy refs in_
            return (refs, IndexnodesList.add ret in_)
          else return (refs, ret))
        (counting n, ret) =
      Except.ok (counting (plus n (ins.filter p)), (ins.filter p).reverse ++ ret) := by
  induction ins generalizing n ret with
  | nil => rfl
  | cons i ins ih =>
    obtain ⟨hi, hlive⟩ := List.forall_mem_cons.mp hlive
    rw [List.foldlM_cons]
    simp only [access_counting hi]
    by_cases hp : p i = true
    · rw [List.filter_cons_of_pos hp] at hlt ⊢
      have hroom := hlt i
      rw [List.count_cons_self] at hroom
      -- those that are still to be copied stay alive, and there is room for them
      have hlive' : ∀ j ∈ ins, plus n [i] j ≠ 0 :=
        fun j hj => Nat.ne_of_gt (Nat.add_pos_left (Nat.pos_of_ne_zero (hlive j hj)) _)
      have hlt' : ∀ j, plus n [i] j + (ins.filter p).count j < 2 ^ 32 := by
        intro j
        have hj := hlt j
        simp only [plus, List.count_cons, List.count_nil] at hj ⊢
        omega
      simp only [bind, Except.bind, if_pos hp, indexnodeCopy_counting hi (by omega)]
      rw [List.reverse_cons, List.append_assoc]
      exact (ih hlive' hlt' (i :: ret)).trans (by rw [plus_plus]; rfl)
    · rw [List.filter_cons_of_neg hp] at hlt ⊢
      simp only [bind, Except.bind, if_neg hp]
      exact ih hlive hlt ret

/-- A search takes a reference to what it finds. -/
theorem listFind_counting (store : List Indexnode) (id : List UInt8) (hlive : ∀ i ∈ ins, n i ≠ 0)
    (hlt : ∀ i ∈ ins, n i < 2 ^ 32) :
    (counting n).listFind store id ins =
      .ok (counting (plus n (IndexnodesList.find store ins id).toList),
        IndexnodesList.find store ins id) := by
  induction ins with
  | nil => rfl
  | cons i ins ih =>
    obtain ⟨hi, hlive⟩ := List.forall_mem_cons.mp hlive
    obtain ⟨hlt_i, hlt⟩ := List.forall_mem_cons.mp hlt
    rw [listFind, access_counting hi]
    by_cases hequals : IndexnodesList.equals store i id = true
    · have hfind : IndexnodesList.find store (i :: ins) id = some i :=
        List.find?_cons_of_pos hequals
      simp only [bind, Except.bind, if_pos hequals, indexnodeCopy_counting hi hlt_i, hfind]
      rfl
    · have hfind : IndexnodesList.find store (i :: ins) id = IndexnodesList.find store ins id :=
        List.find?_cons_of_neg hequals
      simp only [bind, Except.bind, if_neg hequals, hfind]
      exact ih hlive hlt

end RefCounts

/-! ### What is meant -/

namespace ListsClient

open RefCounts

/-- How many places on lists an indexnode is in. -/
def places (lists : List (Option (List Nat))) (in_ : Nat) : Nat :=
  (lists.map fun ins => (ins.getD []).count in_).sum

/-- The references to an indexnode: its places on lists, and those of the client. -/
def total (s : ListsClient) (in_ : Nat) : Nat := places s.lists in_ + s.handles in_

/-- The count of an indexnode, 0 when it has been freed. -/
def count (s : ListsClient) (in_ : Nat) : Nat := ((s.refs in_).map UInt32.toNat).getD 0

/-- The counts are right. -/
def Counted (s : ListsClient) : Prop := ∀ in_, s.count in_ = s.total in_

/-- The references that a call takes on the way. -/
def taken (s : ListsClient) (in_ : Nat) : Label → Nat
  | .indexnodeNew _ => if in_ = s.store.length then 1 else 0
  | .indexnodeCopy j => if in_ = j then 1 else 0
  | .find list id =>
    if IndexnodesList.find s.store ((s.lists[list]?).join.getD []) id = some in_ then 1 else 0
  | .copy list => ((s.lists[list]?).join.getD []).count in_
  | .removeExpired list now timeout =>
    (((s.lists[list]?).join.getD []).filter (stillValid s.store now timeout)).count in_
  | .iteratorCurrent iter => if s.currentItem iter = .ok in_ then 1 else 0
  | .indexnodeDelete _ | .indexnodeSeen _ _ | .new | .add _ _ | .delete _ | .iteratorBegin _
  | .iteratorNext _ | .iteratorDelete _ => 0

/-- The counts have room for a call. -/
def Room (s : ListsClient) (l : Label) : Prop :=
  ∀ in_ < s.store.length + 1, s.total in_ + s.taken in_ l < 2 ^ 32

instance (s : ListsClient) : DecidablePred s.Room :=
  fun _ => inferInstanceAs (Decidable (∀ _, _ → _))

/-! ### Lists -/

section Places

variable {lists : List (Option (List Nat))} {list : Nat} {ins : List Nat}

/-- One list in the place of another. -/
theorem places_set {x : Option (List Nat)} (hlist : lists[list]? = some x)
    (y : Option (List Nat)) (in_ : Nat) :
    places (lists.set list y) in_ + (x.getD []).count in_ =
      places lists in_ + (y.getD []).count in_ := by
  -- along the lists, to the one that is set
  induction lists generalizing list with
  | nil => cases hlist
  | cons z lists ih =>
    cases list with
    | zero =>
      cases hlist
      simp only [places, List.set_cons_zero, List.map_cons, List.sum_cons]
      omega
    | succ list =>
      have hrest := ih hlist
      simp only [places, List.set_cons_succ, List.map_cons, List.sum_cons] at hrest ⊢
      omega

/-- A new list. -/
theorem places_append (ret : List Nat) (in_ : Nat) :
    places (lists ++ [some ret]) in_ = places lists in_ + ret.count in_ := by
  simp [places]

/-- The places on one of the lists. -/
theorem count_le_places (hlist : lists[list]? = some (some ins)) (in_ : Nat) :
    ins.count in_ ≤ places lists in_ := by
  have hset := places_set hlist none in_
  simp only [Option.getD_some, Option.getD_none, List.count_nil] at hset
  omega

end Places

/-! ### The invariant -/

/-- An iterator is at an item of its list, or at the end of it. -/
def Within (lists : List (Option (List Nat))) (iterators : List (Option (Nat × Nat))) : Prop :=
  ∀ list left, some (list, left) ∈ iterators →
    list < lists.length ∧ ∀ ins, lists[list]? = some (some ins) → left ≤ ins.length

/-- The invariant: the counts are those of the references, of which there are not too many, and
    none to indexnodes that have not been made. -/
structure Inv (s : ListsClient) : Prop where
  refs : s.refs = counting s.total
  lt : ∀ in_, s.total in_ < 2 ^ 32
  unmade : ∀ in_ ≥ s.store.length, s.total in_ = 0
  within : Within s.lists s.iterators

/-- At the start nothing is allocated and nobody refers to anything. -/
theorem start_inv : Inv start where
  refs := rfl
  lt _ := Nat.two_pow_pos 32
  unmade _ _ := rfl
  within list left h := by cases h

/-- By the invariant every count is the number of references. -/
theorem Inv.counted {s : ListsClient} (h : Inv s) : Counted s := by
  intro in_
  rw [count, h.refs, counting]
  by_cases hzero : s.total in_ = 0
  · rw [if_pos hzero, hzero]
    rfl
  · rw [if_neg hzero]
    exact UInt32.toNat_ofNat_of_lt' (h.lt in_)

/-- The iterators stay within their lists when a list is freed or gets longer. -/
theorem Within.set {lists : List (Option (List Nat))} {iterators : List (Option (Nat × Nat))}
    (h : Within lists iterators) {list : Nat} {x y : Option (List Nat)}
    (hlist : lists[list]? = some x)
    (hle : ∀ ins, y = some ins → ∃ ins', x = some ins' ∧ ins'.length ≤ ins.length) :
    Within (lists.set list y) iterators := by
  intro l left hiter
  obtain ⟨hl, hleft⟩ := h l left hiter
  refine ⟨by rwa [List.length_set], fun ins hins => ?_⟩
  obtain rfl | hne := eq_or_ne list l
  · rw [List.getElem?_set_self hl] at hins
    obtain ⟨ins', hx, hlength⟩ := hle ins (Option.some.inj hins)
    exact (hleft ins' (hx ▸ hlist)).trans hlength
  · rw [List.getElem?_set_ne hne] at hins
    exact hleft ins hins

/-- The iterators stay within their lists when a list is made. -/
theorem Within.append {lists : List (Option (List Nat))} {iterators : List (Option (Nat × Nat))}
    (h : Within lists iterators) (ret : List Nat) : Within (lists ++ [some ret]) iterators := by
  intro l left hiter
  obtain ⟨hl, hleft⟩ := h l left hiter
  refine ⟨by rw [List.length_append]; omega, fun ins hins => ?_⟩
  rw [List.getElem?_append_left hl] at hins
  exact hleft ins hins

/-! ### One call -/

variable {s : ListsClient} {in_ list : Nat} {ins : List Nat}

/-- Taking a reference adds it to the total. -/
theorem total_take {refs : RefCounts} :
    ({ s with refs, handles := s.take in_ } : ListsClient).total = plus s.total [in_] := by
  funext j
  by_cases hj : j = in_
  · subst hj
    simp only [total, take, plus, Function.update_self, List.count_singleton_self]
    omega
  · simp [total, take, plus, hj, List.count_eq_zero_of_not_mem]

/-- Giving a reference back takes it from the total. -/
theorem total_give {refs : RefCounts} (h : s.handles in_ ≠ 0) :
    plus ({ s with refs, handles := s.give in_ } : ListsClient).total [in_] = s.total := by
  funext j
  by_cases hj : j = in_
  · subst hj
    simp only [total, give, plus, Function.update_self, List.count_singleton_self]
    omega
  · simp [total, give, plus, hj, List.count_eq_zero_of_not_mem]

/-- Only indexnodes that were made are referred to. -/
theorem Inv.lt_length (h : Inv s) (hin : s.total in_ ≠ 0) : in_ < s.store.length := by
  by_contra hge
  exact hin (h.unmade in_ (Nat.le_of_not_lt hge))

/-- The room for the references of a list is there for every indexnode. -/
theorem Inv.room (h : Inv s) (hlist : s.lists[list]? = some (some ins)) {kept : List Nat}
    (hsub : kept.Sublist ins)
    (hroom : ∀ in_ < s.store.length + 1, s.total in_ + kept.count in_ < 2 ^ 32) (in_ : Nat) :
    s.total in_ + kept.count in_ < 2 ^ 32 := by
  by_cases hin : in_ < s.store.length + 1
  · exact hroom in_ hin
  · have hzero := h.unmade in_ (by omega)
    have hle := (hsub.count_le in_).trans (count_le_places hlist in_)
    unfold total at hzero ⊢
    omega

/-- The client gets one reference more. -/
theorem Inv.take (h : Inv s) (hin : s.total in_ ≠ 0) (hroom : s.total in_ + 1 < 2 ^ 32) :
    s.refs.indexnodeCopy in_ = .ok (counting (plus s.total [in_])) ∧
      Inv { s with refs := counting (plus s.total [in_]), handles := s.take in_ } := by
  refine ⟨?_, ?_, ?_, ?_, h.within⟩
  · rw [h.refs]
    exact indexnodeCopy_counting hin (Nat.lt_of_succ_lt hroom)
  · rw [total_take]
  · intro j
    rw [total_take, plus, List.count_singleton]
    split
    · rename_i hj
      rwa [← beq_iff_eq.mp hj]
    · exact h.lt j
  · intro j hj
    -- an indexnode that has not been made is another one
    have hne : j ≠ in_ := fun heq => by
      have := h.lt_length hin
      have hge : s.store.length ≤ j := hj
      omega
    rw [total_take, plus, List.count_eq_zero_of_not_mem (by simp [hne])]
    exact h.unmade j hj

/-- The same store with no more references than before. -/
theorem Inv.of_le (h : Inv s) {s' : ListsClient} (hrefs : s'.refs = counting s'.total)
    (hstore : s'.store.length = s.store.length) (hle : ∀ j, s'.total j ≤ s.total j)
    (hwithin : Within s'.lists s'.iterators) : Inv s' where
  refs := hrefs
  lt j := (hle j).trans_lt (h.lt j)
  unmade j hj := Nat.eq_zero_of_le_zero ((hle j).trans (h.unmade j (hstore ▸ hj)).le)
  within := hwithin

/-- The client has one reference less. -/
theorem Inv.give (h : Inv s) (hin : s.handles in_ ≠ 0) :
    ∃ refs, s.refs.indexnodeDelete in_ = .ok refs ∧
      Inv { s with refs, handles := s.give in_ } := by
  have htotal := @total_give s in_ s.refs hin
  have hlt := h.lt in_
  rw [← htotal, plus, List.count_singleton_self] at hlt
  refine ⟨counting (total { s with handles := s.give in_ }), ?_,
    h.of_le rfl rfl (fun j => ?_) h.within⟩
  · rw [h.refs, ← htotal]
    exact indexnodeDelete_counting hlt
  · rw [← @total_give s in_ s.refs hin]
    exact Nat.le_add_right _ _

/-- A list that has not been deleted. -/
theorem exists_of_isSome (h : (s.lists[list]?).join.isSome) :
    ∃ ins, s.lists[list]? = some (some ins) := by
  obtain ⟨ins, hins⟩ := Option.isSome_iff_exists.mp h
  exact ⟨ins, Option.join_eq_some_iff.mp hins⟩

/-- The indexnodes of a list that is there can be read. -/
theorem items_eq (hlist : s.lists[list]? = some (some ins)) : s.items list = .ok ins := by
  rw [items, hlist]
  rfl

/-- What is on a list has a reference. -/
theorem total_ne_zero_of_mem (hlist : s.lists[list]? = some (some ins)) (hin : in_ ∈ ins) :
    s.total in_ ≠ 0 := by
  have hpos := List.count_pos_iff.mpr hin
  have hle := count_le_places hlist in_
  unfold total
  omega

/-- `indexnodes_list_copy` and the loop of `indexnodes_list_remove_expired`. -/
theorem Inv.listCopyIf (h : Inv s) (hlist : s.lists[list]? = some (some ins)) (p : Nat → Bool)
    (hlt : ∀ j, s.total j + (ins.filter p).count j < 2 ^ 32) :
    s.refs.listCopyIf p ins =
      .ok (counting (plus s.total (ins.filter p)), (ins.filter p).reverse) := by
  rw [h.refs, RefCounts.listCopyIf,
    listCopyIf_counting p (fun i hi => total_ne_zero_of_mem hlist hi) hlt, List.append_nil]

/-- A new indexnode has the reference that its maker gets. -/
theorem Inv.indexnodeNew (h : Inv s) (new : Indexnode) :
    Inv {
      store := s.store ++ [new]
      refs := Function.update s.refs s.store.length (some 1)
      lists := s.lists
      iterators := s.iterators
      handles := s.take s.store.length } := by
  -- nobody refers to the indexnode before it is made
  have hzero := h.unmade s.store.length (Nat.le_refl _)
  have htotal : total {
      store := s.store ++ [new]
      refs := Function.update s.refs s.store.length (some 1)
      lists := s.lists
      iterators := s.iterators
      handles := s.take s.store.length } = plus s.total [s.store.length] :=
    @total_take s s.store.length s.refs
  refine ⟨?_, ?_, ?_, h.within⟩
  · rw [htotal]
    funext j
    dsimp only
    by_cases hj : j = s.store.length
    · subst hj
      rw [Function.update_self, counting, plus, hzero, List.count_singleton_self]
      rfl
    · rw [Function.update_of_ne hj, h.refs, counting, counting, plus,
        List.count_eq_zero_of_not_mem (by simp [hj]), Nat.add_zero]
  · intro j
    rw [htotal, plus, List.count_singleton]
    split
    · rename_i hj
      rw [← beq_iff_eq.mp hj, hzero]
      decide
    · exact h.lt j
  · intro j hj
    rw [List.length_append, List.length_singleton] at hj
    rw [htotal, plus, List.count_eq_zero_of_not_mem (by simp; omega)]
    exact h.unmade j (Nat.le_of_succ_le hj)

/-- A reference that was the client's is a list's. -/
theorem Inv.add (h : Inv s) (hlist : s.lists[list]? = some (some ins))
    (hin : s.handles in_ ≠ 0) :
    Inv { s with
      lists := s.lists.set list (some (IndexnodesList.add ins in_))
      handles := s.give in_ } := by
  -- the reference goes from the hand into the list
  have htotal : total { s with
      lists := s.lists.set list (some (IndexnodesList.add ins in_))
      handles := s.give in_ } = s.total := by
    funext j
    have hplaces := places_set hlist (some (in_ :: ins)) j
    simp only [Option.getD_some, List.count_cons] at hplaces
    show places (s.lists.set list (some (in_ :: ins))) j + s.give in_ j =
      places s.lists j + s.handles j
    by_cases hj : j = in_
    · subst hj
      simp only [beq_self_eq_true, if_pos] at hplaces
      rw [ListsClient.give, Function.update_self]
      omega
    · have hbeq : (in_ == j) = false := by simpa using Ne.symm hj
      rw [hbeq, if_neg (by decide)] at hplaces
      rw [ListsClient.give, Function.update_of_ne hj]
      omega
  refine h.of_le ?_ rfl (fun j => (congrFun htotal j).le) ?_
  · rw [htotal]
    exact h.refs
  · refine h.within.set hlist fun ins' hins' => ⟨ins, rfl, ?_⟩
    cases hins'
    exact Nat.le_succ _

/-- A new list. -/
theorem total_append (lists : List (Option (List Nat))) {refs : RefCounts} (ret : List Nat) :
    total { s with refs, lists := lists ++ [some ret] } = plus (total { s with lists }) ret := by
  funext j
  simp only [total, places_append, plus]
  omega

/-- A list that is deleted. -/
theorem total_delete (hlist : s.lists[list]? = some (some ins)) {refs : RefCounts} :
    plus (total { s with refs, lists := s.lists.set list none }) ins = s.total := by
  funext j
  have hplaces := places_set hlist none j
  simp only [Option.getD_some, Option.getD_none, List.count_nil] at hplaces
  simp only [total, plus]
  omega

/-- A copy takes references of its own, and has the members the other way round. -/
theorem Inv.copy (h : Inv s) (hlist : s.lists[list]? = some (some ins))
    (hroom : ∀ j, s.total j + ins.count j < 2 ^ 32) :
    ∃ s', s.apply (.copy list) = .ok s' ∧ Inv s' ∧ s'.lists = s.lists ++ [some ins.reverse] ∧
      s'.total = plus s.total ins := by
  have htotal : total { s with
      refs := counting (plus s.total ins), lists := s.lists ++ [some ins.reverse] } =
        plus s.total ins :=
    -- the copy has the same references in the other order
    (total_append s.lists ins.reverse).trans (plus_perm ins.reverse_perm)
  have hfilter : ins.filter (fun _ => true) = ins := List.filter_true ins
  have hcopy : s.refs.listCopy ins = _ := h.listCopyIf hlist (fun _ => true) (by rwa [hfilter])
  rw [hfilter] at hcopy
  refine ⟨{ s with refs := counting (plus s.total ins), lists := s.lists ++ [some ins.reverse] },
    ?_, ⟨?_, fun j => ?_, fun j hj => ?_, h.within.append _⟩, rfl, htotal⟩
  · rw [ListsClient.apply, items_eq hlist]
    simp only [bind, Except.bind, hcopy]
    rfl
  · rw [htotal]
  · rw [htotal]
    exact hroom j
  · have hzero := h.unmade j hj
    have hle := count_le_places hlist j
    unfold total at hzero
    rw [htotal, plus, total]
    omega

/-- A list gives back its references when it is deleted. -/
theorem Inv.delete (h : Inv s) (hlist : s.lists[list]? = some (some ins)) :
    ∃ s', s.apply (.delete list) = .ok s' ∧ Inv s' := by
  have htotal := @total_delete s list ins hlist s.refs
  have hdelete : s.refs.listDelete ins =
      .ok (counting (total { s with lists := s.lists.set list none })) := by
    rw [h.refs, ← htotal]
    exact listDelete_counting fun j => by rw [htotal]; exact h.lt j
  refine ⟨{ s with
      refs := counting (total { s with lists := s.lists.set list none })
      lists := s.lists.set list none }, ?_, h.of_le rfl rfl (fun j => ?_)
    (h.within.set hlist fun _ hnone => by cases hnone)⟩
  · rw [ListsClient.apply, items_eq hlist]
    simp only [bind, Except.bind, hdelete]
    rfl
  · exact (Nat.le_add_right _ _).trans_eq (congrFun htotal j)

/-- Some members go to a new list, and the old one is deleted. -/
theorem total_replace (hlist : s.lists[list]? = some (some ins)) {refs : RefCounts}
    (kept : List Nat) :
    plus (total { s with refs, lists := s.lists.set list none ++ [some kept.reverse] }) ins =
      plus s.total kept := by
  rw [total_append, plus_plus, plus_perm (List.perm_append_comm), ← plus_plus,
    plus_perm kept.reverse_perm, @total_delete s list ins hlist s.refs]

/-- The members that are still valid go to a new list, and the old one is deleted. -/
theorem Inv.removeExpired (h : Inv s) (hlist : s.lists[list]? = some (some ins))
    (now timeout : Int) {kept : List Nat}
    (hkept : ins.filter (stillValid s.store now timeout) = kept)
    (hroom : ∀ j, s.total j + kept.count j < 2 ^ 32) :
    ∃ s', s.apply (.removeExpired list now timeout) = .ok s' ∧ Inv s' ∧
      s'.lists = s.lists.set list none ++ [some kept.reverse] ∧
      plus s'.total ins = plus s.total kept := by
  have hcopy := h.listCopyIf hlist (stillValid s.store now timeout) (by rwa [hkept])
  rw [hkept] at hcopy
  have htotal := @total_replace s list ins hlist s.refs kept
  -- what is kept is among what was there
  have hle : ∀ j, kept.count j ≤ ins.count j := by
    intro j
    rw [← hkept]
    exact List.filter_sublist.count_le j
  have hremove : s.refs.listRemoveExpired s.store now timeout ins =
      .ok (counting (total { s with lists := s.lists.set list none ++ [some kept.reverse] }),
        kept.reverse) := by
    -- the copies are made first, and then the old list is deleted
    rw [listRemoveExpired, hcopy, ← htotal]
    simp only [bind, Except.bind]
    rw [listDelete_counting fun j => by rw [htotal]; exact hroom j]
    rfl
  refine ⟨{ s with
      refs := counting (total { s with lists := s.lists.set list none ++ [some kept.reverse] })
      lists := s.lists.set list none ++ [some kept.reverse] }, ?_,
    h.of_le rfl rfl (fun j => ?_) ((h.within.set hlist fun _ hnone => by cases hnone).append _),
    rfl, htotal⟩
  · rw [ListsClient.apply, items_eq hlist]
    simp only [bind, Except.bind, hremove]
    rfl
  · have hj := congrFun htotal j
    have hcount := hle j
    simp only [plus] at hj
    show total { s with lists := s.lists.set list none ++ [some kept.reverse] } j ≤ s.total j
    omega

/-- The item an iterator is at, if it is not at the end. -/
theorem Inv.currentItem (h : Inv s) {iter : Nat}
    (hiter : (s.iterators[iter]?).join.any fun (list, left) =>
      (s.lists[list]?).join.isSome ∧ left ≠ 0) :
    ∃ list left in_, s.iterator iter = .ok (list, left) ∧ some (list, left) ∈ s.iterators ∧
      s.currentItem iter = .ok in_ ∧ s.total in_ ≠ 0 := by
  obtain ⟨⟨list, left⟩, hsome, hlive⟩ := (Option.any_eq_true _ _).mp hiter
  obtain ⟨hlive, hleft⟩ := of_decide_eq_true hlive
  obtain ⟨ins, hlist⟩ := exists_of_isSome hlive
  have hmem := List.mem_of_getElem? (Option.join_eq_some_iff.mp hsome)
  have hle := (h.within list left hmem).2 ins hlist
  -- an iterator that is not at its end has an item in front of it
  have hiterator : s.iterator iter = .ok (list, left) := by
    rw [iterator, hsome]
    rfl
  have hitem : ins.length - left < ins.length := by omega
  refine ⟨list, left, ins[ins.length - left], hiterator, hmem, ?_,
    total_ne_zero_of_mem hlist (List.getElem_mem hitem)⟩
  rw [ListsClient.currentItem, hiterator]
  simp only [bind, Except.bind, items_eq hlist, List.getElem?_eq_getElem hitem]
  rfl

/-- The iterators are the only thing that changes. -/
theorem Inv.of_within (h : Inv s) {iterators : List (Option (Nat × Nat))}
    (hwithin : Within s.lists iterators) : Inv { s with iterators } :=
  h.of_le h.refs rfl (fun _ => Nat.le_refl _) hwithin

/-- The iterators stay within their lists when one is deleted. -/
theorem Within.delete {lists : List (Option (List Nat))} {iterators : List (Option (Nat × Nat))}
    (h : Within lists iterators) (iter : Nat) : Within lists (iterators.set iter none) := by
  intro list left hmem
  obtain hmem | hnone := List.mem_or_eq_of_mem_set hmem
  · exact h list left hmem
  · cases hnone

/-- The iterators stay within their lists when one is made that has no more left than its list
    has. -/
theorem Within.concat {lists : List (Option (List Nat))} {iterators : List (Option (Nat × Nat))}
    (h : Within lists iterators) {list left : Nat} (hlist : list < lists.length)
    (hle : ∀ ins, lists[list]? = some (some ins) → left ≤ ins.length) :
    Within lists (iterators ++ [some (list, left)]) := by
  intro list' left' hmem
  obtain hmem | hnew := List.mem_append.mp hmem
  · exact h list' left' hmem
  · cases List.mem_singleton.mp hnew
    exact ⟨hlist, hle⟩

/-- What the client holds has a reference. -/
theorem total_ne_zero_of_held (hin : s.handles in_ ≠ 0) : s.total in_ ≠ 0 := by
  unfold total
  omega

/-- There is room for one reference more to an indexnode that has some. -/
theorem Inv.room_one (h : Inv s) {l : Label} (hroom : s.Room l) (hin : s.total in_ ≠ 0)
    (htaken : s.taken in_ l = 1) : s.total in_ + 1 < 2 ^ 32 := by
  have hone := hroom in_ (Nat.lt_succ_of_lt (h.lt_length hin))
  rwa [htaken] at hone

/-- The time an indexnode was seen at does not count. -/
theorem Inv.indexnodeSeen (h : Inv s) (hin : s.handles in_ ≠ 0) (now : Int) :
    ∃ s', s.apply (.indexnodeSeen in_ now) = .ok s' ∧ Inv s' := by
  have haccess : s.refs.access in_ = .ok _ := h.refs ▸ access_counting (total_ne_zero_of_held hin)
  have hlength : (s.store.modify in_ fun i => { i with lastSeen := now }).length =
      s.store.length :=
    List.length_modify _ _ _
  refine ⟨{ s with store := s.store.modify in_ fun i => { i with lastSeen := now } }, ?_,
    h.of_le h.refs hlength (fun _ => Nat.le_refl _) h.within⟩
  rw [ListsClient.apply, haccess]
  rfl

/-- An empty list has no references. -/
theorem Inv.new (h : Inv s) : Inv { s with lists := s.lists ++ [some []] } := by
  have htotal : total { s with lists := s.lists ++ [some []] } = s.total := by
    funext j
    simp only [total, places_append, List.count_nil, Nat.add_zero]
  exact h.of_le (h.refs.trans (congrArg counting htotal.symm)) rfl
    (fun j => (congrFun htotal j).le) (h.within.append [])

/-- What is found on a list is copied for the client. -/
theorem Inv.find (h : Inv s) (hlist : s.lists[list]? = some (some ins)) (id : List UInt8)
    (hroom : s.Room (.find list id)) :
    ∃ s', s.apply (.find list id) = .ok s' ∧ Inv s' := by
  have hlive : ∀ i ∈ ins, s.total i ≠ 0 := fun i hi => total_ne_zero_of_mem hlist hi
  have hfind := listFind_counting s.store id hlive fun i _ => h.lt i
  rw [← h.refs] at hfind
  rw [ListsClient.apply, items_eq hlist]
  simp only [bind, Except.bind, hfind]
  cases hfound : IndexnodesList.find s.store ins id with
  | none =>
    refine ⟨_, rfl, h.of_le ?_ rfl (fun _ => Nat.le_refl _) h.within⟩
    rfl
  | some in_ =>
    have hin := hlive in_ (List.mem_of_find?_eq_some hfound)
    have htaken : s.taken in_ (.find list id) = 1 := by
      rw [taken, hlist, Option.join_some, Option.getD_some, if_pos hfound]
    exact ⟨_, rfl, (h.take hin (h.room_one hroom hin htaken)).2⟩

/-- `indexnodes_iterator_begin` goes through, and keeps the invariant. -/
theorem Inv.iteratorBegin (h : Inv s) (hlist : s.lists[list]? = some (some ins)) :
    ∃ s', s.apply (.iteratorBegin list) = .ok s' ∧ Inv s' := by
  have hlt : list < s.lists.length := (List.getElem?_eq_some_iff.mp hlist).1
  have hle : ∀ ins', s.lists[list]? = some (some ins') → ins.length ≤ ins'.length := by
    intro ins' hins'
    cases hlist.symm.trans hins'
    exact Nat.le_refl _
  refine ⟨_, ?_, h.of_within (h.within.concat hlt hle)⟩
  rw [ListsClient.apply, items_eq hlist]
  rfl

/-- The item an iterator is at is copied for the client. -/
theorem Inv.iteratorCurrent (h : Inv s) {iter : Nat} (hlegal : s.Legal (.iteratorCurrent iter))
    (hroom : s.Room (.iteratorCurrent iter)) :
    ∃ s', s.apply (.iteratorCurrent iter) = .ok s' ∧ Inv s' := by
  obtain ⟨list, left, in_, -, -, hitem, hin⟩ := h.currentItem hlegal
  have htaken : s.taken in_ (.iteratorCurrent iter) = 1 := by
    rw [taken, if_pos hitem]
  obtain ⟨hcopy, hinv⟩ := h.take hin (h.room_one hroom hin htaken)
  refine ⟨_, ?_, hinv⟩
  rw [ListsClient.apply, hitem]
  simp only [bind, Except.bind, hcopy]
  rfl

/-- An iterator that goes on has one item less to go. -/
theorem Inv.iteratorNext (h : Inv s) {iter : Nat} (hlegal : s.Legal (.iteratorNext iter)) :
    ∃ s', s.apply (.iteratorNext iter) = .ok s' ∧ Inv s' := by
  obtain ⟨list, left, in_, hiter, hmem, hitem, -⟩ := h.currentItem hlegal
  obtain ⟨hlt, hle⟩ := h.within list left hmem
  have hle' : ∀ ins, s.lists[list]? = some (some ins) → left - 1 ≤ ins.length := by
    intro ins hins
    have hleft := hle ins hins
    omega
  refine ⟨_, ?_, h.of_within ((h.within.delete iter).concat hlt hle')⟩
  rw [ListsClient.apply, hiter]
  simp only [bind, Except.bind, hitem]
  rfl

/-- A legal call does not go wrong as long as there is room for it. -/
theorem Inv.apply (h : Inv s) {l : Label} (hlegal : s.Legal l) (hroom : s.Room l) :
    ∃ s', s.apply l = .ok s' ∧ Inv s' := by
  cases l with
  | indexnodeNew new => exact ⟨_, rfl, h.indexnodeNew new⟩
  | indexnodeCopy in_ =>
    have hin := total_ne_zero_of_held hlegal
    obtain ⟨hcopy, hinv⟩ := h.take hin (h.room_one hroom hin (if_pos rfl))
    refine ⟨_, ?_, hinv⟩
    rw [ListsClient.apply, hcopy]
    rfl
  | indexnodeDelete in_ =>
    obtain ⟨refs, hdelete, hinv⟩ := h.give hlegal
    refine ⟨_, ?_, hinv⟩
    rw [ListsClient.apply, hdelete]
    rfl
  | indexnodeSeen in_ now => exact h.indexnodeSeen hlegal now
  | new => exact ⟨_, rfl, h.new⟩
  | add list in_ =>
    obtain ⟨ins, hlist⟩ := exists_of_isSome hlegal.1
    refine ⟨_, ?_, h.add hlist hlegal.2⟩
    rw [ListsClient.apply, items_eq hlist]
    rfl
  | find list id =>
    obtain ⟨ins, hlist⟩ := exists_of_isSome hlegal
    exact h.find hlist id hroom
  | copy list =>
    obtain ⟨ins, hlist⟩ := exists_of_isSome hlegal
    simp only [Room, taken, hlist, Option.join_some, Option.getD_some] at hroom
    obtain ⟨s', hcopy, hinv, -⟩ := h.copy hlist (h.room hlist (List.Sublist.refl ins) hroom)
    exact ⟨s', hcopy, hinv⟩
  | removeExpired list now timeout =>
    obtain ⟨ins, hlist⟩ := exists_of_isSome hlegal
    simp only [Room, taken, hlist, Option.join_some, Option.getD_some] at hroom
    obtain ⟨s', hremove, hinv, -⟩ :=
      h.removeExpired hlist now timeout rfl (h.room hlist List.filter_sublist hroom)
    exact ⟨s', hremove, hinv⟩
  | delete list =>
    obtain ⟨ins, hlist⟩ := exists_of_isSome hlegal
    exact h.delete hlist
  | iteratorBegin list =>
    obtain ⟨ins, hlist⟩ := exists_of_isSome hlegal
    exact h.iteratorBegin hlist
  | iteratorCurrent iter => exact h.iteratorCurrent hlegal hroom
  | iteratorNext iter => exact h.iteratorNext hlegal
  | iteratorDelete iter =>
    obtain ⟨⟨list, left⟩, hsome⟩ := Option.isSome_iff_exists.mp hlegal
    refine ⟨_, ?_, h.of_within (h.within.delete iter)⟩
    rw [ListsClient.apply, iterator, hsome]
    rfl

/-- Every step that has room keeps the invariant. -/
theorem Inv.step (h : Inv s) {l : Label} {s' : ListsClient} (hroom : s.Room l)
    (hstep : s.step l = some s') : Inv s' := by
  rw [ListsClient.step] at hstep
  split at hstep
  · rename_i hlegal
    obtain ⟨s₁, happly, hinv⟩ := h.apply hlegal hroom
    rw [happly] at hstep
    cases hstep
    exact hinv
  · cases hstep

/-- The invariant holds in every state that is reached with room. -/
theorem exec_start_inv {ls : List Label} (hexec : exec step start ls = some s)
    (hroom : StepsMeet step Room start ls) : Inv s :=
  exec_invariant_of_stepsMeet (fun _ _ _ h hC hs => h.step hC hs) start_inv hroom hexec

/-! ### Removing what has expired -/

/-- The list of `indexnodes_get`: the members that are still valid go to a list of their own,
    and a copy of that has them as they were before. -/
theorem Inv.get (h : Inv s) (hlist : s.lists[list]? = some (some ins)) (now timeout : Int)
    (hroom : s.Room (.removeExpired list now timeout)) :
    ∃ s₁ s₂, s.apply (.removeExpired list now timeout) = .ok s₁ ∧
      s₁.apply (.copy s.lists.length) = .ok s₂ ∧
      s₂.lists[s.lists.length + 1]? =
        some (some (ins.filter (stillValid s.store now timeout))) ∧
      ∀ in_, (stillValid s.store now timeout in_ = true →
          s₂.count in_ = s.count in_ + ins.count in_) ∧
        (stillValid s.store now timeout in_ = false →
          s₂.count in_ + ins.count in_ = s.count in_) := by
  simp only [Room, taken, hlist, Option.join_some, Option.getD_some] at hroom
  replace hroom := h.room hlist List.filter_sublist hroom
  have hkept : ∀ in_, (ins.filter (stillValid s.store now timeout)).count in_ =
      if stillValid s.store now timeout in_ = true then ins.count in_ else 0 := by
    intro in_
    split
    · rename_i hin
      exact List.count_filter hin
    · rename_i hin
      exact List.count_eq_zero_of_not_mem fun hmem => hin (List.mem_filter.mp hmem).2
  obtain ⟨s₁, hremove, hinv₁, hlists₁, htotal₁⟩ := h.removeExpired hlist now timeout rfl hroom
  generalize ins.filter (stillValid s.store now timeout) = kept at *
  have hlist₁ : s₁.lists[s.lists.length]? = some (some kept.reverse) := by
    rw [hlists₁, List.getElem?_append_right (by rw [List.length_set]), List.length_set,
      Nat.sub_self]
    rfl
  have htotal₁ : ∀ j, s₁.total j + ins.count j = s.total j + kept.count j :=
    fun j => congrFun htotal₁ j
  have hroom₁ : ∀ j, s₁.total j + kept.reverse.count j < 2 ^ 32 := by
    intro j
    have htotal_j := htotal₁ j
    have hroom_j := hroom j
    have hle := hkept j
    rw [List.count_reverse]
    split at hle <;> omega
  obtain ⟨s₂, hcopy, hinv₂, hlists₂, htotal₂⟩ := hinv₁.copy hlist₁ hroom₁
  refine ⟨s₁, s₂, hremove, hcopy, ?_, fun in_ => ?_⟩
  · rw [hlists₂, List.reverse_reverse, hlists₁, List.getElem?_append_right (by simp)]
    simp
  · have htotal_in := htotal₁ in_
    have htotal_in₂ := congrFun htotal₂ in_
    rw [plus, List.count_reverse] at htotal_in₂
    have hkept_in := hkept in_
    rw [hinv₂.counted in_, h.counted in_]
    constructor
    · intro hvalid
      rw [if_pos hvalid] at hkept_in
      omega
    · intro hexpired
      rw [if_neg (by rw [hexpired]; decide)] at hkept_in
      omega

/-- In every run in which no indexnode gets as many references as a count can have, the counts
    are right, no legal call goes wrong, and of a list that is filtered and copied the members
    that are still valid are left, once each and in their order, while the others have lost the
    references of the list. -/
theorem exec_start_counted (ls : List Label) (s : ListsClient)
    (hexec : exec step start ls = some s) (hroom : StepsMeet step Room start ls) :
    Counted s ∧ (∀ l, s.Legal l → s.Room l → ∃ s', s.apply l = .ok s') ∧
      ∀ list ins now timeout, s.lists[list]? = some (some ins) →
        s.Room (.removeExpired list now timeout) →
        ∃ s₁ s₂, s.apply (.removeExpired list now timeout) = .ok s₁ ∧
          s₁.apply (.copy s.lists.length) = .ok s₂ ∧
          s₂.lists[s.lists.length + 1]? =
            some (some (ins.filter (stillValid s.store now timeout))) ∧
          ∀ in_, (stillValid s.store now timeout in_ = true →
              s₂.count in_ = s.count in_ + ins.count in_) ∧
            (stillValid s.store now timeout in_ = false →
              s₂.count in_ + ins.count in_ = s.count in_) := by
  have hinv := exec_start_inv hexec hroom
  refine ⟨hinv.counted, fun l hlegal hroom => ?_, fun list ins now timeout hlist hroom => ?_⟩
  · obtain ⟨s', happly, -⟩ := hinv.apply hlegal hroom
    exact ⟨s', happly⟩
  · exact hinv.get hlist now timeout hroom

/-! ### One indexnode -/

/-- An indexnode last seen at the time 0. -/
def peer : Indexnode where
  host := ascii "peer"
  port := ascii "80"
  version := ascii "0.13"
  id := ascii "peer"
  lastSeen := 0

/-- It is made, put on a list, found, and removed again when it has expired. -/
def foundAndExpired : List Label :=
  [.indexnodeNew peer, .new, .add 0 0, .find 0 (ascii "peer"), .removeExpired 0 100 60]

/-- The indexnode that is found and has expired keeps the finder's reference alone. -/
theorem exec_start_counted_expired :
    ∃ s, exec step start foundAndExpired = some s ∧ s.lists = [none, some []] ∧ s.count 0 = 1 := by
  have hsome : ((exec step start foundAndExpired).map fun s => (s.lists, s.total 0)) =
      some ([none, some []], 1) := by decide
  obtain ⟨s, hexec, hs⟩ := Option.map_eq_some_iff.mp hsome
  obtain ⟨hlists, htotal⟩ := Prod.mk.inj hs
  have hcounted := (exec_start_counted foundAndExpired s hexec (by decide)).1
  exact ⟨s, hexec, hlists, (hcounted 0).trans htotal⟩

/-- The client when it has found the indexnode so many times. -/
def foundTimes (n : Nat) : ListsClient where
  store := [peer]
  refs := Function.update (fun _ => none) 0 (some (UInt32.ofNat (n + 1)))
  lists := [some [0]]
  iterators := []
  handles := Function.update (fun _ => 0) 0 n

/-- One more search of the same indexnode takes one more reference. -/
theorem step_foundTimes {n : Nat} (hn : n + 1 < 2 ^ 32) :
    (foundTimes n).step (.find 0 (ascii "peer")) = some (foundTimes (n + 1)) := by
  have hne : UInt32.ofNat (n + 1) ≠ 0 := mt (ofNat_eq_zero_iff hn).mp (Nat.succ_ne_zero n)
  have haccess : (foundTimes n).refs.access 0 = .ok (UInt32.ofNat (n + 1)) := rfl
  have hcopy : (foundTimes n).refs.indexnodeCopy 0 = .ok (foundTimes (n + 1)).refs := by
    rw [indexnodeCopy, haccess]
    simp only [bind, Except.bind]
    rw [if_neg hne]
    simp only [pure, Except.pure, foundTimes, Function.update_idem, UInt32.ofNat_add (n + 1)]
    rfl
  have hfind : (foundTimes n).refs.listFind [peer] (ascii "peer") [0] =
      .ok ((foundTimes (n + 1)).refs, some 0) := by
    have hequals : IndexnodesList.equals [peer] 0 (ascii "peer") = true := by decide
    rw [listFind, haccess]
    simp only [bind, Except.bind, if_pos hequals, hcopy]
    rfl
  have htake : (foundTimes n).take 0 = (foundTimes (n + 1)).handles := by
    simp only [take, foundTimes, Function.update_self, Function.update_idem]
  have hlegal : (foundTimes n).Legal (.find 0 (ascii "peer")) := rfl
  rw [step, if_pos hlegal]
  show ((foundTimes n).refs.listFind [peer] (ascii "peer") [0] >>= _).toOption = _
  rw [hfind]
  simp only [bind, Except.bind, pure, Except.pure, Option.elim_some, htake]
  rfl

/-- As many searches take as many references. -/
theorem exec_foundTimes (k : Nat) {n : Nat} (hn : n + k < 2 ^ 32) :
    exec step (foundTimes n) (List.replicate k (.find 0 (ascii "peer"))) =
      some (foundTimes (n + k)) := by
  induction k generalizing n with
  | zero => rfl
  | succ k ih =>
    rw [List.replicate_succ, exec, List.foldlM_cons, step_foundTimes (by omega)]
    exact (ih (by omega)).trans (by rw [Nat.add_assoc, Nat.add_comm 1 k])

/-- A count of 2³² is one of 0. -/
theorem not_counted_foundTimes {k : Nat} (hk : k + 1 = 2 ^ 32) : ¬ Counted (foundTimes k) := by
  intro hcounted
  have hzero := hcounted 0
  have hcount : (foundTimes k).count 0 = 0 := by
    simp only [count, foundTimes, Function.update_self, hk]
    rfl
  have htotal : (foundTimes k).total 0 = 1 + k := by
    simp [total, places, foundTimes]
  omega

/-- With `2 ^ 32` references the count is 0, and is not the number of references. -/
theorem exec_start_not_counted :
    ∃ ls s, exec step start ls = some s ∧ ¬ Counted s := by
  obtain ⟨k, hk⟩ : ∃ k, k + 1 = 2 ^ 32 := ⟨2 ^ 32 - 1, by omega⟩
  have hmade : exec step start [.indexnodeNew peer, .new, .add 0 0] = some (foundTimes 0) := by
    have hgive : Function.update (Function.update (fun _ => 0) 0 1) 0 0 =
        (Function.update (fun _ => 0) 0 0 : Nat → Nat) := Function.update_idem _ _ _
    show some { foundTimes 0 with
      handles := Function.update (Function.update (fun _ => 0) 0 1) 0 0 } = _
    rw [hgive]
    rfl
  refine ⟨[.indexnodeNew peer, .new, .add 0 0] ++
    List.replicate k (.find 0 (ascii "peer")), foundTimes k, ?_, not_counted_foundTimes hk⟩
  rw [exec_append, hmade]
  exact (exec_foundTimes k (by omega)).trans (by rw [Nat.zero_add])

end ListsClient

end Fsfuse.Native
