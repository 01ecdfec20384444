import Fsfuse.ForStd.Transition
import Fsfuse.Native.IndexnodeRefs
import Fsfuse.Spec.FoundListings

/-!
# Releasing an indexnode

The reference count of an indexnode is meant to grow by the listings and direntries that come to
refer to it, and to fall back when these are deleted.

`indexnode_tryget_listing` and `indexnode_tryget_alternatives` do not delete the indexnode they
are given, a context keeps its copy too, and `listing_teardown` leaves the listing's. So every
call that asks an indexnode leaves copies behind that nothing will ever delete.

* `Ledger` — what a call does to the counts, with the copies it loses;
* `listingListDelete_held` — deleting the listings gives no copy back;
* `exec_new_released_iff` — exactly when a run of calls loses none.
-/

namespace Fsfuse.Native.IndexnodeRefs

open Transition Peerstats

/-! ### What is meant -/

/-- How many of the listings that have been made have not been freed. -/
def survivors (s : IndexnodeRefs) : Nat :=
  (List.range s.heap.made).countP fun li => (s.heap.listings li).refCount ≠ 0

/-- The listings that have been made, as often as they would have to be deleted. -/
def held (s : IndexnodeRefs) : List Nat :=
  (List.range s.heap.made).flatMap fun li => List.replicate (s.heap.listings li).refCount li

/-- An indexnode that had `n` copies has one more for each survivor, and is back at `n` when
    these have been deleted. -/
structure Released (n : UInt32) (s : IndexnodeRefs) : Prop where
  counted : s.refCount.toNat = n.toNat + s.survivors
  restored : ∃ s', s.listingListDelete (s.held.map some) = .ok s' ∧ s'.survivors = 0 ∧
    s'.refCount = n

/-- A call that asks no indexnode: for children that have been asked for before. -/
def Idle (s : IndexnodeRefs) : Call → Prop
  | .ensureChildren de _ _ => s.lookedForChildren de = true
  | .trygetBestAlternative .. => False

instance (s : IndexnodeRefs) : DecidablePred s.Idle
  | .ensureChildren de _ _ => inferInstanceAs (Decidable (s.lookedForChildren de = true))
  | .trygetBestAlternative .. => isFalse id

variable {debug : Bool} {s s' : IndexnodeRefs} {h h' : ListingHeap} {founds : List Found}

/-! ### Copies of the indexnode -/

/-- A count after some copies: it is theirs more, or it has just wrapped to 0. A count of 0 is
    not copied. -/
def Copied (n : UInt32) (copies : Nat) (n' : UInt32) : Prop :=
  (0 < copies → n ≠ 0) ∧ (n'.toNat = n.toNat + copies ∨ n' = 0 ∧ n.toNat + copies = 2 ^ 32)

/-- Nothing is copied from a count to itself. -/
theorem Copied.refl (n : UInt32) : Copied n 0 n := ⟨by simp, .inl rfl⟩

/-- Copies that are made one after the other add up. -/
theorem Copied.trans {n n' n'' : UInt32} {j k : Nat} (h : Copied n j n') (h' : Copied n' k n'') :
    Copied n (j + k) n'' := by
  obtain ⟨hne, hcount⟩ := h
  obtain ⟨hne', hcount'⟩ := h'
  by_cases hk : k = 0
  · -- nothing more is copied
    subst hk
    have hlt := n'.toNat_lt
    have heq : n'' = n' := by
      rcases hcount' with h | ⟨-, h⟩
      · exact UInt32.toNat_inj.mp (by omega)
      · omega
    subst heq
    exact ⟨hne, hcount⟩
  · -- so the count has not wrapped before
    have hsome : n' ≠ 0 := hne' (by omega)
    have hfirst : n'.toNat = n.toNat + j := by
      rcases hcount with h | ⟨h, -⟩
      · exact h
      · exact absurd h hsome
    refine ⟨fun _ => ?_, ?_⟩
    · by_cases hj : j = 0
      · intro hsame
        subst hsame
        exact hsome (UInt32.toNat_inj.mp (by omega))
      · exact hne (by omega)
    · rcases hcount' with h | ⟨h, hwrap⟩
      · exact .inl (by omega)
      · exact .inr ⟨h, by omega⟩

/-- A copy of the indexnode. -/
theorem copied_of_indexnodeCopy (hcopy : s.indexnodeCopy = .ok s') :
    s' = { s with refCount := s'.refCount } ∧ Copied s.refCount 1 s'.refCount := by
  obtain ⟨refc, hrefc, hcopy⟩ := Except.do_eq_ok_iff.mp hcopy
  obtain rfl := Except.ok.inj hcopy
  rw [refCountInc] at hrefc
  split at hrefc
  · cases hrefc
  · rename_i hne
    obtain rfl := Except.ok.inj hrefc
    refine ⟨rfl, fun _ => hne, ?_⟩
    -- the one copy with which the count wraps to 0
    have hlt := s.refCount.toNat_lt
    have hadd : (s.refCount + 1).toNat = (s.refCount.toNat + 1) % 2 ^ 32 := UInt32.toNat_add _ _
    by_cases hwrap : s.refCount.toNat + 1 = 2 ^ 32
    · exact .inr ⟨UInt32.toNat_inj.mp (by rw [hadd, hwrap]; rfl), hwrap⟩
    · exact .inl (by rw [hadd, Nat.mod_eq_of_lt (by omega)])

/-- A copy for each of some entries. -/
theorem copied_of_entriesCopied (hcopied : s.entriesCopied founds = .ok s') :
    s' = { s with refCount := s'.refCount } ∧ Copied s.refCount founds.length s'.refCount := by
  induction founds generalizing s with
  | nil =>
    obtain rfl := Except.ok.inj hcopied
    exact ⟨rfl, .refl _⟩
  | cons found founds ih =>
    obtain ⟨s₁, hfirst, hrest⟩ := Except.do_eq_ok_iff.mp hcopied
    obtain ⟨heq₁, hcopied₁⟩ := copied_of_indexnodeCopy hfirst
    obtain ⟨heq, hcopied⟩ := ih hrest
    refine ⟨by rw [heq, heq₁], ?_⟩
    rw [List.length_cons, Nat.add_comm]
    exact hcopied₁.trans hcopied

/-! ### Listings -/

/-- The listings that are held are those that have been made. -/
def AllHeld (h : ListingHeap) : Prop := ∀ li, (h.listings li).refCount ≠ 0 ↔ li < h.made

/-- The listings of entries are held too. -/
theorem AllHeld.entered {lis : ListingList} (hheld : AllHeld h)
    (hentered : Entered h founds (h', lis)) : AllHeld h' := by
  intro li
  have hmade : h'.made = h.made + founds.length := hentered.made
  by_cases hli : li ∈ namesFrom h.made founds.length
  · obtain ⟨i, hi, rfl⟩ := mem_namesFrom.mp hli
    exact iff_of_true (hentered.live _ hli) (by omega)
  · have hsame : h'.listings li = h.listings li := hentered.others li hli
    rw [hsame, hheld li, hmade]
    refine ⟨Nat.lt_add_right _, fun hlt => ?_⟩
    by_contra hge
    exact hli (mem_namesFrom.mpr ⟨li - h.made, by omega, by omega⟩)

/-- A listing that becomes a direntry has a copy in the inode map. -/
theorem eq_add_of_direntryFromListing {lis : ListingList} {i : Nat}
    (hfrom : direntryFromListing lis h i = .ok h') :
    ∃ li, lis[i]? = some (some li) ∧ h' = h.add [li] := by
  obtain ⟨⟨h₁, li⟩, hget, hfrom⟩ := Except.do_eq_ok_iff.mp hfrom
  obtain ⟨h₂, hcopy, hdelete⟩ := Except.do_eq_ok_iff.mp hfrom
  obtain ⟨hitem, rfl⟩ := ListingHeap.eq_add_of_getItem hget
  obtain rfl := ListingHeap.eq_add_of_listingCopy hcopy
  exact ⟨li, hitem, (ListingHeap.add_inj.mp (ListingHeap.eq_add_of_listingDelete hdelete)).symm⟩

/-- So has each listing of a list. -/
theorem eq_add_of_foldlM_direntryFromListing {lis : List Nat} {n : Nat} (hn : n ≤ lis.length)
    (hfrom : (List.range n).foldlM (direntryFromListing (lis.map some)) h = .ok h') :
    h' = h.add (lis.take n) := by
  induction n generalizing h' with
  | zero =>
    obtain rfl := Except.ok.inj hfrom
    rfl
  | succ n ih =>
    rw [List.range_succ, List.foldlM_append] at hfrom
    obtain ⟨h₁, hpre, hrest⟩ := Except.do_eq_ok_iff.mp hfrom
    obtain ⟨h₂, hlast, hnil⟩ := Except.do_eq_ok_iff.mp hrest
    obtain rfl := Except.ok.inj hnil
    -- each direntry keeps the copy that it has got of its listing
    obtain ⟨li, hitem, rfl⟩ := eq_add_of_direntryFromListing hlast
    have hlt : n < lis.length := hn
    rw [List.getElem?_map, List.getElem?_eq_getElem hlt] at hitem
    obtain rfl := Option.some.inj (Option.some.inj hitem)
    rw [ih hlt.le hpre, ListingHeap.add_add, List.take_succ_eq_append_getElem hlt]

/-- Making direntries of the listings and deleting the list changes no count. -/
theorem eq_of_direntriesFromListingList {lis : List Nat} {s₁ : IndexnodeRefs}
    (hfrom : s.direntriesFromListingList (lis.map some) = .ok s₁)
    (hdelete : s₁.listingListDelete (lis.map some) = .ok s') : s' = s := by
  obtain ⟨h₁, hloop, heq₁⟩ := Except.do_eq_ok_iff.mp hfrom
  obtain rfl := Except.ok.inj heq₁
  obtain ⟨h₂, hlist, heq⟩ := Except.do_eq_ok_iff.mp hdelete
  obtain rfl := Except.ok.inj heq
  rw [List.length_map] at hloop
  have hadd := eq_add_of_foldlM_direntryFromListing (Nat.le_refl _) hloop
  rw [List.take_length] at hadd
  have hback : h₁ = h₂.add lis := ListingHeap.eq_add_of_listDelete hlist
  rw [hadd, ListingHeap.add_inj] at hback
  rw [← hback]

/-- Of the alternatives all survive, and the one that is chosen has a copy more. -/
theorem AllHeld.bestOf {favs blocks : Option (List (List UInt8))} {random : Nat}
    {best : Option Nat} (hheld : AllHeld h)
    (hbest : bestOf debug favs blocks h founds random = .ok (h', best)) :
    AllHeld h' ∧ h'.made = h.made + founds.length := by
  obtain ⟨⟨h₁, lis⟩, hfound, hbest⟩ := Except.do_eq_ok_iff.mp hbest
  obtain ⟨⟨h₂, best'⟩, hchose, hbest⟩ := Except.do_eq_ok_iff.mp hbest
  obtain ⟨h₃, hdelete, hbest⟩ := Except.do_eq_ok_iff.mp hbest
  cases hbest
  have hentered := entered_of_entriesFound hfound
  obtain rfl : lis = (namesFrom h.made founds.length).map some := hentered.lis
  obtain ⟨hadd, hmem⟩ := eq_add_of_choseAlternative hentered.live hchose
  rw [ListingHeap.eq_add_of_listDelete hdelete] at hadd
  have hmade : (h'.add (namesFrom h.made founds.length)).made = (h₁.add best.toList).made :=
    congrArg ListingHeap.made hadd
  replace hmade : h'.made = h₁.made := hmade
  refine ⟨fun li => ?_, hmade.trans hentered.made⟩
  -- each loses the copy of the list, but not the one it was made with
  have hcount : (h'.listings li).refCount + (namesFrom h.made founds.length).count li =
      (h₁.listings li).refCount + best.toList.count li :=
    congrArg (fun h : ListingHeap => (h.listings li).refCount) hadd
  rw [hmade, ← hheld.entered hentered li]
  by_cases hli : li ∈ namesFrom h.made founds.length
  · obtain ⟨found, -, htwo, -⟩ := hentered.exists_found li hli
    have hone := List.nodup_iff_count_le_one.mp (nodup_namesFrom h.made founds.length) li
    have htwo : (h₁.listings li).refCount = 2 := htwo
    omega
  · have hzero := List.count_eq_zero_of_not_mem hli
    have hother : best.toList.count li = 0 :=
      List.count_eq_zero_of_not_mem fun hbest => hli (hmem li (Option.mem_toList.mp hbest))
    omega

/-! ### Calls -/

/-- How many listings a call makes. -/
def entries (s : IndexnodeRefs) : Call → Nat
  | .ensureChildren de _ founds => if s.lookedForChildren de then 0 else founds.length
  | .trygetBestAlternative _ founds .. => founds.length

/-- How many copies of the indexnode a call loses: its argument, and that of a context. -/
def lost (s : IndexnodeRefs) : Call → Nat
  | .ensureChildren de _ _ => if s.lookedForChildren de then 0 else 1
  | .trygetBestAlternative .. => 2

/-- What a call does to the counts: every listing it makes survives and has a copy of the
    indexnode, and the copies that are lost come on top. -/
structure Ledger (s : IndexnodeRefs) (call : Call) (s' : IndexnodeRefs) : Prop where
  allHeld : AllHeld s'.heap
  made : s'.heap.made = s.heap.made + s.entries call
  copied : Copied s.refCount (s.entries call + s.lost call) s'.refCount

/-- The entries of a direntry all stay, as direntries or on a list that is forgotten. -/
theorem ledger_of_ensureChildren (hheld : AllHeld s.heap) {de : Nat} {rc : Int} {rc' : Nat}
    (hcall : s.ensureChildren de rc founds = .ok (s', rc')) :
    s.Ledger (.ensureChildren de rc founds) s' := by
  unfold ensureChildren at hcall
  split at hcall
  · rename_i hlooked
    obtain ⟨rfl, rfl⟩ := Prod.mk.inj (Except.ok.inj hcall)
    refine ⟨hheld, ?_, ?_⟩
    · simp [entries, hlooked]
    · simpa [entries, lost, hlooked] using Copied.refl s.refCount
  · rename_i hlooked
    obtain ⟨s₁, h₁, hcall⟩ := Except.do_eq_ok_iff.mp hcall
    obtain ⟨s₂, h₂, hcall⟩ := Except.do_eq_ok_iff.mp hcall
    obtain ⟨⟨heap, lis⟩, hfound, hcall⟩ := Except.do_eq_ok_iff.mp hcall
    obtain ⟨heq₁, hcopied₁⟩ := copied_of_indexnodeCopy h₁
    obtain ⟨heq₂, hcopied₂⟩ := copied_of_entriesCopied h₂
    have hheap : s₂.heap = s.heap := by rw [heq₂, heq₁]
    rw [hheap] at hfound
    have hentered := entered_of_entriesFound hfound
    obtain rfl : lis = (namesFrom s.heap.made founds.length).map some := hentered.lis
    -- whatever is returned, the counts are those of when the entries had been found
    have hs' : s'.heap = heap ∧ s'.refCount = s₂.refCount := by
      dsimp only at hcall
      split at hcall
      · obtain ⟨s₃, h₃, hcall⟩ := Except.do_eq_ok_iff.mp hcall
        obtain ⟨s₄, h₄, hcall⟩ := Except.do_eq_ok_iff.mp hcall
        obtain ⟨rfl, rfl⟩ := Prod.mk.inj (Except.ok.inj hcall)
        rw [eq_of_direntriesFromListingList h₃ h₄]
        exact ⟨rfl, rfl⟩
      · obtain ⟨rfl, rfl⟩ := Prod.mk.inj (Except.ok.inj hcall)
        exact ⟨rfl, rfl⟩
    obtain ⟨rfl, hcount⟩ := hs'
    refine ⟨hheld.entered hentered, ?_, ?_⟩
    · simpa [entries, hlooked] using hentered.made
    · have hall := hcopied₁.trans hcopied₂
      rw [Nat.add_comm, ← hcount] at hall
      simpa [entries, lost, hlooked] using hall

/-- The alternatives all stay too. -/
theorem ledger_of_trygetBestAlternative (hheld : AllHeld s.heap) {rc rc' : Int}
    {favs blocks : Option (List (List UInt8))} {random : Nat} {best : Option Nat}
    (hcall : trygetBestAlternative debug s rc founds favs blocks random = .ok (s', rc', best)) :
    s.Ledger (.trygetBestAlternative rc founds favs blocks random) s' := by
  obtain ⟨s₁, h₁, hcall⟩ := Except.do_eq_ok_iff.mp hcall
  obtain ⟨s₂, h₂, hcall⟩ := Except.do_eq_ok_iff.mp hcall
  obtain ⟨s₃, h₃, hcall⟩ := Except.do_eq_ok_iff.mp hcall
  obtain ⟨⟨heap, best'⟩, hbest, hcall⟩ := Except.do_eq_ok_iff.mp hcall
  obtain ⟨rfl, -⟩ := Prod.mk.inj (Except.ok.inj hcall)
  -- one copy for the listing's alternatives, one for the best one, and one an entry
  obtain ⟨heq₁, hcopied₁⟩ := copied_of_indexnodeCopy h₁
  obtain ⟨heq₂, hcopied₂⟩ := copied_of_indexnodeCopy h₂
  obtain ⟨heq₃, hcopied₃⟩ := copied_of_entriesCopied h₃
  have hheap : s₃.heap = s.heap := by rw [heq₃, heq₂, heq₁]
  rw [hheap] at hbest
  obtain ⟨hheld', hmade⟩ := hheld.bestOf hbest
  refine ⟨hheld', hmade, ?_⟩
  have hall := (hcopied₁.trans hcopied₂).trans hcopied₃
  rw [Nat.add_comm] at hall
  exact hall

/-- Every call has its ledger. -/
theorem ledger_of_step (hheld : AllHeld s.heap) {call : Call}
    (hstep : step debug s call = some s') : s.Ledger call s' := by
  cases call with
  | ensureChildren de rc founds =>
    obtain ⟨⟨s₁, rc'⟩, hcall, rfl⟩ := Option.map_eq_some_iff.mp hstep
    exact ledger_of_ensureChildren hheld (Except.eq_ok_of_toOption hcall)
  | trygetBestAlternative rc founds favs blocks random =>
    obtain ⟨⟨s₁, rc', best⟩, hcall, rfl⟩ := Option.map_eq_some_iff.mp hstep
    exact ledger_of_trygetBestAlternative hheld (Except.eq_ok_of_toOption hcall)

/-- Over a run the copies that are lost add up. -/
theorem exec_copied (hheld : AllHeld s.heap) {calls : List Call}
    (h : exec (step debug) s calls = some s') :
    AllHeld s'.heap ∧ s.heap.made ≤ s'.heap.made ∧
      Copied s.refCount (s'.heap.made - s.heap.made + total (step debug) lost s calls)
        s'.refCount := by
  induction calls generalizing s with
  | nil =>
    obtain rfl : s = s' := by simpa using h
    refine ⟨hheld, Nat.le_refl _, ?_⟩
    simpa using Copied.refl s.refCount
  | cons call calls ih =>
    simp only [exec_cons, Option.bind_eq_some_iff] at h
    obtain ⟨s₁, h₁, h₂⟩ := h
    have hledger := ledger_of_step hheld h₁
    obtain ⟨hheld', hmade, hcopied⟩ := ih hledger.allHeld h₂
    have hmade₁ := hledger.made
    refine ⟨hheld', by omega, ?_⟩
    -- the copies of the call and of the rest, less what has been released
    have hall := hledger.copied.trans hcopied
    simp only [total, h₁, Option.map_some, Option.getD_some]
    have hsum : s.entries call + s.lost call +
        (s'.heap.made - s₁.heap.made + total (step debug) lost s₁ calls) =
          s'.heap.made - s.heap.made + (s.lost call + total (step debug) lost s₁ calls) := by
      omega
    rwa [hsum] at hall

/-! ### Survivors -/

/-- All listings survive. -/
theorem survivors_eq_made (hheld : AllHeld s.heap) : s.survivors = s.heap.made := by
  rw [survivors, List.countP_eq_length.mpr, List.length_range]
  intro li hli
  exact decide_eq_true ((hheld li).mpr (List.mem_range.mp hli))

/-- A listing is held as often as its count says. -/
theorem count_held (hheld : AllHeld s.heap) (li : Nat) :
    s.held.count li = (s.heap.listings li).refCount := by
  -- the references of each listing are counted at its own place
  have hcount : ∀ n, ((List.range n).flatMap fun j =>
      List.replicate (s.heap.listings j).refCount j).count li =
        if li < n then (s.heap.listings li).refCount else 0 := by
    intro n
    induction n with
    | zero => simp
    | succ n ih =>
      rw [List.range_succ, List.flatMap_append, List.count_append, ih]
      simp only [List.flatMap_cons, List.flatMap_nil, List.append_nil, List.count_replicate]
      by_cases hn : n = li
      · simp [hn]
      · have hlt : li < n + 1 ↔ li < n := by omega
        simp [hn, hlt]
  rw [held, hcount]
  by_cases hli : li < s.heap.made
  · rw [if_pos hli]
  · rw [if_neg hli]
    exact (not_not.mp (mt (hheld li).mp hli)).symm

/-- The heap with all listings freed. -/
def freed (h : ListingHeap) : ListingHeap where
  made := h.made
  listings li := { h.listings li with refCount := 0 }

/-- The survivors can all be deleted, and no copy of the indexnode comes back with them. -/
theorem listingListDelete_held (hheld : AllHeld s.heap) :
    s.listingListDelete (s.held.map some) = .ok { s with heap := freed s.heap } := by
  have hall : s.heap = (freed s.heap).add s.held := by
    simp [ListingHeap.add, freed, count_held hheld]
  have hdelete := @ListingHeap.listDelete_add (freed s.heap) s.held
  rw [← hall] at hdelete
  rw [listingListDelete, hdelete]
  rfl

/-- So an indexnode is released only if no listing has been made at all. -/
theorem released_iff (hheld : AllHeld s.heap) (n : UInt32) :
    s.Released n ↔ s.heap.made = 0 ∧ s.refCount = n := by
  constructor
  -- where all is given back exactly the listings made keep the indexnode
  · intro h
    obtain ⟨hcounted, s', hdelete, -, hcount⟩ := h
    rw [listingListDelete_held hheld] at hdelete
    obtain rfl := Except.ok.inj hdelete
    rw [survivors_eq_made hheld] at hcounted
    obtain rfl : s.refCount = n := hcount
    exact ⟨by omega, rfl⟩
  · intro h
    obtain ⟨hmade, rfl⟩ := h
    refine ⟨?_, _, listingListDelete_held hheld, ?_, rfl⟩
    · rw [survivors_eq_made hheld, hmade, Nat.add_zero]
    · simp [survivors, freed]

/-! ### Runs -/

/-- An idle call does nothing. -/
theorem step_of_idle {call : Call} (hidle : s.Idle call) (h : step debug s call = some s') :
    s' = s := by
  cases call with
  | ensureChildren de rc entries =>
    have hlooked : s.lookedForChildren de = true := hidle
    rw [step, ensureChildren, if_pos hlooked] at h
    exact (Option.some.inj h).symm
  | trygetBestAlternative => exact absurd hidle id

/-- A call that is not idle loses something. -/
theorem lost_eq_zero_iff {call : Call} : s.lost call = 0 ↔ s.Idle call := by
  cases call with
  | ensureChildren de rc entries => simp [lost, Idle]
  | trygetBestAlternative => simp [lost, Idle]

/-- A run that loses nothing is idle. -/
theorem stepsMeet_idle_of_total {calls : List Call} (h : exec (step debug) s calls = some s')
    (htotal : total (step debug) lost s calls = 0) : StepsMeet (step debug) Idle s calls := by
  induction calls generalizing s with
  | nil => trivial
  | cons call calls ih =>
    simp only [exec_cons, Option.bind_eq_some_iff] at h
    obtain ⟨s₁, h₁, h₂⟩ := h
    simp only [total, h₁, Option.map_some, Option.getD_some, Nat.add_eq_zero_iff] at htotal
    rw [stepsMeet_cons_of_eq_some h₁]
    exact ⟨lost_eq_zero_iff.mp htotal.1, ih h₂ htotal.2⟩

/-- From an indexnode that has been made, the count is released after a run of calls exactly if
    none of them has asked the indexnode for anything. -/
theorem exec_new_released_iff (debug : Bool) (n : UInt32) (looked : Nat → Bool) (calls : List Call)
    (s : IndexnodeRefs) (hexec : exec (step debug) (new n looked) calls = some s) :
    s.Released n ↔ StepsMeet (step debug) Idle (new n looked) calls := by
  have hnew : AllHeld (new n looked).heap := by simp [AllHeld, new, ListingHeap.empty]
  obtain ⟨hheld, -, hcopied⟩ := exec_copied hnew hexec
  rw [released_iff hheld]
  constructor
  · intro hparts
    obtain ⟨hmade, hcount⟩ := hparts
    apply stepsMeet_idle_of_total hexec
    -- the count is what it was, so nothing has been copied
    obtain ⟨hne, hback⟩ : Copied n
        (s.heap.made - 0 + total (step debug) lost (new n looked) calls) s.refCount :=
      hcopied
    rw [hcount] at hback
    rcases hback with hback | ⟨hzero, hwrap⟩
    · omega
    · have hlt := n.toNat_lt
      exact absurd hzero (hne (by omega))
  · intro hidle
    have hkept : ∀ t call t', t = new n looked → t.Idle call → step debug t call = some t' →
        t' = new n looked := fun t call t' h hC hstep => (step_of_idle hC hstep).trans h
    obtain rfl : s = new n looked := exec_invariant_of_stepsMeet hkept rfl hidle hexec
    exact ⟨rfl, rfl⟩

/-- A direntry is asked for children that it has. -/
theorem exec_new_released_asked_before :
    (new 3 fun _ => true).Released 3 :=
  (exec_new_released_iff true 3 (fun _ => true)
    [.ensureChildren 1 5 [], .ensureChildren 2 0 []] _ rfl).mpr (by decide)

/-- The best alternative is looked for while the indexnode cannot be reached. -/
theorem exec_new_not_released_asked_first :
    ∃ s, exec (step true) (new 3 fun _ => false)
        [.trygetBestAlternative 2 [] none none 0] = some s ∧ ¬ s.Released 3 := by
  refine ⟨_, rfl, fun hreleased => ?_⟩
  -- two copies are lost
  exact absurd hreleased.counted (by decide)

end Fsfuse.Native.IndexnodeRefs
