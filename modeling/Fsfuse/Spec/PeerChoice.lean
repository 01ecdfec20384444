import Fsfuse.Native.Peerstats
import Fsfuse.Spec.ListingCopies

/-!
# The choice of a peer

Of the alternatives for a file one of a favourite is chosen if there is any, else one of a
client that is not blocked, else none.

`split_list` fills three arrays as long as the alternatives from the front, and cuts them off
behind what it has filled: `padded` is what they look like on the way. Every alternative that
has been looked at has been copied into one of the three, so that it has as many copies more as
it has been met, until the three are deleted.
-/

namespace Fsfuse.Native

/-! ### Lists on the way -/

namespace ListingList

/-- A list of so many slots, filled from the front. -/
def padded (count : Nat) (lis : List Nat) : ListingList :=
  lis.map some ++ List.replicate (count - lis.length) none

variable {count : Nat} {lis : List Nat}

/-- A list that is padded is as long as it is to be. -/
theorem length_padded (hle : lis.length ≤ count) : (padded count lis).length = count := by
  simp [padded]
  omega

/-- The next slot is filled. -/
theorem set_padded (hlt : lis.length < count) (li : Nat) :
    (padded count lis).set lis.length (some li) = padded count (lis ++ [li]) := by
  obtain ⟨rest, rfl⟩ := Nat.exists_eq_add_of_lt hlt
  have hrest : lis.length + rest + 1 - lis.length = rest + 1 := by omega
  have hrest' : lis.length + rest + 1 - (lis ++ [li]).length = rest := by
    rw [List.length_append, List.length_singleton]
    omega
  rw [padded, padded, hrest, hrest', List.set_append_right _ _ (by simp)]
  simp [List.replicate_succ]

/-- What has not been filled is cut off. -/
theorem resize_padded (hle : lis.length ≤ count) :
    (padded count lis).resize lis.length = lis.map some := by
  rw [resize, length_padded hle, Nat.sub_eq_zero_of_le hle, padded]
  simp

end ListingList

/-! ### Splitting -/

namespace Peerstats

/-- A client is in an array that may not be there. -/
def In (names : Option (List (List UInt8))) (client : Option (List UInt8)) : Bool :=
  client.any (names.getD []).contains

/-- A client that has a name is compared with all names. -/
theorem isIn_some (client : List UInt8) (names : List (List UInt8)) :
    isIn (some client) names = .ok (names.contains client) := by
  induction names with
  | nil => rfl
  | cons name names ih =>
    rw [isIn, List.contains_cons]
    by_cases hname : client = name
    · rw [if_pos hname, beq_iff_eq.mpr hname, Bool.true_or]
    · rw [if_neg hname, ih, beq_eq_false_iff_ne.mpr hname, Bool.false_or]

/-- A client is looked for and found as it is among the names, unless there is none to compare. -/
theorem found_eq {client : Option (List UInt8)} {names : Option (List (List UInt8))}
    (hsearch : client ≠ none ∨ names.getD [] = []) :
    found client names = .ok (In names client) := by
  cases names with
  | none => cases client <;> rfl
  | some names =>
    cases client with
    | some client => exact isIn_some client names
    | none =>
      obtain rfl : names = [] := hsearch.resolve_left (not_not.mpr rfl)
      rfl

/-- A search that does not go wrong either has a client or nothing to search. -/
theorem search_of_found {client : Option (List UInt8)} {names : Option (List (List UInt8))}
    {b : Bool} (hfound : found client names = .ok b) : client ≠ none ∨ names.getD [] = [] := by
  cases client with
  | some client => exact .inl (Option.some_ne_none client)
  | none =>
    right
    cases names with
    | none => rfl
    | some names =>
      cases names with
      | nil => rfl
      | cons name names => cases hfound

variable {favs blocks : Option (List (List UInt8))} {h : ListingHeap} {alts : List Nat}

/-- A listing of a favourite. -/
def favourite (favs : Option (List (List UInt8))) (h : ListingHeap) (li : Nat) : Bool :=
  In favs (h.listings li).client

/-- A listing of a blocked client. -/
def blocked (blocks : Option (List (List UInt8))) (h : ListingHeap) (li : Nat) : Bool :=
  In blocks (h.listings li).client

/-- The listings of favourites, in their order. -/
def favouritesOf (favs : Option (List (List UInt8))) (h : ListingHeap) (alts : List Nat) :
    List Nat :=
  alts.filter (favourite favs h)

/-- The listings of clients that are blocked and no favourites. -/
def blocksOf (favs blocks : Option (List (List UInt8))) (h : ListingHeap) (alts : List Nat) :
    List Nat :=
  alts.filter fun li => !favourite favs h li && blocked blocks h li

/-- The listings of all others. -/
def normalsOf (favs blocks : Option (List (List UInt8))) (h : ListingHeap) (alts : List Nat) :
    List Nat :=
  alts.filter fun li => !favourite favs h li && !blocked blocks h li

/-- The lists when some of the alternatives have been met. -/
def listsFor (favs blocks : Option (List (List UInt8))) (h : ListingHeap) (count : Nat)
    (met : List Nat) : Lists where
  favList := .padded count (favouritesOf favs h met)
  blockList := .padded count (blocksOf favs blocks h met)
  normalList := .padded count (normalsOf favs blocks h met)
  favCount := (favouritesOf favs h met).length
  blockCount := (blocksOf favs blocks h met).length
  normalCount := (normalsOf favs blocks h met).length

/-- A client can be looked for in both arrays. -/
def Searchable (favs blocks : Option (List (List UInt8))) (client : Option (List UInt8)) : Prop :=
  client ≠ none ∨ favs.getD [] = [] ∧ blocks.getD [] = []

/-- The alternatives can be split: they have not been freed, and have clients to look for. -/
structure Usable (favs blocks : Option (List (List UInt8))) (h : ListingHeap) (alts : List Nat) :
    Prop where
  live : ∀ li ∈ alts, (h.listings li).refCount ≠ 0
  searchable : ∀ li ∈ alts, Searchable favs blocks (h.listings li).client

/-- The lists stay usable when copies are made. -/
theorem Usable.add (husable : Usable favs blocks h alts) (lis : List Nat) :
    Usable favs blocks (h.add lis) alts where
  live li hli := by
    rw [ListingHeap.refCount_add]
    exact Nat.ne_of_gt (Nat.add_pos_left (Nat.pos_of_ne_zero (husable.live li hli)) _)
  searchable := husable.searchable

/-- The lists stay usable for some of the alternatives. -/
theorem Usable.of_subset (husable : Usable favs blocks h alts) {lis : List Nat}
    (hsub : lis ⊆ alts) : Usable favs blocks h lis where
  live li hli := husable.live li (hsub hli)
  searchable li hli := husable.searchable li (hsub hli)

/-- A listing is put on the list of those with a property. -/
theorem setItem_filter {p : Nat → Bool} {pre : List Nat} {li count : Nat} (hp : p li = true)
    (hlt : pre.length < count) (hlive : (h.listings li).refCount ≠ 0) :
    h.setItem (.padded count (pre.filter p)) (pre.filter p).length li =
      .ok (h.add [li], .padded count ((pre ++ [li]).filter p)) := by
  have hroom : (pre.filter p).length < count :=
    Nat.lt_of_le_of_lt (pre.length_filter_le p) hlt
  have hitem : (pre.filter p).length < (ListingList.padded count (pre.filter p)).length := by
    rwa [ListingList.length_padded hroom.le]
  rw [ListingHeap.setItem_eq hitem hlive, ListingList.set_padded hroom, List.filter_append,
    List.filter_singleton, hp]
  rfl

/-- The next alternative goes to the end of its list. -/
theorem place_eq {pre post : List Nat} {li : Nat} (halts : alts = pre ++ li :: post)
    {lis : List Nat} (husable : Usable favs blocks (h.add lis) alts) :
    place favs blocks (h.add lis) li (listsFor favs blocks h alts.length pre) =
      .ok ((h.add lis).add [li], listsFor favs blocks h alts.length (pre ++ [li])) := by
  have hli : li ∈ alts := by simp [halts]
  have hlt : pre.length < alts.length := by simp [halts]
  have hsearch := husable.searchable li hli
  have hset {p : Nat → Bool} (hp : p li = true) :=
    setItem_filter hp hlt (husable.live li hli)
  -- the list it belongs to grows, and the others stay as they are
  have hgrow : ∀ p : Nat → Bool, p li = true →
      (pre.filter p).length + 1 = ((pre ++ [li]).filter p).length := by
    intro p hp
    simp [List.filter_append, hp]
  have hsame : ∀ p : Nat → Bool, p li = false → (pre ++ [li]).filter p = pre.filter p := by
    intro p hp
    simp [List.filter_append, hp]
  have hfav : In favs ((h.add lis).listings li).client = favourite favs h li := rfl
  have hblock : In blocks ((h.add lis).listings li).client = blocked blocks h li := rfl
  rw [place]
  simp only [bind, Except.bind, found_eq (hsearch.imp_right And.left),
    found_eq (hsearch.imp_right And.right), hfav, hblock, listsFor, favouritesOf, blocksOf,
    normalsOf]
  cases hf : favourite favs h li with
  | true =>
    rw [if_pos rfl, hset hf, hgrow _ hf,
      hsame (fun j => !favourite favs h j && blocked blocks h j) (by simp [hf]),
      hsame (fun j => !favourite favs h j && !blocked blocks h j) (by simp [hf])]
    rfl
  | false =>
    rw [if_neg (by decide)]
    cases hb : blocked blocks h li with
    | true =>
      have hp : (fun j => !favourite favs h j && blocked blocks h j) li = true := by simp [hf, hb]
      rw [if_pos rfl, hset hp, hgrow _ hp, hsame (favourite favs h) hf,
        hsame (fun j => !favourite favs h j && !blocked blocks h j) (by simp [hb])]
      rfl
    | false =>
      have hp : (fun j => !favourite favs h j && !blocked blocks h j) li = true := by simp [hf, hb]
      rw [if_neg (by decide), hset hp, hgrow _ hp, hsame (favourite favs h) hf,
        hsame (fun j => !favourite favs h j && blocked blocks h j) (by simp [hb])]
      rfl

/-- One round of the loop: the next alternative goes to the end of its list, and has one copy
    more. -/
theorem splitItem_eq (husable : Usable favs blocks h alts) {pre post : List Nat} {li : Nat}
    (halts : alts = pre ++ li :: post) :
    splitItem favs blocks (alts.map some) (h.add pre, listsFor favs blocks h alts.length pre)
        pre.length =
      .ok (h.add (pre ++ [li]), listsFor favs blocks h alts.length (pre ++ [li])) := by
  have hli : li ∈ alts := by simp [halts]
  have hitem : (alts.map some)[pre.length]? = some (some li) := by simp [halts]
  rw [splitItem, ListingHeap.getItem_eq hitem ((husable.add pre).live li hli), ListingHeap.add_add]
  simp only [bind, Except.bind, place_eq halts (husable.add (pre ++ [li])),
    ListingHeap.listingDelete_add]
  rfl

/-- The loop of `split_list`, up to some alternative. -/
theorem foldlM_splitItem (husable : Usable favs blocks h alts) {n : Nat} (hn : n ≤ alts.length) :
    (List.range n).foldlM (splitItem favs blocks (alts.map some))
        (h, listsFor favs blocks h alts.length []) =
      .ok (h.add (alts.take n), listsFor favs blocks h alts.length (alts.take n)) := by
  induction n with
  | zero => rfl
  | succ n ih =>
    have hlt : n < alts.length := hn
    have hsplit : alts = alts.take n ++ alts[n] :: alts.drop (n + 1) := by
      rw [← List.drop_eq_getElem_cons hlt, List.take_append_drop]
    have hround := @splitItem_eq favs blocks _ _ husable _ _ _ hsplit
    rw [List.length_take_of_le hlt.le, ← List.take_succ_eq_append_getElem hlt] at hround
    rw [List.range_succ, List.foldlM_append, ih hlt.le]
    simp only [bind, Except.bind, List.foldlM_cons, List.foldlM_nil, hround]
    rfl

/-- Every alternative is in exactly one of the three lists. -/
theorem lists_perm (favs blocks : Option (List (List UInt8))) (h : ListingHeap) (alts : List Nat) :
    (favouritesOf favs h alts ++ (normalsOf favs blocks h alts ++ blocksOf favs blocks h alts)).Perm
      alts := by
  have hothers : (normalsOf favs blocks h alts ++ blocksOf favs blocks h alts).Perm
      (alts.filter fun li => !favourite favs h li) := by
    have hperm := List.filter_append_perm (blocked blocks h)
      (alts.filter fun li => !favourite favs h li)
    rw [List.filter_filter, List.filter_filter] at hperm
    simp only [Bool.and_comm (blocked blocks h _), Bool.and_comm (!blocked blocks h _)] at hperm
    exact List.perm_append_comm.trans hperm
  exact (hothers.append_left _).trans (List.filter_append_perm (favourite favs h) alts)

/-- The lists that `split_list` makes. -/
def splitLists (favs blocks : Option (List (List UInt8))) (h : ListingHeap) (alts : List Nat) :
    Lists where
  favList := (favouritesOf favs h alts).map some
  blockList := (blocksOf favs blocks h alts).map some
  normalList := (normalsOf favs blocks h alts).map some
  favCount := (favouritesOf favs h alts).length
  blockCount := (blocksOf favs blocks h alts).length
  normalCount := (normalsOf favs blocks h alts).length

/-- `split_list` makes the three lists, and every alternative has one copy more. -/
theorem splitList_eq (husable : Usable favs blocks h alts) :
    splitList favs blocks h (alts.map some) = .ok (h.add alts, splitLists favs blocks h alts) := by
  have hloop := @foldlM_splitItem favs blocks _ _ husable _ (Nat.le_refl _)
  rw [List.take_length] at hloop
  have hcount := (lists_perm favs blocks h alts).length_eq
  rw [List.length_append, List.length_append] at hcount
  -- the lists are cut to what is in them
  have hcut : ∀ p : Nat → Bool, (ListingList.padded alts.length (alts.filter p)).resize
      (alts.filter p).length = (alts.filter p).map some :=
    fun p => ListingList.resize_padded (alts.length_filter_le p)
  rw [splitList, List.length_map]
  show ((List.range alts.length).foldlM (splitItem favs blocks (alts.map some))
    (h, listsFor favs blocks h alts.length []) >>= _) = _
  rw [hloop]
  simp only [bind, Except.bind]
  rw [if_neg]
  · simp only [listsFor, favouritesOf, blocksOf, normalsOf, hcut]
    rfl
  · -- the assertion
    simp only [listsFor]
    omega

/-! ### Choosing -/

/-- Tracing a list leaves the copies as they are. -/
theorem traceList_eq {lis : List Nat} (husable : Usable favs blocks h lis)
    (hclient : ∀ li ∈ lis, (h.listings li).client ≠ none) :
    traceList h (lis.map some) = .ok h := by
  have hloop : ∀ n ≤ lis.length, (List.range n).foldlM
      (fun h i => h.getItem (lis.map some) i >>= fun (s : ListingHeap × Nat) => do
        if (s.1.listings s.2).client.isNone then throw .nullPointer
        s.1.listingDelete s.2) h = Except.ok h := by
    intro n hn
    induction n with
    | zero => rfl
    | succ n ih =>
      have hlt : n < lis.length := hn
      -- each round takes a copy of the listing, and gives it back
      have hli : lis[n] ∈ lis := List.getElem_mem hlt
      have hitem : (lis.map some)[n]? = some (some lis[n]) := by simp [hlt]
      have hsome : ((h.add [lis[n]]).listings lis[n]).client.isNone = false :=
        Option.isNone_eq_false_iff.mpr (Option.isSome_iff_ne_none.mpr (hclient _ hli))
      rw [List.range_succ, List.foldlM_append, ih hlt.le]
      simp only [bind, Except.bind, List.foldlM_cons, List.foldlM_nil,
        ListingHeap.getItem_eq hitem (husable.live _ hli), hsome]
      rw [if_neg (by decide)]
      simp only [pure, Except.pure, ListingHeap.listingDelete_add]
  rw [traceList, List.length_map]
  exact hloop _ (Nat.le_refl _)

/-- The choice from a list that is not empty. -/
def pick (lis : List Nat) (random : Nat) : Option Nat := lis[random % lis.length]?

/-- The alternative that is chosen. -/
def chosen (favs blocks : Option (List (List UInt8))) (h : ListingHeap) (alts : List Nat)
    (random : Nat) : Option Nat :=
  if favouritesOf favs h alts ≠ [] then pick (favouritesOf favs h alts) random
  else pick (normalsOf favs blocks h alts) random

/-- From a list that is not empty one of it is picked. -/
theorem pick_eq_some {lis : List Nat} (hne : lis ≠ []) (random : Nat) :
    ∃ li ∈ lis, pick lis random = some li := by
  have hlt := Nat.mod_lt random (List.length_pos_iff.mpr hne)
  exact ⟨_, List.getElem_mem hlt, List.getElem?_eq_getElem hlt⟩

/-- The choice is one of the alternatives. -/
theorem mem_of_chosen {random li : Nat} (hli : li ∈ chosen favs blocks h alts random) :
    li ∈ alts := by
  rw [chosen] at hli
  split at hli
  · exact List.mem_of_mem_filter (List.mem_of_getElem? hli)
  · exact List.mem_of_mem_filter (List.mem_of_getElem? hli)

/-- A copy is taken of the choice from a list. -/
theorem getItem_pick {lis : List Nat} (husable : Usable favs blocks h lis) (hne : lis ≠ [])
    (random : Nat) :
    (h.getItem (lis.map some) (random % (lis.map some).length)).map
        (fun (h, li) => (h, some li)) =
      .ok (h.add (pick lis random).toList, pick lis random) := by
  obtain ⟨li, hli, hpick⟩ := pick_eq_some hne random
  have hitem : (lis.map some)[random % (lis.map some).length]? = some (some li) := by
    rw [List.length_map, List.getElem?_map]
    exact congrArg (Option.map some) hpick
  rw [ListingHeap.getItem_eq hitem (husable.live li hli), hpick]
  rfl

/-- The choice picks from the first of the lists that is not empty, and copies what it has
    picked. -/
theorem choose_eq (husable : Usable favs blocks h alts) (lis : List Nat) (random : Nat) :
    choose (h.add lis) (splitLists favs blocks h alts) random =
      .ok ((h.add lis).add (chosen favs blocks h alts random).toList,
        chosen favs blocks h alts random) := by
  have hsub := (husable.add lis).of_subset (List.filter_subset_self alts (p := favourite favs h))
  have hsub' : Usable favs blocks (h.add lis) (normalsOf favs blocks h alts) :=
    (husable.add lis).of_subset (List.filter_subset_self _)
  rw [choose, chosen]
  -- the favourites first, then the others, and nothing if there are only blocked ones
  by_cases hf : favouritesOf favs h alts = []
  · have hf' : (splitLists favs blocks h alts).favList.length = 0 := by
      rw [splitLists, hf]
      rfl
    rw [if_neg (not_not.mpr hf'), if_neg (not_not.mpr hf)]
    by_cases hn : normalsOf favs blocks h alts = []
    · have hn' : (splitLists favs blocks h alts).normalList.length = 0 := by
        rw [splitLists, hn]
        rfl
      rw [if_neg (not_not.mpr hn'), hn]
      rfl
    · have hn' : (splitLists favs blocks h alts).normalList.length ≠ 0 := by
        simpa [splitLists] using hn
      rw [if_pos hn']
      exact getItem_pick hsub' hn random
  · have hf' : (splitLists favs blocks h alts).favList.length ≠ 0 := by
      simpa [splitLists] using hf
    rw [if_pos hf', if_pos hf]
    exact getItem_pick hsub hf random

/-- The traces of a DEBUG build read each alternative, and leave no copy behind. -/
theorem traceLists_eq {debug : Bool} (husable : Usable favs blocks h alts)
    (hclient : debug = true → ∀ li ∈ alts, (h.listings li).client ≠ none) (lis : List Nat) :
    traceLists debug (h.add lis) (splitLists favs blocks h alts) = .ok (h.add lis) := by
  have hsub : ∀ p : Nat → Bool, Usable favs blocks (h.add lis) (alts.filter p) :=
    fun p => (husable.add lis).of_subset (List.filter_subset_self _)
  cases debug with
  | false => rfl
  | true =>
    have hsome : ∀ p : Nat → Bool, ∀ li ∈ alts.filter p,
        ((h.add lis).listings li).client ≠ none :=
      fun p li hli => hclient rfl li (List.mem_of_mem_filter hli)
    -- a DEBUG build traces the three lists, one after the other
    show (do
      let h ← traceList (h.add lis) ((alts.filter _).map some)
      let h ← traceList h ((alts.filter _).map some)
      traceList h ((alts.filter _).map some)) = _
    rw [traceList_eq (hsub _) (hsome _)]
    show (do
      let h ← traceList (h.add lis) ((alts.filter _).map some)
      traceList h ((alts.filter _).map some)) = _
    rw [traceList_eq (hsub _) (hsome _)]
    exact traceList_eq (hsub _) (hsome _)

/-- Every alternative has had a copy in one of the lists. -/
theorem add_alts_eq (lis : List Nat) :
    (h.add alts).add lis =
      (((h.add lis).add (blocksOf favs blocks h alts)).add (normalsOf favs blocks h alts)).add
        (favouritesOf favs h alts) := by
  rw [ListingHeap.add_add, ListingHeap.add_add, ListingHeap.add_add, ListingHeap.add_add]
  apply ListingHeap.add_perm
  rw [List.perm_iff_count]
  intro li
  have hcount := (lists_perm favs blocks h alts).count_eq li
  simp only [List.count_append] at hcount ⊢
  omega

/-- `peerstats_chose_alternative` returns the choice with a copy of its own, and leaves all other
    copies as they were. -/
theorem choseAlternative_eq {debug : Bool} (husable : Usable favs blocks h alts)
    (random : Nat) (hclient : debug = true → ∀ li ∈ alts, (h.listings li).client ≠ none)
    (hhref : debug = true →
      ∀ li ∈ chosen favs blocks h alts random, (h.listings li).href ≠ none) :
    choseAlternative debug favs blocks h (alts.map some) random =
      .ok (h.add (chosen favs blocks h alts random).toList, chosen favs blocks h alts random) := by
  -- the trace of the choice reads the client and the href
  have hchoice : debug = true →
      traceChoice ((h.add alts).add (chosen favs blocks h alts random).toList)
        (chosen favs blocks h alts random) = .ok () := by
    intro hdebug
    cases hchosen : chosen favs blocks h alts random with
    | none => rfl
    | some li =>
      have hli : li ∈ alts := mem_of_chosen hchosen
      rw [traceChoice, if_neg]
      simp [hhref hdebug li hchosen, hclient hdebug li hli]
  -- the copies of the split go with their lists
  have hfav : ((h.add alts).add (chosen favs blocks h alts random).toList).listDelete
      (splitLists favs blocks h alts).favList =
        .ok (((h.add (chosen favs blocks h alts random).toList).add
          (blocksOf favs blocks h alts)).add (normalsOf favs blocks h alts)) := by
    rw [@add_alts_eq favs blocks]
    exact ListingHeap.listDelete_add _
  have hnormal : (((h.add (chosen favs blocks h alts random).toList).add
      (blocksOf favs blocks h alts)).add (normalsOf favs blocks h alts)).listDelete
        (splitLists favs blocks h alts).normalList =
          .ok ((h.add (chosen favs blocks h alts random).toList).add
            (blocksOf favs blocks h alts)) :=
    ListingHeap.listDelete_add _
  have hblock : ((h.add (chosen favs blocks h alts random).toList).add
      (blocksOf favs blocks h alts)).listDelete (splitLists favs blocks h alts).blockList =
        .ok (h.add (chosen favs blocks h alts random).toList) :=
    ListingHeap.listDelete_add _
  rw [choseAlternative, splitList_eq husable]
  simp only [bind, Except.bind, traceLists_eq husable hclient, choose_eq husable, hfav, hnormal,
    hblock]
  cases debug with
  | false => rfl
  | true =>
    rw [if_pos rfl, hchoice rfl]
    rfl

/-! ### What a split shows -/

/-- The clients of the listings are the same. -/
def SameClients (h h' : ListingHeap) : Prop :=
  ∀ li, (h'.listings li).client = (h.listings li).client

/-- Clients that stay the same twice have stayed the same. -/
theorem SameClients.trans {h h' h'' : ListingHeap} (h₁ : SameClients h h')
    (h₂ : SameClients h' h'') : SameClients h h'' :=
  fun li => (h₂ li).trans (h₁ li)

/-- Copies leave them as they are. -/
theorem sameClients_add (h : ListingHeap) (lis : List Nat) : SameClients h (h.add lis) :=
  fun _ => rfl

/-- Deleting a copy of a listing changes no client. -/
theorem sameClients_of_listingDelete {h h' : ListingHeap} {li : Nat}
    (hdelete : h.listingDelete li = .ok h') : SameClients h h' := by
  rw [ListingHeap.eq_add_of_listingDelete hdelete]
  exact fun _ => rfl

/-- Putting a listing into a list changes no client. -/
theorem sameClients_of_setItem {h h' : ListingHeap} {lis lis' : ListingList} {item li : Nat}
    (hset : h.setItem lis item li = .ok (h', lis')) : SameClients h h' := by
  rw [ListingHeap.eq_add_of_setItem hset]
  exact sameClients_add h _

/-- A listing is placed by a search for its client. -/
theorem searchable_of_place {h h' : ListingHeap} {li : Nat} {lists lists' : Lists}
    (hplace : place favs blocks h li lists = .ok (h', lists')) :
    SameClients h h' ∧ Searchable favs blocks (h.listings li).client := by
  obtain ⟨b, hfavs, hplace⟩ := Except.do_eq_ok_iff.mp hplace
  cases b with
  | true =>
    rw [if_pos rfl] at hplace
    obtain ⟨⟨h₁, lis⟩, hset, hplace⟩ := Except.do_eq_ok_iff.mp hplace
    cases hplace
    refine ⟨sameClients_of_setItem hset, .inl fun hnone => ?_⟩
    -- what is found is something
    rw [hnone] at hfavs
    have hnil := (search_of_found hfavs).resolve_left (not_not.mpr rfl)
    rw [found_eq (.inr hnil)] at hfavs
    cases hfavs
  | false =>
    rw [if_neg (by decide)] at hplace
    obtain ⟨b, hblocks, hplace⟩ := Except.do_eq_ok_iff.mp hplace
    have hsearch : Searchable favs blocks (h.listings li).client := by
      obtain hsome | hfavs := search_of_found hfavs
      · exact .inl hsome
      · exact (search_of_found hblocks).imp_right fun hblocks => ⟨hfavs, hblocks⟩
    refine ⟨?_, hsearch⟩
    cases b with
    | true =>
      rw [if_pos rfl] at hplace
      obtain ⟨⟨h₁, lis⟩, hset, hplace⟩ := Except.do_eq_ok_iff.mp hplace
      cases hplace
      exact sameClients_of_setItem hset
    | false =>
      rw [if_neg (by decide)] at hplace
      obtain ⟨⟨h₁, lis⟩, hset, hplace⟩ := Except.do_eq_ok_iff.mp hplace
      cases hplace
      exact sameClients_of_setItem hset

/-- One round of the loop looks for the client of its alternative. -/
theorem searchable_of_splitItem {s s' : ListingHeap × Lists} {i : Nat}
    (hround : splitItem favs blocks (alts.map some) s i = .ok s') :
    SameClients s.1 s'.1 ∧
      ∀ li, alts[i]? = some li → Searchable favs blocks (s.1.listings li).client := by
  obtain ⟨⟨h₁, li⟩, hget, hround⟩ := Except.do_eq_ok_iff.mp hround
  obtain ⟨⟨h₂, lists⟩, hplace, hround⟩ := Except.do_eq_ok_iff.mp hround
  obtain ⟨h₃, hdelete, hround⟩ := Except.do_eq_ok_iff.mp hround
  cases hround
  obtain ⟨hslot, rfl⟩ := ListingHeap.eq_add_of_getItem hget
  obtain ⟨hsame, hsearch⟩ := searchable_of_place hplace
  refine ⟨((sameClients_add s.1 [li]).trans hsame).trans (sameClients_of_listingDelete hdelete),
    fun j hj => ?_⟩
  rw [List.getElem?_map, hj] at hslot
  obtain rfl : j = li := Option.some.inj (Option.some.inj hslot)
  exact hsearch

/-- Alternatives that have been split had clients to look for. -/
theorem searchable_of_splitList {split : ListingHeap × Lists}
    (hsplit : splitList favs blocks h (alts.map some) = .ok split) :
    ∀ li ∈ alts, Searchable favs blocks (h.listings li).client := by
  -- over the rounds: the clients stay, and each round has searched for its own
  have hloop : ∀ (n : Nat) (s s' : ListingHeap × Lists),
      (List.range n).foldlM (splitItem favs blocks (alts.map some)) s = .ok s' →
        SameClients s.1 s'.1 ∧ ∀ i < n, ∀ li, alts[i]? = some li →
          Searchable favs blocks (s.1.listings li).client := by
    intro n
    induction n with
    | zero =>
      intro s s' hs
      cases hs
      exact ⟨fun _ => rfl, fun i hi => absurd hi (Nat.not_lt_zero i)⟩
    | succ n ih =>
      intro s s' hs
      rw [List.range_succ, List.foldlM_append] at hs
      obtain ⟨s₁, hpre, hs⟩ := Except.do_eq_ok_iff.mp hs
      obtain ⟨s₂, hround, hs⟩ := Except.do_eq_ok_iff.mp hs
      cases hs
      obtain ⟨hsame, hsearch⟩ := ih s s₁ hpre
      obtain ⟨hsame', hsearch'⟩ := searchable_of_splitItem hround
      refine ⟨hsame.trans hsame', fun i hi li hli => ?_⟩
      obtain hi | rfl := Nat.lt_succ_iff_lt_or_eq.mp hi
      · exact hsearch i hi li hli
      · rw [← hsame li]
        exact hsearch' li hli
  intro li hli
  obtain ⟨s, hs, -⟩ := Except.do_eq_ok_iff.mp hsplit
  obtain ⟨i, hi, rfl⟩ := List.getElem_of_mem hli
  refine (hloop _ _ _ hs).2 i ?_ _ (List.getElem?_eq_getElem hi)
  rw [List.length_map]
  exact hi

/-- Tracing a list has left the copies as they were. -/
theorem eq_of_traceList {h' : ListingHeap} {lis : ListingList}
    (htrace : traceList h lis = .ok h') : h' = h := by
  rw [traceList] at htrace
  generalize List.range lis.length = is at htrace
  induction is generalizing h with
  | nil => exact (Except.ok.inj htrace).symm
  | cons i is ih =>
    obtain ⟨h₁, hround, htrace⟩ := Except.do_eq_ok_iff.mp htrace
    obtain ⟨⟨h₂, li⟩, hget, hround⟩ := Except.do_eq_ok_iff.mp hround
    obtain ⟨-, rfl⟩ := ListingHeap.eq_add_of_getItem hget
    dsimp only at hround
    split at hround
    · cases hround
    · obtain rfl := ListingHeap.add_inj.mp (ListingHeap.eq_add_of_listingDelete hround)
      exact ih htrace

/-- So has tracing the three. -/
theorem eq_of_traceLists {debug : Bool} {h' : ListingHeap} {lists : Lists}
    (htrace : traceLists debug h lists = .ok h') : h' = h := by
  cases debug with
  | false => exact (Except.ok.inj htrace).symm
  | true =>
    obtain ⟨h₁, hfav, htrace⟩ := Except.do_eq_ok_iff.mp htrace
    obtain ⟨h₂, hnormal, hblock⟩ := Except.do_eq_ok_iff.mp htrace
    rw [eq_of_traceList hblock, eq_of_traceList hnormal, eq_of_traceList hfav]

/-- What is chosen from the lists does not depend on the heap, and there is a copy more of it. -/
theorem eq_chosen_of_choose {h₁ h₂ : ListingHeap} {random : Nat} {ret : Option Nat}
    (hchoose : choose h₁ (splitLists favs blocks h alts) random = .ok (h₂, ret)) :
    ret = chosen favs blocks h alts random ∧ h₂ = h₁.add ret.toList := by
  -- what is got from a list is its pick, and a copy of that
  have hitem : ∀ {lis : List Nat}, (h₁.getItem (lis.map some) (random % (lis.map some).length)).map
      (fun (h, li) => (h, some li)) = .ok (h₂, ret) →
        ret = pick lis random ∧ h₂ = h₁.add ret.toList := by
    intro lis hmap
    cases hget : h₁.getItem (lis.map some) (random % (lis.map some).length) with
    | error _ =>
      rw [hget] at hmap
      cases hmap
    | ok got =>
      obtain ⟨hslot, hcopy⟩ := ListingHeap.eq_add_of_getItem hget
      rw [hget] at hmap
      cases hmap
      rw [List.length_map, List.getElem?_map, Option.map_eq_some_iff] at hslot
      obtain ⟨li, hli, heq⟩ := hslot
      obtain rfl := Option.some.inj heq
      exact ⟨hli.symm, hcopy⟩
  rw [choose] at hchoose
  rw [chosen]
  split at hchoose
  · rename_i hf
    rw [if_pos (by simpa [splitLists] using hf)]
    exact hitem hchoose
  · rename_i hf
    rw [if_neg (by simpa [splitLists] using hf)]
    split at hchoose
    · exact hitem hchoose
    · rename_i hn
      have hnil : normalsOf favs blocks h alts = [] := by simpa [splitLists] using hn
      cases hchoose
      rw [hnil]
      exact ⟨rfl, rfl⟩

/-- A call that goes through has chosen one of the alternatives, if any, and has left all counts as
    they were but for a copy of that. -/
theorem eq_add_of_choseAlternative {debug : Bool} {h' : ListingHeap} {random : Nat}
    {ret : Option Nat} (hlive : ∀ li ∈ alts, (h.listings li).refCount ≠ 0)
    (hchose : choseAlternative debug favs blocks h (alts.map some) random = .ok (h', ret)) :
    h' = h.add ret.toList ∧ ∀ li ∈ ret, li ∈ alts := by
  obtain ⟨split, hsplit, hchose⟩ := Except.do_eq_ok_iff.mp hchose
  rw [splitList_eq ⟨hlive, searchable_of_splitList hsplit⟩] at hsplit
  cases hsplit
  obtain ⟨h₁, htrace, hchose⟩ := Except.do_eq_ok_iff.mp hchose
  obtain rfl := eq_of_traceLists htrace
  obtain ⟨⟨h₂, ret'⟩, hchoose, hchose⟩ := Except.do_eq_ok_iff.mp hchose
  obtain ⟨hret, rfl⟩ := eq_chosen_of_choose hchoose
  -- without the traces, which change nothing
  have hdelete : (((h.add alts).add ret'.toList).listDelete
      (splitLists favs blocks h alts).favList >>= fun h' => do
        let h' ← h'.listDelete (splitLists favs blocks h alts).normalList
        let h' ← h'.listDelete (splitLists favs blocks h alts).blockList
        return (h', ret')) = Except.ok (h', ret) := by
    cases debug with
    | false => exact hchose
    | true =>
      obtain ⟨_, -, hrest⟩ := Except.do_eq_ok_iff.mp hchose
      exact hrest
  obtain ⟨h₃, hfav, hdelete⟩ := Except.do_eq_ok_iff.mp hdelete
  obtain ⟨h₄, hnormal, hdelete⟩ := Except.do_eq_ok_iff.mp hdelete
  obtain ⟨h₅, hblock, hdelete⟩ := Except.do_eq_ok_iff.mp hdelete
  cases hdelete
  constructor
  · -- the three lists together give back what the split has copied
    rw [@add_alts_eq favs blocks] at hfav
    have hall := ListingHeap.eq_add_of_listDelete hfav
    rw [ListingHeap.add_inj, ListingHeap.eq_add_of_listDelete hnormal, ListingHeap.add_inj,
      ListingHeap.eq_add_of_listDelete hblock, ListingHeap.add_inj] at hall
    exact hall.symm
  · intro li hli
    rw [hret] at hli
    exact mem_of_chosen hli

/-! ### The choice -/

/-- The choice as it should be: a favourite if there is one, else a client that is not blocked if
    there is one, else nothing. -/
def Preferred (favs blocks : Option (List (List UInt8))) (h : ListingHeap) (alts : List Nat)
    (ret : Option Nat) : Prop :=
  if ∃ li ∈ alts, favourite favs h li then ∃ li ∈ alts, favourite favs h li ∧ ret = some li
  else if ∃ li ∈ alts, ¬ blocked blocks h li then ∃ li ∈ alts, ¬ blocked blocks h li ∧ ret = some li
  else ret = none

/-- What is chosen is preferred to the other alternatives. -/
theorem preferred_chosen (random : Nat) :
    Preferred favs blocks h alts (chosen favs blocks h alts random) := by
  have hmem : ∀ {p : Nat → Bool} {li : Nat}, li ∈ alts.filter p ↔ li ∈ alts ∧ p li = true :=
    List.mem_filter
  rw [Preferred, chosen]
  by_cases hfav : favouritesOf favs h alts = []
  · have hnone : ¬ ∃ li ∈ alts, favourite favs h li := by
      simpa [favouritesOf, List.filter_eq_nil_iff] using hfav
    rw [if_neg hnone, if_neg (not_not.mpr hfav)]
    -- without a favourite, the others are those that are not blocked
    have hothers : normalsOf favs blocks h alts = alts.filter fun li => !blocked blocks h li := by
      apply List.filter_congr
      intro li hli
      have : favourite favs h li = false := by
        simpa using fun hf => hnone ⟨li, hli, hf⟩
      rw [this, Bool.not_false, Bool.true_and]
    rw [hothers]
    by_cases hnormal : alts.filter (fun li => !blocked blocks h li) = []
    · have hnone' : ¬ ∃ li ∈ alts, ¬ blocked blocks h li := by
        simpa [List.filter_eq_nil_iff] using hnormal
      rw [if_neg hnone', hnormal]
      rfl
    · obtain ⟨li, hli, hpick⟩ := pick_eq_some hnormal random
      obtain ⟨hli, hblock⟩ := hmem.mp hli
      have hblock' : ¬ blocked blocks h li = true := by simpa using hblock
      rw [if_pos ⟨li, hli, hblock'⟩]
      exact ⟨li, hli, hblock', hpick⟩
  · obtain ⟨li, hli, hpick⟩ := pick_eq_some hfav random
    obtain ⟨hli, hf⟩ := hmem.mp hli
    rw [if_pos ⟨li, hli, hf⟩, if_pos hfav]
    exact ⟨li, hli, hf, hpick⟩

/-- The alternatives that the choice is to be made of. -/
def candidates (favs blocks : Option (List (List UInt8))) (h : ListingHeap) (alts : List Nat) :
    List Nat :=
  if ∃ li ∈ alts, favourite favs h li then alts.filter (favourite favs h)
  else alts.filter fun li => !blocked blocks h li

/-- The choice is the candidate that the random number comes to. -/
theorem chosen_eq_pick_candidates (random : Nat) :
    chosen favs blocks h alts random = pick (candidates favs blocks h alts) random := by
  rw [chosen, candidates]
  by_cases hfav : favouritesOf favs h alts = []
  -- without a favourite the others are all that are not blocked
  · have hnone : ¬ ∃ li ∈ alts, favourite favs h li := by
      simpa [favouritesOf, List.filter_eq_nil_iff] using hfav
    have hothers : normalsOf favs blocks h alts = alts.filter fun li => !blocked blocks h li := by
      apply List.filter_congr
      intro li hli
      have : favourite favs h li = false := by
        simpa using fun hf => hnone ⟨li, hli, hf⟩
      rw [this, Bool.not_false, Bool.true_and]
    rw [if_neg hnone, if_neg (not_not.mpr hfav), hothers]
  · obtain ⟨li, hli, -⟩ := pick_eq_some hfav random
    obtain ⟨hli, hf⟩ := List.mem_filter.mp hli
    have hsome : ∃ li ∈ alts, favourite favs h li := ⟨li, hli, hf⟩
    rw [if_pos hfav, if_pos hsome]
    rfl

/-- The trace of a choice that is nowhere stops the daemon. -/
theorem choseAlternative_of_href_eq_none (husable : Usable favs blocks h alts) {random li : Nat}
    (hclient : ∀ li ∈ alts, (h.listings li).client ≠ none)
    (hchosen : chosen favs blocks h alts random = some li)
    (hhref : (h.listings li).href = none) :
    choseAlternative true favs blocks h (alts.map some) random = .error .nullPointer := by
  have htrace : traceChoice ((h.add alts).add (some li).toList) (some li) =
      .error .nullPointer := by
    rw [traceChoice, if_pos]
    left
    simp [hhref]
  rw [choseAlternative, splitList_eq husable]
  simp only [bind, Except.bind, traceLists_eq husable (fun _ => hclient), choose_eq husable,
    hchosen]
  rw [if_pos trivial, htrace]

/-- A call does what it should: it chooses a peer from three lists that have each alternative in one
    of them and in its order; the count is right and every index within its list, or there would be
    a fault; and but for one of the choice there are as many copies as before. -/
def ChosenRight (debug : Bool) (favs blocks : Option (List (List UInt8))) (h : ListingHeap)
    (alts : List Nat) (random : Nat) : Prop :=
  (∃ h' lists, splitList favs blocks h (alts.map some) = .ok (h', lists) ∧
    lists.favList = (alts.filter (favourite favs h)).map some ∧
    lists.blockList =
      (alts.filter fun li => !favourite favs h li && blocked blocks h li).map some ∧
    lists.normalList =
      (alts.filter fun li => !favourite favs h li && !blocked blocks h li).map some) ∧
  ∃ h' ret, choseAlternative debug favs blocks h (alts.map some) random = .ok (h', ret) ∧
    Preferred favs blocks h alts ret ∧
    h' = { h with
      listings := fun li =>
        { h.listings li with
          refCount := (h.listings li).refCount + if ret = some li then 1 else 0 } }

/-- Peers are chosen as they should be, unless a build for debugging traces a choice that is
    nowhere. -/
theorem choseAlternative_right_iff (debug : Bool) (favs blocks : Option (List (List UInt8)))
    (h : ListingHeap) (alts : List Nat) (random : Nat)
    (hlive : ∀ li ∈ alts, (h.listings li).refCount ≠ 0)
    (hclient : ∀ li ∈ alts, (h.listings li).client ≠ none) :
    ChosenRight debug favs blocks h alts random ↔
      (debug = true → ∀ li ∈ pick (candidates favs blocks h alts) random,
        (h.listings li).href ≠ none) := by
  have husable : Usable favs blocks h alts := ⟨hlive, fun li hli => .inl (hclient li hli)⟩
  rw [← chosen_eq_pick_candidates]
  constructor
  -- a DEBUG build stops at a choice without an href
  · rintro ⟨-, h', ret, hchose, -⟩ rfl li hli hhref
    rw [choseAlternative_of_href_eq_none husable hclient hli hhref] at hchose
    cases hchose
  · intro hhref
    have hchose := choseAlternative_eq husable random (fun _ => hclient) hhref
    refine ⟨⟨_, _, splitList_eq husable, rfl, rfl, rfl⟩, _, _, hchose, preferred_chosen random, ?_⟩
    cases chosen favs blocks h alts random with
    | none => rfl
    | some c =>
      simp only [ListingHeap.add, Option.toList_some, Option.some.injEq, List.count_singleton,
        beq_iff_eq]

/-- Two alternatives, of which the first client is blocked and the second a favourite. -/
def twoAlternatives (href : Option (List UInt8)) : ListingHeap where
  made := 2
  listings li :=
    { refCount := 2, name := some (ascii "f"), hash := some (ascii "1"), type := .file, size := 3
      linkCount := 1, href
      client := some (if li = 0 then ascii "a" else ascii "b") }

/-- The favourite is chosen. -/
theorem choseAlternative_right_two :
    ChosenRight true (some [ascii "b"]) (some [ascii "a"])
      (twoAlternatives (some (ascii "http://peer/f"))) [0, 1] 7 := by
  refine (choseAlternative_right_iff true (some [ascii "b"]) (some [ascii "a"])
    (twoAlternatives (some (ascii "http://peer/f"))) [0, 1] 7 (by decide) (by decide)).mpr ?_
  exact fun _ _ _ => Option.some_ne_none _

/-- An alternative that is nowhere is chosen, and stops a build for debugging. -/
theorem not_choseAlternative_right_nowhere :
    choseAlternative true none none (twoAlternatives none) [some 0] 7 = .error .nullPointer ∧
      ¬ ChosenRight true none none (twoAlternatives none) [0] 7 := by
  have hchose : choseAlternative true none none (twoAlternatives none) [some 0] 7 =
      .error .nullPointer := rfl
  refine ⟨hchose, ?_⟩
  rintro ⟨-, h', ret, hok, -⟩
  rw [show [0].map some = [some 0] from rfl, hchose] at hok
  cases hok

end Peerstats

end Fsfuse.Native
