import Fsfuse.Native.DirentryHeap
import Fsfuse.Spec.FoundListings

/-!
# The children made of a listing

What `direntries_from_listing_list` is meant to make of the entries of a directory: a chain
with one direntry for each of them, the last one first, that has the attributes of the entry,
the directory for its parent, an inode of its own, and no children that have been looked for.

`direntry_from_listing` is meant to clear the part of the direntry that is behind the listing.
What it clears is further away by the size of a direntry, 72 times over. So the chain is as it
should be exactly when there was nothing in memory to clear, nothing where it is cleared, and
every listing could grow where it was.
-/

namespace Fsfuse.Native

/-! ### The inode map of one thread -/

namespace InodeMap

variable {δ : Type*}

/-- Direntries have been added as their inodes were handed out. -/
structure InTurn (map : InodeMap δ) : Prop where
  two_le : 2 ≤ map.inodeNext
  le_length : map.inodeNext ≤ map.slots.length

/-- A direntry is added to an array that is long enough after one step of growth. -/
theorem inodeMapAdd_eq {map : InodeMap δ} {inode : Nat} (hle : inode ≤ map.slots.length) (de : δ) :
    ∃ slots, map.inodeMapAdd inode de = .ok { map with slots, used := inode + 1 } ∧
      inode < slots.length := by
  rw [inodeMapAdd]
  generalize hslots : (if inode ≥ map.slots.length then
    map.slots ++ List.replicate inodeMapMod none else map.slots) = slots
  have hlt : inode < slots.length := by
    subst hslots
    split
    · rw [List.length_append, List.length_replicate]
      exact Nat.lt_of_le_of_lt hle (Nat.lt_add_of_pos_right (by decide))
    · omega
  rw [if_pos hlt]
  exact ⟨_, rfl, by rwa [List.length_set]⟩

/-- The next inode is handed out, and its direntry added. -/
theorem InTurn.inodeMapAdd {map : InodeMap δ} (hmap : map.InTurn) (de : δ) :
    ∃ map', (map.inodeNextStep.1).inodeMapAdd map.inodeNextStep.2 de = .ok map' ∧ map'.InTurn ∧
      map'.inodeNext = map.inodeNext + 1 := by
  have hle : map.inodeNextStep.2 ≤ (map.inodeNextStep.1).slots.length := hmap.le_length
  obtain ⟨slots, hadd, hlt⟩ := inodeMapAdd_eq hle de
  exact ⟨_, hadd, ⟨Nat.le_succ_of_le hmap.two_le, hlt⟩, rfl⟩

end InodeMap

namespace DirentryHeap

/-! ### Reachable heaps -/

/-- The heap when `direntry_init` has made the root, whose copies are not counted here. -/
def init (listings : ListingHeap) : DirentryHeap where
  listings := listings
  direntries _ := none
  map := (InodeMap.State.new .root : InodeMap.State DirentryId Unit).map

/-- A heap of the daemon, in which only one directory at a time is populated. -/
inductive Reachable : DirentryHeap → Prop
  | init (listings : ListingHeap) : Reachable (init listings)
  /-- anything that makes no direntries -/
  | other {s : DirentryHeap} (hs : Reachable s) (listings : ListingHeap)
      (direntries : Nat → Option DirentryT) : Reachable { s with listings, direntries }
  | populate {s s' : DirentryHeap} (hs : Reachable s) {alloc : Allocator} {founds : List Found}
      {parent : DirentryId} {head : Option Nat}
      (hchildren : childrenFromEntries alloc s founds parent = .ok (s', head)) : Reachable s'

/-! ### What is meant -/

/-- What the type of an entry is called. -/
def typeName : ListingType → List UInt8
  | .file => ascii "file"
  | .directory => ascii "directory"

/-- A listing has the attributes of an entry. -/
structure Shows (li : ListingT) (found : Found) : Prop where
  name : li.name = found.name
  hash : li.hash = found.hash
  type : found.type = some (typeName li.type)
  size : li.size = found.size
  linkCount : li.linkCount = found.linkCount
  href : li.href = found.href
  client : li.client = found.client

/-- The direntries from one on. -/
def Chain (s : DirentryHeap) : Option Nat → List Nat → Prop
  | head, [] => head = none
  | head, li :: lis => head = some li ∧ ∃ de, s.direntries li = some de ∧ s.Chain de.next lis

/-- A direntry of the directory, without children that have been looked for: its pointer to
    them and its flag are 0. -/
structure Clean (de : DirentryT) (parent : DirentryId) : Prop where
  parent : de.parent = some parent
  inode : de.inode ≠ fsfuseRootInode
  children : de.children = List.replicate sizeofChildren 0
  lookedForChildren : de.lookedForChildren = List.replicate sizeofLookedForChildren 0

/-- The chain from some direntry on is what is meant. -/
def Faithful (s : DirentryHeap) (head : Option Nat) (founds : List Found) (parent : DirentryId) :
    Prop :=
  ∃ lis : List Nat, s.Chain head lis ∧
    List.Forall₂ (fun li found => Shows (s.listings.listings li) found) lis founds.reverse ∧
    (∀ li ∈ lis, ∃ de, s.direntries li = some de ∧ Clean de parent) ∧
    (lis.map fun li => (s.direntries li).map DirentryT.inode).Nodup

/-- The entries of a directory become its children. -/
def MakesChildren (alloc : Allocator) (s : DirentryHeap) (founds : List Found)
    (parent : DirentryId) : Prop :=
  ∃ s' head, childrenFromEntries alloc s founds parent = .ok (s', head) ∧
    s'.Faithful head founds parent

/-! ### When it is what happens -/

/-- A listing grows where it is, and what is cleared belongs to nothing. -/
structure Grows (alloc : Allocator) (li : Nat) : Prop where
  stays : (alloc.room li).de = alloc.address li
  free : ∀ k < sizeofDirentry - sizeofListing,
    (alloc.room li).inUse (alloc.address li + sizeofListing * sizeofDirentry + k) = false

/-- The memory behind a listing is 0 where the children of its direntry and the flag will be. -/
structure Blank (alloc : Allocator) (li : Nat) : Prop where
  children : ∀ k < sizeofChildren,
    (alloc.room li).mem (alloc.address li + childrenAt + k) = 0
  lookedForChildren : ∀ k < sizeofLookedForChildren,
    (alloc.room li).mem (alloc.address li + lookedForChildrenAt + k) = 0

/-! ### One entry -/

section Loop

variable {alloc : Allocator} {s s₀ : DirentryHeap} {parent : DirentryId}

/-- The last of so many listings. -/
def lastFrom (first n : Nat) : Option Nat := if n = 0 then none else some (first + (n - 1))

/-- The direntry made in a round. -/
def child (alloc : Allocator) (parent : DirentryId) (first inodeNext i : Nat) : DirentryT where
  inode := inodeNext + i
  next := lastFrom first i
  parent := some parent
  children := (alloc.room (first + i)).mem.read (alloc.address (first + i) + childrenAt)
    sizeofChildren
  lookedForChildren :=
    (alloc.room (first + i)).mem.read (alloc.address (first + i) + lookedForChildrenAt)
      sizeofLookedForChildren

/-- The heap when so many listings have become direntries, from one on. -/
structure Turned (alloc : Allocator) (parent : DirentryId) (s₀ : DirentryHeap) (first n : Nat)
    (s : DirentryHeap) : Prop where
  listings : s.listings = s₀.listings.add (namesFrom first n)
  direntries : ∀ i < n,
    s.direntries (first + i) = some (child alloc parent first s₀.map.inodeNext i)
  inTurn : s.map.InTurn
  inodeNext : s.map.inodeNext = s₀.map.inodeNext + n

/-- What is cleared is not what is read. -/
theorem Room.read_of_bzero {room : Room} {mem : Memory} {at_ size : Nat}
    (hzero : room.bzero (room.de + sizeofListing * sizeofDirentry)
      (sizeofDirentry - sizeofListing) = .ok mem) (hle : at_ + size ≤ sizeofDirentry) :
    mem.read (room.de + at_) size = room.mem.read (room.de + at_) size := by
  rw [Room.bzero] at hzero
  split at hzero
  · cases hzero
  · cases hzero
    apply List.map_congr_left
    intro k hk
    have hlt := List.mem_range.mp hk
    apply if_neg
    simp only [sizeofDirentry, sizeofListing] at hle ⊢
    omega

/-- Clearing goes through exactly if it meets nothing. -/
theorem Room.bzero_eq_ok_iff {room : Room} {a n : Nat} :
    (∃ mem, room.bzero a n = .ok mem) ↔ ∀ k < n, room.inUse (a + k) = false := by
  rw [Room.bzero]
  constructor
  · intro h k hk
    obtain ⟨mem, hmem⟩ := h
    split at hmem
    · cases hmem
    · rename_i hany
      simpa using fun hused => hany (List.any_eq_true.mpr ⟨k, List.mem_range.mpr hk, hused⟩)
  · intro h
    rw [if_neg]
    · exact ⟨_, rfl⟩
    · intro hany
      obtain ⟨k, hk, hused⟩ := List.any_eq_true.mp hany
      rw [h k (List.mem_range.mp hk)] at hused
      cases hused

/-- A round that goes through has had room for its listing. -/
theorem grows_of_addDirentry {lis : List Nat} {i li : Nat} (hli : lis[i]? = some li)
    {prev : Option Nat} {r : DirentryHeap × Option Nat}
    (h : addDirentry alloc (lis.map some) parent (s, prev) i = .ok r) : Grows alloc li := by
  obtain ⟨⟨h₁, li'⟩, hget, h⟩ := Except.do_eq_ok_iff.mp h
  obtain ⟨hslot, -⟩ := ListingHeap.eq_add_of_getItem hget
  rw [List.getElem?_map, hli] at hslot
  obtain rfl : li' = li := (Option.some.inj (Option.some.inj hslot)).symm
  obtain ⟨s₁, hturn, h⟩ := Except.do_eq_ok_iff.mp h
  obtain ⟨mem, hzero, -⟩ := Except.do_eq_ok_iff.mp hturn
  have hstays : (alloc.room li').de = alloc.address li' := by
    by_contra hmoved
    rw [if_pos hmoved] at h
    cases h
  refine ⟨hstays, ?_⟩
  rw [← hstays]
  exact Room.bzero_eq_ok_iff.mp ⟨mem, hzero⟩

/-- A listing with room for it becomes a direntry. -/
theorem direntryFromListing_eq {li : Nat} {room : Room} {mem : Memory} {map : InodeMap DirentryId}
    (hzero : room.bzero (room.de + sizeofListing * sizeofDirentry)
      (sizeofDirentry - sizeofListing) = .ok mem)
    (hadd : (s.map.inodeNextStep.1).inodeMapAdd s.map.inodeNextStep.2 (.ofListing li) = .ok map)
    (hlive : (s.listings.listings li).refCount ≠ 0) :
    s.direntryFromListing li room =
      .ok {
        listings := s.listings.add [li]
        direntries := Function.update s.direntries li (some {
          inode := s.map.inodeNext, next := none, parent := none
          children := room.mem.read (room.de + childrenAt) sizeofChildren
          lookedForChildren :=
            room.mem.read (room.de + lookedForChildrenAt) sizeofLookedForChildren })
        map } := by
  -- what is read behind the listing is what was there: `bzero` starts further on
  have hchildren : mem.read (room.de + childrenAt) sizeofChildren = _ :=
    Room.read_of_bzero hzero (by decide)
  have hlooked : mem.read (room.de + lookedForChildrenAt) sizeofLookedForChildren = _ :=
    Room.read_of_bzero hzero (by decide)
  rw [direntryFromListing]
  simp only [bind, Except.bind, hzero, hadd, ListingHeap.listingCopy_eq hlive, hchildren, hlooked]
  rfl

/-- A direntry is linked to the one made before it. -/
theorem link_update {listings : ListingHeap} {direntries : Nat → Option DirentryT}
    {map : InodeMap DirentryId} {li : Nat} {de : DirentryT} {prev : Option Nat} :
    link { listings, direntries := Function.update direntries li (some de), map } li parent prev =
      { listings
        direntries := Function.update direntries li
          (some { de with parent := some parent, next := prev })
        map } := by
  simp only [link, Function.update_self, Option.map_some, Function.update_idem]

/-- A round with room for its listing. -/
theorem Turned.addDirentry {first n : Nat} (hs : Turned alloc parent s₀ first n s)
    {lis : List Nat} (hli : lis[n]? = some (first + n))
    (hlive : (s₀.listings.listings (first + n)).refCount ≠ 0) (hgrows : Grows alloc (first + n)) :
    ∃ s', DirentryHeap.addDirentry alloc (lis.map some) parent
        (s, lastFrom first n) n = .ok (s', some (first + n)) ∧
      Turned alloc parent s₀ first (n + 1) s' := by
  -- a block that is not moved stays where the listing points to
  have hstays := hgrows.stays
  have hlive' : (s.listings.listings (first + n)).refCount ≠ 0 := by
    rw [hs.listings, ListingHeap.refCount_add]
    omega
  have hitem : (lis.map some)[n]? = some (some (first + n)) := by rw [List.getElem?_map, hli]; rfl
  have hget := ListingHeap.getItem_eq hitem hlive'
  have hlive'' : ((s.listings.add [first + n]).listings (first + n)).refCount ≠ 0 := by
    rw [ListingHeap.refCount_add]
    omega
  -- the memory that is zeroed is the allocator's to give
  obtain ⟨mem, hzero⟩ := Room.bzero_eq_ok_iff.mpr (hstays ▸ hgrows.free)
  obtain ⟨map, hadd, hinTurn, hnext⟩ := hs.inTurn.inodeMapAdd (.ofListing (first + n))
  have hturn := direntryFromListing_eq (s := { s with listings := s.listings.add [first + n] })
    hzero hadd hlive''
  refine ⟨{
    listings := s.listings.add [first + n]
    direntries := Function.update s.direntries (first + n)
      (some (child alloc parent first s₀.map.inodeNext n))
    map }, ?_, ?_, ?_, hinTurn, ?_⟩
  -- the copy of `listing_list_get_item` goes when the listing has been copied into the direntry
  · rw [DirentryHeap.addDirentry]
    simp only [bind, Except.bind, hget, hturn]
    rw [if_neg (not_not.mpr hstays)]
    simp only [pure, Except.pure, ListingHeap.listingDelete_add, link_update]
    rw [hs.inodeNext, hstays]
    rfl
  · show s.listings.add [first + n] = _
    rw [hs.listings, ListingHeap.add_add, namesFrom_succ]
  · intro i hi
    -- of the children only the last has changed
    obtain rfl | hlt := Nat.eq_or_lt_of_le (Nat.lt_succ_iff.mp hi)
    · exact Function.update_self _ _ _
    · rw [← hs.direntries i hlt]
      exact Function.update_of_ne (by omega) _ _
  · rw [hnext, hs.inodeNext, Nat.add_assoc]

/-! ### All entries -/

variable {first count : Nat}

/-- The loop, as long as there is room. -/
theorem turned_foldlM (hinTurn : s₀.map.InTurn)
    (hlive : ∀ li ∈ namesFrom first count, (s₀.listings.listings li).refCount ≠ 0)
    {n : Nat} (hn : n ≤ count) (hgrows : ∀ i < n, Grows alloc (first + i)) :
    ∃ s, (List.range n).foldlM
        (DirentryHeap.addDirentry alloc ((namesFrom first count).map some) parent) (s₀, none) =
          .ok (s, lastFrom first n) ∧
      Turned alloc parent s₀ first n s := by
  induction n with
  -- one child after the other, at the address of its listing
  | zero => exact ⟨s₀, rfl, rfl, fun i hi => absurd hi (Nat.not_lt_zero i), hinTurn, rfl⟩
  | succ n ih =>
    obtain ⟨s, hpre, hs⟩ := ih (Nat.le_of_succ_le hn) fun i hi => hgrows i (Nat.lt_succ_of_lt hi)
    obtain ⟨s', hround, hs'⟩ :=
      hs.addDirentry (getElem?_namesFrom hn)
        (hlive _ (mem_namesFrom.mpr ⟨n, hn, rfl⟩)) (hgrows n (Nat.lt_succ_self n))
    refine ⟨s', ?_, hs'⟩
    rw [List.range_succ, List.foldlM_append, hpre]
    simp only [bind, Except.bind, List.foldlM_cons, List.foldlM_nil, hround]
    rfl

/-- A loop that goes through has had room for every listing. -/
theorem grows_of_foldlM {n : Nat} (hn : n ≤ count) {r : DirentryHeap × Option Nat}
    (h : (List.range n).foldlM
      (DirentryHeap.addDirentry alloc ((namesFrom first count).map some) parent) (s₀, none) =
        .ok r) : ∀ i < n, Grows alloc (first + i) := by
  induction n generalizing r with
  | zero => exact fun i hi => absurd hi (Nat.not_lt_zero i)
  | succ n ih =>
    rw [List.range_succ, List.foldlM_append] at h
    obtain ⟨r₁, hpre, h⟩ := Except.do_eq_ok_iff.mp h
    obtain ⟨r₂, hround, -⟩ := Except.do_eq_ok_iff.mp h
    intro i hi
    obtain rfl | hlt := Nat.eq_or_lt_of_le (Nat.lt_succ_iff.mp hi)
    · exact grows_of_addDirentry (getElem?_namesFrom hn) hround
    · exact ih (Nat.le_of_succ_le hn) hpre i hlt

/-- There is only one way along a chain. -/
theorem Chain.unique {head : Option Nat} {lis lis' : List Nat} (h : s.Chain head lis)
    (h' : s.Chain head lis') : lis = lis' := by
  induction lis generalizing head lis' with
  | nil =>
    cases lis' with
    | nil => rfl
    | cons li' lis' => cases h.symm.trans h'.1
  | cons li lis ih =>
    obtain ⟨hhead, de, hde, hrest⟩ := h
    cases lis' with
    | nil => cases hhead.symm.trans h'
    | cons li' lis' =>
      obtain ⟨hhead', de', hde', hrest'⟩ := h'
      obtain rfl : li = li' := Option.some.inj (hhead.symm.trans hhead')
      obtain rfl : de = de' := Option.some.inj (hde.symm.trans hde')
      rw [ih hrest hrest']

/-- The chain that has been made. -/
theorem Turned.chain {n : Nat} (hs : Turned alloc parent s₀ first n s) {k : Nat} (hk : k ≤ n) :
    s.Chain (lastFrom first k) (namesFrom first k).reverse := by
  induction k with
  | zero => rfl
  | succ k ih =>
    rw [namesFrom_succ, List.reverse_append]
    exact ⟨rfl, _, hs.direntries k hk, ih (Nat.le_of_succ_le hk)⟩

/-- Memory is read as zeros exactly if every byte is zero. -/
theorem read_eq_replicate_iff {mem : Memory} {a len : Nat} :
    mem.read a len = List.replicate len 0 ↔ ∀ k < len, mem (a + k) = 0 := by
  simp [Memory.read, List.eq_replicate_iff]

/-- The direntry made in a round is clean if its memory was blank. -/
theorem clean_child_iff {inodeNext i : Nat} (hinode : 2 ≤ inodeNext) :
    Clean (child alloc parent first inodeNext i) parent ↔ Blank alloc (first + i) := by
  constructor
  · intro h
    exact ⟨read_eq_replicate_iff.mp h.children, read_eq_replicate_iff.mp h.lookedForChildren⟩
  · intro h
    refine ⟨rfl, ?_, read_eq_replicate_iff.mpr h.children,
      read_eq_replicate_iff.mpr h.lookedForChildren⟩
    show inodeNext + i ≠ 1
    omega

/-- A listing has the attributes of the entry it was made of. -/
theorem shows_of_listingNew {found : Found} {li : ListingT}
    (hnew : ListingT.listingNew found = .ok li) (refCount : Nat) :
    Shows { li with refCount } found := by
  obtain ⟨type, htype, hli⟩ := Except.do_eq_ok_iff.mp hnew
  -- the type has been read from its name
  cases hli
  refine ⟨rfl, rfl, ?_, rfl, rfl, rfl, rfl⟩
  cases hfound : found.type with
  | none =>
    rw [hfound] at htype
    cases htype
  | some name =>
    rw [hfound, ListingT.listingTypeFromString] at htype
    split at htype
    · rename_i hname
      cases htype
      exact congrArg some hname
    · split at htype
      · rename_i hname
        cases htype
        exact congrArg some hname
      · cases htype

/-- The chain is what is meant exactly if all the memory was blank. -/
theorem Turned.faithful_iff {h : ListingHeap} {founds : List Found}
    {e : ListingHeap × ListingList} (hs : Turned alloc parent s₀ h.made founds.length s)
    (hentered : Entered h founds e) (hlistings : s₀.listings = e.1) (hinTurn : s₀.map.InTurn) :
    s.Faithful (lastFrom h.made founds.length) founds parent ↔
      ∀ i < founds.length, Blank alloc (h.made + i) := by
  -- the children are chained in reverse, and the last one is the first
  have hchain := hs.chain (Nat.le_refl _)
  constructor
  · intro hfaithful i hi
    obtain ⟨lis, hlis, -, hclean, -⟩ := hfaithful
    obtain rfl := hlis.unique hchain
    have hmem : h.made + i ∈ (namesFrom h.made founds.length).reverse :=
      List.mem_reverse.mpr (List.mem_of_getElem? (getElem?_namesFrom hi))
    -- each of them is clean exactly if its memory was zeros
    obtain ⟨de, hde, hclean⟩ := hclean _ hmem
    rw [hs.direntries i hi] at hde
    cases hde
    exact (clean_child_iff hinTurn.two_le).mp hclean
  · intro hblank
    refine ⟨_, hchain, ?_, ?_, ?_⟩
    -- each shows the entry that its listing was made of
    · rw [List.forall₂_reverse_iff, List.forall₂_iff_get]
      refine ⟨length_namesFrom _ _, fun i hi hi' => ?_⟩
      obtain ⟨li, hnew, hlisting⟩ := hentered.listing i _ (List.getElem?_eq_getElem hi')
      have hname : (namesFrom h.made founds.length).get ⟨i, hi⟩ = h.made + i := by
        simp [namesFrom]
      rw [hname, hs.listings, hlistings]
      show Shows { e.1.listings (h.made + i) with refCount := _ } _
      rw [hlisting]
      exact shows_of_listingNew hnew _
    · intro li hli
      obtain ⟨i, hi, rfl⟩ := mem_namesFrom.mp (List.mem_reverse.mp hli)
      exact ⟨_, hs.direntries i hi, (clean_child_iff hinTurn.two_le).mpr (hblank i hi)⟩
    -- and no two have the same inode
    · rw [List.map_reverse, List.nodup_reverse, namesFrom, List.map_map]
      refine List.Nodup.map_on ?_ List.nodup_range
      intro i hi j hj heq
      simp only [Function.comp_apply, hs.direntries i (List.mem_range.mp hi),
        hs.direntries j (List.mem_range.mp hj), Option.map_some, child, Option.some.injEq] at heq
      omega

end Loop

/-! ### Every listing -/

variable {alloc : Allocator} {s : DirentryHeap} {founds : List Found} {parent : DirentryId}

/-- The loop, over the list that has been made. -/
theorem direntriesFromListingList_eq {h : ListingHeap} {e : ListingHeap × ListingList}
    (hentered : Entered h founds e) :
    direntriesFromListingList alloc s e.2 parent =
      (List.range founds.length).foldlM
        (addDirentry alloc ((namesFrom h.made founds.length).map some) parent) (s, none) := by
  rw [direntriesFromListingList, hentered.lis, List.length_map, length_namesFrom]

/-- What populating a directory goes through when it does not go wrong. -/
theorem of_childrenFromEntries (hinTurn : s.map.InTurn) {r : DirentryHeap × Option Nat}
    (h : childrenFromEntries alloc s founds parent = .ok r) :
    (∀ found ∈ founds, Listable found) ∧
      (∀ i < founds.length, Grows alloc (s.listings.made + i)) ∧
      r.1.map.InTurn ∧
      (r.1.Faithful r.2 founds parent ↔
        ∀ i < founds.length, Blank alloc (s.listings.made + i)) := by
  obtain ⟨e, hfound, hloop⟩ := Except.do_eq_ok_iff.mp h
  have hlistable := listable_of_entriesFound hfound
  obtain ⟨e', he, hentered⟩ := entered_of_listable (h := s.listings) hlistable
  obtain rfl : e = e' := Except.ok.inj (hfound.symm.trans he)
  replace hloop := (direntriesFromListingList_eq hentered).symm.trans hloop
  have hgrows := grows_of_foldlM (Nat.le_refl _) hloop
  obtain ⟨s', hs', hturned⟩ := @turned_foldlM alloc { s with listings := e.1 } parent _ _ hinTurn
    hentered.live _ (Nat.le_refl _) hgrows
  obtain rfl := Except.ok.inj (hs'.symm.trans hloop)
  exact ⟨hlistable, hgrows, hturned.inTurn, hturned.faithful_iff hentered rfl hinTurn⟩

/-- Entries that can be listed become direntries if there is room. -/
theorem exists_childrenFromEntries (parent : DirentryId) (hinTurn : s.map.InTurn)
    (hlistable : ∀ found ∈ founds, Listable found)
    (hgrows : ∀ i < founds.length, Grows alloc (s.listings.made + i)) :
    ∃ r, childrenFromEntries alloc s founds parent = .ok r := by
  obtain ⟨e, he, hentered⟩ := entered_of_listable (h := s.listings) hlistable
  obtain ⟨s', hs', -⟩ := @turned_foldlM alloc { s with listings := e.1 } parent _ _ hinTurn
    hentered.live _ (Nat.le_refl _) hgrows
  rw [childrenFromEntries, he]
  exact ⟨_, (direntriesFromListingList_eq hentered).trans hs'⟩

/-- Wherever the daemon has got to, direntries have been added in turn. -/
theorem Reachable.inTurn (hs : Reachable s) : s.map.InTurn := by
  induction hs with
  | init listings =>
    refine ⟨Nat.le_refl 2, ?_⟩
    show 2 ≤ 32
    omega
  | other _ _ _ ih => exact ih
  | populate _ hchildren ih => exact (of_childrenFromEntries ih hchildren).2.2.1

/-- The children are what is meant exactly when each entry has one of the two types, and each
    listing can grow where it is, with nothing where the memory is cleared and blank memory
    where it is not. -/
theorem makesChildren_iff (hs : Reachable s) (alloc : Allocator) (founds : List Found)
    (parent : DirentryId) :
    MakesChildren alloc s founds parent ↔
      (∀ found ∈ founds, Listable found) ∧
        ∀ i < founds.length,
          Grows alloc (s.listings.made + i) ∧ Blank alloc (s.listings.made + i) := by
  constructor
  · intro h
    obtain ⟨s', head, hok, hfaithful⟩ := h
    obtain ⟨hlistable, hgrows, -, hiff⟩ := of_childrenFromEntries hs.inTurn hok
    exact ⟨hlistable, fun i hi => ⟨hgrows i hi, hiff.mp hfaithful i hi⟩⟩
  · intro h
    obtain ⟨hlistable, hroom⟩ := h
    obtain ⟨r, hok⟩ := exists_childrenFromEntries parent hs.inTurn hlistable
      fun i hi => (hroom i hi).1
    obtain ⟨-, -, -, hiff⟩ := of_childrenFromEntries hs.inTurn hok
    exact ⟨r.1, r.2, hok, hiff.mpr fun i hi => (hroom i hi).2⟩

/-- A heap that lets a listing grow where it is, with some byte in all memory behind it. -/
def roomy (byte : UInt8) : Allocator where
  address li := 10000 * li
  room li := { de := 10000 * li, mem := fun _ => byte, inUse := fun _ => false }

/-- One file of a page. -/
def fileFound : Found where
  hash := some (ascii "1")
  name := some (ascii "f")
  type := some (ascii "file")
  size := 3
  linkCount := 1
  href := some (ascii "http://peer/f")
  client := some (ascii "peer")

/-- No listing has been made. -/
def unlisted : ListingHeap where
  made := 0
  listings _ :=
    { refCount := 0, name := none, hash := none, type := .file, size := 0, linkCount := 0
      href := none, client := none }

/-- Memory that is all zeros makes the children. -/
theorem makesChildren_blank : MakesChildren (roomy 0) (init unlisted) [fileFound] .root := by
  refine (makesChildren_iff (.init unlisted) (roomy 0) [fileFound] .root).mpr ⟨?_, ?_⟩
  · intro found hfound
    obtain rfl := List.mem_singleton.mp hfound
    exact .inl rfl
  · intro i _
    exact ⟨⟨rfl, fun _ _ => rfl⟩, ⟨fun _ _ => rfl, fun _ _ => rfl⟩⟩

/-- Memory that has been used does not. -/
theorem not_makesChildren_used :
    ¬ MakesChildren (roomy 1) (init unlisted) [fileFound] .root := by
  intro h
  obtain ⟨s', head, hok, hfaithful⟩ := h
  obtain ⟨-, -, -, hiff⟩ := of_childrenFromEntries (Reachable.init unlisted).inTurn hok
  have hblank := hiff.mp hfaithful 0 (by decide)
  exact absurd (hblank.children 0 (by decide)) (by decide)

end DirentryHeap

end Fsfuse.Native
