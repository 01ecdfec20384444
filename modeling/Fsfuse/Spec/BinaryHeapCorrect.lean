import Fsfuse.ForStd.ImplicitHeap
import Fsfuse.ForStd.List
import Fsfuse.Native.BinaryHeap

/-!
# Binary heap correctness

What `binary_heap_add` and `binary_heap_trypop` do to the entries of a heap.

The entries are the written slots of the live region, read as a list up to
permutation. Conservation needs nothing but that the call returns:

* `add_spec` — an add leaves the old entries and the new one;
* `trypop_spec` — a pop of a non-empty heap takes one entry and leaves the others.

Order and definedness need the heap order and room for the `int` positions:

* `add_isSome`, `trypop_isSome` — with fewer than `2 ^ 30` entries both calls return;
* `trypop_min` — the entry popped has a least key.
-/

namespace Fsfuse.Native.BinaryHeap

variable {α : Type} {heap heap' : BinaryHeap α}

/-- The nodes in the first `n` positions. -/
def nodes (heap : BinaryHeap α) (n : Nat) : List (Kvp α) := List.valuesBelow heap.node n

/-- The entries of a heap. -/
def entries (heap : BinaryHeap α) : List (Kvp α) := heap.nodes heap.used

/-- The first `n` positions have been written. -/
def Written (heap : BinaryHeap α) (n : Nat) : Prop := ∀ i < n, (heap.node i).isSome

/-- The key in a position (0 where nothing was written). -/
def keyAt (heap : BinaryHeap α) (i : Nat) : Int := ((heap.node i).map Kvp.key).getD 0

/-- The heap a sequence of operations leaves behind: every live slot is written and the
    keys are in heap order. -/
structure Valid (heap : BinaryHeap α) : Prop where
  written : heap.Written heap.used
  ordered : ImplicitHeap.Ordered heap.keyAt heap.used

/-- The key at a node that was written is the one that was written there. -/
theorem keyAt_of_node {i : Nat} {x : Kvp α} (h : heap.node i = some x) : heap.keyAt i = x.key := by
  simp only [keyAt, h, Option.map_some, Option.getD_some]

/-- A heap that is written up to a node is written up to every earlier one. -/
theorem Written.mono {m n : Nat} (h : heap.Written n) (hm : m ≤ n) : heap.Written m :=
  fun i hi => h i (Nat.lt_of_lt_of_le hi hm)

/-- Every node below the bound can be read. -/
theorem Written.node {n i : Nat} (h : heap.Written n) (hi : i < n) :
    ∃ x, heap.node i = some x :=
  Option.isSome_iff_exists.mp (h i hi)

/-- Only allocated nodes can be read. -/
theorem node_lt_allocated {i : Nat} {x : Kvp α} (h : heap.node i = some x) :
    i < heap.allocated := by
  rw [← heap.length_array]
  by_contra hge
  simp [node, List.getElem?_eq_none (Nat.le_of_not_lt hge)] at h

/-! ### Reads after writes -/

/-- A store returns exactly when the position is allocated; it changes that slot only. -/
theorem store_eq_some_iff {pos : Nat} {x : Kvp α} :
    heap.store pos x = some heap' ↔
      pos < heap.allocated ∧ heap'.allocated = heap.allocated ∧ heap'.used = heap.used ∧
        heap'.array = heap.array.set pos (some x) := by
  obtain ⟨allocated, used, array, hlen⟩ := heap'
  simp only [store]
  split
  · rename_i hlt
    simp only [Option.some.injEq, BinaryHeap.mk.injEq]
    constructor
    · rintro ⟨rfl, rfl, rfl⟩; exact ⟨hlt, rfl, rfl, rfl⟩
    · rintro ⟨-, rfl, rfl, rfl⟩; exact ⟨rfl, rfl, rfl⟩
  · rename_i hge
    simp only [reduceCtorEq, false_iff, not_and]
    intro hlt; exact absurd hlt hge

/-- A node can be stored within the allocation. -/
theorem store_isSome {pos : Nat} (x : Kvp α) (h : pos < heap.allocated) :
    ∃ heap', heap.store pos x = some heap' := by
  simp only [store, if_pos h, Option.some.injEq, exists_eq']

/-- Storing a node leaves the number of used ones alone. -/
theorem store_used {pos : Nat} {x : Kvp α} (h : heap.store pos x = some heap') :
    heap'.used = heap.used := (store_eq_some_iff.mp h).2.2.1

/-- Storing a node leaves the allocation alone. -/
theorem store_allocated {pos : Nat} {x : Kvp α} (h : heap.store pos x = some heap') :
    heap'.allocated = heap.allocated := (store_eq_some_iff.mp h).2.1

/-- What was stored is read back, and other nodes are as they were. -/
theorem store_node {pos : Nat} {x : Kvp α} (h : heap.store pos x = some heap') (i : Nat) :
    heap'.node i = if i = pos then some x else heap.node i := by
  obtain ⟨hlt, -, -, harr⟩ := store_eq_some_iff.mp h
  rw [← heap.length_array] at hlt
  simp only [node, harr, List.getElem?_set]
  by_cases hi : i = pos
  · subst hi; simp [hlt]
  · simp [hi, Ne.symm hi]

/-- A swap exchanges two written slots. -/
theorem swap_spec {a b : Nat} (h : heap.swap a b = some heap') :
    heap'.used = heap.used ∧ heap'.allocated = heap.allocated ∧
      ∀ i, heap'.node i = heap.node (Equiv.swap a b i) := by
  simp only [swap, Option.bind_eq_bind, Option.bind_eq_some_iff] at h
  -- both nodes are read before either slot is written
  obtain ⟨y, hy, x, hx, h₁, hs₁, hs₂⟩ := h
  refine ⟨(store_used hs₂).trans (store_used hs₁),
    (store_allocated hs₂).trans (store_allocated hs₁), fun i => ?_⟩
  rw [store_node hs₂, store_node hs₁, Equiv.swap_apply_def]
  split
  · exact hy.symm
  · split
    · exact hx.symm
    · rfl

/-- Nodes that can be read can be swapped. -/
theorem swap_isSome {a b : Nat} {x y : Kvp α} (ha : heap.node a = some x)
    (hb : heap.node b = some y) : ∃ heap', heap.swap a b = some heap' := by
  obtain ⟨h₁, hs₁⟩ := store_isSome x (node_lt_allocated hb)
  obtain ⟨h₂, hs₂⟩ : ∃ h₂, h₁.store a y = some h₂ :=
    store_isSome y (by rw [store_allocated hs₁]; exact node_lt_allocated ha)
  exact ⟨h₂, by simp only [swap, hb, ha, hs₁, hs₂, Option.bind_eq_bind, Option.bind_some]⟩

/-- `ensure_space` leaves room, and every slot that was written as it was. -/
theorem ensureSpace_spec (heap : BinaryHeap α) (space : Nat) :
    space ≤ (heap.ensureSpace space).allocated ∧
      (heap.ensureSpace space).used = heap.used ∧
      ∀ i, (heap.ensureSpace space).node i = heap.node i := by
  simp only [ensureSpace]
  split
  · refine ⟨Nat.le_max_right _ _, rfl, fun i => ?_⟩
    simp only [node]
    by_cases hi : i < heap.array.length
    · rw [List.getElem?_append_left hi]
    -- a new slot reads as `none`, as did a position outside the old array
    · rw [List.getElem?_append_right (Nat.le_of_not_lt hi),
        List.getElem?_eq_none (Nat.le_of_not_lt hi), List.getElem?_replicate]
      split <;> rfl
  · rename_i h
    exact ⟨Nat.le_of_not_lt h, rfl, fun _ => rfl⟩

/-! ### Positions as `int`s -/

/-- The parent that the code computes is the parent. -/
theorem parent_eq_some {pos p : Nat} (h : parent pos = some p) : p = ImplicitHeap.parent pos := by
  simp only [parent, asInt, Option.bind_eq_bind, Option.pure_def, Option.bind_eq_some_iff,
    Option.ite_none_right_eq_some, Option.some.injEq] at h
  obtain ⟨_, ⟨_, rfl⟩, rfl⟩ := h
  rfl

/-- The left child that the code computes is the left child. -/
theorem leftChild_eq_some {pos c : Nat} (h : leftChild pos = some c) : c = 2 * pos + 1 := by
  simp only [leftChild, asInt, Option.bind_eq_bind, Option.bind_eq_some_iff,
    Option.ite_none_right_eq_some, Option.some.injEq] at h
  obtain ⟨_, ⟨_, rfl⟩, _, rfl⟩ := h
  rfl

/-- The right child that the code computes is the right child. -/
theorem rightChild_eq_some {pos c : Nat} (h : rightChild pos = some c) : c = 2 * pos + 2 := by
  simp only [rightChild, asInt, Option.bind_eq_bind, Option.bind_eq_some_iff,
    Option.ite_none_right_eq_some, Option.some.injEq] at h
  obtain ⟨_, ⟨_, rfl⟩, _, rfl⟩ := h
  rfl

/-- The parent of a position in the range of an `int` is computed without overflow. -/
theorem parent_of_lt {pos : Nat} (h : pos < 2 ^ 31) :
    parent pos = some (ImplicitHeap.parent pos) := by
  simp only [parent, asInt, if_pos h, Option.bind_eq_bind, Option.bind_some]; rfl

/-- The left child of a small enough position is computed without overflow. -/
theorem leftChild_of_lt {pos : Nat} (h : pos < 2 ^ 29) : leftChild pos = some (2 * pos + 1) := by
  simp only [leftChild, asInt, Option.bind_eq_bind, if_pos (show pos < 2 ^ 31 by omega),
    Option.bind_some, if_pos (show 2 * pos + 1 < 2 ^ 31 by omega)]

/-- The right child of a small enough position is computed without overflow. -/
theorem rightChild_of_lt {pos : Nat} (h : pos < 2 ^ 29) : rightChild pos = some (2 * pos + 2) := by
  simp only [rightChild, asInt, Option.bind_eq_bind, if_pos (show pos < 2 ^ 31 by omega),
    Option.bind_some, if_pos (show 2 * pos + 2 < 2 ^ 31 by omega)]

/-! ### Sifting permutes the live nodes -/

/-- What a sift leaves alone: the counters and, up to order, the first `n` nodes. -/
structure Sifted (heap heap' : BinaryHeap α) (n : Nat) : Prop where
  used : heap'.used = heap.used
  allocated : heap'.allocated = heap.allocated
  written : heap.Written n → heap'.Written n
  perm : (heap'.nodes n).Perm (heap.nodes n)

/-- A heap is a sifted version of itself. -/
theorem Sifted.refl (heap : BinaryHeap α) (n : Nat) : Sifted heap heap n :=
  ⟨rfl, rfl, id, .refl _⟩

/-- Sifting twice is sifting. -/
theorem Sifted.trans {heap₁ heap₂ heap₃ : BinaryHeap α} {n : Nat} (h : Sifted heap₁ heap₂ n)
    (h' : Sifted heap₂ heap₃ n) : Sifted heap₁ heap₃ n :=
  ⟨h'.used.trans h.used, h'.allocated.trans h.allocated, h'.written ∘ h.written,
    h'.perm.trans h.perm⟩

/-- A swap of two of the first `n` positions is a sift. -/
theorem Sifted.of_swap {a b n : Nat} (h : heap.swap a b = some heap') (ha : a < n) (hb : b < n) :
    Sifted heap heap' n := by
  obtain ⟨hused, halloc, hnode⟩ := swap_spec h
  refine ⟨hused, halloc, fun hw i hi => ?_, ?_⟩
  · rw [hnode, Equiv.swap_apply_def]
    split
    · exact hw b hb
    · split
      · exact hw a ha
      · exact hw i hi
  · rw [nodes, nodes, List.valuesBelow_congr fun i _ => hnode i]
    exact List.valuesBelow_swap_perm heap.node ha hb

/-- The keys after a swap are the keys before it, exchanged. -/
theorem keyAt_swap {a b : Nat} (h : heap.swap a b = some heap') :
    heap'.keyAt = fun i => heap.keyAt (Equiv.swap a b i) := by
  funext i
  rw [keyAt, (swap_spec h).2.2 i, keyAt]

/-- `move_up` permutes the nodes up to its start, and leaves them in order if only the
    edge into the start was out of order. -/
theorem moveUpLoop_spec {rounds pos n : Nat} (h : moveUpLoop rounds heap pos = some heap')
    (hpos : pos < n) :
    Sifted heap heap' n ∧
      (ImplicitHeap.UpReady heap.keyAt n pos → ImplicitHeap.Ordered heap'.keyAt n) := by
  -- on the rounds; the node in `pos` is the only one that may be below its parent
  induction rounds generalizing heap pos with
  | zero =>
    rw [moveUpLoop] at h
    split at h
    -- out of rounds
    · cases h
    · rename_i h0
      obtain rfl := Option.some.inj h
      exact ⟨.refl _ _, fun hr => hr.ordered fun hp => absurd hp h0⟩
  | succ rounds ih =>
    rw [moveUpLoop] at h
    split at h
    · rename_i hp
      simp only [Option.bind_eq_bind, Option.bind_eq_some_iff] at h
      obtain ⟨x, hx, p, hpp, y, hy, h⟩ := h
      obtain rfl := parent_eq_some hpp
      have hlt := ImplicitHeap.parent_lt hp
      split at h
      -- the parent is no greater: stop
      · rename_i hge
        obtain rfl := Option.some.inj h
        refine ⟨.refl _ _, fun hr => hr.ordered fun _ => ?_⟩
        rw [keyAt_of_node hx, keyAt_of_node hy]; exact hge
      · rename_i hge
        simp only [Option.bind_eq_some_iff] at h
        obtain ⟨heap₁, hswap, h⟩ := h
        -- after the swap the node is in `parent pos`, and the invariant with it
        obtain ⟨hs, ho⟩ := ih h (by omega)
        refine ⟨(Sifted.of_swap hswap hpos (by omega)).trans hs, fun hr => ho ?_⟩
        rw [keyAt_swap hswap]
        apply hr.swap hp
        rw [keyAt_of_node hx, keyAt_of_node hy]; exact Int.lt_of_not_ge hge
    · rename_i h0
      obtain rfl := Option.some.inj h
      exact ⟨.refl _ _, fun hr => hr.ordered fun hp => absurd hp h0⟩

/-- `move_up` leaves the root alone when it starts below it with no lesser key. -/
theorem moveUpLoop_root {rounds pos : Nat} {x : Kvp α} (h : moveUpLoop rounds heap pos = some heap')
    (hpos : 0 < pos) (hx : heap.node 0 = some x) (hle : ∀ y ∈ heap.node pos, x.key ≤ y.key) :
    heap'.node 0 = some x := by
  induction rounds generalizing heap pos with
  | zero =>
    rw [moveUpLoop, if_pos hpos] at h
    cases h
  | succ rounds ih =>
    rw [moveUpLoop, if_pos hpos] at h
    simp only [Option.bind_eq_bind, Option.bind_eq_some_iff] at h
    obtain ⟨target, htarget, p, hpp, parentNode, hparent, h⟩ := h
    obtain rfl := parent_eq_some hpp
    split at h
    · obtain rfl := Option.some.inj h
      exact hx
    · rename_i hge
      simp only [Option.bind_eq_some_iff] at h
      obtain ⟨heap₁, hswap, h⟩ := h
      have hnode := (swap_spec hswap).2.2
      have htarget' : x.key ≤ target.key := hle target htarget
      -- a parent of greater key than the node is not the root
      have hparentPos : 0 < ImplicitHeap.parent pos := by
        by_contra hzero
        rw [show ImplicitHeap.parent pos = 0 by omega, hx] at hparent
        obtain rfl := Option.some.inj hparent
        exact hge htarget'
      apply ih h hparentPos
      · rw [hnode, Equiv.swap_apply_of_ne_of_ne (by omega) (by omega), hx]
      · intro y hy
        rw [hnode, Equiv.swap_apply_right, htarget] at hy
        exact Option.some.inj hy ▸ htarget'

/-- `move_up` returns: each round moves to a smaller position, and the positions below a
    written one are written. -/
theorem moveUpLoop_isSome {rounds pos n : Nat} (hw : heap.Written n) (hpos : pos < n)
    (hint : pos < 2 ^ 31) (hrounds : pos ≤ rounds) :
    ∃ heap', moveUpLoop rounds heap pos = some heap' := by
  induction rounds generalizing heap pos with
  -- no rounds are left only at the root
  | zero => exact ⟨heap, by rw [moveUpLoop, if_neg (by omega)]⟩
  | succ rounds ih =>
    rw [moveUpLoop]
    split
    · rename_i hp
      have hlt := ImplicitHeap.parent_lt hp
      obtain ⟨x, hx⟩ := hw.node hpos
      obtain ⟨y, hy⟩ := hw.node (show ImplicitHeap.parent pos < n by omega)
      simp only [hx, parent_of_lt hint, hy, Option.bind_eq_bind, Option.bind_some]
      split
      · exact ⟨heap, rfl⟩
      · obtain ⟨heap₁, hswap⟩ := swap_isSome hx hy
        simp only [hswap, Option.bind_some]
        exact ih ((Sifted.of_swap hswap hpos (by omega)).written hw) (by omega) (by omega)
          (by omega)
    · exact ⟨heap, rfl⟩

/-- One round of `move_down`: the sifted node changes places with a live least child,
    and the slot past the live region still holds it. -/
theorem moveDown_round {pos c : Nat} {heap₁ : BinaryHeap α}
    (hswap : heap.swap pos c = some heap₁) (hc : 0 < c) (hcn : c < heap.used)
    (hpc : ImplicitHeap.parent c = pos) (hstale : heap.node heap.used = heap.node pos)
    (hmin : ∀ j, 0 < j → j < heap.used → ImplicitHeap.parent j = pos →
      heap.keyAt c ≤ heap.keyAt j) (hlt : heap.keyAt c < heap.keyAt pos) :
    Sifted heap heap₁ heap.used ∧ heap₁.node heap₁.used = heap₁.node c ∧
      (ImplicitHeap.DownReady heap.keyAt heap.used pos →
        ImplicitHeap.DownReady heap₁.keyAt heap₁.used c) := by
  -- `pos` and `c` are live, so the slot past the live region is not swapped
  have hpos : pos < c := hpc ▸ ImplicitHeap.parent_lt hc
  obtain ⟨hu, -, hnode⟩ := swap_spec hswap
  refine ⟨Sifted.of_swap hswap (by omega) hcn, ?_, fun hd => ?_⟩
  · rw [hnode, hnode, hu, Equiv.swap_apply_right,
      Equiv.swap_apply_of_ne_of_ne (by omega) (by omega), hstale]
  · rw [keyAt_swap hswap, hu]
    exact hd.swap hc hcn hpc hmin hlt

/-- `move_down` permutes the live nodes, and leaves them in order if only the edges out
    of its start were out of order. The slot just past the live region still holds the
    node being sifted, so a right child read from there never wins: the loop either
    prefers the left child or stops. -/
theorem moveDownLoop_spec {rounds pos : Nat} (h : moveDownLoop rounds heap pos = some heap')
    (hpos : pos < heap.used) (hstale : heap.node heap.used = heap.node pos) :
    Sifted heap heap' heap.used ∧
      (ImplicitHeap.DownReady heap.keyAt heap.used pos →
        ImplicitHeap.Ordered heap'.keyAt heap.used) := by
  induction rounds generalizing heap pos with
  | zero =>
    rw [moveDownLoop] at h
    split at h
    · cases h
    · rename_i hno
      obtain rfl := Option.some.inj h
      exact ⟨.refl _ _, fun hr => hr.ordered_of_leaf hno⟩
  | succ rounds ih =>
    rw [moveDownLoop] at h
    split at h
    · rename_i hinner
      simp only [Option.bind_eq_bind, Option.bind_eq_some_iff] at h
      obtain ⟨x, hx, l, hl, xl, hxl, r, hr, xr, hxr, h⟩ := h
      obtain rfl := leftChild_eq_some hl
      obtain rfl := rightChild_eq_some hr
      have hchild : ∀ j, 0 < j → j < heap.used → ImplicitHeap.parent j = pos →
          heap.keyAt j = xl.key ∨ heap.keyAt j = xr.key := by
        intro j hj hjn hpj
        rw [ImplicitHeap.parent_eq_iff hj] at hpj
        rcases hpj with rfl | rfl
        · exact .inl (keyAt_of_node hxl)
        · exact .inr (keyAt_of_node hxr)
      -- the right child is live unless it is the stale copy of the sifted node
      have hright : 2 * pos + 2 < heap.used ∨ xr = x := by
        by_cases hlt : 2 * pos + 2 < heap.used
        · exact .inl hlt
        · have hu : 2 * pos + 2 = heap.used := by omega
          rw [hu, hstale, hx] at hxr
          exact .inr (Option.some.inj hxr).symm
      -- whichever child `c` is chosen, it is the lesser one
      have hround : ∀ c (xc : Kvp α), heap.node c = some xc →
          xc.key ≤ xl.key → xc.key ≤ xr.key → (xc.key < x.key → c < heap.used) →
          0 < c → ImplicitHeap.parent c = pos →
          (if x.key ≤ xc.key then some heap
            else (heap.swap pos c).bind fun heap => moveDownLoop rounds heap c) = some heap' →
          Sifted heap heap' heap.used ∧
            (ImplicitHeap.DownReady heap.keyAt heap.used pos →
              ImplicitHeap.Ordered heap'.keyAt heap.used) := by
        intro c xc hxc hcl hcr hlive hc hpc h
        split at h
        -- both children are at least as great: stop
        · rename_i hstop
          obtain rfl := Option.some.inj h
          refine ⟨.refl _ _, fun hd => hd.ordered fun j hj hjn hpj => ?_⟩
          rw [keyAt_of_node hx]
          rcases hchild j hj hjn hpj with hk | hk <;> omega
        -- a lesser child is live, since the stale copy is no less than itself
        · rename_i hgo
          simp only [Option.bind_eq_some_iff] at h
          obtain ⟨heap₁, hswap, h⟩ := h
          have hcn : c < heap.used := hlive (by omega)
          obtain ⟨hs₁, hstale₁, hready⟩ := moveDown_round hswap hc hcn hpc hstale
            (fun j hj hjn hpj => by
              rw [keyAt_of_node hxc]
              rcases hchild j hj hjn hpj with hk | hk <;> omega)
            (by rw [keyAt_of_node hx, keyAt_of_node hxc]; omega)
          obtain ⟨hs, ho⟩ := ih h (by rw [hs₁.used]; exact hcn) hstale₁
          rw [hs₁.used] at hs ho
          exact ⟨hs₁.trans hs, fun hd => ho (hs₁.used ▸ hready hd)⟩
      split at h
      · rename_i hcond
        -- the right child, which may be the stale copy
        refine hround _ xr hxr (by omega) (Int.le_refl _) (fun hlt => ?_) (by omega)
          ((ImplicitHeap.parent_eq_iff (by omega)).mpr (.inr rfl)) h
        rcases hright with hlive | rfl
        · exact hlive
        · exact absurd hlt (by omega)
      · rename_i hcond
        -- the left child
        exact hround _ xl hxl (Int.le_refl _) (by omega) (fun _ => by omega) (by omega)
          ((ImplicitHeap.parent_eq_iff (by omega)).mpr (.inl rfl)) h
    -- a node without children is in its place
    · rename_i hno
      obtain rfl := Option.some.inj h
      exact ⟨.refl _ _, fun hr => hr.ordered_of_leaf hno⟩

/-- `move_down` returns: each round moves to a larger position below `used`, and the
    children read are at most one past the live region. -/
theorem moveDownLoop_isSome {rounds pos : Nat} (hw : heap.Written (heap.used + 1))
    (hstale : heap.node heap.used = heap.node pos) (hpos : pos < heap.used)
    (hint : heap.used < 2 ^ 30) (hrounds : heap.used ≤ pos + rounds) :
    ∃ heap', moveDownLoop rounds heap pos = some heap' := by
  induction rounds generalizing heap pos with
  | zero => omega
  | succ rounds ih =>
    rw [moveDownLoop]
    split
    · rename_i hinner
      obtain ⟨x, hx⟩ := hw.node (show pos < heap.used + 1 by omega)
      obtain ⟨xl, hxl⟩ := hw.node (show 2 * pos + 1 < heap.used + 1 by omega)
      obtain ⟨xr, hxr⟩ := hw.node (show 2 * pos + 2 < heap.used + 1 by omega)
      simp only [leftChild_of_lt (show pos < 2 ^ 29 by omega),
        rightChild_of_lt (show pos < 2 ^ 29 by omega), hx, hxl, hxr, Option.bind_eq_bind,
        Option.bind_some]
      -- whichever child `c` is chosen, a swap with it is followed by fewer rounds
      have hround : ∀ c (xc : Kvp α), heap.node c = some xc → pos < c →
          (xc.key < x.key → c < heap.used) →
          ∃ heap', (if x.key ≤ xc.key then some heap
            else (heap.swap pos c).bind fun heap => moveDownLoop rounds heap c) = some heap' := by
        intro c xc hxc hlt hlive
        split
        · exact ⟨heap, rfl⟩
        · rename_i hgo
          have hcn : c < heap.used := hlive (by omega)
          obtain ⟨heap₁, hswap⟩ := swap_isSome hx hxc
          obtain ⟨hu, -, hnode⟩ := swap_spec hswap
          simp only [hswap, Option.bind_some]
          refine ih (hu ▸ (Sifted.of_swap hswap (by omega) (by omega)).written hw) ?_
            (by omega) (by omega) (by omega)
          rw [hnode, hnode, hu, Equiv.swap_apply_right,
            Equiv.swap_apply_of_ne_of_ne (by omega) (by omega), hstale]
      split
      · apply hround _ xr hxr (by omega)
        intro hlt
        -- the stale copy is not less than the node itself, so it is not swapped
        by_cases hlive : 2 * pos + 2 < heap.used
        · exact hlive
        · rw [show 2 * pos + 2 = heap.used by omega, hstale, hx] at hxr
          obtain rfl := Option.some.inj hxr
          exact absurd hlt (Int.lt_irrefl _)
      · exact hround _ xl hxl (by omega) fun _ => by omega
    · exact ⟨heap, rfl⟩

/-! ### The two operations -/

/-- A new heap is a valid one. -/
theorem new_valid : (new : BinaryHeap α).Valid :=
  ⟨fun _ h => absurd h (Nat.not_lt_zero _), ImplicitHeap.ordered_zero _⟩

/-- A new heap has no entries. -/
@[simp] theorem entries_new : (new : BinaryHeap α).entries = [] := rfl

/-- A heap that uses no nodes has no entries. -/
theorem entries_of_empty (h : heap.used = 0) : heap.entries = [] := by
  rw [entries, nodes, h]
  rfl

/-- The heap between the store of the new node and `move_up`. -/
theorem add_stored {key : Int} {value : α} (h : heap.add key value = some heap') :
    ∃ heap₁ heap₂ : BinaryHeap α, heap₁.used = heap.used ∧
      (∀ i, heap₁.node i = if i = heap.used then some ⟨key, value⟩ else heap.node i) ∧
      heap₁.moveUp heap.used = some heap₂ ∧ heap' = { heap₂ with used := heap₂.used + 1 } := by
  simp only [add, Option.bind_eq_bind, Option.bind_eq_some_iff, Option.pure_def,
    Option.some.injEq] at h
  obtain ⟨heap₁, hstore, heap₂, hup, rfl⟩ := h
  obtain ⟨-, hused, hnode⟩ := ensureSpace_spec heap (heap.used + 1)
  -- `used` is not incremented before the sift is done
  refine ⟨heap₁, heap₂, (store_used hstore).trans hused, fun i => ?_, ?_, rfl⟩
  · rw [store_node hstore, hused, hnode]
  · rw [store_used hstore, hused] at hup; exact hup

/-- An add leaves the entries there were and the new one, and keeps the heap valid. -/
theorem add_spec {key : Int} {value : α} (h : heap.add key value = some heap') :
    heap'.used = heap.used + 1 ∧ heap'.entries.Perm (⟨key, value⟩ :: heap.entries) ∧
      (heap.Valid → heap'.Valid) := by
  obtain ⟨heap₁, heap₂, hu₁, hnode, hup, rfl⟩ := add_stored h
  obtain ⟨hs, ho⟩ := moveUpLoop_spec hup (Nat.lt_succ_self _)
  have hu₂ : heap₂.used = heap.used := hs.used.trans hu₁
  -- the slot past the live region is the only one written
  have hold : ∀ i, i < heap.used → heap₁.node i = heap.node i := fun i hi => by
    rw [hnode, if_neg (by omega)]
  refine ⟨by simp only [hu₂], ?_, fun hv => ⟨?_, ?_⟩⟩
  · have hperm : (heap₂.nodes (heap.used + 1)).Perm (heap₁.nodes (heap.used + 1)) := hs.perm
    -- before the sift the new node comes last
    have hlast : heap₁.nodes (heap.used + 1) = heap.entries ++ [⟨key, value⟩] := by
      rw [nodes, List.valuesBelow_succ, List.valuesBelow_congr hold, hnode, if_pos rfl]; rfl
    show (heap₂.nodes (heap₂.used + 1)).Perm _
    rw [hu₂]
    exact hperm.trans (hlast ▸ List.perm_append_comm)
  · show heap₂.Written (heap₂.used + 1)
    rw [hu₂]
    apply hs.written
    intro i hi
    rw [hnode]
    split
    · rfl
    · exact hv.written i (by omega)
  -- a push makes the heap ready to sift up from the new node
  · show ImplicitHeap.Ordered heap₂.keyAt (heap₂.used + 1)
    rw [hu₂]
    refine ho (.of_push hv.ordered fun j hj => ?_)
    rw [keyAt, keyAt, hold j hj]

/-- An add to an empty heap makes the root. -/
theorem add_root_of_empty {key : Int} {value : α} (h : heap.add key value = some heap')
    (hempty : heap.used = 0) : heap'.node 0 = some ⟨key, value⟩ := by
  obtain ⟨heap₁, heap₂, -, hnode, hup, rfl⟩ := add_stored h
  rw [hempty, moveUp, moveUpLoop, if_neg (Nat.lt_irrefl 0)] at hup
  obtain rfl := Option.some.inj hup
  show heap₁.node 0 = _
  rw [hnode, hempty, if_pos rfl]

/-- An add of no lesser key leaves the root alone. -/
theorem add_root {key : Int} {value : α} {x : Kvp α} (h : heap.add key value = some heap')
    (hpos : 0 < heap.used) (hx : heap.node 0 = some x) (hle : x.key ≤ key) :
    heap'.node 0 = some x := by
  obtain ⟨heap₁, heap₂, -, hnode, hup, rfl⟩ := add_stored h
  show heap₂.node 0 = some x
  apply moveUpLoop_root hup hpos
  · rw [hnode, if_neg (by omega), hx]
  · intro y hy
    rw [hnode, if_pos rfl] at hy
    exact Option.some.inj hy ▸ hle

/-- With fewer than `2 ^ 30` entries an add returns. -/
theorem add_isSome (hv : heap.Valid) (hlt : heap.used < 2 ^ 30) (key : Int) (value : α) :
    ∃ heap', heap.add key value = some heap' := by
  obtain ⟨hroom, hused, hnode⟩ := ensureSpace_spec heap (heap.used + 1)
  obtain ⟨heap₁, hstore⟩ :
      ∃ heap₁, (heap.ensureSpace (heap.used + 1)).store heap.used ⟨key, value⟩ = some heap₁ :=
    store_isSome _ (by omega)
  -- every slot that the sift can reach has been written
  have hw : heap₁.Written (heap.used + 1) := by
    intro i hi
    rw [store_node hstore, hnode]
    split
    · rfl
    · exact hv.written i (by omega)
  obtain ⟨heap₂, hup⟩ := moveUpLoop_isSome hw (Nat.lt_succ_self _)
    (show heap.used < 2 ^ 31 by omega) (Nat.le_refl _)
  refine ⟨{ heap₂ with used := heap₂.used + 1 }, ?_⟩
  simp only [add, hused, hstore, store_used hstore, moveUp, hup, Option.bind_eq_bind,
    Option.bind_some, Option.pure_def]

/-- A pop of an empty heap takes nothing. -/
theorem trypop_empty (h : heap.used = 0) : heap.trypop = some (none, heap) := by
  rw [trypop, if_neg (by omega)]

/-- A pop of a non-empty heap takes its root. What it sifts is the last live node,
    copied over the root and still in the slot that has just left the live region. -/
theorem trypop_cases {r : Option (Int × α)} (h : heap.trypop = some (r, heap'))
    (hpos : 0 < heap.used) :
    ∃ x, heap.node 0 = some x ∧ r = some (x.key, x.value) ∧
      (heap.used = 1 ∧ heap' = { heap with used := 0 } ∨
        ∃ heap₁ : BinaryHeap α, 1 < heap.used ∧ heap₁.used = heap.used - 1 ∧
          (∀ i, heap₁.node i = if i = 0 then heap.node (heap.used - 1) else heap.node i) ∧
          heap₁.moveDown 0 = some heap') := by
  simp only [trypop, if_pos hpos, Option.bind_eq_bind, Option.bind_eq_some_iff,
    Option.pure_def] at h
  obtain ⟨x, hx, h⟩ := h
  split at h
  -- the last node is copied over the root, and sifted from there
  · rename_i hmore
    simp only [Option.bind_eq_some_iff, Option.some.injEq, Prod.mk.injEq] at h
    obtain ⟨y, hy, heap₁, hstore, heap₂, hdown, rfl, rfl⟩ := h
    refine ⟨x, hx, rfl, .inr ⟨heap₁, by omega, store_used hstore, fun i => ?_, hdown⟩⟩
    have hy' : heap.node (heap.used - 1) = some y := hy
    rw [store_node hstore, hy']; rfl
  · simp only [Option.some.injEq, Prod.mk.injEq] at h
    obtain ⟨rfl, rfl⟩ := h
    exact ⟨x, hx, rfl, .inl ⟨by omega, by congr 1; omega⟩⟩

/-- What is taken from a non-empty heap is its root. -/
theorem trypop_root {r : Option (Int × α)} {x : Kvp α} (h : heap.trypop = some (r, heap'))
    (hpos : 0 < heap.used) (hx : heap.node 0 = some x) : r = some (x.key, x.value) := by
  obtain ⟨y, hy, rfl, -⟩ := trypop_cases h hpos
  obtain rfl : y = x := Option.some.inj (hy.symm.trans hx)
  rfl

/-- A pop of a non-empty heap takes one entry and leaves the others; it keeps the heap
    valid, and the entry taken from a valid heap has a least key. -/
theorem trypop_spec {r : Option (Int × α)} (h : heap.trypop = some (r, heap'))
    (hpos : 0 < heap.used) :
    heap'.used = heap.used - 1 ∧
      ∃ x, r = some (x.key, x.value) ∧ heap.entries.Perm (x :: heap'.entries) ∧
        (heap.Valid → heap'.Valid ∧ ∀ y ∈ heap.entries, x.key ≤ y.key) := by
  obtain ⟨x, hx, rfl, hcase⟩ := trypop_cases h hpos
  -- the root of an ordered heap is a minimum
  have hmin : heap.Valid → ∀ y ∈ heap.entries, x.key ≤ y.key := by
    intro hv y hy
    simp only [entries, nodes, List.valuesBelow, List.mem_filterMap, List.mem_range] at hy
    obtain ⟨i, hi, hyi⟩ := hy
    rw [← keyAt_of_node hx, ← keyAt_of_node hyi]
    exact hv.ordered.root_le hi
  rcases hcase with ⟨hone, rfl⟩ | ⟨heap₁, hmore, hu₁, hnode, hdown⟩
  -- the only entry is taken
  · refine ⟨by simp [hone], x, rfl, ?_, fun hv => ⟨⟨?_, ?_⟩, hmin hv⟩⟩
    · rw [entries, nodes, hone, List.valuesBelow_succ, hx]; exact .refl _
    · intro i hi; exact absurd hi (Nat.not_lt_zero _)
    · exact ImplicitHeap.ordered_zero _
  · have hpos₁ : 0 < heap₁.used := by omega
    -- nothing clears the slot that the last node leaves
    have hstale : heap₁.node heap₁.used = heap₁.node 0 := by
      rw [hnode, hnode, if_neg (by omega), if_pos rfl, hu₁]
    obtain ⟨hs, ho⟩ := moveDownLoop_spec hdown hpos₁ hstale
    have hu' : heap'.used = heap.used - 1 := hs.used.trans hu₁
    refine ⟨hu', x, rfl, ?_, fun hv => ⟨⟨?_, ?_⟩, hmin hv⟩⟩
    -- the entries without the root, with the last one in its place
    · have hreplace : (heap.nodes (heap.used - 1 + 1)).Perm (x :: heap₁.nodes (heap.used - 1)) :=
        List.valuesBelow_replace_head_perm hx (by rw [hnode, if_pos rfl])
          (fun i hi _ => by rw [hnode, if_neg (by omega)]) (by omega)
      rw [show heap.used - 1 + 1 = heap.used by omega] at hreplace
      refine hreplace.trans (.cons x ?_)
      rw [entries, hu', ← hu₁]
      exact hs.perm.symm
    · rw [hu', ← hu₁]
      apply hs.written
      intro i hi
      rw [hnode]
      split
      · exact hv.written _ (by omega)
      · exact hv.written i (by omega)
    · rw [hu', ← hu₁]
      -- only the root has changed
      refine ho (.of_root (hv.ordered.mono (by omega)) hpos₁ fun j hj _ => ?_)
      rw [keyAt, keyAt, hnode, if_neg (by omega)]

/-- A pop that takes an entry took it out of the entries. -/
theorem trypop_some {key : Int} {value : α} (h : heap.trypop = some (some (key, value), heap')) :
    heap.entries.Perm (⟨key, value⟩ :: heap'.entries) := by
  by_cases hpos : 0 < heap.used
  · obtain ⟨-, x, hr, hperm, -⟩ := trypop_spec h hpos
    obtain ⟨rfl, rfl⟩ := Prod.mk.inj (Option.some.inj hr)
    exact hperm
  · rw [trypop_empty (by omega)] at h; simp at h

/-- A pop that takes nothing found the heap empty, and leaves it alone. -/
theorem trypop_none (h : heap.trypop = some (none, heap')) : heap.used = 0 ∧ heap' = heap := by
  by_cases hpos : 0 < heap.used
  · obtain ⟨-, x, hr, -⟩ := trypop_spec h hpos
    cases hr
  · rw [trypop_empty (by omega)] at h
    simp only [Option.some.injEq, Prod.mk.injEq, true_and] at h
    exact ⟨by omega, h.symm⟩

/-- With at most `2 ^ 30` entries a pop returns. -/
theorem trypop_isSome (hv : heap.Valid) (hle : heap.used ≤ 2 ^ 30) :
    ∃ r heap', heap.trypop = some (r, heap') := by
  by_cases hpos : 0 < heap.used
  · obtain ⟨x, hx⟩ := hv.written.node hpos
    by_cases hmore : 0 < heap.used - 1
    · obtain ⟨y, hy⟩ := hv.written.node (show heap.used - 1 < heap.used by omega)
      obtain ⟨heap₁, hstore⟩ :
          ∃ heap₁, ({ heap with used := heap.used - 1 } : BinaryHeap α).store 0 y = some heap₁ :=
        store_isSome y (node_lt_allocated hx)
      have hu₁ : heap₁.used = heap.used - 1 := store_used hstore
      have hnode' : ({ heap with used := heap.used - 1 } : BinaryHeap α).node (heap.used - 1) =
          some y := hy
      have hnode : ∀ i, heap₁.node i = if i = 0 then some y else heap.node i := fun i => by
        rw [store_node hstore]; rfl
      -- the sift may read one slot past the live region
      have hw : heap₁.Written (heap₁.used + 1) := by
        intro i hi
        rw [hnode]
        split
        · rfl
        · exact hv.written i (by omega)
      have hstale : heap₁.node heap₁.used = heap₁.node 0 := by
        rw [hnode, hnode, hu₁, if_neg (by omega), if_pos rfl, hy]
      obtain ⟨heap₂, hdown⟩ : ∃ heap₂, moveDownLoop heap₁.used heap₁ 0 = some heap₂ :=
        moveDownLoop_isSome hw hstale (by omega) (by omega) (by omega)
      refine ⟨some (x.key, x.value), heap₂, ?_⟩
      simp only [trypop, if_pos hpos, hx, if_pos hmore, hnode', hstore, moveDown, hdown,
        Option.bind_eq_bind, Option.bind_some, Option.pure_def]
    · refine ⟨some (x.key, x.value), { heap with used := heap.used - 1 }, ?_⟩
      simp only [trypop, if_pos hpos, hx, if_neg hmore, Option.bind_eq_bind, Option.bind_some,
        Option.pure_def]
  · exact ⟨none, heap, trypop_empty (by omega)⟩

end Fsfuse.Native.BinaryHeap
