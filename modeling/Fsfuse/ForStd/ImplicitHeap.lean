import Mathlib

/-!
# Heap order on an implicit binary tree

A binary tree is kept level by level in the positions `0, 1, …` of an array; the
children of `i` are `2 * i + 1` and `2 * i + 2`. The array's keys are given as a
function `k : Nat → κ` and the live region as the positions below `n`, so nothing
here depends on how the array itself is represented.

* `Ordered k n` — no node is smaller than its parent;
* `UpReady k n i` / `DownReady k n i` — the order holds except possibly on the edge
  into `i` / on the edges out of `i`, the loop invariants of sifting up and down;
* `Ordered.root_le` — the root is a minimum.
-/

namespace ImplicitHeap

variable {κ : Type*} [LinearOrder κ] {k k' : Nat → κ} {n i j c : Nat}

/-- Position of the parent of `i`. -/
def parent (i : Nat) : Nat := (i - 1) / 2

/-- A parent comes before its child. -/
theorem parent_lt (hi : 0 < i) : parent i < i := by
  simp only [parent]; omega

/-- The two positions whose parent is `i`. -/
theorem parent_eq_iff (hj : 0 < j) : parent j = i ↔ j = 2 * i + 1 ∨ j = 2 * i + 2 := by
  simp only [parent]; omega

/-- No live node is smaller than its parent. -/
def Ordered (k : Nat → κ) (n : Nat) : Prop :=
  ∀ i, 0 < i → i < n → k (parent i) ≤ k i

/-- A heap of no nodes is ordered. -/
theorem ordered_zero (k : Nat → κ) : Ordered k 0 := fun _ _ h => absurd h (Nat.not_lt_zero _)

/-- The beginning of an ordered heap is ordered. -/
theorem Ordered.mono {m : Nat} (h : Ordered k n) (hm : m ≤ n) : Ordered k m :=
  fun i hi hlt => h i hi (Nat.lt_of_lt_of_le hlt hm)

/-- The root is a minimum of the live keys. -/
theorem Ordered.root_le (h : Ordered k n) (hi : i < n) : k 0 ≤ k i := by
  -- along the parents to the root
  induction i using Nat.strongRecOn with
  | ind i ih =>
    by_cases h0 : i = 0
    · subst h0; exact le_refl _
    · have hpos : 0 < i := Nat.pos_of_ne_zero h0
      have hp := parent_lt hpos
      exact le_trans (ih (parent i) hp (by omega)) (h i hpos hi)

/-! ### Sifting up -/

/-- The order holds except possibly on the edge into `i`, and would also hold if `i`
    were skipped. -/
structure UpReady (k : Nat → κ) (n i : Nat) : Prop where
  lt : i < n
  off : ∀ j, 0 < j → j < n → j ≠ i → k (parent j) ≤ k j
  across : ∀ j, 0 < j → j < n → parent j = i → 0 < i → k (parent i) ≤ k j

/-- Writing one more key behind an ordered region makes it ready to sift up. -/
theorem UpReady.of_push (h : Ordered k n) (hk : ∀ j, j < n → k' j = k j) :
    UpReady k' (n + 1) n where
  lt := Nat.lt_succ_self n
  off j hj hlt hne := by
    have hp := parent_lt hj
    rw [hk j (by omega), hk (parent j) (by omega)]
    exact h j hj (by omega)
  across j hj hlt hpj _ := by have := parent_lt hj; omega

/-- Sifting up stops in an ordered region. -/
theorem UpReady.ordered (h : UpReady k n i) (hstop : 0 < i → k (parent i) ≤ k i) :
    Ordered k n := by
  intro j hj hlt
  by_cases hji : j = i
  · subst hji; exact hstop hj
  · exact h.off j hj hlt hji

/-- One step of sifting up: a node smaller than its parent changes places with it. -/
theorem UpReady.swap (h : UpReady k n i) (hi : 0 < i) (hlt : k i < k (parent i)) :
    UpReady (fun j => k (Equiv.swap i (parent i) j)) n (parent i) := by
  have hp := parent_lt hi
  have hn := h.lt
  constructor
  · omega
  · intro j hj hjn hne
    by_cases hji : j = i
    · subst hji
      rw [Equiv.swap_apply_right, Equiv.swap_apply_left]
      exact le_of_lt hlt
    · rw [Equiv.swap_apply_of_ne_of_ne hji hne]
      by_cases hpj : parent j = i
      · rw [hpj, Equiv.swap_apply_left]
        exact h.across j hj hjn hpj hi
      · by_cases hpp : parent j = parent i
        · rw [hpp, Equiv.swap_apply_right]
          exact le_trans (le_of_lt hlt) (hpp ▸ h.off j hj hjn hji)
        · rw [Equiv.swap_apply_of_ne_of_ne hpj hpp]
          exact h.off j hj hjn hji
  · intro j hj hjn hpj hpi
    have hpp := parent_lt hpi
    -- the grandparent is no greater than what has come down to `i`
    have hgrand : k (parent (parent i)) ≤ k (parent i) :=
      h.off (parent i) hpi (by omega) (by omega)
    rw [Equiv.swap_apply_of_ne_of_ne (show parent (parent i) ≠ i by omega) (by omega)]
    -- the node that has come down to `i`, or its sibling
    by_cases hji : j = i
    · subst hji; rw [Equiv.swap_apply_left]; exact hgrand
    · have hjp : j ≠ parent i := by have := parent_lt hj; omega
      rw [Equiv.swap_apply_of_ne_of_ne hji hjp]
      exact le_trans hgrand (hpj ▸ h.off j hj hjn hji)

/-! ### Sifting down -/

/-- The order holds except possibly on the edges out of `i`, and would also hold if
    `i` were skipped. -/
structure DownReady (k : Nat → κ) (n i : Nat) : Prop where
  lt : i < n
  off : ∀ j, 0 < j → j < n → parent j ≠ i → k (parent j) ≤ k j
  across : ∀ j, 0 < j → j < n → parent j = i → 0 < i → k (parent i) ≤ k j

/-- Overwriting the root of an ordered region makes it ready to sift down. -/
theorem DownReady.of_root (h : Ordered k n) (hn : 0 < n) (hk : ∀ j, 0 < j → j < n → k' j = k j) :
    DownReady k' n 0 where
  lt := hn
  off j hj hlt hpj := by
    have hp := parent_lt hj
    rw [hk j hj hlt, hk (parent j) (Nat.pos_of_ne_zero hpj) (by omega)]
    exact h j hj hlt
  across _ _ _ _ h0 := absurd h0 (Nat.lt_irrefl 0)

/-- Sifting down stops in an ordered region. -/
theorem DownReady.ordered (h : DownReady k n i)
    (hstop : ∀ j, 0 < j → j < n → parent j = i → k i ≤ k j) : Ordered k n := by
  intro j hj hlt
  by_cases hpj : parent j = i
  · exact hpj ▸ hstop j hj hlt hpj
  · exact h.off j hj hlt hpj

/-- Sifting down stops at a node without children. -/
theorem DownReady.ordered_of_leaf (h : DownReady k n i) (hleaf : ¬ i < n / 2) : Ordered k n :=
  h.ordered fun j hj hjn hpj => by rw [parent_eq_iff hj] at hpj; omega

/-- One step of sifting down: a node larger than its least child changes places with it. -/
theorem DownReady.swap (h : DownReady k n i) (hc : 0 < c) (hcn : c < n) (hpc : parent c = i)
    (hmin : ∀ j, 0 < j → j < n → parent j = i → k c ≤ k j) (hlt : k c < k i) :
    DownReady (fun j => k (Equiv.swap i c j)) n c := by
  have hic : i < c := hpc ▸ parent_lt hc
  constructor
  · exact hcn
  · intro j hj hjn hne
    by_cases hji : j = i
    · subst hji
      have hpj := parent_lt hj
      rw [Equiv.swap_apply_left, Equiv.swap_apply_of_ne_of_ne (by omega) (by omega)]
      exact h.across c hc hcn hpc hj
    -- the least child is above its siblings now
    · by_cases hpi : parent j = i
      · rw [hpi, Equiv.swap_apply_left]
        by_cases hjc : j = c
        · subst hjc; rw [Equiv.swap_apply_right]; exact le_of_lt hlt
        · rw [Equiv.swap_apply_of_ne_of_ne hji hjc]; exact hmin j hj hjn hpi
      · have hjc : j ≠ c := fun e => hpi (e ▸ hpc)
        rw [Equiv.swap_apply_of_ne_of_ne hpi hne, Equiv.swap_apply_of_ne_of_ne hji hjc]
        exact h.off j hj hjn hpi
  · intro j hj hjn hpj _
    have hcj : c < j := hpj ▸ parent_lt hj
    rw [hpc, Equiv.swap_apply_left, Equiv.swap_apply_of_ne_of_ne (by omega) (by omega)]
    exact hpj ▸ h.off j hj hjn (by omega)

end ImplicitHeap
