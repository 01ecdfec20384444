import Fsfuse.ForStd.PriorityQueue
import Fsfuse.Spec.BinaryHeapCorrect

/-!
# The binary heap is a priority queue

A sequence of `binary_heap_add` and `binary_heap_trypop` calls on a new heap always
returns, as long as fewer than `2 ^ 30` entries are live at a time, and its answers
are those of a priority queue on the multiset of (key, value) pairs.
-/

namespace Fsfuse.Native.BinaryHeap

open PriorityQueue (Op Step Run)

variable {α : Type} {heap heap' : BinaryHeap α}

/-- One call on a heap: what it answers and the heap it leaves. -/
def apply (heap : BinaryHeap α) : Op Int α → Option (Option (Int × α) × BinaryHeap α)
  | .add key value => do return (none, ← heap.add key value)
  | .trypop => heap.trypop

/-- A sequence of calls on a heap. -/
def applyAll (heap : BinaryHeap α) :
    List (Op Int α) → Option (List (Option (Int × α)) × BinaryHeap α)
  | [] => some ([], heap)
  | op :: ops => do
    let (r, heap) ← heap.apply op
    let (rs, heap) ← heap.applyAll ops
    return (r :: rs, heap)

/-- The (key, value) pairs in a heap. -/
def contents (heap : BinaryHeap α) : Multiset (Int × α) :=
  (heap.entries.map fun x => (x.key, x.value) : List (Int × α))

/-- A new heap contains nothing. -/
@[simp] theorem contents_new : (new : BinaryHeap α).contents = 0 := rfl

/-- The live counter is the size of the multiset. -/
theorem Valid.card_contents (hv : heap.Valid) : heap.contents.card = heap.used := by
  -- written slots are all nodes, so none is left out
  have hlen : ∀ n, heap.Written n → (heap.nodes n).length = n := by
    intro n
    induction n with
    | zero => intro _; rfl
    | succ n ih =>
      intro hw
      obtain ⟨x, hx⟩ := hw.node (Nat.lt_succ_self n)
      rw [nodes, List.valuesBelow_succ, List.length_append, hx]
      exact congrArg (· + 1) (ih (hw.mono (Nat.le_succ n)))
  simp only [contents, Multiset.coe_card, List.length_map]
  exact hlen _ hv.written

/-- The contents can be taken in any order of the entries. -/
theorem contents_eq_cons {x : Kvp α} {l : List (Kvp α)} (h : heap.entries.Perm (x :: l)) :
    heap.contents = (x.key, x.value) ::ₘ (l.map fun x => (x.key, x.value) : List (Int × α)) := by
  rw [contents, Multiset.cons_coe, Multiset.coe_eq_coe]
  exact h.map _

/-- Each call that returns is a step of the priority queue. -/
theorem apply_step {op : Op Int α} {r : Option (Int × α)} (hv : heap.Valid)
    (h : heap.apply op = some (r, heap')) :
    heap'.Valid ∧ heap'.used = Op.live heap.used op ∧ Step heap.contents op r heap'.contents := by
  cases op with
  | add key value =>
    simp only [apply, Option.bind_eq_bind, Option.bind_eq_some_iff, Option.pure_def,
      Option.some.injEq, Prod.mk.injEq] at h
    obtain ⟨_, hadd, rfl, rfl⟩ := h
    obtain ⟨hu, hperm, hvalid⟩ := add_spec hadd
    exact ⟨hvalid hv, hu, contents_eq_cons hperm ▸ .add _ _ _⟩
  | trypop =>
    by_cases hpos : 0 < heap.used
    · obtain ⟨hu, x, rfl, hperm, hvalid⟩ := trypop_spec h hpos
      obtain ⟨hv', hmin⟩ := hvalid hv
      refine ⟨hv', hu, ?_⟩
      rw [contents_eq_cons hperm]
      -- no entry of the queue before the pop has a lesser key
      refine .popMin _ _ fun p hp => ?_
      have hp' : p ∈ heap.contents := by rw [contents_eq_cons hperm]; exact hp
      simp only [contents, Multiset.mem_coe, List.mem_map] at hp'
      obtain ⟨y, hy, rfl⟩ := hp'
      exact hmin y hy
    · have h0 : heap.used = 0 := by omega
      rw [apply, trypop_empty h0] at h
      obtain ⟨rfl, rfl⟩ := Prod.mk.inj (Option.some.inj h)
      -- an empty heap is an empty queue
      have hempty : heap.contents = 0 := by rw [← Multiset.card_eq_zero, hv.card_contents, h0]
      refine ⟨hv, by simp only [Op.live]; omega, ?_⟩
      rw [hempty]
      exact .popEmpty

/-- Each call returns while there is room. -/
theorem apply_isSome (hv : heap.Valid) (op : Op Int α) (hlt : heap.used < 2 ^ 30) :
    ∃ r heap', heap.apply op = some (r, heap') := by
  cases op with
  | add key value =>
    obtain ⟨heap', h⟩ := add_isSome hv hlt key value
    exact ⟨none, heap', by simp only [apply, h, Option.bind_eq_bind, Option.bind_some,
      Option.pure_def]⟩
  | trypop => exact trypop_isSome hv (Nat.le_of_lt hlt)

/-- Every sequence of operations on a valid heap is one of the multiset of its contents. -/
private theorem applyAll_refines {ops : List (Op Int α)} (hv : heap.Valid)
    (hlive : ∀ pre, pre <+: ops → pre.foldl Op.live heap.used < 2 ^ 30) :
    ∃ rs heap', heap.applyAll ops = some (rs, heap') ∧
      Run heap.contents ops rs heap'.contents := by
  -- on the calls: each leaves a valid heap for those after it
  induction ops generalizing heap with
  | nil => exact ⟨[], heap, rfl, .nil _⟩
  | cons op ops ih =>
    obtain ⟨r, heap₁, h₁⟩ := apply_isSome hv op (hlive [] List.nil_prefix)
    obtain ⟨hv₁, hu₁, hstep⟩ := apply_step hv h₁
    obtain ⟨rs, heap', h', hrun⟩ := ih hv₁ fun pre hpre => by
      rw [hu₁]
      exact hlive (op :: pre) ((List.prefix_cons_inj op).mpr hpre)
    refine ⟨r :: rs, heap', ?_, .cons hstep hrun⟩
    simp only [applyAll, h₁, h', Option.bind_eq_bind, Option.bind_some, Option.pure_def]

/-- Every sequence of adds and pops on a new heap, with fewer than `2 ^ 30` entries live
    at a time, returns with the answers of a priority queue. -/
theorem applyAll_new_refines (ops : List (Op Int α))
    (hlive : ∀ pre, pre <+: ops → pre.foldl Op.live 0 < 2 ^ 30) :
    ∃ rs heap', new.applyAll ops = some (rs, heap') ∧ Run 0 ops rs heap'.contents :=
  applyAll_refines new_valid hlive

/-- Five entries, two with the same key, added out of order. -/
theorem applyAll_new_refines_funny_order :
    ∃ rs heap', (new : BinaryHeap Nat).applyAll
        [.add 2 10, .add 1 11, .add 3 12, .add 1 13, .trypop, .add 0 14, .trypop] =
          some (rs, heap') ∧
      Run 0 [.add 2 10, .add 1 11, .add 3 12, .add 1 13, .trypop, .add 0 14, .trypop] rs
        heap'.contents :=
  applyAll_new_refines _ fun pre hpre => by
    have hlen := hpre.length_le
    -- seven calls cannot have more than seven entries live
    have hle := Op.foldl_live_le pre 0
    simp only [List.length_cons, List.length_nil] at hlen
    omega

/-! ### Draining a heap -/

/-- Every sequence of operations on a valid heap leaves a valid heap with the live entries. -/
theorem applyAll_valid {ops : List (Op Int α)} {rs : List (Option (Int × α))} (hv : heap.Valid)
    (h : heap.applyAll ops = some (rs, heap')) :
    heap'.Valid ∧ heap'.used = ops.foldl Op.live heap.used := by
  induction ops generalizing heap rs with
  | nil =>
    obtain ⟨-, rfl⟩ := Prod.mk.inj (Option.some.inj h)
    exact ⟨hv, rfl⟩
  | cons op ops ih =>
    simp only [applyAll, Option.bind_eq_bind, Option.bind_eq_some_iff, Option.pure_def,
      Option.some.injEq, Prod.mk.injEq, Prod.exists] at h
    obtain ⟨r, heap₁, h₁, rs', heap₂, h₂, -, rfl⟩ := h
    obtain ⟨hv₁, hu₁, -⟩ := apply_step hv h₁
    obtain ⟨hv', hu'⟩ := ih hv₁ h₂
    exact ⟨hv', by rw [hu', hu₁, List.foldl_cons]⟩

/-- As many pops as a heap has entries. -/
theorem foldl_live_trypops (n used : Nat) :
    (List.replicate n (.trypop : Op Int α)).foldl Op.live used = used - n := by
  induction n generalizing used with
  | zero => rfl
  | succ n ih =>
    rw [List.replicate_succ, List.foldl_cons, ih]
    exact Nat.sub_sub used 1 n |>.trans (by rw [Nat.add_comm])

/-- Whatever has been done with a heap, with fewer than `2 ^ 30` entries live at a time: popped
    until it is empty, it gives its entries in the order of their keys, and may be deleted. -/
theorem applyAll_new_drained (ops : List (Op Int α))
    (hlive : ∀ pre, pre <+: ops → pre.foldl Op.live 0 < 2 ^ 30) :
    ∃ (rs : List (Option (Int × α))) (heap : BinaryHeap α) (es : List (Int × α))
      (heap' : BinaryHeap α), new.applyAll ops = some (rs, heap) ∧ Run 0 ops rs heap.contents ∧
      heap.applyAll (List.replicate heap.used .trypop) = some (es.map some, heap') ∧
      (es : Multiset (Int × α)) = heap.contents ∧ es.Pairwise (fun a b => a.1 ≤ b.1) ∧
      heap'.deletable = true := by
  obtain ⟨rs, heap, happly, hrun⟩ := applyAll_refines new_valid hlive
  obtain ⟨hv, hu⟩ := applyAll_valid new_valid happly
  -- pops do not make the heap larger
  have hpops : ∀ pre, pre <+: List.replicate heap.used (.trypop : Op Int α) →
      pre.foldl Op.live heap.used < 2 ^ 30 := by
    intro pre hpre
    rw [(List.prefix_replicate_iff.mp hpre).2, foldl_live_trypops, hu]
    exact (Nat.sub_le _ _).trans_lt (hlive ops List.prefix_rfl)
  obtain ⟨rs', heap', hdrain, hrun'⟩ := applyAll_refines hv hpops
  obtain ⟨es, rfl, heq, hsorted⟩ := hrun'.trypops hv.card_contents.ge
  obtain ⟨hv', hu'⟩ := applyAll_valid hv hdrain
  have hempty : heap'.used = 0 := by rw [hu', foldl_live_trypops, Nat.sub_self]
  refine ⟨rs, heap, es, heap', happly, hrun, hdrain, ?_, hsorted, ?_⟩
  · rw [← heq, show heap'.contents = 0 by rw [← Multiset.card_eq_zero, hv'.card_contents, hempty],
      add_zero]
  · rw [deletable, hempty]
    rfl

/-- Four entries, two with the same key. -/
theorem applyAll_new_drained_ties :
    ∃ (rs : List (Option (Int × Nat))) (heap : BinaryHeap Nat) (es : List (Int × Nat))
      (heap' : BinaryHeap Nat),
      new.applyAll [.add 2 10, .add 1 11, .add 3 12, .add 1 13] = some (rs, heap) ∧
      Run 0 [.add 2 10, .add 1 11, .add 3 12, .add 1 13] rs heap.contents ∧
      heap.applyAll (List.replicate heap.used .trypop) = some (es.map some, heap') ∧
      (es : Multiset (Int × Nat)) = heap.contents ∧ es.Pairwise (fun a b => a.1 ≤ b.1) ∧
      heap'.deletable = true :=
  applyAll_new_drained _ fun pre hpre => by
    have hlen := hpre.length_le
    have hle := Op.foldl_live_le pre 0
    simp only [List.length_cons, List.length_nil] at hlen
    omega

end Fsfuse.Native.BinaryHeap
