import Mathlib

/-!
# Priority queues

What a priority queue is for, on the multiset of its entries: an add puts one entry
in, a pop of a non-empty queue takes out one entry whose key is least, and a pop of
the empty queue takes out nothing. Which of several entries with the least key is
taken is left open.
-/

namespace PriorityQueue

variable {κ α : Type*}

/-- An operation on a priority queue. -/
inductive Op (κ α : Type*)
  | add (key : κ) (value : α)
  | trypop
deriving DecidableEq

/-- The number of live entries after an operation. -/
def Op.live : Nat → Op κ α → Nat
  | n, .add _ _ => n + 1
  | n, .trypop => n - 1

/-- An operation makes at most one more entry live. -/
theorem Op.foldl_live_le (ops : List (Op κ α)) (n : Nat) :
    ops.foldl Op.live n ≤ n + ops.length := by
  induction ops generalizing n with
  | nil => exact Nat.le_refl _
  | cons op ops ih =>
    have hlive : Op.live n op ≤ n + 1 := by
      cases op with
      | add _ _ => exact Nat.le_refl _
      | trypop => exact (Nat.sub_le n 1).trans (Nat.le_succ n)
    have hrest := ih (Op.live n op)
    rw [List.foldl_cons, List.length_cons]
    omega

/-- `Step q op r q'`: on the queue `q` the operation `op` answers `r` and leaves `q'`. -/
inductive Step [LE κ] : Multiset (κ × α) → Op κ α → Option (κ × α) → Multiset (κ × α) → Prop
  | add (q : Multiset (κ × α)) (key : κ) (value : α) :
      Step q (.add key value) none ((key, value) ::ₘ q)
  | popEmpty : Step 0 .trypop none 0
  | popMin (q : Multiset (κ × α)) (e : κ × α) (hmin : ∀ p ∈ e ::ₘ q, e.1 ≤ p.1) :
      Step (e ::ₘ q) .trypop (some e) q

/-- A sequence of operations with their answers. -/
inductive Run [LE κ] :
    Multiset (κ × α) → List (Op κ α) → List (Option (κ × α)) → Multiset (κ × α) → Prop
  | nil (q : Multiset (κ × α)) : Run q [] [] q
  | cons {q q₁ q' : Multiset (κ × α)} {op : Op κ α} {r : Option (κ × α)} {ops : List (Op κ α)}
      {rs : List (Option (κ × α))} (hstep : Step q op r q₁) (hrun : Run q₁ ops rs q') :
      Run q (op :: ops) (r :: rs) q'

/-! ### Draining a queue -/

variable [LE κ] {q q' : Multiset (κ × α)} {rs : List (Option (κ × α))}

/-- What pops take out of a queue, they take out in the order of the keys. -/
theorem Run.trypops {n : Nat} (h : Run q (List.replicate n .trypop) rs q') (hn : n ≤ q.card) :
    ∃ es : List (κ × α), rs = es.map some ∧ (es : Multiset (κ × α)) + q' = q ∧
      es.Pairwise (fun a b => a.1 ≤ b.1) := by
  induction n generalizing q rs with
  | zero =>
    cases h
    exact ⟨[], rfl, zero_add _, List.Pairwise.nil⟩
  | succ n ih =>
    obtain _ | ⟨hstep, hrun⟩ := h
    cases hstep with
    | popEmpty => exact absurd hn (Nat.not_succ_le_zero n)
    | popMin q₁ e hmin =>
      rw [Multiset.card_cons] at hn
      obtain ⟨es, rfl, heq, hsorted⟩ := ih hrun (by omega)
      refine ⟨e :: es, rfl, ?_, List.pairwise_cons.mpr ⟨fun p hp => hmin p ?_, hsorted⟩⟩
      · rw [← Multiset.cons_coe, Multiset.cons_add, heq]
      -- what comes later was in the queue
      · exact Multiset.mem_cons_of_mem (heq ▸ Multiset.mem_add.mpr (.inl hp))

end PriorityQueue
