import Fsfuse.Native.HeapAccesses
import Fsfuse.Spec.BinaryHeapRefinement

/-!
# Accesses to the heap's array stay in bounds

Every access is to a slot that is allocated; and every one but the store of the new entry in
`binary_heap_add` is to a slot that has been written. The heap with its accesses on record does
what the heap does whose accesses are checked, so that it is enough that none of the checks
ever fails.
-/

namespace Fsfuse.Native.TracedHeap

open PriorityQueue (Op)

variable {α : Type} {t : TracedHeap α} {heap heap' : BinaryHeap α}

/-! ### Accesses -/

/-- A position has been written by one of some accesses. -/
def WrittenAt (accesses : List Access) (pos : Nat) : Prop :=
  ∃ a ∈ accesses, a.kind ≠ .read ∧ a.pos = pos

/-- An access behind others is allocated, and written unless it is a new entry. -/
def InBounds (accesses : List Access) (a : Access) : Prop :=
  a.pos < a.allocated ∧ (a.kind ≠ .put → WrittenAt accesses a.pos)

/-- Each access is in bounds behind those before it. -/
def AllInBounds (accesses : List Access) : Prop :=
  ∀ pre a post, accesses = pre ++ a :: post → InBounds pre a

/-- A position that has been written has been after one more access. -/
theorem WrittenAt.concat {accesses : List Access} {pos : Nat} (h : WrittenAt accesses pos)
    (a : Access) : WrittenAt (accesses ++ [a]) pos := by
  obtain ⟨b, hb, hkind, hpos⟩ := h
  exact ⟨b, List.mem_append_left _ hb, hkind, hpos⟩

/-- Accesses that are in bounds stay so when one is added that is. -/
theorem AllInBounds.concat {accesses : List Access} {a : Access} (h : AllInBounds accesses)
    (ha : InBounds accesses a) : AllInBounds (accesses ++ [a]) := by
  intro pre b post heq
  rcases List.eq_nil_or_concat post with rfl | ⟨post, c, rfl⟩
  · obtain ⟨rfl, hab⟩ := List.append_inj' heq rfl
    cases hab
    exact ha
  · rw [List.concat_eq_append, ← List.cons_append, ← List.append_assoc] at heq
    exact h pre b post (List.append_inj' heq rfl).1

/-! ### The checked heap -/

/-- What the checked heap has is there, and the accesses so far have been in bounds. -/
structure Tracks (t : TracedHeap α) (heap : BinaryHeap α) : Prop where
  allocated : t.allocated = heap.allocated
  used : t.used = heap.used
  array : ∀ i x, heap.node i = some x → t.array i = x
  written : ∀ i x, heap.node i = some x → WrittenAt t.accesses i
  inBounds : AllInBounds t.accesses

/-- A node that the checked heap has is read within bounds. -/
theorem Tracks.node (h : Tracks t heap) {pos : Nat} {x : Kvp α} (hx : heap.node pos = some x) :
    (t.node pos).1 = x ∧ Tracks (t.node pos).2 heap := by
  refine ⟨h.array pos x hx, h.allocated, h.used, h.array, ?_, ?_⟩
  · intro i y hy
    exact (h.written i y hy).concat _
  · refine h.inBounds.concat ⟨?_, fun _ => h.written pos x hx⟩
    show pos < t.allocated
    rw [h.allocated]
    exact BinaryHeap.node_lt_allocated hx

/-- Storing a node is within bounds where the checked heap stores it. -/
theorem Tracks.store (h : Tracks t heap) {kind : AccessKind} {pos : Nat} {x : Kvp α}
    (hstore : heap.store pos x = some heap') (hkind : kind ≠ .read)
    (hwritten : kind ≠ .put → ∃ y, heap.node pos = some y) :
    Tracks (t.store kind pos x) heap' := by
  have hnode := BinaryHeap.store_node hstore
  refine ⟨?_, ?_, ?_, ?_, ?_⟩
  · exact h.allocated.trans (BinaryHeap.store_allocated hstore).symm
  · exact h.used.trans (BinaryHeap.store_used hstore).symm
  · intro i y hy
    show Function.update t.array pos x i = y
    -- what was stored is what is in the array, and elsewhere nothing has changed
    rw [hnode] at hy
    split at hy
    · rename_i hi
      cases hy
      rw [hi, Function.update_self]
    · rename_i hi
      rw [Function.update_of_ne hi]
      exact h.array i y hy
  · intro i y hy
    rw [hnode] at hy
    split at hy
    · rename_i hi
      rw [hi]
      exact ⟨⟨kind, pos, t.allocated⟩, List.mem_append_right _ (List.mem_singleton.mpr rfl),
        hkind, rfl⟩
    · exact (h.written i y hy).concat _
  -- the position is within the allocation, and a swap's was written before
  · refine h.inBounds.concat ⟨?_, ?_⟩
    · show pos < t.allocated
      rw [h.allocated]
      exact (BinaryHeap.store_eq_some_iff.mp hstore).1
    · intro hput
      obtain ⟨y, hy⟩ := hwritten hput
      exact h.written pos y hy

/-- Making room keeps what the checked heap has. -/
theorem Tracks.ensureSpace (h : Tracks t heap) (space : Nat) :
    Tracks (t.ensureSpace space) (heap.ensureSpace space) := by
  obtain ⟨-, hused, hnode⟩ := BinaryHeap.ensureSpace_spec heap space
  have hallocated : (t.ensureSpace space).allocated = (heap.ensureSpace space).allocated := by
    rw [TracedHeap.ensureSpace, BinaryHeap.ensureSpace, h.allocated]
    split
    · rfl
    · exact h.allocated
  have hsame : (t.ensureSpace space).used = t.used ∧ (t.ensureSpace space).array = t.array ∧
      (t.ensureSpace space).accesses = t.accesses := by
    rw [TracedHeap.ensureSpace]
    split <;> exact ⟨rfl, rfl, rfl⟩
  -- the block is copied with what has been written into it
  obtain ⟨hused', harray, haccesses⟩ := hsame
  refine ⟨hallocated, ?_, ?_, ?_, ?_⟩
  · rw [hused', hused, h.used]
  · intro i x hx
    rw [harray]
    exact h.array i x (hnode i ▸ hx)
  · intro i x hx
    rw [haccesses]
    exact h.written i x (hnode i ▸ hx)
  · rw [haccesses]
    exact h.inBounds

/-- A swap reads both slots before it writes them. -/
theorem Tracks.swap (h : Tracks t heap) {x y : Nat} (hswap : heap.swap x y = some heap') :
    Tracks (t.swap x y) heap' := by
  simp only [BinaryHeap.swap, Option.bind_eq_bind, Option.bind_eq_some_iff] at hswap
  obtain ⟨ny, hy, nx, hx, heap₁, hstore₁, hstore₂⟩ := hswap
  obtain ⟨hny, h₁⟩ := h.node hy
  obtain ⟨hnx, h₂⟩ := h₁.node hx
  have hwrite : AccessKind.write ≠ .read := by decide
  have h₃ := h₂.store hstore₁ hwrite fun _ => ⟨ny, hy⟩
  have hx₁ : ∃ z, heap₁.node x = some z := by
    rw [BinaryHeap.store_node hstore₁]
    split
    · exact ⟨nx, rfl⟩
    · exact ⟨nx, hx⟩
  have h₄ := h₃.store hstore₂ hwrite fun _ => hx₁
  rw [← hny, ← hnx] at h₄
  exact h₄

/-! ### The loops -/

/-- The loop of `move_up` stays within bounds where the checked one goes through. -/
theorem Tracks.moveUpLoop {rounds pos : Nat} (h : Tracks t heap)
    (hup : heap.moveUpLoop rounds pos = some heap') :
    ∃ t', t.moveUpLoop rounds pos = some t' ∧ Tracks t' heap' := by
  -- by the rounds of the loop, each with the same two reads and the same swap
  induction rounds generalizing t heap pos with
  | zero =>
    rw [BinaryHeap.moveUpLoop] at hup
    split at hup
    · cases hup
    · rename_i hroot
      cases hup
      exact ⟨t, by rw [TracedHeap.moveUpLoop, if_neg hroot], h⟩
  | succ rounds ih =>
    rw [BinaryHeap.moveUpLoop] at hup
    split at hup
    · rename_i hpos
      simp only [Option.bind_eq_bind, Option.bind_eq_some_iff] at hup
      obtain ⟨x, hx, parentPos, hparent, y, hy, hup⟩ := hup
      obtain ⟨hxt, h₁⟩ := h.node hx
      obtain ⟨hyt, h₂⟩ := h₁.node hy
      rw [TracedHeap.moveUpLoop, if_pos hpos, hparent]
      simp only [Option.bind_eq_bind, Option.bind_some]
      rw [hxt, hyt]
      split at hup
      · rename_i hge
        cases hup
        exact ⟨_, if_pos hge, h₂⟩
      · rename_i hge
        obtain ⟨heap₁, hswap, hup⟩ := Option.bind_eq_some_iff.mp hup
        rw [if_neg hge]
        exact ih (h₂.swap hswap) hup
    · rename_i hroot
      cases hup
      exact ⟨t, by rw [TracedHeap.moveUpLoop, if_neg hroot], h⟩

/-- The loop of `move_down` stays within bounds where the checked one goes through. -/
theorem Tracks.moveDownLoop {rounds pos : Nat} (h : Tracks t heap)
    (hdown : heap.moveDownLoop rounds pos = some heap') :
    ∃ t', t.moveDownLoop rounds pos = some t' ∧ Tracks t' heap' := by
  induction rounds generalizing t heap pos with
  | zero =>
    rw [BinaryHeap.moveDownLoop] at hdown
    split at hdown
    · cases hdown
    · rename_i hleaf
      cases hdown
      exact ⟨t, by rw [TracedHeap.moveDownLoop, h.used, if_neg hleaf], h⟩
  | succ rounds ih =>
    rw [BinaryHeap.moveDownLoop] at hdown
    split at hdown
    · rename_i hinner
      simp only [Option.bind_eq_bind, Option.bind_eq_some_iff] at hdown
      obtain ⟨x, hx, leftPos, hleft, l, hl, rightPos, hright, r, hr, hdown⟩ := hdown
      obtain ⟨hxt, h₁⟩ := h.node hx
      obtain ⟨hlt, h₂⟩ := h₁.node hl
      obtain ⟨hrt, h₃⟩ := h₂.node hr
      rw [TracedHeap.moveDownLoop, h.used, if_pos hinner, hleft, hright]
      simp only [Option.bind_eq_bind, Option.bind_some]
      rw [hxt, hlt, hrt]
      have hused : (((t.node pos).2.node leftPos).2.node rightPos).2.used = heap.used := h.used
      rw [hused]
      -- whichever child is compared, it is the same one
      have hround : ∀ c (xc : Kvp α), (if x.key ≤ xc.key then some heap
          else (heap.swap pos c).bind fun heap => heap.moveDownLoop rounds c) = some heap' →
          ∃ t', (if x.key ≤ xc.key then some (((t.node pos).2.node leftPos).2.node rightPos).2
            else TracedHeap.moveDownLoop rounds
              ((((t.node pos).2.node leftPos).2.node rightPos).2.swap pos c) c) = some t' ∧
            Tracks t' heap' := by
        intro c xc hdown
        split at hdown
        · rename_i hle
          cases hdown
          exact ⟨_, if_pos hle, h₃⟩
        · rename_i hgt
          obtain ⟨heap₁, hswap, hdown⟩ := Option.bind_eq_some_iff.mp hdown
          rw [if_neg hgt]
          exact ih (h₃.swap hswap) hdown
      split at hdown
      · rename_i hchoice
        rw [if_pos hchoice]
        exact hround rightPos r hdown
      · rename_i hchoice
        rw [if_neg hchoice]
        exact hround leftPos l hdown
    · rename_i hleaf
      cases hdown
      exact ⟨t, by rw [TracedHeap.moveDownLoop, h.used, if_neg hleaf], h⟩

/-- `move_up` stays within bounds where the checked one goes through. -/
theorem Tracks.moveUp (h : Tracks t heap) {pos : Nat} (hup : heap.moveUp pos = some heap') :
    ∃ t', t.moveUp pos = some t' ∧ Tracks t' heap' :=
  h.moveUpLoop hup

/-- `move_down` stays within bounds where the checked one goes through. -/
theorem Tracks.moveDown (h : Tracks t heap) {pos : Nat}
    (hdown : heap.moveDown pos = some heap') :
    ∃ t', t.moveDown pos = some t' ∧ Tracks t' heap' := by
  rw [TracedHeap.moveDown, h.used]
  exact h.moveDownLoop hdown

/-! ### Calls -/

/-- How many entries are live makes no difference to the accesses so far. -/
theorem Tracks.setUsed (h : Tracks t heap) (used : Nat) :
    Tracks { t with used } { heap with used } :=
  ⟨h.allocated, rfl, h.array, h.written, h.inBounds⟩

/-- `binary_heap_add` stays within bounds where the checked one goes through. -/
theorem Tracks.add (h : Tracks t heap) {key : Int} {value : α}
    (hadd : heap.add key value = some heap') :
    ∃ t', t.add key value = some t' ∧ Tracks t' heap' := by
  simp only [BinaryHeap.add, Option.bind_eq_bind, Option.bind_eq_some_iff, Option.pure_def,
    Option.some.injEq] at hadd
  obtain ⟨heap₁, hstore, heap₂, hup, rfl⟩ := hadd
  have h₁ := h.ensureSpace (heap.used + 1)
  have hput : AccessKind.put ≠ .read := by decide
  have h₂ := h₁.store hstore hput fun hne => absurd rfl hne
  obtain ⟨t₃, hup', h₃⟩ := h₂.moveUp hup
  refine ⟨{ t₃ with used := heap₂.used + 1 }, ?_, h₃.setUsed _⟩
  unfold TracedHeap.add
  rw [h.used]
  dsimp only
  rw [h₁.used, h₂.used, hup', ← h₃.used]
  rfl

/-- `binary_heap_trypop` stays within bounds where the checked one goes through. -/
theorem Tracks.trypop (h : Tracks t heap) {r : Option (Int × α)}
    (hpop : heap.trypop = some (r, heap')) :
    ∃ t', t.trypop = some (r, t') ∧ Tracks t' heap' := by
  unfold BinaryHeap.trypop at hpop
  unfold TracedHeap.trypop
  rw [h.used]
  split at hpop
  · rename_i hpos
    simp only [Option.bind_eq_bind, Option.bind_eq_some_iff] at hpop
    obtain ⟨x, hx, hpop⟩ := hpop
    obtain ⟨hxt, h₁⟩ := h.node hx
    have h₂ := h₁.setUsed (heap.used - 1)
    rw [if_pos hpos]
    dsimp only
    rw [hxt]
    have hused : (t.node 0).2.used = heap.used := h₁.used
    rw [hused]
    split at hpop
    -- the last node is moved to the root, and sifted down
    · rename_i hmore
      simp only [Option.bind_eq_some_iff, Option.pure_def, Option.some.injEq,
        Prod.mk.injEq] at hpop
      obtain ⟨y, hy, heap₁, hstore, heap₂, hdown, rfl, rfl⟩ := hpop
      obtain ⟨hyt, h₃⟩ := h₂.node hy
      have hwrite : AccessKind.write ≠ .read := by decide
      have h₄ := h₃.store hstore hwrite fun _ => ⟨x, hx⟩
      obtain ⟨t₅, hdown', h₅⟩ := h₄.moveDown hdown
      refine ⟨t₅, ?_, h₅⟩
      rw [if_pos hmore, hyt, hdown']
      rfl
    · rename_i hlast
      cases hpop
      exact ⟨_, if_neg hlast, h₂⟩
  · rename_i hempty
    cases hpop
    exact ⟨t, if_neg hempty, h⟩

/-- One call on a heap. -/
def apply (heap : TracedHeap α) : Op Int α → Option (TracedHeap α)
  | .add key value => heap.add key value
  | .trypop => heap.trypop.map Prod.snd

/-- A sequence of calls on a heap. -/
def applyAll (heap : TracedHeap α) (ops : List (Op Int α)) : Option (TracedHeap α) :=
  ops.foldlM apply heap

/-- An operation stays within bounds where the checked one goes through. -/
theorem Tracks.apply (h : Tracks t heap) {op : Op Int α} {r : Option (Int × α)}
    (happly : heap.apply op = some (r, heap')) :
    ∃ t', t.apply op = some t' ∧ Tracks t' heap' := by
  cases op with
  | add key value =>
    simp only [BinaryHeap.apply, Option.bind_eq_bind, Option.bind_eq_some_iff, Option.pure_def,
      Option.some.injEq, Prod.mk.injEq] at happly
    obtain ⟨_, hadd, -, rfl⟩ := happly
    exact h.add hadd
  | trypop =>
    obtain ⟨t', hpop, h'⟩ := h.trypop happly
    exact ⟨t', by rw [TracedHeap.apply, hpop, Option.map_some], h'⟩

/-- The calls return as long as the checked heap is not too full, and are tracked. -/
theorem Tracks.applyAll (h : Tracks t heap) (hv : heap.Valid) {ops : List (Op Int α)}
    (hlive : ∀ pre, pre <+: ops → pre.foldl Op.live heap.used < 2 ^ 30) :
    ∃ t' heap', t.applyAll ops = some t' ∧ Tracks t' heap' := by
  induction ops generalizing t heap with
  | nil => exact ⟨t, heap, rfl, h⟩
  | cons op ops ih =>
    obtain ⟨r, heap₁, happly⟩ := BinaryHeap.apply_isSome hv op (hlive [] List.nil_prefix)
    obtain ⟨hv₁, hused, -⟩ := BinaryHeap.apply_step hv happly
    obtain ⟨t₁, happly', h₁⟩ := h.apply happly
    obtain ⟨t', heap', happlyAll, h'⟩ := ih h₁ hv₁ fun pre hpre => by
      rw [hused]
      exact hlive (op :: pre) ((List.prefix_cons_inj op).mpr hpre)
    refine ⟨t', heap', ?_, h'⟩
    rw [TracedHeap.applyAll, List.foldlM_cons, happly']
    exact happlyAll

/-- A new heap has made no accesses. -/
theorem tracks_new (array : Nat → Kvp α) : Tracks (new array) BinaryHeap.new := by
  refine ⟨rfl, rfl, ?_, ?_, ?_⟩
  · intro i x hx
    cases hx
  · intro i x hx
    cases hx
  · intro pre a post heq
    simp [new] at heq

/-- There is as much room as was asked for. -/
theorem le_allocated_ensureSpace (t : TracedHeap α) (space : Nat) :
    space ≤ (t.ensureSpace space).allocated := by
  unfold TracedHeap.ensureSpace
  split
  · exact Nat.le_max_right _ _
  · rename_i hge
    exact Nat.le_of_not_lt hge

/-- Every sequence of adds and pops on a new heap, with fewer than `2 ^ 30` entries live at a
    time, returns. Every access on the way is to a slot that is allocated, and has been written
    unless an add puts its entry there; and there is room for the next add when it has made
    sure of it. -/
theorem applyAll_new_inBounds (array : Nat → Kvp α) (ops : List (Op Int α))
    (hlive : ∀ pre, pre <+: ops → pre.foldl Op.live 0 < 2 ^ 30) :
    ∃ heap, (new array).applyAll ops = some heap ∧ AllInBounds heap.accesses ∧
      heap.used + 1 ≤ (heap.ensureSpace (heap.used + 1)).allocated := by
  obtain ⟨heap, checked, happlyAll, h⟩ :=
    (tracks_new array).applyAll BinaryHeap.new_valid hlive
  exact ⟨heap, happlyAll, h.inBounds, le_allocated_ensureSpace heap _⟩

/-- Three entries in the reverse of their order, and two of them taken: both loops go round,
    and the second pop reads the slot that the first has left. -/
theorem applyAll_new_inBounds_reverse :
    ∃ heap, (new fun _ => (⟨0, 0⟩ : Kvp Nat)).applyAll
        [.add 3 10, .add 2 11, .add 1 12, .add 0 13, .trypop, .trypop] = some heap ∧
      AllInBounds heap.accesses ∧
      heap.used + 1 ≤ (heap.ensureSpace (heap.used + 1)).allocated :=
  applyAll_new_inBounds _ _ fun pre hpre => by
    have hlength := hpre.length_le
    have hle := Op.foldl_live_le pre 0
    simp only [List.length_cons, List.length_nil] at hlength
    omega

/-- The first entry is put in a slot that nothing has written before. -/
theorem add_new_not_written :
    ∃ heap, (new fun _ => (⟨0, 0⟩ : Kvp Nat)).applyAll [.add 5 7] = some heap ∧
      ¬ ∀ pre a post, heap.accesses = pre ++ a :: post →
        a.pos < a.allocated ∧ WrittenAt pre a.pos := by
  refine ⟨_, rfl, ?_⟩
  intro h
  obtain ⟨-, a, ha, -⟩ := h [] ⟨.put, 0, 1⟩ [] rfl
  cases ha

end Fsfuse.Native.TracedHeap
