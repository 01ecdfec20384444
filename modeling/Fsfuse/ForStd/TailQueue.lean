import Mathlib

/-!
# Tail queues in memory

The doubly linked queues of BSD's `queue.h`. The head of a queue has a pointer to its first element
and the address of its last link, and an element has a pointer to the next element and the address
of the link that points to it. `Queue` says that an address is the head of a queue of such and such
elements, and `Holds` that a memory has such and such queues and no element besides; the operations
keep this, and a loop over a queue is a loop over the list of its elements (`forEach_eq_forIn`,
`forEachSafe_eq_foldlM`).
-/

namespace TailQueue

/-- The address of a link: in the head of a queue or in an element. -/
inductive Link
  | first (q : Nat)
  | next (n : Nat)
deriving Repr, DecidableEq

/-- An element, with its `TAILQ_ENTRY`. -/
structure Elem (α : Type) where
  data : α
  next : Option Nat
  prev : Link
deriving Repr, DecidableEq

/-- `TAILQ_HEAD`. -/
structure Head where
  first : Option Nat
  last : Link
deriving Repr, DecidableEq

/-- The heads and the elements that have been allocated and not freed, by the order in which they
    have been. -/
structure Memory (α : Type) where
  heads : Nat → Option Head
  elems : Nat → Option (Elem α)
  headsMade : Nat
  elemsMade : Nat

variable {α σ ε : Type}

namespace Memory

/-- Nothing has been allocated. -/
def empty : Memory α := ⟨fun _ => none, fun _ => none, 0, 0⟩

def setHead (m : Memory α) (q : Nat) (head : Head) : Memory α :=
  { m with heads := Function.update m.heads q (some head) }

def setElem (m : Memory α) (n : Nat) (elem : Elem α) : Memory α :=
  { m with elems := Function.update m.elems n (some elem) }

/-- Allocate a head, and `TAILQ_INIT` it. -/
def newHead (m : Memory α) : Memory α :=
  { m.setHead m.headsMade ⟨none, .first m.headsMade⟩ with headsMade := m.headsMade + 1 }

/-- Allocate an element. -/
def newElem (m : Memory α) (elem : Elem α) : Memory α :=
  { m.setElem m.elemsMade elem with elemsMade := m.elemsMade + 1 }

def freeHead (m : Memory α) (q : Nat) : Memory α :=
  { m with heads := Function.update m.heads q none }

def freeElem (m : Memory α) (n : Nat) : Memory α :=
  { m with elems := Function.update m.elems n none }

/-- `TAILQ_INSERT_HEAD`; `none` where it accesses what is not allocated. -/
def insertHead (m : Memory α) (q n : Nat) : Option (Memory α) := do
  let head ← m.heads q
  let elem ← m.elems n
  let m := m.setElem n { elem with next := head.first }
  let m ← match head.first with
    | some f => do
      let firstElem ← m.elems f
      pure (m.setElem f { firstElem with prev := .next n })
    | none => pure (m.setHead q { head with last := .next n })
  let head ← m.heads q
  let m := m.setHead q { head with first := some n }
  let elem ← m.elems n
  return m.setElem n { elem with prev := .first q }

end Memory

namespace Memory

/-- Free one element after the other. -/
def freeElems (m : Memory α) (ns : List Nat) : Memory α := ns.foldl freeElem m

/-- Elements are freed one after the other as they are freed together. -/
@[simp] theorem freeElems_append (m : Memory α) (ns ns' : List Nat) :
    m.freeElems (ns ++ ns') = (m.freeElems ns).freeElems ns' := List.foldl_append

/-- Freeing elements leaves the heads alone. -/
theorem heads_freeElems (m : Memory α) (ns : List Nat) : (m.freeElems ns).heads = m.heads := by
  induction ns generalizing m with
  | nil => rfl
  | cons n ns ih => exact ih (m.freeElem n)

/-- Freeing elements makes no head. -/
theorem headsMade_freeElems (m : Memory α) (ns : List Nat) :
    (m.freeElems ns).headsMade = m.headsMade := by
  induction ns generalizing m with
  | nil => rfl
  | cons n ns ih => exact ih (m.freeElem n)

/-- Freeing elements makes no element. -/
theorem elemsMade_freeElems (m : Memory α) (ns : List Nat) :
    (m.freeElems ns).elemsMade = m.elemsMade := by
  induction ns generalizing m with
  | nil => rfl
  | cons n ns ih => exact ih (m.freeElem n)

/-- Exactly the freed elements are gone. -/
theorem elems_freeElems (m : Memory α) (ns : List Nat) (n : Nat) :
    (m.freeElems ns).elems n = if n ∈ ns then none else m.elems n := by
  induction ns generalizing m with
  | nil => rfl
  | cons k ns ih =>
    refine (ih (m.freeElem k)).trans ?_
    by_cases hn : n ∈ ns
    · rw [if_pos hn, if_pos (List.mem_cons_of_mem _ hn)]
    · by_cases hk : n = k
      · subst hk
        rw [if_neg hn, if_pos List.mem_cons_self]
        exact Function.update_self _ _ _
      · rw [if_neg hn, if_neg (by simp [hk, hn])]
        exact Function.update_of_ne hk _ _

/-- The data of elements. -/
def content (m : Memory α) (ns : List Nat) : List α :=
  ns.filterMap fun n => (m.elems n).map Elem.data

/-- The content begins with the data of the first element. -/
theorem content_cons {m : Memory α} {n : Nat} {elem : Elem α} (h : m.elems n = some elem)
    (ns : List Nat) : m.content (n :: ns) = elem.data :: m.content ns := by
  simp [content, h]

/-- The content depends on the data of its elements alone. -/
theorem content_congr {m m' : Memory α} {ns : List Nat}
    (h : ∀ n ∈ ns, (m'.elems n).map Elem.data = (m.elems n).map Elem.data) :
    m'.content ns = m.content ns := List.filterMap_congr h

/-- The content at an index is the data of the element at that index. -/
theorem getElem?_content {m : Memory α} {ns : List Nat} (h : ∀ n ∈ ns, m.elems n ≠ none) (i : Nat) :
    (m.content ns)[i]? = ns[i]?.bind fun n => (m.elems n).map Elem.data := by
  induction ns generalizing i with
  | nil => rfl
  | cons n ns ih =>
    obtain ⟨elem, helem⟩ := Option.ne_none_iff_exists'.mp (h n List.mem_cons_self)
    rw [content_cons helem]
    cases i with
    | zero => simp [helem]
    | succ i => exact ih (fun n hn => h n (List.mem_cons_of_mem _ hn)) i

/-- Where every element is allocated the content has one item for each. -/
theorem length_content {m : Memory α} {ns : List Nat} (h : ∀ n ∈ ns, m.elems n ≠ none) :
    (m.content ns).length = ns.length := by
  induction ns with
  | nil => rfl
  | cons n ns ih =>
    obtain ⟨elem, helem⟩ := Option.ne_none_iff_exists'.mp (h n List.mem_cons_self)
    rw [content_cons helem, List.length_cons, List.length_cons,
      ih fun n hn => h n (List.mem_cons_of_mem _ hn)]

end Memory

/-! ### Loops -/

/-- `TAILQ_FOREACH`, from the element `cur` on, for at most `fuel` elements. The next element is
    read after the body. -/
def forEach (next : σ → Nat → Except ε (Option Nat)) (body : Nat → σ → Except ε (ForInStep σ)) :
    Nat → Option Nat → σ → ExceptT ε Option σ
  | _, none, s => pure s
  | 0, some _, _ => ExceptT.mk none
  | fuel + 1, some n, s => do
    match ← ExceptT.mk (some (body n s)) with
    | .done s => pure s
    | .yield s =>
      let cur ← ExceptT.mk (some (next s n))
      forEach next body fuel cur s

/-- `TAILQ_FOREACH_SAFE`. The next element is read before the body. -/
def forEachSafe (next : σ → Nat → Except ε (Option Nat)) (body : Nat → σ → Except ε σ) :
    Nat → Option Nat → σ → ExceptT ε Option σ
  | _, none, s => pure s
  | 0, some _, _ => ExceptT.mk none
  | fuel + 1, some n, s => do
    let cur ← ExceptT.mk (some (next s n))
    let s ← ExceptT.mk (some (body n s))
    forEachSafe next body fuel cur s

section Loops

variable {next : σ → Nat → Except ε (Option Nat)} {ns : List Nat} {fuel : Nat} {s : σ}

/-- A loop over a queue is one over the list of its elements, if the body leaves alone the links
    that are still to be followed. -/
theorem forEach_eq_forIn {body : Nat → σ → Except ε (ForInStep σ)} (Good : List Nat → σ → Prop)
    (hbody : ∀ n ns s s', Good (n :: ns) s → body n s = .ok (.yield s') →
      next s' n = .ok ns.head? ∧ Good ns s')
    (h : Good ns s) (hfuel : ns.length ≤ fuel) :
    (forEach next body fuel ns.head? s).run = some (forIn ns s body) := by
  induction ns generalizing fuel s with
  | nil => cases fuel <;> rfl
  | cons n ns ih =>
    obtain ⟨fuel, rfl⟩ : ∃ k, fuel = k + 1 := Nat.exists_eq_add_one.mpr (by simp at hfuel; omega)
    simp only [List.length_cons, Nat.add_le_add_iff_right] at hfuel
    rw [List.head?_cons, forEach, List.forIn_cons]
    -- the loop ends where the body is done, and at the end of the list
    cases hs : body n s with
    | error f => rfl
    | ok r =>
      cases r with
      | done s' => rfl
      | yield s' =>
        obtain ⟨hnext, hgood⟩ := hbody n ns s s' h hs
        have hrest := ih hgood hfuel
        show (do let cur ← ExceptT.mk (some (next s' n)); forEach next body fuel cur s').run = _
        rw [hnext]
        exact hrest

/-- A loop that reads on first may free the element. -/
theorem forEachSafe_eq_foldlM {body : Nat → σ → Except ε σ} (Good : List Nat → σ → Prop)
    (hnext : ∀ n ns s, Good (n :: ns) s → next s n = .ok ns.head?)
    (hbody : ∀ n ns s s', Good (n :: ns) s → body n s = .ok s' → Good ns s')
    (h : Good ns s) (hfuel : ns.length ≤ fuel) :
    (forEachSafe next body fuel ns.head? s).run =
      some (ns.foldlM (fun s n => body n s) s) := by
  induction ns generalizing fuel s with
  | nil => cases fuel <;> rfl
  | cons n ns ih =>
    obtain ⟨fuel, rfl⟩ : ∃ k, fuel = k + 1 := Nat.exists_eq_add_one.mpr (by simp at hfuel; omega)
    simp only [List.length_cons, Nat.add_le_add_iff_right] at hfuel
    rw [List.head?_cons, forEachSafe, List.foldlM_cons, hnext n ns s h]
    cases hs : body n s with
    | error f => rfl
    | ok s' => exact ih (hbody n ns s s' h hs) hfuel

end Loops

/-! ### Queues -/

/-- The links from a place on lead through the elements to the end, and back. -/
inductive Chain (m : Memory α) : Link → Option Nat → List Nat → Link → Prop
  | nil (link : Link) : Chain m link none [] link
  | cons {link last : Link} {n : Nat} {elem : Elem α} {ns : List Nat} (h : m.elems n = some elem)
    (hprev : elem.prev = link) (hrest : Chain m (.next n) elem.next ns last) :
    Chain m link (some n) (n :: ns) last

variable {m m' : Memory α} {link last : Link} {cur : Option Nat} {n q : Nat} {ns : List Nat}

namespace Chain

/-- A chain is entered at its first element. -/
theorem eq_head? (h : Chain m link cur ns last) : cur = ns.head? := by
  cases h <;> rfl

/-- The elements of a chain are allocated. -/
theorem elems_ne_none (h : Chain m link cur ns last) (hn : n ∈ ns) : m.elems n ≠ none := by
  induction h with
  | nil => cases hn
  | cons helem _ _ ih =>
    obtain rfl | hn := List.mem_cons.mp hn
    · exact helem ▸ Option.some_ne_none _
    · exact ih hn

/-- A chain depends on its own elements only. -/
theorem congr (h : Chain m link cur ns last) (hsame : ∀ n ∈ ns, m'.elems n = m.elems n) :
    Chain m' link cur ns last := by
  induction h with
  | nil link => exact .nil link
  | cons helem hprev _ ih =>
    exact .cons ((hsame _ List.mem_cons_self).trans helem) hprev
      (ih fun n hn => hsame n (List.mem_cons_of_mem _ hn))

/-- From an element the chain goes on to the next one. -/
theorem next_eq (h : Chain m link cur ns last) {i : Nat} (hn : ns[i]? = some n) :
    ∃ elem, m.elems n = some elem ∧ elem.next = ns[i + 1]? := by
  induction h generalizing i with
  | nil => cases hn
  | cons helem _ hrest ih =>
    cases i with
    | zero =>
      obtain rfl := Option.some.inj hn
      exact ⟨_, helem, hrest.eq_head?.trans List.head?_eq_getElem?⟩
    | succ i => exact ih hn

end Chain

/-- At an address there is the head of a queue of these elements. -/
def Queue (m : Memory α) (q : Nat) (ns : List Nat) : Prop :=
  ns.Nodup ∧ ∃ head, m.heads q = some head ∧ Chain m (.first q) head.first ns head.last

/-- A queue depends on its head and its elements alone. -/
theorem Queue.congr (h : Queue m q ns) (hhead : m'.heads q = m.heads q)
    (hsame : ∀ n ∈ ns, m'.elems n = m.elems n) : Queue m' q ns := by
  obtain ⟨hnodup, head, hq, hchain⟩ := h
  exact ⟨hnodup, head, hhead.trans hq, hchain.congr hsame⟩

/-- A head that has just been made is an empty queue. -/
theorem queue_newHead (m : Memory α) : Queue m.newHead m.headsMade [] :=
  ⟨List.nodup_nil, _, Function.update_self _ _ _, .nil _⟩

/-- What `TAILQ_INSERT_HEAD` does in an empty queue. -/
theorem insertHead_of_none {head : Head} {elem : Elem α} (hq : m.heads q = some head)
    (hfirst : head.first = none) (helem : m.elems n = some elem) :
    m.insertHead q n = some ((m.setElem n { elem with next := none, prev := .first q }).setHead q
      ⟨some n, .next n⟩) := by
  simp [Memory.insertHead, hq, hfirst, helem, Memory.setElem, Memory.setHead]

/-- What it does in a queue that has a first element. -/
theorem insertHead_of_some {head : Head} {elem firstElem : Elem α} {f : Nat}
    (hq : m.heads q = some head) (hfirst : head.first = some f) (helem : m.elems n = some elem)
    (hf : m.elems f = some firstElem) (hne : n ≠ f) :
    m.insertHead q n = some (((m.setElem n { elem with next := some f, prev := .first q }).setElem f
      { firstElem with prev := .next n }).setHead q { head with first := some n }) := by
  simp [Memory.insertHead, hq, hfirst, helem, hf, hne, hne.symm, Memory.setElem, Memory.setHead,
    Function.update_comm hne]

/-- The data stays where only links are set. -/
theorem data_setElem {elem elem' : Elem α} (helem : m.elems n = some elem)
    (hdata : elem'.data = elem.data) (k : Nat) :
    ((m.setElem n elem').elems k).map Elem.data = (m.elems k).map Elem.data := by
  by_cases hk : k = n
  · subst hk
    simp only [Memory.setElem, Function.update_self, helem, Option.map_some, hdata]
  · simp only [Memory.setElem, Function.update_of_ne hk]

/-- An element is put before the others. Nothing is changed but its links and the way back from the
    one that was first. -/
theorem insertHead_queue {elem : Elem α} (h : Queue m q ns) (hn : n ∉ ns)
    (helem : m.elems n = some elem) :
    ∃ m', m.insertHead q n = some m' ∧ Queue m' q (n :: ns) ∧
      (∀ k, (m'.elems k).map Elem.data = (m.elems k).map Elem.data) ∧
      (∀ k ∉ n :: ns, m'.elems k = m.elems k) ∧ (∀ r ≠ q, m'.heads r = m.heads r) ∧
      m'.headsMade = m.headsMade ∧ m'.elemsMade = m.elemsMade := by
  obtain ⟨hnodup, ⟨first, last⟩, hq, hchain⟩ := h
  have hnodup' : (n :: ns).Nodup := List.nodup_cons.mpr ⟨hn, hnodup⟩
  cases hchain with
  | nil =>
    refine ⟨_, insertHead_of_none hq rfl helem, ⟨hnodup', _, Function.update_self _ _ _, ?_⟩, ?_⟩
    · exact .cons (Function.update_self _ _ _) rfl (.nil _)
    · refine ⟨data_setElem helem rfl, fun k hk => ?_, fun r hr => ?_, rfl, rfl⟩
      · exact Function.update_of_ne (List.ne_of_not_mem_cons hk) _ _
      · exact Function.update_of_ne hr _ _
  | @cons _ _ f firstElem ns hf hprev hrest =>
    have hne : n ≠ f := fun heq => hn (heq ▸ List.mem_cons_self)
    refine ⟨_, insertHead_of_some hq rfl helem hf hne,
      ⟨hnodup', _, Function.update_self _ _ _, ?_⟩, fun k => ?_, fun k hk => ?_, fun r hr => ?_,
      rfl, rfl⟩
    · refine .cons (Function.update_of_ne hne _ _ |>.trans (Function.update_self _ _ _)) rfl
        (.cons (Function.update_self _ _ _) rfl (hrest.congr fun k hk => ?_))
      -- the others come after the one that was first
      have hkf : k ≠ f := fun heq => (List.nodup_cons.mp hnodup).1 (heq ▸ hk)
      have hkn : k ≠ n := fun heq => hn (heq ▸ List.mem_cons_of_mem _ hk)
      simp [Memory.setHead, Memory.setElem, hkf, hkn]
    · have hf' : (m.setElem n { elem with next := some f, prev := .first q }).elems f =
          some firstElem := (Function.update_of_ne hne.symm _ _).trans hf
      refine (data_setElem hf' ?_ k).trans (data_setElem helem ?_ k)
      · rfl
      · rfl
    · obtain ⟨hkn, hk⟩ := not_or.mp (mt List.mem_cons.mpr hk)
      simp [Memory.setHead, Memory.setElem, hkn, List.ne_of_not_mem_cons hk]
    · exact Function.update_of_ne hr _ _

/-! ### Memories -/

/-- The memory has these queues, by the order in which their heads have been made, and nothing
    else. -/
structure Holds (m : Memory α) (qs : Nat → Option (List Nat)) : Prop where
  queue : ∀ {q ns}, qs q = some ns → Queue m q ns
  gone : ∀ {q}, qs q = none → m.heads q = none
  disjoint : ∀ {q r ns ns' n}, qs q = some ns → qs r = some ns' → n ∈ ns → n ∈ ns' → q = r
  held : ∀ {n}, m.elems n ≠ none → ∃ q ns, qs q = some ns ∧ n ∈ ns
  elemsMade : ∀ {n}, m.elems n ≠ none → n < m.elemsMade
  headsMade : ∀ {q}, m.heads q ≠ none → q < m.headsMade

/-- What is read from an updated function is the update at its argument, and what was there
    elsewhere. -/
theorem update_eq_some_iff {β : Type} {f : Nat → Option β} {a x : Nat} {b y : β} :
    Function.update f a (some b) x = some y ↔ x = a ∧ b = y ∨ x ≠ a ∧ f x = some y := by
  by_cases hx : x = a
  · subst hx
    simp
  · simp [hx]

namespace Holds

variable {qs : Nat → Option (List Nat)}

/-- An empty memory holds no queues. -/
theorem empty : Holds (.empty : Memory α) fun _ => none where
  queue := nofun
  gone _ := rfl
  disjoint := nofun
  held h := (h rfl).elim
  elemsMade h := (h rfl).elim
  headsMade h := (h rfl).elim

/-- The elements of a queue that is held are allocated. -/
theorem elems_ne_none (h : Holds m qs) (hq : qs q = some ns) (hn : n ∈ ns) :
    m.elems n ≠ none := by
  obtain ⟨-, head, -, hchain⟩ := h.queue hq
  exact hchain.elems_ne_none hn

/-- The head of a queue that is held is allocated. -/
theorem heads_ne_none (h : Holds m qs) (hq : qs q = some ns) : m.heads q ≠ none := by
  obtain ⟨-, head, hhead, -⟩ := h.queue hq
  exact hhead ▸ Option.some_ne_none _

/-- A loop over a queue has no more rounds than elements have ever been made. -/
theorem length_le (h : Holds m qs) (hq : qs q = some ns) : ns.length ≤ m.elemsMade := by
  calc ns.length = ns.toFinset.card := (List.toFinset_card_of_nodup (h.queue hq).1).symm
    _ ≤ (Finset.range m.elemsMade).card := by
      refine Finset.card_le_card fun n hn => Finset.mem_range.mpr (h.elemsMade ?_)
      exact h.elems_ne_none hq (List.mem_toFinset.mp hn)
    _ = m.elemsMade := Finset.card_range _

/-- A head that has just been made is held as an empty queue, beside the others. -/
theorem newHead (h : Holds m qs) :
    Holds m.newHead (Function.update qs m.headsMade (some [])) := by
  -- no queue was at the head that has just been made
  have hnew : ∀ {q ns}, qs q = some ns → q ≠ m.headsMade :=
    fun hq => (h.headsMade (h.heads_ne_none hq)).ne
  refine ⟨fun hq => ?_, fun {q} hq => ?_, fun hq hr hn hn' => ?_, fun hn => ?_, h.elemsMade,
    fun {q} hq => ?_⟩
  -- one after the other: the queue, what is gone, no sharing, nothing left over, the bounds
  · obtain ⟨rfl, rfl⟩ | ⟨hne, hq⟩ := update_eq_some_iff.mp hq
    · exact queue_newHead m
    · exact (h.queue hq).congr (Function.update_of_ne hne _ _) fun _ _ => rfl
  · by_cases hne : q = m.headsMade
    · subst hne
      rw [Function.update_self] at hq
      cases hq
    · rw [Function.update_of_ne hne] at hq
      exact (Function.update_of_ne hne _ _).trans (h.gone hq)
  · obtain ⟨-, rfl⟩ | ⟨-, hq⟩ := update_eq_some_iff.mp hq
    · cases hn
    · obtain ⟨-, rfl⟩ | ⟨-, hr⟩ := update_eq_some_iff.mp hr
      · cases hn'
      · exact h.disjoint hq hr hn hn'
  · obtain ⟨q, ns, hq, hmem⟩ := h.held hn
    exact ⟨q, ns, (Function.update_of_ne (hnew hq) _ _).trans hq, hmem⟩
  · by_cases hne : q = m.headsMade
    · rw [hne]
      exact Nat.lt_succ_self _
    · exact (h.headsMade ((Function.update_of_ne hne _ _).symm.trans_ne hq)).trans
        (Nat.lt_succ_self _)

/-- A new element is put before the others of a queue. -/
theorem insertHead (h : Holds m qs) (hq : qs q = some ns) (elem : Elem α) :
    ∃ m', (m.newElem elem).insertHead q m.elemsMade = some m' ∧
      Holds m' (Function.update qs q (some (m.elemsMade :: ns))) ∧
      (m'.elems m.elemsMade).map Elem.data = some elem.data ∧
      (∀ k ≠ m.elemsMade, (m'.elems k).map Elem.data = (m.elems k).map Elem.data) ∧
      (∀ r ns', r ≠ q → qs r = some ns' → ∀ k ∈ ns', m'.elems k = m.elems k) ∧
      (∀ r ≠ q, m'.heads r = m.heads r) ∧ m'.headsMade = m.headsMade := by
  have hnew : ∀ {r ns' k}, qs r = some ns' → k ∈ ns' → k ≠ m.elemsMade :=
    fun hr hk => (h.elemsMade (h.elems_ne_none hr hk)).ne
  have hold : ∀ k ≠ m.elemsMade, (m.newElem elem).elems k = m.elems k :=
    fun k hk => Function.update_of_ne hk _ _
  have helem : (m.newElem elem).elems m.elemsMade = some elem := Function.update_self _ _ _
  have hqueue : Queue (m.newElem elem) q ns :=
    (h.queue hq).congr rfl fun k hk => hold k (hnew hq hk)
  obtain ⟨m', hm', hqueue', hdata, hother, hheads, hheadsMade, helemsMade⟩ :=
    insertHead_queue hqueue (fun hn => hnew hq hn rfl) helem
  -- the elements of the other queues stay as they are
  have hothers : ∀ r ns', r ≠ q → qs r = some ns' → ∀ k ∈ ns', m'.elems k = m.elems k := by
    intro r ns' hrq hr k hk
    refine (hother k fun hmem => ?_).trans (hold k (hnew hr hk))
    obtain heq | hmem := List.mem_cons.mp hmem
    · exact hnew hr hk heq
    · exact hrq (h.disjoint hr hq hk hmem)
  have hdata' : ∀ k ≠ m.elemsMade,
      (m'.elems k).map Elem.data = (m.elems k).map Elem.data :=
    fun k hk => (hdata k).trans (congrArg _ (hold k hk))
  refine ⟨m', hm', ⟨fun {r ns'} hr => ?_, fun {r} hr => ?_,
    fun {r r' ns' ns'' k} hr hr' hk hk' => ?_, fun {k} hk => ?_, fun {k} hk => ?_,
    fun {r} hr => ?_⟩, ?_, hdata', hothers, hheads, hheadsMade⟩
  · obtain ⟨rfl, rfl⟩ | ⟨hne, hr⟩ := update_eq_some_iff.mp hr
    · exact hqueue'
    · exact (h.queue hr).congr (hheads r hne) (hothers r ns' hne hr)
  · have hne : r ≠ q := by
      rintro rfl
      rw [Function.update_self] at hr
      cases hr
    rw [Function.update_of_ne hne] at hr
    exact (hheads r hne).trans (h.gone hr)
  · obtain ⟨heq, rfl⟩ | ⟨-, hr₁⟩ := update_eq_some_iff.mp hr <;>
      obtain ⟨heq', rfl⟩ | ⟨-, hr₂⟩ := update_eq_some_iff.mp hr'
    · exact heq.trans heq'.symm
    · obtain rfl | hk := List.mem_cons.mp hk
      · exact absurd rfl (hnew hr₂ hk')
      · exact heq.trans (h.disjoint hq hr₂ hk hk')
    · obtain rfl | hk' := List.mem_cons.mp hk'
      · exact absurd rfl (hnew hr₁ hk)
      · exact (h.disjoint hr₁ hq hk hk').trans heq'.symm
    · exact h.disjoint hr₁ hr₂ hk hk'
  · by_cases hkn : k = m.elemsMade
    · exact ⟨q, _, Function.update_self _ _ _, hkn ▸ List.mem_cons_self⟩
    · have hk' : m.elems k ≠ none := fun hnone => hk (by simpa [hnone] using hdata' k hkn)
      obtain ⟨r, ns', hr, hmem⟩ := h.held hk'
      by_cases hrq : r = q
      · subst hrq
        obtain rfl : ns = ns' := Option.some.inj (hq.symm.trans hr)
        exact ⟨r, _, Function.update_self _ _ _, List.mem_cons_of_mem _ hmem⟩
      · exact ⟨r, ns', (Function.update_of_ne hrq _ _).trans hr, hmem⟩
  · rw [helemsMade]
    by_cases hkn : k = m.elemsMade
    · exact hkn ▸ Nat.lt_succ_self _
    · have hk' : m.elems k ≠ none := fun hnone => hk (by simpa [hnone] using hdata' k hkn)
      exact (h.elemsMade hk').trans (Nat.lt_succ_self _)
  · rw [hheadsMade]
    by_cases hrq : r = q
    · exact hrq ▸ h.headsMade (h.heads_ne_none hq)
    · exact h.headsMade (hheads r hrq ▸ hr)
  · exact (hdata _).trans (congrArg _ helem)

/-- The elements of a queue are freed, and its head. -/
theorem delete (h : Holds m qs) (hq : qs q = some ns) :
    Holds ((m.freeElems ns).freeHead q) (Function.update qs q none) := by
  -- the elements of this queue have gone, and no others
  have helems : ∀ k, ((m.freeElems ns).freeHead q).elems k = if k ∈ ns then none else m.elems k :=
    m.elems_freeElems ns
  have hheads : ∀ r ≠ q, ((m.freeElems ns).freeHead q).heads r = m.heads r := fun r hr => by
    rw [Memory.freeHead, Memory.heads_freeElems]
    exact Function.update_of_ne hr _ _
  have hold : ∀ {r ns'}, Function.update qs q none r = some ns' → r ≠ q ∧ qs r = some ns' := by
    intro r ns' hr
    by_cases hrq : r = q
    · subst hrq
      rw [Function.update_self] at hr
      cases hr
    · exact ⟨hrq, by rwa [Function.update_of_ne hrq] at hr⟩
  refine ⟨fun {r ns'} hr => ?_, fun {r} hr => ?_, fun hr hr' hk hk' => ?_, fun {k} hk => ?_,
    fun {k} hk => ?_, fun {r} hr => ?_⟩
  -- the other queues have kept their elements, as none is shared
  · obtain ⟨hrq, hr⟩ := hold hr
    refine (h.queue hr).congr (hheads r hrq) fun k hk => (helems k).trans (if_neg fun hmem => ?_)
    exact hrq (h.disjoint hr hq hk hmem)
  · by_cases hrq : r = q
    · subst hrq
      exact Function.update_self _ _ _
    · rw [Function.update_of_ne hrq] at hr
      exact (hheads r hrq).trans (h.gone hr)
  · exact h.disjoint (hold hr).2 (hold hr').2 hk hk'
  -- what is still there is held by another queue
  · rw [helems] at hk
    have hmem : k ∉ ns := fun hmem => hk (if_pos hmem)
    rw [if_neg hmem] at hk
    obtain ⟨r, ns', hr, hk'⟩ := h.held hk
    have hrq : r ≠ q := by
      rintro rfl
      obtain rfl : ns = ns' := Option.some.inj (hq.symm.trans hr)
      exact hmem hk'
    exact ⟨r, ns', (Function.update_of_ne hrq _ _).trans hr, hk'⟩
  · rw [helems] at hk
    have hmem : k ∉ ns := fun hmem => hk (if_pos hmem)
    rw [if_neg hmem] at hk
    exact (h.elemsMade hk).trans_eq (m.elemsMade_freeElems ns).symm
  · have hrq : r ≠ q := by
      rintro rfl
      exact hr (Function.update_self _ _ _)
    rw [hheads r hrq] at hr
    exact (h.headsMade hr).trans_eq (m.headsMade_freeElems ns).symm

/-- From an element of a queue on to the next. -/
theorem next_eq (h : Holds m qs) (hq : qs q = some ns) {i : Nat} (hn : ns[i]? = some n) :
    ∃ elem, m.elems n = some elem ∧ elem.next = ns[i + 1]? := by
  obtain ⟨-, head, -, hchain⟩ := h.queue hq
  exact hchain.next_eq hn

/-- The head of a queue that is held points to its first element. -/
theorem first_eq (h : Holds m qs) (hq : qs q = some ns) :
    ∃ head, m.heads q = some head ∧ head.first = ns.head? := by
  obtain ⟨-, head, hhead, hchain⟩ := h.queue hq
  exact ⟨head, hhead, hchain.eq_head?⟩

end Holds

end TailQueue
