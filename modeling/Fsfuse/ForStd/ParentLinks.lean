import Mathlib

/-!
# Links to parents

Nodes that each have a link to a parent, or none. Where there are finitely many of them and
the links have no cycle, the ancestors of a node end at a top node.
-/

namespace ParentLinks

variable {ι β : Type*} {parent : ι → Option ι} {nodes : Set ι} {i j p : ι}
  {ancestors : List ι}

/-- A node is reached from another by following links. -/
def IsAncestor (parent : ι → Option ι) (p i : ι) : Prop :=
  Relation.TransGen (fun i p => parent i = some p) i p

/-- An ancestor is the parent or one of the parent's ancestors. -/
theorem isAncestor_iff :
    IsAncestor parent p i ↔ ∃ q, parent i = some q ∧ (p = q ∨ IsAncestor parent p q) := by
  rw [IsAncestor, Relation.TransGen.head'_iff]
  simp only [Relation.reflTransGen_iff_eq_or_transGen, IsAncestor]

/-- Trees side by side: there are finitely many nodes, and no way back to any of them. -/
structure IsForest (nodes : Set ι) (parent : ι → Option ι) : Prop where
  finite : nodes.Finite
  parent_mem : ∀ {i p}, i ∈ nodes → parent i = some p → p ∈ nodes
  acyclic : ∀ i ∈ nodes, ¬ IsAncestor parent i i

/-- A tree: there is one top node, and every other leads to it. -/
structure IsTree (nodes : Set ι) (parent : ι → Option ι) : Prop extends IsForest nodes parent where
  one_top : ∀ {i j}, i ∈ nodes → j ∈ nodes → parent i = none → parent j = none → i = j

/-- The ancestors of a node, from its parent to the top. -/
inductive Ancestry (parent : ι → Option ι) : ι → List ι → Prop
  | top {i : ι} (h : parent i = none) : Ancestry parent i []
  | child {i p : ι} {ancestors : List ι} (h : parent i = some p)
      (hp : Ancestry parent p ancestors) : Ancestry parent i (p :: ancestors)

namespace Ancestry

/-- A node has one list of ancestors. -/
theorem unique {ancestors' : List ι} (h : Ancestry parent i ancestors)
    (h' : Ancestry parent i ancestors') : ancestors = ancestors' := by
  induction h generalizing ancestors' with
  | top htop =>
    cases h' with
    | top _ => rfl
    | child hlink _ =>
      rw [htop] at hlink
      cases hlink
  | child hlink _ ih =>
    cases h' with
    | top htop =>
      rw [hlink] at htop
      cases htop
    | child hlink' hp' =>
      rw [hlink] at hlink'
      cases hlink'
      rw [ih hp']

/-- The list of the ancestors has exactly the ancestors. -/
theorem mem_iff (h : Ancestry parent i ancestors) : p ∈ ancestors ↔ IsAncestor parent p i := by
  induction h with
  | top htop =>
    rw [isAncestor_iff, htop]
    simp
  | child hlink _ ih =>
    rw [List.mem_cons, ih, iff_comm, isAncestor_iff, hlink]
    simp

/-- The ancestors of an ancestor are fewer. -/
theorem of_mem (h : Ancestry parent i ancestors) (hp : p ∈ ancestors) :
    ∃ ancestors', Ancestry parent p ancestors' ∧ ancestors'.length < ancestors.length := by
  induction h with
  | top _ => cases hp
  | child hlink hp' ih =>
    obtain rfl | hp := List.mem_cons.mp hp
    · exact ⟨_, hp', Nat.lt_succ_self _⟩
    · obtain ⟨ancestors', h', hlt⟩ := ih hp
      exact ⟨ancestors', h', Nat.lt_succ_of_lt hlt⟩

/-- A node is not among its ancestors. -/
theorem not_mem (h : Ancestry parent i ancestors) : i ∉ ancestors := by
  intro hi
  obtain ⟨ancestors', h', hlt⟩ := h.of_mem hi
  rw [h.unique h'] at hlt
  exact Nat.lt_irrefl _ hlt

/-- The last of its ancestors, if there is any, is at the top. -/
theorem exists_top (h : Ancestry parent i ancestors) (hne : ancestors ≠ []) :
    ∃ t ∈ ancestors, parent t = none := by
  induction h with
  | top _ => exact absurd rfl hne
  | @child i p ancestors _ hp ih =>
    by_cases hnil : ancestors = []
    · subst hnil
      cases hp with
      | top htop => exact ⟨p, List.mem_cons_self, htop⟩
    · obtain ⟨t, ht, htop⟩ := ih hnil
      exact ⟨t, List.mem_cons_of_mem p ht, htop⟩

/-- In a tree where siblings have different labels, the labels on the way to the top tell the
    nodes apart. -/
theorem eq_of_labels {label : ι → β} {ancestors' : List ι} (htree : IsTree nodes parent)
    (hlabel : ∀ i ∈ nodes, ∀ j ∈ nodes, ∀ p, parent i = some p → parent j = some p →
      label i = label j → i = j)
    (hi : i ∈ nodes) (hj : j ∈ nodes) (h : Ancestry parent i ancestors)
    (h' : Ancestry parent j ancestors')
    (heq : (i :: ancestors).map label = (j :: ancestors').map label) : i = j := by
  induction h generalizing j ancestors' with
  | top htop =>
    cases h' with
    | top htop' => exact htree.one_top hi hj htop htop'
    | child _ _ => simp at heq
  | child hlink _ ih =>
    cases h' with
    | top _ => simp at heq
    | child hlink' hp' =>
      obtain ⟨hsame, hrest⟩ := List.cons.inj heq
      have hparents := ih (htree.parent_mem hi hlink) (htree.parent_mem hj hlink') hp' hrest
      rw [← hparents] at hlink'
      exact hlabel _ hi _ hj _ hlink hlink' hsame

end Ancestry

/-! ### Chains -/

/-- The nodes from a first one on, if there is one, to the end of the links. -/
inductive Chain (next : ι → Option ι) : Option ι → List ι → Prop
  | nil : Chain next none []
  | cons {i : ι} {is : List ι} (h : Chain next (next i) is) : Chain next (some i) (i :: is)

/-- The nodes from a first one on, as far as there is fuel to follow the links. -/
def follow (next : ι → Option ι) : Nat → Option ι → List ι
  | _, none => []
  | 0, some _ => []
  | fuel + 1, some i => i :: follow next fuel (next i)

namespace Chain

variable {next : ι → Option ι} {head : Option ι} {is is' : List ι}

/-- What follows a node are its ancestors by the links. -/
theorem ancestry (h : Chain next (next i) is) : Ancestry next i is := by
  generalize hhead : next i = head at h
  induction h generalizing i with
  | nil => exact .top hhead
  | cons _ ih => exact .child hhead (ih rfl)

/-- A node does not follow itself. -/
theorem not_mem (h : Chain next (next i) is) : i ∉ is := h.ancestry.not_mem

/-- Nor does its link lead to itself. -/
theorem link_ne (h : Chain next (next i) is) : next i ≠ some i := by
  intro hlink
  have hnot := h.not_mem
  rw [hlink] at h
  cases h with
  | cons _ => exact hnot List.mem_cons_self

/-- A chain does not come back to where it has been. -/
theorem nodup (h : Chain next head is) : is.Nodup := by
  induction h with
  | nil => exact List.nodup_nil
  | cons h ih => exact List.nodup_cons.mpr ⟨h.not_mem, ih⟩

/-- A node has one chain. -/
theorem unique (h : Chain next head is) (h' : Chain next head is') : is = is' := by
  cases h with
  | nil =>
    cases h'
    rfl
  | cons h =>
    cases h' with
    | cons h' => rw [h.ancestry.unique h'.ancestry]

/-- It is found by following the links. -/
theorem follow_eq (h : Chain next head is) {fuel : Nat} (hfuel : is.length ≤ fuel) :
    follow next fuel head = is := by
  induction h generalizing fuel with
  | nil => cases fuel <;> rfl
  | cons _ ih =>
    obtain ⟨fuel, rfl⟩ := Nat.exists_eq_add_one_of_ne_zero (Nat.ne_zero_of_lt hfuel)
    rw [follow, ih (Nat.le_of_succ_le_succ hfuel)]

end Chain

/-! ### Forests -/

/-- Links that lead to lower nodes only have no cycle. -/
theorem isForest_of_lt [Preorder ι] (hfinite : nodes.Finite)
    (hmem : ∀ {i p}, i ∈ nodes → parent i = some p → p ∈ nodes)
    (hlt : ∀ i p, parent i = some p → p < i) : IsForest nodes parent where
  finite := hfinite
  parent_mem := hmem
  acyclic i _ hcycle := by
    have hdown : ∀ p, IsAncestor parent p i → p < i := by
      intro p hp
      induction hp with
      | single hlink => exact hlt _ _ hlink
      | tail _ hlink ih => exact (hlt _ _ hlink).trans ih
    exact lt_irrefl i (hdown i hcycle)

/-- Every node has a list of ancestors. -/
theorem IsForest.exists_ancestry (hforest : IsForest nodes parent) (hi : i ∈ nodes) :
    ∃ ancestors, Ancestry parent i ancestors := by
  have hfinite : Finite nodes := hforest.finite
  let r : nodes → nodes → Prop := fun p i => IsAncestor parent p.val i.val
  have htrans : IsTrans nodes r := ⟨fun _ _ _ hpq hqi => Relation.TransGen.trans hqi hpq⟩
  have hirrefl : Std.Irrefl r := ⟨fun i => hforest.acyclic i i.property⟩
  have hwf : WellFounded r := Finite.wellFounded_of_trans_of_irrefl r
  suffices h : ∀ i : nodes, ∃ ancestors, Ancestry parent i.val ancestors from h ⟨i, hi⟩
  intro i
  induction i using hwf.induction with
  | _ i ih =>
    cases hlink : parent i.val with
    | none => exact ⟨[], .top hlink⟩
    | some p =>
      obtain ⟨ancestors, hp⟩ := ih ⟨p, hforest.parent_mem i.property hlink⟩ (.single hlink)
      exact ⟨p :: ancestors, .child hlink hp⟩

end ParentLinks
