import Mathlib

/-!
# List lemmas

Generic facts about reading the first `n` values of a function into a list, used for
arrays given by an access function, and about lists behind each other.
-/

namespace List

variable {β : Type*}

/-- Exchanging two numbers below `n` permutes `range n`. -/
theorem map_swap_range_perm {n i j : Nat} (hi : i < n) (hj : j < n) :
    ((range n).map (Equiv.swap i j)).Perm (range n) := by
  rw [perm_ext_iff_of_nodup (nodup_range.map (Equiv.swap i j).injective) nodup_range]
  intro x
  simp only [mem_map, mem_range]
  constructor
  · rintro ⟨y, hy, rfl⟩
    rw [Equiv.swap_apply_def]
    split
    · exact hj
    · split
      · exact hi
      · exact hy
  · intro hx
    refine ⟨Equiv.swap i j x, ?_, Equiv.swap_apply_self i j x⟩
    rw [Equiv.swap_apply_def]
    split
    · exact hj
    · split
      · exact hi
      · exact hx

/-- The values of `f` below `n`, in order, where it has one. -/
def valuesBelow (f : Nat → Option β) (n : Nat) : List β := (range n).filterMap f

/-- The values below a successor are those below it and its own. -/
theorem valuesBelow_succ (f : Nat → Option β) (n : Nat) :
    valuesBelow f (n + 1) = valuesBelow f n ++ (f n).toList := by
  rw [valuesBelow, range_succ, filterMap_append, valuesBelow]
  cases h : f n <;> simp [h]

/-- The values depend on the function below the bound alone. -/
theorem valuesBelow_congr {f g : Nat → Option β} {n : Nat} (h : ∀ i < n, f i = g i) :
    valuesBelow f n = valuesBelow g n :=
  filterMap_congr fun i hi => h i (mem_range.mp hi)

/-- Exchanging two arguments below `n` permutes the values below `n`. -/
theorem valuesBelow_swap_perm (f : Nat → Option β) {n i j : Nat} (hi : i < n) (hj : j < n) :
    (valuesBelow (fun x => f (Equiv.swap i j x)) n).Perm (valuesBelow f n) := by
  have hmap : valuesBelow (fun x => f (Equiv.swap i j x)) n =
      ((range n).map (Equiv.swap i j)).filterMap f := by
    rw [filterMap_map]; rfl
  rw [hmap]
  exact (map_swap_range_perm hi hj).filterMap f

/-- With `n` positive, the value at `0` comes first and the one at `n - 1` last: dropping
    the first and putting the last in its place leaves the values between them. -/
theorem valuesBelow_replace_head_perm {f g : Nat → Option β} {n : Nat} {x : β}
    (hx : f 0 = some x) (h0 : g 0 = f n) (hg : ∀ i, 0 < i → i < n → g i = f i) (hn : 0 < n) :
    (valuesBelow f (n + 1)).Perm (x :: valuesBelow g n) := by
  obtain ⟨m, rfl⟩ : ∃ m, n = m + 1 := ⟨n - 1, by omega⟩
  -- the values between the first and the last are the same
  have hmid : ∀ i ∈ (range m).map Nat.succ, g i = f i := by
    intro i hi
    simp only [mem_map, mem_range] at hi
    obtain ⟨j, hj, rfl⟩ := hi
    exact hg _ (Nat.succ_pos j) (by omega)
  rw [valuesBelow_succ, valuesBelow, valuesBelow, range_succ_eq_map,
    filterMap_cons_some hx, cons_append, perm_cons]
  -- the last value comes first in `g`, or there is none
  cases hlast : f (m + 1) with
  | none => rw [filterMap_cons_none (h0.trans hlast)]; simp [filterMap_congr hmid]
  | some y =>
    rw [filterMap_cons_some (h0.trans hlast)]
    rw [filterMap_congr hmid]
    exact perm_append_comm

/-- The first field of a list is what comes before the first separator, and the others are
    the fields of what comes behind it. -/
theorem splitOn_eq_takeWhile_cons [DecidableEq β] (sep : β) (s : List β) :
    s.splitOn sep = s.takeWhile (· ≠ sep) ::
      ((s.dropWhile (· ≠ sep)).tail?.map (·.splitOn sep)).getD [] := by
  induction s with
  | nil => rfl
  | cons x s ih =>
    rw [splitOn_cons_eq_if_modifyHead]
    -- a separator in front makes an empty field; anything else goes into the first
    by_cases hx : x = sep
    · simp [hx]
    · rw [if_neg (by simpa using hx), ih]
      simp [hx]

/-- Replacing an element changes a sum by what the two count. -/
theorem sum_map_set (f : β → Nat) {l : List β} {i : Nat} {x : β} (hx : l[i]? = some x) (y : β) :
    ((l.set i y).map f).sum + f x = (l.map f).sum + f y := by
  induction l generalizing i with
  | nil => cases hx
  | cons z l ih =>
    cases i with
    | zero =>
      obtain rfl : z = x := by simpa using hx
      simp only [set_cons_zero, map_cons, sum_cons]
      omega
    | succ i =>
      have hrest := ih (i := i) (by simpa using hx)
      simp only [set_cons_succ, map_cons, sum_cons]
      omega

/-- Where every step of a fold sets a value or leaves it as it is, the last that sets it
    counts. -/
theorem foldl_eq_getD_findSome?_reverse {σ α : Type*} (get : σ → β) (f : σ → α → σ)
    (g : α → Option β) (hstep : ∀ s a, get (f s a) = (g a).getD (get s)) (l : List α) (s : σ) :
    get (l.foldl f s) = (l.reverse.findSome? g).getD (get s) := by
  induction l generalizing s with
  | nil => rfl
  | cons a l ih =>
    rw [foldl_cons, ih, hstep, reverse_cons, findSome?_append]
    cases hl : l.reverse.findSome? g with
    | some b => rfl
    | none => cases ha : g a <;> simp [ha]

/-- Searching does not depend on the order if all that can be found is the same. -/
theorem findSome?_perm {α : Type*} {f : α → Option β} {l l' : List α} (h : l.Perm l')
    (hsame : ∀ a ∈ l, ∀ b ∈ l, ∀ x y, f a = some x → f b = some y → x = y) :
    l.findSome? f = l'.findSome? f := by
  cases hl' : l'.findSome? f with
  | none =>
    rw [findSome?_eq_none_iff] at hl' ⊢
    intro a ha
    exact hl' a (h.mem_iff.mp ha)
  | some y =>
    obtain ⟨b, hb, hy⟩ := exists_of_findSome?_eq_some hl'
    cases hl : l.findSome? f with
    | none =>
      have hnone := findSome?_eq_none_iff.mp hl b (h.mem_iff.mpr hb)
      rw [hy] at hnone
      cases hnone
    | some x =>
      obtain ⟨a, ha, hx⟩ := exists_of_findSome?_eq_some hl
      exact congrArg some (hsame a ha b (h.mem_iff.mpr hb) x y hx hy)

/-- Searching what a partial function gives is searching with both. -/
theorem findSome?_filterMap {α γ : Type*} (f : α → Option β) (g : β → Option γ) (l : List α) :
    (l.filterMap f).findSome? g = l.findSome? fun x => (f x).bind g := by
  rw [← head?_filterMap, filterMap_filterMap, head?_filterMap]

/-- The first of some lists that is not empty is the first of them only if that one is not
    empty, or all are. -/
theorem findSome?_getD_eq_head?_getD_iff {α : Type*} [DecidableEq β] (f : α → List β)
    (l : List α) :
    (l.findSome? fun x => if f x = [] then none else some (f x)).getD [] =
        (l.head?.map f).getD [] ↔
      (∀ x ∈ l, f x = []) ∨ ∃ x, l.head? = some x ∧ f x ≠ [] := by
  cases l with
  | nil => simp
  | cons x l =>
    by_cases hx : f x = []
    · -- the search goes on behind an empty list
      cases hfind : l.findSome? fun x => if f x = [] then none else some (f x) with
      | none =>
        have hall : ∀ y ∈ l, f y = [] := by simpa using hfind
        simpa [hx, hfind] using hall
      | some val =>
        obtain ⟨y, hy, hval⟩ := exists_of_findSome?_eq_some hfind
        obtain ⟨hne, rfl⟩ : f y ≠ [] ∧ f y = val := by simpa using hval
        have hsome : ¬ ∀ z ∈ l, f z = [] := fun h => hne (h y hy)
        simpa [hx, hfind, hne] using hsome
    · simp [hx]

/-- What comes before a first `sep`, and what comes behind it. -/
theorem append_cons_inj_of_notMem_left {sep : β} {x y r s : List β} (hx : sep ∉ x) (hy : sep ∉ y)
    (h : x ++ sep :: r = y ++ sep :: s) : x = y ∧ r = s := by
  obtain ⟨t, ht, hrest⟩ | ⟨t, ht, hrest⟩ := append_eq_append_iff.mp h
  all_goals
    cases t with
    | nil =>
      rw [append_nil] at ht
      cases hrest
      exact ⟨by rw [ht], rfl⟩
    | cons c t =>
      cases hrest
      simp [ht] at hx hy

/-- Lists that lack what ends each of them can be told from all of them behind each other. -/
theorem flatMap_terminated_inj {sep : β} {xs ys : List (List β)} (hxs : ∀ x ∈ xs, sep ∉ x)
    (hys : ∀ y ∈ ys, sep ∉ y)
    (h : xs.flatMap (· ++ [sep]) = ys.flatMap (· ++ [sep])) : xs = ys := by
  induction xs generalizing ys with
  | nil =>
    cases ys with
    | nil => rfl
    | cons y ys => simp at h
  | cons x xs ih =>
    cases ys with
    | nil => simp at h
    | cons y ys =>
      obtain ⟨hx, hxs'⟩ := forall_mem_cons.mp hxs
      obtain ⟨hy, hys'⟩ := forall_mem_cons.mp hys
      simp only [flatMap_cons, append_assoc, singleton_append] at h
      obtain ⟨rfl, hrest⟩ := append_cons_inj_of_notMem_left hx hy h
      rw [ih hxs' hys' hrest]

end List
