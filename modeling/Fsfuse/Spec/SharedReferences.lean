import Fsfuse.ForStd.Transition
import Fsfuse.Native.RefCountThreads

/-!
# References shared by threads

An object that threads share is freed by the one that gives up the last reference, and not before,
in whatever order they go. What a thread must not do is read the object when it has given up its
reference. For an indexnode or a listing none does. For a direntry the trace does, so it can be too
late (`exec_new_shared`).
-/

namespace Fsfuse.Native.RefCount

open Transition

/-! ### What a thread is about to do -/

/-- It has the lock. -/
def Phase.Locks : Phase → Prop
  | .inc | .incremented | .dec | .decremented _ => True
  | .idle | .returned _ | .traced _ => False

/-- It is about to use a reference. -/
def Phase.Holds : Phase → Prop
  | .inc | .incremented | .dec => True
  | .idle | .decremented _ | .returned _ | .traced _ => False

/-- It is going to free the object. -/
def Phase.Ends : Phase → Prop
  | .decremented count | .returned count | .traced count => count = 0
  | .idle | .inc | .incremented | .dec => False

variable {ι : Type} [DecidableEq ι] {t u : ι} {phase : ι → Phase} {p : Phase} {holder : Option ι}

/-- The lock is held by the thread that has it. -/
def LockedBy (phase : ι → Phase) (holder : Option ι) : Prop :=
  ∀ u, (phase u).Locks ↔ holder = some u

omit [DecidableEq ι] in
/-- Only one thread at a time is inside the mutex. -/
theorem LockedBy.eq (h : LockedBy phase holder) (ht : (phase t).Locks) (hu : (phase u).Locks) :
    t = u :=
  Option.some.inj (((h t).mp ht).symm.trans ((h u).mp hu))

/-- A free mutex is taken by the thread that goes in. -/
theorem LockedBy.take (h : LockedBy phase none) (hp : p.Locks) :
    LockedBy (Function.update phase t p) (some t) := by
  intro u
  by_cases hut : u = t
  · subst hut
    simp [hp]
  · rw [Function.update_of_ne hut, h u]
    simp [Ne.symm hut]

/-- A mutex is free when the thread that has it goes out. -/
theorem LockedBy.leave (h : LockedBy phase (some t)) (hp : ¬ p.Locks) :
    LockedBy (Function.update phase t p) none := by
  intro u
  by_cases hut : u = t
  · subst hut
    simp [hp]
  · rw [Function.update_of_ne hut, h u]
    simp [Ne.symm hut]

/-- A thread that stays inside, or outside, leaves the mutex as it is. -/
theorem LockedBy.keep (h : LockedBy phase holder) (hp : p.Locks ↔ (phase t).Locks) :
    LockedBy (Function.update phase t p) holder := by
  intro u
  by_cases hut : u = t
  · subst hut
    rw [Function.update_self, hp, h u]
  · rw [Function.update_of_ne hut, h u]

namespace State

variable [Fintype ι] {s s' : State ι} {reads : Bool} {obj : RefCount ι}

/-! ### References -/

/-- The references of all threads. -/
def total (s : State ι) : Nat := ∑ u, s.handles u

/-- Where one thread has other handles the sum changes by the difference. -/
theorem sum_update (handles : ι → Nat) (t : ι) (n : Nat) :
    ∑ u, Function.update handles t n u + handles t = ∑ u, handles u + n := by
  have hsplit := Finset.sum_eq_add_sum_sdiff_singleton_of_mem (Finset.mem_univ t) handles
  rw [Finset.sum_update_of_mem (Finset.mem_univ t)]
  omega

omit [DecidableEq ι] in
/-- No thread has more references than all have together. -/
theorem handles_le_total (s : State ι) (t : ι) : s.handles t ≤ s.total :=
  Finset.single_le_sum (fun _ _ => Nat.zero_le _) (Finset.mem_univ t)

omit [DecidableEq ι] in
/-- There are no references exactly if no thread has one. -/
theorem total_eq_zero_iff : s.total = 0 ↔ ∀ u, s.handles u = 0 := by
  rw [total, Finset.sum_eq_zero_iff]
  simp

/-- The count has room for the step. -/
def Room (s : State ι) : Label ι → Prop
  | .increment _ => s.total + 1 < 2 ^ 32
  | _ => True

instance (s : State ι) : DecidablePred s.Room
  | .increment _ => inferInstanceAs (Decidable (_ < _))
  | .use _ | .handOver _ _ | .copy _ | .delete _ | .decrement _ | .unlock _ | .trace _
  | .free _ => isTrue trivial

/-! ### The invariant -/

/-- The count is that of the references, and while there are none somebody is about to free the
    object, once. -/
structure Inv (s : State ι) : Prop where
  count : ∀ obj, s.obj = some obj → obj.refCount.toNat = s.total
  locked : ∀ obj, s.obj = some obj → LockedBy s.phase obj.lock
  holds : ∀ t, (s.phase t).Holds → s.handles t ≠ 0
  decremented : ∀ t count, s.phase t = .decremented count → count.toNat = s.total
  ends : ∀ t, (s.phase t).Ends → s.total = 0 ∧ s.obj ≠ none
  once : ∀ t u, (s.phase t).Ends → (s.phase u).Ends → t = u
  unused : s.total = 0 → s.obj ≠ none → ∃ t, (s.phase t).Ends
  gone : s.obj = none → s.total = 0 ∧ ∀ t, ¬ (s.phase t).Locks

omit [DecidableEq ι] in
/-- While a thread is about to use its reference there is one. -/
theorem Inv.total_ne_zero (h : s.Inv) (ht : (s.phase t).Holds) : s.total ≠ 0 := by
  have hle := s.handles_le_total t
  have hne := h.holds t ht
  omega

omit [DecidableEq ι] in
/-- While a thread is inside the mutex the object is there. -/
theorem Inv.exists_obj (h : s.Inv) (ht : (s.phase t).Locks) : ∃ obj, s.obj = some obj :=
  Option.ne_none_iff_exists'.mp fun hnone => (h.gone hnone).2 t ht

/-- A thread moves on, and no reference changes hands. -/
theorem Inv.move (h : s.Inv) {obj' : Option (RefCount ι)}
    (hends : p.Ends ↔ (s.phase t).Ends)
    (hobj : obj'.map RefCount.refCount = s.obj.map RefCount.refCount)
    (hlocked : ∀ obj, obj' = some obj → LockedBy (Function.update s.phase t p) obj.lock)
    (hholds : p.Holds → s.handles t ≠ 0) (hdecremented : ∀ count, p ≠ .decremented count)
    (hgone : s.obj = none → ¬ p.Locks) :
    Inv { s with obj := obj', phase := Function.update s.phase t p } := by
  have hnone : obj' = none ↔ s.obj = none := by
    rw [← Option.map_eq_none_iff, hobj, Option.map_eq_none_iff]
  -- the same threads are going to free the object
  have hends' : ∀ u, (Function.update s.phase t p u).Ends ↔ (s.phase u).Ends := by
    intro u
    by_cases hut : u = t
    · rw [hut, Function.update_self, hends]
    · rw [Function.update_of_ne hut]
  refine ⟨fun obj ho => ?_, hlocked, fun u hu => ?_, fun u count hu => ?_, fun u hu => ?_,
    fun u v hu hv => ?_, fun hzero hne => ?_, fun ho => ?_⟩
  · dsimp only at ho
    rw [ho, Option.map_some] at hobj
    obtain ⟨obj₀, hobj₀, heq⟩ := Option.map_eq_some_iff.mp hobj.symm
    rw [← heq]
    exact h.count obj₀ hobj₀
  -- of the threads only this one has moved
  · dsimp only at hu
    by_cases hut : u = t
    · subst hut
      rw [Function.update_self] at hu
      exact hholds hu
    · rw [Function.update_of_ne hut] at hu
      exact h.holds u hu
  · dsimp only at hu
    by_cases hut : u = t
    · subst hut
      rw [Function.update_self] at hu
      exact absurd hu (hdecremented count)
    · rw [Function.update_of_ne hut] at hu
      exact h.decremented u count hu
  · obtain ⟨hzero, hne⟩ := h.ends u ((hends' u).mp hu)
    exact ⟨hzero, mt hnone.mp hne⟩
  · exact h.once u v ((hends' u).mp hu) ((hends' v).mp hv)
  · obtain ⟨u, hu⟩ := h.unused hzero (mt hnone.mpr hne)
    exact ⟨u, (hends' u).mpr hu⟩
  -- the object is gone only if it was, and then nobody is inside
  · have ho' := hnone.mp ho
    refine ⟨(h.gone ho').1, fun u hu => ?_⟩
    dsimp only at hu
    by_cases hut : u = t
    · rw [hut, Function.update_self] at hu
      exact hgone ho' hu
    · rw [Function.update_of_ne hut] at hu
      exact (h.gone ho').2 u hu

/-! ### Steps -/

/-- A step that can be made comes to a state that meets the invariant, or it reads what is gone. -/
def Outcome (s : State ι) (reads : Bool) (l : Label ι) (x : Except Fault (State ι)) : Prop :=
  (∃ s', x = .ok s' ∧ s'.Inv) ∨
    x = .error .useAfterFree ∧ reads = true ∧ s.obj = none ∧
      ∃ t count, l = .trace t ∧ s.phase t = .returned count

/-- Taking the mutex keeps the invariant. -/
theorem Inv.lock (h : s.Inv) (p : Phase) (ht : s.phase t = .idle) (hheld : s.handles t ≠ 0)
    (hlocks : p.Locks) (hends : ¬ p.Ends) (hdecremented : ∀ count, p ≠ .decremented count)
    {l : Label ι} {x : Except Fault (State ι)}
    (happly : (s.lock t).map (Except.map (goto · t p)) = some x) : Outcome s reads l x := by
  have hle := s.handles_le_total t
  -- whoever has a reference finds the object there
  obtain ⟨obj, hobj⟩ := Option.ne_none_iff_exists'.mp fun hnone =>
    hheld (by have hzero := (h.gone hnone).1; omega)
  rw [State.lock, hobj] at happly
  dsimp only at happly
  -- the mutex is taken, or the thread has to wait
  split at happly
  · rename_i hfree
    obtain rfl := Option.some.inj happly
    refine .inl ⟨_, rfl, h.move ?_ ?_ ?_ (fun _ => hheld) hdecremented ?_⟩
    · rw [ht]
      exact iff_of_false hends not_false
    · rw [hobj]
      rfl
    · intro obj' hobj'
      obtain rfl := Option.some.inj hobj'
      exact LockedBy.take (hfree ▸ h.locked obj hobj) hlocks
    · rw [hobj]
      exact fun hnone => absurd hnone (Option.some_ne_none _)
  · cases happly

/-- Giving the mutex back keeps the invariant. -/
theorem Inv.unlock (h : s.Inv) (p : Phase) (ht : (s.phase t).Locks) (hlocks : ¬ p.Locks)
    (hholds : ¬ p.Holds) (hends : p.Ends ↔ (s.phase t).Ends)
    (hdecremented : ∀ count, p ≠ .decremented count) :
    ∃ s', s.unlock.map (goto · t p) = .ok s' ∧ s'.Inv := by
  obtain ⟨obj, hobj⟩ := h.exists_obj ht
  have hlock := h.locked obj hobj
  refine ⟨{ s with obj := some { obj with lock := none } }.goto t p, ?_,
    h.move hends ?_ ?_ (fun hp => absurd hp hholds) hdecremented (fun _ => hlocks)⟩
  · rw [State.unlock, access, hobj]
    rfl
  · rw [hobj]
    rfl
  · intro obj' hobj'
    obtain rfl := Option.some.inj hobj'
    exact LockedBy.leave ((hlock t).mp ht ▸ hlock) hlocks

/-- A thread that does not have the lock moves on by itself. -/
theorem Inv.goto (h : s.Inv) (ht : ¬ (s.phase t).Locks) (hlocks : ¬ p.Locks) (hholds : ¬ p.Holds)
    (hends : p.Ends ↔ (s.phase t).Ends) (hdecremented : ∀ count, p ≠ .decremented count) :
    (s.goto t p).Inv :=
  h.move hends rfl (fun obj hobj => (h.locked obj hobj).keep (iff_of_false hlocks ht))
    (fun hp => absurd hp hholds) hdecremented (fun _ => hlocks)

/-- `++ref->count` goes through where there is room, and keeps the invariant. -/
theorem Inv.increment (h : s.Inv) (ht : s.phase t = .inc) (hroom : s.total + 1 < 2 ^ 32) :
    ∃ s', (s.increment t).map (State.goto · t .incremented) = .ok s' ∧ s'.Inv := by
  have hlocks : (s.phase t).Locks := ht ▸ trivial
  have hne := h.total_ne_zero (t := t) (ht ▸ trivial)
  obtain ⟨obj, hobj⟩ := h.exists_obj hlocks
  have hcount := h.count obj hobj
  have hnonzero : obj.refCount ≠ 0 := by
    rintro heq
    rw [heq] at hcount
    exact hne hcount.symm
  have htotal := sum_update s.handles t (s.handles t + 1)
  have hnoEnds : ∀ u, ¬ (Function.update s.phase t .incremented u).Ends := by
    intro u hu
    by_cases hut : u = t
    · rw [hut, Function.update_self] at hu
      exact hu
    · rw [Function.update_of_ne hut] at hu
      exact hne (h.ends u hu).1
  refine ⟨{ s with
      obj := some { obj with refCount := obj.refCount + 1 }
      handles := Function.update s.handles t (s.handles t + 1) }.goto t .incremented, ?_, ?_⟩
  · simp only [State.increment, access, hobj, Option.elim_some, bind, Except.bind, if_neg hnonzero]
    rfl
  refine ⟨fun obj' hobj' => ?_, fun obj' hobj' => ?_, fun u hu => ?_, fun u count hu => ?_,
    fun u hu => absurd hu (hnoEnds u), fun u v hu => absurd hu (hnoEnds u), fun hzero => ?_, ?_⟩
  · obtain rfl := Option.some.inj hobj'
    have hadd : (obj.refCount + 1).toNat = obj.refCount.toNat + 1 := by
      rw [UInt32.toNat_add, hcount]
      exact Nat.mod_eq_of_lt hroom
    rw [hadd, hcount]
    simp only [total, State.goto] at htotal ⊢
    omega
  · obtain rfl := Option.some.inj hobj'
    exact (h.locked obj hobj).keep (iff_of_true trivial hlocks)
  · simp only [State.goto] at hu ⊢
    by_cases hut : u = t
    · rw [hut, Function.update_self]
      exact Nat.succ_ne_zero _
    · rw [Function.update_of_ne hut] at hu ⊢
      exact h.holds u hu
  · simp only [State.goto] at hu
    by_cases hut : u = t
    · rw [hut, Function.update_self] at hu
      cases hu
    · rw [Function.update_of_ne hut] at hu
      -- the lock is taken
      exact absurd ((h.locked obj hobj).eq (hu ▸ trivial) hlocks) hut
  · simp only [total, State.goto] at htotal hzero hne
    omega
  · exact fun hnone => absurd hnone (Option.some_ne_none _)

/-- `--ref->count` goes through, and keeps the invariant. -/
theorem Inv.decrement (h : s.Inv) (ht : s.phase t = .dec) :
    ∃ s', ((s.decrement t).map fun (s, count) => State.goto s t (.decremented count)) = .ok s' ∧
      s'.Inv := by
  have hlocks : (s.phase t).Locks := ht ▸ trivial
  have hheld := h.holds t (ht ▸ trivial)
  have hne := h.total_ne_zero (t := t) (ht ▸ trivial)
  obtain ⟨obj, hobj⟩ := h.exists_obj hlocks
  have hcount := h.count obj hobj
  -- the count does not wrap, as the thread's own reference is in it
  have hnonzero : obj.refCount ≠ 0 := by
    rintro heq
    rw [heq] at hcount
    exact hne hcount.symm
  have hsub : (obj.refCount - 1).toNat = obj.refCount.toNat - 1 :=
    UInt32.toNat_sub_of_le _ _ (UInt32.le_iff_toNat_le.mpr (by
      rw [hcount]
      exact Nat.pos_of_ne_zero hne))
  have htotal := sum_update s.handles t (s.handles t - 1)
  -- as long as there are references nobody is going to free the object
  have hothers : ∀ u ≠ t, ¬ (s.phase u).Ends := fun u _ hu => hne (h.ends u hu).1
  refine ⟨{ s with
      obj := some { obj with refCount := obj.refCount - 1 }
      handles := Function.update s.handles t (s.handles t - 1) }.goto t
        (.decremented (obj.refCount - 1)), ?_, ?_⟩
  · simp only [State.decrement, access, hobj, Option.elim_some, bind, Except.bind, if_neg hnonzero]
    rfl
  -- one reference less is held, and one less counted
  have hafter : (obj.refCount - 1).toNat =
      ∑ u, Function.update s.handles t (s.handles t - 1) u := by
    rw [hsub, hcount, total]
    omega
  refine ⟨fun obj' hobj' => ?_, fun obj' hobj' => ?_, fun u hu => ?_, fun u count hu => ?_,
    fun u hu => ?_, fun u v hu hv => ?_, fun hzero _ => ?_, ?_⟩
  · obtain rfl := Option.some.inj hobj'
    exact hafter
  · obtain rfl := Option.some.inj hobj'
    exact (h.locked obj hobj).keep (iff_of_true trivial hlocks)
  · simp only [State.goto] at hu ⊢
    by_cases hut : u = t
    · rw [hut, Function.update_self] at hu
      exact hu.elim
    · rw [Function.update_of_ne hut] at hu ⊢
      exact h.holds u hu
  · simp only [State.goto] at hu
    by_cases hut : u = t
    · rw [hut, Function.update_self] at hu
      obtain rfl := Phase.decremented.inj hu
      -- the thread has seen the count that it has left
      exact hafter
    · rw [Function.update_of_ne hut] at hu
      exact absurd ((h.locked obj hobj).eq (hu ▸ trivial) hlocks) hut
  · simp only [State.goto] at hu
    by_cases hut : u = t
    · rw [hut, Function.update_self] at hu
      refine ⟨?_, Option.some_ne_none _⟩
      -- if it was the last reference this thread is going to free the object
      rw [total, State.goto, ← hafter, show obj.refCount - 1 = 0 from hu]
      rfl
    · rw [Function.update_of_ne hut] at hu
      exact absurd hu (hothers u hut)
  · simp only [State.goto] at hu hv
    -- and no other is
    have honly : ∀ w, (Function.update s.phase t (.decremented (obj.refCount - 1)) w).Ends →
        w = t := by
      intro w hw
      by_contra hwt
      rw [Function.update_of_ne hwt] at hw
      exact hothers w hwt hw
    exact (honly u hu).trans (honly v hv).symm
  · refine ⟨t, ?_⟩
    simp only [State.goto, Function.update_self]
    refine UInt32.toNat_inj.mp ?_
    rw [hafter]
    exact hzero
  · exact fun hnone => absurd hnone (Option.some_ne_none _)

/-- The thread that has given up the last reference frees the object when nobody has the lock. -/
theorem Inv.free (h : s.Inv) (ht : s.phase t = .traced 0) :
    ∃ s', s.free.map (State.goto · t .idle) = .ok s' ∧ s'.Inv := by
  have hends : (s.phase t).Ends := ht ▸ rfl
  obtain ⟨hzero, hne⟩ := h.ends t hends
  obtain ⟨obj, hobj⟩ := Option.ne_none_iff_exists'.mp hne
  -- without references nobody is inside the mutex any more
  have hnoLocks : ∀ u, ¬ (s.phase u).Locks := by
    intro u hu
    cases hphase : s.phase u with
    | idle | returned count | traced count => rw [hphase] at hu; exact hu
    | inc | incremented | dec => exact h.total_ne_zero (t := u) (hphase ▸ trivial) hzero
    | decremented count =>
      have hcount := h.decremented u count hphase
      rw [hzero] at hcount
      have heq : u = t := h.once u t (hphase ▸ UInt32.toNat_inj.mp hcount) hends
      rw [heq, ht] at hphase
      cases hphase
  -- and so it can be destroyed
  have hfree : obj.lock = none := by
    refine Option.eq_none_iff_forall_ne_some.mpr fun u hu => ?_
    exact hnoLocks u ((h.locked obj hobj u).mpr hu)
  -- afterwards nobody is going to free the object again
  have hphase : ∀ u, ¬ (Function.update s.phase t .idle u).Locks ∧
      ¬ (Function.update s.phase t .idle u).Ends := by
    intro u
    by_cases hut : u = t
    · rw [hut, Function.update_self]
      exact ⟨not_false, not_false⟩
    · rw [Function.update_of_ne hut]
      exact ⟨hnoLocks u, fun hu => hut (h.once u t hu hends)⟩
  refine ⟨{ s with obj := none }.goto t .idle, ?_, ?_⟩
  · simp only [State.free, access, hobj, Option.elim_some, bind, Except.bind, hfree]
    rfl
  refine ⟨fun obj' hobj' => ?_, fun obj' hobj' => ?_, fun u hu => ?_, fun u count hu => ?_,
    fun u hu => absurd hu (hphase u).2, fun u v hu => absurd hu (hphase u).2,
    fun _ hne => absurd rfl hne, fun _ => ⟨hzero, fun u => (hphase u).1⟩⟩
  · cases hobj'
  · cases hobj'
  · simp only [State.goto] at hu
    by_cases hut : u = t
    · rw [hut, Function.update_self] at hu
      exact hu.elim
    · rw [Function.update_of_ne hut] at hu
      exact h.holds u hu
  · exact absurd (show (Phase.decremented count).Locks from trivial)
      (hu ▸ (hphase u).1)

/-- Handing a reference to another thread keeps the invariant. -/
theorem Inv.handOver (h : s.Inv) (ht : s.phase t = .idle) (hheld : s.handles t ≠ 0) (u : ι) :
    Inv { s with
      handles := Function.update (Function.update s.handles t (s.handles t - 1)) u
        (Function.update s.handles t (s.handles t - 1) u + 1) } := by
  -- the sum stays: one reference less here, one more there
  have htotal : ∑ v, Function.update (Function.update s.handles t (s.handles t - 1)) u
      (Function.update s.handles t (s.handles t - 1) u + 1) v = s.total := by
    have htake := sum_update s.handles t (s.handles t - 1)
    have hgive := sum_update (Function.update s.handles t (s.handles t - 1)) u
      (Function.update s.handles t (s.handles t - 1) u + 1)
    rw [total]
    omega
  refine ⟨fun obj hobj => (h.count obj hobj).trans htotal.symm, h.locked, fun v hv => ?_,
    fun v count hv => (h.decremented v count hv).trans htotal.symm,
    fun v hv => ⟨htotal.trans (h.ends v hv).1, (h.ends v hv).2⟩, h.once,
    fun hzero => h.unused (htotal.symm.trans hzero),
    fun hnone => ⟨htotal.trans (h.gone hnone).1, (h.gone hnone).2⟩⟩
  -- a thread that is about to use its reference is not the one that hands over
  have hvt : v ≠ t := by
    rintro rfl
    have hidle : (s.phase v).Holds := hv
    rw [ht] at hidle
    exact hidle
  by_cases hvu : v = u
  · subst hvu
    simp
  · simp only [Function.update_of_ne hvu, Function.update_of_ne hvt]
    exact h.holds v hv

/-- Every step that can be taken has the outcome it is to have. -/
theorem Inv.apply (h : s.Inv) {l : Label ι} (hroom : s.Room l) {x : Except Fault (State ι)}
    (happly : s.apply reads l = some x) : Outcome s reads l x := by
  cases l with
  | use t =>
    obtain ⟨⟨-, hheld⟩, happly⟩ := Option.ite_none_right_eq_some.mp happly
    have hle := s.handles_le_total t
    obtain ⟨obj, hobj⟩ := Option.ne_none_iff_exists'.mp fun hnone =>
      hheld (by have hzero := (h.gone hnone).1; omega)
    rw [access, hobj] at happly
    exact .inl ⟨s, (Option.some.inj happly).symm, h⟩
  | handOver t u =>
    obtain ⟨⟨hidle, hheld⟩, happly⟩ := Option.ite_none_right_eq_some.mp happly
    exact .inl ⟨_, (Option.some.inj happly).symm, h.handOver hidle hheld u⟩
  | copy t =>
    obtain ⟨⟨hidle, hheld⟩, happly⟩ := Option.ite_none_right_eq_some.mp happly
    exact h.lock .inc hidle hheld trivial not_false (fun _ heq => by cases heq) happly
  | delete t =>
    obtain ⟨⟨hidle, hheld⟩, happly⟩ := Option.ite_none_right_eq_some.mp happly
    exact h.lock .dec hidle hheld trivial not_false (fun _ heq => by cases heq) happly
  | increment t =>
    simp only [State.apply] at happly
    split at happly
    · rename_i ht
      obtain ⟨s', hincrement, hinv⟩ := h.increment ht hroom
      exact .inl ⟨s', (Option.some.inj happly).symm.trans hincrement, hinv⟩
    · cases happly
  | decrement t =>
    simp only [State.apply] at happly
    split at happly
    · rename_i ht
      obtain ⟨s', hdecrement, hinv⟩ := h.decrement ht
      exact .inl ⟨s', (Option.some.inj happly).symm.trans hdecrement, hinv⟩
    · cases happly
  | unlock t =>
    simp only [State.apply] at happly
    split at happly
    -- the end of `ref_count_inc`
    · rename_i ht
      have hlocks : (s.phase t).Locks := ht ▸ trivial
      obtain ⟨s', hunlock, hinv⟩ := h.unlock .idle hlocks not_false not_false
        (by rw [ht]; exact Iff.rfl) (fun _ heq => by cases heq)
      exact .inl ⟨s', (Option.some.inj happly).symm.trans hunlock, hinv⟩
    -- the end of `ref_count_dec`, which returns what it has seen
    · rename_i count ht
      have hlocks : (s.phase t).Locks := ht ▸ trivial
      obtain ⟨s', hunlock, hinv⟩ := h.unlock (.returned count) hlocks not_false not_false
        (by rw [ht]; exact Iff.rfl) (fun _ heq => by cases heq)
      exact .inl ⟨s', (Option.some.inj happly).symm.trans hunlock, hinv⟩
    · cases happly
  | trace t =>
    simp only [State.apply] at happly
    split at happly
    · rename_i count ht
      have hinv : (s.goto t (.traced count)).Inv := h.goto (ht ▸ not_false) not_false not_false
        -- what the trace reads may have been freed
        (by rw [ht]; exact Iff.rfl) (fun _ heq => by cases heq)
      split at happly
      · rename_i hreads
        cases hobj : s.obj with
        | none =>
          rw [access, hobj] at happly
          exact .inr ⟨(Option.some.inj happly).symm, hreads, hobj, t, count, rfl, ht⟩
        | some obj =>
          rw [access, hobj] at happly
          exact .inl ⟨_, (Option.some.inj happly).symm, hinv⟩
      · exact .inl ⟨_, (Option.some.inj happly).symm, hinv⟩
    · cases happly
  | free t =>
    simp only [State.apply] at happly
    split at happly
    · rename_i count ht
      -- only the thread that has seen the count reach 0 frees
      split at happly
      · rename_i hcount
        subst hcount
        obtain ⟨s', hfree, hinv⟩ := h.free ht
        exact .inl ⟨s', (Option.some.inj happly).symm.trans hfree, hinv⟩
      · rename_i hcount
        refine .inl ⟨_, (Option.some.inj happly).symm, h.goto (ht ▸ not_false) not_false not_false
          ?_ (fun _ heq => by cases heq)⟩
        rw [ht]
        exact iff_of_false not_false hcount
    · cases happly

/-! ### Runs -/

/-- A new object has the reference of its maker. -/
theorem new_inv (t : ι) : (new t).Inv := by
  have htotal : (new t).total = 1 := by
    have hsum := sum_update (fun _ : ι => 0) t 1
    simpa [total, new] using hsum
  refine ⟨fun obj hobj => ?_, fun obj hobj u => ?_, fun u hu => hu.elim, fun u count hu => ?_,
    fun u hu => hu.elim, fun u v hu => hu.elim, fun hzero => ?_, fun hnone => ?_⟩
  · obtain rfl := Option.some.inj hobj
    exact htotal.symm
  · obtain rfl := Option.some.inj hobj
    exact iff_of_false not_false (Option.some_ne_none u).symm
  · cases hu
  · rw [htotal] at hzero
    cases hzero
  · cases hnone

/-- Every step that has room keeps the invariant. -/
theorem Inv.step (h : s.Inv) {l : Label ι} (hroom : s.Room l) (hstep : s.step reads l = some s') :
    s'.Inv := by
  obtain ⟨x, happly, hx⟩ := Option.bind_eq_some_iff.mp hstep
  obtain ⟨s'', rfl, hinv⟩ | ⟨rfl, -⟩ := h.apply hroom happly
  · obtain rfl := Option.some.inj hx
    exact hinv
  · cases hx

omit [DecidableEq ι] in
/-- The object is gone when there are no references and nobody is about to free it. -/
theorem Inv.gone_iff (h : s.Inv) :
    s.obj = none ↔ (∀ u, s.handles u = 0) ∧ ∀ u, ¬ (s.phase u).Ends := by
  rw [← total_eq_zero_iff]
  constructor
  · exact fun hnone => ⟨(h.gone hnone).1, fun u hu => (h.ends u hu).2 hnone⟩
  · rintro ⟨hzero, hends⟩
    by_contra hne
    obtain ⟨u, hu⟩ := h.unused hzero hne
    exact hends u hu

/-- In every run of threads that share an object, as long as its count has room for the references:
    the count is that of the references; when all threads are back, the object has been freed if
    and only if there are no references; and a step goes wrong if and only if it writes a trace
    with what is in the object, by a thread that has given up its reference, when the others have
    given up theirs and the last of them has freed it. -/
theorem exec_new_shared (reads : Bool) (t : ι) (ls : List (Label ι)) (s : State ι)
    (hexec : exec (step reads) (new t) ls = some s)
    (hroom : StepsMeet (step reads) Room (new t) ls) :
    (∀ obj, s.obj = some obj → obj.refCount.toNat = ∑ u, s.handles u) ∧
      ((∀ u, s.phase u = .idle) → (s.obj = none ↔ ∀ u, s.handles u = 0)) ∧
      ∀ l, s.Room l → ((∃ f, s.apply reads l = some (.error f)) ↔
        reads = true ∧ ∃ u count, l = .trace u ∧ s.phase u = .returned count ∧
          (∀ v, s.handles v = 0) ∧ ∀ v, ¬ (s.phase v).Ends) := by
  have h : s.Inv :=
    exec_invariant_of_stepsMeet (fun _ _ _ h hroom hstep => h.step hroom hstep) (new_inv t) hroom
      hexec
  refine ⟨h.count, fun hidle => ?_, fun l hroom => ⟨?_, ?_⟩⟩
  · rw [h.gone_iff]
    exact and_iff_left fun u => by rw [hidle u]; exact not_false
  · rintro ⟨f, happly⟩
    obtain ⟨s', hok, -⟩ | ⟨-, hreads, hnone, u, count, hl, hu⟩ := h.apply hroom happly
    · cases hok
    · exact ⟨hreads, u, count, hl, hu, h.gone_iff.mp hnone⟩
  · rintro ⟨rfl, u, count, rfl, hu, hgone⟩
    -- the object has been freed under the trace
    refine ⟨.useAfterFree, ?_⟩
    rw [State.apply, hu]
    simp only [access, h.gone_iff.mpr hgone]
    rfl

/-- Two threads with a reference each. The first gives its reference up, but is late with its trace:
    the second gives up the last one and frees the object. -/
def lateTrace : List (Label (Fin 2)) :=
  [.copy 0, .increment 0, .unlock 0, .handOver 0 1, .delete 0, .decrement 0, .unlock 0,
    .delete 1, .decrement 1, .unlock 1, .trace 1, .free 1]

/-- A thread that has given up its reference reads the object in its trace after the other has
    freed it. -/
theorem exec_new_shared_lateTrace :
    ∃ s, exec (step true) (new 0) lateTrace = some s ∧
      ∃ f, s.apply true (.trace 0) = some (.error f) := by
  have hsome : (exec (step true) (new 0) lateTrace).isSome := by decide +kernel
  have hfacts : ∀ s ∈ exec (step true) (new 0) lateTrace, s.phase 0 = .returned 1 ∧
      s.phase 1 = .idle ∧ ∀ v, s.handles v = 0 := by decide +kernel
  obtain ⟨s, hexec⟩ := Option.isSome_iff_exists.mp hsome
  obtain ⟨h0, h1, hzero⟩ := hfacts s hexec
  -- nobody is going to free the object: it has been freed
  have hends : ∀ v, ¬ (s.phase v).Ends := by
    refine Fin.forall_fin_two.mpr ⟨?_, ?_⟩
    · rw [h0]
      show ¬ ((1 : UInt32) = 0)
      decide
    · rw [h1]
      exact not_false
  have hroom : StepsMeet (step true) Room (new 0) lateTrace := by decide +kernel
  exact ⟨s, hexec, ((exec_new_shared true 0 lateTrace s hexec hroom).2.2 (.trace 0) trivial).mpr
    ⟨rfl, 0, 1, rfl, h0, hzero, hends⟩⟩

end State

end Fsfuse.Native.RefCount
