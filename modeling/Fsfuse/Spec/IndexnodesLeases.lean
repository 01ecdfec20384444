import Fsfuse.ForStd.Leases
import Fsfuse.Spec.IndexnodesAccesses
import Fsfuse.Spec.IndexnodesUnique

/-!
# Who is in the list of indexnodes

An indexnode is in the list that `indexnodes_get` leaves exactly if it has been heard of less than
its timeout ago. The threads that hear of it and those that get the list may run in any order, as
long as an indexnode that a search has found is still in the list when it is marked as seen: the
search is made without the lock, and an indexnode that has expired in between is marked in vain.

What is said here is said of runs in which nothing comes between the accesses of an operation on
the list: of a search, an addition, a copy, and of the clearing of the list together with the
storing of what is left. The code does not see to it, as `indexnodes_get` clears and stores under
the lock for reading; what comes of that is in `IndexnodesReplacement`.
-/

namespace Fsfuse.Native.IndexnodesEvents

open Transition Leases

variable {ι : Type} {s s' : State ι}

/-- The time of a step. -/
def Label.time : Label ι → Option Int
  | .event _ now _ _ _ _ | .seen _ now | .removeExpired _ now _ => some now
  | .wlock _ | .add _ | .wunlock _ | .rlock _ | .copy _ | .runlock _ => none

/-- The timeout in the configuration is always the same. -/
def Label.HasTimeout (timeout : Int) : Label ι → Prop
  | .removeExpired _ _ timeout' => timeout' = timeout
  | _ => True

/-- What a thread has found is in the list. -/
def StillListed (ins : Indexnodes) : Phase → Prop
  | .found in_ => in_ ∈ ins.list
  | _ => True

/-- An indexnode is marked as seen only while it is in the list. -/
def SeenListed (s : State ι) : Label ι → Prop
  | .seen t _ => StillListed s.ins (s.phase t)
  | _ => True

instance (ins : Indexnodes) : DecidablePred (StillListed ins)
  | .found in_ => inferInstanceAs (Decidable (in_ ∈ ins.list))
  | .idle | .made _ | .wlocked _ | .added | .rlocked | .replaced | .copied _ =>
    inferInstanceAs (Decidable True)

instance (s : State ι) : DecidablePred (SeenListed s)
  | .seen t _ => inferInstanceAs (Decidable (StillListed s.ins (s.phase t)))
  | .event _ _ _ _ _ _ | .wlock _ | .add _ | .wunlock _ | .rlock _ | .removeExpired _ _ _
  | .copy _ | .runlock _ => inferInstanceAs (Decidable True)

/-- Who a step makes known to be alive, and since when. -/
def hearing (s : State ι) : Label ι → Option (List UInt8 × Int)
  | .seen t now => match s.phase t with
    | .found in_ => (idAt s.ins.store in_).map (·, now)
    | _ => none
  | .add t => match s.phase t with
    | .wlocked new => some (new.id, new.lastSeen)
    | _ => none
  | _ => none

variable [DecidableEq ι]

/-- Who a run makes known to be alive. -/
def hearings (s : State ι) : List (Label ι) → List (List UInt8 × Int)
  | [] => []
  | l :: ls => (hearing s l).toList ++ (s.step l).elim [] fun s' => hearings s' ls

/-! ### Steps -/

/-- What a step does. -/
inductive Does (s : State ι) : Label ι → State ι → Prop
  | found {t : ι} {now : Int} {host port fs2protocol id : List UInt8} (in_ : Nat) :
    Does s (.event t now host port fs2protocol id) (s.goto t (.found in_))
  | made {t : ι} {now : Int} {host port fs2protocol id : List UInt8} {new : Indexnode}
    (hnew : new.lastSeen = now) :
    Does s (.event t now host port fs2protocol id) (s.goto t (.made new))
  | ignored {t : ι} {now : Int} {host port fs2protocol id : List UInt8} :
    Does s (.event t now host port fs2protocol id) (s.goto t .idle)
  | seen {t : ι} {now : Int} {in_ : Nat} (ht : s.phase t = .found in_) :
    Does s (.seen t now) ({ s with ins := s.ins.seen now in_ }.goto t .idle)
  | wlock {t : ι} {new : Indexnode} {lock : SharedLock ι} (ht : s.phase t = .made new)
    (hlock : s.lock.wlock t = some lock) :
    Does s (.wlock t) ({ s with lock := lock }.goto t (.wlocked new))
  | add {t : ι} {new : Indexnode} (ht : s.phase t = .wlocked new) :
    Does s (.add t) ({ s with ins := s.ins.addNew new }.goto t .added)
  | wunlock {t : ι} (ht : s.phase t = .added) :
    Does s (.wunlock t) ({ s with lock := s.lock.wunlock }.goto t .idle)
  | rlock {t : ι} {lock : SharedLock ι} (ht : s.phase t = .idle)
    (hlock : s.lock.rlock t = some lock) :
    Does s (.rlock t) ({ s with lock := lock }.goto t .rlocked)
  | removeExpired {t : ι} {now timeout : Int} (ht : s.phase t = .rlocked) :
    Does s (.removeExpired t now timeout) ({ s with ins := { s.ins with
      list := IndexnodesList.removeExpired now timeout s.ins.store s.ins.list } }.goto t .replaced)
  | copy {t : ι} (ht : s.phase t = .replaced) :
    Does s (.copy t) (s.goto t (.copied (IndexnodesList.copy s.ins.list)))
  | runlock {t : ι} {list : List Nat} (ht : s.phase t = .copied list) :
    Does s (.runlock t) ({ s with lock := s.lock.runlock t }.goto t .idle)

omit [DecidableEq ι] in
/-- A new indexnode was last seen when it was made. -/
theorem lastSeen_indexnodeNew {now : Int} {host port version id : List UInt8} {new : Indexnode}
    (h : Indexnode.indexnodeNew now host port version id = .ok (some new)) :
    new.lastSeen = now := by
  simp only [Indexnode.indexnodeNew] at h
  split at h
  · cases h
  · split at h
    · cases hinit : Indexnode.protoIndexnodeInit host port with
      | error fault =>
        rw [hinit] at h
        cases h
      | ok _ =>
        rw [hinit] at h
        obtain rfl := Option.some.inj (Except.ok.inj h)
        rfl
    · cases Except.ok.inj h

/-- Every step does one of these. -/
theorem step_does {l : Label ι} (hstep : s.step l = some s') : Does s l s' := by
  cases l with
  | event t now host port fs2protocol id =>
    simp only [State.step] at hstep
    split at hstep <;> try cases hstep
    simp only [State.event] at hstep
    split at hstep <;> try cases hstep
    -- found, made, or ignored for its version or its fields; bad fields stop the daemon
    split at hstep
    · obtain rfl := Option.some.inj hstep
      exact .found _
    · split at hstep
      · rename_i new hnew
        obtain rfl := Option.some.inj hstep
        exact .made (lastSeen_indexnodeNew hnew)
      · obtain rfl := Option.some.inj hstep
        exact .ignored
      · cases hstep
  | seen t now =>
    simp only [State.step] at hstep
    split at hstep
    · rename_i in_ ht
      obtain rfl := Option.some.inj hstep
      exact .seen ht
    · cases hstep
  | wlock t =>
    simp only [State.step] at hstep
    split at hstep
    · rename_i new ht
      obtain ⟨lock, hlock, rfl⟩ := Option.map_eq_some_iff.mp hstep
      exact .wlock ht hlock
    · cases hstep
  | add t =>
    simp only [State.step] at hstep
    split at hstep
    · rename_i new ht
      obtain rfl := Option.some.inj hstep
      exact .add ht
    · cases hstep
  | wunlock t =>
    simp only [State.step] at hstep
    split at hstep
    · rename_i ht
      obtain rfl := Option.some.inj hstep
      exact .wunlock ht
    · cases hstep
  | rlock t =>
    simp only [State.step] at hstep
    split at hstep
    · rename_i ht
      obtain ⟨lock, hlock, rfl⟩ := Option.map_eq_some_iff.mp hstep
      exact .rlock ht hlock
    · cases hstep
  | removeExpired t now timeout =>
    simp only [State.step] at hstep
    split at hstep
    · rename_i ht
      obtain rfl := Option.some.inj hstep
      exact .removeExpired ht
    · cases hstep
  | copy t =>
    simp only [State.step] at hstep
    split at hstep
    · rename_i ht
      obtain rfl := Option.some.inj hstep
      exact .copy ht
    · cases hstep
  | runlock t =>
    simp only [State.step] at hstep
    split at hstep
    · rename_i ht
      obtain rfl := Option.some.inj hstep
      exact .runlock ht
    · cases hstep

/-! ### Entries -/

/-- The ids in the list, with when each has been seen. -/
def entries (ins : Indexnodes) : Set (List UInt8 × Int) :=
  {e | ∃ i ∈ ins.list, ∃ x, ins.store[i]? = some x ∧ (x.id, x.lastSeen) = e}

section Entries

variable {ins : Indexnodes} {e : List UInt8 × Int}

/-- An id is among those listed if the list has an entry with it. -/
theorem mem_ids_iff {id : List UInt8} :
    some id ∈ ids ins ↔ ∃ t, (id, t) ∈ entries ins := by
  simp only [ids, idAt, List.mem_map, Option.map_eq_some_iff]
  constructor
  · rintro ⟨i, hi, x, hx, rfl⟩
    exact ⟨x.lastSeen, i, hi, x, hx, rfl⟩
  · rintro ⟨t, i, hi, x, hx, heq⟩
    exact ⟨i, hi, x, hx, congrArg Prod.fst heq⟩

/-- A new indexnode is listed, and the others stay. -/
theorem mem_entries_addNew (new : Indexnode) :
    e ∈ entries (ins.addNew new) ↔ e = (new.id, new.lastSeen) ∨ e ∈ entries ins := by
  constructor
  · rintro ⟨i, hi, x, hx, rfl⟩
    simp only [Indexnodes.addNew, IndexnodesList.add, List.mem_cons] at hi hx
    -- what is in the list is the new one, which is last in the store, or was there before
    by_cases hlt : i < ins.store.length
    · rw [List.getElem?_append_left hlt] at hx
      exact .inr ⟨i, hi.resolve_left hlt.ne, x, hx, rfl⟩
    · rw [List.getElem?_append_right (by omega), List.getElem?_singleton] at hx
      split at hx
      · obtain rfl := Option.some.inj hx
        exact .inl rfl
      · cases hx
  · rintro (rfl | ⟨i, hi, x, hx, rfl⟩)
    · exact ⟨ins.store.length, List.mem_cons_self, new, List.getElem?_concat_length, rfl⟩
    · have hlt := (List.getElem?_eq_some_iff.mp hx).1
      exact ⟨i, List.mem_cons_of_mem _ hi, x, (List.getElem?_append_left hlt).trans hx, rfl⟩

/-- Of the entries those stay that have not expired. -/
theorem mem_entries_removeExpired {now timeout : Int} :
    e ∈ entries { ins with
        list := IndexnodesList.removeExpired now timeout ins.store ins.list } ↔
      e ∈ entries ins ∧ Fresh timeout now e.2 := by
  simp only [removeExpired_eq, entries, Set.mem_ofPred_eq, List.mem_reverse, List.mem_filter]
  constructor
  · rintro ⟨i, ⟨hi, hvalid⟩, x, hx, rfl⟩
    rw [hx, Option.any_some, Indexnode.stillValid, decide_eq_true_iff] at hvalid
    exact ⟨⟨i, hi, x, hx, rfl⟩, hvalid⟩
  · rintro ⟨⟨i, hi, x, hx, rfl⟩, hfresh⟩
    refine ⟨i, ⟨hi, ?_⟩, x, hx, rfl⟩
    rw [hx, Option.any_some, Indexnode.stillValid, decide_eq_true_iff]
    exact hfresh

/-- An indexnode that is marked as seen is at the same place as before. -/
theorem getElem?_seen {now : Int} {in_ i : Nat} (ins : Indexnodes) :
    (ins.seen now in_).store[i]? =
      (ins.store[i]?).map fun x => if in_ = i then { x with lastSeen := now } else x := by
  rw [Indexnodes.seen, List.getElem?_modify]
  split <;> simp

/-- The table of those heard of is brought up to date. -/
theorem keeps_seen {timeout now : Int} {in_ : Nat} {heard : Set (List UInt8 × Int)} {y : Indexnode}
    (h : Keeps timeout heard now (entries ins)) (hlisted : in_ ∈ ins.list)
    (hy : ins.store[in_]? = some y) :
    Keeps timeout (insert (y.id, now) heard) now (entries (ins.seen now in_)) := by
  refine h.renew le_rfl ?_ ?_ ?_
  · exact ⟨in_, hlisted, { y with lastSeen := now }, by simp [getElem?_seen, hy], rfl⟩
  · rintro e ⟨i, hi, x, hx, rfl⟩
    rw [getElem?_seen, Option.map_eq_some_iff] at hx
    obtain ⟨x', hx', rfl⟩ := hx
    by_cases hin : in_ = i
    · subst hin
      obtain rfl : y = x' := Option.some.inj (hy.symm.trans hx')
      exact .inl (by rw [if_pos rfl])
    · exact .inr ⟨i, hi, x', hx', by rw [if_neg hin]⟩
  · rintro e ⟨i, hi, x, hx, rfl⟩
    by_cases hin : in_ = i
    · subst hin
      obtain rfl : y = x := Option.some.inj (hy.symm.trans hx)
      -- what it was before cannot be later than now
      exact .inr ⟨rfl, h.past _ (h.known _ ⟨in_, hi, y, hx, rfl⟩)⟩
    · exact .inl ⟨i, hi, x, by simp [getElem?_seen, hx, hin], rfl⟩

end Entries

/-! ### Accounts -/

/-- The list accounts for all who have been heard of, and those about to be added have been heard of
    before. -/
structure Accounted (timeout : Int) (s : State ι) (heard : Set (List UInt8 × Int)) (clock : Int) :
    Prop where
  keeps : Keeps timeout heard clock (entries s.ins)
  made : ∀ t new, s.phase t = .made new ∨ s.phase t = .wlocked new → new.lastSeen ≤ clock

variable {timeout clock now : Int} {heard : Set (List UInt8 × Int)}

omit [DecidableEq ι] in
/-- What is accounted for stays so when time passes. -/
theorem Accounted.pass (h : Accounted timeout s heard clock) (hle : clock ≤ now) :
    Accounted timeout s heard now :=
  ⟨h.keeps.pass hle, fun t new ht => (h.made t new ht).trans hle⟩

/-- A thread moves on, and what it is about to add it has just heard of. -/
theorem Accounted.goto {heard' : Set (List UInt8 × Int)} {t : ι} {phase : Phase}
    (h : Accounted timeout s heard clock) (s₁ : State ι) (hphase : s₁.phase = s.phase)
    (hkeeps : Keeps timeout heard' clock (entries s₁.ins))
    (hmade : ∀ new, phase = .made new ∨ phase = .wlocked new → new.lastSeen ≤ clock) :
    Accounted timeout (s₁.goto t phase) heard' clock := by
  refine ⟨hkeeps, fun u new hu => ?_⟩
  simp only [State.goto, hphase] at hu
  by_cases hut : u = t
  · subst hut
    rw [Function.update_self] at hu
    exact hmade new hu
  · rw [Function.update_of_ne hut] at hu
    exact h.made u new hu

/-- Every step, at its time, accounts for what it makes known. -/
theorem step_accounted {l : Label ι} (h : Accounted timeout s heard clock)
    (htime : ∀ now ∈ l.time, now = clock) (htimeout : l.HasTimeout timeout)
    (hlisted : SeenListed s l) (hdoes : Does s l s') :
    Accounted timeout s' (heard ∪ {e | e ∈ hearing s l}) clock := by
  cases hdoes with
  | found in_ => simpa [hearing] using h.goto s rfl h.keeps (by simp)
  | made hnew =>
    have hnow := htime _ rfl
    simpa [hearing] using h.goto s rfl h.keeps (by simp [hnew, hnow])
  | ignored => simpa [hearing] using h.goto s rfl h.keeps (by simp)
  -- who is marked as seen is heard of; it is listed, and so its lease is renewed
  | @seen t now in_ ht =>
    obtain rfl := htime _ rfl
    rw [SeenListed, ht] at hlisted
    refine h.goto _ rfl ?_ (by simp)
    cases hstore : s.ins.store[in_]? with
    | none =>
      have hsame : s.ins.store.modify in_ (fun i => { i with lastSeen := now }) = s.ins.store :=
        List.modify_eq_self (List.getElem?_eq_none_iff.mp hstore)
      simpa [hearing, ht, idAt, hstore, Indexnodes.seen, hsame] using h.keeps
    | some y => simpa [hearing, ht, idAt, hstore] using keeps_seen h.keeps hlisted hstore
  | @wlock t new lock ht hlock =>
    have hmade := h.made _ _ (.inl ht)
    simpa [hearing] using h.goto { s with lock := lock } rfl h.keeps (by simp [hmade])
  -- who is added has been heard of when it was made
  | @add t new ht =>
    refine h.goto _ rfl ?_ (by simp)
    have hnew : heard ∪ {e | e ∈ hearing s (.add t)} = insert (new.id, new.lastSeen) heard := by
      simp [hearing, ht]
    rw [hnew]
    exact h.keeps.renew (h.made t new (.inr ht)) ((mem_entries_addNew new).mpr (.inl rfl))
      (fun e => (mem_entries_addNew new).mp)
      (fun e he => .inl ((mem_entries_addNew new).mpr (.inr he)))
  | @wunlock t ht =>
    simpa [hearing] using h.goto { s with lock := s.lock.wunlock } rfl h.keeps (by simp)
  | @rlock t lock ht hlock =>
    simpa [hearing] using h.goto { s with lock := lock } rfl h.keeps (by simp)
  -- clearing purges the leases that have run out
  | @removeExpired t now timeout' ht =>
    obtain rfl := htime _ rfl
    obtain rfl : timeout' = timeout := htimeout
    have hnone : heard ∪ {e | e ∈ hearing s (.removeExpired t now timeout')} = heard := by
      simp [hearing]
    rw [hnone]
    exact h.goto _ rfl (h.keeps.purge fun e => mem_entries_removeExpired) (by simp)
  | copy ht => simpa [hearing] using h.goto s rfl h.keeps (by simp)
  | @runlock t list ht =>
    simpa [hearing] using h.goto { s with lock := s.lock.runlock t } rfl h.keeps (by simp)

/-- A run in which time does not go back. -/
theorem exec_accounted {ls : List (Label ι)} (h : Accounted timeout s heard clock)
    (hexec : exec State.step s ls = some s')
    (htimes : (clock :: (ls.filterMap Label.time ++ [now])).Pairwise (· ≤ ·))
    (htimeout : ∀ l ∈ ls, l.HasTimeout timeout) (hlisted : StepsMeet State.step SeenListed s ls) :
    Accounted timeout s' (heard ∪ {e | e ∈ hearings s ls}) now := by
  induction ls generalizing s heard clock with
  | nil =>
    obtain rfl : s = s' := by simpa using hexec
    have hle : clock ≤ now := by simpa using htimes
    simpa [hearings] using h.pass hle
  | cons l ls ih =>
    simp only [exec_cons, Option.bind_eq_some_iff] at hexec
    obtain ⟨s₁, h₁, hexec⟩ := hexec
    -- the clock at the step
    obtain ⟨clock₁, hle, htime, htimes₁⟩ : ∃ clock₁, clock ≤ clock₁ ∧ (∀ u ∈ l.time, u = clock₁) ∧
        (clock₁ :: (ls.filterMap Label.time ++ [now])).Pairwise (· ≤ ·) := by
      cases hl : l.time with
      | none =>
        rw [List.filterMap_cons_none hl] at htimes
        exact ⟨clock, le_rfl, by simp, htimes⟩
      | some u =>
        rw [List.filterMap_cons_some hl, List.cons_append] at htimes
        obtain ⟨hle, htimes⟩ := List.pairwise_cons.mp htimes
        exact ⟨u, hle u List.mem_cons_self, by simp, htimes⟩
    have hstep := step_accounted (h.pass hle) htime (htimeout l List.mem_cons_self) hlisted.1
      (step_does h₁)
    have hrest := ih hstep hexec htimes₁ (fun l hl => htimeout l (List.mem_cons_of_mem _ hl))
      (hlisted.2 s₁ h₁)
    have hall : heard ∪ {e | e ∈ hearings s (l :: ls)} =
        heard ∪ {e | e ∈ hearing s l} ∪ {e | e ∈ hearings s₁ ls} := by
      ext e
      simp [hearings, h₁, or_assoc]
    rw [hall]
    exact hrest

/-! ### The lock -/

/-- A thread that holds the lock to read. -/
def Phase.Reads : Phase → Prop
  | .rlocked | .replaced | .copied _ => True
  | .idle | .found _ | .made _ | .wlocked _ | .added => False

/-- A thread that holds the lock to write. -/
def Phase.Writes : Phase → Prop
  | .wlocked _ | .added => True
  | .idle | .found _ | .made _ | .rlocked | .replaced | .copied _ => False

/-- The threads hold the lock as they should. -/
structure Locked (s : State ι) : Prop where
  reads : ∀ t, (s.phase t).Reads → t ∈ s.lock.readers
  writes : ∀ t, (s.phase t).Writes → s.lock.writer = some t
  alone : s.lock.writer = none ∨ s.lock.readers = []

omit [DecidableEq ι] in
/-- At the start nobody holds the lock. -/
theorem new_locked : Locked (State.new : State ι) where
  reads _ h := h.elim
  writes _ h := h.elim
  alone := .inl rfl

/-- A thread moves on, with the lock if it needs it. -/
theorem Locked.goto {t : ι} {phase : Phase} (h : Locked s) (s₁ : State ι)
    (hphase : s₁.phase = s.phase) (hreads : ∀ u ≠ t, u ∈ s.lock.readers → u ∈ s₁.lock.readers)
    (hwrites : ∀ u ≠ t, s.lock.writer = some u → s₁.lock.writer = some u)
    (halone : s₁.lock.writer = none ∨ s₁.lock.readers = [])
    (hr : phase.Reads → t ∈ s₁.lock.readers) (hw : phase.Writes → s₁.lock.writer = some t) :
    Locked (s₁.goto t phase) := by
  refine ⟨fun u hu => ?_, fun u hu => ?_, halone⟩
  -- only the thread that moves has another phase
  · by_cases hut : u = t
    · subst hut
      exact hr (by simpa only [State.goto, Function.update_self] using hu)
    · simp only [State.goto, hphase, Function.update_of_ne hut] at hu
      exact hreads u hut (h.reads u hu)
  · by_cases hut : u = t
    · subst hut
      exact hw (by simpa only [State.goto, Function.update_self] using hu)
    · simp only [State.goto, hphase, Function.update_of_ne hut] at hu
      exact hwrites u hut (h.writes u hu)

/-- A thread moves on and neither takes the lock nor gives it up. -/
theorem Locked.keep {t : ι} {phase : Phase} (h : Locked s) (s₁ : State ι)
    (hphase : s₁.phase = s.phase) (hlock : s₁.lock = s.lock)
    (hr : phase.Reads → (s.phase t).Reads) (hw : phase.Writes → (s.phase t).Writes) :
    Locked (s₁.goto t phase) := by
  refine h.goto s₁ hphase ?_ ?_ ?_ ?_ ?_ <;> rw [hlock]
  · exact fun _ _ hu => hu
  · exact fun _ _ hu => hu
  · exact h.alone
  · exact fun hphase => h.reads t (hr hphase)
  · exact fun hphase => h.writes t (hw hphase)

/-- Every step keeps to the lock. -/
theorem step_locked {l : Label ι} (h : Locked s) (hdoes : Does s l s') : Locked s' := by
  cases hdoes with
  | found in_ => exact h.keep s rfl rfl False.elim False.elim
  | made hnew => exact h.keep s rfl rfl False.elim False.elim
  | ignored => exact h.keep s rfl rfl False.elim False.elim
  | seen ht => exact h.keep _ rfl rfl False.elim False.elim
  | add ht => exact h.keep _ rfl rfl False.elim fun _ => by rw [ht]; trivial
  | removeExpired ht => exact h.keep _ rfl rfl (fun _ => by rw [ht]; trivial) False.elim
  | copy ht => exact h.keep _ rfl rfl (fun _ => by rw [ht]; trivial) False.elim
  -- the writer is alone
  | wlock ht hlock =>
    obtain ⟨⟨hfree, hnone⟩, hlock⟩ := Option.ite_none_right_eq_some.mp hlock
    obtain rfl := Option.some.inj hlock
    refine h.goto _ rfl (fun _ _ hu => hu) (fun u _ hu => ?_) (.inr hnone) False.elim fun _ => rfl
    cases hfree.symm.trans hu
  | @wunlock t ht =>
    have hwriter := h.writes t (by rw [ht]; trivial)
    refine h.goto _ rfl (fun _ _ hu => hu) (fun u hut hu => ?_) (.inl rfl) False.elim False.elim
    exact absurd (Option.some.inj (hu.symm.trans hwriter)) hut
  -- a reader comes in only while nobody writes
  | rlock ht hlock =>
    obtain ⟨hfree, hlock⟩ := Option.ite_none_right_eq_some.mp hlock
    obtain rfl := Option.some.inj hlock
    exact h.goto _ rfl (fun _ _ hu => List.mem_cons_of_mem _ hu) (fun _ _ hu => hu) (.inl hfree)
      (fun _ => List.mem_cons_self) False.elim
  | runlock ht =>
    refine h.goto _ rfl (fun u hut hu => (List.mem_erase_of_ne hut).mpr hu) (fun _ _ hu => hu)
      (h.alone.imp id fun hnone => ?_) False.elim False.elim
    show s.lock.readers.erase _ = []
    rw [hnone, List.erase_nil]

/-- In every state of a run the threads hold the lock as they should. -/
theorem exec_new_locked {ls : List (Label ι)}
    (hexec : exec State.step (State.new : State ι) ls = some s) : Locked s :=
  exec_invariant (fun _ _ _ h hs => step_locked h (step_does hs)) new_locked hexec

/-! ### Copies -/

/-- The same indexnodes are in the list, under the same ids. -/
def SameIds (ins ins' : Indexnodes) : Prop :=
  ins'.list = ins.list ∧ ∀ i, idAt ins'.store i = idAt ins.store i

/-- While a thread is about to copy the list, nothing is added to it. -/
theorem step_replaced {l : Label ι} {t : ι} (h : Locked s) (hdoes : Does s l s')
    (hl : ∀ u now timeout, l ≠ .removeExpired u now timeout) (ht : s'.phase t = .replaced) :
    s.phase t = .replaced ∧ SameIds s.ins s'.ins := by
  -- the thread itself has not moved
  have hstays : ∀ {s₁ : State ι} {u : ι} {phase : Phase}, s₁.phase = s.phase → phase ≠ .replaced →
      (s₁.goto u phase).phase t = .replaced → s.phase t = .replaced := by
    intro s₁ u phase hphase hne hgoto
    by_cases htu : t = u
    · subst htu
      simp only [State.goto, Function.update_self] at hgoto
      exact absurd hgoto hne
    · simpa only [State.goto, Function.update_of_ne htu, hphase] using hgoto
  have hsame : SameIds s.ins s.ins := ⟨rfl, fun _ => rfl⟩
  cases hdoes with
  | found in_ => exact ⟨hstays rfl (by simp) ht, hsame⟩
  | made hnew => exact ⟨hstays rfl (by simp) ht, hsame⟩
  | ignored => exact ⟨hstays rfl (by simp) ht, hsame⟩
  | seen hu => exact ⟨hstays rfl (by simp) ht, rfl, idAt_seen s.ins _ _⟩
  | wlock hu hlock => exact ⟨hstays rfl (by simp) ht, hsame⟩
  | @add u new hu =>
    have ht' := hstays rfl (by simp) ht
    have hreader := h.reads t (by rw [ht']; trivial)
    have hwriter := h.writes u (by rw [hu]; trivial)
    obtain hnone | hnil := h.alone
    · cases hnone.symm.trans hwriter
    · rw [hnil] at hreader
      cases hreader
  | wunlock hu => exact ⟨hstays rfl (by simp) ht, hsame⟩
  | rlock hu hlock => exact ⟨hstays rfl (by simp) ht, hsame⟩
  | removeExpired hu => exact absurd rfl (hl _ _ _)
  | copy hu => exact ⟨hstays rfl (by simp) ht, hsame⟩
  | runlock hu => exact ⟨hstays rfl (by simp) ht, hsame⟩

/-- A thread that has cleared the list still has its ids when it copies it, unless the list has
    been cleared again. -/
theorem exec_replaced {ls : List (Label ι)} {t : ι} (h : Locked s)
    (hexec : exec State.step s ls = some s')
    (hls : ∀ l ∈ ls, ∀ u now timeout, l ≠ .removeExpired u now timeout)
    (ht : s'.phase t = .replaced) : s.phase t = .replaced ∧ SameIds s.ins s'.ins := by
  -- the steps after the clearing do not change the ids of the list while the thread reads
  induction ls generalizing s with
  | nil =>
    obtain rfl : s = s' := by simpa using hexec
    exact ⟨ht, rfl, fun _ => rfl⟩
  | cons l ls ih =>
    simp only [exec_cons, Option.bind_eq_some_iff] at hexec
    obtain ⟨s₁, h₁, hexec⟩ := hexec
    have hdoes := step_does h₁
    obtain ⟨ht₁, hlist₁, hid₁⟩ := ih (step_locked h hdoes) hexec
      fun l hl => hls l (List.mem_cons_of_mem _ hl)
    obtain ⟨ht', hlist, hid⟩ := step_replaced h hdoes (hls l List.mem_cons_self) ht₁
    exact ⟨ht', hlist₁.trans hlist, fun i => (hid₁ i).trans (hid i)⟩

/-! ### Runs -/

/-- In a run in which time does not go back, and in which no indexnode expires and goes between its
    being found and its being marked as seen, the list that a thread gets has exactly those heard of
    less than the timeout before it was last cleared. -/
theorem exec_new_listed {ls ls' : List (Label ι)} {t u : ι} {now timeout : Int}
    (hexec : exec State.step (State.new : State ι)
      (ls ++ .removeExpired u now timeout :: ls' ++ [.copy t]) = some s)
    (hlast : ∀ l ∈ ls', ∀ u now timeout, l ≠ .removeExpired u now timeout)
    (htimes : (ls.filterMap Label.time ++ [now]).Pairwise (· ≤ ·))
    (htimeout : ∀ l ∈ ls, l.HasTimeout timeout)
    (hlisted : StepsMeet State.step SeenListed (State.new : State ι) ls) :
    ∃ list, s.phase t = .copied list ∧ ∀ id, some id ∈ list.map (idAt s.ins.store) ↔
      ∃ since, (id, since) ∈ hearings (State.new : State ι) ls ∧ now - since < timeout := by
  rw [exec_concat, Option.bind_eq_some_iff] at hexec
  obtain ⟨s₃, hexec, h₃⟩ := hexec
  rw [exec_append, Option.bind_eq_some_iff] at hexec
  obtain ⟨s₁, h₁, hexec⟩ := hexec
  rw [exec_cons, Option.bind_eq_some_iff] at hexec
  obtain ⟨s₂, h₂, hexec⟩ := hexec
  -- the list is accounted for when it is cleared
  have haccounted : Accounted timeout s₁ {e | e ∈ hearings (State.new : State ι) ls} now := by
    obtain ⟨clock, rest, htimes'⟩ : ∃ clock rest, ls.filterMap Label.time ++ [now] =
        clock :: rest := List.exists_cons_of_ne_nil (by simp)
    have hnew : Accounted timeout (State.new : State ι) ∅ clock := by
      have hnone : entries (State.new : State ι).ins = ∅ := by
        ext e
        simp [entries, State.new]
      refine ⟨?_, fun _ _ h => by simp [State.new] at h⟩
      rw [hnone]
      exact Keeps.empty timeout clock
    have hclock : (clock :: (ls.filterMap Label.time ++ [now])).Pairwise (· ≤ ·) := by
      rw [htimes'] at htimes ⊢
      refine List.pairwise_cons.mpr ⟨fun u hu => ?_, htimes⟩
      obtain rfl | hu := List.mem_cons.mp hu
      · exact le_rfl
      · exact (List.pairwise_cons.mp htimes).1 u hu
    simpa using exec_accounted hnew h₁ hclock htimeout hlisted
  have hlocked : Locked s₂ := step_locked (exec_new_locked h₁) (step_does h₂)
  cases step_does h₃ with
  | copy ht =>
    obtain ⟨-, hlist, hid⟩ := exec_replaced hlocked hexec hlast ht
    refine ⟨IndexnodesList.copy s₃.ins.list, Function.update_self t _ _, fun id => ?_⟩
    -- the copy has the ids that the list had when it was cleared
    have hids : (IndexnodesList.copy s₃.ins.list).map (idAt s₃.ins.store) =
        (ids s₂.ins).reverse := by
      rw [copy_eq, hlist, List.map_reverse, ids]
      exact congrArg List.reverse (List.map_congr_left fun i _ => hid i)
    show some id ∈ (IndexnodesList.copy s₃.ins.list).map (idAt s₃.ins.store) ↔ _
    rw [hids, List.mem_reverse, mem_ids_iff]
    cases step_does h₂ with
    | removeExpired _ =>
      simp only [State.goto, mem_entries_removeExpired]
      exact haccounted.keeps.exists_fresh_iff

/-- Found before it expires, cleared away, and marked as seen in vain. -/
example : (exec State.step (State.new : State Bool) [
      .event true 0 (ascii "h") (ascii "1") (ascii "fs2protocol-0.13") (ascii "a"),
      .wlock true, .add true, .wunlock true,
      .event true 10 (ascii "h") (ascii "1") (ascii "fs2protocol-0.13") (ascii "a"),
      .rlock false, .removeExpired false 10 10, .seen true 11]).map (ids ·.ins) = some [] := by
  decide +kernel

end Fsfuse.Native.IndexnodesEvents
