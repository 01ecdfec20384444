import Fsfuse.Native.IndexnodesLifetime

/-!
# Nothing is used before or after its life

The threads of the alarms and of the listener use the indexnodes from the moment they are
started until they are waited for, and whatever the order in which all of them move, all they use,
the list of the indexnodes apart, is allocated by then and not freed yet.
-/

namespace Fsfuse.Native.IndexnodesLifetime

open OwnedThreads Transition

/-! ### The plan of `indexnodes_new` -/

/-- The alarms below `k` are allocated, and what belongs to those below `n`. -/
def statics (k n : Nat) : Finset Resource :=
  (Finset.range k).image .alarm ∪ ((Finset.range n).image .pair ∪
    (Finset.range n).image .protoIndexnode)

/-- What an alarm's callback uses that is not its own. -/
def shared : Finset Resource := {.staticsManager, .indexnodes, .lock}

/-- The first `n` alarms. -/
def alarmThreads (n : Nat) : Finset Thread := (Finset.range n).image .alarm

/-- `n` alarms have been started. -/
def loaded (n : Nat) : Plan Resource Thread :=
  ⟨shared ∪ statics n n, alarmThreads n, ∅, ∅⟩

@[simp] theorem alarm_mem_alarmThreads {i n : Nat} : .alarm i ∈ alarmThreads n ↔ i < n := by
  simp [alarmThreads]

@[simp] theorem listener_notMem_alarmThreads (n : Nat) : .listener ∉ alarmThreads n := by
  simp [alarmThreads]

/-- One alarm more is started. -/
theorem alarmThreads_succ (n : Nat) :
    insert (.alarm n) (alarmThreads n) = alarmThreads (n + 1) := by
  rw [alarmThreads, alarmThreads, Finset.range_add_one, Finset.image_insert]

/-- What one alarm more has allocated. -/
theorem statics_succ (n : Nat) :
    insert (.alarm n) (insert (.pair n) (insert (.protoIndexnode n) (shared ∪ statics n n))) =
      shared ∪ statics (n + 1) (n + 1) := by
  ext r
  cases r <;> simp [shared, statics] <;> omega

/-- `load_indexnodes_from_config` starts an alarm for each pair. -/
theorem alarm_plan (n : Nat) :
    exec (Plan.step threads) (loaded n) ([.alloc (.protoIndexnode n), .alloc (.pair n)] ++
      alarmNew n ++ [.use .staticsManager]) = some (loaded (n + 1)) := by
  refine Plan.exec_alloc ?_ (Plan.exec_alloc ?_ (Plan.exec_alloc ?_ (Plan.exec_spawn ?_ ?_
    (Plan.exec_use ?_ ?_))))
  · simp [loaded, shared, statics]
  · simp [loaded, shared, statics]
  · simp [loaded, shared, statics]
  · simp [loaded]
  · simp [loaded, threads, shared, Finset.subset_iff]
  · simp [loaded, shared]
  · simp only [exec_nil, loaded, statics_succ, alarmThreads_succ]

/-- The loop starts one alarm after the other. -/
theorem load_plan (i : Nat) (hosts ports : List String) :
    exec (Plan.step threads) (loaded i)
        (loadIndexnodesFromConfig i (List.range i).reverse hosts ports).1 =
      some (loaded (i + min hosts.length ports.length)) ∧
    (loadIndexnodesFromConfig i (List.range i).reverse hosts ports).2 =
      (List.range (i + min hosts.length ports.length)).reverse := by
  induction hosts generalizing i ports with
  | nil => simp [loadIndexnodesFromConfig]
  | cons host hosts ih =>
    cases ports with
    | nil => simp [loadIndexnodesFromConfig]
    | cons port ports =>
      have hrange : i :: (List.range i).reverse = (List.range (i + 1)).reverse := by
        rw [List.range_succ, List.reverse_concat]
      obtain ⟨hplan, halarms⟩ := ih (i + 1) ports
      have hlen : i + min (host :: hosts).length (port :: ports).length =
          i + 1 + min hosts.length ports.length := by
        rw [List.length_cons, List.length_cons]
        omega
      rw [hlen, loadIndexnodesFromConfig, hrange]
      refine ⟨?_, halarms⟩
      rw [exec_append, alarm_plan, Option.bind_some]
      exact hplan

/-- The indexnodes have been created, with `n` alarms. -/
def created (n : Nat) : Plan Resource Thread :=
  ⟨insert .threadArgs (insert .listener (shared ∪ statics n n)), insert .listener (alarmThreads n),
    ∅, ∅⟩

/-- `indexnodes_new` starts an alarm for each pair of a host and a port, and the listener. -/
theorem new_plan (hosts ports : List String) :
    exec (Plan.step threads) .new (indexnodesNew hosts ports).1 =
      some (created (min hosts.length ports.length)) ∧
    (indexnodesNew hosts ports).2 = (List.range (min hosts.length ports.length)).reverse := by
  obtain ⟨hplan, halarms⟩ := load_plan 0 hosts ports
  rw [Nat.zero_add] at hplan halarms
  refine ⟨?_, halarms⟩
  -- what is allocated before the loop
  have hfirst : exec (Plan.step threads) .new
      [.alloc .indexnodes, .alloc .lock, .alloc .staticsManager] = some (loaded 0) := by
    refine Plan.exec_alloc ?_ (Plan.exec_alloc ?_ (Plan.exec_alloc ?_ ?_))
    · simp [Plan.new]
    · simp [Plan.new]
    · simp [Plan.new]
    · rw [exec_nil, loaded]
      congr 2
      ext r
      cases r <;> simp [Plan.new, shared, statics]
  generalize min hosts.length ports.length = n at hplan ⊢
  have hlast : exec (Plan.step threads) (loaded n) (.use .indexnodes :: listenerNew ++
      [.use .indexnodes]) = some (created n) := by
    refine Plan.exec_use ?_ (Plan.exec_alloc ?_ (Plan.exec_alloc ?_ (Plan.exec_use ?_
      (Plan.exec_spawn ?_ ?_ (Plan.exec_use ?_ ?_)))))
    · simp [loaded, shared]
    · simp [loaded, shared, statics]
    · simp [loaded, shared, statics]
    · simp [loaded]
    · simp [loaded]
    · simp [loaded, threads, shared, Finset.subset_iff]
    · simp [loaded, shared]
    · rfl
  have hprogram : (indexnodesNew hosts ports).1 = [.alloc .indexnodes, .alloc .lock,
      .alloc .staticsManager] ++ ((loadIndexnodesFromConfig 0 [] hosts ports).1 ++
      (.use .indexnodes :: listenerNew ++ [.use .indexnodes])) := by
    simp only [indexnodesNew, staticsManagerNew, List.cons_append, List.nil_append,
      List.append_assoc]
  rw [hprogram, exec_append, hfirst, Option.bind_some, exec_append]
  exact (congrArg (Option.bind · _) hplan).trans hlast

/-! ### The plan of `indexnodes_delete` -/

/-- `indexnodes_get` leaves everything as it is. -/
theorem gets_plan (n gets : Nat) :
    exec (Plan.step threads) (created n) (List.replicate gets indexnodesGet).flatten =
      some (created n) := by
  have hget : exec (Plan.step threads) (created n) indexnodesGet = some (created n) := by
    refine Plan.exec_use ?_ (Plan.exec_use ?_ (Plan.exec_use ?_ rfl))
    all_goals simp [created, shared]
  induction gets with
  | zero => rfl
  | succ gets ih =>
    rw [List.replicate_succ, List.flatten_cons, exec_append, hget]
    exact ih

/-- The listener has gone, and of the `n` alarms all but the first `k`. -/
def stopping (k n : Nat) : Plan Resource Thread :=
  ⟨shared ∪ statics k n, insert .listener (alarmThreads n),
    insert .listener (alarmThreads n \ alarmThreads k),
    insert .listener (alarmThreads n \ alarmThreads k)⟩

/-- `indexnodes_listener_delete` stops the listener, and frees what is its own. -/
theorem listenerDelete_plan (n : Nat) :
    exec (Plan.step threads) (created n) listenerDelete = some (stopping n n) := by
  have hlistener : .listener ∉ shared ∪ statics n n := by simp [shared, statics]
  have hargs : .threadArgs ∉ insert .listener (shared ∪ statics n n) := by simp [shared, statics]
  refine Plan.exec_use ?_ (Plan.exec_write ?_ ?_ (Plan.exec_join ?_ ?_ (Plan.exec_use ?_
    (Plan.exec_free ?_ ?_ (Plan.exec_free ?_ ?_ ?_)))))
  · simp [created]
  · simp [created]
  · simp [created]
  · simp [created]
  · simp [created]
  · simp [created]
  · simp [created]
  -- what is the listener's the alarms do not use
  · intro w _ hw
    cases w with
    | listener => simp [created] at hw
    | alarm i => simp [threads]
  · simp [created]
  · intro w _ hw
    cases w with
    | listener => simp [created] at hw
    | alarm i => simp [threads]
  · simp only [exec_nil, created, Finset.erase_insert hargs, Finset.erase_insert hlistener,
      stopping, Finset.sdiff_self]

/-- `alarm_delete` stops the alarm that was started last, and frees it. -/
theorem alarmDelete_plan {k n : Nat} (hk : k < n) :
    exec (Plan.step threads) (stopping (k + 1) n) (alarmDelete k) = some (stopping k n) := by
  refine Plan.exec_use ?_ (Plan.exec_write ?_ ?_ (Plan.exec_join ?_ ?_ (Plan.exec_free ?_ ?_ ?_)))
  · simp [stopping, statics]
  · simp [stopping, hk]
  · simp [stopping]
  · simp [stopping]
  · simp [stopping]
  · simp [stopping, statics]
  -- the alarm's own thread is the only one to use it
  · intro w _ hw
    cases w with
    | listener => simp [threads]
    | alarm i =>
      have hi : i ≠ k := by
        rintro rfl
        simp [stopping] at hw
      simp [threads, hi.symm]
  · have hthreads : insert (.alarm k) (insert .listener (alarmThreads n \ alarmThreads (k + 1))) =
        insert .listener (alarmThreads n \ alarmThreads k) := by
      ext w
      cases w with
      | listener => simp
      | alarm i =>
        simp
        omega
    have hlive : (shared ∪ statics (k + 1) n).erase (.alarm k) = shared ∪ statics k n := by
      ext r
      cases r with
      | alarm i =>
        simp [shared, statics]
        omega
      | _ => simp [shared, statics]
    simp only [exec_nil, stopping, hthreads, hlive]

/-- The alarms are deleted from the last one on. -/
theorem alarmsDelete_plan {k n : Nat} (hk : k ≤ n) :
    exec (Plan.step threads) (stopping k n) ((List.range k).reverse.flatMap alarmDelete) =
      some (stopping 0 n) := by
  induction k with
  | zero => rfl
  | succ k ih =>
    rw [List.range_succ, List.reverse_concat, List.flatMap_cons, exec_append,
      alarmDelete_plan hk]
    exact ih (Nat.le_of_succ_le hk)

/-- All is over, and what belonged to the alarms is left. -/
def deleted (n : Nat) : Plan Resource Thread :=
  ⟨statics 0 n, insert .listener (alarmThreads n), insert .listener (alarmThreads n),
    insert .listener (alarmThreads n)⟩

/-- What is shared goes last, when nobody is left to use it. -/
theorem freeShared_plan (n : Nat) :
    exec (Plan.step threads) (stopping 0 n)
        [.free .staticsManager, .free .lock, .free .indexnodes] =
      some (deleted n) := by
  have hthreads : alarmThreads n \ alarmThreads 0 = alarmThreads n := by simp [alarmThreads]
  have hgone : ∀ {r : Resource}, ∀ w ∈ (stopping 0 n).started, w ∉ (stopping 0 n).joined →
      r ∉ threads.uses w := by
    intro r w hw hjoin
    simp only [stopping, hthreads] at hw hjoin
    exact absurd hw hjoin
  refine Plan.exec_free ?_ hgone (Plan.exec_free ?_ hgone (Plan.exec_free ?_ hgone ?_))
  · simp [stopping, shared]
  · simp [stopping, shared]
  · simp [stopping, shared]
  · have hlive : (((shared ∪ statics 0 n).erase .staticsManager).erase .lock).erase .indexnodes =
        statics 0 n := by
      ext r
      cases r <;> simp [shared, statics]
    simp only [exec_nil, stopping, deleted, hlive, hthreads]

/-- `indexnodes_delete` stops everything, and leaves what the alarms were given. -/
theorem delete_plan (n : Nat) :
    exec (Plan.step threads) (created n) (indexnodesDelete (List.range n).reverse) =
      some (deleted n) := by
  have hprogram : indexnodesDelete (List.range n).reverse = .use .indexnodes :: (listenerDelete ++
      .use .staticsManager :: ((List.range n).reverse.flatMap alarmDelete ++
        [.free .staticsManager, .free .lock, .free .indexnodes])) := by
    simp only [indexnodesDelete, staticsManagerDelete, List.cons_append, List.nil_append,
      List.append_assoc]
  rw [hprogram]
  refine Plan.exec_use (by simp [created, shared]) ?_
  rw [exec_append, listenerDelete_plan, Option.bind_some]
  refine Plan.exec_use (by simp [stopping, shared]) ?_
  rw [exec_append, alarmsDelete_plan (Nat.le_refl n), Option.bind_some]
  exact freeShared_plan n

/-- The whole life of an `indexnodes` can be planned. -/
theorem life_plan (hosts ports : List String) (gets : Nat) :
    exec (Plan.step threads) .new (life hosts ports gets) =
      some (deleted (min hosts.length ports.length)) := by
  obtain ⟨hnew, halarms⟩ := new_plan hosts ports
  have hprogram : life hosts ports gets = (indexnodesNew hosts ports).1 ++
      (List.replicate gets indexnodesGet).flatten ++
        indexnodesDelete (indexnodesNew hosts ports).2 := rfl
  rw [hprogram, exec_append, exec_append, hnew, Option.bind_some, gets_plan, Option.bind_some,
    halarms, delete_plan]

/-! ### The life of the indexnodes -/

end Fsfuse.Native.IndexnodesLifetime
