import Fsfuse.Native.Statfs
import Fsfuse.Spec.ParserCalls

/-!
# What statfs replies

`statfs` is meant to reply exactly once, with the totals of what the indexnodes report, and
not to touch its context afterwards.

The callback counts down once for every time it is called, but the counter starts at the number of
indexnodes. So everything hangs on how often it is called: fewer calls than indexnodes give no reply
at all, more use the context after it is freed. And it is not the parser that calls it, but the
fetcher, once for every block of a page, with where that is and how long it is. These are what is
added up.

* `indexnodeTrygetStats_eq` — what the fetch of a page does to a request;
* `replay_*` — what a number of callbacks does to a request;
* `fsfuseStatfs_answers_iff` — exactly when `statfs` does what it should.
-/

namespace Fsfuse.Native

namespace Statfs

open Fetcher

/-! ### The countdown -/

/-- How many callbacks a counter waits for; a counter of 0 goes all the way round. -/
def awaited (cbs : UInt32) : Nat := (cbs - 1).toNat + 1

/-- The context after some more callbacks. -/
def tally (stats : StatsCtxt) (calls : List (UInt64 × UInt64)) : StatsCtxt :=
  calls.foldl
    (fun stats call =>
      { stvfs := { stats.stvfs with fFiles := stats.stvfs.fFiles + call.1 }
        bytesTotal := stats.bytesTotal + call.2
        cbsRemaining := stats.cbsRemaining - 1 })
    stats

/-- What is replied from a context. -/
def reply (stats : StatsCtxt) : Statvfs :=
  { stats.stvfs with fBlocks := stats.bytesTotal / stats.stvfs.fBsize }

/-- A callback that is not the last leaves one less to wait for. -/
theorem awaited_of_ne (cbs : UInt32) (hcbs : cbs - 1 ≠ 0) :
    awaited cbs = awaited (cbs - 1) + 1 := by
  have hne : (cbs - 1).toNat ≠ 0 := by
    intro h
    exact hcbs (UInt32.toNat_inj.mp (by simpa using h))
  -- the counter is decremented modulo `2 ^ 32`
  have hlt := (cbs - 1).toNat_lt
  simp only [awaited]
  rw [UInt32.toNat_sub (cbs - 1) 1]
  simp only [UInt32.reduceToNat]
  omega

/-- Callbacks are added up one after the other. -/
theorem tally_cons (stats : StatsCtxt) (call : UInt64 × UInt64)
    (calls : List (UInt64 × UInt64)) :
    tally stats (call :: calls) = tally (tally stats [call]) calls := rfl

/-- A callback counts down by one. -/
@[simp] theorem cbsRemaining_tally_singleton (stats : StatsCtxt) (call : UInt64 × UInt64) :
    (tally stats [call]).cbsRemaining = stats.cbsRemaining - 1 := rfl

/-- Making some calls of the callback. -/
def replay (req : StatfsRequest) (calls : List (UInt64 × UInt64)) : Except Fault StatfsRequest :=
  calls.foldlM (fun req call => statsCb req call.1 call.2) req

/-- Callbacks act one after the other as they act together. -/
theorem replay_append (req : StatfsRequest) (calls calls' : List (UInt64 × UInt64)) :
    replay req (calls ++ calls') = (replay req calls).bind (replay · calls') := by
  rw [replay, List.foldlM_append]
  rfl

/-- The first callback acts before the others. -/
theorem replay_cons (req : StatfsRequest) (call : UInt64 × UInt64)
    (calls : List (UInt64 × UInt64)) :
    replay req (call :: calls) =
      (statsCb req call.1 call.2).bind (replay · calls) := rfl

/-- A callback that is not the last one. -/
theorem statsCb_of_ne {stats : StatsCtxt} (replies : List Statvfs) (call : UInt64 × UInt64)
    (hne : stats.cbsRemaining - 1 ≠ 0) :
    statsCb ⟨some stats, replies⟩ call.1 call.2 =
      .ok ⟨some (tally stats [call]), replies⟩ := by
  simp [statsCb, tally, hne]

/-- The last callback. -/
theorem statsCb_of_eq {stats : StatsCtxt} (replies : List Statvfs) (call : UInt64 × UInt64)
    (heq : stats.cbsRemaining - 1 = 0) :
    statsCb ⟨some stats, replies⟩ call.1 call.2 =
      .ok ⟨none, replies ++ [reply (tally stats [call])]⟩ := by
  simp [statsCb, tally, reply, heq]

/-- Callbacks that do not use up the counter. -/
theorem replay_statsCb_lt (stats : StatsCtxt) (replies : List Statvfs)
    (calls : List (UInt64 × UInt64)) (hlt : calls.length < awaited stats.cbsRemaining) :
    replay ⟨some stats, replies⟩ calls = .ok ⟨some (tally stats calls), replies⟩ := by
  -- on the callbacks: each takes one off what is awaited
  induction calls generalizing stats with
  | nil => rfl
  | cons call calls ih =>
    have hne : stats.cbsRemaining - 1 ≠ 0 := by
      intro heq
      simp [awaited, heq] at hlt
    rw [replay_cons, statsCb_of_ne replies call hne, tally_cons]
    apply ih (tally stats [call])
    rw [awaited_of_ne _ hne, List.length_cons] at hlt
    exact Nat.lt_of_succ_lt_succ hlt

/-- Callbacks that use up the counter: the request is replied to. -/
theorem replay_statsCb_eq (stats : StatsCtxt) (replies : List Statvfs)
    (calls : List (UInt64 × UInt64)) (heq : calls.length = awaited stats.cbsRemaining) :
    replay ⟨some stats, replies⟩ calls =
      .ok ⟨none, replies ++ [reply (tally stats calls)]⟩ := by
  induction calls generalizing stats with
  | nil => simp [awaited] at heq
  | cons call calls ih =>
    rw [replay_cons]
    -- the last callback replies and frees the context, the others only add up
    by_cases hlast : stats.cbsRemaining - 1 = 0
    · have hnil : calls = [] := by simpa [awaited, hlast] using heq
      subst hnil
      rw [statsCb_of_eq replies call hlast]
      rfl
    · rw [statsCb_of_ne replies call hlast, tally_cons]
      apply ih (tally stats [call])
      rw [awaited_of_ne _ hlast, List.length_cons] at heq
      exact Nat.succ.inj heq

/-- More callbacks than that: the context is used after it is freed. -/
theorem replay_statsCb_gt (stats : StatsCtxt) (replies : List Statvfs)
    (calls : List (UInt64 × UInt64)) (hgt : awaited stats.cbsRemaining < calls.length) :
    replay ⟨some stats, replies⟩ calls = .error .useAfterFree := by
  -- the first callback too many finds no context
  rw [← List.take_append_drop (awaited stats.cbsRemaining) calls, replay_append,
    replay_statsCb_eq stats replies _ (by rw [List.length_take]; omega)]
  cases hdrop : calls.drop (awaited stats.cbsRemaining) with
  | nil =>
    have := List.drop_eq_nil_iff.mp hdrop
    omega
  | cons call rest => rfl

/-- A request is replied to, and its context left alone afterwards, when it gets exactly
    the callbacks that it waits for. -/
theorem replay_statsCb_replied_iff (stats : StatsCtxt) (calls : List (UInt64 × UInt64))
    (stvfs : Statvfs) :
    (∃ req, replay ⟨some stats, []⟩ calls = .ok req ∧ req.replies = [stvfs]) ↔
      calls.length = awaited stats.cbsRemaining ∧ stvfs = reply (tally stats calls) := by
  -- too few callbacks do not reply, too many use what is freed
  rcases Nat.lt_trichotomy calls.length (awaited stats.cbsRemaining) with hlt | heq | hgt
  · rw [replay_statsCb_lt stats [] calls hlt]
    simp [Nat.ne_of_lt hlt]
  · rw [replay_statsCb_eq stats [] calls heq]
    simp [heq, eq_comm]
  · rw [replay_statsCb_gt stats [] calls hgt]
    simp [Nat.ne_of_gt hgt]

/-! ### The totals -/

/-- The files that callbacks add up to. -/
def filesOf (calls : List (UInt64 × UInt64)) : Nat := (calls.map (·.1.toNat)).sum

/-- The bytes that callbacks add up to. -/
def bytesOf (calls : List (UInt64 × UInt64)) : Nat := (calls.map (·.2.toNat)).sum

/-- A field of the context that callbacks add to counts them modulo `2 ^ 64`. -/
theorem toNat_tally (field : StatsCtxt → UInt64) (w : UInt64 × UInt64 → UInt64)
    (hfield : ∀ stats call, field (tally stats [call]) = field stats + w call)
    (stats : StatsCtxt) (calls : List (UInt64 × UInt64)) :
    (field (tally stats calls)).toNat =
      ((field stats).toNat + (calls.map fun call => (w call).toNat).sum) % 2 ^ 64 := by
  induction calls generalizing stats with
  | nil => exact (Nat.mod_eq_of_lt (field stats).toNat_lt).symm
  | cons call calls ih =>
    rw [tally_cons, ih, hfield, UInt64.toNat_add, Nat.mod_add_mod, List.map_cons, List.sum_cons,
      Nat.add_assoc]

/-- The block size stays as it was set. -/
@[simp] theorem fBsize_tally (stats : StatsCtxt) (calls : List (UInt64 × UInt64)) :
    (tally stats calls).stvfs.fBsize = stats.stvfs.fBsize := by
  induction calls generalizing stats with
  | nil => rfl
  | cons call calls ih => rw [tally_cons, ih]; rfl

/-! ### The fetches -/

section Fetches

variable {d : Daemon} {cb ctxt : Nat}

/-- The memory at the first block of a page. -/
def Asked.memory (in_ : Asked d cb ctxt) : Fetcher.Memory :=
  (parserStatsNew in_.places cb ctxt in_.mem).store in_.places.wrapper
    [d.parserStatsConsume, in_.places.parser]

/-- What `stats_cb` takes for the files and the bytes in a call. -/
def Asked.taken (in_ : Asked d cb ctxt) (call : Call (List UInt8) × Nat) : UInt64 × UInt64 :=
  (in_.address call.2, .ofNat call.1.arg.length)

/-- The callbacks for an indexnode: one for each block, until one returns something else than 0. -/
def Asked.callbacks (in_ : Asked d cb ctxt) : List (UInt64 × UInt64) :=
  (heard d.functions cb ctxt (in_.answers (ascii "stats") []).blocks in_.memory).zipIdx.map
    in_.taken

/-- Calls of the callback, with its context, act on the request as it does. -/
theorem foldlM_called (in_ : Asked d cb ctxt) (calls : List (Call (List UInt8) × Nat))
    (hcalls : ∀ call ∈ calls, call.1.fn = cb ∧ call.1.ctxt = ctxt) (req : StatfsRequest) :
    calls.foldlM (called in_) req = replay req (calls.map in_.taken) := by
  induction calls generalizing req with
  | nil => rfl
  | cons call calls ih =>
    rw [List.forall_mem_cons] at hcalls
    rw [List.foldlM_cons, called, if_pos hcalls.1, List.map_cons, replay_cons]
    exact bind_congr (ih hcalls.2)

/-- The fetch of a page acts on the request by its callbacks. -/
theorem indexnodeTrygetStats_eq (req : StatfsRequest) (in_ : Asked d cb ctxt) :
    indexnodeTrygetStats req in_ = replay req in_.callbacks := by
  rw [indexnodeTrygetStats, trygetStats_calls d in_.answers in_.toRegistration]
  apply foldlM_called
  intro call hcall
  exact of_mem_heard (List.fst_mem_of_mem_zipIdx hcall)

/-- The fetches of a list act on the request by all callbacks, one after the other. -/
theorem foldlM_indexnodeTrygetStats (list : List (Asked d cb ctxt)) (req : StatfsRequest) :
    list.foldlM indexnodeTrygetStats req = replay req (list.flatMap Asked.callbacks) := by
  induction list generalizing req with
  | nil => rfl
  | cons in_ list ih =>
    rw [List.foldlM_cons, indexnodeTrygetStats_eq, List.flatMap_cons, replay_append]
    exact bind_congr ih

/-! ### The request -/

/-- The counter is set to the number of indexnodes, as far as it goes. -/
@[simp] theorem countIndexnodes_newCtxt (list : List (Asked d cb ctxt)) :
    countIndexnodes newCtxt list = { newCtxt with cbsRemaining := .ofNat list.length } := by
  -- from any counter, for the induction
  have hcount : ∀ stats : StatsCtxt, countIndexnodes stats list =
      { stats with cbsRemaining := stats.cbsRemaining + .ofNat list.length } := by
    induction list with
    | nil => intro stats; simp [countIndexnodes]
    | cons in_ list ih =>
      intro stats
      have hcons : countIndexnodes stats (in_ :: list) = countIndexnodes
          { stats with cbsRemaining := stats.cbsRemaining + 1 } list := rfl
      rw [hcons, ih, List.length_cons, UInt32.ofNat_add, UInt32.add_comm (.ofNat list.length),
        ← UInt32.add_assoc]
      rfl
  rw [hcount]
  simp [newCtxt]

/-- A counter that was set to a number waits for as many callbacks, modulo `2 ^ 32`. -/
theorem awaited_ofNat {n : Nat} (hn : n ≠ 0) :
    awaited (.ofNat n) = (n - 1) % 2 ^ 32 + 1 := by
  obtain ⟨m, rfl⟩ := Nat.exists_eq_succ_of_ne_zero hn
  simp only [awaited, Nat.succ_eq_add_one, UInt32.ofNat_add, UInt32.reduceOfNat,
    UInt32.add_sub_cancel, UInt32.toNat_ofNat', Nat.add_sub_cancel]

/-- What is replied for a list of indexnodes. -/
def replied (list : List (Asked d cb ctxt)) : Statvfs :=
  reply (tally { newCtxt with cbsRemaining := .ofNat list.length } (list.flatMap Asked.callbacks))

/-- What `statfs` replies, and when. -/
theorem fsfuseStatfs_replied_iff (list : List (Asked d cb ctxt)) (stvfs : Statvfs) :
    (∃ req, fsfuseStatfs list = .ok req ∧ req.replies = [stvfs]) ↔
      list ≠ [] ∧ (list.flatMap Asked.callbacks).length = (list.length - 1) % 2 ^ 32 + 1 ∧
        stvfs = replied list := by
  rw [fsfuseStatfs, countIndexnodes_newCtxt, foldlM_indexnodeTrygetStats,
    replay_statsCb_replied_iff]
  -- without indexnodes the counter is 0, and waits for `2 ^ 32` callbacks
  rcases eq_or_ne list [] with rfl | hne
  · simp [awaited]
  · rw [awaited_ofNat (by simpa using hne)]
    simp [hne, replied]

/-- The size of a block is never changed. -/
theorem fBsize_replied (list : List (Asked d cb ctxt)) : (replied list).fBsize = 512 := by
  simp [replied, reply, newCtxt, fsfuseBlksize]

/-- The files replied are the addresses of the blocks, as far as 64 bits go. -/
theorem toNat_fFiles_replied (list : List (Asked d cb ctxt)) :
    (replied list).fFiles.toNat = filesOf (list.flatMap Asked.callbacks) % 2 ^ 64 := by
  rw [replied, reply, toNat_tally (·.stvfs.fFiles) (·.1) fun _ _ => rfl]
  simp [newCtxt, filesOf]

/-- The bytes that the reply is made from are the lengths of the blocks, as far as 64 bits go. -/
theorem toNat_fBlocks_replied (list : List (Asked d cb ctxt)) :
    (replied list).fBlocks.toNat =
      bytesOf (list.flatMap Asked.callbacks) % 2 ^ 64 / 512 := by
  rw [replied, reply, UInt64.toNat_div, toNat_tally (·.bytesTotal) (·.2) fun _ _ => rfl]
  simp [newCtxt, fsfuseBlksize, bytesOf]

/-! ### What is meant -/

/-- The numbers of files and of bytes that a body reports, if it reports any. -/
abbrev Reporting := List UInt8 → Option (Nat × Nat)

/-- What is reported by the indexnodes that have answered. -/
def reported (reporting : Reporting) (list : List (Asked d cb ctxt)) : List (Nat × Nat) :=
  (list.filter fun in_ => (in_.answers (ascii "stats") []).Succeeded).filterMap fun in_ =>
    reporting (in_.answers (ascii "stats") []).body

/-- What `statfs` is for: one reply, with the totals of what the indexnodes report, and no
    use of the context after that. -/
def Answers (reporting : Reporting) (list : List (Asked d cb ctxt)) : Prop :=
  ∃ req stvfs, fsfuseStatfs list = .ok req ∧ req.replies = [stvfs] ∧
    stvfs.fFiles.toNat = ((reported reporting list).map Prod.fst).sum ∧
    stvfs.fBlocks.toNat = ((reported reporting list).map Prod.snd).sum / stvfs.fBsize.toNat

/-- There are as many callbacks as indexnodes, as far as 32 bits go, and what the callback takes
    for the figures comes to the totals of what is reported. -/
structure Countable (reporting : Reporting) (list : List (Asked d cb ctxt)) : Prop where
  nonempty : list ≠ []
  inTurn : (list.flatMap Asked.callbacks).length = (list.length - 1) % 2 ^ 32 + 1
  files : filesOf (list.flatMap Asked.callbacks) % 2 ^ 64 =
    ((reported reporting list).map Prod.fst).sum
  bytes : bytesOf (list.flatMap Asked.callbacks) % 2 ^ 64 / 512 =
    ((reported reporting list).map Prod.snd).sum / 512

/-- `statfs` does what it should exactly when the blocks of the pages happen to count right. -/
theorem fsfuseStatfs_answers_iff (reporting : Reporting) (list : List (Asked d cb ctxt)) :
    Answers reporting list ↔ Countable reporting list := by
  have hbsize : (replied list).fBsize.toNat = 512 := by rw [fBsize_replied]; rfl
  constructor
  · intro h
    obtain ⟨req, stvfs, hreq, hreplies, hfiles, hblocks⟩ := h
    obtain ⟨hne, hlen, rfl⟩ := (fsfuseStatfs_replied_iff list stvfs).mp ⟨req, hreq, hreplies⟩
    -- what is replied is known, so its two totals say what is missing
    rw [toNat_fFiles_replied] at hfiles
    rw [toNat_fBlocks_replied, hbsize] at hblocks
    exact ⟨hne, hlen, hfiles, hblocks⟩
  · intro h
    obtain ⟨hne, hlen, hfiles, hblocks⟩ := h
    obtain ⟨req, hreq, hreplies⟩ := (fsfuseStatfs_replied_iff list (replied list)).mpr
      ⟨hne, hlen, rfl⟩
    refine ⟨req, replied list, hreq, hreplies, ?_, ?_⟩
    · rw [toNat_fFiles_replied, hfiles]
    · rw [toNat_fBlocks_replied, hbsize, hblocks]

end Fetches

/-! ### Who asks nobody, and who asks somebody -/

/-- A page that reports 3 files and 640 bytes. -/
def page : List UInt8 := ascii "3 files (640 bytes)"

/-- What the page reports; no other reports anything. -/
def reporting : Reporting := fun body => if body = page then some (3, 640) else none

/-- An indexnode that answers with the page, in one block at 4096. The callback is at 3 and its
    context at 4, the parser at 100 and the wrapper's context at 200. -/
def answering : Asked .idle 3 4 where
  places := ⟨100, 5, 200⟩
  mem _ := 0
  apart := by decide
  keeps _ _ _ _ := rfl
  answers _ _ := .arrived page
  address _ := 4096

/-- Without indexnodes nobody calls back, and nobody replies. With one that answers it is the
    address of the block that is replied. -/
theorem fsfuseStatfs_not_answers_nil :
    ¬ Answers reporting ([] : List (Asked .idle 3 4)) ∧ ¬ Answers reporting [answering] := by
  -- without indexnodes there are no fetches
  constructor
  · intro h
    obtain ⟨req, stvfs, hreq, hreplies, -⟩ := h
    have hnone : fsfuseStatfs ([] : List (Asked .idle 3 4)) = .ok ⟨some newCtxt, []⟩ := rfl
    rw [hnone] at hreq
    cases hreq
    cases hreplies
  -- the address of the block is not the three files that are reported
  · intro h
    obtain ⟨req, stvfs, hreq, hreplies, hfiles, -⟩ := h
    obtain ⟨-, -, rfl⟩ := (fsfuseStatfs_replied_iff [answering] stvfs).mp ⟨req, hreq, hreplies⟩
    rw [toNat_fFiles_replied] at hfiles
    revert hfiles
    decide

end Statfs

end Fsfuse.Native
