import Fsfuse.Native.Fetcher

/-!
# Registered callbacks

A fetch is meant to call the caller's own callback with the caller's own context, block by
block, until it first returns something else than 0, and then to tell libcurl to stop.

libcurl is given the caller's context, and the wrapper takes that for its own. So it calls
whatever the first two words there are, which is the right callback with the right context
only if they hold the one and point back to themselves.
-/

namespace Fsfuse.Native.Fetcher

variable {α β : Type} (fns : Functions α) (cb ctxt : Nat) (arg : β → Option α)

/-! ### What is meant -/

/-- The calls of a callback on its blocks, and whether libcurl is told to stop. -/
def registered : List β → Memory → List (Call α) × Bool
  | [], _ => ([], false)
  | block :: blocks, mem =>
    match arg block with
    | none => registered blocks mem
    | some a =>
      if (fns cb ctxt a mem).1 ≠ 0 then ([⟨cb, ctxt, a, (fns cb ctxt a mem).1⟩], true)
      else
        let (calls, stop) := registered blocks (fns cb ctxt a mem).2
        (⟨cb, ctxt, a, (fns cb ctxt a mem).1⟩ :: calls, stop)

/-- The calls of a fetch, and whether it told libcurl to stop. -/
def Fetched.made (f : Fetched α) : List (Call α) × Bool := (f.calls, f.curlRc == .writeError)

/-- The context is a wrapper's for itself: at each call of the callback the two words there are
    the callback and the context, and the block of a call that returns something else than 0 is
    not empty. -/
def WrapsItself (length : β → Nat) : List β → Memory → Prop
  | [], _ => True
  | block :: blocks, mem =>
    match arg block with
    | none => WrapsItself length blocks mem
    | some a =>
      mem ctxt = cb ∧ mem (ctxt + wordSize) = ctxt ∧
        if (fns cb ctxt a mem).1 ≠ 0 then length block ≠ 0
        else WrapsItself length blocks (fns cb ctxt a mem).2

/-! ### What is done -/

/-- The calls made on some blocks, and whether libcurl was told to stop. -/
def made (length : β → Nat) (ending : Ending) (blocks : List β) (mem : Memory) :
    List (Call α) × Bool :=
  (Fetched.of (perform length
    (fun block => cbWrapper fns (length block) (arg block) ctxt) ending blocks mem)).made

variable {length : β → Nat} {ending : Ending} {block : β} {blocks : List β} {mem : Memory}

@[simp] theorem made_nil : made fns ctxt arg length ending [] mem = ([], false) := by
  simp [made, Fetched.made, Fetched.of, perform, ending.2]

/-- A block that is not passed on is taken whole. -/
theorem made_cons_none (h : arg block = none) :
    made fns ctxt arg length ending (block :: blocks) mem =
      made fns ctxt arg length ending blocks mem := by
  simp [made, Fetched.made, Fetched.of, perform, cbWrapper, h]

/-- Any other is given to what the wrapper finds; libcurl stops at one that is not empty. -/
theorem made_cons_some {a : α} (h : arg block = some a) :
    made fns ctxt arg length ending (block :: blocks) mem =
      let called := fns (mem ctxt) (mem (ctxt + wordSize)) a mem
      let call := ⟨mem ctxt, mem (ctxt + wordSize), a, called.1⟩
      if called.1 ≠ 0 ∧ length block ≠ 0 then ([call], true)
      else
        let rest := made fns ctxt arg length ending blocks called.2
        (call :: rest.1, rest.2) := by
  simp only [made, Fetched.made, Fetched.of, perform, cbWrapper, h]
  by_cases hrc : (fns (mem ctxt) (mem (ctxt + wordSize)) a mem).1 = 0
  · simp [hrc]
  · by_cases hlength : length block = 0
    · simp [hrc, hlength]
    · simp [hrc, hlength, Ne.symm hlength]

/-- libcurl is told to stop by a call. -/
theorem made_ne_of_stop (blocks : List β) (mem : Memory) :
    made fns ctxt arg length ending blocks mem ≠ ([], true) := by
  induction blocks generalizing mem with
  | nil => simp
  | cons block blocks ih =>
    cases h : arg block with
    | none =>
      rw [made_cons_none fns ctxt arg h]
      exact ih mem
    | some a =>
      rw [made_cons_some fns ctxt arg h]
      dsimp only
      split <;> simp

/-- The first call is the right one only if the two words at the context say so. -/
theorem words_of_made_eq {a : α} (h : arg block = some a)
    (heq : made fns ctxt arg length ending (block :: blocks) mem =
      registered fns cb ctxt arg (block :: blocks) mem) :
    mem ctxt = cb ∧ mem (ctxt + wordSize) = ctxt := by
  have hcall : (made fns ctxt arg length ending (block :: blocks) mem).1.head?.map
      (fun call => (call.fn, call.ctxt)) = some (mem ctxt, mem (ctxt + wordSize)) := by
    rw [made_cons_some fns ctxt arg h]
    dsimp only
    split <;> rfl
  have hown : (registered fns cb ctxt arg (block :: blocks) mem).1.head?.map
      (fun call => (call.fn, call.ctxt)) = some (cb, ctxt) := by
    simp only [registered, h]
    split <;> rfl
  rw [heq, hown] at hcall
  simp only [Option.some.injEq, Prod.mk.injEq] at hcall
  exact ⟨hcall.1.symm, hcall.2.symm⟩

/-- The own callback is called as it should be exactly if the context wraps itself. -/
theorem made_eq_registered_iff (blocks : List β) (mem : Memory) :
    made fns ctxt arg length ending blocks mem = registered fns cb ctxt arg blocks mem ↔
      WrapsItself fns cb ctxt arg length blocks mem := by
  induction blocks generalizing mem with
  | nil => simp [registered, WrapsItself]
  | cons block blocks ih =>
    cases h : arg block with
    | none =>
      rw [made_cons_none fns ctxt arg h]
      simp only [registered, WrapsItself, h]
      exact ih mem
    | some a =>
      -- without the right words the first call is wrong already
      by_cases hwords : mem ctxt = cb ∧ mem (ctxt + wordSize) = ctxt
      · rw [made_cons_some fns ctxt arg h, hwords.1, hwords.2]
        simp only [registered, WrapsItself, h, hwords, true_and]
        by_cases hrc : (fns cb ctxt a mem).1 = 0
        · simp [hrc, ← ih, Prod.ext_iff]
        · by_cases hlength : length block = 0
          · -- libcurl is not told to stop by an empty block
            have hne : made fns ctxt arg length ending blocks (fns cb ctxt a mem).2 ≠ ([], true) :=
              made_ne_of_stop fns ctxt arg blocks _
            simpa [hrc, hlength, Prod.ext_iff] using hne
          · simp [hrc, hlength]
      · constructor
        · intro heq
          exact absurd (words_of_made_eq fns cb ctxt arg h heq) hwords
        · intro hself
          simp only [WrapsItself, h] at hself
          exact absurd ⟨hself.1, hself.2.1⟩ hwords

/-! ### Both fetches -/

/-- A fetch of headers, and one of a body, make the calls they should exactly if the caller's
    context wraps itself once the wrapper's has been stored. -/
theorem fetch_made_iff (headerFns : Functions (List UInt8 × List UInt8))
    (headerCb headerCbCtxt : Nat) (lines : List HeaderLine) (bodyFns : Functions (List UInt8))
    (bodyCb bodyCbCtxt : Nat) (blocks : List (List UInt8)) (ending : Ending) (wrapper : Nat)
    (mem : Memory) (hcb : headerCb ≠ 0) :
    ((fetcherFetchHeaders headerFns headerCb headerCbCtxt lines ending wrapper mem).map
          Fetched.made =
        .ok (registered headerFns headerCb headerCbCtxt (keyAndValue ·.1) lines
          (mem.store wrapper [headerCb, headerCbCtxt])) ↔
      WrapsItself headerFns headerCb headerCbCtxt (keyAndValue ·.1) (·.1.length) lines
        (mem.store wrapper [headerCb, headerCbCtxt])) ∧
    ((fetcherFetchBody bodyFns bodyCb bodyCbCtxt blocks ending wrapper mem).made =
        registered bodyFns bodyCb bodyCbCtxt some blocks
          (mem.store wrapper [bodyCb, bodyCbCtxt]) ↔
      WrapsItself bodyFns bodyCb bodyCbCtxt some List.length blocks
        (mem.store wrapper [bodyCb, bodyCbCtxt])) := by
  constructor
  · rw [fetcherFetchHeaders, if_neg hcb]
    dsimp only [Except.map]
    rw [Except.ok.injEq]
    exact made_eq_registered_iff headerFns headerCb headerCbCtxt (keyAndValue ·.1) lines _
  · exact made_eq_registered_iff bodyFns bodyCb bodyCbCtxt some blocks _

/-- A context at 100 that holds the callback, at 1, and points to itself. -/
theorem fetch_made_self :
    let mem : Memory := Memory.store (fun _ => 0) 100 [1, 100]
    (fetcherFetchHeaders (fun _ _ _ mem => (0, mem)) 1 100 [⟨[97, 58, 98, 13, 10], rfl⟩]
          ⟨.ok 200, by decide⟩ 200 mem).map Fetched.made =
        .ok ([⟨1, 100, ([97], [58, 98]), 0⟩], false) ∧
      (fetcherFetchBody (fun _ _ _ mem => (0, mem)) 1 100 [[60], [62]] ⟨.ok 200, by decide⟩ 200
          mem).made =
        ([⟨1, 100, [60], 0⟩, ⟨1, 100, [62], 0⟩], false) := by
  intro mem
  have h := fetch_made_iff (fun _ _ _ mem => (0, mem)) 1 100 [⟨[97, 58, 98, 13, 10], rfl⟩]
    (fun _ _ _ mem => (0, mem)) 1 100 [[60], [62]] ⟨.ok 200, by decide⟩ 200 mem (by decide)
  constructor
  · exact h.1.mpr ⟨rfl, rfl, trivial⟩
  · exact h.2.mpr ⟨rfl, rfl, rfl, rfl, trivial⟩

/-- A listing parser at 100: its own callback is called, at 1, and not the parser's. -/
theorem fetch_made_listing :
    let mem : Memory := Memory.store (fun _ => 0) 100 [1, 2]
    (fetcherFetchBody (fun _ _ _ mem => (0, mem)) 3 100 [ascii "<html>"] ⟨.ok 200, by decide⟩ 200
        mem).made ≠
      registered (fun _ _ _ mem => (0, mem)) 3 100 some [ascii "<html>"]
        (mem.store 200 [3, 100]) := by
  decide

end Fsfuse.Native.Fetcher
