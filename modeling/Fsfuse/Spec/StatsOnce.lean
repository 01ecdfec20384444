import Fsfuse.Spec.FilelistEntries
import Fsfuse.Spec.StatsFigures

/-!
# What a stats page is reported as

The stats callback is meant to be called once for a page whose general `<div>` states the number
of files and their total size, with these two, and not to be called for a page that lacks one.

It is called for each figure that is read while neither it nor the latest of the other kind is
zero. So a page without files is never reported, a figure that comes again is reported again, and
spans outside of the `<div>` count as much as those in it.

* `atoll_numeral` — the value that a decimal numeral is read as;
* `completions_eq` — the figures that are called back for, one by one;
* `reported_iff` — exactly when a page is reported as it should be.
-/

namespace Fsfuse.Native

/-! ### Numerals -/

/-- A text is a numeral of `n`. -/
def IsNumeral (n : Nat) (text : List UInt8) : Prop :=
  text ≠ [] ∧ (∀ c ∈ text, 48 ≤ c ∧ c ≤ 57) ∧
    text.foldl (fun m c => m * 10 + (c.toNat - 48)) 0 = n

instance (n : Nat) (text : List UInt8) : Decidable (IsNumeral n text) :=
  inferInstanceAs (Decidable (_ ∧ _ ∧ _))

/-- A numeral is read as its number, or as the largest one. -/
theorem atoll_numeral {n : Nat} {text : List UInt8} (h : IsNumeral n text) :
    atoll text = min n (2 ^ 63 - 1) := by
  obtain ⟨hne, hdigits, hvalue⟩ := h
  obtain ⟨c, rest, rfl⟩ := List.exists_cons_of_ne_nil hne
  have hc := hdigits c (List.mem_cons_self ..)
  -- neither white space nor a sign
  have hspace := dropWhile_isSpace_of_digit hc rest
  have hsign := strtolSign_of_digit hc rest
  have hall : (c :: rest).takeWhile (digitValue · < 10) = c :: rest := by
    rw [List.takeWhile_eq_self_iff]
    intro d hd
    have hd' := hdigits d hd
    rw [digitValue_of_digit hd']
    have : d.toNat ≤ 57 := hd'.2
    simp
    omega
  have hfold := foldl_digitValue 10 hdigits 0
  simp only [Nat.cast_zero, Nat.cast_ofNat, hvalue] at hfold
  simp only [atoll, hspace, hsign, hall, hfold]
  omega

namespace ParserStats

/-! ### Completions -/

/-- The figures up to some place. -/
def latestAt (figures : List (FigureKind × UInt64)) (i : Nat) : FigureKind → UInt64 :=
  latestOf (fun _ => 0) (figures.take i)

/-- The figure at some place completes the two: it is not zero, and there is one of the other kind
    before it, the latest of which is not zero either. -/
def Completes (figures : List (FigureKind × UInt64)) (i : Nat) : Prop :=
  ∃ kind n, figures[i]? = some (kind, n) ∧ n ≠ 0 ∧ latestAt figures i kind.other ≠ 0

/-- A single one of the figures completes the two, and these are then some numbers of files and
    bytes. -/
def CompletedOnce (files bytes : Nat) (figures : List (FigureKind × UInt64)) : Prop :=
  ∃ i, (∀ j, Completes figures j ↔ j = i) ∧
    (latestAt figures (i + 1) .fileCount).toNat = files ∧
    (latestAt figures (i + 1) .totalSize).toNat = bytes

/-- The figures as they are called back. -/
def pair (latest : FigureKind → UInt64) : UInt64 × UInt64 := (latest .fileCount, latest .totalSize)

/-- The places of the figures that are called back for. -/
def completing (latest : FigureKind → UInt64) (figures : List (FigureKind × UInt64)) : List Nat :=
  (List.range figures.length).filter fun i =>
    (figures[i]?).any fun figure =>
      figure.2 ≠ 0 ∧ latestOf latest (figures.take i) figure.1.other ≠ 0

/-- The first figure completes the pair if the other one is there; what follows is counted from
    it. -/
theorem completing_cons (latest : FigureKind → UInt64) (kind : FigureKind) (n : UInt64)
    (figures : List (FigureKind × UInt64)) :
    completing latest ((kind, n) :: figures) =
      (if n ≠ 0 ∧ latest kind.other ≠ 0 then [0] else []) ++
        (completing (Function.update latest kind n) figures).map Nat.succ := by
  -- the places behind the first are those of the others, moved by one
  have htail : ((List.range figures.length).map Nat.succ).filter (fun i =>
      (((kind, n) :: figures)[i]?).any fun figure =>
        figure.2 ≠ 0 ∧ latestOf latest (((kind, n) :: figures).take i) figure.1.other ≠ 0) =
      (completing (Function.update latest kind n) figures).map Nat.succ := by
    rw [List.filter_map]
    rfl
  rw [completing, List.length_cons, List.range_succ_eq_map, List.filter_cons, htail]
  by_cases hfirst : n ≠ 0 ∧ latest kind.other ≠ 0 <;> simp [hfirst, latestOf]

/-- The pairs that are completed are those at the completing figures. -/
theorem completions_eq (latest : FigureKind → UInt64) (figures : List (FigureKind × UInt64)) :
    completions latest figures =
      (completing latest figures).map fun i => pair (latestOf latest (figures.take (i + 1))) := by
  induction figures generalizing latest with
  | nil => rfl
  | cons figure figures ih =>
    obtain ⟨kind, n⟩ := figure
    rw [completions, ih, completing_cons]
    by_cases hfirst : n ≠ 0 ∧ latest kind.other ≠ 0 <;>
      simp [hfirst, latestOf, pair, Function.comp_def]

/-- A figure is among the completing ones exactly if it completes the pair. -/
theorem mem_completing_iff (figures : List (FigureKind × UInt64)) (i : Nat) :
    i ∈ completing (fun _ => 0) figures ↔ Completes figures i := by
  simp only [completing, List.mem_filter, List.mem_range, Completes, latestAt]
  cases hfigure : figures[i]? with
  | none => simp
  | some figure =>
    obtain ⟨hlt, -⟩ := List.getElem?_eq_some_iff.mp hfigure
    obtain ⟨kind, n⟩ := figure
    simp [hlt]

/-- There is exactly one completing figure if one is and no other. -/
theorem completing_eq_singleton_iff (figures : List (FigureKind × UInt64)) (i : Nat) :
    completing (fun _ => 0) figures = [i] ↔ ∀ j, Completes figures j ↔ j = i := by
  simp only [← mem_completing_iff]
  constructor
  · intro h j
    rw [h, List.mem_singleton]
  · intro h
    have hnodup : (completing (fun _ => 0) figures).Nodup := List.nodup_range.filter _
    apply List.perm_singleton.mp
    rw [List.perm_ext_iff_of_nodup hnodup (List.nodup_singleton i)]
    simpa using h

/-- A page is called back for once when a single figure completes the two. -/
theorem completions_eq_singleton_iff (files bytes : Nat) (figures : List (FigureKind × UInt64)) :
    (completions (fun _ => 0) figures).map (fun call => (call.1.toNat, call.2.toNat)) =
        [(files, bytes)] ↔ CompletedOnce files bytes figures := by
  rw [completions_eq, List.map_map, List.map_eq_singleton_iff]
  simp only [completing_eq_singleton_iff, CompletedOnce, Function.comp_apply, pair, Prod.mk.injEq]
  rfl

/-- Nothing is completed exactly if no figure does it. -/
theorem completions_eq_nil_iff (figures : List (FigureKind × UInt64)) :
    completions (fun _ => 0) figures = [] ↔ ∀ i, ¬ Completes figures i := by
  rw [completions_eq, List.map_eq_nil_iff, List.eq_nil_iff_forall_not_mem]
  simp only [mem_completing_iff]

/-- Every figure is called back for once both are there and none is zero. -/
theorem length_completions_of_ne_zero {value : FigureKind → UInt64}
    (hvalue : ∀ kind, value kind ≠ 0) (kinds : List FigureKind) :
    (completions value (kinds.map fun kind => (kind, value kind))).length = kinds.length := by
  induction kinds with
  | nil => rfl
  | cons kind kinds ih => simp [completions, hvalue, ih]

/-- Until there, they are called back for once if the first one of the other kind is the last. -/
theorem completions_eq_singleton_of_first {value : FigureKind → UInt64}
    (hvalue : ∀ kind, value kind ≠ 0) {latest : FigureKind → UInt64} {kind : FigureKind}
    (hlatest : latest kind = value kind) (hother : latest kind.other = 0)
    (kinds : List FigureKind) :
    completions latest (kinds.map fun kind => (kind, value kind)) = [pair value] ↔
      ∃ n, kinds = List.replicate n kind ++ [kind.other] := by
  induction kinds with
  | nil => simp [completions]
  | cons kind' kinds ih =>
    obtain rfl | rfl := kind.eq_or_eq_other kind'
    · -- the same figure again
      have hsame : Function.update latest kind' (value kind') = latest := by
        rw [← hlatest, Function.update_eq_self]
      simp only [List.map_cons, completions, hsame, hother, ne_eq, not_true_eq_false, and_false,
        if_false, List.nil_append]
      rw [ih]
      constructor
      · intro h
        obtain ⟨n, rfl⟩ := h
        exact ⟨n + 1, rfl⟩
      · intro h
        obtain ⟨n, hn⟩ := h
        cases n with
        | zero => exact absurd (List.cons.inj hn).1.symm kind'.other_ne
        | succ n => exact ⟨n, (List.cons.inj hn).2⟩
    -- the other one completes the pair, and whatever follows it completes it again
    · have hboth : Function.update latest kind.other (value kind.other) = value := by
        funext kind'
        obtain rfl | rfl := kind.eq_or_eq_other kind'
        · rw [Function.update_of_ne kind'.other_ne.symm, hlatest]
        · rw [Function.update_self]
      have hcall : completions latest ((kind.other :: kinds).map fun kind => (kind, value kind)) =
          pair value :: completions value (kinds.map fun kind => (kind, value kind)) := by
        simp [completions, hboth, hlatest, hvalue, pair]
      rw [hcall, List.cons.injEq, ← List.length_eq_zero_iff, length_completions_of_ne_zero hvalue,
        List.length_eq_zero_iff]
      constructor
      · intro h
        obtain ⟨-, rfl⟩ := h
        exact ⟨0, rfl⟩
      · intro h
        obtain ⟨n, hn⟩ := h
        cases n with
        | zero => exact ⟨rfl, (List.cons.inj hn).2⟩
        | succ n => exact absurd (List.cons.inj hn).1 kind.other_ne

/-- What is called back is these figures. -/
theorem eq_pair_of_mem_completions {value latest : FigureKind → UInt64}
    (hlatest : ∀ kind, latest kind = 0 ∨ latest kind = value kind) {kinds : List FigureKind}
    {call : UInt64 × UInt64}
    (hcall : call ∈ completions latest (kinds.map fun kind => (kind, value kind))) :
    call = pair value := by
  induction kinds generalizing latest with
  | nil => cases hcall
  | cons kind kinds ih =>
    -- the latest figures are the page's own, or none
    have hlatest' : ∀ kind', Function.update latest kind (value kind) kind' = 0 ∨
        Function.update latest kind (value kind) kind' = value kind' := by
      intro kind'
      have hself : value kind = 0 ∨ value kind = value kind := .inr rfl
      have hboth := rel_update (R := fun _ n v => n = 0 ∨ n = v) hlatest kind hself kind'
      rwa [Function.update_eq_self] at hboth
    rw [List.map_cons, completions, List.mem_append] at hcall
    obtain hfirst | hrest := hcall
    · split at hfirst
      · rename_i hboth
        have hother : latest kind.other = value kind.other :=
          (hlatest kind.other).resolve_left hboth.2
        rw [List.mem_singleton.mp hfirst]
        cases kind <;> simp_all [pair, FigureKind.other]
      · cases hfirst
    · exact ih hlatest' hrest

/-- Nothing is called back for if one of the figures is zero. -/
theorem completions_of_zero {value : FigureKind → UInt64} {kind : FigureKind}
    (hzero : value kind = 0) {latest : FigureKind → UInt64} (hlatest : latest kind = 0)
    (kinds : List FigureKind) :
    completions latest (kinds.map fun kind => (kind, value kind)) = [] := by
  induction kinds generalizing latest with
  | nil => rfl
  | cons kind' kinds ih =>
    obtain rfl | rfl := kind.eq_or_eq_other kind'
    · have hlatest' : Function.update latest kind' (value kind') kind' = 0 := by
        rw [Function.update_self, hzero]
      simp [completions, hzero, ← ih hlatest']
    · have hlatest' : Function.update latest kind.other (value kind.other) kind = 0 := by
        rw [Function.update_of_ne kind.other_ne.symm, hlatest]
      simp [completions, hlatest, ← ih hlatest']

end ParserStats

/-! ### Pages -/

open ParserStats

/-- The spans for figures inside the general `<div>`, with their attributes; `inside` says whether
    all of it is inside. -/
def Content.generalSpans (inside : Bool) :
    Content → List (FigureKind × List (List UInt8 × List UInt8))
  | .nil => []
  | .element localname attributes children rest =>
    (if inside then (figureKind localname attributes).toList.map (·, attributes) else []) ++
      children.generalSpans (inside || isDivGeneral localname attributes) ++
      rest.generalSpans inside
  | .characters _ _ rest => rest.generalSpans inside

namespace ParserStats

/-- The values that some attributes give. -/
def valuesGiven (attributes : List (List UInt8 × List UInt8)) : List (List UInt8) :=
  (attributes.filter (·.1 = ascii "value")).map (·.2)

/-- The one value that some attributes give is a numeral of `n`. -/
def Bears (n : Nat) (attributes : List (List UInt8 × List UInt8)) : Prop :=
  ∃ text, valuesGiven attributes = [text] ∧ IsNumeral n text

instance (n : Nat) (attributes : List (List UInt8 × List UInt8)) :
    Decidable (Bears n attributes) :=
  match h : valuesGiven attributes with
  | [text] => decidable_of_iff (IsNumeral n text) (by simp [Bears, h])
  | [] => isFalse (by simp [Bears, h])
  | _ :: _ :: _ => isFalse (by simp [Bears, h])

/-- The general `<div>` states a figure: there is a span for it, and each of them, if it comes
    more than once, has the number for its value. -/
def StatesFigure (page : Content) (kind : FigureKind) (n : Nat) : Prop :=
  (∃ span ∈ page.generalSpans false, span.1 = kind) ∧
    ∀ span ∈ page.generalSpans false, span.1 = kind → Bears n span.2

instance (page : Content) (kind : FigureKind) (n : Nat) : Decidable (StatesFigure page kind n) :=
  inferInstanceAs (Decidable (_ ∧ _))

/-- The general `<div>` states the number of files and their total size. -/
def States (page : Content) (files bytes : Nat) : Prop :=
  StatesFigure page .fileCount files ∧ StatesFigure page .totalSize bytes

instance (page : Content) (files bytes : Nat) : Decidable (States page files bytes) :=
  inferInstanceAs (Decidable (_ ∧ _))

/-- The general `<div>` lacks one of the spans. -/
def Lacks (page : Content) : Prop :=
  ∃ kind, ∀ span ∈ page.generalSpans false, span.1 ≠ kind

/-- A page is reported as it should be: once with what it states, and not at all if it lacks one of
    the spans. -/
structure Reported (page : Content) : Prop where
  once : ∀ files bytes, States page files bytes →
    (callbacks page.calls).map (fun call => (call.1.toNat, call.2.toNat)) = [(files, bytes)]
  lacking : Lacks page → callbacks page.calls = []

/-- What a span says. -/
def spanFigure (span : FigureKind × List (List UInt8 × List UInt8)) : FigureKind × UInt64 :=
  (span.1, .ofInt (atoll ((valuesGiven span.2).head?.getD [])))

/-- What is read is what the spans of the general `<div>` say, in their order. -/
def ReadInside (page : Content) : Prop :=
  figuresRead page.calls = (page.generalSpans false).map spanFigure

/-- A number is the same as a `UInt64` of an integer. -/
theorem ofInt_natCast (n : Nat) : UInt64.ofInt n = .ofNat n := by
  rw [← UInt64.toNat_inj]
  simp only [UInt64.ofInt, UInt64.toNat_ofNat']
  omega

/-- The figure of a span is what the page states, as far as `strtol` goes. -/
theorem spanFigure_of_states {page : Content} {kind : FigureKind} {n : Nat}
    (hstates : StatesFigure page kind n) {span : FigureKind × List (List UInt8 × List UInt8)}
    (hspan : span ∈ page.generalSpans false) (hkind : span.1 = kind) :
    spanFigure span = (kind, .ofNat (min n (2 ^ 63 - 1))) := by
  obtain ⟨text, hvalues, hnumeral⟩ := hstates.2 span hspan hkind
  rw [spanFigure, hvalues, List.head?_cons, Option.getD_some, atoll_numeral hnumeral, hkind,
    ofInt_natCast]

/-- A number that `strtol` can give is not truncated. -/
theorem toNat_figure (n : Nat) :
    (UInt64.ofNat (min n (2 ^ 63 - 1))).toNat = min n (2 ^ 63 - 1) := by
  rw [UInt64.toNat_ofNat']
  omega

/-- What the figures of a page are read as. -/
def figureValue (files bytes : Nat) : FigureKind → UInt64
  | .fileCount => .ofNat (min files (2 ^ 63 - 1))
  | .totalSize => .ofNat (min bytes (2 ^ 63 - 1))

/-- A figure of 0 is stated exactly where the number is 0. -/
theorem figureValue_eq_zero_iff (files bytes : Nat) :
    (figureValue files bytes .fileCount = 0 ↔ files = 0) ∧
      (figureValue files bytes .totalSize = 0 ↔ bytes = 0) := by
  simp only [figureValue, ← UInt64.toNat_inj, toNat_figure, UInt64.toNat_zero]
  omega

/-- The pair is what the page states exactly if neither number is cut. -/
theorem pair_figureValue_eq_iff (files bytes : Nat) :
    ((pair (figureValue files bytes)).1.toNat = files ∧
      (pair (figureValue files bytes)).2.toNat = bytes) ↔ files < 2 ^ 63 ∧ bytes < 2 ^ 63 := by
  simp only [pair, figureValue, toNat_figure]
  omega

/-- The figures of a page that states its numbers are those numbers, in its order. -/
theorem map_spanFigure_of_states {page : Content} {files bytes : Nat}
    (hstates : States page files bytes) :
    (page.generalSpans false).map spanFigure =
      ((page.generalSpans false).map (·.1)).map fun kind =>
        (kind, figureValue files bytes kind) := by
  rw [List.map_map]
  apply List.map_congr_left
  intro span hspan
  cases hkind : span.1 with
  | fileCount => simp [spanFigure_of_states hstates.1 hspan hkind, hkind, figureValue]
  | totalSize => simp [spanFigure_of_states hstates.2 hspan hkind, hkind, figureValue]

/-- From the start, figures that are not zero are called back for once if the first one of the
    second kind is the last. -/
theorem completions_new_eq_singleton_iff {value : FigureKind → UInt64}
    (hvalue : ∀ kind, value kind ≠ 0) {kinds : List FigureKind} (hne : kinds ≠ []) :
    completions (fun _ => 0) (kinds.map fun kind => (kind, value kind)) = [pair value] ↔
      ∃ kind n, kinds = List.replicate (n + 1) kind ++ [kind.other] := by
  -- the first figure completes nothing
  obtain ⟨first, kinds, rfl⟩ := List.exists_cons_of_ne_nil hne
  have hfirst : completions (fun _ => 0) ((first :: kinds).map fun kind => (kind, value kind)) =
      completions (Function.update (fun _ => 0) first (value first))
        (kinds.map fun kind => (kind, value kind)) := by
    simp [completions]
  rw [hfirst, completions_eq_singleton_of_first hvalue (Function.update_self ..)
    (Function.update_of_ne first.other_ne ..)]
  constructor
  · intro h
    obtain ⟨n, rfl⟩ := h
    exact ⟨first, n, rfl⟩
  · intro h
    obtain ⟨kind, n, hn⟩ := h
    obtain ⟨rfl, hkinds⟩ := List.cons.inj hn
    exact ⟨n, hkinds⟩

/-- Where nothing else is read, a page is called back for once if none of its figures is zero, and
    none of them comes again once both are there. -/
theorem callbacks_eq_singleton_iff {page : Content} {files bytes : Nat}
    (hstates : States page files bytes) (hreadable : Readable page.calls)
    (hinside : ReadInside page) :
    (callbacks page.calls).map (fun call => (call.1.toNat, call.2.toNat)) = [(files, bytes)] ↔
      (0 < files ∧ files < 2 ^ 63) ∧ (0 < bytes ∧ bytes < 2 ^ 63) ∧
        ∃ kind n, (page.generalSpans false).map (·.1) =
          List.replicate (n + 1) kind ++ [kind.other] := by
  rw [callbacks_eq_completions hreadable, hinside, map_spanFigure_of_states hstates]
  have hne : (page.generalSpans false).map (·.1) ≠ [] := by
    obtain ⟨span, hspan, -⟩ := hstates.1.1
    exact List.ne_nil_of_mem (List.mem_map_of_mem hspan)
  generalize (page.generalSpans false).map (·.1) = kinds at hne ⊢
  obtain ⟨hfiles, hbytes⟩ := figureValue_eq_zero_iff files bytes
  have hpair := pair_figureValue_eq_iff files bytes
  by_cases hzero : ∃ kind, figureValue files bytes kind = 0
  · -- such a page is not called back for
    obtain ⟨kind, hkind⟩ := hzero
    rw [completions_of_zero hkind rfl]
    simp only [List.map_nil, List.nil_eq, reduceCtorEq, false_iff]
    intro h
    obtain ⟨⟨hfiles', -⟩, ⟨hbytes', -⟩, -⟩ := h
    cases kind with
    | fileCount => exact hfiles'.ne' (hfiles.mp hkind)
    | totalSize => exact hbytes'.ne' (hbytes.mp hkind)
  · have hvalue : ∀ kind, figureValue files bytes kind ≠ 0 := not_exists.mp hzero
    have hfiles' : 0 < files := Nat.pos_of_ne_zero (mt hfiles.mpr (hvalue .fileCount))
    have hbytes' : 0 < bytes := Nat.pos_of_ne_zero (mt hbytes.mpr (hvalue .totalSize))
    rw [← completions_new_eq_singleton_iff hvalue hne]
    constructor
    · intro hcalls
      obtain ⟨call, hcall, heq⟩ := List.map_eq_singleton_iff.mp hcalls
      have hmem : call ∈ completions (fun _ => 0)
          (kinds.map fun kind => (kind, figureValue files bytes kind)) := by
        rw [hcall]
        exact List.mem_singleton_self call
      obtain rfl := eq_pair_of_mem_completions (fun _ => .inl rfl) hmem
      -- the pair that is called back with has not been cut
      obtain ⟨hmaxf, hmaxb⟩ := hpair.mp (Prod.mk.inj heq)
      exact ⟨⟨hfiles', hmaxf⟩, ⟨hbytes', hmaxb⟩, hcall⟩
    · intro h
      obtain ⟨⟨-, hmaxf⟩, ⟨-, hmaxb⟩, hcall⟩ := h
      obtain ⟨hf, hb⟩ := hpair.mpr ⟨hmaxf, hmaxb⟩
      rw [hcall, List.map_singleton, hf, hb]

/-- A page is reported as it should be exactly when, if it states both figures, the parser gets as
    far as the `<div>` and a single one of the figures it reads from there on completes the two, and
    if it lacks one of them, none does. Where the parser reads only the spans inside of the `<div>`,
    the first comes down to figures that are not zero, the first one of the second kind being the
    last. -/
theorem reported_iff (page : Content) :
    (Reported page ↔
      (∀ files bytes, States page files bytes →
        Readable page.calls ∧ CompletedOnce files bytes (figuresRead page.calls)) ∧
      (Lacks page → Readable page.calls → ∀ i, ¬ Completes (figuresRead page.calls) i)) ∧
    ∀ files bytes, States page files bytes → Readable page.calls → ReadInside page →
      (CompletedOnce files bytes (figuresRead page.calls) ↔
        (0 < files ∧ files < 2 ^ 63) ∧ (0 < bytes ∧ bytes < 2 ^ 63) ∧
          ∃ kind n, (page.generalSpans false).map (·.1) =
            List.replicate (n + 1) kind ++ [kind.other]) := by
  constructor
  · constructor
    · intro h
      constructor
      · intro files bytes hstates
        have honce := h.once files bytes hstates
        -- a page that is not readable is not called back for at all
        have hreadable : Readable page.calls := by
          by_contra hnot
          simp [callbacks_of_not_readable hnot] at honce
        rw [callbacks_eq_completions hreadable, completions_eq_singleton_iff] at honce
        exact ⟨hreadable, honce⟩
      · intro hlacks hreadable
        have hnone := h.lacking hlacks
        rwa [callbacks_eq_completions hreadable, completions_eq_nil_iff] at hnone
    · intro hparts
      obtain ⟨honce, hlacking⟩ := hparts
      constructor
      · intro files bytes hstates
        obtain ⟨hreadable, hcompleted⟩ := honce files bytes hstates
        rwa [callbacks_eq_completions hreadable, completions_eq_singleton_iff]
      · intro hlacks
        by_cases hreadable : Readable page.calls
        · rw [callbacks_eq_completions hreadable, completions_eq_nil_iff]
          exact hlacking hlacks hreadable
        · exact callbacks_of_not_readable hreadable
  -- with figures between the span's tags alone the condition is one on their order
  · intro files bytes hstates hreadable hinside
    rw [← completions_eq_singleton_iff, ← callbacks_eq_completions hreadable]
    exact callbacks_eq_singleton_iff hstates hreadable hinside

/-- A page without files is not reported. -/
theorem not_reported_no_files :
    ¬ Reported (.element (ascii "div") [(ascii "id", ascii "general")]
      (.element (ascii "span") [(ascii "id", ascii "file-count"), (ascii "value", ascii "0")] .nil
        (.element (ascii "span") [(ascii "id", ascii "total-size"), (ascii "value", ascii "0")] .nil
          .nil)) .nil) := by
  intro h
  have honce := h.once 0 0 (by decide +kernel)
  revert honce
  decide +kernel

end ParserStats

end Fsfuse.Native
