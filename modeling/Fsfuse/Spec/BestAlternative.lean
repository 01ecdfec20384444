import Fsfuse.Native.Alternatives
import Fsfuse.Spec.ParserCalls
import Fsfuse.Spec.PeerChoice

/-!
# The best alternative

The search for an alternative is meant to succeed if the indexnode has been asked and there is
one whose client is permitted, and the downloader is meant to fetch from it then, and to leave
with an error otherwise.

The fetcher calls `entry_found` itself with whatever part of a page arrives, and not with an entry.
So the search gets through only if nothing arrives, and then it finds nothing. And it returns what
the fetch does, which is 0 for success and taken for "there is none" by the downloader: after a
fetch that has failed the downloader goes on with the `NULL` that has been found.

* `listingTrygetBestAlternative_eq_ok_iff` — when the search gets through;
* `alternativeUsable_iff` — when it can be used.
-/

namespace Fsfuse.Native

open Peerstats Fetcher

/-! ### What is meant -/

/-- An entry of a permitted client: of a favourite, or of one that is not blocked. -/
def Permitted (favs blocks : Option (List (List UInt8))) (found : Found) : Prop :=
  In favs found.client = true ∨ In blocks found.client = false

/-- What alternatives a page reports. An empty page reports none. -/
structure Reporting where
  alternatives : List UInt8 → List Found
  empty : alternatives [] = []

/-- The listing is that of the entry. -/
def ListingT.Lists (li : ListingT) (found : Found) : Prop :=
  li.name = found.name ∧ li.hash = found.hash ∧ li.href = found.href ∧ li.client = found.client

/-- The search for the best alternative can be used: it returns a true value exactly if the
    fetch has succeeded and a listing has been chosen that is one of those reported; and the
    downloader fetches from it exactly if the fetch has succeeded and there is a permitted one,
    and leaves with an error otherwise. -/
def AlternativeUsable (reporting : Reporting) (debug : Bool)
    (favs blocks : Option (List (List UInt8))) (xml : Libxml2) (d : Daemon) (answers : Answers)
    (setting : EntrySetting) (h : ListingHeap) (ref : Reference) (random : Nat) : Prop :=
  let r := answers (ascii "alternatives") (ref.hash.getD [])
  let reported := reporting.alternatives r.body
  ∃ h' ref' ret best,
    listingTrygetBestAlternative debug favs blocks xml d answers setting h ref random =
      .ok (h', ref', ret, best) ∧
    (ret ≠ 0 ↔
      r.Succeeded ∧ ∃ li, best = some li ∧ ∃ found ∈ reported, (h'.listings li).Lists found) ∧
    (r.Succeeded ∧ (∃ found ∈ reported, Permitted favs blocks found) →
      ∃ li href, best = some li ∧ (h'.listings li).href = some href ∧
        downloadereadMain h' ret best = .ok (.fetch href)) ∧
    (¬ (r.Succeeded ∧ ∃ found ∈ reported, Permitted favs blocks found) →
      downloadereadMain h' ret best = .ok (.leave ebusy))

/-! ### The search -/

/-- The reference has a hash, and its indexnode is there with a count that two copies can be added
    to. -/
def Reference.Usable (ref : Reference) : Prop :=
  ref.hash ≠ none ∧ ∃ count, ref.in_ = some count ∧ count ≠ 0 ∧ count ≠ 2 ^ 32 - 1

/-- Two copies of the indexnode. -/
theorem Reference.indexnodeCopy_twice_iff {ref ref₂ : Reference} :
    (∃ ref₁, ref.indexnodeCopy = .ok ref₁ ∧ ref₁.indexnodeCopy = .ok ref₂) ↔
      ∃ count, ref.in_ = some count ∧ count ≠ 0 ∧ count ≠ 2 ^ 32 - 1 ∧
        ref₂ = { ref with in_ := some (count + 2) } := by
  -- a copy goes through where there is an indexnode with a count, and not for the root
  have hcopy : ∀ ref ref' : Reference, ref.indexnodeCopy = .ok ref' ↔
      ∃ count, ref.in_ = some count ∧ count ≠ 0 ∧ ref' = { ref with in_ := some (count + 1) } := by
    intro ref ref'
    rw [indexnodeCopy]
    cases ref.in_ with
    | none => simp [refCountInc, bind, Except.bind]
    | some count =>
      by_cases hzero : count = 0
      · simp [refCountInc, hzero, bind, Except.bind]
      · simp [refCountInc, hzero, bind, Except.bind, pure, Except.pure, eq_comm]
  -- the second copy fails where the first one has wrapped
  have hlast : ∀ count : UInt32, count + 1 = 0 ↔ count = 2 ^ 32 - 1 := by
    intro count
    grind
  have htwo : ∀ count : UInt32, count + 1 + 1 = count + 2 := by
    intro count
    grind
  simp only [hcopy]
  constructor
  · rintro ⟨_, ⟨count, hcount, hzero, rfl⟩, count', hcount', hzero', rfl⟩
    obtain rfl : count + 1 = count' := Option.some.inj hcount'
    exact ⟨count, hcount, hzero, (hlast count).not.mp hzero', by rw [htwo]⟩
  · rintro ⟨count, hcount, hzero, hmax, rfl⟩
    exact ⟨_, ⟨count, hcount, hzero, rfl⟩, count + 1, rfl, (hlast count).not.mpr hmax, by rw [htwo]⟩

/-- Of no entries none is the best. -/
theorem bestOf_nil (debug : Bool) (favs blocks : Option (List (List UInt8))) (h : ListingHeap)
    (random : Nat) : bestOf debug favs blocks h [] random = .ok (h, none) := by
  cases debug <;> rfl

/-- The search gets through only if nothing arrives. Then it finds nothing, and returns what comes
    of the transfer. -/
theorem listingTrygetBestAlternative_eq_ok_iff {debug : Bool}
    {favs blocks : Option (List (List UInt8))} {xml : Libxml2} {d : Daemon} {answers : Answers}
    {setting : EntrySetting} {h : ListingHeap} {ref : Reference} {random : Nat}
    {result : ListingHeap × Reference × Int × Option Nat} :
    listingTrygetBestAlternative debug favs blocks xml d answers setting h ref random =
        .ok result ↔
      ref.Usable ∧ (answers (ascii "alternatives") (ref.hash.getD [])).blocks = [] ∧
        result = (h, { ref with in_ := ref.in_.map (· + 2) },
          processCurlResponse (answers (ascii "alternatives") (ref.hash.getD [])).ending,
          none) := by
  cases hhash : ref.hash with
  | none =>
    -- without a hash nobody is asked
    constructor
    · intro hok
      obtain ⟨ref₁, hfirst, hok⟩ := Except.do_eq_ok_iff.mp hok
      obtain ⟨ref₂, hsecond, hok⟩ := Except.do_eq_ok_iff.mp hok
      obtain ⟨_, _, _, _, rfl⟩ := Reference.indexnodeCopy_twice_iff.mp ⟨ref₁, hfirst, hsecond⟩
      obtain ⟨hash, hnone, -⟩ := Except.do_eq_ok_iff.mp hok
      rw [hhash] at hnone
      cases hnone
    · rintro ⟨⟨hne, -⟩, -⟩
      exact absurd hhash hne
  | some hash =>
    rw [Option.getD_some]
    constructor
    · intro hok
      obtain ⟨ref₁, hfirst, hok⟩ := Except.do_eq_ok_iff.mp hok
      obtain ⟨ref₂, hsecond, hok⟩ := Except.do_eq_ok_iff.mp hok
      obtain ⟨count, hcount, hzero, hmax, rfl⟩ :=
        Reference.indexnodeCopy_twice_iff.mp ⟨ref₁, hfirst, hsecond⟩
      obtain ⟨hash', hsome, hok⟩ := Except.do_eq_ok_iff.mp hok
      rw [hhash] at hsome
      obtain rfl : hash = hash' := Except.ok.inj hsome
      obtain ⟨given, hgiven, hok⟩ := Except.do_eq_ok_iff.mp hok
      have hcalls : (trygetAlternatives d answers hash setting.entryFound setting.ctxt
          setting.places setting.mem).calls = [] := by
        cases hcalls : (trygetAlternatives d answers hash setting.entryFound setting.ctxt
            setting.places setting.mem).calls with
        | nil => rfl
        | cons call calls =>
          -- the first call is of `entry_found`, which takes other arguments
          have hcall := head_trygetAlternatives d answers hash setting.entryFound setting.ctxt
            setting.toSetting (by rw [hcalls]; rfl : call ∈ _)
          rw [hcalls, List.mapM_cons] at hgiven
          obtain ⟨_, hconsumed, -⟩ := Except.do_eq_ok_iff.mp hgiven
          rw [consumed, if_neg fun hown => setting.own (hcall.2.symm.trans hown.2)] at hconsumed
          cases hconsumed
      have hblocks := (trygetAlternatives_calls_eq_nil_iff d answers hash _ _ _ _).mp hcalls
      rw [hcalls] at hgiven
      obtain rfl : [] = given := Except.ok.inj hgiven
      refine ⟨⟨by rw [hhash]; exact Option.some_ne_none _, count, hcount, hzero, hmax⟩, hblocks, ?_⟩
      rw [xml.nothing] at hok
      obtain ⟨_, hcopied, hok⟩ := Except.do_eq_ok_iff.mp hok
      cases hcopied
      obtain ⟨_, hbest, hok⟩ := Except.do_eq_ok_iff.mp hok
      rw [show (ParserFilelist.parse []).2.reduceOption = [] from rfl, bestOf_nil] at hbest
      cases hbest
      cases hok
      rw [hcount, trygetAlternatives_rc_of_nil d answers hblocks, hhash]
      rfl
    · rintro ⟨⟨-, count, hcount, hzero, hmax⟩, hblocks, rfl⟩
      obtain ⟨ref₁, hfirst, hsecond⟩ :=
        Reference.indexnodeCopy_twice_iff.mpr ⟨count, hcount, hzero, hmax, rfl⟩
      have hcalls := (trygetAlternatives_calls_eq_nil_iff d answers hash setting.entryFound
        setting.ctxt setting.places setting.mem).mpr hblocks
      have hrc := trygetAlternatives_rc_of_nil d answers hblocks setting.entryFound setting.ctxt
        setting.places setting.mem
      rw [listingTrygetBestAlternative, hfirst]
      simp only [bind, Except.bind, hsecond, hhash, Option.elim_some, hcalls, List.mapM_nil, pure,
        Except.pure, xml.nothing]
      rw [hrc, hcount]
      cases debug <;> rfl

/-- The search can be used exactly if it can be made at all, nothing arrives, and the transfer
    succeeds all the same, or is cut. -/
theorem alternativeUsable_iff (reporting : Reporting) (debug : Bool)
    (favs blocks : Option (List (List UInt8))) (xml : Libxml2) (d : Daemon) (answers : Answers)
    (setting : EntrySetting) (h : ListingHeap) (ref : Reference) (random : Nat) :
    AlternativeUsable reporting debug favs blocks xml d answers setting h ref random ↔
      ref.Usable ∧ (answers (ascii "alternatives") (ref.hash.getD [])).blocks = [] ∧
        ((answers (ascii "alternatives") (ref.hash.getD [])).ending = CurlRc.partialFile ∨
          (answers (ascii "alternatives") (ref.hash.getD [])).Succeeded) := by
  rw [AlternativeUsable]
  generalize hr : answers (ascii "alternatives") (ref.hash.getD []) = r
  constructor
  · rintro ⟨h', ref', ret, best, hok, hret, -⟩
    rw [listingTrygetBestAlternative_eq_ok_iff, hr] at hok
    obtain ⟨husable, hblocks, hresult⟩ := hok
    cases hresult
    refine ⟨husable, hblocks, (processCurlResponse_ending_eq_zero_iff r).mp ?_⟩
    by_contra hne
    -- a true value, and nothing chosen
    obtain ⟨-, li, hli, -⟩ := hret.mp hne
    cases hli
  · rintro ⟨husable, hblocks, hending⟩
    have hzero := (processCurlResponse_ending_eq_zero_iff r).mpr hending
    have hnothing : r.Succeeded → reporting.alternatives r.body = [] := by
      intro hsucceeded
      have hbody : r.blocks.flatten = r.body := by
        obtain hok | hok := hsucceeded
        · exact r.whole 200 hok
        · exact r.whole 206 hok
      rw [← hbody, hblocks]
      exact reporting.empty
    refine ⟨h, _, _, none, listingTrygetBestAlternative_eq_ok_iff.mpr
      ⟨husable, by rw [hr]; exact hblocks, rfl⟩, ?_, ?_, ?_⟩
    · rw [hr, hzero]
      simp
    · rintro ⟨hsucceeded, found, hfound, -⟩
      rw [hnothing hsucceeded] at hfound
      cases hfound
    · intro _
      rw [hr, hzero]
      rfl

/-! ### A server that is not there -/

/-- Nothing is answered, as there is no connection. -/
def notAnswered : Response where
  body := []
  blocks := []
  ending := ⟨.couldntConnect, by decide⟩
  delivered := List.prefix_rfl
  whole _ _ := rfl
  cut := nofun
  failed := nofun

/-- A page arrives. -/
def answered : Response := .arrived (ascii "<html>")

/-- `entry_found` at 3 with a context at 4, the parser at 100 and the wrapper's context at 200. -/
def entrySetting : EntrySetting where
  places := ⟨100, 3, 200⟩
  mem _ := 0
  apart := by decide
  entryFound := 3
  ctxt := 4
  own := by decide

/-- Pages that report nothing, for which nothing is called back. -/
def noneReported : Reporting where
  alternatives _ := []
  empty := rfl

def silent : Libxml2 where
  sax _ := []
  nothing := rfl

/-- The downloader goes on with the `NULL` that a failed search leaves; and a page that arrives
    stops the daemon. -/
theorem not_alternativeUsable_failed :
    (listingTrygetBestAlternative false none none silent .idle (fun _ _ => notAnswered) entrySetting
        ListingHeap.empty ⟨some (ascii "1"), some 1⟩ 0 =
          .ok (ListingHeap.empty, ⟨some (ascii "1"), some 3⟩, enoent, none) ∧
      downloadereadMain ListingHeap.empty enoent none = .error .nullPointer) ∧
    ¬ AlternativeUsable noneReported false none none silent .idle (fun _ _ => notAnswered)
        entrySetting ListingHeap.empty ⟨some (ascii "1"), some 1⟩ 0 ∧
    ¬ AlternativeUsable noneReported false none none silent .idle (fun _ _ => answered) entrySetting
        ListingHeap.empty ⟨some (ascii "1"), some 1⟩ 0 := by
  -- a block crashes, and a failure leaves nothing to go on with
  have hstops : ∀ answers, (answers (ascii "alternatives") (ascii "1")).blocks ≠ [] ∨
      processCurlResponse (answers (ascii "alternatives") (ascii "1")).ending ≠ 0 →
      ¬ AlternativeUsable noneReported false none none silent .idle answers entrySetting
        ListingHeap.empty ⟨some (ascii "1"), some 1⟩ 0 := by
    rintro answers hbad ⟨h', ref', ret, best, hok, hret, -⟩
    obtain ⟨-, hblocks, hresult⟩ := listingTrygetBestAlternative_eq_ok_iff.mp hok
    obtain hbad | hbad := hbad
    · exact hbad hblocks
    · cases hresult
      obtain ⟨-, li, hli, -⟩ := hret.mp hbad
      cases hli
  refine ⟨⟨?_, rfl⟩, hstops _ (.inr (by decide)), hstops _ (.inl (by decide))⟩
  refine listingTrygetBestAlternative_eq_ok_iff.mpr ⟨⟨by decide, 1, rfl, by decide, by decide⟩, ?_⟩
  exact ⟨rfl, rfl⟩

end Fsfuse.Native
