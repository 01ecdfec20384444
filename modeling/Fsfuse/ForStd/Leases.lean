import Mathlib

/-!
# Leases

Whoever is heard of has a lease from then on, which ends unless they are heard of again in time.
A table keeps entries of a name with a time. It may be changed in two ways: an entry is made, or
brought up to date, for somebody heard of; and the entries that have run out are thrown away.

Whatever the table has gone through, the names whose entry has not run out are those who hold a
lease (`Keeps.exists_fresh_iff`), however late and however often it is cleared.
-/

namespace Leases

variable {κ τ : Type*} [AddCommGroup τ] [LinearOrder τ]

/-- A lease begun at `t` has not run out at `now`. -/
def Fresh (timeout now t : τ) : Prop := now - t < timeout

instance (timeout now t : τ) : Decidable (Fresh timeout now t) :=
  inferInstanceAs (Decidable (now - t < timeout))

/-- The entries account for all who have been heard of until `clock`: nobody else is in the table,
    and who is not, or not up to date, has no lease from when they were heard of. -/
structure Keeps (timeout : τ) (heard : Set (κ × τ)) (clock : τ) (entries : Set (κ × τ)) : Prop where
  known : ∀ e ∈ entries, e ∈ heard
  past : ∀ e ∈ heard, e.2 ≤ clock
  kept : ∀ e ∈ heard, Fresh timeout clock e.2 → ∃ t, e.2 ≤ t ∧ (e.1, t) ∈ entries

variable {timeout now now' t t' clock clock' : τ} {heard entries entries' : Set (κ × τ)} {k : κ}

namespace Keeps

/-- Nothing keeps no leases. -/
theorem empty (timeout clock : τ) : Keeps timeout (∅ : Set (κ × τ)) clock ∅ :=
  ⟨fun _ h => h.elim, fun _ h => h.elim, fun _ h => h.elim⟩

/-- Somebody is heard of. Of the entries that there were, only some of theirs may go. -/
theorem renew (h : Keeps timeout heard clock entries) (ht : t ≤ clock)
    (hnew : (k, t) ∈ entries') (hsub : ∀ e ∈ entries', e = (k, t) ∨ e ∈ entries)
    (hold : ∀ e ∈ entries, e ∈ entries' ∨ e.1 = k ∧ e.2 ≤ t) :
    Keeps timeout (insert (k, t) heard) clock entries' where
  known e he := (hsub e he).imp id (h.known e)
  past e he := by
    obtain rfl | he := he
    · exact ht
    · exact h.past e he
  kept e he hfresh := by
    obtain rfl | he := he
    · exact ⟨t, le_rfl, hnew⟩
    · obtain ⟨t', hle, hmem⟩ := h.kept e he hfresh
      obtain hmem | ⟨hk, hle'⟩ := hold _ hmem
      · exact ⟨t', hle, hmem⟩
      · exact ⟨t, hle.trans hle', hk ▸ hnew⟩

end Keeps

/-! ### Time -/

variable [IsOrderedAddMonoid τ]

/-- What is fresh stays so when it is renewed. -/
theorem Fresh.of_le (h : Fresh timeout now t) (hle : t ≤ t') : Fresh timeout now t' :=
  (sub_le_sub_left hle now).trans_lt h

/-- What is fresh was so before. -/
theorem Fresh.of_earlier (h : Fresh timeout now t) (hle : now' ≤ now) : Fresh timeout now' t :=
  (sub_le_sub_right hle t).trans_lt h

namespace Keeps

/-- Time passes. -/
theorem pass (h : Keeps timeout heard clock entries) (hle : clock ≤ clock') :
    Keeps timeout heard clock' entries where
  known := h.known
  past e he := (h.past e he).trans hle
  kept e he hfresh := h.kept e he (hfresh.of_earlier hle)

/-- What has run out is thrown away. -/
theorem purge (h : Keeps timeout heard clock entries)
    (hentries : ∀ e, e ∈ entries' ↔ e ∈ entries ∧ Fresh timeout clock e.2) :
    Keeps timeout heard clock entries' where
  known e he := h.known e ((hentries e).mp he).1
  past := h.past
  kept e he hfresh := by
    obtain ⟨t, hle, hmem⟩ := h.kept e he hfresh
    exact ⟨t, hle, (hentries _).mpr ⟨hmem, hfresh.of_le hle⟩⟩

/-- Who is in the table in time are those who hold a lease. -/
theorem exists_fresh_iff (h : Keeps timeout heard clock entries) :
    (∃ t, (k, t) ∈ entries ∧ Fresh timeout clock t) ↔
      ∃ t, (k, t) ∈ heard ∧ Fresh timeout clock t := by
  constructor
  · rintro ⟨t, he, hfresh⟩
    exact ⟨t, h.known _ he, hfresh⟩
  · rintro ⟨t, he, hfresh⟩
    obtain ⟨t', hle, hmem⟩ := h.kept _ he hfresh
    exact ⟨t', hmem, hfresh.of_le hle⟩

end Keeps

end Leases
