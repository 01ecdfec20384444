import Fsfuse.Native.OpenFile

/-!
# The range of a read

A read is meant to ask the downloader for what there is of the range it is given: up to the
end of the file, and nothing from there on.

`fsfuse_read` lets a read past the end of the file begin where it does, which the downloader
asserts against. And it casts the end of the range to 32 bits before it compares it, so it may
miss that a read goes past the end of a file of 4 GiB or more.

Offsets and sizes are 64 bits wide, and the naturals here are what they hold as long as
`off + size` does not overflow them.
-/

namespace Fsfuse.Native.OpenFile

/-- What `downloader_chunk_add` asserts of the range it is given. -/
structure Fits (fileSize : Nat) (r : Request) : Prop where
  ordered : r.start ≤ r.end_
  start : r.start ≤ fileSize
  end_ : r.end_ ≤ fileSize

/-- What is asked for fits the file, and is as much of the range as the file has. -/
structure AsksFor (fileSize size off : Nat) (r : Request) : Prop where
  fits : Fits fileSize r
  length : r.end_ - r.start = if off < fileSize then min size (fileSize - off) else 0

/-- A read asks for the right range exactly when it begins at the end of the file, or before it
    and either ends there at the latest or is seen, in 32 bits, to end past it. -/
theorem readRequest_asksFor_iff (fileSize size off buf ctxt : Nat) :
    AsksFor fileSize size off (readRequest fileSize size off buf ctxt) ↔
      off = fileSize ∨
        off < fileSize ∧ (off + size ≤ fileSize ∨ fileSize ≤ (off + size) % 2 ^ 32) := by
  have hasks : AsksFor fileSize size off (readRequest fileSize size off buf ctxt) ↔
      off + readSize fileSize off size ≤ fileSize ∧
        readSize fileSize off size = if off < fileSize then min size (fileSize - off) else 0 := by
    constructor
    · intro h
      obtain ⟨⟨-, -, hend⟩, hlength⟩ := h
      simp only [readRequest] at hend hlength
      exact ⟨hend, by omega⟩
    · intro h
      obtain ⟨hend, hlength⟩ := h
      refine ⟨⟨?_, ?_, hend⟩, ?_⟩ <;> simp only [readRequest] <;> omega
  rw [hasks, readSize]
  -- at the end or past it nothing is asked for, but from where the read begins
  by_cases hoff : off < fileSize
  · rw [if_neg (by omega), if_pos hoff]
    split <;> omega
  · rw [if_pos (by omega), if_neg hoff]
    omega

/-- A read past the end of a file, and one over the end of a file of over 4 GiB. -/
theorem readRequest_not_asksFor :
    ¬ AsksFor 10 1 11 (readRequest 10 1 11 0 0) ∧
      ¬ AsksFor (2 ^ 32 + 10) 16 (2 ^ 32 + 8)
        (readRequest (2 ^ 32 + 10) 16 (2 ^ 32 + 8) 0 0) := by
  constructor
  · intro h
    exact absurd h.fits.start (by decide)
  · intro h
    exact absurd h.fits.end_ (by decide)

end Fsfuse.Native.OpenFile
