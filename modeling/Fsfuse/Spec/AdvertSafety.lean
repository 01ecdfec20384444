import Fsfuse.ForStd.List
import Fsfuse.Native.IndexnodesListener
import Fsfuse.Spec.VersionOrder

/-!
# Which adverts the daemon survives

The handling of a datagram is a chain of parsers, each of which asserts what the one
before it has not established. `Survived` collects what they need between them: the
datagram fits the buffer, has all the fields that are read, begins with the protocol's
prefix and a version, and, unless its id is known already, names an id and a port.
The check of the version itself turns nothing away.
-/

namespace Fsfuse.Native

/-! ### Handling an advert -/

/-- There is no word exactly where there is nothing but white space. -/
theorem firstWord_eq_nil_iff {s : List UInt8} :
    firstWord s = [] ↔ ∀ c ∈ s, isSpace c = true := by
  rw [firstWord, ← List.dropWhile_eq_nil_iff]
  cases hword : s.dropWhile (isSpace ·) with
  | nil => simp
  | cons c rest =>
    have hc : isSpace c = false := by
      have hhead := List.head?_dropWhile_not (isSpace ·) s
      rw [hword] at hhead
      simpa using hhead
    simp [hc]

namespace Indexnodes

/-- The fields of an advert that `new_indexnode_event` can take, with the id either
    known or usable. -/
def Takes (ins : Indexnodes) (port fs2protocol id : List UInt8) : Prop :=
  (∃ rest, fs2protocol = ascii "fs2protocol-" ++ rest ∧ ∃ c ∈ rest, isSpace c = false) ∧
    (IndexnodesList.find ins.store ins.list id ≠ none ∨ id ≠ [] ∧ port ≠ [])

/-- `parse_fs2protocol` finds a version where there is one. -/
theorem parseFs2protocol_eq_ok_some {fs2protocol version : List UInt8} :
    parseFs2protocol fs2protocol = .ok (some version) ↔
      ∃ rest, fs2protocol = ascii "fs2protocol-" ++ rest ∧ (∃ c ∈ rest, isSpace c = false) ∧
        firstWord rest = version := by
  have hword : ∀ rest : List UInt8, firstWord rest ≠ [] ↔ ∃ c ∈ rest, isSpace c = false := by
    intro rest
    simp [firstWord_eq_nil_iff]
  rw [parseFs2protocol]
  constructor
  · intro h
    split at h
    · rename_i rest hprefix
      split at h
      · cases h
      · rename_i hne
        -- the prefix is there, and a word after it
        obtain ⟨pre, rfl, hpre⟩ := List.dropPrefix?_eq_some_iff.mp hprefix
        obtain rfl := beq_iff_eq.mp hpre
        exact ⟨rest, rfl, (hword rest).mp hne, Option.some.inj (Except.ok.inj h)⟩
    · cases h
  · intro hparts
    obtain ⟨rest, rfl, hrest, rfl⟩ := hparts
    rw [List.dropPrefix?_append_of_beq rest (BEq.refl _)]
    simp only [if_neg ((hword rest).mpr hrest)]

/-- The assertions behind `indexnode_new` want an id, a port, a version and a host. -/
theorem indexnodeNew_ok_iff {now : Int} {host port version id : List UInt8} :
    (∃ new, Indexnode.indexnodeNew now host port version id = .ok new) ↔
      (version ≠ [] ∧ id ≠ []) ∧ host ≠ [] ∧ port ≠ [] := by
  rw [← Indexnode.indexnodeNew_eq_ok_some_iff]
  constructor
  · intro h
    obtain ⟨new, hnew⟩ := h
    cases new with
    | none => exact absurd hnew (Indexnode.indexnodeNew_ne_ok_none now host port version id)
    | some in_ => exact ⟨in_, hnew⟩
  · intro h
    obtain ⟨in_, hnew⟩ := h
    exact ⟨some in_, hnew⟩

/-- The handler of adverts returns exactly when it is given what it needs. -/
theorem newIndexnodeEvent_ok_iff {ins : Indexnodes} {now : Int}
    {host port fs2protocol id : List UInt8} (hhost : host ≠ []) :
    (∃ ins', ins.newIndexnodeEvent now host port fs2protocol id = .ok ins') ↔
      ins.Takes port fs2protocol id := by
  cases hparse : parseFs2protocol fs2protocol with
  | error e =>
    simp only [newIndexnodeEvent, hparse, bind, Except.bind, reduceCtorEq, exists_false, false_iff]
    intro h
    obtain ⟨⟨rest, hprefix, hrest⟩, -⟩ := h
    -- an assertion in `parse_fs2protocol`
    cases hparse.symm.trans (parseFs2protocol_eq_ok_some.mpr ⟨rest, hprefix, hrest, rfl⟩)
  | ok version =>
    cases version with
    -- what it has freed is freed again
    | none =>
      simp only [newIndexnodeEvent, hparse, bind, Except.bind, reduceCtorEq, exists_false,
        false_iff]
      intro h
      obtain ⟨⟨rest, hprefix, hrest⟩, -⟩ := h
      cases hparse.symm.trans (parseFs2protocol_eq_ok_some.mpr ⟨rest, hprefix, hrest, rfl⟩)
    | some version =>
      obtain ⟨rest, hprefix, hrest, hword⟩ := parseFs2protocol_eq_ok_some.mp hparse
      -- a version that has been parsed passes the assertion on it
      have hversion : version ≠ [] := by
        rw [← hword, ne_eq, firstWord_eq_nil_iff]
        obtain ⟨c, hc, hspace⟩ := hrest
        intro hall
        rw [hall c hc] at hspace
        cases hspace
      simp only [newIndexnodeEvent, hparse, bind, Except.bind, Takes]
      cases hfind : IndexnodesList.find ins.store ins.list id with
      -- a known indexnode is only seen again
      | some found =>
        simp only [pure, Except.pure, Except.ok.injEq, exists_eq', true_iff]
        exact ⟨⟨rest, hprefix, hrest⟩, .inl (Option.some_ne_none found)⟩
      | none =>
        -- a new one must pass the assertions on its fields
        have hprotocol : ∃ rest, fs2protocol = ascii "fs2protocol-" ++ rest ∧
            ∃ c ∈ rest, isSpace c = false := ⟨rest, hprefix, hrest⟩
        have hnew : (∃ new, Indexnode.indexnodeNew now host port version id = .ok new) ↔
            id ≠ [] ∧ port ≠ [] := by
          rw [indexnodeNew_ok_iff]
          tauto
        simp only [hprotocol, true_and, ne_eq, not_true_eq_false, false_or]
        rw [← ne_eq, ← ne_eq, ← hnew]
        cases Indexnode.indexnodeNew now host port version id with
        | error e => simp
        | ok new => cases new <;> simp [pure, Except.pure]

end Indexnodes

namespace IndexnodesListener

/-- The fields of the text of a datagram. -/
def fields (datagram : List UInt8) : List (List UInt8) := (cString datagram).splitOn colon

/-- The datagrams that the daemon survives. -/
def Survived (ins : Indexnodes) (host : Option (List UInt8)) (datagram : List UInt8) : Prop :=
  datagram.length ≤ bufSize ∧
    match fields datagram with
    | fs2protocol :: port :: rest =>
      port = ascii "autoindexnode" ∨
        ∃ id ∈ rest.head?, host ≠ none → ins.Takes port fs2protocol id
    | _ => False

/-! ### Parsing -/

/-- The fields still ahead of a pointer into the text. -/
def fieldsAhead (buf : Option (List UInt8)) : List (List UInt8) :=
  (buf.map (·.splitOn colon)).getD []

/-- `get_next_field` takes the next field, if there is one. -/
theorem getNextField_eq (buf : Option (List UInt8)) :
    (fieldsAhead buf = [] ∧ getNextField buf = .error .outOfBounds) ∨
      ∃ field next, fieldsAhead buf = field :: fieldsAhead next ∧
        getNextField buf = .ok (field, next) := by
  cases buf with
  | none => exact .inl ⟨rfl, rfl⟩
  | some buf => exact .inr ⟨_, _, List.splitOn_eq_takeWhile_cons colon buf, rfl⟩

/-- `parse_advert_packet` field by field. -/
theorem parseAdvertPacket_eq (buf : List UInt8) :
    parseAdvertPacket buf =
      match buf.splitOn colon with
      | fs2protocol :: port :: rest =>
        if port = ascii "autoindexnode" then .ok none
        else match rest with
          | id :: _ => .ok (some (port, fs2protocol, id))
          | [] => .error .outOfBounds
      | _ => .error .outOfBounds := by
  obtain ⟨hnil, -⟩ | ⟨fs2protocol, buf₁, hfields, hfirst⟩ := getNextField_eq (some buf)
  · exact absurd hnil (List.splitOn_ne_nil colon buf)
  · rw [show buf.splitOn colon = _ from hfields]
    simp only [parseAdvertPacket, hfirst, bind, Except.bind]
    obtain ⟨hnil, hsecond⟩ | ⟨port, buf₂, hfields₁, hsecond⟩ := getNextField_eq buf₁
    · rw [hnil, hsecond]
    · rw [hfields₁, hsecond]
      simp only
      split
      · rfl
      · obtain ⟨hnil, hthird⟩ | ⟨id, buf₃, hfields₂, hthird⟩ := getNextField_eq buf₂
        · rw [hnil, hthird]
        · rw [hfields₂, hthird]
          rfl

/-! ### Datagrams -/

/-- The daemon survives a datagram, however long and whatever is in it, exactly when it
    meets what the chain of parsers needs. -/
theorem receiveAdvert_ok_iff (ins : Indexnodes) (now : Int) (host : Option (List UInt8))
    (datagram : List UInt8) (hhost : ∀ h ∈ host, h ≠ []) :
    (∃ ins', receiveAdvert ins now host (some datagram) = .ok ins') ↔
      Survived ins host datagram := by
  simp only [receiveAdvert, Survived, fields]
  split
  · rename_i hlen
    rw [parseAdvertPacket_eq]
    match (cString datagram).splitOn colon with
    -- without a second field the parser reads past the terminator
    | [] => simp [hlen, bind, Except.bind]
    | [_] => simp [hlen, bind, Except.bind]
    | fs2protocol :: port :: rest =>
      by_cases hauto : port = ascii "autoindexnode"
      · simp [hlen, hauto, bind, Except.bind, pure, Except.pure]
      · simp only [hlen, true_and, hauto, false_or]
        -- nor is there a third field to be read
        cases rest with
        | nil => simp [bind, Except.bind]
        | cons id rest =>
          cases host with
          -- an address that cannot be printed is dropped, but the fields have been read
          | none => simp [bind, Except.bind, pure, Except.pure]
          | some host =>
            have hevent : (∃ ins', ins.newIndexnodeEvent now host port fs2protocol id = .ok ins') ↔
                ins.Takes port fs2protocol id :=
              Indexnodes.newIndexnodeEvent_ok_iff (hhost host rfl)
            simpa [bind, Except.bind] using hevent
  · rename_i hlen
    simp [hlen]

/-- An ordinary advert of an indexnode not heard of before. -/
theorem receiveAdvert_ok_ordinary :
    ∃ ins', receiveAdvert ⟨[], []⟩ 0 (some (ascii "10.0.0.1"))
      (some (ascii "fs2protocol-0.13:1337:uid")) = .ok ins' := by
  refine (receiveAdvert_ok_iff ⟨[], []⟩ 0 (some (ascii "10.0.0.1")) _ ?_).mpr ⟨by decide, ?_⟩
  · rintro _ ⟨⟩
    decide
  · rw [show fields (ascii "fs2protocol-0.13:1337:uid") =
      [ascii "fs2protocol-0.13", ascii "1337", ascii "uid"] by decide]
    refine .inr ⟨ascii "uid", rfl, fun _ => ⟨?_, ?_⟩⟩
    · exact ⟨ascii "0.13", by decide, 48, by decide, by decide⟩
    · exact .inr ⟨by decide, by decide⟩

/-- An advert without a version fails an assertion. -/
theorem receiveAdvert_not_ok_blank_version :
    ¬ ∃ ins', receiveAdvert ⟨[], []⟩ 0 (some (ascii "10.0.0.1"))
      (some (ascii "fs2protocol-:1337:uid")) = .ok ins' := by
  have hfault : receiveAdvert ⟨[], []⟩ 0 (some (ascii "10.0.0.1"))
      (some (ascii "fs2protocol-:1337:uid")) = .error .assertion := rfl
  rw [hfault]
  intro hparts
  obtain ⟨ins', h⟩ := hparts
  cases h

end IndexnodesListener

end Fsfuse.Native
