import Mathlib.Data.List.Basic

/-!
# Names of hosts

The texts that name a host: names of the domain name system, IPv4 addresses in octets, and
IPv6 addresses in groups, of which the last two may be written as an IPv4 address and a run
of zeros may be left out. Each has characters of its own, which is how they are told apart.
-/

namespace HostNames

def IsDigit (c : UInt8) : Prop := 48 ≤ c ∧ c ≤ 57

def IsHexDigit (c : UInt8) : Prop := IsDigit c ∨ 97 ≤ c ∧ c ≤ 102 ∨ 65 ≤ c ∧ c ≤ 70

def IsLetter (c : UInt8) : Prop := 97 ≤ c ∧ c ≤ 122 ∨ 65 ≤ c ∧ c ≤ 90

instance : DecidablePred IsDigit := fun c => inferInstanceAs (Decidable (48 ≤ c ∧ c ≤ 57))

instance : DecidablePred IsHexDigit := fun _ => inferInstanceAs (Decidable (_ ∨ _))

instance : DecidablePred IsLetter := fun _ => inferInstanceAs (Decidable (_ ∨ _))

/-- Texts with a separator between them. -/
def join (sep : UInt8) (texts : List (List UInt8)) : List UInt8 := [sep].intercalate texts

/-! ### Syntax -/

/-- A label of a domain name. Where a hyphen may stand, and how long a label may be, makes no
    difference here. -/
def IsLabel (s : List UInt8) : Prop :=
  s ≠ [] ∧ ∀ c ∈ s, IsLetter c ∨ IsDigit c ∨ c = 45

/-- Labels with dots between them, and possibly one behind the last. -/
def IsDomainName (s : List UInt8) : Prop :=
  ∃ labels, labels ≠ [] ∧ (∀ label ∈ labels, IsLabel label) ∧
    (s = join 46 labels ∨ s = join 46 labels ++ [46])

/-- The value of digits. -/
def value (s : List UInt8) : Nat := s.foldl (fun n c => 10 * n + (c.toNat - 48)) 0

/-- An octet of an IPv4 address. -/
def IsOctet (s : List UInt8) : Prop :=
  s ≠ [] ∧ s.length ≤ 3 ∧ (∀ c ∈ s, IsDigit c) ∧ value s ≤ 255

def IsIpv4 (s : List UInt8) : Prop :=
  ∃ octets, octets.length = 4 ∧ (∀ octet ∈ octets, IsOctet octet) ∧ s = join 46 octets

/-- A group of an IPv6 address. -/
def IsGroup (s : List UInt8) : Prop :=
  s ≠ [] ∧ s.length ≤ 4 ∧ ∀ c ∈ s, IsHexDigit c

/-- The pieces of an IPv6 address that stand for so many groups. -/
inductive IsPieces : List (List UInt8) → Nat → Prop
  | nil : IsPieces [] 0
  /-- An IPv4 address is the last piece. -/
  | tail {s : List UInt8} (h : IsIpv4 s) : IsPieces [s] 2
  | group {s : List UInt8} {ss : List (List UInt8)} {n : Nat} (h : IsGroup s)
      (hs : IsPieces ss n) : IsPieces (s :: ss) (n + 1)

/-- An IPv6 address: eight groups, or less with two colons for those that are left out. -/
def IsIpv6 (s : List UInt8) : Prop :=
  (∃ pieces, IsPieces pieces 8 ∧ s = join 58 pieces) ∨
    ∃ left right n, (∀ group ∈ left, IsGroup group) ∧ IsPieces right n ∧ left.length + n ≤ 7 ∧
      s = join 58 left ++ [58, 58] ++ join 58 right

-- the characters of a text are looked at, not all there are

instance : DecidablePred IsLabel := fun s =>
  have : Decidable (∀ c ∈ s, IsLetter c ∨ IsDigit c ∨ c = 45) := List.decidableBAll _ s
  inferInstanceAs (Decidable (_ ∧ _))

instance : DecidablePred IsOctet := fun s =>
  have : Decidable (∀ c ∈ s, IsDigit c) := List.decidableBAll _ s
  inferInstanceAs (Decidable (_ ∧ _ ∧ _ ∧ _))

instance : DecidablePred IsGroup := fun s =>
  have : Decidable (∀ c ∈ s, IsHexDigit c) := List.decidableBAll _ s
  inferInstanceAs (Decidable (_ ∧ _ ∧ _))

/-! ### Characters -/

/-- The characters of joined texts are the separator and those of the texts. -/
theorem mem_join {sep c : UInt8} {texts : List (List UInt8)} (h : c ∈ join sep texts) :
    c = sep ∨ ∃ text ∈ texts, c ∈ text := by
  induction texts with
  | nil => cases h
  | cons text texts ih =>
    cases texts with
    | nil =>
      rw [join, List.intercalate_singleton] at h
      exact .inr ⟨text, List.mem_cons_self, h⟩
    | cons text' texts =>
      rw [join, List.intercalate_cons_cons, List.mem_append, List.mem_append] at h
      rcases h with (h | h) | h
      · exact .inr ⟨text, List.mem_cons_self, h⟩
      · exact .inl (List.mem_singleton.mp h)
      · obtain hsep | ⟨t, ht, hc⟩ := ih h
        · exact .inl hsep
        · exact .inr ⟨t, List.mem_cons_of_mem text ht, hc⟩

/-- There is a separator between two texts. -/
theorem sep_mem_join {sep : UInt8} {texts : List (List UInt8)} (h : 2 ≤ texts.length) :
    sep ∈ join sep texts := by
  match texts with
  | _ :: _ :: _ =>
    rw [join, List.intercalate_cons_cons]
    simp

/-- Nothing is lost of a first text. -/
theorem join_ne_nil {sep : UInt8} {text : List UInt8} (h : text ≠ []) (texts : List (List UInt8)) :
    join sep (text :: texts) ≠ [] := by
  cases texts with
  | nil => rwa [join, List.intercalate_singleton]
  | cons text' texts =>
    rw [join, List.intercalate_cons_cons]
    simp

/-- A domain name is not empty. -/
theorem IsDomainName.ne_nil {s : List UInt8} (h : IsDomainName s) : s ≠ [] := by
  obtain ⟨labels, hne, hlabels, hs⟩ := h
  obtain ⟨label, labels, rfl⟩ := List.exists_cons_of_ne_nil hne
  have hjoin : join 46 (label :: labels) ≠ [] :=
    join_ne_nil (hlabels label List.mem_cons_self).1 labels
  rcases hs with rfl | rfl
  · exact hjoin
  · exact List.append_ne_nil_of_left_ne_nil hjoin _

/-- There is a dot in an IPv4 address. -/
theorem IsIpv4.dot_mem {s : List UInt8} (h : IsIpv4 s) : 46 ∈ s := by
  obtain ⟨octets, hlength, -, rfl⟩ := h
  exact sep_mem_join (by omega)

/-- A name has letters, digits, hyphens and dots. -/
theorem IsDomainName.chars {s : List UInt8} (h : IsDomainName s) :
    ∀ c ∈ s, IsLetter c ∨ IsDigit c ∨ c = 45 ∨ c = 46 := by
  obtain ⟨labels, -, hlabels, hs⟩ := h
  have hjoin : ∀ c ∈ join 46 labels, IsLetter c ∨ IsDigit c ∨ c = 45 ∨ c = 46 := by
    intro c hc
    obtain rfl | ⟨label, hlabel, hc⟩ := mem_join hc
    · exact .inr (.inr (.inr rfl))
    · exact ((hlabels label hlabel).2 c hc).imp_right (Or.imp_right .inl)
  rcases hs with rfl | rfl
  · exact hjoin
  · intro c hc
    obtain hc | hc := List.mem_append.mp hc
    · exact hjoin c hc
    · exact .inr (.inr (.inr (List.mem_singleton.mp hc)))

/-- An IPv4 address has digits and dots. -/
theorem IsIpv4.chars {s : List UInt8} (h : IsIpv4 s) : ∀ c ∈ s, IsDigit c ∨ c = 46 := by
  obtain ⟨octets, -, hoctets, rfl⟩ := h
  intro c hc
  obtain rfl | ⟨octet, hoctet, hc⟩ := mem_join hc
  · exact .inr rfl
  · exact .inl ((hoctets octet hoctet).2.2.1 c hc)

/-- The pieces of an address consist of hex digits and dots. -/
theorem IsPieces.chars {ss : List (List UInt8)} {n : Nat} (h : IsPieces ss n) :
    ∀ s ∈ ss, ∀ c ∈ s, IsHexDigit c ∨ c = 46 := by
  induction h with
  | nil =>
    intro s hs
    cases hs
  | tail h =>
    intro s hs c hc
    rw [List.mem_singleton.mp hs] at hc
    exact (h.chars c hc).imp_left .inl
  | group h _ ih =>
    intro s hs c hc
    obtain rfl | hs := List.mem_cons.mp hs
    · exact .inl (h.2.2 c hc)
    · exact ih s hs c hc

/-- An IPv6 address has hexadecimal digits, colons, and dots if part of it is an IPv4
    address. -/
theorem IsIpv6.chars {s : List UInt8} (h : IsIpv6 s) :
    ∀ c ∈ s, IsHexDigit c ∨ c = 58 ∨ c = 46 := by
  have hjoin : ∀ {pieces : List (List UInt8)} {n : Nat}, IsPieces pieces n →
      ∀ c ∈ join 58 pieces, IsHexDigit c ∨ c = 58 ∨ c = 46 := by
    intro pieces n hpieces c hc
    obtain rfl | ⟨piece, hpiece, hc⟩ := mem_join hc
    · exact .inr (.inl rfl)
    · exact (hpieces.chars piece hpiece c hc).imp_right .inr
  obtain ⟨pieces, hpieces, rfl⟩ | ⟨left, right, n, hleft, hright, -, rfl⟩ := h
  · exact hjoin hpieces
  · intro c hc
    rcases List.mem_append.mp hc with hc | hc
    · rcases List.mem_append.mp hc with hc | hc
      · obtain rfl | ⟨group, hgroup, hc⟩ := mem_join hc
        · exact .inr (.inl rfl)
        · exact .inl ((hleft group hgroup).2.2 c hc)
      · exact .inr (.inl (by simpa using hc))
    · exact hjoin hright c hc

/-- Eight groups are more than one piece. -/
theorem IsPieces.le_length {ss : List (List UInt8)} {n : Nat} (h : IsPieces ss n) :
    n ≤ ss.length + 1 := by
  induction h with
  | nil => exact Nat.zero_le _
  | tail _ => exact Nat.le_refl _
  | group _ _ ih => exact Nat.succ_le_succ ih

/-- There is a colon in an IPv6 address. -/
theorem IsIpv6.colon_mem {s : List UInt8} (h : IsIpv6 s) : 58 ∈ s := by
  obtain ⟨pieces, hpieces, rfl⟩ | ⟨left, right, n, -, -, -, rfl⟩ := h
  · have hle := hpieces.le_length
    exact sep_mem_join (by omega)
  · simp

end HostNames
