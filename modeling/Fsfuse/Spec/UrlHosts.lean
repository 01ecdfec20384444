import Fsfuse.ForStd.HostNames
import Fsfuse.Native.HttpUrl
import Fsfuse.Spec.StringBufferCorrect

/-!
# Hosts in URLs

The URL that a host, a port and a path should have is the one that they can be read back from:
an IPv6 address, which has colons of its own, is in brackets, and no other host is.

`fetcher_make_http_url` goes by the characters of the host. It takes IPv4 addresses for what
should be in brackets, and names whose characters are all hexadecimal digits or all digits and
dots; and the dots keep it from seeing an IPv6 address that ends in an IPv4 address.
-/

namespace Fsfuse.Native

open HostNames

/-! ### URLs -/

/-- An URL of a host as it is written in the URL. -/
def httpUrl (authority port path : List UInt8) : List UInt8 :=
  ascii "http://" ++ (authority ++ 58 :: (port ++ 47 :: path))

def bracketed (host : List UInt8) : List UInt8 := 91 :: (host ++ [93])

open Classical in
/-- The URL that there should be. -/
noncomputable def rightUrl (host port path : List UInt8) : List UInt8 :=
  httpUrl (if IsIpv6 host then bracketed host else host) port path

/-- What is before the first of a character, and what is behind it. -/
def splitAtFirst (c : UInt8) : List UInt8 → Option (List UInt8 × List UInt8)
  | [] => none
  | d :: s => if d = c then some ([], s) else (splitAtFirst c s).map fun r => (d :: r.1, r.2)

/-- The host of an URL, and what is behind the colon that follows it. -/
def readHost : List UInt8 → Option (List UInt8 × List UInt8)
  | 91 :: s => (splitAtFirst 93 s).bind fun r =>
    if r.2.head? = some 58 then some (r.1, r.2.tail) else none
  | s => splitAtFirst 58 s

/-- The host, the port and the path of an URL. -/
def readUrl (url : List UInt8) : Option (List UInt8 × List UInt8 × List UInt8) :=
  (url.dropPrefix? (ascii "http://")).bind fun s =>
    (readHost s).bind fun r => (splitAtFirst 47 r.2).map fun r' => (r.1, r'.1, r'.2)

/-- The URL is as it should be, and can be read back. -/
def UrlRight (host port path : CStr) : Prop :=
  ∃ url, fetcherMakeHttpUrl host port path = .ok url ∧
    url.val = rightUrl host.val port.val path.val ∧
    readUrl url.val = some (host.val, port.val, path.val)

/-- A string is split at the first occurrence of a character. -/
theorem splitAtFirst_append {c : UInt8} {s t : List UInt8} (h : c ∉ s) :
    splitAtFirst c (s ++ c :: t) = some (s, t) := by
  induction s with
  | nil => simp [splitAtFirst]
  | cons d s ih =>
    have hd : c ≠ d := List.ne_of_not_mem_cons h
    have hs : c ∉ s := List.not_mem_of_not_mem_cons h
    rw [List.cons_append, splitAtFirst, if_neg hd.symm, ih hs]
    rfl

/-- A character does not occur before it occurs for the first time. -/
theorem not_mem_of_splitAtFirst {c : UInt8} {u s t : List UInt8}
    (h : splitAtFirst c u = some (s, t)) : c ∉ s := by
  induction u generalizing s t with
  | nil => cases h
  | cons d u ih =>
    rw [splitAtFirst] at h
    split at h
    · cases h
      exact List.not_mem_nil
    · rename_i hd
      obtain ⟨⟨s', t'⟩, hsplit, heq⟩ := Option.map_eq_some_iff.mp h
      cases heq
      exact List.not_mem_cons_of_ne_of_not_mem (Ne.symm hd) (ih hsplit)

/-- A host with neither a colon nor brackets is read as it is written. -/
theorem readHost_plain {host s : List UInt8} (hcolon : 58 ∉ host) (hbracket : 91 ∉ host) :
    readHost (host ++ 58 :: s) = some (host, s) := by
  have hsplit := splitAtFirst_append (t := s) hcolon
  cases host with
  | nil => rfl
  | cons c host =>
    have hc : c ≠ 91 := fun h => hbracket (h ▸ List.mem_cons_self)
    unfold readHost
    split
    · rename_i heq
      cases heq
      exact absurd rfl hc
    · exact hsplit

/-- A host in brackets is read up to the closing one. -/
theorem readHost_bracketed {host s : List UInt8} (hbracket : 93 ∉ host) :
    readHost (bracketed host ++ 58 :: s) = some (host, s) := by
  have hsplit := splitAtFirst_append (t := 58 :: s) hbracket
  have happend : bracketed host ++ 58 :: s = 91 :: (host ++ 93 :: 58 :: s) := by
    simp [bracketed]
  rw [happend, readHost, hsplit]
  rfl

/-- A URL is read back as what it was written from, if its host is. -/
theorem readUrl_httpUrl {authority host port path : List UInt8}
    (hhost : ∀ s, readHost (authority ++ 58 :: s) = some (host, s)) (hport : 47 ∉ port) :
    readUrl (httpUrl authority port path) = some (host, port, path) := by
  have hscheme : (httpUrl authority port path).dropPrefix? (ascii "http://") =
      some (authority ++ 58 :: (port ++ 47 :: path)) :=
    List.dropPrefix?_append_of_beq _ (by decide)
  rw [readUrl, hscheme, Option.bind_some, hhost, Option.bind_some, splitAtFirst_append hport]
  rfl

/-- A `/` ends what is read as the port. -/
theorem not_mem_of_readUrl {url host port path : List UInt8}
    (h : readUrl url = some (host, port, path)) : 47 ∉ port := by
  obtain ⟨s, -, h⟩ := Option.bind_eq_some_iff.mp h
  obtain ⟨⟨host', s'⟩, -, h⟩ := Option.bind_eq_some_iff.mp h
  obtain ⟨⟨port', path'⟩, hsplit, heq⟩ := Option.map_eq_some_iff.mp h
  cases heq
  exact not_mem_of_splitAtFirst hsplit

/-! ### What the code makes -/

/-- The host is put in brackets. -/
def looksNumeric (host : CStr) : Bool := isIp4Address host || isIp6Address host

/-- The URL that `fetcher_make_http_url` writes. -/
def writtenUrl (host port path : CStr) : List UInt8 :=
  httpUrl (if looksNumeric host then bracketed host.val else host.val) port.val path.val

/-- What is printed to a new buffer is what is committed of it. -/
theorem printf_commit {sb : StringBuffer} {content : List UInt8} (h : sb.Holds content)
    (text : List UInt8) :
    (sb.printf text >>= StringBuffer.commit) =
      if text.length < 2 ^ 31 then .ok (text ++ [0]) else .error .assertion := by
  split
  · rename_i hsize
    obtain ⟨sb', hprintf, hholds⟩ := StringBuffer.printf_spec h hsize
    rw [hprintf]
    exact hholds.commit
  · rename_i hsize
    rw [StringBuffer.printf_of_le h (Nat.le_of_not_lt hsize)]
    rfl

/-- What is written into a URL has no NUL in it. -/
theorem zero_not_mem_writtenUrl (host port path : CStr) : 0 ∉ writtenUrl host port path := by
  have hscheme : (0 : UInt8) ∉ ascii "http://" := by decide
  unfold writtenUrl
  split <;> simp [httpUrl, bracketed, hscheme, host.property, port.property, path.property]

/-- The format that is chosen makes the URL. -/
theorem sprintf_fmt (host port path : CStr) :
    sprintf (if looksNumeric host then ascii "http://[%s]:%s/%s" else ascii "http://%s:%s/%s")
      [host, port, path] = writtenUrl host port path := by
  unfold writtenUrl
  split
  · show ascii "http://[" ++ (host.val ++ 93 :: 58 :: (port.val ++ 47 :: (path.val ++ []))) = _
    simp [httpUrl, bracketed, ascii]
  · show ascii "http://" ++ (host.val ++ 58 :: (port.val ++ 47 :: (path.val ++ []))) = _
    simp [httpUrl]

/-- The URL is made unless an assertion fails, which is about the host and the port, or about
    the length of the URL. -/
theorem fetcherMakeHttpUrl_eq (host port path : CStr) :
    fetcherMakeHttpUrl host port path =
      if host.val = [] ∨ port.val = [] ∨ ¬ (writtenUrl host port path).length < 2 ^ 31 then
        .error .assertion
      else .ok ⟨writtenUrl host port path, zero_not_mem_writtenUrl host port path⟩ := by
  obtain ⟨sb, hnew, hholds⟩ := StringBuffer.fromChars_spec .empty
  have hwrite := printf_commit hholds (writtenUrl host port path)
  unfold fetcherMakeHttpUrl
  rw [StringBuffer.new, hnew]
  simp only [bind, Except.bind]
  -- the assertions come first, then the URL is printed and committed
  by_cases hhost : host.val = []
  · rw [if_pos hhost]
    exact (if_pos (.inl hhost)).symm
  by_cases hport : port.val = []
  · rw [if_neg hhost, if_pos hport]
    exact (if_pos (.inr (.inl hport))).symm
  rw [if_neg hhost, if_neg hport]
  show (sb.printf (sprintf (if looksNumeric host then ascii "http://[%s]:%s/%s"
    else ascii "http://%s:%s/%s") [host, port, path]) >>= fun sb' => sb'.commit >>= fun url =>
      pure (CStr.ofBytes url)) = _
  rw [sprintf_fmt, ← bind_assoc, hwrite]
  by_cases hsize : (writtenUrl host port path).length < 2 ^ 31
  · have hnot : ¬ (host.val = [] ∨ port.val = [] ∨
        ¬ (writtenUrl host port path).length < 2 ^ 31) := by
      rintro (h | h | h)
      · exact hhost h
      · exact hport h
      · exact h hsize
    rw [if_pos hsize, if_neg hnot]
    exact congrArg Except.ok (ofBytes_append_nul ⟨_, zero_not_mem_writtenUrl host port path⟩)
  · rw [if_neg hsize, if_pos (.inr (.inr hsize))]
    rfl

/-- The URL of a resource is the URL of its path on the indexnode, which is never empty, so that
    the only assertion left is about the length. -/
theorem protoIndexnodeMakeUrl_eq (fetcherEscapeForHttp : CStr → CStr) (pin : ProtoIndexnode)
    {pathPrefix resource path : CStr} (hnonempty : pathPrefix.val ≠ [])
    (hpath : path.val = pathPrefix.val ++ 47 :: (fetcherEscapeForHttp resource).val) :
    protoIndexnodeMakeUrl fetcherEscapeForHttp pin pathPrefix resource =
      if (writtenUrl pin.host pin.port path).length < 2 ^ 31 then
        .ok ⟨writtenUrl pin.host pin.port path, zero_not_mem_writtenUrl pin.host pin.port path⟩
      else .error .assertion := by
  obtain ⟨sb, hnew, hholds⟩ := StringBuffer.fromChars_spec .empty
  have hwrite := printf_commit hholds path.val
  have hfmt : sprintf (ascii "%s/%s") [pathPrefix, fetcherEscapeForHttp resource] = path.val := by
    rw [hpath]
    show pathPrefix.val ++ 47 :: ((fetcherEscapeForHttp resource).val ++ []) = _
    rw [List.append_nil]
  -- the path is printed in the same way
  have hmake : makePath fetcherEscapeForHttp pathPrefix resource =
      if path.val.length < 2 ^ 31 then .ok path else .error .assertion := by
    unfold makePath
    rw [StringBuffer.new, hnew]
    simp only [bind, Except.bind]
    rw [if_neg hnonempty, hfmt]
    show (sb.printf path.val >>= fun sb' => sb'.commit >>= fun bytes =>
      pure (CStr.ofBytes bytes)) = _
    rw [← bind_assoc, hwrite]
    split
    · exact congrArg Except.ok (ofBytes_append_nul path)
    · rfl
  -- a URL that can be printed has a path that can
  have hlength : path.val.length ≤ (writtenUrl pin.host pin.port path).length := by
    rw [writtenUrl, httpUrl]
    simp only [List.length_append, List.length_cons]
    omega
  unfold protoIndexnodeMakeUrl
  rw [hmake]
  by_cases hsize : (writtenUrl pin.host pin.port path).length < 2 ^ 31
  · have hassert : ¬ (pin.host.val = [] ∨ pin.port.val = [] ∨
        ¬ (writtenUrl pin.host pin.port path).length < 2 ^ 31) := by
      rintro (h | h | h)
      · exact pin.host_ne h
      · exact pin.port_ne h
      · exact h hsize
    rw [if_pos (Nat.lt_of_le_of_lt hlength hsize), if_pos hsize]
    exact (fetcherMakeHttpUrl_eq pin.host pin.port path).trans (if_neg hassert)
  · have hmake' := (fetcherMakeHttpUrl_eq pin.host pin.port path).trans
      (if_pos (.inr (.inr hsize)))
    rw [if_neg hsize]
    -- the path's assertion fails, or else the URL's does
    split
    · exact hmake'
    · rfl

/-! ### Which hosts it is right about -/

/-- `strspn` spans the whole string exactly if all its characters are accepted. -/
theorem strspn_eq_length_iff {s accept : List UInt8} :
    strspn s accept = s.length ↔ ∀ c ∈ s, c ∈ accept := by
  rw [strspn]
  constructor
  · intro h c hc
    rw [← (List.takeWhile_prefix _).eq_of_length h] at hc
    simpa using List.mem_takeWhile_imp hc
  · intro h
    rw [List.takeWhile_eq_self_iff.mpr]
    simpa using h

/-- The characters of an IPv4 address are digits and dots. -/
theorem mem_ip4_chars (c : UInt8) : c ∈ ascii "0123456789." ↔ IsDigit c ∨ c = 46 := by
  have h : ∀ n : Fin 256, UInt8.ofFin n ∈ ascii "0123456789." ↔
      IsDigit (.ofFin n) ∨ UInt8.ofFin n = 46 := by decide +kernel
  exact h c.toFin

/-- The characters of an IPv6 address are hex digits and colons. -/
theorem mem_ip6_chars (c : UInt8) :
    c ∈ ascii "0123456789abcdefABCDEF:" ↔ IsHexDigit c ∨ c = 58 := by
  have h : ∀ n : Fin 256, UInt8.ofFin n ∈ ascii "0123456789abcdefABCDEF:" ↔
      IsHexDigit (.ofFin n) ∨ UInt8.ofFin n = 58 := by decide +kernel
  exact h c.toFin

/-- A host is taken for an IPv4 address if it has only such characters. -/
theorem isIp4Address_iff {s : CStr} :
    isIp4Address s = true ↔ ∀ c ∈ s.val, IsDigit c ∨ c = 46 := by
  rw [isIp4Address, decide_eq_true_iff, strspn_eq_length_iff]
  simp only [mem_ip4_chars]

/-- A host is taken for an IPv6 address if it has only such characters. -/
theorem isIp6Address_iff {s : CStr} :
    isIp6Address s = true ↔ ∀ c ∈ s.val, IsHexDigit c ∨ c = 58 := by
  rw [isIp6Address, decide_eq_true_iff, strspn_eq_length_iff]
  simp only [mem_ip6_chars]

/-- The colons of an IPv6 address tell it from the other addresses, and only dots tell it from
    what the code takes for one. -/
theorem looksNumeric_of_ipv6 {host : CStr} (h : IsIpv6 host.val) :
    looksNumeric host = true ↔ 46 ∉ host.val := by
  have h4 : isIp4Address host = false := by
    rw [Bool.eq_false_iff, Ne, isIp4Address_iff]
    intro hall
    exact absurd (hall 58 h.colon_mem) (by decide)
  rw [looksNumeric, h4, Bool.false_or, isIp6Address_iff]
  constructor
  · intro hall hdot
    exact absurd (hall 46 hdot) (by decide)
  · intro hdot c hc
    obtain hhex | hcolon | rfl := h.chars c hc
    · exact .inl hhex
    · exact .inr hcolon
    · exact absurd hc hdot

/-- Without colons, the code goes by whether all characters are digits and dots, or all are
    hexadecimal digits. -/
theorem looksNumeric_of_not_mem {host : CStr} (h : 58 ∉ host.val) :
    looksNumeric host = false ↔
      (∃ c ∈ host.val, ¬ IsDigit c ∧ c ≠ 46) ∧ ∃ c ∈ host.val, ¬ IsHexDigit c := by
  rw [looksNumeric, Bool.or_eq_false_iff, Bool.eq_false_iff, Bool.eq_false_iff, Ne, Ne,
    isIp4Address_iff, isIp6Address_iff]
  push Not
  refine and_congr Iff.rfl ⟨?_, ?_⟩
  · rintro ⟨c, hc, hhex, -⟩
    exact ⟨c, hc, hhex⟩
  · rintro ⟨c, hc, hhex⟩
    exact ⟨c, hc, hhex, fun hcolon => h (hcolon ▸ hc)⟩

/-- A character that no domain name has is in no IPv4 address either. -/
theorem not_mem_of_chars {host : List UInt8} (h : IsDomainName host ∨ IsIpv4 host) {c : UInt8}
    (hname : ¬ (IsLetter c ∨ IsDigit c ∨ c = 45 ∨ c = 46)) : c ∉ host := by
  intro hc
  rcases h with h | h
  · exact hname (h.chars c hc)
  · obtain hdigit | hdot := h.chars c hc
    · exact hname (.inr (.inl hdigit))
    · exact hname (.inr (.inr (.inr hdot)))

/-- Neither a domain name nor an IPv4 address has a colon in it. -/
theorem colon_not_mem {host : List UInt8} (h : IsDomainName host ∨ IsIpv4 host) : 58 ∉ host :=
  not_mem_of_chars h (by decide)

/-- The code puts a host in brackets exactly if it is an IPv6 address, for these hosts. -/
theorem looksNumeric_right_iff {host : CStr}
    (h : IsDomainName host.val ∨ IsIpv4 host.val ∨ IsIpv6 host.val) :
    (looksNumeric host = true ↔ IsIpv6 host.val) ↔
      IsIpv6 host.val ∧ 46 ∉ host.val ∨
        IsDomainName host.val ∧ (∃ c ∈ host.val, ¬ IsDigit c ∧ c ≠ 46) ∧
          ∃ c ∈ host.val, ¬ IsHexDigit c := by
  by_cases h6 : IsIpv6 host.val
  -- an IPv6 address is told by its colons unless it has dots
  · have hname : ¬ IsDomainName host.val := fun hname =>
      colon_not_mem (.inl hname) h6.colon_mem
    simp [looksNumeric_of_ipv6 h6, h6, hname]
  · have hcolon : 58 ∉ host.val := colon_not_mem (by tauto)
    rw [iff_false_right h6, Bool.not_eq_true, looksNumeric_of_not_mem hcolon]
    simp only [h6, false_and, false_or]
    constructor
    -- a host without colons looks numeric if all of it is digits and dots, or hex digits
    · rintro ⟨⟨c, hc, hdigit, hdot⟩, hhex⟩
      refine ⟨?_, ⟨c, hc, hdigit, hdot⟩, hhex⟩
      obtain hname | h4 | h6' := h
      · exact hname
      · exact ((h4.chars c hc).elim hdigit hdot).elim
      · exact absurd h6' h6
    · exact And.right

/-! ### Reading hosts back -/

/-- The right URL is read back as the host, port and path that it is for. -/
theorem readUrl_rightUrl {host port path : List UInt8}
    (h : IsDomainName host ∨ IsIpv4 host ∨ IsIpv6 host) (hport : 47 ∉ port) :
    readUrl (rightUrl host port path) = some (host, port, path) := by
  unfold rightUrl
  split
  · rename_i h6
    have hbracket : 93 ∉ host := by
      intro hmem
      exact absurd (h6.chars 93 hmem) (by decide)
    exact readUrl_httpUrl (fun _ => readHost_bracketed hbracket) hport
  · rename_i h6
    have hplain : IsDomainName host ∨ IsIpv4 host := by tauto
    have hbracket : 91 ∉ host := not_mem_of_chars hplain (by decide)
    exact readUrl_httpUrl (fun _ => readHost_plain (colon_not_mem hplain) hbracket) hport

/-- A host in brackets is another string. -/
theorem bracketed_ne (host : List UInt8) : bracketed host ≠ host := by
  intro h
  have hlength := congrArg List.length h
  simp only [bracketed, List.length_cons, List.length_append, List.length_nil] at hlength
  omega

/-- What is written is what should be exactly if the code is right about the brackets. -/
theorem writtenUrl_eq_rightUrl_iff (host port path : CStr) :
    writtenUrl host port path = rightUrl host.val port.val path.val ↔
      (looksNumeric host = true ↔ IsIpv6 host.val) := by
  have hcancel : ∀ s t : List UInt8,
      httpUrl s port.val path.val = httpUrl t port.val path.val ↔ s = t := by
    intro s t
    rw [httpUrl, httpUrl, List.append_cancel_left_eq, List.append_cancel_right_eq]
  unfold writtenUrl rightUrl
  rw [hcancel]
  have hne := bracketed_ne host.val
  by_cases hlooks : looksNumeric host = true
  · by_cases h6 : IsIpv6 host.val
    · simp [hlooks, h6]
    · simp [hlooks, h6, hne]
  · by_cases h6 : IsIpv6 host.val
    · simp [hlooks, h6, hne.symm]
    · simp [hlooks, h6]

/-- No other URL than the one that is written is returned. -/
theorem not_urlRight {host port path : CStr}
    (h : writtenUrl host port path ≠ rightUrl host.val port.val path.val) :
    ¬ UrlRight host port path := by
  rintro ⟨url, hmake, hurl, -⟩
  rw [fetcherMakeHttpUrl_eq] at hmake
  split at hmake
  · cases hmake
  · cases hmake
    exact h hurl

/-- The URL of a domain name or an address is as it should be, and can be read back, exactly if
    the code is right about the host, the port is not empty and does not end early, and the URL
    is not too long to be printed. -/
theorem fetcherMakeHttpUrl_right_iff (host port path : CStr)
    (hhost : IsDomainName host.val ∨ IsIpv4 host.val ∨ IsIpv6 host.val) :
    UrlRight host port path ↔
      (IsIpv6 host.val ∧ 46 ∉ host.val ∨
        IsDomainName host.val ∧ (∃ c ∈ host.val, ¬ IsDigit c ∧ c ≠ 46) ∧
          ∃ c ∈ host.val, ¬ IsHexDigit c) ∧
      port.val ≠ [] ∧ 47 ∉ port.val ∧
      (rightUrl host.val port.val path.val).length < 2 ^ 31 := by
  -- no host is empty
  have hne : host.val ≠ [] := by
    obtain hname | h4 | h6 := hhost
    · exact hname.ne_nil
    · exact List.ne_nil_of_mem h4.dot_mem
    · exact List.ne_nil_of_mem h6.colon_mem
  rw [← looksNumeric_right_iff hhost, ← writtenUrl_eq_rightUrl_iff host port path]
  constructor
  -- the assertions have not failed, and so the URL is the one that was written
  · rintro ⟨url, hmake, hurl, hread⟩
    rw [fetcherMakeHttpUrl_eq] at hmake
    split at hmake
    · cases hmake
    · rename_i hassert
      push Not at hassert
      cases hmake
      rw [← hurl]
      exact ⟨rfl, hassert.2.1, not_mem_of_readUrl hread, hassert.2.2⟩
  · rintro ⟨hright, hport, hslash, hsize⟩
    have hassert : ¬ (host.val = [] ∨ port.val = [] ∨
        ¬ (writtenUrl host port path).length < 2 ^ 31) := by
      rw [hright]
      tauto
    -- what is written is the right URL, which is read back
    refine ⟨_, (fetcherMakeHttpUrl_eq host port path).trans (if_neg hassert), hright, ?_⟩
    show readUrl (writtenUrl host port path) = _
    rw [hright]
    exact readUrl_rightUrl hhost hslash

/-- The condition holds for a domain name, and for an IPv6 address in groups. -/
theorem fetcherMakeHttpUrl_right_example :
    UrlRight ⟨ascii "fs2.example", by decide⟩ ⟨ascii "80", by decide⟩
        ⟨ascii "stats/", by decide⟩ ∧
      UrlRight ⟨ascii "::1", by decide⟩ ⟨ascii "80", by decide⟩ ⟨ascii "stats/", by decide⟩ := by
  -- a name with a letter that is no hex digit, and an address without dots
  constructor
  · have hname : IsDomainName (ascii "fs2.example") :=
      ⟨[ascii "fs2", ascii "example"], by decide, by decide, .inl rfl⟩
    have h6 : ¬ IsIpv6 (ascii "fs2.example") := fun h6 =>
      colon_not_mem (.inl hname) h6.colon_mem
    apply (fetcherMakeHttpUrl_right_iff _ _ _ (.inl hname)).mpr
    refine ⟨.inr ⟨hname, by decide⟩, by decide, by decide, ?_⟩
    rw [rightUrl, if_neg h6]
    decide
  · have h6 : IsIpv6 (ascii "::1") :=
      .inr ⟨[], [ascii "1"], 1, by decide, .group (by decide) .nil, by decide, rfl⟩
    apply (fetcherMakeHttpUrl_right_iff _ _ _ (.inr (.inr h6))).mpr
    refine ⟨.inl ⟨h6, by decide⟩, by decide, by decide, ?_⟩
    rw [rightUrl, if_pos h6]
    decide

/-- The ways that the code is wrong about a host: an IPv6 address that ends in an IPv4 address
    is not put in brackets, and a name of hexadecimal digits and an IPv4 address are. -/
theorem fetcherMakeHttpUrl_wrong_hosts :
    (IsIpv6 (ascii "::ffff:192.0.2.1") ∧
      fetcherMakeHttpUrl ⟨ascii "::ffff:192.0.2.1", by decide⟩ ⟨ascii "80", by decide⟩
        ⟨ascii "stats/", by decide⟩ =
          .ok ⟨ascii "http://::ffff:192.0.2.1:80/stats/", by decide⟩ ∧
      ¬ UrlRight ⟨ascii "::ffff:192.0.2.1", by decide⟩ ⟨ascii "80", by decide⟩
        ⟨ascii "stats/", by decide⟩) ∧
    (IsDomainName (ascii "cafe") ∧
      fetcherMakeHttpUrl ⟨ascii "cafe", by decide⟩ ⟨ascii "80", by decide⟩
        ⟨ascii "stats/", by decide⟩ = .ok ⟨ascii "http://[cafe]:80/stats/", by decide⟩ ∧
      ¬ UrlRight ⟨ascii "cafe", by decide⟩ ⟨ascii "80", by decide⟩
        ⟨ascii "stats/", by decide⟩) ∧
    IsIpv4 (ascii "192.0.2.1") ∧
      fetcherMakeHttpUrl ⟨ascii "192.0.2.1", by decide⟩ ⟨ascii "80", by decide⟩
        ⟨ascii "stats/", by decide⟩ = .ok ⟨ascii "http://[192.0.2.1]:80/stats/", by decide⟩ ∧
      ¬ UrlRight ⟨ascii "192.0.2.1", by decide⟩ ⟨ascii "80", by decide⟩
        ⟨ascii "stats/", by decide⟩ := by
  have h4 : IsIpv4 (ascii "192.0.2.1") :=
    ⟨[ascii "192", ascii "0", ascii "2", ascii "1"], rfl, by decide, rfl⟩
  have hname : IsDomainName (ascii "cafe") :=
    ⟨[ascii "cafe"], by decide, by decide, .inl rfl⟩
  have h6 : IsIpv6 (ascii "::ffff:192.0.2.1") :=
    .inr ⟨[], [ascii "ffff", ascii "192.0.2.1"], 3, by decide, .group (by decide) (.tail h4),
      by decide, rfl⟩
  -- the first has dots, the others consist of hex digits, or of digits and dots
  refine ⟨⟨h6, ?_, ?_⟩, ⟨hname, ?_, ?_⟩, h4, ?_, ?_⟩
  · rw [fetcherMakeHttpUrl_eq, if_neg (by decide)]
    rfl
  · apply not_urlRight
    rw [rightUrl, if_pos h6]
    decide
  · rw [fetcherMakeHttpUrl_eq, if_neg (by decide)]
    rfl
  · apply not_urlRight
    rw [rightUrl, if_neg fun h => colon_not_mem (.inl hname) h.colon_mem]
    decide
  · rw [fetcherMakeHttpUrl_eq, if_neg (by decide)]
    rfl
  · apply not_urlRight
    rw [rightUrl, if_neg fun h => colon_not_mem (.inr h4) h.colon_mem]
    decide

end Fsfuse.Native
