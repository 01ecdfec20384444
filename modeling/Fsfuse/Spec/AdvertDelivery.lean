import Fsfuse.Spec.AdvertSafety

/-!
# Which adverts are delivered, and from whom

An advert packet has at least three fields, and `autoindexnode` is not the second of them.
The parser accepts just these, but it finds out that a field is missing only by reading past
the end of the text, so packets with too few fields are not turned down.

The host that is delivered with an advert is meant to be the text of its sender's address.
It is always made as that of an IPv4 address, in one byte less than the longest of these
needs.

* `parseAdvertPacket_eq_ok_iff` — the packets that are parsed as they should be;
* `packetsReceived_sender_iff` — the senders whose adverts are delivered as theirs.
-/

namespace Fsfuse.Native.IndexnodesListener

/-! ### The grammar of adverts -/

/-- The port, the protocol and the id of an advert packet; other packets are none. -/
def advert (packet : List UInt8) : Option (List UInt8 × List UInt8 × List UInt8) :=
  match packet.splitOn colon with
  | fs2protocol :: port :: id :: _ =>
    if port = ascii "autoindexnode" then none else some (port, fs2protocol, id)
  | _ => none

/-- A packet is parsed as it should be, without a read past its end, exactly when it has a
    third field or says `autoindexnode` in its second. -/
theorem parseAdvertPacket_eq_ok_iff (packet : List UInt8) :
    parseAdvertPacket packet = .ok (advert packet) ↔
      3 ≤ (packet.splitOn colon).length ∨
        (packet.splitOn colon)[1]? = some (ascii "autoindexnode") := by
  rw [parseAdvertPacket_eq, advert]
  match packet.splitOn colon with
  | [] => simp
  -- with too few fields the parser reads past the end
  | [fs2protocol] => simp
  | [fs2protocol, port] =>
    by_cases hauto : port = ascii "autoindexnode"
    · simp [hauto]
    · simp [hauto]
  | fs2protocol :: port :: id :: rest =>
    by_cases hauto : port = ascii "autoindexnode"
    · simp [hauto]
    · simp [hauto]

/-- A packet without a separator. -/
theorem parseAdvertPacket_ne_ok_one_field :
    parseAdvertPacket (ascii "fs2protocol-0.13") ≠ .ok (advert (ascii "fs2protocol-0.13")) := by
  rw [parseAdvertPacket_eq, show (ascii "fs2protocol-0.13").splitOn colon =
    [ascii "fs2protocol-0.13"] by decide]
  exact nofun

/-- An advert is parsed as one. -/
theorem parseAdvertPacket_of_advert {packet port fs2protocol id : List UInt8}
    (h : advert packet = some (port, fs2protocol, id)) :
    parseAdvertPacket packet = .ok (some (port, fs2protocol, id)) := by
  rw [parseAdvertPacket_eq]
  rw [advert] at h
  split at h
  · rename_i heq
    rw [heq]
    split at h
    · cases h
    · rename_i hport
      obtain ⟨rfl, rfl, rfl⟩ : _ ∧ _ ∧ _ := by simpa using h
      simp [hport]
  · cases h

/-! ### Senders -/

/-- The address in a `struct sockaddr`. -/
def address (domain : AddressFamily) (sockaddr : List UInt8) : List UInt8 :=
  (sockaddr.drop domain.offsetofAddr).take domain.addressLen

/-- The daemon's reaction to a datagram is that to the calls made for it. -/
theorem receiveAdvert_eq_packetsReceived (ins : Indexnodes) (now : Int) {domain : AddressFamily}
    {sender : List UInt8} (socklen : UInt32) (sa datagram : List UInt8)
    (hsender : sender.length = domain.sizeofSockaddr) :
    receiveAdvert ins now (advertHost domain (recvfromSockaddr socklen sender sa))
        (recvfromDatagram socklen datagram) =
      (packetsReceived domain socklen sa sender datagram).bind fun adverts =>
        adverts.foldlM (fun ins advert => ins.newIndexnodeEvent now advert.host advert.port
          advert.fs2protocol advert.id) ins := by
  unfold packetsReceived
  cases recvfromDatagram socklen datagram with
  | none => rfl
  | some datagram =>
    simp only [receiveAdvert, if_pos hsender]
    split
    · cases parseAdvertPacket (cString datagram) with
      | error fault => rfl
      | ok parsed =>
        -- a call is made only for an advert with a host
        cases parsed with
        | none => rfl
        | some parsed =>
          obtain ⟨port, fs2protocol, id⟩ := parsed
          cases advertHost domain (recvfromSockaddr socklen sender sa) with
          | none => rfl
          | some host =>
            show ins.newIndexnodeEvent now host port fs2protocol id =
              (ins.newIndexnodeEvent now host port fs2protocol id).bind fun ins => .ok ins
            cases ins.newIndexnodeEvent now host port fs2protocol id <;> rfl
    · rfl

/-- The one call made for an advert from a sender has the host that is found. -/
theorem packetsReceived_eq_singleton_iff {domain : AddressFamily} {socklen : UInt32}
    {sa sender datagram host port fs2protocol id : List UInt8}
    (hsender : sender.length = domain.sizeofSockaddr) (hlen : datagram.length ≤ bufSize)
    (hroom : socklen.toNat < 2 ^ 31)
    (hadvert : advert (cString datagram) = some (port, fs2protocol, id)) :
    packetsReceived domain socklen sa sender datagram = .ok [⟨host, port, fs2protocol, id⟩] ↔
      advertHost domain (recvfromSockaddr socklen sender sa) = some host := by
  simp only [packetsReceived, recvfromDatagram, if_neg (Nat.not_le_of_lt hroom), if_pos hlen,
    if_pos hsender, parseAdvertPacket_of_advert hadvert]
  cases advertHost domain (recvfromSockaddr socklen sender sa) with
  | none => simp [bind, Except.bind, pure, Except.pure]
  | some host' => simp [bind, Except.bind, pure, Except.pure]

/-- The text of an IPv4 address leaves one byte free unless all octets have three digits. -/
theorem length_inetNtop4_lt_iff (a b c d : UInt8) (rest : List UInt8) :
    (inetNtop4 (a :: b :: c :: d :: rest)).length + 1 ≤ AddressFamily.inet.addrstrlen - 1 ↔
      ∃ octet ∈ [a, b, c, d], octet < 100 := by
  obtain ⟨ha, ha', -⟩ := decimal_octet a
  obtain ⟨hb, hb', -⟩ := decimal_octet b
  obtain ⟨hc, hc', -⟩ := decimal_octet c
  obtain ⟨hd, hd', -⟩ := decimal_octet d
  simp only [inetNtop4_eq, List.length_append, List.length_cons, AddressFamily.addrstrlen,
    List.mem_cons, List.not_mem_nil, or_false, exists_eq_or_imp, exists_eq_left]
  -- three dots and at most three digits each
  by_cases ha₀ : a < 100 <;> by_cases hb₀ : b < 100 <;> by_cases hc₀ : c < 100 <;>
    by_cases hd₀ : d < 100 <;> simp only [ha₀, hb₀, hc₀, hd₀, not_true_eq_false,
      not_false_eq_true, iff_true, iff_false, or_true, true_or, or_self] at * <;> omega

/-- Four bytes of an address can be taken apart. -/
theorem exists_octets {src : List UInt8} (h : 4 ≤ src.length) :
    ∃ a b c d rest, src = a :: b :: c :: d :: rest := by
  match src, h with
  | a :: b :: c :: d :: rest, _ => exact ⟨a, b, c, d, rest, rfl⟩

/-- What is found on the IPv6 socket has no colon. -/
theorem advertHost_inet6_ne {sa : List UInt8} (hsa : 12 ≤ sa.length) (src : List UInt8) :
    advertHost .inet6 sa ≠ some (inetNtop6 src) := by
  obtain ⟨a, b, c, d, rest, hoctets⟩ : ∃ a b c d rest, sa.drop 8 = a :: b :: c :: d :: rest :=
    exists_octets (by rw [List.length_drop]; omega)
  simp only [advertHost, inetNtop, AddressFamily.offsetofAddr, hoctets, addressText]
  split
  · intro heq
    have hcolon := addressColon_mem_inetNtop6 src
    rw [← Option.some.inj heq] at hcolon
    exact addressColon_not_mem_inetNtop4 a b c d rest hcolon
  · exact nofun

/-- What is found on the IPv4 socket is the text of the four bytes where the address is. -/
theorem advertHost_inet_eq_some_iff {a b c d : UInt8} {pre rest host : List UInt8}
    (hpre : pre.length = 4) :
    advertHost .inet (pre ++ a :: b :: c :: d :: rest) = some host ↔
      (∃ octet ∈ [a, b, c, d], octet < 100) ∧ inetNtop4 [a, b, c, d] = host := by
  have hdrop : (pre ++ a :: b :: c :: d :: rest).drop AddressFamily.inet.offsetofAddr =
      a :: b :: c :: d :: rest := List.drop_left' hpre
  have htext : inetNtop4 [a, b, c, d] = inetNtop4 (a :: b :: c :: d :: rest) := by
    rw [inetNtop4_eq, inetNtop4_eq]
  rw [advertHost, hdrop, inetNtop, addressText, Option.ite_none_right_eq_some, Option.some.injEq,
    length_inetNtop4_lt_iff, htext]

/-- With room for the address, that is what is stored in `sa`. -/
theorem recvfromSockaddr_of_le {a b c d : UInt8} {pre rest : List UInt8} {socklen : UInt32}
    (hpre : pre.length = 4) (hroom : 8 ≤ socklen.toNat) (sa : List UInt8) :
    ∃ rest', recvfromSockaddr socklen (pre ++ a :: b :: c :: d :: rest) sa =
      pre ++ a :: b :: c :: d :: rest' := by
  obtain ⟨more, hmore⟩ : ∃ more, socklen.toNat = (pre ++ [a, b, c, d]).length + more :=
    ⟨socklen.toNat - 8, by simp [hpre]; omega⟩
  rw [recvfromSockaddr, hmore,
    show pre ++ a :: b :: c :: d :: rest = pre ++ [a, b, c, d] ++ rest by simp,
    List.take_length_add_append]
  simp only [List.append_assoc, List.cons_append, List.nil_append]
  exact ⟨_, rfl⟩

/-- Without it, the last byte of the address is what it has been before. -/
theorem recvfromSockaddr_of_lt {a b c d d' : UInt8} {pre rest : List UInt8} {socklen : UInt32}
    (hpre : pre.length = 4) (hroom : socklen.toNat < 8) :
    recvfromSockaddr socklen (pre ++ a :: b :: c :: d :: rest) (pre ++ a :: b :: c :: d' :: rest) =
      pre ++ a :: b :: c :: d' :: rest := by
  have hle : socklen.toNat ≤ (pre ++ [a, b, c]).length := by simp [hpre]; omega
  have hsplit : ∀ x : UInt8, pre ++ a :: b :: c :: x :: rest = pre ++ [a, b, c] ++ x :: rest := by
    intro x
    simp
  rw [recvfromSockaddr, hsplit d, hsplit d', List.take_append_of_le_length hle, Nat.min_eq_left,
    List.drop_append_of_le_length hle, ← List.append_assoc, List.take_append_drop]
  simp [hpre]
  omega

/-- If `recvfrom` fails, nothing is delivered. -/
theorem packetsReceived_of_fails {domain : AddressFamily} {socklen : UInt32}
    (hfails : 2 ^ 31 ≤ socklen.toNat) (sa sender datagram : List UInt8) :
    packetsReceived domain socklen sa sender datagram = .ok [] := by
  rw [packetsReceived, recvfromDatagram, if_pos hfails]

/-- An advert is delivered, once and as its sender's, exactly when it comes from an IPv4
    address with an octet of fewer than three digits, and `recvfrom` happens to be told that
    there is room for the address, by a number that is not negative. -/
theorem packetsReceived_sender_iff (domain : AddressFamily) (socklen : UInt32)
    (sender datagram port fs2protocol id : List UInt8)
    (hsender : sender.length = domain.sizeofSockaddr) (hlen : datagram.length ≤ bufSize)
    (hadvert : advert (cString datagram) = some (port, fs2protocol, id)) :
    (∀ sa, sa.length = domain.sizeofSockaddr →
        packetsReceived domain socklen sa sender datagram =
          .ok [⟨addressText domain (address domain sender), port, fs2protocol, id⟩]) ↔
      domain = .inet ∧ 8 ≤ socklen.toNat ∧ socklen.toNat < 2 ^ 31 ∧
        ∃ octet ∈ address domain sender, octet < 100 := by
  by_cases hsigned : socklen.toNat < 2 ^ 31
  swap
  -- a length that is negative makes `recvfrom` fail
  · refine iff_of_false (fun hall => ?_) (fun h => hsigned h.2.2.1)
    have hnone := hall (List.replicate domain.sizeofSockaddr 0) List.length_replicate
    rw [packetsReceived_of_fails (Nat.le_of_not_lt hsigned)] at hnone
    cases hnone
  simp only [packetsReceived_eq_singleton_iff hsender hlen hsigned hadvert, hsigned, true_and]
  cases domain with
  | inet6 =>
    simp only [reduceCtorEq, false_and, iff_false, not_forall]
    refine ⟨List.replicate 28 0, rfl, advertHost_inet6_ne ?_ _⟩
    have hsize : sender.length = 28 := hsender
    simp only [recvfromSockaddr, List.length_append, List.length_take, List.length_drop,
      List.length_replicate]
    omega
  | inet =>
    have hsize : sender.length = 16 := hsender
    -- the four bytes of the address, and what is before and behind them
    obtain ⟨a, b, c, d, rest, hoctets⟩ : ∃ a b c d rest, sender.drop 4 = a :: b :: c :: d :: rest :=
      exists_octets (by rw [List.length_drop]; omega)
    obtain ⟨pre, hpre, rfl⟩ : ∃ pre, pre.length = 4 ∧ pre ++ a :: b :: c :: d :: rest = sender :=
      ⟨sender.take 4, by rw [List.length_take]; omega, by rw [← hoctets, List.take_append_drop]⟩
    have haddress : address .inet (pre ++ a :: b :: c :: d :: rest) = [a, b, c, d] := by
      rw [address, show AddressFamily.inet.offsetofAddr = pre.length from hpre.symm,
        List.drop_left]
      rfl
    rw [haddress]
    simp only [true_and, addressText]
    constructor
    · intro hall
      have hroom : 8 ≤ socklen.toNat := by
        by_contra hless
        -- then the last byte may be any other
        obtain ⟨d', hd'⟩ : ∃ d', d' ≠ d := ⟨d + 1, by simp⟩
        have hlen' : (pre ++ a :: b :: c :: d' :: rest).length = 16 := by simpa using hsize
        have hhost := hall (pre ++ a :: b :: c :: d' :: rest) hlen'
        rw [recvfromSockaddr_of_lt hpre (Nat.lt_of_not_le hless),
          advertHost_inet_eq_some_iff hpre, inetNtop4_eq, inetNtop4_eq] at hhost
        have hdigits : decimal d'.toNat = decimal d.toNat := by simpa using hhost.2
        exact hd' (decimal_octet_inj hdigits)
      have hhost := hall _ hsize
      obtain ⟨rest', hstored⟩ : ∃ rest', recvfromSockaddr socklen
          (pre ++ a :: b :: c :: d :: rest) (pre ++ a :: b :: c :: d :: rest) =
            pre ++ a :: b :: c :: d :: rest' := recvfromSockaddr_of_le hpre hroom _
      rw [hstored, advertHost_inet_eq_some_iff hpre] at hhost
      exact ⟨hroom, hhost.1⟩
    · rintro ⟨hroom, hoctet⟩ sa -
      obtain ⟨rest', hstored⟩ := recvfromSockaddr_of_le hpre hroom sa
      rw [hstored, advertHost_inet_eq_some_iff hpre]
      exact ⟨hoctet, rfl⟩

/-- An advert from an address of a common length. -/
theorem packetsReceived_sender_common :
    packetsReceived .inet 16 (List.replicate 16 0)
        [2, 0, 0xa5, 0xcc, 192, 168, 0, 10, 0, 0, 0, 0, 0, 0, 0, 0]
        (ascii "fs2protocol-0.13:1337:uid") =
      .ok [⟨ascii "192.168.0.10", ascii "1337", ascii "fs2protocol-0.13", ascii "uid"⟩] := by
  have hfields : (ascii "fs2protocol-0.13:1337:uid").splitOn colon =
    [ascii "fs2protocol-0.13", ascii "1337", ascii "uid"] := by decide
  have hcString : cString (ascii "fs2protocol-0.13:1337:uid") =
      ascii "fs2protocol-0.13:1337:uid" := by decide
  have hadvert : advert (cString (ascii "fs2protocol-0.13:1337:uid")) =
      some (ascii "1337", ascii "fs2protocol-0.13", ascii "uid") := by
    rw [hcString, advert, hfields]
    decide
  exact (packetsReceived_sender_iff .inet 16
    [2, 0, 0xa5, 0xcc, 192, 168, 0, 10, 0, 0, 0, 0, 0, 0, 0, 0] _ _ _ _ rfl (by decide)
    hadvert).mpr (by decide) _ rfl

/-- An advert from an address of the longest form is not delivered. -/
theorem packetsReceived_longest_address :
    packetsReceived .inet 16 (List.replicate 16 0)
        [2, 0, 0xa5, 0xcc, 192, 168, 100, 100, 0, 0, 0, 0, 0, 0, 0, 0]
        (ascii "fs2protocol-0.13:1337:uid") ≠
      .ok [⟨ascii "192.168.100.100", ascii "1337", ascii "fs2protocol-0.13", ascii "uid"⟩] := by
  decide +kernel

end Fsfuse.Native.IndexnodesListener
