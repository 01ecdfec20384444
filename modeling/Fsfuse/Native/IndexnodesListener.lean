import Fsfuse.Native.Indexnodes
import Fsfuse.Native.Inet

/-!
# Indexnode listener

`src/indexnodes/indexnodes_listener_thread.c`: what becomes of a datagram received on
the advert port. A pointer into the text of the datagram is the text still ahead of it,
or `none` once it is past the terminator.
-/

namespace Fsfuse.Native.IndexnodesListener

/-- The separator of the fields of an advert. -/
def colon : UInt8 := 58

/-- `get_next_field`. The pointer it leaves behind a field that the terminator ends is
    past the end of the text, and must not be read. -/
def getNextField : Option (List UInt8) → Except Fault (List UInt8 × Option (List UInt8))
  | none => .error .outOfBounds
  | some buf => .ok (buf.takeWhile (· ≠ colon), (buf.dropWhile (· ≠ colon)).tail?)

/-- `parse_advert_packet`: the port, the protocol and the id, or `none` where it returns
    1. -/
def parseAdvertPacket (buf : List UInt8) :
    Except Fault (Option (List UInt8 × List UInt8 × List UInt8)) := do
  let (fs2protocol, buf) ← getNextField (some buf)
  let (portOrAuto, buf) ← getNextField buf
  -- clients that could become indexnodes, which are no business of ours
  if portOrAuto = ascii "autoindexnode" then
    return none
  let (id, _) ← getNextField buf
  return some (portOrAuto, fs2protocol, id)

/-- The size of `receive_advert`'s buffer, less the terminator. -/
def bufSize : Nat := 1023

/-- `receive_advert`. The datagram is `none` when `recvfrom` fails; `host` is what
    `inet_ntop` makes of the sender's address, if it fits. -/
def receiveAdvert (ins : Indexnodes) (now : Int) (host datagram : Option (List UInt8)) :
    Except Fault Indexnodes :=
  match datagram with
  | none => .ok ins
  | some datagram =>
    if datagram.length ≤ bufSize then do
      -- a NUL inside the datagram ends the text
      match ← parseAdvertPacket (cString datagram), host with
      | some (port, fs2protocol, id), some host =>
        ins.newIndexnodeEvent now host port fs2protocol id
      | _, _ => return ins
    -- the length is that of the whole datagram, however much of it was read
    else .error .assertion

/-! ### The sender of an advert -/

/-- What `packet_received_cb` is called with. -/
structure Advert where
  host : List UInt8
  port : List UInt8
  fs2protocol : List UInt8
  id : List UInt8
deriving Repr, DecidableEq

/-- What `recvfrom` returns of a datagram: it takes the room it is told of for a signed number, and
    fails with `EINVAL` if that is negative. -/
def recvfromDatagram (socklen : UInt32) (datagram : List UInt8) : Option (List UInt8) :=
  if 2 ^ 31 ≤ socklen.toNat then none else some datagram

/-- `sa` after `recvfrom`, which is told that there is room for `socklen` bytes of the
    sender's address. -/
def recvfromSockaddr (socklen : UInt32) (sender sa : List UInt8) : List UInt8 :=
  sender.take socklen.toNat ++ sa.drop (min socklen.toNat sender.length)

/-- The host that `receive_advert` finds in `sa`, on the socket of either family. -/
def advertHost (domain : AddressFamily) (sa : List UInt8) : Option (List UInt8) :=
  -- the size of `host`, less one
  inetNtop .inet (sa.drop domain.offsetofAddr) (domain.addrstrlen - 1)

/-- `receive_advert`, as the event loop calls it for the socket of a family, by the calls of
    `packet_received_cb` that it makes for a datagram. `socklen` and `sa` are the
    indeterminate values of two uninitialised locals, and `sender` is the sender's address as
    a `struct sockaddr`. -/
def packetsReceived (domain : AddressFamily) (socklen : UInt32) (sa sender datagram : List UInt8) :
    Except Fault (List Advert) :=
  match recvfromDatagram socklen datagram with
  -- a warning is all that comes of a failure
  | none => .ok []
  | some datagram =>
    if datagram.length ≤ bufSize then
      -- `recvfrom` has set `socklen` to the size of the sender's address
      if sender.length = domain.sizeofSockaddr then do
        match ← parseAdvertPacket (cString datagram),
            advertHost domain (recvfromSockaddr socklen sender sa) with
        | some (port, fs2protocol, id), some host => return [⟨host, port, fs2protocol, id⟩]
        | _, _ => return []
      else .error .assertion
    else .error .assertion

end Fsfuse.Native.IndexnodesListener
