import Fsfuse.Native.StringBuffer

/-!
# URLs

How the URLs that the fetcher asks for are made: the last part of `src/fetcher.c`, and
`proto_indexnode_make_url` of `src/indexnodes/proto_indexnode.c`. What libcurl makes of the
resource is a parameter.
-/

namespace Fsfuse.Native

/-- `strspn`. -/
def strspn (s accept : List UInt8) : Nat := (s.takeWhile (accept.contains ·)).length

/-- The text of a format with strings in the place of each `%s`. -/
def sprintf : List UInt8 → List CStr → List UInt8
  | 37 :: 115 :: fmt, arg :: args => arg.val ++ sprintf fmt args
  | c :: fmt, args => c :: sprintf fmt args
  | [], _ => []

/-- `is_ip4_address`. -/
def isIp4Address (s : CStr) : Bool := strspn s.val (ascii "0123456789.") = s.val.length

/-- `is_ip6_address`. -/
def isIp6Address (s : CStr) : Bool :=
  strspn s.val (ascii "0123456789abcdefABCDEF:") = s.val.length

/-- `fetcher_make_http_url`. -/
def fetcherMakeHttpUrl (host port path : CStr) : Except Fault CStr := do
  let sb ← StringBuffer.new
  if host.val = [] then throw .assertion
  if port.val = [] then throw .assertion
  let fmt :=
    if isIp4Address host || isIp6Address host then ascii "http://[%s]:%s/%s"
    else ascii "http://%s:%s/%s"
  let sb ← sb.printf (sprintf fmt [host, port, path])
  let url ← sb.commit
  return .ofBytes url

/-- `proto_indexnode_t`, as `proto_indexnode_init` lets it be. -/
structure ProtoIndexnode where
  host : CStr
  port : CStr
  host_ne : host.val ≠ []
  port_ne : port.val ≠ []

/-- `make_path`. -/
def makePath (fetcherEscapeForHttp : CStr → CStr) (pathPrefix resource : CStr) :
    Except Fault CStr := do
  let sb ← StringBuffer.new
  if pathPrefix.val = [] then throw .assertion
  let sb ← sb.printf (sprintf (ascii "%s/%s") [pathPrefix, fetcherEscapeForHttp resource])
  let path ← sb.commit
  return .ofBytes path

/-- `proto_indexnode_make_url`. -/
def protoIndexnodeMakeUrl (fetcherEscapeForHttp : CStr → CStr) (pin : ProtoIndexnode)
    (pathPrefix resource : CStr) : Except Fault CStr := do
  let path ← makePath fetcherEscapeForHttp pathPrefix resource
  fetcherMakeHttpUrl pin.host pin.port path

end Fsfuse.Native
