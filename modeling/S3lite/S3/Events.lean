/-
  S3lite.S3.Events — where a webhook may be sent (src/s3/events.rs): the addresses that
  `ip_allowed` lets through, and `ssrf_safe`, which resolves a URL and checks them all.

  The predicates on addresses are those of the Rust standard library.
-/
import S3lite.Storage.Manifest

namespace S3lite

/-! ## Addresses -/

structure Ipv4Addr where
  a : UInt8
  b : UInt8
  c : UInt8
  d : UInt8
  deriving DecidableEq

namespace Ipv4Addr

variable (ip : Ipv4Addr)

def isLoopback : Bool := ip.a == 127

def isUnspecified : Bool := ip.a == 0 && ip.b == 0 && ip.c == 0 && ip.d == 0

def isMulticast : Bool := 224 ≤ ip.a && ip.a ≤ 239

def isPrivate : Bool :=
  ip.a == 10 || (ip.a == 172 && (16 ≤ ip.b && ip.b ≤ 31)) || (ip.a == 192 && ip.b == 168)

def isLinkLocal : Bool := ip.a == 169 && ip.b == 254

end Ipv4Addr

/-- The eight segments. -/
structure Ipv6Addr where
  s0 : UInt16
  s1 : UInt16
  s2 : UInt16
  s3 : UInt16
  s4 : UInt16
  s5 : UInt16
  s6 : UInt16
  s7 : UInt16
  deriving DecidableEq

namespace Ipv6Addr

variable (ip : Ipv6Addr)

def isLoopback : Bool := ip == ⟨0, 0, 0, 0, 0, 0, 0, 1⟩

def isUnspecified : Bool := ip == ⟨0, 0, 0, 0, 0, 0, 0, 0⟩

def isMulticast : Bool := ip.s0 &&& 0xff00 == 0xff00

end Ipv6Addr

inductive IpAddr where
  | v4 (ip : Ipv4Addr)
  | v6 (ip : Ipv6Addr)
  deriving DecidableEq

namespace IpAddr

def isLoopback : IpAddr → Bool
  | v4 ip => ip.isLoopback
  | v6 ip => ip.isLoopback

def isUnspecified : IpAddr → Bool
  | v4 ip => ip.isUnspecified
  | v6 ip => ip.isUnspecified

def isMulticast : IpAddr → Bool
  | v4 ip => ip.isMulticast
  | v6 ip => ip.isMulticast

end IpAddr

/-! ## The filter -/

def ipAllowed (ip : IpAddr) (allowLoopback : Bool) : Bool :=
  if ip.isLoopback then allowLoopback
  else if ip.isUnspecified || ip.isMulticast then false
  else match ip with
    -- RFC 1918 private, link-local, CGNAT
    | .v4 v4 => !(v4.isPrivate || v4.isLinkLocal || v4.a == 100)
    -- unique-local fc00::/7 and link-local fe80::/10
    | .v6 v6 => !(v6.s0 &&& 0xfe00 == 0xfc00 || v6.s0 &&& 0xffc0 == 0xfe80)

/-- What `url::Url::parse` reads of a URL. -/
structure ParsedUrl where
  scheme : Str
  host : Option Str
  /-- `port_or_known_default` -/
  port : Option Nat

/-- The URL parser and the system's resolver. -/
structure Resolver where
  parseUrl : Str → Option ParsedUrl
  lookupHost : Str → Nat → Option (List IpAddr)

def ssrfSafe (net : Resolver) (url : Str) (allowLoopback : Bool) : Bool :=
  match net.parseUrl url with
  | none => false
  | some parsed =>
    if parsed.scheme ≠ str "http" ∧ parsed.scheme ≠ str "https" then false
    else match parsed.host with
      | none => false
      | some host =>
        match net.lookupHost host (parsed.port.getD 80) with
        | none => false
        | some addrs => addrs.all fun ip => ipAllowed ip allowLoopback

end S3lite
