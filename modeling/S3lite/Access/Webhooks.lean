/-
  S3lite.Access.Webhooks — the filter on webhook addresses and IPv4 addresses written as IPv6
  (`::ffff:a.b.c.d`), which the system routes to the IPv4 address.

  - `mapped_allowed`: every such address is allowed.
  - `mapped_agrees_iff`: so it is allowed like the IPv4 address exactly if that one is in none of
    the refused ranges.
  - `mapped_loopback_is_allowed`: the loopback address is refused and its IPv6 form is not; and a
    webhook with that host is sent (`webhook_to_mapped`).
-/
import S3lite.S3.Events

namespace S3lite

/-- `to_ipv6_mapped` -/
def Ipv4Addr.toIpv6Mapped (ip : Ipv4Addr) : Ipv6Addr :=
  ⟨0, 0, 0, 0, 0, 0xffff, ip.a.toUInt16 <<< 8 ||| ip.b.toUInt16, ip.c.toUInt16 <<< 8 ||| ip.d.toUInt16⟩

/-- The address is outside every refused range; loopback addresses are if they are allowed. -/
def Ipv4Addr.Reachable (ip : Ipv4Addr) (allowLoopback : Bool) : Prop :=
  (ip.isLoopback = true → allowLoopback = true) ∧ ip.isUnspecified = false ∧ ip.isMulticast = false ∧
    ip.isPrivate = false ∧ ip.isLinkLocal = false ∧ ip.a ≠ 100

theorem ipAllowed_v4 (ip : Ipv4Addr) (allowLoopback : Bool) : ipAllowed (.v4 ip) allowLoopback =
    if ip.isLoopback then allowLoopback
    else if ip.isUnspecified || ip.isMulticast then false
    else !(ip.isPrivate || ip.isLinkLocal || ip.a == 100) := rfl

theorem ipAllowed_v6 (ip : Ipv6Addr) (allowLoopback : Bool) : ipAllowed (.v6 ip) allowLoopback =
    if ip.isLoopback then allowLoopback
    else if ip.isUnspecified || ip.isMulticast then false
    else !(ip.s0 &&& 0xfe00 == 0xfc00 || ip.s0 &&& 0xffc0 == 0xfe80) := rfl

/-- An IPv6 form is none of what the filter looks for in an IPv6 address. -/
theorem mapped_allowed (ip : Ipv4Addr) (allowLoopback : Bool) : ipAllowed (.v6 ip.toIpv6Mapped) allowLoopback = true := by
  have hfirst : ip.toIpv6Mapped.s0 = 0 := rfl
  have hloopback : ip.toIpv6Mapped.isLoopback = false := by
    simp [Ipv6Addr.isLoopback, Ipv4Addr.toIpv6Mapped]
  have hunspecified : ip.toIpv6Mapped.isUnspecified = false := by
    simp [Ipv6Addr.isUnspecified, Ipv4Addr.toIpv6Mapped]
  have hmulticast : ip.toIpv6Mapped.isMulticast = false := by
    rw [Ipv6Addr.isMulticast, hfirst]
    decide
  have hprefixes : ((0 : UInt16) &&& 0xfe00 == 0xfc00 || (0 : UInt16) &&& 0xffc0 == 0xfe80) = false := by decide
  rw [ipAllowed_v6, hloopback, hunspecified, hmulticast, hfirst, hprefixes]
  rfl

/-- A loopback address is in no other refused range. -/
theorem loopback_only {ip : Ipv4Addr} (h : ip.isLoopback = true) :
    ip.isUnspecified = false ∧ ip.isMulticast = false ∧ ip.isPrivate = false ∧ ip.isLinkLocal = false ∧ ip.a ≠ 100 := by
  have ha : ip.a = 127 := by simpa [Ipv4Addr.isLoopback] using h
  refine ⟨?_, ?_, ?_, ?_, ?_⟩
  · simp [Ipv4Addr.isUnspecified, ha]
  · simp only [Ipv4Addr.isMulticast, ha]
    decide
  · simp [Ipv4Addr.isPrivate, ha]
  · simp [Ipv4Addr.isLinkLocal, ha]
  · rw [ha]
    decide

theorem ipv4_allowed_iff (ip : Ipv4Addr) (allowLoopback : Bool) :
    ipAllowed (.v4 ip) allowLoopback = true ↔ ip.Reachable allowLoopback := by
  rw [ipAllowed_v4, Ipv4Addr.Reachable]
  by_cases h : ip.isLoopback = true
  · simp [h, loopback_only h]
  · rw [if_neg h]
    cases hu : ip.isUnspecified <;> cases hm : ip.isMulticast <;> cases hp : ip.isPrivate <;> cases hl : ip.isLinkLocal <;>
      simp [h]

/-- The same answer for both forms, and no refused address allowed in its IPv6 form: each
    exactly if the IPv4 address is in no refused range. -/
theorem mapped_agrees_iff (ip : Ipv4Addr) (allowLoopback : Bool) :
    (ipAllowed (.v6 ip.toIpv6Mapped) allowLoopback = ipAllowed (.v4 ip) allowLoopback ↔ ip.Reachable allowLoopback) ∧
      ((ipAllowed (.v4 ip) allowLoopback = false → ipAllowed (.v6 ip.toIpv6Mapped) allowLoopback = false) ↔
        ip.Reachable allowLoopback) := by
  rw [mapped_allowed, ← ipv4_allowed_iff]
  cases ipAllowed (.v4 ip) allowLoopback <;> simp

theorem mapped_loopback_is_allowed : ¬ ∀ ip : Ipv4Addr, ∀ allowLoopback,
    ipAllowed (.v6 ip.toIpv6Mapped) allowLoopback = ipAllowed (.v4 ip) allowLoopback := by
  intro hall
  have h := hall ⟨127, 0, 0, 1⟩ false
  revert h
  decide

/-- A webhook whose host resolves to the IPv6 forms of IPv4 addresses is sent, whichever they are. -/
theorem webhook_to_mapped {net : Resolver} {url host : Str} {parsed : ParsedUrl} {ips : List Ipv4Addr}
    (hparse : net.parseUrl url = some parsed) (hscheme : parsed.scheme = str "http" ∨ parsed.scheme = str "https")
    (hhost : parsed.host = some host)
    (hlookup : net.lookupHost host (parsed.port.getD 80) = some (ips.map fun ip => .v6 ip.toIpv6Mapped)) (allowLoopback : Bool) :
    ssrfSafe net url allowLoopback = true := by
  have hs : ¬ (parsed.scheme ≠ str "http" ∧ parsed.scheme ≠ str "https") := by tauto
  rw [ssrfSafe, hparse]
  dsimp only
  rw [if_neg hs, hhost]
  dsimp only
  rw [hlookup]
  simp [mapped_allowed]

end S3lite
