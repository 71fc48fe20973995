import Mathlib.Tactic.Common

/-!
# Destination vetting

Every answer of a lookup is judged before the first is dialled. An IPv6 address can stand for an
IPv4 destination in four standard forms, of which one is unwrapped.
-/

namespace WeirdVault.Relay.Ssrf

structure Ipv4Addr where
  a : UInt8
  b : UInt8
  c : UInt8
  d : UInt8
  deriving DecidableEq, Repr

structure Ipv6Addr where
  s0 : UInt16
  s1 : UInt16
  s2 : UInt16
  s3 : UInt16
  s4 : UInt16
  s5 : UInt16
  s6 : UInt16
  s7 : UInt16
  deriving DecidableEq, Repr

inductive IpAddr
  | v4 (ip : Ipv4Addr)
  | v6 (ip : Ipv6Addr)
  deriving DecidableEq, Repr

namespace Ipv4Addr

def isLoopback (ip : Ipv4Addr) : Bool := ip.a == 127

def isPrivate (ip : Ipv4Addr) : Bool :=
  ip.a == 10 || (ip.a == 172 && 16 ≤ ip.b && ip.b ≤ 31) || (ip.a == 192 && ip.b == 168)

def isLinkLocal (ip : Ipv4Addr) : Bool := ip.a == 169 && ip.b == 254

def isBroadcast (ip : Ipv4Addr) : Bool := ip == ⟨255,255,255,255⟩

def isMulticast (ip : Ipv4Addr) : Bool := 224 ≤ ip.a && ip.a ≤ 239

def isUnspecified (ip : Ipv4Addr) : Bool := ip == ⟨0,0,0,0⟩

def ofSegments (hi lo : UInt16) : Ipv4Addr :=
  ⟨(hi >>> 8).toUInt8,hi.toUInt8,(lo >>> 8).toUInt8,lo.toUInt8⟩

end Ipv4Addr

namespace Ipv6Addr

def isLoopback (ip : Ipv6Addr) : Bool := ip == ⟨0,0,0,0,0,0,0,1⟩

def isUnspecified (ip : Ipv6Addr) : Bool := ip == ⟨0,0,0,0,0,0,0,0⟩

def isMulticast (ip : Ipv6Addr) : Bool := (ip.s0 &&& 0xff00) == 0xff00

def toIpv4Mapped (ip : Ipv6Addr) : Option Ipv4Addr :=
  if ip.s0 = 0 ∧ ip.s1 = 0 ∧ ip.s2 = 0 ∧ ip.s3 = 0 ∧ ip.s4 = 0 ∧ ip.s5 = 0xffff then
    some (.ofSegments ip.s6 ip.s7)
  else none

end Ipv6Addr

def disallowedV4 (ip : Ipv4Addr) : Option String :=
  if ip.isLoopback then some "loopback"
  else if ip.isPrivate then some "RFC1918 private"
  else if ip.isLinkLocal then some "link-local"
  else if ip.isBroadcast then some "broadcast"
  else if ip.isMulticast then some "multicast"
  else if ip.isUnspecified then some "unspecified"
  else if ip.a == 100 && (ip.b &&& 0xc0) == 64 then some "CGNAT 100.64.0.0/10"
  else if ip.a == 0 then some "this-network 0.0.0.0/8"
  else if ip.a == 192 && ip.b == 0 && ip.c == 0 then some "IETF protocol assignments"
  else if ip.a == 198 && (ip.b == 18 || ip.b == 19) then some "benchmarking 198.18.0.0/15"
  else if 240 ≤ ip.a then some "reserved 240.0.0.0/4"
  else none

def disallowedV6 (ip : Ipv6Addr) : Option String :=
  match ip.toIpv4Mapped with
  | some v4 => disallowedV4 v4
  | none =>
    if ip.isLoopback then some "loopback"
    else if ip.isUnspecified then some "unspecified"
    else if ip.isMulticast then some "multicast"
    else if (ip.s0 &&& 0xfe00) == 0xfc00 then some "unique local fc00::/7"
    else if (ip.s0 &&& 0xffc0) == 0xfe80 then some "link-local fe80::/10"
    else none

/-- The endpoint of the clouds, and the one of AWS over IPv6. -/
def metadataV4 : Ipv4Addr := ⟨169,254,169,254⟩

def metadataV6 : Ipv6Addr := ⟨0xfd00,0x0ec2,0,0,0,0,0,0x254⟩

def isCloudMetadata : IpAddr → Bool
  | .v4 ip => ip == metadataV4
  | .v6 ip => ip == metadataV6 || ip.toIpv4Mapped == some metadataV4

def disallowed (ip : IpAddr) (allowPrivate : Bool) : Option String :=
  if isCloudMetadata ip then some "cloud metadata endpoint"
  else if allowPrivate then none
  else
    match ip with
    | .v4 v4 => disallowedV4 v4
    | .v6 v6 => disallowedV6 v6

structure SocketAddr where
  ip : IpAddr
  port : UInt16
  deriving DecidableEq, Repr

inductive VetError
  | resolve (host source : String)
  | noAddresses (host : String)
  | forbidden (ip : IpAddr) (reason : String)
  deriving DecidableEq, Repr

def firstForbidden (allowPrivate : Bool) : List SocketAddr → Option VetError
  | [] => none
  | addr :: addrs =>
    match disallowed addr.ip allowPrivate with
    | some reason => some (.forbidden addr.ip reason)
    | none => firstForbidden allowPrivate addrs

/-- `lookup` is what `lookup_host` answers. -/
def resolveAndVet (host : String) (allowPrivate : Bool)
    (lookup : Except String (List SocketAddr)) : Except VetError IpAddr :=
  match lookup with
  | .error source => .error (.resolve host source)
  | .ok [] => .error (.noAddresses host)
  | .ok (addr :: addrs) =>
    match firstForbidden allowPrivate (addr :: addrs) with
    | some e => .error e
    | none => .ok addr.ip

namespace Ipv6Addr

def compatible? (ip : Ipv6Addr) : Option Ipv4Addr :=
  if ip.s0 = 0 ∧ ip.s1 = 0 ∧ ip.s2 = 0 ∧ ip.s3 = 0 ∧ ip.s4 = 0 ∧ ip.s5 = 0 then
    some (.ofSegments ip.s6 ip.s7)
  else none

def nat64? (ip : Ipv6Addr) : Option Ipv4Addr :=
  if ip.s0 = 0x64 ∧ ip.s1 = 0xff9b ∧ ip.s2 = 0 ∧ ip.s3 = 0 ∧ ip.s4 = 0 ∧ ip.s5 = 0 then
    some (.ofSegments ip.s6 ip.s7)
  else none

def sixToFour? (ip : Ipv6Addr) : Option Ipv4Addr :=
  if ip.s0 = 0x2002 then some (.ofSegments ip.s1 ip.s2) else none

/-- The forms that the rules do not look into. -/
def translated (ip : Ipv6Addr) : List Ipv4Addr :=
  ip.compatible?.toList ++ ip.nat64?.toList ++ ip.sixToFour?.toList

def embedded (ip : Ipv6Addr) : List Ipv4Addr := ip.toIpv4Mapped.toList ++ ip.translated

end Ipv6Addr

def IpAddr.translated : IpAddr → List Ipv4Addr
  | .v4 _ => []
  | .v6 ip => ip.translated

def Internal : IpAddr → Prop
  | .v4 ip => (disallowedV4 ip).isSome
  | .v6 ip => (disallowedV6 ip).isSome ∨ ∃ v4 ∈ ip.embedded, (disallowedV4 v4).isSome

def Metadata : IpAddr → Prop
  | .v4 ip => ip = metadataV4
  | .v6 ip => ip = metadataV6 ∨ metadataV4 ∈ ip.embedded

/-- What a success promises. -/
structure Vetted (allowPrivate : Bool) (addrs : List SocketAddr) (ip : IpAddr) : Prop where
  answer : ∃ addr ∈ addrs, addr.ip = ip
  judged : ∀ addr ∈ addrs, disallowed addr.ip allowPrivate = none
  internal : allowPrivate = false → ∀ addr ∈ addrs, ¬ Internal addr.ip
  metadata : ∀ addr ∈ addrs, ¬ Metadata addr.ip

/-- A translated form of an address that is refused in its own. -/
def slipsPast (allowPrivate : Bool) (ip : IpAddr) : Prop :=
  ∃ v4 ∈ ip.translated, v4 = metadataV4 ∨ allowPrivate = false ∧ (disallowedV4 v4).isSome

theorem firstForbidden_eq_none {allowPrivate : Bool} {addrs : List SocketAddr} :
    firstForbidden allowPrivate addrs = none ↔
      ∀ addr ∈ addrs, disallowed addr.ip allowPrivate = none := by
  induction addrs with
  | nil => exact iff_of_true rfl (by simp)
  | cons addr addrs ih =>
    rw [firstForbidden,List.forall_mem_cons]
    cases hd : disallowed addr.ip allowPrivate with
    | none => simpa using ih
    | some reason => simp

theorem resolveAndVet_eq_ok {host : String} {allowPrivate : Bool} {addrs : List SocketAddr}
    {ip : IpAddr} : resolveAndVet host allowPrivate (.ok addrs) = .ok ip ↔
      addrs.head?.map SocketAddr.ip = some ip ∧
        ∀ addr ∈ addrs, disallowed addr.ip allowPrivate = none := by
  cases addrs with
  | nil => simp [resolveAndVet]
  | cons addr addrs =>
    rw [resolveAndVet,← firstForbidden_eq_none]
    cases firstForbidden allowPrivate (addr :: addrs) with
    | none => simp
    | some e => simp

theorem disallowed_eq_none {ip : IpAddr} {allowPrivate : Bool} :
    disallowed ip allowPrivate = none ↔ isCloudMetadata ip = false ∧
      (allowPrivate = false → disallowed ip false = none) := by
  cases hmeta : isCloudMetadata ip <;> cases allowPrivate <;> simp [disallowed,hmeta]

theorem disallowedV4_of_mapped {ip : Ipv6Addr} (h : disallowedV6 ip = none) {v4 : Ipv4Addr}
    (hmapped : v4 ∈ ip.toIpv4Mapped.toList) : disallowedV4 v4 = none := by
  have hsome : ip.toIpv4Mapped = some v4 := Option.mem_toList.mp hmapped
  simpa only [disallowedV6,hsome] using h

theorem metadata_iff {ip : IpAddr} (h : isCloudMetadata ip = false) :
    Metadata ip ↔ metadataV4 ∈ ip.translated := by
  cases ip with
  | v4 ip =>
    have hne : ip ≠ metadataV4 := by simpa [isCloudMetadata] using h
    exact iff_of_false hne (by simp [IpAddr.translated])
  | v6 ip =>
    simp only [isCloudMetadata,Bool.or_eq_false_iff,beq_eq_false_iff_ne] at h
    obtain ⟨hv6,hmapped⟩ := h
    have hnot : metadataV4 ∉ ip.toIpv4Mapped.toList := fun hm => hmapped (Option.mem_toList.mp hm)
    rw [Metadata,Ipv6Addr.embedded,List.mem_append,IpAddr.translated]
    simp [hv6,hnot]

theorem internal_iff {ip : IpAddr} (h : disallowed ip false = none) :
    Internal ip ↔ ∃ v4 ∈ ip.translated, (disallowedV4 v4).isSome := by
  have hmeta := (disallowed_eq_none.mp h).1
  cases ip with
  | v4 ip =>
    have hnone : disallowedV4 ip = none := by simpa [disallowed,hmeta] using h
    simp [Internal,IpAddr.translated,hnone]
  | v6 ip =>
    have hnone : disallowedV6 ip = none := by simpa [disallowed,hmeta] using h
    have hmapped : ∀ v4 ∈ ip.toIpv4Mapped.toList, ¬ (disallowedV4 v4).isSome := by
      intro v4 hv4
      rw [disallowedV4_of_mapped hnone hv4]
      exact Bool.false_ne_true
    simp only [Internal,IpAddr.translated,Ipv6Addr.embedded,List.mem_append,hnone]
    constructor
    · rintro (hsome | ⟨v4,hm | ht,hrefused⟩)
      · cases hsome
      · exact absurd hrefused (hmapped v4 hm)
      · exact ⟨v4,ht,hrefused⟩
    · rintro ⟨v4,ht,hrefused⟩
      exact Or.inr ⟨v4,Or.inr ht,hrefused⟩

theorem harmless_iff {ip : IpAddr} {allowPrivate : Bool} (h : disallowed ip allowPrivate = none) :
    ((allowPrivate = false → ¬ Internal ip) ∧ ¬ Metadata ip) ↔ ¬ slipsPast allowPrivate ip := by
  obtain ⟨hmeta,hrules⟩ := disallowed_eq_none.mp h
  rw [metadata_iff hmeta,slipsPast]
  constructor
  · rintro ⟨hinternal,hmetadata⟩ ⟨v4,hv4,rfl | ⟨hoff,hrefused⟩⟩
    · exact hmetadata hv4
    · exact hinternal hoff ((internal_iff (hrules hoff)).mpr ⟨v4,hv4,hrefused⟩)
  · intro hslips
    refine ⟨?_,?_⟩
    · intro hoff hinternal
      obtain ⟨v4,hv4,hrefused⟩ := (internal_iff (hrules hoff)).mp hinternal
      exact hslips ⟨v4,hv4,Or.inr ⟨hoff,hrefused⟩⟩
    · intro hm
      exact hslips ⟨metadataV4,hm,Or.inl rfl⟩

/-- A success means what it promises exactly when a refused answer is among the others, or none
slips past. -/
theorem vetted_iff (host : String) (allowPrivate : Bool) (addrs : List SocketAddr) :
    (∀ ip, resolveAndVet host allowPrivate (.ok addrs) = .ok ip → Vetted allowPrivate addrs ip) ↔
      (∃ addr ∈ addrs, (disallowed addr.ip allowPrivate).isSome) ∨
        ∀ addr ∈ addrs, ¬ slipsPast allowPrivate addr.ip := by
  constructor
  · intro h
    by_cases hrefused : ∃ addr ∈ addrs, (disallowed addr.ip allowPrivate).isSome
    · exact Or.inl hrefused
    · have hpass : ∀ addr ∈ addrs, disallowed addr.ip allowPrivate = none := by
        intro addr haddr
        by_contra hne
        exact hrefused ⟨addr,haddr,Option.isSome_iff_ne_none.mpr hne⟩
      apply Or.inr
      intro addr haddr
      obtain ⟨first,hfirst⟩ : ∃ first, addrs.head? = some first := by
        cases addrs with
        | nil => cases haddr
        | cons first rest => exact ⟨first,rfl⟩
      have hvetted := h first.ip (resolveAndVet_eq_ok.mpr ⟨by rw [hfirst]; rfl,hpass⟩)
      rw [← harmless_iff (hpass addr haddr)]
      exact ⟨fun hoff => hvetted.internal hoff addr haddr,hvetted.metadata addr haddr⟩
  · intro h ip hok
    obtain ⟨hhead,hpass⟩ := resolveAndVet_eq_ok.mp hok
    have hslips : ∀ addr ∈ addrs, ¬ slipsPast allowPrivate addr.ip := by
      rcases h with ⟨addr,haddr,hsome⟩ | h
      · rw [hpass addr haddr] at hsome
        cases hsome
      · exact h
    have hharmless := fun addr haddr => (harmless_iff (hpass addr haddr)).mpr (hslips addr haddr)
    obtain ⟨first,hfirst,rfl⟩ := Option.map_eq_some_iff.mp hhead
    exact ⟨⟨first,List.mem_of_head? hfirst,rfl⟩,hpass,
      fun hoff addr haddr => (hharmless addr haddr).1 hoff,fun addr haddr => (hharmless addr haddr).2⟩

def translatedEndpoint : SocketAddr := ⟨.v6 ⟨0x64,0xff9b,0,0,0,0,0xa9fe,0xa9fe⟩,80⟩

theorem translated_metadata_dialled :
    Metadata translatedEndpoint.ip ∧ Internal translatedEndpoint.ip ∧ ∀ allowPrivate,
      resolveAndVet "metadata.example" allowPrivate (.ok [translatedEndpoint]) =
          .ok translatedEndpoint.ip ∧
        ¬ Vetted allowPrivate [translatedEndpoint] translatedEndpoint.ip := by
  have hmetadata : Metadata translatedEndpoint.ip := Or.inr (by decide)
  have hinternal : Internal translatedEndpoint.ip := Or.inr ⟨metadataV4,by decide,by decide⟩
  refine ⟨hmetadata,hinternal,?_⟩
  intro allowPrivate
  refine ⟨?_,fun h => h.metadata translatedEndpoint List.mem_cons_self hmetadata⟩
  cases allowPrivate <;> rfl

end WeirdVault.Relay.Ssrf
