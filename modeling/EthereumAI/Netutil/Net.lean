import Mathlib
import EthereumAI.Common.Types

/-! # IP networks and subnet counters (`p2p/netutil/net.go`)

An IP is its bytes, four for IPv4 and sixteen for IPv6 as `net.IP` holds them.
`IsLAN` tests the loopback address and the private ranges of `lan4` and `lan6`;
`DistinctNetSet` counts IPs per subnet prefix, with at most `Limit` in each.
The map `members` is a function to counts, a key being present when its count
is not zero: `Add` never stores a zero and `Remove` deletes a key at one.
-/

namespace EthereumAI.Netutil

/-- `net.IP.To4`: the four bytes of an IPv4 address, also in its 16-byte form. -/
def To4 (ip : Bytes) : Option Bytes :=
  if ip.length = 4 then some ip
  else if ip.length = 16 ∧ ip.take 10 = List.replicate 10 0 ∧ ip.getD 10 0 = 0xff ∧ ip.getD 11 0 = 0xff then
    some (ip.drop 12)
  else none

/-- `net.IPv6loopback`, `::1`. -/
def IPv6loopback : Bytes := List.replicate 15 0 ++ [1]

/-- `net.IP.IsLoopback`. -/
def IsLoopback (ip : Bytes) : Bool :=
  match To4 ip with
  | some ip4 => ip4.getD 0 0 == 127
  | none => ip == IPv6loopback

/-- A `net.IPNet` as `net.ParseCIDR` returns it: the network number and its mask,
both of the address's length. -/
structure IPNet where
  IP : Bytes
  Mask : Bytes
deriving DecidableEq, Repr

/-- `net.IPNet.Contains`. -/
def IPNet.Contains (n : IPNet) (ip : Bytes) : Bool :=
  let ip := (To4 ip).getD ip
  ip.length == n.IP.length &&
    (List.range ip.length).all fun i =>
      n.IP.getD i 0 &&& n.Mask.getD i 0 == ip.getD i 0 &&& n.Mask.getD i 0

/-- `Netlist`. -/
abbrev Netlist := List IPNet

/-- `Netlist.Contains`. -/
def Netlist.Contains (l : Netlist) (ip : Bytes) : Bool := l.any fun n => n.Contains ip

/-- `lan4`: `0.0.0.0/8`, `10.0.0.0/8`, `172.16.0.0/12` and `192.168.0.0/16`. -/
def lan4 : Netlist :=
  [⟨[0, 0, 0, 0], [255, 0, 0, 0]⟩, ⟨[10, 0, 0, 0], [255, 0, 0, 0]⟩,
    ⟨[172, 16, 0, 0], [255, 240, 0, 0]⟩, ⟨[192, 168, 0, 0], [255, 255, 0, 0]⟩]

/-- `lan6`: `fe80::/10` and `fc00::/7`. -/
def lan6 : Netlist :=
  [⟨[0xfe, 0x80] ++ List.replicate 14 0, [0xff, 0xc0] ++ List.replicate 14 0⟩,
    ⟨[0xfc] ++ List.replicate 15 0, [0xfe] ++ List.replicate 15 0⟩]

/-- `IsLAN`. -/
def IsLAN (ip : Bytes) : Bool :=
  if IsLoopback ip then true
  else match To4 ip with
    | some v4 => lan4.Contains v4
    | none => lan6.Contains ip

/-- `DistinctNetSet`: at most `Limit` IPs in each subnet of `Subnet` prefix bits. -/
structure DistinctNetSet where
  Subnet : ℕ
  Limit : ℕ
  members : Bytes → ℕ

namespace DistinctNetSet

variable (s : DistinctNetSet)

/-- `DistinctNetSet.key`: the address type, `'4'` or `'6'`, then the prefix bytes, the last
one masked. -/
def key (ip : Bytes) : Bytes :=
  let (typ, ip) : UInt8 × Bytes := match To4 ip with
    | some ip4 => (0x34, ip4)
    | none => (0x36, ip)
  let bits := if s.Subnet > ip.length * 8 then ip.length * 8 else s.Subnet
  let nb := bits / 8
  let mask : UInt8 := ~~~((0xFF : UInt8) >>> (bits % 8).toUInt8)
  typ :: ip.take nb ++ (if nb < ip.length ∧ mask ≠ 0 then [ip.getD nb 0 &&& mask] else [])

/-- `DistinctNetSet.Add`. -/
def Add (ip : Bytes) : Bool × DistinctNetSet :=
  let key := s.key ip
  let n := s.members key
  if n < s.Limit then (true, { s with members := Function.update s.members key (n + 1) })
  else (false, s)

/-- `DistinctNetSet.Remove`. -/
def Remove (ip : Bytes) : DistinctNetSet :=
  let key := s.key ip
  if s.members key = 0 then s
  else if s.members key = 1 then { s with members := Function.update s.members key 0 }
  else { s with members := Function.update s.members key (s.members key - 1) }

@[simp] theorem key_Subnet_eq {s t : DistinctNetSet} (h : s.Subnet = t.Subnet) (ip : Bytes) :
    s.key ip = t.key ip := by
  unfold key
  rw [h]

@[simp] theorem Add_Subnet (ip : Bytes) : (s.Add ip).2.Subnet = s.Subnet := by
  unfold Add; dsimp only; split <;> rfl

@[simp] theorem Add_Limit (ip : Bytes) : (s.Add ip).2.Limit = s.Limit := by
  unfold Add; dsimp only; split <;> rfl

@[simp] theorem Remove_Subnet (ip : Bytes) : (s.Remove ip).Subnet = s.Subnet := by
  unfold Remove; dsimp only; split_ifs <;> rfl

@[simp] theorem Remove_Limit (ip : Bytes) : (s.Remove ip).Limit = s.Limit := by
  unfold Remove; dsimp only; split_ifs <;> rfl

end DistinctNetSet

end EthereumAI.Netutil
