/-
The frames the stack sends.

Every packet leaves through `ipv4_send`, which hands the driver one frame or none: one exactly when
there is memory for the packet and for the frame, and the hardware address of the destination is
known (`Passes`).  The frame is `ipv4Frame`: three headers' worth of fields and the bytes of the
payload, untouched.
-/
import Nv0ken.Kernel.Net.Stack
import Nv0ken.Lib.OnesSum

namespace Nv0ken.Net

open Wire OnesSum

variable {H : Type} {mem : Mem} {dev : Netdev} {net : Stack H} {dst : UInt32} {protocol : UInt8}
  {srcPort dstPort : UInt16} {payload : List UInt8}

/-! ### Fields -/

@[simp] theorem length_field16 (v : UInt16) : (field16 v).length = 2 := length_leBytes 2 _

@[simp] theorem length_field32 (v : UInt32) : (field32 v).length = 4 := length_leBytes 4 _

@[simp] theorem length_ethernetHeader (dst src : Mac) (type : UInt16) :
    (ethernetHeader dst src type).length = 14 := by
  unfold ethernetHeader
  rw [List.length_append, List.length_append, dst.size_eq, src.size_eq, length_field16]

theorem netHtons_toNat (v : UInt16) : (netHtons v).toNat = swap v.toNat := by
  have hlt := v.toNat_lt
  have hlow : (v <<< 8).toNat = 2 ^ 8 * (v.toNat % 256) := by
    rw [UInt16.toNat_shiftLeft, Nat.shiftLeft_eq]
    show v.toNat * 2 ^ 8 % 2 ^ 16 = _
    omega
  have hhigh : (v >>> 8).toNat = v.toNat / 256 := by
    rw [UInt16.toNat_shiftRight, Nat.shiftRight_eq_div_pow]
    rfl
  unfold netHtons swap
  rw [UInt16.toNat_or, hlow, ← Nat.two_pow_add_eq_or_of_lt (by omega)]
  omega

theorem swap_swap {w : Nat} (h : w < 65536) : swap (swap w) = w := by
  unfold swap
  omega

@[simp] theorem netHtons_netHtons (v : UInt16) : netHtons (netHtons v) = v := by
  apply UInt16.toNat_inj.mp
  rw [netHtons_toNat, netHtons_toNat, swap_swap v.toNat_lt]

theorem ofNat_leValue_field16 (v : UInt16) : UInt16.ofNat (leValue (field16 v)) = v := by
  have hlt : v.toNat < 256 ^ 2 := v.toNat_lt
  unfold field16
  rw [leValue_leBytes, Nat.mod_eq_of_lt hlt, UInt16.ofNat_toNat]

theorem ofNat_leValue_field32 (v : UInt32) : UInt32.ofNat (leValue (field32 v)) = v := by
  have hlt : v.toNat < 256 ^ 4 := v.toNat_lt
  unfold field32
  rw [leValue_leBytes, Nat.mod_eq_of_lt hlt, UInt32.ofNat_toNat]

/-! ### Packets -/

/-- A packet of that length to that address gets past `kmalloc` and the address table. -/
def Passes (mem : Mem) (net : Stack H) (dst : UInt32) (length : Nat) : Prop :=
  mem (20 + length) = true ∧ mem (14 + (20 + length)) = true ∧ (arpLookup net.arp dst).isSome

instance (mem : Mem) (net : Stack H) (dst : UInt32) (length : Nat) :
    Decidable (Passes mem net dst length) := inferInstanceAs (Decidable (_ ∧ _))

/-- The header of the next packet, with its checksum still zero. -/
def openHeader (dev : Netdev) (net : Stack H) (dst : UInt32) (protocol : UInt8) (length : Nat) :
    List UInt8 := ipv4Header (20 + length) net.nextId protocol 0 dev.ipv4Addr dst

/-- The packet `ipv4_send` makes. -/
def ipv4Packet (dev : Netdev) (net : Stack H) (dst : UInt32) (protocol : UInt8)
    (payload : List UInt8) : List UInt8 :=
  ipv4Header (20 + payload.length) net.nextId protocol
    (netChecksum (openHeader dev net dst protocol payload.length)) dev.ipv4Addr dst ++ payload

def ipv4Frame (dev : Netdev) (net : Stack H) (mac : Mac) (dst : UInt32) (protocol : UInt8)
    (payload : List UInt8) : List UInt8 :=
  ethernetHeader mac dev.mac ethertypeIpv4 ++ ipv4Packet dev net dst protocol payload

theorem length_ipv4Packet :
    (ipv4Packet dev net dst protocol payload).length = 20 + payload.length := by
  rw [ipv4Packet, List.length_append]
  rfl

theorem drop_ipv4Frame {mac : Mac} :
    (ipv4Frame dev net mac dst protocol payload).drop 14 =
      ipv4Packet dev net dst protocol payload := by
  rw [ipv4Frame, List.drop_left' (length_ethernetHeader ..)]

/-- **One frame or none.** -/
theorem ipv4Send_wire :
    (Passes mem net dst payload.length → ∃ mac, (ipv4Send mem dev net dst protocol payload).1.wire
      = net.wire ++ [ipv4Frame dev net mac dst protocol payload]) ∧
    (¬ Passes mem net dst payload.length → (ipv4Send mem dev net dst protocol payload).1.wire =
      net.wire) := by
  unfold ipv4Send Passes
  dsimp only
  by_cases hpacket : mem (20 + payload.length) = true
  · rw [if_pos hpacket]
    cases harp : arpLookup net.arp dst with
    | none => simp
    | some mac =>
      have hlen : (ipv4Packet dev net dst protocol payload).length = 20 + payload.length :=
        length_ipv4Packet
      have hsend : ∀ net' : Stack H, (ethernetSend mem dev net' mac ethertypeIpv4
          (ipv4Packet dev net dst protocol payload)).1.wire
          = if mem (14 + (20 + payload.length)) = true then
              net'.wire ++ [ipv4Frame dev net mac dst protocol payload] else net'.wire := by
        intro net'
        unfold ethernetSend
        rw [hlen]
        split <;> rfl
      refine ⟨fun h => ⟨mac, ?_⟩, fun h => ?_⟩
      · exact (hsend _).trans (if_pos h.2.1)
      · refine (hsend _).trans (if_neg ?_)
        intro hframe
        exact h ⟨hpacket, hframe, rfl⟩
  · rw [if_neg hpacket]
    simp [hpacket]

/-! ### Datagrams -/

/-- The datagram with its checksum still zero. -/
def openDatagram (srcPort dstPort : UInt16) (payload : List UInt8) : List UInt8 :=
  udpHeader srcPort dstPort (8 + payload.length) 0 ++ payload

/-- The datagram `udp_send` makes. -/
def udpDatagram (dev : Netdev) (dst : UInt32) (srcPort dstPort : UInt16) (payload : List UInt8) :
    List UInt8 :=
  udpHeader srcPort dstPort (8 + payload.length)
    (netChecksumPseudoIpv4 dev.ipv4Addr dst ipv4ProtoUdp (openDatagram srcPort dstPort payload)) ++
      payload

theorem length_udpDatagram :
    (udpDatagram dev dst srcPort dstPort payload).length = 8 + payload.length := by
  rw [udpDatagram, List.length_append]
  rfl

theorem udpSend_wire :
    (udpSend mem dev net dst srcPort dstPort payload).1.wire =
      if mem (8 + payload.length) = true then
      (ipv4Send mem dev net dst ipv4ProtoUdp (udpDatagram dev dst srcPort dstPort payload)).1.wire
      else net.wire := by
  unfold udpSend
  dsimp only
  split <;> rfl

end Nv0ken.Net
