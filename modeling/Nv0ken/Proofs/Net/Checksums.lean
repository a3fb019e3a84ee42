/-
The checksums of the packets the stack sends.

`net_checksum` computes the right number, but the headers keep it as the machine keeps numbers, low
byte first, where every other 16-bit field goes through `net_htons`.  So a checksum is transmitted
with its bytes exchanged, and the sum over what is transmitted is right only where exchanging them
makes no difference to it, that is where `257` divides what the checksum is taken over:
`checksums_right_iff`.

In the sum over a datagram the addresses drop out of that condition.  The pseudo-header function
adds the halves of the addresses as numbers, so their bytes are exchanged as well.
-/
import Nv0ken.Proofs.Net.Checksum
import Nv0ken.Proofs.Net.Emission

namespace Nv0ken.Net

open Wire OnesSum

variable {H : Type}

/-! ### What makes the stack send -/

/-- A call that sends a packet or a datagram, or an echo request that has arrived. -/
inductive Send
  | packet (dst : UInt32) (protocol : UInt8) (payload : List UInt8)
  | datagram (dst : UInt32) (srcPort dstPort : UInt16) (payload : List UInt8)
  | echo (src : UInt32) (request : List UInt8)

def Send.payload : Send → List UInt8
  | .packet _ _ payload => payload
  | .datagram _ _ _ payload => payload
  | .echo _ request => request.drop 8

def perform (mem : Mem) (dev : Netdev) (net : Stack H) : Send → Stack H
  | .packet dst protocol payload => (ipv4Send mem dev net dst protocol payload).1
  | .datagram dst srcPort dstPort payload => (udpSend mem dev net dst srcPort dstPort payload).1
  | .echo src request => icmpReceive mem dev net src request

/-- The frames that are new on the wire. -/
def emitted (mem : Mem) (dev : Netdev) (net : Stack H) (s : Send) : List (List UInt8) :=
  (perform mem dev net s).wire.drop net.wire.length

/-! ### The checksums over transmitted bytes -/

/-- The addresses, a zero, the protocol and the length of the datagram, from the packet. -/
def pseudoHeader (packet : List UInt8) : List UInt8 :=
  (packet.drop 12).take 8 ++ [0, packet.getD 9 0] ++ (packet.drop 24).take 2

/-- What has to sum to all ones behind the header of a packet. -/
def RightBody (packet : List UInt8) : Send → Prop
  | .packet .. => True
  | .datagram .. => AllOnes (pseudoHeader packet ++ packet.drop 20)
  | .echo .. => AllOnes (packet.drop 20)

/-- The checksums in a frame are right. -/
def Right (frame : List UInt8) (s : Send) : Prop :=
  AllOnes ((frame.drop 14).take 20) ∧ RightBody (frame.drop 14) s

/-! ### When they are -/

def Send.dst : Send → UInt32
  | .packet dst _ _ => dst
  | .datagram dst _ _ _ => dst
  | .echo src _ => src

def Send.protocol : Send → UInt8
  | .packet _ protocol _ => protocol
  | .datagram .. => ipv4ProtoUdp
  | .echo .. => ipv4ProtoIcmp

/-- The length of what the packet carries. -/
def Send.length : Send → Nat
  | .packet _ _ payload => payload.length
  | .datagram _ _ _ payload => 8 + payload.length
  | .echo _ request => request.length

/-- Nothing stops the call before it has a packet to send. -/
def Send.Made (mem : Mem) : Send → Prop
  | .packet .. => True
  | .datagram _ _ _ payload => mem (8 + payload.length) = true
  | .echo _ request => 8 ≤ request.length ∧ request.getD 0 0 = 8 ∧ request.getD 1 0 = 0 ∧
    request.length ≤ 1500

def Emits (mem : Mem) (net : Stack H) (s : Send) : Prop :=
  s.Made mem ∧ Passes mem net s.dst s.length

/-- An address as it stands in packets. -/
def exchanged (addr : UInt32) : Nat := swap (addr.toNat % 65536) + swap (addr.toNat / 65536)

/-- The sum over a header, its checksum apart. -/
def headerSum (length : Nat) (id : UInt16) (protocol : UInt8) (src dst : UInt32) : Nat :=
  0x4500 + (20 + length) + id.toNat + (0x4000 + protocol.toNat) + exchanged src + exchanged dst

/-- The sum over what is behind the header, checksum and addresses apart. -/
def Send.bodySum : Send → Nat
  | .packet .. => 0
  | .datagram _ srcPort dstPort payload =>
    17 + (8 + payload.length) + srcPort.toNat + dstPort.toNat + (8 + payload.length) + total payload
  | .echo _ request => total (request.drop 4)

variable {mem : Mem} {dev : Netdev} {net : Stack H} {dst : UInt32} {protocol : UInt8}
  {srcPort dstPort : UInt16} {payload request bytes : List UInt8}

/-! ### Sums of fields -/

theorem total_field16 (v : UInt16) : total (field16 v) = swap v.toNat := by
  have hlt := v.toNat_lt
  show (UInt8.ofNat v.toNat).toNat * 256 + (UInt8.ofNat (v.toNat / 256)).toNat + 0 = _
  rw [UInt8.toNat_ofNat', UInt8.toNat_ofNat']
  unfold swap
  omega

theorem total_field16_netHtons (v : UInt16) : total (field16 (netHtons v)) = v.toNat := by
  rw [total_field16, netHtons_toNat, swap_swap v.toNat_lt]

theorem total_field32 (v : UInt32) : total (field32 v) = exchanged v := by
  have hlt := v.toNat_lt
  show (UInt8.ofNat v.toNat).toNat * 256 + (UInt8.ofNat (v.toNat / 256)).toNat +
    ((UInt8.ofNat (v.toNat / 256 / 256)).toNat * 256 +
      (UInt8.ofNat (v.toNat / 256 / 256 / 256)).toNat + 0) = _
  rw [UInt8.toNat_ofNat', UInt8.toNat_ofNat', UInt8.toNat_ofNat', UInt8.toNat_ofNat']
  unfold exchanged swap
  omega

theorem exchanged_mod (v : UInt32) : exchanged v % 65535 = 256 * halves v % 65535 := by
  unfold exchanged halves swap
  omega

/-! ### The header of a packet -/

theorem total_ipv4Header {length : Nat} (hlength : length ≤ 65000) (id : UInt16) (protocol : UInt8)
    (checksum : UInt16) (src dst : UInt32) :
    total (ipv4Header (20 + length) id protocol checksum src dst)
      = headerSum length id protocol src dst + swap checksum.toNat := by
  have hlen : (UInt16.ofNat (20 + length)).toNat = 20 + length := by
    exact Nat.mod_eq_of_lt (by omega)
  have hfirst : total [0x45, 0] = 0x4500 := by decide
  have hzero : total (field16 0) = 0 := by decide
  have hproto : total [64, protocol] = 0x4000 + protocol.toNat := by
    show 64 * 256 + protocol.toNat + 0 = _
    omega
  unfold ipv4Header headerSum
  repeat rw [total_append (by simp)]
  rw [hzero, total_field16_netHtons, total_field16_netHtons, total_field16, total_field32,
    total_field32]
  omega

/-- A checksum `c` that completes `b`, stored with its bytes exchanged. -/
theorem allOnes_exchanged_iff {b c : Nat} (hc : c < 65536) (hpos : 0 < b + c) (hdvd : 65535 ∣ b + c)
    (htotal : total bytes = b + swap c) : AllOnes bytes ↔ 257 ∣ b := by
  have hiff : 65535 ∣ 0 + b + swap c ↔ 257 ∣ b := @swapped_iff 0 b c 0 rfl (by rwa [Nat.zero_add])
  have hswap : 0 < b + swap c := by
    unfold swap
    omega
  rw [Nat.zero_add] at hiff
  rw [allOnes_iff, htotal, hiff]
  exact and_iff_right hswap

theorem header_right_iff (hlength : payload.length ≤ 65000) :
    AllOnes ((ipv4Packet dev net dst protocol payload).take 20)
      ↔ 257 ∣ headerSum payload.length net.nextId protocol dev.ipv4Addr dst := by
  have hopen : total (openHeader dev net dst protocol payload.length)
      = headerSum payload.length net.nextId protocol dev.ipv4Addr dst := by
    unfold openHeader
    rw [total_ipv4Header hlength]
    rfl
  have hlen : (openHeader dev net dst protocol payload.length).length ≤ 65535 := by
    simp [openHeader, ipv4Header]
  have hcompletes := netChecksum_completes hlen
  rw [hopen] at hcompletes
  refine allOnes_exchanged_iff (UInt16.toNat_lt _) hcompletes.1 hcompletes.2 ?_
  exact total_ipv4Header hlength ..

/-! ### Datagrams -/

theorem bodySum_datagram : (Send.datagram dst srcPort dstPort payload).bodySum
    = 17 + (8 + payload.length) + srcPort.toNat + dstPort.toNat + (8 + payload.length) +
      total payload := rfl

section

variable (hlength : payload.length ≤ 65000)
include hlength

theorem datagramLen_toNat : (UInt16.ofNat (8 + payload.length)).toNat = 8 + payload.length := by
  exact Nat.mod_eq_of_lt (by omega)

theorem total_udpHeader (checksum : UInt16) :
    total (udpHeader srcPort dstPort (8 + payload.length) checksum ++ payload)
      = srcPort.toNat + dstPort.toNat + (8 + payload.length) + swap checksum.toNat +
        total payload := by
  unfold udpHeader
  repeat rw [total_append (by simp)]
  rw [total_field16_netHtons, total_field16_netHtons, total_field16_netHtons, total_field16,
    datagramLen_toNat hlength]

/-- The sum a receiver checks: the addresses as they stand in the packet, and the exchanged
checksum. -/
theorem total_pseudoHeader :
    total (pseudoHeader (ipv4Packet dev net dst ipv4ProtoUdp
      (udpDatagram dev dst srcPort dstPort payload)) ++
        udpDatagram dev dst srcPort dstPort payload)
      = exchanged dev.ipv4Addr + exchanged dst +
        (Send.datagram dst srcPort dstPort payload).bodySum +
        swap (netChecksumPseudoIpv4 dev.ipv4Addr dst ipv4ProtoUdp
          (openDatagram srcPort dstPort payload)).toNat := by
  have hproto : total [0, ipv4ProtoUdp] = 17 := by decide
  show total (field32 dev.ipv4Addr ++ field32 dst ++ [0, ipv4ProtoUdp] ++
    field16 (netHtons (UInt16.ofNat (8 + payload.length))) ++
      udpDatagram dev dst srcPort dstPort payload) = _
  unfold udpDatagram
  repeat rw [total_append (by simp)]
  rw [total_field32, total_field32, total_field16_netHtons, datagramLen_toNat hlength,
    total_udpHeader hlength, bodySum_datagram]
  omega

end

/-- The sum the code takes: the addresses as numbers. -/
theorem datagram_completes (hlength : payload.length ≤ 60000) :
    65535 ∣ halves dev.ipv4Addr + halves dst + (Send.datagram dst srcPort dstPort payload).bodySum +
      (netChecksumPseudoIpv4 dev.ipv4Addr dst ipv4ProtoUdp
        (openDatagram srcPort dstPort payload)).toNat := by
  have hlen : (openDatagram srcPort dstPort payload).length = 8 + payload.length := by
    rw [openDatagram, List.length_append]
    rfl
  have hcompletes := netChecksumPseudoIpv4_completes dev.ipv4Addr dst ipv4ProtoUdp
    (show (openDatagram srcPort dstPort payload).length ≤ 65000 by omega)
  have hopen : total (openDatagram srcPort dstPort payload)
      = srcPort.toNat + dstPort.toNat + (8 + payload.length) + 0 + total payload :=
    total_udpHeader (by omega) 0
  have hproto : ipv4ProtoUdp.toNat = 17 := rfl
  rw [bodySum_datagram]
  omega

theorem datagram_right_iff (hlength : payload.length ≤ 60000) :
    RightBody (ipv4Packet dev net dst ipv4ProtoUdp (udpDatagram dev dst srcPort dstPort payload))
        (.datagram dst srcPort dstPort payload)
      ↔ 257 ∣ (Send.datagram dst srcPort dstPort payload).bodySum := by
  have hsrc := exchanged_mod dev.ipv4Addr
  have hdst := exchanged_mod dst
  have haddr : (exchanged dev.ipv4Addr + exchanged dst) % 65535
      = 256 * (halves dev.ipv4Addr + halves dst) % 65535 := by omega
  have hpos : 0 < (Send.datagram dst srcPort dstPort payload).bodySum := by
    rw [bodySum_datagram]
    omega
  have hpseudo := @total_pseudoHeader H dev net dst srcPort dstPort payload (by omega)
  have hiff := swapped_iff haddr (@datagram_completes dev dst srcPort dstPort payload hlength)
  show AllOnes (_ ++ udpDatagram dev dst srcPort dstPort payload) ↔ _
  rw [allOnes_iff, hpseudo, hiff]
  exact and_iff_right (by omega)

/-! ### Echo replies -/

section

variable (hlength : 8 ≤ request.length) (hcode : request.getD 1 0 = 0)
include hlength hcode

theorem echoReply_eq (checksum : UInt16) :
    echoReply request checksum = [0, 0] ++ field16 checksum ++ request.drop 4 := by
  match request with
  | [] => simp at hlength
  | [_] => simp at hlength
  | type :: code :: rest =>
    have hzero : code = 0 := hcode
    rw [hzero]
    rfl

theorem echo_right_iff (hmax : request.length ≤ 1500) :
    RightBody (ipv4Packet dev net dst ipv4ProtoIcmp
      (echoReply request (netChecksum (echoReply request 0))))
        (.echo dst request)
      ↔ 257 ∣ (Send.echo dst request).bodySum := by
  have htotal : ∀ checksum, total (echoReply request checksum)
      = total (request.drop 4) + swap checksum.toNat := by
    intro checksum
    have hzero : total [0, 0] = 0 := rfl
    rw [echoReply_eq hlength hcode, total_append (by simp), total_append (by simp), total_field16]
    omega
  have hlen : (echoReply request 0).length ≤ 65535 := by
    rw [echoReply_eq hlength hcode]
    simp
    omega
  have hcompletes := netChecksum_completes hlen
  rw [htotal 0] at hcompletes
  exact allOnes_exchanged_iff (UInt16.toNat_lt _) hcompletes.1 hcompletes.2 (htotal _)

end

/-! ### Everything the stack sends -/

/-- What is handed to `ipv4_send`. -/
def Send.body (dev : Netdev) : Send → List UInt8
  | .packet _ _ payload => payload
  | .datagram dst srcPort dstPort payload => udpDatagram dev dst srcPort dstPort payload
  | .echo _ request => echoReply request (netChecksum (echoReply request 0))

section

variable {s : Send} (hmade : s.Made mem)
include hmade

theorem length_body : (s.body dev).length = s.length := by
  cases s with
  | packet dst protocol payload => rfl
  | datagram dst srcPort dstPort payload => exact length_udpDatagram
  | echo src request =>
    obtain ⟨hlen, -, hcode, -⟩ := hmade
    show (echoReply _ _).length = request.length
    rw [echoReply_eq hlen hcode]
    simp
    omega

theorem body_right_iff (hpayload : s.payload.length ≤ 1472) :
    RightBody (ipv4Packet dev net s.dst s.protocol (s.body dev)) s ↔ 257 ∣ s.bodySum := by
  cases s with
  | packet dst protocol payload => exact iff_of_true trivial (dvd_zero 257)
  | datagram dst srcPort dstPort payload =>
    have hlen : payload.length ≤ 1472 := hpayload
    exact datagram_right_iff (by omega)
  | echo src request =>
    obtain ⟨hlen, -, hcode, hmax⟩ := hmade
    exact echo_right_iff hlen hcode hmax

theorem length_le (hpayload : s.payload.length ≤ 1472) : s.length ≤ 1500 := by
  cases s with
  | packet dst protocol payload => exact Nat.le_trans hpayload (by omega)
  | datagram dst srcPort dstPort payload =>
    have hlen : payload.length ≤ 1472 := hpayload
    show 8 + payload.length ≤ 1500
    omega
  | echo src request => exact hmade.2.2.2

end

theorem perform_wire (mem : Mem) (dev : Netdev) (net : Stack H) (s : Send) :
    (s.Made mem → (perform mem dev net s).wire
      = (ipv4Send mem dev net s.dst s.protocol (s.body dev)).1.wire) ∧
    (¬ s.Made mem → (perform mem dev net s).wire = net.wire) := by
  cases s with
  | packet dst protocol payload => exact ⟨fun _ => rfl, fun h => absurd trivial h⟩
  | datagram dst srcPort dstPort payload =>
    exact ⟨fun h => udpSend_wire.trans (if_pos h), fun h => udpSend_wire.trans (if_neg h)⟩
  | echo src request =>
    unfold perform icmpReceive
    dsimp only
    constructor
    · rintro ⟨hlen, htype, hcode, hmax⟩
      rw [if_neg (by omega), htype, hcode, if_neg (by simp), if_neg (by omega)]
      rfl
    · intro hnot
      split_ifs with hshort hkind hlong
      · rfl
      · rfl
      · rfl
      · rw [not_or, not_not, not_not] at hkind
        exact absurd ⟨by omega, hkind.1, hkind.2, by omega⟩ hnot

theorem emitted_of_emits {s : Send} (h : Emits mem net s) :
    ∃ mac, emitted mem dev net s = [ipv4Frame dev net mac s.dst s.protocol (s.body dev)] := by
  have hpasses : Passes mem net s.dst (s.body dev).length := by
    rw [length_body h.1]
    exact h.2
  obtain ⟨mac, hwire⟩ := ipv4Send_wire.1 hpasses
  refine ⟨mac, ?_⟩
  unfold emitted
  rw [(perform_wire mem dev net s).1 h.1, hwire, List.drop_left]

theorem emitted_of_not_emits {s : Send} (h : ¬ Emits mem net s) : emitted mem dev net s = [] := by
  have hwire : (perform mem dev net s).wire = net.wire := by
    by_cases hmade : s.Made mem
    · rw [(perform_wire mem dev net s).1 hmade]
      apply ipv4Send_wire.2
      rw [length_body hmade]
      intro hpasses
      exact h ⟨hmade, hpasses⟩
    · exact (perform_wire mem dev net s).2 hmade
  unfold emitted
  rw [hwire, List.drop_length]

/-- **The checksums of what the stack sends are right exactly when `257` divides the sums they are
taken over.** -/
theorem checksums_right_iff (mem : Mem) (dev : Netdev) (net : Stack H) (s : Send)
    (hpayload : s.payload.length ≤ 1472) :
    (∀ frame ∈ emitted mem dev net s, Right frame s) ↔
      (Emits mem net s →
        257 ∣ headerSum s.length net.nextId s.protocol dev.ipv4Addr s.dst ∧ 257 ∣ s.bodySum) := by
  by_cases hemits : Emits mem net s
  · obtain ⟨mac, hframe⟩ := emitted_of_emits hemits
    have hlen : (s.body dev).length = s.length := length_body hemits.1
    have hmax := length_le hemits.1 hpayload
    have hheader := @header_right_iff H dev net s.dst s.protocol (s.body dev) (by omega)
    have hbody := @body_right_iff H mem dev net s hemits.1 hpayload
    rw [hframe, List.forall_mem_singleton, Right, drop_ipv4Frame, hheader, hbody, hlen]
    exact ⟨fun h _ => h, fun h => h hemits⟩
  · rw [emitted_of_not_emits hemits]
    exact iff_of_true (List.forall_mem_nil _) (fun h => absurd h hemits)

/-- A device with address `10.0.0.1`, and memory for everything. -/
def sampleDev : Netdev := { mac := noMac, ipv4Addr := 0x0100000A, send := fun _ => 0 }

/-- A stack that knows the address of `10.0.0.2`. -/
def sampleStack (nextId : UInt16) : Stack Unit :=
  { nextId := nextId, arp := arpLearn arpInit 0x0200000A noMac, bindings := [], wire := [] }

theorem checksums_right_iff_datagram :
    (Send.datagram 0x0200000A 1000 2000 [7]).payload.length ≤ 1472 ∧
      ((∀ frame ∈
          emitted (fun _ => true) sampleDev (sampleStack 1) (.datagram 0x0200000A 1000 2000 [7]),
        Right frame (.datagram 0x0200000A 1000 2000 [7])) ↔
      (Emits (fun _ => true) (sampleStack 1) (.datagram 0x0200000A 1000 2000 [7]) →
        257 ∣ headerSum 9 1 17 0x0100000A 0x0200000A ∧
          257 ∣ (Send.datagram 0x0200000A 1000 2000 [7]).bodySum)) :=
  ⟨by decide, checksums_right_iff _ _ _ _ (by decide)⟩

/-- The first packet after start, empty and for another machine, is sent with a wrong checksum. -/
theorem first_packet_wrong :
    ∃ frame, emitted (fun _ => true) sampleDev (sampleStack 1) (.packet 0x0200000A 17 []) =
      [frame] ∧
      ¬ AllOnes ((frame.drop 14).take 20) :=
  ⟨_, rfl, by decide⟩

end Nv0ken.Net
