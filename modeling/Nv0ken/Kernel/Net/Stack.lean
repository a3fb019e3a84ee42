/-
Sending and receiving packets, `kernel/net/ethernet.c`, `arp.c`, `ipv4.c`, `icmp.c` and `udp.c`.

A packet is the list of its bytes.  The fields of a header are stored as the machine stores them,
least significant byte first (`field16`, `field32`), so a field is in network order where the code
passes it through `net_htons`, and the addresses, which the stack never converts, stand in packets
as they stand in memory.

What leaves the machine is the list `wire` of the frames that have been handed to the driver.  The
handlers bound to UDP ports are opaque values of a type `H`, and receiving a frame gives the list of
the calls it makes to them.  `kmalloc` is told which sizes it has memory for.
-/
import Nv0ken.Kernel.Net.Checksum
import Nv0ken.Lib.Wire

namespace Nv0ken.Net

open Wire

/-- The sizes there is memory for. -/
abbrev Mem := Nat → Bool

def ethertypeIpv4 : UInt16 := 0x0800

def ethertypeArp : UInt16 := 0x0806

def ipv4ProtoIcmp : UInt8 := 1

def ipv4ProtoUdp : UInt8 := 17

def arpTableSize : Nat := 32

def udpMaxPorts : Nat := 16

/-- A hardware address. -/
structure Mac where
  bytes : List UInt8
  size_eq : bytes.length = 6
  deriving DecidableEq

structure ArpEntry where
  ipv4 : UInt32
  mac : Mac
  valid : Bool
  deriving DecidableEq

structure UdpBinding (H : Type) where
  port : UInt16
  handler : Option H
  deriving DecidableEq

/-- A device; `send` is what the driver answers for a frame. -/
structure Netdev where
  mac : Mac
  ipv4Addr : UInt32
  send : List UInt8 → Int

/-- The variables of the stack, and the frames handed to the driver so far. -/
structure Stack (H : Type) where
  nextId : UInt16
  arp : List ArpEntry
  bindings : List (UdpBinding H)
  wire : List (List UInt8)

variable {H : Type}

/-! ### Fields -/

def netHtons (value : UInt16) : UInt16 := value <<< 8 ||| value >>> 8

def field16 (value : UInt16) : List UInt8 := leBytes 2 value.toNat

def field32 (value : UInt32) : List UInt8 := leBytes 4 value.toNat

/-- The 16-bit field at an offset. -/
def read16 (bytes : List UInt8) (off : Nat) : UInt16 :=
  UInt16.ofNat (leValue ((bytes.drop off).take 2))

/-- The 32-bit field at an offset. -/
def read32 (bytes : List UInt8) (off : Nat) : UInt32 :=
  UInt32.ofNat (leValue ((bytes.drop off).take 4))

/-! ### Hardware addresses -/

def noMac : Mac := ⟨List.replicate 6 0, rfl⟩

def arpInit : List ArpEntry :=
  List.replicate arpTableSize { ipv4 := 0, mac := noMac, valid := false }

/-- The slot is the first that holds the address or is free, and the first of all if there is
none. -/
def arpLearn (table : List ArpEntry) (ipv4 : UInt32) (mac : Mac) : List ArpEntry :=
  let slot := (table.findIdx? fun e => !e.valid || e.ipv4 == ipv4).getD 0
  table.set slot { ipv4 := ipv4, mac := mac, valid := true }

def arpLookup (table : List ArpEntry) (ipv4 : UInt32) : Option Mac :=
  (table.find? fun e => e.valid && e.ipv4 == ipv4).map (·.mac)

/-! ### Sending -/

def ethernetHeader (dst src : Mac) (type : UInt16) : List UInt8 :=
  dst.bytes ++ src.bytes ++ field16 (netHtons type)

def ethernetSend (mem : Mem) (dev : Netdev) (net : Stack H) (dst : Mac) (type : UInt16)
    (payload : List UInt8) : Stack H × Int :=
  if mem (14 + payload.length) then
    let frame := ethernetHeader dst dev.mac type ++ payload
    ({ net with wire := net.wire ++ [frame] }, dev.send frame)
  else (net, -1)

def ipv4Header (packetLen : Nat) (id : UInt16) (protocol : UInt8) (checksum : UInt16)
    (src dst : UInt32) : List UInt8 :=
  [0x45, 0] ++ field16 (netHtons (UInt16.ofNat packetLen)) ++ field16 (netHtons id) ++ field16 0 ++
    [64, protocol] ++ field16 checksum ++ field32 src ++ field32 dst

def ipv4Send (mem : Mem) (dev : Netdev) (net : Stack H) (dst : UInt32) (protocol : UInt8)
    (payload : List UInt8) : Stack H × Int :=
  let packetLen := 20 + payload.length
  if mem packetLen then
    let header := fun checksum => ipv4Header packetLen net.nextId protocol checksum dev.ipv4Addr dst
    let packet := header (netChecksum (header 0)) ++ payload
    let net := { net with nextId := net.nextId + 1 }
    match arpLookup net.arp dst with
    | some mac => ethernetSend mem dev net mac ethertypeIpv4 packet
    | none => (net, -1)
  else (net, -1)

def udpHeader (srcPort dstPort : UInt16) (datagramLen : Nat) (checksum : UInt16) : List UInt8 :=
  field16 (netHtons srcPort) ++ field16 (netHtons dstPort) ++
    field16 (netHtons (UInt16.ofNat datagramLen)) ++ field16 checksum

def udpSend (mem : Mem) (dev : Netdev) (net : Stack H) (dst : UInt32) (srcPort dstPort : UInt16)
    (payload : List UInt8) : Stack H × Int :=
  let datagramLen := 8 + payload.length
  if mem datagramLen then
    let datagram := fun checksum => udpHeader srcPort dstPort datagramLen checksum ++ payload
    let checksum := netChecksumPseudoIpv4 dev.ipv4Addr dst ipv4ProtoUdp (datagram 0)
    ipv4Send mem dev net dst ipv4ProtoUdp (datagram checksum)
  else (net, -1)

/-! ### Receiving -/

/-- The request with its type made that of a reply, and with a checksum. -/
def echoReply (request : List UInt8) (checksum : UInt16) : List UInt8 :=
  [0] ++ (request.drop 1).take 1 ++ field16 checksum ++ request.drop 4

def icmpReceive (mem : Mem) (dev : Netdev) (net : Stack H) (src : UInt32) (payload : List UInt8) :
    Stack H :=
  if payload.length < 8 then net
  else if payload.getD 0 0 ≠ 8 ∨ payload.getD 1 0 ≠ 0 then net
  else if 1500 < payload.length then net
  else
    let checksum := netChecksum (echoReply payload 0)
    (ipv4Send mem dev net src ipv4ProtoIcmp (echoReply payload checksum)).1

/-- The table before anything is bound. -/
def noBindings : List (UdpBinding H) := List.replicate udpMaxPorts { port := 0, handler := none }

def udpBind (bindings : List (UdpBinding H)) (port : UInt16) (handler : Option H) :
    List (UdpBinding H) :=
  match bindings.findIdx? fun b => b.port == 0 || b.port == port with
  | some index => bindings.set index { port := port, handler := handler }
  | none => bindings

/-- A call of a handler. -/
structure Call (H : Type) where
  handler : H
  src : UInt32
  srcPort : UInt16
  payload : List UInt8
  deriving DecidableEq

def udpReceive (bindings : List (UdpBinding H)) (src : UInt32) (payload : List UInt8) :
    List (Call H) :=
  if payload.length < 8 then []
  else
    let dstPort := netHtons (read16 payload 2)
    let data := payload.drop 8
    bindings.filterMap fun b =>
      if b.port = dstPort then
        b.handler.map fun handler =>
          { handler := handler, src := src, srcPort := netHtons (read16 payload 0),
            payload := data }
      else none

/-- `tcp_receive` only looks at the length, so a TCP segment has no effect. -/
def ipv4Receive (mem : Mem) (dev : Netdev) (net : Stack H) (packet : List UInt8) :
    Stack H × List (Call H) :=
  if packet.length < 20 then (net, [])
  else
    let ihl := ((packet.getD 0 0).toNat &&& 0x0F) * 4
    if ihl < 20 ∨ packet.length < ihl then (net, [])
    else
      let protocol := packet.getD 9 0
      let src := read32 packet 12
      let payload := packet.drop ihl
      if protocol = ipv4ProtoIcmp then (icmpReceive mem dev net src payload, [])
      else if protocol = ipv4ProtoUdp then (net, udpReceive net.bindings src payload)
      else (net, [])

/-- The addresses an ARP packet tells are those of its sender. -/
def arpReceive (net : Stack H) (packet : List UInt8) : Stack H :=
  if h : packet.length < 28 then net
  else
    let sha : Mac := ⟨(packet.drop 8).take 6, by rw [List.length_take, List.length_drop]; omega⟩
    { net with arp := arpLearn net.arp (read32 packet 14) sha }

def ethernetReceive (mem : Mem) (dev : Netdev) (net : Stack H) (frame : List UInt8) :
    Stack H × List (Call H) :=
  if frame.length < 14 then (net, [])
  else
    let type := netHtons (read16 frame 12)
    if type = ethertypeArp then (arpReceive net (frame.drop 14), [])
    else if type = ethertypeIpv4 then ipv4Receive mem dev net (frame.drop 14)
    else (net, [])

end Nv0ken.Net
