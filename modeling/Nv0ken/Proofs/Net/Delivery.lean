/-
A datagram on its way back through the stack.

The receive path strips three headers, and takes what is left of the frame for the datagram.  It
reads neither the length in the IP header nor the one in the UDP header, so the bytes a link appends
to a short frame are delivered as well: a handler gets what was sent exactly when nothing was
appended (`datagram_delivered_iff`).

That the handler of the port is called once, and no other, rests on the table of bindings.
`udp_bind` takes the first slot that is free or holds the port, so a port stands in the table once,
and nothing stands behind a free slot (`Behind`).
-/
import Nv0ken.Proofs.Net.Emission

namespace Nv0ken.Net

open Wire List

variable {H : Type} {mem mem' : Mem} {dev dev' : Netdev} {net net' : Stack H} {src dst : UInt32}
  {port srcPort dstPort : UInt16} {payload padding frame : List UInt8} {b : UdpBinding H}
  {table : List (UdpBinding H)} {handler : H}

/-! ### The table of bindings -/

/-- `b` may stand behind `a`: it is an empty slot if `a` is free or holds the same port. -/
def Behind (a b : UdpBinding H) : Prop :=
  a.port = 0 ∨ a.port = b.port → b.port = 0 ∧ b.handler = none

theorem udpBind_cons (a : UdpBinding H) (table : List (UdpBinding H)) (port : UInt16)
    (handler : Option H) :
    udpBind (a :: table) port handler = if a.port = 0 ∨ a.port = port then
      { port := port, handler := handler } :: table else a :: udpBind table port handler := by
  unfold udpBind
  rw [findIdx?_cons]
  by_cases h : a.port = 0 ∨ a.port = port
  · have htest : (a.port == 0 || a.port == port) = true := by simpa using h
    rw [if_pos h, htest]
    rfl
  · have htest : (a.port == 0 || a.port == port) = false := by simpa using h
    rw [if_neg h, htest]
    cases table.findIdx? fun b => b.port == 0 || b.port == port <;> rfl

theorem mem_udpBind {handler : Option H} (h : b ∈ udpBind table port handler) :
    b ∈ table ∨ b = { port := port, handler := handler } := by
  unfold udpBind at h
  split at h
  · exact mem_or_eq_of_mem_set h
  · exact Or.inl h

theorem udpBind_behind (h : table.Pairwise Behind) (port : UInt16) (handler : Option H) :
    (udpBind table port handler).Pairwise Behind := by
  induction table with
  | nil => exact Pairwise.nil
  | cons a table ih =>
    rw [pairwise_cons] at h
    rw [udpBind_cons]
    by_cases htaken : a.port = 0 ∨ a.port = port
    · rw [if_pos htaken, pairwise_cons]
      refine ⟨?_, h.2⟩
      -- the slot held the port or was free, so what is behind it was allowed there before
      intro b hb hport
      refine h.1 b hb ?_
      rcases htaken with hfree | hsame
      · exact Or.inl hfree
      · rwa [hsame]
    · rw [if_neg htaken, pairwise_cons]
      refine ⟨?_, ih h.2⟩
      intro b hb
      rcases mem_udpBind hb with hold | hnew
      · exact h.1 b hold
      · intro hport
        rw [hnew] at hport
        exact absurd hport htaken

/-- The table after a run of calls of `udp_bind`. -/
def bindAll (binds : List (UInt16 × Option H)) : List (UdpBinding H) :=
  binds.foldl (fun table b => udpBind table b.1 b.2) noBindings

theorem bindAll_behind (binds : List (UInt16 × Option H)) : (bindAll binds).Pairwise Behind := by
  have hrun : ∀ (binds : List (UInt16 × Option H)) (table : List (UdpBinding H)),
      table.Pairwise Behind →
      (binds.foldl (fun table b => udpBind table b.1 b.2) table).Pairwise Behind := by
    intro binds
    induction binds with
    | nil =>
      intro table h
      exact h
    | cons bind binds ih =>
      intro table h
      exact ih _ (udpBind_behind h bind.1 bind.2)
  refine hrun binds noBindings ?_
  unfold noBindings
  rw [pairwise_replicate]
  exact Or.inr fun _ => ⟨rfl, rfl⟩

/-! ### The call -/

/-- Of a table in order, the one binding of the port is called. -/
theorem udpReceive_calls (htable : table.Pairwise Behind) (hb : b ∈ table)
    (hhandler : b.handler = some handler) (hlen : 8 ≤ payload.length)
    (hport : b.port = netHtons (read16 payload 2)) :
    udpReceive table src payload
      = [⟨handler, src, netHtons (read16 payload 0), payload.drop 8⟩] := by
  unfold udpReceive
  rw [if_neg (by omega)]
  rw [← hport]
  generalize netHtons (read16 payload 0) = srcPort
  induction table with
  | nil => exact absurd hb not_mem_nil
  | cons a table ih =>
    rw [pairwise_cons] at htable
    rcases mem_cons.mp hb with hhere | hbehind
    · have hrest : ∀ c ∈ table, (if c.port = b.port then c.handler.map fun handler =>
          Call.mk handler src srcPort (payload.drop 8) else none) = none := by
        intro c hc
        split
        · next hsame =>
            rw [(htable.1 c hc (Or.inr (by rw [← hhere, hsame]))).2]
            rfl
        · rfl
      rw [filterMap_cons, ← hhere, if_pos rfl, hhandler, filterMap_eq_nil_iff.mpr hrest]
      rfl
    · have hother : a.port ≠ b.port := by
        intro hsame
        have hempty := (htable.1 b hbehind (Or.inr hsame)).2
        rw [hempty] at hhandler
        exact absurd hhandler nofun
      rw [filterMap_cons, if_neg hother]
      exact ih htable.2 hbehind

/-! ### The way back -/

theorem ethernetReceive_frame (target source : Mac) (packet : List UInt8) :
    ethernetReceive mem dev net (ethernetHeader target source ethertypeIpv4 ++ packet)
      = ipv4Receive mem dev net packet := by
  have htype : read16 (ethernetHeader target source ethertypeIpv4 ++ packet) 12 =
      netHtons ethertypeIpv4 := by
    have hmacs : (target.bytes ++ source.bytes).length = 12 := by
      rw [length_append, target.size_eq, source.size_eq]
    unfold read16 ethernetHeader
    rw [append_assoc, drop_left' hmacs, take_left' (length_field16 _), ofNat_leValue_field16]
  unfold ethernetReceive
  rw [if_neg (by simp), htype, drop_left' (length_ethernetHeader ..)]
  rfl

theorem ipv4Receive_udp (body : List UInt8) (packetLen : Nat) (id checksum : UInt16) :
    ipv4Receive mem dev net (ipv4Header packetLen id ipv4ProtoUdp checksum src dst ++ body)
      = (net, udpReceive net.bindings src body) := by
  have hsrc : read32 (ipv4Header packetLen id ipv4ProtoUdp checksum src dst ++ body) 12 = src :=
    ofNat_leValue_field32 src
  have hlen : (ipv4Header packetLen id ipv4ProtoUdp checksum src dst ++ body).length =
      20 + body.length := by
    rw [length_append]
    rfl
  have hfirst : (ipv4Header packetLen id ipv4ProtoUdp checksum src dst ++ body).getD 0 0 = 0x45 :=
    rfl
  unfold ipv4Receive
  rw [hsrc, hlen, hfirst]
  rw [if_neg (by omega), if_neg (by simp)]
  rfl

theorem udpReceive_datagram {checksum : UInt16} {length : Nat} (htable : table.Pairwise Behind)
    (hb : b ∈ table) (hport : b.port = dstPort) (hhandler : b.handler = some handler) :
    udpReceive table src (udpHeader srcPort dstPort length checksum ++ payload)
      = [⟨handler, src, srcPort, payload⟩] := by
  have hdst : read16 (udpHeader srcPort dstPort length checksum ++ payload) 2 = netHtons dstPort :=
    ofNat_leValue_field16 (netHtons dstPort)
  have hsrc : read16 (udpHeader srcPort dstPort length checksum ++ payload) 0 = netHtons srcPort :=
    ofNat_leValue_field16 (netHtons srcPort)
  have hlen : 8 ≤ (udpHeader srcPort dstPort length checksum ++ payload).length := by
    rw [length_append]
    exact Nat.le_add_right 8 payload.length
  rw [udpReceive_calls htable hb hhandler hlen (by rw [hdst, netHtons_netHtons, hport]), hsrc,
    netHtons_netHtons]
  rfl

/-- The frames `udp_send` hands to the driver. -/
def udpFrames (mem : Mem) (dev : Netdev) (net : Stack H) (dst : UInt32) (srcPort dstPort : UInt16)
    (payload : List UInt8) : List (List UInt8) :=
  (udpSend mem dev net dst srcPort dstPort payload).1.wire.drop net.wire.length

theorem mem_udpFrames (h : frame ∈ udpFrames mem dev net dst srcPort dstPort payload) :
    ∃ mac, frame =
      ipv4Frame dev net mac dst ipv4ProtoUdp (udpDatagram dev dst srcPort dstPort payload) := by
  unfold udpFrames at h
  rw [udpSend_wire] at h
  by_cases hmem : mem (8 + payload.length) = true
  · rw [if_pos hmem] at h
    by_cases hpasses : Passes mem net dst (udpDatagram dev dst srcPort dstPort payload).length
    · obtain ⟨mac, hwire⟩ := ipv4Send_wire.1 hpasses
      rw [hwire, drop_left, mem_singleton] at h
      exact ⟨mac, h⟩
    · rw [ipv4Send_wire.2 hpasses, drop_length] at h
      exact absurd h not_mem_nil
  · rw [if_neg hmem, drop_length] at h
    exact absurd h not_mem_nil

/-- The handler of the port is called once, with the payload and whatever the link has appended. -/
theorem received_calls (hframe : frame ∈ udpFrames mem dev net dst srcPort dstPort payload)
    (htable : net'.bindings.Pairwise Behind) (hb : b ∈ net'.bindings) (hport : b.port = dstPort)
    (hhandler : b.handler = some handler) :
    (ethernetReceive mem' dev' net' (frame ++ padding)).2
      = [⟨handler, dev.ipv4Addr, srcPort, payload ++ padding⟩] := by
  obtain ⟨mac, rfl⟩ := mem_udpFrames hframe
  unfold ipv4Frame ipv4Packet udpDatagram
  rw [append_assoc, append_assoc, append_assoc, ethernetReceive_frame, ipv4Receive_udp]
  exact udpReceive_datagram htable hb hport hhandler

/-- That handler is called once, with these bytes, and no other. -/
def DeliveredTo (handler : H) (payload : List UInt8) (calls : List (Call H)) : Prop :=
  calls.map (fun c => (c.handler, c.payload)) = [(handler, payload)]

instance [DecidableEq H] (handler : H) (payload : List UInt8) (calls : List (Call H)) :
    Decidable (DeliveredTo handler payload calls) := inferInstanceAs (Decidable (_ = _))

/-- **A datagram is delivered as it was sent exactly when the link has appended nothing to the
frame.** -/
theorem datagram_delivered_iff (binds : List (UInt16 × Option H)) (net net' : Stack H)
    (mem mem' : Mem) (dev dev' : Netdev) (dst : UInt32) (srcPort dstPort : UInt16)
    (payload padding frame : List UInt8) (handler : H)
    (hframe : frame ∈ udpFrames mem dev net dst srcPort dstPort payload)
    (hbindings : net'.bindings = bindAll binds)
    (hbound : { port := dstPort, handler := some handler } ∈ net'.bindings) :
    DeliveredTo handler payload (ethernetReceive mem' dev' net' (frame ++ padding)).2 ↔
      padding = [] := by
  have htable : net'.bindings.Pairwise Behind := by
    rw [hbindings]
    exact bindAll_behind binds
  rw [received_calls hframe htable hbound rfl rfl]
  unfold DeliveredTo
  simp

/-- `10.0.0.2`, with a handler for port 2000; it knows its own address. -/
def echoHost : Stack Unit :=
  { nextId := 1, arp := arpLearn arpInit 0x0200000A noMac, bindings := bindAll [(2000, some ())],
    wire := [] }

def echoDev : Netdev := { mac := noMac, ipv4Addr := 0x0200000A, send := fun _ => 0 }

/-- The frame of the one byte `7`, for port 2000. -/
def sevenFrame : List UInt8 :=
  (udpFrames (fun _ => true) echoDev echoHost 0x0200000A 1000 2000 [7]).headD []

theorem datagram_delivered_iff_seven :
    sevenFrame ∈ udpFrames (fun _ => true) echoDev echoHost 0x0200000A 1000 2000 [7] ∧
      (DeliveredTo () [7] (ethernetReceive (fun _ => true) echoDev echoHost
        (sevenFrame ++ List.replicate 17 0)).2 ↔ List.replicate 17 (0 : UInt8) = []) :=
  ⟨by decide +kernel, datagram_delivered_iff [(2000, some ())] echoHost echoHost (fun _ => true)
    (fun _ => true)
    echoDev echoDev 0x0200000A 1000 2000 [7] (replicate 17 0) sevenFrame () (by decide +kernel) rfl
    (by decide +kernel)⟩

/-- Ethernet fills the 43 bytes of that frame up to 60, and the handler is called with 18 bytes. -/
theorem short_datagram_padded :
    sevenFrame.length = 43 ∧
      (ethernetReceive (fun _ => true) echoDev echoHost (sevenFrame ++ List.replicate 17 0)).2
        = [⟨(), 0x0200000A, 1000, 7 :: List.replicate 17 0⟩] ∧
      ¬ DeliveredTo () [7] (ethernetReceive (fun _ => true) echoDev echoHost
        (sevenFrame ++ List.replicate 17 0)).2 := by
  decide +kernel

end Nv0ken.Net
