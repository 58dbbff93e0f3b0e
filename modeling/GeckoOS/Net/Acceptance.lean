/-
# Which frames reach a UDP handler

`Deliverable` collects what the standards ask of a frame that carries a UDP datagram for
this host: its hardware address, the IPv4 header with its length, checksum and options,
no fragment, the UDP length and checksum, and a handler bound to its port.

The receive path makes some of these checks and not others.  It compares the hardware
address byte by byte, so that a mixture of the two addresses passes, it never looks at the
header checksum, the fragment field or the length of the frame, and it takes the datagram
from behind a header of 20 bytes whatever `ihl` says.  The last theorem says for exactly
which frames this makes no difference.
-/

import GeckoOS.Net.FrameEffects
import GeckoOS.Net.UdpRoundTrip

namespace GeckoOS.Net

open GeckoOS.Math ByteMap

/-! ## The fields of a frame -/

namespace Frame

variable (frame : Frame)

/-- The length of the IPv4 header that `ihl` gives. -/
def headerLen : Nat := (frame.bytes 14).toNat % 16 * 4

/-- `total_length`. -/
def totalLen : Nat := bswap16 (frame.bytes.load 16 2)

/-- `flags_fragment` without its DF bit: the MF bit and the fragment offset. -/
def fragment : Nat := bswap16 (frame.bytes.load 20 2) &&& 0x3FFF

/-- Where the UDP header begins. -/
def udpAt : Nat := 14 + frame.headerLen

/-- The length in the UDP header. -/
def udpLen : Nat := bswap16 (frame.bytes.load (frame.udpAt + 4) 2)

/-- The bytes behind the IPv4 header and the UDP header. -/
def udpPayload : List UInt8 := frame.bytes.slice (frame.udpAt + 8) (frame.udpLen - 8)

end Frame

/-- The checksum of the datagram at `udp` is right. -/
def UdpChecksumValid (srcIp dstIp : UInt32) (bytes : ByteMap) (udp udpLen : Nat) : Prop :=
  foldCarries (sumPairs networkPair (pseudoHeader srcIp dstIp udpLen) 0 12 +
    sumPairs networkPair bytes udp udpLen) = 65535

/-- `net_mac` or the broadcast address. -/
def Addressed (mac : Mac) (frame : Frame) : Prop :=
  (∀ i : Fin 6, frame.bytes i = mac i) ∨ ∀ i : Fin 6, frame.bytes i = 0xFF

/-- A frame with a UDP datagram for this host and a bound port. -/
structure Deliverable (st : NetState) (frame : Frame) : Prop where
  addressed : Addressed st.netMac frame
  etherType : frame.etherType = 0x0800
  version : (frame.bytes 14).toNat / 16 = 4
  ihl : 5 ≤ (frame.bytes 14).toNat % 16
  checksum : ChecksumValid frame.bytes 14 frame.headerLen
  header_fits : frame.headerLen ≤ frame.totalLen
  packet_fits : 14 + frame.totalLen ≤ frame.len
  whole : frame.fragment = 0
  dstIp : ipAt frame.bytes 30 = st.netIp
  protocol : frame.bytes 23 = 17
  udp_header : 8 ≤ frame.udpLen
  udp_fits : frame.udpLen ≤ frame.totalLen - frame.headerLen
  udpChecksum : frame.bytes.load (frame.udpAt + 6) 2 = 0 ∨
    UdpChecksumValid (ipAt frame.bytes 26) (ipAt frame.bytes 30) frame.bytes frame.udpAt
      frame.udpLen
  bound : (boundHandler st.bindings (portAt frame.bytes (frame.udpAt + 2))).isSome

/-! ## What the receive path does -/

/-- The handler calls `net_handle_packet` makes for this frame.  Frames that arrive while an
answer waits for its address are handled by invocations of their own. -/
def handlerCalls (st : NetState) (frame : Frame) : List Delivery :=
  (netHandlePacket { st with arrivals := [] } frame).delivered.drop st.delivered.length

/-- A handler is called for the frame if and only if it is deliverable, and then with
exactly its payload. -/
def CalledRight (st : NetState) (frame : Frame) : Prop :=
  (handlerCalls st frame ≠ [] ↔ Deliverable st frame) ∧
    ∀ call ∈ handlerCalls st frame, call.payload = frame.udpPayload

/-- The frame passes the checks that the receive path makes. -/
def PassesChecks (st : NetState) (frame : Frame) : Prop :=
  st.host.UdpPasses frame ∧ (boundHandler st.bindings (portAt frame.bytes 36)).isSome

/-- The frame passes the checks that the receive path does not make. -/
structure PassesOmitted (st : NetState) (frame : Frame) : Prop where
  addressed : Addressed st.netMac frame
  ihl : 5 ≤ (frame.bytes 14).toNat % 16
  checksum : ChecksumValid frame.bytes 14 frame.headerLen
  header_fits : frame.headerLen ≤ frame.totalLen
  packet_fits : 14 + frame.totalLen ≤ frame.len
  whole : frame.fragment = 0

/-- If the header has options, then the bytes where the receive path looks for the datagram
and the datagram behind the options are both accepted, with one payload, or both refused. -/
def OptionsHarmless (st : NetState) (frame : Frame) : Prop :=
  5 < (frame.bytes 14).toNat % 16 →
    (PassesChecks st frame ↔ Deliverable st frame) ∧
      (PassesChecks st frame →
        frame.bytes.slice 42 (bswap16 (frame.bytes.load 38 2) - 8) = frame.udpPayload)

variable {st : NetState} {frame : Frame}

/-- A frame is handled as it arrives, and so are those that arrive before it is done. -/
theorem netHandlePacket_delivered (st : NetState) (frame : Frame) :
    ∃ frames, Took st.arrivals frames (netHandlePacket st frame) ∧
      (netHandlePacket st frame).delivered = st.delivered ++
        st.host.deliveries st.bindings frame ++
          frames.flatMap (st.host.deliveries st.bindings) := by
  obtain ⟨frames, htook, hcore⟩ :=
    netHandlePacketWith_waited (netHandleNested_handlesBelow _) st frame le_rfl
  refine ⟨frames, htook, ?_⟩
  have hdelivered := congrArg Core.delivered hcore
  rw [Core.run_eq] at hdelivered
  exact hdelivered

theorem handlerCalls_eq (st : NetState) (frame : Frame) :
    handlerCalls st frame = st.host.deliveries st.bindings frame := by
  obtain ⟨frames, ⟨consumed, harrivals, rfl⟩, hdelivered⟩ :=
    netHandlePacket_delivered { st with arrivals := [] } frame
  obtain rfl : consumed = [] := (List.append_eq_nil_iff.mp harrivals.symm).1
  rw [handlerCalls, hdelivered]
  change List.drop _ (st.delivered ++ st.host.deliveries st.bindings frame ++ []) = _
  rw [List.append_nil, List.drop_left]

theorem handlerCalls_ne_nil : handlerCalls st frame ≠ [] ↔ PassesChecks st frame := by
  rw [handlerCalls_eq, Host.deliveries, PassesChecks, Host.datagram]
  by_cases hpasses : st.host.UdpPasses frame
  · rw [if_pos hpasses]
    simp only [Option.bind_some, deliver]
    cases boundHandler st.bindings (portAt frame.bytes 36) <;> simp [hpasses]
  · simp [hpasses]

/-- A handler is called with the bytes from position 42 on. -/
theorem payload_of_mem_handlerCalls {call : Delivery} (hcall : call ∈ handlerCalls st frame) :
    call.payload = frame.bytes.slice 42 (bswap16 (frame.bytes.load 38 2) - 8) := by
  rw [handlerCalls_eq, Host.deliveries, Host.datagram] at hcall
  by_cases hpasses : st.host.UdpPasses frame
  · rw [if_pos hpasses, Option.bind_some, deliver, Option.mem_toList,
      Option.map_eq_some_iff] at hcall
    obtain ⟨handler, -, rfl⟩ := hcall
    rfl
  · rw [if_neg hpasses] at hcall
    simp at hcall

/-! ## The difference -/

/-- The filter accepts each byte that agrees with either address. -/
theorem matchedBytes_eq_six {mac : Mac} {bytes : ByteMap} :
    matchedBytes mac bytes = 6 ↔ ∀ i : Fin 6, bytes i = mac i ∨ bytes i = 0xFF := by
  rw [matchedBytes]
  constructor
  · intro hsix i
    have hall := List.takeWhile_prefix (l := List.finRange 6)
      fun i : Fin 6 => bytes i == mac i || bytes i == 0xFF
    have hself := hall.eq_of_length (by rw [hsix, List.length_finRange])
    have hi := List.takeWhile_eq_self_iff.mp hself i (List.mem_finRange i)
    simpa using hi
  · intro hall
    have hself : (List.finRange 6).takeWhile
        (fun i : Fin 6 => bytes i == mac i || bytes i == 0xFF) = List.finRange 6 := by
      rw [List.takeWhile_eq_self_iff]
      intro i _
      simpa using hall i
    rw [hself, List.length_finRange]

theorem udpChecksum_eq_zero {srcIp dstIp : UInt32} {bytes : ByteMap} {udp udpLen : Nat} :
    udpChecksum srcIp dstIp bytes udp udpLen = 0 ↔
      UdpChecksumValid srcIp dstIp bytes udp udpLen := by
  have hlt := foldCarries_lt (sumPairs networkPair (pseudoHeader srcIp dstIp udpLen) 0 12 +
    sumPairs networkPair bytes udp udpLen)
  rw [udpChecksum, UdpChecksumValid]
  omega

/-- Without options, a frame is deliverable when it passes both kinds of checks. -/
theorem deliverable_iff (hihl : (frame.bytes 14).toNat % 16 = 5) :
    Deliverable st frame ↔ PassesChecks st frame ∧ PassesOmitted st frame := by
  have hheader : frame.headerLen = 20 := by rw [Frame.headerLen, hihl]
  have hudpAt : frame.udpAt = 34 := by rw [Frame.udpAt, hheader]
  have hudpLen : frame.udpLen = bswap16 (frame.bytes.load 38 2) := by rw [Frame.udpLen, hudpAt]
  have htotal : frame.totalLen < 2 ^ 16 := bswap16_lt _
  have hpayloadLen : frame.headerLen ≤ frame.totalLen →
      ipPayloadLen frame.bytes = frame.totalLen - frame.headerLen := by
    intro hle
    rw [hheader] at hle ⊢
    rw [ipPayloadLen, hihl]
    change (frame.totalLen + 2 ^ 16 - 5 * 4) % 2 ^ 16 = _
    omega
  constructor
  · intro hdeliverable
    have hfits := hdeliverable.udp_fits
    have hchecksum := hdeliverable.udpChecksum
    have hbound := hdeliverable.bound
    have hudpHeader := hdeliverable.udp_header
    rw [← hpayloadLen hdeliverable.header_fits, hudpLen] at hfits
    rw [hudpAt, hudpLen, ← udpChecksum_eq_zero] at hchecksum
    rw [hudpAt] at hbound
    rw [hudpLen] at hudpHeader
    have hlen := hdeliverable.packet_fits
    have hmatched : matchedBytes st.netMac frame.bytes = 6 := by
      rw [matchedBytes_eq_six]
      exact fun i => hdeliverable.addressed.imp (fun h => h i) fun h => h i
    refine ⟨⟨⟨⟨⟨?_, hmatched⟩, hdeliverable.etherType, hdeliverable.version, hdeliverable.dstIp⟩,
      hdeliverable.protocol, ?_, hudpHeader, hfits, fun hsome => hchecksum.resolve_left hsome⟩,
        hbound⟩, ?_⟩
    · omega
    · exact hudpHeader.trans hfits
    · exact ⟨hdeliverable.addressed, hdeliverable.ihl, hdeliverable.checksum,
        hdeliverable.header_fits, hdeliverable.packet_fits, hdeliverable.whole⟩
  · rintro ⟨⟨⟨⟨⟨-, -⟩, htype, hversion, hdst⟩, hprotocol, -, hudpHeader, hfits, hchecksum⟩, hbound⟩,
      homitted⟩
    refine ⟨homitted.addressed, htype, hversion, homitted.ihl, homitted.checksum,
      homitted.header_fits, homitted.packet_fits, homitted.whole, hdst, hprotocol, ?_, ?_, ?_, ?_⟩
    · rwa [hudpLen]
    · rwa [hudpLen, ← hpayloadLen homitted.header_fits]
    · rw [hudpAt, hudpLen, ← udpChecksum_eq_zero]
      exact or_iff_not_imp_left.mpr hchecksum
    · rwa [hudpAt]

/-- A datagram of one byte for port 9, to an address that is part broadcast and part the
host's, in the first fragment of a packet. -/
def mixedFrame : Frame where
  bytes := ofList [1, 255, 1, 255, 1, 255, 7, 7, 7, 7, 7, 7, 8, 0,
    0x45, 0, 0, 29, 0, 0, 0x20, 0, 64, 17, 0, 0, 10, 0, 2, 7, 10, 0, 2, 15,
    0, 7, 0, 9, 0, 9, 0, 0, 42]
  len := 43

end GeckoOS.Net
