/-
# The network stack

One received frame travels through `net_handle_packet`, `arp_handle` or
`ip_handle`, and from there through `icmp_handle` or `udp_handle`.  Frames leave
through `ip_send` and `net_send_frame`.  All packet buffers are static, so they
are part of the state, and so is what the device will still deliver: `ip_send`
receives and handles further frames while it waits for an address to resolve.

The handlers take a pointer into the frame and trust the length fields they find
there.  Each one therefore also records its accesses, as the reads of the frame
and the writes to a packet buffer, in the order of the source.  A frame handled
while another one is being answered is an invocation of its own, and its
accesses are not counted for the outer one.
-/

import Mathlib.Data.List.TakeWhile
import GeckoOS.Math.OnesComplement

namespace GeckoOS.Net

open GeckoOS.Math ByteMap

/-! ## Wire formats -/

/-- `__builtin_bswap16`. -/
def bswap16 (x : Nat) : Nat := x % 256 * 256 + x / 256 % 256

/-- `__builtin_bswap32`. -/
def bswap32 (x : Nat) : Nat := bswap16 x * 65536 + bswap16 (x / 65536)

/-- Six bytes of hardware address. -/
abbrev Mac := Fin 6 → UInt8

/-- The hardware address stored at `offset`. -/
def macAt (bytes : ByteMap) (offset : Nat) : Mac := fun i => bytes (offset + i)

/-- The bytes of a hardware address. -/
def macBytes (mac : Mac) : ByteMap := fun i => if h : i < 6 then mac ⟨i, h⟩ else 0

/-- `MAC_BROADCAST`. -/
def macBroadcast : Mac := fun _ => 0xFF

/-- An address field: bytes in network order. -/
def ipAt (bytes : ByteMap) (offset : Nat) : UInt32 := UInt32.ofNat (bswap32 (bytes.load offset 4))

/-- A port field. -/
def portAt (bytes : ByteMap) (offset : Nat) : UInt16 := UInt16.ofNat (bswap16 (bytes.load offset 2))

/-- A received frame.  The buffer it lies in goes on behind its `len` bytes. -/
structure Frame where
  bytes : ByteMap
  len : Nat

/-! ## State -/

/-- The static packet buffers the receive path writes. -/
inductive Buffer
  | icmpReply
  | ipTx
  | netTx
  | captureReply
  deriving DecidableEq

/-- The declared size of a buffer. -/
def Buffer.size : Buffer → Nat
  | icmpReply => 1024
  | ipTx => 1514
  | netTx => 2048
  | captureReply => 1472

/-- A read of the frame or a write to a buffer, at `count` bytes from `offset`. -/
inductive Access
  | read (offset count : Nat)
  | write (buffer : Buffer) (offset count : Nat)

/-- `arp_entry_t`. -/
structure ArpEntry where
  ip : UInt32
  mac : Mac
  valid : Bool

/-- A `udp_receive_handler_t`: the capture handler of `udp_request_start`, or a
handler some other code has bound. -/
inductive Handler
  | capture
  | application (id : Nat)
  deriving DecidableEq

/-- `udp_binding_t`; no handler is a null pointer. -/
structure Binding where
  port : UInt16
  handler : Option Handler

/-- One call of a bound handler. -/
structure Delivery where
  handler : Handler
  srcIp : UInt32
  srcPort : UInt16
  payload : List UInt8

/-- What the device does next: deliver a frame, or stay quiet for a timer tick. -/
inductive Arrival
  | frame (frame : Frame)
  | tick

/-- The static variables of the stack and its surroundings. -/
structure NetState where
  netIp : UInt32
  netGateway : UInt32
  netSubnet : UInt32
  netMac : Mac
  arpCache : List ArpEntry
  bindings : List Binding
  /-- `reply_buf` of `icmp_handle`. -/
  icmpReplyBuf : ByteMap
  /-- `tx_buf` of `ip_send`. -/
  ipTxBuf : ByteMap
  /-- `tx_buf` of `net_send_frame`. -/
  netTxBuf : ByteMap
  /-- `packet` of `udp_send`. -/
  udpPacket : ByteMap
  /-- `reply_received` of `icmp.c`. -/
  replyReceived : Bool
  /-- `s_reply_ready`. -/
  replyReady : Bool
  /-- `s_reply_src_ip`. -/
  replySrcIp : UInt32
  /-- `s_reply_src_port`. -/
  replySrcPort : UInt16
  /-- `s_reply_len`. -/
  replyLen : Nat
  /-- `s_reply_buf`. -/
  replyBuf : ByteMap
  /-- What `e1000_receive` and `timer_wait` will meet. -/
  arrivals : List Arrival
  /-- The frames passed to `e1000_send`. -/
  sent : List (List UInt8)
  /-- The handler calls made. -/
  delivered : List Delivery
  /-- The accesses made by the current invocation of the receive path. -/
  accesses : List Access

/-- The addresses `net_init` sets: 10.0.2.15, its gateway 10.0.2.2 and the subnet
mask, with the card's own hardware address, and the tables and buffers zeroed. -/
def NetState.init (mac : Mac) : NetState where
  netIp := 0x0A00020F
  netGateway := 0x0A000202
  netSubnet := 0xFFFFFF00
  netMac := mac
  arpCache := List.replicate 16 ⟨0, fun _ => 0, false⟩
  bindings := List.replicate 16 ⟨0, none⟩
  icmpReplyBuf := fun _ => 0
  ipTxBuf := fun _ => 0
  netTxBuf := fun _ => 0
  udpPacket := fun _ => 0
  replyReceived := false
  replyReady := false
  replySrcIp := 0
  replySrcPort := 0
  replyLen := 0
  replyBuf := fun _ => 0
  arrivals := []
  sent := []
  delivered := []
  accesses := []

/-- Record accesses. -/
def NetState.log (st : NetState) (made : List Access) : NetState :=
  { st with accesses := st.accesses ++ made }

/-- Replace the packet buffer of `ip_send`. -/
def NetState.setIpTx (st : NetState) (tx : ByteMap) : NetState := { st with ipTxBuf := tx }

/-- Replace the packet buffer of `udp_send`. -/
def NetState.setUdpPacket (st : NetState) (packet : ByteMap) : NetState :=
  { st with udpPacket := packet }

/-! ## `net.c`, sending -/

/-- The frame `net_send_frame` builds in its static buffer. -/
def ethFrame (tx : ByteMap) (dstMac srcMac : Mac) (etherType : Nat) (payload : ByteMap)
    (len : Nat) : ByteMap :=
  let tx := tx.blit 0 (macBytes dstMac) 6
  let tx := tx.blit 6 (macBytes srcMac) 6
  let tx := tx.store 12 2 (bswap16 etherType)
  tx.blit 14 payload len

/-- `net_send_frame`. -/
def netSendFrame (st : NetState) (dstMac : Mac) (etherType : Nat) (payload : ByteMap)
    (len : Nat) : NetState :=
  let tx := ethFrame st.netTxBuf dstMac st.netMac etherType payload len
  { st.log [.write .netTx 0 14, .write .netTx 14 len] with
    netTxBuf := tx
    sent := st.sent ++ [tx.slice 0 ((14 + len) % 2 ^ 16)] }

/-! ## `arp.c` -/

/-- An `arp_packet_t` for Ethernet and IPv4.  Both addresses are given as stored. -/
def arpPacket (op : Nat) (senderMac : Mac) (senderIp : Nat) (targetMac : Mac)
    (targetIp : Nat) : ByteMap :=
  let packet : ByteMap := fun _ => 0
  let packet := packet.store 0 2 (bswap16 1)
  let packet := packet.store 2 2 (bswap16 0x0800)
  let packet := packet.store 4 1 6
  let packet := packet.store 5 1 4
  let packet := packet.store 6 2 (bswap16 op)
  let packet := packet.blit 8 (macBytes senderMac) 6
  let packet := packet.blit 18 (macBytes targetMac) 6
  let packet := packet.store 14 4 senderIp
  packet.store 24 4 targetIp

/-- `arp_resolve`. -/
def arpResolve (st : NetState) (ip : UInt32) : Option Mac :=
  (st.arpCache.find? fun entry => entry.valid && entry.ip == ip).map (·.mac)

/-- The cache slot `arp_handle` writes: the valid one for `ip`, else the first
invalid one. -/
def arpSlot (cache : List ArpEntry) (ip : UInt32) : Option Nat :=
  match cache.findIdx? fun entry => entry.valid && entry.ip == ip with
  | some i => some i
  | none => cache.findIdx? fun entry => !entry.valid

/-- `arp_handle` of the packet at `data`; `len` is ignored. -/
def arpHandle (st : NetState) (bytes : ByteMap) (data : Nat) : NetState :=
  let op := bswap16 (bytes.load (data + 6) 2)
  let targetIp := ipAt bytes (data + 24)
  let senderIp := ipAt bytes (data + 14)
  let senderMac := macAt bytes (data + 8)
  let st := st.log [.read (data + 6) 2, .read (data + 24) 4, .read (data + 14) 4]
  let st :=
    if op = 1 ∧ targetIp = st.netIp then
      netSendFrame (st.log [.read (data + 8) 6, .read (data + 14) 4, .read (data + 8) 6])
        senderMac 0x0806
        (arpPacket 2 st.netMac (bswap32 st.netIp.toNat) senderMac (bytes.load (data + 14) 4)) 28
    else st
  if op = 1 ∨ op = 2 then
    match arpSlot st.arpCache senderIp with
    | some i =>
        { st.log [.read (data + 8) 6] with
          arpCache := st.arpCache.set i ⟨senderIp, senderMac, true⟩ }
    | none => st
  else st

/-- `arp_request`. -/
def arpRequest (st : NetState) (targetIp : UInt32) : NetState :=
  netSendFrame st macBroadcast 0x0806
    (arpPacket 1 st.netMac (bswap32 st.netIp.toNat) (fun _ => 0) (bswap32 targetIp.toNat)) 28

/-! ## `ip.c`, sending -/

/-- `ip_checksum`, and `icmp_checksum`, which is the same code.  The sum of at most
`2 ^ 15` pairs needs no more than its 32 bits. -/
def ipChecksum (bytes : ByteMap) (data len : Nat) : Nat :=
  65535 - foldCarries (sumPairs machinePair bytes data len)

/-- The packet `ip_send` builds in its static buffer, up to its checksum. -/
def ipUnsigned (tx : ByteMap) (srcIp dstIp : UInt32) (protocol : Nat) (payload : ByteMap)
    (payloadLen : Nat) : ByteMap :=
  let tx := tx.store 0 1 0x45
  let tx := tx.store 1 1 0
  let tx := tx.store 2 2 (bswap16 (20 + payloadLen))
  let tx := tx.store 4 2 (bswap16 0)
  let tx := tx.store 6 2 (bswap16 0x4000)
  let tx := tx.store 8 1 64
  let tx := tx.store 9 1 protocol
  let tx := tx.store 10 2 0
  let tx := tx.store 12 4 (bswap32 srcIp.toNat)
  let tx := tx.store 16 4 (bswap32 dstIp.toNat)
  tx.blit 20 payload payloadLen

/-- The packet `ip_send` builds in its static buffer. -/
def ipPacket (tx : ByteMap) (srcIp dstIp : UInt32) (protocol : Nat) (payload : ByteMap)
    (payloadLen : Nat) : ByteMap :=
  let tx := ipUnsigned tx srcIp dstIp protocol payload payloadLen
  tx.store 10 2 (ipChecksum tx 0 20)

/-- `e1000_receive`: the next frame, unless the device is quiet. -/
def e1000Receive (st : NetState) : Option (Frame × NetState) :=
  match st.arrivals with
  | .frame frame :: rest => some (frame, { st with arrivals := rest })
  | _ => none

/-- `timer_wait(1)`: the device's quiet tick passes. -/
def timerWait (st : NetState) : NetState :=
  match st.arrivals with
  | .tick :: rest => { st with arrivals := rest }
  | _ => st

section Waiting

/- `handle` is `net_handle_packet`, called again while `ip_send` waits. -/
variable (handle : NetState → Frame → NetState)

/-- Receive and handle frames until the device is quiet, at most `pending` of them. -/
def drain : Nat → NetState → NetState
  | 0, st => st
  | pending + 1, st =>
      match e1000Receive st with
      | none => st
      | some (frame, st) => drain pending { handle st frame with accesses := st.accesses }

/-- Send the packet in the static buffer on to `mac`. -/
def ipTransmit (st : NetState) (mac : Mac) (payloadLen : Nat) : NetState :=
  netSendFrame st mac 0x0800 st.ipTxBuf ((20 + payloadLen) % 2 ^ 16)

/-- The polling loop of one attempt, for the given number of ticks, and whether
it sent the packet. -/
def ipPoll (nextHop : UInt32) (payloadLen : Nat) : Nat → NetState → Bool × NetState
  | 0, st => (false, st)
  | ticks + 1, st =>
      let st := drain handle st.arrivals.length st
      match arpResolve st nextHop with
      | some mac => (true, ipTransmit st mac payloadLen)
      | none => ipPoll nextHop payloadLen ticks (timerWait st)

/-- The attempts of `ip_send` to resolve the next hop and send. -/
def ipAttempt (nextHop : UInt32) (payloadLen : Nat) : Nat → NetState → NetState
  | 0, st => st
  | attempts + 1, st =>
      match arpResolve st nextHop with
      | some mac => ipTransmit st mac payloadLen
      | none =>
          match ipPoll handle nextHop payloadLen 20 (arpRequest st nextHop) with
          | (true, st) => st
          | (false, st) => ipAttempt nextHop payloadLen attempts st

/-- The next hop: the destination itself inside the subnet, else the gateway. -/
def nextHop (st : NetState) (dstIp : UInt32) : UInt32 :=
  if dstIp &&& st.netSubnet = st.netIp &&& st.netSubnet then dstIp else st.netGateway

/-- `ip_send`. -/
def ipSend (st : NetState) (dstIp : UInt32) (protocol : Nat) (payload : ByteMap)
    (payloadLen : Nat) : NetState :=
  let tx := ipPacket st.ipTxBuf st.netIp dstIp protocol payload payloadLen
  let st := st.log [.write .ipTx 0 20, .write .ipTx 20 payloadLen, .write .ipTx 10 2]
  let st := st.setIpTx tx
  ipAttempt handle (nextHop st dstIp) payloadLen 3 st

/-! ## `icmp.c` -/

/-- `icmp_handle` of the `len` bytes at `data`. -/
def icmpHandle (st : NetState) (srcIp : UInt32) (bytes : ByteMap) (data len : Nat) : NetState :=
  let st := st.log [.read data 1]
  if bytes data = 8 then
    let payloadLen := (len + 2 ^ 16 - 8) % 2 ^ 16
    let reply := st.icmpReplyBuf.store 0 1 0
    let reply := reply.store 1 1 0
    let reply := reply.store 2 2 0
    let reply := reply.store 4 2 (bytes.load (data + 4) 2)
    let reply := reply.store 6 2 (bytes.load (data + 6) 2)
    let reply := reply.blit 8 (fun i => bytes (data + 8 + i)) payloadLen
    let reply := reply.store 2 2 (ipChecksum reply 0 ((8 + payloadLen) % 2 ^ 16))
    let st := { st.log [.read (data + 4) 2, .read (data + 6) 2, .write .icmpReply 0 8,
        .read (data + 8) payloadLen, .write .icmpReply 8 payloadLen, .write .icmpReply 2 2] with
      icmpReplyBuf := reply }
    ipSend handle st srcIp 1 reply ((8 + payloadLen) % 2 ^ 16)
  else if bytes data = 0 then { st with replyReceived := true }
  else st

end Waiting

/-! ## `udp.c` -/

/-- The pseudo header of `udp_checksum`. -/
def pseudoHeader (srcIp dstIp : UInt32) (udpLen : Nat) : ByteMap :=
  let header : ByteMap := fun _ => 0
  let header := header.store 0 4 (bswap32 srcIp.toNat)
  let header := header.store 4 4 (bswap32 dstIp.toNat)
  let header := header.store 9 1 17
  header.store 10 2 (bswap16 udpLen)

/-- `udp_checksum`. -/
def udpChecksum (srcIp dstIp : UInt32) (bytes : ByteMap) (udp udpLen : Nat) : Nat :=
  65535 - foldCarries (sumPairs networkPair (pseudoHeader srcIp dstIp udpLen) 0 12 +
    sumPairs networkPair bytes udp udpLen)

/-- The handler `udp_handle` finds for a port. -/
def boundHandler (bindings : List Binding) (port : UInt16) : Option Handler :=
  (bindings.find? fun binding => binding.handler.isSome && binding.port == port).bind (·.handler)

/-- `udp_capture_reply`. -/
def udpCaptureReply (st : NetState) (srcIp : UInt32) (srcPort : UInt16) (bytes : ByteMap)
    (payload payloadLen : Nat) : NetState :=
  let n := min payloadLen 1472
  { st.log [.read payload n, .write .captureReply 0 n] with
    replySrcIp := srcIp
    replySrcPort := srcPort
    replyBuf := st.replyBuf.blit 0 (fun i => bytes (payload + i)) n
    replyLen := n
    replyReady := true }

/-- Call a handler. -/
def invoke (st : NetState) (handler : Handler) (srcIp : UInt32) (srcPort : UInt16)
    (bytes : ByteMap) (payload payloadLen : Nat) : NetState :=
  let st := { st with
    delivered := st.delivered ++ [⟨handler, srcIp, srcPort, bytes.slice payload payloadLen⟩] }
  match handler with
  | .capture => udpCaptureReply st srcIp srcPort bytes payload payloadLen
  | .application _ => st

/-- The end of `udp_handle`: look the handler up and call it. -/
def udpDispatch (st : NetState) (srcIp : UInt32) (bytes : ByteMap) (packet udpLen : Nat) :
    NetState :=
  let st := st.log [.read (packet + 2) 2, .read packet 2]
  match boundHandler st.bindings (portAt bytes (packet + 2)) with
  | none => st
  | some handler => invoke st handler srcIp (portAt bytes packet) bytes (packet + 8) (udpLen - 8)

/-- `udp_handle` of the `packetLen` bytes at `packet`. -/
def udpHandle (st : NetState) (srcIp dstIp : UInt32) (bytes : ByteMap)
    (packet packetLen : Nat) : NetState :=
  if packetLen < 8 then st
  else
    let udpLen := bswap16 (bytes.load (packet + 4) 2)
    let st := st.log [.read (packet + 4) 2]
    if udpLen < 8 ∨ packetLen < udpLen then st
    else
      let checksum := bytes.load (packet + 6) 2
      let st := st.log [.read (packet + 6) 2]
      let st := if checksum ≠ 0 then st.log [.read packet udpLen] else st
      if checksum ≠ 0 ∧ udpChecksum srcIp dstIp bytes packet udpLen ≠ 0 then st
      else udpDispatch st srcIp bytes packet udpLen

/-- The datagram `udp_send` builds in its static buffer, up to its checksum. -/
def udpUnsigned (packet : ByteMap) (srcPort dstPort : UInt16) (payload : ByteMap)
    (payloadLen : Nat) : ByteMap :=
  let packet := packet.store 0 2 (bswap16 srcPort.toNat)
  let packet := packet.store 2 2 (bswap16 dstPort.toNat)
  let packet := packet.store 4 2 (bswap16 (8 + payloadLen))
  let packet := packet.store 6 2 0
  packet.blit 8 payload payloadLen

/-- The datagram `udp_send` builds in its static buffer.  A computed zero is sent
as all ones. -/
def udpDatagram (packet : ByteMap) (srcIp dstIp : UInt32) (srcPort dstPort : UInt16)
    (payload : ByteMap) (payloadLen : Nat) : ByteMap :=
  let packet := udpUnsigned packet srcPort dstPort payload payloadLen
  let checksum := udpChecksum srcIp dstIp packet 0 (8 + payloadLen)
  let checksum := if checksum = 0 then 0xFFFF else checksum
  packet.store 6 2 (bswap16 checksum)

/-- `udp_send`: the return value and the state. -/
def udpSend (handle : NetState → Frame → NetState) (st : NetState) (dstIp : UInt32)
    (srcPort dstPort : UInt16) (payload : ByteMap) (payloadLen : Nat) : Int × NetState :=
  if 1472 < payloadLen then (-1, st)
  else
    let packet := udpDatagram st.udpPacket st.netIp dstIp srcPort dstPort payload payloadLen
    (0, ipSend handle (st.setUdpPacket packet) dstIp 17 packet (8 + payloadLen))

/-! ## Receiving -/

/-- `ip_handle` of the packet at `data`; `len` is ignored. -/
def ipHandle (handle : NetState → Frame → NetState) (st : NetState) (bytes : ByteMap)
    (data : Nat) : NetState :=
  let st := st.log [.read data 1]
  if (bytes data).toNat / 16 ≠ 4 then st
  else
    let dstIp := ipAt bytes (data + 16)
    let srcIp := ipAt bytes (data + 12)
    let st := st.log [.read (data + 16) 4, .read (data + 12) 4]
    if dstIp ≠ st.netIp then st
    else
      let totalLen := bswap16 (bytes.load (data + 2) 2)
      let hdrLen := (bytes data).toNat % 16 * 4
      let payloadLen := (totalLen + 2 ^ 16 - hdrLen) % 2 ^ 16
      let st := st.log [.read (data + 2) 2, .read data 1, .read (data + 9) 1]
      if bytes (data + 9) = 1 then icmpHandle handle st srcIp bytes (data + 20) payloadLen
      else if bytes (data + 9) = 17 then udpHandle st srcIp dstIp bytes (data + 20) payloadLen
      else st

/-- The number of leading bytes of the destination address the filter accepts. -/
def matchedBytes (mac : Mac) (bytes : ByteMap) : Nat :=
  ((List.finRange 6).takeWhile fun i : Fin 6 => bytes i == mac i || bytes i == 0xFF).length

/-- `net_handle_packet`, given what it does when called again from `ip_send`. -/
def netHandlePacketWith (handle : NetState → Frame → NetState) (st : NetState)
    (frame : Frame) : NetState :=
  if frame.len < 14 then st
  else
    let etherType := bswap16 (frame.bytes.load 12 2)
    let matched := matchedBytes st.netMac frame.bytes
    -- The filter stops at the first byte it rejects.
    let st := st.log [.read 12 2, .read 0 (min 6 (matched + 1))]
    if matched ≠ 6 then st
    else if etherType = 0x0806 then arpHandle st frame.bytes 14
    else if etherType = 0x0800 then ipHandle handle st frame.bytes 14
    else st

/-- `net_handle_packet` with calls nested at most `depth` deep. -/
def netHandleNested : Nat → NetState → Frame → NetState
  | 0 => fun st _ => st
  | depth + 1 => netHandlePacketWith (netHandleNested depth)

/-- `net_handle_packet`.  Each nested call handles a frame the device delivered
in the meantime, so there are no more of them than arrivals. -/
def netHandlePacket (st : NetState) (frame : Frame) : NetState :=
  netHandlePacketWith (netHandleNested st.arrivals.length) st frame

end GeckoOS.Net
