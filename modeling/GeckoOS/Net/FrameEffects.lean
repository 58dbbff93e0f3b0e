/-
# What a received frame does

`net_handle_packet` can be entered again from inside itself: the answer to an echo
request leaves through `ip_send`, which handles further frames while it waits for an
address.  Seen from outside, the frames are still handled one after the other, in the
order they arrive.  This module says what one frame does to the buffers, the ARP cache
and the captured reply, as functions of the frame and of the addresses of the host, and
shows that any call of the receive path does exactly this for the frames it consumes.

A frame is first classified: an echo request for this host, a datagram for this host, or
an ARP packet.
-/

import GeckoOS.Net.AccessBounds

namespace GeckoOS.Net

open GeckoOS.Math ByteMap

/-! ## Frames for this host -/

/-- The addresses a frame is checked against. -/
structure Host where
  ip : UInt32
  mac : Mac

/-- The addresses of the host. -/
def NetState.host (st : NetState) : Host := ⟨st.netIp, st.netMac⟩

/-- `ether_type`. -/
def Frame.etherType (frame : Frame) : Nat := bswap16 (frame.bytes.load 12 2)

/-- A datagram handed to `udp_handle`'s table of bindings. -/
structure Datagram where
  srcIp : UInt32
  srcPort : UInt16
  dstPort : UInt16
  payload : List UInt8

namespace Host

variable (host : Host)

/-- The frame is long enough and its destination passes the filter. -/
def Accepts (frame : Frame) : Prop := 14 ≤ frame.len ∧ matchedBytes host.mac frame.bytes = 6

/-- An IPv4 packet that `ip_handle` takes for one to this host. -/
def AcceptsIp (frame : Frame) : Prop :=
  host.Accepts frame ∧ frame.etherType = 0x0800 ∧ (frame.bytes 14).toNat / 16 = 4 ∧
    ipAt frame.bytes 30 = host.ip

/-- An echo request for this host. -/
def EchoRequest (frame : Frame) : Prop :=
  host.AcceptsIp frame ∧ frame.bytes 23 = 1 ∧ frame.bytes 34 = 8

/-- An ARP request or reply. -/
def ArpNews (frame : Frame) : Prop :=
  host.Accepts frame ∧ frame.etherType = 0x0806 ∧
    (bswap16 (frame.bytes.load 20 2) = 1 ∨ bswap16 (frame.bytes.load 20 2) = 2)

/-- A UDP packet that passes the checks of `udp_handle`. -/
def UdpPasses (frame : Frame) : Prop :=
  host.AcceptsIp frame ∧ frame.bytes 23 = 17 ∧ 8 ≤ ipPayloadLen frame.bytes ∧
    8 ≤ bswap16 (frame.bytes.load 38 2) ∧
    bswap16 (frame.bytes.load 38 2) ≤ ipPayloadLen frame.bytes ∧
    (frame.bytes.load 40 2 ≠ 0 → udpChecksum (ipAt frame.bytes 26) (ipAt frame.bytes 30)
      frame.bytes 34 (bswap16 (frame.bytes.load 38 2)) = 0)

instance (frame : Frame) : Decidable (host.Accepts frame) := inferInstanceAs (Decidable (_ ∧ _))

instance (frame : Frame) : Decidable (host.AcceptsIp frame) := inferInstanceAs (Decidable (_ ∧ _))

instance (frame : Frame) : Decidable (host.EchoRequest frame) :=
  inferInstanceAs (Decidable (_ ∧ _))

instance (frame : Frame) : Decidable (host.ArpNews frame) := inferInstanceAs (Decidable (_ ∧ _))

instance (frame : Frame) : Decidable (host.UdpPasses frame) := inferInstanceAs (Decidable (_ ∧ _))

end Host

/-! ## The effects -/

/-- `reply_buf` after `icmp_handle` has answered the echo request in `bytes`. -/
def echoReply (buf bytes : ByteMap) : ByteMap :=
  let reply := buf.store 0 1 0
  let reply := reply.store 1 1 0
  let reply := reply.store 2 2 0
  let reply := reply.store 4 2 (bytes.load 38 2)
  let reply := reply.store 6 2 (bytes.load 40 2)
  let reply := reply.blit 8 (fun i => bytes (42 + i)) (echoLen bytes)
  reply.store 2 2 (ipChecksum reply 0 ((8 + echoLen bytes) % 2 ^ 16))

/-- The buffers an answer is built in. -/
structure AnswerBuffers where
  /-- `reply_buf` of `icmp_handle`. -/
  icmpReply : ByteMap
  /-- `tx_buf` of `ip_send`. -/
  ipTx : ByteMap

/-- An echo request leaves its answer in both buffers. -/
def Host.answer (host : Host) (buffers : AnswerBuffers) (frame : Frame) : AnswerBuffers :=
  if host.EchoRequest frame then
    let reply := echoReply buffers.icmpReply frame.bytes
    ⟨reply, ipPacket buffers.ipTx host.ip (ipAt frame.bytes 26) 1 reply
      ((8 + echoLen frame.bytes) % 2 ^ 16)⟩
  else buffers

/-- The cache with a sender entered. -/
def learnSender (cache : List ArpEntry) (ip : UInt32) (mac : Mac) : List ArpEntry :=
  match arpSlot cache ip with
  | some i => cache.set i ⟨ip, mac, true⟩
  | none => cache

/-- An ARP packet enters its sender into the cache. -/
def Host.learn (host : Host) (cache : List ArpEntry) (frame : Frame) : List ArpEntry :=
  if host.ArpNews frame then learnSender cache (ipAt frame.bytes 28) (macAt frame.bytes 22)
  else cache

/-- The datagram `udp_handle` looks a handler up for. -/
def Host.datagram (host : Host) (frame : Frame) : Option Datagram :=
  if host.UdpPasses frame then
    some ⟨ipAt frame.bytes 26, portAt frame.bytes 34, portAt frame.bytes 36,
      frame.bytes.slice 42 (bswap16 (frame.bytes.load 38 2) - 8)⟩
  else none

/-- The call of a handler for a datagram. -/
def deliver (bindings : List Binding) (datagram : Datagram) : Option Delivery :=
  (boundHandler bindings datagram.dstPort).map fun handler =>
    ⟨handler, datagram.srcIp, datagram.srcPort, datagram.payload⟩

/-- The handler calls a frame causes. -/
def Host.deliveries (host : Host) (bindings : List Binding) (frame : Frame) : List Delivery :=
  ((host.datagram frame).bind (deliver bindings)).toList

/-- The captured reply: the `s_reply_...` variables of `udp.c`. -/
structure Capture where
  ready : Bool
  srcIp : UInt32
  srcPort : UInt16
  len : Nat
  buf : ByteMap

/-- `udp_capture_reply`. -/
def Capture.take (capture : Capture) (delivery : Delivery) : Capture :=
  match delivery.handler with
  | .capture => ⟨true, delivery.srcIp, delivery.srcPort, min delivery.payload.length 1472,
      capture.buf.blit 0 (ofList delivery.payload) (min delivery.payload.length 1472)⟩
  | .application _ => capture

/-- The part of the state that the receive path changes in a way later frames and calls
depend on, with the addresses and bindings it is checked against. -/
structure Core where
  host : Host
  netGateway : UInt32
  netSubnet : UInt32
  bindings : List Binding
  buffers : AnswerBuffers
  arpCache : List ArpEntry
  delivered : List Delivery
  capture : Capture

/-- What calls of handlers do. -/
def Core.make (core : Core) (calls : List Delivery) : Core :=
  { core with
    delivered := core.delivered ++ calls
    capture := calls.foldl Capture.take core.capture }

/-- What handling one frame does. -/
def Core.handle (core : Core) (frame : Frame) : Core :=
  { core with
    buffers := core.host.answer core.buffers frame
    arpCache := core.host.learn core.arpCache frame }.make
      (core.host.deliveries core.bindings frame)

/-- What handling frames one after the other does. -/
def Core.run (core : Core) (frames : List Frame) : Core := frames.foldl Core.handle core

namespace NetState

/-- The captured reply. -/
def capture (st : NetState) : Capture :=
  ⟨st.replyReady, st.replySrcIp, st.replySrcPort, st.replyLen, st.replyBuf⟩

/-- The core of a state. -/
def core (st : NetState) : Core :=
  ⟨st.host, st.netGateway, st.netSubnet, st.bindings, ⟨st.icmpReplyBuf, st.ipTxBuf⟩, st.arpCache,
    st.delivered, st.capture⟩

/-- The log is not part of the core. -/
@[simp]
theorem log_core (st : NetState) (made : List Access) : (st.log made).core = st.core := rfl

@[simp]
theorem log_arrivals (st : NetState) (made : List Access) :
    (st.log made).arrivals = st.arrivals := rfl

end NetState

section Core

variable (core : Core) (frames more : List Frame)

theorem Core.run_append : core.run (frames ++ more) = (core.run frames).run more :=
  List.foldl_append

/-- Frames change neither the addresses nor the bindings, and change the rest one by one. -/
theorem Core.run_eq : core.run frames =
    { core with
      buffers := frames.foldl core.host.answer core.buffers
      arpCache := frames.foldl core.host.learn core.arpCache
      delivered := core.delivered ++ frames.flatMap (core.host.deliveries core.bindings)
      capture := (frames.flatMap (core.host.deliveries core.bindings)).foldl Capture.take
        core.capture } := by
  induction frames generalizing core with
  | nil => simp [Core.run]
  | cons frame frames ih =>
      rw [Core.run, List.foldl_cons, ← Core.run, ih]
      simp [Core.handle, Core.make, List.append_assoc]

@[simp]
theorem Core.make_nil : core.make [] = core := by
  simp [Core.make]

end Core

/-- The frames among what has arrived. -/
def arrivedFrames (arrivals : List Arrival) : List Frame :=
  arrivals.filterMap fun
    | .frame frame => some frame
    | .tick => none

/-- Of what was to arrive, these frames have been taken from the device. -/
def Took (arrivals : List Arrival) (frames : List Frame) (st' : NetState) : Prop :=
  ∃ consumed, arrivals = consumed ++ st'.arrivals ∧ arrivedFrames consumed = frames

/-- These frames have been taken from the device and handled, in this order. -/
def Waited (st : NetState) (frames : List Frame) (st' : NetState) : Prop :=
  Took st.arrivals frames st' ∧ st'.core = st.core.run frames

/-- The handler handles its frame and those that arrive in the meantime, if no more than
`bound` are still to arrive. -/
def HandlesBelow (handle : NetState → Frame → NetState) (bound : Nat) : Prop :=
  ∀ st frame, st.arrivals.length < bound →
    ∃ frames, Waited { st with arrivals := .frame frame :: st.arrivals } (frame :: frames)
      (handle st frame)

variable {st st' st'' : NetState} {frames more : List Frame} {frame : Frame}
  {handle : NetState → Frame → NetState} {bound : Nat}

theorem Waited.trans (hfirst : Waited st frames st') (hsecond : Waited st' more st'') :
    Waited st (frames ++ more) st'' := by
  obtain ⟨⟨consumed, harrivals, rfl⟩, hcore⟩ := hfirst
  obtain ⟨⟨consumed', harrivals', rfl⟩, hcore'⟩ := hsecond
  refine ⟨⟨consumed ++ consumed', ?_, ?_⟩, ?_⟩
  · rw [harrivals, harrivals', List.append_assoc]
  · exact List.filterMap_append
  · rw [hcore', hcore, Core.run_append]

/-- Nothing is consumed, and the core stays. -/
theorem Waited.of_core (harrivals : st'.arrivals = st.arrivals) (hcore : st'.core = st.core) :
    Waited st [] st' :=
  ⟨⟨[], harrivals.symm, rfl⟩, hcore⟩

theorem Waited.length_le (hwaited : Waited st frames st') :
    st'.arrivals.length ≤ st.arrivals.length := by
  obtain ⟨⟨consumed, harrivals, -⟩, -⟩ := hwaited
  rw [harrivals, List.length_append]
  exact Nat.le_add_left _ _

/-! ## Waiting -/

theorem timerWait_waited (st : NetState) : Waited st [] (timerWait st) := by
  rw [timerWait]
  split
  · next rest heq => exact ⟨⟨[.tick], by rw [heq]; rfl, rfl⟩, rfl⟩
  · exact .of_core rfl rfl

theorem drain_waited (hhandle : HandlesBelow handle bound) (pending : Nat)
    (hsmall : st.arrivals.length ≤ bound) :
    ∃ frames, Waited st frames (drain handle pending st) := by
  induction pending generalizing st with
  | zero => exact ⟨[], .of_core rfl rfl⟩
  | succ pending ih =>
      rw [drain]
      cases harrivals : st.arrivals with
      | nil =>
          rw [show e1000Receive st = none by rw [e1000Receive, harrivals]]
          exact ⟨[], .of_core rfl rfl⟩
      | cons arrival rest =>
          cases arrival with
          | tick =>
              rw [show e1000Receive st = none by rw [e1000Receive, harrivals]]
              exact ⟨[], .of_core rfl rfl⟩
          | frame frame =>
              rw [show e1000Receive st = some (frame, { st with arrivals := rest }) by
                rw [e1000Receive, harrivals]]
              rw [harrivals, List.length_cons] at hsmall
              obtain ⟨frames, hframes⟩ := hhandle { st with arrivals := rest } frame hsmall
              have hst : { st with arrivals := .frame frame :: rest } = st := by rw [← harrivals]
              rw [hst] at hframes
              have hlength := hframes.length_le
              rw [harrivals, List.length_cons] at hlength
              obtain ⟨more, hmore⟩ := @ih { handle { st with arrivals := rest } frame with
                accesses := st.accesses } (hlength.trans hsmall)
              exact ⟨frame :: frames ++ more, Waited.trans hframes hmore⟩

theorem arpRequest_waited (st : NetState) (ip : UInt32) : Waited st [] (arpRequest st ip) :=
  .of_core rfl rfl

theorem ipTransmit_waited (st : NetState) (mac : Mac) (payloadLen : Nat) :
    Waited st [] (ipTransmit st mac payloadLen) :=
  .of_core rfl rfl

/-- The cache is all that resolving reads. -/
theorem arpResolve_of_core (hcore : st'.core = st.core) (ip : UInt32) :
    arpResolve st' ip = arpResolve st ip := by
  rw [arpResolve, arpResolve, show st'.arpCache = st.arpCache from congrArg Core.arpCache hcore]

/-- How a call of `ip_send` that has built its packet in state `st` ends: it sends the packet
as soon as its next hop resolves, or the next hop does not resolve at all. -/
def SendsWhenResolved (st : NetState) (hop : UInt32) (payloadLen : Nat) (frames : List Frame)
    (st' : NetState) : Prop :=
  (∃ before mac, Waited st frames before ∧ arpResolve before hop = some mac ∧
      st' = ipTransmit before mac payloadLen) ∨
    Waited st frames st' ∧ arpResolve st' hop = none

theorem SendsWhenResolved.waited {hop : UInt32} {payloadLen : Nat}
    (hsends : SendsWhenResolved st hop payloadLen frames st') : Waited st frames st' := by
  rcases hsends with ⟨before, mac, hwaited, -, rfl⟩ | ⟨hwaited, -⟩
  · have htransmit := hwaited.trans (ipTransmit_waited before mac payloadLen)
    rwa [List.append_nil] at htransmit
  · exact hwaited

theorem Waited.sends {hop : UInt32} {payloadLen : Nat} (hwaited : Waited st frames st')
    (hsends : SendsWhenResolved st' hop payloadLen more st'') :
    SendsWhenResolved st hop payloadLen (frames ++ more) st'' :=
  hsends.imp (fun ⟨before, mac, hbefore, hrest⟩ => ⟨before, mac, hwaited.trans hbefore, hrest⟩)
    fun ⟨hafter, hrest⟩ => ⟨hwaited.trans hafter, hrest⟩

/-- Polling sends the packet, or ends with the next hop unresolved. -/
theorem ipPoll_sends (hhandle : HandlesBelow handle bound) (hop : UInt32) (payloadLen ticks : Nat)
    (hsmall : st.arrivals.length ≤ bound) (hnone : arpResolve st hop = none) :
    ∃ frames, SendsWhenResolved st hop payloadLen frames
        (ipPoll handle hop payloadLen ticks st).2 ∧
      ((ipPoll handle hop payloadLen ticks st).1 = false →
        arpResolve (ipPoll handle hop payloadLen ticks st).2 hop = none) := by
  induction ticks generalizing st with
  | zero => exact ⟨[], .inr ⟨.of_core rfl rfl, hnone⟩, fun _ => hnone⟩
  | succ ticks ih =>
      obtain ⟨drained, hdrained⟩ := drain_waited hhandle st.arrivals.length hsmall
      rw [ipPoll]
      cases hresolve : arpResolve (drain handle st.arrivals.length st) hop with
      | some mac =>
          exact ⟨drained, .inl ⟨_, mac, hdrained, hresolve, rfl⟩,
            fun hfalse => absurd hfalse Bool.true_eq_false.mp⟩
      | none =>
          have htick := timerWait_waited (drain handle st.arrivals.length st)
          have hwaited := hdrained.trans htick
          rw [List.append_nil] at hwaited
          have hnone' : arpResolve (timerWait (drain handle st.arrivals.length st)) hop = none :=
            (arpResolve_of_core htick.2 hop).trans hresolve
          obtain ⟨more, hsends, hunresolved⟩ := ih (hwaited.length_le.trans hsmall) hnone'
          exact ⟨drained ++ more, hwaited.sends hsends, hunresolved⟩

theorem ipAttempt_sends (hhandle : HandlesBelow handle bound) (hop : UInt32)
    (payloadLen attempts : Nat) (hsmall : st.arrivals.length ≤ bound)
    (hnone : attempts = 0 → arpResolve st hop = none) :
    ∃ frames, SendsWhenResolved st hop payloadLen frames
      (ipAttempt handle hop payloadLen attempts st) := by
  induction attempts generalizing st with
  | zero => exact ⟨[], .inr ⟨.of_core rfl rfl, hnone rfl⟩⟩
  | succ attempts ih =>
      rw [ipAttempt]
      cases hresolve : arpResolve st hop with
      | some mac => exact ⟨[], .inl ⟨st, mac, .of_core rfl rfl, hresolve, rfl⟩⟩
      | none =>
          have hrequest := arpRequest_waited st hop
          obtain ⟨polled, hsends, hunresolved⟩ := @ipPoll_sends (arpRequest st hop) handle bound
            hhandle hop payloadLen 20 (hrequest.length_le.trans hsmall) hresolve
          rcases hpoll : ipPoll handle hop payloadLen 20 (arpRequest st hop) with ⟨_ | _, after⟩
          · rw [hpoll] at hsends hunresolved
            have hwaited := hrequest.trans hsends.waited
            obtain ⟨more, hmore⟩ := @ih after (hwaited.length_le.trans hsmall)
              fun _ => hunresolved rfl
            exact ⟨[] ++ polled ++ more, hwaited.sends hmore⟩
          · rw [hpoll] at hsends
            exact ⟨[] ++ polled, hrequest.sends hsends⟩

/-- `ip_send` builds its packet and then waits. -/
theorem ipSend_sends (hhandle : HandlesBelow handle bound) (st : NetState) (dstIp : UInt32)
    (protocol : Nat) (payload : ByteMap) (payloadLen : Nat) (hsmall : st.arrivals.length ≤ bound) :
    ∃ frames, SendsWhenResolved
      (st.setIpTx (ipPacket st.ipTxBuf st.netIp dstIp protocol payload payloadLen))
      (nextHop st dstIp) payloadLen frames
      (ipSend handle st dstIp protocol payload payloadLen) := by
  have hlog : Waited
      (st.setIpTx (ipPacket st.ipTxBuf st.netIp dstIp protocol payload payloadLen)) []
      ((st.log [.write .ipTx 0 20, .write .ipTx 20 payloadLen, .write .ipTx 10 2]).setIpTx
        (ipPacket st.ipTxBuf st.netIp dstIp protocol payload payloadLen)) := .of_core rfl rfl
  obtain ⟨frames, hsends⟩ := @ipAttempt_sends
    ((st.log [.write .ipTx 0 20, .write .ipTx 20 payloadLen, .write .ipTx 10 2]).setIpTx
        (ipPacket st.ipTxBuf st.netIp dstIp protocol payload payloadLen)) handle bound hhandle
    (nextHop st dstIp) payloadLen 3 hsmall nofun
  exact ⟨[] ++ frames, hlog.sends hsends⟩

/-! ## One frame -/

/-- The effect of a frame that no handler takes. -/
theorem Core.handle_of_ignored {core : Core} (hecho : ¬ core.host.EchoRequest frame)
    (harp : ¬ core.host.ArpNews frame) (hudp : ¬ core.host.UdpPasses frame) :
    core.handle frame = core := by
  simp [Core.handle, Host.answer, Host.learn, Host.deliveries, Host.datagram, hecho, harp, hudp]

/-- An ICMP packet for this host is at most an echo request. -/
theorem Core.handle_of_icmp {core : Core} (haccepts : core.host.AcceptsIp frame)
    (hicmp : frame.bytes 23 = 1) : core.handle frame = { core with
      buffers :=
        if frame.bytes 34 = 8 then
          ⟨echoReply core.buffers.icmpReply frame.bytes, ipPacket core.buffers.ipTx core.host.ip
            (ipAt frame.bytes 26) 1 (echoReply core.buffers.icmpReply frame.bytes)
            ((8 + echoLen frame.bytes) % 2 ^ 16)⟩
        else core.buffers } := by
  have harp : ¬ core.host.ArpNews frame := fun h =>
    absurd (haccepts.2.1.symm.trans h.2.1) (by decide)
  have hudp : ¬ core.host.UdpPasses frame := fun h => absurd (hicmp.symm.trans h.2.1) (by decide)
  have hecho : core.host.EchoRequest frame ↔ frame.bytes 34 = 8 :=
    ⟨fun h => h.2.2, fun h => ⟨haccepts, hicmp, h⟩⟩
  simp [Core.handle, Host.answer, Host.learn, Host.deliveries, Host.datagram, hecho, harp, hudp]

/-- A UDP packet for this host is at most a datagram. -/
theorem Core.handle_of_udp {core : Core} (haccepts : core.host.AcceptsIp frame)
    (hprotocol : frame.bytes 23 = 17) : core.handle frame = core.make
      (if 8 ≤ ipPayloadLen frame.bytes ∧ 8 ≤ bswap16 (frame.bytes.load 38 2) ∧
          bswap16 (frame.bytes.load 38 2) ≤ ipPayloadLen frame.bytes ∧
          (frame.bytes.load 40 2 ≠ 0 → udpChecksum (ipAt frame.bytes 26) (ipAt frame.bytes 30)
            frame.bytes 34 (bswap16 (frame.bytes.load 38 2)) = 0) then
        (deliver core.bindings ⟨ipAt frame.bytes 26, portAt frame.bytes 34, portAt frame.bytes 36,
          frame.bytes.slice 42 (bswap16 (frame.bytes.load 38 2) - 8)⟩).toList
      else []) := by
  have harp : ¬ core.host.ArpNews frame := fun h =>
    absurd (haccepts.2.1.symm.trans h.2.1) (by decide)
  have hecho : ¬ core.host.EchoRequest frame :=
    fun h => absurd (hprotocol.symm.trans h.2.1) (by decide)
  have hudp : core.host.UdpPasses frame ↔
      8 ≤ ipPayloadLen frame.bytes ∧ 8 ≤ bswap16 (frame.bytes.load 38 2) ∧
        bswap16 (frame.bytes.load 38 2) ≤ ipPayloadLen frame.bytes ∧
        (frame.bytes.load 40 2 ≠ 0 → udpChecksum (ipAt frame.bytes 26) (ipAt frame.bytes 30)
          frame.bytes 34 (bswap16 (frame.bytes.load 38 2)) = 0) :=
    ⟨fun h => h.2.2, fun h => ⟨haccepts, hprotocol, h⟩⟩
  rw [← if_congr hudp rfl rfl]
  by_cases hpasses : core.host.UdpPasses frame
  · simp [Core.handle, Host.answer, Host.learn, Host.deliveries, Host.datagram, hecho, harp,
      hpasses]
  · simp [Core.handle, Host.answer, Host.learn, Host.deliveries, Host.datagram, hecho, harp,
      hpasses]

/-- An ARP packet that passes the filter is at most news of its sender. -/
theorem Core.handle_of_arp {core : Core} (haccepts : core.host.Accepts frame)
    (htype : frame.etherType = 0x0806) : core.handle frame = { core with
      arpCache :=
        if bswap16 (frame.bytes.load 20 2) = 1 ∨ bswap16 (frame.bytes.load 20 2) = 2 then
          learnSender core.arpCache (ipAt frame.bytes 28) (macAt frame.bytes 22)
        else core.arpCache } := by
  have hecho : ¬ core.host.EchoRequest frame :=
    fun h => absurd (htype.symm.trans h.1.2.1) (by decide)
  have hudp : ¬ core.host.UdpPasses frame :=
    fun h => absurd (htype.symm.trans h.1.2.1) (by decide)
  have harp : core.host.ArpNews frame ↔
      bswap16 (frame.bytes.load 20 2) = 1 ∨ bswap16 (frame.bytes.load 20 2) = 2 :=
    ⟨fun h => h.2.2, fun h => ⟨haccepts, htype, h⟩⟩
  simp [Core.handle, Host.answer, Host.learn, Host.deliveries, Host.datagram, hecho, harp, hudp]

/-- `arp_handle` enters the sender of a request or a reply into the cache. -/
theorem arpHandle_core (st : NetState) (bytes : ByteMap) :
    (arpHandle st bytes 14).arrivals = st.arrivals ∧
      (arpHandle st bytes 14).core = { st.core with
        arpCache :=
          if bswap16 (bytes.load 20 2) = 1 ∨ bswap16 (bytes.load 20 2) = 2 then
            learnSender st.arpCache (ipAt bytes 28) (macAt bytes 22)
          else st.arpCache } := by
  cases hslot : arpSlot st.arpCache (ipAt bytes 28) with
  | some i =>
      simp only [arpHandle, learnSender, hslot, Nat.reduceAdd]
      split_ifs <;>
        simp [netSendFrame, NetState.log, NetState.core, NetState.host, NetState.capture, hslot]
  | none =>
      simp only [arpHandle, learnSender, hslot, Nat.reduceAdd]
      split_ifs <;>
        simp [netSendFrame, NetState.log, NetState.core, NetState.host, NetState.capture, hslot]

/-- A handler call is recorded, and the capture handler keeps the reply. -/
theorem invoke_core (st : NetState) (handler : Handler) (srcIp : UInt32) (srcPort : UInt16)
    (bytes : ByteMap) (payload payloadLen : Nat) :
    (invoke st handler srcIp srcPort bytes payload payloadLen).arrivals = st.arrivals ∧
      (invoke st handler srcIp srcPort bytes payload payloadLen).core =
        st.core.make [⟨handler, srcIp, srcPort, bytes.slice payload payloadLen⟩] := by
  cases handler with
  | application id => exact ⟨rfl, rfl⟩
  | capture =>
      refine ⟨rfl, ?_⟩
      have hbuf : st.replyBuf.blit 0 (fun i => bytes (payload + i)) (min payloadLen 1472) =
          st.replyBuf.blit 0 (ofList (bytes.slice payload payloadLen)) (min payloadLen 1472) :=
        blit_congr fun i hi => (ofList_slice (by omega)).symm
      simp only [invoke, udpCaptureReply, NetState.core, NetState.log, NetState.host,
        NetState.capture, Core.make, List.foldl_cons, List.foldl_nil, Capture.take, hbuf,
        length_slice]

/-- A datagram is handed to the handler bound to its port. -/
theorem udpDispatch_core (st' : NetState) (srcIp : UInt32) (bytes : ByteMap) (udpLen : Nat)
    (harrivals : st'.arrivals = st.arrivals) (hcore : st'.core = st.core) :
    (udpDispatch st' srcIp bytes 34 udpLen).arrivals = st.arrivals ∧
      (udpDispatch st' srcIp bytes 34 udpLen).core =
        st.core.make (deliver st.bindings ⟨srcIp, portAt bytes 34, portAt bytes 36,
          bytes.slice 42 (udpLen - 8)⟩).toList := by
  have hbindings : st'.bindings = st.bindings := congrArg Core.bindings hcore
  rw [udpDispatch]
  rw [show (st'.log [.read (34 + 2) 2, .read 34 2]).bindings = st.bindings from hbindings, deliver]
  cases boundHandler st.bindings (portAt bytes 36) with
  | none =>
      rw [Option.map_none, Option.toList_none, Core.make_nil]
      exact ⟨harrivals, hcore⟩
  | some handler =>
      obtain ⟨hsame, hinvoked⟩ := invoke_core (st'.log [.read (34 + 2) 2, .read 34 2]) handler srcIp
        (portAt bytes 34) bytes 42 (udpLen - 8)
      refine ⟨hsame.trans harrivals, hinvoked.trans ?_⟩
      rw [← hcore]
      rfl

/-- `udp_handle` calls the handler bound to the port of a datagram that passes its checks. -/
theorem udpHandle_core (st' : NetState) (srcIp dstIp : UInt32) (bytes : ByteMap) (len : Nat)
    (harrivals : st'.arrivals = st.arrivals) (hcore : st'.core = st.core) :
    (udpHandle st' srcIp dstIp bytes 34 len).arrivals = st.arrivals ∧
      (udpHandle st' srcIp dstIp bytes 34 len).core = st.core.make
        (if 8 ≤ len ∧ 8 ≤ bswap16 (bytes.load 38 2) ∧ bswap16 (bytes.load 38 2) ≤ len ∧
            (bytes.load 40 2 ≠ 0 →
              udpChecksum srcIp dstIp bytes 34 (bswap16 (bytes.load 38 2)) = 0) then
          (deliver st.bindings ⟨srcIp, portAt bytes 34, portAt bytes 36,
            bytes.slice 42 (bswap16 (bytes.load 38 2) - 8)⟩).toList
        else []) := by
  rw [udpHandle]
  by_cases hshort : len < 8
  · rw [if_pos hshort, if_neg fun h => absurd hshort (Nat.not_lt.mpr h.1), Core.make_nil]
    exact ⟨harrivals, hcore⟩
  rw [if_neg hshort]
  by_cases hrefused : bswap16 (bytes.load 38 2) < 8 ∨ len < bswap16 (bytes.load 38 2)
  · rw [if_pos hrefused, if_neg fun h => by omega, Core.make_nil, NetState.log_arrivals,
      NetState.log_core]
    exact ⟨harrivals, hcore⟩
  rw [if_neg hrefused]
  by_cases hinvalid : bytes.load 40 2 ≠ 0 ∧
      udpChecksum srcIp dstIp bytes 34 (bswap16 (bytes.load 38 2)) ≠ 0
  · have hno : ¬ (8 ≤ len ∧ 8 ≤ bswap16 (bytes.load 38 2) ∧ bswap16 (bytes.load 38 2) ≤ len ∧
        (bytes.load 40 2 ≠ 0 →
          udpChecksum srcIp dstIp bytes 34 (bswap16 (bytes.load 38 2)) = 0)) :=
      fun h => hinvalid.2 (h.2.2.2 hinvalid.1)
    rw [if_pos hinvalid, if_pos hinvalid.1, if_neg hno, Core.make_nil]
    simp only [NetState.log_arrivals, NetState.log_core]
    exact ⟨harrivals, hcore⟩
  · have hyes : 8 ≤ len ∧ 8 ≤ bswap16 (bytes.load 38 2) ∧ bswap16 (bytes.load 38 2) ≤ len ∧
        (bytes.load 40 2 ≠ 0 →
          udpChecksum srcIp dstIp bytes 34 (bswap16 (bytes.load 38 2)) = 0) := by
      refine ⟨by omega, by omega, by omega, fun hsome => ?_⟩
      by_contra hbad
      exact hinvalid ⟨hsome, hbad⟩
    rw [if_neg hinvalid, if_pos hyes]
    split_ifs
    all_goals
      apply udpDispatch_core
      · simpa only [NetState.log_arrivals] using harrivals
      · simpa only [NetState.log_core] using hcore

/-- `icmp_handle` answers an echo request and waits for the address to send it to. -/
theorem icmpHandle_core (hhandle : HandlesBelow handle bound) (st' : NetState) (srcIp : UInt32)
    (bytes : ByteMap) (harrivals : st'.arrivals = st.arrivals) (hcore : st'.core = st.core)
    (hsmall : st.arrivals.length ≤ bound) :
    ∃ frames, Took st.arrivals frames
        (icmpHandle handle st' srcIp bytes 34 (ipPayloadLen bytes)) ∧
      (icmpHandle handle st' srcIp bytes 34 (ipPayloadLen bytes)).core =
        Core.run { st.core with
          buffers :=
            if bytes 34 = 8 then
              ⟨echoReply st.icmpReplyBuf bytes, ipPacket st.ipTxBuf st.netIp srcIp 1
                (echoReply st.icmpReplyBuf bytes) ((8 + echoLen bytes) % 2 ^ 16)⟩
            else st.core.buffers } frames := by
  have hbuffers := congrArg Core.buffers hcore
  have hreplyBuf : st'.icmpReplyBuf = st.icmpReplyBuf := congrArg AnswerBuffers.icmpReply hbuffers
  have htxBuf : st'.ipTxBuf = st.ipTxBuf := congrArg AnswerBuffers.ipTx hbuffers
  have hip : st'.netIp = st.netIp := congrArg (fun core => core.host.ip) hcore
  rw [icmpHandle]
  by_cases hecho : bytes 34 = 8
  · simp only [if_pos hecho]
    obtain ⟨frames, hsends⟩ := ipSend_sends hhandle
      { (st'.log [.read 34 1]).log [.read (34 + 4) 2, .read (34 + 6) 2, .write .icmpReply 0 8,
          .read (34 + 8) (echoLen bytes), .write .icmpReply 8 (echoLen bytes),
          .write .icmpReply 2 2] with
        icmpReplyBuf := echoReply st'.icmpReplyBuf bytes }
      srcIp 1 (echoReply st'.icmpReplyBuf bytes) ((8 + echoLen bytes) % 2 ^ 16)
      (by rw [← harrivals] at hsmall; exact hsmall)
    have hwaited := hsends.waited
    rw [← hreplyBuf, ← htxBuf, ← hip, ← harrivals, ← hcore]
    exact ⟨frames, hwaited.1, hwaited.2⟩
  · simp only [if_neg hecho]
    have htook : Took st.arrivals [] st' := ⟨[], harrivals.symm, rfl⟩
    split_ifs
    · exact ⟨[], htook, hcore⟩
    · exact ⟨[], htook, hcore⟩

/-- `ip_handle` of the packet in a frame. -/
theorem ipHandle_core (hhandle : HandlesBelow handle bound) (st' : NetState)
    (haccepts : st.host.Accepts frame) (htype : frame.etherType = 0x0800)
    (harrivals : st'.arrivals = st.arrivals) (hcore : st'.core = st.core)
    (hsmall : st.arrivals.length ≤ bound) :
    ∃ frames, Took st.arrivals frames (ipHandle handle st' frame.bytes 14) ∧
      (ipHandle handle st' frame.bytes 14).core = (st.core.handle frame).run frames := by
  have htook : Took st.arrivals [] st' := ⟨[], harrivals.symm, rfl⟩
  have harp : ¬ st.host.ArpNews frame := fun h => absurd (htype.symm.trans h.2.1) (by decide)
  have hip : st'.netIp = st.netIp := congrArg (fun core => core.host.ip) hcore
  have hignored : ¬ st.host.EchoRequest frame → ¬ st.host.UdpPasses frame →
      st'.core = (st.core.handle frame).run [] := by
    intro hecho hudp
    rw [Core.handle_of_ignored hecho harp hudp]
    exact hcore
  rw [ipHandle]
  by_cases hversion : (frame.bytes 14).toNat / 16 = 4
  case neg =>
    rw [if_pos hversion]
    exact ⟨[], htook, hignored (fun h => hversion h.1.2.2.1) fun h => hversion h.1.2.2.1⟩
  rw [if_neg (not_not.mpr hversion)]
  by_cases hmine : ipAt frame.bytes 30 = st.netIp
  case neg =>
    have hother : ipAt frame.bytes (14 + 16) ≠ ((st'.log [.read 14 1]).log
        [.read (14 + 16) 4, .read (14 + 12) 4]).netIp := fun h => hmine (h.trans hip)
    rw [if_pos hother]
    exact ⟨[], htook, hignored (fun h => hmine h.1.2.2.2) fun h => hmine h.1.2.2.2⟩
  have hhost : ¬ ipAt frame.bytes (14 + 16) ≠ ((st'.log [.read 14 1]).log
      [.read (14 + 16) 4, .read (14 + 12) 4]).netIp := not_not.mpr (hmine.trans hip.symm)
  have hacceptsIp : st.host.AcceptsIp frame := ⟨haccepts, htype, hversion, hmine⟩
  rw [if_neg hhost]
  by_cases hicmp : frame.bytes 23 = 1
  · have hprotocol : frame.bytes (14 + 9) = 1 := hicmp
    rw [if_pos hprotocol]
    obtain ⟨frames, htaken, hrun⟩ := @icmpHandle_core st handle bound hhandle
      (((st'.log [.read 14 1]).log [.read (14 + 16) 4, .read (14 + 12) 4]).log
        [.read (14 + 2) 2, .read 14 1, .read (14 + 9) 1]) (ipAt frame.bytes 26) frame.bytes
      (by simpa only [NetState.log_arrivals] using harrivals)
      (by simpa only [NetState.log_core] using hcore) hsmall
    refine ⟨frames, htaken, hrun.trans (congrArg (Core.run · frames) ?_)⟩
    exact (Core.handle_of_icmp hacceptsIp hicmp).symm
  rw [if_neg (show ¬ frame.bytes (14 + 9) = 1 from hicmp)]
  by_cases hudp : frame.bytes 23 = 17
  · rw [if_pos (show frame.bytes (14 + 9) = 17 from hudp)]
    obtain ⟨hsame, hcalled⟩ := @udpHandle_core st
      (((st'.log [.read 14 1]).log [.read (14 + 16) 4, .read (14 + 12) 4]).log
        [.read (14 + 2) 2, .read 14 1, .read (14 + 9) 1]) (ipAt frame.bytes 26)
      (ipAt frame.bytes 30) frame.bytes (ipPayloadLen frame.bytes)
      (by simpa only [NetState.log_arrivals] using harrivals)
      (by simpa only [NetState.log_core] using hcore)
    exact ⟨[], ⟨[], hsame.symm, rfl⟩,
      hcalled.trans (@Core.handle_of_udp frame st.core hacceptsIp hudp).symm⟩
  · rw [if_neg (show ¬ frame.bytes (14 + 9) = 17 from hudp)]
    refine ⟨[], htook, ?_⟩
    simp only [NetState.log_core]
    exact hignored (fun h => hicmp h.2.1) fun h => hudp h.2.1

/-- `net_handle_packet` handles its frame, and then those that arrive while it waits. -/
theorem netHandlePacketWith_waited (hhandle : HandlesBelow handle bound) (st : NetState)
    (frame : Frame) (hsmall : st.arrivals.length ≤ bound) :
    ∃ frames, Took st.arrivals frames (netHandlePacketWith handle st frame) ∧
      (netHandlePacketWith handle st frame).core = (st.core.handle frame).run frames := by
  have htook : Took st.arrivals [] st := ⟨[], rfl, rfl⟩
  have hignored : ¬ st.host.EchoRequest frame → ¬ st.host.ArpNews frame →
      ¬ st.host.UdpPasses frame → st.core = (st.core.handle frame).run [] := by
    intro hecho harp hudp
    rw [Core.handle_of_ignored hecho harp hudp]
    rfl
  rw [netHandlePacketWith]
  by_cases hshort : frame.len < 14
  · rw [if_pos hshort]
    exact ⟨[], htook, hignored (fun h => absurd hshort (Nat.not_lt.mpr h.1.1.1))
      (fun h => absurd hshort (Nat.not_lt.mpr h.1.1))
      fun h => absurd hshort (Nat.not_lt.mpr h.1.1.1)⟩
  rw [if_neg hshort]
  by_cases hmatch : matchedBytes st.netMac frame.bytes = 6
  case neg =>
    rw [if_pos hmatch]
    exact ⟨[], htook, hignored (fun h => hmatch h.1.1.2) (fun h => hmatch h.1.2)
      fun h => hmatch h.1.1.2⟩
  have haccepts : st.host.Accepts frame := ⟨Nat.le_of_not_lt hshort, hmatch⟩
  rw [if_neg (not_not.mpr hmatch)]
  by_cases harp : frame.etherType = 0x0806
  · rw [if_pos (show bswap16 (frame.bytes.load 12 2) = 0x0806 from harp)]
    obtain ⟨hsame, hlearned⟩ := arpHandle_core (st.log [.read 12 2,
      .read 0 (min 6 (matchedBytes st.netMac frame.bytes + 1))]) frame.bytes
    exact ⟨[], ⟨[], hsame.symm, rfl⟩,
      hlearned.trans (@Core.handle_of_arp frame st.core haccepts harp).symm⟩
  rw [if_neg (show ¬ bswap16 (frame.bytes.load 12 2) = 0x0806 from harp)]
  by_cases hip : frame.etherType = 0x0800
  · rw [if_pos (show bswap16 (frame.bytes.load 12 2) = 0x0800 from hip)]
    exact ipHandle_core hhandle (st.log [.read 12 2,
      .read 0 (min 6 (matchedBytes st.netMac frame.bytes + 1))]) haccepts hip rfl rfl hsmall
  · rw [if_neg (show ¬ bswap16 (frame.bytes.load 12 2) = 0x0800 from hip)]
    exact ⟨[], htook, hignored (fun h => hip h.1.2.1) (fun h => harp h.2.1) fun h => hip h.1.2.1⟩

/-- A handler that does so for one frame does so below any bound. -/
theorem handlesBelow_of {outer : NetState → Frame → NetState}
    (houter : ∀ st frame, st.arrivals.length < bound →
      ∃ frames, Took st.arrivals frames (outer st frame) ∧
        (outer st frame).core = (st.core.handle frame).run frames) :
    HandlesBelow outer bound := by
  intro st frame hsmall
  obtain ⟨frames, ⟨consumed, harrivals, htaken⟩, hcore⟩ := houter st frame hsmall
  refine ⟨frames, ⟨.frame frame :: consumed, ?_, ?_⟩, hcore⟩
  · exact congrArg (.frame frame :: ·) harrivals
  · exact congrArg (frame :: ·) htaken

theorem netHandleNested_handlesBelow (depth : Nat) :
    HandlesBelow (netHandleNested depth) depth := by
  induction depth with
  | zero => exact fun st frame hsmall => absurd hsmall (Nat.not_lt_zero _)
  | succ depth ih =>
      exact handlesBelow_of fun st frame hsmall =>
        netHandlePacketWith_waited ih st frame (Nat.le_of_lt_succ hsmall)

/-- `net_handle_packet` handles its frame and those that arrive in the meantime, in the
order of their arrival, whatever they are. -/
theorem netHandlePacket_handlesBelow (bound : Nat) : HandlesBelow netHandlePacket bound :=
  handlesBelow_of fun st frame _ =>
    netHandlePacketWith_waited (netHandleNested_handlesBelow _) st frame le_rfl

end GeckoOS.Net
