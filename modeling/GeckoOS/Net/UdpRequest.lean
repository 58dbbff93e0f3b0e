/-
# Requests and replies over UDP

`udp_request_start` binds the capture handler to a source port and sends a request;
`udp_request_try_reply` returns what the handler has captured, and `udp_request_finish`
clears it.  The capture handler keeps every datagram it is called with, from whoever it
comes, so the reply at hand is the last one captured.

A run is any sequence of these calls and of frames that arrive, some of them while
`udp_request_start` waits for an address.  Along it a history is kept of the datagrams
that have arrived and of those that were captured since the last start.  The last theorem
says in which states of a run `udp_request_try_reply` returns the first reply from the
request's destination.
-/

import GeckoOS.Net.Reentry

namespace GeckoOS.Net

open GeckoOS.Math ByteMap

/-! ## `udp.c`, requests -/

/-- `udp_bind`: the new table, or `none` for -1. -/
def udpBind (bindings : List Binding) (port : UInt16) (handler : Handler) :
    Option (List Binding) :=
  match bindings.findIdx? fun binding => binding.handler.isSome && binding.port == port with
  | some i => some (bindings.set i ⟨port, some handler⟩)
  | none =>
      match bindings.findIdx? fun binding => binding.handler.isNone with
      | some i => some (bindings.set i ⟨port, some handler⟩)
      | none => none

/-- `udp_unbind`. -/
def udpUnbind (bindings : List Binding) (port : UInt16) : List Binding :=
  match bindings.findIdx? fun binding => binding.port == port with
  | some i => bindings.set i ⟨0, none⟩
  | none => bindings

/-- The stack together with `s_reply_listen_port`. -/
structure RequestState where
  net : NetState
  /-- `s_reply_listen_port`. -/
  listenPort : UInt16

/-- `udp_reply_t`; `received` is set whenever there is one. -/
structure UdpReply where
  srcIp : UInt32
  srcPort : UInt16
  payload : List UInt8
  deriving DecidableEq

/-- `udp_request_start`: the return value and the state. -/
def udpRequestStart (s : RequestState) (dstIp : UInt32) (srcPort dstPort : UInt16)
    (payload : List UInt8) : Int × RequestState :=
  let net := { s.net with replyReady := false, replyLen := 0 }
  match udpBind net.bindings srcPort .capture with
  | none => (-1, ⟨net, 0⟩)
  | some bindings =>
      let net := { net with bindings := bindings }
      match udpSend netHandlePacket net dstIp srcPort dstPort (ofList payload) payload.length with
      | (rc, net) =>
          if rc ≠ 0 then (-1, ⟨{ net with bindings := udpUnbind net.bindings srcPort }, 0⟩)
          else (0, ⟨net, srcPort⟩)

/-- `udp_request_try_reply`: the return value, and the reply when it is 0. -/
def udpRequestTryReply (s : RequestState) : Int × Option UdpReply :=
  if s.listenPort = 0 then (-2, none)
  else if s.net.replyReady then
    (0, some ⟨s.net.replySrcIp, s.net.replySrcPort, s.net.replyBuf.slice 0 s.net.replyLen⟩)
  else (-1, none)

/-- `udp_request_finish`. -/
def udpRequestFinish (s : RequestState) : RequestState :=
  let bindings :=
    if s.listenPort ≠ 0 then udpUnbind s.net.bindings s.listenPort else s.net.bindings
  ⟨{ s.net with bindings := bindings, replyReady := false, replyLen := 0 }, 0⟩

/-! ## Runs -/

/-- What a successful `udp_request_start` was called with. -/
structure Request where
  dstIp : UInt32
  srcPort : UInt16
  dstPort : UInt16
  deriving DecidableEq

/-- The state and what has happened since the last call of `udp_request_start`. -/
structure RequestRun where
  state : RequestState
  /-- The outstanding request. -/
  request : Option Request
  /-- The datagrams that have arrived. -/
  arrived : List Datagram
  /-- The calls of the capture handler. -/
  captured : List Delivery

namespace RequestRun

/-- After `net_init`. -/
def boot (mac : Mac) : RequestRun := ⟨⟨.init mac, 0⟩, none, [], []⟩

/-- The datagrams for this host among the frames. -/
def datagrams (net : NetState) (frames : List Frame) : List Datagram :=
  frames.filterMap net.host.datagram

/-- The calls of the capture handler that the frames cause. -/
def captures (net : NetState) (frames : List Frame) : List Delivery :=
  (frames.flatMap (net.host.deliveries net.bindings)).filter fun call => call.handler = .capture

/-- The bindings while the request of `udp_request_start` is sent. -/
def boundFor (net : NetState) (srcPort : UInt16) : List Binding :=
  (udpBind net.bindings srcPort .capture).getD net.bindings

/-- The run after `udp_request_start`: what has been captured is forgotten, and the frames that
arrive while the request is sent are handled. -/
def start (r : RequestRun) (dstIp : UInt32) (srcPort dstPort : UInt16) (payload : List UInt8) :
    RequestRun :=
  let result := udpRequestStart r.state dstIp srcPort dstPort payload
  let frames := arrivedDuring r.state.net result.2.net
  let bound := { r.state.net with bindings := boundFor r.state.net srcPort }
  ⟨result.2, if result.1 = 0 then some ⟨dstIp, srcPort, dstPort⟩ else none,
    datagrams bound frames, captures bound frames⟩

/-- The run after `net_handle_packet` on a frame, and on those that arrive while it is
answered. -/
def receive (r : RequestRun) (frame : Frame) : RequestRun :=
  let net := netHandlePacket r.state.net frame
  let frames := frame :: arrivedDuring r.state.net net
  { r with
    state.net := net
    arrived := r.arrived ++ datagrams r.state.net frames
    captured := r.captured ++ captures r.state.net frames }

/-- One event of a run. -/
inductive Step : RequestRun → RequestRun → Prop
  /-- The device will deliver these frames next. -/
  | expect {r : RequestRun} (arrivals : List Arrival) :
      Step r { r with state.net.arrivals := arrivals }
  /-- `udp_request_start`. -/
  | start {r : RequestRun} (dstIp : UInt32) (srcPort dstPort : UInt16) (payload : List UInt8) :
      Step r (r.start dstIp srcPort dstPort payload)
  /-- A frame is received. -/
  | receive {r : RequestRun} (frame : Frame) : Step r (r.receive frame)
  /-- `udp_request_finish`. -/
  | finish {r : RequestRun} : Step r ⟨udpRequestFinish r.state, none, [], []⟩

/-- The runs from `net_init` on. -/
def Reachable (mac : Mac) : RequestRun → Prop := Relation.ReflTransGen Step (boot mac)

/-- The first datagram that arrived on the request's source port from its destination. -/
def firstReply (r : RequestRun) (request : Request) : Option Datagram :=
  r.arrived.find? fun datagram => datagram.dstPort = request.srcPort ∧
    datagram.srcIp = request.dstIp ∧ datagram.srcPort = request.dstPort

/-- Whenever `udp_request_try_reply` returns 0, the reply is the first one from the
destination of the outstanding request. -/
def RepliesRight (r : RequestRun) : Prop :=
  ∀ reply, udpRequestTryReply r.state = (0, some reply) →
    ∃ request datagram, r.request = some request ∧ r.firstReply request = some datagram ∧
      reply = ⟨datagram.srcIp, datagram.srcPort, datagram.payload.take 1472⟩

/-- The last datagram captured since the start has the sender and the payload of the first one
that arrived from the destination of the outstanding request. -/
def LastIsFirst (r : RequestRun) : Prop :=
  ∃ request datagram last, r.request = some request ∧ r.firstReply request = some datagram ∧
    r.captured.getLast? = some last ∧ last.srcIp = datagram.srcIp ∧
    last.srcPort = datagram.srcPort ∧ last.payload.take 1472 = datagram.payload.take 1472

/-- What the capture handler holds is what the calls since the last start have left there. -/
def Holds (r : RequestRun) : Prop :=
  (∀ call ∈ r.captured, call.handler = .capture) ∧
    ∃ base : Capture, base.ready = false ∧
      r.state.net.capture = r.captured.foldl Capture.take base

end RequestRun

/-! ## What the capture handler holds -/

section Capture

variable {capture base : Capture} {calls : List Delivery} {last : Delivery}

/-- Only the calls of the capture handler matter. -/
theorem Capture.foldl_take_filter (capture : Capture) (calls : List Delivery) :
    (calls.filter fun call => call.handler = .capture).foldl Capture.take capture =
      calls.foldl Capture.take capture := by
  induction calls generalizing capture with
  | nil => rfl
  | cons call calls ih =>
      cases hhandler : call.handler with
      | capture =>
          rw [List.filter_cons_of_pos (by simp [hhandler]), List.foldl_cons, List.foldl_cons, ih]
      | application id =>
          have hkept : capture.take call = capture := by
            rw [Capture.take, hhandler]
          rw [List.filter_cons_of_neg (by simp [hhandler]), List.foldl_cons, hkept, ih]

/-- The start of a buffer after a list has been copied there. -/
theorem slice_blit_ofList (bytes : ByteMap) (content : List UInt8) (bound : Nat) :
    (bytes.blit 0 (ofList content) (min content.length bound)).slice 0
      (min content.length bound) = content.take bound := by
  have hlength : (content.take bound).length = min content.length bound := by
    rw [List.length_take, Nat.min_comm]
  rw [← hlength]
  conv_rhs => rw [← slice_ofList (content.take bound)]
  refine slice_shift fun i hi => ?_
  have hshort : i < bound := by
    rw [List.length_take] at hi
    omega
  have hbyte : bytes.blit 0 (ofList content) (content.take bound).length (0 + i) =
      ofList content i := blit_apply_of_mem hi
  rw [hbyte, Nat.zero_add, ofList, ofList, List.getD_eq_getElem?_getD,
    List.getD_eq_getElem?_getD, List.getElem?_take_of_lt hshort]

/-- The capture handler holds the last datagram it was called with. -/
theorem Capture.foldl_take_of_last (hcalls : ∀ call ∈ calls, call.handler = .capture)
    (hlast : calls.getLast? = some last) :
    (calls.foldl Capture.take base).ready = true ∧
      (calls.foldl Capture.take base).srcIp = last.srcIp ∧
      (calls.foldl Capture.take base).srcPort = last.srcPort ∧
      (calls.foldl Capture.take base).buf.slice 0 (calls.foldl Capture.take base).len =
        last.payload.take 1472 := by
  obtain ⟨before, rfl⟩ := List.getLast?_eq_some_iff.mp hlast
  have hhandler : last.handler = .capture := hcalls last (by simp)
  rw [List.foldl_concat, Capture.take, hhandler]
  exact ⟨rfl, rfl, rfl, slice_blit_ofList _ _ _⟩

end Capture

/-! ## One call -/

/-- Receiving a frame captures what the frames hand to the capture handler. -/
theorem netHandlePacket_capture (st : NetState) (frame : Frame) :
    (netHandlePacket st frame).capture = (RequestRun.captures st
      (frame :: arrivedDuring st (netHandlePacket st frame))).foldl Capture.take st.capture := by
  obtain ⟨frames, htook, hcore⟩ :=
    netHandlePacketWith_waited (netHandleNested_handlesBelow _) st frame le_rfl
  have harrived : arrivedDuring st (netHandlePacket st frame) = frames := htook.arrivedDuring
  have hcapture := congrArg Core.capture hcore
  rw [Core.run_eq] at hcapture
  rw [harrived, RequestRun.captures, Capture.foldl_take_filter, List.flatMap_cons,
    List.foldl_append]
  exact hcapture

/-- So does sending, for the frames that arrive in the meantime. -/
theorem udpSend_capture (st : NetState) (dstIp : UInt32) (srcPort dstPort : UInt16)
    (payload : ByteMap) (payloadLen : Nat) :
    ∃ frames, Took st.arrivals frames
        (udpSend netHandlePacket st dstIp srcPort dstPort payload payloadLen).2 ∧
      (udpSend netHandlePacket st dstIp srcPort dstPort payload payloadLen).2.capture =
        (RequestRun.captures st frames).foldl Capture.take st.capture := by
  rw [udpSend]
  split_ifs
  · exact ⟨[], ⟨[], rfl, rfl⟩, rfl⟩
  · obtain ⟨frames, hsends⟩ := ipSend_sends (netHandlePacket_handlesBelow st.arrivals.length)
      (st.setUdpPacket (udpDatagram st.udpPacket st.netIp dstIp srcPort dstPort payload
        payloadLen)) dstIp 17
      (udpDatagram st.udpPacket st.netIp dstIp srcPort dstPort payload payloadLen)
      (8 + payloadLen) le_rfl
    obtain ⟨htook, hcore⟩ := hsends.waited
    refine ⟨frames, htook, ?_⟩
    have hcapture := congrArg Core.capture hcore
    rw [Core.run_eq] at hcapture
    rw [RequestRun.captures, Capture.foldl_take_filter]
    exact hcapture

/-- `udp_request_start` forgets the reply at hand and captures what arrives while it sends. -/
theorem udpRequestStart_capture (s : RequestState) (dstIp : UInt32) (srcPort dstPort : UInt16)
    (payload : List UInt8) :
    (udpRequestStart s dstIp srcPort dstPort payload).2.net.capture =
      (RequestRun.captures { s.net with bindings := RequestRun.boundFor s.net srcPort }
        (arrivedDuring s.net
          (udpRequestStart s dstIp srcPort dstPort payload).2.net)).foldl Capture.take
        { s.net.capture with ready := false, len := 0 } := by
  cases hbind : udpBind s.net.bindings srcPort .capture with
  | none =>
      have hstart : udpRequestStart s dstIp srcPort dstPort payload =
          (-1, ⟨{ s.net with replyReady := false, replyLen := 0 }, 0⟩) := by
        simp only [udpRequestStart, hbind]
      have hnone : arrivedDuring s.net { s.net with replyReady := false, replyLen := 0 } = [] :=
        Took.arrivedDuring ⟨[], rfl, rfl⟩
      rw [hstart, hnone]
      rfl
  | some bindings =>
      have hbound : RequestRun.boundFor s.net srcPort = bindings := by
        rw [RequestRun.boundFor, hbind, Option.getD_some]
      obtain ⟨frames, htook, hcapture⟩ := udpSend_capture
        { s.net with replyReady := false, replyLen := 0, bindings := bindings } dstIp srcPort
        dstPort (ofList payload) payload.length
      have hends : ∀ st : NetState, st.arrivals = (udpSend netHandlePacket
          { s.net with replyReady := false, replyLen := 0, bindings := bindings } dstIp srcPort
          dstPort (ofList payload) payload.length).2.arrivals →
          st.capture = (udpSend netHandlePacket
            { s.net with replyReady := false, replyLen := 0, bindings := bindings } dstIp srcPort
            dstPort (ofList payload) payload.length).2.capture →
          st.capture = (RequestRun.captures { s.net with bindings := bindings }
            (arrivedDuring s.net st)).foldl Capture.take
              { s.net.capture with ready := false, len := 0 } := by
        intro st harrivals hsame
        obtain ⟨consumed, htaken, hframes⟩ := htook
        have harrived : arrivedDuring s.net st = frames :=
          Took.arrivedDuring ⟨consumed, by rw [harrivals]; exact htaken, hframes⟩
        rw [harrived, hsame]
        exact hcapture
      rw [hbound]
      simp only [udpRequestStart, hbind]
      split_ifs
      · exact hends _ rfl rfl
      · exact hends _ rfl rfl

/-- What `udp_request_try_reply` returns. -/
theorem udpRequestTryReply_eq_zero {s : RequestState} {reply : UdpReply} :
    udpRequestTryReply s = (0, some reply) ↔ s.listenPort ≠ 0 ∧ s.net.capture.ready = true ∧
      reply = ⟨s.net.capture.srcIp, s.net.capture.srcPort,
        s.net.capture.buf.slice 0 s.net.capture.len⟩ := by
  rw [udpRequestTryReply]
  split_ifs with hport hready
  · simp [hport]
  · simpa [hport, NetState.capture, hready] using eq_comm
  · simp [NetState.capture, hready]

namespace RequestRun

variable {mac : Mac} {r r' : RequestRun}

theorem captures_handler {net : NetState} {frames : List Frame} :
    ∀ call ∈ captures net frames, call.handler = .capture := by
  intro call hcall
  simpa using (List.mem_filter.mp hcall).2

/-! ## Runs -/

/-- Every event keeps account of what has been captured. -/
theorem Holds.step (hholds : Holds r) (hstep : Step r r') : Holds r' := by
  obtain ⟨hcaptured, base, hbase, hcapture⟩ := hholds
  cases hstep with
  | expect arrivals => exact ⟨hcaptured, base, hbase, hcapture⟩
  | start dstIp srcPort dstPort payload =>
      exact ⟨captures_handler, { r.state.net.capture with ready := false, len := 0 }, rfl,
        udpRequestStart_capture r.state dstIp srcPort dstPort payload⟩
  | receive frame =>
      refine ⟨fun call hcall => ?_, base, hbase, ?_⟩
      · rcases List.mem_append.mp hcall with hold | hnew
        · exact hcaptured call hold
        · exact captures_handler call hnew
      · calc (netHandlePacket r.state.net frame).capture
            = (captures r.state.net (frame :: arrivedDuring r.state.net
                (netHandlePacket r.state.net frame))).foldl Capture.take r.state.net.capture :=
              netHandlePacket_capture r.state.net frame
          _ = (r.receive frame).captured.foldl Capture.take base := by
              rw [hcapture, ← List.foldl_append]
              rfl
  | finish => exact ⟨nofun, (udpRequestFinish r.state).net.capture, rfl, rfl⟩

theorem Reachable.holds (hreachable : Reachable mac r) : Holds r := by
  induction hreachable with
  | refl => exact ⟨nofun, (NetState.init mac).capture, rfl, rfl⟩
  | tail _ hstep ih => exact ih.step hstep

/-- Nothing captured, no reply. -/
theorem Holds.no_reply (hholds : Holds r) (hnone : r.captured = []) (reply : UdpReply) :
    udpRequestTryReply r.state ≠ (0, some reply) := by
  obtain ⟨-, base, hbase, hcapture⟩ := hholds
  rw [Ne, udpRequestTryReply_eq_zero, hcapture, hnone, List.foldl_nil, hbase]
  exact fun h => Bool.false_ne_true h.2.1

/-- The reply is the last datagram captured. -/
theorem Holds.reply (hholds : Holds r) (hport : r.state.listenPort ≠ 0) {last : Delivery}
    (hlast : r.captured.getLast? = some last) {reply : UdpReply} :
    udpRequestTryReply r.state = (0, some reply) ↔
      reply = ⟨last.srcIp, last.srcPort, last.payload.take 1472⟩ := by
  obtain ⟨hcaptured, base, -, hcapture⟩ := hholds
  obtain ⟨hready, hip, hsrcPort, hpayload⟩ :=
    @Capture.foldl_take_of_last base r.captured last hcaptured hlast
  rw [udpRequestTryReply_eq_zero, hcapture, hip, hsrcPort, hpayload]
  exact ⟨fun h => h.2.2, fun h => ⟨hport, hready, h⟩⟩

/-- **Requests.**  Whatever has happened since the stack was set up, the reply that
`udp_request_try_reply` would return is the first one from the destination of the outstanding
request exactly when no request is outstanding, or nothing has been captured since its start,
or what was captured last says the same as that first reply. -/
theorem repliesRight_iff (hreachable : Reachable mac r) :
    RepliesRight r ↔ r.state.listenPort = 0 ∨ r.captured = [] ∨ LastIsFirst r := by
  have hholds := hreachable.holds
  by_cases hport : r.state.listenPort = 0
  · refine iff_of_true (fun reply hreply => ?_) (.inl hport)
    exact absurd hport (udpRequestTryReply_eq_zero.mp hreply).1
  rw [or_iff_right hport]
  cases hlast : r.captured.getLast? with
  | none =>
      have hnone := List.getLast?_eq_none_iff.mp hlast
      exact iff_of_true (fun reply hreply => absurd hreply (hholds.no_reply hnone reply))
        (.inl hnone)
  | some last =>
      have hsome : r.captured ≠ [] := by
        intro hnone
        rw [hnone] at hlast
        cases hlast
      rw [or_iff_right hsome]
      constructor
      · intro hright
        obtain ⟨request, datagram, hrequest, hfirst, hreply⟩ :=
          hright _ ((hholds.reply hport hlast).mpr rfl)
        injection hreply with hip hsrcPort hpayload
        exact ⟨request, datagram, last, hrequest, hfirst, hlast, hip, hsrcPort, hpayload⟩
      · rintro ⟨request, datagram, last', hrequest, hfirst, hlast', hip, hsrcPort, hpayload⟩ reply
          hreply
        obtain rfl := Option.some.inj (hlast.symm.trans hlast')
        refine ⟨request, datagram, hrequest, hfirst, ?_⟩
        rw [(hholds.reply hport hlast).mp hreply, hip, hsrcPort, hpayload]

/-! ## Two runs -/

/-- A datagram for port 7000 of 10.0.2.15, from port 7 of 10.0.2.9 or of 10.0.2.7. -/
def reply9 : Frame where
  bytes := ofList [1, 1, 1, 1, 1, 1, 9, 9, 9, 9, 9, 9, 8, 0,
    0x45, 0, 0, 29, 0, 0, 0, 0, 64, 17, 98, 185, 10, 0, 2, 9, 10, 0, 2, 15,
    0, 7, 27, 88, 0, 9, 0, 0, 5]
  len := 43

@[inherit_doc reply9]
def reply7 : Frame where
  bytes := ofList [1, 1, 1, 1, 1, 1, 7, 7, 7, 7, 7, 7, 8, 0,
    0x45, 0, 0, 29, 0, 0, 0, 0, 64, 17, 98, 187, 10, 0, 2, 7, 10, 0, 2, 15,
    0, 7, 27, 88, 0, 9, 0, 0, 6]
  len := 43

/-- A request to port 7 of 10.0.2.9 is outstanding. -/
def asked : RequestRun := (boot fun _ => 1).start 0x0A000209 7000 7 [1]

/-- It has been answered. -/
theorem repliesRight_answered : RepliesRight (asked.receive reply9) := by
  have hreachable : Reachable (fun _ => 1) (asked.receive reply9) :=
    .tail (.tail .refl (.start 0x0A000209 7000 7 [1])) (.receive reply9)
  refine (repliesRight_iff hreachable).mpr (.inr (.inr ?_))
  have hsame : ((asked.receive reply9).firstReply ⟨0x0A000209, 7000, 7⟩).any (fun datagram =>
      (asked.receive reply9).captured.getLast?.any fun last => decide
        (last.srcIp = datagram.srcIp ∧ last.srcPort = datagram.srcPort ∧
          last.payload.take 1472 = datagram.payload.take 1472)) := by decide +kernel
  obtain ⟨datagram, hfirst, hany⟩ := (Option.any_eq_true _ _).mp hsame
  obtain ⟨last, hlast, hequal⟩ := (Option.any_eq_true _ _).mp hany
  exact ⟨⟨0x0A000209, 7000, 7⟩, datagram, last, by decide +kernel, hfirst, hlast,
    of_decide_eq_true hequal⟩

/-- Or a datagram of somebody else has come to its port. -/
theorem strayed_not_repliesRight :
    Reachable (fun _ => 1) (asked.receive reply7) ∧ ¬ RepliesRight (asked.receive reply7) := by
  refine ⟨.tail (.tail .refl (.start 0x0A000209 7000 7 [1])) (.receive reply7), fun hright => ?_⟩
  obtain ⟨request, datagram, hrequest, hfirst, -⟩ :=
    hright ⟨0x0A000207, 7, [6]⟩ (by decide +kernel)
  have hasked : (asked.receive reply7).request = some ⟨0x0A000209, 7000, 7⟩ := by decide +kernel
  obtain rfl := Option.some.inj (hasked.symm.trans hrequest)
  have hnone : ((asked.receive reply7).firstReply ⟨0x0A000209, 7000, 7⟩).isNone := by
    decide +kernel
  rw [hfirst] at hnone
  cases hnone

end RequestRun

end GeckoOS.Net
