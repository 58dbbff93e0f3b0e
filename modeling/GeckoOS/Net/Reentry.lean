/-
# Sending while frames arrive

`ip_send` builds its packet in a static buffer and then waits for its next hop to
resolve.  Frames that arrive in the meantime are handled on the spot, and the answer to
an echo request is built in the same buffer.

This module says exactly when the frame that is finally sent still carries the packet it
was built for: the frames that arrive must leave the packet's fields and payload in the
buffer as they were, which they do in particular when none of them is an echo request
for this host.
-/

import GeckoOS.Net.FrameEffects
import GeckoOS.Net.UdpRoundTrip

namespace GeckoOS.Net

open GeckoOS.Math ByteMap

/-- The packet at `base` is for this destination and protocol, and this is its payload. -/
structure Carries (bytes : ByteMap) (base : Nat) (dstIp : UInt32) (protocol : UInt8)
    (payload : List UInt8) : Prop where
  totalLen : bswap16 (bytes.load (base + 2) 2) = 20 + payload.length
  protocol : bytes (base + 9) = protocol
  dstIp : ipAt bytes (base + 16) = dstIp
  payload : bytes.slice (base + 20) payload.length = payload

/-- The frames that were taken from the device between two states. -/
def arrivedDuring (st st' : NetState) : List Frame :=
  arrivedFrames (st.arrivals.take (st.arrivals.length - st'.arrivals.length))

/-- The frame with its packet that a call of `ip_send` has passed on when it ends in this
state: the last one sent, if its next hop has been resolved, and else none. -/
def passedOn (st' : NetState) (hop : UInt32) : Option (List UInt8) :=
  if (arpResolve st' hop).isSome then st'.sent.getLast? else none

/-- The call of `ip_send` from `st` that ends in `st'` passes on what it was called with,
if it passes on a frame. -/
def SendsItsPacket (st st' : NetState) (dstIp : UInt32) (protocol : UInt8)
    (payload : List UInt8) : Prop :=
  ∀ frame, passedOn st' (nextHop st dstIp) = some frame →
    20 + payload.length ≤ Buffer.ipTx.size ∧ frame.length = 34 + payload.length ∧
      Carries (ofList frame) 14 dstIp protocol payload

/-- Not even these frames bring the address of the next hop. -/
def StaysUnresolved (st : NetState) (dstIp : UInt32) (frames : List Frame) : Prop :=
  arpResolve { st with arpCache := frames.foldl st.host.learn st.arpCache } (nextHop st dstIp) =
    none

/-- The packet fits the buffer, and the answers to these frames leave it there. -/
def KeepsPacket (st : NetState) (dstIp : UInt32) (protocol : UInt8) (payload : List UInt8)
    (frames : List Frame) : Prop :=
  20 + payload.length ≤ Buffer.ipTx.size ∧
    Carries (frames.foldl st.host.answer ⟨st.icmpReplyBuf, ipPacket st.ipTxBuf st.netIp dstIp
      protocol.toNat (ofList payload) payload.length⟩).ipTx 0 dstIp protocol payload

variable {st st' : NetState} {dstIp : UInt32} {protocol : UInt8} {payload : List UInt8}
  {frames : List Frame} {bytes other : ByteMap} {base elsewhere : Nat}

/-- Only the packet's own bytes matter. -/
theorem Carries.congr (hcarries : Carries bytes base dstIp protocol payload)
    (hagree : ∀ i < 20 + payload.length, other (elsewhere + i) = bytes (base + i)) :
    Carries other elsewhere dstIp protocol payload where
  totalLen := by
    rw [← hcarries.totalLen]
    refine congrArg bswap16 (load_shift fun i hi => ?_)
    rw [Nat.add_assoc, Nat.add_assoc]
    exact hagree _ (by omega)
  protocol := (hagree 9 (by omega)).trans hcarries.protocol
  dstIp := by
    rw [← hcarries.dstIp]
    refine ipAt_congr fun i hi => ?_
    rw [Nat.add_assoc, Nat.add_assoc]
    exact hagree _ (by omega)
  payload := by
    refine (slice_shift fun i hi => ?_).trans hcarries.payload
    rw [Nat.add_assoc, Nat.add_assoc]
    exact hagree _ (by omega)

/-- The packet `ip_send` builds carries what it was called with. -/
theorem ipPacket_carries (tx : ByteMap) (srcIp : UInt32)
    (hfits : 20 + payload.length ≤ Buffer.ipTx.size) :
    Carries (ipPacket tx srcIp dstIp protocol.toNat (ofList payload) payload.length) 0 dstIp
      protocol payload where
  totalLen := by
    have hsmall : 20 + payload.length < 2 ^ 16 := Nat.lt_of_le_of_lt hfits (by decide)
    rw [Nat.zero_add, ipPacket_totalLen, bswap16_bswap16, Nat.mod_eq_of_lt hsmall]
  protocol := by
    rw [Nat.zero_add, ipPacket_protocol, UInt8.ofNat_toNat]
  dstIp := by
    rw [Nat.zero_add, ipPacket_dstIp]
  payload := by
    conv_rhs => rw [← slice_ofList payload]
    refine slice_shift fun i hi => ?_
    rw [Nat.zero_add, Nat.zero_add, ipPacket_payload hi]

/-- Frames other than echo requests leave the packet in the buffer. -/
theorem keepsPacket_of_no_echo (hfits : 20 + payload.length ≤ Buffer.ipTx.size)
    (hecho : ∀ frame ∈ frames, ¬ st.host.EchoRequest frame) :
    KeepsPacket st dstIp protocol payload frames := by
  have hkept : ∀ buffers : AnswerBuffers, frames.foldl st.host.answer buffers = buffers := by
    intro buffers
    induction frames with
    | nil => rfl
    | cons frame frames ih =>
        rw [List.foldl_cons, Host.answer, if_neg (hecho frame List.mem_cons_self)]
        exact ih fun frame hframe => hecho frame (List.mem_cons_of_mem _ hframe)
  refine ⟨hfits, ?_⟩
  rw [hkept]
  exact ipPacket_carries _ _ hfits

/-- What was taken from the device between two states is determined by them. -/
theorem Took.arrivedDuring (htook : Took st.arrivals frames st') :
    arrivedDuring st st' = frames := by
  obtain ⟨consumed, harrivals, htaken⟩ := htook
  rw [Net.arrivedDuring, harrivals, List.length_append, Nat.add_sub_cancel, List.take_left, htaken]

/-- The frame passed on holds the packet that is in the buffer when it is sent. -/
theorem ipTransmit_passedOn {before : NetState} {mac : Mac} {hop : UInt32} {len : Nat}
    (hresolve : arpResolve before hop = some mac) :
    ∃ frame, passedOn (ipTransmit before mac len) hop = some frame ∧
      (20 + len ≤ Buffer.ipTx.size → frame.length = 34 + len ∧
        ∀ i < 20 + len, ofList frame (14 + i) = before.ipTxBuf i) := by
  refine ⟨(ethFrame before.netTxBuf mac before.netMac 0x0800 before.ipTxBuf
    ((20 + len) % 2 ^ 16)).slice 0 ((14 + (20 + len) % 2 ^ 16) % 2 ^ 16), ?_, fun hfits => ?_⟩
  · have hresolved : arpResolve (ipTransmit before mac len) hop = some mac := hresolve
    rw [passedOn, hresolved]
    exact List.getLast?_concat
  · have hsmall : 20 + len ≤ 1514 := hfits
    have hpacket : (20 + len) % 2 ^ 16 = 20 + len := Nat.mod_eq_of_lt (by omega)
    have hframe : (14 + (20 + len)) % 2 ^ 16 = 34 + len := by omega
    rw [hpacket, hframe]
    refine ⟨length_slice _, fun i hi => ?_⟩
    rw [ofList_slice (by omega), Nat.zero_add, ethFrame_payload hi]

/-- An echo request from 10.0.2.7, without data. -/
def smallEcho : Frame where
  bytes := ofList [1, 1, 1, 1, 1, 1, 7, 7, 7, 7, 7, 7, 8, 0,
    0x45, 0, 0, 28, 0, 0, 0, 0, 64, 1, 0, 0, 10, 0, 2, 7, 10, 0, 2, 15,
    8, 0, 0, 0, 0, 0, 0, 0]
  len := 42

/-- An ARP reply of 10.0.2.9. -/
def arpReply : Frame where
  bytes := ofList [1, 1, 1, 1, 1, 1, 9, 9, 9, 9, 9, 9, 8, 6,
    0, 1, 8, 0, 6, 4, 0, 2, 9, 9, 9, 9, 9, 9, 10, 0, 2, 9,
    1, 1, 1, 1, 1, 1, 10, 0, 2, 15]
  len := 42

/-- The host knows 10.0.2.7, and both frames are about to arrive. -/
def pinged : NetState :=
  { NetState.init (fun _ => 1) with
    arpCache := [⟨0x0A000207, fun _ => 7, true⟩, ⟨0, fun _ => 0, false⟩]
    arrivals := [.frame smallEcho, .frame arpReply] }

end GeckoOS.Net
