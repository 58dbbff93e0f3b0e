/-
# Which frames stay in bounds

The receive path is handed a frame and its length, checks the length once against
the Ethernet header, and from there on believes the length fields inside.  This
module says exactly which frames it handles without reading behind their end or
writing behind the end of a packet buffer.

Each handler's accesses are the recorded ones of its own statements and of the
handlers it calls, so the condition is assembled the same way: one lemma for each
handler, each an equivalence.  A reply leaves through `ip_send`, which may handle
other frames in between; whatever those do, the accesses of the reply itself are
writes to the two transmit buffers of sizes known in advance.
-/

import GeckoOS.Net.Stack

namespace GeckoOS.Net

open GeckoOS.Math ByteMap

/-- Every byte accessed is one of the frame's first `len`, or one of the buffer's. -/
def Access.InBounds (len : Nat) : Access → Prop
  | .read offset count => ∀ i < count, offset + i < len
  | .write buffer offset count => ∀ i < count, offset + i < buffer.size

/-- Every access recorded so far is in bounds. -/
def InBounds (len : Nat) (st : NetState) : Prop := ∀ access ∈ st.accesses, access.InBounds len

section Log

variable {len : Nat} {st : NetState}

theorem forall_lt_add_iff {offset count bound : Nat} :
    (∀ i < count, offset + i < bound) ↔ count = 0 ∨ offset + count ≤ bound := by
  constructor
  · intro hall
    rcases Nat.eq_zero_or_pos count with hzero | hpos
    · exact .inl hzero
    · have hlast := hall (count - 1) (by omega)
      exact .inr (by omega)
  · rintro (rfl | hle) i hi
    · exact absurd hi (Nat.not_lt_zero i)
    · omega

@[simp]
theorem read_inBounds {offset count : Nat} :
    (Access.read offset count).InBounds len ↔ count = 0 ∨ offset + count ≤ len :=
  forall_lt_add_iff

@[simp]
theorem write_inBounds {buffer : Buffer} {offset count : Nat} :
    (Access.write buffer offset count).InBounds len ↔
      count = 0 ∨ offset + count ≤ buffer.size :=
  forall_lt_add_iff

/-- Recording accesses adds them to what must be in bounds. -/
theorem inBounds_log {made : List Access} :
    InBounds len (st.log made) ↔ InBounds len st ∧ ∀ access ∈ made, access.InBounds len := by
  simp only [InBounds, NetState.log, List.mem_append]
  exact ⟨fun hall => ⟨fun a ha => hall a (.inl ha), fun a ha => hall a (.inr ha)⟩,
    fun hall a ha => ha.elim (hall.1 a) (hall.2 a)⟩

/-- Only the record matters. -/
theorem inBounds_of_accesses_eq {other : NetState} (hsame : other.accesses = st.accesses) :
    InBounds len other ↔ InBounds len st := by
  rw [InBounds, InBounds, hsame]

end Log

/-! ## Sending -/

section Sending

variable {handle : NetState → Frame → NetState} {st : NetState} {len payloadLen : Nat}

theorem netSendFrame_accesses (dstMac : Mac) (etherType : Nat) (payload : ByteMap) (n : Nat) :
    (netSendFrame st dstMac etherType payload n).accesses =
      st.accesses ++ [.write .netTx 0 14, .write .netTx 14 n] := rfl

/-- A frame handled in between leaves the record alone. -/
theorem drain_accesses (pending : Nat) (st : NetState) :
    (drain handle pending st).accesses = st.accesses := by
  induction pending generalizing st with
  | zero => rfl
  | succ pending ih =>
      rw [drain]
      cases hreceive : e1000Receive st with
      | none => rfl
      | some received =>
          have hkept : received.2.accesses = st.accesses := by
            rw [e1000Receive] at hreceive
            split at hreceive
            · obtain rfl := Option.some.inj hreceive
              rfl
            · cases hreceive
          exact (ih _).trans hkept

theorem timerWait_accesses (st : NetState) : (timerWait st).accesses = st.accesses := by
  rw [timerWait]
  split <;> rfl

/-- The writes of `ip_send` once its packet is built: request frames for the next
hop and at most one frame with the packet. -/
def TransmitWrites (payloadLen : Nat) (made : List Access) : Prop :=
  ∀ access ∈ made, access = .write .netTx 0 14 ∨ access = .write .netTx 14 28 ∨
    access = .write .netTx 14 ((20 + payloadLen) % 2 ^ 16)

theorem ipTransmit_accesses (st : NetState) (mac : Mac) (payloadLen : Nat) :
    ∃ made, (ipTransmit st mac payloadLen).accesses = st.accesses ++ made ∧
      TransmitWrites payloadLen made := by
  refine ⟨_, netSendFrame_accesses _ _ _ _, ?_⟩
  intro access haccess
  simp only [List.mem_cons, List.not_mem_nil, or_false] at haccess
  rcases haccess with rfl | rfl
  · exact .inl rfl
  · exact .inr (.inr rfl)

theorem ipPoll_accesses (hop : UInt32) (payloadLen ticks : Nat) (st : NetState) :
    ∃ made, (ipPoll handle hop payloadLen ticks st).2.accesses = st.accesses ++ made ∧
      TransmitWrites payloadLen made := by
  induction ticks generalizing st with
  | zero => exact ⟨[], (List.append_nil _).symm, nofun⟩
  | succ ticks ih =>
      have hdrained := @drain_accesses handle st.arrivals.length st
      rw [ipPoll]
      cases hresolve : arpResolve (drain handle st.arrivals.length st) hop with
      | some mac =>
          obtain ⟨made, hmade, hwrites⟩ :=
            ipTransmit_accesses (drain handle st.arrivals.length st) mac payloadLen
          exact ⟨made, by rw [← hdrained]; exact hmade, hwrites⟩
      | none =>
          obtain ⟨made, hmade, hwrites⟩ := ih (timerWait (drain handle st.arrivals.length st))
          rw [timerWait_accesses, hdrained] at hmade
          exact ⟨made, hmade, hwrites⟩

theorem ipAttempt_accesses (hop : UInt32) (payloadLen attempts : Nat) (st : NetState) :
    ∃ made, (ipAttempt handle hop payloadLen attempts st).accesses = st.accesses ++ made ∧
      TransmitWrites payloadLen made := by
  induction attempts generalizing st with
  | zero => exact ⟨[], (List.append_nil _).symm, nofun⟩
  | succ attempts ih =>
      rw [ipAttempt]
      cases hresolve : arpResolve st hop with
      | some mac => exact ipTransmit_accesses st mac payloadLen
      | none =>
          obtain ⟨polled, hpolled, hpolledWrites⟩ :=
            @ipPoll_accesses handle hop payloadLen 20 (arpRequest st hop)
          have hrequest : (arpRequest st hop).accesses =
              st.accesses ++ [.write .netTx 0 14, .write .netTx 14 28] := rfl
          have hfirst : TransmitWrites payloadLen
              ([.write .netTx 0 14, .write .netTx 14 28] ++ polled) := by
            intro access haccess
            rcases List.mem_append.mp haccess with hrequested | hlater
            · simp only [List.mem_cons, List.not_mem_nil, or_false] at hrequested
              exact hrequested.imp_right .inl
            · exact hpolledWrites access hlater
          rw [hrequest, List.append_assoc] at hpolled
          rcases hpoll : ipPoll handle hop payloadLen 20 (arpRequest st hop) with ⟨_ | _, after⟩
          · rw [hpoll] at hpolled
            obtain ⟨made, hmade, hwrites⟩ := ih after
            refine ⟨[.write .netTx 0 14, .write .netTx 14 28] ++ polled ++ made, ?_, ?_⟩
            · rw [← List.append_assoc, ← hpolled]
              exact hmade
            · intro access haccess
              rcases List.mem_append.mp haccess with hbefore | hlater
              · exact hfirst access hbefore
              · exact hwrites access hlater
          · rw [hpoll] at hpolled
            exact ⟨_, hpolled, hfirst⟩

/-- `ip_send` records the writes of its packet, then those of frames. -/
theorem ipSend_accesses (handle : NetState → Frame → NetState) (st : NetState) (dstIp : UInt32)
    (protocol : Nat) (payload : ByteMap) (payloadLen : Nat) :
    ∃ made, (ipSend handle st dstIp protocol payload payloadLen).accesses =
        ((st.log [.write .ipTx 0 20, .write .ipTx 20 payloadLen, .write .ipTx 10 2]).log
          made).accesses ∧
      TransmitWrites payloadLen made := by
  rw [ipSend]
  exact ipAttempt_accesses _ _ _ _

/-- `ip_send` of a payload that fits its buffer adds nothing out of bounds. -/
theorem ipSend_inBounds (dstIp : UInt32) (protocol : Nat) (payload : ByteMap)
    (hsmall : payloadLen ≤ 1494) :
    InBounds len (ipSend handle st dstIp protocol payload payloadLen) ↔ InBounds len st := by
  have hbuffers : Buffer.ipTx.size = 1514 ∧ Buffer.netTx.size = 2048 := ⟨rfl, rfl⟩
  obtain ⟨made, hmade, hwrites⟩ := ipSend_accesses handle st dstIp protocol payload payloadLen
  rw [inBounds_of_accesses_eq hmade, inBounds_log, inBounds_log]
  constructor
  · exact fun hall => hall.1.1
  · refine fun hall => ⟨⟨hall, ?_⟩, fun access haccess => ?_⟩
    · simp only [List.forall_mem_cons, write_inBounds]
      refine ⟨?_, ?_, ?_, nofun⟩ <;> omega
    · rcases hwrites access haccess with rfl | rfl | rfl <;> rw [write_inBounds] <;> omega

/-- Whatever `ip_send` adds, what was recorded before it stays. -/
theorem inBounds_of_ipSend {dstIp : UInt32} {protocol : Nat} {payload : ByteMap}
    (hsent : InBounds len (ipSend handle st dstIp protocol payload payloadLen)) :
    InBounds len st := by
  obtain ⟨made, hmade, -⟩ := ipSend_accesses handle st dstIp protocol payload payloadLen
  rw [inBounds_of_accesses_eq hmade, inBounds_log, inBounds_log] at hsent
  exact hsent.1.1

/-- A frame sent is in bounds when it fits the transmit buffer. -/
theorem netSendFrame_inBounds {dstMac : Mac} {etherType n : Nat} {payload : ByteMap} :
    InBounds len (netSendFrame st dstMac etherType payload n) ↔
      InBounds len st ∧ 14 + n ≤ 2048 := by
  have hbuffer : Buffer.netTx.size = 2048 := rfl
  have hlogged : (netSendFrame st dstMac etherType payload n).accesses =
      (st.log [.write .netTx 0 14, .write .netTx 14 n]).accesses := rfl
  rw [inBounds_of_accesses_eq hlogged, inBounds_log]
  simp only [List.forall_mem_cons, write_inBounds, hbuffer]
  constructor
  · rintro ⟨hst, -, hpayload, -⟩
    exact ⟨hst, by omega⟩
  · rintro ⟨hst, hfits⟩
    exact ⟨hst, by omega, by omega, nofun⟩

end Sending

/-! ## Receiving -/

section Receiving

variable {handle : NetState → Frame → NetState} {st : NetState} {bytes : ByteMap} {len : Nat}

/-- `arp_handle` reads the packet up to its target address, whatever `len` is. -/
theorem arpHandle_inBounds : InBounds len (arpHandle st bytes 14) ↔ InBounds len st ∧ 42 ≤ len := by
  have hfields : InBounds len (st.log [.read (14 + 6) 2, .read (14 + 24) 4, .read (14 + 14) 4]) ↔
      InBounds len st ∧ 42 ≤ len := by
    rw [inBounds_log]
    simp only [List.forall_mem_cons, read_inBounds]
    constructor
    · rintro ⟨hst, -, htarget, -⟩
      exact ⟨hst, by omega⟩
    · rintro ⟨hst, hfits⟩
      exact ⟨hst, by omega, by omega, by omega, nofun⟩
  rw [arpHandle]
  generalize st.log [.read (14 + 6) 2, .read (14 + 24) 4, .read (14 + 14) 4] = read at hfields
  -- What follows reads the same packet again and sends at most 42 bytes.
  have hreply : ∀ (dstMac : Mac) (payload : ByteMap),
      InBounds len (netSendFrame
        (read.log [.read (14 + 8) 6, .read (14 + 14) 4, .read (14 + 8) 6])
          dstMac 0x0806 payload 28) ↔
      InBounds len st ∧ 42 ≤ len := by
    intro dstMac payload
    rw [netSendFrame_inBounds, inBounds_log, hfields]
    simp only [List.forall_mem_cons, read_inBounds]
    constructor
    · exact fun hall => hall.1.1
    · rintro ⟨hst, hfits⟩
      exact ⟨⟨⟨hst, hfits⟩, by omega, by omega, by omega, nofun⟩, by omega⟩
  have hcache : ∀ (reached : NetState) (cache : List ArpEntry),
      (InBounds len reached ↔ InBounds len st ∧ 42 ≤ len) →
      (InBounds len { reached.log [.read (14 + 8) 6] with arpCache := cache } ↔
        InBounds len st ∧ 42 ≤ len) := by
    intro reached cache hreached
    change InBounds len (reached.log [.read (14 + 8) 6]) ↔ _
    rw [inBounds_log, hreached]
    simp only [List.forall_mem_cons, read_inBounds]
    constructor
    · exact fun hall => hall.1
    · rintro ⟨hst, hfits⟩
      exact ⟨⟨hst, hfits⟩, by omega, nofun⟩
  split_ifs
  · split
    · exact hcache _ _ (hreply _ _)
    · exact hreply _ _
  · split
    · exact hcache _ _ hfields
    · exact hfields
  · exact hreply _ _
  · exact hfields

/-- The payload length `ip_handle` computes: it may wrap. -/
def ipPayloadLen (bytes : ByteMap) : Nat :=
  (bswap16 (bytes.load 16 2) + 2 ^ 16 - (bytes 14).toNat % 16 * 4) % 2 ^ 16

/-- The payload length of an echo request: it may wrap again. -/
def echoLen (bytes : ByteMap) : Nat := (ipPayloadLen bytes + 2 ^ 16 - 8) % 2 ^ 16

/-- An echo request lies inside the frame, and its answer inside `reply_buf`. -/
def IcmpFits (bytes : ByteMap) (len : Nat) : Prop :=
  35 ≤ len ∧ (bytes 34 = 8 → 42 + echoLen bytes ≤ len ∧ 8 + echoLen bytes ≤ 1024)

theorem icmpHandle_inBounds {srcIp : UInt32} :
    InBounds len (icmpHandle handle st srcIp bytes 34 (ipPayloadLen bytes)) ↔
      InBounds len st ∧ IcmpFits bytes len := by
  have hbuffer : Buffer.icmpReply.size = 1024 := rfl
  have htype : InBounds len (st.log [.read 34 1]) ↔ InBounds len st ∧ 35 ≤ len := by
    rw [inBounds_log]
    simp only [List.forall_mem_cons, read_inBounds]
    exact ⟨fun hall => ⟨hall.1, by omega⟩, fun hall => ⟨hall.1, by omega, nofun⟩⟩
  rw [icmpHandle, IcmpFits]
  by_cases hecho : bytes 34 = 8
  · rw [if_pos hecho]
    change InBounds len (ipSend handle _ srcIp 1 _ ((8 + echoLen bytes) % 2 ^ 16)) ↔ _
    -- The accesses made before the answer is sent decide.
    have hbefore : ∀ reply : ByteMap,
        InBounds len { (st.log [.read 34 1]).log [.read (34 + 4) 2, .read (34 + 6) 2,
          .write .icmpReply 0 8, .read (34 + 8) (echoLen bytes),
          .write .icmpReply 8 (echoLen bytes), .write .icmpReply 2 2] with
            icmpReplyBuf := reply } ↔
        InBounds len st ∧ 35 ≤ len ∧
          (bytes 34 = 8 → 42 + echoLen bytes ≤ len ∧ 8 + echoLen bytes ≤ 1024) := by
      intro reply
      change InBounds len ((st.log [.read 34 1]).log [.read (34 + 4) 2, .read (34 + 6) 2,
          .write .icmpReply 0 8, .read (34 + 8) (echoLen bytes),
          .write .icmpReply 8 (echoLen bytes), .write .icmpReply 2 2]) ↔ _
      rw [inBounds_log, htype]
      simp only [List.forall_mem_cons, read_inBounds, write_inBounds, hbuffer]
      constructor
      · rintro ⟨⟨hst, hfirst⟩, -, hsequence, -, hpayload, hreply, -⟩
        exact ⟨hst, hfirst, fun _ => by omega⟩
      · rintro ⟨hst, hfirst, hfits⟩
        obtain ⟨hinside, hanswer⟩ := hfits hecho
        exact ⟨⟨hst, hfirst⟩, by omega, by omega, by omega, by omega, by omega, by omega, nofun⟩
    constructor
    · intro hsent
      exact (hbefore _).mp (inBounds_of_ipSend hsent)
    · intro hfits
      obtain ⟨hinside, hanswer⟩ := hfits.2.2 hecho
      exact (ipSend_inBounds _ _ _ (by omega)).mpr ((hbefore _).mpr hfits)
  · rw [if_neg hecho]
    have hplain : InBounds len (st.log [.read 34 1]) ↔
        InBounds len st ∧ 35 ≤ len ∧
          (bytes 34 = 8 → 42 + echoLen bytes ≤ len ∧ 8 + echoLen bytes ≤ 1024) := by
      rw [htype]
      exact ⟨fun h => ⟨h.1, h.2, fun hyes => absurd hyes hecho⟩, fun h => ⟨h.1, h.2.1⟩⟩
    split_ifs
    · exact hplain
    · exact hplain

/-- A datagram's header, the bytes its checksum covers, and what the capture
handler copies lie inside the frame. -/
def UdpFits (bindings : List Binding) (bytes : ByteMap) (len : Nat) : Prop :=
  let udpLen := bswap16 (bytes.load 38 2)
  ipPayloadLen bytes < 8 ∨
    40 ≤ len ∧ (udpLen < 8 ∨ ipPayloadLen bytes < udpLen ∨
      42 ≤ len ∧ (bytes.load 40 2 ≠ 0 → 34 + udpLen ≤ len) ∧
        (bytes.load 40 2 = 0 → boundHandler bindings (portAt bytes 36) = some .capture →
          42 + min (udpLen - 8) 1472 ≤ len))

/-- Only the capture handler reads the payload here. -/
theorem invoke_inBounds {handler : Handler} {srcIp : UInt32} {srcPort : UInt16}
    {payload payloadLen : Nat} :
    InBounds len (invoke st handler srcIp srcPort bytes payload payloadLen) ↔
      InBounds len st ∧ (handler = .capture →
        min payloadLen 1472 = 0 ∨ payload + min payloadLen 1472 ≤ len) := by
  have hbuffer : Buffer.captureReply.size = 1472 := rfl
  cases handler with
  | application id => exact ⟨fun h => ⟨h, nofun⟩, fun h => h.1⟩
  | capture =>
      change InBounds len (st.log [.read payload (min payloadLen 1472),
        .write .captureReply 0 (min payloadLen 1472)]) ↔ _
      rw [inBounds_log]
      simp only [List.forall_mem_cons, read_inBounds, write_inBounds, hbuffer, forall_const]
      constructor
      · rintro ⟨hst, hread, -⟩
        exact ⟨hst, hread⟩
      · rintro ⟨hst, hfits⟩
        exact ⟨hst, hfits, by omega, nofun⟩

theorem udpHandle_inBounds {srcIp dstIp : UInt32} :
    InBounds len (udpHandle st srcIp dstIp bytes 34 (ipPayloadLen bytes)) ↔
      InBounds len st ∧ UdpFits st.bindings bytes len := by
  rw [udpHandle, UdpFits]
  by_cases hshort : ipPayloadLen bytes < 8
  · rw [if_pos hshort]
    exact ⟨fun h => ⟨h, .inl hshort⟩, fun h => h.1⟩
  rw [if_neg hshort]
  generalize hudp : bswap16 (bytes.load (34 + 4) 2) = udpLen
  simp only [hshort, false_or]
  have hlength : InBounds len (st.log [.read (34 + 4) 2]) ↔ InBounds len st ∧ 40 ≤ len := by
    rw [inBounds_log]
    simp only [List.forall_mem_cons, read_inBounds]
    exact ⟨fun h => ⟨h.1, by omega⟩, fun h => ⟨h.1, by omega, nofun⟩⟩
  by_cases hrefused : udpLen < 8 ∨ ipPayloadLen bytes < udpLen
  · rw [if_pos hrefused, hlength]
    exact ⟨fun h => ⟨h.1, h.2, hrefused.imp_right .inl⟩, fun h => ⟨h.1, h.2.1⟩⟩
  rw [if_neg hrefused]
  rw [not_or] at hrefused
  simp only [hrefused, false_or]
  have hchecksum : InBounds len ((st.log [.read (34 + 4) 2]).log [.read (34 + 6) 2]) ↔
      InBounds len st ∧ 42 ≤ len := by
    rw [inBounds_log, hlength]
    simp only [List.forall_mem_cons, read_inBounds]
    exact ⟨fun h => ⟨h.1.1, by omega⟩, fun h => ⟨⟨h.1, by omega⟩, by omega, nofun⟩⟩
  -- The state once the checksum, if there is one, has been computed.
  have hverified : ∀ reached : NetState, reached.bindings = st.bindings →
      (InBounds len reached ↔ InBounds len st ∧ 42 ≤ len ∧
        (bytes.load 40 2 ≠ 0 → 34 + udpLen ≤ len)) →
      (InBounds len (udpDispatch reached srcIp bytes 34 udpLen) ↔
      InBounds len st ∧ 40 ≤ len ∧ 42 ≤ len ∧ (bytes.load 40 2 ≠ 0 → 34 + udpLen ≤ len) ∧
        (bytes.load 40 2 = 0 → boundHandler st.bindings (portAt bytes 36) = some .capture →
          42 + min (udpLen - 8) 1472 ≤ len)) := by
    intro reached hbindings hreached
    have hports : InBounds len (reached.log [.read (34 + 2) 2, .read 34 2]) ↔
        InBounds len st ∧ 42 ≤ len ∧ (bytes.load 40 2 ≠ 0 → 34 + udpLen ≤ len) := by
      rw [inBounds_log, hreached]
      simp only [List.forall_mem_cons, read_inBounds]
      exact ⟨fun h => h.1, fun h => ⟨h, by omega, by omega, nofun⟩⟩
    have hsame : boundHandler (reached.log [.read (34 + 2) 2, .read 34 2]).bindings
        (portAt bytes (34 + 2)) = boundHandler st.bindings (portAt bytes 36) :=
      congrArg (boundHandler · (portAt bytes 36)) hbindings
    rw [udpDispatch, hsame]
    cases boundHandler st.bindings (portAt bytes 36) with
    | none =>
        refine hports.trans ⟨fun h => ⟨h.1, by omega, h.2.1, h.2.2, nofun⟩, fun h => ?_⟩
        exact ⟨h.1, h.2.2.1, h.2.2.2.1⟩
    | some handler =>
        refine invoke_inBounds.trans ?_
        rw [hports]
        simp only [Option.some.injEq]
        constructor
        · rintro ⟨⟨hst, hheader, hsum⟩, hcopy⟩
          exact ⟨hst, by omega, hheader, hsum, fun _ hcapture => by
            have := hcopy hcapture
            omega⟩
        · rintro ⟨hst, -, hheader, hsum, hcopy⟩
          refine ⟨⟨hst, hheader, hsum⟩, fun hcapture => .inr ?_⟩
          by_cases hzero : bytes.load 40 2 = 0
          · exact hcopy hzero hcapture
          · -- The bytes the checksum covers include the ones copied.
            have := hsum hzero
            omega
  by_cases hzero : bytes.load 40 2 = 0
  · have hnone : ¬ bytes.load (34 + 6) 2 ≠ 0 := not_not.mpr hzero
    rw [if_neg hnone, if_neg fun h => hnone h.1]
    refine hverified _ rfl (hchecksum.trans ⟨fun h => ⟨h.1, h.2, absurd hzero⟩, fun h => ?_⟩)
    exact ⟨h.1, h.2.1⟩
  · have hsome : bytes.load (34 + 6) 2 ≠ 0 := hzero
    have hcovered : InBounds len (((st.log [.read (34 + 4) 2]).log [.read (34 + 6) 2]).log
        [.read 34 udpLen]) ↔
          InBounds len st ∧ 42 ≤ len ∧ (bytes.load 40 2 ≠ 0 → 34 + udpLen ≤ len) := by
      rw [inBounds_log, hchecksum]
      simp only [List.forall_mem_cons, read_inBounds]
      constructor
      · rintro ⟨⟨hst, hheader⟩, hread, -⟩
        exact ⟨hst, hheader, fun _ => by omega⟩
      · rintro ⟨hst, hheader, hsum⟩
        exact ⟨⟨hst, hheader⟩, .inr (hsum hzero), nofun⟩
    rw [if_pos hsome]
    by_cases hinvalid : udpChecksum srcIp dstIp bytes 34 udpLen = 0
    · rw [if_neg fun h => h.2 hinvalid]
      exact hverified _ rfl hcovered
    · rw [if_pos ⟨hsome, hinvalid⟩, hcovered]
      constructor
      · rintro ⟨hst, hheader, hsum⟩
        exact ⟨hst, by omega, hheader, hsum, fun h => absurd h hzero⟩
      · rintro ⟨hst, -, hheader, hsum, -⟩
        exact ⟨hst, hheader, hsum⟩

/-- What `ip_handle` needs of the frame. -/
def IpFits (st : NetState) (bytes : ByteMap) (len : Nat) : Prop :=
  15 ≤ len ∧ ((bytes 14).toNat / 16 ≠ 4 ∨
    34 ≤ len ∧ (ipAt bytes 30 ≠ st.netIp ∨
      (bytes 23 = 1 → IcmpFits bytes len) ∧ (bytes 23 = 17 → UdpFits st.bindings bytes len)))

theorem ipHandle_inBounds :
    InBounds len (ipHandle handle st bytes 14) ↔ InBounds len st ∧ IpFits st bytes len := by
  rw [ipHandle, IpFits]
  have hversion : InBounds len (st.log [.read 14 1]) ↔ InBounds len st ∧ 15 ≤ len := by
    rw [inBounds_log]
    simp only [List.forall_mem_cons, read_inBounds]
    exact ⟨fun h => ⟨h.1, by omega⟩, fun h => ⟨h.1, by omega, nofun⟩⟩
  by_cases hfour : (bytes 14).toNat / 16 = 4
  case neg =>
    rw [if_pos hfour, hversion]
    exact ⟨fun h => ⟨h.1, h.2, .inl hfour⟩, fun h => ⟨h.1, h.2.1⟩⟩
  rw [if_neg (not_not.mpr hfour)]
  have haddresses : InBounds len ((st.log [.read 14 1]).log
      [.read (14 + 16) 4, .read (14 + 12) 4]) ↔ InBounds len st ∧ 34 ≤ len := by
    rw [inBounds_log, hversion]
    simp only [List.forall_mem_cons, read_inBounds]
    exact ⟨fun h => ⟨h.1.1, by omega⟩, fun h => ⟨⟨h.1, by omega⟩, by omega, by omega, nofun⟩⟩
  by_cases hmine : ipAt bytes 30 = st.netIp
  case neg =>
    have hother : ipAt bytes (14 + 16) ≠ ((st.log [.read 14 1]).log
        [.read (14 + 16) 4, .read (14 + 12) 4]).netIp := hmine
    rw [if_pos hother, haddresses]
    exact ⟨fun h => ⟨h.1, by omega, .inr ⟨h.2, .inl hmine⟩⟩,
      fun h => ⟨h.1, (h.2.2.resolve_left (absurd hfour)).1⟩⟩
  have hhost : ¬ ipAt bytes (14 + 16) ≠ ((st.log [.read 14 1]).log
      [.read (14 + 16) 4, .read (14 + 12) 4]).netIp := not_not.mpr hmine
  rw [if_neg hhost]
  have hheader : InBounds len (((st.log [.read 14 1]).log
      [.read (14 + 16) 4, .read (14 + 12) 4]).log
        [.read (14 + 2) 2, .read 14 1, .read (14 + 9) 1]) ↔ InBounds len st ∧ 34 ≤ len := by
    rw [inBounds_log, haddresses]
    simp only [List.forall_mem_cons, read_inBounds]
    exact ⟨fun h => h.1, fun h => ⟨h, by omega, by omega, by omega, nofun⟩⟩
  -- Either handler is entered with the header read.
  have hassemble : ∀ fits : Prop, (fits ↔ (bytes 23 = 1 → IcmpFits bytes len) ∧
      (bytes 23 = 17 → UdpFits st.bindings bytes len)) →
      ((InBounds len st ∧ 34 ≤ len) ∧ fits ↔ InBounds len st ∧ 15 ≤ len ∧
        ((bytes 14).toNat / 16 ≠ 4 ∨ 34 ≤ len ∧ (ipAt bytes 30 ≠ st.netIp ∨
          (bytes 23 = 1 → IcmpFits bytes len) ∧
            (bytes 23 = 17 → UdpFits st.bindings bytes len)))) := by
    intro fits hfits
    constructor
    · rintro ⟨⟨hst, hlen⟩, hinner⟩
      exact ⟨hst, by omega, .inr ⟨hlen, .inr (hfits.mp hinner)⟩⟩
    · rintro ⟨hst, -, hrest⟩
      obtain ⟨hlen, hinner⟩ := hrest.resolve_left (absurd hfour)
      exact ⟨⟨hst, hlen⟩, hfits.mpr (hinner.resolve_left (absurd hmine))⟩
  by_cases hicmp : bytes 23 = 1
  · have hprotocol : bytes (14 + 9) = 1 := hicmp
    rw [if_pos hprotocol]
    refine icmpHandle_inBounds.trans ?_
    rw [hheader]
    exact hassemble _ ⟨fun h => ⟨fun _ => h, fun h17 => absurd (hicmp.symm.trans h17) (by decide)⟩,
      fun h => h.1 hicmp⟩
  · have hprotocol : ¬ bytes (14 + 9) = 1 := hicmp
    rw [if_neg hprotocol]
    by_cases hudp : bytes 23 = 17
    · have hprotocol' : bytes (14 + 9) = 17 := hudp
      rw [if_pos hprotocol']
      refine udpHandle_inBounds.trans ?_
      rw [hheader]
      exact hassemble _ ⟨fun h => ⟨fun h1 => absurd h1 hicmp, fun _ => h⟩, fun h => h.2 hudp⟩
    · have hprotocol' : ¬ bytes (14 + 9) = 17 := hudp
      rw [if_neg hprotocol', hheader, ← and_true (_ ∧ _)]
      exact hassemble _
        ⟨fun _ => ⟨fun h => absurd h hicmp, fun h => absurd h hudp⟩, fun _ => trivial⟩

/-- What `net_handle_packet` needs of a frame: too short for a header, or not for
this host, or else all that its handler reads and writes. -/
def FrameFits (st : NetState) (frame : Frame) : Prop :=
  frame.len < 14 ∨ matchedBytes st.netMac frame.bytes ≠ 6 ∨
    (bswap16 (frame.bytes.load 12 2) = 0x0806 → 42 ≤ frame.len) ∧
    (bswap16 (frame.bytes.load 12 2) = 0x0800 → IpFits st frame.bytes frame.len)

theorem netHandlePacketWith_inBounds {frame : Frame} (hst : InBounds frame.len st) :
    InBounds frame.len (netHandlePacketWith handle st frame) ↔ FrameFits st frame := by
  rw [netHandlePacketWith, FrameFits]
  by_cases hshort : frame.len < 14
  · rw [if_pos hshort]
    exact ⟨fun _ => .inl hshort, fun _ => hst⟩
  rw [if_neg hshort]
  have hheader : ∀ matched : Nat, InBounds frame.len
      (st.log [.read 12 2, .read 0 (min 6 (matched + 1))]) ↔ True := by
    intro matched
    rw [inBounds_log]
    simp only [List.forall_mem_cons, read_inBounds, iff_true]
    exact ⟨hst, by omega, by omega, nofun⟩
  by_cases hmatch : matchedBytes st.netMac frame.bytes = 6
  case neg =>
    rw [if_pos hmatch, hheader]
    exact ⟨fun _ => .inr (.inl hmatch), fun _ => trivial⟩
  rw [if_neg (not_not.mpr hmatch)]
  simp only [hshort, hmatch, ne_eq, not_true_eq_false, false_or]
  by_cases harp : bswap16 (frame.bytes.load 12 2) = 0x0806
  · rw [if_pos harp, arpHandle_inBounds, hheader, true_and]
    exact ⟨fun h => ⟨fun _ => h, fun hip => absurd (harp.symm.trans hip) (by decide)⟩,
      fun h => h.1 harp⟩
  · rw [if_neg harp]
    by_cases hip : bswap16 (frame.bytes.load 12 2) = 0x0800
    · rw [if_pos hip, ipHandle_inBounds, hheader, true_and]
      exact ⟨fun h => ⟨fun h' => absurd h' harp, fun _ => h⟩, fun h => h.2 hip⟩
    · rw [if_neg hip, hheader]
      exact ⟨fun _ => ⟨fun h => absurd h harp, fun h => absurd h hip⟩, fun _ => trivial⟩

end Receiving

/-- The state an invocation of the receive path starts its record in. -/
def NetState.invocation (st : NetState) : NetState := { st with accesses := [] }

/-- **Bounds.**  A frame is handled within its own bytes and within the packet
buffers exactly when it fits. -/
theorem netHandlePacket_inBounds_iff (st : NetState) (frame : Frame) :
    InBounds frame.len (netHandlePacket st.invocation frame) ↔ FrameFits st frame :=
  netHandlePacketWith_inBounds nofun

/-- A broadcast echo request of 42 bytes whose IP header claims 1128. -/
def longEcho : Frame where
  bytes := ofList [255, 255, 255, 255, 255, 255, 2, 2, 2, 2, 2, 2, 8, 0,
    0x45, 0, 0x04, 0x68, 0, 0, 0, 0, 64, 1, 0, 0, 10, 0, 2, 2, 10, 0, 2, 15,
    8, 0, 0, 0, 0, 0, 0, 0]
  len := 42

/-- It is answered with 1100 bytes from behind its end, written to a buffer that
holds 1016 of them. -/
theorem longEcho_not_inBounds :
    ¬ ∀ (st : NetState) (frame : Frame), frame.len ≤ 2048 →
      InBounds frame.len (netHandlePacket st.invocation frame) := by
  intro hall
  have hinside := hall (.init fun _ => 1) longEcho (by decide)
  have hempty : InBounds longEcho.len (NetState.init fun _ => 1).invocation := nofun
  have hfits : FrameFits (.init fun _ => 1) longEcho :=
    (netHandlePacketWith_inBounds hempty).mp hinside
  have haccepted : matchedBytes (NetState.init fun _ => 1).netMac longEcho.bytes = 6 := by decide
  have hecho : echoLen longEcho.bytes = 1100 := by decide
  rcases hfits with hshort | hother | ⟨-, hip⟩
  · exact absurd hshort (by decide)
  · exact hother haccepted
  · obtain ⟨-, hversion | ⟨-, hmine | ⟨hicmp, -⟩⟩⟩ := hip (by decide)
    · exact hversion (by decide)
    · exact hmine (by decide)
    · have hanswer := ((hicmp (by decide)).2 (by decide)).2
      rw [hecho] at hanswer
      exact absurd hanswer (by decide)

end GeckoOS.Net
