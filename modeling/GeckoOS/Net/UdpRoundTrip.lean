/-
# A datagram arrives as it was sent

`udp_send` wraps a payload three times, in a datagram, a packet and a frame, and
the receive path unwraps it.  Each layer is treated on its own: what the encoder
leaves in its buffer is a short list of field values and the payload behind
them, and that list is all the decoder of the layer looks at.

Both checksums hold for the same reason.  The field starts out as zero, so
writing the complement of the folded sum into it makes the whole sum a multiple
of `2 ^ 16 - 1`.
-/

import GeckoOS.Net.Stack

namespace GeckoOS.Net

open GeckoOS.Math ByteMap

/-! ## Byte order -/

theorem bswap16_lt (x : Nat) : bswap16 x < 2 ^ 16 := by
  unfold bswap16
  omega

theorem bswap16_bswap16 (x : Nat) : bswap16 (bswap16 x) = x % 2 ^ 16 := by
  have hlow : bswap16 x % 256 = x / 256 % 256 := by
    unfold bswap16
    omega
  have hhigh : bswap16 x / 256 = x % 256 := by
    unfold bswap16
    omega
  rw [bswap16, hlow, hhigh]
  omega

theorem bswap16_mod (x : Nat) : bswap16 (x % 65536) = bswap16 x := by
  unfold bswap16
  omega

theorem bswap32_lt (x : Nat) : bswap32 x < 2 ^ 32 := by
  have hlow := bswap16_lt x
  have hhigh := bswap16_lt (x / 65536)
  unfold bswap32
  omega

theorem bswap32_bswap32 {x : Nat} (hx : x < 2 ^ 32) : bswap32 (bswap32 x) = x := by
  have hword := bswap16_lt (x / 65536)
  have hlow : bswap32 x % 65536 = bswap16 (x / 65536) := by
    unfold bswap32
    omega
  have hhigh : bswap32 x / 65536 = bswap16 x := by
    unfold bswap32
    omega
  rw [bswap32, ← bswap16_mod (bswap32 x), hlow, hhigh, bswap16_bswap16, bswap16_bswap16]
  omega

section Fields

variable {bytes other : ByteMap} {offset elsewhere : Nat}

/-- A two-byte field stored with `htons`. -/
theorem load_store_bswap16 (x : Nat) :
    load (bytes.store offset 2 (bswap16 x)) offset 2 = bswap16 x := by
  rw [load_store_same]
  exact Nat.mod_eq_of_lt (bswap16_lt x)

/-- A pair in network order is the swapped field. -/
theorem networkPair_eq_bswap16 :
    networkPair (bytes offset) (bytes (offset + 1)) = bswap16 (load bytes offset 2) := by
  have hfirst := (bytes offset).toNat_lt
  have hsecond := (bytes (offset + 1)).toNat_lt
  rw [load_two]
  unfold networkPair machinePair bswap16
  omega

theorem ipAt_store (ip : UInt32) : ipAt (bytes.store offset 4 (bswap32 ip.toNat)) offset = ip := by
  have hword : bswap32 ip.toNat % 256 ^ 4 = bswap32 ip.toNat := Nat.mod_eq_of_lt (bswap32_lt _)
  rw [ipAt, load_store_same, hword, bswap32_bswap32 ip.toNat_lt, UInt32.ofNat_toNat]

theorem portAt_store (port : UInt16) :
    portAt (bytes.store offset 2 (bswap16 port.toNat)) offset = port := by
  rw [portAt, load_store_bswap16, bswap16_bswap16, Nat.mod_eq_of_lt port.toNat_lt,
    UInt16.ofNat_toNat]

theorem ipAt_congr (hagree : ∀ i < 4, bytes (offset + i) = other (elsewhere + i)) :
    ipAt bytes offset = ipAt other elsewhere := by
  rw [ipAt, ipAt, load_shift hagree]

theorem portAt_congr (hagree : ∀ i < 2, bytes (offset + i) = other (elsewhere + i)) :
    portAt bytes offset = portAt other elsewhere := by
  rw [portAt, portAt, load_shift hagree]

end Fields

/-! ## The frame -/

section EthFrame

variable {tx payload : ByteMap} {dstMac srcMac : Mac} {etherType len : Nat}

theorem ethFrame_dst (i : Fin 6) :
    ethFrame tx dstMac srcMac etherType payload len i = dstMac i := by
  have hi := i.isLt
  rw [ethFrame, blit_apply_of_not_mem (by omega), store_apply_of_lt (by omega),
    blit_apply_of_not_mem (by omega)]
  simp [blit, macBytes, hi]

theorem ethFrame_type :
    load (ethFrame tx dstMac srcMac etherType payload len) 12 2 = bswap16 etherType := by
  rw [ethFrame, load_blit_disjoint (by omega), load_store_bswap16]

theorem ethFrame_payload {i : Nat} (hi : i < len) :
    ethFrame tx dstMac srcMac etherType payload len (14 + i) = payload i :=
  blit_apply_of_mem hi

end EthFrame

/-! ## The packet -/

section IpPacket

variable {tx payload : ByteMap} {srcIp dstIp : UInt32} {protocol len : Nat}

theorem ipPacket_payload {i : Nat} (hi : i < len) :
    ipPacket tx srcIp dstIp protocol payload len (20 + i) = payload i := by
  rw [ipPacket, store_apply_of_le (by omega), ipUnsigned, blit_apply_of_mem hi]

theorem ipPacket_version :
    ipPacket tx srcIp dstIp protocol payload len 0 = 0x45 := by
  rw [ipPacket, store_apply_of_lt (by omega), ipUnsigned, blit_apply_of_not_mem (by omega)]
  repeat rw [store_apply_of_lt (by omega)]
  rfl

theorem ipPacket_protocol :
    ipPacket tx srcIp dstIp protocol payload len 9 = UInt8.ofNat protocol := by
  have hbyte : UInt8.ofNat (protocol % 256) = UInt8.ofNat protocol := by
    apply UInt8.toNat_inj.mp
    simp
  rw [ipPacket, store_apply_of_lt (by omega), ipUnsigned, blit_apply_of_not_mem (by omega),
    store_apply_of_lt (by omega), store_apply_of_lt (by omega), store_apply_of_lt (by omega)]
  simp [store, hbyte]

theorem ipPacket_totalLen :
    load (ipPacket tx srcIp dstIp protocol payload len) 2 2 = bswap16 (20 + len) := by
  rw [ipPacket, load_store_disjoint _ (by omega), ipUnsigned, load_blit_disjoint (by omega)]
  repeat rw [load_store_disjoint _ (by omega)]
  exact load_store_bswap16 _

theorem ipPacket_srcIp : ipAt (ipPacket tx srcIp dstIp protocol payload len) 12 = srcIp := by
  rw [ipAt, ipPacket, load_store_disjoint _ (by omega), ipUnsigned,
    load_blit_disjoint (by omega), load_store_disjoint _ (by omega)]
  exact ipAt_store srcIp

theorem ipPacket_dstIp : ipAt (ipPacket tx srcIp dstIp protocol payload len) 16 = dstIp := by
  rw [ipAt, ipPacket, load_store_disjoint _ (by omega), ipUnsigned,
    load_blit_disjoint (by omega)]
  exact ipAt_store dstIp

theorem ipUnsigned_checksum :
    load (ipUnsigned tx srcIp dstIp protocol payload len) 10 2 = 0 := by
  rw [ipUnsigned, load_blit_disjoint (by omega), load_store_disjoint _ (by omega),
    load_store_disjoint _ (by omega), load_store_same, Nat.zero_mod]

/-- The header `ip_send` builds carries a correct checksum. -/
theorem ipPacket_checksumValid :
    ChecksumValid (ipPacket tx srcIp dstIp protocol payload len) 0 20 := by
  have hversion := @ipPacket_version tx payload srcIp dstIp protocol len
  rw [checksumValid_iff_machine]
  constructor
  · -- The version byte alone makes the sum positive.
    have hbyte : (0x45 : UInt8).toNat = 69 := rfl
    rw [sumPairs, networkPair, hversion]
    omega
  · have hlt := foldCarries_lt (sumPairs machinePair
      (ipUnsigned tx srcIp dstIp protocol payload len) 0 20)
    have hfield : ipChecksum (ipUnsigned tx srcIp dstIp protocol payload len) 0 20 % 256 ^ 2 =
        ipChecksum (ipUnsigned tx srcIp dstIp protocol payload len) 0 20 := by
      apply Nat.mod_eq_of_lt
      unfold ipChecksum
      omega
    have hsum := @sumPairs_store machinePair (ipUnsigned tx srcIp dstIp protocol payload len) 0 20 5
      (ipChecksum (ipUnsigned tx srcIp dstIp protocol payload len) 0 20)
      (by decide) ipUnsigned_checksum rfl
    rw [← load_two, load_store_same, hfield] at hsum
    exact hsum ▸ dvd_add_complement _

end IpPacket

/-! ## The datagram -/

section UdpDatagram

variable {tx payload : ByteMap} {srcIp dstIp : UInt32} {srcPort dstPort : UInt16} {len : Nat}

theorem udpDatagram_payload {i : Nat} (hi : i < len) :
    udpDatagram tx srcIp dstIp srcPort dstPort payload len (8 + i) = payload i := by
  rw [udpDatagram, store_apply_of_le (by omega), udpUnsigned, blit_apply_of_mem hi]

theorem udpDatagram_srcPort :
    portAt (udpDatagram tx srcIp dstIp srcPort dstPort payload len) 0 = srcPort := by
  rw [portAt, udpDatagram, load_store_disjoint _ (by omega), udpUnsigned,
    load_blit_disjoint (by omega)]
  repeat rw [load_store_disjoint _ (by omega)]
  exact portAt_store srcPort

theorem udpDatagram_dstPort :
    portAt (udpDatagram tx srcIp dstIp srcPort dstPort payload len) 2 = dstPort := by
  rw [portAt, udpDatagram, load_store_disjoint _ (by omega), udpUnsigned,
    load_blit_disjoint (by omega)]
  repeat rw [load_store_disjoint _ (by omega)]
  exact portAt_store dstPort

theorem udpDatagram_length :
    load (udpDatagram tx srcIp dstIp srcPort dstPort payload len) 4 2 = bswap16 (8 + len) := by
  rw [udpDatagram, load_store_disjoint _ (by omega), udpUnsigned, load_blit_disjoint (by omega),
    load_store_disjoint _ (by omega)]
  exact load_store_bswap16 _

theorem udpUnsigned_checksum : load (udpUnsigned tx srcPort dstPort payload len) 6 2 = 0 := by
  rw [udpUnsigned, load_blit_disjoint (by omega), load_store_same, Nat.zero_mod]

/-- The checksum of the datagram `udp_send` builds verifies. -/
theorem udpDatagram_checksum :
    udpChecksum srcIp dstIp (udpDatagram tx srcIp dstIp srcPort dstPort payload len) 0
      (8 + len) = 0 := by
  let unsigned := udpUnsigned tx srcPort dstPort payload len
  let pseudo := sumPairs networkPair (pseudoHeader srcIp dstIp (8 + len)) 0 12
  let sum := sumPairs networkPair unsigned 0 (8 + len)
  -- The number transmitted: the complement, or all ones in place of zero.
  let sent := if udpChecksum srcIp dstIp unsigned 0 (8 + len) = 0 then 0xFFFF
    else udpChecksum srcIp dstIp unsigned 0 (8 + len)
  have hcomplement : udpChecksum srcIp dstIp unsigned 0 (8 + len) =
      65535 - foldCarries (pseudo + sum) := rfl
  have hfold := foldCarries_lt (pseudo + sum)
  have hdvd := dvd_add_complement (pseudo + sum)
  have hsent : 0 < sent ∧ sent < 2 ^ 16 ∧ 65535 ∣ pseudo + sum + sent := by
    by_cases hzero : udpChecksum srcIp dstIp unsigned 0 (8 + len) = 0
    · have hones : sent = 65535 := if_pos hzero
      omega
    · have hplain : sent = udpChecksum srcIp dstIp unsigned 0 (8 + len) := if_neg hzero
      omega
  obtain ⟨hpos, hword, hmultiple⟩ := hsent
  have hsum : sumPairs networkPair (udpDatagram tx srcIp dstIp srcPort dstPort payload len) 0
      (8 + len) = sum + sent := by
    have hstore := @sumPairs_store networkPair unsigned 0 (8 + len) 3 (bswap16 sent)
      (by omega) udpUnsigned_checksum rfl
    rw [networkPair_eq_bswap16, load_store_bswap16, bswap16_bswap16, Nat.mod_eq_of_lt hword]
      at hstore
    exact hstore
  have hones : foldCarries (pseudo + (sum + sent)) = 65535 := by
    rw [foldCarries_eq_ones, ← Nat.add_assoc]
    exact ⟨by omega, hmultiple⟩
  rw [udpChecksum, hsum]
  change 65535 - foldCarries (pseudo + (sum + sent)) = 0
  rw [hones]

end UdpDatagram

/-! ## Sending -/

section Sending

variable {handle : NetState → Frame → NetState} {st : NetState} {dstIp : UInt32} {mac : Mac}
  {srcPort dstPort : UInt16} {payload : ByteMap} {protocol len : Nat}

/-- The bytes `ip_send` hands to the device. -/
def ipFrame (st : NetState) (mac : Mac) (dstIp : UInt32) (protocol : Nat) (payload : ByteMap)
    (len : Nat) : ByteMap :=
  ethFrame st.netTxBuf mac st.netMac 0x0800
    (ipPacket st.ipTxBuf st.netIp dstIp protocol payload len) (20 + len)

theorem ipAttempt_of_resolve {hop : UInt32} {attempts : Nat}
    (hresolve : arpResolve st hop = some mac) :
    ipAttempt handle hop len (attempts + 1) st = ipTransmit st mac len := by
  rw [ipAttempt, hresolve]

/-- With the next hop in the cache, `ip_send` sends right away. -/
theorem ipSend_of_resolve (hresolve : arpResolve st (nextHop st dstIp) = some mac) :
    ipSend handle st dstIp protocol payload len =
      ipTransmit ((st.log [.write .ipTx 0 20, .write .ipTx 20 len, .write .ipTx 10 2]).setIpTx
        (ipPacket st.ipTxBuf st.netIp dstIp protocol payload len)) mac len := by
  rw [ipSend]
  exact ipAttempt_of_resolve hresolve

theorem ipSend_sent (hresolve : arpResolve st (nextHop st dstIp) = some mac)
    (hlen : len ≤ 1480) :
    (ipSend handle st dstIp protocol payload len).sent =
      st.sent ++ [(ipFrame st mac dstIp protocol payload len).slice 0 (34 + len)] := by
  have hpacket : (20 + len) % 2 ^ 16 = 20 + len := Nat.mod_eq_of_lt (by omega)
  have hframe : (14 + (20 + len)) % 2 ^ 16 = 34 + len := by omega
  rw [ipSend_of_resolve hresolve, ipTransmit, netSendFrame, hpacket]
  simp only [hframe]
  rfl

theorem udpSend_sent (hresolve : arpResolve st (nextHop st dstIp) = some mac)
    (hlen : len ≤ 1472) :
    (udpSend handle st dstIp srcPort dstPort payload len).2.sent =
      st.sent ++ [(ipFrame st mac dstIp 17
        (udpDatagram st.udpPacket st.netIp dstIp srcPort dstPort payload len)
        (8 + len)).slice 0 (42 + len)] := by
  have hlength : 34 + (8 + len) = 42 + len := by omega
  rw [udpSend, if_neg (by omega), ← hlength]
  exact @ipSend_sent handle (st.setUdpPacket _) _ _ _ _ _ hresolve (by omega)

end Sending

/-! ## Receiving -/

section Receiving

variable {handle : NetState → Frame → NetState} {st : NetState} {bytes : ByteMap}

theorem matchedBytes_of_eq {mac : Mac} (hmac : ∀ i : Fin 6, bytes i = mac i) :
    matchedBytes mac bytes = 6 := by
  have hall : (List.finRange 6).takeWhile (fun i : Fin 6 => bytes i == mac i || bytes i == 0xFF) =
      List.finRange 6 := by
    rw [List.takeWhile_eq_self_iff]
    intro i _
    simp [hmac i]
  rw [matchedBytes, hall, List.length_finRange]

theorem invoke_delivered (handler : Handler) (srcIp : UInt32) (srcPort : UInt16)
    (payload payloadLen : Nat) :
    (invoke st handler srcIp srcPort bytes payload payloadLen).delivered =
      st.delivered ++ [⟨handler, srcIp, srcPort, bytes.slice payload payloadLen⟩] := by
  cases handler <;> rfl

/-- A datagram goes to the handler that is bound to its port, if any. -/
theorem udpDispatch_delivered (srcIp : UInt32) (packet udpLen : Nat) :
    (udpDispatch st srcIp bytes packet udpLen).delivered =
      st.delivered ++ ((boundHandler st.bindings (portAt bytes (packet + 2))).map fun handler =>
        ⟨handler, srcIp, portAt bytes packet, bytes.slice (packet + 8) (udpLen - 8)⟩).toList := by
  cases hbound : boundHandler st.bindings (portAt bytes (packet + 2)) with
  | none => simp [udpDispatch, NetState.log, hbound]
  | some handler =>
      simp only [udpDispatch, NetState.log, hbound]
      exact invoke_delivered _ _ _ _ _

/-- A datagram whose length fits and whose checksum verifies is delivered. -/
theorem udpHandle_delivered {srcIp dstIp : UInt32} {packet packetLen udpLen : Nat}
    {handler : Handler} (hlength : bswap16 (bytes.load (packet + 4) 2) = udpLen)
    (hheader : 8 ≤ udpLen) (hfits : udpLen ≤ packetLen)
    (hchecksum : udpChecksum srcIp dstIp bytes packet udpLen = 0)
    (hbound : boundHandler st.bindings (portAt bytes (packet + 2)) = some handler) :
    (udpHandle st srcIp dstIp bytes packet packetLen).delivered =
      st.delivered ++
        [⟨handler, srcIp, portAt bytes packet, bytes.slice (packet + 8) (udpLen - 8)⟩] := by
  rw [udpHandle, if_neg (by omega)]
  simp only [hlength, hchecksum]
  rw [if_neg (by omega), if_neg (by simp)]
  split_ifs
  all_goals
    rw [udpDispatch_delivered]
    simp [NetState.log, hbound]

/-- An unfragmented packet for this host with the standard header goes to `udp_handle`. -/
theorem ipHandle_of_udp {data len : Nat} (hversion : (bytes data).toNat = 0x45)
    (hdst : ipAt bytes (data + 16) = st.netIp) (hprotocol : bytes (data + 9) = 17)
    (htotal : bswap16 (bytes.load (data + 2) 2) = 20 + len) (hlen : 20 + len < 2 ^ 16) :
    ∃ made, ipHandle handle st bytes data =
      udpHandle (st.log made) (ipAt bytes (data + 12)) (ipAt bytes (data + 16)) bytes
        (data + 20) len := by
  have hpayload : (20 + len + 2 ^ 16 - (bytes data).toNat % 16 * 4) % 2 ^ 16 = len := by
    rw [hversion]
    omega
  refine ⟨[.read data 1] ++ [.read (data + 16) 4, .read (data + 12) 4] ++
    [.read (data + 2) 2, .read data 1, .read (data + 9) 1], ?_⟩
  rw [ipHandle, if_neg (by rw [hversion]; decide)]
  simp only [htotal, hpayload, hprotocol]
  have hmine : ¬ ipAt bytes (data + 16) ≠
      ((st.log [.read data 1]).log [.read (data + 16) 4, .read (data + 12) 4]).netIp :=
    not_not.mpr hdst
  rw [if_neg hmine, if_neg (by decide), if_pos trivial]
  simp only [NetState.log, List.append_assoc]

/-- A frame for this host that carries IPv4 goes to `ip_handle`. -/
theorem netHandlePacketWith_of_ipv4 {len : Nat} (hlen : 14 ≤ len)
    (hmac : ∀ i : Fin 6, bytes i = st.netMac i) (htype : bswap16 (bytes.load 12 2) = 0x0800) :
    ∃ made, netHandlePacketWith handle st ⟨bytes, len⟩ =
      ipHandle handle (st.log made) bytes 14 := by
  refine ⟨[.read 12 2, .read 0 6], ?_⟩
  rw [netHandlePacketWith, if_neg (Nat.not_lt.mpr hlen)]
  simp only [htype, matchedBytes_of_eq hmac]
  rfl

/-- What the receiving host makes of the frame: one call of the handler. -/
theorem netHandlePacketWith_delivered {sender : NetState} {dstIp : UInt32} {mac : Mac}
    {srcPort dstPort : UInt16} {payload : ByteMap} {n : Nat} {handler : Handler}
    (hn : n ≤ 1472) (hmac : st.netMac = mac) (hip : st.netIp = dstIp)
    (hbound : boundHandler st.bindings dstPort = some handler)
    (hframe : ∀ p < 42 + n, bytes p = ipFrame sender mac dstIp 17
      (udpDatagram sender.udpPacket sender.netIp dstIp srcPort dstPort payload n) (8 + n) p) :
    (netHandlePacketWith handle st ⟨bytes, 42 + n⟩).delivered =
      st.delivered ++ [⟨handler, sender.netIp, srcPort, payload.slice 0 n⟩] := by
  let datagram := udpDatagram sender.udpPacket sender.netIp dstIp srcPort dstPort payload n
  let packet := ipPacket sender.ipTxBuf sender.netIp dstIp 17 datagram (8 + n)
  -- Unwrap the three layers byte by byte.
  have hpacket : ∀ i < 28 + n, bytes (14 + i) = packet i := by
    intro i hi
    rw [hframe _ (by omega), ipFrame]
    exact ethFrame_payload (by omega)
  have hdatagram : ∀ i < 8 + n, bytes (34 + i) = datagram i := by
    intro i hi
    have hbyte := hpacket (20 + i) (by omega)
    rw [← Nat.add_assoc] at hbyte
    exact hbyte.trans (ipPacket_payload hi)
  have hpayload : ∀ i < n, bytes (42 + i) = payload i := by
    intro i hi
    have hbyte := hdatagram (8 + i) (by omega)
    rw [← Nat.add_assoc] at hbyte
    exact hbyte.trans (udpDatagram_payload hi)
  have hpacketField : ∀ offset width, offset + width ≤ 20 → ∀ i < width,
      bytes (14 + offset + i) = packet (offset + i) := by
    intro offset width hfits i hi
    rw [Nat.add_assoc]
    exact hpacket _ (by omega)
  have hdatagramField : ∀ offset width, offset + width ≤ 8 → ∀ i < width,
      bytes (34 + offset + i) = datagram (offset + i) := by
    intro offset width hfits i hi
    rw [Nat.add_assoc]
    exact hdatagram _ (by omega)
  have hfilter : ∀ i : Fin 6, bytes i = st.netMac i := by
    intro i
    have hi := i.isLt
    rw [hframe _ (by omega), ipFrame, ethFrame_dst, hmac]
  have htype : bswap16 (bytes.load 12 2) = 0x0800 := by
    rw [load_congr fun i hi => hframe (12 + i) (by omega), ipFrame, ethFrame_type]
    rfl
  obtain ⟨made, hnet⟩ := @netHandlePacketWith_of_ipv4 handle st bytes (42 + n) (by omega)
    hfilter htype
  have hversion : (bytes 14).toNat = 0x45 :=
    congrArg UInt8.toNat ((hpacket 0 (by omega)).trans ipPacket_version)
  have hprotocol : bytes (14 + 9) = 17 := (hpacket 9 (by omega)).trans ipPacket_protocol
  have htotal : bswap16 (bytes.load (14 + 2) 2) = 20 + (8 + n) := by
    rw [(load_shift (hpacketField 2 2 (by decide))).trans ipPacket_totalLen, bswap16_bswap16]
    omega
  have hdst : ipAt bytes (14 + 16) = dstIp :=
    (ipAt_congr (hpacketField 16 4 (by decide))).trans ipPacket_dstIp
  have hsrc : ipAt bytes (14 + 12) = sender.netIp :=
    (ipAt_congr (hpacketField 12 4 (by decide))).trans ipPacket_srcIp
  obtain ⟨made', hudp⟩ := @ipHandle_of_udp handle (st.log made) bytes 14 (8 + n) hversion
    (hdst.trans hip.symm) hprotocol htotal (by omega)
  have hlength : bswap16 (bytes.load (34 + 4) 2) = 8 + n := by
    rw [(load_shift (hdatagramField 4 2 (by decide))).trans udpDatagram_length, bswap16_bswap16]
    omega
  have hdstPort : portAt bytes (34 + 2) = dstPort :=
    (portAt_congr (hdatagramField 2 2 (by decide))).trans udpDatagram_dstPort
  have hsrcPort : portAt bytes 34 = srcPort :=
    (portAt_congr (hdatagramField 0 2 (by decide))).trans udpDatagram_srcPort
  have hchecksum : udpChecksum sender.netIp dstIp bytes 34 (8 + n) = 0 := by
    have hsum : sumPairs networkPair bytes 34 (8 + n) = sumPairs networkPair datagram 0 (8 + n) :=
      sumPairs_congr fun i hi => by rw [hdatagram i hi, Nat.zero_add]
    rw [udpChecksum, hsum]
    exact udpDatagram_checksum
  rw [hnet, hudp, hdst, hsrc]
  have hdelivered := @udpHandle_delivered ((st.log made).log made') bytes sender.netIp dstIp 34
    (8 + n) (8 + n) handler hlength (by omega) le_rfl hchecksum (by rw [hdstPort]; exact hbound)
  rw [hdelivered, hsrcPort, Nat.add_sub_cancel_left]
  have hslice : bytes.slice (34 + 8) n = payload.slice 0 n :=
    slice_shift fun i hi => by rw [hpayload i hi, Nat.zero_add]
  rw [hslice]
  rfl

end Receiving

/-- **Round trip.**  With the next hop resolved, `udp_send` puts one frame on the
wire, its IP header carries a correct checksum, and the host it is for answers it
with one call of the bound handler, on the sender's address and port and the
payload as it was. -/
theorem udp_round_trip {handle : NetState → Frame → NetState} {sender receiver : NetState}
    {dstIp : UInt32} {mac : Mac} {srcPort dstPort : UInt16} {payload : List UInt8}
    {handler : Handler} (hsize : payload.length ≤ 1472)
    (hresolve : arpResolve sender (nextHop sender dstIp) = some mac)
    (hip : receiver.netIp = dstIp) (hmac : receiver.netMac = mac)
    (hbound : boundHandler receiver.bindings dstPort = some handler) :
    ∃ frame : List UInt8,
      (udpSend handle sender dstIp srcPort dstPort (ofList payload) payload.length).2.sent =
        sender.sent ++ [frame] ∧
      (∀ bytes : ByteMap, bytes.slice 0 frame.length = frame →
        (netHandlePacket receiver ⟨bytes, frame.length⟩).delivered =
          receiver.delivered ++ [⟨handler, sender.netIp, srcPort, payload⟩]) ∧
      ChecksumValid (ofList frame) 14 20 := by
  refine ⟨_, udpSend_sent hresolve hsize, ?_, ?_⟩
  · intro bytes hbytes
    rw [length_slice] at hbytes ⊢
    have hframe := fun p (hp : p < 42 + payload.length) => apply_of_slice_eq hbytes hp
    simp only [Nat.zero_add] at hframe
    rw [netHandlePacket, netHandlePacketWith_delivered hsize hmac hip hbound hframe, slice_ofList]
  · have hheader : ∀ i < 20, ofList ((ipFrame sender mac dstIp 17 (udpDatagram sender.udpPacket
        sender.netIp dstIp srcPort dstPort (ofList payload) payload.length)
        (8 + payload.length)).slice 0 (42 + payload.length)) (14 + i) =
          ipPacket sender.ipTxBuf sender.netIp dstIp 17 (udpDatagram sender.udpPacket
            sender.netIp dstIp srcPort dstPort (ofList payload) payload.length)
            (8 + payload.length) (0 + i) := by
      intro i hi
      rw [ofList_slice (by omega), Nat.zero_add, Nat.zero_add, ipFrame, ethFrame_payload (by omega)]
    rw [ChecksumValid, onesComplementSum, sumPairs_congr hheader]
    exact ipPacket_checksumValid

/-- The gateway resolves in a cache of its own. -/
theorem udp_round_trip_gateway :
    ∃ frame : List UInt8,
      (udpSend (fun st _ => st)
        { NetState.init (fun _ => 1) with arpCache := [⟨0x0A000202, fun _ => 2, true⟩] }
        0x0A000202 4000 53 (ofList [7, 8, 9]) 3).2.sent = [] ++ [frame] ∧
      (∀ bytes : ByteMap, bytes.slice 0 frame.length = frame →
        (netHandlePacket
          { NetState.init (fun _ => 2) with
            netIp := 0x0A000202
            bindings := [⟨53, some (.application 1)⟩] } ⟨bytes, frame.length⟩).delivered =
          [] ++ [⟨.application 1, 0x0A00020F, 4000, [7, 8, 9]⟩]) ∧
      ChecksumValid (ofList frame) 14 20 :=
  udp_round_trip (by decide) rfl rfl rfl rfl

end GeckoOS.Net
