/-
# Bit errors in a datagram

`udp_checksum` adds up the pseudo header and the datagram in a word of 32 bits.  The first
part shows that the word never overflows, so that the checksum is the one of the sums of
natural numbers, for every length that the length field can give.

The second part is what the checksum is for.  A bit flipped in the ports, in the payload or
in one of the two addresses of the pseudo header moves the sum by a power of two, and so a
datagram that verifies no longer does.
-/

import GeckoOS.Net.Acceptance

namespace GeckoOS.Net

open GeckoOS.Math ByteMap

/-! ## The accumulator -/

/-- `checksum_add`. -/
def checksumAdd (sum : UInt32) (bytes : ByteMap) (data : Nat) : Nat → UInt32
  | 0 => sum
  | 1 => sum + ((bytes data).toUInt32 <<< 8)
  | len + 2 =>
      checksumAdd (sum + ((bytes data).toUInt32 <<< 8 ||| (bytes (data + 1)).toUInt32)) bytes
        (data + 2) len

theorem toNat_high (sum : UInt32) : (sum >>> (16 : UInt32)).toNat = sum.toNat / 2 ^ 16 := by
  simp [Nat.shiftRight_eq_div_pow]

theorem toNat_low (sum : UInt32) : (sum &&& (0xFFFF : UInt32)).toNat = sum.toNat % 2 ^ 16 := by
  rw [UInt32.toNat_and]
  exact Nat.and_two_pow_sub_one_eq_mod _ 16

/-- Both halves of a word add up to a word. -/
theorem toNat_halves (sum : UInt32) :
    ((sum &&& (0xFFFF : UInt32)) + (sum >>> (16 : UInt32))).toNat =
      sum.toNat % 2 ^ 16 + sum.toNat / 2 ^ 16 := by
  have hlt := sum.toNat_lt
  rw [UInt32.toNat_add, toNat_low, toNat_high]
  omega

theorem high_eq_zero {sum : UInt32} : sum >>> (16 : UInt32) = 0 ↔ sum.toNat < 2 ^ 16 := by
  rw [← UInt32.toNat_inj, toNat_high, UInt32.toNat_zero]
  omega

/-- The loop of `udp_checksum` that folds the carries. -/
def foldWord (sum : UInt32) : UInt32 :=
  if sum >>> (16 : UInt32) = 0 then sum
  else foldWord ((sum &&& (0xFFFF : UInt32)) + (sum >>> (16 : UInt32)))
termination_by sum.toNat
decreasing_by
  rw [toNat_halves]
  rw [high_eq_zero] at *
  omega

/-- `pseudo_header`, as `udp_checksum` initialises it. -/
def pseudoHeaderBytes (srcIp dstIp : UInt32) (udpLen : UInt16) : List UInt8 :=
  [(srcIp >>> 24).toUInt8, (srcIp >>> 16).toUInt8, (srcIp >>> 8).toUInt8, srcIp.toUInt8,
    (dstIp >>> 24).toUInt8, (dstIp >>> 16).toUInt8, (dstIp >>> 8).toUInt8, dstIp.toUInt8,
    0, 17, (udpLen >>> 8).toUInt8, udpLen.toUInt8]

/-- `udp_checksum`, in the word that the source uses. -/
def udpChecksumWord (srcIp dstIp : UInt32) (bytes : ByteMap) (udp : Nat) (udpLen : UInt16) :
    UInt16 :=
  let sum := checksumAdd 0 (ofList (pseudoHeaderBytes srcIp dstIp udpLen)) 0 12
  let sum := checksumAdd sum bytes udp udpLen.toNat
  (~~~ foldWord sum).toUInt16

theorem foldWord_toNat (sum : UInt32) : (foldWord sum).toNat = foldCarries sum.toNat := by
  induction sum using foldWord.induct with
  | case1 sum hnone =>
      rw [foldWord, if_pos hnone, foldCarries_of_lt (high_eq_zero.mp hnone)]
  | case2 sum hsome ih =>
      rw [foldWord, if_neg hsome, ih, toNat_halves, foldCarries.eq_def sum.toNat,
        if_neg fun hlt => hsome (high_eq_zero.mpr hlt)]

theorem toNat_first (first : UInt8) : (first.toUInt32 <<< 8).toNat = 256 * first.toNat := by
  have hfirst := first.toNat_lt
  simp only [UInt32.toNat_shiftLeft, UInt8.toNat_toUInt32, Nat.shiftLeft_eq]
  change first.toNat * 2 ^ 8 % 2 ^ 32 = _
  omega

theorem toNat_pair (first second : UInt8) :
    (first.toUInt32 <<< 8 ||| second.toUInt32).toNat = networkPair first second := by
  have hor : 2 ^ 8 * first.toNat ||| second.toNat = 2 ^ 8 * first.toNat + second.toNat :=
    (Nat.two_pow_add_eq_or_of_lt second.toNat_lt first.toNat).symm
  rw [UInt32.toNat_or, toNat_first, UInt8.toNat_toUInt32, networkPair]
  exact hor

/-- The accumulator holds the sum at its width. -/
theorem checksumAdd_toNat (sum : UInt32) (bytes : ByteMap) (data len : Nat) :
    (checksumAdd sum bytes data len).toNat =
      (sum.toNat + sumPairs networkPair bytes data len) % 2 ^ 32 := by
  induction len using Nat.twoStepInduction generalizing sum data with
  | zero => exact (Nat.mod_eq_of_lt sum.toNat_lt).symm
  | one => rw [checksumAdd, UInt32.toNat_add, toNat_first, sumPairs, networkPair, UInt8.toNat_zero,
      Nat.add_zero]
  | more len ih _ =>
      rw [checksumAdd, ih, sumPairs, UInt32.toNat_add, toNat_pair]
      omega

/-- No pair adds more than sixteen bits hold. -/
theorem sumPairs_le (bytes : ByteMap) (data len : Nat) :
    sumPairs networkPair bytes data len ≤ 65535 * ((len + 1) / 2) := by
  induction len using Nat.twoStepInduction generalizing data with
  | zero => exact Nat.zero_le _
  | one =>
      have hlast := (bytes data).toNat_lt
      rw [sumPairs, networkPair, UInt8.toNat_zero]
      omega
  | more len ih _ =>
      have hrest := ih (data + 2)
      have hfirst := (bytes data).toNat_lt
      have hsecond := (bytes (data + 1)).toNat_lt
      rw [sumPairs, networkPair]
      omega

/-! ## The pseudo header -/

theorem bswap16_halves {x low high : Nat} (hx : x < 2 ^ 32) (hlow : low < 2 ^ 16)
    (hword : low + 65536 * high = bswap32 x) :
    bswap16 low = x / 2 ^ 16 ∧ bswap16 high = x % 2 ^ 16 := by
  have hfirst := bswap16_lt x
  have hsecond := bswap16_lt (x / 65536)
  have hparts : low = bswap16 (x / 65536) ∧ high = bswap16 x := by
    unfold bswap32 at hword
    omega
  rw [hparts.1, hparts.2, bswap16_bswap16, bswap16_bswap16]
  omega

theorem load_four {bytes : ByteMap} {address : Nat} :
    load bytes address 2 + 65536 * load bytes (address + 2) 2 = load bytes address 4 := by
  simp only [load, Nat.mul_zero, Nat.add_zero, Nat.add_assoc, Nat.reduceAdd]
  omega

/-- The bytes of an address field add up to its halves. -/
theorem sumPairs_four {bytes : ByteMap} {address : Nat} {ip : UInt32}
    (hfield : load bytes address 4 = bswap32 ip.toNat) :
    sumPairs networkPair bytes address 4 = ip.toNat / 2 ^ 16 + ip.toNat % 2 ^ 16 := by
  obtain ⟨hhigh, hlow⟩ := bswap16_halves ip.toNat_lt load_lt (load_four.trans hfield)
  rw [sumPairs, sumPairs, networkPair_eq_bswap16, networkPair_eq_bswap16, hhigh, hlow]
  rfl
section PseudoHeader

variable (srcIp dstIp : UInt32) (udpLen : UInt16)

theorem sumPairs_pseudoHeaderBytes :
    sumPairs networkPair (ofList (pseudoHeaderBytes srcIp dstIp udpLen)) 0 12 =
      (srcIp.toNat / 2 ^ 16 + srcIp.toNat % 2 ^ 16) +
        (dstIp.toNat / 2 ^ 16 + dstIp.toNat % 2 ^ 16) + 17 + udpLen.toNat := by
  have hsrc := srcIp.toNat_lt
  have hdst := dstIp.toNat_lt
  have hlen := udpLen.toNat_lt
  simp only [pseudoHeaderBytes, sumPairs, networkPair, ofList, List.getD_cons_zero,
    List.getD_cons_succ, Nat.zero_add, Nat.reduceAdd]
  simp [Nat.shiftRight_eq_div_pow]
  omega

/-- The header of the receive path adds up to the same. -/
theorem sumPairs_pseudoHeader :
    sumPairs networkPair (pseudoHeader srcIp dstIp udpLen.toNat) 0 12 =
      (srcIp.toNat / 2 ^ 16 + srcIp.toNat % 2 ^ 16) +
        (dstIp.toNat / 2 ^ 16 + dstIp.toNat % 2 ^ 16) + 17 + udpLen.toNat := by
  have hsrc : load (pseudoHeader srcIp dstIp udpLen.toNat) 0 4 = bswap32 srcIp.toNat := by
    rw [pseudoHeader, load_store_disjoint _ (by omega), load_store_disjoint _ (by omega),
      load_store_disjoint _ (by omega), load_store_same]
    exact Nat.mod_eq_of_lt (bswap32_lt _)
  have hdst : load (pseudoHeader srcIp dstIp udpLen.toNat) 4 4 = bswap32 dstIp.toNat := by
    rw [pseudoHeader, load_store_disjoint _ (by omega), load_store_disjoint _ (by omega),
      load_store_same]
    exact Nat.mod_eq_of_lt (bswap32_lt _)
  have hprotocol : networkPair (pseudoHeader srcIp dstIp udpLen.toNat 8)
      (pseudoHeader srcIp dstIp udpLen.toNat (8 + 1)) = 17 := rfl
  have hlen : networkPair (pseudoHeader srcIp dstIp udpLen.toNat 10)
      (pseudoHeader srcIp dstIp udpLen.toNat (10 + 1)) = udpLen.toNat := by
    rw [networkPair_eq_bswap16, pseudoHeader, load_store_bswap16, bswap16_bswap16]
    exact Nat.mod_eq_of_lt udpLen.toNat_lt
  rw [sumPairs_add 0 2 8, sumPairs_add (0 + 2 * 2) 2 4, sumPairs_four hsrc, sumPairs_four hdst]
  have hrest : sumPairs networkPair (pseudoHeader srcIp dstIp udpLen.toNat) (0 + 2 * 2 + 2 * 2) 4 =
      17 + udpLen.toNat := by
    rw [sumPairs, sumPairs, hprotocol, hlen]
    rfl
  rw [hrest]
  omega

/-- **No overflow.**  The checksum computed in 32 bits is the one of the exact sums. -/
theorem udpChecksumWord_toNat (bytes : ByteMap) (udp : Nat) :
    (udpChecksumWord srcIp dstIp bytes udp udpLen).toNat =
      udpChecksum srcIp dstIp bytes udp udpLen.toNat := by
  have hheader := sumPairs_le (ofList (pseudoHeaderBytes srcIp dstIp udpLen)) 0 12
  have hbytes := sumPairs_le bytes udp udpLen.toNat
  have hlen := udpLen.toNat_lt
  have hsum : (checksumAdd (checksumAdd 0 (ofList (pseudoHeaderBytes srcIp dstIp udpLen)) 0 12)
      bytes udp udpLen.toNat).toNat =
        sumPairs networkPair (pseudoHeader srcIp dstIp udpLen.toNat) 0 12 +
          sumPairs networkPair bytes udp udpLen.toNat := by
    rw [checksumAdd_toNat, checksumAdd_toNat, UInt32.toNat_zero, sumPairs_pseudoHeader,
      ← sumPairs_pseudoHeaderBytes]
    omega
  have hfold := foldCarries_lt (sumPairs networkPair (pseudoHeader srcIp dstIp udpLen.toNat) 0 12 +
    sumPairs networkPair bytes udp udpLen.toNat)
  rw [udpChecksumWord, UInt32.toNat_toUInt16, UInt32.toNat_not, foldWord_toNat, hsum, udpChecksum]
  change (2 ^ 32 - 1 - _) % 2 ^ 16 = _
  omega

end PseudoHeader

/-! ## What a checksum protects -/

/-- What `udp_handle` is called with. -/
structure UdpCall where
  srcIp : UInt32
  dstIp : UInt32
  bytes : ByteMap
  packet : Nat
  packetLen : Nat

/-- A bit of an address of the pseudo header, or of a byte of the datagram. -/
inductive UdpBit
  | srcIp (bit : Fin 32)
  | dstIp (bit : Fin 32)
  | byte (offset : Nat) (bit : Fin 8)

namespace UdpCall

variable (call : UdpCall)

/-- The length in the UDP header. -/
def udpLen : UInt16 := portAt call.bytes (call.packet + 4)

/-- The checksum in the UDP header. -/
def checksum : Nat := call.bytes.load (call.packet + 6) 2

/-- The checksum that `udp_handle` computes. -/
def computed : UInt16 :=
  udpChecksumWord call.srcIp call.dstIp call.bytes call.packet call.udpLen

/-- The datagram passes the checks of `udp_handle`. -/
def Accepted : Prop :=
  8 ≤ call.packetLen ∧ 8 ≤ call.udpLen.toNat ∧ call.udpLen.toNat ≤ call.packetLen ∧
    (call.checksum ≠ 0 → call.computed = 0)

/-- `udp_handle` on these arguments. -/
def run (st : NetState) : NetState :=
  udpHandle st call.srcIp call.dstIp call.bytes call.packet call.packetLen

/-- The bit belongs to an address, to a port or to the payload. -/
def Covers : UdpBit → Prop
  | .srcIp _ => True
  | .dstIp _ => True
  | .byte offset _ => offset < 4 ∨ 8 ≤ offset ∧ offset < call.udpLen.toNat

/-- The call with one bit flipped. -/
def flip : UdpBit → UdpCall
  | .srcIp bit => { call with srcIp := call.srcIp ^^^ UInt32.ofNat (2 ^ bit.val) }
  | .dstIp bit => { call with dstIp := call.dstIp ^^^ UInt32.ofNat (2 ^ bit.val) }
  | .byte offset bit =>
      { call with
        bytes := Function.update call.bytes (call.packet + offset)
          (call.bytes (call.packet + offset) ^^^ UInt8.ofNat (2 ^ bit.val)) }

variable {call : UdpCall} {st : NetState}

theorem udpLen_toNat : call.udpLen.toNat = bswap16 (call.bytes.load (call.packet + 4) 2) :=
  UInt16.toNat_ofNat_of_lt (bswap16_lt _)

theorem computed_toNat : call.computed.toNat =
    udpChecksum call.srcIp call.dstIp call.bytes call.packet call.udpLen.toNat :=
  udpChecksumWord_toNat call.srcIp call.dstIp call.udpLen call.bytes call.packet

theorem computed_eq_zero : call.computed = 0 ↔
    65535 ∣ sumPairs networkPair (pseudoHeader call.srcIp call.dstIp call.udpLen.toNat) 0 12 +
      sumPairs networkPair call.bytes call.packet call.udpLen.toNat := by
  have hpos : 0 < sumPairs networkPair
      (pseudoHeader call.srcIp call.dstIp call.udpLen.toNat) 0 12 := by
    rw [sumPairs_pseudoHeader]
    omega
  rw [← UInt16.toNat_inj, computed_toNat, UInt16.toNat_zero, udpChecksum_eq_zero,
    UdpChecksumValid, foldCarries_eq_ones]
  exact and_iff_right (Nat.add_pos_left hpos _)

theorem not_rejected (haccepted : call.Accepted) :
    ¬ (call.checksum ≠ 0 ∧ udpChecksum call.srcIp call.dstIp call.bytes call.packet
      call.udpLen.toNat ≠ 0) := by
  rintro ⟨hsome, hwrong⟩
  refine hwrong ?_
  rw [← computed_toNat, haccepted.2.2.2 hsome]
  rfl

theorem log_log (made made' : List Access) : (st.log made).log made' = st.log (made ++ made') := by
  simp [NetState.log]

/-- A datagram that passes goes to the handler of its port. -/
theorem run_of_accepted (haccepted : call.Accepted) :
    ∃ made, call.run st = udpDispatch (st.log made) call.srcIp call.bytes call.packet
      call.udpLen.toNat := by
  have haccept := not_rejected haccepted
  obtain ⟨hheader, hlen, hfits, -⟩ := haccepted
  rw [udpLen_toNat] at hlen hfits haccept ⊢
  rw [run, udpHandle, if_neg (by omega), if_neg (by omega)]
  simp only [checksum] at haccept
  simp only [if_neg haccept]
  split_ifs
  · exact ⟨_, by rw [log_log, log_log]⟩
  · exact ⟨_, by rw [log_log]⟩

/-- Any other leaves the state as it was. -/
theorem run_of_not_accepted (hrefused : ¬ call.Accepted) : ∃ made, call.run st = st.log made := by
  rw [run, udpHandle]
  by_cases hshort : call.packetLen < 8
  · exact ⟨[], by rw [if_pos hshort, NetState.log, List.append_nil]⟩
  rw [if_neg hshort]
  by_cases hlength : bswap16 (call.bytes.load (call.packet + 4) 2) < 8 ∨
      call.packetLen < bswap16 (call.bytes.load (call.packet + 4) 2)
  · exact ⟨_, if_pos hlength⟩
  have hwrong : call.checksum ≠ 0 ∧ call.computed ≠ 0 := by
    by_contra hright
    refine hrefused ⟨by omega, by rw [udpLen_toNat]; omega, by rw [udpLen_toNat]; omega, ?_⟩
    intro hsome
    by_contra hzero
    exact hright ⟨hsome, hzero⟩
  have hreject : call.checksum ≠ 0 ∧ udpChecksum call.srcIp call.dstIp call.bytes call.packet
      (bswap16 (call.bytes.load (call.packet + 4) 2)) ≠ 0 := by
    refine ⟨hwrong.1, fun hzero => hwrong.2 ?_⟩
    rw [← udpLen_toNat, ← computed_toNat] at hzero
    exact UInt16.toNat_inj.mp hzero
  simp only [checksum] at hreject
  rw [if_neg hlength]
  simp only [if_pos hreject, if_pos hreject.1]
  exact ⟨_, by rw [log_log, log_log]⟩

/-! ## One flipped bit -/

theorem toNat_flip32 (word : UInt32) (bit : Fin 32) :
    (word ^^^ UInt32.ofNat (2 ^ bit.val)).toNat = word.toNat ^^^ 2 ^ bit.val := by
  rw [UInt32.toNat_xor, UInt32.toNat_ofNat_of_lt' (Nat.pow_lt_pow_right (by decide) bit.isLt)]

theorem toNat_flip8 (byte : UInt8) (bit : Fin 8) :
    (byte ^^^ UInt8.ofNat (2 ^ bit.val)).toNat = byte.toNat ^^^ 2 ^ bit.val := by
  rw [UInt8.toNat_xor, UInt8.toNat_ofNat_of_lt' (Nat.pow_lt_pow_right (by decide) bit.isLt)]

/-- The halves of a word add up to the word, but for multiples of `2 ^ 16 - 1`. -/
theorem halves_modEq (n : Nat) : n / 2 ^ 16 + n % 2 ^ 16 ≡ n [MOD 65535] := by
  unfold Nat.ModEq
  omega

/-- A flipped bit changes the halves of a word by the difference of the words. -/
theorem halves_flip (word : UInt32) (bit : Fin 32) :
    (word ^^^ UInt32.ofNat (2 ^ bit.val)).toNat / 2 ^ 16 +
        (word ^^^ UInt32.ofNat (2 ^ bit.val)).toNat % 2 ^ 16 + word.toNat ≡
      word.toNat / 2 ^ 16 + word.toNat % 2 ^ 16 + (word.toNat ^^^ 2 ^ bit.val) [MOD 65535] := by
  have hbefore := halves_modEq word.toNat
  have hafter := halves_modEq (word ^^^ UInt32.ofNat (2 ^ bit.val)).toNat
  rw [← toNat_flip32]
  unfold Nat.ModEq at *
  omega

variable {bit : UdpBit}

/-- A flipped bit keeps the fields of the header that are not covered. -/
theorem flip_load (hcovered : call.Covers bit) {offset : Nat} (hlow : 4 ≤ offset)
    (hhigh : offset + 2 ≤ 8) :
    (call.flip bit).bytes.load (call.packet + offset) 2 =
      call.bytes.load (call.packet + offset) 2 := by
  cases bit with
  | srcIp bit => rfl
  | dstIp bit => rfl
  | byte changed bit =>
      apply load_congr
      intro i hi
      refine Function.update_of_ne ?_ _ _
      rcases hcovered with hport | ⟨hpayload, -⟩ <;> omega

theorem flip_packet : (call.flip bit).packet = call.packet := by cases bit <;> rfl

theorem flip_udpLen (hcovered : call.Covers bit) : (call.flip bit).udpLen = call.udpLen := by
  rw [udpLen, udpLen, portAt, portAt, flip_packet, flip_load hcovered (by decide) (by decide)]

theorem flip_checksum (hcovered : call.Covers bit) : (call.flip bit).checksum = call.checksum := by
  rw [checksum, checksum, flip_packet, flip_load hcovered (by decide) (by decide)]

/-- Flipping a covered bit makes a right checksum wrong. -/
theorem flip_computed (hheader : 8 ≤ call.udpLen.toNat) (hcovered : call.Covers bit)
    (hvalid : call.computed = 0) : (call.flip bit).computed ≠ 0 := by
  rw [computed_eq_zero, sumPairs_pseudoHeader] at hvalid
  rw [Ne, computed_eq_zero, sumPairs_pseudoHeader, flip_udpLen hcovered]
  cases bit with
  | srcIp bit =>
      refine @not_dvd_of_flip _ _ call.srcIp.toNat 0 bit ?_ hvalid
      have hchange := halves_flip call.srcIp bit
      simp only [flip]
      unfold Nat.ModEq at *
      omega
  | dstIp bit =>
      refine @not_dvd_of_flip _ _ call.dstIp.toNat 0 bit ?_ hvalid
      have hchange := halves_flip call.dstIp bit
      simp only [flip]
      unfold Nat.ModEq at *
      omega
  | byte offset bit =>
      refine @not_dvd_of_flip _ _ (call.bytes (call.packet + offset)).toNat
        (placeExponent offset) bit ?_ hvalid
      have hinside : offset < call.udpLen.toNat := by
        rcases hcovered with hport | ⟨-, hpayload⟩ <;> omega
      have hchange := @sumPairs_changed (call.flip (.byte offset bit)).bytes call.bytes call.packet
        _ _ hinside fun j _ hne => Function.update_of_ne (by omega) _ _
      have hbyte : (call.flip (.byte offset bit)).bytes (call.packet + offset) =
          call.bytes (call.packet + offset) ^^^ UInt8.ofNat (2 ^ bit.val) :=
        Function.update_self _ _ _
      rw [hbyte, toNat_flip8] at hchange
      simp only [flip] at hchange ⊢
      unfold Nat.ModEq
      omega

end UdpCall

/-- **Bit errors.**  However long the datagram, if it passes with a checksum, then with one bit
of its ports, its payload or its addresses flipped it does not verify, and no handler is
called. -/
theorem flip_not_delivered {call : UdpCall} {bit : UdpBit} (haccepted : call.Accepted)
    (hchecksum : call.checksum ≠ 0) (hcovered : call.Covers bit) :
    (call.flip bit).computed ≠ 0 ∧
      ∀ st : NetState, ((call.flip bit).run st).delivered = st.delivered := by
  have hwrong := UdpCall.flip_computed haccepted.2.1 hcovered (haccepted.2.2.2 hchecksum)
  refine ⟨hwrong, fun st => ?_⟩
  have hrefused : ¬ (call.flip bit).Accepted := by
    intro hflipped
    rw [← UdpCall.flip_checksum hcovered] at hchecksum
    exact hwrong (hflipped.2.2.2 hchecksum)
  obtain ⟨made, hrun⟩ := UdpCall.run_of_not_accepted hrefused
  rw [hrun]
  rfl

/-- One byte from port 7 to port 9. -/
def oddCall : UdpCall where
  srcIp := 0x0A000202
  dstIp := 0x0A00020F
  bytes := ofList [0, 7, 0, 9, 0, 9, 0xBD, 0xBB, 42]
  packet := 0
  packetLen := 9

/-- A bit of its odd last byte. -/
theorem flip_not_delivered_oddCall :
    (oddCall.flip (.byte 8 3)).computed ≠ 0 ∧
      ∀ st : NetState, ((oddCall.flip (.byte 8 3)).run st).delivered = st.delivered := by
  have hvalid : oddCall.computed = 0 := by
    rw [UdpCall.computed_eq_zero]
    decide
  exact flip_not_delivered ⟨by decide, by decide, by decide, fun _ => hvalid⟩ (by decide)
    (Or.inr ⟨by decide, by decide⟩)

end GeckoOS.Net
