/-
# Reading a DNS reply

Every read of `dns_parse_reply` stands behind a comparison with the length of the reply.  The
cursor is 16 bits wide, and a record may claim a length of up to 65535, so the sum may wrap; but
the cursor is compared with the length after every advance, and what matters to the next read is
only where the cursor is, not how it came there.  A name advances it by two or more at a time
and never wraps, because a label is short and a reply is short.
-/

import GeckoOS.Math.Outcome
import GeckoOS.Net.Dns

namespace GeckoOS.Net

open GeckoOS.Math ByteMap

/-- A reply as `dns_parse_reply` is given it: what it points to, and a length of at most
`UDP_REPLY_PAYLOAD_MAX`. -/
structure DnsReply where
  bytes : ByteMap
  len : Nat
  len_le : len ≤ 1472

/-- The reading comes to an end, and has read bytes of the reply only. -/
def DnsReply.ReadsInside {α : Type} (reply : DnsReply) (reader : MsgReader α) : Prop :=
  Ends reader [] (fun _ reads => ∀ p ∈ reads, p < reply.len)
    (fun e reads => e = .malformed ∧ ∀ p ∈ reads, p < reply.len)

/-! ## Single reads -/

section Reads

variable {bytes : ByteMap} {len p : Nat} {reads : List Nat}

/-- All of them lie inside the message. -/
abbrev Inside (len : Nat) (reads : List Nat) : Prop := ∀ p ∈ reads, p < len

/-- How a reading may fail. -/
abbrev FailsInside (len : Nat) (e : DnsError) (reads : List Nat) : Prop :=
  e = .malformed ∧ Inside len reads

theorem inside_append (hinside : Inside len reads) (hp : p < len) : Inside len (reads ++ [p]) := by
  intro q hq
  rcases List.mem_append.mp hq with hq | hq
  · exact hinside q hq
  · rwa [List.mem_singleton.mp hq]

theorem readMsg_inside (hinside : Inside len reads) (hp : p < len) :
    Ends (readMsg bytes p) reads (fun b reads => b = bytes p ∧ Inside len reads)
      (FailsInside len) :=
  ⟨rfl, inside_append hinside hp⟩

theorem dnsRead16_inside (hinside : Inside len reads) (hp : p + 1 < len) :
    Ends (dnsRead16 bytes p) reads (fun _ reads => Inside len reads) (FailsInside len) := by
  rw [dnsRead16, ends_bind]
  apply (readMsg_inside hinside (Nat.lt_of_succ_lt hp)).mono
  rintro high reads ⟨-, hinside⟩
  rw [ends_bind]
  apply (readMsg_inside hinside hp).mono
  rintro low reads ⟨-, hinside⟩
  exact hinside

theorem malformed_inside {α : Type} {post : α → List Nat → Prop} (hinside : Inside len reads) :
    Ends malformed reads post (FailsInside len) :=
  ⟨rfl, hinside⟩

/-! ## The loops -/

/-- A length byte is less than 64. -/
theorem label_lt {label : UInt8} (hlabel : label &&& 0xC0 = 0) : label.toNat < 64 := by
  have hall : ∀ n < 256, n &&& 0xC0 = 0 → n < 64 := by decide +kernel
  have hnat := congrArg UInt8.toNat hlabel
  rw [UInt8.toNat_and] at hnat
  exact hall label.toNat label.toNat_lt hnat

/-- A name ends before the rounds run out, and at most one byte beyond the message: each round
takes the cursor two bytes or more towards its end. -/
theorem dnsSkipName_inside {rounds : Nat} (hlen : len ≤ 1472) (hpos : 0 < rounds)
    (hrounds : len < p + rounds) (hinside : Inside len reads) :
    Ends (dnsSkipName bytes len rounds p) reads
      (fun q reads => q ≤ len + 1 ∧ Inside len reads) (FailsInside len) := by
  induction rounds generalizing p reads with
  | zero => exact absurd hpos (Nat.lt_irrefl 0)
  | succ rounds ih =>
      rw [dnsSkipName, ends_ite]
      refine ⟨fun _ => malformed_inside hinside, fun hp => ?_⟩
      rw [ends_bind]
      apply (readMsg_inside hinside (Nat.lt_of_not_le hp)).mono
      rintro label reads ⟨-, hinside⟩
      simp only [ends_ite, ends_pure]
      refine ⟨fun _ => ⟨?_, hinside⟩, fun _ => ⟨fun _ => ⟨?_, hinside⟩, fun _ =>
        ⟨fun _ => malformed_inside hinside, fun hlabel => ⟨fun _ => malformed_inside hinside,
          fun hnext => ?_⟩⟩⟩⟩
      · rw [Nat.mod_eq_of_lt (by omega)]
        omega
      · rw [Nat.mod_eq_of_lt (by omega)]
        omega
      · have hsmall := label_lt (not_not.mp hlabel)
        rw [Nat.mod_eq_of_lt (by omega)] at hnext ⊢
        exact ih (by omega) (by omega) hinside

/-- `dns_skip_name` ends, wherever it starts. -/
theorem skipName_inside (hlen : len ≤ 1472) (hinside : Inside len reads) :
    Ends (skipName bytes len p) reads (fun q reads => q ≤ len + 1 ∧ Inside len reads)
      (FailsInside len) :=
  dnsSkipName_inside hlen (by decide) (by omega) hinside

theorem skipQuestions_inside {left : Nat} (hlen : len ≤ 1472) (hinside : Inside len reads) :
    Ends (skipQuestions bytes len left p) reads (fun _ reads => Inside len reads)
      (FailsInside len) := by
  induction left generalizing p reads with
  | zero => exact hinside
  | succ left ih =>
      rw [skipQuestions, ends_bind]
      apply (skipName_inside hlen hinside).mono
      rintro q reads ⟨-, hinside⟩
      rw [ends_ite]
      exact ⟨fun _ => malformed_inside hinside, fun _ => ih hinside⟩

/-- The ten bytes of a record, and the four of an address, are compared with the length before
they are read; so it does not matter where the record before has led. -/
theorem walkAnswers_inside {left : Nat} (hlen : len ≤ 1472) (hinside : Inside len reads) :
    Ends (walkAnswers bytes len left p) reads (fun _ reads => Inside len reads)
      (FailsInside len) := by
  induction left generalizing p reads with
  | zero => exact malformed_inside hinside
  | succ left ih =>
      rw [walkAnswers, ends_bind]
      apply (skipName_inside hlen hinside).mono
      rintro q reads ⟨hq, hinside⟩
      rw [ends_ite]
      refine ⟨fun _ => malformed_inside hinside, fun hrecord => ?_⟩
      rw [ends_bind]
      apply (dnsRead16_inside hinside (by omega)).mono
      intro type reads hinside
      rw [ends_bind]
      apply (dnsRead16_inside hinside (by omega)).mono
      intro rdlength reads hinside
      rw [Nat.mod_eq_of_lt (by omega), ends_ite]
      refine ⟨fun _ => ?_, fun _ => ?_⟩
      · rw [ends_ite]
        refine ⟨fun _ => malformed_inside hinside, fun hdata => ?_⟩
        simp only [ends_bind]
        apply (readMsg_inside hinside (by omega)).mono
        rintro a reads ⟨-, hinside⟩
        apply (readMsg_inside hinside (by omega)).mono
        rintro b reads ⟨-, hinside⟩
        apply (readMsg_inside hinside (by omega)).mono
        rintro c reads ⟨-, hinside⟩
        apply (readMsg_inside hinside (by omega)).mono
        rintro d reads ⟨-, hinside⟩
        exact hinside
      · rw [ends_ite]
        exact ⟨fun _ => malformed_inside hinside, fun _ => ih hinside⟩

end Reads

/-- Whatever a reply contains, `dns_parse_reply` ends and reads inside it, and so does
`dns_skip_name` from any place. -/
theorem DnsReply.readsInside (reply : DnsReply) :
    reply.ReadsInside (dnsParseReply reply.bytes reply.len) ∧
      ∀ pos, reply.ReadsInside (skipName reply.bytes reply.len pos) := by
  have hnone : Inside reply.len [] := fun p hp => absurd hp List.not_mem_nil
  have hlen := reply.len_le
  constructor
  · rw [ReadsInside, dnsParseReply, ends_ite]
    refine ⟨fun _ => malformed_inside hnone, fun hheader => ?_⟩
    rw [ends_bind]
    apply (dnsRead16_inside hnone (by omega)).mono
    intro flags reads hinside
    rw [ends_bind]
    apply (dnsRead16_inside hinside (by omega)).mono
    intro qdCount reads hinside
    rw [ends_bind]
    apply (dnsRead16_inside hinside (by omega)).mono
    intro anCount reads hinside
    simp only [ends_ite, ends_bind]
    refine ⟨fun _ => malformed_inside hinside, fun _ => ⟨fun _ => malformed_inside hinside,
      fun _ => ?_⟩⟩
    apply (skipQuestions_inside hlen hinside).mono
    intro pos reads hinside
    exact walkAnswers_inside hlen hinside
  · intro pos
    exact Ends.mono (skipName_inside hlen hnone) fun _ _ hboth => hboth.2

end GeckoOS.Net
