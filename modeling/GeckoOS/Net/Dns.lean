/-
# DNS

`send_dns` builds a query in a buffer on the stack and hands it to `udp_request_start`;
`dns_parse_reply` looks for the first address in a reply.  Positions are 16-bit numbers in both,
and are reduced here wherever the source reduces them.

The writes of the query are logged with their places in the buffer, and the reads of the reply
with theirs in the message.  A loop that cannot end is an outcome of its own: the search for the
end of a label that is longer than its 16-bit counter, and a name in a reply that takes more
rounds than the cursor has values.
-/

import GeckoOS.Net.UdpRequest

namespace GeckoOS.Net

open GeckoOS.Math ByteMap

/-! ## Queries -/

/-- The byte `'.'`. -/
abbrev dot : UInt8 := 0x2E

/-- `hostToNetShort`. -/
def hostToNetShort (val : Nat) : Nat := (val * 256 + val / 256) % 2 ^ 16

/-- The buffer `query` of `send_dns`, and the places that have been written. -/
structure QueryBuf where
  bytes : ByteMap
  written : List Nat

/-- One byte of the buffer is written. -/
def QueryBuf.write (query : QueryBuf) (offset : Nat) (b : UInt8) : QueryBuf :=
  ⟨Function.update query.bytes offset b, query.written ++ [offset]⟩

/-- Bytes are written one after the other. -/
def QueryBuf.writeAll (query : QueryBuf) (offset : Nat) : List UInt8 → QueryBuf
  | [] => query
  | b :: rest => (query.write offset b).writeAll (offset + 1) rest

/-- The two bytes of a `uint16_t` in memory. -/
def shortBytes (val : Nat) : List UInt8 := [.ofNat (val % 256), .ofNat (val / 256 % 256)]

/-- The `DnsHeader` of a query. -/
def queryHeader : List UInt8 :=
  shortBytes (hostToNetShort 0x1234) ++ shortBytes (hostToNetShort 0x0100) ++
    shortBytes (hostToNetShort 1) ++ shortBytes 0 ++ shortBytes 0 ++ shortBytes 0

/-- One round of the search for the end of a label. -/
def labelRound (label : List UInt8) (labelLen : Nat) : Nat ⊕ Nat :=
  if label.getD labelLen 0 ≠ dot ∧ label.getD labelLen 0 ≠ 0 then .inr ((labelLen + 1) % 2 ^ 16)
  else .inl labelLen

/-- The `label_len` that is found, if the search ends. -/
def labelLength (label : List UInt8) : Option Nat :=
  let length := (label.takeWhile fun c => c ≠ dot ∧ c ≠ 0).length
  if length < 2 ^ 16 then some length else none

/-- `out[pos++] = c`, where `out` is `query + 12`. -/
def putByte (s : Nat × QueryBuf) (c : UInt8) : Nat × QueryBuf :=
  ((s.1 + 1) % 2 ^ 16, s.2.write (12 + s.1) c)

/-- How `encode_dns_name` ends. -/
inductive Encoding
  /-- It does not. -/
  | endless
  /-- With an early return, which leaves `out_len` as it was. -/
  | invalid (query : QueryBuf)
  | encoded (outLen : Nat) (query : QueryBuf)

/-- `encode_dns_name`, with `label` at the rest of the name; each round takes a character or
more. -/
def encodeDnsName : Nat → List UInt8 → Nat → QueryBuf → Encoding
  | _, [], pos, query =>
      let (pos, query) := putByte (pos, query) 0
      .encoded pos query
  | 0, _ :: _, _, _ => .endless
  | rounds + 1, c :: name, pos, query =>
      let label := c :: name
      match labelLength label with
      | none => .endless
      | some labelLen =>
          if labelLen = 0 ∨ 63 < labelLen then .invalid query
          else
            let (pos, query) :=
              (UInt8.ofNat labelLen :: label.take labelLen).foldl putByte (pos, query)
            let label := label.drop labelLen
            encodeDnsName rounds (if label.head? = some dot then label.tail else label) pos query

/-- What `send_dns` does. -/
inductive DnsSent
  /-- It never comes to send anything. -/
  | endless
  /-- It goes on with a `nameLen` that was never set. -/
  | undefinedLength
  /-- It passes a query to `udp_request_start`. -/
  | request (query : List UInt8) (written : List Nat) (s : RequestState)

/-- `send_dns`, with what is on the stack where `query` lies. -/
def sendDns (stack : ByteMap) (name : List UInt8) (s : RequestState) : DnsSent :=
  let query := QueryBuf.writeAll ⟨stack, []⟩ 0 queryHeader
  match encodeDnsName name.length name 0 query with
  | .endless => .endless
  | .invalid _ => .undefinedLength
  | .encoded nameLen query =>
      let pos := (12 + nameLen) % 2 ^ 16
      let query := query.writeAll pos (shortBytes (hostToNetShort 1))
      let pos := (pos + 2) % 2 ^ 16
      let query := query.writeAll pos (shortBytes (hostToNetShort 1))
      let pos := (pos + 2) % 2 ^ 16
      let payload := query.bytes.slice 0 pos
      .request payload query.written (udpRequestStart s 0x08080404 49152 53 payload).2

/-! ## Replies -/

/-- How the parsing of a reply ends without an address. -/
inductive DnsError
  /-- The return value -1. -/
  | malformed
  | endless
  deriving DecidableEq

/-- A computation that reads a message; the state is the places read. -/
abbrev MsgReader := EStateM DnsError (List Nat)

/-- A byte of the message is read. -/
def readMsg (msg : ByteMap) (p : Nat) : MsgReader UInt8 := do
  modify (· ++ [p])
  return msg p

/-- `dns_read16`. -/
def dnsRead16 (msg : ByteMap) (p : Nat) : MsgReader Nat := do
  let high ← readMsg msg p
  let low ← readMsg msg (p + 1)
  return high.toNat * 256 + low.toNat

/-- Return -1. -/
def malformed {α : Type} : MsgReader α := throw .malformed

/-- `dns_skip_name`, from `p` on, with so many rounds to go. -/
def dnsSkipName (msg : ByteMap) (len : Nat) : Nat → Nat → MsgReader Nat
  | 0, _ => throw .endless
  | rounds + 1, p =>
      if len ≤ p then malformed
      else do
        let label ← readMsg msg p
        if label = 0 then return (p + 1) % 2 ^ 16
        else if label &&& 0xC0 = 0xC0 then return (p + 2) % 2 ^ 16
        else if label &&& 0xC0 ≠ 0 then malformed
        else if len < (p + 1 + label.toNat) % 2 ^ 16 then malformed
        else dnsSkipName msg len rounds ((p + 1 + label.toNat) % 2 ^ 16)

/-- `dns_skip_name`.  Its cursor has `2 ^ 16` values, so it ends within as many rounds or not at
all. -/
def skipName (msg : ByteMap) (len p : Nat) : MsgReader Nat := dnsSkipName msg len (2 ^ 16) p

/-- The loop over the question section, with so many questions to go. -/
def skipQuestions (msg : ByteMap) (len : Nat) : Nat → Nat → MsgReader Nat
  | 0, pos => return pos
  | left + 1, pos => do
      let pos ← skipName msg len pos
      if len < (pos + 4) % 2 ^ 16 then malformed
      else skipQuestions msg len left ((pos + 4) % 2 ^ 16)

/-- The loop over the answer records, with so many records to go. -/
def walkAnswers (msg : ByteMap) (len : Nat) : Nat → Nat → MsgReader UInt32
  | 0, _ => malformed
  | left + 1, pos => do
      let pos ← skipName msg len pos
      if len < pos + 10 then malformed
      else
        let type ← dnsRead16 msg pos
        let rdlength ← dnsRead16 msg (pos + 8)
        let pos := (pos + 10) % 2 ^ 16
        if type = 1 ∧ rdlength = 4 then
          if len < pos + 4 then malformed
          else
            let a ← readMsg msg pos
            let b ← readMsg msg (pos + 1)
            let c ← readMsg msg (pos + 2)
            let d ← readMsg msg (pos + 3)
            return a.toUInt32 <<< 24 ||| b.toUInt32 <<< 16 ||| c.toUInt32 <<< 8 ||| d.toUInt32
        else if len < (pos + rdlength) % 2 ^ 16 then malformed
        else walkAnswers msg len left ((pos + rdlength) % 2 ^ 16)

/-- `dns_parse_reply`: the address that it returns, or -1. -/
def dnsParseReply (msg : ByteMap) (len : Nat) : MsgReader UInt32 :=
  if len < 12 then malformed
  else do
    let flags ← dnsRead16 msg 2
    let qdCount ← dnsRead16 msg 4
    let anCount ← dnsRead16 msg 6
    if flags &&& 0x8000 = 0 then malformed
    else if flags &&& 0x000F ≠ 0 then malformed
    else
      let pos ← skipQuestions msg len qdCount 12
      walkAnswers msg len anCount pos

end GeckoOS.Net
