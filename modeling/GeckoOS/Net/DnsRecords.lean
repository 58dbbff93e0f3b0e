/-
# The records of a DNS reply

The reference reads a reply with positions that are numbers: names, questions and records lie
one behind the other and inside the message, up to the first address record.  `dns_parse_reply`
does the same with a 16-bit cursor.

The two can differ in one place.  A record may claim to reach beyond the position 65535.  The
reference rejects it, since no message is as long as that; the cursor wraps, comes back into the
message and reads on from there.  If it then meets an address record, the reply is accepted with
an address that is none.  The theorem of this module says that there is no other difference.
-/

import GeckoOS.Net.DnsReply

namespace GeckoOS.Net

open GeckoOS.Math ByteMap

variable {bytes : ByteMap} {len : Nat}

/-! ## The reference -/

/-- A 16-bit field. -/
def shortAt (bytes : ByteMap) (position : Nat) : Nat :=
  (bytes position).toNat * 256 + (bytes (position + 1)).toNat

/-- The four bytes of an address. -/
def addressAt (bytes : ByteMap) (position : Nat) : UInt32 :=
  (bytes position).toUInt32 <<< 24 ||| (bytes (position + 1)).toUInt32 <<< 16 |||
    (bytes (position + 2)).toUInt32 <<< 8 ||| (bytes (position + 3)).toUInt32

/-- A name inside the message starts at one position and ends before the other. -/
inductive NameIn (bytes : ByteMap) (len : Nat) : Nat → Nat → Prop
  | root {start : Nat} (hin : start < len) (hroot : bytes start = 0) :
      NameIn bytes len start (start + 1)
  | pointer {start : Nat} (hin : start < len) (hpointer : bytes start &&& 0xC0 = 0xC0) :
      NameIn bytes len start (start + 2)
  | label {start stop : Nat} (hin : start < len) (hlabel : bytes start ≠ 0)
      (hshort : bytes start &&& 0xC0 = 0) (hend : start + 1 + (bytes start).toNat ≤ len)
      (hrest : NameIn bytes len (start + 1 + (bytes start).toNat) stop) :
      NameIn bytes len start stop

/-- So many questions lie inside the message from one position up to the other. -/
inductive QuestionsIn (bytes : ByteMap) (len : Nat) : Nat → Nat → Nat → Prop
  | none {start : Nat} : QuestionsIn bytes len 0 start start
  | question {count start nameEnd stop : Nat} (hname : NameIn bytes len start nameEnd)
      (hend : nameEnd + 4 ≤ len) (hrest : QuestionsIn bytes len count (nameEnd + 4) stop) :
      QuestionsIn bytes len (count + 1) start stop

/-- The fields behind the name of a record are those of an address record. -/
def IsAddress (bytes : ByteMap) (nameEnd : Nat) : Prop :=
  shortAt bytes nameEnd = 1 ∧ shortAt bytes (nameEnd + 8) = 4

/-- Where the record ends whose name ends here. -/
def recordEnd (bytes : ByteMap) (nameEnd : Nat) : Nat := nameEnd + 10 + shortAt bytes (nameEnd + 8)

/-- The first address among so many records from a position on.  A record that is none of an
address lies inside the message if what its end is taken for does. -/
inductive FirstAddress (endOf : Nat → Nat) (bytes : ByteMap) (len : Nat) :
    Nat → Nat → UInt32 → Prop
  | found {count start nameEnd : Nat} (hname : NameIn bytes len start nameEnd)
      (hrecord : nameEnd + 14 ≤ len) (haddress : IsAddress bytes nameEnd) :
      FirstAddress endOf bytes len (count + 1) start (addressAt bytes (nameEnd + 10))
  | other {count start nameEnd : Nat} {ip : UInt32} (hname : NameIn bytes len start nameEnd)
      (hrecord : nameEnd + 10 ≤ len) (hother : ¬ IsAddress bytes nameEnd)
      (hend : endOf (recordEnd bytes nameEnd) ≤ len)
      (hrest : FirstAddress endOf bytes len count (endOf (recordEnd bytes nameEnd)) ip) :
      FirstAddress endOf bytes len (count + 1) start ip

/-- The end of a record as a number. -/
abbrev exactly (position : Nat) : Nat := position

/-- The end of a record as the cursor holds it. -/
abbrev cursor (position : Nat) : Nat := position % 2 ^ 16

namespace DnsReply

/-- The header is that of a response without an error, and the questions lie inside the message:
the records start here. -/
def RecordsAt (reply : DnsReply) (start : Nat) : Prop :=
  12 ≤ reply.len ∧ shortAt reply.bytes 2 &&& 0x8000 ≠ 0 ∧ shortAt reply.bytes 2 &&& 0x000F = 0 ∧
    QuestionsIn reply.bytes reply.len (shortAt reply.bytes 4) 12 start

/-- The reference accepts the reply with this address. -/
def Answers (reply : DnsReply) (ip : UInt32) : Prop :=
  ∃ start, reply.RecordsAt start ∧
    FirstAddress exactly reply.bytes reply.len (shortAt reply.bytes 6) start ip

/-- `dns_parse_reply` returns 0 with this address. -/
def Parses (reply : DnsReply) (ip : UInt32) : Prop :=
  ∃ reads, dnsParseReply reply.bytes reply.len [] = .ok ip reads

/-- A record is followed that ends beyond 65535, and from the place to which its end is reduced
the records lead to an address. -/
inductive WrapsFrom (bytes : ByteMap) (len : Nat) : Nat → Nat → Prop
  | wraps {count start nameEnd : Nat} {ip : UInt32} (hname : NameIn bytes len start nameEnd)
      (hrecord : nameEnd + 10 ≤ len) (hother : ¬ IsAddress bytes nameEnd)
      (hbeyond : 2 ^ 16 ≤ recordEnd bytes nameEnd)
      (hend : cursor (recordEnd bytes nameEnd) ≤ len)
      (hrest : FirstAddress cursor bytes len count (cursor (recordEnd bytes nameEnd)) ip) :
      WrapsFrom bytes len (count + 1) start
  | other {count start nameEnd : Nat} (hname : NameIn bytes len start nameEnd)
      (hrecord : nameEnd + 10 ≤ len) (hother : ¬ IsAddress bytes nameEnd)
      (hend : recordEnd bytes nameEnd ≤ len)
      (hrest : WrapsFrom bytes len count (recordEnd bytes nameEnd)) :
      WrapsFrom bytes len (count + 1) start

/-- Before any address record there is one that ends beyond 65535, and the wrapped cursor comes
to an address. -/
def WrapsAround (reply : DnsReply) : Prop :=
  ∃ start, reply.RecordsAt start ∧
    WrapsFrom reply.bytes reply.len (shortAt reply.bytes 6) start

end DnsReply

/-! ## Names -/

section Names

variable {start stop stop' : Nat}

theorem NameIn.unique (hfirst : NameIn bytes len start stop)
    (hsecond : NameIn bytes len start stop') : stop = stop' := by
  induction hfirst generalizing stop' with
  | root hin hroot =>
      cases hsecond with
      | root _ _ => rfl
      | pointer _ hpointer =>
          rw [hroot] at hpointer
          exact absurd hpointer (by decide)
      | label _ hlabel _ _ _ => exact absurd hroot hlabel
  | pointer hin hpointer =>
      cases hsecond with
      | root _ hroot =>
          rw [hroot] at hpointer
          exact absurd hpointer (by decide)
      | pointer _ _ => rfl
      | label _ _ hshort _ _ =>
          rw [hpointer] at hshort
          exact absurd hshort (by decide)
  | label hin hlabel hshort hend _ ih =>
      cases hsecond with
      | root _ hroot => exact absurd hroot hlabel
      | pointer _ hpointer =>
          rw [hpointer] at hshort
          exact absurd hshort (by decide)
      | label _ _ _ _ hrest => exact ih hrest

theorem NameIn.stop_le (hname : NameIn bytes len start stop) : stop ≤ len + 1 := by
  induction hname with
  | root hin _ => omega
  | pointer hin _ => omega
  | label _ _ _ _ _ ih => exact ih

theorem NameIn.start_lt (hname : NameIn bytes len start stop) : start < len := by
  cases hname <;> assumption

/-- Where a name ends is where it has to go on. -/
theorem NameIn.exists_iff {result : Nat → Prop} (hname : NameIn bytes len start stop) :
    (∃ stop', NameIn bytes len start stop' ∧ result stop') ↔ result stop := by
  constructor
  · rintro ⟨stop', hname', hresult⟩
    rwa [hname.unique hname']
  · exact fun hresult => ⟨stop, hname, hresult⟩

end Names

/-! ## The code reads what there is -/

section Reads

variable {reads : List Nat} {p : Nat}

theorem returns_congr {ε σ α : Type} {x : EStateM ε σ α} {s : σ} {post post' : α → σ → Prop}
    (hsame : ∀ a s', post a s' ↔ post' a s') : Returns x s post ↔ Returns x s post' :=
  ⟨fun hreturns => hreturns.mono fun a s' => (hsame a s').mp,
    fun hreturns => hreturns.mono fun a s' => (hsame a s').mpr⟩

theorem returns_readMsg {post : UInt8 → List Nat → Prop} :
    Returns (readMsg bytes p) reads post ↔ post (bytes p) (reads ++ [p]) :=
  returns_of_run rfl

theorem returns_dnsRead16 {post : Nat → List Nat → Prop} :
    Returns (dnsRead16 bytes p) reads post ↔ post (shortAt bytes p) (reads ++ [p] ++ [p + 1]) :=
  returns_of_run rfl

theorem not_returns_malformed {α : Type} {post : α → List Nat → Prop} :
    ¬ Returns malformed reads post :=
  not_returns_throw _

/-- Going through a name finds its end; the cursor does not wrap. -/
theorem returns_dnsSkipName {rounds : Nat} {result : Nat → Prop} (hlen : len ≤ 1472)
    (hpos : 0 < rounds) (hrounds : len < p + rounds) :
    Returns (dnsSkipName bytes len rounds p) reads (fun q _ => result q) ↔
      ∃ q, NameIn bytes len p q ∧ result q := by
  induction rounds generalizing p reads with
  | zero => exact absurd hpos (Nat.lt_irrefl 0)
  | succ rounds ih =>
      rw [dnsSkipName]
      by_cases hp : len ≤ p
      · rw [if_pos hp, iff_false_left not_returns_malformed]
        rintro ⟨q, hname, -⟩
        exact absurd hname.start_lt (Nat.not_lt.mpr hp)
      have hin : p < len := Nat.lt_of_not_le hp
      rw [if_neg hp, returns_bind, returns_readMsg]
      by_cases hroot : bytes p = 0
      · rw [if_pos hroot, returns_pure, Nat.mod_eq_of_lt (by omega)]
        exact (NameIn.root hin hroot).exists_iff.symm
      rw [if_neg hroot]
      by_cases hpointer : bytes p &&& 0xC0 = 0xC0
      · rw [if_pos hpointer, returns_pure, Nat.mod_eq_of_lt (by omega)]
        exact (NameIn.pointer hin hpointer).exists_iff.symm
      rw [if_neg hpointer]
      by_cases hshort : bytes p &&& 0xC0 = 0
      · have hsmall := label_lt hshort
        rw [if_neg (not_not.mpr hshort), Nat.mod_eq_of_lt (by omega)]
        by_cases hend : len < p + 1 + (bytes p).toNat
        · rw [if_pos hend, iff_false_left not_returns_malformed]
          rintro ⟨q, hname, -⟩
          cases hname with
          | root _ hzero => exact hroot hzero
          | pointer _ hpointer' => exact hpointer hpointer'
          | label _ _ _ hend' _ => exact absurd hend (Nat.not_lt.mpr hend')
        · rw [if_neg hend, ih (by omega) (by omega)]
          constructor
          · rintro ⟨q, hname, hresult⟩
            exact ⟨q, .label hin hroot hshort (Nat.le_of_not_lt hend) hname, hresult⟩
          · rintro ⟨q, hname, hresult⟩
            cases hname with
            | root _ hzero => exact absurd hzero hroot
            | pointer _ hpointer' => exact absurd hpointer' hpointer
            | label _ _ _ _ hrest => exact ⟨q, hrest, hresult⟩
      · rw [if_pos hshort, iff_false_left not_returns_malformed]
        rintro ⟨q, hname, -⟩
        cases hname with
        | root _ hzero => exact hroot hzero
        | pointer _ hpointer' => exact hpointer hpointer'
        | label _ _ hshort' _ _ => exact hshort hshort'

theorem returns_skipName {result : Nat → Prop} (hlen : len ≤ 1472) :
    Returns (skipName bytes len p) reads (fun q _ => result q) ↔
      ∃ q, NameIn bytes len p q ∧ result q :=
  returns_dnsSkipName hlen (by decide) (by omega)

theorem returns_skipQuestions {left : Nat} {result : Nat → Prop} (hlen : len ≤ 1472) :
    Returns (skipQuestions bytes len left p) reads (fun q _ => result q) ↔
      ∃ q, QuestionsIn bytes len left p q ∧ result q := by
  induction left generalizing p reads with
  | zero =>
      rw [skipQuestions, returns_pure]
      constructor
      · exact fun hresult => ⟨p, .none, hresult⟩
      · rintro ⟨q, ⟨⟩, hresult⟩
        exact hresult
  | succ left ih =>
      have hnext : ∀ q reads, Returns
          (if len < (q + 4) % 2 ^ 16 then malformed
            else skipQuestions bytes len left ((q + 4) % 2 ^ 16)) reads (fun q _ => result q) ↔
          ¬ len < (q + 4) % 2 ^ 16 ∧
            ∃ r, QuestionsIn bytes len left ((q + 4) % 2 ^ 16) r ∧ result r := by
        intro q reads
        by_cases hend : len < (q + 4) % 2 ^ 16
        · rw [if_pos hend, iff_false_left not_returns_malformed]
          exact fun hboth => hboth.1 hend
        · rw [if_neg hend, ih, and_iff_right hend]
      rw [skipQuestions, returns_bind, returns_congr hnext, returns_skipName hlen]
      constructor
      · rintro ⟨q, hname, hend, r, hrest, hresult⟩
        have hq := hname.stop_le
        rw [Nat.mod_eq_of_lt (by omega)] at hend hrest
        exact ⟨r, .question hname (Nat.le_of_not_lt hend) hrest, hresult⟩
      · rintro ⟨r, hquestions, hresult⟩
        cases hquestions with
        | question hname hend hrest =>
            rename_i q
            refine ⟨q, hname, ?_⟩
            rw [Nat.mod_eq_of_lt (by omega)]
            exact ⟨Nat.not_lt.mpr hend, r, hrest, hresult⟩

/-- What is behind the name of the first of so many records leads to the address. -/
def LeadsTo (endOf : Nat → Nat) (bytes : ByteMap) (len count nameEnd : Nat) (ip : UInt32) : Prop :=
  nameEnd + 10 ≤ len ∧
    (IsAddress bytes nameEnd ∧ nameEnd + 14 ≤ len ∧ addressAt bytes (nameEnd + 10) = ip ∨
      ¬ IsAddress bytes nameEnd ∧ endOf (recordEnd bytes nameEnd) ≤ len ∧
        FirstAddress endOf bytes len count (endOf (recordEnd bytes nameEnd)) ip)

theorem firstAddress_succ_iff {endOf : Nat → Nat} {count : Nat} {ip : UInt32} :
    FirstAddress endOf bytes len (count + 1) p ip ↔
      ∃ nameEnd, NameIn bytes len p nameEnd ∧ LeadsTo endOf bytes len count nameEnd ip := by
  constructor
  · intro hfirst
    cases hfirst with
    | found hname hrecord haddress =>
        exact ⟨_, hname, by omega, .inl ⟨haddress, hrecord, rfl⟩⟩
    | other hname hrecord hother hend hrest =>
        exact ⟨_, hname, hrecord, .inr ⟨hother, hend, hrest⟩⟩
  · rintro ⟨nameEnd, hname, hrecord, ⟨haddress, hdata, rfl⟩ | ⟨hother, hend, hrest⟩⟩
    · exact .found hname hdata haddress
    · exact .other hname hrecord hother hend hrest

/-- The loop over the records finds what they hold, with the cursor for their ends. -/
theorem returns_walkAnswers {left : Nat} {ip : UInt32} (hlen : len ≤ 1472) :
    Returns (walkAnswers bytes len left p) reads (fun a _ => a = ip) ↔
      FirstAddress cursor bytes len left p ip := by
  induction left generalizing p reads with
  | zero =>
      rw [walkAnswers, iff_false_left not_returns_malformed]
      intro hfirst
      cases hfirst
  | succ left ih =>
      rw [walkAnswers, returns_bind, firstAddress_succ_iff, ← returns_skipName hlen]
      apply returns_congr
      intro q reads
      by_cases hrecord : len < q + 10
      · rw [if_pos hrecord, iff_false_left not_returns_malformed]
        exact fun hleads => absurd hleads.1 (Nat.not_le.mpr hrecord)
      rw [if_neg hrecord, returns_bind, returns_dnsRead16, returns_bind, returns_dnsRead16,
        Nat.mod_eq_of_lt (by omega), LeadsTo, and_iff_right (Nat.le_of_not_lt hrecord)]
      dsimp only
      by_cases haddress : shortAt bytes q = 1 ∧ shortAt bytes (q + 8) = 4
      · rw [if_pos haddress, or_iff_left fun hother => hother.1 haddress,
          and_iff_right (show IsAddress bytes q from haddress)]
        by_cases hdata : len < q + 10 + 4
        · rw [if_pos hdata, iff_false_left not_returns_malformed]
          exact fun hboth => absurd hboth.1 (Nat.not_le.mpr hdata)
        · rw [if_neg hdata, and_iff_right (Nat.le_of_not_lt hdata)]
          simp only [returns_bind, returns_readMsg, returns_pure]
          rfl
      · rw [if_neg haddress, or_iff_right fun hfound => haddress hfound.1,
          and_iff_right (show ¬ IsAddress bytes q from haddress)]
        by_cases hend : len < (q + 10 + shortAt bytes (q + 8)) % 2 ^ 16
        · rw [if_pos hend, iff_false_left not_returns_malformed]
          exact fun hboth => absurd hboth.1 (Nat.not_le.mpr hend)
        · rw [if_neg hend, ih, and_iff_right]
          · rfl
          · exact Nat.le_of_not_lt hend

/-- The parser as a whole. -/
theorem DnsReply.parses_iff (reply : DnsReply) (ip : UInt32) :
    reply.Parses ip ↔ ∃ start, reply.RecordsAt start ∧
      FirstAddress cursor reply.bytes reply.len (shortAt reply.bytes 6) start ip := by
  have hreturns : reply.Parses ip ↔
      Returns (dnsParseReply reply.bytes reply.len) [] fun a _ => a = ip := by
    constructor
    · rintro ⟨reads, hrun⟩
      exact ⟨ip, reads, hrun, rfl⟩
    · rintro ⟨_, reads, hrun, rfl⟩
      exact ⟨reads, hrun⟩
  rw [hreturns, dnsParseReply]
  by_cases hheader : reply.len < 12
  · rw [if_pos hheader, iff_false_left not_returns_malformed]
    rintro ⟨start, hrecords, -⟩
    exact absurd hheader (Nat.not_lt.mpr hrecords.1)
  rw [if_neg hheader]
  simp only [returns_bind, returns_dnsRead16]
  by_cases hresponse : shortAt reply.bytes 2 &&& 0x8000 = 0
  · rw [if_pos hresponse, iff_false_left not_returns_malformed]
    rintro ⟨start, hrecords, -⟩
    exact hrecords.2.1 hresponse
  rw [if_neg hresponse]
  by_cases hrcode : shortAt reply.bytes 2 &&& 0x000F = 0
  · rw [if_neg (not_not.mpr hrcode), returns_bind, returns_congr fun start reads =>
      returns_walkAnswers reply.len_le, returns_skipQuestions reply.len_le]
    constructor
    · rintro ⟨start, hquestions, hfirst⟩
      exact ⟨start, ⟨Nat.le_of_not_lt hheader, hresponse, hrcode, hquestions⟩, hfirst⟩
    · rintro ⟨start, hrecords, hfirst⟩
      exact ⟨start, hrecords.2.2.2, hfirst⟩
  · rw [if_pos hrcode, iff_false_left not_returns_malformed]
    rintro ⟨start, hrecords, -⟩
    exact hrcode hrecords.2.2.1

end Reads

/-! ## Where the two differ -/

section Wrapping

variable {count start stop stop' : Nat} {ip : UInt32}

theorem QuestionsIn.unique (hfirst : QuestionsIn bytes len count start stop)
    (hsecond : QuestionsIn bytes len count start stop') : stop = stop' := by
  induction hfirst with
  | none =>
      cases hsecond
      rfl
  | question hname _ _ ih =>
      cases hsecond with
      | question hname' _ hrest' =>
          obtain rfl := hname.unique hname'
          exact ih hrest'

/-- What the reference finds is found with a cursor: it never gets beyond the message. -/
theorem FirstAddress.toCursor (hlen : len ≤ 1472)
    (hfirst : FirstAddress exactly bytes len count start ip) :
    FirstAddress cursor bytes len count start ip := by
  induction hfirst with
  | found hname hrecord haddress => exact .found hname hrecord haddress
  | other hname hrecord hother hend _ ih =>
      have hcursor : cursor (recordEnd bytes _) = recordEnd bytes _ := Nat.mod_eq_of_lt
        (hend.trans_lt (by omega))
      apply FirstAddress.other hname hrecord hother
      · rw [hcursor]
        exact hend
      · rw [hcursor]
        exact ih

/-- What is found with a cursor is found by the reference, or the cursor has wrapped. -/
theorem FirstAddress.exactly_or_wraps
    (hfirst : FirstAddress cursor bytes len count start ip) :
    FirstAddress exactly bytes len count start ip ∨ DnsReply.WrapsFrom bytes len count start := by
  induction hfirst with
  | found hname hrecord haddress => exact .inl (.found hname hrecord haddress)
  | other hname hrecord hother hend hrest ih =>
      rcases Nat.lt_or_ge (recordEnd bytes _) (2 ^ 16) with hbelow | hbeyond
      · rw [show cursor _ = _ from Nat.mod_eq_of_lt hbelow] at hend ih
        rcases ih with hexact | hwraps
        · exact .inl (.other hname hrecord hother hend hexact)
        · exact .inr (.other hname hrecord hother hend hwraps)
      · exact .inr (.wraps hname hrecord hother hbeyond hend hrest)

/-- The cursor that wraps comes to an address. -/
theorem DnsReply.WrapsFrom.finds (hlen : len ≤ 1472)
    (hwraps : DnsReply.WrapsFrom bytes len count start) :
    ∃ ip, FirstAddress cursor bytes len count start ip := by
  induction hwraps with
  | wraps hname hrecord hother _ hend hrest => exact ⟨_, .other hname hrecord hother hend hrest⟩
  | other hname hrecord hother hend _ ih =>
      obtain ⟨ip, hrest⟩ := ih
      have hcursor : cursor (recordEnd bytes _) = recordEnd bytes _ := Nat.mod_eq_of_lt
        (hend.trans_lt (by omega))
      refine ⟨ip, .other hname hrecord hother ?_ ?_⟩
      · rw [hcursor]
        exact hend
      · rw [hcursor]
        exact hrest

/-- The reference finds nothing there. -/
theorem DnsReply.WrapsFrom.not_exactly (hlen : len ≤ 1472)
    (hwraps : DnsReply.WrapsFrom bytes len count start) :
    ¬ FirstAddress exactly bytes len count start ip := by
  intro hfirst
  induction hwraps with
  | wraps hname _ hother hbeyond _ _ =>
      cases hfirst with
      | found hname' _ haddress =>
          obtain rfl := hname.unique hname'
          exact hother haddress
      | other hname' _ _ hend' _ =>
          obtain rfl := hname.unique hname'
          have hinside : recordEnd bytes _ ≤ len := hend'
          omega
  | other hname _ hother _ _ ih =>
      cases hfirst with
      | found hname' _ haddress =>
          obtain rfl := hname.unique hname'
          exact hother haddress
      | other hname' _ _ _ hrest' =>
          obtain rfl := hname.unique hname'
          exact ih hrest'

theorem DnsReply.RecordsAt.unique {reply : DnsReply} (hfirst : reply.RecordsAt start)
    (hsecond : reply.RecordsAt stop) : start = stop :=
  hfirst.2.2.2.unique hsecond.2.2.2

end Wrapping

/-- `dns_parse_reply` agrees with the reference about a reply exactly when no record in it makes
the cursor wrap and find an address. -/
theorem DnsReply.parses_iff_answers (reply : DnsReply) :
    (∀ ip, reply.Parses ip ↔ reply.Answers ip) ↔ ¬ reply.WrapsAround := by
  have hlen := reply.len_le
  constructor
  · rintro hagree ⟨start, hrecords, hwraps⟩
    obtain ⟨ip, hfirst⟩ := hwraps.finds hlen
    have hparses := (reply.parses_iff ip).mpr ⟨start, hrecords, hfirst⟩
    obtain ⟨start', hrecords', hexact⟩ := (hagree ip).mp hparses
    obtain rfl := hrecords.unique hrecords'
    exact hwraps.not_exactly hlen hexact
  · intro hnever ip
    rw [parses_iff]
    constructor
    · rintro ⟨start, hrecords, hfirst⟩
      rcases hfirst.exactly_or_wraps with hexact | hwraps
      · exact ⟨start, hrecords, hexact⟩
      · exact absurd ⟨start, hrecords, hwraps⟩ hnever
    · rintro ⟨start, hrecords, hexact⟩
      exact ⟨start, hrecords, hexact.toCursor hlen⟩

/-- One question and two records.  The first record claims 65511 bytes of data, so that the
cursor comes back to the position 3, in the header. -/
def wrappingReply : DnsReply where
  bytes := ofList [0, 0, 0x80, 0, 0, 1, 0, 2, 0, 0, 0, 0,
    0, 4, 0, 0, 1,
    0, 0, 5, 0, 1, 0, 0, 0, 0, 0xFF, 0xE7]
  len := 28
  len_le := by decide

/-- From the header and the question the address 0.0.1.0 is read. -/
theorem not_parses_iff_answers :
    ¬ ∀ ip, wrappingReply.Parses ip ↔ wrappingReply.Answers ip := by
  intro hagree
  have hrecords : wrappingReply.RecordsAt 17 :=
    ⟨by decide, by decide, by decide, .question (.root (by decide) rfl) (by decide) .none⟩
  have haddress : FirstAddress cursor wrappingReply.bytes 28 1 3 0x00000100 :=
    .found (.root (by decide) rfl) (by decide) ⟨rfl, rfl⟩
  have hwraps : DnsReply.WrapsFrom wrappingReply.bytes 28 2 17 :=
    .wraps (.root (by decide) rfl) (by decide) (fun hboth => absurd hboth.1 (by decide))
      (by decide) (by decide) haddress
  obtain ⟨ip, hfirst⟩ := hwraps.finds (by decide)
  have hparses := (wrappingReply.parses_iff ip).mpr ⟨17, hrecords, hfirst⟩
  obtain ⟨start, hrecords', hexact⟩ := (hagree ip).mp hparses
  obtain rfl := hrecords.unique hrecords'
  exact hwraps.not_exactly (by decide) hexact

end GeckoOS.Net
