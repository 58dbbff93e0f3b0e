/-
# Sending through the network card

`e1000_send` posts a frame on a ring of 8 transmit descriptors.  It waits until the
descriptor at `tx_tail` is done, copies the frame into `tx_buf`, fills in the
descriptor and moves TDT behind it.  The card takes the descriptors from its head up
to TDT in order, at any later time, and sends what the buffer then holds.

There are 8 descriptors, but all of them name the one `tx_buf`.  A frame that has been
posted is safe only while nothing else is copied over it.  `Undisturbed` says this of
a single access, and the order of frames on the wire is shown for the runs in which
every copied byte meets it.

The steps are the accesses of the two sides, in any order.  The model starts where
`tx_init` leaves the card and the ring.
-/

import Mathlib.Logic.Relation
import GeckoOS.Math.ByteMap
import GeckoOS.Math.Ring

namespace GeckoOS.Drivers

open GeckoOS.Math ByteMap

/-- `E1000_NUM_TX_DESC`. -/
abbrev numTxDesc : Nat := 8

/-- `E1000_TX_BUF_SIZE`. -/
abbrev txBufSize : Nat := 2048

/-- `E1000_TXD_STAT_DD`. -/
abbrev txdStatDd : UInt8 := 1

/-- `E1000_TXD_CMD_EOP | E1000_TXD_CMD_IFCS | E1000_TXD_CMD_RS`. -/
abbrev txdCmd : UInt8 := 0x0B

/-- How often `e1000_send` looks at the status of its descriptor. -/
abbrev txTimeout : Nat := 100000

/-- The fields of `e1000_tx_desc_t` that the two sides use. -/
structure TxDesc where
  addr : Nat
  length : Nat
  cmd : UInt8
  status : UInt8

/-- Where a call of `e1000_send` stands. -/
inductive TxCall
  | idle
  /-- Waiting for the descriptor, with so many looks left. -/
  | polling (data : List UInt8) (timeout : Nat)
  /-- So many bytes have been copied into `tx_buf`. -/
  | copying (data : List UInt8) (count : Nat)
  /-- The descriptor has been filled in. -/
  | described (data : List UInt8)

/-- The transmit ring, the driver's call and the card. -/
structure TxState where
  /-- `tx_descs`. -/
  descs : Nat → TxDesc
  memory : ByteMap
  /-- The address of `tx_buf`. -/
  txBuf : Nat
  /-- `tx_tail`. -/
  txTail : Nat
  /-- The register TDT. -/
  tdt : Nat
  /-- The register TDH, the card's head. -/
  tdh : Nat
  call : TxCall
  /-- The data of the calls that return 0. -/
  accepted : List (List UInt8)
  /-- The frames the card has put on the wire. -/
  wire : List (List UInt8)

/-- `tx_init` on this memory with the buffer at this address. -/
def txInit (memory : ByteMap) (txBuf : Nat) : TxState where
  descs := fun _ => ⟨0, 0, 0, txdStatDd⟩
  memory := memory
  txBuf := txBuf
  txTail := 0
  tdt := 0
  tdh := 0
  call := .idle
  accepted := []
  wire := []

namespace TxState

/-- The descriptor at `tx_tail`. -/
def tailDesc (s : TxState) : TxDesc := s.descs s.txTail

/-- The descriptor at the card's head. -/
def headDesc (s : TxState) : TxDesc := s.descs s.tdh

end TxState

open TxState in
/-- One access of either side. -/
inductive TxStep : TxState → TxState → Prop
  /-- `len > E1000_TX_BUF_SIZE`: the call returns -1. -/
  | refuse {s : TxState} {data : List UInt8} (hcall : s.call = .idle)
      (hlarge : txBufSize < data.length) : TxStep s s
  | start {s : TxState} {data : List UInt8} (hcall : s.call = .idle)
      (hsmall : data.length ≤ txBufSize) : TxStep s { s with call := .polling data txTimeout }
  /-- The descriptor is not done; after the last look the call returns -1. -/
  | wait {s : TxState} {data : List UInt8} {timeout : Nat} (hcall : s.call = .polling data timeout)
      (hdone : s.tailDesc.status &&& txdStatDd = 0) :
      TxStep s { s with call := if timeout - 1 = 0 then .idle else .polling data (timeout - 1) }
  /-- The descriptor is done. -/
  | claim {s : TxState} {data : List UInt8} {timeout : Nat} (hcall : s.call = .polling data timeout)
      (hdone : s.tailDesc.status &&& txdStatDd ≠ 0) :
      TxStep s { s with call := .copying data 0 }
  /-- One byte of `memcpy(tx_buf, data, len)`. -/
  | copy {s : TxState} {data : List UInt8} {count : Nat} (hcall : s.call = .copying data count)
      (hmore : count < data.length) :
      TxStep s { s with
        memory := Function.update s.memory (s.txBuf + count) data[count]
        call := .copying data (count + 1) }
  /-- `addr`, `length`, `cmd` and `status` of the descriptor. -/
  | describe {s : TxState} {data : List UInt8} {count : Nat} (hcall : s.call = .copying data count)
      (hall : data.length ≤ count) :
      TxStep s { s with
        descs := Function.update s.descs s.txTail ⟨s.txBuf, data.length, txdCmd, 0⟩
        call := .described data }
  /-- `tx_tail` advances, TDT is written, and the call returns 0. -/
  | post {s : TxState} {data : List UInt8} (hcall : s.call = .described data) :
      TxStep s { s with
        txTail := (s.txTail + 1) % numTxDesc
        tdt := (s.txTail + 1) % numTxDesc
        call := .idle
        accepted := s.accepted ++ [data] }
  /-- The card sends what the next descriptor names, and sets its DD bit. -/
  | send {s : TxState} (hhead : s.tdh ≠ s.tdt) :
      TxStep s { s with
        descs := Function.update s.descs s.tdh { s.headDesc with status := txdStatDd }
        tdh := (s.tdh + 1) % numTxDesc
        wire := s.wire ++ [s.memory.slice s.headDesc.addr s.headDesc.length] }

namespace TxState

/-- If the next byte is copied now, it meets no other byte of a frame that has been
posted and is not done. -/
def Undisturbed (s : TxState) : Prop :=
  ∀ data count, s.call = .copying data count → ∀ slot < numTxDesc,
    (s.descs slot).status &&& txdStatDd = 0 → count < (s.descs slot).length →
    data[count]? = some (s.memory (s.txBuf + count))

/-- Runs from where `tx_init` leaves the ring in which no byte is copied over another
one of a posted frame. -/
def UndisturbedRun (memory : ByteMap) (txBuf : Nat) : TxState → Prop :=
  Relation.ReflTransGen (fun s s' => s.Undisturbed ∧ TxStep s s') (txInit memory txBuf)

/-- What the descriptor at `tx_tail` and the buffer are like at this point of a call. -/
def Prepared (s : TxState) : Prop :=
  match s.call with
  | .idle | .polling _ _ => True
  | .copying data count =>
      s.accepted.length < s.wire.length + numTxDesc ∧ s.tailDesc.status = txdStatDd ∧
        count ≤ data.length ∧ ∀ k < count, data[k]? = some (s.memory (s.txBuf + k))
  | .described data =>
      s.accepted.length < s.wire.length + numTxDesc ∧
        s.tailDesc = ⟨s.txBuf, data.length, txdCmd, 0⟩ ∧
        ∀ k < data.length, data[k]? = some (s.memory (s.txBuf + k))

/-- Whether the descriptor at `tx_tail` has been filled in. -/
def Described : TxCall → Prop
  | .described _ => True
  | _ => False

/-- The posted frames are the ones not yet on the wire, and `tx_buf` holds each of them. -/
structure Posted (s : TxState) : Prop where
  txTail : s.txTail = s.accepted.length % numTxDesc
  tdt : s.tdt = s.accepted.length % numTxDesc
  tdh : s.tdh = s.wire.length % numTxDesc
  wire : s.wire = s.accepted.take s.wire.length
  window : s.accepted.length ≤ s.wire.length + numTxDesc
  outstanding : ∀ j data, s.wire.length ≤ j → s.accepted[j]? = some data →
    s.descs (j % numTxDesc) = ⟨s.txBuf, data.length, txdCmd, 0⟩ ∧
      s.memory.slice s.txBuf data.length = data
  done : ∀ j, s.accepted.length ≤ j → j < s.wire.length + numTxDesc →
    (Described s.call → j ≠ s.accepted.length) → (s.descs (j % numTxDesc)).status = txdStatDd
  prepared : s.Prepared

variable {s s' : TxState} {data : List UInt8} {memory : ByteMap} {txBuf : Nat}

theorem init_posted (memory : ByteMap) (txBuf : Nat) : Posted (txInit memory txBuf) where
  txTail := rfl
  tdt := rfl
  tdh := rfl
  wire := rfl
  window := Nat.zero_le _
  outstanding j data _ hget := by cases hget
  done _ _ _ _ := rfl
  prepared := trivial

/-! ## Each access keeps the posted frames -/

/-- A call that leaves ring and memory alone only has to know its own state. -/
theorem Posted.setCall (hposted : Posted s) {call : TxCall} (hcall : ¬ Described s.call)
    (hprepared : Prepared { s with call := call }) : Posted { s with call := call } :=
  { hposted with
    done := fun j hj hj' _ => hposted.done j hj hj' fun h => absurd h hcall
    prepared := hprepared }

theorem Posted.wire_le (hposted : Posted s) : s.wire.length ≤ s.accepted.length := by
  have hprefix := congrArg List.length hposted.wire
  rw [List.length_take] at hprefix
  omega

/-- A done descriptor at `tx_tail` has no frame on it. -/
theorem Posted.room (hposted : Posted s) (hdone : s.tailDesc.status &&& txdStatDd ≠ 0) :
    s.accepted.length < s.wire.length + numTxDesc := by
  refine Nat.lt_of_le_of_ne hposted.window fun hfull => hdone ?_
  have hlt : s.wire.length < s.accepted.length := by simp only [numTxDesc] at hfull; omega
  have hold := (hposted.outstanding _ _ le_rfl (List.getElem?_eq_getElem hlt)).1
  rw [tailDesc, hposted.txTail, hfull, Nat.add_mod_right, hold]
  exact UInt8.zero_and

theorem Posted.claim (hposted : Posted s) {timeout : Nat} (hcall : s.call = .polling data timeout)
    (hdone : s.tailDesc.status &&& txdStatDd ≠ 0) : Posted { s with call := .copying data 0 } := by
  have hnot : ¬ Described s.call := by rw [hcall]; exact id
  have hroom := hposted.room hdone
  refine hposted.setCall hnot ⟨hroom, ?_, Nat.zero_le _, fun k hk => absurd hk (Nat.not_lt_zero k)⟩
  change (s.descs s.txTail).status = txdStatDd
  rw [hposted.txTail]
  exact hposted.done _ le_rfl hroom fun h => absurd h hnot

/-- A byte that meets no other one of a posted frame leaves these frames as they are. -/
theorem Posted.slice_update (hposted : Posted s) {j count : Nat} {other : List UInt8}
    (hj : s.wire.length ≤ j) (hget : s.accepted[j]? = some other)
    (hcall : s.call = .copying data count) (hmore : count < data.length) (hsafe : s.Undisturbed) :
    ByteMap.slice (Function.update s.memory (s.txBuf + count) data[count]) s.txBuf other.length =
      other := by
  obtain ⟨hdesc, hslice⟩ := hposted.outstanding j other hj hget
  refine (slice_congr fun k hk => ?_).trans hslice
  by_cases hkc : k = count
  · have hsame := hsafe data count hcall (j % numTxDesc) (Nat.mod_lt _ (by decide))
      (by rw [hdesc]; exact UInt8.zero_and) (by rw [hdesc, ← hkc]; exact hk)
    rw [List.getElem?_eq_getElem hmore] at hsame
    rw [hkc, Function.update_self]
    exact Option.some.inj hsame
  · exact Function.update_of_ne (by omega) _ _

theorem Posted.copy (hposted : Posted s) {count : Nat} (hcall : s.call = .copying data count)
    (hmore : count < data.length) (hsafe : s.Undisturbed) : Posted { s with
      memory := Function.update s.memory (s.txBuf + count) data[count]
      call := .copying data (count + 1) } := by
  have hprepared := hposted.prepared
  rw [Prepared, hcall] at hprepared
  obtain ⟨hroom, htail, -, hcopied⟩ := hprepared
  have hnext : ∀ k < count + 1,
      data[k]? = some (Function.update s.memory (s.txBuf + count) data[count] (s.txBuf + k)) := by
    intro k hk
    by_cases hkc : k = count
    · rw [hkc, List.getElem?_eq_getElem hmore, Function.update_self]
    · rw [Function.update_of_ne (by omega)]
      exact hcopied k (by omega)
  exact { hposted with
    outstanding := fun j other hj hget => ⟨(hposted.outstanding j other hj hget).1,
      hposted.slice_update hj hget hcall hmore hsafe⟩
    done := fun j hj hj' _ => hposted.done j hj hj' (by rw [hcall]; exact False.elim)
    prepared := ⟨hroom, htail, hmore, hnext⟩ }

theorem Posted.describe (hposted : Posted s) {count : Nat} (hcall : s.call = .copying data count)
    (hall : data.length ≤ count) : Posted { s with
      descs := Function.update s.descs s.txTail ⟨s.txBuf, data.length, txdCmd, 0⟩
      call := .described data } := by
  have hprepared := hposted.prepared
  rw [Prepared, hcall] at hprepared
  obtain ⟨hroom, htail, hcount, hcopied⟩ := hprepared
  have hle := hposted.wire_le
  have hother : ∀ j, s.wire.length ≤ j → j < s.wire.length + numTxDesc →
      j ≠ s.accepted.length →
        Function.update s.descs s.txTail ⟨s.txBuf, data.length, txdCmd, 0⟩ (j % numTxDesc) =
          s.descs (j % numTxDesc) := by
    intro j hj hj' hne
    rw [hposted.txTail]
    exact update_slot_ne _ _ hle hroom hj hj' hne
  exact { hposted with
    outstanding := by
      intro j other hj hget
      have hlt := (List.getElem?_eq_some_iff.mp hget).1
      dsimp only at hj hlt
      obtain ⟨hdesc, hslice⟩ := hposted.outstanding j other hj hget
      exact ⟨(hother j hj (by omega) (by omega)).trans hdesc, hslice⟩
    done := by
      intro j hj hj' hne
      dsimp only at hj
      refine (congrArg TxDesc.status (hother j (by omega) hj' (hne trivial))).trans ?_
      exact hposted.done j hj hj' (by rw [hcall]; exact False.elim)
    prepared := ⟨hroom, Function.update_self _ _ _, fun k hk => hcopied k (by omega)⟩ }

theorem Posted.post (hposted : Posted s) (hcall : s.call = .described data) : Posted { s with
    txTail := (s.txTail + 1) % numTxDesc
    tdt := (s.txTail + 1) % numTxDesc
    call := .idle
    accepted := s.accepted ++ [data] } := by
  have hprepared := hposted.prepared
  rw [Prepared, hcall] at hprepared
  obtain ⟨hroom, htail, hcopied⟩ := hprepared
  have hlength : (s.accepted ++ [data]).length = s.accepted.length + 1 := List.length_append
  have hnext : (s.txTail + 1) % numTxDesc = (s.accepted ++ [data]).length % numTxDesc := by
    rw [hposted.txTail, slot_succ, hlength]
  constructor
  · exact hnext
  · exact hnext
  · exact hposted.tdh
  · change s.wire = (s.accepted ++ [data]).take s.wire.length
    rw [List.take_append_of_le_length hposted.wire_le]
    exact hposted.wire
  · change (s.accepted ++ [data]).length ≤ _
    rw [hlength]
    exact hroom
  · intro j other hj hget
    change (s.accepted ++ [data])[j]? = some other at hget
    by_cases hnew : j = s.accepted.length
    · rw [hnew, List.getElem?_concat_length] at hget
      obtain rfl := Option.some.inj hget
      rw [hnew]
      refine ⟨?_, ?_⟩
      · rw [← hposted.txTail]
        exact htail
      · conv_rhs => rw [← slice_ofList data]
        refine slice_shift fun k hk => ?_
        rw [Nat.zero_add, ofList, List.getD_eq_getElem?_getD, hcopied k hk, Option.getD_some]
    · have hlt := (List.getElem?_eq_some_iff.mp hget).1
      rw [hlength] at hlt
      rw [List.getElem?_append_left (by omega)] at hget
      dsimp only at hj
      exact hposted.outstanding j other hj hget
  · intro j hj hj' _
    change (s.accepted ++ [data]).length ≤ j at hj
    rw [hlength] at hj
    exact hposted.done j (by omega) hj' fun _ => by omega
  · trivial

theorem Posted.send (hposted : Posted s) (hhead : s.tdh ≠ s.tdt) : Posted { s with
    descs := Function.update s.descs s.tdh { s.headDesc with status := txdStatDd }
    tdh := (s.tdh + 1) % numTxDesc
    wire := s.wire ++ [s.memory.slice s.headDesc.addr s.headDesc.length] } := by
  have hlt : s.wire.length < s.accepted.length := by
    refine Nat.lt_of_le_of_ne hposted.wire_le fun heq => hhead ?_
    rw [hposted.tdh, hposted.tdt, heq]
  have hnext := List.getElem?_eq_getElem hlt
  obtain ⟨hdesc, hslice⟩ := hposted.outstanding _ _ le_rfl hnext
  have hhead : s.headDesc = ⟨s.txBuf, s.accepted[s.wire.length].length, txdCmd, 0⟩ := by
    rw [headDesc, hposted.tdh, hdesc]
  have hsent : s.memory.slice s.headDesc.addr s.headDesc.length = s.accepted[s.wire.length] := by
    rw [hhead]
    exact hslice
  have hother : ∀ j, s.wire.length ≤ j → j < s.wire.length + numTxDesc → j ≠ s.wire.length →
      Function.update s.descs s.tdh { s.headDesc with status := txdStatDd } (j % numTxDesc) =
        s.descs (j % numTxDesc) := by
    intro j hj hj' hne
    rw [hposted.tdh]
    exact update_slot_ne _ _ le_rfl (Nat.lt_add_of_pos_right (by decide)) hj hj' hne
  rw [hsent]
  have hlength : (s.wire ++ [s.accepted[s.wire.length]]).length = s.wire.length + 1 :=
    List.length_append
  have hkept : s.accepted.length < s.wire.length + numTxDesc →
      Function.update s.descs s.tdh { s.headDesc with status := txdStatDd } s.txTail =
        s.tailDesc := by
    intro hroom
    rw [tailDesc, hposted.txTail]
    exact hother _ hposted.wire_le hroom (Nat.ne_of_gt hlt)
  have hmore : s.accepted.length < s.wire.length + numTxDesc →
      s.accepted.length < (s.wire ++ [s.accepted[s.wire.length]]).length + numTxDesc := by
    rw [hlength]
    omega
  constructor
  · exact hposted.txTail
  · exact hposted.tdt
  · change (s.tdh + 1) % numTxDesc = (s.wire ++ [s.accepted[s.wire.length]]).length % numTxDesc
    rw [hposted.tdh, slot_succ, hlength]
  · change s.wire ++ [s.accepted[s.wire.length]] =
      s.accepted.take (s.wire ++ [s.accepted[s.wire.length]]).length
    rw [hlength, List.take_add_one, ← hposted.wire, hnext]
    rfl
  · change s.accepted.length ≤ (s.wire ++ [s.accepted[s.wire.length]]).length + numTxDesc
    have hwindow := hposted.window
    rw [hlength]
    omega
  · intro j other hj hget
    change (s.wire ++ [s.accepted[s.wire.length]]).length ≤ j at hj
    rw [hlength] at hj
    have hj' := (List.getElem?_eq_some_iff.mp hget).1
    obtain ⟨hdesc, hslice⟩ := hposted.outstanding j other (by omega) hget
    have hwindow := hposted.window
    exact ⟨(hother j (by omega) (Nat.lt_of_lt_of_le hj' hwindow) (by omega)).trans hdesc, hslice⟩
  · intro j hj hj' hne
    change s.accepted.length ≤ j at hj
    change j < (s.wire ++ [s.accepted[s.wire.length]]).length + numTxDesc at hj'
    rw [hlength] at hj'
    by_cases hlast : j = s.wire.length + numTxDesc
    · rw [hlast, Nat.add_mod_right, ← hposted.tdh]
      change (Function.update s.descs s.tdh _ s.tdh).status = _
      rw [Function.update_self]
    · have hold := hother j (by omega) (by omega) (by omega)
      exact (congrArg TxDesc.status hold).trans (hposted.done j hj (by omega) hne)
  · have hprepared := hposted.prepared
    rw [Prepared] at hprepared ⊢
    cases hcall : s.call with
    | idle | polling data timeout => trivial
    | copying data count =>
        rw [hcall] at hprepared
        obtain ⟨hroom, htail, hcopied⟩ := hprepared
        exact ⟨hmore hroom, (congrArg TxDesc.status (hkept hroom)).trans htail, hcopied⟩
    | described data =>
        rw [hcall] at hprepared
        obtain ⟨hroom, htail, hcopied⟩ := hprepared
        exact ⟨hmore hroom, (hkept hroom).trans htail, hcopied⟩

/-! ## Runs -/

theorem Posted.step (hposted : Posted s) (hsafe : s.Undisturbed) (hstep : TxStep s s') :
    Posted s' := by
  cases hstep with
  | refuse _ _ => exact hposted
  | start hcall _ => exact hposted.setCall (by rw [hcall]; exact id) trivial
  | wait hcall _ =>
      refine hposted.setCall (by rw [hcall]; exact id) ?_
      split_ifs <;> trivial
  | claim hcall hdone => exact hposted.claim hcall hdone
  | copy hcall hmore => exact hposted.copy hcall hmore hsafe
  | describe hcall hall => exact hposted.describe hcall hall
  | post hcall => exact hposted.post hcall
  | send hhead => exact hposted.send hhead

theorem UndisturbedRun.posted (hrun : UndisturbedRun memory txBuf s) : Posted s := by
  induction hrun with
  | refl => exact init_posted memory txBuf
  | tail _ hstep ih => exact ih.step hstep.1 hstep.2

/-- As long as no byte is copied over another one of a posted frame, the frames on the
wire are the first ones of those accepted, in order and byte for byte. -/
theorem wire_prefix (hrun : UndisturbedRun memory txBuf s) : s.wire <+: s.accepted := by
  have hwire := hrun.posted.wire
  rw [hwire]
  exact List.take_prefix _ _

/-- Nothing is disturbed while every descriptor is done. -/
theorem undisturbed_of_done
    (hdone : ∀ slot < numTxDesc, (s.descs slot).status &&& txdStatDd ≠ 0) : s.Undisturbed :=
  fun _ _ _ slot hslot hposted => absurd hposted (hdone slot hslot)

/-- Nothing is disturbed while nothing is copied. -/
theorem undisturbed_of_call (hcall : ∀ data count, s.call ≠ .copying data count) :
    s.Undisturbed :=
  fun data count hcopying => absurd hcopying (hcall data count)

theorem UndisturbedRun.more (hrun : UndisturbedRun memory txBuf s) (hsafe : s.Undisturbed)
    (hstep : TxStep s s') : UndisturbedRun memory txBuf s' :=
  hrun.tail ⟨hsafe, hstep⟩

/-- A one-byte frame, sent before anything else is posted. -/
theorem wire_prefix_one : ∃ s : TxState, s.wire = [[1]] ∧ s.wire <+: s.accepted := by
  have hinit : UndisturbedRun (fun _ => 0) 0 (txInit (fun _ => 0) 0) := .refl
  have hstart := hinit.more (undisturbed_of_done (by decide)) (@TxStep.start _ [1] rfl (by decide))
  have hclaim := hstart.more (undisturbed_of_done (by decide)) (.claim rfl (by decide))
  have hcopy := hclaim.more (undisturbed_of_done (by decide)) (.copy rfl (by decide))
  have hdescribe := hcopy.more (undisturbed_of_done (by decide)) (.describe rfl (by decide))
  have hpost := hdescribe.more (undisturbed_of_call nofun) (.post rfl)
  have hsend := hpost.more (undisturbed_of_call nofun) (.send (by decide))
  exact ⟨_, by decide, wire_prefix hsend⟩

/-- Two frames are posted before the card takes the first one, which goes out with the
content of the second. -/
theorem wire_not_prefix : ∃ s,
    Relation.ReflTransGen TxStep (txInit (fun _ => 0) 0) s ∧ s.accepted = [[1], [2]] ∧
      s.wire = [[2]] ∧ ¬ s.wire <+: s.accepted := by
  refine ⟨_, ((((((((((((Relation.ReflTransGen.refl
    |>.tail (@TxStep.start _ [1] rfl (by decide)))
    |>.tail (.claim rfl (by decide)))
    |>.tail (.copy rfl (by decide)))
    |>.tail (.describe rfl (by decide)))
    |>.tail (.post rfl))
    |>.tail (@TxStep.start _ [2] rfl (by decide)))
    |>.tail (.claim rfl (by decide)))
    |>.tail (.copy rfl (by decide)))
    |>.tail (.describe rfl (by decide)))
    |>.tail (.post rfl))
    |>.tail (.send (by decide)))), rfl, by decide, by decide⟩

end TxState

end GeckoOS.Drivers
