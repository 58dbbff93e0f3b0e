/-
# Receiving from the network card

`e1000_receive` and the card share a ring of 32 receive descriptors.  The card
fills the descriptors from its head up to, but not including, the one last written
to RDT: it writes a frame and its length and then sets the DD bit.  The driver takes
the frame of the descriptor at `rx_tail` once DD is set, clears the status and gives
the descriptor back through RDT.

Neither side waits for the other, so every access to the shared memory is a step of
its own and the steps of the two sides come in any order.  The invariant numbers the
frames: with `r` of them returned and `d` deposited, the descriptors of frames
`r`, ..., `d - 1` hold these frames, and all others are the card's or free.

The model starts where `rx_init` leaves the card and the ring; the addresses of the
buffers count from `rx_bufs`.
-/

import Mathlib.Logic.Relation
import GeckoOS.Math.ByteMap
import GeckoOS.Math.Ring

namespace GeckoOS.Drivers

open GeckoOS.Math ByteMap

/-- `E1000_NUM_RX_DESC`. -/
abbrev numRxDesc : Nat := 32

/-- `E1000_RX_BUF_SIZE`. -/
abbrev rxBufSize : Nat := 2048

/-- `E1000_RXD_STAT_DD`. -/
abbrev rxdStatDd : UInt8 := 1

/-- What the card writes to the status of a descriptor it has filled: DD and EOP. -/
abbrev rxdDone : UInt8 := 3

/-- The fields of `e1000_rx_desc_t` that the two sides use. -/
structure RxDesc where
  /-- Counted from `rx_bufs`. -/
  addr : Nat
  length : Nat
  status : UInt8

/-- Where a call of `e1000_receive` stands. -/
inductive RxCall
  /-- No call, or one that has not looked at the status yet. -/
  | idle
  /-- The DD bit was set. -/
  | ready
  /-- `*len` has been read, and these bytes copied. -/
  | copying (len : Nat) (bytes : List UInt8)
  /-- The status has been cleared. -/
  | cleared (bytes : List UInt8)
  /-- RDT has been written. -/
  | handed (bytes : List UInt8)

/-- The receive ring, the driver's call and the card. -/
structure RxState where
  /-- `rx_descs`. -/
  descs : Nat → RxDesc
  /-- `rx_bufs`. -/
  bufs : ByteMap
  /-- `rx_tail`. -/
  rxTail : Nat
  /-- The register RDT. -/
  rdt : Nat
  /-- The register RDH, the card's head. -/
  rdh : Nat
  /-- The frame the card has written without having set DD. -/
  filling : Option (List UInt8)
  call : RxCall
  /-- The frames the card has deposited. -/
  deposited : List (List UInt8)
  /-- The frames that calls of `e1000_receive` have returned. -/
  returned : List (List UInt8)

/-- `rx_init` on descriptors with these lengths and buffers with these bytes. -/
def rxInit (lengths : Nat → Nat) (bufs : ByteMap) : RxState where
  descs := fun i => ⟨i * rxBufSize, lengths i, 0⟩
  bufs := bufs
  rxTail := 0
  rdt := numRxDesc - 1
  rdh := 0
  filling := none
  call := .idle
  deposited := []
  returned := []

namespace RxState

/-- The descriptor at `rx_tail`. -/
def tailDesc (s : RxState) : RxDesc := s.descs s.rxTail

/-- The descriptors with the status of descriptor `i` replaced. -/
def setStatus (s : RxState) (i : Nat) (status : UInt8) : Nat → RxDesc :=
  Function.update s.descs i { s.descs i with status := status }

/-- The card writes a frame into the descriptor at its head and the buffer of it. -/
def fill (s : RxState) (frame : List UInt8) : RxState :=
  { s with
    descs := Function.update s.descs s.rdh { s.descs s.rdh with length := frame.length }
    bufs := s.bufs.blit (s.descs s.rdh).addr (ofList frame) frame.length
    filling := some frame }

end RxState

open RxState in
/-- One access of either side. -/
inductive RxStep : RxState → RxState → Prop
  /-- DD is set. -/
  | see {s : RxState} (hcall : s.call = .idle) (hdone : s.tailDesc.status &&& rxdStatDd ≠ 0) :
      RxStep s { s with call := .ready }
  /-- DD is not set, and the call returns -1. -/
  | none {s : RxState} (hcall : s.call = .idle) (hdone : s.tailDesc.status &&& rxdStatDd = 0) :
      RxStep s s
  /-- `*len = rx_descs[rx_tail].length`. -/
  | length {s : RxState} (hcall : s.call = .ready) :
      RxStep s { s with call := .copying s.tailDesc.length [] }
  /-- `buf[i] = src[i]`. -/
  | copy {s : RxState} {len : Nat} {bytes : List UInt8} (hcall : s.call = .copying len bytes)
      (hmore : bytes.length < len) :
      RxStep s { s with
        call := .copying len (bytes ++ [s.bufs (s.rxTail * rxBufSize + bytes.length)]) }
  /-- `rx_descs[rx_tail].status = 0`. -/
  | clear {s : RxState} {len : Nat} {bytes : List UInt8} (hcall : s.call = .copying len bytes)
      (hall : len ≤ bytes.length) :
      RxStep s { s with descs := s.setStatus s.rxTail 0, call := .cleared bytes }
  /-- `e1000_write(E1000_RDT, rx_tail)`. -/
  | hand {s : RxState} {bytes : List UInt8} (hcall : s.call = .cleared bytes) :
      RxStep s { s with rdt := s.rxTail, call := .handed bytes }
  /-- `rx_tail` advances and the call returns 0. -/
  | advance {s : RxState} {bytes : List UInt8} (hcall : s.call = .handed bytes) :
      RxStep s { s with
        rxTail := (s.rxTail + 1) % numRxDesc
        call := .idle
        returned := s.returned ++ [bytes] }
  /-- The card writes a frame and its length. -/
  | fill {s : RxState} {frame : List UInt8} (hfree : s.filling = Option.none)
      (hhead : s.rdh ≠ s.rdt) (hframe : frame.length ≤ rxBufSize) : RxStep s (s.fill frame)
  /-- The card sets DD and moves on. -/
  | deposit {s : RxState} {frame : List UInt8} (hfilling : s.filling = some frame) :
      RxStep s { s with
        descs := s.setStatus s.rdh rxdDone
        rdh := (s.rdh + 1) % numRxDesc
        filling := Option.none
        deposited := s.deposited ++ [frame] }

namespace RxState

/-- A descriptor whose frame has been deposited and not yet been returned. -/
def Unreturned (s : RxState) (slot : Nat) : Prop :=
  ∃ j, s.returned.length ≤ j ∧ j < s.deposited.length ∧ slot = j % numRxDesc

/-- The frame is in the buffer of the descriptor. -/
def Holds (s : RxState) (slot : Nat) (frame : List UInt8) : Prop :=
  (s.descs slot).length = frame.length ∧
    s.bufs.slice (slot * rxBufSize) frame.length = frame

/-- What a call knows of the next frame to be returned. -/
def CallKnows (next : Option (List UInt8)) : RxCall → Prop
  | .idle => True
  | .ready => ∃ frame, next = some frame
  | .copying len bytes => ∃ frame, next = some frame ∧ len = frame.length ∧
      bytes = frame.take bytes.length ∧ bytes.length ≤ frame.length
  | .cleared bytes | .handed bytes => next = some bytes

/-- Whether the descriptor at `rx_tail` has been taken already. -/
def Taken : RxCall → Prop
  | .cleared _ | .handed _ => True
  | _ => False

/-- Whether it has been given back as well. -/
def handedBack : RxCall → Nat
  | .handed _ => 1
  | _ => 0

/-- The two sides agree on which descriptors hold which frames. -/
structure Agreed (s : RxState) : Prop where
  rxTail : s.rxTail = s.returned.length % numRxDesc
  rdh : s.rdh = s.deposited.length % numRxDesc
  rdt : s.rdt = (s.returned.length + (numRxDesc - 1) + handedBack s.call) % numRxDesc
  returned : s.returned = s.deposited.take s.returned.length
  window : s.deposited.length + s.filling.toList.length ≤
    s.returned.length + (numRxDesc - 1) + handedBack s.call
  addr : ∀ slot, (s.descs slot).addr = slot * rxBufSize
  short : ∀ frame ∈ s.deposited ++ s.filling.toList, frame.length ≤ rxBufSize
  done : ∀ j, s.returned.length ≤ j → j < s.deposited.length →
    (Taken s.call → j ≠ s.returned.length) → (s.descs (j % numRxDesc)).status = rxdDone
  cleared : Taken s.call → (s.descs (s.returned.length % numRxDesc)).status = 0
  free : ∀ j, s.deposited.length ≤ j → j < s.returned.length + numRxDesc →
    (s.descs (j % numRxDesc)).status = 0
  holds : ∀ j frame, s.returned.length ≤ j → (s.deposited ++ s.filling.toList)[j]? = some frame →
    s.Holds (j % numRxDesc) frame
  knows : CallKnows s.deposited[s.returned.length]? s.call

variable {s s' : RxState} {frame bytes : List UInt8} {len : Nat}

/-! ## Each access keeps the agreement -/

theorem init_agreed (lengths : Nat → Nat) (bufs : ByteMap) : Agreed (rxInit lengths bufs) where
  rxTail := rfl
  rdh := rfl
  rdt := rfl
  returned := rfl
  window := Nat.zero_le _
  addr _ := rfl
  short frame hframe := absurd hframe List.not_mem_nil
  done j _ hj := absurd hj (Nat.not_lt_zero j)
  cleared htaken := htaken.elim
  free _ _ _ := rfl
  holds j frame _ hget := by simp [rxInit] at hget
  knows := trivial

/-- DD is set at `rx_tail` exactly when a frame is waiting there. -/
theorem Agreed.status_tail (hagreed : Agreed s) (htaken : ¬ Taken s.call) :
    s.tailDesc.status &&& rxdStatDd ≠ 0 ↔ s.returned.length < s.deposited.length := by
  rw [tailDesc, hagreed.rxTail]
  constructor
  · intro hset
    by_contra hnone
    rw [hagreed.free _ (Nat.le_of_not_lt hnone) (Nat.lt_add_of_pos_right (by decide))] at hset
    exact hset rfl
  · intro hsome
    rw [hagreed.done _ le_rfl hsome fun h => absurd h htaken]
    decide

/-- A call that has not cleared the status moves on without touching the ring. -/
theorem Agreed.setCall (hagreed : Agreed s) {call : RxCall} (htaken : ¬ Taken s.call)
    (htaken' : ¬ Taken call) (hback : handedBack call = handedBack s.call)
    (hknows : CallKnows s.deposited[s.returned.length]? call) : Agreed { s with call := call } :=
  { hagreed with
    rdt := hagreed.rdt.trans (by rw [hback])
    window := hagreed.window.trans (by rw [hback])
    done := fun j hj hj' _ => hagreed.done j hj hj' fun h => absurd h htaken
    cleared := fun h => absurd h htaken'
    knows := hknows }

/-- The frame a call is copying is the one its descriptor holds. -/
theorem Agreed.holds_tail (hagreed : Agreed s)
    (hnext : s.deposited[s.returned.length]? = some frame) : s.Holds s.rxTail frame := by
  have hlt := (List.getElem?_eq_some_iff.mp hnext).1
  rw [hagreed.rxTail]
  refine hagreed.holds _ frame le_rfl ?_
  rw [List.getElem?_append_left hlt]
  exact hnext

theorem Agreed.see (hagreed : Agreed s) (hcall : s.call = .idle)
    (hdone : s.tailDesc.status &&& rxdStatDd ≠ 0) : Agreed { s with call := .ready } := by
  have htaken : ¬ Taken s.call := by rw [hcall]; exact id
  have hsome := (hagreed.status_tail htaken).mp hdone
  refine hagreed.setCall htaken id (by rw [hcall]; rfl) ?_
  exact ⟨_, List.getElem?_eq_getElem hsome⟩

theorem Agreed.length (hagreed : Agreed s) (hcall : s.call = .ready) :
    Agreed { s with call := .copying s.tailDesc.length [] } := by
  have hknows := hagreed.knows
  rw [hcall] at hknows
  obtain ⟨frame, hnext⟩ := hknows
  refine hagreed.setCall (by rw [hcall]; exact id) id (by rw [hcall]; rfl) ?_
  exact ⟨frame, hnext, (hagreed.holds_tail hnext).1, rfl, Nat.zero_le _⟩

/-- The byte copied next is the next byte of the frame. -/
theorem Holds.byte {slot k : Nat} (hholds : s.Holds slot frame) (hk : k < frame.length) :
    s.bufs (slot * rxBufSize + k) = frame[k] := by
  have hget := congrArg (fun bytes => bytes[k]?) hholds.2
  simp only [getElem?_slice hk, List.getElem?_eq_getElem hk] at hget
  exact Option.some.inj hget

theorem Agreed.copy (hagreed : Agreed s) (hcall : s.call = .copying len bytes)
    (hmore : bytes.length < len) : Agreed { s with
      call := .copying len (bytes ++ [s.bufs (s.rxTail * rxBufSize + bytes.length)]) } := by
  have hknows := hagreed.knows
  rw [hcall] at hknows
  obtain ⟨frame, hnext, rfl, hbytes, -⟩ := hknows
  refine hagreed.setCall (by rw [hcall]; exact id) id (by rw [hcall]; rfl) ?_
  refine ⟨frame, hnext, rfl, ?_, ?_⟩
  · rw [(hagreed.holds_tail hnext).byte hmore, List.length_append, List.length_singleton,
      List.take_succ_eq_append_getElem hmore, ← hbytes]
  · rw [List.length_append]
    exact hmore

/-- Changing the status of one descriptor leaves the rest of the ring. -/
theorem setStatus_field (s : RxState) (i : Nat) (status : UInt8) (slot : Nat) :
    (s.setStatus i status slot).addr = (s.descs slot).addr ∧
      (s.setStatus i status slot).length = (s.descs slot).length := by
  simp only [setStatus, Function.update_apply]
  split_ifs with hslot
  · rw [hslot]
    exact ⟨rfl, rfl⟩
  · exact ⟨rfl, rfl⟩

theorem setStatus_other {i j : Nat} {status : UInt8} (hi : s.returned.length ≤ i)
    (hi' : i < s.returned.length + numRxDesc) (hj : s.returned.length ≤ j)
    (hj' : j < s.returned.length + numRxDesc) (hne : j ≠ i) :
    (s.setStatus (i % numRxDesc) status (j % numRxDesc)).status =
      (s.descs (j % numRxDesc)).status :=
  congrArg RxDesc.status (update_slot_ne _ _ hi hi' hj hj' hne)

/-- No more frames have been returned than deposited. -/
theorem Agreed.returned_le (hagreed : Agreed s) : s.returned.length ≤ s.deposited.length := by
  have hprefix := congrArg List.length hagreed.returned
  rw [List.length_take] at hprefix
  omega

/-- At most 32 frames are under way. -/
theorem Agreed.bound (hagreed : Agreed s) :
    s.deposited.length ≤ s.returned.length + numRxDesc := by
  have hwindow := hagreed.window
  have hback : handedBack s.call ≤ 1 := by
    cases s.call <;> simp [handedBack]
  simp only [numRxDesc] at hwindow ⊢
  omega

/-- What a call knows stays true when the next frame stays the same. -/
theorem CallKnows.mono {call : RxCall} {next next' : Option (List UInt8)}
    (hknows : CallKnows next call) (hnext : ∀ frame, next = some frame → next' = some frame) :
    CallKnows next' call := by
  cases call with
  | idle => trivial
  | ready => exact hknows.imp hnext
  | copying len bytes => exact hknows.imp fun frame h => ⟨hnext frame h.1, h.2⟩
  | cleared bytes => exact hnext bytes hknows
  | handed bytes => exact hnext bytes hknows

/-- A call that has taken a frame has one to return. -/
theorem Agreed.lt_of_taken (hagreed : Agreed s) (htaken : Taken s.call) :
    s.returned.length < s.deposited.length := by
  have hknows := hagreed.knows
  cases hcall : s.call with
  | idle | ready | copying =>
      rw [hcall] at htaken
      exact htaken.elim
  | cleared bytes | handed bytes =>
      rw [hcall] at hknows
      exact (List.getElem?_eq_some_iff.mp hknows).1

theorem Agreed.clear (hagreed : Agreed s) (hcall : s.call = .copying len bytes)
    (hall : len ≤ bytes.length) :
    Agreed { s with descs := s.setStatus s.rxTail 0, call := .cleared bytes } := by
  have hknows := hagreed.knows
  have hbound := hagreed.bound
  rw [hcall] at hknows
  obtain ⟨frame, hnext, rfl, hbytes, -⟩ := hknows
  obtain rfl : bytes = frame := by rw [hbytes, List.take_of_length_le hall]
  have hother : ∀ j, s.returned.length ≤ j → j < s.returned.length + numRxDesc →
      j ≠ s.returned.length → (s.setStatus s.rxTail 0 (j % numRxDesc)).status =
        (s.descs (j % numRxDesc)).status := by
    intro j hj hj' hne
    rw [hagreed.rxTail]
    exact setStatus_other le_rfl (Nat.lt_add_of_pos_right (by decide)) hj hj' hne
  have hlt := (List.getElem?_eq_some_iff.mp hnext).1
  exact { hagreed with
    rdt := hagreed.rdt.trans (by rw [hcall]; rfl)
    window := hagreed.window.trans (by rw [hcall]; exact le_rfl)
    addr := fun slot => (setStatus_field s _ _ slot).1.trans (hagreed.addr slot)
    done := by
      intro j hj hj' hne
      rw [hother j hj (by dsimp only at hj'; omega) (hne trivial)]
      exact hagreed.done j hj hj' (by rw [hcall]; exact False.elim)
    cleared := by
      intro _
      change (s.setStatus s.rxTail 0 (s.returned.length % numRxDesc)).status = 0
      rw [← hagreed.rxTail, setStatus, Function.update_self]
    free := by
      intro j hj hj'
      dsimp only at hj hj'
      rw [hother j (by omega) hj' (by omega)]
      exact hagreed.free j hj hj'
    holds := fun j frame hj hget =>
      ⟨(setStatus_field s _ _ _).2.trans (hagreed.holds j frame hj hget).1,
        (hagreed.holds j frame hj hget).2⟩
    knows := hnext }

theorem Agreed.hand (hagreed : Agreed s) (hcall : s.call = .cleared bytes) :
    Agreed { s with rdt := s.rxTail, call := .handed bytes } := by
  have hknows := hagreed.knows
  have hcleared := hagreed.cleared
  have hwindow := hagreed.window
  have hdone := hagreed.done
  rw [hcall] at hknows hcleared hwindow hdone
  exact { hagreed with
    rdt := by
      change s.rxTail = _
      rw [hagreed.rxTail]
      exact (Nat.add_mod_right _ _).symm
    window := Nat.le_succ_of_le hwindow
    done := fun j hj hj' hne => hdone j hj hj' fun _ => hne trivial
    cleared := fun _ => hcleared trivial
    knows := hknows }

theorem Agreed.advance (hagreed : Agreed s) (hcall : s.call = .handed bytes) : Agreed { s with
    rxTail := (s.rxTail + 1) % numRxDesc
    call := .idle
    returned := s.returned ++ [bytes] } := by
  have hnext := hagreed.knows
  have hcleared := hagreed.cleared
  have hwindow := hagreed.window
  have hrdt := hagreed.rdt
  rw [hcall] at hnext hcleared hwindow hrdt
  have hlt := (List.getElem?_eq_some_iff.mp hnext).1
  have hlength : (s.returned ++ [bytes]).length = s.returned.length + 1 := List.length_append
  simp only [handedBack, numRxDesc] at hwindow hrdt
  constructor
  · change (s.rxTail + 1) % numRxDesc = (s.returned ++ [bytes]).length % numRxDesc
    rw [hagreed.rxTail, slot_succ, hlength]
  · exact hagreed.rdh
  · change s.rdt = ((s.returned ++ [bytes]).length + 31 + 0) % 32
    rw [hrdt, hlength]
  · change s.returned ++ [bytes] = s.deposited.take (s.returned ++ [bytes]).length
    rw [hlength, List.take_add_one, ← hagreed.returned, hnext]
    rfl
  · change _ ≤ (s.returned ++ [bytes]).length + 31 + 0
    rw [hlength]
    dsimp only
    omega
  · exact hagreed.addr
  · exact hagreed.short
  · intro j hj hj' _
    dsimp only at hj hj'
    rw [hlength] at hj
    exact hagreed.done j (by omega) hj' fun _ => by omega
  · exact False.elim
  · intro j hj hj'
    dsimp only at hj hj'
    rw [hlength] at hj'
    by_cases hlast : j = s.returned.length + numRxDesc
    · rw [hlast, Nat.add_mod_right]
      exact hcleared trivial
    · exact hagreed.free j hj (by omega)
  · intro j frame hj hget
    dsimp only at hj
    rw [hlength] at hj
    exact hagreed.holds j frame (by omega) hget
  · trivial

/-- Where the card may write, there is room for one more frame. -/
theorem Agreed.room (hagreed : Agreed s) (hfree : s.filling = none) (hhead : s.rdh ≠ s.rdt) :
    s.deposited.length + 1 ≤ s.returned.length + (numRxDesc - 1) + handedBack s.call := by
  have hwindow := hagreed.window
  rw [hfree] at hwindow
  refine Nat.lt_of_le_of_ne hwindow fun heq => hhead ?_
  rw [hagreed.rdh, hagreed.rdt, ← heq]

theorem fill_descs (s : RxState) (frame : List UInt8) : (s.fill frame).descs =
    Function.update s.descs s.rdh { s.descs s.rdh with length := frame.length } := rfl

theorem fill_bufs (s : RxState) (frame : List UInt8) :
    (s.fill frame).bufs = s.bufs.blit (s.descs s.rdh).addr (ofList frame) frame.length := rfl

/-- The descriptor and the buffer the card writes now hold the frame. -/
theorem holds_fill (hagreed : Agreed s) : (s.fill frame).Holds s.rdh frame := by
  refine ⟨?_, ?_⟩
  · rw [fill_descs, Function.update_self]
  · rw [fill_bufs, hagreed.addr s.rdh]
    conv_rhs => rw [← slice_ofList frame]
    refine slice_shift fun i hi => ?_
    rw [blit_apply_of_mem hi, Nat.zero_add]

/-- Those of the other descriptors keep what they hold. -/
theorem Holds.fill {slot : Nat} {other : List UInt8} (hholds : s.Holds slot other)
    (hagreed : Agreed s) (hne : slot ≠ s.rdh) (hother : other.length ≤ rxBufSize)
    (hframe : frame.length ≤ rxBufSize) : (s.fill frame).Holds slot other := by
  refine ⟨?_, ?_⟩
  · rw [fill_descs, Function.update_of_ne hne]
    exact hholds.1
  · refine Eq.trans (slice_congr fun i hi => ?_) hholds.2
    rw [fill_bufs, hagreed.addr s.rdh, blit_apply_of_not_mem]
    rcases Nat.lt_or_gt_of_ne hne with hlt | hlt
    · have hnext := Nat.mul_le_mul_right rxBufSize hlt
      rw [Nat.succ_mul] at hnext
      omega
    · have hnext := Nat.mul_le_mul_right rxBufSize hlt
      rw [Nat.succ_mul] at hnext
      omega

theorem Agreed.fill (hagreed : Agreed s) (hfree : s.filling = none) (hhead : s.rdh ≠ s.rdt)
    (hframe : frame.length ≤ rxBufSize) : Agreed (s.fill frame) := by
  have hroom := hagreed.room hfree hhead
  have hle := hagreed.returned_le
  have hback : handedBack s.call ≤ 1 := by
    cases s.call <;> simp [handedBack]
  have hkept : ∀ slot, ((s.fill frame).descs slot).addr = (s.descs slot).addr ∧
      ((s.fill frame).descs slot).status = (s.descs slot).status := by
    intro slot
    simp only [RxState.fill, Function.update_apply]
    split_ifs with hslot
    · rw [hslot]
      exact ⟨rfl, rfl⟩
    · exact ⟨rfl, rfl⟩
  exact { hagreed with
    window := hroom
    addr := fun slot => (hkept slot).1.trans (hagreed.addr slot)
    short := by
      intro other hother
      rcases List.mem_append.mp hother with hold | hnew
      · exact hagreed.short other (List.mem_append_left _ hold)
      · obtain rfl := List.mem_singleton.mp hnew
        exact hframe
    done := fun j hj hj' hne => (hkept _).2.trans (hagreed.done j hj hj' hne)
    cleared := fun htaken => (hkept _).2.trans (hagreed.cleared htaken)
    free := fun j hj hj' => (hkept _).2.trans (hagreed.free j hj hj')
    holds := by
      intro j other hj hget
      change (s.deposited ++ [frame])[j]? = some other at hget
      change s.returned.length ≤ j at hj
      by_cases hnew : j = s.deposited.length
      · rw [hnew, List.getElem?_concat_length] at hget
        obtain rfl := Option.some.inj hget
        rw [hnew, ← hagreed.rdh]
        exact holds_fill hagreed
      · have hlt := (List.getElem?_eq_some_iff.mp hget).1
        rw [List.length_append, List.length_singleton] at hlt
        rw [List.getElem?_append_left (by omega)] at hget
        have hold := hagreed.holds j other hj (by rw [hfree]; simpa using hget)
        have hshort := hagreed.short other (List.mem_append_left _ (List.mem_of_getElem? hget))
        refine hold.fill hagreed ?_ hshort hframe
        rw [hagreed.rdh]
        simp only [numRxDesc] at hroom ⊢
        exact fun heq => hnew (slot_inj hj (by omega) hle (by omega) heq)
    knows := hagreed.knows }

theorem Agreed.deposit (hagreed : Agreed s) (hfilling : s.filling = some frame) :
    Agreed { s with
      descs := s.setStatus s.rdh rxdDone
      rdh := (s.rdh + 1) % numRxDesc
      filling := none
      deposited := s.deposited ++ [frame] } := by
  have hwindow := hagreed.window
  have hle := hagreed.returned_le
  have hback : handedBack s.call ≤ 1 := by
    cases s.call <;> simp [handedBack]
  have hshort := hagreed.short
  have hholds := hagreed.holds
  rw [hfilling] at hwindow hshort hholds
  simp only [Option.toList_some, List.length_singleton, numRxDesc] at hwindow hshort hholds
  have hlength : (s.deposited ++ [frame]).length = s.deposited.length + 1 := List.length_append
  have hother : ∀ j, s.returned.length ≤ j → j < s.returned.length + numRxDesc →
      j ≠ s.deposited.length → (s.setStatus s.rdh rxdDone (j % numRxDesc)).status =
        (s.descs (j % numRxDesc)).status := by
    intro j hj hj' hne
    rw [hagreed.rdh]
    exact setStatus_other hle (by simp only [numRxDesc]; omega) hj hj' hne
  constructor
  · exact hagreed.rxTail
  · change (s.rdh + 1) % numRxDesc = (s.deposited ++ [frame]).length % numRxDesc
    rw [hagreed.rdh, slot_succ, hlength]
  · exact hagreed.rdt
  · change s.returned = (s.deposited ++ [frame]).take s.returned.length
    rw [List.take_append_of_le_length hle]
    exact hagreed.returned
  · change (s.deposited ++ [frame]).length + 0 ≤ _
    rw [hlength]
    exact hwindow
  · exact fun slot => (setStatus_field s _ _ slot).1.trans (hagreed.addr slot)
  · simpa using hshort
  · intro j hj hj' hne
    change s.returned.length ≤ j at hj
    change j < (s.deposited ++ [frame]).length at hj'
    rw [hlength] at hj'
    by_cases hnew : j = s.deposited.length
    · change (s.setStatus s.rdh rxdDone (j % numRxDesc)).status = rxdDone
      rw [hnew, ← hagreed.rdh, setStatus, Function.update_self]
    · rw [hother j hj (by simp only [numRxDesc]; omega) hnew]
      exact hagreed.done j hj (by omega) hne
  · intro htaken
    have hlt := hagreed.lt_of_taken htaken
    rw [hother _ le_rfl (Nat.lt_add_of_pos_right (by decide)) (Nat.ne_of_lt hlt)]
    exact hagreed.cleared htaken
  · intro j hj hj'
    change (s.deposited ++ [frame]).length ≤ j at hj
    change j < s.returned.length + numRxDesc at hj'
    rw [hlength] at hj
    rw [hother j (by omega) hj' (by omega)]
    exact hagreed.free j (by omega) hj'
  · intro j other hj hget
    have hold := hholds j other hj (by simpa using hget)
    exact ⟨(setStatus_field s _ _ _).2.trans hold.1, hold.2⟩
  · refine hagreed.knows.mono fun next hnext => ?_
    exact (List.getElem?_append_left (List.getElem?_eq_some_iff.mp hnext).1).trans hnext

/-! ## Runs -/

theorem Agreed.step (hagreed : Agreed s) (hstep : RxStep s s') : Agreed s' := by
  cases hstep with
  | see hcall hdone => exact hagreed.see hcall hdone
  | none _ _ => exact hagreed
  | length hcall => exact hagreed.length hcall
  | copy hcall hmore => exact hagreed.copy hcall hmore
  | clear hcall hall => exact hagreed.clear hcall hall
  | hand hcall => exact hagreed.hand hcall
  | advance hcall => exact hagreed.advance hcall
  | fill hfree hhead hframe => exact hagreed.fill hfree hhead hframe
  | deposit hfilling => exact hagreed.deposit hfilling

/-- The states that can be reached once `rx_init` has run. -/
def Reachable (lengths : Nat → Nat) (bufs : ByteMap) : RxState → Prop :=
  Relation.ReflTransGen RxStep (rxInit lengths bufs)

theorem Reachable.agreed {lengths : Nat → Nat} {bufs : ByteMap}
    (hrun : Reachable lengths bufs s) : Agreed s := by
  induction hrun with
  | refl => exact init_agreed lengths bufs
  | tail _ hstep ih => exact ih.step hstep

/-- The card does not touch a descriptor whose frame has not been returned. -/
theorem Agreed.not_unreturned (hagreed : Agreed s) (hwrites : s.rdh ≠ s.rdt ∨ s.filling.isSome) :
    ¬ s.Unreturned s.rdh := by
  rintro ⟨j, hj, hj', hslot⟩
  have hroom : s.deposited.length + 1 ≤
      s.returned.length + (numRxDesc - 1) + handedBack s.call := by
    cases hfilling : s.filling with
    | none =>
        rw [hfilling] at hwrites
        exact hagreed.room hfilling (hwrites.resolve_right Bool.false_ne_true)
    | some frame =>
        have hwindow := hagreed.window
        rwa [hfilling] at hwindow
  have hback : handedBack s.call ≤ 1 := by
    cases s.call <;> simp [handedBack]
  rw [hagreed.rdh] at hslot
  simp only [numRxDesc] at hroom hslot
  exact Nat.ne_of_gt hj' (slot_inj (by omega) (by omega) hj (by omega) hslot)

/-- Whatever the order of the accesses: the frames returned are the first ones
deposited, in order; a call that finds no frame has returned all of them; and where
the card writes, it writes a descriptor whose frame has been returned. -/
theorem receive_in_order {lengths : Nat → Nat} {bufs : ByteMap} (hrun : Reachable lengths bufs s) :
    s.returned = s.deposited.take s.returned.length ∧
      (s.call = .idle → s.tailDesc.status &&& rxdStatDd = 0 → s.returned = s.deposited) ∧
      (s.rdh ≠ s.rdt ∨ s.filling.isSome → ¬ s.Unreturned s.rdh) := by
  have hagreed := hrun.agreed
  refine ⟨hagreed.returned, fun hcall hdone => ?_, hagreed.not_unreturned⟩
  have hall : s.deposited.length ≤ s.returned.length := by
    by_contra hmore
    exact (hagreed.status_tail (by rw [hcall]; exact id)).mpr (Nat.lt_of_not_le hmore) hdone
  rw [hagreed.returned, List.take_of_length_le hall]

/-- A run in which the card deposits a frame of one byte and a call returns it. -/
theorem receive_one :
    ∃ s : RxState, s.returned = [[7]] ∧ s.call = .idle ∧ s.returned = s.deposited := by
  have hrun : Reachable (fun _ => 0) (fun _ => 0) _ :=
    (((((((Relation.ReflTransGen.refl
      |>.tail (@RxStep.fill _ [7] rfl (by decide) (by decide)))
      |>.tail (.deposit rfl))
      |>.tail (.see rfl (by decide)))
      |>.tail (.length rfl))
      |>.tail (.copy rfl (by decide)))
      |>.tail (.clear rfl (by decide)))
      |>.tail (.hand rfl))
      |>.tail (.advance rfl)
  exact ⟨_, by decide, rfl, (receive_in_order hrun).2.1 rfl (by decide)⟩

end RxState

end GeckoOS.Drivers
