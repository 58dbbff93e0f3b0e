/-
# Requests and the table of bindings

`udp_request_start` borrows its source port: it binds the capture handler there, and
`udp_request_finish` unbinds the port that was remembered last.  Between the two the table
should be the one from before the first start with the borrowed port added, and a start that
fails should not have happened.

It borrows blindly.  Whatever was bound to the port is overwritten, and is not put back by a
failure or by `udp_request_finish`.  A second start forgets the port of the first one, even if
it fails.  And port 0 is remembered as no port at all.  The theorem of this module says that
these are the only ways in which a binding is lost or the capture handler left behind.
-/

import GeckoOS.Net.BindingTable

namespace GeckoOS.Net

open GeckoOS.Math ByteMap

/-! ## One call -/

section Calls

variable {bindings bindings' : List Binding} {port : UInt16} {handler : Handler}

/-- Unbinding takes back what binding a free port has done, slot for slot. -/
theorem TableInv.udpUnbind_udpBind (hinv : TableInv bindings)
    (hunbound : boundHandler bindings port = none)
    (hbind : GeckoOS.Net.udpBind bindings port handler = some bindings') :
    GeckoOS.Net.udpUnbind bindings' port = bindings := by
  rcases udpBind_cases bindings port handler with
    ⟨-, -, hnone⟩ | ⟨before, old, after, rfl, hbefore, hold, hfree, hsome⟩
  · rw [hnone] at hbind
    cases hbind
  · obtain rfl := Option.some.inj (hbind.symm.trans hsome)
    rw [boundHandler_eq, slotLookup_eq_none] at hunbound
    have hclear : old.handler = none := by
      rw [← Option.not_isSome_iff_eq_none]
      exact fun hbound => hunbound old (by simp) hbound (hold hbound)
    have hothers : ∀ slot ∈ before, (slot.port == port) = false := by
      intro slot hslot
      have hne := hunbound slot (List.mem_append_left _ hslot) ((hfree hclear).2 slot hslot)
      simpa using hne
    rw [udpUnbind_eq, replaceFirst_append hothers (by simp), Option.getD_some,
      ← hinv.eq_of_free (by simp) hclear]

/-- Sending leaves the bindings alone, whatever arrives in the meantime. -/
theorem udpSend_bindings (st : NetState) (dstIp : UInt32) (srcPort dstPort : UInt16)
    (payload : ByteMap) (payloadLen : Nat) :
    (udpSend netHandlePacket st dstIp srcPort dstPort payload payloadLen).2.bindings =
      st.bindings := by
  rw [udpSend]
  split_ifs
  · rfl
  · obtain ⟨frames, hsends⟩ := ipSend_sends (netHandlePacket_handlesBelow st.arrivals.length)
      (st.setUdpPacket (udpDatagram st.udpPacket st.netIp dstIp srcPort dstPort payload
        payloadLen)) dstIp 17
      (udpDatagram st.udpPacket st.netIp dstIp srcPort dstPort payload payloadLen)
      (8 + payloadLen) le_rfl
    have hbindings := congrArg Core.bindings hsends.waited.2
    rw [Core.run_eq] at hbindings
    exact hbindings

/-- So does handling a frame. -/
theorem netHandlePacket_bindings (st : NetState) (frame : Frame) :
    (netHandlePacket st frame).bindings = st.bindings := by
  obtain ⟨frames, -, hcore⟩ :=
    netHandlePacketWith_waited (netHandleNested_handlesBelow _) st frame le_rfl
  have hbindings := congrArg Core.bindings hcore
  rw [Core.run_eq] at hbindings
  exact hbindings

end Calls

/-! ## Requests -/

/-- What `udp_request_start` is called with. -/
structure StartCall where
  dstIp : UInt32
  srcPort : UInt16
  dstPort : UInt16
  payload : List UInt8

/-- What happens between the first start and `udp_request_finish`. -/
inductive RequestEvent
  /-- `udp_request_start`. -/
  | start (call : StartCall)
  /-- The device will deliver these frames next. -/
  | expect (arrivals : List Arrival)
  /-- A frame is received. -/
  | receive (frame : Frame)

namespace RequestState

/-- The return value of `udp_request_start`. -/
def startResult (s : RequestState) (call : StartCall) : Int :=
  (udpRequestStart s call.dstIp call.srcPort call.dstPort call.payload).1

/-- The state after `udp_request_start`. -/
def start (s : RequestState) (call : StartCall) : RequestState :=
  (udpRequestStart s call.dstIp call.srcPort call.dstPort call.payload).2

/-- The state after an event. -/
def step (s : RequestState) : RequestEvent → RequestState
  | .start call => s.start call
  | .expect arrivals => { s with net.arrivals := arrivals }
  | .receive frame => { s with net := netHandlePacket s.net frame }

/-- `udp_request_finish` would now leave every port bound as in the table given, with the
capture handler nowhere. -/
structure Restores (base : List Binding) (s : RequestState) : Prop where
  bound : ∀ port, boundHandler (udpRequestFinish s).net.bindings port = boundHandler base port
  no_capture : ∀ slot ∈ (udpRequestFinish s).net.bindings, slot.handler ≠ some .capture

/-- A start that fails leaves the table as it was, and after any event the table can be
restored. -/
def StepsBack (base : List Binding) (s : RequestState) (event : RequestEvent) : Prop :=
  (∀ call, event = .start call → s.startResult call = -1 →
      (s.start call).net.bindings = s.net.bindings) ∧
    (s.step event).Restores base

/-- No request is outstanding, nothing is bound to the source port, and it is not port 0 unless
the start fails. -/
def StartsFresh (s : RequestState) (call : StartCall) : Prop :=
  s.listenPort = 0 ∧ boundHandler s.net.bindings call.srcPort = none ∧
    (call.payload.length ≤ 1472 → udpBind s.net.bindings call.srcPort .capture ≠ none →
      call.srcPort ≠ 0)

/-- The request takes the place of the outstanding one, on the same port. -/
def StartsAgain (s : RequestState) (call : StartCall) : Prop :=
  s.listenPort ≠ 0 ∧ s.listenPort = call.srcPort ∧ call.payload.length ≤ 1472

/-- What a start has to find for the table to be restored. -/
def Borrows (s : RequestState) (event : RequestEvent) : Prop :=
  ∀ call, event = .start call → s.StartsFresh call ∨ s.StartsAgain call

/-- Before the first start: no request is outstanding and nothing is captured. -/
structure Idle (s : RequestState) : Prop where
  table : TableInv s.net.bindings
  listenPort : s.listenPort = 0
  no_capture : ∀ slot ∈ s.net.bindings, slot.handler ≠ some .capture

/-- What holds as long as every start finds what it has to. -/
structure Borrowed (base : List Binding) (s : RequestState) : Prop where
  table : TableInv s.net.bindings
  restores : boundHandler (udpRequestFinish s).net.bindings = boundHandler base
  capture : s.listenPort ≠ 0 → boundHandler s.net.bindings s.listenPort = some .capture

variable {s : RequestState} {base : List Binding} {call : StartCall} {bindings : List Binding}

/-! ## What one start does -/

theorem start_of_unbindable (hbind : udpBind s.net.bindings call.srcPort .capture = none) :
    s.startResult call = -1 ∧ (s.start call).net.bindings = s.net.bindings ∧
      (s.start call).listenPort = 0 := by
  simp [startResult, start, udpRequestStart, hbind]

theorem start_of_too_long (hbind : udpBind s.net.bindings call.srcPort .capture = some bindings)
    (hlong : 1472 < call.payload.length) :
    s.startResult call = -1 ∧ (s.start call).net.bindings = udpUnbind bindings call.srcPort ∧
      (s.start call).listenPort = 0 := by
  simp [startResult, start, udpRequestStart, hbind, udpSend, hlong]

theorem start_of_sent (hbind : udpBind s.net.bindings call.srcPort .capture = some bindings)
    (hfits : call.payload.length ≤ 1472) :
    s.startResult call = 0 ∧ (s.start call).net.bindings = bindings ∧
      (s.start call).listenPort = call.srcPort := by
  have hkept := udpSend_bindings
    { s.net with replyReady := false, replyLen := 0, bindings := bindings } call.dstIp
    call.srcPort call.dstPort (ofList call.payload) call.payload.length
  have hsent : (udpSend netHandlePacket
      { s.net with replyReady := false, replyLen := 0, bindings := bindings } call.dstIp
      call.srcPort call.dstPort (ofList call.payload) call.payload.length).1 = 0 := by
    rw [udpSend, if_neg (Nat.not_lt.mpr hfits)]
  simp only [startResult, start, udpRequestStart, hbind]
  rw [if_neg (by rw [hsent]; decide)]
  exact ⟨rfl, hkept, rfl⟩

theorem start_table (htable : TableInv s.net.bindings) : TableInv (s.start call).net.bindings := by
  cases hbind : udpBind s.net.bindings call.srcPort .capture with
  | none => rwa [(start_of_unbindable hbind).2.1]
  | some bindings =>
      by_cases hfits : call.payload.length ≤ 1472
      · rw [(start_of_sent hbind hfits).2.1]
        exact htable.udpBind hbind
      · rw [(start_of_too_long hbind (Nat.not_le.mp hfits)).2.1]
        exact (htable.udpBind hbind).udpUnbind

/-! ## What finishing leaves -/

theorem finish_of_none (hnone : s.listenPort = 0) :
    (udpRequestFinish s).net.bindings = s.net.bindings := by
  rw [udpRequestFinish]
  exact if_neg fun hsome => hsome hnone

theorem finish_of_some (hsome : s.listenPort ≠ 0) :
    (udpRequestFinish s).net.bindings = udpUnbind s.net.bindings s.listenPort := by
  rw [udpRequestFinish]
  exact if_pos hsome

theorem boundHandler_finish (htable : TableInv s.net.bindings) (hsome : s.listenPort ≠ 0) :
    boundHandler (udpRequestFinish s).net.bindings =
      Function.update (boundHandler s.net.bindings) s.listenPort none := by
  rw [finish_of_some hsome]
  exact htable.boundHandler_udpUnbind.mpr fun hmisses => hsome hmisses.1

/-- A table without the capture handler stays without it if its lookups are restored. -/
theorem restores_iff (htable : TableInv s.net.bindings)
    (hbase : ∀ port, boundHandler base port ≠ some .capture) :
    s.Restores base ↔ boundHandler (udpRequestFinish s).net.bindings = boundHandler base := by
  constructor
  · exact fun hrestores => funext hrestores.bound
  · intro hsame
    have hfinished : TableInv (udpRequestFinish s).net.bindings := by
      by_cases hnone : s.listenPort = 0
      · rwa [finish_of_none hnone]
      · rw [finish_of_some hnone]
        exact htable.udpUnbind
    refine ⟨congrFun hsame, fun slot hslot hcapture => hbase slot.port ?_⟩
    rw [← hsame]
    exact hfinished.unique.slotLookup_of_mem hslot hcapture

/-! ## One event -/

theorem Borrowed.idle (hborrowed : Borrowed base s) (hnone : s.listenPort = 0) :
    boundHandler s.net.bindings = boundHandler base := by
  rw [← hborrowed.restores, finish_of_none hnone]

/-- While a request is outstanding, the table is not the one to be restored. -/
theorem Borrowed.listenPort_eq_zero (hborrowed : Borrowed base s)
    (hbase : ∀ port, boundHandler base port ≠ some .capture)
    (hsame : boundHandler s.net.bindings = boundHandler base) : s.listenPort = 0 := by
  by_contra hsome
  have hcapture := hborrowed.capture hsome
  rw [hsame] at hcapture
  exact hbase _ hcapture

/-- A start without a slot fails at once, and must not have been preceded by another. -/
theorem stepsBack_of_unbindable (hbase : ∀ port, boundHandler base port ≠ some .capture)
    (hborrowed : Borrowed base s)
    (hbind : udpBind s.net.bindings call.srcPort .capture = none) :
    ((s.startResult call = -1 → (s.start call).net.bindings = s.net.bindings) ∧
        boundHandler (udpRequestFinish (s.start call)).net.bindings = boundHandler base) ↔
      s.StartsFresh call ∨ s.StartsAgain call := by
  obtain ⟨-, hkept, hport⟩ := start_of_unbindable hbind
  have hunbound : boundHandler s.net.bindings call.srcPort = none := by
    rcases udpBind_cases s.net.bindings call.srcPort .capture with
      ⟨hunbound, -, -⟩ | ⟨before, old, after, -, -, -, -, hsome⟩
    · exact hunbound
    · rw [hbind] at hsome
      cases hsome
  rw [finish_of_none hport, hkept]
  constructor
  · rintro ⟨-, hsame⟩
    exact .inl ⟨hborrowed.listenPort_eq_zero hbase hsame, hunbound,
      fun _ hbound => absurd hbind hbound⟩
  · rintro (⟨hnone, -, -⟩ | ⟨hsome, hsame, -⟩)
    · exact ⟨fun _ => rfl, hborrowed.idle hnone⟩
    · have hcapture := hborrowed.capture hsome
      rw [hsame, hunbound] at hcapture
      cases hcapture

/-- A start that cannot send takes back its binding, which has to be the only one there was. -/
theorem stepsBack_of_too_long (hbase : ∀ port, boundHandler base port ≠ some .capture)
    (hborrowed : Borrowed base s)
    (hbind : udpBind s.net.bindings call.srcPort .capture = some bindings)
    (hlong : 1472 < call.payload.length) :
    ((s.startResult call = -1 → (s.start call).net.bindings = s.net.bindings) ∧
        boundHandler (udpRequestFinish (s.start call)).net.bindings = boundHandler base) ↔
      s.StartsFresh call ∨ s.StartsAgain call := by
  obtain ⟨hfailed, hkept, hport⟩ := start_of_too_long hbind hlong
  have htable := hborrowed.table.udpBind hbind
  rw [finish_of_none hport, hfailed, hkept]
  constructor
  · rintro ⟨hrestored, hsame⟩
    have hback := hrestored rfl
    rw [hback] at hsame
    refine .inl ⟨hborrowed.listenPort_eq_zero hbase hsame, ?_, fun hfits => absurd hfits ?_⟩
    · by_cases hmisses : call.srcPort = 0 ∧ ZeroShadowed bindings
      · -- Port 0 has stayed bound, to the capture handler.
        rw [hmisses.1, htable.udpUnbind_of_shadowed hmisses.2] at hback
        have hcapture := congrFun (boundHandler_udpBind hbind) call.srcPort
        rw [Function.update_self, hback, hsame] at hcapture
        exact absurd hcapture (hbase _)
      · have hremoved := congrFun (htable.boundHandler_udpUnbind.mpr hmisses) call.srcPort
        rwa [Function.update_self, hback] at hremoved
    · exact Nat.not_le.mpr hlong
  · rintro (⟨hnone, hunbound, -⟩ | ⟨-, -, hfits⟩)
    · rw [hborrowed.table.udpUnbind_udpBind hunbound hbind]
      exact ⟨fun _ => rfl, hborrowed.idle hnone⟩
    · exact absurd hfits (Nat.not_le.mpr hlong)

/-- A start that sends is taken back by finishing, if its port is remembered and was free or
the one that was remembered before. -/
theorem stepsBack_of_sent (hbase : ∀ port, boundHandler base port ≠ some .capture)
    (hborrowed : Borrowed base s)
    (hbind : udpBind s.net.bindings call.srcPort .capture = some bindings)
    (hfits : call.payload.length ≤ 1472) :
    ((s.startResult call = -1 → (s.start call).net.bindings = s.net.bindings) ∧
        boundHandler (udpRequestFinish (s.start call)).net.bindings = boundHandler base) ↔
      s.StartsFresh call ∨ s.StartsAgain call := by
  obtain ⟨hsent, hkept, hport⟩ := start_of_sent hbind hfits
  have hbound := boundHandler_udpBind hbind
  have hsuccess : s.startResult call = -1 → (s.start call).net.bindings = s.net.bindings := by
    rw [hsent]
    intro hfailed
    cases hfailed
  rw [and_iff_right hsuccess]
  by_cases hzero : call.srcPort = 0
  · rw [finish_of_none (hport.trans hzero), hkept]
    constructor
    · intro hsame
      have hcapture := congrFun hbound call.srcPort
      rw [Function.update_self, hsame] at hcapture
      exact absurd hcapture (hbase _)
    · rintro (⟨-, -, hother⟩ | ⟨hsome, hsame, -⟩)
      · exact absurd hzero (hother hfits (by rw [hbind]; exact Option.some_ne_none _))
      · exact absurd (hsame.trans hzero) hsome
  · have hoff : boundHandler (udpRequestFinish (s.start call)).net.bindings =
        Function.update (boundHandler s.net.bindings) call.srcPort none := by
      rw [boundHandler_finish (start_table hborrowed.table) (by rwa [hport]), hport, hkept, hbound,
        Function.update_idem]
    rw [hoff]
    by_cases hnone : s.listenPort = 0
    · rw [← hborrowed.idle hnone, Function.update_eq_self_iff]
      constructor
      · exact fun hunbound => .inl ⟨hnone, hunbound.symm, fun _ _ => hzero⟩
      · rintro (⟨-, hunbound, -⟩ | ⟨hsome, -⟩)
        · exact hunbound.symm
        · exact absurd hnone hsome
    · rw [← hborrowed.restores, boundHandler_finish hborrowed.table hnone]
      constructor
      · intro hsame
        refine .inr ⟨hnone, ?_, hfits⟩
        by_contra hother
        have hcapture := congrFun hsame s.listenPort
        rw [Function.update_self, Function.update_of_ne hother, hborrowed.capture hnone] at hcapture
        cases hcapture
      · rintro (⟨hzero', -⟩ | ⟨-, hsame, -⟩)
        · exact absurd hzero' hnone
        · rw [hsame]

/-- Arriving frames change nothing of this. -/
theorem Borrowed.congr {s' : RequestState} (hborrowed : Borrowed base s)
    (hbindings : s'.net.bindings = s.net.bindings) (hport : s'.listenPort = s.listenPort) :
    Borrowed base s' := by
  refine ⟨?_, ?_, ?_⟩
  · rw [hbindings]
    exact hborrowed.table
  · rw [← hborrowed.restores, udpRequestFinish, udpRequestFinish, hbindings, hport]
  · rw [hbindings, hport]
    exact hborrowed.capture

theorem step_table (event : RequestEvent) (htable : TableInv s.net.bindings) :
    TableInv (s.step event).net.bindings := by
  cases event with
  | start call => exact start_table htable
  | expect arrivals => exact htable
  | receive frame =>
      change TableInv (netHandlePacket s.net frame).bindings
      rwa [netHandlePacket_bindings]

/-- One event steps back exactly when it finds what it has to. -/
theorem stepsBack_iff (hbase : ∀ port, boundHandler base port ≠ some .capture)
    (hborrowed : Borrowed base s) (event : RequestEvent) :
    s.StepsBack base event ↔ s.Borrows event := by
  rw [StepsBack, restores_iff (step_table event hborrowed.table) hbase]
  cases event with
  | start call =>
      have hstart : ((s.startResult call = -1 → (s.start call).net.bindings = s.net.bindings) ∧
          boundHandler (udpRequestFinish (s.start call)).net.bindings = boundHandler base) ↔
            s.StartsFresh call ∨ s.StartsAgain call := by
        cases hbind : udpBind s.net.bindings call.srcPort .capture with
        | none => exact stepsBack_of_unbindable hbase hborrowed hbind
        | some bindings =>
            by_cases hfits : call.payload.length ≤ 1472
            · exact stepsBack_of_sent hbase hborrowed hbind hfits
            · exact stepsBack_of_too_long hbase hborrowed hbind (Nat.not_le.mp hfits)
      constructor
      · rintro ⟨hfailed, hsame⟩ call' ⟨⟩
        exact hstart.mp ⟨hfailed call rfl, hsame⟩
      · intro hborrows
        obtain ⟨hfailed, hsame⟩ := hstart.mpr (hborrows call rfl)
        refine ⟨?_, hsame⟩
        rintro call' ⟨⟩
        exact hfailed
  | expect arrivals =>
      refine iff_of_true ⟨fun call hcall => (by cases hcall), hborrowed.restores⟩ ?_
      intro call hcall
      cases hcall
  | receive frame =>
      have hkept : Borrowed base (s.step (.receive frame)) :=
        hborrowed.congr (netHandlePacket_bindings s.net frame) rfl
      refine iff_of_true ⟨fun call hcall => (by cases hcall), hkept.restores⟩ ?_
      intro call hcall
      cases hcall

/-- After a start, the port that is remembered is captured. -/
theorem start_capture (hsome : (s.start call).listenPort ≠ 0) :
    boundHandler (s.start call).net.bindings (s.start call).listenPort = some .capture := by
  cases hbind : udpBind s.net.bindings call.srcPort .capture with
  | none => exact absurd (start_of_unbindable hbind).2.2 hsome
  | some bindings =>
      by_cases hfits : call.payload.length ≤ 1472
      · obtain ⟨-, hkept, hport⟩ := start_of_sent hbind hfits
        rw [hkept, hport, boundHandler_udpBind hbind, Function.update_self]
      · exact absurd (start_of_too_long hbind (Nat.not_le.mp hfits)).2.2 hsome

theorem Borrowed.step (hbase : ∀ port, boundHandler base port ≠ some .capture)
    (hborrowed : Borrowed base s) {event : RequestEvent} (hborrows : s.Borrows event) :
    Borrowed base (s.step event) := by
  cases event with
  | start call =>
      have hback := ((stepsBack_iff hbase hborrowed _).mpr hborrows).2
      have htable := step_table (.start call) hborrowed.table
      exact ⟨htable, (restores_iff htable hbase).mp hback, start_capture⟩
  | expect arrivals => exact hborrowed.congr rfl rfl
  | receive frame => exact hborrowed.congr (netHandlePacket_bindings s.net frame) rfl

theorem Idle.borrowed (hidle : s.Idle) : Borrowed s.net.bindings s :=
  ⟨hidle.table, by rw [finish_of_none hidle.listenPort],
    fun hsome => absurd hidle.listenPort hsome⟩

theorem Idle.not_capture (hidle : s.Idle) (port : UInt16) :
    boundHandler s.net.bindings port ≠ some .capture := by
  intro hcapture
  obtain ⟨slot, hslot, hvalue⟩ := Option.bind_eq_some_iff.mp hcapture
  exact hidle.no_capture slot (List.mem_of_find?_eq_some hslot) hvalue

end RequestState

/-- **Borrowing a port.**  From any table without the capture handler on, and whatever arrives
in the meantime, every failing start leaves the table as it was and `udp_request_finish` can
restore it at any time, exactly as long as every start finds its source port unbound and no
other request outstanding, or takes the place of an outstanding request on the same port. -/
theorem requests_restore_iff {s : RequestState} (hidle : s.Idle) (events : List RequestEvent) :
    s.Restores s.net.bindings ∧
      (AtEveryStep RequestState.step (fun t event => t.StepsBack s.net.bindings event) s events ↔
        AtEveryStep RequestState.step (fun t event => t.Borrows event) s events) := by
  have hborrowed := hidle.borrowed
  have hbase := hidle.not_capture
  refine ⟨(RequestState.restores_iff hidle.table hbase).mpr hborrowed.restores, ?_⟩
  exact atEveryStep_iff (fun t event ht => RequestState.stepsBack_iff hbase ht event)
    (fun t event ht hborrows => ht.step hbase hborrows) hborrowed

/-- An application serves port 53. -/
def serving : RequestState where
  net := { NetState.init (fun _ => 1) with
    bindings := ⟨53, some (.application 0)⟩ :: List.replicate 15 ⟨0, none⟩ }
  listenPort := 0

theorem serving_idle : serving.Idle := by
  have hbind : udpBind TableRun.boot.bindings 53 (.application 0) =
      some serving.net.bindings := rfl
  exact ⟨TableRun.boot_inv.1.udpBind hbind, rfl, by decide⟩

/-- A request from port 7000 is put back. -/
theorem requests_restore_serving :
    AtEveryStep RequestState.step (fun t event => t.StepsBack serving.net.bindings event) serving
      [.start ⟨0x0A000209, 7000, 7, [1]⟩] := by
  refine (requests_restore_iff serving_idle _).2.mpr (atEveryStep_cons.mpr ⟨?_, atEveryStep_nil⟩)
  rintro call ⟨⟩
  exact .inl ⟨rfl, by decide, fun _ _ => by decide⟩

/-- A request from port 53 that is too long takes the application's binding away. -/
theorem requests_not_restored :
    serving.Idle ∧ ¬ ∀ events : List RequestEvent,
      AtEveryStep RequestState.step (fun t event => t.StepsBack serving.net.bindings event) serving
        events := by
  refine ⟨serving_idle, fun hall => ?_⟩
  obtain ⟨payload, hlong⟩ : ∃ payload : List UInt8, 1472 < payload.length :=
    ⟨List.replicate 1473 0, by rw [List.length_replicate]; decide⟩
  have hback := (hall [.start ⟨0x0A000209, 53, 7, payload⟩] []
    (.start ⟨0x0A000209, 53, 7, payload⟩) (List.prefix_refl _)).1 _ rfl
  obtain ⟨hfailed, hunbound, -⟩ := @RequestState.start_of_too_long serving
    ⟨0x0A000209, 53, 7, payload⟩ _ rfl hlong
  have hsame : boundHandler
      (udpUnbind (serving.net.bindings.set 0 ⟨53, some .capture⟩) 53) 53 =
        boundHandler serving.net.bindings 53 :=
    congrArg (boundHandler · 53) (hunbound.symm.trans (hback hfailed))
  exact absurd hsame (by decide)

end GeckoOS.Net
