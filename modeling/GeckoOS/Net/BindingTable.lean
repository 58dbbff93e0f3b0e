/-
# The table of bindings as a map

`udp_bind` and `udp_unbind` keep a table of sixteen slots, and `udp_handle` looks a handler up
in it.  The table is meant as a map from ports to handlers.

A slot is free when its handler is null, and `udp_bind` looks for that, but `udp_unbind` looks
for the port alone.  Free slots have port 0, so for any other port the two agree.  Port 0
itself may be bound behind a free slot, and then `udp_unbind(0)` clears the free slot again
and leaves the port bound.  Apart from that the table is the map that the calls describe.
-/

import GeckoOS.Math.Runs
import GeckoOS.Math.SlotTable
import GeckoOS.Net.BitErrors
import GeckoOS.Net.UdpRequest

namespace GeckoOS.Net

open GeckoOS.Math ByteMap

/-- What holds of every table that has been set up by the calls: its free slots are clear, and
no port is bound twice. -/
structure TableInv (bindings : List Binding) : Prop where
  length : bindings.length = 16
  free : ∀ slot ∈ bindings, slot.handler = none → slot.port = 0
  unique : KeysUnique Binding.port Binding.handler bindings

/-- Port 0 is bound in a slot that has a free one before it. -/
def ZeroShadowed (bindings : List Binding) : Prop :=
  ∃ before slot after, bindings = before ++ slot :: after ∧ slot.handler.isSome ∧ slot.port = 0 ∧
    ∃ free ∈ before, free.handler = none

/-! ## One call -/

section Calls

variable {bindings bindings' : List Binding} {port : UInt16} {handler : Handler}

theorem boundHandler_eq :
    boundHandler bindings = slotLookup Binding.port Binding.handler bindings :=
  rfl

theorem udpBind_eq : udpBind bindings port handler =
    bindSlot Binding.port Binding.handler ⟨port, some handler⟩ bindings := by
  rw [udpBind, bindSlot, replaceFirst, replaceFirst]
  cases bindings.findIdx? fun slot => slot.handler.isSome && slot.port == port with
  | some i => rfl
  | none => cases bindings.findIdx? fun slot => slot.handler.isNone <;> rfl

theorem udpUnbind_eq : udpUnbind bindings port =
    (replaceFirst (fun slot => slot.port == port) ⟨0, none⟩ bindings).getD bindings := by
  rw [udpUnbind, replaceFirst]
  cases bindings.findIdx? fun slot => slot.port == port <;> rfl

/-- `udp_bind` overwrites the slot of the port, or else the first free slot. -/
theorem udpBind_cases (bindings : List Binding) (port : UInt16) (handler : Handler) :
    (boundHandler bindings port = none ∧ (∀ slot ∈ bindings, slot.handler.isSome) ∧
        udpBind bindings port handler = none) ∨
      ∃ before old after, bindings = before ++ old :: after ∧
        boundHandler before port = none ∧ (old.handler.isSome → old.port = port) ∧
        (old.handler = none → boundHandler bindings port = none ∧
          ∀ slot ∈ before, slot.handler.isSome) ∧
        udpBind bindings port handler = some (before ++ ⟨port, some handler⟩ :: after) := by
  rw [udpBind_eq]
  exact @bindSlot_cases _ _ _ _ Binding.port Binding.handler ⟨port, some handler⟩ bindings

/-- A bound port is looked up as what it is bound to. -/
theorem boundHandler_udpBind (hbind : udpBind bindings port handler = some bindings') :
    boundHandler bindings' = Function.update (boundHandler bindings) port (some handler) := by
  rw [udpBind_eq] at hbind
  have hnew : (Binding.mk port (some handler)).handler = some handler := rfl
  exact slotLookup_bindSlot hnew hbind

/-- The slots behind a bound one are bound to other ports. -/
theorem TableInv.after_bound {before after : List Binding} {old : Binding}
    (hinv : TableInv (before ++ old :: after)) (hold : old.handler.isSome) :
    boundHandler after old.port = none := by
  obtain ⟨-, hright, -⟩ := List.pairwise_append.mp hinv.unique
  rw [boundHandler_eq, slotLookup_eq_none]
  intro slot hslot hsome
  exact ((List.pairwise_cons.mp hright).1 slot hslot hold hsome).symm

theorem TableInv.replace {before after : List Binding} {old new : Binding}
    (hinv : TableInv (before ++ old :: after)) (hclear : new.handler = none → new.port = 0)
    (hbefore : new.handler.isSome → boundHandler before new.port = none)
    (hafter : new.handler.isSome → boundHandler after new.port = none) :
    TableInv (before ++ new :: after) := by
  refine ⟨?_, ?_, hinv.unique.replace hbefore hafter⟩
  · have hlength := hinv.length
    rw [List.length_append, List.length_cons] at hlength ⊢
    exact hlength
  · intro slot hslot hnone
    rcases List.mem_append.mp hslot with hslot | hslot
    · exact hinv.free slot (List.mem_append_left _ hslot) hnone
    · rcases List.mem_cons.mp hslot with rfl | hslot
      · exact hclear hnone
      · exact hinv.free slot (List.mem_append_right _ (List.mem_cons_of_mem _ hslot)) hnone

theorem TableInv.udpBind (hinv : TableInv bindings)
    (hbind : udpBind bindings port handler = some bindings') : TableInv bindings' := by
  rcases udpBind_cases bindings port handler with
    ⟨-, -, hnone⟩ | ⟨before, old, after, rfl, hbefore, hold, hfree, hsome⟩
  · rw [hnone] at hbind
    cases hbind
  · obtain rfl := Option.some.inj (hbind.symm.trans hsome)
    refine hinv.replace (fun hnone => by cases hnone) (fun _ => hbefore) fun _ => ?_
    change boundHandler after port = none
    -- The overwritten slot was the only one of the port, or there was none.
    cases hhandler : old.handler with
    | none =>
        have hunbound := (hfree hhandler).1
        rw [boundHandler_eq, slotLookup_eq_none] at hunbound ⊢
        exact fun slot hslot =>
          hunbound slot (List.mem_append_right _ (List.mem_cons_of_mem _ hslot))
    | some handler' =>
        have hbound : old.handler.isSome := by rw [hhandler]; rfl
        rw [← hold hbound]
        exact hinv.after_bound hbound

/-- A free slot is clear. -/
theorem TableInv.eq_of_free (hinv : TableInv bindings) {slot : Binding} (hslot : slot ∈ bindings)
    (hfree : slot.handler = none) : slot = ⟨0, none⟩ := by
  have hport := hinv.free slot hslot hfree
  cases slot
  simp_all

/-- `udp_unbind` frees the slot of the port, or else changes nothing. -/
theorem TableInv.udpUnbind_cases (hinv : TableInv bindings) (port : UInt16) :
    (boundHandler bindings port = none ∧ udpUnbind bindings port = bindings) ∨
      (∃ before old after, bindings = before ++ old :: after ∧ old.handler.isSome ∧
        old.port = port ∧ udpUnbind bindings port = before ++ ⟨0, none⟩ :: after) ∨
      port = 0 ∧ ZeroShadowed bindings ∧ udpUnbind bindings port = bindings := by
  rw [udpUnbind_eq]
  rcases replaceFirst_cases (fun slot : Binding => slot.port == port) ⟨0, none⟩ bindings with
    ⟨hnone, hreplace⟩ | ⟨before, old, after, rfl, hbefore, hold, hreplace⟩
  · rw [hreplace]
    refine .inl ⟨?_, rfl⟩
    rw [boundHandler_eq, slotLookup_eq_none]
    intro slot hslot _
    simpa using hnone slot hslot
  · have hport : old.port = port := by simpa using hold
    rw [hreplace]
    cases hhandler : old.handler with
    | some handler =>
        exact .inr (.inl ⟨before, old, after, rfl, by rw [hhandler]; rfl, hport, rfl⟩)
    | none =>
        have hclear := hinv.eq_of_free (by simp) hhandler
        obtain rfl : port = 0 := by rw [← hport, hclear]
        have hsame : before ++ ⟨0, none⟩ :: after = before ++ old :: after := by rw [hclear]
        cases hbound : boundHandler (before ++ old :: after) 0 with
        | none => exact .inl ⟨rfl, hsame⟩
        | some handler =>
            have hsome : (boundHandler (before ++ old :: after) 0).isSome := by rw [hbound]; rfl
            obtain ⟨slot, hslot, hvalue, hkey⟩ := isSome_slotLookup.mp hsome
            refine .inr (.inr ⟨rfl, ?_, hsame⟩)
            rcases List.mem_append.mp hslot with hslot | hslot
            · exact absurd (hbefore slot hslot) (by simp [hkey])
            · rcases List.mem_cons.mp hslot with rfl | hslot
              · rw [hhandler] at hvalue
                cases hvalue
              · obtain ⟨between, rest, rfl⟩ := List.append_of_mem hslot
                refine ⟨before ++ old :: between, slot, rest, by simp, hvalue, hkey, old, by simp,
                  hhandler⟩

/-- Behind a free slot, port 0 stays bound. -/
theorem TableInv.udpUnbind_of_shadowed (hinv : TableInv bindings)
    (hshadowed : ZeroShadowed bindings) : udpUnbind bindings 0 = bindings := by
  obtain ⟨before, slot, after, rfl, hslot, hport, free, hfree, hnone⟩ := hshadowed
  have hclear := hinv.eq_of_free (List.mem_append_left _ hfree) hnone
  rw [udpUnbind_eq]
  rcases replaceFirst_cases (fun slot : Binding => slot.port == 0) ⟨0, none⟩ before with
    ⟨hno, -⟩ | ⟨first, old, rest, rfl, hfirst, hold, -⟩
  · exact absurd (hno free hfree) (by simp [hclear])
  · have hposition : first ++ old :: rest ++ slot :: after =
        first ++ old :: (rest ++ slot :: after) := by simp
    have hzero : old.port = 0 := by simpa using hold
    have hunbound : old.handler = none := by
      rw [← Option.not_isSome_iff_eq_none]
      intro hsome
      rw [hposition] at hinv
      have hbehind := hinv.after_bound hsome
      rw [boundHandler_eq, slotLookup_eq_none] at hbehind
      exact hbehind slot (by simp) hslot (hport.trans hzero.symm)
    have hsame := hinv.eq_of_free (by simp) hunbound
    rw [hposition, replaceFirst_append hfirst hold, Option.getD_some, hsame]

theorem ZeroShadowed.isSome (hshadowed : ZeroShadowed bindings) :
    (boundHandler bindings 0).isSome := by
  obtain ⟨before, slot, after, rfl, hslot, hport, -⟩ := hshadowed
  exact isSome_slotLookup.mpr ⟨slot, by simp, hslot, hport⟩

/-- `udp_unbind` removes the port's binding and no other, unless port 0 stays bound. -/
theorem TableInv.boundHandler_udpUnbind (hinv : TableInv bindings) :
    boundHandler (udpUnbind bindings port) =
        Function.update (boundHandler bindings) port none ↔
      ¬ (port = 0 ∧ ZeroShadowed bindings) := by
  constructor
  · rintro hremoved ⟨rfl, hshadowed⟩
    rw [hinv.udpUnbind_of_shadowed hshadowed] at hremoved
    have hsome := hshadowed.isSome
    rw [hremoved, Function.update_self] at hsome
    cases hsome
  · intro hfine
    rcases hinv.udpUnbind_cases port with
      ⟨hnone, hsame⟩ | ⟨before, old, after, rfl, hold, rfl, hfreed⟩ | ⟨rfl, hshadowed, -⟩
    · rw [hsame, ← hnone, Function.update_eq_self]
    · rw [hfreed]
      exact slotLookup_unbind hinv.unique hold rfl
    · exact absurd ⟨rfl, hshadowed⟩ hfine

theorem TableInv.udpUnbind (hinv : TableInv bindings) : TableInv (udpUnbind bindings port) := by
  rcases hinv.udpUnbind_cases port with
    ⟨-, hsame⟩ | ⟨before, old, after, rfl, hold, rfl, hfreed⟩ | ⟨-, -, hsame⟩
  · rwa [hsame]
  · rw [hfreed]
    exact hinv.replace (fun _ => rfl) (fun hsome => by cases hsome) fun hsome => by cases hsome
  · rwa [hsame]

end Calls

/-! ## Capacity -/

/-- Sixteen ports other than this one are bound. -/
def FullFor (bound : UInt16 → Option Handler) (port : UInt16) : Prop :=
  ∃ ports : Finset UInt16, ports.card = 16 ∧ port ∉ ports ∧ ∀ other ∈ ports, (bound other).isSome

/-- `udp_bind` fails exactly when sixteen other ports are bound. -/
theorem TableInv.udpBind_eq_none {bindings : List Binding} (hinv : TableInv bindings)
    (port : UInt16) (handler : Handler) :
    GeckoOS.Net.udpBind bindings port handler = none ↔ FullFor (boundHandler bindings) port := by
  constructor
  · intro hnone
    rcases udpBind_cases bindings port handler with
      ⟨hunbound, hfull, -⟩ | ⟨before, old, after, -, -, -, -, hsome⟩
    · obtain ⟨ports, hcard, hports⟩ := exists_keys_of_full hinv.unique hfull
      refine ⟨ports, hcard.trans hinv.length, fun hport => ?_, hports⟩
      have hsome := hports port hport
      rw [← boundHandler_eq, hunbound] at hsome
      cases hsome
    · rw [hnone] at hsome
      cases hsome
  · rintro ⟨ports, hcard, hport, hports⟩
    cases hbind : GeckoOS.Net.udpBind bindings port handler with
    | none => rfl
    | some bindings' =>
        have hsome : ∀ other ∈ insert port ports,
            (slotLookup Binding.port Binding.handler bindings' other).isSome := by
          intro other hother
          rw [← boundHandler_eq, boundHandler_udpBind hbind]
          rcases Finset.mem_insert.mp hother with rfl | hother
          · rw [Function.update_self]
            rfl
          · have hne : other ≠ port := fun heq => hport (heq ▸ hother)
            rw [Function.update_of_ne hne]
            exact hports other hother
        have hle := card_le_of_isSome_slotLookup hsome
        have hslots := List.length_filter_le (fun slot : Binding => slot.handler.isSome) bindings'
        rw [Finset.card_insert_of_notMem hport, hcard] at hle
        rw [(hinv.udpBind hbind).length] at hslots
        omega

/-! ## Dispatch -/

namespace UdpCall

variable (call : UdpCall)

/-- The port the datagram is for. -/
def dstPort : UInt16 := portAt call.bytes (call.packet + 2)

/-- What a handler is called with. -/
def delivery (handler : Handler) : Delivery :=
  ⟨handler, call.srcIp, portAt call.bytes call.packet,
    call.bytes.slice (call.packet + 8) (call.udpLen.toNat - 8)⟩

variable {call} {st : NetState}

/-- A valid datagram goes to the handler that is bound to its port, if any. -/
theorem run_delivered (haccepted : call.Accepted) :
    (call.run st).delivered =
      st.delivered ++ ((boundHandler st.bindings call.dstPort).map call.delivery).toList := by
  obtain ⟨made, hrun⟩ := @run_of_accepted call st haccepted
  rw [hrun, udpDispatch_delivered]
  rfl

/-- The shortest datagram for a port, without a checksum. -/
def probeBytes (port : UInt16) : ByteMap :=
  ByteMap.store (ByteMap.store (fun _ => 0) 2 2 (bswap16 port.toNat)) 4 2 (bswap16 8)

@[inherit_doc probeBytes]
def probe (port : UInt16) : UdpCall := ⟨0, 0, probeBytes port, 0, 8⟩

theorem probe_dstPort (port : UInt16) : (probe port).dstPort = port := by
  change portAt (probeBytes port) 2 = port
  rw [portAt, probeBytes, load_store_disjoint _ (by decide)]
  exact portAt_store port

theorem probe_udpLen (port : UInt16) : (probe port).udpLen.toNat = 8 := by
  rw [udpLen_toNat]
  change bswap16 (load (probeBytes port) 4 2) = 8
  rw [probeBytes, load_store_bswap16, bswap16_bswap16]
  rfl

theorem probe_checksum (port : UInt16) : (probe port).checksum = 0 := by
  change load (probeBytes port) 6 2 = 0
  rw [probeBytes, load_store_disjoint _ (by decide), load_store_disjoint _ (by decide)]
  rfl

theorem probe_accepted (port : UInt16) : (probe port).Accepted := by
  refine ⟨le_refl 8, ?_, ?_, fun hsome => absurd (probe_checksum port) hsome⟩
  · rw [probe_udpLen]
  · rw [probe_udpLen]
    exact le_refl 8

end UdpCall

/-! ## Runs -/

/-- One call that changes the table. -/
inductive TableCall
  | bind (port : UInt16) (handler : Handler)
  | unbind (port : UInt16)
  deriving DecidableEq

/-- The table, and the map that the calls so far describe: a port goes to the handler most
recently bound to it and not unbound since. -/
structure TableRun where
  bindings : List Binding
  bound : UInt16 → Option Handler

namespace TableRun

/-- Nothing is bound. -/
def boot : TableRun := ⟨List.replicate 16 ⟨0, none⟩, fun _ => none⟩

/-- The table and the map after a call.  A call of `udp_bind` that fails binds nothing. -/
def step (r : TableRun) : TableCall → TableRun
  | .bind port handler =>
      match udpBind r.bindings port handler with
      | some bindings => ⟨bindings, Function.update r.bound port (some handler)⟩
      | none => r
  | .unbind port => ⟨udpUnbind r.bindings port, Function.update r.bound port none⟩

/-- The table implements the map, with room for sixteen ports. -/
structure Implements (r : TableRun) : Prop where
  dispatches : ∀ (st : NetState) (call : UdpCall), st.bindings = r.bindings → call.Accepted →
    (call.run st).delivered =
      st.delivered ++ ((r.bound call.dstPort).map call.delivery).toList
  fails : ∀ port handler, udpBind r.bindings port handler = none ↔ FullFor r.bound port

/-- The call is for port 0, which is bound behind a free slot. -/
def MissesPort (r : TableRun) (call : TableCall) : Prop :=
  call = .unbind 0 ∧ ZeroShadowed r.bindings

variable {r : TableRun} {call : TableCall}

/-- For this it is enough that the lookups are those of the map. -/
theorem implements_iff (hinv : TableInv r.bindings) :
    r.Implements ↔ boundHandler r.bindings = r.bound := by
  constructor
  · intro himplements
    funext port
    have hdispatch := himplements.dispatches { NetState.init (fun _ => 0) with
      bindings := r.bindings } (.probe port) rfl (UdpCall.probe_accepted port)
    rw [UdpCall.run_delivered (UdpCall.probe_accepted port), UdpCall.probe_dstPort] at hdispatch
    have hsame := List.append_cancel_left hdispatch
    cases hbound : boundHandler r.bindings port <;> cases hmap : r.bound port <;>
      simp_all [UdpCall.delivery]
  · intro hsame
    refine ⟨fun st call hbindings haccepted => ?_, fun port handler => ?_⟩
    · rw [UdpCall.run_delivered haccepted, hbindings, hsame]
    · rw [hinv.udpBind_eq_none, hsame]

/-- What holds along the runs whose calls all hit their port. -/
def Inv (r : TableRun) : Prop := TableInv r.bindings ∧ boundHandler r.bindings = r.bound

theorem boot_inv : boot.Inv := by
  refine ⟨⟨rfl, ?_, ?_⟩, ?_⟩
  · intro slot hslot _
    rw [List.eq_of_mem_replicate hslot]
  · refine List.pairwise_of_forall_mem_list fun slot hslot slot' _ hsome => ?_
    rw [List.eq_of_mem_replicate hslot] at hsome
    cases hsome
  · funext port
    rw [boundHandler_eq, slotLookup_eq_none.mpr fun slot hslot hsome => by
      rw [List.eq_of_mem_replicate hslot] at hsome
      cases hsome]
    rfl

theorem step_tableInv (call : TableCall) (hinv : TableInv r.bindings) :
    TableInv (r.step call).bindings := by
  cases call with
  | bind port handler =>
      rw [step]
      cases hbind : udpBind r.bindings port handler with
      | none => exact hinv
      | some bindings => exact hinv.udpBind hbind
  | unbind port => exact hinv.udpUnbind

/-- Every table that the calls set up. -/
theorem foldl_tableInv (calls : List TableCall) (hinv : TableInv r.bindings) :
    TableInv (calls.foldl step r).bindings := by
  induction calls generalizing r with
  | nil => exact hinv
  | cons call calls ih => exact ih (step_tableInv call hinv)

/-- One call. -/
theorem step_implements (hinv : r.Inv) : (r.step call).Implements ↔ ¬ r.MissesPort call := by
  obtain ⟨htable, hsame⟩ := hinv
  rw [implements_iff (step_tableInv call htable)]
  cases call with
  | bind port handler =>
      refine iff_of_true ?_ fun hmisses => TableCall.noConfusion hmisses.1
      rw [step]
      cases hbind : udpBind r.bindings port handler with
      | none => exact hsame
      | some bindings =>
          change boundHandler bindings = _
          rw [boundHandler_udpBind hbind, hsame]
  | unbind port =>
      change boundHandler (udpUnbind r.bindings port) = Function.update r.bound port none ↔ _
      rw [← hsame, htable.boundHandler_udpUnbind, MissesPort, TableCall.unbind.injEq]

end TableRun

/-- **A map with room for sixteen ports.**  Along any sequence of calls the table implements the
map that they describe, exactly as long as `udp_unbind(0)` is not called while port 0 is bound
behind a free slot. -/
theorem tableRun_implements_iff (calls : List TableCall) :
    TableRun.boot.Implements ∧
      (AtEveryStep TableRun.step (fun r call => (r.step call).Implements) .boot calls ↔
        AtEveryStep TableRun.step (fun r call => ¬ r.MissesPort call) .boot calls) := by
  refine ⟨(TableRun.implements_iff TableRun.boot_inv.1).mpr TableRun.boot_inv.2, ?_⟩
  refine atEveryStep_iff (fun r call hinv => TableRun.step_implements hinv) ?_ TableRun.boot_inv
  intro r call hinv hhits
  have htable := TableRun.step_tableInv call hinv.1
  exact ⟨htable, (TableRun.implements_iff htable).mp ((TableRun.step_implements hinv).mpr hhits)⟩

/-- Port 0 is bound behind the slot that port 1 leaves free. -/
theorem tableRun_not_implements :
    ¬ ∀ calls : List TableCall,
      AtEveryStep TableRun.step (fun r call => (r.step call).Implements) .boot calls := by
  intro hall
  have hlast := hall [.bind 1 (.application 1), .bind 0 (.application 0), .unbind 1, .unbind 0]
    [.bind 1 (.application 1), .bind 0 (.application 0), .unbind 1] (.unbind 0) (List.prefix_refl _)
  have hinv := TableRun.foldl_tableInv
    [.bind 1 (.application 1), .bind 0 (.application 0), .unbind 1, .unbind 0]
    TableRun.boot_inv.1
  have hsame := congrFun ((TableRun.implements_iff hinv).mp hlast) 0
  exact absurd hsame (by decide)

end GeckoOS.Net
