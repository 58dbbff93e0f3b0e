/-
# The ARP cache

`arp_handle` enters the sender of every request and reply into a table of sixteen entries: it
overwrites the entry of the sender's address, or else takes the first invalid one.  The table
holds at most one entry for each address, and an entry stays as it is until a packet claims its
address again.

An entry is never given up.  Once sixteen addresses have been heard, a packet from any other
one is dropped without a word, so the reply that `ip_send` waits for may never be learnt.
-/

import GeckoOS.Math.Runs
import GeckoOS.Math.SlotTable
import GeckoOS.Net.FrameEffects

namespace GeckoOS.Net

open GeckoOS.Math ByteMap

/-- A packet that `arp_handle` is called with. -/
structure ArpCall where
  bytes : ByteMap
  data : Nat

namespace ArpCall

variable (call : ArpCall)

/-- `arp->op`. -/
def op : Nat := bswap16 (call.bytes.load (call.data + 6) 2)

/-- `arp->sender_ip`. -/
def senderIp : UInt32 := ipAt call.bytes (call.data + 14)

/-- `arp->sender_mac`. -/
def senderMac : Mac := macAt call.bytes (call.data + 8)

/-- A request or a reply. -/
def IsNews : Prop := call.op = 1 ∨ call.op = 2

instance : Decidable call.IsNews := inferInstanceAs (Decidable (_ ∨ _))

/-- The sender says that the address is its own. -/
def Claims (ip : UInt32) : Prop := call.IsNews ∧ call.senderIp = ip

end ArpCall

/-- `arp_init`. -/
def arpInit (st : NetState) : NetState :=
  { st with arpCache := st.arpCache.map fun entry => { entry with valid := false } }

/-- `arp_handle`, as a step of a run. -/
def NetState.hear (st : NetState) (call : ArpCall) : NetState := arpHandle st call.bytes call.data

/-- No two valid entries are for one address. -/
def OneEntryEach (st : NetState) : Prop :=
  st.arpCache.Pairwise fun entry other => entry.valid → other.valid → entry.ip ≠ other.ip

/-- There is an entry for the address, or one that is free. -/
def HasPlace (st : NetState) (ip : UInt32) : Prop :=
  (arpResolve st ip).isSome ∨ ∃ entry ∈ st.arpCache, entry.valid = false

/-- Every reply of the run is remembered until its address is claimed again. -/
def Remembers (start : NetState) (calls : List ArpCall) : Prop :=
  ∀ before call after, before ++ call :: after <+: calls → call.op = 2 →
    (∀ later ∈ after, ¬ later.Claims call.senderIp) →
      arpResolve ((before ++ call :: after).foldl .hear start) call.senderIp =
        some call.senderMac

/-! ## The cache as a table of slots -/

/-- The hardware address of a valid entry. -/
def ArpEntry.mac? (entry : ArpEntry) : Option Mac := if entry.valid then some entry.mac else none

variable {st : NetState} {cache : List ArpEntry} {ip : UInt32} {mac : Mac} {call : ArpCall}

theorem ArpEntry.isSome_mac? (entry : ArpEntry) : entry.mac?.isSome = entry.valid := by
  rw [ArpEntry.mac?]
  cases entry.valid <;> rfl

theorem ArpEntry.isNone_mac? (entry : ArpEntry) : entry.mac?.isNone = !entry.valid := by
  rw [ArpEntry.mac?]
  cases entry.valid <;> rfl

theorem arpResolve_eq :
    arpResolve st = slotLookup ArpEntry.ip ArpEntry.mac? st.arpCache := by
  funext ip
  have htest : (fun entry : ArpEntry => entry.mac?.isSome && entry.ip == ip) =
      fun entry => entry.valid && entry.ip == ip := by
    funext entry
    rw [ArpEntry.isSome_mac?]
  rw [arpResolve, slotLookup, htest]
  cases hfind : st.arpCache.find? fun entry => entry.valid && entry.ip == ip with
  | none => rfl
  | some entry =>
      have hvalid := List.find?_some hfind
      rw [Bool.and_eq_true] at hvalid
      rw [Option.map_some, Option.bind_some, ArpEntry.mac?, if_pos hvalid.1]

theorem learnSender_eq : learnSender cache ip mac =
    (bindSlot ArpEntry.ip ArpEntry.mac? ⟨ip, mac, true⟩ cache).getD cache := by
  have hfree : (fun entry : ArpEntry => entry.mac?.isNone) = fun entry => !entry.valid :=
    funext ArpEntry.isNone_mac?
  have htest : (fun entry : ArpEntry => entry.mac?.isSome && entry.ip == ip) =
      fun entry => entry.valid && entry.ip == ip := by
    funext entry
    rw [ArpEntry.isSome_mac?]
  rw [learnSender, arpSlot, bindSlot, replaceFirst, replaceFirst, htest, hfree]
  cases cache.findIdx? fun entry => entry.valid && entry.ip == ip with
  | some i => rfl
  | none => cases cache.findIdx? fun entry => !entry.valid <;> rfl

theorem oneEntryEach_iff :
    OneEntryEach st ↔ KeysUnique ArpEntry.ip ArpEntry.mac? st.arpCache := by
  simp only [OneEntryEach, KeysUnique, ArpEntry.isSome_mac?]

/-! ## One packet -/

/-- `arp_handle` enters the sender of a request or a reply. -/
theorem arpCache_hear (st : NetState) (call : ArpCall) : (st.hear call).arpCache =
    if call.IsNews then learnSender st.arpCache call.senderIp call.senderMac else st.arpCache := by
  by_cases hnews : call.IsNews
  · have hop : bswap16 (call.bytes.load (call.data + 6) 2) = 1 ∨
        bswap16 (call.bytes.load (call.data + 6) 2) = 2 := hnews
    rw [if_pos hnews, learnSender, NetState.hear, arpHandle]
    simp only [if_pos hop, ArpCall.senderIp, ArpCall.senderMac]
    cases hslot : arpSlot st.arpCache (ipAt call.bytes (call.data + 14)) <;> split_ifs <;>
      simp [netSendFrame, NetState.log, hslot]
  · have hrequest : bswap16 (call.bytes.load (call.data + 6) 2) ≠ 1 := fun h => hnews (.inl h)
    have hreply : bswap16 (call.bytes.load (call.data + 6) 2) ≠ 2 := fun h => hnews (.inr h)
    rw [if_neg hnews, NetState.hear, arpHandle]
    simp only [hrequest, hreply, false_and, false_or, if_false]
    rfl

theorem hasPlace_iff : HasPlace st ip ↔
    bindSlot ArpEntry.ip ArpEntry.mac? ⟨ip, mac, true⟩ st.arpCache ≠ none := by
  rw [Ne, bindSlot_eq_none, ← arpResolve_eq, HasPlace, not_and_or]
  apply or_congr
  · rw [Option.isSome_iff_ne_none]
  · simp [ArpEntry.isSome_mac?]

/-- A packet changes what is known of the address that it claims, if there is a place for it,
and of no other. -/
theorem arpResolve_hear (st : NetState) (hnews : call.IsNews) :
    (HasPlace st call.senderIp ∧ arpResolve (st.hear call) =
        Function.update (arpResolve st) call.senderIp (some call.senderMac)) ∨
      ¬ HasPlace st call.senderIp ∧ arpResolve st call.senderIp = none ∧
        (st.hear call).arpCache = st.arpCache := by
  have hcache := arpCache_hear st call
  rw [if_pos hnews, learnSender_eq] at hcache
  cases hbind : bindSlot ArpEntry.ip ArpEntry.mac? ⟨call.senderIp, call.senderMac, true⟩
      st.arpCache with
  | some cache =>
      rw [hbind, Option.getD_some] at hcache
      left
      refine ⟨?_, ?_⟩
      · rw [@hasPlace_iff st call.senderIp call.senderMac, hbind]
        exact Option.some_ne_none _
      · have hnew : (ArpEntry.mk call.senderIp call.senderMac true).mac? =
            some call.senderMac := rfl
        rw [arpResolve_eq, arpResolve_eq, hcache]
        exact slotLookup_bindSlot hnew hbind
  | none =>
      rw [hbind, Option.getD_none] at hcache
      right
      refine ⟨?_, ?_, hcache⟩
      · rw [@hasPlace_iff st call.senderIp call.senderMac, hbind]
        exact not_not.mpr rfl
      · rw [arpResolve_eq]
        exact (bindSlot_eq_none.mp hbind).1

theorem arpResolve_hear_other (st : NetState) (hother : ¬ call.Claims ip) :
    arpResolve (st.hear call) ip = arpResolve st ip := by
  by_cases hnews : call.IsNews
  · have hne : ip ≠ call.senderIp := fun heq => hother ⟨hnews, heq.symm⟩
    rcases arpResolve_hear st hnews with ⟨-, hlearnt⟩ | ⟨-, -, hsame⟩
    · rw [hlearnt, Function.update_of_ne hne]
    · rw [arpResolve_eq, arpResolve_eq, hsame]
  · have hsame := arpCache_hear st call
    rw [if_neg hnews] at hsame
    rw [arpResolve_eq, arpResolve_eq, hsame]

/-- A packet leaves at most one entry for each address. -/
theorem OneEntryEach.hear (hone : OneEntryEach st) (call : ArpCall) :
    OneEntryEach (st.hear call) := by
  rw [oneEntryEach_iff] at hone ⊢
  rw [arpCache_hear, learnSender_eq]
  by_cases hnews : call.IsNews
  · rw [if_pos hnews]
    cases hbind : bindSlot ArpEntry.ip ArpEntry.mac? ⟨call.senderIp, call.senderMac, true⟩
        st.arpCache with
    | none => exact hone
    | some cache => exact hone.bindSlot hbind
  · rwa [if_neg hnews]

/-! ## Runs -/

theorem OneEntryEach.foldl (hone : OneEntryEach st) (calls : List ArpCall) :
    OneEntryEach (calls.foldl .hear st) := by
  induction calls generalizing st with
  | nil => exact hone
  | cons call calls ih => exact ih (hone.hear call)

theorem oneEntryEach_arpInit (st : NetState) : OneEntryEach (arpInit st) := by
  have hvalid : ∀ entry ∈ (arpInit st).arpCache, entry.valid = false := by
    simp [arpInit]
  apply List.pairwise_of_forall_mem_list
  intro entry hentry other _ hsome
  rw [hvalid entry hentry] at hsome
  cases hsome

/-- Packets that do not claim the address leave what is known of it. -/
theorem arpResolve_foldl {calls : List ArpCall} (hothers : ∀ call ∈ calls, ¬ call.Claims ip) :
    arpResolve (calls.foldl .hear st) ip = arpResolve st ip := by
  induction calls generalizing st with
  | nil => rfl
  | cons call calls ih =>
      rw [List.foldl_cons, ih fun later hlater => hothers later (List.mem_cons_of_mem _ hlater)]
      exact arpResolve_hear_other st (hothers call List.mem_cons_self)

/-- **What the cache learns.**  From `arp_init` on, whatever packets come, no two valid entries
are for one address; and every reply is remembered until its address is claimed again, if and
only if each one finds an entry for its address or a free one. -/
theorem arp_remembers_iff (st : NetState) (calls : List ArpCall) :
    ((∀ before, before <+: calls → OneEntryEach (before.foldl .hear (arpInit st))) ∧
        Remembers (arpInit st) calls) ↔
      AtEveryStep .hear (fun st call => call.op = 2 → HasPlace st call.senderIp) (arpInit st)
        calls := by
  rw [and_iff_right fun before _ => (oneEntryEach_arpInit st).foldl before]
  constructor
  · intro hremembers before call hprefix hreply
    have hlearnt := hremembers before call [] hprefix hreply (by simp)
    rw [List.foldl_append, List.foldl_cons, List.foldl_nil] at hlearnt
    rcases arpResolve_hear (before.foldl .hear (arpInit st)) (.inr hreply) with
      ⟨hplace, -⟩ | ⟨-, hnone, hsame⟩
    · exact hplace
    · rw [arpResolve_eq, hsame, ← arpResolve_eq, hnone] at hlearnt
      cases hlearnt
  · intro hplaces before call after hprefix hreply hothers
    have hbefore : before ++ [call] <+: calls := by
      refine List.IsPrefix.trans ⟨after, ?_⟩ hprefix
      rw [List.append_assoc, List.singleton_append]
    rw [List.foldl_append, List.foldl_cons, arpResolve_foldl hothers]
    rcases arpResolve_hear (before.foldl .hear (arpInit st)) (.inr hreply) with
      ⟨-, hlearnt⟩ | ⟨hnone, -⟩
    · rw [hlearnt, Function.update_self]
    · exact absurd (hplaces before call hbefore hreply) hnone

/-- A reply from the host with this number. -/
def replyOf (host : Fin 17) : ArpCall :=
  ⟨arpPacket 2 (fun _ => .ofNat host) (bswap32 (0x0A000210 + host)) (fun _ => 0) 0, 0⟩

/-- The reply of a seventeenth host is dropped. -/
theorem arp_forgets :
    ¬ Remembers (arpInit (.init fun _ => 0)) (List.ofFn replyOf) := by
  intro hremembers
  have hlast := hremembers (List.ofFn fun host : Fin 16 => replyOf host.castSucc) (replyOf 16) []
    (by rw [List.ofFn_succ_last]; exact List.prefix_rfl) (by decide +kernel)
    (by simp)
  have hnone : (arpResolve
      (((List.ofFn fun host : Fin 16 => replyOf host.castSucc) ++ [replyOf 16]).foldl .hear
        (arpInit (.init fun _ => 0))) (replyOf 16).senderIp).isSome = false := by
    decide +kernel
  rw [hlast] at hnone
  cases hnone

end GeckoOS.Net
