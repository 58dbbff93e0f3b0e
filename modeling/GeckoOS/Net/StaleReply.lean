/-
# What follows a reply

A reply does not end with a zero, and what follows it in the `udp_reply_t` is what was there
before: an older reply, or whatever was on the stack.  The commands look for the end of a number
without a look at the length of the reply, so a number that the reply ends with goes on in what
follows.

Two contents of the structure stand for everything that may follow.  What a command makes of a
reply is the same for all of them exactly if each of its loops meets a byte in the reply that
ends it.  The server's reply to `SIZE` has no such byte, since it ends with the size.
-/

import Mathlib.Data.List.TakeWhile
import GeckoOS.Net.PullFile

namespace GeckoOS.Net

open GeckoOS.Math

/-! ## The commands and their replies -/

/-- A request whose reply is read. -/
inductive HostCommand
  /-- `SIZE`, in `cmd_hostfilesize` and `cmd_pullhostfile`. -/
  | size
  /-- `GET`, in a `cmd_pullhostfile` that has come to `off`. -/
  | chunk (off : UInt32)
  /-- `LIST`, in `cmd_listhostfiles`. -/
  | list

/-- What is read from a reply, and what is done about it; nothing if a loop runs off the memory,
and `none` if the reply is refused. -/
inductive HostAnswer
  | size (answer : Option (Option UInt32))
  | chunk (answer : Option (Option (GetNumbers × GetDecision)))
  | list (answer : Option (Option (List (List UInt8 × UInt32))))
  deriving DecidableEq

namespace HostCommand

/-- A command reads a reply. -/
def read (slot : ReplySlot) : HostCommand → HostAnswer
  | .size => .size (hostFileSize slot)
  | .chunk off => .chunk ((getNumbers slot).map fun answer =>
      answer.map fun numbers => (numbers, getDecision slot off numbers))
  | .list => .list (listHostFiles slot)

/-- Whatever was in the structure before, the command makes the same of the reply. -/
def ReadsReplyOnly (command : HostCommand) (reply : ReplyPayload) : Prop :=
  ∀ slot slot' : ReplySlot, command.read (slot.receive reply) = command.read (slot'.receive reply)

/-- If the reply is the server's to `SIZE`, the size is what the server says. -/
def ReadsServerSize (command : HostCommand) (reply : ReplyPayload) : Prop :=
  ∀ n (slot : ReplySlot), command = .size → reply.val = Gk.ascii "OK " ++ Gk.decimal n →
    ∃ size, hostFileSize (slot.receive reply) = some (some size) ∧ size.toNat = n

end HostCommand

/-- What a text leaves behind the spaces and the digits that it begins with. -/
def fieldRest (p : List UInt8) : List UInt8 := (p.dropWhile (· == 32)).dropWhile Gk.isDigit

/-- The number that digits make, behind others. -/
def decValue (v : UInt32) (digits : List UInt8) : UInt32 :=
  digits.foldl (fun v c => v * 10 + (c - 48).toUInt32) v

/-- The number behind the spaces that a text begins with. -/
def fieldValue (p : List UInt8) : UInt32 :=
  decValue 0 ((p.dropWhile (· == 32)).takeWhile Gk.isDigit)

/-- What stands behind the last newline. -/
def lastLine (p : List UInt8) : List UInt8 := (p.splitOn 10).getLastD []

/-- The size in the line is ended by a byte of the line, if there is a size. -/
def SizeEnds (line : List UInt8) : Prop :=
  32 ∈ line → (line.drop (line.idxOf 32 + 1)).dropWhile Gk.isDigit ≠ []

namespace HostCommand

/-- In a reply that begins with `OK`, each loop of the command meets a byte that ends it. -/
def Ends (p : List UInt8) : HostCommand → Prop
  | .size => fieldRest (p.drop 2) ≠ []
  | .chunk off => fieldRest (fieldRest (fieldRest (p.drop 2))) ≠ [] ∧
      (fieldValue (p.drop 2) = off → 10 ∈ p ∧
        p.idxOf 10 + 1 + (fieldValue (fieldRest (fieldRest (p.drop 2)))).toNat < 2 ^ 31)
  | .list => 0 < p.count 10 → p.count 10 < 64 → SizeEnds (lastLine p)

/-- The reply shows whether it begins with `OK`, and if it does, where the loops end. -/
def Delimited (command : HostCommand) : List UInt8 → Prop
  | [] => False
  | [c] => c ≠ 79
  | c :: d :: p => c = 79 → d = 75 → command.Ends (c :: d :: p)

end HostCommand

/-! ## Numbers -/

section Numbers

variable {p rest : List UInt8} {v : UInt32}

/-- A number that is ended by a byte of the text is read from the text. -/
theorem pullParseDec_append (hend : p.dropWhile Gk.isDigit ≠ []) :
    pullParseDec v (p ++ rest) =
      some (decValue v (p.takeWhile Gk.isDigit), p.dropWhile Gk.isDigit ++ rest) := by
  induction p generalizing v with
  | nil => exact absurd rfl hend
  | cons c p ih =>
      rw [List.cons_append, pullParseDec]
      by_cases hdigit : Gk.isDigit c
      · rw [List.dropWhile_cons_of_pos hdigit] at hend ⊢
        rw [if_pos hdigit, ih hend, List.takeWhile_cons_of_pos hdigit]
        rfl
      · rw [if_neg hdigit, List.dropWhile_cons_of_neg hdigit, List.takeWhile_cons_of_neg hdigit]
        rfl

/-- A number that is not ended goes on with a digit that follows. -/
theorem pullParseDec_open {d : UInt8} (hopen : p.dropWhile Gk.isDigit = []) (hd : Gk.isDigit d) :
    pullParseDec v (p ++ d :: 0 :: rest) =
      some (decValue v p * 10 + (d - 48).toUInt32, 0 :: rest) := by
  induction p generalizing v with
  | nil =>
      rw [List.nil_append, pullParseDec, if_pos hd, pullParseDec, if_neg (by decide)]
      rfl
  | cons c p ih =>
      have hdigit : Gk.isDigit c := (List.dropWhile_eq_nil_iff.mp hopen) c List.mem_cons_self
      rw [List.dropWhile_cons_of_pos hdigit] at hopen
      rw [List.cons_append, pullParseDec, if_pos hdigit, ih hopen]
      rfl

theorem skipSpaces_append (hend : p.dropWhile (· == 32) ≠ []) :
    skipSpaces (p ++ rest) = some (p.dropWhile (· == 32) ++ rest) := by
  induction p with
  | nil => exact absurd rfl hend
  | cons c p ih =>
      rw [List.cons_append, skipSpaces]
      by_cases hspace : c = 32
      · rw [List.dropWhile_cons_of_pos (p := (· == 32)) (beq_iff_eq.mpr hspace)] at hend ⊢
        rw [if_pos hspace, ih hend]
      · rw [if_neg hspace, List.dropWhile_cons_of_neg (p := (· == 32)) (by simpa using hspace)]
        rfl

theorem skipSpaces_open {d : UInt8} (hopen : p.dropWhile (· == 32) = []) (hd : d ≠ 32) :
    skipSpaces (p ++ d :: rest) = some (d :: rest) := by
  induction p with
  | nil => exact if_neg hd
  | cons c p ih =>
      have hspace : c = 32 := by
        simpa using (List.dropWhile_eq_nil_iff.mp hopen) c List.mem_cons_self
      rw [List.dropWhile_cons_of_pos (p := (· == 32)) (beq_iff_eq.mpr hspace)] at hopen
      rw [List.cons_append, skipSpaces, if_pos hspace, ih hopen]

/-- A field that is ended by a byte of the text is read from the text. -/
theorem nextNumber_append (hend : fieldRest p ≠ []) :
    nextNumber (p ++ rest) = some (fieldValue p, fieldRest p ++ rest) := by
  have hspaces : p.dropWhile (· == 32) ≠ [] := by
    intro hnil
    rw [fieldRest, hnil] at hend
    exact hend rfl
  rw [nextNumber, skipSpaces_append hspaces]
  exact pullParseDec_append hend

/-- A field that is not ended goes on with a digit that follows. -/
theorem nextNumber_open {d : UInt8} (hopen : fieldRest p = []) (hd : Gk.isDigit d) :
    nextNumber (p ++ d :: 0 :: rest) =
      some (fieldValue p * 10 + (d - 48).toUInt32, 0 :: rest) := by
  have hvalue : (p.dropWhile (· == 32)).takeWhile Gk.isDigit = p.dropWhile (· == 32) :=
    List.takeWhile_eq_self_iff.mpr (List.dropWhile_eq_nil_iff.mp hopen)
  have hspace : d ≠ 32 := by
    rintro rfl
    exact absurd hd (by decide)
  rw [nextNumber, fieldValue, hvalue]
  by_cases hspaces : p.dropWhile (· == 32) = []
  · rw [skipSpaces_open hspaces hspace, hspaces]
    exact pullParseDec_open (p := []) rfl hd
  · rw [skipSpaces_append hspaces]
    exact pullParseDec_open hopen hd

end Numbers

/-! ## What follows the reply -/

namespace HostCommand

/-- The answer to a reply that does not begin with `OK`. -/
def refused : HostCommand → HostAnswer
  | .size => .size (some none)
  | .chunk _ => .chunk (some none)
  | .list => .list (some none)

variable {command : HostCommand} {slot : ReplySlot}

theorem read_refused (hlead : startsWith slot.memory (Gk.ascii "OK") = some false) :
    command.read slot = command.refused := by
  cases command with
  | size => rw [read, hostFileSize, hlead]; rfl
  | chunk off => rw [read, getNumbers, hlead]; rfl
  | list => rw [read, listHostFiles, hlead]; rfl

end HostCommand

section Accepted

variable {slot : ReplySlot} (hlead : startsWith slot.memory (Gk.ascii "OK") = some true)

include hlead

theorem hostFileSize_ok :
    hostFileSize slot = (nextNumber (slot.memory.drop 2)).map fun field => some field.1 := by
  rw [hostFileSize, hlead]
  cases nextNumber (slot.memory.drop 2) <;> rfl

theorem getNumbers_ok :
    getNumbers slot = (nextNumber (slot.memory.drop 2)).bind fun field =>
      (nextNumber field.2).bind fun field' =>
        (nextNumber field'.2).map fun field'' => some ⟨field.1, field'.1, field''.1⟩ := by
  rw [getNumbers, hlead]
  cases hfirst : nextNumber (slot.memory.drop 2) with
  | none => rfl
  | some field =>
      cases hsecond : nextNumber field.2 with
      | none =>
          simp [hsecond]
      | some field' =>
          cases hthird : nextNumber field'.2 <;> simp [hsecond, hthird]

theorem listHostFiles_ok : listHostFiles slot = (listLines slot 64 0 0).map some := by
  rw [listHostFiles, hlead]
  cases listLines slot 64 0 0 <;> rfl

theorem HostCommand.read_ne_refused (command : HostCommand) :
    command.read slot ≠ command.refused := by
  cases command with
  | size =>
      rw [read, hostFileSize_ok hlead]
      cases nextNumber (slot.memory.drop 2) <;> simp [refused]
  | chunk off =>
      rw [read, getNumbers_ok hlead]
      cases nextNumber (slot.memory.drop 2) with
      | none => simp [refused]
      | some field =>
          cases hsecond : nextNumber field.2 with
          | none => simp [refused, hsecond]
          | some field' =>
              cases hthird : nextNumber field'.2 <;> simp [refused, hsecond, hthird]
  | list =>
      rw [read, listHostFiles_ok hlead]
      cases listLines slot 64 0 0 <;> simp [refused]

end Accepted

/-- What may be in a structure so that it comes to follow a reply. -/
def staleSlot (reply : ReplyPayload) (stale : List UInt8) : ReplySlot where
  memory := List.replicate reply.val.length 0 ++ (stale ++ List.replicate 1472 0)
  array_le := by
    rw [List.length_append, List.length_append, List.length_replicate, List.length_replicate]
    omega
  payloadLen := 0

theorem memory_staleSlot (reply : ReplyPayload) (stale : List UInt8) :
    ((staleSlot reply stale).receive reply).memory =
      reply.val ++ (stale ++ List.replicate 1472 0) := by
  have hdrop := @List.drop_left UInt8 (List.replicate reply.val.length 0)
    (stale ++ List.replicate 1472 0)
  rw [List.length_replicate] at hdrop
  exact congrArg (reply.val ++ ·) hdrop

/-! ## Copying -/

section Staging

variable {slot : ReplySlot} {p rest : List UInt8} {source count k : Nat}

theorem toNat_ofNat_add_one : UInt32.ofNat source + 1 = UInt32.ofNat (source + 1) :=
  (UInt32.ofNat_add source 1).symm

/-- One byte is copied. -/
theorem stagedBytes_succ (hin : source < slot.memory.length) (hsmall : source < 2 ^ 32) :
    stagedBytes slot (count + 1) (UInt32.ofNat source) =
      (slot.memory[source] :: (stagedBytes slot count (UInt32.ofNat (source + 1))).1,
        (stagedBytes slot count (UInt32.ofNat (source + 1))).2) := by
  have hsource : (UInt32.ofNat source).toNat = source := UInt32.toNat_ofNat_of_lt' hsmall
  rw [stagedBytes, hsource, List.getElem?_eq_getElem hin, toNat_ofNat_add_one]

/-- A copy from inside the payload copies the bytes of the payload. -/
theorem stagedBytes_inside (hmemory : slot.memory = p ++ rest) (hp : p.length ≤ 1472)
    (hin : source + count ≤ p.length) :
    stagedBytes slot count (UInt32.ofNat source) = ((p.drop source).take count, true) := by
  induction count generalizing source with
  | zero => rw [stagedBytes, List.take_zero]
  | succ count ih =>
      have hlt : source < p.length := by omega
      have hin' : source < slot.memory.length := by
        rw [hmemory, List.length_append]
        omega
      have hbyte : slot.memory[source] = p[source] := by
        simp only [hmemory]
        exact List.getElem_append_left hlt
      rw [stagedBytes_succ hin' (by omega), ih (by omega), hbyte, List.drop_eq_getElem_cons hlt,
        List.take_succ_cons]

/-- A copy that gets to a place of the memory copies what is there. -/
theorem getElem?_stagedBytes (hk : k < count) (hin : source + k < slot.memory.length)
    (hsmall : source + k < 2 ^ 32) :
    (stagedBytes slot count (UInt32.ofNat source)).1[k]? = slot.memory[source + k]? := by
  induction k generalizing source count with
  | zero =>
      cases count with
      | zero => exact absurd hk (Nat.lt_irrefl 0)
      | succ count =>
          have hcopy := @stagedBytes_succ slot source count hin hsmall
          rw [hcopy]
          exact (List.getElem?_eq_getElem hin).symm
  | succ k ih =>
      cases count with
      | zero => exact absurd hk (Nat.not_lt_zero _)
      | succ count =>
          rw [stagedBytes_succ (by omega) (by omega), List.getElem?_cons_succ,
            ih (Nat.lt_of_succ_lt_succ hk) (by omega) (by omega), Nat.add_right_comm, Nat.add_assoc]

end Staging

/-! ## Each command -/

section Commands

variable {reply : ReplyPayload} {off : UInt32}

/-- Behind `OK`. -/
abbrev behindOk (reply : ReplyPayload) : List UInt8 := reply.val.drop 2

/-- The reply begins with `OK`. -/
def BeginsOk (reply : ReplyPayload) : Prop := ∃ p, reply.val = 79 :: 75 :: p

theorem BeginsOk.lead (hok : BeginsOk reply) (slot : ReplySlot) :
    startsWith (slot.receive reply).memory (Gk.ascii "OK") = some true := by
  obtain ⟨p, hp⟩ := hok
  have hlead : Gk.ascii "OK" = [79, 75] := by decide
  change startsWith (reply.val ++ _) _ = _
  rw [hp, hlead]
  simp [startsWith]

theorem BeginsOk.drop (hok : BeginsOk reply) (slot : ReplySlot) :
    (slot.receive reply).memory.drop 2 =
      behindOk reply ++ slot.memory.drop reply.val.length := by
  obtain ⟨p, hp⟩ := hok
  change (reply.val ++ _).drop 2 = _
  rw [behindOk, hp]
  rfl

theorem BeginsOk.drop_stale (hok : BeginsOk reply) (stale : List UInt8) :
    ((staleSlot reply stale).receive reply).memory.drop 2 =
      behindOk reply ++ (stale ++ List.replicate 1472 0) := by
  rw [memory_staleSlot]
  obtain ⟨p, hp⟩ := hok
  rw [behindOk, hp]
  rfl

/-- Two digits that follow make different numbers of what is before them. -/
theorem digit_ne (v : UInt32) : v * 10 + ((48 : UInt8) - 48).toUInt32 ≠
    v * 10 + ((49 : UInt8) - 48).toUInt32 := by
  intro hsame
  exact absurd ((UInt32.add_right_inj _).mp hsame) (by decide)

/-- The size depends on the reply only if a byte of the reply ends it. -/
theorem size_readsReplyOnly_iff (hok : BeginsOk reply) :
    HostCommand.size.ReadsReplyOnly reply ↔ HostCommand.size.Ends reply.val := by
  constructor
  · intro hsame hopen
    have hdigit : ∀ d, Gk.isDigit d →
        hostFileSize ((staleSlot reply [d, 0]).receive reply) =
          some (some (fieldValue (behindOk reply) * 10 + (d - 48).toUInt32)) := by
      intro d hd
      rw [hostFileSize_ok (hok.lead _), hok.drop_stale]
      exact congrArg (Option.map _) (nextNumber_open hopen hd)
    have hboth := HostAnswer.size.inj (hsame (staleSlot reply [48, 0]) (staleSlot reply [49, 0]))
    rw [hdigit 48 (by decide), hdigit 49 (by decide)] at hboth
    exact digit_ne _ (Option.some.inj (Option.some.inj hboth))
  · intro hends slot slot'
    have hvalue : ∀ slot : ReplySlot, hostFileSize (slot.receive reply) =
        some (some (fieldValue (behindOk reply))) := by
      intro slot
      rw [hostFileSize_ok (hok.lead slot), hok.drop, nextNumber_append hends]
      rfl
    rw [HostCommand.read, HostCommand.read, hvalue, hvalue]

theorem fieldRest_ne {p : List UInt8} (hrest : fieldRest (fieldRest p) ≠ []) :
    fieldRest p ≠ [] := by
  intro hnil
  rw [hnil] at hrest
  exact hrest rfl

theorem nextNumber_zero (p : List UInt8) : nextNumber (0 :: p) = some (0, 0 :: p) := rfl

/-- The numbers of a reply in which they end. -/
def numbersOf (reply : ReplyPayload) : GetNumbers where
  off := fieldValue (behindOk reply)
  total := fieldValue (fieldRest (behindOk reply))
  len := fieldValue (fieldRest (fieldRest (behindOk reply)))

theorem getNumbers_of_ends (hok : BeginsOk reply)
    (hends : fieldRest (fieldRest (fieldRest (behindOk reply))) ≠ []) (slot : ReplySlot) :
    getNumbers (slot.receive reply) = some (some (numbersOf reply)) := by
  have hsecond := fieldRest_ne hends
  have hfirst := fieldRest_ne hsecond
  rw [getNumbers_ok (hok.lead slot), hok.drop, nextNumber_append hfirst]
  simp only [Option.bind_some, nextNumber_append hsecond, nextNumber_append hends, Option.map_some]
  rfl

/-- Where one of the numbers does not end, it goes on with a digit that follows. -/
theorem getNumbers_open (hok : BeginsOk reply)
    (hopen : fieldRest (fieldRest (fieldRest (behindOk reply))) = []) :
    getNumbers ((staleSlot reply [48, 0]).receive reply) ≠
      getNumbers ((staleSlot reply [49, 0]).receive reply) := by
  have h48 : Gk.isDigit 48 := by decide
  have h49 : Gk.isDigit 49 := by decide
  rw [getNumbers_ok (hok.lead _), getNumbers_ok (hok.lead _), hok.drop_stale, hok.drop_stale]
  intro hsame
  by_cases hfirst : fieldRest (behindOk reply) = []
  · simp only [List.cons_append, List.nil_append, nextNumber_open hfirst h48,
      nextNumber_open hfirst h49, nextNumber_zero, Option.bind_some, Option.map_some,
      Option.some.injEq, GetNumbers.mk.injEq] at hsame
    exact digit_ne _ hsame.1
  by_cases hsecond : fieldRest (fieldRest (behindOk reply)) = []
  · simp only [nextNumber_append hfirst, List.cons_append, List.nil_append,
      nextNumber_open hsecond h48, nextNumber_open hsecond h49, nextNumber_zero, Option.bind_some,
      Option.map_some, Option.some.injEq, GetNumbers.mk.injEq] at hsame
    exact digit_ne _ hsame.2.1
  · simp only [nextNumber_append hfirst, nextNumber_append hsecond, List.cons_append,
      List.nil_append, nextNumber_open hopen h48, nextNumber_open hopen h49, Option.bind_some,
      Option.map_some, Option.some.injEq, GetNumbers.mk.injEq] at hsame
    exact digit_ne _ hsame.2.2

theorem available_receive (slot slot' : ReplySlot) (len : UInt32) :
    available (slot.receive reply) len = available (slot'.receive reply) len := by
  rw [available, available, Pull.dataStart_receive, Pull.dataStart_receive]
  rfl

/-- A chunk that fits is taken from the reply alone. -/
theorem getDecision_receive {numbers : GetNumbers}
    (hfits : numbers.off = off →
      10 ∈ reply.val ∧ reply.val.idxOf 10 + 1 + numbers.len.toNat < 2 ^ 31)
    (slot slot' : ReplySlot) : getDecision (slot.receive reply) off numbers =
      getDecision (slot'.receive reply) off numbers := by
  rw [getDecision, getDecision]
  by_cases hoff : numbers.off = off
  · obtain ⟨hnewline, hshort⟩ := hfits hoff
    have hcopied : ∀ slot : ReplySlot, stagedBytes (slot.receive reply)
        (available (slot.receive reply) numbers.len).toNat
        (UInt32.ofNat (reply.val.idxOf 10 + 1)) =
          ((reply.val.drop (reply.val.idxOf 10 + 1)).take
            (available (slot.receive reply) numbers.len).toNat, true) := by
      intro slot
      have hstart := Pull.dataStart_receive slot reply
      have hlt := List.idxOf_lt_length_iff.mpr hnewline
      have havail : (available (slot.receive reply) numbers.len).toNat =
          min numbers.len.toNat (reply.val.length - (reply.val.idxOf 10 + 1)) := by
        rw [← hstart]
        apply available_of_fits reply.property
        · rw [hstart]
          exact hlt
        · rwa [hstart]
      apply stagedBytes_inside rfl reply.property
      omega
    dsimp only
    rw [Pull.dataStart_receive, Pull.dataStart_receive, hcopied, hcopied,
      available_receive slot slot']
  · rw [if_pos hoff, if_pos hoff]

/-- A chunk that does not fit is taken from what follows the reply as well. -/
theorem getDecision_stale {numbers : GetNumbers} (hoff : numbers.off = off)
    (hwrong : ¬ (10 ∈ reply.val ∧ reply.val.idxOf 10 + 1 + numbers.len.toNat < 2 ^ 31)) :
    getDecision ((staleSlot reply [48, 48]).receive reply) off numbers ≠
      getDecision ((staleSlot reply [49, 49]).receive reply) off numbers := by
  have hlength := List.idxOf_le_length (a := 10) (l := reply.val)
  have hpayload := reply.property
  rw [← List.idxOf_lt_length_iff] at hwrong
  have hmany : ∀ slot : ReplySlot, 16384 < (available (slot.receive reply) numbers.len).toNat := by
    intro slot
    have hstart := Pull.dataStart_receive slot reply
    apply available_of_not_fits reply.property
    · rw [hstart]
      exact Nat.succ_le_succ hlength
    · rw [hstart]
      exact hwrong
  -- the first byte behind the payload that is copied
  obtain ⟨k, hk, hplace⟩ : ∃ k ≤ 16384, reply.val.idxOf 10 + 1 + k = reply.val.length ∨
      reply.val.idxOf 10 + 1 + k = reply.val.length + 1 := by
    rcases Nat.lt_or_ge (reply.val.idxOf 10) reply.val.length with hlt | hge
    · exact ⟨reply.val.length - (reply.val.idxOf 10 + 1), by omega, by omega⟩
    · exact ⟨0, by omega, by omega⟩
  have hbyte : ∀ d : UInt8, (stagedBytes ((staleSlot reply [d, d]).receive reply)
      (available ((staleSlot reply [d, d]).receive reply) numbers.len).toNat
      (UInt32.ofNat (reply.val.idxOf 10 + 1))).1[k]? = some d := by
    intro d
    have hmore := hmany (staleSlot reply [d, d])
    have hmemory := memory_staleSlot reply [d, d]
    rw [getElem?_stagedBytes (by omega) _ (by omega), hmemory]
    · rcases hplace with hplace | hplace
      · rw [hplace, List.getElem?_append_right le_rfl, Nat.sub_self]
        rfl
      · rw [hplace, List.getElem?_append_right (Nat.le_add_right _ 1), Nat.add_sub_cancel_left]
        rfl
    · rw [hmemory, List.length_append, List.length_append, List.length_replicate]
      omega
  have hdecision : ∀ slot : ReplySlot, getDecision (slot.receive reply) off numbers =
      .stage (stagedBytes (slot.receive reply) (available (slot.receive reply) numbers.len).toNat
          (UInt32.ofNat (reply.val.idxOf 10 + 1))).1
        (stagedBytes (slot.receive reply) (available (slot.receive reply) numbers.len).toNat
          (UInt32.ofNat (reply.val.idxOf 10 + 1))).2 := by
    intro slot
    have hzero : available (slot.receive reply) numbers.len ≠ 0 := by
      intro hzero
      have hmore := hmany slot
      rw [hzero] at hmore
      exact absurd hmore (by decide)
    rw [getDecision, if_neg (not_not.mpr hoff), if_neg hzero, Pull.dataStart_receive]
  rw [hdecision, hdecision]
  intro hsame
  have hbytes := congrArg (·[k]?) (GetDecision.stage.inj hsame).1
  rw [hbyte, hbyte] at hbytes
  exact absurd hbytes (by decide)

/-- The numbers and the chunk depend on the reply only if the reply ends them. -/
theorem chunk_readsReplyOnly_iff (hok : BeginsOk reply) :
    (HostCommand.chunk off).ReadsReplyOnly reply ↔ (HostCommand.chunk off).Ends reply.val := by
  constructor
  · intro hsame
    have hnumbers : fieldRest (fieldRest (fieldRest (behindOk reply))) ≠ [] := by
      intro hopen
      have hboth := congrArg (Option.map (Option.map Prod.fst))
        (HostAnswer.chunk.inj (hsame (staleSlot reply [48, 0]) (staleSlot reply [49, 0])))
      simp only [Option.map_map, Function.comp_def, Option.map_id'] at hboth
      exact getNumbers_open hok hopen hboth
    refine ⟨hnumbers, fun hoff => ?_⟩
    by_contra hwrong
    have hboth := HostAnswer.chunk.inj (hsame (staleSlot reply [48, 48]) (staleSlot reply [49, 49]))
    rw [getNumbers_of_ends hok hnumbers, getNumbers_of_ends hok hnumbers] at hboth
    have hdecision := (Prod.mk.inj (Option.some.inj (Option.some.inj hboth))).2
    have hstays : (numbersOf reply).off = off := hoff
    have hdiffers := getDecision_stale hstays hwrong
    exact hdiffers hdecision
  · rintro ⟨hnumbers, hfits⟩ slot slot'
    rw [HostCommand.read, HostCommand.read, getNumbers_of_ends hok hnumbers,
      getNumbers_of_ends hok hnumbers]
    simp only [Option.map_some]
    rw [getDecision_receive hfits slot slot']

end Commands

/-! ## The list of files -/

section Lines

variable {q rest : List UInt8} {reply : ReplyPayload} {left lines pos : Nat}

/-- What is read from the first line of a text, with something behind the text. -/
def lineEntry (q rest : List UInt8) : Option (Option (List UInt8 × UInt32)) :=
  let line := q.take (q.idxOf 10)
  if 32 ∈ line then
    (pullParseDec 0 (q.drop (line.idxOf 32 + 1) ++ rest)).map fun size =>
      some (line.take (line.idxOf 32), size.1)
  else some none

/-- What is read from it if the text ends the size. -/
def closedEntry (q : List UInt8) : Option (List UInt8 × UInt32) :=
  let line := q.take (q.idxOf 10)
  if 32 ∈ line then
    some (line.take (line.idxOf 32),
      decValue 0 ((q.drop (line.idxOf 32 + 1)).takeWhile Gk.isDigit))
  else none

theorem mem_drop_of_le {a : UInt8} {n : Nat} (hmem : a ∈ q) (hn : n ≤ q.idxOf a) :
    a ∈ q.drop n := by
  have hlt := List.idxOf_lt_length_iff.mpr hmem
  have hget : q[q.idxOf a] = a := List.getElem_idxOf hlt
  rw [List.mem_drop_iff_getElem]
  refine ⟨q.idxOf a - n, by omega, ?_⟩
  simp only [Nat.add_sub_cancel' hn, hget]

/-- The newline behind a line ends its size. -/
theorem lineEntry_of_newline (hnewline : 10 ∈ q) : lineEntry q rest = some (closedEntry q) := by
  rw [lineEntry, closedEntry]
  by_cases hspace : 32 ∈ q.take (q.idxOf 10)
  · have hlt := List.idxOf_lt_length_iff.mpr hspace
    have hbefore : (q.take (q.idxOf 10)).idxOf 32 < q.idxOf 10 :=
      hlt.trans_le (List.length_take_le _ _)
    have hend : (q.drop ((q.take (q.idxOf 10)).idxOf 32 + 1)).dropWhile Gk.isDigit ≠ [] := by
      intro hdigits
      have hmem := mem_drop_of_le hnewline hbefore
      exact absurd (List.dropWhile_eq_nil_iff.mp hdigits 10 hmem) (by decide)
    rw [if_pos hspace, if_pos hspace, pullParseDec_append hend]
    rfl
  · rw [if_neg hspace, if_neg hspace]

/-- The last line may end its size itself. -/
theorem lineEntry_of_sizeEnds (hlast : 10 ∉ q) (hends : SizeEnds q) :
    lineEntry q rest = some (closedEntry q) := by
  have hline : q.take (q.idxOf 10) = q := by
    rw [List.idxOf_eq_length hlast, List.take_length]
  rw [lineEntry, closedEntry, hline]
  by_cases hspace : 32 ∈ q
  · rw [if_pos hspace, if_pos hspace, pullParseDec_append (hends hspace)]
    rfl
  · rw [if_neg hspace, if_neg hspace]

/-- If it does not, the size goes on with a digit that follows. -/
theorem lineEntry_open {d : UInt8} (hlast : 10 ∉ q) (hopen : ¬ SizeEnds q) (hd : Gk.isDigit d) :
    lineEntry q (d :: 0 :: rest) =
      some (some (q.take (q.idxOf 32),
        decValue 0 (q.drop (q.idxOf 32 + 1)) * 10 + (d - 48).toUInt32)) := by
  have hline : q.take (q.idxOf 10) = q := by
    rw [List.idxOf_eq_length hlast, List.take_length]
  obtain ⟨hspace, hdigits⟩ := Classical.not_imp.mp hopen
  rw [lineEntry, hline, if_pos hspace, pullParseDec_open (not_not.mp hdigits) hd]
  rfl

/-- What `cmd_listhostfiles` reads from a line in the payload. -/
theorem listEntry_receive (slot : ReplySlot) (hpos : pos ≤ reply.val.length) :
    listEntry (slot.receive reply) pos (pos + (reply.val.drop pos).idxOf 10) =
      lineEntry (reply.val.drop pos) (slot.memory.drop reply.val.length) := by
  have hmemory : (slot.receive reply).memory.drop pos =
      reply.val.drop pos ++ slot.memory.drop reply.val.length :=
    List.drop_append_of_le_length hpos
  have hline : ((slot.receive reply).memory.drop pos).take
      (pos + (reply.val.drop pos).idxOf 10 - pos) =
        (reply.val.drop pos).take ((reply.val.drop pos).idxOf 10) := by
    rw [hmemory, Nat.add_sub_cancel_left, List.take_append_of_le_length List.idxOf_le_length]
  rw [listEntry, lineEntry, hline]
  dsimp only
  by_cases hspace : 32 ∈ (reply.val.drop pos).take ((reply.val.drop pos).idxOf 10)
  · have hlt := List.idxOf_lt_length_iff.mpr hspace
    have hinside := List.length_take_le' ((reply.val.drop pos).idxOf 10) (reply.val.drop pos)
    rw [if_pos hlt, if_pos hspace, Nat.add_assoc, ← List.drop_drop, hmemory,
      List.drop_append_of_le_length (by omega)]
    cases pullParseDec 0 _ <;> rfl
  · rw [if_neg hspace, if_neg]
    · rfl
    · rwa [List.idxOf_lt_length_iff]

/-- One line of the loop. -/
theorem listLines_succ (slot : ReplySlot) (hpos : pos < reply.val.length) :
    listLines (slot.receive reply) (left + 1) lines pos =
      (if 0 < lines ∧ 0 < (reply.val.drop pos).idxOf 10 then
          lineEntry (reply.val.drop pos) (slot.memory.drop reply.val.length)
        else some none).bind fun entry =>
        (listLines (slot.receive reply) left (lines + 1)
          (pos + (reply.val.drop pos).idxOf 10 + 1)).map fun entries =>
            entry.toList ++ entries := by
  have hcond : (0 < lines ∧ pos < pos + (reply.val.drop pos).idxOf 10) =
      (0 < lines ∧ 0 < (reply.val.drop pos).idxOf 10) := by
    rw [Nat.lt_add_right_iff_pos]
  have hpos' : pos < (slot.receive reply).payloadLen := hpos
  rw [listLines, if_pos hpos']
  dsimp only
  rw [Pull.take_receive]
  simp only [hcond, listEntry_receive slot hpos.le]
  split_ifs with hline
  · cases lineEntry _ _ with
    | none => rfl
    | some entry =>
        simp only [Option.bind_eq_bind, Option.bind_some]
        cases listLines _ left _ _ <;> rfl
  · simp only [Option.bind_eq_bind, Option.bind_some]
    cases listLines _ left _ _ <;> rfl

theorem listLines_end (slot : ReplySlot) (hpos : reply.val.length ≤ pos) :
    listLines (slot.receive reply) left lines pos = some [] := by
  cases left with
  | zero => rfl
  | succ left =>
      rw [listLines, if_neg]
      exact Nat.not_lt.mpr hpos

theorem lastLine_of_not_mem (hlast : 10 ∉ q) : lastLine q = q := by
  rw [lastLine, List.splitOn_eq_singleton hlast]
  rfl

/-- The last line is the last one behind the first. -/
theorem lastLine_of_newline (hnewline : 10 ∈ q) :
    lastLine q = lastLine (q.drop (q.idxOf 10 + 1)) ∧
      q.count 10 = (q.drop (q.idxOf 10 + 1)).count 10 + 1 := by
  obtain ⟨line, more, rfl, hline⟩ := List.eq_append_cons_of_mem hnewline
  have hindex : (line ++ 10 :: more).idxOf 10 = line.length := by
    rw [List.idxOf_append_of_notMem hline, List.idxOf_cons_self, Nat.add_zero]
  have hdrop : (line ++ 10 :: more).drop (line.length + 1) = more := by
    rw [← List.drop_drop, List.drop_left, List.drop_one, List.tail_cons]
  rw [hindex, hdrop, List.count_append, List.count_eq_zero.mpr hline, List.count_cons_self,
    Nat.zero_add]
  refine ⟨?_, rfl⟩
  have hmore := List.splitOn_ne_nil 10 more
  rw [lastLine, lastLine, List.splitOn_append_cons_self_of_not_mem hline]
  cases hlines : more.splitOn 10 with
  | nil => exact absurd hlines hmore
  | cons first lines => rfl

/-- The first line is followed by the lines behind its newline. -/
theorem drop_newline (p : List UInt8) : p.drop (pos + (p.drop pos).idxOf 10 + 1) =
    (p.drop pos).drop ((p.drop pos).idxOf 10 + 1) := by
  rw [List.drop_drop, Nat.add_assoc]

/-- A line that ends its size is read from the text. -/
theorem exists_entry (hends : 10 ∈ q ∨ (0 < lines → SizeEnds q)) : ∃ entry, ∀ rest,
    (if 0 < lines ∧ 0 < q.idxOf 10 then lineEntry q rest else some none) = some entry := by
  by_cases hread : 0 < lines ∧ 0 < q.idxOf 10
  · refine ⟨closedEntry q, fun rest => ?_⟩
    rw [if_pos hread]
    by_cases hnewline : 10 ∈ q
    · exact lineEntry_of_newline hnewline
    · exact lineEntry_of_sizeEnds hnewline (hends.resolve_left hnewline hread.1)
  · exact ⟨none, fun rest => if_neg hread⟩

/-- Behind the last line there is nothing. -/
theorem last_position (hlast : 10 ∉ reply.val.drop pos) :
    reply.val.length ≤ pos + (reply.val.drop pos).idxOf 10 + 1 := by
  rw [List.idxOf_eq_length hlast, List.length_drop]
  omega

/-- If the last line that is read ends its size, the list depends on the reply only: by induction
on the lines that may still be read. -/
theorem listLines_closed (hclosed : 0 < lines + (reply.val.drop pos).count 10 →
      (reply.val.drop pos).count 10 < left → SizeEnds (lastLine (reply.val.drop pos))) :
    ∃ entries, ∀ slot : ReplySlot,
      listLines (slot.receive reply) left lines pos = some entries := by
  induction left generalizing lines pos with
  | zero => exact ⟨[], fun slot => rfl⟩
  | succ left ih =>
      rcases Nat.lt_or_ge pos reply.val.length with hpos | hpos
      · by_cases hnewline : 10 ∈ reply.val.drop pos
        · obtain ⟨hlast, hcount⟩ := lastLine_of_newline hnewline
          rw [← drop_newline] at hlast hcount
          obtain ⟨entries, hentries⟩ := @ih (lines + 1)
            (pos + (reply.val.drop pos).idxOf 10 + 1) fun _ hless => by
              rw [← hlast]
              exact hclosed (by omega) (by omega)
          have hends : 10 ∈ reply.val.drop pos ∨ (0 < lines → SizeEnds (reply.val.drop pos)) :=
            .inl hnewline
          obtain ⟨entry, hentry⟩ := exists_entry hends
          refine ⟨entry.toList ++ entries, fun slot => ?_⟩
          rw [listLines_succ slot hpos, hentry, Option.bind_some, hentries]
          rfl
        · rw [lastLine_of_not_mem hnewline, List.count_eq_zero.mpr hnewline] at hclosed
          have hends : 10 ∈ reply.val.drop pos ∨ (0 < lines → SizeEnds (reply.val.drop pos)) :=
            .inr fun hlines => hclosed hlines (Nat.succ_pos left)
          obtain ⟨entry, hentry⟩ := exists_entry hends
          refine ⟨entry.toList ++ [], fun slot => ?_⟩
          rw [listLines_succ slot hpos, hentry, Option.bind_some,
            listLines_end slot (last_position hnewline)]
          rfl
      · exact ⟨[], fun slot => listLines_end slot hpos⟩

/-- If it does not, the last size goes on with a digit that follows. -/
theorem listLines_open (hlines : 0 < lines + (reply.val.drop pos).count 10)
    (hless : (reply.val.drop pos).count 10 < left)
    (hopen : ¬ SizeEnds (lastLine (reply.val.drop pos))) :
    ∃ entries name v, ∀ d, Gk.isDigit d →
      listLines ((staleSlot reply [d, 0]).receive reply) left lines pos =
        some (entries ++ [(name, v * 10 + (d - 48).toUInt32)]) := by
  induction left generalizing lines pos with
  | zero => exact absurd hless (Nat.not_lt_zero _)
  | succ left ih =>
      have hpos : pos < reply.val.length := by
        by_contra hge
        rw [List.drop_eq_nil_of_le (Nat.le_of_not_lt hge)] at hopen
        exact hopen fun hspace => absurd hspace List.not_mem_nil
      by_cases hnewline : 10 ∈ reply.val.drop pos
      · obtain ⟨hlast, hcount⟩ := lastLine_of_newline hnewline
        rw [← drop_newline] at hlast hcount
        obtain ⟨entries, name, v, hentries⟩ := @ih (lines + 1)
          (pos + (reply.val.drop pos).idxOf 10 + 1) (by omega) (by omega) (by rwa [← hlast])
        have hends : 10 ∈ reply.val.drop pos ∨ (0 < lines → SizeEnds (reply.val.drop pos)) :=
          .inl hnewline
        obtain ⟨entry, hentry⟩ := exists_entry hends
        refine ⟨entry.toList ++ entries, name, v, fun d hd => ?_⟩
        rw [listLines_succ _ hpos, hentry, Option.bind_some, hentries d hd, Option.map_some,
          List.append_assoc]
      · rw [lastLine_of_not_mem hnewline] at hopen
        rw [List.count_eq_zero.mpr hnewline, Nat.add_zero] at hlines
        have hnext := last_position hnewline
        have hsome : 0 < (reply.val.drop pos).idxOf 10 := by
          rw [List.idxOf_eq_length hnewline, List.length_drop]
          omega
        refine ⟨[], (reply.val.drop pos).take ((reply.val.drop pos).idxOf 32),
          decValue 0 ((reply.val.drop pos).drop ((reply.val.drop pos).idxOf 32 + 1)),
          fun d hd => ?_⟩
        have hstale : (staleSlot reply [d, 0]).memory.drop reply.val.length =
            d :: 0 :: List.replicate 1472 0 :=
          List.append_cancel_left (memory_staleSlot reply [d, 0])
        rw [listLines_succ _ hpos, if_pos ⟨hlines, hsome⟩, hstale,
          lineEntry_open hnewline hopen hd, Option.bind_some, listLines_end _ hnext]
        rfl

/-- The list depends on the reply only if the last line that is read ends its size. -/
theorem list_readsReplyOnly_iff (hok : BeginsOk reply) :
    HostCommand.list.ReadsReplyOnly reply ↔ HostCommand.list.Ends reply.val := by
  constructor
  · intro hsame hlines hless
    by_contra hopen
    obtain ⟨entries, name, v, hentries⟩ := @listLines_open reply 64 0 0
      (by rwa [Nat.zero_add, List.drop_zero]) (by rwa [List.drop_zero])
      (by rwa [List.drop_zero])
    have hboth := HostAnswer.list.inj (hsame (staleSlot reply [48, 0]) (staleSlot reply [49, 0]))
    rw [listHostFiles_ok (hok.lead _), listHostFiles_ok (hok.lead _),
      hentries 48 (by decide), hentries 49 (by decide)] at hboth
    have hlists := List.append_cancel_left (Option.some.inj (Option.some.inj hboth))
    exact digit_ne v (Prod.mk.inj (List.cons.inj hlists).1).2
  · intro hends
    obtain ⟨entries, hentries⟩ := @listLines_closed reply 64 0 0 (by
      rw [Nat.zero_add, List.drop_zero]
      exact hends)
    intro slot slot'
    rw [HostCommand.read, HostCommand.read, listHostFiles_ok (hok.lead _),
      listHostFiles_ok (hok.lead _), hentries, hentries]

end Lines

/-! ## All replies -/

namespace HostCommand

variable {command : HostCommand} {reply : ReplyPayload}

/-- A reply of which it depends on what follows whether it begins with `OK`. -/
theorem not_readsReplyOnly {stale : List UInt8}
    (hok : startsWith (reply.val ++ (stale ++ List.replicate 1472 0)) (Gk.ascii "OK") = some true)
    (hno : startsWith (reply.val ++ ([0] ++ List.replicate 1472 0)) (Gk.ascii "OK") = some false) :
    ¬ command.ReadsReplyOnly reply := by
  intro hsame
  rw [← memory_staleSlot] at hok hno
  have hboth := hsame (staleSlot reply stale) (staleSlot reply [0])
  rw [read_refused hno] at hboth
  exact read_ne_refused hok command hboth

/-- A reply that is refused whatever follows it. -/
theorem readsReplyOnly_of_refused
    (hno : ∀ rest, startsWith (reply.val ++ rest) (Gk.ascii "OK") = some false) :
    command.ReadsReplyOnly reply := by
  intro slot slot'
  rw [read_refused (hno _), read_refused (hno _)]

/-- What a command makes of a reply depends on the reply only exactly if the reply delimits it. -/
theorem readsReplyOnly_iff : command.ReadsReplyOnly reply ↔ command.Delimited reply.val := by
  have hlead : Gk.ascii "OK" = [79, 75] := by decide
  cases hreply : reply.val with
  | nil =>
      refine iff_of_false (@not_readsReplyOnly command reply [79, 75] ?_ ?_) not_false
      · rw [hreply, hlead]
        rfl
      · rw [hreply, hlead]
        rfl
  | cons c p =>
      by_cases hc : c = 79
      · subst hc
        cases p with
        | nil =>
            refine iff_of_false (@not_readsReplyOnly command reply [75] ?_ ?_) fun hne => hne rfl
            · rw [hreply, hlead]
              rfl
            · rw [hreply, hlead]
              rfl
        | cons d p =>
            by_cases hd : d = 75
            · subst hd
              have hok : BeginsOk reply := ⟨p, hreply⟩
              have hends : command.ReadsReplyOnly reply ↔ command.Ends reply.val := by
                cases command with
                | size => exact size_readsReplyOnly_iff hok
                | chunk off => exact chunk_readsReplyOnly_iff hok
                | list => exact list_readsReplyOnly_iff hok
              rw [hends, hreply]
              exact ⟨fun hends _ _ => hends, fun hdelimited => hdelimited rfl rfl⟩
            · refine iff_of_true (readsReplyOnly_of_refused fun rest => ?_)
                fun _ hd' => absurd hd' hd
              rw [hreply, hlead]
              simp [startsWith, hd]
      · have hrefused : command.ReadsReplyOnly reply := by
          refine readsReplyOnly_of_refused fun rest => ?_
          rw [hreply, hlead]
          simp [startsWith, hc]
        refine iff_of_true hrefused ?_
        cases p with
        | nil => exact hc
        | cons d p => exact fun hc' => absurd hc' hc

/-- The server's reply to `SIZE` is not delimited. -/
theorem readsServerSize (hdelimited : command.Delimited reply.val) :
    command.ReadsServerSize reply := by
  rintro n slot rfl hreply
  have hlead : Gk.ascii "OK " = [79, 75, 32] := by decide
  have hdigits : ((Gk.decimal n).dropWhile (· == 32)).dropWhile Gk.isDigit = [] :=
    List.dropWhile_eq_nil_iff.mpr fun c hc =>
      Gk.isDigit_decimal n c ((List.dropWhile_sublist _).subset hc)
  rw [hreply, hlead] at hdelimited
  exact absurd hdigits (hdelimited rfl rfl)

end HostCommand

/-- The commands read no more than the reply, and the right size from the server's, exactly if
each of their loops meets a byte of the reply that ends it. -/
theorem host_reply_iff (command : HostCommand) (reply : ReplyPayload) :
    command.ReadsReplyOnly reply ∧ command.ReadsServerSize reply ↔
      command.Delimited reply.val := by
  constructor
  · exact fun hboth => HostCommand.readsReplyOnly_iff.mp hboth.1
  · exact fun hdelimited => ⟨HostCommand.readsReplyOnly_iff.mpr hdelimited,
      HostCommand.readsServerSize hdelimited⟩

/-- The reply `OK 5` is read as 57 if a 7 follows it. -/
theorem not_readsServerSize :
    ¬ (HostCommand.size.ReadsReplyOnly ⟨Gk.ascii "OK 5", by decide⟩ ∧
      HostCommand.size.ReadsServerSize ⟨Gk.ascii "OK 5", by decide⟩) := by
  rintro ⟨-, hsize⟩
  obtain ⟨size, hread, hfive⟩ := hsize 5
    (staleSlot ⟨Gk.ascii "OK 5", by decide⟩ [55, 0]) rfl (by decide)
  have hwrong : hostFileSize ((staleSlot ⟨Gk.ascii "OK 5", by decide⟩ [55, 0]).receive
      ⟨Gk.ascii "OK 5", by decide⟩) = some (some 57) := by decide +kernel
  rw [hwrong] at hread
  rw [← Option.some.inj (Option.some.inj hread)] at hfive
  exact absurd hfive (by decide)

end GeckoOS.Net
