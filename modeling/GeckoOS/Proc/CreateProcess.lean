/-
# Creating a process

`create_process` makes an address space and a `Process`, gives it a page of stack, appends it to
the queue and switches to the process that is first there.  In between the calls the queue is
empty, so that is the process just made.

Nothing is mapped into the new address space but the page of the stack, and `rsp` is the start
of that page and not its end.  When the address space is loaded, neither the first slot that is
pushed nor the code that runs is there.
-/

import GeckoOS.Mem.PageTables

namespace GeckoOS.Proc

open GeckoOS.Mem

/-! ## Processes -/

/-- `Proc_State`. -/
inductive ProcState where
  | invalid
  | sleeping
  | active

/-- The part of `registers_t` that the processor itself saves. -/
structure Registers where
  rip : UInt64 := 0
  cs : UInt64 := 0
  rflags : UInt64 := 0
  rsp : UInt64 := 0
  ss : UInt64 := 0

/-- A `Thread`. -/
structure Thread where
  stack : UInt64
  stackLimit : UInt64
  kernelStack : UInt64
  priority : UInt32
  state : ProcState
  pgmBuf : UInt64
  pgmSize : UInt64
  regs : Registers

/-- A `Process` with the first of its `threads`, which is the only one that is used. -/
structure Process where
  id : UInt32
  priority : UInt32
  pml4 : UInt64
  state : ProcState
  mainThread : Thread
  threadCount : UInt32

/-! ## The queue -/

/-- `MAX_PROCESSES`. -/
abbrev maxProcesses : Nat := 16

/-- A `Queue`, whose indices are masked with `MAX_PROCESSES - 1`. -/
structure Queue where
  data : Fin maxProcesses → Option Process
  head : Fin maxProcesses
  tail : Fin maxProcesses

/-- A queue as `enqueue` makes it; what is in `data` is not read before it is written. -/
def Queue.new : Queue := ⟨fun _ => none, 0, 0⟩

/-- `enqueue`, with `room` for whether `kmalloc` has memory for a queue. -/
def enqueue (q : Option Queue) (v : Process) (room : Bool) : Int × Option Queue :=
  match if q.isNone && room then some Queue.new else q with
  | none => (-1, none)
  | some q =>
      let next := q.tail + 1
      if next = q.head then (-1, some q)
      else (0, some { q with data := Function.update q.data q.tail (some v), tail := next })

/-- `dequeue`. -/
def dequeue (q : Queue) : Option Process × Queue :=
  if q.head = q.tail then (none, q) else (q.data q.head, { q with head := q.head + 1 })

/-! ## The calls -/

/-- `process_queue`, `nr_processes` and `nextid`. -/
structure Scheduler where
  processQueue : Option Queue
  nrProcesses : UInt32
  nextid : UInt32

/-- What the allocators do during a call: the pages that `allocate_blocks` returns, with 0 for no
page, and whether `kmalloc` has memory for the `Process` and for the queue. -/
structure Allocations where
  blocks : List UInt64
  processMem : Bool
  queueMem : Bool

/-- How a call ends: it returns, or it loads the address space of a process for good, or it uses
a null pointer. -/
inductive Outcome where
  | returned (id : UInt32) (s : Scheduler)
  | loaded (proc : Process) (mem : Nat → UInt64)
  | nullPointer

/-- `new_address_space`, which does what `alloc_table` does. -/
def newAddressSpace (m : TableMemory) : UInt64 × TableMemory := allocTable m

/-- `allocate_blocks(1)`. -/
def allocateBlock (m : TableMemory) : UInt64 × TableMemory :=
  match m.supply with
  | [] => (0, m)
  | block :: supply => (block, { m with supply := supply })

/-- `switch_task` and `execute_process`, in a call that returns `id` if they return. -/
def switchTask (id : UInt32) (s : Scheduler) (mem : Nat → UInt64) : Outcome :=
  match s.processQueue with
  | none => .nullPointer
  | some q =>
      match dequeue q with
      | (none, q) => .returned id { s with processQueue := some q }
      | (some proc, q) =>
          if proc.id = 0 ∨ proc.pml4 = 0 then .returned id { s with processQueue := some q }
          else .loaded proc mem

/-- The main thread of a new process, before it has a stack. -/
def newThread (entryPoint : UInt64) : Thread where
  stack := 0
  stackLimit := 0 + 4096
  kernelStack := 0
  priority := 1
  state := .active
  pgmBuf := 0
  pgmSize := 0
  regs := { rip := entryPoint, rflags := 0x200 }

/-- The `stack_virt` of `create_process`. -/
def stackVirt (thread : Thread) : UInt64 := thread.pgmBuf + thread.pgmSize + 4096

/-- The process that `create_process` makes. -/
def newProcess (entryPoint pml4 : UInt64) (id : UInt32) : Process where
  id := id
  priority := 1
  pml4 := pml4
  state := .active
  mainThread :=
    let thread := newThread entryPoint
    { thread with regs := { thread.regs with rsp := stackVirt thread } }
  threadCount := 1

/-- `create_process`. -/
def createProcess (entryPoint : UInt64) (mem : Nat → UInt64) (s : Scheduler) (a : Allocations) :
    Outcome :=
  let (pml4, m) := newAddressSpace ⟨mem, a.blocks⟩
  if !a.processMem then .nullPointer
  else
    let id := s.nextid + 1
    let (phys, m) := allocateBlock m
    -- `get_pte` reads the table that it is given
    if pml4 = 0 then .nullPointer
    else
      let (_, m) := vmmMap pml4 phys (stackVirt (newThread entryPoint))
        (ptePresent ||| pteWritable) m
      let (_, queue) := enqueue s.processQueue (newProcess entryPoint pml4 id) a.queueMem
      switchTask id ⟨queue, s.nrProcesses + 1, id⟩ m.mem

/-! ## Between the calls -/

/-- The states between calls: at first there is no queue, with the counters anywhere, and a call
that returns leaves the next state. -/
inductive Reached : Scheduler → Prop
  | boot (nrProcesses nextid : UInt32) : Reached ⟨none, nrProcesses, nextid⟩
  | returned {s s' : Scheduler} (hs : Reached s) (entryPoint : UInt64) (mem : Nat → UInt64)
      (a : Allocations) (id : UInt32) (hcall : createProcess entryPoint mem s a = .returned id s') :
      Reached s'

/-- Nothing waits in the queue. -/
def Idle (queue : Option Queue) : Prop := ∀ q, queue = some q → q.head = q.tail

variable {queue : Option Queue} {s s' : Scheduler} {a : Allocations} {entryPoint : UInt64}
  {mem mem' : Nat → UInt64} {proc v : Process} {room : Bool} {id id' : UInt32}

/-- A queue with a process behind the others. -/
def Queue.push (q : Queue) (v : Process) : Queue :=
  { q with data := Function.update q.data q.tail (some v), tail := q.tail + 1 }

theorem Queue.tail_ne_succ (q : Queue) : q.tail + 1 ≠ q.tail := by
  have hall : ∀ t : Fin maxProcesses, t + 1 ≠ t := by decide
  exact hall q.tail

theorem enqueue_some {q : Queue} (hempty : q.head = q.tail) (v : Process) (room : Bool) :
    enqueue (some q) v room = (0, some (q.push v)) := by
  apply if_neg
  rw [hempty]
  exact q.tail_ne_succ

theorem dequeue_push {q : Queue} (hempty : q.head = q.tail) (v : Process) :
    dequeue (q.push v) = (some v, { q.push v with head := q.tail + 1 }) := by
  have hne : (q.push v).head ≠ (q.push v).tail := fun heq =>
    q.tail_ne_succ (Eq.trans (Eq.symm heq) hempty)
  rw [dequeue, if_neg hne]
  simp only [Queue.push, hempty, Function.update_self]

/-- What is put into an idle queue is the only process in it. -/
theorem enqueue_idle (hidle : Idle queue) (v : Process) (room : Bool) :
    ((enqueue queue v room).2 = none ∧ queue = none ∧ room = false) ∨
      ¬(queue = none ∧ room = false) ∧ ∃ q q', (enqueue queue v room).2 = some q ∧
        dequeue q = (some v, q') ∧ q'.head = q'.tail := by
  cases queue with
  | none =>
      cases room with
      | false => exact .inl ⟨rfl, rfl, rfl⟩
      | true =>
          have hput : enqueue none v true = (0, some (Queue.new.push v)) :=
            enqueue_some (rfl : Queue.new.head = Queue.new.tail) v true
          exact .inr ⟨by simp, _, _, congrArg Prod.snd hput, dequeue_push rfl v, rfl⟩
  | some q =>
      have hempty := hidle q rfl
      have hput := enqueue_some hempty v room
      exact .inr ⟨by simp, _, _, congrArg Prod.snd hput, dequeue_push hempty v, rfl⟩

/-! ## One call -/

/-- A null pointer is used in place of a table, a process or a queue. -/
def NullUsed (s : Scheduler) (a : Allocations) : Prop :=
  a.blocks.headD 0 = 0 ∨ a.processMem = false ∨ s.processQueue = none ∧ a.queueMem = false

/-- An address space with the page of the stack, and whether `vmm_map` could map it. -/
def withStack (mem : Nat → UInt64) (pml4 : UInt64) (blocks : List UInt64) : Bool × TableMemory :=
  vmmMap pml4 (blocks.headD 0) 4096 (ptePresent ||| pteWritable)
    ⟨(Vmm.new mem pml4).mem, blocks.tail⟩

theorem newAddressSpace_fst (mem : Nat → UInt64) (blocks : List UInt64) :
    (newAddressSpace ⟨mem, blocks⟩).1 = blocks.headD 0 := by
  cases blocks with
  | nil => rfl
  | cons block blocks =>
      rw [newAddressSpace, allocTable]
      dsimp only
      split_ifs with hzero
      · exact hzero.symm
      · rfl

theorem newAddressSpace_of_ne {blocks : List UInt64} (hne : blocks.headD 0 ≠ 0) :
    newAddressSpace ⟨mem, blocks⟩ =
      (blocks.headD 0, ⟨(Vmm.new mem (blocks.headD 0)).mem, blocks.tail⟩) := by
  cases blocks with
  | nil => exact absurd rfl hne
  | cons block blocks =>
      have hne : block ≠ 0 := hne
      rw [newAddressSpace, List.headD_cons, Vmm.new, allocTable, allocTable]
      dsimp only
      rw [if_neg hne, if_neg hne, List.tail_cons]

theorem allocateBlock_eq (m : TableMemory) :
    allocateBlock m = (m.supply.headD 0, ⟨m.mem, m.supply.tail⟩) := by
  obtain ⟨mem, blocks⟩ := m
  cases blocks with
  | nil => rfl
  | cons block blocks => rfl

/-- A call that has all it needs puts the process into the queue and switches. -/
theorem createProcess_of_ne (hne : a.blocks.headD 0 ≠ 0) (hmem : a.processMem = true) :
    createProcess entryPoint mem s a =
      switchTask (s.nextid + 1)
        ⟨(enqueue s.processQueue (newProcess entryPoint (a.blocks.headD 0) (s.nextid + 1))
          a.queueMem).2, s.nrProcesses + 1, s.nextid + 1⟩
        (withStack mem (a.blocks.headD 0) a.blocks.tail).2.mem := by
  rw [createProcess, newAddressSpace_of_ne hne, hmem]
  dsimp only
  rw [if_neg (by decide), allocateBlock_eq]
  dsimp only
  rw [if_neg hne]
  rfl

theorem createProcess_null (hnull : a.blocks.headD 0 = 0 ∨ a.processMem = false) :
    createProcess entryPoint mem s a = .nullPointer := by
  rw [createProcess]
  cases hmem : a.processMem with
  | false => rfl
  | true =>
      rcases hnull with hpml4 | hnone
      · have hfst := (newAddressSpace_fst mem a.blocks).trans hpml4
        dsimp only
        rw [if_neg (by decide), if_pos hfst]
      · rw [hmem] at hnone
        cases hnone

/-- The switch to a process that is first in the queue. -/
theorem switchTask_some {q q' : Queue} (hfirst : dequeue q = (some v, q')) (id n id' : UInt32)
    (mem : Nat → UInt64) :
    switchTask id ⟨some q, n, id'⟩ mem =
      if v.id = 0 ∨ v.pml4 = 0 then .returned id ⟨some q', n, id'⟩ else .loaded v mem := by
  rw [switchTask]
  dsimp only
  rw [hfirst]

/-- What a call does when no process waits: it uses a null pointer, or it returns because the id
is 0, or it loads the address space of the process just made. -/
theorem createProcess_cases (hidle : Idle s.processQueue) (entryPoint : UInt64)
    (mem : Nat → UInt64) (a : Allocations) :
    (NullUsed s a ∧ createProcess entryPoint mem s a = .nullPointer) ∨
    (¬NullUsed s a ∧ s.nextid + 1 = 0 ∧
      ∃ s', createProcess entryPoint mem s a = .returned 0 s' ∧ Idle s'.processQueue) ∨
    (¬NullUsed s a ∧ s.nextid + 1 ≠ 0 ∧ createProcess entryPoint mem s a =
      .loaded (newProcess entryPoint (a.blocks.headD 0) (s.nextid + 1))
        (withStack mem (a.blocks.headD 0) a.blocks.tail).2.mem) := by
  by_cases hearly : a.blocks.headD 0 = 0 ∨ a.processMem = false
  · refine .inl ⟨?_, createProcess_null hearly⟩
    rcases hearly with hpml4 | hmem
    · exact .inl hpml4
    · exact .inr (.inl hmem)
  obtain ⟨hpml4, hmem⟩ := not_or.mp hearly
  rw [createProcess_of_ne hpml4 (Bool.not_eq_false _ ▸ hmem)]
  rcases enqueue_idle hidle (newProcess entryPoint (a.blocks.headD 0) (s.nextid + 1))
    a.queueMem with ⟨hqueue, hnone⟩ | ⟨hroom, q, q', hqueue, hfirst, hempty⟩
  · exact .inl ⟨.inr (.inr hnone), by rw [hqueue, switchTask]⟩
  have hused : ¬NullUsed s a := by
    rintro (hnull | hnull | hnull)
    · exact hpml4 hnull
    · exact hmem hnull
    · exact hroom hnull
  rw [hqueue, switchTask_some hfirst]
  by_cases hid : s.nextid + 1 = 0
  · refine .inr (.inl ⟨hused, hid, ⟨some q', s.nrProcesses + 1, s.nextid + 1⟩, ?_, ?_⟩)
    · rw [if_pos (.inl hid), hid]
    · intro q'' hq''
      rwa [← Option.some.inj hq'']
  · refine .inr (.inr ⟨hused, hid, if_neg ?_⟩)
    rintro (hzero | hzero)
    · exact hid hzero
    · exact hpml4 hzero

/-- A call that returns leaves the queue empty. -/
theorem Reached.idle (hs : Reached s) : Idle s.processQueue := by
  induction hs with
  | boot nrProcesses nextid =>
      intro q hq
      cases hq
  | returned _ entryPoint mem a id hcall ih =>
      rcases createProcess_cases ih entryPoint mem a with
        ⟨-, hnull⟩ | ⟨-, -, s'', hreturned, hidle⟩ | ⟨-, -, hloaded⟩
      · cases hnull.symm.trans hcall
      · cases hreturned.symm.trans hcall
        exact hidle
      · cases hloaded.symm.trans hcall

/-! ## The address space that is loaded -/

/-- `allocate_blocks` returns aligned pages, and none twice. -/
def Allocations.Allowed (a : Allocations) : Prop :=
  (∀ z ∈ a.blocks, z &&& pteAddrMask = z) ∧ (a.blocks.filter (· ≠ 0)).Nodup

/-- Only the page of the stack is mapped. -/
theorem withStack_maps (hallowed : a.Allowed) (hne : a.blocks.headD 0 ≠ 0) (x : UInt64)
    (hx : pageNumber x ≠ 1) (supply : List UInt64) :
    vmmGetPhys (a.blocks.headD 0) x
      ⟨(withStack mem (a.blocks.headD 0) a.blocks.tail).2.mem, supply⟩ = 0 := by
  obtain ⟨haligned, hnodup⟩ := hallowed
  obtain ⟨blocks, processMem, queueMem⟩ := a
  cases blocks with
  | nil => exact absurd rfl hne
  | cons pml4 blocks =>
      have hpml4 : pml4 ≠ 0 := hne
      rw [List.filter_cons_of_pos (by simpa using hpml4), List.nodup_cons] at hnodup
      set page : Page := ⟨pml4, haligned pml4 (List.mem_cons_self ..)⟩ with hpage
      set c : Call := .map (blocks.headD 0) 4096 (ptePresent ||| pteWritable) blocks.tail with hc
      have hsub : ∀ z ∈ blocks.tail, z ∈ blocks := fun z hz => List.mem_of_mem_tail hz
      have hcall : c.Allowed (Vmm.new mem page.1) := by
        refine ⟨fun z hz => haligned z (List.mem_cons_of_mem _ (hsub z hz)), ?_, ?_⟩
        · refine List.forall_mem_singleton.mpr fun hmem => hnodup.1 ?_
          exact List.mem_filter.mpr ⟨hsub pml4 hmem, by simpa using hpml4⟩
        · exact hnodup.2.sublist ((List.tail_sublist blocks).filter _)
      have hrep := (@Represents.new page mem hpml4).call c hcall
      have hphys := hrep.vmmGetPhys_eq x supply
      refine hphys.trans ?_
      rw [hc, Call.effect]
      split_ifs
      · rw [Function.update_of_ne]
        · rfl
        · exact hx
      · rfl

/-! ## Safe switches -/

/-- An address is mapped to a page other than page 0. -/
def Mapped (pml4 : UInt64) (mem : Nat → UInt64) (x : UInt64) : Prop :=
  vmmGetPhys pml4 x ⟨mem, []⟩ ≠ 0

/-- The address space of a process has the code of the process, the slot that it pushes to first,
and the code at `here`, where the kernel is. -/
structure Runnable (here : UInt64) (proc : Process) (mem : Nat → UInt64) : Prop where
  code : Mapped proc.pml4 mem proc.mainThread.regs.rip
  stack : Mapped proc.pml4 mem (proc.mainThread.regs.rsp - 8)
  kernel : Mapped proc.pml4 mem here

/-- Something that the call allocates cannot be had. -/
def AllocationFails (mem : Nat → UInt64) (s : Scheduler) (a : Allocations) : Prop :=
  NullUsed s a ∨ a.blocks.tail.headD 0 = 0 ∨
    (withStack mem (a.blocks.headD 0) a.blocks.tail).1 = false

/-- If the call loads an address space, it can be run in, and nothing was missing. -/
def SafeCall (here entryPoint : UInt64) (mem : Nat → UInt64) (s : Scheduler)
    (a : Allocations) : Prop :=
  ∀ proc mem', createProcess entryPoint mem s a = .loaded proc mem' →
    Runnable here proc mem' ∧ ¬AllocationFails mem s a

/-- The slot that is pushed first is in the page before that of the stack. -/
theorem pageNumber_firstSlot (entryPoint pml4 : UInt64) (id : UInt32) :
    pageNumber ((newProcess entryPoint pml4 id).mainThread.regs.rsp - 8) = 0 := by
  have hstack : (newProcess entryPoint pml4 id).mainThread.regs.rsp = 0 + 0 + 4096 := rfl
  rw [hstack]
  decide

/-- An address space that is loaded is not safe. -/
theorem not_safeCall (hs : Reached s) (hallowed : a.Allowed) (hused : ¬NullUsed s a)
    (hid : s.nextid + 1 ≠ 0) (here entryPoint : UInt64) (mem : Nat → UInt64) :
    ¬SafeCall here entryPoint mem s a := by
  intro hsafe
  rcases createProcess_cases hs.idle entryPoint mem a with
    ⟨hnull, -⟩ | ⟨-, hzero, -⟩ | ⟨-, -, hloaded⟩
  · exact hused hnull
  · exact hid hzero
  · obtain ⟨hrunnable, -⟩ := hsafe _ _ hloaded
    apply hrunnable.stack
    have hpml4 : a.blocks.headD 0 ≠ 0 := fun hzero => hused (.inl hzero)
    apply withStack_maps hallowed hpml4
    rw [pageNumber_firstSlot]
    decide

/-- Between calls, a call is safe if and only if it does not come to load an address space. -/
theorem safeCall_iff (hs : Reached s) (hallowed : a.Allowed) (here entryPoint : UInt64)
    (mem : Nat → UInt64) :
    SafeCall here entryPoint mem s a ↔ NullUsed s a ∨ s.nextid + 1 = 0 := by
  constructor
  · intro hsafe
    by_contra hloads
    obtain ⟨hused, hid⟩ := not_or.mp hloads
    exact not_safeCall hs hallowed hused hid here entryPoint mem hsafe
  · intro hearly proc mem' hcall
    rcases createProcess_cases hs.idle entryPoint mem a with
      ⟨-, hnull⟩ | ⟨-, -, s', hreturned, -⟩ | ⟨hused, hid, -⟩
    · cases hnull.symm.trans hcall
    · cases hreturned.symm.trans hcall
    · exact absurd hearly (not_or.mpr ⟨hused, hid⟩)

/-- Five pages: the PML4, the stack and the tables on the way to it. -/
def fivePages : Allocations := ⟨[0x200000, 0x201000, 0x202000, 0x203000, 0x204000], true, true⟩

theorem fivePages_allowed : fivePages.Allowed := by
  refine ⟨?_, by decide⟩
  rw [fivePages]
  simp only [List.forall_mem_cons]
  exact ⟨rfl, rfl, rfl, rfl, rfl, List.forall_mem_nil _⟩

/-- Only a PML4 can be had. -/
def onePage : Allocations := ⟨[0x200000], true, true⟩

theorem onePage_allowed : onePage.Allowed :=
  ⟨List.forall_mem_singleton.mpr rfl, by decide⟩

theorem safeCall_iff_fivePages :
    SafeCall 0x100000 0x180000 (fun _ => 0) ⟨none, 0, 0⟩ fivePages ↔
      NullUsed ⟨none, 0, 0⟩ fivePages ∨ (0 : UInt32) + 1 = 0 :=
  safeCall_iff (.boot 0 0) fivePages_allowed 0x100000 0x180000 fun _ => 0

/-- Right after boot, a call loads an address space that cannot be run in, and also one that has
no stack because there was no page for it. -/
theorem safeCall_fails :
    ¬SafeCall 0x100000 0x180000 (fun _ => 0) ⟨none, 0, 0⟩ fivePages ∧
      AllocationFails (fun _ => 0) ⟨none, 0, 0⟩ onePage ∧
        ∃ proc mem', createProcess 0x180000 (fun _ => 0) ⟨none, 0, 0⟩ onePage =
          .loaded proc mem' := by
  have hused : ∀ a : Allocations, a.blocks.headD 0 ≠ 0 → a.processMem = true →
      a.queueMem = true → ¬NullUsed ⟨none, 0, 0⟩ a := by
    rintro a hpml4 hprocess hqueue (hnull | hnull | ⟨-, hnull⟩)
    · exact hpml4 hnull
    · exact absurd (hprocess.symm.trans hnull) (by decide)
    · exact absurd (hqueue.symm.trans hnull) (by decide)
  refine ⟨not_safeCall (.boot 0 0) fivePages_allowed (hused _ (by decide) rfl rfl) (by decide)
    _ _ _, .inr (.inl rfl), ?_⟩
  rcases createProcess_cases (Reached.boot 0 0).idle 0x180000 (fun _ => 0) onePage with
    ⟨hnull, -⟩ | ⟨-, hzero, -⟩ | ⟨-, -, hloaded⟩
  · exact absurd hnull (hused _ (by decide) rfl rfl)
  · exact absurd hzero (by decide)
  · exact ⟨_, _, hloaded⟩

end GeckoOS.Proc
