/-
# The process queue

`enqueue` and `dequeue` keep the processes in a ring of `MAX_PROCESSES` slots, whose indices they
mask, and `enqueue` makes the ring when there is none.  To their callers the ring is a queue for
`MAX_PROCESSES - 1` processes: one that refuses a process when it is full, and of the processes
that it has accepted returns each once, in order.

Before the first `enqueue` there is no ring, and `dequeue` would read through a null pointer.
Nothing calls it then, and the sequences of calls here begin with an `enqueue`.
-/

import GeckoOS.Math.RingQueue
import GeckoOS.Proc.CreateProcess

namespace GeckoOS.Proc

open GeckoOS.Math

/-! ## Calls on the queue -/

/-- A call on `process_queue`. -/
inductive QueueCall where
  | enqueue (v : Process)
  | dequeue

/-- What a call returns. -/
inductive Answer where
  | enqueued (result : Int)
  | dequeued (proc : Option Process)

/-- A call, with the queue that it leaves, or `none` when it uses a null pointer.  `kmalloc` has
memory for the queue. -/
def QueueCall.perform (queue : Option Queue) : QueueCall → Option (Answer × Option Queue)
  | .enqueue v => some (.enqueued (Proc.enqueue queue v true).1, (Proc.enqueue queue v true).2)
  | .dequeue => queue.map fun q => (.dequeued (Proc.dequeue q).1, some (Proc.dequeue q).2)

/-- The calls one after another, with all their answers. -/
def performAll (queue : Option Queue) : List QueueCall → Option (List Answer × Option Queue)
  | [] => some ([], queue)
  | call :: calls =>
      (call.perform queue).bind fun first =>
        (performAll first.2 calls).map fun rest => (first.1 :: rest.1, rest.2)

/-- The queue that calls leave which begin when there is none. -/
def queueAfter (calls : List QueueCall) : Option (Option Queue) :=
  (performAll none calls).map Prod.snd

/-! ## The queue they are meant to be -/

/-- A call when the processes of `waiting` are queued. -/
def QueueCall.onFifo (waiting : List Process) : QueueCall → Answer × List Process
  | .enqueue v =>
      if waiting.length = maxProcesses - 1 then (.enqueued (-1), waiting)
      else (.enqueued 0, waiting ++ [v])
  | .dequeue => (.dequeued waiting.head?, waiting.tail)

/-- The calls one after another. -/
def fifoAll (waiting : List Process) : List QueueCall → List Answer × List Process
  | [] => ([], waiting)
  | call :: calls =>
      let first := call.onFifo waiting
      let rest := fifoAll first.2 calls
      (first.1 :: rest.1, rest.2)

/-- The processes that are queued after the calls. -/
def waitingAfter (calls : List QueueCall) : List Process := (fifoAll [] calls).2

/-- What a call has put into the queue. -/
def accepted : QueueCall × Answer → List Process
  | (.enqueue v, .enqueued result) => if result = 0 then [v] else []
  | _ => []

/-- What a call has taken out of the queue. -/
def returned : Answer → List Process
  | .dequeued proc => proc.toList
  | .enqueued _ => []

/-- What a call takes out was first, and what it puts in comes last. -/
theorem QueueCall.returned_append (waiting : List Process) (call : QueueCall) :
    returned (call.onFifo waiting).1 ++ (call.onFifo waiting).2 =
      waiting ++ accepted (call, (call.onFifo waiting).1) := by
  cases call with
  | enqueue v =>
      rw [onFifo]
      split_ifs
      · exact (List.append_nil waiting).symm
      · rfl
  | dequeue =>
      cases waiting with
      | nil => rfl
      | cons v waiting => exact (List.append_nil (v :: waiting)).symm

/-- What has been taken out and what is queued is all that was put in, in order. -/
theorem returned_append_waiting (waiting : List Process) (calls : List QueueCall) :
    (fifoAll waiting calls).1.flatMap returned ++ (fifoAll waiting calls).2 =
      waiting ++ (calls.zip (fifoAll waiting calls).1).flatMap accepted := by
  induction calls generalizing waiting with
  | nil => exact (List.append_nil waiting).symm
  | cons call calls ih =>
      rw [fifoAll, List.zip_cons_cons, List.flatMap_cons, List.flatMap_cons, List.append_assoc,
        ih, ← List.append_assoc, call.returned_append, List.append_assoc]

/-! ## The ring stands for the queue -/

variable {q : Queue} {waiting : List Process} {v : Process}

/-- The processes in the ring. -/
def Queue.Holds (q : Queue) (waiting : List Process) : Prop :=
  ringContents q.data q.head q.tail = waiting.map some

theorem Queue.new_holds : Queue.new.Holds [] := ringContents_self _ _

theorem Queue.Holds.full_iff (hq : q.Holds waiting) :
    q.tail + 1 = q.head ↔ waiting.length = maxProcesses - 1 := by
  rw [ring_full_iff (n := 15), hq, List.length_map]
  rfl

/-- `enqueue` puts a process behind the others, or it changes nothing. -/
theorem Queue.Holds.perform_enqueue (hq : q.Holds waiting) (v : Process) :
    ∃ q', QueueCall.perform (some q) (.enqueue v) =
        some ((QueueCall.onFifo waiting (.enqueue v)).1, some q') ∧
      q'.Holds (QueueCall.onFifo waiting (.enqueue v)).2 ∧
        (waiting.length = maxProcesses - 1 → q' = q) := by
  have henqueue : Proc.enqueue (some q) v true =
      if q.tail + 1 = q.head then (-1, some q) else (0, some (q.push v)) := rfl
  rw [QueueCall.perform, QueueCall.onFifo, henqueue]
  by_cases hfull : waiting.length = maxProcesses - 1
  · rw [if_pos (hq.full_iff.mpr hfull), if_pos hfull]
    exact ⟨q, rfl, hq, fun _ => rfl⟩
  · have hroom := mt hq.full_iff.mp hfull
    rw [if_neg hroom, if_neg hfull]
    refine ⟨q.push v, rfl, ?_, fun hsame => absurd hsame hfull⟩
    rw [Queue.Holds, Queue.push, ringContents_push (n := 15) hroom, hq, List.map_append]
    rfl

/-- `dequeue` takes the first process out. -/
theorem Queue.Holds.perform_dequeue (hq : q.Holds waiting) :
    ∃ q', QueueCall.perform (some q) .dequeue =
        some ((QueueCall.onFifo waiting .dequeue).1, some q') ∧
      q'.Holds (QueueCall.onFifo waiting .dequeue).2 := by
  rw [QueueCall.perform, QueueCall.onFifo, Option.map_some, Proc.dequeue]
  by_cases hempty : q.head = q.tail
  · rw [Queue.Holds, hempty, ringContents_self, eq_comm, List.map_eq_nil_iff] at hq
    rw [if_pos hempty, hq]
    refine ⟨q, rfl, ?_⟩
    rw [Queue.Holds, hempty, ringContents_self]
    rfl
  · rw [Queue.Holds, ringContents_pop (n := 15) hempty] at hq
    cases waiting with
    | nil => exact absurd hq (List.cons_ne_nil _ _)
    | cons v waiting =>
        obtain ⟨hfirst, hrest⟩ := List.cons.inj hq
        rw [if_neg hempty, hfirst]
        exact ⟨{ q with head := q.head + 1 }, rfl, hrest⟩

/-- Calls on a ring have the answers that the queue gives. -/
theorem Queue.Holds.performAll (hq : q.Holds waiting) (calls : List QueueCall) :
    ∃ q', Proc.performAll (some q) calls = some ((fifoAll waiting calls).1, some q') ∧
      q'.Holds (fifoAll waiting calls).2 := by
  induction calls generalizing q waiting with
  | nil => exact ⟨q, rfl, hq⟩
  | cons call calls ih =>
      have hstep : ∃ q', call.perform (some q) = some ((call.onFifo waiting).1, some q') ∧
          q'.Holds (call.onFifo waiting).2 := by
        cases call with
        | enqueue v =>
            obtain ⟨q', hcall, hq', -⟩ := hq.perform_enqueue v
            exact ⟨q', hcall, hq'⟩
        | dequeue => exact hq.perform_dequeue
      obtain ⟨q', hcall, hq'⟩ := hstep
      obtain ⟨q'', hrest, hq''⟩ := ih hq'
      refine ⟨q'', ?_, hq''⟩
      rw [Proc.performAll, hcall, Option.bind_some, hrest]
      rfl

/-! ## Every sequence of calls -/

/-- The calls are answered as by a queue for `MAX_PROCESSES - 1` processes, `enqueue` leaves the
ring as it was when that many are queued, and the processes come out in the order in which they
were put in, each once. -/
structure ActsAsFifo (calls : List QueueCall) : Prop where
  answers : ∃ queue, performAll none calls = some ((fifoAll [] calls).1, queue)
  refused : ∀ before v, before ++ [.enqueue v] <+: calls →
    (waitingAfter before).length = maxProcesses - 1 →
      queueAfter (before ++ [.enqueue v]) = queueAfter before
  inOrder : (fifoAll [] calls).1.flatMap returned ++ waitingAfter calls =
    (calls.zip (fifoAll [] calls).1).flatMap accepted

/-- The first `enqueue` makes an empty ring. -/
theorem performAll_first (v : Process) (calls : List QueueCall) :
    performAll none (.enqueue v :: calls) = performAll (some Queue.new) (.enqueue v :: calls) :=
  rfl

theorem performAll_append (queue : Option Queue) (before : List QueueCall) (call : QueueCall) :
    (performAll queue (before ++ [call])).map Prod.snd =
      (performAll queue before).bind fun rest => (call.perform rest.2).map Prod.snd := by
  induction before generalizing queue with
  | nil =>
      rw [List.nil_append, performAll, performAll, Option.bind_some]
      cases call.perform queue with
      | none => rfl
      | some first => rfl
  | cons first before ih =>
      rw [List.cons_append, performAll, performAll]
      cases first.perform queue with
      | none => rfl
      | some result =>
          rw [Option.bind_some, Option.bind_some, Option.map_map, Option.bind_map]
          exact ih result.2

/-- From the first `enqueue` on, the process queue is a queue. -/
theorem processQueue_actsAsFifo (v : Process) (calls : List QueueCall) :
    ActsAsFifo (.enqueue v :: calls) := by
  constructor
  · obtain ⟨q, hcalls, -⟩ := Queue.new_holds.performAll (.enqueue v :: calls)
    exact ⟨some q, (performAll_first v calls).trans hcalls⟩
  · intro before w hfront hfull
    cases before with
    | nil => exact absurd hfull (by decide)
    | cons first before =>
        obtain ⟨rfl, -⟩ := List.cons_prefix_cons.mp hfront
        obtain ⟨q, hcalls, hq⟩ := Queue.new_holds.performAll (.enqueue v :: before)
        obtain ⟨q', hcall, -, hsame⟩ := hq.perform_enqueue w
        rw [queueAfter, queueAfter, performAll_append, performAll_first, hcalls, Option.bind_some,
          hcall, hsame hfull]
        rfl
  · exact returned_append_waiting [] (.enqueue v :: calls)

end GeckoOS.Proc
