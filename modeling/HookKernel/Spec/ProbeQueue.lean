import HookKernel.Lib.ListHead
import Mathlib.Data.Int.Notation

/-!
# The kernel record queue (`kernel/probe_common.h`)

`kprobe_queue_t` is a counter and a list head; the return-probe handler puts
records on it and the kernel thread gets them. A record is denoted by the address
of its `node` (the first member of `hook_data_t`). The spin lock makes each
operation atomic.

`KCall` is a call as the environment makes it: a record passed to
`kprobe_queue_put` comes fresh from `kmem_cache_alloc`, with arbitrary links.
-/

namespace HookKernel

open Lib

/-- `kprobe_queue_t`: the address of `head`, `count`, and the heap it lives in. -/
structure KprobeQueue where
  heap : Heap
  head : ℕ
  count : ℤ

/-- `kprobe_queue_init`. -/
def kprobeQueueInit (heap : Heap) (head : ℕ) : KprobeQueue :=
  ⟨initListHead head heap, head, 0⟩

/-- `kprobe_queue_put`: `list_add_tail(&queue->head, &data->node)`, in this order of
the arguments. -/
def kprobeQueuePut (queue : KprobeQueue) (data : ℕ) : Option KprobeQueue :=
  (listAddTail queue.head data queue.heap).map fun h =>
    { queue with heap := h, count := queue.count + 1 }

/-- `kprobe_queue_get`: the first entry if the list is not empty (`NULL` otherwise);
the entry is counted out, the list is left as it is. -/
def kprobeQueueGet (queue : KprobeQueue) : Option (KprobeQueue × Option ℕ) :=
  (queue.heap queue.head).map fun n =>
    if n.next = queue.head then (queue, none)
    else ({ queue with count := queue.count - 1 }, some n.next)

/-- `kprobe_queue_destroy`, for at most `fuel` nodes: the records it frees. -/
def kprobeQueueDestroy (fuel : ℕ) (queue : KprobeQueue) : Option (List ℕ) :=
  if queue.count ≠ 0 then
    (queue.heap queue.head).bind fun n => freeWalk queue.head fuel n.next queue.heap
  else some []

/-- A call on the queue. `links` is what the fresh record's `node` happens to hold. -/
inductive KCall
  | put (data : ℕ) (links : ListHead)
  | get

/-- One call; it returns what `kprobe_queue_get` returns. -/
def KprobeQueue.call (queue : KprobeQueue) : KCall → Option (KprobeQueue × Option ℕ)
  | .put data links =>
    (kprobeQueuePut { queue with heap := queue.heap.put data links } data).map
      fun q => (q, none)
  | .get => kprobeQueueGet queue

/-- The specification: a FIFO of the records put and not yet got. -/
def fifoSpec (pending : List ℕ) : KCall → List ℕ × Option ℕ
  | .put data _ => (pending ++ [data], none)
  | .get => (pending.tail, pending.head?)

/-- The queue holds exactly `pending`: the walk visits it, the counter counts it, and
`kprobe_queue_destroy` frees it. -/
structure KprobeQueue.Holds (queue : KprobeQueue) (pending : List ℕ) : Prop where
  visits : Visits queue.heap queue.head pending
  count : queue.count = pending.length
  destroy : kprobeQueueDestroy (pending.length + 1) queue = some pending

/-- The addresses put by a sequence of calls. -/
def KCall.records : List KCall → List ℕ
  | [] => []
  | .put data _ :: cs => data :: records cs
  | .get :: cs => records cs

end HookKernel
