import Mathlib.Data.Int.Notation
import Mathlib.Logic.Function.Basic
import HookKernel.Lib.Fifo

/-!
# The message queue (`useapp/queue.c`)

A ring of `max` pointers guarded by three semaphores: `mutex` (binary), `nempty`
(free slots) and `nstored` (stored items). Any number of threads call
`queue_push`, `queue_push_wait`, `queue_pop` and `queue_pop_wait`.

One step of a thread is one semaphore operation or one statement of
`_circle_push` / `_circle_pop` (`tick`); a timed wait may also give up
(`timeout`). `none : Option V` is the C `NULL` pointer. The state carries one
ghost field, `log`: the critical sections in the order they ended.
-/

namespace HookKernel

open Lib

/-- The circular queue of `struct queue`. -/
structure Circle (V : Type) where
  cirq : ℤ → Option V
  wpos : ℤ
  rpos : ℤ
  size : ℤ
  max : ℤ

/-- `struct queue`: the circular queue and the values of the semaphores in `shared`. -/
structure Queue (V : Type) extends Circle V where
  mutex : ℕ
  nempty : ℕ
  nstored : ℕ

/-- `queue_init`. -/
def queueInit (V : Type) (max : ℤ) : Queue V where
  cirq := fun _ => none
  wpos := -1
  rpos := 0
  size := 0
  max := max
  mutex := 1
  nempty := max.toNat
  nstored := 0

/-- The four operations, with the pushed value. -/
inductive QOp (V : Type)
  | push (value : Option V)
  | pushWait (value : Option V)
  | pop
  | popWait

/-- What an operation returns: `int` for a push, `void *` for a pop. -/
inductive QRet (V : Type)
  | int (r : ℤ)
  | ptr (v : Option V)
deriving DecidableEq

/-- Where a thread is: the statement it executes next. `pos`, `v` and `r` are the
locals of the call. -/
inductive QPc (V : Type)
  | idle
  /-- `sem_wait(nempty)`, or `sem_timedwait(nempty, &tv)` if `timed` -/
  | pushBegin (timed : Bool) (value : Option V)
  | pushLock (value : Option V)
  /-- `int pos = (q->wpos + 1) % q->max` -/
  | pushPos (value : Option V)
  /-- `if (q->size >= q->max)` -/
  | pushFull (value : Option V) (pos : ℤ)
  | pushStore (value : Option V) (pos : ℤ)
  | pushWpos (value : Option V) (pos : ℤ)
  | pushSize (value : Option V)
  | pushUnlock (value : Option V) (r : ℤ)
  | pushPost (r : ℤ)
  /-- `sem_wait(nstored)`, or `sem_timedwait(nstored, &tv)` if `timed` -/
  | popBegin (timed : Bool)
  | popLock
  /-- `if (q->size <= 0)` -/
  | popEmpty
  | popRead
  | popClear (v : Option V)
  | popRpos (v : Option V)
  | popSize (v : Option V)
  | popUnlock (v : Option V)
  | popPost (v : Option V)
  /-- about to return; `timedOut` records that the timed wait gave up -/
  | ret (r : QRet V) (timedOut : Bool)

variable {V : Type}

/-- Entering an operation. -/
def QOp.enter : QOp V → QPc V
  | .push v => .pushBegin false v
  | .pushWait v => .pushBegin true v
  | .pop => .popBegin false
  | .popWait => .popBegin true

/-- One statement of a call in progress; `none` while a semaphore blocks. -/
def tick (q : Queue V) : QPc V → Option (Queue V × QPc V)
  | .idle => none
  | .pushBegin _ v => if 0 < q.nempty then some ({ q with nempty := q.nempty - 1 }, .pushLock v) else none
  | .pushLock v => if 0 < q.mutex then some ({ q with mutex := q.mutex - 1 }, .pushPos v) else none
  | .pushPos v => some (q, .pushFull v ((q.wpos + 1).tmod q.max))
  | .pushFull v pos => if q.max ≤ q.size then some (q, .pushUnlock v (-1)) else some (q, .pushStore v pos)
  | .pushStore v pos => some ({ q with cirq := Function.update q.cirq pos v }, .pushWpos v pos)
  | .pushWpos v pos => some ({ q with wpos := pos }, .pushSize v)
  | .pushSize v => some ({ q with size := q.size + 1 }, .pushUnlock v 0)
  | .pushUnlock _ r => some ({ q with mutex := q.mutex + 1 }, .pushPost r)
  | .pushPost r => some ({ q with nstored := q.nstored + 1 }, .ret (.int r) false)
  | .popBegin _ => if 0 < q.nstored then some ({ q with nstored := q.nstored - 1 }, .popLock) else none
  | .popLock => if 0 < q.mutex then some ({ q with mutex := q.mutex - 1 }, .popEmpty) else none
  | .popEmpty => if q.size ≤ 0 then some (q, .popUnlock none) else some (q, .popRead)
  | .popRead => some (q, .popClear (q.cirq q.rpos))
  | .popClear v => some ({ q with cirq := Function.update q.cirq q.rpos none }, .popRpos v)
  | .popRpos v => some ({ q with rpos := (q.rpos + 1).tmod q.max }, .popSize v)
  | .popSize v => some ({ q with size := q.size - 1 }, .popUnlock v)
  | .popUnlock v => some ({ q with mutex := q.mutex + 1 }, .popPost v)
  | .popPost v => some ({ q with nempty := q.nempty + 1 }, .ret (.ptr v) false)
  | .ret _ _ => none

/-- A timed wait gives up: `queue_push_wait` returns 1, `queue_pop_wait` returns `NULL`. -/
def QPc.expire : QPc V → Option (QPc V)
  | .pushBegin true _ => some (.ret (.int 1) true)
  | .popBegin true => some (.ret (.ptr none) true)
  | _ => none

/-- A critical section that ends here, as an event of the queue's history: a push
that stored its value, or a pop. -/
def QPc.commit : QPc V → Option (FifoEv (Option V))
  | .pushUnlock v r => if r = 0 then some (.put v) else none
  | .popUnlock v => some (.take v)
  | _ => none

/-- A thread: the operations it has yet to finish (the one in progress first), its
place in that operation, and the finished ones with what they returned. -/
structure QThread (V : Type) where
  todo : List (QOp V)
  pc : QPc V
  done : List (QOp V × QRet V × Bool)

/-- What the scheduler lets a thread do: its next statement, or a time-out. -/
inductive QAct
  | run
  | timeout

/-- The queue with its threads, and the ghost history of critical sections. -/
structure QSys (ι V : Type) where
  q : Queue V
  thr : ι → QThread V
  log : List (ι × FifoEv (Option V))

variable {ι : Type} [DecidableEq ι]

def QSys.setThr (s : QSys ι V) (i : ι) (t : QThread V) : QSys ι V :=
  { s with thr := Function.update s.thr i t }

/-- One step of thread `i`: it calls its next operation, executes one statement,
returns, or times out. -/
def QSys.step (s : QSys ι V) : ι × QAct → Option (QSys ι V)
  | (i, .timeout) => (s.thr i).pc.expire.map fun pc => s.setThr i { s.thr i with pc := pc }
  | (i, .run) =>
    match (s.thr i).pc with
    | .idle =>
      match (s.thr i).todo with
      | [] => none
      | op :: _ => some (s.setThr i { s.thr i with pc := op.enter })
    | .ret r timedOut =>
      match (s.thr i).todo with
      | [] => none
      | op :: rest => some (s.setThr i ⟨rest, .idle, (s.thr i).done ++ [(op, r, timedOut)]⟩)
    | pc =>
      match tick s.q pc with
      | none => none
      | some (q', pc') => some
        { q := q'
          thr := Function.update s.thr i { s.thr i with pc := pc' }
          log := s.log ++ (pc.commit.map fun e => (i, e)).toList }

/-- Threads about to run the programs `prog` on a fresh queue. -/
def QSys.init (max : ℤ) (prog : ι → List (QOp V)) : QSys ι V where
  q := queueInit V max
  thr := fun i => ⟨prog i, .idle, []⟩
  log := []

/-- The ring contents `cirq[rpos], cirq[(rpos + 1) % max], ...` (`size` entries). -/
def Circle.contents (q : Circle V) : List (Option V) :=
  (List.range q.size.toNat).map fun k : ℕ => q.cirq ((q.rpos + k).tmod q.max)

/-- The history without the threads. -/
def QSys.history (s : QSys ι V) : List (FifoEv (Option V)) := s.log.map Prod.snd

end HookKernel
