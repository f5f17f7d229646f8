import HookKernel.Spec.Queue
import HookKernel.Spec.System

/-!
# The workers on `useapp/queue.c`

The process again, with the queue as `queue.c` has it: the receiver calls
`queue_push_wait`, the sender `queue_pop_wait`, and each semaphore operation and each
statement of the ring is a step of its own, between which all other threads run. A
worker goes on when its call returns; meanwhile only the library's buffers reach the
disk.
-/

namespace HookKernel

/-- The process: `sys` is all of it but the queue (what `sys` has as queue and owners is not used), and `q` is
`g_queue` with the calls in progress, of the receiver (`false`) and of the sender (`true`). -/
structure Proc where
  sys : Sys
  q : QSys Bool Message

inductive ProcAct
  /-- a step of the receiver that is not a push -/
  | rcv (a : RAct)
  /-- a step of the sender that is not a pop -/
  | snd (a : SAct)
  | main
  | starter
  /-- the receiver calls `queue_push_wait` -/
  | push
  /-- the sender calls `queue_pop_wait` -/
  | pop
  /-- the call goes on, or its wait times out -/
  | queue (i : Bool) (a : QAct)
  /-- the call returns -/
  | pushed
  | popped

/-- `queue_init(conf->queue.node_count)`, before the login. -/
def Proc.init (c : Configure) (fs : Disk) : Proc := ⟨Sys.init c fs, QSys.init c.nodeCount fun _ => []⟩

/-- What the receiver is about to push. -/
def Rcv.pushing (r : Rcv) : Option Message :=
  match r.pc with
  | .namesPush => r.info.namesMsg
  | .dataPush | .lastPush => r.msg
  | _ => none

/-- The sender is about to pop. -/
def Snd.popping (sd : Snd) : Bool :=
  match sd.pc with
  | .pop | .dumpPop => true
  | _ => false

def RAct.isPush : RAct → Bool
  | .push _ => true
  | _ => false

def RAct.isFlush : RAct → Bool
  | .flush _ => true
  | _ => false

def SAct.isPop : SAct → Bool
  | .pop _ => true
  | _ => false

def SAct.isFlush : SAct → Bool
  | .flush _ => true
  | _ => false

/-- No call is in progress. -/
def QThread.quiet {V : Type} (t : QThread V) : Bool := t.todo.isEmpty

def QPc.isRet {V : Type} : QPc V → Bool
  | .ret _ _ => true
  | _ => false

/-- A thread calls `op`. -/
def QSys.call (s : QSys Bool Message) (i : Bool) (op : QOp Message) : QSys Bool Message :=
  s.setThr i { s.thr i with todo := [op] }

namespace Proc

variable (c : Configure) (p : Proc)

def stepRcv (a : RAct) : Option Proc :=
  if p.sys.rtid && !a.isPush && ((p.q.thr false).quiet || a.isFlush) then
    (p.sys.rcv.step c (checkWorkersQuit p.sys.quit) p.sys.fs a).map fun r =>
      { p with sys := { p.sys with rcv := r.1, fs := r.2 } }
  else none

def stepSnd (a : SAct) : Option Proc :=
  if p.sys.stid && !a.isPop && ((p.q.thr true).quiet || a.isFlush) then
    (p.sys.snd.step c (checkWorkersQuit p.sys.quit) [] p.sys.fs a).map fun r =>
      { p with sys := { p.sys with snd := r.1, fs := r.2.2 } }
  else none

def push : Option Proc :=
  if p.sys.rtid && (p.q.thr false).quiet then
    p.sys.rcv.pushing.map fun m => { p with q := p.q.call false (.pushWait (some m)) }
  else none

def pop : Option Proc :=
  if p.sys.stid && (p.q.thr true).quiet && p.sys.snd.popping then some { p with q := p.q.call true .popWait }
  else none

def stepQueue (i : Bool) (a : QAct) : Option Proc :=
  if (p.q.thr i).pc.isRet then none else (p.q.step (i, a)).map fun q => { p with q := q }

/-- `0 == queue_push_wait(..)`, or not. -/
def pushed : Option Proc :=
  match (p.q.thr false).pc with
  | .ret (.int r) _ =>
    (p.q.step (false, .run)).bind fun q =>
      (p.sys.rcv.step c (checkWorkersQuit p.sys.quit) p.sys.fs (.push (r == 0))).map fun r =>
        ⟨{ p.sys with rcv := r.1, fs := r.2 }, q⟩
  | _ => none

/-- `queue_pop_wait` returns a message, or `NULL`. -/
def popped : Option Proc :=
  match (p.q.thr true).pc with
  | .ret (.ptr v) _ =>
    (p.q.step (true, .run)).bind fun q =>
      (p.sys.snd.step c (checkWorkersQuit p.sys.quit) v.toList p.sys.fs (.pop v.isSome)).map fun r =>
        ⟨{ p.sys with snd := r.1, fs := r.2.2 }, q⟩
  | _ => none

/-- One step of one of the four threads. -/
def step : ProcAct → Option Proc
  | .rcv a => p.stepRcv c a
  | .snd a => p.stepSnd c a
  | .main => p.sys.stepMain.map fun s => { p with sys := s }
  | .starter => p.sys.stepStarter.map fun s => { p with sys := s }
  | .push => p.push
  | .pop => p.pop
  | .queue i a => p.stepQueue i a
  | .pushed => p.pushed c
  | .popped => p.popped c

end Proc

end HookKernel
