import HookKernel.Lib.Run
import HookKernel.Spec.Datafile

/-!
# The receiver thread (`receiver_worker`, `useapp/worker.c` lines 181 to 291)

One step of the receiver is one library call of its loop with the statements up to
the next one. What a call returns is part of the action: the result of `select`,
whether a push found room, the bytes received, the outcomes of the file
operations. `tau` is a step without a call, and `flush` lets buffered bytes of the
open data file reach the disk.

The ghost fields record the history: the bytes received, the messages pushed, the
names created, what was written under a name, the messages for which
`datafile_write_datamsg` returned 0 (by name, and by the file they went to), how many
of those had been handed over at the last push of a name list, and the bytes given up
by `MESSAGE_DROP`.
-/

namespace HookKernel

open Lib

/-- `MAX_BUFF_SIZE`. -/
def maxBuffSize : ℤ := 4096

/-- The statement the receiver executes next. -/
inductive RPc
  | select
  /-- `if (check_workers_quit() > 0)`, after a time-out of `select` -/
  | checkQuit
  /-- the push before leaving -/
  | lastPush
  /-- the log line after it -/
  | lastLog
  /-- `if (msg == NULL)`, and the test of `names_msg` -/
  | ready
  | namesPush
  /-- the log line and `datafile_detach_namemsg` after a successful push -/
  | detach
  | recv
  /-- the test whether `msg` is flushed now -/
  | flush
  | dataPush
  /-- the log line and `MESSAGE_DETACH` after a successful push -/
  | dataLog
  | write
  /-- the log line, `MESSAGE_DROP` and `datafile_reset_currfile` after a failed write -/
  | drop
  | returned
deriving DecidableEq

/-- The receiver's locals and its history. -/
structure Rcv where
  pc : RPc
  nfds : ℤ
  msg : Option Message
  info : DatafileInfo
  /-- the allocation that the next `message_new` returns -/
  fresh : ℕ
  received : List Cell
  pushed : List Message
  created : List Name
  written : Name → List Cell
  stored : List (Name × List Cell)
  handed : ℕ
  filed : List (ℕ × List Cell)
  dropped : List Cell

/-- The receiver when it enters its loop. -/
def Rcv.init (c : Configure) : Rcv where
  pc := .select
  nfds := 0
  msg := none
  info := datafileInit c.path c.maxFsize c.maxFcnt
  fresh := 0
  received := []
  pushed := []
  created := []
  written := fun _ => []
  stored := []
  handed := 0
  filed := []
  dropped := []

inductive RAct
  | select (nfds : ℤ)
  | push (ok : Bool)
  /-- `netlink_sock_recv`: the bytes it stored, or an error -/
  | recv (bs : Option (List UInt8))
  | write (e : WriteEnv)
  | tau
  | flush (k : ℕ)
deriving DecidableEq

namespace Rcv

variable (c : Configure) (quit : Bool) (r : Rcv) (fs : Disk)

def setType (m : Message) (t : ℤ) : Message := { m with type := t }

/-- `if (NULL != finfo->names_msg)`. -/
def afterReady : RPc := if r.info.namesMsg.isSome then .namesPush else .recv

/-- `if (msg == NULL) msg = message_new(conf->queue.node_size)`. -/
def stepReady : Option (Rcv × Disk) :=
  match r.msg with
  | some _ => some ({ r with pc := r.afterReady }, fs)
  | none => (messageNew r.fresh c.nodeSize).map fun m =>
      ({ r with pc := r.afterReady, msg := some m, fresh := r.fresh + 1 }, fs)

/-- `netlink_sock_recv(sockfd, CSNETLINK_A_LOG, &msg->data[msg->len], MAX_BUFF_SIZE)`. -/
def stepRecv (m : Message) : Option (List UInt8) → Option (Rcv × Disk)
  | none => some ({ r with pc := .flush }, fs)
  | some bs => do
    let cells := receivedCells r.received.length bs
    if maxBuffSize < bs.length then none
    else
      let m ← m.store m.len cells
      some ({ r with pc := .flush, msg := some { m with len := m.len + bs.length }
                     received := r.received ++ cells }, fs)

/-- `if (msg->len > 0 && (nfds == 0 || (msg->cap - msg->len) < (MAX_BUFF_SIZE + 1)))`. -/
def stepFlush (m : Message) : Rcv :=
  if m.len > 0 ∧ (r.nfds = 0 ∨ m.cap - m.len < maxBuffSize + 1) then
    if m.type = 0 then { r with pc := .dataPush }
    else if m.type = 1 then { r with pc := .write }
    else { r with pc := .select }
  else { r with pc := .select }

/-- `datafile_write_datamsg`, and `MESSAGE_BZERO` if it succeeded. -/
def stepWrite (m : Message) (e : WriteEnv) : Option (Rcv × Disk) := do
  let w ← datafileWriteDatamsg c.localtime r.info fs m r.fresh e
  let r := { r with info := w.info, fresh := r.fresh + 1, created := r.created ++ w.opened.toList
                    written := Function.update r.written w.info.fname (r.written w.info.fname ++ w.wrote) }
  if w.ok then
    some ({ r with pc := .select, msg := some m.bzero, stored := r.stored ++ [(w.info.fname, m.bytes)]
                   filed := r.filed ++ (w.info.currFp.map fun fp => (fp.ino, m.bytes)).toList }, w.fs)
  else some ({ r with pc := .drop }, w.fs)

/-- One step of the receiver; `quit` is what `check_workers_quit` returns. -/
def step (a : RAct) : Option (Rcv × Disk) :=
  match r.pc, a with
  | .select, .select n =>
    -- an interrupted `select` is repeated
    if n < 0 then some (r, fs)
    else some ({ r with pc := if n = 0 then .checkQuit else .ready, nfds := n }, fs)
  | .checkQuit, .tau =>
    if quit then
      match r.msg with
      | some m => some ({ r with pc := if m.len > 0 then .lastPush else .returned }, fs)
      | none => some ({ r with pc := .returned }, fs)
    else some ({ r with pc := .ready }, fs)
  -- the receiver leaves whether or not this push finds room
  | .lastPush, .push ok => do
    let m ← r.msg
    some ({ r with pc := .lastLog, pushed := if ok then r.pushed ++ [m] else r.pushed }, fs)
  | .lastLog, .tau => some ({ r with pc := .returned }, fs)
  | .ready, .tau => stepReady c r fs
  | .namesPush, .push true => do
    let names ← r.info.namesMsg
    some ({ r with pc := .detach, pushed := r.pushed ++ [names], handed := r.stored.length }, fs)
  -- the list stays, and the message will go to a file behind the listed ones
  | .namesPush, .push false => some ({ r with pc := .recv, msg := r.msg.map (setType · 1) }, fs)
  | .detach, .tau =>
    let (info, fs) := datafileDetachNamemsg r.info fs
    some ({ r with pc := .recv, info := info, msg := r.msg.map (setType · 0) }, fs)
  | .recv, .recv bs => if r.nfds > 0 then r.msg.bind fun m => stepRecv r fs m bs else none
  -- after a time-out of `select` nothing is received
  | .recv, .tau => if r.nfds > 0 then none else some ({ r with pc := .flush }, fs)
  | .flush, .tau => r.msg.map fun m => (stepFlush r m, fs)
  | .dataPush, .push true => do
    let m ← r.msg
    some ({ r with pc := .dataLog, pushed := r.pushed ++ [m] }, fs)
  | .dataPush, .push false => some ({ r with pc := .write, msg := r.msg.map (setType · 1) }, fs)
  | .dataLog, .tau => some ({ r with pc := .select, msg := none }, fs)
  | .write, .write e => r.msg.bind fun m => stepWrite c r fs m e
  -- what a failed write has put into the stream stays there
  | .drop, .tau => do
    let (info, fs) ← datafileResetCurrfile r.info fs
    some ({ r with pc := .select, msg := none, info := info
                   dropped := r.dropped ++ (r.msg.map Message.bytes).getD [] }, fs)
  -- the library may write out buffered bytes at any time
  | _, .flush k => do
    let fp ← r.info.currFp
    let (fs, fp) := fp.flush fs k
    some ({ r with info := { r.info with currFp := some fp } }, fs)
  | _, _ => none

end Rcv

/-- The receiver on its own: any push may find room or time out at any time, and
`notify_workers_quit` may be called at any moment. -/
structure RSys where
  rcv : Rcv
  fs : Disk
  /-- `g_quit` -/
  quit : ℕ

inductive RSysAct
  | rcv (a : RAct)
  | notify
deriving DecidableEq

/-- `check_workers_quit`. -/
def checkWorkersQuit (quit : ℕ) : Bool := quit == 1

def RSys.step (c : Configure) (s : RSys) : RSysAct → Option RSys
  | .rcv a => (s.rcv.step c (checkWorkersQuit s.quit) s.fs a).map fun (r, fs) => { s with rcv := r, fs := fs }
  | .notify => some { s with quit := s.quit + 1 }

def RSys.init (c : Configure) (fs : Disk) : RSys := ⟨.init c, fs, 0⟩

end HookKernel
