import HookKernel.Spec.Sender

/-!
# The process (`useapp/logmain.c` with both workers)

`main` waits for a signal, tells the workers to quit and joins those whose thread id
it finds set; `start_workers` creates the two workers after the login. A push is one
step here: it appends to the bounded queue or times out, and a pop takes the first
message or times out.

Every allocation has an owner (ghost): the receiver, the queue, the sender, or nobody
once it is released. `touches` lists the messages that a step reads or writes.
-/

namespace HookKernel

open Lib

inductive Owner
  | receiver
  | queue
  | sender
  | released
deriving DecidableEq

/-- `main`, from the wait for a signal on. -/
inductive MPc
  | wait
  | notify
  /-- `if (rtid > 0)` -/
  | readRtid
  | joinReceiver
  /-- `if (stid > 0)` -/
  | readStid
  | joinSender
  /-- goes on to `execlp` or `exit` -/
  | done
deriving DecidableEq

/-- `start_workers`. -/
inductive StPc
  | login
  | createReceiver
  | createSender
  | done
deriving DecidableEq

structure Sys where
  rcv : Rcv
  snd : Snd
  queue : List Message
  fs : Disk
  /-- `g_quit` -/
  quit : ℕ
  main : MPc
  starter : StPc
  /-- `rtid` and `stid` are set -/
  rtid : Bool
  stid : Bool
  owner : ℕ → Owner
  freed : List ℕ

inductive SysAct
  | rcv (a : RAct)
  | snd (a : SAct)
  | main
  | starter
deriving DecidableEq

/-- Before the login. -/
def Sys.init (c : Configure) (fs : Disk) : Sys where
  rcv := .init c
  snd := .init
  queue := []
  fs := fs
  quit := 0
  main := .wait
  starter := .login
  rtid := false
  stid := false
  owner := fun _ => .released
  freed := []

/-! ## Accesses and releases -/

def addrOf (m : Option Message) : List ℕ := (m.map Message.addr).toList

/-- The messages whose fields a step of the receiver reads or writes, log lines included. -/
def Rcv.touches (quit : Bool) (r : Rcv) (a : RAct) : List ℕ :=
  match r.pc, a with
  | .checkQuit, .tau => if quit then addrOf r.msg else []
  | .lastLog, .tau | .namesPush, .push false | .detach, .tau | .recv, .recv _ | .flush, .tau
  | .dataPush, .push false | .dataLog, .tau => addrOf r.msg
  | .write, .write _ => addrOf r.msg ++ addrOf r.info.namesMsg
  | .drop, .tau => addrOf r.msg ++ if r.info.currFp.isSome then addrOf r.info.namesMsg else []
  | _, _ => []

/-- `MESSAGE_DROP`. -/
def Rcv.frees (r : Rcv) (a : RAct) : List ℕ :=
  match r.pc, a with
  | .drop, .tau => addrOf r.msg
  | _, _ => []

def Snd.touches (sd : Snd) (a : SAct) : List ℕ :=
  match sd.pc, a with
  | .log, .tau | .body, .send _ | .body, .tau | .files, .send _ | .files, .tau | .dump, .rename _ | .dump, .tau
  | .dump, .fopen _ _ | .dumpWrite, .fwrite _ | .dumpDel, .tau => addrOf sd.msg
  | _, _ => []

/-- `MESSAGE_DEL` and `MESSAGE_DROP`. -/
def Snd.frees (sd : Snd) (a : SAct) : List ℕ :=
  match sd.pc, a with
  | .body, .send .errNet => []
  | .body, .send _ | .dumpDel, .tau => addrOf sd.msg
  | _, _ => []

/-- Give the allocations to an owner. -/
def give (owner : ℕ → Owner) (xs : List ℕ) (o : Owner) : ℕ → Owner := fun x => if x ∈ xs then o else owner x

/-! ## Steps -/

namespace Sys

variable (c : Configure) (s : Sys)

/-- A step of the receiver: what it pushed goes to the queue, if there is room. -/
def stepRcv (a : RAct) : Option Sys :=
  if !s.rtid then none
  else do
    let (r, fs) ← s.rcv.step c (checkWorkersQuit s.quit) s.fs a
    -- at most one message; a push that finds no room does not return with success
    let pushed := r.pushed.drop s.rcv.pushed.length
    if s.queue.length + pushed.length > c.nodeCount ∧ pushed ≠ [] then none
    else
      let owner := give s.owner (List.range' s.rcv.fresh (r.fresh - s.rcv.fresh)) .receiver
      let owner := give owner (pushed.map Message.addr) .queue
      some { s with rcv := r, fs := fs, queue := s.queue ++ pushed
                    owner := give owner (s.rcv.frees a) .released, freed := s.freed ++ s.rcv.frees a }

/-- A step of the sender: what it popped is its own. -/
def stepSnd (a : SAct) : Option Sys :=
  if !s.stid then none
  else do
    let (sd, queue, fs) ← s.snd.step c (checkWorkersQuit s.quit) s.queue s.fs a
    let popped := s.queue.take (s.queue.length - queue.length)
    let owner := give s.owner (popped.map Message.addr) .sender
    some { s with snd := sd, queue := queue, fs := fs
                  owner := give owner (s.snd.frees a) .released, freed := s.freed ++ s.snd.frees a }

def stepMain : Option Sys :=
  match s.main with
  | .wait => some { s with main := .notify }
  | .notify => some { s with main := .readRtid, quit := s.quit + 1 }
  -- the thread ids are read once: a thread created later is not joined
  | .readRtid => some { s with main := if s.rtid then .joinReceiver else .readStid }
  | .joinReceiver => if s.rcv.pc = .returned then some { s with main := .readStid } else none
  | .readStid => some { s with main := if s.stid then .joinSender else .done }
  | .joinSender => if s.snd.pc = .returned then some { s with main := .done } else none
  | .done => none

def stepStarter : Option Sys :=
  match s.starter with
  | .login => some { s with starter := .createReceiver }
  | .createReceiver => some { s with starter := .createSender, rtid := true }
  | .createSender => some { s with starter := .done, stid := true }
  | .done => none

/-- What `exit` does to an open stream. -/
def flushed (fs : Disk) : Option (Stream Cell) → Disk
  | some fp => fp.fclose fs
  | none => fs

/-- The files that `main` leaves behind when it goes on: `exit` flushes the open streams,
`execlp` (`reload`) replaces the process and does not. -/
def leave (reload : Bool) : Disk := if reload then s.fs else flushed (flushed s.fs s.rcv.info.currFp) s.snd.fp

/-- One step of one of the four threads. -/
def step : SysAct → Option Sys
  | .rcv a => s.stepRcv c a
  | .snd a => s.stepSnd c a
  | .main => s.stepMain
  | .starter => s.stepStarter

end Sys

/-- The messages a step touches, and the thread that touches them. -/
def SysAct.touches (s : Sys) : SysAct → List ℕ
  | .rcv a => s.rcv.touches (checkWorkersQuit s.quit) a
  | .snd a => s.snd.touches a
  | .main | .starter => []

def SysAct.thread : SysAct → Owner
  | .snd _ => .sender
  | _ => .receiver

end HookKernel
