import HookKernel.Spec.Receiver

/-!
# The sender thread (`sender_worker` and `message_dump_to_file`, `useapp/worker.c`)

One step of the sender is one library call with the statements up to the next one.
What a call returns is part of the action: whether a pop timed out, the result of an
upload, the outcomes of the file operations of the dump. An upload reads the file at
one moment.

The ghost fields record the history: the bytes uploaded with `SND_SUCCESS`, those
given up after `SND_ERR_SYS` or `SND_ERR_SRV`, every call of `send_log_file` with what
the file held, the bytes written by the dump, and the files it renamed.
-/

namespace HookKernel

open Lib

/-- What `send_log_buff` and `send_log_file` return. -/
inductive SndRes
  | success
  | errSys
  | errNet
  | errSrv
deriving DecidableEq

/-- The statement the sender executes next. -/
inductive SPc
  /-- `queue_pop_wait` of the outer loop -/
  | pop
  | checkQuit
  /-- the log line for a popped message -/
  | log
  /-- `if (0 == msg->type)` -/
  | body
  /-- the loop over the names -/
  | files
  /-- `if (NULL != msg && check_workers_quit())` -/
  | check
  /-- the body of `message_dump_to_file` -/
  | dump
  /-- its `fwrite` -/
  | dumpWrite
  /-- its `MESSAGE_DEL` -/
  | dumpDel
  /-- its `queue_pop_wait` -/
  | dumpPop
  | returned
deriving DecidableEq

structure Snd where
  pc : SPc
  msg : Option Message
  /-- `fp` of `message_dump_to_file` -/
  fp : Option (Stream Cell)
  sent : List Cell
  dropped : List Cell
  uploads : List (Name × List Cell)
  dumped : List Cell
  renamed : List ℕ

def Snd.init : Snd where
  pc := .pop
  msg := none
  fp := none
  sent := []
  dropped := []
  uploads := []
  dumped := []
  renamed := []

inductive SAct
  /-- `queue_pop_wait`: whether it took a message -/
  | pop (ok : Bool)
  | send (res : SndRes)
  | rename (ok : Bool)
  | fopen (now : ℤ) (ok : Bool)
  /-- `none`: all bytes; `some k`: an error after `k` -/
  | fwrite (res : Option ℕ)
  | tau
  | flush (k : ℕ)
deriving DecidableEq

/-- A path without the slashes at its end; a path of slashes stays as it is. -/
def stripSlashes (p : Name) : Name :=
  let q := (p.reverse.dropWhile (· == 47)).reverse
  if q = [] then p else q

/-- What `basename` returns; it also cuts the string it is given to `stripSlashes p`. -/
def basename (p : Name) : Name :=
  let q := stripSlashes p
  if q.all (· == 47) then [47] else (q.reverse.takeWhile (· != 47)).reverse

/-- `snprintf(namebuffer, sizeof(namebuffer) - 1, "%s/%s_%s", path, access_token, basename(msg->data))`. -/
def renameTarget (c : Configure) (p : Name) : Name :=
  (c.path.1 ++ [47] ++ c.accessToken.1 ++ [95] ++ basename p).take 510

/-- The name of the dump file. -/
def dumpName (c : Configure) (now : ℤ) : Name :=
  (c.path.1 ++ [47] ++ c.accessToken.1 ++ [95]).take 491 ++ strftime (c.localtime now)

/-- The message after `basename(msg->data)`. -/
def cutName (m : Message) : Message :=
  if stripSlashes m.filename = m.filename then m
  else { m with data := overwrite m.data (stripSlashes m.filename).length [.text 0] }

namespace Snd

variable (c : Configure) (quit : Bool) (sd : Snd) (queue : List Message) (fs : Disk)

/-- `strlen(msg->data) > 0 && 0 == access(msg->data, F_OK)`. -/
def more (m : Message) : Bool := !m.filename.isEmpty && fs.exist m.filename

/-- `send_log_buff` and what follows it. -/
def stepBuff (m : Message) : SndRes → Snd
  | .success => { sd with pc := .pop, msg := none, sent := sd.sent ++ m.bytes }
  | .errSys | .errSrv => { sd with pc := .pop, msg := none, dropped := sd.dropped ++ m.bytes }
  | .errNet => { sd with pc := .check }

/-- `send_log_file` and what follows it. -/
def stepFile (m : Message) (res : SndRes) : Snd :=
  let content := fs.content m.filename
  let sd := { sd with uploads := sd.uploads ++ [(m.filename, content)] }
  match res with
  | .success => { sd with msg := some (messgeFilenameForward m), sent := sd.sent ++ content }
  | .errSys | .errSrv => { sd with msg := some (messgeFilenameForward m), dropped := sd.dropped ++ content }
  | .errNet => { sd with pc := .check }

/-- `rename` in `message_dump_to_file` and what follows it. -/
def stepRename (m : Message) (ok : Bool) : Snd × Disk :=
  let m := cutName m
  let name := m.filename
  if ok && fs.exist name then
    ({ sd with msg := some (messgeFilenameForward m), renamed := sd.renamed ++ (fs.dir name).toList },
      fs.rename name (renameTarget c name))
  else ({ sd with msg := some (messgeFilenameForward m) }, fs)

/-- One step of the sender, with the queue and the files it leaves. -/
def step (a : SAct) : Option (Snd × List Message × Disk) :=
  match sd.pc, a with
  | .pop, .pop true =>
    match queue with
    | [] => none
    | m :: queue => some ({ sd with pc := .log, msg := some m }, queue, fs)
  | .pop, .pop false => some ({ sd with pc := .checkQuit }, queue, fs)
  | .checkQuit, .tau => some ({ sd with pc := if quit then .returned else .pop }, queue, fs)
  | .log, .tau => some ({ sd with pc := .body }, queue, fs)
  | .body, .send res => sd.msg.bind fun m => if m.type = 0 then some (sd.stepBuff m res, queue, fs) else none
  | .body, .tau => sd.msg.bind fun m => if m.type = 0 then none else some ({ sd with pc := .files }, queue, fs)
  | .files, .send res => sd.msg.bind fun m => if more fs m then some (sd.stepFile fs m res, queue, fs) else none
  -- the loop also ends at the first name whose file is not there
  | .files, .tau => sd.msg.bind fun m => if more fs m then none else some ({ sd with pc := .check }, queue, fs)
  -- not asked to quit: back to the same message
  | .check, .tau => some ({ sd with pc := if quit then .dump else .body }, queue, fs)
  | .dump, .rename ok => sd.msg.bind fun m =>
    if m.type = 1 ∧ more fs m then
      let (sd, fs) := sd.stepRename c fs m ok
      some (sd, queue, fs)
    else none
  | .dump, .tau => sd.msg.bind fun m =>
    if m.type = 1 then if more fs m then none else some ({ sd with pc := .dumpDel }, queue, fs)
    else if sd.fp.isSome then some ({ sd with pc := .dumpWrite }, queue, fs) else none
  | .dump, .fopen now ok => sd.msg.bind fun m =>
    if m.type = 1 ∨ sd.fp.isSome then none
    else if ok then
      let (fs, fp) := fs.fopen (dumpName c now)
      some ({ sd with pc := .dumpWrite, fp := some fp }, queue, fs)
    -- `fopen` failed: the message in hand and the queue are left as they are
    else some ({ sd with pc := .returned }, queue, fs)
  | .dumpWrite, .fwrite res => do
    let m ← sd.msg
    let fp ← sd.fp
    match res with
    | none => some ({ sd with pc := .dumpDel, fp := some (fp.fwrite m.bytes), dumped := sd.dumped ++ m.bytes }, queue, fs)
    -- the result of `fwrite` is logged and the message is released all the same
    | some k => some ({ sd with pc := .dumpDel, fp := some (fp.fwrite (m.bytes.take k)) }, queue, fs)
  | .dumpDel, .tau => some ({ sd with pc := .dumpPop, msg := none }, queue, fs)
  | .dumpPop, .pop true =>
    match queue with
    | [] => none
    | m :: queue => some ({ sd with pc := .dump, msg := some m }, queue, fs)
  | .dumpPop, .pop false => some ({ sd with pc := .returned }, queue, fs)
  | _, .flush k => do
    let fp ← sd.fp
    let (fs, fp) := fp.flush fs k
    some ({ sd with fp := some fp }, queue, fs)
  | _, _ => none

end Snd

end HookKernel
