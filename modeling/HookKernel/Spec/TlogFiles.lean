import HookKernel.Lib.Decimal
import HookKernel.Lib.Directory
import HookKernel.Lib.Run

/-!
# The log files (`useapp/tlog.c`, lines 627 to 785, 830 to 857, 922 to 1094)

`_tlog_write` appends to the log file. A log file that has become too long is renamed to
`.pending` and from there, compressed by a child process `gzip` or not, to an archive; when
there are too many archives, the oldest ones are removed.

The names of the directory are mapped to numbers of files; `gzipOf` says of which file a file
is the compressed copy, and `whole` whether the child has completed it. The results of the
system calls and the order in which `readdir` gives the names are inputs. The child is a program
of its own, and a parameter here: `GzipDoes` is what is assumed of it. No other process changes
the log files: the mode `multi_log` and its lock file are left out.
-/

namespace HookKernel

open Lib

/-- A name in the log directory. -/
abbrev FName : Type := List UInt8

/-- A file. -/
structure LogNode where
  bytes : List UInt8
  mtime : ℕ
  gzipOf : Option ℕ
  whole : Bool

/-- What the log is opened with. `stamp` is the local time of an `mtime` as it stands in a name. -/
structure FilesConf where
  logname : FName
  logname_le : logname.length ≤ 127
  logsize : ℕ
  logcount : ℕ
  nocompress : Bool
  stamp : ℕ → List UInt8

/-- How far the child `gzip` is; `exited` until it is waited for. -/
inductive GzPc
  | started
  | writing
  | written
  | exited
  deriving DecidableEq

/-- The log files. `removed` and `wrote` record the run: every log file that `_tlog_remove_oldestlog` has unlinked,
itself or its complete copy, with the name it had, and the bytes written with the file they went to. -/
structure LogFiles where
  dir : Directory FName
  node : ℕ → LogNode
  next : ℕ
  fd : Option ℕ
  filesize : ℕ
  zip : Option GzPc
  lastTry : ℕ
  removed : List (FName × ℕ)
  wrote : List (ℕ × List UInt8)

/-- What `readdir` gives: every name once, in some order. -/
structure Readdir where
  names : Directory FName → List FName
  perm : ∀ d, (names d).Perm d.keys

/-- The results of the system calls. -/
structure FilesEnv where
  now : ℕ
  renameGz : Bool
  renameLog : Bool
  renamePending : Bool
  fork : Bool
  opendir : Bool
  readdir : Readdir
  unlink : FName → Bool
  mkdir : Bool
  opened : Bool
  /-- what `write` returns -/
  wrote : ℤ
  nospc : Bool

variable (c : FilesConf)

/-! ## Names -/

/-- `%s.pending` -/
def FilesConf.pending : FName := c.logname ++ [46, 112, 101, 110, 100, 105, 110, 103]

/-- `%s.pending.gz` -/
def FilesConf.gzipFile : FName := c.pending ++ [46, 103, 122]

/-- `log->suffix` -/
def FilesConf.suffix : List UInt8 := if c.nocompress then [] else [46, 103, 122]

/-- `archive_file`, with the number `i` if that is not 0. -/
def FilesConf.archiveFile (mtime i : ℕ) : FName :=
  c.logname ++ [45] ++ c.stamp mtime ++ (if i = 0 then [] else 45 :: decimalText 1 i) ++ c.suffix

/-- The names that count as archives: `strncmp` with `%s-` and `strstr` with the suffix. -/
def FilesConf.isLog (n : FName) : Bool := (c.logname ++ [45]).isPrefixOf n && decide (c.suffix <:+: n)

/-! ## Archives -/

namespace LogFiles

variable (s : LogFiles)

/-- `_tlog_rename_logfile`; `none` is -1. -/
def renameLogfile (file : FName) (ok : Bool) : Option LogFiles :=
  match s.dir.lookup file with
  | none => none
  | some i =>
    if ok then
      (freeName s.dir (c.archiveFile (s.node i).mtime) (s.dir.keys.length + 1) 0).map fun archive =>
        { s with dir := s.dir.rename file archive }
    else none

/-- The `st_mtime` of a name. -/
def mtime (n : FName) : ℕ := (s.dir.lookup n).elim 0 fun i => (s.node i).mtime

/-- `_tlog_get_oldest_callback`: `oldestlog->name` and `oldestlog->mtime`. -/
def getOldestCallback (oldest : FName × ℕ) (n : FName) : FName × ℕ :=
  if c.isLog n ∧ (oldest.2 = 0 ∨ s.mtime n < oldest.2) then (n.take 127, s.mtime n) else oldest

/-- `_tlog_remove_oldestlog` -/
def removeOldestlog (readdir : Readdir) (unlink : FName → Bool) : LogFiles :=
  let oldest := ((readdir.names s.dir).foldl (s.getOldestCallback c) ([], 0)).1
  match s.dir.lookup oldest with
  | none => s
  | some i =>
    -- if there is no archive, it is the directory that is not unlinked
    if oldest ≠ [] ∧ unlink oldest = true then
      { s with
        dir := s.dir.erase oldest
        removed := s.removed ++ (if (s.node i).whole then [(oldest, (s.node i).gzipOf.getD i)] else []) }
    else s

/-- The loop of `_tlog_remove_oldlog`. -/
def removeLoop (readdir : Readdir) (unlink : FName → Bool) : ℕ → LogFiles → LogFiles
  | 0, s => s
  | n + 1, s => removeLoop readdir unlink n (s.removeOldestlog c readdir unlink)

/-- `count_log.lognum` -/
def lognum (readdir : Readdir) : ℕ := (readdir.names s.dir).countP (c.isLog ·)

/-- `_tlog_remove_oldlog` -/
def removeOldlog (readdir : Readdir) (unlink : FName → Bool) : LogFiles :=
  removeLoop c readdir unlink (s.lognum c readdir - c.logcount) s

/-- The log file becomes the pending one, if there is none. -/
def makePending (ok : Bool) : Option LogFiles :=
  if (s.dir.lookup c.pending).isSome then some s
  else if ok = true ∧ (s.dir.lookup c.logname).isSome then some { s with dir := s.dir.rename c.logname c.pending }
  else none

/-- `_tlog_archive_log_compressed` -/
def archiveLogCompressed (e : FilesEnv) : LogFiles :=
  match (if (s.dir.lookup c.gzipFile).isSome then s.renameLogfile c c.gzipFile e.renameGz else some s) with
  | none => s
  | some s₁ =>
    match s₁.makePending c e.renameLog with
    | none => s₁
    | some s₂ => if s₂.zip = none ∧ e.fork = true then { s₂ with zip := some .started } else s₂

/-- `_tlog_archive_log_nocompress` -/
def archiveLogNocompress (e : FilesEnv) : LogFiles :=
  match s.makePending c e.renameLog with
  | none => s
  | some s₁ =>
    match s₁.renameLogfile c c.pending e.renamePending with
    | none => s₁
    | some s₂ => if e.opendir then s₂.removeOldlog c e.readdir e.unlink else s₂

/-- `_tlog_archive_log` -/
def archiveLog (e : FilesEnv) : LogFiles :=
  if c.nocompress then s.archiveLogNocompress c e else s.archiveLogCompressed c e

/-! ## Writing -/

/-- `open` of the log file, to append to it. -/
def openLog (now : ℕ) : LogFiles × ℕ :=
  match s.dir.lookup c.logname with
  | some i => (s, i)
  | none =>
    ({ s with
      dir := s.dir.insert c.logname s.next
      node := Function.update s.node s.next ⟨[], now, none, true⟩
      next := s.next + 1 }, s.next)

/-- The archive, if the log file is too long and no child is at work. -/
def rotate (e : FilesEnv) : LogFiles :=
  if c.logsize < s.filesize ∧ s.zip = none then archiveLog c { s with fd := none, filesize := 0 } e else s

/-- Open the log file if it is not open; `none` is -1. A second try is not made within a second. -/
def reopen (e : FilesEnv) : LogFiles × Option ℕ :=
  match s.fd with
  | some i => (s, some i)
  | none =>
    if e.now = s.lastTry then (s, none)
    else if e.mkdir = false then ({ s with lastTry := e.now }, none)
    else if e.opened = false then ({ s with lastTry := e.now, filesize := 0 }, none)
    else
      let (s', i) := s.openLog c e.now
      ({ s' with fd := some i, lastTry := 0, filesize := (s'.node i).bytes.length }, some i)

/-- `_tlog_write` -/
def tlogWrite (e : FilesEnv) (buff : List UInt8) : LogFiles × ℤ :=
  if buff = [] then (s, 0)
  else
    match (s.rotate c e).reopen c e with
    | (s', none) => (s', -1)
    | (s', some i) =>
      if 0 < e.wrote then
        let bytes := buff.take e.wrote.toNat
        ({ s' with
          node := Function.update s'.node i { s'.node i with bytes := (s'.node i).bytes ++ bytes, mtime := e.now }
          filesize := s'.filesize + bytes.length
          wrote := s'.wrote ++ [(i, bytes)] }, e.wrote)
      else (if e.nospc then { s' with fd := none } else s', e.wrote)

/-! ## The child -/

/-- `_tlog_wait_pid` -/
def waitPid (e : FilesEnv) : LogFiles :=
  if s.zip = some .exited then
    let s₁ := { s with zip := none }
    match s₁.renameLogfile c c.gzipFile e.renameGz with
    | none => s₁
    | some s₂ => if e.opendir then s₂.removeOldlog c e.readdir e.unlink else s₂
  else s

end LogFiles

/-- What the child `gzip -1 %s.pending` may do to the log files at a time. -/
inductive GzipStep (now : ℕ) (s : LogFiles) : LogFiles → Prop
  /-- it creates the compressed file, if there is none -/
  | creates {i : ℕ} : s.zip = some .started → s.dir.lookup c.pending = some i → s.dir.lookup c.gzipFile = none →
      GzipStep now s { s with
        dir := s.dir.insert c.gzipFile s.next
        node := Function.update s.node s.next ⟨[], now, some i, false⟩
        next := s.next + 1
        zip := some .writing }
  /-- it writes to it -/
  | writes {i g : ℕ} (bytes : List UInt8) : s.zip = some .writing → s.dir.lookup c.pending = some i →
      s.dir.lookup c.gzipFile = some g →
      GzipStep now s { s with node := Function.update s.node g ⟨bytes, now, some i, false⟩ }
  /-- it completes it, with the `mtime` of the pending one -/
  | completes {i g : ℕ} : s.zip = some .writing → s.dir.lookup c.pending = some i → s.dir.lookup c.gzipFile = some g →
      GzipStep now s { s with
        node := Function.update s.node g ⟨(s.node i).bytes, (s.node i).mtime, some i, true⟩
        zip := some .written }
  /-- it unlinks the pending one, only then -/
  | unlinks : s.zip = some .written → GzipStep now s { s with dir := s.dir.erase c.pending, zip := some .exited }
  /-- after an error it unlinks what it has written -/
  | discards : s.zip = some .writing → GzipStep now s { s with dir := s.dir.erase c.gzipFile, zip := some .exited }
  | exits : s.zip ≠ none → GzipStep now s { s with zip := some .exited }

/-- **What is assumed of the child**, given by its steps: it does nothing but that. -/
def GzipDoes (child : ℕ → LogFiles → Option LogFiles) : Prop :=
  ∀ now s s', child now s = some s' → GzipStep c now s s'

/-- A child that meets no error. -/
def LogFiles.gzip (now : ℕ) (s : LogFiles) : Option LogFiles :=
  match s.zip, s.dir.lookup c.pending, s.dir.lookup c.gzipFile with
  | some .started, some i, none =>
    some { s with
      dir := s.dir.insert c.gzipFile s.next
      node := Function.update s.node s.next ⟨[], now, some i, false⟩
      next := s.next + 1
      zip := some .writing }
  | some .writing, some i, some g =>
    some { s with
      node := Function.update s.node g ⟨(s.node i).bytes, (s.node i).mtime, some i, true⟩
      zip := some .written }
  | some .written, _, _ => some { s with dir := s.dir.erase c.pending, zip := some .exited }
  | some .exited, _, _ => none
  | some _, _, _ => some { s with zip := some .exited }
  | none, _, _ => none

inductive FilesAct
  | write (e : FilesEnv) (buff : List UInt8)
  | waitPid (e : FilesEnv)
  | gzip (now : ℕ)
  /-- the child is killed -/
  | gzipDies

/-- One step. -/
def filesStep (child : ℕ → LogFiles → Option LogFiles) (s : LogFiles) : FilesAct → Option LogFiles
  | .write e buff => if e.wrote ≤ buff.length then some (s.tlogWrite c e buff).1 else none
  | .waitPid e => some (s.waitPid c e)
  | .gzip now => child now s
  | .gzipDies => if s.zip = none then none else some { s with zip := some .exited }

/-! ## What the files are for -/

/-- The log is opened in a directory with files in it. -/
structure FilesStart (s : LogFiles) : Prop where
  named : ∀ i < s.next, ∃ n, s.dir.lookup n = some i
  number : ∀ n i, s.dir.lookup n = some i → i < s.next
  one : ∀ m n i, s.dir.lookup m = some i → s.dir.lookup n = some i → m = n
  plain : ∀ i, (s.node i).gzipOf = none ∧ (s.node i).whole = true
  unused : ∀ i, s.next ≤ i → (s.node i).bytes = []
  closed : s.fd = none ∧ s.zip = none ∧ s.removed = [] ∧ s.wrote = []

/-- Log file `k` is there: itself, or a complete compressed copy. -/
def LogFiles.Has (s : LogFiles) (k : ℕ) : Prop :=
  ∃ n i, s.dir.lookup n = some i ∧
    (i = k ∨ (s.node i).gzipOf = some k ∧ (s.node i).whole = true ∧ (s.node i).bytes = (s.node k).bytes)

/-- **Nothing is lost**: every file that was there or was written to is there, if neither it nor its archive was
removed by the limit; it has the bytes that it had and those written to it, and the files are written one after the
other. By the limit only names of archives are removed, and with a log name of 127 bytes that of the log file. -/
structure Conserved (s₀ s : LogFiles) : Prop where
  here : ∀ k < s.next, (s.node k).gzipOf = none → k ∈ s.removed.map Prod.snd ∨ s.Has k
  bytes : ∀ k < s.next, (s.node k).gzipOf = none →
    (s.node k).bytes = (s₀.node k).bytes ++ (s.wrote.filter fun w => w.1 = k).flatMap (·.2)
  order : (s.wrote.map Prod.fst).Pairwise (· ≤ ·)
  known : ∀ w ∈ s.wrote, w.1 < s.next ∧ (s.node w.1).gzipOf = none
  limit : ∀ r ∈ s.removed, c.logname ++ [45] <+: r.1 ∨ c.logname.length = 127 ∧ r.1 = c.logname

end HookKernel
