import HookKernel.Lib.Renames
import HookKernel.Lib.Run
import HookKernel.Spec.System

/-!
# The dump at exit (`message_dump_to_file`, `useapp/worker.c`, lines 312 to 360)

`message_dump_to_file` begins with a message in hand and takes the others from the
queue until it is empty. Its steps are those of `Snd.step` from `.dump` on. The calls
succeed: `rename` on an existing file, `fopen` and `fwrite`, and a pop as long as there
is a message.

`Dumped` says what the files are afterwards, `DumpOk` for which lists they are so.
-/

namespace HookKernel

open Lib

/-- The sender, the queue and the files. -/
abbrev DumpState := Snd × List Message × Disk

def dumpStep (c : Configure) (s : DumpState) (a : SAct) : Option DumpState := s.1.step c true s.2.1 s.2.2 a

/-- The library calls succeed, and `time` returns `now`. -/
def Succeeds (now : ℤ) (s : DumpState) : SAct → Prop
  | .pop ok => ok = true ∨ s.2.1 = []
  | .rename ok => ok = true
  | .fopen t ok => t = now ∧ ok = true
  | .fwrite res => res = none
  | .send _ | .tau | .flush _ => True

/-- The steps of the thread itself. -/
def SAct.own : SAct → Bool
  | .flush _ => false
  | _ => true

/-- Note the messages passed to `MESSAGE_DEL`. -/
def noteReleased (s : DumpState) (a : SAct) (_ : DumpState) (released : List ℕ) : List ℕ := released ++ s.1.frees a

/-! ## What the dump should do -/

/-- `path/token_basename`. -/
def newName (c : Configure) (n : Name) : Name := c.path.1 ++ [47] ++ c.accessToken.1 ++ [95] ++ basename n

/-- The messages that are not lists of names. -/
def dataMessages (ms : List Message) : List Message := ms.filter fun m => m.type ≠ 1

/-- The names in a message: those that the loop `while (strlen(msg->data) > 0)` goes through. -/
def Message.names (m : Message) : List Name := if m.type = 1 then m.filenames else []

/-- The names in the messages. -/
def listNames (ms : List Message) : List Name := ms.flatMap Message.names

/-- **The dump of `ms` is complete**: every file that was there and is named in a list stands under its
new name, and no longer under the old one; the bytes of the other messages are appended in order to the
file that has, or now gets, the name of the dump file; nothing else changes; every message has been
released once, and the queue is empty. -/
structure Dumped (c : Configure) (now : ℤ) (ms : List Message) (fs : Disk) (s : DumpState × List ℕ) : Prop where
  renamed : ∀ n ∈ listNames ms, ∀ i, fs.dir n = some i → s.1.2.2.dir (newName c n) = some i ∧ s.1.2.2.dir n = none
  file : dataMessages ms ≠ [] → ∃ i, s.1.2.2.dir (dumpName c now) = some i ∧
    (fs.dir (dumpName c now) = some i ∨ fs.dir (dumpName c now) = none ∧ fs.next ≤ i) ∧
    settled s.1.2.2 s.1.1.fp i = fs.node i ++ (dataMessages ms).flatMap Message.bytes
  names : ∀ n, n ∉ listNames ms → (∀ m ∈ listNames ms, (fs.dir m).isSome → newName c m ≠ n) →
    (dataMessages ms = [] ∨ n ≠ dumpName c now) → s.1.2.2.dir n = fs.dir n
  contents : ∀ i < fs.next, (dataMessages ms = [] ∨ fs.dir (dumpName c now) ≠ some i) →
    settled s.1.2.2 s.1.1.fp i = fs.node i
  released : s.2 = ms.map Message.addr
  queue : s.1.2.1 = []

/-- The names are as `create_datafile` makes them: none ends in a slash, is itself a new name or that of
the dump file, or is one of two names of a file. The lists are inside their allocations. -/
structure DataFiles (c : Configure) (now : ℤ) (ms : List Message) (fs : Disk) : Prop where
  inside : ∀ m ∈ ms, m.type = 1 → 0 ≤ m.len ∧ m.len ≤ m.data.length
  slash : ∀ n ∈ listNames ms, stripSlashes n = n
  apart : NamesApart (renameTarget c) (dumpName c now) fs (listNames ms)

/-- **The condition**, on the names and on which of the files are there at the start: the lists can be cut
so that these files are named in front, each once, and no list goes on with a file that is in front
of a later one; the new names fit `namebuffer`, differ from each other, and from that of the dump file if
there is one. -/
structure DumpOk (c : Configure) (now : ℤ) (ms : List Message) (fs : Disk) : Prop where
  front : ∃ cuts, FrontCuts fs.exist (ms.map Message.names) cuts
  fits : ∀ n ∈ listNames ms, fs.exist n = true → (newName c n).length ≤ 510
  distinct : ∀ n ∈ listNames ms, fs.exist n = true → ∀ n' ∈ listNames ms, fs.exist n' = true →
    newName c n = newName c n' → n = n'
  apart : dataMessages ms ≠ [] → ∀ n ∈ listNames ms, fs.exist n = true → newName c n ≠ dumpName c now

end HookKernel
