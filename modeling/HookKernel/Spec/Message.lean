import Mathlib.Data.Int.Notation
import HookKernel.Lib.NameList

/-!
# Messages (`useapp/queue.h`, `useapp/queue.c`, `messge_filename_forward`)

A `struct message` is a header `type`, `len`, `cap` and the data bytes allocated
behind it. `data` is the whole allocation, whatever `cap` says: `MESSAGE_BZERO`
clears `cap` with the rest of the header.

A byte in memory is a `Cell`: its value, and (ghost) the position in the stream
received from netlink that it was copied from. Text that the program made itself
has no position.
-/

namespace HookKernel

open Lib

/-- A byte and where it came from. -/
structure Cell where
  val : UInt8
  src : Option ℕ
deriving DecidableEq

/-- A byte that was not received. -/
def Cell.text (b : UInt8) : Cell := ⟨b, none⟩

def Cell.nul (c : Cell) : Bool := c.val == 0

/-- A file name. -/
abbrev Name := List UInt8

/-- Bytes received when `n` bytes were received before them. -/
def receivedCells (n : ℕ) (bs : List UInt8) : List Cell := bs.mapIdx fun i b => ⟨b, some (n + i)⟩

/-- `struct message`; `addr` tells one allocation from another. -/
structure Message where
  addr : ℕ
  type : ℤ
  len : ℤ
  cap : ℤ
  data : List Cell
deriving DecidableEq

/-- `message_new`. A negative `cap` allocates less than the header, and the stores
to it leave the allocation. -/
def messageNew (addr : ℕ) (cap : ℤ) : Option Message :=
  if cap < 0 then none
  else some { addr := addr, type := 0, len := 0, cap := cap, data := List.replicate cap.toNat (.text 0) }

namespace Message

variable (m : Message)

/-- The bytes in use: `data[0..len)`. -/
def bytes : List Cell := m.data.take m.len.toNat

/-- Store bytes at `data + off`; `none` outside the allocation. -/
def store (off : ℤ) (bs : List Cell) : Option Message :=
  if 0 ≤ off ∧ off + bs.length ≤ m.data.length then
    some { m with data := overwrite m.data off.toNat bs }
  else none

/-- `MESSAGE_BZERO`: `memset(m, 0, sizeof(struct message) + m->cap)`. -/
def bzero : Message :=
  { m with type := 0, len := 0, cap := 0
           data := List.replicate (min m.cap.toNat m.data.length) (.text 0) ++ m.data.drop m.cap.toNat }

/-- The C string at `data`. -/
def filename : Name := (cstr Cell.nul m.data).map Cell.val

end Message

/-- `messge_filename_forward`. -/
def messgeFilenameForward (m : Message) : Message :=
  let namelen := m.filename.length
  if m.type = 1 then
    if m.len > namelen + 1 then
      { m with
        data := overwrite m.data 0 ((m.data.drop (namelen + 1)).take (m.len - namelen - 1).toNat)
        len := m.len - (namelen + 1) }
    else { m with len := 0, data := overwrite m.data 0 [.text 0] }
  else m

/-- The names that `while (strlen(msg->data) > 0) { ...; messge_filename_forward(msg); }`
visits, in order. -/
def Message.visited : ℕ → Message → List Name
  | 0, _ => []
  | fuel + 1, m =>
    if m.filename = [] then [] else m.filename :: Message.visited fuel (messgeFilenameForward m)

/-- The names that the consumer loop visits in a message. -/
def Message.filenames (m : Message) : List Name := m.visited (m.data.length + 2)

/-- The names in the bytes in use. -/
def Message.listed (m : Message) : List Name := (decode Cell.nul m.bytes).map fun n => n.map Cell.val

/-- Names as the receiver stores them: each as a C string. -/
def encodeNames (ns : List Name) : List Cell := encode (.text 0) (ns.map fun n => n.map .text)

end HookKernel
