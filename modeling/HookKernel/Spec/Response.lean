import HookKernel.Lib.Buffer
import HookKernel.Lib.Run

/-!
# The response buffer (`useapp/sender.c`, lines 8 to 43)

`send_log_file` and `send_log_buff` hand curl a zeroed `struct resp_buffer`;
`receive_callback` is called with the response, one chunk after another. `pos` is a
32-bit `int`, `size` and `nmemb` are 64-bit `size_t`, and the clamp compares the two.
-/

namespace HookKernel

open Lib

/-- `struct resp_buffer`. -/
structure RespBuffer where
  buff : List UInt8
  pos : BitVec 32
  size : buff.length = 512

/-- `struct resp_buffer resp = {{0}, 0}`. -/
def RespBuffer.zeroed : RespBuffer := ⟨List.replicate 512 0, 0, List.length_replicate⟩

/-- A chunk as curl delivers it: `size * nmemb` bytes at `contents`. -/
structure Chunk where
  contents : List UInt8
  size : BitVec 64
  nmemb : BitVec 64
  length_eq : contents.length = size.toNat * nmemb.toNat
  no_overflow : size.toNat * nmemb.toNat < 2 ^ 64

/-- `MAX_RESP_BUFF_SIZE - mem->pos`, converted from `int` to `size_t`. -/
def RespBuffer.room (mem : RespBuffer) : BitVec 64 := (511 - mem.pos).signExtend 64

/-- `realsize`: what is copied of a chunk. -/
def RespBuffer.realsize (mem : RespBuffer) (size nmemb : BitVec 64) : BitVec 64 :=
  if size * nmemb > mem.room then mem.room else size * nmemb

/-- The `memcpy` into `&mem->buff[mem->pos]`, with `mem->pos += realsize`; `none` if it leaves `buff` or
the chunk. -/
def RespBuffer.take (mem : RespBuffer) (contents : List UInt8) (realsize : BitVec 64) : Option RespBuffer :=
  if mem.pos.toInt < 0 then none
  else
    match h : copyInto mem.buff mem.pos.toNat contents realsize.toNat with
    | none => none
    | some buff => some ⟨buff, (mem.pos.signExtend 64 + realsize).setWidth 32, (length_copyInto h).trans mem.size⟩

/-- `mem->buff[MAX_RESP_BUFF_SIZE] = '\0'`. -/
def RespBuffer.terminate (mem : RespBuffer) : RespBuffer :=
  ⟨mem.buff.set 511 0, mem.pos, by rw [List.length_set]; exact mem.size⟩

/-- The part of `receive_callback` behind the test for `NULL`. -/
def RespBuffer.receive (mem : RespBuffer) (c : Chunk) : Option (RespBuffer × BitVec 64) :=
  if mem.pos.slt 511 then
    (mem.take c.contents (mem.realsize c.size c.nmemb)).map fun mem' => (mem', c.size * c.nmemb)
  else some (mem.terminate, c.size * c.nmemb)

/-- `receive_callback`: what is left behind `userp`, and what it returns. -/
def receiveCallback : Option RespBuffer → Chunk → Option (Option RespBuffer × BitVec 64)
  | none, _ => some (none, 0)
  | some mem, c => (mem.receive c).map fun r => (some r.1, r.2)

/-- Deliver chunks until one call does not return the size of its chunk, which aborts the transfer. -/
def deliver : Option RespBuffer → List Chunk → Option (Option RespBuffer)
  | userp, [] => some userp
  | userp, c :: cs =>
    (receiveCallback userp c).bind fun r => if r.2.toNat = c.contents.length then deliver r.1 cs else none

/-- The response received by some chunks. -/
def response (cs : List Chunk) : List UInt8 := cs.flatMap Chunk.contents

/-- The specification: the response grows by the chunk, and all of the chunk is taken. -/
def responseSpec (total : List UInt8) (c : Chunk) : List UInt8 × BitVec 64 :=
  (total ++ c.contents, BitVec.ofNat 64 c.contents.length)

/-- The buffer that holds the front of a response. -/
def RespBuffer.front (total : List UInt8) : RespBuffer where
  buff := total.take 511 ++ List.replicate (512 - min total.length 511) 0
  pos := BitVec.ofNat 32 (min total.length 511)
  size := by
    rw [List.length_append, List.length_take, List.length_replicate]
    omega

/-- The buffer holds the first 511 bytes of the response, and zeros behind them. -/
structure RespBuffer.Holds (mem : RespBuffer) (total : List UInt8) : Prop where
  pos : mem.pos.toInt = min total.length 511
  before : mem.buff.take (min total.length 511) = total.take (min total.length 511)
  zeros : ∀ i, min total.length 511 ≤ i → i ≤ 511 → mem.buff[i]? = some 0

/-- The buffer at `userp` holds the front of `total`. -/
def Received (userp : Option RespBuffer) (total : List UInt8) : Prop := ∃ mem, userp = some mem ∧ mem.Holds total

end HookKernel
