import HookKernel.Lib.Buffer
import HookKernel.Lib.Decimal
import HookKernel.Spec.Datafile

/-!
# The log message (`kernel/kprobe_kthread.c`, lines 7 to 30)

`kprobe_queue_send` gets up to ten records and prints each into a slot of `LOG_SIZE`
bytes of `buffs`; one message carries the slots. The number of records in the queue and
what the calls of `kprobe_queue_get` return are inputs.
-/

namespace HookKernel

open Lib

/-- `hook_data_t`, with `task_com` as the C string in it. -/
structure HookData where
  eclipseTime : BitVec 64
  taskCom : CStr
  taskCom_le : taskCom.1.length ≤ 15

/-- `LOG_SIZE`. -/
def logSize : ℕ := 9 + 16

/-- The text of a record: `%.16lld|%s,`. -/
def logText (data : HookData) : List UInt8 :=
  decimalText 16 data.eclipseTime.toInt ++ [124] ++ data.taskCom.1 ++ [44]

/-- `snprintf` to offset `off` of a buffer: at most `size - 1` bytes of the text, and a NUL. -/
def snprintf (buffs : List UInt8) (off size : ℕ) (text : List UInt8) : Option (List UInt8) :=
  copyInto buffs off (text.take (size - 1) ++ [0]) (min text.length (size - 1) + 1)

/-- `number`. -/
def batchNumber (count : ℤ) : ℕ := (if count > 10 then 10 else count).toNat

/-- The loop of `kprobe_queue_send`, with `left` records to get. -/
def sendLoop (got : ℕ → HookData) : (left index : ℕ) → List UInt8 → Option (List UInt8)
  | 0, _, buffs => some buffs
  | left + 1, index, buffs =>
    (snprintf buffs (index * logSize) logSize (logText (got index))).bind (sendLoop got left (index + 1))

/-- `kprobe_queue_send`: what it passes to `send_netlink_msg`, if it calls it. `count` records are in the
queue and `kprobe_queue_get` returns `got 0`, `got 1`, ... -/
def kprobeQueueSend (count : ℤ) (got : ℕ → HookData) : Option (Option (List UInt8)) :=
  let number := batchNumber count
  (sendLoop got number 0 (List.replicate (logSize * 11) 0)).map fun buffs =>
    if number > 0 then some (buffs.take (logSize * (number + 1))) else none

/-- The records of a batch. -/
def batch (count : ℤ) (got : ℕ → HookData) : List HookData := (List.range (batchNumber count)).map got

/-- What a reader makes of a text: the number in front of the bar, and what stands between the bar and
the comma at the end. -/
def readLog (text : List UInt8) : ℤ × List UInt8 :=
  (readInt (text.takeWhile (· ≠ 124)), ((text.dropWhile (· ≠ 124)).drop 1).dropLast)

/-- The pair that a record stands for. -/
def HookData.pair (data : HookData) : ℤ × List UInt8 := (data.eclipseTime.toInt, data.taskCom.1)

/-- What a reader makes of a message: the C string of every slot but the last, which is empty. -/
def readMessage (msg : List UInt8) : List (ℤ × List UInt8) :=
  (List.range (msg.length / logSize - 1)).map fun i => readLog (cstr (· == 0) (block logSize msg i))

/-- **The batch survives its encoding** as `msg`: every slot holds the complete text of its record,
terminated inside the slot, a reader recovers every pair in order, and no other batch gives the same
message. -/
structure Encodes (count : ℤ) (got : ℕ → HookData) (msg : Option (List UInt8)) : Prop where
  sent : kprobeQueueSend count got = some msg
  slots : ∀ buffs, msg = some buffs → ∀ i data, (batch count got)[i]? = some data →
    0 ∈ block logSize buffs i ∧ cstr (· == 0) (block logSize buffs i) = logText data
  read : msg.elim [] readMessage = (batch count got).map HookData.pair
  distinct : ∀ count' got', kprobeQueueSend count' got' = some msg → batch count' got' = batch count got

/-- The record's text has at most 23 characters: a sign, at least 16 digits, two separators and the name. -/
def HookData.Short (data : HookData) : Prop :=
  (if data.eclipseTime.toInt < 0 then 1 else 0) + max 16 (Nat.digits 10 data.eclipseTime.toInt.natAbs).length +
    data.taskCom.1.length ≤ 21

end HookKernel
