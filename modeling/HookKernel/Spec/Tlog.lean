import HookKernel.Lib.LittleEndian
import HookKernel.Lib.Run
import HookKernel.Lib.Wrap
import HookKernel.Lib.Buffer

/-!
# The log buffer (`useapp/tlog.c`, lines 410 to 537, 1101 to 1134, 1216 to 1307, 1330 to 1420 and 1656 to 1674)

Threads print through `_tlog_vprintf` into the buffer of one log, from which the worker
`_tlog_work` writes it out. What is done under `tlog.lock` or `log->lock` is one step. The
worker reads the buffer without a lock, in as many pieces as it likes.

`TlogConf` has what the log is compiled and opened with, `TLOG_MAX_LINE_LEN` being one of them.
What `print_callback` returns and leaves in its buffer is an input. `accepted`, `rets` and
`out` record the run.
-/

namespace HookKernel

open Lib

/-- The parameters of the log. -/
structure TlogConf where
  /-- `TLOG_MAX_LINE_LEN` -/
  lineLen : ℕ
  lineLen_pos : 0 < lineLen
  buffsize : ℕ
  block : Bool
  segmentLog : Bool

/-- What `print_callback` returns, and the line buffer as it leaves it. -/
structure Printed (lineLen : ℕ) where
  len : ℤ
  buff : List UInt8
  length_buff : buff.length = lineLen

/-- `[LOG TOO LONG, DISCARD]` and a line feed. -/
def discardText : List UInt8 :=
  [91, 76, 79, 71, 32, 84, 79, 79, 32, 76, 79, 78, 71, 44, 32, 68, 73, 83, 67, 65, 82, 68, 93, 10]

/-- The text to put into the log, if any. -/
def Printed.text {lineLen : ℕ} (p : Printed lineLen) : Option (List UInt8) :=
  if p.len ≤ 0 then none
  else if (lineLen : ℤ) ≤ p.len then some (discardText.take (lineLen - 1))
  else some (p.buff.take p.len.toNat)

/-- `struct tlog_segment_head`, the text, and a NUL. -/
def segment (text : List UInt8) : List UInt8 :=
  leBytes 4 0xFF446154 ++ leBytes 2 (text.length + 1) ++ text ++ [0]

/-- What a text takes in the buffer. -/
def TlogConf.record (c : TlogConf) (text : List UInt8) : List UInt8 := if c.segmentLog then segment text else text

/-! ## The buffer -/

/-- `struct tlog_log`: its buffer and counters. -/
structure TlogLog where
  buff : List UInt8
  start : ℕ
  fin : ℕ
  extEnd : ℕ
  dropped : ℕ
  waiters : ℕ

/-- `maxlen`: the room in one piece behind `end`. It keeps its value if the buffer has wrapped and is full. -/
def TlogLog.room (c : TlogConf) (log : TlogLog) (maxlen : ℤ) : ℤ :=
  if log.fin = log.start then
    if log.extEnd = 0 then (c.buffsize : ℤ) - log.fin else maxlen
  else if log.start < log.fin then (c.buffsize : ℤ) - log.fin
  else (log.start : ℤ) - log.fin

/-- Write the text behind the others; `none` outside of the buffer. -/
def TlogLog.put (c : TlogConf) (log : TlogLog) (text : List UInt8) : Option TlogLog :=
  let r := c.record text
  (copyInto log.buff log.fin r r.length).map fun buff =>
    if (c.buffsize : ℤ) - c.lineLen < log.fin + r.length then
      { log with buff := buff, extEnd := log.fin + r.length, fin := 0 }
    else { log with buff := buff, fin := log.fin + r.length }

/-- `_tlog_has_data`. -/
def TlogLog.hasData (log : TlogLog) : Bool := log.fin ≠ log.start ∨ 0 < log.extEnd

/-- `log_len`, `log_extlen`, `log_end`, `log_extend` and `log_dropped` of the worker. -/
structure TlogClaim where
  len : ℕ
  extlen : ℕ
  stop : ℕ
  extend : ℕ
  dropped : ℕ
  deriving DecidableEq

/-- What the worker is going to write. -/
def TlogLog.claim (log : TlogLog) : TlogClaim where
  len := if log.start < log.fin then log.fin - log.start else if 0 < log.extEnd then log.extEnd - log.start else 0
  extlen := if log.fin < log.start then log.fin else 0
  stop := log.fin
  extend := log.extEnd
  dropped := log.dropped

/-- The buffer after the worker has written `k`. -/
def TlogLog.release (log : TlogLog) (k : TlogClaim) : TlogLog :=
  { log with start := k.stop, extEnd := if 0 < k.extend then 0 else log.extEnd }

/-- One round of the loop in `_tlog_write_one_segment_log`, at `p` with `n` bytes to go: the text it writes, and
where it goes on; no text if the magic number is missing. `none` outside of the buffer. -/
def readSegment (buff : List UInt8) (p n : ℕ) : Option (Option (List UInt8) × ℕ × ℕ) :=
  if buff.length < p + 6 then none
  else if leNat (slice buff p (p + 4)) ≠ 0xFF446154 then some (none, p, 0)
  else
    let len := leNat (slice buff (p + 4) (p + 6))
    if len = 0 ∨ buff.length < p + 6 + (len - 1) then none
    else some (some (slice buff (p + 6) (p + 6 + (len - 1))), p + (len + 6), n - (len + 6))

/-! ## The threads -/

/-- Where a call of `_tlog_vprintf` is. `wait` is `pthread_cond_wait`, `woken` what follows it. -/
inductive VPc (lineLen : ℕ)
  | idle
  | needDrop (p : Printed lineLen)
  | print (p : Printed lineLen)
  | lock (text : List UInt8) (maxlen : ℤ)
  | block (text : List UInt8) (maxlen : ℤ)
  | wait (text : List UInt8) (maxlen : ℤ)
  | woken (text : List UInt8) (maxlen : ℤ)

/-- What a call returns: the length, or -1 for want of room or of a text. -/
inductive VRet
  | len (n : ℕ)
  | noRoom
  | noText
  deriving DecidableEq

/-- Where the worker is. `first` and `second` write from `p` on, with `n` bytes to go. -/
inductive WPc
  | top
  | next
  | wait
  | first (p n : ℕ) (k : TlogClaim)
  | second (p n : ℕ) (k : TlogClaim)
  | report (k : TlogClaim)
  | release (k : TlogClaim)
  | wakeup
  | returned
  deriving DecidableEq

/-- What the worker hands to `output_func`: bytes from the buffer, or the number of messages dropped. -/
inductive TlogOut
  | data (bytes : List UInt8)
  | dropped (n : ℕ)
  deriving DecidableEq

/-- The state. `notify` says whether `tlog.notify_log` is the log, `cur` whether the worker's `log` is. -/
structure TlogState (ι : Type) (lineLen : ℕ) where
  log : TlogLog
  run : Bool
  isWait : Bool
  notify : Bool
  cur : Bool
  thr : ι → VPc lineLen
  wpc : WPc
  accepted : List (List UInt8)
  rets : List (ι × VRet)
  out : List TlogOut

inductive TlogAct (ι : Type) (lineLen : ℕ)
  /-- thread `i` calls `_tlog_vprintf`; the callback will do `p` -/
  | call (i : ι) (p : Printed lineLen)
  | prod (i : ι)
  /-- `pthread_cond_wait` may return at any time -/
  | spurious (i : ι)
  | work
  /-- the worker gets the next `k` bytes written -/
  | out (k : ℕ)
  /-- `tlog_exit` -/
  | exit

variable {ι : Type} {lineLen : ℕ}

/-- After `tlog_init`; the buffer is what `malloc` gave. -/
def TlogState.init (ι : Type) (c : TlogConf) (mem : List UInt8) : TlogState ι c.lineLen where
  log := { buff := mem, start := 0, fin := 0, extEnd := 0, dropped := 0, waiters := 0 }
  run := true
  isWait := false
  notify := false
  cur := false
  thr := fun _ => .idle
  wpc := .top
  accepted := []
  rets := []
  out := []

namespace TlogState

section Prod

variable [DecidableEq ι]

def goto (s : TlogState ι lineLen) (i : ι) (pc : VPc lineLen) : TlogState ι lineLen :=
  { s with thr := Function.update s.thr i pc }

/-- The call of `i` returns. -/
def ret (s : TlogState ι lineLen) (i : ι) (r : VRet) : TlogState ι lineLen :=
  { s.goto i .idle with rets := s.rets ++ [(i, r)] }

/-- The call of `i` returns for want of room. -/
def drop (s : TlogState ι lineLen) (i : ι) : TlogState ι lineLen :=
  { s.ret i .noRoom with log := { s.log with dropped := s.log.dropped + 1 } }

/-- One step of `_tlog_vprintf` in thread `i`. -/
def prodStep (c : TlogConf) (s : TlogState ι c.lineLen) (i : ι) : Option (TlogState ι c.lineLen) :=
  match s.thr i with
  | .idle => none
  | .needDrop p =>
    -- `_tlog_need_drop`
    some (if c.block = false ∧ s.log.room c 0 < c.lineLen then s.drop i else s.goto i (.print p))
  | .print p =>
    some (match p.text with
      | none => s.ret i .noText
      | some text => s.goto i (.lock text 0))
  | .lock text maxlen =>
    let maxlen := s.log.room c maxlen
    if maxlen < c.lineLen then
      let s := if s.log.fin ≠ s.log.start then { s with notify := true } else s
      some (if c.block then s.goto i (.block text maxlen) else s.drop i)
    else
      (s.log.put c text).map fun log =>
        { s.ret i (.len text.length) with
            log := log, accepted := s.accepted ++ [text], notify := s.notify || s.isWait }
  | .block text maxlen =>
    some { s.goto i (.wait text maxlen) with log := { s.log with waiters := s.log.waiters + 1 } }
  | .wait _ _ => none
  | .woken text maxlen =>
    some { s.goto i (.lock text maxlen) with log := { s.log with waiters := s.log.waiters - 1 } }

end Prod

/-- All who wait on `log->client_cond` wake up. -/
def broadcast (thr : ι → VPc lineLen) : ι → VPc lineLen := fun i =>
  match thr i with
  | .wait text maxlen => .woken text maxlen
  | pc => pc

/-- The worker has found the log, and looks whether it has data. -/
def take (s : TlogState ι lineLen) : TlogState ι lineLen :=
  if s.log.hasData = false then { s with cur := true, wpc := .top }
  else { s with
    cur := true
    wpc := .first s.log.start s.log.claim.len s.log.claim
    log := { s.log with dropped := 0 } }

/-- Behind the first piece. -/
def afterFirst (k : TlogClaim) : WPc := if 0 < k.extlen then .second 0 k.extlen k else .report k

/-- One step of `_tlog_work`. -/
def workStep (c : TlogConf) (s : TlogState ι c.lineLen) : Option (TlogState ι c.lineLen) :=
  match s.wpc with
  | .top => some { s with wpc := if s.run = false ∧ s.log.hasData = false then .returned else .next }
  | .next =>
    -- the one log comes after NULL, and NULL after it
    if s.cur then some { s with cur := false, wpc := .top }
    else if s.log.hasData = false ∧ s.run = true then some { s with isWait := true, wpc := .wait }
    else some s.take
  | .wait =>
    let s' := { s with isWait := false, notify := false }
    if s.notify then some s'.take else some { s' with cur := false, wpc := .top }
  | .first p n k =>
    if n = 0 then some { s with wpc := afterFirst k }
    else if c.segmentLog then
      (readSegment s.log.buff p n).map fun r =>
        { s with out := s.out ++ r.1.toList.map .data, wpc := .first r.2.1 r.2.2 k }
    else none
  | .second p n k =>
    if n = 0 then some { s with wpc := .report k }
    else if c.segmentLog then
      (readSegment s.log.buff p n).map fun r =>
        { s with out := s.out ++ r.1.toList.map .data, wpc := .second r.2.1 r.2.2 k }
    else none
  | .report k => some { s with out := s.out ++ (if 0 < k.dropped then [.dropped k.dropped] else []), wpc := .release k }
  | .release k => some { s with log := s.log.release k, wpc := .wakeup }
  | .wakeup => some { s with thr := if 0 < s.log.waiters then broadcast s.thr else s.thr, wpc := .top }
  | .returned => none

/-- The worker gets the next `k` bytes written. -/
def outStep (c : TlogConf) (s : TlogState ι c.lineLen) (m : ℕ) : Option (TlogState ι c.lineLen) :=
  match s.wpc with
  | .first p n k =>
    if c.segmentLog = false ∧ 0 < m ∧ m ≤ n ∧ p + m ≤ s.log.buff.length then
      some { s with out := s.out ++ [.data (slice s.log.buff p (p + m))], wpc := .first (p + m) (n - m) k }
    else none
  | .second p n k =>
    if c.segmentLog = false ∧ 0 < m ∧ m ≤ n ∧ p + m ≤ s.log.buff.length then
      some { s with out := s.out ++ [.data (slice s.log.buff p (p + m))], wpc := .second (p + m) (n - m) k }
    else none
  | _ => none

end TlogState

/-- One step of the system. -/
def tlogStep [DecidableEq ι] (c : TlogConf) (s : TlogState ι c.lineLen) : TlogAct ι c.lineLen → Option (TlogState ι c.lineLen)
  | .call i p =>
    match s.thr i with
    | .idle => some (s.goto i (.needDrop p))
    | _ => none
  | .prod i => s.prodStep c i
  | .spurious i =>
    match s.thr i with
    | .wait text maxlen => some (s.goto i (.woken text maxlen))
    | _ => none
  | .work => s.workStep c
  | .out m => s.outStep c m
  | .exit => if s.run then some { s with run := false } else none

/-! ## What the log is for -/

/-- The bytes in the buffer, in the order in which they came. -/
def TlogLog.ring (log : TlogLog) : List UInt8 :=
  if 0 < log.extEnd then slice log.buff log.start log.extEnd ++ slice log.buff 0 log.fin
  else slice log.buff log.start log.fin

/-- How many of them the worker has written already. -/
def TlogState.written (s : TlogState ι lineLen) : ℕ :=
  match s.wpc with
  | .first p _ _ => p - s.log.start
  | .second p _ k => k.len + p
  | .report k | .release k => k.len + k.extlen
  | _ => 0

/-- The bytes of an output. -/
def TlogOut.bytes : TlogOut → List UInt8
  | .data bytes => bytes
  | .dropped _ => []

/-- What an output took in the buffer. -/
def TlogOut.raw (c : TlogConf) : TlogOut → List UInt8
  | .data bytes => c.record bytes
  | .dropped _ => []

/-- The messages that an output reports dropped. -/
def TlogOut.lost : TlogOut → ℕ
  | .data _ => 0
  | .dropped n => n

/-- All that the outputs report dropped. -/
def lostReported : List TlogOut → ℕ
  | [] => 0
  | o :: os => o.lost + lostReported os

/-- The drops that the worker has seen and not reported yet. -/
def WPc.lost : WPc → ℕ
  | .first _ _ k | .second _ _ k | .report k => k.dropped
  | _ => 0

/-- The text can be put: its record is shorter than a line, and the head of a segment can hold its length. -/
structure TlogConf.Storable (c : TlogConf) (text : List UInt8) : Prop where
  short : (c.record text).length < c.lineLen
  len : c.segmentLog = true → text.length + 1 < 65536

instance (c : TlogConf) (text : List UInt8) : Decidable (c.Storable text) :=
  decidable_of_iff ((c.record text).length < c.lineLen ∧ (c.segmentLog = true → text.length + 1 < 65536))
    ⟨fun h => ⟨h.1, h.2⟩, fun h => ⟨h.short, h.len⟩⟩

/-- The texts of the calls can be put. -/
def CallsStorable (c : TlogConf) : TlogState ι c.lineLen → TlogAct ι c.lineLen → Prop
  | _, .call _ p => ∀ text ∈ p.text, c.Storable text
  | _, _ => True

instance (c : TlogConf) (s : TlogState ι c.lineLen) (a : TlogAct ι c.lineLen) : Decidable (CallsStorable c s a) :=
  match a with
  | .call _ p => inferInstanceAs (Decidable (∀ text ∈ p.text, c.Storable text))
  | .prod _ | .spurious _ | .work | .out _ | .exit => isTrue trivial

/-- What an output has of a text. -/
def TlogOut.text : TlogOut → Option (List UInt8)
  | .data bytes => some bytes
  | .dropped _ => none

/-- The texts that the worker wrote, without the reports. -/
def TlogState.texts (s : TlogState ι lineLen) : List (List UInt8) := s.out.filterMap TlogOut.text

/-- The worker's part of the log: what it has in work. -/
def WPc.claim : WPc → Option TlogClaim
  | .first _ _ k | .second _ _ k | .report k | .release k => some k
  | _ => none

/-- The worker will come past its broadcast. -/
def TlogState.WillWake (s : TlogState ι lineLen) : Prop :=
  s.log.hasData = true ∧ s.wpc ≠ .returned ∨ s.wpc.claim.isSome = true ∨ s.wpc = .wakeup

def VPc.waiting : VPc lineLen → Bool
  | .wait _ _ => true
  | _ => false

/-- A call waits for another thread, or nothing is called. -/
def VPc.Resting : VPc lineLen → Prop
  | .idle | .wait _ _ => True
  | _ => False

instance (pc : VPc lineLen) : Decidable pc.Resting :=
  match pc with
  | .idle | .wait _ _ => isTrue trivial
  | .needDrop _ | .print _ | .lock _ _ | .block _ _ | .woken _ _ => isFalse id

def TlogAct.ofWorker : TlogAct ι lineLen → Bool
  | .work | .out _ => true
  | _ => false

/-- Nobody calls. -/
def NoCall : TlogState ι lineLen → TlogAct ι lineLen → Prop
  | _, .call _ _ => False
  | _, _ => True

/-- Nobody calls, and `pthread_cond_wait` returns only if it is woken. -/
def LogQuiet : TlogState ι lineLen → TlogAct ι lineLen → Prop
  | _, .call _ _ | _, .spurious _ => False
  | _, _ => True

end HookKernel
