import HookKernel.Spec.LogBatch
import HookKernel.Spec.Tlog

/-!
# The lines of the log (`useapp/tlog.c`, lines 300 to 408, 1302 to 1307 and 1310 to 1328)

`_tlog_root_log_buffer` prints a line of the root log into a buffer of `TLOG_MAX_LINE_LEN`
bytes: `_tlog_format` what stands in front of the message and the message itself, then a line
feed and, in a segment log, a NUL. The line is cut if it is too long. `_tlog_root_write_log`
takes what it gets of a segment log apart again, a report of dropped messages as well.

What `vsnprintf` makes of the message is an input, `none` being a failure. `maxlen` is taken
to be at least 64. In `rootLogBuffer`, `none` is a write outside of the buffer.
-/

namespace HookKernel

open Lib

/-- `struct tlog_time` -/
structure TlogTime where
  year : ℤ
  usec : ℕ
  mon : ℕ
  mday : ℕ
  hour : ℕ
  min : ℕ
  sec : ℕ

/-- `struct tlog_loginfo`; `raw` is how it stands in memory. -/
structure TlogLoginfo where
  level : Fin 6
  file : List UInt8
  line : ℤ
  time : TlogTime
  raw : List UInt8
  length_raw : raw.length = 37

/-- `tlog_level_str` -/
def tlogLevelStr : Fin 6 → List UInt8
  | 0 => [68, 69, 66, 85, 71]
  | 1 => [73, 78, 70, 79]
  | 2 => [78, 79, 84, 73, 67, 69]
  | 3 => [87, 65, 82, 78]
  | 4 => [69, 82, 82, 79, 82]
  | 5 => [70, 65, 84, 65, 76]

/-- `%5s` and the like. -/
def padLeft (w : ℕ) (text : List UInt8) : List UInt8 := List.replicate (w - text.length) 32 ++ text

/-- `%-4d` and the like. -/
def padRight (w : ℕ) (text : List UInt8) : List UInt8 := text ++ List.replicate (w - text.length) 32

/-- What stands in front of the message; `pid` if several processes write the log. -/
def logPrefix (pid : Option ℤ) (info : TlogLoginfo) : List UInt8 :=
  let tm := info.time
  [91] ++ decimalText 4 tm.year ++ [45] ++ decimalText 2 tm.mon ++ [45] ++ decimalText 2 tm.mday ++ [32] ++
    decimalText 2 tm.hour ++ [58] ++ decimalText 2 tm.min ++ [58] ++ decimalText 2 tm.sec ++ [44] ++
    decimalText 3 (tm.usec / 1000 : ℕ) ++ [93] ++
    (match pid with
      | some pid => [91] ++ padLeft 5 (decimalText 1 pid) ++ [93] ++ [91] ++ padLeft 4 (tlogLevelStr info.level) ++ [93]
      | none => [91] ++ padLeft 5 (tlogLevelStr info.level) ++ [93]) ++
    [91] ++ padLeft 17 info.file ++ [58] ++ padRight 4 (decimalText 1 info.line) ++ [93, 32]

/-- `_tlog_format`, at `pos` of the buffer: what it returns. -/
def tlogFormat (buff : List UInt8) (pos maxlen : ℕ) (pre : List UInt8) (msg : Option (List UInt8)) :
    Option (List UInt8 × ℤ) :=
  (snprintf buff pos maxlen pre).bind fun buff =>
    if maxlen ≤ pre.length then some (buff, -1)
    else
      match msg with
      | none => some (buff, -1)
      | some text =>
        (snprintf buff (pos + pre.length) (maxlen - pre.length) text).map fun buff =>
          (buff, if text.length = maxlen - pre.length then -1 else pre.length + text.length)

/-- `sizeof(struct tlog_segment_log_head)` -/
def logHeadLen : ℕ := 39

/-- A line that is too long ends in dots: the buffer and `log_len`. -/
def cutLine (buff : List UInt8) (len maxFormatLen logLen : ℕ) : Option (List UInt8 × ℕ) :=
  if maxFormatLen ≤ logLen then
    (copyInto buff (len + maxFormatLen - 4) [46, 46, 46] 3).map fun buff => (buff, maxFormatLen - 1)
  else some (buff, logLen)

/-- The line feed: the buffer and `len`. -/
def addNewline (buff : List UInt8) (maxlen len : ℕ) : Option (List UInt8 × ℕ) :=
  if buff[len - 1]? ≠ some 10 ∧ len + 1 < maxlen - 1 then (copyInto buff len [10] 1).map fun buff => (buff, len + 1)
  else some (buff, len)

/-- The NUL and `log_head->len` of a segment log; `log_len` is what `len` has behind the head. -/
def endSegment (buff : List UInt8) (maxlen len : ℕ) : Option (List UInt8 × ℕ) :=
  (if len + 1 < maxlen - 1 then (copyInto buff len [0] 1).map fun buff => (buff, len + 1) else some (buff, len)).bind
    fun r => (copyInto r.1 37 (leBytes 2 (r.2 - logHeadLen)) 2).map fun buff => (buff, r.2)

/-- `_tlog_root_log_buffer`: the buffer, and what it returns. -/
def rootLogBuffer (segmentLog : Bool) (maxlen : ℕ) (buff raw pre : List UInt8) (msg : Option (List UInt8)) :
    Option (List UInt8 × ℤ) :=
  let len := if segmentLog then logHeadLen else 0
  let maxFormatLen := maxlen - len - 2
  (if segmentLog then copyInto buff 0 raw 37 else some buff).bind fun buff =>
  (copyInto buff (maxlen - 1) [0] 1).bind fun buff =>
  (tlogFormat buff len maxFormatLen pre msg).bind fun r =>
    if r.2 < 0 then some (r.1, -1)
    else
      (cutLine r.1 len maxFormatLen r.2.toNat).bind fun r =>
      (addNewline r.1 maxlen (len + r.2)).bind fun r =>
      (if segmentLog then endSegment r.1 maxlen r.2 else some r).map fun r => (r.1, r.2)

/-- What `log_dropped`, an `int`, is printed as: `[Totoal Dropped %d Messages]` and a line feed. -/
def dropText (n : ℕ) : List UInt8 :=
  [91, 84, 111, 116, 111, 97, 108, 32, 68, 114, 111, 112, 112, 101, 100, 32] ++ decimalText 1 (Int.bmod n (2 ^ 32)) ++
    [32, 77, 101, 115, 115, 97, 103, 101, 115, 93, 10]

/-- `dropmsg`, with what happens to be in it behind the NUL. -/
def dropmsg (n : ℕ) (stack : List UInt8) : List UInt8 := dropText n ++ 0 :: stack

/-- `TLOG_TMP_LEN` -/
def tlogTmpLen : ℕ := 128

/-- What a reader of `n` bytes at `p` finds; `none` if that is no length, or not inside. -/
def readText (buff : List UInt8) (p : ℕ) (n : ℤ) : Option (List UInt8) :=
  if 0 ≤ n ∧ p + n ≤ buff.length then some (slice buff p (p + n.toNat)) else none

/-- `_tlog_root_write_log` of the root log, for the first `bufflen` bytes of `buff`: the `info` and the text that
`tlog.output_func` gets if there is one, or the text that `_tlog_write` gets. -/
def rootWriteLog (callback segmentLog : Bool) (buff : List UInt8) (bufflen : ℕ) :
    Option (List UInt8) × Option (List UInt8) :=
  if segmentLog then
    let len : ℤ := leNat (slice buff 37 logHeadLen)
    if callback then (some (buff.take 37), readText buff logHeadLen (len - 1)) else (none, readText buff logHeadLen len)
  else (if callback then some (List.replicate 37 0) else none, some (buff.take bufflen))

/-! ## What a line is -/

/-- The text and a line feed, if it has none. -/
def endLine (text : List UInt8) : List UInt8 := if text.getLast? = some 10 then text else text ++ [10]

/-- **The line** for `m` bytes: cut if it is longer; there is none if it has exactly `m` bytes. -/
def lineText (m : ℕ) (pre text : List UInt8) : Option (List UInt8) :=
  let full := pre ++ text
  if m ≤ pre.length ∨ full.length = m then none
  else some (endLine (if full.length < m then full else full.take (m - 4) ++ [46, 46, 46]))

/-- The line in a segment log: the head, the line, and a NUL if there is room for it. -/
def segmentText (m : ℕ) (raw line : List UInt8) : List UInt8 :=
  let body := if line.length < m then line ++ [0] else line
  raw ++ leBytes 2 body.length ++ body

/-- What the root log takes for a line. -/
def TlogConf.rootText (c : TlogConf) (raw pre text : List UInt8) : Option (List UInt8) :=
  if c.segmentLog then (lineText (c.lineLen - 41) pre text).map (segmentText (c.lineLen - 41) raw)
  else lineText (c.lineLen - 2) pre text

/-- What `_tlog_root_write_log` makes of an output of the worker; behind a report there may be any bytes. -/
inductive TlogOut.Written (callback segmentLog : Bool) : TlogOut → Option (List UInt8) × Option (List UInt8) → Prop
  | data (bytes : List UInt8) : Written callback segmentLog (.data bytes) (rootWriteLog callback segmentLog bytes bytes.length)
  | dropped (n : ℕ) (stack : List UInt8) : (dropmsg n stack).length = tlogTmpLen →
      Written callback segmentLog (.dropped n) (rootWriteLog callback segmentLog (dropmsg n stack) (dropText n).length)

/-- **What comes out of a segment log**: of each text its `info` and its line, with a NUL if it goes to the file; and
of a report nothing that it says: the report itself as the `info`, and as the text, if any, only bytes that are behind
it in memory. -/
inductive RootGets (callback : Bool) :
    List TlogOut → List (TlogLoginfo × List UInt8) → List (Option (List UInt8) × Option (List UInt8)) → Prop
  | nil : RootGets callback [] [] []
  | line {out calls got} (bytes : List UInt8) (x : TlogLoginfo × List UInt8) : RootGets callback out calls got →
      RootGets callback (.data bytes :: out) (x :: calls)
        ((if callback then some x.1.raw else none, some (if callback then x.2 else x.2 ++ [0])) :: got)
  | report {out calls got} (n : ℕ) (stack : List UInt8) (text : Option (List UInt8)) : (∀ t ∈ text, t <:+: stack) →
      RootGets callback out calls got →
      RootGets callback (.dropped n :: out) calls
        ((if callback then some ((dropmsg n stack).take 37) else none, text) :: got)

/-- The calls print lines of the root log. -/
def CallsRoot {ι : Type} (c : TlogConf) : TlogState ι c.lineLen → TlogAct ι c.lineLen → Prop
  | _, .call _ p => ∃ (info : TlogLoginfo) (pid : Option ℤ) (msg : Option (List UInt8)) (buff : List UInt8),
      buff.length = c.lineLen ∧
        rootLogBuffer c.segmentLog c.lineLen buff info.raw (logPrefix pid info) msg = some (p.buff, p.len)
  | _, _ => True

end HookKernel
