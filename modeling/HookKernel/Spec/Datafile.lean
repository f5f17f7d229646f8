import HookKernel.Lib.Files
import HookKernel.Spec.Message

/-!
# The local file cache (`useapp/worker.c`, lines 27 to 177)

`struct datafile_info` and the functions on it. The outcomes of the library calls
(`time`, `fopen`, `fwrite`) are arguments; a store outside `curr_fname` or outside
an allocation has no result.

The stream of `curr_fp` is a buffer that reaches the file on `fclose`, or earlier.
A failed `fwrite` leaves some prefix of its bytes in the buffer.

Sizes are integers without a bound, where the source has `int`. `datafile_init` cuts
`max_fsize` to 2 MiB, a file is no longer than that or than one message, and a message no
longer than `node_size`: for a `node_size` of less than 1 GiB no sum of them overflows.
-/

namespace HookKernel

open Lib

/-- A C string: no NUL in it. -/
abbrev CStr := { l : List UInt8 // 0 ∉ l }

/-- `struct tm`, at a time with a four-digit year. -/
structure Tm where
  year : ℕ
  mon : ℕ
  mday : ℕ
  hour : ℕ
  min : ℕ
  sec : ℕ
  year_ok : 1000 ≤ year ∧ year ≤ 9999 := by decide

/-- A decimal digit as a character. -/
def digit (n : ℕ) : UInt8 := 48 + (n % 10).toUInt8

def twoDigits (n : ℕ) : List UInt8 := [digit (n / 10), digit n]

/-- `strftime` with the format `%Y%m%d_%H%M%S.dat`. -/
def strftime (t : Tm) : List UInt8 :=
  twoDigits (t.year / 100) ++ twoDigits t.year ++ twoDigits t.mon ++ twoDigits t.mday ++ [95] ++
    twoDigits t.hour ++ twoDigits t.min ++ twoDigits t.sec ++ [46, 100, 97, 116]

/-- The part of `struct configure` that the workers read. -/
structure Configure where
  nodeSize : ℤ
  nodeCount : ℤ
  path : CStr
  maxFcnt : ℤ
  maxFsize : ℤ
  accessToken : CStr
  localtime : ℤ → Tm

/-- The file system the workers see. -/
abbrev Disk := Fs Name Cell

/-- `struct datafile_info`. -/
structure DatafileInfo where
  path : CStr
  maxFcnt : ℤ
  maxFsize : ℤ
  fileCount : ℤ
  currFp : Option (Stream Cell)
  currFsize : ℤ
  currFname : List UInt8
  namesMsg : Option Message

/-- `curr_fname` after `memset`. -/
def clearedFname : List UInt8 := List.replicate 256 0

/-- `datafile_init`, when the directory exists or could be made. -/
def datafileInit (dir : CStr) (maxFsize maxFcnt : ℤ) : DatafileInfo where
  path := dir
  maxFcnt := if maxFcnt > 5 then 4 else maxFcnt
  maxFsize := if maxFsize > 1024 * 1024 * 2 then 1024 * 1024 * 2 else maxFsize
  fileCount := 0
  currFp := none
  currFsize := 0
  currFname := clearedFname
  namesMsg := none

/-- The C string in `curr_fname`. -/
def DatafileInfo.fname (info : DatafileInfo) : Name := cstr (· == 0) info.currFname

/-- `strncpy(dst, src, n)`: `src`, cut or padded with NULs to `n` bytes. -/
def strncpy (dst : List UInt8) (src : CStr) (n : ℕ) : List UInt8 :=
  overwrite dst 0 ((src.1 ++ List.replicate n 0).take n)

/-- The name that `create_datafile` builds in `curr_fname`; `none` if the empty path
makes it read, or a long path makes it write, outside `curr_fname`. -/
def buildFname (currFname : List UInt8) (path : CStr) (stamp : List UInt8) : Option (List UInt8) :=
  let pathLen := path.1.length
  let buf := strncpy currFname path (256 - 21)
  if pathLen = 0 ∨ 256 ≤ pathLen then none
  else
    let (buf, pathLen) :=
      if buf.getD (pathLen - 1) 0 ≠ 47 then (overwrite buf pathLen [47], pathLen + 1) else (buf, pathLen)
    if 256 < pathLen + 20 then none else some (overwrite buf pathLen (stamp ++ [0]))

/-- `create_datafile`: whether it succeeded, with the new state. -/
def createDatafile (localtime : ℤ → Tm) (info : DatafileInfo) (fs : Disk) (now : ℤ) (fopenOk : Bool) :
    Option (Bool × DatafileInfo × Disk) := do
  let buf ← buildFname info.currFname info.path (strftime (localtime now))
  if fopenOk then
    let (fs, fp) := fs.fopen (cstr (· == 0) buf)
    some (true, { info with currFname := buf, currFp := some fp }, fs)
  else some (false, { info with currFname := clearedFname, currFp := none }, fs)

/-- `close_datafile`. -/
def closeDatafile (info : DatafileInfo) (fs : Disk) : DatafileInfo × Disk :=
  ({ info with currFp := none, currFname := clearedFname, currFsize := 0 },
    match info.currFp with
    | some fp => fp.fclose fs
    | none => fs)

/-- `datafile_reset_currfile`; `none` if it would follow a null `names_msg`. -/
def datafileResetCurrfile (info : DatafileInfo) (fs : Disk) : Option (DatafileInfo × Disk) :=
  match info.currFp with
  | none => some (closeDatafile info fs)
  | some _ =>
    match info.namesMsg with
    | none => none
    | some names =>
      some (closeDatafile
        { info with
          fileCount := if info.fileCount > 0 then info.fileCount - 1 else info.fileCount
          -- the name is only cut off by its length; its bytes stay in `names_msg`
          namesMsg := some { names with len := names.len - (info.fname.length + 1) }
          currFname := clearedFname } fs)

/-- What the library calls of `datafile_write_datamsg` do: the time read, whether
`fopen` succeeds, and `fwrite` (`none`: all bytes; `some k`: an error after `k`). -/
structure WriteEnv where
  now : ℤ
  fopenOk : Bool
  fwrite : Option ℕ
deriving DecidableEq

/-- The result of `datafile_write_datamsg`. Ghost: the file it created, and the
bytes it put into the current stream. -/
structure WriteRes where
  ok : Bool
  info : DatafileInfo
  fs : Disk
  opened : Option Name
  wrote : List Cell

/-- The `fwrite` at the end of `datafile_write_datamsg`. -/
def writeCurr (info : DatafileInfo) (fp : Stream Cell) (fs : Disk) (dataMsg : Message)
    (fwrite : Option ℕ) (opened : Option Name) : WriteRes :=
  match fwrite with
  | none =>
    { ok := true
      info := { info with currFp := some (fp.fwrite dataMsg.bytes)
                          currFsize := info.currFsize + dataMsg.len }
      fs := fs, opened := opened, wrote := dataMsg.bytes }
  -- `curr_fsize` does not count what was written before the error
  | some k =>
    { ok := false
      info := { info with currFp := some (fp.fwrite (dataMsg.bytes.take k)) }
      fs := fs, opened := opened, wrote := dataMsg.bytes.take k }

/-- `names_msg`, allocated if it is null: room for `max_fcnt + 1` names. -/
def DatafileInfo.allocNames (info : DatafileInfo) (addr : ℕ) : Option Message :=
  match info.namesMsg with
  | some names => some names
  | none =>
    (messageNew addr ((info.maxFcnt + 1) * (256 + 1))).map fun names => { names with type := 1 }

/-- `strcpy` the current name to the end of the list. -/
def DatafileInfo.appendName (info : DatafileInfo) (addr : ℕ) : Option Message := do
  let names ← info.allocNames addr
  let names ← names.store names.len (info.fname.map .text ++ [.text 0])
  some { names with len := names.len + (info.fname.length + 1) }

/-- The message does not fit into the current file any more. -/
def DatafileInfo.over (info : DatafileInfo) (dataMsg : Message) : Bool :=
  decide (info.currFsize + dataMsg.len > info.maxFsize)

/-- Close the current file if the message does not fit into it. -/
def DatafileInfo.rotate (info : DatafileInfo) (fs : Disk) (dataMsg : Message) : DatafileInfo × Disk :=
  if info.currFp.isSome && info.over dataMsg then closeDatafile info fs else (info, fs)

/-- `datafile_write_datamsg`; `addr` is the allocation a new `names_msg` gets. -/
def datafileWriteDatamsg (localtime : ℤ → Tm) (info : DatafileInfo) (fs : Disk) (dataMsg : Message)
    (addr : ℕ) (e : WriteEnv) : Option WriteRes :=
  if info.fileCount ≥ info.maxFcnt ∧ info.over dataMsg then some ⟨false, info, fs, none, []⟩
  else
    let (info, fs) := info.rotate fs dataMsg
    match info.currFp with
    | some fp => some (writeCurr info fp fs dataMsg e.fwrite none)
    | none => do
      let (ok, info, fs) ← createDatafile localtime info fs e.now e.fopenOk
      if !ok then some ⟨false, info, fs, none, []⟩
      else
        -- the file is counted and listed before anything is written to it
        let info := { info with fileCount := info.fileCount + 1, currFsize := 0 }
        let names ← info.appendName addr
        let info := { info with namesMsg := some names }
        let fp ← info.currFp
        some (writeCurr info fp fs dataMsg e.fwrite (some info.fname))

/-- `datafile_detach_namemsg`. -/
def datafileDetachNamemsg (info : DatafileInfo) (fs : Disk) : DatafileInfo × Disk :=
  let (info, fs) := closeDatafile info fs
  ({ info with fileCount := 0, namesMsg := none }, fs)

end HookKernel
