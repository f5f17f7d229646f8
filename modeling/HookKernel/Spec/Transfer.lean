import HookKernel.Spec.Response
import HookKernel.Spec.System

/-!
# A transfer (`useapp/sender.c`, lines 45 to 244)

`send_log_file` and `send_log_buff` make one transfer and turn what curl and the server
report into one of four results. What curl does is an input: whether there is a handle,
the chunks of the response, the result and the status. `json` stands for `cJSON_Parse`
with `cJSON_GetObjectItem(json, "code")`: the `valueint` of that item in a text, if the
text has one.

A transfer as it happens also has a server, which stores the bytes or not.
-/

namespace HookKernel

open Lib

/-- The `CURLcode`s that are told apart. -/
inductive CurlCode
  | ok
  | couldntResolveProxy
  | couldntResolveHost
  | couldntConnect
  | sendError
  | operationTimedout
  | recvError
  | other
deriving DecidableEq

/-- What curl does in one call of the two functions. -/
structure Transfer where
  /-- `curl_easy_init` does not return `NULL` -/
  init : Bool
  chunks : List Chunk
  rc : CurlCode
  /-- `CURLINFO_RESPONSE_CODE` -/
  code : ℤ

/-- The results after which the sender tries again. -/
def CurlCode.unsent : CurlCode → Bool
  | .couldntResolveProxy | .couldntResolveHost | .couldntConnect | .sendError => true
  | _ => false

variable (json : List UInt8 → Option ℤ)

/-- `curl_easy_perform` and the `switch` on its result; `none` if a call of `receive_callback` leaves its
buffer or stops the transfer. -/
def Transfer.perform (t : Transfer) : Option SndRes :=
  (deliver (some .zeroed) t.chunks).bind fun userp => userp.map fun resp =>
    match t.rc with
    | .ok =>
      if 200 ≠ t.code then .errSrv
      else if json (cstr (· == 0) resp.buff) = some 200 then .success
      else .errSrv
    | .couldntResolveProxy | .couldntResolveHost | .couldntConnect | .sendError => .errNet
    | .operationTimedout | .recvError => .errSrv
    | .other => .errSys

/-- `send_log_file`, where `get_file_size` returns `flen`. -/
def sendLogFile (flen : ℤ) (t : Transfer) : Option SndRes :=
  if flen < 0 then some .errSys
  else if !t.init then some .errSys
  else t.perform json

/-- `send_log_buff` -/
def sendLogBuff (t : Transfer) : Option SndRes :=
  if !t.init then some .errSys
  else t.perform json

/-- The answer reports success, as far as it is read: up to the first NUL of its first 511 bytes. -/
def Transfer.Accepted (t : Transfer) : Prop :=
  t.rc = .ok ∧ t.code = 200 ∧ json (cstr (· == 0) ((response t.chunks).take 511)) = some 200

instance (t : Transfer) : Decidable (t.Accepted json) :=
  inferInstanceAs (Decidable (_ ∧ _ ∧ _))

/-! ## The server -/

/-- A transfer with what the files and the server do. -/
structure Upload extends Transfer where
  /-- what `get_file_size` returns -/
  flen : ℤ
  /-- the server stores the bytes that it is sent -/
  stored : Bool

/-- The bytes that the next upload is about. -/
def Snd.payload (sd : Snd) (fs : Disk) : List Cell :=
  match sd.pc, sd.msg with
  | .body, some m => m.bytes
  | .files, some m => fs.content m.filename
  | _, _ => []

/-- What the sender is returned. -/
def Snd.result (sd : Snd) (u : Upload) : Option SndRes :=
  if sd.pc = .files then sendLogFile json u.flen u.toTransfer else sendLogBuff json u.toTransfer

/-- There is a request, and the server stores what is in it. -/
def Snd.stores (sd : Snd) (u : Upload) : Bool := u.stored && u.init && (sd.pc != .files || decide (0 ≤ u.flen))

/-- The process, and what the server has stored. -/
structure Served where
  sys : Sys
  server : List Cell

def Served.init (c : Configure) (fs : Disk) : Served := ⟨Sys.init c fs, []⟩

/-- One step of the process. An upload returns what `send_log_file` or `send_log_buff` does. -/
def servedStep (c : Configure) (s : Served) (b : SysAct × Upload) : Option Served :=
  (s.sys.step c b.1).bind fun sys =>
    match b.1 with
    | .snd (.send res) =>
      if s.sys.snd.result json b.2 = some res then
        some ⟨sys, s.server ++ if s.sys.snd.stores b.2 then s.sys.snd.payload s.sys.fs else []⟩
      else none
    | _ => some ⟨sys, s.server⟩

/-- **What is assumed of curl and the server**: bytes that could not be sent are not stored, and bytes for which
the answer reports success are. -/
def Upload.Sound (u : Upload) : Prop :=
  (u.rc.unsent = true → u.stored = false) ∧ (u.Accepted json → u.stored = true)

instance (u : Upload) : Decidable (u.Sound json) := inferInstanceAs (Decidable (_ ∧ _))

end HookKernel
