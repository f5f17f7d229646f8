import HookKernel.Lib.LittleEndian
import HookKernel.Lib.Records

/-!
# The route listing (`rtnetlink-exa.c`)

The program asks the kernel for its routes and prints what it answers: `main` goes through the
messages of every datagram, `rtnl_print_link` and `rtnl_print_route` through the attributes of
a message. The macros `NLMSG_OK`, `NLMSG_NEXT`, `RTA_OK` and `RTA_NEXT` are those of `linux/netlink.h`
and `linux/rtnetlink.h`.

A message is given by its place in `reply` and `nlmsg_len`. No result is a read outside of
`reply`. What comes to the socket is an input; the requests are left out.
-/

namespace HookKernel

open Lib

/-- `struct nlmsghdr`, with `nlmsg_len` in front. -/
def nlmsgFormat : RecordFormat := ⟨16, 4, by decide, by decide⟩

/-- `struct rtattr`, with `rta_len` in front. -/
def rtaFormat : RecordFormat := ⟨4, 2, by decide, by decide⟩

/-- `destination_address` or `gateway_address` as it is printed. -/
inductive RtAddress
  /-- what `inet_ntop` makes of these bytes -/
  | ntop (bytes : List UInt8)
  /-- no attribute has set it: it is printed uninitialised, and what comes out is not known -/
  | uninitialised
  deriving DecidableEq

/-- What is printed. -/
inductive RtOut
  /-- `Interface %d : %s` -/
  | interface (index : ℤ) (name : List UInt8)
  /-- `here we are` -/
  | here
  /-- `route attribute type: %d` -/
  | attribute (type : ℕ)
  /-- `route to destination --> %s/%d proto %d and gateway %s` -/
  | route (dst : RtAddress) (netmask protocol : ℕ) (gateway : RtAddress)
  /-- `message type %d, length %d` -/
  | message (type len : ℕ)
  deriving DecidableEq

/-- The `w` bytes at `pos`. -/
def bytesAt (reply : List UInt8) (pos w : ℕ) : Option (List UInt8) :=
  if pos + w ≤ reply.length then some (slice reply pos (pos + w)) else none

/-- The number of `w` bytes at `pos`. -/
def numberAt (reply : List UInt8) (pos w : ℕ) : Option ℕ := (bytesAt reply pos w).map leNat

/-- `%d` of an `int`. -/
def asInt (n : ℕ) : ℤ := Int.bmod n (2 ^ 32)

/-- The string at `pos`. -/
def stringAt (reply : List UInt8) (pos : ℕ) : Option (List UInt8) :=
  if 0 ∈ reply.drop pos then some ((reply.drop pos).takeWhile (· ≠ 0)) else none

/-- The loop body of `rtnl_print_link`: the attribute at `attr` of the message at `pos`. -/
def printLinkAttr (reply : List UInt8) (pos attr : ℕ) : Option (List RtOut) :=
  (numberAt reply (attr + 2) 2).bind fun type =>
    -- `IFLA_IFNAME`
    if type = 3 then
      (numberAt reply (pos + 20) 4).bind fun index =>
        (stringAt reply (attr + 4)).map fun name => [.interface (asInt index) name]
    else some []

/-- `rtnl_print_link` -/
def rtnlPrintLink (reply : List UInt8) (pos len : ℕ) : Option (List RtOut) :=
  (rtaFormat.read reply (pos + 32) (len - 32)).bind fun attrs =>
    (attrs.mapM fun x => printLinkAttr reply pos x.1).map List.flatten

/-- The loop body of `rtnl_print_route`: `rta_type`, and the address if it is one. -/
def routeAttr (reply : List UInt8) (attr : ℕ) : Option (ℕ × List UInt8) :=
  (numberAt reply (attr + 2) 2).bind fun type =>
    -- `RTA_DST` and `RTA_GATEWAY`
    if type = 1 ∨ type = 5 then (bytesAt reply (attr + 4) 4).map fun address => (type, address) else some (type, [])

/-- The address that the last attribute of a type has. -/
def lastAddress (type : ℕ) (attrs : List (ℕ × List UInt8)) : RtAddress :=
  attrs.foldl (fun address x => if x.1 = type then .ntop x.2 else address) .uninitialised

/-- What `rtnl_print_route` prints of a route of the main table. -/
def routeLines (netmask protocol : ℕ) (attrs : List (ℕ × List UInt8)) : List RtOut :=
  .here :: attrs.map (fun x => .attribute x.1) ++
    [.route (lastAddress 1 attrs) netmask protocol (lastAddress 5 attrs)]

/-- `rtnl_print_route` -/
def rtnlPrintRoute (reply : List UInt8) (pos len : ℕ) : Option (List RtOut) :=
  (numberAt reply (pos + 20) 1).bind fun table =>
    -- `RT_TABLE_MAIN`
    if table ≠ 254 then some [.here]
    else
      (numberAt reply (pos + 17) 1).bind fun netmask =>
      (numberAt reply (pos + 21) 1).bind fun protocol =>
      (rtaFormat.read reply (pos + 28) (len - 28)).bind fun attrs =>
        (attrs.mapM fun x => routeAttr reply x.1).map (routeLines netmask protocol)

/-- One message: whether it ends the loop, and what is printed. -/
def handleMessage (reply : List UInt8) (pos len : ℕ) : Option (Bool × List RtOut) :=
  (numberAt reply (pos + 4) 2).bind fun type =>
    if type = 3 then some (true, [])
    else if type = 16 then (rtnlPrintLink reply pos len).map fun out => (false, out)
    else if type = 24 then (rtnlPrintRoute reply pos len).map fun out => (false, out)
    else some (false, [.message type len])

/-- The messages of a datagram. -/
def parseReply (reply : List UInt8) (len : ℤ) : Option (Bool × List RtOut) :=
  (nlmsgFormat.read reply 0 len).bind fun msgs =>
    (msgs.mapM fun x => handleMessage reply x.1 x.2).map fun rs => (rs.any (·.1), rs.flatMap (·.2))

/-- `IFLIST_REPLY_BUFFER` -/
def iflistReplyBuffer : ℕ := 8192

/-- `recvmsg`: a datagram goes to the front of `reply`, and what does not fit is lost; `none` is an error. -/
def recvmsg (reply : List UInt8) : Option (List UInt8) → List UInt8 × ℤ
  | some data => (data.take iflistReplyBuffer ++ reply.drop data.length, (data.take iflistReplyBuffer).length)
  | none => (reply, -1)

/-- The loop of `main` over what comes to the socket: whether it has ended, and what is printed. -/
def parseReplies (reply : List UInt8) : List (Option (List UInt8)) → Option (Bool × List RtOut)
  | [] => some (false, [])
  | data :: rest =>
    let (reply, len) := recvmsg reply data
    (parseReply reply len).bind fun r =>
      if r.1 then some r else (parseReplies reply rest).map fun r' => (r'.1, r.2 ++ r'.2)

/-! ## What the kernel sends -/

/-- An attribute. -/
structure RtAttr where
  type : ℕ
  payload : List UInt8
  type_lt : type < 2 ^ 16
  payload_lt : payload.length + 4 < 2 ^ 16

def RtAttr.bytes (a : RtAttr) : List UInt8 := leBytes 2 (4 + a.payload.length) ++ leBytes 2 a.type ++ a.payload

/-- What follows the head of a message. `ifinfo` is a `struct ifinfomsg` and `rtmsg` a `struct rtmsg`. -/
inductive NlBody
  | done (payload : List UInt8)
  | link (ifinfo : List UInt8) (attrs : List RtAttr)
  | route (rtmsg : List UInt8) (attrs : List RtAttr)
  | other (type : ℕ) (payload : List UInt8)

def NlBody.type : NlBody → ℕ
  | .done _ => 3
  | .link _ _ => 16
  | .route _ _ => 24
  | .other type _ => type

/-- The attributes, one after the other. -/
def attrBytes (attrs : List RtAttr) : List UInt8 := RecordFormat.encodeRecords (attrs.map RtAttr.bytes)

def NlBody.bytes : NlBody → List UInt8
  | .done payload | .other _ payload => payload
  | .link ifinfo attrs => ifinfo ++ attrBytes attrs
  | .route rtmsg attrs => rtmsg ++ attrBytes attrs

/-- A message; `rest` are its flags, number and sender. -/
structure NlMsg where
  rest : List UInt8
  body : NlBody
  length_rest : rest.length = 10
  short : 16 + body.bytes.length < 2 ^ 32

def NlMsg.bytes (m : NlMsg) : List UInt8 :=
  leBytes 4 (16 + m.body.bytes.length) ++ leBytes 2 m.body.type ++ m.rest ++ m.body.bytes

/-- What the program takes for granted: names end with a NUL, and addresses have four bytes. -/
def NlBody.Plain : NlBody → Prop
  | .done _ => True
  | .link ifinfo attrs => ifinfo.length = 16 ∧ ∀ a ∈ attrs, a.type = 3 → 0 ∈ a.payload
  | .route rtmsg attrs => rtmsg.length = 12 ∧ ∀ a ∈ attrs, a.type = 1 ∨ a.type = 5 → 4 ≤ a.payload.length
  | .other type _ => type < 2 ^ 16 ∧ type ≠ 3 ∧ type ≠ 16 ∧ type ≠ 24

instance (b : NlBody) : Decidable b.Plain :=
  match b with
  | .done _ => isTrue trivial
  | .link ifinfo attrs => inferInstanceAs (Decidable (ifinfo.length = 16 ∧ ∀ a ∈ attrs, a.type = 3 → 0 ∈ a.payload))
  | .route rtmsg attrs =>
    inferInstanceAs (Decidable (rtmsg.length = 12 ∧ ∀ a ∈ attrs, a.type = 1 ∨ a.type = 5 → 4 ≤ a.payload.length))
  | .other type _ => inferInstanceAs (Decidable (type < 2 ^ 16 ∧ type ≠ 3 ∧ type ≠ 16 ∧ type ≠ 24))

/-- An attribute of a route, as the program reads it. -/
def RtAttr.address (a : RtAttr) : ℕ × List UInt8 := (a.type, if a.type = 1 ∨ a.type = 5 then a.payload.take 4 else [])

/-- **What is to be printed** of a message. -/
def NlBody.lines : NlBody → List RtOut
  | .done _ => []
  | .link ifinfo attrs => attrs.flatMap fun a =>
      if a.type = 3 then [.interface (asInt (leNat (slice ifinfo 4 8))) (a.payload.takeWhile (· ≠ 0))] else []
  | .route rtmsg attrs =>
      if leNat (slice rtmsg 4 5) ≠ 254 then [.here]
      else routeLines (leNat (slice rtmsg 1 2)) (leNat (slice rtmsg 5 6)) (attrs.map RtAttr.address)
  | .other type payload => [.message type (16 + payload.length)]

def NlBody.isDone : NlBody → Bool
  | .done _ => true
  | _ => false

/-- The bytes of a datagram. -/
def datagram (ms : List NlMsg) : List UInt8 := RecordFormat.encodeRecords (ms.map NlMsg.bytes)

/-- The messages of a datagram that are whole in `reply`. -/
def wholeMessages (ms : List NlMsg) : List NlMsg :=
  RecordFormat.fitting (fun m => m.bytes.length) iflistReplyBuffer ms

/-- The datagrams up to the first one with an end. -/
def upToEnd : List (List NlMsg) → List (List NlMsg)
  | [] => []
  | ms :: rest => if ms.any (fun m => m.body.isDone) then [ms] else ms :: upToEnd rest

end HookKernel
