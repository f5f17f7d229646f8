import HookKernel.Spec.Rtnetlink

/-!
# What the route listing prints

* `parseReply_datagram`: the messages of a datagram that are whole in the buffer are printed as
  they were sent, whatever stands behind them.
* `parseReplies_sent`: over all datagrams, up to the first one with an end.
* `reply_walk`, `parseReply_isSome`: what is found in any bytes, and the reads outside of the buffer.
-/

namespace HookKernel

open Lib RecordFormat

variable {reply a b tail : List UInt8}

/-! ## Reading -/

/-- Reading a part of the buffer. -/
theorem bytesAt_mid {k w : ℕ} (hreply : reply = a ++ b ++ tail) (hkw : k + w ≤ b.length) :
    bytesAt reply (a.length + k) w = some (slice b k (k + w)) := by
  have hfit : a.length + k + w ≤ reply.length := by
    rw [hreply, List.length_append, List.length_append]
    omega
  unfold bytesAt slice
  rw [if_pos hfit, hreply, List.append_assoc, ← List.drop_drop, List.drop_left, List.drop_append_of_le_length (by omega),
    List.take_append_of_le_length (by rw [List.length_drop]; omega)]
  congr 2
  omega

theorem numberAt_mid {k w : ℕ} (hreply : reply = a ++ b ++ tail) (hkw : k + w ≤ b.length) :
    numberAt reply (a.length + k) w = some (leNat (slice b k (k + w))) := by
  unfold numberAt
  rw [bytesAt_mid hreply hkw, Option.map_some]

/-- Reading a string that ends inside of a part. -/
theorem stringAt_mid {k : ℕ} (hreply : reply = a ++ b ++ tail) (hnul : 0 ∈ b.drop k) :
    stringAt reply (a.length + k) = some ((b.drop k).takeWhile (· ≠ 0)) := by
  have hk : k ≤ b.length := by
    by_contra hlt
    rw [List.drop_of_length_le (by omega)] at hnul
    cases hnul
  have hdrop : reply.drop (a.length + k) = b.drop k ++ tail := by
    rw [hreply, List.append_assoc, ← List.drop_drop, List.drop_left, List.drop_append_of_le_length hk]
  have hcut : (b.drop k ++ tail).takeWhile (· ≠ 0) = (b.drop k).takeWhile (· ≠ 0) := by
    obtain ⟨pre, post, hsplit⟩ := List.append_of_mem hnul
    rw [hsplit, List.append_assoc, List.cons_append, List.takeWhile_append, List.takeWhile_append]
    split
    · rw [List.takeWhile_cons_of_neg (by simp), List.takeWhile_cons_of_neg (by simp)]
    · rfl
  unfold stringAt
  rw [hdrop, if_pos (List.mem_append_left _ hnul), hcut]

/-- A field between others. -/
theorem slice_field {x y z : List UInt8} {k w : ℕ} (hx : x.length = k) (hy : y.length = w) : slice (x ++ y ++ z) k (k + w) = y := by
  unfold slice
  rw [List.append_assoc, List.drop_left' hx, Nat.add_sub_cancel_left, List.take_left' hy]

/-! ## Attributes -/

theorem RtAttr.isRecord (x : RtAttr) : rtaFormat.IsRecord x.bytes := by
  have hlen : x.bytes.length = 4 + x.payload.length := by
    unfold RtAttr.bytes
    rw [List.length_append, List.length_append, length_leBytes, length_leBytes]
  refine ⟨?_, ?_⟩
  · show 4 ≤ _
    omega
  · show leNat (x.bytes.take 2) = _
    have hpay := x.payload_lt
    rw [hlen]
    unfold RtAttr.bytes
    rw [List.append_assoc, List.take_left' (length_leBytes 2 _), leNat_leBytes_of_lt (by omega)]

theorem RtAttr.read (x : RtAttr) (hreply : reply = a ++ x.bytes ++ tail) :
    numberAt reply (a.length + 2) 2 = some x.type ∧
      (4 ≤ x.payload.length → bytesAt reply (a.length + 4) 4 = some (x.payload.take 4)) ∧
      (0 ∈ x.payload → stringAt reply (a.length + 4) = some (x.payload.takeWhile (· ≠ 0))) := by
  have hhead : (leBytes 2 (4 + x.payload.length) ++ leBytes 2 x.type).length = 4 := by
    rw [List.length_append, length_leBytes, length_leBytes]
  have hlen : x.bytes.length = 4 + x.payload.length := by
    unfold RtAttr.bytes
    rw [List.length_append, hhead]
  have hdrop : x.bytes.drop 4 = x.payload := List.drop_left' hhead
  refine ⟨?_, fun h4 => ?_, fun hnul => ?_⟩
  · rw [numberAt_mid hreply (by omega)]
    unfold RtAttr.bytes
    rw [slice_field (length_leBytes 2 _) (length_leBytes 2 _), leNat_leBytes_of_lt x.type_lt]
  · rw [bytesAt_mid hreply (by omega)]
    unfold slice
    rw [hdrop, Nat.add_sub_cancel_left]
  · rw [stringAt_mid hreply (by rw [hdrop]; exact hnul), hdrop]

/-- The walk over the attributes of a message. -/
theorem attrs_mapM {β : Type} {h : ℕ → Option β} {g : RtAttr → β} {attrs : List RtAttr}
    (hreply : reply = a ++ attrBytes attrs ++ tail)
    (hg : ∀ a x tail, x ∈ attrs → reply = a ++ RtAttr.bytes x ++ tail → h a.length = some (g x)) :
    ∃ rs, rtaFormat.read reply a.length (attrBytes attrs).length = some rs ∧ rs.mapM (fun r => h r.1) = some (attrs.map g) := by
  have hfit : ((a.length : ℕ) : ℤ) + ((attrBytes attrs).length : ℕ) ≤ reply.length := by
    rw [hreply, List.length_append, List.length_append]
    omega
  exact ⟨_, read_eq hfit, records_mapM (h := fun pos _ => h pos) _ _ (fun x _ => x.isRecord) hreply hg⟩

/-! ## Messages -/

theorem NlMsg.length_bytes (m : NlMsg) : m.bytes.length = 16 + m.body.bytes.length := by
  unfold NlMsg.bytes
  simp only [List.length_append, length_leBytes, m.length_rest]

theorem NlMsg.isRecord (m : NlMsg) : nlmsgFormat.IsRecord m.bytes := by
  have hlen := m.length_bytes
  refine ⟨?_, ?_⟩
  · show 16 ≤ _
    omega
  · show leNat (m.bytes.take 4) = _
    have hshort := m.short
    rw [hlen]
    unfold NlMsg.bytes
    rw [List.append_assoc, List.append_assoc, List.take_left' (length_leBytes 4 _), leNat_leBytes_of_lt (by omega)]

/-- What stands where in a message. -/
theorem NlMsg.parts (m : NlMsg) (hreply : reply = a ++ m.bytes ++ tail) :
    ∃ head : List UInt8, head.length = a.length + 16 ∧ reply = head ++ m.body.bytes ++ tail := by
  refine ⟨a ++ (leBytes 4 (16 + m.body.bytes.length) ++ leBytes 2 m.body.type ++ m.rest), ?_, ?_⟩
  · simp only [List.length_append, length_leBytes, m.length_rest]
  · rw [hreply]
    unfold NlMsg.bytes
    simp only [List.append_assoc]

theorem NlMsg.type_read (m : NlMsg) (htype : m.body.type < 2 ^ 16) (hreply : reply = a ++ m.bytes ++ tail) :
    numberAt reply (a.length + 4) 2 = some m.body.type := by
  have hlen := m.length_bytes
  rw [numberAt_mid hreply (by omega)]
  unfold NlMsg.bytes
  rw [List.append_assoc, slice_field (length_leBytes 4 _) (length_leBytes 2 _), leNat_leBytes_of_lt (by omega)]

/-- The names of a link. -/
theorem printLink_bytes {ifinfo : List UInt8} {attrs : List RtAttr} {pos : ℕ} (hinfo : ifinfo.length = 16)
    (hnames : ∀ x ∈ attrs, x.type = 3 → 0 ∈ x.payload) (ha : a.length = pos + 16)
    (hreply : reply = a ++ (ifinfo ++ attrBytes attrs) ++ tail) :
    rtnlPrintLink reply pos (32 + (attrBytes attrs).length) = some ((NlBody.link ifinfo attrs).lines) := by
  have hhead : reply = a ++ ifinfo ++ (attrBytes attrs ++ tail) := by
    rw [hreply]
    simp only [List.append_assoc]
  have hbehind : reply = (a ++ ifinfo) ++ attrBytes attrs ++ tail := by
    rw [hhead, List.append_assoc _ (attrBytes attrs)]
  have hindex : numberAt reply (pos + 20) 4 = some (leNat (slice ifinfo 4 8)) := by
    have hread := numberAt_mid (k := 4) (w := 4) hhead (by omega)
    rwa [ha] at hread
  obtain ⟨rs, hread, hattrs⟩ := attrs_mapM (h := fun attr => printLinkAttr reply pos attr)
    (g := fun x => if x.type = 3 then [RtOut.interface (asInt (leNat (slice ifinfo 4 8))) (x.payload.takeWhile (· ≠ 0))] else [])
    hbehind (fun a x tail hx hreply => by
      obtain ⟨htype, -, hname⟩ := x.read hreply
      unfold printLinkAttr
      rw [htype, Option.bind_some]
      by_cases h3 : x.type = 3
      · rw [if_pos h3, if_pos h3, hindex, Option.bind_some, hname (hnames x hx h3), Option.map_some]
      · rw [if_neg h3, if_neg h3])
  rw [List.length_append, ha, hinfo] at hread
  unfold rtnlPrintLink
  rw [show ((32 + (attrBytes attrs).length : ℕ) : ℤ) - 32 = (attrBytes attrs).length by omega, hread, Option.bind_some,
    hattrs, Option.map_some]
  rfl

/-- A route. -/
theorem printRoute_bytes {rtmsg : List UInt8} {attrs : List RtAttr} {pos : ℕ} (hrt : rtmsg.length = 12)
    (haddr : ∀ x ∈ attrs, x.type = 1 ∨ x.type = 5 → 4 ≤ x.payload.length) (ha : a.length = pos + 16)
    (hreply : reply = a ++ (rtmsg ++ attrBytes attrs) ++ tail) :
    rtnlPrintRoute reply pos (28 + (attrBytes attrs).length) = some ((NlBody.route rtmsg attrs).lines) := by
  have hhead : reply = a ++ rtmsg ++ (attrBytes attrs ++ tail) := by
    rw [hreply]
    simp only [List.append_assoc]
  have hbehind : reply = (a ++ rtmsg) ++ attrBytes attrs ++ tail := by
    rw [hhead, List.append_assoc _ (attrBytes attrs)]
  have hfield : ∀ k, k < 12 → numberAt reply (pos + (16 + k)) 1 = some (leNat (slice rtmsg k (k + 1))) := by
    intro k hk
    have hread := numberAt_mid (k := k) (w := 1) hhead (by omega)
    rwa [ha, Nat.add_assoc] at hread
  obtain ⟨rs, hread, hattrs⟩ := attrs_mapM (h := fun attr => routeAttr reply attr) (g := RtAttr.address) hbehind
    (fun a x tail hx hreply => by
      obtain ⟨htype, hread, -⟩ := x.read hreply
      unfold routeAttr RtAttr.address
      rw [htype, Option.bind_some]
      by_cases h15 : x.type = 1 ∨ x.type = 5
      · rw [if_pos h15, if_pos h15, hread (haddr x hx h15), Option.map_some]
      · rw [if_neg h15, if_neg h15])
  rw [List.length_append, ha, hrt] at hread
  unfold rtnlPrintRoute
  simp only [NlBody.lines]
  rw [hfield 4 (by decide), Option.bind_some]
  by_cases hmain : leNat (slice rtmsg 4 5) = 254
  · rw [if_neg (not_not.2 hmain), if_neg (not_not.2 hmain), hfield 1 (by decide), Option.bind_some, hfield 5 (by decide),
      Option.bind_some, show ((28 + (attrBytes attrs).length : ℕ) : ℤ) - 28 = (attrBytes attrs).length by omega, hread,
      Option.bind_some, hattrs, Option.map_some]
  · rw [if_pos hmain, if_pos hmain]

/-- **A message is printed as it was sent.** -/
theorem handleMessage_bytes (m : NlMsg) (hm : m.body.Plain) (hreply : reply = a ++ m.bytes ++ tail) :
    handleMessage reply a.length m.bytes.length = some (m.body.isDone, m.body.lines) := by
  obtain ⟨head, hhead, hparts⟩ := m.parts hreply
  have htype : m.body.type < 2 ^ 16 := by
    revert hm
    cases m.body with
    | done _ => exact fun _ => show 3 < 2 ^ 16 by decide
    | link _ _ => exact fun _ => show 16 < 2 ^ 16 by decide
    | route _ _ => exact fun _ => show 24 < 2 ^ 16 by decide
    | other type _ => exact fun hm => hm.1
  have hread := m.type_read htype hreply
  unfold handleMessage
  rw [m.length_bytes]
  cases hbody : m.body with
  | done payload =>
    rw [hbody] at hread
    have hread : numberAt reply (a.length + 4) 2 = some 3 := hread
    rw [hread, Option.bind_some, if_pos rfl]
    rfl
  | link ifinfo attrs =>
    rw [hbody] at hread hm hparts
    have hread : numberAt reply (a.length + 4) 2 = some 16 := hread
    obtain ⟨hinfo, hnames⟩ : ifinfo.length = 16 ∧ ∀ x ∈ attrs, x.type = 3 → 0 ∈ x.payload := hm
    have hlen : 16 + (NlBody.link ifinfo attrs).bytes.length = 32 + (attrBytes attrs).length := by
      simp only [NlBody.bytes, List.length_append, hinfo]
      omega
    rw [hread, Option.bind_some, if_neg (by decide), if_pos rfl, hlen, printLink_bytes hinfo hnames hhead hparts]
    rfl
  | route rtmsg attrs =>
    rw [hbody] at hread hm hparts
    have hread : numberAt reply (a.length + 4) 2 = some 24 := hread
    obtain ⟨hrt, haddr⟩ : rtmsg.length = 12 ∧ ∀ x ∈ attrs, x.type = 1 ∨ x.type = 5 → 4 ≤ x.payload.length := hm
    have hlen : 16 + (NlBody.route rtmsg attrs).bytes.length = 28 + (attrBytes attrs).length := by
      simp only [NlBody.bytes, List.length_append, hrt]
      omega
    rw [hread, Option.bind_some, if_neg (by decide), if_neg (by decide), if_pos rfl, hlen,
      printRoute_bytes hrt haddr hhead hparts]
    rfl
  | other type payload =>
    rw [hbody] at hread hm
    have hread : numberAt reply (a.length + 4) 2 = some type := hread
    obtain ⟨-, h3, h16, h24⟩ : type < 2 ^ 16 ∧ type ≠ 3 ∧ type ≠ 16 ∧ type ≠ 24 := hm
    rw [hread, Option.bind_some, if_neg h3, if_neg h16, if_neg h24]
    rfl

/-! ## Datagrams -/

/-- **A datagram**: what is whole in the buffer is printed. -/
theorem parseReply_datagram {ms : List NlMsg} (hms : ∀ m ∈ ms, m.body.Plain) (stale : List UInt8) :
    parseReply ((datagram ms).take iflistReplyBuffer ++ stale) ((datagram ms).take iflistReplyBuffer).length =
      some ((wholeMessages ms).any fun m => m.body.isDone, (wholeMessages ms).flatMap fun m => m.body.lines) := by
  generalize hreply : (datagram ms).take iflistReplyBuffer ++ stale = reply
  have hfit : ((0 : ℕ) : ℤ) + ((datagram ms).take iflistReplyBuffer).length ≤ reply.length := by
    rw [← hreply, List.length_append]
    omega
  have hrecords := records_mapM_cut (f := nlmsgFormat) (h := fun pos len => handleMessage reply pos len)
    (g := fun m => (m.body.isDone, m.body.lines)) [] stale iflistReplyBuffer (fun m _ => m.isRecord) hreply.symm
    (fun a m tail hm hreply => handleMessage_bytes m (hms m hm) hreply)
  unfold parseReply
  rw [read_eq hfit, Option.bind_some]
  rw [List.length_nil] at hrecords
  rw [show datagram ms = encodeRecords (ms.map NlMsg.bytes) from rfl, hrecords, Option.map_some, List.any_map,
    List.flatMap_map]
  rfl

/-- **The listing**: whatever errors `recvmsg` returns in between, and whatever is in the buffer at first, the messages
that are whole in the buffer are printed as they were sent, one after the other, up to the first datagram with an end
among them; nothing else ends the loop. -/
theorem parseReplies_sent {rs : List (Option (List NlMsg))} (hrs : ∀ ms ∈ rs.filterMap id, ∀ m ∈ ms, m.body.Plain)
    (reply : List UInt8) :
    parseReplies reply (rs.map (Option.map datagram)) =
      some (((rs.filterMap id).map wholeMessages).any (fun ms => ms.any fun m => m.body.isDone),
        (upToEnd ((rs.filterMap id).map wholeMessages)).flatten.flatMap fun m => m.body.lines) := by
  induction rs generalizing reply with
  | nil => rfl
  | cons r rs ih =>
    cases r with
    | none =>
      -- an error
      have hnone : parseReply reply (-1) = some (false, []) := by
        unfold parseReply RecordFormat.read
        rfl
      have hrest := ih hrs reply
      rw [List.map_cons, Option.map_none, parseReplies, recvmsg]
      simp only
      rw [hnone, Option.bind_some, if_neg (by decide), hrest]
      rfl
    | some ms =>
      have hcons : (some ms :: rs).filterMap id = ms :: rs.filterMap id := rfl
      rw [hcons] at hrs ⊢
      have hms : ∀ m ∈ ms, m.body.Plain := hrs ms List.mem_cons_self
      have hrest := ih fun ms hmem => hrs ms (List.mem_cons_of_mem _ hmem)
      rw [List.map_cons, Option.map_some, parseReplies, recvmsg]
      simp only
      rw [parseReply_datagram hms, Option.bind_some, List.map_cons, List.any_cons, upToEnd]
      cases hend : (wholeMessages ms).any fun m => m.body.isDone with
      | true => rw [if_pos rfl, if_pos rfl, Bool.true_or, List.flatten_singleton]
      | false =>
        rw [if_neg Bool.false_ne_true, if_neg Bool.false_ne_true, Bool.false_or, hrest, Option.map_some, List.flatten_cons,
          List.flatMap_append]

/-- A route with two attributes, and one without an address. -/
def demoRoute : NlMsg where
  rest := List.replicate 10 0
  body := .route [2, 24, 0, 0, 254, 3, 0, 1, 0, 0, 0, 0]
    [⟨1, [10, 0, 0, 0], by decide, by decide⟩, ⟨8, [7], by decide, by decide⟩, ⟨5, [10, 0, 0, 1], by decide, by decide⟩]
  length_rest := by decide
  short := by decide

def demoDefault : NlMsg := ⟨List.replicate 10 0, .route [2, 0, 0, 0, 254, 3, 0, 1, 0, 0, 0, 0] [], by decide, by decide⟩

def demoDone : NlMsg := ⟨List.replicate 10 0, .done [0, 0, 0, 0], by decide, by decide⟩

/-- An error, two datagrams, and one behind the end. -/
def demoReceived : List (Option (List NlMsg)) :=
  [none, some [demoRoute], some [demoDefault, demoDone], some [demoRoute]]

theorem parseReplies_sent_demo :
    demoRoute.body.lines = [.here, .attribute 1, .attribute 8, .attribute 5, .route (.ntop [10, 0, 0, 0]) 24 3 (.ntop [10, 0, 0, 1])] ∧
      demoDefault.body.lines = [.here, .route .uninitialised 0 3 .uninitialised] ∧
      parseReplies [1, 2, 3] (demoReceived.map (Option.map datagram)) =
        some (((demoReceived.filterMap id).map wholeMessages).any (fun ms => ms.any fun m => m.body.isDone),
          (upToEnd ((demoReceived.filterMap id).map wholeMessages)).flatten.flatMap fun m => m.body.lines) :=
  ⟨by decide +kernel, by decide +kernel, parseReplies_sent (by decide +kernel) [1, 2, 3]⟩

/-! ## Any bytes -/

/-- **The walk over any bytes**: the loops over messages and attributes come to an end, after the records of `records`;
the messages that are found lie one behind the other inside of what was received, and the attributes of a message one
behind the other inside of the message. -/
theorem reply_walk (reply : List UInt8) (len : ℤ) :
    (∀ (f : RecordFormat) (pos : ℕ) (left : ℤ), f.records reply pos left =
      (f.sizeAt reply pos left).elim [] fun n => (pos, n) :: f.records reply (pos + align n) (left - align n)) ∧
    (nlmsgFormat.records reply 0 len).Pairwise (fun x y => x.1 + x.2 ≤ y.1) ∧
      ∀ x ∈ nlmsgFormat.records reply 0 len, ((x.1 + x.2 : ℕ) : ℤ) ≤ len ∧
        ∀ off : ℕ, (rtaFormat.records reply (x.1 + off) (x.2 - off)).Pairwise (fun y z => y.1 + y.2 ≤ z.1) ∧
          ∀ y ∈ rtaFormat.records reply (x.1 + off) (x.2 - off), x.1 + off ≤ y.1 ∧ y.1 + y.2 ≤ x.1 + x.2 := by
  refine ⟨fun f pos left => ?_, records_apart _ _ _ _, fun x hx => ?_⟩
  · rw [records_eq]
    cases f.sizeAt reply pos left with
    | none => rfl
    | some n => rfl
  obtain ⟨-, -, -, hend, -⟩ := records_inside hx
  refine ⟨by omega, fun off => ⟨records_apart _ _ _ _, fun y hy => ?_⟩⟩
  obtain ⟨hy1, -, -, hy2, -⟩ := records_inside hy
  omega

/-! ## Reading outside of the buffer -/

theorem mapM_isSome {α β : Type} {f : α → Option β} {l : List α} : (l.mapM f).isSome ↔ ∀ x ∈ l, (f x).isSome := by
  induction l with
  | nil => simp
  | cons x l ih =>
    rw [List.mapM_cons]
    cases hx : f x with
    | none => simp [hx]
    | some y =>
      cases hl : l.mapM f with
      | none =>
        rw [hl] at ih
        simp only [Option.isSome_none, Bool.false_eq_true, false_iff] at ih
        simp only [bind, Option.bind, Option.isSome_none, Bool.false_eq_true, List.mem_cons, forall_eq_or_imp, false_iff]
        exact fun h => ih h.2
      | some ys =>
        rw [hl] at ih
        simp only [Option.isSome_some, true_iff] at ih
        simp only [bind, Option.bind, pure, Option.isSome_some, List.mem_cons, forall_eq_or_imp, hx, true_and, true_iff]
        exact ih

theorem numberAt_inside {pos w : ℕ} (h : pos + w ≤ reply.length) :
    numberAt reply pos w = some (leNat (slice reply pos (pos + w))) := by
  unfold numberAt bytesAt
  rw [if_pos h, Option.map_some]

theorem numberAt_outside {pos w : ℕ} (h : reply.length < pos + w) : numberAt reply pos w = none := by
  unfold numberAt bytesAt
  rw [if_neg (by omega), Option.map_none]

/-- `rta_type` of the attribute at `attr`. -/
def rtaType (reply : List UInt8) (attr : ℕ) : ℕ := leNat (slice reply (attr + 2) (attr + 4))

/-- What has to be in the buffer, apart from the heads of the messages and attributes. -/
structure ReadsInside (reply : List UInt8) (pos len : ℕ) : Prop where
  link : leNat (slice reply (pos + 4) (pos + 6)) = 16 → ∀ x ∈ rtaFormat.records reply (pos + 32) (len - 32),
    rtaType reply x.1 = 3 → 0 ∈ reply.drop (x.1 + 4)
  route : leNat (slice reply (pos + 4) (pos + 6)) = 24 → pos + 21 ≤ reply.length ∧
    (leNat (slice reply (pos + 20) (pos + 21)) = 254 → pos + 22 ≤ reply.length ∧
      ∀ x ∈ rtaFormat.records reply (pos + 28) (len - 28), rtaType reply x.1 = 1 ∨ rtaType reply x.1 = 5 →
        x.1 + 8 ≤ reply.length)

/-- The head of an attribute is inside. -/
theorem attr_inside {pos off len : ℕ} {left : ℤ} {x : ℕ × ℕ} (hmsg : pos + len ≤ reply.length) (hleft : left + off = len)
    (hx : x ∈ rtaFormat.records reply (pos + off) left) : pos + off ≤ x.1 ∧ x.1 + 4 ≤ reply.length := by
  obtain ⟨h1, -, h3, h4, -⟩ := records_inside hx
  have h3 : 4 ≤ x.2 := h3
  omega

theorem printLinkAttr_isSome {pos attr : ℕ} (hattr : pos + 32 ≤ attr ∧ attr + 4 ≤ reply.length) :
    (printLinkAttr reply pos attr).isSome ↔ (rtaType reply attr = 3 → 0 ∈ reply.drop (attr + 4)) := by
  unfold printLinkAttr
  rw [numberAt_inside (by omega), numberAt_inside (by omega : pos + 20 + 4 ≤ reply.length), Option.bind_some]
  show (if rtaType reply attr = 3 then _ else _ : Option (List RtOut)).isSome ↔ _
  by_cases h3 : rtaType reply attr = 3
  · unfold stringAt
    rw [if_pos h3, Option.bind_some, Option.isSome_map]
    by_cases hnul : 0 ∈ reply.drop (attr + 4)
    · simp [hnul]
    · simp [hnul, h3]
  · rw [if_neg h3]
    simp [h3]

theorem routeAttr_isSome {attr : ℕ} (hattr : attr + 4 ≤ reply.length) :
    (routeAttr reply attr).isSome ↔ (rtaType reply attr = 1 ∨ rtaType reply attr = 5 → attr + 8 ≤ reply.length) := by
  unfold routeAttr
  rw [numberAt_inside (by omega), Option.bind_some]
  show (if rtaType reply attr = 1 ∨ rtaType reply attr = 5 then _ else _ : Option (ℕ × List UInt8)).isSome ↔ _
  by_cases h15 : rtaType reply attr = 1 ∨ rtaType reply attr = 5
  · unfold bytesAt
    rw [if_pos h15, Option.isSome_map]
    by_cases h8 : attr + 8 ≤ reply.length
    · simp [h8]
    · simp [h8, h15]
  · rw [if_neg h15]
    simp [h15]

theorem rtnlPrintLink_isSome {pos len : ℕ} (hmsg : pos + len ≤ reply.length) :
    (rtnlPrintLink reply pos len).isSome ↔ ∀ x ∈ rtaFormat.records reply (pos + 32) (len - 32),
      rtaType reply x.1 = 3 → 0 ∈ reply.drop (x.1 + 4) := by
  unfold rtnlPrintLink
  rw [read_eq (by push_cast; omega), Option.bind_some, Option.isSome_map, mapM_isSome]
  exact forall₂_congr fun x hx => printLinkAttr_isSome (attr_inside hmsg (sub_add_cancel _ _) hx)

theorem rtnlPrintRoute_isSome {pos len : ℕ} (hmsg : pos + len ≤ reply.length) :
    (rtnlPrintRoute reply pos len).isSome ↔ pos + 21 ≤ reply.length ∧
      (leNat (slice reply (pos + 20) (pos + 21)) = 254 → pos + 22 ≤ reply.length ∧
        ∀ x ∈ rtaFormat.records reply (pos + 28) (len - 28), rtaType reply x.1 = 1 ∨ rtaType reply x.1 = 5 →
          x.1 + 8 ≤ reply.length) := by
  unfold rtnlPrintRoute
  by_cases h21 : pos + 21 ≤ reply.length
  swap
  · rw [numberAt_outside (by omega)]
    simp [h21]
  rw [numberAt_inside (by omega : pos + 20 + 1 ≤ reply.length), Option.bind_some]
  show (if leNat (slice reply (pos + 20) (pos + 21)) ≠ 254 then _ else _ : Option (List RtOut)).isSome ↔ _
  by_cases hmain : leNat (slice reply (pos + 20) (pos + 21)) = 254
  swap
  · rw [if_pos hmain]
    simp [h21, hmain]
  rw [if_neg (not_not.2 hmain), numberAt_inside (by omega), Option.bind_some]
  by_cases h22 : pos + 22 ≤ reply.length
  swap
  · rw [numberAt_outside (by omega)]
    simp [h22, hmain]
  rw [numberAt_inside (by omega : pos + 21 + 1 ≤ reply.length), Option.bind_some, read_eq (by push_cast; omega),
    Option.bind_some, Option.isSome_map, mapM_isSome]
  have hattrs : (∀ x ∈ rtaFormat.records reply (pos + 28) (len - 28), (routeAttr reply x.1).isSome = true) ↔
      ∀ x ∈ rtaFormat.records reply (pos + 28) (len - 28), rtaType reply x.1 = 1 ∨ rtaType reply x.1 = 5 →
        x.1 + 8 ≤ reply.length :=
    forall₂_congr fun x hx => routeAttr_isSome (attr_inside hmsg (sub_add_cancel _ _) hx).2
  rw [hattrs]
  simp only [h21, h22, hmain, true_and, true_implies]

theorem handleMessage_isSome {pos len : ℕ} (hlen : 16 ≤ len) (hmsg : pos + len ≤ reply.length) :
    (handleMessage reply pos len).isSome ↔ ReadsInside reply pos len := by
  have hparts : ReadsInside reply pos len ↔ _ ∧ _ := ⟨fun h => And.intro h.link h.route, fun h => ⟨h.1, h.2⟩⟩
  rw [hparts, ← rtnlPrintLink_isSome hmsg, ← rtnlPrintRoute_isSome hmsg]
  unfold handleMessage
  rw [numberAt_inside (by omega), Option.bind_some]
  generalize htype : leNat (slice reply (pos + 4) (pos + 4 + 2)) = type
  by_cases h3 : type = 3
  · simp [h3]
  by_cases h16 : type = 16
  · simp [h16]
  by_cases h24 : type = 24
  · simp [h24]
  simp [h3, h16, h24]

/-- **The reads outside of the buffer**: whatever the bytes are, `nlmsg_len` and `rta_len` and the rest of the heads are
read inside of what was received; the program leaves its buffer exactly for names without a NUL, routes that are too
short, and addresses that are too short, at the end of the buffer. -/
theorem parseReply_isSome {len : ℤ} (hlen : len ≤ reply.length) :
    (parseReply reply len).isSome ↔ ∀ x ∈ nlmsgFormat.records reply 0 len, ReadsInside reply x.1 x.2 := by
  unfold parseReply
  rw [read_eq (by push_cast; omega), Option.bind_some, Option.isSome_map, mapM_isSome]
  refine forall₂_congr fun x hx => ?_
  obtain ⟨-, -, h3, h4, -⟩ := records_inside hx
  exact handleMessage_isSome h3 (by omega)

/-- A route without a `struct rtmsg`, at the end of the buffer. -/
def shortRoute : List UInt8 := leBytes 4 16 ++ leBytes 2 24 ++ List.replicate 10 0

theorem parseReply_isSome_demo :
    parseReply shortRoute 16 = none ∧
      ((parseReply shortRoute 16).isSome ↔ ∀ x ∈ nlmsgFormat.records shortRoute 0 16, ReadsInside shortRoute x.1 x.2) :=
  ⟨by decide +kernel, parseReply_isSome (by decide)⟩

end HookKernel
