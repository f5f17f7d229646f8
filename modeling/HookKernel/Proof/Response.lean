import HookKernel.Spec.Response

/-!
# The response buffer takes the front of the response

However curl splits the response, after every call of `receive_callback` the buffer
holds the first 511 bytes received and zeros behind them.

* `RespBuffer.Holds.receive`: one chunk, before, across or behind the limit.
* `response_received`: any sequence of chunks.
-/

namespace HookKernel

open Lib

variable {mem : RespBuffer} {total : List UInt8}

/-! ## The machine integers -/

theorem toInt_of_toNat {p : BitVec 32} (h : p.toNat ≤ 511) : p.toInt = p.toNat :=
  BitVec.toInt_eq_toNat_of_lt (by omega)

theorem toNat_of_toInt {p : BitVec 32} {n : ℕ} (h : p.toInt = n) (hn : n ≤ 511) : p.toNat = n := by
  rw [BitVec.toInt_eq_toNat_cond] at h
  have := p.isLt
  split at h <;> omega

theorem toNat_signExtend {p : BitVec 32} (h : p.toNat ≤ 511) : (p.signExtend 64).toNat = p.toNat := by
  rw [BitVec.signExtend_eq_setWidth_of_msb_false (BitVec.msb_eq_false_iff_two_mul_lt.2 (by omega)),
    BitVec.toNat_setWidth, Nat.mod_eq_of_lt (by omega)]

/-- `size * nmemb` is the length of the chunk. -/
theorem Chunk.toNat_mul (c : Chunk) : (c.size * c.nmemb).toNat = c.contents.length := by
  rw [BitVec.toNat_mul, c.length_eq, Nat.mod_eq_of_lt c.no_overflow]

theorem toNat_room {mem : RespBuffer} (h : mem.pos.toNat ≤ 511) : mem.room.toNat = 511 - mem.pos.toNat := by
  have hsub : (511 - mem.pos).toNat = 511 - mem.pos.toNat := by
    rw [BitVec.toNat_sub_of_le (by rw [BitVec.le_def]; exact h)]
    rfl
  rw [RespBuffer.room, toNat_signExtend (by omega), hsub]

/-- The clamp takes the smaller one. -/
theorem toNat_realsize (c : Chunk) (h : mem.pos.toNat ≤ 511) :
    (mem.realsize c.size c.nmemb).toNat = min c.contents.length (511 - mem.pos.toNat) := by
  have hroom := toNat_room h
  have hmul := c.toNat_mul
  unfold RespBuffer.realsize
  split
  · rename_i hgt
    rw [gt_iff_lt, BitVec.lt_def] at hgt
    omega
  · rename_i hgt
    rw [gt_iff_lt, BitVec.lt_def] at hgt
    omega

/-! ## One chunk -/

theorem RespBuffer.Holds.toNat_pos (h : mem.Holds total) : mem.pos.toNat = min total.length 511 :=
  toNat_of_toInt h.pos (Nat.min_le_right _ _)

/-- The whole of `buff`. -/
theorem RespBuffer.Holds.buff_eq (h : mem.Holds total) :
    mem.buff = total.take (min total.length 511) ++ List.replicate (512 - min total.length 511) 0 := by
  rw [← List.take_append_drop (min total.length 511) mem.buff, h.before]
  congr 1
  apply List.ext_getElem?
  intro i
  rw [List.getElem?_drop, List.getElem?_replicate]
  split
  · exact h.zeros _ (by omega) (by omega)
  · exact List.getElem?_eq_none (by rw [mem.size]; omega)

theorem RespBuffer.holds_of_buff {n : ℕ} (hn : n = min total.length 511) (hpos : mem.pos.toNat = n)
    (hbuff : mem.buff = total.take n ++ List.replicate (512 - n) 0) : mem.Holds total := by
  have hlen : (total.take n).length = n := List.length_take_of_le (by omega)
  subst hn
  refine ⟨?_, ?_, ?_⟩
  · rw [toInt_of_toNat (by omega), hpos]
  · rw [hbuff, List.take_left' hlen]
  · intro i hi hle
    rw [hbuff, List.getElem?_append_right (by omega), List.getElem?_replicate, if_pos (by omega)]

theorem respBuffer_zeroed : RespBuffer.zeroed.Holds [] :=
  RespBuffer.holds_of_buff rfl rfl rfl

/-- Bytes that fit are stored behind the response so far. -/
theorem RespBuffer.take_eq (contents : List UInt8) (r : BitVec 64)
    (hbuff : mem.buff = total ++ List.replicate (512 - total.length) 0) (hpos : mem.pos.toNat = total.length) (hsrc : r.toNat ≤ contents.length) (hfit : total.length + r.toNat ≤ 511) :
    ∃ mem', mem.take contents r = some mem' ∧ mem'.pos.toNat = total.length + r.toNat ∧
      mem'.buff = total ++ contents.take r.toNat ++ List.replicate (512 - (total.length + r.toNat)) 0 := by
  have hcopy : copyInto mem.buff mem.pos.toNat contents r.toNat =
      some (total ++ contents.take r.toNat ++ List.replicate (512 - total.length - r.toNat) 0) := by
    rw [hbuff, hpos]
    exact copyInto_filled hsrc (by omega)
  have hnonneg : ¬ mem.pos.toInt < 0 := by
    rw [toInt_of_toNat (by omega)]
    omega
  unfold RespBuffer.take
  rw [if_neg hnonneg]
  split
  · rename_i hnone
    rw [hcopy] at hnone
    cases hnone
  · rename_i buff hsome
    rw [hcopy, Option.some.injEq] at hsome
    refine ⟨_, rfl, ?_, ?_⟩
    · rw [BitVec.toNat_setWidth, BitVec.toNat_add, toNat_signExtend (by omega), hpos]
      omega
    · rw [← Nat.sub_sub]
      exact hsome.symm

/-- **One chunk**: the call returns its size, and the buffer holds the front of what has been received. -/
theorem RespBuffer.Holds.receive (h : mem.Holds total) (c : Chunk) :
    ∃ mem', mem.receive c = some (mem', c.size * c.nmemb) ∧ mem'.Holds (total ++ c.contents) := by
  have hp := h.toNat_pos
  have hbuff := h.buff_eq
  have hslt : mem.pos.slt 511 = true ↔ total.length < 511 := by
    rw [BitVec.slt_iff_toInt_lt, h.pos]
    show ((min total.length 511 : ℕ) : ℤ) < 511 ↔ _
    omega
  unfold RespBuffer.receive
  by_cases hlt : total.length < 511
  · -- there is room: the front of the chunk is copied behind what is there
    have hn : min total.length 511 = total.length := by omega
    rw [hn] at hp hbuff
    rw [List.take_length] at hbuff
    have hr : (mem.realsize c.size c.nmemb).toNat = min c.contents.length (511 - total.length) := by
      rw [toNat_realsize c (by omega), hp]
    obtain ⟨mem', htake, hpos', hbuff'⟩ :=
      RespBuffer.take_eq c.contents (mem.realsize c.size c.nmemb) hbuff hp (by omega) (by omega)
    rw [if_pos (hslt.2 hlt), htake]
    refine ⟨mem', rfl, RespBuffer.holds_of_buff ?_ hpos' ?_⟩
    · rw [hr, List.length_append]
      omega
    · rw [hbuff', List.take_length_add_append]
  · -- the buffer is full
    have hn : min total.length 511 = 511 := by omega
    have hlen : (total.take 511).length = 511 := List.length_take_of_le (by omega)
    rw [hn] at hp hbuff
    have hset : mem.buff.set 511 0 = total.take 511 ++ [0] := by
      rw [hbuff, List.set_append_right _ _ (by omega), hlen]
      rfl
    rw [if_neg (by rw [hslt]; exact hlt)]
    refine ⟨_, rfl, RespBuffer.holds_of_buff (n := 511) ?_ hp ?_⟩
    · rw [List.length_append]
      omega
    · rw [List.take_append_of_le_length (by omega)]
      exact hset

/-! ## The whole response -/

theorem Received.receive {userp : Option RespBuffer} (h : Received userp total) (c : Chunk) :
    ∃ userp', receiveCallback userp c = some (userp', (responseSpec total c).2) ∧
      Received userp' (responseSpec total c).1 := by
  obtain ⟨mem, rfl, hmem⟩ := h
  obtain ⟨mem', hrec, hmem'⟩ := hmem.receive c
  refine ⟨some mem', ?_, mem', rfl, hmem'⟩
  have hret : c.size * c.nmemb = BitVec.ofNat 64 c.contents.length := by
    rw [← c.toNat_mul, BitVec.ofNat_toNat, BitVec.setWidth_eq]
  rw [receiveCallback, hrec, responseSpec, ← hret]
  rfl

theorem Received.tracks {userp : Option RespBuffer} (h : Received userp total) (cs : List Chunk) :
    Tracks Received receiveCallback responseSpec userp total cs := by
  induction cs generalizing userp total with
  | nil => exact h
  | cons c cs ih =>
    obtain ⟨userp', hrec, hnext⟩ := h.receive c
    exact ⟨h, userp', hrec, ih hnext⟩

theorem Received.deliver {userp : Option RespBuffer} (h : Received userp total) (cs : List Chunk) :
    ∃ userp', deliver userp cs = some userp' ∧ Received userp' (total ++ response cs) := by
  induction cs generalizing userp total with
  | nil => exact ⟨userp, rfl, by rw [response, List.flatMap_nil, List.append_nil]; exact h⟩
  | cons c cs ih =>
    obtain ⟨userp₁, hrec, hnext⟩ := h.receive c
    obtain ⟨userp', hdel, hlast⟩ := ih hnext
    have hall : (responseSpec total c).2.toNat = c.contents.length := by
      rw [responseSpec, BitVec.toNat_ofNat, Nat.mod_eq_of_lt]
      rw [c.length_eq]
      exact c.no_overflow
    refine ⟨userp', ?_, ?_⟩
    · rw [HookKernel.deliver, hrec, Option.bind_some, if_pos hall]
      exact hdel
    · rw [response, List.flatMap_cons, ← List.append_assoc]
      exact hlast

/-- The front of the response determines the buffer. -/
theorem RespBuffer.Holds.eq_front (h : mem.Holds total) : mem = RespBuffer.front total := by
  have htake : total.take 511 = total.take (min total.length 511) := by
    rw [List.take_eq_take_min, Nat.min_comm]
  have hbuff := h.buff_eq
  have hpos : mem.pos = BitVec.ofNat 32 (min total.length 511) := by
    apply BitVec.eq_of_toNat_eq
    rw [h.toNat_pos, BitVec.toNat_ofNat, Nat.mod_eq_of_lt (by omega)]
  rw [← htake] at hbuff
  obtain ⟨buff, pos, size⟩ := mem
  obtain rfl : pos = _ := hpos
  obtain rfl : buff = _ := hbuff
  rfl

/-- **The response is accumulated**, whatever chunks it comes in: every call stays inside `buff` and
returns the size of its chunk, after every call `buff` holds the first 511 bytes received and zeros
behind them, and the buffer at the end is determined by the response. -/
theorem response_received (cs : List Chunk) :
    Tracks Received receiveCallback responseSpec (some RespBuffer.zeroed) [] cs ∧
    deliver (some RespBuffer.zeroed) cs = some (some (RespBuffer.front (response cs))) := by
  have h0 : Received (some RespBuffer.zeroed) [] := ⟨_, rfl, respBuffer_zeroed⟩
  refine ⟨h0.tracks cs, ?_⟩
  obtain ⟨_, hdel, mem, rfl, hmem⟩ := h0.deliver cs
  rw [List.nil_append] at hmem
  rw [hdel, hmem.eq_front]

end HookKernel
