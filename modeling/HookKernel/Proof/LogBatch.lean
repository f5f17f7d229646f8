import HookKernel.Spec.LogBatch

/-!
# Log records and their slots

A slot of 25 bytes has room for 24 characters. A text of 24 still stands in it
complete, but the same slot also results from a name with a comma at its end, whose
text is cut by one. So exactly the texts of at most 23 characters survive.

* `sendLoop_eq`: what the loop leaves in `buffs`.
* `messageOf_inj`: with short texts the message determines the batch.
* `encodes_iff`: a batch survives its encoding exactly if all its texts are short.
-/

namespace HookKernel

open Lib

variable {data data' : HookData} {got got' : ℕ → HookData} {count : ℤ} {b b' : List HookData}

/-! ## The text of a record -/

theorem logText_ne_nul {c : UInt8} (h : c ∈ logText data) : c ≠ 0 := by
  rintro rfl
  have h0 : 0 ∈ decimalText 16 data.eclipseTime.toInt ∨ 0 ∈ data.taskCom.1 := by
    simpa [logText] using h
  rcases h0 with h0 | h0
  · rcases decimalText_chars h0 with h0 | h0
    · cases h0
    · exact absurd h0.1 (by decide)
  · exact data.taskCom.2 h0

theorem length_logText (data : HookData) : (logText data).length =
    (if data.eclipseTime.toInt < 0 then 1 else 0) + max 16 (Nat.digits 10 data.eclipseTime.toInt.natAbs).length +
      data.taskCom.1.length + 2 := by
  unfold logText
  rw [List.length_append, List.length_append, List.length_append, length_decimalText, List.length_singleton,
    List.length_singleton]
  omega

theorem short_iff : data.Short ↔ (logText data).length ≤ 23 := by
  have hlen := length_logText data
  unfold HookData.Short
  omega

/-- **A complete text is read back.** -/
theorem readLog_logText (data : HookData) : readLog (logText data) = data.pair := by
  have hbar : ∀ c ∈ decimalText 16 data.eclipseTime.toInt, decide (c ≠ 124) = true := by
    intro c hc
    rw [decide_eq_true_eq]
    rintro rfl
    rcases decimalText_chars hc with h | h
    · cases h
    · exact absurd h.2 (by decide)
  have htext : logText data = decimalText 16 data.eclipseTime.toInt ++ 124 :: (data.taskCom.1 ++ [44]) := by
    simp [logText]
  have htake : (logText data).takeWhile (· ≠ 124) = decimalText 16 data.eclipseTime.toInt := by
    rw [htext, List.takeWhile_append_of_pos hbar, List.takeWhile_cons_of_neg (by simp), List.append_nil]
  have hdrop : (logText data).dropWhile (· ≠ 124) = 124 :: (data.taskCom.1 ++ [44]) := by
    rw [htext, List.dropWhile_append_of_pos hbar, List.dropWhile_cons_of_neg (by simp)]
  rw [readLog, htake, hdrop, readInt_decimalText, List.drop_one, List.tail_cons, List.dropLast_concat]
  rfl

theorem pair_inj (h : data.pair = data'.pair) : data = data' := by
  obtain ⟨time, comm, hle⟩ := data
  obtain ⟨time', comm', hle'⟩ := data'
  obtain ⟨htime, hcomm⟩ := Prod.mk.inj h
  obtain rfl : time = time' := BitVec.eq_of_toInt_eq htime
  obtain rfl : comm = comm' := Subtype.ext hcomm
  rfl

theorem logText_inj (h : logText data = logText data') : data = data' := by
  apply pair_inj
  rw [← readLog_logText, ← readLog_logText, h]

/-! ## Slots -/

/-- The slot of a record. -/
def slotOf (data : HookData) : List UInt8 :=
  (logText data).take 24 ++ [0] ++ List.replicate (24 - min (logText data).length 24) 0

theorem length_slotOf (data : HookData) : (slotOf data).length = logSize := by
  unfold slotOf logSize
  rw [List.length_append, List.length_append, List.length_take, List.length_singleton, List.length_replicate]
  omega

theorem nul_mem_slotOf (data : HookData) : 0 ∈ slotOf data :=
  List.mem_append_left _ (List.mem_append_right _ (List.mem_singleton_self 0))

/-- The C string in a slot. -/
theorem cstr_slotOf (data : HookData) : cstr (· == 0) (slotOf data) = (logText data).take 24 := by
  unfold slotOf
  rw [List.append_assoc, List.singleton_append]
  refine cstr_append (fun c hc => ?_) rfl
  rw [beq_eq_false_iff_ne]
  exact logText_ne_nul (List.mem_of_mem_take hc)

theorem cstr_slotOf_short (h : data.Short) : cstr (· == 0) (slotOf data) = logText data := by
  have hle := short_iff.1 h
  rw [cstr_slotOf, List.take_of_length_le (by omega)]

/-- **The slot of a short text** belongs to no other record. -/
theorem slotOf_inj (h : data.Short) (heq : slotOf data' = slotOf data) : data' = data := by
  have hle := short_iff.1 h
  have htake : (logText data').take 24 = logText data := by
    rw [← cstr_slotOf, heq, cstr_slotOf_short h]
  have hlen := congrArg List.length htake
  rw [List.length_take] at hlen
  apply logText_inj
  rw [← htake, List.take_of_length_le (by omega)]

/-! ## The message -/

/-- The message of a batch that is not empty: its slots, and an empty one. -/
def messageOf (b : List HookData) : List UInt8 := b.flatMap slotOf ++ List.replicate logSize 0

theorem length_messageOf (b : List HookData) : (messageOf b).length = logSize * (b.length + 1) := by
  rw [messageOf, List.length_append, length_flatMap_blocks length_slotOf, List.length_replicate, Nat.mul_succ]

theorem block_messageOf {i : ℕ} (h : b[i]? = some data) : block logSize (messageOf b) i = slotOf data :=
  block_flatMap length_slotOf _ h

/-- One `snprintf`, behind the slots so far. -/
theorem snprintf_eq (b : List HookData) (data : HookData) {k : ℕ} (hk : logSize ≤ k) :
    snprintf (b.flatMap slotOf ++ List.replicate k 0) (b.length * logSize) logSize (logText data) =
      some ((b ++ [data]).flatMap slotOf ++ List.replicate (k - logSize) 0) := by
  have hsize : logSize = 25 := rfl
  have hlen : ((logText data).take 24 ++ [0]).length = min (logText data).length 24 + 1 := by
    rw [List.length_append, List.length_take, List.length_singleton, Nat.min_comm]
  have hcopy : copyInto (b.flatMap slotOf ++ List.replicate k 0) (b.flatMap slotOf).length ((logText data).take 24 ++ [0])
      (min (logText data).length 24 + 1) = _ := copyInto_filled (Nat.le_of_eq hlen.symm) (by omega)
  rw [length_flatMap_blocks length_slotOf, Nat.mul_comm, List.take_of_length_le (Nat.le_of_eq hlen)] at hcopy
  refine hcopy.trans ?_
  have hzeros : List.replicate (k - (min (logText data).length 24 + 1)) (0 : UInt8) =
      List.replicate (24 - min (logText data).length 24) 0 ++ List.replicate (k - logSize) 0 := by
    rw [List.replicate_append_replicate]
    congr 1
    omega
  rw [hzeros, List.flatMap_append, List.flatMap_singleton, slotOf]
  simp only [List.append_assoc]

/-- **The loop**: after it the slots of all records stand in front of the zeros. -/
theorem sendLoop_eq (got : ℕ → HookData) : ∀ (left index k : ℕ), logSize * left ≤ k →
    sendLoop got left index (((List.range index).map got).flatMap slotOf ++ List.replicate k 0) =
      some (((List.range (index + left)).map got).flatMap slotOf ++ List.replicate (k - logSize * left) 0) := by
  intro left
  induction left with
  | zero => intro index k _; rfl
  | succ left ih =>
    intro index k hk
    rw [Nat.mul_succ] at hk
    have hone := snprintf_eq ((List.range index).map got) (got index) (k := k) (by omega)
    have hsnoc : (List.range index).map got ++ [got index] = (List.range (index + 1)).map got := by
      rw [List.range_succ, List.map_append, List.map_singleton]
    rw [List.length_map, List.length_range, hsnoc] at hone
    have hrest := ih (index + 1) (k - logSize) (by omega)
    rw [sendLoop, hone, Option.bind_some, hrest, Nat.add_assoc, Nat.add_comm 1 left, Nat.mul_succ, Nat.sub_sub,
      Nat.add_comm logSize]

theorem batchNumber_le (count : ℤ) : batchNumber count ≤ 10 := by
  unfold batchNumber
  split <;> omega

theorem length_batch (count : ℤ) (got : ℕ → HookData) : (batch count got).length = batchNumber count := by
  rw [batch, List.length_map, List.length_range]

/-- **What is sent.** -/
theorem kprobeQueueSend_eq (count : ℤ) (got : ℕ → HookData) :
    kprobeQueueSend count got = some (if batch count got = [] then none else some (messageOf (batch count got))) := by
  have hle := batchNumber_le count
  have hsize : logSize = 25 := rfl
  have hloop := sendLoop_eq got (batchNumber count) 0 (logSize * 11) (by rw [hsize]; omega)
  rw [Nat.zero_add] at hloop
  have hlen := length_batch count got
  have hrun : kprobeQueueSend count got =
      some (if batchNumber count > 0 then
        some (((batch count got).flatMap slotOf ++ List.replicate (logSize * 11 - logSize * batchNumber count) 0).take
          (logSize * (batchNumber count + 1))) else none) := by
    rw [kprobeQueueSend]
    exact congrArg (Option.map _) hloop
  rw [hrun]
  by_cases hz : batchNumber count = 0
  · have hnil : batch count got = [] := List.eq_nil_of_length_eq_zero (by omega)
    rw [if_neg (by omega), if_pos hnil]
  · have hnil : batch count got ≠ [] := fun h => by rw [h, List.length_nil] at hlen; omega
    have hslots := length_flatMap_blocks length_slotOf (batch count got)
    rw [hlen] at hslots
    rw [if_pos (by omega), if_neg hnil, Nat.mul_succ, ← hslots, List.take_length_add_append, List.take_replicate,
      Nat.min_eq_left (by rw [hslots, hsize]; omega)]
    rfl

/-- **With short texts the message determines the batch.** -/
theorem messageOf_inj (hb : ∀ data ∈ b, data.Short) (h : messageOf b' = messageOf b) : b' = b := by
  have hlen := congrArg List.length h
  rw [length_messageOf, length_messageOf] at hlen
  have hsize : logSize = 25 := rfl
  refine List.ext_getElem (by rw [hsize] at hlen; omega) fun i hi hi' => ?_
  have hblock : slotOf b'[i] = slotOf b[i] := by
    rw [← block_messageOf (List.getElem?_eq_getElem hi), h, block_messageOf (List.getElem?_eq_getElem hi')]
  exact slotOf_inj (hb _ (List.getElem_mem hi')) hblock

/-- **With short texts a reader recovers the batch.** -/
theorem readMessage_messageOf (hb : ∀ data ∈ b, data.Short) : readMessage (messageOf b) = b.map HookData.pair := by
  have hlen : (messageOf b).length / logSize - 1 = b.length := by
    rw [length_messageOf, Nat.mul_div_cancel_left _ (by decide), Nat.add_sub_cancel]
  unfold readMessage
  rw [hlen]
  refine List.ext_getElem (by rw [List.length_map, List.length_range, List.length_map]) fun i hi hi' => ?_
  rw [List.length_map] at hi'
  rw [List.getElem_map, List.getElem_map, List.getElem_range, block_messageOf (List.getElem?_eq_getElem hi'),
    cstr_slotOf_short (hb _ (List.getElem_mem hi')), readLog_logText]

/-! ## Surviving the encoding -/

theorem encodes_of_short (h : ∀ data ∈ batch count got, data.Short) : ∃ msg, Encodes count got msg := by
  refine ⟨_, kprobeQueueSend_eq count got, ?_, ?_, ?_⟩
  · intro buffs hbuffs i data hi
    split at hbuffs
    · cases hbuffs
    · obtain rfl := Option.some.inj hbuffs
      rw [block_messageOf hi]
      exact ⟨nul_mem_slotOf data, cstr_slotOf_short (h data (List.mem_of_getElem? hi))⟩
  · split
    · rename_i hnil
      rw [hnil]
      rfl
    · exact readMessage_messageOf h
  · intro count' got' hsame
    rw [kprobeQueueSend_eq] at hsame
    by_cases hnil : batch count got = []
    · by_cases hnil' : batch count' got' = []
      · rw [hnil, hnil']
      · rw [if_pos hnil, if_neg hnil'] at hsame
        cases hsame
    · by_cases hnil' : batch count' got' = []
      · rw [if_neg hnil, if_pos hnil'] at hsame
        cases hsame
      · rw [if_neg hnil, if_neg hnil'] at hsame
        exact messageOf_inj h (Option.some.inj (Option.some.inj hsame))

/-- A name with a comma behind it. -/
def HookData.comma (data : HookData) (h : data.taskCom.1.length < 15) : HookData where
  eclipseTime := data.eclipseTime
  taskCom := ⟨data.taskCom.1 ++ [44], by
    rw [List.mem_append]
    exact fun hmem => hmem.elim data.taskCom.2 (by decide)⟩
  taskCom_le := by
    rw [List.length_append, List.length_singleton]
    omega

/-- A text of 24 characters has the same slot as that with one more comma. -/
theorem slotOf_comma (h : data.taskCom.1.length < 15) (hlen : (logText data).length = 24) :
    slotOf (data.comma h) = slotOf data := by
  have htext : logText (data.comma h) = logText data ++ [44] := by
    simp [logText, HookData.comma]
  unfold slotOf
  rw [htext, List.length_append, List.take_append_of_le_length (by omega), hlen]
  rfl

/-- Exchanging one record for another with the same slot changes the batch, not the message. -/
theorem kprobeQueueSend_update {i : ℕ} (hslot : slotOf data' = slotOf (got i)) :
    kprobeQueueSend count (Function.update got i data') = kprobeQueueSend count got := by
  have hfun : slotOf ∘ Function.update got i data' = slotOf ∘ got := by
    rw [Function.comp_update, hslot, Function.update_eq_self_iff]
    rfl
  have hmsg : messageOf (batch count (Function.update got i data')) = messageOf (batch count got) := by
    simp only [messageOf, batch, List.flatMap_map]
    congr 2
  have hnil : batch count (Function.update got i data') = [] ↔ batch count got = [] := by
    rw [← List.length_eq_zero_iff, ← List.length_eq_zero_iff, length_batch, length_batch]
  rw [kprobeQueueSend_eq, kprobeQueueSend_eq, hmsg]
  simp only [hnil]

/-- A batch that survives its encoding has short texts only. -/
theorem short_of_encodes {msg : Option (List UInt8)} (h : Encodes count got msg) :
    ∀ data ∈ batch count got, data.Short := by
  intro data hmem
  obtain ⟨i, hi, hgot⟩ := List.mem_map.1 hmem
  rw [List.mem_range] at hi
  have hget : (batch count got)[i]? = some data := by
    rw [batch, List.getElem?_map, List.getElem?_range hi, Option.map_some, hgot]
  have hne : batch count got ≠ [] := List.ne_nil_of_mem hmem
  have hsend := kprobeQueueSend_eq count got
  rw [if_neg hne, h.sent, Option.some.injEq] at hsend
  have hstr := (h.slots _ hsend i data hget).2
  rw [block_messageOf hget, cstr_slotOf] at hstr
  have hlen := congrArg List.length hstr
  rw [List.length_take] at hlen
  by_contra hshort
  rw [short_iff] at hshort
  -- the text has 24 characters, so that the name has at most 6
  have hlong := length_logText data
  have hroom : data.taskCom.1.length < 15 := by omega
  have hslot : slotOf (data.comma hroom) = slotOf (got i) := by
    rw [hgot]
    exact slotOf_comma hroom (by omega)
  have hsame : kprobeQueueSend count (Function.update got i (data.comma hroom)) = some msg := by
    rw [kprobeQueueSend_update hslot, h.sent]
  have hget' : (batch count (Function.update got i (data.comma hroom)))[i]? = some (data.comma hroom) := by
    rw [batch, List.getElem?_map, List.getElem?_range hi, Option.map_some, Function.update_self]
  rw [h.distinct count _ hsame, hget, Option.some.injEq] at hget'
  have hcomm := congrArg (fun d => d.taskCom.1.length) hget'
  simp only [HookData.comma, List.length_append, List.length_singleton] at hcomm
  omega

/-- **A batch survives its encoding exactly if all its texts have at most 23 characters.** -/
theorem encodes_iff (count : ℤ) (got : ℕ → HookData) :
    (∃ msg, Encodes count got msg) ↔ ∀ data ∈ batch count got, data.Short :=
  ⟨fun ⟨_, h⟩ => short_of_encodes h, encodes_of_short⟩

/-- A call of 250 ns by `kworker`. -/
def kworkerRecord : HookData := ⟨250, ⟨[107, 119, 111, 114, 107, 101, 114], by decide⟩, by decide⟩

/-- **A name of 7 characters is too long** for its slot. -/
theorem kworker_lost : ¬ ∃ msg, Encodes 1 (fun _ => kworkerRecord) msg := by
  rintro ⟨msg, h⟩
  have hshort : kworkerRecord.Short := short_of_encodes h kworkerRecord (List.mem_singleton_self _)
  have hname : kworkerRecord.taskCom.1.length = 7 := rfl
  unfold HookData.Short at hshort
  omega

end HookKernel
