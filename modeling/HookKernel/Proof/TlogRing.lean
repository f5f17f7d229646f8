import HookKernel.Spec.Tlog

/-!
# The operations on the log buffer

* `RingOf c log claim taken rest`: the buffer holds the records `taken`, which the worker
  has claimed, and then `rest`.
* `RingOf.put`, `RingOf.claim`, `RingOf.release`: what the operations on the buffer make of them.
* `RingOf.pieces`: what the worker finds in the two pieces it claimed.
* `readSegment_segment`: a segment is read back.
-/

namespace HookKernel

open Lib

variable {c : TlogConf} {log log' : TlogLog} {k : TlogClaim} {text : List UInt8} {taken rest : List (List UInt8)}

/-! ## Texts and segments -/

theorem Printed.text_lt {p : Printed c.lineLen} (h : p.text = some text) : text.length < c.lineLen := by
  have hpos := c.lineLen_pos
  have hbuff := p.length_buff
  unfold Printed.text at h
  split at h
  · cases h
  · split at h
    · obtain rfl := Option.some.inj h
      rw [List.length_take]
      omega
    · obtain rfl := Option.some.inj h
      rw [List.length_take]
      omega

@[simp] theorem length_segment (text : List UInt8) : (segment text).length = text.length + 7 := by
  simp only [segment, List.length_append, length_leBytes, List.length_singleton]
  omega

theorem record_plain (h : c.segmentLog = false) (text : List UInt8) : c.record text = text := by
  simp [TlogConf.record, h]

theorem record_segment (h : c.segmentLog = true) (text : List UInt8) : c.record text = segment text := by
  simp [TlogConf.record, h]

/-- The fields of a segment that lies in the buffer. -/
theorem segment_fields {buff tail : List UInt8} {p q : ℕ} (h : slice buff p q = segment text ++ tail) (hpq : p ≤ q)
    (hq : q ≤ buff.length) :
    p + (text.length + 7) ≤ q ∧ slice buff p (p + 4) = leBytes 4 0xFF446154 ∧
      slice buff (p + 4) (p + 6) = leBytes 2 (text.length + 1) ∧ slice buff (p + 6) (p + 6 + text.length) = text := by
  have hseg := slice_split h hpq hq
  rw [length_segment] at hseg
  have hhead : slice buff p q = leBytes 4 0xFF446154 ++ (leBytes 2 (text.length + 1) ++ (text ++ ([0] ++ tail))) := by
    rw [h]
    simp only [segment, List.append_assoc]
  have h1 := slice_split hhead hpq hq
  rw [length_leBytes] at h1
  have h2 := slice_split h1.2.2 h1.1 hq
  rw [length_leBytes] at h2
  have h3 := slice_split h2.2.2 h2.1 hq
  exact ⟨hseg.1, h1.2.1, h2.2.1, h3.2.1⟩

/-- **A segment is read back.** -/
theorem readSegment_segment {buff tail : List UInt8} {p q : ℕ} (h : slice buff p q = segment text ++ tail)
    (hpq : p ≤ q) (hq : q ≤ buff.length) (hlen : text.length + 1 < 65536) (n : ℕ) :
    readSegment buff p n = some (some text, p + (segment text).length, n - (segment text).length) := by
  obtain ⟨hfit, hmagic, hsize, htext⟩ := segment_fields h hpq hq
  have hin : ¬ buff.length < p + 6 := by omega
  have hread : leNat (leBytes 2 (text.length + 1)) = text.length + 1 := leNat_leBytes_of_lt (by omega)
  have hok : ¬ (text.length + 1 = 0 ∨ buff.length < p + 6 + text.length) := by omega
  have hnum : leNat (leBytes 4 0xFF446154) = 0xFF446154 := leNat_leBytes_of_lt (by decide)
  have hplus : text.length + 1 + 6 = text.length + 7 := by omega
  unfold readSegment
  rw [if_neg hin, hmagic, if_neg (not_not_intro hnum), hsize, hread]
  simp only [Nat.add_sub_cancel, if_neg hok, htext, length_segment, hplus]

/-- No two texts give the same segment. -/
theorem segment_injective : Function.Injective segment := by
  intro a b h
  have hlen := congrArg List.length h
  rw [length_segment, length_segment, Nat.add_right_cancel_iff] at hlen
  unfold segment at h
  rw [hlen] at h
  exact List.append_cancel_left (List.append_cancel_right h)

/-! ## The records in the buffer -/

/-- `log->buffsize - TLOG_MAX_LINE_LEN` -/
def TlogConf.lim (c : TlogConf) : ℕ := c.buffsize - c.lineLen

/-- What the worker has claimed. -/
structure ClaimOf (c : TlogConf) (log : TlogLog) (k : TlogClaim) (old new taken rest : List (List UInt8)) : Prop where
  claimed : Claimed c.lim log.start k.stop (decide (0 < k.extend)) log.extEnd old new taken rest
  extend : 0 < k.extend → log.extEnd = log.start + k.len ∧ k.extlen = k.stop
  flat : k.extend = 0 → k.stop = log.start + k.len ∧ k.extlen = 0

/-- **The records in the buffer**: first those that the worker has claimed. -/
structure RingOf (c : TlogConf) (log : TlogLog) (claim : Option TlogClaim) (taken rest : List (List UInt8)) : Prop where
  length : log.buff.length = c.buffsize
  holds : ∃ old new, WrapHolds c.lim log.buff log.start log.fin log.extEnd old new ∧
    match claim with
    | none => taken = [] ∧ old ++ new = rest
    | some k => ClaimOf c log k old new taken rest

theorem lim_le (c : TlogConf) : c.lim ≤ c.buffsize := Nat.sub_le _ _

/-- The rest of the log does not matter. -/
theorem RingOf.congr {claim : Option TlogClaim} (h : RingOf c log claim taken rest) (hbuff : log'.buff = log.buff)
    (hstart : log'.start = log.start) (hfin : log'.fin = log.fin) (hext : log'.extEnd = log.extEnd) :
    RingOf c log' claim taken rest := by
  obtain ⟨hlen, old, new, hold, hclaim⟩ := h
  refine ⟨hbuff ▸ hlen, old, new, by rw [hbuff, hstart, hfin, hext]; exact hold, ?_⟩
  cases claim with
  | none => exact hclaim
  | some k =>
    refine ⟨?_, ?_, ?_⟩
    · rw [hstart, hext]
      exact hclaim.claimed
    · rw [hstart, hext]
      exact hclaim.extend
    · rw [hstart]
      exact hclaim.flat

theorem ringOf_init {mem : List UInt8} (h : mem.length = c.buffsize) (dropped waiters : ℕ) :
    RingOf c { buff := mem, start := 0, fin := 0, extEnd := 0, dropped := dropped, waiters := waiters } none [] [] :=
  ⟨h, [], [], wrapHolds_empty c.lim mem, rfl, rfl⟩

/-- **A record is put** where the worker sees room for a line. -/
theorem RingOf.put {claim : Option TlogClaim} {maxlen : ℤ} (h : RingOf c log claim taken rest) (hmax : maxlen < c.lineLen)
    (hroom : (c.lineLen : ℤ) ≤ log.room c maxlen) (hfits : (c.record text).length < c.lineLen) :
    ∃ log', log.put c text = some log' ∧ RingOf c log' claim taken (rest ++ [c.record text]) ∧
      log'.start = log.start ∧ log'.dropped = log.dropped ∧ log'.waiters = log.waiters := by
  obtain ⟨hlen, old, new, hold, hclaim⟩ := h
  generalize hr : c.record text = r at hfits ⊢
  obtain ⟨hs, he⟩ := hold.end_le
  unfold TlogConf.lim at hs he
  have hcopy : log.fin + r.length ≤ log.buff.length →
      log.put c text = some (if (c.buffsize : ℤ) - c.lineLen < log.fin + r.length then
        { log with buff := overwrite log.buff log.fin r, extEnd := log.fin + r.length, fin := 0 }
      else { log with buff := overwrite log.buff log.fin r, fin := log.fin + r.length }) := by
    intro hfit
    simp only [TlogLog.put]
    rw [hr, copyInto_eq_some (Nat.le_refl _) hfit, List.take_length, Option.map_some]
  rcases Nat.eq_zero_or_pos log.extEnd with hx | hx
  · -- the buffer has not wrapped
    have hfit : log.fin + r.length ≤ log.buff.length := by
      have hshape := hold.shape
      unfold TlogLog.room at hroom
      split at hroom
      · omega
      · split at hroom <;> omega
    have hwrap : (c.buffsize : ℤ) - c.lineLen < log.fin + r.length ↔ c.lim < log.fin + r.length := by
      unfold TlogConf.lim
      unfold TlogLog.room at hroom
      rw [hlen] at hfit
      omega
    rw [hx] at hold
    obtain ⟨rfl, hput⟩ := hold.put_flat hfit
    have hlen' : (overwrite log.buff log.fin r).length = c.buffsize := by rw [length_overwrite hfit, hlen]
    refine ⟨_, hcopy hfit, ?_, ?_⟩
    · refine ⟨?_, old ++ [r], [], ?_, ?_⟩
      · split <;> exact hlen'
      · unfold advance at hput
        by_cases hover : c.lim < log.fin + r.length
        · rw [if_pos (hwrap.2 hover)]
          rw [if_pos hover] at hput
          exact hput
        · rw [if_neg fun h => hover (hwrap.1 h)]
          rw [if_neg hover] at hput
          simp only [hx]
          exact hput
      · cases claim with
        | none =>
          obtain ⟨rfl, rfl⟩ := hclaim
          exact ⟨rfl, by rw [List.append_nil, List.append_nil]⟩
        | some k =>
          have hflat : k.extend = 0 := by
            rcases Nat.eq_zero_or_pos k.extend with h0 | h0
            · exact h0
            · have hmark := hclaim.claimed.marked (decide_eq_true h0)
              omega
          refine ⟨?_, fun h0 => by omega, fun _ => ?_⟩
          · have hc := hclaim.claimed
            rw [hx] at hc
            have hput := hc.put_flat (r := r)
            split <;> exact hput _
          · split <;> exact hclaim.flat hflat
    · split <;> exact ⟨rfl, rfl, rfl⟩
  · -- the buffer has wrapped, and the record ends in front of `start`
    have hend : log.fin + r.length < log.start := by
      have hshape := hold.shape
      unfold TlogLog.room at hroom
      split at hroom
      · rw [if_neg (by omega)] at hroom
        omega
      · rw [if_neg (by omega)] at hroom
        omega
    have hfit : log.fin + r.length ≤ log.buff.length := by omega
    have hno : ¬ (c.buffsize : ℤ) - c.lineLen < log.fin + r.length := by omega
    obtain ⟨-, hput⟩ := hold.put_wrap hx hend
    refine ⟨_, hcopy hfit, ?_, ?_⟩
    · rw [if_neg hno]
      refine ⟨by rw [length_overwrite hfit, hlen], old, new ++ [r], hput, ?_⟩
      cases claim with
      | none =>
        obtain ⟨rfl, rfl⟩ := hclaim
        exact ⟨rfl, (List.append_assoc _ _ _).symm⟩
      | some k => exact ⟨hclaim.claimed.put_wrap, hclaim.extend, hclaim.flat⟩
    · rw [if_neg hno]
      exact ⟨rfl, rfl, rfl⟩

/-- **The worker claims all there is.** -/
theorem RingOf.claim (h : RingOf c log none taken rest) (hdata : log.hasData = true) :
    RingOf c { log with dropped := 0 } (some log.claim) rest [] := by
  obtain ⟨hlen, old, new, hold, rfl, rfl⟩ := h
  refine ⟨hlen, old, new, hold, ?_⟩
  have hlim : c.lim ≤ log.buff.length := by rw [hlen]; exact lim_le c
  have hsome : log.fin ≠ log.start ∨ 0 < log.extEnd := by simpa [TlogLog.hasData] using hdata
  have hshape := hold.shape
  refine ⟨hold.claim hlim hsome, fun hx => ?_, fun hx => ?_⟩
  · simp only [TlogLog.claim] at hx ⊢
    have hnot : ¬ log.start < log.fin := by omega
    rw [if_neg hnot, if_pos hx]
    split <;> omega
  · simp only [TlogLog.claim] at hx ⊢
    have hlt : log.start < log.fin := by omega
    rw [if_pos hlt, if_neg (by omega)]
    omega

/-- **What the worker finds** in its two pieces. -/
theorem RingOf.pieces (h : RingOf c log (some k) taken rest) :
    ∃ a b, taken = a ++ b ∧ slice log.buff log.start (log.start + k.len) = a.flatten ∧
      slice log.buff 0 k.extlen = b.flatten ∧ log.start + k.len ≤ log.buff.length ∧ k.extlen ≤ log.buff.length := by
  obtain ⟨hlen, old, new, hold, hclaim⟩ := h
  have hlim : c.lim ≤ log.buff.length := by rw [hlen]; exact lim_le c
  rcases hold.read hlim hclaim.claimed with ⟨hb, h1, h2, h3⟩ | ⟨hb, h1, h2, t, h3, h4, h5, h6⟩
  · obtain ⟨hstop, hext⟩ := hclaim.flat (by simpa using hb)
    refine ⟨taken, [], (List.append_nil _).symm, ?_, ?_, by omega, by omega⟩
    · rw [← hstop]
      exact h3
    · rw [hext]
      exact slice_self _ 0
  · obtain ⟨hstop, hext⟩ := hclaim.extend (by simpa using hb)
    have hfin : log.fin ≤ c.lim := hold.end_le.2
    refine ⟨old, t, h6, ?_, ?_, by omega, by omega⟩
    · rw [← hstop]
      exact h3
    · rw [hext]
      exact h4

/-- **The worker releases what it has written.** -/
theorem RingOf.release (h : RingOf c log (some k) taken rest) : RingOf c (log.release k) none [] rest := by
  obtain ⟨hlen, old, new, hold, hclaim⟩ := h
  have hlim : c.lim ≤ log.buff.length := by rw [hlen]; exact lim_le c
  obtain ⟨old', new', hrest, hhold⟩ := hold.release hlim hclaim.claimed
  simp only [decide_eq_true_eq] at hhold
  exact ⟨hlen, old', new', hhold, rfl, hrest⟩

/-- The bytes in the buffer. -/
theorem RingOf.ring {claim : Option TlogClaim} (h : RingOf c log claim taken rest) :
    log.ring = (taken ++ rest).flatten := by
  obtain ⟨hlen, old, new, hold, hclaim⟩ := h
  have hall : old ++ new = taken ++ rest := by
    cases claim with
    | none =>
      obtain ⟨rfl, rfl⟩ := hclaim
      rfl
    | some k => exact hclaim.claimed.split
  rw [← hall, List.flatten_append]
  unfold TlogLog.ring
  generalize log.extEnd = x at hold
  cases hold with
  | flat h1 h2 h3 => rw [if_neg (Nat.lt_irrefl 0), h3, List.flatten_nil, List.append_nil]
  | wrap h1 h2 h3 h4 h5 h6 => rw [if_pos (by omega), h5, h6]

/-- What is claimed in the two pieces, in bytes. -/
theorem RingOf.length_taken (h : RingOf c log (some k) taken rest) : taken.flatten.length = k.len + k.extlen := by
  obtain ⟨a, b, rfl, h1, h2, h3, h4⟩ := h.pieces
  rw [List.flatten_append, List.length_append, ← h1, ← h2, length_slice h3, length_slice h4]
  omega

/-- Without data no record is there, unless it is empty. -/
theorem RingOf.empty (h : RingOf c log none taken rest) (hdata : log.hasData = false) : rest.flatten = [] := by
  have hring := h.ring
  have hnone : log.fin = log.start ∧ log.extEnd = 0 := by simpa [TlogLog.hasData] using hdata
  obtain ⟨hlen, old, new, hold, rfl, -⟩ := h
  unfold TlogLog.ring at hring
  rw [if_neg (by omega), hnone.1, slice_self] at hring
  exact hring.symm

/-- Data is at least one byte. -/
theorem RingOf.nonempty (h : RingOf c log none taken rest) (hdata : log.hasData = true) : 0 < rest.flatten.length := by
  have hring := h.ring
  obtain ⟨hlen, old, new, hold, rfl, -⟩ := h
  have hsome : log.fin ≠ log.start ∨ 0 < log.extEnd := by simpa [TlogLog.hasData] using hdata
  have hshape := hold.shape
  have hlim := lim_le c
  rw [List.nil_append] at hring
  rw [← hring]
  unfold TlogLog.ring
  split
  · rw [List.length_append, length_slice (by omega)]
    omega
  · rw [length_slice (by omega)]
    omega

end HookKernel
