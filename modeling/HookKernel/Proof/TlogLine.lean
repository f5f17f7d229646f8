import HookKernel.Proof.TlogStream
import HookKernel.Spec.TlogLine
import Mathlib.Data.Nat.Digits.Lemmas

/-!
# The lines of the log

* `tlogFormat_prefix`, `rootLogBuffer_text`: what is in the buffer after `_tlog_format` and
  `_tlog_root_log_buffer`.
* `root_line_lost`: a line of exactly the size of the buffer is lost.
* `TStep.carries`: what holds of all texts that are printed.
* `root_lines`, `root_segments`: what the root log writes over a run are the lines printed, and the
  reports of dropped messages, which a segment log takes for lines.
-/

namespace HookKernel

open Lib

variable {maxlen m pos size : ℕ} {buff head pre raw text line : List UInt8} {msg : Option (List UInt8)}

/-! ## Printing into a buffer -/

/-- `snprintf` into a buffer that begins with `head`. -/
theorem snprintf_prefix (pos size : ℕ) (text : List UInt8) (h : head <+: buff) (hpos : pos ≤ head.length) (hsize : 0 < size) (hfit : pos + size ≤ buff.length) :
    ∃ b, snprintf buff pos size text = some b ∧ b.length = buff.length ∧ head.take pos ++ text.take (size - 1) <+: b := by
  have hlen : (text.take (size - 1) ++ [0]).length = min text.length (size - 1) + 1 := by
    rw [List.length_append, List.length_take, List.length_singleton, Nat.min_comm]
  obtain ⟨b, hb, hblen, hpre, -⟩ := copyInto_prefix pos (text.take (size - 1) ++ [0])
    (min text.length (size - 1) + 1) h hpos (Nat.le_of_eq hlen.symm) (by omega)
  refine ⟨b, hb, hblen, ?_⟩
  rw [← hlen, List.take_length, ← List.append_assoc] at hpre
  exact (List.prefix_append _ _).trans hpre

/-- **`_tlog_format`**: the text fits, is cut, or is lost. -/
theorem tlogFormat_prefix (h : head <+: buff) (hm : 0 < m) (hfit : head.length + m ≤ buff.length) (pre text : List UInt8) :
    ∃ b, tlogFormat buff head.length m pre (some text) =
        some (b, if m ≤ pre.length ∨ (pre ++ text).length = m then (-1 : ℤ) else (pre ++ text).length) ∧
      b.length = buff.length ∧ (pre.length < m → head ++ (pre ++ text).take (m - 1) <+: b) := by
  obtain ⟨b₁, hb₁, hlen₁, hpre₁⟩ := snprintf_prefix _ m pre h (Nat.le_refl _) hm hfit
  rw [List.take_length] at hpre₁
  unfold tlogFormat
  rw [hb₁, Option.bind_some]
  by_cases hlong : m ≤ pre.length
  · refine ⟨b₁, ?_, hlen₁, fun hlt => absurd hlong (Nat.not_le.2 hlt)⟩
    rw [if_pos hlong, if_pos (Or.inl hlong)]
  · rw [if_neg hlong]
    rw [List.take_of_length_le (by omega)] at hpre₁
    obtain ⟨b₂, hb₂, hlen₂, hpre₂⟩ := snprintf_prefix (head.length + pre.length) (m - pre.length) text
      hpre₁ (by rw [List.length_append]) (by omega) (by omega)
    refine ⟨b₂, ?_, hlen₂.trans hlen₁, fun _ => ?_⟩
    · simp only [hb₂, Option.map_some, List.length_append]
      congr 2
      by_cases heq : text.length = m - pre.length
      · rw [if_pos heq, if_pos (Or.inr (by omega))]
      · rw [if_neg heq, if_neg (by omega), Nat.cast_add]
    · rw [List.take_of_length_le (by rw [List.length_append]), List.append_assoc] at hpre₂
      rw [List.take_append, List.take_of_length_le (by omega : pre.length ≤ m - 1)]
      rwa [show m - 1 - pre.length = m - pre.length - 1 by omega]

/-- The last byte of what a buffer begins with. -/
theorem getElem?_last (h : head ++ text <+: buff) (hne : text ≠ []) :
    buff[head.length + text.length - 1]? = text.getLast? := by
  have hpos := List.length_pos_of_ne_nil hne
  obtain ⟨rest, rfl⟩ := h
  rw [List.getElem?_append_left (by rw [List.length_append]; omega), List.getElem?_append_right (by omega),
    List.getLast?_eq_getElem?]
  congr 1
  omega

theorem endLine_last (text : List UInt8) : (endLine text).getLast? = some 10 := by
  unfold endLine
  split
  · assumption
  · exact List.getLast?_concat

/-- The line feed behind a text of less than `m` bytes. -/
theorem addNewline_prefix (h : head ++ text <+: buff) (hne : text ≠ []) (hfit : head.length + text.length + 2 < maxlen)
    (hlen : buff.length = maxlen) :
    ∃ b, addNewline buff maxlen (head.length + text.length) = some (b, head.length + (endLine text).length) ∧
      b.length = maxlen ∧ head ++ endLine text <+: b := by
  unfold addNewline endLine
  rw [getElem?_last h hne]
  by_cases hend : text.getLast? = some 10
  · refine ⟨buff, ?_, hlen, ?_⟩
    · rw [if_neg (fun hbad => hbad.1 hend), if_pos hend]
    · rw [if_pos hend]
      exact h
  · obtain ⟨b, hb, hblen, hpre, -⟩ := copyInto_prefix _ [10] 1 h (Nat.le_refl _) (Nat.le_refl 1)
      (by rw [List.length_append]; omega)
    rw [List.length_append] at hb
    rw [List.take_length] at hpre
    refine ⟨b, ?_, hblen.trans hlen, ?_⟩
    · rw [if_pos ⟨hend, by omega⟩, hb, Option.map_some, if_neg hend, List.length_append, List.length_singleton, Nat.add_assoc]
    · rw [if_neg hend, ← List.append_assoc]
      exact hpre

/-- The dots. -/
theorem cutLine_prefix (h : head ++ (pre ++ text).take (m - 1) <+: buff) (hm : 4 ≤ m) (hfit : head.length + m ≤ buff.length) :
    ∃ b t, t = (if (pre ++ text).length < m then pre ++ text else (pre ++ text).take (m - 4) ++ [46, 46, 46]) ∧
      cutLine buff head.length m (pre ++ text).length = some (b, t.length) ∧ b.length = buff.length ∧ head ++ t <+: b ∧
        t.length < m := by
  unfold cutLine
  by_cases hlt : (pre ++ text).length < m
  · rw [List.take_of_length_le (by omega)] at h
    exact ⟨buff, _, rfl, by rw [if_neg (by omega), if_pos hlt], rfl, by rwa [if_pos hlt], by rwa [if_pos hlt]⟩
  · have hlong : (head ++ (pre ++ text).take (m - 1)).length = head.length + (m - 1) := by
      rw [List.length_append, List.length_take]
      omega
    obtain ⟨b, hb, hblen, hpre, -⟩ := copyInto_prefix (head.length + m - 4) [46, 46, 46] 3 h
      (by omega) (Nat.le_refl 3) (by omega)
    have htake : (head ++ (pre ++ text).take (m - 1)).take (head.length + m - 4) = head ++ (pre ++ text).take (m - 4) := by
      rw [show head.length + m - 4 = head.length + (m - 4) by omega, List.take_length_add_append, List.take_take,
        Nat.min_eq_left (by omega)]
    have hcut : ((pre ++ text).take (m - 4) ++ [46, 46, 46]).length = m - 1 := by
      rw [List.length_append, List.length_take_of_le (by omega)]
      show m - 4 + 3 = m - 1
      omega
    refine ⟨b, _, rfl, ?_, hblen, ?_, ?_⟩
    · rw [if_pos (by omega), hb, if_neg hlt, hcut]
      rfl
    · rw [if_neg hlt, ← List.append_assoc, ← htake]
      exact hpre
    · rw [if_neg hlt, hcut]
      omega

/-- **The line in the buffer**, behind a head. -/
theorem rootLine_prefix (h : head <+: buff) (hlen : buff.length = maxlen) (hm : 4 ≤ m) (hfit : head.length + m + 2 = maxlen)
    (hpre : pre ≠ []) (text : List UInt8) :
    ∃ b r, tlogFormat buff head.length m pre (some text) = some (b, r) ∧ b.length = maxlen ∧
      (lineText m pre text = none → r = -1) ∧
      ∀ line, lineText m pre text = some line → 0 ≤ r ∧ line.length ≤ m ∧ ∃ b₂ n b₃, cutLine b head.length m r.toNat = some (b₂, n) ∧
        addNewline b₂ maxlen (head.length + n) = some (b₃, head.length + line.length) ∧ b₃.length = maxlen ∧
        head ++ line <+: b₃ := by
  obtain ⟨b, hb, hblen, hbpre⟩ := tlogFormat_prefix (m := m) h (by omega) (by omega) pre text
  refine ⟨b, _, hb, hblen.trans hlen, fun hno => ?_, fun line hline => ?_⟩
  · unfold lineText at hno
    simp only at hno
    split at hno
    · rename_i hlost
      rw [if_pos hlost]
    · cases hno
  · unfold lineText at hline
    simp only at hline
    split at hline
    · cases hline
    · rename_i hkept
      obtain rfl := Option.some.inj hline
      obtain ⟨b₂, t, ht, hcut, hlen₂, hpre₂, htm⟩ := cutLine_prefix (hbpre (by omega)) hm (by omega)
      have hne : t ≠ [] := by
        rw [ht]
        split
        · exact List.append_ne_nil_of_left_ne_nil hpre text
        · exact List.append_ne_nil_of_right_ne_nil _ (by decide)
      obtain ⟨b₃, hb₃, hlen₃, hpre₃⟩ := addNewline_prefix hpre₂ hne
        (by omega : head.length + t.length + 2 < maxlen) (hlen₂.trans (hblen.trans hlen))
      have hend : (endLine t).length ≤ m := by
        unfold endLine
        split
        · omega
        · rw [List.length_append, List.length_singleton]
          omega
      rw [if_neg hkept, ← ht]
      exact ⟨Int.natCast_nonneg _, hend, b₂, t.length, b₃, hcut, hb₃, hlen₃, hpre₃⟩

/-- What a call takes from a buffer that begins with its text. -/
theorem text_of_prefix {p : Printed maxlen} (h : text <+: p.buff) (hlen : p.len = text.length) (hpos : text ≠ [])
    (hlt : text.length < maxlen) : p.text = some text := by
  have hpos := List.length_pos_of_ne_nil hpos
  unfold Printed.text
  rw [hlen, if_neg (by omega), if_neg (by omega), Int.toNat_natCast, ← List.prefix_iff_eq_take.1 h]

theorem text_of_neg {p : Printed maxlen} (h : p.len = -1) : p.text = none := by
  unfold Printed.text
  rw [h, if_pos (by decide)]

theorem lineText_last (h : lineText m pre text = some line) : line.getLast? = some 10 := by
  unfold lineText at h
  simp only at h
  split at h
  · cases h
  · obtain rfl := Option.some.inj h
    exact endLine_last _

/-- **A line of the plain root log.** -/
theorem rootLogBuffer_plain (hbuff : buff.length = maxlen) (hmax : 64 ≤ maxlen) (hpre : pre ≠ []) (raw : List UInt8)
    (msg : Option (List UInt8)) :
    ∃ p : Printed maxlen, rootLogBuffer false maxlen buff raw pre msg = some (p.buff, p.len) ∧
      p.text = msg.bind (lineText (maxlen - 2) pre) := by
  obtain ⟨b₁, hb₁, hlen₁, -⟩ := copyInto_behind (maxlen - 1) [0] 1 (List.nil_prefix (l := buff))
    (Nat.zero_le _) (Nat.le_refl 1) (by omega)
  unfold rootLogBuffer
  simp only [Bool.false_eq_true, if_false, Option.bind_some, hb₁, Nat.sub_zero, Nat.zero_add]
  cases msg with
  | none =>
    obtain ⟨b₂, hb₂, hlen₂, -⟩ := snprintf_prefix 0 (maxlen - 2) pre (List.nil_prefix (l := b₁))
      (Nat.le_refl 0) (by omega) (by omega)
    have hfail : tlogFormat b₁ 0 (maxlen - 2) pre none = some (b₂, -1) := by
      unfold tlogFormat
      rw [hb₂, Option.bind_some]
      split <;> rfl
    refine ⟨⟨-1, b₂, by omega⟩, ?_, text_of_neg rfl⟩
    simp only [hfail, Option.bind_some]
    rfl
  | some text =>
    obtain ⟨b₂, r, hb₂, hlen₂, hlost, hkept⟩ := rootLine_prefix (m := maxlen - 2)
      (List.nil_prefix (l := b₁)) (hlen₁.trans hbuff) (by omega) (by rw [List.length_nil]; omega) hpre text
    rw [List.length_nil] at hb₂
    simp only [hb₂, Option.bind_some]
    cases hline : lineText (maxlen - 2) pre text with
    | none =>
      obtain rfl := hlost hline
      exact ⟨⟨-1, b₂, hlen₂⟩, rfl, text_of_neg rfl⟩
    | some line =>
      obtain ⟨hr, hle, b₃, n, b₄, hcut, hnew, hlen₄, hpre₄⟩ := hkept line hline
      rw [List.length_nil] at hcut
      rw [List.length_nil, Nat.zero_add, Nat.zero_add] at hnew
      refine ⟨⟨line.length, b₄, hlen₄⟩, ?_, text_of_prefix hpre₄ rfl ?_ (by omega)⟩
      · rw [if_neg (by omega), hcut, Option.bind_some, hnew]
        rfl
      · intro hnil
        have hlast := lineText_last hline
        rw [hnil] at hlast
        cases hlast

/-! ## Segments -/

theorem length_segmentText (m : ℕ) (line : List UInt8) (hraw : raw.length = 37) :
    (segmentText m raw line).length = 39 + (if line.length < m then line.length + 1 else line.length) := by
  unfold segmentText
  simp only
  rw [List.length_append, List.length_append, hraw, length_leBytes]
  split
  · rw [List.length_append, List.length_singleton]
  · rfl

/-- The NUL and the length. -/
theorem endSegment_prefix {x : List UInt8} (h : raw ++ x ++ line <+: buff) (hraw : raw.length = 37) (hx : x.length = 2)
    (hlen : buff.length = maxlen) (hmax : 64 ≤ maxlen) (hline : line.length ≤ maxlen - 41) :
    ∃ b, endSegment buff maxlen (39 + line.length) = some (b, (segmentText (maxlen - 41) raw line).length) ∧
      b.length = maxlen ∧ segmentText (maxlen - 41) raw line <+: b := by
  have hhead : (raw ++ x ++ line).length = 39 + line.length := by
    rw [List.length_append, List.length_append, hraw, hx]
  -- the length is written between the other two parts
  have hmid : ∀ (b body : List UInt8), raw ++ x ++ body <+: b → b.length = maxlen →
      ∃ b', copyInto b 37 (leBytes 2 body.length) 2 = some b' ∧ b'.length = maxlen ∧ raw ++ leBytes 2 body.length ++ body <+: b' := by
    intro b body hb hblen
    have hfull : (raw ++ x ++ body).length = 39 + body.length := by
      rw [List.length_append, List.length_append, hraw, hx]
    have htwo : (leBytes 2 body.length).take 2 = leBytes 2 body.length :=
      List.take_of_length_le (Nat.le_of_eq (length_leBytes 2 _))
    obtain ⟨b', hb', hlen', -, hin⟩ := copyInto_prefix 37 (leBytes 2 body.length) 2 hb (by omega)
      (Nat.le_of_eq (length_leBytes 2 _).symm) (by omega)
    have hover := hin (by omega)
    rw [htwo] at hover
    have htake : (raw ++ x ++ body).take 37 = raw := by
      rw [List.append_assoc, List.take_left' hraw]
    have hdrop : (raw ++ x ++ body).drop 39 = body := List.drop_left' (by rw [List.length_append, hraw, hx])
    refine ⟨b', hb', hlen'.trans hblen, ?_⟩
    unfold overwrite at hover
    rwa [length_leBytes, htake, hdrop] at hover
  unfold endSegment
  by_cases hroom : line.length < maxlen - 41
  · obtain ⟨b₁, hb₁, hlen₁, hpre₁, -⟩ := copyInto_prefix (39 + line.length) [0] 1 h
      (Nat.le_of_eq hhead.symm) (Nat.le_refl 1) (by omega)
    rw [← hhead, List.take_length, List.append_assoc] at hpre₁
    obtain ⟨b₂, hb₂, hlen₂, hpre₂⟩ := hmid b₁ (line ++ [0]) hpre₁ (hlen₁.trans hlen)
    rw [List.length_append, List.length_singleton] at hb₂
    have hsub : 39 + line.length + 1 - logHeadLen = line.length + 1 := by
      unfold logHeadLen
      omega
    refine ⟨b₂, ?_, hlen₂, ?_⟩
    · rw [if_pos (by omega), hb₁, Option.map_some, Option.bind_some, hsub, hb₂, Option.map_some, length_segmentText _ _ hraw,
        if_pos hroom, Nat.add_assoc]
    · unfold segmentText
      simp only
      rw [if_pos hroom]
      exact hpre₂
  · obtain ⟨b₂, hb₂, hlen₂, hpre₂⟩ := hmid buff line h hlen
    have hsub : 39 + line.length - logHeadLen = line.length := by
      unfold logHeadLen
      omega
    refine ⟨b₂, ?_, hlen₂, ?_⟩
    · rw [if_neg (by omega), Option.bind_some, hsub, hb₂, Option.map_some, length_segmentText _ _ hraw, if_neg hroom]
    · unfold segmentText
      simp only
      rw [if_neg hroom]
      exact hpre₂

/-- **A line of the root log with segments.** -/
theorem rootLogBuffer_segment (hbuff : buff.length = maxlen) (hmax : 64 ≤ maxlen) (hpre : pre ≠ []) (hraw : raw.length = 37)
    (msg : Option (List UInt8)) :
    ∃ p : Printed maxlen, rootLogBuffer true maxlen buff raw pre msg = some (p.buff, p.len) ∧
      p.text = msg.bind fun text => (lineText (maxlen - 41) pre text).map (segmentText (maxlen - 41) raw) := by
  obtain ⟨b₀, hb₀, hlen₀, hpre₀, -⟩ := copyInto_prefix 0 raw 37 (List.nil_prefix (l := buff))
    (Nat.le_refl 0) (Nat.le_of_eq hraw.symm) (by omega)
  rw [List.take_nil, List.nil_append, List.take_of_length_le (Nat.le_of_eq hraw)] at hpre₀
  -- the two bytes of the length are there, whatever they are
  obtain ⟨x, hx, hhead₀⟩ : ∃ x : List UInt8, x.length = 2 ∧ raw ++ x <+: b₀ := by
    obtain ⟨rest, rfl⟩ := hpre₀
    refine ⟨rest.take 2, ?_, ?_⟩
    · rw [List.length_append] at hlen₀
      rw [List.length_take_of_le (by omega)]
    · rw [List.prefix_append_right_inj]
      exact List.take_prefix 2 rest
  have hheadlen : (raw ++ x).length = 39 := by
    rw [List.length_append, hraw, hx]
  obtain ⟨b₁, hb₁, hlen₁, hhead₁⟩ := copyInto_behind (maxlen - 1) [0] 1 hhead₀ (by omega)
    (Nat.le_refl 1) (by omega)
  have hm : maxlen - logHeadLen - 2 = maxlen - 41 := by
    unfold logHeadLen
    omega
  unfold rootLogBuffer
  simp only [if_true, Option.bind_some, hb₀, hb₁, hm]
  cases msg with
  | none =>
    obtain ⟨b₂, hb₂, hlen₂, -⟩ := snprintf_prefix 39 (maxlen - 41) pre hhead₁
      (Nat.le_of_eq hheadlen.symm) (by omega) (by omega)
    have hfail : tlogFormat b₁ logHeadLen (maxlen - 41) pre none = some (b₂, -1) := by
      unfold tlogFormat logHeadLen
      rw [hb₂, Option.bind_some]
      split <;> rfl
    refine ⟨⟨-1, b₂, by omega⟩, ?_, text_of_neg rfl⟩
    simp only [hfail, Option.bind_some]
    rfl
  | some text =>
    obtain ⟨b₂, r, hb₂, hlen₂, hlost, hkept⟩ := rootLine_prefix (m := maxlen - 41) hhead₁
      (hlen₁.trans (hlen₀.trans hbuff))
      (by omega) (by omega) hpre text
    rw [hheadlen] at hb₂ hkept
    simp only [logHeadLen, hb₂, Option.bind_some]
    cases hline : lineText (maxlen - 41) pre text with
    | none =>
      obtain rfl := hlost hline
      exact ⟨⟨-1, b₂, hlen₂⟩, rfl, text_of_neg rfl⟩
    | some line =>
      obtain ⟨hr, hle, b₃, n, b₄, hcut, hnew, hlen₄, hpre₄⟩ := hkept line hline
      obtain ⟨b₅, hend, hlen₅, hpre₅⟩ := endSegment_prefix hpre₄ hraw hx hlen₄ hmax hle
      have hseg := length_segmentText (maxlen - 41) line hraw
      refine ⟨⟨(segmentText (maxlen - 41) raw line).length, b₅, hlen₅⟩, ?_, text_of_prefix hpre₅ rfl ?_ ?_⟩
      · rw [if_neg (by omega), hcut, Option.bind_some, hnew, Option.bind_some, hend]
        rfl
      · intro hnil
        rw [hnil, List.length_nil] at hseg
        omega
      · split at hseg
        · omega
        · omega

theorem logPrefix_ne_nil (pid : Option ℤ) (info : TlogLoginfo) : logPrefix pid info ≠ [] := by
  unfold logPrefix
  simp

/-- **What a call of the root log takes.** -/
theorem rootLogBuffer_text {c : TlogConf} (hmax : 64 ≤ c.lineLen) (hbuff : buff.length = c.lineLen) (info : TlogLoginfo)
    (pid : Option ℤ) (msg : Option (List UInt8)) :
    ∃ p : Printed c.lineLen,
      rootLogBuffer c.segmentLog c.lineLen buff info.raw (logPrefix pid info) msg = some (p.buff, p.len) ∧
        p.text = msg.bind (c.rootText info.raw (logPrefix pid info)) := by
  unfold TlogConf.rootText
  cases c.segmentLog with
  | false =>
    simp only [Bool.false_eq_true, if_false]
    exact rootLogBuffer_plain hbuff hmax (logPrefix_ne_nil pid info) info.raw msg
  | true =>
    simp only [if_true]
    exact rootLogBuffer_segment hbuff hmax (logPrefix_ne_nil pid info) info.length_raw msg

/-! ## What is lost and what is cut -/

/-- What the line buffer has for a line. -/
def TlogConf.lineRoom (c : TlogConf) : ℕ := if c.segmentLog then c.lineLen - 41 else c.lineLen - 2

/-- A line as it is put. -/
def TlogConf.lineRecord (c : TlogConf) (raw line : List UInt8) : List UInt8 :=
  if c.segmentLog then segmentText c.lineRoom raw line else line

theorem rootText_eq (c : TlogConf) (raw pre text : List UInt8) :
    c.rootText raw pre text = (lineText c.lineRoom pre text).map (c.lineRecord raw) := by
  unfold TlogConf.rootText TlogConf.lineRecord TlogConf.lineRoom
  cases c.segmentLog with
  | true => rfl
  | false => exact Option.map_id'.symm

/-- The demo root log: lines of 128 bytes, a buffer of 256. -/
def rootTlog (segmentLog : Bool) : TlogConf := ⟨128, by decide, 256, false, segmentLog⟩

def demoInfo : TlogLoginfo := ⟨1, [97, 46, 99], 12, ⟨2024, 678000, 1, 2, 3, 4, 5⟩, List.replicate 37 7, List.length_replicate⟩

section Runs

variable {ι : Type} [DecidableEq ι] {c : TlogConf} {s s' : TlogState ι c.lineLen} {a : TlogAct ι c.lineLen} {mem : List UInt8}

/-- The text that a call holds has the property `P`. -/
def VPc.Carries {lineLen : ℕ} (P : List UInt8 → Prop) : VPc lineLen → Prop
  | .idle => True
  | .needDrop p | .print p => ∀ text ∈ p.text, P text
  | .lock text _ | .block text _ | .wait text _ | .woken text _ => P text

/-- **What all texts that are printed have in common**, those that are accepted have. -/
theorem TStep.carries {P : List UInt8 → Prop} (h : TStep c s a s') (hc : ∀ i p, a = .call i p → ∀ text ∈ p.text, P text)
    (hthr : ∀ i, (s.thr i).Carries P) (hacc : ∀ text ∈ s.accepted, P text) :
    (∀ i, (s'.thr i).Carries P) ∧ ∀ text ∈ s'.accepted, P text := by
  have hat : ∀ {i : ι} {pc : VPc c.lineLen}, s.thr i = pc → pc.Carries P := fun hi => hi ▸ hthr _
  have hupdate : ∀ {i : ι} {pc : VPc c.lineLen}, pc.Carries P → ∀ j, (Function.update s.thr i pc j).Carries P := by
    intro i pc hpc j
    by_cases hj : j = i
    · subst hj
      rw [Function.update_self]
      exact hpc
    · rw [Function.update_of_ne hj]
      exact hthr j
  have htake : ∀ t : TlogState ι c.lineLen, t.thr = s.thr → t.accepted = s.accepted →
      (∀ i, (t.take.thr i).Carries P) ∧ ∀ text ∈ t.take.accepted, P text := by
    intro t ht hta
    unfold TlogState.take
    split
    · exact ⟨ht ▸ hthr, hta ▸ hacc⟩
    · exact ⟨ht ▸ hthr, hta ▸ hacc⟩
  cases h with
  | call _ => exact ⟨hupdate (hc _ _ rfl), hacc⟩
  | needDrop _ _ _ | noText _ _ | fullDrop _ _ _ => exact ⟨hupdate trivial, hacc⟩
  | @put i text m log hi _ _ =>
    refine ⟨hupdate trivial, fun t ht => ?_⟩
    rcases List.mem_append.1 ht with ht | ht
    · exact hacc t ht
    · rw [List.mem_singleton.1 ht]
      exact hat hi
  | needPrint hi _ =>
    have hok := hat hi
    exact ⟨hupdate hok, hacc⟩
  | print hi ht => exact ⟨hupdate (hat hi _ ht), hacc⟩
  | fullBlock hi _ _ | block hi | woken hi | spurious hi =>
    have hok := hat hi
    exact ⟨hupdate hok, hacc⟩
  | look _ _ _ => exact htake s rfl rfl
  | notified _ _ => exact htake _ rfl rfl
  | wakeup _ =>
    refine ⟨fun i => ?_, hacc⟩
    simp only
    split
    · have hi := hthr i
      unfold TlogState.broadcast
      revert hi
      cases s.thr i <;> exact id
    · exact hthr i
  | finish _ _ _ | go _ _ | turn _ _ | sleep _ _ _ _ | timeout _ _ | firstDone _ | secondDone _ | firstSegment _ _ _ _
  | secondSegment _ _ _ _ | firstOut _ _ _ _ | secondOut _ _ _ _ | report _ | release _ | exit _ => exact ⟨hthr, hacc⟩

/-- A line of the root log, as it is put. -/
def IsRootText (c : TlogConf) (t : List UInt8) : Prop :=
  ∃ (info : TlogLoginfo) (pid : Option ℤ) (text : List UInt8), c.rootText info.raw (logPrefix pid info) text = some t

/-- What is accepted are lines. -/
theorem reach_rootText (hmax : 64 ≤ c.lineLen) (h : Reach (tlogStep c) (CallsRoot c) (TlogState.init ι c mem) s) :
    ∀ t ∈ s.accepted, IsRootText c t := by
  refine (h.inv (I := fun s => (∀ i, (s.thr i).Carries (IsRootText c)) ∧ ∀ t ∈ s.accepted, IsRootText c t)
    ⟨fun _ => trivial, fun t ht => by cases ht⟩ ?_).2
  rintro s a s' ⟨hthr, hacc⟩ hc hs
  refine (tstep_cases hs).carries (fun i p hcall t ht => ?_) hthr hacc
  subst hcall
  obtain ⟨info, pid, msg, buff, hbuff, hrun⟩ := hc
  obtain ⟨p', hrun', htext⟩ := rootLogBuffer_text hmax hbuff info pid msg
  obtain ⟨hb, hl⟩ := Prod.mk.inj (Option.some.inj (hrun.symm.trans hrun'))
  have hsame : p.text = p'.text := by
    unfold Printed.text
    rw [hb, hl]
  rw [hsame, htext] at ht
  obtain ⟨text, -, ht⟩ := Option.bind_eq_some_iff.1 ht
  exact ⟨info, pid, text, ht⟩

theorem lineText_length (hm : 4 ≤ m) (h : lineText m pre text = some line) : line.length ≤ m := by
  unfold lineText at h
  simp only at h
  split at h
  · cases h
  · rename_i hkept
    obtain rfl := Option.some.inj h
    have hend : ∀ t : List UInt8, (endLine t).length ≤ t.length + 1 := by
      intro t
      unfold endLine
      split
      · exact Nat.le_succ _
      · rw [List.length_append, List.length_singleton]
    refine (hend _).trans ?_
    split
    · omega
    · rw [List.length_append, List.length_take_of_le (by omega)]
      show m - 4 + 3 + 1 ≤ m
      omega

/-- **The file consists of lines**: in every run of the plain root log what is accepted are lines, each with a line feed
at its end; and whenever the worker has nothing in work, the bytes written are whole lines in the order of their
acceptance. -/
theorem root_lines (hmem : mem.length = c.buffsize) (hplain : c.segmentLog = false) (hmax : 64 ≤ c.lineLen)
    (h : Reach (tlogStep c) (CallsRoot c) (TlogState.init ι c mem) s) :
    (∀ line ∈ s.accepted, line.getLast? = some 10 ∧ line.length ≤ c.lineLen - 2 ∧
      ∃ info pid text, lineText (c.lineLen - 2) (logPrefix pid info) text = some line) ∧
    (s.wpc.claim = none → ∃ lines, lines <+: s.accepted ∧ s.out.flatMap TlogOut.bytes = lines.flatten) := by
  constructor
  · intro line hline
    obtain ⟨info, pid, text, ht⟩ := reach_rootText hmax h line hline
    unfold TlogConf.rootText at ht
    rw [hplain, if_neg (by decide)] at ht
    exact ⟨lineText_last ht, lineText_length (by omega) ht, info, pid, text, ht⟩
  · intro hclaim
    obtain ⟨-, ⟨done, taken, rest, hi⟩, -⟩ := reach_log hmem (reach_plain hplain (h.mono fun _ _ _ => trivial))
    obtain rfl := hi.unclaimed hclaim
    have hacc := hi.accepted
    have hout := hi.out
    rw [records_plain hplain, List.nil_append] at hacc
    rw [raw_plain hplain, List.flatten_nil, List.take_nil, List.append_nil] at hout
    exact ⟨done, ⟨rest, hacc.symm⟩, hout⟩

/-- The call of the demo log with a message of `n` bytes. -/
def demoRootPrinted (segmentLog : Bool) (n : ℕ) (b : UInt8) : Printed (rootTlog segmentLog).lineLen :=
  match rootLogBuffer segmentLog 128 (List.replicate 128 0) demoInfo.raw (logPrefix none demoInfo)
    (some (List.replicate n b)) with
  | some (buff, r) => if h : buff.length = 128 then ⟨r, buff, h⟩ else ⟨0, List.replicate 128 0, List.length_replicate⟩
  | none => ⟨0, List.replicate 128 0, List.length_replicate⟩

theorem demoRootPrinted_run (segmentLog : Bool) :
    (∃ buff, buff.length = 128 ∧ rootLogBuffer segmentLog 128 buff demoInfo.raw (logPrefix none demoInfo)
      (some (List.replicate 3 65)) = some ((demoRootPrinted segmentLog 3 65).buff, (demoRootPrinted segmentLog 3 65).len)) ∧
    ∃ buff, buff.length = 128 ∧ rootLogBuffer segmentLog 128 buff demoInfo.raw (logPrefix none demoInfo)
      (some (List.replicate 5 66)) = some ((demoRootPrinted segmentLog 5 66).buff, (demoRootPrinted segmentLog 5 66).len) := by
  refine ⟨⟨List.replicate 128 0, List.length_replicate, ?_⟩, ⟨List.replicate 128 0, List.length_replicate, ?_⟩⟩
  · cases segmentLog with
    | true => decide +kernel
    | false => decide +kernel
  · cases segmentLog with
    | true => decide +kernel
    | false => decide +kernel

/-- Two threads print a line each. -/
def rootDemo (segmentLog : Bool) : List (TlogAct Bool (rootTlog segmentLog).lineLen) :=
  [.call true (demoRootPrinted segmentLog 3 65), .prod true, .prod true, .call false (demoRootPrinted segmentLog 5 66),
    .prod true, .prod false, .prod false, .prod false]

theorem rootDemo_root (segmentLog : Bool) {a : TlogAct Bool (rootTlog segmentLog).lineLen} (ha : a ∈ rootDemo segmentLog)
    (s : TlogState Bool (rootTlog segmentLog).lineLen) : CallsRoot (rootTlog segmentLog) s a := by
  obtain ⟨⟨b₁, hlen₁, h₁⟩, ⟨b₂, hlen₂, h₂⟩⟩ := demoRootPrinted_run segmentLog
  simp only [rootDemo, List.mem_cons, List.not_mem_nil, or_false] at ha
  rcases ha with rfl | rfl | rfl | rfl | rfl | rfl | rfl | rfl
  · exact ⟨demoInfo, none, _, b₁, hlen₁, h₁⟩
  · trivial
  · trivial
  · exact ⟨demoInfo, none, _, b₂, hlen₂, h₂⟩
  · trivial
  · trivial
  · trivial
  · trivial

/-- The worker writes the two lines in two pieces. -/
def linesDemo : List (TlogAct Bool (rootTlog false).lineLen) :=
  rootDemo false ++ [.work, .work, .out 100, .out 24, .work, .work, .work, .work]

theorem linesDemo_runs :
    (run (tlogStep (rootTlog false)) (TlogState.init Bool (rootTlog false) (List.replicate 256 0)) linesDemo).isSome := by
  decide +kernel

def linesDemoEnd : TlogState Bool (rootTlog false).lineLen := runTo linesDemo_runs

theorem linesDemo_reach :
    Reach (tlogStep (rootTlog false)) (CallsRoot (rootTlog false)) (TlogState.init Bool (rootTlog false) (List.replicate 256 0))
      linesDemoEnd := by
  refine reach_of_along (along_of_forall fun a ha s => ?_) (run_runTo linesDemo_runs)
  rcases List.mem_append.1 ha with ha | ha
  · exact rootDemo_root false ha s
  · simp only [List.mem_cons, List.not_mem_nil, or_false] at ha
    rcases ha with rfl | rfl | rfl | rfl | rfl | rfl | rfl | rfl
    all_goals trivial

theorem root_lines_demo :
    linesDemoEnd.accepted.map List.length = [61, 63] ∧
      (∀ line ∈ linesDemoEnd.accepted, line.getLast? = some 10 ∧ line.length ≤ 126 ∧
        ∃ info pid text, lineText 126 (logPrefix pid info) text = some line) ∧
      ∃ lines, lines <+: linesDemoEnd.accepted ∧ linesDemoEnd.out.flatMap TlogOut.bytes = lines.flatten := by
  obtain ⟨hlines, hwhole⟩ := root_lines List.length_replicate rfl (by decide) linesDemo_reach
  exact ⟨by decide +kernel, hlines, hwhole (by decide +kernel)⟩

/-- The head and the line of a segment, taken apart. -/
theorem rootWriteLog_segmentText (callback : Bool) (n : ℕ) (hraw : raw.length = 37) (hm : line.length < m)
    (hshort : line.length < 65535) : rootWriteLog callback true (segmentText m raw line) n =
      (if callback then some raw else none, some (if callback then line else line ++ [0])) := by
  have hsegment : segmentText m raw line = raw ++ leBytes 2 (line.length + 1) ++ (line ++ [0]) := by
    unfold segmentText
    simp only
    rw [if_pos hm, List.length_append, List.length_singleton]
  have hhead : (raw ++ leBytes 2 (line.length + 1)).length = logHeadLen := by
    rw [List.length_append, hraw, length_leBytes]
    rfl
  have hlen : leNat (slice (segmentText m raw line) 37 logHeadLen) = line.length + 1 := by
    rw [hsegment]
    unfold slice logHeadLen
    rw [List.append_assoc, List.drop_left' hraw, List.take_left' (length_leBytes 2 _), leNat_leBytes_of_lt (by omega)]
  have htake : (segmentText m raw line).take 37 = raw := by
    rw [hsegment, List.append_assoc, List.take_left' hraw]
  -- the bytes behind the head, as many as there are
  have htext : ∀ k : ℕ, k ≤ line.length + 1 → readText (segmentText m raw line) logHeadLen k = some ((line ++ [0]).take k) := by
    intro k hk
    unfold readText slice
    rw [hsegment, List.length_append, hhead, List.length_append, List.length_singleton, if_pos ⟨by omega, by omega⟩,
      List.drop_left' hhead, Int.toNat_natCast, Nat.add_sub_cancel_left]
  unfold rootWriteLog
  rw [if_pos rfl]
  simp only [hlen, htake, Nat.cast_add, Nat.cast_one, add_sub_cancel_right]
  cases callback with
  | true =>
    simp only [if_true]
    rw [htext _ (Nat.le_succ _), List.take_left]
  | false =>
    have hall := htext (line.length + 1) (Nat.le_refl _)
    rw [Nat.cast_add, Nat.cast_one] at hall
    simp only [Bool.false_eq_true, if_false]
    rw [hall, List.take_of_length_le (by rw [List.length_append, List.length_singleton])]

/-- A report ends in front of where a segment has its text. -/
theorem length_dropText (n : ℕ) : (dropText n).length < logHeadLen := by
  have hdigits : (decimalText 1 (Int.bmod n (2 ^ 32))).length ≤ 11 := by
    have hlow : -((2 ^ 32 : ℕ) / 2 : ℤ) ≤ Int.bmod n (2 ^ 32) := Int.le_bmod (by decide)
    have hhigh : Int.bmod n (2 ^ 32) < ((2 ^ 32 : ℕ) + 1) / 2 := Int.bmod_lt (by decide)
    have hlen : (Nat.digits 10 (Int.bmod n (2 ^ 32)).natAbs).length ≤ 10 :=
      Nat.digits_length_le_iff (by decide) _ |>.2 (by omega)
    rw [length_decimalText]
    split
    · omega
    · omega
  unfold dropText logHeadLen
  rw [List.length_append, List.length_append]
  simp only [List.length_cons, List.length_nil]
  omega

/-- **A report, taken apart**: the text is not in it. -/
theorem readText_dropmsg {n p : ℕ} {k : ℤ} {stack : List UInt8} (hp : logHeadLen ≤ p) (h : readText (dropmsg n stack) p k = some text) :
    text <:+: stack := by
  unfold readText at h
  split at h
  · obtain rfl := Option.some.inj h
    have hlen := length_dropText n
    have hdrop : (dropmsg n stack).drop p = stack.drop (p - ((dropText n).length + 1)) := by
      unfold dropmsg
      rw [List.append_cons, List.drop_append, List.drop_of_length_le, List.nil_append, List.length_append,
        List.length_singleton]
      rw [List.length_append, List.length_singleton]
      omega
    unfold slice
    rw [hdrop]
    exact (List.take_prefix _ _).isInfix.trans (List.drop_suffix _ _).isInfix
  · cases h

/-- The outputs one after the other, if the texts are lines with their heads. -/
theorem rootGets_of_written {callback : Bool} {calls : List (TlogLoginfo × List UInt8)} {out : List TlogOut}
    {got : List (Option (List UInt8) × Option (List UInt8))} (h : List.Forall₂ (TlogOut.Written callback true) out got)
    (htexts : out.filterMap TlogOut.text = calls.map fun x => segmentText m x.1.raw x.2)
    (hfit : ∀ x ∈ calls, x.2.length < m ∧ x.2.length < 65535) : RootGets callback out calls got := by
  induction h generalizing calls with
  | nil =>
    obtain rfl := List.map_eq_nil_iff.1 htexts.symm
    exact .nil
  | cons hwritten _ ih =>
    cases hwritten with
    | data bytes =>
      cases calls with
      | nil => cases htexts
      | cons x calls =>
        obtain ⟨rfl, hrest⟩ := List.cons.inj htexts
        obtain ⟨hm, hshort⟩ := hfit x List.mem_cons_self
        rw [rootWriteLog_segmentText callback _ x.1.length_raw hm hshort]
        exact .line _ x (ih hrest fun y hy => hfit y (List.mem_cons_of_mem _ hy))
    | dropped n stack hlen =>
      have hrest := ih htexts hfit
      unfold rootWriteLog
      rw [if_pos rfl]
      cases callback with
      | true => exact .report n stack _ (fun t ht => readText_dropmsg (Nat.le_refl _) ht) hrest
      | false => exact .report n stack _ (fun t ht => readText_dropmsg (Nat.le_refl _) ht) hrest

/-- Choose what each of some texts was made from. -/
theorem exists_map_eq {α β : Type} {f : α → β} {P : α → Prop} {l : List β} (h : ∀ b ∈ l, ∃ a, P a ∧ f a = b) :
    ∃ as : List α, as.map f = l ∧ ∀ a ∈ as, P a := by
  induction l with
  | nil => exact ⟨[], rfl, fun a ha => by cases ha⟩
  | cons b l ih =>
    obtain ⟨a, ha, rfl⟩ := h b List.mem_cons_self
    obtain ⟨as, rfl, has⟩ := ih fun b hb => h b (List.mem_cons_of_mem _ hb)
    refine ⟨a :: as, rfl, fun x hx => ?_⟩
    rcases List.mem_cons.1 hx with rfl | hx
    · exact ha
    · exact has x hx

/-- The calls print lines of the root log, and these fit with their heads. -/
def CallsFit (c : TlogConf) (s : TlogState ι c.lineLen) (a : TlogAct ι c.lineLen) : Prop :=
  CallsRoot c s a ∧ CallsStorable c s a

/-- **A segment log gives back the lines**: in every run of the root log with segments whose lines fit,
`tlog.output_func` gets of each text written exactly the head and the line that were put, in the order of their
acceptance, and the file instead each line with a NUL behind it. In between the reports of dropped messages are taken
apart in the same way, and nothing that they say comes out as a text. -/
theorem root_segments (callback : Bool) {got : List (Option (List UInt8) × Option (List UInt8))}
    (hmem : mem.length = c.buffsize) (hseg : c.segmentLog = true) (hmax : 64 ≤ c.lineLen)
    (h : Reach (tlogStep c) (CallsFit c) (TlogState.init ι c mem) s)
    (hgot : List.Forall₂ (TlogOut.Written callback c.segmentLog) s.out got) :
    ∃ calls late : List (TlogLoginfo × List UInt8),
      s.accepted = (calls ++ late).map (fun x => c.lineRecord x.1.raw x.2) ∧
      (∀ x ∈ calls ++ late, ∃ pid text, lineText c.lineRoom (logPrefix pid x.1) text = some x.2) ∧
      RootGets callback s.out calls got := by
  have hroot := reach_rootText hmax (h.mono fun _ _ hc => hc.1)
  obtain ⟨-, ⟨done, taken, rest, hi⟩, -⟩ := reach_log hmem (h.mono fun _ _ hc => hc.2)
  obtain ⟨-, -, late, -, -, hsplit, -⟩ := hi.late hseg
  -- what each accepted text was made from
  have hmade : ∀ t ∈ s.accepted, ∃ x : TlogLoginfo × List UInt8,
      ((∃ pid text, lineText c.lineRoom (logPrefix pid x.1) text = some x.2) ∧
        x.2.length < c.lineRoom ∧ x.2.length < 65535) ∧ c.lineRecord x.1.raw x.2 = t := by
    intro t ht
    obtain ⟨info, pid, text, hrec⟩ := hroot t ht
    rw [rootText_eq] at hrec
    obtain ⟨line, hline, rfl⟩ := Option.map_eq_some_iff.1 hrec
    have hstore := hi.storable _ ht
    have hfit := hstore.short
    have hlen := hstore.len hseg
    have hroom : c.lineRoom = c.lineLen - 41 := if_pos hseg
    have hrecord : c.lineRecord info.raw line = segmentText c.lineRoom info.raw line := if_pos hseg
    rw [record_segment hseg, length_segment, hrecord, length_segmentText _ _ info.length_raw] at hfit
    rw [hrecord, length_segmentText _ _ info.length_raw] at hlen
    refine ⟨(info, line), ⟨⟨pid, text, hline⟩, ?_, ?_⟩, rfl⟩
    · show line.length < c.lineRoom
      split at hfit
      · assumption
      · omega
    · show line.length < 65535
      split at hlen
      · omega
      · omega
  obtain ⟨calls, hcalls, hok⟩ := exists_map_eq fun t ht => hmade t (hsplit ▸ List.mem_append_left late ht)
  obtain ⟨later, hlater, hok'⟩ := exists_map_eq fun t ht => hmade t (hsplit ▸ List.mem_append_right s.texts ht)
  rw [hseg] at hgot
  refine ⟨calls, later, ?_, fun x hx => ?_, ?_⟩
  · rw [List.map_append, hcalls, hlater, hsplit]
  · rcases List.mem_append.1 hx with hx | hx
    · exact (hok x hx).1
    · exact (hok' x hx).1
  · refine rootGets_of_written (m := c.lineRoom) hgot (hcalls.symm.trans ?_) fun x hx => (hok x hx).2
    exact List.map_congr_left fun x _ => if_pos hseg

/-- A third call finds no room, and the worker writes the two segments and a report. -/
def headsDemo : List (TlogAct Bool (rootTlog true).lineLen) :=
  rootDemo true ++ [.call true (demoRootPrinted true 3 65), .prod true, .work, .work, .work, .work, .work, .work, .work, .work]

theorem headsDemo_runs :
    (run (tlogStep (rootTlog true)) (TlogState.init Bool (rootTlog true) (List.replicate 256 0)) headsDemo).isSome := by
  decide +kernel

def headsDemoEnd : TlogState Bool (rootTlog true).lineLen := runTo headsDemo_runs

theorem rootDemo_storable {a : TlogAct Bool (rootTlog true).lineLen} (ha : a ∈ rootDemo true)
    (s : TlogState Bool (rootTlog true).lineLen) : CallsStorable (rootTlog true) s a := by
  simp only [rootDemo, List.mem_cons, List.not_mem_nil, or_false] at ha
  rcases ha with rfl | rfl | rfl | rfl | rfl | rfl | rfl | rfl
  · show ∀ text ∈ (demoRootPrinted true 3 65).text, (rootTlog true).Storable text
    decide +kernel
  · trivial
  · trivial
  · show ∀ text ∈ (demoRootPrinted true 5 66).text, (rootTlog true).Storable text
    decide +kernel
  · trivial
  · trivial
  · trivial
  · trivial

theorem headsDemo_reach :
    Reach (tlogStep (rootTlog true)) (CallsFit (rootTlog true)) (TlogState.init Bool (rootTlog true) (List.replicate 256 0))
      headsDemoEnd := by
  have hfit : ∀ s, ∀ a ∈ rootDemo true, CallsFit (rootTlog true) s a := fun s a ha =>
    ⟨rootDemo_root true ha s, rootDemo_storable ha s⟩
  refine reach_of_along (along_of_forall fun a ha s => ?_) (run_runTo headsDemo_runs)
  rcases List.mem_append.1 ha with ha | ha
  · exact hfit s a ha
  · simp only [List.mem_cons, List.not_mem_nil, or_false] at ha
    rcases ha with rfl | rfl | rfl | rfl | rfl | rfl | rfl | rfl | rfl | rfl
    · exact hfit s _ List.mem_cons_self
    all_goals exact ⟨trivial, trivial⟩

/-- What is handed on if the bytes behind a report are zeros. -/
def zeroWritten (callback segmentLog : Bool) : TlogOut → Option (List UInt8) × Option (List UInt8)
  | .data bytes => rootWriteLog callback segmentLog bytes bytes.length
  | .dropped n =>
    rootWriteLog callback segmentLog (dropmsg n (List.replicate (127 - (dropText n).length) 0)) (dropText n).length

theorem written_zeroWritten (callback segmentLog : Bool) (out : List TlogOut) :
    List.Forall₂ (TlogOut.Written callback segmentLog) out (out.map (zeroWritten callback segmentLog)) := by
  rw [List.forall₂_map_right_iff, List.forall₂_same]
  intro o _
  cases o with
  | data bytes => exact .data bytes
  | dropped n =>
    refine .dropped n _ ?_
    have hlen : (dropText n).length < 39 := length_dropText n
    unfold dropmsg tlogTmpLen
    rw [List.length_append, List.length_cons, List.length_replicate]
    omega

theorem root_segments_demo :
    headsDemoEnd.out.map TlogOut.lost = [0, 0, 1] ∧
      ∃ calls late : List (TlogLoginfo × List UInt8),
        headsDemoEnd.accepted = (calls ++ late).map (fun x => (rootTlog true).lineRecord x.1.raw x.2) ∧
        RootGets true headsDemoEnd.out calls (headsDemoEnd.out.map (zeroWritten true true)) := by
  obtain ⟨calls, late, hacc, -, hgets⟩ :=
    root_segments true List.length_replicate rfl (by decide) headsDemo_reach (written_zeroWritten true true _)
  exact ⟨by decide +kernel, calls, late, hacc, hgets⟩

end Runs

end HookKernel
