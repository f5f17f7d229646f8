import HookKernel.Proof.TlogRing

/-!
# What the log writes

* `TStep`, `tstep_cases`: everything one step can do.
* `TlogInv`: the accepted records are those written, those claimed and the rest; the worker
  has written the front part of what it claimed.
* `TStep.inv`: every step keeps it.
-/

namespace HookKernel

open Lib

variable {ι : Type} {c : TlogConf} {s s' : TlogState ι c.lineLen} {a : TlogAct ι c.lineLen}

/-! ## The worker -/

/-- The piece in work ends where the claim says. -/
def WPc.At (start : ℕ) : WPc → Prop
  | .first p n k => start ≤ p ∧ p + n = start + k.len
  | .second p n k => p + n = k.extlen
  | _ => True

/-- **The accepted records**: `done` are written and released, `taken` claimed by the worker, which has written
the front part of them, and `rest` come later. -/
structure TlogInv (c : TlogConf) (s : TlogState ι c.lineLen) (done taken rest : List (List UInt8)) : Prop where
  accepted : s.accepted.map c.record = done ++ (taken ++ rest)
  storable : ∀ text ∈ s.accepted, c.Storable text
  ring : RingOf c s.log s.wpc.claim taken rest
  piece : s.wpc.At s.log.start
  out : s.out.flatMap (TlogOut.raw c) = done.flatten ++ taken.flatten.take s.written
  edge : c.segmentLog = true →
    ∃ t₁ t₂, taken = t₁ ++ t₂ ∧ s.written = t₁.flatten.length ∧ s.texts.map segment = done ++ t₁

variable {done taken rest : List (List UInt8)}

/-- What does not touch the buffer, the worker and the outputs. -/
theorem TlogInv.congr (h : TlogInv c s done taken rest) (hbuff : s'.log.buff = s.log.buff) (hstart : s'.log.start = s.log.start)
    (hfin : s'.log.fin = s.log.fin) (hext : s'.log.extEnd = s.log.extEnd) (hacc : s'.accepted = s.accepted)
    (hout : s'.out = s.out) (hwpc : s'.wpc = s.wpc) : TlogInv c s' done taken rest := by
  have hwritten : s'.written = s.written := by
    unfold TlogState.written
    rw [hwpc, hstart]
  have htexts : s'.texts = s.texts := by
    unfold TlogState.texts
    rw [hout]
  refine ⟨hacc ▸ h.accepted, hacc ▸ h.storable, ?_, ?_, ?_, ?_⟩
  · rw [hwpc]
    exact h.ring.congr hbuff hstart hfin hext
  · rw [hwpc, hstart]
    exact h.piece
  · rw [hout, hwritten]
    exact h.out
  · rw [hwritten, htexts]
    exact h.edge

/-- A state in which the worker has claimed nothing. -/
theorem TlogInv.unclaimed (h : TlogInv c s done taken rest) (hclaim : s.wpc.claim = none) : taken = [] := by
  obtain ⟨-, old, new, -, hnone⟩ := h.ring
  rw [hclaim] at hnone
  exact hnone.1

/-- Without a claim the worker has written whole segments. -/
theorem TlogInv.released (h : TlogInv c s done taken rest) (hclaim : s.wpc.claim = none) (hseg : c.segmentLog = true) :
    s.texts.map segment = done := by
  obtain ⟨t₁, t₂, htaken, -, htexts⟩ := h.edge hseg
  obtain ⟨rfl, -⟩ := List.append_eq_nil_iff.1 (htaken.symm.trans (h.unclaimed hclaim))
  rw [htexts, List.append_nil]

/-- Where the worker is, without a claim, does not matter. -/
theorem TlogInv.move (h : TlogInv c s done taken rest) (hclaim : s.wpc.claim = none) (hclaim' : s'.wpc.claim = none)
    (hlog : s'.log = s.log) (hacc : s'.accepted = s.accepted) (hout : s'.out = s.out) : TlogInv c s' done taken rest := by
  have hnot : ∀ t : TlogState ι c.lineLen, t.wpc.claim = none → t.written = 0 ∧ ∀ start, t.wpc.At start := by
    intro t ht
    unfold TlogState.written
    revert ht
    cases t.wpc <;> simp [WPc.claim, WPc.At]
  obtain ⟨hw, -⟩ := hnot s hclaim
  obtain ⟨hw', hat⟩ := hnot s' hclaim'
  have htexts : s'.texts = s.texts := by
    unfold TlogState.texts
    rw [hout]
  refine ⟨hacc ▸ h.accepted, hacc ▸ h.storable, ?_, hat _, ?_, fun hseg => ⟨[], taken, rfl, hw', ?_⟩⟩
  · rw [hclaim', hlog, ← hclaim]
    exact h.ring
  · rw [hout, hw', ← hw]
    exact h.out
  · rw [htexts, h.released hclaim hseg, List.append_nil]

/-- The worker looks at the log. -/
theorem TlogInv.take (h : TlogInv c s done taken rest) (hclaim : s.wpc.claim = none) :
    ∃ taken' rest', TlogInv c s.take done taken' rest' := by
  unfold TlogState.take
  split
  · exact ⟨taken, rest, h.move hclaim rfl rfl rfl rfl⟩
  · rename_i hdata
    obtain rfl := h.unclaimed hclaim
    have hring := h.ring
    rw [hclaim] at hring
    have hout := h.out
    rw [List.flatten_nil, List.take_nil, List.append_nil] at hout
    have hzero : TlogState.written { s with
        cur := true, wpc := .first s.log.start s.log.claim.len s.log.claim, log := { s.log with dropped := 0 } } = 0 :=
      Nat.sub_self _
    refine ⟨rest, [], by rw [List.append_nil]; exact h.accepted, h.storable, hring.claim (by simpa using hdata),
      ⟨Nat.le_refl _, rfl⟩, ?_, fun hseg => ⟨[], rest, rfl, Nat.sub_self _, ?_⟩⟩
    · rw [hzero, List.take_zero, List.append_nil]
      exact hout
    · rw [List.append_nil]
      exact h.released hclaim hseg

/-- **A piece is written**: the worker has got the next `m` bytes of the first piece out. -/
theorem TlogInv.first_out {p n m : ℕ} {k : TlogClaim} {o : TlogOut} (h : TlogInv c s done taken rest)
    (hpc : s.wpc = .first p n k) (hm : m ≤ n) (hraw : o.raw c = slice s.log.buff p (p + m))
    (hedge : c.segmentLog = true → ∃ t₁ t₂, taken = t₁ ++ t₂ ∧ p + m - s.log.start = t₁.flatten.length ∧
      ({ s with out := s.out ++ [o] } : TlogState ι c.lineLen).texts.map segment = done ++ t₁) :
    TlogInv c { s with out := s.out ++ [o], wpc := .first (p + m) (n - m) k } done taken rest := by
  have hring := h.ring
  have hpiece := h.piece
  have hout := h.out
  rw [hpc] at hring hpiece
  obtain ⟨hp, hn⟩ : s.log.start ≤ p ∧ p + n = s.log.start + k.len := hpiece
  obtain ⟨a, b, rfl, ha, -, hin, -⟩ := hring.pieces
  have hlen : a.flatten.length = k.len := by
    rw [← ha, length_slice hin, Nat.add_sub_cancel_left]
  have hw : s.written = p - s.log.start := by rw [TlogState.written, hpc]
  have hstep : a.flatten.take (p - s.log.start) ++ slice s.log.buff p (p + m) = a.flatten.take (p + m - s.log.start) := by
    rw [← ha]
    exact take_append_slice hp (Nat.le_add_right p m) (by omega)
  have htake : ∀ j, j ≤ k.len → (a ++ b).flatten.take j = a.flatten.take j := by
    intro j hj
    rw [List.flatten_append, List.take_append_of_le_length (by omega)]
  have hat : s.log.start ≤ p + m ∧ p + m + (n - m) = s.log.start + k.len := by omega
  refine ⟨h.accepted, h.storable, hring, hat, ?_, hedge⟩
  rw [List.flatMap_append, hout, hw, List.flatMap_singleton, hraw, List.append_assoc, htake _ (by omega), hstep]
  exact congrArg _ (htake _ (by omega)).symm

/-- The same for the second piece. -/
theorem TlogInv.second_out {p n m : ℕ} {k : TlogClaim} {o : TlogOut} (h : TlogInv c s done taken rest)
    (hpc : s.wpc = .second p n k) (hm : m ≤ n) (hraw : o.raw c = slice s.log.buff p (p + m))
    (hedge : c.segmentLog = true → ∃ t₁ t₂, taken = t₁ ++ t₂ ∧ k.len + (p + m) = t₁.flatten.length ∧
      ({ s with out := s.out ++ [o] } : TlogState ι c.lineLen).texts.map segment = done ++ t₁) :
    TlogInv c { s with out := s.out ++ [o], wpc := .second (p + m) (n - m) k } done taken rest := by
  have hring := h.ring
  have hpiece := h.piece
  have hout := h.out
  rw [hpc] at hring hpiece
  simp only [WPc.At] at hpiece
  obtain ⟨a, b, rfl, ha, hb, hin, hin'⟩ := hring.pieces
  have hlen : a.flatten.length = k.len := by
    rw [← ha, length_slice hin, Nat.add_sub_cancel_left]
  have hw : s.written = k.len + p := by rw [TlogState.written, hpc]
  have hstep : b.flatten.take p ++ slice s.log.buff p (p + m) = b.flatten.take (p + m) := by
    rw [← hb]
    exact take_append_slice (Nat.zero_le p) (Nat.le_add_right p m) (by omega)
  have htake : ∀ j, (a ++ b).flatten.take (k.len + j) = a.flatten ++ b.flatten.take j := by
    intro j
    rw [List.flatten_append, ← hlen, List.take_length_add_append]
  refine ⟨h.accepted, h.storable, hring, ?_, ?_, hedge⟩
  · show p + m + (n - m) = k.extlen
    omega
  · rw [List.flatMap_append, hout, hw, List.flatMap_singleton, hraw, List.append_assoc, htake, List.append_assoc, hstep]
    exact congrArg _ (htake _).symm

/-- The next segment of a piece. -/
theorem read_next {buff : List UInt8} {i j p : ℕ} {t₁ w : List (List UInt8)} (h : slice buff i j = (t₁ ++ w).flatten)
    (hij : i ≤ j) (hj : j ≤ buff.length) (hp : p = i + t₁.flatten.length) (hpj : p < j)
    (hw : ∀ y ∈ w, ∃ x, y = segment x ∧ x.length + 1 < 65536) :
    ∃ x w', w = segment x :: w' ∧ slice buff p (p + (segment x).length) = segment x ∧ p + (segment x).length ≤ j ∧
      ∀ n, readSegment buff p n = some (some x, p + (segment x).length, n - (segment x).length) := by
  rw [List.flatten_append] at h
  obtain ⟨-, -, hrest⟩ := slice_split h hij hj
  rw [← hp] at hrest
  cases w with
  | nil =>
    have hlen := congrArg List.length hrest
    rw [length_slice hj] at hlen
    simp only [List.flatten_nil, List.length_nil] at hlen
    omega
  | cons y w =>
    obtain ⟨x, rfl, hx⟩ := hw y List.mem_cons_self
    rw [List.flatten_cons] at hrest
    obtain ⟨hle, hslice, -⟩ := slice_split hrest (by omega) hj
    exact ⟨x, w, rfl, hslice, hle, readSegment_segment hrest (by omega) hj hx⟩

/-- The records claimed are segments. -/
theorem TlogInv.segments (h : TlogInv c s done taken rest) (hseg : c.segmentLog = true) :
    ∀ y ∈ taken, ∃ x, y = segment x ∧ x.length + 1 < 65536 := by
  intro y hy
  have hmem : y ∈ s.accepted.map c.record := by
    rw [h.accepted]
    exact List.mem_append_right _ (List.mem_append_left _ hy)
  obtain ⟨x, hx, rfl⟩ := List.mem_map.1 hmem
  exact ⟨x, record_segment hseg x, (h.storable x hx).len hseg⟩

/-- Segments are not empty. -/
theorem segments_nil {w : List (List UInt8)} (hw : ∀ y ∈ w, ∃ x, y = segment x ∧ x.length + 1 < 65536)
    (hlen : w.flatten.length = 0) : w = [] := by
  cases w with
  | nil => rfl
  | cons y w =>
    obtain ⟨x, rfl, -⟩ := hw y List.mem_cons_self
    rw [List.flatten_cons, List.length_append, length_segment] at hlen
    omega

/-- A text more has been written. -/
theorem texts_write (s : TlogState ι c.lineLen) (x : List UInt8) :
    ({ s with out := s.out ++ [.data x] } : TlogState ι c.lineLen).texts.map segment = s.texts.map segment ++ [segment x] := by
  unfold TlogState.texts
  rw [List.filterMap_append, List.map_append]
  rfl

/-- The worker finds the next segment of the first piece. -/
theorem TlogInv.first_segment {p n : ℕ} {k : TlogClaim} (h : TlogInv c s done taken rest) (hpc : s.wpc = .first p n k)
    (hn : 0 < n) (hseg : c.segmentLog = true) :
    ∃ x, slice s.log.buff p (p + (segment x).length) = segment x ∧ (segment x).length ≤ n ∧
      readSegment s.log.buff p n = some (some x, p + (segment x).length, n - (segment x).length) ∧
      ∃ t₁ t₂, taken = t₁ ++ t₂ ∧ p + (segment x).length - s.log.start = t₁.flatten.length ∧
        s.texts.map segment ++ [segment x] = done ++ t₁ := by
  have hring := h.ring
  have hpiece := h.piece
  rw [hpc] at hring hpiece
  obtain ⟨hp, hlen⟩ : s.log.start ≤ p ∧ p + n = s.log.start + k.len := hpiece
  have hsegs := h.segments hseg
  obtain ⟨t₁, t₂, htaken, hw, htexts⟩ := h.edge hseg
  rw [show s.written = p - s.log.start by rw [TlogState.written, hpc]] at hw
  obtain ⟨a, b, hab, ha, -, hin, -⟩ := hring.pieces
  have halen : a.flatten.length = k.len := by
    rw [← ha, length_slice hin, Nat.add_sub_cancel_left]
  rcases List.append_eq_append_iff.1 (hab.symm.trans htaken) with ⟨w, rfl, -⟩ | ⟨w, rfl, rfl⟩
  · rw [List.flatten_append, List.length_append] at hw
    omega
  · rw [htaken] at hsegs
    obtain ⟨x, w', rfl, hslice, hle, hread⟩ := read_next (p := p) ha (by omega) hin (by omega) (by omega)
      fun y hy => hsegs y (List.mem_append_right _ (List.mem_append_left _ hy))
    refine ⟨x, hslice, by omega, hread n, t₁ ++ [segment x], w' ++ b, ?_, ?_, ?_⟩
    · rw [htaken]
      simp only [List.append_assoc, List.cons_append, List.nil_append]
    · rw [List.flatten_append, List.flatten_singleton, List.length_append]
      omega
    · rw [htexts, List.append_assoc]

/-- The same for the second piece. -/
theorem TlogInv.second_segment {p n : ℕ} {k : TlogClaim} (h : TlogInv c s done taken rest) (hpc : s.wpc = .second p n k)
    (hn : 0 < n) (hseg : c.segmentLog = true) :
    ∃ x, slice s.log.buff p (p + (segment x).length) = segment x ∧ (segment x).length ≤ n ∧
      readSegment s.log.buff p n = some (some x, p + (segment x).length, n - (segment x).length) ∧
      ∃ t₁ t₂, taken = t₁ ++ t₂ ∧ k.len + (p + (segment x).length) = t₁.flatten.length ∧
        s.texts.map segment ++ [segment x] = done ++ t₁ := by
  have hring := h.ring
  have hpiece := h.piece
  rw [hpc] at hring hpiece
  have hlen : p + n = k.extlen := hpiece
  have hsegs := h.segments hseg
  obtain ⟨t₁, t₂, htaken, hw, htexts⟩ := h.edge hseg
  rw [show s.written = k.len + p by rw [TlogState.written, hpc]] at hw
  obtain ⟨a, b, hab, ha, hb, hin, hin'⟩ := hring.pieces
  have halen : a.flatten.length = k.len := by
    rw [← ha, length_slice hin, Nat.add_sub_cancel_left]
  -- what has been read of the second piece
  have hfront : ∃ u, t₁ = a ++ u ∧ b = u ++ t₂ := by
    rcases List.append_eq_append_iff.1 (hab.symm.trans htaken) with ⟨u, hu, hb⟩ | ⟨w, rfl, rfl⟩
    · exact ⟨u, hu, hb⟩
    · rw [List.flatten_append, List.length_append] at halen
      have hsub : ∀ y ∈ w, ∃ x, y = segment x ∧ x.length + 1 < 65536 := fun y hy =>
        hsegs y (hab ▸ List.mem_append_left _ (List.mem_append_right _ hy))
      obtain rfl := segments_nil hsub (by omega)
      exact ⟨[], by rw [List.append_nil, List.append_nil], rfl⟩
  obtain ⟨u, rfl, rfl⟩ := hfront
  rw [List.flatten_append, List.length_append, halen] at hw
  rw [htaken] at hsegs
  obtain ⟨x, w', rfl, hslice, hle, hread⟩ := read_next (p := p) hb (Nat.zero_le _) hin' (by omega) (by omega)
    fun y hy => hsegs y (List.mem_append_right _ hy)
  refine ⟨x, hslice, by omega, hread n, a ++ u ++ [segment x], w', ?_, ?_, ?_⟩
  · rw [htaken, List.append_assoc (a ++ u), List.singleton_append]
  · rw [List.flatten_append, List.flatten_singleton, List.flatten_append, List.length_append, List.length_append]
    omega
  · rw [htexts, List.append_assoc]

variable [DecidableEq ι]

/-! ## Steps -/

/-- **Everything a step can do.** -/
inductive TStep (c : TlogConf) (s : TlogState ι c.lineLen) : TlogAct ι c.lineLen → TlogState ι c.lineLen → Prop
  | call {i : ι} {p : Printed c.lineLen} : s.thr i = .idle → TStep c s (.call i p) (s.goto i (.needDrop p))
  | needDrop {i : ι} {p : Printed c.lineLen} : s.thr i = .needDrop p → c.block = false → s.log.room c 0 < c.lineLen →
      TStep c s (.prod i) (s.drop i)
  | needPrint {i : ι} {p : Printed c.lineLen} : s.thr i = .needDrop p → (c.block = false → c.lineLen ≤ s.log.room c 0) →
      TStep c s (.prod i) (s.goto i (.print p))
  | noText {i : ι} {p : Printed c.lineLen} : s.thr i = .print p → p.text = none → TStep c s (.prod i) (s.ret i .noText)
  | print {i : ι} {p : Printed c.lineLen} {text : List UInt8} : s.thr i = .print p → p.text = some text →
      TStep c s (.prod i) (s.goto i (.lock text 0))
  | fullBlock {i : ι} {text : List UInt8} {m : ℤ} : s.thr i = .lock text m → s.log.room c m < c.lineLen → c.block = true →
      TStep c s (.prod i) ({ s with notify := s.notify || decide (s.log.fin ≠ s.log.start) }.goto i
        (.block text (s.log.room c m)))
  | fullDrop {i : ι} {text : List UInt8} {m : ℤ} : s.thr i = .lock text m → s.log.room c m < c.lineLen → c.block = false →
      TStep c s (.prod i) ({ s with notify := s.notify || decide (s.log.fin ≠ s.log.start) }.drop i)
  | put {i : ι} {text : List UInt8} {m : ℤ} {log : TlogLog} : s.thr i = .lock text m → c.lineLen ≤ s.log.room c m →
      s.log.put c text = some log →
      TStep c s (.prod i) { s.ret i (.len text.length) with
        log := log, accepted := s.accepted ++ [text], notify := s.notify || s.isWait }
  | block {i : ι} {text : List UInt8} {m : ℤ} : s.thr i = .block text m →
      TStep c s (.prod i) { s.goto i (.wait text m) with log := { s.log with waiters := s.log.waiters + 1 } }
  | woken {i : ι} {text : List UInt8} {m : ℤ} : s.thr i = .woken text m →
      TStep c s (.prod i) { s.goto i (.lock text m) with log := { s.log with waiters := s.log.waiters - 1 } }
  | spurious {i : ι} {text : List UInt8} {m : ℤ} : s.thr i = .wait text m →
      TStep c s (.spurious i) (s.goto i (.woken text m))
  | finish : s.wpc = .top → s.run = false → s.log.hasData = false → TStep c s .work { s with wpc := .returned }
  | go : s.wpc = .top → (s.run = false → s.log.hasData = true) → TStep c s .work { s with wpc := .next }
  | turn : s.wpc = .next → s.cur = true → TStep c s .work { s with cur := false, wpc := .top }
  | sleep : s.wpc = .next → s.cur = false → s.log.hasData = false → s.run = true →
      TStep c s .work { s with isWait := true, wpc := .wait }
  | look : s.wpc = .next → s.cur = false → (s.run = true → s.log.hasData = true) → TStep c s .work s.take
  | timeout : s.wpc = .wait → s.notify = false →
      TStep c s .work { s with isWait := false, notify := false, cur := false, wpc := .top }
  | notified : s.wpc = .wait → s.notify = true → TStep c s .work { s with isWait := false, notify := false }.take
  | firstDone {p : ℕ} {k : TlogClaim} : s.wpc = .first p 0 k →
      TStep c s .work { s with wpc := TlogState.afterFirst k }
  | secondDone {p : ℕ} {k : TlogClaim} : s.wpc = .second p 0 k → TStep c s .work { s with wpc := .report k }
  | firstSegment {p n : ℕ} {k : TlogClaim} {r : Option (List UInt8) × ℕ × ℕ} : s.wpc = .first p n k → 0 < n →
      c.segmentLog = true → readSegment s.log.buff p n = some r →
      TStep c s .work { s with out := s.out ++ r.1.toList.map .data, wpc := .first r.2.1 r.2.2 k }
  | secondSegment {p n : ℕ} {k : TlogClaim} {r : Option (List UInt8) × ℕ × ℕ} : s.wpc = .second p n k → 0 < n →
      c.segmentLog = true → readSegment s.log.buff p n = some r →
      TStep c s .work { s with out := s.out ++ r.1.toList.map .data, wpc := .second r.2.1 r.2.2 k }
  | firstOut {p n m : ℕ} {k : TlogClaim} : s.wpc = .first p n k → c.segmentLog = false → 0 < m → m ≤ n →
      TStep c s (.out m) { s with out := s.out ++ [.data (slice s.log.buff p (p + m))], wpc := .first (p + m) (n - m) k }
  | secondOut {p n m : ℕ} {k : TlogClaim} : s.wpc = .second p n k → c.segmentLog = false → 0 < m → m ≤ n →
      TStep c s (.out m) { s with out := s.out ++ [.data (slice s.log.buff p (p + m))], wpc := .second (p + m) (n - m) k }
  | report {k : TlogClaim} : s.wpc = .report k →
      TStep c s .work { s with
        out := s.out ++ (if 0 < k.dropped then [.dropped k.dropped] else []), wpc := .release k }
  | release {k : TlogClaim} : s.wpc = .release k → TStep c s .work { s with log := s.log.release k, wpc := .wakeup }
  | wakeup : s.wpc = .wakeup →
      TStep c s .work { s with thr := if 0 < s.log.waiters then TlogState.broadcast s.thr else s.thr, wpc := .top }
  | exit : s.run = true → TStep c s .exit { s with run := false }

theorem prodStep_cases {i : ι} (h : s.prodStep c i = some s') : TStep c s (.prod i) s' := by
  unfold TlogState.prodStep at h
  split at h
  case h_1 => cases h
  case h_2 p hpc =>
    obtain rfl := Option.some.inj h
    split
    · rename_i hfull
      exact .needDrop hpc hfull.1 hfull.2
    · rename_i hroom
      refine .needPrint hpc fun hb => ?_
      have := mt (And.intro hb) hroom
      omega
  case h_3 p hpc =>
    obtain rfl := Option.some.inj h
    split
    · exact .noText hpc ‹_›
    · exact .print hpc ‹_›
  case h_4 text m hpc =>
    simp only at h
    split at h
    · rename_i hfull
      obtain rfl := Option.some.inj h
      have hnotify : (if s.log.fin ≠ s.log.start then { s with notify := true } else s) =
          { s with notify := s.notify || decide (s.log.fin ≠ s.log.start) } := by
        by_cases hne : s.log.fin = s.log.start <;> simp [hne]
      rw [hnotify]
      by_cases hb : c.block = true
      · rw [if_pos hb]
        exact .fullBlock hpc hfull hb
      · rw [if_neg hb]
        exact .fullDrop hpc hfull (by simpa using hb)
    · obtain ⟨log, hput, rfl⟩ := Option.map_eq_some_iff.1 h
      exact .put hpc (by omega) hput
  case h_5 text m hpc =>
    obtain rfl := Option.some.inj h
    exact .block hpc
  case h_6 => cases h
  case h_7 text m hpc =>
    obtain rfl := Option.some.inj h
    exact .woken hpc

theorem workStep_cases (h : s.workStep c = some s') : TStep c s .work s' := by
  unfold TlogState.workStep at h
  split at h
  case h_1 hpc =>
    obtain rfl := Option.some.inj h
    split
    · rename_i hend
      exact .finish hpc hend.1 hend.2
    · rename_i hgo
      exact .go hpc fun hr => by simpa [hr] using hgo
  case h_2 hpc =>
    split at h
    · obtain rfl := Option.some.inj h
      exact .turn hpc ‹_›
    · rename_i hcur
      have hcur' : s.cur = false := by simpa using hcur
      split at h
      · rename_i hnone
        obtain rfl := Option.some.inj h
        exact .sleep hpc hcur' hnone.1 hnone.2
      · rename_i hdata
        obtain rfl := Option.some.inj h
        exact .look hpc hcur' fun hr => by simpa [hr] using hdata
  case h_3 hpc =>
    simp only at h
    split at h
    · obtain rfl := Option.some.inj h
      exact .notified hpc ‹_›
    · rename_i hno
      obtain rfl := Option.some.inj h
      exact .timeout hpc (by simpa using hno)
  case h_4 p n k hpc =>
    split at h
    · rename_i hn
      obtain rfl := Option.some.inj h
      subst hn
      exact .firstDone hpc
    · split at h
      · obtain ⟨r, hr, rfl⟩ := Option.map_eq_some_iff.1 h
        exact .firstSegment hpc (by omega) ‹_› hr
      · cases h
  case h_5 p n k hpc =>
    split at h
    · rename_i hn
      obtain rfl := Option.some.inj h
      subst hn
      exact .secondDone hpc
    · split at h
      · obtain ⟨r, hr, rfl⟩ := Option.map_eq_some_iff.1 h
        exact .secondSegment hpc (by omega) ‹_› hr
      · cases h
  case h_6 k hpc =>
    obtain rfl := Option.some.inj h
    exact .report hpc
  case h_7 k hpc =>
    obtain rfl := Option.some.inj h
    exact .release hpc
  case h_8 hpc =>
    obtain rfl := Option.some.inj h
    exact .wakeup hpc
  case h_9 => cases h

theorem outStep_cases {m : ℕ} (h : s.outStep c m = some s') : TStep c s (.out m) s' := by
  unfold TlogState.outStep at h
  split at h
  case h_1 p n k hpc =>
    split at h
    · rename_i hm
      obtain rfl := Option.some.inj h
      exact .firstOut hpc hm.1 hm.2.1 hm.2.2.1
    · cases h
  case h_2 p n k hpc =>
    split at h
    · rename_i hm
      obtain rfl := Option.some.inj h
      exact .secondOut hpc hm.1 hm.2.1 hm.2.2.1
    · cases h
  case h_3 => cases h

theorem tstep_cases (h : tlogStep c s a = some s') : TStep c s a s' := by
  cases a with
  | call i p =>
    simp only [tlogStep] at h
    split at h
    · obtain rfl := Option.some.inj h
      exact .call ‹_›
    · cases h
  | prod i => exact prodStep_cases h
  | spurious i =>
    simp only [tlogStep] at h
    split at h
    · obtain rfl := Option.some.inj h
      exact .spurious ‹_›
    · cases h
  | work => exact workStep_cases h
  | out m => exact outStep_cases h
  | exit =>
    simp only [tlogStep] at h
    split at h
    · obtain rfl := Option.some.inj h
      exact .exit ‹_›
    · cases h

/-! ## The threads -/

/-- What a call holds can be put. -/
def VPc.Ok (c : TlogConf) : VPc c.lineLen → Prop
  | .idle => True
  | .needDrop p | .print p => ∀ text ∈ p.text, c.Storable text
  | .lock text m | .block text m | .wait text m | .woken text m => m < c.lineLen ∧ c.Storable text

theorem ok_update {thr : ι → VPc c.lineLen} {i : ι} {pc : VPc c.lineLen} (h : ∀ j, (thr j).Ok c) (hpc : pc.Ok c) (j : ι) :
    (Function.update thr i pc j).Ok c := by
  by_cases hj : j = i
  · subst hj
    rw [Function.update_self]
    exact hpc
  · rw [Function.update_of_ne hj]
    exact h j

theorem TStep.threads (h : TStep c s a s') (hc : CallsStorable c s a) (hthr : ∀ i, (s.thr i).Ok c) :
    ∀ i, (s'.thr i).Ok c := by
  have hat : ∀ {i : ι} {pc : VPc c.lineLen}, s.thr i = pc → pc.Ok c := fun hi => hi ▸ hthr _
  have htake : ∀ t : TlogState ι c.lineLen, t.thr = s.thr → ∀ i, (t.take.thr i).Ok c := by
    intro t ht i
    unfold TlogState.take
    split <;> exact ht ▸ hthr i
  cases h with
  | call _ => exact ok_update hthr hc
  | needDrop _ _ _ | noText _ _ | fullDrop _ _ _ | put _ _ _ => exact ok_update hthr trivial
  | needPrint hi _ =>
    have hok := hat hi
    exact ok_update hthr hok
  | print hi ht => exact ok_update hthr ⟨by have := c.lineLen_pos; omega, hat hi _ ht⟩
  | fullBlock hi hfull _ => exact ok_update hthr ⟨hfull, (hat hi).2⟩
  | block hi | woken hi | spurious hi =>
    have hok := hat hi
    exact ok_update hthr hok
  | look _ _ _ => exact htake s rfl
  | notified _ _ => exact htake _ rfl
  | wakeup _ =>
    intro i
    simp only
    split
    · have hi := hthr i
      unfold TlogState.broadcast
      revert hi
      cases s.thr i <;> exact id
    · exact hthr i
  | finish _ _ _ | go _ _ | turn _ _ | sleep _ _ _ _ | timeout _ _ | firstDone _ | secondDone _ | firstSegment _ _ _ _
  | secondSegment _ _ _ _ | firstOut _ _ _ _ | secondOut _ _ _ _ | report _ | release _ | exit _ => exact hthr

/-! ## Every step keeps the records -/

theorem TStep.inv (h : TStep c s a s') (hthr : ∀ i, (s.thr i).Ok c) (hi : TlogInv c s done taken rest) :
    ∃ done' taken' rest', TlogInv c s' done' taken' rest' := by
  have same : s'.log.buff = s.log.buff → s'.log.start = s.log.start → s'.log.fin = s.log.fin →
      s'.log.extEnd = s.log.extEnd → s'.accepted = s.accepted → s'.out = s.out → s'.wpc = s.wpc →
      ∃ done' taken' rest', TlogInv c s' done' taken' rest' :=
    fun h1 h2 h3 h4 h5 h6 h7 => ⟨done, taken, rest, hi.congr h1 h2 h3 h4 h5 h6 h7⟩
  have moved : s.wpc.claim = none → s'.wpc.claim = none → s'.log = s.log → s'.accepted = s.accepted → s'.out = s.out →
      ∃ done' taken' rest', TlogInv c s' done' taken' rest' :=
    fun h1 h2 h3 h4 h5 => ⟨done, taken, rest, hi.move h1 h2 h3 h4 h5⟩
  cases h with
  | call _ | needDrop _ _ _ | needPrint _ _ | noText _ _ | print _ _ | fullBlock _ _ _ | fullDrop _ _ _ | block _ | woken _
  | spurious _ | exit _ => exact same rfl rfl rfl rfl rfl rfl rfl
  | @put i text m log hpc hroom hput =>
    have hok := hthr i
    rw [hpc] at hok
    obtain ⟨hmax, hstore⟩ : m < c.lineLen ∧ c.Storable text := hok
    obtain ⟨log', hput', hring, hstart, -, -⟩ := hi.ring.put hmax hroom hstore.short
    obtain rfl : log = log' := Option.some.inj (hput.symm.trans hput')
    have hwritten : TlogState.written { s.ret i (.len text.length) with
        log := log, accepted := s.accepted ++ [text], notify := s.notify || s.isWait } = s.written := by
      unfold TlogState.written
      simp only [hstart, TlogState.ret, TlogState.goto]
    refine ⟨done, taken, rest ++ [c.record text], ?_, ?_, hring, ?_, ?_, ?_⟩
    · rw [List.map_append, hi.accepted, List.map_singleton, List.append_assoc, List.append_assoc]
    · intro t ht
      rcases List.mem_append.1 ht with ht | ht
      · exact hi.storable t ht
      · exact List.mem_singleton.1 ht ▸ hstore
    · simp only [hstart]
      exact hi.piece
    · rw [hwritten]
      exact hi.out
    · rw [hwritten]
      exact hi.edge
  | finish hpc _ _ | go hpc _ | turn hpc _ | sleep hpc _ _ _ | timeout hpc _ | wakeup hpc =>
    exact moved (by rw [hpc]; rfl) rfl rfl rfl rfl
  | look hpc _ _ =>
    obtain ⟨taken', rest', ht⟩ := hi.take (by rw [hpc]; rfl)
    exact ⟨done, taken', rest', ht⟩
  | notified hpc _ =>
    have hsame : TlogInv c { s with isWait := false, notify := false } done taken rest := hi.congr rfl rfl rfl rfl rfl rfl rfl
    obtain ⟨taken', rest', ht⟩ := hsame.take (by rw [hpc]; rfl)
    exact ⟨done, taken', rest', ht⟩
  | @firstDone p k hpc =>
    have hring := hi.ring
    have hpiece := hi.piece
    have hout := hi.out
    have hedge := hi.edge
    rw [hpc] at hring hpiece
    obtain ⟨-, hp⟩ : s.log.start ≤ p ∧ p + 0 = s.log.start + k.len := hpiece
    have hw : s.written = k.len := by
      rw [TlogState.written, hpc]
      show p - s.log.start = k.len
      omega
    have hw' : TlogState.written { s with wpc := TlogState.afterFirst k } = s.written := by
      rw [hw, TlogState.written, TlogState.afterFirst]
      by_cases hext : 0 < k.extlen
      · rw [if_pos hext]
        rfl
      · rw [if_neg hext]
        show k.len + k.extlen = k.len
        omega
    refine ⟨done, taken, rest, hi.accepted, hi.storable, ?_, ?_, ?_, ?_⟩
    · unfold TlogState.afterFirst
      split <;> exact hring
    · unfold TlogState.afterFirst
      split
      · exact Nat.zero_add _
      · trivial
    · rw [hw']
      exact hout
    · rw [hw']
      exact hedge
  | @secondDone p k hpc =>
    have hring := hi.ring
    have hpiece := hi.piece
    have hout := hi.out
    have hedge := hi.edge
    rw [hpc] at hring hpiece
    have hp : p + 0 = k.extlen := hpiece
    have hw : s.written = k.len + k.extlen := by
      rw [TlogState.written, hpc]
      show k.len + p = k.len + k.extlen
      omega
    rw [hw] at hout hedge
    exact ⟨done, taken, rest, hi.accepted, hi.storable, hring, trivial, hout, hedge⟩
  | @firstSegment p n k r hpc hn hseg hr =>
    obtain ⟨x, hslice, hle, hread, hedge⟩ := hi.first_segment hpc hn hseg
    obtain rfl := Option.some.inj (hr.symm.trans hread)
    refine ⟨done, taken, rest, hi.first_out (o := .data x) hpc hle ?_ fun _ => ?_⟩
    · rw [hslice, TlogOut.raw, record_segment hseg]
    · rw [texts_write]
      exact hedge
  | @secondSegment p n k r hpc hn hseg hr =>
    obtain ⟨x, hslice, hle, hread, hedge⟩ := hi.second_segment hpc hn hseg
    obtain rfl := Option.some.inj (hr.symm.trans hread)
    refine ⟨done, taken, rest, hi.second_out (o := .data x) hpc hle ?_ fun _ => ?_⟩
    · rw [hslice, TlogOut.raw, record_segment hseg]
    · rw [texts_write]
      exact hedge
  | @firstOut p n m k hpc hseg _ hm =>
    refine ⟨done, taken, rest, hi.first_out hpc hm ?_ fun h => ?_⟩
    · exact record_plain hseg _
    · rw [hseg] at h
      cases h
  | @secondOut p n m k hpc hseg _ hm =>
    refine ⟨done, taken, rest, hi.second_out hpc hm ?_ fun h => ?_⟩
    · exact record_plain hseg _
    · rw [hseg] at h
      cases h
  | @report k hpc =>
    have hring := hi.ring
    have hout := hi.out
    have hedge := hi.edge
    rw [hpc] at hring
    rw [show s.written = k.len + k.extlen by rw [TlogState.written, hpc]] at hout hedge
    refine ⟨done, taken, rest, hi.accepted, hi.storable, hring, trivial, ?_, fun hseg => ?_⟩
    · have hdrop : List.flatMap (TlogOut.raw c) (if 0 < k.dropped then [.dropped k.dropped] else []) = [] := by
        split <;> rfl
      rw [List.flatMap_append, hdrop, List.append_nil]
      exact hout
    · obtain ⟨t₁, t₂, htaken, hw, htexts⟩ := hedge hseg
      refine ⟨t₁, t₂, htaken, hw, ?_⟩
      rw [← htexts]
      unfold TlogState.texts
      split
      · rw [List.filterMap_append]
        exact congrArg _ (List.append_nil _)
      · rw [List.append_nil]
  | @release k hpc =>
    have hring := hi.ring
    have hout := hi.out
    rw [hpc] at hring
    rw [show s.written = k.len + k.extlen by rw [TlogState.written, hpc], ← hring.length_taken, List.take_length] at hout
    refine ⟨done ++ taken, [], rest, ?_, hi.storable, hring.release, trivial, ?_, fun hseg => ⟨[], [], rfl, rfl, ?_⟩⟩
    · rw [hi.accepted, List.append_assoc, List.nil_append]
    · rw [hout, List.flatten_append, List.flatten_nil, List.take_nil, List.append_nil]
    · have hsegs := hi.segments hseg
      obtain ⟨t₁, t₂, rfl, hw, htexts⟩ := hi.edge hseg
      rw [show s.written = k.len + k.extlen by rw [TlogState.written, hpc], ← hring.length_taken, List.flatten_append,
        List.length_append] at hw
      obtain rfl := segments_nil (fun y hy => hsegs y (List.mem_append_right _ hy)) (by omega)
      rw [List.append_nil, List.append_nil]
      exact htexts

end HookKernel
