import HookKernel.Proof.Tlog

/-!
# The stream of log messages

* `reach_log`: what holds in every state reached.
* `log_stream`: the bytes written are a front part of those accepted, the rest is in the
  buffer, and a report of dropped messages stands between messages.
* `segment_stream`: a segment log writes the texts one by one.
* `log_never_stuck`: no thread ever leaves the buffer.
-/

namespace HookKernel

open Lib

variable {ι : Type} {c : TlogConf} {s s' : TlogState ι c.lineLen} {a : TlogAct ι c.lineLen}
  {done taken rest : List (List UInt8)} {mem : List UInt8}

/-! ## Reports -/

/-- A report of dropped messages stands behind whole messages. -/
def ReportsWhole (c : TlogConf) (s : TlogState ι c.lineLen) : Prop :=
  ∀ o₁ n o₂, s.out = o₁ ++ .dropped n :: o₂ →
    ∃ texts, texts <+: s.accepted ∧ o₁.flatMap (TlogOut.raw c) = (texts.map c.record).flatten

/-- Where the worker reports, everything it has claimed is written. -/
theorem TlogInv.whole {k : TlogClaim} (h : TlogInv c s done taken rest) (hpc : s.wpc = .report k) :
    ∃ texts, texts <+: s.accepted ∧ s.out.flatMap (TlogOut.raw c) = (texts.map c.record).flatten := by
  have hring := h.ring
  have hout := h.out
  rw [hpc] at hring
  rw [show s.written = k.len + k.extlen by rw [TlogState.written, hpc], ← hring.length_taken, List.take_length] at hout
  have hacc := h.accepted
  rw [← List.append_assoc] at hacc
  obtain ⟨texts, late, hsplit, htexts, -⟩ := List.map_eq_append_iff.1 hacc
  exact ⟨texts, ⟨late, hsplit.symm⟩, by rw [hout, htexts, List.flatten_append]⟩

theorem ReportsWhole.data {o : List TlogOut} (h : ReportsWhole c s) (ho : ∀ n, .dropped n ∉ o) (hout : s'.out = s.out ++ o)
    (hacc : s.accepted <+: s'.accepted) : ReportsWhole c s' := by
  intro o₁ n o₂ hsplit
  rw [hout] at hsplit
  rcases List.append_eq_append_iff.1 hsplit with ⟨w, rfl, hw⟩ | ⟨w, hw, hrest⟩
  · exact absurd (hw ▸ List.mem_append_right w List.mem_cons_self) (ho n)
  · cases w with
    | nil =>
      rw [List.nil_append] at hrest
      exact absurd (hrest ▸ List.mem_cons_self) (ho n)
    | cons r w =>
      obtain ⟨rfl, -⟩ := List.cons.inj hrest
      obtain ⟨texts, hpre, htexts⟩ := h o₁ n w hw
      exact ⟨texts, hpre.trans hacc, htexts⟩

/-! ## What is written -/

/-- What is accepted and not yet written is in the buffer. -/
theorem TlogInv.unwritten (h : TlogInv c s done taken rest) :
    s.out.flatMap (TlogOut.raw c) ++ s.log.ring.drop s.written = (s.accepted.map c.record).flatten := by
  have hle : s.written ≤ taken.flatten.length := by
    have hring := h.ring
    have hpiece := h.piece
    unfold TlogState.written
    cases hpc : s.wpc with
    | first p n k =>
      rw [hpc] at hring hpiece
      have hlen := hring.length_taken
      obtain ⟨h1, h2⟩ : s.log.start ≤ p ∧ p + n = s.log.start + k.len := hpiece
      show p - s.log.start ≤ _
      omega
    | second p n k =>
      rw [hpc] at hring hpiece
      have hlen := hring.length_taken
      have h1 : p + n = k.extlen := hpiece
      show k.len + p ≤ _
      omega
    | report k | release k =>
      rw [hpc] at hring
      exact Nat.le_of_eq hring.length_taken.symm
    | top | next | wait | wakeup | returned => exact Nat.zero_le _
  rw [h.out, h.ring.ring, h.accepted, List.flatten_append, List.flatten_append, List.flatten_append,
    List.drop_append_of_le_length hle, List.append_assoc, ← List.append_assoc (taken.flatten.take _), List.take_append_drop]

/-- The bytes written, in a log without segments. -/
theorem raw_plain (hplain : c.segmentLog = false) (o : List TlogOut) : o.flatMap (TlogOut.raw c) = o.flatMap TlogOut.bytes := by
  congr 1
  funext x
  cases x with
  | data b => exact record_plain hplain b
  | dropped n => rfl

theorem records_plain (hplain : c.segmentLog = false) (texts : List (List UInt8)) : texts.map c.record = texts := by
  conv_rhs => rw [← List.map_id texts]
  exact List.map_congr_left fun t _ => record_plain hplain t

/-- The texts written in a segment log, and those that are still in the buffer. -/
theorem TlogInv.late (h : TlogInv c s done taken rest) (hseg : c.segmentLog = true) :
    ∃ t₁ t₂ late, taken = t₁ ++ t₂ ∧ s.written = t₁.flatten.length ∧ s.accepted = s.texts ++ late ∧
      t₂ ++ rest = late.map segment := by
  obtain ⟨t₁, t₂, rfl, hw, htexts⟩ := h.edge hseg
  have hacc : s.accepted.map segment = s.texts.map segment ++ (t₂ ++ rest) := by
    have hrec : s.accepted.map c.record = s.accepted.map segment :=
      List.map_congr_left fun t _ => record_segment hseg t
    rw [← hrec, h.accepted, htexts, List.append_assoc, List.append_assoc]
  obtain ⟨texts, late, hsplit, hsame, hlate⟩ := List.map_eq_append_iff.1 hacc
  obtain rfl := segment_injective.list_map hsame
  exact ⟨t₁, t₂, late, rfl, hw, hsplit, hlate.symm⟩

/-! ## Steps -/

variable [DecidableEq ι]

theorem TStep.reports (h : TStep c s a s') (hi : TlogInv c s done taken rest) (hr : ReportsWhole c s) :
    ReportsWhole c s' := by
  have quiet : s'.out = s.out → s.accepted <+: s'.accepted → ReportsWhole c s' := fun hout hacc =>
    hr.data (o := []) (fun _ hn => by cases hn) (by rw [hout, List.append_nil]) hacc
  have writes : ∀ r : Option (List UInt8), s'.out = s.out ++ r.toList.map .data → s'.accepted = s.accepted →
      ReportsWhole c s' := by
    intro r hout hacc
    refine hr.data (fun n hn => ?_) hout (hacc ▸ List.prefix_refl _)
    obtain ⟨b, -, hb⟩ := List.mem_map.1 hn
    cases hb
  have looks : ∀ t : TlogState ι c.lineLen, t.out = s.out → t.accepted = s.accepted → s' = t.take → ReportsWhole c s' := by
    rintro t hout hacc rfl
    have htake : t.take.out = t.out ∧ t.take.accepted = t.accepted := by
      unfold TlogState.take
      split <;> exact ⟨rfl, rfl⟩
    exact quiet (htake.1.trans hout) ((htake.2.trans hacc) ▸ List.prefix_refl _)
  cases h with
  | put _ _ _ => exact quiet rfl (List.prefix_append _ _)
  | look _ _ _ => exact looks s rfl rfl rfl
  | notified _ _ => exact looks { s with isWait := false, notify := false } rfl rfl rfl
  | @firstSegment p n k r _ _ _ _ => exact writes r.1 rfl rfl
  | @secondSegment p n k r _ _ _ _ => exact writes r.1 rfl rfl
  | @firstOut p n m k _ _ _ _ => exact writes (some (slice s.log.buff p (p + m))) rfl rfl
  | @secondOut p n m k _ _ _ _ => exact writes (some (slice s.log.buff p (p + m))) rfl rfl
  | @report k hpc =>
    intro o₁ n o₂ hsplit
    by_cases hk : 0 < k.dropped
    · rw [if_pos hk] at hsplit
      rcases List.append_eq_append_iff.1 hsplit with ⟨w, rfl, hw⟩ | ⟨w, hw, hrest⟩
      · -- the report itself
        cases w with
        | nil =>
          rw [List.append_nil]
          exact hi.whole hpc
        | cons x w =>
          have hlen := congrArg List.length hw
          simp at hlen
      · cases w with
        | nil =>
          rw [List.append_nil] at hw
          rw [← hw]
          exact hi.whole hpc
        | cons x w =>
          obtain ⟨rfl, -⟩ := List.cons.inj hrest
          exact hr o₁ n w hw
    · rw [if_neg hk, List.append_nil] at hsplit
      exact hr o₁ n o₂ hsplit
  | call _ | needDrop _ _ _ | needPrint _ _ | noText _ _ | print _ _ | fullBlock _ _ _ | fullDrop _ _ _ | block _ | woken _
  | spurious _ | finish _ _ _ | go _ _ | turn _ _ | sleep _ _ _ _ | timeout _ _ | firstDone _ | secondDone _ | release _
  | wakeup _ | exit _ => exact quiet rfl (List.prefix_refl _)

/-! ## Runs -/

/-- What holds in every state reached. -/
structure LogOk (c : TlogConf) (s : TlogState ι c.lineLen) : Prop where
  threads : ∀ i, (s.thr i).Ok c
  records : ∃ done taken rest, TlogInv c s done taken rest
  reports : ReportsWhole c s

theorem LogOk.step (h : LogOk c s) (hc : CallsStorable c s a) (hs : tlogStep c s a = some s') : LogOk c s' := by
  have hstep := tstep_cases hs
  obtain ⟨done, taken, rest, hinv⟩ := h.records
  exact ⟨hstep.threads hc h.threads, hstep.inv h.threads hinv, hstep.reports hinv h.reports⟩

theorem reach_log (hmem : mem.length = c.buffsize)
    (h : Reach (tlogStep c) (CallsStorable c) (TlogState.init ι c mem) s) : LogOk c s := by
  refine h.inv ⟨fun _ => trivial, ⟨[], [], [], ?_⟩, fun o₁ n o₂ ho => ?_⟩ fun s a s' hi hc hs => hi.step hc hs
  · refine ⟨rfl, fun t ht => ?_, ringOf_init hmem 0 0, trivial, rfl, fun _ => ⟨[], [], rfl, rfl, rfl⟩⟩
    cases ht
  · have hlen := congrArg List.length ho
    simp [TlogState.init] at hlen

/-- Without segments every text can be put. -/
theorem reach_plain (hplain : c.segmentLog = false) (h : Reach (tlogStep c) Any (TlogState.init ι c mem) s) :
    Reach (tlogStep c) (CallsStorable c) (TlogState.init ι c mem) s := by
  refine h.mono fun t a _ => ?_
  cases a with
  | call i p =>
    intro text htext
    refine ⟨?_, fun hseg => ?_⟩
    · rw [record_plain hplain]
      exact Printed.text_lt htext
    · rw [hplain] at hseg
      cases hseg
  | prod _ | spurious _ | work | out _ | exit => trivial

/-- **The stream**: in every run the bytes written, then those in the buffer that are not written yet, are the
accepted messages in the order in which they were accepted; and a report of dropped messages never stands
inside a message. -/
theorem log_stream (hmem : mem.length = c.buffsize) (hplain : c.segmentLog = false)
    (h : Reach (tlogStep c) Any (TlogState.init ι c mem) s) :
    s.out.flatMap TlogOut.bytes ++ s.log.ring.drop s.written = s.accepted.flatten ∧
      ∀ o₁ n o₂, s.out = o₁ ++ .dropped n :: o₂ →
        ∃ texts, texts <+: s.accepted ∧ o₁.flatMap TlogOut.bytes = texts.flatten := by
  obtain ⟨-, ⟨done, taken, rest, hi⟩, hr⟩ := reach_log hmem (reach_plain hplain h)
  refine ⟨?_, fun o₁ n o₂ ho => ?_⟩
  · have hbytes := hi.unwritten
    rwa [raw_plain hplain, records_plain hplain] at hbytes
  · obtain ⟨texts, hpre, htexts⟩ := hr o₁ n o₂ ho
    refine ⟨texts, hpre, ?_⟩
    rwa [raw_plain hplain, records_plain hplain] at htexts

/-- The demo log: lines of 16 bytes, a buffer of 48. -/
def demoTlog (block segmentLog : Bool) : TlogConf := ⟨16, Nat.zero_lt_succ 15, 48, block, segmentLog⟩

/-- Thread `i` prints `n` times the byte `b`. -/
def demoPrint (block segmentLog i : Bool) (n : ℕ) (b : UInt8) : List (TlogAct Bool (demoTlog block segmentLog).lineLen) :=
  [.call i ⟨n, List.replicate 16 b, List.length_replicate⟩, .prod i, .prod i, .prod i]

/-- Run the demo log. -/
def demoTlogRun (block segmentLog : Bool) (as : List (TlogAct Bool (demoTlog block segmentLog).lineLen)) :
    Option (TlogState Bool (demoTlog block segmentLog).lineLen) :=
  run (guarded (tlogStep (demoTlog block segmentLog)) (CallsStorable (demoTlog block segmentLog)))
    (TlogState.init Bool (demoTlog block segmentLog) (List.replicate 48 0)) as

/-- Three messages fill the buffer, the fourth is dropped, and the worker writes. -/
def streamDemo : List (TlogAct Bool (demoTlog false false).lineLen) :=
  demoPrint false false false 12 65 ++ demoPrint false false true 12 66 ++ demoPrint false false false 12 67 ++
    (demoPrint false false true 12 68).take 2 ++ [.work, .work, .out 20, .out 16, .work, .work, .work] ++
    demoPrint false false true 5 69

theorem streamDemo_runs : (demoTlogRun false false streamDemo).isSome := by
  decide +kernel

def streamDemoEnd : TlogState Bool (demoTlog false false).lineLen := runTo streamDemo_runs

/-- A run with a wrap and a drop. -/
theorem log_stream_demo :
    streamDemoEnd.accepted.map List.length = [12, 12, 12, 5] ∧ streamDemoEnd.out.map TlogOut.lost = [0, 0, 1] ∧
      streamDemoEnd.out.flatMap TlogOut.bytes ++ streamDemoEnd.log.ring.drop streamDemoEnd.written =
        streamDemoEnd.accepted.flatten :=
  ⟨by decide +kernel, by decide +kernel,
    (log_stream List.length_replicate rfl
      ((reach_runTo_guarded streamDemo_runs).mono fun _ _ _ => trivial)).1⟩

/-- **A segment log writes the texts one by one**: those written are a front part of the accepted ones, and the
segments of the others are in the buffer. -/
theorem segment_stream (hmem : mem.length = c.buffsize) (hseg : c.segmentLog = true)
    (h : Reach (tlogStep c) (CallsStorable c) (TlogState.init ι c mem) s) :
    ∃ late, s.accepted = s.texts ++ late ∧ s.log.ring.drop s.written = (late.map segment).flatten := by
  obtain ⟨-, ⟨done, taken, rest, hi⟩, -⟩ := reach_log hmem h
  obtain ⟨t₁, t₂, late, rfl, hw, hsplit, hlate⟩ := hi.late hseg
  refine ⟨late, hsplit, ?_⟩
  rw [hi.ring.ring, hw, ← hlate, List.flatten_append, List.flatten_append, List.append_assoc, List.drop_left,
    List.flatten_append]

/-- Three segments fill the buffer, and the worker writes two of them. -/
def segmentDemo : List (TlogAct Bool (demoTlog true true).lineLen) :=
  demoPrint true true false 8 65 ++ demoPrint true true true 8 66 ++ demoPrint true true false 4 67 ++
    [.work, .work, .work, .work]

theorem segmentDemo_runs : (demoTlogRun true true segmentDemo).isSome := by
  decide +kernel

def segmentDemoEnd : TlogState Bool (demoTlog true true).lineLen := runTo segmentDemo_runs

theorem segment_stream_demo :
    segmentDemoEnd.texts = [List.replicate 8 65, List.replicate 8 66] ∧
      ∃ late, segmentDemoEnd.accepted = segmentDemoEnd.texts ++ late ∧
        segmentDemoEnd.log.ring.drop segmentDemoEnd.written = (late.map segment).flatten :=
  ⟨by decide +kernel,
    segment_stream List.length_replicate rfl (reach_runTo_guarded segmentDemo_runs)⟩

/-- A call that does not wait goes on. -/
theorem LogOk.call_goes (h : LogOk c s) (i : ι) : (s.thr i).Resting ∨ ∃ s', tlogStep c s (.prod i) = some s' := by
  obtain ⟨hthr, ⟨done, taken, rest, hi⟩, -⟩ := h
  have hok := hthr i
  simp only [tlogStep, TlogState.prodStep]
  cases hpc : s.thr i with
  | idle | wait text m => exact Or.inl trivial
  | needDrop p | print p | block text m | woken text m => exact Or.inr ⟨_, rfl⟩
  | lock text m =>
    rw [hpc] at hok
    obtain ⟨hmax, hstore⟩ : m < c.lineLen ∧ c.Storable text := hok
    refine Or.inr ?_
    simp only
    split
    · exact ⟨_, rfl⟩
    · obtain ⟨log', hput, -⟩ := hi.ring.put hmax (by omega) hstore.short
      exact ⟨_, by rw [hput]; rfl⟩

/-- The worker goes on until it has returned. -/
theorem LogOk.worker_goes (h : LogOk c s) :
    s.wpc = .returned ∨ (∃ s', tlogStep c s .work = some s') ∨ ∃ m s', tlogStep c s (.out m) = some s' := by
  obtain ⟨-, ⟨done, taken, rest, hi⟩, -⟩ := h
  have hring := hi.ring
  have hpiece := hi.piece
  simp only [tlogStep, TlogState.workStep, TlogState.outStep]
  cases hpc : s.wpc with
  | returned => exact Or.inl rfl
  | top | report k | release k | wakeup => exact Or.inr (Or.inl ⟨_, rfl⟩)
  | next =>
    refine Or.inr (Or.inl ?_)
    simp only
    split
    · exact ⟨_, rfl⟩
    · split <;> exact ⟨_, rfl⟩
  | wait =>
    refine Or.inr (Or.inl ?_)
    simp only
    split <;> exact ⟨_, rfl⟩
  | first p n k =>
    rw [hpc] at hring hpiece
    obtain ⟨-, hn⟩ : s.log.start ≤ p ∧ p + n = s.log.start + k.len := hpiece
    obtain ⟨a, b, -, -, -, hin, -⟩ := hring.pieces
    rcases Nat.eq_zero_or_pos n with rfl | hpos
    · exact Or.inr (Or.inl ⟨_, if_pos rfl⟩)
    · by_cases hseg : c.segmentLog = true
      · obtain ⟨x, -, -, hread, -⟩ := hi.first_segment hpc hpos hseg
        have hne : n ≠ 0 := by omega
        simp only [hne, hseg, hread, if_true, if_false]
        exact Or.inr (Or.inl ⟨_, rfl⟩)
      · exact Or.inr (Or.inr ⟨1, _, if_pos ⟨by simpa using hseg, by omega, by omega, by omega⟩⟩)
  | second p n k =>
    rw [hpc] at hring hpiece
    have hn : p + n = k.extlen := hpiece
    obtain ⟨a, b, -, -, -, -, hin⟩ := hring.pieces
    rcases Nat.eq_zero_or_pos n with rfl | hpos
    · exact Or.inr (Or.inl ⟨_, if_pos rfl⟩)
    · by_cases hseg : c.segmentLog = true
      · obtain ⟨x, -, -, hread, -⟩ := hi.second_segment hpc hpos hseg
        have hne : n ≠ 0 := by omega
        simp only [hne, hseg, hread, if_true, if_false]
        exact Or.inr (Or.inl ⟨_, rfl⟩)
      · exact Or.inr (Or.inr ⟨1, _, if_pos ⟨by simpa using hseg, by omega, by omega, by omega⟩⟩)

/-- **No thread leaves the buffer**: a call that is not waiting can always go on, and so can the worker until
it has returned. -/
theorem log_never_stuck (hmem : mem.length = c.buffsize)
    (h : Reach (tlogStep c) (CallsStorable c) (TlogState.init ι c mem) s) :
    (∀ i, (s.thr i).Resting ∨ ∃ s', tlogStep c s (.prod i) = some s') ∧
      (s.wpc = .returned ∨ (∃ s', tlogStep c s .work = some s') ∨ ∃ m s', tlogStep c s (.out m) = some s') :=
  ⟨(reach_log hmem h).call_goes, (reach_log hmem h).worker_goes⟩

/-- The worker is inside the first piece of a segment log. -/
theorem log_never_stuck_demo :
    segmentDemoEnd.wpc ≠ .returned ∧ ((∃ s', tlogStep (demoTlog true true) segmentDemoEnd .work = some s') ∨
      ∃ m s', tlogStep (demoTlog true true) segmentDemoEnd (.out m) = some s') := by
  have hpc : segmentDemoEnd.wpc ≠ .returned := by decide +kernel
  exact ⟨hpc, (log_never_stuck List.length_replicate
    (reach_runTo_guarded segmentDemo_runs)).2.resolve_left hpc⟩

/-! ## Segments that are too long -/

/-- `n` bytes of one segment log after another are in use, and no call is under way. -/
structure Filled (c : TlogConf) (s : TlogState ι c.lineLen) (n : ℕ) : Prop where
  length : s.log.buff.length = c.buffsize
  start : s.log.start = 0
  fin : s.log.fin = n
  extEnd : s.log.extEnd = 0
  idle : ∀ i, s.thr i = .idle

/-- A text of `n` bytes. -/
def printed (c : TlogConf) (n : ℕ) : Printed c.lineLen := ⟨n, List.replicate c.lineLen 0, List.length_replicate⟩

theorem text_printed {n : ℕ} (hpos : 0 < n) (hn : n < c.lineLen) : (printed c n).text = some (List.replicate n 0) := by
  have hlen : (printed c n).len = n := rfl
  unfold Printed.text
  rw [hlen, if_neg (by omega), if_neg (by omega)]
  simp only [printed, Int.toNat_natCast, List.take_replicate, Nat.min_eq_left (Nat.le_of_lt hn)]

/-- A call comes to the point where it puts its text. -/
theorem Filled.lock {n k : ℕ} (h : Filled c s n) (hn : n ≤ c.lim) (hline : c.lineLen ≤ c.buffsize) (hpos : 0 < k)
    (hk : k < c.lineLen) (i : ι) :
    ∃ s', Reach (tlogStep c) Any s s' ∧ s'.thr i = .lock (List.replicate k 0) 0 ∧ (∀ j, j ≠ i → s'.thr j = .idle) ∧
      s'.log = s.log ∧ (c.lineLen : ℤ) ≤ s'.log.room c 0 := by
  have hroom : (c.lineLen : ℤ) ≤ s.log.room c 0 := by
    have hlim : n + c.lineLen ≤ c.buffsize := by unfold TlogConf.lim at hn; omega
    unfold TlogLog.room
    rw [h.start, h.fin, h.extEnd]
    split
    · rw [if_pos rfl]
      omega
    · split <;> omega
  have hother : ∀ {t : TlogState ι c.lineLen} {pc : VPc c.lineLen}, (∀ j, j ≠ i → t.thr j = .idle) →
      ∀ j, j ≠ i → (t.goto i pc).thr j = .idle := by
    intro t pc ht j hj
    exact (Function.update_of_ne hj _ _).trans (ht j hj)
  have hself : ∀ (t : TlogState ι c.lineLen) (pc : VPc c.lineLen), (t.goto i pc).thr i = pc := by
    intro t pc
    simp only [TlogState.goto, Function.update_self]
  have hcall : tlogStep c s (.call i (printed c k)) = some (s.goto i (.needDrop (printed c k))) := by
    simp only [tlogStep, h.idle i]
  set s₁ := s.goto i (.needDrop (printed c k)) with hs₁
  have hneed : tlogStep c s₁ (.prod i) = some (s₁.goto i (.print (printed c k))) := by
    have hlog : s₁.log = s.log := rfl
    simp only [tlogStep, TlogState.prodStep, hs₁, hself]
    rw [← hs₁, if_neg (by rw [hlog]; omega)]
  set s₂ := s₁.goto i (.print (printed c k)) with hs₂
  have hprint : tlogStep c s₂ (.prod i) = some (s₂.goto i (.lock (List.replicate k 0) 0)) := by
    simp only [tlogStep, TlogState.prodStep, hs₂, hself, text_printed hpos hk]
  refine ⟨_, .next (.next (.next .init trivial hcall) trivial hneed) trivial hprint, hself _ _, ?_, rfl, hroom⟩
  exact hother (hother (hother fun j _ => h.idle j))

/-- Another segment fills the buffer further. -/
theorem Filled.fill {n k : ℕ} (h : Filled c s n) (hseg : c.segmentLog = true) (hline : c.lineLen ≤ c.buffsize) (hpos : 0 < k)
    (hk : k < c.lineLen) (hn : n + (k + 7) ≤ c.lim) (i : ι) : ∃ s', Reach (tlogStep c) Any s s' ∧ Filled c s' (n + (k + 7)) := by
  obtain ⟨s₁, hreach, hpc, hidle, hlog, hroom⟩ := h.lock (by omega) hline hpos hk i
  have hlen : (c.record (List.replicate k 0)).length = k + 7 := by
    rw [record_segment hseg, length_segment, List.length_replicate]
  have hlim : c.lim + c.lineLen = c.buffsize := by unfold TlogConf.lim; omega
  have hfit : s₁.log.fin + (k + 7) ≤ s₁.log.buff.length := by
    rw [hlog, h.fin, h.length]
    omega
  have hput : s₁.log.put c (List.replicate k 0) = some { s₁.log with
      buff := overwrite s₁.log.buff s₁.log.fin (c.record (List.replicate k 0)), fin := s₁.log.fin + (k + 7) } := by
    simp only [TlogLog.put]
    rw [copyInto_eq_some (Nat.le_refl _) (hlen ▸ hfit), List.take_length, Option.map_some, hlen, if_neg]
    rw [hlog, h.fin]
    omega
  have hstep : tlogStep c s₁ (.prod i) = some { s₁.ret i (.len k) with
      log := { s₁.log with
        buff := overwrite s₁.log.buff s₁.log.fin (c.record (List.replicate k 0)), fin := s₁.log.fin + (k + 7) }
      accepted := s₁.accepted ++ [List.replicate k 0]
      notify := s₁.notify || s₁.isWait } := by
    simp only [tlogStep, TlogState.prodStep, hpc]
    rw [if_neg (by omega), hput, List.length_replicate]
    rfl
  refine ⟨_, .next hreach trivial hstep, ?_, ?_, ?_, ?_, fun j => ?_⟩
  · show (overwrite _ _ _).length = _
    rw [length_overwrite (hlen ▸ hfit), hlog, h.length]
  · show s₁.log.start = 0
    rw [hlog, h.start]
  · show s₁.log.fin + (k + 7) = _
    rw [hlog, h.fin]
  · show s₁.log.extEnd = 0
    rw [hlog, h.extEnd]
  · show Function.update s₁.thr i .idle j = .idle
    by_cases hj : j = i
    · rw [hj, Function.update_self]
    · rw [Function.update_of_ne hj]
      exact hidle j hj

/-- **A segment log leaves its buffer**: the head and the NUL do not count as part of the line, so that a text of
`TLOG_MAX_LINE_LEN - 1` bytes is put where there is room for `TLOG_MAX_LINE_LEN` only. -/
theorem segment_overrun (hmem : mem.length = c.buffsize) (hseg : c.segmentLog = true) (hline : 9 ≤ c.lineLen)
    (hbuff : 2 * c.lineLen ≤ c.buffsize) (i : ι) :
    ∃ s text m, Reach (tlogStep c) Any (TlogState.init ι c mem) s ∧ s.thr i = .lock text m ∧ text.length < c.lineLen ∧
      (c.lineLen : ℤ) ≤ s.log.room c m ∧ tlogStep c s (.prod i) = none := by
  have hlim : c.lim + c.lineLen = c.buffsize := by unfold TlogConf.lim; omega
  have hinit : Filled c (TlogState.init ι c mem) 0 := ⟨hmem, rfl, rfl, rfl, fun _ => rfl⟩
  -- segments of 8 bytes, and a last one of 8 to 15
  have heights : ∀ q, 8 * q ≤ c.lim → ∃ s, Reach (tlogStep c) Any (TlogState.init ι c mem) s ∧ Filled c s (8 * q) := by
    intro q
    induction q with
    | zero => exact fun _ => ⟨_, .init, hinit⟩
    | succ q ih =>
      intro hq
      obtain ⟨s, hreach, hs⟩ := ih (by omega)
      obtain ⟨s', hreach', hs'⟩ := hs.fill hseg (by omega) (k := 1) (by decide) (by omega) (by omega) i
      exact ⟨s', hreach.trans hreach', hs'⟩
  obtain ⟨s, hreach, hs⟩ := heights (c.lim / 8 - 1) (by omega)
  obtain ⟨s', hreach', hs'⟩ := hs.fill hseg (by omega) (k := 1 + c.lim % 8) (by omega) (by omega) (by omega) i
  have hfull : 8 * (c.lim / 8 - 1) + (1 + c.lim % 8 + 7) = c.lim := by omega
  rw [hfull] at hs'
  obtain ⟨t, hreach'', hpc, -, hlog, hroom⟩ :=
    hs'.lock (Nat.le_refl _) (by omega) (k := c.lineLen - 1) (by omega) (by omega) i
  refine ⟨t, _, 0, (hreach.trans hreach').trans hreach'', hpc, by rw [List.length_replicate]; omega, hroom, ?_⟩
  have hlen : (c.record (List.replicate (c.lineLen - 1) 0)).length = c.lineLen + 6 := by
    rw [record_segment hseg, length_segment, List.length_replicate]
    omega
  have hput : t.log.put c (List.replicate (c.lineLen - 1) 0) = none := by
    simp only [TlogLog.put]
    rw [copyInto_eq_none, Option.map_none]
    rw [hlog, hs'.fin, hs'.length, hlen]
    omega
  simp only [tlogStep, TlogState.prodStep, hpc]
  rw [if_neg (by omega), hput, Option.map_none]

/-- The log as `tlog_init` opens it by default, with segments. -/
def defaultSegmentTlog : TlogConf := ⟨1024, by decide, 1024 * 128, true, true⟩

theorem segment_overrun_demo :
    ∃ s text m, Reach (tlogStep defaultSegmentTlog) Any
        (TlogState.init Bool defaultSegmentTlog (List.replicate (1024 * 128) 0)) s ∧
      s.thr true = .lock text m ∧ text.length < 1024 ∧ 1024 ≤ s.log.room defaultSegmentTlog m ∧
        tlogStep defaultSegmentTlog s (.prod true) = none :=
  segment_overrun List.length_replicate rfl (by decide) (by decide) true

end HookKernel
