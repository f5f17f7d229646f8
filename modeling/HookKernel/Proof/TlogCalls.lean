import HookKernel.Proof.TlogStream

/-!
# The calls, the shutdown and those who wait

* `drops_accounted`: the calls that returned for want of room are those the worker
  reported, has seen, or will see.
* `log_shutdown`: after `tlog_exit` the worker returns, and has written everything.
* `wait_exact`: a call that waits is woken by the worker exactly if there is data, or the
  worker is on its way to wake it.
-/

namespace HookKernel

open Lib

variable {ι : Type} {c : TlogConf} {s s' : TlogState ι c.lineLen} {a : TlogAct ι c.lineLen}
  {done taken rest : List (List UInt8)} {mem : List UInt8}

/-! ## Drops -/

theorem lostReported_append (o o' : List TlogOut) : lostReported (o ++ o') = lostReported o + lostReported o' := by
  induction o with
  | nil => exact (Nat.zero_add _).symm
  | cons x o ih => rw [List.cons_append, lostReported, lostReported, ih, Nat.add_assoc]

theorem lostReported_data (r : List (List UInt8)) : lostReported (r.map .data) = 0 := by
  induction r with
  | nil => rfl
  | cons b r ih => rw [List.map_cons, lostReported, ih]; rfl

/-- The lengths that calls returned. -/
def VRet.lenOf : VRet → Option ℕ
  | .len n => some n
  | .noRoom | .noText => none

/-- **The calls that returned.** -/
structure DropsCounted (c : TlogConf) (s : TlogState ι c.lineLen) : Prop where
  drops : s.rets.countP (fun r => r.2 = .noRoom) = lostReported s.out + s.wpc.lost + s.log.dropped
  block : c.block = true → s.log.dropped = 0 ∧ s.wpc.lost = 0 ∧ lostReported s.out = 0
  lens : s.rets.filterMap (fun r => r.2.lenOf) = s.accepted.map List.length

/-- The worker takes the count of drops with its claim. -/
theorem DropsCounted.take (h : DropsCounted c s) (hpc : s.wpc.lost = 0) : DropsCounted c s.take := by
  have hdrops := h.drops
  have hblock := h.block
  unfold TlogState.take
  split
  · exact ⟨by rw [hdrops, hpc]; rfl, fun hb => ⟨(hblock hb).1, rfl, (hblock hb).2.2⟩, h.lens⟩
  · refine ⟨?_, fun hb => ⟨rfl, (hblock hb).1, (hblock hb).2.2⟩, h.lens⟩
    show s.rets.countP _ = lostReported s.out + s.log.dropped + 0
    rw [hdrops, hpc]
    rfl

/-- The worker moves and writes what was never dropped. -/
theorem DropsCounted.move (h : DropsCounted c s) (hrets : s'.rets = s.rets) (hacc : s'.accepted = s.accepted)
    (hdropped : s'.log.dropped = s.log.dropped)
    (hlost : lostReported s'.out + s'.wpc.lost = lostReported s.out + s.wpc.lost) : DropsCounted c s' := by
  refine ⟨?_, fun hb => ?_, ?_⟩
  · rw [hrets, hdropped, hlost]
    exact h.drops
  · obtain ⟨h1, h2, h3⟩ := h.block hb
    omega
  · rw [hrets, hacc]
    exact h.lens

theorem put_dropped {log log' : TlogLog} {text : List UInt8} (h : log.put c text = some log') : log'.dropped = log.dropped := by
  simp only [TlogLog.put] at h
  obtain ⟨buff, -, rfl⟩ := Option.map_eq_some_iff.1 h
  split <;> rfl

variable [DecidableEq ι]

theorem DropsCounted.ret (h : DropsCounted c s) (i : ι) {r : VRet} (hr : r ≠ .noRoom) :
    (s.ret i r).rets.countP (fun r => r.2 = .noRoom) = lostReported s.out + s.wpc.lost + s.log.dropped := by
  have hno : ([(i, r)] : List (ι × VRet)).countP (fun r => r.2 = .noRoom) = 0 := by simp [hr]
  show (s.rets ++ [(i, r)]).countP _ = _
  rw [List.countP_append, hno, h.drops, Nat.add_zero]

theorem DropsCounted.drop (h : DropsCounted c s) (hb : c.block = false) (i : ι) : DropsCounted c (s.drop i) := by
  refine ⟨?_, fun hblock => ?_, ?_⟩
  · show (s.rets ++ [(i, VRet.noRoom)]).countP _ = lostReported s.out + s.wpc.lost + (s.log.dropped + 1)
    rw [List.countP_append, h.drops]
    rfl
  · rw [hb] at hblock
    cases hblock
  · show (s.rets ++ [(i, VRet.noRoom)]).filterMap _ = _
    rw [List.filterMap_append, h.lens]
    exact List.append_nil _

theorem TStep.dropsCounted (h : TStep c s a s') (hi : DropsCounted c s) : DropsCounted c s' := by
  cases h with
  | needDrop _ hb _ => exact hi.drop hb _
  | @fullDrop i text m _ _ hb =>
    have hsame : DropsCounted c { s with notify := s.notify || decide (s.log.fin ≠ s.log.start) } := hi.move rfl rfl rfl rfl
    exact hsame.drop hb i
  | @noText i p _ _ =>
    refine ⟨hi.ret i (by simp), hi.block, ?_⟩
    show (s.rets ++ [(i, VRet.noText)]).filterMap _ = _
    rw [List.filterMap_append, hi.lens]
    exact List.append_nil _
  | @put i text m log _ _ hp =>
    have hd := put_dropped hp
    refine ⟨?_, fun hb => ?_, ?_⟩
    · show (s.ret i (.len text.length)).rets.countP _ = lostReported s.out + s.wpc.lost + log.dropped
      rw [hi.ret i (by simp), hd]
    · show log.dropped = 0 ∧ _
      rw [hd]
      exact hi.block hb
    · show (s.rets ++ [(i, VRet.len text.length)]).filterMap _ = (s.accepted ++ [text]).map _
      rw [List.filterMap_append, hi.lens, List.map_append]
      rfl
  | call _ | needPrint _ _ | print _ _ | fullBlock _ _ _ | block _ | woken _ | spurious _ | exit _ =>
    exact hi.move rfl rfl rfl rfl
  | look hpc _ _ => exact hi.take (by rw [hpc]; rfl)
  | notified hpc _ =>
    have hsame : DropsCounted c { s with isWait := false, notify := false } := hi.move rfl rfl rfl rfl
    exact hsame.take (by show s.wpc.lost = 0; rw [hpc]; rfl)
  | finish hpc _ _ | go hpc _ | turn hpc _ | sleep hpc _ _ _ | timeout hpc _ | wakeup hpc | secondDone hpc | release hpc =>
    exact hi.move rfl rfl rfl (by rw [hpc]; rfl)
  | @firstDone p k hpc =>
    refine hi.move rfl rfl rfl ?_
    rw [hpc]
    show lostReported s.out + (TlogState.afterFirst k).lost = lostReported s.out + k.dropped
    unfold TlogState.afterFirst
    split <;> rfl
  | @firstSegment p n k r hpc _ _ _ | @secondSegment p n k r hpc _ _ _ =>
    refine hi.move rfl rfl rfl ?_
    show lostReported (s.out ++ _) + _ = _
    rw [lostReported_append, lostReported_data, hpc]
    rfl
  | @firstOut p n m k hpc _ _ _ | @secondOut p n m k hpc _ _ _ =>
    refine hi.move rfl rfl rfl ?_
    show lostReported (s.out ++ [TlogOut.data _]) + _ = _
    rw [lostReported_append, hpc]
    rfl
  | @report k hpc =>
    refine hi.move rfl rfl rfl ?_
    show lostReported (s.out ++ _) + 0 = _
    rw [lostReported_append, hpc]
    show lostReported s.out + _ = lostReported s.out + k.dropped
    split
    · rfl
    · show lostReported s.out + 0 = _
      omega

/-- **Every drop is accounted for**: the calls that returned for want of room are as many as the worker has
reported, has taken and not reported yet, and still finds in the log. A blocking log drops nothing; and the
lengths returned are those of the accepted messages, in this order. -/
theorem drops_accounted (h : Reach (tlogStep c) Any (TlogState.init ι c mem) s) :
    s.rets.countP (fun r => r.2 = .noRoom) = lostReported s.out + s.wpc.lost + s.log.dropped ∧
      (c.block = true → s.rets.countP (fun r => r.2 = .noRoom) = 0) ∧
      s.rets.filterMap (fun r => r.2.lenOf) = s.accepted.map List.length := by
  have hacc : DropsCounted c s := by
    refine h.inv ⟨rfl, fun _ => ⟨rfl, rfl, rfl⟩, rfl⟩ fun s a s' hi _ hs => ?_
    exact (tstep_cases hs).dropsCounted hi
  refine ⟨hacc.drops, fun hb => ?_, hacc.lens⟩
  obtain ⟨h1, h2, h3⟩ := hacc.block hb
  rw [hacc.drops]
  omega

/-- Of the demo run one drop is reported. -/
theorem drops_accounted_demo :
    streamDemoEnd.rets.countP (fun r => r.2 = .noRoom) = 1 ∧
      streamDemoEnd.rets.countP (fun r => r.2 = .noRoom) =
        lostReported streamDemoEnd.out + streamDemoEnd.wpc.lost + streamDemoEnd.log.dropped :=
  ⟨by decide +kernel,
    (drops_accounted ((reach_runTo_guarded streamDemo_runs).mono fun _ _ _ => trivial)).1⟩

/-! ## The rank of the worker -/

section Rank

omit [DecidableEq ι]

/-- Bytes in the buffer that the worker has not claimed. -/
def TlogState.unclaimed (s : TlogState ι c.lineLen) : ℕ :=
  s.log.ring.length - (s.wpc.claim.elim 0 fun k => k.len + k.extlen)

/-- What the worker still has to write of its claim. -/
def WPc.left : WPc → ℕ
  | .first _ n k => n + k.extlen
  | .second _ n _ => n
  | _ => 0

/-- How far the worker is from its next claim, or from its end. -/
def TlogState.ahead (s : TlogState ι c.lineLen) : ℕ :=
  match s.wpc with
  | .first _ _ _ => 9
  | .second _ _ _ => 8
  | .report _ => 7
  | .release _ => 6
  | .wakeup | .wait => 5
  | .top => if s.log.hasData then (if s.cur then 4 else 2) else 1
  | .next => if s.log.hasData then (if s.cur then 3 else 1) else 2
  | .returned => 0

/-- What the worker has to do for the data that is there. -/
def TlogState.workLeft (s : TlogState ι c.lineLen) : ℕ := 12 * s.unclaimed + s.wpc.left + s.ahead

theorem unclaimed_eq (h : RingOf c s.log s.wpc.claim taken rest) : s.unclaimed = rest.flatten.length := by
  unfold TlogState.unclaimed
  rw [h.ring, List.flatten_append, List.length_append]
  cases hclaim : s.wpc.claim with
  | none =>
    rw [hclaim] at h
    obtain ⟨-, -, -, -, rfl, -⟩ := h
    exact Nat.zero_add _
  | some k =>
    rw [hclaim] at h
    rw [h.length_taken]
    exact Nat.add_sub_cancel_left _ _

theorem ahead_le (s : TlogState ι c.lineLen) : s.ahead ≤ 9 := by
  unfold TlogState.ahead
  repeat' split
  all_goals omega

/-- **The worker claims the data**, and gets nearer to its end. -/
theorem workLeft_take (h : RingOf c s.log none taken rest) :
    s.take.workLeft + 1 ≤ 12 * rest.flatten.length + (if s.log.hasData then 1 else 2) := by
  unfold TlogState.take
  by_cases hdata : s.log.hasData = true
  · rw [if_neg (by simp [hdata]), if_pos hdata]
    have hpos := h.nonempty hdata
    have hring := h.claim hdata
    have hlen := hring.length_taken
    set t : TlogState ι c.lineLen := { s with
      cur := true, wpc := .first s.log.start s.log.claim.len s.log.claim, log := { s.log with dropped := 0 } }
    have hun : t.unclaimed = 0 := unclaimed_eq (s := t) hring
    have hleft : t.wpc.left = s.log.claim.len + s.log.claim.extlen := rfl
    have hnow : t.ahead = 9 := rfl
    unfold TlogState.workLeft
    rw [hun, hleft, hnow]
    omega
  · rw [if_pos (by simpa using hdata), if_neg hdata]
    set t : TlogState ι c.lineLen := { s with cur := true, wpc := .top }
    have hun : t.unclaimed = rest.flatten.length := unclaimed_eq (s := t) h
    have hleft : t.wpc.left = 0 := rfl
    have hnow : t.ahead = 1 := if_neg hdata
    unfold TlogState.workLeft
    rw [hun, hleft, hnow]

/-- A worker without a claim wakes nobody unless there is data. -/
theorem TlogState.WillWake.data (h : s.WillWake) (hpc : s.wpc = .top ∨ s.wpc = .next) : s.log.hasData = true := by
  unfold TlogState.WillWake at h
  rcases hpc with hpc | hpc <;> simpa [hpc, WPc.claim] using h

end Rank

/-- What a call may still add. -/
def VPc.ahead : VPc c.lineLen → ℕ
  | .idle => 0
  | _ => 12 * c.lineLen

/-- What the worker has claimed does not change what it has not. -/
theorem TStep.unclaimed (h : TStep c s a s') (hi : TlogInv c s done taken rest) (ha : a.ofWorker = true)
    (hclaim : s.wpc.claim.isSome = true) : s'.unclaimed = s.unclaimed := by
  have hring := hi.ring
  cases h with
  | call _ | needDrop _ _ _ | needPrint _ _ | noText _ _ | print _ _ | fullBlock _ _ _ | fullDrop _ _ _ | put _ _ _
  | block _ | woken _ | spurious _ | exit _ => cases ha
  | finish hpc _ _ | go hpc _ | turn hpc _ | sleep hpc _ _ _ | look hpc _ _ | timeout hpc _ | notified hpc _ | wakeup hpc =>
    rw [hpc] at hclaim
    cases hclaim
  | @firstDone p k hpc =>
    unfold TlogState.unclaimed TlogState.afterFirst
    rw [hpc]
    split <;> rfl
  | secondDone hpc | firstSegment hpc _ _ _ | secondSegment hpc _ _ _ | firstOut hpc _ _ _ | secondOut hpc _ _ _
  | report hpc =>
    unfold TlogState.unclaimed
    rw [hpc]
    rfl
  | @release k hpc =>
    rw [hpc] at hring
    have hun : s.unclaimed = rest.flatten.length := unclaimed_eq hi.ring
    have hun' : ({ s with log := s.log.release k, wpc := .wakeup } : TlogState ι c.lineLen).unclaimed = rest.flatten.length :=
      unclaimed_eq (s := { s with log := s.log.release k, wpc := .wakeup }) hring.release
    exact hun'.trans hun.symm

/-- With a claim the worker gets nearer to its broadcast. -/
theorem TStep.claimLeft (h : TStep c s a s') (hi : TlogInv c s done taken rest) (ha : a.ofWorker = true)
    (hclaim : s.wpc.claim.isSome = true) :
    (s'.wpc.claim.isSome = true ∨ s'.wpc = .wakeup) ∧ s'.wpc.left + s'.ahead + 1 ≤ s.wpc.left + s.ahead := by
  cases h with
  | call _ | needDrop _ _ _ | needPrint _ _ | noText _ _ | print _ _ | fullBlock _ _ _ | fullDrop _ _ _ | put _ _ _
  | block _ | woken _ | spurious _ | exit _ => cases ha
  | finish hpc _ _ | go hpc _ | turn hpc _ | sleep hpc _ _ _ | look hpc _ _ | timeout hpc _ | notified hpc _ | wakeup hpc =>
    rw [hpc] at hclaim
    cases hclaim
  | @firstDone p k hpc =>
    by_cases hext : 0 < k.extlen <;> simp [TlogState.ahead, TlogState.afterFirst, hpc, hext, WPc.left, WPc.claim]
  | @secondDone p k hpc => simp [TlogState.ahead, hpc, WPc.left, WPc.claim]
  | @firstSegment p n k r hpc hn hseg hr =>
    obtain ⟨x, -, hle, hread, -⟩ := hi.first_segment hpc hn hseg
    obtain rfl := Option.some.inj (hr.symm.trans hread)
    refine ⟨Or.inl rfl, ?_⟩
    simp only [TlogState.ahead, hpc, WPc.left, length_segment] at hle ⊢
    omega
  | @secondSegment p n k r hpc hn hseg hr =>
    obtain ⟨x, -, hle, hread, -⟩ := hi.second_segment hpc hn hseg
    obtain rfl := Option.some.inj (hr.symm.trans hread)
    refine ⟨Or.inl rfl, ?_⟩
    simp only [TlogState.ahead, hpc, WPc.left, length_segment] at hle ⊢
    omega
  | @firstOut p n m k hpc _ hpos hm | @secondOut p n m k hpc _ hpos hm =>
    refine ⟨Or.inl rfl, ?_⟩
    simp only [TlogState.ahead, hpc, WPc.left]
    omega
  | @report k hpc => simp [TlogState.ahead, hpc, WPc.left, WPc.claim]
  | @release k hpc => simp [TlogState.ahead, hpc, WPc.left]

/-- **The worker gets on**, if it does not go to sleep. -/
theorem TStep.workLeft (h : TStep c s a s') (hi : TlogInv c s done taken rest) (hrun : s.run = false ∨ s.WillWake)
    (ha : a.ofWorker = true) : s'.workLeft + 1 ≤ s.workLeft := by
  have hstep := h
  have hring := hi.ring
  -- what stays of the rank when the worker only moves
  have moves : s'.unclaimed = s.unclaimed → s'.wpc.left + s'.ahead + 1 ≤ s.wpc.left + s.ahead →
      s'.workLeft + 1 ≤ s.workLeft := by
    intro h1 h2
    unfold TlogState.workLeft
    omega
  have hdata : s.wpc.claim = none → s.unclaimed = s.log.ring.length := by
    intro hclaim
    unfold TlogState.unclaimed
    rw [hclaim]
    rfl
  cases h with
  | call _ | needDrop _ _ _ | needPrint _ _ | noText _ _ | print _ _ | fullBlock _ _ _ | fullDrop _ _ _ | put _ _ _
  | block _ | woken _ | spurious _ | exit _ => cases ha
  | finish hpc _ hd =>
    refine moves (hdata (by rw [hpc]; rfl)).symm ?_
    simp [TlogState.ahead, hpc, hd, WPc.left]
  | go hpc hd =>
    refine moves (hdata (by rw [hpc]; rfl)).symm ?_
    have hd' : s.log.hasData = true := hrun.elim hd fun hw => hw.data (Or.inl hpc)
    cases hcur : s.cur <;> simp [TlogState.ahead, hpc, hd', hcur, WPc.left]
  | turn hpc hcur =>
    refine moves (hdata (by rw [hpc]; rfl)).symm ?_
    cases hd : s.log.hasData <;> simp [TlogState.ahead, hpc, hd, hcur, WPc.left]
  | sleep hpc _ hd hr =>
    rcases hrun with hrun | hrun
    · rw [hr] at hrun
      cases hrun
    · rw [hrun.data (Or.inr hpc)] at hd
      cases hd
  | look hpc hcur _ =>
    rw [hpc] at hring
    have hun := unclaimed_eq hi.ring
    have htake := workLeft_take hring
    have hnow : s.ahead = if s.log.hasData then 1 else 2 := by simp [TlogState.ahead, hpc, hcur]
    have hleft : s.wpc.left = 0 := by rw [hpc]; rfl
    unfold TlogState.workLeft at htake ⊢
    omega
  | timeout hpc _ =>
    refine moves (hdata (by rw [hpc]; rfl)).symm ?_
    cases hd : s.log.hasData <;> simp [TlogState.ahead, hpc, hd, WPc.left]
  | notified hpc _ =>
    rw [hpc] at hring
    have hun := unclaimed_eq hi.ring
    have htake := workLeft_take (s := { s with isWait := false, notify := false }) hring
    have hnow : s.ahead = 5 := by simp [TlogState.ahead, hpc]
    have hleft : s.wpc.left = 0 := by rw [hpc]; rfl
    have hsmall : (if s.log.hasData then 1 else 2) ≤ 2 := by split <;> omega
    unfold TlogState.workLeft at htake ⊢
    simp only at htake
    omega
  | firstDone hpc | secondDone hpc | firstSegment hpc _ _ _ | secondSegment hpc _ _ _ | firstOut hpc _ _ _
  | secondOut hpc _ _ _ | report hpc | release hpc =>
    have hclaim : s.wpc.claim.isSome = true := by rw [hpc]; rfl
    exact moves (hstep.unclaimed hi ha hclaim) (hstep.claimLeft hi ha hclaim).2
  | wakeup hpc =>
    refine moves (hdata (by rw [hpc]; rfl)).symm ?_
    have htop : ({ s with
        thr := if 0 < s.log.waiters then TlogState.broadcast s.thr else s.thr, wpc := .top } : TlogState ι c.lineLen).ahead ≤ 4 := by
      simp only [TlogState.ahead]
      repeat' split
      all_goals omega
    have hnow : s.ahead = 5 := by simp [TlogState.ahead, hpc]
    have hleft : s.wpc.left = 0 := by rw [hpc]; rfl
    rw [hnow, hleft]
    exact Nat.succ_le_succ (Nat.add_le_add (Nat.le_refl 0) htop)

/-- The rest of the system does not add work, but for the texts of the calls under way. -/
theorem TStep.callsLeft [Fintype ι] (h : TStep c s a s') (hthr : ∀ i, (s.thr i).Ok c) (hi : TlogInv c s done taken rest)
    (hcall : NoCall s a) (ha : a.ofWorker = false) :
    s'.workLeft + ∑ i, (s'.thr i).ahead ≤ s.workLeft + ∑ i, (s.thr i).ahead := by
  have moves : ∀ {i : ι} {pc : VPc c.lineLen}, s'.workLeft = s.workLeft → s'.thr = Function.update s.thr i pc →
      pc.ahead ≤ (s.thr i).ahead → s'.workLeft + ∑ i, (s'.thr i).ahead ≤ s.workLeft + ∑ i, (s.thr i).ahead := by
    intro i pc h1 h2 h3
    have hsum := sum_update VPc.ahead s.thr i pc
    rw [h1, h2]
    omega
  cases h with
  | call _ => exact absurd hcall id
  | needDrop _ _ _ | noText _ _ | fullDrop _ _ _ => exact moves rfl rfl (Nat.zero_le _)
  | needPrint hpc _ | print hpc _ | fullBlock hpc _ _ | block hpc | woken hpc | spurious hpc =>
    exact moves rfl rfl (by rw [hpc]; exact Nat.le_refl _)
  | exit _ => exact Nat.le_refl _
  | @put i text m log hpc hroom hput =>
    have hok := hthr i
    rw [hpc] at hok
    obtain ⟨hmax, hstore⟩ : m < c.lineLen ∧ c.Storable text := hok
    obtain ⟨log', hput', hring, -⟩ := hi.ring.put hmax hroom hstore.short
    obtain rfl : log = log' := Option.some.inj (hput.symm.trans hput')
    have hshort := hstore.short
    have hun := unclaimed_eq hi.ring
    set t : TlogState ι c.lineLen := { s.ret i (.len text.length) with
      log := log, accepted := s.accepted ++ [text], notify := s.notify || s.isWait }
    have hun' : t.unclaimed = (rest ++ [c.record text]).flatten.length := unclaimed_eq (s := t) hring
    have hleft : t.wpc.left = s.wpc.left := rfl
    have hahead := ahead_le t
    have hsum : ∑ j, (t.thr j).ahead + (s.thr i).ahead = ∑ j, (s.thr j).ahead + 0 := sum_update VPc.ahead s.thr i .idle
    rw [hpc] at hsum
    have hpend : (VPc.lock text m : VPc c.lineLen).ahead = 12 * c.lineLen := rfl
    rw [List.flatten_append, List.flatten_singleton, List.length_append] at hun'
    unfold TlogState.workLeft
    omega
  | finish _ _ _ | go _ _ | turn _ _ | sleep _ _ _ _ | look _ _ _ | timeout _ _ | notified _ _ | firstDone _ | secondDone _
  | firstSegment _ _ _ _ | secondSegment _ _ _ _ | firstOut _ _ _ _ | secondOut _ _ _ _ | report _ | release _
  | wakeup _ => cases ha

/-- The worker does not change what the calls may add. -/
theorem TStep.workerCalls [Fintype ι] (h : TStep c s a s') (ha : a.ofWorker = true) :
    ∑ i, (s'.thr i).ahead = ∑ i, (s.thr i).ahead := by
  have htake : ∀ t : TlogState ι c.lineLen, t.take.thr = t.thr := by
    intro t
    unfold TlogState.take
    split <;> rfl
  cases h with
  | call _ | needDrop _ _ _ | needPrint _ _ | noText _ _ | print _ _ | fullBlock _ _ _ | fullDrop _ _ _ | put _ _ _
  | block _ | woken _ | spurious _ | exit _ => cases ha
  | look _ _ _ => rw [htake]
  | notified _ _ => rw [htake]
  | wakeup _ =>
    refine Finset.sum_congr rfl fun i _ => ?_
    simp only
    split
    · unfold TlogState.broadcast
      cases hi : s.thr i <;> rfl
    · rfl
  | finish _ _ _ | go _ _ | turn _ _ | sleep _ _ _ _ | timeout _ _ | firstDone _ | secondDone _ | firstSegment _ _ _ _
  | secondSegment _ _ _ _ | firstOut _ _ _ _ | secondOut _ _ _ _ | report _ | release _ => rfl

/-! ## Shutdown -/

omit [DecidableEq ι] in
theorem storable_of_noCall (h : NoCall s a) : CallsStorable c s a := by
  cases a with
  | call i p => exact absurd h id
  | prod _ | spurious _ | work | out _ | exit => trivial

/-- `tlog_exit` is not taken back. -/
theorem TStep.run (h : TStep c s a s') (hrun : s.run = false) : s'.run = false := by
  have htake : ∀ t : TlogState ι c.lineLen, t.run = false → t.take.run = false := by
    intro t ht
    unfold TlogState.take
    split <;> exact ht
  cases h with
  | look _ _ _ => exact htake s hrun
  | notified _ _ => exact htake _ hrun
  | exit _ => rfl
  | call _ | needDrop _ _ _ | needPrint _ _ | noText _ _ | print _ _ | fullBlock _ _ _ | fullDrop _ _ _ | put _ _ _
  | block _ | woken _ | spurious _ | finish _ _ _ | go _ _ | turn _ _ | sleep _ _ _ _ | timeout _ _ | firstDone _
  | secondDone _ | firstSegment _ _ _ _ | secondSegment _ _ _ _ | firstOut _ _ _ _ | secondOut _ _ _ _ | report _ | release _
  | wakeup _ => exact hrun

/-- The worker returns only from the top of its loop. -/
theorem TStep.returns (h : TStep c s a s') (hpc : s.wpc ≠ .returned) (hpc' : s'.wpc = .returned) :
    s.wpc = .top ∧ s.log.hasData = false ∧ s'.out = s.out ∧ s'.accepted = s.accepted := by
  have htake : ∀ t : TlogState ι c.lineLen, t.take.wpc ≠ .returned := by
    intro t
    unfold TlogState.take
    split <;> exact fun h => by cases h
  cases h with
  | finish hp _ hd => exact ⟨hp, hd, rfl, rfl⟩
  | call _ | needDrop _ _ _ | needPrint _ _ | noText _ _ | print _ _ | fullBlock _ _ _ | fullDrop _ _ _ | put _ _ _
  | block _ | woken _ | spurious _ | exit _ => exact absurd hpc' hpc
  | look _ _ _ => exact absurd hpc' (htake s)
  | notified _ _ => exact absurd hpc' (htake _)
  | @firstDone p k _ =>
    simp only [TlogState.afterFirst] at hpc'
    split at hpc' <;> cases hpc'
  | go _ _ | turn _ _ | sleep _ _ _ _ | timeout _ _ | secondDone _ | firstSegment _ _ _ _ | secondSegment _ _ _ _
  | firstOut _ _ _ _ | secondOut _ _ _ _ | report _ | release _ | wakeup _ => cases hpc'

omit [DecidableEq ι] in
/-- Nothing is left to write when the worker returns. -/
theorem TlogInv.finished (h : TlogInv c s done taken rest) (hpc : s.wpc = .top) (hdata : s.log.hasData = false) :
    s.out.flatMap (TlogOut.raw c) = (s.accepted.map c.record).flatten := by
  have hring := h.ring
  rw [hpc] at hring
  obtain rfl := h.unclaimed (by rw [hpc]; rfl)
  rw [h.out, h.accepted, List.flatten_append, List.flatten_append, hring.empty hdata, List.flatten_nil, List.take_nil,
    List.append_nil, List.append_nil, List.append_nil]

/-- **Shutdown**: once `tlog_exit` has been called and nobody calls any more, the worker returns after a bounded
number of its steps, whatever the calls under way do; and when it returns, it has written all that was accepted. -/
theorem log_shutdown [Fintype ι] (hmem : mem.length = c.buffsize)
    (h : Reach (tlogStep c) (CallsStorable c) (TlogState.init ι c mem) s) (hrun : s.run = false) :
    Completes (tlogStep c) NoCall TlogAct.ofWorker (fun t => t.wpc = .returned) s ∧
      ∀ t a t', Reach (tlogStep c) NoCall s t → tlogStep c t a = some t' → t.wpc ≠ .returned → t'.wpc = .returned →
        t'.out.flatMap (TlogOut.raw c) = (t'.accepted.map c.record).flatten := by
  have hkeep : ∀ (t : TlogState ι c.lineLen) a t', (LogOk c t ∧ t.run = false) → NoCall t a → tlogStep c t a = some t' →
      LogOk c t' ∧ t'.run = false :=
    fun t a t' ht hc hs => ⟨ht.1.step (storable_of_noCall hc) hs, (tstep_cases hs).run ht.2⟩
  have hstart : LogOk c s ∧ s.run = false := ⟨reach_log hmem h, hrun⟩
  refine ⟨completes_of_rank (I := fun t => LogOk c t ∧ t.run = false) (fun t => t.workLeft + ∑ i, (t.thr i).ahead)
    (fun t a t' ht hc hs => ⟨hkeep t a t' ht hc hs, ?_⟩) (fun t ht => ?_) hstart, fun t a t' ht hs hpc hpc' => ?_⟩
  · obtain ⟨done, taken, rest, hi⟩ := ht.1.records
    have hstep := tstep_cases hs
    cases ha : a.ofWorker with
    | true =>
      have hless := hstep.workLeft hi (Or.inl ht.2) ha
      have hthr := hstep.workerCalls ha
      rw [if_pos rfl]
      omega
    | false =>
      have hle := hstep.callsLeft ht.1.threads hi hc ha
      rw [if_neg (by decide)]
      omega
  · rcases ht.1.worker_goes with hr | ⟨t', hs⟩ | ⟨m, t', hs⟩
    · exact Or.inl hr
    · exact Or.inr ⟨.work, t', rfl, trivial, hs⟩
    · exact Or.inr ⟨.out m, t', rfl, trivial, hs⟩
  · obtain ⟨hok, -⟩ := ht.inv (I := fun t => LogOk c t ∧ t.run = false) hstart hkeep
    obtain ⟨done, taken, rest, hi⟩ := hok.records
    obtain ⟨hp, hd, hout, hacc⟩ := (tstep_cases hs).returns hpc hpc'
    rw [hout, hacc]
    exact hi.finished hp hd

/-! ## Those who wait -/

/-- What `log->waiters` counts. -/
def VPc.waiters : VPc c.lineLen → ℕ
  | .wait _ _ | .woken _ _ => 1
  | _ => 0

/-- `log->waiters` is the number of calls that wait, or have been woken and do not know it yet. -/
def WaitersCount [Fintype ι] (s : TlogState ι c.lineLen) : Prop := s.log.waiters = ∑ i, (s.thr i).waiters

theorem TStep.waitersCount [Fintype ι] (h : TStep c s a s') (hi : TlogInv c s done taken rest) (hthr : ∀ i, (s.thr i).Ok c)
    (hw : WaitersCount s) : WaitersCount s' := by
  have moves : ∀ {i : ι} {pc : VPc c.lineLen}, s'.thr = Function.update s.thr i pc →
      s'.log.waiters + (s.thr i).waiters = s.log.waiters + pc.waiters → WaitersCount s' := by
    intro i pc h1 h2
    have hsum := sum_update VPc.waiters s.thr i pc
    unfold WaitersCount at hw ⊢
    rw [h1]
    omega
  have htake : ∀ t : TlogState ι c.lineLen, WaitersCount t → WaitersCount t.take := by
    intro t ht
    unfold TlogState.take
    split <;> exact ht
  cases h with
  | call hpc | needDrop hpc _ _ | needPrint hpc _ | noText hpc _ | print hpc _ | fullBlock hpc _ _ | fullDrop hpc _ _
  | block hpc | spurious hpc =>
    refine moves rfl ?_
    rw [hpc]
    rfl
  | @woken i text m hpc =>
    have hle := le_sum VPc.waiters s.thr i
    rw [hpc] at hle
    have hone : (VPc.woken text m : VPc c.lineLen).waiters = 1 := rfl
    refine moves rfl ?_
    rw [hpc]
    show s.log.waiters - 1 + 1 = s.log.waiters + 0
    unfold WaitersCount at hw
    omega
  | @put i text m log hpc hroom hput =>
    have hok := hthr i
    rw [hpc] at hok
    obtain ⟨log', hput', -, -, -, hwait⟩ := hi.ring.put hok.1 hroom hok.2.short
    obtain rfl : log = log' := Option.some.inj (hput.symm.trans hput')
    refine moves rfl ?_
    rw [hpc]
    show log.waiters + 0 = s.log.waiters + 0
    rw [hwait]
  | look _ _ _ => exact htake s hw
  | notified _ _ => exact htake _ hw
  | wakeup _ =>
    refine Eq.trans hw (Finset.sum_congr rfl fun i _ => ?_)
    simp only
    split
    · unfold TlogState.broadcast
      cases hi : s.thr i <;> rfl
    · rfl
  | finish _ _ _ | go _ _ | turn _ _ | sleep _ _ _ _ | timeout _ _ | firstDone _ | secondDone _ | firstSegment _ _ _ _
  | secondSegment _ _ _ _ | firstOut _ _ _ _ | secondOut _ _ _ _ | report _ | release _ | exit _ => exact hw

/-- The broadcast wakes everybody who waits. -/
theorem TStep.wakes [Fintype ι] (h : TStep c s a s') (hw : WaitersCount s) (ha : a.ofWorker = true) (hpc : s.wpc = .wakeup)
    {i : ι} (hwait : (s.thr i).waiting = true) : (s'.thr i).waiting = false := by
  cases h with
  | wakeup _ =>
    have hle := le_sum VPc.waiters s.thr i
    have hone : (s.thr i).waiters = 1 := by
      revert hwait
      cases s.thr i <;> simp [VPc.waiting, VPc.waiters]
    unfold WaitersCount at hw
    show ((if 0 < s.log.waiters then TlogState.broadcast s.thr else s.thr) i).waiting = false
    rw [if_pos (by omega)]
    unfold TlogState.broadcast
    cases hpc : s.thr i <;> rfl
  | call _ | needDrop _ _ _ | needPrint _ _ | noText _ _ | print _ _ | fullBlock _ _ _ | fullDrop _ _ _ | put _ _ _
  | block _ | woken _ | spurious _ | exit _ => cases ha
  | finish h _ _ | go h _ | turn h _ | sleep h _ _ _ | look h _ _ | timeout h _ | notified h _ | firstDone h | secondDone h
  | firstSegment h _ _ _ | secondSegment h _ _ _ | firstOut h _ _ _ | secondOut h _ _ _ | report h | release h =>
    rw [hpc] at h
    cases h

/-- The worker keeps going until it has woken those who wait. -/
theorem TStep.willWake [Fintype ι] (h : TStep c s a s') (hi : TlogInv c s done taken rest) (hthr : ∀ i, (s.thr i).Ok c)
    (hw : WaitersCount s) (hwake : s.WillWake) {i : ι} (hwait : (s.thr i).waiting = true) :
    (s'.thr i).waiting = false ∨ s'.WillWake := by
  have same : s'.log.hasData = s.log.hasData → s'.wpc = s.wpc → (s'.thr i).waiting = false ∨ s'.WillWake := by
    intro h1 h2
    refine Or.inr ?_
    unfold TlogState.WillWake
    rw [h1, h2]
    exact hwake
  have claimed : s'.wpc.claim.isSome = true → (s'.thr i).waiting = false ∨ s'.WillWake := fun h => Or.inr (Or.inr (Or.inl h))
  have data : s'.log.hasData = true → s'.wpc ≠ .returned → (s'.thr i).waiting = false ∨ s'.WillWake :=
    fun h1 h2 => Or.inr (Or.inl ⟨h1, h2⟩)
  have hnone : s.wpc.claim.isSome = false → s.wpc ≠ .wakeup → s.log.hasData = true ∧ s.wpc ≠ .returned := by
    intro h1 h2
    rcases hwake with h | h | h
    · exact h
    · rw [h1] at h
      cases h
    · exact absurd h h2
  have htake : ∀ t : TlogState ι c.lineLen, t.log.hasData = true → t.take.wpc.claim.isSome = true := by
    intro t ht
    unfold TlogState.take
    rw [if_neg (by simp [ht])]
    rfl
  cases h with
  | call _ | needDrop _ _ _ | needPrint _ _ | noText _ _ | print _ _ | fullBlock _ _ _ | fullDrop _ _ _ | block _ | woken _
  | spurious _ | exit _ => exact same rfl rfl
  | @put j text m log hpc hroom hput =>
    have hok := hthr j
    rw [hpc] at hok
    obtain ⟨log', hput', hring, -⟩ := hi.ring.put hok.1 hroom hok.2.short
    obtain rfl : log = log' := Option.some.inj (hput.symm.trans hput')
    cases hclaim : s.wpc.claim with
    | some k => exact claimed (by show s.wpc.claim.isSome = true; rw [hclaim]; rfl)
    | none =>
      by_cases hwk : s.wpc = .wakeup
      · exact Or.inr (Or.inr (Or.inr hwk))
      · have hbefore := hi.ring
        rw [hclaim] at hbefore hring
        obtain ⟨hd, hret⟩ := hnone (by rw [hclaim]; rfl) hwk
        have hpos := hbefore.nonempty hd
        refine data ?_ hret
        by_contra hno
        have hempty := congrArg List.length (hring.empty (by simpa using hno))
        rw [List.flatten_append, List.length_append, List.length_nil] at hempty
        omega
  | finish hpc _ hd =>
    rw [hwake.data (Or.inl hpc)] at hd
    cases hd
  | go hpc _ => exact data (hwake.data (Or.inl hpc)) fun h => by cases h
  | turn hpc _ => exact data (hwake.data (Or.inr hpc)) fun h => by cases h
  | sleep hpc _ hd _ =>
    rw [hwake.data (Or.inr hpc)] at hd
    cases hd
  | look hpc _ _ => exact claimed (htake s (hwake.data (Or.inr hpc)))
  | timeout hpc _ =>
    exact data (hnone (by rw [hpc]; rfl) (by rw [hpc]; exact fun h => by cases h)).1 fun h => by cases h
  | notified hpc _ =>
    exact claimed (htake _ (hnone (by rw [hpc]; rfl) (by rw [hpc]; exact fun h => by cases h)).1)
  | @firstDone p k _ =>
    refine claimed ?_
    simp only [TlogState.afterFirst]
    split <;> rfl
  | secondDone _ | firstSegment _ _ _ _ | secondSegment _ _ _ _ | firstOut _ _ _ _ | secondOut _ _ _ _ | report _ =>
    exact claimed rfl
  | release _ => exact Or.inr (Or.inr (Or.inr rfl))
  | wakeup hpc => exact Or.inl (TStep.wakeup hpc |>.wakes hw rfl hpc hwait)

/-- How far the worker is from its broadcast, with room for all that may be in the buffer when it claims. -/
def TlogState.wakeLeft (c : TlogConf) (s : TlogState ι c.lineLen) : ℕ :=
  (if s.wpc.claim = none ∧ s.wpc ≠ .wakeup then 2 * c.buffsize + 10 else 0) + s.wpc.left + s.ahead

omit [DecidableEq ι] in
theorem TlogState.WillWake.wakeLeft_pos (h : s.WillWake) : 0 < s.wakeLeft c := by
  have hahead : 0 < s.ahead := by
    unfold TlogState.ahead
    cases hpc : s.wpc with
    | top =>
      rw [h.data (Or.inl hpc)]
      cases s.cur <;> decide
    | next =>
      rw [h.data (Or.inr hpc)]
      cases s.cur <;> decide
    | returned =>
      unfold TlogState.WillWake at h
      simp [hpc, WPc.claim] at h
    | _ => exact Nat.zero_lt_succ _
  unfold TlogState.wakeLeft
  omega

omit [DecidableEq ι] in
/-- A claim is nearer to the broadcast than anything before it. -/
theorem wakeLeft_take {t : TlogState ι c.lineLen} (h : RingOf c t.log none taken rest) (hdata : t.log.hasData = true) :
    t.take.wakeLeft c + 1 ≤ 2 * c.buffsize + 10 := by
  obtain ⟨-, -, -, -, -, hlen, hext⟩ := (h.claim hdata).pieces
  have hbuff : t.log.buff.length = c.buffsize := h.length
  simp only [hbuff] at hlen hext
  unfold TlogState.take
  rw [if_neg (by simp [hdata])]
  show 0 + (t.log.claim.len + t.log.claim.extlen) + 9 + 1 ≤ 2 * c.buffsize + 10
  omega

/-- **The worker gets nearer to its broadcast**, whatever is put into the log meanwhile. -/
theorem TStep.wakeLeft (h : TStep c s a s') (hi : TlogInv c s done taken rest) (hwake : s.WillWake) (hwake' : s'.WillWake)
    (hpc : a.ofWorker = true → s.wpc ≠ .wakeup) : s'.wakeLeft c + (if a.ofWorker = true then 1 else 0) ≤ s.wakeLeft c := by
  have hring := hi.ring
  -- another thread moves
  have same : s'.wpc = s.wpc → s'.cur = s.cur → s'.wakeLeft c ≤ s.wakeLeft c := by
    intro hpc hcur
    unfold TlogState.wakeLeft TlogState.ahead
    rw [hpc, hcur]
    cases hnow : s.wpc with
    | top => rw [hwake'.data (Or.inl (hpc.trans hnow)), hwake.data (Or.inl hnow)]
    | next => rw [hwake'.data (Or.inr (hpc.trans hnow)), hwake.data (Or.inr hnow)]
    | _ => exact Nat.le_refl _
  -- the worker moves
  have before : ∀ t : TlogState ι c.lineLen, t.wpc = .top ∨ t.wpc = .next ∨ t.wpc = .wait →
      t.wakeLeft c = 2 * c.buffsize + 10 + t.ahead := by
    intro t ht
    unfold TlogState.wakeLeft
    rcases ht with ht | ht | ht
    all_goals
      rw [ht]
      rfl
  have claimed : a.ofWorker = true → s.wpc.claim.isSome = true → s'.wakeLeft c + 1 ≤ s.wakeLeft c := by
    intro ha hclaim
    obtain ⟨hnext, hless⟩ := h.claimLeft hi ha hclaim
    unfold TlogState.wakeLeft
    rw [if_neg fun hno => ?_, if_neg fun hno => ?_]
    · omega
    · rw [hno.1] at hclaim
      cases hclaim
    · rcases hnext with hnext | hnext
      · rw [hno.1] at hnext
        cases hnext
      · exact hno.2 hnext
  cases h with
  | call _ | needDrop _ _ _ | needPrint _ _ | noText _ _ | print _ _ | fullBlock _ _ _ | fullDrop _ _ _ | put _ _ _
  | block _ | woken _ | spurious _ | exit _ => exact same rfl rfl
  | finish htop _ hd =>
    rw [hwake.data (Or.inl htop)] at hd
    cases hd
  | sleep hnext _ hd _ =>
    rw [hwake.data (Or.inr hnext)] at hd
    cases hd
  | go htop _ =>
    have hd : s.log.hasData = true := hwake.data (Or.inl htop)
    rw [before s (Or.inl htop), before _ (Or.inr (Or.inl rfl)), if_pos (by rfl)]
    cases hcur : s.cur <;> simp [TlogState.ahead, htop, hd, hcur]
  | turn hnext hcur =>
    have hd : s.log.hasData = true := hwake.data (Or.inr hnext)
    rw [before s (Or.inr (Or.inl hnext)), before _ (Or.inl rfl), if_pos (by rfl)]
    simp [TlogState.ahead, hnext, hd, hcur]
  | timeout hwait _ =>
    have hd : s.log.hasData = true := hwake'.data (Or.inl rfl)
    rw [before s (Or.inr (Or.inr hwait)), before _ (Or.inl rfl), if_pos (by rfl)]
    simp [TlogState.ahead, hwait, hd]
  | look hnext _ _ =>
    rw [hnext] at hring
    have htake := wakeLeft_take hring (hwake.data (Or.inr hnext))
    rw [before s (Or.inr (Or.inl hnext)), if_pos (by rfl)]
    omega
  | notified hwait _ =>
    rw [hwait] at hring
    have hd : s.log.hasData = true := by
      have := hwake
      unfold TlogState.WillWake at this
      simpa [hwait, WPc.claim] using this
    have htake := wakeLeft_take (t := { s with isWait := false, notify := false }) hring hd
    rw [before s (Or.inr (Or.inr hwait)), if_pos (by rfl)]
    omega
  | wakeup hwakeup => exact absurd hwakeup (hpc rfl)
  | firstDone hclaim | secondDone hclaim | firstSegment hclaim _ _ _ | secondSegment hclaim _ _ _ | firstOut hclaim _ _ _
  | secondOut hclaim _ _ _ | report hclaim | release hclaim => exact claimed rfl (by rw [hclaim]; rfl)

/-- Nothing wakes a call when the worker has nothing to do and all others rest. -/
theorem TStep.stranded (h : TStep c s a s') (hquiet : LogQuiet s a) (hwake : ¬ s.WillWake) (hrest : ∀ j, (s.thr j).Resting) :
    s'.thr = s.thr ∧ ¬ s'.WillWake := by
  have hd : s.wpc ≠ .returned → s.log.hasData = false := by
    intro hret
    by_contra hno
    exact hwake (Or.inl ⟨by simpa using hno, hret⟩)
  -- the worker moves, and still has nothing to do
  have moves : s.wpc ≠ .returned → s'.thr = s.thr → s'.log = s.log → s'.wpc.claim = none → s'.wpc ≠ .wakeup →
      s'.thr = s.thr ∧ ¬ s'.WillWake := by
    intro h0 h1 h2 h3 h4
    refine ⟨h1, ?_⟩
    rintro (⟨h, -⟩ | h | h)
    · rw [h2, hd h0] at h
      cases h
    · rw [h3] at h
      cases h
    · exact h4 h
  have htake : ∀ t : TlogState ι c.lineLen, t.log = s.log → t.thr = s.thr → s.wpc ≠ .returned → s' = t.take →
      s'.thr = s.thr ∧ ¬ s'.WillWake := by
    intro t hlog ht h0 hs'
    have hlook : s' = { t with cur := true, wpc := .top } := by
      rw [hs', TlogState.take, if_pos (by rw [hlog]; exact hd h0)]
    exact moves h0 (hlook ▸ ht) (hlook ▸ hlog) (hlook ▸ rfl) (hlook ▸ fun h => by cases h)
  have hcase : ∀ {j : ι} {pc : VPc c.lineLen}, s.thr j = pc → pc.Resting := fun hj => hj ▸ hrest _
  cases h with
  | call _ | spurious _ => exact absurd hquiet id
  | needDrop hpc _ _ | needPrint hpc _ | noText hpc _ | print hpc _ | fullBlock hpc _ _ | fullDrop hpc _ _ | put hpc _ _
  | block hpc | woken hpc => exact absurd (hcase hpc) id
  | exit _ => exact ⟨rfl, hwake⟩
  | finish hpc _ _ | go hpc _ | turn hpc _ | sleep hpc _ _ _ | timeout hpc _ =>
    exact moves (by rw [hpc]; exact fun h => by cases h) rfl rfl rfl (fun h => by cases h)
  | look hpc _ _ => exact htake s rfl rfl (by rw [hpc]; exact fun h => by cases h) rfl
  | notified hpc _ =>
    exact htake { s with isWait := false, notify := false } rfl rfl (by rw [hpc]; exact fun h => by cases h) rfl
  | firstDone hpc | secondDone hpc | firstSegment hpc _ _ _ | secondSegment hpc _ _ _ | firstOut hpc _ _ _
  | secondOut hpc _ _ _ | report hpc | release hpc => exact absurd (Or.inr (Or.inl (by rw [hpc]; rfl))) hwake
  | wakeup hpc => exact absurd (Or.inr (Or.inr hpc)) hwake

/-- **Who is woken**: whatever is called meanwhile, a call that waits is woken after a bounded number of the worker's
steps if there is data in the log, or the worker has not come past its broadcast since; if not, and no other call is
under way, it waits until somebody calls, or `pthread_cond_wait` returns by itself. -/
theorem wait_exact [Fintype ι] (hmem : mem.length = c.buffsize)
    (h : Reach (tlogStep c) (CallsStorable c) (TlogState.init ι c mem) s) (i : ι) :
    (s.WillWake → Completes (tlogStep c) (fun t a => CallsStorable c t a ∧ (t.thr i).waiting = true) TlogAct.ofWorker
        (fun t => (t.thr i).waiting = false) s) ∧
      (¬ s.WillWake → (∀ j, (s.thr j).Resting) → ∀ t, Reach (tlogStep c) LogQuiet s t → t.thr i = s.thr i) := by
  have hcount : LogOk c s ∧ WaitersCount s := by
    refine ⟨reach_log hmem h, (h.inv (I := fun t => LogOk c t ∧ WaitersCount t) ?_ fun t a t' ht hc hs => ?_).2⟩
    · refine ⟨reach_log hmem .init, ?_⟩
      show 0 = ∑ i : ι, 0
      exact Finset.sum_const_zero.symm
    · obtain ⟨done, taken, rest, hinv⟩ := ht.1.records
      exact ⟨ht.1.step hc hs, (tstep_cases hs).waitersCount hinv ht.1.threads ht.2⟩
  refine ⟨fun hwake => ?_, fun hwake hrest t ht => ?_⟩
  · refine completes_of_rank
      (I := fun t => (LogOk c t ∧ WaitersCount t) ∧ ((t.thr i).waiting = false ∨ t.WillWake))
      (fun t => if (t.thr i).waiting = true then t.wakeLeft c else 0) (fun t a t' ht hc hs => ?_) (fun t ht => ?_)
      ⟨hcount, Or.inr hwake⟩
    · obtain ⟨⟨hok, hw⟩, hgoal⟩ := ht
      obtain ⟨hstore, hwait⟩ := hc
      obtain ⟨done, taken, rest, hinv⟩ := hok.records
      have hstep := tstep_cases hs
      have hwk : t.WillWake := hgoal.resolve_left (by rw [hwait]; decide)
      have hnext := hstep.willWake hinv hok.threads hw hwk hwait
      refine ⟨⟨⟨hok.step hstore hs, hstep.waitersCount hinv hok.threads hw⟩, hnext⟩, ?_⟩
      rw [if_pos hwait]
      by_cases hwait' : (t'.thr i).waiting = true
      · rw [if_pos hwait']
        refine hstep.wakeLeft hinv hwk (hnext.resolve_left (by rw [hwait']; decide)) fun ha hpc => ?_
        rw [hstep.wakes hw ha hpc hwait] at hwait'
        cases hwait'
      · have hpos := hwk.wakeLeft_pos
        rw [if_neg hwait']
        split <;> omega
    · obtain ⟨⟨hok, -⟩, hgoal⟩ := ht
      cases hwait : (t.thr i).waiting with
      | false => exact Or.inl rfl
      | true =>
        have hwk : t.WillWake := hgoal.resolve_left (by rw [hwait]; decide)
        rcases hok.worker_goes with hr | ⟨t', hs⟩ | ⟨m, t', hs⟩
        · rcases hwk with ⟨-, h0⟩ | h0 | h0
          · exact absurd hr h0
          · rw [hr] at h0
            cases h0
          · rw [hr] at h0
            cases h0
        · exact Or.inr ⟨.work, t', rfl, ⟨trivial, rfl⟩, hs⟩
        · exact Or.inr ⟨.out m, t', rfl, ⟨trivial, rfl⟩, hs⟩
  · have hkeep : t.thr = s.thr ∧ ¬ t.WillWake := by
      refine ht.inv (I := fun t => t.thr = s.thr ∧ ¬ t.WillWake) ⟨rfl, hwake⟩ fun u a u' hu hc hs => ?_
      obtain ⟨h1, h2⟩ := (tstep_cases hs).stranded hc hu.2 (by rw [hu.1]; exact hrest)
      exact ⟨h1.trans hu.1, h2⟩
    rw [hkeep.1]

/-! ## Demos -/

/-- The buffer is full when thread `true` prints; `tlog_exit` is called. -/
def exitDemo : List (TlogAct Bool (demoTlog true false).lineLen) :=
  demoPrint true false false 12 65 ++ demoPrint true false false 12 66 ++ demoPrint true false false 12 67 ++
    demoPrint true false true 12 68 ++ [.exit]

theorem exitDemo_runs : (demoTlogRun true false exitDemo).isSome := by
  decide +kernel

def exitDemoEnd : TlogState Bool (demoTlog true false).lineLen := runTo exitDemo_runs

/-- Three messages are in the buffer, a fourth call is under way. -/
theorem log_shutdown_demo :
    exitDemoEnd.accepted.length = 3 ∧ exitDemoEnd.out = [] ∧
      Completes (tlogStep (demoTlog true false)) NoCall TlogAct.ofWorker (fun t => t.wpc = .returned) exitDemoEnd :=
  ⟨by decide +kernel, by decide +kernel,
    (log_shutdown List.length_replicate (reach_runTo_guarded exitDemo_runs) (by decide +kernel)).1⟩

/-- Thread `true` finds the buffer full; before it waits, the worker writes everything and finds nobody waiting. -/
def lostWakeupDemo : List (TlogAct Bool (demoTlog true false).lineLen) :=
  demoPrint true false false 12 65 ++ demoPrint true false false 12 66 ++ demoPrint true false false 12 67 ++
    demoPrint true false true 12 68 ++
      [.work, .work, .out 36, .work, .work, .work, .work, .prod true, .work, .work, .work, .work]

theorem lostWakeupDemo_runs : (demoTlogRun true false lostWakeupDemo).isSome := by
  decide +kernel

def lostWakeupDemoEnd : TlogState Bool (demoTlog true false).lineLen := runTo lostWakeupDemo_runs

/-- **The wakeup is lost**: the buffer is empty, and thread `true` waits forever. -/
theorem wait_exact_demo :
    lostWakeupDemoEnd.log.ring = [] ∧ (lostWakeupDemoEnd.thr true).waiting = true ∧
      ∀ t, Reach (tlogStep (demoTlog true false)) LogQuiet lostWakeupDemoEnd t → t.thr true = lostWakeupDemoEnd.thr true := by
  have hreach : Reach (tlogStep (demoTlog true false)) (CallsStorable (demoTlog true false))
      (TlogState.init Bool (demoTlog true false) (List.replicate 48 0)) lostWakeupDemoEnd :=
    reach_runTo_guarded lostWakeupDemo_runs
  have hpc : lostWakeupDemoEnd.wpc = .wait := by decide +kernel
  have hd : lostWakeupDemoEnd.log.hasData = false := by decide +kernel
  refine ⟨by decide +kernel, by decide +kernel, (wait_exact List.length_replicate hreach true).2 ?_ (by decide +kernel)⟩
  rintro (⟨h, -⟩ | h | h)
  · rw [hd] at h
    cases h
  · rw [hpc] at h
    cases h
  · rw [hpc] at h
    cases h

end HookKernel
