import HookKernel.Proof.Queue

/-!
# The calls of the queue come to an end (`useapp/queue.c`)

No call of the queue waits for another one, except for a slot of a full queue and for a
value of an empty one.

* `tick_did`: every statement brings a call nearer to its end.
* `stuck_pc`: where a thread stands that cannot move.
* `QInv.stuck`: a state in which no thread can move.
* `queue_progress`: every run is finite, and exactly where it can end.
-/

namespace HookKernel

open Lib

variable {V : Type}

/-! ## How far a call is -/

/-- The steps of its call that a thread has behind it, of eleven at most: the call, its statements and the return. -/
def QPc.did : QPc V → ℕ
  | .idle => 0
  | .pushBegin _ _ | .popBegin _ => 1
  | .pushLock _ | .popLock => 2
  | .pushPos _ | .popEmpty => 3
  | .pushFull _ _ | .popRead => 4
  | .pushStore _ _ | .popClear _ => 5
  | .pushWpos _ _ | .popRpos _ => 6
  | .pushSize _ | .popSize _ => 7
  | .pushUnlock _ _ | .popUnlock _ => 8
  | .pushPost _ | .popPost _ => 9
  | .ret _ _ => 10

theorem did_le (pc : QPc V) : pc.did ≤ 10 := by
  cases pc <;> simp [QPc.did]

theorem tick_did {q q' : Queue V} {pc pc' : QPc V} (h : tick q pc = some (q', pc')) : pc.did < pc'.did := by
  cases pc <;> simp only [tick] at h <;> try (split at h)
  all_goals
    cases h <;> simp [QPc.did]

theorem expire_did {pc pc' : QPc V} (h : pc.expire = some pc') : pc.did < pc'.did := by
  unfold QPc.expire at h
  split at h <;> simp only [Option.some.injEq, reduceCtorEq] at h <;> subst h <;> simp [QPc.did]

/-- The steps that a thread still has to do at most. -/
def QThread.left (t : QThread V) : ℕ := 11 * t.todo.length - t.pc.did

section Steps

variable {ι : Type} [DecidableEq ι] {s s' : QSys ι V} {i : ι} {a : QAct}

/-- A thread between its calls, or in the first one of those it has to do. -/
def QThread.Cur (t : QThread V) : Prop := t.pc = .idle ∨ t.todo ≠ []

theorem thr_cur {log : List (FifoEv (Option V))} {t : QThread V} {p : List (QOp V)} (h : ThrOk p log t) : t.Cur := by
  rcases h.cur with hidle | ⟨op, rest, htodo, -⟩
  · exact Or.inl hidle
  · exact Or.inr (by rw [htodo]; exact List.cons_ne_nil _ _)

/-- **Every step is one less to do.** -/
theorem step_left (h : s.step (i, a) = some s') (hcur : (s.thr i).Cur) :
    ∃ t, s'.thr = Function.update s.thr i t ∧ t.left + 1 ≤ (s.thr i).left := by
  have hbusy : ∀ {pc' : QPc V}, (s.thr i).pc ≠ .idle → (s.thr i).pc.did < pc'.did →
      ({ s.thr i with pc := pc' } : QThread V).left + 1 ≤ (s.thr i).left := by
    intro pc' hpc hdid
    have hmore := List.length_pos_of_ne_nil (hcur.resolve_left hpc)
    have hle := did_le pc'
    simp only [QThread.left]
    omega
  rcases QSys.step_cases h with ⟨op, rest, hpc, htodo, rfl⟩ | ⟨r, b, op, rest, hpc, htodo, rfl⟩ |
    ⟨q', pc', ht, rfl⟩ | ⟨pc', -, hx, rfl⟩
  · refine ⟨_, rfl, ?_⟩
    have hdid : op.enter.did = 1 := by cases op <;> rfl
    show 11 * (s.thr i).todo.length - op.enter.did + 1 ≤ 11 * (s.thr i).todo.length - (s.thr i).pc.did
    rw [hdid, hpc, htodo, List.length_cons, QPc.did]
    omega
  · refine ⟨_, rfl, ?_⟩
    simp only [QThread.left, hpc, htodo, List.length_cons, QPc.did]
    omega
  · refine ⟨_, rfl, hbusy ?_ (tick_did ht)⟩
    intro hidle
    rw [hidle] at ht
    cases ht
  · refine ⟨_, rfl, hbusy ?_ (expire_did hx)⟩
    intro hidle
    rw [hidle] at hx
    cases hx

theorem run_of_tick {q' : Queue V} {pc' : QPc V} (h : tick s.q (s.thr i).pc = some (q', pc')) :
    s.step (i, .run) = some (s.after i q' pc') := by
  simp only [QSys.step, QSys.after]
  split
  · rename_i hidle
    rw [hidle] at h
    cases h
  · rename_i hret
    rw [hret] at h
    cases h
  · rw [h]

/-- **Where a thread stands that cannot move**: it has finished, or it waits at a semaphore. -/
theorem stuck_pc (h : ∀ a, s.step (i, a) = none) (hcur : (s.thr i).Cur) :
    (s.thr i).pc = .idle ∧ (s.thr i).todo = [] ∨
      (∃ v, (s.thr i).pc = .pushBegin false v) ∧ s.q.nempty = 0 ∨
      (s.thr i).pc = .popBegin false ∧ s.q.nstored = 0 ∨
      ((∃ v, (s.thr i).pc = .pushLock v) ∨ (s.thr i).pc = .popLock) ∧ s.q.mutex = 0 := by
  have hrun := h .run
  have hnone : tick s.q (s.thr i).pc = none := by
    cases ht : tick s.q (s.thr i).pc with
    | none => rfl
    | some r => rw [run_of_tick ht] at hrun; cases hrun
  have hwait : (s.thr i).pc.expire = none := by
    have htime := h .timeout
    simpa only [QSys.step, Option.map_eq_none_iff] using htime
  cases hpc : (s.thr i).pc with
  | idle =>
    refine Or.inl ⟨rfl, ?_⟩
    simp only [QSys.step, hpc] at hrun
    split at hrun
    · assumption
    · cases hrun
  | ret r b =>
    simp only [QSys.step, hpc] at hrun
    split at hrun
    · rename_i hnil
      exact absurd hnil (hcur.resolve_left (by rw [hpc]; exact fun hidle => by cases hidle))
    · cases hrun
  | pushBegin timed v =>
    rw [hpc] at hnone hwait
    cases timed with
    -- a timed wait can always give up
    | true => cases hwait
    | false => exact Or.inr (Or.inl ⟨⟨v, rfl⟩, by simpa [tick] using hnone⟩)
  | popBegin timed =>
    rw [hpc] at hnone hwait
    cases timed with
    | true => cases hwait
    | false => exact Or.inr (Or.inr (Or.inl ⟨rfl, by simpa [tick] using hnone⟩))
  | pushLock v =>
    rw [hpc] at hnone
    exact Or.inr (Or.inr (Or.inr ⟨Or.inl ⟨v, rfl⟩, by simpa [tick] using hnone⟩))
  | popLock =>
    rw [hpc] at hnone
    exact Or.inr (Or.inr (Or.inr ⟨Or.inr rfl, by simpa [tick] using hnone⟩))
  | pushFull v pos =>
    rw [hpc] at hnone
    simp only [tick] at hnone
    split at hnone <;> cases hnone
  | popEmpty =>
    rw [hpc] at hnone
    simp only [tick] at hnone
    split at hnone <;> cases hnone
  -- the other statements wait for nothing
  | _ =>
    rw [hpc] at hnone
    cases hnone

/-- A thread that has finished does nothing. -/
theorem finished_step {i : ι} {a : QAct} (hcur : (s.thr i).Cur) (hnil : (s.thr i).todo = []) : s.step (i, a) = none := by
  cases hs : s.step (i, a) with
  | none => rfl
  | some s' =>
    have hidle : (s.thr i).pc = .idle := hcur.resolve_right fun hne => hne hnil
    rcases QSys.step_cases hs with ⟨op, rest, -, htodo, -⟩ | ⟨r, b, op, rest, -, htodo, -⟩ | ⟨q', pc', ht, -⟩ | ⟨pc', -, hx, -⟩
    · rw [hnil] at htodo
      cases htodo
    · rw [hnil] at htodo
      cases htodo
    · rw [hidle] at ht
      cases ht
    · rw [hidle] at hx
      cases hx

end Steps

/-! ## Where a run ends -/

/-- The operation gives up after a time. -/
def QOp.timed : QOp V → Bool
  | .pushWait _ | .popWait => true
  | _ => false

/-- A thread that waits without a time-out is in a call without one. -/
theorem untimed_call {p : List (QOp V)} {log : List (FifoEv (Option V))} {t : QThread V} (h : ThrOk p log t)
    (hpc : (∃ v, t.pc = .pushBegin false v) ∨ t.pc = .popBegin false) : ∃ op ∈ p, op.timed = false := by
  obtain ⟨op, rest, htodo, hat⟩ : ∃ op rest, t.todo = op :: rest ∧ op.At t.pc := by
    refine h.cur.resolve_left ?_
    rintro hidle
    rcases hpc with ⟨v, hi⟩ | hi <;> rw [hidle] at hi <;> cases hi
  refine ⟨op, ?_, ?_⟩
  · rw [← h.prog, htodo]
    exact List.mem_append_right _ List.mem_cons_self
  · rcases hpc with ⟨v, hi⟩ | hi
    · rw [hi] at hat
      obtain rfl : op = .push v := hat
      rfl
    · rw [hi] at hat
      obtain rfl : op = .pop := hat
      rfl

section Ends

variable {ι : Type} [DecidableEq V] [DecidableEq ι] [Fintype ι] {s s' : QSys ι V} {m : ℤ} {prog : ι → List (QOp V)}

/-- All programs are worked off. -/
def QSys.Finished (s : QSys ι V) : Prop := ∀ i, (s.thr i).todo = []

/-- The threads that have not finished wait without a time-out: for a slot of a full queue, or for a value of an empty
one. -/
def QSys.Blocked (m : ℤ) (s : QSys ι V) : Prop :=
  s.q.size = m ∧ (∀ i, (s.thr i).todo = [] ∨ ∃ v, (s.thr i).pc = .pushBegin false v) ∨
    s.q.size = 0 ∧ ∀ i, (s.thr i).todo = [] ∨ (s.thr i).pc = .popBegin false

omit [DecidableEq ι] in
/-- With no thread holding anything, the semaphores count the free slots and the values. -/
theorem QInv.still (hI : QInv m s) (hfree : ∀ i, (s.thr i).pc.free) :
    s.q.mutex = 1 ∧ s.q.nempty = m - s.q.size ∧ s.q.nstored = s.q.size := by
  have hnone : ∀ w : QPc V → ℕ, (∀ i, w (s.thr i).pc = 0) → ∑ i, w (s.thr i).pc = 0 := fun w hw =>
    Finset.sum_eq_zero fun i _ => hw i
  have h1 := hI.mutex
  have h2 := hI.empty
  have h3 := hI.stored
  rw [hnone _ fun i => (hfree i).1] at h1
  rw [hnone _ fun i => (hfree i).2.1, hnone _ fun i => (hfree i).2.2.2.2] at h2
  rw [hnone _ fun i => (hfree i).2.2.2.1, hnone _ fun i => (hfree i).2.2.1] at h3
  refine ⟨h1, ?_, ?_⟩ <;> omega

/-- **If no thread can move**, all have finished, or those that have not wait for what cannot come. -/
theorem QInv.stuck (hI : QInv m s) (hm : 1 ≤ m) (hcur : ∀ i, (s.thr i).Cur) (h : ∀ a, s.step a = none) :
    s.Finished ∨ s.Blocked m := by
  have hpc := fun i => stuck_pc (fun a => h (i, a)) (hcur i)
  -- nobody is in a critical section, so nobody waits for the mutex
  have hcs : ∀ i, (s.thr i).pc.inCs = 0 := by
    intro i
    rcases hpc i with ⟨hi, -⟩ | ⟨⟨v, hi⟩, -⟩ | ⟨hi, -⟩ | ⟨⟨v, hi⟩ | hi, -⟩ <;> rw [hi] <;> rfl
  have hmutex : s.q.mutex = 1 := by
    have hsum := hI.mutex
    rw [Finset.sum_eq_zero fun i _ => hcs i] at hsum
    exact hsum
  have hwait : ∀ i, (s.thr i).pc = .idle ∧ (s.thr i).todo = [] ∨ (∃ v, (s.thr i).pc = .pushBegin false v) ∧ s.q.nempty = 0 ∨
      (s.thr i).pc = .popBegin false ∧ s.q.nstored = 0 := by
    intro i
    rcases hpc i with hi | hi | hi | ⟨-, hzero⟩
    · exact Or.inl hi
    · exact Or.inr (Or.inl hi)
    · exact Or.inr (Or.inr hi)
    · omega
  obtain ⟨-, hempty, hstored⟩ := hI.still fun i => by
    rcases hwait i with ⟨hi, -⟩ | ⟨⟨v, hi⟩, -⟩ | ⟨hi, -⟩ <;> rw [hi] <;> exact ⟨rfl, rfl, rfl, rfl, rfl⟩
  by_cases hfull : s.q.size = m
  · refine Or.inr (Or.inl ⟨hfull, fun i => ?_⟩)
    rcases hwait i with ⟨-, hi⟩ | ⟨hi, -⟩ | ⟨-, hzero⟩
    · exact Or.inl hi
    · exact Or.inr hi
    · omega
  · by_cases hnone : s.q.size = 0
    · refine Or.inr (Or.inr ⟨hnone, fun i => ?_⟩)
      rcases hwait i with ⟨-, hi⟩ | ⟨-, hzero⟩ | ⟨hi, -⟩
      · exact Or.inl hi
      · omega
      · exact Or.inr hi
    · refine Or.inl fun i => ?_
      rcases hwait i with ⟨-, hi⟩ | ⟨-, hzero⟩ | ⟨-, hzero⟩
      · exact hi
      · omega
      · omega

/-- Threads that wait for what cannot come do nothing. -/
theorem QInv.blocked (hI : QInv m s) (hcur : ∀ i, (s.thr i).Cur) (h : s.Blocked m) (a : ι × QAct) : s.step a = none := by
  obtain ⟨i, a⟩ := a
  rcases h with ⟨hfull, hwait⟩ | ⟨hnone, hwait⟩
  · obtain ⟨-, hempty, -⟩ := hI.still fun j => by
      rcases hwait j with hj | ⟨v, hj⟩
      · rw [(hcur j).resolve_right fun hne => hne hj]
        exact ⟨rfl, rfl, rfl, rfl, rfl⟩
      · rw [hj]
        exact ⟨rfl, rfl, rfl, rfl, rfl⟩
    rcases hwait i with hi | ⟨v, hi⟩
    · exact finished_step (hcur i) hi
    · have hzero : s.q.nempty = 0 := by omega
      cases a with
      | run => simp [QSys.step, hi, tick, hzero]
      | timeout => simp [QSys.step, hi, QPc.expire]
  · obtain ⟨-, -, hstored⟩ := hI.still fun j => by
      rcases hwait j with hj | hj
      · rw [(hcur j).resolve_right fun hne => hne hj]
        exact ⟨rfl, rfl, rfl, rfl, rfl⟩
      · rw [hj]
        exact ⟨rfl, rfl, rfl, rfl, rfl⟩
    rcases hwait i with hi | hi
    · exact finished_step (hcur i) hi
    · have hzero : s.q.nstored = 0 := by omega
      cases a with
      | run => simp [QSys.step, hi, tick, hzero]
      | timeout => simp [QSys.step, hi, QPc.expire]

/-- **Every run of the queue is finite, and ends only where it must**: a run has at most eleven steps for each call; no
thread can move exactly if all calls have returned, or the others wait without a time-out, all for a slot of the full
queue or all for a value of the empty one. With timed calls only, every run that cannot go on has finished them. -/
theorem queue_progress (hm : 1 ≤ m) (prog : ι → List (QOp V)) :
    (∀ as s, run QSys.step (QSys.init m prog) as = some s → as.length ≤ ∑ i, 11 * (prog i).length) ∧
      (∀ s, Reach QSys.step Any (QSys.init m prog) s → ((∀ a, s.step a = none) ↔ s.Finished ∨ s.Blocked m)) ∧
      ((∀ i, ∀ op ∈ prog i, op.timed = true) → ∀ s, Reach QSys.step Any (QSys.init m prog) s →
        (∀ a, s.step a = none) → s.Finished) := by
  have hcur : ∀ s, Reach QSys.step Any (QSys.init m prog) s → ∀ i, (s.thr i).Cur := fun s h i => thr_cur (thr_reach hm h i)
  refine ⟨?_, ?_, ?_⟩
  · -- what is left to do is the rank
    intro as s hrun
    have hcount : as.countP (fun _ => true) ≤ ∑ i, ((QSys.init m prog).thr i).left := by
      refine countP_le_rank (C := Any) (I := fun s => Reach QSys.step Any (QSys.init m prog) s)
        (fun s => ∑ i, (s.thr i).left) ?_ .init (along_of_forall fun _ _ _ => trivial) hrun
      rintro s ⟨i, a⟩ s' hreach - hs
      obtain ⟨t, hthr, hleft⟩ := step_left hs (hcur s hreach i)
      refine ⟨hreach.next trivial hs, ?_⟩
      have hsum := sum_update (fun t : QThread V => t.left) s.thr i t
      rw [hthr]
      simp only [if_true]
      omega
    simpa [List.countP_true, QSys.init, QThread.left, QPc.did] using hcount
  · intro s hreach
    have hI := inv_reach hm hreach
    constructor
    · exact hI.stuck hm (hcur s hreach)
    · rintro (hfin | hblocked) a
      · exact finished_step (hcur s hreach a.1) (hfin a.1)
      · exact hI.blocked (hcur s hreach) hblocked a
  · intro htimed s hreach hstuck i
    have hno : ¬ ((∃ v, (s.thr i).pc = .pushBegin false v) ∨ (s.thr i).pc = .popBegin false) := by
      intro hpc
      obtain ⟨op, hop, huntimed⟩ := untimed_call (thr_reach hm hreach i) hpc
      rw [htimed i op hop] at huntimed
      cases huntimed
    rcases (inv_reach hm hreach).stuck hm (hcur s hreach) hstuck with hfin | ⟨-, hwait⟩ | ⟨-, hwait⟩
    · exact hfin i
    · exact (hwait i).resolve_right fun hpc => hno (Or.inl hpc)
    · exact (hwait i).resolve_right fun hpc => hno (Or.inr hpc)

end Ends

/-- The end of a run with one push for two pops, the second of them without a time-out. -/
def blockedDemo : Option (QSys Bool ℕ) :=
  run QSys.step (QSys.init 1 fun i => if i then [.popWait, .pop] else [.pushWait (some 7)])
    (List.replicate 11 (false, .run) ++ List.replicate 12 (true, .run))

theorem blockedDemo_runs : blockedDemo.isSome = true := by decide

/-- The consumer waits for a second value. -/
theorem queue_progress_demo : ((runTo blockedDemo_runs).thr true).todo.length = 1 ∧
    ∀ a, (runTo blockedDemo_runs).step a = none := by
  have hreach : Reach QSys.step Any (QSys.init 1 _) (runTo blockedDemo_runs) :=
    reach_runTo blockedDemo_runs
  refine ⟨by decide, ((queue_progress (by decide) _).2.1 _ hreach).2 (Or.inr (Or.inr ⟨by decide, fun i => ?_⟩))⟩
  cases i with
  | false => exact Or.inl rfl
  | true => exact Or.inr rfl

end HookKernel
