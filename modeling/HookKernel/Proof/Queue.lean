import HookKernel.Proof.QueueInv

/-!
# The queue is a linearizable bounded FIFO

* `queue_credits` (every interleaving): the semaphores count free slots and stored
  items, up to the threads that are between taking a credit and giving one back;
  so the full branch of `_circle_push` and the empty branch of `_circle_pop` are
  never taken.
* `queue_linearizable` (every interleaving): the critical sections, in order, are
  a legal history of a FIFO of capacity `max`, and whenever the mutex is free the
  ring holds exactly its contents.
-/

namespace HookKernel

open Lib

variable {V : Type}

/-! ## Calls, returns and the history -/

/-- The value an operation pushes. -/
def QOp.value : QOp V → Option V
  | .push v | .pushWait v => v
  | _ => none

/-- What an operation may return: a push 0, a timed push 0 or (on time-out) 1, a pop
a pointer, a timed pop a pointer or (on time-out) `NULL`. -/
def RetOk : QOp V → QRet V → Bool → Prop
  | .push _, r, b => r = .int 0 ∧ b = false
  | .pushWait _, r, b => (r = .int 0 ∧ b = false) ∨ (r = .int 1 ∧ b = true)
  | .pop, r, b => (∃ v, r = .ptr v) ∧ b = false
  | .popWait, r, b => ((∃ v, r = .ptr v) ∧ b = false) ∨ (r = .ptr none ∧ b = true)

/-- The event of a finished call: none for one that timed out. -/
def callEv (op : QOp V) : QRet V → Bool → Option (FifoEv (Option V))
  | .int _, false => some (.put op.value)
  | .ptr v, false => some (.take v)
  | _, true => none

/-- The event that a call in progress has already committed. -/
def QPc.pending (op : QOp V) : QPc V → Option (FifoEv (Option V))
  | .pushPost _ => some (.put op.value)
  | .popPost v => some (.take v)
  | .ret r b => callEv op r b
  | _ => none

/-- `pc` is a program point of a call of `op`. -/
def QOp.At (op : QOp V) : QPc V → Prop
  | .idle => False
  | .pushBegin t v => op = if t then .pushWait v else .push v
  | .pushLock v | .pushPos v | .pushFull v _ | .pushStore v _ | .pushWpos v _ | .pushSize v
  | .pushUnlock v _ => op = .push v ∨ op = .pushWait v
  | .pushPost r => r = 0 ∧ ∃ v, op = .push v ∨ op = .pushWait v
  | .popBegin t => op = if t then .popWait else .pop
  | .popLock | .popEmpty | .popRead | .popClear _ | .popRpos _ | .popSize _ | .popUnlock _
  | .popPost _ => op = .pop ∨ op = .popWait
  | .ret r b => RetOk op r b

/-- A call follows its operation's program points and commits its event once. -/
theorem tick_call {q q' : Queue V} {pc pc' : QPc V} {op : QOp V} (h : tick q pc = some (q', pc'))
    (hat : op.At pc) (hr : ∀ v r, pc = .pushUnlock v r → r = 0) :
    op.At pc' ∧ (pc'.pending op).toList = (pc.pending op).toList ++ pc.commit.toList := by
  cases pc with
  | idle => cases hat
  | ret r b => simp [tick] at h
  | pushBegin t v =>
    simp only [tick] at h
    split at h <;> cases h
    refine ⟨?_, rfl⟩
    cases t
    · exact Or.inl hat
    · exact Or.inr hat
  | popBegin t =>
    simp only [tick] at h
    split at h <;> cases h
    refine ⟨?_, rfl⟩
    cases t
    · exact Or.inl hat
    · exact Or.inr hat
  | pushUnlock v r =>
    have hr0 := hr v r rfl
    subst hr0
    simp only [tick] at h
    cases h
    refine ⟨⟨rfl, v, hat⟩, ?_⟩
    rcases hat with rfl | rfl <;> simp [QPc.pending, QPc.commit, QOp.value]
  | pushPost r =>
    simp only [tick] at h
    cases h
    obtain ⟨rfl, v, rfl | rfl⟩ := hat
    · exact ⟨⟨rfl, rfl⟩, rfl⟩
    · exact ⟨Or.inl ⟨rfl, rfl⟩, rfl⟩
  | popPost v =>
    simp only [tick] at h
    cases h
    rcases hat with rfl | rfl
    · exact ⟨⟨⟨v, rfl⟩, rfl⟩, rfl⟩
    · exact ⟨Or.inl ⟨⟨v, rfl⟩, rfl⟩, rfl⟩
  | _ =>
    simp only [tick] at h
    try (split at h)
    all_goals (cases h <;> exact ⟨hat, rfl⟩)

section Calls

variable {ι : Type} [DecidableEq ι] {s s' : QSys ι V} {i : ι} {a : QAct} {m : ℤ}
  {prog : ι → List (QOp V)}

/-- The history of thread `i`. -/
def QSys.logOf (s : QSys ι V) (i : ι) : List (FifoEv (Option V)) :=
  (s.log.filter fun e => e.1 = i).map Prod.snd

/-- The event that a thread's call in progress has already committed. -/
def QThread.pending (t : QThread V) : Option (FifoEv (Option V)) :=
  t.todo.head?.bind fun op => t.pc.pending op

/-- The events of a thread's finished calls. -/
def QThread.events (t : QThread V) : List (FifoEv (Option V)) :=
  t.done.filterMap fun e => callEv e.1 e.2.1 e.2.2

/-- A thread works off its program, and its history is what its calls returned. -/
structure ThrOk (prog : List (QOp V)) (log : List (FifoEv (Option V))) (t : QThread V) : Prop where
  prog : t.done.map Prod.fst ++ t.todo = prog
  cur : t.pc = .idle ∨ ∃ op rest, t.todo = op :: rest ∧ op.At t.pc
  done : ∀ e ∈ t.done, RetOk e.1 e.2.1 e.2.2
  log : log = t.events ++ t.pending.toList

theorem logOf_after (s : QSys ι V) (i j : ι) (q' : Queue V) (pc' : QPc V) :
    (s.after i q' pc').logOf j =
      s.logOf j ++ (if i = j then (s.thr i).pc.commit.toList else []) := by
  simp only [QSys.after, QSys.logOf, List.filter_append, List.map_append]
  congr 1
  cases (s.thr i).pc.commit with
  | none => simp
  | some e => by_cases hij : i = j <;> simp [hij]

theorem enter_at (op : QOp V) : op.At op.enter := by cases op <;> rfl

theorem pending_idle (op : QOp V) : QPc.idle.pending op = none := rfl

theorem pending_enter (op op' : QOp V) : op.enter.pending op' = none := by cases op <;> rfl

theorem expire_at {pc pc' : QPc V} {op : QOp V} (h : pc.expire = some pc') (hat : op.At pc) :
    op.At pc' ∧ pc'.pending op = none ∧ pc.pending op = none := by
  unfold QPc.expire at h
  split at h <;> simp only [Option.some.injEq, reduceCtorEq] at h <;> subst h
  · have : op = .pushWait _ := hat
    subst this; exact ⟨Or.inr ⟨rfl, rfl⟩, rfl, rfl⟩
  · have : op = .popWait := hat
    subst this; exact ⟨Or.inr ⟨rfl, rfl⟩, rfl, rfl⟩

/-- Only pushed values are in the history: a `put` comes from an operation of the
thread's program. -/
theorem put_from_prog {log : List (FifoEv (Option V))} {pr : List (QOp V)} {t : QThread V} {v : Option V}
    (hT : ThrOk pr log t) (h : .put v ∈ log) : .push v ∈ pr ∨ .pushWait v ∈ pr := by
  have hop : ∀ (op : QOp V) (r : QRet V) (b : Bool), RetOk op r b → callEv op r b = some (.put v) →
      op ∈ pr → .push v ∈ pr ∨ .pushWait v ∈ pr := by
    intro op r b hret hev hmem
    cases r with
    | ptr w => cases b <;> simp [callEv] at hev
    | int r =>
      cases b with
      | true => simp [callEv] at hev
      | false =>
        simp only [callEv, Option.some.injEq, FifoEv.put.injEq] at hev
        subst hev
        cases op with
        | push v => exact Or.inl hmem
        | pushWait v => exact Or.inr hmem
        | pop => simp [RetOk] at hret
        | popWait => simp [RetOk] at hret
  have hhead : ∀ op rest, t.todo = op :: rest → op ∈ pr := by
    intro op rest htodo; rw [← hT.prog, htodo]; simp
  rw [hT.log, List.mem_append] at h
  rcases h with h | h
  · simp only [QThread.events, List.mem_filterMap] at h
    obtain ⟨e, he, hev⟩ := h
    refine hop _ _ _ (hT.done e he) hev ?_
    rw [← hT.prog]; exact List.mem_append_left _ (List.mem_map_of_mem he)
  · rcases hT.cur with hidle | ⟨op, rest, htodo, hat⟩
    · cases htd : t.todo <;> simp [QThread.pending, htd, hidle, QPc.pending] at h
    · simp only [QThread.pending, htodo, List.head?_cons, Option.bind_some, Option.mem_toList] at h
      cases hpc : t.pc with
      | pushPost r =>
        rw [hpc] at h hat
        simp only [QPc.pending, Option.some.injEq, FifoEv.put.injEq] at h
        have hmem := hhead op rest htodo
        obtain ⟨-, w, rfl | rfl⟩ := hat
        · left; rw [← h]; exact hmem
        · right; rw [← h]; exact hmem
      | ret r b =>
        rw [hpc] at h hat
        exact hop op r b hat h (hhead op rest htodo)
      | _ => rw [hpc] at h; simp [QPc.pending] at h

/-- Between critical sections the ring's contents are what the history says. -/
theorem contents_eq {q : Circle V} {xs : List (Option V)} (h : CircleOk q xs) : q.contents = xs := by
  have hsz : q.size.toNat = xs.length := by rw [h.size]; rfl
  unfold Circle.contents
  apply List.ext_getElem
  · simp [hsz]
  · intro k h1 h2
    have hr := h.rpos.1
    simp only [List.getElem_map, List.getElem_range]
    rw [Int.tmod_eq_emod_of_nonneg (by omega)]
    exact h.holds k h2

variable [DecidableEq V] [Fintype ι]

/-- **Every step keeps the threads' histories.** -/
theorem thr_step (hI : QInv m s) (hT : ∀ j, ThrOk (prog j) (s.logOf j) (s.thr j))
    (h : s.step (i, a) = some s') : ∀ j, ThrOk (prog j) (s'.logOf j) (s'.thr j) := by
  intro j
  have hset : ∀ t : QThread V, ThrOk (prog i) (s.logOf i) t →
      ThrOk (prog j) ((s.setThr i t).logOf j) ((s.setThr i t).thr j) := by
    intro t ht
    by_cases hji : j = i
    · subst hji; simpa [QSys.setThr, QSys.logOf] using ht
    · simpa [QSys.setThr, QSys.logOf, Function.update_of_ne hji] using hT j
  obtain ⟨h1, h2, h3, h4⟩ := hT i
  rcases QSys.step_cases h with ⟨op, rest, hpc, htodo, rfl⟩ | ⟨r, b, op, rest, hpc, htodo, rfl⟩ |
    ⟨q', pc', ht, rfl⟩ | ⟨pc', -, hx, rfl⟩
  · -- a call
    apply hset
    refine ⟨h1, Or.inr ⟨op, rest, htodo, enter_at op⟩, h3, ?_⟩
    rw [h4]
    simp [QThread.pending, QThread.events, htodo, hpc, pending_enter, pending_idle]
  · -- a return
    apply hset
    have hat : RetOk op r b := by
      rcases h2 with h2 | ⟨op', rest', h5, h6⟩
      · rw [hpc] at h2; cases h2
      · rw [htodo] at h5; cases h5; rwa [hpc] at h6
    refine ⟨?_, Or.inl rfl, ?_, ?_⟩
    · rw [← h1, htodo]; simp
    · intro e he
      rw [List.mem_append, List.mem_singleton] at he
      rcases he with he | rfl
      · exact h3 e he
      · exact hat
    · rw [h4]
      simp only [QThread.pending, QThread.events, htodo, hpc, QPc.pending, List.filterMap_append]
      cases hev : callEv op r b <;> cases rest <;> simp [hev]
  · -- a statement
    rw [logOf_after]
    by_cases hji : j = i
    · subst hji
      have hcur : ∃ op rest, (s.thr j).todo = op :: rest ∧ op.At (s.thr j).pc := by
        rcases h2 with h2 | h2
        · rw [h2] at ht; simp [tick] at ht
        · exact h2
      obtain ⟨op, rest, htodo, hat⟩ := hcur
      have hr : ∀ v r, (s.thr j).pc = .pushUnlock v r → r = 0 := by
        intro v r hpc
        obtain ⟨xs, -, hcs, -⟩ := hI.ring
        have := hcs j (by rw [hpc]; rfl)
        rw [hpc] at this
        exact this.1
      obtain ⟨hat', hpend⟩ := tick_call ht hat hr
      simp only [QSys.after, Function.update_self, if_true]
      refine ⟨h1, Or.inr ⟨op, rest, htodo, hat'⟩, h3, ?_⟩
      rw [h4]
      simp only [QThread.pending, QThread.events, htodo, List.head?_cons, Option.bind_some]
      rw [hpend, List.append_assoc]
    · rw [if_neg (Ne.symm hji), List.append_nil]
      simpa [QSys.after, Function.update_of_ne hji] using hT j
  · -- a time-out
    apply hset
    have hcur : ∃ op rest, (s.thr i).todo = op :: rest ∧ op.At (s.thr i).pc := by
      rcases h2 with h2 | h2
      · rw [h2] at hx; simp [QPc.expire] at hx
      · exact h2
    obtain ⟨op, rest, htodo, hat⟩ := hcur
    obtain ⟨hat', hp', hp⟩ := expire_at hx hat
    refine ⟨h1, Or.inr ⟨op, rest, htodo, hat'⟩, h3, ?_⟩
    rw [h4]
    simp [QThread.pending, QThread.events, htodo, hp, hp']

theorem thr_reach (hm : 1 ≤ m) (h : Reach QSys.step Any (QSys.init m prog) s) :
    ∀ j, ThrOk (prog j) (s.logOf j) (s.thr j) := by
  have hboth : QInv m s ∧ ∀ j, ThrOk (prog j) (s.logOf j) (s.thr j) := by
    refine h.inv (I := fun s => QInv m s ∧ ∀ j, ThrOk (prog j) (s.logOf j) (s.thr j))
      ⟨inv_init hm prog, ?_⟩ ?_
    · intro j
      refine ⟨by simp [QSys.init], Or.inl rfl, by simp [QSys.init], ?_⟩
      cases hp : prog j <;> simp [QSys.logOf, QSys.init, QThread.events, QThread.pending, hp, QPc.pending]
    · rintro s ⟨i, a⟩ s' ⟨hI, hT⟩ - hs
      exact ⟨inv_step hI hs, thr_step hI hT hs⟩
  exact hboth.2

/-! ## The theorems -/

/-- No thread's program pushes `NULL`. -/
def NonNull (prog : ι → List (QOp V)) : Prop :=
  ∀ i, QOp.push none ∉ prog i ∧ QOp.pushWait none ∉ prog i

/-- **The queue is a linearizable bounded FIFO.** Whenever the mutex is free, the
critical sections so far are a legal history of a FIFO of capacity `max` with the
ring's contents: what the pops took, followed by the contents, is what the pushes
stored. Each thread's part of that history is what its calls returned. -/
theorem queue_linearizable (hm : 1 ≤ m) (h : Reach QSys.step Any (QSys.init m prog) s)
    (hfree : 0 < s.q.mutex) :
    takes s.history ++ s.q.contents = puts s.history ∧
      fifoRun m [] s.history = some s.q.contents ∧
      ∀ i, s.logOf i = (s.thr i).events ++ (s.thr i).pending.toList := by
  obtain ⟨xs, hr, -, hok⟩ := (inv_reach hm h).ring
  rw [contents_eq (hok hfree)]
  refine ⟨?_, hr, fun i => (thr_reach hm h i).log⟩
  have := fifoRun_values _ _ _ hr
  rwa [List.nil_append] at this

/-- With non-`NULL` values pushed, a pop that did not time out returns a value. -/
theorem pop_nonNull (hm : 1 ≤ m) (h : Reach QSys.step Any (QSys.init m prog) s) (hnn : NonNull prog)
    {op : QOp V} {b : Bool} (hd : (op, QRet.ptr none, b) ∈ (s.thr i).done) : b = true := by
  by_contra hb
  rw [Bool.not_eq_true] at hb
  subst hb
  have hT := thr_reach hm h
  -- the value it took is in the history, so some push put it there
  have hlog : .take none ∈ s.logOf i := by
    rw [(hT i).log]
    apply List.mem_append_left
    exact List.mem_filterMap.2 ⟨_, hd, rfl⟩
  have hhist : .take none ∈ s.history := by
    simp only [QSys.logOf, List.mem_map, List.mem_filter] at hlog
    obtain ⟨e, ⟨he, -⟩, hev⟩ := hlog
    exact List.mem_map.2 ⟨e, he, hev⟩
  obtain ⟨xs, hr, -, -⟩ := (inv_reach hm h).ring
  have hval := fifoRun_values _ _ _ hr
  have hput : .put none ∈ s.history := by
    apply mem_puts
    rw [List.nil_append] at hval
    rw [← hval]
    exact List.mem_append_left _ (mem_takes hhist)
  obtain ⟨e, he, hev⟩ := List.mem_map.1 hput
  have hj : .put none ∈ s.logOf e.1 :=
    List.mem_map.2 ⟨e, List.mem_filter.2 ⟨he, by simp⟩, hev⟩
  rcases put_from_prog (hT e.1) hj with hp | hp
  · exact (hnn e.1).1 hp
  · exact (hnn e.1).2 hp

/-- **The credits are conserved** in every reachable state, so neither error branch
is ever taken; pushes return 0 (or 1 on time-out) and pops of non-`NULL` values
return `NULL` only on time-out; a time-out happens before the call took a credit
and changes nothing; and with no call in progress the semaphores are exactly
`max - size` and `size`. -/
theorem queue_credits (hm : 1 ≤ m) (h : Reach QSys.step Any (QSys.init m prog) s) :
    (s.q.nempty + s.q.size + (∑ i, (s.thr i).pc.pushing : ℕ) + (∑ i, (s.thr i).pc.popped : ℕ) = m ∧
      s.q.nstored + (∑ i, (s.thr i).pc.popping : ℕ) + (∑ i, (s.thr i).pc.pushed : ℕ) = s.q.size) ∧
    (∀ i, ¬ (s.thr i).pc.atError s.q.toCircle) ∧
    (∀ i, ∀ e ∈ (s.thr i).done, RetOk e.1 e.2.1 e.2.2) ∧
    (NonNull prog → ∀ i op b, (op, QRet.ptr none, b) ∈ (s.thr i).done → b = true) ∧
    (∀ i s', s.step (i, .timeout) = some s' →
      (s.thr i).pc.free ∧ s'.q = s.q ∧ s'.log = s.log ∧ ∀ j, ((s'.thr j).pc.pushing = (s.thr j).pc.pushing ∧
        (s'.thr j).pc.popping = (s.thr j).pc.popping)) ∧
    ((∀ i, (s.thr i).pc = .idle) → s.q.nempty = m - s.q.size ∧ s.q.nstored = s.q.size) := by
  have hI := inv_reach hm h
  refine ⟨⟨hI.empty, hI.stored⟩, hI.no_error, fun i => (thr_reach hm h i).done,
    fun hnn i op b hd => pop_nonNull hm h hnn hd, ?_, ?_⟩
  · intro i s' hs
    simp only [QSys.step, Option.map_eq_some_iff] at hs
    obtain ⟨pc', hx, rfl⟩ := hs
    obtain ⟨hf, hf'⟩ := free_expire hx
    refine ⟨hf, rfl, rfl, ?_⟩
    intro j
    by_cases hji : j = i
    · subst hji
      simp only [QSys.setThr, Function.update_self]
      exact ⟨by rw [hf'.2.1, hf.2.1], by rw [hf'.2.2.2.1, hf.2.2.2.1]⟩
    · simp [QSys.setThr, Function.update_of_ne hji]
  · intro hidle
    have h1 := hI.empty
    have h2 := hI.stored
    simp only [hidle, QPc.pushing, QPc.popped, QPc.popping, QPc.pushed, Finset.sum_const_zero] at h1 h2
    constructor <;> omega

end Calls

/-! ## A run with two threads -/

/-- A producer that pushes two values and a consumer that pops with a time-out, on a
queue of one slot. -/
def demoProg : Bool → List (QOp ℕ)
  | false => [.push (some 7), .pushWait (some 8)]
  | true => [.popWait, .popWait]

/-- The consumer times out; the producer stores 7 and its second push times out on
the full queue; the consumer takes 7 and has not posted `nempty` yet. -/
def demoSched : List (Bool × QAct) :=
  [(true, QAct.run), (true, .timeout), (true, .run)] ++ List.replicate 11 (false, QAct.run) ++
    [(false, QAct.run), (false, .timeout), (false, .run)] ++ List.replicate 9 (true, QAct.run)

theorem demo_runs : (run QSys.step (QSys.init 1 demoProg) demoSched).isSome = true := by decide

/-- The state after the schedule. -/
def demoState : QSys Bool ℕ := runTo demo_runs

theorem demo_reach : Reach QSys.step Any (QSys.init 1 demoProg) demoState :=
  reach_runTo demo_runs

theorem queue_linearizable_demo :
    takes demoState.history = [some 7] ∧
      takes demoState.history ++ demoState.q.contents = puts demoState.history :=
  ⟨by decide, (queue_linearizable le_rfl demo_reach (by decide)).1⟩

theorem queue_credits_demo :
    demoState.q.nempty = 0 ∧ demoState.q.size = 0 ∧
      demoState.q.nempty + demoState.q.size + (∑ i, (demoState.thr i).pc.pushing : ℕ) +
        (∑ i, (demoState.thr i).pc.popped : ℕ) = (1 : ℤ) :=
  ⟨by decide, by decide, (queue_credits le_rfl demo_reach).1.1⟩

end HookKernel
