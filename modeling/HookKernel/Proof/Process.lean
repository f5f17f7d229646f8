import HookKernel.Proof.Order
import HookKernel.Proof.Queue
import HookKernel.Proof.Sender
import HookKernel.Spec.Process

/-!
# The workers on `queue.c` do what the process does

In `Spec/System` a push and a pop are one step. Here every run of the workers on
`queue.c`, with all its interleavings, is a run of that process: a call takes effect
when its critical section ends.

* `Call`: a worker with its call in progress, and the worker with what the call has done.
* `call_step`: one statement of a call.
* `Refines`: the two processes; `Refines.step`: each step is one step, or none.
* `proc_refines`: the runs.
-/

namespace HookKernel

open Lib

variable {c : Configure} {quit : Bool} {fs fs' : Disk}

/-! ## The receiver at a push -/

/-- The receiver once its push has succeeded. -/
def Rcv.afterPush (r : Rcv) (m : Message) : Rcv :=
  match r.pc with
  | .namesPush => { r with pc := .detach, pushed := r.pushed ++ [m], handed := r.stored.length }
  | .dataPush => { r with pc := .dataLog, pushed := r.pushed ++ [m] }
  | _ => { r with pc := .lastLog, pushed := r.pushed ++ [m] }

section Receiver

variable {r r' : Rcv} {m : Message} {a : RAct} {k : ℕ}

theorem pushing_cases (h : r.pushing = some m) : r.pc = .namesPush ∧ r.info.namesMsg = some m ∨
    r.pc = .dataPush ∧ r.msg = some m ∨ r.pc = .lastPush ∧ r.msg = some m := by
  unfold Rcv.pushing at h
  split at h
  · exact Or.inl ⟨‹_›, h⟩
  · exact Or.inr (Or.inl ⟨‹_›, h⟩)
  · exact Or.inr (Or.inr ⟨‹_›, h⟩)
  · cases h

theorem step_push (h : r.pushing = some m) : r.step c quit fs (.push true) = some (r.afterPush m, fs) := by
  rcases pushing_cases h with ⟨hpc, hm⟩ | ⟨hpc, hm⟩ | ⟨hpc, hm⟩
  · simp [Rcv.step, Rcv.afterPush, hpc, hm]
  · simp [Rcv.step, Rcv.afterPush, hpc, hm]
  · simp [Rcv.step, Rcv.afterPush, hpc, hm]

theorem afterPush_pushed (r : Rcv) (m : Message) : (r.afterPush m).pushed = r.pushed ++ [m] := by
  unfold Rcv.afterPush
  split <;> rfl

/-- A step that is not a successful push puts nothing on the queue. -/
theorem pushed_of_step (h : r.step c quit fs a = some (r', fs')) (ha : a ≠ .push true) : r'.pushed = r.pushed := by
  rcases (rstep_cases h).pushed with hp | ⟨m, -, hp, -⟩
  · exact hp
  · exact absurd hp ha

/-- The buffer may be flushed before the push as well as after it. -/
theorem flush_push (h : r.pushing = some m) (hs : r.step c quit fs (.flush k) = some (r', fs')) :
    r'.pushing = some m ∧ (r.afterPush m).step c quit fs (.flush k) = some (r'.afterPush m, fs') := by
  cases rstep_cases hs with
  | reach hfp =>
    rcases pushing_cases h with ⟨hpc, hm⟩ | ⟨hpc, hm⟩ | ⟨hpc, hm⟩
    · simp [Rcv.step, Rcv.afterPush, Rcv.pushing, hpc, hm, hfp]
    · simp [Rcv.step, Rcv.afterPush, Rcv.pushing, hpc, hm, hfp]
    · simp [Rcv.step, Rcv.afterPush, Rcv.pushing, hpc, hm, hfp]

end Receiver

/-! ## The sender at a pop -/

/-- The sender once its pop has returned `m`. -/
def Snd.afterPop (sd : Snd) (m : Message) : Snd :=
  match sd.pc with
  | .pop => { sd with pc := .log, msg := some m }
  | _ => { sd with pc := .dump, msg := some m }

section Sender

variable {sd sd' : Snd} {m : Message} {queue queue' : List Message} {a : SAct} {k : ℕ}

theorem popping_cases (h : sd.popping = true) : sd.pc = .pop ∨ sd.pc = .dumpPop := by
  unfold Snd.popping at h
  split at h
  · exact Or.inl ‹_›
  · exact Or.inr ‹_›
  · cases h

theorem step_pop (h : sd.popping = true) (m : Message) (queue : List Message) :
    sd.step c quit (m :: queue) fs (.pop true) = some (sd.afterPop m, queue, fs) := by
  rcases popping_cases h with hpc | hpc
  · simp only [Snd.step, Snd.afterPop, hpc]
  · simp only [Snd.step, Snd.afterPop, hpc]

/-- A step that is not a successful pop does not look at the queue. -/
theorem step_queue (h : sd.step c quit queue fs a = some (sd', queue', fs')) (ha : a ≠ .pop true) (q : List Message) :
    sd.step c quit q fs a = some (sd', q, fs') := by
  cases sstep_cases h with
  | pop h1 hq => exact absurd rfl ha
  | dumpPop h1 hq => exact absurd rfl ha
  | popNone h1 | checkQuit h1 | log h1 | check h1 | del h1 | dumpEnd h1 => simp only [Snd.step, h1]
  | buff h1 hm ht | list h1 hm ht => simp [Snd.step, h1, hm, ht]
  | file h1 hm hmore | filesEnd h1 hm hmore => simp [Snd.step, h1, hm, hmore]
  | rename h1 hm ht hmore | renameEnd h1 hm ht hmore => simp [Snd.step, h1, hm, ht, hmore]
  | opened h1 hm ht hfp | fopen h1 hm ht hfp => simp [Snd.step, h1, hm, ht, hfp]
  | fopenFail h1 hm ht =>
    have hfp := fopen_fp h
    simp [Snd.step, h1, hm, ht, hfp]
  | fwrite h1 hm hfp | fwriteFail h1 hm hfp => simp [Snd.step, h1, hm, hfp]
  | reach hfp => simp [Snd.step, hfp]

theorem flush_pop (h : sd.popping = true) (hs : sd.step c quit queue fs (.flush k) = some (sd', queue', fs')) (m : Message) :
    sd'.popping = true ∧ (sd.afterPop m).step c quit queue fs (.flush k) = some (sd'.afterPop m, queue, fs') := by
  cases sstep_cases hs with
  | reach hfp =>
    rcases popping_cases h with hpc | hpc
    · simp [Snd.step, Snd.afterPop, Snd.popping, hpc, hfp]
    · simp [Snd.step, Snd.afterPop, Snd.popping, hpc, hfp]

end Sender

/-! ## One call -/

/-- A worker `w` with its call in progress: `w'` is the worker with what the call has done. `asks w op` says that `w`
is about to call `op`, and `after w e w'` what the event `e` of the call makes of it. -/
inductive Call {W : Type} (asks : W → QOp Message → Prop) (after : W → FifoEv (Option Message) → W → Prop)
    (t : QThread Message) (w : W) : W → Prop
  | quiet : t.pc = .idle → t.todo = [] → Call asks after t w w
  | waits {op : QOp Message} : asks w op → t.todo = [op] → t.pc = .idle ∨ op.At t.pc → t.pc.pending op = none →
      Call asks after t w w
  | acted {op : QOp Message} {e : FifoEv (Option Message)} {w' : W} : asks w op → t.todo = [op] → op.At t.pc →
      t.pc.pending op = some e → after w e w' → Call asks after t w w'

/-- **One statement of a call**, or its time-out. -/
theorem call_step {s s' : QSys Bool Message} {i : Bool} {a : QAct} {max : ℤ} {op : QOp Message} (hI : QInv max s)
    (hs : s.step (i, a) = some s') (hnot : (s.thr i).pc.isRet = false) (htodo : (s.thr i).todo = [op])
    (hat : (s.thr i).pc = .idle ∨ op.At (s.thr i).pc) :
    s'.thr (!i) = s.thr (!i) ∧ (s'.thr i).todo = [op] ∧ op.At (s'.thr i).pc ∧ ∃ e : Option (FifoEv (Option Message)),
      s'.history = s.history ++ e.toList ∧
        ((s'.thr i).pc.pending op).toList = ((s.thr i).pc.pending op).toList ++ e.toList := by
  have hother : (!i) ≠ i := by cases i <;> decide
  rcases QSys.step_cases hs with ⟨op', rest, hpc, htodo', rfl⟩ | ⟨r, b, op', rest, hpc, -, rfl⟩ |
    ⟨q', pc', ht, rfl⟩ | ⟨pc', -, hx, rfl⟩
  · -- the call begins
    obtain ⟨rfl, rfl⟩ := List.cons.inj (htodo.symm.trans htodo')
    refine ⟨Function.update_of_ne hother _ _, ?_, ?_, none, ?_, ?_⟩
    · simpa [QSys.setThr] using htodo
    · simpa [QSys.setThr] using enter_at op
    · simp [QSys.setThr, QSys.history]
    · rw [hpc, pending_idle]
      simp [QSys.setThr, pending_enter]
  · rw [hpc] at hnot
    cases hnot
  · -- a statement
    have hnow : op.At (s.thr i).pc := by
      rcases hat with hidle | hat
      · rw [hidle] at ht
        cases ht
      · exact hat
    have hr : ∀ v r, (s.thr i).pc = .pushUnlock v r → r = 0 := by
      intro v r hpc
      obtain ⟨xs, -, hcs, -⟩ := hI.ring
      have hunlock := hcs i (by rw [hpc]; rfl)
      rw [hpc] at hunlock
      exact hunlock.1
    obtain ⟨hat', hpend⟩ := tick_call ht hnow hr
    refine ⟨Function.update_of_ne hother _ _, ?_, ?_, (s.thr i).pc.commit, ?_, ?_⟩
    · simpa [QSys.after] using htodo
    · simpa [QSys.after] using hat'
    · simp only [QSys.after, QSys.history, List.map_append]
      cases (s.thr i).pc.commit <;> rfl
    · simpa [QSys.after] using hpend
  · -- a time-out
    have hnow : op.At (s.thr i).pc := by
      rcases hat with hidle | hat
      · rw [hidle] at hx
        cases hx
      · exact hat
    obtain ⟨hat', hp', hp⟩ := expire_at hx hnow
    refine ⟨Function.update_of_ne hother _ _, ?_, ?_, none, ?_, ?_⟩
    · simpa [QSys.setThr] using htodo
    · simpa [QSys.setThr] using hat'
    · simp [QSys.setThr, QSys.history]
    · simp [QSys.setThr, hp, hp']

section Calls

variable {W : Type} {asks : W → QOp Message → Prop} {after : W → FifoEv (Option Message) → W → Prop} {w w' : W}
  {s s' : QSys Bool Message} {i : Bool} {a : QAct} {max : ℤ}

/-- **A call goes on**: it does nothing yet, or its event is the last one of the history. -/
theorem Call.next (h : Call asks after (s.thr i) w w') (hI : QInv max s) (hs : s.step (i, a) = some s')
    (hnot : (s.thr i).pc.isRet = false) : (s.thr i).todo ≠ [] ∧ s'.thr (!i) = s.thr (!i) ∧
      (s'.history = s.history ∧ Call asks after (s'.thr i) w w' ∨
        ∃ op e, asks w op ∧ w' = w ∧ s'.history = s.history ++ [e] ∧ (∃ pc, op.At pc ∧ pc.pending op = some e) ∧
          ∀ w'', after w e w'' → Call asks after (s'.thr i) w w'') := by
  cases h with
  | quiet hpc htodo =>
    rcases QSys.step_cases hs with ⟨op, rest, -, htodo', -⟩ | ⟨r, b, op, rest, hpc', -, -⟩ | ⟨q', pc', ht, -⟩ |
      ⟨pc', -, hx, -⟩
    · rw [htodo] at htodo'
      cases htodo'
    · rw [hpc] at hpc'
      cases hpc'
    · rw [hpc] at ht
      cases ht
    · rw [hpc] at hx
      cases hx
  | @waits op hasks htodo hat hpend =>
    obtain ⟨hother, htodo', hat', e, hhist, hnext⟩ := call_step hI hs hnot htodo hat
    rw [hpend] at hnext
    refine ⟨by rw [htodo]; exact List.cons_ne_nil _ _, hother, ?_⟩
    cases e with
    | none =>
      refine Or.inl ⟨by rw [hhist]; exact List.append_nil _, .waits hasks htodo' (Or.inr hat') ?_⟩
      simpa using hnext
    | some e =>
      have hacted : (s'.thr i).pc.pending op = some e := by
        simpa [Option.toList_eq_singleton_iff] using hnext
      exact Or.inr ⟨op, e, hasks, rfl, hhist, ⟨_, hat', hacted⟩, fun w'' hafter => .acted hasks htodo' hat' hacted hafter⟩
  | @acted op e _ hasks htodo hat hpend hafter =>
    obtain ⟨hother, htodo', hat', e', hhist, hnext⟩ := call_step hI hs hnot htodo (Or.inr hat)
    rw [hpend] at hnext
    -- a call has one event
    obtain rfl : e' = none := by
      cases e' with
      | none => rfl
      | some e' =>
        have hlen := congrArg List.length hnext
        cases hp : (s'.thr i).pc.pending op <;> simp [hp] at hlen
    refine ⟨by rw [htodo]; exact List.cons_ne_nil _ _, hother, Or.inl ⟨by rw [hhist]; exact List.append_nil _, .acted hasks htodo' hat' ?_ hafter⟩⟩
    simpa [Option.toList_eq_singleton_iff] using hnext

end Calls

/-! ## The two processes -/

/-- The receiver calls `queue_push_wait` with its message. -/
def AsksPush (r : Rcv) (op : QOp Message) : Prop := ∃ m, r.pushing = some m ∧ op = .pushWait (some m)

/-- The message has been stored. -/
def AfterPush (r : Rcv) (e : FifoEv (Option Message)) (r' : Rcv) : Prop :=
  ∃ m, r.pushing = some m ∧ e = .put (some m) ∧ r' = r.afterPush m

/-- The sender calls `queue_pop_wait`. -/
def AsksPop (sd : Snd) (op : QOp Message) : Prop := sd.popping = true ∧ op = .popWait

/-- A message has been taken. -/
def AfterPop (sd : Snd) (e : FifoEv (Option Message)) (sd' : Snd) : Prop :=
  ∃ m, sd.popping = true ∧ e = .take (some m) ∧ sd' = sd.afterPop m

/-- **The process on `queue.c` and the process whose pushes and pops are one step**: they are the same but for the
workers whose call has acted and not returned; and the critical sections so far leave the queue of the other. -/
structure Refines (c : Configure) (p : Proc) (t : Sys) : Prop where
  inv : QInv c.nodeCount p.q
  queue : fifoRun c.nodeCount [] p.q.history = some (t.queue.map some)
  rcv : Call AsksPush AfterPush (p.q.thr false) p.sys.rcv t.rcv
  snd : Call AsksPop AfterPop (p.q.thr true) p.sys.snd t.snd
  /-- only a thread that exists is in a call -/
  rtid : (p.q.thr false).todo ≠ [] → p.sys.rtid = true
  stid : (p.q.thr true).todo ≠ [] → p.sys.stid = true
  rest : t = { p.sys with rcv := t.rcv, snd := t.snd, queue := t.queue, owner := t.owner, freed := t.freed }

section Refinement

variable {p p' : Proc} {t : Sys}

/-- A step of the receiver in the process whose pushes are one step. -/
theorem sys_stepRcv {s : Sys} {a : RAct} {r : Rcv} (hid : s.rtid = true)
    (hstep : s.rcv.step c (checkWorkersQuit s.quit) s.fs a = some (r, fs)) {pushed : List Message}
    (hpushed : r.pushed = s.rcv.pushed ++ pushed) (hroom : pushed = [] ∨ (s.queue.length : ℤ) + pushed.length ≤ c.nodeCount) :
    ∃ owner freed, s.step c (.rcv a) =
      some { s with rcv := r, fs := fs, queue := s.queue ++ pushed, owner := owner, freed := freed } := by
  have hdrop : r.pushed.drop s.rcv.pushed.length = pushed := by
    rw [hpushed, List.drop_left]
  have hfits : ¬ ((s.queue.length : ℤ) + pushed.length > c.nodeCount ∧ pushed ≠ []) := by
    rintro ⟨hmore, hne⟩
    rcases hroom with hnil | hle
    · exact hne hnil
    · omega
  unfold Sys.step Sys.stepRcv
  simp only [hid, Bool.not_true, Bool.false_eq_true, if_false, hstep, Option.bind_eq_bind, Option.bind_some, hdrop, if_neg hfits]
  exact ⟨_, _, rfl⟩

/-- A step of the sender in the process whose pops are one step. -/
theorem sys_stepSnd {s : Sys} {a : SAct} {sd : Snd} {queue : List Message} (hid : s.stid = true)
    (hstep : s.snd.step c (checkWorkersQuit s.quit) s.queue s.fs a = some (sd, queue, fs)) :
    ∃ owner freed, s.step c (.snd a) =
      some { s with snd := sd, fs := fs, queue := queue, owner := owner, freed := freed } := by
  unfold Sys.step Sys.stepSnd
  simp only [hid, Bool.not_true, Bool.false_eq_true, if_false, hstep, Option.bind_eq_bind, Option.bind_some]
  exact ⟨_, _, rfl⟩

/-- What a thread that is not in a call has in common with the other process. -/
theorem Call.same {W : Type} {asks : W → QOp Message → Prop} {after : W → FifoEv (Option Message) → W → Prop}
    {th : QThread Message} {w w' : W} (h : Call asks after th w w') (hno : ∀ op, ¬ asks w op) : w' = w := by
  cases h with
  | quiet _ _ => rfl
  | waits hasks _ _ _ => rfl
  | acted hasks _ _ _ _ => exact absurd hasks (hno _)

theorem Refines.exists_eq (h : Refines c p t) :
    ∃ rcv snd queue owner freed, t = { p.sys with rcv := rcv, snd := snd, queue := queue, owner := owner, freed := freed } :=
  ⟨_, _, _, _, _, h.rest⟩

/-- A worker that has returned is in no call. -/
theorem Refines.returned (h : Refines c p t) :
    (p.sys.rcv.pc = .returned → t.rcv = p.sys.rcv) ∧ (p.sys.snd.pc = .returned → t.snd = p.sys.snd) := by
  refine ⟨fun hpc => h.rcv.same ?_, fun hpc => h.snd.same ?_⟩
  · rintro op ⟨m, hm, -⟩
    simp [Rcv.pushing, hpc] at hm
  · rintro op ⟨hpop, -⟩
    simp [Snd.popping, hpc] at hpop

/-- **A statement of `main`** or of `start_workers`. -/
theorem Refines.stepMain (h : Refines c p t) {s : Sys} (hs : p.sys.stepMain = some s) :
    ∃ t', Reach (Sys.step c) Any t t' ∧ Refines c { p with sys := s } t' := by
  obtain ⟨hret, hret'⟩ := h.returned
  obtain ⟨rcv, snd, queue, owner, freed, rfl⟩ := h.exists_eq
  have hstep : Sys.step c { p.sys with rcv := rcv, snd := snd, queue := queue, owner := owner, freed := freed } .main =
      some { s with rcv := rcv, snd := snd, queue := queue, owner := owner, freed := freed } := by
    show Sys.stepMain _ = _
    cases main_cases hs with
    | signal hm | notify hm => simp [Sys.stepMain, hm]
    | receiver hm hid | noReceiver hm hid | sender hm hid | noSender hm hid => simp [Sys.stepMain, hm, hid]
    | joinReceiver hm hpc =>
      have hsame : rcv = p.sys.rcv := hret hpc
      simp [Sys.stepMain, hm, hsame, hpc]
    | joinSender hm hpc =>
      have hsame : snd = p.sys.snd := hret' hpc
      simp [Sys.stepMain, hm, hsame, hpc]
  obtain ⟨h1, h2, h3, h4, h5, h6⟩ := (main_cases hs).same
  have hids : s.rtid = p.sys.rtid ∧ s.stid = p.sys.stid := by
    cases main_cases hs <;> exact ⟨rfl, rfl⟩
  refine ⟨_, .single trivial hstep, h.inv, h.queue, ?_, ?_, ?_, ?_, rfl⟩
  · show Call AsksPush AfterPush (p.q.thr false) s.rcv rcv
    rw [h1]
    exact h.rcv
  · show Call AsksPop AfterPop (p.q.thr true) s.snd snd
    rw [h2]
    exact h.snd
  · intro hcall
    exact hids.1.trans (h.rtid hcall)
  · intro hcall
    exact hids.2.trans (h.stid hcall)

theorem Refines.stepStarter (h : Refines c p t) {s : Sys} (hs : p.sys.stepStarter = some s) :
    ∃ t', Reach (Sys.step c) Any t t' ∧ Refines c { p with sys := s } t' := by
  obtain ⟨rcv, snd, queue, owner, freed, rfl⟩ := h.exists_eq
  have hstep : Sys.step c { p.sys with rcv := rcv, snd := snd, queue := queue, owner := owner, freed := freed } .starter =
      some { s with rcv := rcv, snd := snd, queue := queue, owner := owner, freed := freed } := by
    show Sys.stepStarter _ = _
    unfold Sys.stepStarter at hs ⊢
    cases hst : p.sys.starter <;> simp only [hst, Option.some.injEq, reduceCtorEq] at hs ⊢ <;> rw [← hs]
  obtain ⟨h1, h2, h3, h4, h5, h6⟩ := (starter_cases hs).same
  have hids : (p.sys.rtid = true → s.rtid = true) ∧ (p.sys.stid = true → s.stid = true) := by
    cases starter_cases hs with
    | login _ => exact ⟨id, id⟩
    | receiver _ => exact ⟨fun _ => rfl, id⟩
    | sender _ => exact ⟨id, fun _ => rfl⟩
  refine ⟨_, .single trivial hstep, h.inv, h.queue, ?_, ?_, ?_, ?_, rfl⟩
  · show Call AsksPush AfterPush (p.q.thr false) s.rcv rcv
    rw [h1]
    exact h.rcv
  · show Call AsksPop AfterPop (p.q.thr true) s.snd snd
    rw [h2]
    exact h.snd
  · intro hcall
    exact hids.1 (h.rtid hcall)
  · intro hcall
    exact hids.2 (h.stid hcall)

/-- **A step of the receiver that is not a push.** -/
theorem Refines.stepRcv (h : Refines c p t) {a : RAct} (hs : p.stepRcv c a = some p') :
    ∃ t', Reach (Sys.step c) Any t t' ∧ Refines c p' t' := by
  obtain ⟨rcv, snd, queue, owner, freed, rfl⟩ := h.exists_eq
  have hcall : Call AsksPush AfterPush (p.q.thr false) p.sys.rcv rcv := h.rcv
  unfold Proc.stepRcv at hs
  split at hs
  · rename_i hgo
    simp only [Bool.and_eq_true, Bool.not_eq_true', Bool.or_eq_true] at hgo
    obtain ⟨⟨hid, hpush⟩, hquiet⟩ := hgo
    obtain ⟨⟨r, fs⟩, hstep, rfl⟩ := Option.map_eq_some_iff.1 hs
    have hne : a ≠ .push true := by
      rintro rfl
      cases hpush
    have hflush : ∀ op, (p.q.thr false).todo = [op] → ∃ k, a = .flush k := by
      intro op htodo
      rcases hquiet with hquiet | hflush
      · simp [QThread.quiet, htodo] at hquiet
      · cases a with
        | flush k => exact ⟨k, rfl⟩
        | _ => cases hflush
    -- the receiver of the other process takes the same step
    have hboth : ∃ r', rcv.step c (checkWorkersQuit p.sys.quit) p.sys.fs a = some (r', fs) ∧
        Call AsksPush AfterPush (p.q.thr false) r r' := by
      cases hcall with
      | quiet hpc htodo => exact ⟨r, hstep, .quiet hpc htodo⟩
      | @waits op hasks htodo hat hpend =>
        obtain ⟨m, hm, rfl⟩ := hasks
        obtain ⟨k, rfl⟩ := hflush _ htodo
        obtain ⟨hm', -⟩ := flush_push hm hstep
        exact ⟨r, hstep, .waits ⟨m, hm', rfl⟩ htodo hat hpend⟩
      | @acted op e _ hasks htodo hat hpend hafter =>
        obtain ⟨m, hm, rfl⟩ := hasks
        obtain ⟨k, rfl⟩ := hflush _ htodo
        obtain ⟨m', hm₀, rfl, rfl⟩ := hafter
        obtain rfl := Option.some.inj (hm.symm.trans hm₀)
        obtain ⟨hm', hstep'⟩ := flush_push hm hstep
        exact ⟨_, hstep', .acted ⟨m, hm', rfl⟩ htodo hat hpend ⟨m, hm', rfl, rfl⟩⟩
    obtain ⟨r', hstep', hcall'⟩ := hboth
    obtain ⟨owner', freed', hsys⟩ := sys_stepRcv
      (s := { p.sys with rcv := rcv, snd := snd, queue := queue, owner := owner, freed := freed }) hid hstep'
      (by rw [List.append_nil]; exact pushed_of_step hstep' hne) (Or.inl rfl)
    refine ⟨_, .single trivial hsys, h.inv, ?_, hcall', h.snd, h.rtid, h.stid, rfl⟩
    show fifoRun c.nodeCount [] p.q.history = some ((queue ++ []).map some)
    rw [List.append_nil]
    exact h.queue
  · cases hs

/-- **A step of the sender that is not a pop.** -/
theorem Refines.stepSnd (h : Refines c p t) {a : SAct} (hs : p.stepSnd c a = some p') :
    ∃ t', Reach (Sys.step c) Any t t' ∧ Refines c p' t' := by
  obtain ⟨rcv, snd, queue, owner, freed, rfl⟩ := h.exists_eq
  have hcall : Call AsksPop AfterPop (p.q.thr true) p.sys.snd snd := h.snd
  unfold Proc.stepSnd at hs
  split at hs
  · rename_i hgo
    simp only [Bool.and_eq_true, Bool.not_eq_true', Bool.or_eq_true] at hgo
    obtain ⟨⟨hid, hpop⟩, hquiet⟩ := hgo
    obtain ⟨⟨sd, q, fs⟩, hstep, rfl⟩ := Option.map_eq_some_iff.1 hs
    have hne : a ≠ .pop true := by
      rintro rfl
      cases hpop
    have hflush : ∀ op, (p.q.thr true).todo = [op] → ∃ k, a = .flush k := by
      intro op htodo
      rcases hquiet with hquiet | hflush
      · simp [QThread.quiet, htodo] at hquiet
      · cases a with
        | flush k => exact ⟨k, rfl⟩
        | _ => cases hflush
    have hboth : ∃ sd', snd.step c (checkWorkersQuit p.sys.quit) queue p.sys.fs a = some (sd', queue, fs) ∧
        Call AsksPop AfterPop (p.q.thr true) sd sd' := by
      cases hcall with
      | quiet hpc htodo => exact ⟨sd, step_queue hstep hne queue, .quiet hpc htodo⟩
      | @waits op hasks htodo hat hpend =>
        obtain ⟨hpopping, rfl⟩ := hasks
        obtain ⟨k, rfl⟩ := hflush _ htodo
        have hpopping' : sd.popping = true := by
          cases sstep_cases hstep with
          | reach _ => exact hpopping
        exact ⟨sd, step_queue hstep hne queue, .waits ⟨hpopping', rfl⟩ htodo hat hpend⟩
      | @acted op e _ hasks htodo hat hpend hafter =>
        obtain ⟨-, rfl⟩ := hasks
        obtain ⟨k, rfl⟩ := hflush _ htodo
        obtain ⟨m, hpopping, rfl, rfl⟩ := hafter
        obtain ⟨hpopping', hstep'⟩ := flush_pop hpopping (step_queue hstep hne queue) m
        exact ⟨_, hstep', .acted ⟨hpopping', rfl⟩ htodo hat hpend ⟨m, hpopping', rfl, rfl⟩⟩
    obtain ⟨sd', hstep', hcall'⟩ := hboth
    obtain ⟨owner', freed', hsys⟩ := sys_stepSnd
      (s := { p.sys with rcv := rcv, snd := snd, queue := queue, owner := owner, freed := freed }) hid hstep'
    exact ⟨_, .single trivial hsys, h.inv, h.queue, h.rcv, hcall', h.rtid, h.stid, rfl⟩
  · cases hs

/-- The calls in progress are in no critical section before they begin. -/
theorem QInv.call {s : QSys Bool Message} {max : ℤ} (h : QInv max s) {i : Bool} (hpc : (s.thr i).pc = .idle)
    (op : QOp Message) : QInv max (s.call i op) :=
  inv_free h (by rw [hpc]; exact ⟨rfl, rfl, rfl, rfl, rfl⟩) (by rw [hpc]; exact ⟨rfl, rfl, rfl, rfl, rfl⟩)

theorem Call.idle {W : Type} {asks : W → QOp Message → Prop} {after : W → FifoEv (Option Message) → W → Prop}
    {th : QThread Message} {w w' : W} (h : Call asks after th w w') (hquiet : th.quiet = true) : th.pc = .idle ∧ w' = w := by
  cases h with
  | quiet hpc _ => exact ⟨hpc, rfl⟩
  | waits _ htodo _ _ | acted _ htodo _ _ _ => simp [QThread.quiet, htodo] at hquiet

/-- **A worker calls**: nothing has happened yet. -/
theorem Refines.push (h : Refines c p t) (hs : p.push = some p') : Refines c p' t := by
  unfold Proc.push at hs
  split at hs
  · rename_i hgo
    obtain ⟨hid, hquiet⟩ := Bool.and_eq_true_iff.1 hgo
    obtain ⟨m, hm, rfl⟩ := Option.map_eq_some_iff.1 hs
    obtain ⟨hpc, hsame⟩ := h.rcv.idle hquiet
    refine ⟨h.inv.call hpc _, h.queue, ?_, ?_, fun _ => hid, h.stid, h.rest⟩
    · rw [hsame]
      exact .waits ⟨m, hm, rfl⟩ (by simp [QSys.call, QSys.setThr]) (Or.inl (by simpa [QSys.call, QSys.setThr] using hpc))
        (by simp [QSys.call, QSys.setThr, hpc, pending_idle])
    · exact h.snd
  · cases hs

theorem Refines.pop (h : Refines c p t) (hs : p.pop = some p') : Refines c p' t := by
  unfold Proc.pop at hs
  split at hs
  · rename_i hgo
    simp only [Bool.and_eq_true] at hgo
    obtain ⟨⟨hid, hquiet⟩, hpop⟩ := hgo
    obtain rfl := Option.some.inj hs
    obtain ⟨hpc, hsame⟩ := h.snd.idle hquiet
    refine ⟨h.inv.call hpc _, h.queue, h.rcv, ?_, h.rtid, fun _ => hid, h.rest⟩
    rw [hsame]
    exact .waits ⟨hpop, rfl⟩ (by simp [QSys.call, QSys.setThr]) (Or.inl (by simpa [QSys.call, QSys.setThr] using hpc))
      (by simp [QSys.call, QSys.setThr, hpc, pending_idle])
  · cases hs

theorem pending_push {v : Option Message} {pc : QPc Message} {e : FifoEv (Option Message)}
    (hat : (QOp.pushWait v).At pc) (h : pc.pending (.pushWait v) = some e) : e = .put v := by
  cases pc with
  | pushPost r =>
    obtain rfl := Option.some.inj h
    rfl
  | ret r b =>
    rcases hat with ⟨rfl, rfl⟩ | ⟨rfl, rfl⟩
    · obtain rfl := Option.some.inj h
      rfl
    · cases h
  | popPost v' => rcases hat with hop | hop <;> cases hop
  | _ => cases h

theorem pending_pop {pc : QPc Message} {e : FifoEv (Option Message)} (hat : (QOp.popWait : QOp Message).At pc)
    (h : pc.pending .popWait = some e) : ∃ v, e = .take v := by
  cases pc with
  | popPost v =>
    obtain rfl := Option.some.inj h
    exact ⟨v, rfl⟩
  | ret r b =>
    rcases hat with ⟨⟨v, rfl⟩, rfl⟩ | ⟨rfl, rfl⟩
    · obtain rfl := Option.some.inj h
      exact ⟨v, rfl⟩
    · cases h
  | pushPost r =>
    obtain ⟨-, v, hop | hop⟩ := hat <;> cases hop
  | _ => cases h

/-- **A statement of a call in progress**: it is the push or the pop of the other process if it ends the critical
section, and nothing otherwise. -/
theorem Refines.stepQueue (h : Refines c p t) {i : Bool} {a : QAct} (hs : p.stepQueue i a = some p') :
    ∃ t', Reach (Sys.step c) Any t t' ∧ Refines c p' t' := by
  unfold Proc.stepQueue at hs
  split at hs
  · cases hs
  rename_i hnot
  obtain ⟨q, hq, rfl⟩ := Option.map_eq_some_iff.1 hs
  have hinv := inv_step h.inv hq
  obtain ⟨xs, hxs, -⟩ := hinv.ring
  obtain ⟨rcv, snd, queue, owner, freed, rfl⟩ := h.exists_eq
  cases i with
  | false =>
    obtain ⟨htodo, hother, hnext⟩ := h.rcv.next h.inv hq (by simpa using hnot)
    have hid : p.sys.rtid = true := h.rtid htodo
    have hsnd : q.thr true = p.q.thr true := hother
    rcases hnext with ⟨hhist, hcall⟩ | ⟨op, e, ⟨m, hm, rfl⟩, hsame, hhist, ⟨pc, hat, hpend⟩, hcall⟩
    · exact ⟨_, .init, hinv, hhist ▸ h.queue, hcall, hsnd ▸ h.snd, fun _ => hid, hsnd ▸ h.stid, rfl⟩
    · obtain rfl := pending_push hat hpend
      obtain rfl : rcv = p.sys.rcv := hsame
      -- the history stays legal, so there was room
      rw [hhist, fifoRun_concat, h.queue, Option.bind_some] at hxs
      obtain ⟨hroom, rfl⟩ := fifoStep_put hxs
      obtain ⟨owner', freed', hsys⟩ := sys_stepRcv
        (s := { p.sys with rcv := p.sys.rcv, snd := snd, queue := queue, owner := owner, freed := freed }) hid
        (step_push hm) (afterPush_pushed _ m) (Or.inr (by simpa [Int.add_one_le_iff] using hroom))
      refine ⟨_, .single trivial hsys, hinv, ?_, hcall _ ⟨m, hm, rfl, rfl⟩, hsnd ▸ h.snd, fun _ => hid, hsnd ▸ h.stid, rfl⟩
      show fifoRun c.nodeCount [] q.history = some ((queue ++ [m]).map some)
      rw [hhist, fifoRun_concat, h.queue, Option.bind_some, hxs, List.map_append]
      rfl
  | true =>
    obtain ⟨htodo, hother, hnext⟩ := h.snd.next h.inv hq (by simpa using hnot)
    have hid : p.sys.stid = true := h.stid htodo
    have hrcv : q.thr false = p.q.thr false := hother
    rcases hnext with ⟨hhist, hcall⟩ | ⟨op, e, ⟨hpop, rfl⟩, hsame, hhist, ⟨pc, hat, hpend⟩, hcall⟩
    · exact ⟨_, .init, hinv, hhist ▸ h.queue, hrcv ▸ h.rcv, hcall, hrcv ▸ h.rtid, fun _ => hid, rfl⟩
    · obtain ⟨v, rfl⟩ := pending_pop hat hpend
      obtain rfl : snd = p.sys.snd := hsame
      rw [hhist, fifoRun_concat, h.queue, Option.bind_some] at hxs
      obtain ⟨hhead, rfl⟩ := fifoStep_take hxs
      -- the queue holds no NULL
      obtain ⟨m, queue', rfl, rfl⟩ : ∃ m queue', queue = m :: queue' ∧ v = some m := by
        cases queue with
        | nil => cases hhead
        | cons m queue' => exact ⟨m, queue', rfl, (Option.some.inj hhead).symm⟩
      obtain ⟨owner', freed', hsys⟩ := sys_stepSnd
        (s := { p.sys with rcv := rcv, snd := p.sys.snd, queue := m :: queue', owner := owner, freed := freed }) hid
        (step_pop hpop m queue')
      refine ⟨_, .single trivial hsys, hinv, ?_, hrcv ▸ h.rcv, hcall _ ⟨m, hpop, rfl, rfl⟩, hrcv ▸ h.rtid, fun _ => hid, rfl⟩
      show fifoRun c.nodeCount [] q.history = some (queue'.map some)
      rw [hhist, fifoRun_concat, h.queue, Option.bind_some, hxs]
      rfl

/-- **A call returns.** -/
theorem return_step {s s' : QSys Bool Message} {i : Bool} {op : QOp Message} {r : QRet Message} {b : Bool}
    (hs : s.step (i, .run) = some s') (hpc : (s.thr i).pc = .ret r b) (htodo : (s.thr i).todo = [op]) :
    s'.thr (!i) = s.thr (!i) ∧ (s'.thr i).pc = .idle ∧ (s'.thr i).todo = [] ∧ s'.history = s.history := by
  have hother : (!i) ≠ i := by cases i <;> decide
  rcases QSys.step_cases hs with ⟨op', rest, hidle, -⟩ | ⟨r', b', op', rest, -, htodo', rfl⟩ | ⟨q', pc', ht, -⟩ |
    ⟨pc', hact, -⟩
  · rw [hpc] at hidle
    cases hidle
  · obtain ⟨rfl, rfl⟩ := List.cons.inj (htodo.symm.trans htodo')
    exact ⟨Function.update_of_ne hother _ _, by simp [QSys.setThr], by simp [QSys.setThr], rfl⟩
  · rw [hpc] at ht
    cases ht
  · cases hact

/-- A call that has returned: it has acted, or it has timed out. -/
theorem Call.ret {W : Type} {asks : W → QOp Message → Prop} {after : W → FifoEv (Option Message) → W → Prop}
    {th : QThread Message} {w w' : W} {r : QRet Message} {b : Bool} (h : Call asks after th w w') (hpc : th.pc = .ret r b) :
    ∃ op, asks w op ∧ th.todo = [op] ∧ RetOk op r b ∧
      (callEv op r b = none ∧ w' = w ∨ ∃ e, callEv op r b = some e ∧ after w e w') := by
  cases h with
  | quiet hidle _ =>
    rw [hpc] at hidle
    cases hidle
  | @waits op hasks htodo hat hpend =>
    rw [hpc] at hat hpend
    exact ⟨op, hasks, htodo, hat.resolve_left (fun hidle => by cases hidle), Or.inl ⟨hpend, rfl⟩⟩
  | @acted op e _ hasks htodo hat hpend hafter =>
    rw [hpc] at hat hpend
    exact ⟨op, hasks, htodo, hat, Or.inr ⟨e, hpend, hafter⟩⟩

/-- **The push returns**: with 0 when the other process has pushed, and after a time-out when it gives up with it. -/
theorem Refines.pushed (h : Refines c p t) (hs : p.pushed c = some p') :
    ∃ t', Reach (Sys.step c) Any t t' ∧ Refines c p' t' := by
  unfold Proc.pushed at hs
  split at hs
  · rename_i r b hpc
    obtain ⟨q, hq, hs⟩ := Option.bind_eq_some_iff.1 hs
    obtain ⟨⟨r', fs⟩, hstep, rfl⟩ := Option.map_eq_some_iff.1 hs
    obtain ⟨rcv, snd, queue, owner, freed, rfl⟩ := h.exists_eq
    obtain ⟨op, ⟨m, hm, rfl⟩, htodo, hret, hnext⟩ := h.rcv.ret hpc
    have hinv := inv_step h.inv hq
    obtain ⟨hother, hidle, hnone, hhist⟩ := return_step hq hpc htodo
    have hsnd : q.thr true = p.q.thr true := hother
    have hid : p.sys.rtid = true := h.rtid (by rw [htodo]; exact List.cons_ne_nil _ _)
    have hno : (q.thr false).todo ≠ [] → p.sys.rtid = true := fun hmore => absurd hnone hmore
    rcases hret with ⟨hr, rfl⟩ | ⟨hr, rfl⟩
    · -- the other process has pushed already, when the critical section ended
      cases hr
      rcases hnext with ⟨hev, -⟩ | ⟨e, -, m', hm', -, hafter⟩
      · cases hev
      · obtain rfl := Option.some.inj (hm.symm.trans hm')
        obtain ⟨rfl, rfl⟩ := Prod.mk.inj (Option.some.inj ((step_push hm).symm.trans hstep))
        obtain rfl : rcv = p.sys.rcv.afterPush m := hafter
        exact ⟨_, .init, hinv, hhist ▸ h.queue, .quiet hidle hnone, hsnd ▸ h.snd, hno, hsnd ▸ h.stid, rfl⟩
    · -- a call that has timed out has done nothing: the other push times out now
      cases hr
      rcases hnext with ⟨-, hsame⟩ | ⟨e, hev, -⟩
      · obtain rfl : rcv = p.sys.rcv := hsame
        obtain ⟨owner', freed', hsys⟩ := sys_stepRcv
          (s := { p.sys with rcv := p.sys.rcv, snd := snd, queue := queue, owner := owner, freed := freed }) hid hstep
          (by rw [List.append_nil]; exact pushed_of_step hstep (by decide)) (Or.inl rfl)
        refine ⟨_, .single trivial hsys, hinv, ?_, .quiet hidle hnone, hsnd ▸ h.snd, hno, hsnd ▸ h.stid, rfl⟩
        show fifoRun c.nodeCount [] q.history = some ((queue ++ []).map some)
        rw [hhist, List.append_nil]
        exact h.queue
      · cases hev
  · cases hs

/-- **The pop returns**: with the message that the other process has taken, and after a time-out when it gives up with
it. -/
theorem Refines.popped (h : Refines c p t) (hs : p.popped c = some p') :
    ∃ t', Reach (Sys.step c) Any t t' ∧ Refines c p' t' := by
  unfold Proc.popped at hs
  split at hs
  · rename_i v b hpc
    obtain ⟨q, hq, hs⟩ := Option.bind_eq_some_iff.1 hs
    obtain ⟨⟨sd, rest, fs⟩, hstep, rfl⟩ := Option.map_eq_some_iff.1 hs
    obtain ⟨rcv, snd, queue, owner, freed, rfl⟩ := h.exists_eq
    obtain ⟨op, ⟨hpop, rfl⟩, htodo, hret, hnext⟩ := h.snd.ret hpc
    have hinv := inv_step h.inv hq
    obtain ⟨hother, hidle, hnone, hhist⟩ := return_step hq hpc htodo
    have hrcv : q.thr false = p.q.thr false := hother
    have hid : p.sys.stid = true := h.stid (by rw [htodo]; exact List.cons_ne_nil _ _)
    have hno : (q.thr true).todo ≠ [] → p.sys.stid = true := fun hmore => absurd hnone hmore
    rcases hret with ⟨-, rfl⟩ | ⟨hr, rfl⟩
    · rcases hnext with ⟨hev, -⟩ | ⟨e, hev, m, -, rfl, hafter⟩
      · cases hev
      · -- the other process has taken this message already
        obtain rfl : v = some m := by cases hev; rfl
        obtain ⟨rfl, hrest⟩ := Prod.mk.inj (Option.some.inj ((step_pop hpop m []).symm.trans hstep))
        obtain ⟨rfl, rfl⟩ := Prod.mk.inj hrest
        obtain rfl : snd = p.sys.snd.afterPop m := hafter
        exact ⟨_, .init, hinv, hhist ▸ h.queue, hrcv ▸ h.rcv, .quiet hidle hnone, hrcv ▸ h.rtid, hno, rfl⟩
    · -- the other pop times out now
      cases hr
      rcases hnext with ⟨-, hsame⟩ | ⟨e, hev, -⟩
      · obtain rfl : snd = p.sys.snd := hsame
        obtain ⟨owner', freed', hsys⟩ := sys_stepSnd
          (s := { p.sys with rcv := rcv, snd := p.sys.snd, queue := queue, owner := owner, freed := freed }) hid
          (step_queue hstep (by decide) queue)
        exact ⟨_, .single trivial hsys, hinv, hhist ▸ h.queue, hrcv ▸ h.rcv, .quiet hidle hnone, hrcv ▸ h.rtid, hno, rfl⟩
      · cases hev
  · cases hs

/-- **One step of the workers on `queue.c`** is one step of the process, or none. -/
theorem Refines.step (h : Refines c p t) {a : ProcAct} (hs : p.step c a = some p') :
    ∃ t', Reach (Sys.step c) Any t t' ∧ Refines c p' t' := by
  cases a with
  | rcv a => exact h.stepRcv hs
  | snd a => exact h.stepSnd hs
  | main =>
    obtain ⟨s, hmain, rfl⟩ := Option.map_eq_some_iff.1 hs
    exact h.stepMain hmain
  | starter =>
    obtain ⟨s, hstarter, rfl⟩ := Option.map_eq_some_iff.1 hs
    exact h.stepStarter hstarter
  | push => exact ⟨t, .init, h.push hs⟩
  | pop => exact ⟨t, .init, h.pop hs⟩
  | queue i a => exact h.stepQueue hs
  | pushed => exact h.pushed hs
  | popped => exact h.popped hs

/-- The processes at the start. -/
theorem refines_init (hmax : 1 ≤ c.nodeCount) (fs : Disk) : Refines c (Proc.init c fs) (Sys.init c fs) where
  inv := inv_init hmax _
  queue := rfl
  rcv := .quiet rfl rfl
  snd := .quiet rfl rfl
  rtid := fun hmore => absurd rfl hmore
  stid := fun hmore => absurd rfl hmore
  rest := rfl

theorem Refines.settled (h : Refines c p t) (hquiet : ∀ i, (p.q.thr i).quiet = true) : p.q.q.contents = t.queue.map some := by
  have hidle : ∀ i, (p.q.thr i).pc.inCs = 0 := by
    intro i
    cases i with
    | false => rw [(h.rcv.idle (hquiet false)).1]; rfl
    | true => rw [(h.snd.idle (hquiet true)).1]; rfl
  have hfree : 0 < p.q.q.mutex := by
    have hmutex := h.inv.mutex
    rw [Finset.sum_eq_zero fun i _ => hidle i] at hmutex
    omega
  obtain ⟨xs, hxs, -, hring⟩ := h.inv.ring
  obtain rfl := Option.some.inj (hxs.symm.trans h.queue)
  exact contents_eq (hring hfree)

/-- **The process on `queue.c` refines the process whose pushes and pops are one step**: every state that any
interleaving of the queue's statements with the other threads reaches is, up to the calls in progress, one that the other
process reaches. A worker outside a call is the worker there, and between calls the ring holds the queue there. -/
theorem proc_refines (hmax : 1 ≤ c.nodeCount) (h : Reach (Proc.step c) Any (Proc.init c fs) p) :
    ∃ t, Reach (Sys.step c) Any (Sys.init c fs) t ∧ Refines c p t ∧
      ((p.q.thr false).quiet = true → t.rcv = p.sys.rcv) ∧ ((p.q.thr true).quiet = true → t.snd = p.sys.snd) ∧
      ((∀ i, (p.q.thr i).quiet = true) → p.q.q.contents = t.queue.map some) := by
  obtain ⟨t, hreach, href⟩ := h.simulates (refines_init hmax fs) fun _ _ _ _ hR _ hs => Refines.step hR hs
  exact ⟨t, hreach, href, fun hquiet => (href.rcv.idle hquiet).2, fun hquiet => (href.snd.idle hquiet).2,
    fun hquiet => href.settled hquiet⟩

end Refinement

/-- The sender has the message, sent on while the push of it has not returned. -/
def procDemo : List ProcAct :=
  [.starter, .starter, .starter, .pop, .queue true .run] ++
    [RAct.select 1, .tau, .recv (some [1, 2]), .tau].map .rcv ++ [.push] ++ List.replicate 10 (.queue false .run) ++
    List.replicate 9 (.queue true .run) ++ [.popped, .snd .tau, .snd (.send .success)]

theorem procDemo_runs : (run (Proc.step (demoConf 4097 1)) (Proc.init (demoConf 4097 1) (Fs.empty _ _)) procDemo).isSome := by
  decide +kernel

/-- The end of this run. -/
def procDemoEnd : Proc := runTo procDemo_runs

theorem proc_refines_demo : procDemoEnd.sys.snd.sent.map Cell.val = [1, 2] ∧ procDemoEnd.sys.rcv.pushed = [] ∧
    ∃ t, Reach (Sys.step (demoConf 4097 1)) Any (Sys.init (demoConf 4097 1) (Fs.empty _ _)) t ∧
      Refines (demoConf 4097 1) procDemoEnd t :=
  have hreach : Reach (Proc.step (demoConf 4097 1)) Any (Proc.init (demoConf 4097 1) (Fs.empty _ _)) procDemoEnd :=
    reach_runTo procDemo_runs
  have ⟨t, hreach', href, _⟩ := proc_refines (by decide) hreach
  ⟨by decide +kernel, by decide +kernel, t, hreach', href⟩

end HookKernel
