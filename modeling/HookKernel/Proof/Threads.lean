import HookKernel.Proof.Cache
import HookKernel.Proof.Sender

/-!
# The threads at a shutdown

`main` joins the workers whose ids it finds set. The workers poll the quit flag at
different points, so that one may leave before the other is done.

* `ShutdownSafe`: the steps that leave nothing behind.
* `ThreadInv`: what `main` knows of the workers, and what a worker leaves when it returns.
-/

namespace HookKernel

open Lib

variable {c : Configure} {quit : Bool} {r r' : Rcv} {fs fs' : Disk} {a : RAct}

/-! ## Steps that leave nothing behind -/

/-- The receiver leaves only without a name list, its last push finds room, no push comes
after the sender has left, and writes are safe. -/
def RcvSafe (s : Sys) : RAct → Prop
  | .tau => s.rcv.pc = .checkQuit → checkWorkersQuit s.quit = true → s.rcv.info.namesMsg = none
  | .push true => s.snd.pc ≠ .returned
  | .push false => s.rcv.pc ≠ .lastPush
  | .write e => WriteSafe s.rcv e
  | _ => True

/-- The sender leaves only when the queue is empty, does not upload a file with bytes in
the receiver's stream, and its dump succeeds: no name is left that has a file, no file
is replaced, and no write fails. -/
def SndSafe (c : Configure) (s : Sys) : SAct → Prop
  | .tau => (s.snd.pc = .checkQuit → checkWorkersQuit s.quit = true → s.queue = []) ∧
      (s.snd.pc = .dump → ∀ m ∈ s.snd.msg, m.type = 1 → ∀ n ∈ m.filenames, s.fs.dir n = none)
  | .pop false => s.snd.pc = .dumpPop → s.queue = []
  | .send res => s.snd.pc = .files → res ≠ .errNet → ∀ m ∈ s.snd.msg, ∀ fp ∈ s.rcv.info.currFp,
      s.fs.dir m.filename = some fp.ino → fp.buf = []
  | .rename ok => ok = true ∧ ∀ m ∈ s.snd.msg, s.fs.dir (renameTarget c m.filename) = none
  | .fopen _ ok => ok = true
  | .fwrite res => res = none
  | _ => True

/-- The workers are created before `main` reads their ids, and a queue without a sender is
empty at that time. -/
def ShutdownSafe (c : Configure) (s : Sys) : SysAct → Prop
  | .rcv a => RcvSafe s a
  | .snd b => SndSafe c s b
  | .main => s.main = .readStid → s.stid = false → s.queue = []
  | .starter => (s.starter = .createReceiver → s.main = .wait ∨ s.main = .notify ∨ s.main = .readRtid) ∧
      (s.starter = .createSender → s.main ≠ .done)

/-! ## Threads -/

/-- On the way out. -/
def RPc.leaving : RPc → Bool
  | .lastPush | .lastLog | .returned => true
  | _ => false

/-- `main` has joined the receiver, or found none. -/
def MPc.pastReceiver : MPc → Bool
  | .readStid | .joinSender | .done => true
  | _ => false

/-- **What `main` knows of the workers, and what they leave.** -/
structure ThreadInv (c : Configure) (s : Sys) : Prop where
  joined : s.main.pastReceiver = true → s.rtid = true → s.rcv.pc = .returned
  joining : s.main = .joinSender → s.stid = true
  done : s.main = .done → s.stid = true → s.snd.pc = .returned
  alone : s.main = .done → s.stid = false → s.queue = []
  noRcv : s.rtid = false → s.rcv = Rcv.init c
  noSnd : s.stid = false → s.snd = Snd.init
  unlisted : s.rcv.pc.leaving = true → s.rcv.info.namesMsg = none
  left : s.snd.pc = .returned → s.queue = [] ∧ s.snd.msg = none

theorem threadInv_init (c : Configure) (fs : Disk) : ThreadInv c (Sys.init c fs) := by
  constructor <;> simp [Sys.init, MPc.pastReceiver, Rcv.init, RPc.leaving, Snd.init]

/-- A receiver that has returned does nothing. -/
theorem RStep.returned (h : RStep c quit r fs a r' fs') (hpc : r.pc = .returned) :
    r'.pc = .returned ∧ r'.pushed = r.pushed := by
  cases h with
  | reach _ => exact ⟨hpc, rfl⟩
  | selectErr h1 _ | select h1 _ | goOn h1 _ | quitPush h1 _ _ _ | quitDone h1 _ _ | lastPush h1 _ | lastLog h1
  | keep h1 _ | alloc h1 _ _ | namesPush h1 _ | namesFail h1 | detach h1 | recvErr h1 _ | recv h1 _ _ _
  | noRecv h1 | flush h1 _ | dataPush h1 _ | dataFail h1 | dataLog h1 | writeOk h1 _ _ _ | writeFail h1 _ _ _
  | drop h1 _ =>
    rw [h1] at hpc
    cases hpc

/-- A receiver on the way out has no name list. -/
theorem RStep.unlisted (h : RStep c quit r fs a r' fs') (hold : r.pc.leaving = true → r.info.namesMsg = none)
    (hquit : a = .tau → r.pc = .checkQuit → quit = true → r.info.namesMsg = none) (hpc : r'.pc.leaving = true) :
    r'.info.namesMsg = none := by
  cases h with
  | selectErr h1 _ => exact hold hpc
  | @select n _ _ => by_cases hn : n = 0 <;> simp [hn, RPc.leaving] at hpc
  | quitPush h1 hq _ _ | quitDone h1 hq _ => exact hquit rfl h1 hq
  | lastPush h1 _ | lastLog h1 => exact hold (by rw [h1]; rfl)
  | keep _ _ | alloc _ _ _ =>
    simp only [Rcv.afterReady] at hpc
    split at hpc <;> cases hpc
  | @flush m _ _ =>
    have hcalm := (calm_of (stepFlush_calm r m)).2.2.2
    revert hpc hcalm
    cases (r.stepFlush m).pc <;> simp [RPc.leaving, RPc.inLoop]
  | reach _ => exact hold hpc
  | goOn _ _ | namesPush _ _ | namesFail _ | detach _ | recvErr _ _ | recv _ _ _ _ | noRecv _ | dataPush _ _
  | dataFail _ | dataLog _ | writeOk _ _ _ _ | writeFail _ _ _ _ | drop _ _ => cases hpc

theorem ThreadInv.rcv {s : Sys} (h : ThreadInv c s) (hrt : s.rtid = true)
    (hs : RStep c (checkWorkersQuit s.quit) s.rcv s.fs a r' fs') (hc : RcvSafe s a) {pushed : List Message}
    (hp : r'.pushed = s.rcv.pushed ++ pushed) (owner : ℕ → Owner) (freed : List ℕ) :
    ThreadInv c { s with rcv := r', fs := fs', queue := s.queue ++ pushed, owner := owner, freed := freed } := by
  have nopush : r'.pushed = s.rcv.pushed → pushed = [] := by
    intro h1
    rw [h1] at hp
    simpa using hp
  refine ⟨fun hm _ => (hs.returned (h.joined hm hrt)).1, h.joining, h.done, fun hm hst => ?_, fun hno => ?_, h.noSnd, ?_,
    fun hpc => ?_⟩
  · have h1 := h.joined (by rw [hm]; rfl) hrt
    simp only
    rw [nopush (hs.returned h1).2, h.alone hm hst]
    rfl
  · rw [hrt] at hno
    cases hno
  · refine hs.unlisted h.unlisted fun ha => ?_
    subst ha
    exact hc
  · refine ⟨?_, (h.left hpc).2⟩
    simp only
    rcases hs.pushed with h1 | ⟨m, -, rfl, -⟩
    · rw [nopush h1, (h.left hpc).1]
      rfl
    · exact absurd hpc hc

theorem SStep.returned {sd sd' : Snd} {queue queue' : List Message} {b : SAct}
    (h : SStep c quit sd queue fs b sd' queue' fs') (hpc : sd.pc = .returned) :
    sd'.pc = .returned ∧ queue' = queue ∧ sd'.msg = sd.msg := by
  cases h with
  | reach _ => exact ⟨hpc, rfl, rfl⟩
  | pop h1 _ | popNone h1 | checkQuit h1 | log h1 | buff h1 _ _ | list h1 _ _ | file h1 _ _ | filesEnd h1 _ _
  | check h1 | rename h1 _ _ _ | renameEnd h1 _ _ _ | opened h1 _ _ _ | fopen h1 _ _ _ | fopenFail h1 _ _
  | fwrite h1 _ _ | fwriteFail h1 _ _ | del h1 | dumpPop h1 _ | dumpEnd h1 =>
    rw [h1] at hpc
    cases hpc

/-- **A sender that leaves has emptied the queue.** -/
theorem SStep.left {s : Sys} {sd : Snd} {queue : List Message} {b : SAct}
    (h : SStep c (checkWorkersQuit s.quit) s.snd s.queue s.fs b sd queue fs') (hi : SndInv s.snd)
    (hc : SndSafe c s b) (hold : s.snd.pc = .returned → s.queue = [] ∧ s.snd.msg = none) (hpc : sd.pc = .returned) :
    queue = [] ∧ sd.msg = none := by
  cases h with
  | checkQuit h1 =>
    cases hq : checkWorkersQuit s.quit with
    | false =>
      simp only [hq] at hpc
      cases hpc
    | true => exact ⟨hc.1 h1 hq, hi.free (Or.inr (Or.inl h1))⟩
  | dumpEnd h1 => exact ⟨hc h1, hi.free (Or.inr (Or.inr h1))⟩
  | fopenFail _ _ _ => cases hc
  | @buff m res _ _ _ => cases res <;> cases hpc
  | @file m res h1 _ _ =>
    cases res with
    | success | errSys | errSrv =>
      simp only [Snd.stepFile, h1] at hpc
      cases hpc
    | errNet => cases hpc
  | check _ => cases hq : checkWorkersQuit s.quit <;> simp [hq] at hpc
  | @rename m ok h1 _ _ _ =>
    rw [(stepRename_pc _ _ s.snd m ok).1, h1] at hpc
    cases hpc
  | reach _ => exact hold hpc
  | pop _ _ | popNone _ | log _ | list _ _ _ | filesEnd _ _ _ | renameEnd _ _ _ _ | opened _ _ _ _
  | fopen _ _ _ _ | fwrite _ _ _ | fwriteFail _ _ _ | del _ | dumpPop _ _ => cases hpc

theorem ThreadInv.main {s s' : Sys} (h : ThreadInv c s) (hs : MainStep s s') (hc : ShutdownSafe c s .main) :
    ThreadInv c s' := by
  cases hs with
  | signal _ | notify _ | receiver _ _ =>
    exact ⟨by simp [MPc.pastReceiver], by simp, by simp, by simp, h.noRcv, h.noSnd, h.unlisted, h.left⟩
  | noReceiver _ hno =>
    refine ⟨fun _ hrt => ?_, by simp, by simp, by simp, h.noRcv, h.noSnd, h.unlisted, h.left⟩
    simp only [hno] at hrt
    cases hrt
  | joinReceiver _ hret => exact ⟨fun _ _ => hret, by simp, by simp, by simp, h.noRcv, h.noSnd, h.unlisted, h.left⟩
  | sender hm hst =>
    have hj := h.joined (by rw [hm]; rfl)
    exact ⟨fun _ => hj, fun _ => hst, by simp, by simp, h.noRcv, h.noSnd, h.unlisted, h.left⟩
  | noSender hm hno =>
    have hj := h.joined (by rw [hm]; rfl)
    refine ⟨fun _ => hj, by simp, fun _ hst => ?_, fun _ _ => hc hm hno, h.noRcv, h.noSnd, h.unlisted, h.left⟩
    simp only [hno] at hst
    cases hst
  | joinSender hm hret =>
    have hj := h.joined (by rw [hm]; rfl)
    have hst := h.joining hm
    refine ⟨fun _ => hj, by simp, fun _ _ => hret, fun _ hno => ?_, h.noRcv, h.noSnd, h.unlisted, h.left⟩
    simp only [hst] at hno
    cases hno

theorem ThreadInv.starter {s s' : Sys} (h : ThreadInv c s) (hs : StarterStep s s') (hc : ShutdownSafe c s .starter) :
    ThreadInv c s' := by
  cases hs with
  | login _ => exact ⟨h.joined, h.joining, h.done, h.alone, h.noRcv, h.noSnd, h.unlisted, h.left⟩
  | receiver hst =>
    -- `main` has not read the id yet
    refine ⟨fun hp _ => ?_, h.joining, h.done, h.alone, by simp, h.noSnd, h.unlisted, h.left⟩
    rcases hc.1 hst with h1 | h1 | h1 <;> simp [h1, MPc.pastReceiver] at hp
  | sender hst =>
    have hm := hc.2 hst
    exact ⟨h.joined, fun _ => rfl, fun hd => absurd hd hm, fun hd => absurd hd hm, h.noRcv, by simp, h.unlisted, h.left⟩

/-- **Every safe step keeps what `main` knows of the workers.** -/
theorem ThreadInv.step {s s' : Sys} {b : SysAct} (h : ThreadInv c s) (hi : SndInv s.snd) (hc : ShutdownSafe c s b)
    (hs : s.step c b = some s') : ThreadInv c s' := by
  cases sys_cases hs with
  | rcv hrt hr hp => exact h.rcv hrt hr hc hp _ _
  | @snd b sd queue popped fs hst hsnd hp =>
    have hleft := hsnd.left hi hc h.left
    refine ⟨h.joined, h.joining, fun hm hst => ?_, fun _ hno => ?_, h.noRcv, fun hno => ?_, h.unlisted, hleft⟩
    · exact (hsnd.returned (h.done hm hst)).1
    · rw [hst] at hno
      cases hno
    · rw [hst] at hno
      cases hno
  | main hm => exact h.main hm hc
  | starter hm => exact h.starter hm hc

end HookKernel
