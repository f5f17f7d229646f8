import HookKernel.Proof.Receiver
import HookKernel.Spec.System

/-!
# The steps of the sender and of the process

* `SStep`, `sstep_cases`: everything one step of the sender can do.
* `SndInv`: where the sender is determines whether it holds a message, and of which type.
* `SysStep`, `sys_cases`: everything one step of the process can do.
-/

namespace HookKernel

open Lib

variable {c : Configure} {quit : Bool} {sd sd' : Snd} {queue queue' : List Message} {fs fs' : Disk}

/-- **Everything a step of the sender can do.** -/
inductive SStep (c : Configure) (quit : Bool) (sd : Snd) (queue : List Message) (fs : Disk) :
    SAct → Snd → List Message → Disk → Prop
  | pop {m : Message} {q : List Message} : sd.pc = .pop → queue = m :: q →
      SStep c quit sd queue fs (.pop true) { sd with pc := .log, msg := some m } q fs
  | popNone : sd.pc = .pop → SStep c quit sd queue fs (.pop false) { sd with pc := .checkQuit } queue fs
  | checkQuit : sd.pc = .checkQuit →
      SStep c quit sd queue fs .tau { sd with pc := if quit then .returned else .pop } queue fs
  | log : sd.pc = .log → SStep c quit sd queue fs .tau { sd with pc := .body } queue fs
  | buff {m : Message} {res : SndRes} : sd.pc = .body → sd.msg = some m → m.type = 0 →
      SStep c quit sd queue fs (.send res) (sd.stepBuff m res) queue fs
  | list {m : Message} : sd.pc = .body → sd.msg = some m → m.type ≠ 0 →
      SStep c quit sd queue fs .tau { sd with pc := .files } queue fs
  | file {m : Message} {res : SndRes} : sd.pc = .files → sd.msg = some m → Snd.more fs m = true →
      SStep c quit sd queue fs (.send res) (sd.stepFile fs m res) queue fs
  | filesEnd {m : Message} : sd.pc = .files → sd.msg = some m → Snd.more fs m = false →
      SStep c quit sd queue fs .tau { sd with pc := .check } queue fs
  | check : sd.pc = .check →
      SStep c quit sd queue fs .tau { sd with pc := if quit then .dump else .body } queue fs
  | rename {m : Message} {ok : Bool} : sd.pc = .dump → sd.msg = some m → m.type = 1 → Snd.more fs m = true →
      SStep c quit sd queue fs (.rename ok) (sd.stepRename c fs m ok).1 queue (sd.stepRename c fs m ok).2
  | renameEnd {m : Message} : sd.pc = .dump → sd.msg = some m → m.type = 1 → Snd.more fs m = false →
      SStep c quit sd queue fs .tau { sd with pc := .dumpDel } queue fs
  | opened {m : Message} : sd.pc = .dump → sd.msg = some m → m.type ≠ 1 → sd.fp.isSome →
      SStep c quit sd queue fs .tau { sd with pc := .dumpWrite } queue fs
  | fopen {m : Message} {now : ℤ} : sd.pc = .dump → sd.msg = some m → m.type ≠ 1 → sd.fp = none →
      SStep c quit sd queue fs (.fopen now true)
        { sd with pc := .dumpWrite, fp := some (fs.fopen (dumpName c now)).2 } queue (fs.fopen (dumpName c now)).1
  | fopenFail {m : Message} {now : ℤ} : sd.pc = .dump → sd.msg = some m → m.type ≠ 1 →
      SStep c quit sd queue fs (.fopen now false) { sd with pc := .returned } queue fs
  | fwrite {m : Message} {fp : Stream Cell} : sd.pc = .dumpWrite → sd.msg = some m → sd.fp = some fp →
      SStep c quit sd queue fs (.fwrite none)
        { sd with pc := .dumpDel, fp := some (fp.fwrite m.bytes), dumped := sd.dumped ++ m.bytes } queue fs
  | fwriteFail {m : Message} {fp : Stream Cell} {k : ℕ} : sd.pc = .dumpWrite → sd.msg = some m → sd.fp = some fp →
      SStep c quit sd queue fs (.fwrite (some k))
        { sd with pc := .dumpDel, fp := some (fp.fwrite (m.bytes.take k)) } queue fs
  | del : sd.pc = .dumpDel → SStep c quit sd queue fs .tau { sd with pc := .dumpPop, msg := none } queue fs
  | dumpPop {m : Message} {q : List Message} : sd.pc = .dumpPop → queue = m :: q →
      SStep c quit sd queue fs (.pop true) { sd with pc := .dump, msg := some m } q fs
  | dumpEnd : sd.pc = .dumpPop → SStep c quit sd queue fs (.pop false) { sd with pc := .returned } queue fs
  | reach {k : ℕ} {fp : Stream Cell} : sd.fp = some fp →
      SStep c quit sd queue fs (.flush k) { sd with fp := some (fp.flush fs k).2 } queue (fp.flush fs k).1

theorem sstep_cases {a : SAct} (h : sd.step c quit queue fs a = some (sd', queue', fs')) :
    SStep c quit sd queue fs a sd' queue' fs' := by
  unfold Snd.step at h
  split at h
  case h_1 hpc =>
    split at h
    · cases h
    · cases h
      exact .pop hpc rfl
  case h_2 hpc =>
    cases h
    exact .popNone hpc
  case h_3 hpc =>
    cases h
    exact .checkQuit hpc
  case h_4 hpc =>
    cases h
    exact .log hpc
  case h_5 res hpc =>
    obtain ⟨m, hm, h⟩ := Option.bind_eq_some_iff.1 h
    split at h
    · rename_i ht
      cases h
      exact .buff hpc hm ht
    · cases h
  case h_6 hpc =>
    obtain ⟨m, hm, h⟩ := Option.bind_eq_some_iff.1 h
    split at h
    · cases h
    · rename_i ht
      cases h
      exact .list hpc hm ht
  case h_7 res hpc =>
    obtain ⟨m, hm, h⟩ := Option.bind_eq_some_iff.1 h
    split at h
    · rename_i hmore
      cases h
      exact .file hpc hm hmore
    · cases h
  case h_8 hpc =>
    obtain ⟨m, hm, h⟩ := Option.bind_eq_some_iff.1 h
    split at h
    · cases h
    · rename_i hmore
      cases h
      exact .filesEnd hpc hm (by simpa using hmore)
  case h_9 hpc =>
    cases h
    exact .check hpc
  case h_10 ok hpc =>
    obtain ⟨m, hm, h⟩ := Option.bind_eq_some_iff.1 h
    split at h
    · rename_i hmore
      cases h
      exact .rename hpc hm hmore.1 hmore.2
    · cases h
  case h_11 hpc =>
    obtain ⟨m, hm, h⟩ := Option.bind_eq_some_iff.1 h
    split at h
    · rename_i ht
      split at h
      · cases h
      · rename_i hmore
        cases h
        exact .renameEnd hpc hm ht (by simpa using hmore)
    · rename_i ht
      split at h
      · rename_i hfp
        cases h
        exact .opened hpc hm ht hfp
      · cases h
  case h_12 now ok hpc =>
    obtain ⟨m, hm, h⟩ := Option.bind_eq_some_iff.1 h
    split at h
    · cases h
    · rename_i hno
      rw [not_or, Option.not_isSome_iff_eq_none] at hno
      cases ok with
      | true =>
        cases h
        exact .fopen hpc hm hno.1 hno.2
      | false =>
        cases h
        exact .fopenFail hpc hm hno.1
  case h_13 res hpc =>
    simp only [Option.bind_eq_bind, Option.bind_eq_some_iff] at h
    obtain ⟨m, hm, fp, hfp, h⟩ := h
    cases res with
    | none =>
      cases h
      exact .fwrite hpc hm hfp
    | some k =>
      cases h
      exact .fwriteFail hpc hm hfp
  case h_14 hpc =>
    cases h
    exact .del hpc
  case h_15 hpc =>
    split at h
    · cases h
    · cases h
      exact .dumpPop hpc rfl
  case h_16 hpc =>
    cases h
    exact .dumpEnd hpc
  case h_17 k =>
    simp only [Option.bind_eq_bind, Option.bind_eq_some_iff] at h
    obtain ⟨fp, hfp, h⟩ := h
    cases h
    exact .reach hfp
  case h_18 => cases h

/-- A dump file is opened only once. -/
theorem fopen_fp {now : ℤ} {ok : Bool} (h : sd.step c quit queue fs (.fopen now ok) = some (sd', queue', fs')) :
    sd.fp = none := by
  cases sstep_cases h with
  | fopen _ _ _ hfp => exact hfp
  | fopenFail hpc hm ht => simpa [Snd.step, hpc, hm, ht] using h

/-- The points at which the sender holds a message. -/
def SPc.holds : SPc → Bool
  | .pop | .checkQuit | .dumpPop | .returned => false
  | _ => true

/-- **The message that the sender holds.** -/
structure SndInv (sd : Snd) : Prop where
  held : sd.pc.holds = true → sd.msg.isSome
  free : sd.pc = .pop ∨ sd.pc = .checkQuit ∨ sd.pc = .dumpPop → sd.msg = none
  files : sd.pc = .files → ∀ m, sd.msg = some m → m.type ≠ 0
  data : sd.pc = .dumpWrite → ∀ m, sd.msg = some m → m.type ≠ 1

theorem sndInv_init : SndInv Snd.init := by
  constructor <;> simp [Snd.init, SPc.holds]

@[simp] theorem forward_type (m : Message) : (messgeFilenameForward m).type = m.type := by
  unfold messgeFilenameForward
  simp only
  split
  · split <;> rfl
  · rfl

@[simp] theorem cutName_type (m : Message) : (cutName m).type = m.type := by
  unfold cutName
  split <;> rfl

/-- The call of `rename` moves the message forward, and notes the file. -/
theorem stepRename_eq (c : Configure) (fs : Disk) (sd : Snd) (m : Message) (ok : Bool) :
    (sd.stepRename c fs m ok).1 =
      { sd with msg := some (messgeFilenameForward (cutName m)), renamed := (sd.stepRename c fs m ok).1.renamed } := by
  unfold Snd.stepRename
  simp only
  split <;> rfl

theorem stepRename_pc (c : Configure) (fs : Disk) (sd : Snd) (m : Message) (ok : Bool) :
    (sd.stepRename c fs m ok).1.pc = sd.pc ∧
      (sd.stepRename c fs m ok).1.msg = some (messgeFilenameForward (cutName m)) := by
  rw [stepRename_eq]
  exact ⟨rfl, rfl⟩

theorem SStep.inv {a : SAct} (h : SStep c quit sd queue fs a sd' queue' fs') (hi : SndInv sd) : SndInv sd' := by
  cases h with
  | pop hpc _ => exact ⟨fun _ => rfl, by simp, by simp, by simp⟩
  | popNone hpc => exact ⟨by simp [SPc.holds], fun _ => hi.free (Or.inl hpc), by simp, by simp⟩
  | checkQuit hpc =>
    have hnone := hi.free (Or.inr (Or.inl hpc))
    cases quit <;> exact ⟨by simp [SPc.holds], fun _ => hnone, by simp, by simp⟩
  | log hpc => exact ⟨fun _ => hi.held (by rw [hpc]; rfl), by simp, by simp, by simp⟩
  | @buff m res hpc hm ht =>
    cases res with
    | success | errSys | errSrv => exact ⟨by simp [Snd.stepBuff, SPc.holds], fun _ => rfl, by simp [Snd.stepBuff], by simp [Snd.stepBuff]⟩
    | errNet => exact ⟨fun _ => hi.held (by rw [hpc]; rfl), by simp [Snd.stepBuff], by simp [Snd.stepBuff], by simp [Snd.stepBuff]⟩
  | @list m hpc hm ht =>
    refine ⟨fun _ => hi.held (by rw [hpc]; rfl), by simp, fun _ m' hm' => ?_, by simp⟩
    obtain rfl := Option.some.inj (hm.symm.trans hm')
    exact ht
  | @file m res hpc hm _ =>
    have ht := hi.files hpc m hm
    cases res with
    | success | errSys | errSrv =>
      refine ⟨fun _ => rfl, by simp [Snd.stepFile, hpc], fun _ m' hm' => ?_, by simp [Snd.stepFile, hpc]⟩
      obtain rfl := Option.some.inj hm'
      rw [forward_type]
      exact ht
    | errNet => exact ⟨fun _ => hi.held (by rw [hpc]; rfl), by simp [Snd.stepFile], by simp [Snd.stepFile], by simp [Snd.stepFile]⟩
  | filesEnd hpc _ _ => exact ⟨fun _ => hi.held (by rw [hpc]; rfl), by simp, by simp, by simp⟩
  | check hpc =>
    have hsome := hi.held (by rw [hpc]; rfl)
    cases quit <;> exact ⟨fun _ => hsome, by simp, by simp, by simp⟩
  | @rename m ok hpc hm _ _ =>
    obtain ⟨h1, h2⟩ := stepRename_pc c fs sd m ok
    refine ⟨fun _ => by rw [h2]; rfl, ?_, ?_, ?_⟩ <;> simp [h1, hpc]
  | renameEnd hpc _ _ _ => exact ⟨fun _ => hi.held (by rw [hpc]; rfl), by simp, by simp, by simp⟩
  | @opened m hpc hm ht _ | @fopen m now hpc hm ht _ =>
    refine ⟨fun _ => hi.held (by rw [hpc]; rfl), by simp, by simp, fun _ m' hm' => ?_⟩
    obtain rfl := Option.some.inj (hm.symm.trans hm')
    exact ht
  | fopenFail hpc _ _ => exact ⟨by simp [SPc.holds], by simp, by simp, by simp⟩
  | fwrite hpc _ _ | fwriteFail hpc _ _ => exact ⟨fun _ => hi.held (by rw [hpc]; rfl), by simp, by simp, by simp⟩
  | del hpc => exact ⟨by simp [SPc.holds], fun _ => rfl, by simp, by simp⟩
  | dumpPop hpc _ => exact ⟨fun _ => rfl, by simp, by simp, by simp⟩
  | dumpEnd hpc => exact ⟨by simp [SPc.holds], by simp, by simp, by simp⟩
  | reach _ => exact ⟨hi.held, hi.free, hi.files, hi.data⟩

/-! ## The process -/

/-- What a step of the receiver pushes. -/
theorem RStep.pushed {r r' : Rcv} {a : RAct} (h : RStep c quit r fs a r' fs') :
    r'.pushed = r.pushed ∨ ∃ m, r'.pushed = r.pushed ++ [m] ∧ a = .push true ∧
      ((r.pc = .lastPush ∧ r.msg = some m) ∨ (r.pc = .namesPush ∧ r.info.namesMsg = some m) ∨
        (r.pc = .dataPush ∧ r.msg = some m)) := by
  cases h with
  | @lastPush m ok hpc hm =>
    cases ok with
    | false => exact Or.inl rfl
    | true => exact Or.inr ⟨m, rfl, rfl, Or.inl ⟨hpc, hm⟩⟩
  | @namesPush names hpc hn => exact Or.inr ⟨names, rfl, rfl, Or.inr (Or.inl ⟨hpc, hn⟩)⟩
  | @dataPush m hpc hm => exact Or.inr ⟨m, rfl, rfl, Or.inr (Or.inr ⟨hpc, hm⟩)⟩
  | @flush m _ _ =>
    rw [stepFlush_eq]
    exact Or.inl rfl
  | _ => exact Or.inl rfl

/-- The two other threads leave the workers, the queue and the files as they are. -/
structure SameWork (s s' : Sys) : Prop where
  rcv : s'.rcv = s.rcv
  snd : s'.snd = s.snd
  queue : s'.queue = s.queue
  fs : s'.fs = s.fs
  owner : s'.owner = s.owner
  freed : s'.freed = s.freed

theorem SameWork.eq {s s' : Sys} (h : SameWork s s') :
    s' = { s with quit := s'.quit, main := s'.main, starter := s'.starter, rtid := s'.rtid, stid := s'.stid } := by
  obtain ⟨h1, h2, h3, h4, h5, h6⟩ := h
  rw [← h1, ← h2, ← h3, ← h4, ← h5, ← h6]

/-- Everything a step of `main` can do. -/
inductive MainStep (s : Sys) : Sys → Prop
  | signal : s.main = .wait → MainStep s { s with main := .notify }
  | notify : s.main = .notify → MainStep s { s with main := .readRtid, quit := s.quit + 1 }
  | receiver : s.main = .readRtid → s.rtid = true → MainStep s { s with main := .joinReceiver }
  | noReceiver : s.main = .readRtid → s.rtid = false → MainStep s { s with main := .readStid }
  | joinReceiver : s.main = .joinReceiver → s.rcv.pc = .returned → MainStep s { s with main := .readStid }
  | sender : s.main = .readStid → s.stid = true → MainStep s { s with main := .joinSender }
  | noSender : s.main = .readStid → s.stid = false → MainStep s { s with main := .done }
  | joinSender : s.main = .joinSender → s.snd.pc = .returned → MainStep s { s with main := .done }

theorem main_cases {s s' : Sys} (h : s.stepMain = some s') : MainStep s s' := by
  unfold Sys.stepMain at h
  split at h
  case h_1 hm =>
    cases h
    exact .signal hm
  case h_2 hm =>
    cases h
    exact .notify hm
  case h_3 hm =>
    cases h
    by_cases hr : s.rtid = true
    · rw [if_pos hr]
      exact .receiver hm hr
    · rw [if_neg hr]
      exact .noReceiver hm (by simpa using hr)
  case h_4 hm =>
    split at h
    · rename_i hret
      cases h
      exact .joinReceiver hm hret
    · cases h
  case h_5 hm =>
    cases h
    by_cases hr : s.stid = true
    · rw [if_pos hr]
      exact .sender hm hr
    · rw [if_neg hr]
      exact .noSender hm (by simpa using hr)
  case h_6 hm =>
    split at h
    · rename_i hret
      cases h
      exact .joinSender hm hret
    · cases h
  case h_7 => cases h

/-- Everything a step of `start_workers` can do. -/
inductive StarterStep (s : Sys) : Sys → Prop
  | login : s.starter = .login → StarterStep s { s with starter := .createReceiver }
  | receiver : s.starter = .createReceiver → StarterStep s { s with starter := .createSender, rtid := true }
  | sender : s.starter = .createSender → StarterStep s { s with starter := .done, stid := true }

theorem starter_cases {s s' : Sys} (h : s.stepStarter = some s') : StarterStep s s' := by
  unfold Sys.stepStarter at h
  split at h
  case h_1 hs =>
    cases h
    exact .login hs
  case h_2 hs =>
    cases h
    exact .receiver hs
  case h_3 hs =>
    cases h
    exact .sender hs
  case h_4 => cases h

theorem MainStep.same {s s' : Sys} (h : MainStep s s') : SameWork s s' := by
  cases h <;> constructor <;> rfl

theorem StarterStep.same {s s' : Sys} (h : StarterStep s s') : SameWork s s' := by
  cases h <;> constructor <;> rfl

/-- **Everything a step of the process can do.** -/
inductive SysStep (c : Configure) (s : Sys) : SysAct → Sys → Prop
  | rcv {a : RAct} {r : Rcv} {fs : Disk} {pushed : List Message} : s.rtid = true →
      RStep c (checkWorkersQuit s.quit) s.rcv s.fs a r fs → r.pushed = s.rcv.pushed ++ pushed →
      SysStep c s (.rcv a)
        { s with
          rcv := r, fs := fs, queue := s.queue ++ pushed, freed := s.freed ++ s.rcv.frees a
          owner := give (give (give s.owner (List.range' s.rcv.fresh (r.fresh - s.rcv.fresh)) .receiver)
            (pushed.map Message.addr) .queue) (s.rcv.frees a) .released }
  | snd {a : SAct} {sd : Snd} {queue popped : List Message} {fs : Disk} : s.stid = true →
      SStep c (checkWorkersQuit s.quit) s.snd s.queue s.fs a sd queue fs → s.queue = popped ++ queue →
      SysStep c s (.snd a)
        { s with
          snd := sd, queue := queue, fs := fs, freed := s.freed ++ s.snd.frees a
          owner := give (give s.owner (popped.map Message.addr) .sender) (s.snd.frees a) .released }
  | main {s' : Sys} : MainStep s s' → SysStep c s .main s'
  | starter {s' : Sys} : StarterStep s s' → SysStep c s .starter s'

/-- The sender takes messages from the front of the queue. -/
theorem SStep.popped {a : SAct} (h : SStep c quit sd queue fs a sd' queue' fs') :
    queue = queue.take (queue.length - queue'.length) ++ queue' := by
  cases h with
  | pop _ hq => rw [hq]; simp
  | dumpPop _ hq => rw [hq]; simp
  | _ => simp

theorem sys_cases {s s' : Sys} {a : SysAct} (h : s.step c a = some s') : SysStep c s a s' := by
  cases a with
  | rcv a =>
    unfold Sys.step Sys.stepRcv at h
    simp only [Bool.not_eq_eq_eq_not, Bool.not_true, Option.bind_eq_bind] at h
    split at h
    · cases h
    · rename_i hr
      obtain ⟨⟨r, fs⟩, hstep, h⟩ := Option.bind_eq_some_iff.1 h
      have hrs := rstep_cases hstep
      simp only at h
      split at h
      · cases h
      · obtain rfl := Option.some.inj h
        refine .rcv (by simpa using hr) hrs ?_
        rcases hrs.pushed with hp | ⟨m, hp, -⟩
        · simp [hp]
        · simp [hp]
  | snd a =>
    unfold Sys.step Sys.stepSnd at h
    simp only [Bool.not_eq_eq_eq_not, Bool.not_true, Option.bind_eq_bind] at h
    split at h
    · cases h
    · rename_i hr
      obtain ⟨⟨sd, queue, fs⟩, hstep, h⟩ := Option.bind_eq_some_iff.1 h
      have hss := sstep_cases hstep
      obtain rfl := Option.some.inj h
      exact .snd (by simpa using hr) hss hss.popped
  | main => exact .main (main_cases h)
  | starter => exact .starter (starter_cases h)

theorem sys_sndInv {C : Sys → SysAct → Prop} {s : Sys} (h : Reach (Sys.step c) C (Sys.init c fs) s) : SndInv s.snd := by
  refine h.inv (I := fun s => SndInv s.snd) sndInv_init ?_
  intro s b s' hi _ hs
  cases sys_cases hs with
  | rcv _ _ _ => exact hi
  | snd _ hsnd _ => exact hsnd.inv hi
  | main hm => exact hm.same.snd ▸ hi
  | starter hm => exact hm.same.snd ▸ hi

end HookKernel
