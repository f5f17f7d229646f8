import HookKernel.Lib.InTurn
import HookKernel.Proof.Release

/-!
# The uploads of a name list

While the quit flag is 0, the sender stays with a list of names. The buffer is its
cursor: `messge_filename_forward` moves the names that are left to the front, and a
network error leaves the buffer alone.

* `SendInv`: the buffer holds exactly the names that are still to be sent.
* `sent_in_turn`: in every run the names are passed to `send_log_file` in turn. This
  needs nothing of the files: a name whose file is missing is never passed, and none
  behind it.
-/

namespace HookKernel

open Lib

variable {c : Configure} {ns : List Name} {s s' : Snd × List (Name × SndRes)}

/-- What a step of the sender finds: the queue and the files as the other threads left
them, and what its call does. -/
structure SndIn where
  queue : List Message
  fs : Disk
  act : SAct

/-- A step of the sender while the quit flag is 0. -/
def senderStep (c : Configure) (sd : Snd) (i : SndIn) : Option Snd :=
  (sd.step c false i.queue i.fs i.act).map Prod.fst

/-- The calls of `send_log_file`: the name passed and what it returned. -/
def noteSend (sd : Snd) (i : SndIn) (_ : Snd) (log : List (Name × SndRes)) : List (Name × SndRes) :=
  match sd.pc, sd.msg, i.act with
  | .files, some m, .send res => log ++ [(m.filename, res)]
  | _, _, _ => log

/-- **The sender at work on the list `ns`**: `rest` is what its buffer still holds. -/
structure SendInv (ns : List Name) (s : Snd × List (Name × SndRes)) (m : Message) (rest : List Name) : Prop where
  pc : s.1.pc = .log ∨ s.1.pc = .body ∨ s.1.pc = .files ∨ s.1.pc = .check
  fp : s.1.fp = none
  msg : s.1.msg = some m
  lists : m.Lists rest
  past : rest = [] → m.filename = []
  turns : Turns (· = .errNet) ns s.2 rest

theorem noteSend_tau (sd sd' : Snd) (queue : List Message) (fs : Disk) (log : List (Name × SndRes)) :
    noteSend sd ⟨queue, fs, .tau⟩ sd' log = log := by
  unfold noteSend
  split
  · rename_i hact
    cases hact
  · rfl

theorem noteSend_send {sd : Snd} {m : Message} (hpc : sd.pc = .files) (hm : sd.msg = some m) (sd' : Snd)
    (queue : List Message) (fs : Disk) (res : SndRes) (log : List (Name × SndRes)) :
    noteSend sd ⟨queue, fs, .send res⟩ sd' log = log ++ [(m.filename, res)] := by
  simp only [noteSend, hpc, hm]

/-- A step that sends nothing and keeps the message. -/
theorem SendInv.move {m : Message} {rest : List Name} {sd' : Snd} (h : SendInv ns s m rest)
    (hpc : sd'.pc = .log ∨ sd'.pc = .body ∨ sd'.pc = .files ∨ sd'.pc = .check) (hfp : sd'.fp = s.1.fp)
    (hmsg : sd'.msg = s.1.msg) : SendInv ns (sd', s.2) m rest :=
  ⟨hpc, hfp.trans h.fp, hmsg.trans h.msg, h.lists, h.past, h.turns⟩

/-- The list after `messge_filename_forward`. -/
theorem SendInv.forward {m : Message} {n : Name} {rest : List Name} (h : SendInv ns s m (n :: rest)) :
    (messgeFilenameForward m).Lists rest ∧ (rest = [] → (messgeFilenameForward m).filename = []) := by
  cases rest with
  | nil =>
    obtain ⟨h1, h2⟩ := h.lists.forward_single
    exact ⟨h1, fun _ => h2⟩
  | cons n' rest => exact ⟨h.lists.forward (by simp), by simp⟩

/-- **One call of `send_log_file`.** -/
theorem SendInv.send {m : Message} {rest : List Name} {fs : Disk} (h : SendInv ns s m rest) (hpc : s.1.pc = .files)
    (hne : m.filename ≠ []) (res : SndRes) :
    ∃ m' rest', SendInv ns (s.1.stepFile fs m res, s.2 ++ [(m.filename, res)]) m' rest' := by
  cases rest with
  | nil => exact absurd (h.past rfl) hne
  | cons n rest =>
    have hname : m.filename = n := h.lists.filename
    obtain ⟨hlists, hover⟩ := h.forward
    have hpc' : s.1.pc = .log ∨ s.1.pc = .body ∨ s.1.pc = .files ∨ s.1.pc = .check := Or.inr (Or.inr (Or.inl hpc))
    rw [hname]
    cases res with
    | success | errSys | errSrv =>
      exact ⟨messgeFilenameForward m, rest, hpc', h.fp, rfl, hlists, hover, h.turns.next (by simp)⟩
    | errNet =>
      -- the buffer is as it was, and the same name comes again
      exact ⟨m, n :: rest, Or.inr (Or.inr (Or.inr rfl)), h.fp, h.msg, h.lists, h.past, h.turns.retry rfl⟩

/-- **One step of the sender.** -/
theorem SendInv.step {m : Message} {rest : List Name} {i : SndIn} (h : SendInv ns s m rest)
    (hs : watch (senderStep c) noteSend s i = some s') : ∃ m' rest', SendInv ns s' m' rest' := by
  obtain ⟨sd, log⟩ := s
  obtain ⟨queue, fs, a⟩ := i
  obtain ⟨sd', hsender, rfl⟩ := Option.map_eq_some_iff.1 hs
  obtain ⟨⟨sd', queue', fs'⟩, hstep, rfl⟩ := Option.map_eq_some_iff.1 hsender
  have hpc : sd.pc = .log ∨ sd.pc = .body ∨ sd.pc = .files ∨ sd.pc = .check := h.pc
  have hmsg : sd.msg = some m := h.msg
  cases sstep_cases hstep with
  | log h1 =>
    rw [noteSend_tau]
    exact ⟨m, rest, h.move (Or.inr (Or.inl rfl)) rfl rfl⟩
  | list h1 _ _ =>
    rw [noteSend_tau]
    exact ⟨m, rest, h.move (Or.inr (Or.inr (Or.inl rfl))) rfl rfl⟩
  | check h1 =>
    rw [noteSend_tau]
    exact ⟨m, rest, h.move (Or.inr (Or.inl rfl)) rfl rfl⟩
  | @file m' res h1 hm' hmore =>
    obtain rfl := Option.some.inj (hmsg.symm.trans hm')
    have hne : m.filename ≠ [] := by
      rintro h0
      simp [Snd.more, h0] at hmore
    rw [noteSend_send h1 hmsg]
    exact h.send h1 hne res
  | filesEnd h1 _ _ =>
    rw [noteSend_tau]
    exact ⟨m, rest, h.move (Or.inr (Or.inr (Or.inr rfl))) rfl rfl⟩
  | buff _ hm' ht =>
    obtain rfl := Option.some.inj (hmsg.symm.trans hm')
    rw [h.lists.type_eq] at ht
    cases ht
  | reach hfp =>
    have hnone : sd.fp = none := h.fp
    rw [hnone] at hfp
    cases hfp
  | pop h1 _ | popNone h1 | checkQuit h1 | rename h1 _ _ _ | renameEnd h1 _ _ _ | opened h1 _ _ _ | fopen h1 _ _ _
  | fopenFail h1 _ _ | fwrite h1 _ _ | fwriteFail h1 _ _ | del h1 | dumpPop h1 _ | dumpEnd h1 =>
    rw [h1] at hpc
    rcases hpc with h | h | h | h <;> cases h

/-- **The files of a list are sent in turn.** From the moment the sender has taken a list of
names, in every run with the quit flag 0, for any results and whatever the other threads do to
the queue and the files: no name is skipped, none is sent again after a result other than a
network error, and nothing is sent after the last one. -/
theorem sent_in_turn (c : Configure) (m : Message) (ns : List Name) (sd : Snd) (hm : m.Lists ns) (hne : ns ≠ [])
    (hpc : sd.pc = .log) (hmsg : sd.msg = some m) (hfp : sd.fp = none) (s : Snd × List (Name × SndRes))
    (h : Reach (watch (senderStep c) noteSend) Any (sd, []) s) : InTurn (· = .errNet) ns s.2 := by
  have hinv : ∃ m' rest, SendInv ns s m' rest := by
    refine h.inv (I := fun s => ∃ m' rest, SendInv ns s m' rest) ?_ ?_
    · exact ⟨m, ns, Or.inl hpc, hfp, hmsg, hm, fun h0 => absurd h0 hne, .start⟩
    · rintro s i s' ⟨m', rest, hi⟩ - hs
      exact hi.step hs
  obtain ⟨_, _, hi⟩ := hinv
  exact hi.turns.inTurn

/-- A list of two names. -/
def twoNames : Message := ⟨0, 1, 4, 4, [.text 65, .text 0, .text 66, .text 0]⟩

/-- Their files. -/
def twoNamesFs : Disk := (((Fs.empty Name Cell).fopen [65]).1.fopen [66]).1

/-- The network fails once, the first file is sent, the second one is given up, and the sender goes
round once more. -/
def resendDemo : List SndIn :=
  [.tau, .tau, .send .errNet, .tau, .tau, .send .success, .send .errSrv, .tau, .tau, .tau].map fun a =>
    ⟨[], twoNamesFs, a⟩

theorem twoNames_lists : twoNames.Lists [[65], [66]] := by
  refine ⟨rfl, by decide, rfl, rfl, ?_⟩
  intro n hn
  obtain ⟨x, hx, rfl⟩ := List.mem_map.1 hn
  refine isName_map_text ?_
  rcases List.mem_pair.1 hx with rfl | rfl
  · exact ⟨List.cons_ne_nil _ _, by simp⟩
  · exact ⟨List.cons_ne_nil _ _, by simp⟩

theorem resendDemo_runs :
    (run (watch (senderStep (demoConf 4097 1)) noteSend) (sndAt .log (some twoNames) [] [], []) resendDemo).map
      (fun s => s.2) = some [([65], .errNet), ([65], .success), ([66], .errSrv)] := by
  decide

theorem sent_in_turn_demo :
    ∃ s, Reach (watch (senderStep (demoConf 4097 1)) noteSend) Any (sndAt .log (some twoNames) [] [], []) s ∧
      s.2 = [([65], .errNet), ([65], .success), ([66], .errSrv)] ∧ InTurn (· = .errNet) [[65], [66]] s.2 := by
  obtain ⟨s, hrun, hlog⟩ := Option.map_eq_some_iff.1 resendDemo_runs
  have hreach := reach_of_run hrun
  exact ⟨s, hreach, hlog, sent_in_turn (demoConf 4097 1) twoNames [[65], [66]] (sndAt .log (some twoNames) [] [])
    twoNames_lists (by decide) rfl rfl rfl s hreach⟩

end HookKernel
