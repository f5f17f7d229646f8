import HookKernel.Proof.Account

/-!
# What is on disk when the process ends

`main` ends in `exit`, which flushes the open streams, or replaces the process with
`execlp`, which does not. Neither the receiver nor the dump closes its stream before
the thread returns.

* `LinkInv`: everything written will be in its file once the streams are flushed, and
  the file has a name, as long as no rename replaces another file.
* `written_survives`: what was written is on disk at the end, if no rename replaced
  another file, and for a reload the streams were empty.
* `reload_loses`: a run in which a reload loses what was written.
-/

namespace HookKernel

open Lib

variable {c : Configure} {quit : Bool} {fs fs' : Disk} {s s' : Sys}

/-- The byte is in a file that has a name. -/
def OnDisk (fs : Disk) (x : Cell) : Prop := ∃ i, Linked fs i ∧ x ∈ fs.node i

/-- **What was written is on disk**: every byte of a message that was stored in a data file or
written to the dump file. -/
structure Durable (s : Sys) (reload : Bool) : Prop where
  filed : ∀ p ∈ s.rcv.filed, ∀ x ∈ p.2, OnDisk (s.leave reload) x
  dumped : ∀ x ∈ s.snd.dumped, OnDisk (s.leave reload) x

/-- A rename of the dump does not replace another file. -/
def RenamesFree (c : Configure) (s : Sys) (b : SysAct) : Prop :=
  b = .snd (.rename true) → ∀ m ∈ s.snd.msg, s.fs.dir (renameTarget c (cutName m).filename) = none ∨
    s.fs.dir (renameTarget c (cutName m).filename) = s.fs.dir (cutName m).filename

instance (c : Configure) (s : Sys) (b : SysAct) : Decidable (RenamesFree c s b) :=
  inferInstanceAs (Decidable (_ → ∀ m ∈ s.snd.msg, s.fs.dir (renameTarget c (cutName m).filename) = none ∨
    s.fs.dir (renameTarget c (cutName m).filename) = s.fs.dir (cutName m).filename))

/-- The streams of the receiver and of the dump hold nothing back. -/
def Unbuffered (s : Sys) : Prop :=
  (∀ fp ∈ s.rcv.info.currFp, fp.buf = []) ∧ ∀ fp ∈ s.snd.fp, fp.buf = []

/-! ## Files keep a name -/

/-- **A step of the sender leaves every file a name**, if it replaces none. -/
theorem SStep.linked {sd sd' : Snd} {queue queue' : List Message} {b : SAct} (hs : SStep c quit sd queue fs b sd' queue' fs')
    (hc : b = .rename true → ∀ m ∈ sd.msg, fs.dir (renameTarget c (cutName m).filename) = none ∨
      fs.dir (renameTarget c (cutName m).filename) = fs.dir (cutName m).filename)
    {i : ℕ} (hl : Linked fs i) : Linked fs' i := by
  obtain ⟨n, hn⟩ := hl
  cases hs with
  | @rename m ok _ hm _ _ =>
    rw [stepRename_fs]
    split
    swap
    · exact ⟨n, hn⟩
    rename_i hok
    obtain ⟨rfl, hex⟩ : ok = true ∧ fs.exist (cutName m).filename = true := by simpa using hok
    obtain ⟨j, hj⟩ := Option.isSome_iff_exists.1 hex
    rcases hc rfl m hm with hfree | hsame
    · -- the file that is renamed gets its new name, every other file keeps its own
      obtain ⟨h1, h2⟩ := rename_target hj hfree
      rcases eq_or_ne n (cutName m).filename with rfl | hne
      · rw [hn] at hj
        rw [Option.some.inj hj]
        exact ⟨_, h1⟩
      · refine ⟨n, ?_⟩
        rw [h2 n hne ?_]
        · exact hn
        · rintro rfl
          rw [hn] at hfree
          cases hfree
    · -- both names lead to one file already
      refine ⟨n, ?_⟩
      unfold Fs.rename
      simp only
      rw [if_pos hsame.symm]
      exact hn
  | fopen _ _ _ _ => exact ⟨n, fopen_dir_of_some hn⟩
  | _ => exact ⟨n, hn⟩

/-- **Everything written will be in a file that has a name**, once the streams are flushed. -/
structure LinkInv (s : Sys) : Prop where
  rcv : FiledInv s.rcv s.fs
  snd : s.snd.StreamOK s.fs
  curr : ∀ fp, s.rcv.info.currFp = some fp → Linked s.fs fp.ino
  filed : ∀ p ∈ s.rcv.filed, Linked s.fs p.1
  dump : ∀ fp, s.snd.fp = some fp → Linked s.fs fp.ino
  dumped : ∀ x ∈ s.snd.dumped, ∃ fp, s.snd.fp = some fp ∧ x ∈ settled s.fs (some fp) fp.ino

theorem linkInv_init (c : Configure) (fs : Disk) : LinkInv (Sys.init c fs) := by
  refine ⟨filedInv_init c fs, ?_, ?_, ?_, ?_, ?_⟩ <;> simp [Snd.StreamOK, Sys.init, Rcv.init, datafileInit, Snd.init]

theorem SameWork.linkInv (h : SameWork s s') (hi : LinkInv s) : LinkInv s' := by
  obtain ⟨h1, h2, h3, h4, h5, h6⟩ := hi
  refine ⟨?_, ?_, ?_, ?_, ?_, ?_⟩ <;> simp only [h.rcv, h.snd, h.fs] <;> assumption

theorem LinkInv.rcvStep {a : RAct} (h : LinkInv s) (hm : RcvMove c s s' a) : LinkInv s' := by
  have hf := hm.step.files h.rcv.stream
  have hcurr : ∀ fp, s'.rcv.info.currFp = some fp → Linked s'.fs fp.ino := by
    intro fp hfp
    -- a file that was opened has just got its name
    rcases hf.stream fp hfp with h1 | ⟨fp₀, h1, h2, -⟩
    · exact ⟨_, h1⟩
    · rw [h2]
      exact hf.linked (h.curr fp₀ h1)
  refine ⟨h.rcv.step hm.step, ?_, hcurr, fun p hp => ?_, ?_, ?_⟩
  · rw [hm.snd]
    exact fun fp hfp => Nat.lt_of_lt_of_le (h.snd fp hfp) hf.grows.next
  · rcases hm.step.filed_cases hp with hp | ⟨-, fp, hfp, hi⟩
    · exact hf.linked (h.filed p hp)
    · rw [hi]
      exact hcurr fp hfp
  · rw [hm.snd]
    exact fun fp hfp => hf.linked (h.dump fp hfp)
  · rw [hm.snd]
    intro x hx
    obtain ⟨fp, hfp, hin⟩ := h.dumped x hx
    exact ⟨fp, hfp, (hf.grows.settled _ _).subset hin⟩

theorem LinkInv.sndStep {b : SAct} (h : LinkInv s) (hm : SndMove c s s' b) (hc : RenamesFree c s (.snd b)) : LinkInv s' := by
  have hlink : ∀ i, Linked s.fs i → Linked s'.fs i := fun i hi =>
    hm.step.linked (fun hb => hc (by rw [hb])) hi
  refine ⟨?_, hm.step.streamOK h.snd, ?_, ?_, fun fp hfp => ?_, hm.step.dumped_settled h.snd h.dumped⟩
  · rw [hm.rcv]
    exact h.rcv.grows hm.step.grows
  · rw [hm.rcv]
    exact fun fp hfp => hlink _ (h.curr fp hfp)
  · rw [hm.rcv]
    exact fun p hp => hlink _ (h.filed p hp)
  · rcases hm.step.fp_cases hfp with ⟨fp₀, h1, h2⟩ | h1
    · rw [h2]
      exact hlink _ (h.dump fp₀ h1)
    · exact h1

theorem LinkInv.step {b : SysAct} (h : LinkInv s) (hc : RenamesFree c s b) (hs : s.step c b = some s') : LinkInv s' := by
  rcases sys_moves hs with ⟨a, rfl, hm⟩ | ⟨d, rfl, hm⟩ | hm
  · exact h.rcvStep hm
  · exact h.sndStep hm hc
  · exact hm.linkInv h

/-! ## The end -/

theorem leave_linked {reload : Bool} {i : ℕ} (h : Linked s.fs i) : Linked (s.leave reload) i := by
  obtain ⟨n, hn⟩ := h
  refine ⟨n, ?_⟩
  rw [(leave_dir s reload).1]
  exact hn

/-- **What was written survives.** In every run in which no rename of the dump replaces another
file: whenever the process exits, or reloads with both streams empty, every byte of every message
that was stored in a data file or written to the dump file is in a file that has a name. -/
theorem written_survives (c : Configure) (fs : Disk) (s : Sys) (reload : Bool)
    (h : Reach (Sys.step c) (RenamesFree c) (Sys.init c fs) s)
    (hbuf : reload = true → Unbuffered s) : Durable s reload := by
  have hi : LinkInv s := h.inv (I := LinkInv) (linkInv_init c fs) fun _ _ _ hi hc hs => hi.step hc hs
  refine ⟨fun p hp x hx => ⟨p.1, leave_linked (hi.filed p hp), ?_⟩, fun x hx => ?_⟩
  · have hfiled : x ∈ s.rcv.filedOn p.1 := List.mem_flatMap.2 ⟨p, List.mem_filter.2 ⟨hp, by simp⟩, hx⟩
    exact (leave_rcv hi.rcv.stream (fun hr => (hbuf hr).1) p.1).subset ((hi.rcv.filed p.1).subset hfiled)
  · obtain ⟨fp, hfp, hin⟩ := hi.dumped x hx
    refine ⟨fp.ino, leave_linked (hi.dump fp hfp), ?_⟩
    rw [← hfp] at hin
    exact (leave_snd hi.snd (fun hr => (hbuf hr).2) fp.ino).subset hin

instance (s : Sys) : Decidable (Unbuffered s) :=
  inferInstanceAs (Decidable ((∀ fp ∈ s.rcv.info.currFp, fp.buf = []) ∧ ∀ fp ∈ s.snd.fp, fp.buf = []))

/-- A message is stored in a file; `main` gets a signal, the workers return and are joined. `flushes`
lets bytes of the stream reach the file before. -/
def endDemo (flushes : List SysAct) : List SysAct :=
  boot ++ (turn [] [3, 4] [.push false, .write ⟨40, true, none⟩]).map SysAct.rcv ++ flushes ++
    [SysAct.main, .main, .rcv (.select 0), .rcv .tau, .snd (.pop false), .snd .tau, .main, .main, .main, .main]

theorem endDemo_runs : (run (guarded (Sys.step (demoConf 4097 1)) (RenamesFree (demoConf 4097 1)))
    (Sys.init (demoConf 4097 1) (Fs.empty _ _)) (endDemo [.rcv (.flush 2)])).isSome := by
  decide +kernel

/-- The end of the run in which the stream is empty. -/
def flushedEnd : Sys := runTo endDemo_runs

theorem written_survives_demo : flushedEnd.main = .done ∧
    flushedEnd.rcv.filed.map (fun p => p.2.map Cell.val) = [[3, 4]] ∧ Durable flushedEnd true :=
  ⟨by decide +kernel, by decide +kernel, written_survives (demoConf 4097 1) (Fs.empty _ _) flushedEnd true
    (reach_runTo_guarded endDemo_runs) fun _ => by decide +kernel⟩

theorem lossDemo_runs : (run (Sys.step (demoConf 4097 1)) (Sys.init (demoConf 4097 1) (Fs.empty _ _)) (endDemo [])).isSome := by
  decide +kernel

/-- The end of the run in which nothing is flushed. -/
def lossEnd : Sys := runTo lossDemo_runs

/-- **A reload loses what was written**: `main` has joined both workers, and the one file there is
has none of the bytes stored in it. -/
theorem reload_loses :
    ∃ s, Reach (Sys.step (demoConf 4097 1)) Any (Sys.init (demoConf 4097 1) (Fs.empty _ _)) s ∧ s.main = .done ∧
      s.rcv.filed.map (fun p => p.2.map Cell.val) = [[3, 4]] ∧ (s.leave true).next = 1 ∧ (s.leave true).node 0 = [] ∧
      ¬ Durable s true := by
  have hnext : (lossEnd.leave true).next = 1 := by decide +kernel
  have hnode : (lossEnd.leave true).node 0 = [] := by decide +kernel
  have hfiled : ∃ p ∈ lossEnd.rcv.filed, ∃ x ∈ p.2, x.val = 3 := by decide +kernel
  refine ⟨lossEnd, reach_runTo lossDemo_runs, by decide +kernel, by decide +kernel, hnext, hnode,
    fun hd => ?_⟩
  obtain ⟨p, hp, x, hx, -⟩ := hfiled
  obtain ⟨i, ⟨n, hn⟩, hin⟩ := hd.filed p hp x hx
  have hlt := (lossEnd.leave true).dir_lt n i hn
  obtain rfl : i = 0 := by omega
  rw [hnode] at hin
  cases hin

end HookKernel
