import HookKernel.Proof.Lists
import HookKernel.Proof.Threads

/-!
# Where the stored messages are

A message that the receiver stored in a file waits there until a list that names the
file has reached the sender, and the sender has uploaded or renamed the file.

* `RStep.pending`: a name stays on the receiver's list until the list is pushed.
* `SStep.carried`: a message stays with the sender until it is handled.
* `FileAcc`: every stored message has been sent or given up, or its file is still named by
  a list, or has been renamed by the dump. Safe steps keep this (`FileAcc.rcv`,
  `FileAcc.sender`).
* `leave_rcv`, `leave_snd`: what the process leaves in the files when it ends.
-/

namespace HookKernel

open Lib

variable {c : Configure} {quit : Bool} {r r' : Rcv} {fs fs' : Disk} {a : RAct}

/-! ## Steps of the workers -/

/-- A step of the receiver, in the process. -/
structure RcvMove (c : Configure) (s s' : Sys) (a : RAct) : Prop where
  step : RStep c (checkWorkersQuit s.quit) s.rcv s.fs a s'.rcv s'.fs
  snd : s'.snd = s.snd
  queue : ∃ pushed, s'.queue = s.queue ++ pushed ∧ s'.rcv.pushed = s.rcv.pushed ++ pushed

/-- A step of the sender, in the process. -/
structure SndMove (c : Configure) (s s' : Sys) (b : SAct) : Prop where
  step : SStep c (checkWorkersQuit s.quit) s.snd s.queue s.fs b s'.snd s'.queue s'.fs
  rcv : s'.rcv = s.rcv

theorem sys_moves {s s' : Sys} {b : SysAct} (hs : s.step c b = some s') :
    (∃ a, b = .rcv a ∧ RcvMove c s s' a) ∨ (∃ d, b = .snd d ∧ SndMove c s s' d) ∨ SameWork s s' := by
  cases sys_cases hs with
  | @rcv a r fs pushed _ hr hp => exact Or.inl ⟨a, rfl, hr, rfl, pushed, rfl, hp⟩
  | @snd d sd queue popped fs _ hsnd hp => exact Or.inr (Or.inl ⟨d, rfl, hsnd, rfl⟩)
  | main hm => exact Or.inr (Or.inr hm.same)
  | starter hm => exact Or.inr (Or.inr hm.same)

/-- What was queued stays queued, and what was pushed is queued. -/
theorem RcvMove.queued {s s' : Sys} (h : RcvMove c s s' a) :
    (∀ m ∈ s.queue, m ∈ s'.queue) ∧ ∀ m, s'.rcv.pushed = s.rcv.pushed ++ [m] → m ∈ s'.queue := by
  obtain ⟨pushed, hq, hp⟩ := h.queue
  refine ⟨fun m hm => ?_, fun m hm => ?_⟩
  · rw [hq]
    exact List.mem_append_left _ hm
  · rw [hp, List.append_cancel_left_eq] at hm
    rw [hq, hm]
    simp

/-! ## Names that still wait -/

/-- The names on the receiver's list that stay on it. -/
def Rcv.pendingNames (r : Rcv) : List Name := if r.pc = .detach then [] else r.keptNames

theorem pendingNames_of_ne (h1 : r.pc ≠ .detach) (h2 : r.pc ≠ .drop) : r.pendingNames = r.info.listed := by
  unfold Rcv.pendingNames
  rw [if_neg h1, keptNames_of_ne h2]

theorem pendingNames_drop (h : r.pc = .drop) :
    r.pendingNames = if r.info.currFp.isSome then r.info.listed.dropLast else r.info.listed := by
  unfold Rcv.pendingNames Rcv.keptNames
  simp [h]

/-- **A name stays on the receiver's list until the list is pushed.** -/
theorem RStep.pending (h : RStep c quit r fs a r' fs') (hi : RInv r) (hsafe : ∀ e, a = .write e → WriteSafe r e)
    {n : Name} (hn : n ∈ r.pendingNames) :
    n ∈ r'.pendingNames ∨ ∃ m, r'.pushed = r.pushed ++ [m] ∧ m.type = 1 ∧ n ∈ m.filenames := by
  have hd := hi.data
  -- a step between points at which the whole list stays
  have move : r.pc ≠ .detach → r.pc ≠ .drop → r'.pc ≠ .detach → r'.pc ≠ .drop → r'.info = r.info →
      n ∈ r'.pendingNames ∨ ∃ m, r'.pushed = r.pushed ++ [m] ∧ m.type = 1 ∧ n ∈ m.filenames := by
    intro h1 h2 h3 h4 h5
    rw [pendingNames_of_ne h1 h2] at hn
    rw [pendingNames_of_ne h3 h4, h5]
    exact Or.inl hn
  cases h with
  | selectErr _ _ => exact Or.inl hn
  | @select k hpc _ =>
    refine move (by rw [hpc]; decide) (by rw [hpc]; decide) ?_ ?_ rfl <;> by_cases hk : k = 0 <;> simp [hk]
  | keep hpc _ | alloc hpc _ _ =>
    refine move (by rw [hpc]; decide) (by rw [hpc]; decide) ?_ ?_ rfl <;> simp only [Rcv.afterReady] <;> split <;> decide
  | goOn hpc _ | quitPush hpc _ _ _ | quitDone hpc _ _ | lastPush hpc _ | lastLog hpc | namesFail hpc
  | recvErr hpc _ | recv hpc _ _ _ | noRecv hpc | dataPush hpc _ | dataFail hpc | dataLog hpc =>
    exact move (by rw [hpc]; decide) (by rw [hpc]; decide) (by simp) (by simp) rfl
  | @flush m hpc _ =>
    have hcalm := calm_of (stepFlush_calm r m)
    exact move (by rw [hpc]; decide) (by rw [hpc]; decide) hcalm.1 hcalm.2.2.1 (stepFlush_fields r m).1
  | @namesPush names hpc hnames =>
    rw [pendingNames_of_ne (by rw [hpc]; decide) (by rw [hpc]; decide)] at hn
    refine Or.inr ⟨names, rfl, (hd.lists hnames).type_eq, ?_⟩
    have hsub := (listed_sublist hd (by rw [hpc]; decide)).subset hn
    rw [waiting_eq (by rw [hpc]; decide), hnames] at hsub
    exact hsub
  | detach hpc =>
    unfold Rcv.pendingNames at hn
    rw [if_pos hpc] at hn
    cases hn
  | @writeOk m e w hpc _ hw _ =>
    rw [pendingNames_of_ne (by rw [hpc]; decide) (by rw [hpc]; decide)] at hn
    left
    rw [pendingNames_of_ne (by simp) (by simp), (hw.dinv hd).2]
    exact List.mem_append_left _ hn
  | @writeFail m e w hpc hm hw hok =>
    rw [pendingNames_of_ne (by rw [hpc]; decide) (by rw [hpc]; decide)] at hn
    left
    rw [pendingNames_drop rfl]
    exact hw.fail_keeps hd hm hok (hsafe e rfl) hn
  | @drop info' fs' hpc hreset =>
    rw [pendingNames_drop hpc] at hn
    left
    rw [pendingNames_of_ne (by simp) (by simp), (reset_dinv hd hreset).2.2]
    exact hn
  | @reach k fp hfp =>
    left
    unfold Rcv.pendingNames Rcv.keptNames at hn ⊢
    simp only [hfp, Option.isSome_some] at hn ⊢
    exact hn

/-! ## Messages on their way -/

/-- What the sender still has to deal with. -/
def Snd.carries (sd : Snd) : Option Message := if sd.pc = .dumpDel then none else sd.msg

/-- In the queue, or with the sender and not done with. -/
def Sys.Carried (s : Sys) (m : Message) : Prop := m ∈ s.queue ∨ s.snd.carries = some m

theorem Sys.Carried.inPlay {s : Sys} {m : Message} (h : s.Carried m) : s.InPlay m := by
  refine h.imp_right fun hc => ?_
  unfold Snd.carries at hc
  split at hc
  · cases hc
  · exact hc

theorem RcvMove.carried {s s' : Sys} (h : RcvMove c s s' a) {m : Message} (hm : s.Carried m) : s'.Carried m := by
  refine hm.imp (h.queued.1 m) fun hc => ?_
  rw [h.snd]
  exact hc

section Sender

variable {sd sd' : Snd} {queue queue' : List Message} {b : SAct}

/-- What became of a message that is no longer carried as it was. -/
inductive Handled (c : Configure) (sd : Snd) (fs : Disk) (b : SAct) (sd' : Snd) (fs' : Disk) (m : Message) : Prop
  /-- its bytes were sent or given up -/
  | data : m.type = 0 → (∀ x ∈ m.bytes, x ∈ sd'.sent ∨ x ∈ sd'.dropped) → Handled c sd fs b sd' fs' m
  /-- its first file was sent or given up -/
  | file (res : SndRes) : b = .send res → res ≠ .errNet → sd.pc = .files → Snd.more fs m = true → fs' = fs →
      sd'.carries = some (messgeFilenameForward m) →
      (∀ x ∈ fs.content m.filename, x ∈ sd'.sent ∨ x ∈ sd'.dropped) → Handled c sd fs b sd' fs' m
  /-- its first file was renamed -/
  | rename (ok : Bool) : b = .rename ok → m.type = 1 → Snd.more fs m = true →
      sd'.carries = some (messgeFilenameForward (cutName m)) → Handled c sd fs b sd' fs' m
  /-- none of its files is left -/
  | names : b = .tau → sd.pc = .dump → m.type = 1 → Handled c sd fs b sd' fs' m
  /-- its bytes were written to the dump file -/
  | dump (res : Option ℕ) : b = .fwrite res → m.type ≠ 1 → (res = none → ∀ x ∈ m.bytes, x ∈ sd'.dumped) →
      Handled c sd fs b sd' fs' m

/-- **A message is carried on, or handled.** -/
theorem SStep.carried (h : SStep c quit sd queue fs b sd' queue' fs') (hi : SndInv sd) {m : Message}
    (hm : m ∈ queue ∨ sd.carries = some m) :
    (m ∈ queue' ∨ sd'.carries = some m) ∨ (sd.msg = some m ∧ Handled c sd fs b sd' fs' m) := by
  -- the message held stays held
  have keep : queue' = queue → sd'.pc ≠ .dumpDel → sd'.msg = sd.msg →
      (m ∈ queue' ∨ sd'.carries = some m) ∨ (sd.msg = some m ∧ Handled c sd fs b sd' fs' m) := by
    intro h1 h2 h3
    refine Or.inl (hm.imp (fun hq => by rw [h1]; exact hq) fun hc => ?_)
    unfold Snd.carries at hc ⊢
    rw [if_neg h2, h3]
    split at hc
    · cases hc
    · exact hc
  have held : ∀ {m₀ : Message}, sd.msg = some m₀ → sd.carries = some m → m = m₀ := by
    intro m₀ h1 h2
    unfold Snd.carries at h2
    split at h2
    · cases h2
    · exact Option.some.inj (h2.symm.trans h1)
  have empty : sd.msg = none → sd.carries ≠ some m := by
    intro h1 h2
    unfold Snd.carries at h2
    rw [h1] at h2
    split at h2 <;> cases h2
  cases h with
  | @pop m₀ q hpc hq | @dumpPop m₀ q hpc hq =>
    rcases hm with hm | hm
    · rw [hq] at hm
      rcases List.mem_cons.1 hm with rfl | hm
      · exact Or.inl (Or.inr rfl)
      · exact Or.inl (Or.inl hm)
    · exact absurd hm (empty (hi.free (by simp [hpc])))
  | popNone _ => exact keep rfl (by simp) rfl
  | checkQuit _ => exact keep rfl (by cases quit <;> simp) rfl
  | log _ => exact keep rfl (by simp) rfl
  | @buff m₀ res hpc hm₀ ht =>
    rcases hm with hm | hm
    · exact Or.inl (Or.inl hm)
    · obtain rfl := held hm₀ hm
      cases res with
      | success => exact Or.inr ⟨hm₀, .data ht fun x hx => Or.inl (List.mem_append_right _ hx)⟩
      | errSys | errSrv => exact Or.inr ⟨hm₀, .data ht fun x hx => Or.inr (List.mem_append_right _ hx)⟩
      | errNet => exact keep rfl (by simp [Snd.stepBuff]) rfl
  | list _ _ _ => exact keep rfl (by simp) rfl
  | @file m₀ res hpc hm₀ hmore =>
    rcases hm with hm | hm
    · exact Or.inl (Or.inl hm)
    · obtain rfl := held hm₀ hm
      cases res with
      | success =>
        exact Or.inr ⟨hm₀, .file _ rfl (by decide) hpc hmore rfl (by simp [Snd.stepFile, Snd.carries, hpc])
          fun x hx => Or.inl (List.mem_append_right _ hx)⟩
      | errSys | errSrv =>
        exact Or.inr ⟨hm₀, .file _ rfl (by decide) hpc hmore rfl (by simp [Snd.stepFile, Snd.carries, hpc])
          fun x hx => Or.inr (List.mem_append_right _ hx)⟩
      | errNet => exact keep rfl (by simp [Snd.stepFile]) rfl
  | filesEnd _ _ _ => exact keep rfl (by simp) rfl
  | check _ => exact keep rfl (by cases quit <;> simp) rfl
  | @rename m₀ ok hpc hm₀ ht hmore =>
    rcases hm with hm | hm
    · exact Or.inl (Or.inl hm)
    · obtain rfl := held hm₀ hm
      obtain ⟨h1, h2⟩ := stepRename_pc c fs sd m ok
      refine Or.inr ⟨hm₀, .rename ok rfl ht hmore ?_⟩
      unfold Snd.carries
      rw [h1, h2, if_neg (by rw [hpc]; decide)]
  | @renameEnd m₀ hpc hm₀ ht hmore =>
    rcases hm with hm | hm
    · exact Or.inl (Or.inl hm)
    · obtain rfl := held hm₀ hm
      exact Or.inr ⟨hm₀, .names rfl hpc ht⟩
  | opened _ _ _ _ => exact keep rfl (by simp) rfl
  | fopen _ _ _ _ => exact keep rfl (by simp) rfl
  | fopenFail _ _ _ => exact keep rfl (by simp) rfl
  | @fwrite m₀ fp hpc hm₀ hfp =>
    rcases hm with hm | hm
    · exact Or.inl (Or.inl hm)
    · obtain rfl := held hm₀ hm
      exact Or.inr ⟨hm₀, .dump none rfl (hi.data hpc m hm₀) fun _ x hx => List.mem_append_right _ hx⟩
  | @fwriteFail m₀ fp k hpc hm₀ hfp =>
    rcases hm with hm | hm
    · exact Or.inl (Or.inl hm)
    · obtain rfl := held hm₀ hm
      exact Or.inr ⟨hm₀, .dump (some k) rfl (hi.data hpc m hm₀) fun h => by cases h⟩
  | del hpc =>
    rcases hm with hm | hm
    · exact Or.inl (Or.inl hm)
    · unfold Snd.carries at hm
      rw [if_pos hpc] at hm
      cases hm
  | dumpEnd _ => exact keep rfl (by simp) rfl
  | reach _ => exact Or.inl hm

end Sender

/-! ## Stored messages -/

/-- Some name leads to the file. -/
def Linked (fs : Disk) (i : ℕ) : Prop := ∃ n, fs.dir n = some i

/-- The dump has renamed the file, and it is still there. -/
def Sys.Moved (s : Sys) (i : ℕ) : Prop := i ∈ s.snd.renamed ∧ Linked s.fs i

/-- The name is on the receiver's list, or on one that is carried. -/
def Sys.Pending (s : Sys) (n : Name) : Prop :=
  n ∈ s.rcv.pendingNames ∨ ∃ m, s.Carried m ∧ m.type = 1 ∧ n ∈ m.filenames

/-- **A message stored in a file is not lost**: it was sent or given up, its file was
renamed by the dump, or its file is still named by a list. -/
def Sys.Safe (s : Sys) (p : ℕ × List Cell) : Prop :=
  (∀ x ∈ p.2, x ∈ s.snd.sent ∨ x ∈ s.snd.dropped) ∨ s.Moved p.1 ∨ ∃ n, s.Pending n ∧ s.fs.dir n = some p.1

/-- **No stored message is lost.** -/
structure FileAcc (s : Sys) : Prop where
  lists : ListInv (fun _ => False) s
  snd : SndInv s.snd
  stream : ∀ fp, s.rcv.info.currFp = some fp → s.fs.dir s.rcv.info.fname = some fp.ino ∨ s.Moved fp.ino
  items : ∀ p ∈ s.rcv.filed, s.Safe p
  dump : ∀ fp, s.snd.fp = some fp → Linked s.fs fp.ino
  dumped : ∀ x ∈ s.snd.dumped, ∃ fp, s.snd.fp = some fp ∧ x ∈ settled s.fs (some fp) fp.ino

theorem fileAcc_init (c : Configure) (fs : Disk) : FileAcc (Sys.init c fs) := by
  refine ⟨listInv_init _ c fs, sndInv_init, ?_, ?_, ?_, ?_⟩ <;>
    simp [Sys.init, Rcv.init, datafileInit, Snd.init]

theorem FileAcc.isList {s : Sys} (h : FileAcc s) {m : Message} (hm : s.InPlay m) (ht : m.type = 1) :
    IsList s.rcv.created m :=
  (h.lists.lists m hm ht).resolve_left id

/-! ### The receiver -/

theorem RStep.filed_cases (h : RStep c quit r fs a r' fs') {p : ℕ × List Cell} (hp : p ∈ r'.filed) :
    p ∈ r.filed ∨ (r'.pc = .select ∧ ∃ fp, r'.info.currFp = some fp ∧ p.1 = fp.ino) := by
  cases h with
  | @writeOk m e w _ _ hw hok =>
    rcases List.mem_append.1 hp with hp | hp
    · exact Or.inl hp
    · obtain ⟨fp, hfp⟩ := Option.isSome_iff_exists.1 (hw.open_of_ok hok)
      rw [hfp] at hp
      simp only [Option.map_some, Option.toList_some, List.mem_singleton] at hp
      exact Or.inr ⟨rfl, fp, hfp, by rw [hp]⟩
  | @flush m _ _ =>
    rw [stepFlush_eq] at hp
    exact Or.inl hp
  | _ => exact Or.inl hp

theorem FilesStep.linked (h : FilesStep r fs r' fs') {i : ℕ} (hl : Linked fs i) : Linked fs' i :=
  hl.imp fun n hn => h.dir n i hn

/-- **The receiver loses no stored message.** -/
theorem FileAcc.rcv {s s' : Sys} (h : FileAcc s) (hl : ListInv (fun _ => False) s') (hm : RcvMove c s s' a)
    (hsafe : ∀ e, a = .write e → WriteSafe s.rcv e) : FileAcc s' := by
  have hf := hm.step.files h.lists.rcv.stream
  have moved : ∀ i, s.Moved i → s'.Moved i := by
    rintro i ⟨h1, h2⟩
    refine ⟨?_, hf.linked h2⟩
    rw [hm.snd]
    exact h1
  have stream : ∀ fp, s'.rcv.info.currFp = some fp → s'.fs.dir s'.rcv.info.fname = some fp.ino ∨ s'.Moved fp.ino := by
    intro fp hfp
    rcases hf.stream fp hfp with h1 | ⟨fp₀, h1, h2, h3⟩
    · exact Or.inl h1
    · rw [h2, h3]
      exact (h.stream fp₀ h1).imp (hf.dir _ _) (moved _)
  refine ⟨hl, hm.snd ▸ h.snd, stream, fun p hp => ?_, fun fp hfp => ?_, fun x hx => ?_⟩
  · rcases hm.step.filed_cases hp with hp | ⟨hpc, fp, hfp, hi⟩
    · rcases h.items p hp with h1 | h1 | ⟨n, hn, hd⟩
      · exact Or.inl (by rw [hm.snd]; exact h1)
      · exact Or.inr (Or.inl (moved _ h1))
      · refine Or.inr (Or.inr ⟨n, ?_, hf.dir _ _ hd⟩)
        rcases hn with hn | ⟨m, hc, ht, hn⟩
        · rcases hm.step.pending h.lists.rcv.base hsafe hn with hn | ⟨m, hpush, ht, hn⟩
          · exact Or.inl hn
          · exact Or.inr ⟨m, Or.inl (hm.queued.2 m hpush), ht, hn⟩
        · exact Or.inr ⟨m, hm.carried hc, ht, hn⟩
    · -- the current file is on the list
      rcases stream fp hfp with h1 | h1
      · refine Or.inr (Or.inr ⟨s'.rcv.info.fname, Or.inl ?_, by rw [hi]; exact h1⟩)
        obtain ⟨-, ns, hns⟩ := hl.rcv.base.data.curr (by rw [hfp]; rfl)
        rw [pendingNames_of_ne (by rw [hpc]; decide) (by rw [hpc]; decide), hns]
        simp
      · exact Or.inr (Or.inl (by rw [hi]; exact h1))
  · rw [hm.snd] at hfp
    exact hf.linked (h.dump fp hfp)
  · rw [hm.snd] at hx ⊢
    obtain ⟨fp, hfp, hin⟩ := h.dumped x hx
    exact ⟨fp, hfp, (hf.grows.settled _ _).subset hin⟩

/-! ### The sender -/

theorem rename_target {x y : Name} {i : ℕ} (hx : fs.dir x = some i) (hy : fs.dir y = none) :
    (fs.rename x y).dir y = some i ∧ ∀ n, n ≠ x → n ≠ y → (fs.rename x y).dir n = fs.dir n := by
  have hne : y ≠ x := by
    rintro rfl
    rw [hx] at hy
    cases hy
  unfold Fs.rename
  simp only
  rw [if_neg (by rw [hx, hy]; simp)]
  refine ⟨?_, fun n h1 h2 => ?_⟩
  · rw [Function.update_of_ne hne, Function.update_self, hx]
  · rw [Function.update_of_ne h1, Function.update_of_ne h2]

section Sender

variable {s : Sys} {sd' : Snd} {queue' : List Message} {b : SAct}

/-- The first name of a list that is renamed is cut nowhere. -/
theorem FileAcc.cut {m : Message} (h : FileAcc s) (hm : s.snd.msg = some m) (ht : m.type = 1)
    (hmore : Snd.more s.fs m = true) : cutName m = m :=
  cutName_eq (h.lists.rcv.ends _ ((h.isList (Or.inr hm) ht).head ht (more_spec hmore).1))

/-- **A rename moves the first file of the list**, and no other. -/
theorem FileAcc.renames {m : Message} {ok : Bool} {i : ℕ} (h : FileAcc s) (hm : s.snd.msg = some m) (ht : m.type = 1)
    (hmore : Snd.more s.fs m = true) (hc : SndSafe c s (.rename ok)) (hi : s.fs.dir m.filename = some i) :
    (i ∈ (s.snd.stepRename c s.fs m ok).1.renamed ∧ Linked (s.snd.stepRename c s.fs m ok).2 i) ∧
      ∀ n j, n ≠ m.filename → s.fs.dir n = some j → (s.snd.stepRename c s.fs m ok).2.dir n = some j := by
  obtain ⟨rfl, hfree⟩ := hc
  have hfree := hfree m hm
  obtain ⟨h1, h2⟩ := rename_target hi hfree
  have hok : (true && s.fs.exist m.filename) = true := by
    unfold Fs.exist
    rw [hi]
    rfl
  rw [stepRename_fs, stepRename_renamed, h.cut hm ht hmore, if_pos hok, if_pos hok, hi]
  refine ⟨⟨by simp, _, h1⟩, fun n j hne hn => ?_⟩
  rw [h2 n hne ?_]
  · exact hn
  · rintro rfl
    rw [hn] at hfree
    cases hfree

/-- **A name keeps its file, or the file is renamed.** -/
theorem FileAcc.keeps_name (h : FileAcc s) (hs : SStep c quit s.snd s.queue s.fs b sd' queue' fs')
    (hc : SndSafe c s b) {n : Name} {i : ℕ} (hn : s.fs.dir n = some i) :
    fs'.dir n = some i ∨ (i ∈ sd'.renamed ∧ Linked fs' i) := by
  cases hs with
  | @rename m ok _ hm ht hmore =>
    obtain ⟨j, hj⟩ := Option.isSome_iff_exists.1 (more_spec hmore).2
    obtain ⟨h1, h2⟩ := h.renames hm ht hmore hc hj
    rcases eq_or_ne n m.filename with rfl | hne
    · obtain rfl := Option.some.inj (hn.symm.trans hj)
      exact Or.inr h1
    · exact Or.inl (h2 n i hne hn)
  | fopen _ _ _ _ => exact Or.inl (fopen_dir_of_some hn)
  | _ => exact Or.inl hn

theorem FileAcc.keeps_link (h : FileAcc s) (hs : SStep c quit s.snd s.queue s.fs b sd' queue' fs')
    (hc : SndSafe c s b) {i : ℕ} (hl : Linked s.fs i) : Linked fs' i := by
  obtain ⟨n, hn⟩ := hl
  rcases h.keeps_name hs hc hn with h1 | h1
  · exact ⟨n, h1⟩
  · exact h1.2

theorem SStep.sent_grows {sd : Snd} {queue : List Message} (h : SStep c quit sd queue fs b sd' queue' fs') :
    sd.sent <+: sd'.sent ∧ sd.dropped <+: sd'.dropped := by
  cases h with
  | @buff m res _ _ _ =>
    cases res with
    | success => exact ⟨List.prefix_append _ _, List.prefix_refl _⟩
    | errSys | errSrv => exact ⟨List.prefix_refl _, List.prefix_append _ _⟩
    | errNet => exact ⟨List.prefix_refl _, List.prefix_refl _⟩
  | @file m res _ _ _ =>
    cases res with
    | success => exact ⟨List.prefix_append _ _, List.prefix_refl _⟩
    | errSys | errSrv => exact ⟨List.prefix_refl _, List.prefix_append _ _⟩
    | errNet => exact ⟨List.prefix_refl _, List.prefix_refl _⟩
  | @rename m ok _ _ _ _ =>
    rw [stepRename_eq]
    exact ⟨List.prefix_refl _, List.prefix_refl _⟩
  | _ => exact ⟨List.prefix_refl _, List.prefix_refl _⟩

/-- The dump file is the one that was open, or a new one. -/
theorem SStep.fp_cases {sd : Snd} {queue : List Message} (h : SStep c quit sd queue fs b sd' queue' fs')
    {fp' : Stream Cell} (hfp' : sd'.fp = some fp') :
    (∃ fp, sd.fp = some fp ∧ fp'.ino = fp.ino) ∨ Linked fs' fp'.ino := by
  cases h with
  | @buff m res _ _ _ => cases res <;> exact Or.inl ⟨fp', hfp', rfl⟩
  | @file m res _ _ _ => cases res <;> exact Or.inl ⟨fp', hfp', rfl⟩
  | rename _ _ _ _ =>
    rw [stepRename_fp] at hfp'
    exact Or.inl ⟨fp', hfp', rfl⟩
  | fopen _ _ _ _ =>
    obtain rfl := Option.some.inj hfp'
    exact Or.inr ⟨_, fopen_dir _ _⟩
  | @fwrite m fp _ _ hfp | @fwriteFail m fp k _ _ hfp | @reach k fp hfp =>
    obtain rfl := Option.some.inj hfp'
    exact Or.inl ⟨fp, hfp, rfl⟩
  | _ => exact Or.inl ⟨fp', hfp', rfl⟩

/-- **What was dumped is in the dump file**, once its stream is flushed. -/
theorem SStep.dumped_settled {sd : Snd} {queue : List Message} (hs : SStep c quit sd queue fs b sd' queue' fs')
    (ho : sd.StreamOK fs) (h : ∀ x ∈ sd.dumped, ∃ fp, sd.fp = some fp ∧ x ∈ settled fs (some fp) fp.ino) :
    ∀ x ∈ sd'.dumped, ∃ fp, sd'.fp = some fp ∧ x ∈ settled fs' (some fp) fp.ino := by
  intro x hx
  cases hs with
  | @buff m res _ _ _ => cases res <;> exact h x hx
  | @file m res _ _ _ => cases res <;> exact h x hx
  | @rename m ok _ _ _ _ =>
    have hnode : (sd.stepRename c fs m ok).2.node = fs.node := by
      rw [stepRename_fs]
      split <;> rfl
    rw [stepRename_dumped] at hx
    rw [stepRename_fp]
    unfold settled
    rw [hnode]
    exact h x hx
  | fopen _ _ _ hno =>
    obtain ⟨fp, hfp, -⟩ := h x hx
    rw [hno] at hfp
    cases hfp
  | @fwrite m fp _ _ hfp =>
    refine ⟨_, rfl, ?_⟩
    rw [fwrite_ino, settled_fwrite, if_pos rfl]
    rcases List.mem_append.1 hx with hx | hx
    · obtain ⟨fp₀, h1, h2⟩ := h x hx
      obtain rfl := Option.some.inj (hfp.symm.trans h1)
      exact List.mem_append_left _ h2
    · exact List.mem_append_right _ hx
  | @fwriteFail m fp k _ _ hfp =>
    obtain ⟨fp₀, h1, h2⟩ := h x hx
    obtain rfl := Option.some.inj (hfp.symm.trans h1)
    refine ⟨_, rfl, ?_⟩
    rw [fwrite_ino, settled_fwrite]
    exact List.mem_append_left _ h2
  | @reach k fp hfp =>
    obtain ⟨fp₀, h1, h2⟩ := h x hx
    obtain rfl := Option.some.inj (hfp.symm.trans h1)
    refine ⟨_, rfl, ?_⟩
    rw [flush_ino, settled_flush (ho fp hfp)]
    exact h2
  | _ => exact h x hx

/-- **A file uploaded without bytes in the receiver's stream** holds everything stored in it. -/
theorem FileAcc.whole (h : FileAcc s) {p : ℕ × List Cell} {m : Message} {res : SndRes} (hp : p ∈ s.rcv.filed)
    (hm : s.snd.msg = some m) (hpc : s.snd.pc = .files) (hres : res ≠ .errNet) (hc : SndSafe c s (.send res))
    (hd : s.fs.dir m.filename = some p.1) : ∀ x ∈ p.2, x ∈ s.fs.content m.filename := by
  intro x hx
  have hfiled : x ∈ s.rcv.filedOn p.1 :=
    List.mem_flatMap.2 ⟨p, List.mem_filter.2 ⟨hp, by simp⟩, hx⟩
  have hin := (h.lists.rcv.filed p.1).subset hfiled
  have hbuf : ∀ fp, s.rcv.info.currFp = some fp → fp.ino = p.1 → fp.buf = [] := by
    intro fp hfp hino
    exact hc hpc hres m hm fp hfp (by rw [hd, hino])
  unfold Fs.content
  rw [hd]
  unfold settled at hin
  rcases List.mem_append.1 hin with hin | hin
  · exact hin
  · cases hfp : s.rcv.info.currFp with
    | none =>
      rw [hfp] at hin
      cases hin
    | some fp =>
      rw [hfp] at hin
      simp only at hin
      split at hin
      · rename_i hino
        rw [hbuf fp hfp hino] at hin
        cases hin
      · cases hin

end Sender

/-- **The sender loses no stored message.** -/
theorem FileAcc.sender {s s' : Sys} {b : SAct} (h : FileAcc s) (hl : ListInv (fun _ => False) s')
    (hm : SndMove c s s' b) (hc : SndSafe c s b) : FileAcc s' := by
  have hgrow := hm.step.sent_grows
  have moved : ∀ i, s.Moved i → s'.Moved i :=
    fun i hi => ⟨hm.step.renamed_grows.subset hi.1, h.keeps_link hm.step hc hi.2⟩
  refine ⟨hl, hm.step.inv h.snd, fun fp hfp => ?_, fun p hp => ?_, fun fp hfp => ?_, hm.step.dumped_settled h.lists.snd h.dumped⟩
  · rw [hm.rcv] at hfp ⊢
    rcases h.stream fp hfp with h1 | h1
    · exact h.keeps_name hm.step hc h1
    · exact Or.inr (moved _ h1)
  · rw [hm.rcv] at hp
    rcases h.items p hp with h1 | h1 | ⟨n, hn, hd⟩
    · exact Or.inl fun x hx => (h1 x hx).imp (fun hx => hgrow.1.subset hx) fun hx => hgrow.2.subset hx
    · exact Or.inr (Or.inl (moved _ h1))
    rcases h.keeps_name hm.step hc hd with hd' | hmv
    swap
    · exact Or.inr (Or.inl hmv)
    rcases hn with hn | ⟨m, hcar, ht, hn⟩
    · exact Or.inr (Or.inr ⟨n, Or.inl (by rw [hm.rcv]; exact hn), hd'⟩)
    have hlist := h.isList hcar.inPlay ht
    rcases hm.step.carried h.snd hcar with hcar' | ⟨hheld, hh⟩
    · exact Or.inr (Or.inr ⟨n, Or.inr ⟨m, hcar', ht, hn⟩, hd'⟩)
    -- the list was with the sender, and the name is its first or a later one
    have later : ∀ m', s'.snd.carries = some m' → m' = messgeFilenameForward m → Snd.more s.fs m = true →
        n ≠ m.filename → s'.Safe p := by
      intro m' hm' he hmore hne
      rw [filenames_forward ht hlist.len_nonneg hlist.len_le (more_spec hmore).1] at hn
      refine Or.inr (Or.inr ⟨n, Or.inr ⟨m', Or.inr hm', ?_, ?_⟩, hd'⟩)
      · rw [he, forward_type]
        exact ht
      · rw [he]
        exact (List.mem_cons.1 hn).resolve_left hne
    cases hh with
    | data h0 _ => omega
    | file res hb hres hpc hmore _ hcar' hsent =>
      subst hb
      rcases eq_or_ne n m.filename with rfl | hne
      · exact Or.inl fun x hx => hsent x (h.whole hp hheld hpc hres hc hd x hx)
      · exact later _ hcar' rfl hmore hne
    | rename ok hb _ hmore hcar' =>
      subst hb
      rcases eq_or_ne n m.filename with rfl | hne
      · have hmv : p.1 ∈ s'.snd.renamed ∧ Linked s'.fs p.1 := by
          have hstep := hm.step
          generalize s'.snd = sd' at hstep ⊢
          generalize s'.fs = fs' at hstep ⊢
          generalize s'.queue = queue' at hstep
          cases hstep with
          | rename _ hm' _ _ =>
            obtain rfl := Option.some.inj (hheld.symm.trans hm')
            exact (h.renames hheld ht hmore hc hd).1
        exact Or.inr (Or.inl hmv)
      · exact later _ hcar' (by rw [h.cut hheld ht hmore]) hmore hne
    | names hb hpc _ =>
      subst hb
      have := hc.2 hpc m hheld ht n hn
      rw [hd] at this
      cases this
    | dump _ _ hne _ => exact absurd ht hne
  · rcases hm.step.fp_cases hfp with ⟨fp₀, h1, h2⟩ | h1
    · rw [h2]
      exact h.keeps_link hm.step hc (h.dump fp₀ h1)
    · exact h1

/-! ## What `main` leaves -/

theorem flushed_node {st : Option (Stream Cell)} (h : ∀ fp, st = some fp → fp.ino < fs.next) (i : ℕ) :
    (Sys.flushed fs st).node i = settled fs st i := by
  cases st with
  | none => exact (List.append_nil _).symm
  | some fp =>
    rw [← settled_fclose (h fp rfl)]
    exact (List.append_nil _).symm

theorem flushed_dir (fs : Disk) (st : Option (Stream Cell)) :
    (Sys.flushed fs st).dir = fs.dir ∧ fs.Grows (Sys.flushed fs st) := by
  cases st with
  | none => exact ⟨rfl, .refl _⟩
  | some fp => exact ⟨rfl, .append _ _ _⟩

/-- Whether it exits or reloads, no name moves and no file shrinks. -/
theorem leave_dir (s : Sys) (reload : Bool) : (s.leave reload).dir = s.fs.dir ∧ s.fs.Grows (s.leave reload) := by
  unfold Sys.leave
  split
  · exact ⟨rfl, .refl _⟩
  · obtain ⟨h1, h2⟩ := flushed_dir s.fs s.rcv.info.currFp
    obtain ⟨h3, h4⟩ := flushed_dir (Sys.flushed s.fs s.rcv.info.currFp) s.snd.fp
    exact ⟨h3.trans h1, h2.trans h4⟩

/-- A stream that holds nothing back has everything in its file. -/
theorem settled_unbuffered {st : Option (Stream Cell)} (h : ∀ fp ∈ st, fp.buf = []) (i : ℕ) : settled fs st i = fs.node i := by
  unfold settled
  cases st with
  | none => exact List.append_nil _
  | some fp => simp [h fp rfl]

/-- **What the receiver wrote** is in its file, unless `execlp` drops what is in the stream. -/
theorem leave_rcv {s : Sys} {reload : Bool} (hs : StreamOK s.rcv.info s.fs)
    (hbuf : reload = true → ∀ fp ∈ s.rcv.info.currFp, fp.buf = []) (i : ℕ) :
    (settled s.fs s.rcv.info.currFp i).Sublist ((s.leave reload).node i) := by
  unfold Sys.leave
  cases reload with
  | true =>
    rw [settled_unbuffered (hbuf rfl)]
    exact List.Sublist.refl _
  | false =>
    have hnode : (Sys.flushed s.fs s.rcv.info.currFp).node i = settled s.fs s.rcv.info.currFp i := flushed_node hs i
    rw [← hnode]
    exact ((flushed_dir _ _).2.node i).sublist

/-- **What the sender dumped** is in its file, unless `execlp` drops what is in the stream. -/
theorem leave_snd {s : Sys} {reload : Bool} (hs : s.snd.StreamOK s.fs)
    (hbuf : reload = true → ∀ fp ∈ s.snd.fp, fp.buf = []) (i : ℕ) :
    (settled s.fs s.snd.fp i).Sublist ((s.leave reload).node i) := by
  unfold Sys.leave
  cases reload with
  | true =>
    rw [settled_unbuffered (hbuf rfl)]
    exact List.Sublist.refl _
  | false =>
    -- the receiver's stream is flushed first, which only adds to the files
    have hgrows := (flushed_dir s.fs s.rcv.info.currFp).2
    have hnode : (Sys.flushed (Sys.flushed s.fs s.rcv.info.currFp) s.snd.fp).node i =
        settled (Sys.flushed s.fs s.rcv.info.currFp) s.snd.fp i :=
      flushed_node (fun fp hfp => Nat.lt_of_lt_of_le (hs fp hfp) hgrows.next) i
    simp only [Bool.false_eq_true, if_false]
    rw [hnode]
    exact hgrows.settled _ i

end HookKernel
