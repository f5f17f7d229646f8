import HookKernel.Proof.Lists

/-!
# Listed files are complete

The receiver pushes `names_msg` before it closes the current file, which is the last
one on the list. The sender may pop the list and upload the file while its last bytes
are still in the stream.

* `lists_complete`: as long as no list is pushed while a file is open, and no file is
  opened again while a list names it, every listed file is closed and holds everything
  stored in it; and a step that breaks this breaks the property.
* `incomplete_upload`: a run in which an empty file is uploaded.
-/

namespace HookKernel

open Lib

variable {c : Configure} {quit : Bool} {r r' : Rcv} {fs fs' : Disk} {a : RAct}

/-- **The file named `n` is complete**: it is not the receiver's current file, it holds
everything stored in it, and it is there unless the dump has moved files. -/
structure FileComplete (s : Sys) (n : Name) : Prop where
  closed : ∀ fp, s.rcv.info.currFp = some fp → s.rcv.info.fname ≠ n ∧ s.fs.dir n ≠ some fp.ino
  whole : ∀ i, s.fs.dir n = some i → (s.rcv.filedOn i).Sublist (s.fs.node i)
  there : n ∈ s.rcv.created → s.snd.renamed = [] → (s.fs.dir n).isSome

/-- Every file named by a list in the queue or with the sender is complete. -/
def ListsComplete (s : Sys) : Prop := ∀ m, s.InPlay m → m.type = 1 → ∀ n ∈ m.filenames, FileComplete s n

/-- The names on the lists in the queue and with the sender. -/
def Sys.listNames (s : Sys) : List Name :=
  (s.queue ++ s.snd.msg.toList).flatMap fun m => if m.type = 1 then m.filenames else []

theorem mem_listNames {s : Sys} {n : Name} : n ∈ s.listNames ↔ ∃ m, s.InPlay m ∧ m.type = 1 ∧ n ∈ m.filenames := by
  unfold Sys.listNames Sys.InPlay
  simp only [List.mem_flatMap, List.mem_append, Option.mem_toList]
  constructor
  · rintro ⟨m, hm, hn⟩
    split at hn
    · exact ⟨m, hm, ‹_›, hn⟩
    · cases hn
  · rintro ⟨m, hm, ht, hn⟩
    exact ⟨m, hm, by rw [if_pos ht]; exact hn⟩

/-- A list is pushed, or a last message of type 1, only when no file is open. -/
def PushClosed (s : Sys) (b : SysAct) : Prop :=
  b = .rcv (.push true) → s.rcv.pc = .namesPush ∨ s.rcv.pc = .lastPush ∧ s.rcv.msg.map Message.type = some 1 →
    s.rcv.info.currFp = none

def SysAct.writeEnv : SysAct → Option WriteEnv
  | .rcv a => a.writeEnv
  | _ => none

/-- A file is opened only when no list names it. -/
def OpensUnlisted (c : Configure) (s : Sys) (b : SysAct) : Prop :=
  ∀ e ∈ b.writeEnv, ∀ n₀ ∈ s.rcv.opens c e, ∀ n ∈ s.listNames,
    n ≠ n₀ ∧ (s.fs.dir n = none ∨ s.fs.dir n ≠ s.fs.dir n₀)

def ListsClosed (c : Configure) (s : Sys) (b : SysAct) : Prop := PushClosed s b ∧ OpensUnlisted c s b

instance (c : Configure) (s : Sys) (b : SysAct) : Decidable (ListsClosed c s b) :=
  inferInstanceAs (Decidable ((_ → _ → _) ∧ ∀ e ∈ b.writeEnv, ∀ n₀ ∈ s.rcv.opens c e, ∀ n ∈ s.listNames,
    n ≠ n₀ ∧ (s.fs.dir n = none ∨ s.fs.dir n ≠ s.fs.dir n₀)))

/-! ## What is opened, and which names move -/

theorem fopen_dir_of_ne {n n' : Name} (h : n' ≠ n) : (fs.fopen n).1.dir n' = fs.dir n' := by
  unfold Fs.fopen
  split
  · rfl
  · exact Function.update_of_ne h _ _

theorem fopen_ino (fs : Disk) (n : Name) :
    (∀ i, fs.dir n = some i → (fs.fopen n).2.ino = i) ∧ (fs.dir n = none → (fs.fopen n).2.ino = fs.next) := by
  unfold Fs.fopen
  split
  · rename_i i hi
    refine ⟨fun j hj => ?_, fun hno => ?_⟩
    · rw [hi] at hj
      exact Option.some.inj hj
    · rw [hi] at hno
      cases hno
  · rename_i hno
    refine ⟨fun j hj => ?_, fun _ => rfl⟩
    rw [hno] at hj
    cases hj

/-- **A new stream**: the name it was opened under, and the names that did not move. -/
structure Opened (r : Rcv) (fs : Disk) (r' : Rcv) (fs' : Disk) (n : Name) : Prop where
  stream : ∃ fp, r'.info.currFp = some fp ∧ fs'.dir n = some fp.ino ∧ (∀ i, fs.dir n = some i → fp.ino = i) ∧
    (fs.dir n = none → fp.ino = fs.next)
  fname : r'.info.fname = n
  others : ∀ n', n' ≠ n → fs'.dir n' = fs.dir n'

/-- No new stream, and no name moved. -/
structure NotOpened (r : Rcv) (fs : Disk) (r' : Rcv) (fs' : Disk) : Prop where
  stream : ∀ fp', r'.info.currFp = some fp' →
    ∃ fp, r.info.currFp = some fp ∧ fp'.ino = fp.ino ∧ r'.info.fname = r.info.fname
  dir : fs'.dir = fs.dir

theorem close_dir (info : DatafileInfo) (fs : Disk) :
    (closeDatafile info fs).2.dir = fs.dir ∧ (closeDatafile info fs).2.next = fs.next := by
  unfold closeDatafile
  cases info.currFp with
  | none => exact ⟨rfl, rfl⟩
  | some fp => exact ⟨rfl, rfl⟩

theorem rotate_dir (info : DatafileInfo) (fs : Disk) (m : Message) :
    (info.rotate fs m).2.dir = fs.dir ∧ (info.rotate fs m).2.next = fs.next := by
  unfold DatafileInfo.rotate
  split
  · exact close_dir info fs
  · exact ⟨rfl, rfl⟩

theorem Wrote.opened_cases {m : Message} {e : WriteEnv} {w : WriteRes}
    (hw : Wrote c.localtime r.info fs m r.fresh e w) (hinfo : r'.info = w.info) :
    (w.opened = none ∧ NotOpened r fs r' w.fs) ∨ ∃ n, w.opened = some n ∧ Opened r fs r' w.fs n := by
  cases hw with
  | full _ _ =>
    exact Or.inl ⟨rfl, fun fp' hfp' => ⟨fp', by rw [← hfp', hinfo], rfl, by rw [hinfo]⟩, rfl⟩
  | @same fp _ hfp =>
    refine Or.inl ⟨writeCurr_opened _ _ _ _ _ _, fun fp' hfp' => ⟨fp, hfp, ?_, ?_⟩, by rw [writeCurr_fs]⟩
    · rw [hinfo, writeCurr_currFp] at hfp'
      rw [← Option.some.inj hfp']
      rfl
    · rw [hinfo, fname_eq, writeCurr_currFname]
      rfl
  | noFile _ _ _ =>
    refine Or.inl ⟨rfl, fun fp' hfp' => ?_, (rotate_dir r.info fs m).1⟩
    rw [hinfo] at hfp'
    cases hfp'
  | @new buf names info' _ _ _ hi _ _ =>
    obtain ⟨hdir, hnext⟩ := rotate_dir r.info fs m
    obtain ⟨hino, hino'⟩ := fopen_ino (r.info.rotate fs m).2 (cstr (· == 0) buf)
    rw [hdir] at hino hino'
    have hfp := (congrArg DatafileInfo.currFp hinfo).trans (writeCurr_currFp _ _ _ _ _ _)
    refine Or.inr ⟨_, writeCurr_opened _ _ _ _ _ _, ⟨_, hfp, ?_, fun i hi => hino i hi,
      fun hno => (hino' hno).trans hnext⟩, ?_, fun n' hne => ?_⟩
    · rw [writeCurr_fs]
      exact fopen_dir _ _
    · rw [hinfo, fname_eq, writeCurr_currFname, hi]
    · rw [writeCurr_fs, fopen_dir_of_ne hne, hdir]

theorem NotOpened.same (h : r'.info = r.info) : NotOpened r fs r' fs :=
  ⟨fun fp' hfp' => ⟨fp', by rw [← h]; exact hfp', rfl, by rw [h]⟩, rfl⟩

theorem NotOpened.closed (h : r'.info.currFp = none) (hdir : fs'.dir = fs.dir) : NotOpened r fs r' fs' := by
  refine ⟨fun fp' hfp' => ?_, hdir⟩
  rw [h] at hfp'
  cases hfp'

/-- **A step of the receiver opens no file, or the one that its write names.** -/
theorem RStep.opened_cases (h : RStep c quit r fs a r' fs') (hd : DInv r.info) :
    (r'.created = r.created ∧ NotOpened r fs r' fs') ∨
      ∃ e n, a = .write e ∧ r.opens c e = some n ∧ r'.created = r.created ++ [n] ∧ Opened r fs r' fs' n := by
  cases h with
  | @writeOk m e w hpc hm hw hok | @writeFail m e w hpc hm hw hok =>
    have hinfo : ({ r with info := w.info } : Rcv).info = w.info := rfl
    rcases hw.opened_cases hinfo with ⟨h1, h2⟩ | ⟨n, h1, h2⟩
    · exact Or.inl ⟨by simp [h1], h2.stream, h2.dir⟩
    · refine Or.inr ⟨e, n, rfl, ?_, by simp [h1], h2.stream, h2.fname, h2.others⟩
      rw [← hw.opened_eq hd hm]
      exact h1
  | detach _ => exact Or.inl ⟨rfl, .closed rfl (close_dir r.info fs).1⟩
  | drop _ hreset =>
    obtain ⟨h1, h2⟩ := reset_files hreset
    exact Or.inl ⟨rfl, .closed h1 (by rw [h2]; exact (close_dir r.info fs).1)⟩
  | @reach k fp hfp =>
    refine Or.inl ⟨rfl, fun fp' hfp' => ⟨fp, hfp, ?_, rfl⟩, rfl⟩
    rw [← Option.some.inj hfp']
    rfl
  | @flush m _ _ =>
    obtain ⟨h1, -, -, -, -, h2, -⟩ := stepFlush_fields r m
    exact Or.inl ⟨h2, .same h1⟩
  | _ => exact Or.inl ⟨rfl, .same rfl⟩

section Sender

variable {sd sd' : Snd} {queue queue' : List Message} {b : SAct}

theorem rename_dir (fs : Disk) (x y n : Name) :
    (fs.rename x y).dir n = fs.dir n ∨ (fs.rename x y).dir n = none ∨ (fs.rename x y).dir n = fs.dir x := by
  unfold Fs.rename
  simp only
  split
  · exact Or.inl rfl
  · rcases eq_or_ne n x with rfl | hne
    · rw [Function.update_self]
      exact Or.inr (Or.inl rfl)
    · rw [Function.update_of_ne hne]
      rcases eq_or_ne n y with rfl | hne'
      · rw [Function.update_self]
        exact Or.inr (Or.inr rfl)
      · rw [Function.update_of_ne hne']
        exact Or.inl rfl

/-- **The sender moves names only in the dump**: the first name of its list. -/
theorem SStep.dir_cases (h : SStep c quit sd queue fs b sd' queue' fs') (n : Name) :
    fs'.dir n = fs.dir n ∨ (fs.dir n = none ∧ fs'.dir n = some fs.next) ∨
      ∃ m, sd.msg = some m ∧ m.type = 1 ∧ Snd.more fs m = true ∧ sd'.renamed ≠ [] ∧
        (fs'.dir n = none ∨ fs'.dir n = fs.dir (cutName m).filename) := by
  cases h with
  | @rename m ok _ hm ht hmore =>
    rw [stepRename_fs, stepRename_renamed]
    split
    · rename_i hok
      have hex : (fs.dir (cutName m).filename).isSome := by
        rw [Bool.and_eq_true] at hok
        exact hok.2
      rcases rename_dir fs (cutName m).filename (renameTarget c (cutName m).filename) n with h1 | h1
      · exact Or.inl h1
      · refine Or.inr (Or.inr ⟨m, hm, ht, hmore, ?_, h1⟩)
        obtain ⟨i, hi⟩ := Option.isSome_iff_exists.1 hex
        simp [hi]
    · exact Or.inl rfl
  | @fopen m now _ _ _ _ =>
    rcases eq_or_ne n (dumpName c now) with rfl | hne
    · rw [fopen_dir]
      obtain ⟨h1, h2⟩ := fopen_ino fs (dumpName c now)
      cases hd : fs.dir (dumpName c now) with
      | none => exact Or.inr (Or.inl ⟨rfl, by rw [h2 hd]⟩)
      | some i => exact Or.inl (by rw [h1 i hd])
    · exact Or.inl (fopen_dir_of_ne hne)
  | _ => exact Or.inl rfl

end Sender

/-! ## The invariant -/

/-- **No list names the open file**, and no file is missing before the dump. -/
structure CompleteInv (s : Sys) : Prop where
  base : ListInv Rcv.Gone s
  closed : ∀ n ∈ s.listNames, ∀ fp, s.rcv.info.currFp = some fp → s.rcv.info.fname ≠ n ∧ s.fs.dir n ≠ some fp.ino
  there : s.snd.renamed = [] → ∀ n ∈ s.rcv.created, (s.fs.dir n).isSome

theorem CompleteInv.complete {s : Sys} (h : CompleteInv s) : ListsComplete s := by
  intro m hm ht n hn
  have hclosed := h.closed n (mem_listNames.2 ⟨m, hm, ht, hn⟩)
  refine ⟨hclosed, fun i hi => ?_, fun hcr hre => h.there hre n hcr⟩
  -- nothing of the file is in the stream
  have hin := h.base.rcv.filed i
  unfold settled at hin
  cases hfp : s.rcv.info.currFp with
  | none =>
    rw [hfp, List.append_nil] at hin
    exact hin
  | some fp =>
    have hne : fp.ino ≠ i := by
      rintro rfl
      exact (hclosed fp hfp).2 hi
    rw [hfp] at hin
    simp only [hne, if_false, List.append_nil] at hin
    exact hin

theorem listsClosed_last {s : Sys} {b : SysAct} (h : ListsClosed c s b) : LastExcused Rcv.Gone s b := by
  intro hb hpc ht r hpc' hinfo
  refine ⟨Or.inl hpc', ?_⟩
  rw [hinfo]
  exact h.1 hb (Or.inr ⟨hpc, ht⟩)

theorem completeInv_init (c : Configure) (fs : Disk) : CompleteInv (Sys.init c fs) := by
  refine ⟨listInv_init _ c fs, fun n hn => ?_, fun _ n hn => ?_⟩
  · cases hn
  · cases hn

theorem SameWork.completeInv {s s' : Sys} (h : SameWork s s') (hi : CompleteInv s) : CompleteInv s' := by
  refine ⟨h.listInv hi.base, ?_, ?_⟩
  · unfold Sys.listNames
    rw [h.rcv, h.fs, h.snd, h.queue]
    exact hi.closed
  · rw [h.rcv, h.fs, h.snd]
    exact hi.there

/-- The receiver's step. -/
theorem CompleteInv.rcv_closed {s : Sys} (h : CompleteInv s) (hs : RStep c quit s.rcv s.fs a r' fs')
    (hc : ListsClosed c s (.rcv a)) {n : Name} (hn : n ∈ s.listNames) {fp : Stream Cell} (hfp : r'.info.currFp = some fp) :
    r'.info.fname ≠ n ∧ fs'.dir n ≠ some fp.ino := by
  rcases hs.opened_cases h.base.rcv.base.data with ⟨-, ho⟩ | ⟨e, n₀, rfl, hopens, -, ho⟩
  · obtain ⟨fp₀, h1, h2, h3⟩ := ho.stream fp hfp
    rw [h2, h3, ho.dir]
    exact h.closed n hn fp₀ h1
  · -- the file opened is not one of the listed ones
    obtain ⟨hne, hnode⟩ := hc.2 e rfl n₀ hopens n hn
    obtain ⟨fp₁, h1, h2, h3, h4⟩ := ho.stream
    obtain rfl : fp = fp₁ := Option.some.inj (hfp.symm.trans h1)
    rw [ho.fname, ho.others n hne]
    refine ⟨hne.symm, fun hd => ?_⟩
    cases hd₀ : s.fs.dir n₀ with
    | none =>
      have h5 := s.fs.dir_lt n _ hd
      rw [h4 hd₀] at h5
      exact Nat.lt_irrefl _ h5
    | some i =>
      rcases hnode with hno | hno
      · rw [hd] at hno
        cases hno
      · rw [hd, hd₀, h3 i hd₀] at hno
        exact hno rfl

/-- A list is pushed when no file is open. -/
theorem ListInv.push_closed {P : Rcv → Prop} {s : Sys} (h : ListInv P s) (hs : RStep c quit s.rcv s.fs a r' fs')
    (hc : ListsClosed c s (.rcv a)) {m : Message} (hp : r'.pushed = s.rcv.pushed ++ [m]) (ht : m.type = 1) :
    r'.info.currFp = none := by
  have hflow := h.rcv.base.flow
  rcases hs.given_cases with hg | ⟨m', -, -, -, -, hinfo, hp'⟩
  · unfold Rcv.given at hg
    rw [hp] at hg
    simp at hg
  obtain rfl : m = m' := by
    rw [hp] at hp'
    simpa using hp'
  rw [hinfo]
  rcases hs.pushed with hsame | ⟨m', hp'', rfl, hcase⟩
  · rw [hp] at hsame
    simp at hsame
  obtain rfl : m = m' := by
    rw [hp] at hp''
    simpa using hp''
  rcases hcase with ⟨hpc, hm⟩ | ⟨hpc, -⟩ | ⟨hpc, hm⟩
  · exact hc.1 rfl (Or.inr ⟨hpc, by rw [hm, Option.map_some, ht]⟩)
  · exact hc.1 rfl (Or.inl hpc)
  · have h0 := hflow.typeZero m hm (hflow.direct (Or.inl hpc)) (by rw [hpc]; decide) (by rw [hpc]; decide)
    omega

/-- The sender's step, while the receiver has a file open. -/
theorem CompleteInv.snd_names {s : Sys} (h : CompleteInv s) {sd : Snd} {queue : List Message} {b : SAct}
    (hs : SStep c quit s.snd s.queue s.fs b sd queue fs') {m : Message} (hm : m ∈ queue ∨ sd.msg = some m)
    (ht : m.type = 1) {n : Name} (hn : n ∈ m.filenames) {fp : Stream Cell} (hfp : s.rcv.info.currFp = some fp) :
    n ∈ s.listNames := by
  have list : ∀ {m₀ : Message}, s.InPlay m₀ → m₀.type = 1 → IsList s.rcv.created m₀ := by
    intro m₀ hm₀ ht₀
    rcases h.base.lists m₀ hm₀ ht₀ with hg | hl
    · rw [hg.2] at hfp
      cases hfp
    · exact hl
  have forward : ∀ {m₀ : Message}, s.snd.msg = some m₀ → m₀.type = 1 → Snd.more s.fs m₀ = true →
      n ∈ (messgeFilenameForward m₀).filenames → n ∈ s.listNames := by
    intro m₀ hm₀ ht₀ hmore hn
    have hl := list (Or.inr hm₀) ht₀
    refine mem_listNames.2 ⟨m₀, Or.inr hm₀, ht₀, ?_⟩
    rw [filenames_forward ht₀ hl.len_nonneg hl.len_le (more_spec hmore).1]
    exact List.mem_cons_of_mem _ hn
  rcases hm with hm | hm
  · exact mem_listNames.2 ⟨m, Or.inl (hs.queue_from hm), ht, hn⟩
  · rcases hs.held_from hm with hq | hold | ⟨m₀, hm₀, hmore, rfl⟩ | ⟨m₀, hm₀, ht₀, hmore, rfl⟩
    · exact mem_listNames.2 ⟨m, Or.inl hq, ht, hn⟩
    · exact mem_listNames.2 ⟨m, Or.inr hold, ht, hn⟩
    · rw [forward_type] at ht
      exact forward hm₀ ht hmore hn
    · rw [cutName_eq (h.base.rcv.ends _ ((list (Or.inr hm₀) ht₀).head ht₀ (more_spec hmore).1))] at hn
      exact forward hm₀ ht₀ hmore hn

/-- The dump moves no file that the receiver has open. -/
theorem CompleteInv.snd_dir {s : Sys} (h : CompleteInv s) {sd : Snd} {queue : List Message} {b : SAct}
    (hs : SStep c quit s.snd s.queue s.fs b sd queue fs') {n : Name} (hn : n ∈ s.listNames) {fp : Stream Cell}
    (hfp : s.rcv.info.currFp = some fp) : fs'.dir n ≠ some fp.ino := by
  have hold := (h.closed n hn fp hfp).2
  rcases hs.dir_cases n with h1 | ⟨-, h1⟩ | ⟨m, hm, ht, hmore, -, h1 | h1⟩
  · rw [h1]
    exact hold
  · have hlt := h.base.rcv.stream fp hfp
    rw [h1]
    intro he
    have := Option.some.inj he
    omega
  · rw [h1]
    simp
  · rcases h.base.lists m (Or.inr hm) ht with hg | hl
    · rw [hg.2] at hfp
      cases hfp
    · have hne := (more_spec hmore).1
      rw [h1, cutName_eq (h.base.rcv.ends _ (hl.head ht hne))]
      refine (h.closed m.filename (mem_listNames.2 ⟨m, Or.inr hm, ht, ?_⟩) fp hfp).2
      rw [filenames_forward ht hl.len_nonneg hl.len_le hne]
      exact List.mem_cons_self

/-- **One step keeps the listed files closed**, if it meets the condition. -/
theorem CompleteInv.step {s s' : Sys} {b : SysAct} (h : CompleteInv s) (hc : ListsClosed c s b)
    (hs : s.step c b = some s') : CompleteInv s' := by
  have hb := h.base.step (fun hg hr => hg.step hr) (listsClosed_last hc) hs
  cases sys_cases hs with
  | @rcv a r fs pushed _ hr hp =>
    refine ⟨hb, fun n hn fp hfp => ?_, fun hre n hn => ?_⟩
    · obtain ⟨m, hm, ht, hnm⟩ := mem_listNames.1 hn
      by_cases hold : s.InPlay m
      · exact h.rcv_closed hr hc (mem_listNames.2 ⟨m, hold, ht, hnm⟩) hfp
      · -- a list that was just pushed: no file is open
        have hnew : r.pushed = s.rcv.pushed ++ [m] := by
          rcases hr.pushed with hsame | ⟨m', hp', -⟩
          · rw [hsame] at hp
            simp only [List.self_eq_append_right] at hp
            subst hp
            exact absurd (hm.imp_left (by simp)) hold
          · rw [hp', List.append_cancel_left_eq] at hp
            subst hp
            rcases hm with hm | hm
            · rcases List.mem_append.1 hm with hm | hm
              · exact absurd (Or.inl hm) hold
              · rw [hp', List.mem_singleton.1 hm]
            · exact absurd (Or.inr hm) hold
        have hno := h.base.push_closed hr hc hnew ht
        simp only [hno] at hfp
        cases hfp
    · rcases hr.opened_cases h.base.rcv.base.data with ⟨hcr, ho⟩ | ⟨e, n₀, -, -, hcr, ho⟩
      · simp only [hcr] at hn
        simp only [ho.dir]
        exact h.there hre n hn
      · simp only [hcr] at hn
        rcases eq_or_ne n n₀ with rfl | hne
        · obtain ⟨fp, -, h1, -⟩ := ho.stream
          simp only [h1]
          rfl
        · simp only [ho.others n hne]
          refine h.there hre n ?_
          rcases List.mem_append.1 hn with hn | hn
          · exact hn
          · exact absurd (List.mem_singleton.1 hn) hne
  | @snd b sd queue popped fs _ hsnd hp =>
    refine ⟨hb, fun n hn fp hfp => ?_, fun hre n hn => ?_⟩
    · obtain ⟨m, hm, ht, hnm⟩ := mem_listNames.1 hn
      have hold := h.snd_names hsnd hm ht hnm hfp
      exact ⟨(h.closed n hold fp hfp).1, h.snd_dir hsnd hold hfp⟩
    · have hre₀ : s.snd.renamed = [] := List.prefix_nil.1 (hre ▸ hsnd.renamed_grows)
      have hold := h.there hre₀ n hn
      rcases hsnd.dir_cases n with h1 | ⟨-, h1⟩ | ⟨m, -, -, -, hne, -⟩
      · simp only [h1]
        exact hold
      · simp only [h1]
        rfl
      · exact absurd hre hne
  | main hm => exact hm.same.completeInv h
  | starter hm => exact hm.same.completeInv h

/-! ## Runs -/

theorem completeInv {s : Sys} (h : Reach (Sys.step c) (ListsClosed c) (Sys.init c fs) s) : CompleteInv s :=
  h.inv (I := CompleteInv) (completeInv_init c fs) fun _ _ _ hi hc hs => hi.step hc hs

/-- What a call of `send_log_file` reads. -/
theorem upload_eq {s s' : Sys} {res : SndRes} (hpc : s.snd.pc = .files) (hs : s.step c (.snd (.send res)) = some s') :
    ∃ m, s.snd.msg = some m ∧ Snd.more s.fs m = true ∧
      s'.snd.uploads = s.snd.uploads ++ [(m.filename, s.fs.content m.filename)] := by
  cases sys_cases hs with
  | snd _ hsnd _ =>
    cases hsnd with
    | buff h1 _ _ =>
      rw [hpc] at h1
      cases h1
    | @file m _ _ hm hmore =>
      refine ⟨m, hm, hmore, ?_⟩
      cases res <;> rfl

/-- The upload contains everything stored in its file. -/
theorem CompleteInv.upload {s s' : Sys} (h : CompleteInv s) (hsnd : SndInv s.snd) {res : SndRes}
    (hpc : s.snd.pc = .files) (hs : s.step c (.snd (.send res)) = some s') :
    ∃ n i, s.fs.dir n = some i ∧ (s.rcv.filedOn i).Sublist (s.fs.node i) ∧
      s'.snd.uploads = s.snd.uploads ++ [(n, s.fs.node i)] := by
  obtain ⟨m, hm, hmore, hup⟩ := upload_eq hpc hs
  obtain ⟨hne, hex⟩ := more_spec hmore
  obtain ⟨i, hi⟩ := Option.isSome_iff_exists.1 hex
  have ht : m.type = 1 := (h.base.tag m (Or.inr hm)).resolve_left (hsnd.files hpc m hm)
  have hmem : m.filename ∈ m.filenames := by
    unfold Message.filenames
    rw [visited_succ hne]
    exact List.mem_cons_self
  refine ⟨m.filename, i, hi, (h.complete m (Or.inr hm) ht m.filename hmem).whole i hi, ?_⟩
  rw [hup]
  unfold Fs.content
  rw [hi]
  rfl

/-- A list pushed while a file is open names that file. -/
theorem push_open_incomplete {s s' : Sys} {b : SysAct} (h : CompleteInv s) (hs : s.step c b = some s')
    (hpc : s.rcv.pc ≠ .lastPush) (hbad : ¬ PushClosed s b) : ¬ ListsComplete s' := by
  unfold PushClosed at hbad
  push Not at hbad
  obtain ⟨rfl, hwhere, hopen⟩ := hbad
  have hpc' : s.rcv.pc = .namesPush := hwhere.resolve_right fun h1 => hpc h1.1
  obtain ⟨fp, hfp⟩ := Option.ne_none_iff_exists'.1 hopen
  have hd := h.base.rcv.base.data
  cases sys_cases hs with
  | @rcv _ r fs pushed _ hr hp =>
    cases hr with
    | lastPush h1 _ | dataPush h1 _ =>
      rw [hpc'] at h1
      cases h1
    | @namesPush names _ hn =>
      obtain rfl : pushed = [names] := by
        rw [List.append_cancel_left_eq] at hp
        exact hp.symm
      intro hcomplete
      have hwait := waiting_open hd (by rw [hpc']; decide) hfp
      rw [waiting_eq (by rw [hpc']; decide), hn, Option.map_some, Option.getD_some] at hwait
      obtain ⟨-, ns, hns⟩ := hd.curr (by rw [hfp]; rfl)
      have hmem : s.rcv.info.fname ∈ names.filenames := by
        rw [hwait, hns]
        simp
      have hfile := hcomplete names (Or.inl (by simp)) (hd.lists hn).type_eq _ hmem
      exact (hfile.closed fp hfp).1 rfl

/-- A file opened while a list names it is incomplete. -/
theorem open_listed_incomplete {s s' : Sys} {b : SysAct} (h : CompleteInv s) (hs : s.step c b = some s')
    (hbad : ¬ OpensUnlisted c s b) : ¬ ListsComplete s' := by
  unfold OpensUnlisted at hbad
  push Not at hbad
  obtain ⟨e, he, n₀, hn₀, n, hn, hsame⟩ := hbad
  obtain ⟨m, hm, ht, hnm⟩ := mem_listNames.1 hn
  cases sys_cases hs with
  | snd _ _ _ | main _ | starter _ => cases he
  | @rcv a r fs pushed _ hr hp =>
    obtain rfl : a = .write e := by
      cases a with
      | write e' => rw [Option.some.inj he]
      | _ => cases he
    rcases hr.opened_cases h.base.rcv.base.data with ⟨hcr, -⟩ | ⟨e', n', he', hopens, -, ho⟩
    · -- the write opens the file
      exfalso
      cases hr with
      | writeOk _ hmsg hw _ | writeFail _ hmsg hw _ =>
        have := hw.opened_eq h.base.rcv.base.data hmsg
        rw [hn₀] at this
        simp [this] at hcr
    · obtain rfl := RAct.write.inj he'
      obtain rfl : n₀ = n' := Option.some.inj (hn₀.symm.trans hopens)
      obtain ⟨fp, h1, h2, h3, -⟩ := ho.stream
      intro hcomplete
      have hin : Sys.InPlay { s with rcv := r, fs := fs, queue := s.queue ++ pushed } m :=
        hm.imp_left fun hq => List.mem_append_left _ hq
      have hfile := (hcomplete m hin ht n hnm).closed fp h1
      rcases eq_or_ne n n₀ with rfl | hne
      · exact hfile.1 ho.fname
      · obtain ⟨hex, hdir⟩ := hsame hne
        obtain ⟨i, hi⟩ := Option.ne_none_iff_exists'.1 hex
        refine hfile.2 ?_
        simp only
        rw [ho.others n hne, hi, h3 i (by rw [← hdir]; exact hi)]

/-- **Listed files are complete.** In every run in which lists are pushed only while no
file is open and no file is opened while a list names it, every file named by a list in
the queue or with the sender is closed and holds everything stored in it, and every
upload contains everything stored in the file. In such a run, a push of the list with
a file open, or the opening of a listed file, breaks this at once. -/
theorem lists_complete (c : Configure) (fs : Disk) :
    (∀ s, Reach (Sys.step c) (ListsClosed c) (Sys.init c fs) s → ListsComplete s ∧
        ∀ res s', s.snd.pc = .files → s.step c (.snd (.send res)) = some s' →
          ∃ n i, s.fs.dir n = some i ∧ (s.rcv.filedOn i).Sublist (s.fs.node i) ∧
            s'.snd.uploads = s.snd.uploads ++ [(n, s.fs.node i)]) ∧
      ∀ s b s', Reach (Sys.step c) (ListsClosed c) (Sys.init c fs) s → s.step c b = some s' →
        s.rcv.pc ≠ .lastPush → ¬ ListsClosed c s b → ¬ ListsComplete s' := by
  refine ⟨fun s h => ⟨(completeInv h).complete, fun res s' hpc hs => ?_⟩, fun s b s' h hs hpc hbad => ?_⟩
  · exact (completeInv h).upload (sys_sndInv h) hpc hs
  · unfold ListsClosed at hbad
    rw [not_and_or] at hbad
    rcases hbad with hbad | hbad
    · exact push_open_incomplete (completeInv h) hs hpc hbad
    · exact open_listed_incomplete (completeInv h) hs hbad

/-- One message is pushed, which fills a queue of one; the next is written to a file. -/
def fileDemo : List SysAct :=
  boot ++ (turn [] [1, 2] [.push true, .tau] ++ turn [] [3, 4] [.push false, .write ⟨40, true, none⟩]).map .rcv

/-- The sender takes the first message and sends it. -/
def sendDemo : List SysAct := [.snd (.pop true), .snd .tau, .snd (.send .success)]

/-- The receiver pushes the list, and the sender takes it. -/
def listDemo : List SysAct :=
  [.rcv (.select 1), .rcv .tau, .rcv (.push true), .snd (.pop true), .snd .tau, .snd .tau]

/-- A message that does not fit closes the file, and no other one can be opened: the list
is pushed with no file open. -/
def completeDemo : List SysAct :=
  fileDemo ++ (turn [.push false] (List.replicate 15 5) [.write ⟨41, false, none⟩, .tau]).map .rcv ++ sendDemo ++ listDemo

theorem completeDemo_runs : (run (guarded (Sys.step (demoConf 4097 1)) (ListsClosed (demoConf 4097 1)))
    (Sys.init (demoConf 4097 1) (Fs.empty _ _)) completeDemo).isSome := by
  decide +kernel

/-- The state before the upload. -/
def completeDemoEnd : Sys := runTo completeDemo_runs

theorem lists_complete_demo :
    completeDemoEnd.listNames = [dataName (demoConf 4097 1).path (strftime ((demoConf 4097 1).localtime 40))] ∧
      completeDemoEnd.rcv.filed.map (fun p => p.2.map Cell.val) = [[3, 4]] ∧ ListsComplete completeDemoEnd :=
  ⟨by decide +kernel, by decide +kernel, ((lists_complete (demoConf 4097 1) (Fs.empty _ _)).1 completeDemoEnd
    (reach_runTo_guarded completeDemo_runs)).1⟩

/-- The list is pushed with the file open, and the sender is faster than the receiver. -/
def incompleteDemo : List SysAct := fileDemo ++ sendDemo ++ listDemo

theorem incompleteDemo_runs : (run (Sys.step (demoConf 4097 1))
    (Sys.init (demoConf 4097 1) (Fs.empty _ _)) incompleteDemo).isSome := by
  decide +kernel

/-- The state before the upload. -/
def incompleteDemoEnd : Sys := runTo incompleteDemo_runs

theorem incompleteDemo_uploads : (incompleteDemoEnd.step (demoConf 4097 1) (.snd (.send .success))).isSome := by
  decide +kernel

/-- **An empty file is uploaded** while the bytes stored in it are in the receiver's stream. -/
theorem incomplete_upload :
    ∃ s s', Reach (Sys.step (demoConf 4097 1)) Any (Sys.init (demoConf 4097 1) (Fs.empty _ _)) s ∧
      s.step (demoConf 4097 1) (.snd (.send .success)) = some s' ∧ ¬ ListsComplete s ∧
      s.rcv.filed.map (fun p => p.2.map Cell.val) = [[3, 4]] ∧ s'.snd.uploads.map Prod.snd = [[]] := by
  refine ⟨incompleteDemoEnd, (incompleteDemoEnd.step (demoConf 4097 1) (.snd (.send .success))).get incompleteDemo_uploads,
    reach_runTo incompleteDemo_runs, (Option.some_get _).symm, fun hcomplete => ?_,
    by decide +kernel, by decide +kernel⟩
  have hm : ∃ m ∈ incompleteDemoEnd.snd.msg, m.type = 1 ∧ incompleteDemoEnd.rcv.info.fname ∈ m.filenames := by
    decide +kernel
  have hopen : incompleteDemoEnd.rcv.info.currFp.isSome := by decide +kernel
  obtain ⟨m, hm, ht, hn⟩ := hm
  obtain ⟨fp, hfp⟩ := Option.isSome_iff_exists.1 hopen
  exact ((hcomplete m (Or.inr hm) ht _ hn).closed fp hfp).1 rfl

end HookKernel
