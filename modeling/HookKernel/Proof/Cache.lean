import HookKernel.Proof.Tags

/-!
# What a failed write loses

After a failed write the receiver drops the message and takes the current file off
the list (`datafile_reset_currfile`), whether or not that file already holds earlier
messages.

* `Wrote.settled`: a write appends to the file it writes to and leaves the others.
* `cache_keeps_stored`: as long as no write fails on an open file that is listed
  once, nothing stored is lost; and a write that does so loses the messages in it.
* `stored_message_lost`: a run that does so.
-/

namespace HookKernel

open Lib

variable {c : Configure} {quit : Bool} {r r' : Rcv} {fs fs' : Disk} {a : RAct}

/-! ## Files under the cache -/

section Files

variable {lt : ℤ → Tm} {info : DatafileInfo} {m : Message} {addr : ℕ} {e : WriteEnv} {w : WriteRes} {i : ℕ}

/-- The open stream is on an allocated node. -/
def StreamOK (info : DatafileInfo) (fs : Disk) : Prop := ∀ fp, info.currFp = some fp → fp.ino < fs.next

theorem close_settled (ho : StreamOK info fs) :
    settled (closeDatafile info fs).2 none i = settled fs info.currFp i ∧ (closeDatafile info fs).2.dir = fs.dir := by
  unfold closeDatafile
  cases hfp : info.currFp with
  | none => exact ⟨rfl, rfl⟩
  | some fp => exact ⟨settled_fclose (ho fp hfp), rfl⟩

theorem rotate_settled (ho : StreamOK info fs) :
    settled (info.rotate fs m).2 (info.rotate fs m).1.currFp i = settled fs info.currFp i ∧
      (info.rotate fs m).2.dir = fs.dir := by
  unfold DatafileInfo.rotate
  split
  · exact close_settled ho
  · exact ⟨rfl, rfl⟩

theorem writeCurr_settled (info : DatafileInfo) (fp : Stream Cell) (fs : Disk) (m : Message)
    (fwrite : Option ℕ) (o : Option Name) (i : ℕ) :
    settled (writeCurr info fp fs m fwrite o).fs (writeCurr info fp fs m fwrite o).info.currFp i =
      settled fs (some fp) i ++
        if (writeCurr info fp fs m fwrite o).info.currFp.map Stream.ino = some i
          then (writeCurr info fp fs m fwrite o).wrote else [] := by
  rw [writeCurr_fs, writeCurr_currFp, settled_fwrite]
  simp

/-- **A write appends to the file it writes to**, and changes no other. -/
theorem Wrote.settled (h : Wrote lt info fs m addr e w) (ho : StreamOK info fs) (i : ℕ) :
    settled w.fs w.info.currFp i =
      settled fs info.currFp i ++ if w.info.currFp.map Stream.ino = some i then w.wrote else [] := by
  cases h with
  | full _ _ => simp
  | @same fp _ hfp => rw [writeCurr_settled, hfp]
  | noFile hclosed _ =>
    have h1 := (rotate_settled (m := m) (i := i) ho).1
    rw [hclosed] at h1
    simp [h1]
  | new hclosed _ _ _ _ =>
    have h1 := (rotate_settled (m := m) (i := i) ho).1
    rw [hclosed] at h1
    rw [writeCurr_settled, settled_fopen, h1]

/-- A write moves no name. -/
theorem Wrote.dir (h : Wrote lt info fs m addr e w) (ho : StreamOK info fs) {n : Name}
    (hn : fs.dir n = some i) : w.fs.dir n = some i := by
  have hrot := (rotate_settled (m := m) (i := i) ho).2
  cases h with
  | full _ _ => exact hn
  | @same fp _ _ =>
    rw [writeCurr_fs]
    exact hn
  | noFile _ _ =>
    rw [hrot]
    exact hn
  | @new buf names info' _ _ _ _ _ =>
    rw [writeCurr_fs]
    exact fopen_dir_of_some (by rw [hrot]; exact hn)

theorem close_grows (info : DatafileInfo) (fs : Disk) : fs.Grows (closeDatafile info fs).2 := by
  unfold closeDatafile
  cases info.currFp with
  | none => exact .refl fs
  | some fp => exact .append fs _ _

theorem rotate_grows (info : DatafileInfo) (fs : Disk) (m : Message) : fs.Grows (info.rotate fs m).2 := by
  unfold DatafileInfo.rotate
  split
  · exact close_grows info fs
  · exact .refl fs

theorem Wrote.grows (h : Wrote lt info fs m addr e w) : fs.Grows w.fs := by
  cases h with
  | full _ _ => exact .refl fs
  | @same fp _ _ =>
    rw [writeCurr_fs]
    exact .refl fs
  | noFile _ _ => exact rotate_grows info fs m
  | @new buf names info' _ _ _ _ _ =>
    rw [writeCurr_fs]
    exact (rotate_grows info fs m).trans (.fopen _ _)

/-- The file a write has open is the one it opened, or the one that was open. -/
theorem Wrote.stream (h : Wrote lt info fs m addr e w) {fp : Stream Cell} (hfp : w.info.currFp = some fp) :
    (w.fs.dir w.info.fname = some fp.ino) ∨
      (w.fs = fs ∧ w.info.fname = info.fname ∧ ∃ fp₀, info.currFp = some fp₀ ∧ fp.ino = fp₀.ino) := by
  cases h with
  | full _ _ => exact Or.inr ⟨rfl, rfl, fp, hfp, rfl⟩
  | @same fp₀ _ hfp₀ =>
    rw [writeCurr_currFp, Option.some.injEq] at hfp
    refine Or.inr ⟨writeCurr_fs _ _ _ _ _ _, by rw [fname_eq, writeCurr_currFname]; rfl, fp₀, hfp₀, ?_⟩
    rw [← hfp]
    rfl
  | noFile _ _ => cases hfp
  | @new buf names info' _ _ _ hinfo _ =>
    rw [writeCurr_currFp, Option.some.injEq] at hfp
    rw [writeCurr_fs, fname_eq, writeCurr_currFname, hinfo, ← hfp]
    exact Or.inl (fopen_dir _ _)

end Files

/-- **What a step of the receiver does to the files**: they grow, no name moves, what is
written stays written, and an open stream is new or the one that was open. -/
structure FilesStep (r : Rcv) (fs : Disk) (r' : Rcv) (fs' : Disk) : Prop where
  grows : fs.Grows fs'
  dir : ∀ n i, fs.dir n = some i → fs'.dir n = some i
  settled : ∀ i, settled fs r.info.currFp i <+: settled fs' r'.info.currFp i
  stream : ∀ fp', r'.info.currFp = some fp' → fs'.dir r'.info.fname = some fp'.ino ∨
    ∃ fp, r.info.currFp = some fp ∧ fp'.ino = fp.ino ∧ r'.info.fname = r.info.fname

theorem FilesStep.streamOK (h : FilesStep r fs r' fs') (ho : StreamOK r.info fs) : StreamOK r'.info fs' := by
  intro fp' hfp'
  rcases h.stream fp' hfp' with h1 | ⟨fp, h1, h2, -⟩
  · exact fs'.dir_lt _ _ h1
  · rw [h2]
    exact Nat.lt_of_lt_of_le (ho fp h1) h.grows.next

/-- Neither the files nor the stream change. -/
theorem FilesStep.same (h : r'.info = r.info) : FilesStep r fs r' fs :=
  ⟨.refl fs, fun _ _ hi => hi, fun i => by rw [h], fun fp' hfp' => Or.inr ⟨fp', by rw [← h]; exact hfp', rfl, by rw [h]⟩⟩

theorem FilesStep.closed (ho : StreamOK r.info fs) (hclosed : r'.info.currFp = none)
    (hfs : fs' = (closeDatafile r.info fs).2) : FilesStep r fs r' fs' := by
  refine ⟨?_, fun n i hi => ?_, fun i => ?_, fun fp' hfp' => ?_⟩
  · rw [hfs]
    exact close_grows r.info fs
  · rw [hfs, (close_settled (i := i) ho).2]
    exact hi
  · rw [hclosed, hfs, (close_settled ho).1]
  · rw [hclosed] at hfp'
    cases hfp'

theorem Wrote.files {m : Message} {e : WriteEnv} {w : WriteRes} (hw : Wrote c.localtime r.info fs m r.fresh e w)
    (ho : StreamOK r.info fs) (hinfo : r'.info = w.info) : FilesStep r fs r' w.fs := by
  refine ⟨hw.grows, fun n i hi => hw.dir ho hi, fun i => ?_, fun fp' hfp' => ?_⟩
  · rw [hinfo, hw.settled ho]
    exact List.prefix_append _ _
  · rw [hinfo] at hfp' ⊢
    rcases hw.stream hfp' with h1 | ⟨-, h2, fp, h3, h4⟩
    · exact Or.inl h1
    · exact Or.inr ⟨fp, h3, h4, h2⟩

/-- What `datafile_reset_currfile` does to the files is what `close_datafile` does. -/
theorem reset_files {info info' : DatafileInfo} (h : datafileResetCurrfile info fs = some (info', fs')) :
    info'.currFp = none ∧ fs' = (closeDatafile info fs).2 := by
  unfold datafileResetCurrfile at h
  split at h
  · obtain ⟨rfl, rfl⟩ := Prod.mk.inj (Option.some.inj h)
    exact ⟨rfl, rfl⟩
  · split at h
    · cases h
    · obtain ⟨rfl, rfl⟩ := Prod.mk.inj (Option.some.inj h)
      exact ⟨rfl, rfl⟩

theorem RStep.files (h : RStep c quit r fs a r' fs') (ho : StreamOK r.info fs) : FilesStep r fs r' fs' := by
  cases h with
  | detach _ => exact .closed ho rfl rfl
  | writeOk _ _ hw _ | writeFail _ _ hw _ => exact hw.files ho rfl
  | drop _ hreset =>
    obtain ⟨h1, h2⟩ := reset_files hreset
    exact .closed ho h1 h2
  | @reach k fp hfp =>
    refine ⟨.append fs _ _, fun n i hi => hi, fun i => ?_, fun fp' hfp' => ?_⟩
    · rw [hfp]
      simp only
      rw [settled_flush (ho fp hfp)]
    · obtain rfl := Option.some.inj hfp'
      exact Or.inr ⟨fp, hfp, rfl, rfl⟩
  | @flush m _ _ => exact .same (stepFlush_fields r m).1
  | _ => exact .same rfl

/-! ## The invariant -/

/-- The names that stay on the list: at a drop, the current file is taken off. -/
def Rcv.keptNames (r : Rcv) : List Name :=
  if r.pc = .drop ∧ r.info.currFp.isSome then r.info.listed.dropLast else r.info.listed

/-- The messages written to files and not handed over. -/
def Rcv.cached (r : Rcv) : List (Name × List Cell) := r.stored.drop r.handed

/-- **The files of everything cached stay listed**, and an open file has been used. -/
structure ListedInv (r : Rcv) : Prop where
  base : RInv r
  handed : r.handed ≤ r.stored.length
  kept : ∀ p ∈ r.cached, p.1 ∈ r.keptNames
  used : r.pc ≠ .drop → r.pc ≠ .detach → r.info.currFp.isSome → ∃ bs, (r.info.fname, bs) ∈ r.cached
  gone : r.pc = .detach → r.cached = []

/-- **Everything stored is in its file**, once the open stream is flushed. -/
structure DiskInv (r : Rcv) (fs : Disk) : Prop where
  stream : ∀ fp, r.info.currFp = some fp → fs.dir r.info.fname = some fp.ino
  held : ∀ p ∈ r.stored, ∃ i, fs.dir p.1 = some i ∧ p.2 <:+: settled fs r.info.currFp i

theorem DiskInv.streamOK (h : DiskInv r fs) : StreamOK r.info fs :=
  fun fp hfp => fs.dir_lt _ _ (h.stream fp hfp)

/-- A write that finds a file open which is listed once neither finds the cache full nor
fails to write into that file. -/
def WriteSafe (r : Rcv) (e : WriteEnv) : Prop :=
  ∀ m, r.msg = some m → r.info.currFp.isSome → r.info.fname ∉ r.info.listed.dropLast →
    if r.info.over m then r.info.fileCount < r.info.maxFcnt else e.fwrite = none

instance (r : Rcv) (e : WriteEnv) : Decidable (WriteSafe r e) :=
  match h : r.msg with
  | none => isTrue fun m hm => by rw [h] at hm; cases hm
  | some m => decidable_of_iff (r.info.currFp.isSome → (∀ n ∈ r.info.listed.dropLast, ¬ r.info.fname = n) →
      if r.info.over m then r.info.fileCount < r.info.maxFcnt else e.fwrite = none)
      ⟨fun hm m' hm' hopen hnot => by
        rw [h, Option.some.injEq] at hm'; rw [← hm']; exact hm hopen (List.forall_mem_ne.2 hnot),
        fun hm hopen hnot => hm m h hopen (List.forall_mem_ne.1 hnot)⟩

/-! ## Steps -/

/-- Nothing that the invariant reads has changed. -/
theorem ListedInv.move (h : ListedInv r) (hb : RInv r') (hpc : r.pc ≠ .drop ∧ r.pc ≠ .detach)
    (hpc' : r'.pc ≠ .drop ∧ r'.pc ≠ .detach) (hinfo : r'.info = r.info) (hs : r'.stored = r.stored ∧ r'.handed = r.handed) :
    ListedInv r' := by
  have hk : r.keptNames = r.info.listed := by
    unfold Rcv.keptNames
    rw [if_neg (by simp [hpc.1])]
  have hk' : r'.keptNames = r'.info.listed := by
    unfold Rcv.keptNames
    rw [if_neg (by simp [hpc'.1])]
  have hc : r'.cached = r.cached := by
    unfold Rcv.cached
    rw [hs.1, hs.2]
  refine ⟨hb, by rw [hs.1, hs.2]; exact h.handed, ?_, fun _ _ ho => ?_, fun hd => absurd hd hpc'.2⟩
  · rw [hc, hk', hinfo, ← hk]
    exact h.kept
  · rw [hc, hinfo]
    exact h.used hpc.1 hpc.2 (by rw [← hinfo]; exact ho)

theorem keptNames_of_ne (h : r.pc ≠ .drop) : r.keptNames = r.info.listed := by
  unfold Rcv.keptNames
  rw [if_neg (by simp [h])]

/-- A name that stays when the last one is taken off. -/
theorem mem_dropLast_of {ns : List Name} {n x : Name} (hx : x ∈ ns ++ [n]) (hn : n ∈ (ns ++ [n]).dropLast) :
    x ∈ (ns ++ [n]).dropLast := by
  rw [List.dropLast_concat] at hn ⊢
  rcases List.mem_append.1 hx with hx | hx
  · exact hx
  · rw [List.mem_singleton.1 hx]
    exact hn

/-- **A safe write that fails keeps the listed names.** -/
theorem Wrote.fail_keeps {m : Message} {e : WriteEnv} {w : WriteRes} (hw : Wrote c.localtime r.info fs m r.fresh e w)
    (hd : DInv r.info) (hm : r.msg = some m) (hok : w.ok = false) (hsafe : WriteSafe r e) {n : Name}
    (hl : n ∈ r.info.listed) : n ∈ if w.info.currFp.isSome then w.info.listed.dropLast else w.info.listed := by
  have hlisted := (hw.dinv hd).2
  -- the open file stays listed, because it is listed twice
  have twice : r.info.currFp.isSome →
      ¬ (if r.info.over m then r.info.fileCount < r.info.maxFcnt else e.fwrite = none) →
      n ∈ r.info.listed.dropLast := by
    intro hopen hbad
    obtain ⟨-, ns, hns⟩ := hd.curr hopen
    have hin : r.info.fname ∈ r.info.listed.dropLast := by
      by_contra hno
      exact hbad (hsafe m hm hopen hno)
    rw [hns] at hl hin ⊢
    exact mem_dropLast_of hl hin
  cases hw with
  | full hcount hover =>
    split
    · rename_i hopen
      exact twice hopen (by rw [if_pos hover]; omega)
    · exact hl
  | @same fp hover hfp =>
    have hl' : (writeCurr r.info fp fs m e.fwrite none).info.listed = r.info.listed :=
      listed_congr (writeCurr_namesMsg ..)
    rw [writeCurr_currFp, hl', Option.isSome_some, if_pos rfl]
    refine twice (by rw [hfp]; rfl) ?_
    rw [hover]
    intro hnone
    simp only [Bool.false_eq_true, if_false] at hnone
    rw [hnone] at hok
    cases hok
  | noFile _ _ =>
    rw [if_neg (by simp), hlisted]
    exact List.mem_append_left _ hl
  | @new buf names info' _ _ _ _ _ =>
    rw [writeCurr_currFp, Option.isSome_some, if_pos rfl, hlisted, writeCurr_opened, Option.toList_some,
      List.dropLast_concat]
    exact hl

/-- **One step keeps the cached files listed**, if it is not an unsafe write. -/
theorem ListedInv.step (h : ListedInv r) (hs : RStep c quit r fs a r' fs')
    (hsafe : ∀ e, a = .write e → WriteSafe r e) : ListedInv r' := by
  have hb := hs.inv h.base
  have hd := h.base.data
  cases hs with
  | selectErr _ _ => exact h
  | @select n hpc _ =>
    refine h.move hb (by simp [hpc]) ?_ rfl ⟨rfl, rfl⟩
    by_cases hn : n = 0 <;> simp [hn]
  | goOn hpc _ => exact h.move hb (by simp [hpc]) (by simp) rfl ⟨rfl, rfl⟩
  | quitPush hpc _ _ _ => exact h.move hb (by simp [hpc]) (by simp) rfl ⟨rfl, rfl⟩
  | quitDone hpc _ _ => exact h.move hb (by simp [hpc]) (by simp) rfl ⟨rfl, rfl⟩
  | lastPush hpc _ => exact h.move hb (by simp [hpc]) (by simp) rfl ⟨rfl, rfl⟩
  | lastLog hpc => exact h.move hb (by simp [hpc]) (by simp) rfl ⟨rfl, rfl⟩
  | keep hpc _ =>
    refine h.move hb (by simp [hpc]) ?_ rfl ⟨rfl, rfl⟩
    unfold Rcv.afterReady
    split <;> simp
  | alloc hpc _ _ =>
    refine h.move hb (by simp [hpc]) ?_ rfl ⟨rfl, rfl⟩
    unfold Rcv.afterReady
    split <;> simp
  | namesPush hpc _ =>
    -- everything stored is handed over
    have hnil : r.stored.drop r.stored.length = [] := List.drop_length
    refine ⟨hb, le_rfl, ?_, fun _ hne => absurd rfl hne, fun _ => hnil⟩
    intro p hp
    unfold Rcv.cached at hp
    rw [hnil] at hp
    cases hp
  | namesFail hpc => exact h.move hb (by simp [hpc]) (by simp) rfl ⟨rfl, rfl⟩
  | detach hpc =>
    have hnil := h.gone hpc
    refine ⟨hb, h.handed, ?_, fun _ _ ho => (by cases ho), fun hd => (by cases hd)⟩
    intro p hp
    unfold Rcv.cached at hp hnil
    rw [hnil] at hp
    cases hp
  | recvErr hpc _ => exact h.move hb (by simp [hpc]) (by simp) rfl ⟨rfl, rfl⟩
  | recv hpc _ _ _ => exact h.move hb (by simp [hpc]) (by simp) rfl ⟨rfl, rfl⟩
  | noRecv hpc => exact h.move hb (by simp [hpc]) (by simp) rfl ⟨rfl, rfl⟩
  | @flush m hpc _ =>
    obtain ⟨h1, -, -, -, -, -, -, h2, h3⟩ := stepFlush_fields r m
    have hcalm := calm_of (stepFlush_calm r m)
    exact h.move hb (by simp [hpc]) ⟨hcalm.2.2.1, hcalm.1⟩ h1 ⟨h2, h3⟩
  | dataPush hpc _ => exact h.move hb (by simp [hpc]) (by simp) rfl ⟨rfl, rfl⟩
  | dataFail hpc => exact h.move hb (by simp [hpc]) (by simp) rfl ⟨rfl, rfl⟩
  | dataLog hpc => exact h.move hb (by simp [hpc]) (by simp) rfl ⟨rfl, rfl⟩
  | @writeOk m e w hpc hm hw hok =>
    have hcached : (r.stored ++ [(w.info.fname, m.bytes)]).drop r.handed = r.cached ++ [(w.info.fname, m.bytes)] :=
      List.drop_append_of_le_length h.handed
    obtain ⟨hd', hlisted⟩ := hw.dinv hd
    refine ⟨hb, ?_, ?_, fun _ _ _ => ⟨m.bytes, ?_⟩, fun hd => by cases hd⟩
    · have := h.handed
      simp only [List.length_append, List.length_singleton]
      omega
    · intro p hp
      unfold Rcv.cached at hp
      rw [hcached] at hp
      rw [keptNames_of_ne (by simp)]
      rcases List.mem_append.1 hp with hp | hp
      · have := h.kept p hp
        rw [keptNames_of_ne (by rw [hpc]; decide)] at this
        rw [hlisted]
        exact List.mem_append_left _ this
      · obtain ⟨-, ns, hns⟩ := hd'.curr (hw.open_of_ok hok)
        rw [List.mem_singleton.1 hp, hns]
        simp
    · unfold Rcv.cached
      rw [hcached]
      simp
  | @writeFail m e w hpc hm hw hok =>
    refine ⟨hb, h.handed, ?_, fun hne => absurd rfl hne, fun hd => by cases hd⟩
    intro p hp
    have hl := h.kept p hp
    rw [keptNames_of_ne (by rw [hpc]; decide)] at hl
    have := hw.fail_keeps hd hm hok (hsafe e rfl) hl
    unfold Rcv.keptNames
    simpa using this
  | @drop info' fs' hpc hreset =>
    obtain ⟨-, hclosed, hlisted⟩ := reset_dinv hd hreset
    refine ⟨hb, h.handed, ?_, fun _ _ ho => ?_, fun hd => by cases hd⟩
    · intro p hp
      have := h.kept p hp
      rw [keptNames_of_ne (by simp)]
      unfold Rcv.keptNames at this
      rw [hlisted]
      simpa [hpc] using this
    · simp only [hclosed] at ho
      cases ho
  | reach hfp =>
    have hsome : r.info.currFp.isSome := by rw [hfp]; rfl
    refine ⟨hb, h.handed, ?_, fun h1 h2 _ => h.used h1 h2 hsome, h.gone⟩
    intro p hp
    have := h.kept p hp
    unfold Rcv.keptNames at this ⊢
    simp only [hsome, and_true, Option.isSome_some] at this ⊢
    exact this

/-- The open stream belongs to the current name. -/
theorem DiskInv.named (h : DiskInv r fs) (hf : FilesStep r fs r' fs') :
    ∀ fp, r'.info.currFp = some fp → fs'.dir r'.info.fname = some fp.ino := by
  intro fp hfp
  rcases hf.stream fp hfp with h1 | ⟨fp₀, h1, h2, h3⟩
  · exact h1
  · rw [h2, h3]
    exact hf.dir _ _ (h.stream fp₀ h1)

/-- What was stored stays in its file. -/
theorem DiskInv.held_files (h : DiskInv r fs) (hf : FilesStep r fs r' fs') {p : Name × List Cell}
    (hp : p ∈ r.stored) : ∃ i, fs'.dir p.1 = some i ∧ p.2 <:+: settled fs' r'.info.currFp i := by
  obtain ⟨i, hi, hin⟩ := h.held p hp
  exact ⟨i, hf.dir _ _ hi, hin.trans (hf.settled i).isInfix⟩

/-- **One step of the receiver leaves everything stored in its file.** -/
theorem DiskInv.step (h : DiskInv r fs) (hs : RStep c quit r fs a r' fs') : DiskInv r' fs' := by
  have hf := hs.files h.streamOK
  refine ⟨h.named hf, ?_⟩
  cases hs with
  | @writeOk m e w _ _ hw hok =>
    intro p hp
    rcases List.mem_append.1 hp with hp | hp
    · exact h.held_files hf hp
    · obtain ⟨fp, hfp⟩ := Option.isSome_iff_exists.1 (hw.open_of_ok hok)
      rw [List.mem_singleton.1 hp]
      refine ⟨fp.ino, h.named hf fp hfp, ?_⟩
      simp only
      rw [hw.settled h.streamOK, hfp, hw.wrote_le.2 hok]
      simp only [Option.map_some, if_true]
      exact (List.suffix_append _ _).isInfix
  | @flush m _ _ =>
    rw [stepFlush_eq] at hf ⊢
    exact fun p hp => h.held_files hf hp
  | _ => exact fun p hp => h.held_files hf hp

/-! ## Runs -/

/-- The outcomes of the library calls, if the action is a write. -/
def RAct.writeEnv : RAct → Option WriteEnv
  | .write e => some e
  | _ => none

def RSysAct.writeEnv : RSysAct → Option WriteEnv
  | .rcv a => a.writeEnv
  | .notify => none

/-- If it is a write, it is a safe one. -/
def WritesSafe (s : RSys) (a : RSysAct) : Prop := ∀ e ∈ a.writeEnv, WriteSafe s.rcv e

instance (s : RSys) (a : RSysAct) : Decidable (WritesSafe s a) :=
  inferInstanceAs (Decidable (∀ e ∈ a.writeEnv, WriteSafe s.rcv e))

/-- Everything written to files and not handed over is in a file on the list. -/
def CacheKept (s : RSys) : Prop :=
  ∀ p ∈ s.rcv.cached, p.1 ∈ s.rcv.info.listed ∧ p.2 <:+: s.fs.content p.1

theorem cache_inv {s : RSys} (h : Reach (RSys.step c) WritesSafe (RSys.init c fs) s) :
    ListedInv s.rcv ∧ DiskInv s.rcv s.fs := by
  refine h.inv (I := fun s => ListedInv s.rcv ∧ DiskInv s.rcv s.fs) ⟨?_, ?_⟩ ?_
  · refine ⟨rinv_init c, le_rfl, fun p hp => ?_, fun _ _ ho => ?_, fun hd => ?_⟩
    · cases hp
    · cases ho
    · cases hd
  · exact ⟨fun fp hfp => (by cases hfp), fun p hp => (by cases hp)⟩
  · rintro s a s' ⟨hl, hd⟩ hc hs
    cases a with
    | notify =>
      obtain rfl := Option.some.inj hs
      exact ⟨hl, hd⟩
    | rcv a =>
      obtain ⟨hstep, -⟩ := rsys_step_rcv hs
      refine ⟨hl.step hstep fun e he => ?_, hd.step hstep⟩
      subst he
      exact hc e rfl

/-- The state after a drop. -/
theorem rsys_drop {s s' : RSys} (hpc : s.rcv.pc = .drop) (h : s.step c (.rcv .tau) = some s') :
    ∃ info', datafileResetCurrfile s.rcv.info s.fs = some (info', s'.fs) ∧
      s'.rcv = { s.rcv with pc := .select, msg := none, info := info'
                            dropped := s.rcv.dropped ++ (s.rcv.msg.map Message.bytes).getD [] } := by
  obtain ⟨hstep, -⟩ := rsys_step_rcv h
  generalize hr : s'.rcv = r' at hstep ⊢
  generalize s'.fs = fs' at hstep ⊢
  cases hstep with
  | drop _ hreset => exact ⟨_, hreset, rfl⟩
  | goOn h1 _ | quitPush h1 _ _ _ | quitDone h1 _ _ | lastLog h1 | keep h1 _ | alloc h1 _ _ | detach h1
  | noRecv h1 | flush h1 _ | dataLog h1 => rw [hpc] at h1; cases h1

/-- An unsafe write fails, and leaves the open file for the drop to take off the list. -/
theorem Wrote.unsafe_write {lt : ℤ → Tm} {info : DatafileInfo} {m : Message} {addr : ℕ} {e : WriteEnv}
    {w : WriteRes} (hw : Wrote lt info fs m addr e w) (hopen : info.currFp.isSome)
    (hbad : ¬ if info.over m then info.fileCount < info.maxFcnt else e.fwrite = none) :
    w.ok = false ∧ w.info.currFp.isSome ∧ w.info.listed = info.listed ∧ w.info.fname = info.fname := by
  have hrot : ¬ (info.fileCount ≥ info.maxFcnt ∧ info.over m = true) → info.over m = false := by
    intro hfull
    by_contra hov
    rw [Bool.not_eq_false] at hov
    rw [if_pos hov] at hbad
    exact hfull ⟨by omega, hov⟩
  cases hw with
  | full _ _ => exact ⟨rfl, hopen, rfl, rfl⟩
  | @same fp hov _ =>
    rw [hov, if_neg (by simp)] at hbad
    obtain ⟨k, hk⟩ := Option.ne_none_iff_exists'.1 hbad
    rw [hk]
    exact ⟨rfl, rfl, rfl, rfl⟩
  | noFile hclosed hfull | new hclosed hfull _ _ _ =>
    rcases rotate_closed.1 hclosed with hnone | hover
    · rw [hnone] at hopen
      cases hopen
    · rw [hrot hfull] at hover
      cases hover

/-- **A failed write loses only the message it drops**, in every run whose writes are
safe: after each drop everything cached is in a listed file. After an unsafe write
and its drop something cached is not. -/
theorem cache_keeps_stored (c : Configure) (fs : Disk) :
    (∀ s s', Reach (RSys.step c) WritesSafe (RSys.init c fs) s → s.rcv.pc = .drop →
        s.step c (.rcv .tau) = some s' → CacheKept s') ∧
      ∀ s s₁ s₂ e, Reach (RSys.step c) WritesSafe (RSys.init c fs) s →
        s.step c (.rcv (.write e)) = some s₁ → ¬ WriteSafe s.rcv e → s₁.step c (.rcv .tau) = some s₂ →
        ¬ CacheKept s₂ := by
  refine ⟨fun s s' h hpc hs => ?_, fun s s₁ s₂ e h hw hbad hs => ?_⟩
  · have hinv := cache_inv (h.next (a := .rcv .tau) (fun e he => by cases he) hs)
    obtain ⟨info', hreset, hr⟩ := rsys_drop hpc hs
    obtain ⟨-, hclosed, -⟩ := reset_dinv (cache_inv h).1.base.data hreset
    intro p hp
    have h1 := hinv.1.kept p hp
    rw [keptNames_of_ne (by rw [hr]; simp)] at h1
    obtain ⟨i, hi, hin⟩ := hinv.2.held p (List.mem_of_mem_drop hp)
    have hfp : s'.rcv.info.currFp = none := by rw [hr]; exact hclosed
    refine ⟨h1, ?_⟩
    unfold Fs.content
    rw [hi]
    rw [hfp] at hin
    simpa [settled] using hin
  · have hinv := (cache_inv h).1
    have hd := hinv.base.data
    unfold WriteSafe at hbad
    push Not at hbad
    obtain ⟨m, hm, hopen, hno, hbad⟩ := hbad
    obtain ⟨hstep, -⟩ := rsys_step_rcv hw
    -- the write fails on the open file
    obtain ⟨hpc, w, hwr, hr₁⟩ : s.rcv.pc = .write ∧ ∃ w, Wrote c.localtime s.rcv.info s.fs m s.rcv.fresh e w ∧
        (w.ok = false → s₁.rcv.pc = .drop ∧ s₁.rcv.info = w.info ∧ s₁.rcv.cached = s.rcv.cached) := by
      generalize s₁.rcv = r₁ at hstep ⊢
      generalize s₁.fs = fs₁ at hstep
      cases hstep with
      | writeOk hpc hm' hwr hok =>
        obtain rfl := Option.some.inj (hm.symm.trans hm')
        exact ⟨hpc, _, hwr, fun hf => by rw [hok] at hf; cases hf⟩
      | writeFail hpc hm' hwr _ =>
        obtain rfl := Option.some.inj (hm.symm.trans hm')
        exact ⟨hpc, _, hwr, fun _ => ⟨rfl, rfl, rfl⟩⟩
    obtain ⟨hok, hopen₁, hlisted₁, hname₁⟩ := hwr.unsafe_write hopen hbad
    obtain ⟨hpc₁, hinfo₁, hcached₁⟩ := hr₁ hok
    obtain ⟨bs, hbs⟩ := hinv.used (by rw [hpc]; decide) (by rw [hpc]; decide) hopen
    -- and the drop takes its name off the list
    obtain ⟨info', hreset, hr₂⟩ := rsys_drop hpc₁ hs
    rw [hinfo₁] at hreset
    obtain ⟨-, -, hlisted₂⟩ := reset_dinv (hwr.dinv hd).1 hreset
    rw [if_pos hopen₁, hlisted₁] at hlisted₂
    intro hkept
    have hmem : (s.rcv.info.fname, bs) ∈ s₂.rcv.cached := by
      rw [hr₂]
      rw [← hcached₁] at hbs
      exact hbs
    have h1 := (hkept _ hmem).1
    rw [hr₂] at h1
    simp only [hlisted₂] at h1
    exact hno h1

/-- One message is pushed, which fills a queue of one; the next is written to a file; the
write of the third fails. -/
def cacheDemo : List RSysAct :=
  (turn [] [1, 2] [.push true, .tau] ++
    turn [] [3, 4] [.push false, .write ⟨40, true, none⟩] ++
    turn [.push false] [5] [.write ⟨41, true, some 0⟩]).map .rcv

theorem cacheDemo_runs :
    (run (RSys.step (demoConf 4097 1)) (RSys.init (demoConf 4097 1) (Fs.empty _ _)) cacheDemo).isSome := by
  decide +kernel

/-- The state before the drop. -/
def cacheDemoFail : RSys := runTo cacheDemo_runs

theorem cacheDemo_drops : (cacheDemoFail.step (demoConf 4097 1) (.rcv .tau)).isSome := by
  decide +kernel

/-- The state after it. -/
def cacheDemoEnd : RSys := (cacheDemoFail.step (demoConf 4097 1) (.rcv .tau)).get cacheDemo_drops

/-- **A stored message is lost with the dropped one**: after this run the message `[3, 4]`
is in no listed file. -/
theorem stored_message_lost :
    ∃ s s', Reach (RSys.step (demoConf 4097 1)) Any (RSys.init (demoConf 4097 1) (Fs.empty _ _)) s ∧
      s.rcv.pc = .drop ∧ s.step (demoConf 4097 1) (.rcv .tau) = some s' ∧ ¬ CacheKept s' := by
  refine ⟨cacheDemoFail, cacheDemoEnd, reach_runTo cacheDemo_runs, by decide +kernel,
    (Option.some_get cacheDemo_drops).symm, fun hkept => ?_⟩
  have hlost : ∃ p ∈ cacheDemoEnd.rcv.cached, p.2.map Cell.val = [3, 4] ∧ p.1 ∉ cacheDemoEnd.rcv.info.listed := by
    decide +kernel
  obtain ⟨p, hp, -, hno⟩ := hlost
  exact hno (hkept p hp).1

/-- The same with a rotation: the new file cannot be opened, and the stored message stays. -/
def rotateDemo : List RSysAct :=
  (turn [] [1, 2] [.push true, .tau] ++
    turn [] [3, 4] [.push false, .write ⟨40, true, none⟩] ++
    turn [.push false] (List.replicate 15 5) [.write ⟨41, false, none⟩]).map .rcv

theorem rotateDemo_runs : (run (guarded (RSys.step (demoConf 4097 1)) WritesSafe)
    (RSys.init (demoConf 4097 1) (Fs.empty _ _)) rotateDemo).isSome := by
  decide +kernel

/-- The state before the drop. -/
def rotateDemoFail : RSys := runTo rotateDemo_runs

theorem rotateDemo_drops : (rotateDemoFail.step (demoConf 4097 1) (.rcv .tau)).isSome := by
  decide +kernel

/-- The state after it. -/
def rotateDemoEnd : RSys := (rotateDemoFail.step (demoConf 4097 1) (.rcv .tau)).get rotateDemo_drops

theorem cache_keeps_stored_demo :
    rotateDemoEnd.rcv.cached.map (fun p => p.2.map Cell.val) = [[3, 4]] ∧ CacheKept rotateDemoEnd :=
  ⟨by decide +kernel, (cache_keeps_stored (demoConf 4097 1) (Fs.empty _ _)).1 rotateDemoFail rotateDemoEnd
    (reach_runTo_guarded rotateDemo_runs) (by decide +kernel)
    (Option.some_get rotateDemo_drops).symm⟩

end HookKernel
