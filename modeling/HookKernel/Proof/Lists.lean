import HookKernel.Proof.Cache
import HookKernel.Proof.Ownership

/-!
# Name lists on their way to the sender

What holds of every message of type 1 from its push to its release, and of the files
that both workers append to.

* `filenames_forward`: the consumer loop goes through the names one by one.
* `ListInv`: every name on a list was created by the receiver, and every message stored
  is in its file once the open stream is flushed.
* `ListInv.step`: every step of the process keeps it. A last message of type 1 has to be
  excused, because it is not a list.
-/

namespace HookKernel

open Lib

variable {c : Configure} {quit : Bool} {r r' : Rcv} {fs fs' : Disk} {a : RAct}

/-! ## The consumer loop -/

theorem visited_nil {m : Message} (h : m.filename = []) : ∀ fuel, m.visited fuel = []
  | 0 => rfl
  | fuel + 1 => by rw [Message.visited, if_pos h]

theorem visited_succ {m : Message} (h : m.filename ≠ []) (fuel : ℕ) :
    m.visited (fuel + 1) = m.filename :: (messgeFilenameForward m).visited fuel := by
  rw [Message.visited, if_neg h]

/-- `messge_filename_forward` leaves a shorter list, or an empty first name. -/
theorem forward_shorter {m : Message} (ht : m.type = 1) (hl : 0 ≤ m.len) (hne : m.filename ≠ []) :
    (messgeFilenameForward m).type = 1 ∧ 0 ≤ (messgeFilenameForward m).len ∧
      ((messgeFilenameForward m).filename = [] ∨ (messgeFilenameForward m).len.toNat < m.len.toNat) ∧
      (messgeFilenameForward m).len.toNat ≤ m.len.toNat := by
  have hpos : 0 < m.filename.length := List.length_pos_of_ne_nil hne
  unfold messgeFilenameForward
  simp only [ht, if_true]
  by_cases h : m.len > (m.filename.length : ℤ) + 1
  · -- the names behind the first one move to the front
    rw [if_pos h]
    refine ⟨rfl, by simp only; omega, Or.inr ?_, ?_⟩ <;> simp only <;> omega
  · rw [if_neg h]
    -- it was the last name, and the buffer now starts with a NUL
    refine ⟨rfl, Int.le_refl 0, Or.inl ?_, Nat.zero_le _⟩
    unfold Message.filename
    rw [show cstr Cell.nul (overwrite m.data 0 [Cell.text 0]) = [] from cstr_terminated rfl _]
    rfl

/-- Fuel beyond the length of the list changes nothing. -/
theorem visited_fuel : ∀ (fuel : ℕ) {m : Message}, m.type = 1 → 0 ≤ m.len → m.len.toNat < fuel →
    m.visited (fuel + 1) = m.visited fuel := by
  intro fuel
  induction fuel with
  | zero => intro m _ _ h; exact absurd h (Nat.not_lt_zero _)
  | succ fuel ih =>
    intro m ht hl hlt
    by_cases hne : m.filename = []
    · rw [visited_nil hne, visited_nil hne]
    · obtain ⟨ht', hl', hor, -⟩ := forward_shorter ht hl hne
      rw [visited_succ hne, visited_succ hne]
      congr 1
      rcases hor with h | h
      · rw [visited_nil h, visited_nil h]
      · exact ih ht' hl' (by omega)

theorem length_forward {m : Message} (hle : m.len ≤ m.data.length) (hne : m.filename ≠ []) :
    (messgeFilenameForward m).data.length = m.data.length := by
  have hpos : 0 < m.data.length := by
    rcases Nat.eq_zero_or_pos m.data.length with h | h
    · have hnil : m.data = [] := List.length_eq_zero_iff.1 h
      exact absurd (by unfold Message.filename; rw [hnil]; rfl) hne
    · exact h
  unfold messgeFilenameForward
  simp only
  split
  · split
    · refine length_overwrite ?_
      simp only [List.length_take, List.length_drop]
      omega
    · refine length_overwrite ?_
      simp only [List.length_singleton]
      omega
  · rfl

/-- **The consumer loop goes through the names one by one.** -/
theorem filenames_forward {m : Message} (ht : m.type = 1) (hl : 0 ≤ m.len) (hle : m.len ≤ m.data.length)
    (hne : m.filename ≠ []) : m.filenames = m.filename :: (messgeFilenameForward m).filenames := by
  obtain ⟨ht', hl', -, hle'⟩ := forward_shorter ht hl hne
  unfold Message.filenames
  -- the remaining list has one step of fuel more than it needs
  rw [length_forward hle hne, visited_succ hne, visited_fuel (m.data.length + 1) ht' hl' (by omega)]

/-- A name that does not end in a slash is not cut. -/
theorem stripSlashes_eq {n : Name} (h : n.getLast? = some 116) : stripSlashes n = n := by
  obtain ⟨ns, rfl⟩ := List.getLast?_eq_some_iff.1 h
  unfold stripSlashes
  simp

/-- `basename` leaves it as it is. -/
theorem cutName_eq {m : Message} (h : m.filename.getLast? = some 116) : cutName m = m := if_pos (stripSlashes_eq h)

/-! ## The receiver's side -/

/-- **The name that a write opens**: when no file is open or the message does not fit, and
the cache is not full. -/
def Rcv.opens (c : Configure) (r : Rcv) (e : WriteEnv) : Option Name :=
  r.msg.bind fun m =>
    if e.fopenOk ∧ (r.info.currFp = none ∨ r.info.over m) ∧ ¬ (r.info.fileCount ≥ r.info.maxFcnt ∧ r.info.over m) then
      some (dataName r.info.path (strftime (c.localtime e.now)))
    else none

section Write

variable {m : Message} {e : WriteEnv} {w : WriteRes}

theorem Wrote.opened_eq (hw : Wrote c.localtime r.info fs m r.fresh e w) (hd : DInv r.info) (hm : r.msg = some m) :
    w.opened = r.opens c e := by
  unfold Rcv.opens
  rw [hm, Option.bind_some]
  cases hw with
  | full h1 h2 => rw [if_neg (by simp [h1, h2])]
  | same h1 h2 => rw [writeCurr_opened, if_neg (by simp [h1, h2])]
  | noFile _ _ h1 => rw [if_neg (by simp [h1])]
  | @new buf names info' hclosed hfull hbuf hinfo happ hok =>
    obtain ⟨-, hname, -⟩ := new_names hd hclosed hbuf hinfo happ
    rw [writeCurr_opened, hname, if_pos ⟨hok, rotate_closed.1 hclosed, hfull⟩]

/-- The names that wait after a write. -/
theorem Wrote.waiting (hw : Wrote c.localtime r.info fs m r.fresh e w) (hd : DInv r.info) (hpc : r.pc ≠ .detach)
    {n : Name} (hn : n ∈ (w.info.namesMsg.map Message.filenames).getD []) :
    n ∈ r.waitingNames ++ w.opened.toList := by
  have keep : n ∈ (r.info.namesMsg.map Message.filenames).getD [] → n ∈ r.waitingNames ++ w.opened.toList := by
    intro h
    rw [waiting_eq hpc]
    exact List.mem_append_left _ h
  obtain ⟨-, -, -, -, hrot⟩ := rotate_fields r.info fs m
  cases hw with
  | full _ _ => exact keep hn
  | same _ _ =>
    rw [writeCurr_namesMsg] at hn
    exact keep hn
  | noFile _ _ _ =>
    simp only [hrot] at hn
    exact keep hn
  | @new buf names info' hclosed _ hbuf hinfo happ _ =>
    obtain ⟨-, -, hlists⟩ := new_names hd hclosed hbuf hinfo happ
    rw [writeCurr_namesMsg, Option.map_some, Option.getD_some, hlists.filenames (by simp)] at hn
    rw [writeCurr_opened]
    rcases List.mem_append.1 hn with hn | hn
    · exact List.mem_append_left _ ((listed_sublist hd hpc).subset hn)
    · exact List.mem_append_right _ hn

end Write

/-- What the receiver stored in the file at node `i`. -/
def Rcv.filedOn (r : Rcv) (i : ℕ) : List Cell := (r.filed.filter fun p => p.1 = i).flatMap Prod.snd

/-- **The receiver's names and files**: every name that waits was created, a name created
ends in the extension, and everything stored will be in its file. -/
structure FiledInv (r : Rcv) (fs : Disk) : Prop where
  base : RInv r
  stream : StreamOK r.info fs
  waiting : ∀ n ∈ r.waitingNames, n ∈ r.created
  ends : ∀ n ∈ r.created, n.getLast? = some 116
  filed : ∀ i, (r.filedOn i).Sublist (settled fs r.info.currFp i)

theorem filedInv_init (c : Configure) (fs : Disk) : FiledInv (Rcv.init c) fs := by
  refine ⟨rinv_init c, ?_, ?_, ?_, ?_⟩ <;>
    simp [StreamOK, Rcv.init, datafileInit, Rcv.waitingNames, Rcv.filedOn]

/-- What others append to the files does not matter to the receiver. -/
theorem FiledInv.grows (h : FiledInv r fs) (hg : fs.Grows fs') : FiledInv r fs' :=
  ⟨h.base, fun fp hfp => Nat.lt_of_lt_of_le (h.stream fp hfp) hg.next, h.waiting, h.ends,
    fun i => (h.filed i).trans (hg.settled _ i)⟩

theorem dataName_ends (path : CStr) (t : Tm) : (dataName path (strftime t)).getLast? = some 116 := by
  rw [dataName, List.getLast?_append_of_ne_nil _ (by simp [strftime]), strftime,
    List.getLast?_append_of_ne_nil _ (by simp)]
  rfl

/-- A name that `create_datafile` builds. -/
def IsDataName (path : CStr) (n : Name) : Prop := path.1.length ≤ 235 ∧ ∃ t, n = dataName path (strftime t)

theorem IsDataName.ends {path : CStr} {n : Name} (h : IsDataName path n) : n.getLast? = some 116 := by
  obtain ⟨-, t, rfl⟩ := h
  exact dataName_ends path t

theorem Wrote.opened_isDataName {m : Message} {e : WriteEnv} {w : WriteRes}
    (hw : Wrote c.localtime r.info fs m r.fresh e w) (hd : DInv r.info) {n : Name} (hn : w.opened = some n) :
    IsDataName r.info.path n := by
  cases hw with
  | full _ _ | noFile _ _ _ => cases hn
  | same _ _ =>
    rw [writeCurr_opened] at hn
    cases hn
  | @new buf names info' hclosed _ hbuf hinfo happ _ =>
    obtain ⟨-, hname, -⟩ := new_names hd hclosed hbuf hinfo happ
    rw [(dinv_rotate fs m hd).cleared hclosed] at hbuf
    rw [writeCurr_opened] at hn
    obtain rfl := Option.some.inj hn
    exact ⟨(buildFname_eq (strftime_ne_zero _) hbuf).2.1, _, hname⟩

/-- What a step creates. -/
theorem RStep.created_cases (h : RStep c quit r fs a r' fs') (hd : DInv r.info) {n : Name} (hn : n ∈ r'.created) :
    n ∈ r.created ∨ IsDataName r.info.path n := by
  have write : ∀ {m : Message} {e : WriteEnv} {w : WriteRes}, Wrote c.localtime r.info fs m r.fresh e w →
      n ∈ r.created ++ w.opened.toList → n ∈ r.created ∨ IsDataName r.info.path n := by
    intro m e w hw hn
    refine (List.mem_append.1 hn).imp_right fun hn => hw.opened_isDataName hd ?_
    simpa using hn
  cases h with
  | writeOk _ _ hw _ | writeFail _ _ hw _ => exact write hw hn
  | @flush m _ _ =>
    rw [stepFlush_eq] at hn
    exact Or.inl hn
  | _ => exact Or.inl hn

theorem waiting_same {n : Name} (h : n ∈ r'.waitingNames) (hpc : r.pc ≠ .detach)
    (hn : r'.info.namesMsg = r.info.namesMsg) : n ∈ r.waitingNames := by
  unfold Rcv.waitingNames at h
  split at h
  · cases h
  · rw [waiting_eq hpc, ← hn]
    exact h

/-- **No name waits that was not created.** -/
theorem RStep.waiting (h : RStep c quit r fs a r' fs') (hd : DInv r.info) (hw : ∀ n ∈ r.waitingNames, n ∈ r.created) :
    ∀ n ∈ r'.waitingNames, n ∈ r'.created := by
  intro n hn
  have write : ∀ {m : Message} {e : WriteEnv} {w : WriteRes}, r.pc = .write →
      Wrote c.localtime r.info fs m r.fresh e w → n ∈ (w.info.namesMsg.map Message.filenames).getD [] →
      n ∈ r.created ++ w.opened.toList := by
    intro m e w hpc hwr hn
    rcases List.mem_append.1 (hwr.waiting hd (by rw [hpc]; decide) hn) with hn | hn
    · exact List.mem_append_left _ (hw n hn)
    · exact List.mem_append_right _ hn
  cases h with
  | selectErr hpc _ | select hpc _ | goOn hpc _ | quitPush hpc _ _ _ | quitDone hpc _ _ | lastPush hpc _
  | lastLog hpc | keep hpc _ | alloc hpc _ _ | namesPush hpc _ | namesFail hpc | recvErr hpc _ | recv hpc _ _ _
  | noRecv hpc | dataPush hpc _ | dataFail hpc | dataLog hpc =>
    exact hw n (waiting_same hn (by rw [hpc]; decide) rfl)
  | detach _ => cases hn
  | @flush m hpc _ =>
    obtain ⟨h1, -, -, -, -, h2, -⟩ := stepFlush_fields r m
    rw [h2]
    exact hw n (waiting_same hn (by rw [hpc]; decide) (by rw [h1]))
  | writeOk hpc _ hwr _ => exact write hpc hwr hn
  | writeFail hpc _ hwr _ => exact write hpc hwr hn
  | drop hpc hreset => exact hw n ((waiting_reset hd (by rw [hpc]; decide) hreset).subset hn)
  | reach _ => exact hw n hn

theorem filedOn_append (filed : List (ℕ × List Cell)) (j i : ℕ) (bs : List Cell) :
    ((filed ++ [(j, bs)]).filter fun p => p.1 = i).flatMap Prod.snd =
      (filed.filter fun p => p.1 = i).flatMap Prod.snd ++ if j = i then bs else [] := by
  rw [List.filter_append, List.flatMap_append]
  by_cases h : j = i <;> simp [h]

/-- **One step of the receiver leaves everything stored in its file.** -/
theorem FiledInv.step (h : FiledInv r fs) (hs : RStep c quit r fs a r' fs') : FiledInv r' fs' := by
  have hd := h.base.data
  have hf := hs.files h.stream
  refine ⟨hs.inv h.base, hf.streamOK h.stream, hs.waiting hd h.waiting, fun n hn => ?_, fun i => ?_⟩
  · rcases hs.created_cases hd hn with hn | hn
    · exact h.ends n hn
    · exact hn.ends
  · have keep := (h.filed i).trans (hf.settled i).sublist
    unfold Rcv.filedOn at keep ⊢
    cases hs with
    | @writeOk m e w _ _ hw hok =>
      -- the message goes to the end of its file and to the end of what was filed there
      obtain ⟨fp, hfp⟩ := Option.isSome_iff_exists.1 (hw.open_of_ok hok)
      simp only
      rw [hw.settled h.stream, hw.wrote_le.2 hok, hfp]
      simp only [Option.map_some, Option.toList_some, Option.some.injEq]
      rw [filedOn_append]
      exact (h.filed i).append (List.Sublist.refl _)
    | @flush m _ _ =>
      rw [stepFlush_eq] at keep ⊢
      exact keep
    | _ => exact keep

/-! ## The sender's side -/

section Sender

variable {sd sd' : Snd} {queue queue' : List Message} {b : SAct}

/-- The dump file is open on an allocated node. -/
def Snd.StreamOK (sd : Snd) (fs : Disk) : Prop := ∀ fp, sd.fp = some fp → fp.ino < fs.next

@[simp] theorem stepRename_fs (sd : Snd) (m : Message) (ok : Bool) :
    (sd.stepRename c fs m ok).2 = if ok && fs.exist (cutName m).filename then
      fs.rename (cutName m).filename (renameTarget c (cutName m).filename) else fs := by
  unfold Snd.stepRename
  simp only
  split <;> rfl

@[simp] theorem stepRename_fp (sd : Snd) (m : Message) (ok : Bool) : (sd.stepRename c fs m ok).1.fp = sd.fp := by
  rw [stepRename_eq]

theorem stepRename_dumped (sd : Snd) (m : Message) (ok : Bool) :
    (sd.stepRename c fs m ok).1.dumped = sd.dumped := by
  rw [stepRename_eq]

theorem SStep.grows (h : SStep c quit sd queue fs b sd' queue' fs') : fs.Grows fs' := by
  cases h with
  | rename _ _ _ _ =>
    rw [stepRename_fs]
    split
    · exact .rename _ _ _
    · exact .refl fs
  | fopen _ _ _ _ => exact .fopen _ _
  | reach _ => exact .append _ _ _
  | _ => exact .refl fs

theorem SStep.streamOK (h : SStep c quit sd queue fs b sd' queue' fs') (ho : sd.StreamOK fs) : sd'.StreamOK fs' := by
  have hg := h.grows
  intro fp' hfp'
  have keep : sd.fp = some fp' → fp'.ino < fs'.next := fun hfp => Nat.lt_of_lt_of_le (ho fp' hfp) hg.next
  cases h with
  | @buff m res _ _ _ => cases res <;> exact keep hfp'
  | @file m res _ _ _ => cases res <;> exact keep hfp'
  | rename _ _ _ _ =>
    rw [stepRename_fp] at hfp'
    exact keep hfp'
  | fopen _ _ _ _ =>
    obtain rfl := Option.some.inj hfp'
    exact Fs.dir_lt _ _ _ (fopen_dir _ _)
  | @fwrite m fp _ _ hfp | @fwriteFail m fp k _ _ hfp | @reach k fp hfp =>
    obtain rfl := Option.some.inj hfp'
    exact Nat.lt_of_lt_of_le (ho fp hfp) hg.next
  | _ => exact keep hfp'

theorem stepRename_renamed (sd : Snd) (m : Message) (ok : Bool) :
    (sd.stepRename c fs m ok).1.renamed = sd.renamed ++
      if ok && fs.exist (cutName m).filename then (fs.dir (cutName m).filename).toList else [] := by
  unfold Snd.stepRename
  simp only
  split
  · rfl
  · exact (List.append_nil _).symm

theorem SStep.renamed_grows (h : SStep c quit sd queue fs b sd' queue' fs') : sd.renamed <+: sd'.renamed := by
  cases h with
  | @buff m res _ _ _ => cases res <;> exact List.prefix_refl _
  | @file m res _ _ _ => cases res <;> exact List.prefix_refl _
  | rename _ _ _ _ =>
    rw [stepRename_renamed]
    exact List.prefix_append _ _
  | _ => exact List.prefix_refl _

/-- Where the message that the sender holds comes from. -/
theorem SStep.held_from (h : SStep c quit sd queue fs b sd' queue' fs') {m' : Message} (hm' : sd'.msg = some m') :
    m' ∈ queue ∨ sd.msg = some m' ∨
      (∃ m, sd.msg = some m ∧ Snd.more fs m = true ∧ m' = messgeFilenameForward m) ∨
      ∃ m, sd.msg = some m ∧ m.type = 1 ∧ Snd.more fs m = true ∧ m' = messgeFilenameForward (cutName m) := by
  cases h with
  | pop _ hq | dumpPop _ hq =>
    obtain rfl := Option.some.inj hm'
    rw [hq]
    exact Or.inl (by simp)
  | @buff m res _ _ _ =>
    cases res with
    | success | errSys | errSrv => cases hm'
    | errNet => exact Or.inr (Or.inl hm')
  | @file m res _ hm hmore =>
    cases res with
    | success | errSys | errSrv =>
      obtain rfl := Option.some.inj hm'
      exact Or.inr (Or.inr (Or.inl ⟨m, hm, hmore, rfl⟩))
    | errNet => exact Or.inr (Or.inl hm')
  | @rename m ok _ hm ht hmore =>
    rw [(stepRename_pc _ _ sd m ok).2] at hm'
    obtain rfl := Option.some.inj hm'
    exact Or.inr (Or.inr (Or.inr ⟨m, hm, ht, hmore, rfl⟩))
  | del _ => cases hm'
  | _ => exact Or.inr (Or.inl hm')

theorem SStep.queue_from (h : SStep c quit sd queue fs b sd' queue' fs') {m : Message} (hm : m ∈ queue') : m ∈ queue := by
  rw [h.popped]
  exact List.mem_append_right _ hm

end Sender

theorem more_spec {m : Message} (h : Snd.more fs m = true) : m.filename ≠ [] ∧ (fs.dir m.filename).isSome := by
  unfold Snd.more at h
  simp only [Bool.and_eq_true, Bool.not_eq_true', List.isEmpty_eq_false_iff] at h
  exact h

/-! ## Messages in play -/

/-- In the queue, or with the sender. -/
def Sys.InPlay (s : Sys) (m : Message) : Prop := m ∈ s.queue ∨ s.snd.msg = some m

/-- The receiver has left, with no file open. -/
def Rcv.Gone (r : Rcv) : Prop := (r.pc = .lastLog ∨ r.pc = .returned) ∧ r.info.currFp = none

/-- A list of names of created files. -/
structure IsList (created : List Name) (m : Message) : Prop where
  len_nonneg : 0 ≤ m.len
  len_le : m.len ≤ m.data.length
  names : ∀ n ∈ m.filenames, n ∈ created

/-- **Messages of type 1 list created files**, unless the receiver is excused by `P`. -/
structure ListInv (P : Rcv → Prop) (s : Sys) : Prop where
  rcv : FiledInv s.rcv s.fs
  snd : s.snd.StreamOK s.fs
  tag : ∀ m, s.InPlay m → m.type = 0 ∨ m.type = 1
  lists : ∀ m, s.InPlay m → m.type = 1 → P s.rcv ∨ IsList s.rcv.created m

/-- A receiver that leaves with a last push of type 1 is excused. -/
def LastExcused (P : Rcv → Prop) (s : Sys) (b : SysAct) : Prop :=
  b = .rcv (.push true) → s.rcv.pc = .lastPush → s.rcv.msg.map Message.type = some 1 →
    ∀ r, r.pc = .lastLog → r.info = s.rcv.info → P r

section Play

variable {P : Rcv → Prop}

theorem Rcv.Gone.step (h : r.Gone) (hs : RStep c quit r fs a r' fs') : r'.Gone := by
  obtain ⟨hpc, hclosed⟩ := h
  cases hs with
  | lastLog _ => exact ⟨Or.inr rfl, hclosed⟩
  | reach hfp =>
    rw [hclosed] at hfp
    cases hfp
  | selectErr h1 _ | select h1 _ | goOn h1 _ | quitPush h1 _ _ _ | quitDone h1 _ _ | lastPush h1 _
  | keep h1 _ | alloc h1 _ _ | namesPush h1 _ | namesFail h1 | detach h1 | recvErr h1 _ | recv h1 _ _ _
  | noRecv h1 | flush h1 _ | dataPush h1 _ | dataFail h1 | dataLog h1 | writeOk h1 _ _ _ | writeFail h1 _ _ _
  | drop h1 _ =>
    rw [h1] at hpc
    rcases hpc with h | h <;> cases h

theorem IsList.mono {created created' : List Name} {m : Message} (h : IsList created m)
    (hsub : ∀ n ∈ created, n ∈ created') : IsList created' m :=
  ⟨h.len_nonneg, h.len_le, fun n hn => hsub n (h.names n hn)⟩

/-- The consumer's step leaves a list. -/
theorem IsList.forward {created : List Name} {m : Message} (h : IsList created m) (ht : m.type = 1)
    (hne : m.filename ≠ []) : IsList created (messgeFilenameForward m) := by
  obtain ⟨-, hl, -, hle⟩ := forward_shorter ht h.len_nonneg hne
  refine ⟨hl, ?_, fun n hn => h.names n ?_⟩
  · have := h.len_le
    rw [length_forward h.len_le hne]
    omega
  · rw [filenames_forward ht h.len_nonneg h.len_le hne]
    exact List.mem_cons_of_mem _ hn

theorem IsList.head {created : List Name} {m : Message} (h : IsList created m) (ht : m.type = 1)
    (hne : m.filename ≠ []) : m.filename ∈ created := by
  apply h.names
  rw [filenames_forward ht h.len_nonneg h.len_le hne]
  exact List.mem_cons_self

theorem SameWork.listInv {s s' : Sys} (h : SameWork s s') (hi : ListInv P s) : ListInv P s' := by
  refine ⟨?_, ?_, ?_, ?_⟩
  · rw [h.rcv, h.fs]
    exact hi.rcv
  · rw [h.snd, h.fs]
    exact hi.snd
  · unfold Sys.InPlay
    rw [h.queue, h.snd]
    exact hi.tag
  · unfold Sys.InPlay
    rw [h.queue, h.snd, h.rcv]
    exact hi.lists

theorem listInv_init (P : Rcv → Prop) (c : Configure) (fs : Disk) : ListInv P (Sys.init c fs) := by
  refine ⟨filedInv_init c fs, ?_, ?_, ?_⟩ <;> simp [Snd.StreamOK, Sys.init, Snd.init, Sys.InPlay]

/-- **What the receiver pushes is a list or data.** -/
theorem ListInv.pushed {s : Sys} (h : ListInv P s) (hs : RStep c quit s.rcv s.fs a r' fs')
    (hc : LastExcused P s (.rcv a)) {m : Message} (hp : r'.pushed = s.rcv.pushed ++ [m]) :
    (m.type = 0 ∨ m.type = 1) ∧ (m.type = 1 → P r' ∨ IsList s.rcv.created m) := by
  have hi := h.rcv.base
  rcases hs.pushed with hsame | ⟨m', hp', rfl, hcase⟩
  · rw [hsame] at hp
    simp at hp
  obtain rfl : m = m' := by
    rw [hp] at hp'
    simpa using hp'
  rcases hcase with ⟨hpc, hm⟩ | ⟨hpc, hn⟩ | ⟨hpc, hm⟩
  · refine ⟨hi.flow.type_or m hm, fun ht => Or.inl ?_⟩
    have hexc := hc rfl hpc (by rw [hm, Option.map_some, ht])
    cases hs with
    | lastPush _ _ => exact hexc _ rfl rfl
    | namesPush h1 _ | dataPush h1 _ =>
      rw [hpc] at h1
      cases h1
  · have hl := hi.data.lists hn
    refine ⟨Or.inr hl.type_eq, fun _ => Or.inr ⟨hl.len_nonneg, ?_, fun n hmem => h.rcv.waiting n ?_⟩⟩
    · have := hl.lists.len_le
      omega
    · rw [waiting_eq (by rw [hpc]; decide), hn]
      exact hmem
  · -- a message pushed directly has type 0
    have hnone := hi.flow.direct (Or.inl hpc)
    have h0 := hi.flow.typeZero m hm hnone (by rw [hpc]; decide) (by rw [hpc]; decide)
    exact ⟨Or.inl h0, fun h1 => by omega⟩

/-- **Every step keeps the lists**, if the excuse stays and covers a last push of type 1. -/
theorem ListInv.step {s s' : Sys} {b : SysAct} (h : ListInv P s)
    (hP : ∀ {q a r' fs'}, P s.rcv → RStep c q s.rcv s.fs a r' fs' → P r') (hc : LastExcused P s b)
    (hs : s.step c b = some s') : ListInv P s' := by
  cases sys_cases hs with
  | @rcv a r fs pushed _ hr hp =>
    have hf := hr.files h.rcv.stream
    have old : ∀ m, s.InPlay m → m.type = 1 → P r ∨ IsList r.created m := by
      intro m hm ht
      rcases h.lists m hm ht with hg | hl
      · exact Or.inl (hP hg hr)
      · exact Or.inr (hl.mono fun n hn => hr.created_grows.subset hn)
    have new : ∀ m ∈ pushed, (m.type = 0 ∨ m.type = 1) ∧ (m.type = 1 → P r ∨ IsList r.created m) := by
      intro m hm
      rcases hr.pushed with hsame | ⟨m', hp', -⟩
      · rw [hsame] at hp
        simp only [List.self_eq_append_right] at hp
        rw [hp] at hm
        cases hm
      · rw [hp', List.append_cancel_left_eq] at hp
        rw [← hp] at hm
        rw [List.mem_singleton.1 hm]
        obtain ⟨h1, h2⟩ := h.pushed hr hc hp'
        refine ⟨h1, fun ht => (h2 ht).imp_right fun hl => hl.mono fun n hn => hr.created_grows.subset hn⟩
    refine ⟨h.rcv.step hr, fun fp hfp => Nat.lt_of_lt_of_le (h.snd fp hfp) hf.grows.next, ?_, ?_⟩
    · rintro m (hm | hm)
      · rcases List.mem_append.1 hm with hm | hm
        · exact h.tag m (Or.inl hm)
        · exact (new m hm).1
      · exact h.tag m (Or.inr hm)
    · rintro m (hm | hm) ht
      · rcases List.mem_append.1 hm with hm | hm
        · exact old m (Or.inl hm) ht
        · exact (new m hm).2 ht
      · exact old m (Or.inr hm) ht
  | @snd b sd queue popped fs _ hsnd hp =>
    refine ⟨h.rcv.grows hsnd.grows, hsnd.streamOK h.snd, ?_, ?_⟩
    · rintro m (hm | hm)
      · exact h.tag m (Or.inl (hsnd.queue_from hm))
      · rcases hsnd.held_from hm with hq | hold | ⟨m₀, hm₀, -, rfl⟩ | ⟨m₀, hm₀, -, -, rfl⟩
        · exact h.tag m (Or.inl hq)
        · exact h.tag m (Or.inr hold)
        · rw [forward_type]
          exact h.tag m₀ (Or.inr hm₀)
        · rw [forward_type, cutName_type]
          exact h.tag m₀ (Or.inr hm₀)
    · rintro m (hm | hm) ht
      · exact h.lists m (Or.inl (hsnd.queue_from hm)) ht
      · rcases hsnd.held_from hm with hq | hold | ⟨m₀, hm₀, hmore, rfl⟩ | ⟨m₀, hm₀, ht₀, hmore, rfl⟩
        · exact h.lists m (Or.inl hq) ht
        · exact h.lists m (Or.inr hold) ht
        · rw [forward_type] at ht
          exact (h.lists m₀ (Or.inr hm₀) ht).imp_right fun hl => hl.forward ht (more_spec hmore).1
        · refine (h.lists m₀ (Or.inr hm₀) ht₀).imp_right fun hl => ?_
          rw [cutName_eq (h.rcv.ends _ (hl.head ht₀ (more_spec hmore).1))]
          exact hl.forward ht₀ (more_spec hmore).1
  | main hm => exact hm.same.listInv h
  | starter hm => exact hm.same.listInv h

end Play

end HookKernel
