import HookKernel.Proof.TlogFiles
import Mathlib.Data.Nat.Digits.Lemmas

/-!
# The archives

* `renameLogfile_isSome`: a name for the archive is always found, and it replaces no file.
* `removeOldlog_newest`: the removal keeps the newest archives, as many as are allowed.
* `removeOldlog_cut`: with a log name of 127 bytes it removes the log file instead.
* `ArchivesInv`, `archives_bounded`: over a run there are never more archives than that.
-/

namespace HookKernel

open Lib

variable {c : FilesConf} {s s' : LogFiles} {readdir : Readdir} {unlink : FName → Bool}

/-! ## The name of an archive -/

theorem archiveFile_injective (t : ℕ) : Function.Injective (c.archiveFile t) := by
  intro i j h
  unfold FilesConf.archiveFile at h
  rw [List.append_cancel_right_eq, List.append_cancel_left_eq] at h
  by_cases hi : i = 0
  · by_cases hj : j = 0
    · rw [hi, hj]
    · rw [if_pos hi, if_neg hj] at h
      cases h
  · by_cases hj : j = 0
    · rw [if_neg hi, if_pos hj] at h
      cases h
    · rw [if_neg hi, if_neg hj] at h
      have hread := congrArg readInt (List.cons.inj h).2
      rw [readInt_decimalText, readInt_decimalText] at hread
      exact Int.ofNat.inj hread

theorem isLog_archiveFile (t i : ℕ) : c.isLog (c.archiveFile t i) = true := by
  unfold FilesConf.isLog FilesConf.archiveFile
  rw [Bool.and_eq_true]
  constructor
  · rw [List.isPrefixOf_iff_prefix, List.append_assoc, List.append_assoc]
    exact List.prefix_append _ _
  · rw [decide_eq_true_eq]
    exact (List.suffix_append _ _).isInfix

theorem ne_nil_of_isLog {n : FName} (h : c.isLog n = true) : n ≠ [] := by
  rintro rfl
  unfold FilesConf.isLog at h
  rw [Bool.and_eq_true, List.isPrefixOf_iff_prefix, List.prefix_nil] at h
  exact List.append_ne_nil_of_right_ne_nil _ (List.cons_ne_nil _ _) h.1

theorem isLog_of_dot {rest : List UInt8} : c.isLog (c.logname ++ 46 :: rest) = false := by
  unfold FilesConf.isLog
  rw [Bool.and_eq_false_iff]
  refine Or.inl ?_
  by_contra h
  rw [Bool.not_eq_false, List.isPrefixOf_iff_prefix] at h
  obtain ⟨t, ht⟩ := h
  rw [List.append_assoc, List.append_cancel_left_eq] at ht
  cases ht

theorem isLog_pending : c.isLog c.pending = false := isLog_of_dot

theorem isLog_gzipFile : c.isLog c.gzipFile = false := by
  unfold FilesConf.gzipFile FilesConf.pending
  rw [List.append_assoc]
  exact isLog_of_dot

theorem isLog_logname : c.isLog c.logname = false := by
  cases h : c.isLog c.logname with
  | false => rfl
  | true =>
    unfold FilesConf.isLog at h
    rw [Bool.and_eq_true, List.isPrefixOf_iff_prefix] at h
    have hle := h.1.length_le
    rw [List.length_append, List.length_singleton] at hle
    omega

/-- **The search for a name ends**, and the file gets a name that no file had. -/
theorem renameLogfile_isSome {file : FName} {i : ℕ} (h : s.dir.lookup file = some i) :
    ∃ j s', s.renameLogfile c file true = some s' ∧ s.dir.lookup (c.archiveFile (s.node i).mtime j) = none ∧
      s' = { s with dir := s.dir.rename file (c.archiveFile (s.node i).mtime j) } := by
  obtain ⟨n, hn⟩ := Option.isSome_iff_exists.1
    (freeName_isSome (i := 0) (archiveFile_injective (c := c) (s.node i).mtime) (Nat.lt_succ_self s.dir.keys.length))
  obtain ⟨hfree, j, -, rfl, -⟩ := freeName_free hn
  refine ⟨j, _, ?_, hfree, rfl⟩
  simp only [LogFiles.renameLogfile, h, if_true, hn, Option.map_some]

/-! ## The oldest archive -/

/-- The archives among the names, and the oldest of them. -/
inductive Oldest (c : FilesConf) (s : LogFiles) (names : List FName) : FName × ℕ → Prop
  | none : (∀ n ∈ names, c.isLog n = false) → Oldest c s names ([], 0)
  | found {n : FName} : n ∈ names → c.isLog n = true → 0 < s.mtime n →
      (∀ m ∈ names, c.isLog m = true → s.mtime n ≤ s.mtime m) → Oldest c s names (n.take 127, s.mtime n)

theorem Oldest.step {names : List FName} {oldest : FName × ℕ} {n : FName} (h : Oldest c s names oldest)
    (hage : c.isLog n = true → 0 < s.mtime n) : Oldest c s (names ++ [n]) (s.getOldestCallback c oldest n) := by
  unfold LogFiles.getOldestCallback
  cases hlog : c.isLog n with
  | false =>
    rw [if_neg (by simp)]
    cases h with
    | none hno =>
      refine .none fun m hm => ?_
      rcases List.mem_append.1 hm with hm | hm
      · exact hno m hm
      · exact List.mem_singleton.1 hm ▸ hlog
    | found hmem h1 h2 h3 =>
      refine .found (List.mem_append_left _ hmem) h1 h2 fun m hm hml => ?_
      rcases List.mem_append.1 hm with hm | hm
      · exact h3 m hm hml
      · rw [List.mem_singleton.1 hm, hlog] at hml
        cases hml
  | true =>
    have hn := hage hlog
    cases h with
    | none hno =>
      rw [if_pos ⟨rfl, Or.inl rfl⟩]
      refine .found (List.mem_append_right _ (List.mem_singleton_self n)) hlog hn fun m hm hml => ?_
      rcases List.mem_append.1 hm with hm | hm
      · rw [hno m hm] at hml
        cases hml
      · rw [List.mem_singleton.1 hm]
    | @found k hmem h1 h2 h3 =>
      by_cases hlt : s.mtime n < s.mtime k
      · rw [if_pos ⟨rfl, Or.inr hlt⟩]
        refine .found (List.mem_append_right _ (List.mem_singleton_self n)) hlog hn fun m hm hml => ?_
        rcases List.mem_append.1 hm with hm | hm
        · exact Nat.le_trans (Nat.le_of_lt hlt) (h3 m hm hml)
        · rw [List.mem_singleton.1 hm]
      · rw [if_neg (by simp only [true_and]; omega)]
        refine .found (List.mem_append_left _ hmem) h1 h2 fun m hm hml => ?_
        rcases List.mem_append.1 hm with hm | hm
        · exact h3 m hm hml
        · rw [List.mem_singleton.1 hm]
          omega

theorem Oldest.foldl {l names : List FName} {oldest : FName × ℕ} (h : Oldest c s names oldest)
    (hage : ∀ n ∈ l, c.isLog n = true → 0 < s.mtime n) : Oldest c s (names ++ l) (l.foldl (s.getOldestCallback c) oldest) := by
  induction l generalizing names oldest with
  | nil =>
    rw [List.append_nil]
    exact h
  | cons n l ih =>
    have hnext := ih (h.step (hage n List.mem_cons_self)) fun m hm => hage m (List.mem_cons_of_mem _ hm)
    rwa [List.append_assoc] at hnext

/-! ## Removal -/

/-- The archives in the directory. -/
def LogFiles.logs (c : FilesConf) (s : LogFiles) : List FName := s.dir.keys.filter (c.isLog ·)

/-- The archives have names that are not cut, and dates. -/
structure ArchivesPlain (c : FilesConf) (s : LogFiles) : Prop where
  short : ∀ n ∈ s.logs c, n.length ≤ 127
  dated : ∀ n ∈ s.logs c, 0 < s.mtime n

theorem mem_logs {n : FName} : n ∈ s.logs c ↔ n ∈ s.dir.keys ∧ c.isLog n = true := List.mem_filter

/-- One call removes an oldest archive. -/
theorem removeOldestlog_eq (readdir : Readdir) (hunlink : ∀ n, unlink n = true) (h : ArchivesPlain c s) (hsome : s.logs c ≠ []) :
    ∃ n i, n ∈ s.logs c ∧ (∀ m ∈ s.logs c, s.mtime n ≤ s.mtime m) ∧ s.dir.lookup n = some i ∧
      s.removeOldestlog c readdir unlink = { s with
        dir := s.dir.erase n
        removed := s.removed ++ (if (s.node i).whole then [(n, (s.node i).gzipOf.getD i)] else []) } := by
  have hperm := readdir.perm s.dir
  have hstart : Oldest c s [] ([], 0) := .none fun n hn => by cases hn
  have hage : ∀ n ∈ readdir.names s.dir, c.isLog n = true → 0 < s.mtime n := fun n hn hlog =>
    h.dated n (mem_logs.2 ⟨hperm.mem_iff.1 hn, hlog⟩)
  have hold := hstart.foldl hage
  rw [List.nil_append] at hold
  generalize hfold : (readdir.names s.dir).foldl (s.getOldestCallback c) ([], 0) = oldest at hold
  cases hold with
  | none hno =>
    obtain ⟨m, hm⟩ := List.exists_mem_of_ne_nil _ hsome
    obtain ⟨hk, hl⟩ := mem_logs.1 hm
    rw [hno m (hperm.mem_iff.2 hk)] at hl
    cases hl
  | @found n hmem hlog _ hmin =>
    have hn : n ∈ s.logs c := mem_logs.2 ⟨hperm.mem_iff.1 hmem, hlog⟩
    obtain ⟨i, hi⟩ := Option.isSome_iff_exists.1 (AList.lookup_isSome.2 (AList.mem_keys.2 (mem_logs.1 hn).1))
    refine ⟨n, i, hn, fun m hm => ?_, hi, ?_⟩
    · exact hmin m (hperm.mem_iff.2 (mem_logs.1 hm).1) (mem_logs.1 hm).2
    · rw [List.take_of_length_le (h.short n hn)] at hfold
      unfold LogFiles.removeOldestlog
      rw [hfold]
      simp only [hi, hunlink n, and_true]
      rw [if_pos (ne_nil_of_isLog hlog)]

/-- **The newest archives are kept**: those that are gone are not newer than those that are left. -/
structure KeepsNewest (c : FilesConf) (s s' : LogFiles) : Prop where
  rest : s' = { s with dir := s'.dir, removed := s'.removed }
  others : ∀ n, s'.dir.lookup n = s.dir.lookup n ∨ n ∈ s.logs c ∧ s'.dir.lookup n = none
  newest : ∀ m ∈ s.logs c, m ∉ s'.logs c → ∀ n ∈ s'.logs c, s.mtime m ≤ s.mtime n

theorem KeepsNewest.mtime {n : FName} (h : KeepsNewest c s s') (hn : n ∈ s'.dir.keys) : s'.mtime n = s.mtime n := by
  have hsome := AList.lookup_isSome.2 (AList.mem_keys.2 hn)
  unfold LogFiles.mtime
  rcases h.others n with hsame | ⟨-, hno⟩
  · rw [hsame, h.rest]
  · rw [hno] at hsome
    cases hsome

theorem KeepsNewest.subset (h : KeepsNewest c s s') {n : FName} (hn : n ∈ s'.logs c) : n ∈ s.logs c := by
  obtain ⟨hk, hl⟩ := mem_logs.1 hn
  have hsome := AList.lookup_isSome.2 (AList.mem_keys.2 hk)
  rcases h.others n with hsame | ⟨hlog, -⟩
  · rw [hsame] at hsome
    exact mem_logs.2 ⟨AList.mem_keys.1 (AList.lookup_isSome.1 hsome), hl⟩
  · exact hlog

theorem ArchivesPlain.removed (h : ArchivesPlain c s) (hk : KeepsNewest c s s') : ArchivesPlain c s' := by
  refine ⟨fun n hn => h.short n (hk.subset hn), fun n hn => ?_⟩
  rw [hk.mtime (mem_logs.1 hn).1]
  exact h.dated n (hk.subset hn)

theorem keepsNewest_refl (s : LogFiles) : KeepsNewest c s s :=
  ⟨rfl, fun _ => Or.inl rfl, fun _ hm hno => absurd hm hno⟩

theorem KeepsNewest.trans {s'' : LogFiles} (h : KeepsNewest c s s') (h' : KeepsNewest c s' s'') : KeepsNewest c s s'' := by
  refine ⟨?_, fun n => ?_, fun m hm hno n hn => ?_⟩
  · have hrest := h'.rest
    rw [h.rest] at hrest
    exact hrest
  · rcases h'.others n with hsame | ⟨hlog, hno⟩
    · rw [hsame]
      exact h.others n
    · exact Or.inr ⟨h.subset hlog, hno⟩
  · by_cases hmid : m ∈ s'.logs c
    · have hle := h'.newest m hmid hno n hn
      rwa [h.mtime (mem_logs.1 hmid).1, h.mtime (mem_logs.1 (h'.subset hn)).1] at hle
    · exact h.newest m hm hmid n (h'.subset hn)

/-- One call of `_tlog_remove_oldestlog`. -/
theorem removeOldestlog_keeps (readdir : Readdir) (hunlink : ∀ n, unlink n = true) (h : ArchivesPlain c s) (hsome : s.logs c ≠ []) :
    KeepsNewest c s (s.removeOldestlog c readdir unlink) ∧
      ((s.removeOldestlog c readdir unlink).logs c).length + 1 = (s.logs c).length := by
  obtain ⟨n, i, hn, hmin, hi, heq⟩ := removeOldestlog_eq readdir hunlink h hsome
  have hlogs : (s.removeOldestlog c readdir unlink).logs c = (s.logs c).filter fun m => decide (m ≠ n) := by
    rw [heq]
    exact filter_keys_erase s.dir _ n
  refine ⟨⟨?_, fun m => ?_, fun m hm hno m' hm' => ?_⟩, ?_⟩
  · rw [heq]
  · rw [heq]
    by_cases hmn : m = n
    · subst hmn
      exact Or.inr ⟨hn, AList.lookup_erase _ _⟩
    · exact Or.inl (AList.lookup_erase_ne hmn)
  · rw [hlogs] at hno hm'
    obtain rfl : m = n := by
      by_contra hne
      exact hno (List.mem_filter.2 ⟨hm, decide_eq_true hne⟩)
    exact hmin m' (List.mem_filter.1 hm').1
  · rw [heq]
    exact length_filter_keys_erase (mem_logs.1 hn).1 (mem_logs.1 hn).2

theorem removeLoop_keeps (hunlink : ∀ n, unlink n = true) (k : ℕ) (h : ArchivesPlain c s) (hk : k ≤ (s.logs c).length) :
    KeepsNewest c s (LogFiles.removeLoop c readdir unlink k s) ∧
      ((LogFiles.removeLoop c readdir unlink k s).logs c).length + k = (s.logs c).length := by
  induction k generalizing s with
  | zero => exact ⟨keepsNewest_refl s, rfl⟩
  | succ k ih =>
    have hsome : s.logs c ≠ [] := by
      intro hno
      rw [hno] at hk
      exact absurd hk (Nat.not_succ_le_zero k)
    obtain ⟨h1, hlen⟩ := removeOldestlog_keeps readdir hunlink h hsome
    obtain ⟨h2, hlen2⟩ := ih (h.removed h1) (by omega)
    refine ⟨h1.trans h2, ?_⟩
    show ((LogFiles.removeLoop c readdir unlink k (s.removeOldestlog c readdir unlink)).logs c).length + (k + 1) = _
    omega

theorem lognum_eq (s : LogFiles) : s.lognum c readdir = (s.logs c).length := by
  unfold LogFiles.lognum LogFiles.logs
  rw [(readdir.perm s.dir).countP_eq, List.countP_eq_length_filter]

/-- The loop of the removal, as often as there are archives too many. -/
theorem removeOldlog_keeps (readdir : Readdir) (hunlink : ∀ n, unlink n = true) (h : ArchivesPlain c s) :
    KeepsNewest c s (s.removeOldlog c readdir unlink) ∧
      ((s.removeOldlog c readdir unlink).logs c).length + ((s.logs c).length - c.logcount) = (s.logs c).length := by
  unfold LogFiles.removeOldlog
  rw [lognum_eq]
  exact removeLoop_keeps hunlink ((s.logs c).length - c.logcount) h (Nat.sub_le _ _)

/-- **The removal keeps the newest archives**, as many as are allowed, and touches no other file, in whatever order
`readdir` gives the names, if the archives have dates and names that are not cut. -/
theorem removeOldlog_newest (hunlink : ∀ n, unlink n = true) (h : ArchivesPlain c s) :
    KeepsNewest c s (s.removeOldlog c readdir unlink) ∧
      ((s.removeOldlog c readdir unlink).logs c).length = min (s.logs c).length c.logcount := by
  obtain ⟨hkeep, hlen⟩ := removeOldlog_keeps readdir hunlink h
  exact ⟨hkeep, by omega⟩

/-- Three archives and another file. -/
def demoArchives : LogFiles :=
  { emptyLogFiles with
    dir := ((((∅ : Directory FName).insert [108, 45, 49, 46, 103, 122] 0).insert [108, 45, 50, 46, 103, 122] 1).insert
      [108, 45, 51, 46, 103, 122] 2).insert [108] 3
    node := fun i => ⟨[], [5, 3, 4].getD i 1, none, true⟩
    next := 4 }

theorem removeOldlog_newest_demo :
    (demoArchives.removeOldlog demoFiles demoReaddir fun _ => true).dir.lookup [108, 45, 50, 46, 103, 122] = none ∧
      KeepsNewest demoFiles demoArchives (demoArchives.removeOldlog demoFiles demoReaddir fun _ => true) ∧
      ((demoArchives.removeOldlog demoFiles demoReaddir fun _ => true).logs demoFiles).length =
        min (demoArchives.logs demoFiles).length demoFiles.logcount :=
  ⟨by decide +kernel, removeOldlog_newest (fun _ => rfl) ⟨by decide +kernel, by decide +kernel⟩⟩

/-! ## Names that are cut -/

/-- An archive of a log whose name has 127 bytes is taken for the log file. -/
theorem take_of_isLog {n : FName} (hlen : c.logname.length = 127) (h : c.isLog n = true) : n.take 127 = c.logname := by
  unfold FilesConf.isLog at h
  rw [Bool.and_eq_true, List.isPrefixOf_iff_prefix] at h
  obtain ⟨rest, rfl⟩ := h.1
  rw [List.append_assoc, ← hlen, List.take_left]

theorem oldest_cut (hlen : c.logname.length = 127) {l : List FName} {oldest : FName × ℕ}
    (h : oldest.1 = c.logname ∨ oldest.2 = 0 ∧ ∃ n ∈ l, c.isLog n = true) :
    (l.foldl (s.getOldestCallback c) oldest).1 = c.logname := by
  induction l generalizing oldest with
  | nil =>
    rcases h with h | ⟨-, n, hn, -⟩
    · exact h
    · cases hn
  | cons n l ih =>
    refine ih ?_
    unfold LogFiles.getOldestCallback
    split
    · rename_i hlog
      exact Or.inl (take_of_isLog hlen hlog.1)
    · rename_i hno
      rcases h with h | ⟨h0, m, hm, hlog⟩
      · exact Or.inl h
      · rcases List.mem_cons.1 hm with rfl | hm
        · exact absurd ⟨hlog, Or.inl h0⟩ hno
        · exact Or.inr ⟨h0, m, hm, hlog⟩

/-- **A log name of 127 bytes**: the name of the oldest archive is cut to that of the log file, which is removed
instead, and no archive is. -/
theorem removeOldlog_cut (hlen : c.logname.length = 127) (hunlink : unlink c.logname = true)
    (hmany : c.logcount < (s.logs c).length) :
    (s.removeOldlog c readdir unlink).dir = s.dir.erase c.logname ∧ (s.removeOldlog c readdir unlink).logs c = s.logs c := by
  have hkeep : ∀ t : LogFiles, t.dir = s.dir ∨ t.dir = s.dir.erase c.logname → t.logs c = s.logs c := by
    intro t ht
    unfold LogFiles.logs
    rcases ht with ht | ht
    · rw [ht]
    · rw [ht, filter_keys_erase_of_not isLog_logname]
  -- every round looks for the log file
  have hstep : ∀ t : LogFiles, t.dir = s.dir ∨ t.dir = s.dir.erase c.logname →
      (t.removeOldestlog c readdir unlink).dir = s.dir.erase c.logname := by
    intro t ht
    have hname : ((readdir.names t.dir).foldl (t.getOldestCallback c) ([], 0)).1 = c.logname := by
      obtain ⟨n, hn⟩ := List.exists_mem_of_length_pos (Nat.lt_of_le_of_lt (Nat.zero_le _) hmany)
      rw [← hkeep t ht] at hn
      obtain ⟨hk, hl⟩ := mem_logs.1 hn
      exact oldest_cut hlen (Or.inr ⟨rfl, n, (readdir.perm t.dir).mem_iff.2 hk, hl⟩)
    have hne : c.logname ≠ [] := by
      intro hno
      rw [hno] at hlen
      cases hlen
    have hone : (t.removeOldestlog c readdir unlink).dir = t.dir.erase c.logname := by
      unfold LogFiles.removeOldestlog
      rw [hname]
      simp only [hunlink, and_true]
      split
      · rename_i hno
        exact (erase_missing hno).symm
      · rw [if_pos hne]
    rw [hone]
    rcases ht with ht | ht
    · rw [ht]
    · rw [ht]
      exact erase_missing (AList.lookup_erase _ _)
  have hloop : ∀ k t, (t.dir = s.dir ∨ t.dir = s.dir.erase c.logname) → 0 < k →
      (LogFiles.removeLoop c readdir unlink k t).dir = s.dir.erase c.logname := by
    intro k
    induction k with
    | zero => intro t _ hpos; omega
    | succ k ih =>
      intro t ht _
      have hnext := hstep t ht
      show (LogFiles.removeLoop c readdir unlink k (t.removeOldestlog c readdir unlink)).dir = _
      rcases Nat.eq_zero_or_pos k with rfl | hpos
      · exact hnext
      · exact ih _ (Or.inr hnext) hpos
  have hdir : (s.removeOldlog c readdir unlink).dir = s.dir.erase c.logname := by
    unfold LogFiles.removeOldlog
    rw [lognum_eq]
    exact hloop _ s (Or.inl rfl) (by omega)
  exact ⟨hdir, hkeep _ (Or.inr hdir)⟩

/-- A log name of 127 bytes; one archive is kept. -/
def cutFiles : FilesConf := ⟨List.replicate 127 108, by rw [List.length_replicate], 4, 1, true, fun t => [48 + UInt8.ofNat t]⟩

def cutArchives : LogFiles :=
  { emptyLogFiles with
    dir := (((∅ : Directory FName).insert (cutFiles.archiveFile 1 0) 0).insert (cutFiles.archiveFile 2 0) 1).insert
      cutFiles.logname 2
    node := fun i => ⟨[], i + 1, none, true⟩
    next := 3 }

theorem removeOldlog_cut_demo :
    (cutArchives.dir.lookup cutFiles.logname).isSome = true ∧
      (cutArchives.removeOldlog cutFiles demoReaddir fun _ => true).dir = cutArchives.dir.erase cutFiles.logname ∧
      (cutArchives.removeOldlog cutFiles demoReaddir fun _ => true).logs cutFiles = cutArchives.logs cutFiles :=
  ⟨by decide +kernel, removeOldlog_cut List.length_replicate rfl (by decide +kernel)⟩

/-! ## Over runs -/

/-- A compressed file that has not got its name yet. -/
def LogFiles.gzLeft (c : FilesConf) (s : LogFiles) : ℕ := if (s.dir.lookup c.gzipFile).isSome then 1 else 0

/-- What the child may leave. -/
def gzMade : Option GzPc → ℕ
  | some .writing | some .written | some .exited => 1
  | _ => 0

/-- The names fit: `%.4d%.2d%.2d-%.2d%.2d%.2d` has 15 bytes, and the files that are there have dates. -/
structure NamesFit (c : FilesConf) (s : LogFiles) : Prop where
  logname : c.logname.length ≤ 97
  stamp : ∀ t, (c.stamp t).length ≤ 15
  short : ∀ n ∈ s.logs c, n.length ≤ 127
  dated : ∀ i < s.next, 0 < (s.node i).mtime
  few : max ((s.logs c).length + s.gzLeft c) c.logcount < 10 ^ 10

/-- The calls that concern archives succeed. -/
def CallsSucceed : LogFiles → FilesAct → Prop
  | _, .write e _ => 0 < e.now ∧ e.opendir = true ∧ ∀ n, e.unlink n = true
  | _, .waitPid e => e.renameGz = true ∧ e.opendir = true ∧ ∀ n, e.unlink n = true
  | _, .gzip now => 0 < now
  | _, .gzipDies => True

/-- At most `k` archives, with dates and names that fit. -/
structure AtMost (c : FilesConf) (k : ℕ) (s : LogFiles) : Prop where
  short : ∀ n ∈ s.logs c, n.length ≤ 127
  dated : ∀ i < s.next, 0 < (s.node i).mtime
  count : (s.logs c).length ≤ k

/-- **The archives over a run**: at most `k`, with the compressed file if the child is not at work. -/
structure ArchivesInv (c : FilesConf) (k : ℕ) (s : LogFiles) : Prop extends AtMost c k s where
  left : if c.nocompress then s.zip = none else (s.logs c).length + s.gzLeft c ≤ k + gzMade s.zip

/-- The name of an archive fits, if there are not too many. -/
theorem length_archiveFile {s₀ : LogFiles} (h : NamesFit c s₀) (t : ℕ) {j : ℕ} (hj : j < 10 ^ 10) :
    (c.archiveFile t j).length ≤ 127 := by
  have hname := h.logname
  have hstamp := h.stamp t
  have hsuffix : c.suffix.length ≤ 3 := by
    unfold FilesConf.suffix
    split
    · exact Nat.zero_le 3
    · exact Nat.le_refl 3
  have hdigits : (decimalText 1 j).length ≤ 10 := by
    have hlen : (Nat.digits 10 j).length ≤ 10 := Nat.digits_length_le_iff (by decide) j |>.2 hj
    rw [length_decimalText, if_neg (by omega), Int.natAbs_natCast]
    omega
  unfold FilesConf.archiveFile
  rw [List.length_append, List.length_append, List.length_append, List.length_append, List.length_singleton]
  split
  · rw [List.length_nil]
    omega
  · rw [List.length_cons]
    omega

/-- `rename` to `.pending` concerns no archive. -/
theorem makePending_logs {ok : Bool} (hs : s.makePending c ok = some s') :
    s' = { s with dir := s'.dir } ∧ s'.logs c = s.logs c ∧ s'.gzLeft c = s.gzLeft c := by
  unfold LogFiles.makePending at hs
  split at hs
  · obtain rfl := Option.some.inj hs
    exact ⟨rfl, rfl, rfl⟩
  · rename_i hno
    split at hs
    · rename_i hlog
      obtain rfl := Option.some.inj hs
      obtain ⟨i, hi⟩ := Option.isSome_iff_exists.1 hlog.2
      have hfree : s.dir.lookup c.pending = none := by simpa using hno
      refine ⟨rfl, ?_, ?_⟩
      · unfold LogFiles.logs
        rw [filter_keys_rename hi hfree isLog_logname, isLog_pending]
        rfl
      · unfold LogFiles.gzLeft
        rw [lookup_rename hi pending_ne.symm, if_neg gzipFile_ne_pending, if_neg gzipFile_ne]
    · cases hs

/-- **A new archive.** -/
theorem renameLogfile_logs {s₀ : LogFiles} {file : FName} {ok : Bool} (hfit : NamesFit c s₀)
    (hfew : (s.logs c).length < 10 ^ 10) (hfile : c.isLog file = false) (hs : s.renameLogfile c file ok = some s') :
    s' = { s with dir := s'.dir } ∧ (∃ n, s'.logs c = n :: s.logs c ∧ n.length ≤ 127) ∧
      s'.dir.lookup c.gzipFile = if c.gzipFile = file then none else s.dir.lookup c.gzipFile := by
  unfold LogFiles.renameLogfile at hs
  split at hs
  · cases hs
  · rename_i i hi
    split at hs
    · obtain ⟨archive, harch, rfl⟩ := Option.map_eq_some_iff.1 hs
      obtain ⟨hfree, -⟩ := freeName_free harch
      obtain ⟨j, rfl, hj⟩ := freeName_le (p := (c.isLog ·)) (archiveFile_injective _) (isLog_archiveFile _) harch
      have hne : file ≠ c.archiveFile (s.node i).mtime j := by
        intro hbad
        rw [hbad, isLog_archiveFile] at hfile
        cases hfile
      have hgz : c.gzipFile ≠ c.archiveFile (s.node i).mtime j := by
        intro hbad
        have hlog := isLog_gzipFile (c := c)
        rw [hbad, isLog_archiveFile] at hlog
        cases hlog
      refine ⟨rfl, ⟨_, ?_, length_archiveFile hfit (s.node i).mtime (Nat.lt_of_le_of_lt hj hfew)⟩, ?_⟩
      · unfold LogFiles.logs
        rw [filter_keys_rename hi hfree hfile, isLog_archiveFile]
        rfl
      · rw [lookup_rename hi hne, if_neg hgz]
    · cases hs

/-- **The removal over a run**: as many archives as are allowed are left. -/
theorem ArchivesPlain.removal {k : ℕ} {e : FilesEnv} (h : ArchivesPlain c s) (he : ∀ n, e.unlink n = true) (hk : c.logcount ≤ k) :
    (s.removeOldlog c e.readdir e.unlink) = { s with
      dir := (s.removeOldlog c e.readdir e.unlink).dir, removed := (s.removeOldlog c e.readdir e.unlink).removed } ∧
    (∀ n ∈ (s.removeOldlog c e.readdir e.unlink).logs c, n.length ≤ 127) ∧
    ((s.removeOldlog c e.readdir e.unlink).logs c).length ≤ k ∧
    (s.removeOldlog c e.readdir e.unlink).dir.lookup c.gzipFile = s.dir.lookup c.gzipFile := by
  obtain ⟨hkeep, hlen⟩ := removeOldlog_keeps e.readdir he h
  refine ⟨hkeep.rest, fun n hn => h.short n (hkeep.subset hn), by omega, ?_⟩
  rcases hkeep.others c.gzipFile with hsame | ⟨hlog, -⟩
  · exact hsame
  · rw [mem_logs, isLog_gzipFile] at hlog
    cases hlog.2

/-- A new archive, and the removal of old ones. -/
theorem AtMost.renameRemove {s₀ : LogFiles} {k : ℕ} {e : FilesEnv} {file : FName} {ok : Bool} (h : AtMost c k s)
    (hfit : NamesFit c s₀) (hnumber : ∀ n i, s'.dir.lookup n = some i → i < s'.next) (hk : k < 10 ^ 10)
    (hlogcount : c.logcount ≤ k) (he : ∀ n, e.unlink n = true) (hz : s.zip = none)
    (hfile : file = c.gzipFile ∨ c.nocompress = true ∧ file = c.pending) (hs : s.renameLogfile c file ok = some s') :
    ArchivesInv c k (s'.removeOldlog c e.readdir e.unlink) := by
  have hnot : c.isLog file = false := by
    rcases hfile with rfl | ⟨-, rfl⟩
    · exact isLog_gzipFile
    · exact isLog_pending
  obtain ⟨hrest, ⟨n, hlogs, hn⟩, hgz⟩ := renameLogfile_logs hfit (Nat.lt_of_le_of_lt h.count hk) hnot hs
  have hplain : ArchivesPlain c s' := by
    refine ⟨fun m hm => ?_, fun m hm => ?_⟩
    · rw [hlogs] at hm
      rcases List.mem_cons.1 hm with rfl | hm
      · exact hn
      · exact h.short m hm
    · obtain ⟨i, hi⟩ := Option.isSome_iff_exists.1 (AList.lookup_isSome.2 (AList.mem_keys.2 (mem_logs.1 hm).1))
      have hlt := hnumber m i hi
      unfold LogFiles.mtime
      rw [hi]
      rw [hrest] at hlt ⊢
      exact h.dated i hlt
  obtain ⟨hrest', hshort, hcount, hgz'⟩ := hplain.removal he hlogcount
  refine ⟨⟨hshort, fun i hi => ?_, hcount⟩, ?_⟩
  · rw [hrest', hrest] at hi ⊢
    exact h.dated i hi
  · have hz' : (s'.removeOldlog c e.readdir e.unlink).zip = none := by
      rw [hrest', hrest]
      exact hz
    split
    · exact hz'
    · rename_i hcomp
      rcases hfile with rfl | ⟨hno, -⟩
      · unfold LogFiles.gzLeft
        rw [hgz', hgz, if_pos rfl, hz']
        exact hcount
      · exact absurd hno hcomp

theorem ArchivesInv.archiveLog {s₀ : LogFiles} {k : ℕ} {e : FilesEnv} (h : ArchivesInv c k s) (hi : FilesInv c s₀ s)
    (hfit : NamesFit c s₀) (hk : k < 10 ^ 10) (hlogcount : c.logcount ≤ k) (he : e.opendir = true ∧ ∀ n, e.unlink n = true)
    (hz : s.zip = none) (hfd : s.fd = none) : ArchivesInv c k (s.archiveLog c e) := by
  -- nothing but the names changes until then
  have hpend : ∀ {s₁ s₂ : LogFiles} {ok : Bool}, ArchivesInv c k s₁ → s₁.makePending c ok = some s₂ → ArchivesInv c k s₂ := by
    intro s₁ s₂ ok h1 hs₂
    obtain ⟨hrest, hlogs, hgz⟩ := makePending_logs hs₂
    have hleft := h1.left
    refine ⟨⟨fun n hn => h1.short n (hlogs ▸ hn), fun i hi => ?_, hlogs ▸ h1.count⟩, ?_⟩
    · rw [hrest] at hi ⊢
      exact h1.dated i hi
    · rw [hlogs, hgz, hrest]
      exact hleft
  unfold LogFiles.archiveLog
  split
  · rename_i hno
    unfold LogFiles.archiveLogNocompress
    split
    · exact h
    · rename_i s₁ hs₁
      obtain ⟨hi1, hz1, -⟩ := hi.makePending hz hfd hs₁
      have h1 := hpend h hs₁
      split
      · exact h1
      · rename_i s₂ hs₂
        obtain ⟨hi2, -, -⟩ := hi1.renameLogfile hz1 (Or.inl rfl) hs₂
        rw [if_pos he.1]
        exact h1.toAtMost.renameRemove hfit hi2.number hk hlogcount he.2 hz1 (Or.inr ⟨hno, rfl⟩) hs₂
  · rename_i hcomp
    unfold LogFiles.archiveLogCompressed
    split
    · exact h
    · rename_i s₁ hs₁
      have h1 : ArchivesInv c k s₁ ∧ s₁.zip = none := by
        split at hs₁
        · -- a compressed file is left from before: it is counted already
          rename_i hgz
          obtain ⟨hrest, ⟨n, hlogs, hn⟩, hgone⟩ :=
            renameLogfile_logs hfit (Nat.lt_of_le_of_lt h.count hk) isLog_gzipFile hs₁
          have hleft := h.left
          rw [if_neg hcomp, hz] at hleft
          unfold LogFiles.gzLeft at hleft
          rw [if_pos hgz] at hleft
          rw [if_pos rfl] at hgone
          have hz1 : s₁.zip = none := by
            rw [hrest]
            exact hz
          have hcount : (s₁.logs c).length ≤ k := by
            rw [hlogs]
            exact hleft
          refine ⟨⟨⟨fun m hm => ?_, fun i hi => ?_, hcount⟩, ?_⟩, hz1⟩
          · rw [hlogs] at hm
            rcases List.mem_cons.1 hm with rfl | hm
            · exact hn
            · exact h.short m hm
          · rw [hrest] at hi ⊢
            exact h.dated i hi
          · rw [if_neg hcomp]
            unfold LogFiles.gzLeft
            rw [hgone, hz1]
            exact hcount
        · obtain rfl := Option.some.inj hs₁
          exact ⟨h, hz⟩
      split
      · exact h1.1
      · rename_i s₂ hs₂
        have h2 := hpend h1.1 hs₂
        split
        · rename_i hfork
          have hleft := h2.left
          rw [if_neg hcomp, hfork.1] at hleft
          refine ⟨⟨h2.short, h2.dated, h2.count⟩, ?_⟩
          rw [if_neg hcomp]
          exact hleft
        · exact h2

/-- The files that have been opened, closed and written to: the archives are the same. -/
theorem ArchivesInv.same {k : ℕ} (h : ArchivesInv c k s) (hlogs : s'.logs c = s.logs c) (hgz : s'.gzLeft c = s.gzLeft c)
    (hz : s'.zip = s.zip) (hdated : ∀ i < s'.next, 0 < (s'.node i).mtime) : ArchivesInv c k s' := by
  have hleft := h.left
  refine ⟨⟨fun n hn => h.short n (hlogs ▸ hn), hdated, hlogs ▸ h.count⟩, ?_⟩
  rw [hlogs, hgz, hz]
  exact hleft

/-- Files with dates, and one more. -/
theorem dated_update {i : ℕ} {x : LogNode} {n : ℕ} (h : ∀ j < n, j ≠ i → 0 < (s.node j).mtime) (hx : 0 < x.mtime) :
    ∀ j < n, 0 < (Function.update s.node i x j).mtime := by
  intro j hj
  by_cases hji : j = i
  · subst hji
    rw [Function.update_self]
    exact hx
  · rw [Function.update_of_ne hji]
    exact h j hj hji

theorem ArchivesInv.reopen {k : ℕ} {e : FilesEnv} (h : ArchivesInv c k s) (hnow : 0 < e.now) :
    ArchivesInv c k (s.reopen c e).1 := by
  unfold LogFiles.reopen
  split
  · exact h
  · split
    · exact h
    · split
      · exact h.same rfl rfl rfl h.dated
      · split
        · exact h.same rfl rfl rfl h.dated
        · unfold LogFiles.openLog
          cases hl : s.dir.lookup c.logname with
          | some i => exact h.same rfl rfl rfl h.dated
          | none =>
            refine h.same (filter_keys_insert_of_not isLog_logname) ?_ rfl ?_
            · unfold LogFiles.gzLeft
              simp only
              rw [AList.lookup_insert_ne gzipFile_ne]
            · refine dated_update (n := s.next + 1) (fun j hj hne => h.dated j ?_) hnow
              exact Nat.lt_of_le_of_ne (Nat.le_of_lt_succ hj) hne

theorem ArchivesInv.rotate {s₀ : LogFiles} {k : ℕ} {e : FilesEnv} (h : ArchivesInv c k s) (hi : FilesInv c s₀ s)
    (hfit : NamesFit c s₀) (hk : k < 10 ^ 10) (hlogcount : c.logcount ≤ k) (he : e.opendir = true ∧ ∀ n, e.unlink n = true) :
    ArchivesInv c k (s.rotate c e) := by
  unfold LogFiles.rotate
  split
  · rename_i hlong
    have hidle := hi.close.idle none ⟨by decide, by decide⟩ 0 s.lastTry
    rw [← hlong.2] at hidle
    have hclosed : ArchivesInv c k { s with fd := none, filesize := 0 } := h.same rfl rfl rfl h.dated
    exact hclosed.archiveLog hidle hfit hk hlogcount he hlong.2 rfl
  · exact h

/-- `_tlog_write` -/
theorem ArchivesInv.tlogWrite {s₀ : LogFiles} {k : ℕ} {e : FilesEnv} {buff : List UInt8} (h : ArchivesInv c k s)
    (hi : FilesInv c s₀ s) (hfit : NamesFit c s₀) (hk : k < 10 ^ 10) (hlogcount : c.logcount ≤ k) (hnow : 0 < e.now)
    (he : e.opendir = true ∧ ∀ n, e.unlink n = true) : ArchivesInv c k (s.tlogWrite c e buff).1 := by
  unfold LogFiles.tlogWrite
  split
  · exact h
  · have hopen := (h.rotate hi hfit hk hlogcount he).reopen (e := e) hnow
    split
    · rename_i s' hs'
      rw [hs'] at hopen
      exact hopen
    · rename_i s' i hs'
      rw [hs'] at hopen
      split
      · exact hopen.same rfl rfl rfl (dated_update (fun j hj _ => hopen.dated j hj) hnow)
      · split
        · exact hopen.same rfl rfl rfl hopen.dated
        · exact hopen

/-- `_tlog_wait_pid`: the compressed file becomes an archive. -/
theorem ArchivesInv.waitPid {s₀ : LogFiles} {k : ℕ} {e : FilesEnv} (h : ArchivesInv c k s) (hi : FilesInv c s₀ s)
    (hfit : NamesFit c s₀) (hk : k < 10 ^ 10) (hlogcount : c.logcount ≤ k) (hren : e.renameGz = true)
    (he : e.opendir = true ∧ ∀ n, e.unlink n = true) : ArchivesInv c k (s.waitPid c e) := by
  unfold LogFiles.waitPid
  split
  swap
  · exact h
  rename_i hz
  have hleft := h.left
  have hcomp : ¬ c.nocompress = true := by
    intro hno
    rw [if_pos hno, hz] at hleft
    cases hleft
  have hidle := hi.idle none ⟨by decide, by decide⟩ s.filesize s.lastTry
  have hatMost : AtMost c k { s with zip := none } := ⟨h.short, h.dated, h.count⟩
  simp only
  split
  · rename_i hs₂
    -- there is no compressed file
    have hno : s.dir.lookup c.gzipFile = none := by
      by_contra hsome
      obtain ⟨i, hi⟩ := Option.ne_none_iff_exists'.1 hsome
      obtain ⟨j, s₂, hs₂', -⟩ := renameLogfile_isSome (c := c) (s := { s with zip := none }) hi
      rw [hren, hs₂'] at hs₂
      cases hs₂
    refine ⟨hatMost, ?_⟩
    rw [if_neg hcomp]
    unfold LogFiles.gzLeft
    simp only
    rw [hno]
    exact h.count
  · rename_i s₂ hs₂
    obtain ⟨hi2, -, -⟩ := hidle.renameLogfile rfl (Or.inr rfl) hs₂
    rw [if_pos he.1]
    exact hatMost.renameRemove hfit hi2.number hk hlogcount he.2 rfl (Or.inl rfl) hs₂

/-- The child ends. -/
theorem ArchivesInv.exit {k : ℕ} (h : ArchivesInv c k s) (hz : s.zip ≠ none) :
    ArchivesInv c k { s with zip := some .exited } := by
  have hleft := h.left
  refine ⟨⟨h.short, h.dated, h.count⟩, ?_⟩
  split
  · rename_i hno
    rw [if_pos hno] at hleft
    exact absurd hleft hz
  · rename_i hcomp
    rw [if_neg hcomp] at hleft
    have hmade : gzMade s.zip ≤ 1 := by
      unfold gzMade
      split
      all_goals omega
    exact Nat.le_trans hleft (Nat.add_le_add_left hmade k)

/-- The child: it makes one file, which is counted from then on. -/
theorem ArchivesInv.gzip {s₀ : LogFiles} {k now : ℕ} (h : ArchivesInv c k s) (hi : FilesInv c s₀ s) (hnow : 0 < now)
    (hs : GzipStep c now s s') : ArchivesInv c k s' := by
  have hleft := h.left
  have hcomp : ∀ pc, s.zip = some pc → ¬ c.nocompress = true := by
    intro pc hz hno
    rw [if_pos hno, hz] at hleft
    cases hleft
  cases hs with
  | @creates i hz _ _ =>
    have hlogs : ({ s with dir := s.dir.insert c.gzipFile s.next } : LogFiles).logs c = s.logs c :=
      filter_keys_insert_of_not isLog_gzipFile
    refine ⟨⟨fun n hn => h.short n (hlogs ▸ hn), ?_, hlogs ▸ h.count⟩, ?_⟩
    · refine dated_update (n := s.next + 1) (fun j hj hne => h.dated j ?_) hnow
      exact Nat.lt_of_le_of_ne (Nat.le_of_lt_succ hj) hne
    · rw [if_neg (hcomp _ hz)]
      unfold LogFiles.gzLeft
      simp only
      rw [AList.lookup_insert]
      have hcount := h.count
      rw [← hlogs] at hcount
      exact Nat.add_le_add_right hcount 1
  | writes bytes hz _ _ => exact h.same rfl rfl rfl (dated_update (fun j hj _ => h.dated j hj) hnow)
  | @completes i g hz hp _ =>
    refine ⟨⟨h.short, dated_update (fun j hj _ => h.dated j hj) (h.dated _ (hi.number _ i hp)), h.count⟩, ?_⟩
    rw [if_neg (hcomp _ hz)]
    rw [if_neg (hcomp _ hz), hz] at hleft
    exact hleft
  | unlinks hz =>
    refine (h.exit (by rw [hz]; exact Option.some_ne_none _)).same ?_ ?_ rfl h.dated
    · exact filter_keys_erase_of_not isLog_pending
    · unfold LogFiles.gzLeft
      simp only
      rw [AList.lookup_erase_ne gzipFile_ne_pending]
  | discards hz =>
    have hlogs : ({ s with dir := s.dir.erase c.gzipFile } : LogFiles).logs c = s.logs c :=
      filter_keys_erase_of_not isLog_gzipFile
    refine ⟨⟨fun n hn => h.short n (hlogs ▸ hn), h.dated, hlogs ▸ h.count⟩, ?_⟩
    rw [if_neg (hcomp _ hz)]
    unfold LogFiles.gzLeft
    simp only
    rw [AList.lookup_erase]
    have hcount := h.count
    rw [← hlogs] at hcount
    exact Nat.le_succ_of_le hcount
  | exits hz => exact h.exit hz

/-- **The archives stay few**: in every run whose calls succeed there are between the calls never more archives than
are allowed, or than there were at first with a compressed file left from before. -/
theorem archives_bounded {child : ℕ → LogFiles → Option LogFiles} {s₀ : LogFiles} (hchild : GzipDoes c child)
    (hs₀ : FilesStart s₀) (hfit : NamesFit c s₀) (h : Reach (filesStep c child) CallsSucceed s₀ s) :
    (s.logs c).length ≤ max ((s₀.logs c).length + s₀.gzLeft c) c.logcount := by
  have hlogcount : c.logcount ≤ max ((s₀.logs c).length + s₀.gzLeft c) c.logcount := Nat.le_max_right _ _
  have hfew := hfit.few
  generalize hk : max ((s₀.logs c).length + s₀.gzLeft c) c.logcount = k at hlogcount hfew ⊢
  have hmax : (s₀.logs c).length + s₀.gzLeft c ≤ k := hk ▸ Nat.le_max_left _ _
  have hstart : FilesInv c s₀ s₀ ∧ ArchivesInv c k s₀ := by
    refine ⟨filesInv_start hs₀, ⟨⟨hfit.short, hfit.dated, Nat.le_trans (Nat.le_add_right _ _) hmax⟩, ?_⟩⟩
    rw [hs₀.closed.2.1]
    split
    · rfl
    · exact hmax
  refine (h.inv (I := fun s => FilesInv c s₀ s ∧ ArchivesInv c k s) hstart ?_).2.count
  rintro s a s' ⟨hi, ha⟩ hok hs
  refine ⟨hi.step hs₀ hchild hs, ?_⟩
  cases a with
  | write e buff =>
    simp only [filesStep] at hs
    split at hs
    · obtain rfl := Option.some.inj hs
      exact ha.tlogWrite hi hfit hfew hlogcount hok.1 hok.2
    · cases hs
  | waitPid e =>
    obtain rfl := Option.some.inj hs
    exact ha.waitPid hi hfit hfew hlogcount hok.1 hok.2
  | gzip now => exact ha.gzip hi hok (hchild now _ _ hs)
  | gzipDies =>
    simp only [filesStep] at hs
    split at hs
    · cases hs
    · rename_i hz
      obtain rfl := Option.some.inj hs
      exact ha.exit hz

/-- Three log files are archived, one after the other. -/
def archivesDemo : List FilesAct :=
  [1, 3, 5].flatMap fun now => [.write (demoFilesEnv now 5) [1, 2, 3, 4, 5], .write (demoFilesEnv (now + 1) 1) [6], .gzip now,
    .gzip now, .gzip now, .waitPid (demoFilesEnv (now + 1) 0)]

theorem archivesDemo_runs : (run (filesStep demoFiles (LogFiles.gzip demoFiles)) emptyLogFiles archivesDemo).isSome := by
  decide +kernel

def archivesDemoEnd : LogFiles := runTo archivesDemo_runs

theorem archivesDemo_succeeds : ∀ a ∈ archivesDemo, ∀ s, CallsSucceed s a := by
  intro a ha s
  obtain ⟨now, hnow, ha⟩ := List.mem_flatMap.1 ha
  have hpos : 0 < now := by
    simp only [List.mem_cons, List.not_mem_nil, or_false] at hnow
    omega
  simp only [List.mem_cons, List.not_mem_nil, or_false] at ha
  rcases ha with rfl | rfl | rfl | rfl | rfl | rfl
  · exact ⟨hpos, rfl, fun _ => rfl⟩
  · exact ⟨Nat.succ_pos now, rfl, fun _ => rfl⟩
  · exact hpos
  · exact hpos
  · exact hpos
  · exact ⟨rfl, rfl, fun _ => rfl⟩

theorem archives_bounded_demo :
    archivesDemoEnd.removed.map Prod.snd = [0] ∧
      (archivesDemoEnd.logs demoFiles).length ≤
        max ((emptyLogFiles.logs demoFiles).length + emptyLogFiles.gzLeft demoFiles) demoFiles.logcount :=
  ⟨by decide +kernel,
    archives_bounded gzip_does emptyLogFiles_start
      ⟨by decide, fun _ => Nat.one_le_ofNat, by decide +kernel, fun i hi => absurd hi (Nat.not_lt_zero i), by decide +kernel⟩
      (reach_of_along (along_of_forall archivesDemo_succeeds) (run_runTo archivesDemo_runs))⟩

end HookKernel
