import HookKernel.Lib.Run
import HookKernel.Proof.Datafile

/-!
# The file cache under any sequence of calls

The three functions of the cache, called in any order. The ghost fields say which
names were appended to the current `names_msg`, and which of them were not taken
back since.

* `cache_calls`: no call leaves an allocation, and after any sequence of calls the
  name list, `file_count` and the current file agree.
* `visited_names_iff`: the consumer visits exactly the names that are left, if there
  are any or there never was one. A list emptied by taking names back is still
  visited at the stale first name.
-/

namespace HookKernel

open Lib

variable {lt : ℤ → Tm} {dir : CStr} {addr : ℕ} {m : Message}

/-! ## Calls -/

/-- A call on the cache. -/
inductive DCall
  | write (m : Message) (addr : ℕ) (e : WriteEnv)
  | reset
  | detach
deriving DecidableEq

/-- The cache, its files, and (ghost) the names appended to `names_msg` and those left. -/
structure Cache where
  info : DatafileInfo
  fs : Disk
  appended : List Name
  left : List Name

namespace Cache

/-- After `datafile_init`. -/
def init (dir : CStr) (maxFsize maxFcnt : ℤ) (fs : Disk) : Cache :=
  ⟨datafileInit dir maxFsize maxFcnt, fs, [], []⟩

/-- One call; `none` if it leaves an allocation or follows a null pointer. -/
def call (lt : ℤ → Tm) (s : Cache) : DCall → Option Cache
  | .write m addr e => (datafileWriteDatamsg lt s.info s.fs m addr e).map fun w =>
      ⟨w.info, w.fs, s.appended ++ w.opened.toList, s.left ++ w.opened.toList⟩
  | .reset => (datafileResetCurrfile s.info s.fs).map fun (info, fs) =>
      ⟨info, fs, s.appended, if s.info.currFp.isSome then s.left.dropLast else s.left⟩
  | .detach =>
    let (info, fs) := datafileDetachNamemsg s.info s.fs
    some ⟨info, fs, [], []⟩

/-- The cache before its first call, with a fresh `names_msg` already there. -/
def fresh (dir : CStr) (maxFsize maxFcnt : ℤ) (fs : Disk) (addr : ℕ) : Cache :=
  let s := init dir maxFsize maxFcnt fs
  { s with info := { s.info with namesMsg := s.info.allocNames addr } }

end Cache

/-! ## The invariant -/

/-- **The name list** holds the names left, and its buffer starts with a name once one was
appended. -/
structure NamesInv (s : Cache) : Prop where
  data : DInv s.info
  listed : s.info.listed = s.left
  stale : ∀ names, s.info.namesMsg = some names → (names.filename = [] ↔ s.appended = [])

/-- `file_count` counts names of bounded length, a file is open whenever the cache is full,
and the list has its allocation. -/
structure CountInv (dir : CStr) (s : Cache) : Prop where
  path : s.info.path = dir
  count : s.info.fileCount = s.left.length
  pos : 1 ≤ s.info.maxFcnt
  full : s.info.fileCount ≤ s.info.maxFcnt ∧ (s.info.fileCount = s.info.maxFcnt → s.info.currFp.isSome)
  size : ∀ n ∈ s.left, n.length ≤ 255
  cap : ∀ names, s.info.namesMsg = some names →
    names.cap = (s.info.maxFcnt + 1) * (256 + 1) ∧ (names.data.length : ℤ) = names.cap

/-- **The representation**, with what keeps it. -/
structure CacheInv (dir : CStr) (s : Cache) : Prop extends NamesInv s, CountInv dir s

theorem maxFcnt_clamp {maxFcnt : ℤ} (h : 1 ≤ maxFcnt) : 1 ≤ if maxFcnt > 5 then 4 else maxFcnt := by
  split <;> omega

theorem cacheInv_init (dir : CStr) (maxFsize : ℤ) {maxFcnt : ℤ} (h : 1 ≤ maxFcnt) (fs : Disk) :
    CacheInv dir (.init dir maxFsize maxFcnt fs) where
  data := dinv_init _ _ _
  listed := rfl
  stale := by intro _ hn; cases hn
  path := rfl
  count := rfl
  pos := maxFcnt_clamp h
  full := by
    have h1 := maxFcnt_clamp h
    refine ⟨?_, fun h0 => ?_⟩
    · show (0 : ℤ) ≤ if maxFcnt > 5 then 4 else maxFcnt
      omega
    · have h2 : (0 : ℤ) = if maxFcnt > 5 then 4 else maxFcnt := h0
      omega
  size := by intro n hn; cases hn
  cap := by intro _ hn; cases hn

/-- A fresh `names_msg` holds no name. -/
theorem allocNames_fresh {info : DatafileInfo} {names : Message} (hnone : info.namesMsg = none)
    (h : info.allocNames addr = some names) :
    names.Lists [] ∧ names.filename = [] ∧ names.cap = (info.maxFcnt + 1) * (256 + 1) ∧
      (names.data.length : ℤ) = names.cap := by
  rw [allocNames_of_none hnone] at h
  obtain ⟨names', hnew, rfl⟩ := Option.map_eq_some_iff.1 h
  have hl := lists_new hnew
  obtain ⟨hcap, rfl⟩ := messageNew_cases hnew
  refine ⟨hl, ?_, rfl, ?_⟩
  · unfold Message.filename
    cases ((info.maxFcnt + 1) * (256 + 1)).toNat with
    | zero => rfl
    | succ k => simp only [List.replicate_succ, cstr_terminated nul_text_zero, List.map_nil]
  · simp only [List.length_replicate]
    omega

theorem allocNames_isSome {info : DatafileInfo} (hpos : 1 ≤ info.maxFcnt) (addr : ℕ) : (info.allocNames addr).isSome := by
  cases hmsg : info.namesMsg with
  | some names =>
    rw [allocNames_of_some hmsg]
    rfl
  | none =>
    rw [allocNames_of_none hmsg]
    have hcap : ¬ (info.maxFcnt + 1) * (256 + 1) < 0 := by omega
    simp only [messageNew, if_neg hcap, Option.map_some, Option.isSome_some]

theorem namesInv_fresh (dir : CStr) (maxFsize maxFcnt : ℤ) (fs : Disk) (addr : ℕ) :
    NamesInv (.fresh dir maxFsize maxFcnt fs addr) := by
  have halloc : ∀ names, (Cache.fresh dir maxFsize maxFcnt fs addr).info.namesMsg = some names →
      names.Lists [] ∧ names.filename = [] := by
    intro names hn
    have hnone : (datafileInit dir maxFsize maxFcnt).namesMsg = none := rfl
    obtain ⟨h1, h2, -⟩ := allocNames_fresh hnone hn
    exact ⟨h1, h2⟩
  refine ⟨⟨fun names hn => ?_, fun hs => (by cases hs), fun _ => rfl⟩, ?_, fun names hn => ?_⟩
  · have hl := (halloc names hn).1
    rw [hl.listed]
    exact hl
  · unfold DatafileInfo.listed
    split
    · rfl
    · rename_i names hn
      exact (halloc names hn).1.listed
  · exact ⟨fun _ => rfl, fun _ => (halloc names hn).2⟩

/-! ## No call leaves an allocation -/

/-- A path of 1 to 235 bytes leaves room for a slash and the stamp. -/
theorem dataName_length {path : CStr} (h : path.1.length ≤ 235) (t : Tm) :
    (dataName path (strftime t)).length ≤ 255 := by
  unfold dataName
  rw [List.length_append, List.length_append, strftime_length]
  split
  · simp only [List.length_nil]
    omega
  · simp only [List.length_singleton]
    omega

/-- Names of at most 255 bytes take at most 256 bytes each. -/
theorem encodeNames_length_le : ∀ {ns : List Name}, (∀ n ∈ ns, n.length ≤ 255) →
    (encodeNames ns).length ≤ 256 * ns.length := by
  intro ns
  induction ns with
  | nil => intro _; simp [encodeNames]
  | cons n ns ih =>
    intro h
    have h1 := h n List.mem_cons_self
    have h2 := ih fun m hm => h m (List.mem_cons_of_mem _ hm)
    simp only [encodeNames, List.map_cons, encode_cons, List.length_append, List.length_cons,
      List.length_map] at h2 ⊢
    omega

theorem Message.Lists.len_eq {ns : List Name} (h : m.Lists ns) : m.len = (encodeNames ns).length := by
  have h1 := h.lists.len_eq
  have h2 := h.len_nonneg
  unfold encodeNames
  omega

/-- The allocation that the list is kept in. -/
theorem CacheInv.alloc {s : Cache} (h : CacheInv dir s) {names : Message} (hn : s.info.allocNames addr = some names) :
    names.Lists s.left ∧ names.cap = (s.info.maxFcnt + 1) * (256 + 1) ∧ (names.data.length : ℤ) = names.cap := by
  cases hmsg : s.info.namesMsg with
  | none =>
    obtain ⟨h1, -, h2⟩ := allocNames_fresh hmsg hn
    rw [← h.listed, listed_of_none hmsg]
    exact ⟨h1, h2⟩
  | some names' =>
    rw [allocNames_of_some hmsg] at hn
    obtain rfl := Option.some.inj hn
    have h1 := h.data.lists hmsg
    rw [h.listed] at h1
    exact ⟨h1, h.cap _ hmsg⟩

/-- **The next name fits**: the list holds at most `max_fcnt` names before it. -/
theorem CacheInv.fits {s : Cache} (h : CacheInv dir s) {names : Message} (hn : s.info.allocNames addr = some names)
    {n : Name} (hlen : n.length ≤ 255) : 0 ≤ names.len ∧ names.len + (n.length + 1) ≤ names.data.length := by
  obtain ⟨h1, h2, h3⟩ := h.alloc hn
  have h4 := encodeNames_length_le h.size
  have h5 := h1.len_eq
  have h6 := h.full.1
  have h7 := h.count
  have h8 := h.pos
  omega

/-- **A new file is opened only when there is room for its name.** -/
theorem CacheInv.room {s : Cache} (h : CacheInv dir s) (hclosed : (s.info.rotate s.fs m).1.currFp = none)
    (hfull : ¬ (s.info.fileCount ≥ s.info.maxFcnt ∧ s.info.over m = true)) : s.info.fileCount < s.info.maxFcnt := by
  have hle := h.full.1
  rcases lt_or_eq_of_le hle with hlt | heq
  · exact hlt
  · -- a full cache has its file open, and the rotation would have closed it for a message that is over
    exfalso
    have hopen := h.full.2 heq
    rcases rotate_closed.1 hclosed with hnone | hover
    · rw [hnone] at hopen
      cases hopen
    · exact hfull ⟨by omega, hover⟩

/-- Appending looks at the capacity and at `names_msg` only. -/
theorem allocNames_congr {info info' : DatafileInfo} (h1 : info'.maxFcnt = info.maxFcnt)
    (h2 : info'.namesMsg = info.namesMsg) (addr : ℕ) : info'.allocNames addr = info.allocNames addr := by
  unfold DatafileInfo.allocNames
  rw [h1, h2]

/-- The allocation stays as large as it is. -/
theorem store_size {off : ℤ} {bs : List Cell} {m' : Message} (h : m.store off bs = some m') :
    m'.cap = m.cap ∧ m'.data.length = m.data.length := by
  obtain ⟨h0, hfit, rfl⟩ := store_cases h
  exact ⟨rfl, length_overwrite (by omega)⟩

theorem appendName_size {s : Cache} (h : CacheInv dir s) {info : DatafileInfo} {names : Message}
    (h1 : info.maxFcnt = s.info.maxFcnt) (h2 : info.namesMsg = s.info.namesMsg)
    (happ : info.appendName addr = some names) :
    names.cap = (s.info.maxFcnt + 1) * (256 + 1) ∧ (names.data.length : ℤ) = names.cap := by
  obtain ⟨names₀, names₁, halloc, hst, rfl⟩ := appendName_cases happ
  rw [allocNames_congr h1 h2] at halloc
  obtain ⟨-, hcap, hlen⟩ := h.alloc halloc
  obtain ⟨h3, h4⟩ := store_size hst
  simp only [h3, h4]
  exact ⟨hcap, hlen⟩

theorem appendName_isSome {s : Cache} (h : CacheInv dir s) {info : DatafileInfo}
    (h1 : info.maxFcnt = s.info.maxFcnt) (h2 : info.namesMsg = s.info.namesMsg) (hname : info.fname.length ≤ 255) :
    (info.appendName addr).isSome := by
  obtain ⟨names, hn⟩ := Option.isSome_iff_exists.1 (allocNames_isSome h.pos addr)
  have hfit := h.fits hn hname
  have hfit' : names.len + ((info.fname.map Cell.text ++ [Cell.text 0]).length : ℕ) ≤ (names.data.length : ℤ) := by
    rw [List.length_append, List.length_map, List.length_singleton]
    omega
  unfold DatafileInfo.appendName
  rw [allocNames_congr h1 h2, hn]
  simp only [Option.bind_eq_bind, Option.bind_some, store_fits hfit.1 hfit', Option.isSome_some]

theorem isSome_bind {α β : Type} {x : Option α} {f : α → Option β} (hx : x.isSome) (hf : ∀ a, (f a).isSome) :
    (x.bind f).isSome := by
  obtain ⟨a, rfl⟩ := Option.isSome_iff_exists.1 hx
  exact hf a

/-- **Every call returns.** -/
theorem CacheInv.call_isSome {s : Cache} (h : CacheInv dir s) (h1 : 0 < dir.1.length) (h2 : dir.1.length ≤ 235)
    (a : DCall) : (s.call lt a).isSome := by
  cases a with
  | write m addr e =>
    unfold Cache.call
    rw [Option.isSome_map]
    obtain ⟨hpath, hmax, -, hcount, hnames⟩ := rotate_fields s.info s.fs m
    unfold datafileWriteDatamsg
    split
    · rfl
    simp only
    split
    · rfl
    rename_i hclosed
    have hclear := (dinv_rotate s.fs m h.data).cleared hclosed
    rw [← h.path] at h1 h2
    obtain ⟨buf, k, hbuf, -, -, hname⟩ := buildFname_short clearedFname_length h1 h2 (strftime_ne_zero (lt e.now))
    unfold createDatafile
    rw [hclear, hpath, hbuf]
    cases e.fopenOk with
    | false => simp
    | true =>
      simp only [Option.bind_eq_bind, Option.bind_some, if_true, Bool.not_true, Bool.false_eq_true, if_false]
      refine isSome_bind (appendName_isSome h hmax hnames ?_) fun _ => rfl
      rw [fname_eq, hname]
      exact dataName_length h2 _
  | reset =>
    unfold Cache.call datafileResetCurrfile
    rw [Option.isSome_map]
    split
    · rfl
    · rename_i fp hfp
      have hsome := (h.data.curr (by rw [hfp]; rfl)).1
      split
      · rename_i hnone
        rw [hnone] at hsome
        cases hsome
      · rfl
  | detach => rfl

/-! ## Every call keeps the invariant -/

/-- A list with a name in it starts with one. -/
theorem Message.Lists.filename_ne {ns : List Name} (h : m.Lists ns) (hne : ns ≠ []) : m.filename ≠ [] := by
  obtain ⟨n, ns, rfl⟩ := List.exists_cons_of_ne_nil hne
  rw [h.filename]
  have h1 := (h.lists.name (n.map .text) (by simp)).1
  simpa using h1

variable {s s' : Cache} {e : WriteEnv} {w : WriteRes}

/-- **A name appended** is the last on the list, and the buffer starts with a name. -/
theorem NamesInv.wrote (h : NamesInv s) (hw : Wrote lt s.info s.fs m addr e w) :
    NamesInv ⟨w.info, w.fs, s.appended ++ w.opened.toList, s.left ++ w.opened.toList⟩ := by
  obtain ⟨hd, hl⟩ := hw.dinv h.data
  rw [h.listed] at hl
  refine ⟨hd, hl, ?_⟩
  cases hw with
  | full _ _ =>
    simp only [Option.toList_none, List.append_nil]
    exact h.stale
  | same _ _ =>
    simp only [writeCurr_namesMsg, writeCurr_opened, Option.toList_none, List.append_nil]
    exact h.stale
  | noFile hclosed hfull _ =>
    obtain ⟨-, -, -, -, hnames⟩ := rotate_fields s.info s.fs m
    simp only [hnames, Option.toList_none, List.append_nil]
    exact h.stale
  | @new buf names info' hclosed hfull hbuf hinfo happ _ =>
    obtain ⟨-, -, hlists⟩ := new_names h.data hclosed hbuf hinfo happ
    have hne := hlists.filename_ne (by simp)
    rw [writeCurr_namesMsg, writeCurr_opened]
    rintro _ ⟨⟩
    simp [hne]

/-- The counters depend on these fields only. -/
theorem CountInv.congr (h : CountInv dir s) (h1 : s'.info.path = s.info.path) (h2 : s'.info.maxFcnt = s.info.maxFcnt)
    (h3 : s'.info.fileCount = s.info.fileCount) (h4 : s'.info.namesMsg = s.info.namesMsg) (h5 : s'.left = s.left)
    (h6 : s.info.fileCount = s.info.maxFcnt → s'.info.currFp.isSome) : CountInv dir s' := by
  refine ⟨by rw [h1, h.path], by rw [h3, h5, h.count], by rw [h2]; exact h.pos, ?_, by rw [h5]; exact h.size, ?_⟩
  · rw [h2, h3]
    exact ⟨h.full.1, h6⟩
  · rw [h2, h4]
    exact h.cap

theorem CacheInv.wrote (h : CacheInv dir s) (hw : Wrote lt s.info s.fs m addr e w) :
    CacheInv dir ⟨w.info, w.fs, s.appended ++ w.opened.toList, s.left ++ w.opened.toList⟩ := by
  refine ⟨h.toNamesInv.wrote hw, ?_⟩
  obtain ⟨hpath, hmax, -, hcount, hnames⟩ := rotate_fields s.info s.fs m
  cases hw with
  | full _ _ => exact h.toCountInv.congr rfl rfl rfl rfl (List.append_nil _) h.full.2
  | @same fp _ hfp =>
    refine h.toCountInv.congr (writeCurr_path _ _ _ _ _ _) (writeCurr_maxFcnt _ _ _ _ _ _)
      (writeCurr_fileCount _ _ _ _ _ _) (writeCurr_namesMsg _ _ _ _ _ _) ?_ fun _ => ?_
    · rw [writeCurr_opened]
      exact List.append_nil _
    · rw [writeCurr_currFp]
      rfl
  | noFile hclosed hfull _ =>
    have hroom := h.room hclosed hfull
    exact h.toCountInv.congr hpath hmax hcount hnames (List.append_nil _) fun heq => by omega
  | @new buf names info' hclosed hfull hbuf hinfo happ _ =>
    have hroom := h.room hclosed hfull
    obtain ⟨-, hname, -⟩ := new_names h.data hclosed hbuf hinfo happ
    have h2 : s.info.path.1.length ≤ 235 := by
      rw [(dinv_rotate s.fs m h.data).cleared hclosed] at hbuf
      exact (buildFname_eq (strftime_ne_zero _) hbuf).2.1
    have hmax' : info'.maxFcnt = s.info.maxFcnt := by rw [hinfo]; exact hmax
    have hnames' : info'.namesMsg = s.info.namesMsg := by rw [hinfo]; exact hnames
    have hcount' : info'.fileCount = s.info.fileCount + 1 := by rw [hinfo]
    have hpath' : info'.path = s.info.path := by rw [hinfo]; exact hpath
    have hcap := appendName_size h hmax' hnames' happ
    have hlen := h.count
    refine ⟨?_, ?_, ?_, ?_, ?_, ?_⟩
    · rw [writeCurr_path]
      exact hpath'.trans h.path
    · rw [writeCurr_fileCount, writeCurr_opened]
      simp only [hcount', Option.toList_some, List.length_append, List.length_singleton]
      omega
    · rw [writeCurr_maxFcnt]
      simp only [hmax', h.pos]
    · rw [writeCurr_maxFcnt, writeCurr_fileCount, writeCurr_currFp]
      simp only [hmax', hcount']
      exact ⟨by omega, fun _ => rfl⟩
    · rw [writeCurr_opened]
      intro n hn
      rcases List.mem_append.1 hn with hn | hn
      · exact h.size n hn
      · rw [List.mem_singleton.1 hn, hname]
        exact dataName_length h2 _
    · rw [writeCurr_namesMsg, writeCurr_maxFcnt]
      rintro _ ⟨⟩
      simp only [hmax']
      exact hcap

/-- What `datafile_reset_currfile` does to the list and the counter. -/
theorem reset_cases {info info' : DatafileInfo} {fs fs' : Disk} (hi : DInv info)
    (hr : datafileResetCurrfile info fs = some (info', fs')) :
    (info.currFp = none ∧ info' = (closeDatafile info fs).1) ∨
      ∃ fp names, info.currFp = some fp ∧ info.namesMsg = some names ∧
        info' = (closeDatafile { info with
          fileCount := if info.fileCount > 0 then info.fileCount - 1 else info.fileCount
          namesMsg := some { names with len := names.len - (info.fname.length + 1) }
          currFname := clearedFname } fs).1 := by
  unfold datafileResetCurrfile at hr
  cases hfp : info.currFp with
  | none =>
    rw [hfp] at hr
    obtain ⟨rfl, rfl⟩ := Prod.mk.inj (Option.some.inj hr)
    exact Or.inl ⟨rfl, rfl⟩
  | some fp =>
    obtain ⟨names, hnames⟩ := Option.isSome_iff_exists.1 (hi.curr (by rw [hfp]; rfl)).1
    rw [hfp] at hr
    rw [hnames] at hr
    obtain ⟨rfl, rfl⟩ := Prod.mk.inj (Option.some.inj hr)
    exact Or.inr ⟨fp, names, rfl, hnames, rfl⟩

/-- Taking a name back leaves its bytes where they are. -/
theorem NamesInv.reset (h : NamesInv s) {info' : DatafileInfo} {fs' : Disk}
    (hr : datafileResetCurrfile s.info s.fs = some (info', fs')) :
    NamesInv ⟨info', fs', s.appended, if s.info.currFp.isSome then s.left.dropLast else s.left⟩ := by
  obtain ⟨hd, -, hl⟩ := reset_dinv h.data hr
  rw [h.listed] at hl
  refine ⟨hd, hl, ?_⟩
  obtain ⟨-, rfl⟩ | ⟨fp, names, -, hnames, rfl⟩ := reset_cases h.data hr
  · exact h.stale
  · rintro _ ⟨⟩
    exact h.stale names hnames

theorem CacheInv.reset (h : CacheInv dir s) {info' : DatafileInfo} {fs' : Disk}
    (hr : datafileResetCurrfile s.info s.fs = some (info', fs')) :
    CacheInv dir ⟨info', fs', s.appended, if s.info.currFp.isSome then s.left.dropLast else s.left⟩ := by
  refine ⟨h.toNamesInv.reset hr, ?_⟩
  have hle := h.full.1
  obtain ⟨hfp, rfl⟩ | ⟨fp, names, hfp, hnames, rfl⟩ := reset_cases h.data hr
  · simp only [hfp, Option.isSome_none, Bool.false_eq_true, if_false]
    refine ⟨h.path, h.count, h.pos, ⟨h.full.1, fun heq => ?_⟩, h.size, h.cap⟩
    have hopen := h.full.2 heq
    rw [hfp] at hopen
    cases hopen
  · obtain ⟨-, ns, hns⟩ := h.data.curr (by rw [hfp]; rfl)
    rw [h.listed] at hns
    have hcount := h.count
    rw [hns, List.length_append, List.length_singleton] at hcount
    have hpos : s.info.fileCount > 0 := by omega
    simp only [hfp, Option.isSome_some, if_true, hns, List.dropLast_concat]
    refine ⟨h.path, ?_, h.pos, ⟨?_, fun heq => ?_⟩, fun n hn => h.size n ?_, ?_⟩
    · simp only [closeDatafile, if_pos hpos]
      omega
    · simp only [closeDatafile, if_pos hpos]
      omega
    · simp only [closeDatafile, if_pos hpos] at heq
      omega
    · rw [hns]
      exact List.mem_append_left _ hn
    · rintro _ ⟨⟩
      exact h.cap names hnames

theorem namesInv_detach (s : Cache) :
    NamesInv ⟨(datafileDetachNamemsg s.info s.fs).1, (datafileDetachNamemsg s.info s.fs).2, [], []⟩ := by
  obtain ⟨h1, h2⟩ := detach_dinv s.info s.fs
  refine ⟨h1, h2, ?_⟩
  rintro _ ⟨⟩

theorem CacheInv.detach (h : CacheInv dir s) :
    CacheInv dir ⟨(datafileDetachNamemsg s.info s.fs).1, (datafileDetachNamemsg s.info s.fs).2, [], []⟩ := by
  have hpos := h.pos
  refine ⟨namesInv_detach s, h.path, rfl, h.pos, ⟨?_, fun heq => ?_⟩, ?_, ?_⟩
  · show (0 : ℤ) ≤ s.info.maxFcnt
    omega
  · have h0 : (0 : ℤ) = s.info.maxFcnt := heq
    omega
  · intro n hn
    cases hn
  · rintro _ ⟨⟩

theorem NamesInv.step (h : NamesInv s) {a : DCall} (hs : s.call lt a = some s') : NamesInv s' := by
  cases a with
  | write m addr e =>
    obtain ⟨w, hw, rfl⟩ := Option.map_eq_some_iff.1 hs
    exact h.wrote (wrote_of_write hw)
  | reset =>
    obtain ⟨⟨info', fs'⟩, hr, rfl⟩ := Option.map_eq_some_iff.1 hs
    exact h.reset hr
  | detach =>
    obtain rfl := Option.some.inj hs
    exact namesInv_detach s

/-- **Every call keeps the invariant.** -/
theorem CacheInv.step (h : CacheInv dir s) {a : DCall} (hs : s.call lt a = some s') :
    CacheInv dir s' := by
  cases a with
  | write m addr e =>
    obtain ⟨w, hw, rfl⟩ := Option.map_eq_some_iff.1 hs
    exact h.wrote (wrote_of_write hw)
  | reset =>
    obtain ⟨⟨info', fs'⟩, hr, rfl⟩ := Option.map_eq_some_iff.1 hs
    exact h.reset hr
  | detach =>
    obtain rfl := Option.some.inj hs
    exact h.detach

/-! ## The representation -/

/-- **The name list, `file_count` and the current file agree.** -/
structure CacheRep (s : Cache) : Prop where
  /-- an open file is the last name of the list -/
  curr : s.info.currFp.isSome → s.info.namesMsg.isSome ∧ s.left.getLast? = some s.info.fname
  unlisted : s.info.namesMsg = none → s.info.fileCount = 0
  /-- the bytes in use are the names left, in creation order -/
  listed : ∀ names, s.info.namesMsg = some names → names.bytes = encodeNames s.left ∧
    names.len = (encodeNames s.left).length ∧ s.info.fileCount = s.left.length ∧ ∀ n ∈ s.left, n ≠ [] ∧ 0 ∉ n
  count : 0 ≤ s.info.fileCount ∧ s.info.fileCount ≤ s.info.maxFcnt
  full : s.info.fileCount = s.info.maxFcnt → s.info.currFp.isSome
  /-- the end of the last `strcpy`, the capacity and the allocation -/
  cap : ∀ names, s.info.namesMsg = some names → 0 ≤ names.len ∧ names.len ≤ names.cap ∧
    names.cap = (s.info.maxFcnt + 1) * 257 ∧ (names.data.length : ℤ) = names.cap

theorem CacheInv.rep (h : CacheInv dir s) : CacheRep s where
  curr hopen := by
    obtain ⟨hsome, ns, hns⟩ := h.data.curr hopen
    rw [h.listed] at hns
    exact ⟨hsome, by rw [hns, List.getLast?_concat]⟩
  unlisted hnone := by
    have hl := h.listed
    rw [listed_of_none hnone] at hl
    rw [h.count, ← hl]
    rfl
  listed names hn := by
    have hl := h.data.lists hn
    rw [h.listed] at hl
    refine ⟨hl.bytes, hl.len_eq, h.count, fun n hmem => ?_⟩
    obtain ⟨h1, h2⟩ := hl.lists.name (n.map .text) (List.mem_map_of_mem hmem)
    refine ⟨by simpa using h1, fun h0 => ?_⟩
    have h3 := h2 (.text 0) (List.mem_map_of_mem h0)
    cases h3
  count := ⟨by rw [h.count]; omega, h.full.1⟩
  full := h.full.2
  cap names hn := by
    have hl := h.data.lists hn
    obtain ⟨h1, h2⟩ := h.cap names hn
    have h3 := hl.lists.len_le
    have h4 := hl.len_nonneg
    exact ⟨h4, by omega, by omega, h2⟩

/-- **The representation invariant of the file cache.** For every path of 1 to 235 bytes and
every `max_fcnt` of at least 1, after any sequence of calls from `datafile_init` the name
list, `file_count` and the current file agree, and the next call returns: no `strcpy`
leaves `names_msg`. -/
theorem cache_calls (lt : ℤ → Tm) (dir : CStr) (h1 : 1 ≤ dir.1.length) (h2 : dir.1.length ≤ 235)
    (maxFsize maxFcnt : ℤ) (hcnt : 1 ≤ maxFcnt) (fs : Disk) (s : Cache)
    (h : Reach (Cache.call lt) Any (.init dir maxFsize maxFcnt fs) s) :
    CacheRep s ∧ ∀ a, (s.call lt a).isSome := by
  have hinv : CacheInv dir s :=
    h.inv (I := CacheInv dir) (cacheInv_init dir maxFsize hcnt fs) fun _ _ _ hi _ hs => hi.step hs
  exact ⟨hinv.rep, fun a => hinv.call_isSome h1 h2 a⟩

/-- Data files under `/c`. -/
def demoDir : CStr := ⟨[47, 99], by decide⟩

/-- The seconds of one minute. -/
def demoTime (t : ℤ) : Tm := { year := 2020, mon := 1, mday := 17, hour := 13, min := 30, sec := t.toNat % 60 }

/-- A message of three bytes. -/
def demoMsg : Message := ⟨0, 1, 3, 8, [⟨1, some 0⟩, ⟨2, some 1⟩, ⟨3, some 2⟩]⟩

/-- Two files of four bytes: the second write rotates, the third fails on a full cache and
takes the second file off the list. -/
def callsDemo : List DCall :=
  [.write demoMsg 1 ⟨10, true, none⟩, .write demoMsg 2 ⟨11, true, none⟩, .write demoMsg 3 ⟨12, true, none⟩, .reset]

theorem callsDemo_runs : (run (Cache.call demoTime) (.init demoDir 4 2 (Fs.empty _ _)) callsDemo).isSome := by
  decide +kernel

/-- The end of this sequence. -/
def callsDemoEnd : Cache := runTo callsDemo_runs

theorem cache_calls_demo :
    callsDemoEnd.info.fileCount = 1 ∧ callsDemoEnd.appended.length = 2 ∧ CacheRep callsDemoEnd :=
  ⟨by decide +kernel, by decide +kernel,
    (cache_calls demoTime demoDir (by decide) (by decide) 4 2 (by decide) (Fs.empty _ _) callsDemoEnd
      (reach_runTo callsDemo_runs)).1⟩

/-! ## The consumer -/

/-- What `while (strlen(msg->data) > 0) { ...; messge_filename_forward(msg); }` leaves of the
message; `none` if it has not ended after `fuel` rounds. -/
def Message.consumed : ℕ → Message → Option Message
  | 0, _ => none
  | fuel + 1, m => if m.filename = [] then some m else Message.consumed fuel (messgeFilenameForward m)

/-- The consumer visits the names `ns` and ends with an empty list. -/
def Message.Consumes (m : Message) (ns : List Name) : Prop :=
  m.filenames = ns ∧ ∃ fuel m', m.consumed fuel = some m' ∧ m'.len = 0 ∧ m'.filename = []

theorem Message.Lists.len_zero (h : m.Lists []) : m.len = 0 := by
  rw [h.len_eq]
  rfl

/-- The loop over a list with names in it ends. -/
theorem Message.Lists.consumed : ∀ {ns : List Name} {m : Message}, m.Lists ns → ns ≠ [] →
    ∃ m', m.consumed (ns.length + 1) = some m' ∧ m'.len = 0 ∧ m'.filename = [] := by
  intro ns
  induction ns with
  | nil => intro m _ hne; exact absurd rfl hne
  | cons n ns ih =>
    intro m h _
    have hne := h.filename_ne (by simp)
    rw [List.length_cons, Message.consumed, if_neg hne]
    cases ns with
    | nil =>
      obtain ⟨h1, h2⟩ := h.forward_single
      refine ⟨messgeFilenameForward m, ?_, h1.len_zero, h2⟩
      rw [Message.consumed, if_pos h2]
    | cons n' ns => exact ih (h.forward (by simp)) (by simp)

/-- **Decoding agrees with encoding unless the list was emptied.** For every sequence of
appends and removals from a fresh `names_msg`, the consumer visits exactly the names
that are left, in order, and ends with an empty list, if and only if a name is left or
none was ever appended. -/
theorem visited_names_iff (lt : ℤ → Tm) (dir : CStr) (maxFsize maxFcnt : ℤ) (fs : Disk) (addr : ℕ) (s : Cache)
    (h : Reach (Cache.call lt) Any (.fresh dir maxFsize maxFcnt fs addr) s) (names : Message)
    (hn : s.info.namesMsg = some names) : names.Consumes s.left ↔ s.left ≠ [] ∨ s.appended = [] := by
  have hinv : NamesInv s :=
    h.inv (I := NamesInv) (namesInv_fresh dir maxFsize maxFcnt fs addr) fun _ _ _ hi _ hs => hi.step hs
  have hl := hinv.data.lists hn
  rw [hinv.listed] at hl
  refine ⟨fun hcon => ?_, fun hcond => ?_⟩
  · -- an emptied list is visited at the stale first name
    by_contra hno
    push Not at hno
    obtain ⟨hnil, happ⟩ := hno
    rw [hnil] at hl hcon
    have hstale : names.filename ≠ [] := fun h0 => happ ((hinv.stale names hn).1 h0)
    have hvis := hl.filenames_empty
    rw [if_neg hstale, hcon.1] at hvis
    cases hvis
  · rcases List.eq_nil_or_concat s.left with hnil | ⟨ns, n, hcons⟩
    · have happ : s.appended = [] := hcond.resolve_left fun h0 => h0 hnil
      have hempty := (hinv.stale names hn).2 happ
      rw [hnil] at hl ⊢
      refine ⟨by rw [hl.filenames_empty, if_pos hempty], 1, names, ?_, hl.len_zero, hempty⟩
      rw [Message.consumed, if_pos hempty]
    · have hne : s.left ≠ [] := by rw [hcons]; simp
      exact ⟨hl.filenames hne, _, hl.consumed hne⟩

/-- One file is created and taken back. -/
def emptiedDemo : List DCall := [.write demoMsg 1 ⟨10, true, some 0⟩, .reset]

theorem emptiedDemo_runs : (run (Cache.call demoTime) (.fresh demoDir 4 2 (Fs.empty _ _) 0) emptiedDemo).isSome := by
  decide +kernel

/-- The end of this sequence. -/
def emptiedDemoEnd : Cache := runTo emptiedDemo_runs

/-- **The consumer still visits the name that was taken back.** -/
theorem emptied_list_visited :
    ∃ s names, Reach (Cache.call demoTime) Any (.fresh demoDir 4 2 (Fs.empty _ _) 0) s ∧
      s.info.namesMsg = some names ∧ s.left = [] ∧ names.len = 0 ∧ names.filenames = s.appended ∧
      ¬ names.Consumes s.left := by
  have hleft : emptiedDemoEnd.left = [] := by decide +kernel
  have hone : emptiedDemoEnd.appended.length = 1 := by decide +kernel
  have hsome : emptiedDemoEnd.info.namesMsg.isSome := by decide +kernel
  obtain ⟨names, hn⟩ := Option.isSome_iff_exists.1 hsome
  have hall : ∀ names ∈ emptiedDemoEnd.info.namesMsg,
      names.len = 0 ∧ names.filenames = emptiedDemoEnd.appended := by decide +kernel
  obtain ⟨hlen, hvis⟩ := hall names hn
  refine ⟨emptiedDemoEnd, names, reach_runTo emptiedDemo_runs, hn, hleft, hlen, hvis, fun hcon => ?_⟩
  have h0 := hcon.1
  rw [hvis, hleft] at h0
  rw [h0] at hone
  cases hone

/-- A call sequence that leaves one of two names. -/
def leftNamesDemo : List DCall :=
  [.write demoMsg 1 ⟨10, true, none⟩, .write demoMsg 2 ⟨11, true, some 1⟩, .reset]

theorem leftNamesDemo_runs :
    (run (Cache.call demoTime) (.fresh demoDir 4 2 (Fs.empty _ _) 0) leftNamesDemo).isSome := by
  decide +kernel

/-- The end of this sequence. -/
def leftNamesDemoEnd : Cache := runTo leftNamesDemo_runs

theorem visited_names_demo : leftNamesDemoEnd.left.length = 1 ∧ leftNamesDemoEnd.appended.length = 2 ∧
    ∃ names, leftNamesDemoEnd.info.namesMsg = some names ∧ names.Consumes leftNamesDemoEnd.left := by
  have hleft : leftNamesDemoEnd.left.length = 1 := by decide +kernel
  have hsome : leftNamesDemoEnd.info.namesMsg.isSome := by decide +kernel
  obtain ⟨names, hn⟩ := Option.isSome_iff_exists.1 hsome
  refine ⟨hleft, by decide +kernel, names, hn, ?_⟩
  refine (visited_names_iff demoTime demoDir 4 2 (Fs.empty _ _) 0 leftNamesDemoEnd
    (reach_runTo leftNamesDemo_runs) names hn).2 (Or.inl fun h0 => ?_)
  rw [h0] at hleft
  cases hleft

end HookKernel
