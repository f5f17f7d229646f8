import HookKernel.Proof.Names
import HookKernel.Spec.Datafile

/-!
# The file cache keeps its name list

`DInv info`: `names_msg` is a name list, an open current file is the last name on
it, and a closed one leaves `curr_fname` cleared.

* `buildFname_isName`: the name that `create_datafile` builds is a C string.
* `Wrote`: everything a call of `datafile_write_datamsg` can do.
* `Wrote.dinv`, `reset_dinv`, `detach_dinv`: the invariant is kept.
-/

namespace HookKernel

open Lib

variable {lt : ℤ → Tm} {info : DatafileInfo} {fs : Disk} {m : Message} {addr : ℕ} {e : WriteEnv}

/-- The names on the list. -/
def DatafileInfo.listed (info : DatafileInfo) : List Name :=
  match info.namesMsg with
  | none => []
  | some names => names.listed

/-- **The cache invariant.** -/
structure DInv (info : DatafileInfo) : Prop where
  names : ∀ names, info.namesMsg = some names → names.Lists names.listed
  curr : info.currFp.isSome → info.namesMsg.isSome ∧ ∃ ns, info.listed = ns ++ [info.fname]
  cleared : info.currFp = none → info.currFname = clearedFname

theorem listed_congr {info info' : DatafileInfo} (h : info'.namesMsg = info.namesMsg) : info'.listed = info.listed := by
  unfold DatafileInfo.listed
  rw [h]

theorem listed_of_some {names : Message} (h : info.namesMsg = some names) : info.listed = names.listed := by
  unfold DatafileInfo.listed
  rw [h]

theorem listed_of_none (h : info.namesMsg = none) : info.listed = [] := by
  unfold DatafileInfo.listed
  rw [h]

theorem dinv_init (dir : CStr) (maxFsize maxFcnt : ℤ) : DInv (datafileInit dir maxFsize maxFcnt) where
  names := by intro _ h; cases h
  curr := by intro h; cases h
  cleared := by intro _; rfl

/-! ## Building a name -/

/-- The name of a data file: the path, a slash unless the path ends in one, and the stamp. -/
def dataName (path : CStr) (stamp : List UInt8) : Name :=
  path.1 ++ (if path.1.getLast? = some 47 then [] else [47]) ++ stamp

theorem digit_ne_zero (n : ℕ) : digit n ≠ 0 := by
  have h : ∀ k < 10, (48 + k.toUInt8 : UInt8) ≠ 0 := by decide
  exact h _ (Nat.mod_lt _ (by decide))

theorem strftime_length (t : Tm) : (strftime t).length = 19 := rfl

theorem strftime_ne_zero (t : Tm) : ∀ b ∈ strftime t, b ≠ 0 := by
  have h := digit_ne_zero
  simp [strftime, twoDigits, h]

/-- A C string stored behind text without a NUL continues it. -/
theorem cstr_overwrite {buf stamp : List UInt8} {k : ℕ} (hbuf : ∀ b ∈ buf.take k, b ≠ 0)
    (hstamp : ∀ b ∈ stamp, b ≠ 0) :
    cstr (· == 0) (overwrite buf k (stamp ++ [0])) = buf.take k ++ stamp := by
  have hno : ∀ b ∈ buf.take k ++ stamp, (b == 0) = false := by
    intro b hb
    rcases List.mem_append.1 hb with hb | hb
    · simpa using hbuf b hb
    · simpa using hstamp b hb
  have h : overwrite buf k (stamp ++ [0]) =
      (buf.take k ++ stamp) ++ 0 :: buf.drop (k + (stamp ++ [0]).length) := by
    simp [overwrite]
  rw [h]
  exact cstr_append hno rfl

theorem take_strncpy (dst : List UInt8) (src : CStr) {n : ℕ} (h : src.1.length ≤ n) :
    (strncpy dst src n).take src.1.length = src.1 := by
  unfold strncpy overwrite
  rw [List.take_zero, List.nil_append, List.take_append_of_le_length (by simp; omega), List.take_take,
    Nat.min_eq_left h, List.take_left]

theorem getD_strncpy (dst : List UInt8) (src : CStr) {n i : ℕ} (h : src.1.length ≤ n)
    (hi : i < src.1.length) : (strncpy dst src n).getD i 0 = src.1.getD i 0 := by
  have h1 := take_strncpy dst src h
  have h2 : ((strncpy dst src n).take src.1.length)[i]? = src.1[i]? := by rw [h1]
  rw [List.getElem?_take_of_lt hi] at h2
  simp [List.getD, h2]

theorem length_strncpy {dst : List UInt8} (hd : dst.length = 256) (src : CStr) : (strncpy dst src 235).length = 256 := by
  have h : ((src.1 ++ List.replicate 235 0).take 235).length = 235 := by
    rw [List.length_take, List.length_append, List.length_replicate]
    omega
  unfold strncpy
  rw [length_overwrite (by omega), hd]

theorem getD_strncpy_cleared (src : CStr) : (strncpy clearedFname src 235).getD 235 0 = 0 := by
  have h : ((src.1 ++ List.replicate 235 0).take 235).length = 235 := by
    rw [List.length_take, List.length_append, List.length_replicate]
    omega
  unfold strncpy overwrite
  rw [List.take_zero, List.nil_append, h, List.getD_eq_getElem?_getD,
    List.getElem?_append_right (by omega), h]
  rfl

theorem getLast?_getD {l : List UInt8} (h : 0 < l.length) : l.getLast? = some (l.getD (l.length - 1) 0) := by
  rw [List.getLast?_eq_getElem?, List.getD_eq_getElem?_getD, List.getElem?_eq_getElem (by omega)]
  rfl

/-- **A path of at most 235 bytes fits**, whatever `curr_fname` held: all of it is copied, and the
stamp brings its own NUL. -/
theorem buildFname_short {dst stamp : List UInt8} {path : CStr} (hd : dst.length = 256) (hp : 0 < path.1.length)
    (hle : path.1.length ≤ 235) (hst : ∀ b ∈ stamp, b ≠ 0) :
    ∃ buf k, buildFname dst path stamp = some (overwrite buf k (stamp ++ [0])) ∧ buf.length = 256 ∧ k + 20 ≤ 256 ∧
      cstr (· == 0) (overwrite buf k (stamp ++ [0])) = dataName path stamp := by
  have hpath : ∀ b ∈ path.1, b ≠ 0 := fun b hb h0 => path.2 (h0 ▸ hb)
  have hlen : ¬ (path.1.length = 0 ∨ 256 ≤ path.1.length) := by omega
  have hcopy := length_strncpy hd path
  have htake := take_strncpy dst path hle
  have hlast : (strncpy dst path 235).getD (path.1.length - 1) 0 = path.1.getD (path.1.length - 1) 0 :=
    getD_strncpy _ _ hle (by omega)
  have hget := getLast?_getD hp
  unfold buildFname dataName
  simp only [Nat.reduceSub, if_neg hlen]
  rw [hlast]
  by_cases hsep : path.1.getD (path.1.length - 1) 0 = 47
  · have hno : ¬ path.1.getD (path.1.length - 1) 0 ≠ 47 := not_not.2 hsep
    have hend : path.1.getLast? = some 47 := by rw [hget, hsep]
    have hroom : ¬ 256 < path.1.length + 20 := by omega
    simp only [if_neg hno, if_pos hend, if_neg hroom]
    refine ⟨_, _, rfl, hcopy, by omega, ?_⟩
    rw [cstr_overwrite (by rw [htake]; exact hpath) hst, htake, List.append_nil]
  · have hfit : path.1.length + [(47 : UInt8)].length ≤ (strncpy dst path 235).length := by
      rw [hcopy, List.length_singleton]
      omega
    have htake' : (overwrite (strncpy dst path 235) path.1.length [47]).take (path.1.length + 1) = path.1 ++ [47] :=
      (take_overwrite hfit).trans (by rw [htake])
    have hslash : ∀ b ∈ path.1 ++ [47], b ≠ 0 := by
      intro b hb
      rcases List.mem_append.1 hb with hb | hb
      · exact hpath b hb
      · rw [List.mem_singleton.1 hb]
        decide
    have hend : path.1.getLast? ≠ some 47 := by
      rw [hget]
      exact fun h => hsep (Option.some.inj h)
    have hroom : ¬ 256 < path.1.length + 1 + 20 := by omega
    simp only [if_pos hsep, if_neg hend, if_neg hroom]
    refine ⟨_, _, rfl, (length_overwrite hfit).trans hcopy, by omega, ?_⟩
    rw [cstr_overwrite (by rw [htake']; exact hslash) hst, htake']

/-- **A path of 236 bytes or more does not fit**: the byte behind the 235 copied ones is a NUL, a slash is
added, and the stamp runs over. -/
theorem buildFname_long {path : CStr} (h : 235 < path.1.length) (stamp : List UInt8) :
    buildFname clearedFname path stamp = none := by
  have hz := getD_strncpy_cleared path
  unfold buildFname
  simp only [Nat.reduceSub]
  split
  · rfl
  split
  · have hover : 256 < path.1.length + 1 + 20 := by omega
    simp only [if_pos hover]
  · rename_i h1
    have h3 : path.1.length - 1 ≠ 235 := by
      intro h3
      rw [h3, hz] at h1
      simp at h1
    have hover : 256 < path.1.length + 20 := by omega
    simp only [if_pos hover]

theorem clearedFname_length : clearedFname.length = 256 := List.length_replicate

/-- **The name that `create_datafile` builds.** -/
theorem buildFname_eq {stamp buf : List UInt8} {path : CStr} (hst : ∀ b ∈ stamp, b ≠ 0)
    (h : buildFname clearedFname path stamp = some buf) :
    0 < path.1.length ∧ path.1.length ≤ 235 ∧ cstr (· == 0) buf = dataName path stamp := by
  have hp : 0 < path.1.length := by
    by_contra h0
    unfold buildFname at h
    rw [if_pos (Or.inl (by omega))] at h
    cases h
  rcases Nat.lt_or_ge 235 path.1.length with hlong | hle
  · rw [buildFname_long hlong] at h
    cases h
  · obtain ⟨buf', k, hbuf, -, -, hname⟩ := buildFname_short clearedFname_length hp hle hst
    obtain rfl := Option.some.inj (h.symm.trans hbuf)
    exact ⟨hp, hle, hname⟩

theorem dataName_isName {path : CStr} {stamp : List UInt8} (hp : 0 < path.1.length)
    (hst : ∀ b ∈ stamp, b ≠ 0) : IsName (· == 0) (dataName path stamp) := by
  refine ⟨?_, ?_⟩
  · unfold dataName
    have : path.1 ≠ [] := List.ne_nil_of_length_pos hp
    simp [this]
  · intro b hb
    have h0 : b ≠ 0 := by
      unfold dataName at hb
      rcases List.mem_append.1 hb with hb | hb
      · rcases List.mem_append.1 hb with hb | hb
        · exact fun h0 => path.2 (h0 ▸ hb)
        · split at hb
          · cases hb
          · rw [List.mem_singleton.1 hb]; decide
      · exact hst b hb
    simpa using h0

/-! ## What a write can do -/

/-- **Everything `datafile_write_datamsg` can do.** -/
inductive Wrote (lt : ℤ → Tm) (info : DatafileInfo) (fs : Disk) (m : Message) (addr : ℕ) (e : WriteEnv) :
    WriteRes → Prop
  /-- the cache is full -/
  | full : info.fileCount ≥ info.maxFcnt → info.over m = true → Wrote lt info fs m addr e ⟨false, info, fs, none, []⟩
  /-- into the file that is open -/
  | same {fp : Stream Cell} : info.over m = false → info.currFp = some fp →
      Wrote lt info fs m addr e (writeCurr info fp fs m e.fwrite none)
  /-- no file is open any more, and no new one could be opened -/
  | noFile : (info.rotate fs m).1.currFp = none → ¬ (info.fileCount ≥ info.maxFcnt ∧ info.over m = true) →
      e.fopenOk = false →
      Wrote lt info fs m addr e ⟨false, { (info.rotate fs m).1 with currFname := clearedFname, currFp := none },
        (info.rotate fs m).2, none, []⟩
  /-- into a new file -/
  | new {buf : List UInt8} {names : Message} {info' : DatafileInfo} :
      (info.rotate fs m).1.currFp = none → ¬ (info.fileCount ≥ info.maxFcnt ∧ info.over m = true) →
      buildFname (info.rotate fs m).1.currFname info.path (strftime (lt e.now)) = some buf →
      info' = { (info.rotate fs m).1 with
        currFname := buf, currFp := some ((info.rotate fs m).2.fopen (cstr (· == 0) buf)).2
        fileCount := info.fileCount + 1, currFsize := 0 } →
      info'.appendName addr = some names → e.fopenOk = true →
      Wrote lt info fs m addr e (writeCurr { info' with namesMsg := some names }
        ((info.rotate fs m).2.fopen (cstr (· == 0) buf)).2 ((info.rotate fs m).2.fopen (cstr (· == 0) buf)).1
        m e.fwrite (some (cstr (· == 0) buf)))

theorem rotate_fields (info : DatafileInfo) (fs : Disk) (m : Message) :
    (info.rotate fs m).1.path = info.path ∧ (info.rotate fs m).1.maxFcnt = info.maxFcnt ∧
      (info.rotate fs m).1.maxFsize = info.maxFsize ∧ (info.rotate fs m).1.fileCount = info.fileCount ∧
      (info.rotate fs m).1.namesMsg = info.namesMsg := by
  unfold DatafileInfo.rotate
  split <;> exact ⟨rfl, rfl, rfl, rfl, rfl⟩

/-- No file is open after the rotation if none was before, or the message did not fit into it. -/
theorem rotate_closed :
    (info.rotate fs m).1.currFp = none ↔ info.currFp = none ∨ info.over m = true := by
  unfold DatafileInfo.rotate
  cases hfp : info.currFp with
  | none => simp [hfp]
  | some fp =>
    cases hov : info.over m with
    | false => simp [hfp]
    | true => simp [closeDatafile]

/-- A file that is still open after the rotation was open before, with room in it. -/
theorem rotate_open {fp : Stream Cell} (h : (info.rotate fs m).1.currFp = some fp) :
    info.over m = false ∧ info.rotate fs m = (info, fs) := by
  unfold DatafileInfo.rotate at h ⊢
  split at h
  · simp [closeDatafile] at h
  · rename_i hno
    rw [if_neg hno]
    simp only at h
    simp only [h, Option.isSome_some, Bool.true_and, Bool.not_eq_true] at hno
    exact ⟨hno, rfl⟩

theorem wrote_of_write {w : WriteRes} (h : datafileWriteDatamsg lt info fs m addr e = some w) :
    Wrote lt info fs m addr e w := by
  obtain ⟨hpath, -, -, hcount, hnames⟩ := rotate_fields info fs m
  unfold datafileWriteDatamsg at h
  split at h
  · rename_i hfull
    obtain rfl := Option.some.inj h
    exact .full hfull.1 hfull.2
  rename_i hfull
  simp only at h
  split at h
  · rename_i fp hfp
    obtain ⟨hov, hrot⟩ := rotate_open hfp
    rw [hrot] at hfp h
    obtain rfl := Option.some.inj h
    exact .same hov hfp
  · rename_i hfp
    unfold createDatafile at h
    simp only [Option.bind_eq_bind, Option.bind_eq_some_iff] at h
    obtain ⟨⟨ok, info₂, fs₂⟩, ⟨buf, hbuf, hcreate⟩, h⟩ := h
    rw [hpath] at hbuf
    split at hcreate
    · rename_i hok
      obtain ⟨rfl, rfl, rfl⟩ := by simpa using hcreate
      simp only [Bool.not_true, Bool.false_eq_true, if_false, Option.bind_eq_some_iff] at h
      obtain ⟨names, happ, h⟩ := h
      obtain ⟨fp, hfp', h⟩ := h
      obtain rfl := Option.some.inj hfp'
      obtain rfl := Option.some.inj h
      rw [hcount] at happ
      have := Wrote.new (e := e) hfp hfull hbuf rfl happ hok
      rw [← hcount] at this
      exact this
    · rename_i hok
      obtain ⟨rfl, rfl, rfl⟩ := by simpa using hcreate
      simp only [Bool.not_false, if_true, Option.some.injEq] at h
      rw [← h]
      exact .noFile hfp hfull (by simpa using hok)

/-! ## The invariant -/

theorem DInv.lists (h : DInv info) {names : Message} (hn : info.namesMsg = some names) :
    names.Lists info.listed := by
  rw [listed_of_some hn]
  exact h.names names hn

theorem dinv_close (fs : Disk) (h : DInv info) : DInv (closeDatafile info fs).1 :=
  ⟨h.names, fun hs => by simp [closeDatafile] at hs, fun _ => rfl⟩

theorem dinv_rotate (fs : Disk) (m : Message) (h : DInv info) : DInv (info.rotate fs m).1 := by
  unfold DatafileInfo.rotate
  split
  · exact dinv_close fs h
  · exact h

theorem lists_new {cap : ℤ} {names : Message} (h : messageNew addr cap = some names) :
    Message.Lists { names with type := 1 } [] := by
  obtain ⟨-, rfl⟩ := messageNew_cases h
  exact ⟨rfl, Int.le_refl 0, by simp, by simp, by simp⟩

theorem allocNames_of_some {names : Message} (h : info.namesMsg = some names) (addr : ℕ) :
    info.allocNames addr = some names := by
  unfold DatafileInfo.allocNames
  rw [h]

theorem allocNames_of_none (h : info.namesMsg = none) (addr : ℕ) : info.allocNames addr =
    (messageNew addr ((info.maxFcnt + 1) * (256 + 1))).map fun names => { names with type := 1 } := by
  unfold DatafileInfo.allocNames
  rw [h]

/-- Appending stores the name behind the list that `allocNames` gives. -/
theorem appendName_cases {names : Message} (h : info.appendName addr = some names) :
    ∃ names₀ names₁, info.allocNames addr = some names₀ ∧
      names₀.store names₀.len (info.fname.map .text ++ [.text 0]) = some names₁ ∧
      names = { names₁ with len := names₁.len + (info.fname.length + 1) } := by
  unfold DatafileInfo.appendName at h
  simp only [Option.bind_eq_bind, Option.bind_eq_some_iff, Option.some.injEq] at h
  obtain ⟨names₀, halloc, names₁, hst, rfl⟩ := h
  exact ⟨names₀, names₁, halloc, hst, rfl⟩

/-- **`strcpy` of a name to the end of the list.** -/
theorem lists_appendName {names : Message} (hd : ∀ names, info.namesMsg = some names → names.Lists names.listed)
    (hn : IsName (· == 0) info.fname) (h : info.appendName addr = some names) :
    names.Lists (info.listed ++ [info.fname]) := by
  obtain ⟨names₀, names₁, halloc, hst, rfl⟩ := appendName_cases h
  have h0 : names₀.Lists info.listed := by
    cases hmsg : info.namesMsg with
    | some names' =>
      rw [allocNames_of_some hmsg] at halloc
      obtain rfl := Option.some.inj halloc
      rw [listed_of_some hmsg]
      exact hd _ hmsg
    | none =>
      rw [allocNames_of_none hmsg] at halloc
      obtain ⟨names', hnew, rfl⟩ := Option.map_eq_some_iff.1 halloc
      rw [listed_of_none hmsg]
      exact lists_new hnew
  exact h0.append hn hst

section Write

variable {w : WriteRes}

theorem fname_eq (info : DatafileInfo) : info.fname = cstr (· == 0) info.currFname := rfl

/-! The `fwrite` touches the stream and the size only. -/

section WriteCurr

variable (info : DatafileInfo) (fp : Stream Cell) (fs : Disk) (m : Message) (fwrite : Option ℕ) (o : Option Name)

@[simp] theorem writeCurr_namesMsg : (writeCurr info fp fs m fwrite o).info.namesMsg = info.namesMsg := by
  cases fwrite <;> rfl

@[simp] theorem writeCurr_currFname : (writeCurr info fp fs m fwrite o).info.currFname = info.currFname := by
  cases fwrite <;> rfl

@[simp] theorem writeCurr_path : (writeCurr info fp fs m fwrite o).info.path = info.path := by
  cases fwrite <;> rfl

@[simp] theorem writeCurr_maxFcnt : (writeCurr info fp fs m fwrite o).info.maxFcnt = info.maxFcnt := by
  cases fwrite <;> rfl

@[simp] theorem writeCurr_maxFsize : (writeCurr info fp fs m fwrite o).info.maxFsize = info.maxFsize := by
  cases fwrite <;> rfl

@[simp] theorem writeCurr_fileCount : (writeCurr info fp fs m fwrite o).info.fileCount = info.fileCount := by
  cases fwrite <;> rfl

@[simp] theorem writeCurr_opened : (writeCurr info fp fs m fwrite o).opened = o := by
  cases fwrite <;> rfl

@[simp] theorem writeCurr_fs : (writeCurr info fp fs m fwrite o).fs = fs := by
  cases fwrite <;> rfl

theorem writeCurr_currFp : (writeCurr info fp fs m fwrite o).info.currFp =
    some (fp.fwrite (writeCurr info fp fs m fwrite o).wrote) := by
  cases fwrite <;> rfl

/-- A prefix of the message is written, all of it if the call succeeds. -/
theorem writeCurr_wrote : (writeCurr info fp fs m fwrite o).wrote <+: m.bytes ∧
    ((writeCurr info fp fs m fwrite o).ok = true → (writeCurr info fp fs m fwrite o).wrote = m.bytes) := by
  cases fwrite with
  | none => exact ⟨List.prefix_refl _, fun _ => rfl⟩
  | some k => exact ⟨List.take_prefix _ _, fun h => by cases h⟩

end WriteCurr

/-- **A new file**: its name, and the list with it at the end. -/
theorem new_names {buf : List UInt8} {names : Message} {info' : DatafileInfo} (h : DInv info)
    (hclosed : (info.rotate fs m).1.currFp = none)
    (hbuf : buildFname (info.rotate fs m).1.currFname info.path (strftime (lt e.now)) = some buf)
    (hinfo : info' = { (info.rotate fs m).1 with
        currFname := buf, currFp := some ((info.rotate fs m).2.fopen (cstr (· == 0) buf)).2
        fileCount := info.fileCount + 1, currFsize := 0 })
    (happ : info'.appendName addr = some names) :
    IsName (· == 0) (cstr (· == 0) buf) ∧ cstr (· == 0) buf = dataName info.path (strftime (lt e.now)) ∧
      names.Lists (info.listed ++ [cstr (· == 0) buf]) := by
  obtain ⟨-, -, -, -, hnames⟩ := rotate_fields info fs m
  have hr := dinv_rotate fs m h
  rw [hr.cleared hclosed] at hbuf
  obtain ⟨hp, -, hname⟩ := buildFname_eq (strftime_ne_zero _) hbuf
  have hisName : IsName (· == 0) (cstr (· == 0) buf) := by
    rw [hname]
    exact dataName_isName hp (strftime_ne_zero _)
  have hlisted : info'.listed = info.listed := listed_congr (by rw [hinfo, ← hnames])
  have hfn : info'.fname = cstr (· == 0) buf := by rw [hinfo]; rfl
  refine ⟨hisName, hname, ?_⟩
  have hlists : ∀ names, info'.namesMsg = some names → names.Lists names.listed := by
    rw [hinfo]
    exact hr.names
  have h1 := lists_appendName hlists (by rw [hfn]; exact hisName) happ
  rwa [hlisted, hfn] at h1

/-- **A write keeps the invariant**, and lists the file it opened. -/
theorem Wrote.dinv (h : Wrote lt info fs m addr e w) (hi : DInv info) :
    DInv w.info ∧ w.info.listed = info.listed ++ w.opened.toList := by
  cases h with
  | full _ _ => exact ⟨hi, by simp⟩
  | @same fp _ hfp =>
    have h5 := writeCurr_currFp info fp fs m e.fwrite none
    have hl : (writeCurr info fp fs m e.fwrite none).info.listed = info.listed := listed_congr (writeCurr_namesMsg ..)
    refine ⟨⟨?_, fun _ => ?_, fun hn => by rw [h5] at hn; cases hn⟩, ?_⟩
    · rw [writeCurr_namesMsg]
      exact hi.names
    · rw [writeCurr_namesMsg, hl, fname_eq, writeCurr_currFname]
      exact hi.curr (by rw [hfp]; rfl)
    · rw [hl, writeCurr_opened]
      simp
  | noFile hclosed _ =>
    obtain ⟨-, -, -, -, hnames⟩ := rotate_fields info fs m
    have hr := dinv_rotate fs m hi
    refine ⟨⟨hr.names, fun hs => (by cases hs), fun _ => rfl⟩, ?_⟩
    exact (listed_congr hnames).trans (List.append_nil _).symm
  | @new buf names info' hclosed _ hbuf hinfo happ =>
    obtain ⟨-, -, hlists⟩ := new_names hi hclosed hbuf hinfo happ
    set fp := ((info.rotate fs m).2.fopen (cstr (· == 0) buf)).2
    set fs' := ((info.rotate fs m).2.fopen (cstr (· == 0) buf)).1
    have h5 := writeCurr_currFp { info' with namesMsg := some names } fp fs' m e.fwrite (some (cstr (· == 0) buf))
    have hl : (writeCurr { info' with namesMsg := some names } fp fs' m e.fwrite
        (some (cstr (· == 0) buf))).info.listed = info.listed ++ [cstr (· == 0) buf] := by
      rw [listed_of_some (writeCurr_namesMsg ..)]
      exact hlists.listed
    refine ⟨⟨?_, fun _ => ?_, fun hn => by rw [h5] at hn; cases hn⟩, ?_⟩
    · intro names' hn
      rw [writeCurr_namesMsg] at hn
      obtain rfl := Option.some.inj hn
      rw [hlists.listed]
      exact hlists
    · rw [writeCurr_namesMsg, hl, fname_eq, writeCurr_currFname, hinfo]
      exact ⟨rfl, _, rfl⟩
    · rw [hl, writeCurr_opened]
      rfl

/-- A write puts a prefix of the message into the stream, all of it if it succeeds. -/
theorem Wrote.wrote_le (h : Wrote lt info fs m addr e w) :
    w.wrote <+: m.bytes ∧ (w.ok = true → w.wrote = m.bytes) := by
  cases h with
  | full _ _ => exact ⟨List.nil_prefix, fun h => by cases h⟩
  | noFile _ _ => exact ⟨List.nil_prefix, fun h => by cases h⟩
  | same _ _ => exact writeCurr_wrote _ _ _ _ _ _
  | new _ _ _ _ _ => exact writeCurr_wrote _ _ _ _ _ _

theorem Wrote.open_of_ok (h : Wrote lt info fs m addr e w) (hok : w.ok = true) : w.info.currFp.isSome := by
  cases h with
  | full _ _ => cases hok
  | noFile _ _ => cases hok
  | same _ _ =>
    rw [writeCurr_currFp]
    rfl
  | new _ _ _ _ _ =>
    rw [writeCurr_currFp]
    rfl

/-- After a write there is a name list, if it succeeded or there was one before. -/
theorem Wrote.namesMsg (h : Wrote lt info fs m addr e w) (hi : DInv info) :
    (w.ok = true ∨ info.namesMsg.isSome → w.info.namesMsg.isSome) := by
  cases h with
  | full _ _ => simp
  | same _ hfp =>
    rw [writeCurr_namesMsg]
    exact fun _ => (hi.curr (by rw [hfp]; rfl)).1
  | noFile _ _ =>
    obtain ⟨-, -, -, -, hnames⟩ := rotate_fields info fs m
    simp [hnames]
  | new _ _ _ _ _ =>
    rw [writeCurr_namesMsg]
    simp

end Write

/-- **`datafile_reset_currfile` takes the current file off the list.** -/
theorem reset_dinv {info' : DatafileInfo} {fs' : Disk} (hi : DInv info)
    (h : datafileResetCurrfile info fs = some (info', fs')) :
    DInv info' ∧ info'.currFp = none ∧
      info'.listed = if info.currFp.isSome then info.listed.dropLast else info.listed := by
  unfold datafileResetCurrfile at h
  split at h
  · rename_i hfp
    obtain ⟨rfl, rfl⟩ := Prod.mk.inj (Option.some.inj h)
    exact ⟨dinv_close fs hi, rfl, by rw [hfp]; rfl⟩
  · rename_i fp hfp
    obtain ⟨hsome, ns, hns⟩ := hi.curr (by rw [hfp]; rfl)
    split at h
    · rename_i hnone
      rw [hnone] at hsome
      cases hsome
    · rename_i names hnames
      have hlists := hi.lists hnames
      rw [hns] at hlists
      have hdrop := hlists.dropLast
      obtain ⟨rfl, rfl⟩ := Prod.mk.inj (Option.some.inj h)
      refine ⟨⟨?_, fun hs => (by cases hs), fun _ => rfl⟩, rfl, ?_⟩
      · intro names' hn
        obtain rfl := Option.some.inj hn
        rw [hdrop.listed]
        exact hdrop
      · rw [hfp, hns]
        simp only [Option.isSome_some, if_true, List.dropLast_concat]
        exact hdrop.listed

theorem reset_namesMsg {info' : DatafileInfo} {fs' : Disk} (h : datafileResetCurrfile info fs = some (info', fs')) :
    info'.namesMsg.isSome = info.namesMsg.isSome := by
  unfold datafileResetCurrfile at h
  split at h
  · obtain ⟨rfl, rfl⟩ := Prod.mk.inj (Option.some.inj h)
    rfl
  · split at h
    · cases h
    · rename_i names hnames
      obtain ⟨rfl, rfl⟩ := Prod.mk.inj (Option.some.inj h)
      rw [hnames]
      rfl

theorem detach_dinv (info : DatafileInfo) (fs : Disk) :
    DInv (datafileDetachNamemsg info fs).1 ∧ (datafileDetachNamemsg info fs).1.listed = [] :=
  ⟨⟨fun _ h => (by cases h), fun h => (by cases h), fun _ => rfl⟩, rfl⟩

end HookKernel
