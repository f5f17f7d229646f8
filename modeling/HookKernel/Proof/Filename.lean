import HookKernel.Lib.Run
import HookKernel.Proof.Datafile

/-!
# The name of a data file

`create_datafile` copies at most 235 bytes of the path into `curr_fname`, but places the
slash and the time stamp by the length of the whole path. Its calls come in any order
with those that close a file, take one back or write to one.

* `NameInv`: `curr_fname` keeps its 256 bytes, and with a long path it stays cleared.
* `name_built_iff`: the name is built inside the buffer, and is the right one, exactly if
  the path has at most 235 bytes.
-/

namespace HookKernel

open Lib

variable {lt : ℤ → Tm} {dir : CStr} {info info' : DatafileInfo} {fs fs' : Disk}

/-- A call on the file cache. -/
inductive FileCall
  | create (now : ℤ) (fopenOk : Bool)
  | close
  | reset
  | write (m : Message) (addr : ℕ) (e : WriteEnv)
  | detach
deriving DecidableEq

/-- One call; `none` if it leaves an allocation or follows a null pointer. -/
def fileStep (lt : ℤ → Tm) (s : DatafileInfo × Disk) : FileCall → Option (DatafileInfo × Disk)
  | .create now fopenOk => (createDatafile lt s.1 s.2 now fopenOk).map fun r => (r.2.1, r.2.2)
  | .close => some (closeDatafile s.1 s.2)
  | .reset => datafileResetCurrfile s.1 s.2
  | .write m addr e => (datafileWriteDatamsg lt s.1 s.2 m addr e).map fun w => (w.info, w.fs)
  | .detach => some (datafileDetachNamemsg s.1 s.2)

/-- **What a call of `create_datafile` should do**: write inside `curr_fname` only, and if `fopen`
succeeds leave the path, a slash unless the path ends in one, and the stamp of 19 characters in it, as
a C string. -/
def NameBuilt (lt : ℤ → Tm) (dir : CStr) (s : DatafileInfo × Disk) (now : ℤ) (fopenOk : Bool) : Prop :=
  ∃ ok info' fs', createDatafile lt s.1 s.2 now fopenOk = some (ok, info', fs') ∧ ok = fopenOk ∧
    info'.currFname.length = 256 ∧
    (ok = true → 0 ∈ info'.currFname ∧ (strftime (lt now)).length = 19 ∧
      info'.fname = dir.1 ++ (if dir.1.getLast? = some 47 then [] else [47]) ++ strftime (lt now))

/-- **What the calls leave in `curr_fname`.** -/
structure NameInv (dir : CStr) (info : DatafileInfo) : Prop where
  path : info.path = dir
  size : info.currFname.length = 256
  long : 235 < dir.1.length → info.currFname = clearedFname

theorem nameInv_cleared (hp : info.path = dir) (hc : info.currFname = clearedFname) : NameInv dir info :=
  ⟨hp, by rw [hc]; exact clearedFname_length, fun _ => hc⟩

/-- A name was built, so the path fits. -/
theorem NameInv.built {stamp buf : List UInt8} (h : NameInv dir info) (hst : ∀ b ∈ stamp, b ≠ 0)
    (hlen : stamp.length = 19) (hbuf : buildFname info.currFname dir stamp = some buf) :
    dir.1.length ≤ 235 ∧ buf.length = 256 := by
  have hle : dir.1.length ≤ 235 := by
    by_contra hlong
    rw [h.long (by omega), buildFname_long (by omega)] at hbuf
    cases hbuf
  have hpos : 0 < dir.1.length := by
    by_contra h0
    unfold buildFname at hbuf
    rw [if_pos (Or.inl (by omega))] at hbuf
    cases hbuf
  obtain ⟨buf', k, hbuf', hsize, hk, -⟩ := buildFname_short h.size hpos hle hst
  obtain rfl := Option.some.inj (hbuf.symm.trans hbuf')
  refine ⟨hle, ?_⟩
  rw [length_overwrite (by rw [List.length_append, hlen, List.length_singleton]; omega), hsize]

theorem NameInv.create {now : ℤ} {fopenOk ok : Bool} (h : NameInv dir info)
    (hs : createDatafile lt info fs now fopenOk = some (ok, info', fs')) : NameInv dir info' := by
  unfold createDatafile at hs
  simp only [Option.bind_eq_bind, Option.bind_eq_some_iff] at hs
  obtain ⟨buf, hbuf, hs⟩ := hs
  rw [h.path] at hbuf
  obtain ⟨hle, hsize⟩ := h.built (strftime_ne_zero _) (strftime_length _) hbuf
  cases fopenOk with
  | true =>
    obtain ⟨-, rfl, -⟩ := by simpa using hs
    exact ⟨h.path, hsize, fun hlong => by omega⟩
  | false =>
    obtain ⟨-, rfl, -⟩ := by simpa using hs
    exact nameInv_cleared h.path rfl

theorem NameInv.rotate (h : NameInv dir info) (fs : Disk) (m : Message) : NameInv dir (info.rotate fs m).1 := by
  unfold DatafileInfo.rotate
  split
  · exact nameInv_cleared h.path rfl
  · exact h

theorem NameInv.write {m : Message} {addr : ℕ} {e : WriteEnv} {w : WriteRes} (h : NameInv dir info)
    (hw : Wrote lt info fs m addr e w) : NameInv dir w.info := by
  cases hw with
  | full _ _ => exact h
  | same _ _ => exact ⟨by rw [writeCurr_path]; exact h.path, by rw [writeCurr_currFname]; exact h.size,
      fun hlong => by rw [writeCurr_currFname]; exact h.long hlong⟩
  | noFile _ _ _ => exact nameInv_cleared (h.rotate fs m).path rfl
  | @new buf names info' _ _ hbuf hinfo _ _ =>
    have hrot := h.rotate fs m
    rw [h.path] at hbuf
    obtain ⟨hle, hsize⟩ := hrot.built (strftime_ne_zero _) (strftime_length _) hbuf
    refine ⟨?_, ?_, fun hlong => by omega⟩
    · rw [writeCurr_path, hinfo]
      exact hrot.path
    · rw [writeCurr_currFname, hinfo]
      exact hsize

/-- **Every call keeps the invariant.** -/
theorem NameInv.step {s s' : DatafileInfo × Disk} {a : FileCall} (h : NameInv dir s.1)
    (hs : fileStep lt s a = some s') : NameInv dir s'.1 := by
  cases a with
  | create now fopenOk =>
    obtain ⟨⟨ok, info', fs'⟩, hcreate, rfl⟩ := Option.map_eq_some_iff.1 hs
    exact h.create hcreate
  | close =>
    obtain rfl := Option.some.inj hs
    exact nameInv_cleared h.path rfl
  | reset =>
    simp only [fileStep, datafileResetCurrfile] at hs
    split at hs
    · obtain rfl := Option.some.inj hs
      exact nameInv_cleared h.path rfl
    · split at hs
      · cases hs
      · obtain rfl := Option.some.inj hs
        exact nameInv_cleared h.path rfl
  | write m addr e =>
    obtain ⟨w, hw, rfl⟩ := Option.map_eq_some_iff.1 hs
    exact h.write (wrote_of_write hw)
  | detach =>
    obtain rfl := Option.some.inj hs
    exact nameInv_cleared h.path rfl

/-- With a short path the name is built right. -/
theorem NameInv.short (h : NameInv dir info) (hpos : 0 < dir.1.length) (hle : dir.1.length ≤ 235) (fs : Disk)
    (now : ℤ) (fopenOk : Bool) : NameBuilt lt dir (info, fs) now fopenOk := by
  obtain ⟨buf, k, hbuf, hsize, hk, hname⟩ := buildFname_short h.size hpos hle (strftime_ne_zero (lt now))
  have hlen : (overwrite buf k (strftime (lt now) ++ [0])).length = 256 := by
    rw [length_overwrite (by rw [List.length_append, strftime_length, List.length_singleton]; omega), hsize]
  rw [← h.path] at hbuf
  unfold NameBuilt createDatafile
  rw [hbuf]
  cases fopenOk with
  | true =>
    refine ⟨_, _, _, rfl, rfl, hlen, fun _ => ⟨?_, strftime_length _, hname⟩⟩
    simp [overwrite]
  | false => exact ⟨_, _, _, rfl, rfl, clearedFname_length, fun hn => by cases hn⟩

/-- With a long path the first call already writes outside. -/
theorem NameInv.overruns (h : NameInv dir info) (hlong : 235 < dir.1.length) (fs : Disk) (now : ℤ) (fopenOk : Bool) :
    ¬ NameBuilt lt dir (info, fs) now fopenOk := by
  rintro ⟨_, _, _, hs, -⟩
  unfold createDatafile at hs
  rw [h.path, h.long hlong, buildFname_long hlong] at hs
  cases hs

/-- **The name of a data file is built right exactly if the path has at most 235 bytes**, after any
sequence of calls on the cache. -/
theorem name_built_iff (lt : ℤ → Tm) (dir : CStr) (hne : dir.1 ≠ []) (maxFsize maxFcnt : ℤ) (fs : Disk)
    (s : DatafileInfo × Disk) (h : Reach (fileStep lt) Any (datafileInit dir maxFsize maxFcnt, fs) s) (now : ℤ)
    (fopenOk : Bool) : NameBuilt lt dir s now fopenOk ↔ dir.1.length ≤ 235 := by
  have hinv : NameInv dir s.1 :=
    h.inv (I := fun s => NameInv dir s.1) (nameInv_cleared rfl rfl) fun _ _ _ hi _ hs => hi.step hs
  refine ⟨fun hbuilt => ?_, fun hle => hinv.short (List.length_pos_of_ne_nil hne) hle s.2 now fopenOk⟩
  by_contra hlong
  exact hinv.overruns (by omega) s.2 now fopenOk hbuilt

/-- A time in January 2018. -/
def demoStamp (t : ℤ) : Tm := { year := 2018, mon := 1, mday := 17, hour := 13, min := 30, sec := t.toNat % 60 }

/-- A file is created and closed, and one could not be opened. -/
def filenameCalls : List FileCall := [.create 40 true, .close, .create 41 false]

theorem filenameCalls_run : (run (fileStep demoStamp)
    (datafileInit ⟨[47, 100], by decide⟩ 16 2, Fs.empty Name Cell) filenameCalls).isSome := by
  decide +kernel

theorem name_built_demo : NameBuilt demoStamp ⟨[47, 100], by decide⟩
    ((run (fileStep demoStamp) (datafileInit ⟨[47, 100], by decide⟩ 16 2, Fs.empty Name Cell) filenameCalls).get
      filenameCalls_run) 42 true :=
  (name_built_iff demoStamp ⟨[47, 100], by decide⟩ (by decide) 16 2 (Fs.empty Name Cell) _
    (reach_runTo filenameCalls_run) 42 true).2 (by decide)

/-- A path of 236 bytes. -/
def longPath : CStr :=
  ⟨47 :: List.replicate 235 97, by rw [List.mem_cons, List.mem_replicate]; decide⟩

theorem longPath_length : longPath.1.length = 236 := by
  rw [longPath, List.length_cons, List.length_replicate]

/-- **A path of 236 bytes overruns the buffer**, with the first file created. -/
theorem long_path_overruns : longPath.1 ≠ [] ∧ longPath.1.length ≤ 4095 ∧
    ¬ NameBuilt demoStamp longPath (datafileInit longPath 16 2, Fs.empty Name Cell) 40 true :=
  ⟨List.cons_ne_nil _ _, by rw [longPath_length]; decide,
    (nameInv_cleared rfl rfl : NameInv longPath _).overruns (by rw [longPath_length]; decide) _ _ _⟩

end HookKernel
