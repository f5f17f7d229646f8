import HookKernel.Proof.Dump
import HookKernel.Proof.Uploads

/-!
# The lists that the dump finds

The lists in the queue come from `create_datafile`: `path/<stamp>` is shorter than
`path/token_<stamp>`, so no data file has a name that the dump gives to a file. Nothing in
the process gives a file a second name.

* `IsDataName.not_new`, `IsDataName.not_dump`: the names are apart.
* `dump_dataFiles`: what the dump finds in every run are lists of data files, as
  `dump_complete_iff` assumes them.
-/

namespace HookKernel

open Lib

variable {c : Configure} {quit : Bool} {r r' : Rcv} {fs fs' : Disk} {a : RAct}

/-! ## Names of data files -/

theorem digit_ne_slash (n : ℕ) : digit n ≠ 47 := by
  have h : ∀ k < 10, (48 + k.toUInt8 : UInt8) ≠ 47 := by decide
  exact h _ (Nat.mod_lt _ (by decide))

theorem strftime_ne_slash (t : Tm) : ∀ b ∈ strftime t, b ≠ 47 := by
  have h := digit_ne_slash
  simp [strftime, twoDigits, h]

theorem dataName_length_le (path : CStr) (t : Tm) : (dataName path (strftime t)).length ≤ path.1.length + 20 := by
  unfold dataName
  rw [List.length_append, List.length_append, strftime_length]
  split <;> simp

/-- The stamp stays in the basename. -/
theorem basename_length (path : CStr) (t : Tm) : 19 ≤ (basename (dataName path (strftime t))).length := by
  have hstrip := stripSlashes_eq (dataName_ends path t)
  have hnot : (dataName path (strftime t)).all (· == 47) = false := by
    rw [List.all_eq_false]
    exact ⟨116, List.mem_of_getLast? (dataName_ends path t), by decide⟩
  have hstamp : ∀ b ∈ (strftime t).reverse, (b != 47) = true := by
    intro b hb
    simpa using strftime_ne_slash t b (List.mem_reverse.1 hb)
  have hbase : basename (dataName path (strftime t)) =
      ((dataName path (strftime t)).reverse.takeWhile (· != 47)).reverse := by
    unfold basename
    simp only [hstrip, hnot, Bool.false_eq_true, if_false]
  rw [hbase, List.length_reverse, dataName, List.reverse_append, List.takeWhile_append_of_pos hstamp, List.length_append,
    List.length_reverse, strftime_length]
  omega

/-- A new name is longer than that of any data file. -/
theorem IsDataName.not_new {n n' : Name} (h : IsDataName c.path n) (h' : IsDataName c.path n') : renameTarget c n ≠ n' := by
  obtain ⟨hpath, t, rfl⟩ := h
  obtain ⟨-, t', rfl⟩ := h'
  intro heq
  have h1 := basename_length c.path t
  have h2 := dataName_length_le c.path t'
  rw [← heq, renameTarget, List.length_take] at h2
  simp only [List.length_append, List.length_cons, List.length_nil] at h2
  omega

/-- So is the name of the dump file. -/
theorem IsDataName.not_dump {n : Name} (h : IsDataName c.path n) (now : ℤ) : dumpName c now ≠ n := by
  obtain ⟨hpath, t, rfl⟩ := h
  intro heq
  have h2 := dataName_length_le c.path t
  rw [← heq, dumpName, List.length_append, List.length_take, strftime_length] at h2
  simp only [List.length_append, List.length_cons, List.length_nil] at h2
  omega

/-! ## One name a file -/

theorem oneName_congr (h : fs.OneName) (hdir : fs'.dir = fs.dir) : fs'.OneName := by
  intro n n' i h1 h2
  rw [hdir] at h1 h2
  exact h n n' i h1 h2

theorem Wrote.oneName {m : Message} {e : WriteEnv} {w : WriteRes} (hw : Wrote c.localtime r.info fs m r.fresh e w)
    (h : fs.OneName) : w.fs.OneName := by
  have hrot := oneName_congr h (rotate_dir r.info fs m).1
  cases hw with
  | full _ _ => exact h
  | same _ _ =>
    rw [writeCurr_fs]
    exact h
  | noFile _ _ _ => exact hrot
  | new _ _ _ _ _ _ =>
    rw [writeCurr_fs]
    exact hrot.fopen

theorem RStep.oneName (hs : RStep c quit r fs a r' fs') (h : fs.OneName) : fs'.OneName := by
  cases hs with
  | writeOk _ _ hw _ | writeFail _ _ hw _ => exact hw.oneName h
  | detach _ => exact oneName_congr h (close_dir _ fs).1
  | drop _ hreset =>
    rw [(reset_files hreset).2]
    exact oneName_congr h (close_dir _ fs).1
  | reach _ => exact oneName_congr h rfl
  | _ => exact h

theorem SStep.oneName {sd sd' : Snd} {queue queue' : List Message} {b : SAct}
    (hs : SStep c quit sd queue fs b sd' queue' fs') (h : fs.OneName) : fs'.OneName := by
  cases hs with
  | rename _ _ _ _ =>
    rw [stepRename_fs]
    split
    · exact h.rename
    · exact h
  | fopen _ _ _ _ => exact h.fopen
  | reach _ => exact oneName_congr h rfl
  | _ => exact h

/-! ## Runs -/

/-- The push on the way out finds no pending name list. -/
def ListsDetached (s : Sys) (b : SysAct) : Prop :=
  b = .rcv (.push true) → s.rcv.pc = .lastPush → s.rcv.info.namesMsg = none

/-- **The lists name data files**, and no file has two names. -/
structure DataInv (c : Configure) (s : Sys) : Prop where
  lists : ListInv (fun _ => False) s
  path : s.rcv.info.path = c.path
  created : ∀ n ∈ s.rcv.created, IsDataName c.path n
  oneName : s.fs.OneName

theorem DataInv.step {s s' : Sys} {b : SysAct} (h : DataInv c s) (hc : ListsDetached s b) (hs : s.step c b = some s') :
    DataInv c s' := by
  have hb := h.lists.rcv.base
  have hlast : LastExcused (fun _ => False) s b := by
    intro h1 h2 h3
    obtain ⟨m, hm, ht⟩ := Option.map_eq_some_iff.1 h3
    have h0 := hb.flow.typeZero m hm (by rw [hc h1 h2]; rfl) (by rw [h2]; decide) (by rw [h2]; decide)
    omega
  have hlists := h.lists.step (fun hf _ => hf.elim) hlast hs
  cases sys_cases hs with
  | @rcv a r fs pushed _ hr hp =>
    refine ⟨hlists, (hr.path hb.data).trans h.path, fun n hn => ?_, hr.oneName h.oneName⟩
    rcases hr.created_cases hb.data hn with hn | hn
    · exact h.created n hn
    · rw [h.path] at hn
      exact hn
  | snd _ hsnd _ => exact ⟨hlists, h.path, h.created, hsnd.oneName h.oneName⟩
  | main hm | starter hm =>
    have hsame := hm.same
    exact ⟨hlists, by rw [hsame.rcv]; exact h.path, by rw [hsame.rcv]; exact h.created, by rw [hsame.fs]; exact h.oneName⟩

/-- **In every run what the dump finds are lists of data files**, if no file had two names at the start
and the last push finds no name list. -/
theorem dump_dataFiles (hone : fs.OneName) {s : Sys} (h : Reach (Sys.step c) ListsDetached (Sys.init c fs) s)
    {m : Message} (hm : s.snd.msg = some m) (now : ℤ) : DataFiles c now (m :: s.queue) s.fs := by
  have hinv : DataInv c s := by
    refine h.inv (I := DataInv c) ⟨listInv_init _ c fs, rfl, ?_, hone⟩ fun _ _ _ hi hc hs => hi.step hc hs
    simp [Sys.init, Rcv.init]
  have hplay : ∀ m' ∈ m :: s.queue, s.InPlay m' := by
    intro m' hm'
    rcases List.mem_cons.1 hm' with rfl | hm'
    · exact Or.inr hm
    · exact Or.inl hm'
  have hlist : ∀ m' ∈ m :: s.queue, m'.type = 1 → IsList s.rcv.created m' := fun m' hm' ht =>
    (hinv.lists.lists m' (hplay m' hm') ht).resolve_left id
  have hdata : ∀ n ∈ listNames (m :: s.queue), IsDataName c.path n := by
    intro n hn
    obtain ⟨m', hm', hmem⟩ := List.mem_flatMap.1 hn
    unfold Message.names at hmem
    split at hmem
    · exact hinv.created n ((hlist m' hm' ‹_›).names n hmem)
    · cases hmem
  refine dataFiles_of_oneName hinv.oneName (fun m' hm' ht => ⟨(hlist m' hm' ht).len_nonneg, (hlist m' hm' ht).len_le⟩) ?_
    ?_ ?_
  · exact fun n hn => stripSlashes_eq (hdata n hn).ends
  · exact fun n hn hmem => (hdata n hn).not_new (hdata _ hmem) rfl
  · exact fun hmem => (hdata _ hmem).not_dump now rfl

end HookKernel
