import HookKernel.Spec.TlogFiles

/-!
# The log files over a run

* `FilesInv`: what holds of the directory, the open file and the child at any time.
* `FilesInv.rename`, `FilesInv.unlink`, `FilesInv.create`, `FilesInv.append`: what the system calls make of it.
* `FilesInv.gzip`: what the child makes of it.
* `logs_conserved`: in every run no log file is lost, but for those that the limit removes.
-/

namespace HookKernel

open Lib

variable {c : FilesConf} {s₀ s s' : LogFiles} {e : FilesEnv}

/-! ## Names -/

theorem pending_ne : c.pending ≠ c.logname := by
  intro h
  have hlen := congrArg List.length h
  simp [FilesConf.pending] at hlen

theorem gzipFile_ne : c.gzipFile ≠ c.logname := by
  intro h
  have hlen := congrArg List.length h
  simp [FilesConf.gzipFile, FilesConf.pending] at hlen

theorem gzipFile_ne_pending : c.gzipFile ≠ c.pending := by
  intro h
  have hlen := congrArg List.length h
  simp [FilesConf.gzipFile] at hlen

theorem archiveFile_ne (t i : ℕ) : c.archiveFile t i ≠ c.logname := by
  intro h
  have hlen := congrArg List.length h
  simp [FilesConf.archiveFile] at hlen

/-- An archive is not taken for the pending file. -/
theorem archiveFile_ne_pending (t i : ℕ) : c.archiveFile t i ≠ c.pending := by
  intro h
  unfold FilesConf.archiveFile FilesConf.pending at h
  rw [List.append_assoc, List.append_assoc, List.append_assoc, List.append_cancel_left_eq] at h
  cases h

/-! ## The invariant -/

/-- The child is at work on the pending file. -/
def ChildOk (c : FilesConf) (dir : Directory FName) (node : ℕ → LogNode) : Option GzPc → Prop
  | some .writing => ∃ i g, dir.lookup c.pending = some i ∧ dir.lookup c.gzipFile = some g ∧ (node g).gzipOf = some i
  | some .written => ∃ i g, dir.lookup c.pending = some i ∧ dir.lookup c.gzipFile = some g ∧ (node g).gzipOf = some i ∧
      (node g).whole = true
  | _ => True

/-- **The directory, the open file and the child.** -/
structure FilesInv (c : FilesConf) (s₀ s : LogFiles) : Prop where
  start : s₀.next ≤ s.next
  number : ∀ n i, s.dir.lookup n = some i → i < s.next
  one : ∀ m n i, s.dir.lookup m = some i → s.dir.lookup n = some i → m = n
  fresh : ∀ i, s.next ≤ i → s.node i = s₀.node i
  whole : ∀ i, (s.node i).gzipOf = none → (s.node i).whole = true
  copy : ∀ g k, (s.node g).gzipOf = some k →
    k < s.next ∧ (s.node k).gzipOf = none ∧ ((s.node g).whole = true → (s.node g).bytes = (s.node k).bytes)
  log : ∀ i, s.dir.lookup c.logname = some i → (s.node i).gzipOf = none ∧ ∀ g, (s.node g).gzipOf ≠ some i
  fd : ∀ i, s.fd = some i → i < s.next ∧ (s.node i).gzipOf = none ∧ (∀ g, (s.node g).gzipOf ≠ some i) ∧
    ∀ n, s.dir.lookup n = some i → n = c.logname
  same : ∀ i j, s.fd = some i → s.dir.lookup c.logname = some j → j = i
  pending : ∀ i, s.dir.lookup c.pending = some i → (s.node i).gzipOf = none
  child : ChildOk c s.dir s.node s.zip
  newest : ∀ i, s.dir.lookup c.logname = some i ∨ s.fd = some i → ∀ w ∈ s.wrote, w.1 ≤ i
  conserved : Conserved c s₀ s

/-- What the child has under way concerns the directory and the nodes only. -/
theorem FilesInv.idle (h : FilesInv c s₀ s) (zip : Option GzPc) (hz : zip ≠ some .writing ∧ zip ≠ some .written)
    (filesize lastTry : ℕ) : FilesInv c s₀ { s with zip := zip, filesize := filesize, lastTry := lastTry } := by
  refine ⟨h.start, h.number, h.one, h.fresh, h.whole, h.copy, h.log, h.fd, h.same, h.pending, ?_, h.newest,
    ⟨h.conserved.here, h.conserved.bytes, h.conserved.order, h.conserved.known, h.conserved.limit⟩⟩
  cases zip with
  | none => trivial
  | some pc =>
    cases pc with
    | started | exited => trivial
    | writing => exact absurd rfl hz.1
    | written => exact absurd rfl hz.2

/-- `close` -/
theorem FilesInv.close (h : FilesInv c s₀ s) : FilesInv c s₀ { s with fd := none } := by
  refine ⟨h.start, h.number, h.one, h.fresh, h.whole, h.copy, h.log, fun i hi => ?_, fun i _ hi => ?_, h.pending,
    h.child, fun i hi => ?_, ⟨h.conserved.here, h.conserved.bytes, h.conserved.order, h.conserved.known, h.conserved.limit⟩⟩
  · cases hi
  · cases hi
  · rcases hi with hi | hi
    · exact h.newest i (Or.inl hi)
    · cases hi

/-- **Renaming** to a name that is free, while there is no child. -/
theorem FilesInv.rename {a b : FName} {i : ℕ} (h : FilesInv c s₀ s) (hz : s.zip = none) (ha : s.dir.lookup a = some i)
    (hb : s.dir.lookup b = none) (hlog : b ≠ c.logname) (hfd : a = c.logname → s.fd = none)
    (hpend : b = c.pending → (s.node i).gzipOf = none) : FilesInv c s₀ { s with dir := s.dir.rename a b } := by
  have hab : a ≠ b := by
    rintro rfl
    rw [ha] at hb
    cases hb
  have hren := lookup_rename ha hab
  -- where a file of the new directory was
  have hback : ∀ n j, (s.dir.rename a b).lookup n = some j → n = b ∧ j = i ∨ n ≠ a ∧ s.dir.lookup n = some j := by
    intro n j hn
    rw [hren] at hn
    by_cases hnb : n = b
    · rw [if_pos hnb, Option.some.injEq] at hn
      exact Or.inl ⟨hnb, hn.symm⟩
    · rw [if_neg hnb] at hn
      by_cases hna : n = a
      · rw [if_pos hna] at hn
        cases hn
      · rw [if_neg hna] at hn
        exact Or.inr ⟨hna, hn⟩
  -- where a file of the old directory is
  have hgo : ∀ n j, s.dir.lookup n = some j → ∃ m, (s.dir.rename a b).lookup m = some j := by
    intro n j hn
    by_cases hna : n = a
    · subst hna
      obtain rfl := Option.some.inj (ha.symm.trans hn)
      exact ⟨b, by rw [hren, if_pos rfl]⟩
    · refine ⟨n, ?_⟩
      rw [hren, if_neg, if_neg hna, hn]
      rintro rfl
      rw [hb] at hn
      cases hn
  refine ⟨h.start, fun n j hn => ?_, fun m n j hm hn => ?_, h.fresh, h.whole, h.copy, fun j hj => ?_, fun j hj => ?_,
    fun i j hi hj => ?_, fun j hj => ?_, ?_, fun j hj => ?_, ?_⟩
  · rcases hback n j hn with ⟨-, rfl⟩ | ⟨-, hold⟩
    · exact h.number a j ha
    · exact h.number n j hold
  · rcases hback m j hm with ⟨rfl, rfl⟩ | ⟨hma, hm'⟩
    · rcases hback n j hn with ⟨rfl, -⟩ | ⟨hna, hn'⟩
      · rfl
      · exact absurd (h.one n a j hn' ha) hna
    · rcases hback n j hn with ⟨rfl, rfl⟩ | ⟨hna, hn'⟩
      · exact absurd (h.one m a j hm' ha) hma
      · exact h.one m n j hm' hn'
  · rcases hback _ j hj with ⟨hbad, -⟩ | ⟨-, hold⟩
    · exact absurd hbad.symm hlog
    · exact h.log j hold
  · obtain ⟨h1, h2, h3, h4⟩ := h.fd j hj
    refine ⟨h1, h2, h3, fun n hn => ?_⟩
    rcases hback n j hn with ⟨-, rfl⟩ | ⟨-, hold⟩
    · rw [hfd (h4 a ha)] at hj
      cases hj
    · exact h4 n hold
  · rcases hback _ j hj with ⟨hbad, -⟩ | ⟨-, hold⟩
    · exact absurd hbad.symm hlog
    · exact h.same i j hi hold
  · rcases hback _ j hj with ⟨hbp, rfl⟩ | ⟨-, hold⟩
    · exact hpend hbp.symm
    · exact h.pending j hold
  · simp only [hz]
    trivial
  · rcases hj with hj | hj
    · rcases hback _ j hj with ⟨hbad, -⟩ | ⟨-, hold⟩
      · exact absurd hbad.symm hlog
      · exact h.newest j (Or.inl hold)
    · exact h.newest j (Or.inr hj)
  · refine ⟨fun k hk hplain => ?_, h.conserved.bytes, h.conserved.order, h.conserved.known, h.conserved.limit⟩
    rcases h.conserved.here k hk hplain with hrem | ⟨n, j, hn, hcopy⟩
    · exact Or.inl hrem
    · obtain ⟨m, hm⟩ := hgo n j hn
      exact Or.inr ⟨m, j, hm, hcopy⟩

/-- What a directory with one name less has. -/
theorem lookup_erase_back {d : Directory FName} {n m : FName} {j : ℕ} (h : (d.erase n).lookup m = some j) :
    m ≠ n ∧ d.lookup m = some j := by
  by_cases hmn : m = n
  · subst hmn
    rw [AList.lookup_erase] at h
    cases h
  · rw [AList.lookup_erase_ne hmn] at h
    exact ⟨hmn, h⟩

/-- A log file that is there stays, or it is in the file that is unlinked. -/
theorem LogFiles.Has.erase {n : FName} {k : ℕ} (h : s.Has k) :
    LogFiles.Has { s with dir := s.dir.erase n } k ∨ ∃ i, s.dir.lookup n = some i ∧
      (i = k ∨ (s.node i).gzipOf = some k ∧ (s.node i).whole = true ∧ (s.node i).bytes = (s.node k).bytes) := by
  obtain ⟨m, j, hm, hcopy⟩ := h
  by_cases hmn : m = n
  · subst hmn
    exact Or.inr ⟨j, hm, hcopy⟩
  · exact Or.inl ⟨m, j, (AList.lookup_erase_ne hmn).trans hm, hcopy⟩

/-- **Unlinking** a file: what was in it is elsewhere, or noted as removed. -/
theorem FilesInv.unlink {n : FName} (zip : Option GzPc) (removed : List (FName × ℕ)) (h : FilesInv c s₀ s)
    (hchild : ChildOk c (s.dir.erase n) s.node zip)
    (hhere : ∀ k < s.next, (s.node k).gzipOf = none →
      k ∈ removed.map Prod.snd ∨ LogFiles.Has { s with dir := s.dir.erase n } k)
    (hlimit : ∀ r ∈ removed, c.logname ++ [45] <+: r.1 ∨ c.logname.length = 127 ∧ r.1 = c.logname) :
    FilesInv c s₀ { s with dir := s.dir.erase n, zip := zip, removed := removed } := by
  refine ⟨h.start, fun m j hm => h.number m j (lookup_erase_back hm).2,
    fun m m' j hm hm' => h.one m m' j (lookup_erase_back hm).2 (lookup_erase_back hm').2, h.fresh, h.whole, h.copy,
    fun j hj => h.log j (lookup_erase_back hj).2, fun j hj => ?_,
    fun i j hi hj => h.same i j hi (lookup_erase_back hj).2, fun j hj => h.pending j (lookup_erase_back hj).2, hchild,
    fun j hj => ?_, ⟨hhere, h.conserved.bytes, h.conserved.order, h.conserved.known, hlimit⟩⟩
  · obtain ⟨h1, h2, h3, h4⟩ := h.fd j hj
    exact ⟨h1, h2, h3, fun m hm => h4 m (lookup_erase_back hm).2⟩
  · rcases hj with hj | hj
    · exact h.newest j (Or.inl (lookup_erase_back hj).2)
    · exact h.newest j (Or.inr hj)

/-- The limit removes a file, while there is no child. -/
theorem FilesInv.erase {n : FName} {i : ℕ} (h : FilesInv c s₀ s) (hz : s.zip = none) (hn : s.dir.lookup n = some i)
    (hname : c.logname ++ [45] <+: n ∨ c.logname.length = 127 ∧ n = c.logname) :
    FilesInv c s₀ { s with
      dir := s.dir.erase n
      removed := s.removed ++ (if (s.node i).whole then [(n, (s.node i).gzipOf.getD i)] else []) } := by
  refine h.unlink s.zip _ ?_ (fun k hk hplain => ?_) fun r hr => ?_
  · rw [hz]
    trivial
  · rw [List.map_append]
    rcases h.conserved.here k hk hplain with hrem | hhas
    · exact Or.inl (List.mem_append_left _ hrem)
    · rcases hhas.erase (n := n) with hhas | ⟨j, hj, hcopy⟩
      · exact Or.inr hhas
      · obtain rfl := Option.some.inj (hn.symm.trans hj)
        refine Or.inl (List.mem_append_right _ ?_)
        rcases hcopy with rfl | ⟨hof, hwhole, -⟩
        · rw [if_pos (h.whole i hplain), hplain]
          exact List.mem_singleton_self i
        · rw [if_pos hwhole, hof]
          exact List.mem_singleton_self k
  · rcases List.mem_append.1 hr with hr | hr
    · exact h.conserved.limit r hr
    · split at hr
      · obtain rfl := List.mem_singleton.1 hr
        exact hname
      · cases hr

/-- A file that is not in use yet is like no other. -/
theorem FilesInv.unnamed (h : FilesInv c s₀ s) (hs₀ : FilesStart s₀) :
    (∀ n, s.dir.lookup n ≠ some s.next) ∧ (s.node s.next).gzipOf = none ∧ ∀ g, (s.node g).gzipOf ≠ some s.next := by
  refine ⟨fun n hn => Nat.lt_irrefl _ (h.number n _ hn), ?_, fun g hg => Nat.lt_irrefl _ (h.copy g _ hg).1⟩
  rw [h.fresh s.next (Nat.le_refl _)]
  exact (hs₀.plain s.next).1

/-- What a directory with one name more has. -/
theorem lookup_insert_back {d : Directory FName} {n m : FName} {i j : ℕ} (h : (d.insert n i).lookup m = some j) :
    m = n ∧ j = i ∨ m ≠ n ∧ d.lookup m = some j := by
  by_cases hmn : m = n
  · subst hmn
    rw [AList.lookup_insert, Option.some.injEq] at h
    exact Or.inl ⟨rfl, h.symm⟩
  · rw [AList.lookup_insert_ne hmn] at h
    exact Or.inr ⟨hmn, h⟩

/-- A file that is compressed when there is one file more: an old one, and not the open one or the log file. -/
theorem FilesInv.copied {x : LogNode} (h : FilesInv c s₀ s)
    (hx : x.gzipOf = none ∨ ∃ i, s.dir.lookup c.pending = some i ∧ x.gzipOf = some i) {g k : ℕ}
    (hg : (Function.update s.node s.next x g).gzipOf = some k) :
    k < s.next ∧ (s.node k).gzipOf = none ∧ s.fd ≠ some k ∧ s.dir.lookup c.logname ≠ some k := by
  by_cases hgn : g = s.next
  · subst hgn
    rw [Function.update_self] at hg
    rcases hx with hplain | ⟨i, hi, hxi⟩
    · rw [hplain] at hg
      cases hg
    · obtain rfl : i = k := Option.some.inj (hxi.symm.trans hg)
      refine ⟨h.number _ i hi, h.pending i hi, fun hfd => ?_, fun hl => ?_⟩
      · exact pending_ne ((h.fd i hfd).2.2.2 _ hi)
      · exact pending_ne (h.one _ _ i hi hl)
  · rw [Function.update_of_ne hgn] at hg
    obtain ⟨h1, h2, -⟩ := h.copy g k hg
    exact ⟨h1, h2, fun hfd => (h.fd k hfd).2.2.1 g hg, fun hl => (h.log k hl).2 g hg⟩

/-- Nothing is lost when there is one file more, and it is empty. -/
theorem FilesInv.conserved_create {n : FName} {x : LogNode} {zip : Option GzPc} (h : FilesInv c s₀ s) (hs₀ : FilesStart s₀)
    (hn : s.dir.lookup n = none) (hbytes : x.bytes = []) :
    Conserved c s₀ { s with
      dir := s.dir.insert n s.next, node := Function.update s.node s.next x, next := s.next + 1, zip := zip } := by
  have hnode : ∀ i, i < s.next → Function.update s.node s.next x i = s.node i := fun i hi =>
    Function.update_of_ne (Nat.ne_of_lt hi) x s.node
  have hcases : ∀ k < s.next + 1, k = s.next ∨ k < s.next := by omega
  refine ⟨fun k hk hplain => ?_, fun k hk hplain => ?_, h.conserved.order, fun w hw => ?_, h.conserved.limit⟩
  · rcases hcases k hk with rfl | hk'
    · exact Or.inr ⟨n, s.next, AList.lookup_insert _, Or.inl rfl⟩
    · simp only [hnode k hk'] at hplain
      rcases h.conserved.here k hk' hplain with hrem | ⟨m, j, hm, hcopy⟩
      · exact Or.inl hrem
      · have hmn : m ≠ n := by
          rintro rfl
          rw [hn] at hm
          cases hm
        refine Or.inr ⟨m, j, ?_, ?_⟩
        · show (s.dir.insert n s.next).lookup m = some j
          rw [AList.lookup_insert_ne hmn, hm]
        · simp only [hnode k hk', hnode j (h.number m j hm)]
          exact hcopy
  · rcases hcases k hk with rfl | hk'
    · -- nothing has been written to it
      have hnone : s.wrote.filter (fun w => w.1 = s.next) = [] := by
        rw [List.filter_eq_nil_iff]
        intro w hw hwk
        have hlt := (h.conserved.known w hw).1
        have heq : w.1 = s.next := by simpa using hwk
        omega
      simp only [Function.update_self, hbytes, hnone, hs₀.unused s.next h.start, List.flatMap_nil, List.append_nil]
    · simp only [hnode k hk'] at hplain ⊢
      exact h.conserved.bytes k hk' hplain
  · obtain ⟨h1, h2⟩ := h.conserved.known w hw
    refine ⟨Nat.lt_succ_of_lt h1, ?_⟩
    simp only [hnode _ h1]
    exact h2

/-- **A new file**: the log file, or the compressed copy of the pending one. -/
theorem FilesInv.create {n : FName} {x : LogNode} {zip : Option GzPc} (h : FilesInv c s₀ s) (hs₀ : FilesStart s₀)
    (hn : s.dir.lookup n = none) (hbytes : x.bytes = []) (hwhole : x.gzipOf = none → x.whole = true)
    (hkind : n = c.logname ∧ s.fd = none ∧ x.gzipOf = none ∨ n = c.gzipFile ∧ x.whole = false ∧ ∃ i, s.dir.lookup c.pending = some i ∧
      x.gzipOf = some i)
    (hchild : ChildOk c (s.dir.insert n s.next) (Function.update s.node s.next x) zip) :
    FilesInv c s₀ { s with
      dir := s.dir.insert n s.next, node := Function.update s.node s.next x, next := s.next + 1, zip := zip } := by
  obtain ⟨hno, -, -⟩ := h.unnamed hs₀
  have hnode : ∀ i, i < s.next → Function.update s.node s.next x i = s.node i := fun i hi =>
    Function.update_of_ne (Nat.ne_of_lt hi) x s.node
  have hof : ∀ g k, (Function.update s.node s.next x g).gzipOf = some k →
      k < s.next ∧ (s.node k).gzipOf = none ∧ s.fd ≠ some k ∧ s.dir.lookup c.logname ≠ some k := fun _ _ =>
    h.copied (hkind.imp (fun hlog => hlog.2.2) fun hgz => hgz.2.2)
  refine ⟨Nat.le_succ_of_le h.start, fun m j hm => ?_, fun m m' j hm hm' => ?_, fun j hj => ?_, fun j hj => ?_,
    fun g k hg => ?_, fun j hj => ?_, fun j hj => ?_, fun i j hi hj => ?_, fun j hj => ?_, hchild, fun j hj => ?_,
    h.conserved_create hs₀ hn hbytes⟩
  · rcases lookup_insert_back hm with ⟨-, rfl⟩ | ⟨-, hold⟩
    · exact Nat.lt_succ_self _
    · exact Nat.lt_succ_of_lt (h.number m j hold)
  · rcases lookup_insert_back hm with ⟨rfl, rfl⟩ | ⟨-, hold⟩
    · rcases lookup_insert_back hm' with ⟨rfl, -⟩ | ⟨-, hold'⟩
      · rfl
      · exact absurd hold' (hno m')
    · rcases lookup_insert_back hm' with ⟨rfl, rfl⟩ | ⟨-, hold'⟩
      · exact absurd hold (hno m)
      · exact h.one m m' j hold hold'
  · have hne : j ≠ s.next := by
      have : s.next + 1 ≤ j := hj
      omega
    show Function.update s.node s.next x j = _
    rw [Function.update_of_ne hne]
    exact h.fresh j (by have : s.next + 1 ≤ j := hj; omega)
  · by_cases hjn : j = s.next
    · subst hjn
      simp only [Function.update_self] at hj ⊢
      exact hwhole hj
    · simp only [Function.update_of_ne hjn] at hj ⊢
      exact h.whole j hj
  · obtain ⟨h1, h2, -, -⟩ := hof g k hg
    refine ⟨Nat.lt_succ_of_lt h1, ?_, fun hw => ?_⟩
    · show (Function.update s.node s.next x k).gzipOf = none
      rw [hnode k h1, h2]
    · show (Function.update s.node s.next x g).bytes = (Function.update s.node s.next x k).bytes
      rw [hnode k h1]
      by_cases hgn : g = s.next
      · subst hgn
        simp only [Function.update_self] at hg hw ⊢
        rcases hkind with ⟨-, -, hplain⟩ | ⟨-, hpart, -⟩
        · rw [hplain] at hg
          cases hg
        · rw [hpart] at hw
          cases hw
      · simp only [Function.update_of_ne hgn] at hg hw ⊢
        exact (h.copy g k hg).2.2 hw
  · show (Function.update s.node s.next x j).gzipOf = none ∧ ∀ g, (Function.update s.node s.next x g).gzipOf ≠ some j
    rcases lookup_insert_back hj with ⟨hln, rfl⟩ | ⟨-, hold⟩
    · refine ⟨?_, fun g hg => Nat.lt_irrefl _ (hof g _ hg).1⟩
      rw [Function.update_self]
      rcases hkind with ⟨-, -, hplain⟩ | ⟨hgz, -⟩
      · exact hplain
      · exact absurd (hln.trans hgz).symm gzipFile_ne
    · refine ⟨?_, fun g hg => (hof g j hg).2.2.2 hold⟩
      rw [hnode j (h.number _ j hold)]
      exact (h.log j hold).1
  · obtain ⟨h1, h2, h3, h4⟩ := h.fd j hj
    refine ⟨Nat.lt_succ_of_lt h1, ?_, fun g hg => (hof g j hg).2.2.1 hj, fun m hm => ?_⟩
    · show (Function.update s.node s.next x j).gzipOf = none
      rw [hnode j h1, h2]
    · rcases lookup_insert_back hm with ⟨-, rfl⟩ | ⟨-, hold⟩
      · exact absurd h1 (Nat.lt_irrefl _)
      · exact h4 m hold
  · rcases lookup_insert_back hj with ⟨hln, rfl⟩ | ⟨-, hold⟩
    · rcases hkind with ⟨-, hclosed, -⟩ | ⟨hgz, -⟩
      · rw [hclosed] at hi
        cases hi
      · exact absurd (hln.trans hgz).symm gzipFile_ne
    · exact h.same i j hi hold
  · show (Function.update s.node s.next x j).gzipOf = none
    rcases lookup_insert_back hj with ⟨hpn, rfl⟩ | ⟨-, hold⟩
    · rcases hkind with ⟨hl, -⟩ | ⟨hgz, -⟩
      · exact absurd (hpn.trans hl) pending_ne
      · exact absurd (hpn.trans hgz).symm gzipFile_ne_pending
    · rw [hnode j (h.number _ j hold)]
      exact h.pending j hold
  · intro w hw
    have hlt := (h.conserved.known w hw).1
    rcases hj with hj | hj
    · rcases lookup_insert_back hj with ⟨-, rfl⟩ | ⟨-, hold⟩
      · exact Nat.le_of_lt hlt
      · exact h.newest j (Or.inl hold) w hw
    · exact h.newest j (Or.inr hj) w hw

/-- A node that is changed keeps what kind of file it is. -/
theorem update_gzipOf {node : ℕ → LogNode} {i : ℕ} {x : LogNode} (h : x.gzipOf = (node i).gzipOf) (j : ℕ) :
    (Function.update node i x j).gzipOf = (node j).gzipOf := by
  by_cases hj : j = i
  · rw [hj, Function.update_self, h]
  · rw [Function.update_of_ne hj]

theorem update_whole {node : ℕ → LogNode} {i : ℕ} {x : LogNode} (h : x.whole = (node i).whole) (j : ℕ) :
    (Function.update node i x j).whole = (node j).whole := by
  by_cases hj : j = i
  · rw [hj, Function.update_self, h]
  · rw [Function.update_of_ne hj]

/-- What is written stands behind what the file had. -/
theorem FilesInv.conserved_append {i : ℕ} (h : FilesInv c s₀ s) (hfd : s.fd = some i) (bs : List UInt8) (now : ℕ)
    (filesize : ℕ) :
    Conserved c s₀ { s with
      node := Function.update s.node i { s.node i with bytes := (s.node i).bytes ++ bs, mtime := now }
      filesize := filesize
      wrote := s.wrote ++ [(i, bs)] } := by
  obtain ⟨hi, hplain, hnone, -⟩ := h.fd i hfd
  set node := Function.update s.node i { s.node i with bytes := (s.node i).bytes ++ bs, mtime := now } with hdef
  have hof : ∀ j, (node j).gzipOf = (s.node j).gzipOf := update_gzipOf rfl
  have hwhole : ∀ j, (node j).whole = (s.node j).whole := update_whole rfl
  have hother : ∀ j, j ≠ i → node j = s.node j := fun j hj => by rw [hdef, Function.update_of_ne hj]
  have hself : (node i).bytes = (s.node i).bytes ++ bs := by rw [hdef, Function.update_self]
  refine ⟨fun k hk hp => ?_, fun k hk hp => ?_, ?_, fun w hw => ?_, h.conserved.limit⟩
  · simp only [hof] at hp
    rcases h.conserved.here k hk hp with hrem | ⟨n, j, hn, hcopy⟩
    · exact Or.inl hrem
    · refine Or.inr ⟨n, j, hn, ?_⟩
      simp only [hof, hwhole]
      rcases hcopy with rfl | ⟨h1, h2, h3⟩
      · exact Or.inl rfl
      · have hki : k ≠ i := fun hk => hnone j (hk ▸ h1)
        have hji : j ≠ i := by
          rintro rfl
          rw [hplain] at h1
          cases h1
        exact Or.inr ⟨h1, h2, by rw [hother j hji, hother k hki, h3]⟩
  · simp only [hof] at hp
    have hold := h.conserved.bytes k hk hp
    show (node k).bytes = _ ++ (List.filter _ (s.wrote ++ [(i, bs)])).flatMap _
    by_cases hki : k = i
    · subst hki
      rw [hself, hold, List.filter_append, List.flatMap_append, List.append_assoc]
      simp
    · have hik : ¬ i = k := fun h => hki h.symm
      rw [hother k hki, hold, List.filter_append, List.flatMap_append]
      simp [hik]
  · rw [List.map_append, List.pairwise_append]
    refine ⟨h.conserved.order, List.pairwise_singleton _ _, fun a ha b hb => ?_⟩
    obtain ⟨w, hw, rfl⟩ := List.mem_map.1 ha
    obtain rfl : b = i := by simpa using hb
    exact h.newest b (Or.inr hfd) w hw
  · simp only [hof]
    rcases List.mem_append.1 hw with hw | hw
    · exact h.conserved.known w hw
    · rw [List.mem_singleton.1 hw]
      exact ⟨hi, hplain⟩

/-- **Writing** to the open file. -/
theorem FilesInv.append {i : ℕ} (h : FilesInv c s₀ s) (hfd : s.fd = some i) (bs : List UInt8) (now : ℕ) (filesize : ℕ) :
    FilesInv c s₀ { s with
      node := Function.update s.node i { s.node i with bytes := (s.node i).bytes ++ bs, mtime := now }
      filesize := filesize
      wrote := s.wrote ++ [(i, bs)] } := by
  obtain ⟨hi, hplain, hnone, -⟩ := h.fd i hfd
  set node := Function.update s.node i { s.node i with bytes := (s.node i).bytes ++ bs, mtime := now } with hdef
  -- the kinds of the files stay, and so do all other bytes
  have hof : ∀ j, (node j).gzipOf = (s.node j).gzipOf := update_gzipOf rfl
  have hwhole : ∀ j, (node j).whole = (s.node j).whole := update_whole rfl
  have hother : ∀ j, j ≠ i → node j = s.node j := fun j hj => by rw [hdef, Function.update_of_ne hj]
  refine ⟨h.start, h.number, h.one, fun j hj => ?_, fun j hj => ?_, fun g k hg => ?_, fun j hj => ?_, fun j hj => ?_,
    h.same, fun j hj => ?_, ?_, fun j hj => ?_, h.conserved_append hfd bs now filesize⟩
  · have hle : s.next ≤ j := hj
    exact (hother j (by omega)).trans (h.fresh j hle)
  · simp only [hof, hwhole] at hj ⊢
    exact h.whole j hj
  · simp only [hof, hwhole] at hg ⊢
    obtain ⟨h1, h2, h3⟩ := h.copy g k hg
    refine ⟨h1, h2, fun hw => ?_⟩
    have hki : k ≠ i := fun hk => hnone g (hk ▸ hg)
    have hgi : g ≠ i := by
      rintro rfl
      rw [hplain] at hg
      cases hg
    rw [hother g hgi, hother k hki]
    exact h3 hw
  · simp only [hof]
    exact h.log j hj
  · simp only [hof]
    exact h.fd j hj
  · simp only [hof]
    exact h.pending j hj
  · have hchild := h.child
    simp only [ChildOk, hof, hwhole] at hchild ⊢
    exact hchild
  · intro w hw
    have hij : i ≤ j := by
      rcases hj with hj | hj
      · exact Nat.le_of_eq (h.same i j hfd hj).symm
      · exact Nat.le_of_eq (Option.some.inj (hfd.symm.trans hj))
    rcases List.mem_append.1 hw with hw | hw
    · exact h.newest j hj w hw
    · rw [List.mem_singleton.1 hw]
      exact hij

/-- The log file is open. -/
theorem FilesInv.setFd {i : ℕ} (h : FilesInv c s₀ s) (hi : s.dir.lookup c.logname = some i) (lastTry filesize : ℕ) :
    FilesInv c s₀ { s with fd := some i, lastTry := lastTry, filesize := filesize } := by
  obtain ⟨h1, h2⟩ := h.log i hi
  refine ⟨h.start, h.number, h.one, h.fresh, h.whole, h.copy, h.log, fun j hj => ?_, fun j j' hj hj' => ?_, h.pending,
    h.child, fun j hj => ?_, ⟨h.conserved.here, h.conserved.bytes, h.conserved.order, h.conserved.known, h.conserved.limit⟩⟩
  · obtain rfl := Option.some.inj hj
    exact ⟨h.number _ i hi, h1, h2, fun n hn => h.one n _ i hn hi⟩
  · obtain rfl := Option.some.inj hj
    exact (Option.some.inj (hi.symm.trans hj')).symm
  · rcases hj with hj | hj
    · exact h.newest j (Or.inl hj)
    · obtain rfl := Option.some.inj hj
      exact h.newest i (Or.inl hi)

/-- The child does not care for a new log file. -/
theorem FilesInv.child_create {x : LogNode} (h : FilesInv c s₀ s) :
    ChildOk c (s.dir.insert c.logname s.next) (Function.update s.node s.next x) s.zip := by
  have hother : ∀ n i, n ≠ c.logname → s.dir.lookup n = some i →
      (s.dir.insert c.logname s.next).lookup n = some i ∧ Function.update s.node s.next x i = s.node i := by
    intro n i hne hn
    exact ⟨(AList.lookup_insert_ne hne).trans hn, Function.update_of_ne (Nat.ne_of_lt (h.number n i hn)) _ _⟩
  have hchild := h.child
  cases hz : s.zip with
  | none => trivial
  | some pc =>
    rw [hz] at hchild
    cases pc with
    | started | exited => trivial
    | writing =>
      obtain ⟨i, g, hi, hg, hof⟩ := hchild
      obtain ⟨hg', hnode⟩ := hother _ g gzipFile_ne hg
      exact ⟨i, g, (hother _ i pending_ne hi).1, hg', by rw [hnode, hof]⟩
    | written =>
      obtain ⟨i, g, hi, hg, hof, hwhole⟩ := hchild
      obtain ⟨hg', hnode⟩ := hother _ g gzipFile_ne hg
      exact ⟨i, g, (hother _ i pending_ne hi).1, hg', by rw [hnode, hof], by rw [hnode, hwhole]⟩

/-- **The child writes** to the compressed file, or completes it: the pending one is still there. -/
theorem FilesInv.compress {i g : ℕ} {x : LogNode} {zip : Option GzPc} (h : FilesInv c s₀ s)
    (hi : s.dir.lookup c.pending = some i) (hg : s.dir.lookup c.gzipFile = some g) (hof : (s.node g).gzipOf = some i)
    (hx : x.gzipOf = some i) (hcopy : x.whole = true → x.bytes = (s.node i).bytes)
    (hzip : zip = some .writing ∨ zip = some .written ∧ x.whole = true) :
    FilesInv c s₀ { s with node := Function.update s.node g x, zip := zip } := by
  set node := Function.update s.node g x with hdef
  have hself : node g = x := by rw [hdef, Function.update_self]
  have hother : ∀ j, j ≠ g → node j = s.node j := fun j hj => by rw [hdef, Function.update_of_ne hj]
  have hkind : ∀ j, (node j).gzipOf = (s.node j).gzipOf := update_gzipOf (hx.trans hof.symm)
  have hplain : ∀ j, (s.node j).gzipOf = none → node j = s.node j := by
    intro j hj
    refine hother j ?_
    rintro rfl
    rw [hof] at hj
    cases hj
  refine ⟨h.start, h.number, h.one, fun j hj => ?_, fun j hj => ?_, fun j k hj => ?_, fun j hj => ?_, fun j hj => ?_,
    h.same, fun j hj => ?_, ?_, h.newest, ?_⟩
  · have hle : s.next ≤ j := hj
    have := h.number _ g hg
    exact (hother j (by omega)).trans (h.fresh j hle)
  · simp only [hkind] at hj
    show (node j).whole = true
    rw [hplain j hj]
    exact h.whole j hj
  · simp only [hkind] at hj ⊢
    obtain ⟨h1, h2, h3⟩ := h.copy j k hj
    refine ⟨h1, h2, fun hw => ?_⟩
    rw [hplain k h2]
    by_cases hjg : j = g
    · subst hjg
      rw [hself] at hw ⊢
      obtain rfl : i = k := Option.some.inj (hof.symm.trans hj)
      exact hcopy hw
    · rw [hother j hjg] at hw ⊢
      exact h3 hw
  · simp only [hkind]
    exact h.log j hj
  · simp only [hkind]
    exact h.fd j hj
  · simp only [hkind]
    exact h.pending j hj
  · have hofg : (node g).gzipOf = some i := by rw [hself, hx]
    rcases hzip with rfl | ⟨rfl, hwhole⟩
    · exact ⟨i, g, hi, hg, hofg⟩
    · rw [← hself] at hwhole
      exact ⟨i, g, hi, hg, hofg, hwhole⟩
  · refine ⟨fun k hk hp => ?_, fun k hk hp => ?_, h.conserved.order, fun w hw => ?_, h.conserved.limit⟩
    · simp only [hkind] at hp
      rcases h.conserved.here k hk hp with hrem | ⟨n, j, hn, hcopy⟩
      · exact Or.inl hrem
      · by_cases hki : k = i
        · exact Or.inr ⟨c.pending, i, hi, Or.inl hki.symm⟩
        · refine Or.inr ⟨n, j, hn, ?_⟩
          show j = k ∨ (node j).gzipOf = some k ∧ (node j).whole = true ∧ (node j).bytes = (node k).bytes
          rw [hplain k hp]
          rcases hcopy with rfl | ⟨h1, h2, h3⟩
          · exact Or.inl rfl
          · -- it is in another compressed file
            have hjg : j ≠ g := by
              rintro rfl
              exact hki (Option.some.inj (h1.symm.trans hof))
            rw [hother j hjg]
            exact Or.inr ⟨h1, h2, h3⟩
    · simp only [hkind] at hp
      show (node k).bytes = _
      rw [hplain k hp]
      exact h.conserved.bytes k hk hp
    · simp only [hkind]
      exact h.conserved.known w hw

/-- The pending file is unlinked: the compressed one has its bytes. -/
theorem FilesInv.unlinkPending {i g : ℕ} (h : FilesInv c s₀ s) (hi : s.dir.lookup c.pending = some i)
    (hg : s.dir.lookup c.gzipFile = some g) (hof : (s.node g).gzipOf = some i) (hwhole : (s.node g).whole = true) :
    FilesInv c s₀ { s with dir := s.dir.erase c.pending, zip := some .exited } := by
  refine h.unlink (some .exited) s.removed trivial (fun k hk hp => ?_) h.conserved.limit
  rcases h.conserved.here k hk hp with hrem | hhas
  · exact Or.inl hrem
  · rcases hhas.erase (n := c.pending) with hhas | ⟨j, hj, rfl | ⟨h1, -, -⟩⟩
    · exact Or.inr hhas
    · obtain rfl := Option.some.inj (hi.symm.trans hj)
      refine Or.inr ⟨c.gzipFile, g, ?_, Or.inr ⟨hof, hwhole, (h.copy g i hof).2.2 hwhole⟩⟩
      exact (AList.lookup_erase_ne gzipFile_ne_pending).trans hg
    · rw [h.pending j hj] at h1
      cases h1

/-- The compressed file is unlinked: the pending one is still there. -/
theorem FilesInv.unlinkGzip {i g : ℕ} (h : FilesInv c s₀ s) (hi : s.dir.lookup c.pending = some i)
    (hg : s.dir.lookup c.gzipFile = some g) (hof : (s.node g).gzipOf = some i) :
    FilesInv c s₀ { s with dir := s.dir.erase c.gzipFile, zip := some .exited } := by
  refine h.unlink (some .exited) s.removed trivial (fun k hk hp => ?_) h.conserved.limit
  rcases h.conserved.here k hk hp with hrem | hhas
  · exact Or.inl hrem
  · rcases hhas.erase (n := c.gzipFile) with hhas | ⟨j, hj, hcopy⟩
    · exact Or.inr hhas
    · obtain rfl := Option.some.inj (hg.symm.trans hj)
      rcases hcopy with rfl | ⟨h1, -, -⟩
      · rw [hof] at hp
        cases hp
      · obtain rfl := Option.some.inj (hof.symm.trans h1)
        exact Or.inr ⟨c.pending, i, (AList.lookup_erase_ne gzipFile_ne_pending.symm).trans hi, Or.inl rfl⟩

/-! ## The functions -/

theorem FilesInv.renameLogfile {file : FName} {ok : Bool} (h : FilesInv c s₀ s) (hz : s.zip = none)
    (hfile : file = c.pending ∨ file = c.gzipFile) (hs : s.renameLogfile c file ok = some s') :
    FilesInv c s₀ s' ∧ s'.zip = none ∧ s'.fd = s.fd := by
  unfold LogFiles.renameLogfile at hs
  split at hs
  · cases hs
  · rename_i i hi
    split at hs
    · obtain ⟨archive, harch, rfl⟩ := Option.map_eq_some_iff.1 hs
      obtain ⟨hfree, j, -, rfl, -⟩ := freeName_free harch
      refine ⟨h.rename hz hi hfree (archiveFile_ne _ _) (fun hl => ?_) (fun hp => absurd hp (archiveFile_ne_pending _ _)),
        hz, rfl⟩
      rcases hfile with hf | hf
      · exact absurd (hf.symm.trans hl) pending_ne
      · exact absurd (hf.symm.trans hl) gzipFile_ne
    · cases hs

/-- The name that is found is that of an archive, cut to 127 bytes. -/
theorem oldest_name (c : FilesConf) (s : LogFiles) (l : List FName) (oldest : FName × ℕ)
    (h : oldest.1 = [] ∨ ∃ n, c.isLog n = true ∧ oldest.1 = n.take 127) :
    (l.foldl (s.getOldestCallback c) oldest).1 = [] ∨
      ∃ n, c.isLog n = true ∧ (l.foldl (s.getOldestCallback c) oldest).1 = n.take 127 := by
  induction l generalizing oldest with
  | nil => exact h
  | cons n l ih =>
    refine ih _ ?_
    unfold LogFiles.getOldestCallback
    split
    · rename_i hlog
      exact Or.inr ⟨n, hlog.1, rfl⟩
    · exact h

/-- **The name of an archive, cut**: that of an archive still, or that of the log file. -/
theorem take_isLog {n : FName} (h : c.isLog n = true) :
    c.logname ++ [45] <+: n.take 127 ∨ c.logname.length = 127 ∧ n.take 127 = c.logname := by
  unfold FilesConf.isLog at h
  rw [Bool.and_eq_true, List.isPrefixOf_iff_prefix] at h
  obtain ⟨rest, rfl⟩ := h.1
  rcases Nat.lt_or_eq_of_le c.logname_le with hlt | hlen
  · left
    rw [List.take_append, List.take_of_length_le]
    · exact List.prefix_append _ _
    · rw [List.length_append, List.length_singleton]
      exact hlt
  · right
    rw [List.append_assoc, ← hlen, List.take_left]
    exact ⟨rfl, rfl⟩

theorem FilesInv.removeOldestlog (readdir : Readdir) (unlink : FName → Bool) (h : FilesInv c s₀ s) (hz : s.zip = none) :
    FilesInv c s₀ (s.removeOldestlog c readdir unlink) ∧ (s.removeOldestlog c readdir unlink).zip = none ∧
      (s.removeOldestlog c readdir unlink).fd = s.fd := by
  have hname := oldest_name c s (readdir.names s.dir) ([], 0) (Or.inl rfl)
  unfold LogFiles.removeOldestlog
  simp only
  split
  · exact ⟨h, hz, rfl⟩
  · rename_i i hi
    split
    · rename_i hne
      rcases hname with hno | ⟨n, hlog, hn⟩
      · exact absurd hno hne.1
      · exact ⟨h.erase hz hi (hn ▸ take_isLog hlog), hz, rfl⟩
    · exact ⟨h, hz, rfl⟩

theorem FilesInv.removeLoop {readdir : Readdir} {unlink : FName → Bool} (n : ℕ) (h : FilesInv c s₀ s) (hz : s.zip = none) :
    FilesInv c s₀ (LogFiles.removeLoop c readdir unlink n s) ∧ (LogFiles.removeLoop c readdir unlink n s).zip = none ∧
      (LogFiles.removeLoop c readdir unlink n s).fd = s.fd := by
  induction n generalizing s with
  | zero => exact ⟨h, hz, rfl⟩
  | succ n ih =>
    obtain ⟨h1, hz1, hf1⟩ := h.removeOldestlog readdir unlink hz
    obtain ⟨h2, hz2, hf2⟩ := ih h1 hz1
    exact ⟨h2, hz2, hf2.trans hf1⟩

theorem FilesInv.removeIf (readdir : Readdir) (unlink : FName → Bool) (opendir : Bool) (h : FilesInv c s₀ s)
    (hz : s.zip = none) : FilesInv c s₀ (if opendir then s.removeOldlog c readdir unlink else s) ∧
      (if opendir then s.removeOldlog c readdir unlink else s).fd = s.fd := by
  split
  · exact ⟨(h.removeLoop _ hz).1, (h.removeLoop _ hz).2.2⟩
  · exact ⟨h, rfl⟩

theorem FilesInv.makePending {ok : Bool} (h : FilesInv c s₀ s) (hz : s.zip = none) (hfd : s.fd = none)
    (hs : s.makePending c ok = some s') : FilesInv c s₀ s' ∧ s'.zip = none ∧ s'.fd = none := by
  unfold LogFiles.makePending at hs
  split at hs
  · obtain rfl := Option.some.inj hs
    exact ⟨h, hz, hfd⟩
  · rename_i hno
    split at hs
    · rename_i hlog
      obtain rfl := Option.some.inj hs
      obtain ⟨i, hi⟩ := Option.isSome_iff_exists.1 hlog.2
      exact ⟨h.rename hz hi (by simpa using hno) pending_ne (fun _ => hfd) (fun _ => (h.log i hi).1), hz, hfd⟩
    · cases hs

theorem FilesInv.archiveLog (h : FilesInv c s₀ s) (hz : s.zip = none) (hfd : s.fd = none) :
    FilesInv c s₀ (s.archiveLog c e) ∧ (s.archiveLog c e).fd = none := by
  unfold LogFiles.archiveLog
  split
  · -- without compression
    unfold LogFiles.archiveLogNocompress
    split
    · exact ⟨h, hfd⟩
    · rename_i s₁ hs₁
      obtain ⟨h1, hz1, hf1⟩ := h.makePending hz hfd hs₁
      split
      · exact ⟨h1, hf1⟩
      · rename_i s₂ hs₂
        obtain ⟨h2, hz2, hf2⟩ := h1.renameLogfile hz1 (Or.inl rfl) hs₂
        obtain ⟨h3, hf3⟩ := h2.removeIf e.readdir e.unlink e.opendir hz2
        exact ⟨h3, hf3.trans (hf2.trans hf1)⟩
  · unfold LogFiles.archiveLogCompressed
    split
    · exact ⟨h, hfd⟩
    · rename_i s₁ hs₁
      have hone : FilesInv c s₀ s₁ ∧ s₁.zip = none ∧ s₁.fd = none := by
        split at hs₁
        · obtain ⟨h1, hz1, hf1⟩ := h.renameLogfile hz (Or.inr rfl) hs₁
          exact ⟨h1, hz1, hf1.trans hfd⟩
        · obtain rfl := Option.some.inj hs₁
          exact ⟨h, hz, hfd⟩
      obtain ⟨h1, hz1, hf1⟩ := hone
      split
      · exact ⟨h1, hf1⟩
      · rename_i s₂ hs₂
        obtain ⟨h2, hz2, hf2⟩ := h1.makePending hz1 hf1 hs₂
        split
        · exact ⟨h2.idle (some .started) ⟨by decide, by decide⟩ s₂.filesize s₂.lastTry, hf2⟩
        · exact ⟨h2, hf2⟩

theorem FilesInv.rotate (h : FilesInv c s₀ s) : FilesInv c s₀ (s.rotate c e) := by
  unfold LogFiles.rotate
  split
  · rename_i hlong
    have hidle := (h.close.idle none ⟨by decide, by decide⟩ 0 s.lastTry)
    rw [← hlong.2] at hidle
    exact (hidle.archiveLog hlong.2 rfl).1
  · exact h

theorem FilesInv.reopen (h : FilesInv c s₀ s) (hs₀ : FilesStart s₀) :
    FilesInv c s₀ (s.reopen c e).1 ∧ ∀ i, (s.reopen c e).2 = some i → (s.reopen c e).1.fd = some i := by
  have hidle : ∀ filesize lastTry, FilesInv c s₀ { s with filesize := filesize, lastTry := lastTry } := fun filesize lastTry =>
    ⟨h.start, h.number, h.one, h.fresh, h.whole, h.copy, h.log, h.fd, h.same, h.pending, h.child, h.newest,
      ⟨h.conserved.here, h.conserved.bytes, h.conserved.order, h.conserved.known, h.conserved.limit⟩⟩
  unfold LogFiles.reopen
  split
  · rename_i i hi
    exact ⟨h, fun j hj => hj ▸ hi⟩
  · rename_i hfd
    split
    · exact ⟨h, fun i hi => by cases hi⟩
    · split
      · exact ⟨hidle _ _, fun i hi => by cases hi⟩
      · split
        · exact ⟨hidle _ _, fun i hi => by cases hi⟩
        · unfold LogFiles.openLog
          cases hl : s.dir.lookup c.logname with
          | some i => exact ⟨h.setFd hl _ _, fun j hj => hj⟩
          | none =>
            have hnew := h.create (x := ⟨[], e.now, none, true⟩) hs₀ hl rfl (fun _ => rfl) (Or.inl ⟨rfl, hfd, rfl⟩)
              (?_ : ChildOk c _ _ s.zip)
            · exact ⟨hnew.setFd (AList.lookup_insert _) _ _, fun j hj => hj⟩
            · exact h.child_create

/-- `_tlog_write` -/
theorem FilesInv.tlogWrite {buff : List UInt8} (h : FilesInv c s₀ s) (hs₀ : FilesStart s₀) :
    FilesInv c s₀ (s.tlogWrite c e buff).1 := by
  unfold LogFiles.tlogWrite
  split
  · exact h
  · obtain ⟨hopen, hfd⟩ := (h.rotate (e := e)).reopen (e := e) hs₀
    split
    · rename_i s' hs'
      rw [hs'] at hopen
      exact hopen
    · rename_i s' i hs'
      rw [hs'] at hopen hfd
      split
      · exact hopen.append (hfd i rfl) _ _ _
      · split
        · exact hopen.close
        · exact hopen

/-- `_tlog_wait_pid` -/
theorem FilesInv.waitPid (h : FilesInv c s₀ s) : FilesInv c s₀ (s.waitPid c e) := by
  unfold LogFiles.waitPid
  split
  · have hidle := h.idle none ⟨by decide, by decide⟩ s.filesize s.lastTry
    simp only
    split
    · exact hidle
    · rename_i s₂ hs₂
      obtain ⟨h2, hz2, -⟩ := hidle.renameLogfile rfl (Or.inr rfl) hs₂
      exact (h2.removeIf _ _ e.opendir hz2).1
  · exact h

/-- **A step of the child.** -/
theorem FilesInv.gzip {now : ℕ} (h : FilesInv c s₀ s) (hs₀ : FilesStart s₀) (hs : GzipStep c now s s') :
    FilesInv c s₀ s' := by
  have hchild := h.child
  cases hs with
  | @creates i hz hi hno =>
    refine h.create hs₀ hno rfl (fun hx => by cases hx) (Or.inr ⟨rfl, rfl, i, hi, rfl⟩) ⟨i, s.next, ?_, ?_, ?_⟩
    · rw [AList.lookup_insert_ne gzipFile_ne_pending.symm]
      exact hi
    · exact AList.lookup_insert _
    · rw [Function.update_self]
  | @writes i g bytes hz hi hg =>
    rw [hz] at hchild
    obtain ⟨i', g', hi', hg', hof⟩ := hchild
    obtain rfl := Option.some.inj (hi.symm.trans hi')
    obtain rfl := Option.some.inj (hg.symm.trans hg')
    exact h.compress hi hg hof rfl (fun hw => by cases hw) (Or.inl hz)
  | @completes i g hz hi hg =>
    rw [hz] at hchild
    obtain ⟨i', g', hi', hg', hof⟩ := hchild
    obtain rfl := Option.some.inj (hi.symm.trans hi')
    obtain rfl := Option.some.inj (hg.symm.trans hg')
    exact h.compress hi hg hof rfl (fun _ => rfl) (Or.inr ⟨rfl, rfl⟩)
  | unlinks hz =>
    rw [hz] at hchild
    obtain ⟨i, g, hi, hg, hof, hwhole⟩ := hchild
    exact h.unlinkPending hi hg hof hwhole
  | discards hz =>
    rw [hz] at hchild
    obtain ⟨i, g, hi, hg, hof⟩ := hchild
    exact h.unlinkGzip hi hg hof
  | exits => exact h.idle (some .exited) ⟨by decide, by decide⟩ s.filesize s.lastTry

/-- The child that meets no error is one. -/
theorem gzip_does : GzipDoes c (LogFiles.gzip c) := by
  intro now s s' hs
  unfold LogFiles.gzip at hs
  split at hs
  · rename_i hz hi hno
    obtain rfl := Option.some.inj hs
    exact .creates hz hi hno
  · rename_i hz hi hg
    obtain rfl := Option.some.inj hs
    exact .completes hz hi hg
  · rename_i hz
    obtain rfl := Option.some.inj hs
    exact .unlinks hz
  · cases hs
  · rename_i hz _ _
    obtain rfl := Option.some.inj hs
    exact .exits (by rw [hz]; exact Option.some_ne_none _)
  · cases hs

/-! ## Runs -/

theorem filesInv_start (h : FilesStart s) : FilesInv c s s := by
  obtain ⟨hfd, hz, hrem, hw⟩ := h.closed
  refine ⟨Nat.le_refl _, h.number, h.one, fun _ _ => rfl, fun i _ => (h.plain i).2, fun g k hg => ?_,
    fun i _ => ⟨(h.plain i).1, fun g hg => ?_⟩, fun i hi => ?_, fun i j hi _ => ?_, fun i _ => (h.plain i).1, ?_,
    fun i _ w hmem => ?_, fun k hk _ => ?_, fun k _ _ => ?_, ?_, fun w hmem => ?_, fun r hr => ?_⟩
  · rw [(h.plain g).1] at hg
    cases hg
  · rw [(h.plain g).1] at hg
    cases hg
  · rw [hfd] at hi
    cases hi
  · rw [hfd] at hi
    cases hi
  · rw [hz]
    trivial
  · rw [hw] at hmem
    cases hmem
  · obtain ⟨n, hn⟩ := h.named k hk
    exact Or.inr ⟨n, k, hn, Or.inl rfl⟩
  · rw [hw, List.filter_nil, List.flatMap_nil, List.append_nil]
  · rw [hw]
    exact List.Pairwise.nil
  · rw [hw] at hmem
    cases hmem
  · rw [hrem] at hr
    cases hr

/-- **One step** of the writer or the child. -/
theorem FilesInv.step {child : ℕ → LogFiles → Option LogFiles} {a : FilesAct} (hi : FilesInv c s₀ s) (hs₀ : FilesStart s₀)
    (hchild : GzipDoes c child) (hs : filesStep c child s a = some s') : FilesInv c s₀ s' := by
  cases a with
  | write e buff =>
    simp only [filesStep] at hs
    split at hs
    · obtain rfl := Option.some.inj hs
      exact hi.tlogWrite hs₀
    · cases hs
  | waitPid e =>
    obtain rfl := Option.some.inj hs
    exact hi.waitPid
  | gzip now => exact hi.gzip hs₀ (hchild now _ _ hs)
  | gzipDies =>
    simp only [filesStep] at hs
    split at hs
    · cases hs
    · obtain rfl := Option.some.inj hs
      exact hi.idle (some .exited) ⟨by decide, by decide⟩ s.filesize s.lastTry

/-- **Nothing is lost**: in every run of the writer and the child, which may be killed at any point, every log file is in
the directory, as it is or as a complete compressed copy, unless it or that copy has been removed by the limit, which
removes names of archives only, but with a log name of 127 bytes that of the log file; a file holds exactly the bytes
written to it, behind those that it had; and the log files are written one after the other. -/
theorem logs_conserved {child : ℕ → LogFiles → Option LogFiles} (hchild : GzipDoes c child) (hs₀ : FilesStart s₀)
    (h : Reach (filesStep c child) Any s₀ s) : Conserved c s₀ s :=
  (h.inv (I := FilesInv c s₀) (filesInv_start hs₀) fun _ _ _ hi _ hs => hi.step hs₀ hchild hs).conserved

/-- The demo log: files of more than 4 bytes are archived, two archives are kept. -/
def demoFiles : FilesConf := ⟨[108], by decide, 4, 2, false, fun t => [48 + UInt8.ofNat t]⟩

/-- `readdir` in the order of the directory. -/
def demoReaddir : Readdir := ⟨fun d => d.keys, fun _ => List.Perm.refl _⟩

/-- All calls succeed at time `now`, and `n` bytes are written. -/
def demoFilesEnv (now n : ℕ) : FilesEnv :=
  ⟨now, true, true, true, true, true, demoReaddir, fun _ => true, true, true, n, false⟩

/-- An empty directory. -/
def emptyLogFiles : LogFiles := ⟨∅, fun _ => ⟨[], 0, none, true⟩, 0, none, 0, none, 0, [], []⟩

theorem emptyLogFiles_start : FilesStart emptyLogFiles := by
  refine ⟨fun i hi => ?_, fun n i hn => ?_, fun m n i hm _ => ?_, fun _ => ⟨rfl, rfl⟩, fun _ _ => rfl, rfl, rfl, rfl, rfl⟩
  · exact absurd hi (Nat.not_lt_zero i)
  · rw [show emptyLogFiles.dir = ∅ from rfl, AList.lookup_empty] at hn
    cases hn
  · rw [show emptyLogFiles.dir = ∅ from rfl, AList.lookup_empty] at hm
    cases hm

/-- The first child completes its work; the second dies while it is writing. -/
def filesDemo : List FilesAct :=
  [.write (demoFilesEnv 1 3) [97, 98, 99], .write (demoFilesEnv 2 3) [100, 101, 102], .write (demoFilesEnv 3 5) [1, 2, 3, 4, 5],
    .gzip 3, .gzip 3, .gzip 3, .waitPid (demoFilesEnv 4 0), .write (demoFilesEnv 5 2) [6, 7], .gzip 5, .gzipDies,
    .waitPid (demoFilesEnv 6 0)]

theorem filesDemo_runs : (run (filesStep demoFiles (LogFiles.gzip demoFiles)) emptyLogFiles filesDemo).isSome := by
  decide +kernel

def filesDemoEnd : LogFiles := runTo filesDemo_runs

theorem logs_conserved_demo :
    filesDemoEnd.wrote.map Prod.fst = [0, 0, 1, 3] ∧ filesDemoEnd.dir.keys.length = 4 ∧
      Conserved demoFiles emptyLogFiles filesDemoEnd :=
  ⟨by decide +kernel, by decide +kernel,
    logs_conserved gzip_does emptyLogFiles_start (reach_runTo filesDemo_runs)⟩

end HookKernel
