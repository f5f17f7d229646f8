import Mathlib.Algebra.Order.BigOperators.Group.Finset
import HookKernel.Proof.CacheCalls
import HookKernel.Proof.Complete

/-!
# How much the cache holds

`max_fcnt` files of `max_fsize` bytes each. The files opened since the last hand-over
of a name list are noted along the run, those whose name was taken back included.

* `sum_le_used`: files in use, counted without the open one, bound the bytes.
* `BoundInv`: `file_count` covers the files that hold bytes.
* `cache_bounded`: the bounds, as long as no write puts more than `max_fsize` bytes into
  a new file or opens a file that holds bytes, and no file with bytes is taken back.
* `cache_overflows`: a run of short messages that exceeds the bound.
-/

namespace HookKernel

open Lib Finset

variable {c : Configure} {quit : Bool} {r r' : Rcv} {fs fs' : Disk} {a : RAct}

/-! ## Files in use -/

section Used

variable {h h' : ℕ → ℕ} {cur : Option ℕ} {since : Finset ℕ} {i bound : ℕ}

/-- The files that hold bytes, without the open one. -/
def used (h : ℕ → ℕ) (cur : Option ℕ) (since : Finset ℕ) : ℕ := {i ∈ since | h i ≠ 0 ∧ cur ≠ some i}.card

/-- Whether a file is open. -/
def opens (cur : Option ℕ) : ℕ := if cur.isSome then 1 else 0

theorem used_mono {since' : Finset ℕ} (hsub : since' ⊆ since) : used h cur since' ≤ used h cur since :=
  card_le_card (filter_subset_filter _ hsub)

/-- Closing the open file may leave one more file in use. -/
theorem used_close : used h none since ≤ used h cur since + opens cur := by
  unfold used opens
  cases cur with
  | none => simp
  | some j =>
    have hsub : {i ∈ since | h i ≠ 0 ∧ none ≠ some i} ⊆ insert j {i ∈ since | h i ≠ 0 ∧ some j ≠ some i} := by
      intro i hi
      obtain ⟨h1, h2, -⟩ := mem_filter.1 hi
      rcases eq_or_ne j i with rfl | hne
      · exact mem_insert_self _ _
      · exact mem_insert_of_mem (mem_filter.2 ⟨h1, h2, by simpa using hne⟩)
    calc {i ∈ since | h i ≠ 0 ∧ none ≠ some i}.card
        ≤ (insert j {i ∈ since | h i ≠ 0 ∧ some j ≠ some i}).card := card_le_card hsub
      _ ≤ {i ∈ since | h i ≠ 0 ∧ some j ≠ some i}.card + 1 := card_insert_le _ _

/-- Closing an empty file leaves none more. -/
theorem used_close_empty (hcur : cur = some i) (h0 : h i = 0) : used h none since ≤ used h cur since := by
  refine card_le_card fun j hj => ?_
  obtain ⟨h1, h2, -⟩ := mem_filter.1 hj
  refine mem_filter.2 ⟨h1, h2, ?_⟩
  rw [hcur]
  rintro ⟨⟩
  exact h2 h0

/-- The open file may change, and may be a new one. -/
theorem used_open {since' : Finset ℕ} (hother : ∀ j, j ≠ i → h' j = h j) (hsub : since' ⊆ insert i since)
    (hcur : cur = none ∨ cur = some i) : used h' (some i) since' ≤ used h cur since := by
  refine card_le_card fun j hj => ?_
  obtain ⟨h1, h2, h3⟩ := mem_filter.1 hj
  have hne : j ≠ i := by
    rintro rfl
    exact h3 rfl
  rw [hother j hne] at h2
  refine mem_filter.2 ⟨mem_of_mem_insert_of_ne (hsub h1) hne, h2, ?_⟩
  rcases hcur with rfl | rfl
  · simp
  · exact h3

/-- **The bytes are bounded by the files in use.** -/
theorem sum_le_used (hle : ∀ i ∈ since, h i ≤ bound) : ∑ i ∈ since, h i ≤ (used h cur since + opens cur) * bound := by
  have hclosed : ∑ i ∈ since, h i ≤ used h none since * bound := by
    unfold used
    rw [← sum_const_nat (f := fun _ => bound) fun _ _ => rfl, sum_filter]
    refine sum_le_sum fun i hi => ?_
    by_cases h0 : h i = 0
    · rw [h0]
      exact Nat.zero_le _
    · rw [if_pos ⟨h0, by simp⟩]
      exact hle i hi
  exact hclosed.trans (Nat.mul_le_mul_right _ used_close)

end Used

/-! ## Runs with their files -/

/-- The files that the receiver opened: all of them, and those since the last hand-over. -/
structure CacheFiles where
  opened : Finset ℕ
  since : Finset ℕ

/-- The file that a step opened, if it created one. -/
def createdFile (r r' : Rcv) : Finset ℕ :=
  if r'.created = r.created then ∅ else (r'.info.currFp.map Stream.ino).toFinset

/-- A successful push of the name list hands the files over. -/
def noteFiles (s : RSys) (a : RSysAct) (s' : RSys) (g : CacheFiles) : CacheFiles where
  opened := g.opened ∪ createdFile s.rcv s'.rcv
  since := if s.rcv.pc = .namesPush ∧ a = .rcv (.push true) then ∅ else g.since ∪ createdFile s.rcv s'.rcv

/-- The bytes in a file, those in the stream included. -/
def bytesIn (info : DatafileInfo) (fs : Disk) (i : ℕ) : ℕ := (settled fs info.currFp i).length

/-- **The bounds**: each file, and all files since the last hand-over. -/
structure CacheBounded (s : RSys) (g : CacheFiles) : Prop where
  file : ∀ i ∈ g.opened, (bytesIn s.rcv.info s.fs i : ℤ) ≤ s.rcv.info.maxFsize
  total : (∑ i ∈ g.since, bytesIn s.rcv.info s.fs i : ℕ) ≤ s.rcv.info.maxFcnt * s.rcv.info.maxFsize

/-- The bytes that an `fwrite` of the message puts into the stream. -/
def WriteEnv.put (e : WriteEnv) (m : Message) : List Cell :=
  match e.fwrite with
  | none => m.bytes
  | some k => m.bytes.take k

/-- A write puts at most `max_fsize` bytes into a new file, a file that is opened holds no
bytes, and only a file without bytes is taken back. -/
def BoundSafe (c : Configure) (s : RSys) : RSysAct → Prop
  | .rcv (.write e) => ∀ m ∈ s.rcv.msg, ∀ n ∈ s.rcv.opens c e,
      ((e.put m).length : ℤ) ≤ s.rcv.info.maxFsize ∧ ∀ i ∈ s.fs.dir n, bytesIn s.rcv.info s.fs i = 0
  | .rcv .tau => s.rcv.pc = .drop → ∀ fp ∈ s.rcv.info.currFp, bytesIn s.rcv.info s.fs fp.ino = 0
  | _ => True

instance (c : Configure) (s : RSys) : (a : RSysAct) → Decidable (BoundSafe c s a)
  | .rcv (.write e) => inferInstanceAs (Decidable (∀ m ∈ s.rcv.msg, ∀ n ∈ s.rcv.opens c e,
      ((e.put m).length : ℤ) ≤ s.rcv.info.maxFsize ∧ ∀ i ∈ s.fs.dir n, bytesIn s.rcv.info s.fs i = 0))
  | .rcv .tau => inferInstanceAs (Decidable (s.rcv.pc = .drop → ∀ fp ∈ s.rcv.info.currFp,
      bytesIn s.rcv.info s.fs fp.ino = 0))
  | .rcv (.select _) | .rcv (.push _) | .rcv (.recv _) | .rcv (.flush _) | .notify => isTrue trivial

/-! ## The invariant -/

/-- The node of the open file. -/
def DatafileInfo.curr (info : DatafileInfo) : Option ℕ := info.currFp.map Stream.ino

/-- **`file_count` covers the files that hold bytes**, and `curr_fsize` what the open one holds. -/
structure BoundInv (dir : CStr) (r : Rcv) (fs : Disk) (g : CacheFiles) : Prop where
  base : RInv r
  counts : ∃ appended left, CacheInv dir ⟨r.info, fs, appended, left⟩
  stream : StreamOK r.info fs
  fsize : 0 ≤ r.info.maxFsize
  sub : g.since ⊆ g.opened
  file : ∀ i ∈ g.opened, (bytesIn r.info fs i : ℤ) ≤ r.info.maxFsize
  curr : r.pc ≠ .drop → ∀ i, r.info.curr = some i → (bytesIn r.info fs i : ℤ) ≤ r.info.currFsize
  count : (used (bytesIn r.info fs) r.info.curr g.since + opens r.info.curr : ℕ) ≤ r.info.fileCount
  gone : r.pc = .detach → g.since = ∅

variable {dir : CStr} {g : CacheFiles} {m : Message} {e : WriteEnv} {w : WriteRes}

theorem boundInv_init (c : Configure) (fs : Disk) (h1 : 1 ≤ c.maxFcnt) (h2 : 0 ≤ c.maxFsize) :
    BoundInv c.path (Rcv.init c) fs ⟨∅, ∅⟩ where
  base := rinv_init c
  counts := ⟨[], [], cacheInv_init c.path c.maxFsize h1 fs⟩
  stream := by intro fp hfp; cases hfp
  fsize := by
    show 0 ≤ if c.maxFsize > 1024 * 1024 * 2 then 1024 * 1024 * 2 else c.maxFsize
    split <;> omega
  sub := subset_rfl
  file := by intro i hi; cases hi
  curr := by intro _ i hi; cases hi
  count := by simp [used, opens, DatafileInfo.curr, Rcv.init, datafileInit]
  gone := by intro _; rfl

/-- **The invariant gives the bounds.** -/
theorem BoundInv.bounded {s : RSys} (h : BoundInv dir s.rcv s.fs g) : CacheBounded s g := by
  refine ⟨h.file, ?_⟩
  obtain ⟨_, _, hinv⟩ := h.counts
  have hfull : s.rcv.info.fileCount ≤ s.rcv.info.maxFcnt := hinv.full.1
  have hsize := h.fsize
  have hcount := h.count
  obtain ⟨bound, hbound⟩ := Int.eq_ofNat_of_zero_le hsize
  have hle : ∀ i ∈ g.since, bytesIn s.rcv.info s.fs i ≤ bound := by
    intro i hi
    have := h.file i (h.sub hi)
    omega
  have hsum : ∑ i ∈ g.since, bytesIn s.rcv.info s.fs i ≤
      (used (bytesIn s.rcv.info s.fs) s.rcv.info.curr g.since + opens s.rcv.info.curr) * bound := sum_le_used hle
  rw [hbound]
  calc ((∑ i ∈ g.since, bytesIn s.rcv.info s.fs i : ℕ) : ℤ)
      ≤ ((used (bytesIn s.rcv.info s.fs) s.rcv.info.curr g.since + opens s.rcv.info.curr) * bound : ℕ) := by
        exact_mod_cast hsum
    _ = ((used (bytesIn s.rcv.info s.fs) s.rcv.info.curr g.since + opens s.rcv.info.curr : ℕ) : ℤ) * bound := by
        push_cast
        rfl
    _ ≤ s.rcv.info.maxFcnt * bound := Int.mul_le_mul_of_nonneg_right (by omega) (by omega)

/-! ## Steps -/

/-- Neither the cache nor the files change. -/
theorem BoundInv.move (h : BoundInv dir r fs g) (hb : RInv r') (hpc : r.pc ≠ .drop) (hinfo : r'.info = r.info)
    {g' : CacheFiles} (hopened : g'.opened = g.opened) (hsince : g'.since ⊆ g.since)
    (hgone : r'.pc = .detach → g'.since = ∅) : BoundInv dir r' fs g' := by
  refine ⟨hb, ?_, ?_, ?_, ?_, ?_, fun _ => ?_, ?_, hgone⟩
  · rw [hinfo]
    exact h.counts
  · rw [hinfo]
    exact h.stream
  · rw [hinfo]
    exact h.fsize
  · rw [hopened]
    exact hsince.trans h.sub
  · rw [hopened, hinfo]
    exact h.file
  · rw [hinfo]
    exact h.curr hpc
  · rw [hinfo]
    have h1 := h.count
    have h2 : used (bytesIn r.info fs) r.info.curr g'.since ≤ used (bytesIn r.info fs) r.info.curr g.since :=
      used_mono hsince
    omega

theorem createdFile_same (h : r'.created = r.created) : createdFile r r' = ∅ := by
  unfold createdFile
  rw [if_pos h]

/-- A write puts into the stream what `fwrite` takes. -/
theorem Wrote.put (h : Wrote c.localtime r.info fs m r.fresh e w) : w.wrote = [] ∨ w.wrote = e.put m := by
  have put : ∀ (info : DatafileInfo) (fp : Stream Cell) (fs : Disk) (o : Option Name),
      (writeCurr info fp fs m e.fwrite o).wrote = e.put m := by
    intro info fp fs o
    unfold writeCurr WriteEnv.put
    cases e.fwrite <;> rfl
  cases h with
  | full _ _ | noFile _ _ _ => exact Or.inl rfl
  | same _ _ | new _ _ _ _ _ _ => exact Or.inr (put _ _ _ _)

theorem put_length_le (hlen : 0 ≤ m.len) : ((e.put m).length : ℤ) ≤ m.len := by
  have h1 : (m.bytes.length : ℤ) ≤ m.len := by
    unfold Message.bytes
    rw [List.length_take]
    omega
  unfold WriteEnv.put
  split
  · exact h1
  · rw [List.length_take]
    omega

theorem writeCurr_currFsize {info : DatafileInfo} {fp : Stream Cell} {fwrite : Option ℕ} {o : Option Name}
    (h : (writeCurr info fp fs m fwrite o).ok = true) :
    (writeCurr info fp fs m fwrite o).info.currFsize = info.currFsize + m.len := by
  cases fwrite with
  | none => rfl
  | some k => cases h

/-- The bytes in the files after a write. -/
theorem Wrote.bytesIn (h : Wrote c.localtime r.info fs m r.fresh e w) (ho : StreamOK r.info fs) (i : ℕ) :
    bytesIn w.info w.fs i = bytesIn r.info fs i + if w.info.curr = some i then w.wrote.length else 0 := by
  unfold HookKernel.bytesIn DatafileInfo.curr
  rw [h.settled ho, List.length_append]
  split <;> rfl

/-- A write does not change `max_fsize`. -/
theorem Wrote.maxFsize (h : Wrote c.localtime r.info fs m r.fresh e w) : w.info.maxFsize = r.info.maxFsize := by
  obtain ⟨-, -, hrot, -⟩ := rotate_fields r.info fs m
  cases h with
  | full _ _ => rfl
  | same _ _ => exact writeCurr_maxFsize _ _ _ _ _ _
  | noFile _ _ _ => exact hrot
  | new _ _ _ hinfo _ _ =>
    rw [writeCurr_maxFsize, hinfo]
    exact hrot

/-- Nothing is in a file that does not exist yet. -/
theorem bytesIn_next (ho : StreamOK r.info fs) : bytesIn r.info fs fs.next = 0 := by
  unfold bytesIn settled
  rw [fs.unused _ le_rfl, List.nil_append, List.length_eq_zero_iff]
  cases hfp : r.info.currFp with
  | none => rfl
  | some fp =>
    have hlt := ho fp hfp
    simp only
    rw [if_neg (by omega)]

/-- **What is to be shown after a write**: the bounds of the files, of the open one, and the
count. The rest holds after every write. -/
theorem BoundInv.after (h : BoundInv dir r fs g) (hw : Wrote c.localtime r.info fs m r.fresh e w)
    (hb : RInv r') (hinfo : r'.info = w.info) (hpc' : r'.pc ≠ .detach) {g' : CacheFiles} (hsub : g'.since ⊆ g'.opened)
    (hfile : ∀ i ∈ g'.opened, (bytesIn w.info w.fs i : ℤ) ≤ r.info.maxFsize)
    (hcurr : r'.pc ≠ .drop → ∀ i, w.info.curr = some i → (bytesIn w.info w.fs i : ℤ) ≤ w.info.currFsize)
    (hcount : (used (bytesIn w.info w.fs) w.info.curr g'.since + opens w.info.curr : ℕ) ≤ w.info.fileCount) :
    BoundInv dir r' w.fs g' := by
  obtain ⟨_, _, hinv⟩ := h.counts
  have hstream := (hw.files h.stream hinfo).streamOK h.stream
  refine ⟨hb, ?_, hstream, ?_, hsub, ?_, ?_, ?_, fun hd => absurd hd hpc'⟩
  · rw [hinfo]
    exact ⟨_, _, hinv.wrote hw⟩
  · rw [hinfo, hw.maxFsize]
    exact h.fsize
  · rw [hinfo, hw.maxFsize]
    exact hfile
  · rw [hinfo]
    exact hcurr
  · rw [hinfo]
    exact hcount

/-- A write into the open file, which has room for it. -/
theorem BoundInv.writeSame (h : BoundInv dir r fs g) (hpc : r.pc ≠ .drop) (hw : Wrote c.localtime r.info fs m r.fresh e w)
    (hb : RInv r') (hinfo : r'.info = w.info) (hpc' : r'.pc ≠ .detach) {i : ℕ} (hcur : r.info.curr = some i)
    (hcur' : w.info.curr = some i) (hcnt : w.info.fileCount = r.info.fileCount) (hwrote : (w.wrote.length : ℤ) ≤ m.len)
    (hroom : r.info.currFsize + m.len ≤ r.info.maxFsize)
    (hsize : r'.pc ≠ .drop → w.info.currFsize = r.info.currFsize + m.len) : BoundInv dir r' w.fs g := by
  have hbytes := hw.bytesIn h.stream
  have hopen := h.curr hpc i hcur
  refine h.after hw hb hinfo hpc' h.sub ?_ ?_ ?_
  · intro j hj
    have hj' := h.file j hj
    rw [hbytes, hcur']
    split
    · rename_i heq
      obtain rfl := Option.some.inj heq
      push_cast
      omega
    · omega
  · intro hne j hj
    rw [hcur', Option.some.injEq] at hj
    rw [hbytes, hcur', ← hj, if_pos rfl, hsize hne]
    push_cast
    omega
  · -- only the open file has changed, and it was not counted
    have hused : used (bytesIn w.info w.fs) (some i) g.since ≤ used (bytesIn r.info fs) r.info.curr g.since := by
      refine used_open (fun j hj => ?_) (subset_insert _ _) (Or.inr hcur)
      rw [hbytes, hcur', if_neg (by simpa using hj.symm)]
      rfl
    have hcount := h.count
    rw [hcur] at hused hcount
    rw [hcur', hcnt]
    omega

/-- A write that closes the open file and opens none. -/
theorem BoundInv.writeNone (h : BoundInv dir r fs g) (hw : Wrote c.localtime r.info fs m r.fresh e w)
    (hb : RInv r') (hinfo : r'.info = w.info) (hpc' : r'.pc ≠ .detach) (hcur' : w.info.curr = none)
    (hcnt : w.info.fileCount = r.info.fileCount) : BoundInv dir r' w.fs g := by
  have hsame : bytesIn w.info w.fs = bytesIn r.info fs := by
    funext i
    rw [hw.bytesIn h.stream, hcur', if_neg (by simp)]
    rfl
  refine h.after hw hb hinfo hpc' h.sub ?_ ?_ ?_
  · rw [hsame]
    exact h.file
  · intro _ i hi
    rw [hcur'] at hi
    cases hi
  · have hclose : used (bytesIn r.info fs) none g.since ≤ used (bytesIn r.info fs) r.info.curr g.since + opens r.info.curr :=
      used_close
    have hnone : opens none = 0 := rfl
    have hcount := h.count
    rw [hcur', hcnt, hsame]
    omega

/-- A write into a file that it opens and that holds nothing yet. -/
theorem BoundInv.writeNew (h : BoundInv dir r fs g) (hw : Wrote c.localtime r.info fs m r.fresh e w)
    (hb : RInv r') (hinfo : r'.info = w.info) (hpc' : r'.pc ≠ .detach) {i : ℕ} (hcur' : w.info.curr = some i)
    (hempty : bytesIn r.info fs i = 0) (hcnt : w.info.fileCount = r.info.fileCount + 1)
    (hwrote : (w.wrote.length : ℤ) ≤ m.len) (hsmall : (w.wrote.length : ℤ) ≤ r.info.maxFsize)
    (hsize : r'.pc ≠ .drop → w.info.currFsize = m.len) : BoundInv dir r' w.fs ⟨g.opened ∪ {i}, g.since ∪ {i}⟩ := by
  have hbytes := hw.bytesIn h.stream
  refine h.after hw hb hinfo hpc' (union_subset_union_left h.sub) ?_ ?_ ?_
  · intro j hj
    rw [hbytes, hcur']
    by_cases hij : i = j
    · rw [if_pos (by rw [hij]), ← hij, hempty]
      push_cast
      omega
    · have hmem : j ∈ g.opened := by
        rcases mem_union.1 hj with hj | hj
        · exact hj
        · exact absurd (mem_singleton.1 hj).symm hij
      have hj' := h.file j hmem
      rw [if_neg (by simpa using hij)]
      omega
  · intro hne j hj
    rw [hcur', Option.some.injEq] at hj
    rw [hbytes, hcur', ← hj, if_pos rfl, hsize hne, hempty]
    push_cast
    omega
  · -- the file that was open is counted from now on, the new one is not
    have hused : used (bytesIn w.info w.fs) (some i) (g.since ∪ {i}) ≤ used (bytesIn r.info fs) none g.since := by
      refine used_open (fun j hj => ?_) (by rw [union_comm]; rfl) (Or.inl rfl)
      rw [hbytes, hcur', if_neg (by simpa using hj.symm)]
      rfl
    have hclose : used (bytesIn r.info fs) none g.since ≤ used (bytesIn r.info fs) r.info.curr g.since + opens r.info.curr :=
      used_close
    have hone : opens (some i) = 1 := rfl
    have hcount := h.count
    rw [hcur', hcnt]
    simp only
    omega

/-- The node that `writeCurr` writes to stays open. -/
theorem writeCurr_curr (info : DatafileInfo) (fp : Stream Cell) (fs : Disk) (m : Message)
    (fwrite : Option ℕ) (o : Option Name) : (writeCurr info fp fs m fwrite o).info.curr = some fp.ino := by
  unfold DatafileInfo.curr
  rw [writeCurr_currFp]
  rfl

/-- **A write keeps the bounds**, if it does not put too much into a new file, and opens no
file that holds bytes. -/
theorem BoundInv.wrote (h : BoundInv dir r fs g) (hpc : r.pc = .write) (hm : r.msg = some m)
    (hw : Wrote c.localtime r.info fs m r.fresh e w)
    (hsafe : ∀ n, w.opened = some n → ((e.put m).length : ℤ) ≤ r.info.maxFsize ∧
      ∀ i, fs.dir n = some i → bytesIn r.info fs i = 0)
    (hb : RInv r') (hinfo : r'.info = w.info) (hcreated : r'.created = r.created ++ w.opened.toList)
    (hpc' : r'.pc ≠ .detach) (hok : w.ok = true ∨ r'.pc = .drop) :
    BoundInv dir r' w.fs ⟨g.opened ∪ createdFile r r', g.since ∪ createdFile r r'⟩ := by
  have hput := put_length_le (e := e) (h.base.flow.bounds m hm).1
  have hwrote : (w.wrote.length : ℤ) ≤ (e.put m).length := by
    rcases hw.put with h0 | h0
    · rw [h0, List.length_nil]
      omega
    · rw [h0]
  have hdrop : r.pc ≠ .drop := by rw [hpc]; decide
  have hold : w.opened = none → createdFile r r' = ∅ := by
    intro hnone
    exact createdFile_same (by rw [hcreated, hnone]; exact List.append_nil _)
  have hw' := hw
  cases hw with
  | full _ _ =>
    rw [hold rfl, union_empty, union_empty]
    exact h.move hb hdrop hinfo rfl subset_rfl fun hd => absurd hd hpc'
  | @same fp hover hfp =>
    have hcur : r.info.curr = some fp.ino := by
      unfold DatafileInfo.curr
      rw [hfp]
      rfl
    have hroom : r.info.currFsize + m.len ≤ r.info.maxFsize := by
      unfold DatafileInfo.over at hover
      simp only [decide_eq_false_iff_not] at hover
      omega
    rw [hold (writeCurr_opened _ _ _ _ _ _), union_empty, union_empty]
    exact h.writeSame hdrop hw' hb hinfo hpc' hcur (writeCurr_curr _ _ _ _ _ _) (writeCurr_fileCount _ _ _ _ _ _)
      (hwrote.trans hput) hroom fun hne => writeCurr_currFsize (hok.resolve_right hne)
  | noFile hclosed _ _ =>
    obtain ⟨-, -, -, hcnt, -⟩ := rotate_fields r.info fs m
    rw [hold rfl, union_empty, union_empty]
    exact h.writeNone hw' hb hinfo hpc' rfl hcnt
  | @new buf names info' hclosed _ hbuf hinfo' happ _ =>
    obtain ⟨hdir, hnext⟩ := rotate_dir r.info fs m
    obtain ⟨hino, hino'⟩ := fopen_ino (r.info.rotate fs m).2 (cstr (· == 0) buf)
    rw [hdir] at hino hino'
    rw [hnext] at hino'
    have hcnt : info'.fileCount = r.info.fileCount + 1 := by rw [hinfo']
    have hzero : info'.currFsize = 0 := by rw [hinfo']
    set fp := ((r.info.rotate fs m).2.fopen (cstr (· == 0) buf)).2
    set n := cstr (· == 0) buf
    obtain ⟨hsmall, hempty⟩ := hsafe n (writeCurr_opened _ _ _ _ _ _)
    -- the file that was opened is new, or holds nothing yet
    have h0 : bytesIn r.info fs fp.ino = 0 := by
      cases hd : fs.dir n with
      | none =>
        rw [hino' hd]
        exact bytesIn_next h.stream
      | some i =>
        rw [hino i hd]
        exact hempty i hd
    have hnew : createdFile r r' = {fp.ino} := by
      unfold createdFile
      rw [if_neg (by rw [hcreated, writeCurr_opened]; simp), hinfo, writeCurr_currFp]
      rfl
    rw [hnew]
    refine h.writeNew hw' hb hinfo hpc' (writeCurr_curr _ _ _ _ _ _) h0 ?_ (hwrote.trans hput) (hwrote.trans hsmall) ?_
    · rw [writeCurr_fileCount]
      exact hcnt
    · intro hne
      have hsum : info'.currFsize + m.len = m.len := by omega
      exact (writeCurr_currFsize (hok.resolve_right hne)).trans hsum

/-- **Taking a file back** keeps the bounds if it holds nothing. -/
theorem BoundInv.drop (h : BoundInv dir r fs g) {info' : DatafileInfo}
    (hreset : datafileResetCurrfile r.info fs = some (info', fs'))
    (hempty : ∀ fp, r.info.currFp = some fp → bytesIn r.info fs fp.ino = 0) (hb : RInv r') (hinfo : r'.info = info')
    (hpc' : r'.pc ≠ .detach) : BoundInv dir r' fs' g := by
  obtain ⟨-, hclosed, -⟩ := reset_dinv h.base.data hreset
  have hfs := (reset_files hreset).2
  have hcounts : ∃ appended left, CacheInv dir ⟨info', fs', appended, left⟩ := by
    obtain ⟨_, _, hinv⟩ := h.counts
    exact ⟨_, _, hinv.reset hreset⟩
  have hsame : bytesIn info' fs' = bytesIn r.info fs := by
    funext i
    unfold bytesIn
    rw [hclosed, hfs, (close_settled h.stream).1]
  have hcur' : info'.curr = none := by
    unfold DatafileInfo.curr
    rw [hclosed]
    rfl
  have hcount := h.count
  have hmax : info'.maxFsize = r.info.maxFsize := by
    obtain ⟨-, rfl⟩ | ⟨fp, names, -, -, rfl⟩ := reset_cases h.base.data hreset <;> rfl
  have hcnt : (used (bytesIn r.info fs) none g.since : ℤ) ≤ info'.fileCount := by
    obtain ⟨hfp, rfl⟩ | ⟨fp, names, hfp, hnames, rfl⟩ := reset_cases h.base.data hreset
    · have hcur : r.info.curr = none := by
        unfold DatafileInfo.curr
        rw [hfp]
        rfl
      rw [hcur] at hcount
      have h9 : opens none = 0 := rfl
      simp only [closeDatafile]
      omega
    · have hcur : r.info.curr = some fp.ino := by
        unfold DatafileInfo.curr
        rw [hfp]
        rfl
      have h8 : used (bytesIn r.info fs) none g.since ≤ used (bytesIn r.info fs) r.info.curr g.since :=
        used_close_empty hcur (hempty fp hfp)
      have h9 : opens r.info.curr = 1 := by rw [hcur]; rfl
      simp only [closeDatafile]
      split <;> omega
  refine ⟨hb, by rw [hinfo]; exact hcounts, ?_, by rw [hinfo, hmax]; exact h.fsize, h.sub, ?_, fun _ i hi => ?_, ?_,
    fun hd => absurd hd hpc'⟩
  · intro fp hfp
    rw [hinfo, hclosed] at hfp
    cases hfp
  · rw [hinfo, hsame, hmax]
    exact h.file
  · rw [hinfo, hcur'] at hi
    cases hi
  · rw [hinfo, hcur', hsame]
    have h9 : opens none = 0 := rfl
    omega

/-- **Handing over** starts again without files. -/
theorem BoundInv.detach (h : BoundInv dir r fs g) (hpc : r.pc = .detach) (hb : RInv r')
    (hinfo : r'.info = (datafileDetachNamemsg r.info fs).1) (hpc' : r'.pc ≠ .detach) :
    BoundInv dir r' (datafileDetachNamemsg r.info fs).2 g := by
  have hsame : bytesIn (datafileDetachNamemsg r.info fs).1 (datafileDetachNamemsg r.info fs).2 = bytesIn r.info fs := by
    funext i
    exact congrArg List.length (close_settled (i := i) h.stream).1
  obtain ⟨_, _, hinv⟩ := h.counts
  refine ⟨hb, ?_, ?_, by rw [hinfo]; exact h.fsize, h.sub, ?_, fun _ i hi => ?_, ?_, fun hd => absurd hd hpc'⟩
  · rw [hinfo]
    exact ⟨_, _, hinv.detach⟩
  · intro fp hfp
    rw [hinfo] at hfp
    cases hfp
  · rw [hinfo, hsame]
    exact h.file
  · rw [hinfo] at hi
    cases hi
  · rw [hinfo, hsame, h.gone hpc]
    exact le_rfl

/-- Letting buffered bytes reach the disk moves nothing. -/
theorem BoundInv.flushed (h : BoundInv dir r fs g) {fp : Stream Cell} (hfp : r.info.currFp = some fp) (k : ℕ)
    (hb : RInv { r with info := { r.info with currFp := some (fp.flush fs k).2 } }) :
    BoundInv dir { r with info := { r.info with currFp := some (fp.flush fs k).2 } } (fp.flush fs k).1 g := by
  have hsame : bytesIn { r.info with currFp := some (fp.flush fs k).2 } (fp.flush fs k).1 = bytesIn r.info fs := by
    funext i
    unfold bytesIn
    rw [hfp]
    exact congrArg List.length (settled_flush (h.stream fp hfp) k)
  have hcur : ({ r.info with currFp := some (fp.flush fs k).2 } : DatafileInfo).curr = r.info.curr := by
    unfold DatafileInfo.curr
    rw [hfp]
    rfl
  obtain ⟨appended, left, hinv⟩ := h.counts
  refine ⟨hb, ⟨appended, left, ?_⟩, ?_, h.fsize, h.sub, ?_, ?_, ?_, h.gone⟩
  · refine ⟨⟨hb.data, hinv.listed, hinv.stale⟩, hinv.toCountInv.congr rfl rfl rfl rfl rfl fun _ => rfl⟩
  · intro fp' hfp'
    obtain rfl := Option.some.inj hfp'
    exact h.stream fp hfp
  · simp only [hsame]
    exact h.file
  · simp only [hsame, hcur]
    exact h.curr
  · simp only [hsame, hcur]
    exact h.count

/-! ## Runs -/

theorem noteFiles_same {s s' : RSys} {a : RSysAct} (h : s'.rcv.created = s.rcv.created) :
    (noteFiles s a s' g).opened = g.opened ∧ (noteFiles s a s' g).since ⊆ g.since := by
  unfold noteFiles
  simp only [createdFile_same h, union_empty]
  refine ⟨trivial, ?_⟩
  split
  · exact empty_subset _
  · exact subset_rfl

theorem noteFiles_quiet {s s' : RSys} {a : RSysAct} (h : s'.rcv.created = s.rcv.created) (ha : a ≠ .rcv (.push true)) :
    noteFiles s a s' g = g := by
  unfold noteFiles
  rw [createdFile_same h, union_empty, union_empty, if_neg fun h' => ha h'.2]

theorem noteFiles_of_ne {s s' : RSys} {a : RSysAct} (h : s.rcv.pc ≠ .namesPush) :
    noteFiles s a s' g = ⟨g.opened ∪ createdFile s.rcv s'.rcv, g.since ∪ createdFile s.rcv s'.rcv⟩ := by
  unfold noteFiles
  rw [if_neg fun h' => h h'.1]

/-- **Every safe step keeps the invariant.** -/
theorem BoundInv.step {s s' : RSys × CacheFiles} {a : RSysAct} (h : BoundInv dir s.1.rcv s.1.fs s.2)
    (hc : BoundSafe c s.1 a) (hs : watch (RSys.step c) noteFiles s a = some s') :
    BoundInv dir s'.1.rcv s'.1.fs s'.2 := by
  obtain ⟨s, g⟩ := s
  obtain ⟨s₁, hstep, rfl⟩ := Option.map_eq_some_iff.1 hs
  cases a with
  | notify =>
    obtain rfl := Option.some.inj hstep
    have hnote : noteFiles s .notify { s with quit := s.quit + 1 } g = g := noteFiles_quiet rfl (by simp)
    simp only [hnote]
    exact h
  | rcv a =>
    obtain ⟨hr, -⟩ := rsys_step_rcv hstep
    have hb := hr.inv h.base
    have hd := h.base.data
    simp only at h hr hb hd hc ⊢
    generalize hr₁ : s₁.rcv = r₁ at hr hb
    generalize s₁.fs = fs₁ at hr
    have move : s.rcv.pc ≠ .drop → r₁.info = s.rcv.info → r₁.created = s.rcv.created → r₁.pc ≠ .detach →
        fs₁ = s.fs → BoundInv dir r₁ fs₁ (noteFiles s (.rcv a) s₁ g) := by
      intro h1 h2 h3 h4 h5
      obtain ⟨h6, h7⟩ := noteFiles_same (g := g) (a := .rcv a) (s := s) (by rw [hr₁, h3])
      rw [h5]
      exact h.move hb h1 h2 h6 h7 fun h8 => absurd h8 h4
    cases hr with
    | selectErr hpc _ => exact move (by rw [hpc]; decide) rfl rfl (by rw [hpc]; decide) rfl
    | @select n hpc _ =>
      refine move (by rw [hpc]; decide) rfl rfl ?_ rfl
      by_cases hn : n = 0 <;> simp [hn]
    | goOn hpc _ | quitPush hpc _ _ _ | quitDone hpc _ _ | lastPush hpc _ | lastLog hpc | namesFail hpc | recvErr hpc _
    | recv hpc _ _ _ | noRecv hpc | dataPush hpc _ | dataFail hpc | dataLog hpc =>
      exact move (by rw [hpc]; decide) rfl rfl (by simp) rfl
    | keep hpc _ | alloc hpc _ _ =>
      refine move (by rw [hpc]; decide) rfl rfl ?_ rfl
      unfold Rcv.afterReady
      split <;> simp
    | @flush m hpc _ =>
      obtain ⟨h1, -, -, -, -, h2, -⟩ := stepFlush_fields s.rcv m
      exact move (by rw [hpc]; decide) h1 h2 (calm_of (stepFlush_calm s.rcv m)).1 rfl
    | namesPush hpc _ =>
      -- the files go with their list
      obtain ⟨h6, h7⟩ := noteFiles_same (g := g) (a := .rcv (.push true)) (s := s) (by rw [hr₁])
      refine h.move hb (by rw [hpc]; decide) rfl h6 h7 fun _ => ?_
      unfold noteFiles
      rw [if_pos ⟨hpc, rfl⟩]
    | detach hpc =>
      rw [noteFiles_quiet (by rw [hr₁]) (by simp)]
      exact h.detach hpc hb rfl (by simp)
    | @writeOk m e w hpc hm hw hok =>
      rw [noteFiles_of_ne (by rw [hpc]; decide), hr₁]
      refine h.wrote hpc hm hw (fun n hn => ?_) hb rfl rfl (by simp) (Or.inl hok)
      exact hc m hm n (by rw [← hw.opened_eq hd hm]; exact hn)
    | @writeFail m e w hpc hm hw hok =>
      rw [noteFiles_of_ne (by rw [hpc]; decide), hr₁]
      refine h.wrote hpc hm hw (fun n hn => ?_) hb rfl rfl (by simp) (Or.inr rfl)
      exact hc m hm n (by rw [← hw.opened_eq hd hm]; exact hn)
    | drop hpc hreset =>
      rw [noteFiles_quiet (by rw [hr₁]) (by simp)]
      exact h.drop hreset (fun fp hfp => hc hpc fp hfp) hb rfl (by simp)
    | @reach k fp hfp =>
      rw [noteFiles_quiet (by rw [hr₁]) (by simp)]
      exact h.flushed hfp k hb

/-- **The cache is bounded.** For every configuration with room for a file, in every run of
the receiver in which no write puts more than `max_fsize` bytes into a new file, no file
is opened that holds bytes, and only files without bytes are taken back: each data file
holds at most `max_fsize` bytes, and those opened since the last hand-over at most
`max_fcnt * max_fsize` together. -/
theorem cache_bounded (c : Configure) (fs : Disk) (h1 : 1 ≤ c.maxFcnt) (h2 : 0 ≤ c.maxFsize)
    (s : RSys × CacheFiles)
    (h : Reach (watch (RSys.step c) noteFiles) (fun s a => BoundSafe c s.1 a) (RSys.init c fs, ⟨∅, ∅⟩) s) :
    CacheBounded s.1 s.2 := by
  have hinv : BoundInv c.path s.1.rcv s.1.fs s.2 :=
    h.inv (I := fun s => BoundInv c.path s.1.rcv s.1.fs s.2) (boundInv_init c fs h1 h2)
      fun _ _ _ hi hc hs => hi.step hc hs
  exact hinv.bounded

/-- Ten bytes arrive at a time and the queue is full: the third message fills the cache, is
dropped, and its file is taken back with its bytes in it; so is the fifth. -/
def overflowDemo : List RSysAct :=
  (turn [] (List.replicate 10 1) [.push false, .write ⟨40, true, none⟩] ++
    turn [.push false] (List.replicate 10 2) [.write ⟨41, true, none⟩] ++
    turn [.push false] (List.replicate 10 3) [.write ⟨42, true, none⟩, .tau] ++
    turn [.push false] (List.replicate 10 4) [.write ⟨43, true, none⟩] ++
    turn [.push false] (List.replicate 10 5) [.write ⟨44, true, none⟩, .tau] ++
    turn [.push false] (List.replicate 10 6) [.write ⟨45, true, none⟩]).map .rcv

theorem overflowDemo_runs : (run (watch (RSys.step (demoConf 4097 1)) noteFiles)
    (RSys.init (demoConf 4097 1) (Fs.empty _ _), ⟨∅, ∅⟩) overflowDemo).isSome := by
  decide +kernel

/-- The end of this run. -/
def overflowDemoEnd : RSys × CacheFiles := runTo overflowDemo_runs

/-- **The cache grows beyond its bound**: two files of 16 bytes are allowed, and four hold 40. -/
theorem cache_overflows :
    ∃ s, Reach (watch (RSys.step (demoConf 4097 1)) noteFiles) Any
        (RSys.init (demoConf 4097 1) (Fs.empty _ _), ⟨∅, ∅⟩) s ∧
      s.2.since.card = 4 ∧ ∑ i ∈ s.2.since, bytesIn s.1.rcv.info s.1.fs i = 40 ∧ ¬ CacheBounded s.1 s.2 := by
  have hsum : ∑ i ∈ overflowDemoEnd.2.since, bytesIn overflowDemoEnd.1.rcv.info overflowDemoEnd.1.fs i = 40 := by
    decide +kernel
  have hmax : overflowDemoEnd.1.rcv.info.maxFcnt * overflowDemoEnd.1.rcv.info.maxFsize = 32 := by decide +kernel
  refine ⟨overflowDemoEnd, reach_runTo overflowDemo_runs, by decide +kernel, hsum, fun hb => ?_⟩
  have htotal := hb.total
  rw [hsum, hmax] at htotal
  omega

/-- The same with room in the queue after the second file. -/
def boundedDemo : List RSysAct :=
  (turn [] (List.replicate 10 1) [.push false, .write ⟨40, true, none⟩] ++
    turn [.push false] (List.replicate 10 2) [.write ⟨41, true, none⟩] ++
    turn [.push true, .tau] (List.replicate 10 3) [.push false, .write ⟨42, true, none⟩]).map .rcv

theorem boundedDemo_runs :
    (run (guarded (watch (RSys.step (demoConf 4097 1)) noteFiles) fun s a => BoundSafe (demoConf 4097 1) s.1 a)
      (RSys.init (demoConf 4097 1) (Fs.empty _ _), ⟨∅, ∅⟩) boundedDemo).isSome := by
  decide +kernel

/-- The end of this run. -/
def boundedDemoEnd : RSys × CacheFiles := runTo boundedDemo_runs

theorem cache_bounded_demo : boundedDemoEnd.2.opened.card = 3 ∧ boundedDemoEnd.2.since.card = 1 ∧
    CacheBounded boundedDemoEnd.1 boundedDemoEnd.2 :=
  ⟨by decide +kernel, by decide +kernel, cache_bounded (demoConf 4097 1) (Fs.empty _ _) (by decide) (by decide)
    boundedDemoEnd (reach_runTo_guarded boundedDemo_runs)⟩

end HookKernel
