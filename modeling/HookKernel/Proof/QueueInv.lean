import HookKernel.Lib.Run
import HookKernel.Spec.Queue

/-!
# The queue invariant

Under every interleaving of any number of threads (`inv_reach`): the mutex
excludes, the semaphore credits add up, and the thread inside the critical section
sees the ring as its program point says (`CsOk`), where the contents come from the
history of critical sections.

* `tick_counts`, `tick_cs`, `tick_lock`, `tick_unlock`: one statement.
* `QInv.no_error`: neither error branch of `_circle_push`, `_circle_pop` is taken.
-/

namespace HookKernel

open Lib

variable {V : Type}

/-! ## What a thread holds at a program point -/

/-- Inside the critical section. -/
def QPc.inCs : QPc V → ℕ
  | .pushPos _ | .pushFull _ _ | .pushStore _ _ | .pushWpos _ _ | .pushSize _ | .pushUnlock _ _ => 1
  | .popEmpty | .popRead | .popClear _ | .popRpos _ | .popSize _ | .popUnlock _ => 1
  | _ => 0

/-- A pusher that took an `nempty` credit and has not stored yet (`size++` not done). -/
def QPc.pushing : QPc V → ℕ
  | .pushLock _ | .pushPos _ | .pushFull _ _ | .pushStore _ _ | .pushWpos _ _ | .pushSize _ => 1
  | _ => 0

/-- A pusher that stored and has not posted `nstored` yet. -/
def QPc.pushed : QPc V → ℕ
  | .pushUnlock _ _ | .pushPost _ => 1
  | _ => 0

/-- A popper that took an `nstored` credit and has not removed yet (`size--` not done). -/
def QPc.popping : QPc V → ℕ
  | .popLock | .popEmpty | .popRead | .popClear _ | .popRpos _ | .popSize _ => 1
  | _ => 0

/-- A popper that removed an item and has not posted `nempty` yet. -/
def QPc.popped : QPc V → ℕ
  | .popUnlock _ | .popPost _ => 1
  | _ => 0

theorem inCs_cases (pc : QPc V) : pc.inCs = 0 ∨ pc.inCs = 1 := by
  cases pc <;> simp [QPc.inCs]

/-- A branch that must not be taken: a full ring at the full test, an empty one at
the empty test. -/
def QPc.atError (q : Circle V) : QPc V → Prop
  | .pushFull _ _ => q.max ≤ q.size
  | .popEmpty => q.size ≤ 0
  | _ => False

/-- **One statement and the counts.** -/
theorem tick_counts {q q' : Queue V} {pc pc' : QPc V} (h : tick q pc = some (q', pc'))
    (hne : ¬ pc.atError q.toCircle) :
    q'.max = q.max ∧ q'.mutex + pc'.inCs = q.mutex + pc.inCs ∧
      (q'.nempty : ℤ) + q'.size + pc'.pushing + pc'.popped =
        q.nempty + q.size + pc.pushing + pc.popped ∧
      (q'.nstored : ℤ) + pc'.popping + pc'.pushed - q'.size =
        q.nstored + pc.popping + pc.pushed - q.size := by
  cases pc <;> simp only [tick] at h <;> try (split at h)
  all_goals
    first
    | (exfalso; exact hne ‹_›)
    | cases h
  all_goals
    refine ⟨?_, ?_, ?_, ?_⟩ <;>
      simp only [QPc.inCs, QPc.pushing, QPc.popped, QPc.popping, QPc.pushed] <;> omega

/-- A call or a time-out moves between points that hold nothing. -/
def QPc.free (pc : QPc V) : Prop :=
  pc.inCs = 0 ∧ pc.pushing = 0 ∧ pc.pushed = 0 ∧ pc.popping = 0 ∧ pc.popped = 0

theorem free_enter (op : QOp V) : op.enter.free := by
  cases op <;> exact ⟨rfl, rfl, rfl, rfl, rfl⟩

theorem free_expire {pc pc' : QPc V} (h : pc.expire = some pc') : pc.free ∧ pc'.free := by
  unfold QPc.expire at h
  split at h <;> simp only [Option.some.injEq, reduceCtorEq] at h <;> subst h <;>
    exact ⟨⟨rfl, rfl, rfl, rfl, rfl⟩, ⟨rfl, rfl, rfl, rfl, rfl⟩⟩

/-! ## The ring inside a critical section -/

/-- The ring holds `xs` from position `r` on, and the next write goes behind it. -/
structure CircleAt (q : Circle V) (r : ℤ) (xs : List (Option V)) : Prop where
  max : 1 ≤ q.max
  rpos : 0 ≤ q.rpos ∧ q.rpos < q.max
  len : (xs.length : ℤ) ≤ q.max
  wpos : (q.wpos + 1).tmod q.max = (r + xs.length) % q.max
  holds : RingHolds q.cirq r q.max xs

/-- The ring between critical sections. -/
structure CircleOk (q : Circle V) (xs : List (Option V)) : Prop extends CircleAt q q.rpos xs where
  size : q.size = xs.length

/-- The ring at a program point of the critical section, where `xs` is the contents
when the section was entered. -/
def CsOk (q : Circle V) (xs : List (Option V)) : QPc V → Prop
  | .pushPos _ => CircleOk q xs
  | .pushFull _ pos => CircleOk q xs ∧ pos = (q.rpos + xs.length) % q.max
  | .pushStore _ pos => CircleOk q xs ∧ pos = (q.rpos + xs.length) % q.max ∧ (xs.length : ℤ) < q.max
  | .pushWpos v pos => CircleOk q xs ∧ pos = (q.rpos + xs.length) % q.max ∧ (xs.length : ℤ) < q.max ∧
      q.cirq pos = v
  | .pushSize v => CircleAt q q.rpos (xs ++ [v]) ∧ q.size = xs.length
  | .pushUnlock v r => r = 0 ∧ CircleOk q (xs ++ [v])
  | .popEmpty => CircleOk q xs
  | .popRead => CircleOk q xs ∧ xs ≠ []
  | .popClear v => CircleOk q xs ∧ xs.head? = some v
  | .popRpos v => CircleAt q (q.rpos + 1) xs.tail ∧ q.size = xs.length ∧ xs.head? = some v
  | .popSize v => CircleAt q q.rpos xs.tail ∧ q.size = xs.length ∧ xs.head? = some v
  | .popUnlock v => CircleOk q xs.tail ∧ xs.head? = some v
  | _ => True

/-- Between the two `%` conventions: the next write position after `pos`. -/
theorem tmod_succ {m p n r : ℤ} (hm : 1 ≤ m) (hp : p = (r + n) % m) :
    (p + 1).tmod m = (r + (n + 1)) % m := by
  have h0 : 0 ≤ p := by rw [hp]; exact Int.emod_nonneg _ (by omega)
  rw [Int.tmod_eq_emod_of_nonneg (by omega), hp, Int.emod_add_emod]
  congr 1; ring

/-- **One statement inside the critical section.** -/
theorem tick_cs {q q' : Queue V} {pc pc' : QPc V} {xs : List (Option V)}
    (h : tick q pc = some (q', pc')) (hne : ¬ pc.atError q.toCircle) (hin : pc.inCs = 1)
    (hin' : pc'.inCs = 1) (hcs : CsOk q.toCircle xs pc) : CsOk q'.toCircle xs pc' := by
  cases pc with
  | pushPos v =>
    simp only [tick, Option.some.injEq, Prod.mk.injEq] at h
    obtain ⟨rfl, rfl⟩ := h
    have hcs : CircleOk q.toCircle xs := hcs
    exact ⟨hcs, hcs.wpos⟩
  | pushFull v pos =>
    simp only [tick] at h
    split at h
    · rename_i hf; exact absurd hf hne
    · rename_i hf
      simp only [Option.some.injEq, Prod.mk.injEq] at h
      obtain ⟨rfl, rfl⟩ := h
      obtain ⟨hc, hpos⟩ := hcs
      exact ⟨hc, hpos, by have := hc.size; omega⟩
  | pushStore v pos =>
    simp only [tick, Option.some.injEq, Prod.mk.injEq] at h
    obtain ⟨rfl, rfl⟩ := h
    obtain ⟨hc, hpos, hlt⟩ := hcs
    refine ⟨⟨⟨hc.max, hc.rpos, hc.len, hc.wpos, ?_⟩, hc.size⟩, hpos, hlt, Function.update_self _ _ _⟩
    show RingHolds (Function.update q.cirq pos v) q.rpos q.max xs
    rw [hpos]; exact hc.holds.store hlt v
  | pushWpos v pos =>
    simp only [tick, Option.some.injEq, Prod.mk.injEq] at h
    obtain ⟨rfl, rfl⟩ := h
    obtain ⟨hc, hpos, hlt, hv⟩ := hcs
    refine ⟨⟨hc.max, hc.rpos, by simp only [List.length_append, List.length_singleton]; omega, ?_, ?_⟩,
      hc.size⟩
    · simp only [List.length_append, List.length_singleton, Nat.cast_add, Nat.cast_one]
      exact tmod_succ hc.max hpos
    · exact hc.holds.grow (by rw [← hpos]; exact hv)
  | pushSize v =>
    simp only [tick, Option.some.injEq, Prod.mk.injEq] at h
    obtain ⟨rfl, rfl⟩ := h
    obtain ⟨hc, hsz⟩ := hcs
    refine ⟨rfl, ⟨⟨hc.max, hc.rpos, hc.len, hc.wpos, hc.holds⟩, ?_⟩⟩
    simp only [List.length_append, List.length_singleton]; omega
  | pushUnlock v r =>
    simp only [tick, Option.some.injEq, Prod.mk.injEq] at h
    obtain ⟨rfl, rfl⟩ := h
    simp [QPc.inCs] at hin'
  | popEmpty =>
    simp only [tick] at h
    split at h
    · rename_i hf; exact absurd hf hne
    · rename_i hf
      simp only [Option.some.injEq, Prod.mk.injEq] at h
      obtain ⟨rfl, rfl⟩ := h
      have hcs : CircleOk q.toCircle xs := hcs
      refine ⟨hcs, ?_⟩
      intro hnil
      have := hcs.size; rw [hnil] at this; simp at this; omega
  | popRead =>
    simp only [tick, Option.some.injEq, Prod.mk.injEq] at h
    obtain ⟨rfl, rfl⟩ := h
    obtain ⟨hc, hne⟩ := hcs
    obtain ⟨x, ys, rfl⟩ := List.exists_cons_of_ne_nil hne
    refine ⟨hc, ?_⟩
    rw [hc.holds.head hc.rpos.1 hc.rpos.2]; rfl
  | popClear v =>
    simp only [tick, Option.some.injEq, Prod.mk.injEq] at h
    obtain ⟨rfl, rfl⟩ := h
    obtain ⟨hc, hv⟩ := hcs
    obtain ⟨ys, rfl⟩ := List.head?_eq_some_iff.1 hv
    have hlen := hc.len
    simp only [List.length_cons, Nat.cast_add, Nat.cast_one] at hlen
    refine ⟨⟨hc.max, hc.rpos, by simp only [List.tail_cons]; omega, ?_, ?_⟩, hc.size, hv⟩
    · have := hc.wpos
      simp only [List.length_cons, List.tail_cons] at this ⊢
      rw [this]; congr 1; push_cast; ring
    · exact hc.holds.clear hc.rpos.1 hc.rpos.2 (by omega) none
  | popRpos v =>
    simp only [tick, Option.some.injEq, Prod.mk.injEq] at h
    obtain ⟨rfl, rfl⟩ := h
    obtain ⟨hc, hsz, hv⟩ := hcs
    have hmax : 1 ≤ q.max := hc.max
    have hr : (q.rpos + 1).tmod q.max = (q.rpos + 1) % q.max :=
      Int.tmod_eq_emod_of_nonneg (by have : 0 ≤ q.rpos := hc.rpos.1; omega)
    refine ⟨⟨hc.max, ?_, hc.len, ?_, ?_⟩, hsz, hv⟩
    · show 0 ≤ (q.rpos + 1).tmod q.max ∧ (q.rpos + 1).tmod q.max < q.max
      rw [hr]; exact ⟨Int.emod_nonneg _ (by omega), Int.emod_lt_of_pos _ (by omega)⟩
    · show (q.wpos + 1).tmod q.max = ((q.rpos + 1).tmod q.max + xs.tail.length) % q.max
      rw [hr, Int.emod_add_emod]; exact hc.wpos
    · show RingHolds q.cirq ((q.rpos + 1).tmod q.max) q.max xs.tail
      rw [hr]; exact ringHolds_emod.2 hc.holds
  | popSize v =>
    simp only [tick, Option.some.injEq, Prod.mk.injEq] at h
    obtain ⟨rfl, rfl⟩ := h
    obtain ⟨hc, hsz, hv⟩ := hcs
    refine ⟨⟨⟨hc.max, hc.rpos, hc.len, hc.wpos, hc.holds⟩, ?_⟩, hv⟩
    obtain ⟨ys, rfl⟩ := List.head?_eq_some_iff.1 hv
    simp only [List.length_cons, List.tail_cons] at hsz ⊢
    push_cast at hsz; omega
  | popUnlock v =>
    simp only [tick, Option.some.injEq, Prod.mk.injEq] at h
    obtain ⟨rfl, rfl⟩ := h
    simp [QPc.inCs] at hin'
  | idle => simp [QPc.inCs] at hin
  | pushBegin _ _ => simp [QPc.inCs] at hin
  | pushLock _ => simp [QPc.inCs] at hin
  | pushPost _ => simp [QPc.inCs] at hin
  | popBegin _ => simp [QPc.inCs] at hin
  | popLock => simp [QPc.inCs] at hin
  | popPost _ => simp [QPc.inCs] at hin
  | ret _ _ => simp [QPc.inCs] at hin

/-- **Entering the critical section.** -/
theorem tick_lock {q q' : Queue V} {pc pc' : QPc V} {xs : List (Option V)}
    (h : tick q pc = some (q', pc')) (hin : pc.inCs = 0) (hin' : pc'.inCs = 1)
    (hc : CircleOk q.toCircle xs) : CsOk q'.toCircle xs pc' ∧ pc.commit = none := by
  cases pc <;> simp only [QPc.inCs, one_ne_zero] at hin <;> simp only [tick] at h <;>
    try (split at h)
  all_goals
    cases h <;>
    first
    | exact ⟨hc, rfl⟩
    | simp [QPc.inCs] at hin'

/-- Outside the critical section the ring is not touched. -/
theorem tick_out {q q' : Queue V} {pc pc' : QPc V} (h : tick q pc = some (q', pc'))
    (hin : pc.inCs = 0) : q'.toCircle = q.toCircle ∧ pc.commit = none := by
  cases pc <;> simp only [QPc.inCs, one_ne_zero] at hin <;> simp only [tick] at h <;>
    try (split at h)
  all_goals (cases h <;> exact ⟨rfl, rfl⟩)

/-- Inside the critical section nothing is committed. -/
theorem commit_none {q q' : Queue V} {pc pc' : QPc V} (h : tick q pc = some (q', pc'))
    (hin' : pc'.inCs = 1) : pc.commit = none := by
  cases pc <;> simp only [tick] at h <;> try rfl
  all_goals (cases h; simp [QPc.inCs] at hin')

/-- **Leaving the critical section** commits one event of the history. -/
theorem tick_unlock [DecidableEq V] {q q' : Queue V} {pc pc' : QPc V} {xs : List (Option V)}
    (h : tick q pc = some (q', pc')) (hin : pc.inCs = 1) (hin' : pc'.inCs = 0)
    (hcs : CsOk q.toCircle xs pc) :
    ∃ e ys, pc.commit = some e ∧ fifoStep q.max xs e = some ys ∧ CircleOk q'.toCircle ys := by
  cases pc with
  | pushUnlock v r =>
    simp only [tick, Option.some.injEq, Prod.mk.injEq] at h
    obtain ⟨rfl, rfl⟩ := h
    obtain ⟨rfl, hc⟩ := hcs
    refine ⟨.put v, xs ++ [v], by simp [QPc.commit], ?_, hc⟩
    have hlen := hc.len
    simp only [List.length_append, List.length_singleton, Nat.cast_add, Nat.cast_one] at hlen
    rw [fifoStep, if_pos (by omega)]
  | popUnlock v =>
    simp only [tick, Option.some.injEq, Prod.mk.injEq] at h
    obtain ⟨rfl, rfl⟩ := h
    obtain ⟨hc, hv⟩ := hcs
    exact ⟨.take v, xs.tail, rfl, by rw [fifoStep, if_pos hv], hc⟩
  | _ =>
    -- every other point of the section stays inside it
    simp only [tick] at h
    try (split at h)
    all_goals (cases h <;> simp [QPc.inCs] at hin hin')

/-! ## What a step can do -/

section Steps

variable {ι : Type} [DecidableEq ι] {s s' : QSys ι V} {i : ι} {a : QAct}

/-- The state after one statement of thread `i`. -/
def QSys.after (s : QSys ι V) (i : ι) (q' : Queue V) (pc' : QPc V) : QSys ι V where
  q := q'
  thr := Function.update s.thr i { s.thr i with pc := pc' }
  log := s.log ++ ((s.thr i).pc.commit.map fun e => (i, e)).toList

/-- **A step** is a call, a return, a statement or a time-out. -/
theorem QSys.step_cases (h : s.step (i, a) = some s') :
    (∃ op rest, (s.thr i).pc = .idle ∧ (s.thr i).todo = op :: rest ∧
      s' = s.setThr i { s.thr i with pc := op.enter }) ∨
    (∃ r b op rest, (s.thr i).pc = .ret r b ∧ (s.thr i).todo = op :: rest ∧
      s' = s.setThr i ⟨rest, .idle, (s.thr i).done ++ [(op, r, b)]⟩) ∨
    (∃ q' pc', tick s.q (s.thr i).pc = some (q', pc') ∧ s' = s.after i q' pc') ∨
    (∃ pc', a = .timeout ∧ (s.thr i).pc.expire = some pc' ∧
      s' = s.setThr i { s.thr i with pc := pc' }) := by
  cases a with
  | timeout =>
    simp only [QSys.step, Option.map_eq_some_iff] at h
    obtain ⟨pc', h1, rfl⟩ := h
    exact Or.inr (Or.inr (Or.inr ⟨pc', rfl, h1, rfl⟩))
  | run =>
    simp only [QSys.step] at h
    split at h
    · rename_i hpc
      split at h
      · cases h
      · rename_i op rest htodo
        simp only [Option.some.injEq] at h
        exact Or.inl ⟨op, rest, hpc, htodo, h.symm⟩
    · rename_i r b hpc
      split at h
      · cases h
      · rename_i op rest htodo
        simp only [Option.some.injEq] at h
        exact Or.inr (Or.inl ⟨r, b, op, rest, hpc, htodo, h.symm⟩)
    · split at h
      · cases h
      · rename_i q' pc' ht
        simp only [Option.some.injEq] at h
        exact Or.inr (Or.inr (Or.inl ⟨q', pc', ht, h.symm⟩))

end Steps

/-! ## The invariant -/

section Invariant

variable {ι : Type} [DecidableEq V] [DecidableEq ι] [Fintype ι] {s s' : QSys ι V} {i : ι} {a : QAct} {m : ℤ}

/-- **The queue invariant**: mutual exclusion, the two credit equations, and a ring
that holds what the history says. -/
structure QInv (m : ℤ) (s : QSys ι V) : Prop where
  max : s.q.max = m
  mutex : s.q.mutex + ∑ i, (s.thr i).pc.inCs = 1
  empty : (s.q.nempty : ℤ) + s.q.size + (∑ i, (s.thr i).pc.pushing : ℕ) +
    (∑ i, (s.thr i).pc.popped : ℕ) = m
  stored : (s.q.nstored : ℤ) + (∑ i, (s.thr i).pc.popping : ℕ) + (∑ i, (s.thr i).pc.pushed : ℕ) =
    s.q.size
  ring : ∃ xs, fifoRun m [] s.history = some xs ∧
    (∀ i, (s.thr i).pc.inCs = 1 → CsOk s.q.toCircle xs (s.thr i).pc) ∧
    (0 < s.q.mutex → CircleOk s.q.toCircle xs)

omit [DecidableEq ι] in
/-- A thread at the full test sees room, one at the empty test sees an item: each of
them holds a credit that the equations count. -/
theorem QInv.no_error (hI : QInv m s) (i : ι) : ¬ (s.thr i).pc.atError s.q.toCircle := by
  intro herr
  have h1 := le_sum (fun t : QThread V => t.pc.pushing) s.thr i
  have h2 := le_sum (fun t : QThread V => t.pc.popping) s.thr i
  have h3 := hI.empty
  have h4 := hI.stored
  have h5 := hI.max
  cases hpc : (s.thr i).pc <;> rw [hpc] at herr <;> simp only [QPc.atError] at herr
  · have : (s.thr i).pc.pushing = 1 := by rw [hpc]; rfl
    omega
  · have : (s.thr i).pc.popping = 1 := by rw [hpc]; rfl
    omega

/-- The thread inside the critical section excludes every other. -/
theorem QInv.excl (hI : QInv m s) {i j : ι} (hi : (s.thr i).pc.inCs = 1)
    (hj : (s.thr j).pc.inCs = 1) : i = j := by
  by_contra hne
  have h1 := pair_le_sum (fun t : QThread V => t.pc.inCs) s.thr hne
  have h2 := hI.mutex
  simp only [hi, hj] at h1
  omega

omit [DecidableEq ι] in
/-- The invariant at the start. -/
theorem inv_init (hm : 1 ≤ m) (prog : ι → List (QOp V)) : QInv m (QSys.init m prog) := by
  refine ⟨rfl, by simp [QSys.init, queueInit, QPc.inCs], ?_, ?_, [], rfl, ?_, ?_⟩
  · simp [QSys.init, queueInit, QPc.pushing, QPc.popped]; omega
  · simp [QSys.init, queueInit, QPc.popping, QPc.pushed]
  · intro i hi; simp [QSys.init, QPc.inCs] at hi
  · intro _
    refine ⟨⟨hm, ⟨le_rfl, by show (0 : ℤ) < m; omega⟩, by show ((0 : ℕ) : ℤ) ≤ m; omega, ?_,
      ringHolds_nil⟩, rfl⟩
    simp [QSys.init, queueInit]

/-- A thread that moves between points that hold nothing keeps the invariant. -/
theorem inv_free (hI : QInv m s) {t : QThread V} (h0 : (s.thr i).pc.free) (h1 : t.pc.free) :
    QInv m (s.setThr i t) := by
  obtain ⟨a1, a2, a3, a4, a5⟩ := h0
  obtain ⟨b1, b2, b3, b4, b5⟩ := h1
  have key : ∀ w : QPc V → ℕ, w (s.thr i).pc = 0 → w t.pc = 0 →
      ∑ j, w ((s.setThr i t).thr j).pc = ∑ j, w (s.thr j).pc := by
    intro w hw hw'
    have := sum_update (fun t : QThread V => w t.pc) s.thr i t
    simp only [hw, hw'] at this
    exact this
  refine ⟨hI.max, ?_, ?_, ?_, ?_⟩
  · rw [key _ a1 b1]; exact hI.mutex
  · rw [key _ a2 b2, key _ a5 b5]; exact hI.empty
  · rw [key _ a4 b4, key _ a3 b3]; exact hI.stored
  · obtain ⟨xs, hr, hcs, hok⟩ := hI.ring
    refine ⟨xs, hr, ?_, hok⟩
    intro j hj
    by_cases hji : j = i
    · subst hji
      simp only [QSys.setThr, Function.update_self, b1] at hj
      omega
    · simp only [QSys.setThr, Function.update_of_ne hji] at hj ⊢
      exact hcs j hj

/-- The ring part of the invariant after one statement of thread `i`. -/
theorem ring_tick (hI : QInv m s) {q' : Queue V} {pc' : QPc V}
    (h : tick s.q (s.thr i).pc = some (q', pc'))
    (hmutex : q'.mutex + pc'.inCs = s.q.mutex + (s.thr i).pc.inCs) :
    ∃ xs, fifoRun m [] (s.after i q' pc').history = some xs ∧
      (∀ j, ((s.after i q' pc').thr j).pc.inCs = 1 →
        CsOk q'.toCircle xs ((s.after i q' pc').thr j).pc) ∧
      (0 < q'.mutex → CircleOk q'.toCircle xs) := by
  obtain ⟨xs, hr, hcs, hok⟩ := hI.ring
  have hhist : (s.after i q' pc').history = s.history ++ (s.thr i).pc.commit.toList := by
    simp only [QSys.after, QSys.history, List.map_append]
    cases (s.thr i).pc.commit <;> rfl
  have hself : ((s.after i q' pc').thr i).pc = pc' := by simp [QSys.after]
  have hother : ∀ j, j ≠ i → ((s.after i q' pc').thr j).pc = (s.thr j).pc := by
    intro j hj; simp [QSys.after, Function.update_of_ne hj]
  -- no other thread is inside while `i` is
  have hexcl : (s.thr i).pc.inCs = 1 → ∀ j, j ≠ i → (s.thr j).pc.inCs = 0 := by
    intro hi j hj
    rcases inCs_cases (s.thr j).pc with h0 | h1
    · exact h0
    · exact absurd (hI.excl hi h1) (Ne.symm hj)
  have hone : (s.thr i).pc.inCs ≤ 1 - s.q.mutex := by
    have h1 := le_sum (fun t : QThread V => t.pc.inCs) s.thr i
    have h2 := hI.mutex
    omega
  rcases inCs_cases (s.thr i).pc with hin | hin <;> rcases inCs_cases pc' with hin' | hin'
  · -- outside before and after
    obtain ⟨hcirc, hcom⟩ := tick_out h hin
    rw [hhist, hcom, Option.toList_none, List.append_nil, hcirc]
    refine ⟨xs, hr, ?_, fun hm => hok (by omega)⟩
    intro j hj
    by_cases hji : j = i
    · subst hji; rw [hself] at hj; omega
    · rw [hother j hji] at hj ⊢; exact hcs j hj
  · -- entering
    have hfree : 0 < s.q.mutex := by omega
    obtain ⟨hcs', hcom⟩ := tick_lock h hin hin' (hok hfree)
    rw [hhist, hcom, Option.toList_none, List.append_nil]
    refine ⟨xs, hr, ?_, fun hm => ?_⟩
    · intro j hj
      by_cases hji : j = i
      · subst hji; rw [hself]; exact hcs'
      · rw [hother j hji] at hj
        have h1 := le_sum (fun t : QThread V => t.pc.inCs) s.thr j
        have h2 := hI.mutex
        omega
    · have h2 := hI.mutex
      omega
  · -- leaving
    obtain ⟨e, ys, hcom, hstep, hok'⟩ := tick_unlock h hin hin' (hcs i hin)
    rw [hI.max] at hstep
    refine ⟨ys, ?_, ?_, fun _ => hok'⟩
    · rw [hhist, hcom, Option.toList_some, fifoRun_concat, hr]; exact hstep
    · intro j hj
      by_cases hji : j = i
      · subst hji; rw [hself] at hj; omega
      · rw [hother j hji, hexcl hin j hji] at hj; omega
  · -- inside before and after
    have hcom := commit_none h hin'
    rw [hhist, hcom, Option.toList_none, List.append_nil]
    refine ⟨xs, hr, ?_, fun hm => by omega⟩
    intro j hj
    by_cases hji : j = i
    · subst hji; rw [hself]
      exact tick_cs h (hI.no_error j) hin hin' (hcs j hin)
    · rw [hother j hji, hexcl hin j hji] at hj; omega

/-- One statement keeps the invariant. -/
theorem inv_tick (hI : QInv m s) {q' : Queue V} {pc' : QPc V}
    (h : tick s.q (s.thr i).pc = some (q', pc')) : QInv m (s.after i q' pc') := by
  obtain ⟨hmax, hmutex, hempty, hstored⟩ := tick_counts h (hI.no_error i)
  have key : ∀ w : QPc V → ℕ, ∑ j, w ((s.after i q' pc').thr j).pc + w (s.thr i).pc =
      ∑ j, w (s.thr j).pc + w pc' :=
    fun w => sum_update (fun t : QThread V => w t.pc) s.thr i { s.thr i with pc := pc' }
  refine ⟨by rw [← hI.max]; exact hmax, ?_, ?_, ?_, ring_tick hI h hmutex⟩
  · have := key QPc.inCs
    have h1 := hI.mutex
    show q'.mutex + ∑ j, ((s.after i q' pc').thr j).pc.inCs = 1
    omega
  · have k1 := key QPc.pushing
    have k2 := key QPc.popped
    have h1 := hI.empty
    show (q'.nempty : ℤ) + q'.size + (∑ j, ((s.after i q' pc').thr j).pc.pushing : ℕ) +
      (∑ j, ((s.after i q' pc').thr j).pc.popped : ℕ) = m
    omega
  · have k1 := key QPc.popping
    have k2 := key QPc.pushed
    have h1 := hI.stored
    show (q'.nstored : ℤ) + (∑ j, ((s.after i q' pc').thr j).pc.popping : ℕ) +
      (∑ j, ((s.after i q' pc').thr j).pc.pushed : ℕ) = q'.size
    omega

/-- **Every step keeps the invariant.** -/
theorem inv_step (hI : QInv m s) (h : s.step (i, a) = some s') : QInv m s' := by
  rcases QSys.step_cases h with ⟨op, rest, hpc, -, rfl⟩ | ⟨r, b, op, rest, hpc, -, rfl⟩ |
    ⟨q', pc', ht, rfl⟩ | ⟨pc', -, hx, rfl⟩
  · exact inv_free hI (by rw [hpc]; exact ⟨rfl, rfl, rfl, rfl, rfl⟩) (free_enter op)
  · exact inv_free hI (by rw [hpc]; exact ⟨rfl, rfl, rfl, rfl, rfl⟩) ⟨rfl, rfl, rfl, rfl, rfl⟩
  · exact inv_tick hI ht
  · exact inv_free hI (free_expire hx).1 (free_expire hx).2

theorem inv_reach (hm : 1 ≤ m) {prog : ι → List (QOp V)}
    (h : Reach QSys.step Any (QSys.init m prog) s) : QInv m s :=
  h.inv (inv_init hm prog) fun _ _ _ hI _ hs => inv_step hI hs

end Invariant

end HookKernel
