import Mathlib.Data.Int.ModEq
import Mathlib.Logic.Function.Basic
import Mathlib.Tactic.Ring

/-!
# Bounded FIFOs and rings

`fifoRun m` replays a history of `put`s and `take`s on a FIFO of capacity `m`; it
is the sequential meaning of a bounded queue. `RingHolds c r m xs` says that the
ring `c` of `m` slots holds the list `xs` from position `r` on.

* `fifoRun_values`: in a legal history the values taken, followed by the contents,
  are the values put, in order.
* `RingHolds.store`, `RingHolds.grow`, `RingHolds.clear`: writing the first free
  slot, counting it in, and dropping the oldest entry.
-/

namespace HookKernel.Lib

variable {α : Type*}

/-- An event of a FIFO's history. -/
inductive FifoEv (α : Type*)
  | put (a : α)
  | take (a : α)

/-- One event on the contents: `put` needs room, `take` removes the oldest value. -/
def fifoStep [DecidableEq α] (m : ℤ) (xs : List α) : FifoEv α → Option (List α)
  | .put a => if (xs.length : ℤ) < m then some (xs ++ [a]) else none
  | .take a => if xs.head? = some a then some xs.tail else none

/-- The contents after a history, if it is legal for a FIFO of capacity `m`. -/
def fifoRun [DecidableEq α] (m : ℤ) : List α → List (FifoEv α) → Option (List α)
  | xs, [] => some xs
  | xs, e :: es => (fifoStep m xs e).bind fun ys => fifoRun m ys es

/-- The values put, in order. -/
def puts : List (FifoEv α) → List α
  | [] => []
  | .put a :: es => a :: puts es
  | .take _ :: es => puts es

/-- The values taken, in order. -/
def takes : List (FifoEv α) → List α
  | [] => []
  | .put _ :: es => takes es
  | .take a :: es => a :: takes es

theorem mem_puts {v : α} : ∀ {es : List (FifoEv α)}, v ∈ puts es → .put v ∈ es := by
  intro es
  induction es with
  | nil => intro h; simp [puts] at h
  | cons e es ih =>
    intro h
    cases e with
    | put w =>
      simp only [puts, List.mem_cons] at h
      rcases h with rfl | h
      · exact List.mem_cons_self
      · exact List.mem_cons_of_mem _ (ih h)
    | take w => exact List.mem_cons_of_mem _ (ih h)

theorem mem_takes {v : α} : ∀ {es : List (FifoEv α)}, .take v ∈ es → v ∈ takes es := by
  intro es
  induction es with
  | nil => intro h; simp at h
  | cons e es ih =>
    intro h
    rw [List.mem_cons] at h
    cases e with
    | put w =>
      rcases h with h | h
      · cases h
      · exact ih h
    | take w =>
      rcases h with h | h
      · cases h; exact List.mem_cons_self
      · exact List.mem_cons_of_mem _ (ih h)

section Fifo

variable [DecidableEq α] {m : ℤ}

theorem fifoRun_concat : ∀ (es : List (FifoEv α)) (xs : List α) (e : FifoEv α),
    fifoRun m xs (es ++ [e]) = (fifoRun m xs es).bind fun ys => fifoStep m ys e := by
  intro es
  induction es with
  | nil => intro xs e; simp [fifoRun]
  | cons f es ih =>
    intro xs e
    simp only [List.cons_append, fifoRun]
    cases fifoStep m xs f with
    | none => rfl
    | some ys => exact ih ys e

theorem fifoStep_put {xs ys : List α} {a : α} (h : fifoStep m xs (.put a) = some ys) :
    (xs.length : ℤ) < m ∧ ys = xs ++ [a] := by
  simp only [fifoStep] at h
  split at h
  · rename_i hroom
    exact ⟨hroom, (Option.some.inj h).symm⟩
  · cases h

theorem fifoStep_take {xs ys : List α} {a : α} (h : fifoStep m xs (.take a) = some ys) :
    xs.head? = some a ∧ ys = xs.tail := by
  simp only [fifoStep] at h
  split at h
  · rename_i hhead
    exact ⟨hhead, (Option.some.inj h).symm⟩
  · cases h

/-- **Nothing lost, duplicated or reordered** in a legal history. -/
theorem fifoRun_values : ∀ (es : List (FifoEv α)) (xs ys : List α),
    fifoRun m xs es = some ys → takes es ++ ys = xs ++ puts es := by
  intro es
  induction es with
  | nil => intro xs ys h; simp only [fifoRun, Option.some.injEq] at h; simp [takes, puts, h]
  | cons e es ih =>
    intro xs ys h
    simp only [fifoRun, Option.bind_eq_some_iff] at h
    obtain ⟨zs, h1, h2⟩ := h
    have := ih zs ys h2
    cases e with
    | put a =>
      simp only [fifoStep] at h1
      split at h1
      · simp only [Option.some.injEq] at h1; subst h1
        simpa [takes, puts] using this
      · cases h1
    | take a =>
      simp only [fifoStep] at h1
      split at h1
      · rename_i hhd
        simp only [Option.some.injEq] at h1; subst h1
        obtain ⟨t, rfl⟩ := List.head?_eq_some_iff.1 hhd
        simpa [takes, puts] using this
      · cases h1

end Fifo

/-! ## Rings -/

/-- The ring `c` of `m` slots holds `xs` from position `r` on. -/
def RingHolds (c : ℤ → α) (r m : ℤ) (xs : List α) : Prop :=
  ∀ k (hk : k < xs.length), c ((r + k) % m) = xs[k]

variable {c : ℤ → α} {r m : ℤ} {xs : List α}

/-- The first free slot differs from every slot in use. -/
theorem slot_ne {k n : ℤ} (hk : 0 ≤ k) (hkn : k < n) (hn : n < m) : (r + k) % m ≠ (r + n) % m := by
  intro h
  have hd : m ∣ (r + n) - (r + k) := Int.ModEq.dvd h
  rw [show r + n - (r + k) = n - k by ring] at hd
  have := Int.le_of_dvd (by omega) hd
  omega

theorem ringHolds_nil : RingHolds c r m [] := by
  intro k hk; simp at hk

/-- **Writing the first free slot** leaves the contents. -/
theorem RingHolds.store (h : RingHolds c r m xs) (hlen : (xs.length : ℤ) < m) (v : α) :
    RingHolds (Function.update c ((r + xs.length) % m) v) r m xs := by
  intro k hk
  rw [Function.update_of_ne (slot_ne (by omega) (by omega) hlen)]
  exact h k hk

/-- **Counting in** the value of the first free slot. -/
theorem RingHolds.grow (h : RingHolds c r m xs) {v : α} (hv : c ((r + xs.length) % m) = v) :
    RingHolds c r m (xs ++ [v]) := by
  intro k hk
  simp only [List.length_append, List.length_singleton] at hk
  rcases Nat.lt_or_ge k xs.length with hlt | hge
  · rw [List.getElem_append_left hlt]; exact h k hlt
  · have : k = xs.length := by omega
    subst this
    rw [List.getElem_append_right le_rfl]; simpa using hv

theorem RingHolds.head {x : α} (h : RingHolds c r m (x :: xs)) (hr : 0 ≤ r) (hrm : r < m) :
    c r = x := by
  have := h 0 (by simp)
  simpa [Int.emod_eq_of_lt hr hrm] using this

/-- The oldest entry left out, the rest stands from the next position on. -/
theorem RingHolds.tail {x : α} (h : RingHolds c r m (x :: xs)) : RingHolds c (r + 1) m xs := by
  intro k hk
  have := h (k + 1) (by simpa using hk)
  rw [List.getElem_cons_succ] at this
  rw [← this]
  congr 2
  push_cast; ring

/-- **Clearing the oldest slot** leaves the rest. -/
theorem RingHolds.clear {x : α} (h : RingHolds c r m (x :: xs)) (hr : 0 ≤ r) (hrm : r < m)
    (hlen : (xs.length : ℤ) < m) (v : α) : RingHolds (Function.update c r v) (r + 1) m xs := by
  intro k hk
  have hne : (r + 1 + (k : ℤ)) % m ≠ r := by
    intro he
    have h0 : (r + 0) % m = r := by rw [add_zero]; exact Int.emod_eq_of_lt hr hrm
    have h1 : (r + 1 + (k : ℤ)) % m = (r + (k + 1)) % m := by congr 1; ring
    exact slot_ne (r := r) (m := m) (k := 0) (n := k + 1) le_rfl (by omega) (by omega)
      (by rw [h0, ← h1, he])
  rw [Function.update_of_ne hne]
  exact h.tail k hk

/-- The start position counts modulo the ring's size. -/
theorem ringHolds_emod : RingHolds c (r % m) m xs ↔ RingHolds c r m xs := by
  unfold RingHolds
  constructor <;> intro h k hk
  · rw [← h k hk, Int.emod_add_emod]
  · rw [← h k hk, Int.emod_add_emod]

end HookKernel.Lib
