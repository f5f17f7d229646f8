import HookKernel.Lib.NameList

/-!
# Copies into a buffer

A buffer has a fixed number of cells. `copyInto` stores the first `n` cells of a source
at an offset of it and has no result if it reads or writes outside. `block w l i` is the
`i`th block of `w` cells.

* `copyInto_eq_some`: what a copy that stays inside leaves.
* `copyInto_eq_none`: the copies that do not stay inside.
* `copyInto_filled`: a copy right behind the cells in use.
* `copyInto_prefix`, `copyInto_behind`: a copy into a buffer of which the first cells are known.
* `block_flatMap`: the blocks of a concatenation of blocks.
-/

namespace HookKernel.Lib

variable {B : Type*} {dst src l : List B} {off n : ℕ} {z : B}

/-- Store the first `n` cells of `src` at offset `off` of `dst`. -/
def copyInto (dst : List B) (off : ℕ) (src : List B) (n : ℕ) : Option (List B) :=
  if n ≤ src.length ∧ off + n ≤ dst.length then some (overwrite dst off (src.take n)) else none

theorem copyInto_eq_some (hsrc : n ≤ src.length) (hdst : off + n ≤ dst.length) :
    copyInto dst off src n = some (overwrite dst off (src.take n)) :=
  if_pos ⟨hsrc, hdst⟩

theorem copyInto_eq_none (hdst : dst.length < off + n) : copyInto dst off src n = none :=
  if_neg fun h => absurd h.2 (Nat.not_le.2 hdst)

theorem length_copyInto (h : copyInto dst off src n = some l) : l.length = dst.length := by
  unfold copyInto at h
  split at h
  · rename_i hfit
    obtain rfl := Option.some.inj h
    apply length_overwrite
    rw [List.length_take_of_le hfit.1]
    exact hfit.2
  · cases h

/-- **A copy behind the cells in use** of a buffer whose other cells are `z`. -/
theorem copyInto_filled {k : ℕ} (hsrc : n ≤ src.length) (hfit : n ≤ k) :
    copyInto (l ++ List.replicate k z) l.length src n = some (l ++ src.take n ++ List.replicate (k - n) z) := by
  have hlen : (src.take n).length = n := List.length_take_of_le hsrc
  rw [copyInto_eq_some hsrc (by rw [List.length_append, List.length_replicate]; omega)]
  unfold overwrite
  rw [List.take_left, hlen, ← List.drop_drop, List.drop_left, List.drop_replicate]

/-- **A copy into a buffer that begins with `t`**: what stands before it stays, and if it is inside of `t`, what
stands behind it, too. -/
theorem copyInto_prefix {t : List B} (off : ℕ) (src : List B) (n : ℕ) (h : t <+: dst) (hoff : off ≤ t.length) (hsrc : n ≤ src.length)
    (hfit : off + n ≤ dst.length) :
    ∃ l, copyInto dst off src n = some l ∧ l.length = dst.length ∧ t.take off ++ src.take n <+: l ∧
      (off + n ≤ t.length → overwrite t off (src.take n) <+: l) := by
  have hlen : (src.take n).length = n := List.length_take_of_le hsrc
  refine ⟨_, copyInto_eq_some hsrc hfit, length_overwrite (hlen.symm ▸ hfit), ?_, fun hin => ?_⟩
  · obtain ⟨rest, rfl⟩ := h
    unfold overwrite
    rw [List.take_append_of_le_length hoff]
    exact List.prefix_append _ _
  · obtain ⟨rest, rfl⟩ := h
    refine ⟨rest, ?_⟩
    unfold overwrite
    rw [List.take_append_of_le_length hoff, List.drop_append_of_le_length (hlen.symm ▸ hin), List.append_assoc,
      List.append_assoc]

/-- A copy behind what a buffer begins with. -/
theorem copyInto_behind {t : List B} (off : ℕ) (src : List B) (n : ℕ) (h : t <+: dst) (hoff : t.length ≤ off) (hsrc : n ≤ src.length)
    (hfit : off + n ≤ dst.length) : ∃ l, copyInto dst off src n = some l ∧ l.length = dst.length ∧ t <+: l := by
  have hlen : (dst.take off).length = off := List.length_take_of_le (by omega)
  obtain ⟨l, hl, hllen, hpre, -⟩ := copyInto_prefix off src n (List.take_prefix off dst) (Nat.le_of_eq hlen.symm) hsrc hfit
  refine ⟨l, hl, hllen, ?_⟩
  rw [List.take_take, Nat.min_self] at hpre
  exact (List.prefix_take_iff.2 ⟨h, hoff⟩).trans ((List.prefix_append _ _).trans hpre)

/-! ## Blocks -/

/-- The `i`th block of `w` cells. -/
def block (w : ℕ) (l : List B) (i : ℕ) : List B := (l.drop (w * i)).take w

variable {α : Type*} {f : α → List B} {w : ℕ}

theorem length_flatMap_blocks (hf : ∀ a, (f a).length = w) (as : List α) : (as.flatMap f).length = w * as.length := by
  induction as with
  | nil => rfl
  | cons a as ih => rw [List.flatMap_cons, List.length_append, hf, ih, List.length_cons, Nat.mul_succ, Nat.add_comm]

/-- **The blocks of a concatenation of blocks.** -/
theorem block_flatMap (hf : ∀ a, (f a).length = w) (tail : List B) {as : List α} {i : ℕ} {a : α} (h : as[i]? = some a) :
    block w (as.flatMap f ++ tail) i = f a := by
  unfold block
  induction as generalizing i with
  | nil => cases h
  | cons b as ih =>
    rw [List.flatMap_cons, List.append_assoc]
    cases i with
    | zero =>
      obtain rfl : b = a := Option.some.inj h
      rw [Nat.mul_zero, List.drop_zero, List.take_left' (hf b)]
    | succ i =>
      have hdrop : (f b ++ (as.flatMap f ++ tail)).drop (w * (i + 1)) = (as.flatMap f ++ tail).drop (w * i) := by
        rw [Nat.mul_succ, Nat.add_comm, ← List.drop_drop, List.drop_left' (hf b)]
      rw [hdrop]
      exact ih h

end HookKernel.Lib
