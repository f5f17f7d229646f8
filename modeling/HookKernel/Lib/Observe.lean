import Mathlib.Data.List.Infix
import Mathlib.Logic.Function.Iterate

/-!
# What a deterministic run puts out

A machine takes the step `next` again and again; `out` is what it has put out so far,
and it only grows.

* `SameOut f g`: two sequences of outputs come to the same, whatever the pace.
* `iterate_sim`: two runs that stay related step by step.
* `out_of_fixed`: once a machine has come to rest, nothing more is put out, and what was
  put out on the way is a beginning of what it ends with.
-/

namespace HookKernel.Lib

variable {σ β : Type*} {next : σ → σ} {s t : σ}

/-- Whatever one puts out, the other puts out too, and in the same order. -/
def SameOut (f g : ℕ → List β) : Prop := (∀ n, ∃ k, f n <+: g k) ∧ ∀ n, ∃ k, g n <+: f k

theorem sameOut_of_eq {f g : ℕ → List β} (h : ∀ n, f n = g n) : SameOut f g :=
  ⟨fun n => ⟨n, by rw [h n]⟩, fun n => ⟨n, by rw [h n]⟩⟩

theorem iterate_sim {R : σ → σ → Prop} (hstep : ∀ s t, R s t → R (next s) (next t)) (h : R s t) (n : ℕ) :
    R (next^[n] s) (next^[n] t) := by
  induction n generalizing s t with
  | zero => exact h
  | succ n ih =>
    rw [Function.iterate_succ_apply, Function.iterate_succ_apply]
    exact ih (hstep s t h)

theorem out_iterate (out : σ → List β) (hgrow : ∀ s, out s <+: out (next s)) (n : ℕ) (s : σ) : out s <+: out (next^[n] s) := by
  induction n generalizing s with
  | zero => exact List.prefix_refl _
  | succ n ih =>
    rw [Function.iterate_succ_apply]
    exact (hgrow s).trans (ih (next s))

/-- **A machine that comes to rest** has put out what it holds then. -/
theorem out_of_fixed (out : σ → List β) (hgrow : ∀ s, out s <+: out (next s)) {n : ℕ}
    (hfix : next (next^[n] s) = next^[n] s) (k : ℕ) : out (next^[k] s) <+: out (next^[n] s) := by
  rcases Nat.le_total k n with hk | hk
  · obtain ⟨j, rfl⟩ := Nat.exists_eq_add_of_le' hk
    rw [Function.iterate_add_apply]
    exact out_iterate out hgrow j _
  · obtain ⟨j, rfl⟩ := Nat.exists_eq_add_of_le' hk
    rw [Function.iterate_add_apply, Function.iterate_fixed hfix]

end HookKernel.Lib
