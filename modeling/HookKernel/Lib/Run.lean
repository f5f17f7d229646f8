import Mathlib.Algebra.BigOperators.Group.Finset.Piecewise
import Mathlib.Algebra.Order.BigOperators.Group.Finset
import Mathlib.Data.Fintype.Basic

/-!
# Runs of a partial step function

A system is a step function `step : σ → α → Option σ`: `step s a` is the state
after action `a`, or `none` if `a` cannot be taken in `s`. `run` executes a list
of actions; `Reach step C s₀` holds of the states reached from `s₀` by steps that
all meet the condition `C`.

* `Reach.inv`: an invariant kept by every step holds in every state reached.
* `run_append`: one list of actions after another.
* `reach_of_run`, `reach_of_guarded`: executed runs reach their final state, which
  `runTo` names (`reach_runTo`, `reach_runTo_guarded`).
* `forever_or`: along an infinite run, an invariant holds until a goal is reached.
* `watch`: a run with something noted of every step.
* `Completes`: every run along `C` takes boundedly many steps that count, and until the
  goal one of them is possible. `completes_of_rank`: a rank shows this.
  `Completes.reaches`: then the goal is reached.
* `Reach.simulates`: a run of one system is, step by step, no or some steps of another.
* `Tracks R step spec s t as`: along the calls `as`, the code from `s` returns what
  the specification from `t` returns, and stays related to it by `R`.
* `sum_update`, `pair_le_sum`: counting threads at program points, when one
  thread moves.
-/

namespace HookKernel.Lib

variable {σ α : Type*} {step : σ → α → Option σ} {C : σ → α → Prop}

/-- Execute a list of actions. -/
def run (step : σ → α → Option σ) : σ → List α → Option σ
  | s, [] => some s
  | s, a :: as => (step s a).bind fun s' => run step s' as

theorem run_append (s : σ) (as bs : List α) : run step s (as ++ bs) = (run step s as).bind fun s' => run step s' bs := by
  induction as generalizing s with
  | nil => rfl
  | cons a as ih =>
    rw [List.cons_append, run, run, Option.bind_assoc]
    congr 1
    funext s'
    exact ih s'

/-- Every action of the list is taken in a state where it meets `C`. -/
def Along (step : σ → α → Option σ) (C : σ → α → Prop) : σ → List α → Prop
  | _, [] => True
  | s, a :: as => C s a ∧ ∀ s', step s a = some s' → Along step C s' as

/-- The states reached from `s₀` by steps that meet `C`. -/
inductive Reach (step : σ → α → Option σ) (C : σ → α → Prop) (s₀ : σ) : σ → Prop
  | init : Reach step C s₀ s₀
  | next {s s' : σ} {a : α} : Reach step C s₀ s → C s a → step s a = some s' → Reach step C s₀ s'

/-- The condition that every step meets. -/
def Any : σ → α → Prop := fun _ _ => True

/-- **Invariant rule.** -/
theorem Reach.inv {I : σ → Prop} {s₀ s : σ} (h : Reach step C s₀ s) (h0 : I s₀)
    (hstep : ∀ s a s', I s → C s a → step s a = some s' → I s') : I s := by
  induction h with
  | init => exact h0
  | next _ hc hs ih => exact hstep _ _ _ ih hc hs

/-- Weakening the condition keeps a state reachable. -/
theorem Reach.mono {D : σ → α → Prop} {s₀ s : σ} (h : Reach step C s₀ s)
    (hCD : ∀ s a, C s a → D s a) : Reach step D s₀ s := by
  induction h with
  | init => exact .init
  | next _ hc hs ih => exact .next ih (hCD _ _ hc) hs

theorem Reach.trans {s₀ s₁ s₂ : σ} (h : Reach step C s₀ s₁) (h' : Reach step C s₁ s₂) :
    Reach step C s₀ s₂ := by
  induction h' with
  | init => exact h
  | next _ hc hs ih => exact .next ih hc hs

/-- An executed run whose steps meet `C` reaches its final state. -/
theorem reach_of_along : ∀ {as : List α} {s s' : σ}, Along step C s as →
    run step s as = some s' → Reach step C s s' := by
  intro as
  induction as with
  | nil => intro s s' _ h; simp only [run, Option.some.injEq] at h; subst h; exact .init
  | cons a as ih =>
    intro s s' hal h
    simp only [run, Option.bind_eq_some_iff] at h
    obtain ⟨s₁, h1, h2⟩ := h
    exact (Reach.next .init hal.1 h1).trans (ih (hal.2 _ h1) h2)

theorem along_of_forall : ∀ {as : List α} {s : σ}, (∀ a ∈ as, ∀ s, C s a) → Along step C s as := by
  intro as
  induction as with
  | nil => intro _ _; trivial
  | cons a as ih =>
    intro s h
    exact ⟨h a List.mem_cons_self s, fun s' _ => ih fun b hb => h b (List.mem_cons_of_mem _ hb)⟩

/-- An executed run reaches its final state. -/
theorem reach_of_run {as : List α} {s s' : σ} (h : run step s as = some s') :
    Reach step Any s s' :=
  reach_of_along (along_of_forall fun _ _ _ => trivial) h

/-- The step function without the steps that break `C`. -/
def guarded (step : σ → α → Option σ) (C : σ → α → Prop) [∀ s a, Decidable (C s a)] : σ → α → Option σ :=
  fun s a => if C s a then step s a else none

/-- A run that can be executed without breaking `C`. -/
theorem reach_of_guarded [∀ s a, Decidable (C s a)] {as : List α} {s s' : σ}
    (h : run (guarded step C) s as = some s') : Reach step C s s' := by
  induction as generalizing s with
  | nil => simp only [run, Option.some.injEq] at h; subst h; exact .init
  | cons a as ih =>
    simp only [run, Option.bind_eq_some_iff] at h
    obtain ⟨s₁, h1, h2⟩ := h
    unfold guarded at h1
    split at h1
    · rename_i hc
      exact (Reach.next .init hc h1).trans (ih h2)
    · cases h1

/-! ## Executed runs -/

section Executed

variable {s : σ} {as : List α}

/-- The end of a run that can be executed. -/
def runTo (h : (run step s as).isSome) : σ := (run step s as).get h

theorem run_runTo (h : (run step s as).isSome) : run step s as = some (runTo h) := (Option.some_get h).symm

theorem reach_runTo (h : (run step s as).isSome) : Reach step Any s (runTo h) := reach_of_run (run_runTo h)

theorem reach_runTo_guarded [∀ s a, Decidable (C s a)] (h : (run (guarded step C) s as).isSome) :
    Reach step C s (runTo h) :=
  reach_of_guarded (run_runTo h)

end Executed

/-! ## Infinite runs -/

/-- What every step keeps until a goal is reached holds forever, or the goal is reached. -/
theorem forever_or {P Q : ℕ → Prop} (h0 : P 0) (hstep : ∀ i, P i → P (i + 1) ∨ Q (i + 1)) :
    (∀ i, P i) ∨ ∃ i, Q i := by
  by_cases hQ : ∃ i, Q i
  · exact Or.inr hQ
  · refine Or.inl fun i => ?_
    induction i with
    | zero => exact h0
    | succ i ih => exact (hstep i ih).resolve_right fun h => hQ ⟨i + 1, h⟩

/-! ## Runs that complete -/

/-- **Every run along `C` completes**: it takes at most `N` steps that count, and as long as the goal is
not reached a step that counts is possible. -/
def Completes (step : σ → α → Option σ) (C : σ → α → Prop) (counts : α → Bool) (goal : σ → Prop) (s₀ : σ) : Prop :=
  (∃ N, ∀ as s, Along step C s₀ as → run step s₀ as = some s → as.countP counts ≤ N) ∧
    ∀ s, Reach step C s₀ s → goal s ∨ ∃ a s', counts a = true ∧ C s a ∧ step s a = some s'

/-- What the steps that count take away is at most the rank. -/
theorem countP_le_rank {I : σ → Prop} {counts : α → Bool} (rank : σ → ℕ)
    (hstep : ∀ s a s', I s → C s a → step s a = some s' →
      I s' ∧ rank s' + (if counts a = true then 1 else 0) ≤ rank s) {as : List α} {s s' : σ} (h0 : I s)
    (hal : Along step C s as) (h : run step s as = some s') : as.countP counts ≤ rank s := by
  induction as generalizing s with
  | nil => exact Nat.zero_le _
  | cons a as ih =>
    obtain ⟨s₁, h1, h2⟩ := Option.bind_eq_some_iff.1 h
    obtain ⟨hi, hrank⟩ := hstep s a s₁ h0 hal.1 h1
    have hrest := ih hi (hal.2 s₁ h1) h2
    rw [List.countP_cons]
    omega

/-- **Rank rule.** -/
theorem completes_of_rank {I : σ → Prop} {counts : α → Bool} {goal : σ → Prop} (rank : σ → ℕ)
    (hstep : ∀ s a s', I s → C s a → step s a = some s' →
      I s' ∧ rank s' + (if counts a = true then 1 else 0) ≤ rank s)
    (hgo : ∀ s, I s → goal s ∨ ∃ a s', counts a = true ∧ C s a ∧ step s a = some s') {s₀ : σ} (h0 : I s₀) :
    Completes step C counts goal s₀ :=
  ⟨⟨rank s₀, fun _ _ hal h => countP_le_rank rank hstep h0 hal h⟩,
    fun s h => hgo s (h.inv h0 fun _ _ _ hi hc hs => (hstep _ _ _ hi hc hs).1)⟩

/-- The system, and what is noted of every step. -/
def watch {γ : Type*} (step : σ → α → Option σ) (note : σ → α → σ → γ → γ) (s : σ × γ) (a : α) : Option (σ × γ) :=
  (step s.1 a).map fun s' => (s', note s.1 a s' s.2)

/-- A watched run is one of the system. -/
theorem Reach.unwatched {γ : Type*} {note : σ → α → σ → γ → γ} {p₀ p : σ × γ}
    (h : Reach (watch step note) (fun p a => C p.1 a) p₀ p) : Reach step C p₀.1 p.1 := by
  induction h with
  | init => exact .init
  | next _ hc hs ih =>
    obtain ⟨s', hstep, rfl⟩ := Option.map_eq_some_iff.1 hs
    exact .next ih hc hstep

/-! ## Simulation -/

section Simulation

variable {τ β : Type*} {step' : τ → β → Option τ} {D : τ → β → Prop}

theorem Reach.single {t t' : τ} {b : β} (hd : D t b) (h : step' t b = some t') : Reach step' D t t' :=
  Reach.init.next hd h

/-- **Simulation rule**: if every step keeps the relation while the other system takes some steps, or none, then every
state reached is related to one that the other system reaches. -/
theorem Reach.simulates {R : σ → τ → Prop} {s₀ s : σ} {t₀ : τ} (h : Reach step C s₀ s) (h0 : R s₀ t₀)
    (hstep : ∀ s a s' t, R s t → C s a → step s a = some s' → ∃ t', Reach step' D t t' ∧ R s' t') :
    ∃ t, Reach step' D t₀ t ∧ R s t := by
  induction h with
  | init => exact ⟨t₀, .init, h0⟩
  | next _ hc hs ih =>
    obtain ⟨t, hreach, hrel⟩ := ih
    obtain ⟨t', hnext, hrel'⟩ := hstep _ _ _ t hrel hc hs
    exact ⟨t', hreach.trans hnext, hrel'⟩

end Simulation

/-! ## Tracking a specification -/

section Tracks

variable {τ β : Type*}

/-- **Along a sequence of calls the code tracks its specification**: in every state
reached the two are related, every call returns, and it returns what the
specification says. -/
def Tracks (R : σ → τ → Prop) (step : σ → α → Option (σ × β)) (spec : τ → α → τ × β) :
    σ → τ → List α → Prop
  | s, t, [] => R s t
  | s, t, a :: as => R s t ∧ ∃ s', step s a = some (s', (spec t a).2) ∧
      Tracks R step spec s' (spec t a).1 as

variable {R : σ → τ → Prop} {step : σ → α → Option (σ × β)} {spec : τ → α → τ × β}

theorem Tracks.rel {s : σ} {t : τ} {as : List α} (h : Tracks R step spec s t as) : R s t := by
  cases as with
  | nil => exact h
  | cons a as => exact h.1

theorem Tracks.next {s s' : σ} {t : τ} {a : α} {as : List α} {b : β} (h : Tracks R step spec s t (a :: as))
    (hs : step s a = some (s', b)) : b = (spec t a).2 ∧ Tracks R step spec s' (spec t a).1 as := by
  obtain ⟨-, s'', h1, h2⟩ := h
  rw [hs, Option.some.injEq, Prod.mk.injEq] at h1
  obtain ⟨rfl, rfl⟩ := h1
  exact ⟨rfl, h2⟩

end Tracks

/-! ## Counting threads -/

section Threads

variable {ι τ : Type*} [Fintype ι]

/-- **One thread moves.** A count over the threads changes by what the thread that
moves contributes. -/
theorem sum_update [DecidableEq ι] (w : τ → ℕ) (f : ι → τ) (i : ι) (t : τ) :
    ∑ j, w (Function.update f i t j) + w (f i) = ∑ j, w (f j) + w t := by
  have h1 : ∀ g : ι → τ, ∑ j, w (g j) = w (g i) + ∑ j ∈ Finset.univ.erase i, w (g j) := fun g =>
    (Finset.add_sum_erase _ (fun j => w (g j)) (Finset.mem_univ i)).symm
  have h2 : ∑ j ∈ Finset.univ.erase i, w (Function.update f i t j) =
      ∑ j ∈ Finset.univ.erase i, w (f j) :=
    Finset.sum_congr rfl fun j hj => by rw [Function.update_of_ne (Finset.ne_of_mem_erase hj)]
  rw [h1 (Function.update f i t), h1 f, h2, Function.update_self]
  omega

theorem le_sum (w : τ → ℕ) (f : ι → τ) (i : ι) : w (f i) ≤ ∑ j, w (f j) :=
  Finset.single_le_sum (f := fun j => w (f j)) (fun _ _ => Nat.zero_le _) (Finset.mem_univ i)

/-- Two threads contribute at most the whole count. -/
theorem pair_le_sum [DecidableEq ι] (w : τ → ℕ) (f : ι → τ) {i j : ι} (hij : i ≠ j) :
    w (f i) + w (f j) ≤ ∑ k, w (f k) := by
  rw [← Finset.sum_pair (f := fun k => w (f k)) hij]
  exact Finset.sum_le_sum_of_subset (Finset.subset_univ _)

end Threads

end HookKernel.Lib
