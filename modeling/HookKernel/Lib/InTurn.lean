import Mathlib.Data.List.Flatten
import Mathlib.Data.Nat.Notation

/-!
# Names tried in turn

A worker goes through a list of names. It tries the first one until a result comes
that does not ask for another try, and only then goes on to the next.

* `Turns again ns log rest`: the worker started with `ns`, made the calls `log` and
  still has `rest` to do.
* `InTurn again ns log`: the calls are blocks, one for each name of a prefix of `ns`;
  in every block but the last exactly the last result is final.
* `Turns.inTurn`: at any moment the calls so far are in turn.
-/

namespace HookKernel.Lib

variable {N R : Type*} {again : R → Prop} {ns rest : List N} {log : List (N × R)}

/-- The calls for the names, a block of results for each. -/
def calls (ns : List N) (blocks : List (List R)) : List (N × R) :=
  (ns.zip blocks).flatMap fun p => p.2.map (Prod.mk p.1)

/-- At least one try, and every one but the last asked for another. -/
structure Tried (again : R → Prop) (rs : List R) : Prop where
  ne : rs ≠ []
  retry : ∀ r ∈ rs.dropLast, again r

/-- The last try is final. -/
structure Finished (again : R → Prop) (rs : List R) : Prop extends Tried again rs where
  final : ∀ r, rs.getLast? = some r → ¬ again r

/-- **The names are tried in turn**: none is skipped, and none is tried again after a
final result. -/
def InTurn (again : R → Prop) (ns : List N) (log : List (N × R)) : Prop :=
  ∃ blocks : List (List R), blocks.length ≤ ns.length ∧ log = calls ns blocks ∧
    (∀ rs ∈ blocks, Tried again rs) ∧ ∀ rs ∈ blocks.dropLast, Finished again rs

/-- The worker, with the names it has left. -/
inductive Turns (again : R → Prop) (ns : List N) : List (N × R) → List N → Prop
  | start : Turns again ns [] ns
  | retry {log : List (N × R)} {n : N} {rest : List N} {r : R} : Turns again ns log (n :: rest) → again r →
      Turns again ns (log ++ [(n, r)]) (n :: rest)
  | next {log : List (N × R)} {n : N} {rest : List N} {r : R} : Turns again ns log (n :: rest) → ¬ again r →
      Turns again ns (log ++ [(n, r)]) rest

theorem calls_append {done : List N} {blocks : List (List R)} (h : done.length = blocks.length) (rest : List N)
    (more : List (List R)) : calls (done ++ rest) (blocks ++ more) = calls done blocks ++ calls rest more := by
  unfold calls
  rw [List.zip_append h, List.flatMap_append]

theorem calls_single (n : N) (rest : List N) (rs : List R) : calls (n :: rest) [rs] = rs.map (Prod.mk n) := by
  simp [calls]

theorem calls_nil (ns : List N) : calls ns ([] : List (List R)) = [] := by
  simp [calls]

/-- A final result after tries that were not. -/
theorem finished_concat {rs : List R} {r : R} (h : ∀ r ∈ rs, again r) (hr : ¬ again r) : Finished again (rs ++ [r]) where
  ne := by simp
  retry := by simpa using h
  final := by
    intro r' hr'
    rw [List.getLast?_concat, Option.some.injEq] at hr'
    subst hr'
    exact hr

/-- The names done, with their results, and the tries so far for the next name. -/
structure Progress (again : R → Prop) (ns rest : List N) (log : List (N × R)) (done : List N)
    (blocks : List (List R)) (cur : List R) : Prop where
  names : ns = done ++ rest
  length : done.length = blocks.length
  finished : ∀ rs ∈ blocks, Finished again rs
  retry : ∀ r ∈ cur, again r
  idle : rest = [] → cur = []
  log : log = calls done blocks ++ rest.head?.toList.flatMap fun n => cur.map (Prod.mk n)

theorem Turns.progress (h : Turns again ns log rest) : ∃ done blocks cur, Progress again ns rest log done blocks cur := by
  induction h with
  | start => exact ⟨[], [], [], ⟨rfl, rfl, by simp, by simp, fun _ => rfl, by simp [calls_nil]⟩⟩
  | @retry log n rest r _ hr ih =>
    obtain ⟨done, blocks, cur, hp⟩ := ih
    refine ⟨done, blocks, cur ++ [r], ⟨hp.names, hp.length, hp.finished, ?_, by simp, ?_⟩⟩
    · intro r' hr'
      rcases List.mem_append.1 hr' with h1 | h1
      · exact hp.retry r' h1
      · rw [List.mem_singleton.1 h1]
        exact hr
    · rw [hp.log]
      simp
  | @next log n rest r _ hr ih =>
    obtain ⟨done, blocks, cur, hp⟩ := ih
    refine ⟨done ++ [n], blocks ++ [cur ++ [r]], [], ⟨?_, ?_, ?_, by simp, fun _ => rfl, ?_⟩⟩
    · rw [hp.names, List.append_assoc, List.singleton_append]
    · simp [hp.length]
    · intro rs hrs
      rcases List.mem_append.1 hrs with h1 | h1
      · exact hp.finished rs h1
      · rw [List.mem_singleton.1 h1]
        exact finished_concat hp.retry hr
    · rw [hp.log, calls_append hp.length, calls_single]
      simp

/-- **The calls so far are in turn.** -/
theorem Turns.inTurn (h : Turns again ns log rest) : InTurn again ns log := by
  obtain ⟨done, blocks, cur, hp⟩ := h.progress
  have hlog := hp.log
  have hlen := hp.length
  by_cases hcur : cur = []
  · -- between two names
    refine ⟨blocks, ?_, ?_, fun rs hrs => (hp.finished rs hrs).toTried,
      fun rs hrs => hp.finished rs (List.dropLast_subset _ hrs)⟩
    · rw [hp.names, List.length_append]
      omega
    · have h1 := calls_append hlen rest []
      rw [List.append_nil, calls_nil, List.append_nil] at h1
      rw [hp.names, h1, hlog, hcur]
      simp
  · cases rest with
    | nil => exact absurd (hp.idle rfl) hcur
    | cons n rest =>
      refine ⟨blocks ++ [cur], ?_, ?_, ?_, ?_⟩
      · rw [hp.names]
        simp only [List.length_append, List.length_cons, List.length_nil]
        omega
      · rw [hp.names, calls_append hlen, calls_single, hlog]
        simp
      · intro rs hrs
        rcases List.mem_append.1 hrs with h1 | h1
        · exact (hp.finished rs h1).toTried
        · rw [List.mem_singleton.1 h1]
          exact ⟨hcur, fun r hr => hp.retry r (List.dropLast_subset _ hr)⟩
      · intro rs hrs
        rw [List.dropLast_concat] at hrs
        exact hp.finished rs hrs

end HookKernel.Lib
