import HookKernel.Spec.Genetlink

/-!
# The policy and the name copy

The policy does not count a trailing NUL, so it lets 53 bytes through: a name of 52
characters with its NUL. `func_name` holds 52.

* `copyFuncName_fits`: a payload of at most 52 bytes is copied as it is.
* `name_protected_iff`: the copy is protected exactly if the payload has at most 52 bytes.
-/

namespace HookKernel

open Lib

variable {payload : List UInt8}

theorem nul_mem_of_policy (h : policyFuncName payload) : 0 ∈ payload := List.mem_of_mem_take h.1

/-- **A payload that fits** is copied, and the rest of `func_name` stays zero. -/
theorem copyFuncName_fits (h : payload.length ≤ 52) :
    copyFuncName payload = some (payload ++ List.replicate (52 - payload.length) 0) := by
  have hcopy : copyInto ([] ++ List.replicate 52 0) 0 payload payload.length =
      some ([] ++ payload.take payload.length ++ List.replicate (52 - payload.length) 0) :=
    copyInto_filled (Nat.le_refl _) h
  rw [List.nil_append, List.nil_append, List.take_length] at hcopy
  exact hcopy

/-- A payload that does not fit is copied over the end. -/
theorem copyFuncName_overruns (h : 52 < payload.length) : copyFuncName payload = none := by
  apply copyInto_eq_none
  rw [List.length_replicate]
  omega

/-- What comes after a terminated string does not count. -/
theorem cstr_append_of_mem (h : 0 ∈ payload) (l : List UInt8) :
    cstr (· == 0) (payload ++ l) = cstr (· == 0) payload := by
  obtain ⟨before, after, rfl, hbefore⟩ := List.eq_append_cons_of_mem h
  have hne : ∀ b ∈ before, (b == 0) = false := by
    intro b hb
    rw [beq_eq_false_iff_ne]
    rintro rfl
    exact hbefore hb
  rw [List.append_assoc, List.cons_append, cstr_append hne rfl, cstr_append hne rfl]

theorem funcNameString_fits (h : policyFuncName payload) (k : ℕ) :
    funcNameString (payload ++ List.replicate k 0) = some (attrString payload) := by
  have hmem : 0 ∈ payload ++ List.replicate k 0 := List.mem_append_left _ (nul_mem_of_policy h)
  rw [funcNameString, if_pos hmem, cstr_append_of_mem (nul_mem_of_policy h)]
  rfl

/-- **The policy protects the name copy** exactly from payloads of at most 52 bytes. -/
theorem name_protected_iff (payload : List UInt8) (h : policyFuncName payload) :
    NameProtected payload ↔ payload.length ≤ 52 := by
  constructor
  · rintro ⟨⟨funcName, hcopy, -⟩, -, -⟩
    by_contra hlong
    rw [copyFuncName_overruns (by omega)] at hcopy
    cases hcopy
  · intro hle
    have hcopy := copyFuncName_fits hle
    have hname := funcNameString_fits h (52 - payload.length)
    refine ⟨⟨_, hcopy, ?_, List.mem_append_left _ (nul_mem_of_policy h)⟩, fun fuel r env => ?_, fun fuel r => ?_⟩
    · rw [List.length_append, List.length_replicate]
      omega
    · rw [doHookRegister, hcopy, Option.bind_some, hname, Option.bind_some]
    · rw [doHookUnregister, hcopy, Option.bind_some, hname, Option.bind_some]

/-- The payload `do_fork`, with its NUL and four bytes behind it. -/
def demoPayload : List UInt8 := [100, 111, 95, 102, 111, 114, 107, 0, 1, 2, 3, 4]

theorem name_protected_demo : policyFuncName demoPayload ∧ NameProtected demoPayload :=
  ⟨by decide, (name_protected_iff demoPayload (by decide)).2 (by decide)⟩

/-- A name of 52 characters with its NUL. -/
def longName : List UInt8 := List.replicate 52 97 ++ [0]

/-- **A name of 52 characters passes the policy and overruns `func_name`.** -/
theorem long_name_overruns : policyFuncName longName ∧ copyFuncName longName = none ∧ ¬ NameProtected longName := by
  have hnone : copyFuncName longName = none := copyFuncName_overruns (by decide)
  refine ⟨by decide, hnone, ?_⟩
  rintro ⟨⟨funcName, hcopy, -⟩, -, -⟩
  rw [hnone] at hcopy
  cases hcopy

end HookKernel
