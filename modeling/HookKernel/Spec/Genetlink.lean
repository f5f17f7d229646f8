import HookKernel.Lib.Buffer
import HookKernel.Spec.Registry

/-!
# Requests by netlink (`kernel/kprobe_genetlink.c`, lines 10 to 13 and 65 to 98)

A request carries the attribute `HOOK_A_FUNC_NAME`, a payload of bytes. The policy is
checked before the handler runs; a handler copies the whole payload into a zeroed
`func_name[52]` and passes that on as a C string.

The meaning of a policy entry lies in the kernel: `nulStringOk` is its rule for
`NLA_NUL_STRING`.
-/

namespace HookKernel

open Lib

/-- `attrlen`, not counting one trailing NUL. -/
def trimmedLen (payload : List UInt8) : ℕ :=
  if payload.getLast? = some 0 then payload.length - 1 else payload.length

/-- The rule for `NLA_NUL_STRING` with `.len = len`. -/
def nulStringOk (len : ℕ) (payload : List UInt8) : Prop :=
  0 ∈ payload.take (min payload.length (len + 1)) ∧ 1 ≤ trimmedLen payload ∧ trimmedLen payload ≤ len

instance (len : ℕ) (payload : List UInt8) : Decidable (nulStringOk len payload) :=
  inferInstanceAs (Decidable (_ ∧ _))

/-- `policy[HOOK_A_FUNC_NAME]`. -/
def policyFuncName : List UInt8 → Prop := nulStringOk 52

instance (payload : List UInt8) : Decidable (policyFuncName payload) :=
  inferInstanceAs (Decidable (nulStringOk 52 payload))

/-- The string of an attribute. -/
def attrString (payload : List UInt8) : List UInt8 := cstr (· == 0) payload

/-- `func_name` after the `memcpy` of `nla_len(nla)` bytes; `none` if it leaves `func_name`. -/
def copyFuncName (payload : List UInt8) : Option (List UInt8) :=
  copyInto (List.replicate 52 0) 0 payload payload.length

/-- The C string in `func_name`; `none` if reading it leaves `func_name`. -/
def funcNameString (funcName : List UInt8) : Option (List UInt8) :=
  if 0 ∈ funcName then some (cstr (· == 0) funcName) else none

/-- `do_hook_register`: it returns 0, whatever `do_kprobe_register` returns. -/
def doHookRegister (fuel : ℕ) (r : Registry) (funcNameAttr : Option (List UInt8)) (env : KprobeEnv) :
    Option (Registry × ℤ) :=
  match funcNameAttr with
  | none => some (r, 0)
  | some payload =>
    (copyFuncName payload).bind fun funcName =>
    (funcNameString funcName).bind fun name =>
    (doKprobeRegister fuel r name env).map fun p => (p.1, 0)

/-- `do_hook_unregister`. -/
def doHookUnregister (fuel : ℕ) (r : Registry) (funcNameAttr : Option (List UInt8)) : Option (Registry × ℤ) :=
  match funcNameAttr with
  | none => some (r, 0)
  | some payload =>
    (copyFuncName payload).bind fun funcName =>
    (funcNameString funcName).bind fun name =>
    (doKprobeUnregister fuel r name).map fun r' => (r', 0)

/-- **The name copy is protected**: it stays inside `func_name` and leaves it terminated, and the
registry gets exactly the attribute's string. -/
structure NameProtected (payload : List UInt8) : Prop where
  copied : ∃ funcName, copyFuncName payload = some funcName ∧ funcName.length = 52 ∧ 0 ∈ funcName
  register : ∀ fuel r env, doHookRegister fuel r (some payload) env =
    (doKprobeRegister fuel r (attrString payload) env).map fun p => (p.1, 0)
  unregister : ∀ fuel r, doHookUnregister fuel r (some payload) =
    (doKprobeUnregister fuel r (attrString payload)).map fun r' => (r', 0)

end HookKernel
