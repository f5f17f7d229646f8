import HookKernel.Lib.ListHead
import Mathlib.Data.Int.Notation

/-!
# The probe registry (`kernel/kretprobe_time.c`)

`func_name_list` is a kernel list of `kprobe_obj_node`s, each with the name of a
hooked function and its `kretprobe`. `do_kprobe_register` and
`do_kprobe_unregister` are called with the names that arrive by netlink.

The state also has `live`, the kretprobes that are registered with the kernel.
A call of `do_kprobe_register` carries what the kernel contributes: the fresh
addresses, what the fresh node's links happen to hold, and the result of
`register_kretprobe`. Loops over the list run for at most `fuel` entries.
-/

namespace HookKernel

open Lib

/-- `struct kprobe_obj_node` without its `node`. -/
structure KprobeObj where
  fName : List UInt8
  retprobe : ℕ

/-- The registry: the heap, the address of `func_name_list`, the entries by the
address of their `node`, and the live kretprobes. -/
structure Registry where
  heap : Heap
  funcNameList : ℕ
  objs : ℕ → Option KprobeObj
  live : List ℕ

/-- `strcmp` on the bytes before the terminating NUL. -/
def strcmp : List UInt8 → List UInt8 → ℤ
  | [], [] => 0
  | [], b :: _ => -(b.toNat : ℤ)
  | a :: _, [] => a.toNat
  | a :: as, b :: bs => if a = b then strcmp as bs else (a.toNat : ℤ) - b.toNat

/-- The loop of `func_name_in_list` from `pos` on: it returns the first entry for
which `strcmp` is not 0. -/
def lookupFrom (r : Registry) (fName : List UInt8) : ℕ → ℕ → Option (Option ℕ)
  | 0, _ => none
  | fuel + 1, pos =>
    if pos = r.funcNameList then some none
    else (r.objs pos).bind fun obj =>
      if strcmp fName obj.fName ≠ 0 then some (some pos)
      else (r.heap pos).bind fun n => lookupFrom r fName fuel n.next

/-- `func_name_in_list`. -/
def funcNameInList (fuel : ℕ) (r : Registry) (fName : List UInt8) : Option (Option ℕ) :=
  (r.heap r.funcNameList).bind fun n => lookupFrom r fName fuel n.next

/-- What the kernel contributes to a registration. -/
structure KprobeEnv where
  /-- the result of `register_kretprobe` -/
  ret : ℤ
  /-- the address of the fresh `kretprobe` -/
  kret : ℕ
  /-- the address of the fresh `kprobe_obj_node` -/
  obj : ℕ
  /-- what the links of the fresh node hold -/
  links : ListHead

/-- The outcome of a registration: what it returns, and whether it called
`register_kretprobe`. -/
structure RegisterOut where
  ret : ℤ
  tried : Bool
deriving DecidableEq

/-- `do_kprobe_register`: `list_add(&func_name_list, &obj->node)`, in this order of
the arguments. -/
def doKprobeRegister (fuel : ℕ) (r : Registry) (fName : List UInt8) (env : KprobeEnv) :
    Option (Registry × RegisterOut) :=
  (funcNameInList fuel r fName).bind fun found =>
    match found with
    | some _ => some (r, ⟨0, false⟩)
    | none =>
      if env.ret = 0 then
        (listAdd r.funcNameList env.obj (r.heap.put env.obj env.links)).map fun h =>
          ({ r with
              heap := h
              objs := Function.update r.objs env.obj (some ⟨fName, env.kret⟩)
              live := env.kret :: r.live }, ⟨env.ret, true⟩)
      else some (r, ⟨env.ret, true⟩)

/-- `do_kprobe_unregister`: unlink, unregister and free the entry found. -/
def doKprobeUnregister (fuel : ℕ) (r : Registry) (fName : List UInt8) : Option Registry :=
  (funcNameInList fuel r fName).bind fun found =>
    match found with
    | none => some r
    | some p =>
      (r.objs p).bind fun obj =>
      (listDel p r.heap).map fun h =>
        { r with
            heap := Function.update h p none
            objs := Function.update r.objs p none
            live := r.live.erase obj.retprobe }

/-- A request. -/
inductive RegCall
  | register (fName : List UInt8) (env : KprobeEnv)
  | unregister (fName : List UInt8)

/-- One request; a registration returns its outcome. -/
def Registry.call (fuel : ℕ) (r : Registry) : RegCall → Option (Registry × Option RegisterOut)
  | .register fName env => (doKprobeRegister fuel r fName env).map fun p => (p.1, some p.2)
  | .unregister fName => (doKprobeUnregister fuel r fName).map fun r' => (r', none)

/-- An entry of the specification: the name, its node and its kretprobe. -/
structure RegEntry where
  fName : List UInt8
  node : ℕ
  retprobe : ℕ

/-- The specification: the set of registered names, each with its entry. Registering
a present name does nothing and returns 0; an absent one is tried. -/
def registrySpec (es : List RegEntry) : RegCall → List RegEntry × Option RegisterOut
  | .register fName env =>
    if fName ∈ es.map RegEntry.fName then (es, some ⟨0, false⟩)
    else if env.ret = 0 then (⟨fName, env.obj, env.kret⟩ :: es, some ⟨env.ret, true⟩)
    else (es, some ⟨env.ret, true⟩)
  | .unregister fName => (es.filter fun e => e.fName ≠ fName, none)

/-- The registry implements the set `es`: the list holds exactly its entries, the
live kretprobes are theirs, and looking a name up finds its entry, or `NULL`. -/
structure Registry.Holds (fuel : ℕ) (r : Registry) (es : List RegEntry) : Prop where
  visits : ∃ xs, Visits r.heap r.funcNameList xs ∧ xs.Perm (es.map RegEntry.node)
  entries : ∀ e ∈ es, r.objs e.node = some ⟨e.fName, e.retprobe⟩
  names : (es.map RegEntry.fName).Nodup
  live : r.live.Perm (es.map RegEntry.retprobe)
  lookup : ∀ fName, funcNameInList fuel r fName =
    some ((es.find? fun e => e.fName = fName).map RegEntry.node)

/-- The registry at module load: `LIST_HEAD(func_name_list)`. -/
def Registry.init (heap : Heap) (funcNameList : ℕ) : Registry :=
  ⟨initListHead funcNameList heap, funcNameList, fun _ => none, []⟩

end HookKernel
