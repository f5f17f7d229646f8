import HookKernel.Lib.Memory
import HookKernel.Lib.Run

/-!
# The syscall hooks (`syscall_hook.c`)

`load_module` redirects 18 entries of the system call table and one direct call in
`do_exit` to functions of the module, and `unload_module` puts the old values back.

The three functions that search and patch work on a memory image. The two that call
them are lists of statements, so that other CPUs can run between any two; a store
with write protection on, or outside the mapped memory, has no result. The addresses
that `/proc/kallsyms` gives and those of the hooks are part of `Env`. The rest of the
module (its tables, threads and netlink family) is not in the repository.
-/

namespace HookKernel

open Lib

/-! ## Searching and patching -/

/-- The displacement of the call whose operand is at `s`. -/
def callOffset (mem : Image) (s : Addr) : Addr := (readLE mem 4 s).signExtend 64

/-- The loop of `get_api_call_addr` with `range` rounds left. -/
def findCall (mem : Image) (api : Addr) : ℕ → Addr → Addr
  | 0, _ => 0
  | range + 1, pos =>
    if mem pos = 0xe8 then
      let dest := pos + 5 + callOffset mem (pos + 1)
      if dest = api then pos + 1 else findCall mem api range (pos + 1)
    else findCall mem api range (pos + 1)

/-- `get_api_call_addr`. -/
def getApiCallAddr (mem : Image) (parentApiAddr apiAddr : Addr) (range : ℤ) : Addr :=
  findCall mem apiAddr range.toNat parentApiAddr

/-- The 32 bits that `set_call_addr` stores. -/
def newOffset (callAddr apiAddr : Addr) : BitVec (8 * 4) := (apiAddr - callAddr - 4).setWidth 32

/-- `set_call_addr`. -/
def setCallAddr (mem : Image) (callAddr apiAddr : Addr) : Image := writeLE mem 4 callAddr (newOffset callAddr apiAddr)

/-- The address of `syscall[id]`. -/
def entryAddr (syscall : Addr) (id : ℕ) : Addr := syscall + BitVec.ofNat 64 (8 * id)

/-- `set_hook`: what it returns, and the memory it leaves. -/
def setHook (mem : Image) (syscall : Addr) (id : ℕ) (hookfunc : Addr) : Addr × Image :=
  (readLE mem 8 (entryAddr syscall id), writeLE mem 8 (entryAddr syscall id) hookfunc)

/-! ## The module -/

/-- The hooked system calls. -/
inductive Hook
  | sysClose
  | sysWrite
  | sysSendto
  | sysSendfile
  | sysRead
  | sysUnlink
  | sysUnlinkat
  | sysLink
  | sysLinkat
  | sysRename
  | sysRenameat
  | sysRenameat2
  | sysSplice
  | sysKill
  | sysCreat
  | sysOpen
  | sysOpenat
  | sysWritev
deriving DecidableEq

/-- The order of `load_module`. -/
def loadOrder : List Hook :=
  [.sysClose, .sysWrite, .sysSendto, .sysSendfile, .sysRead, .sysUnlink, .sysUnlinkat, .sysLink, .sysLinkat,
    .sysRename, .sysRenameat, .sysRenameat2, .sysSplice, .sysKill, .sysCreat, .sysOpen, .sysOpenat, .sysWritev]

/-- The hooks that `unload_module` takes out before the call in `do_exit`, and those after it. -/
def unloadFirst : List Hook :=
  [.sysRead, .sysWrite, .sysSendto, .sysSendfile, .sysClose, .sysUnlink, .sysUnlinkat, .sysLink, .sysLinkat,
    .sysRename, .sysRenameat, .sysRenameat2]

def unloadLast : List Hook := [.sysSplice, .sysKill, .sysCreat, .sysOpen, .sysOpenat, .sysWritev]

/-- What the module is loaded into. -/
structure Env where
  sysCallTable : Addr
  doExit : Addr
  profileTaskExit : Addr
  /-- the system call numbers `__NR_...` -/
  nr : Hook → ℕ
  /-- the functions `cs_...` of the module -/
  cs : Hook → Addr
  csProfileTaskExit : Addr
  mapped : Addr → Bool

/-- The memory, the write protection of the CPU that loads the module, and its variables. -/
structure Kernel where
  mem : Image
  writeProtect : Bool
  /-- `old_read`, `old_write`, ... -/
  old : Hook → Addr
  oldProfileTaskExit : Addr
  profileTaskExitCallAddr : Addr
  syscall : Addr
  /-- `oldfunc` of `set_hook` -/
  oldfunc : Addr

/-- What is stored: the address of the hook, or the value saved. -/
inductive Src
  | hook
  | old
deriving DecidableEq

inductive Stmt
  /-- `old_profile_task_exit = ...` -/
  | findProfileTaskExit
  /-- `profile_task_exit_call_addr = get_api_call_addr(...)` -/
  | findCallAddr
  /-- `syscall = ...` -/
  | findTable
  /-- `set_cr0(get_cr0() & ~CR0_WRITE_PROTECT)` -/
  | unprotect
  /-- `set_cr0(get_cr0() | CR0_WRITE_PROTECT)` -/
  | protect
  /-- `*(int32_t *)call_addr = offset` -/
  | storeCall (v : Src)
  /-- `oldfunc = syscall[syscall_id]` -/
  | readEntry (h : Hook)
  /-- `syscall[syscall_id] = hookfunc` -/
  | storeEntry (h : Hook) (v : Src)
  /-- `old_... = ` what `set_hook` returned -/
  | assign (h : Hook)
deriving DecidableEq

namespace Env

variable (e : Env)

/-- The address of the entry of a hooked system call. -/
def entry (h : Hook) : Addr := entryAddr e.sysCallTable (e.nr h)

/-- The bytes are mapped. -/
def Mapped (n : ℕ) (a : Addr) : Prop := ∀ i < n, e.mapped (a + BitVec.ofNat 64 i) = true

instance (n : ℕ) (a : Addr) : Decidable (e.Mapped n a) := inferInstanceAs (Decidable (∀ i < n, _))

/-- A store of `n` bytes. -/
def store (k : Kernel) (n : ℕ) (a : Addr) (v : BitVec (8 * n)) : Option Kernel :=
  if k.writeProtect = false ∧ e.Mapped n a then some { k with mem := writeLE k.mem n a v } else none

/-- The function address that a hook's store puts into the table. -/
def src (k : Kernel) (h : Hook) : Src → Addr
  | .hook => e.cs h
  | .old => k.old h

def srcCall (k : Kernel) : Src → Addr
  | .hook => e.csProfileTaskExit
  | .old => k.oldProfileTaskExit

def exec (k : Kernel) : Stmt → Option Kernel
  | .findProfileTaskExit => some { k with oldProfileTaskExit := e.profileTaskExit }
  | .findCallAddr =>
    some { k with profileTaskExitCallAddr := getApiCallAddr k.mem e.doExit k.oldProfileTaskExit 0x100 }
  | .findTable => some { k with syscall := e.sysCallTable }
  | .unprotect => some { k with writeProtect := false }
  | .protect => some { k with writeProtect := true }
  | .storeCall v =>
    e.store k 4 k.profileTaskExitCallAddr (newOffset k.profileTaskExitCallAddr (e.srcCall k v))
  | .readEntry h => some { k with oldfunc := readLE k.mem 8 (entryAddr k.syscall (e.nr h)) }
  | .storeEntry h v => e.store k 8 (entryAddr k.syscall (e.nr h)) (e.src k h v)
  | .assign h => some { k with old := Function.update k.old h k.oldfunc }

end Env

/-- The statements of `set_call_addr`. -/
def setCallAddrStmts (v : Src) : List Stmt := [.unprotect, .storeCall v, .protect]

/-- The statements of `set_hook`. -/
def setHookStmts (h : Hook) (v : Src) : List Stmt := [.readEntry h, .unprotect, .storeEntry h v, .protect]

def loadModule : List Stmt :=
  [.findProfileTaskExit, .findCallAddr] ++ setCallAddrStmts .hook ++ [.findTable] ++
    loadOrder.flatMap fun h => setHookStmts h .hook ++ [.assign h]

def unloadModule : List Stmt :=
  unloadFirst.flatMap (setHookStmts · .old) ++ setCallAddrStmts .old ++ unloadLast.flatMap (setHookStmts · .old)

/-! ## Other CPUs -/

/-- A hook: of a system call, or of the call in `do_exit`. -/
inductive Callee
  | sys (h : Hook)
  | exit
deriving DecidableEq

/-- The module being loaded while other CPUs run. -/
structure Loading where
  kernel : Kernel
  /-- the statements of `load_module` that are left -/
  todo : List Stmt
  /-- hooks that other CPUs are in and have not forwarded -/
  inside : List Callee
  /-- the calls forwarded, with the address they went to (ghost) -/
  forwarded : List (Callee × Addr)

inductive LoadAct
  /-- the next statement of `load_module` -/
  | load
  /-- a system call -/
  | syscall (h : Hook)
  /-- a task exits and executes what is at offset `i` of `do_exit` -/
  | exit (i : ℕ)
  /-- a hook calls what its `old_` pointer holds -/
  | forward (c : Callee)
deriving DecidableEq

/-- `old_...` of a hook. -/
def Kernel.oldOf (k : Kernel) : Callee → Addr
  | .sys h => k.old h
  | .exit => k.oldProfileTaskExit

/-- Just before the module is loaded: its variables are zero. -/
def Loading.init (mem : Image) : Loading where
  kernel :=
    { mem := mem, writeProtect := true, old := fun _ => 0, oldProfileTaskExit := 0, profileTaskExitCallAddr := 0
      syscall := 0, oldfunc := 0 }
  todo := loadModule
  inside := []
  forwarded := []

/-- One statement of the loader, or one step of another CPU. A call that does not lead to a hook
changes nothing here. -/
def Loading.step (e : Env) (s : Loading) : LoadAct → Option Loading
  | .load =>
    match s.todo with
    | [] => none
    | st :: todo => (e.exec s.kernel st).map fun k => { s with kernel := k, todo := todo }
  | .syscall h =>
    if readLE s.kernel.mem 8 (e.entry h) = e.cs h then some { s with inside := .sys h :: s.inside } else some s
  | .exit i =>
    let pos := e.doExit + BitVec.ofNat 64 i
    if i < 0x100 ∧ s.kernel.mem pos = 0xe8 ∧ pos + 5 + callOffset s.kernel.mem (pos + 1) = e.csProfileTaskExit then
      some { s with inside := .exit :: s.inside }
    else some s
  | .forward c =>
    if c ∈ s.inside then
      some { s with inside := s.inside.erase c, forwarded := s.forwarded ++ [(c, s.kernel.oldOf c)] }
    else none

end HookKernel
