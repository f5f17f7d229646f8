import HookKernel.Proof.CallSite

/-!
# Loading and unloading

What `load_module` patches, and what is left of it after `unload_module`.

* `Placed`: where a kernel puts its symbols.
* `hooks_run`: hooking a list of system calls saves and replaces their entries and
  touches nothing else.
* `load_run`, `unload_run`: the state after each of the two.
* `unload_undoes_load`: unloading restores the memory exactly if the call was found.
* `null_patched`: a kernel without the call, in which address 0 is patched.
-/

namespace HookKernel

open Lib

variable {e : Env} {k k' : Kernel} {h : Hook} {v : Src}

/-- **A kernel that the module can be loaded into**: the system call numbers are distinct, the
table and the beginning of `do_exit` are mapped and have no byte in common, and the table is
not at address 0. -/
structure Placed (e : Env) : Prop where
  nr_lt : ∀ h, e.nr h < 2 ^ 31
  nr_inj : ∀ h h', e.nr h = e.nr h' → h = h'
  table : ∀ h, e.Mapped 8 (e.entry h)
  text : e.Mapped 0x104 e.doExit
  apart : ∀ h, Apart (e.entry h) 8 e.doExit 0x104
  null : ∀ h, Apart (e.entry h) 8 0 4

/-! ## Single functions -/

theorem Env.store_eq {n : ℕ} {a : Addr} {w : BitVec (8 * n)} (hwp : k.writeProtect = false) (hm : e.Mapped n a) :
    e.store k n a w = some { k with mem := writeLE k.mem n a w } := if_pos ⟨hwp, hm⟩

theorem Env.store_none {n : ℕ} {a : Addr} {w : BitVec (8 * n)} (hm : ¬ e.Mapped n a) : e.store k n a w = none :=
  if_neg fun h => hm h.2

/-- The statements of `set_hook` do what it does. -/
theorem setHook_run (hm : e.Mapped 8 (entryAddr k.syscall (e.nr h))) (v : Src) :
    run e.exec k (setHookStmts h v) = some
      { k with
        oldfunc := (setHook k.mem k.syscall (e.nr h) (e.src k h v)).1
        mem := (setHook k.mem k.syscall (e.nr h) (e.src k h v)).2
        writeProtect := true } := by
  unfold setHookStmts
  simp only [run, Env.exec, Option.bind_some]
  rw [Env.store_eq rfl hm]
  cases v with
  | hook => rfl
  | old => rfl

/-- The statements of `set_call_addr` do what it does. -/
theorem setCallAddr_run (hm : e.Mapped 4 k.profileTaskExitCallAddr) (v : Src) :
    run e.exec k (setCallAddrStmts v) = some
      { k with
        mem := setCallAddr k.mem k.profileTaskExitCallAddr (e.srcCall k v)
        writeProtect := true } := by
  unfold setCallAddrStmts
  simp only [run, Env.exec, Option.bind_some]
  rw [Env.store_eq rfl hm]
  cases v with
  | hook => rfl
  | old => rfl

theorem setCallAddr_faults (hm : ¬ e.Mapped 4 k.profileTaskExitCallAddr) (v : Src) :
    run e.exec k (setCallAddrStmts v) = none := by
  unfold setCallAddrStmts
  simp only [run, Env.exec, Option.bind_some]
  rw [Env.store_none hm]
  rfl

/-- Different entries have no byte in common. -/
theorem Placed.entries_apart (hp : Placed e) {h h' : Hook} (hne : h ≠ h') : Apart (e.entry h) 8 (e.entry h') 8 := by
  intro x hx hx'
  obtain ⟨i, hi, rfl⟩ := inRange_iff.1 hx
  obtain ⟨j, hj, heq⟩ := inRange_iff.1 hx'
  have h1 := hp.nr_lt h
  have h2 := hp.nr_lt h'
  refine hne (hp.nr_inj h h' ?_)
  unfold Env.entry entryAddr at heq
  rw [BitVec.add_assoc, BitVec.add_assoc, BitVec.add_right_inj, ← BitVec.ofNat_add, ← BitVec.ofNat_add] at heq
  have hnat := congrArg BitVec.toNat heq
  rw [BitVec.toNat_ofNat, BitVec.toNat_ofNat] at hnat
  omega

/-! ## Many hooks -/

/-- **Entries replaced**: those of `l` hold `w`, and no other byte has changed. -/
structure Replaced (e : Env) (l : List Hook) (w : Hook → Addr) (mem mem' : Image) : Prop where
  entries : ∀ h ∈ l, readLE mem' 8 (e.entry h) = w h
  frame : ∀ x, (∀ h ∈ l, ¬ InRange (e.entry h) 8 x) → mem' x = mem x

theorem Replaced.nil (e : Env) (w : Hook → Addr) (mem : Image) : Replaced e [] w mem mem :=
  ⟨fun h hh => (by cases hh), fun _ _ => rfl⟩

theorem Replaced.other (hp : Placed e) {l : List Hook} {w : Hook → Addr} {mem mem' : Image} (hr : Replaced e l w mem mem')
    (hh : h ∉ l) : readLE mem' 8 (e.entry h) = readLE mem 8 (e.entry h) := by
  refine readLE_congr fun x hx => hr.frame x fun h' hh' hx' => ?_
  have hne : h ≠ h' := fun heq => hh (heq ▸ hh')
  exact hp.entries_apart hne x hx hx'

/-- One entry, and then those of `l`. -/
theorem Replaced.cons (hp : Placed e) {l : List Hook} {w : Hook → Addr} {mem mem' : Image} (hh : h ∉ l)
    (hr : Replaced e l w (setHook mem e.sysCallTable (e.nr h) (w h)).2 mem') : Replaced e (h :: l) w mem mem' := by
  refine ⟨fun h' hh' => ?_, fun x hx => ?_⟩
  · rcases List.mem_cons.1 hh' with rfl | hin
    · rw [hr.other hp hh]
      exact readLE_writeLE (by omega)
    · exact hr.entries h' hin
  · rw [hr.frame x fun h' hh' => hx h' (List.mem_cons_of_mem _ hh')]
    exact writeLE_of_not_mem (hx h List.mem_cons_self)

/-- The variables of the module other than the saved entries. -/
structure SameVars (k k' : Kernel) : Prop where
  oldProfileTaskExit : k'.oldProfileTaskExit = k.oldProfileTaskExit
  callAddr : k'.profileTaskExitCallAddr = k.profileTaskExitCallAddr
  syscall : k'.syscall = k.syscall

theorem SameVars.trans {k₁ k₂ k₃ : Kernel} (h : SameVars k₁ k₂) (h' : SameVars k₂ k₃) : SameVars k₁ k₃ :=
  ⟨h'.oldProfileTaskExit.trans h.oldProfileTaskExit, h'.callAddr.trans h.callAddr, h'.syscall.trans h.syscall⟩

theorem Placed.entry_mapped (hp : Placed e) (htab : k.syscall = e.sysCallTable) (h : Hook) :
    e.Mapped 8 (entryAddr k.syscall (e.nr h)) := by
  rw [htab]
  exact hp.table h

theorem hook_run (hp : Placed e) (htab : k.syscall = e.sysCallTable) (h : Hook) :
    ∃ k', run e.exec k (setHookStmts h .hook ++ [.assign h]) = some k' ∧ SameVars k k' ∧
      k'.mem = (setHook k.mem e.sysCallTable (e.nr h) (e.cs h)).2 ∧
      k'.old = Function.update k.old h (readLE k.mem 8 (e.entry h)) := by
  rw [run_append, setHook_run (hp.entry_mapped htab h) .hook, ← htab]
  refine ⟨_, rfl, ⟨rfl, rfl, rfl⟩, rfl, ?_⟩
  unfold Env.entry
  rw [← htab]
  rfl

/-- **Hooking**: the entries of `l` are saved and replaced, and nothing else is touched. -/
theorem hooks_run (hp : Placed e) {l : List Hook} (hnd : l.Nodup) (htab : k.syscall = e.sysCallTable) :
    ∃ k', run e.exec k (l.flatMap fun h => setHookStmts h .hook ++ [.assign h]) = some k' ∧ SameVars k k' ∧
      Replaced e l e.cs k.mem k'.mem ∧ ∀ h, k'.old h = if h ∈ l then readLE k.mem 8 (e.entry h) else k.old h := by
  induction l generalizing k with
  | nil => exact ⟨k, rfl, ⟨rfl, rfl, rfl⟩, .nil _ _ _, fun h => rfl⟩
  | cons h l ih =>
    obtain ⟨hh, hnd⟩ := List.nodup_cons.1 hnd
    obtain ⟨k₁, hrun₁, hvars₁, hmem₁, hold₁⟩ := hook_run hp htab h
    obtain ⟨k₂, hrun₂, hvars₂, hrep₂, hold₂⟩ := ih hnd (hvars₁.syscall.trans htab)
    refine ⟨k₂, ?_, hvars₁.trans hvars₂, ?_, fun h' => ?_⟩
    · rw [List.flatMap_cons, run_append, hrun₁]
      exact hrun₂
    · rw [hmem₁] at hrep₂
      exact .cons hp hh hrep₂
    · rw [hold₂ h', hold₁, hmem₁]
      rcases eq_or_ne h' h with rfl | hne
      · rw [if_neg hh, if_pos List.mem_cons_self, Function.update_self]
      · rw [Function.update_of_ne hne]
        by_cases hin : h' ∈ l
        · -- its entry is not the one just replaced
          rw [if_pos hin, if_pos (List.mem_cons_of_mem _ hin)]
          exact readLE_writeLE_of_apart (hp.entries_apart hne.symm)
        · rw [if_neg hin, if_neg (by simp [hne, hin])]

theorem unhook_run (hp : Placed e) (htab : k.syscall = e.sysCallTable) (h : Hook) :
    ∃ k', run e.exec k (setHookStmts h .old) = some k' ∧ SameVars k k' ∧ k'.old = k.old ∧
      k'.mem = (setHook k.mem e.sysCallTable (e.nr h) (k.old h)).2 := by
  rw [setHook_run (hp.entry_mapped htab h) .old, ← htab]
  exact ⟨_, rfl, ⟨rfl, rfl, rfl⟩, rfl, rfl⟩

/-- **Unhooking**: the entries of `l` get their saved values, and nothing else is touched. -/
theorem unhooks_run (hp : Placed e) {l : List Hook} (hnd : l.Nodup) (htab : k.syscall = e.sysCallTable) :
    ∃ k', run e.exec k (l.flatMap (setHookStmts · .old)) = some k' ∧ SameVars k k' ∧ k'.old = k.old ∧
      Replaced e l k.old k.mem k'.mem := by
  induction l generalizing k with
  | nil => exact ⟨k, rfl, ⟨rfl, rfl, rfl⟩, rfl, .nil _ _ _⟩
  | cons h l ih =>
    obtain ⟨hh, hnd⟩ := List.nodup_cons.1 hnd
    obtain ⟨k₁, hrun₁, hvars₁, hold₁, hmem₁⟩ := unhook_run hp htab h
    obtain ⟨k₂, hrun₂, hvars₂, hold₂, hrep₂⟩ := ih hnd (hvars₁.syscall.trans htab)
    refine ⟨k₂, ?_, hvars₁.trans hvars₂, hold₂.trans hold₁, ?_⟩
    · rw [List.flatMap_cons, run_append, hrun₁]
      exact hrun₂
    · rw [hmem₁, hold₁] at hrep₂
      exact .cons hp hh hrep₂

/-! ## The call site -/

/-- The call to `profile_task_exit` that `load_module` finds in `do_exit`, or 0. -/
def Env.callSite (e : Env) (mem : Image) : Addr := getApiCallAddr mem e.doExit e.profileTaskExit 0x100

/-- The first 256 bytes of `do_exit` contain a direct call to `profile_task_exit`. -/
def Env.CallFound (e : Env) (mem : Image) : Prop :=
  ∃ i < 0x100, CallsTo mem (e.doExit + BitVec.ofNat 64 i) e.profileTaskExit

instance (e : Env) (mem : Image) : Decidable (e.CallFound mem) :=
  inferInstanceAs (Decidable (∃ i < 0x100, CallsTo mem (e.doExit + BitVec.ofNat 64 i) e.profileTaskExit))

/-- Found or not, the site has no byte in common with the table. -/
theorem Placed.site_apart (hp : Placed e) (mem : Image) (h : Hook) : Apart (e.entry h) 8 (e.callSite mem) 4 := by
  rcases call_site mem e.doExit e.profileTaskExit 0x100 with ⟨i, hi, -, -, heq, -⟩ | ⟨-, heq⟩
  · intro x hx hx'
    refine hp.apart h x hx ?_
    unfold Env.callSite at hx'
    rw [heq] at hx'
    obtain ⟨j, hj, rfl⟩ := inRange_iff.1 hx'
    refine inRange_iff.2 ⟨i + 1 + j, ?_, ?_⟩
    · have : i < 0x100 := hi
      omega
    · rw [BitVec.ofNat_add, BitVec.ofNat_add, ← BitVec.add_assoc, ← BitVec.add_assoc]
      rfl
  · unfold Env.callSite
    rw [heq]
    exact hp.null h

theorem Placed.site_mapped (hp : Placed e) {mem : Image} (hc : e.CallFound mem) : e.Mapped 4 (e.callSite mem) := by
  obtain ⟨i₀, hi₀, hcall⟩ := hc
  rcases call_site mem e.doExit e.profileTaskExit 0x100 with ⟨i, hi, -, -, heq, -⟩ | ⟨hnone, -⟩
  · intro j hj
    have hi' : i < 0x100 := hi
    have hmap := hp.text (i + 1 + j) (by omega)
    rw [BitVec.ofNat_add, BitVec.ofNat_add, ← BitVec.add_assoc, ← BitVec.add_assoc] at hmap
    unfold Env.callSite
    rw [heq]
    exact hmap
  · exact absurd hcall (hnone i₀ hi₀)

/-! ## Both functions -/

/-- **Table and call patched**: the entries hold `w`, the operand of the call holds `o`, and no
other byte has changed. -/
structure Patched (e : Env) (site : Addr) (w : Hook → Addr) (o : BitVec (8 * 4)) (mem mem' : Image) : Prop where
  entries : ∀ h, readLE mem' 8 (e.entry h) = w h
  operand : readLE mem' 4 site = o
  frame : ∀ x, (∀ h, ¬ InRange (e.entry h) 8 x) → ¬ InRange site 4 x → mem' x = mem x

theorem mem_loadOrder (h : Hook) : h ∈ loadOrder := by cases h <;> decide

theorem mem_unload (h : Hook) : h ∈ unloadFirst ∨ h ∈ unloadLast := by cases h <;> decide

/-- An operand apart from the table is not changed with it. -/
theorem Replaced.operand {l : List Hook} {w : Hook → Addr} {mem mem' : Image} {site : Addr} (hr : Replaced e l w mem mem')
    (ha : ∀ h, Apart (e.entry h) 8 site 4) : readLE mem' 4 site = readLE mem 4 site :=
  readLE_congr fun x hx => hr.frame x fun h _ hx' => ha h x hx' hx

theorem find_run (e : Env) (k : Kernel) :
    run e.exec k [.findProfileTaskExit, .findCallAddr] = some
      { k with oldProfileTaskExit := e.profileTaskExit, profileTaskExitCallAddr := e.callSite k.mem } := rfl

/-- **`load_module`**, if the site found is mapped. -/
theorem load_run (hp : Placed e) (hm : e.Mapped 4 (e.callSite k.mem)) :
    ∃ k', run e.exec k loadModule = some k' ∧ k'.oldProfileTaskExit = e.profileTaskExit ∧
      k'.profileTaskExitCallAddr = e.callSite k.mem ∧ k'.syscall = e.sysCallTable ∧
      (∀ h, k'.old h = readLE k.mem 8 (e.entry h)) ∧
      Patched e (e.callSite k.mem) e.cs (newOffset (e.callSite k.mem) e.csProfileTaskExit) k.mem k'.mem := by
  -- the call is patched before the table
  obtain ⟨k₁, hrun₁, h1, h2, h3, hmem₁⟩ : ∃ k₁, run e.exec k
      ([.findProfileTaskExit, .findCallAddr] ++ setCallAddrStmts .hook ++ [.findTable]) = some k₁ ∧
      k₁.oldProfileTaskExit = e.profileTaskExit ∧ k₁.profileTaskExitCallAddr = e.callSite k.mem ∧
      k₁.syscall = e.sysCallTable ∧ k₁.mem = setCallAddr k.mem (e.callSite k.mem) e.csProfileTaskExit := by
    rw [run_append, run_append, find_run, Option.bind_some, setCallAddr_run hm .hook]
    exact ⟨_, rfl, rfl, rfl, rfl, rfl⟩
  obtain ⟨k₂, hrun₂, hvars, hrep, hold⟩ := hooks_run hp (l := loadOrder) (by decide) h3
  have hapart := hp.site_apart k.mem
  refine ⟨k₂, ?_, hvars.oldProfileTaskExit.trans h1, hvars.callAddr.trans h2, hvars.syscall.trans h3, fun h => ?_, ?_⟩
  · unfold loadModule
    rw [run_append, hrun₁, Option.bind_some, hrun₂]
  · rw [hold h, if_pos (mem_loadOrder h), hmem₁]
    exact readLE_writeLE_of_apart (hapart h).symm
  · refine ⟨fun h => hrep.entries h (mem_loadOrder h), ?_, fun x hx hx' => ?_⟩
    · rw [hrep.operand hapart, hmem₁]
      exact readLE_writeLE (by omega)
    · rw [hrep.frame x fun h _ => hx h, hmem₁]
      exact writeLE_of_not_mem hx'

/-- `load_module` faults if the site is not mapped. -/
theorem load_faults (hm : ¬ e.Mapped 4 (e.callSite k.mem)) : run e.exec k loadModule = none := by
  unfold loadModule
  rw [List.append_assoc, List.append_assoc, run_append, find_run, Option.bind_some, run_append, setCallAddr_faults hm .hook,
    Option.bind_none]

/-- **`unload_module`** after a load. -/
theorem unload_run (hp : Placed e) {site : Addr} (ha : ∀ h, Apart (e.entry h) 8 site 4) (hm : e.Mapped 4 site)
    (h1 : k.oldProfileTaskExit = e.profileTaskExit) (h2 : k.profileTaskExitCallAddr = site)
    (h3 : k.syscall = e.sysCallTable) :
    ∃ k', run e.exec k unloadModule = some k' ∧
      Patched e site k.old (newOffset site e.profileTaskExit) k.mem k'.mem := by
  obtain ⟨k₁, hrun₁, hvars₁, hold₁, hrep₁⟩ := unhooks_run hp (l := unloadFirst) (by decide) h3
  have hm₁ : e.Mapped 4 k₁.profileTaskExitCallAddr := by
    rw [hvars₁.callAddr, h2]
    exact hm
  have hcall := setCallAddr_run hm₁ .old
  obtain ⟨k₂, hk₂⟩ : ∃ k₂, k₂ = { k₁ with
      mem := setCallAddr k₁.mem k₁.profileTaskExitCallAddr (e.srcCall k₁ .old), writeProtect := true } := ⟨_, rfl⟩
  rw [← hk₂] at hcall
  have hmem₂ : k₂.mem = setCallAddr k₁.mem site e.profileTaskExit := by
    rw [hk₂]
    simp only [Env.srcCall]
    rw [hvars₁.callAddr, h2, hvars₁.oldProfileTaskExit, h1]
  have hold₂ : k₂.old = k.old := by
    rw [hk₂]
    exact hold₁
  have htab₂ : k₂.syscall = e.sysCallTable := by
    rw [hk₂]
    exact hvars₁.syscall.trans h3
  obtain ⟨k₃, hrun₃, -, -, hrep₃⟩ := unhooks_run hp (l := unloadLast) (by decide) htab₂
  rw [hold₂] at hrep₃
  refine ⟨k₃, ?_, fun h => ?_, ?_, fun x hx hx' => ?_⟩
  · unfold unloadModule
    rw [run_append, run_append, hrun₁, Option.bind_some, hcall, Option.bind_some, hrun₃]
  · rcases mem_unload h with hin | hin
    · -- restored before the call, and not touched since
      have hnot : h ∉ unloadLast := by
        revert hin
        cases h <;> decide
      rw [hrep₃.other hp hnot, hmem₂]
      unfold setCallAddr
      rw [readLE_writeLE_of_apart (ha h).symm]
      exact hrep₁.entries h hin
    · exact hrep₃.entries h hin
  · rw [hrep₃.operand ha, hmem₂]
    exact readLE_writeLE (by omega)
  · rw [hrep₃.frame x fun h _ => hx h, hmem₂]
    unfold setCallAddr
    rw [writeLE_of_not_mem hx']
    exact hrep₁.frame x fun h _ => hx h

/-! ## Unloading undoes loading -/

/-- **Unloading undoes loading**: both run; between them only the hooked entries and the operand of
a call to `profile_task_exit` found in `do_exit` differ from the original; and after them nothing
does. -/
def Undone (e : Env) (k : Kernel) : Prop :=
  ∃ k₁ k₂, run e.exec k loadModule = some k₁ ∧ run e.exec k₁ unloadModule = some k₂ ∧
    (∀ x, k₁.mem x ≠ k.mem x → (∃ h, InRange (e.entry h) 8 x) ∨
      ∃ i < 0x100, CallsTo k.mem (e.doExit + BitVec.ofNat 64 i) e.profileTaskExit ∧
        InRange (e.doExit + BitVec.ofNat 64 i + 1) 4 x) ∧
    k₂.mem = k.mem

/-- The four bytes at address 0 are mapped and hold what both patches store there. -/
def NullSame (e : Env) (mem : Image) : Prop :=
  e.Mapped 4 0 ∧ readLE mem 4 0 = newOffset 0 e.csProfileTaskExit ∧ readLE mem 4 0 = newOffset 0 e.profileTaskExit

instance (e : Env) (mem : Image) : Decidable (NullSame e mem) := inferInstanceAs (Decidable (_ ∧ _ ∧ _))

/-- The memory after both, if the site was mapped. -/
theorem undone_mem {site : Addr} {w : Hook → Addr} {o o' : BitVec (8 * 4)} {mem mem₁ mem₂ : Image}
    (h1 : Patched e site w o mem mem₁) (h2 : Patched e site (fun h => readLE mem 8 (e.entry h)) o' mem₁ mem₂) :
    mem₂ = mem ↔ readLE mem 4 site = o' := by
  constructor
  · rintro rfl
    exact h2.operand
  · intro ho
    funext x
    by_cases hx : ∃ h, InRange (e.entry h) 8 x
    · obtain ⟨h, hx⟩ := hx
      exact byte_of_readLE (h2.entries h) hx
    · push Not at hx
      by_cases hs : InRange site 4 x
      · exact byte_of_readLE (h2.operand.trans ho.symm) hs
      · rw [h2.frame x hx hs, h1.frame x hx hs]

/-- **Unloading undoes loading exactly if the call was found**, apart from kernels in which the
stores to address 0 change nothing. -/
theorem unload_undoes_load (e : Env) (hp : Placed e) (k : Kernel) :
    Undone e k ↔ e.CallFound k.mem ∨ NullSame e k.mem := by
  have hsite := call_site k.mem e.doExit e.profileTaskExit 0x100
  by_cases hm : e.Mapped 4 (e.callSite k.mem)
  swap
  · -- the store of the patch faults
    constructor
    · rintro ⟨k₁, -, hload, -⟩
      rw [load_faults hm] at hload
      cases hload
    · rintro (hc | hn)
      · exact absurd (hp.site_mapped hc) hm
      · rcases hsite with ⟨i, hi, hcall, -⟩ | ⟨-, heq⟩
        · exact absurd (hp.site_mapped ⟨i, hi, hcall⟩) hm
        · refine absurd ?_ hm
          unfold Env.callSite
          rw [heq]
          exact hn.1
  obtain ⟨k₁, hload, h1, h2, h3, hold, hpatch⟩ := load_run hp hm
  obtain ⟨k₂, hunload, hback⟩ := unload_run hp (hp.site_apart k.mem) hm h1 h2 h3
  rw [funext hold] at hback
  have hmem := undone_mem hpatch hback
  have hiff : Undone e k ↔ (∀ x, k₁.mem x ≠ k.mem x → (∃ h, InRange (e.entry h) 8 x) ∨
      ∃ i < 0x100, CallsTo k.mem (e.doExit + BitVec.ofNat 64 i) e.profileTaskExit ∧
        InRange (e.doExit + BitVec.ofNat 64 i + 1) 4 x) ∧ k₂.mem = k.mem := by
    constructor
    · rintro ⟨k₁', k₂', hload', hunload', hdiff, heq⟩
      obtain rfl : k₁ = k₁' := Option.some.inj (hload.symm.trans hload')
      obtain rfl : k₂ = k₂' := Option.some.inj (hunload.symm.trans hunload')
      exact ⟨hdiff, heq⟩
    · rintro ⟨hdiff, heq⟩
      exact ⟨k₁, k₂, hload, hunload, hdiff, heq⟩
  rw [hiff, hmem]
  rcases hsite with ⟨i, hi, hcall, -, heq, -⟩ | ⟨hnone, heq⟩
  · -- found: the operand is what `set_call_addr` stores
    refine iff_of_true ⟨fun x hx => ?_, ?_⟩ (Or.inl ⟨i, hi, hcall⟩)
    · by_contra hout
      push Not at hout
      refine hx (hpatch.frame x hout.1 ?_)
      unfold Env.callSite
      rw [heq]
      exact hout.2 i hi hcall
    · unfold Env.callSite
      rw [heq]
      exact hcall.offset.symm
  · -- not found: the four bytes at address 0 are patched
    have hzero : e.callSite k.mem = 0 := heq
    have hfound : ¬ e.CallFound k.mem := fun ⟨i, hi, hcall⟩ => hnone i hi hcall
    rw [or_iff_right hfound]
    rw [hzero] at hm hpatch hmem ⊢
    constructor
    · rintro ⟨hdiff, heq⟩
      refine ⟨hm, ?_, heq⟩
      rw [← hpatch.operand]
      refine (readLE_congr fun x hx => ?_).symm
      by_contra hne
      rcases hdiff x hne with ⟨h, hx'⟩ | ⟨i, hi, hcall, -⟩
      · exact hp.null h x hx' hx
      · exact hnone i hi hcall
    · rintro ⟨-, hcs, heq⟩
      refine ⟨fun x hx => ?_, heq⟩
      by_contra hout
      push Not at hout
      by_cases hx0 : InRange 0 4 x
      · exact hx (byte_of_readLE (hpatch.operand.trans hcs.symm) hx0)
      · exact hx (hpatch.frame x hout.1 hx0)

/-! ## Two kernels -/

/-- The numbers on x86-64. -/
def demoNr : Hook → ℕ
  | .sysRead => 0
  | .sysWrite => 1
  | .sysOpen => 2
  | .sysClose => 3
  | .sysWritev => 20
  | .sysSendfile => 40
  | .sysSendto => 44
  | .sysKill => 62
  | .sysRename => 82
  | .sysCreat => 85
  | .sysLink => 86
  | .sysUnlink => 87
  | .sysOpenat => 257
  | .sysUnlinkat => 263
  | .sysRenameat => 264
  | .sysLinkat => 265
  | .sysSplice => 275
  | .sysRenameat2 => 316

/-- A kernel in the upper half of the address space. -/
def demoKernel (null : Bool) : Env where
  sysCallTable := 0xffffffff81801400
  doExit := 0xffffffff81080000
  profileTaskExit := 0xffffffff81090000
  nr := demoNr
  cs := fun h => 0xffffffffa0000000 + BitVec.ofNat 64 (16 * demoNr h)
  csProfileTaskExit := 0xffffffffa0010000
  mapped := fun a => decide (0xffff800000000000 ≤ a.toNat) || (null && decide (a.toNat < 4096))

theorem demoKernel_placed (null : Bool) : Placed (demoKernel null) := by
  have hentry : ∀ h, 0xffffffff81801400 ≤ ((demoKernel null).entry h).toNat ∧
      ((demoKernel null).entry h).toNat + 8 ≤ 0xffffffff81803000 := by
    have hnr : ∀ h, 0xffffffff81801400 ≤ (entryAddr 0xffffffff81801400 (demoNr h)).toNat ∧
        (entryAddr 0xffffffff81801400 (demoNr h)).toNat + 8 ≤ 0xffffffff81803000 := by
      intro h
      cases h <;> decide
    exact hnr
  have hmapped : ∀ (n : ℕ) (a : Addr), 0xffff800000000000 ≤ a.toNat → a.toNat + n ≤ 2 ^ 64 → (demoKernel null).Mapped n a := by
    intro n a h1 h2 i hi
    have hlow : 0xffff800000000000 ≤ (a + BitVec.ofNat 64 i).toNat := by
      rw [BitVec.toNat_add, BitVec.toNat_ofNat]
      omega
    simp only [demoKernel, decide_eq_true hlow, Bool.true_or]
  have hexit : (demoKernel null).doExit.toNat = 0xffffffff81080000 := rfl
  have hlt : ∀ h, demoNr h < 2 ^ 31 := by
    intro h
    cases h <;> decide
  have hinj : ∀ h h', demoNr h = demoNr h' → h = h' := by
    intro h h'
    cases h <;> cases h' <;> decide
  refine ⟨hlt, hinj, fun h => ?_, ?_, fun h => ?_, fun h => ?_⟩
  · obtain ⟨h1, h2⟩ := hentry h
    exact hmapped 8 _ (by omega) (by omega)
  · exact hmapped 0x104 _ (by omega) (by omega)
  · obtain ⟨h1, h2⟩ := hentry h
    exact (apart_of_le (by omega) (by omega)).symm
  · obtain ⟨h1, h2⟩ := hentry h
    have hzero : (0 : Addr).toNat = 0 := rfl
    exact (apart_of_le (by omega) (by omega)).symm

/-- The state before the module is loaded. -/
def fresh (mem : Image) : Kernel where
  mem := mem
  writeProtect := true
  old := fun _ => 0
  oldProfileTaskExit := 0
  profileTaskExitCallAddr := 0
  syscall := 0
  oldfunc := 0

/-- A call to `profile_task_exit` at offset 0x20 of `do_exit`. -/
def withCall : Image := setCallAddr (fun x => if x = 0xffffffff81080020 then 0xe8 else 0x90) 0xffffffff81080021 0xffffffff81090000

theorem unload_undoes_load_demo : (demoKernel false).CallFound withCall ∧ Undone (demoKernel false) (fresh withCall) := by
  have hcall : (demoKernel false).CallFound withCall := ⟨0x20, by decide, by decide +kernel⟩
  exact ⟨hcall, (unload_undoes_load (demoKernel false) (demoKernel_placed false) (fresh withCall)).2 (Or.inl hcall)⟩

/-- **No call in `do_exit`**: with nothing mapped at address 0, `load_module` faults; with a page
mapped there, unloading leaves other bytes at address 0 than there were. -/
theorem null_patched :
    (Placed (demoKernel false) ∧ run (demoKernel false).exec (fresh fun _ => 0x90) loadModule = none ∧
      ¬ Undone (demoKernel false) (fresh fun _ => 0x90)) ∧
    Placed (demoKernel true) ∧
      ((run (demoKernel true).exec (fresh fun _ => 0x90) loadModule).bind fun k₁ =>
        (run (demoKernel true).exec k₁ unloadModule).map fun k₂ => k₂.mem 0) = some 0xfc ∧
      ¬ Undone (demoKernel true) (fresh fun _ => 0x90) := by
  have hfault : run (demoKernel false).exec (fresh fun _ => 0x90) loadModule = none := load_faults (by decide +kernel)
  have hbyte : ((run (demoKernel true).exec (fresh fun _ => 0x90) loadModule).bind fun k₁ =>
      (run (demoKernel true).exec k₁ unloadModule).map fun k₂ => k₂.mem 0) = some 0xfc := by
    decide +kernel
  refine ⟨⟨demoKernel_placed false, hfault, ?_⟩, demoKernel_placed true, hbyte, ?_⟩
  · rintro ⟨k₁, -, hload, -⟩
    rw [hfault] at hload
    cases hload
  · rintro ⟨k₁, k₂, hload, hunload, -, heq⟩
    rw [hload, Option.bind_some, hunload, Option.map_some, heq] at hbyte
    exact absurd hbyte (by decide)

end HookKernel
