import HookKernel.Spec.ProbeQueue
import HookKernel.Spec.Registry

/-!
# The life of the kernel module (`kernel/kprobe_main.c`)

`kprobe_init` registers the netlink family, creates `hook_data_cache`, initialises
`kprobe_log_queue` and starts the kernel thread, in this order; `kprobe_exit`
unregisters the family, stops the thread and destroys the queue. Each call is a
step of its own, and between any two of them requests arrive as long as the family
is registered and probes are hit as long as one is registered.

A request is one step: the netlink layer runs the operations of a family one at a
time, and unregistering the family waits for the one that runs.
-/

namespace HookKernel

open Lib

/-- Where the module is: the next call of `kprobe_init` or `kprobe_exit`, or outside
of both. -/
inductive ModPc
  | unloaded
  | netlinkInit
  | cacheCreate
  | queueInit
  | kthreadRun
  /-- `kprobe_init` returned -1 -/
  | failed
  /-- `kprobe_init` returned 0 -/
  | loaded
  | netlinkExit
  | kthreadStop
  | queueDestroy
  /-- `kprobe_exit` returned -/
  | exited
deriving DecidableEq

/-- The module: what it has registered with the kernel (`family`, `thread`, the live
kretprobes of `registry`) and its globals. -/
structure Kmod where
  pc : ModPc
  /-- the generic netlink family is registered -/
  family : Bool
  /-- `hook_data_cache` is not `NULL` -/
  hookDataCache : Bool
  kprobeLogQueue : KprobeQueue
  /-- `kprobe_queue_init` was called -/
  queueReady : Bool
  /-- the kernel thread runs -/
  thread : Bool
  registry : Registry

/-- Before `insmod`; what `kprobe_log_queue` holds is arbitrary. -/
def Kmod.init (heap : Heap) (funcNameList : ℕ) (queue : KprobeQueue) : Kmod :=
  ⟨.unloaded, false, false, queue, false, false, Registry.init heap funcNameList⟩

/-- The next call of `kprobe_init` or `kprobe_exit`; `ok` is whether it succeeds. -/
def Kmod.advance (fuel : ℕ) (s : Kmod) (ok : Bool) : Option Kmod :=
  match s.pc with
  | .netlinkInit =>
    if ok then some { s with family := true, pc := .cacheCreate }
    else some { s with pc := .failed }
  -- the result of `kmem_cache_create` is not checked
  | .cacheCreate => some { s with hookDataCache := ok, pc := .queueInit }
  | .queueInit =>
    some { s with
      kprobeLogQueue := kprobeQueueInit s.kprobeLogQueue.heap s.kprobeLogQueue.head
      queueReady := true
      pc := .kthreadRun }
  -- `IS_ERR(thread_id)` returns without undoing anything
  | .kthreadRun =>
    if ok then some { s with thread := true, pc := .loaded }
    else some { s with pc := .failed }
  -- `ret` is overwritten by the next call
  | .netlinkExit => some { s with family := s.family && !ok, pc := .kthreadStop }
  | .kthreadStop => some { s with thread := false, pc := .queueDestroy }
  | .queueDestroy =>
    (kprobeQueueDestroy fuel s.kprobeLogQueue).map fun freed =>
      { s with
        kprobeLogQueue :=
          { s.kprobeLogQueue with
            heap := fun p => if p ∈ freed then none else s.kprobeLogQueue.heap p }
        pc := .exited }
  | .unloaded | .failed | .loaded | .exited => none

/-- A round of the loop of `kprobe_queue_send`: get a record, read it and free it.
The list may be empty although `count` is not 0; then the record read is `NULL`. -/
def kprobeQueueSendOne (queue : KprobeQueue) : Option KprobeQueue :=
  (kprobeQueueGet queue).bind fun r => r.2.bind fun data =>
    (r.1.heap data).map fun _ => { r.1 with heap := Function.update r.1.heap data none }

/-- What can happen next. -/
inductive KmodAct
  | insmod
  /-- the next call of `kprobe_init` or `kprobe_exit` -/
  | advance (ok : Bool)
  | rmmod
  /-- a netlink request -/
  | request (c : RegCall)
  /-- `ret_handler` with the record `data` from the cache -/
  | hit (data : ℕ) (links : ListHead)
  /-- the kernel thread -/
  | send

/-- One step of the module. `kmem_cache_alloc` on a `NULL` cache faults. -/
def kmodStep (fuel : ℕ) (s : Kmod) : KmodAct → Option Kmod
  | .insmod => if s.pc = .unloaded then some { s with pc := .netlinkInit } else none
  | .advance ok => s.advance fuel ok
  | .rmmod => if s.pc = .loaded then some { s with pc := .netlinkExit } else none
  | .request c =>
    if s.family then (s.registry.call fuel c).map fun r => { s with registry := r.1 } else none
  | .hit data links =>
    if s.registry.live ≠ [] ∧ s.hookDataCache then
      (s.kprobeLogQueue.call (.put data links)).map fun q => { s with kprobeLogQueue := q.1 }
    else none
  | .send =>
    if s.thread then
      (kprobeQueueSendOne s.kprobeLogQueue).map fun q => { s with kprobeLogQueue := q }
    else none

/-- `kprobe_init` returned an error, or `kprobe_exit` returned. -/
def ModPc.Over (pc : ModPc) : Prop := pc = .failed ∨ pc = .exited

instance (pc : ModPc) : Decidable pc.Over := inferInstanceAs (Decidable (_ ∨ _))

/-- **The lifecycle property**: a registered kretprobe finds the cache, the queue and
the module in memory, and a module that is over has nothing registered. -/
structure Kmod.Sound (s : Kmod) : Prop where
  ready : s.registry.live ≠ [] → s.hookDataCache = true ∧ s.queueReady = true ∧
    s.pc ≠ .unloaded ∧ ¬ s.pc.Over
  clean : s.pc.Over → s.family = false ∧ s.thread = false ∧ s.registry.live = []

/-- What keeps the lifecycle property: `register_kretprobe` succeeds only with the
cache and the queue there, `kthread_run` does not fail, and `kprobe_exit` can
unregister the family and finds no kretprobe registered when it does. -/
def LifeSafe (s : Kmod) : KmodAct → Prop
  | .advance ok => (s.pc = .kthreadRun → ok = true) ∧
      (s.pc = .netlinkExit → ok = true ∧ s.registry.live = [])
  | .request (.register _ env) => env.ret = 0 → s.hookDataCache = true ∧ s.queueReady = true
  | _ => True

instance (s : Kmod) : (a : KmodAct) → Decidable (LifeSafe s a)
  | .advance ok => inferInstanceAs (Decidable ((s.pc = .kthreadRun → ok = true) ∧
      (s.pc = .netlinkExit → ok = true ∧ s.registry.live = [])))
  | .request (.register _ env) =>
    inferInstanceAs (Decidable (env.ret = 0 → s.hookDataCache = true ∧ s.queueReady = true))
  | .request (.unregister _) | .insmod | .rmmod | .hit _ _ | .send =>
    inferInstanceAs (Decidable True)

end HookKernel
