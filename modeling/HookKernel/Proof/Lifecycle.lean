import HookKernel.Proof.Registry
import HookKernel.Spec.Lifecycle

/-!
# When the module keeps its lifecycle property

`kprobe_init` registers the netlink family before it creates the cache and
initialises the queue, its error exit after `kthread_run` undoes nothing, and
`kprobe_exit` leaves the registered kretprobes as they are.

`KmodInv` is what `LifeSafe` steps keep. Its first field is what makes it inductive:
until the cache and the queue are there the registry is untouched, so that every
lookup in it returns `NULL` and a registration is always tried.

`lifecycle_exact`: the lifecycle property holds in every state reached by `LifeSafe`
steps, and the first step that is not `LifeSafe` breaks it, at once or at the end
of `kprobe_exit`.
-/

namespace HookKernel

open Lib

variable {heap : Heap} {L fuel : ℕ} {queue : KprobeQueue} {s s' : Kmod}

/-- The family is registered while the module is here. -/
def ModPc.Up (pc : ModPc) : Prop :=
  pc = .cacheCreate ∨ pc = .queueInit ∨ pc = .kthreadRun ∨ pc = .loaded ∨ pc = .netlinkExit

/-- The invariant of `LifeSafe` steps. -/
structure KmodInv (heap : Heap) (L : ℕ) (s : Kmod) : Prop where
  early : s.hookDataCache = false ∨ s.queueReady = false → s.registry = Registry.init heap L
  fresh : s.pc = .unloaded ∨ s.pc = .netlinkInit ∨ s.pc = .cacheCreate → s.queueReady = false
  family : s.family = true ↔ s.pc.Up
  live : s.registry.live ≠ [] → s.pc.Up
  thread : s.thread = true → s.pc = .loaded ∨ s.pc = .netlinkExit ∨ s.pc = .kthreadStop

/-! ## Requests -/

/-- A request on the untouched registry: only a successful `register_kretprobe`
changes it, and then its kretprobe is live. -/
theorem call_init {c : RegCall} {r : Registry × Option RegisterOut}
    (h : (Registry.init heap L).call fuel c = some r) :
    (r.1 = Registry.init heap L ∧ ∀ f env, c = .register f env → env.ret ≠ 0) ∨
      ∃ f env, c = .register f env ∧ env.ret = 0 ∧ r.1.live = [env.kret] := by
  have hlk : ∀ f found, funcNameInList fuel (Registry.init heap L) f = some found → found = none := by
    intro f found hf
    cases fuel with
    | zero => simp [funcNameInList, Registry.init, initListHead, lookupFrom] at hf
    | succ fuel => rw [lookup_init] at hf; exact (Option.some.inj hf).symm
  cases c with
  | unregister f =>
    simp only [Registry.call, doKprobeUnregister, Option.map_eq_some_iff, Option.bind_eq_some_iff] at h
    obtain ⟨r', ⟨found, hf, hr⟩, rfl⟩ := h
    rw [hlk f found hf] at hr
    refine Or.inl ⟨(Option.some.inj hr).symm, ?_⟩
    intro f' env' hc
    cases hc
  | register f env =>
    simp only [Registry.call, doKprobeRegister, Option.map_eq_some_iff, Option.bind_eq_some_iff] at h
    obtain ⟨r', ⟨found, hf, hr⟩, rfl⟩ := h
    rw [hlk f found hf] at hr
    simp only at hr
    split at hr
    · rename_i hret
      obtain ⟨h', -, rfl⟩ := Option.map_eq_some_iff.1 hr
      exact Or.inr ⟨f, env, rfl, hret, rfl⟩
    · rename_i hret
      refine Or.inl ⟨(congrArg Prod.fst (Option.some.inj hr)).symm, ?_⟩
      intro f' env' hc
      cases hc
      exact hret

/-- A request is served while the family is registered, and changes the registry only. -/
theorem request_cases {c : RegCall} (h : kmodStep fuel s (.request c) = some s') :
    s.family = true ∧ ∃ r, s.registry.call fuel c = some r ∧ s' = { s with registry := r.1 } := by
  simp only [kmodStep] at h
  split at h
  · rename_i hfam
    obtain ⟨r, hr, rfl⟩ := Option.map_eq_some_iff.1 h
    exact ⟨hfam, r, hr, rfl⟩
  · cases h

/-- A hit and the kernel thread change the queue only. -/
theorem queue_step {a : KmodAct} (ha : a = .send ∨ ∃ data links, a = .hit data links)
    (h : kmodStep fuel s a = some s') : ∃ q, s' = { s with kprobeLogQueue := q } := by
  rcases ha with rfl | ⟨data, links, rfl⟩ <;> simp only [kmodStep] at h <;> split at h
  · obtain ⟨q, -, rfl⟩ := Option.map_eq_some_iff.1 h
    exact ⟨q, rfl⟩
  · cases h
  · obtain ⟨q, -, rfl⟩ := Option.map_eq_some_iff.1 h
    exact ⟨q.1, rfl⟩
  · cases h

/-! ## The invariant -/

theorem KmodInv.init (heap : Heap) (L : ℕ) (queue : KprobeQueue) :
    KmodInv heap L (Kmod.init heap L queue) where
  early _ := rfl
  fresh _ := rfl
  family := by simp [Kmod.init, ModPc.Up]
  live h := absurd rfl h
  thread h := by cases h

/-- What the invariant says of the registry when a probe is registered. -/
theorem KmodInv.there (hI : KmodInv heap L s) (hlive : s.registry.live ≠ []) :
    s.hookDataCache = true ∧ s.queueReady = true := by
  have hchanged : s.registry ≠ Registry.init heap L := fun he => hlive (by rw [he]; rfl)
  have h := mt hI.early hchanged
  simpa only [not_or, Bool.not_eq_false] using h

/-- **The invariant gives the lifecycle property.** -/
theorem KmodInv.sound (hI : KmodInv heap L s) : s.Sound where
  ready hlive := by
    obtain ⟨hc, hq⟩ := hI.there hlive
    have hup := hI.live hlive
    refine ⟨hc, hq, ?_, ?_⟩
    · intro hpc
      simp [hpc, ModPc.Up] at hup
    · rintro (hpc | hpc) <;> simp [hpc, ModPc.Up] at hup
  clean hover := by
    have hdown : ¬ s.pc.Up := by rcases hover with h | h <;> simp [h, ModPc.Up]
    refine ⟨?_, ?_, ?_⟩
    · exact Bool.eq_false_iff.2 fun h => hdown (hI.family.1 h)
    · refine Bool.eq_false_iff.2 fun h => ?_
      rcases hover with hpc | hpc <;> simpa [hpc] using hI.thread h
    · exact not_not.1 fun h => hdown (hI.live h)

theorem KmodInv.request (hI : KmodInv heap L s) {c : RegCall} (hsafe : LifeSafe s (.request c))
    (h : kmodStep fuel s (.request c) = some s') : KmodInv heap L s' := by
  obtain ⟨hfam, r, hr, rfl⟩ := request_cases h
  refine ⟨?_, hI.fresh, hI.family, fun _ => hI.family.1 hfam, hI.thread⟩
  intro hearly
  rw [hI.early hearly] at hr
  rcases call_init hr with ⟨h', -⟩ | ⟨f, env, rfl, hret, -⟩
  · exact h'
  · -- a registration that succeeds this early is not safe
    obtain ⟨hc, hq⟩ := hsafe hret
    rcases hearly with he | he
    · rw [hc] at he; cases he
    · rw [hq] at he; cases he

/-- A call of `kprobe_init` or `kprobe_exit`. -/
theorem KmodInv.advance (hI : KmodInv heap L s) {ok : Bool} (hsafe : LifeSafe s (.advance ok))
    (h : s.advance fuel ok = some s') : KmodInv heap L s' := by
  obtain ⟨hrun, hexit⟩ := hsafe
  obtain ⟨early, fresh, family, live, thread⟩ := hI
  unfold Kmod.advance at h
  cases hpc : s.pc <;> simp only [hpc, ModPc.Up] at h fresh family live thread hrun hexit
  case unloaded | failed | loaded | exited => cases h
  case netlinkInit =>
    split at h <;> cases h <;> refine ⟨early, ?_, ?_, ?_, ?_⟩ <;> simp_all [ModPc.Up]
  case cacheCreate =>
    -- the queue is not there yet, so the registry is untouched whatever `ok` is
    cases h
    have hq : s.queueReady = false := fresh (by simp)
    have hreg := early (Or.inr hq)
    refine ⟨fun _ => hreg, ?_, ?_, ?_, ?_⟩ <;> simp_all [ModPc.Up]
  case queueInit =>
    cases h
    refine ⟨?_, ?_, ?_, ?_, ?_⟩
    · -- of the two only the cache can still be missing
      intro hearly
      refine early (Or.inl ?_)
      simpa using hearly
    all_goals simp_all [ModPc.Up]
  case kthreadRun =>
    rw [if_pos (hrun trivial)] at h
    cases h
    refine ⟨early, ?_, ?_, ?_, ?_⟩ <;> simp_all [ModPc.Up]
  case netlinkExit =>
    -- the family goes, and no kretprobe stays behind
    obtain ⟨hok, hnone⟩ := hexit trivial
    cases h
    refine ⟨early, ?_, ?_, fun hlive => absurd hnone hlive, ?_⟩ <;> simp_all [ModPc.Up]
  case kthreadStop =>
    cases h
    refine ⟨early, ?_, ?_, ?_, ?_⟩ <;> simp_all [ModPc.Up]
  case queueDestroy =>
    obtain ⟨freed, -, rfl⟩ := Option.map_eq_some_iff.1 h
    refine ⟨early, ?_, ?_, ?_, ?_⟩ <;> simp_all [ModPc.Up]

/-- **One safe step.** -/
theorem KmodInv.step (hI : KmodInv heap L s) {a : KmodAct} (hsafe : LifeSafe s a)
    (h : kmodStep fuel s a = some s') : KmodInv heap L s' := by
  have hqueue : ∀ q, KmodInv heap L { s with kprobeLogQueue := q } := fun _ =>
    ⟨hI.early, hI.fresh, hI.family, hI.live, hI.thread⟩
  cases a with
  | advance ok => exact hI.advance hsafe h
  | request c => exact hI.request hsafe h
  | hit data links =>
    obtain ⟨q, rfl⟩ := queue_step (Or.inr ⟨data, links, rfl⟩) h
    exact hqueue q
  | send =>
    obtain ⟨q, rfl⟩ := queue_step (Or.inl rfl) h
    exact hqueue q
  | insmod =>
    simp only [kmodStep] at h
    split at h <;> cases h
    rename_i hpc
    obtain ⟨early, fresh, family, live, thread⟩ := hI
    refine ⟨early, fun _ => fresh (Or.inl hpc), ?_, ?_, ?_⟩ <;> simp_all [ModPc.Up]
  | rmmod =>
    simp only [kmodStep] at h
    split at h <;> cases h
    rename_i hpc
    obtain ⟨early, fresh, family, live, thread⟩ := hI
    refine ⟨early, ?_, ?_, ?_, ?_⟩ <;> simp_all [ModPc.Up]

theorem KmodInv.reach (h : Reach (kmodStep fuel) LifeSafe (Kmod.init heap L queue) s) :
    KmodInv heap L s :=
  h.inv (KmodInv.init heap L queue) fun _ _ _ hI hsafe hstep => hI.step hsafe hstep

/-! ## What is left behind -/

/-- `kprobe_exit` is past the family, and something is still registered: the family,
or a kretprobe that no request can unregister any more. -/
structure Leftover (s : Kmod) : Prop where
  pc : s.pc = .kthreadStop ∨ s.pc = .queueDestroy ∨ s.pc = .exited
  left : s.family = true ∨ s.registry.live ≠ []

/-- **Nothing removes what is left**, whatever happens next. -/
theorem Leftover.step (hl : Leftover s) {a : KmodAct} (h : kmodStep fuel s a = some s') :
    Leftover s' := by
  obtain ⟨hpc, hleft⟩ := hl
  cases a with
  | hit data links =>
    obtain ⟨q, rfl⟩ := queue_step (Or.inr ⟨data, links, rfl⟩) h
    exact ⟨hpc, hleft⟩
  | send =>
    obtain ⟨q, rfl⟩ := queue_step (Or.inl rfl) h
    exact ⟨hpc, hleft⟩
  | request c =>
    -- served only if the family is what is left
    obtain ⟨hfam, r, -, rfl⟩ := request_cases h
    exact ⟨hpc, Or.inl hfam⟩
  | insmod => rcases hpc with hpc | hpc | hpc <;> simp [kmodStep, hpc] at h
  | rmmod => rcases hpc with hpc | hpc | hpc <;> simp [kmodStep, hpc] at h
  | advance ok =>
    rcases hpc with hpc | hpc | hpc <;> simp only [kmodStep, Kmod.advance, hpc] at h
    · cases h
      exact ⟨Or.inr (Or.inl rfl), hleft⟩
    · obtain ⟨freed, -, rfl⟩ := Option.map_eq_some_iff.1 h
      exact ⟨Or.inr (Or.inr rfl), hleft⟩
    · cases h

theorem Leftover.not_sound (hl : Leftover s) (hpc : s.pc = .exited) : ¬ s.Sound := by
  intro hs
  obtain ⟨hfam, -, hlive⟩ := hs.clean (Or.inr hpc)
  rcases hl.left with h | h
  · rw [hfam] at h; cases h
  · exact h hlive

/-! ## Steps that are not safe -/

/-- A kretprobe registered before the cache and the queue are there. -/
theorem early_register (hI : KmodInv heap L s) {c : RegCall} (hsafe : ¬ LifeSafe s (.request c))
    (h : kmodStep fuel s (.request c) = some s') : ¬ s'.Sound := by
  obtain ⟨-, r, hr, rfl⟩ := request_cases h
  cases c with
  | unregister f => exact absurd trivial hsafe
  | register f env =>
    simp only [LifeSafe, Classical.not_imp, not_and_or, Bool.not_eq_true] at hsafe
    obtain ⟨hret, hearly⟩ := hsafe
    rw [hI.early hearly] at hr
    rcases call_init hr with ⟨-, hfails⟩ | ⟨f', env', -, -, hlive⟩
    · exact absurd hret (hfails f env rfl)
    · intro hs
      obtain ⟨hc, hq, -⟩ := hs.ready (by simp [hlive])
      simp only at hc hq
      rw [hc, hq] at hearly
      simp at hearly

/-- **A step that is not safe** breaks the lifecycle property at once, or it leaves
something registered for `kprobe_exit` to return with. -/
theorem unsafe_step (hI : KmodInv heap L s) {a : KmodAct} (hsafe : ¬ LifeSafe s a)
    (h : kmodStep fuel s a = some s') :
    s'.pc ≠ .kthreadStop ∧ ¬ s'.Sound ∨ s'.pc = .kthreadStop ∧ Leftover s' := by
  cases a with
  | insmod => exact absurd trivial hsafe
  | rmmod => exact absurd trivial hsafe
  | hit data links => exact absurd trivial hsafe
  | send => exact absurd trivial hsafe
  | request c =>
    refine Or.inl ⟨?_, early_register hI hsafe h⟩
    obtain ⟨hfam, r, -, rfl⟩ := request_cases h
    intro (hpc : s.pc = .kthreadStop)
    simpa [hpc, ModPc.Up] using hI.family.1 hfam
  | advance ok =>
    have hor : s.pc = .kthreadRun ∧ ok = false ∨
        s.pc = .netlinkExit ∧ (ok = false ∨ s.registry.live ≠ []) := by
      simp only [LifeSafe, not_and_or, Classical.not_imp, Bool.not_eq_true] at hsafe
      exact hsafe
    rcases hor with ⟨hpc, rfl⟩ | ⟨hpc, hwhy⟩
    · -- the family stays registered
      have hfam : s.family = true := hI.family.2 (by simp [hpc, ModPc.Up])
      simp only [kmodStep, Kmod.advance, hpc] at h
      cases h
      refine Or.inl ⟨by simp, fun hs => ?_⟩
      have hgone := (hs.clean (Or.inl rfl)).1
      simp only at hgone
      rw [hfam] at hgone; cases hgone
    · have hfam : s.family = true := hI.family.2 (by simp [hpc, ModPc.Up])
      simp only [kmodStep, Kmod.advance, hpc] at h
      cases h
      refine Or.inr ⟨rfl, Or.inl rfl, ?_⟩
      rcases hwhy with rfl | hlive
      · exact Or.inl (by simp [hfam])
      · exact Or.inr hlive

/-- **Exactly when the module keeps its lifecycle property.** It holds in every state
reached by `LifeSafe` steps. A step from there that is not `LifeSafe` breaks it: at
once, or, if it is the one by which `kprobe_exit` unregisters the family, in every
state in which `kprobe_exit` has returned. -/
theorem lifecycle_exact (heap : Heap) (L fuel : ℕ) (queue : KprobeQueue) (s : Kmod)
    (h : Reach (kmodStep fuel) LifeSafe (Kmod.init heap L queue) s) :
    s.Sound ∧ ∀ a s', kmodStep fuel s a = some s' → ¬ LifeSafe s a →
      (s'.pc ≠ .kthreadStop → ¬ s'.Sound) ∧
      (s'.pc = .kthreadStop → ∀ s'', Reach (kmodStep fuel) Any s' s'' → s''.pc = .exited →
        ¬ s''.Sound) := by
  have hI := KmodInv.reach h
  refine ⟨hI.sound, ?_⟩
  intro a s' hstep hsafe
  rcases unsafe_step hI hsafe hstep with ⟨hpc, hbad⟩ | ⟨hpc, hl⟩
  · exact ⟨fun _ => hbad, fun hstop => absurd hstop hpc⟩
  · refine ⟨fun hne => absurd hpc hne, ?_⟩
    intro _ s'' hr hexit
    have hl' : Leftover s'' := hr.inv hl fun _ _ _ hl _ hs => hl.step hs
    exact hl'.not_sound hexit

/-! ## Runs -/

/-- The module before `insmod`, with `func_name_list` at 1 and the queue's head at 1 of
its own heap. -/
def kmod0 : Kmod := Kmod.init (fun _ => none) 1 ⟨fun _ => none, 1, 0⟩

/-- `kprobe_init` with every call successful. -/
def loadActs : List KmodAct :=
  [.insmod, .advance true, .advance true, .advance true, .advance true]

/-- Load, hook a function, see it hit and its record sent, unload. -/
def hookActs : List KmodAct :=
  loadActs ++ [.request (.register [102] demoEnv), .hit 3 ⟨3, 3⟩, .send, .rmmod]

theorem hook_runs : (run (guarded (kmodStep 2) LifeSafe) kmod0 hookActs).isSome := by decide +kernel

/-- `kprobe_exit` is called with a kretprobe registered. -/
def leaving : Kmod := runTo hook_runs

/-- The property holds while the function is hooked, and breaks when `kprobe_exit`
returns with its kretprobe registered. -/
theorem lifecycle_exact_demo :
    leaving.registry.live = [7] ∧ leaving.Sound ∧
      ∀ s', kmodStep 2 leaving (.advance true) = some s' →
        ∀ s'', Reach (kmodStep 2) Any s' s'' → s''.pc = .exited → ¬ s''.Sound := by
  have hreach : Reach (kmodStep 2) LifeSafe kmod0 leaving :=
    reach_runTo_guarded hook_runs
  have hlive : leaving.registry.live = [7] := by decide +kernel
  have hpc : leaving.pc = .netlinkExit := by decide +kernel
  obtain ⟨hs, hbreak⟩ := lifecycle_exact (fun _ => none) 1 2 ⟨fun _ => none, 1, 0⟩ leaving hreach
  refine ⟨hlive, hs, ?_⟩
  intro s' hstep
  have hunsafe : ¬ LifeSafe leaving (.advance true) := by
    intro hsafe
    rw [(hsafe.2 hpc).2] at hlive
    cases hlive
  have hnext : s'.pc = .kthreadStop := by
    simp only [kmodStep, Kmod.advance, hpc] at hstep
    cases hstep
    rfl
  exact (hbreak _ s' hstep hunsafe).2 hnext

/-- A function is hooked as soon as the family is registered. -/
def earlyActs : List KmodAct := [.insmod, .advance true, .request (.register [102] demoEnv)]

/-- The kernel thread cannot be created. -/
def noThreadActs : List KmodAct :=
  [.insmod, .advance true, .advance true, .advance true, .advance false]

/-- The module is unloaded with a function hooked. -/
def unloadActs : List KmodAct := hookActs ++ [.advance true, .advance true, .advance true]

theorem early_runs : (run (kmodStep 2) kmod0 earlyActs).isSome := by decide +kernel

theorem noThread_runs : (run (kmodStep 2) kmod0 noThreadActs).isSome := by decide +kernel

theorem unload_runs : (run (kmodStep 2) kmod0 unloadActs).isSome := by decide +kernel

/-- **Three ways to break it**: a kretprobe without a cache, a family that outlives a
failed `kprobe_init`, and a kretprobe that outlives `kprobe_exit`. -/
theorem lifecycle_broken :
    (∃ s, Reach (kmodStep 2) Any kmod0 s ∧
      s.registry.live = [7] ∧ s.hookDataCache = false ∧ ¬ s.Sound) ∧
    (∃ s, Reach (kmodStep 2) Any kmod0 s ∧ s.pc = .failed ∧ s.family = true ∧ ¬ s.Sound) ∧
    ∃ s, Reach (kmodStep 2) Any kmod0 s ∧ s.pc = .exited ∧ s.registry.live = [7] ∧ ¬ s.Sound := by
  refine ⟨?_, ?_, ?_⟩
  · have hlive : (runTo early_runs).registry.live = [7] := by
      decide +kernel
    have hcache : (runTo early_runs).hookDataCache = false := by
      decide +kernel
    refine ⟨_, reach_runTo early_runs, hlive, hcache, fun hs => ?_⟩
    have h := (hs.ready (by simp [hlive])).1
    rw [hcache] at h; cases h
  · have hpc : (runTo noThread_runs).pc = .failed := by
      decide +kernel
    have hfam : (runTo noThread_runs).family = true := by
      decide +kernel
    refine ⟨_, reach_runTo noThread_runs, hpc, hfam, fun hs => ?_⟩
    have h := (hs.clean (Or.inl hpc)).1
    rw [hfam] at h; cases h
  · have hpc : (runTo unload_runs).pc = .exited := by
      decide +kernel
    have hlive : (runTo unload_runs).registry.live = [7] := by
      decide +kernel
    refine ⟨_, reach_runTo unload_runs, hpc, hlive, fun hs => ?_⟩
    have h := (hs.clean (Or.inr hpc)).2.2
    rw [hlive] at h; cases h

end HookKernel
