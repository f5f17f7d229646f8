import HookKernel.Proof.Patches

/-!
# Hooks and the pointers they forward through

`set_hook` stores the hook into the table and returns the old entry, which is assigned
to the `old_` pointer afterwards. Between the two, a system call on another CPU enters
the hook and finds a null pointer.

* `LoadInv`: what holds between any two statements of `load_module`.
* `published_iff`: in every state of every interleaving, the pointers behind all
  published hooks are set exactly if `load_module` is not between a table store and
  the assignment; calls forwarded at no such moment go to the original function, and
  one forwarded at such a moment goes to address 0.
* `forwarded_to_null`: a run in which a call does.
-/

namespace HookKernel

open Lib

variable {e : Env} {m : Image} {k k' : Kernel} {todo : List Stmt} {st : Stmt}

/-! ## The order of the statements -/

/-- The hook whose table entry was stored and whose pointer was not assigned yet. -/
def window : List Stmt → Option Hook
  | .protect :: .assign h :: _ => some h
  | .assign h :: _ => some h
  | _ => none

/-- What is done and what is not when `load_module` is at the first of the statements. -/
def Ordered : List Stmt → Prop
  | .findCallAddr :: todo => .findProfileTaskExit ∉ todo
  | .storeCall v :: todo => v = .hook ∧ .findCallAddr ∉ todo
  | .readEntry h :: todo => .findTable ∉ todo ∧ .storeEntry h .hook ∈ todo ∧
      ∀ h' ∈ loadOrder, h' ≠ h → .assign h' ∈ todo → .readEntry h' ∈ todo
  | .storeEntry h v :: todo => v = .hook ∧ .findCallAddr ∉ todo ∧ .findTable ∉ todo ∧ .storeEntry h .hook ∉ todo
  | .assign h :: todo => .readEntry h ∉ todo ∧ .assign h ∉ todo
  | _ => True

instance : DecidablePred Ordered
  | .findCallAddr :: todo => inferInstanceAs (Decidable (_ ∉ todo))
  | .storeCall v :: todo => inferInstanceAs (Decidable (v = .hook ∧ _ ∉ todo))
  | .readEntry h :: todo => inferInstanceAs (Decidable (.findTable ∉ todo ∧ .storeEntry h .hook ∈ todo ∧
      ∀ h' ∈ loadOrder, h' ≠ h → .assign h' ∈ todo → .readEntry h' ∈ todo))
  | .storeEntry _ v :: todo => inferInstanceAs (Decidable (v = .hook ∧ _ ∉ todo ∧ _ ∉ todo ∧ _ ∉ todo))
  | .assign _ :: todo => inferInstanceAs (Decidable (_ ∉ todo ∧ _ ∉ todo))
  | [] | .findProfileTaskExit :: _ | .findTable :: _ | .unprotect :: _ | .protect :: _ => inferInstanceAs (Decidable True)

/-- **The order of `load_module`**, at each of its statements. -/
theorem ordered_suffix : ∀ todo ∈ loadModule.tails, Ordered todo := by decide +kernel

theorem window_suffix : ∀ todo ∈ loadModule.tails, ∀ h ∈ loadOrder,
    (window todo = some h ↔ .storeEntry h .hook ∉ todo ∧ .assign h ∈ todo) := by
  decide +kernel

theorem exit_suffix : ∀ todo ∈ loadModule.tails, .findProfileTaskExit ∈ todo → .findCallAddr ∈ todo := by decide +kernel

theorem all_todo : .findTable ∈ loadModule ∧ .findCallAddr ∈ loadModule ∧ .findProfileTaskExit ∈ loadModule ∧
    ∀ h ∈ loadOrder, .storeEntry h .hook ∈ loadModule ∧ .assign h ∈ loadModule ∧ .readEntry h ∈ loadModule := by
  decide +kernel

/-! ## Between two statements -/

/-- **Between two statements of `load_module`**, loaded into the image `m`: what was found is set,
each table entry is the original one or the hook, and each pointer is null or the original entry,
according to what is still to be done. -/
structure LoadInv (e : Env) (m : Image) (k : Kernel) (todo : List Stmt) : Prop where
  suffix : todo ∈ loadModule.tails
  table : .findTable ∉ todo → k.syscall = e.sysCallTable
  site : .findCallAddr ∉ todo → k.profileTaskExitCallAddr = e.callSite m
  exit : .findProfileTaskExit ∉ todo → k.oldProfileTaskExit = e.profileTaskExit
  untouched : .findCallAddr ∈ todo → k.mem = m
  before : ∀ h, .storeEntry h .hook ∈ todo → readLE k.mem 8 (e.entry h) = readLE m 8 (e.entry h)
  stored : ∀ h, .storeEntry h .hook ∉ todo → readLE k.mem 8 (e.entry h) = e.cs h
  unsaved : ∀ h, .assign h ∈ todo → k.old h = 0
  saved : ∀ h, .assign h ∉ todo → k.old h = readLE m 8 (e.entry h)
  read : ∀ h, .readEntry h ∉ todo → .assign h ∈ todo → k.oldfunc = readLE m 8 (e.entry h)

theorem loadInv_init (e : Env) (m : Image) : LoadInv e m (Loading.init m).kernel loadModule := by
  obtain ⟨h1, h2, h3, h4⟩ := all_todo
  refine ⟨by simp, fun h => absurd h1 h, fun h => absurd h2 h, fun h => absurd h3 h, fun _ => rfl, fun _ _ => rfl,
    fun h hh => ?_, fun _ _ => rfl, fun h hh => ?_, fun h hh => ?_⟩
  · exact absurd (h4 h (mem_loadOrder h)).1 hh
  · exact absurd (h4 h (mem_loadOrder h)).2.1 hh
  · exact absurd (h4 h (mem_loadOrder h)).2.2 hh

theorem Env.store_some {n : ℕ} {a : Addr} {w : BitVec (8 * n)} (h : e.store k n a w = some k') :
    k' = { k with mem := writeLE k.mem n a w } := by
  unfold Env.store at h
  split at h
  · exact (Option.some.inj h).symm
  · cases h

/-- Both are the same entry. -/
theorem LoadInv.entry_eq (hi : LoadInv e m k todo) (ht : .findTable ∉ todo) (h : Hook) :
    entryAddr k.syscall (e.nr h) = e.entry h := by
  rw [hi.table ht]
  rfl

/-- The statements after the first one. -/
theorem LoadInv.rest (hi : LoadInv e m k (st :: todo)) : todo ∈ loadModule.tails := by
  have h1 : st :: todo <:+ loadModule := by simpa using hi.suffix
  have h2 : todo <:+ loadModule := (List.suffix_cons st todo).trans h1
  simpa using h2

/-- Patching the call in `do_exit`: its operand is not in the table. -/
theorem LoadInv.storeCall {v : Src} (hp : Placed e) (hi : LoadInv e m k (.storeCall v :: todo))
    (hs : e.exec k (.storeCall v) = some k') : LoadInv e m k' todo := by
  obtain ⟨-, hcall⟩ := ordered_suffix _ hi.suffix
  have hsuf := hi.rest
  have hk' := Env.store_some hs
  obtain ⟨-, htable, hsite, hexit, -, hbefore, hstored, hunsaved, hsaved, hread⟩ := hi
  simp only [List.mem_cons, reduceCtorEq, false_or] at htable hsite hexit hbefore hstored hunsaved hsaved hread
  have hsame : ∀ h, readLE k'.mem 8 (e.entry h) = readLE k.mem 8 (e.entry h) := by
    intro h
    rw [hk']
    refine readLE_writeLE_of_apart ?_
    rw [hsite hcall]
    exact (hp.site_apart m h).symm
  refine ⟨hsuf, ?_, ?_, ?_, fun h => absurd h hcall, ?_, ?_, ?_, ?_, ?_⟩
  case refine_4 =>
    intro h hh
    rw [hsame]
    exact hbefore h hh
  case refine_5 =>
    intro h hh
    rw [hsame]
    exact hstored h hh
  all_goals
    rw [hk']
    assumption

/-- Storing a hook into the table: the other entries stay as they are. -/
theorem LoadInv.storeEntry {h : Hook} {v : Src} (hp : Placed e) (hi : LoadInv e m k (.storeEntry h v :: todo))
    (hs : e.exec k (.storeEntry h v) = some k') : LoadInv e m k' todo := by
  obtain ⟨rfl, hcall, hnotable, honce⟩ := ordered_suffix _ hi.suffix
  have hsuf := hi.rest
  have hk' := Env.store_some hs
  rw [hi.entry_eq (by simpa using hnotable) h] at hk'
  obtain ⟨-, htable, hsite, hexit, -, hbefore, hstored, hunsaved, hsaved, hread⟩ := hi
  have hother : ∀ h', h' ≠ h → readLE k'.mem 8 (e.entry h') = readLE k.mem 8 (e.entry h') := by
    intro h' hne
    rw [hk']
    exact readLE_writeLE_of_apart (hp.entries_apart hne.symm)
  simp only [List.mem_cons, reduceCtorEq, false_or] at htable hsite hexit hunsaved hsaved hread
  refine ⟨hsuf, ?_, ?_, ?_, fun h => absurd h hcall, ?_, ?_, ?_, ?_, ?_⟩
  case refine_4 =>
    intro h' hh'
    have hne : h' ≠ h := by
      rintro rfl
      exact honce hh'
    rw [hother h' hne]
    exact hbefore h' (List.mem_cons_of_mem _ hh')
  case refine_5 =>
    intro h' hh'
    rcases eq_or_ne h' h with rfl | hne
    · rw [hk']
      exact readLE_writeLE (by omega)
    · rw [hother h' hne]
      refine hstored h' ?_
      simp [hne, hh']
  all_goals
    rw [hk']
    assumption

/-- Assigning the entry that was read to the pointer of its hook. -/
theorem LoadInv.assign {h : Hook} (hi : LoadInv e m k (.assign h :: todo)) (hs : e.exec k (.assign h) = some k') :
    LoadInv e m k' todo := by
  obtain ⟨hread', honce⟩ := ordered_suffix _ hi.suffix
  have hsuf := hi.rest
  obtain rfl := (Option.some.inj hs).symm
  obtain ⟨-, htable, hsite, hexit, huntouched, hbefore, hstored, hunsaved, hsaved, hread⟩ := hi
  have hfunc := hread h (by simpa using hread') List.mem_cons_self
  simp only [List.mem_cons, reduceCtorEq, false_or] at htable hsite hexit huntouched hbefore hstored
  refine ⟨hsuf, htable, hsite, hexit, huntouched, hbefore, hstored, ?_, ?_, ?_⟩
  · intro h' hh'
    have hne : h' ≠ h := by
      rintro rfl
      exact honce hh'
    simp only [Function.update_of_ne hne]
    exact hunsaved h' (List.mem_cons_of_mem _ hh')
  · intro h' hh'
    rcases eq_or_ne h' h with rfl | hne
    · simp only [Function.update_self]
      exact hfunc
    · simp only [Function.update_of_ne hne]
      refine hsaved h' ?_
      simp [hne, hh']
  · intro h' h1 h2
    exact hread h' (by simpa using h1) (List.mem_cons_of_mem _ h2)

/-- **One statement** of `load_module`. -/
theorem LoadInv.step (hp : Placed e) (hi : LoadInv e m k (st :: todo)) (hs : e.exec k st = some k') :
    LoadInv e m k' todo := by
  have hord := ordered_suffix _ hi.suffix
  have hsuf := hi.rest
  have hentry := hi.entry_eq
  have hall := hi
  obtain ⟨-, htable, hsite, hexit, huntouched, hbefore, hstored, hunsaved, hsaved, hread⟩ := hi
  cases st with
  | storeCall v => exact hall.storeCall hp hs
  | storeEntry h v => exact hall.storeEntry hp hs
  | assign h => exact hall.assign hs
  | findProfileTaskExit =>
    obtain rfl := (Option.some.inj hs).symm
    simp only [List.mem_cons, reduceCtorEq, false_or] at htable hsite huntouched hbefore hstored hunsaved hsaved hread
    exact ⟨hsuf, htable, hsite, fun _ => rfl, huntouched, hbefore, hstored, hunsaved, hsaved, hread⟩
  | findCallAddr =>
    obtain rfl := (Option.some.inj hs).symm
    -- the search runs on the image as it was loaded, for the function found before
    have hmem := huntouched List.mem_cons_self
    have hold : k.oldProfileTaskExit = e.profileTaskExit := by
      refine hexit ?_
      simpa using (show .findProfileTaskExit ∉ todo from hord)
    simp only [List.mem_cons, reduceCtorEq, false_or] at htable hexit hbefore hstored hunsaved hsaved hread
    refine ⟨hsuf, htable, fun _ => ?_, hexit, fun _ => hmem, hbefore, hstored, hunsaved, hsaved, hread⟩
    simp only [hmem, hold]
    rfl
  | findTable =>
    obtain rfl := (Option.some.inj hs).symm
    simp only [List.mem_cons, reduceCtorEq, false_or] at hsite hexit huntouched hbefore hstored hunsaved hsaved hread
    exact ⟨hsuf, fun _ => rfl, hsite, hexit, huntouched, hbefore, hstored, hunsaved, hsaved, hread⟩
  | unprotect | protect =>
    obtain rfl := (Option.some.inj hs).symm
    simp only [List.mem_cons, reduceCtorEq, false_or] at htable hsite hexit huntouched hbefore hstored hunsaved hsaved hread
    exact ⟨hsuf, htable, hsite, hexit, huntouched, hbefore, hstored, hunsaved, hsaved, hread⟩
  | readEntry h =>
    obtain ⟨hnotable, hlater, hothers⟩ := hord
    obtain rfl := (Option.some.inj hs).symm
    have haddr := hentry (by simpa using hnotable) h
    simp only [List.mem_cons, reduceCtorEq, false_or] at htable hsite hexit huntouched hbefore hstored hunsaved hsaved
    refine ⟨hsuf, htable, hsite, hexit, huntouched, hbefore, hstored, hunsaved, hsaved, fun h' h1 h2 => ?_⟩
    -- of the pointers still to be assigned, the others read their entry later
    rcases eq_or_ne h' h with rfl | hne
    · simp only [haddr]
      exact hbefore h' hlater
    · exact absurd (hothers h' (mem_loadOrder h') hne h2) h1

/-! ## Published hooks -/

/-- The kernel does not refer to the functions of a module that is not loaded yet. -/
structure Unreferenced (e : Env) (m : Image) : Prop where
  table : ∀ h, readLE m 8 (e.entry h) ≠ e.cs h
  exit : ∀ i < 0x100, ¬ CallsTo m (e.doExit + BitVec.ofNat 64 i) e.csProfileTaskExit

/-- The function that a hook replaces. -/
def Env.original (e : Env) (m : Image) : Callee → Addr
  | .sys h => readLE m 8 (e.entry h)
  | .exit => e.profileTaskExit

/-- **Published after saved**: where a table entry or a call in `do_exit` leads to a hook, the
pointer of the hook holds the original function. -/
structure Published (e : Env) (m : Image) (k : Kernel) : Prop where
  table : ∀ h, readLE k.mem 8 (e.entry h) = e.cs h → k.old h = e.original m (.sys h)
  exit : ∀ i < 0x100, CallsTo k.mem (e.doExit + BitVec.ofNat 64 i) e.csProfileTaskExit →
    k.oldProfileTaskExit = e.original m .exit

/-- **Between two statements**, everything is published after it is saved, except in the window. -/
theorem LoadInv.published (hi : LoadInv e m k todo) (hu : Unreferenced e m) :
    Published e m k ↔ ∀ h, window todo = some h → e.original m (.sys h) = 0 := by
  have hwindow : ∀ h, window todo = some h ↔ .storeEntry h .hook ∉ todo ∧ .assign h ∈ todo := fun h =>
    window_suffix todo hi.suffix h (mem_loadOrder h)
  constructor
  · intro hpub h hw
    obtain ⟨h1, h2⟩ := (hwindow h).1 hw
    rw [← hpub.table h (hi.stored h h1)]
    exact hi.unsaved h h2
  · intro hw
    refine ⟨fun h hcs => ?_, fun i hi' hcall => ?_⟩
    · -- before the store no entry leads to a hook, after the assignment its pointer is set
      by_cases h1 : .storeEntry h .hook ∈ todo
      · rw [hi.before h h1] at hcs
        exact absurd hcs (hu.table h)
      · by_cases h2 : .assign h ∈ todo
        · rw [hi.unsaved h h2, hw h ((hwindow h).2 ⟨h1, h2⟩)]
        · exact hi.saved h h2
    · -- the pointer is set before anything is patched
      by_cases h1 : .findProfileTaskExit ∈ todo
      · rw [hi.untouched (exit_suffix todo hi.suffix h1)] at hcall
        exact absurd hcall (hu.exit i hi')
      · exact hi.exit h1

/-! ## Interleavings -/

/-- **While other CPUs run**: a hook that was entered is published. -/
structure RaceInv (e : Env) (m : Image) (s : Loading) : Prop where
  load : LoadInv e m s.kernel s.todo
  sys : ∀ h, .sys h ∈ s.inside → .storeEntry h .hook ∉ s.todo
  exit : .exit ∈ s.inside → .findProfileTaskExit ∉ s.todo

theorem raceInv_init (e : Env) (m : Image) : RaceInv e m (Loading.init m) :=
  ⟨loadInv_init e m, fun h hh => (by cases hh), fun hh => (by cases hh)⟩

/-- What one step can do. -/
inductive LoadStep (e : Env) (s : Loading) : LoadAct → Loading → Prop
  | load {st : Stmt} {todo : List Stmt} {k : Kernel} : s.todo = st :: todo → e.exec s.kernel st = some k →
      LoadStep e s .load { s with kernel := k, todo := todo }
  | syscall {h : Hook} : readLE s.kernel.mem 8 (e.entry h) = e.cs h →
      LoadStep e s (.syscall h) { s with inside := .sys h :: s.inside }
  | exit {i : ℕ} : i < 0x100 → CallsTo s.kernel.mem (e.doExit + BitVec.ofNat 64 i) e.csProfileTaskExit →
      LoadStep e s (.exit i) { s with inside := .exit :: s.inside }
  | forward {c : Callee} : c ∈ s.inside →
      LoadStep e s (.forward c) { s with inside := s.inside.erase c, forwarded := s.forwarded ++ [(c, s.kernel.oldOf c)] }
  | other {a : LoadAct} : LoadStep e s a s

theorem load_cases {s s' : Loading} {a : LoadAct} (h : s.step e a = some s') : LoadStep e s a s' := by
  unfold Loading.step at h
  cases a with
  | load =>
    simp only at h
    split at h
    · cases h
    · rename_i st todo htodo
      obtain ⟨k, hk, rfl⟩ := Option.map_eq_some_iff.1 h
      exact .load htodo hk
  | syscall c =>
    simp only at h
    split at h
    · rename_i hcs
      obtain rfl := Option.some.inj h
      exact .syscall hcs
    · obtain rfl := Option.some.inj h
      exact .other
  | exit i =>
    simp only at h
    split at h
    · rename_i hcall
      obtain rfl := Option.some.inj h
      exact .exit hcall.1 hcall.2
    · obtain rfl := Option.some.inj h
      exact .other
  | forward c =>
    simp only at h
    split at h
    · rename_i hin
      obtain rfl := Option.some.inj h
      exact .forward hin
    · cases h

theorem RaceInv.step (hp : Placed e) (hu : Unreferenced e m) {s s' : Loading} {a : LoadAct} (hi : RaceInv e m s)
    (hs : s.step e a = some s') : RaceInv e m s' := by
  cases load_cases hs with
  | load htodo hk =>
    have hload := hi.load
    rw [htodo] at hload
    refine ⟨hload.step hp hk, fun h hh hin => ?_, fun hh hin => ?_⟩
    · exact hi.sys h hh (by rw [htodo]; exact List.mem_cons_of_mem _ hin)
    · exact hi.exit hh (by rw [htodo]; exact List.mem_cons_of_mem _ hin)
  | @syscall h hcs =>
    refine ⟨hi.load, fun h' hh' => ?_, fun hh => hi.exit (by simpa using hh)⟩
    rcases List.mem_cons.1 hh' with heq | hin
    · obtain rfl := Callee.sys.inj heq
      intro hbefore
      rw [hi.load.before h' hbefore] at hcs
      exact hu.table h' hcs
    · exact hi.sys h' hin
  | exit hlt hcall =>
    refine ⟨hi.load, fun h' hh' => hi.sys h' (by simpa using hh'), fun _ hin => ?_⟩
    rw [hi.load.untouched (exit_suffix _ hi.load.suffix hin)] at hcall
    exact hu.exit _ hlt hcall
  | forward _ =>
    exact ⟨hi.load, fun h hh => hi.sys h (List.mem_of_mem_erase hh), fun hh => hi.exit (List.mem_of_mem_erase hh)⟩
  | other => exact hi

/-- No hook forwards a call while its pointer is not assigned. -/
def ForwardsLate (s : Loading) (a : LoadAct) : Prop := ∀ h, a = .forward (.sys h) → window s.todo ≠ some h

theorem raceInv {C : Loading → LoadAct → Prop} (hp : Placed e) (hu : Unreferenced e m) {s : Loading}
    (h : Reach (Loading.step e) C (Loading.init m) s) : RaceInv e m s :=
  h.inv (I := RaceInv e m) (raceInv_init e m) fun _ _ _ hi _ hs => hi.step hp hu hs

/-- **A call forwarded late** goes to the original function. -/
theorem RaceInv.forwarded {s : Loading} (hi : RaceInv e m s) {c : Callee} (hc : ForwardsLate s (.forward c))
    (hin : c ∈ s.inside) : s.kernel.oldOf c = e.original m c := by
  cases c with
  | sys h =>
    refine hi.load.saved h fun hassign => ?_
    exact hc h rfl ((window_suffix _ hi.load.suffix h (mem_loadOrder h)).2 ⟨hi.sys h hin, hassign⟩)
  | exit => exact hi.load.exit (hi.exit hin)

/-- **Published hooks and their pointers.** For every image and every interleaving with other CPUs:
in every state reached, all published hooks are saved exactly if `load_module` is not between the
table store and the assignment of a hook (of an entry that is not null); if no call is forwarded
in its window, all calls forwarded go to the original functions; and a call forwarded in its
window goes to address 0. -/
theorem published_iff (e : Env) (hp : Placed e) (m : Image) (hu : Unreferenced e m) :
    (∀ s, Reach (Loading.step e) Any (Loading.init m) s →
        (Published e m s.kernel ↔ ∀ h, window s.todo = some h → e.original m (.sys h) = 0)) ∧
      (∀ s, Reach (Loading.step e) ForwardsLate (Loading.init m) s → ∀ p ∈ s.forwarded, p.2 = e.original m p.1) ∧
      ∀ s h s', Reach (Loading.step e) Any (Loading.init m) s → window s.todo = some h →
        s.step e (.forward (.sys h)) = some s' → s'.forwarded = s.forwarded ++ [(.sys h, 0)] := by
  refine ⟨fun s hs => (raceInv hp hu hs).load.published hu, fun s hs => ?_, fun s h s' hs hw hstep => ?_⟩
  · have hinv : RaceInv e m s ∧ ∀ p ∈ s.forwarded, p.2 = e.original m p.1 := by
      refine hs.inv (I := fun s => RaceInv e m s ∧ ∀ p ∈ s.forwarded, p.2 = e.original m p.1)
        ⟨raceInv_init e m, fun p hp => (by cases hp)⟩ ?_
      rintro s a s' ⟨hi, hf⟩ hc hstep
      refine ⟨hi.step hp hu hstep, ?_⟩
      cases load_cases hstep with
      | @forward c hin =>
        intro p hp
        rcases List.mem_append.1 hp with hp | hp
        · exact hf p hp
        · rw [List.mem_singleton.1 hp]
          exact hi.forwarded hc hin
      | load _ _ | syscall _ | exit _ _ | other => exact hf
    exact hinv.2
  · have hi := raceInv hp hu hs
    obtain ⟨-, hassign⟩ := (window_suffix _ hi.load.suffix h (mem_loadOrder h)).1 hw
    unfold Loading.step at hstep
    simp only at hstep
    split at hstep
    · obtain rfl := Option.some.inj hstep
      simp only [Kernel.oldOf, hi.load.unsaved h hassign]
    · cases hstep

theorem withCall_unreferenced : Unreferenced (demoKernel false) withCall := by
  have htable : ∀ h, readLE withCall 8 (entryAddr 0xffffffff81801400 (demoNr h)) ≠
      0xffffffffa0000000 + BitVec.ofNat 64 (16 * demoNr h) := by
    intro h
    cases h <;> decide +kernel
  exact ⟨htable, by decide +kernel⟩

/-- `load_module` up to the table store of the first hook, a `close` on another CPU, and the
statements after the store. -/
def closeDemo : List LoadAct := List.replicate 9 .load ++ [.syscall .sysClose, .load, .load, .forward (.sys .sysClose)]

instance (s : Loading) (a : LoadAct) : Decidable (ForwardsLate s a) :=
  match a with
  | .forward (.sys h) => decidable_of_iff (window s.todo ≠ some h) ⟨fun hw h' heq => by
      obtain rfl := Callee.sys.inj (LoadAct.forward.inj heq)
      exact hw, fun hw => hw h rfl⟩
  | .forward .exit | .load | .syscall _ | .exit _ => isTrue fun h heq => by cases heq

theorem closeDemo_runs : (run (guarded (Loading.step (demoKernel false)) ForwardsLate) (Loading.init withCall) closeDemo).isSome := by
  decide +kernel

/-- The end of this run. -/
def closeDemoEnd : Loading := runTo closeDemo_runs

theorem published_iff_demo : closeDemoEnd.forwarded.length = 1 ∧
    (∀ p ∈ closeDemoEnd.forwarded, p.2 = (demoKernel false).original withCall p.1) ∧
    Published (demoKernel false) withCall closeDemoEnd.kernel := by
  have hreach : Reach (Loading.step (demoKernel false)) ForwardsLate (Loading.init withCall) closeDemoEnd :=
    reach_runTo_guarded closeDemo_runs
  have hall := published_iff (demoKernel false) (demoKernel_placed false) withCall withCall_unreferenced
  have hnone : window closeDemoEnd.todo = none := by decide +kernel
  refine ⟨by decide +kernel, hall.2.1 _ hreach, (hall.1 _ (hreach.mono fun _ _ _ => trivial)).2 fun h hw => ?_⟩
  rw [hnone] at hw
  cases hw

/-- The same with a faster CPU. -/
def closeEarly : List LoadAct := List.replicate 9 .load ++ [.syscall .sysClose, .forward (.sys .sysClose)]

theorem closeEarly_runs : (run (Loading.step (demoKernel false)) (Loading.init withCall) closeEarly).isSome := by
  decide +kernel

def closeEarlyEnd : Loading := runTo closeEarly_runs

/-- **A call goes through a null pointer**: the entry of `close` leads to the hook, and `old_close`
is not set yet. -/
theorem forwarded_to_null :
    ∃ s, Reach (Loading.step (demoKernel false)) Any (Loading.init withCall) s ∧
      s.forwarded = [(.sys .sysClose, 0)] ∧ (demoKernel false).original withCall (.sys .sysClose) ≠ 0 ∧
      ¬ Published (demoKernel false) withCall s.kernel := by
  have hcs : readLE closeEarlyEnd.kernel.mem 8 ((demoKernel false).entry .sysClose) = (demoKernel false).cs .sysClose := by
    decide +kernel
  have hnull : closeEarlyEnd.kernel.old .sysClose = 0 := by decide +kernel
  have horig : (demoKernel false).original withCall (.sys .sysClose) ≠ 0 := by decide +kernel
  refine ⟨closeEarlyEnd, reach_runTo closeEarly_runs, by decide +kernel, horig, fun hpub => ?_⟩
  exact horig ((hpub.table _ hcs).symm.trans hnull)

end HookKernel
