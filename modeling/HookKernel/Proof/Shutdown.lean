import HookKernel.Proof.Account

/-!
# Shutdown

Every byte received is in the receiver's message, in a message on its way, in a stored
message, or has been sent, given up or dumped (`ByteAcc`). When `main` goes on after its
joins, the first three are empty if every step was safe.

* `nothing_lost`: in every run of safe steps, nothing received is left behind.
* `message_left_behind`: a run in which the sender leaves before the last push.
-/

namespace HookKernel

open Lib

variable {c : Configure} {quit : Bool} {r r' : Rcv} {fs fs' : Disk} {a : RAct}

/-! ## Bytes -/

/-- The bytes in `msg` that have not been pushed. -/
def Rcv.hand (r : Rcv) : List Cell :=
  if r.pc = .dataLog ∨ r.pc = .lastLog ∨ r.pc = .returned then [] else (r.msg.map Message.bytes).getD []

theorem mem_hand {x : Cell} : x ∈ r.hand ↔
    (r.pc ≠ .dataLog ∧ r.pc ≠ .lastLog ∧ r.pc ≠ .returned) ∧ ∃ m, r.msg = some m ∧ x ∈ m.bytes := by
  unfold Rcv.hand
  split
  · rename_i hpc
    refine ⟨fun h => (by cases h), fun h => ?_⟩
    rcases hpc with hpc | hpc | hpc
    · exact absurd hpc h.1.1
    · exact absurd hpc h.1.2.1
    · exact absurd hpc h.1.2.2
  · rename_i hpc
    simp only [not_or] at hpc
    cases hm : r.msg with
    | none => simp
    | some m => simp [hpc]

/-- What becomes of the bytes in the receiver's hands. -/
inductive HandStep (r : Rcv) (a : RAct) (r' : Rcv) (x : Cell) : Prop
  | hand : x ∈ r'.hand → HandStep r a r' x
  | dropped : x ∈ r'.dropped → HandStep r a r' x
  | filed (p : ℕ × List Cell) : p ∈ r'.filed → x ∈ p.2 → HandStep r a r' x
  | pushed (m : Message) : r'.pushed = r.pushed ++ [m] → r.msg = some m → x ∈ m.bytes →
      (r.pc = .dataPush ∨ r.pc = .lastPush) → HandStep r a r' x
  | lost : a = .push false → r.pc = .lastPush → HandStep r a r' x

theorem RStep.hand (h : RStep c quit r fs a r' fs') (hi : RInv r) {x : Cell} (hx : x ∈ r.hand) : HandStep r a r' x := by
  obtain ⟨hpc₀, m, hm, hxm⟩ := mem_hand.1 hx
  have keep : r'.pc ≠ .dataLog ∧ r'.pc ≠ .lastLog ∧ r'.pc ≠ .returned → r'.msg = some m → HandStep r a r' x :=
    fun h1 h2 => .hand (mem_hand.2 ⟨h1, m, h2, hxm⟩)
  have retype : r'.pc ≠ .dataLog ∧ r'.pc ≠ .lastLog ∧ r'.pc ≠ .returned → ∀ t, r'.msg = r.msg.map (Rcv.setType · t) →
      HandStep r a r' x := by
    intro h1 t h2
    rw [hm, Option.map_some] at h2
    exact .hand (mem_hand.2 ⟨h1, _, h2, hxm⟩)
  cases h with
  | selectErr _ _ => exact .hand hx
  | @select k _ _ =>
    refine keep ?_ hm
    by_cases hk : k = 0 <;> simp [hk]
  | goOn _ _ | quitPush _ _ _ _ | namesPush _ _ | recvErr _ _ | noRecv _ | writeFail _ _ _ _ => exact keep (by simp) hm
  | quitDone _ _ hlen =>
    -- there is nothing in it
    have h0 : m.len.toNat = 0 := by
      have := hlen m hm
      omega
    unfold Message.bytes at hxm
    rw [h0] at hxm
    cases hxm
  | @lastPush m' ok hpc hm' =>
    obtain rfl := Option.some.inj (hm.symm.trans hm')
    cases ok with
    | true => exact .pushed m rfl hm hxm (Or.inr hpc)
    | false => exact .lost rfl hpc
  | lastLog hpc => exact absurd hpc hpc₀.2.1
  | keep _ _ =>
    refine keep ?_ hm
    simp only [Rcv.afterReady]
    split <;> simp
  | alloc _ hnone _ =>
    rw [hnone] at hm
    cases hm
  | namesFail _ => exact retype (by simp) 1 rfl
  | detach _ => exact retype (by simp) 0 rfl
  | dataFail _ => exact retype (by simp) 1 rfl
  | @recv m₀ m' bs _ hm₀ _ hst =>
    obtain rfl := Option.some.inj (hm.symm.trans hm₀)
    have hbytes := (store_bytes hst (hi.flow.bounds m hm).1).2.2.2.2
    rw [receivedCells_length] at hbytes
    refine .hand (mem_hand.2 ⟨by simp, _, rfl, ?_⟩)
    rw [hbytes]
    exact List.mem_append_left _ hxm
  | @flush m' _ _ =>
    have hcalm := stepFlush_calm r m'
    refine keep ?_ ((stepFlush_fields r m').2.1.trans hm)
    revert hcalm
    cases (r.stepFlush m').pc <;> simp [RPc.calm]
  | @dataPush m' hpc hm' =>
    obtain rfl := Option.some.inj (hm.symm.trans hm')
    exact .pushed m rfl hm hxm (Or.inl hpc)
  | dataLog hpc => exact absurd hpc hpc₀.1
  | @writeOk m' e w _ hm' hw hok =>
    obtain rfl := Option.some.inj (hm.symm.trans hm')
    obtain ⟨fp, hfp⟩ := Option.isSome_iff_exists.1 (hw.open_of_ok hok)
    exact .filed (fp.ino, m.bytes) (by simp [hfp]) hxm
  | drop _ _ =>
    refine .dropped (List.mem_append_right _ ?_)
    rw [hm]
    exact hxm
  | reach _ => exact .hand hx

/-- What is received is in the receiver's hands. -/
theorem RStep.received_cases (h : RStep c quit r fs a r' fs') (hi : RInv r) {x : Cell} (hx : x ∈ r'.received) :
    x ∈ r.received ∨ x ∈ r'.hand := by
  cases h with
  | @recv m m' bs _ hm _ hst =>
    rcases List.mem_append.1 hx with hx | hx
    · exact Or.inl hx
    · have hbytes := (store_bytes hst (hi.flow.bounds m hm).1).2.2.2.2
      rw [receivedCells_length] at hbytes
      refine Or.inr (mem_hand.2 ⟨by simp, _, rfl, ?_⟩)
      rw [hbytes]
      exact List.mem_append_right _ hx
  | @flush m _ _ =>
    rw [stepFlush_eq] at hx
    exact Or.inl hx
  | _ => exact Or.inl hx

theorem RStep.kept_grows (h : RStep c quit r fs a r' fs') : r.dropped <+: r'.dropped ∧ r.filed <+: r'.filed := by
  cases h with
  | writeOk _ _ _ _ => exact ⟨List.prefix_refl _, List.prefix_append _ _⟩
  | drop _ _ => exact ⟨List.prefix_append _ _, List.prefix_refl _⟩
  | @flush m _ _ =>
    rw [stepFlush_eq]
    exact ⟨List.prefix_refl _, List.prefix_refl _⟩
  | _ => exact ⟨List.prefix_refl _, List.prefix_refl _⟩

/-- **Where a received byte can be.** -/
inductive Accounted (s : Sys) (x : Cell) : Prop
  | hand : x ∈ s.rcv.hand → Accounted s x
  | given : x ∈ s.rcv.dropped → Accounted s x
  | sent : x ∈ s.snd.sent → Accounted s x
  | dropped : x ∈ s.snd.dropped → Accounted s x
  | dumped : x ∈ s.snd.dumped → Accounted s x
  | carried (m : Message) : s.Carried m → m.type = 0 → x ∈ m.bytes → Accounted s x
  | filed (p : ℕ × List Cell) : p ∈ s.rcv.filed → x ∈ p.2 → Accounted s x

/-- **Every byte received is accounted for.** -/
structure ByteAcc (c : Configure) (s : Sys) : Prop where
  files : FileAcc s
  threads : ThreadInv c s
  bytes : ∀ x ∈ s.rcv.received, Accounted s x

theorem byteAcc_init (c : Configure) (fs : Disk) : ByteAcc c (Sys.init c fs) :=
  ⟨fileAcc_init c fs, threadInv_init c fs, fun x hx => by cases hx⟩

/-- A step of the receiver. -/
theorem ByteAcc.rcv {s s' : Sys} (h : ByteAcc c s) (hm : RcvMove c s s' a) (hc : RcvSafe s a) {x : Cell}
    (hx : x ∈ s'.rcv.received) : Accounted s' x := by
  have hi := h.files.lists.rcv.base
  have hgrow := hm.step.kept_grows
  rcases hm.step.received_cases hi hx with hx | hx
  swap
  · exact .hand hx
  cases h.bytes x hx with
  | hand hx =>
    cases hm.step.hand hi hx with
    | hand hx => exact .hand hx
    | dropped hx => exact .given hx
    | filed p hp hx => exact .filed p hp hx
    | pushed m hp hmsg hx hpc =>
      -- a message pushed with no list pending has type 0
      have hnone : s.rcv.info.namesMsg.isSome = false := by
        rcases hpc with hpc | hpc
        · exact hi.flow.direct (Or.inl hpc)
        · rw [h.threads.unlisted (by rw [hpc]; rfl)]
          rfl
      have h0 : m.type = 0 := by
        refine hi.flow.typeZero m hmsg hnone ?_ ?_ <;> rcases hpc with hpc | hpc <;> rw [hpc] <;> decide
      exact .carried m (Or.inl (hm.queued.2 m hp)) h0 hx
    | lost ha hpc =>
      subst ha
      exact absurd hpc hc
  | given hx => exact .given (hgrow.1.subset hx)
  | sent hx => exact .sent (by rw [hm.snd]; exact hx)
  | dropped hx => exact .dropped (by rw [hm.snd]; exact hx)
  | dumped hx => exact .dumped (by rw [hm.snd]; exact hx)
  | carried m hcar ht hx => exact .carried m (hm.carried hcar) ht hx
  | filed p hp hx => exact .filed p (hgrow.2.subset hp) hx

theorem SStep.dumped_grows {sd sd' : Snd} {queue queue' : List Message} {b : SAct}
    (h : SStep c quit sd queue fs b sd' queue' fs') : sd.dumped <+: sd'.dumped := by
  cases h with
  | @buff m res _ _ _ => cases res <;> exact List.prefix_refl _
  | @file m res _ _ _ => cases res <;> exact List.prefix_refl _
  | @rename m ok _ _ _ _ =>
    rw [stepRename_eq]
  | fwrite _ _ _ => exact List.prefix_append _ _
  | _ => exact List.prefix_refl _

/-- A step of the sender. -/
theorem ByteAcc.sender {s s' : Sys} {b : SAct} (h : ByteAcc c s) (hm : SndMove c s s' b) (hc : SndSafe c s b)
    {x : Cell} (hx : x ∈ s'.rcv.received) : Accounted s' x := by
  have hgrow := hm.step.sent_grows
  rw [hm.rcv] at hx
  cases h.bytes x hx with
  | hand hx => exact .hand (by rw [hm.rcv]; exact hx)
  | given hx => exact .given (by rw [hm.rcv]; exact hx)
  | sent hx => exact .sent (hgrow.1.subset hx)
  | dropped hx => exact .dropped (hgrow.2.subset hx)
  | dumped hx => exact .dumped (hm.step.dumped_grows.subset hx)
  | carried m hcar ht hx =>
    rcases hm.step.carried h.files.snd hcar with hcar' | ⟨hheld, hh⟩
    · exact .carried m hcar' ht hx
    cases hh with
    | data _ hsent =>
      rcases hsent x hx with hx | hx
      · exact .sent hx
      · exact .dropped hx
    | file _ _ _ hpc _ _ _ _ => exact absurd ht (h.files.snd.files hpc m hheld)
    | rename _ _ h1 _ _ => omega
    | names _ _ h1 => omega
    | dump res hb _ hd =>
      subst hb
      exact .dumped (hd hc x hx)
  | filed p hp hx => exact .filed p (by rw [hm.rcv]; exact hp) hx

theorem SameWork.fileAcc {s s' : Sys} (h : SameWork s s') (hi : FileAcc s) : FileAcc s' := by
  have hl := h.listInv hi.lists
  rw [h.eq] at hl ⊢
  exact ⟨hl, hi.snd, hi.stream, hi.items, hi.dump, hi.dumped⟩

theorem SameWork.accounted {s s' : Sys} (h : SameWork s s') {x : Cell} (hx : Accounted s x) : Accounted s' x := by
  rw [h.eq]
  cases hx with
  | hand hx => exact .hand hx
  | given hx => exact .given hx
  | sent hx => exact .sent hx
  | dropped hx => exact .dropped hx
  | dumped hx => exact .dumped hx
  | carried m hcar ht hx => exact .carried m hcar ht hx
  | filed p hp hx => exact .filed p hp hx

/-- **Every safe step keeps the account.** -/
theorem ByteAcc.step {s s' : Sys} {b : SysAct} (h : ByteAcc c s) (hc : ShutdownSafe c s b) (hs : s.step c b = some s') :
    ByteAcc c s' := by
  have ht := h.threads.step h.files.snd hc hs
  -- a message pushed on the way out has type 0
  have hlast : LastExcused (fun _ => False) s b := by
    intro _ hpc htype
    have hflow := h.files.lists.rcv.base.flow
    obtain ⟨m, hm, h1⟩ := Option.map_eq_some_iff.1 htype
    have hnone := h.threads.unlisted (by rw [hpc]; rfl)
    have h0 := hflow.typeZero m hm (by rw [hnone]; rfl) (by rw [hpc]; decide) (by rw [hpc]; decide)
    omega
  have hl := h.files.lists.step (fun hf _ => hf) hlast hs
  rcases sys_moves hs with ⟨a, rfl, hm⟩ | ⟨d, rfl, hm⟩ | hm
  · refine ⟨h.files.rcv hl hm fun e he => ?_, ht, fun x hx => h.rcv hm hc hx⟩
    subst he
    exact hc
  · exact ⟨h.files.sender hl hm hc, ht, fun x hx => h.sender hm hc hx⟩
  · refine ⟨hm.fileAcc h.files, ht, fun x hx => hm.accounted (h.bytes x ?_)⟩
    rw [hm.rcv] at hx
    exact hx

/-! ## Runs -/

theorem byteAcc {s : Sys} (h : Reach (Sys.step c) (ShutdownSafe c) (Sys.init c fs) s) : ByteAcc c s :=
  h.inv (I := ByteAcc c) (byteAcc_init c fs) fun _ _ _ hi hc hs => hi.step hc hs

/-- The byte is in a file that the dump renamed or wrote, and that `main` leaves behind. -/
def InDumpFile (s : Sys) (reload : Bool) (x : Cell) : Prop :=
  ∃ n i, (s.leave reload).dir n = some i ∧ (i ∈ s.snd.renamed ∨ s.snd.fp.map Stream.ino = some i) ∧
    x ∈ (s.leave reload).node i

/-- **Nothing is lost silently**: the workers have returned or never existed, the queue is
empty, and every byte received was sent, given up or dumped. -/
structure NothingLost (s : Sys) (reload : Bool) : Prop where
  receiver : s.rtid = false ∨ s.rcv.pc = .returned
  sender : s.stid = false ∨ s.snd.pc = .returned
  queue : s.queue = []
  bytes : ∀ x ∈ s.rcv.received,
    x ∈ s.snd.sent ∨ x ∈ s.snd.dropped ∨ x ∈ s.rcv.dropped ∨ InDumpFile s reload x

/-- **When `main` has passed its joins, nothing is left in between.** -/
theorem ByteAcc.end {s : Sys} (h : ByteAcc c s) (hd : s.main = .done) {reload : Bool}
    (hbuf : reload = true → ∀ fp, s.snd.fp = some fp → fp.buf = []) : NothingLost s reload := by
  have ht := h.threads
  have hsnd : s.stid = false ∨ s.snd.pc = .returned := by
    cases hst : s.stid with
    | false => exact Or.inl rfl
    | true => exact Or.inr (ht.done hd hst)
  have hrcv : s.rtid = false ∨ s.rcv.pc = .returned := by
    cases hrt : s.rtid with
    | false => exact Or.inl rfl
    | true => exact Or.inr (ht.joined (by rw [hd]; rfl) hrt)
  have hqueue : s.queue = [] := by
    cases hst : s.stid with
    | false => exact ht.alone hd hst
    | true => exact (ht.left (ht.done hd hst)).1
  have hmsg : s.snd.msg = none := by
    rcases hsnd with h1 | h1
    · rw [ht.noSnd h1]
      rfl
    · exact (ht.left h1).2
  have hcarried : ∀ m, ¬ s.Carried m := by
    rintro m (h1 | h1)
    · rw [hqueue] at h1
      cases h1
    · unfold Snd.carries at h1
      rw [hmsg] at h1
      split at h1 <;> cases h1
  refine ⟨hrcv, hsnd, hqueue, fun x hx => ?_⟩
  -- a receiver that was never created has received nothing
  rcases hrcv with hno | hret
  · rw [ht.noRcv hno] at hx
    cases hx
  have hnames := ht.unlisted (by rw [hret]; rfl)
  have hdata := h.files.lists.rcv.base.data
  have hclosed : s.rcv.info.currFp = none := by
    by_contra hopen
    have := (hdata.curr (Option.isSome_iff_ne_none.2 hopen)).1
    rw [hnames] at this
    cases this
  obtain ⟨hdir, hgrows⟩ := leave_dir s reload
  cases h.bytes x hx with
  | hand hx => exact absurd hret (mem_hand.1 hx).1.2.2
  | given hx => exact Or.inr (Or.inr (Or.inl hx))
  | sent hx => exact Or.inl hx
  | dropped hx => exact Or.inr (Or.inl hx)
  | dumped hx =>
    obtain ⟨fp, hfp, hin⟩ := h.files.dumped x hx
    obtain ⟨n, hn⟩ := h.files.dump fp hfp
    refine Or.inr (Or.inr (Or.inr ⟨n, fp.ino, by rw [hdir]; exact hn, Or.inr (by rw [hfp]; rfl), ?_⟩))
    rw [← hfp] at hin
    exact (leave_snd h.files.lists.snd (fun hr fp hfp => hbuf hr fp hfp) fp.ino).subset hin
  | carried m hcar _ _ => exact absurd hcar (hcarried m)
  | filed p hp hx =>
    rcases h.files.items p hp with h1 | ⟨hre, n, hn⟩ | ⟨n, hn, -⟩
    · rcases h1 x hx with h1 | h1
      · exact Or.inl h1
      · exact Or.inr (Or.inl h1)
    · have hfiled : x ∈ s.rcv.filedOn p.1 := List.mem_flatMap.2 ⟨p, List.mem_filter.2 ⟨hp, by simp⟩, hx⟩
      have hin := (h.files.lists.rcv.filed p.1).subset hfiled
      unfold settled at hin
      rw [hclosed, List.append_nil] at hin
      exact Or.inr (Or.inr (Or.inr ⟨n, p.1, by rw [hdir]; exact hn, Or.inl hre, (hgrows.node _).subset hin⟩))
    · exfalso
      rcases hn with hn | ⟨m, hcar, -⟩
      · rw [pendingNames_of_ne (by rw [hret]; decide) (by rw [hret]; decide)] at hn
        rw [listed_of_none hnames] at hn
        cases hn
      · exact hcarried m hcar

/-- **A shutdown of safe steps loses nothing.** In every run of the four threads whose steps
are all safe, when `main` has passed its joins the workers have returned or never existed,
the queue is empty, and every byte received was sent, given up by an explicit drop, or is
in a file that the dump renamed or wrote, as long as `execlp` does not come before the
dump file is flushed. -/
theorem nothing_lost (c : Configure) (fs : Disk) {s : Sys}
    (h : Reach (Sys.step c) (ShutdownSafe c) (Sys.init c fs) s) (hd : s.main = .done) (reload : Bool)
    (hbuf : reload = true → ∀ fp, s.snd.fp = some fp → fp.buf = []) : NothingLost s reload :=
  (byteAcc h).end hd hbuf

instance (s : Sys) : (a : RAct) → Decidable (RcvSafe s a)
  | .tau => inferInstanceAs (Decidable (_ → _ → _))
  | .push true => inferInstanceAs (Decidable (_ ≠ _))
  | .push false => inferInstanceAs (Decidable (_ ≠ _))
  | .write e => inferInstanceAs (Decidable (WriteSafe s.rcv e))
  | .select _ | .recv _ | .flush _ => isTrue trivial

instance (c : Configure) (s : Sys) : (b : SAct) → Decidable (SndSafe c s b)
  | .tau => inferInstanceAs (Decidable ((_ → _ → _) ∧
      (_ → ∀ m ∈ s.snd.msg, m.type = 1 → ∀ n ∈ m.filenames, s.fs.dir n = none)))
  | .pop true | .flush _ => isTrue trivial
  | .pop false => inferInstanceAs (Decidable (_ → _))
  | .send res => inferInstanceAs (Decidable (s.snd.pc = .files → res ≠ .errNet → ∀ m ∈ s.snd.msg,
      ∀ fp ∈ s.rcv.info.currFp, s.fs.dir m.filename = some fp.ino → fp.buf = []))
  | .rename ok => inferInstanceAs (Decidable (ok = true ∧ ∀ m ∈ s.snd.msg, s.fs.dir (renameTarget c m.filename) = none))
  | .fopen _ ok => inferInstanceAs (Decidable (ok = true))
  | .fwrite res => inferInstanceAs (Decidable (res = none))

instance (c : Configure) (s : Sys) : (b : SysAct) → Decidable (ShutdownSafe c s b)
  | .rcv a => inferInstanceAs (Decidable (RcvSafe s a))
  | .snd b => inferInstanceAs (Decidable (SndSafe c s b))
  | .main => inferInstanceAs (Decidable (_ → _ → _))
  | .starter => inferInstanceAs (Decidable ((_ → _ ∨ _ ∨ _) ∧ (_ → _)))

/-- One message is queued and one stored in a file; uploads fail, and `main` asks the
workers to quit. The sender dumps what it gets until the receiver has left. -/
def gracefulDemo : List SysAct :=
  boot ++
  (turn [] [1, 2] [] ++ idle [] [.push true, .tau] ++
    turn [] [3, 4] [] ++ idle [] [.push false, .write ⟨40, true, none⟩]).map SysAct.rcv ++
  [SysAct.snd (.pop true), .snd .tau, .snd (.send .errNet)] ++
  (turn [.push true, .tau] [5] []).map SysAct.rcv ++ [SysAct.main, .main] ++
  [SysAct.snd .tau, .snd (.fopen 50 true), .snd (.fwrite none), .snd .tau, .snd (.pop true)] ++
  [SysAct.rcv (.push true), .rcv .tau] ++
  [SysAct.snd (.rename true), .snd .tau, .snd .tau, .snd (.pop true)] ++
  (turn [] [6] [.select 0, .tau, .push true, .tau]).map SysAct.rcv ++
  [SysAct.snd .tau, .snd (.fwrite none), .snd .tau, .snd (.pop true), .snd .tau, .snd (.fwrite none), .snd .tau,
    .snd (.pop false)] ++
  [SysAct.main, .main, .main, .main]

theorem gracefulDemo_runs : (run (guarded (Sys.step (demoConf 4200 1)) (ShutdownSafe (demoConf 4200 1)))
    (Sys.init (demoConf 4200 1) (Fs.empty _ _)) gracefulDemo).isSome := by
  decide +kernel

/-- The end of this run. -/
def gracefulDemoEnd : Sys := runTo gracefulDemo_runs

theorem nothing_lost_demo :
    gracefulDemoEnd.rcv.received.map Cell.val = [1, 2, 3, 4, 5, 6] ∧
      gracefulDemoEnd.snd.dumped.map Cell.val = [1, 2, 5, 6] ∧ gracefulDemoEnd.snd.renamed.length = 1 ∧
      NothingLost gracefulDemoEnd false :=
  ⟨by decide +kernel, by decide +kernel, by decide +kernel, nothing_lost (demoConf 4200 1) (Fs.empty _ _)
    (reach_runTo_guarded gracefulDemo_runs) (by decide +kernel) false (fun h => by cases h)⟩

/-- Bytes are received, and `main` asks the workers to quit. The sender finds the queue
empty and leaves; then the receiver pushes its last message. -/
def leftDemo : List SysAct :=
  boot ++ (turn [] [1, 2] []).map SysAct.rcv ++ [SysAct.main, .main, .snd (.pop false), .snd .tau] ++
  [SysAct.rcv (.select 0), .rcv .tau, .rcv (.push true), .rcv .tau] ++ [SysAct.main, .main, .main, .main]

theorem leftDemo_runs : (run (Sys.step (demoConf 4200 1))
    (Sys.init (demoConf 4200 1) (Fs.empty _ _)) leftDemo).isSome := by
  decide +kernel

/-- The end of this run. -/
def leftDemoEnd : Sys := runTo leftDemo_runs

/-- **The last message is left in the queue.** -/
theorem message_left_behind :
    ∃ s, Reach (Sys.step (demoConf 4200 1)) Any (Sys.init (demoConf 4200 1) (Fs.empty _ _)) s ∧
      s.main = .done ∧ s.queue.map (fun m => m.bytes.map Cell.val) = [[1, 2]] ∧ ∀ reload, ¬ NothingLost s reload := by
  have hleft : leftDemoEnd.queue.map (fun m => m.bytes.map Cell.val) = [[1, 2]] := by decide +kernel
  refine ⟨leftDemoEnd, reach_runTo leftDemo_runs, by decide +kernel, hleft, fun reload h => ?_⟩
  rw [h.queue] at hleft
  cases hleft

end HookKernel
