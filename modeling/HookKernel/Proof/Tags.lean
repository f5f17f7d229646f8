import HookKernel.Proof.Order

/-!
# Message tags

The sender reads a message of type 0 as log bytes and any other as file names. The
receiver uses the same field to remember, from one turn to the next, that `msg` goes
to a file, and does not restore it before the push on its way out.

* `queue_tags`: as long as no name list is pending at that push, every queued
  message is what its type says; and a push with a list pending queues raw bytes as
  file names.
* `raw_bytes_as_names`: a run that does so.
-/

namespace HookKernel

open Lib

variable {c : Configure} {quit : Bool} {r r' : Rcv} {fs fs' : Disk} {a : RAct}

/-- **A message is what its type says**: received bytes, or names of data files. -/
structure WellTagged (r : Rcv) (m : Message) : Prop where
  type_or : m.type = 0 ∨ m.type = 1
  bytes : m.type = 0 → m.bytes <:+: r.received
  names : m.type = 1 → ∃ ns : List Name, (∀ n ∈ ns, n ∈ r.created) ∧ m.bytes = encodeNames ns

/-- The push on the way out finds no pending name list. -/
def LeavesClean (s : RSys) (a : RSysAct) : Prop :=
  a = .rcv (.push true) → s.rcv.pc = .lastPush → s.rcv.info.namesMsg = none

instance (s : RSys) (a : RSysAct) : Decidable (LeavesClean s a) :=
  inferInstanceAs (Decidable (_ → _ → _))

theorem RStep.received_grows (h : RStep c quit r fs a r' fs') : r.received <+: r'.received := by
  cases h with
  | recv _ _ _ _ => exact List.prefix_append _ _
  | @flush m _ _ =>
    obtain ⟨-, -, -, h1, -⟩ := stepFlush_fields r m
    rw [h1]
  | _ => exact List.prefix_refl _

/-- A tag that was right stays right. -/
theorem WellTagged.step {m : Message} (hm : WellTagged r m) (h : RStep c quit r fs a r' fs') :
    WellTagged r' m := by
  refine ⟨hm.type_or, fun ht => ?_, fun ht => ?_⟩
  · exact (hm.bytes ht).trans h.received_grows.isInfix
  · obtain ⟨ns, hns, hb⟩ := hm.names ht
    exact ⟨ns, fun n hn => h.created_grows.subset (hns n hn), hb⟩

/-- A message of type 0 in the receiver's hands holds received bytes. -/
theorem wellTagged_msg {m : Message} (hi : RInv r) (hm : r.msg = some m) (ht : m.type = 0) : WellTagged r m :=
  ⟨Or.inl ht, fun _ => (hi.flow.suffix m hm).isInfix, fun h1 => by omega⟩

theorem wellTagged_names {names : Message} (hi : RInv r) (hn : r.info.namesMsg = some names) :
    WellTagged r names := by
  have hl := hi.data.lists hn
  have ht := hl.type_eq
  exact ⟨Or.inr ht, fun h0 => by omega, fun _ => ⟨_, hi.created, hl.bytes⟩⟩

/-- **Every push but a dirty last one queues a message with the right tag.** -/
theorem RStep.tags (h : RStep c quit r fs a r' fs') (hi : RInv r)
    (hc : a = .push true → r.pc = .lastPush → r.info.namesMsg = none)
    (ht : ∀ m ∈ r.pushed, WellTagged r m) : ∀ m ∈ r'.pushed, WellTagged r' m := by
  have old : ∀ m ∈ r.pushed, WellTagged r' m := fun m hm => (ht m hm).step h
  have more : ∀ {x : Message}, WellTagged r x → ∀ m ∈ r.pushed ++ [x], WellTagged r' m := by
    intro x hx m hm
    rcases List.mem_append.1 hm with hm | hm
    · exact old m hm
    · rw [List.mem_singleton.1 hm]
      exact hx.step h
  cases h with
  | @lastPush m ok hpc hm =>
    cases ok with
    | false => exact old
    | true =>
      have hnone := hc rfl hpc
      have h0 := hi.flow.typeZero m hm (by rw [hnone]; rfl) (by rw [hpc]; decide) (by rw [hpc]; decide)
      exact more (wellTagged_msg hi hm h0)
  | namesPush _ hn => exact more (wellTagged_names hi hn)
  | @dataPush m hpc hm =>
    have hnone := hi.flow.direct (Or.inl hpc)
    have h0 := hi.flow.typeZero m hm hnone (by rw [hpc]; decide) (by rw [hpc]; decide)
    exact more (wellTagged_msg hi hm h0)
  | @flush m _ _ =>
    obtain ⟨-, -, -, -, h1, -⟩ := stepFlush_fields r m
    rw [h1]
    exact old
  | _ => exact old

/-! ## Raw bytes are not names -/

theorem encodeNames_src {ns : List Name} : ∀ x ∈ encodeNames ns, x.src = none := by
  intro x hx
  unfold encodeNames encode at hx
  obtain ⟨n, hn, hx⟩ := List.mem_flatMap.1 hx
  obtain ⟨n, -, rfl⟩ := List.mem_map.1 hn
  rcases List.mem_append.1 hx with hx | hx
  · obtain ⟨b, -, rfl⟩ := List.mem_map.1 hx
    rfl
  · rw [List.mem_singleton.1 hx]
    rfl

theorem receivedCells_src {n : ℕ} {bs : List UInt8} : ∀ x ∈ receivedCells n bs, x.src ≠ none := by
  intro x hx
  unfold receivedCells at hx
  obtain ⟨i, hi, rfl⟩ := List.mem_mapIdx.1 hx
  simp

/-- Received bytes of type 1 are not what their type says. -/
theorem not_wellTagged {m : Message} {x : Cell} (ht : m.type = 1) (hx : x ∈ m.bytes) (hsrc : x.src ≠ none) :
    ¬ WellTagged r m := by
  intro h
  obtain ⟨ns, -, hb⟩ := h.names ht
  rw [hb] at hx
  exact hsrc (encodeNames_src x hx)

/-- A nonempty message in the receiver's hands holds a received byte. -/
theorem exists_received {m : Message} (hi : RInv r) (htag : r.received = receivedCells 0 (r.received.map Cell.val))
    (hm : r.msg = some m) (hpos : 0 < m.len) : ∃ x ∈ m.bytes, x.src ≠ none := by
  obtain ⟨-, hle⟩ := hi.flow.bounds m hm
  have hlen : 0 < m.bytes.length := by
    unfold Message.bytes
    rw [List.length_take]
    omega
  obtain ⟨x, hx⟩ := List.exists_mem_of_length_pos hlen
  refine ⟨x, hx, ?_⟩
  have hmem : x ∈ r.received := (hi.flow.suffix m hm).subset hx
  rw [htag] at hmem
  exact receivedCells_src x hmem

/-! ## Runs -/

theorem rsys_inv {C : RSys → RSysAct → Prop} {fs : Disk} {s : RSys} (h : Reach (RSys.step c) C (RSys.init c fs) s) :
    RInv s.rcv ∧ s.rcv.received = receivedCells 0 (s.rcv.received.map Cell.val) := by
  refine h.inv (I := fun s => RInv s.rcv ∧ s.rcv.received = receivedCells 0 (s.rcv.received.map Cell.val))
    ⟨rinv_init c, rfl⟩ ?_
  rintro s a s' ⟨hi, ht⟩ - hs
  cases a with
  | notify =>
    obtain rfl := Option.some.inj hs
    exact ⟨hi, ht⟩
  | rcv a =>
    obtain ⟨hstep, -⟩ := rsys_step_rcv hs
    exact ⟨hstep.inv hi, hstep.tagged ht⟩

/-- **Message tags.** In every run in which the receiver leaves with no name list
pending, every message ever put on the queue is what its type says. A push on the
way out with a list pending breaks this. -/
theorem queue_tags (c : Configure) (fs : Disk) :
    (∀ s, Reach (RSys.step c) LeavesClean (RSys.init c fs) s → ∀ m ∈ s.rcv.pushed, WellTagged s.rcv m) ∧
      ∀ s a s', Reach (RSys.step c) Any (RSys.init c fs) s → s.step c a = some s' → ¬ LeavesClean s a →
        ∃ m ∈ s'.rcv.pushed, ¬ WellTagged s'.rcv m := by
  refine ⟨fun s h => ?_, fun s a s' h hs hdirty => ?_⟩
  · have hinv : RInv s.rcv ∧ ∀ m ∈ s.rcv.pushed, WellTagged s.rcv m := by
      refine h.inv (I := fun s => RInv s.rcv ∧ ∀ m ∈ s.rcv.pushed, WellTagged s.rcv m)
        ⟨rinv_init c, by simp [RSys.init, Rcv.init]⟩ ?_
      rintro s a s' ⟨hi, ht⟩ hc hs
      cases a with
      | notify =>
        obtain rfl := Option.some.inj hs
        exact ⟨hi, ht⟩
      | rcv a =>
        obtain ⟨hstep, -⟩ := rsys_step_rcv hs
        exact ⟨hstep.inv hi, hstep.tags hi (fun ha => hc (by rw [ha])) ht⟩
    exact hinv.2
  · obtain ⟨hi, htag⟩ := rsys_inv h
    unfold LeavesClean at hdirty
    push Not at hdirty
    obtain ⟨rfl, hpc, hlist⟩ := hdirty
    obtain ⟨hstep, -⟩ := rsys_step_rcv hs
    obtain ⟨m, hm⟩ := Option.isSome_iff_exists.1 (hi.flow.has (by rw [hpc]; rfl))
    -- the message was given type 1 when the push of the list failed
    have hpos := hi.flow.pos m hm (Or.inr (Or.inr hpc))
    have ht := hi.flow.kept m hm (Option.isSome_iff_ne_none.2 hlist) (by rw [hpc]; rfl) hpos
    obtain ⟨x, hx, hsrc⟩ := exists_received hi htag hm hpos
    refine ⟨m, ?_, not_wellTagged ht hx hsrc⟩
    generalize hr' : s'.rcv = r' at hstep
    generalize hfs' : s'.fs = fs' at hstep
    cases hstep with
    | lastPush _ hm' =>
      obtain rfl := Option.some.inj (hm.symm.trans hm')
      simp
    | namesPush hpc' _ => rw [hpc] at hpc'; cases hpc'
    | dataPush hpc' _ => rw [hpc] at hpc'; cases hpc'

/-- A turn in which `select` times out. -/
def idle (pre post : List RAct) : List RAct := [.select 0, .tau, .tau] ++ pre ++ [.tau, .tau] ++ post

/-- One message is pushed, which fills a queue of one; the next goes to a file; the one
after it cannot be written and is dropped. Then bytes arrive while the list cannot be
pushed, and the workers are asked to quit. -/
def tagsDemo : List RSysAct :=
  (turn [] [1, 2] [] ++ idle [] [.push true, .tau] ++
    turn [] [3, 4] [] ++ idle [] [.push false, .write ⟨40, true, none⟩] ++
    turn [.push false] [5] [.write ⟨41, true, some 0⟩, .tau] ++
    turn [.push false] [6, 7] []).map .rcv ++
  [.notify, .rcv (.select 0), .rcv .tau, .rcv (.push true)]

theorem tagsDemo_runs :
    (run (RSys.step (demoConf 4200 1)) (RSys.init (demoConf 4200 1) (Fs.empty _ _)) tagsDemo).isSome := by
  decide +kernel

/-- The end of this run. -/
def tagsDemoEnd : RSys := runTo tagsDemo_runs

/-- **Raw bytes are queued as file names**: the last message of this run. -/
theorem raw_bytes_as_names :
    ∃ s, Reach (RSys.step (demoConf 4200 1)) Any (RSys.init (demoConf 4200 1) (Fs.empty _ _)) s ∧
      ∃ m ∈ s.rcv.pushed, m.type = 1 ∧ m.bytes.map Cell.val = [6, 7] ∧ ¬ WellTagged s.rcv m := by
  have hlast : ∃ m ∈ tagsDemoEnd.rcv.pushed, m.type = 1 ∧ m.bytes = [⟨6, some 5⟩, ⟨7, some 6⟩] := by
    decide +kernel
  obtain ⟨m, hm, ht, hb⟩ := hlast
  refine ⟨tagsDemoEnd, reach_runTo tagsDemo_runs, m, hm, ht, by rw [hb]; rfl, ?_⟩
  exact not_wellTagged ht (x := ⟨6, some 5⟩) (by rw [hb]; simp) (by simp)

/-- A run with a shutdown that leaves no name list pending. -/
def cleanDemo : List RSysAct :=
  (turn [] [1, 2] [] ++ idle [] [.push false, .write ⟨40, true, none⟩] ++
    turn [.push true, .tau] [3] []).map RSysAct.rcv ++
  [RSysAct.rcv (.push true), .rcv .tau] ++ (turn [] [4] []).map RSysAct.rcv ++
  [RSysAct.notify, .rcv (.select 0), .rcv .tau, .rcv (.push true)]

theorem cleanDemo_runs : (run (guarded (RSys.step (demoConf 4200 4)) LeavesClean)
    (RSys.init (demoConf 4200 4) (Fs.empty _ _)) cleanDemo).isSome := by
  decide +kernel

/-- The end of this run. -/
def cleanDemoEnd : RSys := runTo cleanDemo_runs

theorem queue_tags_demo : cleanDemoEnd.rcv.pushed.map Message.type = [1, 0, 0] ∧
    ∀ m ∈ cleanDemoEnd.rcv.pushed, WellTagged cleanDemoEnd.rcv m :=
  ⟨by decide +kernel, (queue_tags (demoConf 4200 4) (Fs.empty _ _)).1 cleanDemoEnd
    (reach_runTo_guarded cleanDemo_runs)⟩

end HookKernel
