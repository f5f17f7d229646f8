import HookKernel.Proof.Tags

/-!
# The receive window

`netlink_sock_recv` writes up to `MAX_BUFF_SIZE` bytes at `msg->data + msg->len`. Whether
that fits is decided by the flush test of the turn before, and the test reads `cap`: it is
`node_size` in a fresh message and 0 in one that `MESSAGE_BZERO` cleared. A fresh message
is kept as long as there is room for one more receive; a cleared one is flushed as soon
as it holds a byte.

* `Roomy`: what holds of `msg`, in both regimes.
* `RStep.roomy`: every step of the receiver keeps it.
* `window_inside`: every receive stays below the last byte of the allocation, and that
  byte stays 0.
-/

namespace HookKernel

open Lib

variable {c : Configure} {quit : Bool} {r r' : Rcv} {fs fs' : Disk} {a : RAct}

/-- The points from the start of a turn up to the receive. -/
def RPc.early : RPc → Bool
  | .select | .checkQuit | .ready | .namesPush | .detach | .recv => true
  | _ => false

/-- **A message allocated with `n` data bytes.** The last byte is never written; before a
receive, a message that holds something is a fresh one with room left. -/
structure Roomy (n : ℤ) (early : Bool) (m : Message) : Prop where
  size : (m.data.length : ℤ) = n
  last : (m.data[(n - 1).toNat]?).map Cell.val = some 0
  nonneg : 0 ≤ m.len
  below : m.len ≤ n - 1
  cap : m.cap = n ∨ m.cap = 0
  room : early = true → 0 < m.len → m.cap = n ∧ m.len + (maxBuffSize + 1) ≤ n

variable {n : ℤ} {early : Bool} {m : Message}

/-- Before a receive there is room for it. -/
theorem Roomy.fits (h : Roomy n true m) (hn : maxBuffSize + 1 ≤ n) : m.len + maxBuffSize ≤ n - 1 := by
  have h0 := h.nonneg
  have hroom := h.room rfl
  by_cases hpos : 0 < m.len
  · have h1 := (hroom hpos).2
    omega
  · omega

/-- Past the receive less is asked for. -/
theorem Roomy.late (h : Roomy n early m) : Roomy n false m :=
  ⟨h.size, h.last, h.nonneg, h.below, h.cap, nofun⟩

theorem Roomy.setType (h : Roomy n early m) (t : ℤ) : Roomy n early (Rcv.setType m t) :=
  ⟨h.size, h.last, h.nonneg, h.below, h.cap, h.room⟩

theorem roomy_new {addr : ℕ} (hn : maxBuffSize + 1 ≤ n) (h : messageNew addr n = some m) : Roomy n early m := by
  unfold maxBuffSize at hn
  obtain ⟨-, rfl⟩ := messageNew_cases h
  refine ⟨?_, ?_, Int.le_refl 0, ?_, Or.inl rfl, ?_⟩
  · rw [List.length_replicate]
    omega
  · rw [List.getElem?_replicate, if_pos (by omega)]
    rfl
  · simp only
    omega
  · intro _ hpos
    exact absurd hpos (Int.lt_irrefl 0)

/-- `MESSAGE_BZERO` clears `cap` as well. -/
theorem Roomy.bzero (h : Roomy n early m) : Roomy n true m.bzero := by
  have hsize := h.size
  have hlen : (m.bzero.data.length : ℤ) = n := by rw [length_bzero, hsize]
  refine ⟨hlen, ?_, Int.le_refl 0, ?_, Or.inr rfl, ?_⟩
  · rcases h.cap with hcap | hcap
    · have hdata : m.bzero.data = List.replicate m.data.length (.text 0) := by
        unfold Message.bzero
        simp only
        rw [List.drop_eq_nil_of_le (by omega), List.append_nil, show min m.cap.toNat m.data.length = m.data.length by omega]
      rw [hdata, List.getElem?_replicate, if_pos (by have := h.nonneg; have := h.below; omega)]
      rfl
    · -- a second time only the header is cleared
      have hdata : m.bzero.data = m.data := by
        unfold Message.bzero
        simp [hcap]
      rw [hdata]
      exact h.last
  · have := h.nonneg
    have := h.below
    simp only [bzero_len]
    omega
  · intro _ hpos
    exact absurd hpos (Int.lt_irrefl 0)

/-- **A receive** of at most `MAX_BUFF_SIZE` bytes. -/
theorem Roomy.receive {m' : Message} {bs : List Cell} (h : Roomy n true m) (hn : maxBuffSize + 1 ≤ n)
    (hbs : (bs.length : ℤ) ≤ maxBuffSize) (hst : m.store m.len bs = some m') :
    Roomy n false { m' with len := m'.len + bs.length } := by
  have hfit := h.fits hn
  have hl := h.nonneg
  have hsize := h.size
  obtain ⟨-, hin, rfl⟩ := store_cases hst
  refine ⟨?_, ?_, ?_, ?_, h.cap, nofun⟩
  · simp only
    rw [length_overwrite (by omega)]
    exact hsize
  · simp only
    rw [getElem?_overwrite (by omega) (by omega)]
    exact h.last
  · simp only
    omega
  · simp only
    omega

/-- The flush test, when it does not flush. -/
theorem Roomy.waits (h : Roomy n false m) (hno : ¬ (m.len > 0 ∧ (r.nfds = 0 ∨ m.cap - m.len < maxBuffSize + 1))) :
    Roomy n true m := by
  refine ⟨h.size, h.last, h.nonneg, h.below, h.cap, fun _ hpos => ?_⟩
  have hlarge : maxBuffSize + 1 ≤ m.cap - m.len := by
    by_contra hlt
    exact hno ⟨hpos, Or.inr (by omega)⟩
  rcases h.cap with hcap | hcap
  · exact ⟨hcap, by omega⟩
  · -- a cleared message that holds a byte is always flushed
    unfold maxBuffSize at hlarge
    omega

/-- **Every step of the receiver keeps the room.** -/
theorem RStep.roomy (h : RStep c quit r fs a r' fs') (hi : RInv r) (hn : maxBuffSize + 1 ≤ c.nodeSize)
    (hr : ∀ m, r.msg = some m → Roomy c.nodeSize r.pc.early m) :
    ∀ m, r'.msg = some m → Roomy c.nodeSize r'.pc.early m := by
  have early : ∀ {p : RPc}, r.pc = p → p.early = true → ∀ m, r.msg = some m → ∀ b, Roomy c.nodeSize b m := by
    rintro _ rfl hp m hm b
    have h1 := hr m hm
    rw [hp] at h1
    cases b with
    | true => exact h1
    | false => exact h1.late
  have late : ∀ m, r.msg = some m → Roomy c.nodeSize false m := fun m hm => (hr m hm).late
  cases h with
  | selectErr _ _ | reach _ => exact hr
  | select hpc _ | goOn hpc _ | quitPush hpc _ _ _ | quitDone hpc _ _ | recvErr hpc _ | noRecv hpc =>
    exact fun m hm => early hpc rfl m hm _
  | keep hpc _ | namesPush hpc _ => exact fun m hm => early hpc rfl m hm _
  | lastPush _ _ | lastLog _ | dataPush _ _ => exact late
  | alloc _ _ hnew =>
    rintro _ ⟨⟩
    exact roomy_new hn hnew
  | namesFail hpc | detach hpc =>
    intro m' hm'
    obtain ⟨m, hm, rfl⟩ := Option.map_eq_some_iff.1 hm'
    exact (early hpc rfl m hm true).setType _
  | @recv m m' bs hpc hm hbs hst =>
    rintro _ ⟨⟩
    have h1 := (early hpc rfl m hm true).receive hn (by rw [receivedCells_length]; exact hbs) hst
    rw [receivedCells_length] at h1
    exact h1
  | @flush m hpc hm =>
    unfold Rcv.stepFlush
    split
    · split
      · exact late
      · rename_i h0
        split
        · exact late
        · rename_i h1
          exact absurd (hi.flow.type_or m hm) (by omega)
    · rename_i hno
      intro m' hm'
      obtain rfl := Option.some.inj (hm.symm.trans hm')
      exact (late m hm).waits hno
  | dataFail hpc =>
    intro m' hm'
    obtain ⟨m, hm, rfl⟩ := Option.map_eq_some_iff.1 hm'
    exact (late m hm).setType _
  | dataLog _ | drop _ _ => exact nofun
  | writeOk _ hm _ _ =>
    rintro _ ⟨⟩
    exact (late _ hm).bzero
  | writeFail _ _ _ _ => exact late

theorem rsys_roomy {C : RSys → RSysAct → Prop} {fs : Disk} {s : RSys} (hn : maxBuffSize + 1 ≤ c.nodeSize)
    (h : Reach (RSys.step c) C (RSys.init c fs) s) :
    RInv s.rcv ∧ ∀ m, s.rcv.msg = some m → Roomy c.nodeSize s.rcv.pc.early m := by
  refine h.inv (I := fun s => RInv s.rcv ∧ ∀ m, s.rcv.msg = some m → Roomy c.nodeSize s.rcv.pc.early m)
    ⟨rinv_init c, nofun⟩ ?_
  rintro s a s' ⟨hi, hr⟩ - hs
  cases a with
  | notify =>
    obtain rfl := Option.some.inj hs
    exact ⟨hi, hr⟩
  | rcv a =>
    obtain ⟨hstep, -⟩ := rsys_step_rcv hs
    exact ⟨hstep.inv hi, hstep.roomy hi hn hr⟩

/-- What is asked of `netlink_sock_recv(sockfd, CSNETLINK_A_LOG, &msg->data[msg->len], MAX_BUFF_SIZE)`
and of the `%s` of `message_drop`: the bytes that may be written lie in front of the last one
allocated, every receive has a result, and the last byte is 0. -/
structure WindowInside (c : Configure) (s : RSys) (m : Message) : Prop where
  size : (m.data.length : ℤ) = c.nodeSize
  last : (m.data[(c.nodeSize - 1).toNat]?).map Cell.val = some 0
  window : s.rcv.pc = .recv → 0 < s.rcv.nfds → 0 ≤ m.len ∧ m.len + maxBuffSize ≤ c.nodeSize - 1
  receives : s.rcv.pc = .recv → 0 < s.rcv.nfds → ∀ bs : List UInt8, (bs.length : ℤ) ≤ maxBuffSize →
    (s.step c (.rcv (.recv (some bs)))).isSome

/-- **The receive window never leaves the allocation**, in any run of the receiver. -/
theorem window_inside (c : Configure) (fs : Disk) (hn : maxBuffSize + 1 ≤ c.nodeSize) (s : RSys)
    (h : Reach (RSys.step c) Any (RSys.init c fs) s) (m : Message) (hm : s.rcv.msg = some m) : WindowInside c s m := by
  obtain ⟨-, hr⟩ := rsys_roomy hn h
  have hroomy := hr m hm
  have hwin : s.rcv.pc = .recv → 0 ≤ m.len ∧ m.len + maxBuffSize ≤ c.nodeSize - 1 := by
    intro hpc
    rw [hpc] at hroomy
    exact ⟨hroomy.nonneg, hroomy.fits hn⟩
  refine ⟨hroomy.size, hroomy.last, fun hpc _ => hwin hpc, fun hpc hnfds bs hbs => ?_⟩
  have hsize := hroomy.size
  obtain ⟨h0, hfit⟩ := hwin hpc
  have hin : m.len + (receivedCells s.rcv.received.length bs).length ≤ m.data.length := by
    rw [receivedCells_length]
    omega
  have hst := store_fits h0 hin
  simp [RSys.step, Rcv.step, Rcv.stepRecv, hpc, hm, hst, not_lt.2 hbs, hnfds]

/-- A message is cleared and used again: the push of the second one times out, it goes to a file, and
the next turn is about to receive. -/
def windowDemo : List RSysAct :=
  (turn [] [1, 2] [.push true, .tau] ++ turn [] [3, 4] [.push false, .write ⟨40, true, none⟩] ++
    [RAct.select 1, .tau, .push false]).map .rcv

theorem windowDemo_runs :
    (run (RSys.step (demoConf 4097 1)) (RSys.init (demoConf 4097 1) (Fs.empty _ _)) windowDemo).isSome := by
  decide +kernel

/-- The state in which it receives. -/
def windowDemoEnd : RSys := runTo windowDemo_runs

theorem window_inside_demo : ∃ m, windowDemoEnd.rcv.msg = some m ∧ m.cap = 0 ∧ windowDemoEnd.rcv.pc = .recv ∧
    WindowInside (demoConf 4097 1) windowDemoEnd m := by
  have hsome : (windowDemoEnd.rcv.msg.map Message.cap) = some 0 ∧ windowDemoEnd.rcv.pc = .recv := by decide +kernel
  obtain ⟨m, hm, hcap⟩ := Option.map_eq_some_iff.1 hsome.1
  exact ⟨m, hm, hcap, hsome.2, window_inside (demoConf 4097 1) (Fs.empty _ _) (by decide) windowDemoEnd
    (reach_runTo windowDemo_runs) m hm⟩

end HookKernel
