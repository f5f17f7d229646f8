import HookKernel.Lib.Observe
import HookKernel.Proof.Sender
import HookKernel.Proof.Window

/-!
# A message used again

After a successful write the receiver clears its message with `MESSAGE_BZERO` and goes on
with it. The macro clears the whole header, `cap` included, and the flush test reads `cap`.

* `Feed`, `fedNext`: the receiver on given results of its calls. What it puts out are the
  messages pushed and the writes to data files.
* `Twin`: two receivers that differ in `cap` and in stale bytes only.
* `Twin.next`: with the least `node_size` allowed, every message that holds a byte is
  flushed, and twins stay twins.
* `early_flush`: with any other `node_size` a single byte received tells them apart.
* `reuse_iff`: going on with the cleared message is like going on with a new one exactly
  if `node_size` is the least allowed.
-/

namespace HookKernel

open Lib

variable {c : Configure} {quit : Bool} {r r' r₁ r₂ : Rcv} {fs fs' : Disk} {a : RAct}

/-! ## The receiver on given results -/

/-- The results of the calls to come, each in its order. -/
structure Feed where
  selects : List ℤ
  quits : List Bool
  pushes : List Bool
  recvs : List (Option (List UInt8))
  writes : List WriteEnv

/-- The receiver, the files, the results to come and (ghost) the writes to data files so far: the
name and the bytes of each. -/
structure Fed where
  rcv : Rcv
  fs : Disk
  feed : Feed
  writes : List (Name × List UInt8)

/-- The result of the next call, what `check_workers_quit` returns, and the results after it; `none`
if there is none left or the receiver has returned. -/
def Rcv.fed (r : Rcv) (f : Feed) : Option (RAct × Bool × Feed) :=
  match r.pc with
  | .select => match f.selects with
    | [] => none
    | n :: selects => some (.select n, false, { f with selects := selects })
  | .checkQuit => match f.quits with
    | [] => none
    | quit :: quits => some (.tau, quit, { f with quits := quits })
  | .lastPush | .namesPush | .dataPush => match f.pushes with
    | [] => none
    | ok :: pushes => some (.push ok, false, { f with pushes := pushes })
  | .recv =>
    if r.nfds > 0 then
      match f.recvs with
      | [] => none
      | bs :: recvs => some (.recv bs, false, { f with recvs := recvs })
    else some (.tau, false, f)
  | .write => match f.writes with
    | [] => none
    | e :: writes => some (.write e, false, { f with writes := writes })
  | .lastLog | .ready | .detach | .flush | .dataLog | .drop => some (.tau, false, f)
  | .returned => none

/-- The write to a data file that the receiver makes with action `a`. -/
def Rcv.writes (c : Configure) (r : Rcv) (fs : Disk) (a : RAct) : List (Name × List UInt8) :=
  match r.pc, a with
  | .write, .write e =>
    (r.msg.bind fun m => datafileWriteDatamsg c.localtime r.info fs m r.fresh e).toList.map fun w =>
      (w.info.fname, w.wrote.map Cell.val)
  | _, _ => []

/-- A step on the next result. -/
def fedStep (c : Configure) (x : Fed) : Option Fed :=
  (x.rcv.fed x.feed).bind fun (a, quit, feed) =>
    (x.rcv.step c quit x.fs a).map fun (r, fs) => ⟨r, fs, feed, x.writes ++ x.rcv.writes c x.fs a⟩

/-- A step, if there is one. -/
def fedNext (c : Configure) (x : Fed) : Fed := (fedStep c x).getD x

/-- What can be seen of a message in the queue: its type and its bytes. -/
def Message.seen (m : Message) : ℤ × List UInt8 := (m.type, m.bytes.map Cell.val)

/-- The messages pushed so far. -/
def Fed.pushed (x : Fed) : List (ℤ × List UInt8) := x.rcv.pushed.map Message.seen

/-- Going on with `r₁` is like going on with `r₂`: on all results to come, the same messages are pushed
and the same writes are made. -/
def SameBehaviour (c : Configure) (r₁ r₂ : Rcv) (fs : Disk) : Prop :=
  ∀ feed, SameOut (fun n => ((fedNext c)^[n] ⟨r₁, fs, feed, []⟩).pushed)
      (fun n => ((fedNext c)^[n] ⟨r₂, fs, feed, []⟩).pushed) ∧
    SameOut (fun n => ((fedNext c)^[n] ⟨r₁, fs, feed, []⟩).writes)
      (fun n => ((fedNext c)^[n] ⟨r₂, fs, feed, []⟩).writes)

/-- With data arriving, a message is flushed only if fewer than `MAX_BUFF_SIZE + 1` of its `node_size`
bytes are free. -/
def FlushesLate (c : Configure) (r : Rcv) (fs : Disk) : Prop :=
  ∀ feed n m, ((fedNext c)^[n] ⟨r, fs, feed, []⟩).rcv.pc = .flush → 0 < ((fedNext c)^[n] ⟨r, fs, feed, []⟩).rcv.nfds →
    ((fedNext c)^[n] ⟨r, fs, feed, []⟩).rcv.msg = some m →
    (((fedNext c)^[n] ⟨r, fs, feed, []⟩).rcv.stepFlush m).pc ≠ .select → c.nodeSize - m.len < maxBuffSize + 1

/-! ## Twins -/

/-- Two messages that hold the same bytes in the same space, whose `cap` never keeps them back. -/
structure Alike (m₁ m₂ : Message) : Prop where
  type : m₁.type = m₂.type
  len : m₁.len = m₂.len
  bytes : m₁.bytes = m₂.bytes
  size : m₁.data.length = m₂.data.length
  nonneg : 0 ≤ m₁.len
  cap₁ : m₁.cap ≤ maxBuffSize + 1
  cap₂ : m₂.cap ≤ maxBuffSize + 1

/-- Two receivers that differ in such messages only. -/
structure Twin (r₁ r₂ : Rcv) : Prop where
  eq : r₂ = { r₁ with msg := r₂.msg, pushed := r₂.pushed }
  held : ∀ m₁, r₁.msg = some m₁ → ∃ m₂, r₂.msg = some m₂ ∧ Alike m₁ m₂
  empty : r₁.msg = none → r₂.msg = none
  pushed : r₁.pushed.map Message.seen = r₂.pushed.map Message.seen

variable {m m₁ m₂ : Message}

theorem Alike.symm (h : Alike m₁ m₂) : Alike m₂ m₁ :=
  ⟨h.type.symm, h.len.symm, h.bytes.symm, h.size.symm, h.len ▸ h.nonneg, h.cap₂, h.cap₁⟩

theorem Alike.seen (h : Alike m₁ m₂) : m₁.seen = m₂.seen := by
  unfold Message.seen
  rw [h.type, h.bytes]

theorem Alike.setType (h : Alike m₁ m₂) (t : ℤ) : Alike (Rcv.setType m₁ t) (Rcv.setType m₂ t) :=
  ⟨rfl, h.len, h.bytes, h.size, h.nonneg, h.cap₁, h.cap₂⟩

theorem zero_le_cap : (0 : ℤ) ≤ maxBuffSize + 1 := by decide

theorem Alike.bzero (h : Alike m₁ m₂) : Alike m₁.bzero m₂.bzero := by
  have hlen : m₁.bzero.data.length = m₂.bzero.data.length := by rw [length_bzero, length_bzero, h.size]
  exact ⟨rfl, rfl, rfl, hlen, Int.le_refl 0, zero_le_cap, zero_le_cap⟩

/-- A receive into both. -/
theorem Alike.receive {bs : List Cell} {m₁' : Message} (h : Alike m₁ m₂) (hst : m₁.store m₁.len bs = some m₁') :
    ∃ m₂', m₂.store m₂.len bs = some m₂' ∧
      Alike { m₁' with len := m₁'.len + bs.length } { m₂' with len := m₂'.len + bs.length } := by
  obtain ⟨h0, hin, hm₁'⟩ := store_cases hst
  have hin₂ : m₂.len + bs.length ≤ m₂.data.length := by
    rw [← h.len, ← h.size]
    exact hin
  have hst₂ := store_fits (h.len ▸ h0) hin₂
  obtain ⟨-, -, e3, -, e5⟩ := store_bytes hst h.nonneg
  obtain ⟨-, -, f3, -, f5⟩ := store_bytes hst₂ (h.len ▸ h.nonneg)
  refine ⟨_, hst₂, ⟨?_, ?_, ?_, ?_, ?_, ?_, ?_⟩⟩
  · rw [hm₁']
    exact h.type
  · rw [hm₁']
    exact congrArg (· + (bs.length : ℤ)) h.len
  · rw [e5, f5, h.bytes]
  · exact e3.trans (h.size.trans f3.symm)
  · rw [hm₁']
    simp only
    omega
  · rw [hm₁']
    exact h.cap₁
  · exact h.cap₂

theorem Twin.symm (h : Twin r₁ r₂) : Twin r₂ r₁ := by
  refine ⟨?_, fun m₂ hm₂ => ?_, fun hnone => ?_, h.pushed.symm⟩
  · rw [h.eq]
  · cases hm₁ : r₁.msg with
    | none =>
      rw [h.empty hm₁] at hm₂
      cases hm₂
    | some m₁ =>
      obtain ⟨m, hm, hal⟩ := h.held m₁ hm₁
      obtain rfl := Option.some.inj (hm.symm.trans hm₂)
      exact ⟨m₁, rfl, hal.symm⟩
  · cases hm₁ : r₁.msg with
    | none => rfl
    | some m₁ =>
      obtain ⟨m, hm, -⟩ := h.held m₁ hm₁
      rw [hnone] at hm
      cases hm

theorem alike_new {addr : ℕ} (hn : c.nodeSize = maxBuffSize + 1) (h : messageNew addr c.nodeSize = some m) :
    Alike m m := by
  obtain ⟨hlen, -⟩ := messageNew_fields h
  have hcap : m.cap ≤ maxBuffSize + 1 := by
    obtain ⟨-, rfl⟩ := messageNew_cases h
    exact hn.le
  exact ⟨rfl, rfl, rfl, rfl, hlen.ge, hcap, hcap⟩

/-- Both are flushed as soon as they hold a byte. -/
theorem Alike.flush (h : Alike m₁ m₂) (r₁ r₂ : Rcv) : (r₂.stepFlush m₂).pc = (r₁.stepFlush m₁).pc := by
  have h1 := h.cap₁
  have h2 := h.cap₂
  rw [stepFlush_pc, stepFlush_pc, ← h.len, ← h.type]
  by_cases hpos : m₁.len > 0
  · have hc₁ : m₁.cap - m₁.len < maxBuffSize + 1 := by omega
    have hc₂ : m₂.cap - m₁.len < maxBuffSize + 1 := by omega
    simp only [hpos, hc₁, hc₂, or_true, and_self, if_true]
  · simp only [hpos, false_and, if_false]

/-- `datafile_write_datamsg` reads the length and the bytes of its message. -/
theorem datafileWriteDatamsg_congr (h : Alike m₁ m₂) (lt : ℤ → Tm) (info : DatafileInfo) (fs : Disk) (addr : ℕ)
    (e : WriteEnv) : datafileWriteDatamsg lt info fs m₂ addr e = datafileWriteDatamsg lt info fs m₁ addr e := by
  have hcurr : ∀ info fp fs opened, writeCurr info fp fs m₂ e.fwrite opened = writeCurr info fp fs m₁ e.fwrite opened := by
    intro info fp fs opened
    unfold writeCurr
    rw [h.len, h.bytes]
  have hover : ∀ info : DatafileInfo, info.over m₂ = info.over m₁ := by
    intro info
    unfold DatafileInfo.over
    rw [h.len]
  unfold datafileWriteDatamsg DatafileInfo.rotate
  simp only [hcurr, hover]

theorem receives_pos {bs : Option (List UInt8)} (hpc : r.pc = .recv) (h : r.step c quit fs (.recv bs) = some (r', fs')) :
    r.nfds > 0 := by
  simp only [Rcv.step, hpc] at h
  by_contra hno
  rw [if_neg hno] at h
  cases h

theorem noRecv_nonpos (hpc : r.pc = .recv) (h : r.step c quit fs .tau = some (r', fs')) : ¬ r.nfds > 0 := by
  simp only [Rcv.step, hpc] at h
  intro hpos
  rw [if_pos hpos] at h
  cases h

namespace Twin

theorem seen_concat (h : Twin r₁ r₂) (hal : m₁.seen = m₂.seen) :
    (r₁.pushed ++ [m₁]).map Message.seen = (r₂.pushed ++ [m₂]).map Message.seen := by
  rw [List.map_append, List.map_append, h.pushed, List.map_singleton, List.map_singleton, hal]

/-- The same type given to both messages. -/
theorem held_setType (h : Twin r₁ r₂) (t : ℤ) : ∀ m₁, r₁.msg.map (Rcv.setType · t) = some m₁ →
    ∃ m₂, r₂.msg.map (Rcv.setType · t) = some m₂ ∧ Alike m₁ m₂ := by
  intro m hm
  obtain ⟨m₁, hm₁, rfl⟩ := Option.map_eq_some_iff.1 hm
  obtain ⟨m₂, hm₂, hal⟩ := h.held m₁ hm₁
  exact ⟨Rcv.setType m₂ t, by rw [hm₂]; rfl, hal.setType t⟩

theorem empty_setType (h : Twin r₁ r₂) (t : ℤ) (hnone : r₁.msg.map (Rcv.setType · t) = none) :
    r₂.msg.map (Rcv.setType · t) = none := by
  rw [Option.map_eq_none_iff] at hnone ⊢
  exact h.empty hnone

/-- The bytes that `MESSAGE_DROP` gives up. -/
theorem bytes_eq (h : Twin r₁ r₂) : r₂.msg.map Message.bytes = r₁.msg.map Message.bytes := by
  cases hm : r₁.msg with
  | none => rw [h.empty hm]
  | some m₁ =>
    obtain ⟨m₂, hm₂, hal⟩ := h.held m₁ hm
    rw [hm₂, Option.map_some, Option.map_some, hal.bytes]

/-- The write to a data file. -/
theorem write {e : WriteEnv} (h : Twin r₁ r₂) (hpc : r₁.pc = .write)
    (hs : r₁.step c quit fs (.write e) = some (r', fs')) :
    ∃ r₂', r₂.step c quit fs (.write e) = some (r₂', fs') ∧ Twin r' r₂' := by
  have hpc₂ : r₂.pc = .write := by rw [h.eq]; exact hpc
  simp only [Rcv.step, hpc] at hs
  obtain ⟨m₁, hm₁, hs⟩ := Option.bind_eq_some_iff.1 hs
  obtain ⟨m₂, hm₂, hal⟩ := h.held m₁ hm₁
  unfold Rcv.stepWrite at hs
  simp only [Option.bind_eq_bind, Option.bind_eq_some_iff] at hs
  obtain ⟨w, hw, hs⟩ := hs
  have hw₂ : datafileWriteDatamsg c.localtime r₂.info fs m₂ r₂.fresh e = some w := by
    rw [datafileWriteDatamsg_congr hal]
    rw [h.eq]
    exact hw
  have hstep : r₂.step c quit fs (.write e) = r₂.stepWrite c fs m₂ e := by
    simp only [Rcv.step, hpc₂, hm₂, Option.bind_some]
  rw [hstep]
  unfold Rcv.stepWrite
  rw [hw₂]
  simp only [Option.bind_eq_bind, Option.bind_some]
  cases hok : w.ok with
  | true =>
    simp only [hok, if_true, Option.some.injEq, Prod.mk.injEq] at hs
    obtain ⟨rfl, rfl⟩ := hs
    refine ⟨_, rfl, ?_, ?_, (fun hn => by cases hn), h.pushed⟩
    · simp only [hal.bytes]
      conv_lhs => rw [h.eq]
    · rintro _ ⟨⟩
      exact ⟨m₂.bzero, rfl, hal.bzero⟩
  | false =>
    simp only [hok, Bool.false_eq_true, if_false, Option.some.injEq, Prod.mk.injEq] at hs
    obtain ⟨rfl, rfl⟩ := hs
    refine ⟨_, rfl, ?_, h.held, h.empty, h.pushed⟩
    conv_lhs => rw [h.eq]

/-- **With the least `node_size`, twins take the same steps.** -/
theorem step (h : Twin r₁ r₂) (hn : c.nodeSize = maxBuffSize + 1) (hs : r₁.step c quit fs a = some (r', fs')) :
    ∃ r₂', r₂.step c quit fs a = some (r₂', fs') ∧ Twin r' r₂' := by
  have hpc₂ : r₂.pc = r₁.pc := by rw [h.eq]
  have hinfo : r₂.info = r₁.info := by rw [h.eq]
  have hnfds : r₂.nfds = r₁.nfds := by rw [h.eq]
  have hfresh : r₂.fresh = r₁.fresh := by rw [h.eq]
  have hready : r₂.afterReady = r₁.afterReady := by
    unfold Rcv.afterReady
    rw [hinfo]
  have moved : ∀ pc, Twin { r₁ with pc := pc } { r₂ with pc := pc } := by
    intro pc
    refine ⟨?_, h.held, h.empty, h.pushed⟩
    conv_lhs => rw [h.eq]
  cases rstep_cases hs with
  | selectErr hpc hneg => exact ⟨r₂, by simp [Rcv.step, hpc₂, hpc, hneg], h⟩
  | @select n hpc hn0 =>
    refine ⟨{ r₂ with pc := if n = 0 then .checkQuit else .ready, nfds := n },
      by simp [Rcv.step, hpc₂, hpc, not_lt.2 hn0], ?_, h.held, h.empty, h.pushed⟩
    conv_lhs => rw [h.eq]
  | goOn hpc hq => exact ⟨{ r₂ with pc := .ready }, by simp [Rcv.step, hpc₂, hpc, hq], moved _⟩
  | quitPush hpc hq hm hpos =>
    obtain ⟨m₂, hm₂, hal⟩ := h.held _ hm
    exact ⟨{ r₂ with pc := .lastPush }, by simp [Rcv.step, hpc₂, hpc, hq, hm₂, ← hal.len, hpos], moved _⟩
  | quitDone hpc hq hle =>
    cases hm : r₁.msg with
    | none => exact ⟨{ r₂ with pc := .returned }, by simp [Rcv.step, hpc₂, hpc, hq, h.empty hm], hm ▸ moved _⟩
    | some m₁ =>
      obtain ⟨m₂, hm₂, hal⟩ := h.held _ hm
      exact ⟨{ r₂ with pc := .returned }, by simp [Rcv.step, hpc₂, hpc, hq, hm₂, ← hal.len, hle m₁ hm], hm ▸ moved _⟩
  | @lastPush m ok hpc hm =>
    obtain ⟨m₂, hm₂, hal⟩ := h.held _ hm
    refine ⟨{ r₂ with pc := .lastLog, pushed := if ok then r₂.pushed ++ [m₂] else r₂.pushed },
      by simp [Rcv.step, hpc₂, hpc, hm₂], ?_, h.held, h.empty, ?_⟩
    · conv_lhs => rw [h.eq]
    · cases ok with
      | true => exact h.seen_concat hal.seen
      | false => exact h.pushed
  | lastLog hpc => exact ⟨{ r₂ with pc := .returned }, by simp [Rcv.step, hpc₂, hpc], moved _⟩
  | keep hpc hsome =>
    obtain ⟨m₁, hm⟩ := Option.isSome_iff_exists.1 hsome
    obtain ⟨m₂, hm₂, -⟩ := h.held _ hm
    exact ⟨{ r₂ with pc := r₁.afterReady }, by simp [Rcv.step, Rcv.stepReady, hpc₂, hpc, hm₂, hready], moved _⟩
  | @alloc m hpc hnone hnew =>
    have hnew₂ : messageNew r₂.fresh c.nodeSize = some m := by
      rw [hfresh]
      exact hnew
    refine ⟨{ r₂ with pc := r₁.afterReady, msg := some m, fresh := r₂.fresh + 1 },
      by simp [Rcv.step, Rcv.stepReady, hpc₂, hpc, h.empty hnone, hready, hnew₂], ?_, ?_, (fun hn => by cases hn), h.pushed⟩
    · conv_lhs => rw [h.eq]
    · rintro _ ⟨⟩
      exact ⟨m, rfl, alike_new hn hnew⟩
  | @namesPush names hpc hnames =>
    refine ⟨{ r₂ with pc := .detach, pushed := r₂.pushed ++ [names], handed := r₂.stored.length },
      by simp [Rcv.step, hpc₂, hpc, hinfo, hnames], ?_, h.held, h.empty, h.seen_concat rfl⟩
    conv_lhs => rw [h.eq]
  | namesFail hpc =>
    refine ⟨{ r₂ with pc := .recv, msg := r₂.msg.map (Rcv.setType · 1) }, by simp [Rcv.step, hpc₂, hpc], ?_,
      h.held_setType 1, h.empty_setType 1, h.pushed⟩
    conv_lhs => rw [h.eq]
  | detach hpc =>
    refine ⟨{ r₂ with pc := .recv, info := (datafileDetachNamemsg r₁.info fs).1, msg := r₂.msg.map (Rcv.setType · 0) },
      by simp [Rcv.step, hpc₂, hpc, hinfo], ?_, h.held_setType 0, h.empty_setType 0, h.pushed⟩
    conv_lhs => rw [h.eq]
  | recvErr hpc hsome =>
    obtain ⟨m₁, hm⟩ := Option.isSome_iff_exists.1 hsome
    obtain ⟨m₂, hm₂, -⟩ := h.held _ hm
    have hpos : r₁.nfds > 0 := receives_pos hpc hs
    exact ⟨{ r₂ with pc := .flush }, by simp [Rcv.step, Rcv.stepRecv, hpc₂, hpc, hm₂, hnfds, hpos], moved _⟩
  | @recv m₁ m₁' bs hpc hm hbs hst =>
    obtain ⟨m₂, hm₂, hal⟩ := h.held _ hm
    obtain ⟨m₂', hst₂, hal'⟩ := hal.receive hst
    have hpos : r₁.nfds > 0 := receives_pos hpc hs
    have hrecv : r₂.received = r₁.received := by rw [h.eq]
    rw [receivedCells_length] at hal'
    refine ⟨{ r₂ with pc := .flush, msg := some { m₂' with len := m₂'.len + bs.length }
                      received := r₁.received ++ receivedCells r₁.received.length bs },
      by simp [Rcv.step, Rcv.stepRecv, hpc₂, hpc, hm₂, hnfds, hpos, not_lt.2 hbs, hrecv, hst₂], ?_, ?_, (fun hn => by cases hn), h.pushed⟩
    · conv_lhs => rw [h.eq]
    · rintro _ ⟨⟩
      exact ⟨_, rfl, hal'⟩
  | noRecv hpc =>
    have hpos : ¬ r₁.nfds > 0 := noRecv_nonpos hpc hs
    exact ⟨{ r₂ with pc := .flush }, by simp [Rcv.step, hpc₂, hpc, hnfds, hpos], moved _⟩
  | @flush m₁ hpc hm =>
    obtain ⟨m₂, hm₂, hal⟩ := h.held _ hm
    refine ⟨r₂.stepFlush m₂, by simp [Rcv.step, hpc₂, hpc, hm₂], ?_⟩
    rw [stepFlush_eq r₁ m₁, stepFlush_eq r₂ m₂, hal.flush r₁ r₂]
    exact moved _
  | @dataPush m₁ hpc hm =>
    obtain ⟨m₂, hm₂, hal⟩ := h.held _ hm
    refine ⟨{ r₂ with pc := .dataLog, pushed := r₂.pushed ++ [m₂] }, by simp [Rcv.step, hpc₂, hpc, hm₂], ?_, h.held,
      h.empty, h.seen_concat hal.seen⟩
    conv_lhs => rw [h.eq]
  | dataFail hpc =>
    refine ⟨{ r₂ with pc := .write, msg := r₂.msg.map (Rcv.setType · 1) }, by simp [Rcv.step, hpc₂, hpc], ?_,
      h.held_setType 1, h.empty_setType 1, h.pushed⟩
    conv_lhs => rw [h.eq]
  | dataLog hpc =>
    refine ⟨{ r₂ with pc := .select, msg := none }, by simp [Rcv.step, hpc₂, hpc], ?_, (fun _ hm => by cases hm),
      fun _ => rfl, h.pushed⟩
    conv_lhs => rw [h.eq]
  | writeOk hpc _ _ _ | writeFail hpc _ _ _ => exact h.write hpc hs
  | @drop info' fs' hpc hreset =>
    refine ⟨{ r₂ with pc := .select, msg := none, info := info'
                      dropped := r₂.dropped ++ (r₁.msg.map Message.bytes).getD [] },
      by simp [Rcv.step, hpc₂, hpc, hinfo, hreset, ← h.bytes_eq], ?_, (fun _ hm => by cases hm), fun _ => rfl, h.pushed⟩
    conv_lhs => rw [h.eq]
  | @reach k fp hfp =>
    refine ⟨{ r₂ with info := { r₁.info with currFp := some (fp.flush fs k).2 } },
      by simp [Rcv.step, hinfo, hfp], ?_, h.held, h.empty, h.pushed⟩
    conv_lhs => rw [h.eq]

/-- What comes next is the same for both. -/
theorem fed_eq (h : Twin r₁ r₂) (f : Feed) : r₂.fed f = r₁.fed f := by
  have hpc : r₂.pc = r₁.pc := by rw [h.eq]
  have hnfds : r₂.nfds = r₁.nfds := by rw [h.eq]
  unfold Rcv.fed
  rw [hpc, hnfds]

theorem writes_eq (h : Twin r₁ r₂) (fs : Disk) (a : RAct) : r₂.writes c fs a = r₁.writes c fs a := by
  have hpc : r₂.pc = r₁.pc := by rw [h.eq]
  have hinfo : r₂.info = r₁.info := by rw [h.eq]
  have hfresh : r₂.fresh = r₁.fresh := by rw [h.eq]
  have hwrite : ∀ e, (r₂.msg.bind fun m => datafileWriteDatamsg c.localtime r₁.info fs m r₁.fresh e) =
      r₁.msg.bind fun m => datafileWriteDatamsg c.localtime r₁.info fs m r₁.fresh e := by
    intro e
    cases hm : r₁.msg with
    | none => rw [h.empty hm]
    | some m₁ =>
      obtain ⟨m₂, hm₂, hal⟩ := h.held m₁ hm
      rw [hm₂, Option.bind_some, Option.bind_some, datafileWriteDatamsg_congr hal]
  unfold Rcv.writes
  rw [hpc, hinfo, hfresh]
  simp only [hwrite]

end Twin

/-- Twins with the same files and the same results to come. -/
structure FedTwin (x₁ x₂ : Fed) : Prop where
  rcv : Twin x₁.rcv x₂.rcv
  fs : x₂.fs = x₁.fs
  feed : x₂.feed = x₁.feed
  writes : x₂.writes = x₁.writes

theorem FedTwin.symm {x₁ x₂ : Fed} (h : FedTwin x₁ x₂) : FedTwin x₂ x₁ :=
  ⟨h.rcv.symm, h.fs.symm, h.feed.symm, h.writes.symm⟩

theorem FedTwin.step {x₁ x₂ x₁' : Fed} (h : FedTwin x₁ x₂) (hn : c.nodeSize = maxBuffSize + 1)
    (hs : fedStep c x₁ = some x₁') : ∃ x₂', fedStep c x₂ = some x₂' ∧ FedTwin x₁' x₂' := by
  obtain ⟨⟨a, quit, feed⟩, hfed, hs⟩ := Option.bind_eq_some_iff.1 hs
  obtain ⟨⟨r', fs'⟩, hstep, rfl⟩ := Option.map_eq_some_iff.1 hs
  obtain ⟨r₂', hstep₂, htwin⟩ := h.rcv.step hn hstep
  refine ⟨⟨r₂', fs', feed, x₂.writes ++ x₂.rcv.writes c x₂.fs a⟩, ?_, htwin, rfl, rfl, ?_⟩
  · unfold fedStep
    rw [h.feed, h.rcv.fed_eq, hfed, Option.bind_some, h.fs]
    simp only [hstep₂, Option.map_some]
  · simp only [h.writes, h.fs, h.rcv.writes_eq]

/-- **With the least `node_size`, twins stay twins.** -/
theorem FedTwin.next {x₁ x₂ : Fed} (hn : c.nodeSize = maxBuffSize + 1) (h : FedTwin x₁ x₂) :
    FedTwin (fedNext c x₁) (fedNext c x₂) := by
  unfold fedNext
  cases hs : fedStep c x₁ with
  | some x₁' =>
    obtain ⟨x₂', hs₂, h'⟩ := h.step hn hs
    rw [hs₂]
    exact h'
  | none =>
    cases hs₂ : fedStep c x₂ with
    | none => exact h
    | some x₂' =>
      obtain ⟨x₁', hs₁, -⟩ := h.symm.step hn hs₂
      rw [hs] at hs₁
      cases hs₁

theorem Twin.sameBehaviour (h : Twin r₁ r₂) (hn : c.nodeSize = maxBuffSize + 1) (fs : Disk) :
    SameBehaviour c r₁ r₂ fs := by
  intro feed
  have hsim : ∀ n, FedTwin ((fedNext c)^[n] ⟨r₁, fs, feed, []⟩) ((fedNext c)^[n] ⟨r₂, fs, feed, []⟩) :=
    iterate_sim (fun _ _ => FedTwin.next hn) ⟨h, rfl, rfl, rfl⟩
  exact ⟨sameOut_of_eq fun n => (hsim n).rcv.pushed, sameOut_of_eq fun n => (hsim n).writes.symm⟩

/-- With the least `node_size` there is never room for another receive. -/
theorem flushesLate (hn : c.nodeSize = maxBuffSize + 1) (r : Rcv) (fs : Disk) : FlushesLate c r fs := by
  intro feed n m _ _ _ hne
  rw [stepFlush_pc] at hne
  split at hne
  · rename_i hcond
    have := hcond.1
    omega
  · exact absurd rfl hne

/-! ## One byte tells them apart -/

/-- A byte arrives, and every push finds room. -/
def oneByte : Feed := ⟨[1], [], [true, true], [some [0]], []⟩

theorem fedNext_eq {f f' : Feed} {ws : List (Name × List UInt8)} (a : RAct) (quit : Bool)
    (hfed : r.fed f = some (a, quit, f')) (hstep : r.step c quit fs a = some (r', fs')) (hw : r.writes c fs a = []) :
    fedNext c ⟨r, fs, f, ws⟩ = ⟨r', fs', f', ws⟩ := by
  simp [fedNext, fedStep, hfed, hstep, hw]

theorem writes_of_ne (h : r.pc ≠ .write) : r.writes c fs a = [] := by
  unfold Rcv.writes
  split
  · rename_i hpc
    exact absurd hpc h
  · rfl

/-- The receiver with the pending list detached, about to receive. -/
def Rcv.detached (r : Rcv) (fs : Disk) (names m : Message) : Rcv :=
  { r with
    pc := .recv, nfds := 1, info := (datafileDetachNamemsg r.info fs).1, msg := some (Rcv.setType m 0)
    pushed := r.pushed ++ [names], handed := r.stored.length }

/-- The receiver with one more byte received. -/
def Rcv.gotByte (r : Rcv) (m : Message) : Rcv :=
  { r with
    pc := .flush
    msg := some { m with len := 1, data := overwrite m.data 0 (receivedCells r.received.length [0]) }
    received := r.received ++ receivedCells r.received.length [0] }

theorem pushes_list {names : Message} (hpc : r.pc = .select) (hnames : r.info.namesMsg = some names)
    (hm : r.msg = some m) : (fedNext c)^[4] ⟨r, fs, oneByte, []⟩ =
      ⟨r.detached fs names m, (datafileDetachNamemsg r.info fs).2, ⟨[], [], [true], [some [0]], []⟩, []⟩ := by
  have e1 : fedNext c ⟨r, fs, oneByte, []⟩ =
      ⟨{ r with pc := .ready, nfds := 1 }, fs, ⟨[], [], [true, true], [some [0]], []⟩, []⟩ :=
    fedNext_eq (.select 1) false (by simp [Rcv.fed, hpc, oneByte]) (by simp [Rcv.step, hpc])
      (writes_of_ne (by simp [hpc]))
  have e2 : fedNext c ⟨{ r with pc := .ready, nfds := 1 }, fs, ⟨[], [], [true, true], [some [0]], []⟩, []⟩ =
      ⟨{ r with pc := .namesPush, nfds := 1 }, fs, ⟨[], [], [true, true], [some [0]], []⟩, []⟩ :=
    fedNext_eq .tau false rfl (by simp [Rcv.step, Rcv.stepReady, hm, Rcv.afterReady, hnames])
      (writes_of_ne (by simp))
  have e3 : fedNext c ⟨{ r with pc := .namesPush, nfds := 1 }, fs, ⟨[], [], [true, true], [some [0]], []⟩, []⟩ =
      ⟨{ r with pc := .detach, nfds := 1, pushed := r.pushed ++ [names], handed := r.stored.length }, fs,
        ⟨[], [], [true], [some [0]], []⟩, []⟩ :=
    fedNext_eq (.push true) false rfl (by simp [Rcv.step, hnames]) (writes_of_ne (by simp))
  have e4 : fedNext c ⟨{ r with pc := .detach, nfds := 1, pushed := r.pushed ++ [names], handed := r.stored.length },
      fs, ⟨[], [], [true], [some [0]], []⟩, []⟩ =
      ⟨r.detached fs names m, (datafileDetachNamemsg r.info fs).2, ⟨[], [], [true], [some [0]], []⟩, []⟩ :=
    fedNext_eq .tau false rfl (by simp [Rcv.step, Rcv.detached, hm]) (writes_of_ne (by simp))
  simp only [Function.iterate_succ_apply, Function.iterate_zero_apply, e1, e2, e3, e4]

theorem gets_byte (c : Configure) (fs : Disk) (hpc : r.pc = .recv) (hnfds : 0 < r.nfds) (hm : r.msg = some m) (hlen : m.len = 0)
    (hsize : 0 < m.data.length) : fedNext c ⟨r, fs, ⟨[], [], [true], [some [0]], []⟩, []⟩ =
      ⟨r.gotByte m, fs, ⟨[], [], [true], [], []⟩, []⟩ := by
  have hstore : m.store 0 (receivedCells r.received.length [0]) =
      some { m with data := overwrite m.data 0 (receivedCells r.received.length [0]) } :=
    store_fits (Int.le_refl 0) (by rw [receivedCells_length, List.length_singleton]; omega)
  refine fedNext_eq (.recv (some [0])) false (by simp [Rcv.fed, hpc, hnfds]) ?_
    (writes_of_ne (by simp [hpc]))
  simp [Rcv.step, Rcv.stepRecv, Rcv.gotByte, hpc, hm, hstore, hnfds, hlen, maxBuffSize]

/-- A message with `cap` 0 is pushed as soon as it holds a byte. -/
theorem pushes_byte (c : Configure) (fs : Disk) (hpc : r.pc = .flush) (hm : r.msg = some m) (hlen : m.len = 1) (ht : m.type = 0) (hcap : m.cap = 0) :
    ((fedNext c)^[2] ⟨r, fs, ⟨[], [], [true], [], []⟩, []⟩).rcv.pushed = r.pushed ++ [m] := by
  have hpc' : (r.stepFlush m).pc = .dataPush := by
    rw [stepFlush_pc, hlen, hcap, ht]
    simp [maxBuffSize]
  have e1 : fedNext c ⟨r, fs, ⟨[], [], [true], [], []⟩, []⟩ =
      ⟨{ r with pc := .dataPush }, fs, ⟨[], [], [true], [], []⟩, []⟩ := by
    refine fedNext_eq .tau false (by simp [Rcv.fed, hpc]) ?_ (writes_of_ne (by simp [hpc]))
    rw [← hpc', ← stepFlush_eq]
    simp [Rcv.step, hpc, hm]
  have e2 : fedNext c ⟨{ r with pc := .dataPush }, fs, ⟨[], [], [true], [], []⟩, []⟩ =
      ⟨{ r with pc := .dataLog, pushed := r.pushed ++ [m] }, fs, ⟨[], [], [], [], []⟩, []⟩ :=
    fedNext_eq (.push true) false rfl (by simp [Rcv.step, hm]) (writes_of_ne (by simp))
  simp only [Function.iterate_succ_apply, Function.iterate_zero_apply, e1, e2]

/-- A new message with more room waits for more. -/
theorem waits_byte (hpc : r.pc = .flush) (hnfds : r.nfds = 1) (hm : r.msg = some m) (hlen : m.len = 1)
    (hcap : maxBuffSize + 1 < m.cap) : fedNext c ⟨r, fs, ⟨[], [], [true], [], []⟩, []⟩ =
      ⟨{ r with pc := .select }, fs, ⟨[], [], [true], [], []⟩, []⟩ := by
  have hpc' : (r.stepFlush m).pc = .select := by
    rw [stepFlush_pc, if_neg]
    rintro ⟨-, h | h⟩
    · omega
    · omega
  refine fedNext_eq .tau false (by simp [Rcv.fed, hpc]) ?_ (writes_of_ne (by simp [hpc]))
  rw [← hpc', ← stepFlush_eq]
  simp [Rcv.step, hpc, hm]

theorem fed_grows (c : Configure) (x : Fed) : x.pushed <+: (fedNext c x).pushed := by
  unfold fedNext
  cases hs : fedStep c x with
  | none => exact List.prefix_refl _
  | some x' =>
    obtain ⟨⟨a, quit, feed⟩, -, hs⟩ := Option.bind_eq_some_iff.1 hs
    obtain ⟨⟨r', fs'⟩, hstep, rfl⟩ := Option.map_eq_some_iff.1 hs
    refine List.IsPrefix.map _ ?_
    rcases (rstep_cases hstep).pushed with h | ⟨m, h, -⟩
    · simp only [Option.getD_some, h, List.prefix_refl]
    · simp only [Option.getD_some, h, List.prefix_append]

/-- A cleared message is pushed behind the list. -/
theorem cleared_pushes (c : Configure) (fs : Disk) {names : Message} (hpc : r.pc = .select) (hnames : r.info.namesMsg = some names)
    (hm : r.msg = some m) (hlen : m.len = 0) (hcap : m.cap = 0) (hsize : 0 < m.data.length) :
    ((fedNext c)^[7] ⟨r, fs, oneByte, []⟩).pushed.length = r.pushed.length + 2 := by
  have hgot : (fedNext c)^[5] ⟨r, fs, oneByte, []⟩ = ⟨(r.detached fs names m).gotByte (Rcv.setType m 0),
      (datafileDetachNamemsg r.info fs).2, ⟨[], [], [true], [], []⟩, []⟩ := by
    rw [Function.iterate_succ_apply', pushes_list hpc hnames hm]
    exact gets_byte c _ rfl Int.zero_lt_one rfl hlen hsize
  have hpush := pushes_byte c (datafileDetachNamemsg r.info fs).2
    (r := (r.detached fs names m).gotByte (Rcv.setType m 0)) rfl rfl rfl rfl hcap
  rw [show (7 : ℕ) = 2 + 5 from rfl, Function.iterate_add_apply, hgot, Fed.pushed, hpush]
  simp [Rcv.gotByte, Rcv.detached]

/-- A new message with more room waits, and nothing more arrives. -/
theorem fresh_waits (c : Configure) (fs : Disk) {names : Message} (hpc : r.pc = .select) (hnames : r.info.namesMsg = some names)
    (hm : r.msg = some m) (hlen : m.len = 0) (hcap : maxBuffSize + 1 < m.cap) (hsize : 0 < m.data.length) (k : ℕ) :
    ((fedNext c)^[k] ⟨r, fs, oneByte, []⟩).pushed.length ≤ r.pushed.length + 1 := by
  have hwait : (fedNext c)^[6] ⟨r, fs, oneByte, []⟩ =
      ⟨{ (r.detached fs names m).gotByte (Rcv.setType m 0) with pc := .select },
        (datafileDetachNamemsg r.info fs).2, ⟨[], [], [true], [], []⟩, []⟩ := by
    have hgot := gets_byte c (datafileDetachNamemsg r.info fs).2 (r := r.detached fs names m)
      (m := Rcv.setType m 0) rfl Int.zero_lt_one rfl hlen hsize
    rw [Function.iterate_succ_apply', Function.iterate_succ_apply', pushes_list hpc hnames hm, hgot]
    exact waits_byte rfl rfl rfl rfl hcap
  have hrest : fedNext c ((fedNext c)^[6] ⟨r, fs, oneByte, []⟩) = (fedNext c)^[6] ⟨r, fs, oneByte, []⟩ := by
    rw [hwait]
    rfl
  have hle := (out_of_fixed Fed.pushed (fed_grows c) hrest k).length_le
  rw [hwait] at hle
  simpa [Fed.pushed, Rcv.gotByte, Rcv.detached] using hle

/-- **One byte tells a cleared message from a new one** with more room. -/
theorem early_flush {names m₁ m₂ : Message} (hpc : r.pc = .select) (hnames : r.info.namesMsg = some names)
    (hm : r.msg = some m₁) (h₁ : m₁.len = 0 ∧ m₁.cap = 0 ∧ 0 < m₁.data.length)
    (h₂ : m₂.len = 0 ∧ maxBuffSize + 1 < m₂.cap ∧ 0 < m₂.data.length) :
    ¬ SameBehaviour c r { r with msg := some m₂ } fs := by
  intro hsame
  obtain ⟨hl₁, hc₁, hs₁⟩ := h₁
  obtain ⟨hl₂, hc₂, hs₂⟩ := h₂
  obtain ⟨k, hk⟩ := (hsame oneByte).1.1 7
  have hle := hk.length_le
  have hpush := cleared_pushes c fs hpc hnames hm hl₁ hc₁ hs₁
  have hwait := fresh_waits c fs (r := { r with msg := some m₂ }) hpc hnames rfl hl₂ hc₂ hs₂ k
  simp only at hle hwait
  omega

/-! ## After a write -/

/-- The receiver right after a successful `datafile_write_datamsg`: it has cleared the message and a
list is pending. -/
theorem after_write {fs₀ : Disk} {s s' : RSys} {e : WriteEnv} (hn : maxBuffSize + 1 ≤ c.nodeSize)
    (h : Reach (RSys.step c) Any (RSys.init c fs₀) s) (hs : s.step c (.rcv (.write e)) = some s')
    (hok : s'.rcv.pc = .select) :
    ∃ (m names : Message), s'.rcv.msg = some m.bzero ∧ s'.rcv.info.namesMsg = some names ∧ (m.bzero.data.length : ℤ) = c.nodeSize := by
  obtain ⟨hi, hr⟩ := rsys_roomy hn h
  obtain ⟨hstep, -⟩ := rsys_step_rcv hs
  generalize s'.rcv = r' at *
  generalize s'.fs = fs' at *
  cases hstep with
  | @writeOk m _ w _ hm hw hwok =>
    obtain ⟨names, hnames⟩ := Option.isSome_iff_exists.1 (hw.namesMsg hi.data (Or.inl hwok))
    exact ⟨m, names, rfl, hnames, (hr m hm).bzero.size⟩
  | writeFail _ _ _ _ => cases hok

/-- **Using a message again is like allocating a new one exactly if `node_size` is
`MAX_BUFF_SIZE + 1`.** For every state of the receiver right after a successful write: on all results to
come the same messages are pushed and the same writes made, and no message is flushed early. -/
theorem reuse_iff (c : Configure) (fs₀ : Disk) (hn : maxBuffSize + 1 ≤ c.nodeSize) (s s' : RSys) (e : WriteEnv)
    (h : Reach (RSys.step c) Any (RSys.init c fs₀) s) (hs : s.step c (.rcv (.write e)) = some s')
    (hok : s'.rcv.pc = .select) (addr : ℕ) (m : Message) (hnew : messageNew addr c.nodeSize = some m) :
    (SameBehaviour c s'.rcv { s'.rcv with msg := some m } s'.fs ∧ FlushesLate c s'.rcv s'.fs) ↔
      c.nodeSize = maxBuffSize + 1 := by
  obtain ⟨m₁, names, hm₁, hnames, hsize⟩ := after_write hn h hs hok
  obtain ⟨hlen, htype, hbytes, -⟩ := messageNew_fields hnew
  have hroomy : Roomy c.nodeSize true m := roomy_new hn hnew
  unfold maxBuffSize at hn
  have hcap : m.cap = c.nodeSize := by
    obtain ⟨-, hm⟩ := messageNew_cases hnew
    rw [hm]
  refine ⟨fun ⟨hsame, _⟩ => ?_, fun heq => ⟨?_, flushesLate heq _ _⟩⟩
  · by_contra hne
    have hsize' := hroomy.size
    have hlarge : maxBuffSize + 1 < m.cap := by
      unfold maxBuffSize at hne ⊢
      omega
    exact early_flush hok hnames hm₁ ⟨rfl, rfl, by omega⟩ ⟨hlen, hlarge, by omega⟩ hsame
  · have htwin : Twin s'.rcv { s'.rcv with msg := some m } := by
      refine ⟨rfl, fun m' hm' => ?_, fun hnone => ?_, rfl⟩
      · obtain rfl := Option.some.inj (hm₁.symm.trans hm')
        have hsize' := hroomy.size
        exact ⟨m, rfl, htype.symm, hlen.symm, hbytes.symm, by omega, Int.le_refl 0, zero_le_cap, by omega⟩
      · rw [hm₁] at hnone
        cases hnone
    exact htwin.sameBehaviour heq _

/-! ## Two configurations -/

/-- A message goes out directly; the push of the next one times out. -/
def reuseActs : List RSysAct := (turn [] [1, 2] [.push true, .tau] ++ turn [] [3, 4] [.push false]).map .rcv

/-- The receiver about to write it to a file. -/
def reuseBefore (nodeSize : ℤ) : Option RSys :=
  run (RSys.step (demoConf nodeSize 1)) (RSys.init (demoConf nodeSize 1) (Fs.empty _ _)) reuseActs

/-- The write. -/
def reuseWrite (nodeSize : ℤ) : Option RSys :=
  (reuseBefore nodeSize).bind fun s => s.step (demoConf nodeSize 1) (.rcv (.write ⟨40, true, none⟩))

theorem reuseWrite_least : (reuseWrite 4097).map (fun s => s.rcv.pc) = some .select := by
  decide +kernel

theorem reuse_iff_demo : ∃ s s' m, Reach (RSys.step (demoConf 4097 1)) Any (RSys.init (demoConf 4097 1) (Fs.empty _ _)) s ∧
    s.step (demoConf 4097 1) (.rcv (.write ⟨40, true, none⟩)) = some s' ∧ messageNew 9 4097 = some m ∧
    SameBehaviour (demoConf 4097 1) s'.rcv { s'.rcv with msg := some m } s'.fs ∧
    FlushesLate (demoConf 4097 1) s'.rcv s'.fs := by
  obtain ⟨s', hwrite, hpc⟩ := Option.map_eq_some_iff.1 reuseWrite_least
  obtain ⟨s, hs, hstep⟩ := Option.bind_eq_some_iff.1 hwrite
  have hreach := reach_of_run hs
  exact ⟨s, s', _, hreach, hstep, rfl, (reuse_iff (demoConf 4097 1) (Fs.empty _ _) (by decide) s s' _ hreach hstep hpc
    9 _ rfl).2 rfl⟩

theorem reuseWrite_more : (reuseWrite 4098).map (fun s => s.rcv.pc) = some .select := by
  decide +kernel

/-- **A cleared message behaves differently** with one more byte of space: after this run a byte that
arrives is pushed at once, where a new message would wait for more. -/
theorem cleared_differs :
    ∃ s s' m, Reach (RSys.step (demoConf 4098 1)) Any (RSys.init (demoConf 4098 1) (Fs.empty _ _)) s ∧
      s.step (demoConf 4098 1) (.rcv (.write ⟨40, true, none⟩)) = some s' ∧ s'.rcv.pc = .select ∧
      messageNew 9 4098 = some m ∧
      ¬ (SameBehaviour (demoConf 4098 1) s'.rcv { s'.rcv with msg := some m } s'.fs ∧
        FlushesLate (demoConf 4098 1) s'.rcv s'.fs) := by
  obtain ⟨s', hwrite, hpc⟩ := Option.map_eq_some_iff.1 reuseWrite_more
  obtain ⟨s, hs, hstep⟩ := Option.bind_eq_some_iff.1 hwrite
  have hreach := reach_of_run hs
  obtain ⟨m₁, names, hm₁, hnames, hsize⟩ := after_write (c := demoConf 4098 1) (by decide) hreach hstep hpc
  refine ⟨s, s', _, hreach, hstep, hpc, rfl, fun ⟨hsame, _⟩ => early_flush hpc hnames hm₁ ⟨rfl, rfl, ?_⟩ ?_ hsame⟩
  · have h0 : (demoConf 4098 1).nodeSize = 4098 := rfl
    omega
  · refine ⟨rfl, by decide, ?_⟩
    rw [List.length_replicate]
    decide

end HookKernel
