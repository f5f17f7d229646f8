import HookKernel.Proof.Datafile
import HookKernel.Spec.Receiver

/-!
# The receiver's steps and its invariant

* `RStep`, `rstep_cases`: everything one step of the receiver can do.
* `RInv`: where the receiver is determines what `msg`, its type and `names_msg`
  are. In particular a message of type 0 is about to be flushed only when there is
  no name list (`RInv.push_direct`).
* `SoundMsg.keeping` to `SoundMsg.dropping`: what each point asks of `msg` on arrival.
* `RStep.inv`: every step keeps it, whatever the rest of the process does.
-/

namespace HookKernel

open Lib

variable {c : Configure} {quit : Bool} {r r' : Rcv} {fs fs' : Disk} {a : RAct}

/-- **Everything a step of the receiver can do.** -/
inductive RStep (c : Configure) (quit : Bool) (r : Rcv) (fs : Disk) : RAct → Rcv → Disk → Prop
  | selectErr {n : ℤ} : r.pc = .select → n < 0 → RStep c quit r fs (.select n) r fs
  | select {n : ℤ} : r.pc = .select → 0 ≤ n →
      RStep c quit r fs (.select n) { r with pc := if n = 0 then .checkQuit else .ready, nfds := n } fs
  | goOn : r.pc = .checkQuit → quit = false → RStep c quit r fs .tau { r with pc := .ready } fs
  | quitPush {m : Message} : r.pc = .checkQuit → quit = true → r.msg = some m → 0 < m.len →
      RStep c quit r fs .tau { r with pc := .lastPush } fs
  | quitDone : r.pc = .checkQuit → quit = true → (∀ m, r.msg = some m → m.len ≤ 0) →
      RStep c quit r fs .tau { r with pc := .returned } fs
  | lastPush {m : Message} {ok : Bool} : r.pc = .lastPush → r.msg = some m →
      RStep c quit r fs (.push ok)
        { r with pc := .lastLog, pushed := if ok then r.pushed ++ [m] else r.pushed } fs
  | lastLog : r.pc = .lastLog → RStep c quit r fs .tau { r with pc := .returned } fs
  | keep : r.pc = .ready → r.msg.isSome →
      RStep c quit r fs .tau { r with pc := r.afterReady } fs
  | alloc {m : Message} : r.pc = .ready → r.msg = none → messageNew r.fresh c.nodeSize = some m →
      RStep c quit r fs .tau
        { r with pc := r.afterReady, msg := some m, fresh := r.fresh + 1 } fs
  | namesPush {names : Message} : r.pc = .namesPush → r.info.namesMsg = some names →
      RStep c quit r fs (.push true)
        { r with pc := .detach, pushed := r.pushed ++ [names], handed := r.stored.length } fs
  | namesFail : r.pc = .namesPush →
      RStep c quit r fs (.push false) { r with pc := .recv, msg := r.msg.map (Rcv.setType · 1) } fs
  | detach : r.pc = .detach →
      RStep c quit r fs .tau
        { r with pc := .recv, info := (datafileDetachNamemsg r.info fs).1
                 msg := r.msg.map (Rcv.setType · 0) } (datafileDetachNamemsg r.info fs).2
  | recvErr : r.pc = .recv → r.msg.isSome → RStep c quit r fs (.recv none) { r with pc := .flush } fs
  | recv {m m' : Message} {bs : List UInt8} : r.pc = .recv → r.msg = some m → bs.length ≤ maxBuffSize →
      m.store m.len (receivedCells r.received.length bs) = some m' →
      RStep c quit r fs (.recv (some bs))
        { r with pc := .flush, msg := some { m' with len := m'.len + bs.length }
                 received := r.received ++ receivedCells r.received.length bs } fs
  | noRecv : r.pc = .recv → RStep c quit r fs .tau { r with pc := .flush } fs
  | flush {m : Message} : r.pc = .flush → r.msg = some m → RStep c quit r fs .tau (r.stepFlush m) fs
  | dataPush {m : Message} : r.pc = .dataPush → r.msg = some m →
      RStep c quit r fs (.push true) { r with pc := .dataLog, pushed := r.pushed ++ [m] } fs
  | dataFail : r.pc = .dataPush →
      RStep c quit r fs (.push false) { r with pc := .write, msg := r.msg.map (Rcv.setType · 1) } fs
  | dataLog : r.pc = .dataLog → RStep c quit r fs .tau { r with pc := .select, msg := none } fs
  | writeOk {m : Message} {e : WriteEnv} {w : WriteRes} : r.pc = .write → r.msg = some m →
      Wrote c.localtime r.info fs m r.fresh e w → w.ok = true →
      RStep c quit r fs (.write e)
        { r with pc := .select, msg := some m.bzero, info := w.info, fresh := r.fresh + 1
                 created := r.created ++ w.opened.toList
                 written := Function.update r.written w.info.fname (r.written w.info.fname ++ w.wrote)
                 stored := r.stored ++ [(w.info.fname, m.bytes)]
                 filed := r.filed ++ (w.info.currFp.map fun fp => (fp.ino, m.bytes)).toList } w.fs
  | writeFail {m : Message} {e : WriteEnv} {w : WriteRes} : r.pc = .write → r.msg = some m →
      Wrote c.localtime r.info fs m r.fresh e w → w.ok = false →
      RStep c quit r fs (.write e)
        { r with pc := .drop, info := w.info, fresh := r.fresh + 1
                 created := r.created ++ w.opened.toList
                 written := Function.update r.written w.info.fname (r.written w.info.fname ++ w.wrote) } w.fs
  | drop {info' : DatafileInfo} {fs' : Disk} : r.pc = .drop →
      datafileResetCurrfile r.info fs = some (info', fs') →
      RStep c quit r fs .tau
        { r with pc := .select, msg := none, info := info'
                 dropped := r.dropped ++ (r.msg.map Message.bytes).getD [] } fs'
  | reach {k : ℕ} {fp : Stream Cell} : r.info.currFp = some fp →
      RStep c quit r fs (.flush k)
        { r with info := { r.info with currFp := some (fp.flush fs k).2 } } (fp.flush fs k).1

theorem rstep_cases (h : r.step c quit fs a = some (r', fs')) : RStep c quit r fs a r' fs' := by
  unfold Rcv.step at h
  split at h
  case h_1 n hpc =>
    split at h
    · obtain ⟨rfl, rfl⟩ := Prod.mk.inj (Option.some.inj h)
      exact .selectErr hpc ‹_›
    · obtain ⟨rfl, rfl⟩ := Prod.mk.inj (Option.some.inj h)
      exact .select hpc (by omega)
  case h_2 hpc =>
    split at h
    · rename_i hq
      split at h
      · rename_i m hm
        obtain ⟨rfl, rfl⟩ := Prod.mk.inj (Option.some.inj h)
        by_cases hl : m.len > 0
        · rw [if_pos hl]
          exact .quitPush hpc hq hm hl
        · rw [if_neg hl]
          refine .quitDone hpc hq ?_
          intro m' hm'
          obtain rfl := Option.some.inj (hm.symm.trans hm')
          omega
      · rename_i hm
        obtain ⟨rfl, rfl⟩ := Prod.mk.inj (Option.some.inj h)
        exact .quitDone hpc hq (by simp [hm])
    · rename_i hq
      obtain ⟨rfl, rfl⟩ := Prod.mk.inj (Option.some.inj h)
      exact .goOn hpc (by simpa using hq)
  case h_3 ok hpc =>
    simp only [Option.bind_eq_bind, Option.bind_eq_some_iff] at h
    obtain ⟨m, hm, h⟩ := h
    obtain ⟨rfl, rfl⟩ := Prod.mk.inj (Option.some.inj h)
    exact .lastPush hpc hm
  case h_4 hpc =>
    obtain ⟨rfl, rfl⟩ := Prod.mk.inj (Option.some.inj h)
    exact .lastLog hpc
  case h_5 hpc =>
    unfold Rcv.stepReady at h
    split at h
    · rename_i m hm
      obtain ⟨rfl, rfl⟩ := Prod.mk.inj (Option.some.inj h)
      exact .keep hpc (by rw [hm]; rfl)
    · rename_i hm
      obtain ⟨m, hnew, h⟩ := Option.map_eq_some_iff.1 h
      obtain ⟨rfl, rfl⟩ := Prod.mk.inj h
      exact .alloc hpc hm hnew
  case h_6 hpc =>
    simp only [Option.bind_eq_bind, Option.bind_eq_some_iff] at h
    obtain ⟨names, hnames, h⟩ := h
    obtain ⟨rfl, rfl⟩ := Prod.mk.inj (Option.some.inj h)
    exact .namesPush hpc hnames
  case h_7 hpc =>
    obtain ⟨rfl, rfl⟩ := Prod.mk.inj (Option.some.inj h)
    exact .namesFail hpc
  case h_8 hpc =>
    obtain ⟨rfl, rfl⟩ := Prod.mk.inj (Option.some.inj h)
    exact .detach hpc
  case h_9 bs hpc =>
    split at h
    · obtain ⟨m, hm, h⟩ := Option.bind_eq_some_iff.1 h
      unfold Rcv.stepRecv at h
      split at h
      · obtain ⟨rfl, rfl⟩ := Prod.mk.inj (Option.some.inj h)
        exact .recvErr hpc (by rw [hm]; rfl)
      · split at h
        · cases h
        · simp only [Option.bind_eq_bind, Option.bind_eq_some_iff] at h
          obtain ⟨m', hst, h⟩ := h
          obtain ⟨rfl, rfl⟩ := Prod.mk.inj (Option.some.inj h)
          exact .recv hpc hm (by omega) hst
    · cases h
  case h_10 hpc =>
    split at h
    · cases h
    · obtain ⟨rfl, rfl⟩ := Prod.mk.inj (Option.some.inj h)
      exact .noRecv hpc
  case h_11 hpc =>
    obtain ⟨m, hm, h⟩ := Option.map_eq_some_iff.1 h
    obtain ⟨rfl, rfl⟩ := Prod.mk.inj h
    exact .flush hpc hm
  case h_12 hpc =>
    simp only [Option.bind_eq_bind, Option.bind_eq_some_iff] at h
    obtain ⟨m, hm, h⟩ := h
    obtain ⟨rfl, rfl⟩ := Prod.mk.inj (Option.some.inj h)
    exact .dataPush hpc hm
  case h_13 hpc =>
    obtain ⟨rfl, rfl⟩ := Prod.mk.inj (Option.some.inj h)
    exact .dataFail hpc
  case h_14 hpc =>
    obtain ⟨rfl, rfl⟩ := Prod.mk.inj (Option.some.inj h)
    exact .dataLog hpc
  case h_15 e hpc =>
    obtain ⟨m, hm, h⟩ := Option.bind_eq_some_iff.1 h
    unfold Rcv.stepWrite at h
    simp only [Option.bind_eq_bind, Option.bind_eq_some_iff] at h
    obtain ⟨w, hw, h⟩ := h
    have hwr := wrote_of_write hw
    split at h
    · obtain ⟨rfl, rfl⟩ := Prod.mk.inj (Option.some.inj h)
      exact .writeOk hpc hm hwr ‹_›
    · rename_i hok
      obtain ⟨rfl, rfl⟩ := Prod.mk.inj (Option.some.inj h)
      exact .writeFail hpc hm hwr (by simpa using hok)
  case h_16 hpc =>
    simp only [Option.bind_eq_bind, Option.bind_eq_some_iff] at h
    obtain ⟨⟨info', fs₁⟩, hreset, h⟩ := h
    obtain ⟨rfl, rfl⟩ := Prod.mk.inj (Option.some.inj h)
    exact .drop hpc hreset
  case h_17 k =>
    simp only [Option.bind_eq_bind, Option.bind_eq_some_iff] at h
    obtain ⟨fp, hfp, h⟩ := h
    obtain ⟨rfl, rfl⟩ := Prod.mk.inj (Option.some.inj h)
    exact .reach hfp
  case h_18 => cases h

/-! ## The invariant -/

/-- The points at which `msg` has been allocated. -/
def RPc.hasMsg : RPc → Bool
  | .select | .checkQuit | .ready | .returned => false
  | _ => true

/-- The points at which `msg` is kept for the next turn, or pushed on the way out. -/
def RPc.keeps : RPc → Bool
  | .select | .checkQuit | .ready | .lastPush => true
  | _ => false

/-- The message buffer and its type at a program point; `listing` says whether there
is a `names_msg`. -/
structure Flow (pc : RPc) (msg : Option Message) (listing : Bool) (received : List Cell) : Prop where
  bounds : ∀ m, msg = some m → 0 ≤ m.len ∧ m.len ≤ m.data.length
  type_or : ∀ m, msg = some m → m.type = 0 ∨ m.type = 1
  suffix : ∀ m, msg = some m → m.bytes <:+ received
  has : pc.hasMsg = true → msg.isSome
  direct : pc = .dataPush ∨ pc = .dataLog → listing = false
  listed : pc = .namesPush ∨ pc = .detach → listing = true
  typeZero : ∀ m, msg = some m → listing = false → pc ≠ .write → pc ≠ .drop → m.type = 0
  typeOne : ∀ m, msg = some m → listing = true → pc = .recv ∨ pc = .flush → m.type = 1
  filing : ∀ m, msg = some m → pc = .write → m.type = 1
  pos : ∀ m, msg = some m → pc = .dataPush ∨ pc = .write ∨ pc = .lastPush → 0 < m.len
  kept : ∀ m, msg = some m → listing = true → pc.keeps = true → 0 < m.len → m.type = 1

/-- **The receiver's invariant.** -/
structure RInv (r : Rcv) : Prop where
  data : DInv r.info
  created : ∀ n ∈ r.info.listed, n ∈ r.created
  flow : Flow r.pc r.msg r.info.namesMsg.isSome r.received

theorem rinv_init (c : Configure) : RInv (Rcv.init c) := by
  refine ⟨dinv_init _ _ _, ?_, ?_⟩
  · intro n hn
    cases hn
  · constructor <;> simp [Rcv.init, RPc.hasMsg]

/-! ### The flush test -/

/-- The flush test moves the program point only. -/
theorem stepFlush_eq (r : Rcv) (m : Message) : r.stepFlush m = { r with pc := (r.stepFlush m).pc } := by
  unfold Rcv.stepFlush
  split
  · split
    · rfl
    · split <;> rfl
  · rfl

theorem stepFlush_pc (r : Rcv) (m : Message) :
    (r.stepFlush m).pc = if m.len > 0 ∧ (r.nfds = 0 ∨ m.cap - m.len < maxBuffSize + 1) then
      if m.type = 0 then .dataPush else if m.type = 1 then .write else .select
    else .select := by
  unfold Rcv.stepFlush
  split
  · split
    · rfl
    · split <;> rfl
  · rfl

/-! ### The cache -/

/-- Everything listed has been created. -/
theorem RStep.cache (h : RStep c quit r fs a r' fs') (hi : RInv r) :
    DInv r'.info ∧ ∀ n ∈ r'.info.listed, n ∈ r'.created := by
  have keep : DInv r.info ∧ ∀ n ∈ r.info.listed, n ∈ r.created := ⟨hi.data, hi.created⟩
  have write : ∀ {m : Message} {e : WriteEnv} {w : WriteRes}, Wrote c.localtime r.info fs m r.fresh e w →
      DInv w.info ∧ ∀ n ∈ w.info.listed, n ∈ r.created ++ w.opened.toList := by
    intro m e w hw
    obtain ⟨h1, h2⟩ := hw.dinv hi.data
    refine ⟨h1, fun n hn => ?_⟩
    rw [h2] at hn
    rcases List.mem_append.1 hn with hn | hn
    · exact List.mem_append_left _ (hi.created n hn)
    · exact List.mem_append_right _ hn
  cases h with
  | detach _ =>
    obtain ⟨h1, h2⟩ := detach_dinv r.info fs
    refine ⟨h1, fun n hn => ?_⟩
    simp only [h2] at hn
    cases hn
  | writeOk _ _ hw _ => exact write hw
  | writeFail _ _ hw _ => exact write hw
  | drop _ hreset =>
    obtain ⟨h1, -, h2⟩ := reset_dinv hi.data hreset
    refine ⟨h1, fun n hn => hi.created n ?_⟩
    simp only [h2] at hn
    split at hn
    · exact List.mem_of_mem_dropLast hn
    · exact hn
  | reach hfp =>
    refine ⟨⟨hi.data.names, fun _ => hi.data.curr (by rw [hfp]; rfl), fun hn => by cases hn⟩, hi.created⟩
  | flush _ _ =>
    rw [stepFlush_eq]
    exact keep
  | _ => exact keep

/-! ### The message buffer -/

@[simp] theorem receivedCells_length (n : ℕ) (bs : List UInt8) : (receivedCells n bs).length = bs.length := by
  simp [receivedCells]

@[simp] theorem setType_len (m : Message) (t : ℤ) : (Rcv.setType m t).len = m.len := rfl
@[simp] theorem setType_data (m : Message) (t : ℤ) : (Rcv.setType m t).data = m.data := rfl
@[simp] theorem setType_type (m : Message) (t : ℤ) : (Rcv.setType m t).type = t := rfl
@[simp] theorem setType_bytes (m : Message) (t : ℤ) : (Rcv.setType m t).bytes = m.bytes := rfl
@[simp] theorem bzero_len (m : Message) : m.bzero.len = 0 := rfl
@[simp] theorem bzero_type (m : Message) : m.bzero.type = 0 := rfl
@[simp] theorem bzero_bytes (m : Message) : m.bzero.bytes = [] := rfl

/-- **Receiving appends to the bytes in use.** -/
theorem store_bytes {m m' : Message} {bs : List Cell} (h : m.store m.len bs = some m') (hl : 0 ≤ m.len) :
    m'.len = m.len ∧ m'.type = m.type ∧ m'.data.length = m.data.length ∧ m.len + bs.length ≤ m.data.length ∧
      Message.bytes { m' with len := m'.len + bs.length } = m.bytes ++ bs := by
  obtain ⟨-, hfit, rfl⟩ := store_cases h
  have hfit' : m.len.toNat + bs.length ≤ m.data.length := by omega
  have e : (m.len + bs.length).toNat = m.len.toNat + bs.length := by omega
  refine ⟨rfl, rfl, length_overwrite hfit', hfit, ?_⟩
  unfold Message.bytes
  simp only [e]
  exact take_overwrite hfit'

theorem messageNew_fields {addr : ℕ} {cap : ℤ} {m : Message} (h : messageNew addr cap = some m) :
    m.len = 0 ∧ m.type = 0 ∧ m.bytes = [] ∧ m.addr = addr := by
  obtain ⟨-, rfl⟩ := messageNew_cases h
  exact ⟨rfl, rfl, rfl, rfl⟩

/-! ### Arriving at a point -/

/-- What holds of `msg` at every point of the loop. -/
structure SoundMsg (msg : Option Message) (received : List Cell) : Prop where
  bounds : ∀ m, msg = some m → 0 ≤ m.len ∧ m.len ≤ m.data.length
  type_or : ∀ m, msg = some m → m.type = 0 ∨ m.type = 1
  suffix : ∀ m, msg = some m → m.bytes <:+ received

section Arrive

variable {pc : RPc} {msg : Option Message} {m : Message} {listing : Bool} {received : List Cell} {t : ℤ}

theorem Flow.sound (h : Flow pc msg listing received) : SoundMsg msg received :=
  ⟨h.bounds, h.type_or, h.suffix⟩

theorem soundMsg_none : SoundMsg none received :=
  ⟨nofun, nofun, nofun⟩

theorem SoundMsg.setType (h : SoundMsg msg received) (ht : t = 0 ∨ t = 1) :
    SoundMsg (msg.map (Rcv.setType · t)) received := by
  constructor <;> intro m' hm' <;> obtain ⟨m, hm, rfl⟩ := Option.map_eq_some_iff.1 hm'
  · exact h.bounds m hm
  · exact ht
  · exact h.suffix m hm

/-- A message without bytes, as `message_new` and `MESSAGE_BZERO` leave it. -/
theorem soundMsg_empty (hl : m.len = 0) (ht : m.type = 0) (hb : m.bytes = []) : SoundMsg (some m) received := by
  constructor <;> rintro _ ⟨⟩
  · rw [hl]
    exact ⟨le_refl 0, Int.natCast_nonneg _⟩
  · exact Or.inl ht
  · rw [hb]
    exact List.nil_suffix

/-- Between two turns: the type of a message that is kept says whether there is a list. -/
theorem SoundMsg.keeping (h : SoundMsg msg received) (hpc : pc = .select ∨ pc = .checkQuit ∨ pc = .ready)
    (h0 : ∀ m, msg = some m → listing = false → m.type = 0)
    (h1 : ∀ m, msg = some m → listing = true → 0 < m.len → m.type = 1) : Flow pc msg listing received := by
  rcases hpc with rfl | rfl | rfl <;>
    exact ⟨h.bounds, h.type_or, h.suffix, nofun, by simp, by simp, fun m hm hn _ _ => h0 m hm hn, by simp, by simp,
      by simp, fun m hm hn _ => h1 m hm hn⟩

/-- On the way out. -/
theorem SoundMsg.lastPush (h : SoundMsg msg received) (hm : msg = some m) (hpos : 0 < m.len)
    (h0 : listing = false → m.type = 0) (h1 : listing = true → m.type = 1) :
    Flow .lastPush msg listing received := by
  subst hm
  refine ⟨h.bounds, h.type_or, h.suffix, fun _ => rfl, by simp, by simp, ?_, by simp, by simp, ?_, ?_⟩
  · rintro _ ⟨⟩ hn - -
    exact h0 hn
  · rintro _ ⟨⟩ -
    exact hpos
  · rintro _ ⟨⟩ hn - -
    exact h1 hn

theorem SoundMsg.leaving (h : SoundMsg msg received) (hpc : pc = .lastLog ∧ msg.isSome ∨ pc = .returned)
    (h0 : ∀ m, msg = some m → listing = false → m.type = 0) : Flow pc msg listing received := by
  rcases hpc with ⟨rfl, hs⟩ | rfl
  · exact ⟨h.bounds, h.type_or, h.suffix, fun _ => hs, by simp, by simp, fun m hm hn _ _ => h0 m hm hn,
      by simp, by simp, by simp, by simp [RPc.keeps]⟩
  · exact ⟨h.bounds, h.type_or, h.suffix, nofun, by simp, by simp, fun m hm hn _ _ => h0 m hm hn,
      by simp, by simp, by simp, by simp [RPc.keeps]⟩

/-- Around the push of a name list. -/
theorem SoundMsg.naming (h : SoundMsg msg received) (hpc : pc = .namesPush ∨ pc = .detach) (hs : msg.isSome) :
    Flow pc msg true received := by
  rcases hpc with rfl | rfl <;>
    exact ⟨h.bounds, h.type_or, h.suffix, fun _ => hs, by simp, fun _ => rfl, nofun, by simp, by simp, by simp,
      by simp [RPc.keeps]⟩

/-- Before and after `netlink_sock_recv` the type says whether there is a list. -/
theorem SoundMsg.receiving (h : SoundMsg msg received) (hpc : pc = .recv ∨ pc = .flush) (hs : msg.isSome)
    (h0 : ∀ m, msg = some m → listing = false → m.type = 0)
    (h1 : ∀ m, msg = some m → listing = true → m.type = 1) : Flow pc msg listing received := by
  rcases hpc with rfl | rfl <;>
    exact ⟨h.bounds, h.type_or, h.suffix, fun _ => hs, by simp, by simp, fun m hm hn _ _ => h0 m hm hn,
      fun m hm hn _ => h1 m hm hn, by simp, by simp, by simp [RPc.keeps]⟩

/-- Once `msg` is there, a list is pushed first. -/
theorem SoundMsg.ready (h : SoundMsg msg received) (hs : msg.isSome)
    (h0 : ∀ m, msg = some m → listing = false → m.type = 0) :
    Flow (if listing then .namesPush else .recv) msg listing received := by
  cases listing with
  | true => exact h.naming (Or.inl rfl) hs
  | false => exact h.receiving (Or.inl rfl) hs h0 nofun

/-- A message is pushed as data only while there is no list. -/
theorem SoundMsg.pushing (h : SoundMsg msg received)
    (hpc : pc = .dataPush ∧ (∀ m, msg = some m → 0 < m.len) ∨ pc = .dataLog) (hs : msg.isSome)
    (h0 : ∀ m, msg = some m → m.type = 0) : Flow pc msg false received := by
  rcases hpc with ⟨rfl, hpos⟩ | rfl
  · exact ⟨h.bounds, h.type_or, h.suffix, fun _ => hs, fun _ => rfl, by simp, fun m hm _ _ _ => h0 m hm,
      nofun, by simp, fun m hm _ => hpos m hm, nofun⟩
  · exact ⟨h.bounds, h.type_or, h.suffix, fun _ => hs, fun _ => rfl, by simp, fun m hm _ _ _ => h0 m hm,
      nofun, by simp, by simp, nofun⟩

theorem SoundMsg.writing (h : SoundMsg msg received) (hs : msg.isSome)
    (hone : ∀ m, msg = some m → 0 < m.len ∧ m.type = 1) : Flow .write msg listing received :=
  ⟨h.bounds, h.type_or, h.suffix, fun _ => hs, by simp, by simp, by simp, by simp, fun m hm _ => (hone m hm).2,
    fun m hm _ => (hone m hm).1, by simp [RPc.keeps]⟩

theorem SoundMsg.dropping (h : SoundMsg msg received) (hs : msg.isSome) : Flow .drop msg listing received :=
  ⟨h.bounds, h.type_or, h.suffix, fun _ => hs, by simp, by simp, by simp, by simp, by simp, by simp,
    by simp [RPc.keeps]⟩

theorem SoundMsg.append {m' : Message} {bs : List Cell} (h : SoundMsg msg received) (hm : msg = some m)
    (hst : m.store m.len bs = some m') :
    SoundMsg (some { m' with len := m'.len + bs.length }) (received ++ bs) := by
  obtain ⟨hl, hu⟩ := h.bounds m hm
  obtain ⟨h1, h2, h3, h4, h5⟩ := store_bytes hst hl
  constructor <;> rintro _ ⟨⟩
  · simp only
    omega
  · simpa only [h2] using h.type_or m hm
  · rw [h5]
    obtain ⟨pre, hpre⟩ := h.suffix m hm
    exact ⟨pre, by rw [← hpre, List.append_assoc]⟩

end Arrive

/-- The test after receiving: a message of type 0 means that there is no name list. -/
theorem Flow.flushing {m : Message} (hf : Flow r.pc r.msg r.info.namesMsg.isSome r.received) (hpc : r.pc = .flush)
    (hm : r.msg = some m) :
    Flow (r.stepFlush m).pc (r.stepFlush m).msg (r.stepFlush m).info.namesMsg.isSome (r.stepFlush m).received := by
  have hs := hf.sound
  have zero : ∀ m, r.msg = some m → r.info.namesMsg.isSome = false → m.type = 0 := fun m hm hn =>
    hf.typeZero m hm hn (by rw [hpc]; decide) (by rw [hpc]; decide)
  have one : ∀ m, r.msg = some m → r.info.namesMsg.isSome = true → m.type = 1 := fun m hm hn =>
    hf.typeOne m hm hn (Or.inr hpc)
  have waits : Flow .select r.msg r.info.namesMsg.isSome r.received :=
    hs.keeping (Or.inl rfl) zero fun m hm hn _ => one m hm hn
  have only : ∀ m', r.msg = some m' → m' = m := fun m' hm' => Option.some.inj (hm'.symm.trans hm)
  unfold Rcv.stepFlush
  split
  · rename_i hcond
    split
    · rename_i htype
      have hnone : r.info.namesMsg.isSome = false := by
        by_contra hn
        have h1 := one m hm (Bool.eq_true_of_not_eq_false hn)
        omega
      simp only [hnone]
      refine hs.pushing (Or.inl ⟨rfl, fun m' hm' => ?_⟩) (by simp [hm]) fun m' hm' => zero m' hm' hnone
      rw [only m' hm']
      exact hcond.1
    · split
      · rename_i htype
        refine hs.writing (by simp [hm]) fun m' hm' => ?_
        rw [only m' hm']
        exact ⟨hcond.1, htype⟩
      · exact waits
  · exact waits

/-- Every step leads to a point whose demands on `msg` it meets. -/
theorem RStep.flow (h : RStep c quit r fs a r' fs') (hi : RInv r) :
    Flow r'.pc r'.msg r'.info.namesMsg.isSome r'.received := by
  have hf := hi.flow
  have hs := hf.sound
  have zero : ∀ {p : RPc}, r.pc = p → p ≠ .write ∧ p ≠ .drop →
      ∀ m, r.msg = some m → r.info.namesMsg.isSome = false → m.type = 0 := by
    rintro _ rfl ⟨hw, hd⟩ m hm hn
    exact hf.typeZero m hm hn hw hd
  have kept : ∀ {p : RPc}, r.pc = p → p.keeps = true →
      ∀ m, r.msg = some m → r.info.namesMsg.isSome = true → 0 < m.len → m.type = 1 := by
    rintro _ rfl hp m hm hn
    exact hf.kept m hm hn hp
  cases h with
  | selectErr _ _ | reach _ => exact hf
  | @select n hpc _ =>
    refine hs.keeping ?_ (zero hpc (by decide)) (kept hpc rfl)
    by_cases hn : n = 0 <;> simp [hn]
  | goOn hpc _ => exact hs.keeping (Or.inr (Or.inr rfl)) (zero hpc (by decide)) (kept hpc rfl)
  | quitPush hpc _ hm hpos =>
    exact hs.lastPush hm hpos (zero hpc (by decide) _ hm) fun hn => kept hpc rfl _ hm hn hpos
  | quitDone hpc _ _ => exact hs.leaving (Or.inr rfl) (zero hpc (by decide))
  | lastPush hpc hm => exact hs.leaving (Or.inl ⟨rfl, by simp [hm]⟩) (zero hpc (by decide))
  | lastLog hpc => exact hs.leaving (Or.inr rfl) (zero hpc (by decide))
  | keep hpc hsome => exact hs.ready hsome (zero hpc (by decide))
  | alloc hpc _ hnew =>
    obtain ⟨hl, ht, hb, -⟩ := messageNew_fields hnew
    refine (soundMsg_empty hl ht hb).ready rfl ?_
    rintro _ ⟨⟩ -
    exact ht
  | namesPush hpc _ =>
    have hlist := hf.listed (Or.inl hpc)
    simp only [hlist]
    exact hs.naming (Or.inr rfl) (hf.has (by rw [hpc]; rfl))
  | namesFail hpc =>
    have hlist := hf.listed (Or.inl hpc)
    refine (hs.setType (Or.inr rfl)).receiving (Or.inl rfl) ?_ ?_ ?_
    · simpa using hf.has (by rw [hpc]; rfl)
    · intro m _ hn
      rw [hlist] at hn
      cases hn
    · intro m hm _
      obtain ⟨m, -, rfl⟩ := Option.map_eq_some_iff.1 hm
      rfl
  | detach hpc =>
    refine (hs.setType (Or.inl rfl)).receiving (Or.inl rfl) ?_ ?_ nofun
    · simpa using hf.has (by rw [hpc]; rfl)
    · intro m hm _
      obtain ⟨m, -, rfl⟩ := Option.map_eq_some_iff.1 hm
      rfl
  | recvErr hpc hsome =>
    exact hs.receiving (Or.inr rfl) hsome (zero hpc (by decide)) fun m hm hn => hf.typeOne m hm hn (Or.inl hpc)
  | @recv m m' bs hpc hm _ hst =>
    obtain ⟨-, htype, -⟩ := store_bytes hst (hf.bounds m hm).1
    have hsound := hs.append hm hst
    rw [receivedCells_length] at hsound
    refine hsound.receiving (Or.inr rfl) rfl ?_ ?_
    · rintro _ ⟨⟩ hn
      exact htype.trans (zero hpc (by decide) m hm hn)
    · rintro _ ⟨⟩ hn
      exact htype.trans (hf.typeOne m hm hn (Or.inl hpc))
  | noRecv hpc =>
    exact hs.receiving (Or.inr rfl) (hf.has (by rw [hpc]; rfl)) (zero hpc (by decide))
      fun m hm hn => hf.typeOne m hm hn (Or.inl hpc)
  | flush hpc hm => exact hf.flushing hpc hm
  | dataPush hpc hm =>
    have hnone := hf.direct (Or.inl hpc)
    simp only [hnone]
    exact hs.pushing (Or.inr rfl) (by simp [hm]) fun m hm => zero hpc (by decide) m hm hnone
  | dataFail hpc =>
    refine (hs.setType (Or.inr rfl)).writing ?_ ?_
    · simpa using hf.has (by rw [hpc]; rfl)
    · intro m' hm'
      obtain ⟨m, hm, rfl⟩ := Option.map_eq_some_iff.1 hm'
      exact ⟨hf.pos m hm (Or.inl hpc), rfl⟩
  | dataLog _ | drop _ _ => exact soundMsg_none.keeping (Or.inl rfl) nofun nofun
  | writeOk _ _ _ _ =>
    refine (soundMsg_empty rfl rfl rfl).keeping (Or.inl rfl) ?_ ?_
    · rintro _ ⟨⟩ -
      rfl
    · rintro _ ⟨⟩ - hpos
      cases hpos
  | writeFail _ hm _ _ => exact hs.dropping (by simp [hm])

/-- **Every step of the receiver keeps its invariant.** -/
theorem RStep.inv (h : RStep c quit r fs a r' fs') (hi : RInv r) : RInv r' :=
  ⟨(h.cache hi).1, (h.cache hi).2, h.flow hi⟩

end HookKernel
