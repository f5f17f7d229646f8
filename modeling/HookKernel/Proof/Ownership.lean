import HookKernel.Proof.Order
import HookKernel.Proof.Sender

/-!
# Who owns a message

A message belongs to the receiver until it is pushed, to the queue until it is popped,
to the sender until it is released. The receiver's pointers outlive the push.

* `PtrInv`: what `msg` and `names_msg` point to is distinct, and not pushed except
  between a push and the assignment that follows it.
* `OwnInv`: owners agree with where the messages are, and `sys_ownInv`: in every run.
-/

namespace HookKernel

open Lib

variable {c : Configure} {quit : Bool} {r r' : Rcv} {fs fs' : Disk} {a : RAct}

/-! ## The receiver's pointers -/

/-- The allocations pushed so far. -/
def Rcv.given (r : Rcv) : List ℕ := r.pushed.map Message.addr

/-- The points at which `msg` may have been pushed already. -/
def RPc.stale : RPc → Bool
  | .dataLog | .lastLog | .returned => true
  | _ => false

structure PtrInv (r : Rcv) : Prop where
  msg_lt : ∀ m, r.msg = some m → m.addr < r.fresh
  names_lt : ∀ names, r.info.namesMsg = some names → names.addr < r.fresh
  given_lt : ∀ x ∈ r.given, x < r.fresh
  distinct : ∀ m names, r.msg = some m → r.info.namesMsg = some names → m.addr ≠ names.addr
  mine : ∀ m, r.msg = some m → r.pc.stale = false → m.addr ∉ r.given
  listMine : ∀ names, r.info.namesMsg = some names → r.pc ≠ .detach → names.addr ∉ r.given
  pushed : ∀ m, r.msg = some m → r.pc = .dataLog → m.addr ∈ r.given

theorem store_addr {m m' : Message} {off : ℤ} {bs : List Cell} (h : m.store off bs = some m') : m'.addr = m.addr := by
  obtain ⟨-, -, rfl⟩ := store_cases h
  rfl

theorem appendName_addr {info : DatafileInfo} {addr : ℕ} {names : Message} (h : info.appendName addr = some names) :
    (∃ old, info.namesMsg = some old ∧ names.addr = old.addr) ∨ (info.namesMsg = none ∧ names.addr = addr) := by
  obtain ⟨names₀, names₁, halloc, hst, rfl⟩ := appendName_cases h
  have haddr := store_addr hst
  cases hmsg : info.namesMsg with
  | some old =>
    rw [allocNames_of_some hmsg] at halloc
    obtain rfl := Option.some.inj halloc
    exact Or.inl ⟨_, rfl, haddr⟩
  | none =>
    rw [allocNames_of_none hmsg] at halloc
    obtain ⟨m, hnew, rfl⟩ := Option.map_eq_some_iff.1 halloc
    exact Or.inr ⟨rfl, haddr.trans (messageNew_fields hnew).2.2.2⟩

/-- The name list after a write is the one before, or a new allocation. -/
theorem Wrote.names_addr {lt : ℤ → Tm} {info : DatafileInfo} {m : Message} {addr : ℕ} {e : WriteEnv}
    {w : WriteRes} (h : Wrote lt info fs m addr e w) {names : Message} (hn : w.info.namesMsg = some names) :
    (∃ old, info.namesMsg = some old ∧ names.addr = old.addr) ∨ (info.namesMsg = none ∧ names.addr = addr) := by
  obtain ⟨-, -, -, -, hrot⟩ := rotate_fields info fs m
  cases h with
  | full _ _ => exact Or.inl ⟨names, hn, rfl⟩
  | same _ _ =>
    rw [writeCurr_namesMsg] at hn
    exact Or.inl ⟨names, hn, rfl⟩
  | noFile _ _ =>
    simp only [hrot] at hn
    exact Or.inl ⟨names, hn, rfl⟩
  | @new buf names₀ info' _ _ _ hinfo happ =>
    rw [writeCurr_namesMsg] at hn
    obtain rfl := Option.some.inj hn
    have := appendName_addr happ
    rw [hinfo] at this
    simpa only [hrot] using this

theorem reset_addr {info info' : DatafileInfo} {names : Message}
    (h : datafileResetCurrfile info fs = some (info', fs')) (hn : info'.namesMsg = some names) :
    ∃ old, info.namesMsg = some old ∧ names.addr = old.addr := by
  unfold datafileResetCurrfile at h
  split at h
  · obtain ⟨rfl, rfl⟩ := Prod.mk.inj (Option.some.inj h)
    exact ⟨names, hn, rfl⟩
  · split at h
    · cases h
    · rename_i old hold
      obtain ⟨rfl, rfl⟩ := Prod.mk.inj (Option.some.inj h)
      obtain rfl := Option.some.inj hn
      exact ⟨old, hold, rfl⟩

/-- **What `msg` points to after a step**: the same message, or a new one. -/
theorem RStep.msg_ptr (h : RStep c quit r fs a r' fs') {m' : Message} (hm' : r'.msg = some m') :
    (∃ m, r.msg = some m ∧ m'.addr = m.addr ∧ (r'.pc.stale = false → r.pc.stale = false)) ∨
      (m'.addr = r.fresh ∧ r'.fresh = r.fresh + 1 ∧ r'.info = r.info ∧ r'.pushed = r.pushed) := by
  -- the pointer is kept, from a point before any push of `msg`
  have keep : r.msg = some m' → r.pc.stale = false →
      (∃ m, r.msg = some m ∧ m'.addr = m.addr ∧ (r'.pc.stale = false → r.pc.stale = false)) ∨
      (m'.addr = r.fresh ∧ r'.fresh = r.fresh + 1 ∧ r'.info = r.info ∧ r'.pushed = r.pushed) :=
    fun hm hpc => Or.inl ⟨m', hm, rfl, fun _ => hpc⟩
  have retype : ∀ t, r.msg.map (Rcv.setType · t) = some m' → r.pc.stale = false →
      (∃ m, r.msg = some m ∧ m'.addr = m.addr ∧ (r'.pc.stale = false → r.pc.stale = false)) ∨
      (m'.addr = r.fresh ∧ r'.fresh = r.fresh + 1 ∧ r'.info = r.info ∧ r'.pushed = r.pushed) := by
    intro t hmap hpc
    obtain ⟨m, hm, rfl⟩ := Option.map_eq_some_iff.1 hmap
    exact Or.inl ⟨m, hm, rfl, fun _ => hpc⟩
  cases h with
  | selectErr hpc _ | select hpc _ | goOn hpc _ | quitPush hpc _ _ _ | quitDone hpc _ _ | lastPush hpc _
  | keep hpc _ | namesPush hpc _ | recvErr hpc _ | noRecv hpc | dataPush hpc _ | writeFail hpc _ _ _ =>
    exact keep hm' (by rw [hpc]; rfl)
  | lastLog hpc => exact Or.inl ⟨m', hm', rfl, fun hst => by cases hst⟩
  | alloc _ _ hnew =>
    obtain rfl := Option.some.inj hm'
    exact Or.inr ⟨(messageNew_fields hnew).2.2.2, rfl, rfl, rfl⟩
  | namesFail hpc | detach hpc | dataFail hpc => exact retype _ hm' (by rw [hpc]; rfl)
  | @recv m m₁ bs hpc hm _ hst =>
    obtain rfl := Option.some.inj hm'
    have haddr := store_addr hst
    exact Or.inl ⟨m, hm, haddr, fun _ => by rw [hpc]; rfl⟩
  | @flush m hpc _ =>
    rw [stepFlush_eq] at hm'
    exact keep hm' (by rw [hpc]; rfl)
  | dataLog _ => cases hm'
  | @writeOk m e w hpc hm _ _ =>
    obtain rfl := Option.some.inj hm'
    exact Or.inl ⟨m, hm, rfl, fun _ => by rw [hpc]; rfl⟩
  | drop _ _ => cases hm'
  | reach _ => exact Or.inl ⟨m', hm', rfl, id⟩

/-- **What `names_msg` points to after a step**: the same list, or a new one. -/
theorem RStep.names_ptr (h : RStep c quit r fs a r' fs') {names' : Message} (hn : r'.info.namesMsg = some names') :
    (∃ names, r.info.namesMsg = some names ∧ names'.addr = names.addr ∧ (r'.pc ≠ .detach → r.pc ≠ .detach)) ∨
      (names'.addr = r.fresh ∧ r'.fresh = r.fresh + 1 ∧ r'.pushed = r.pushed ∧
        ∀ m', r'.msg = some m' → ∃ m, r.msg = some m ∧ m'.addr = m.addr) := by
  have keep : r.info.namesMsg = some names' → r.pc ≠ .detach →
      (∃ names, r.info.namesMsg = some names ∧ names'.addr = names.addr ∧ (r'.pc ≠ .detach → r.pc ≠ .detach)) ∨
      (names'.addr = r.fresh ∧ r'.fresh = r.fresh + 1 ∧ r'.pushed = r.pushed ∧
        ∀ m', r'.msg = some m' → ∃ m, r.msg = some m ∧ m'.addr = m.addr) :=
    fun h1 hpc => Or.inl ⟨names', h1, rfl, fun _ => hpc⟩
  cases h with
  | selectErr hpc _ | select hpc _ | goOn hpc _ | quitPush hpc _ _ _ | quitDone hpc _ _ | lastPush hpc _
  | lastLog hpc | keep hpc _ | alloc hpc _ _ | namesPush hpc _ | namesFail hpc | recvErr hpc _ | recv hpc _ _ _
  | noRecv hpc | dataPush hpc _ | dataFail hpc | dataLog hpc =>
    exact keep hn (by rw [hpc]; decide)
  | detach _ => cases hn
  | @flush m hpc _ =>
    rw [stepFlush_eq] at hn
    exact keep hn (by rw [hpc]; decide)
  | @writeOk m e w hpc hm hw _ =>
    rcases hw.names_addr hn with ⟨old, h1, h2⟩ | ⟨-, h2⟩
    · exact Or.inl ⟨old, h1, h2, fun _ => by rw [hpc]; decide⟩
    · refine Or.inr ⟨h2, rfl, rfl, fun m' hm' => ?_⟩
      obtain rfl := Option.some.inj hm'
      exact ⟨m, hm, rfl⟩
  | @writeFail m e w hpc hm hw _ =>
    rcases hw.names_addr hn with ⟨old, h1, h2⟩ | ⟨-, h2⟩
    · exact Or.inl ⟨old, h1, h2, fun _ => by rw [hpc]; decide⟩
    · exact Or.inr ⟨h2, rfl, rfl, fun m' hm' => ⟨m', hm', rfl⟩⟩
  | drop hpc hreset =>
    obtain ⟨old, h1, h2⟩ := reset_addr hreset hn
    exact Or.inl ⟨old, h1, h2, fun _ => by rw [hpc]; decide⟩
  | reach _ => exact Or.inl ⟨names', hn, rfl, id⟩

theorem RStep.fresh_le (h : RStep c quit r fs a r' fs') : r.fresh ≤ r'.fresh := by
  cases h with
  | alloc _ _ _ | writeOk _ _ _ _ | writeFail _ _ _ _ => exact Nat.le_succ _
  | @flush m _ _ => rw [stepFlush_eq]
  | _ => exact Nat.le_refl _

/-- The message pushed, and where the receiver goes from there. -/
theorem RStep.given_cases (h : RStep c quit r fs a r' fs') :
    r'.given = r.given ∨ ∃ m, r'.given = r.given ++ [m.addr] ∧
      ((r.info.namesMsg = some m ∧ r'.pc = .detach ∧ r.pc = .namesPush) ∨
        (r.msg = some m ∧ r'.pc.stale = true ∧ r.pc.stale = false)) ∧ r'.fresh = r.fresh ∧
        r'.msg = r.msg ∧ r'.info = r.info ∧ r'.pushed = r.pushed ++ [m] := by
  unfold Rcv.given
  cases h with
  | @lastPush m ok hpc hm =>
    cases ok with
    | false => exact Or.inl rfl
    | true => exact Or.inr ⟨m, by simp, Or.inr ⟨hm, rfl, by rw [hpc]; rfl⟩, rfl, rfl, rfl, rfl⟩
  | @namesPush names hpc hn => exact Or.inr ⟨names, by simp, Or.inl ⟨hn, rfl, hpc⟩, rfl, rfl, rfl, rfl⟩
  | @dataPush m hpc hm => exact Or.inr ⟨m, by simp, Or.inr ⟨hm, rfl, by rw [hpc]; rfl⟩, rfl, rfl, rfl, rfl⟩
  | @flush m _ _ =>
    rw [stepFlush_eq]
    exact Or.inl rfl
  | _ => exact Or.inl rfl

theorem ptrInv_init (c : Configure) : PtrInv (Rcv.init c) := by
  constructor <;> simp [Rcv.init, Rcv.given, datafileInit]

/-- **Every step of the receiver keeps its pointers apart.** -/
theorem PtrInv.step (h : PtrInv r) (hs : RStep c quit r fs a r' fs') : PtrInv r' := by
  have hle := hs.fresh_le
  refine ⟨fun m' hm' => ?_, fun names' hn' => ?_, fun x hx => ?_, fun m' names' hm' hn' => ?_,
    fun m' hm' hpc' => ?_, fun names' hn' hpc' => ?_, fun m' hm' hpc' => ?_⟩
  · rcases hs.msg_ptr hm' with ⟨m, hm, h1, -⟩ | ⟨h1, h2, -⟩
    · have := h.msg_lt m hm
      omega
    · omega
  · rcases hs.names_ptr hn' with ⟨names, hn, h1, -⟩ | ⟨h1, h2, -⟩
    · have := h.names_lt names hn
      omega
    · omega
  · rcases hs.given_cases with h1 | ⟨m, h1, h2, h3, -⟩
    · rw [h1] at hx
      have := h.given_lt x hx
      omega
    · rw [h1] at hx
      rcases List.mem_append.1 hx with hx | hx
      · have := h.given_lt x hx
        omega
      · rw [List.mem_singleton.1 hx, h3]
        rcases h2 with ⟨hn, -⟩ | ⟨hm, -⟩
        · exact h.names_lt m hn
        · exact h.msg_lt m hm
  · -- a new allocation differs from every old one
    rcases hs.msg_ptr hm' with ⟨m, hm, h1, -⟩ | ⟨h1, h2, h3, -⟩
    · rcases hs.names_ptr hn' with ⟨names, hn, h4, -⟩ | ⟨h4, -⟩
      · rw [h1, h4]
        exact h.distinct m names hm hn
      · have := h.msg_lt m hm
        omega
    · rw [h3] at hn'
      have := h.names_lt names' hn'
      omega
  · rcases hs.msg_ptr hm' with ⟨m, hm, h1, h2⟩ | ⟨h1, -, -, h4⟩
    · have hno := h.mine m hm (h2 hpc')
      rw [h1]
      rcases hs.given_cases with h3 | ⟨x, h3, h4, -, h5, -⟩
      · rw [h3]
        exact hno
      · rw [h3]
        intro hx
        rcases List.mem_append.1 hx with hx | hx
        · exact hno hx
        · rcases h4 with ⟨hn, -⟩ | ⟨-, hst, -⟩
          · exact h.distinct m x hm hn (List.mem_singleton.1 hx)
          · rw [hst] at hpc'
            cases hpc'
    · intro hx
      have := h.given_lt _ (by unfold Rcv.given at hx ⊢; rw [h4] at hx; exact hx)
      omega
  · rcases hs.names_ptr hn' with ⟨names, hn, h1, h2⟩ | ⟨h1, -, h3, -⟩
    · have hno := h.listMine names hn (h2 hpc')
      rw [h1]
      rcases hs.given_cases with h3 | ⟨x, h3, h4, -⟩
      · rw [h3]
        exact hno
      · rw [h3]
        intro hx
        rcases List.mem_append.1 hx with hx | hx
        · exact hno hx
        · rcases h4 with ⟨-, hd, -⟩ | ⟨hm, -⟩
          · exact hpc' hd
          · exact h.distinct x names hm hn (List.mem_singleton.1 hx).symm
    · intro hx
      have := h.given_lt _ (by unfold Rcv.given at hx ⊢; rw [h3] at hx; exact hx)
      omega
  · cases hs with
    | @dataPush m _ hm =>
      obtain rfl := Option.some.inj (hm.symm.trans hm')
      simp [Rcv.given]
    | selectErr hpc _ => rw [hpc] at hpc'; cases hpc'
    | @select n _ _ => by_cases hn : n = 0 <;> simp [hn] at hpc'
    | keep _ _ | alloc _ _ _ =>
      unfold Rcv.afterReady at hpc'
      split at hpc' <;> cases hpc'
    | @flush m _ _ =>
      have hcalm := calm_of (stepFlush_calm r m)
      exact absurd hpc' hcalm.2.1
    | reach _ => exact h.pushed m' hm' hpc'
    | _ => cases hpc'

/-! ## Owners -/

theorem give_mem {owner : ℕ → Owner} {xs : List ℕ} {o : Owner} {x : ℕ} (h : x ∈ xs) : give owner xs o x = o := by
  unfold give
  rw [if_pos h]

theorem give_not_mem {owner : ℕ → Owner} {xs : List ℕ} {o : Owner} {x : ℕ} (h : x ∉ xs) :
    give owner xs o x = owner x := by
  unfold give
  rw [if_neg h]

/-- Giving one message away does not concern those of another owner. -/
theorem give_keep {owner : ℕ → Owner} {p : ℕ} {o : Owner} {x : ℕ} (h : owner x ≠ owner p) :
    give owner [p] o x = owner x := by
  refine give_not_mem fun hmem => h ?_
  rw [List.mem_singleton.1 hmem]

@[simp] theorem give_nil (owner : ℕ → Owner) (o : Owner) : give owner [] o = owner := by
  funext x
  exact give_not_mem (by simp)

/-- **Owners agree with where the messages are**: with the receiver, in the queue, with the sender. -/
structure OwnInv (r : Rcv) (held : Option Message) (queue : List Message) (owner : ℕ → Owner) (freed : List ℕ) : Prop where
  ptr : PtrInv r
  msg : ∀ m, r.msg = some m → m.addr ∉ r.given → owner m.addr = .receiver
  names : ∀ names, r.info.namesMsg = some names → names.addr ∉ r.given → owner names.addr = .receiver
  given : ∀ x ∈ r.given, owner x ≠ .receiver
  queued : ∀ m ∈ queue, owner m.addr = .queue ∧ m.addr ∈ r.given
  nodup : (queue.map Message.addr).Nodup
  snd : ∀ m, held = some m → owner m.addr = .sender ∧ m.addr ∈ r.given
  once : freed.Nodup
  released : ∀ x ∈ freed, owner x = .released ∧ x < r.fresh

/-- A release is the drop of `msg`. -/
theorem RStep.frees_cases (h : RStep c quit r fs a r' fs') (hn : r.frees a ≠ []) :
    r.pc = .drop ∧ r.frees a = addrOf r.msg ∧ r'.msg = none ∧ r'.fresh = r.fresh ∧ r'.pushed = r.pushed := by
  unfold Rcv.frees at hn ⊢
  split at hn
  · rename_i hpc
    cases h with
    | drop _ _ => exact ⟨hpc, rfl, rfl, rfl, rfl⟩
    | goOn h1 _ | quitPush h1 _ _ _ | quitDone h1 _ _ | lastLog h1 | keep h1 _ | alloc h1 _ _ | detach h1
    | noRecv h1 | flush h1 _ | dataLog h1 => rw [hpc] at h1; cases h1
  · exact absurd rfl hn

/-- A push finds the message in the receiver's hands. -/
theorem PtrInv.pushed_mine (h : PtrInv r) {m : Message}
    (hp : (r.info.namesMsg = some m ∧ r'.pc = .detach ∧ r.pc = .namesPush) ∨
      (r.msg = some m ∧ r'.pc.stale = true ∧ r.pc.stale = false)) : m.addr ∉ r.given := by
  rcases hp with ⟨hn, -, hpc⟩ | ⟨hm, -, hpc⟩
  · exact h.listMine m hn (by rw [hpc]; decide)
  · exact h.mine m hm hpc

section Steps

variable {held : Option Message} {queue : List Message} {owner : ℕ → Owner} {freed : List ℕ}

/-- What was not released yet can be. -/
theorem OwnInv.once_concat (h : OwnInv r held queue owner freed) {p : ℕ} (hp : owner p ≠ .released) :
    (freed ++ [p]).Nodup := by
  rw [List.nodup_append]
  refine ⟨h.once, by simp, ?_⟩
  intro x hx y hy he
  rw [List.mem_singleton.1 hy] at he
  exact hp (he ▸ (h.released x hx).1)

/-- The receiver pushes a message. -/
theorem OwnInv.push (h : OwnInv r held queue owner freed) {m : Message}
    (hs : RStep c quit r fs a r' fs') (hg : r'.given = r.given ++ [m.addr])
    (hp : (r.info.namesMsg = some m ∧ r'.pc = .detach ∧ r.pc = .namesPush) ∨
      (r.msg = some m ∧ r'.pc.stale = true ∧ r.pc.stale = false))
    (hsame : r'.fresh = r.fresh ∧ r'.msg = r.msg ∧ r'.info = r.info) :
    OwnInv r' held (queue ++ [m]) (give owner [m.addr] .queue) freed := by
  obtain ⟨h1, h2, h3⟩ := hsame
  have hmine := h.ptr.pushed_mine hp
  have hown : owner m.addr = .receiver := by
    rcases hp with ⟨hn, -⟩ | ⟨hm, -⟩
    · exact h.names m hn hmine
    · exact h.msg m hm hmine
  have keep : ∀ x, owner x ≠ .receiver → give owner [m.addr] .queue x = owner x := fun x hx =>
    give_keep (by rw [hown]; exact hx)
  have other : ∀ x, x ∉ r'.given → give owner [m.addr] .queue x = owner x ∧ x ∉ r.given := by
    intro x hx
    rw [hg, List.mem_append, not_or] at hx
    exact ⟨give_not_mem hx.2, hx.1⟩
  refine ⟨h.ptr.step hs, ?_, ?_, ?_, ?_, ?_, ?_, h.once, ?_⟩
  · intro x hx hno
    rw [h2] at hx
    rw [(other _ hno).1]
    exact h.msg x hx (other _ hno).2
  · intro x hx hno
    rw [h3] at hx
    rw [(other _ hno).1]
    exact h.names x hx (other _ hno).2
  · intro x hx
    rw [hg] at hx
    rcases List.mem_append.1 hx with hx | hx
    · rw [keep x (h.given x hx)]
      exact h.given x hx
    · rw [give_mem hx]
      simp
  · intro x hx
    rw [hg]
    rcases List.mem_append.1 hx with hx | hx
    · obtain ⟨h4, h5⟩ := h.queued x hx
      rw [keep _ (by rw [h4]; simp)]
      exact ⟨h4, List.mem_append_left _ h5⟩
    · rw [List.mem_singleton.1 hx]
      exact ⟨give_mem (by simp), by simp⟩
  · simp only [List.map_append, List.map_cons, List.map_nil]
    rw [List.nodup_append]
    refine ⟨h.nodup, by simp, ?_⟩
    intro x hx y hy
    obtain ⟨z, hz, rfl⟩ := List.mem_map.1 hx
    rw [List.mem_singleton.1 hy]
    intro he
    -- what is queued was given away before, `m` was not
    exact hmine (he ▸ (h.queued z hz).2)
  · intro x hx
    obtain ⟨h4, h5⟩ := h.snd x hx
    rw [hg]
    rw [keep _ (by rw [h4]; simp)]
    exact ⟨h4, List.mem_append_left _ h5⟩
  · intro x hx
    obtain ⟨h4, h5⟩ := h.released x hx
    rw [h1]
    rw [keep _ (by rw [h4]; simp)]
    exact ⟨h4, h5⟩

/-- The receiver drops its message. -/
theorem OwnInv.drop (h : OwnInv r held queue owner freed) {m : Message} (hs : RStep c quit r fs a r' fs')
    (hpc : r.pc = .drop) (hm : r.msg = some m) (hm' : r'.msg = none)
    (hsame : r'.fresh = r.fresh ∧ r'.pushed = r.pushed) :
    OwnInv r' held queue (give owner [m.addr] .released) (freed ++ [m.addr]) := by
  obtain ⟨h1, h2⟩ := hsame
  have hg : r'.given = r.given := by
    unfold Rcv.given
    rw [h2]
  have hmine := h.ptr.mine m hm (by rw [hpc]; rfl)
  have hown := h.msg m hm hmine
  have keep : ∀ x, owner x ≠ .receiver → give owner [m.addr] .released x = owner x := fun x hx =>
    give_keep (by rw [hown]; exact hx)
  refine ⟨h.ptr.step hs, ?_, ?_, ?_, ?_, h.nodup, ?_, ?_, ?_⟩
  · intro x hx
    rw [hm'] at hx
    cases hx
  · intro x hx hno
    rw [hg] at hno
    -- the list is another allocation
    rcases hs.names_ptr hx with ⟨names, hn, h3, -⟩ | ⟨-, h4, -⟩
    · rw [h3] at hno ⊢
      rw [give_not_mem]
      · exact h.names names hn hno
      · exact fun hmem => h.ptr.distinct m names hm hn (List.mem_singleton.1 hmem).symm
    · omega
  · intro x hx
    rw [hg] at hx
    rw [keep x (h.given x hx)]
    exact h.given x hx
  · intro x hx
    obtain ⟨h4, h5⟩ := h.queued x hx
    rw [hg]
    rw [keep _ (by rw [h4]; simp)]
    exact ⟨h4, h5⟩
  · intro x hx
    obtain ⟨h4, h5⟩ := h.snd x hx
    rw [hg]
    rw [keep _ (by rw [h4]; simp)]
    exact ⟨h4, h5⟩
  · exact h.once_concat (by rw [hown]; decide)
  · intro x hx
    rw [h1]
    rcases List.mem_append.1 hx with hx | hx
    · obtain ⟨h4, h5⟩ := h.released x hx
      rw [keep _ (by rw [h4]; simp)]
      exact ⟨h4, h5⟩
    · rw [List.mem_singleton.1 hx]
      exact ⟨give_mem (by simp), h.ptr.msg_lt m hm⟩

/-- The receiver neither pushes nor drops; it may allocate. -/
theorem OwnInv.local (h : OwnInv r held queue owner freed) (hs : RStep c quit r fs a r' fs')
    (hg : r'.given = r.given) :
    OwnInv r' held queue (give owner (List.range' r.fresh (r'.fresh - r.fresh)) .receiver) freed := by
  have hle := hs.fresh_le
  -- whatever is known about is older than the allocation of this step
  have old : ∀ x, x < r.fresh →
      give owner (List.range' r.fresh (r'.fresh - r.fresh)) .receiver x = owner x := by
    intro x hx
    refine give_not_mem fun hmem => ?_
    have := (List.mem_range'_1.1 hmem).1
    omega
  have new : r'.fresh = r.fresh + 1 →
      give owner (List.range' r.fresh (r'.fresh - r.fresh)) .receiver r.fresh = .receiver := by
    intro hf
    exact give_mem (List.mem_range'_1.2 (by omega))
  refine ⟨h.ptr.step hs, ?_, ?_, ?_, ?_, h.nodup, ?_, h.once, ?_⟩
  · intro x hx hno
    rw [hg] at hno
    rcases hs.msg_ptr hx with ⟨m, hm, h1, -⟩ | ⟨h1, h2, -⟩
    · rw [h1] at hno ⊢
      rw [old _ (h.ptr.msg_lt m hm)]
      exact h.msg m hm hno
    · rw [h1]
      exact new h2
  · intro x hx hno
    rw [hg] at hno
    rcases hs.names_ptr hx with ⟨names, hn, h1, -⟩ | ⟨h1, h2, -⟩
    · rw [h1] at hno ⊢
      rw [old _ (h.ptr.names_lt names hn)]
      exact h.names names hn hno
    · rw [h1]
      exact new h2
  · intro x hx
    rw [hg] at hx
    rw [old x (h.ptr.given_lt x hx)]
    exact h.given x hx
  · intro x hx
    obtain ⟨h4, h5⟩ := h.queued x hx
    rw [hg]
    rw [old _ (h.ptr.given_lt _ h5)]
    exact ⟨h4, h5⟩
  · intro x hx
    obtain ⟨h4, h5⟩ := h.snd x hx
    rw [hg]
    rw [old _ (h.ptr.given_lt _ h5)]
    exact ⟨h4, h5⟩
  · intro x hx
    obtain ⟨h4, h5⟩ := h.released x hx
    rw [old _ h5]
    exact ⟨h4, by omega⟩

/-- Nothing changes for the receiver when others give a message on. -/
theorem OwnInv.others (h : OwnInv r held queue owner freed) {p : ℕ} {o : Owner} (hp : owner p ≠ .receiver)
    (ho : o ≠ .receiver) : (∀ m, r.msg = some m → m.addr ∉ r.given → give owner [p] o m.addr = .receiver) ∧
      (∀ names, r.info.namesMsg = some names → names.addr ∉ r.given → give owner [p] o names.addr = .receiver) ∧
      ∀ x ∈ r.given, give owner [p] o x ≠ .receiver := by
  have keep : ∀ x, owner x = .receiver → give owner [p] o x = .receiver := by
    intro x hx
    rw [give_keep (by rw [hx]; exact hp.symm), hx]
  refine ⟨fun m hm hno => keep _ (h.msg m hm hno), fun names hn hno => keep _ (h.names names hn hno), ?_⟩
  intro x hx
  by_cases hxp : x ∈ [p]
  · rw [give_mem hxp]
    exact ho
  · rw [give_not_mem hxp]
    exact h.given x hx

/-- The sender takes the first message. -/
theorem OwnInv.pop {m : Message} (h : OwnInv r held (m :: queue) owner freed) :
    OwnInv r (some m) queue (give owner [m.addr] .sender) freed := by
  obtain ⟨hown, hg⟩ := h.queued m (by simp)
  have hnd := h.nodup
  rw [List.map_cons, List.nodup_cons] at hnd
  have keep : ∀ x, owner x ≠ .queue → give owner [m.addr] .sender x = owner x := fun x hx =>
    give_keep (by rw [hown]; exact hx)
  obtain ⟨hmsg, hnames, hgiven⟩ := h.others (p := m.addr) (o := .sender) (by rw [hown]; decide) (by decide)
  refine ⟨h.ptr, hmsg, hnames, hgiven, ?_, hnd.2, ?_, h.once, ?_⟩
  · intro x hx
    obtain ⟨h4, h5⟩ := h.queued x (List.mem_cons_of_mem _ hx)
    rw [give_not_mem]
    · exact ⟨h4, h5⟩
    · intro hmem
      rw [← List.mem_singleton.1 hmem] at hnd
      exact hnd.1 (List.mem_map_of_mem hx)
  · intro x hx
    obtain rfl := Option.some.inj hx
    exact ⟨give_mem (by simp), hg⟩
  · intro x hx
    obtain ⟨h4, h5⟩ := h.released x hx
    rw [keep _ (by rw [h4]; decide)]
    exact ⟨h4, h5⟩

/-- The sender releases its message. -/
theorem OwnInv.release {m : Message} (h : OwnInv r (some m) queue owner freed) :
    OwnInv r none queue (give owner [m.addr] .released) (freed ++ [m.addr]) := by
  obtain ⟨hown, hg⟩ := h.snd m rfl
  have keep : ∀ x, owner x ≠ .sender → give owner [m.addr] .released x = owner x := fun x hx =>
    give_keep (by rw [hown]; exact hx)
  obtain ⟨hmsg, hnames, hgiven⟩ := h.others (p := m.addr) (o := .released) (by rw [hown]; decide) (by decide)
  refine ⟨h.ptr, hmsg, hnames, hgiven, ?_, h.nodup, by simp, ?_, ?_⟩
  · intro x hx
    obtain ⟨h4, h5⟩ := h.queued x hx
    rw [keep _ (by rw [h4]; decide)]
    exact ⟨h4, h5⟩
  · exact h.once_concat (by rw [hown]; decide)
  · intro x hx
    rcases List.mem_append.1 hx with hx | hx
    · obtain ⟨h4, h5⟩ := h.released x hx
      rw [keep _ (by rw [h4]; decide)]
      exact ⟨h4, h5⟩
    · rw [List.mem_singleton.1 hx]
      exact ⟨give_mem (by simp), h.ptr.given_lt _ hg⟩

/-- The sender changes its message in place. -/
theorem OwnInv.hold {held' : Option Message} (h : OwnInv r held queue owner freed) (ha : addrOf held' = addrOf held) :
    OwnInv r held' queue owner freed := by
  refine ⟨h.ptr, h.msg, h.names, h.given, h.queued, h.nodup, ?_, h.once, h.released⟩
  intro m hm
  cases held with
  | none =>
    rw [hm] at ha
    cases ha
  | some m₀ =>
    rw [hm] at ha
    have : m.addr = m₀.addr := by simpa [addrOf] using ha
    rw [this]
    exact h.snd m₀ rfl

end Steps

@[simp] theorem forward_addr (m : Message) : (messgeFilenameForward m).addr = m.addr := by
  unfold messgeFilenameForward
  simp only
  split
  · split <;> rfl
  · rfl

@[simp] theorem cutName_addr (m : Message) : (cutName m).addr = m.addr := by
  unfold cutName
  split <;> rfl

/-- What a step of the sender takes, releases and keeps. -/
theorem SStep.held_cases {sd sd' : Snd} {queue queue' : List Message} {b : SAct}
    (h : SStep c quit sd queue fs b sd' queue' fs') :
    (∃ m, queue = m :: queue' ∧ sd'.msg = some m ∧ sd.frees b = []) ∨
      (queue' = queue ∧ ∃ m, sd.msg = some m ∧ sd'.msg = none ∧ sd.frees b = [m.addr]) ∨
      (queue' = queue ∧ sd.frees b = [] ∧ addrOf sd'.msg = addrOf sd.msg) := by
  cases h with
  | pop hpc hq | dumpPop hpc hq => exact Or.inl ⟨_, hq, rfl, by simp [Snd.frees, hpc]⟩
  | popNone hpc | checkQuit hpc | log hpc | list hpc _ _ | filesEnd hpc _ _ | check hpc | renameEnd hpc _ _ _
  | opened hpc _ _ _ | fopen hpc _ _ _ | fopenFail hpc _ _ | fwrite hpc _ _ | fwriteFail hpc _ _ | dumpEnd hpc =>
    exact Or.inr (Or.inr ⟨rfl, by simp [Snd.frees, hpc], rfl⟩)
  | @buff m res hpc hm _ =>
    cases res with
    | success | errSys | errSrv =>
      exact Or.inr (Or.inl ⟨rfl, m, hm, rfl, by simp [Snd.frees, hpc, hm, addrOf]⟩)
    | errNet => exact Or.inr (Or.inr ⟨rfl, by simp [Snd.frees, hpc], rfl⟩)
  | @file m res hpc hm _ =>
    refine Or.inr (Or.inr ⟨rfl, by simp [Snd.frees, hpc], ?_⟩)
    cases res <;> simp [Snd.stepFile, hm, addrOf]
  | @rename m ok hpc hm _ _ =>
    refine Or.inr (Or.inr ⟨rfl, by simp [Snd.frees, hpc], ?_⟩)
    simp [(stepRename_pc _ _ sd m ok).2, hm, addrOf]
  | del hpc =>
    cases hm : sd.msg with
    | none => exact Or.inr (Or.inr ⟨rfl, by simp [Snd.frees, hpc, hm, addrOf], rfl⟩)
    | some m => exact Or.inr (Or.inl ⟨rfl, m, rfl, rfl, by simp [Snd.frees, hpc, hm, addrOf]⟩)
  | reach _ =>
    refine Or.inr (Or.inr ⟨rfl, ?_, rfl⟩)
    unfold Snd.frees
    split <;> simp_all

/-! ## Runs -/

def Sys.OwnInv (s : Sys) : Prop := HookKernel.OwnInv s.rcv s.snd.msg s.queue s.owner s.freed

theorem sys_ownInv_init (c : Configure) (fs : Disk) : (Sys.init c fs).OwnInv := by
  refine ⟨ptrInv_init c, ?_, ?_, ?_, ?_, ?_, ?_, ?_, ?_⟩ <;>
    simp [Sys.init, Snd.init, Rcv.init, Rcv.given, datafileInit]

theorem SameWork.ownInv {s s' : Sys} (h : SameWork s s') (hi : s.OwnInv) : s'.OwnInv := by
  unfold Sys.OwnInv
  rw [h.rcv, h.snd, h.queue, h.owner, h.freed]
  exact hi

/-- **Every step keeps owners and places in agreement.** -/
theorem sys_ownInv_step {s s' : Sys} {b : SysAct} (h : s.OwnInv) (hs : s.step c b = some s') : s'.OwnInv := by
  cases sys_cases hs with
  | @rcv a r fs pushed _ hr hp =>
    unfold Sys.OwnInv
    rcases hr.pushed with h1 | ⟨m, h1, rfl, h2⟩
    · obtain rfl : pushed = [] := by
        rw [h1] at hp
        simpa using hp
      simp only [List.map_nil, give_nil, List.append_nil]
      by_cases hf : s.rcv.frees a = []
      · rw [hf]
        simp only [give_nil, List.append_nil]
        exact h.local hr (by unfold Rcv.given; rw [h1])
      · obtain ⟨hpc, h2, h3, h4, h5⟩ := hr.frees_cases hf
        rw [h2, h4]
        cases hm : s.rcv.msg with
        | none => rw [h2, hm] at hf; exact absurd rfl hf
        | some m => simpa [addrOf] using h.drop hr hpc hm h3 ⟨h4, h5⟩
    · obtain rfl : pushed = [m] := by
        rw [h1] at hp
        exact (List.append_cancel_left hp).symm
      have hf : s.rcv.frees (.push true) = [] := by
        unfold Rcv.frees
        split
        · rename_i he
          cases he
        · rfl
      rcases hr.given_cases with h3 | ⟨m', h3, h4, h5, h6, h7, h8⟩
      · unfold Rcv.given at h3
        rw [h1] at h3
        simp at h3
      · obtain rfl : m = m' := by
          rw [h1] at h8
          simpa using h8
        rw [hf, h5]
        simpa using h.push hr h3 h4 ⟨h5, h6, h7⟩
  | @snd b sd queue popped fs _ hsnd hp =>
    unfold Sys.OwnInv at h ⊢
    rcases hsnd.held_cases with ⟨m, hq, hm, hf⟩ | ⟨rfl, m, hm, hm', hf⟩ | ⟨rfl, hf, ha⟩
    · obtain rfl : popped = [m] := by
        rw [hq] at hp
        rw [← List.singleton_append, List.append_left_inj] at hp
        exact hp.symm
      rw [hq] at h
      simpa [hf, hm] using h.pop
    · obtain rfl : popped = [] := by simpa using hp
      rw [hm] at h
      simpa [hf, hm'] using h.release
    · obtain rfl : popped = [] := by simpa using hp
      simpa [hf] using h.hold ha
  | main hm => exact hm.same.ownInv h
  | starter hm => exact hm.same.ownInv h

theorem sys_ownInv {C : Sys → SysAct → Prop} {fs : Disk} {s : Sys} (h : Reach (Sys.step c) C (Sys.init c fs) s) :
    s.OwnInv :=
  h.inv (I := Sys.OwnInv) (sys_ownInv_init c fs) fun _ _ _ hi _ hs => sys_ownInv_step hi hs

/-- The workers are created. -/
def boot : List SysAct := [.starter, .starter, .starter]

end HookKernel
