import HookKernel.Proof.Ownership

/-!
# Accesses and releases of messages

A message is touched by its owner only, and released once: this holds as long as no push
of `msg` succeeds and no worker leaves with messages in its hands. After a push of `msg`
the receiver reads it once more, for a log line. The receiver leaves without releasing
`msg` or `names_msg`, and a sender that has left pops nothing more.

* `ownAccess_iff`: every access but that of the log lines is to a message of the thread's own.
* `Sys.held`: the messages that somebody will still release; `RStep.account` and
  `SStep.account`: what one step allocates, passes on and releases.
* `ReleasedOnce`: every allocation is either released, once, or held. A step that
  `leaks` takes a message out of this for good (`lost_of_leaks`).
* `ownership_exclusive` puts these together.
-/

namespace HookKernel

open Lib

variable {c : Configure} {quit : Bool} {r r' : Rcv} {fs fs' : Disk} {a : RAct}

/-! ## Accesses -/

/-- Every message a step touches belongs to the thread that takes the step. -/
def OwnAccess (s : Sys) (b : SysAct) : Prop := ∀ x ∈ b.touches s, s.owner x = b.thread

/-- A push that succeeds is the push of `names_msg`, not one of `msg`. -/
def NoMsgPush (s : Sys) (b : SysAct) : Prop := b = .rcv (.push true) → s.rcv.pc = .namesPush

instance (s : Sys) (b : SysAct) : Decidable (NoMsgPush s b) := inferInstanceAs (Decidable (_ → _))

/-- `msg` has not been pushed. -/
def Unpushed (r : Rcv) : Prop := ∀ m, r.msg = some m → m.addr ∉ r.given

theorem unpushed_step (hp : PtrInv r) (hu : Unpushed r) (hs : RStep c quit r fs a r' fs')
    (hno : a = .push true → r.pc = .namesPush) : Unpushed r' := by
  intro m' hm'
  rcases hs.msg_ptr hm' with ⟨m, hm, h1, -⟩ | ⟨h1, -, -, h2⟩
  · rw [h1]
    unfold Rcv.given
    rcases hs.pushed with h2 | ⟨x, h2, ha, h3⟩
    · rw [h2]
      exact hu m hm
    · -- only the name list can have been pushed, and it is another allocation
      rw [h2, List.map_append, List.mem_append, not_or]
      refine ⟨hu m hm, fun hx => ?_⟩
      simp only [List.map_cons, List.map_nil, List.mem_singleton] at hx
      have hpc := hno ha
      rcases h3 with ⟨h4, -⟩ | ⟨-, hn⟩ | ⟨h4, -⟩
      · rw [hpc] at h4
        cases h4
      · exact hp.distinct m x hm hn hx
      · rw [hpc] at h4
        cases h4
  · unfold Rcv.given
    rw [h1, h2]
    exact fun hx => Nat.lt_irrefl _ (hp.given_lt _ hx)

theorem unpushed_of_reach {fs : Disk} {s : Sys} (h : Reach (Sys.step c) NoMsgPush (Sys.init c fs) s) :
    Unpushed s.rcv := by
  have hinv : s.OwnInv ∧ Unpushed s.rcv := by
    refine h.inv (I := fun s => s.OwnInv ∧ Unpushed s.rcv) ⟨sys_ownInv_init c fs, by simp [Unpushed, Sys.init, Rcv.init]⟩ ?_
    rintro s b s' ⟨ho, hu⟩ hno hs
    refine ⟨sys_ownInv_step ho hs, ?_⟩
    cases sys_cases hs with
    | rcv _ hr _ => exact unpushed_step ho.ptr hu hr fun ha => hno (by rw [ha])
    | snd _ _ _ => exact hu
    | main hm => exact hm.same.rcv ▸ hu
    | starter hm => exact hm.same.rcv ▸ hu
  exact hinv.2

theorem mem_addrOf {m : Option Message} {x : ℕ} (h : x ∈ addrOf m) : ∃ m', m = some m' ∧ x = m'.addr := by
  simp only [addrOf, Option.mem_toList, Option.map_eq_some_iff] at h
  obtain ⟨m', hm, rfl⟩ := h
  exact ⟨m', hm, rfl⟩

/-- The receiver touches `msg`, where it is its own or at the log line after a push, and the
name list when it writes or drops. -/
theorem Rcv.touches_cases {x : ℕ} (hx : x ∈ r.touches quit a) :
    (∃ m, r.msg = some m ∧ x = m.addr ∧ (r.pc.stale = false ∨ a = .tau ∧ (r.pc = .dataLog ∨ r.pc = .lastLog))) ∨
      (∃ names, r.info.namesMsg = some names ∧ x = names.addr ∧ r.pc ≠ .detach) := by
  have hmsg : x ∈ addrOf r.msg → (r.pc.stale = false ∨ a = .tau ∧ (r.pc = .dataLog ∨ r.pc = .lastLog)) →
      ∃ m, r.msg = some m ∧ x = m.addr ∧ (r.pc.stale = false ∨ a = .tau ∧ (r.pc = .dataLog ∨ r.pc = .lastLog)) := by
    intro h hpc
    obtain ⟨m, hm, hx⟩ := mem_addrOf h
    exact ⟨m, hm, hx, hpc⟩
  have hnames : x ∈ addrOf r.info.namesMsg → r.pc ≠ .detach →
      ∃ names, r.info.namesMsg = some names ∧ x = names.addr ∧ r.pc ≠ .detach := by
    intro h hpc
    obtain ⟨m, hm, hx⟩ := mem_addrOf h
    exact ⟨m, hm, hx, hpc⟩
  unfold Rcv.touches at hx
  split at hx
  case h_1 hpc =>
    split at hx
    · exact Or.inl (hmsg hx (Or.inl (by rw [hpc]; rfl)))
    · cases hx
  case h_2 hpc => exact Or.inl (hmsg hx (Or.inr ⟨rfl, Or.inr hpc⟩))
  case h_8 hpc => exact Or.inl (hmsg hx (Or.inr ⟨rfl, Or.inl hpc⟩))
  case h_9 hpc =>
    rcases List.mem_append.1 hx with hx | hx
    · exact Or.inl (hmsg hx (Or.inl (by rw [hpc]; rfl)))
    · exact Or.inr (hnames hx (by rw [hpc]; decide))
  case h_10 hpc =>
    rcases List.mem_append.1 hx with hx | hx
    · exact Or.inl (hmsg hx (Or.inl (by rw [hpc]; rfl)))
    · split at hx
      · exact Or.inr (hnames hx (by rw [hpc]; decide))
      · cases hx
  case h_11 => cases hx
  all_goals
    rename_i hpc
    exact Or.inl (hmsg hx (Or.inl (by rw [hpc]; rfl)))

theorem Snd.touches_held {sd : Snd} {b : SAct} {x : ℕ} (hx : x ∈ sd.touches b) :
    ∃ m, sd.msg = some m ∧ x = m.addr := by
  unfold Snd.touches at hx
  split at hx
  case h_11 => cases hx
  all_goals exact mem_addrOf hx

/-- The log line after a push, when the push has taken `msg`. -/
def ReadsPushed (s : Sys) (b : SysAct) : Prop :=
  b = .rcv .tau ∧ (s.rcv.pc = .dataLog ∨ s.rcv.pc = .lastLog) ∧ ∃ m, s.rcv.msg = some m ∧ m.addr ∈ s.rcv.given

/-- **Every access but one is to a message of the thread's own.** -/
theorem ownAccess_iff {s : Sys} (h : s.OwnInv) (b : SysAct) : OwnAccess s b ↔ ¬ ReadsPushed s b := by
  constructor
  · rintro hacc ⟨rfl, hpc, m, hm, hg⟩
    have htouch : m.addr ∈ SysAct.touches s (.rcv .tau) := by
      rcases hpc with hpc | hpc <;> simp [SysAct.touches, Rcv.touches, hpc, hm, addrOf]
    exact h.given m.addr hg (hacc m.addr htouch)
  · intro hno x hx
    cases b with
    | rcv a =>
      rcases Rcv.touches_cases hx with ⟨m, hm, rfl, hpc | ⟨rfl, hpc⟩⟩ | ⟨names, hn, rfl, hpc⟩
      · exact h.msg m hm (h.ptr.mine m hm hpc)
      · exact h.msg m hm fun hg => hno ⟨rfl, hpc, m, hm, hg⟩
      · exact h.names names hn (h.ptr.listMine names hn hpc)
    | snd b =>
      obtain ⟨m, hm, rfl⟩ := Snd.touches_held hx
      exact (h.snd m hm).1
    | main | starter => cases hx

/-- After a push of `msg` the receiver reads it once more. -/
theorem reads_after_push {s s' : Sys} {b : SysAct} (hs : s.step c b = some s') (hbad : ¬ NoMsgPush s b) :
    (s'.step c (.rcv .tau)).isSome ∧ ReadsPushed s' (.rcv .tau) := by
  unfold NoMsgPush at hbad
  push Not at hbad
  obtain ⟨rfl, hpc⟩ := hbad
  cases sys_cases hs with
  | @rcv _ r fs pushed hrt hr hp =>
    cases hr with
    | namesPush h1 _ => exact absurd h1 hpc
    | @lastPush m _ _ hm =>
      exact ⟨by simp [Sys.step, Sys.stepRcv, hrt, Rcv.step], rfl, Or.inr rfl, m, hm, by simp [Rcv.given]⟩
    | @dataPush m _ hm =>
      exact ⟨by simp [Sys.step, Sys.stepRcv, hrt, Rcv.step], rfl, Or.inl rfl, m, hm, by simp [Rcv.given]⟩

/-! ## Who still has what -/

/-- The messages that the receiver still has to push or to release. -/
def Rcv.holds (r : Rcv) : List ℕ :=
  if r.pc = .returned then []
  else (addrOf r.msg).filter (· ∉ r.given) ++ if r.pc = .detach then [] else addrOf r.info.namesMsg

/-- The messages in the queue and with the sender, as long as the sender is there. -/
def Snd.holds (sd : Snd) (queue : List Message) : List ℕ :=
  if sd.pc = .returned then [] else queue.map Message.addr ++ addrOf sd.msg

def Sys.held (s : Sys) : List ℕ := s.rcv.holds ++ s.snd.holds s.queue

/-- What a step of the receiver allocates. -/
def Rcv.allocs (r r' : Rcv) : List ℕ := (addrOf r'.msg ++ addrOf r'.info.namesMsg).filter (r.fresh ≤ ·)

/-- The receiver leaves its loop. -/
def Rcv.leaves (quit : Bool) (r : Rcv) : Bool :=
  r.pc = .lastLog || r.pc = .checkQuit && quit && r.msg.all (·.len ≤ 0)

/-- The sender leaves while messages are in the queue or in its hands. -/
def Snd.leaks (quit : Bool) (sd : Snd) (queue : List Message) : SAct → Bool
  | .tau => sd.pc = .checkQuit && quit && !queue.isEmpty
  | .pop false => sd.pc = .dumpPop && !queue.isEmpty
  -- `fopen` failed: the function returns with the message in hand
  | .fopen _ false => true
  | _ => false

/-- A step after which nobody releases some message. -/
def Sys.leaks (s : Sys) : SysAct → Bool
  | .rcv .tau => s.rcv.leaves (checkWorkersQuit s.quit) && !s.rcv.holds.isEmpty
  -- nobody pops what is pushed now
  | .rcv (.push true) => s.snd.pc = .returned
  | .snd b => s.snd.leaks (checkWorkersQuit s.quit) s.queue b
  | _ => false

/-- Note the allocations. -/
def noteAllocs (s : Sys) (_ : SysAct) (s' : Sys) (xs : List ℕ) : List ℕ := xs ++ s.rcv.allocs s'.rcv

/-! ## The receiver's share -/

theorem holds_returned (h : r.pc = .returned) : r.holds = [] := if_pos h

theorem holds_plain (h1 : r.pc ≠ .returned) (h2 : r.pc ≠ .detach) :
    r.holds = (addrOf r.msg).filter (· ∉ r.given) ++ addrOf r.info.namesMsg := by
  rw [Rcv.holds, if_neg h1, if_neg h2]

/-- What the receiver holds is what its pointers point to and was not pushed. -/
theorem mem_holds {x : ℕ} (h : x ∈ r.holds) : x ∈ addrOf r.msg ∧ x ∉ r.given ∨
    r.pc ≠ .detach ∧ x ∈ addrOf r.info.namesMsg := by
  unfold Rcv.holds at h
  split at h
  · cases h
  · rcases List.mem_append.1 h with h | h
    · obtain ⟨h1, h2⟩ := List.mem_filter.1 h
      exact Or.inl ⟨h1, by simpa using h2⟩
    · split at h
      · cases h
      · rename_i hpc
        exact Or.inr ⟨hpc, h⟩

/-- The pointers point to allocations of the past. -/
theorem PtrInv.old (h : PtrInv r) {x : ℕ} (hx : x ∈ addrOf r.msg ++ addrOf r.info.namesMsg) : x < r.fresh := by
  rcases List.mem_append.1 hx with hx | hx
  · obtain ⟨m, hm, rfl⟩ := mem_addrOf hx
    exact h.msg_lt m hm
  · obtain ⟨m, hm, rfl⟩ := mem_addrOf hx
    exact h.names_lt m hm

theorem PtrInv.holds_not_given (h : PtrInv r) {x : ℕ} (hx : x ∈ r.holds) : x ∉ r.given ∧ x < r.fresh := by
  rcases mem_holds hx with ⟨h1, h2⟩ | ⟨hpc, h1⟩
  · exact ⟨h2, h.old (List.mem_append_left _ h1)⟩
  · obtain ⟨m, hm, rfl⟩ := mem_addrOf h1
    exact ⟨h.listMine m hm hpc, h.old (List.mem_append_right _ h1)⟩

theorem filter_old {xs : List ℕ} (h : ∀ x ∈ xs, x < r.fresh) : xs.filter (r.fresh ≤ ·) = [] := by
  refine List.filter_eq_nil_iff.2 fun x hx hle => ?_
  have := h x hx
  simp only [decide_eq_true_eq] at hle
  omega

/-- The pointers stay, up to a change in place: nothing is allocated. -/
theorem PtrInv.allocs_nil (h : PtrInv r) (hmsg : addrOf r'.msg = addrOf r.msg ∨ r'.msg = none)
    (hn : addrOf r'.info.namesMsg = addrOf r.info.namesMsg ∨ r'.info.namesMsg = none) : r.allocs r' = [] := by
  refine filter_old fun x hx => h.old ?_
  rcases List.mem_append.1 hx with hx | hx
  · rcases hmsg with hmsg | hmsg
    · exact List.mem_append_left _ (hmsg ▸ hx)
    · rw [hmsg] at hx
      cases hx
  · rcases hn with hn | hn
    · exact List.mem_append_right _ (hn ▸ hx)
    · rw [hn] at hx
      cases hx

@[simp] theorem addrOf_none : addrOf none = [] := rfl

@[simp] theorem addrOf_some (m : Message) : addrOf (some m) = [m.addr] := rfl

theorem addrOf_setType (m : Option Message) (t : ℤ) : addrOf (m.map (Rcv.setType · t)) = addrOf m := by
  cases m <;> rfl

/-- The name list after a write is the one before, or a new allocation. -/
theorem Wrote.names_account {lt : ℤ → Tm} {info : DatafileInfo} {m : Message} {addr : ℕ} {e : WriteEnv}
    {w : WriteRes} (h : Wrote lt info fs m addr e w) : addrOf w.info.namesMsg = addrOf info.namesMsg ∨
      info.namesMsg = none ∧ addrOf w.info.namesMsg = [addr] := by
  cases hw : w.info.namesMsg with
  | some names =>
    rcases h.names_addr hw with ⟨old, h1, h2⟩ | ⟨h1, h2⟩
    · rw [h1, addrOf_some, addrOf_some, h2]
      exact Or.inl rfl
    · rw [addrOf_some, h2]
      exact Or.inr ⟨h1, rfl⟩
  | none =>
    left
    obtain ⟨-, -, -, -, hrot⟩ := rotate_fields info fs m
    cases h with
    | full _ _ => rw [hw]
    | same _ _ => rw [← hw, writeCurr_namesMsg]
    | noFile _ _ => rw [← hw]; simp only [hrot]
    | new _ _ _ _ _ => rw [writeCurr_namesMsg] at hw; cases hw

theorem reset_account {info info' : DatafileInfo} (h : datafileResetCurrfile info fs = some (info', fs')) :
    addrOf info'.namesMsg = addrOf info.namesMsg := by
  unfold datafileResetCurrfile at h
  split at h
  · obtain ⟨rfl, rfl⟩ := Prod.mk.inj (Option.some.inj h)
    rfl
  · split at h
    · cases h
    · rename_i old hold
      obtain ⟨rfl, rfl⟩ := Prod.mk.inj (Option.some.inj h)
      rw [hold]
      rfl

/-- Both pointers stay. -/
theorem PtrInv.account_same (h : PtrInv r) (hmsg : addrOf r'.msg = addrOf r.msg)
    (hn : addrOf r'.info.namesMsg = addrOf r.info.namesMsg) (hpushed : r'.pushed = r.pushed)
    (hpc : r.pc ≠ .returned ∧ r.pc ≠ .detach) (hpc' : r'.pc ≠ .returned ∧ r'.pc ≠ .detach) :
    (r.holds ++ r.allocs r').Perm r'.holds := by
  have hg : r'.given = r.given := by rw [Rcv.given, Rcv.given, hpushed]
  rw [h.allocs_nil (Or.inl hmsg) (Or.inl hn), List.append_nil, holds_plain hpc.1 hpc.2, holds_plain hpc'.1 hpc'.2, hmsg,
    hn, hg]

/-- The receiver goes on with a new name list. -/
theorem PtrInv.account_names (h : PtrInv r) (hmsg : addrOf r'.msg = addrOf r.msg) (hpushed : r'.pushed = r.pushed)
    (hn : addrOf r'.info.namesMsg = addrOf r.info.namesMsg ∨
      r.info.namesMsg = none ∧ addrOf r'.info.namesMsg = [r.fresh])
    (hpc : r.pc ≠ .returned ∧ r.pc ≠ .detach) (hpc' : r'.pc ≠ .returned ∧ r'.pc ≠ .detach) :
    (r.holds ++ r.allocs r').Perm r'.holds := by
  rcases hn with hn | ⟨hnone, hn⟩
  · exact h.account_same hmsg hn hpushed hpc hpc'
  · have hg : r'.given = r.given := by rw [Rcv.given, Rcv.given, hpushed]
    have hnew : r.allocs r' = [r.fresh] := by
      have hold : (addrOf r'.msg).filter (r.fresh ≤ ·) = [] :=
        filter_old fun x hx => h.old (List.mem_append_left _ (hmsg ▸ hx))
      rw [Rcv.allocs, List.filter_append, hold, hn]
      simp
    rw [hnew, holds_plain hpc.1 hpc.2, holds_plain hpc'.1 hpc'.2, hmsg, hn, hnone, hg, addrOf_none, List.append_nil]

/-- A message is pushed: the receiver no longer holds it. -/
theorem PtrInv.account_push (h : PtrInv r) {m : Message} (hpc : r.pc ≠ .returned ∧ r.pc ≠ .detach)
    (hmsg : r'.msg = r.msg) (hinfo : r'.info = r.info) (hpushed : r'.pushed = r.pushed ++ [m])
    (hp : (r.info.namesMsg = some m ∧ r'.pc = .detach ∧ r.pc = .namesPush) ∨
      (r.msg = some m ∧ r'.pc.stale = true ∧ r'.pc ≠ .returned ∧ r.pc.stale = false)) :
    (r.holds ++ r.allocs r').Perm (r'.holds ++ [m.addr]) := by
  have hg : r'.given = r.given ++ [m.addr] := by rw [Rcv.given, Rcv.given, hpushed, List.map_append]; rfl
  rw [h.allocs_nil (Or.inl (by rw [hmsg])) (Or.inl (by rw [hinfo])), List.append_nil, holds_plain hpc.1 hpc.2]
  rcases hp with ⟨hn, hpc', -⟩ | ⟨hm, hpc', hret, hst⟩
  · -- the message in hand is another one
    have hmsg' : (addrOf r'.msg).filter (· ∉ r'.given) = (addrOf r.msg).filter (· ∉ r.given) := by
      rw [hmsg]
      refine List.filter_congr fun x hx => ?_
      obtain ⟨m', hm', rfl⟩ := mem_addrOf hx
      have hne := h.distinct m' m hm' hn
      simp [hg, hne]
    rw [Rcv.holds, if_neg (by rw [hpc']; decide), if_pos hpc', List.append_nil, hmsg', hn, addrOf_some]
  · have hno := h.mine m hm hst
    have hd : r'.pc ≠ .detach := by
      rintro hd
      rw [hd] at hpc'
      cases hpc'
    rw [holds_plain hret hd, hmsg, hinfo, hg, hm, addrOf_some]
    simp only [List.filter_cons, List.filter_nil, List.mem_append, List.mem_singleton, hno, not_false_eq_true, decide_true,
      or_true, not_true_eq_false, decide_false, ↓reduceIte, List.nil_append, List.cons_append, Bool.false_eq_true]
    exact (List.perm_append_singleton _ _).symm

/-- The receiver goes on with a new message. -/
theorem PtrInv.account_alloc (h : PtrInv r) (hnone : r.msg = none) (hmsg : addrOf r'.msg = [r.fresh])
    (hn : addrOf r'.info.namesMsg = addrOf r.info.namesMsg) (hpushed : r'.pushed = r.pushed)
    (hpc : r.pc ≠ .returned ∧ r.pc ≠ .detach) (hpc' : r'.pc ≠ .returned ∧ r'.pc ≠ .detach) :
    (r.holds ++ r.allocs r').Perm r'.holds := by
  have hg : r'.given = r.given := by rw [Rcv.given, Rcv.given, hpushed]
  have hfresh : r.fresh ∉ r.given := fun hmem => Nat.lt_irrefl _ (h.given_lt _ hmem)
  have hold : (addrOf r.info.namesMsg).filter (r.fresh ≤ ·) = [] :=
    filter_old fun x hx => h.old (List.mem_append_right _ hx)
  rw [holds_plain hpc.1 hpc.2, holds_plain hpc'.1 hpc'.2, Rcv.allocs, List.filter_append, hmsg, hn, hold, hnone, hg]
  simp [hfresh]

/-- `msg` has been pushed, and the receiver lets it go. -/
theorem PtrInv.account_log (h : PtrInv r) (hlog : r.pc = .dataLog) (hmsg : r'.msg = none) (hinfo : r'.info = r.info)
    (hpc' : r'.pc ≠ .returned ∧ r'.pc ≠ .detach) : (r.holds ++ r.allocs r').Perm r'.holds := by
  have hgone : (addrOf r.msg).filter (· ∉ r.given) = [] := by
    refine List.filter_eq_nil_iff.2 fun x hx hno => ?_
    obtain ⟨m, hm, rfl⟩ := mem_addrOf hx
    exact absurd (h.pushed m hm hlog) (by simpa using hno)
  rw [h.allocs_nil (Or.inr hmsg) (Or.inl (by rw [hinfo])), List.append_nil, holds_plain (by simp [hlog]) (by simp [hlog]),
    holds_plain hpc'.1 hpc'.2, hgone, hmsg, hinfo]
  rfl

/-- The receiver drops `msg`. -/
theorem PtrInv.account_drop (h : PtrInv r) (hdrop : r.pc = .drop) (hmsg : r'.msg = none)
    (hn : addrOf r'.info.namesMsg = addrOf r.info.namesMsg) (hpc' : r'.pc ≠ .returned ∧ r'.pc ≠ .detach) :
    (r.holds ++ r.allocs r').Perm (r'.holds ++ addrOf r.msg) := by
  have hmine : (addrOf r.msg).filter (· ∉ r.given) = addrOf r.msg := by
    refine List.filter_eq_self.2 fun x hx => ?_
    obtain ⟨m, hm, rfl⟩ := mem_addrOf hx
    simpa using h.mine m hm (by rw [hdrop]; rfl)
  rw [h.allocs_nil (Or.inr hmsg) (Or.inl hn), List.append_nil, holds_plain (by simp [hdrop]) (by simp [hdrop]),
    holds_plain hpc'.1 hpc'.2, hmine, hmsg, hn]
  exact List.perm_append_comm

theorem afterReady_plain (r : Rcv) : r.afterReady ≠ .returned ∧ r.afterReady ≠ .detach := by
  unfold Rcv.afterReady
  split <;> exact ⟨by decide, by decide⟩

theorem stepFlush_plain (r : Rcv) (m : Message) : (r.stepFlush m).pc ≠ .returned ∧ (r.stepFlush m).pc ≠ .detach := by
  obtain ⟨h1, -, -, h2⟩ := calm_of (stepFlush_calm r m)
  refine ⟨fun h => ?_, h1⟩
  rw [h] at h2
  cases h2

/-- Only the drop releases. -/
theorem frees_nil (hpc : r.pc ≠ .drop) : r.frees a = [] := by
  unfold Rcv.frees
  split
  · contradiction
  · rfl

theorem frees_other (ha : a ≠ .tau) : r.frees a = [] := by
  unfold Rcv.frees
  split
  · contradiction
  · rfl

/-- **What a step of the receiver allocates, passes on and releases**, unless it leaves with messages. -/
theorem RStep.account (hp : PtrInv r) (h : RStep c quit r fs a r' fs') {pushed : List Message}
    (hpush : r'.pushed = r.pushed ++ pushed) (hl : a = .tau → r.leaves quit = true → r.holds = []) :
    (r.holds ++ r.allocs r').Perm (r'.holds ++ (r.frees a ++ pushed.map Message.addr)) := by
  -- a step that pushes and releases nothing
  have quiet : r'.pushed = r.pushed → r.pc ≠ .drop → (r.holds ++ r.allocs r').Perm r'.holds →
      (r.holds ++ r.allocs r').Perm (r'.holds ++ (r.frees a ++ pushed.map Message.addr)) := by
    intro h1 h2 h3
    rw [h1] at hpush
    rw [frees_nil h2, List.self_eq_append_right.1 hpush]
    simpa using h3
  have passed : ∀ m, r'.pushed = r.pushed ++ [m] → r.pc ≠ .drop → (r.holds ++ r.allocs r').Perm (r'.holds ++ [m.addr]) →
      (r.holds ++ r.allocs r').Perm (r'.holds ++ (r.frees a ++ pushed.map Message.addr)) := by
    intro m h1 h2 h3
    rw [h1] at hpush
    rw [frees_nil h2, ← List.append_cancel_left hpush]
    exact h3
  -- nothing is left behind
  have left : a = .tau → r.leaves quit = true → r'.pushed = r.pushed → r.pc ≠ .drop → r'.pc = .returned →
      r'.msg = r.msg → r'.info = r.info →
      (r.holds ++ r.allocs r').Perm (r'.holds ++ (r.frees a ++ pushed.map Message.addr)) := by
    intro h1 h2 h3 h4 h5 h6 h7
    refine quiet h3 h4 ?_
    rw [hl h1 h2, hp.allocs_nil (Or.inl (by rw [h6])) (Or.inl (by rw [h7])), holds_returned h5]
    rfl
  cases h with
  | selectErr hpc _ =>
    exact quiet rfl (by simp [hpc]) (hp.account_same rfl rfl rfl (by simp [hpc]) (by simp [hpc]))
  | @select n hpc _ =>
    exact quiet rfl (by simp [hpc]) (hp.account_same rfl rfl rfl (by simp [hpc]) (by by_cases hn : n = 0 <;> simp [hn]))
  | goOn hpc _ | quitPush hpc _ _ _ | recvErr hpc _ | noRecv hpc =>
    exact quiet rfl (by simp [hpc]) (hp.account_same rfl rfl rfl (by simp [hpc]) (by simp))
  | keep hpc _ =>
    exact quiet rfl (by simp [hpc]) (hp.account_same rfl rfl rfl (by simp [hpc]) (afterReady_plain r))
  | quitDone hpc hq hlen =>
    refine left rfl ?_ rfl (by simp [hpc]) rfl rfl rfl
    have hall : r.msg.all (·.len ≤ 0) = true := by
      cases hm : r.msg with
      | none => rfl
      | some m => simpa using hlen m hm
    simp [Rcv.leaves, hpc, hq, hall]
  | lastLog hpc => exact left rfl (by simp [Rcv.leaves, hpc]) rfl (by simp [hpc]) rfl rfl rfl
  | @lastPush m ok hpc hm =>
    cases ok with
    | false => exact quiet rfl (by simp [hpc]) (hp.account_same rfl rfl rfl (by simp [hpc]) (by simp))
    | true =>
      refine passed m rfl (by simp [hpc]) (hp.account_push (by simp [hpc]) rfl rfl rfl (Or.inr ⟨hm, rfl, by simp, ?_⟩))
      rw [hpc]
      rfl
  | @dataPush m hpc hm =>
    refine passed m rfl (by simp [hpc]) (hp.account_push (by simp [hpc]) rfl rfl rfl (Or.inr ⟨hm, rfl, by simp, ?_⟩))
    rw [hpc]
    rfl
  | @namesPush names hpc hn =>
    exact passed names rfl (by simp [hpc]) (hp.account_push (by simp [hpc]) rfl rfl rfl (Or.inl ⟨hn, rfl, hpc⟩))
  | @alloc m hpc hnone hnew =>
    exact quiet rfl (by simp [hpc]) (hp.account_alloc hnone (by rw [addrOf_some, (messageNew_fields hnew).2.2.2]) rfl rfl
      (by simp [hpc]) (afterReady_plain r))
  | namesFail hpc | dataFail hpc =>
    exact quiet rfl (by simp [hpc]) (hp.account_same (addrOf_setType _ _) rfl rfl (by simp [hpc]) (by simp))
  | detach hpc =>
    refine quiet rfl (by simp [hpc]) ?_
    have hn : (datafileDetachNamemsg r.info fs).1.namesMsg = none := rfl
    rw [hp.allocs_nil (Or.inl (addrOf_setType _ _)) (Or.inr hn), List.append_nil, Rcv.holds, if_neg (by simp [hpc]),
      if_pos hpc, holds_plain (by simp) (by simp), hn, addrOf_setType]
    rfl
  | @recv m m₁ bs hpc hm _ hst =>
    exact quiet rfl (by simp [hpc])
      (hp.account_same (by rw [hm, addrOf_some, addrOf_some, ← store_addr hst]) rfl rfl (by simp [hpc]) (by simp))
  | @flush m hpc _ =>
    have heq := stepFlush_eq r m
    exact quiet (by rw [heq]) (by simp [hpc]) (hp.account_same (by rw [heq]) (by rw [heq]) (by rw [heq]) (by simp [hpc])
      (stepFlush_plain r m))
  | dataLog hpc => exact quiet rfl (by simp [hpc]) (hp.account_log hpc rfl rfl (by simp))
  | @writeOk m e w hpc hm hw _ =>
    exact quiet rfl (by simp [hpc]) (hp.account_names (by rw [hm]; rfl) rfl hw.names_account (by simp [hpc]) (by simp))
  | @writeFail m e w hpc hm hw _ =>
    exact quiet rfl (by simp [hpc]) (hp.account_names rfl rfl hw.names_account (by simp [hpc]) (by simp))
  | drop hpc hreset =>
    have hfrees : r.frees .tau = addrOf r.msg := by simp [Rcv.frees, hpc]
    rw [List.self_eq_append_right.1 hpush, List.map_nil, List.append_nil, hfrees]
    exact hp.account_drop hpc rfl (reset_account hreset) (by simp)
  | @reach k fp _ =>
    have hnew : r.allocs { r with info := { r.info with currFp := some (fp.flush fs k).2 } } = [] :=
      hp.allocs_nil (Or.inl rfl) (Or.inl rfl)
    rw [frees_other (by simp), List.self_eq_append_right.1 hpush, hnew, List.append_nil]
    simp [Rcv.holds, Rcv.given]

/-- The receiver leaves: what it holds stays behind. -/
theorem RStep.leave (h : RStep c quit r fs .tau r' fs') (hl : r.leaves quit = true) :
    r'.pc = .returned ∧ r'.pushed = r.pushed ∧ r.frees .tau = [] := by
  have hpc : r.pc = .lastLog ∨ r.pc = .checkQuit ∧ quit = true ∧ r.msg.all (·.len ≤ 0) = true := by
    simpa [Rcv.leaves, and_assoc] using hl
  have hf : r.frees .tau = [] := frees_nil (by rcases hpc with h1 | ⟨h1, -⟩ <;> simp [h1])
  cases h with
  | quitDone _ _ _ | lastLog _ => exact ⟨rfl, rfl, hf⟩
  | goOn h1 hq => simp [h1, hq] at hpc
  | @quitPush m h1 _ hm hlen =>
    have hle : m.len ≤ 0 := by simpa [h1, hm] using (hpc.resolve_left (by simp [h1])).2.2
    omega
  | keep h1 _ | alloc h1 _ _ | detach h1 | noRecv h1 | flush h1 _ | dataLog h1 | drop h1 _ => simp [h1] at hpc

/-! ## The sender's share -/

section Sender

variable {sd sd' : Snd} {queue queue' : List Message} {b : SAct}

/-- **What a step of the sender takes and releases**, unless it leaves with messages. -/
theorem SStep.account (hi : SndInv sd) (h : SStep c quit sd queue fs b sd' queue' fs')
    (hl : sd.leaks quit queue b = false) : (sd.holds queue).Perm (sd'.holds queue' ++ sd.frees b) := by
  -- it leaves with nothing in its hands
  have left : sd.pc ≠ .returned → sd'.pc = .returned → sd.frees b = [] → queue = [] → sd.msg = none →
      (sd.holds queue).Perm (sd'.holds queue' ++ sd.frees b) := by
    intro h1 h2 h3 h4 h5
    rw [Snd.holds, Snd.holds, if_neg h1, if_pos h2, h3, h4, h5]
    rfl
  by_cases hret : sd.pc = .returned
  · cases h with
    | @reach k fp _ =>
      have hf : sd.frees (.flush k) = [] := by
        unfold Snd.frees
        split <;> simp_all
      rw [Snd.holds, Snd.holds, if_pos hret, hf]
      rfl
    | pop h1 _ | popNone h1 | checkQuit h1 | log h1 | buff h1 _ _ | list h1 _ _ | file h1 _ _ | filesEnd h1 _ _ | check h1
    | rename h1 _ _ _ | renameEnd h1 _ _ _ | opened h1 _ _ _ | fopen h1 _ _ _ | fopenFail h1 _ _ | fwrite h1 _ _
    | fwriteFail h1 _ _ | del h1 | dumpPop h1 _ | dumpEnd h1 => rw [hret] at h1; cases h1
  · by_cases hret' : sd'.pc = .returned
    · cases h with
      | checkQuit h1 =>
        have hq : quit = true := by
          cases quit with
          | false => cases hret'
          | true => rfl
        refine left hret hret' (by simp [Snd.frees, h1]) ?_ (hi.free (Or.inr (Or.inl h1)))
        simpa [Snd.leaks, h1, hq] using hl
      | dumpEnd h1 =>
        refine left hret hret' (by simp [Snd.frees, h1]) ?_ (hi.free (Or.inr (Or.inr h1)))
        simpa [Snd.leaks, h1] using hl
      | fopenFail _ _ _ => cases hl
      | pop _ _ | popNone _ | log _ | list _ _ _ | filesEnd _ _ _ | renameEnd _ _ _ _ | opened _ _ _ _ | fopen _ _ _ _
      | fwrite _ _ _ | fwriteFail _ _ _ | del _ | dumpPop _ _ => cases hret'
      | check _ => cases quit <;> cases hret'
      | @buff m res hpc _ _ => cases res <;> simp [Snd.stepBuff] at hret'
      | @file m res hpc _ _ => cases res <;> simp [Snd.stepFile, hpc] at hret'
      | @rename m ok hpc _ _ _ =>
        rw [(stepRename_pc _ _ sd m ok).1] at hret'
        exact absurd hret' hret
      | reach _ => exact absurd hret' hret
    · rw [Snd.holds, Snd.holds, if_neg hret, if_neg hret']
      rcases h.held_cases with ⟨m, hq, hm, hf⟩ | ⟨rfl, m, hm, hm', hf⟩ | ⟨rfl, hf, ha⟩
      · have hnone : sd.msg = none := by
          cases h with
          | pop h1 _ => exact hi.free (Or.inl h1)
          | dumpPop h1 _ => exact hi.free (Or.inr (Or.inr h1))
          | _ => exact absurd (congrArg List.length hq) (by simp)
        rw [hf, hq, hm, hnone, addrOf_none, addrOf_some, List.append_nil, List.append_nil]
        exact (List.perm_append_singleton _ _).symm
      · rw [hf, hm, hm', addrOf_none, addrOf_some, List.append_nil]
      · rw [hf, ha, List.append_nil]

/-- The sender leaves: what is queued and what it holds stay behind. -/
theorem SStep.leave (h : SStep c quit sd queue fs b sd' queue' fs')
    (hl : sd.leaks quit queue b = true) :
    sd'.pc = .returned ∧ sd.pc ≠ .returned ∧ sd.frees b = [] ∧ sd.holds queue ≠ [] := by
  have some : sd.pc ≠ .returned → queue ≠ [] → sd.holds queue ≠ [] := by
    intro h1 h2
    rw [Snd.holds, if_neg h1]
    simp [h2]
  cases h with
  | checkQuit h1 =>
    have hq : quit = true ∧ queue ≠ [] := by simpa [Snd.leaks, h1] using hl
    refine ⟨by simp [hq.1], by simp [h1], by simp [Snd.frees, h1], some (by simp [h1]) hq.2⟩
  | dumpEnd h1 =>
    have hq : queue ≠ [] := by simpa [Snd.leaks, h1] using hl
    exact ⟨rfl, by simp [h1], by simp [Snd.frees, h1], some (by simp [h1]) hq⟩
  | fopenFail h1 hm _ =>
    refine ⟨rfl, by simp [h1], by simp [Snd.frees, h1], ?_⟩
    rw [Snd.holds, if_neg (by simp [h1]), hm]
    simp
  | popNone h1 => simp [Snd.leaks, h1] at hl
  | log h1 | list h1 _ _ | filesEnd h1 _ _ | check h1 | renameEnd h1 _ _ _ | opened h1 _ _ _ | del h1 =>
    simp [Snd.leaks, h1] at hl
  | pop _ _ | buff _ _ _ | file _ _ _ | rename _ _ _ _ | fopen _ _ _ _ | fwrite _ _ _ | fwriteFail _ _ _ | dumpPop _ _
  | reach _ => cases hl

end Sender

/-! ## Releases in a run -/

section Runs

variable {fs : Disk} {s s' : Sys} {b : SysAct} {x : ℕ}

theorem RStep.push_true (hp : PtrInv r) (h : RStep c quit r fs (.push true) r' fs') :
    ∃ m, r'.pushed = r.pushed ++ [m] ∧ r.frees (.push true) = [] ∧ r.allocs r' = [] := by
  have hf : r.frees (.push true) = [] := frees_other (by simp)
  cases h with
  | @lastPush m _ _ hm => exact ⟨m, rfl, hf, hp.allocs_nil (Or.inl rfl) (Or.inl rfl)⟩
  | @namesPush m _ _ => exact ⟨m, rfl, hf, hp.allocs_nil (Or.inl rfl) (Or.inl rfl)⟩
  | @dataPush m _ _ => exact ⟨m, rfl, hf, hp.allocs_nil (Or.inl rfl) (Or.inl rfl)⟩

/-- What the receiver holds is its own, and was not pushed. -/
theorem OwnInv.rcv_holds (h : s.OwnInv) (hx : x ∈ s.rcv.holds) : x ∉ s.rcv.given ∧ s.owner x = .receiver := by
  have hno := (PtrInv.holds_not_given h.ptr hx).1
  rcases mem_holds hx with ⟨h1, -⟩ | ⟨-, h1⟩
  · obtain ⟨m, hm, rfl⟩ := mem_addrOf h1
    exact ⟨hno, h.msg m hm hno⟩
  · obtain ⟨m, hm, rfl⟩ := mem_addrOf h1
    exact ⟨hno, h.names m hm hno⟩

/-- What is queued or with the sender was pushed. -/
theorem OwnInv.snd_holds (h : s.OwnInv) (hx : x ∈ s.snd.holds s.queue) :
    x ∈ s.rcv.given ∧ (s.owner x = .queue ∨ s.owner x = .sender) := by
  unfold Snd.holds at hx
  split at hx
  · cases hx
  · rcases List.mem_append.1 hx with hx | hx
    · obtain ⟨m, hm, rfl⟩ := List.mem_map.1 hx
      exact ⟨(h.queued m hm).2, Or.inl (h.queued m hm).1⟩
    · obtain ⟨m, hm, rfl⟩ := mem_addrOf hx
      exact ⟨(h.snd m hm).2, Or.inr (h.snd m hm).1⟩

/-- What somebody holds is an allocation that was not released. -/
theorem OwnInv.held_live (h : s.OwnInv) (hx : x ∈ s.held) : x ∉ s.freed ∧ x < s.rcv.fresh := by
  rcases List.mem_append.1 hx with hx | hx
  · obtain ⟨-, hown⟩ := OwnInv.rcv_holds h hx
    refine ⟨fun hf => ?_, (PtrInv.holds_not_given h.ptr hx).2⟩
    rw [(h.released x hf).1] at hown
    cases hown
  · obtain ⟨hg, hown⟩ := OwnInv.snd_holds h hx
    refine ⟨fun hf => ?_, h.ptr.given_lt x hg⟩
    rw [(h.released x hf).1] at hown
    simp at hown

/-- What is pushed comes to the queue of a sender that is there. -/
theorem holds_pushed {sd : Snd} {queue pushed : List Message} (h : sd.pc = .returned → pushed = []) :
    (sd.holds (queue ++ pushed)).Perm (sd.holds queue ++ pushed.map Message.addr) := by
  unfold Snd.holds
  split
  · rename_i hret
    rw [h hret]
    rfl
  · rw [List.map_append, List.append_assoc, List.append_assoc]
    exact List.perm_append_comm.append_left _

/-- **A step that does not leak** moves, releases and allocates messages, and loses none. -/
theorem account_step (ho : s.OwnInv) (hsnd : SndInv s.snd) (hs : s.step c b = some s') (hl : s.leaks b = false) :
    (s.freed ++ s.held ++ s.rcv.allocs s'.rcv).Perm (s'.freed ++ s'.held) := by
  have idle : s.rcv.allocs s.rcv = [] := PtrInv.allocs_nil ho.ptr (Or.inl rfl) (Or.inl rfl)
  unfold Sys.held
  cases sys_cases hs with
  | @rcv a r fs pushed _ hr hp =>
    have hrcv := hr.account ho.ptr hp fun ha hleave => by simpa [Sys.leaks, ha, hleave] using hl
    have hqueue : (s.snd.holds (s.queue ++ pushed)).Perm (s.snd.holds s.queue ++ pushed.map Message.addr) := by
      refine holds_pushed fun hret => ?_
      rcases hr.pushed with h1 | ⟨m, -, rfl, -⟩
      · rw [h1] at hp
        exact List.self_eq_append_right.1 hp
      · simp [Sys.leaks, hret] at hl
    refine List.perm_iff_count.2 fun x => ?_
    have h1 := hrcv.count_eq x
    have h2 := hqueue.count_eq x
    simp only [List.count_append] at h1 h2 ⊢
    omega
  | @snd b sd queue popped fs _ hss _ =>
    have hshare := hss.account hsnd hl
    refine List.perm_iff_count.2 fun x => ?_
    have h1 := hshare.count_eq x
    simp only [List.count_append, idle, List.count_nil] at h1 ⊢
    omega
  | main hm =>
    rw [hm.same.rcv, hm.same.snd, hm.same.queue, hm.same.freed, idle, List.append_nil]
  | starter hm =>
    rw [hm.same.rcv, hm.same.snd, hm.same.queue, hm.same.freed, idle, List.append_nil]

/-- **A step that leaks** releases nothing, and afterwards some message is no longer held. -/
theorem leak_step (ho : s.OwnInv) (hs : s.step c b = some s') (hl : s.leaks b = true) :
    s'.freed = s.freed ∧ s'.held ⊆ s.held ∧ ∃ x ∈ s.held, x ∉ s'.held := by
  unfold Sys.held
  cases sys_cases hs with
  | @rcv a r fs pushed _ hr hp =>
    cases a with
    | tau =>
      have hleave : s.rcv.leaves (checkWorkersQuit s.quit) = true ∧ s.rcv.holds ≠ [] := by simpa [Sys.leaks] using hl
      obtain ⟨h1, h2, h3⟩ := hr.leave hleave.1
      obtain rfl : pushed = [] := by
        rw [h2] at hp
        exact List.self_eq_append_right.1 hp
      obtain ⟨x, hx⟩ := List.exists_mem_of_ne_nil _ hleave.2
      have hx' : x ∉ s.snd.holds s.queue := fun hmem =>
        (OwnInv.rcv_holds ho hx).1 (OwnInv.snd_holds ho hmem).1
      simp only [h3, List.append_nil, holds_returned h1, List.nil_append, true_and]
      exact ⟨List.subset_append_right _ _, x, List.mem_append_left _ hx, hx'⟩
    | push ok =>
      cases ok with
      | false => cases hl
      | true =>
        have hret : s.snd.pc = .returned := by simpa [Sys.leaks] using hl
        obtain ⟨m, h1, h2, h3⟩ := hr.push_true ho.ptr
        obtain rfl : pushed = [m] := by
          rw [h1] at hp
          exact (List.append_cancel_left hp).symm
        have hshare := hr.account ho.ptr hp fun ha => by cases ha
        rw [h2, h3, List.append_nil] at hshare
        have hgiven : m.addr ∈ r.given := by simp [Rcv.given, h1]
        have hnone : ∀ queue, s.snd.holds queue = [] := fun queue => if_pos hret
        simp only [h2, hnone, List.append_nil, true_and]
        refine ⟨fun y hy => hshare.mem_iff.2 (List.mem_append_left _ hy), m.addr, hshare.mem_iff.2 (by simp), fun hx => ?_⟩
        exact ((PtrInv.step ho.ptr hr).holds_not_given hx).1 hgiven
    | select _ | recv _ | write _ | flush _ => cases hl
  | @snd b sd queue popped fs _ hss _ =>
    obtain ⟨h1, h2, h3, h4⟩ := hss.leave hl
    obtain ⟨x, hx⟩ := List.exists_mem_of_ne_nil _ h4
    have hx' : x ∉ s.rcv.holds := fun hmem => (OwnInv.rcv_holds ho hmem).1 (OwnInv.snd_holds ho hx).1
    have hnone : sd.holds queue = [] := if_pos h1
    simp only [h3, hnone, List.append_nil, true_and]
    exact ⟨List.subset_append_left _ _, x, List.mem_append_right _ hx, hx'⟩
  | main _ | starter _ => cases hl

/-- A message that nobody holds is not released any more. -/
theorem lost_forever (ho : s.OwnInv) (hsnd : SndInv s.snd) (hlt : x < s.rcv.fresh) (hno : x ∉ s.freed ++ s.held) {t : Sys}
    (h : Reach (Sys.step c) Any s t) : x ∉ t.freed := by
  have hinv : t.OwnInv ∧ SndInv t.snd ∧ x < t.rcv.fresh ∧ x ∉ t.freed ++ t.held := by
    refine h.inv (I := fun t => t.OwnInv ∧ SndInv t.snd ∧ x < t.rcv.fresh ∧ x ∉ t.freed ++ t.held)
      ⟨ho, hsnd, hlt, hno⟩ ?_
    rintro s b s' ⟨ho, hsnd, hlt, hno⟩ - hs
    have hsnd' : SndInv s'.snd ∧ s.rcv.fresh ≤ s'.rcv.fresh := by
      cases sys_cases hs with
      | rcv _ hr _ => exact ⟨hsnd, hr.fresh_le⟩
      | snd _ hss _ => exact ⟨hss.inv hsnd, le_rfl⟩
      | main hm => exact ⟨hm.same.snd ▸ hsnd, hm.same.rcv ▸ le_rfl⟩
      | starter hm => exact ⟨hm.same.snd ▸ hsnd, hm.same.rcv ▸ le_rfl⟩
    refine ⟨sys_ownInv_step ho hs, hsnd'.1, hlt.trans_le hsnd'.2, fun hmem => hno ?_⟩
    cases hl : s.leaks b with
    | true =>
      obtain ⟨h1, h2, -⟩ := leak_step ho hs hl
      rw [h1] at hmem
      exact List.append_subset.2 ⟨List.subset_append_left _ _, List.Subset.trans h2 (List.subset_append_right _ _)⟩ hmem
    | false =>
      rcases List.mem_append.1 ((account_step ho hsnd hs hl).mem_iff.2 hmem) with hmem | hmem
      · exact hmem
      · have hle : s.rcv.fresh ≤ x := by simpa using (List.mem_filter.1 hmem).2
        omega
  exact fun hx => hinv.2.2.2 (List.mem_append_left _ hx)

/-- **After a leak** some message is never released. -/
theorem lost_of_leaks (ho : s.OwnInv) (hs : s.step c b = some s') (hsnd' : SndInv s'.snd)
    (hl : s.leaks b = true) : ∃ x ∈ s.held, ∀ t, Reach (Sys.step c) Any s' t → x ∉ t.freed := by
  obtain ⟨h1, -, x, hx, hno⟩ := leak_step ho hs hl
  obtain ⟨hf, hlt⟩ := OwnInv.held_live ho hx
  have hle : s.rcv.fresh ≤ s'.rcv.fresh := by
    cases sys_cases hs with
    | rcv _ hr _ => exact hr.fresh_le
    | snd _ _ _ => exact le_rfl
    | main hm | starter hm => exact hm.same.rcv ▸ le_rfl
  refine ⟨x, hx, fun t ht => lost_forever (sys_ownInv_step ho hs) hsnd' (hlt.trans_le hle) ?_ ht⟩
  rw [h1, List.mem_append, not_or]
  exact ⟨hf, hno⟩

/-! ## Ownership is exclusive -/

/-- **Every allocation is released once, or still held** by the receiver, in the queue or by the sender.
When both workers have returned, everything is released. -/
structure ReleasedOnce (s : Sys) (xs : List ℕ) : Prop where
  distinct : xs.Nodup
  all : (s.freed ++ s.held).Perm xs
  done : s.rcv.pc = .returned → s.snd.pc = .returned → s.freed.Perm xs

/-- No push of `msg` succeeds, and nobody leaves with messages. -/
def Exclusive (s : Sys) (b : SysAct) : Prop := NoMsgPush s b ∧ s.leaks b = false

instance (s : Sys) (b : SysAct) : Decidable (Exclusive s b) := inferInstanceAs (Decidable (_ ∧ _))

/-- The allocations `xs` are accounted for. -/
structure HeldInv (s : Sys) (xs : List ℕ) : Prop where
  own : s.OwnInv
  snd : SndInv s.snd
  lt : ∀ x ∈ xs, x < s.rcv.fresh
  distinct : xs.Nodup
  all : (s.freed ++ s.held).Perm xs

theorem PtrInv.ptrs_nodup (h : PtrInv r) : (addrOf r.msg ++ addrOf r.info.namesMsg).Nodup := by
  cases hm : r.msg with
  | none => cases r.info.namesMsg <;> simp
  | some m =>
    cases hn : r.info.namesMsg with
    | none => simp
    | some names => simpa using h.distinct m names hm hn

theorem heldInv_init (c : Configure) (fs : Disk) : HeldInv (Sys.init c fs) [] :=
  ⟨sys_ownInv_init c fs, sndInv_init, by simp, List.nodup_nil, List.Perm.refl _⟩

/-- **A step that does not leak keeps every allocation accounted for.** -/
theorem HeldInv.step {xs : List ℕ} (h : HeldInv s xs) (hs : s.step c b = some s') (hsnd : SndInv s'.snd)
    (hl : s.leaks b = false) : HeldInv s' (noteAllocs s b s' xs) := by
  have hptr : PtrInv s'.rcv := (sys_ownInv_step h.own hs).ptr
  have hle : s.rcv.fresh ≤ s'.rcv.fresh := by
    cases sys_cases hs with
    | rcv _ hr _ => exact hr.fresh_le
    | snd _ _ _ => exact le_rfl
    | main hm | starter hm => exact hm.same.rcv ▸ le_rfl
  refine ⟨sys_ownInv_step h.own hs, hsnd, fun x hx => ?_, ?_, ?_⟩
  · rcases List.mem_append.1 hx with hx | hx
    · exact (h.lt x hx).trans_le hle
    · exact hptr.old (List.mem_filter.1 hx).1
  · -- a new allocation differs from the earlier ones
    refine List.nodup_append.2 ⟨h.distinct, hptr.ptrs_nodup.filter _, fun x hx y hy he => ?_⟩
    have hlt := h.lt x hx
    have hge : s.rcv.fresh ≤ y := by simpa using (List.mem_filter.1 hy).2
    omega
  · exact (account_step h.own h.snd hs hl).symm.trans (h.all.append_right _)

/-- **In every run without leaks** every allocation is accounted for. -/
theorem heldInv {p : Sys × List ℕ} (h : Reach (watch (Sys.step c) noteAllocs) (fun p b => p.1.leaks b = false)
    (Sys.init c fs, []) p) : HeldInv p.1 p.2 := by
  refine h.inv (I := fun p => HeldInv p.1 p.2) (heldInv_init c fs) ?_
  rintro ⟨s, xs⟩ b p hi hl hs
  obtain ⟨s', hstep, rfl⟩ := Option.map_eq_some_iff.1 hs
  refine hi.step hstep ?_ hl
  cases sys_cases hstep with
  | rcv _ _ _ => exact hi.snd
  | snd _ hss _ => exact hss.inv hi.snd
  | main hm => exact hm.same.snd ▸ hi.snd
  | starter hm => exact hm.same.snd ▸ hi.snd

theorem HeldInv.releasedOnce {xs : List ℕ} (h : HeldInv s xs) : ReleasedOnce s xs := by
  refine ⟨h.distinct, h.all, fun h1 h2 => ?_⟩
  have hnone : s.held = [] := by rw [Sys.held, holds_returned h1, Snd.holds, if_pos h2, List.append_nil]
  simpa [hnone] using h.all

end Runs

/-- **Messages are touched only by their owner and released once, as long as no push of `msg` succeeds and
nobody leaves with messages.** In every run whose steps meet this, each step touches messages of its own
thread only, and every allocation is released once or held by one thread or the queue. In any run, a
successful push of `msg` is followed by a step that is enabled and touches the message after it was given
away, and no other step touches a message of another thread; a step that leaks leaves a message behind that
is never released; and no message is released twice. -/
theorem ownership_exclusive (c : Configure) (fs : Disk) :
    (∀ p, Reach (watch (Sys.step c) noteAllocs) (fun p => Exclusive p.1) (Sys.init c fs, []) p →
        (∀ b s', p.1.step c b = some s' → OwnAccess p.1 b) ∧ ReleasedOnce p.1 p.2) ∧
      (∀ s b s', Reach (Sys.step c) Any (Sys.init c fs) s → s.step c b = some s' → ¬ NoMsgPush s b →
        (s'.step c (.rcv .tau)).isSome ∧ ¬ OwnAccess s' (.rcv .tau)) ∧
      (∀ s b s', Reach (Sys.step c) Any (Sys.init c fs) s → s.step c b = some s' → s.leaks b = true →
        ∃ x ∈ s.held, ∀ t, Reach (Sys.step c) Any s' t → x ∉ t.freed) ∧
      (∀ s b s', Reach (Sys.step c) Any (Sys.init c fs) s → s.step c b = some s' →
        (OwnAccess s b ↔ ¬ ReadsPushed s b)) ∧
      ∀ s, Reach (Sys.step c) Any (Sys.init c fs) s →
        s.freed.Nodup ∧ ∀ x ∈ s.freed, s.owner x = .released := by
  refine ⟨fun p h => ⟨fun b s' _ => ?_, ?_⟩, fun s b s' h hs hbad => ?_, fun s b s' h hs hl => ?_,
    fun s b s' h _ => ?_, fun s h => ?_⟩
  · have hreach : Reach (Sys.step c) NoMsgPush (Sys.init c fs) p.1 := (h.mono fun _ _ hc => hc.1).unwatched
    refine (ownAccess_iff (sys_ownInv hreach) b).2 ?_
    rintro ⟨-, -, m, hm, hg⟩
    exact unpushed_of_reach hreach m hm hg
  · exact (heldInv (h.mono fun _ _ hc => hc.2)).releasedOnce
  · obtain ⟨hen, hread⟩ := reads_after_push hs hbad
    have hinv := sys_ownInv (h.next trivial hs)
    exact ⟨hen, fun hacc => (ownAccess_iff hinv _).1 hacc hread⟩
  · exact lost_of_leaks (sys_ownInv h) hs (sys_sndInv (h.next trivial hs)) hl
  · exact ownAccess_iff (sys_ownInv h) b
  · have hinv := sys_ownInv h
    exact ⟨hinv.once, fun x hx => (hinv.released x hx).1⟩

/-- A message goes to a file, and the list with its name is pushed, popped, sent and released. -/
def ownDemo : List SysAct :=
  boot ++ (turn [] [1, 2] [.push false, .write ⟨40, true, none⟩] ++ [RAct.select 1, .tau, .push true, .tau]).map .rcv ++
    [.snd (.pop true), .snd .tau, .snd .tau, .snd (.send .success), .main, .main, .snd .tau, .snd .tau, .snd .tau,
      .snd .tau]

theorem ownDemo_runs : (run (guarded (watch (Sys.step (demoConf 4097 1)) noteAllocs) fun p => Exclusive p.1)
    (Sys.init (demoConf 4097 1) (Fs.empty _ _), []) ownDemo).isSome := by
  decide +kernel

/-- The end of this run. -/
def ownDemoEnd : Sys × List ℕ := runTo ownDemo_runs

theorem ownership_exclusive_demo :
    ownDemoEnd.1.freed = [1] ∧ ownDemoEnd.1.held = [0] ∧ ownDemoEnd.2 = [0, 1] ∧
      (∀ b s', ownDemoEnd.1.step (demoConf 4097 1) b = some s' → OwnAccess ownDemoEnd.1 b) ∧
      ReleasedOnce ownDemoEnd.1 ownDemoEnd.2 :=
  ⟨by decide +kernel, by decide +kernel, by decide +kernel,
    (ownership_exclusive (demoConf 4097 1) (Fs.empty _ _)).1 _ (reach_runTo_guarded ownDemo_runs)⟩

/-- A message is pushed, and popped, sent and released before the receiver goes on. -/
def releasedDemo : List SysAct :=
  boot ++ (turn [] [1, 2] [.push true]).map SysAct.rcv ++ [SysAct.snd (.pop true), .snd .tau, .snd (.send .success)]

theorem releasedDemo_runs : (run (Sys.step (demoConf 4097 1))
    (Sys.init (demoConf 4097 1) (Fs.empty _ _)) releasedDemo).isSome := by
  decide +kernel

/-- The end of this run. -/
def releasedDemoEnd : Sys := runTo releasedDemo_runs

/-- **The receiver reads a released message**: the log line after the push. -/
theorem released_message_read :
    ∃ s, Reach (Sys.step (demoConf 4097 1)) Any (Sys.init (demoConf 4097 1) (Fs.empty _ _)) s ∧
      s.freed = [0] ∧ SysAct.touches s (.rcv .tau) = [0] ∧ (s.step (demoConf 4097 1) (.rcv .tau)).isSome ∧
      ¬ OwnAccess s (.rcv .tau) := by
  refine ⟨releasedDemoEnd, reach_runTo releasedDemo_runs, by decide +kernel, by decide +kernel,
    by decide +kernel, fun hacc => ?_⟩
  have hown := hacc 0 (by decide +kernel)
  revert hown
  decide +kernel

end HookKernel
