import HookKernel.Proof.Response
import HookKernel.Proof.Uploads
import HookKernel.Spec.Transfer

/-!
# What is uploaded is stored once

* `perform_eq`: a transfer in terms of the response, however it is split.
* `upload_result`: what the two functions return.
* `retold_step`, `retold_sys`: what the sender notes has no influence on the process.
* `Retold.next`: a process whose uploads are told as the server knows them takes the same steps.
* `stored_once`: the server stores the received bytes in their order, each one at most once.
-/

namespace HookKernel

open Lib

variable {json : List UInt8 → Option ℤ} {t : Transfer} {c : Configure} {quit : Bool} {sd sd' : Snd}
  {queue queue' : List Message} {fs fs' : Disk} {b : SAct}

/-! ## One transfer -/

/-- What a reader of the buffer finds: the response up to its first NUL, or 511 bytes of it. -/
theorem cstr_front (total : List UInt8) :
    cstr (· == 0) (RespBuffer.front total).buff = cstr (· == 0) (total.take 511) := by
  show cstr (· == 0) (total.take 511 ++ List.replicate (512 - min total.length 511) 0) = _
  unfold cstr
  rw [List.takeWhile_append]
  split
  · rename_i hall
    rw [show 512 - min total.length 511 = 511 - min total.length 511 + 1 by omega, List.replicate_succ,
      List.takeWhile_cons_of_neg (by decide), List.append_nil]
    exact (List.takeWhile_prefix _).eq_of_length hall |>.symm
  · rfl

/-- **A transfer**: the chunks never leave the buffer, and only the bytes they bring together matter. -/
theorem perform_eq (json : List UInt8 → Option ℤ) (t : Transfer) :
    t.perform json = some (if t.rc.unsent then .errNet else if t.rc = .other then .errSys
      else if t.Accepted json then .success else .errSrv) := by
  have hstart : Received (some RespBuffer.zeroed) [] := ⟨_, rfl, respBuffer_zeroed⟩
  obtain ⟨_, hdeliver, mem, rfl, hmem⟩ := hstart.deliver t.chunks
  rw [List.nil_append] at hmem
  obtain rfl := hmem.eq_front
  obtain ⟨init, chunks, rc, code⟩ := t
  unfold Transfer.perform Transfer.Accepted
  rw [hdeliver, Option.bind_some, Option.map_some, cstr_front]
  cases rc with
  | ok =>
    by_cases hcode : code = 200
    · subst hcode
      simp [CurlCode.unsent]
    · simp [hcode, Ne.symm hcode, CurlCode.unsent]
  | _ => simp [CurlCode.unsent]

/-- `send_log_buff` with a handle, or without one. -/
theorem sendLogBuff_eq (json : List UInt8 → Option ℤ) (t : Transfer) :
    sendLogBuff json t = some (if t.init = false ∨ t.rc = .other then .errSys else if t.rc.unsent then .errNet
      else if t.Accepted json then .success else .errSrv) := by
  unfold sendLogBuff
  rw [perform_eq]
  cases t.init with
  | false => rfl
  | true =>
    by_cases hother : t.rc = .other
    · simp [hother, CurlCode.unsent]
    · simp [hother]

theorem sendLogFile_eq (json : List UInt8 → Option ℤ) (flen : ℤ) (t : Transfer) :
    sendLogFile json flen t = if flen < 0 then some .errSys else sendLogBuff json t :=
  rfl

theorem accepted_sent {t : Transfer} (h : t.Accepted json) : t.rc ≠ .other ∧ t.rc.unsent = false := by
  rw [h.1]
  exact ⟨by decide, rfl⟩

theorem success_iff : sendLogBuff json t = some .success ↔ t.init = true ∧ t.Accepted json := by
  rw [sendLogBuff_eq, Option.some.injEq]
  constructor
  · intro h
    split_ifs at h with h1 h2 h3
    exact ⟨by simpa using fun hno => h1 (Or.inl hno), h3⟩
  · rintro ⟨hinit, hacc⟩
    obtain ⟨hother, hunsent⟩ := accepted_sent hacc
    rw [if_neg (by simp [hinit, hother]), hunsent, if_neg (by decide), if_pos hacc]

theorem errNet_iff : sendLogBuff json t = some .errNet ↔ t.init = true ∧ t.rc.unsent = true := by
  rw [sendLogBuff_eq, Option.some.injEq]
  constructor
  · intro h
    split_ifs at h with h1 h2
    exact ⟨by simpa using fun hno => h1 (Or.inl hno), h2⟩
  · rintro ⟨hinit, hunsent⟩
    have hother : t.rc ≠ .other := by
      intro h
      rw [h] at hunsent
      cases hunsent
    rw [if_neg (by simp [hinit, hother]), if_pos hunsent]

theorem errSys_iff : sendLogBuff json t = some .errSys ↔ t.init = false ∨ t.rc = .other := by
  rw [sendLogBuff_eq, Option.some.injEq]
  constructor
  · intro h
    split_ifs at h with h1
    exact h1
  · intro h
    rw [if_pos h]

/-- **What an upload returns**, whatever chunks the response comes in: success if the answer reports it as far as
it is read, a network error if the bytes could not be sent, `SND_ERR_SYS` if there was no request or curl failed in
another way, and otherwise `SND_ERR_SRV`. -/
theorem upload_result (json : List UInt8 → Option ℤ) (t : Transfer) (flen : ℤ) :
    ∃ res, sendLogBuff json t = some res ∧ sendLogFile json flen t = some (if flen < 0 then .errSys else res) ∧
      (res = .success ↔ t.init = true ∧ t.Accepted json) ∧ (res = .errNet ↔ t.init = true ∧ t.rc.unsent = true) ∧
      (res = .errSys ↔ t.init = false ∨ t.rc = .other) := by
  obtain ⟨res, hres⟩ : ∃ res, sendLogBuff json t = some res := ⟨_, sendLogBuff_eq json t⟩
  have hiff : ∀ r, res = r ↔ sendLogBuff json t = some r := by
    intro r
    rw [hres, Option.some.injEq]
  refine ⟨res, hres, ?_, (hiff _).trans success_iff, (hiff _).trans errNet_iff, (hiff _).trans errSys_iff⟩
  rw [sendLogFile_eq, hres]
  split <;> rfl

/-! ## What the sender notes has no influence -/

/-- The sender with other notes of what it sent and what it gave up. -/
def Snd.retold (sd : Snd) (sent dropped : List Cell) : Snd := { sd with sent := sent, dropped := dropped }

/-- An upload told as a success exactly if the server has stored the bytes. -/
def toldAs (stored : Bool) (res : SndRes) : SndRes :=
  if res = .errNet then .errNet else if stored then .success else .errSrv

theorem retold_stepRename (sd : Snd) (x y : List Cell) (m : Message) (ok : Bool) :
    (sd.retold x y).stepRename c fs m ok = ((sd.stepRename c fs m ok).1.retold x y, (sd.stepRename c fs m ok).2) := by
  unfold Snd.stepRename
  simp only
  split <;> rfl

/-- **A step without an upload**, with other notes. -/
theorem retold_step (h : sd.step c quit queue fs b = some (sd', queue', fs')) (hb : ∀ res, b ≠ .send res)
    (x y : List Cell) : (sd.retold x y).step c quit queue fs b = some (sd'.retold x y, queue', fs') := by
  cases sstep_cases h with
  | @buff m res _ _ _ => exact absurd rfl (hb res)
  | @file m res _ _ _ => exact absurd rfl (hb res)
  | pop h1 hq | dumpPop h1 hq =>
    subst hq
    simp only [Snd.step, Snd.retold, h1]
  | popNone h1 | checkQuit h1 | log h1 | check h1 | del h1 | dumpEnd h1 => simp only [Snd.step, Snd.retold, h1]
  | list h1 hm ht => simp [Snd.step, Snd.retold, h1, hm, ht]
  | filesEnd h1 hm hmore => simp [Snd.step, Snd.retold, h1, hm, hmore]
  | @rename m ok h1 hm ht hmore =>
    have hpc : (sd.retold x y).pc = .dump := h1
    have hmsg : (sd.retold x y).msg = some m := hm
    simp only [Snd.step, hpc, hmsg, Option.bind_some, ht, hmore, and_self, if_true, retold_stepRename]
  | renameEnd h1 hm ht hmore => simp [Snd.step, Snd.retold, h1, hm, ht, hmore]
  | opened h1 hm ht hfp => simp [Snd.step, Snd.retold, h1, hm, ht, hfp]
  | fopen h1 hm ht hfp => simp [Snd.step, Snd.retold, h1, hm, ht, hfp]
  | fopenFail h1 hm ht =>
    have hfp := fopen_fp h
    simp [Snd.step, Snd.retold, h1, hm, ht, hfp]
  | fwrite h1 hm hfp | fwriteFail h1 hm hfp => simp [Snd.step, Snd.retold, h1, hm, hfp]
  | reach hfp => simp [Snd.step, Snd.retold, hfp]

theorem retold_stepBuff (sd : Snd) (m : Message) {res : SndRes} {k : Bool} (hk : res = .errNet → k = false) (x y : List Cell) :
    ∃ y', (sd.retold x y).stepBuff m (toldAs k res) = (sd.stepBuff m res).retold (x ++ if k then m.bytes else []) y' := by
  cases res with
  | errNet =>
    rw [hk rfl, if_neg (by decide), List.append_nil]
    exact ⟨y, rfl⟩
  | success | errSys | errSrv =>
    cases k with
    | true => exact ⟨y, rfl⟩
    | false =>
      rw [if_neg (by decide), List.append_nil]
      exact ⟨y ++ m.bytes, rfl⟩

theorem retold_stepFile (sd : Snd) (fs : Disk) (m : Message) {res : SndRes} {k : Bool} (hk : res = .errNet → k = false)
    (x y : List Cell) : ∃ y', (sd.retold x y).stepFile fs m (toldAs k res) =
      (sd.stepFile fs m res).retold (x ++ if k then fs.content m.filename else []) y' := by
  cases res with
  | errNet =>
    rw [hk rfl, if_neg (by decide), List.append_nil]
    exact ⟨y, rfl⟩
  | success | errSys | errSrv =>
    cases k with
    | true => exact ⟨y, rfl⟩
    | false =>
      rw [if_neg (by decide), List.append_nil]
      exact ⟨y ++ fs.content m.filename, rfl⟩

/-- **A step with an upload**: the note tells what the server has stored. -/
theorem SStep.retold_send {res : SndRes} (h : SStep c quit sd queue fs (.send res) sd' queue' fs') {k : Bool}
    (hk : res = .errNet → k = false) (x y : List Cell) :
    ∃ y', (sd.retold x y).step c quit queue fs (.send (toldAs k res)) =
      some (sd'.retold (x ++ if k then sd.payload fs else []) y', queue', fs') := by
  cases h with
  | @buff m _ h1 hm ht =>
    obtain ⟨y', hstep⟩ := retold_stepBuff sd m hk x y
    have hpc : (sd.retold x y).pc = .body := h1
    have hmsg : (sd.retold x y).msg = some m := hm
    refine ⟨y', ?_⟩
    simp only [Snd.step, hpc, hmsg, Option.bind_some, ht, if_true, hstep, Snd.payload, h1, hm]
  | @file m _ h1 hm hmore =>
    obtain ⟨y', hstep⟩ := retold_stepFile sd fs m hk x y
    have hpc : (sd.retold x y).pc = .files := h1
    have hmsg : (sd.retold x y).msg = some m := hm
    refine ⟨y', ?_⟩
    simp only [Snd.step, hpc, hmsg, Option.bind_some, hmore, if_true, hstep, Snd.payload, h1, hm]

/-! ## The process -/

/-- The process with other notes of the sender. -/
def Sys.retold (s : Sys) (x y : List Cell) : Sys := { s with snd := s.snd.retold x y }

theorem retold_stepRcv (s : Sys) (x y : List Cell) (a : RAct) :
    (s.retold x y).stepRcv c a = (s.stepRcv c a).map fun s' => s'.retold x y := by
  unfold Sys.stepRcv Sys.retold
  cases s.rtid with
  | false => rfl
  | true =>
    cases hr : s.rcv.step c (checkWorkersQuit s.quit) s.fs a with
    | none => rfl
    | some r =>
      simp only [Bool.not_true, Bool.false_eq_true, if_false, Option.bind_eq_bind, Option.bind_some]
      split_ifs
      · rfl
      · rfl

/-- The process after a step of the sender. -/
def Sys.afterSnd (s : Sys) (d : SAct) (sd : Snd) (queue : List Message) (fs : Disk) : Sys :=
  { s with
    snd := sd, queue := queue, fs := fs, freed := s.freed ++ s.snd.frees d
    owner := give (give s.owner ((s.queue.take (s.queue.length - queue.length)).map Message.addr) .sender)
      (s.snd.frees d) .released }

theorem stepSnd_iff {s s' : Sys} {d : SAct} : s.stepSnd c d = some s' ↔ s.stid = true ∧
    ∃ sd queue fs, s.snd.step c (checkWorkersQuit s.quit) s.queue s.fs d = some (sd, queue, fs) ∧
      s.afterSnd d sd queue fs = s' := by
  unfold Sys.stepSnd
  cases hid : s.stid with
  | false => simp
  | true =>
    simp only [Bool.not_true, Bool.false_eq_true, if_false, Option.bind_eq_bind, Option.bind_eq_some_iff, Prod.exists,
      Option.some.injEq, true_and]
    rw [← hid]
    rfl

theorem frees_toldAs (sd : Snd) (k : Bool) (res : SndRes) : sd.frees (.send (toldAs k res)) = sd.frees (.send res) := by
  unfold Snd.frees
  cases hpc : sd.pc with
  | body => cases res <;> cases k <;> rfl
  | _ => rfl

theorem retold_stepMain (s : Sys) (x y : List Cell) : (s.retold x y).stepMain = s.stepMain.map fun s' => s'.retold x y := by
  unfold Sys.stepMain Sys.retold Snd.retold
  cases s.main with
  | joinReceiver | joinSender =>
    simp only
    split_ifs
    · rfl
    · rfl
  | _ => rfl

theorem retold_stepStarter (s : Sys) (x y : List Cell) :
    (s.retold x y).stepStarter = s.stepStarter.map fun s' => s'.retold x y := by
  unfold Sys.stepStarter Sys.retold
  cases s.starter with
  | _ => rfl

/-- **A step of the process without an upload**, with other notes. -/
theorem retold_sys {s s' : Sys} {b : SysAct} (h : s.step c b = some s') (hb : ∀ res, b ≠ .snd (.send res)) (x y : List Cell) :
    (s.retold x y).step c b = some (s'.retold x y) := by
  cases b with
  | rcv a =>
    have h : s.stepRcv c a = some s' := h
    show (s.retold x y).stepRcv c a = _
    rw [retold_stepRcv, h, Option.map_some]
  | snd d =>
    obtain ⟨hid, sd, queue, fs, hstep, rfl⟩ := stepSnd_iff.1 h
    have hsame := retold_step hstep (fun res hres => hb res (congrArg SysAct.snd hres)) x y
    exact stepSnd_iff.2 ⟨hid, _, _, _, hsame, rfl⟩
  | main =>
    have h : s.stepMain = some s' := h
    show (s.retold x y).stepMain = _
    rw [retold_stepMain, h, Option.map_some]
  | starter =>
    have h : s.stepStarter = some s' := h
    show (s.retold x y).stepStarter = _
    rw [retold_stepStarter, h, Option.map_some]

/-- **An upload of the process**, with the note of what the server has stored. -/
theorem retold_upload {s s' : Sys} {res : SndRes} (h : s.step c (.snd (.send res)) = some s') {k : Bool}
    (hk : res = .errNet → k = false) (x y : List Cell) :
    ∃ y', (s.retold x y).step c (.snd (.send (toldAs k res))) =
      some (s'.retold (x ++ if k then s.snd.payload s.fs else []) y') := by
  obtain ⟨hid, sd, queue, fs, hstep, rfl⟩ := stepSnd_iff.1 h
  obtain ⟨y', hsame⟩ := (sstep_cases hstep).retold_send hk x y
  refine ⟨y', stepSnd_iff.2 ⟨hid, _, _, _, hsame, ?_⟩⟩
  have hfrees : (s.retold x y).snd.frees (.send (toldAs k res)) = s.snd.frees (.send res) := frees_toldAs s.snd k res
  unfold Sys.afterSnd
  rw [hfrees]
  rfl

/-! ## The server -/

/-- The seconds in which the process created its files. -/
def noteServed (s : Served) (b : SysAct × Upload) (s' : Served) (ts : List ℤ) : List ℤ := noteClock s.sys b.1 s'.sys ts

/-- Every file is created in a second of its own, no name list waits at the last push, and curl and the server do
what is assumed of them. -/
def ServedSafe (json : List UInt8 → Option ℤ) (c : Configure) (s : Served × List ℤ) (b : SysAct × Upload) : Prop :=
  FreshSeconds c (s.1.sys, s.2) b.1 ∧ b.2.Sound json

instance (c : Configure) (s : Served × List ℤ) (b : SysAct × Upload) : Decidable (ServedSafe json c s b) :=
  inferInstanceAs (Decidable (_ ∧ _))

/-- Everything a step of the process with the server can do. -/
inductive ServedStep (json : List UInt8 → Option ℤ) (c : Configure) (s : Served) (u : Upload) : SysAct → Served → Prop
  | upload {res : SndRes} {sys : Sys} : s.sys.step c (.snd (.send res)) = some sys → s.sys.snd.result json u = some res →
      ServedStep json c s u (.snd (.send res))
        ⟨sys, s.server ++ if s.sys.snd.stores u then s.sys.snd.payload s.sys.fs else []⟩
  | other {b : SysAct} {sys : Sys} : s.sys.step c b = some sys → (∀ res, b ≠ .snd (.send res)) →
      ServedStep json c s u b ⟨sys, s.server⟩

theorem served_cases {s s' : Served} {b : SysAct} {u : Upload} (h : servedStep json c s (b, u) = some s') :
    ServedStep json c s u b s' := by
  obtain ⟨sys, hstep, h⟩ := Option.bind_eq_some_iff.1 h
  simp only at hstep h
  split at h
  · rename_i res
    split at h
    · rename_i hres
      obtain rfl := Option.some.inj h
      exact .upload hstep hres
    · cases h
  · rename_i hb
    obtain rfl := Option.some.inj h
    exact .other hstep hb

theorem result_of_ne {u : Upload} {res : SndRes} (h : sd.result json u = some res) (hne : res ≠ .errSys) :
    sendLogBuff json u.toTransfer = some res ∧ (sd.pc = .files → 0 ≤ u.flen) := by
  unfold Snd.result at h
  split at h
  · rw [sendLogFile_eq] at h
    split at h
    · exact absurd (Option.some.inj h).symm hne
    · rename_i hlen
      exact ⟨h, fun _ => Int.not_lt.1 hlen⟩
  · rename_i hpc
    exact ⟨h, fun hfiles => absurd hfiles hpc⟩

/-- An upload reported as a success has been stored. -/
theorem stores_of_success {u : Upload} (h : sd.result json u = some .success) (hu : u.Sound json) : sd.stores u = true := by
  obtain ⟨hbuff, hlen⟩ := result_of_ne h (by decide)
  obtain ⟨hinit, hacc⟩ := success_iff.1 hbuff
  unfold Snd.stores
  rw [hu.2 hacc, hinit]
  by_cases hpc : sd.pc = .files
  · simp [hlen hpc]
  · simp [hpc]

/-- An upload that is tried again has not been stored. -/
theorem stores_of_errNet {u : Upload} (h : sd.result json u = some .errNet) (hu : u.Sound json) : sd.stores u = false := by
  obtain ⟨hbuff, -⟩ := result_of_ne h (by decide)
  unfold Snd.stores
  rw [hu.1 (errNet_iff.1 hbuff).2]
  rfl

/-- What the sender notes of an upload. -/
theorem SStep.noted {res : SndRes} (h : SStep c quit sd queue fs (.send res) sd' queue' fs') :
    sd'.sent = sd.sent ++ (if res = .success then sd.payload fs else []) ∧
      sd'.dropped = sd.dropped ++ (if res = .errSys ∨ res = .errSrv then sd.payload fs else []) := by
  cases h with
  | @buff m _ h1 hm ht =>
    simp only [Snd.payload, h1, hm]
    cases res <;> simp [Snd.stepBuff]
  | @file m _ h1 hm hmore =>
    simp only [Snd.payload, h1, hm]
    cases res <;> simp [Snd.stepFile]

/-- What the server has stored, in terms of what the sender knows. -/
structure ServerInv (s : Served) : Prop where
  sent : s.sys.snd.sent.Sublist s.server
  known : ∀ x ∈ s.server, x ∈ s.sys.snd.sent ∨ x ∈ s.sys.snd.dropped

theorem ServerInv.step {s s' : Served} {b : SysAct} {u : Upload} (h : ServerInv s) (hu : u.Sound json)
    (hs : servedStep json c s (b, u) = some s') : ServerInv s' := by
  cases served_cases hs with
  | @upload res sys hstep hres =>
    obtain ⟨-, sd, queue, fs, hsnd, rfl⟩ := stepSnd_iff.1 hstep
    obtain ⟨hsent, hdropped⟩ := (sstep_cases hsnd).noted
    refine ⟨?_, ?_⟩
    · show sd.sent.Sublist _
      rw [hsent]
      by_cases hok : res = .success
      · subst hok
        rw [if_pos rfl, stores_of_success hres hu, if_pos rfl]
        exact h.sent.append (List.Sublist.refl _)
      · rw [if_neg hok, List.append_nil]
        exact h.sent.trans (List.sublist_append_left _ _)
    · intro x hx
      show x ∈ sd.sent ∨ x ∈ sd.dropped
      rw [hsent, hdropped]
      rcases List.mem_append.1 hx with hold | hnew
      · exact (h.known x hold).imp (List.mem_append_left _) (List.mem_append_left _)
      · -- bytes just stored are no longer the sender's
        have hpay : x ∈ s.sys.snd.payload s.sys.fs := by
          split at hnew
          · exact hnew
          · cases hnew
        cases res with
        | errNet =>
          rw [stores_of_errNet hres hu] at hnew
          cases hnew
        | success => exact Or.inl (List.mem_append_right _ hpay)
        | errSys | errSrv => exact Or.inr (List.mem_append_right _ hpay)
  | @other _ sys hstep hb =>
    have hsame := retold_sys hstep hb s.sys.snd.sent s.sys.snd.dropped
    have heq : sys = sys.retold s.sys.snd.sent s.sys.snd.dropped := Option.some.inj (hstep.symm.trans hsame)
    have hsent : sys.snd.sent = s.sys.snd.sent := congrArg (fun t => t.snd.sent) heq
    have hdropped : sys.snd.dropped = s.sys.snd.dropped := congrArg (fun t => t.snd.dropped) heq
    refine ⟨?_, ?_⟩
    · rw [hsent]
      exact h.sent
    · rw [hsent, hdropped]
      exact h.known

/-- The process whose uploads are told as the server knows them. -/
def Retold (s : Served × List ℤ) (t : Sys × List ℤ) : Prop := ∃ y, t = (s.1.sys.retold s.1.server y, s.2)

/-- **One step**, told as the server knows it. -/
theorem Retold.next {s s' : Served × List ℤ} {t : Sys × List ℤ} {b : SysAct × Upload} (h : Retold s t)
    (hc : ServedSafe json c s b) (hs : watch (servedStep json c) noteServed s b = some s') :
    ∃ t', Reach (watch (Sys.step c) noteClock) (FreshSeconds c) t t' ∧ Retold s' t' := by
  obtain ⟨y, rfl⟩ := h
  obtain ⟨s, ts⟩ := s
  obtain ⟨b, u⟩ := b
  obtain ⟨hfresh, hu⟩ := hc
  obtain ⟨s', hstep, rfl⟩ := Option.map_eq_some_iff.1 hs
  cases served_cases hstep with
  | @upload res sys hsys hres =>
    have hk : res = .errNet → s.sys.snd.stores u = false := by
      rintro rfl
      exact stores_of_errNet hres hu
    obtain ⟨y', hsame⟩ := retold_upload hsys hk s.server y
    have hfresh' : FreshSeconds c (s.sys.retold s.server y, ts) (.snd (.send (toldAs (s.sys.snd.stores u) res))) :=
      ⟨fun e he => (by cases he), fun hpush => (by cases hpush)⟩
    refine ⟨_, .single hfresh' ?_, y', rfl⟩
    unfold watch
    rw [hsame]
    rfl
  | @other _ sys hsys hb =>
    have hfresh' : FreshSeconds c (s.sys.retold s.server y, ts) b := hfresh
    refine ⟨_, .single hfresh' ?_, y, rfl⟩
    unfold watch
    rw [retold_sys hsys hb s.server y]
    rfl

/-- **Stored once**: of the bytes received, those that the server has stored are in their order, none of them is
stored twice, all that was reported as sent is stored, and what is stored was reported or given up. -/
structure StoredOnce (s : Served) : Prop where
  order : (tagged s.server).Sublist s.sys.rcv.received
  once : (tagged s.server).Nodup
  sent : s.sys.snd.sent.Sublist s.server
  known : ∀ x ∈ s.server, x ∈ s.sys.snd.sent ∨ x ∈ s.sys.snd.dropped

/-- **The server stores the received bytes in their order, each one at most once**, in every run of the four threads
whose files get names of their own and in which no name list waits at the last push, whatever curl and the server do,
as long as bytes that could not be sent are not stored and bytes reported as stored are. -/
theorem stored_once (json : List UInt8 → Option ℤ) (c : Configure) (fs : Fs Name UInt8) (s : Served × List ℤ)
    (h : Reach (watch (servedStep json c) noteServed) (ServedSafe json c) (Served.init c (fs.map Cell.text), []) s) :
    StoredOnce s.1 := by
  have hsim : ∃ t, Reach (watch (Sys.step c) noteClock) (FreshSeconds c) (Sys.init c (fs.map Cell.text), []) t ∧ Retold s t :=
    h.simulates ⟨[], rfl⟩ fun _ _ _ _ hrel hc hs => hrel.next hc hs
  obtain ⟨_, hreach, y, rfl⟩ := hsim
  obtain ⟨hi, -⟩ := uploads_inv hreach
  have horder : (tagged s.1.server).Sublist s.1.sys.rcv.received := hi.sent.trans hi.stream.delivered
  have hserver : ServerInv s.1 := by
    refine h.inv (I := fun s => ServerInv s.1) ⟨List.Sublist.refl _, fun x hx => (by cases hx)⟩ ?_
    rintro ⟨s, ts⟩ ⟨b, u⟩ _ hs ⟨-, hu⟩ hstep
    obtain ⟨s', hstep', rfl⟩ := Option.map_eq_some_iff.1 hstep
    exact hs.step hu hstep'
  have hpos : s.1.sys.rcv.received = receivedCells 0 (s.1.sys.rcv.received.map Cell.val) := hi.positions
  refine ⟨horder, horder.nodup ?_, hserver.sent, hserver.known⟩
  rw [hpos]
  exact receivedCells_nodup _ _

/-- A chunk of one byte. -/
def byteChunk (b : UInt8) : Chunk := ⟨[b], 1, 1, rfl, by decide +kernel⟩

/-- A parser that knows one text. -/
def demoJson (text : List UInt8) : Option ℤ := if text = [50, 48, 48] then some 200 else none

/-- A transfer of ten bytes without an answer. -/
def silent (rc : CurlCode) (stored : Bool) : Upload := ⟨⟨true, [], rc, 0⟩, 10, stored⟩

/-- The first file cannot be sent, then no answer comes although it is stored; the second one is sent. -/
def servedDemo : List (SysAct × Upload) :=
  ((twoFiles 40 41).take 22).map (fun b => (b, silent .other false)) ++
    [(.snd (.send .errNet), silent .couldntConnect false), (.snd .tau, silent .other false), (.snd .tau, silent .other false),
      (.snd (.send .errSrv), silent .operationTimedout true),
      (.snd (.send .success), ⟨⟨true, [50, 48, 48].map byteChunk, .ok, 200⟩, 10, true⟩)]

/-- The demo runs from an empty disk. -/
def servedStart : Served := .init (demoConf 4097 1) ((Fs.empty _ _).map Cell.text)

theorem servedDemo_runs : (run (guarded (watch (servedStep demoJson (demoConf 4097 1)) noteServed)
    (ServedSafe demoJson (demoConf 4097 1))) (servedStart, []) servedDemo).isSome := by
  decide +kernel

def servedDemoEnd : Served × List ℤ := runTo servedDemo_runs

/-- The server has both files, the sender has given one up. -/
theorem stored_once_demo :
    servedDemoEnd.1.server.map Cell.val = List.replicate 10 1 ++ List.replicate 10 2 ∧
      servedDemoEnd.1.sys.snd.sent.map Cell.val = List.replicate 10 2 ∧ StoredOnce servedDemoEnd.1 :=
  ⟨by decide +kernel, by decide +kernel, stored_once demoJson (demoConf 4097 1) (Fs.empty _ _) servedDemoEnd
    (reach_runTo_guarded servedDemo_runs)⟩

/-- The first file is stored although curl reports that it could not be sent. -/
def storedTwiceDemo : List (SysAct × Upload) :=
  ((twoFiles 40 41).take 22).map (fun b => (b, silent .other false)) ++
    [(.snd (.send .errNet), silent .sendError true), (.snd .tau, silent .other false), (.snd .tau, silent .other false),
      (.snd (.send .errSrv), silent .operationTimedout true)]

/-- **Without the assumption** on bytes that could not be sent, they are stored twice. -/
theorem stored_twice : ∃ s, run (servedStep demoJson (demoConf 4097 1)) servedStart storedTwiceDemo = some s ∧
    ¬ (tagged s.server).Nodup := by
  have hruns : (run (servedStep demoJson (demoConf 4097 1)) servedStart storedTwiceDemo).any
      fun s => decide (¬ (tagged s.server).Nodup) := by
    decide +kernel
  obtain ⟨s, hs, hdup⟩ := (Option.any_eq_true _ _).1 hruns
  exact ⟨s, hs, of_decide_eq_true hdup⟩

end HookKernel
