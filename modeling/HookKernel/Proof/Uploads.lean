import HookKernel.Proof.CacheCalls
import HookKernel.Proof.Complete

/-!
# Names are used once, and bytes are uploaded once

A data file is named after the second in which it is created, and opened for
appending. As long as every file created gets a name that no earlier one has, each
name stands for one file, the lists name each file once, and the uploads are a
subsequence of what the lists stand for.

* `StreamInv`: the order of delivery, also on the way out.
* `Uploading`: while the sender uploads, what it has sent and what is still on its way
  is part of what was delivered.
* `names_never_reused`: the results for runs whose files all get new names.
* `same_second`: a run in which two files are created in one second.
-/

namespace HookKernel

open Lib

variable {c : Configure} {quit : Bool} {r r' : Rcv} {fs fs' : Disk} {a : RAct}

/-! ## The stream, also on the way out -/

/-- A receiver on its way out: before its last push it still has `msg`. -/
structure Leaving (r : Rcv) : Prop where
  base : RInv r
  out : r.pc.inLoop = false
  order : ∃ old, old.Sublist r.received ∧ (r.pc = .lastPush → r.received = old ++ (r.msg.map Message.bytes).getD []) ∧
    InOrder r.pushed r.waitingNames r.written r.created old

/-- Delivered and waiting, in the order received. -/
def StreamInv (r : Rcv) : Prop := OrderInv r ∨ Leaving r

theorem streamInv_init (c : Configure) : StreamInv (Rcv.init c) :=
  Or.inl ⟨rinv_init c, rfl, fun _ => rfl, [], rfl, List.nil_sublist _, fun _ hn => absurd rfl hn, List.nil_sublist _⟩

theorem StreamInv.base (h : StreamInv r) : RInv r := h.elim OrderInv.base Leaving.base

theorem StreamInv.inOrder (h : StreamInv r) :
    ∃ old, old.Sublist r.received ∧ InOrder r.pushed r.waitingNames r.written r.created old := by
  rcases h with h | h
  · obtain ⟨old, hold, hord⟩ := h.order
    refine ⟨old, ?_, hord⟩
    rw [hold]
    exact List.sublist_append_left _ _
  · obtain ⟨old, hold, -, hord⟩ := h.order
    exact ⟨old, hold, hord⟩

/-- What is delivered is part of what was received. -/
theorem StreamInv.delivered (h : StreamInv r) : r.delivered.Sublist r.received := by
  obtain ⟨old, hold, hord⟩ := h.inOrder
  exact ((List.sublist_append_left _ _).trans hord.stream).trans hold

/-- The quit flag matters at one point only. -/
theorem RStep.quit_cases (h : RStep c quit r fs a r' fs') : RStep c false r fs a r' fs' ∨
    (r.pc = .checkQuit ∧ fs' = fs ∧ (r' = { r with pc := .lastPush } ∨ r' = { r with pc := .returned })) := by
  cases h with
  | selectErr h1 h2 => exact Or.inl (.selectErr h1 h2)
  | select h1 h2 => exact Or.inl (.select h1 h2)
  | goOn h1 _ => exact Or.inl (.goOn h1 rfl)
  | quitPush h1 _ _ _ => exact Or.inr ⟨h1, rfl, Or.inl rfl⟩
  | quitDone h1 _ _ => exact Or.inr ⟨h1, rfl, Or.inr rfl⟩
  | lastPush h1 h2 => exact Or.inl (.lastPush h1 h2)
  | lastLog h1 => exact Or.inl (.lastLog h1)
  | keep h1 h2 => exact Or.inl (.keep h1 h2)
  | alloc h1 h2 h3 => exact Or.inl (.alloc h1 h2 h3)
  | namesPush h1 h2 => exact Or.inl (.namesPush h1 h2)
  | namesFail h1 => exact Or.inl (.namesFail h1)
  | detach h1 => exact Or.inl (.detach h1)
  | recvErr h1 h2 => exact Or.inl (.recvErr h1 h2)
  | recv h1 h2 h3 h4 => exact Or.inl (.recv h1 h2 h3 h4)
  | noRecv h1 => exact Or.inl (.noRecv h1)
  | flush h1 h2 => exact Or.inl (.flush h1 h2)
  | dataPush h1 h2 => exact Or.inl (.dataPush h1 h2)
  | dataFail h1 => exact Or.inl (.dataFail h1)
  | dataLog h1 => exact Or.inl (.dataLog h1)
  | writeOk h1 h2 h3 h4 => exact Or.inl (.writeOk h1 h2 h3 h4)
  | writeFail h1 h2 h3 h4 => exact Or.inl (.writeFail h1 h2 h3 h4)
  | drop h1 h2 => exact Or.inl (.drop h1 h2)
  | reach h1 => exact Or.inl (.reach h1)

/-- **A step on the way out**: the last push follows what was delivered, if no list waits. -/
theorem Leaving.step (h : Leaving r) (hs : RStep c quit r fs a r' fs')
    (hlast : a = .push true → r.pc = .lastPush → r.info.namesMsg = none) : Leaving r' := by
  have hb := hs.inv h.base
  have hout := h.out
  obtain ⟨old, hold, hhand, hord⟩ := h.order
  cases hs with
  | @lastPush m ok hpc hm =>
    cases ok with
    | false =>
      rw [waiting_eq (by rw [hpc]; decide)] at hord
      exact ⟨hb, rfl, old, hold, fun h1 => (by cases h1), hord⟩
    | true =>
      have hnone := hlast rfl hpc
      have hw : r.waitingNames = [] := by
        rw [waiting_eq (by rw [hpc]; decide), hnone]
        rfl
      have ht : m.type = 0 :=
        h.base.flow.typeZero m hm (by rw [hnone]; rfl) (by rw [hpc]; decide) (by rw [hpc]; decide)
      have hrec := hhand hpc
      rw [hm] at hrec
      simp only [Option.map_some, Option.getD_some] at hrec
      rw [hw] at hord
      refine ⟨hb, rfl, r.received, List.Sublist.refl _, fun h1 => (by cases h1), ?_, hord.fresh, ?_⟩
      · simpa [namesOf, Rcv.waitingNames, hnone, ht] using hord.names
      · have h1 := hord.stream.append (List.Sublist.refl m.bytes)
        rw [← hrec] at h1
        simpa [Rcv.waitingNames, hnone, payload, ht] using h1
  | lastLog hpc =>
    refine ⟨hb, rfl, old, hold, fun h1 => (by cases h1), ?_⟩
    rw [waiting_eq (by rw [hpc]; decide)] at hord
    exact hord
  | reach _ => exact ⟨hb, hout, old, hold, hhand, hord⟩
  | selectErr h1 _ | select h1 _ | goOn h1 _ | quitPush h1 _ _ _ | quitDone h1 _ _ | keep h1 _ | alloc h1 _ _
  | namesPush h1 _ | namesFail h1 | detach h1 | recvErr h1 _ | recv h1 _ _ _ | noRecv h1 | flush h1 _ | dataPush h1 _
  | dataFail h1 | dataLog h1 | writeOk h1 _ _ _ | writeFail h1 _ _ _ | drop h1 _ =>
    rw [h1] at hout
    cases hout

/-- **Every step keeps the stream**, if names are not reused and no list waits at the last push. -/
theorem StreamInv.step (h : StreamInv r) (hs : RStep c quit r fs a r' fs') (hnd : r'.created.Nodup)
    (hlast : a = .push true → r.pc = .lastPush → r.info.namesMsg = none) : StreamInv r' := by
  rcases h with h | h
  · rcases hs.quit_cases with hs' | ⟨hpc, -, hr'⟩
    · exact Or.inl (h.step hs' hnd)
    · have hb := hs.inv h.base
      obtain ⟨old, hold, hord⟩ := h.order
      rw [inHand_calm (by rw [hpc]; rfl)] at hold
      have hsub : old.Sublist r.received := by
        rw [hold]
        exact List.sublist_append_left _ _
      rw [waiting_eq (by rw [hpc]; decide)] at hord
      right
      rcases hr' with rfl | rfl
      · exact ⟨hb, rfl, old, hsub, fun _ => hold, hord⟩
      · exact ⟨hb, rfl, old, hsub, fun h1 => (by cases h1), hord⟩
  · exact Or.inr (h.step hs hlast)

/-! ## What a step of the receiver writes -/

/-- Neither files nor names nor what was written under them changes. -/
structure Quiet (r : Rcv) (fs : Disk) (r' : Rcv) (fs' : Disk) : Prop where
  created : r'.created = r.created
  written : r'.written = r.written
  dir : fs'.dir = fs.dir
  settled : ∀ i, settled fs' r'.info.currFp i = settled fs r.info.currFp i
  stream : ∀ fp', r'.info.currFp = some fp' → ∃ fp, r.info.currFp = some fp ∧ fp'.ino = fp.ino ∧ r'.info.fname = r.info.fname

theorem Quiet.same (h1 : r'.created = r.created) (h2 : r'.written = r.written) (h3 : r'.info = r.info) :
    Quiet r fs r' fs := by
  refine ⟨h1, h2, rfl, fun i => by rw [h3], fun fp' hfp' => ⟨fp', ?_, rfl, ?_⟩⟩
  · rw [← h3]
    exact hfp'
  · rw [h3]

theorem Quiet.closed (ho : StreamOK r.info fs) (h1 : r'.created = r.created) (h2 : r'.written = r.written)
    (h3 : r'.info.currFp = none) (h4 : fs' = (closeDatafile r.info fs).2) : Quiet r fs r' fs' := by
  refine ⟨h1, h2, ?_, fun i => ?_, fun fp' hfp' => ?_⟩
  · rw [h4]
    exact (close_dir r.info fs).1
  · rw [h3, h4, (close_settled ho).1]
  · rw [h3] at hfp'
    cases hfp'

/-- **A step of the receiver writes nothing, or it is a write.** -/
theorem RStep.write_cases (h : RStep c quit r fs a r' fs') (ho : StreamOK r.info fs) :
    Quiet r fs r' fs' ∨ ∃ m e w, a = .write e ∧ r.pc = .write ∧ r.msg = some m ∧
      Wrote c.localtime r.info fs m r.fresh e w ∧ fs' = w.fs ∧ r'.info = w.info ∧ r'.pushed = r.pushed ∧
      r'.created = r.created ++ w.opened.toList ∧
      r'.written = Function.update r.written w.info.fname (r.written w.info.fname ++ w.wrote) := by
  cases h with
  | writeOk hpc hm hw _ | writeFail hpc hm hw _ =>
    exact Or.inr ⟨_, _, _, rfl, hpc, hm, hw, rfl, rfl, rfl, rfl, rfl⟩
  | detach _ => exact Or.inl (.closed ho rfl rfl rfl rfl)
  | drop _ hreset =>
    obtain ⟨h1, h2⟩ := reset_files hreset
    exact Or.inl (.closed ho rfl rfl h1 h2)
  | @reach k fp hfp =>
    refine Or.inl ⟨rfl, rfl, rfl, fun i => ?_, fun fp' hfp' => ?_⟩
    · rw [hfp]
      exact settled_flush (ho fp hfp) k
    · obtain rfl := Option.some.inj hfp'
      exact ⟨fp, hfp, rfl, rfl⟩
  | @flush m _ _ =>
    obtain ⟨h1, -, -, -, -, h2, h3, -⟩ := stepFlush_fields r m
    exact Or.inl (.same h2 h3 h1)
  | _ => exact Or.inl (.same rfl rfl rfl)

/-- A write that leaves no file open has put nothing anywhere. -/
theorem Wrote.wrote_nil {m : Message} {e : WriteEnv} {w : WriteRes} (h : Wrote c.localtime r.info fs m r.fresh e w)
    (hclosed : w.info.currFp = none) : w.wrote = [] := by
  cases h with
  | full _ _ | noFile _ _ _ => rfl
  | same _ _ | new _ _ _ _ _ _ =>
    rw [writeCurr_currFp] at hclosed
    cases hclosed

/-- **Nothing is written under a name that was handed over.** -/
theorem RStep.written_old (h : RStep c quit r fs a r' fs') (hd : DInv r.info) (ho : StreamOK r.info fs)
    (hnames : (namesOf r.pushed ++ r.waitingNames).Sublist r.created) (hnd : r'.created.Nodup) :
    ∀ n ∈ namesOf r.pushed, r'.written n = r.written n := by
  intro n hn
  rcases h.write_cases ho with hq | ⟨m, e, w, -, hpc, -, hw, -, hinfo, -, hcreated, hwritten⟩
  · rw [hq.written]
  rw [hwritten]
  rcases eq_or_ne n w.info.fname with heq | hne
  swap
  · exact Function.update_of_ne hne _ _
  -- the file written to waits, or is new
  have hold : r.created.Nodup := h.created_grows.sublist.nodup hnd
  have hdis := List.nodup_append.1 (hnames.nodup hold)
  rcases hw.opened_cases hinfo with ⟨-, ho'⟩ | ⟨n₀, h1, ho'⟩
  · cases hfp : w.info.currFp with
    | none => rw [hw.wrote_nil hfp, List.append_nil, Function.update_eq_self]
    | some fp =>
      exfalso
      obtain ⟨fp₀, h1, -, h2⟩ := ho'.stream fp (by rw [hinfo]; exact hfp)
      have hwait : n ∈ r.waitingNames := by
        obtain ⟨-, ns, hns⟩ := hd.curr (by rw [h1]; rfl)
        rw [waiting_open hd (by rw [hpc]; decide) h1, hns, heq, ← hinfo, h2]
        simp
      exact hdis.2.2 n hn n hwait rfl
  · exfalso
    have hin := hnames.subset (List.mem_append_left _ hn)
    rw [heq, ← hinfo, ho'.fname] at hin
    rw [hcreated, h1, Option.toList_some] at hnd
    exact (List.nodup_append.1 hnd).2.2 n₀ hin n₀ List.mem_cons_self rfl

/-! ## While the sender uploads -/

/-- The points at which the sender has not begun to dump. -/
def SPc.sends : SPc → Bool
  | .pop | .checkQuit | .log | .body | .files | .check => true
  | _ => false

/-- The bytes that were received, in the order they stand. -/
def tagged (l : List Cell) : List Cell := l.filter fun x => x.src.isSome

theorem tagged_append (l l' : List Cell) : tagged (l ++ l') = tagged l ++ tagged l' := List.filter_append ..

theorem tagged_sublist (l : List Cell) : (tagged l).Sublist l := List.filter_sublist

theorem tagged_nil {l : List Cell} (h : ∀ x ∈ l, x.src = none) : tagged l = [] := by
  refine List.filter_eq_nil_iff.2 fun x hx => ?_
  rw [h x hx]
  simp

/-- The messages on their way: with the sender, and in the queue. -/
def Sys.onWay (s : Sys) : List Message := s.snd.msg.toList ++ s.queue

theorem onWay_congr {s s' : Sys} (hmsg : s'.snd.msg = s.snd.msg) (hqueue : s'.queue = s.queue) : s'.onWay = s.onWay := by
  unfold Sys.onWay
  rw [hmsg, hqueue]

theorem onWay_held {s : Sys} {m : Message} (hm : s.snd.msg = some m) : s.onWay = m :: s.queue := by
  unfold Sys.onWay
  rw [hm]
  rfl

theorem onWay_free {s : Sys} (hnone : s.snd.msg = none) : s.onWay = s.queue := by
  unfold Sys.onWay
  rw [hnone]
  rfl

/-- **Each name created is a file of its own** that holds what was written under the name, and
no other file holds received bytes. -/
structure FilesOwn (r : Rcv) (fs : Disk) : Prop where
  curr : ∀ fp, r.info.currFp = some fp → fs.dir r.info.fname = some fp.ino
  files : ∀ n ∈ r.created, ∃ i, fs.dir n = some i ∧ (tagged (settled fs r.info.currFp i)).Sublist (r.written n)
  inj : ∀ n ∈ r.created, ∀ n' ∈ r.created, fs.dir n = fs.dir n' → n = n'
  others : ∀ i, (∀ n ∈ r.created, fs.dir n ≠ some i) → tagged (settled fs r.info.currFp i) = []

/-- **While the sender uploads**, what was sent and what is on its way is part of what was
delivered. -/
structure Uploading (s : Sys) : Prop where
  fp : s.snd.fp = none
  files : FilesOwn s.rcv s.fs
  play : (namesOf s.onWay).Sublist (namesOf s.rcv.pushed)
  sent : (tagged s.snd.sent ++ s.onWay.flatMap (payload s.rcv.written)).Sublist s.rcv.delivered

/-- **Uploads are part of what was delivered.** -/
structure UploadInv (s : Sys) : Prop where
  lists : ListInv (fun _ => False) s
  snd : SndInv s.snd
  stream : StreamInv s.rcv
  positions : s.rcv.received = receivedCells 0 (s.rcv.received.map Cell.val)
  nodup : s.rcv.created.Nodup
  sent : (tagged s.snd.sent).Sublist s.rcv.delivered
  sending : s.snd.pc.sends = true → Uploading s

/-- Every file created gets a name that no earlier one has, and is no other name of an earlier
file; and no name list waits when the last message is pushed. -/
def FreshNames (c : Configure) (s : Sys) (b : SysAct) : Prop :=
  (∀ e ∈ b.writeEnv, ∀ n ∈ s.rcv.opens c e, n ∉ s.rcv.created ∧
      ∀ n' ∈ s.rcv.created, s.fs.dir n' = none ∨ s.fs.dir n' ≠ s.fs.dir n) ∧
    (b = .rcv (.push true) → s.rcv.pc = .lastPush → s.rcv.info.namesMsg = none)

theorem payload_congr {w w' : Name → List Cell} {l : List Message} (h : ∀ n ∈ namesOf l, w' n = w n) :
    l.flatMap (payload w') = l.flatMap (payload w) := by
  have hp : ∀ m ∈ l, payload w' m = payload w m := by
    intro m hm
    unfold payload
    split
    · rfl
    · rename_i ht
      have hn : ∀ n ∈ m.filenames, w' n = w n := by
        intro n hn
        refine h n (List.mem_flatMap.2 ⟨m, hm, ?_⟩)
        rw [if_neg ht]
        exact hn
      rw [List.flatMap_def, List.flatMap_def, List.map_congr_left hn]
  rw [List.flatMap_def, List.flatMap_def, List.map_congr_left hp]

theorem namesOf_append (l l' : List Message) : namesOf (l ++ l') = namesOf l ++ namesOf l' := List.flatMap_append

theorem settled_next (ho : StreamOK r.info fs) : settled fs r.info.currFp fs.next = [] := by
  unfold settled
  rw [fs.unused _ le_rfl, List.nil_append]
  cases hfp : r.info.currFp with
  | none => rfl
  | some fp =>
    have hlt := ho fp hfp
    simp only
    rw [if_neg (by omega)]

theorem FilesOwn.quiet (h : FilesOwn r fs) (hq : Quiet r fs r' fs') : FilesOwn r' fs' := by
  refine ⟨fun fp' hfp' => ?_, ?_, ?_, ?_⟩
  · obtain ⟨fp, h1, h2, h3⟩ := hq.stream fp' hfp'
    rw [hq.dir, h2, h3]
    exact h.curr fp h1
  · rw [hq.created, hq.dir, hq.written]
    intro n hn
    obtain ⟨i, h1, h2⟩ := h.files n hn
    refine ⟨i, h1, ?_⟩
    rw [hq.settled]
    exact h2
  · rw [hq.created, hq.dir]
    exact h.inj
  · rw [hq.created, hq.dir]
    intro i hi
    rw [hq.settled]
    exact h.others i hi

section Write

variable {m : Message} {e : WriteEnv} {w : WriteRes}

/-- **A write into the file that is open** adds to what was written under its name. -/
theorem FilesOwn.same (h : FilesOwn r fs) (hb : RInv r) (ho : StreamOK r.info fs)
    (hw : Wrote c.localtime r.info fs m r.fresh e w) (hinfo : r'.info = w.info) (hno : NotOpened r fs r' w.fs)
    (hcreated : r'.created = r.created)
    (hwritten : r'.written = Function.update r.written w.info.fname (r.written w.info.fname ++ w.wrote)) :
    FilesOwn r' w.fs := by
  have hset := hw.settled ho
  -- the open file is the one named last
  have hcurr : ∀ fp, w.info.currFp = some fp →
      fs.dir w.info.fname = some fp.ino ∧ w.info.fname ∈ r.created := by
    intro fp hfp
    obtain ⟨fp₀, h1, h2, h3⟩ := hno.stream fp (by rw [hinfo]; exact hfp)
    rw [hinfo] at h3
    obtain ⟨-, ns, hns⟩ := hb.data.curr (by rw [h1]; rfl)
    rw [h2, h3]
    refine ⟨h.curr fp₀ h1, hb.created _ ?_⟩
    rw [hns]
    simp
  refine ⟨fun fp hfp => ?_, fun n hn => ?_, ?_, fun i hi => ?_⟩
  · rw [hinfo] at hfp ⊢
    rw [hno.dir]
    exact (hcurr fp hfp).1
  · rw [hcreated] at hn
    obtain ⟨i, h1, h2⟩ := h.files n hn
    refine ⟨i, by rw [hno.dir]; exact h1, ?_⟩
    rw [hinfo, hset, tagged_append, hwritten]
    cases hfp : w.info.currFp with
    | none =>
      rw [hw.wrote_nil hfp, List.append_nil, Function.update_eq_self]
      simpa [tagged] using h2
    | some fp =>
      obtain ⟨h3, h4⟩ := hcurr fp hfp
      by_cases hi : fp.ino = i
      · have heq : n = w.info.fname := h.inj n hn _ h4 (by rw [h1, h3, hi])
        rw [← heq, Function.update_self, Option.map_some, if_pos (by rw [hi])]
        exact h2.append (tagged_sublist _)
      · have hne : n ≠ w.info.fname := by
          intro heq
          rw [heq, h3, Option.some.injEq] at h1
          exact hi h1
        rw [Function.update_of_ne hne, Option.map_some, if_neg (by simpa using hi)]
        simpa [tagged] using h2
  · rw [hcreated, hno.dir]
    exact h.inj
  · rw [hcreated, hno.dir] at hi
    rw [hinfo, hset, tagged_append, h.others i hi, List.nil_append]
    split
    · rename_i hino
      obtain ⟨fp, hfp, rfl⟩ := Option.map_eq_some_iff.1 hino
      obtain ⟨h3, h4⟩ := hcurr fp hfp
      exact absurd h3 (hi _ h4)
    · rfl

/-- **A write into a new file**, which no earlier name denotes. -/
theorem FilesOwn.new (h : FilesOwn r fs) (ho : StreamOK r.info fs) (hw : Wrote c.localtime r.info fs m r.fresh e w)
    (hinfo : r'.info = w.info) {n₀ : Name} (hop : Opened r fs r' w.fs n₀) (hcreated : r'.created = r.created ++ [n₀])
    (hwritten : r'.written = Function.update r.written w.info.fname (r.written w.info.fname ++ w.wrote))
    (hnew : n₀ ∉ r.created) (hother : ∀ n' ∈ r.created, fs.dir n' = none ∨ fs.dir n' ≠ fs.dir n₀) :
    FilesOwn r' w.fs := by
  have hset := hw.settled ho
  obtain ⟨fp, hfp, hdir, hino, hino'⟩ := hop.stream
  have hfn := hop.fname
  rw [hinfo] at hfp hfn
  have hcur : w.info.currFp.map Stream.ino = some fp.ino := by rw [hfp]; rfl
  -- no earlier name denotes the file
  have hfree : ∀ n ∈ r.created, n ≠ n₀ ∧ ∃ i, fs.dir n = some i ∧ i ≠ fp.ino := by
    intro n hn
    have hne : n ≠ n₀ := fun heq => hnew (heq ▸ hn)
    obtain ⟨i, h1, -⟩ := h.files n hn
    refine ⟨hne, i, h1, fun hi => ?_⟩
    cases hd : fs.dir n₀ with
    | none =>
      have hlt := fs.dir_lt n i h1
      rw [hi, hino' hd] at hlt
      exact Nat.lt_irrefl _ hlt
    | some j =>
      rw [hino j hd] at hi
      rcases hother n hn with h2 | h2
      · rw [h1] at h2
        cases h2
      · exact h2 (by rw [h1, hd, hi])
  have hempty : tagged (settled fs r.info.currFp fp.ino) = [] := by
    cases hd : fs.dir n₀ with
    | none =>
      rw [hino' hd, settled_next ho]
      rfl
    | some j =>
      refine h.others _ fun n hn hdn => ?_
      obtain ⟨-, i, h1, h2⟩ := hfree n hn
      rw [h1, Option.some.injEq] at hdn
      exact h2 hdn
  refine ⟨fun fp' hfp' => ?_, fun n hn => ?_, fun n hn n' hn' heq => ?_, fun i hi => ?_⟩
  · rw [hinfo, hfp, Option.some.injEq] at hfp'
    rw [hop.fname, hdir, hfp']
  · rw [hcreated] at hn
    rcases List.mem_append.1 hn with hn | hn
    · obtain ⟨hne, i, h1, h2⟩ := hfree n hn
      obtain ⟨i', h3, h4⟩ := h.files n hn
      obtain rfl : i = i' := Option.some.inj (h1.symm.trans h3)
      refine ⟨i, by rw [hop.others n hne]; exact h1, ?_⟩
      rw [hinfo, hset, hcur, if_neg (by simpa using h2.symm), List.append_nil, hwritten, hfn, Function.update_of_ne hne]
      exact h4
    · rw [List.mem_singleton.1 hn]
      refine ⟨fp.ino, hdir, ?_⟩
      rw [hinfo, hset, hcur, if_pos rfl, tagged_append, hempty, List.nil_append, hwritten, hfn, Function.update_self]
      exact (tagged_sublist _).trans (List.sublist_append_right _ _)
  · rw [hcreated] at hn hn'
    rcases List.mem_append.1 hn with hn | hn <;> rcases List.mem_append.1 hn' with hn' | hn'
    · rw [hop.others n (hfree n hn).1, hop.others n' (hfree n' hn').1] at heq
      exact h.inj n hn n' hn' heq
    · obtain ⟨hne, i, h1, h2⟩ := hfree n hn
      rw [List.mem_singleton.1 hn', hop.others n hne, hdir, h1, Option.some.injEq] at heq
      exact absurd heq h2
    · obtain ⟨hne, i, h1, h2⟩ := hfree n' hn'
      rw [List.mem_singleton.1 hn, hop.others n' hne, hdir, h1, Option.some.injEq] at heq
      exact absurd heq.symm h2
    · rw [List.mem_singleton.1 hn, List.mem_singleton.1 hn']
  · rw [hcreated] at hi
    have hino : fp.ino ≠ i := fun heq => hi n₀ (by simp) (by rw [hdir, heq])
    rw [hinfo, hset, hcur, if_neg (by simpa using hino), List.append_nil]
    refine h.others i fun n hn hdn => hi n (List.mem_append_left _ hn) ?_
    rw [hop.others n (hfree n hn).1]
    exact hdn

end Write

/-! ## Steps -/

theorem FilesOwn.step (h : FilesOwn r fs) (hb : RInv r) (ho : StreamOK r.info fs) (hs : RStep c quit r fs a r' fs')
    (hc : ∀ e, a = .write e → ∀ n, r.opens c e = some n → n ∉ r.created ∧
      ∀ n' ∈ r.created, fs.dir n' = none ∨ fs.dir n' ≠ fs.dir n) : FilesOwn r' fs' := by
  rcases hs.write_cases ho with hq | ⟨m, e, w, rfl, -, hm, hw, rfl, hinfo, -, hcreated, hwritten⟩
  · exact h.quiet hq
  · rcases hw.opened_cases hinfo with ⟨h1, hno⟩ | ⟨n₀, h1, hop⟩
    · rw [h1, Option.toList_none, List.append_nil] at hcreated
      exact h.same hb ho hw hinfo hno hcreated hwritten
    · rw [h1, Option.toList_some] at hcreated
      have hn₀ : r.opens c e = some n₀ := by rw [← hw.opened_eq hb.data hm, h1]
      obtain ⟨h2, h3⟩ := hc e rfl n₀ hn₀
      exact h.new ho hw hinfo hop hcreated hwritten h2 h3

/-- What is delivered grows by what is pushed. -/
theorem delivered_grows {pushed : List Message} (hp : r'.pushed = r.pushed ++ pushed)
    (hold : ∀ n ∈ namesOf r.pushed, r'.written n = r.written n) :
    r'.delivered = r.delivered ++ pushed.flatMap (payload r'.written) := by
  unfold Rcv.delivered
  rw [hp, List.flatMap_append, payload_congr hold]

/-- **A step of the receiver keeps the uploads in order.** -/
theorem Uploading.rcv {s s' : Sys} (h : Uploading s) (hi : UploadInv s) (hs : RStep c quit s.rcv s.fs a s'.rcv s'.fs)
    {pushed : List Message} (hp : s'.rcv.pushed = s.rcv.pushed ++ pushed) (hsnd : s'.snd = s.snd)
    (hqueue : s'.queue = s.queue ++ pushed) (hnd : s'.rcv.created.Nodup) (hc : FreshNames c s (.rcv a)) :
    Uploading s' := by
  have hb := hi.stream.base
  have ho := hi.lists.rcv.stream
  obtain ⟨old, -, hord⟩ := hi.stream.inOrder
  have hold := hs.written_old hb.data ho hord.names hnd
  have hway : s'.onWay = s.onWay ++ pushed := by
    unfold Sys.onWay
    rw [hsnd, hqueue, List.append_assoc]
  refine ⟨by rw [hsnd]; exact h.fp, h.files.step hb ho hs fun e he n hn => ?_, ?_, ?_⟩
  · subst he
    exact hc.1 e rfl n hn
  · rw [hway, hp, namesOf_append, namesOf_append]
    exact h.play.append (List.Sublist.refl _)
  · rw [hsnd, hway, List.flatMap_append, delivered_grows hp hold, ← List.append_assoc,
      payload_congr fun n hn => hold n (h.play.subset hn)]
    exact h.sent.append (List.Sublist.refl _)

/-- The next file that the sender uploads holds what was written under its name. -/
theorem FilesOwn.content (h : FilesOwn r fs) {n : Name} (hn : n ∈ r.created) :
    (tagged (fs.content n)).Sublist (r.written n) := by
  obtain ⟨i, h1, h2⟩ := h.files n hn
  unfold Fs.content
  rw [h1, Option.map_some, Option.getD_some]
  refine List.Sublist.trans ?_ h2
  unfold settled
  rw [tagged_append]
  exact List.sublist_append_left _ _

theorem namesOf_list {m : Message} (ht : m.type ≠ 0) (l : List Message) : namesOf (m :: l) = m.filenames ++ namesOf l := by
  unfold namesOf
  rw [List.flatMap_cons, if_neg ht]

theorem payload_list {m : Message} (ht : m.type ≠ 0) (w : Name → List Cell) : payload w m = m.filenames.flatMap w := by
  unfold payload
  rw [if_neg ht]

/-- A step that moves on, and sends nothing. -/
theorem Uploading.move {s s' : Sys} (h : Uploading s) (hrcv : s'.rcv = s.rcv) (hfp : s'.snd.fp = s.snd.fp)
    (hfs : s'.fs = s.fs) (hway : s'.onWay = s.onWay) (hsent : s'.snd.sent = s.snd.sent) : Uploading s' := by
  refine ⟨?_, ?_, ?_, ?_⟩
  · rw [hfp]
    exact h.fp
  · rw [hrcv, hfs]
    exact h.files
  · rw [hway, hrcv]
    exact h.play
  · rw [hway, hsent, hrcv]
    exact h.sent

/-- **Uploading the next file**, or giving it up. -/
theorem Uploading.file {s s' : Sys} (h : Uploading s) (hi : UploadInv s) {m : Message} {res : SndRes}
    (hpc : s.snd.pc = .files) (hm : s.snd.msg = some m) (hmore : Snd.more s.fs m = true)
    (hsnd : s'.snd = s.snd.stepFile s.fs m res) (hrcv : s'.rcv = s.rcv) (hqueue : s'.queue = s.queue) (hfs : s'.fs = s.fs) :
    Uploading s' := by
  have ht : m.type ≠ 0 := hi.snd.files hpc m hm
  have ht1 : m.type = 1 := (hi.lists.tag m (Or.inr hm)).resolve_left ht
  have hl := (hi.lists.lists m (Or.inr hm) ht1).resolve_left id
  have hne := (more_spec hmore).1
  have hnames := filenames_forward ht1 hl.len_nonneg hl.len_le hne
  have hcontent := h.files.content (hl.head ht1 hne)
  have hway : s.onWay = m :: s.queue := onWay_held hm
  have hplay := h.play
  have hsent := h.sent
  rw [hway, namesOf_list ht, hnames, List.cons_append] at hplay
  rw [hway, List.flatMap_cons, payload_list ht, hnames, List.flatMap_cons] at hsent
  have ht' : (messgeFilenameForward m).type ≠ 0 := by
    rw [forward_type]
    exact ht
  -- with or without its bytes, the first name is done
  have done : ∀ sent : List Cell, (tagged sent).Sublist (tagged s.snd.sent ++ s.rcv.written m.filename) →
      s'.snd.fp = none → s'.snd.msg = some (messgeFilenameForward m) → s'.snd.sent = sent → Uploading s' := by
    intro sent h1 h2 h3 h4
    have hway' : s'.onWay = messgeFilenameForward m :: s.queue := by rw [onWay_held h3, hqueue]
    refine ⟨h2, by rw [hrcv, hfs]; exact h.files, ?_, ?_⟩
    · rw [hway', namesOf_list ht', hrcv]
      exact (List.sublist_cons_self _ _).trans hplay
    · rw [hway', h4, hrcv, List.flatMap_cons, payload_list ht', ← List.append_assoc]
      rw [← List.append_assoc, ← List.append_assoc] at hsent
      exact ((h1.append (List.Sublist.refl _)).append (List.Sublist.refl _)).trans hsent
  cases res with
  | success =>
    refine done (s.snd.sent ++ s.fs.content m.filename) ?_ (by rw [hsnd]; exact h.fp) (by rw [hsnd]; rfl) (by rw [hsnd]; rfl)
    rw [tagged_append]
    exact (List.Sublist.refl _).append hcontent
  | errSys | errSrv =>
    exact done s.snd.sent (List.sublist_append_left _ _) (by rw [hsnd]; exact h.fp) (by rw [hsnd]; rfl) (by rw [hsnd]; rfl)
  | errNet =>
    exact h.move hrcv (by rw [hsnd]; rfl) hfs (onWay_congr (by rw [hsnd]; rfl) hqueue) (by rw [hsnd]; rfl)

/-- **Sending a message**, or giving it up. -/
theorem Uploading.buff {s s' : Sys} (h : Uploading s) {m : Message} {res : SndRes} (hm : s.snd.msg = some m)
    (ht : m.type = 0) (hsnd : s'.snd = s.snd.stepBuff m res) (hrcv : s'.rcv = s.rcv) (hqueue : s'.queue = s.queue)
    (hfs : s'.fs = s.fs) : Uploading s' := by
  have hway : s.onWay = m :: s.queue := onWay_held hm
  have hplay := h.play
  have hsent := h.sent
  rw [hway] at hplay hsent
  have hnil : namesOf (m :: s.queue) = namesOf s.queue := by
    unfold namesOf
    rw [List.flatMap_cons, if_pos ht, List.nil_append]
  have hpay : payload s.rcv.written m = m.bytes := by
    unfold payload
    rw [if_pos ht]
  rw [hnil] at hplay
  rw [List.flatMap_cons, hpay, ← List.append_assoc] at hsent
  have done : ∀ sent : List Cell, (tagged sent).Sublist (tagged s.snd.sent ++ m.bytes) →
      s'.snd.fp = none → s'.snd.msg = none → s'.snd.sent = sent → Uploading s' := by
    intro sent h1 h2 h3 h4
    have hway' : s'.onWay = s.queue := (onWay_free h3).trans hqueue
    refine ⟨h2, by rw [hrcv, hfs]; exact h.files, by rw [hway', hrcv]; exact hplay, ?_⟩
    rw [hway', h4, hrcv]
    exact (h1.append (List.Sublist.refl _)).trans hsent
  cases res with
  | success =>
    refine done (s.snd.sent ++ m.bytes) ?_ (by rw [hsnd]; exact h.fp) (by rw [hsnd]; rfl) (by rw [hsnd]; rfl)
    rw [tagged_append]
    exact (List.Sublist.refl _).append (tagged_sublist _)
  | errSys | errSrv =>
    exact done s.snd.sent (List.sublist_append_left _ _) (by rw [hsnd]; exact h.fp) (by rw [hsnd]; rfl) (by rw [hsnd]; rfl)
  | errNet =>
    exact h.move hrcv (by rw [hsnd]; rfl) hfs (onWay_congr (by rw [hsnd]; rfl) hqueue) (by rw [hsnd]; rfl)

/-- **A step of the sender keeps the uploads in order**, as long as it does not dump. -/
theorem Uploading.snd {s s' : Sys} (h : Uploading s) (hi : UploadInv s) {b : SAct}
    (hs : SStep c quit s.snd s.queue s.fs b s'.snd s'.queue s'.fs) (hrcv : s'.rcv = s.rcv) (hpc : s.snd.pc.sends = true)
    (hpc' : s'.snd.pc.sends = true) : Uploading s' := by
  generalize hsd : s'.snd = sd at hs hpc'
  generalize hq : s'.queue = q at hs
  generalize hfs : s'.fs = fs at hs
  have same : sd.msg = s.snd.msg → q = s.queue → s'.onWay = s.onWay := by
    intro h1 h2
    exact onWay_congr (by rw [hsd, h1]) (by rw [hq, h2])
  cases hs with
  | @pop m q h1 hm =>
    refine h.move hrcv (by rw [hsd]) hfs ?_ (by rw [hsd])
    rw [onWay_free (hi.snd.free (Or.inl h1)), hm, onWay_held (by rw [hsd]), hq]
  | popNone _ | checkQuit _ | log _ | list _ _ _ | filesEnd _ _ _ | check _ =>
    exact h.move hrcv (by rw [hsd]) hfs (same rfl rfl) (by rw [hsd])
  | buff _ hm ht => exact h.buff hm ht hsd hrcv hq hfs
  | file h1 hm hmore => exact h.file hi h1 hm hmore hsd hrcv hq hfs
  | rename h1 _ _ _ | renameEnd h1 _ _ _ | opened h1 _ _ _ | fopen h1 _ _ _ | fopenFail h1 _ _ | fwrite h1 _ _
  | fwriteFail h1 _ _ | del h1 | dumpPop h1 _ | dumpEnd h1 =>
    rw [h1] at hpc
    cases hpc
  | reach hfp =>
    rw [h.fp] at hfp
    cases hfp

theorem stepRename_sent (sd : Snd) (m : Message) (ok : Bool) : (sd.stepRename c fs m ok).1.sent = sd.sent := by
  rw [stepRename_eq]

/-- Once the sender dumps, it does not go back. -/
theorem SStep.dumping {sd sd' : Snd} {queue queue' : List Message} {b : SAct}
    (h : SStep c quit sd queue fs b sd' queue' fs') (hpc : sd.pc.sends = false) : sd'.pc.sends = false := by
  cases h with
  | rename h1 _ _ _ =>
    rw [(stepRename_pc _ _ _ _ _).1, h1]
    rfl
  | reach _ => exact hpc
  | renameEnd _ _ _ _ | opened _ _ _ _ | fopen _ _ _ _ | fopenFail _ _ _ | fwrite _ _ _ | fwriteFail _ _ _ | del _
  | dumpPop _ _ | dumpEnd _ => rfl
  | pop h1 _ | popNone h1 | checkQuit h1 | log h1 | buff h1 _ _ | list h1 _ _ | file h1 _ _ | filesEnd h1 _ _
  | check h1 =>
    rw [h1] at hpc
    cases hpc

/-- A sender that dumps has uploaded nothing in that step. -/
theorem SStep.begins {sd sd' : Snd} {queue queue' : List Message} {b : SAct}
    (h : SStep c quit sd queue fs b sd' queue' fs') (hpc' : sd'.pc.sends = false) : sd'.sent = sd.sent := by
  cases h with
  | @buff m res _ _ _ => cases res <;> cases hpc'
  | @file m res h1 _ _ =>
    cases res with
    | success | errSys | errSrv =>
      simp only [Snd.stepFile, h1] at hpc'
      cases hpc'
    | errNet => rfl
  | rename _ _ _ _ => exact stepRename_sent _ _ _
  | _ => rfl

theorem UploadInv.of_sending {s : Sys} (lists : ListInv (fun _ => False) s) (snd : SndInv s.snd) (stream : StreamInv s.rcv)
    (positions : s.rcv.received = receivedCells 0 (s.rcv.received.map Cell.val)) (nodup : s.rcv.created.Nodup)
    (sent : s.snd.pc.sends = false → (tagged s.snd.sent).Sublist s.rcv.delivered)
    (sending : s.snd.pc.sends = true → Uploading s) : UploadInv s := by
  refine ⟨lists, snd, stream, positions, nodup, ?_, sending⟩
  by_cases hpc : s.snd.pc.sends = true
  · exact (List.sublist_append_left _ _).trans (sending hpc).sent
  · exact sent (by simpa using hpc)

theorem SameWork.uploadInv {s s' : Sys} (h : SameWork s s') (hlists : ListInv (fun _ => False) s') (hi : UploadInv s) :
    UploadInv s' := by
  have hway : s'.onWay = s.onWay := onWay_congr (by rw [h.snd]) h.queue
  refine ⟨hlists, ?_, ?_, ?_, ?_, ?_, fun hpc => ?_⟩
  · rw [h.snd]
    exact hi.snd
  · rw [h.rcv]
    exact hi.stream
  · rw [h.rcv]
    exact hi.positions
  · rw [h.rcv]
    exact hi.nodup
  · rw [h.snd, h.rcv]
    exact hi.sent
  · rw [h.snd] at hpc
    obtain ⟨h1, h2, h3, h4⟩ := hi.sending hpc
    refine ⟨by rw [h.snd]; exact h1, by rw [h.rcv, h.fs]; exact h2, by rw [hway, h.rcv]; exact h3, ?_⟩
    rw [h.snd, hway, h.rcv]
    exact h4

/-! ## Runs -/

/-- Names stay different if every new one is. -/
theorem RStep.nodup (h : RStep c quit r fs a r' fs') (hd : DInv r.info) (hnd : r.created.Nodup)
    (hc : ∀ e, a = .write e → ∀ n, r.opens c e = some n → n ∉ r.created) : r'.created.Nodup := by
  rcases h.opened_cases hd with ⟨h1, -⟩ | ⟨e, n, h1, h2, h3, -⟩
  · rw [h1]
    exact hnd
  · rw [h3]
    refine List.nodup_append.2 ⟨hnd, List.nodup_singleton _, fun n₁ h4 n₂ h5 heq => ?_⟩
    rw [List.mem_singleton] at h5
    rw [heq, h5] at h4
    exact hc e h1 n h2 h4

theorem uploadInv_init (c : Configure) (fs : Fs Name UInt8) : UploadInv (Sys.init c (fs.map Cell.text)) := by
  have hfiles : FilesOwn (Rcv.init c) (fs.map Cell.text) := by
    refine ⟨fun fp hfp => (by cases hfp), fun n hn => (by cases hn), fun n hn => (by cases hn), fun i _ => ?_⟩
    refine tagged_nil fun x hx => ?_
    obtain ⟨b, -, rfl⟩ : ∃ b, b ∈ fs.node i ∧ Cell.text b = x := by simpa [settled, Rcv.init, datafileInit, Fs.map] using hx
    rfl
  exact ⟨listInv_init _ c _, sndInv_init, streamInv_init c, rfl, List.nodup_nil, List.nil_sublist _,
    fun _ => ⟨rfl, hfiles, List.Sublist.refl _, List.Sublist.refl _⟩⟩

/-- **Every step keeps the invariant**, if it creates no file under an old name. -/
theorem UploadInv.step {s s' : Sys} {b : SysAct} (h : UploadInv s) (hc : FreshNames c s b)
    (hs : s.step c b = some s') : UploadInv s' := by
  have hb := h.stream.base
  have hlast : LastExcused (fun _ => False) s b := by
    intro h1 h2 h3
    obtain ⟨m, hm, ht⟩ := Option.map_eq_some_iff.1 h3
    have hnone := hc.2 h1 h2
    have h0 := hb.flow.typeZero m hm (by rw [hnone]; rfl) (by rw [h2]; decide) (by rw [h2]; decide)
    omega
  have hlists := h.lists.step (fun hf _ => hf.elim) hlast hs
  cases sys_cases hs with
  | @rcv a r fs pushed _ hr hp =>
    have hnd : r.created.Nodup := by
      refine hr.nodup hb.data h.nodup fun e he n hn => ?_
      subst he
      exact (hc.1 e rfl n hn).1
    have hpush : a = .push true → s.rcv.pc = .lastPush → s.rcv.info.namesMsg = none := by
      rintro rfl h1
      exact hc.2 rfl h1
    obtain ⟨old, -, hord⟩ := h.stream.inOrder
    have hold := hr.written_old hb.data h.lists.rcv.stream hord.names hnd
    refine ⟨hlists, h.snd, h.stream.step hr hnd hpush, hr.tagged h.positions, hnd, ?_, fun hpc => ?_⟩
    · simp only [delivered_grows hp hold]
      exact h.sent.trans (List.sublist_append_left _ _)
    · exact (h.sending hpc).rcv h hr hp rfl rfl hnd hc
  | @snd b sd queue popped fs _ hsnd hp =>
    refine .of_sending hlists (hsnd.inv h.snd) h.stream h.positions h.nodup (fun hpc' => ?_) fun hpc' => ?_
    · simp only [hsnd.begins hpc']
      exact h.sent
    · by_cases hpc : s.snd.pc.sends = true
      · exact (h.sending hpc).snd h hsnd rfl hpc hpc'
      · have hdump := hsnd.dumping (by simpa using hpc)
        simp only [hdump] at hpc'
        cases hpc'
  | main hm => exact hm.same.uploadInv hlists h
  | starter hm => exact hm.same.uploadInv hlists h

/-! ## Seconds -/

/-- Note the clock reading with which a file was created. -/
def noteClock (s : Sys) (b : SysAct) (s' : Sys) (ts : List ℤ) : List ℤ :=
  if s'.rcv.created = s.rcv.created then ts else ts ++ (b.writeEnv.map WriteEnv.now).toList

/-- Every file is created in a second that gives another stamp than those of all files before
it, under a name that is no other name of such a file; and no name list waits when the last
message is pushed. -/
def FreshSeconds (c : Configure) (s : Sys × List ℤ) (b : SysAct) : Prop :=
  (∀ e ∈ b.writeEnv, ∀ n ∈ s.1.rcv.opens c e,
      (∀ t ∈ s.2, strftime (c.localtime t) ≠ strftime (c.localtime e.now)) ∧
        ∀ n' ∈ s.1.rcv.created, s.1.fs.dir n' = none ∨ s.1.fs.dir n' ≠ s.1.fs.dir n) ∧
    (b = .rcv (.push true) → s.1.rcv.pc = .lastPush → s.1.rcv.info.namesMsg = none)

instance (c : Configure) (s : Sys × List ℤ) (b : SysAct) : Decidable (FreshSeconds c s b) :=
  inferInstanceAs (Decidable ((∀ e ∈ b.writeEnv, ∀ n ∈ s.1.rcv.opens c e,
      (∀ t ∈ s.2, strftime (c.localtime t) ≠ strftime (c.localtime e.now)) ∧
        ∀ n' ∈ s.1.rcv.created, s.1.fs.dir n' = none ∨ s.1.fs.dir n' ≠ s.1.fs.dir n) ∧ (_ → _ → _)))

/-- **Names are used once**: no two files were created under one name, so that a name handed to
the sender was created once; no name occurs twice in the lists, pushed or waiting; and no byte
was uploaded twice. -/
structure NamesUnique (s : Sys) : Prop where
  created : s.rcv.created.Nodup
  generation : ∀ n ∈ namesOf s.rcv.pushed, s.rcv.created.count n = 1
  listed : (namesOf s.rcv.pushed ++ s.rcv.waitingNames).Nodup
  uploaded : (tagged s.snd.sent).Nodup

theorem UploadInv.unique {s : Sys} (h : UploadInv s) : NamesUnique s := by
  obtain ⟨old, -, hord⟩ := h.stream.inOrder
  refine ⟨h.nodup, fun n hn => ?_, hord.names.nodup h.nodup, ?_⟩
  · exact List.count_eq_one_of_mem h.nodup (hord.names.subset (List.mem_append_left _ hn))
  · have hreceived : s.rcv.received.Nodup := by
      rw [h.positions]
      exact receivedCells_nodup _ _
    exact (h.sent.trans h.stream.delivered).nodup hreceived

theorem Wrote.path {m : Message} {e : WriteEnv} {w : WriteRes} (h : Wrote c.localtime r.info fs m r.fresh e w) :
    w.info.path = r.info.path := by
  obtain ⟨hpath, -⟩ := rotate_fields r.info fs m
  cases h with
  | full _ _ => rfl
  | same _ _ => exact writeCurr_path _ _ _ _ _ _
  | noFile _ _ _ => exact hpath
  | new _ _ _ hinfo _ _ =>
    rw [writeCurr_path, hinfo]
    exact hpath

theorem RStep.path (h : RStep c quit r fs a r' fs') (hd : DInv r.info) : r'.info.path = r.info.path := by
  cases h with
  | writeOk _ _ hw _ | writeFail _ _ hw _ => exact hw.path
  | drop _ hreset =>
    rcases reset_cases hd hreset with ⟨-, rfl⟩ | ⟨fp, names, -, -, rfl⟩
    · rfl
    · rfl
  | @flush m _ _ =>
    obtain ⟨h1, -⟩ := stepFlush_fields r m
    rw [h1]
  | _ => rfl

theorem dataName_inj {path : CStr} {stamp stamp' : List UInt8} :
    dataName path stamp = dataName path stamp' ↔ stamp = stamp' := by
  unfold dataName
  exact List.append_right_inj _

/-- The names created are those of the seconds noted. -/
structure ClockInv (c : Configure) (s : Sys × List ℤ) : Prop where
  path : s.1.rcv.info.path = c.path
  created : s.1.rcv.created = s.2.map fun t => dataName c.path (strftime (c.localtime t))

theorem ClockInv.opens {s : Sys × List ℤ} (h : ClockInv c s) {e : WriteEnv} {n : Name} (hn : s.1.rcv.opens c e = some n) :
    n = dataName c.path (strftime (c.localtime e.now)) := by
  unfold Rcv.opens at hn
  obtain ⟨m, -, hm⟩ := Option.bind_eq_some_iff.1 hn
  split at hm
  · rw [← Option.some.inj hm, h.path]
  · cases hm

/-- A new second gives a new name. -/
theorem ClockInv.freshNames {s : Sys × List ℤ} {b : SysAct} (h : ClockInv c s) (hc : FreshSeconds c s b) :
    FreshNames c s.1 b := by
  refine ⟨fun e he n hn => ⟨fun hin => ?_, (hc.1 e he n hn).2⟩, hc.2⟩
  rw [h.created] at hin
  obtain ⟨t, ht, heq⟩ := List.mem_map.1 hin
  rw [h.opens hn, dataName_inj] at heq
  exact (hc.1 e he n hn).1 t ht heq

theorem ClockInv.step {s : Sys × List ℤ} {s' : Sys} {b : SysAct} (h : ClockInv c s) (hd : DInv s.1.rcv.info)
    (hs : s.1.step c b = some s') : ClockInv c (s', noteClock s.1 b s' s.2) := by
  have quiet : s'.rcv = s.1.rcv → ClockInv c (s', noteClock s.1 b s' s.2) := by
    intro hr
    unfold noteClock
    rw [if_pos (by rw [hr])]
    exact ⟨by rw [hr]; exact h.path, by rw [hr]; exact h.created⟩
  cases sys_cases hs with
  | @rcv a r fs pushed _ hr _ =>
    refine ⟨(hr.path hd).trans h.path, ?_⟩
    unfold noteClock
    rcases hr.opened_cases hd with ⟨h1, -⟩ | ⟨e, n, rfl, hn, h1, -⟩
    · simp only [h1, if_true]
      exact h.created
    · simp only [h1]
      rw [if_neg (by simp), List.map_append, ← h.created, h.opens hn]
      rfl
  | snd _ _ _ => exact quiet rfl
  | main hm => exact quiet hm.same.rcv
  | starter hm => exact quiet hm.same.rcv

theorem uploads_inv {fs : Fs Name UInt8} {s : Sys × List ℤ}
    (h : Reach (watch (Sys.step c) noteClock) (FreshSeconds c) (Sys.init c (fs.map Cell.text), []) s) :
    UploadInv s.1 ∧ ClockInv c s := by
  refine h.inv (I := fun s => UploadInv s.1 ∧ ClockInv c s) ⟨uploadInv_init c fs, rfl, rfl⟩ ?_
  rintro s b _ ⟨hi, hk⟩ hc hs
  obtain ⟨s', hstep, rfl⟩ := Option.map_eq_some_iff.1 hs
  exact ⟨hi.step (hk.freshNames hc) hstep, hk.step hi.stream.base.data hstep⟩

/-- **A name is created again** when the second is one of those noted. -/
theorem ClockInv.reused {s : Sys × List ℤ} {s' : Sys} {b : SysAct} (h : ClockInv c s) (hd : DInv s.1.rcv.info)
    (hs : s.1.step c b = some s') {e : WriteEnv} (he : e ∈ b.writeEnv) {n : Name} (hn : s.1.rcv.opens c e = some n)
    {t : ℤ} (ht : t ∈ s.2) (heq : strftime (c.localtime t) = strftime (c.localtime e.now)) :
    ¬ s'.rcv.created.Nodup := by
  have hin : n ∈ s.1.rcv.created := by
    rw [h.created, h.opens hn]
    exact List.mem_map.2 ⟨t, ht, by rw [heq]⟩
  have hcreated : s'.rcv.created = s.1.rcv.created ++ [n] := by
    cases sys_cases hs with
    | snd _ _ _ | main _ | starter _ => cases he
    | @rcv a r fs pushed _ hr _ =>
      have ha : a = .write e := by
        cases a with
        | write e' => rw [Option.some.inj he]
        | _ => cases he
      subst ha
      cases hr with
      | writeOk _ hm hw _ | writeFail _ hm hw _ => simp only [hw.opened_eq hd hm, hn, Option.toList_some]
  rw [hcreated]
  intro hnd
  exact (List.nodup_append.1 hnd).2.2 n hin n List.mem_cons_self rfl

/-- **Names are never reused** in runs in which every file is created in a second of its own and
no name list waits at the last push: no two files are created under one name, the lists name
each file once, and no byte is uploaded twice. A file created in the second of an earlier one
gets its name. -/
theorem names_never_reused (c : Configure) (fs : Fs Name UInt8) :
    (∀ s, Reach (watch (Sys.step c) noteClock) (FreshSeconds c) (Sys.init c (fs.map Cell.text), []) s →
        NamesUnique s.1) ∧
      ∀ s b s', Reach (watch (Sys.step c) noteClock) (FreshSeconds c) (Sys.init c (fs.map Cell.text), []) s →
        s.1.step c b = some s' →
        (∃ e ∈ b.writeEnv, (s.1.rcv.opens c e).isSome ∧ ∃ t ∈ s.2, strftime (c.localtime t) = strftime (c.localtime e.now)) →
        ¬ NamesUnique s' := by
  refine ⟨fun s h => (uploads_inv h).1.unique, ?_⟩
  rintro s b s' h hs ⟨e, he, hopens, t, ht, heq⟩ hunique
  obtain ⟨n, hn⟩ := Option.isSome_iff_exists.1 hopens
  obtain ⟨hi, hk⟩ := uploads_inv h
  exact hk.reused hi.stream.base.data hs he hn ht heq hunique.created

/-- Two messages that do not fit into one file, written at the times `t` and `t'`; then the list
of the files is pushed and the sender uploads them. -/
def twoFiles (t t' : ℤ) : List SysAct :=
  boot ++ (turn [] (List.replicate 10 1) [.push false, .write ⟨t, true, none⟩] ++
    turn [.push false] (List.replicate 10 2) [.write ⟨t', true, none⟩]).map SysAct.rcv ++
    [SysAct.rcv (.select 1), .rcv .tau, .rcv (.push true), .rcv .tau, .snd (.pop true), .snd .tau, .snd .tau,
      .snd (.send .success), .snd (.send .success)]

theorem twoFiles_runs : (run (guarded (watch (Sys.step (demoConf 4097 1)) noteClock) (FreshSeconds (demoConf 4097 1)))
    (Sys.init (demoConf 4097 1) ((Fs.empty _ _).map Cell.text), []) (twoFiles 40 41)).isSome := by
  decide +kernel

/-- The end of this run. -/
def twoFilesEnd : Sys × List ℤ := runTo twoFiles_runs

theorem names_never_reused_demo : twoFilesEnd.2 = [40, 41] ∧
    twoFilesEnd.1.snd.sent.map Cell.val = List.replicate 10 1 ++ List.replicate 10 2 ∧ NamesUnique twoFilesEnd.1 :=
  ⟨by decide +kernel, by decide +kernel, (names_never_reused (demoConf 4097 1) (Fs.empty _ _)).1 twoFilesEnd
    (reach_runTo_guarded twoFiles_runs)⟩

theorem sameSecond_runs : (run (Sys.step (demoConf 4097 1)) (Sys.init (demoConf 4097 1) ((Fs.empty _ _).map Cell.text))
    (twoFiles 40 40)).isSome := by
  decide +kernel

/-- The run in which both files are created in one second. -/
def sameSecondEnd : Sys := runTo sameSecond_runs

/-- **Two files in one second**: the clock does not go back, the list names one file twice, and
all its bytes are uploaded twice. -/
theorem same_second :
    ∃ bs s, run (Sys.step (demoConf 4097 1)) (Sys.init (demoConf 4097 1) ((Fs.empty _ _).map Cell.text)) bs = some s ∧
      ((bs.filterMap SysAct.writeEnv).map WriteEnv.now).Pairwise (· ≤ ·) ∧
      s.rcv.created = List.replicate 2 (dataName (demoConf 4097 1).path (strftime ((demoConf 4097 1).localtime 40))) ∧
      namesOf s.rcv.pushed = s.rcv.created ∧
      s.snd.sent = s.rcv.received ++ s.rcv.received ∧ ¬ NamesUnique s := by
  refine ⟨twoFiles 40 40, sameSecondEnd, (run_runTo sameSecond_runs), by decide +kernel, by decide +kernel,
    by decide +kernel, by decide +kernel, fun h => ?_⟩
  have hnd : ¬ sameSecondEnd.rcv.created.Nodup := by decide +kernel
  exact hnd h.created

end HookKernel
