import HookKernel.Proof.Order
import HookKernel.Proof.Sender

/-!
# Releasing a message

The inner loop of `sender_worker` ends when the message is released. Only the branch
for log data releases it: after the last name of a list is forwarded, the loop goes
round without a message to send until the quit flag is set.

* `Processing`: an infinite run of the sender that starts with a message just taken.
* `released_iff`: the message is released in such a run exactly if it holds log data.
* `spins_forever`: a list whose one file is uploaded at once, and never released.
-/

namespace HookKernel

open Lib

variable {c : Configure} {m : Message} {sd sd' : Snd} {queue queue' : List Message} {fs fs' : Disk} {b : SAct}

/-- **The sender at work on a message** while the quit flag is 0: it has just taken `m`, other
threads may change the queue and the files between any two of its steps, and as long as it sends,
it is not the case that the network fails from some moment on. -/
structure Processing (c : Configure) (m : Message) (x : ℕ → Snd) (b : ℕ → SAct) : Prop where
  start : (x 0).pc = .log ∧ (x 0).msg = some m ∧ (x 0).fp = none
  next : ∀ i, ∃ queue fs queue' fs', (x i).step c false queue fs (b i) = some (x (i + 1), queue', fs')
  net : ∀ i, (∃ j ≥ i, ∃ res, b j = .send res) → ∃ j ≥ i, ∃ res, b j = .send res ∧ res ≠ .errNet

/-- The message is released and the sender waits for the next one. -/
def Released (sd : Snd) : Prop := sd.pc = .pop ∧ sd.msg = none

/-! ## Log data -/

/-- At work on log data. -/
structure Sending (m : Message) (sd : Snd) : Prop where
  pc : sd.pc = .log ∨ sd.pc = .body ∨ sd.pc = .check
  msg : sd.msg = some m
  fp : sd.fp = none

/-- **One step on log data**: it is released, unless the network fails. -/
theorem Sending.step (h : Sending m sd) (ht : m.type = 0) (hs : SStep c false sd queue fs b sd' queue' fs') :
    Released sd' ∨ Sending m sd' ∧ (sd.pc = .body → b = .send .errNet) ∧ (sd.pc ≠ .body → sd'.pc = .body) ∧
      ∀ res, b = .send res → res = .errNet := by
  obtain ⟨hpc, hm, hfp⟩ := h
  cases hs with
  | log h1 =>
    refine Or.inr ⟨⟨Or.inr (Or.inl rfl), hm, hfp⟩, fun h2 => ?_, fun _ => rfl, fun res hres => (by cases hres)⟩
    rw [h1] at h2
    cases h2
  | @buff m' res h1 hm' _ =>
    cases res with
    | success | errSys | errSrv => exact Or.inl ⟨rfl, rfl⟩
    | errNet =>
      exact Or.inr ⟨⟨Or.inr (Or.inr rfl), hm, hfp⟩, fun _ => rfl, fun h2 => absurd h1 h2,
        fun res hres => (SAct.send.inj hres).symm⟩
  | list _ hm' ht' =>
    rw [hm] at hm'
    obtain rfl := Option.some.inj hm'
    exact absurd ht ht'
  | check h1 =>
    refine Or.inr ⟨⟨Or.inr (Or.inl rfl), hm, hfp⟩, fun h2 => ?_, fun _ => rfl, fun res hres => (by cases hres)⟩
    rw [h1] at h2
    cases h2
  | reach hfp' =>
    rw [hfp] at hfp'
    cases hfp'
  | pop h1 _ | popNone h1 | checkQuit h1 | file h1 _ _ | filesEnd h1 _ _ | rename h1 _ _ _ | renameEnd h1 _ _ _
  | opened h1 _ _ _ | fopen h1 _ _ _ | fopenFail h1 _ _ | fwrite h1 _ _ | fwriteFail h1 _ _ | del h1 | dumpPop h1 _
  | dumpEnd h1 =>
    rw [h1] at hpc
    rcases hpc with h | h | h <;> cases h

/-! ## Lists -/

/-- At work on a list of names. -/
structure Listing (sd : Snd) : Prop where
  pc : sd.pc = .log ∨ sd.pc = .body ∨ sd.pc = .files ∨ sd.pc = .check
  msg : ∃ m, sd.msg = some m ∧ m.type ≠ 0
  fp : sd.fp = none

/-- **One step on a list** does not release it. -/
theorem Listing.step (h : Listing sd) (hs : SStep c false sd queue fs b sd' queue' fs') : Listing sd' := by
  obtain ⟨hpc, ⟨m, hm, ht⟩, hfp⟩ := h
  cases hs with
  | log _ => exact ⟨Or.inr (Or.inl rfl), ⟨m, hm, ht⟩, hfp⟩
  | buff _ hm' ht' =>
    rw [hm] at hm'
    obtain rfl := Option.some.inj hm'
    exact absurd ht' ht
  | list _ _ _ => exact ⟨Or.inr (Or.inr (Or.inl rfl)), ⟨m, hm, ht⟩, hfp⟩
  | @file m' res h1 hm' _ =>
    rw [hm] at hm'
    obtain rfl := Option.some.inj hm'
    cases res with
    | success | errSys | errSrv =>
      refine ⟨Or.inr (Or.inr (Or.inl h1)), ⟨messgeFilenameForward m, rfl, ?_⟩, hfp⟩
      rw [forward_type]
      exact ht
    | errNet => exact ⟨Or.inr (Or.inr (Or.inr rfl)), ⟨m, hm, ht⟩, hfp⟩
  | filesEnd _ _ _ => exact ⟨Or.inr (Or.inr (Or.inr rfl)), ⟨m, hm, ht⟩, hfp⟩
  | check _ => exact ⟨Or.inr (Or.inl rfl), ⟨m, hm, ht⟩, hfp⟩
  | reach hfp' =>
    rw [hfp] at hfp'
    cases hfp'
  | pop h1 _ | popNone h1 | checkQuit h1 | rename h1 _ _ _ | renameEnd h1 _ _ _ | opened h1 _ _ _ | fopen h1 _ _ _
  | fopenFail h1 _ _ | fwrite h1 _ _ | fwriteFail h1 _ _ | del h1 | dumpPop h1 _ | dumpEnd h1 =>
    rw [h1] at hpc
    rcases hpc with h | h | h | h <;> cases h

/-! ## Runs -/

variable {x : ℕ → Snd} {a : ℕ → SAct}

theorem Processing.step (h : Processing c m x a) (i : ℕ) :
    ∃ queue fs queue' fs', SStep c false (x i) queue fs (a i) (x (i + 1)) queue' fs' := by
  obtain ⟨queue, fs, queue', fs', hs⟩ := h.next i
  exact ⟨queue, fs, queue', fs', sstep_cases hs⟩

/-- A list is never released. -/
theorem Processing.listing (h : Processing c m x a) (ht : m.type ≠ 0) (i : ℕ) : Listing (x i) := by
  induction i with
  | zero => exact ⟨Or.inl h.start.1, ⟨m, h.start.2.1, ht⟩, h.start.2.2⟩
  | succ i ih =>
    obtain ⟨_, _, _, _, hs⟩ := h.step i
    exact ih.step hs

/-- **Log data is released**: otherwise the sender sends again and again, and some send does not
fail for the network. -/
theorem Processing.released (h : Processing c m x a) (ht : m.type = 0) : ∃ i, Released (x i) := by
  have hstep : ∀ i, Sending m (x i) → Sending m (x (i + 1)) ∨ Released (x (i + 1)) := by
    intro i hi
    obtain ⟨_, _, _, _, hs⟩ := h.step i
    rcases hi.step ht hs with hrel | ⟨hsend, -⟩
    · exact Or.inr hrel
    · exact Or.inl hsend
  refine (forever_or (P := fun i => Sending m (x i)) ⟨Or.inl h.start.1, h.start.2.1, h.start.2.2⟩ hstep).resolve_left
    fun hall => ?_
  -- every send fails for the network
  have hnet : ∀ i, ∃ queue fs queue' fs', SStep c false (x i) queue fs (a i) (x (i + 1)) queue' fs' ∧
      ((x i).pc = .body → a i = .send .errNet) ∧ ((x i).pc ≠ .body → (x (i + 1)).pc = .body) ∧
      ∀ res, a i = .send res → res = .errNet := by
    intro i
    obtain ⟨queue, fs, queue', fs', hs⟩ := h.step i
    rcases (hall i).step ht hs with hrel | ⟨-, h1, h2, h3⟩
    · have := (hall (i + 1)).msg
      rw [hrel.2] at this
      cases this
    · exact ⟨queue, fs, queue', fs', hs, h1, h2, h3⟩
  have hsome : ∃ j ≥ 0, ∃ res, a j = .send res := by
    obtain ⟨_, _, _, _, -, -, h2, -⟩ := hnet 0
    obtain ⟨_, _, _, _, -, h1, -, -⟩ := hnet 1
    refine ⟨1, by omega, .errNet, h1 (h2 ?_)⟩
    rw [h.start.1]
    decide
  obtain ⟨j, -, res, hj, hne⟩ := h.net 0 hsome
  obtain ⟨_, _, _, _, -, -, -, h3⟩ := hnet j
  exact hne (h3 res hj)

/-- **A message is released exactly if it holds log data.** For every run of the sender from the
moment it has taken a message, with any changes of the queue and the files by the other threads,
while the quit flag is 0 and the network does not fail forever. -/
theorem released_iff (c : Configure) (m : Message) (x : ℕ → Snd) (a : ℕ → SAct) (h : Processing c m x a) :
    (∃ i, Released (x i)) ↔ m.type = 0 := by
  refine ⟨fun ⟨i, hi⟩ => ?_, h.released⟩
  by_contra ht
  obtain ⟨m', hm', -⟩ := (h.listing ht i).msg
  rw [hi.2] at hm'
  cases hm'

/-! ## Two runs -/

/-- The sender at `pc` with a message. -/
def sndAt (pc : SPc) (m : Option Message) (sent : List Cell) (uploads : List (Name × List Cell)) : Snd :=
  { Snd.init with pc := pc, msg := m, sent := sent, uploads := uploads }

/-- Two bytes of log data. -/
def dataDemo : Message := ⟨0, 0, 2, 2, [⟨1, some 0⟩, ⟨2, some 1⟩]⟩

/-- The data is sent at once; then the sender waits. -/
def dataRun : ℕ → Snd
  | 0 => sndAt .log (some dataDemo) [] []
  | 1 => sndAt .body (some dataDemo) [] []
  | i + 2 => sndAt (if i % 2 = 0 then .pop else .checkQuit) none dataDemo.bytes []

def dataActs : ℕ → SAct
  | 0 => .tau
  | 1 => .send .success
  | i + 2 => if i % 2 = 0 then .pop false else .tau

theorem dataRun_processing (c : Configure) : Processing c dataDemo dataRun dataActs := by
  have hsend : ∀ j res, dataActs j = .send res → j = 1 := by
    intro j res hj
    match j with
    | 0 => cases hj
    | 1 => rfl
    | j + 2 =>
      simp only [dataActs] at hj
      split at hj <;> cases hj
  refine ⟨⟨rfl, rfl, rfl⟩, fun i => ⟨[], Fs.empty _ _, [], Fs.empty _ _, ?_⟩, fun i => ?_⟩
  · match i with
    | 0 | 1 => rfl
    | i + 2 =>
      rcases Nat.mod_two_eq_zero_or_one i with h | h
      · have h' : (i + 1) % 2 = 1 := by omega
        simp only [dataRun, dataActs, h, h']
        rfl
      · have h' : (i + 1) % 2 = 0 := by omega
        simp only [dataRun, dataActs, h, h']
        rfl
  · rintro ⟨j, hj, res, hres⟩
    obtain rfl := hsend j res hres
    exact ⟨1, hj, .success, rfl, by decide⟩

theorem released_iff_demo : Processing (demoConf 4097 1) dataDemo dataRun dataActs ∧ ∃ i, Released (dataRun i) :=
  ⟨dataRun_processing _, (released_iff (demoConf 4097 1) dataDemo dataRun dataActs (dataRun_processing _)).2 rfl⟩

/-- A list with one name. -/
def listDemoMsg : Message := ⟨0, 1, 2, 2, [.text 65, .text 0]⟩

/-- The file named on it exists. -/
def listDemoFs : Disk := ((Fs.empty Name Cell).fopen [65]).1

/-- The file is uploaded at once; then the sender goes round the inner loop. -/
def listRun : ℕ → Snd
  | 0 => sndAt .log (some listDemoMsg) [] []
  | 1 => sndAt .body (some listDemoMsg) [] []
  | 2 => sndAt .files (some listDemoMsg) [] []
  | i + 3 => sndAt (if i % 3 = 0 then .files else if i % 3 = 1 then .check else .body)
      (some (messgeFilenameForward listDemoMsg)) [] [([65], [])]

def listActs (i : ℕ) : SAct := if i = 2 then .send .success else .tau

theorem listRun_processing (c : Configure) : Processing c listDemoMsg listRun listActs := by
  refine ⟨⟨rfl, rfl, rfl⟩, fun i => ⟨[], listDemoFs, [], listDemoFs, ?_⟩, fun i => ?_⟩
  · match i with
    | 0 | 1 | 2 => rfl
    | i + 3 =>
      have hact : listActs (i + 3) = .tau := if_neg (by omega)
      have hmod : i % 3 = 0 ∧ (i + 1) % 3 = 1 ∨ i % 3 = 1 ∧ (i + 1) % 3 = 2 ∨ i % 3 = 2 ∧ (i + 1) % 3 = 0 := by omega
      rcases hmod with ⟨h1, h2⟩ | ⟨h1, h2⟩ | ⟨h1, h2⟩
      · simp only [listRun, hact, h1, h2]
        rfl
      · simp only [listRun, hact, h1, h2]
        rfl
      · simp only [listRun, hact, h1, h2]
        rfl
  · rintro ⟨j, hj, res, hres⟩
    have h2 : j = 2 := by
      by_contra hne
      rw [listActs, if_neg hne] at hres
      cases hres
    exact ⟨2, h2 ▸ hj, .success, rfl, by decide⟩

/-- **A list is never released**: its file is uploaded with the first send, and the sender does not
come back for the next message. -/
theorem spins_forever :
    Processing (demoConf 4097 1) listDemoMsg listRun listActs ∧ listActs 2 = .send .success ∧
      ∀ i, (listRun i).msg ≠ none ∧ (listRun i).pc ≠ .pop := by
  refine ⟨listRun_processing _, rfl, fun i => ?_⟩
  match i with
  | 0 | 1 | 2 => exact ⟨by simp [listRun, sndAt], by simp [listRun, sndAt]⟩
  | i + 3 =>
    refine ⟨by simp [listRun, sndAt], ?_⟩
    simp only [listRun, sndAt]
    split
    · decide
    · split <;> decide

end HookKernel
