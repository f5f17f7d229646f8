import HookKernel.Proof.Ownership
import HookKernel.Proof.Lists
import HookKernel.Spec.Dump

/-!
# When the dump is complete

A list is left at the first name whose file is not there, so a file behind it is not
renamed; it is not there either if it has been renamed before. New names that are cut,
equal, or that of the dump file destroy a file. Everything else the dump does in full.

* `DumpInv.step`: what is done and what is left of the names, of the bytes and of the
  messages make the whole, and the directory is what the renames make of it.
* `dump_complete_iff`: for lists of data files, the dump is complete exactly if `DumpOk`.
* `dumpOk_front_iff`: if no name occurs twice, no file may stand behind a missing one.
-/

namespace HookKernel

open Lib

variable {c : Configure} {now : ℤ} {m : Message} {ms queue : List Message} {fs : Disk}

/-! ## The names of a message -/

/-- What is left of a list: it shrinks with every name. -/
def Message.left (m : Message) : ℕ := m.len.toNat + if m.filename = [] then 0 else 1

/-- The points of `message_dump_to_file`. -/
def SPc.inDump : SPc → Bool
  | .dump | .dumpWrite | .dumpDel | .dumpPop | .returned => true
  | _ => false

structure DumpAt (s : DumpState) : Prop where
  pc : s.1.pc.inDump = true
  snd : SndInv s.1
  stream : s.1.pc = .dumpWrite → s.1.fp.isSome

/-- After the call of `rename` for the first name of `m`. -/
def afterRename (c : Configure) (s : DumpState) (m : Message) : DumpState :=
  ((s.1.stepRename c s.2.2 m true).1, s.2.1, (s.1.stepRename c s.2.2 m true).2)

/-- After `fopen`. -/
def afterOpen (c : Configure) (now : ℤ) (s : DumpState) : DumpState :=
  ({ s.1 with pc := .dumpWrite, fp := some (s.2.2.fopen (dumpName c now)).2 }, s.2.1, (s.2.2.fopen (dumpName c now)).1)

/-- After `fwrite`. -/
def afterWrite (s : DumpState) (m : Message) (fp : Stream Cell) : DumpState :=
  ({ s.1 with pc := .dumpDel, fp := some (fp.fwrite m.bytes), dumped := s.1.dumped ++ m.bytes }, s.2.1, s.2.2)

/-- After `k` cells of the stream have reached the file. -/
def afterFlush (s : DumpState) (fp : Stream Cell) (k : ℕ) : DumpState :=
  ({ s.1 with fp := some (fp.flush s.2.2 k).2 }, s.2.1, (fp.flush s.2.2 k).1)

/-- What a step can be when the library calls succeed. -/
inductive DStep (c : Configure) (now : ℤ) (s : DumpState) : SAct → DumpState → Prop
  | rename {m : Message} : s.1.pc = .dump → s.1.msg = some m → m.type = 1 → Snd.more s.2.2 m = true →
      DStep c now s (.rename true) (afterRename c s m)
  | listEnd {m : Message} : s.1.pc = .dump → s.1.msg = some m → m.type = 1 → Snd.more s.2.2 m = false →
      DStep c now s .tau ({ s.1 with pc := .dumpDel }, s.2.1, s.2.2)
  | opened {m : Message} : s.1.pc = .dump → s.1.msg = some m → m.type ≠ 1 → s.1.fp.isSome →
      DStep c now s .tau ({ s.1 with pc := .dumpWrite }, s.2.1, s.2.2)
  | fopen {m : Message} : s.1.pc = .dump → s.1.msg = some m → m.type ≠ 1 → s.1.fp = none →
      DStep c now s (.fopen now true) (afterOpen c now s)
  | fwrite {m : Message} {fp : Stream Cell} : s.1.pc = .dumpWrite → s.1.msg = some m → s.1.fp = some fp →
      DStep c now s (.fwrite none) (afterWrite s m fp)
  | del : s.1.pc = .dumpDel → DStep c now s .tau ({ s.1 with pc := .dumpPop, msg := none }, s.2.1, s.2.2)
  | pop {m : Message} {q : List Message} : s.1.pc = .dumpPop → s.2.1 = m :: q →
      DStep c now s (.pop true) ({ s.1 with pc := .dump, msg := some m }, q, s.2.2)
  | ends : s.1.pc = .dumpPop → s.2.1 = [] →
      DStep c now s (.pop false) ({ s.1 with pc := .returned }, s.2.1, s.2.2)
  | reach {k : ℕ} {fp : Stream Cell} : s.1.fp = some fp →
      DStep c now s (.flush k) (afterFlush s fp k)

/-- **Everything a step of the dump can do.** -/
theorem DumpAt.cases {s s' : DumpState} {a : SAct} (h : DumpAt s) (hok : Succeeds now s a)
    (hs : dumpStep c s a = some s') : DStep c now s a s' := by
  obtain ⟨sd, queue, fs⟩ := s
  obtain ⟨sd', queue', fs'⟩ := s'
  have hpc : sd.pc.inDump = true := h.pc
  cases sstep_cases hs with
  | pop h1 _ | popNone h1 | checkQuit h1 | log h1 | buff h1 _ _ | list h1 _ _ | file h1 _ _ | filesEnd h1 _ _ | check h1 =>
    rw [h1] at hpc
    cases hpc
  | rename h1 h2 h3 h4 =>
    obtain rfl : _ = true := hok
    exact .rename h1 h2 h3 h4
  | renameEnd h1 h2 h3 h4 => exact .listEnd h1 h2 h3 h4
  | opened h1 h2 h3 h4 => exact .opened h1 h2 h3 h4
  | fopen h1 h2 h3 h4 =>
    obtain ⟨rfl, -⟩ : _ = now ∧ _ := hok
    exact .fopen h1 h2 h3 h4
  | fopenFail h1 h2 h3 => exact absurd hok.2 (by decide)
  | fwrite h1 h2 h3 => exact .fwrite h1 h2 h3
  | fwriteFail h1 h2 h3 => cases hok
  | del h1 => exact .del h1
  | dumpPop h1 h2 => exact .pop h1 h2
  | dumpEnd h1 => exact .ends h1 (hok.resolve_left (by decide))
  | reach h1 => exact .reach h1

theorem DumpAt.step {s s' : DumpState} {a : SAct} (h : DumpAt s) (hok : Succeeds now s a)
    (hs : dumpStep c s a = some s') : DumpAt s' := by
  have hsnd : SndInv s'.1 := (sstep_cases hs).inv h.snd
  cases h.cases hok hs with
  | @rename m h1 _ _ _ =>
    have hpc : (afterRename c s m).1.pc = .dump := (stepRename_pc c s.2.2 s.1 m true).1.trans h1
    exact ⟨by rw [hpc]; rfl, hsnd, fun h2 => by rw [hpc] at h2; cases h2⟩
  | listEnd | del | pop | ends => exact ⟨rfl, hsnd, fun hn => by cases hn⟩
  | opened _ _ _ h4 => exact ⟨rfl, hsnd, fun _ => h4⟩
  | fopen => exact ⟨rfl, hsnd, fun _ => rfl⟩
  | fwrite => exact ⟨rfl, hsnd, fun hn => by cases hn⟩
  | reach h1 => exact ⟨h.pc, hsnd, fun _ => rfl⟩

theorem listNames_flatten (ms : List Message) : listNames ms = (ms.map Message.names).flatten := List.flatMap_def

theorem listNames_cons (m : Message) (ms : List Message) : listNames (m :: ms) = m.names ++ listNames ms := rfl

theorem names_data (ht : m.type ≠ 1) : m.names = [] := if_neg ht

theorem mem_listNames_of {n : Name} (hm : m ∈ ms) (hn : n ∈ m.names) : n ∈ listNames ms := List.mem_flatMap.2 ⟨m, hm, hn⟩

theorem names_end (h : m.filename = []) : m.names = [] := by
  unfold Message.names
  split
  · exact visited_nil h _
  · rfl

/-- **One name after the other.** -/
theorem names_forward (ht : m.type = 1) (hin : 0 ≤ m.len ∧ m.len ≤ m.data.length) (hne : m.filename ≠ []) :
    m.names = m.filename :: (messgeFilenameForward m).names := by
  rw [Message.names, if_pos ht, filenames_forward ht hin.1 hin.2 hne, Message.names, if_pos (by rw [forward_type, ht])]

theorem forward_inside (ht : m.type = 1) (hin : 0 ≤ m.len ∧ m.len ≤ m.data.length) (hne : m.filename ≠ []) :
    0 ≤ (messgeFilenameForward m).len ∧ (messgeFilenameForward m).len ≤ (messgeFilenameForward m).data.length := by
  obtain ⟨-, hl, -, hle⟩ := forward_shorter ht hin.1 hne
  refine ⟨hl, ?_⟩
  rw [length_forward hin.2 hne]
  omega

/-- `basename` cuts nothing off. -/
theorem cutName_of_strip (h : stripSlashes m.filename = m.filename) : cutName m = m := if_pos h

theorem dataMessages_list (ht : m.type = 1) (ms : List Message) : dataMessages (m :: ms) = dataMessages ms := by
  rw [dataMessages, List.filter_cons, if_neg (by simp [ht])]
  rfl

theorem dataMessages_data (ht : m.type ≠ 1) (ms : List Message) : dataMessages (m :: ms) = m :: dataMessages ms := by
  rw [dataMessages, List.filter_cons, if_pos (by simp [ht])]
  rfl

/-! ## What is done and what is left -/

/-- The messages whose names the dump still has to go through. -/
def toWalk (s : DumpState) : List Message := (if s.1.pc = .dump then s.1.msg.toList else []) ++ s.2.1

/-- The messages whose bytes are still to be written. -/
def toWrite (s : DumpState) : List Message :=
  (if s.1.pc = .dump ∨ s.1.pc = .dumpWrite then s.1.msg.toList else []) ++ s.2.1

/-- The messages that are still to be released. -/
def toRelease (s : DumpState) : List Message := (if s.1.pc.holds then s.1.msg.toList else []) ++ s.2.1

/-- No file of `seen` is renamed to the name of the dump file. -/
def OutClear (c : Configure) (now : ℤ) (seen : List Name) : Prop := ∀ n ∈ seen, renameTarget c n ≠ dumpName c now

/-- **The files of `seen` have been renamed**, and what is done and what is left make the whole. -/
structure DumpInv (c : Configure) (now : ℤ) (ms : List Message) (fs : Disk) (seen : List Name)
    (s : DumpState × List ℕ) : Prop where
  state : DumpAt s.1
  empty : s.1.1.pc = .returned → s.1.2.1 = []
  inside : ∀ m ∈ toWalk s.1, m.type = 1 → 0 ≤ m.len ∧ m.len ≤ m.data.length
  listed : listNames (toWalk s.1) ⊆ listNames ms
  within : seen ⊆ listNames ms
  moved : Moved (renameTarget c) (dumpName c now) fs s.1.2.2 seen
  ahead : fronts fs.exist seen ((toWalk s.1).map Message.names) = fronts fs.exist [] (ms.map Message.names)
  written : s.1.1.dumped ++ (dataMessages (toWrite s.1)).flatMap Message.bytes =
    (dataMessages ms).flatMap Message.bytes
  released : s.2 ++ (toRelease s.1).map Message.addr = ms.map Message.addr
  closed : s.1.1.fp = none → s.1.1.dumped = [] ∧ dataMessages (toWrite s.1) = dataMessages ms ∧
    (OutClear c now seen → s.1.2.2.dir (dumpName c now) = fs.dir (dumpName c now))
  opened : ∀ fp, s.1.1.fp = some fp → fp.ino < s.1.2.2.next ∧
    settled s.1.2.2 (some fp) fp.ino = fs.node fp.ino ++ s.1.1.dumped ∧ dataMessages ms ≠ [] ∧
    (OutClear c now seen → s.1.2.2.dir (dumpName c now) = some fp.ino)
  others : ∀ i, (∀ fp, s.1.1.fp = some fp → fp.ino ≠ i) → s.1.2.2.node i = fs.node i

theorem toWalk_dump {s : DumpState} (hpc : s.1.pc = .dump) (hm : s.1.msg = some m) : toWalk s = m :: s.2.1 := by
  rw [toWalk, if_pos hpc, hm]
  rfl

theorem toWalk_other {s : DumpState} (hpc : s.1.pc ≠ .dump) : toWalk s = s.2.1 := by
  rw [toWalk, if_neg hpc]
  rfl

theorem toWrite_dump {s : DumpState} (hpc : s.1.pc = .dump ∨ s.1.pc = .dumpWrite) (hm : s.1.msg = some m) :
    toWrite s = m :: s.2.1 := by
  rw [toWrite, if_pos hpc, hm]
  rfl

theorem toRelease_held {s : DumpState} (hpc : s.1.pc.holds = true) (hm : s.1.msg = some m) :
    toRelease s = m :: s.2.1 := by
  rw [toRelease, if_pos hpc, hm]
  rfl

theorem stepRename_node (c : Configure) (fs : Disk) (sd : Snd) (m : Message) (ok : Bool) :
    (sd.stepRename c fs m ok).2.node = fs.node := by
  rw [stepRename_fs]
  split <;> rfl

theorem stepRename_next (c : Configure) (fs : Disk) (sd : Snd) (m : Message) (ok : Bool) :
    (sd.stepRename c fs m ok).2.next = fs.next := by
  rw [stepRename_fs]
  split <;> rfl

section Steps

variable {seen : List Name} {s : DumpState × List ℕ}

/-- The file of the first name is there exactly if it was at the start and has not been renamed. -/
theorem DumpInv.there_iff (h : DumpInv c now ms fs seen s) (hf : DataFiles c now ms fs) {n : Name}
    (hn : n ∈ listNames ms) : (s.1.2.2.dir n).isSome ↔ fs.exist n = true ∧ n ∉ seen := by
  rw [h.moved.dir_listed hf.apart h.within hn]
  unfold Fs.exist
  by_cases hmem : n ∈ seen <;> simp [hmem]

/-- **One round of the loop over the names.** -/
theorem DumpInv.rename (h : DumpInv c now ms fs seen s) (hf : DataFiles c now ms fs) (h1 : s.1.1.pc = .dump)
    (h2 : s.1.1.msg = some m) (h3 : m.type = 1) (h4 : Snd.more s.1.2.2 m = true) (hat : DumpAt (afterRename c s.1 m)) :
    DumpInv c now ms fs (seen ++ [m.filename])
      (afterRename c s.1 m, noteReleased s.1 (.rename true) (afterRename c s.1 m) s.2) := by
  obtain ⟨hpc, hmsg⟩ := stepRename_pc c s.1.2.2 s.1.1 m true
  obtain ⟨hne, hsome⟩ := more_spec h4
  have hwalk := toWalk_dump h1 h2
  have hin := h.inside m (by rw [hwalk]; exact List.mem_cons_self) h3
  have hnames := names_forward h3 hin hne
  have hn : m.filename ∈ listNames ms := by
    refine h.listed ?_
    rw [hwalk, listNames_cons, hnames]
    exact List.mem_append_left _ List.mem_cons_self
  have hcut : cutName m = m := cutName_of_strip (hf.slash _ hn)
  obtain ⟨hthere, hno⟩ := (h.there_iff hf hn).1 hsome
  obtain ⟨i, hi⟩ := Option.isSome_iff_exists.1 hthere
  rw [hcut] at hmsg
  have hpc' : (afterRename c s.1 m).1.pc = .dump := hpc.trans h1
  have hwalk' : toWalk (afterRename c s.1 m) = messgeFilenameForward m :: s.1.2.1 := toWalk_dump hpc' hmsg
  have hfs : (afterRename c s.1 m).2.2 = s.1.2.2.rename m.filename (renameTarget c m.filename) := by
    have hex : s.1.2.2.exist m.filename = true := hsome
    show (s.1.1.stepRename c s.1.2.2 m true).2 = _
    rw [stepRename_fs, hcut, hex]
    rfl
  have ht : (messgeFilenameForward m).type = 1 := by rw [forward_type, h3]
  have hfp : (afterRename c s.1 m).1.fp = s.1.1.fp := stepRename_fp _ _ _
  have hdumped : (afterRename c s.1 m).1.dumped = s.1.1.dumped := stepRename_dumped _ _ _
  have hnode : (afterRename c s.1 m).2.2.node = s.1.2.2.node := stepRename_node _ _ _ _ _
  have hnext : (afterRename c s.1 m).2.2.next = s.1.2.2.next := stepRename_next _ _ _ _ _
  have hmoved := h.moved.rename hf.apart h.within hn hno hi
  -- the message in hand is still a list
  have hwrite : dataMessages (toWrite (afterRename c s.1 m)) = dataMessages (toWrite s.1) := by
    rw [toWrite_dump (Or.inl h1) h2, dataMessages_list h3, toWrite_dump (Or.inl hpc') hmsg, dataMessages_list ht]
    rfl
  -- the name of the dump file is not touched unless the file is renamed to it
  have hout : OutClear c now (seen ++ [m.filename]) →
      OutClear c now seen ∧ (afterRename c s.1 m).2.2.dir (dumpName c now) = s.1.2.2.dir (dumpName c now) := by
    intro hclear
    have hself := hclear m.filename (List.mem_append_right _ (List.mem_singleton_self _))
    refine ⟨fun n hmem => hclear n (List.mem_append_left _ hmem), ?_⟩
    rw [hfs, Fs.rename_dir (h.moved.dir_ne_new hf.apart h.within hn hno hi), if_neg, if_neg hself.symm]
    exact fun he => hf.apart.out (he ▸ hn)
  refine ⟨hat, fun hr => ?_, ?_, ?_, ?_, ?_, ?_, ?_, ?_, fun hnone => ?_, fun fp hsome => ?_, fun i hi => ?_⟩
  · rw [hpc'] at hr
    cases hr
  · intro m' hm' ht'
    rw [hwalk'] at hm'
    rcases List.mem_cons.1 hm' with rfl | hm'
    · exact forward_inside h3 hin hne
    · exact h.inside m' (by rw [hwalk]; exact List.mem_cons_of_mem _ hm') ht'
  · intro n' hn'
    refine h.listed ?_
    rw [hwalk', listNames_cons] at hn'
    rw [hwalk, listNames_cons, hnames]
    exact List.mem_cons_of_mem _ hn'
  · intro n' hn'
    rcases List.mem_append.1 hn' with hn' | hn'
    · exact h.within hn'
    · rw [List.mem_singleton.1 hn']
      exact hn
  · rw [hfs]
    exact hmoved
  · rw [← h.ahead, hwalk, hwalk', List.map_cons, List.map_cons, hnames, fronts_cons hthere hno]
  · rw [hwrite, hdumped]
    exact h.written
  · have hfrees : s.1.1.frees (.rename true) = [] := by simp [Snd.frees, h1]
    have hrelease : toRelease (afterRename c s.1 m) = messgeFilenameForward m :: s.1.2.1 :=
      toRelease_held (by rw [hpc']; rfl) hmsg
    have hreleased := h.released
    rw [toRelease_held (by rw [h1]; rfl) h2] at hreleased
    rw [noteReleased, hfrees, List.append_nil, hrelease, List.map_cons, forward_addr]
    exact hreleased
  · rw [hfp] at hnone
    obtain ⟨k1, k2, k3⟩ := h.closed hnone
    exact ⟨hdumped.trans k1, hwrite.trans k2, fun hclear => (hout hclear).2.trans (k3 (hout hclear).1)⟩
  · rw [hfp] at hsome
    obtain ⟨k1, k2, k3, k4⟩ := h.opened fp hsome
    refine ⟨by rw [hnext]; exact k1, ?_, k3, fun hclear => (hout hclear).2.trans (k4 (hout hclear).1)⟩
    rw [hdumped, ← k2]
    unfold settled
    rw [hnode]
  · rw [hnode]
    exact h.others i fun fp hsome => hi fp (hfp.trans hsome)

/-- **The loop over the names ends**: the first name is empty, or its file is not there. -/
theorem DumpInv.fronts_end (h : DumpInv c now ms fs seen s) (hf : DataFiles c now ms fs) (h1 : s.1.1.pc = .dump)
    (h2 : s.1.1.msg = some m) (h3 : m.type = 1) (h4 : Snd.more s.1.2.2 m = false) :
    fronts fs.exist seen (s.1.2.1.map Message.names) = fronts fs.exist [] (ms.map Message.names) := by
  have hwalk := toWalk_dump h1 h2
  rw [← h.ahead, hwalk, List.map_cons]
  by_cases hne : m.filename = []
  · rw [names_end hne, fronts_nil_cons]
  · have hin := h.inside m (by rw [hwalk]; exact List.mem_cons_self) h3
    have hnames := names_forward h3 hin hne
    have hn : m.filename ∈ listNames ms := by
      refine h.listed ?_
      rw [hwalk, listNames_cons, hnames]
      exact List.mem_append_left _ List.mem_cons_self
    rw [hnames, fronts_stop fun hand => ?_]
    have hsome := (h.there_iff hf hn).2 hand
    have hmore : Snd.more s.1.2.2 m = true := by
      have hex : s.1.2.2.exist m.filename = true := hsome
      simp [Snd.more, hne, hex]
    rw [hmore] at h4
    cases h4

/-- A step that neither renames nor writes: what is left stays the same. -/
theorem DumpInv.move (h : DumpInv c now ms fs seen s) {s' : DumpState} {a : SAct} (hat : DumpAt s')
    (hfs : s'.2.2 = s.1.2.2) (hfp : s'.1.fp = s.1.1.fp) (hdumped : s'.1.dumped = s.1.1.dumped)
    (hempty : s'.1.pc = .returned → s'.2.1 = []) (hsub : toWalk s' ⊆ toWalk s.1)
    (hfronts : fronts fs.exist seen ((toWalk s').map Message.names) = fronts fs.exist [] (ms.map Message.names))
    (hwrite : dataMessages (toWrite s') = dataMessages (toWrite s.1))
    (hrelease : s.1.1.frees a ++ (toRelease s').map Message.addr = (toRelease s.1).map Message.addr) :
    DumpInv c now ms fs seen (s', noteReleased s.1 a s' s.2) where
  state := hat
  empty := hempty
  inside := fun m hm => h.inside m (hsub hm)
  listed := by
    intro n hn
    obtain ⟨m, hm, hmem⟩ := List.mem_flatMap.1 hn
    exact h.listed (mem_listNames_of (hsub hm) hmem)
  within := h.within
  moved := by
    rw [hfs]
    exact h.moved
  ahead := hfronts
  written := by
    rw [hdumped, hwrite]
    exact h.written
  released := by
    have hreleased := h.released
    rw [← hrelease, ← List.append_assoc] at hreleased
    exact hreleased
  closed := fun hnone => by
    obtain ⟨k1, k2, k3⟩ := h.closed (hfp.symm.trans hnone)
    exact ⟨hdumped.trans k1, hwrite.trans k2, by rw [hfs]; exact k3⟩
  opened := fun fp hsome => by
    obtain ⟨k1, k2, k3, k4⟩ := h.opened fp (hfp.symm.trans hsome)
    exact ⟨by rw [hfs]; exact k1, by rw [hfs, hdumped]; exact k2, k3, by rw [hfs]; exact k4⟩
  others := fun i hi => by
    rw [hfs]
    exact h.others i fun fp hsome => hi fp (hfp.trans hsome)

/-- **One message less to write.** -/
theorem DumpInv.fwrite (h : DumpInv c now ms fs seen s) {fp : Stream Cell}
    (h1 : s.1.1.pc = .dumpWrite) (h2 : s.1.1.msg = some m) (h3 : s.1.1.fp = some fp) (hat : DumpAt (afterWrite s.1 m fp)) :
    DumpInv c now ms fs seen (afterWrite s.1 m fp, noteReleased s.1 (.fwrite none) (afterWrite s.1 m fp) s.2) := by
  have hdata : m.type ≠ 1 := h.state.snd.data h1 m h2
  have hwalk : toWalk s.1 = s.1.2.1 := toWalk_other (by rw [h1]; decide)
  have hwalk' : toWalk (afterWrite s.1 m fp) = s.1.2.1 := rfl
  have hwrite : toWrite s.1 = m :: s.1.2.1 := toWrite_dump (Or.inr h1) h2
  have hwrite' : toWrite (afterWrite s.1 m fp) = s.1.2.1 := rfl
  obtain ⟨k1, k2, k3, k4⟩ := h.opened fp h3
  refine ⟨hat, fun hr => (by cases hr), ?_, ?_, h.within, h.moved, ?_, ?_, ?_, fun hnone => (by cases hnone),
    fun fp' hfp' => ?_, fun i hi => ?_⟩
  · rw [hwalk', ← hwalk]
    exact h.inside
  · rw [hwalk', ← hwalk]
    exact h.listed
  · rw [hwalk', ← hwalk]
    exact h.ahead
  · have hwritten := h.written
    rw [hwrite, dataMessages_data hdata, List.flatMap_cons, ← List.append_assoc] at hwritten
    rw [hwrite']
    exact hwritten
  · have hfrees : s.1.1.frees (.fwrite none) = [] := by simp [Snd.frees, h1]
    have hrelease : toRelease (afterWrite s.1 m fp) = m :: s.1.2.1 := toRelease_held rfl h2
    have hreleased := h.released
    rw [toRelease_held (by rw [h1]; rfl) h2] at hreleased
    rw [noteReleased, hfrees, List.append_nil, hrelease]
    exact hreleased
  · obtain rfl := Option.some.inj hfp'
    refine ⟨k1, ?_, k3, k4⟩
    show settled s.1.2.2 (some (fp.fwrite m.bytes)) fp.ino = _
    rw [settled_fwrite, if_pos rfl, k2, List.append_assoc]
    rfl
  · exact h.others i fun fp' hsome => by
      obtain rfl := Option.some.inj (h3.symm.trans hsome)
      exact hi (fp.fwrite m.bytes) rfl

/-- **The dump file is opened** at the first message that is not a list. -/
theorem DumpInv.fopen (h : DumpInv c now ms fs seen s) (hf : DataFiles c now ms fs) (h1 : s.1.1.pc = .dump)
    (h2 : s.1.1.msg = some m) (h3 : m.type ≠ 1) (h4 : s.1.1.fp = none) (hat : DumpAt (afterOpen c now s.1)) :
    DumpInv c now ms fs seen
      (afterOpen c now s.1, noteReleased s.1 (.fopen now true) (afterOpen c now s.1) s.2) := by
  have hwalk : toWalk s.1 = m :: s.1.2.1 := toWalk_dump h1 h2
  have hwalk' : toWalk (afterOpen c now s.1) = s.1.2.1 := rfl
  have hwrite : toWrite s.1 = m :: s.1.2.1 := toWrite_dump (Or.inl h1) h2
  have hwrite' : toWrite (afterOpen c now s.1) = m :: s.1.2.1 := toWrite_dump (Or.inr rfl) h2
  obtain ⟨k1, k2, k3⟩ := h.closed h4
  have hnode : s.1.2.2.node = fs.node := by
    funext i
    exact h.others i fun fp hsome => by
      rw [h4] at hsome
      cases hsome
  refine ⟨hat, fun hr => (by cases hr), ?_, ?_, h.within, h.moved.fopen hf.apart h.within, ?_, ?_, ?_,
    fun hnone => (by cases hnone), fun fp' hfp' => ?_, fun i _ => ?_⟩
  · intro m' hm'
    exact h.inside m' (by rw [hwalk]; exact List.mem_cons_of_mem _ hm')
  · refine List.Subset.trans ?_ h.listed
    rw [hwalk, hwalk', listNames_cons]
    exact List.subset_append_right _ _
  · rw [hwalk', ← h.ahead, hwalk, List.map_cons, names_data h3, fronts_nil_cons]
  · rw [hwrite', ← hwrite]
    exact h.written
  · have hfrees : s.1.1.frees (.fopen now true) = [] := by simp [Snd.frees, h1]
    have hrelease : toRelease (afterOpen c now s.1) = m :: s.1.2.1 := toRelease_held rfl h2
    have hreleased := h.released
    rw [toRelease_held (by rw [h1]; rfl) h2] at hreleased
    rw [noteReleased, hfrees, List.append_nil, hrelease]
    exact hreleased
  · obtain rfl := Option.some.inj hfp'
    refine ⟨Fs.dir_lt _ _ _ (fopen_dir _ _), ?_, ?_, fun _ => fopen_dir _ _⟩
    · show settled (s.1.2.2.fopen (dumpName c now)).1 (some (s.1.2.2.fopen (dumpName c now)).2) _ = _ ++ s.1.1.dumped
      rw [settled_fopen, k1, List.append_nil, settled, hnode, List.append_nil]
    · rw [← k2, hwrite, dataMessages_data h3]
      exact List.cons_ne_nil _ _
  · show (s.1.2.2.fopen (dumpName c now)).1.node i = fs.node i
    rw [fopen_node, hnode]

/-- Cells of the stream reach the dump file. -/
theorem DumpInv.reach (h : DumpInv c now ms fs seen s) {fp : Stream Cell} (h1 : s.1.1.fp = some fp)
    (k : ℕ) (hat : DumpAt (afterFlush s.1 fp k)) :
    DumpInv c now ms fs seen (afterFlush s.1 fp k, noteReleased s.1 (.flush k) (afterFlush s.1 fp k) s.2) := by
  have hfrees : s.1.1.frees (.flush k) = [] := by
    unfold Snd.frees
    split <;> simp_all
  obtain ⟨k1, k2, k3, k4⟩ := h.opened fp h1
  refine ⟨hat, h.empty, h.inside, h.listed, h.within, h.moved.append _ _, h.ahead, h.written, ?_,
    fun hnone => (by cases hnone), fun fp' hfp' => ?_, fun i hi => ?_⟩
  · rw [noteReleased, hfrees, List.append_nil]
    exact h.released
  · obtain rfl := Option.some.inj hfp'
    refine ⟨k1, ?_, k3, k4⟩
    show settled (fp.flush s.1.2.2 k).1 (some (fp.flush s.1.2.2 k).2) fp.ino = _
    rw [settled_flush k1, k2]
    rfl
  · have hne : fp.ino ≠ i := hi (fp.flush s.1.2.2 k).2 rfl
    show (s.1.2.2.append fp.ino (fp.buf.take k)).node i = fs.node i
    rw [← h.others i fun fp' hsome => by obtain rfl := Option.some.inj (h1.symm.trans hsome); exact hne]
    unfold Fs.append
    simp only [if_pos k1]
    exact Function.update_of_ne hne.symm _ _

/-- **A step of the dump.** -/
theorem DumpInv.step (h : DumpInv c now ms fs seen s) (hf : DataFiles c now ms fs) {s' : DumpState} {a : SAct}
    (hok : Succeeds now s.1 a) (hs : dumpStep c s.1 a = some s') :
    ∃ seen', DumpInv c now ms fs seen' (s', noteReleased s.1 a s' s.2) := by
  have hat : DumpAt s' := h.state.step hok hs
  cases h.state.cases hok hs with
  | rename h1 h2 h3 h4 => exact ⟨_, h.rename hf h1 h2 h3 h4 hat⟩
  | fopen h1 h2 h3 h4 => exact ⟨seen, h.fopen hf h1 h2 h3 h4 hat⟩
  | fwrite h1 h2 h3 => exact ⟨seen, h.fwrite h1 h2 h3 hat⟩
  | @listEnd m h1 h2 h3 h4 =>
    refine ⟨seen, h.move hat rfl rfl rfl (fun hr => by cases hr) ?_ (h.fronts_end hf h1 h2 h3 h4) ?_ ?_⟩
    · rw [toWalk_dump h1 h2]
      exact List.subset_cons_self _ _
    · rw [toWrite_dump (Or.inl h1) h2, dataMessages_list h3]
      rfl
    · simp [toRelease, SPc.holds, Snd.frees, h1]
  | @opened m h1 h2 h3 h4 =>
    have hfronts := h.ahead
    rw [toWalk_dump h1 h2, List.map_cons, names_data h3, fronts_nil_cons] at hfronts
    refine ⟨seen, h.move hat rfl rfl rfl (fun hr => by cases hr) ?_ hfronts ?_ ?_⟩
    · rw [toWalk_dump h1 h2]
      exact List.subset_cons_self _ _
    · simp [toWrite, h1]
    · simp [toRelease, SPc.holds, Snd.frees, h1]
  | del h1 =>
    obtain ⟨m, h2⟩ := Option.isSome_iff_exists.1 (h.state.snd.held (by rw [h1]; rfl))
    have hwalk : toWalk s.1 = s.1.2.1 := toWalk_other (by rw [h1]; decide)
    refine ⟨seen, h.move hat rfl rfl rfl (fun hr => by cases hr) ?_ ?_ ?_ ?_⟩
    · rw [hwalk]
      exact List.Subset.refl _
    · rw [← h.ahead, hwalk]
      rfl
    · simp [toWrite, h1]
    · rw [toRelease_held (by rw [h1]; rfl) h2]
      simp [Snd.frees, h1, h2, addrOf, toRelease, SPc.holds]
  | @pop m q h1 h2 =>
    have hwalk : toWalk s.1 = m :: q := by rw [toWalk_other (by rw [h1]; decide), h2]
    refine ⟨seen, h.move hat rfl rfl rfl (fun hr => by cases hr) ?_ ?_ ?_ ?_⟩
    · rw [hwalk]
      exact List.Subset.refl _
    · rw [← h.ahead, hwalk]
      rfl
    · simp [toWrite, h1, h2]
    · simp [Snd.frees, h1, h2, toRelease, SPc.holds]
  | ends h1 h2 =>
    have hwalk : toWalk s.1 = s.1.2.1 := toWalk_other (by rw [h1]; decide)
    refine ⟨seen, h.move hat rfl rfl rfl (fun _ => h2) ?_ ?_ ?_ ?_⟩
    · rw [hwalk]
      exact List.Subset.refl _
    · rw [← h.ahead, hwalk]
      rfl
    · simp [toWrite, h1]
    · simp [Snd.frees, h1, toRelease, SPc.holds]
  | @reach k fp h1 => exact ⟨seen, h.reach h1 k hat⟩

end Steps

/-! ## The end -/

theorem renameTarget_eq {n : Name} (h : (newName c n).length ≤ 510) : renameTarget c n = newName c n :=
  List.take_of_length_le h

section Returned

variable {seen : List Name} {s : DumpState × List ℕ}

/-- All lists have been gone through. -/
theorem DumpInv.seen_eq (h : DumpInv c now ms fs seen s) (hret : s.1.1.pc = .returned) :
    seen = fronts fs.exist [] (ms.map Message.names) := by
  have hahead := h.ahead
  rw [toWalk_other (by rw [hret]; decide), h.empty hret] at hahead
  exact hahead

theorem DumpInv.wrote (h : DumpInv c now ms fs seen s) (hret : s.1.1.pc = .returned) :
    toWrite s.1 = [] ∧ s.1.1.dumped = (dataMessages ms).flatMap Message.bytes := by
  have hwrite : toWrite s.1 = [] := by
    rw [toWrite, if_neg (by rw [hret]; decide), h.empty hret]
    rfl
  have hwritten := h.written
  rw [hwrite] at hwritten
  exact ⟨hwrite, by rw [← hwritten]; exact (List.append_nil _).symm⟩

/-- The dump file was opened exactly if there is something to write. -/
theorem DumpInv.fp_none_iff (h : DumpInv c now ms fs seen s) (hret : s.1.1.pc = .returned) :
    s.1.1.fp = none ↔ dataMessages ms = [] := by
  constructor
  · intro hnone
    rw [← (h.closed hnone).2.1, (h.wrote hret).1]
    rfl
  · intro hnil
    cases hfp : s.1.1.fp with
    | none => rfl
    | some fp => exact absurd hnil (h.opened fp hfp).2.2.1

/-- **If the condition holds, the dump is complete when it has returned.** -/
theorem DumpInv.dumped (h : DumpInv c now ms fs seen s) (hret : s.1.1.pc = .returned)
    (hok : DumpOk c now ms fs) : Dumped c now ms fs s := by
  have hseen : ∀ n ∈ seen, n ∈ listNames ms ∧ fs.exist n = true ∧ renameTarget c n = newName c n := fun n hn =>
    ⟨h.within hn, h.moved.there n hn, renameTarget_eq (hok.fits n (h.within hn) (h.moved.there n hn))⟩
  have hclear : dataMessages ms ≠ [] → OutClear c now seen := by
    intro hdata n hn
    obtain ⟨h1, h2, h3⟩ := hseen n hn
    rw [h3]
    exact hok.apart hdata n h1 h2
  have hfile : ∀ fp, s.1.1.fp = some fp → s.1.2.2.dir (dumpName c now) = some fp.ino ∧
      (fs.dir (dumpName c now) = some fp.ino ∨ fs.dir (dumpName c now) = none ∧ fs.next ≤ fp.ino) := by
    intro fp hfp
    obtain ⟨-, -, hdata, hdir⟩ := h.opened fp hfp
    have hnow := hdir (hclear hdata)
    refine ⟨hnow, ?_⟩
    rcases h.moved.at_out (hclear hdata) with hsame | ⟨hnone, j, hj, hle⟩
    · exact Or.inl (hsame.symm.trans hnow)
    · obtain rfl := Option.some.inj (hj.symm.trans hnow)
      exact Or.inr ⟨hnone, hle⟩
  refine ⟨fun n hn i hi => ?_, fun hdata => ?_, fun n hn hnew hout => ?_, fun i hi hout => ?_, ?_, h.empty hret⟩
  · have hex : fs.exist n = true := by rw [Fs.exist, hi]; rfl
    have hmem : n ∈ seen := by
      rw [h.seen_eq hret]
      exact fronts_all_iff.2 hok.front n (listNames_flatten ms ▸ hn) hex
    refine ⟨?_, h.moved.gone n hmem⟩
    obtain ⟨k, hk, h1, h2⟩ := h.moved.come n hmem
    rw [(hseen k hk).2.2, (hseen n hmem).2.2] at h1
    obtain rfl := hok.distinct k (hseen k hk).1 (hseen k hk).2.1 n hn hex h1
    rw [← (hseen k hk).2.2, h2, hi]
  · obtain ⟨fp, hfp⟩ := Option.ne_none_iff_exists'.1 fun hnone => hdata ((h.fp_none_iff hret).1 hnone)
    obtain ⟨hnow, hwas⟩ := hfile fp hfp
    refine ⟨fp.ino, hnow, hwas, ?_⟩
    rw [hfp, (h.opened fp hfp).2.1, (h.wrote hret).2]
  · have hnew' : ∀ k ∈ seen, renameTarget c k ≠ n := by
      intro k hk
      obtain ⟨h1, h2, h3⟩ := hseen k hk
      rw [h3]
      exact hnew k h1 h2
    by_cases heq : n = dumpName c now
    · have hdata := hout.resolve_right fun hne => hne heq
      rw [heq]
      exact (h.closed ((h.fp_none_iff hret).2 hdata)).2.2 fun k hk => heq ▸ hnew' k hk
    · exact h.moved.kept n (fun hmem => hn (h.within hmem)) hnew' heq
  · have hother : ∀ fp, s.1.1.fp = some fp → fp.ino ≠ i := by
      rintro fp hfp rfl
      have hdata := (h.opened fp hfp).2.2.1
      rcases (hfile fp hfp).2 with hwas | ⟨-, hle⟩
      · exact hout.resolve_left hdata hwas
      · omega
    unfold settled
    rw [h.others i hother]
    cases hfp : s.1.1.fp with
    | none => exact List.append_nil _
    | some fp =>
      simp only [if_neg (hother fp hfp)]
      exact List.append_nil _
  · have hrelease : toRelease s.1 = [] := by
      rw [toRelease, if_neg (by rw [hret]; decide), h.empty hret]
      rfl
    have hreleased := h.released
    rw [hrelease, List.map_nil, List.append_nil] at hreleased
    exact hreleased

end Returned

/-- If no name occurs twice, the lists can be cut exactly if no file stands behind a missing one. -/
theorem dumpOk_front_iff (h : (listNames ms).Nodup) :
    (∃ cuts, FrontCuts fs.exist (ms.map Message.names) cuts) ↔
      ∀ m ∈ ms, m.names.filter fs.exist = m.names.takeWhile fs.exist := by
  rw [listNames_flatten] at h
  rw [frontCuts_iff_of_nodup h]
  simp

/-! ## Examples -/

/-- Lists whose names are apart, in a directory without second names. -/
theorem dataFiles_of_oneName (hone : fs.OneName) (hin : ∀ m ∈ ms, m.type = 1 → 0 ≤ m.len ∧ m.len ≤ m.data.length)
    (hslash : ∀ n ∈ listNames ms, stripSlashes n = n) (hnew : ∀ n ∈ listNames ms, renameTarget c n ∉ listNames ms)
    (hout : dumpName c now ∉ listNames ms) : DataFiles c now ms fs :=
  ⟨hin, hslash, ⟨hnew, hout, fun n _ n' i hn hn' => hone n' n i hn' hn⟩⟩

end HookKernel
