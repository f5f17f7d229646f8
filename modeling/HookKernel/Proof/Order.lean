import Mathlib.Data.List.Nodup
import HookKernel.Proof.Receiver

/-!
# Delivery order

The bytes that the receiver puts on the queue, directly or in files named by a
list, are a subsequence of the bytes it received (`delivery_in_order`), as long as
no two data files get the same name and nobody asks the workers to quit.

* `OrderInv`: what has been delivered, what waits in listed files and what is in
  `msg` follow one another in the received stream.
* `OrderInv.write`: a write moves `msg` to the end of what waits in files.
-/

namespace HookKernel

open Lib

variable {c : Configure} {r r' : Rcv} {fs fs' : Disk} {a : RAct}

/-- What the sender gets from a message: its bytes, or what was written to the files
it names. -/
def payload (written : Name → List Cell) (m : Message) : List Cell :=
  if m.type = 0 then m.bytes else m.filenames.flatMap written

/-- The stream that the messages pushed so far stand for. -/
def Rcv.delivered (r : Rcv) : List Cell := r.pushed.flatMap (payload r.written)

/-- The files named by the messages. -/
def namesOf (pushed : List Message) : List Name :=
  pushed.flatMap fun m => if m.type = 0 then [] else m.filenames

/-- The files that the next name list will name. -/
def Rcv.waitingNames (r : Rcv) : List Name :=
  if r.pc = .detach then [] else (r.info.namesMsg.map Message.filenames).getD []

/-- The bytes in `msg` that are neither pushed nor dropped. -/
def Rcv.inHand (r : Rcv) : List Cell :=
  if r.pc = .dataLog ∨ r.pc = .drop then [] else (r.msg.map Message.bytes).getD []

/-- The pushed messages and then the files `waiting` stand for a subsequence of `old`,
and name files in the order of their creation. -/
structure InOrder (pushed : List Message) (waiting : List Name) (written : Name → List Cell)
    (created : List Name) (old : List Cell) : Prop where
  names : (namesOf pushed ++ waiting).Sublist created
  fresh : ∀ n, written n ≠ [] → n ∈ created
  stream : (pushed.flatMap (payload written) ++ waiting.flatMap written).Sublist old

/-- Not on the way out. -/
def RPc.inLoop : RPc → Bool
  | .lastPush | .lastLog | .returned => false
  | _ => true

/-- **Delivered, waiting and in hand, in the order received.** -/
structure OrderInv (r : Rcv) : Prop where
  base : RInv r
  loop : r.pc.inLoop = true
  handed : r.info.namesMsg = none ∨ r.pc = .detach → r.handed = r.stored.length
  order : ∃ old, r.received = old ++ r.inHand ∧ InOrder r.pushed r.waitingNames r.written r.created old

/-! ## Writing under a name -/

theorem flatMap_update {written : Name → List Cell} {n : Name} {bs : List Cell} {ns : List Name} (h : n ∉ ns) :
    ns.flatMap (Function.update written n bs) = ns.flatMap written := by
  have hw : ∀ x ∈ ns, Function.update written n bs x = written x := by
    intro x hx
    exact Function.update_of_ne (by rintro rfl; exact h hx) _ _
  rw [List.flatMap_def, List.flatMap_def, List.map_congr_left hw]

/-- Writing to a file that no pushed message names delivers nothing. -/
theorem delivered_update {pushed : List Message} {written : Name → List Cell} {n : Name} {bs : List Cell}
    (h : n ∉ namesOf pushed) : pushed.flatMap (payload (Function.update written n bs)) = pushed.flatMap (payload written) := by
  have hp : ∀ m ∈ pushed, payload (Function.update written n bs) m = payload written m := by
    intro m hm
    unfold payload
    split
    · rfl
    · rename_i ht
      refine flatMap_update fun hn => h (List.mem_flatMap.2 ⟨m, hm, ?_⟩)
      rw [if_neg ht]
      exact hn
  rw [List.flatMap_def, List.flatMap_def, List.map_congr_left hp]

/-! ## The names that wait -/

theorem waiting_eq (hpc : r.pc ≠ .detach) : r.waitingNames = (r.info.namesMsg.map Message.filenames).getD [] := by
  unfold Rcv.waitingNames
  rw [if_neg hpc]

/-- The listed names are visited. -/
theorem listed_sublist (hi : DInv r.info) (hpc : r.pc ≠ .detach) : r.info.listed.Sublist r.waitingNames := by
  rw [waiting_eq hpc]
  cases hn : r.info.namesMsg with
  | none =>
    rw [listed_of_none hn]
    exact List.nil_sublist _
  | some names =>
    have hl := hi.lists hn
    by_cases hne : r.info.listed = []
    · rw [hne]
      exact List.nil_sublist _
    · rw [Option.map_some, Option.getD_some, hl.filenames hne]

/-- With an open file, exactly the listed names wait. -/
theorem waiting_open (hi : DInv r.info) (hpc : r.pc ≠ .detach) {fp : Stream Cell} (hfp : r.info.currFp = some fp) :
    r.waitingNames = r.info.listed := by
  obtain ⟨hsome, ns, hns⟩ := hi.curr (by rw [hfp]; rfl)
  obtain ⟨names, hn⟩ := Option.isSome_iff_exists.1 hsome
  rw [waiting_eq hpc, hn, Option.map_some, Option.getD_some]
  exact (hi.lists hn).filenames (by rw [hns]; simp)

/-- **Taking the current file off the list** leaves some of the names waiting: the
stale name of an emptied list is the one that was taken off. -/
theorem waiting_reset {info' : DatafileInfo} (hi : DInv r.info) (hpc : r.pc ≠ .detach)
    (h : datafileResetCurrfile r.info fs = some (info', fs')) :
    ((info'.namesMsg.map Message.filenames).getD []).Sublist r.waitingNames := by
  unfold datafileResetCurrfile at h
  split at h
  · obtain ⟨rfl, rfl⟩ := Prod.mk.inj (Option.some.inj h)
    rw [waiting_eq hpc]
  · rename_i fp hfp
    split at h
    · cases h
    · rename_i names hnames
      obtain ⟨-, ns, hns⟩ := hi.curr (by rw [hfp]; rfl)
      have hl := hi.lists hnames
      rw [hns] at hl
      have hdrop := hl.dropLast
      obtain ⟨rfl, rfl⟩ := Prod.mk.inj (Option.some.inj h)
      rw [waiting_open hi hpc hfp, hns]
      simp only [Option.map_some, Option.getD_some]
      by_cases hne : ns = []
      · subst hne
        rw [hdrop.filenames_empty]
        have hf : Message.filename { names with len := names.len - (r.info.fname.length + 1) } = r.info.fname :=
          hl.filename
        rw [hf]
        split
        · exact List.nil_sublist _
        · exact List.Sublist.refl _
      · rw [hdrop.filenames hne]
        exact List.sublist_append_left _ _

/-! ## Steps -/

/-- **Writing to the last file that waits** puts the bytes at the end of the stream. -/
theorem InOrder.write {pushed : List Message} {written : Name → List Cell} {ns created : List Name} {n : Name}
    {old : List Cell} (bs : List Cell) (h : InOrder pushed (ns ++ [n]) written created old) (hnd : created.Nodup) :
    InOrder pushed (ns ++ [n]) (Function.update written n (written n ++ bs)) created (old ++ bs) := by
  have hout : n ∉ namesOf pushed ++ ns := by
    have h4 := h.names.nodup hnd
    rw [← List.append_assoc] at h4
    exact fun hmem => (List.nodup_append.1 h4).2.2 _ hmem _ List.mem_cons_self rfl
  have h1 : n ∉ namesOf pushed := fun hm => hout (List.mem_append_left _ hm)
  have h2 : n ∉ ns := fun hm => hout (List.mem_append_right _ hm)
  refine ⟨h.names, ?_, ?_⟩
  · intro x hx
    by_cases hxn : x = n
    · rw [hxn]
      exact h.names.subset (by simp)
    · rw [Function.update_of_ne hxn] at hx
      exact h.fresh x hx
  · rw [delivered_update h1, List.flatMap_append, flatMap_update h2, List.flatMap_singleton,
      Function.update_self]
    have h3 := h.stream
    rw [List.flatMap_append, List.flatMap_singleton] at h3
    have h4 := h3.append (List.Sublist.refl bs)
    simpa only [List.append_assoc] using h4

/-- A new file, with nothing written to it, behind some of those that wait. -/
theorem InOrder.open {pushed : List Message} {written : Name → List Cell} {waiting ns created : List Name}
    {n : Name} {old : List Cell} (h : InOrder pushed waiting written created old) (hns : ns.Sublist waiting)
    (hn : n ∉ created) : InOrder pushed (ns ++ [n]) written (created ++ [n]) old := by
  have hempty : written n = [] := by
    by_contra hne
    exact hn (h.fresh n hne)
  refine ⟨?_, fun x hx => List.mem_append_left _ (h.fresh x hx), ?_⟩
  · rw [← List.append_assoc]
    exact (((List.Sublist.refl _).append hns).trans h.names).append (List.Sublist.refl _)
  · rw [List.flatMap_append, List.flatMap_singleton, hempty, List.append_nil]
    exact ((List.Sublist.refl _).append (hns.flatMap _)).trans h.stream

/-- **A write appends `msg`, or a part of it, to what waits in the listed files.** -/
theorem OrderInv.write {m : Message} {e : WriteEnv} {w : WriteRes} {old : List Cell} (hd : DInv r.info)
    (hpc : r.pc ≠ .detach) (h : InOrder r.pushed r.waitingNames r.written r.created old)
    (hw : Wrote c.localtime r.info fs m r.fresh e w) (hnd : (r.created ++ w.opened.toList).Nodup) :
    InOrder r.pushed ((w.info.namesMsg.map Message.filenames).getD [])
      (Function.update r.written w.info.fname (r.written w.info.fname ++ w.wrote))
      (r.created ++ w.opened.toList) (old ++ w.wrote) := by
  -- nothing is written when no file is open at the end
  have idle : (w.info.namesMsg.map Message.filenames).getD [] = r.waitingNames → w.opened = none → w.wrote = [] →
      InOrder r.pushed ((w.info.namesMsg.map Message.filenames).getD [])
        (Function.update r.written w.info.fname (r.written w.info.fname ++ w.wrote))
        (r.created ++ w.opened.toList) (old ++ w.wrote) := by
    intro h1 h2 h3
    simp only [h1, h2, h3, List.append_nil, Function.update_eq_self, Option.toList_none]
    exact h
  cases hw with
  | full _ _ => exact idle (waiting_eq hpc).symm rfl rfl
  | noFile _ _ =>
    obtain ⟨-, -, -, -, h1⟩ := rotate_fields r.info fs m
    refine idle ?_ rfl rfl
    simp only [h1]
    exact (waiting_eq hpc).symm
  | @same fp _ hfp =>
    obtain ⟨-, ns, hns⟩ := hd.curr (by rw [hfp]; rfl)
    have hwait := waiting_open hd hpc hfp
    rw [hns] at hwait
    have hfn : (writeCurr r.info fp fs m e.fwrite none).info.fname = r.info.fname := by
      rw [fname_eq, writeCurr_currFname]; rfl
    rw [writeCurr_namesMsg, ← waiting_eq hpc, hwait, writeCurr_opened, hfn]
    rw [writeCurr_opened] at hnd
    simp only [Option.toList_none, List.append_nil] at hnd ⊢
    rw [hwait] at h
    exact h.write _ hnd
  | @new buf names info' hclosed _ hbuf hinfo happ =>
    obtain ⟨-, -, hlists⟩ := new_names hd hclosed hbuf hinfo happ
    set n := cstr (· == 0) buf
    set fp := ((r.info.rotate fs m).2.fopen n).2
    set fs₁ := ((r.info.rotate fs m).2.fopen n).1
    have hfn : (writeCurr { info' with namesMsg := some names } fp fs₁ m e.fwrite (some n)).info.fname = n := by
      rw [fname_eq, writeCurr_currFname, hinfo]
    rw [writeCurr_namesMsg, Option.map_some, Option.getD_some, hlists.filenames (by simp), writeCurr_opened, hfn]
    rw [writeCurr_opened] at hnd
    simp only [Option.toList_some] at hnd ⊢
    have hnew : n ∉ r.created := fun hmem =>
      (List.nodup_append.1 hnd).2.2 _ hmem _ List.mem_cons_self rfl
    exact (h.open (listed_sublist hd hpc) hnew).write _ hnd

/-- The points of the loop at which `msg` and the name list are the receiver's own. -/
def RPc.calm : RPc → Bool
  | .detach | .dataLog | .drop | .lastPush | .lastLog | .returned => false
  | _ => true

theorem calm_of {pc : RPc} (h : pc.calm = true) :
    pc ≠ .detach ∧ pc ≠ .dataLog ∧ pc ≠ .drop ∧ pc.inLoop = true := by
  cases pc <;> simp [RPc.calm, RPc.inLoop] at h ⊢

theorem inHand_calm (h : r.pc.calm = true) : r.inHand = (r.msg.map Message.bytes).getD [] := by
  obtain ⟨-, h1, h2, -⟩ := calm_of h
  unfold Rcv.inHand
  rw [if_neg (by simp [h1, h2])]

theorem inHand_msg {m : Message} (h : r.pc.calm = true) (hm : r.msg = some m) : r.inHand = m.bytes := by
  rw [inHand_calm h, hm]
  rfl

/-- A step between such points that moves no byte. -/
theorem OrderInv.move (h : OrderInv r) (hb : RInv r') (hpc : r.pc.calm = true) (hpc' : r'.pc.calm = true)
    (hnames : r'.info.namesMsg = r.info.namesMsg)
    (hmsg : (r'.msg.map Message.bytes).getD [] = (r.msg.map Message.bytes).getD [])
    (hrest : r'.received = r.received ∧ r'.pushed = r.pushed ∧ r'.created = r.created ∧
      r'.written = r.written ∧ r'.stored = r.stored ∧ r'.handed = r.handed) : OrderInv r' := by
  obtain ⟨h1, h2, h3, h4, h5, h6⟩ := hrest
  obtain ⟨old, hold, hord⟩ := h.order
  have c1 := calm_of hpc
  have c2 := calm_of hpc'
  refine ⟨hb, c2.2.2.2, ?_, old, ?_, ?_⟩
  · intro hn
    rw [h6, h5]
    exact h.handed (Or.inl (hnames ▸ hn.resolve_right c2.1))
  · rw [h1, hold, inHand_calm hpc, inHand_calm hpc', hmsg]
  · rw [waiting_eq c1.1] at hord
    rw [waiting_eq c2.1, h2, h3, h4, hnames]
    exact hord

theorem stepFlush_calm (r : Rcv) (m : Message) : (r.stepFlush m).pc.calm = true := by
  rw [stepFlush_pc]
  split
  · split
    · rfl
    · split <;> rfl
  · rfl

theorem stepFlush_fields (r : Rcv) (m : Message) :
    (r.stepFlush m).info = r.info ∧ (r.stepFlush m).msg = r.msg ∧ (r.stepFlush m).fresh = r.fresh ∧
    (r.stepFlush m).received = r.received ∧ (r.stepFlush m).pushed = r.pushed ∧
    (r.stepFlush m).created = r.created ∧ (r.stepFlush m).written = r.written ∧
    (r.stepFlush m).stored = r.stored ∧ (r.stepFlush m).handed = r.handed := by
  rw [stepFlush_eq]
  exact ⟨rfl, rfl, rfl, rfl, rfl, rfl, rfl, rfl, rfl⟩

section Steps

variable {m : Message}

/-- Pushing the name list delivers what waited. -/
theorem OrderInv.pushNames {names : Message} (h : OrderInv r) (hpc : r.pc = .namesPush)
    (hn : r.info.namesMsg = some names)
    (hb : RInv { r with pc := .detach, pushed := r.pushed ++ [names], handed := r.stored.length }) :
    OrderInv { r with pc := .detach, pushed := r.pushed ++ [names], handed := r.stored.length } := by
  obtain ⟨old, hold, hord⟩ := h.order
  have hw : r.waitingNames = names.filenames := by
    rw [waiting_eq (by rw [hpc]; decide), hn]
    rfl
  have ht : names.type ≠ 0 := by
    have := (h.base.data.lists hn).type_eq
    omega
  have hhand : r.inHand = (r.msg.map Message.bytes).getD [] := inHand_calm (by rw [hpc]; rfl)
  refine ⟨hb, rfl, fun _ => rfl, old, ?_, ?_, hord.fresh, ?_⟩
  · rw [hold, hhand]
    rfl
  · have := hord.names
    rw [hw] at this
    simpa [namesOf, Rcv.waitingNames, ht] using this
  · have := hord.stream
    rw [hw] at this
    simpa [Rcv.waitingNames, payload, ht] using this

/-- Pushing `msg`: there is no name list, so nothing older waits in a file. -/
theorem OrderInv.pushData (h : OrderInv r) (hpc : r.pc = .dataPush) (hm : r.msg = some m)
    (hb : RInv { r with pc := .dataLog, pushed := r.pushed ++ [m] }) :
    OrderInv { r with pc := .dataLog, pushed := r.pushed ++ [m] } := by
  obtain ⟨old, hold, hord⟩ := h.order
  have hnone : r.info.namesMsg = none := by
    simpa using h.base.flow.direct (Or.inl hpc)
  have ht : m.type = 0 :=
    h.base.flow.typeZero m hm (by rw [hnone]; rfl) (by rw [hpc]; decide) (by rw [hpc]; decide)
  have hw : r.waitingNames = [] := by
    rw [waiting_eq (by rw [hpc]; decide), hnone]
    rfl
  have hhand : r.inHand = m.bytes := inHand_msg (by rw [hpc]; rfl) hm
  rw [hw] at hord
  refine ⟨hb, rfl, fun _ => h.handed (Or.inl hnone), r.received, ?_, ?_, hord.fresh, ?_⟩
  · simp [Rcv.inHand]
  · simpa [namesOf, Rcv.waitingNames, hnone, ht] using hord.names
  · have := hord.stream.append (List.Sublist.refl m.bytes)
    rw [← hhand, ← hold, hhand] at this
    simpa [Rcv.waitingNames, hnone, payload, ht] using this

/-- What is received goes to the end of `msg`. -/
theorem OrderInv.recv {m' : Message} {bs : List UInt8} (h : OrderInv r) (hpc : r.pc = .recv) (hm : r.msg = some m)
    (hst : m.store m.len (receivedCells r.received.length bs) = some m')
    (hb : RInv { r with pc := .flush, msg := some { m' with len := m'.len + bs.length }
                        received := r.received ++ receivedCells r.received.length bs }) :
    OrderInv { r with pc := .flush, msg := some { m' with len := m'.len + bs.length }
                      received := r.received ++ receivedCells r.received.length bs } := by
  obtain ⟨old, hold, hord⟩ := h.order
  obtain ⟨hl, -⟩ := h.base.flow.bounds m hm
  obtain ⟨-, -, -, -, hbytes⟩ := store_bytes hst hl
  rw [receivedCells_length] at hbytes
  have hhand := inHand_calm (r := r) (by rw [hpc]; rfl)
  rw [waiting_eq (by rw [hpc]; decide)] at hord
  have hhand' : r.received ++ receivedCells r.received.length bs =
      old ++ (m.bytes ++ receivedCells r.received.length bs) := by
    rw [← List.append_assoc]
    congr 1
    rw [hold, hhand, hm]
    rfl
  refine ⟨hb, rfl, fun hn => h.handed (Or.inl (hn.resolve_right (by simp))), old, ?_, hord⟩
  rw [hhand', ← hbytes]
  rfl

/-- Dropping `msg` takes the current file off the list. -/
theorem OrderInv.drop {info' : DatafileInfo} (h : OrderInv r) (hpc : r.pc = .drop)
    (hreset : datafileResetCurrfile r.info fs = some (info', fs'))
    (hb : RInv { r with pc := .select, msg := none, info := info'
                        dropped := r.dropped ++ (r.msg.map Message.bytes).getD [] }) :
    OrderInv { r with pc := .select, msg := none, info := info'
                      dropped := r.dropped ++ (r.msg.map Message.bytes).getD [] } := by
  obtain ⟨old, hold, hord⟩ := h.order
  have hw := waiting_reset h.base.data (by rw [hpc]; decide) hreset
  have hhand : r.inHand = [] := by
    unfold Rcv.inHand
    rw [if_pos (Or.inr hpc)]
  refine ⟨hb, rfl, fun hn => h.handed (Or.inl ?_), old, ?_, ?_, hord.fresh, ?_⟩
  · have hnone := hn.resolve_right (by simp)
    have hsame := reset_namesMsg hreset
    rw [hnone] at hsame
    simpa using hsame
  · rw [hold, hhand]
    rfl
  · exact ((List.Sublist.refl _).append hw).trans hord.names
  · exact ((List.Sublist.refl _).append (hw.flatMap _)).trans hord.stream

end Steps

/-- **One step keeps the order**, while nobody asks the workers to quit. -/
theorem OrderInv.step (h : OrderInv r) (hs : RStep c false r fs a r' fs') (hnd : r'.created.Nodup) :
    OrderInv r' := by
  have hb := hs.inv h.base
  obtain ⟨old, hold, hord⟩ := h.order
  have hd := h.base.data
  cases hs with
  | selectErr _ _ => exact h
  | @select n hpc _ =>
    refine h.move hb (by rw [hpc]; rfl) ?_ rfl rfl ⟨rfl, rfl, rfl, rfl, rfl, rfl⟩
    simp only
    split <;> rfl
  | goOn hpc _ => exact h.move hb (by rw [hpc]; rfl) rfl rfl rfl ⟨rfl, rfl, rfl, rfl, rfl, rfl⟩
  | quitPush _ hq _ _ => cases hq
  | quitDone _ hq _ => cases hq
  | lastPush hpc _ =>
    have := h.loop
    rw [hpc] at this
    cases this
  | lastLog hpc =>
    have := h.loop
    rw [hpc] at this
    cases this
  | keep hpc _ =>
    refine h.move hb (by rw [hpc]; rfl) ?_ rfl rfl ⟨rfl, rfl, rfl, rfl, rfl, rfl⟩
    simp only [Rcv.afterReady]
    split <;> rfl
  | @alloc m hpc hnone hnew =>
    obtain ⟨-, -, hbytes, -⟩ := messageNew_fields hnew
    refine h.move hb (by rw [hpc]; rfl) ?_ rfl ?_ ⟨rfl, rfl, rfl, rfl, rfl, rfl⟩
    · simp only [Rcv.afterReady]
      split <;> rfl
    · simp [hnone, hbytes]
  | namesPush hpc hn => exact h.pushNames hpc hn hb
  | namesFail hpc =>
    refine h.move hb (by rw [hpc]; rfl) rfl rfl ?_ ⟨rfl, rfl, rfl, rfl, rfl, rfl⟩
    cases r.msg <;> rfl
  | detach hpc =>
    have hw : r.waitingNames = [] := by
      unfold Rcv.waitingNames
      rw [if_pos hpc]
    have hhand : r.inHand = (r.msg.map Message.bytes).getD [] := by
      unfold Rcv.inHand
      rw [if_neg (by rw [hpc]; decide)]
    rw [hw] at hord
    refine ⟨hb, rfl, fun _ => h.handed (Or.inr hpc), old, ?_, hord⟩
    rw [hold, hhand]
    cases r.msg <;> rfl
  | recvErr hpc _ => exact h.move hb (by rw [hpc]; rfl) rfl rfl rfl ⟨rfl, rfl, rfl, rfl, rfl, rfl⟩
  | recv hpc hm _ hst => exact h.recv hpc hm hst hb
  | noRecv hpc => exact h.move hb (by rw [hpc]; rfl) rfl rfl rfl ⟨rfl, rfl, rfl, rfl, rfl, rfl⟩
  | @flush m hpc hm =>
    obtain ⟨h1, h2, -, h3, h4, h5, h6, h7, h8⟩ := stepFlush_fields r m
    exact h.move hb (by rw [hpc]; rfl) (stepFlush_calm r m) (by rw [h1]) (by rw [h2]) ⟨h3, h4, h5, h6, h7, h8⟩
  | dataPush hpc hm => exact h.pushData hpc hm hb
  | dataFail hpc =>
    refine h.move hb (by rw [hpc]; rfl) rfl rfl ?_ ⟨rfl, rfl, rfl, rfl, rfl, rfl⟩
    cases r.msg <;> rfl
  | dataLog hpc =>
    have hhand : r.inHand = [] := by
      unfold Rcv.inHand
      rw [if_pos (Or.inl hpc)]
    rw [waiting_eq (by rw [hpc]; decide)] at hord
    refine ⟨hb, rfl, fun hn => h.handed (Or.inl (hn.resolve_right (by simp))), old, ?_, hord⟩
    rw [hold, hhand]
    rfl
  | @writeOk m e w hpc hm hw hok =>
    have hhand : r.inHand = m.bytes := inHand_msg (by rw [hpc]; rfl) hm
    have hord' := OrderInv.write hd (by rw [hpc]; decide) hord hw hnd
    rw [hw.wrote_le.2 hok, ← hhand, ← hold] at hord'
    refine ⟨hb, rfl, fun hn => ?_, r.received, ?_, ?_⟩
    · have hsome := hw.namesMsg hd (Or.inl hok)
      rw [hn.resolve_right (by simp)] at hsome
      cases hsome
    · simp [Rcv.inHand]
    · rw [hw.wrote_le.2 hok, ← hhand]
      exact hord'
  | @writeFail m e w hpc hm hw hok =>
    have hhand : r.inHand = m.bytes := inHand_msg (by rw [hpc]; rfl) hm
    have hord' := OrderInv.write hd (by rw [hpc]; decide) hord hw hnd
    have hsub : (old ++ w.wrote).Sublist r.received := by
      rw [hold, hhand]
      exact (List.Sublist.refl _).append hw.wrote_le.1.sublist
    refine ⟨hb, rfl, fun hn => h.handed (Or.inl ?_), r.received, ?_, hord'.names, hord'.fresh,
      hord'.stream.trans hsub⟩
    · have hnone := hn.resolve_right (by simp)
      by_contra hne
      have hsome := hw.namesMsg hd (Or.inr (Option.isSome_iff_ne_none.2 hne))
      rw [hnone] at hsome
      cases hsome
    · simp [Rcv.inHand]
  | drop hpc hreset => exact h.drop hpc hreset hb
  | reach hfp => exact ⟨hb, h.loop, h.handed, old, hold, hord⟩

/-! ## Runs -/

theorem receivedCells_append (n : ℕ) (bs bs' : List UInt8) :
    receivedCells n (bs ++ bs') = receivedCells n bs ++ receivedCells (n + bs.length) bs' := by
  unfold receivedCells
  rw [List.mapIdx_append]
  simp [Nat.add_comm, Nat.add_left_comm]

@[simp] theorem map_val_receivedCells (n : ℕ) (bs : List UInt8) : (receivedCells n bs).map Cell.val = bs := by
  apply List.ext_getElem?
  intro i
  simp only [receivedCells, List.getElem?_map, List.getElem?_mapIdx, Option.map_map]
  exact Option.map_id_apply

/-- Every received byte carries its own position. -/
theorem receivedCells_nodup (n : ℕ) (bs : List UInt8) : (receivedCells n bs).Nodup := by
  refine List.Nodup.of_map Cell.src ?_
  have h : (receivedCells n bs).map Cell.src = (List.range' n bs.length).map some := by
    apply List.ext_getElem?
    intro i
    rcases Nat.lt_or_ge i bs.length with hi | hi
    · simp [receivedCells, hi]
    · simp [receivedCells, hi]
  rw [h]
  exact (List.nodup_range' ).map (Option.some_injective _)

/-- The received stream carries its positions. -/
theorem RStep.tagged {quit : Bool} (h : RStep c quit r fs a r' fs')
    (hr : r.received = receivedCells 0 (r.received.map Cell.val)) :
    r'.received = receivedCells 0 (r'.received.map Cell.val) := by
  cases h with
  | @recv m m' bs _ _ _ _ =>
    simp only [List.map_append, map_val_receivedCells]
    rw [receivedCells_append, ← hr]
    simp
  | @flush m _ _ =>
    obtain ⟨-, -, -, h1, -⟩ := stepFlush_fields r m
    rw [h1]
    exact hr
  | _ => exact hr

theorem RStep.created_grows {quit : Bool} (h : RStep c quit r fs a r' fs') : r.created <+: r'.created := by
  cases h with
  | writeOk _ _ _ _ => exact List.prefix_append _ _
  | writeFail _ _ _ _ => exact List.prefix_append _ _
  | @flush m _ _ =>
    obtain ⟨-, -, -, -, -, h1, -⟩ := stepFlush_fields r m
    rw [h1]
  | _ => exact List.prefix_refl _

theorem rsys_step_rcv {s s' : RSys} {a : RAct} (h : s.step c (.rcv a) = some s') :
    RStep c (checkWorkersQuit s.quit) s.rcv s.fs a s'.rcv s'.fs ∧ s'.quit = s.quit := by
  obtain ⟨⟨r, fs⟩, hstep, rfl⟩ := Option.map_eq_some_iff.1 h
  exact ⟨rstep_cases hstep, rfl⟩

/-- **Delivery order.** In every run of the receiver without a shutdown in which no two
data files get the same name, the bytes that the queued messages stand for are a
subsequence of the bytes received, and none of them appears twice; and when a
message is about to be pushed directly, there is no name list waiting, and
everything written to files has been handed over. -/
theorem delivery_in_order (c : Configure) (fs : Disk) {s : RSys}
    (h : Reach (RSys.step c) (fun _ a => a ≠ .notify) (RSys.init c fs) s) (hname : s.rcv.created.Nodup) :
    s.rcv.received = receivedCells 0 (s.rcv.received.map Cell.val) ∧
      s.rcv.delivered.Sublist s.rcv.received ∧ s.rcv.delivered.Nodup ∧
      (s.rcv.pc = .dataPush → s.rcv.info.namesMsg = none ∧ s.rcv.stored.drop s.rcv.handed = []) := by
  have hinv : s.rcv.received = receivedCells 0 (s.rcv.received.map Cell.val) ∧ s.quit = 0 ∧
      (s.rcv.created.Nodup → OrderInv s.rcv) := by
    refine h.inv (I := fun s => s.rcv.received = receivedCells 0 (s.rcv.received.map Cell.val) ∧ s.quit = 0 ∧
      (s.rcv.created.Nodup → OrderInv s.rcv)) ⟨rfl, rfl, fun _ => ?_⟩ ?_
    · refine ⟨rinv_init c, rfl, fun _ => rfl, [], rfl, ?_, ?_, ?_⟩
      · exact List.nil_sublist _
      · exact fun n hn => absurd rfl hn
      · exact List.nil_sublist _
    · rintro s a s' ⟨ht, hq, ho⟩ hne hs
      cases a with
      | notify => exact absurd rfl hne
      | rcv a =>
        obtain ⟨hstep, hq'⟩ := rsys_step_rcv hs
        rw [hq] at hstep hq'
        refine ⟨hstep.tagged ht, hq', fun hnd => ?_⟩
        exact (ho (hstep.created_grows.sublist.nodup hnd)).step hstep hnd
  obtain ⟨htag, -, hord⟩ := hinv
  have hi := hord hname
  obtain ⟨old, hold, hin⟩ := hi.order
  have hsub : s.rcv.delivered.Sublist s.rcv.received := by
    rw [hold]
    exact (List.sublist_append_left _ _).trans (hin.stream.trans (List.sublist_append_left _ _))
  refine ⟨htag, hsub, hsub.nodup ?_, fun hpc => ?_⟩
  · rw [htag]
    exact receivedCells_nodup _ _
  · have hnone : s.rcv.info.namesMsg = none := by
      simpa using hi.base.flow.direct (Or.inl hpc)
    refine ⟨hnone, ?_⟩
    rw [hi.handed (Or.inl hnone), List.drop_length]

/-- A configuration: data files under `/d`, two files of 16 bytes. -/
def demoConf (nodeSize nodeCount : ℤ) : Configure where
  nodeSize := nodeSize
  nodeCount := nodeCount
  path := ⟨[47, 100], by decide⟩
  maxFcnt := 2
  maxFsize := 16
  accessToken := ⟨[116], by decide⟩
  localtime := fun t => { year := 2019, mon := 1, mday := 17, hour := 13, min := 30, sec := t.toNat % 60 }

/-- One turn of the loop with data arriving: what `pre` does to the pending name list,
the bytes received, and what becomes of them. -/
def turn (pre : List RAct) (bs : List UInt8) (post : List RAct) : List RAct :=
  [RAct.select 1, .tau] ++ pre ++ [RAct.recv (some bs), .tau] ++ post

/-- A message goes out directly; the next two go to a file because a push times out;
then the list is pushed and a last message goes out directly. -/
def orderDemo : List RSysAct :=
  (turn [] [1, 2] [.push true, .tau] ++
    turn [] [3, 4] [.push false, .write ⟨40, true, none⟩] ++
    turn [.push false] [5] [.write ⟨41, true, none⟩] ++
    turn [.push true, .tau] [6, 7] [.push true, .tau]).map .rcv

theorem orderDemo_runs : (run (RSys.step (demoConf 4097 4)) (RSys.init (demoConf 4097 4) (Fs.empty _ _)) orderDemo).isSome := by
  decide +kernel

/-- The end of this run. -/
def orderDemoEnd : RSys := runTo orderDemo_runs

theorem orderDemo_reach : Reach (RSys.step (demoConf 4097 4)) (fun _ a => a ≠ .notify)
    (RSys.init (demoConf 4097 4) (Fs.empty _ _)) orderDemoEnd := by
  refine reach_of_along (along_of_forall ?_) (run_runTo orderDemo_runs)
  intro a ha _
  obtain ⟨b, -, rfl⟩ := List.mem_map.1 ha
  simp

theorem delivery_in_order_demo :
    orderDemoEnd.rcv.created.Nodup ∧ orderDemoEnd.rcv.delivered.map Cell.val = [1, 2, 3, 4, 5, 6, 7] ∧
      orderDemoEnd.rcv.delivered.Sublist orderDemoEnd.rcv.received := by
  have hnd : orderDemoEnd.rcv.created.Nodup := by decide +kernel
  exact ⟨hnd, by decide +kernel, (delivery_in_order (demoConf 4097 4) (Fs.empty _ _) orderDemo_reach hnd).2.1⟩

end HookKernel
