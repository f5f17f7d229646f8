import HookKernel.Lib.Run
import HookKernel.Spec.ProbeQueue

/-!
# When the kernel record queue is a FIFO

`kprobe_queue_put` passes the arguments of `list_add_tail` in the wrong order, so it
splices the queue's head in front of the fresh record, through the record's
uninitialised `prev`; and `kprobe_queue_get` does not unlink what it returns.

`kprobe_queue_tracks_iff`: a sequence of calls behaves as on a FIFO exactly when no
put comes before its last call and, if the last call is a put, the garbage in the
fresh record's links happens to be right (`LuckyLinks`).
-/

namespace HookKernel

open Lib

variable {heap : Heap} {Q d : ℕ} {l : ListHead}

/-- The links of a fresh record with which `list_add_tail(&queue->head, &data->node)`
on an empty queue leaves a list that walks through the record: its `prev` points to
itself, or its `next` to the queue's head and its `prev` to some other mapped node. -/
def LuckyLinks (heap : Heap) (Q d : ℕ) (l : ListHead) : Prop :=
  l.prev = d ∨ (l.next = Q ∧ l.prev ≠ Q ∧ (heap l.prev).isSome)

/-- **The sequences of calls that go well.** -/
def PutLast (heap : Heap) (Q : ℕ) : List KCall → Prop
  | [] => True
  | .get :: cs => PutLast heap Q cs
  | [.put d l] => LuckyLinks heap Q d l
  | .put _ _ :: _ :: _ => False

/-- A put of a fresh record `d` splices the head in front of `d`. -/
theorem put_fresh {n : ListHead} (hQ : heap Q = some n) (hdQ : d ≠ Q) :
    listAddTail Q d (heap.put d l) =
      ((heap.put d ⟨l.next, Q⟩).put Q ⟨d, l.prev⟩).setNext l.prev Q := by
  rw [listAddTail, Heap.put_self, Option.bind_some,
    listAddBetween_eq (Heap.put_self _ _ _) (by rw [Heap.put_of_ne _ _ (Ne.symm hdQ)]; exact hQ),
    Heap.put_put]

/-- After a put of `d` the first entry is `d`, or none: whatever the queue held before
is no longer at the front. -/
theorem put_front {n : ListHead} {h' : Heap} (hQ : heap Q = some n) (hdQ : d ≠ Q)
    (hput : listAddTail Q d (heap.put d l) = some h') :
    ∃ m, h' Q = some m ∧ (m.next = d ∨ m.next = Q) := by
  rw [put_fresh hQ hdQ] at hput
  simp only [Heap.setNext, Option.map_eq_some_iff] at hput
  obtain ⟨p, -, rfl⟩ := hput
  by_cases hpQ : Q = l.prev
  · rw [← hpQ]
    exact ⟨_, Heap.put_self _ _ _, Or.inr rfl⟩
  · refine ⟨⟨d, l.prev⟩, ?_, Or.inl rfl⟩
    rw [Heap.put_of_ne _ _ hpQ, Heap.put_self]

/-- **One put on an empty queue** leaves a list of that one record exactly with lucky
links. -/
theorem put_visits_iff {n : ListHead} (hQ : heap Q = some n) (hdQ : d ≠ Q) :
    (∃ h', listAddTail Q d (heap.put d l) = some h' ∧ Visits h' Q [d]) ↔ LuckyLinks heap Q d l := by
  rw [put_fresh hQ hdQ]
  constructor
  · rintro ⟨h', hput, hv⟩
    by_cases hpd : l.prev = d
    · exact Or.inl hpd
    simp only [Heap.setNext, Option.map_eq_some_iff] at hput
    obtain ⟨p, hp, rfl⟩ := hput
    have hpQ : l.prev ≠ Q := by
      intro hpQ
      rw [hpQ] at hv
      have := hv.head_next (Heap.put_self _ _ _)
      exact hdQ this.symm
    refine Or.inr ⟨?_, hpQ, ?_⟩
    · -- the walk goes on from `d` by the garbage in its `next`
      obtain ⟨m, hm, -, -, k, hk, hw⟩ := hv
      rw [Heap.put_of_ne _ _ (Ne.symm hpd), Heap.put_of_ne _ _ hdQ, Heap.put_self,
        Option.some.injEq] at hk
      subst hk
      exact hw
    · rw [Heap.put_of_ne _ _ hpQ, Heap.put_of_ne _ _ hpd] at hp
      rw [hp]; rfl
  · intro hl
    by_cases hpd : l.prev = d
    · rw [hpd]
      refine ⟨((heap.put d ⟨l.next, Q⟩).put Q ⟨d, d⟩).put d ⟨Q, Q⟩, ?_, ?_⟩
      · rw [Heap.setNext, Heap.put_of_ne _ _ hdQ, Heap.put_self]; rfl
      · refine visits_single (n := ⟨d, d⟩) ?_ rfl (Heap.put_self _ _ _) rfl hdQ
        rw [Heap.put_of_ne _ _ (Ne.symm hdQ), Heap.put_self]
    · obtain ⟨hnext, hpQ, hp⟩ := hl.resolve_left hpd
      obtain ⟨p, hp⟩ := Option.isSome_iff_exists.1 hp
      refine ⟨((heap.put d ⟨l.next, Q⟩).put Q ⟨d, l.prev⟩).put l.prev ⟨Q, p.prev⟩, ?_, ?_⟩
      · rw [Heap.setNext, Heap.put_of_ne _ _ hpQ, Heap.put_of_ne _ _ hpd, hp]; rfl
      · refine visits_single (n := ⟨d, l.prev⟩) (m := ⟨l.next, Q⟩) ?_ rfl ?_ hnext hdQ
        · rw [Heap.put_of_ne _ _ (Ne.symm hpQ), Heap.put_self]
        · rw [Heap.put_of_ne _ _ (Ne.symm hpd), Heap.put_of_ne _ _ hdQ, Heap.put_self]

/-- The walk and the counter give the walk of `kprobe_queue_destroy`. -/
theorem holds_of_visits {q : KprobeQueue} {pending : List ℕ} (hv : Visits q.heap q.head pending)
    (hc : q.count = pending.length) : q.Holds pending := by
  refine ⟨hv, hc, ?_⟩
  unfold kprobeQueueDestroy
  split
  · obtain ⟨n, hn, hw⟩ := hv
    rw [hn, Option.bind_some]; exact freeWalk_of_walk hw
  · rename_i h0
    have : pending.length = 0 := by omega
    rw [List.length_eq_zero_iff.1 this]

/-- **Exactly when the record queue is a FIFO.** For every heap, every queue address
and every sequence of calls that put distinct fresh records, the calls behave as on
a FIFO of the records put and not yet got exactly when no put comes before the last
call, and a put that is the last call finds lucky links. -/
theorem kprobe_queue_tracks_iff (heap : Heap) (Q : ℕ) (cs : List KCall)
    (hfresh : Q ∉ KCall.records cs) (hdist : (KCall.records cs).Nodup) :
    Tracks KprobeQueue.Holds KprobeQueue.call fifoSpec (kprobeQueueInit heap Q) [] cs ↔
      PutLast (initListHead Q heap) Q cs := by
  have hinit : (kprobeQueueInit heap Q).Holds [] := holds_of_visits (visits_init Q heap) rfl
  have hQ : initListHead Q heap Q = some ⟨Q, Q⟩ := Heap.put_self _ _ _
  induction cs with
  | nil => exact ⟨fun _ => trivial, fun _ => hinit⟩
  | cons c cs ih =>
    cases c with
    | get =>
      -- on the empty queue a get returns `NULL` and changes nothing
      have hcall : (kprobeQueueInit heap Q).call .get = some (kprobeQueueInit heap Q, none) := by
        simp [KprobeQueue.call, kprobeQueueGet, kprobeQueueInit, hQ]
      have ih' := ih hfresh hdist
      constructor
      · intro h; exact ih'.1 (h.next hcall).2
      · intro h; exact ⟨hinit, _, hcall, ih'.2 h⟩
    | put d l =>
      simp only [KCall.records, List.mem_cons, not_or] at hfresh
      have hdQ : d ≠ Q := Ne.symm hfresh.1
      have hcall : ∀ h', listAddTail Q d ((initListHead Q heap).put d l) = some h' →
          (kprobeQueueInit heap Q).call (.put d l) = some (⟨h', Q, 1⟩, none) := by
        intro h' hput
        simp [KprobeQueue.call, kprobeQueuePut, kprobeQueueInit, hput]
      cases cs with
      | nil =>
        show _ ↔ LuckyLinks _ Q d l
        rw [← put_visits_iff hQ hdQ]
        constructor
        · rintro ⟨-, q', hq, hh⟩
          simp only [KprobeQueue.call, Option.map_eq_some_iff, Prod.mk.injEq] at hq
          obtain ⟨q₁, hq₁, rfl, -⟩ := hq
          simp only [kprobeQueuePut, Option.map_eq_some_iff] at hq₁
          obtain ⟨h', hput, rfl⟩ := hq₁
          exact ⟨h', hput, hh.visits⟩
        · rintro ⟨h', hput, hv⟩
          exact ⟨hinit, _, hcall h' hput, holds_of_visits hv rfl⟩
      | cons c₂ cs =>
        refine ⟨?_, False.elim⟩
        rintro ⟨-, q', hq, hrest⟩
        simp only [KprobeQueue.call, Option.map_eq_some_iff, Prod.mk.injEq] at hq
        obtain ⟨q₁, hq₁, rfl, -⟩ := hq
        simp only [kprobeQueuePut, Option.map_eq_some_iff] at hq₁
        obtain ⟨h', hput, rfl⟩ := hq₁
        have hv : Visits h' Q [d] := hrest.rel.visits
        obtain ⟨m, hm, hw⟩ := hv
        cases c₂ with
        | get =>
          -- the record got is still on the list
          have hne : m.next ≠ Q := by rw [hw.1]; exact hdQ
          have hget : (⟨h', Q, (kprobeQueueInit heap Q).count + 1⟩ : KprobeQueue).call .get =
              some (⟨h', Q, (kprobeQueueInit heap Q).count + 1 - 1⟩, some m.next) := by
            simp [KprobeQueue.call, kprobeQueueGet, hm, hne]
          have hv' := (hrest.next hget).2.rel.visits
          have := Visits.unique hv' ⟨m, hm, hw⟩
          simp [fifoSpec] at this
        | put d₂ l₂ =>
          -- the second record hides the first
          obtain ⟨-, q₃, hq₃, hrest₃⟩ := hrest
          simp only [KprobeQueue.call, Option.map_eq_some_iff, Prod.mk.injEq] at hq₃
          obtain ⟨q₄, hq₄, rfl, -⟩ := hq₃
          simp only [kprobeQueuePut, Option.map_eq_some_iff] at hq₄
          obtain ⟨h₂, hput₂, rfl⟩ := hq₄
          simp only [KCall.records, List.mem_cons, not_or] at hfresh
          have hdd : d ≠ d₂ := by
            have := List.nodup_cons.1 hdist
            simp only [KCall.records, List.mem_cons, not_or] at this
            exact this.1.1
          obtain ⟨k, hk, hk'⟩ := put_front hm (Ne.symm hfresh.2.1) hput₂
          have hv₂ : Visits h₂ Q (d :: [d₂]) := hrest₃.rel.visits
          have := hv₂.head_next hk
          rcases hk' with hk' | hk'
          · exact hdd (this.symm.trans hk')
          · exact hdQ (this.symm.trans hk')

/-- A single put of a record whose fresh `prev` points to itself goes well. -/
theorem kprobe_queue_tracks_single :
    Tracks KprobeQueue.Holds KprobeQueue.call fifoSpec (kprobeQueueInit (fun _ => none) 1) []
      [.get, .put 2 ⟨0, 2⟩] :=
  (kprobe_queue_tracks_iff _ 1 [.get, .put 2 ⟨0, 2⟩] (by decide) (by decide)).2 (Or.inl rfl)

/-- **Put, get, get**: even with the best links the second get returns the record that
the first one returned (and `kprobe_queue_send` freed). -/
theorem kprobe_queue_got_twice :
    1 ∉ KCall.records [.put 2 ⟨2, 2⟩, .get, .get] ∧ (KCall.records [.put 2 ⟨2, 2⟩, .get, .get]).Nodup ∧
      ¬ Tracks KprobeQueue.Holds KprobeQueue.call fifoSpec (kprobeQueueInit (fun _ => none) 1) []
        [.put 2 ⟨2, 2⟩, .get, .get] := by
  refine ⟨by decide, by decide, ?_⟩
  intro h
  have h1 := (h.next rfl).2
  have h2 := (h1.next rfl).2
  have h3 := (h2.next rfl).1
  cases h3

end HookKernel
