import Mathlib.Data.Nat.Notation
import Mathlib.Data.Option.Basic
import Mathlib.Logic.Function.Basic

/-!
# Circular doubly-linked lists in a heap

The `list_head` of the Linux kernel: a node is a pair of links, a list is a ring
of nodes through a head. The heap is partial, and an operation that reads or
writes an unmapped address is `none` (an oops).

* `Visits h head xs`: the forward walk from `head` visits exactly `xs`.
* `Visits.unique`: the walk is determined by the heap.
* `freeWalk_of_walk`: the walk that frees every node ends, and frees `xs`.
-/

namespace HookKernel.Lib

/-- `struct list_head`. -/
structure ListHead where
  next : ℕ
  prev : ℕ
deriving DecidableEq

/-- The mapped list nodes. -/
abbrev Heap := ℕ → Option ListHead

/-- The heap with node `a` (mapped and) holding `n`. -/
def Heap.put (h : Heap) (a : ℕ) (n : ListHead) : Heap := Function.update h a (some n)

/-- `a->next = v`. -/
def Heap.setNext (h : Heap) (a v : ℕ) : Option Heap :=
  (h a).map fun n => h.put a { n with next := v }

/-- `a->prev = v`. -/
def Heap.setPrev (h : Heap) (a v : ℕ) : Option Heap :=
  (h a).map fun n => h.put a { n with prev := v }

/-- `INIT_LIST_HEAD(a)`. -/
def initListHead (a : ℕ) (h : Heap) : Heap := h.put a ⟨a, a⟩

/-- `__list_add(new, prev, next)`. -/
def listAddBetween (new prev next : ℕ) (h : Heap) : Option Heap :=
  (h.setPrev next new).bind fun h₁ =>
  (h₁.setNext new next).bind fun h₂ =>
  (h₂.setPrev new prev).bind fun h₃ =>
  h₃.setNext prev new

/-- `list_add(new, head)`: insert `new` after `head`. -/
def listAdd (new head : ℕ) (h : Heap) : Option Heap :=
  (h head).bind fun n => listAddBetween new head n.next h

/-- `list_add_tail(new, head)`: insert `new` before `head`. -/
def listAddTail (new head : ℕ) (h : Heap) : Option Heap :=
  (h head).bind fun n => listAddBetween new n.prev head h

/-- `list_del(entry)`: `entry`'s neighbours are linked to each other. -/
def listDel (entry : ℕ) (h : Heap) : Option Heap :=
  (h entry).bind fun n =>
  (h.setPrev n.next n.prev).bind fun h₁ =>
  h₁.setNext n.prev n.next

/-- From `cur` on, following `next` back to `head`, the nodes are `xs`. -/
def Walk (h : Heap) (head : ℕ) : ℕ → List ℕ → Prop
  | cur, [] => cur = head
  | cur, x :: xs => cur = x ∧ x ≠ head ∧ ∃ n, h x = some n ∧ Walk h head n.next xs

/-- Walking from `head` visits exactly `xs`. -/
def Visits (h : Heap) (head : ℕ) (xs : List ℕ) : Prop :=
  ∃ n, h head = some n ∧ Walk h head n.next xs

variable {h : Heap} {head : ℕ}

@[simp] theorem Heap.put_self (h : Heap) (a : ℕ) (n : ListHead) : h.put a n a = some n :=
  Function.update_self _ _ _

theorem Heap.put_of_ne (h : Heap) {a b : ℕ} (n : ListHead) (hab : b ≠ a) : h.put a n b = h b :=
  Function.update_of_ne hab _ _

@[simp] theorem Heap.put_put (h : Heap) (a : ℕ) (n m : ListHead) : (h.put a n).put a m = h.put a m :=
  Function.update_idem _ _ _

/-- **`__list_add` in closed form**, whichever of the three nodes coincide. -/
theorem listAddBetween_eq {new prev next : ℕ} {a b : ListHead} (hnext : h next = some a)
    (hnew : h new = some b) :
    listAddBetween new prev next h =
      ((h.put next ⟨a.next, new⟩).put new ⟨next, prev⟩).setNext prev new := by
  have h1 : h.setPrev next new = some (h.put next ⟨a.next, new⟩) := by
    simp [Heap.setPrev, hnext]
  -- the links of `new` before it is written, if it is the same node as `next`
  have h2 : ∃ c, (h.put next ⟨a.next, new⟩) new = some c := by
    by_cases hnn : new = next
    · subst hnn; exact ⟨_, Heap.put_self _ _ _⟩
    · exact ⟨b, by rw [Heap.put_of_ne _ _ hnn]; exact hnew⟩
  obtain ⟨c, hc⟩ := h2
  have h3 : (h.put next ⟨a.next, new⟩).setNext new next =
      some ((h.put next ⟨a.next, new⟩).put new ⟨next, c.prev⟩) := by
    simp [Heap.setNext, hc]
  have h4 : ((h.put next ⟨a.next, new⟩).put new ⟨next, c.prev⟩).setPrev new prev =
      some ((h.put next ⟨a.next, new⟩).put new ⟨next, prev⟩) := by
    simp [Heap.setPrev]
  simp only [listAddBetween, h1, h3, h4, Option.bind_some]

theorem Walk.unique : ∀ {cur : ℕ} {xs ys : List ℕ}, Walk h head cur xs → Walk h head cur ys → xs = ys := by
  intro cur xs
  induction xs generalizing cur with
  | nil =>
    intro ys h1 h2
    cases ys with
    | nil => rfl
    | cons y ys => exact absurd (h2.1.symm.trans h1) h2.2.1
  | cons x xs ih =>
    intro ys h1 h2
    obtain ⟨rfl, hne, n, hn, hw⟩ := h1
    cases ys with
    | nil => exact absurd h2 hne
    | cons y ys =>
      obtain ⟨rfl, -, m, hm, hw'⟩ := h2
      rw [hn, Option.some.injEq] at hm
      subst hm
      rw [ih hw hw']

/-- **The walk is determined by the heap.** -/
theorem Visits.unique {xs ys : List ℕ} (h1 : Visits h head xs) (h2 : Visits h head ys) : xs = ys := by
  obtain ⟨n, hn, hw⟩ := h1
  obtain ⟨m, hm, hw'⟩ := h2
  rw [hn, Option.some.injEq] at hm
  subst hm
  exact hw.unique hw'

theorem visits_init (a : ℕ) (h : Heap) : Visits (initListHead a h) a [] :=
  ⟨⟨a, a⟩, Heap.put_self _ _ _, rfl⟩

/-- A ring of the head and one node. -/
theorem visits_single {x : ℕ} {n m : ListHead} (hn : h head = some n) (hnx : n.next = x)
    (hm : h x = some m) (hmh : m.next = head) (hne : x ≠ head) : Visits h head [x] :=
  ⟨n, hn, hnx, hne, m, hm, hmh⟩

/-- The first node visited is the head's successor. -/
theorem Visits.head_next {x : ℕ} {xs : List ℕ} {n : ListHead} (hv : Visits h head (x :: xs))
    (hn : h head = some n) : n.next = x := by
  obtain ⟨m, hm, hw⟩ := hv
  rw [hn, Option.some.injEq] at hm
  subst hm
  exact hw.1

/-- `list_for_each_entry_safe` with `kfree` in the body, from `pos` on, for at most
`fuel` nodes: the nodes freed. Reading a freed node is a fault. -/
def freeWalk (head : ℕ) : ℕ → ℕ → Heap → Option (List ℕ)
  | 0, _, _ => none
  | fuel + 1, pos, h =>
    if pos = head then some []
    else (h pos).bind fun n => (freeWalk head fuel n.next (Function.update h pos none)).map (pos :: ·)

/-- Freeing a node that the walk does not visit leaves the walk. -/
theorem Walk.free {x : ℕ} : ∀ {cur : ℕ} {xs : List ℕ}, Walk h head cur xs → x ∉ xs →
    Walk (Function.update h x none) head cur xs := by
  intro cur xs
  induction xs generalizing cur with
  | nil => intro h1 _; exact h1
  | cons y ys ih =>
    intro h1 hx
    obtain ⟨rfl, hne, n, hn, hw⟩ := h1
    simp only [List.mem_cons, not_or] at hx
    exact ⟨rfl, hne, n, by rw [Function.update_of_ne (Ne.symm hx.1)]; exact hn, ih hw hx.2⟩

/-- A walk from a node goes through it only once: otherwise it would not end. -/
theorem Walk.nodup : ∀ {cur : ℕ} {xs : List ℕ}, Walk h head cur xs → xs.Nodup := by
  -- a node met twice is followed by the same nodes both times
  have key : ∀ (xs : List ℕ) {cur x : ℕ}, Walk h head cur xs → x ∈ xs →
      ∃ pre post, xs = pre ++ x :: post ∧ Walk h head x (x :: post) := by
    intro xs
    induction xs with
    | nil => intro cur x _ hx; simp at hx
    | cons y ys ih =>
      intro cur x hw hx
      obtain ⟨rfl, hne, n, hn, hw'⟩ := hw
      rw [List.mem_cons] at hx
      rcases hx with rfl | hx
      · exact ⟨[], ys, rfl, rfl, hne, n, hn, hw'⟩
      · obtain ⟨pre, post, rfl, hw2⟩ := ih hw' hx
        exact ⟨cur :: pre, post, rfl, hw2⟩
  intro cur xs
  induction xs generalizing cur with
  | nil => intro _; exact List.nodup_nil
  | cons x xs ih =>
    intro hw
    have hw0 := hw
    obtain ⟨rfl, hne, n, hn, hw'⟩ := hw
    refine List.nodup_cons.2 ⟨?_, ih hw'⟩
    intro hmem
    obtain ⟨pre, post, rfl, hw2⟩ := key xs hw' hmem
    have := hw0.unique hw2
    simp only [List.cons.injEq, true_and] at this
    have hlen := congrArg List.length this
    simp only [List.length_append, List.length_cons] at hlen
    omega

/-- **Freeing every node** ends within `xs.length + 1` iterations. -/
theorem freeWalk_of_walk : ∀ {xs : List ℕ} {cur : ℕ} {h : Heap}, Walk h head cur xs →
    freeWalk head (xs.length + 1) cur h = some xs := by
  intro xs
  induction xs with
  | nil => intro cur h hw; have hw : cur = head := hw; simp [freeWalk, hw]
  | cons x xs ih =>
    intro cur h hw
    have hnd := List.nodup_cons.1 hw.nodup
    obtain ⟨rfl, hne, n, hn, hw'⟩ := hw
    rw [List.length_cons, freeWalk, if_neg hne, hn, Option.bind_some, ih (hw'.free hnd.1)]; rfl

end HookKernel.Lib
