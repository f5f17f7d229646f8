import Mathlib.Data.Nat.Notation
import Mathlib.Data.List.Infix
import Mathlib.Logic.Function.Basic

/-!
# Files and buffered streams

A directory maps names to file nodes; a node holds cells and only grows. A stream
is opened for appending on a node and keeps a buffer that reaches the node when the
stream is flushed or closed.

* `settled fs st i`: what node `i` holds once the stream `st` is flushed. Flushing
  and closing do not change it (`settled_flush`, `settled_fclose`), writing appends
  to it (`settled_fwrite`).
* `Fs.Grows fs fs'`: files are only appended to. What a stream will leave in a file
  survives what others append to it (`Fs.Grows.settled`).
-/

namespace HookKernel.Lib

variable {N C : Type}

/-- A file system: nodes from `next` on are unused. -/
structure Fs (N C : Type) where
  dir : N → Option ℕ
  node : ℕ → List C
  next : ℕ
  dir_lt : ∀ n i, dir n = some i → i < next
  unused : ∀ i, next ≤ i → node i = []

/-- A stream opened with mode `"a"`. -/
structure Stream (C : Type) where
  ino : ℕ
  buf : List C

namespace Fs

variable [DecidableEq N] (fs : Fs N C)

/-- The empty file system. -/
def empty (N C : Type) : Fs N C where
  dir := fun _ => none
  node := fun _ => []
  next := 0
  dir_lt := by simp
  unused := by simp

/-- The same files, with other cells in them. -/
def map {D : Type} (f : C → D) : Fs N D where
  dir := fs.dir
  node := fun i => (fs.node i).map f
  next := fs.next
  dir_lt := fs.dir_lt
  unused := fun i hi => by rw [fs.unused i hi, List.map_nil]

/-- `access(n, F_OK) == 0`. -/
def exist (n : N) : Bool := (fs.dir n).isSome

/-- The cells of the file named `n`. -/
def content (n : N) : List C := ((fs.dir n).map fs.node).getD []

/-- A successful `fopen(n, "a")`. -/
def fopen (n : N) : Fs N C × Stream C :=
  match fs.dir n with
  | some i => (fs, ⟨i, []⟩)
  | none =>
    ({ dir := Function.update fs.dir n (some fs.next)
       node := fs.node
       next := fs.next + 1
       dir_lt := by
         intro m i hm
         rcases eq_or_ne m n with rfl | hne
         · rw [Function.update_self, Option.some.injEq] at hm
           omega
         · rw [Function.update_of_ne hne] at hm
           have := fs.dir_lt m i hm
           omega
       unused := fun i hi => fs.unused i (by omega) }, ⟨fs.next, []⟩)

/-- Cells reach node `i`; writing to a node that was never allocated does nothing. -/
def append (i : ℕ) (bs : List C) : Fs N C where
  dir := fs.dir
  node := if i < fs.next then Function.update fs.node i (fs.node i ++ bs) else fs.node
  next := fs.next
  dir_lt := fs.dir_lt
  unused := by
    intro j hj
    split
    · rw [Function.update_of_ne (by omega)]
      exact fs.unused j hj
    · exact fs.unused j hj

/-- A successful `rename(a, b)` of an existing file: it replaces a file named `b`. -/
def rename (a b : N) : Fs N C where
  dir := if fs.dir a = fs.dir b then fs.dir
    else Function.update (Function.update fs.dir b (fs.dir a)) a none
  node := fs.node
  next := fs.next
  dir_lt := by
    intro m i hm
    split at hm
    · exact fs.dir_lt m i hm
    · rcases eq_or_ne m a with rfl | hne
      · rw [Function.update_self] at hm
        cases hm
      · rw [Function.update_of_ne hne] at hm
        rcases eq_or_ne m b with rfl | hne'
        · rw [Function.update_self] at hm
          exact fs.dir_lt a i hm
        · rw [Function.update_of_ne hne'] at hm
          exact fs.dir_lt m i hm
  unused := fs.unused

end Fs

/-- A successful `fwrite`: the cells are in the buffer. -/
def Stream.fwrite (st : Stream C) (bs : List C) : Stream C := { st with buf := st.buf ++ bs }

/-- The first `k` buffered cells reach the file. -/
def Stream.flush (st : Stream C) (fs : Fs N C) (k : ℕ) : Fs N C × Stream C :=
  (fs.append st.ino (st.buf.take k), { st with buf := st.buf.drop k })

/-- `fclose`: everything buffered reaches the file. -/
def Stream.fclose (st : Stream C) (fs : Fs N C) : Fs N C := fs.append st.ino st.buf

/-! ## What a file holds -/

/-- What node `i` holds once the stream is flushed. -/
def settled (fs : Fs N C) (st : Option (Stream C)) (i : ℕ) : List C :=
  fs.node i ++ match st with
    | some st => if st.ino = i then st.buf else []
    | none => []

section Settled

variable {fs : Fs N C} {st : Stream C} {i : ℕ}

@[simp] theorem flush_dir (k : ℕ) : (st.flush fs k).1.dir = fs.dir := rfl
@[simp] theorem flush_ino (k : ℕ) : (st.flush fs k).2.ino = st.ino := rfl
@[simp] theorem fclose_dir : (st.fclose fs).dir = fs.dir := rfl
@[simp] theorem fwrite_ino (bs : List C) : (st.fwrite bs).ino = st.ino := rfl

theorem settled_flush (h : st.ino < fs.next) (k : ℕ) :
    settled (st.flush fs k).1 (some (st.flush fs k).2) i = settled fs (some st) i := by
  unfold settled Stream.flush Fs.append
  simp only [h, if_true]
  rcases eq_or_ne st.ino i with rfl | hne
  · simp
  · rw [Function.update_of_ne hne.symm, if_neg hne, if_neg hne]

theorem settled_fclose (h : st.ino < fs.next) : settled (st.fclose fs) none i = settled fs (some st) i := by
  unfold settled Stream.fclose Fs.append
  simp only [h, if_true, List.append_nil]
  rcases eq_or_ne st.ino i with rfl | hne
  · simp
  · rw [Function.update_of_ne hne.symm, if_neg hne, List.append_nil]

theorem settled_fwrite (bs : List C) :
    settled fs (some (st.fwrite bs)) i = settled fs (some st) i ++ if st.ino = i then bs else [] := by
  unfold settled Stream.fwrite
  rcases eq_or_ne st.ino i with rfl | hne
  · simp
  · simp [hne]

variable [DecidableEq N] {n m : N}

theorem fopen_node (fs : Fs N C) (n : N) : (fs.fopen n).1.node = fs.node := by
  unfold Fs.fopen
  split <;> rfl

theorem fopen_buf (fs : Fs N C) (n : N) : (fs.fopen n).2.buf = [] := by
  unfold Fs.fopen
  split <;> rfl

/-- A stream just opened holds nothing back. -/
theorem settled_fopen (fs : Fs N C) (n : N) :
    settled (fs.fopen n).1 (some (fs.fopen n).2) i = settled fs none i := by
  unfold settled
  simp [fopen_node, fopen_buf]

theorem fopen_dir (fs : Fs N C) (n : N) : (fs.fopen n).1.dir n = some (fs.fopen n).2.ino := by
  unfold Fs.fopen
  split
  · rename_i h
    exact h
  · simp

/-- Opening a file moves no other name. -/
theorem fopen_dir_of_some (h : fs.dir m = some i) : (fs.fopen n).1.dir m = some i := by
  unfold Fs.fopen
  split
  · exact h
  · rename_i hn
    have hne : m ≠ n := by
      rintro rfl
      rw [hn] at h
      cases h
    simp only
    rw [Function.update_of_ne hne]
    exact h

end Settled

/-! ## Files only grow -/

/-- Nodes are appended to, and none is given back. -/
structure Fs.Grows (fs fs' : Fs N C) : Prop where
  next : fs.next ≤ fs'.next
  node : ∀ i, fs.node i <+: fs'.node i

namespace Fs.Grows

variable {fs fs' fs'' : Fs N C}

theorem refl (fs : Fs N C) : fs.Grows fs := ⟨Nat.le_refl _, fun _ => List.prefix_refl _⟩

theorem trans (h : fs.Grows fs') (h' : fs'.Grows fs'') : fs.Grows fs'' :=
  ⟨Nat.le_trans h.next h'.next, fun i => (h.node i).trans (h'.node i)⟩

theorem append (fs : Fs N C) (i : ℕ) (bs : List C) : fs.Grows (fs.append i bs) := by
  refine ⟨Nat.le_refl _, fun j => ?_⟩
  unfold Fs.append
  simp only
  split
  · rcases eq_or_ne j i with rfl | hne
    · rw [Function.update_self]
      exact List.prefix_append _ _
    · rw [Function.update_of_ne hne]
  · exact List.prefix_refl _

theorem fopen [DecidableEq N] (fs : Fs N C) (n : N) : fs.Grows (fs.fopen n).1 := by
  refine ⟨?_, fun i => by rw [fopen_node]⟩
  unfold Fs.fopen
  split
  · exact Nat.le_refl _
  · exact Nat.le_succ _

theorem rename [DecidableEq N] (fs : Fs N C) (a b : N) : fs.Grows (fs.rename a b) :=
  ⟨Nat.le_refl _, fun _ => List.prefix_refl _⟩

/-- Appending to a file takes nothing from what a stream will leave in it. -/
theorem settled (h : fs.Grows fs') (st : Option (Stream C)) (i : ℕ) :
    (Lib.settled fs st i).Sublist (Lib.settled fs' st i) := by
  unfold Lib.settled
  exact (h.node i).sublist.append (List.Sublist.refl _)

end Fs.Grows

end HookKernel.Lib
