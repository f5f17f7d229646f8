import HookKernel.Lib.LittleEndian
import HookKernel.Lib.Wrap

/-!
# Records that carry their length

A buffer holds records one after the other. A record begins with a head, which says how long
the record is; the next one follows at a multiple of four bytes. `records` walks over them, as
long as what a head says fits into what is left.

* `records_eq`: the walk step by step.
* `read_eq`: the lengths that the walk reads are inside of the buffer.
* `records_inside`, `records_apart`: in any buffer, what the walk finds lies inside it, and one
  record behind the other.
* `records_mapM_cut`, `records_mapM`: the walk over records that were put there finds those that
  are not cut off.
-/

namespace HookKernel.Lib

/-- The head of a record, which has in front how long the record is, in `width` bytes. -/
structure RecordFormat where
  head : ℕ
  width : ℕ
  head_pos : 0 < head
  width_le : width ≤ head

/-- Round up to a multiple of four. -/
def align (n : ℕ) : ℕ := (n + 3) / 4 * 4

theorem le_align (n : ℕ) : n ≤ align n := by
  unfold align
  omega

theorem dvd_align (n : ℕ) : 4 ∣ align n := Nat.dvd_mul_left 4 _

namespace RecordFormat

variable (f : RecordFormat) (buff : List UInt8)

/-- The length that the head at `pos` says. -/
def size (pos : ℕ) : ℕ := leNat (slice buff pos (pos + f.width))

/-- The length of the record at `pos`, if it fits into the `left` bytes. -/
def sizeAt (pos : ℕ) (left : ℤ) : Option ℕ :=
  if (f.head : ℤ) ≤ left ∧ f.head ≤ f.size buff pos ∧ (f.size buff pos : ℤ) ≤ left then some (f.size buff pos) else none

/-- The places of the records and their lengths. -/
def walk : (fuel pos : ℕ) → (left : ℤ) → List (ℕ × ℕ)
  | 0, _, _ => []
  | fuel + 1, pos, left =>
    match f.sizeAt buff pos left with
    | none => []
    | some n => (pos, n) :: walk fuel (pos + align n) (left - align n)

/-- The records in the `left` bytes at `pos`. -/
def records (pos : ℕ) (left : ℤ) : List (ℕ × ℕ) := f.walk buff left.toNat pos left

/-- The same walk, with the lengths read from the buffer; `none` outside of it. -/
def readWalk : (fuel pos : ℕ) → (left : ℤ) → Option (List (ℕ × ℕ))
  | 0, _, _ => some []
  | fuel + 1, pos, left =>
    if left < f.head then some []
    else if buff.length < pos + f.width then none
    else
      match f.sizeAt buff pos left with
      | none => some []
      | some n => (readWalk fuel (pos + align n) (left - align n)).map fun rest => (pos, n) :: rest

/-- What a reader finds in the `left` bytes at `pos`. -/
def read (pos : ℕ) (left : ℤ) : Option (List (ℕ × ℕ)) := f.readWalk buff left.toNat pos left

/-- A record says its length. -/
structure IsRecord (r : List UInt8) : Prop where
  head_le : f.head ≤ r.length
  size_eq : leNat (r.take f.width) = r.length

variable {f buff} {pos n : ℕ} {left : ℤ}

theorem sizeAt_some (h : f.sizeAt buff pos left = some n) :
    (f.head : ℤ) ≤ left ∧ f.head ≤ n ∧ (n : ℤ) ≤ left ∧ n = f.size buff pos := by
  unfold sizeAt at h
  split at h
  · rename_i hfit
    obtain rfl := Option.some.inj h
    exact ⟨hfit.1, hfit.2.1, hfit.2.2, rfl⟩
  · cases h

/-- The walk has an end: every record takes something away. -/
theorem walk_enough {fuel fuel' : ℕ} (h : left.toNat ≤ fuel) (h' : left.toNat ≤ fuel') :
    f.walk buff fuel pos left = f.walk buff fuel' pos left := by
  induction fuel generalizing fuel' pos left with
  | zero =>
    cases fuel' with
    | zero => rfl
    | succ fuel' =>
      unfold walk
      cases hsize : f.sizeAt buff pos left with
      | none => rfl
      | some n =>
        obtain ⟨h1, -⟩ := sizeAt_some hsize
        have hpos := f.head_pos
        omega
  | succ fuel ih =>
    have hstep : ∀ n, f.sizeAt buff pos left = some n → (left - align n).toNat + 1 ≤ left.toNat := by
      intro n hsize
      obtain ⟨h1, h2, -⟩ := sizeAt_some hsize
      have hpos := f.head_pos
      have hle := le_align n
      omega
    cases fuel' with
    | zero =>
      unfold walk
      cases hsize : f.sizeAt buff pos left with
      | none => rfl
      | some n =>
        have := hstep n hsize
        omega
    | succ fuel' =>
      unfold walk
      cases hsize : f.sizeAt buff pos left with
      | none => rfl
      | some n =>
        have := hstep n hsize
        simp only
        exact congrArg (List.cons (pos, n)) (ih (by omega) (by omega))

/-- **The walk step by step.** -/
theorem records_eq (f : RecordFormat) (buff : List UInt8) (pos : ℕ) (left : ℤ) :
    f.records buff pos left =
      match f.sizeAt buff pos left with
      | none => []
      | some n => (pos, n) :: f.records buff (pos + align n) (left - align n) := by
  unfold records
  rw [walk_enough (Nat.le_refl _) (Nat.le_succ left.toNat), walk]
  cases hsize : f.sizeAt buff pos left with
  | none => rfl
  | some n =>
    obtain ⟨h1, h2, -⟩ := sizeAt_some hsize
    have hpos := f.head_pos
    have hle := le_align n
    simp only
    rw [walk_enough (Nat.le_refl _) (by omega : (left - align n).toNat ≤ left.toNat)]

theorem records_done (h : left < f.head) (pos : ℕ) : f.records buff pos left = [] := by
  have hno : f.sizeAt buff pos left = none := by
    unfold sizeAt
    rw [if_neg (by omega)]
  rw [records_eq, hno]

/-- **The lengths are read inside** of the buffer, whatever they say. -/
theorem readWalk_eq {fuel : ℕ} (h : (pos : ℤ) + left ≤ buff.length) :
    f.readWalk buff fuel pos left = some (f.walk buff fuel pos left) := by
  induction fuel generalizing pos left with
  | zero => rfl
  | succ fuel ih =>
    unfold readWalk walk
    by_cases hdone : left < f.head
    · have hno : f.sizeAt buff pos left = none := by
        unfold sizeAt
        rw [if_neg (by omega)]
      rw [if_pos hdone, hno]
    · have hwidth := f.width_le
      rw [if_neg hdone, if_neg (by omega)]
      cases hsize : f.sizeAt buff pos left with
      | none => rfl
      | some n =>
        simp only
        rw [ih (by push_cast; omega), Option.map_some]

theorem read_eq (h : (pos : ℤ) + left ≤ buff.length) : f.read buff pos left = some (f.records buff pos left) :=
  readWalk_eq h

/-- Induction along the walk. -/
theorem records_induction (f : RecordFormat) (buff : List UInt8) {P : ℕ → ℤ → Prop}
    (done : ∀ pos left, f.sizeAt buff pos left = none → P pos left)
    (step : ∀ pos left n, f.sizeAt buff pos left = some n → P (pos + align n) (left - align n) → P pos left)
    (pos : ℕ) (left : ℤ) : P pos left := by
  generalize hk : left.toNat = k
  induction k using Nat.strong_induction_on generalizing pos left with
  | _ k ih =>
    cases hsize : f.sizeAt buff pos left with
    | none => exact done pos left hsize
    | some n =>
      obtain ⟨h1, h2, -⟩ := sizeAt_some hsize
      have hpos := f.head_pos
      have hle := le_align n
      exact step pos left n hsize (ih _ (by omega) (pos + align n) (left - align n) rfl)

/-- **What the walk finds lies inside**, with its head, at a multiple of four. -/
theorem records_inside {x : ℕ × ℕ} (hx : x ∈ f.records buff pos left) :
    pos ≤ x.1 ∧ 4 ∣ x.1 - pos ∧ f.head ≤ x.2 ∧ ((x.1 + x.2 : ℕ) : ℤ) ≤ pos + left ∧
      x.2 = f.size buff x.1 := by
  induction pos, left using records_induction f buff with
  | done pos left hno =>
    rw [records_eq, hno] at hx
    cases hx
  | step pos left n hsize ih =>
    obtain ⟨-, h2, h3, h4⟩ := sizeAt_some hsize
    rw [records_eq, hsize] at hx
    rcases List.mem_cons.1 hx with rfl | hx
    · exact ⟨Nat.le_refl _, by simp, h2, by push_cast; omega, h4⟩
    · obtain ⟨i1, i2, i3, i4, i5⟩ := ih hx
      refine ⟨by omega, ?_, i3, by omega, i5⟩
      have hsum : x.1 - pos = x.1 - (pos + align n) + align n := by omega
      rw [hsum]
      exact Nat.dvd_add i2 (dvd_align n)

/-- **One record lies behind the other.** -/
theorem records_apart (f : RecordFormat) (buff : List UInt8) (pos : ℕ) (left : ℤ) :
    (f.records buff pos left).Pairwise fun x y => x.1 + x.2 ≤ y.1 := by
  induction pos, left using records_induction f buff with
  | done pos left hno =>
    rw [records_eq, hno]
    exact List.Pairwise.nil
  | step pos left n hsize ih =>
    rw [records_eq, hsize]
    refine List.pairwise_cons.2 ⟨fun y hy => ?_, ih⟩
    obtain ⟨h1, -⟩ := records_inside hy
    have hle := le_align n
    show pos + n ≤ y.1
    omega

/-! ## Records that were put there -/

/-- A record and the bytes up to the next one. -/
def padded (r : List UInt8) : List UInt8 := r ++ List.replicate (align r.length - r.length) 0

/-- Records one after the other. -/
def encodeRecords (rs : List (List UInt8)) : List UInt8 := rs.flatMap padded

@[simp] theorem length_padded (r : List UInt8) : (padded r).length = align r.length := by
  have hle := le_align r.length
  unfold padded
  rw [List.length_append, List.length_replicate]
  omega

/-- The head of a record, of which the first `k` bytes are there. -/
theorem size_record {a r tail : List UInt8} {k : ℕ} (hr : f.IsRecord r) (hk : f.width ≤ k)
    (hbuff : buff = a ++ r.take k ++ tail) : f.size buff a.length = r.length := by
  have hle := Nat.le_trans f.width_le hr.head_le
  have htake : f.width ≤ (r.take k).length := by
    rw [List.length_take]
    omega
  unfold size slice
  rw [hbuff, List.append_assoc, List.drop_left, Nat.add_sub_cancel_left, List.take_append_of_le_length htake,
    List.take_take, Nat.min_eq_left hk, hr.size_eq]

/-- The record at the front. -/
theorem sizeAt_record {a r tail : List UInt8} (hr : f.IsRecord r) (hbuff : buff = a ++ r ++ tail) (hleft : (r.length : ℤ) ≤ left) :
    f.sizeAt buff a.length left = some r.length := by
  have hle := hr.head_le
  have hwhole : buff = a ++ r.take r.length ++ tail := by
    rw [List.take_length]
    exact hbuff
  have hsize := size_record hr (Nat.le_trans f.width_le hle) hwhole
  unfold sizeAt
  rw [hsize, if_pos ⟨by omega, hle, hleft⟩]

/-- A record that is cut off: its head says more than is left. -/
theorem sizeAt_cut {a r tail : List UInt8} {room : ℕ} (hr : f.IsRecord r) (hroom : room < r.length)
    (hbuff : buff = a ++ r.take room ++ tail) (hleft : left ≤ room) : f.sizeAt buff a.length left = none := by
  unfold sizeAt
  refine if_neg fun hsize => ?_
  have hwidth := f.width_le
  rw [size_record hr (by omega) hbuff] at hsize
  omega

/-- The records, of the lengths given by `size`, that are whole in the first `room` bytes. -/
def fitting {α : Type*} (size : α → ℕ) : (room : ℕ) → List α → List α
  | _, [] => []
  | room, x :: xs => if size x ≤ room then x :: fitting size (room - align (size x)) xs else []

theorem fitting_cons {α : Type*} (size : α → ℕ) {room : ℕ} {x : α} {xs : List α} (h : size x ≤ room) :
    fitting size room (x :: xs) = x :: fitting size (room - align (size x)) xs := if_pos h

theorem fitting_nil {α : Type*} {size : α → ℕ} {room : ℕ} {xs : List α} (h : ∀ x ∈ xs, room < size x) :
    fitting size room xs = [] := by
  cases xs with
  | nil => rfl
  | cons x xs => exact if_neg (Nat.not_le_of_lt (h x List.mem_cons_self))

theorem encodeRecords_cons {α : Type*} (bytes : α → List UInt8) (x : α) (xs : List α) :
    encodeRecords ((x :: xs).map bytes) = padded (bytes x) ++ encodeRecords (xs.map bytes) := List.flatMap_cons

theorem fitting_eq_self {α : Type*} {bytes : α → List UInt8} {room : ℕ} {xs : List α}
    (h : (encodeRecords (xs.map bytes)).length ≤ room) : fitting (fun x => (bytes x).length) room xs = xs := by
  induction xs generalizing room with
  | nil => rfl
  | cons x xs ih =>
    have hle := le_align (bytes x).length
    rw [encodeRecords_cons, List.length_append, length_padded] at h
    rw [fitting_cons (fun x => (bytes x).length) (by omega), ih (by omega)]

/-- **The walk finds the records that were put there** and not cut off: what is read of each one is what is read of
the record. -/
theorem records_mapM_cut {α β : Type} {bytes : α → List UInt8} {h : ℕ → ℕ → Option β} {g : α → β} {xs : List α} (a tail : List UInt8)
    (room : ℕ) (hxs : ∀ x ∈ xs, f.IsRecord (bytes x)) (hbuff : buff = a ++ (encodeRecords (xs.map bytes)).take room ++ tail)
    (hg : ∀ a x tail, x ∈ xs → buff = a ++ bytes x ++ tail → h a.length (bytes x).length = some (g x)) :
    (f.records buff a.length ((encodeRecords (xs.map bytes)).take room).length).mapM (fun r => h r.1 r.2) =
      some ((fitting (fun x => (bytes x).length) room xs).map g) := by
  have hpos := f.head_pos
  induction xs generalizing a room with
  | nil =>
    rw [records_done (by show (((([] : List UInt8).take room).length : ℕ) : ℤ) < f.head; simp [hpos])]
    rfl
  | cons x xs ih =>
    have hx := hxs x List.mem_cons_self
    have hhead := hx.head_le
    have hle := le_align (bytes x).length
    rw [encodeRecords_cons] at hbuff ⊢
    rw [List.length_take, List.length_append, length_padded, records_eq]
    by_cases hfit : (bytes x).length ≤ room
    · -- the record is whole
      have hhere : buff = a ++ bytes x ++
          ((List.replicate (align (bytes x).length - (bytes x).length) 0 ++ encodeRecords (xs.map bytes)).take
            (room - (bytes x).length) ++ tail) := by
        rw [hbuff]
        unfold padded
        rw [List.append_assoc (bytes x), List.take_append, List.take_of_length_le hfit]
        simp only [List.append_assoc]
      have hrest : (f.records buff (a.length + align (bytes x).length)
          ((min room (align (bytes x).length + (encodeRecords (xs.map bytes)).length) : ℕ) - align (bytes x).length : ℤ)).mapM
            (fun r => h r.1 r.2) = some ((fitting (fun x => (bytes x).length) (room - align (bytes x).length) xs).map g) := by
        by_cases hpad : align (bytes x).length ≤ room
        · have hnext := @ih (a ++ padded (bytes x)) (room - align (bytes x).length)
            (fun y hy => hxs y (List.mem_cons_of_mem _ hy))
            (by rw [hbuff, List.take_append, List.take_of_length_le (by rw [length_padded]; exact hpad), length_padded]
                simp only [List.append_assoc])
            (fun a y tail hy => hg a y tail (List.mem_cons_of_mem _ hy))
          rw [List.length_append, length_padded, List.length_take] at hnext
          rw [← hnext]
          congr 2
          omega
        · -- the padding is cut off
          rw [records_done (by omega), fitting_nil fun y hy => ?_]
          · rfl
          · have hy := (hxs y (List.mem_cons_of_mem _ hy)).head_le
            omega
      rw [sizeAt_record hx hhere (by omega)]
      simp only
      rw [List.mapM_cons, hg a x _ List.mem_cons_self hhere, hrest,
        fitting_cons (fun x => (bytes x).length) hfit]
      rfl
    · have hcut : buff = a ++ (bytes x).take room ++ tail := by
        rw [hbuff]
        unfold padded
        rw [List.append_assoc (bytes x), List.take_append_of_le_length (by omega)]
      have hnone : fitting (fun x => (bytes x).length) room (x :: xs) = [] := if_neg hfit
      rw [sizeAt_cut hx (by omega) hcut (by omega), hnone]
      rfl

theorem records_mapM {α β : Type} {bytes : α → List UInt8} {h : ℕ → ℕ → Option β} {g : α → β} {xs : List α} (a tail : List UInt8)
    (hxs : ∀ x ∈ xs, f.IsRecord (bytes x)) (hbuff : buff = a ++ encodeRecords (xs.map bytes) ++ tail)
    (hg : ∀ a x tail, x ∈ xs → buff = a ++ bytes x ++ tail → h a.length (bytes x).length = some (g x)) :
    (f.records buff a.length (encodeRecords (xs.map bytes)).length).mapM (fun r => h r.1 r.2) = some (xs.map g) := by
  have hcut := records_mapM_cut (h := h) a tail (encodeRecords (xs.map bytes)).length hxs
    (by rw [List.take_length]; exact hbuff) hg
  rwa [List.take_length, fitting_eq_self (Nat.le_refl _)] at hcut

end RecordFormat

end HookKernel.Lib
