import Mathlib.Algebra.Group.Nat.Defs

/-!
# Byte-addressed memory

A memory image maps every 64-bit address to a byte; addresses wrap around. `readLE`
and `writeLE` move `n` bytes as one little-endian number.

* `readLE_writeLE`, `writeLE_readLE`, `writeLE_writeLE`: a number written is read back,
  writing what is there changes nothing, and the last write counts.
* `writeLE_of_not_mem`, `readLE_writeLE_of_apart`: the bytes outside are unchanged.
-/

namespace HookKernel.Lib

abbrev Addr := BitVec 64

abbrev Image := Addr → BitVec 8

/-- Address `x` is one of the `n` bytes from `a` on. -/
def InRange (a : Addr) (n : ℕ) (x : Addr) : Prop := (x - a).toNat < n

instance (a : Addr) (n : ℕ) (x : Addr) : Decidable (InRange a n x) := inferInstanceAs (Decidable (_ < _))

/-- The number in the `n` bytes from `a` on. -/
def readLE (mem : Image) : (n : ℕ) → Addr → BitVec (8 * n)
  | 0, _ => 0#0
  | n + 1, a => (readLE mem n (a + 1) ++ mem a).cast (by omega)

/-- Store a number in the `n` bytes from `a` on. -/
def writeLE (mem : Image) (n : ℕ) (a : Addr) (v : BitVec (8 * n)) : Image := fun x =>
  if InRange a n x then v.extractLsb' (8 * (x - a).toNat) 8 else mem x

/-- The two places have no byte in common. -/
def Apart (a : Addr) (n : ℕ) (b : Addr) (m : ℕ) : Prop := ∀ x, InRange a n x → ¬ InRange b m x

variable {mem mem' : Image} {a b x : Addr} {n m : ℕ} {v w : BitVec (8 * n)}

/-! ## Addresses -/

theorem eq_offset (a x : Addr) : x = a + BitVec.ofNat 64 (x - a).toNat := by
  rw [BitVec.ofNat_toNat, BitVec.setWidth_eq, BitVec.add_comm, BitVec.sub_add_cancel]

theorem inRange_iff : InRange a n x ↔ ∃ i < n, x = a + BitVec.ofNat 64 i := by
  unfold InRange
  constructor
  · intro h
    exact ⟨(x - a).toNat, h, eq_offset a x⟩
  · rintro ⟨i, hi, rfl⟩
    rw [BitVec.add_comm, BitVec.add_sub_cancel, BitVec.toNat_ofNat]
    exact Nat.lt_of_le_of_lt (Nat.mod_le _ _) hi

theorem offset_sub {i : ℕ} (h : i < 2 ^ 64) : (a + BitVec.ofNat 64 i - a).toNat = i := by
  rw [BitVec.add_comm, BitVec.add_sub_cancel, BitVec.toNat_ofNat, Nat.mod_eq_of_lt h]

theorem Apart.symm (h : Apart a n b m) : Apart b m a n := fun x hb ha => h x ha hb

/-- One place after the other. -/
theorem apart_of_le (hab : a.toNat + n ≤ b.toNat) (hb : b.toNat + m ≤ 2 ^ 64) : Apart a n b m := by
  intro x hx hx'
  unfold InRange at hx hx'
  rw [BitVec.toNat_sub] at hx hx'
  have := x.isLt
  omega

/-! ## Bits -/

theorem getLsbD_readLE (mem : Image) (n : ℕ) (a : Addr) (i : ℕ) :
    (readLE mem n a).getLsbD i = (decide (i < 8 * n) && (mem (a + BitVec.ofNat 64 (i / 8))).getLsbD (i % 8)) := by
  induction n generalizing a i with
  | zero => simp [readLE]
  | succ n ih =>
    rw [readLE, BitVec.getLsbD_cast, BitVec.getLsbD_append]
    by_cases hi : i < 8
    · have h0 : i / 8 = 0 := by omega
      have h1 : i % 8 = i := by omega
      have h2 : i < 8 * (n + 1) := by omega
      simp [hi, h0, h1, h2]
    · -- the byte after the first
      have h1 : a + 1 + BitVec.ofNat 64 ((i - 8) / 8) = a + BitVec.ofNat 64 (i / 8) := by
        rw [BitVec.add_assoc]
        congr 1
        apply BitVec.eq_of_toNat_eq
        rw [BitVec.toNat_add, BitVec.toNat_ofNat, BitVec.toNat_ofNat]
        have hdiv : i / 8 = (i - 8) / 8 + 1 := by omega
        have hone : (1 : Addr).toNat = 1 := rfl
        rw [hdiv, hone]
        omega
      have h2 : (i - 8) % 8 = i % 8 := by omega
      have h3 : i - 8 < 8 * n ↔ i < 8 * (n + 1) := by omega
      rw [ih, h1, h2]
      simp [hi, h3]

theorem getLsbD_writeLE {j : ℕ} (hj : j < 8) :
    (writeLE mem n a v x).getLsbD j =
      if InRange a n x then v.getLsbD (8 * (x - a).toNat + j) else (mem x).getLsbD j := by
  unfold writeLE
  split
  · simp [hj]
  · rfl

/-! ## Reads and writes -/

theorem writeLE_of_not_mem (h : ¬ InRange a n x) : writeLE mem n a v x = mem x := if_neg h

/-- **A number written is read back.** -/
theorem readLE_writeLE (hn : n < 2 ^ 61) : readLE (writeLE mem n a v) n a = v := by
  apply BitVec.eq_of_getLsbD_eq
  intro i hi
  have hlt : i / 8 < n := by omega
  have hoff : (a + BitVec.ofNat 64 (i / 8) - a).toNat = i / 8 := offset_sub (by omega)
  have hin : InRange a n (a + BitVec.ofNat 64 (i / 8)) := inRange_iff.2 ⟨i / 8, hlt, rfl⟩
  rw [getLsbD_readLE, getLsbD_writeLE (by omega), if_pos hin, hoff, Nat.div_add_mod]
  simp [hi]

/-- **Writing what is there** changes nothing. -/
theorem writeLE_readLE : writeLE mem n a (readLE mem n a) = mem := by
  funext x
  apply BitVec.eq_of_getLsbD_eq
  intro j hj
  rw [getLsbD_writeLE hj]
  split
  · rename_i hin
    have hlt : (x - a).toNat < n := hin
    have h1 : (8 * (x - a).toNat + j) / 8 = (x - a).toNat := by omega
    have h2 : (8 * (x - a).toNat + j) % 8 = j := by omega
    have h3 : 8 * (x - a).toNat + j < 8 * n := by omega
    rw [getLsbD_readLE, h1, h2, ← eq_offset, decide_eq_true h3, Bool.true_and]
  · rfl

/-- **The last write counts.** -/
theorem writeLE_writeLE : writeLE (writeLE mem n a v) n a w = writeLE mem n a w := by
  funext x
  unfold writeLE
  split <;> rfl

theorem readLE_congr (h : ∀ x, InRange a n x → mem' x = mem x) : readLE mem' n a = readLE mem n a := by
  apply BitVec.eq_of_getLsbD_eq
  intro i hi
  rw [getLsbD_readLE, getLsbD_readLE, h _ (inRange_iff.2 ⟨i / 8, by omega, rfl⟩)]

/-- The bytes are those of the number. -/
theorem byte_of_readLE (h : readLE mem' n a = readLE mem n a) (hx : InRange a n x) : mem' x = mem x := by
  have h' : writeLE mem n a (readLE mem' n a) x = mem' x := by
    have hself : writeLE mem' n a (readLE mem' n a) x = mem' x := congrFun writeLE_readLE x
    unfold writeLE at hself ⊢
    rw [if_pos hx] at hself ⊢
    exact hself
  rw [← h', h, writeLE_readLE]

/-- **A write elsewhere** is not seen. -/
theorem readLE_writeLE_of_apart (h : Apart a n b m) : readLE (writeLE mem n a v) m b = readLE mem m b :=
  readLE_congr fun x hx => writeLE_of_not_mem fun hx' => h x hx' hx

end HookKernel.Lib
