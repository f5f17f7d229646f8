import HookKernel.Spec.SyscallHook

/-!
# Call sites

`get_api_call_addr` decodes a direct call with the displacement counted from the
address after the instruction, `set_call_addr` encodes one counted from the address
after the operand. The two agree.

* `findCall_spec`: the search finds the first call to the function, or none.
* `setCallAddr_calls`, `setCallAddr_back`: a call that is patched goes where it should,
  and patching it back restores the image.
* `call_site`: both, for whatever the search returns.
-/

namespace HookKernel

open Lib

variable {mem : Image} {api pos s t x : Addr}

/-- The instruction at `pos` is a direct call to `api`. -/
def CallsTo (mem : Image) (pos api : Addr) : Prop := mem pos = 0xe8 ∧ pos + 5 + callOffset mem (pos + 1) = api

instance (mem : Image) (pos api : Addr) : Decidable (CallsTo mem pos api) := inferInstanceAs (Decidable (_ ∧ _))

/-- A displacement of 32 bits. -/
def FitsInt32 (d : Addr) : Prop := -2 ^ 31 ≤ d.toInt ∧ d.toInt < 2 ^ 31

instance (d : Addr) : Decidable (FitsInt32 d) := inferInstanceAs (Decidable (_ ∧ _))

/-! ## The search -/

/-- One round of the loop. -/
theorem findCall_succ (mem : Image) (api pos : Addr) (range : ℕ) :
    findCall mem api (range + 1) pos = if CallsTo mem pos api then pos + 1 else findCall mem api range (pos + 1) := by
  rw [findCall]
  by_cases h1 : mem pos = 0xe8
  · rw [if_pos h1]
    by_cases h2 : pos + 5 + callOffset mem (pos + 1) = api
    · have hcall : CallsTo mem pos api := ⟨h1, h2⟩
      rw [if_pos h2, if_pos hcall]
    · have hcall : ¬ CallsTo mem pos api := fun h => h2 h.2
      rw [if_neg h2, if_neg hcall]
  · have hcall : ¬ CallsTo mem pos api := fun h => h1 h.1
    rw [if_neg h1, if_neg hcall]

theorem offset_succ (a : Addr) (i : ℕ) : a + 1 + BitVec.ofNat 64 i = a + BitVec.ofNat 64 (i + 1) := by
  rw [BitVec.add_assoc, BitVec.add_comm 1, BitVec.ofNat_add]
  rfl

/-- **The search finds the first call**, or none. -/
theorem findCall_spec (mem : Image) (api pos : Addr) (range : ℕ) :
    (∃ i < range, CallsTo mem (pos + BitVec.ofNat 64 i) api ∧
        (∀ j < i, ¬ CallsTo mem (pos + BitVec.ofNat 64 j) api) ∧
        findCall mem api range pos = pos + BitVec.ofNat 64 i + 1) ∨
      (∀ i < range, ¬ CallsTo mem (pos + BitVec.ofNat 64 i) api) ∧ findCall mem api range pos = 0 := by
  induction range generalizing pos with
  | zero => exact Or.inr ⟨fun i hi => by omega, rfl⟩
  | succ range ih =>
    rw [findCall_succ]
    by_cases hpos : CallsTo mem pos api
    · -- found in the first round
      rw [if_pos hpos]
      refine Or.inl ⟨0, by omega, ?_, fun j hj => by omega, ?_⟩
      · rw [BitVec.add_zero]
        exact hpos
      · rw [BitVec.add_zero]
    · rw [if_neg hpos]
      -- a first match from `pos + 1` on is one from `pos` on, one further
      have hfirst : ∀ n : ℕ, (∀ j < n, ¬ CallsTo mem (pos + 1 + BitVec.ofNat 64 j) api) →
          ∀ j < n + 1, ¬ CallsTo mem (pos + BitVec.ofNat 64 j) api := by
        intro n hn j hj
        cases j with
        | zero =>
          rw [BitVec.add_zero]
          exact hpos
        | succ j =>
          rw [← offset_succ]
          exact hn j (by omega)
      rcases ih (pos + 1) with ⟨i, hi, hcall, hleast, heq⟩ | ⟨hnone, heq⟩
      · refine Or.inl ⟨i + 1, by omega, ?_, hfirst i hleast, ?_⟩
        · rw [← offset_succ]
          exact hcall
        · rw [heq, offset_succ]
      · exact Or.inr ⟨hfirst range hnone, heq⟩

/-! ## The patch -/

/-- Truncating to 32 bits loses nothing that fits. -/
theorem signExtend_setWidth {d : Addr} (h : FitsInt32 d) : (d.setWidth 32).signExtend 64 = d := by
  apply BitVec.eq_of_toInt_eq
  obtain ⟨h1, h2⟩ := h
  rw [BitVec.toInt_signExtend_of_le (by omega), BitVec.toInt_setWidth]
  rw [BitVec.toInt_eq_toNat_cond] at h1 h2 ⊢
  rw [Int.bmod_def]
  -- between `-2^31` and `2^31` the remainder modulo `2^32` determines `d`
  have := d.isLt
  omega

theorem setWidth_signExtend (d : BitVec 32) : (d.signExtend 64).setWidth 32 = d := by
  apply BitVec.eq_of_getLsbD_eq
  intro i hi
  have h64 : i < 64 := by omega
  rw [BitVec.getLsbD_setWidth, BitVec.getLsbD_signExtend, if_pos hi]
  simp [hi, h64]

/-- What is stored at a call to `api` is what `set_call_addr` stores for `api`. -/
theorem CallsTo.offset (h : CallsTo mem pos api) : newOffset (pos + 1) api = readLE mem 4 (pos + 1) := by
  have hd : api - (pos + 1) - 4 = callOffset mem (pos + 1) := by
    rw [← h.2]
    bv_omega
  unfold newOffset
  rw [hd]
  exact setWidth_signExtend _

/-- **A patched call** goes to the new target, if its distance fits. -/
theorem setCallAddr_calls (h : mem pos = 0xe8) (hfit : FitsInt32 (t - (pos + 1) - 4)) :
    CallsTo (setCallAddr mem (pos + 1) t) pos t := by
  -- the opcode is in front of the operand
  have hout : ¬ InRange (pos + 1) 4 pos := by
    unfold InRange
    bv_omega
  have hoff : callOffset (setCallAddr mem (pos + 1) t) (pos + 1) = t - (pos + 1) - 4 := by
    unfold callOffset setCallAddr
    rw [readLE_writeLE (by omega)]
    exact signExtend_setWidth hfit
  refine ⟨?_, ?_⟩
  · unfold setCallAddr
    rw [writeLE_of_not_mem hout]
    exact h
  · rw [hoff]
    bv_omega

/-- **Patching back** restores the image. -/
theorem setCallAddr_back (h : CallsTo mem pos api) (t : Addr) :
    setCallAddr (setCallAddr mem (pos + 1) t) (pos + 1) api = mem := by
  unfold setCallAddr
  rw [writeLE_writeLE, h.offset, writeLE_readLE]

/-! ## Both -/

/-- **What can be done at a site** of a call to `api`, for every target: if its distance fits, the
call goes there; only the four bytes of the operand change; and patching back restores the
image. -/
def IsSite (mem : Image) (s api : Addr) : Prop :=
  ∀ t, (FitsInt32 (t - s - 4) → CallsTo (setCallAddr mem s t) (s - 1) t) ∧
    (∀ x, ¬ InRange s 4 x → setCallAddr mem s t x = mem x) ∧ setCallAddr (setCallAddr mem s t) s api = mem

theorem CallsTo.isSite (h : CallsTo mem pos api) : IsSite mem (pos + 1) api := by
  intro t
  refine ⟨fun hfit => ?_, fun x hx => writeLE_of_not_mem hx, setCallAddr_back h t⟩
  rw [BitVec.add_sub_cancel]
  exact setCallAddr_calls h.1 hfit

/-- **Search and patch agree.** For every image, function, callee and range, the search returns the
operand of the first call to the callee, at which calls can be patched and patched back, or 0 if
there is none. -/
theorem call_site (mem : Image) (parent api : Addr) (range : ℤ) :
    (∃ i < range.toNat, CallsTo mem (parent + BitVec.ofNat 64 i) api ∧
        (∀ j < i, ¬ CallsTo mem (parent + BitVec.ofNat 64 j) api) ∧
        getApiCallAddr mem parent api range = parent + BitVec.ofNat 64 i + 1 ∧
        IsSite mem (getApiCallAddr mem parent api range) api) ∨
      (∀ i < range.toNat, ¬ CallsTo mem (parent + BitVec.ofNat 64 i) api) ∧
        getApiCallAddr mem parent api range = 0 := by
  unfold getApiCallAddr
  rcases findCall_spec mem api parent range.toNat with ⟨i, hi, hcall, hleast, heq⟩ | hnone
  · refine Or.inl ⟨i, hi, hcall, hleast, heq, ?_⟩
    rw [heq]
    exact hcall.isSite
  · exact Or.inr hnone

end HookKernel
