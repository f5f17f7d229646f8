import HookKernel.Spec.Message

/-!
# Name lists in messages

`m.Lists ns`: the message `m` is a name list whose first `len` bytes are the names
`ns`, each a C string.

* `store_cases`, `messageNew_cases`: what the operations on a message leave.
* `Message.Lists.filenames`: the consumer loop visits exactly `ns`.
* `Message.Lists.filenames_empty`: a list emptied by taking names back is still
  visited at the stale first name.
* `Message.Lists.append`, `Message.Lists.dropLast`, `Message.Lists.forward`: the
  three edits.
-/

namespace HookKernel

open Lib

/-! ## The operations on a message -/

/-- A store that stays inside changes the bytes only. -/
theorem store_cases {m m' : Message} {off : ℤ} {bs : List Cell} (h : m.store off bs = some m') :
    0 ≤ off ∧ off + bs.length ≤ m.data.length ∧ m' = { m with data := overwrite m.data off.toNat bs } := by
  unfold Message.store at h
  split at h
  · rename_i hfit
    exact ⟨hfit.1, hfit.2, (Option.some.inj h).symm⟩
  · cases h

theorem store_fits {m : Message} {off : ℤ} {bs : List Cell} (h0 : 0 ≤ off) (hfit : off + bs.length ≤ m.data.length) :
    m.store off bs = some { m with data := overwrite m.data off.toNat bs } :=
  if_pos ⟨h0, hfit⟩

/-- A fresh message. -/
theorem messageNew_cases {addr : ℕ} {cap : ℤ} {m : Message} (h : messageNew addr cap = some m) :
    0 ≤ cap ∧ m = ⟨addr, 0, 0, cap, List.replicate cap.toNat (.text 0)⟩ := by
  unfold messageNew at h
  split at h
  · cases h
  · rename_i hcap
    exact ⟨Int.not_lt.1 hcap, (Option.some.inj h).symm⟩

/-- `MESSAGE_BZERO` keeps the allocation. -/
theorem length_bzero (m : Message) : m.bzero.data.length = m.data.length := by
  unfold Message.bzero
  simp only [List.length_append, List.length_replicate, List.length_drop]
  omega

/-! ## Name lists -/

/-- The message is a list of the names `ns`. -/
structure Message.Lists (m : Message) (ns : List Name) : Prop where
  type_eq : m.type = 1
  len_nonneg : 0 ≤ m.len
  lists : Lib.Lists Cell.nul (.text 0) m.data m.len.toNat (ns.map fun n => n.map .text)

@[simp] theorem nul_text_zero : Cell.nul (.text 0) = true := rfl

@[simp] theorem map_val_text (n : Name) : (n.map Cell.text).map Cell.val = n := by
  have h : Cell.val ∘ Cell.text = id := rfl
  rw [List.map_map, h, List.map_id]

theorem isName_map_text {n : Name} (h : IsName (· == 0) n) : IsName Cell.nul (n.map Cell.text) := by
  refine ⟨by simpa using h.1, ?_⟩
  intro b hb
  obtain ⟨x, hx, rfl⟩ := List.mem_map.1 hb
  exact h.2 x hx

/-- `messge_filename_forward` on a name list moves the names forward. -/
theorem forward_eq {m : Message} (ht : m.type = 1) (hl : 0 ≤ m.len) :
    (messgeFilenameForward m).type = 1 ∧ 0 ≤ (messgeFilenameForward m).len ∧
      ((messgeFilenameForward m).data, (messgeFilenameForward m).len.toNat) =
        Lib.forward Cell.nul (.text 0) m.data m.len.toNat := by
  have hk : m.filename.length = (cstr Cell.nul m.data).length := List.length_map _
  unfold messgeFilenameForward Lib.forward
  simp only [ht, if_true, hk]
  by_cases h : m.len > ((cstr Cell.nul m.data).length : ℤ) + 1
  · have h' : (cstr Cell.nul m.data).length + 1 < m.len.toNat := by omega
    have e1 : (m.len - (cstr Cell.nul m.data).length - 1).toNat =
        m.len.toNat - ((cstr Cell.nul m.data).length + 1) := by omega
    have e2 : (m.len - ((cstr Cell.nul m.data).length + 1)).toNat =
        m.len.toNat - ((cstr Cell.nul m.data).length + 1) := by omega
    rw [if_pos h, if_pos h']
    refine ⟨rfl, by simp only; omega, ?_⟩
    simp only [e1, e2]
  · have h' : ¬ (cstr Cell.nul m.data).length + 1 < m.len.toNat := by omega
    rw [if_neg h, if_neg h']
    exact ⟨rfl, Int.le_refl 0, rfl⟩

theorem visited_eq : ∀ (fuel : ℕ) {m : Message}, m.type = 1 → 0 ≤ m.len →
    m.visited fuel = (visits Cell.nul (.text 0) fuel m.data m.len.toNat).map fun n => n.map Cell.val := by
  intro fuel
  induction fuel with
  | zero => intro m _ _; rfl
  | succ fuel ih =>
    intro m ht hl
    obtain ⟨ht', hl', hf⟩ := forward_eq ht hl
    have hih := ih ht' hl'
    rw [Message.visited, visits, hih, ← hf]
    unfold Message.filename
    by_cases h : cstr Cell.nul m.data = []
    · simp [h]
    · simp [h]

namespace Message.Lists

variable {m : Message} {n : Name} {ns : List Name}

theorem bytes (h : m.Lists ns) : m.bytes = encodeNames ns := h.lists.take_eq

theorem listed (h : m.Lists ns) : m.listed = ns := by
  unfold Message.listed Message.bytes
  rw [h.lists.decode_eq nul_text_zero, List.map_map]
  have hid : (fun n : List Cell => n.map Cell.val) ∘ (fun n : Name => n.map Cell.text) = id := by
    funext n
    exact map_val_text n
  rw [hid, List.map_id]

theorem filename (h : m.Lists (n :: ns)) : m.filename = n := by
  unfold Message.filename
  rw [h.lists.cstr_eq nul_text_zero, map_val_text]

/-- **The consumer visits exactly the names of the list.** -/
theorem filenames (h : m.Lists ns) (hne : ns ≠ []) : m.filenames = ns := by
  have hlen := h.lists.length_le
  unfold Message.filenames
  rw [visited_eq _ h.type_eq h.len_nonneg, h.lists.visits (by simpa using hne) nul_text_zero (by omega),
    List.map_map]
  have hid : (fun n : List Cell => n.map Cell.val) ∘ (fun n : Name => n.map Cell.text) = id := by
    funext n
    exact map_val_text n
  rw [hid, List.map_id]

/-- **An emptied list** is visited at the name that was left at the front. -/
theorem filenames_empty (h : m.Lists []) :
    m.filenames = if m.filename = [] then [] else [m.filename] := by
  have h0 : m.len.toNat = 0 := by simpa using h.lists.len_eq
  unfold Message.filenames
  rw [visited_eq _ h.type_eq h.len_nonneg, h0, visits_stale nul_text_zero]
  unfold Message.filename
  by_cases hc : cstr Cell.nul m.data = []
  · simp [hc]
  · simp [hc]

/-- The name list with one more name. -/
theorem append (h : m.Lists ns) (hn : IsName (· == 0) n) {m' : Message}
    (hs : m.store m.len (n.map .text ++ [.text 0]) = some m') :
    Message.Lists { m' with len := m'.len + (n.length + 1) } (ns ++ [n]) := by
  obtain ⟨hl, hfit, rfl⟩ := store_cases hs
  have hfit' : m.len.toNat + ((n.map Cell.text) ++ [Cell.text 0]).length ≤ m.data.length := by omega
  have h1 := h.lists.append (isName_map_text hn) hfit'
  refine ⟨h.type_eq, by simp only; omega, ?_⟩
  have e : (m.len + ((n.length : ℤ) + 1)).toNat = m.len.toNat + ((n.map Cell.text).length + 1) := by
    rw [List.length_map]
    omega
  simp only [e, List.map_append, List.map_cons, List.map_nil]
  exact h1

/-- The name list without its last name. -/
theorem dropLast (h : m.Lists (ns ++ [n])) :
    Message.Lists { m with len := m.len - (n.length + 1) } ns := by
  have hl := h.lists
  rw [List.map_append, List.map_cons, List.map_nil] at hl
  obtain ⟨hle, h1⟩ := hl.dropLast
  rw [List.length_map] at hle h1
  have h0 := h.len_nonneg
  refine ⟨h.type_eq, by simp only; omega, ?_⟩
  have e : (m.len - ((n.length : ℤ) + 1)).toNat = m.len.toNat - (n.length + 1) := by omega
  simp only [e]
  exact h1

/-- `messge_filename_forward` with names left. -/
theorem forward (h : m.Lists (n :: ns)) (hns : ns ≠ []) : (messgeFilenameForward m).Lists ns := by
  obtain ⟨ht, hl, hf⟩ := forward_eq h.type_eq h.len_nonneg
  have h1 := h.lists.forward (by simpa using hns) nul_text_zero
  rw [← hf] at h1
  exact ⟨ht, hl, h1⟩

/-- `messge_filename_forward` at the last name. -/
theorem forward_single (h : m.Lists [n]) :
    (messgeFilenameForward m).Lists [] ∧ (messgeFilenameForward m).filename = [] := by
  obtain ⟨ht, hl, hf⟩ := forward_eq h.type_eq h.len_nonneg
  obtain ⟨h1, h2⟩ := h.lists.forward_single nul_text_zero
  rw [← hf] at h1 h2
  simp only at h1 h2
  have h0 : (messgeFilenameForward m).len.toNat = 0 := h1
  refine ⟨⟨ht, hl, ?_⟩, ?_⟩
  · refine ⟨by simp [h0], by simp [h0], by simp⟩
  · unfold Message.filename
    rw [h2]
    rfl

end Message.Lists

end HookKernel
