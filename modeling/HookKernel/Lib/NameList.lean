import Mathlib.Data.List.Flatten
import Mathlib.Data.List.TakeWhile
import Mathlib.Data.Nat.Notation

/-!
# Lists of terminated names in a buffer

A buffer holds a list of names, each followed by a terminator, in its first `len`
cells; whatever lies after them is left over. A producer appends a name at `len`
(`Lists.append`) or takes the last one back (`Lists.dropLast`); a consumer reads
the first name with `cstr` and moves the rest to the front with `forward`.

* `Lists.visits`: the consumer visits exactly the names of a nonempty list, in order.
* `visits_stale`: on a list that has become empty it still visits what is left over
  at the front.
-/

namespace HookKernel.Lib

variable {B : Type*} {nul : B → Bool} {t : B}

/-- The cells before the first terminator. -/
def cstr (nul : B → Bool) (l : List B) : List B := l.takeWhile fun b => !nul b

/-- Store `bs` at offset `off`. -/
def overwrite (l : List B) (off : ℕ) (bs : List B) : List B :=
  l.take off ++ bs ++ l.drop (off + bs.length)

/-- The names, each with its terminator. -/
def encode (t : B) (ns : List (List B)) : List B := ns.flatMap (· ++ [t])

/-- The terminated names in a list of cells. -/
def decode (nul : B → Bool) : List B → List (List B)
  | [] => []
  | b :: l =>
    if nul b then [] :: decode nul l
    else match decode nul l with
      | [] => []
      | n :: ns => (b :: n) :: ns

/-- Drop the first name: move the rest to the front, or leave an empty list. -/
def forward (nul : B → Bool) (t : B) (l : List B) (len : ℕ) : List B × ℕ :=
  let k := (cstr nul l).length + 1
  if k < len then (overwrite l 0 ((l.drop k).take (len - k)), len - k)
  else (overwrite l 0 [t], 0)

/-- The names a consumer visits that stops at an empty first name. -/
def visits (nul : B → Bool) (t : B) : ℕ → List B → ℕ → List (List B)
  | 0, _, _ => []
  | fuel + 1, l, len =>
    if cstr nul l = [] then []
    else cstr nul l :: visits nul t fuel (forward nul t l len).1 (forward nul t l len).2

/-- A name without a terminator in it, and not empty. -/
def IsName (nul : B → Bool) (n : List B) : Prop := n ≠ [] ∧ ∀ b ∈ n, nul b = false

/-- The first `len` cells of `l` are the names `ns`. -/
structure Lists (nul : B → Bool) (t : B) (l : List B) (len : ℕ) (ns : List (List B)) : Prop where
  len_eq : len = (encode t ns).length
  take_eq : l.take len = encode t ns
  name : ∀ n ∈ ns, IsName nul n

@[simp] theorem encode_nil : encode t [] = [] := rfl

@[simp] theorem encode_cons (n : List B) (ns : List (List B)) :
    encode t (n :: ns) = n ++ t :: encode t ns := by
  simp [encode]

theorem encode_concat (ns : List (List B)) (n : List B) :
    encode t (ns ++ [n]) = encode t ns ++ (n ++ [t]) := by
  simp [encode]

/-- **Decoding gives the names back.** -/
theorem decode_encode (ht : nul t = true) {ns : List (List B)} (h : ∀ n ∈ ns, ∀ b ∈ n, nul b = false) :
    decode nul (encode t ns) = ns := by
  have hone : ∀ (n : List B) (rest : List B), (∀ b ∈ n, nul b = false) →
      decode nul (n ++ t :: rest) = n :: decode nul rest := by
    intro n rest
    induction n with
    | nil => intro _; simp [decode, ht]
    | cons b n ih =>
      intro hn
      have h1 := ih fun x hx => hn x (List.mem_cons_of_mem _ hx)
      simp only [List.cons_append, decode, hn b List.mem_cons_self, h1]
      simp
  induction ns with
  | nil => rfl
  | cons n ns ih =>
    rw [encode_cons, hone n _ (h n List.mem_cons_self), ih fun m hm => h m (List.mem_cons_of_mem _ hm)]

theorem length_overwrite {l bs : List B} {off : ℕ} (h : off + bs.length ≤ l.length) :
    (overwrite l off bs).length = l.length := by
  simp only [overwrite, List.length_append, List.length_take, List.length_drop]
  omega

/-- What was stored can be read back, after what stood before it. -/
theorem take_overwrite {l bs : List B} {off : ℕ} (h : off + bs.length ≤ l.length) :
    (overwrite l off bs).take (off + bs.length) = l.take off ++ bs := by
  have hlen : (l.take off ++ bs).length = off + bs.length := by
    simp only [List.length_append, List.length_take]
    omega
  rw [overwrite, ← hlen, List.take_left]

/-- What lies behind the stored cells is left alone. -/
theorem getElem?_overwrite {l bs : List B} {off i : ℕ} (h : off + bs.length ≤ i) (hfit : off + bs.length ≤ l.length) :
    (overwrite l off bs)[i]? = l[i]? := by
  have hlen : (l.take off ++ bs).length = off + bs.length := by
    simp only [List.length_append, List.length_take]
    omega
  rw [overwrite, List.getElem?_append_right (by omega), List.getElem?_drop, hlen]
  congr 1
  omega

theorem cstr_append {n rest : List B} (hn : ∀ b ∈ n, nul b = false) (ht : nul t = true) :
    cstr nul (n ++ t :: rest) = n := by
  rw [cstr, List.takeWhile_append_of_pos (by simpa using hn)]
  simp [ht]

theorem cstr_terminated (ht : nul t = true) (l : List B) : cstr nul (t :: l) = [] := by
  simp [cstr, ht]

namespace Lists

variable {l : List B} {len : ℕ} {n : List B} {ns : List (List B)}

theorem split (h : Lists nul t l len ns) : ∃ rest, l = encode t ns ++ rest :=
  ⟨l.drop len, by rw [← h.take_eq, List.take_append_drop]⟩

/-- The first `len` cells determine the names. -/
theorem decode_eq (h : Lists nul t l len ns) (ht : nul t = true) : decode nul (l.take len) = ns := by
  rw [h.take_eq]
  exact decode_encode ht fun n hn => (h.name n hn).2

theorem len_le (h : Lists nul t l len ns) : len ≤ l.length := by
  have h1 := congrArg List.length h.take_eq
  rw [List.length_take, ← h.len_eq] at h1
  omega

/-- The first name of a list. -/
theorem cstr_eq (h : Lists nul t l len (n :: ns)) (ht : nul t = true) : cstr nul l = n := by
  obtain ⟨rest, hl⟩ := h.split
  rw [hl, encode_cons, List.append_assoc, List.cons_append]
  exact cstr_append (h.name n (by simp)).2 ht

/-- **Appending a name** at the end of the list. -/
theorem append (h : Lists nul t l len ns) (hn : IsName nul n)
    (hfit : len + (n ++ [t]).length ≤ l.length) :
    Lists nul t (overwrite l len (n ++ [t])) (len + (n.length + 1)) (ns ++ [n]) := by
  refine ⟨?_, ?_, ?_⟩
  · rw [encode_concat, List.length_append, ← h.len_eq]
    simp
  · have h1 := take_overwrite hfit
    rw [List.length_append, List.length_singleton] at h1
    rw [h1, h.take_eq, encode_concat]
  · intro m hm
    rcases List.mem_append.1 hm with hm | hm
    · exact h.name m hm
    · rw [List.mem_singleton.1 hm]; exact hn

/-- **Taking the last name back.** -/
theorem dropLast (h : Lists nul t l len (ns ++ [n])) :
    n.length + 1 ≤ len ∧ Lists nul t l (len - (n.length + 1)) ns := by
  have hlen : len = (encode t ns).length + (n.length + 1) := by
    rw [h.len_eq, encode_concat]
    simp
  refine ⟨by omega, by omega, ?_, fun m hm => h.name m (List.mem_append_left _ hm)⟩
  obtain ⟨rest, hl⟩ := h.split
  have hk : len - (n.length + 1) = (encode t ns).length := by omega
  rw [hl, encode_concat, List.append_assoc, hk, List.take_left]

/-- **Dropping the first name** of two or more. -/
theorem forward (h : Lists nul t l len (n :: ns)) (hns : ns ≠ []) (ht : nul t = true) :
    Lists nul t (forward nul t l len).1 (forward nul t l len).2 ns := by
  have hc := h.cstr_eq ht
  obtain ⟨rest, hl⟩ := h.split
  have hlen : len = n.length + 1 + (encode t ns).length := by
    rw [h.len_eq, encode_cons]
    simp
    omega
  have hpos : 0 < (encode t ns).length := by
    cases ns with
    | nil => exact absurd rfl hns
    | cons m ms => simp only [encode_cons, List.length_append, List.length_cons]; omega
  have hrest : (l.drop (n.length + 1)).take (len - (n.length + 1)) = encode t ns := by
    have h1 : l = (n ++ [t]) ++ (encode t ns ++ rest) := by rw [hl, encode_cons]; simp
    have h2 : (n ++ [t]).length = n.length + 1 := by simp
    rw [h1, ← h2, List.drop_left, h2, show len - (n.length + 1) = (encode t ns).length by omega,
      List.take_left]
  unfold Lib.forward
  rw [hc]
  simp only [show n.length + 1 < len by omega, if_true, hrest]
  have hfit : 0 + (encode t ns).length ≤ l.length := by have := h.len_le; omega
  refine ⟨by omega, ?_, fun m hm => h.name m (List.mem_cons_of_mem _ hm)⟩
  rw [show len - (n.length + 1) = 0 + (encode t ns).length by omega, take_overwrite hfit]
  simp

/-- Dropping the only name leaves an empty first name. -/
theorem forward_single (h : Lists nul t l len [n]) (ht : nul t = true) :
    (Lib.forward nul t l len).2 = 0 ∧ cstr nul (Lib.forward nul t l len).1 = [] := by
  have hlen : len = n.length + 1 := by rw [h.len_eq]; simp
  unfold Lib.forward
  rw [h.cstr_eq ht]
  simp only [show ¬ n.length + 1 < len by omega, if_false]
  exact ⟨trivial, cstr_terminated ht _⟩

/-- **The consumer visits the names of the list, in order.** -/
theorem visits : ∀ {ns : List (List B)} {l : List B} {len fuel : ℕ}, Lists nul t l len ns →
    ns ≠ [] → nul t = true → ns.length < fuel → visits nul t fuel l len = ns := by
  intro ns
  induction ns with
  | nil => intro _ _ _ _ h; exact absurd rfl h
  | cons n ns ih =>
    intro l len fuel h _ ht hf
    obtain ⟨fuel, rfl⟩ : ∃ k, fuel = k + 1 := ⟨fuel - 1, by omega⟩
    have hne : n ≠ [] := (h.name n (by simp)).1
    rw [Lib.visits, h.cstr_eq ht, if_neg hne]
    congr 1
    cases ns with
    | nil =>
      obtain ⟨fuel, rfl⟩ : ∃ k, fuel = k + 1 := ⟨fuel - 1, by simp at hf; omega⟩
      rw [Lib.visits, if_pos (h.forward_single ht).2]
    | cons m ms =>
      exact ih (h.forward (by simp) ht) (by simp) ht (by simpa using hf)

theorem length_le (h : Lists nul t l len ns) : ns.length ≤ l.length := by
  have h1 : ∀ ms : List (List B), ms.length ≤ (encode t ms).length := by
    intro ms
    induction ms with
    | nil => simp
    | cons m ms ih => simp only [encode_cons, List.length_append, List.length_cons]; omega
  have := h1 ns
  have := h.len_le
  have := h.len_eq
  omega

end Lists

/-- **A list that has become empty** is still visited at what is left over in front. -/
theorem visits_stale (ht : nul t = true) (l : List B) (fuel : ℕ) :
    visits nul t (fuel + 2) l 0 = if cstr nul l = [] then [] else [cstr nul l] := by
  have h1 : cstr nul (forward nul t l 0).1 = [] := by
    simp only [forward, show ¬ (cstr nul l).length + 1 < 0 by omega, if_false]
    exact cstr_terminated ht _
  rw [visits]
  split
  · rfl
  · rw [visits, if_pos h1]

end HookKernel.Lib
