import HookKernel.Lib.NameList

/-!
# Records in a buffer that wraps

Records are appended at `e` and taken away at `s`. A record is never split: when `e` has
come past `lim`, its position is kept as the mark `x` and the next record goes to the
front. `x` is 0 as long as nothing has wrapped.

`WrapHolds lim buff s e x old new`: the records `old` lie from `s` on, up to `x` if the
buffer has wrapped, and `new` from the front on.

* `WrapHolds.put_flat`, `WrapHolds.put_wrap`: a record that fits into the room goes behind the others.
* `Claimed`: a reader has claimed the records in front, while others are appended.
* `WrapHolds.read`: what the reader finds in the pieces it claimed.
* `WrapHolds.release`: the records claimed are taken away.
-/

namespace HookKernel.Lib

variable {B : Type*} {l buff r : List B} {i j k off : ℕ}

/-! ## Slices -/

/-- The cells from `i` up to `j`. -/
def slice (l : List B) (i j : ℕ) : List B := (l.drop i).take (j - i)

@[simp] theorem slice_self (l : List B) (i : ℕ) : slice l i i = [] := by
  unfold slice
  rw [Nat.sub_self, List.take_zero]

theorem length_slice (hj : j ≤ l.length) : (slice l i j).length = j - i := by
  unfold slice
  rw [List.length_take, List.length_drop]
  omega

/-- Two slices next to each other. -/
theorem slice_append (hij : i ≤ j) (hjk : j ≤ k) : slice l i j ++ slice l j k = slice l i k := by
  unfold slice
  have hdrop : l.drop j = (l.drop i).drop (j - i) := by rw [List.drop_drop, Nat.add_sub_cancel' hij]
  have hlen : k - i = (j - i) + (k - j) := by omega
  rw [hdrop, hlen, List.take_add]

theorem getElem?_slice (hk : i + k < j) : (slice l i j)[k]? = l[i + k]? := by
  unfold slice
  rw [List.getElem?_take_of_lt (by omega), List.getElem?_drop]

theorem take_slice {p : ℕ} (hp : p ≤ j) : (slice l i j).take (p - i) = slice l i p := by
  unfold slice
  rw [List.take_take, Nat.min_eq_left (by omega)]

/-- What is behind the front of a slice. -/
theorem take_append_slice {p q : ℕ} (hip : i ≤ p) (hpq : p ≤ q) (hq : q ≤ j) :
    (slice l i j).take (p - i) ++ slice l p q = (slice l i j).take (q - i) := by
  rw [take_slice (by omega), take_slice hq, slice_append hip hpq]

theorem slice_congr {l' : List B} (h : ∀ k, i ≤ k → k < j → l'[k]? = l[k]?) :
    slice l' i j = slice l i j := by
  apply List.ext_getElem?
  intro k
  rcases Nat.lt_or_ge (i + k) j with hk | hk
  · rw [getElem?_slice hk, getElem?_slice hk]
    exact h (i + k) (by omega) hk
  · have hout : ∀ m : List B, (slice m i j)[k]? = none := by
      intro m
      refine List.getElem?_eq_none ?_
      unfold slice
      rw [List.length_take]
      omega
    rw [hout, hout]

theorem getElem?_overwrite_lt (hk : k < off) (hfit : off + r.length ≤ l.length) : (overwrite l off r)[k]? = l[k]? := by
  unfold overwrite
  rw [List.append_assoc, List.getElem?_append_left (by rw [List.length_take]; omega), List.getElem?_take_of_lt hk]

/-- Writing in front of a slice or behind it leaves the slice. -/
theorem slice_overwrite_apart (hfit : off + r.length ≤ l.length) (h : j ≤ off ∨ off + r.length ≤ i) :
    slice (overwrite l off r) i j = slice l i j := by
  refine slice_congr fun k h1 h2 => ?_
  rcases h with h | h
  · exact getElem?_overwrite_lt (by omega) hfit
  · exact getElem?_overwrite (by omega) hfit

/-- What has been written. -/
theorem slice_overwrite (hfit : off + r.length ≤ l.length) : slice (overwrite l off r) off (off + r.length) = r := by
  have hlen : (l.take off).length = off := List.length_take_of_le (by omega)
  have hdrop : (overwrite l off r).drop off = r ++ l.drop (off + r.length) := by
    unfold overwrite
    rw [List.append_assoc, List.drop_left' hlen]
  unfold slice
  rw [hdrop, Nat.add_sub_cancel_left, List.take_left]

/-- **Appending** to a slice. -/
theorem slice_put (hie : i ≤ off) (hfit : off + r.length ≤ l.length) :
    slice (overwrite l off r) i (off + r.length) = slice l i off ++ r := by
  rw [← slice_append hie (Nat.le_add_right _ _), slice_overwrite_apart hfit (Or.inl (Nat.le_refl _)), slice_overwrite hfit]

/-- The front of a slice, and what is left of it. -/
theorem slice_split {a b : List B} (h : slice l i j = a ++ b) (hij : i ≤ j) (hj : j ≤ l.length) :
    i + a.length ≤ j ∧ slice l i (i + a.length) = a ∧ slice l (i + a.length) j = b := by
  have hlen := congrArg List.length h
  rw [length_slice hj, List.length_append] at hlen
  have hle : i + a.length ≤ j := by omega
  rw [← slice_append (Nat.le_add_right i a.length) hle] at h
  have hfront : (slice l i (i + a.length)).length = a.length := by
    rw [length_slice (by omega), Nat.add_sub_cancel_left]
  exact ⟨hle, (List.append_inj h hfront).1, (List.append_inj h hfront).2⟩

/-! ## Records -/

/-- **The records in the buffer.** -/
inductive WrapHolds (lim : ℕ) (buff : List B) (s e : ℕ) : ℕ → List (List B) → List (List B) → Prop
  | flat {old : List (List B)} : s ≤ e → e ≤ lim → slice buff s e = old.flatten → WrapHolds lim buff s e 0 old []
  | wrap {x : ℕ} {old new : List (List B)} : lim < x → x ≤ buff.length → s ≤ lim → e < s ∨ e = 0 →
      slice buff s x = old.flatten → slice buff 0 e = new.flatten → WrapHolds lim buff s e x old new

variable {lim s e x stop : ℕ} {old new t m : List (List B)}

theorem wrapHolds_empty (lim : ℕ) (buff : List B) : WrapHolds lim buff 0 0 0 [] [] :=
  .flat (Nat.le_refl 0) (Nat.zero_le lim) (slice_self buff 0)

theorem WrapHolds.end_le (h : WrapHolds lim buff s e x old new) : s ≤ lim ∧ e ≤ lim := by
  cases h with
  | flat h1 h2 _ => exact ⟨by omega, h2⟩
  | wrap _ _ h3 h4 _ _ => exact ⟨h3, by omega⟩

/-- Where the marks can be. -/
theorem WrapHolds.shape (h : WrapHolds lim buff s e x old new) :
    x = 0 ∧ s ≤ e ∧ e ≤ lim ∨ lim < x ∧ x ≤ buff.length ∧ s ≤ lim ∧ (e < s ∨ e = 0) := by
  cases h with
  | flat h1 h2 _ => exact Or.inl ⟨rfl, h1, h2⟩
  | wrap h1 h2 h3 h4 _ _ => exact Or.inr ⟨h1, h2, h3, h4⟩

/-- The new end and the new mark, behind a record of `n` cells. -/
def advance (lim e x n : ℕ) : ℕ × ℕ := if lim < e + n then (0, e + n) else (e + n, x)

/-- **A record goes behind the others.** -/
theorem WrapHolds.put_flat (h : WrapHolds lim buff s e 0 old new) (hfit : e + r.length ≤ buff.length) :
    new = [] ∧ WrapHolds lim (overwrite buff e r) s (advance lim e 0 r.length).1 (advance lim e 0 r.length).2
      (old ++ [r]) [] := by
  have hflatten : (old ++ [r]).flatten = old.flatten ++ r := by rw [List.flatten_append, List.flatten_singleton]
  generalize hx : (0 : ℕ) = x at h
  cases h with
  | wrap h1 => omega
  | flat h1 h2 h3 =>
    refine ⟨rfl, ?_⟩
    unfold advance
    split
    · rename_i hover
      refine .wrap hover (by rw [length_overwrite hfit]; exact hfit) (by omega) (Or.inr rfl) ?_ (slice_self _ 0)
      rw [slice_put h1 hfit, h3, hflatten]
    · rename_i hno
      refine .flat (by omega) (by omega) ?_
      rw [slice_put h1 hfit, h3, hflatten]

/-- The same when the buffer has wrapped: the record ends in front of `s`. -/
theorem WrapHolds.put_wrap (h : WrapHolds lim buff s e x old new) (hx : 0 < x) (hroom : e + r.length < s) :
    advance lim e x r.length = (e + r.length, x) ∧
      WrapHolds lim (overwrite buff e r) s (e + r.length) x old (new ++ [r]) := by
  cases h with
  | flat => omega
  | wrap h1 h2 h3 _ h5 h6 =>
    have hfit : e + r.length ≤ buff.length := by omega
    refine ⟨if_neg (by omega), .wrap h1 ?_ h3 (Or.inl hroom) ?_ ?_⟩
    · rw [length_overwrite hfit]
      exact h2
    · rw [slice_overwrite_apart hfit (Or.inr (Nat.le_of_lt hroom)), h5]
    · rw [slice_put (Nat.zero_le e) hfit, h6, List.flatten_append, List.flatten_singleton]

/-! ## Claims -/

/-- A reader has claimed the records `taken` of those in the buffer: up to `stop`, without a wrap or with
one. The records `rest` came later. -/
inductive Claimed (lim s stop : ℕ) : Bool → ℕ → List (List B) → List (List B) → List (List B) → List (List B) → Prop
  | flat {x : ℕ} {t m new : List (List B)} : s < stop → stop ≤ lim → t.flatten.length = stop - s →
      Claimed lim s stop false x (t ++ m) new t (m ++ new)
  | wrap {x : ℕ} {old t m : List (List B)} : 0 < x → t.flatten.length = stop →
      Claimed lim s stop true x old (t ++ m) (old ++ t) m

variable {b : Bool} {taken rest : List (List B)}

theorem Claimed.split (h : Claimed lim s stop b x old new taken rest) : old ++ new = taken ++ rest := by
  cases h with
  | flat _ _ _ => rw [List.append_assoc]
  | wrap _ _ => rw [List.append_assoc]

/-- A claim with a wrap knows the mark. -/
theorem Claimed.marked (h : Claimed lim s stop b x old new taken rest) (hb : b = true) : 0 < x := by
  cases h with
  | flat _ _ _ => cases hb
  | wrap h1 _ => exact h1

/-- Everything is claimed. -/
theorem WrapHolds.claim (h : WrapHolds lim buff s e x old new) (hlim : lim ≤ buff.length) (hsome : e ≠ s ∨ 0 < x) :
    Claimed lim s e (decide (0 < x)) x old new (old ++ new) [] := by
  cases h with
  | flat h1 h2 h3 =>
    have hold : old.flatten.length = e - s := by rw [← h3, length_slice (by omega)]
    have hclaim : Claimed lim s e false 0 (old ++ []) [] old ([] ++ []) := .flat (by omega) h2 hold
    simpa using hclaim
  | @wrap x old new h1 h2 h3 h4 _ h6 =>
    have hnew : new.flatten.length = e := by
      rw [← h6, length_slice (by omega)]
      rfl
    have hclaim : Claimed lim s e true x old (new ++ []) (old ++ new) [] := .wrap (by omega) hnew
    rw [List.append_nil] at hclaim
    rw [decide_eq_true (show 0 < x by omega)]
    exact hclaim

/-- A record that is put behind the others comes later than the claim. -/
theorem Claimed.put_flat (h : Claimed lim s stop b 0 old [] taken rest) :
    ∀ x', Claimed lim s stop b x' (old ++ [r]) [] taken (rest ++ [r]) := by
  intro x'
  generalize hx : (0 : ℕ) = x at h
  generalize hnew : ([] : List (List B)) = new at h
  cases h with
  | @flat x t m new h1 h2 h3 =>
    subst hnew
    have hclaim : Claimed lim s stop false x' (taken ++ (m ++ [r])) [] taken ((m ++ [r]) ++ []) := .flat h1 h2 h3
    simpa using hclaim
  | wrap h1 _ => omega

theorem Claimed.put_wrap (h : Claimed lim s stop b x old new taken rest) :
    Claimed lim s stop b x old (new ++ [r]) taken (rest ++ [r]) := by
  cases h with
  | @flat x t m new h1 h2 h3 =>
    have hclaim : Claimed lim s stop false x (taken ++ m) (new ++ [r]) taken (m ++ (new ++ [r])) := .flat h1 h2 h3
    rw [← List.append_assoc] at hclaim
    exact hclaim
  | @wrap x old t m h1 h2 =>
    have hclaim : Claimed lim s stop true x old (t ++ (rest ++ [r])) (old ++ t) (rest ++ [r]) := .wrap h1 h2
    rw [← List.append_assoc] at hclaim
    exact hclaim

/-- **What a reader finds**: without a wrap everything from `s` to `stop`, else one piece up to the mark and
one from the front. -/
theorem WrapHolds.read (h : WrapHolds lim buff s e x old new) (hlim : lim ≤ buff.length)
    (hc : Claimed lim s stop b x old new taken rest) :
    b = false ∧ s ≤ stop ∧ stop ≤ lim ∧ slice buff s stop = taken.flatten ∨
      b = true ∧ lim < x ∧ x ≤ buff.length ∧ ∃ t, slice buff s x = old.flatten ∧ slice buff 0 stop = t.flatten ∧
        stop ≤ e ∧ taken = old ++ t := by
  cases hc with
  | @flat x t m new h1 h2 h3 =>
    have hstop : s + taken.flatten.length = stop := by omega
    have key : ∀ q, s ≤ q → q ≤ buff.length → slice buff s q = (taken ++ m).flatten →
        slice buff s stop = taken.flatten := by
      intro q hsq hq hs
      rw [List.flatten_append] at hs
      have hfront := (slice_split hs hsq hq).2.1
      rwa [hstop] at hfront
    refine Or.inl ⟨rfl, by omega, h2, ?_⟩
    cases h with
    | flat h4 h5 h6 => exact key e h4 (by omega) h6
    | wrap h4 h5 _ _ h6 _ => exact key x (by omega) h5 h6
  | @wrap x old t m h1 h2 =>
    generalize hnew : t ++ rest = new at h
    cases h with
    | flat => omega
    | wrap h4 h5 h6 h7 h8 h9 =>
      rw [← hnew, List.flatten_append] at h9
      obtain ⟨hle, hfront, -⟩ := slice_split h9 (Nat.zero_le e) (by omega)
      rw [Nat.zero_add, h2] at hle hfront
      exact Or.inr ⟨rfl, h4, h5, t, h8, hfront, hle, rfl⟩

/-- **The records claimed are taken away**, and the mark with them if they had wrapped. -/
theorem WrapHolds.release (h : WrapHolds lim buff s e x old new) (hlim : lim ≤ buff.length)
    (hc : Claimed lim s stop b x old new taken rest) :
    ∃ old' new', old' ++ new' = rest ∧ WrapHolds lim buff stop e (if b = true then 0 else x) old' new' := by
  cases hc with
  | @flat x t m new h1 h2 h3 =>
    have hstop : s + taken.flatten.length = stop := by omega
    refine ⟨m, new, rfl, ?_⟩
    rw [if_neg (by decide)]
    cases h with
    | flat h4 h5 h6 =>
      rw [List.flatten_append] at h6
      obtain ⟨hle, -, hrest⟩ := slice_split h6 h4 (by omega)
      rw [hstop] at hle hrest
      exact .flat hle h5 hrest
    | wrap h4 h5 h6 h7 h8 h9 =>
      rw [List.flatten_append] at h8
      obtain ⟨-, -, hrest⟩ := slice_split h8 (by omega) h5
      rw [hstop] at hrest
      exact .wrap h4 h5 h2 (by omega) hrest h9
  | @wrap x old t m h1 h2 =>
    refine ⟨rest, [], List.append_nil _, ?_⟩
    rw [if_pos rfl]
    generalize hnew : t ++ rest = new at h
    cases h with
    | flat => omega
    | wrap h4 h5 h6 h7 h8 h9 =>
      rw [← hnew, List.flatten_append] at h9
      obtain ⟨hle, -, hrest⟩ := slice_split h9 (Nat.zero_le e) (by omega)
      rw [Nat.zero_add, h2] at hle hrest
      exact .flat hle (by omega) hrest

end HookKernel.Lib
