import HookKernel.Spec.Kallsyms

/-!
# Symbol lookup is exact

When a newline is read, the line just read stands in front of the buffer, and the
comparison cannot pass its newline: the pattern has its own newline at the end.

* `strncmp_line`: what lies behind the newline does not count.
* `scan_line`: reading one line.
* `symbol_lookup`: the first line that matches is found, and no other.
-/

namespace HookKernel

open Lib

variable {hex2ptr : List UInt8 → Addr} {p : SymPattern}

/-- **The comparison ends at the newline.** -/
theorem strncmp_line {rest name : List UInt8} (hrest : 10 ∉ rest) (hname : 10 ∉ name) (hnul : 0 ∉ name)
    (stale tail : List UInt8) :
    ∃ r, strncmp (name.length + 1) (rest ++ 10 :: stale) (name ++ 10 :: tail) = some r ∧ (r = 0 ↔ rest = name) := by
  have hdiff : ∀ (a b : UInt8) (n : ℕ) (cs ct : List UInt8), a ≠ b →
      ∃ r, strncmp (n + 1) (a :: cs) (b :: ct) = some r ∧ r ≠ 0 := by
    intro a b n cs ct hab
    refine ⟨_, if_pos hab, ?_⟩
    split <;> decide
  induction name generalizing rest with
  | nil =>
    cases rest with
    | nil => exact ⟨0, rfl, by simp⟩
    | cons a rest =>
      obtain ⟨r, hr, hne⟩ := hdiff a 10 0 (rest ++ 10 :: stale) tail fun h => hrest (by simp [h])
      exact ⟨r, hr, by simp [hne]⟩
  | cons b name ih =>
    have hb : b ≠ 10 := fun h => hname (by simp [h])
    have hb0 : b ≠ 0 := fun h => hnul (by simp [h])
    cases rest with
    | nil =>
      obtain ⟨r, hr, hne⟩ := hdiff 10 b (name.length + 1) stale (name ++ 10 :: tail) hb.symm
      exact ⟨r, hr, by simp [hne]⟩
    | cons a rest =>
      by_cases hab : a = b
      · subst hab
        obtain ⟨r, hr, hiff⟩ := ih (fun h => hrest (List.mem_cons_of_mem _ h)) (fun h => hname (List.mem_cons_of_mem _ h))
          (fun h => hnul (List.mem_cons_of_mem _ h))
        refine ⟨r, ?_, by rw [hiff, List.cons_inj_right]⟩
        rw [List.length_cons, List.cons_append, List.cons_append, strncmp, if_neg (not_not.2 rfl), if_neg hb0]
        exact hr
      · obtain ⟨r, hr, hne⟩ := hdiff a b (name.length + 1) (rest ++ 10 :: stale) (name ++ 10 :: tail) hab
        refine ⟨r, hr, by simp [hne, hab]⟩

/-- What has been read of a line stays in front when the next byte is stored. -/
theorem take_put {line : LineBuff} {pre : List UInt8} (h : line.1.take pre.length = pre) (hlen : pre.length < 255) (b : UInt8) :
    (line.put pre.length b).1.take (pre.length + 1) = pre ++ [b] := by
  have hlt : pre.length < line.1.length := by rw [line.2]; exact hlen
  rw [LineBuff.put_val, List.take_succ_eq_append_getElem (by rw [List.length_set]; exact hlt), List.getElem_set_self,
    List.take_set_of_le (Nat.le_refl _), h]

/-- **Reading one line**: at its newline it stands in front of the buffer, whatever stood there before. -/
theorem scan_line (hex2ptr : List UInt8 → Addr) (symbol : CStr) {s : List UInt8} (hs : 10 ∉ s) (more : List UInt8) :
    ∀ (pre : List UInt8) (line : LineBuff), line.1.take pre.length = pre → pre.length + s.length < 255 →
      ∃ line' : LineBuff, line'.1.take (pre ++ s ++ [10]).length = pre ++ s ++ [10] ∧
        scanSymbols hex2ptr symbol line pre.length (s ++ 10 :: more) =
          (strncmp symbol.1.length (line'.1.drop 16) (symbol.1 ++ [0])).bind fun r =>
            if r = 0 then some (hex2ptr (cstr (· == 0) (line'.put 16 0).1))
            else scanSymbols hex2ptr symbol line' 0 more := by
  induction s with
  | nil =>
    intro pre line hpre hlen
    rw [List.length_nil, Nat.add_zero] at hlen
    refine ⟨line.put pre.length 10, ?_, ?_⟩
    · rw [List.append_nil, List.length_append, List.length_singleton]
      exact take_put hpre hlen 10
    · rw [List.nil_append, scanSymbols, if_pos hlen, if_pos rfl]
  | cons b s ih =>
    intro pre line hpre hlen
    have hb : b ≠ 10 := fun h => hs (by simp [h])
    rw [List.length_cons] at hlen
    have hput := take_put hpre (by omega) b
    obtain ⟨line', htake, hscan⟩ := ih (fun h => hs (List.mem_cons_of_mem _ h)) (pre ++ [b])
      (line.put pre.length b) (by rw [List.length_append, List.length_singleton]; exact hput)
      (by rw [List.length_append, List.length_singleton]; omega)
    refine ⟨line', ?_, ?_⟩
    · rw [List.append_assoc pre [b] s, List.singleton_append] at htake
      exact htake
    · rw [List.cons_append, scanSymbols, if_pos (by omega), if_neg hb, ← hscan, List.length_append, List.length_singleton]

/-- The address of a line is what `hex2ptr` gets. -/
theorem cstr_address (l : SymLine) {line : LineBuff} {tail : List UInt8} (h : line.1 = l.addr ++ tail) :
    cstr (· == 0) (line.put 16 0).1 = l.addr := by
  have hne : tail ≠ [] := by
    rintro rfl
    have h1 := line.2
    rw [h, List.length_append, l.addr_length] at h1
    simp at h1
  obtain ⟨b, tail, rfl⟩ := List.exists_cons_of_ne_nil hne
  have hset : (line.put 16 0).1 = l.addr ++ 0 :: tail := by
    rw [LineBuff.put_val, h, List.set_append_right _ _ (by rw [l.addr_length]), l.addr_length]
    rfl
  rw [hset]
  refine cstr_append (fun b hb => ?_) rfl
  have hhex := l.addr_hex b hb
  unfold IsHexDigit at hhex
  rw [beq_eq_false_iff_ne]
  rintro rfl
  revert hhex
  decide

/-- **One line**: it is the answer if the pattern is its rest, and is passed over otherwise. -/
theorem scan_symLine (hex2ptr : List UInt8 → Addr) (p : SymPattern) (l : SymLine) (line : LineBuff) (more : List UInt8) :
    ∃ line' : LineBuff, scanSymbols hex2ptr p.symbol line 0 (l.addr ++ l.rest ++ [10] ++ more) =
      if l.rest ++ [10] = p.symbol.1 then some (hex2ptr l.addr) else scanSymbols hex2ptr p.symbol line' 0 more := by
  have hnewline : 10 ∉ l.addr ++ l.rest := by
    rw [List.mem_append, not_or]
    refine ⟨fun h => ?_, l.rest_line⟩
    exact absurd (l.addr_hex _ h) (by decide)
  have hlen : (l.addr ++ l.rest).length < 255 := by
    have := l.rest_length
    rw [List.length_append, l.addr_length]
    omega
  obtain ⟨line', htake, hscan⟩ := scan_line hex2ptr p.symbol hnewline more [] line rfl (by simpa using hlen)
  rw [List.nil_append] at htake
  -- the buffer is the line with its newline, and then whatever was there
  obtain ⟨stale, hbuf⟩ : ∃ stale, line'.1 = l.addr ++ (l.rest ++ 10 :: stale) := by
    refine ⟨line'.1.drop (l.addr ++ l.rest ++ [10]).length, ?_⟩
    conv_lhs => rw [← List.take_append_drop (l.addr ++ l.rest ++ [10]).length line'.1, htake]
    rw [List.append_assoc, List.append_assoc, List.append_assoc, List.singleton_append]
  have hdrop : line'.1.drop 16 = l.rest ++ 10 :: stale := by
    rw [hbuf]
    exact List.drop_left' l.addr_length
  obtain ⟨r, hcmp, hr⟩ := strncmp_line l.rest_line p.no_newline p.no_nul stale [0]
  have hcmp' : strncmp p.symbol.1.length (line'.1.drop 16) (p.symbol.1 ++ [0]) = some r := by
    rw [hdrop, SymPattern.symbol, List.length_append, List.length_singleton, List.append_assoc]
    exact hcmp
  have hiff : l.rest ++ [10] = p.symbol.1 ↔ r = 0 := by
    rw [hr, SymPattern.symbol]
    exact List.append_left_inj _
  refine ⟨line', ?_⟩
  rw [List.append_assoc, List.singleton_append]
  refine hscan.trans ?_
  rw [hcmp', Option.bind_some]
  by_cases h0 : r = 0
  · rw [if_pos h0, if_pos (hiff.2 h0), cstr_address l hbuf]
  · rw [if_neg h0, if_neg fun h => h0 (hiff.1 h)]

/-- **Symbol lookup is exact**, whatever the line buffer holds at the start. -/
theorem symbol_lookup (hex2ptr : List UInt8 → Addr) (line : LineBuff) (lines : List SymLine) (p : SymPattern) :
    getSystemSymbolAddr hex2ptr line (some (kallsymsText lines)) p.symbol = some (lookupSpec hex2ptr lines p) := by
  show scanSymbols hex2ptr p.symbol line 0 (kallsymsText lines) = _
  induction lines generalizing line with
  | nil => rfl
  | cons l lines ih =>
    obtain ⟨line', hline⟩ := scan_symLine hex2ptr p l line (kallsymsText lines)
    rw [kallsymsText, List.flatMap_cons, ← kallsymsText, hline, lookupSpec, List.find?_cons]
    by_cases hm : l.rest ++ [10] = p.symbol.1
    · rw [if_pos hm, decide_eq_true hm]
    · rw [if_neg hm, decide_eq_false hm]
      exact ih line'

end HookKernel
