import Mathlib.Data.List.AList
import Mathlib.Data.List.Range

/-!
# Directories

A directory maps finitely many names to file numbers. `rename` replaces a file of the new
name, `freeName` looks for a name that no file has.

* `lookup_rename`: what every name is after a rename.
* `filter_keys_erase`, `filter_keys_insert`, `filter_keys_rename`: the names of a kind.
* `freeName_free`, `freeName_le`, `freeName_isSome`: the search ends soon, with a name that is free.
-/

namespace HookKernel.Lib

variable {N : Type} [DecidableEq N]

/-- The names and their files. -/
abbrev Directory (N : Type) : Type := AList fun _ : N => ℕ

variable {d : Directory N} {a b n : N} {i : ℕ}

/-- `rename(a, b)` -/
def Directory.rename (d : Directory N) (a b : N) : Directory N :=
  (d.lookup a).elim d fun i => (d.erase a).insert b i

/-- **After a rename.** -/
theorem lookup_rename (h : d.lookup a = some i) (hab : a ≠ b) (n : N) :
    (d.rename a b).lookup n = if n = b then some i else if n = a then none else d.lookup n := by
  unfold Directory.rename
  rw [h, Option.elim_some]
  by_cases hb : n = b
  · subst hb
    rw [AList.lookup_insert, if_pos rfl]
  · rw [AList.lookup_insert_ne hb, if_neg hb]
    by_cases ha : n = a
    · subst ha
      rw [AList.lookup_erase, if_pos rfl]
    · rw [AList.lookup_erase_ne ha, if_neg ha]

theorem erase_missing (h : d.lookup n = none) : d.erase n = d := by
  refine AList.ext ?_
  show List.kerase n d.entries = d.entries
  exact List.kerase_of_notMem_keys (AList.lookup_eq_none.1 h)

/-- The names with `p`, without `n`. -/
theorem filter_keys_erase (d : Directory N) (p : N → Bool) (n : N) :
    (d.erase n).keys.filter p = (d.keys.filter p).filter fun m => decide (m ≠ n) := by
  rw [AList.keys_erase, d.keys_nodup.erase_eq_filter, List.filter_filter, List.filter_filter]
  refine List.filter_congr fun m _ => ?_
  rw [Bool.and_comm, decide_not, bne, beq_eq_decide]

theorem length_filter_keys_erase {p : N → Bool} (hn : n ∈ d.keys) (hp : p n = true) :
    ((d.erase n).keys.filter p).length + 1 = (d.keys.filter p).length := by
  have hmem : n ∈ d.keys.filter p := List.mem_filter.2 ⟨hn, hp⟩
  have hpos := List.length_pos_of_mem hmem
  have herase := (d.keys_nodup.filter p).erase_eq_filter n
  have hlen := List.length_erase_of_mem hmem
  have heq : (d.erase n).keys.filter p = (d.keys.filter p).erase n := by
    rw [filter_keys_erase, herase]
    refine List.filter_congr fun m _ => ?_
    rw [decide_not, bne, beq_eq_decide]
  rw [heq, hlen]
  omega

/-- The names with `p`, and one more. -/
theorem filter_keys_insert (d : Directory N) (p : N → Bool) (n : N) (i : ℕ) :
    (d.insert n i).keys.filter p = (if p n then [n] else []) ++ (d.keys.filter p).filter fun m => decide (m ≠ n) := by
  rw [AList.keys_insert, ← AList.keys_erase, List.filter_cons, filter_keys_erase]
  split
  · rfl
  · rfl

/-- A new name without `p`. -/
theorem filter_keys_insert_of_not {p : N → Bool} (hp : p n = false) : (d.insert n i).keys.filter p = d.keys.filter p := by
  rw [filter_keys_insert, hp, if_neg (by simp), List.nil_append, List.filter_eq_self]
  intro m hm
  refine decide_eq_true fun hmn => ?_
  rw [List.mem_filter, hmn, hp] at hm
  cases hm.2

theorem filter_keys_erase_of_not {p : N → Bool} (hp : p n = false) : (d.erase n).keys.filter p = d.keys.filter p := by
  rw [filter_keys_erase, List.filter_eq_self]
  intro m hm
  refine decide_eq_true fun hmn => ?_
  rw [List.mem_filter, hmn, hp] at hm
  cases hm.2

/-- A rename from a name without `p`, to a free name. -/
theorem filter_keys_rename {p : N → Bool} (ha : d.lookup a = some i) (hb : d.lookup b = none) (hp : p a = false) :
    (d.rename a b).keys.filter p = (if p b then [b] else []) ++ d.keys.filter p := by
  unfold Directory.rename
  rw [ha, Option.elim_some, filter_keys_insert, filter_keys_erase_of_not hp]
  congr 1
  rw [List.filter_eq_self]
  intro m hm
  refine decide_eq_true fun hmb => ?_
  have hkey := (List.mem_filter.1 hm).1
  rw [hmb] at hkey
  have hsome := AList.lookup_isSome.2 (AList.mem_keys.2 hkey)
  rw [hb] at hsome
  cases hsome

/-- The first of the names `f i`, `f (i + 1)`, ... that no file has. -/
def freeName (d : Directory N) (f : ℕ → N) : (fuel i : ℕ) → Option N
  | 0, _ => none
  | fuel + 1, i => if (d.lookup (f i)).isSome then freeName d f fuel (i + 1) else some (f i)

variable {f : ℕ → N} {fuel : ℕ}

/-- **The name found is free**, and those before it are not. -/
theorem freeName_free (h : freeName d f fuel i = some n) :
    d.lookup n = none ∧ ∃ j, i ≤ j ∧ n = f j ∧ ∀ k, i ≤ k → k < j → (d.lookup (f k)).isSome := by
  induction fuel generalizing i with
  | zero => cases h
  | succ fuel ih =>
    unfold freeName at h
    split at h
    · rename_i hused
      obtain ⟨hfree, j, hij, hn, hbefore⟩ := ih h
      refine ⟨hfree, j, by omega, hn, fun k hik hkj => ?_⟩
      rcases Nat.eq_or_lt_of_le hik with rfl | hlt
      · exact hused
      · exact hbefore k hlt hkj
    · rename_i hfree
      obtain rfl := Option.some.inj h
      refine ⟨by simpa using hfree, i, Nat.le_refl i, rfl, fun k hik hki => ?_⟩
      omega

/-- As many names of the kind are there as were tried before. -/
theorem freeName_le {p : N → Bool} (hf : Function.Injective f) (hp : ∀ k, p (f k) = true) (h : freeName d f fuel 0 = some n) :
    ∃ j, n = f j ∧ j ≤ (d.keys.filter p).length := by
  obtain ⟨-, j, -, hn, htaken⟩ := freeName_free h
  refine ⟨j, hn, ?_⟩
  have hsub : (List.range j).map f ⊆ d.keys.filter p := by
    intro m hm
    obtain ⟨k, hk, rfl⟩ := List.mem_map.1 hm
    have hsome := htaken k (Nat.zero_le k) (List.mem_range.1 hk)
    exact List.mem_filter.2 ⟨AList.mem_keys.1 (AList.lookup_isSome.1 hsome), hp k⟩
  have hlen := (List.subperm_of_subset (List.nodup_range.map hf) hsub).length_le
  rwa [List.length_map, List.length_range] at hlen

/-- Without a result all names are taken. -/
theorem freeName_none (h : freeName d f fuel i = none) : ∀ k < fuel, f (i + k) ∈ d.keys := by
  induction fuel generalizing i with
  | zero =>
    intro k hk
    omega
  | succ fuel ih =>
    unfold freeName at h
    split at h
    · rename_i hused
      intro k hk
      cases k with
      | zero => exact AList.mem_keys.1 (AList.lookup_isSome.1 hused)
      | succ k =>
        have hmem := ih h k (by omega)
        rwa [show i + (k + 1) = i + 1 + k by omega]
    · cases h

/-- **The search ends**: there are only so many names. -/
theorem freeName_isSome (hf : Function.Injective f) (hfuel : d.keys.length < fuel) : (freeName d f fuel i).isSome := by
  rw [Option.isSome_iff_ne_none]
  intro hnone
  have htaken := freeName_none hnone
  have hnodup : ((List.range fuel).map fun k => f (i + k)).Nodup := by
    refine List.Nodup.map (fun j k hjk => ?_) List.nodup_range
    have := hf hjk
    omega
  have hsub : ((List.range fuel).map fun k => f (i + k)) ⊆ d.keys := by
    intro n hn
    obtain ⟨k, hk, rfl⟩ := List.mem_map.1 hn
    exact htaken k (List.mem_range.1 hk)
  have hlen := (List.subperm_of_subset hnodup hsub).length_le
  rw [List.length_map, List.length_range] at hlen
  omega

end HookKernel.Lib
