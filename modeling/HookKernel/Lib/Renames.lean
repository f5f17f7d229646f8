import Mathlib.Data.List.Nodup
import Mathlib.Data.List.Pairwise
import Mathlib.Data.List.TakeWhile
import HookKernel.Lib.Files

/-!
# Renaming the files of some lists

Lists of names are gone through one after the other, each as long as the files are there,
and every file is renamed on the way; between two of them a file `out` may be created. If
the new names and `out` are not on the lists, a name can be gone only because it was
renamed.

* `front`, `fronts`: the names come to, from the lists and the files there at the start.
* `FrontCuts`: the lists are cut so that the files there are in front. `fronts_all_iff`: they are all
  come to exactly if there are such cuts. `frontCuts_iff_of_nodup`: if no name occurs twice, exactly if no file
  stands behind a missing one.
* `Moved`: what the directory is after the files of `seen` have been renamed, with
  `Moved.rename` and `Moved.fopen`.
* `Fs.OneName`: no file has two names; renaming and creating keep it so.
-/

namespace HookKernel.Lib

variable {N C : Type} [DecidableEq N]

/-! ## The names come to -/

/-- The names of a list before the first that is not there or was seen. -/
def front (there : N → Bool) : List N → List N → List N
  | _, [] => []
  | seen, n :: ns => if there n = true ∧ n ∉ seen then n :: front there (seen ++ [n]) ns else []

/-- The names seen after all lists. -/
def fronts (there : N → Bool) : List N → List (List N) → List N
  | seen, [] => seen
  | seen, ns :: lists => fronts there (seen ++ front there seen ns) lists

/-- **The files come first**: every list is cut into a front and a rest, so that the fronts name the files
that are there, each once, and nothing else, and no rest begins with a name in the front of a later list. -/
structure FrontCuts (there : N → Bool) (lists : List (List N)) (cuts : List (List N × List N)) : Prop where
  whole : cuts.map (fun cut => cut.1 ++ cut.2) = lists
  once : (cuts.flatMap Prod.fst).Nodup
  exist : ∀ n ∈ cuts.flatMap Prod.fst, there n = true
  all : ∀ n ∈ lists.flatten, there n = true → n ∈ cuts.flatMap Prod.fst
  inTurn : cuts.Pairwise fun cut later => ∀ n ∈ cut.2.head?, n ∉ later.1

section Fronts

variable {there : N → Bool} {seen ns : List N} {lists : List (List N)} {n : N}

@[simp] theorem front_nil : front there seen [] = [] := rfl

@[simp] theorem fronts_nil_cons : fronts there seen ([] :: lists) = fronts there seen lists := by
  rw [fronts, front_nil, List.append_nil]

/-- One name further. -/
theorem fronts_cons (h : there n = true) (hn : n ∉ seen) :
    fronts there seen ((n :: ns) :: lists) = fronts there (seen ++ [n]) (ns :: lists) := by
  rw [fronts, fronts, front, if_pos ⟨h, hn⟩, List.append_assoc, List.singleton_append]

/-- The rest of a list is left out. -/
theorem fronts_stop (h : ¬ (there n = true ∧ n ∉ seen)) :
    fronts there seen ((n :: ns) :: lists) = fronts there seen lists := by
  rw [fronts, front, if_neg h, List.append_nil]

/-- A list whose names are all new is left at the first that is not there. -/
theorem front_eq_takeWhile (h : ns.Nodup) (hns : ∀ n ∈ ns, n ∉ seen) : front there seen ns = ns.takeWhile there := by
  induction ns generalizing seen with
  | nil => rfl
  | cons m ns ih =>
    obtain ⟨hm, hnd⟩ := List.nodup_cons.1 h
    have hrest : ∀ n ∈ ns, n ∉ seen ++ [m] := by
      intro n hn hmem
      rcases List.mem_append.1 hmem with hmem | hmem
      · exact hns n (List.mem_cons_of_mem _ hn) hmem
      · rw [List.mem_singleton.1 hmem] at hn
        exact hm hn
    rw [front, List.takeWhile_cons]
    by_cases hthere : there m = true
    · rw [if_pos ⟨hthere, hns m List.mem_cons_self⟩, if_pos hthere, ih hnd hrest]
    · rw [if_neg fun hand => hthere hand.1, if_neg hthere]

/-- **If no name occurs twice**, the names come to are those before a missing one in their list. -/
theorem fronts_of_nodup (h : (seen ++ lists.flatten).Nodup) :
    fronts there seen lists = seen ++ (lists.map (List.takeWhile there)).flatten := by
  induction lists generalizing seen with
  | nil => exact (List.append_nil _).symm
  | cons ns lists ih =>
    rw [List.flatten_cons, ← List.append_assoc] at h
    obtain ⟨h1, h2, h3⟩ := List.nodup_append.1 (List.nodup_append.1 h).1
    have hfront : front there seen ns = ns.takeWhile there :=
      front_eq_takeWhile h2 fun n hn hmem => h3 n hmem n hn rfl
    have hsub : (seen ++ ns.takeWhile there ++ lists.flatten).Sublist (seen ++ ns ++ lists.flatten) :=
      ((List.Sublist.refl _).append (List.takeWhile_sublist _)).append (List.Sublist.refl _)
    rw [fronts, hfront, ih (hsub.nodup h), List.map_cons, List.flatten_cons, List.append_assoc]

omit [DecidableEq N] in
/-- What is there in a list without repetitions comes before anything missing. -/
theorem filter_eq_takeWhile_iff (h : ns.Nodup) :
    ns.filter there = ns.takeWhile there ↔ ∀ n ∈ ns, there n = true → n ∈ ns.takeWhile there := by
  constructor
  · intro heq n hn hthere
    rw [← heq]
    exact List.mem_filter.2 ⟨hn, hthere⟩
  · intro hall
    have hsplit := List.takeWhile_append_dropWhile (p := there) (l := ns)
    have hfirst : (ns.takeWhile there).filter there = ns.takeWhile there :=
      List.filter_eq_self.2 fun n hn => List.mem_takeWhile_imp hn
    have hrest : (ns.dropWhile there).filter there = [] := by
      refine List.filter_eq_nil_iff.2 fun n hn hthere => ?_
      -- a name of the rest cannot stand before it, too
      rw [← hsplit] at h
      have hmem : n ∈ ns := by
        rw [← hsplit]
        exact List.mem_append_right _ hn
      exact (List.nodup_append.1 h).2.2 n (hall n hmem hthere) n hn rfl
    calc ns.filter there = (ns.takeWhile there ++ ns.dropWhile there).filter there := by rw [hsplit]
      _ = ns.takeWhile there := by rw [List.filter_append, hfirst, hrest, List.append_nil]

/-- What is cut off a list: the name behind the front is not there, or was seen. -/
theorem front_cut (there : N → Bool) (seen ns : List N) :
    ∃ rest, front there seen ns ++ rest = ns ∧ (front there seen ns).Nodup ∧
      (∀ n ∈ front there seen ns, there n = true ∧ n ∉ seen) ∧
      ∀ n ∈ rest.head?, there n = true → n ∈ seen ++ front there seen ns := by
  induction ns generalizing seen with
  | nil => exact ⟨[], rfl, List.nodup_nil, by simp, by simp⟩
  | cons m ns ih =>
    by_cases hm : there m = true ∧ m ∉ seen
    · obtain ⟨rest, h1, h2, h3, h4⟩ := ih (seen ++ [m])
      have hfront : front there seen (m :: ns) = m :: front there (seen ++ [m]) ns := if_pos hm
      have hno : ∀ n ∈ front there (seen ++ [m]) ns, n ∉ seen ∧ n ≠ m := by
        intro n hn
        have := (h3 n hn).2
        rw [List.mem_append, List.mem_singleton, not_or] at this
        exact this
      rw [hfront]
      refine ⟨rest, congrArg (m :: ·) h1, List.nodup_cons.2 ⟨fun hmem => (hno m hmem).2 rfl, h2⟩, ?_, ?_⟩
      · intro n hn
        rcases List.mem_cons.1 hn with rfl | hn
        · exact hm
        · exact ⟨(h3 n hn).1, (hno n hn).1⟩
      · intro n hn hthere
        rw [← List.singleton_append, ← List.append_assoc]
        exact h4 n hn hthere
    · have hfront : front there seen (m :: ns) = [] := if_neg hm
      rw [hfront]
      refine ⟨m :: ns, rfl, List.nodup_nil, by simp, ?_⟩
      intro n hn hthere
      obtain rfl := Option.some.inj hn
      rw [List.append_nil]
      by_contra hno
      exact hm ⟨hthere, hno⟩

/-- The names come to are the fronts of cuts. -/
theorem exists_cuts (there : N → Bool) (seen : List N) (lists : List (List N)) :
    ∃ cuts : List (List N × List N), cuts.map (fun cut => cut.1 ++ cut.2) = lists ∧
      fronts there seen lists = seen ++ cuts.flatMap Prod.fst ∧ (cuts.flatMap Prod.fst).Nodup ∧
      (∀ n ∈ cuts.flatMap Prod.fst, there n = true ∧ n ∉ seen) ∧
      cuts.Pairwise fun cut later => ∀ n ∈ cut.2.head?, n ∉ later.1 := by
  induction lists generalizing seen with
  | nil => exact ⟨[], rfl, (List.append_nil _).symm, List.nodup_nil, by simp, List.Pairwise.nil⟩
  | cons ns lists ih =>
    obtain ⟨rest, h1, h2, h3, h4⟩ := front_cut there seen ns
    obtain ⟨cuts, k1, k2, k3, k4, k5⟩ := ih (seen ++ front there seen ns)
    refine ⟨(front there seen ns, rest) :: cuts, ?_, ?_, ?_, ?_, List.pairwise_cons.2 ⟨?_, k5⟩⟩
    · rw [List.map_cons, h1, k1]
    · rw [fronts, k2, List.flatMap_cons, List.append_assoc]
    · rw [List.flatMap_cons, List.nodup_append]
      refine ⟨h2, k3, fun a ha b hb hab => (k4 b hb).2 ?_⟩
      rw [← hab]
      exact List.mem_append_right _ ha
    · intro n hn
      rw [List.flatMap_cons] at hn
      rcases List.mem_append.1 hn with hn | hn
      · exact h3 n hn
      · exact ⟨(k4 n hn).1, fun hseen => (k4 n hn).2 (List.mem_append_left _ hseen)⟩
    · -- a file in a later front was not seen when the rest was reached
      intro cut hcut n hn hlater
      have hmem : n ∈ cuts.flatMap Prod.fst := List.mem_flatMap.2 ⟨cut, hcut, hlater⟩
      exact (k4 n hmem).2 (h4 n hn (k4 n hmem).1)

/-- A front of new names is come to, up to a name that is not there or was seen. -/
theorem front_append {part rest : List N} (hthere : ∀ n ∈ part, there n = true ∧ n ∉ seen) (hnd : part.Nodup)
    (hrest : ∀ n ∈ rest.head?, there n = true → n ∈ seen ++ part) : front there seen (part ++ rest) = part := by
  induction part generalizing seen with
  | nil =>
    cases rest with
    | nil => rfl
    | cons m rest =>
      refine if_neg fun hm => hm.2 ?_
      have hmem := hrest m rfl hm.1
      rwa [List.append_nil] at hmem
  | cons m part ih =>
    obtain ⟨hm, hnd⟩ := List.nodup_cons.1 hnd
    rw [List.cons_append, front, if_pos (hthere m List.mem_cons_self), ih ?_ hnd ?_]
    · intro n hn
      obtain ⟨h1, h2⟩ := hthere n (List.mem_cons_of_mem _ hn)
      refine ⟨h1, fun hmem => ?_⟩
      rcases List.mem_append.1 hmem with hmem | hmem
      · exact h2 hmem
      · rw [List.mem_singleton.1 hmem] at hn
        exact hm hn
    · intro n hn hnow
      rw [List.append_assoc]
      exact hrest n hn hnow

/-- What is come to, given cuts. -/
theorem fronts_of_cuts {cuts : List (List N × List N)} (hnd : (cuts.flatMap Prod.fst).Nodup)
    (hthere : ∀ n ∈ cuts.flatMap Prod.fst, there n = true ∧ n ∉ seen)
    (hrest : ∀ cut ∈ cuts, ∀ n ∈ cut.2.head?, there n = true → n ∈ seen ++ cuts.flatMap Prod.fst)
    (hturn : cuts.Pairwise fun cut later => ∀ n ∈ cut.2.head?, n ∉ later.1) :
    fronts there seen (cuts.map fun cut => cut.1 ++ cut.2) = seen ++ cuts.flatMap Prod.fst := by
  induction cuts generalizing seen with
  | nil => exact (List.append_nil _).symm
  | cons cut cuts ih =>
    obtain ⟨hfirst, hturn⟩ := List.pairwise_cons.1 hturn
    rw [List.flatMap_cons] at hnd hthere hrest
    obtain ⟨hnd1, hnd2, hdis⟩ := List.nodup_append.1 hnd
    have hfront : front there seen (cut.1 ++ cut.2) = cut.1 := by
      refine front_append (fun n hn => hthere n (List.mem_append_left _ hn)) hnd1 fun n hn hnow => ?_
      have hmem := hrest cut List.mem_cons_self n hn hnow
      rw [← List.append_assoc] at hmem
      refine (List.mem_append.1 hmem).resolve_right fun hlater => ?_
      obtain ⟨later, hl, hlater⟩ := List.mem_flatMap.1 hlater
      exact hfirst later hl n hn hlater
    rw [List.map_cons, fronts, hfront, ih hnd2 ?_ ?_ hturn, List.flatMap_cons, List.append_assoc]
    · intro n hn
      obtain ⟨h1, h2⟩ := hthere n (List.mem_append_right _ hn)
      refine ⟨h1, fun hmem => ?_⟩
      rcases List.mem_append.1 hmem with hmem | hmem
      · exact h2 hmem
      · exact hdis n hmem n hn rfl
    · intro cut' hcut n hn hnow
      rw [List.append_assoc]
      exact hrest cut' (List.mem_cons_of_mem _ hcut) n hn hnow

/-- **Every file is come to** exactly if the lists can be cut. -/
theorem fronts_all_iff : (∀ n ∈ lists.flatten, there n = true → n ∈ fronts there [] lists) ↔
    ∃ cuts, FrontCuts there lists cuts := by
  constructor
  · intro hall
    obtain ⟨cuts, h1, h2, h3, h4, h5⟩ := exists_cuts there [] lists
    rw [h2, List.nil_append] at hall
    exact ⟨cuts, h1, h3, fun n hn => (h4 n hn).1, hall, h5⟩
  · rintro ⟨cuts, h⟩ n hn hnow
    have hmem : ∀ cut ∈ cuts, ∀ x ∈ cut.2.head?, there x = true → x ∈ [] ++ cuts.flatMap Prod.fst := by
      intro cut hcut x hx hthere
      refine h.all x (List.mem_flatten.2 ⟨cut.1 ++ cut.2, ?_, ?_⟩) hthere
      · rw [← h.whole]
        exact List.mem_map_of_mem hcut
      · exact List.mem_append_right _ (List.mem_of_mem_head? hx)
    have hfronts := fronts_of_cuts h.once (fun n hn => ⟨h.exist n hn, List.not_mem_nil⟩) hmem h.inTurn
    rw [h.whole, List.nil_append] at hfronts
    rw [hfronts]
    exact h.all n hn hnow

/-- **If no name occurs twice** the lists can be cut exactly if no file stands behind a missing one. -/
theorem frontCuts_iff_of_nodup (h : lists.flatten.Nodup) :
    (∃ cuts, FrontCuts there lists cuts) ↔ ∀ ns ∈ lists, ns.filter there = ns.takeWhile there := by
  obtain ⟨hnd, hdis⟩ := List.nodup_flatten.1 h
  rw [← fronts_all_iff, fronts_of_nodup (by simpa using h), List.nil_append]
  constructor
  · intro hall ns hns
    refine (filter_eq_takeWhile_iff (hnd ns hns)).2 fun n hn hthere => ?_
    obtain ⟨_, hmem, hin⟩ := List.mem_flatten.1 (hall n (List.mem_flatten.2 ⟨ns, hns, hn⟩) hthere)
    obtain ⟨ns', hns', rfl⟩ := List.mem_map.1 hmem
    -- the name is on one list only
    have hsame : ns = ns' := by
      by_contra hne
      have hsymm : Std.Symm (List.Disjoint : List N → List N → Prop) := ⟨fun _ _ hab _ h1 h2 => hab h2 h1⟩
      exact hdis.forall hns hns' hne hn (List.takeWhile_subset _ hin)
    rw [hsame]
    exact hin
  · intro hall n hn hthere
    obtain ⟨ns, hns, hmem⟩ := List.mem_flatten.1 hn
    exact List.mem_flatten.2 ⟨_, List.mem_map_of_mem hns, (filter_eq_takeWhile_iff (hnd ns hns)).1 (hall ns hns) n hmem hthere⟩

end Fronts

/-! ## One name a file -/

/-- No file has two names. -/
def Fs.OneName (fs : Fs N C) : Prop := ∀ a b i, fs.dir a = some i → fs.dir b = some i → a = b

section Directories

variable {fs fs' : Fs N C} {a b n : N} {i : ℕ}

theorem Fs.rename_dir (h : fs.dir a ≠ fs.dir b) (n : N) :
    (fs.rename a b).dir n = if n = a then none else if n = b then fs.dir a else fs.dir n := by
  unfold Fs.rename
  simp only [if_neg h, Function.update_apply]

theorem Fs.fopen_dir_ne (h : n ≠ a) : (fs.fopen a).1.dir n = fs.dir n := by
  unfold Fs.fopen
  split
  · rfl
  · exact Function.update_of_ne h _ _

theorem Fs.OneName.rename (h : fs.OneName) : (fs.rename a b).OneName := by
  by_cases hab : fs.dir a = fs.dir b
  · intro n n' i h1 h2
    simp only [Fs.rename, if_pos hab] at h1 h2
    exact h n n' i h1 h2
  · intro n n' i h1 h2
    rw [Fs.rename_dir hab] at h1 h2
    -- the file at the new name had no other name than `a`
    by_cases hna : n = a
    · rw [if_pos hna] at h1
      cases h1
    · by_cases hna' : n' = a
      · rw [if_pos hna'] at h2
        cases h2
      · rw [if_neg hna] at h1
        rw [if_neg hna'] at h2
        by_cases hnb : n = b
        · by_cases hnb' : n' = b
          · rw [hnb, hnb']
          · rw [if_pos hnb] at h1
            rw [if_neg hnb'] at h2
            exact absurd (h n' a i h2 h1) hna'
        · rw [if_neg hnb] at h1
          by_cases hnb' : n' = b
          · rw [if_pos hnb'] at h2
            exact absurd (h n a i h1 h2) hna
          · rw [if_neg hnb'] at h2
            exact h n n' i h1 h2

theorem Fs.OneName.fopen (h : fs.OneName) : (fs.fopen a).1.OneName := by
  cases ha : fs.dir a with
  | some j =>
    unfold Fs.fopen
    simp only [ha]
    exact h
  | none =>
    have hnew : (fs.fopen a).1.dir a = some fs.next := by simp [Fs.fopen, ha]
    -- the new file is none of the old ones
    have hold : ∀ n, n ≠ a → (fs.fopen a).1.dir n ≠ some fs.next := by
      intro n hn h1
      rw [Fs.fopen_dir_ne hn] at h1
      have := fs.dir_lt n _ h1
      omega
    intro n n' i h1 h2
    by_cases hn : n = a
    · by_cases hn' : n' = a
      · rw [hn, hn']
      · rw [hn, hnew] at h1
        exact absurd (h2.trans h1.symm) (hold n' hn')
    · by_cases hn' : n' = a
      · rw [hn', hnew] at h2
        exact absurd (h1.trans h2.symm) (hold n hn)
      · rw [Fs.fopen_dir_ne hn] at h1
        rw [Fs.fopen_dir_ne hn'] at h2
        exact h n n' i h1 h2

/-! ## The directory on the way -/

/-- **The files of `seen` have been renamed**, and `out` may have been created. A new name stands for
the file renamed to it last. -/
structure Moved (new : N → N) (out : N) (fs fs' : Fs N C) (seen : List N) : Prop where
  next_le : fs.next ≤ fs'.next
  there : ∀ n ∈ seen, (fs.dir n).isSome
  gone : ∀ n ∈ seen, fs'.dir n = none
  come : ∀ n ∈ seen, ∃ m ∈ seen, new m = new n ∧ fs'.dir (new n) = fs.dir m
  kept : ∀ n, n ∉ seen → (∀ m ∈ seen, new m ≠ n) → n ≠ out → fs'.dir n = fs.dir n
  at_out : (∀ m ∈ seen, new m ≠ out) →
    fs'.dir out = fs.dir out ∨ fs.dir out = none ∧ ∃ j, fs'.dir out = some j ∧ fs.next ≤ j

/-- The names on the lists are in nobody's way: none is a new name or `out`, and none is a second
name of a file. -/
structure NamesApart (new : N → N) (out : N) (fs : Fs N C) (listed : List N) : Prop where
  new : ∀ n ∈ listed, new n ∉ listed
  out : out ∉ listed
  single : ∀ n ∈ listed, ∀ n' i, fs.dir n = some i → fs.dir n' = some i → n' = n

variable {new : N → N} {out : N} {listed seen : List N}

namespace Moved

variable (h : Moved new out fs fs' seen) (hap : NamesApart new out fs listed) (hseen : seen ⊆ listed)

include h hap hseen

/-- A listed name stands for what it stood for, until it is seen. -/
theorem dir_listed (hn : n ∈ listed) : fs'.dir n = if n ∈ seen then none else fs.dir n := by
  split
  · exact h.gone n ‹_›
  · refine h.kept n ‹_› (fun m hm he => ?_) fun he => ?_
    · exact hap.new m (hseen hm) (he ▸ hn)
    · exact hap.out (he ▸ hn)

/-- The new name does not stand for the file before it is renamed. -/
theorem dir_ne_new (hn : n ∈ listed) (hno : n ∉ seen) (hi : fs.dir n = some i) : fs'.dir n ≠ fs'.dir (new n) := by
  rw [h.dir_listed hap hseen hn, if_neg hno, hi]
  intro heq
  by_cases hcome : ∃ m ∈ seen, new m = new n
  · obtain ⟨m, hm, hnew⟩ := hcome
    obtain ⟨m', hm', -, hdir⟩ := h.come m hm
    rw [← hnew, hdir] at heq
    exact hno (hap.single n hn m' i hi heq.symm ▸ hm')
  · push Not at hcome
    by_cases hout : new n = out
    · rw [hout] at heq
      rcases h.at_out fun m hm => hout ▸ hcome m hm with hsame | ⟨-, j, hj, hle⟩
      · rw [hsame] at heq
        exact hap.out (hap.single n hn out i hi heq.symm ▸ hn)
      · rw [hj] at heq
        have := fs.dir_lt n i hi
        have := Option.some.inj heq
        omega
    · rw [h.kept (new n) (fun hmem => hap.new n hn (hseen hmem)) hcome hout] at heq
      have hsame : new n = n := hap.single n hn (new n) i hi heq.symm
      exact hap.new n hn (by rw [hsame]; exact hn)

/-- **One more file is renamed.** -/
theorem rename (hn : n ∈ listed) (hno : n ∉ seen) (hi : fs.dir n = some i) :
    Moved new out fs (fs'.rename n (new n)) (seen ++ [n]) := by
  have hdir := Fs.rename_dir (h.dir_ne_new hap hseen hn hno hi)
  have hnow : fs'.dir n = fs.dir n := by rw [h.dir_listed hap hseen hn, if_neg hno]
  have hself : new n ≠ n := fun he => hap.new n hn (by rw [he]; exact hn)
  have hnew : (fs'.rename n (new n)).dir (new n) = fs.dir n := by rw [hdir, if_neg hself, if_pos rfl, hnow]
  refine ⟨h.next_le, fun m hm => ?_, fun m hm => ?_, fun m hm => ?_, fun x hx hx' hout => ?_, fun hall => ?_⟩
  · rcases List.mem_append.1 hm with hm | hm
    · exact h.there m hm
    · rw [List.mem_singleton.1 hm, hi]
      rfl
  · rcases List.mem_append.1 hm with hm | hm
    · have h1 : m ≠ new n := fun he => hap.new n hn (he ▸ hseen hm)
      have h2 : m ≠ n := fun he => hno (he ▸ hm)
      rw [hdir, if_neg h2, if_neg h1]
      exact h.gone m hm
    · rw [List.mem_singleton.1 hm, hdir, if_pos rfl]
  · -- the new name of `m` stands for the file renamed last, or is that of `n`
    by_cases he : new m = new n
    · rw [he, hnew]
      exact ⟨n, List.mem_append_right _ (List.mem_singleton_self n), rfl, rfl⟩
    · have hm' : m ∈ seen := (List.mem_append.1 hm).resolve_right fun hmem => he (by rw [List.mem_singleton.1 hmem])
      obtain ⟨k, hk, h1, h2⟩ := h.come m hm'
      have hne : new m ≠ n := fun hne => hap.new m (hseen hm') (hne ▸ hn)
      rw [hdir, if_neg hne, if_neg he]
      exact ⟨k, List.mem_append_left _ hk, h1, h2⟩
  · rw [List.mem_append, not_or] at hx
    have h1 : x ≠ n := fun he => hx.2 (List.mem_singleton.2 he)
    have h2 : x ≠ new n := fun he => hx' n (List.mem_append_right _ (List.mem_singleton_self n)) he.symm
    rw [hdir, if_neg h1, if_neg h2]
    exact h.kept x hx.1 (fun m hm => hx' m (List.mem_append_left _ hm)) hout
  · have h1 : out ≠ n := fun he => hap.out (he ▸ hn)
    have h2 : out ≠ new n := fun he => hall n (List.mem_append_right _ (List.mem_singleton_self n)) he.symm
    rw [hdir, if_neg h1, if_neg h2]
    exact h.at_out fun m hm => hall m (List.mem_append_left _ hm)

/-- **`out` is opened.** -/
theorem fopen : Moved new out fs (fs'.fopen out).1 seen := by
  have hgrow : fs'.next ≤ (fs'.fopen out).1.next := (Fs.Grows.fopen fs' out).next
  have some : ∀ {x i}, fs'.dir x = some i → (fs'.fopen out).1.dir x = some i := fopen_dir_of_some
  refine ⟨Nat.le_trans h.next_le hgrow, h.there, fun n hn => ?_, fun n hn => ?_, fun n hn hnew hout => ?_, fun hall => ?_⟩
  · have hne : n ≠ out := fun he => hap.out (he ▸ hseen hn)
    rw [Fs.fopen_dir_ne hne]
    exact h.gone n hn
  · obtain ⟨m, hm, h1, h2⟩ := h.come n hn
    obtain ⟨i, hi⟩ := Option.isSome_iff_exists.1 (h.there m hm)
    exact ⟨m, hm, h1, (some (h2.trans hi)).trans hi.symm⟩
  · rw [Fs.fopen_dir_ne hout]
    exact h.kept n hn hnew hout
  · rcases h.at_out hall with hsame | ⟨hnone, j, hj, hle⟩
    · cases hout : fs.dir out with
      | some i =>
        rw [some (hsame.trans hout)]
        exact Or.inl rfl
      | none =>
        rw [hout] at hsame
        refine Or.inr ⟨rfl, fs'.next, ?_, h.next_le⟩
        simp [Fs.fopen, hsame]
    · exact Or.inr ⟨hnone, j, some hj, hle⟩

end Moved

omit [DecidableEq N] in
/-- Cells reach a file. -/
theorem Moved.append (h : Moved new out fs fs' seen) (j : ℕ) (bs : List C) : Moved new out fs (fs'.append j bs) seen :=
  ⟨h.next_le, h.there, h.gone, h.come, h.kept, h.at_out⟩

end Directories

end HookKernel.Lib
