import HookKernel.Lib.Run
import HookKernel.Spec.Registry

/-!
# When the probe registry is a set of names

`func_name_in_list` returns the first entry whose name *differs* from the one
looked for, so with an entry in the list every lookup is wrong. With no entry
every lookup is right, and a registration that fails leaves the list empty.

`registry_tracks_iff`: a sequence of requests behaves as on a set of names exactly
when no `register_kretprobe` in it succeeds.
-/

namespace HookKernel

open Lib

theorem strcmp_self : ∀ f : List UInt8, strcmp f f = 0 := by
  intro f
  induction f with
  | nil => rfl
  | cons a as ih => simp [strcmp, ih]

/-- With an empty list every lookup returns `NULL`. -/
theorem lookup_init (heap : Heap) (L fuel : ℕ) (f : List UInt8) :
    funcNameInList (fuel + 1) (Registry.init heap L) f = some none := by
  simp [funcNameInList, Registry.init, initListHead, lookupFrom]

theorem holds_init (heap : Heap) (L fuel : ℕ) : (Registry.init heap L).Holds (fuel + 1) [] :=
  ⟨⟨[], visits_init L heap, List.Perm.refl _⟩, by simp, List.nodup_nil, List.Perm.refl _,
    lookup_init heap L fuel⟩

/-- **A list of one entry is never right**: looking up the entry's own name skips it. -/
theorem not_holds_single (fuel : ℕ) (r : Registry) (e : RegEntry) : ¬ r.Holds fuel [e] := by
  intro h
  obtain ⟨xs, hv, hperm⟩ := h.visits
  have hxs : xs = [e.node] := List.perm_singleton.1 hperm
  subst hxs
  obtain ⟨n, hn, hnext, hne, m, hm, hw⟩ := hv
  have hobj := h.entries e (List.mem_singleton_self e)
  have hlook := h.lookup e.fName
  have hback : m.next = r.funcNameList := hw
  rw [funcNameInList, hn, Option.bind_some, hnext] at hlook
  cases fuel with
  | zero => simp [lookupFrom] at hlook
  | succ fuel =>
    -- `strcmp` is 0 at the entry itself, and the loop goes on to the end
    rw [lookupFrom, if_neg hne, hobj, Option.bind_some, if_neg (by simp [strcmp_self]), hm,
      Option.bind_some, hback] at hlook
    cases fuel with
    | zero => simp [lookupFrom] at hlook
    | succ fuel => simp [lookupFrom] at hlook

/-- **Exactly when the registry is a set of names.** For every sequence of requests
with arbitrary names, the registry implements the set of registered names exactly
when every `register_kretprobe` of the sequence fails. -/
theorem registry_tracks_iff (heap : Heap) (L : ℕ) (cs : List RegCall) :
    (∃ fuel, Tracks (Registry.Holds fuel) (Registry.call fuel) registrySpec
        (Registry.init heap L) [] cs) ↔
      ∀ f env, RegCall.register f env ∈ cs → env.ret ≠ 0 := by
  constructor
  · rintro ⟨fuel, h⟩
    induction cs with
    | nil => intro f env hmem; simp at hmem
    | cons c cs ih =>
      -- every lookup on the empty list returns
      have hfuel : ∃ fuel', fuel = fuel' + 1 := by
        cases fuel with
        | zero =>
          have hl := h.rel.lookup []
          obtain ⟨xs, ⟨n, hn, -⟩, -⟩ := h.rel.visits
          rw [funcNameInList, hn] at hl
          simp [lookupFrom] at hl
        | succ fuel' => exact ⟨fuel', rfl⟩
      obtain ⟨fuel', rfl⟩ := hfuel
      have hlk := lookup_init heap L fuel'
      cases c with
      | unregister f =>
        have hcall : (Registry.init heap L).call (fuel' + 1) (.unregister f) =
            some (Registry.init heap L, none) := by
          simp [Registry.call, doKprobeUnregister, hlk]
        have hrest := ih (h.next hcall).2
        intro f' env' hmem
        rw [List.mem_cons] at hmem
        rcases hmem with hmem | hmem
        · cases hmem
        · exact hrest f' env' hmem
      | register f env =>
        by_cases hret : env.ret = 0
        · -- the entry is added, and no list of one entry is right
          exfalso
          obtain ⟨-, r', -, hrest⟩ := h
          have hspec : (registrySpec [] (.register f env)).1 = [⟨f, env.obj, env.kret⟩] := by
            simp [registrySpec, hret]
          rw [hspec] at hrest
          exact not_holds_single _ _ _ hrest.rel
        · have hcall : (Registry.init heap L).call (fuel' + 1) (.register f env) =
              some (Registry.init heap L, some ⟨env.ret, true⟩) := by
            simp [Registry.call, doKprobeRegister, hlk, hret]
          have hspec : (registrySpec [] (.register f env)).1 = [] := by simp [registrySpec, hret]
          have hnext := (h.next hcall).2
          rw [hspec] at hnext
          intro f' env' hmem
          rw [List.mem_cons] at hmem
          rcases hmem with hmem | hmem
          · cases hmem; exact hret
          · exact ih hnext f' env' hmem
  · intro h
    -- no entry is ever added, so one round of the loop is enough
    refine ⟨1, ?_⟩
    have hlk := lookup_init heap L 0
    induction cs with
    | nil => exact holds_init heap L 0
    | cons c cs ih =>
      have ih' := ih fun f env hmem => h f env (List.mem_cons_of_mem _ hmem)
      refine ⟨holds_init heap L 0, Registry.init heap L, ?_, ?_⟩
      · cases c with
        | unregister f => simp [Registry.call, doKprobeUnregister, hlk, registrySpec]
        | register f env =>
          have hret := h f env List.mem_cons_self
          simp [Registry.call, doKprobeRegister, hlk, registrySpec, hret]
      · have hspec : (registrySpec [] c).1 = [] := by
          cases c with
          | unregister f => rfl
          | register f env =>
            have hret := h f env List.mem_cons_self
            simp [registrySpec, hret]
        rw [hspec]; exact ih'

/-- A node and a kretprobe for the example: the node's links point to itself. -/
def demoEnv : KprobeEnv := ⟨0, 7, 2, ⟨2, 2⟩⟩

/-- **One successful registration** (with links that happen to make a good list), and
the registry no longer implements the set of names, whatever the number of entries
its loops may visit. -/
theorem registry_one_success :
    ¬ ∃ fuel, Tracks (Registry.Holds fuel) (Registry.call fuel) registrySpec
      (Registry.init (fun _ => none) 1) [] [.register [102] demoEnv] := by
  rintro ⟨fuel, h⟩
  obtain ⟨-, r', -, hrest⟩ := h
  exact not_holds_single fuel r' ⟨[102], 2, 7⟩ hrest

end HookKernel
