import Dynarec.Proofs.Flow.Landing

/-! # What resolving fixups changes

Resolving a fixup writes one word, over its own placeholder, and appends others. All else that the
next fixup depends on stays, the registers in use above all: so it stays for all fixups of an
emission, and each of their placeholders is written over once. -/

namespace Dynarec.Resolve

open Dynarec.Emit Dynarec.Emit.Emission Dynarec.Compile

variable {e : Setting} {s s' s'' : Emission} {f : Fixup} {w : Word}

/-! ### One fixup -/

/-- The word `w` is written over the placeholder of `f` and words are appended. -/
structure Patched (f : Fixup) (w : Word) (s s' : Emission) : Prop where
  code : ∃ added : Array Word, s'.code = s.code.setIfInBounds f.site w ++ added
  fixups : s'.fixups = s.fixups
  regs : s'.regs = s.regs
  targets : s'.targets = s.targets

namespace Patched

variable (h : Patched f w s s')

include h

theorem size : s.code.size ≤ s'.code.size := by
  obtain ⟨added, hcode⟩ := h.code
  rw [hcode, Array.size_append, Array.size_setIfInBounds]
  exact Nat.le_add_right _ _

theorem kept {k : Nat} (hk : k < s.code.size) (hne : f.site ≠ k) : s'.code[k]? = s.code[k]? := by
  obtain ⟨added, hcode⟩ := h.code
  rw [hcode, Array.getElem?_append_left (by rwa [Array.size_setIfInBounds]),
    Array.getElem?_setIfInBounds_ne hne]

theorem written (hk : f.site < s.code.size) : s'.code[f.site]? = some w := by
  obtain ⟨added, hcode⟩ := h.code
  rw [hcode, Array.getElem?_append_left (by rwa [Array.size_setIfInBounds]),
    Array.getElem?_setIfInBounds_self_of_lt hk]

end Patched

/-- Where no placeholder is left there is no fixup. -/
theorem fixupsFrom_of_lands {P : Nat → Nat → Prop} {k : Nat} {xs : List Item}
    (h : ItemsLand false P k xs) (n : Nat) : fixupsFrom n xs = [] := by
  induction xs generalizing k n with
  | nil => rfl
  | cons x xs ih =>
    obtain ⟨hx, hxs⟩ := allFrom_cons.mp h
    cases x with
    | op i => exact ih hxs (n + 1)
    | hole kind target c => cases hx
    | exit condition => exact ih hxs (n + 1)

/-- A sequence that fits has no placeholder of its own, and the host reads it back. -/
theorem resolved_lands_anywhere {u : RegisterUse} {targets : Word → Option Nat} {n : Nat}
    (hf : (resolved e u targets f n).fits) :
    ResolvedLands (fun _ _ => True) f.site n (resolved e u targets f n) :=
  resolved_lands ⟨fun _ => trivial, fun _ _ _ _ _ => trivial, fun _ _ _ _ => trivial,
    fun _ _ _ _ => ⟨trivial, fun _ _ _ => trivial⟩⟩ hf (Nat.le_refl _)

theorem one_patches {how : Resolution} (hsite : f.site < s.code.size) (hp : Pinned s.regs f)
    (ht : TargetsBelow s) (h : one f e s = .ok how s') : ∃ w, Patched f w s s' := by
  have hy := one_yields (e := e) f hsite hp ht
  have hfits := hy.of_ok how s' h
  rw [hy.run hfits] at h
  cases h
  refine ⟨_, ⟨_, rfl⟩, ?_, rfl, rfl⟩
  show s.fixups ++ (fixupsFrom _ _).toArray = s.fixups
  rw [fixupsFrom_of_lands (resolved_lands_anywhere hfits).tail, Array.append_empty]

/-! ### All fixups -/

/-- Resolving a fixup and then others. -/
theorem each_cons_eq_ok {tally total : Tally} {fs : List Fixup} :
    each tally (f :: fs) e s = .ok total s'' ↔
      s.code[f.site]? = some f.kind.placeholder.encode ∧ ∃ how s', one f e s = .ok how s' ∧
        each (tally.add how) fs e s' = .ok total s'' := by
  have hread : readWord? f.site e s = .ok s.code[f.site]? s := rfl
  simp only [each]
  rw [bind_run_ok hread]
  by_cases hplace : s.code[f.site]? = some f.kind.placeholder.encode
  · simp only [hplace, ne_eq, not_true_eq_false, if_false, true_and]
    exact bind_eq_ok
  · simp only [hplace, ne_eq, not_false_eq_true, if_true, false_and, iff_false]
    intro h
    cases h

theorem each_append_eq_ok {tally total : Tally} {fs gs : List Fixup} :
    each tally (fs ++ gs) e s = .ok total s'' ↔
      ∃ mid s', each tally fs e s = .ok mid s' ∧ each mid gs e s' = .ok total s'' := by
  induction fs generalizing tally s with
  | nil =>
    refine ⟨fun h => ⟨tally, s, rfl, h⟩, ?_⟩
    rintro ⟨mid, s', hnil, h⟩
    cases hnil
    exact h
  | cons f fs ih =>
    rw [List.cons_append, each_cons_eq_ok]
    constructor
    · rintro ⟨hplace, how, s₁, hone, hrest⟩
      obtain ⟨mid, s', hfs, hgs⟩ := ih.mp hrest
      exact ⟨mid, s', each_cons_eq_ok.mpr ⟨hplace, how, s₁, hone, hfs⟩, hgs⟩
    · rintro ⟨mid, s', hfs, hgs⟩
      obtain ⟨hplace, how, s₁, hone, hfs⟩ := each_cons_eq_ok.mp hfs
      exact ⟨hplace, how, s₁, hone, ih.mpr ⟨mid, s', hfs, hgs⟩⟩

/-- What resolving the fixups `fs` keeps. -/
structure KeepsBut (fs : List Fixup) (s s' : Emission) : Prop where
  code : ∀ k < s.code.size, (∀ f ∈ fs, f.site ≠ k) → s'.code[k]? = s.code[k]?
  size : s.code.size ≤ s'.code.size
  fixups : s'.fixups = s.fixups
  regs : s'.regs = s.regs
  targets : s'.targets = s.targets

theorem KeepsBut.targetsBelow {fs : List Fixup} (h : KeepsBut fs s s') (ht : TargetsBelow s) :
    TargetsBelow s' := by
  intro t k hk
  rw [h.targets] at hk
  exact Nat.lt_of_lt_of_le (ht t k hk) h.size

/-- The fixups can be resolved: each has its place in the code, and its registers are in use. -/
def Resolvable (fs : List Fixup) (s : Emission) : Prop :=
  ∀ f ∈ fs, f.site < s.code.size ∧ Pinned s.regs f

theorem KeepsBut.resolvable {fs gs : List Fixup} (h : KeepsBut fs s s') (hg : Resolvable gs s) :
    Resolvable gs s' := by
  intro f hf
  rw [h.regs]
  exact ⟨Nat.lt_of_lt_of_le (hg f hf).1 h.size, (hg f hf).2⟩

theorem Patched.keepsBut (h : Patched f w s s') : KeepsBut [f] s s' :=
  ⟨fun _ hk hne => h.kept hk (hne f List.mem_cons_self), h.size, h.fixups, h.regs, h.targets⟩

theorem KeepsBut.trans {fs gs : List Fixup} (h : KeepsBut fs s s') (h' : KeepsBut gs s' s'') :
    KeepsBut (fs ++ gs) s s'' := by
  refine ⟨fun k hk hne => ?_, Nat.le_trans h.size h'.size, h'.fixups.trans h.fixups,
    h'.regs.trans h.regs, h'.targets.trans h.targets⟩
  obtain ⟨hfs, hgs⟩ := List.forall_mem_append.mp hne
  rw [h'.code k (Nat.lt_of_lt_of_le hk h.size) hgs, h.code k hk hfs]

theorem each_keepsBut {tally total : Tally} {fs : List Fixup} (hf : Resolvable fs s)
    (ht : TargetsBelow s) (h : each tally fs e s = .ok total s') : KeepsBut fs s s' := by
  induction fs generalizing tally s with
  | nil =>
    cases h
    exact ⟨fun _ _ _ => rfl, Nat.le_refl _, rfl, rfl, rfl⟩
  | cons f fs ih =>
    obtain ⟨-, how, s₁, hone, hrest⟩ := each_cons_eq_ok.mp h
    obtain ⟨⟨hsite, hpinned⟩, hfs⟩ := List.forall_mem_cons.mp hf
    obtain ⟨w, hw⟩ := one_patches hsite hpinned ht hone
    have hkeeps := hw.keepsBut
    exact hkeeps.trans (ih (hkeeps.resolvable hfs) (hkeeps.targetsBelow ht) hrest)

/-! ### Sites -/

theorem site_bounds {k : Nat} {xs : List Item} {f : Fixup} (hf : f ∈ fixupsFrom k xs) :
    k ≤ f.site ∧ f.site < k + xs.length := by
  induction xs generalizing k with
  | nil => cases hf
  | cons x xs ih =>
    rw [List.length_cons]
    rcases List.mem_append.mp hf with hf | hf
    · have hsite := (fixup?_eq_some (Option.mem_toList.mp hf)).1
      omega
    · have hbounds := ih hf
      omega

/-- Every placeholder of some items has its own place. -/
theorem sites_pairwise (k : Nat) (xs : List Item) :
    (fixupsFrom k xs).Pairwise (fun f g => f.site < g.site) := by
  induction xs generalizing k with
  | nil => exact .nil
  | cons x xs ih =>
    refine List.pairwise_append.mpr ⟨?_, ih (k + 1), fun f hf g hg => ?_⟩
    · cases x.fixup? k with
      | none => exact .nil
      | some f => exact List.pairwise_singleton _ _
    · have hsite := (fixup?_eq_some (Option.mem_toList.mp hf)).1
      have hbounds := site_bounds hg
      omega

end Dynarec.Resolve
