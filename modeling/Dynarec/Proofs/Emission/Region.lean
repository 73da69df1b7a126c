import Mathlib.Data.List.Induction
import Dynarec.Proofs.Emission
import Dynarec.Proofs.Host.Branch
import Dynarec.Proofs.Machine.Host

/-! # Branch-over regions

Words are emitted while regions open and close, in any order of conditions. Whatever the order, the
branch of a region skips exactly the words that were emitted under its condition: a region that got
no word leaves nothing behind, and no other word is touched when a region closes. -/

namespace Dynarec.Emit

open Host (fits19)

namespace Emission

variable {s : Emission} {j k : Nat} {c : Cond}

/-- A region is open exactly while there is a condition, and its branch waits for a displacement. -/
structure RegionSound (s : Emission) : Prop where
  site_iff : (∃ k, s.region.site = some k) ↔ s.region.active ≠ .al
  waiting : ∀ k, s.region.site = some k →
    s.code[k]? = some (Host.Instr.bCond s.region.active.invert 0).encode

theorem RegionSound.site_lt (h : s.RegionSound) (hk : s.region.site = some k) : k < s.code.size :=
  (Array.getElem?_eq_some_iff.mp (h.waiting k hk)).1

/-- The branch of the region in progress reaches behind it. -/
def RegionFits (s : Emission) : Prop :=
  ∀ k, s.region.site = some k → fits19 (displacement k s.code.size) = true

/-! ### Closing and opening -/

/-- The code when the region in progress is closed: without its branch if nothing came behind it,
else with the displacement of the branch. -/
def sealedCode (s : Emission) : Array Word :=
  match s.region.site with
  | none => s.code
  | some k =>
    if s.code.size = k + 1 then s.code.pop
    else s.code.setIfInBounds k
      (Host.Instr.bCond s.region.active.invert (displacement k s.code.size)).encode

def sealed (s : Emission) : Emission :=
  { s with code := s.sealedCode, region := { s.region with active := .al, site := none } }

def opened (s : Emission) (c : Cond) : Emission :=
  { s with
    code := s.code.push (Host.Instr.bCond c.invert 0).encode
    region := { s.region with active := c, site := some s.code.size } }

theorem sealedCode_none (h : s.region.site = none) : s.sealedCode = s.code := by
  simp only [sealedCode, h]

theorem sealedCode_empty (h : s.region.site = some k) (hn : s.code.size = k + 1) :
    s.sealedCode = s.code.pop := by
  simp only [sealedCode, h, hn, if_true]

theorem sealedCode_some (h : s.region.site = some k) (hn : s.code.size ≠ k + 1) :
    s.sealedCode = s.code.setIfInBounds k
      (Host.Instr.bCond s.region.active.invert (displacement k s.code.size)).encode := by
  simp only [sealedCode, h, hn, if_false]

end Emission

open Emission

variable {e : Setting} {s s' t : Emission} {j k n : Nat} {c : Cond}

theorem closeRegion_yields (h : s.RegionSound) :
    Yields closeRegion e s s.RegionFits () s.sealed := by
  let d : Emission := { s with region := { s.region with active := .al, site := none } }
  have htake : takeRegionSite e s = .ok s.region.site d := rfl
  cases hsite : s.region.site with
  | none =>
    have hfits : s.RegionFits := fun k hk => by
      rw [hsite] at hk
      cases hk
    refine (Yields.of_run ?_).congr (iff_of_true trivial hfits)
    rw [hsite] at htake
    refine (bind_run_ok htake).trans ?_
    rw [sealed, sealedCode_none hsite]
    rfl
  | some k =>
    have hlt := h.site_lt hsite
    have hfits : fits19 (displacement k s.code.size) = true ↔ s.RegionFits := by
      constructor
      · intro hf j hj
        cases hsite.symm.trans hj
        exact hf
      · exact fun hf => hf k hsite
    refine Yields.congr ?_ hfits
    rw [hsite] at htake
    by_cases hn : s.code.size = k + 1
    · have hdisp : displacement k s.code.size = 1 := by
        unfold displacement
        omega
      refine (Yields.of_run ?_).congr (iff_of_true trivial (by rw [hdisp]; rfl))
      refine (bind_run_ok htake).trans ?_
      simp only [run_bind, ip_run, d, hdisp, beq_self_eq_true, if_true, eraseLast, run_modifyGet,
        run_pure, sealed, sealedCode_empty hsite hn]
    · have hdisp : (displacement k s.code.size == 1) = false := by
        rw [beq_eq_false_iff_ne]
        unfold displacement
        omega
      have hrun : closeRegion e s = if fits19 (displacement k s.code.size) = true then
          .ok () s.sealed
          else .error (.error (.conditionalRegionTooLong k (displacement k s.code.size))) d := by
        refine (bind_run_ok htake).trans ?_
        simp only [run_bind, ip_run, d, hdisp, Bool.false_eq_true, if_false]
        by_cases hf : fits19 (displacement k s.code.size) = true
        · simp only [hf, Bool.not_true, Bool.false_eq_true, if_false, if_true, run_bind, readWord?,
            run_get, run_pure, h.waiting k hsite, Host.withDisp_bCond]
          rw [sealed, sealedCode_some hsite hn]
          exact writeWord_run _ e hlt
        · simp only [hf, Bool.not_false, if_true, run_fail, Bool.false_eq_true, if_false]
      exact .of_ite hrun

theorem openRegion_opened (c : Cond) (s : Emission) : openRegion c e s = .ok () (s.opened c) := by
  refine (bind_run_ok (emitInstr_run rfl e s)).trans ?_
  rw [run_modify]
  rfl

/-! ### Calls -/

/-- What may be done to the code while regions open and close. -/
inductive RegionAct where
  | transition (c : Cond)
  | close
  | emit (w : Word)
  deriving DecidableEq, Repr

namespace RegionAct

def perform : RegionAct → Emit Unit
  | transition c => Emit.transition c
  | close => closeRegion
  | emit w => discard (emitWord w)

/-- Whether a region in progress ends with the call. -/
def Closes (s : Emission) : RegionAct → Prop
  | transition c => c ≠ s.region.active
  | close => True
  | emit _ => False

def next (s : Emission) : RegionAct → Emission
  | transition c =>
    if c = s.region.active then s else if c = .al then s.sealed else s.sealed.opened c
  | close => s.sealed
  | emit w => { s with code := s.code.push w }

end RegionAct

theorem perform_yields (h : s.RegionSound) (a : RegionAct) :
    Yields a.perform e s (a.Closes s → s.RegionFits) () (a.next s) := by
  cases a with
  | emit w =>
    have hrun : (RegionAct.emit w).perform e s = .ok () ((RegionAct.emit w).next s) := rfl
    exact (Yields.of_run hrun).congr (iff_of_true trivial False.elim)
  | close => exact (closeRegion_yields h).congr ⟨fun hf _ => hf, fun hf => hf trivial⟩
  | transition c =>
    unfold RegionAct.perform transition RegionAct.Closes RegionAct.next
    refine Yields.after (run_get e s) ?_
    by_cases hc : c = s.region.active
    · simp only [hc, ne_eq, not_true_eq_false, if_false, if_true, false_implies]
      exact Yields.of_run rfl
    · simp only [ne_eq, hc, not_false_eq_true, if_true, if_false, true_implies]
      refine (closeRegion_yields h).before ?_
      by_cases ha : c = .al
      · subst ha
        rfl
      · have hal : c.isAlways = false := Bool.eq_false_iff.mpr fun h => ha ((c.isAlways_iff).mp h)
        simp only [hal, ha, Bool.not_false, if_true, if_false]
        exact openRegion_opened c s.sealed

/-- What a call does: it adds a word, changes nothing, or ends a region and may start another. -/
theorem next_cases (a : RegionAct) (s : Emission) :
    (∃ w, a = .emit w ∧ a.next s = { s with code := s.code.push w }) ∨
    (¬ a.Closes s ∧ a.next s = s) ∨
    (a.Closes s ∧ (a.next s = s.sealed ∨ ∃ c, c ≠ .al ∧ a.next s = s.sealed.opened c)) := by
  cases a with
  | emit w => exact .inl ⟨w, rfl, rfl⟩
  | close => exact .inr (.inr ⟨trivial, .inl rfl⟩)
  | transition c =>
    refine .inr ?_
    unfold RegionAct.Closes RegionAct.next
    by_cases hc : c = s.region.active
    · exact .inl ⟨not_not_intro hc, if_pos hc⟩
    · refine .inr ⟨hc, ?_⟩
      by_cases ha : c = .al
      · exact .inl ((if_neg hc).trans (if_pos ha))
      · exact .inr ⟨c, ha, (if_neg hc).trans (if_neg ha)⟩

/-! ### What one call keeps -/

namespace Emission

theorem RegionSound.sealed (s : Emission) : s.sealed.RegionSound := by
  refine ⟨⟨?_, fun h => absurd rfl h⟩, fun k hk => by cases hk⟩
  rintro ⟨k, hk⟩
  cases hk

theorem RegionSound.opened (s : Emission) (hc : c ≠ .al) : (s.opened c).RegionSound := by
  refine ⟨iff_of_true ⟨_, rfl⟩ hc, fun k hk => ?_⟩
  cases hk
  exact Array.getElem?_push_size

theorem RegionSound.push (h : s.RegionSound) (w : Word) :
    RegionSound { s with code := s.code.push w } := by
  refine ⟨h.site_iff, fun k hk => ?_⟩
  exact (Array.getElem?_push_lt (h.site_lt hk)).trans
    ((Array.getElem?_eq_getElem (h.site_lt hk)).symm.trans (h.waiting k hk))

theorem RegionSound.next (h : s.RegionSound) (a : RegionAct) : (a.next s).RegionSound := by
  obtain ⟨w, -, heq⟩ | ⟨-, heq⟩ | ⟨-, heq | ⟨c, hc, heq⟩⟩ := next_cases a s <;> rw [heq]
  · exact h.push w
  · exact h
  · exact RegionSound.sealed s
  · exact RegionSound.opened s.sealed hc

/-- The word at `k` has its final form: it is not the branch of the region in progress. -/
def Settled (s : Emission) (k : Nat) : Prop := k < s.code.size ∧ s.region.site ≠ some k

theorem Settled.sealed (h : s.Settled k) :
    s.sealed.Settled k ∧ s.sealed.code[k]? = s.code[k]? := by
  obtain ⟨hlt, hsite⟩ := h
  cases hj : s.region.site with
  | none =>
    have hcode : s.sealed.code = s.code := sealedCode_none hj
    exact ⟨⟨hcode ▸ hlt, fun h => by cases h⟩, by rw [hcode]⟩
  | some j =>
    have hne : k ≠ j := fun h => hsite (h ▸ hj)
    by_cases hn : s.code.size = j + 1
    · -- The word that is erased is the branch itself, since nothing came behind it.
      have hcode : s.sealed.code = s.code.pop := sealedCode_empty hj hn
      have hlt' : k < s.code.size - 1 := by omega
      refine ⟨⟨?_, fun h => by cases h⟩, ?_⟩
      · rw [hcode, Array.size_pop]
        exact hlt'
      · rw [hcode, Array.getElem?_pop, if_pos hlt']
    · have hcode : s.sealed.code = _ := sealedCode_some hj hn
      refine ⟨⟨?_, fun h => by cases h⟩, ?_⟩
      · rw [hcode, Array.size_setIfInBounds]
        exact hlt
      · rw [hcode, Array.getElem?_setIfInBounds_ne hne.symm]

theorem Settled.opened (h : k < s.code.size) (c : Cond) :
    (s.opened c).Settled k ∧ (s.opened c).code[k]? = s.code[k]? := by
  have hcode : (s.opened c).code = s.code.push (Host.Instr.bCond c.invert 0).encode := rfl
  refine ⟨⟨?_, fun hk => ?_⟩, ?_⟩
  · rw [hcode, Array.size_push]
    omega
  · cases hk
    exact absurd h (Nat.lt_irrefl _)
  · rw [hcode, Array.getElem?_push_lt h, Array.getElem?_eq_getElem h]

theorem Settled.next (h : s.Settled k) (a : RegionAct) :
    (a.next s).Settled k ∧ (a.next s).code[k]? = s.code[k]? := by
  obtain ⟨w, -, heq⟩ | ⟨-, heq⟩ | ⟨-, heq | ⟨c, hc, heq⟩⟩ := next_cases a s <;> rw [heq]
  · refine ⟨⟨?_, h.2⟩, ?_⟩
    · rw [Array.size_push]
      exact Nat.lt_succ_of_lt h.1
    · rw [Array.getElem?_push_lt h.1, Array.getElem?_eq_getElem h.1]
  · exact ⟨h, rfl⟩
  · exact h.sealed
  · obtain ⟨hset, hcode⟩ := h.sealed
    obtain ⟨hset', hcode'⟩ := Settled.opened hset.1 c
    exact ⟨hset', hcode'.trans hcode⟩

/-- A region that got words leaves its branch, with the displacement behind its last word. -/
theorem sealed_branch (h : s.RegionSound) (hj : s.region.site = some j)
    (hn : j + 1 < s.code.size) : s.sealed.Settled j ∧ s.sealed.code[j]? =
      some (Host.Instr.bCond s.region.active.invert (displacement j s.code.size)).encode := by
  have hcode : s.sealed.code = _ := sealedCode_some hj (Nat.ne_of_gt hn)
  refine ⟨⟨?_, fun h => by cases h⟩, ?_⟩
  · rw [hcode, Array.size_setIfInBounds]
    exact h.site_lt hj
  · rw [hcode, Array.getElem?_setIfInBounds_self_of_lt (h.site_lt hj)]

theorem closes_branch (h : s.RegionSound) {a : RegionAct} (ha : a.Closes s)
    (hj : s.region.site = some j) (hn : j + 1 < s.code.size) :
    (a.next s).Settled j ∧ (a.next s).code[j]? =
      some (Host.Instr.bCond s.region.active.invert (displacement j s.code.size)).encode := by
  obtain ⟨hset, hcode⟩ := sealed_branch h hj hn
  obtain ⟨w, rfl, -⟩ | ⟨hclose, -⟩ | ⟨-, heq | ⟨c, -, heq⟩⟩ := next_cases a s
  · exact ha.elim
  · exact absurd ha hclose
  · rw [heq]
    exact ⟨hset, hcode⟩
  · obtain ⟨hset', hcode'⟩ := Settled.opened hset.1 c
    rw [heq]
    exact ⟨hset', hcode'.trans hcode⟩

/-- A region without words is erased; the branch of the next one may take its place. -/
theorem closes_empty {a : RegionAct} (ha : a.Closes s) (hj : s.region.site = some j)
    (hn : s.code.size = j + 1) :
    ((a.next s).region.site = none ∧ (a.next s).code = s.code.pop) ∨
      ((a.next s).region.site = some j ∧ (a.next s).code.pop = s.code.pop) := by
  have hcode : s.sealed.code = s.code.pop := sealedCode_empty hj hn
  obtain ⟨w, rfl, -⟩ | ⟨hclose, -⟩ | ⟨-, heq | ⟨c, -, heq⟩⟩ := next_cases a s
  · exact ha.elim
  · exact absurd ha hclose
  · rw [heq]
    exact .inl ⟨rfl, hcode⟩
  · have hsite : (s.sealed.opened c).region.site = some s.sealed.code.size := rfl
    have hpush : (s.sealed.opened c).code.pop = s.sealed.code := Array.pop_push
    rw [heq, hsite, hpush, hcode, Array.size_pop, hn, Nat.add_sub_cancel]
    exact .inr ⟨rfl, rfl⟩

theorem size_sealed_le (s : Emission) : s.sealed.code.size ≤ s.code.size := by
  cases hj : s.region.site with
  | none => exact Nat.le_of_eq (congrArg Array.size (sealedCode_none hj))
  | some j =>
    by_cases hn : s.code.size = j + 1
    · have hcode : s.sealed.code = s.code.pop := sealedCode_empty hj hn
      rw [hcode, Array.size_pop]
      exact Nat.sub_le _ _
    · have hcode : s.sealed.code = _ := sealedCode_some hj hn
      exact Nat.le_of_eq (by rw [hcode, Array.size_setIfInBounds])

theorem size_sealed_empty (hj : s.region.site = some j) (hn : s.code.size = j + 1) :
    s.sealed.code.size = j := by
  have hcode : s.sealed.code = s.code.pop := sealedCode_empty hj hn
  rw [hcode, Array.size_pop, hn, Nat.add_sub_cancel]

end Emission

/-! ### Calls one after another -/

def performAll : List RegionAct → Emit Unit
  | [] => pure ()
  | a :: acts => do
    a.perform
    performAll acts

/-- All calls end well on a fresh emission and leave `s`. -/
def Ran (e : Setting) (acts : List RegionAct) (s : Emission) : Prop :=
  performAll acts e {} = .ok () s

variable {acts pre post : List RegionAct} {a b : RegionAct} {w : Word}

theorem performAll_append (pre post : List RegionAct) :
    performAll (pre ++ post) e s = .ok () t ↔
      ∃ s', performAll pre e s = .ok () s' ∧ performAll post e s' = .ok () t := by
  induction pre generalizing s with
  | nil =>
    constructor
    · exact fun h => ⟨s, rfl, h⟩
    · rintro ⟨s', hs, h⟩
      cases hs
      exact h
  | cons a pre ih =>
    simp only [List.cons_append, performAll, bind_eq_ok, ih]
    constructor
    · rintro ⟨u, s₁, ha, s', hpre, hpost⟩
      exact ⟨s', ⟨u, s₁, ha, hpre⟩, hpost⟩
    · rintro ⟨s', ⟨u, s₁, ha, hpre⟩, hpost⟩
      exact ⟨u, s₁, ha, s', hpre, hpost⟩

theorem Ran.unique (h : Ran e acts s) (h' : Ran e acts t) : s = t := by
  cases h.symm.trans h'
  rfl

theorem Ran.split (h : Ran e (pre ++ post) t) : ∃ s, Ran e pre s ∧ performAll post e s = .ok () t :=
  (performAll_append pre post).mp h

theorem perform_eq_ok (h : s.RegionSound) (ha : a.perform e s = .ok () t) :
    (a.Closes s → s.RegionFits) ∧ t = a.next s := by
  have hyields := perform_yields (e := e) h a
  have hfits := hyields.of_ok () t ha
  cases ha.symm.trans (hyields.run hfits)
  exact ⟨hfits, rfl⟩

theorem Ran.snoc (h : Ran e (acts ++ [a]) t) : ∃ s, Ran e acts s ∧ a.perform e s = .ok () t := by
  obtain ⟨s, hs, hlast⟩ := h.split
  obtain ⟨u, t', ha, hdone⟩ := bind_eq_ok.mp hlast
  cases hdone
  exact ⟨s, hs, ha⟩

theorem Ran.sound (h : Ran e acts s) : s.RegionSound := by
  induction acts using List.reverseRecOn generalizing s with
  | nil =>
    cases h
    exact RegionSound.sealed {}
  | append_singleton acts a ih =>
    obtain ⟨s₀, hs₀, ha⟩ := h.snoc
    rw [(perform_eq_ok (ih hs₀) ha).2]
    exact (ih hs₀).next a

theorem Ran.last (h : Ran e (acts ++ [a]) t) :
    ∃ s, Ran e acts s ∧ (a.Closes s → s.RegionFits) ∧ t = a.next s := by
  obtain ⟨s, hs, ha⟩ := h.snoc
  exact ⟨s, hs, perform_eq_ok hs.sound ha⟩

theorem Ran.next (h : Ran e acts s) (hfits : a.Closes s → s.RegionFits) :
    Ran e (acts ++ [a]) (a.next s) := by
  refine (performAll_append acts [a]).mpr ⟨s, h, ?_⟩
  exact bind_run_ok ((perform_yields h.sound a).run hfits)

/-- What holds at the start, and behind a call if it holds before it, holds behind all calls. -/
theorem Ran.rec_snoc {motive : List RegionAct → Emission → Prop} (nil : motive [] {})
    (snoc : ∀ acts s a, Ran e acts s → motive acts s → motive (acts ++ [a]) (a.next s))
    (h : Ran e acts s) : motive acts s := by
  induction acts using List.reverseRecOn generalizing s with
  | nil =>
    cases h
    exact nil
  | append_singleton acts a ih =>
    obtain ⟨s₀, hs₀, -, rfl⟩ := h.last
    exact snoc acts s₀ a hs₀ (ih hs₀)

/-! ### Moments of a run -/

/-- Among the calls there is `a`, made when the emission was `t`. -/
def Met (e : Setting) (acts : List RegionAct) (t : Emission) (a : RegionAct) : Prop :=
  ∃ pre post, acts = pre ++ a :: post ∧ Ran e pre t

/-- The word was emitted at index `k` while `c` was the condition. -/
def Wrote (e : Setting) (acts : List RegionAct) (c : Cond) (k : Nat) (w : Word) : Prop :=
  ∃ t, Met e acts t (.emit w) ∧ t.region.active = c ∧ t.code.size = k

/-- A region of `c` whose branch stands at `j` was closed when the code ended at `n`. -/
def Spanned (e : Setting) (acts : List RegionAct) (c : Cond) (j n : Nat) : Prop :=
  ∃ t a, Met e acts t a ∧ a.Closes t ∧ t.region.active = c ∧ t.region.site = some j ∧
    t.code.size = n

theorem not_met_nil : ¬ Met e [] t a := by
  rintro ⟨pre, post, heq, -⟩
  exact List.append_ne_nil_of_right_ne_nil pre (List.cons_ne_nil _ _) heq.symm

theorem met_snoc (h : Ran e acts s) :
    Met e (acts ++ [a]) t b ↔ Met e acts t b ∨ (t = s ∧ b = a) := by
  constructor
  · rintro ⟨pre, post, heq, hpre⟩
    cases post using List.reverseRecOn with
    | nil =>
      obtain ⟨rfl, hb⟩ := List.append_inj' heq rfl
      cases hb
      exact .inr ⟨hpre.unique h, rfl⟩
    | append_singleton post d =>
      rw [← List.cons_append, ← List.append_assoc] at heq
      exact .inl ⟨pre, post, (List.append_inj' heq rfl).1, hpre⟩
  · rintro (⟨pre, post, rfl, hpre⟩ | ⟨rfl, rfl⟩)
    · exact ⟨pre, post ++ [a], by rw [List.append_assoc, List.cons_append], hpre⟩
    · exact ⟨acts, [], rfl, h⟩

theorem wrote_snoc (h : Ran e acts s) : Wrote e (acts ++ [a]) c k w ↔
    Wrote e acts c k w ∨ (a = .emit w ∧ s.region.active = c ∧ s.code.size = k) := by
  unfold Wrote
  simp only [met_snoc h]
  constructor
  · rintro ⟨t, ht | ⟨rfl, ha⟩, hat⟩
    · exact .inl ⟨t, ht, hat⟩
    · exact .inr ⟨ha.symm, hat⟩
  · rintro (⟨t, ht, hat⟩ | ⟨ha, hat⟩)
    · exact ⟨t, .inl ht, hat⟩
    · exact ⟨s, .inr ⟨rfl, ha.symm⟩, hat⟩

theorem spanned_snoc (h : Ran e acts s) : Spanned e (acts ++ [a]) c j n ↔
    Spanned e acts c j n ∨
      (a.Closes s ∧ s.region.active = c ∧ s.region.site = some j ∧ s.code.size = n) := by
  unfold Spanned
  simp only [met_snoc h]
  constructor
  · rintro ⟨t, b, ht | ⟨rfl, rfl⟩, hat⟩
    · exact .inl ⟨t, b, ht, hat⟩
    · exact .inr hat
  · rintro (⟨t, b, ht, hat⟩ | hat)
    · exact ⟨t, b, .inl ht, hat⟩
    · exact ⟨s, a, .inr ⟨rfl, rfl⟩, hat⟩

/-- Index `k` is strictly inside a region of `c`, closed or still open. -/
def Inside (e : Setting) (acts : List RegionAct) (s : Emission) (c : Cond) (k : Nat) : Prop :=
  (∃ j n, Spanned e acts c j n ∧ j < k ∧ k < n) ∨
    (s.region.active = c ∧ ∃ j, s.region.site = some j ∧ j < k ∧ k < s.code.size)

/-! ### What a run keeps -/

theorem settled_of_append (h : Ran e (pre ++ post) s) (ht : Ran e pre t) (hk : t.Settled k) :
    s.Settled k ∧ s.code[k]? = t.code[k]? := by
  induction post using List.reverseRecOn generalizing s with
  | nil =>
    rw [List.append_nil] at h
    cases h.unique ht
    exact ⟨hk, rfl⟩
  | append_singleton post a ih =>
    rw [← List.append_assoc] at h
    obtain ⟨s₀, hs₀, -, rfl⟩ := h.last
    obtain ⟨hset, hcode⟩ := ih hs₀
    obtain ⟨hset', hcode'⟩ := hset.next a
    exact ⟨hset', hcode'.trans hcode⟩

theorem Met.ran_next (hm : Met e acts t a) (h : Ran e acts s) :
    ∃ pre post, acts = pre ++ [a] ++ post ∧ Ran e (pre ++ [a]) (a.next t) ∧
      (a.Closes t → t.RegionFits) := by
  obtain ⟨pre, post, rfl, hpre⟩ := hm
  rw [← List.singleton_append, ← List.append_assoc] at h ⊢
  obtain ⟨t', ht', -⟩ := h.split
  obtain ⟨t₀, ht₀, hfits, rfl⟩ := ht'.last
  cases ht₀.unique hpre
  exact ⟨pre, post, rfl, ht', hfits⟩

theorem Met.settled (hm : Met e acts t a) (h : Ran e acts s) (hk : (a.next t).Settled k) :
    s.Settled k ∧ s.code[k]? = (a.next t).code[k]? := by
  obtain ⟨pre, post, rfl, hnext, -⟩ := hm.ran_next h
  exact settled_of_append h hnext hk

theorem Met.sound (hm : Met e acts t a) : t.RegionSound := by
  obtain ⟨pre, post, -, hpre⟩ := hm
  exact hpre.sound

theorem Ran.wrote (h : Ran e acts s) (hw : Wrote e acts c k w) :
    s.Settled k ∧ s.code[k]? = some w := by
  obtain ⟨t, ht, -, rfl⟩ := hw
  have hsettled : ((RegionAct.emit w).next t).Settled t.code.size := by
    refine ⟨?_, fun hk => absurd (ht.sound.site_lt hk) (Nat.lt_irrefl _)⟩
    exact (Array.size_push w).symm ▸ Nat.lt_succ_self _
  obtain ⟨hset, hcode⟩ := ht.settled h hsettled
  exact ⟨hset, hcode.trans Array.getElem?_push_size⟩

theorem Ran.spanned (h : Ran e acts s) (hc : Spanned e acts c j n) (hn : j + 1 < n) :
    fits19 (displacement j n) = true ∧ s.Settled j ∧
      s.code[j]? = some (Host.Instr.bCond c.invert (displacement j n)).encode := by
  obtain ⟨t, a, ht, ha, rfl, hj, rfl⟩ := hc
  obtain ⟨hset, hcode⟩ := closes_branch ht.sound ha hj hn
  obtain ⟨hset', hcode'⟩ := ht.settled h hset
  obtain ⟨-, -, -, -, hfits⟩ := ht.ran_next h
  exact ⟨hfits ha j hj, hset', hcode'.trans hcode⟩

theorem Ran.wrote_of_open (h : Ran e acts s) : ∀ j k, s.region.site = some j → j < k →
    k < s.code.size → ∃ w, Wrote e acts s.region.active k w := by
  refine h.rec_snoc (motive := fun acts s => ∀ j k, s.region.site = some j → j < k →
    k < s.code.size → ∃ w, Wrote e acts s.region.active k w) (fun j k hj => by cases hj) ?_
  intro acts s a hs ih j k hj hlo hhi
  simp only [wrote_snoc hs]
  obtain ⟨w, ha, heq⟩ | ⟨-, heq⟩ | ⟨-, heq | ⟨c, -, heq⟩⟩ := next_cases a s <;>
    rw [heq] at hj hhi ⊢
  · rw [Array.size_push] at hhi
    by_cases hk : k = s.code.size
    · exact ⟨w, .inr ⟨ha, rfl, hk.symm⟩⟩
    · obtain ⟨v, hv⟩ := ih j k hj hlo (by omega)
      exact ⟨v, .inl hv⟩
  · obtain ⟨v, hv⟩ := ih j k hj hlo hhi
    exact ⟨v, .inl hv⟩
  · cases hj
  · -- The region has just been opened, so nothing is behind its branch.
    cases hj
    have hsize : (s.sealed.opened c).code.size = s.sealed.code.size + 1 := Array.size_push _
    omega

theorem Inside.next (hs : Ran e acts s) (h : Inside e acts s c k) (a : RegionAct) :
    Inside e (acts ++ [a]) (a.next s) c k := by
  unfold Inside
  simp only [spanned_snoc hs]
  rcases h with ⟨j, n, hspan, hk⟩ | ⟨hc, j, hj, hlo, hhi⟩
  · exact .inl ⟨j, n, .inl hspan, hk⟩
  · obtain ⟨w, -, heq⟩ | ⟨-, heq⟩ | ⟨hclose, -⟩ := next_cases a s
    · rw [heq]
      exact .inr ⟨hc, j, hj, hlo, (Array.size_push w).symm ▸ Nat.lt_succ_of_lt hhi⟩
    · rw [heq]
      exact .inr ⟨hc, j, hj, hlo, hhi⟩
    · exact .inl ⟨j, s.code.size, .inr ⟨hclose, hc, hj, rfl⟩, hlo, hhi⟩

theorem Ran.inside_of_wrote (h : Ran e acts s) (hc : c ≠ .al) :
    ∀ k w, Wrote e acts c k w → Inside e acts s c k := by
  refine h.rec_snoc (motive := fun acts s => ∀ k w, Wrote e acts c k w → Inside e acts s c k) ?_ ?_
  · rintro k w ⟨t, ht, -⟩
    exact absurd ht not_met_nil
  · intro acts s a hs ih k w hw
    rcases (wrote_snoc hs).mp hw with hw | ⟨rfl, rfl, rfl⟩
    · exact (ih k w hw).next hs a
    · obtain ⟨j, hj⟩ := hs.sound.site_iff.mpr hc
      exact .inr ⟨rfl, j, hj, hs.sound.site_lt hj, (Array.size_push w).symm ▸ Nat.lt_succ_self _⟩

theorem Wrote.append (h : Wrote e pre c k w) (post : List RegionAct) :
    Wrote e (pre ++ post) c k w := by
  obtain ⟨t, ⟨p, q, rfl, hp⟩, hat⟩ := h
  exact ⟨t, ⟨p, q ++ post, by rw [List.append_assoc, List.cons_append], hp⟩, hat⟩

theorem Ran.wrote_of_inside (h : Ran e acts s) (hk : Inside e acts s c k) :
    ∃ w, Wrote e acts c k w := by
  rcases hk with ⟨j, n, ⟨t, a, ⟨pre, post, rfl, hpre⟩, -, rfl, hj, rfl⟩, hlo, hhi⟩ |
    ⟨rfl, j, hj, hlo, hhi⟩
  · obtain ⟨w, hw⟩ := hpre.wrote_of_open j k hj hlo hhi
    exact ⟨w, hw.append _⟩
  · exact h.wrote_of_open j k hj hlo hhi

/-- A call keeps the branch of the region in progress until the region closes. A region without
words gives its place to the branch of the next one, or to nothing. -/
theorem site_next (h : s.RegionSound) (a : RegionAct) (hk : s.region.site = some k)
    (hlt : k < (a.next s).code.size) :
    (a.next s).region.site = some k ∨ (a.Closes s ∧ k + 1 < s.code.size) := by
  obtain ⟨w, -, heq⟩ | ⟨-, heq⟩ | ⟨hclose, hnext⟩ := next_cases a s
  · rw [heq]
    exact .inl hk
  · rw [heq]
    exact .inl hk
  · by_cases hn : s.code.size = k + 1
    · have hsize := size_sealed_empty hk hn
      rcases hnext with heq | ⟨c, -, heq⟩
      · rw [heq] at hlt
        omega
      · rw [heq]
        exact .inl (congrArg some hsize)
    · have hsite := h.site_lt hk
      exact .inr ⟨hclose, by omega⟩

theorem added_next (a : RegionAct) (hk : ¬ k < s.code.size) (hlt : k < (a.next s).code.size) :
    (s.code.size = k ∧ ∃ w, a = .emit w) ∨ (a.next s).region.site = some k := by
  have hle := size_sealed_le s
  obtain ⟨w, ha, heq⟩ | ⟨-, heq⟩ | ⟨-, heq | ⟨c, -, heq⟩⟩ := next_cases a s <;>
    rw [heq] at hlt
  · rw [Array.size_push] at hlt
    exact .inl ⟨by omega, w, ha⟩
  · exact absurd hlt hk
  · omega
  · have hsize : (s.sealed.opened c).code.size = s.sealed.code.size + 1 := Array.size_push _
    rw [heq]
    exact .inr (congrArg some (show s.sealed.code.size = k by omega))

theorem Ran.words (h : Ran e acts s) : ∀ k < s.code.size, (∃ c w, Wrote e acts c k w) ∨
    (∃ c n, Spanned e acts c k n ∧ k + 1 < n) ∨ s.region.site = some k := by
  refine h.rec_snoc (motive := fun acts s => ∀ k < s.code.size, (∃ c w, Wrote e acts c k w) ∨
    (∃ c n, Spanned e acts c k n ∧ k + 1 < n) ∨ s.region.site = some k)
    (fun k hk => absurd hk (Nat.not_lt_zero k)) ?_
  intro acts s a hs ih k hk
  simp only [wrote_snoc hs, spanned_snoc hs]
  by_cases hlt : k < s.code.size
  · rcases ih k hlt with ⟨c, w, hw⟩ | ⟨c, n, hspan, hn⟩ | hsite
    · exact .inl ⟨c, w, .inl hw⟩
    · exact .inr (.inl ⟨c, n, .inl hspan, hn⟩)
    · rcases site_next hs.sound a hsite hk with hsite' | ⟨hclose, hn⟩
      · exact .inr (.inr hsite')
      · exact .inr (.inl ⟨_, _, .inr ⟨hclose, rfl, hsite, rfl⟩, hn⟩)
  · rcases added_next a hlt hk with ⟨hsize, w, ha⟩ | hsite
    · exact .inl ⟨_, w, .inr ⟨ha, rfl, hsize⟩⟩
    · exact .inr (.inr hsite)

theorem Ran.wrote_unique (h : Ran e acts s) : ∀ c c' k w w', Wrote e acts c k w →
    Wrote e acts c' k w' → c = c' ∧ w = w' := by
  refine h.rec_snoc (motive := fun acts _ => ∀ c c' k w w', Wrote e acts c k w →
    Wrote e acts c' k w' → c = c' ∧ w = w') ?_ ?_
  · rintro c c' k w w' ⟨t, ht, -⟩
    exact absurd ht not_met_nil
  · intro acts s a hs ih c c' k w w' hw hw'
    -- A new word stands where the code ended, behind all that were emitted before.
    rcases (wrote_snoc hs).mp hw with hold | ⟨ha, hc, hk⟩ <;>
      rcases (wrote_snoc hs).mp hw' with hold' | ⟨ha', hc', hk'⟩
    · exact ih c c' k w w' hold hold'
    · exact absurd (hs.wrote hold).1.1 (Nat.not_lt.mpr (Nat.le_of_eq hk'))
    · exact absurd (hs.wrote hold').1.1 (Nat.not_lt.mpr (Nat.le_of_eq hk))
    · cases ha.symm.trans ha'
      exact ⟨hc.symm.trans hc', rfl⟩

theorem Ran.not_wrote_of_spanned (h : Ran e acts s) : ∀ c c' k n w, Spanned e acts c k n →
    k + 1 < n → ¬ Wrote e acts c' k w := by
  refine h.rec_snoc (motive := fun acts _ => ∀ c c' k n w, Spanned e acts c k n →
    k + 1 < n → ¬ Wrote e acts c' k w) ?_ ?_
  · rintro c c' k n w ⟨t, a, ht, -⟩
    exact absurd ht not_met_nil
  · intro acts s a hs ih c c' k n w hspan hn hw
    rcases (spanned_snoc hs).mp hspan with hold | ⟨hclose, -, hsite, -⟩ <;>
      rcases (wrote_snoc hs).mp hw with hold' | ⟨rfl, -, hk⟩
    · exact ih c c' k n w hold hn hold'
    · exact absurd (hs.spanned hold hn).2.1.1 (Nat.not_lt.mpr (Nat.le_of_eq hk))
    · exact (hs.wrote hold').1.2 hsite
    · exact hclose

/-- The branch of a region goes on to its first word if the condition holds, and else to the first
word behind it. -/
theorem exec_branchOver {t : Host.State} (hc : c ≠ .al) (hpc : t.pc = j) :
    (Host.Instr.bCond c.invert (displacement j n)).exec t =
      some { t with pc := if c.holds t.flags then j + 1 else n } := by
  subst hpc
  have htarget : (t.pc : Int) + displacement t.pc n = n := by
    unfold displacement
    omega
  simp only [Host.Instr.exec, Cond.holds_invert hc, Host.State.jump, htarget, Host.State.skip]
  cases c.holds t.flags with
  | true => rfl
  | false =>
    simp only [Bool.not_false, if_true, Int.natCast_nonneg, Int.toNat_natCast, Bool.false_eq_true,
      if_false]

/-! ### Regions are exact -/

/-- What holds of the code `s` that calls have left. -/
structure RegionsExact (e : Setting) (acts : List RegionAct) (s : Emission) : Prop where
  /-- A branch waits exactly while there is a condition. -/
  open_iff : (∃ k, s.region.site = some k) ↔ s.region.active ≠ .al
  waiting : ∀ k, s.region.site = some k →
    s.code[k]? = some (Host.Instr.bCond s.region.active.invert 0).encode
  /-- The branch of a closed region with words skips all of them, to where the code ended. -/
  skips : ∀ c j n, Spanned e acts c j n → j + 1 < n → fits19 (displacement j n) = true ∧
    s.code[j]? = some (Host.Instr.bCond c.invert (displacement j n)).encode ∧
    ∀ t : Host.State, t.pc = j → (Host.Instr.bCond c.invert (displacement j n)).exec t =
      some { t with pc := if c.holds t.flags then j + 1 else n }
  /-- Emitted under a condition and inside a region of it are the same. -/
  inside_iff : ∀ c k, c ≠ .al → ((∃ w, Wrote e acts c k w) ↔ Inside e acts s c k)
  unique : ∀ c c' k w w', Wrote e acts c k w → Wrote e acts c' k w' → c = c' ∧ w = w'
  /-- A region without words is erased; the branch of the next one may take its place. -/
  erased : ∀ t a j, Met e acts t a → a.Closes t → t.region.site = some j → t.code.size = j + 1 →
    ∃ t', a.perform e t = .ok () t' ∧ ((t'.region.site = none ∧ t'.code = t.code.pop) ∨
      (t'.region.site = some j ∧ t'.code.pop = t.code.pop))
  /-- There are no other words than those emitted and the branches of regions with words. -/
  words : ∀ k < s.code.size, (∃ c w, Wrote e acts c k w) ∨
    (∃ c n, Spanned e acts c k n ∧ k + 1 < n) ∨ s.region.site = some k
  branches : ∀ c c' k n w, Spanned e acts c k n → k + 1 < n → ¬ Wrote e acts c' k w
  emitted : ∀ c k w, Wrote e acts c k w → s.region.site ≠ some k ∧ s.code[k]? = some w
  /-- Later calls alter no word but the branch that waits. -/
  kept : ∀ pre post, acts = pre ++ post → ∃ t, Ran e pre t ∧
    ∀ k < t.code.size, t.region.site ≠ some k → s.code[k]? = t.code[k]?

theorem Spanned.ne_al (h : Spanned e acts c j n) : c ≠ .al := by
  obtain ⟨t, a, ht, -, rfl, hj, -⟩ := h
  exact ht.sound.site_iff.mp ⟨j, hj⟩

theorem regionsExact_of_ran (h : Ran e acts s) : RegionsExact e acts s where
  open_iff := h.sound.site_iff
  waiting := h.sound.waiting
  skips c j n hspan hn := by
    obtain ⟨hfits, -, hcode⟩ := h.spanned hspan hn
    exact ⟨hfits, hcode, fun t hpc => exec_branchOver hspan.ne_al hpc⟩
  inside_iff c k hc := by
    constructor
    · rintro ⟨w, hw⟩
      exact h.inside_of_wrote hc k w hw
    · exact h.wrote_of_inside
  unique := h.wrote_unique
  erased t a j ht ha hj hn := by
    obtain ⟨-, -, -, -, hfits⟩ := ht.ran_next h
    exact ⟨a.next t, (perform_yields ht.sound a).run hfits, closes_empty ha hj hn⟩
  words := h.words
  branches := h.not_wrote_of_spanned
  emitted c k w hw := ⟨(h.wrote hw).1.2, (h.wrote hw).2⟩
  kept pre post heq := by
    subst heq
    obtain ⟨t, ht, -⟩ := h.split
    exact ⟨t, ht, fun k hlt hsite => (settled_of_append h ht ⟨hlt, hsite⟩).2⟩

/-- A region with a word, one without, and a word behind them. -/
def mixedActs : List RegionAct :=
  [.transition .eq, .emit 7, .transition .mi, .close, .emit 8]

theorem regionsExact_mixed : ∃ s, Ran {} mixedActs s ∧
    s.code = #[(Host.Instr.bCond .ne 2).encode, 7, 8] ∧ RegionsExact {} mixedActs s := by
  have hstart : Ran {} [] {} := rfl
  have heq := hstart.next (a := .transition .eq) fun _ k hk => by cases hk
  have hword := heq.next (a := .emit 7) False.elim
  have hmi := hword.next (a := .transition .mi) fun _ k hk => by cases hk; decide
  have hclose := hmi.next (a := .close) fun _ k hk => by cases hk; decide
  have hend := hclose.next (a := .emit 8) False.elim
  exact ⟨_, hend, by decide +kernel, regionsExact_of_ran hend⟩

end Dynarec.Emit
