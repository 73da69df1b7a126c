import Mathlib.Data.List.Nodup
import Dynarec.Proofs.Emission.Register

/-! # Leases

Temporary registers are leased and given back in any order, and guest registers are pinned in
between. At every point the leases that are out and the free registers share the pool between them,
so nothing is leased twice, and whatever was leased or pinned once is in use. -/

namespace Dynarec.Host

namespace RegSet

variable {s : RegSet} {c : BitVec 5}

theorem contains_insert_self (s : RegSet) (c : BitVec 5) : (s.insert c).contains c = true := by
  rw [contains_insert, decide_eq_true rfl, Bool.or_true]

theorem contains_of_lowest? (h : s.lowest? = some c) : s.contains c = true :=
  (mem_toList s c).mp (List.mem_of_head? h)

theorem lowest?_eq_none : s.lowest? = none ↔ s = .empty := by
  constructor
  · intro h
    have hnil : s.toList = [] := List.head?_eq_none_iff.mp h
    refine eq_of_contains_eq fun c => ?_
    rw [contains_empty, Bool.eq_false_iff, ne_eq, ← mem_toList, hnil]
    exact List.not_mem_nil
  · rintro rfl
    rfl

end RegSet

theorem gprCode_injective : Function.Injective Gpr.code := by
  rintro ⟨c⟩ ⟨d⟩ h
  exact congrArg Gpr.mk h

theorem vregCode_injective : Function.Injective Vreg.code := by
  rintro ⟨c⟩ ⟨d⟩ h
  exact congrArg Vreg.mk h

def Gpr.Temporary (x : Gpr) : Prop := x.index ≤ 8

def Vreg.Temporary (v : Vreg) : Prop := v.index ≤ 7

/-- The general registers of fixed purpose. -/
def reservedGprs : List Gpr :=
  [.context, .pageTable, .dispatch, .scratch, .callTarget, .fp, .lr, .sp]

theorem temporary_iff (x : Gpr) : x.Temporary ↔ tempGprs.contains x.code = true := by
  have hall : ∀ c : BitVec 5, c.toNat ≤ 8 ↔ tempGprs.contains c = true := by decide
  exact hall x.code

theorem temporaryV_iff (v : Vreg) : v.Temporary ↔ tempVregs.contains v.code = true := by
  have hall : ∀ c : BitVec 5, c.toNat ≤ 7 ↔ tempVregs.contains c = true := by decide
  exact hall v.code

theorem Gpr.Temporary.unpinned {x : Gpr} (h : x.Temporary) : guestOfGpr? x = none := by
  have hall : ∀ c : BitVec 5, c.toNat ≤ 8 → guestOfGpr? ⟨c⟩ = none := by decide
  exact hall x.code h

theorem Vreg.Temporary.unpinned {v : Vreg} (h : v.Temporary) : guestOfVreg? v = none := by
  have hall : ∀ c : BitVec 5, c.toNat ≤ 7 → guestOfVreg? ⟨c⟩ = none := by decide
  exact hall v.code h

/-- Of the registers of fixed purpose only the one for the address of a helper is temporary. -/
theorem Gpr.Temporary.reserved_iff {x : Gpr} (h : x.Temporary) :
    x ∈ reservedGprs ↔ x = .callTarget := by
  have hall : ∀ c : BitVec 5, c.toNat ≤ 8 → (⟨c⟩ ∈ reservedGprs ↔ (⟨c⟩ : Gpr) = .callTarget) := by
    decide
  exact hall x.code h

end Dynarec.Host

namespace Dynarec.Emit

open Host (RegSet Gpr Vreg reservedGprs)

/-! ### A pool and its leases -/

/-- The registers `out` are leased from a pool of which `free` is left. -/
structure Shared {R : Type} (code : R → BitVec 5) (pool : R → Prop) (free : RegSet)
    (out : List R) : Prop where
  nodup : out.Nodup
  apart : ∀ x ∈ out, free.contains (code x) = false
  whole : ∀ x, pool x ↔ x ∈ out ∨ free.contains (code x) = true

section Shared

variable {R : Type} {code : R → BitVec 5} {pool : R → Prop} {free : RegSet} {out : List R}
  {x : R}

theorem Shared.rested (h : ∀ x, pool x ↔ free.contains (code x) = true) :
    Shared code pool free [] where
  nodup := List.nodup_nil
  apart _ hx := absurd hx List.not_mem_nil
  whole x := (h x).trans (or_iff_right List.not_mem_nil).symm

theorem Shared.not_mem (h : Shared code pool free out) (hx : free.contains (code x) = true) :
    x ∉ out := by
  intro hout
  rw [h.apart x hout] at hx
  cases hx

theorem Shared.lease (h : Shared code pool free out) (hcode : Function.Injective code)
    (hx : free.contains (code x) = true) :
    Shared code pool (free.erase (code x)) (out ++ [x]) := by
  have hnew := h.not_mem hx
  refine ⟨?_, fun y hy => ?_, fun y => ?_⟩
  · refine List.nodup_append.mpr ⟨h.nodup, List.nodup_singleton x, fun y hy z hz => ?_⟩
    rw [List.mem_singleton.mp hz]
    exact fun heq => hnew (heq ▸ hy)
  · rw [RegSet.contains_erase]
    rcases List.mem_append.mp hy with hy | hy
    · rw [h.apart y hy, Bool.false_and]
    · rw [List.mem_singleton.mp hy, decide_eq_true rfl, Bool.not_true, Bool.and_false]
  · rw [h.whole, List.mem_append, List.mem_singleton, RegSet.contains_erase, Bool.and_eq_true,
      Bool.not_eq_true', decide_eq_false_iff_not]
    constructor
    · rintro (hy | hy)
      · exact .inl (.inl hy)
      · by_cases heq : y = x
        · exact .inl (.inr heq)
        · exact .inr ⟨hy, fun hc => heq (hcode hc).symm⟩
    · rintro ((hy | rfl) | ⟨hy, -⟩)
      · exact .inl hy
      · exact .inr hx
      · exact .inr hy

theorem Shared.release [DecidableEq R] (h : Shared code pool free out)
    (hcode : Function.Injective code) {k : Nat} (hk : out[k]? = some x) :
    Shared code pool (free.insert (code x)) (out.eraseIdx k) := by
  obtain ⟨hlt, rfl⟩ := List.getElem?_eq_some_iff.mp hk
  -- Without duplicates, to drop a place is to drop the register.
  have hmem : ∀ y, y ∈ out.eraseIdx k ↔ y ≠ out[k] ∧ y ∈ out := by
    intro y
    rw [← h.nodup.erase_getElem k hlt]
    exact h.nodup.mem_erase_iff
  refine ⟨?_, fun y hy => ?_, fun y => ?_⟩
  · rw [← h.nodup.erase_getElem k hlt]
    exact h.nodup.erase _
  · obtain ⟨hne, hy⟩ := (hmem y).mp hy
    have hcodes : code out[k] ≠ code y := fun hc => hne (hcode hc).symm
    rw [RegSet.contains_insert, h.apart y hy, decide_eq_false hcodes, Bool.or_false]
  · rw [h.whole, hmem, RegSet.contains_insert, Bool.or_eq_true, decide_eq_true_eq]
    constructor
    · rintro (hy | hy)
      · by_cases heq : y = out[k]
        · exact .inr (.inr (congrArg code heq).symm)
        · exact .inl ⟨heq, hy⟩
      · exact .inr (.inl hy)
    · rintro (⟨-, hy⟩ | hy | hy)
      · exact .inl hy
      · exact .inr hy
      · exact .inl (hcode hy ▸ List.getElem_mem hlt)

end Shared

/-! ### What the actions do -/

namespace RegisterUse

def leasedGpr (u : RegisterUse) (c : BitVec 5) : RegisterUse :=
  { u with freeGprs := u.freeGprs.erase c, usedGprs := u.usedGprs.insert c }

def leasedVreg (u : RegisterUse) (c : BitVec 5) : RegisterUse :=
  { u with freeVregs := u.freeVregs.erase c, usedVregs := u.usedVregs.insert c }

theorem le_leasedGpr (u : RegisterUse) (c : BitVec 5) : u.Le (u.leasedGpr c) :=
  (le_insert u c).withPools _ _

theorem le_leasedVreg (u : RegisterUse) (c : BitVec 5) : u.Le (u.leasedVreg c) :=
  (le_insertV u c).withPools _ _

end RegisterUse

section Lowest

variable {R : Type} {lease : Emit R} {ofCode : BitVec 5 → R} {cls : RegClass} {pool : RegSet}
  {put : BitVec 5 → Emission} {e : Setting} {s : Emission}

/-- On `s` the action leases the lowest register of the pool of a class. The emission with a
register leased is given by `put`. -/
structure LeasesLowest (lease : Emit R) (ofCode : BitVec 5 → R) (cls : RegClass) (pool : RegSet)
    (put : BitVec 5 → Emission) (e : Setting) (s : Emission) : Prop where
  some : ∀ c, pool.lowest? = some c → lease e s = .ok (ofCode c) (put c)
  none : pool.lowest? = none → lease e s = .error (.error (.poolExhausted cls)) s

theorem LeasesLowest.cases (h : LeasesLowest lease ofCode cls pool put e s) :
    (∃ c, pool.contains c = true ∧ lease e s = .ok (ofCode c) (put c)) ∨
    (pool = .empty ∧ lease e s = .error (.error (.poolExhausted cls)) s) := by
  cases hlow : pool.lowest? with
  | some c => exact .inl ⟨c, RegSet.contains_of_lowest? hlow, h.some c hlow⟩
  | none => exact .inr ⟨RegSet.lowest?_eq_none.mp hlow, h.none hlow⟩

theorem LeasesLowest.of_ok (h : LeasesLowest lease ofCode cls pool put e s) {x : R} {t : Emission}
    (hrun : lease e s = .ok x t) : ∃ c, pool.contains c = true ∧ x = ofCode c ∧ t = put c := by
  rcases h.cases with ⟨c, hc, hok⟩ | ⟨-, herror⟩
  · cases hrun.symm.trans hok
    exact ⟨c, hc, rfl, rfl⟩
  · cases hrun.symm.trans herror

theorem LeasesLowest.error_iff (h : LeasesLowest lease ofCode cls pool put e s) (f : Fault)
    (t : Emission) : lease e s = .error f t ↔
      pool = .empty ∧ f = .error (.poolExhausted cls) ∧ t = s := by
  rcases h.cases with ⟨c, hc, hrun⟩ | ⟨hempty, hrun⟩
  · have hne : pool ≠ .empty := by
      rintro rfl
      rw [RegSet.contains_empty] at hc
      cases hc
    simp only [hrun, hne, false_and, reduceCtorEq]
  · simp only [hrun, hempty, true_and, EStateM.Result.error.injEq, eq_comm]

end Lowest

section Actions

variable (e : Setting) (s : Emission)

theorem leaseGpr_lowest : LeasesLowest leaseGpr Gpr.mk .gpr s.regs.freeGprs
    (fun c => s.withRegs (s.regs.leasedGpr c)) e s := by
  refine ⟨fun c hlow => ?_, fun hlow => ?_⟩
  · simp only [leaseGpr, run_bind, run_get, RegisterUse.leaseGpr?, hlow, Option.map_some,
      run_modify, run_pure]
    rfl
  · simp only [leaseGpr, run_bind, run_get, RegisterUse.leaseGpr?, hlow, Option.map_none, run_fail]

theorem leaseVreg_lowest : LeasesLowest leaseVreg Vreg.mk .vreg s.regs.freeVregs
    (fun c => s.withRegs (s.regs.leasedVreg c)) e s := by
  refine ⟨fun c hlow => ?_, fun hlow => ?_⟩
  · simp only [leaseVreg, run_bind, run_get, RegisterUse.leaseVreg?, hlow, Option.map_some,
      run_modify, run_pure]
    rfl
  · simp only [leaseVreg, run_bind, run_get, RegisterUse.leaseVreg?, hlow, Option.map_none,
      run_fail]

theorem pinGpr_pc {r : Guest.Gpr} (h : r.isPc = true) :
    pinGpr r e s = .error (.error (.unmappedGuestRegister r)) s := by
  have hnone : Host.pinnedGpr? r = none := by rw [Host.pinnedGpr?, h, if_pos rfl]
  simp only [pinGpr, run_bind, run_get, RegisterUse.pinGpr?, hnone, Option.map_none, run_fail]

theorem releaseGpr_run {x : Host.Gpr} (h : s.regs.freeGprs.contains x.code = false) :
    releaseGpr x e s =
      .ok () (s.withRegs { s.regs with freeGprs := s.regs.freeGprs.insert x.code }) := by
  simp only [releaseGpr, run_bind, run_get, RegisterUse.releaseGpr?, h, Bool.false_eq_true,
    if_false, run_modify]
  rfl

theorem releaseVreg_run {v : Host.Vreg} (h : s.regs.freeVregs.contains v.code = false) :
    releaseVreg v e s =
      .ok () (s.withRegs { s.regs with freeVregs := s.regs.freeVregs.insert v.code }) := by
  simp only [releaseVreg, run_bind, run_get, RegisterUse.releaseVreg?, h, Bool.false_eq_true,
    if_false, run_modify]
  rfl

end Actions

/-! ### Calls in any order -/

/-- What may be done with registers. The lease to give back is named by its place among those that
are out. -/
inductive LeaseAct where
  | leaseGpr
  | leaseVreg
  | pinGpr (r : Guest.Gpr)
  | pinVreg (d : Guest.Dreg)
  | releaseGpr (k : Nat)
  | releaseVreg (k : Nat)
  deriving DecidableEq, Repr

/-- What a call does, and the leases that are out behind it, the oldest first. -/
def LeaseAct.perform (out : Leases) : LeaseAct → Emit Leases
  | leaseGpr => do
    let x ← Emit.leaseGpr
    return { out with gprs := out.gprs ++ [x] }
  | leaseVreg => do
    let v ← Emit.leaseVreg
    return { out with vregs := out.vregs ++ [v] }
  | pinGpr r => do
    let _ ← Emit.pinGpr r
    return out
  | pinVreg d => do
    let _ ← Emit.pinVreg? d
    return out
  | releaseGpr k =>
    match out.gprs[k]? with
    | some x => do
      Emit.releaseGpr x
      return { out with gprs := out.gprs.eraseIdx k }
    | none => return out
  | releaseVreg k =>
    match out.vregs[k]? with
    | some v => do
      Emit.releaseVreg v
      return { out with vregs := out.vregs.eraseIdx k }
    | none => return out

structure Ledger where
  emission : Emission
  out : Leases

namespace Ledger

abbrev regs (l : Ledger) : RegisterUse := l.emission.regs

/-- The ledger behind a call. A call that fails hands out nothing and takes nothing back. -/
def next (e : Setting) (l : Ledger) (a : LeaseAct) : Ledger :=
  match a.perform l.out e l.emission with
  | .ok out s => ⟨s, out⟩
  | .error _ s => ⟨s, l.out⟩

/-- The ledger behind calls on an emission with unused registers. -/
def after (e : Setting) (s : Emission) (acts : List LeaseAct) : Ledger :=
  acts.foldl (next e) ⟨s.withRegs {}, {}⟩

/-- Each pool is shared between its leases and its free registers. -/
structure Sound (l : Ledger) : Prop where
  gprs : Shared Gpr.code Gpr.Temporary l.regs.freeGprs l.out.gprs
  vregs : Shared Vreg.code Vreg.Temporary l.regs.freeVregs l.out.vregs

theorem Sound.withRegs {l : Ledger} (h : l.Sound) {u : RegisterUse} (hu : l.regs.SamePools u) :
    Sound ⟨l.emission.withRegs u, l.out⟩ where
  gprs := hu.1.symm ▸ h.gprs
  vregs := hu.2.symm ▸ h.vregs

end Ledger

/-- The register that an action hands out on an emission is in use. -/
def LeaseAct.Recorded (e : Setting) (s : Emission) (u : RegisterUse) : LeaseAct → Prop
  | leaseGpr => ∀ x t, Emit.leaseGpr e s = .ok x t → u.usedGprs.contains x.code = true
  | leaseVreg => ∀ v t, Emit.leaseVreg e s = .ok v t → u.usedVregs.contains v.code = true
  | pinGpr r => ∀ x t, Emit.pinGpr r e s = .ok x t → u.usedGprs.contains x.code = true
  | pinVreg d => ∀ v t, Emit.pinVreg? d e s = .ok (some v) t → u.usedVregs.contains v.code = true
  | releaseGpr _ => True
  | releaseVreg _ => True

theorem LeaseAct.Recorded.mono {e : Setting} {s : Emission} {u v : RegisterUse} {a : LeaseAct}
    (h : a.Recorded e s u) (hle : u.Le v) : a.Recorded e s v := by
  cases a with
  | leaseGpr => exact fun x t hrun => hle.gprs _ (h x t hrun)
  | leaseVreg => exact fun x t hrun => hle.vregs _ (h x t hrun)
  | pinGpr r => exact fun x t hrun => hle.gprs _ (h x t hrun)
  | pinVreg d => exact fun x t hrun => hle.vregs _ (h x t hrun)
  | releaseGpr k => trivial
  | releaseVreg k => trivial

section Step

variable {l : Ledger} {e : Setting}

namespace Ledger

theorem next_error {a : LeaseAct} {f : Fault}
    (h : a.perform l.out e l.emission = .error f l.emission) : l.next e a = l := by
  rw [next, h]

theorem next_leaseGpr {x : Gpr} {t : Emission} (h : leaseGpr e l.emission = .ok x t) :
    l.next e .leaseGpr = ⟨t, { l.out with gprs := l.out.gprs ++ [x] }⟩ := by
  rw [next, LeaseAct.perform, bind_run_ok h, run_pure]

theorem next_leaseVreg {v : Vreg} {t : Emission} (h : leaseVreg e l.emission = .ok v t) :
    l.next e .leaseVreg = ⟨t, { l.out with vregs := l.out.vregs ++ [v] }⟩ := by
  rw [next, LeaseAct.perform, bind_run_ok h, run_pure]

theorem next_pinGpr {r : Guest.Gpr} {x : Gpr} {t : Emission} (h : pinGpr r e l.emission = .ok x t) :
    l.next e (.pinGpr r) = ⟨t, l.out⟩ := by
  rw [next, LeaseAct.perform, bind_run_ok h, run_pure]

theorem next_pinVreg {d : Guest.Dreg} {v : Option Vreg} {t : Emission}
    (h : pinVreg? d e l.emission = .ok v t) : l.next e (.pinVreg d) = ⟨t, l.out⟩ := by
  rw [next, LeaseAct.perform, bind_run_ok h, run_pure]

/-- One call keeps the pools shared, and what is in use stays in use. -/
theorem Sound.step (h : l.Sound) (e : Setting) (a : LeaseAct) :
    (l.next e a).Sound ∧ l.regs.Le (l.next e a).regs := by
  -- A refused call and a release of nothing leave the ledger as it is.
  have hidle : l.Sound ∧ l.regs.Le l.regs := ⟨h, .refl _⟩
  cases a with
  | leaseGpr =>
    rcases (leaseGpr_lowest e l.emission).cases with ⟨c, hc, hrun⟩ | ⟨-, hrun⟩
    · rw [next_leaseGpr hrun]
      have hgprs := h.gprs.lease (x := ⟨c⟩) Host.gprCode_injective hc
      exact ⟨⟨hgprs, h.vregs⟩, RegisterUse.le_leasedGpr _ c⟩
    · rwa [next_error (by rw [LeaseAct.perform, run_bind, hrun])]
  | leaseVreg =>
    rcases (leaseVreg_lowest e l.emission).cases with ⟨c, hc, hrun⟩ | ⟨-, hrun⟩
    · rw [next_leaseVreg hrun]
      have hvregs := h.vregs.lease (x := ⟨c⟩) Host.vregCode_injective hc
      exact ⟨⟨h.gprs, hvregs⟩, RegisterUse.le_leasedVreg _ c⟩
    · rwa [next_error (by rw [LeaseAct.perform, run_bind, hrun])]
  | pinGpr r =>
    cases hr : r.isPc with
    | false =>
      rw [next_pinGpr (pinGpr_run e l.emission hr)]
      exact ⟨h.withRegs (RegisterUse.samePools_pin _ r), RegisterUse.le_pin _ r⟩
    | true => rwa [next_error (by rw [LeaseAct.perform, run_bind, pinGpr_pc e l.emission hr])]
  | pinVreg d =>
    rw [next_pinVreg (pinVreg?_run e l.emission d)]
    exact ⟨h.withRegs (RegisterUse.samePools_pinD _ d), RegisterUse.le_pinD _ d⟩
  | releaseGpr k =>
    cases hk : l.out.gprs[k]? with
    | none => simpa only [next, LeaseAct.perform, hk, run_pure] using hidle
    | some x =>
      have hrun := releaseGpr_run e l.emission (h.gprs.apart x (List.mem_of_getElem? hk))
      have hgprs := h.gprs.release Host.gprCode_injective hk
      simp only [next, LeaseAct.perform, hk, bind_run_ok hrun, run_pure]
      exact ⟨⟨hgprs, h.vregs⟩, (RegisterUse.Le.refl _).withPools _ _⟩
  | releaseVreg k =>
    cases hk : l.out.vregs[k]? with
    | none => simpa only [next, LeaseAct.perform, hk, run_pure] using hidle
    | some v =>
      have hrun := releaseVreg_run e l.emission (h.vregs.apart v (List.mem_of_getElem? hk))
      have hvregs := h.vregs.release Host.vregCode_injective hk
      simp only [next, LeaseAct.perform, hk, bind_run_ok hrun, run_pure]
      exact ⟨⟨h.gprs, hvregs⟩, (RegisterUse.Le.refl _).withPools _ _⟩

end Ledger

theorem LeaseAct.recorded_next (l : Ledger) (e : Setting) (a : LeaseAct) :
    a.Recorded e l.emission (l.next e a).regs := by
  cases a with
  | leaseGpr =>
    intro x t hrun
    rw [Ledger.next_leaseGpr hrun]
    obtain ⟨c, -, rfl, rfl⟩ := (leaseGpr_lowest e l.emission).of_ok hrun
    exact RegSet.contains_insert_self _ c
  | leaseVreg =>
    intro v t hrun
    rw [Ledger.next_leaseVreg hrun]
    obtain ⟨c, -, rfl, rfl⟩ := (leaseVreg_lowest e l.emission).of_ok hrun
    exact RegSet.contains_insert_self _ c
  | pinGpr r =>
    intro x t hrun
    rw [Ledger.next_pinGpr hrun]
    cases hr : r.isPc with
    | false =>
      cases hrun.symm.trans (pinGpr_run e l.emission hr)
      exact RegisterUse.holds_pin _ hr
    | true => cases hrun.symm.trans (pinGpr_pc e l.emission hr)
  | pinVreg d =>
    intro v t hrun
    rw [Ledger.next_pinVreg hrun]
    have hpin := hrun.symm.trans (pinVreg?_run e l.emission d)
    injection hpin with hv ht
    rw [ht]
    exact RegisterUse.holdsD_pinD _ d v hv.symm
  | releaseGpr k => trivial
  | releaseVreg k => trivial

end Step

/-! ### Every sequence of calls -/

section Calls

variable (e : Setting) (s : Emission)

namespace Ledger

theorem after_append (acts more : List LeaseAct) :
    after e s (acts ++ more) = more.foldl (next e) (after e s acts) :=
  List.foldl_append

theorem Sound.steps {l : Ledger} (h : l.Sound) (acts : List LeaseAct) :
    (acts.foldl (Ledger.next e) l).Sound ∧ l.regs.Le (acts.foldl (Ledger.next e) l).regs := by
  induction acts generalizing l with
  | nil => exact ⟨h, .refl _⟩
  | cons a acts ih =>
    obtain ⟨hsound, hle⟩ := h.step e a
    obtain ⟨hsound', hle'⟩ := ih hsound
    exact ⟨hsound', hle.trans hle'⟩

theorem sound_start : Sound ⟨s.withRegs {}, {}⟩ :=
  ⟨.rested Host.temporary_iff, .rested Host.temporaryV_iff⟩

theorem sound_after (acts : List LeaseAct) : (after e s acts).Sound :=
  ((sound_start s).steps e acts).1

theorem le_after_append (acts more : List LeaseAct) :
    (after e s acts).regs.Le (after e s (acts ++ more)).regs := by
  rw [after_append]
  exact ((sound_after e s acts).steps e more).2

theorem recorded_after (acts more : List LeaseAct) (a : LeaseAct) :
    a.Recorded e (after e s acts).emission (after e s (acts ++ a :: more)).regs := by
  have hstep : after e s (acts ++ [a]) = (after e s acts).next e a := after_append e s acts [a]
  have hle := le_after_append e s (acts ++ [a]) more
  rw [List.append_assoc, List.singleton_append, hstep] at hle
  exact (a.recorded_next (after e s acts) e).mono hle

theorem fixed_after (acts : List LeaseAct) :
    (after e s acts).regs.usedGprs.contains Gpr.context.code = true ∧
      (after e s acts).regs.usedGprs.contains Gpr.pageTable.code = true := by
  have hstart : ({} : RegisterUse).usedGprs.contains Gpr.context.code = true ∧
      ({} : RegisterUse).usedGprs.contains Gpr.pageTable.code = true := by decide
  have hle := le_after_append e s [] acts
  exact ⟨hle.gprs _ hstart.1, hle.gprs _ hstart.2⟩

end Ledger

end Calls

/-- What holds of the leases at any point. A free register is never out, and whatever is temporary
is free or out. -/
structure LeasesExclusive (e : Setting) (l : Ledger) : Prop where
  shared : l.Sound
  gprs : ∀ x ∈ l.out.gprs,
    x.Temporary ∧ Host.guestOfGpr? x = none ∧ (x ∈ reservedGprs ↔ x = .callTarget)
  vregs : ∀ v ∈ l.out.vregs, v.Temporary ∧ Host.guestOfVreg? v = none
  leaseGpr_fails : ∀ f t, leaseGpr e l.emission = .error f t ↔
    l.regs.freeGprs = .empty ∧ f = .error (.poolExhausted .gpr) ∧ t = l.emission
  leaseVreg_fails : ∀ f t, leaseVreg e l.emission = .error f t ↔
    l.regs.freeVregs = .empty ∧ f = .error (.poolExhausted .vreg) ∧ t = l.emission
  releaseGpr_ends : ∀ x ∈ l.out.gprs, ∃ t, releaseGpr x e l.emission = .ok () t
  releaseVreg_ends : ∀ v ∈ l.out.vregs, ∃ t, releaseVreg v e l.emission = .ok () t
  fixed : l.regs.usedGprs.contains Gpr.context.code = true ∧
    l.regs.usedGprs.contains Gpr.pageTable.code = true

/-- Whatever calls were made, the leases that are out are distinct temporary registers, a lease
fails only for want of a free one, each can be given back, and every register that was ever leased
or pinned stays in use. -/
theorem leases_exclusive (e : Setting) (s : Emission) (acts : List LeaseAct) :
    LeasesExclusive e (Ledger.after e s acts) ∧ ∀ more,
      (Ledger.after e s acts).regs.Le (Ledger.after e s (acts ++ more)).regs ∧
      ∀ a : LeaseAct, a.Recorded e (Ledger.after e s acts).emission
        (Ledger.after e s (acts ++ a :: more)).regs := by
  have h := Ledger.sound_after e s acts
  have hgprs : ∀ x ∈ (Ledger.after e s acts).out.gprs, x.Temporary :=
    fun x hx => (h.gprs.whole x).mpr (.inl hx)
  have hvregs : ∀ v ∈ (Ledger.after e s acts).out.vregs, v.Temporary :=
    fun v hv => (h.vregs.whole v).mpr (.inl hv)
  refine ⟨{
    shared := h
    gprs := fun x hx => ⟨hgprs x hx, (hgprs x hx).unpinned, (hgprs x hx).reserved_iff⟩
    vregs := fun v hv => ⟨hvregs v hv, (hvregs v hv).unpinned⟩
    leaseGpr_fails := (leaseGpr_lowest e _).error_iff
    leaseVreg_fails := (leaseVreg_lowest e _).error_iff
    releaseGpr_ends := fun x hx => ⟨_, releaseGpr_run e _ (h.gprs.apart x hx)⟩
    releaseVreg_ends := fun v hv => ⟨_, releaseVreg_run e _ (h.vregs.apart v hv)⟩
    fixed := Ledger.fixed_after e s acts }, fun more => ⟨?_, fun a => ?_⟩⟩
  · exact Ledger.le_after_append e s acts more
  · exact Ledger.recorded_after e s acts more a

/-- A register of fixed purpose can be leased: the eighth lease is the register for the address of
a helper. -/
theorem callTarget_leased :
    ¬∀ (e : Setting) (s : Emission) (acts : List LeaseAct),
      ∀ x ∈ (Ledger.after e s acts).out.gprs, x ∉ reservedGprs := by
  intro h
  have hout : Gpr.callTarget ∈ (Ledger.after {} {} (List.replicate 8 .leaseGpr)).out.gprs := by
    decide +kernel
  exact h {} {} _ .callTarget hout (by decide)

end Dynarec.Emit
