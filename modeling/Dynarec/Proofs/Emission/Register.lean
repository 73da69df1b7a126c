import Dynarec.Proofs.Emission

/-! # Registers while code is emitted

Pins and leases only add to the sets of used registers. The pools of free temporary registers
change by leases alone; between two guest instructions they are full. -/

namespace Dynarec.Host

/-- The host register of a guest register other than the program counter. -/
def pinned (r : Guest.Gpr) : Gpr := .ofNat (if r.index < 8 then 19 + r.index else 1 + r.index)

theorem pinnedGpr?_eq {r : Guest.Gpr} (h : r.isPc = false) : pinnedGpr? r = some (pinned r) := by
  unfold pinnedGpr? pinned
  rw [h]
  simp only [Bool.false_eq_true, if_false]
  split <;> rfl

theorem RegSet.nodup_toList (s : RegSet) : s.toList.Nodup := by
  unfold RegSet.toList
  refine List.Pairwise.filter _ (List.pairwise_map.mpr ?_)
  refine (List.nodup_finRange 32).imp fun hne heq => hne ?_
  exact congrArg BitVec.toFin heq

theorem RegSet.nodup_gprs (s : RegSet) : s.gprs.Nodup :=
  List.pairwise_map.mpr (s.nodup_toList.imp fun hne heq => hne (congrArg Gpr.code heq))

theorem RegSet.nodup_vregs (s : RegSet) : s.vregs.Nodup :=
  List.pairwise_map.mpr (s.nodup_toList.imp fun hne heq => hne (congrArg Vreg.code heq))

theorem RegSet.mem_gprs {s : RegSet} {x : Gpr} : x ∈ s.gprs ↔ s.contains x.code = true := by
  rw [RegSet.gprs, List.mem_map, ← RegSet.mem_toList]
  refine ⟨?_, fun h => ⟨x.code, h, rfl⟩⟩
  rintro ⟨c, hc, rfl⟩
  exact hc

theorem RegSet.mem_vregs {s : RegSet} {v : Vreg} : v ∈ s.vregs ↔ s.contains v.code = true := by
  rw [RegSet.vregs, List.mem_map, ← RegSet.mem_toList]
  refine ⟨?_, fun h => ⟨v.code, h, rfl⟩⟩
  rintro ⟨c, hc, rfl⟩
  exact hc

/-- The temporary registers from the `n`-th on. -/
def tempsFrom (n : Nat) : RegSet := .range n 8

theorem lowest?_tempsFrom : ∀ n < 9, (tempsFrom n).lowest? = some (BitVec.ofNat 5 n) ∧
    (tempsFrom n).erase (BitVec.ofNat 5 n) = tempsFrom (n + 1) := by
  decide

end Dynarec.Host

namespace Dynarec.Emit

open Host (RegSet pinned tempsFrom)

namespace RegisterUse

/-! ### Growth -/

/-- Whatever is in use stays in use. -/
structure Le (u v : RegisterUse) : Prop where
  gprs : ∀ c, u.usedGprs.contains c = true → v.usedGprs.contains c = true
  vregs : ∀ c, u.usedVregs.contains c = true → v.usedVregs.contains c = true
  flags : u.usesFlags = true → v.usesFlags = true

theorem Le.refl (u : RegisterUse) : u.Le u := ⟨fun _ h => h, fun _ h => h, id⟩

theorem Le.trans {u v w : RegisterUse} (h : u.Le v) (h' : v.Le w) : u.Le w :=
  ⟨fun c hc => h'.gprs c (h.gprs c hc), fun c hc => h'.vregs c (h.vregs c hc),
    fun hf => h'.flags (h.flags hf)⟩

/-- Both pools are the same. -/
def SamePools (u v : RegisterUse) : Prop := v.freeGprs = u.freeGprs ∧ v.freeVregs = u.freeVregs

/-- The use with the pools of `before`. -/
def withPoolsOf (u before : RegisterUse) : RegisterUse :=
  { u with freeGprs := before.freeGprs, freeVregs := before.freeVregs }

/-- No temporary register is leased. -/
def Rested (u : RegisterUse) : Prop :=
  u.freeGprs = Host.tempGprs ∧ u.freeVregs = Host.tempVregs

theorem rested_initial : Rested {} := ⟨rfl, rfl⟩

/-! ### Pins -/

/-- The use with a guest register pinned; the program counter has no register to pin. -/
def pin (u : RegisterUse) (r : Guest.Gpr) : RegisterUse :=
  if r.isPc then u else { u with usedGprs := u.usedGprs.insert (pinned r).code }

/-- The guest register is in use. -/
def Holds (u : RegisterUse) (r : Guest.Gpr) : Prop := u.usedGprs.contains (pinned r).code = true

/-- The guest double register is in use, unless it stays in the record. -/
def HoldsD (u : RegisterUse) (d : Guest.Dreg) : Prop :=
  ∀ v, Host.pinnedVreg? d = some v → u.usedVregs.contains v.code = true

theorem Le.holds {u v : RegisterUse} (h : u.Le v) {r : Guest.Gpr} (hr : u.Holds r) : v.Holds r :=
  h.gprs _ hr

theorem Le.holdsD {u v : RegisterUse} (h : u.Le v) {d : Guest.Dreg} (hd : u.HoldsD d) :
    v.HoldsD d :=
  fun x hx => h.vregs _ (hd x hx)

theorem le_insert (u : RegisterUse) (c : BitVec 5) :
    u.Le { u with usedGprs := u.usedGprs.insert c } := by
  refine ⟨fun d hd => ?_, fun _ h => h, id⟩
  rw [Host.RegSet.contains_insert, hd, Bool.true_or]

theorem le_insertV (u : RegisterUse) (c : BitVec 5) :
    u.Le { u with usedVregs := u.usedVregs.insert c } := by
  refine ⟨fun _ h => h, fun d hd => ?_, id⟩
  rw [Host.RegSet.contains_insert, hd, Bool.true_or]

/-- Pools do not matter for what is in use. -/
theorem Le.withPools {u v : RegisterUse} (h : u.Le v) (gprs vregs : RegSet) :
    u.Le { v with freeGprs := gprs, freeVregs := vregs } := ⟨h.gprs, h.vregs, h.flags⟩

theorem le_pin (u : RegisterUse) (r : Guest.Gpr) : u.Le (u.pin r) := by
  unfold pin
  split
  · exact Le.refl u
  · exact le_insert u _

theorem samePools_pin (u : RegisterUse) (r : Guest.Gpr) : u.SamePools (u.pin r) := by
  unfold pin
  split <;> exact ⟨rfl, rfl⟩

theorem holds_pin (u : RegisterUse) {r : Guest.Gpr} (h : r.isPc = false) : (u.pin r).Holds r := by
  unfold pin Holds
  rw [h]
  simp only [Bool.false_eq_true, if_false, Host.RegSet.contains_insert, decide_true, Bool.or_true]

/-- A register in use can be pinned again without effect. -/
theorem pin_of_holds {u : RegisterUse} {r : Guest.Gpr} (h : u.Holds r) : u.pin r = u := by
  unfold pin
  split
  · rfl
  · have hset : u.usedGprs.insert (pinned r).code = u.usedGprs := by
      apply RegSet.eq_of_contains_eq
      intro c
      rw [RegSet.contains_insert]
      by_cases hc : (pinned r).code = c
      · subst hc
        unfold Holds at h
        rw [h, Bool.true_or]
      · rw [decide_eq_false hc, Bool.or_false]
    rw [hset]

/-- The use with a guest double register pinned, unless it stays in the record. -/
def pinD (u : RegisterUse) (d : Guest.Dreg) : RegisterUse :=
  match Host.pinnedVreg? d with
  | some v => { u with usedVregs := u.usedVregs.insert v.code }
  | none => u

theorem le_pinD (u : RegisterUse) (d : Guest.Dreg) : u.Le (u.pinD d) := by
  unfold pinD
  split
  · exact le_insertV u _
  · exact Le.refl u

theorem samePools_pinD (u : RegisterUse) (d : Guest.Dreg) : u.SamePools (u.pinD d) := by
  unfold pinD
  split <;> exact ⟨rfl, rfl⟩

theorem holdsD_pinD (u : RegisterUse) (d : Guest.Dreg) : (u.pinD d).HoldsD d := by
  intro v hv
  unfold pinD
  simp only [hv, Host.RegSet.contains_insert, decide_true, Bool.or_true]

theorem le_markFlags (u : RegisterUse) : u.Le u.markFlags :=
  ⟨fun _ h => h, fun _ h => h, fun _ => rfl⟩

/-- The use with every register of a list pinned. -/
def pinAll (u : RegisterUse) (rs : List Guest.Gpr) : RegisterUse := rs.foldl pin u

theorem le_pinAll (u : RegisterUse) (rs : List Guest.Gpr) : u.Le (u.pinAll rs) := by
  induction rs generalizing u with
  | nil => exact Le.refl u
  | cons r rs ih => exact (le_pin u r).trans (ih (u.pin r))

theorem holds_pinAll (u : RegisterUse) {rs : List Guest.Gpr} {r : Guest.Gpr} (hr : r ∈ rs)
    (h : r.isPc = false) : (u.pinAll rs).Holds r := by
  induction rs generalizing u with
  | nil => exact absurd hr (List.not_mem_nil)
  | cons q rs ih =>
    rcases List.mem_cons.mp hr with rfl | hr
    · exact (le_pinAll _ rs).holds (holds_pin u h)
    · exact ih (u.pin q) hr

end RegisterUse

/-! ### Actions -/

section Actions

variable (st : Setting) (s : Emission)

@[simp] theorem markFlags_run : markFlags st s = .ok () (s.withRegs s.regs.markFlags) := rfl

@[simp] theorem current_run : current st s = .ok s.current s := rfl

theorem pinGpr_run {r : Guest.Gpr} (h : r.isPc = false) :
    pinGpr r st s = .ok (pinned r) (s.withRegs (s.regs.pin r)) := by
  have hpin : s.regs.pin r =
      { s.regs with usedGprs := s.regs.usedGprs.insert (pinned r).code } := by
    unfold RegisterUse.pin
    rw [h]
    rfl
  simp only [pinGpr, run_bind, run_get, RegisterUse.pinGpr?, Host.pinnedGpr?_eq h, Option.map_some,
    run_modify, run_pure, hpin]
  rfl

theorem pinVreg?_run (d : Guest.Dreg) :
    pinVreg? d st s = .ok (Host.pinnedVreg? d) (s.withRegs (s.regs.pinD d)) := by
  simp only [pinVreg?, run_bind, run_get, RegisterUse.pinVreg?, RegisterUse.pinD]
  cases Host.pinnedVreg? d <;> rfl

theorem leaseVreg_run (h : s.regs.freeVregs = Host.tempVregs) :
    leaseVreg st s = .ok ⟨0⟩ (s.withRegs { s.regs with
      freeVregs := Host.tempVregs.erase 0
      usedVregs := s.regs.usedVregs.insert 0 }) := by
  have hlow : Host.tempVregs.lowest? = some 0 := by decide
  simp only [leaseVreg, run_bind, run_get, RegisterUse.leaseVreg?, h, hlow, Option.map_some,
    run_modify, run_pure]
  rfl

theorem pinAll_run (rs : List Guest.Gpr) :
    pinAll rs st s = .ok () (s.withRegs (s.regs.pinAll rs)) := by
  induction rs generalizing s with
  | nil => rfl
  | cons r rs ih =>
    cases h : r.isPc with
    | false =>
      simp only [pinAll, h, Bool.not_false, if_true, run_bind, pinGpr_run st s h, ih]
      rfl
    | true =>
      have hpin : s.regs.pin r = s.regs := by
        unfold RegisterUse.pin
        rw [h]
        rfl
      simp only [pinAll, h, Bool.not_true, Bool.false_eq_true, if_false, ih]
      simp only [RegisterUse.pinAll, List.foldl_cons, hpin]

theorem leaseGpr_run {n : Nat} (hn : n < 9) (h : s.regs.freeGprs = tempsFrom n) :
    leaseGpr st s = .ok (.ofNat n) (s.withRegs { s.regs with
      freeGprs := tempsFrom (n + 1)
      usedGprs := s.regs.usedGprs.insert (BitVec.ofNat 5 n) }) := by
  have hlow := Host.lowest?_tempsFrom n hn
  simp only [leaseGpr, run_bind, run_get, RegisterUse.leaseGpr?, h, hlow.1, hlow.2, Option.map_some,
    run_modify, run_pure]
  rfl

end Actions

end Dynarec.Emit
