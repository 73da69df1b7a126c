import Dynarec.Proofs.Emission.Register
import Dynarec.Proofs.Machine.Exec
import Dynarec.Proofs.Machine.Guest

/-! # Guest states inside host states

Between two guest instructions the host state determines the guest state: registers in use are
pinned to host registers, all others stand in the record, and so do the flags. Each update of the
host state that emitted code makes is an update of the guest state, or none. -/

namespace Dynarec.Host

theorem State.x_set_of_not (s : State) {r q : Gpr} {value : DWord} (h : ¬(q = r ∧ r ≠ .zr)) :
    (s.set r value).x q = s.x q := by
  by_cases hq : q = r
  · have hr : r = .zr := Decidable.not_not.mp fun hr => h ⟨hq, hr⟩
    rw [State.set, if_pos hr]
  · exact State.x_set_of_ne s r q value hq

/-! ### Register numbers -/

theorem Gpr.eq_of_index {x y : Gpr} (h : x.index = y.index) : x = y := by
  obtain ⟨a⟩ := x
  obtain ⟨b⟩ := y
  exact congrArg Gpr.mk (BitVec.eq_of_toNat_eq h)

theorem index_ne_fifteen {r : Guest.Gpr} (h : r.isPc = false) : r.index ≠ 15 := by
  intro hr
  have hpc : r = .pc := by
    obtain ⟨a⟩ := r
    exact congrArg Guest.Gpr.mk (BitVec.eq_of_toNat_eq hr)
  rw [hpc] at h
  cases h

/-- The first eight guest registers are in callee-saved host registers, the others below them. -/
theorem index_pinned {r : Guest.Gpr} (h : r.isPc = false) :
    (pinned r).index = (if r.index < 8 then 19 + r.index else 1 + r.index) ∧ r.index < 15 := by
  have hne := index_ne_fifteen h
  have hlt : r.index < 16 := r.code.isLt
  refine ⟨?_, by omega⟩
  unfold pinned Gpr.index Gpr.ofNat
  rw [BitVec.toNat_ofNat]
  split <;> omega

theorem ne_pinned {r : Guest.Gpr} (h : r.isPc = false) {x : Gpr} (hx : 27 ≤ x.index) :
    x ≠ pinned r := by
  rintro rfl
  obtain ⟨hi, hr⟩ := index_pinned h
  rw [hi] at hx
  split at hx <;> omega

theorem pinned_ne_zr {r : Guest.Gpr} (h : r.isPc = false) : pinned r ≠ .zr :=
  (ne_pinned h (Nat.le_of_ble_eq_true rfl)).symm

theorem pinned_inj {r q : Guest.Gpr} (hr : r.isPc = false) (hq : q.isPc = false)
    (h : pinned r = pinned q) : r = q := by
  obtain ⟨hir, hr⟩ := index_pinned hr
  obtain ⟨hiq, hq⟩ := index_pinned hq
  have hi : r.index = q.index := by
    rw [h] at hir
    split at hir <;> split at hiq <;> omega
  obtain ⟨a⟩ := r
  obtain ⟨b⟩ := q
  exact congrArg Guest.Gpr.mk (BitVec.eq_of_toNat_eq hi)

theorem pinnedVreg?_eq_some {d : Guest.Dreg} {v : Vreg} (h : pinnedVreg? d = some v) :
    v.index = 16 + d.index ∧ d.index < 16 := by
  unfold pinnedVreg? at h
  split at h
  · rename_i hd
    cases h
    refine ⟨?_, hd⟩
    unfold Vreg.index Vreg.ofNat
    rw [BitVec.toNat_ofNat]
    omega
  · cases h

theorem pinnedVreg?_inj {d e : Guest.Dreg} {v : Vreg} (hd : pinnedVreg? d = some v)
    (he : pinnedVreg? e = some v) : d = e := by
  have hd := pinnedVreg?_eq_some hd
  have he := pinnedVreg?_eq_some he
  have hi : d.index = e.index := by omega
  obtain ⟨a⟩ := d
  obtain ⟨b⟩ := e
  exact congrArg Guest.Dreg.mk (BitVec.eq_of_toNat_eq hi)

/-- Whether emitted code may overwrite a register at any time. -/
def Gpr.isSpare (x : Gpr) : Bool := decide (x.index < 9 ∨ x.index = 16 ∨ x.index = 17)

theorem Gpr.isSpare_iff {x : Gpr} :
    x.isSpare = true ↔ x.index < 9 ∨ x.index = 16 ∨ x.index = 17 := decide_eq_true_iff

theorem ne_of_isSpare {x y : Gpr} (hx : x.isSpare = true) (hy : y.isSpare = false) : y ≠ x := by
  rintro rfl
  rw [hx] at hy
  cases hy

theorem isSpare_pinned {r : Guest.Gpr} (h : r.isPc = false) : (pinned r).isSpare = false := by
  obtain ⟨hi, hr⟩ := index_pinned h
  refine decide_eq_false fun hs => ?_
  rw [hi] at hs
  split at hs <;> omega

/-- The guest state of a host state in which all guest registers that have a host register are
there, while the program counter is `pc`. -/
def State.guest (s : State) (pc : Word) : Guest.State where
  r r := (s.x (pinned r)).setWidth 32
  d d := match pinnedVreg? d with
    | some v => (s.v v).setWidth 64
    | none => s.mem.dword (s.x .context + BitVec.ofNat 64 (Emit.Record.dreg d))
  flags := s.flags
  pc

/-! ### Temporary registers -/

/-- The states differ at most in registers that emitted code may overwrite at any time, and in the
program counter. -/
structure UpToTemps (s s' : State) : Prop where
  x : ∀ q : Gpr, q.isSpare = false → s'.x q = s.x q
  v : ∀ w : Vreg, 8 ≤ w.index → s'.v w = s.v w
  flags : s'.flags = s.flags
  mem : s'.mem = s.mem

namespace UpToTemps

variable {s s' t : State}

theorem refl (s : State) : UpToTemps s s := ⟨fun _ _ => rfl, fun _ _ => rfl, rfl, rfl⟩

theorem trans (h : UpToTemps s s') (h' : UpToTemps s' t) : UpToTemps s t :=
  ⟨fun q hq => (h'.x q hq).trans (h.x q hq), fun w hw => (h'.v w hw).trans (h.v w hw),
    h'.flags.trans h.flags, h'.mem.trans h.mem⟩

theorem skip (s : State) (n : Nat) : UpToTemps s (s.skip n) :=
  ⟨fun _ _ => rfl, fun _ _ => rfl, rfl, rfl⟩

theorem set_spare (s : State) {x : Gpr} (hx : x.isSpare = true) (value : DWord) :
    UpToTemps s (s.set x value) := by
  refine ⟨fun q hq => State.x_set_of_ne s x q value (ne_of_isSpare hx hq), fun w _ => ?_,
    State.flags_set s x value, State.mem_set s x value⟩
  rw [State.v_set]

theorem setV_spare (s : State) {v : Vreg} (hv : v.index < 8) (value : BitVec 128) :
    UpToTemps s (s.setV v value) := by
  refine ⟨fun _ _ => rfl, fun w hw => if_neg ?_, rfl, rfl⟩
  rintro rfl
  omega

/-! The same update of both states. -/

theorem set (h : UpToTemps s s') (r : Gpr) (value : DWord) :
    UpToTemps (s.set r value) (s'.set r value) := by
  refine ⟨fun q hq => ?_, ?_, ?_, ?_⟩
  · by_cases hr : q = r ∧ r ≠ .zr
    · obtain ⟨rfl, hr⟩ := hr
      rw [State.x_set_self s q value hr, State.x_set_self s' q value hr]
    · rw [State.x_set_of_not s hr, State.x_set_of_not s' hr, h.x q hq]
  · rw [State.v_set, State.v_set]
    exact h.v
  · rw [State.flags_set, State.flags_set]
    exact h.flags
  · rw [State.mem_set, State.mem_set]
    exact h.mem

theorem setFlags (h : UpToTemps s s') (f : Nzcv) : UpToTemps (s.setFlags f) (s'.setFlags f) :=
  ⟨h.x, h.v, rfl, h.mem⟩

theorem store (h : UpToTemps s s') (a : DWord) (n : Nat) (value : BitVec (8 * n)) :
    UpToTemps (s.store a n value) (s'.store a n value) :=
  ⟨h.x, h.v, h.flags, congrArg (·.write a n value) h.mem⟩

end UpToTemps

end Dynarec.Host

namespace Dynarec.Emit

open Host (Mem pinned pinnedVreg?)

/-! ### The record -/

namespace Record

/-- The record at an address holds a guest state. -/
structure Holds (m : Mem) (record : DWord) (σ : Guest.State) : Prop where
  gprs : ∀ r : Guest.Gpr, r.isPc = false → m.word (record + BitVec.ofNat 64 (gpr r)) = σ.r r
  dregs : ∀ d : Guest.Dreg, m.dword (record + BitVec.ofNat 64 (dreg d)) = σ.d d
  flags : Nzcv.ofWord (m.word (record + BitVec.ofNat 64 nzcv)) = σ.flags

/-- The guest state that the record holds, with the program counter added. -/
def state (m : Mem) (record : DWord) (pc : Word) : Guest.State where
  r r := m.word (record + BitVec.ofNat 64 (gpr r))
  d d := m.dword (record + BitVec.ofNat 64 (dreg d))
  flags := .ofWord (m.word (record + BitVec.ofNat 64 nzcv))
  pc

theorem holds_state (m : Mem) (record : DWord) (pc : Word) : Holds m record (state m record pc) :=
  ⟨fun _ _ => rfl, fun _ => rfl, rfl⟩

/-- Parts of the record that do not overlap do not affect each other. -/
theorem read_write {m : Mem} {record : DWord} {o n o' k : Nat} (h : o + n ≤ o' ∨ o' + k ≤ o)
    (ho : o + n ≤ size) (ho' : o' + k ≤ size) (value : BitVec (8 * n)) :
    (m.write (record + BitVec.ofNat 64 o) n value).read (record + BitVec.ofNat 64 o') k =
      m.read (record + BitVec.ofNat 64 o') k := by
  have hs : size ≤ dwordCount := Nat.le_of_ble_eq_true rfl
  exact Mem.read_write_of_offsets h (Nat.le_trans ho hs) (Nat.le_trans ho' hs) value

theorem write_of_outside {m : Mem} {record a : DWord} {o n : Nat} (h : Mem.Outside record size a)
    (ho : o + n ≤ size) (value : BitVec (8 * n)) :
    m.write (record + BitVec.ofNat 64 o) n value a = m a :=
  Mem.write_of_outside (h.part ho) value

theorem gpr_le (r : Guest.Gpr) : gpr r + 4 ≤ dregs := by
  have hr : r.index < 16 := r.code.isLt
  unfold gpr gprs dregs
  omega

theorem dreg_bounds (d : Guest.Dreg) : dregs ≤ dreg d ∧ dreg d + 8 ≤ nzcv := by
  have hd : d.index < 32 := d.code.isLt
  unfold dreg dregs nzcv
  omega

theorem Holds.congr {m m' : Mem} {record : DWord} {σ : Guest.State} (h : Holds m record σ)
    (hm : ∀ o n, o + n ≤ nzcv + 4 →
      m'.read (record + BitVec.ofNat 64 o) n = m.read (record + BitVec.ofNat 64 o) n) :
    Holds m' record σ := by
  have hlow : Record.dregs ≤ nzcv + 4 := Nat.le_of_ble_eq_true rfl
  refine ⟨fun r hr => ?_, fun d => ?_, ?_⟩
  · exact (hm _ 4 (Nat.le_trans (gpr_le r) hlow)).trans (h.gprs r hr)
  · exact (hm _ 8 (Nat.le_trans (dreg_bounds d).2 (Nat.le_add_right _ 4))).trans (h.dregs d)
  · exact (congrArg Nzcv.ofWord (hm _ 4 (Nat.le_refl _))).trans h.flags

end Record

end Dynarec.Emit

namespace Dynarec.Simulation

open Dynarec.Emit Dynarec.Host

/-! ### The relation -/

/-- What the body of a unit leaves alone since the state `base`: the registers that the unit owes
to its caller and does not use, and all memory but the record. -/
structure Untouched (u : RegisterUse) (record : DWord) (base s : Host.State) : Prop where
  high : ∀ x : Host.Gpr, 29 ≤ x.index → s.x x = base.x x
  owed : ∀ x : Host.Gpr, 19 ≤ x.index → u.usedGprs.contains x.code = false → s.x x = base.x x
  vregs : ∀ v : Vreg, 8 ≤ v.index → v.index < 16 → s.v v = base.v v
  mem : ∀ a, Mem.Outside record Record.size a → s.mem a = base.mem a

/-- The host state `s` has the guest state `σ` in it, apart from the program counter. -/
structure Sim (u : RegisterUse) (record table : DWord) (base s : Host.State) (σ : Guest.State) :
    Prop where
  context : s.x .context = record
  pageTable : s.x .pageTable = table
  gprs : ∀ r : Guest.Gpr, r.isPc = false → u.Holds r → (s.x (pinned r)).setWidth 32 = σ.r r
  gprsLeft : ∀ r : Guest.Gpr, r.isPc = false → ¬u.Holds r →
    s.mem.word (record + BitVec.ofNat 64 (Record.gpr r)) = σ.r r
  dregs : ∀ d v, pinnedVreg? d = some v → u.usedVregs.contains v.code = true →
    (s.v v).setWidth 64 = σ.d d
  dregsLeft : ∀ d, (∀ v, pinnedVreg? d = some v → u.usedVregs.contains v.code = false) →
    s.mem.dword (record + BitVec.ofNat 64 (Record.dreg d)) = σ.d d
  flags : u.usesFlags = true → s.flags = σ.flags
  flagsLeft : u.usesFlags = false →
    Nzcv.ofWord (s.mem.word (record + BitVec.ofNat 64 Record.nzcv)) = σ.flags
  untouched : Untouched u record base s

namespace Sim

variable {u : RegisterUse} {record table : DWord} {base s : Host.State} {σ : Guest.State}
  (h : Sim u record table base s σ)

include h

theorem skip (n : Nat) : Sim u record table base (s.skip n) σ :=
  ⟨h.context, h.pageTable, h.gprs, h.gprsLeft, h.dregs, h.dregsLeft, h.flags, h.flagsLeft,
    h.untouched.high, h.untouched.owed, h.untouched.vregs, h.untouched.mem⟩

/-- The program counters of both machines are no part of the relation. -/
theorem atPc (k : Nat) : Sim u record table base { s with pc := k } σ :=
  ⟨h.context, h.pageTable, h.gprs, h.gprsLeft, h.dregs, h.dregsLeft, h.flags, h.flagsLeft,
    h.untouched.high, h.untouched.owed, h.untouched.vregs, h.untouched.mem⟩

theorem goto (pc : Word) : Sim u record table base s (σ.goto pc) :=
  ⟨h.context, h.pageTable, h.gprs, h.gprsLeft, h.dregs, h.dregsLeft, h.flags, h.flagsLeft,
    h.untouched⟩

/-- The low word of a pinned register is the guest register. -/
theorem low_pinned {r : Guest.Gpr} (hr : r.isPc = false) (hu : u.Holds r) :
    s.low .w (pinned r) = σ.r r := by
  rw [← h.gprs r hr hu, State.low, State.reg, if_neg (pinned_ne_zr hr)]

/-- Temporary registers are no part of the relation. -/
theorem upToTemps {s' : Host.State} (hs : UpToTemps s s') : Sim u record table base s' σ := by
  have hhigh : ∀ y : Host.Gpr, 19 ≤ y.index → s'.x y = s.x y := by
    intro y hy
    refine hs.x y (decide_eq_false fun hspare => ?_)
    omega
  refine ⟨(hs.x _ rfl).trans h.context, (hs.x _ rfl).trans h.pageTable, ?_, ?_, ?_, ?_, ?_, ?_,
    ?_, ?_, ?_, ?_⟩
  · intro r hr hu
    rw [hs.x _ (isSpare_pinned hr)]
    exact h.gprs r hr hu
  · rw [hs.mem]
    exact h.gprsLeft
  · intro d v hd hu
    have hi := (pinnedVreg?_eq_some hd).1
    rw [hs.v v (by omega)]
    exact h.dregs d v hd hu
  · rw [hs.mem]
    exact h.dregsLeft
  · rw [hs.flags]
    exact h.flags
  · rw [hs.mem]
    exact h.flagsLeft
  · intro y hy
    rw [hhigh y (Nat.le_trans (Nat.le_of_ble_eq_true rfl) hy)]
    exact h.untouched.high y hy
  · intro y hy hu
    rw [hhigh y hy]
    exact h.untouched.owed y hy hu
  · intro v hv hlt
    rw [hs.v v hv]
    exact h.untouched.vregs v hv hlt
  · rw [hs.mem]
    exact h.untouched.mem

theorem setSpare {x : Host.Gpr} (hx : x.isSpare = true) (value : DWord) :
    Sim u record table base (s.set x value) σ := h.upToTemps (.set_spare s hx value)

/-- A write to the pinned register of a guest register in use is a write to that register. -/
theorem setPinned {r : Guest.Gpr} (hr : r.isPc = false) (hu : u.Holds r) (value : DWord) :
    Sim u record table base (s.set (pinned r) value) (σ.setGpr r (value.setWidth 32)) := by
  have hkeep : ∀ y, y ≠ pinned r → (s.set (pinned r) value).x y = s.x y :=
    fun y hy => State.x_set_of_ne s (pinned r) y value hy
  have hmem := State.mem_set s (pinned r) value
  have hv := State.v_set s (pinned r) value
  have hflags := State.flags_set s (pinned r) value
  refine ⟨?_, ?_, ?_, ?_, ?_, ?_, ?_, ?_, ?_, ?_, ?_, ?_⟩
  · rw [hkeep _ (ne_pinned hr (Nat.le_of_ble_eq_true rfl))]
    exact h.context
  · rw [hkeep _ (ne_pinned hr (Nat.le_of_ble_eq_true rfl))]
    exact h.pageTable
  · intro q hq huq
    by_cases hqr : q = r
    · subst hqr
      rw [State.x_set_self s _ value (pinned_ne_zr hr)]
      exact (if_pos rfl).symm
    · rw [hkeep _ fun hp => hqr (pinned_inj hq hr hp)]
      exact (h.gprs q hq huq).trans (if_neg hqr).symm
  · intro q hq huq
    have hqr : q ≠ r := by
      rintro rfl
      exact huq hu
    rw [hmem]
    exact (h.gprsLeft q hq huq).trans (if_neg hqr).symm
  · rw [hv]
    exact h.dregs
  · rw [hmem]
    exact h.dregsLeft
  · rw [hflags]
    exact h.flags
  · rw [hmem]
    exact h.flagsLeft
  · intro y hy
    rw [hkeep y (ne_pinned hr (Nat.le_trans (Nat.le_of_ble_eq_true rfl) hy))]
    exact h.untouched.high y hy
  · intro y hy huy
    have hyr : y ≠ pinned r := by
      rintro rfl
      rw [RegisterUse.Holds, huy] at hu
      cases hu
    rw [hkeep y hyr]
    exact h.untouched.owed y hy huy
  · rw [hv]
    exact h.untouched.vregs
  · rw [hmem]
    exact h.untouched.mem

theorem setFlags (hu : u.usesFlags = true) (f : Nzcv) :
    Sim u record table base (s.setFlags f) (σ.setFlags f) := by
  refine ⟨h.context, h.pageTable, h.gprs, h.gprsLeft, h.dregs, h.dregsLeft, fun _ => rfl,
    fun hn => ?_, h.untouched.high, h.untouched.owed, h.untouched.vregs, h.untouched.mem⟩
  rw [hu] at hn
  cases hn

theorem setVPinned {d : Guest.Dreg} {v : Vreg} (hd : pinnedVreg? d = some v)
    (hu : u.usedVregs.contains v.code = true) (value : BitVec 128) :
    Sim u record table base (s.setV v value) (σ.setD d (value.setWidth 64)) := by
  have hi := (pinnedVreg?_eq_some hd).1
  refine ⟨h.context, h.pageTable, h.gprs, h.gprsLeft, fun e w he hue => ?_, fun e he => ?_, h.flags,
    h.flagsLeft, h.untouched.high, h.untouched.owed, fun w hw hlt => ?_, h.untouched.mem⟩
  · by_cases hed : e = d
    · subst hed
      rw [hd] at he
      cases he
      have hself : (s.setV v value).v v = value := if_pos rfl
      rw [hself]
      exact (if_pos rfl).symm
    · have hwv : w ≠ v := by
        rintro rfl
        exact hed (pinnedVreg?_inj he hd)
      exact (congrArg (BitVec.setWidth 64) (if_neg hwv)).trans
        ((h.dregs e w he hue).trans (if_neg hed).symm)
  · have hed : e ≠ d := by
      rintro rfl
      rw [he v hd] at hu
      cases hu
    exact (h.dregsLeft e he).trans (if_neg hed).symm
  · have hwv : w ≠ v := by
      rintro rfl
      omega
    exact (if_neg hwv).trans (h.untouched.vregs w hw hlt)

/-- What stands in the record behind the flags is no part of the guest state. -/
theorem storeStatus {o n : Nat} (ho : Record.nzcv + 4 ≤ o) (hs : o + n ≤ Record.size)
    (value : BitVec (8 * n)) :
    Sim u record table base (s.store (record + BitVec.ofNat 64 o) n value) σ := by
  have hsize : Record.nzcv + 4 ≤ Record.size := Nat.le_of_ble_eq_true rfl
  have hlow : ∀ o' k, o' + k ≤ Record.nzcv + 4 →
      (s.mem.write (record + BitVec.ofNat 64 o) n value).read (record + BitVec.ofNat 64 o') k =
        s.mem.read (record + BitVec.ofNat 64 o') k :=
    fun o' k hk => Record.read_write (.inr (Nat.le_trans hk ho)) hs (Nat.le_trans hk hsize) value
  refine ⟨h.context, h.pageTable, h.gprs, fun r hr hu => ?_, h.dregs, fun d hd => ?_, h.flags,
    fun hf => ?_, h.untouched.high, h.untouched.owed, h.untouched.vregs, fun a ha => ?_⟩
  · have hr' := Record.gpr_le r
    have hd : Record.dregs ≤ Record.nzcv + 4 := Nat.le_of_ble_eq_true rfl
    exact (hlow _ 4 (Nat.le_trans hr' hd)).trans (h.gprsLeft r hr hu)
  · have hd' := (Record.dreg_bounds d).2
    exact (hlow _ 8 (Nat.le_trans hd' (Nat.le_add_right _ 4))).trans (h.dregsLeft d hd)
  · exact (congrArg Nzcv.ofWord (hlow _ 4 (Nat.le_refl _))).trans (h.flagsLeft hf)
  · exact (Record.write_of_outside ha hs value).trans (h.untouched.mem a ha)

/-- A write to the place of a double register without a pinned register is a write to it. -/
theorem storeD {d : Guest.Dreg} (hd : pinnedVreg? d = none) (value : DWord) :
    Sim u record table base (s.store (record + BitVec.ofNat 64 (Record.dreg d)) 8 value)
      (σ.setD d value) := by
  obtain ⟨hlo, hhi⟩ := Record.dreg_bounds d
  have hnzcv : Record.nzcv + 4 ≤ Record.size := Nat.le_of_ble_eq_true rfl
  have hs : Record.dreg d + 8 ≤ Record.size :=
    Nat.le_trans (Nat.le_trans hhi (Nat.le_add_right _ 4)) hnzcv
  refine ⟨h.context, h.pageTable, h.gprs, fun r hr hu => ?_, fun e v he hue => ?_, fun e he => ?_,
    h.flags, fun hf => ?_, h.untouched.high, h.untouched.owed, h.untouched.vregs, fun a ha => ?_⟩
  · have hr' := Nat.le_trans (Record.gpr_le r) hlo
    refine (Record.read_write (.inr hr') hs ?_ value).trans (h.gprsLeft r hr hu)
    exact Nat.le_trans hr' (Nat.le_trans (Nat.le_add_right _ 8) hs)
  · have hed : e ≠ d := by
      rintro rfl
      rw [hd] at he
      cases he
    exact (h.dregs e v he hue).trans (if_neg hed).symm
  · by_cases hed : e = d
    · subst hed
      refine Eq.trans ?_ (if_pos rfl).symm
      exact Mem.read_write_self (n := 8) s.mem _ value (Nat.le_of_ble_eq_true rfl)
    · have hapart : Record.dreg d + 8 ≤ Record.dreg e ∨ Record.dreg e + 8 ≤ Record.dreg d := by
        have hne : e.index ≠ d.index := by
          intro hi
          obtain ⟨a⟩ := e
          obtain ⟨b⟩ := d
          exact hed (congrArg Guest.Dreg.mk (BitVec.eq_of_toNat_eq hi))
        unfold Record.dreg
        omega
      have hes : Record.dreg e + 8 ≤ Record.size :=
        Nat.le_trans (Nat.le_trans (Record.dreg_bounds e).2 (Nat.le_add_right _ 4)) hnzcv
      exact (Record.read_write hapart hs hes value).trans
        ((h.dregsLeft e he).trans (if_neg hed).symm)
  · exact (congrArg Nzcv.ofWord (Record.read_write (.inl hhi) hs hnzcv value)).trans
      (h.flagsLeft hf)
  · exact (Record.write_of_outside ha hs value).trans (h.untouched.mem a ha)

end Sim

end Dynarec.Simulation
