import Dynarec.Proofs.Bounds
import Dynarec.Proofs.Simulation.Data
import Dynarec.Proofs.Simulation.Record
import Dynarec.Proofs.Simulation.Stack

/-! # Into a unit and out of it

The prologue brings the guest state from the record into registers, the trailer brings it back.
What the caller of a unit is owed goes through the frame on the stack. -/

namespace Dynarec.Simulation

open Dynarec.Emit Dynarec.Host Dynarec.Compile

/-! ### The frame -/

/-- The registers of the state `s` are in its frame, which was pushed from `o` on. -/
structure Framed (f : Frame) (low : DWord) (o : Nat) (s : Host.State) (m : Mem) : Prop where
  fp : m.dword (slot low (o - 16)) = s.x .fp
  lr : m.dword (slot low (o - 8)) = s.x .lr
  gprs : Pushed m s.x low (o - 16) f.savedGprs
  vregs : PushedV m (fun v => (s.v v).setWidth 64) low (o - 16 - pushBytes f.savedGprs) f.savedVregs

theorem bytes_eq (f : Frame) :
    f.bytes = pushBytes f.savedGprs + 16 * f.savedVregs.length + f.spillBytes := by
  rw [pushBytes_eq, Frame.bytes]
  omega

variable {f : Frame} {low : DWord} {o : Nat} {s : Host.State}

/-- Only memory above the spill area matters for a frame. -/
theorem Framed.congr {m m' : Mem} (h : Framed f low o s m) (hb : 16 + f.bytes ≤ o)
    (hm : ∀ k, o - (16 + f.bytes) + f.spillBytes ≤ k → k + 8 ≤ o →
      m'.dword (slot low k) = m.dword (slot low k)) :
    Framed f low o s m' := by
  rw [bytes_eq] at hb hm
  refine ⟨(hm _ (by omega) (by omega)).trans h.fp, (hm _ (by omega) (by omega)).trans h.lr, ?_, ?_⟩
  · exact h.gprs.congr (by omega) fun k _ hk => hm k (by omega) (by omega)
  · exact h.vregs.congr (by omega) fun k _ hk => hm k (by omega) (by omega)

/-- The frame can be pushed and popped. -/
structure FrameFits (f : Frame) : Prop where
  gprs : ∀ x ∈ f.savedGprs, 19 ≤ x.index ∧ x.index < 29
  distinct : f.savedGprs.Nodup
  distinctV : f.savedVregs.Nodup
  bytes : 16 + f.bytes ≤ stackBytes
  spill : f.spillBytes < 4096

theorem FrameFits.ne_high (hf : FrameFits f) {x : Host.Gpr} (hx : 29 ≤ x.index) :
    ∀ y ∈ f.savedGprs, y ≠ x := by
  rintro y hy rfl
  have := (hf.gprs y hy).2
  omega

theorem push_run (hf : FrameFits f) (hs : s.x .sp = slot low o) (ho : 16 + f.bytes ≤ o)
    (hlt : o ≤ dwordCount) :
    ∃ s', execAll f.push s = some s' ∧ s'.x .sp = slot low (o - (16 + f.bytes)) ∧
      s'.x .fp = slot low (o - 16) ∧ (∀ x, x ≠ .sp → x ≠ .fp → s'.x x = s.x x) ∧ s'.v = s.v ∧
      SameAbove low o s.mem s'.mem ∧ Framed f low o s s'.mem := by
  rw [bytes_eq] at ho ⊢
  obtain ⟨s₁, hs₁, hg₁, hfp, hlr⟩ := stpPre_run hs (by omega) hlt (x := .fp) (y := .lr) (by decide)
    (by decide)
  let s₂ := (s₁.setBase .fp
    (((s₁.x .sp).setWidth 64 + (0 : BitVec 12).setWidth 64).setWidth 64)).skip 1
  have hs₂ : (Host.Instr.addImm .x .fp .sp 0).exec s₁ = some s₂ := rfl
  have hx₂ : ∀ x, x ≠ .fp → s₂.x x = s₁.x x := fun x hx => State.x_setBase_of_ne s₁ .fp x _ hx
  have hfp₂ : s₂.x .fp = slot low (o - 16) := by
    refine (State.x_setBase_self s₁ .fp _).trans ?_
    rw [BitVec.setWidth_eq, BitVec.setWidth_eq, hg₁.sp]
    exact BitVec.add_zero _
  obtain ⟨s₃, hs₃, hg₃, hpushed⟩ := pushGprs_run f.savedGprs
    ((hx₂ .sp (by decide)).trans hg₁.sp) (by omega) (by omega)
    (hf.ne_high (x := .sp) (by decide))
  obtain ⟨s₄, hs₄, hg₄, hpushedV⟩ := pushVregs_run f.savedVregs hg₃.sp (by omega) (by omega)
  obtain ⟨s₅, hs₅, hg₅, hm₅⟩ := spillDown_run f hg₄.sp (by omega) hf.spill
  have hv₃ : s₃.v = s.v := hg₃.v.trans hg₁.v
  have hm₃ : SameAbove low (o - 16 - pushBytes f.savedGprs) s₃.mem s₅.mem := by
    rw [hm₅]
    exact hg₄.mem
  have hm₁ : SameAbove low (o - 16) s₁.mem s₅.mem := hg₃.mem.trans (hm₃.mono (by omega))
  refine ⟨s₅, ?_, ?_, ?_, fun x hsp hfp => ?_, ?_, ?_, ?_, ?_, ?_, ?_⟩
  · unfold Frame.push
    rw [execAll_append ((execAll_append ((execAll_append
      ((execAll_cons hs₁).trans (execAll_singleton hs₂))).trans hs₃)).trans hs₄)]
    exact hs₅
  · rw [hg₅.sp]
    congr 1
    omega
  · rw [hg₅.x _ (by decide), hg₄.x _ (by decide), hg₃.x _ (by decide), hfp₂]
  · rw [hg₅.x x hsp, hg₄.x x hsp, hg₃.x x hsp, hx₂ x hfp, hg₁.x x hsp]
  · rw [hg₅.v, hg₄.v, hv₃]
  · exact hg₁.mem.trans (hm₁.mono (by omega))
  · exact (hm₁.dword (Nat.le_refl _) (by omega)).trans hfp
  · exact (hm₁.dword (by omega) (by omega)).trans hlr
  · refine Pushed.congr (by omega) (fun k hlo hk => hm₃.dword hlo (by omega)) ?_
    refine pushed_congr_value (fun x hx => ?_) hpushed
    have hfp := hf.ne_high (x := .fp) (by decide) x hx
    rw [hx₂ x hfp, hg₁.x x (hf.ne_high (x := .sp) (by decide) x hx)]
  · rw [hm₅]
    rw [hv₃] at hpushedV
    exact hpushedV

/-- From `t` to `t'` the frame of the state `s` has been taken down. -/
structure Unwound (f : Frame) (low : DWord) (o : Nat) (s t t' : Host.State) : Prop where
  sp : t'.x .sp = slot low o
  saved : ∀ x, x ∈ f.savedGprs ∨ x = .fp ∨ x = .lr → t'.x x = s.x x
  x : ∀ x, x ∉ f.savedGprs → x.index < 29 → t'.x x = t.x x
  savedV : ∀ v ∈ f.savedVregs, (t'.v v).setWidth 64 = (s.v v).setWidth 64
  v : ∀ v, v ∉ f.savedVregs → t'.v v = t.v v
  mem : t'.mem = t.mem

theorem pop_run (hf : FrameFits f) {t : Host.State} (ht : t.x .sp = slot low (o - (16 + f.bytes)))
    (ho : 16 + f.bytes ≤ o) (hframed : Framed f low o s t.mem) :
    ∃ t', execAll f.pop t = some t' ∧ Unwound f low o s t t' := by
  rw [bytes_eq] at ht ho
  let o₁ := o - 16 - pushBytes f.savedGprs
  have ht' : t.x .sp = slot low (o₁ - 16 * f.savedVregs.length - f.spillBytes) := by
    rw [ht]
    congr 1
    omega
  obtain ⟨t₁, ht₁, hsp₁, hx₁, hv₁, hm₁⟩ := spillUp_run f ht' (by omega) hf.spill
  obtain ⟨t₂, ht₂, hp₂⟩ := popVregs_run f.savedVregs hsp₁ (by omega) (hm₁ ▸ hframed.vregs)
  have hm₂ : t₂.mem = t.mem := hp₂.mem.trans hm₁
  obtain ⟨t₃, ht₃, hp₃⟩ := popGprs_run f.savedGprs hp₂.sp (by omega)
    (hf.ne_high (x := .sp) (by decide)) (hm₂ ▸ hframed.gprs)
  have hm₃ : t₃.mem = t.mem := hp₃.mem.trans hm₂
  obtain ⟨t₄, ht₄, hp₄⟩ := ldpPost_run (x := .fp) (y := .lr) hp₃.sp (by omega) (by decide)
    (by decide) (hm₃ ▸ hframed.fp) (hm₃ ▸ hframed.lr)
  have hpops := hp₃.trans hp₄ (hf.ne_high (x := .sp) (by decide))
  have hv₄ : t₄.v = t₂.v := hp₄.v.trans hp₃.v
  refine ⟨t₄, ?_, hp₄.sp, fun x hx => ?_, fun x hx hlt => ?_, fun v hv => ?_, fun v hv => ?_,
    hp₄.mem.trans hm₃⟩
  · unfold Frame.pop
    rw [execAll_append ((execAll_append ((execAll_append ht₁).trans ht₂)).trans ht₃)]
    exact execAll_singleton ht₄
  · refine hpops.back x (List.mem_append.mpr ?_)
    rcases hx with hx | rfl | rfl
    · exact .inr hx
    · exact .inl List.mem_cons_self
    · exact .inl (List.mem_cons_of_mem _ List.mem_cons_self)
  · have hne : ∀ y : Host.Gpr, 29 ≤ y.index → x ≠ y := by
      rintro y hy rfl
      omega
    have hsp : x ≠ .sp := hne .sp (by decide)
    rw [hpops.x x ?_ hsp, hp₂.x x hsp, hx₁ x hsp]
    rw [List.mem_append, not_or, List.mem_cons, List.mem_singleton, not_or]
    exact ⟨⟨hne .fp (by decide), hne .lr (by decide)⟩, hx⟩
  · rw [hv₄, hp₂.back v hv]
    exact BitVec.setWidth_setWidth_of_le _ (Nat.le_of_ble_eq_true rfl)
  · rw [hv₄, hp₂.v v hv, hv₁]

/-- Whatever is on the stack, some state may have pushed it. -/
theorem exists_framed (hf : FrameFits f) (low : DWord) (o : Nat) (m : Mem) :
    ∃ s, Framed f low o s m := by
  obtain ⟨value, hvalue⟩ := exists_pushed m low (o - 16) hf.distinct
  obtain ⟨valueV, hvalueV⟩ :=
    exists_pushedV m low (o - 16 - pushBytes f.savedGprs) hf.distinctV
  let s : Host.State := {
    pc := 0
    x := fun q => if q = .fp then m.dword (slot low (o - 16))
      else if q = .lr then m.dword (slot low (o - 8)) else value q
    v := fun v => (valueV v).setWidth 128
    flags := {}
    mem := m }
  refine ⟨s, rfl, rfl, ?_, ?_⟩
  · refine pushed_congr_value (fun x hx => (if_neg ?_).trans (if_neg ?_)) hvalue
    · exact hf.ne_high (x := .fp) (by decide) x hx
    · exact hf.ne_high (x := .lr) (by decide) x hx
  · refine pushedV_congr_value (fun v _ => ?_) hvalueV
    exact BitVec.setWidth_setWidth_of_le _ (Nat.le_of_ble_eq_true rfl)

/-- A part of the state has a slot in the frame, `k` bytes above the stack pointer below it: it is
pushed there, and it is back when the frame is taken down. -/
structure HasSlot (f : Frame) (value : Host.State → DWord) (k : Nat) : Prop where
  above : f.spillBytes ≤ k
  inside : k + 8 ≤ 16 + f.bytes
  framed : ∀ {low : DWord} {o : Nat} {s : Host.State} {m : Mem}, 16 + f.bytes ≤ o →
    Framed f low o s m → m.dword (slot low (o - (16 + f.bytes) + k)) = value s
  unwound : ∀ {low : DWord} {o : Nat} {s t t' : Host.State}, Unwound f low o s t t' →
    value t' = value s

theorem exists_slot {x : Host.Gpr} (hx : x ∈ f.savedGprs) : ∃ k, HasSlot f (fun s => s.x x) k := by
  obtain ⟨k, hk, hplace⟩ := exists_pushPlace hx
  have hbytes := bytes_eq f
  refine ⟨f.spillBytes + 16 * f.savedVregs.length + k, by omega, by omega,
    fun {low o s m} ho h => ?_, fun h => h.saved x (.inl hx)⟩
  have hslot : o - (16 + f.bytes) + (f.spillBytes + 16 * f.savedVregs.length + k) =
      o - 16 - pushBytes f.savedGprs + k := by omega
  rw [hslot]
  exact hplace (by omega) h.gprs

theorem exists_slotV {v : Vreg} (hv : v ∈ f.savedVregs) :
    ∃ k, HasSlot f (fun s => (s.v v).setWidth 64) k := by
  obtain ⟨k, hk, hplace⟩ := exists_pushPlaceV hv
  have hbytes := bytes_eq f
  refine ⟨f.spillBytes + k, by omega, by omega, fun {low o s m} ho h => ?_, fun h => h.savedV v hv⟩
  have hslot : o - (16 + f.bytes) + (f.spillBytes + k) =
      o - 16 - pushBytes f.savedGprs - 16 * f.savedVregs.length + k := by omega
  rw [hslot]
  exact hplace (by omega) h.vregs

theorem savedGprs_iff {u : RegisterUse} {x : Host.Gpr} : x ∈ u.savedGprs.gprs ↔
    u.usedGprs.contains x.code = true ∧ 19 ≤ x.index ∧ x.index < 29 := by
  have h : ∀ c : BitVec 5, calleeSavedGprs.contains c = true ↔ 19 ≤ c.toNat ∧ c.toNat < 29 := by
    decide
  rw [RegSet.mem_gprs, RegisterUse.savedGprs, RegSet.contains_inter, Bool.and_eq_true, h]
  rfl

theorem savedVregs_iff {u : RegisterUse} {v : Vreg} : v ∈ u.savedVregs.vregs ↔
    u.usedVregs.contains v.code = true ∧ 8 ≤ v.index ∧ v.index < 16 := by
  have h : ∀ c : BitVec 5, calleeSavedVregs.contains c = true ↔ 8 ≤ c.toNat ∧ c.toNat < 16 := by
    decide
  rw [RegSet.mem_vregs, RegisterUse.savedVregs, RegSet.contains_inter, Bool.and_eq_true, h]
  rfl

theorem frameFits (shape : Shape) (u : RegisterUse) : FrameFits (frameOf shape u) := by
  have hspill : (SpillLayout.compute u shape).bytes ≤ 0xFF0 := spillBytes_le u shape
  have hg : u.savedGprs.size ≤ 10 := size_inter_le _ _
  have hv : u.savedVregs.size ≤ 8 := size_inter_le _ _
  have hgprs : u.savedGprs.gprs.length = u.savedGprs.size := List.length_map _
  have hvregs : u.savedVregs.vregs.length = u.savedVregs.size := List.length_map _
  refine ⟨fun x hx => (savedGprs_iff.mp hx).2, RegSet.nodup_gprs _, RegSet.nodup_vregs _, ?_, ?_⟩
  · simp only [Frame.bytes, frameOf, stackBytes]
    omega
  · simp only [frameOf]
    omega

/-! ### The two pointers -/

/-- From `s` to `s'` the registers `c` and `d` have been copied to `a` and `b`. -/
structure Moved (a b c d : Host.Gpr) (s s' : Host.State) : Prop where
  first : s'.x a = s.x c
  second : s'.x b = s.x d
  x : ∀ x, x ≠ a → x ≠ b → s'.x x = s.x x
  v : s'.v = s.v
  mem : s'.mem = s.mem

theorem movX_run {r d : Host.Gpr} (hd : d ≠ .zr) (s : Host.State) :
    (Host.Instr.mov .x r d).exec s = some ((s.set r (s.x d)).skip 1) := by
  rw [exec_mov, State.setLow, State.low, State.reg, if_neg hd, BitVec.setWidth_eq,
    BitVec.setWidth_eq]

theorem movs_run {a b c d : Host.Gpr} (ha : a ≠ .zr) (hb : b ≠ .zr) (hc : c ≠ .zr) (hd : d ≠ .zr)
    (hab : a ≠ b) (hda : d ≠ a) (s : Host.State) :
    ∃ s', execAll [.mov .x a c, .mov .x b d] s = some s' ∧ Moved a b c d s s' := by
  let s₁ := (s.set a (s.x c)).skip 1
  have hx₁ : ∀ x, x ≠ a → s₁.x x = s.x x := fun x hx => State.x_set_of_ne s a x _ hx
  refine ⟨_, (execAll_cons (movX_run hc s)).trans (execAll_singleton (movX_run hd s₁)), ?_, ?_,
    fun x hxa hxb => ?_, ?_, ?_⟩
  · exact (State.x_set_of_ne s₁ b a _ hab).trans (State.x_set_self s a _ ha)
  · exact (State.x_set_self s₁ b _ hb).trans (hx₁ d hda)
  · exact (State.x_set_of_ne s₁ b x _ hxb).trans (hx₁ x hxa)
  · exact (State.v_set s₁ b _).trans (State.v_set s a _)
  · exact (State.mem_set s₁ b _).trans (State.mem_set s a _)

/-! ### Entering -/

/-- How a unit is entered: with the record and the page table in the first two registers, the guest
state in the record, and a stretch of stack that is apart from the record. -/
structure Called (record table low : DWord) (s : Host.State) (σ : Guest.State) : Prop where
  x0 : s.x (.ofNat 0) = record
  x1 : s.x (.ofNat 1) = table
  sp : s.x .sp = slot low stackBytes
  apart : ∀ k < stackBytes, Mem.Outside record Record.size (slot low k)
  holds : Record.Holds s.mem record σ

theorem outside_stack {record : DWord}
    (h : ∀ k < stackBytes, Mem.Outside record Record.size (slot low k)) {j : Nat}
    (hj : j < Record.size) : Mem.Outside low stackBytes (record + BitVec.ofNat 64 j) := by
  have hsize : Record.size ≤ dwordCount := Nat.le_of_ble_eq_true rfl
  refine Nat.le_of_not_lt fun hlt => ?_
  have hout := h _ hlt
  have hslot : slot low (record + BitVec.ofNat 64 j - low).toNat = record + BitVec.ofNat 64 j := by
    unfold slot
    rw [BitVec.ofNat_toNat, BitVec.setWidth_eq, BitVec.add_comm, BitVec.sub_add_cancel]
  rw [hslot, Mem.Outside, Mem.add_sub_offset record (by omega)] at hout
  omega

/-- What happens on the stack does not show in the record. -/
theorem SameAbove.record {record : DWord} {m m' : Mem} (h : SameAbove low stackBytes m m')
    (hapart : ∀ k < stackBytes, Mem.Outside record Record.size (slot low k)) {k n : Nat}
    (hk : k + n ≤ Record.size) :
    m'.read (record + BitVec.ofNat 64 k) n = m.read (record + BitVec.ofNat 64 k) n := by
  refine Mem.read_congr fun j hj => ?_
  rw [BitVec.add_assoc, ← BitVec.ofNat_add]
  exact h _ (outside_stack hapart (by omega))

/-- The state in which the body of a unit is entered, when the unit was entered in `s`. -/
structure Entered (f : Frame) (u : RegisterUse) (record table low : DWord) (s : Host.State)
    (σ : Guest.State) (base : Host.State) : Prop where
  sim : Sim u record table base base σ
  sp : base.x .sp = slot low (stackBytes - (16 + f.bytes))
  framed : Framed f low stackBytes s base.mem
  owed : ∀ x : Host.Gpr, 19 ≤ x.index → x.index < 29 → u.usedGprs.contains x.code = false →
    base.x x = s.x x
  v : ∀ v : Vreg, v.index < 16 → base.v v = s.v v
  mem : ∀ a, Mem.Outside low stackBytes a → base.mem a = s.mem a

variable {u : RegisterUse} {record table : DWord} {σ : Guest.State}

/-- Registers that were loaded from the record hold the guest state. -/
theorem sim_of_loaded {s' : Host.State} (h : Loaded u record s s')
    (hcontext : s'.x .context = record) (htable : s'.x .pageTable = table)
    (hholds : Record.Holds s.mem record σ) : Sim u record table s' s' σ := by
  refine ⟨hcontext, htable, fun r hr hu => ?_, fun r hr _ => ?_, fun d v hd hu => ?_,
    fun d _ => ?_, fun hu => ?_, fun _ => ?_, fun _ _ => rfl, fun _ _ _ => rfl, fun _ _ _ => rfl,
    fun _ _ => rfl⟩
  · rw [h.gprs r hr hu, hholds.gprs r hr]
    exact BitVec.setWidth_setWidth_of_le _ (Nat.le_of_ble_eq_true rfl)
  · rw [h.mem]
    exact hholds.gprs r hr
  · rw [h.dregs d v ⟨hd, hu⟩, hholds.dregs d]
    exact BitVec.setWidth_setWidth_of_le _ (Nat.le_of_ble_eq_true rfl)
  · rw [h.mem]
    exact hholds.dregs d
  · rw [h.flags, if_pos hu]
    exact hholds.flags
  · rw [h.mem]
    exact hholds.flags

/-- From `s` to `s'` the frame has been built and the two pointers taken over. -/
structure FrameBuilt (f : Frame) (low : DWord) (o : Nat) (s s' : Host.State) : Prop where
  context : s'.x .context = s.x (.ofNat 0)
  pageTable : s'.x .pageTable = s.x (.ofNat 1)
  sp : s'.x .sp = slot low (o - (16 + f.bytes))
  fp : s'.x .fp = slot low (o - 16)
  x : ∀ x, x ≠ .context → x ≠ .pageTable → x ≠ .sp → x ≠ .fp → s'.x x = s.x x
  v : s'.v = s.v
  mem : SameAbove low o s.mem s'.mem
  framed : Framed f low o s s'.mem

/-- A prologue builds the frame, and then loads registers from the record. -/
theorem prologue_built (u : RegisterUse) (hf : FrameFits f) (hs : s.x .sp = slot low o)
    (ho : 16 + f.bytes ≤ o) (hlt : o ≤ dwordCount) :
    ∃ s' base, execAll (f.prologue u) s = some base ∧ FrameBuilt f low o s s' ∧
      Loaded u (s.x (.ofNat 0)) s' base := by
  obtain ⟨s₁, hs₁, hsp₁, hfp₁, hx₁, hv₁, hm₁, hframed⟩ := push_run hf hs ho hlt
  obtain ⟨s₂, hs₂, hmoved⟩ := movs_run (a := .context) (b := .pageTable) (c := .ofNat 0)
    (d := .ofNat 1) (by decide) (by decide) (by decide) (by decide) (by decide) (by decide) s₁
  have hcontext : s₂.x .context = s.x (.ofNat 0) := by
    rw [hmoved.first, hx₁ _ (by decide) (by decide)]
  obtain ⟨base, hbase, hloaded⟩ := loadFromRecord_run u hcontext
  refine ⟨s₂, base, ?_, ⟨hcontext, ?_, ?_, ?_, fun x hc ht hsp hfp => ?_, ?_, ?_, ?_⟩, hloaded⟩
  · unfold Frame.prologue
    rw [execAll_append ((execAll_append hs₁).trans hs₂)]
    exact hbase
  · rw [hmoved.second, hx₁ _ (by decide) (by decide)]
  · rw [hmoved.x _ (by decide) (by decide), hsp₁]
  · rw [hmoved.x _ (by decide) (by decide), hfp₁]
  · rw [hmoved.x x hc ht, hx₁ x hsp hfp]
  · rw [hmoved.v, hv₁]
  · rw [hmoved.mem]
    exact hm₁
  · rw [hmoved.mem]
    exact hframed

/-- Loading touches no register above those of the guest. -/
theorem Loaded.high {s' : Host.State} (h : Loaded u record s s') {x : Host.Gpr}
    (hx : 27 ≤ x.index) : s'.x x = s.x x := by
  refine h.x x ?_ fun r hr _ => ne_pinned hr hx
  rintro rfl
  exact absurd hx (by decide)

theorem prologue_run (hf : FrameFits f) (hu : RegisterUse.Le {} u)
    (h : Called record table low s σ) :
    ∃ base, execAll (f.prologue u) s = some base ∧ Entered f u record table low s σ base := by
  obtain ⟨s₁, base, hbase, hbuilt, hloaded⟩ := prologue_built u hf h.sp hf.bytes (by decide)
  rw [h.x0] at hloaded
  have hholds : Record.Holds s₁.mem record σ :=
    h.holds.congr fun k n hk =>
      hbuilt.mem.record h.apart (Nat.le_trans hk (Nat.le_of_ble_eq_true rfl))
  refine ⟨base, hbase, ?_, ?_, ?_, fun x hlo hhi hused => ?_, fun v hv => ?_, fun a ha => ?_⟩
  · refine sim_of_loaded hloaded ?_ ?_ hholds
    · rw [hloaded.high (x := .context) (by decide), hbuilt.context, h.x0]
    · rw [hloaded.high (x := .pageTable) (by decide), hbuilt.pageTable, h.x1]
  · rw [hloaded.high (x := .sp) (by decide)]
    exact hbuilt.sp
  · rw [hloaded.mem]
    exact hbuilt.framed
  · have hin : ∀ y : Host.Gpr, u.usedGprs.contains y.code = true → x ≠ y := by
      rintro y hy rfl
      rw [hused] at hy
      cases hy
    have hne : ∀ y : Host.Gpr, y.index < 19 ∨ 29 ≤ y.index → x ≠ y := by
      rintro y hy rfl
      omega
    rw [hloaded.x x (hne .scratch (by decide)) fun r _ hr => hin _ hr,
      hbuilt.x x (hin _ (hu.gprs _ (by decide))) (hin _ (hu.gprs _ (by decide)))
        (hne .sp (by decide)) (hne .fp (by decide))]
  · rw [hloaded.v v ?_, hbuilt.v]
    rintro d ⟨hd, -⟩
    have := (pinnedVreg?_eq_some hd).1
    omega
  · rw [hloaded.mem]
    exact hbuilt.mem a ha

/-! ### Leaving -/

/-- How a unit is left that was entered in `s`: the guest state is in the record, which names the
address where the guest goes on, and the caller has all that it is owed. -/
structure Exited (record table low : DWord) (s t : Host.State) (σ : Guest.State) : Prop where
  holds : Record.Holds t.mem record σ
  next : Aimed record t σ.pc
  x0 : t.x (.ofNat 0) = record
  x1 : t.x (.ofNat 1) = table
  saved : ∀ x : Host.Gpr, 19 ≤ x.index → t.x x = s.x x
  savedV : ∀ v : Vreg, 8 ≤ v.index → v.index < 16 → (t.v v).setWidth 64 = (s.v v).setWidth 64
  mem : ∀ a, Mem.Outside record Record.size a → Mem.Outside low stackBytes a → t.mem a = s.mem a

/-- Registers that were stored complete the record. -/
theorem holds_of_stored {base t : Host.State} (h : Sim u record table base s σ)
    (hs : Stored u record s t) : Record.Holds t.mem record σ := by
  have hkeep : ∀ {k n : Nat},
      (∀ j < n, ¬u.Owns record (record + BitVec.ofNat 64 k + BitVec.ofNat 64 j)) →
      t.mem.read (record + BitVec.ofNat 64 k) n = s.mem.read (record + BitVec.ofNat 64 k) n :=
    fun hk => Mem.read_congr fun j hj => hs.kept _ (hk j hj)
  refine ⟨fun r hr => ?_, fun d => ?_, ?_⟩
  · by_cases hu : u.Holds r
    · exact (hs.gprs r hr hu).trans (h.gprs r hr hu)
    · exact (hkeep (RegisterUse.not_owns_gpr (.inr hu))).trans (h.gprsLeft r hr hu)
  · by_cases hd : ∃ v, u.HasD d v
    · obtain ⟨v, hv⟩ := hd
      exact (hs.dregs d v hv).trans (h.dregs d v hv.1 hv.2)
    · have hnone : ∀ v, ¬u.HasD d v := fun v hv => hd ⟨v, hv⟩
      refine (hkeep (RegisterUse.not_owns_dreg hnone)).trans (h.dregsLeft d fun v hv => ?_)
      exact eq_false_of_ne_true fun hu => hnone v ⟨hv, hu⟩
  · cases hu : u.usesFlags with
    | true =>
      rw [hs.nzcv hu, Nzcv.ofWord_toWord]
      exact h.flags hu
    | false =>
      refine (congrArg Nzcv.ofWord (hkeep ?_)).trans (h.flagsLeft hu)
      refine RegisterUse.not_owns_status (Nat.le_refl _) (fun ht => ?_) (Nat.le_of_ble_eq_true rfl)
      rw [hu] at ht
      cases ht

/-- From `s` to `s'` the registers in use have been stored and the two pointers handed on. -/
structure HandedOn (u : RegisterUse) (s s' : Host.State) : Prop where
  x0 : s'.x (.ofNat 0) = s.x .context
  x1 : s'.x (.ofNat 1) = s.x .pageTable
  x : ∀ x, x ≠ .ofNat 0 → x ≠ .ofNat 1 → x ≠ .scratch → s'.x x = s.x x
  v : s'.v = s.v
  stored : ∃ s₁, Stored u (s.x .context) s s₁ ∧ s'.mem = s₁.mem

theorem handOn_run (u : RegisterUse) (s : Host.State) :
    ∃ s', execAll (u.storeToRecord ++
        [.mov .x (.ofNat 0) .context, .mov .x (.ofNat 1) .pageTable]) s = some s' ∧
      HandedOn u s s' := by
  obtain ⟨s₁, hs₁, hst⟩ := storeToRecord_run u (s := s) rfl
  obtain ⟨s₂, hs₂, hmoved⟩ := movs_run (a := .ofNat 0) (b := .ofNat 1) (c := .context)
    (d := .pageTable) (by decide) (by decide) (by decide) (by decide) (by decide) (by decide) s₁
  refine ⟨s₂, (execAll_append hs₁).trans hs₂, ?_, ?_, fun x h0 h1 hsc => ?_, ?_, s₁, hst,
    hmoved.mem⟩
  · rw [hmoved.first, hst.x _ (by decide)]
  · rw [hmoved.second, hst.x _ (by decide)]
  · rw [hmoved.x x h0 h1, hst.x x hsc]
  · rw [hmoved.v, hst.v]

section HandedOn

variable {s' : Host.State} (h : HandedOn u s s')

include h

theorem HandedOn.saved {x : Host.Gpr} (hx : 19 ≤ x.index) : s'.x x = s.x x := by
  have hne : ∀ y : Host.Gpr, y.index < 19 → x ≠ y := by
    rintro y hy rfl
    omega
  exact h.x x (hne _ (by decide)) (hne _ (by decide)) (hne _ (by decide))

theorem HandedOn.mem {a : DWord} (ha : Mem.Outside (s.x .context) Record.size a) :
    s'.mem a = s.mem a := by
  obtain ⟨s₁, hst, hm⟩ := h.stored
  rw [hm]
  exact hst.kept a (RegisterUse.not_owns_of_outside ha)

end HandedOn

/-- A trailer takes down the frame that memory `m` held, if the record is apart from it and nothing
of it has changed. -/
theorem trailerOps_run (u : RegisterUse) (hf : FrameFits f) {s₁ : Host.State} {m : Mem}
    (hsp : s₁.x .sp = slot low (o - (16 + f.bytes))) (ho : 16 + f.bytes ≤ o)
    (hframed : Framed f low o s m)
    (hm : ∀ k, o - (16 + f.bytes) + f.spillBytes ≤ k → k < o →
      Mem.Outside (s₁.x .context) Record.size (slot low k) ∧
        s₁.mem (slot low k) = m (slot low k)) :
    ∃ s₂ t, execAll (trailerOps f u) s₁ = some t ∧ HandedOn u s₁ s₂ ∧
      Unwound f low o s s₂ t := by
  obtain ⟨s₂, hs₂, hon⟩ := handOn_run u s₁
  have hframed₂ : Framed f low o s s₂.mem := by
    refine hframed.congr ho fun k hlo hhi => Mem.read_congr fun j hj => ?_
    obtain ⟨hout, heq⟩ := hm (k + j) (by omega) (by omega)
    rw [slot_add, hon.mem hout, heq]
  rw [← hon.saved (x := .sp) (by decide)] at hsp
  obtain ⟨t, ht, hun⟩ := pop_run hf hsp ho hframed₂
  exact ⟨s₂, t, (execAll_append hs₂).trans ht, hon, hun⟩

theorem Unwound.kept {t t' : Host.State} (h : Unwound f low o s t t') (hf : FrameFits f)
    {x : Host.Gpr} (hx : x.index < 19) : t'.x x = t.x x := by
  refine h.x x (fun hmem => ?_) (Nat.lt_trans hx (by decide))
  have := (hf.gprs x hmem).1
  omega

theorem trailer_run {shape : Shape} {base s₁ : Host.State} {σ₀ : Guest.State}
    (hapart : ∀ k < stackBytes, Mem.Outside record Record.size (slot low k))
    (hsp : s.x .sp = slot low stackBytes)
    (he : Entered (frameOf shape u) u record table low s σ₀ base)
    (h : Sim u record table base s₁ σ) (ha : Aimed record s₁ σ.pc) :
    ∃ t, execAll (trailerOps (frameOf shape u) u) s₁ = some t ∧
      Exited record table low s t σ := by
  have hf := frameFits shape u
  have hsp₁ := (h.untouched.high .sp (by decide)).trans he.sp
  obtain ⟨s₂, t, ht, hon, hun⟩ := trailerOps_run u hf hsp₁ hf.bytes he.framed fun k _ hk =>
    ⟨h.context.symm ▸ hapart k hk, h.untouched.mem _ (hapart k hk)⟩
  obtain ⟨s₃, hst, hm₂⟩ := hon.stored
  rw [h.context] at hst
  refine ⟨t, ht, ?_, ?_, ?_, ?_, fun x hx => ?_, fun v hlo hhi => ?_, fun a har has => ?_⟩
  · rw [hun.mem, hm₂]
    exact holds_of_stored h hst
  · unfold Aimed
    rw [hun.mem, hm₂]
    refine Eq.trans (Mem.read_congr fun j hj => hst.kept _ ?_) ha
    exact RegisterUse.not_owns_status (Nat.le_of_ble_eq_true rfl)
      (fun _ => Nat.le_of_ble_eq_true rfl) (Nat.le_of_ble_eq_true rfl) j hj
  · rw [hun.kept hf (by decide), hon.x0, h.context]
  · rw [hun.kept hf (by decide), hon.x1, h.pageTable]
  · by_cases hmem : x ∈ (frameOf shape u).savedGprs
    · exact hun.saved x (.inl hmem)
    · by_cases hlt : x.index < 29
      · have hused : u.usedGprs.contains x.code = false :=
          eq_false_of_ne_true fun hc => hmem (savedGprs_iff.mpr ⟨hc, hx, hlt⟩)
        rw [hun.x x hmem hlt, hon.saved hx, h.untouched.owed x hx hused]
        exact he.owed x hx hlt hused
      · have hle : x.index < 32 := x.code.isLt
        have hcases : x.index = 29 ∨ x.index = 30 ∨ x.index = 31 := by omega
        rcases hcases with hi | hi | hi
        · exact hun.saved x (.inr (.inl (Gpr.eq_of_index hi)))
        · exact hun.saved x (.inr (.inr (Gpr.eq_of_index hi)))
        · rw [Gpr.eq_of_index (y := .sp) hi, hun.sp, hsp]
  · by_cases hmem : v ∈ (frameOf shape u).savedVregs
    · exact hun.savedV v hmem
    · rw [hun.v v hmem, hon.v, h.untouched.vregs v hlo hhi, he.v v hhi]
  · rw [hun.mem, hon.mem (h.context.symm ▸ har), h.untouched.mem a har]
    exact he.mem a has

end Dynarec.Simulation
