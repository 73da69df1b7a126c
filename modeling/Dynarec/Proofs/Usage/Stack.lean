import Dynarec.Proofs.Usage.Marks

/-! # The spill area

A call keeps registers on the stack in slots that are naturally aligned and apart, and takes them
back from the same slots. Between the prologue and the trailer nothing but a call touches the stack,
and the trace has told of every call, so that the frame has room for its slots. -/

namespace Dynarec.Host

/-- A register and the memory that it is stored to or loaded from. -/
structure Transfer where
  reg : Gpr ⊕ Vreg
  base : Gpr
  offset : Nat
  bytes : Nat
  deriving DecidableEq

namespace Instr

def store? : Instr → Option Transfer
  | str width rt rn offset => some ⟨.inl rt, rn, offset, width.bytes⟩
  | strV width rt rn offset => some ⟨.inr rt, rn, offset, width.bytes⟩
  | _ => none

def load? : Instr → Option Transfer
  | ldr width rt rn offset => some ⟨.inl rt, rn, offset, width.bytes⟩
  | ldrV width rt rn offset => some ⟨.inr rt, rn, offset, width.bytes⟩
  | _ => none

end Instr

end Dynarec.Host

namespace Dynarec.Emit

open Host

namespace SpillLayout

/-- The slots of a layout: vector registers, general registers, and the flags through the scratch
register. -/
def slots (l : SpillLayout) : List Transfer :=
  (l.vregSlots.map fun p => ⟨.inr p.1, .sp, p.2, 16⟩) ++
    (l.gprSlots.map fun p => ⟨.inl p.1, .sp, p.2, 8⟩) ++
    if l.flags then [⟨.inl .scratch, .sp, l.flagsOffset, 8⟩] else []

/-- Every register of a layout has its own slot inside the spill area, aligned to its size, and is
loaded from where it was stored. -/
structure Slotted (l : SpillLayout) : Prop where
  stores : l.spill.filterMap Instr.store? = l.slots
  loads : l.refill.filterMap Instr.load? = l.slots
  vregs : ∀ v : Vreg, l.vregs.contains v.code = true → ∃ s ∈ l.slots, s.reg = .inr v ∧ s.bytes = 16
  gprs : ∀ x : Host.Gpr, l.gprs.contains x.code = true → ∃ s ∈ l.slots, s.reg = .inl x ∧ s.bytes = 8
  flags : l.flags = true → ⟨.inl .scratch, .sp, l.flagsOffset, 8⟩ ∈ l.slots ∧
    [.mrsFlags .scratch, .str .x .scratch .sp l.flagsOffset] <:+ l.spill ∧
    [.ldr .x .scratch .sp l.flagsOffset, .msrFlags .scratch] <:+ l.refill
  aligned : ∀ s ∈ l.slots, s.base = .sp ∧ s.bytes ∣ s.offset
  apart : l.slots.Pairwise fun a b => a.offset + a.bytes ≤ b.offset
  inside : ∀ s ∈ l.slots, s.offset + s.bytes ≤ l.bytes

section Slots

variable (l : SpillLayout)

theorem filterMap_map_some {α β γ : Type} {f : α → β} {g : β → Option γ} {m : α → γ}
    (h : ∀ a, g (f a) = some (m a)) (xs : List α) : (xs.map f).filterMap g = xs.map m := by
  rw [List.filterMap_map, show g ∘ f = some ∘ m from funext h, List.filterMap_eq_map]

theorem filterMap_store?_spill : l.spill.filterMap Instr.store? = l.slots := by
  unfold spill slots
  rw [List.filterMap_append, List.filterMap_append]
  congr 1
  · congr 1
    · exact filterMap_map_some (by intro; rfl) _
    · exact filterMap_map_some (by intro; rfl) _
  · split <;> rfl

theorem filterMap_load?_refill : l.refill.filterMap Instr.load? = l.slots := by
  unfold refill slots
  rw [List.filterMap_append, List.filterMap_append]
  congr 1
  · congr 1
    · exact filterMap_map_some (by intro; rfl) _
    · exact filterMap_map_some (by intro; rfl) _
  · split <;> rfl

theorem slots_of_vreg {v : Vreg} (h : l.vregs.contains v.code = true) :
    ∃ s ∈ l.slots, s.reg = .inr v ∧ s.bytes = 16 := by
  obtain ⟨n, hn⟩ := List.mem_iff_getElem?.mp (RegSet.mem_vregs.mpr h)
  have hmem : (v, n * 16) ∈ l.vregSlots :=
    List.mem_map.mpr ⟨(v, n), List.mem_zipIdx_iff_getElem?.mpr hn, rfl⟩
  exact ⟨_, List.mem_append_left _ (List.mem_append_left _ (List.mem_map_of_mem hmem)), rfl, rfl⟩

theorem slots_of_gpr {x : Host.Gpr} (h : l.gprs.contains x.code = true) :
    ∃ s ∈ l.slots, s.reg = .inl x ∧ s.bytes = 8 := by
  obtain ⟨n, hn⟩ := List.mem_iff_getElem?.mp (RegSet.mem_gprs.mpr h)
  have hmem : (x, l.gprBase + n * 8) ∈ l.gprSlots :=
    List.mem_map.mpr ⟨(x, n), List.mem_zipIdx_iff_getElem?.mpr hn, rfl⟩
  exact ⟨_, List.mem_append_left _ (List.mem_append_right _ (List.mem_map_of_mem hmem)), rfl, rfl⟩

theorem slots_of_flags (h : l.flags = true) :
    ⟨.inl .scratch, .sp, l.flagsOffset, 8⟩ ∈ l.slots ∧
      [.mrsFlags .scratch, .str .x .scratch .sp l.flagsOffset] <:+ l.spill ∧
      [.ldr .x .scratch .sp l.flagsOffset, .msrFlags .scratch] <:+ l.refill := by
  unfold slots spill refill
  rw [if_pos h, if_pos h, if_pos h]
  exact ⟨List.mem_append_right _ List.mem_cons_self, List.suffix_append _ _, List.suffix_append _ _⟩

/-- What holds of the slots of both kinds of registers and of the flags. -/
theorem forall_slots {P : Transfer → Prop} (hv : ∀ p ∈ l.vregSlots, P ⟨.inr p.1, .sp, p.2, 16⟩)
    (hx : ∀ p ∈ l.gprSlots, P ⟨.inl p.1, .sp, p.2, 8⟩)
    (hf : l.flags = true → P ⟨.inl .scratch, .sp, l.flagsOffset, 8⟩) : ∀ s ∈ l.slots, P s := by
  refine List.forall_mem_append.mpr ⟨List.forall_mem_append.mpr
    ⟨List.forall_mem_map.mpr hv, List.forall_mem_map.mpr hx⟩, ?_⟩
  split
  · rename_i hflags
    exact List.forall_mem_singleton.mpr (hf hflags)
  · exact fun _ hs => absurd hs List.not_mem_nil

/-- Numbered from zero on, and spread out evenly. -/
theorem pairwise_spread {α : Type} (xs : List α) (base size : Nat) :
    (xs.zipIdx.map fun p => (p.1, base + p.2 * size)).Pairwise fun a b => a.2 + size ≤ b.2 := by
  have hlt : xs.zipIdx.Pairwise fun a b => a.2 < b.2 := by
    rw [← List.pairwise_map (R := (· < ·)), List.zipIdx_map_snd]
    exact List.pairwise_lt_range'
  refine List.pairwise_map.mpr (hlt.imp fun {a b} hab => ?_)
  have hle : (a.2 + 1) * size ≤ b.2 * size := Nat.mul_le_mul_right size hab
  rw [Nat.add_mul, Nat.one_mul] at hle
  dsimp only
  omega

theorem le_gprSlots : ∀ p ∈ l.gprSlots, l.gprBase ≤ p.2 := by
  intro p hp
  obtain ⟨⟨x, n⟩, -, rfl⟩ := List.mem_map.mp hp
  exact Nat.le_add_right _ _

theorem pairwise_slots : l.slots.Pairwise fun a b => a.offset + a.bytes ≤ b.offset := by
  have hbase : l.vregs.size * 16 ≤ l.flagsOffset := Nat.le_add_right _ _
  refine List.pairwise_append.mpr ⟨List.pairwise_append.mpr ⟨?_, ?_, ?_⟩, ?_, ?_⟩
  · have hspread := pairwise_spread l.vregs.vregs 0 16
    simp only [Nat.zero_add] at hspread
    exact List.pairwise_map.mpr hspread
  · exact List.pairwise_map.mpr (pairwise_spread l.gprs.gprs l.gprBase 8)
  · refine List.forall_mem_map.mpr fun p hp => List.forall_mem_map.mpr fun q hq => ?_
    exact Nat.le_trans (l.vregSlots_le p hp) (l.le_gprSlots q hq)
  · split
    · exact List.pairwise_singleton _ _
    · exact List.Pairwise.nil
  · have hlast : ∀ s ∈ (l.vregSlots.map fun p => (⟨.inr p.1, .sp, p.2, 16⟩ : Transfer)) ++
        l.gprSlots.map fun p => ⟨.inl p.1, .sp, p.2, 8⟩, s.offset + s.bytes ≤ l.flagsOffset := by
      refine List.forall_mem_append.mpr ⟨List.forall_mem_map.mpr fun p hp => ?_,
        List.forall_mem_map.mpr l.gprSlots_le⟩
      exact Nat.le_trans (l.vregSlots_le p hp) hbase
    intro s hs b hb
    split at hb
    · rw [List.mem_singleton.mp hb]
      exact hlast s hs
    · exact absurd hb List.not_mem_nil

/-- A layout whose slots have room. -/
theorem slotted (hused : l.used ≤ l.bytes) : l.Slotted := by
  have hbase : l.vregs.size * 16 ≤ l.flagsOffset := Nat.le_add_right _ _
  have hflags : l.flagsOffset ≤ l.used := Nat.le_add_right _ _
  refine ⟨l.filterMap_store?_spill, l.filterMap_load?_refill, fun v => l.slots_of_vreg,
    fun x => l.slots_of_gpr, l.slots_of_flags, ?_, l.pairwise_slots, ?_⟩
  · refine l.forall_slots (fun p hp => ⟨rfl, ?_⟩) (fun p hp => ⟨rfl, ?_⟩) fun _ => ⟨rfl, ?_⟩
    · obtain ⟨⟨v, n⟩, -, rfl⟩ := List.mem_map.mp hp
      exact Nat.dvd_mul_left 16 n
    · obtain ⟨⟨x, n⟩, -, rfl⟩ := List.mem_map.mp hp
      show 8 ∣ l.vregs.size * 16 + n * 8
      omega
    · show 8 ∣ l.vregs.size * 16 + l.gprs.size * 8
      omega
  · refine l.forall_slots (fun p hp => ?_) (fun p hp => ?_) fun hf => ?_
    · exact Nat.le_trans (l.vregSlots_le p hp) (by omega)
    · exact Nat.le_trans (l.gprSlots_le p hp) (by omega)
    · have hall : l.used = l.flagsOffset + 8 := by
        rw [used, if_pos hf]
      exact Nat.le_trans (Nat.le_of_eq hall.symm) hused

end Slots

end SpillLayout

end Dynarec.Emit

namespace Dynarec

open Dynarec.Emit Dynarec.Compile Dynarec.Host

/-- Between its prologue and its trailer a unit uses the stack for calls only, within the spill area
of its frame. Each call is one that the trace `t` has told of, so that the area was laid out for
it. -/
structure StackKept (t : Guest.Trace) (s : Emission) (c : Compiled) : Prop where
  inside : ∀ k i offset n, instrAt? c.code k = some i → c.stats.prologueWords ≤ k →
    (∀ m, c.stats.trailer = some m → k < m) → i.access? = some (.sp, offset, n) →
    0 ≤ offset ∧ offset + n ≤ c.stats.spillBytes
  round : c.stats.spillBytes % 16 = 0
  /-- Every call stands for a fixup, which tells its tier, -/
  calls : ∀ k x, instrAt? c.code k = some (.blr x) → ∃ f ∈ s.fixups.toList, ∃ tier,
    f.kind.tier? = some tier ∧ HostCallAt (instrAt? c.code) (.ofTrace t) s.regs tier k
  /-- and every fixup comes from an instruction or a loop end that is flagged for its tier. -/
  foreseen : ∀ f ∈ s.fixups.toList, f.Foreseen t
  full : ∀ f ∈ s.fixups.toList, f.kind.tier? = some .full → t.hasHostCall = true
  skip : ∀ f ∈ s.fixups.toList, f.kind.tier? = some .skipContext → t.hasHostCallSkipContext = true

namespace Translated

variable {options : Options} {dispatch : DispatchTable} {img : Guest.Image} {entry : Word}
  {c : Compiled} {t : Guest.Trace} {p : Plan} (h : Translated options dispatch img entry c t p)

include h

theorem access_inside {k : Nat} {i : Host.Instr} (hi : instrAt? c.code k = some i)
    (hlo : c.stats.prologueWords ≤ k) (hhi : ∀ m, c.stats.trailer = some m → k < m) {offset : Int}
    {n : Nat} (ha : i.access? = some (.sp, offset, n)) :
    0 ≤ offset ∧ offset + n ≤ c.stats.spillBytes := by
  have hbytes : c.stats.spillBytes = p.frame.spillBytes := congrArg Stats.spillBytes h.stats
  rw [hbytes]
  cases h.uses_of_instrAt? hi hlo hhi with
  | confined hc => exact hc.stack offset n ha
  | check _ hi =>
    have hnone : ∀ i ∈ syncOps, ∀ a, i.access? = some a → a.1 ≠ .sp := by decide
    exact absurd rfl (hnone i (List.mem_of_getElem? hi) _ ha)
  | call _ _ hst _ _ hclobbers =>
    cases hclobbers with
    | call => cases ha
    | reload htier =>
      have hroom := hst.room
      rw [htier] at hroom
      cases ha
      exact ⟨Int.le_refl _, Int.ofNat_le.mpr hroom⟩

theorem stackKept {s : Emission} (hs : p.Emitted s) : StackKept t s c := by
  have hfixups := hs.fixups
  have hshape : p.setting.shape = .ofTrace t := congrArg Setting.shape h.setting
  have hforeseen : ∀ f ∈ s.fixups.toList, f.Foreseen t := by
    intro f hf
    rw [hfixups] at hf
    obtain ⟨x, hx, k, hfix⟩ := hole_mem_of_fixup hf
    exact h.foreseen x hx k f hfix
  refine ⟨fun k i offset n hi hlo hhi => h.access_inside hi hlo hhi, ?_, fun k x hi => ?_, hforeseen,
    fun f hf => h.hasHostCall_of_foreseen (hforeseen f hf),
    fun f hf => h.hasHostCallSkipContext_of_foreseen (hforeseen f hf)⟩
  · rw [h.stats]
    exact spillBytes_mod p.use p.setting.shape
  · rw [hfixups, hs.regs, ← hshape]
    exact h.hostCallAt_of_blr hi

end Translated

/-- Slots of calls stay inside the frame, whatever unit is translated; and whatever registers are in
use, slots are aligned, apart, and the same before and behind the call. -/
theorem calls_stay_in_frame {options : Options} {dispatch : DispatchTable} {img : Guest.Image}
    {entry : Word} {c : Compiled} (h : translate options dispatch img entry = .ok c) :
    (∃ t s, Guest.Trace.collect options.limits img entry = .ok t ∧
      (do reservePrologue; body lower t.blocks.toList : Emit Unit)
        { config := options.config, dispatch, shape := .ofTrace t } {} = .ok () s ∧
      StackKept t s c) ∧
    ∀ u shape, (SpillLayout.compute u shape).Slotted := by
  obtain ⟨t, p, h⟩ := translate_ok h
  obtain ⟨s, hrun, hs⟩ := h.emitted
  rw [h.blocks, h.setting] at hrun
  exact ⟨⟨t, s, h.trace, hrun, h.stackKept hs⟩,
    fun u shape => SpillLayout.slotted _ (SpillLayout.used_compute_le u shape)⟩

/-- A call of guest code and a system call behind an addition that sets flags: calls of both tiers
keep registers on the stack. -/
def callingImage : Guest.Image :=
  ⟨0x1000, #[0x01, 0x00, 0x90, 0xE2, 0xFD, 0x03, 0x00, 0xEB, 0x07, 0x00, 0x00, 0xEF,
    0x1E, 0xFF, 0x2F, 0xE1]⟩

theorem calls_stay_in_frame_flags : ∃ c t s,
    translate {} DispatchTable.empty callingImage 0x1000 = .ok c ∧
    Guest.Trace.collect {} callingImage 0x1000 = .ok t ∧ StackKept t s c ∧
    instrAt? c.code 79 = some (.str .x .scratch .sp 8) ∧ c.stats.spillBytes = 16 ∧
    (SpillLayout.compute s.regs (.ofTrace t)).Slotted := by
  have hunit : (translate {} DispatchTable.empty callingImage 0x1000).toOption.any (fun c =>
      decide (instrAt? c.code 79 = some (.str .x .scratch .sp 8)) &&
        decide (c.stats.spillBytes = 16)) = true := by decide +kernel
  obtain ⟨c, hc, hunit⟩ := exists_ok_of_any hunit
  rw [Bool.and_eq_true, decide_eq_true_eq, decide_eq_true_eq] at hunit
  obtain ⟨⟨t, s, ht, -, hkept⟩, hslots⟩ := calls_stay_in_frame hc
  exact ⟨c, t, s, hc, ht, hkept, hunit.1, hunit.2, hslots _ _⟩

end Dynarec
