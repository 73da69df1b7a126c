import Dynarec.Proofs.Compiled
import Dynarec.Proofs.Machine.Operands
import Dynarec.Proofs.Run.Unit

/-! # Frames are taken down as they were built

A prologue and a trailer stand around a body of any words. What runs between them may change
registers and memory as it likes, the spill area included. If it has left the stack pointer, the two
pointers and the frame alone, the trailer gives back to the caller what the prologue has taken, and
all the way the stack pointer is a multiple of sixteen. -/

namespace Dynarec.Host

open Dynarec.Compile

/-! ### Alignment -/

def State.Aligned (s : State) : Prop := 16 ∣ (s.x .sp).toNat

theorem dvd_toNat_add {a d : DWord} (ha : 16 ∣ a.toNat) (hd : 16 ∣ d.toNat) :
    16 ∣ (a + d).toNat := by
  rw [BitVec.toNat_add]
  omega

theorem dvd_toNat_neg {d : DWord} (hd : 16 ∣ d.toNat) : 16 ∣ (-d).toNat := by
  rw [BitVec.toNat_neg]
  omega

theorem dvd_toNat_ofInt {o : Int} (h : o % 16 = 0) : 16 ∣ (BitVec.ofInt 64 o).toNat := by
  rw [BitVec.toNat_ofInt]
  omega

theorem dvd_toNat_imm {imm : BitVec 12} (h : imm.toNat % 16 = 0) :
    16 ∣ (imm.setWidth 64).toNat := by
  rw [BitVec.toNat_setWidth]
  omega

namespace Instr

def KeepsAligned (i : Instr) : Prop := ∀ s t, i.exec s = some t → s.Aligned → t.Aligned

/-- How far the instruction moves the register it addresses memory with. -/
def update? : Instr → Option (Gpr × Int)
  | stpPre _ _ rn o | ldpPost _ _ rn o | strPre _ rn o | ldrPost _ rn o | strVPre _ rn o
  | ldrVPost _ rn o => some (rn, o)
  | _ => none

variable {i : Instr}

theorem keepsAligned_of_writes (h : .sp ∉ i.writes) : i.KeepsAligned := by
  intro s t ht hs
  unfold State.Aligned
  rw [x_exec ht h]
  exact hs

/-- Number 31 is the stack pointer only where a register is a base. -/
theorem sp_not_mem_operand (r : Gpr) : .sp ∉ r.operand := by
  intro h
  obtain ⟨heq, hne⟩ := Gpr.mem_operand.mp h
  exact hne heq.symm

theorem sp_update {o : Int} (hi : i.update? = some (.sp, o)) {s t : State}
    (h : i.exec s = some t) : t.x .sp = s.x .sp + BitVec.ofInt 64 o := by
  have hset : ∀ (s : State) (r : Gpr) (value : DWord), (s.set r value).x .sp = s.x .sp :=
    fun s r value => State.x_set_of_not_mem s value (sp_not_mem_operand r)
  cases i with
  | stpPre | strPre | strVPre | ldrVPost =>
    cases hi
    cases h
    simp only [State.x_skip, State.setV, State.x_setBase_self]
  | ldrPost =>
    cases hi
    cases h
    exact (hset _ _ _).trans (State.x_setBase_self s .sp _)
  | ldpPost =>
    cases hi
    cases h
    exact (hset _ _ _).trans ((hset _ _ _).trans (State.x_setBase_self s .sp _))
  | _ => cases hi

theorem keepsAligned_of_sp {d : DWord} (hd : 16 ∣ d.toNat)
    (h : ∀ s t, i.exec s = some t → t.x .sp = s.x .sp + d) : i.KeepsAligned := by
  intro s t ht hs
  unfold State.Aligned
  rw [h s t ht]
  exact dvd_toNat_add hs hd

theorem keepsAligned_of_update {o : Int} (hi : i.update? = some (.sp, o)) (ho : o % 16 = 0) :
    i.KeepsAligned :=
  keepsAligned_of_sp (dvd_toNat_ofInt ho) fun _ _ => sp_update hi

theorem keepsAligned_addImm {imm : BitVec 12} (h : imm.toNat % 16 = 0) :
    (addImm .x .sp .sp imm).KeepsAligned := by
  refine keepsAligned_of_sp (dvd_toNat_imm h) fun s t ht => ?_
  cases ht
  show (s.setBase .sp (((s.x .sp).setWidth 64 + imm.setWidth 64).setWidth 64)).x .sp = _
  rw [BitVec.setWidth_eq, BitVec.setWidth_eq]
  exact State.x_setBase_self s .sp _

theorem keepsAligned_subImm {imm : BitVec 12} (h : imm.toNat % 16 = 0) :
    (subImm .x .sp .sp imm).KeepsAligned := by
  refine keepsAligned_of_sp (dvd_toNat_neg (dvd_toNat_imm h)) fun s t ht => ?_
  cases ht
  show (s.setBase .sp (((s.x .sp).setWidth 64 - imm.setWidth 64).setWidth 64)).x .sp = _
  rw [BitVec.setWidth_eq, BitVec.setWidth_eq, ← BitVec.sub_eq_add_neg]
  exact State.x_setBase_self s .sp _

end Instr

/-- The stack pointer is aligned in `s` and behind each of the next `n` instructions. -/
def StaysAligned (fetch : Nat → Option Instr) (n : Nat) (s : State) : Prop :=
  ∀ k t, k ≤ n → Execs fetch k s t → t.Aligned

theorem staysAligned_of_straight {fetch : Nat → Option Instr} {is : List Instr} {s : State}
    (hat : Found fetch s.pc is) (hst : Straight is) (hkeep : ∀ i ∈ is, i.KeepsAligned)
    (hs : s.Aligned) : StaysAligned fetch is.length s := by
  intro n t hn h
  induction is generalizing n s with
  | nil =>
    obtain rfl := Nat.le_zero.mp hn
    cases h
    exact hs
  | cons i is ih =>
    cases n with
    | zero =>
      cases h
      exact hs
    | succ n =>
      obtain ⟨j, s₁, hj, hs₁, hrest⟩ := h
      obtain ⟨hi, his⟩ := straight_cons.mp hst
      obtain ⟨hfirst, hat⟩ := allFrom_cons.mp hat
      obtain rfl : i = j := Option.some.inj (hfirst.symm.trans hj)
      obtain ⟨hkeepi, hkeep⟩ := List.forall_mem_cons.mp hkeep
      rw [← Instr.pc_exec (isStraight_iff.mp hi).2.1 hs₁] at hat
      exact ih hat his hkeep (hkeepi s s₁ hs₁ hs) n (Nat.le_of_succ_le_succ hn) hrest

/-- The words of instructions are read as these instructions, whatever stands around them. -/
theorem found_of_words (pre post : List Word) {is : List Instr}
    (h : ∀ i ∈ is, i.isCanonical = true) :
    Found (instrAt? (pre ++ (is.map Instr.encode ++ post)).toArray) pre.length is := by
  intro j i hj
  have hlt : j < (is.map Instr.encode).length := by
    rw [List.length_map]
    exact (List.getElem?_eq_some_iff.mp hj).1
  rw [instrAt?, List.getElem?_toArray, List.getElem?_append_right (Nat.le_add_right _ _),
    Nat.add_sub_cancel_left, List.getElem?_append_left hlt, List.getElem?_map, hj]
  exact decode_encode (h i (List.mem_of_getElem? hj))

end Dynarec.Host

namespace Dynarec.Emit

open Dynarec.Host

section Aligned

variable {f : Frame}

theorem keepsAligned_pushGprs (xs : List Host.Gpr) :
    ∀ i ∈ Frame.pushGprs xs, i.KeepsAligned := by
  fun_induction Frame.pushGprs xs with
  | case1 x y rest ih =>
    exact List.forall_mem_cons.mpr ⟨Instr.keepsAligned_of_update rfl rfl, ih⟩
  | case2 x => exact List.forall_mem_singleton.mpr (Instr.keepsAligned_of_update rfl rfl)
  | case3 => exact List.forall_mem_nil _

theorem keepsAligned_popGprs (xs : List Host.Gpr) : ∀ i ∈ Frame.popGprs xs, i.KeepsAligned := by
  fun_induction Frame.popGprs xs with
  | case1 x y rest ih =>
    refine List.forall_mem_append.mpr ⟨ih, ?_⟩
    exact List.forall_mem_singleton.mpr (Instr.keepsAligned_of_update rfl rfl)
  | case2 x => exact List.forall_mem_singleton.mpr (Instr.keepsAligned_of_update rfl rfl)
  | case3 => exact List.forall_mem_nil _

theorem keepsAligned_spillMove {move : Host.Gpr → Host.Gpr → BitVec 12 → Host.Instr}
    (h : (BitVec.ofNat 12 f.spillBytes).toNat % 16 = 0 →
      (move .sp .sp (BitVec.ofNat 12 f.spillBytes)).KeepsAligned)
    (hf : f.spillBytes % 16 = 0) : ∀ i ∈ f.spillMove move, i.KeepsAligned := by
  have hround : (BitVec.ofNat 12 f.spillBytes).toNat % 16 = 0 := by
    rw [BitVec.toNat_ofNat]
    omega
  unfold Frame.spillMove
  split
  · exact List.forall_mem_singleton.mpr (h hround)
  · exact List.forall_mem_nil _

theorem keepsAligned_loadFromRecord (u : RegisterUse) :
    ∀ i ∈ u.loadFromRecord, i.KeepsAligned := by
  refine List.forall_mem_append.mpr ⟨List.forall_mem_append.mpr ⟨?_, ?_⟩, ?_⟩
  · exact List.forall_mem_map.mpr fun p _ =>
      Instr.keepsAligned_of_writes (Instr.sp_not_mem_operand p.1)
  · exact List.forall_mem_map.mpr fun p _ => Instr.keepsAligned_of_writes List.not_mem_nil
  · split
    · refine List.forall_mem_cons.mpr
        ⟨Instr.keepsAligned_of_writes (Instr.sp_not_mem_operand .scratch), ?_⟩
      exact List.forall_mem_singleton.mpr (Instr.keepsAligned_of_writes List.not_mem_nil)
    · exact List.forall_mem_nil _

theorem keepsAligned_storeToRecord (u : RegisterUse) :
    ∀ i ∈ u.storeToRecord, i.KeepsAligned := by
  refine List.forall_mem_append.mpr ⟨List.forall_mem_append.mpr ⟨?_, ?_⟩, ?_⟩
  · exact List.forall_mem_map.mpr fun p _ => Instr.keepsAligned_of_writes List.not_mem_nil
  · exact List.forall_mem_map.mpr fun p _ => Instr.keepsAligned_of_writes List.not_mem_nil
  · split
    · refine List.forall_mem_cons.mpr
        ⟨Instr.keepsAligned_of_writes (Instr.sp_not_mem_operand .scratch), ?_⟩
      exact List.forall_mem_singleton.mpr (Instr.keepsAligned_of_writes List.not_mem_nil)
    · exact List.forall_mem_nil _

theorem keepsAligned_movs (a b c d : Host.Gpr) :
    ∀ i ∈ [Host.Instr.mov .x a c, .mov .x b d], i.KeepsAligned := by
  have hmov : ∀ x y : Host.Gpr, (Host.Instr.mov .x x y).KeepsAligned := fun x _ =>
    Instr.keepsAligned_of_writes (Instr.sp_not_mem_operand x)
  exact List.forall_mem_cons.mpr ⟨hmov a c, List.forall_mem_singleton.mpr (hmov b d)⟩

theorem keepsAligned_prologue (u : RegisterUse) (hf : f.spillBytes % 16 = 0) :
    ∀ i ∈ f.prologue u, i.KeepsAligned := by
  have hrecord : ∀ i ∈ [Host.Instr.stpPre .fp .lr .sp (-16), .addImm .x .fp .sp 0],
      i.KeepsAligned := by
    refine List.forall_mem_cons.mpr ⟨Instr.keepsAligned_of_update rfl rfl, ?_⟩
    exact List.forall_mem_singleton.mpr (Instr.keepsAligned_of_writes (by decide))
  have hpush : ∀ i ∈ f.push, i.KeepsAligned := by
    refine List.forall_mem_append.mpr ⟨List.forall_mem_append.mpr ⟨List.forall_mem_append.mpr
      ⟨hrecord, keepsAligned_pushGprs _⟩, ?_⟩,
      keepsAligned_spillMove Instr.keepsAligned_subImm hf⟩
    exact List.forall_mem_map.mpr fun v _ => Instr.keepsAligned_of_update rfl rfl
  exact List.forall_mem_append.mpr ⟨List.forall_mem_append.mpr
    ⟨hpush, keepsAligned_movs _ _ _ _⟩, keepsAligned_loadFromRecord u⟩

theorem keepsAligned_trailerOps (u : RegisterUse) (hf : f.spillBytes % 16 = 0) :
    ∀ i ∈ trailerOps f u, i.KeepsAligned := by
  have hpop : ∀ i ∈ f.pop, i.KeepsAligned := by
    refine List.forall_mem_append.mpr ⟨List.forall_mem_append.mpr ⟨List.forall_mem_append.mpr
      ⟨keepsAligned_spillMove Instr.keepsAligned_addImm hf, ?_⟩, keepsAligned_popGprs _⟩, ?_⟩
    · exact List.forall_mem_map.mpr fun v _ => Instr.keepsAligned_of_update rfl rfl
    · exact List.forall_mem_singleton.mpr (Instr.keepsAligned_of_update rfl rfl)
  exact List.forall_mem_append.mpr ⟨List.forall_mem_append.mpr
    ⟨keepsAligned_storeToRecord u, keepsAligned_movs _ _ _ _⟩, hpop⟩

end Aligned

end Dynarec.Emit

namespace Dynarec.Simulation

open Dynarec.Emit Dynarec.Host Dynarec.Compile

variable {f : Frame} {u : RegisterUse} {low : DWord} {s base s₁ t : Host.State}

/-! ### Words -/

/-- A prologue and a trailer with a body between them. -/
def framedWords (f : Frame) (u : RegisterUse) (body : List Word) : Array Word :=
  ((f.prologue u).map Instr.encode ++ (body ++ (f.trailer u).map Instr.encode)).toArray

theorem found_prologue (f : Frame) (u : RegisterUse) (body : List Word) :
    Found (instrAt? (framedWords f u body)) 0 (f.prologue u) :=
  found_of_words [] _ (canonical_of_straight (straight_prologue f u))

theorem found_trailer (f : Frame) (u : RegisterUse) (body : List Word) :
    Found (instrAt? (framedWords f u body)) ((f.prologue u).length + body.length)
      (trailerOps f u ++ [.br .dispatch]) := by
  have hcanonical : ∀ i ∈ trailerOps f u ++ [.br .dispatch], i.isCanonical = true := by
    refine List.forall_mem_append.mpr ⟨canonical_of_straight (straight_trailerOps f u), ?_⟩
    exact List.forall_mem_singleton.mpr rfl
  have hfound := found_of_words ((f.prologue u).map Instr.encode ++ body) [] hcanonical
  rw [List.length_append, List.length_map, List.append_nil, List.append_assoc] at hfound
  exact hfound

/-! ### Between prologue and trailer -/

/-- The byte belongs to the frame over the stack pointer, above the spill area. -/
def OnFrame (f : Frame) (sp a : DWord) : Prop :=
  ∃ o, f.spillBytes ≤ o ∧ o < 16 + f.bytes ∧ a = sp + BitVec.ofNat 64 o

/-- What code has left alone that ran from `base` to `s₁`. -/
structure LeftAlone (f : Frame) (base s₁ : Host.State) : Prop where
  sp : s₁.x .sp = base.x .sp
  context : s₁.x .context = base.x .context
  pageTable : s₁.x .pageTable = base.x .pageTable
  frame : ∀ a, OnFrame f (base.x .sp) a → s₁.mem a = base.mem a

/-- What a caller has in `t`, behind a unit that was entered in `s` and came to its trailer in
`s₁`. -/
structure Returned (u : RegisterUse) (s s₁ t : Host.State) : Prop where
  sp : t.x .sp = s.x .sp
  fp : t.x .fp = s.x .fp
  lr : t.x .lr = s.x .lr
  gprs : ∀ x : Host.Gpr, 19 ≤ x.index → x.index ≤ 28 → u.usedGprs.contains x.code = true →
    t.x x = s.x x
  vregs : ∀ v : Vreg, 8 ≤ v.index → v.index ≤ 15 → u.usedVregs.contains v.code = true →
    (t.v v).setWidth 64 = (s.v v).setWidth 64
  x0 : t.x (.ofNat 0) = s₁.x .context
  x1 : t.x (.ofNat 1) = s₁.x .pageTable
  dispatch : t.x .dispatch = s₁.x .dispatch

/-- The frame of a unit that was entered in `s` stands. -/
structure FrameStands (f : Frame) (low : DWord) (s base : Host.State) : Prop where
  context : base.x .context = s.x (.ofNat 0)
  pageTable : base.x .pageTable = s.x (.ofNat 1)
  sp : base.x .sp = slot low (stackBytes - (16 + f.bytes))
  fp : base.x .fp = slot low (stackBytes - 16)
  framed : Framed f low stackBytes s base.mem

theorem prologue_stands (u : RegisterUse) (hf : FrameFits f) (hs : s.x .sp = slot low stackBytes) :
    ∃ base, execAll (f.prologue u) s = some base ∧ FrameStands f low s base := by
  obtain ⟨s', base, hbase, hbuilt, hloaded⟩ := prologue_built u hf hs hf.bytes (by decide)
  refine ⟨base, hbase, ?_, ?_, ?_, ?_, ?_⟩
  · rw [hloaded.high (x := .context) (by decide), hbuilt.context]
  · rw [hloaded.high (x := .pageTable) (by decide), hbuilt.pageTable]
  · rw [hloaded.high (x := .sp) (by decide), hbuilt.sp]
  · rw [hloaded.high (x := .fp) (by decide), hbuilt.fp]
  · rw [hloaded.mem]
    exact hbuilt.framed

theorem FrameStands.bytes (h : FrameStands f low s base) (hf : FrameFits f) :
    base.x .fp - base.x .sp = BitVec.ofNat 64 f.bytes := by
  have hle := hf.bytes
  have hplace : stackBytes - 16 = stackBytes - (16 + f.bytes) + f.bytes := by omega
  rw [h.fp, h.sp, hplace, ← slot_add, BitVec.add_comm, BitVec.add_sub_cancel]

theorem FrameStands.below (h : FrameStands f low s base) (hf : FrameFits f)
    (hs : s.x .sp = slot low stackBytes) :
    base.x .sp = s.x .sp - BitVec.ofNat 64 (16 + f.bytes) := by
  have hplace : stackBytes = stackBytes - (16 + f.bytes) + (16 + f.bytes) :=
    (Nat.sub_add_cancel hf.bytes).symm
  rw [hs, h.sp, hplace, ← slot_add, ← hplace, BitVec.add_sub_cancel]

theorem onFrame_slot (hf : FrameFits f) {sp : DWord}
    (hsp : sp = slot low (stackBytes - (16 + f.bytes))) {k : Nat}
    (hlo : stackBytes - (16 + f.bytes) + f.spillBytes ≤ k) (hhi : k < stackBytes) :
    OnFrame f sp (slot low k) := by
  have hle := hf.bytes
  refine ⟨k - (stackBytes - (16 + f.bytes)), by omega, by omega, ?_⟩
  rw [hsp, slot_add]
  congr 1
  omega

theorem trailer_returns {shape : Shape} (hs : s.x .sp = slot low stackBytes)
    (h : FrameStands (frameOf shape u) low s base) (hleft : LeftAlone (frameOf shape u) base s₁)
    (hapart : ∀ a, OnFrame (frameOf shape u) (base.x .sp) a →
      Mem.Outside (base.x .context) Record.size a) :
    ∃ t, execAll (trailerOps (frameOf shape u) u) s₁ = some t ∧ Returned u s s₁ t := by
  have hf := frameFits shape u
  obtain ⟨s₂, t, ht, hon, hun⟩ := trailerOps_run u hf (hleft.sp.trans h.sp) hf.bytes h.framed
    fun k hlo hhi => by
      have hk := onFrame_slot hf h.sp hlo hhi
      exact ⟨hleft.context.symm ▸ hapart _ hk, hleft.frame _ hk⟩
  refine ⟨t, ht, ?_, ?_, ?_, fun x hlo hhi hu => ?_, fun v hlo hhi hu => ?_, ?_, ?_, ?_⟩
  · rw [hun.sp, hs]
  · exact hun.saved .fp (.inr (.inl rfl))
  · exact hun.saved .lr (.inr (.inr rfl))
  · exact hun.saved x (.inl (savedGprs_iff.mpr ⟨hu, hlo, by omega⟩))
  · exact hun.savedV v (savedVregs_iff.mpr ⟨hu, hlo, by omega⟩)
  · rw [hun.kept hf (by decide), hon.x0]
  · rw [hun.kept hf (by decide), hon.x1]
  · rw [hun.kept hf (by decide), hon.x .dispatch (by decide) (by decide) (by decide)]

section HasSlot

variable {value : Host.State → DWord} {k : Nat}

/-- What has a slot is pushed there by the prologue. -/
theorem HasSlot.stored (h : HasSlot f value k) (hf : FrameFits f) (u : RegisterUse)
    (s : Host.State) :
    ∃ base, execAll (f.prologue u) s = some base ∧
      base.x .sp = s.x .sp - BitVec.ofNat 64 (16 + f.bytes) ∧
      base.mem.dword (base.x .sp + BitVec.ofNat 64 k) = value s := by
  let low := s.x .sp - BitVec.ofNat 64 stackBytes
  have hsp : s.x .sp = slot low stackBytes := (BitVec.sub_add_cancel _ _).symm
  obtain ⟨base, hexec, hstands⟩ := prologue_stands u hf hsp
  refine ⟨base, hexec, hstands.below hf hsp, ?_⟩
  rw [hstands.sp, slot_add]
  exact h.framed hf.bytes hstands.framed

/-- What has a slot is loaded from there by the trailer, whatever the slot holds by then. -/
theorem HasSlot.loaded (h : HasSlot f value k) (hf : FrameFits f) (u : RegisterUse)
    {s₁ : Host.State}
    (hapart : ∀ a, OnFrame f (s₁.x .sp) a → Mem.Outside (s₁.x .context) Record.size a) :
    ∃ t, execAll (trailerOps f u) s₁ = some t ∧
      t.x .sp = s₁.x .sp + BitVec.ofNat 64 (16 + f.bytes) ∧
      value t = s₁.mem.dword (s₁.x .sp + BitVec.ofNat 64 k) := by
  let low := s₁.x .sp - BitVec.ofNat 64 (stackBytes - (16 + f.bytes))
  have hsp : s₁.x .sp = slot low (stackBytes - (16 + f.bytes)) :=
    (BitVec.sub_add_cancel _ _).symm
  -- Some state has what is on the stack, and the trailer goes back to its registers.
  obtain ⟨s, hframed⟩ := exists_framed hf low stackBytes s₁.mem
  obtain ⟨s₂, t, ht, -, hun⟩ := trailerOps_run u hf hsp hf.bytes hframed fun k hlo hhi =>
    ⟨hapart _ (onFrame_slot hf hsp hlo hhi), rfl⟩
  refine ⟨t, ht, ?_, ?_⟩
  · rw [hun.sp, hsp, slot_add, Nat.sub_add_cancel hf.bytes]
  · rw [h.unwound hun, hsp, slot_add]
    exact (h.framed hf.bytes hframed).symm

end HasSlot

/-! ### Prologue, body and trailer -/

theorem ofUse_eq {shape : Shape} (hf : Frame.ofUse u (SpillLayout.compute u shape).bytes = .ok f) :
    f = frameOf shape u := by
  unfold Frame.ofUse at hf
  split at hf
  · cases hf
  · cases hf
    rfl

/-- Whatever registers are in use and whatever the body is, the frame is built, and taken down if
nothing has touched it. -/
theorem frame_restored {shape : Shape}
    (hf : Frame.ofUse u (SpillLayout.compute u shape).bytes = .ok f) (body : List Word)
    (hpc : s.pc = 0) :
    ∃ base, Execs (instrAt? (framedWords f u body)) (f.prologue u).length s base ∧
      base.pc = (f.prologue u).length ∧ base.x .context = s.x (.ofNat 0) ∧
      base.x .pageTable = s.x (.ofNat 1) ∧
      base.x .sp = s.x .sp - BitVec.ofNat 64 (16 + f.bytes) ∧
      base.x .fp - base.x .sp = BitVec.ofNat 64 f.bytes ∧
      (s.Aligned → StaysAligned (instrAt? (framedWords f u body)) (f.prologue u).length s) ∧
      ∀ s₁ : Host.State, s₁.pc = (f.prologue u).length + body.length → LeftAlone f base s₁ →
        (∀ a, OnFrame f (base.x .sp) a → Mem.Outside (base.x .context) Record.size a) →
        (s.Aligned → StaysAligned (instrAt? (framedWords f u body)) (trailerOps f u).length s₁) ∧
        ∃ t, Execs (instrAt? (framedWords f u body)) (trailerOps f u).length s₁ t ∧
          instrAt? (framedWords f u body) t.pc = some (.br .dispatch) ∧ Returned u s s₁ t := by
  obtain rfl := ofUse_eq hf
  have hfits := frameFits shape u
  have hround : (frameOf shape u).spillBytes % 16 = 0 := spillBytes_mod u shape
  -- Places are counted from far enough below the stack pointer.
  let low := s.x .sp - BitVec.ofNat 64 stackBytes
  have hsp : s.x .sp = slot low stackBytes := (BitVec.sub_add_cancel _ _).symm
  obtain ⟨base, hexec, hstands⟩ := prologue_stands u hfits hsp
  have hat := found_prologue (frameOf shape u) u body
  rw [← hpc] at hat
  have hst := straight_prologue (frameOf shape u) u
  obtain ⟨hrun, hbase⟩ := execs_of_execAll hat hst hexec
  rw [hpc, Nat.zero_add] at hbase
  have haligned := staysAligned_of_straight hat hst (keepsAligned_prologue u hround)
  refine ⟨base, hrun, hbase, hstands.context, hstands.pageTable, hstands.below hfits hsp,
    hstands.bytes hfits, haligned, fun s₁ hpc₁ hleft hapart => ?_⟩
  have hat₁ := found_trailer (frameOf shape u) u body
  rw [← hpc₁] at hat₁
  obtain ⟨hops, hbr⟩ := allFrom_append.mp hat₁
  have hst₁ := straight_trailerOps (frameOf shape u) u
  obtain ⟨t, hexec₁, hreturned⟩ := trailer_returns hsp hstands hleft hapart
  obtain ⟨hrun₁, hend⟩ := execs_of_execAll hops hst₁ hexec₁
  refine ⟨fun hs => ?_, t, hrun₁, ?_, hreturned⟩
  · have hs₁ : s₁.Aligned := by
      unfold State.Aligned
      rw [hleft.sp]
      exact haligned hs _ base (Nat.le_refl _) hrun
    exact staysAligned_of_straight hops hst₁ (keepsAligned_trailerOps u hround) hs₁
  · rw [hend]
    exact allFrom_singleton.mp hbr

/-- Three general registers, one of them alone, and a vector register. -/
def oddUse : RegisterUse :=
  { usedGprs := ({} : RegisterUse).usedGprs.insert 19, usedVregs := RegSet.empty.insert 8 }

theorem frame_restored_odd : ∃ f base t,
    Frame.ofUse oddUse (SpillLayout.compute oddUse ⟨false, true⟩).bytes = .ok f ∧
    f.savedGprs = [.ofNat 19, .context, .pageTable] ∧ f.savedVregs = [⟨8⟩] ∧ f.bytes = 64 ∧
    Execs (instrAt? (framedWords f oddUse [])) (f.prologue oddUse).length callingState base ∧
    Execs (instrAt? (framedWords f oddUse [])) (trailerOps f oddUse).length base t ∧
    Returned oddUse callingState base t := by
  have hf : Frame.ofUse oddUse (SpillLayout.compute oddUse ⟨false, true⟩).bytes =
      .ok ⟨[.ofNat 19, .context, .pageTable], [⟨8⟩], 16⟩ := by rfl
  obtain ⟨base, hrun, hpc, hcontext, -, hsp, -, -, hreturn⟩ :=
    frame_restored hf [] (s := callingState) rfl
  have hapart : ∀ a, OnFrame ⟨[.ofNat 19, .context, .pageTable], [⟨8⟩], 16⟩ (base.x .sp) a →
      Mem.Outside (base.x .context) Record.size a := by
    rintro a ⟨o, -, hlt, rfl⟩
    replace hlt : o < 80 := hlt
    replace hsp : base.x .sp = 0x11FB0 := hsp
    replace hcontext : base.x .context = 0x1000 := hcontext
    rw [hsp, hcontext, Mem.Outside, BitVec.toNat_sub, BitVec.toNat_add, BitVec.toNat_ofNat]
    have hsize : Record.size = 352 := rfl
    have hframe : (0x11FB0 : DWord).toNat = 0x11FB0 := rfl
    have hrecord : (0x1000 : DWord).toNat = 0x1000 := rfl
    omega
  obtain ⟨-, t, hback, -, hreturned⟩ :=
    hreturn base hpc ⟨rfl, rfl, rfl, fun _ _ => rfl⟩ hapart
  exact ⟨_, base, t, hf, rfl, rfl, rfl, hrun, hback, hreturned⟩

end Dynarec.Simulation
