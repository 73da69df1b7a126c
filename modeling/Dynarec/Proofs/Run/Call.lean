import Dynarec.Proofs.Run.Exit
import Dynarec.Proofs.Simulation.Record

/-! # Host calls of running code

A call of a routine of the host, with the routine left open but for what its calling convention
asks of it. At the call the record is complete and the arguments are in their places. Behind it
each guest register in use holds what the record holds, so that what the routine wrote wins. -/

namespace Dynarec.Host

/-- A routine that was called in `s` may come back in `t`: it preserves the registers that belong
to its caller, and the `area` bytes of its caller's frame. -/
structure Conforms (area : Nat) (s t : State) : Prop where
  x : ∀ q : Gpr, 19 ≤ q.index → q ≠ .lr → t.x q = s.x q
  frame : ∀ a, ¬Mem.Outside (s.x .sp) area a → t.mem a = s.mem a

theorem Gpr.index_ofNat {n : Nat} (h : n < 32) : (Gpr.ofNat n).index = n := by
  unfold Gpr.index Gpr.ofNat
  rw [BitVec.toNat_ofNat]
  omega

theorem Gpr.ne_of_index {x y : Gpr} (h : x.index ≠ y.index) : x ≠ y := fun he => h (congrArg index he)

end Dynarec.Host

namespace Dynarec.Emit

open Dynarec.Host Dynarec.Simulation

/-! ### The spill area -/

namespace SpillLayout

variable (l : SpillLayout)

theorem vregSlots_le : ∀ p ∈ l.vregSlots, p.2 + 16 ≤ l.vregs.size * 16 := by
  intro p hp
  obtain ⟨⟨v, i⟩, hi, rfl⟩ := List.mem_map.mp hp
  have hlt := (List.mem_zipIdx hi).2.1
  simp only [RegSet.vregs, List.length_map] at hlt
  unfold RegSet.size
  dsimp only
  omega

theorem gprSlots_le : ∀ p ∈ l.gprSlots, p.2 + 8 ≤ l.flagsOffset := by
  intro p hp
  obtain ⟨⟨x, i⟩, hi, rfl⟩ := List.mem_map.mp hp
  have hlt := (List.mem_zipIdx hi).2.1
  simp only [RegSet.gprs, List.length_map] at hlt
  unfold flagsOffset RegSet.size
  dsimp only
  omega

theorem fst_mem_vregs : ∀ p ∈ l.vregSlots, l.vregs.contains p.1.code = true := by
  intro p hp
  obtain ⟨⟨v, i⟩, hi, rfl⟩ := List.mem_map.mp hp
  have hmem : v ∈ l.vregs.vregs := List.fst_mem_of_mem_zipIdx hi
  exact RegSet.mem_vregs.mp hmem

theorem fst_mem_gprs : ∀ p ∈ l.gprSlots, l.gprs.contains p.1.code = true := by
  intro p hp
  obtain ⟨⟨x, i⟩, hi, rfl⟩ := List.mem_map.mp hp
  have hmem : x ∈ l.gprs.gprs := List.fst_mem_of_mem_zipIdx hi
  exact RegSet.mem_gprs.mp hmem

/-- Bytes that the layout takes up. -/
def used : Nat := l.flagsOffset + if l.flags then 8 else 0

variable {l}

/-- Spilling writes to the spill area only. -/
theorem spill_run {area : Nat} (harea : l.used ≤ area) (s : Host.State) :
    ∃ t, execAll l.spill s = some t ∧ (∀ q, q ≠ .scratch → t.x q = s.x q) ∧ t.v = s.v ∧
      t.flags = s.flags ∧ ∀ a, Mem.Outside (s.x .sp) area a → t.mem a = s.mem a := by
  have hbase : l.vregs.size * 16 ≤ l.flagsOffset := Nat.le_add_right _ _
  have hused : l.flagsOffset ≤ l.used := Nat.le_add_right _ _
  let m := s.mem.writeAll (n := 16) (s.x .sp) Prod.snd (fun p => (s.v p.1).setWidth 128) l.vregSlots
  let m' := m.writeAll (n := 8) (s.x .sp) Prod.snd (fun p => (s.reg p.1).setWidth 64) l.gprSlots
  have hv : execAll (l.vregSlots.map fun p => .strV .q p.1 .sp p.2) s =
      some ((s.withMem m).skip l.vregSlots.length) := execAll_strVs .q .sp l.vregSlots
  have hg : execAll (l.gprSlots.map fun p => .str .x p.1 .sp p.2)
      ((s.withMem m).skip l.vregSlots.length) =
        some ((s.withMem m').skip (l.vregSlots.length + l.gprSlots.length)) := by
    rw [execAll_strs .x .sp l.gprSlots, ← State.skip_skip]
    rfl
  have hkept : ∀ a, Mem.Outside (s.x .sp) area a → m' a = s.mem a := by
    intro a ha
    refine (Mem.writeAll_of_outside fun p hp => ?_).trans (Mem.writeAll_of_outside fun p hp => ?_)
    · have := l.gprSlots_le p hp
      exact ha.part (by omega)
    · have := l.vregSlots_le p hp
      exact ha.part (by omega)
  unfold spill
  rw [List.append_assoc, execAll_append hv, execAll_append hg]
  cases hf : l.flags with
  | false => exact ⟨_, rfl, fun _ _ => rfl, rfl, rfl, hkept⟩
  | true =>
    let t := (s.withMem m').skip (l.vregSlots.length + l.gprSlots.length)
    have hfirst : (Host.Instr.mrsFlags .scratch).exec t =
        some ((t.setLow .scratch s.flags.toWord).skip 1) := rfl
    have hsp : (t.setLow .scratch s.flags.toWord).x .sp = s.x .sp :=
      State.x_set_of_ne t .scratch .sp _ (by decide)
    have hmem : (t.setLow .scratch s.flags.toWord).mem = m' := State.mem_set t .scratch _
    have hlast : l.flagsOffset + 8 ≤ area := by
      have hused : l.used = l.flagsOffset + 8 := by
        unfold used
        rw [hf]
        rfl
      omega
    refine ⟨_, (execAll_cons hfirst).trans (execAll_singleton rfl), fun q hq => ?_, ?_, ?_,
      fun a ha => ?_⟩
    · exact State.x_set_of_ne t .scratch q (s.flags.toWord.setWidth 64) hq
    · exact State.v_set t .scratch (s.flags.toWord.setWidth 64)
    · exact State.flags_set t .scratch (s.flags.toWord.setWidth 64)
    · have hout : Mem.Outside ((t.setLow .scratch s.flags.toWord).x .sp +
          BitVec.ofNat 64 l.flagsOffset) 8 a := by
        rw [hsp]
        exact ha.part hlast
      exact (Mem.write_of_outside hout _).trans ((congrFun hmem a).trans (hkept a ha))

/-- Refilling changes the registers of the layout only, and the flags if they are in it. -/
theorem refill_run (hsp : l.gprs.contains Host.Gpr.sp.code = false) (s : Host.State) :
    ∃ t, execAll l.refill s = some t ∧ t.mem = s.mem ∧
      (∀ q, q ≠ .scratch → l.gprs.contains q.code = false → t.x q = s.x q) ∧
      (∀ v, l.vregs.contains v.code = false → t.v v = s.v v) ∧
      (l.flags = false → t.flags = s.flags) := by
  have hbase : Host.Gpr.sp ∉ l.gprSlots.map Prod.fst := by
    intro hmem
    obtain ⟨p, hp, hfst⟩ := List.mem_map.mp hmem
    have hin := l.fst_mem_gprs p hp
    rw [hfst, hsp] at hin
    cases hin
  let vs : List (Vreg × BitVec 128) := l.vregSlots.map fun p =>
    (p.1, (s.mem.read (s.x .sp + BitVec.ofNat 64 p.2) 16).setWidth 128)
  let s₁ := (s.setVAll vs).skip l.vregSlots.length
  obtain ⟨-, hx₁, hf₁, hm₁⟩ := State.setVAll_frame s vs
  have hv : execAll (l.vregSlots.map fun p => .ldrV .q p.1 .sp p.2) s = some s₁ :=
    execAll_ldrVs .q .sp l.vregSlots
  let ws : List (Host.Gpr × DWord) := l.gprSlots.map fun p =>
    (p.1, (s₁.mem.read (s₁.x .sp + BitVec.ofNat 64 p.2) 8).setWidth 64)
  let s₂ := s₁.setAll ws
  obtain ⟨-, hv₂, hf₂, hm₂⟩ := State.setAll_frame s₁ ws
  have hg : execAll (l.gprSlots.map fun p => .ldr .x p.1 .sp p.2) s₁ =
      some (s₂.skip l.gprSlots.length) := execAll_ldrs .x hbase
  have hmem : s₂.mem = s.mem := hm₂.trans hm₁
  have hflags : s₂.flags = s.flags := hf₂.trans hf₁
  have hx : ∀ q, l.gprs.contains q.code = false → s₂.x q = s.x q := by
    intro q hq
    refine (State.x_setAll_of_not_mem fun hin => ?_).trans (congrFun hx₁ q)
    obtain ⟨w, hw, rfl⟩ := List.mem_map.mp hin
    obtain ⟨p, hp, rfl⟩ := List.mem_map.mp hw
    have hin := l.fst_mem_gprs p hp
    rw [hq] at hin
    cases hin
  have hvs : ∀ v, l.vregs.contains v.code = false → s₂.v v = s.v v := by
    intro v hq
    refine (congrFun hv₂ v).trans (State.v_setVAll_of_not_mem fun hin => ?_)
    obtain ⟨w, hw, rfl⟩ := List.mem_map.mp hin
    obtain ⟨p, hp, rfl⟩ := List.mem_map.mp hw
    have hin := l.fst_mem_vregs p hp
    rw [hq] at hin
    cases hin
  unfold refill
  rw [List.append_assoc, execAll_append hv, execAll_append hg]
  cases hf : l.flags with
  | false => exact ⟨_, rfl, hmem, fun q _ => hx q, hvs, fun _ => hflags⟩
  | true =>
    let t := s₂.skip l.gprSlots.length
    let w : DWord := (t.mem.read (t.x .sp + BitVec.ofNat 64 l.flagsOffset) 8).setWidth 64
    have hfirst : (Host.Instr.ldr .x .scratch .sp l.flagsOffset).exec t =
        some ((t.set .scratch w).skip 1) := rfl
    refine ⟨_, (execAll_cons hfirst).trans (execAll_singleton rfl), ?_, fun q hq hc => ?_,
      fun v hc => ?_, nofun⟩
    · exact (State.mem_set t .scratch w).trans hmem
    · exact (State.x_set_of_ne t .scratch q w hq).trans (hx q hc)
    · exact (congrFun (State.v_set t .scratch w) v).trans (hvs v hc)

variable (u : RegisterUse) (shape : Shape)

theorem used_compute_le : (compute u shape).used ≤ (compute u shape).bytes := by
  have hmax : (compute u shape).used ≤
      max (compute u shape).used (if shape.hasHostCallSkipContext then skipBytes else 0) :=
    Nat.le_max_left _ _
  have hround : ∀ n, n ≤ roundUp n := by
    intro n
    unfold roundUp
    omega
  exact Nat.le_trans hmax (hround _)

theorem skipBytes_le (h : shape.hasHostCallSkipContext = true) :
    skipBytes ≤ (compute u shape).bytes := by
  have hmax : skipBytes ≤ max (compute u shape).used
      (if shape.hasHostCallSkipContext then skipBytes else 0) := by
    rw [h]
    exact Nat.le_max_right _ _
  have hround : ∀ n, n ≤ roundUp n := by
    intro n
    unfold roundUp
    omega
  exact Nat.le_trans hmax (hround _)

variable {u shape}

/-- Only guest registers in use are spilled. -/
theorem holds_of_spilled {q : Host.Gpr} (h : (compute u shape).gprs.contains q.code = true) :
    ∃ r : Guest.Gpr, r.isPc = false ∧ u.Holds r ∧ q = pinned r := by
  have hcontext : u.contextGprs.contains q.code = true := by
    have hgprs : (compute u shape).gprs = if shape.hasHostCall then u.callClobberedGprs else .empty :=
      rfl
    rw [hgprs] at h
    split at h
    · rw [RegisterUse.callClobberedGprs, RegSet.contains_diff, Bool.and_eq_true] at h
      exact h.1
    · rw [RegSet.contains_empty] at h
      cases h
  rw [RegisterUse.contextGprs, RegSet.contains_inter, Bool.and_eq_true] at hcontext
  obtain ⟨r, hr⟩ := exists_guestOfGpr? hcontext.2
  obtain ⟨hpc, hq⟩ := guestOfGpr?_eq_some.mp hr
  obtain rfl : q = pinned r := hq
  exact ⟨r, hpc, hcontext.1, rfl⟩

theorem hasD_of_spilled {v : Vreg} (h : (compute u shape).vregs.contains v.code = true) :
    ∃ d, u.HasD d v := by
  have hcontext : u.contextVregs.contains v.code = true := by
    have hvregs : (compute u shape).vregs = if shape.hasHostCall then u.contextVregs else .empty := rfl
    rw [hvregs] at h
    split at h
    · exact h
    · rw [RegSet.contains_empty] at h
      cases h
  rw [RegisterUse.contextVregs, RegSet.contains_inter, Bool.and_eq_true] at hcontext
  obtain ⟨d, hd⟩ := exists_guestOfVreg? hcontext.2
  exact ⟨d, guestOfVreg?_eq_some.mp hd, hcontext.1⟩

end SpillLayout

section Stack

variable {shape : Shape} {u : RegisterUse} {tier : CallTier}

/-- What is kept on the stack before a call goes to the caller's frame. -/
theorem save_run {area : Nat} (hfull : (SpillLayout.compute u shape).used ≤ area)
    (hskip : tier = .skipContext → SpillLayout.skipBytes ≤ area) (s : Host.State) :
    ∃ t, execAll (tier.save shape u) s = some t ∧ (∀ q, q ≠ .scratch → t.x q = s.x q) ∧
      t.v = s.v ∧ t.flags = s.flags ∧ (∀ a, Mem.Outside (s.x .sp) area a → t.mem a = s.mem a) ∧
      (tier = .skipContext → t.mem.dword (s.x .sp) = s.x .context ∧
        t.mem.dword (s.x .sp + 8) = s.x .pageTable) := by
  cases tier with
  | full =>
    obtain ⟨t, hexec, hx, hv, hf, hm⟩ := SpillLayout.spill_run hfull s
    exact ⟨t, hexec, hx, hv, hf, hm, nofun⟩
  | skipContext =>
    have harea : 16 ≤ area := hskip rfl
    have hzero : s.x .sp + BitVec.ofInt 64 0 = s.x .sp + BitVec.ofNat 64 0 := rfl
    have height : s.x .sp + BitVec.ofNat 64 0 + 8 = s.x .sp + BitVec.ofNat 64 8 := by
      rw [BitVec.add_zero]
      rfl
    have hbase : s.x .sp = s.x .sp + BitVec.ofNat 64 0 := (BitVec.add_zero _).symm
    let m := s.mem.write (n := 8) (s.x .sp + BitVec.ofNat 64 0) (s.x .context)
    let m' := m.write (n := 8) (s.x .sp + BitVec.ofNat 64 8) (s.x .pageTable)
    have hexec : (Host.Instr.stp .context .pageTable .sp 0).exec s = some ((s.withMem m').skip 1) := by
      show some (State.skip (State.store (State.store s (s.x .sp + BitVec.ofInt 64 0) 8 (s.x .context))
        (s.x .sp + BitVec.ofInt 64 0 + 8) 8 (s.x .pageTable)) 1) = _
      rw [hzero, height]
      rfl
    refine ⟨_, execAll_singleton hexec, fun _ _ => rfl, rfl, rfl, fun a ha => ?_, fun _ => ⟨?_, ?_⟩⟩
    · refine (Mem.write_of_outside (ha.part (by omega)) _).trans ?_
      exact Mem.write_of_outside (ha.part (by omega)) _
    · rw [hbase]
      refine (Mem.read_write_of_offsets (.inr (by decide)) (by decide) (by decide) _).trans ?_
      exact Mem.read_write_self (n := 8) s.mem _ _ (by decide)
    · exact Mem.read_write_self (n := 8) m _ _ (by decide)

variable (shape) in
/-- What is taken back from the stack is the registers that a call may destroy. -/
theorem restore_run {s : Host.State}
    (hs : tier = .skipContext → s.mem.dword (s.x .sp) = s.x .context ∧
      s.mem.dword (s.x .sp + 8) = s.x .pageTable) :
    ∃ t, execAll (tier.restore shape u) s = some t ∧ t.mem = s.mem ∧
      (∀ q, q ≠ .scratch → (∀ r : Guest.Gpr, r.isPc = false → u.Holds r → q ≠ pinned r) →
        t.x q = s.x q) ∧
      (∀ v, (∀ d, ¬u.HasD d v) → t.v v = s.v v) ∧ (u.usesFlags = false → t.flags = s.flags) := by
  cases tier with
  | full =>
    have hgpr : ∀ q, (∀ r : Guest.Gpr, r.isPc = false → u.Holds r → q ≠ pinned r) →
        (SpillLayout.compute u shape).gprs.contains q.code = false := by
      intro q hq
      refine eq_false_of_ne_true fun hin => ?_
      obtain ⟨r, hpc, hu, hr⟩ := SpillLayout.holds_of_spilled hin
      exact hq r hpc hu hr
    have hsp := hgpr .sp fun r hpc _ => ne_pinned hpc (by decide)
    obtain ⟨t, hexec, hm, hx, hv, hf⟩ := SpillLayout.refill_run hsp s
    refine ⟨t, hexec, hm, fun q hq hr => hx q hq (hgpr q hr), fun v hd => hv v ?_, fun hu => hf ?_⟩
    · refine eq_false_of_ne_true fun hin => ?_
      obtain ⟨d, hd'⟩ := SpillLayout.hasD_of_spilled hin
      exact hd d hd'
    · show (shape.hasHostCall && u.usesFlags) = false
      rw [hu, Bool.and_false]
  | skipContext =>
    obtain ⟨hcontext, hpage⟩ := hs rfl
    have hzero : s.x .sp + BitVec.ofInt 64 0 = s.x .sp := BitVec.add_zero _
    have hexec : (Host.Instr.ldp .context .pageTable .sp 0).exec s = some (s.skip 1) := by
      show some ((State.set (s.set .context (s.mem.dword (s.x .sp + BitVec.ofInt 64 0))) .pageTable
        (s.mem.dword (s.x .sp + BitVec.ofInt 64 0 + 8))).skip 1) = _
      rw [hzero, hcontext, hpage, State.set_self, State.set_self]
    exact ⟨_, execAll_singleton hexec, rfl, fun _ _ _ => rfl, fun _ _ => rfl, fun _ => rfl⟩

end Stack

/-! ### Arguments and callee -/

/-- What an argument is worth in a state. -/
def CallArg.value (s : Host.State) : CallArg → DWord
  | reg x => s.reg x
  | imm value => value

/-- The address that a call goes to. -/
def Callee.value (s : Host.State) : Callee → DWord
  | helper address => address
  | register x => s.reg x

/-- No source of an argument has been overwritten by those before it. -/
theorem le_source_of_placed {i : Nat} {args : List CallArg} (h : (placement i args).2 = none)
    (hi : i + args.length ≤ 32) : ∀ x, .reg x ∈ args → i ≤ x.index := by
  induction args generalizing i with
  | nil => exact fun x hx => absurd hx List.not_mem_nil
  | cons a args ih =>
    rw [List.length_cons] at hi
    intro x hx
    have hrest : (placement (i + 1) args).2 = none → .reg x ∈ args → i ≤ x.index := by
      intro hn hin
      have := ih hn (by omega) x hin
      omega
    cases a with
    | imm value => exact hrest h ((List.mem_cons.mp hx).resolve_left nofun)
    | reg source =>
      simp only [placement] at h
      by_cases hs : source = .ofNat i
      · rw [if_pos hs] at h
        rcases List.mem_cons.mp hx with heq | hin
        · cases heq
          exact Nat.le_of_eq (by rw [hs, Gpr.index_ofNat (by omega)])
        · exact hrest h hin
      · rw [if_neg hs] at h
        by_cases hlt : source.index < i
        · rw [if_pos hlt] at h
          cases h
        · rw [if_neg hlt] at h
          rcases List.mem_cons.mp hx with heq | hin
          · cases heq
            exact Nat.not_lt.mp hlt
          · exact hrest h hin

theorem placement_run {i : Nat} {args : List CallArg} (h : (placement i args).2 = none)
    (hi : i + args.length ≤ 31) (s : Host.State) :
    ∃ t, execAll (placement i args).1 s = some t ∧ t.v = s.v ∧ t.flags = s.flags ∧ t.mem = s.mem ∧
      (∀ q : Host.Gpr, q.index < i ∨ i + args.length ≤ q.index → t.x q = s.x q) ∧
      ∀ j a, args[j]? = some a → t.x (.ofNat (i + j)) = a.value s := by
  induction args generalizing i s with
  | nil => exact ⟨s, rfl, rfl, rfl, rfl, fun _ _ => rfl, fun j a hj => nomatch hj⟩
  | cons b args ih =>
    rw [List.length_cons] at hi
    have hindex : (Host.Gpr.ofNat i).index = i := Gpr.index_ofNat (by omega)
    have hzr : Host.Gpr.ofNat i ≠ .zr := by
      refine Gpr.ne_of_index ?_
      rw [hindex, show Host.Gpr.zr.index = 31 from rfl]
      omega
    -- What is left to do once the first argument is in its place.
    have hrest : ∀ s' : Host.State, (placement (i + 1) args).2 = none → s'.v = s.v →
        s'.flags = s.flags → s'.mem = s.mem → (∀ q, q ≠ .ofNat i → s'.x q = s.x q) →
        s'.x (.ofNat i) = b.value s →
        ∃ t, execAll (placement (i + 1) args).1 s' = some t ∧ t.v = s.v ∧ t.flags = s.flags ∧
          t.mem = s.mem ∧
          (∀ q : Host.Gpr, q.index < i ∨ i + (args.length + 1) ≤ q.index → t.x q = s.x q) ∧
          ∀ j a, (b :: args)[j]? = some a → t.x (.ofNat (i + j)) = a.value s := by
      intro s' hn hv hf hm hx hb
      obtain ⟨t, hexec, hv', hf', hm', hx', hargs⟩ := ih hn (by omega) s'
      refine ⟨t, hexec, hv'.trans hv, hf'.trans hf, hm'.trans hm, fun q hq => ?_, fun j a hj => ?_⟩
      · rw [hx' q (by omega)]
        exact hx q (Gpr.ne_of_index (by rw [hindex]; omega))
      · cases j with
        | zero =>
          cases hj
          rw [Nat.add_zero, hx' _ (by rw [hindex]; omega), hb]
        | succ j =>
          have hplace : i + (j + 1) = i + 1 + j := by omega
          rw [hplace, hargs j a hj]
          cases a with
          | imm value => rfl
          | reg x =>
            have hle := le_source_of_placed hn (by omega) x (List.mem_of_getElem? hj)
            have hne : x ≠ .ofNat i := Gpr.ne_of_index (by rw [hindex]; omega)
            show s'.reg x = s.reg x
            rw [State.reg, State.reg, hx x hne]
    cases b with
    | imm value =>
      obtain ⟨t, hexec, ht⟩ := hrest
        ((s.set (.ofNat i) value).skip (loadDWord (.ofNat i) value).length) h (State.v_set ..) (State.flags_set ..) (State.mem_set ..)
        (fun q hq => State.x_set_of_ne s (.ofNat i) q value hq) (State.x_set_self s _ value hzr)
      exact ⟨t, (execAll_append (execAll_loadDWord _ _ s)).trans hexec, ht⟩
    | reg source =>
      simp only [placement] at h ⊢
      by_cases hs : source = .ofNat i
      · rw [if_pos hs] at h ⊢
        refine hrest s h rfl rfl rfl (fun _ _ => rfl) ?_
        show s.x (.ofNat i) = s.reg source
        rw [State.reg, hs, if_neg hzr]
      · rw [if_neg hs] at h ⊢
        by_cases hlt : source.index < i
        · rw [if_pos hlt] at h
          cases h
        · rw [if_neg hlt] at h ⊢
          have hmove : (Host.Instr.mov .x (.ofNat i) source).exec s =
              some ((s.set (.ofNat i) (s.reg source)).skip 1) := by
            rw [exec_mov, State.setLow, State.low, BitVec.setWidth_setWidth_of_le _ (by decide),
              BitVec.setWidth_eq]
          obtain ⟨t, hexec, ht⟩ := hrest ((s.set (.ofNat i) (s.reg source)).skip 1)
            h (State.v_set ..) (State.flags_set ..) (State.mem_set ..)
            (fun q hq => State.x_set_of_ne s (.ofNat i) q _ hq) (State.x_set_self s _ _ hzr)
          exact ⟨t, (execAll_cons hmove).trans hexec, ht⟩

/-! ### Up to the call -/

/-- From `s` to `t` a call has been prepared: the record is complete, arguments and callee are in
their registers, and only the record and the caller's frame have been written to. -/
structure AtCall (u : RegisterUse) (area : Nat) (tier : CallTier) (callee : Callee)
    (args : List CallArg) (s t : Host.State) : Prop where
  gprs : ∀ r : Guest.Gpr, r.isPc = false → u.Holds r →
    t.mem.word (s.x .context + BitVec.ofNat 64 (Record.gpr r)) = (s.x (pinned r)).setWidth 32
  dregs : ∀ d v, u.HasD d v →
    t.mem.dword (s.x .context + BitVec.ofNat 64 (Record.dreg d)) = (s.v v).setWidth 64
  nzcv : u.usesFlags = true →
    t.mem.word (s.x .context + BitVec.ofNat 64 Record.nzcv) = s.flags.toWord
  kept : ∀ a, ¬u.Owns (s.x .context) a → Mem.Outside (s.x .sp) area a → t.mem a = s.mem a
  args : ∀ i a, args[i]? = some a → t.x (.ofNat i) = a.value s
  callee : t.reg callee.load.1 = callee.value s
  x : ∀ q : Host.Gpr, 8 ≤ q.index → q ≠ .scratch → t.x q = s.x q
  saved : tier = .skipContext → t.mem.dword (s.x .sp) = s.x .context ∧
    t.mem.dword (s.x .sp + 8) = s.x .pageTable

section Call

variable {shape : Shape} {u : RegisterUse} {tier : CallTier} {callee : Callee} {args : List CallArg}
  {area : Nat} {s : Host.State}

/-- What stands in the record is no part of the caller's frame. -/
theorem read_record_of_outside {m m' : Mem} {record sp : DWord}
    (hapart : ∀ a, ¬Mem.Outside record Record.size a → Mem.Outside sp area a)
    (h : ∀ a, Mem.Outside sp area a → m' a = m a) {o n : Nat} (ho : o + n ≤ Record.size) :
    m'.read (record + BitVec.ofNat 64 o) n = m.read (record + BitVec.ofNat 64 o) n := by
  have hsize : Record.size < dwordCount :=
    Nat.lt_of_lt_of_le (by decide : Record.size < 353) (by decide)
  refine Mem.read_congr fun j hj => h _ (hapart _ fun hout => ?_)
  unfold Mem.Outside at hout
  have hsum : record + BitVec.ofNat 64 o + BitVec.ofNat 64 j = record + BitVec.ofNat 64 (o + j) := by
    rw [BitVec.ofNat_add, BitVec.add_assoc]
  rw [hsum, Mem.add_sub_offset record (by omega)] at hout
  omega

theorem beforeCall_run (hfits : CallFits callee args) (hargs : .reg .scratch ∉ args)
    (hcallee : callee ≠ .register .scratch)
    (hfull : (SpillLayout.compute u shape).used ≤ area)
    (hskip : tier = .skipContext → SpillLayout.skipBytes ≤ area)
    (hapart : ∀ a, ¬Mem.Outside (s.x .context) Record.size a → Mem.Outside (s.x .sp) area a) :
    ∃ t, execAll (beforeCallOps shape u tier callee args) s = some t ∧
      AtCall u area tier callee args s t := by
  obtain ⟨s₁, hexec₁, h₁⟩ := storeToRecord_run u (rfl : s.x .context = s.x .context)
  have hsp : s₁.x .sp = s.x .sp := h₁.x .sp (by decide)
  obtain ⟨s₂, hexec₂, hx₂, hv₂, hf₂, hm₂, hsaved₂⟩ := save_run hfull hskip s₁
  have hcount : args.length ≤ 7 := hfits.count
  obtain ⟨s₃, hexec₃, hv₃, hf₃, hm₃, hx₃, hargs₃⟩ :=
    placement_run hfits.placed (by omega) s₂
  rw [hsp] at hm₂ hsaved₂
  have hx₂' : ∀ q, q ≠ .scratch → s₂.x q = s.x q := fun q hq => (hx₂ q hq).trans (h₁.x q hq)
  have hreg₂ : ∀ q, q ≠ .scratch → s₂.reg q = s.reg q := by
    intro q hq
    rw [State.reg, State.reg, hx₂' q hq]
  have hmem₃ : ∀ o n, o + n ≤ Record.size → s₃.mem.read (s.x .context + BitVec.ofNat 64 o) n =
      s₁.mem.read (s.x .context + BitVec.ofNat 64 o) n := by
    intro o n ho
    rw [hm₃]
    exact read_record_of_outside hapart hm₂ ho
  -- The last instructions load a helper's address, or nothing.
  have hload : ∃ t, execAll callee.load.2 s₃ = some t ∧ t.mem = s₃.mem ∧
      (∀ q, q ≠ .callTarget → t.x q = s₃.x q) ∧ t.reg callee.load.1 = callee.value s := by
    cases callee with
    | helper address =>
      refine ⟨_, execAll_loadDWord .callTarget address s₃, State.mem_set .., fun q hq => ?_, ?_⟩
      · exact State.x_set_of_ne s₃ .callTarget q address hq
      · exact State.reg_set_self s₃ .callTarget address (by decide)
    | register x =>
      refine ⟨s₃, rfl, rfl, fun _ _ => rfl, ?_⟩
      have hle := hfits.callee x rfl
      have hne : x ≠ .scratch := fun hx => hcallee (congrArg Callee.register hx)
      show s₃.reg x = s.reg x
      rw [State.reg, State.reg, hx₃ x (.inr (by omega)), hx₂' x hne]
  obtain ⟨t, hexec₄, hm₄, hx₄, hcallee₄⟩ := hload
  refine ⟨t, ?_, fun r hpc hu => ?_, fun d v hd => ?_, fun hu => ?_, fun a ha hout => ?_,
    fun i a hi => ?_, hcallee₄, fun q hq hne => ?_, fun htier => ?_⟩
  · unfold beforeCallOps
    rw [List.append_assoc, List.append_assoc, execAll_append hexec₁, execAll_append hexec₂,
      execAll_append hexec₃, hexec₄]
  · rw [hm₄]
    refine (hmem₃ _ 4 ?_).trans (h₁.gprs r hpc hu)
    exact Nat.le_trans (Record.gpr_le r) (Nat.le_of_ble_eq_true rfl)
  · rw [hm₄]
    refine (hmem₃ _ 8 ?_).trans (h₁.dregs d v hd)
    exact Nat.le_trans (Record.dreg_bounds d).2 (Nat.le_of_ble_eq_true rfl)
  · rw [hm₄]
    exact (hmem₃ _ 4 (Nat.le_of_ble_eq_true rfl)).trans (h₁.nzcv hu)
  · rw [hm₄, hm₃, hm₂ a hout, h₁.kept a ha]
  · have hlt := (List.getElem?_eq_some_iff.mp hi).1
    have hne : Host.Gpr.ofNat i ≠ .callTarget := by
      refine Gpr.ne_of_index ?_
      rw [Gpr.index_ofNat (by omega), show Host.Gpr.callTarget.index = 7 from rfl]
      omega
    have hplace := hargs₃ i a hi
    rw [Nat.zero_add] at hplace
    rw [hx₄ _ hne, hplace]
    cases a with
    | imm value => rfl
    | reg x => exact hreg₂ x fun hx => hargs (hx ▸ List.mem_of_getElem? hi)
  · have hne' : q ≠ .callTarget := by
      refine Gpr.ne_of_index ?_
      rw [show Host.Gpr.callTarget.index = 7 from rfl]
      omega
    rw [hx₄ q hne', hx₃ q (.inr (by omega)), hx₂' q hne]
  · have hcontext : s₁.x .context = s.x .context := h₁.x .context (by decide)
    have hpage : s₁.x .pageTable = s.x .pageTable := h₁.x .pageTable (by decide)
    rw [hm₄, hm₃, ← hcontext, ← hpage]
    exact hsaved₂ htier

/-! ### Behind the call -/

variable (shape u) in
/-- Behind a call the registers in use are read from the record, and all else that the call
preserved is as before. -/
theorem behindCall_run
    (hs : tier = .skipContext → s.mem.dword (s.x .sp) = s.x .context ∧
      s.mem.dword (s.x .sp + 8) = s.x .pageTable) :
    ∃ t, execAll (tier.restore shape u ++ u.loadFromRecord) s = some t ∧
      Loaded u (s.x .context) s t := by
  obtain ⟨s₁, hexec₁, hm₁, hx₁, hv₁, hf₁⟩ := restore_run shape hs
  have hcontext : s₁.x .context = s.x .context :=
    hx₁ .context (by decide) fun r hpc _ => ne_pinned hpc (by decide)
  obtain ⟨t, hexec, h⟩ := loadFromRecord_run u hcontext
  have hmem : t.mem = s.mem := h.mem.trans hm₁
  refine ⟨t, (execAll_append hexec₁).trans hexec, hmem, fun r hpc hu => ?_, fun q hq hr => ?_,
    fun d v hd => ?_, fun v hd => ?_, ?_⟩
  · rw [← hm₁]
    exact h.gprs r hpc hu
  · rw [h.x q hq hr, hx₁ q hq hr]
  · rw [← hm₁]
    exact h.dregs d v hd
  · rw [h.v v hd, hv₁ v hd]
  · rw [h.flags, hm₁]
    cases hu : u.usesFlags with
    | true => rfl
    | false => exact hf₁ hu

end Call

/-! ### The answer -/

/-- What is done with the answer of a routine while it is in the first register. -/
inductive Answer where
  /-- It is written as the address where the guest goes on. -/
  | next
  /-- It is kept in the dispatch register. -/
  | keep
  /-- Its halves are written to the places of two guest registers. -/
  | split (lo hi : Guest.Gpr)
  deriving DecidableEq

namespace Answer

def ops : Answer → List Host.Instr
  | next => [.str .w (.ofNat 0) .context Record.dispatchAddress]
  | keep => [.mov .x .dispatch (.ofNat 0)]
  | split lo hi => [
    .str .w (.ofNat 0) .context (Record.gpr lo),
    .lsrX .scratch (.ofNat 0) 32,
    .str .w .scratch .context (Record.gpr hi)]

/-- The memory with an answer written to the record. -/
def write (record v : DWord) (m : Mem) : Answer → Mem
  | next => m.write (n := 4) (record + BitVec.ofNat 64 Record.dispatchAddress) (v.setWidth 32)
  | keep => m
  | split lo hi =>
    (m.write (n := 4) (record + BitVec.ofNat 64 (Record.gpr lo)) (v.setWidth 32)).write (n := 4)
      (record + BitVec.ofNat 64 (Record.gpr hi)) ((v >>> 32).setWidth 32)

theorem straight_ops (answer : Answer) : Straight answer.ops := by
  cases answer with
  | next => rfl
  | keep => rfl
  | split lo hi =>
    refine straight_cons.mpr ⟨isStraight_iff.mpr ⟨offsetFits_gpr lo, rfl, rfl⟩, ?_⟩
    refine straight_cons.mpr ⟨rfl, ?_⟩
    exact straight_cons.mpr ⟨isStraight_iff.mpr ⟨offsetFits_gpr hi, rfl, rfl⟩, straight_nil⟩

theorem encodable_ops (answer : Answer) : Encodable answer.ops := by
  cases answer with
  | next => rfl
  | keep => rfl
  | split lo hi =>
    exact encodable_cons.mpr ⟨offsetFits_gpr lo, encodable_cons.mpr ⟨rfl,
      encodable_cons.mpr ⟨offsetFits_gpr hi, encodable_nil⟩⟩⟩

/-- An answer is written to the record only. -/
theorem write_of_outside {record a : DWord} (h : Mem.Outside record Record.size a) (v : DWord)
    (m : Mem) (answer : Answer) : answer.write record v m a = m a := by
  have hgpr : ∀ r, Record.gpr r + 4 ≤ Record.size := fun r =>
    Nat.le_trans (Record.gpr_le r) (Nat.le_of_ble_eq_true rfl)
  cases answer with
  | next => exact Record.write_of_outside h (Nat.le_of_ble_eq_true rfl) _
  | keep => rfl
  | split lo hi =>
    exact (Record.write_of_outside h (hgpr hi) _).trans (Record.write_of_outside h (hgpr lo) _)

theorem run (answer : Answer) (s : Host.State) :
    ∃ t, execAll answer.ops s = some t ∧
      t.mem = answer.write (s.x .context) (s.x (.ofNat 0)) s.mem ∧ t.v = s.v ∧ t.flags = s.flags ∧
      (∀ q, q ≠ .scratch → q ≠ .dispatch → t.x q = s.x q) ∧
      (answer = .keep → t.x .dispatch = s.x (.ofNat 0)) := by
  cases answer with
  | next => exact ⟨_, execAll_singleton rfl, rfl, rfl, rfl, fun _ _ _ => rfl, nofun⟩
  | keep =>
    let v := s.low .x (.ofNat 0)
    have hmove : (Host.Instr.mov .x .dispatch (.ofNat 0)).exec s =
        some ((s.setLow .dispatch v).skip 1) :=
      exec_mov .x .dispatch (.ofNat 0) s
    refine ⟨_, execAll_singleton hmove, ?_, ?_, ?_, fun q _ hq => ?_, fun _ => ?_⟩
    · exact State.mem_set s .dispatch (v.setWidth 64)
    · exact State.v_set s .dispatch (v.setWidth 64)
    · exact State.flags_set s .dispatch (v.setWidth 64)
    · exact State.x_set_of_ne s .dispatch q (v.setWidth 64) hq
    · refine (State.x_set_self s .dispatch (v.setWidth 64) (by decide)).trans ?_
      show ((s.x (.ofNat 0)).setWidth 64).setWidth 64 = _
      rw [BitVec.setWidth_eq, BitVec.setWidth_eq]
  | split lo hi =>
    let s₁ := s.store (s.x .context + BitVec.ofNat 64 (Record.gpr lo)) 4
      ((s.x (.ofNat 0)).setWidth 32)
    have hfirst : (Host.Instr.str .w (.ofNat 0) .context (Record.gpr lo)).exec s =
        some (s₁.skip 1) := rfl
    let v : DWord := s.x (.ofNat 0) >>> 32
    let s₂ := s₁.set .scratch v
    have hshift : (Host.Instr.lsrX .scratch (.ofNat 0) 32).exec (s₁.skip 1) = some (s₂.skip 2) := by
      show some (State.skip (State.set (s₁.skip 1) .scratch
        (((s.x (.ofNat 0)).setWidth 64 >>> 32).setWidth 64)) 1) = _
      rw [BitVec.setWidth_eq, BitVec.setWidth_eq, State.set_skip, State.skip_skip]
    have hx : s₂.x .context = s.x .context := State.x_set_of_ne s₁ .scratch .context v (by decide)
    have hreg : s₂.reg .scratch = v := State.reg_set_self s₁ .scratch v (by decide)
    have hmem : s₂.mem = s₁.mem := State.mem_set s₁ .scratch v
    have hlast : (Host.Instr.str .w .scratch .context (Record.gpr hi)).exec (s₂.skip 2) =
        some ((s₂.store (s.x .context + BitVec.ofNat 64 (Record.gpr hi)) 4
          (v.setWidth 32)).skip 3) := by
      show some (State.skip (State.store (s₂.skip 2)
        (s₂.x .context + BitVec.ofNat 64 (Record.gpr hi)) 4 ((s₂.reg .scratch).setWidth 32)) 1) = _
      rw [hx, hreg]
      rfl
    refine ⟨_, (execAll_cons hfirst).trans ((execAll_cons hshift).trans (execAll_singleton hlast)), ?_,
      ?_, ?_, fun q hq _ => ?_, nofun⟩
    · show s₂.mem.write _ 4 _ = _
      rw [hmem]
      rfl
    · exact State.v_set s₁ .scratch v
    · exact State.flags_set s₁ .scratch v
    · exact State.x_set_of_ne s₁ .scratch q v hq

end Answer

/-- From `s`, right behind a call, to `t` the answer has been taken, and the guest registers in use
hold what the record holds then. -/
structure Returned (u : RegisterUse) (answer : Answer) (s t : Host.State) : Prop where
  mem : t.mem = answer.write (s.x .context) (s.x (.ofNat 0)) s.mem
  gprs : ∀ r : Guest.Gpr, r.isPc = false → u.Holds r →
    t.x (pinned r) = (t.mem.word (s.x .context + BitVec.ofNat 64 (Record.gpr r))).setWidth 64
  dregs : ∀ d v, u.HasD d v →
    t.v v = (t.mem.dword (s.x .context + BitVec.ofNat 64 (Record.dreg d))).setWidth 128
  flags : t.flags = if u.usesFlags then
    .ofWord (t.mem.word (s.x .context + BitVec.ofNat 64 Record.nzcv)) else s.flags
  x : ∀ q, q ≠ .scratch → q ≠ .dispatch →
    (∀ r : Guest.Gpr, r.isPc = false → u.Holds r → q ≠ pinned r) → t.x q = s.x q
  v : ∀ v, (∀ d, ¬u.HasD d v) → t.v v = s.v v
  kept : answer = .keep → t.x .dispatch = s.x (.ofNat 0)

theorem returned_run (shape : Shape) (u : RegisterUse) {tier : CallTier} (answer : Answer)
    {s : Host.State}
    (hs : tier = .skipContext →
      (answer.write (s.x .context) (s.x (.ofNat 0)) s.mem).dword (s.x .sp) = s.x .context ∧
      (answer.write (s.x .context) (s.x (.ofNat 0)) s.mem).dword (s.x .sp + 8) = s.x .pageTable) :
    ∃ t, execAll (answer.ops ++ (tier.restore shape u ++ u.loadFromRecord)) s = some t ∧
      Returned u answer s t := by
  obtain ⟨s₁, hexec₁, hm₁, hv₁, hf₁, hx₁, hk₁⟩ := answer.run s
  have hcontext : s₁.x .context = s.x .context := hx₁ .context (by decide) (by decide)
  have hsaved : tier = .skipContext → s₁.mem.dword (s₁.x .sp) = s₁.x .context ∧
      s₁.mem.dword (s₁.x .sp + 8) = s₁.x .pageTable := by
    rw [hm₁, hcontext, hx₁ .sp (by decide) (by decide), hx₁ .pageTable (by decide) (by decide)]
    exact hs
  obtain ⟨t, hexec, h⟩ := behindCall_run shape u hsaved
  rw [hcontext] at h
  refine ⟨t, (execAll_append hexec₁).trans hexec, h.mem.trans hm₁, fun r hpc hu => ?_,
    fun d v hd => ?_, ?_, fun q hq hq' hr => ?_, fun v hd => ?_, fun hk => ?_⟩
  · rw [h.mem]
    exact h.gprs r hpc hu
  · rw [h.mem]
    exact h.dregs d v hd
  · rw [h.flags, h.mem, hf₁]
  · rw [h.x q hq hr, hx₁ q hq hq']
  · rw [h.v v hd, hv₁]
  · have hapart : ∀ r : Guest.Gpr, r.isPc = false → u.Holds r → .dispatch ≠ pinned r :=
      fun r hpc _ => (ne_of_isSpare (x := .dispatch) rfl (isSpare_pinned hpc)).symm
    rw [h.x .dispatch (by decide) hapart, hk₁ hk]

section Round

variable {shape : Shape} {u : RegisterUse} {tier : CallTier} {callee : Callee} {args : List CallArg}
  {area : Nat} {s : Host.State}

/-- What a call has kept in the caller's frame is there when the answer has been written. -/
theorem saved_of_conforms {s₁ s₂ : Host.State} (h₁ : AtCall u area tier callee args s s₁)
    (h₂ : Conforms area s₁ s₂) (hskip : tier = .skipContext → SpillLayout.skipBytes ≤ area)
    (hapart : ∀ a, ¬Mem.Outside (s.x .context) Record.size a → Mem.Outside (s.x .sp) area a)
    (v : DWord) (answer : Answer) : tier = .skipContext →
      (answer.write (s₂.x .context) v s₂.mem).dword (s₂.x .sp) = s₂.x .context ∧
      (answer.write (s₂.x .context) v s₂.mem).dword (s₂.x .sp + 8) = s₂.x .pageTable := by
  intro htier
  have harea : 16 ≤ area := hskip htier
  have hx : ∀ q : Host.Gpr, 19 ≤ q.index → q ≠ .lr → s₂.x q = s.x q := by
    intro q hq hlr
    rw [h₂.x q hq hlr, h₁.x q (by omega) (Gpr.ne_of_index (by
      rw [show Host.Gpr.scratch.index = 17 from rfl]; omega))]
  have hsp₁ : s₁.x .sp = s.x .sp := h₁.x .sp (by decide) (by decide)
  have hbyte : ∀ j < 16, (answer.write (s.x .context) v s₂.mem) (s.x .sp + BitVec.ofNat 64 j) =
      s₁.mem (s.x .sp + BitVec.ofNat 64 j) := by
    intro j hj
    have hin : ¬Mem.Outside (s.x .sp) area (s.x .sp + BitVec.ofNat 64 j) := by
      unfold Mem.Outside
      rw [Mem.add_sub_offset _ (Nat.lt_of_lt_of_le hj (by decide))]
      omega
    have hout : Mem.Outside (s.x .context) Record.size (s.x .sp + BitVec.ofNat 64 j) :=
      Classical.not_not.mp fun hn => hin (hapart _ hn)
    rw [Answer.write_of_outside hout, h₂.frame _ (by rw [hsp₁]; exact hin)]
  obtain ⟨hcontext, hpage⟩ := h₁.saved htier
  rw [hx .sp (by decide) (by decide), hx .context (by decide) (by decide),
    hx .pageTable (by decide) (by decide)]
  refine ⟨Eq.trans (Mem.read_congr fun j hj => hbyte j (by omega)) hcontext, ?_⟩
  refine Eq.trans (Mem.read_congr fun j hj => ?_) hpage
  have hsum : s.x .sp + 8 + BitVec.ofNat 64 j = s.x .sp + BitVec.ofNat 64 (8 + j) := by
    rw [BitVec.ofNat_add, ← BitVec.add_assoc]
    rfl
  rw [hsum]
  exact hbyte (8 + j) (by omega)

/-- A call from its first instruction to its last, with the routine in between. -/
theorem call_leads {fetch : Nat → Option Host.Instr} {k : Nat} {answer : Answer}
    (hat : Found fetch k (hostCallOps shape u tier callee args answer.ops)) (hs : s.pc = k)
    (hfits : CallFits callee args) (hargs : .reg .scratch ∉ args)
    (hcallee : callee ≠ .register .scratch)
    (hfull : (SpillLayout.compute u shape).used ≤ area)
    (hskip : tier = .skipContext → SpillLayout.skipBytes ≤ area)
    (hapart : ∀ a, ¬Mem.Outside (s.x .context) Record.size a → Mem.Outside (s.x .sp) area a) :
    ∃ s₁, Leads fetch s s₁ ∧ fetch s₁.pc = some (.blr callee.load.1) ∧
      AtCall u area tier callee args s s₁ ∧
      ∀ s₂, Conforms area s₁ s₂ → s₂.pc = s₁.pc + 1 →
        ∃ s₃, Leads fetch s₂ s₃ ∧
          s₃.pc = k + (hostCallOps shape u tier callee args answer.ops).length ∧
          Returned u answer s₂ s₃ := by
  subst hs
  obtain ⟨s₁, hexec, h₁⟩ := beforeCall_run hfits hargs hcallee hfull hskip hapart
  have hsplit : hostCallOps shape u tier callee args answer.ops =
      beforeCallOps shape u tier callee args ++ ([.blr callee.load.1] ++
        (answer.ops ++ (tier.restore shape u ++ u.loadFromRecord))) := by
    simp only [hostCallOps, List.append_assoc, List.cons_append, List.nil_append]
  rw [hsplit] at hat ⊢
  obtain ⟨hbefore, hrest⟩ := Compile.allFrom_append.mp hat
  obtain ⟨hcall, hbehind⟩ := Compile.allFrom_append.mp hrest
  obtain ⟨hrun, hpc⟩ := leads_of_execAll hbefore (straight_beforeCallOps ..) hexec
  refine ⟨s₁, hrun, hpc ▸ Compile.allFrom_singleton.mp hcall, h₁, fun s₂ h₂ hpc₂ => ?_⟩
  obtain ⟨s₃, hexec₃, h₃⟩ := returned_run shape u answer
    (saved_of_conforms h₁ h₂ hskip hapart _ answer)
  have hstart : s₂.pc = s.pc + (beforeCallOps shape u tier callee args).length +
      [Host.Instr.blr callee.load.1].length := by
    rw [hpc₂, hpc]
    rfl
  rw [← hstart] at hbehind
  obtain ⟨hrun₃, hpc₃⟩ := leads_of_execAll hbehind
    ((answer.straight_ops).append ((straight_restore shape u tier).append (straight_loadFromRecord u)))
    hexec₃
  refine ⟨s₃, hrun₃, ?_, h₃⟩
  rw [hpc₃, hstart]
  simp only [List.length_append, Nat.add_assoc]

end Round

/-! ### The sequence of a call -/

/-- The record at an address holds the same for all registers that are not in use. -/
structure SlotsKept (u : RegisterUse) (record : DWord) (m m' : Mem) : Prop where
  gprs : ∀ r : Guest.Gpr, r.isPc = true ∨ ¬u.Holds r →
    m'.word (record + BitVec.ofNat 64 (Record.gpr r)) =
      m.word (record + BitVec.ofNat 64 (Record.gpr r))
  dregs : ∀ d, (∀ v, ¬u.HasD d v) →
    m'.dword (record + BitVec.ofNat 64 (Record.dreg d)) =
      m.dword (record + BitVec.ofNat 64 (Record.dreg d))
  nzcv : u.usesFlags = false →
    m'.word (record + BitVec.ofNat 64 Record.nzcv) = m.word (record + BitVec.ofNat 64 Record.nzcv)

section Kept

variable {u : RegisterUse} {area : Nat} {tier : CallTier} {callee : Callee} {args : List CallArg}
  {s t : Host.State} (h : AtCall u area tier callee args s t)
  (hapart : ∀ a, ¬Mem.Outside (s.x .context) Record.size a → Mem.Outside (s.x .sp) area a)

include h hapart

/-- What belongs to no register in use is the same in the record. -/
theorem AtCall.read_eq {o n : Nat} (ho : o + n ≤ Record.size)
    (hn : ∀ j < n, ¬u.Owns (s.x .context) (s.x .context + BitVec.ofNat 64 o + BitVec.ofNat 64 j)) :
    t.mem.read (s.x .context + BitVec.ofNat 64 o) n =
      s.mem.read (s.x .context + BitVec.ofNat 64 o) n := by
  have hsize : Record.size < dwordCount :=
    Nat.lt_of_lt_of_le (by decide : Record.size < 353) (by decide)
  refine Mem.read_congr fun j hj => h.kept _ (hn j hj) (hapart _ fun hout => ?_)
  have hsum : s.x .context + BitVec.ofNat 64 o + BitVec.ofNat 64 j =
      s.x .context + BitVec.ofNat 64 (o + j) := by
    rw [BitVec.ofNat_add, BitVec.add_assoc]
  unfold Mem.Outside at hout
  rw [hsum, Mem.add_sub_offset _ (by omega)] at hout
  omega

theorem AtCall.slotsKept : SlotsKept u (s.x .context) s.mem t.mem := by
  refine ⟨fun r hr => h.read_eq hapart ?_ (RegisterUse.not_owns_gpr hr),
    fun d hd => h.read_eq hapart ?_ (RegisterUse.not_owns_dreg hd),
    fun hu => h.read_eq hapart (Nat.le_of_ble_eq_true rfl) ?_⟩
  · exact Nat.le_trans (Record.gpr_le r) (Nat.le_of_ble_eq_true rfl)
  · exact Nat.le_trans (Record.dreg_bounds d).2 (Nat.le_of_ble_eq_true rfl)
  · refine RegisterUse.not_owns_status (Nat.le_refl _) (fun hu' => ?_) (Nat.le_of_ble_eq_true rfl)
    rw [hu] at hu'
    cases hu'

end Kept

/-- Finished instructions are found where they were appended. -/
theorem found_extend {s : Emission} {is : List Host.Instr} (xs : List Item)
    (hc : ∀ i ∈ is, i.isCanonical = true) :
    Found (instrAt? (s.extend (ops is ++ xs)).code) s.code.size is := by
  intro j i hj
  have hlt : j < (ops is).length := by
    rw [length_ops]
    exact (List.getElem?_eq_some_iff.mp hj).1
  have hword : (s.extend (ops is ++ xs)).code[s.code.size + j]? = some i.encode := by
    show (s.code ++ ((ops is ++ xs).map Item.word).toArray)[s.code.size + j]? = _
    rw [Array.getElem?_append_right (Nat.le_add_right _ _), Nat.add_sub_cancel_left,
      List.getElem?_toArray, List.getElem?_map, List.getElem?_append_left hlt, ops,
      List.getElem?_map, hj]
    rfl
  rw [instrAt?, hword]
  exact decode_encode (hc i (List.mem_of_getElem? hj))

theorem found_extend_ops {s : Emission} {is : List Host.Instr} (hc : ∀ i ∈ is, i.isCanonical = true) :
    Found (instrAt? (s.extend (ops is)).code) s.code.size is := by
  have hat := found_extend (s := s) [] hc
  rwa [List.append_nil] at hat

/-- A call that was emitted without an error, run from its first instruction with any routine that
keeps to the convention. -/
theorem hostCall_roundTrip {tier : CallTier} {callee : Callee} {args : List CallArg}
    {answer : Answer} {e : Setting} {s s' : Emission} {m : Host.State}
    (h : hostCall tier callee args (asm answer.ops) e s = .ok () s')
    (htier : tier = .skipContext → e.shape.hasHostCallSkipContext = true)
    (hargs : .reg .scratch ∉ args) (hcallee : callee ≠ .register .scratch)
    (hpc : m.pc = s.code.size)
    (hapart : ∀ a, ¬Mem.Outside (m.x .context) Record.size a →
      Mem.Outside (m.x .sp) (SpillLayout.compute s.regs e.shape).bytes a) :
    ∃ m₁, Leads (instrAt? s'.code) m m₁ ∧
      instrAt? s'.code m₁.pc = some (.blr callee.load.1) ∧
      AtCall s.regs (SpillLayout.compute s.regs e.shape).bytes tier callee args m m₁ ∧
      SlotsKept s.regs (m.x .context) m.mem m₁.mem ∧
      ∀ m₂, Conforms (SpillLayout.compute s.regs e.shape).bytes m₁ m₂ → m₂.pc = m₁.pc + 1 →
        ∃ m₃, Leads (instrAt? s'.code) m₂ m₃ ∧ m₃.pc = s'.code.size ∧
          Returned s.regs answer m₂ m₃ ∧
          ∀ q, 19 ≤ q.index → q ≠ .lr →
            (∀ r : Guest.Gpr, r.isPc = false → s.regs.Holds r → q ≠ pinned r) → m₃.x q = m.x q := by
  have hy := hostCall_yields (e := e) (s := s) tier callee args answer.encodable_ops
  have hfits := hy.of_ok () s' h
  obtain rfl : s.extend (ops (hostCallOps e.shape s.regs tier callee args answer.ops)) = s' :=
    (EStateM.Result.ok.inj ((hy.run hfits).symm.trans h)).2
  have hat := found_extend_ops (s := s) (canonical_of_straight
    (straight_hostCallOps e.shape s.regs tier callee args answer.straight_ops))
  obtain ⟨m₁, hrun, hblr, h₁, hback⟩ := call_leads hat hpc hfits hargs hcallee
    (SpillLayout.used_compute_le s.regs e.shape)
    (fun hskip => SpillLayout.skipBytes_le s.regs e.shape (htier hskip)) hapart
  refine ⟨m₁, hrun, hblr, h₁, h₁.slotsKept hapart, fun m₂ h₂ hpc₂ => ?_⟩
  obtain ⟨m₃, hrun₃, hpc₃, h₃⟩ := hback m₂ h₂ hpc₂
  refine ⟨m₃, hrun₃, ?_, h₃, fun q hq hlr hr => ?_⟩
  · rw [hpc₃, Emission.size_extend, length_ops]
  · have hne : ∀ y : Host.Gpr, y.index < 19 → q ≠ y := by
      intro y hy
      exact Gpr.ne_of_index (by omega)
    rw [h₃.x q (hne .scratch (by decide)) (hne .dispatch (by decide)) hr, h₂.x q hq hlr,
      h₁.x q (by omega) (hne .scratch (by decide))]

/-- A machine with a record and a stack apart from it. -/
def restingState : Host.State where
  pc := 0
  x q := if q = .context then 4096 else if q = .sp then 65536 else 0
  v _ := 0
  flags := ⟨false, false, false, false⟩
  mem _ := 0

/-- Some registers in use, among them one that a call destroys, and the flags. -/
def someInUse : RegisterUse :=
  { (RegisterUse.pin {} ⟨0⟩).pin ⟨9⟩ with usesFlags := true }

theorem restingState_apart {area : Nat} (h : area ≤ 4096) : ∀ a,
    ¬Mem.Outside (restingState.x .context) Record.size a →
      Mem.Outside (restingState.x .sp) area a := by
  intro a ha
  have hcontext : restingState.x .context = 4096#64 := rfl
  have hsp : restingState.x .sp = 65536#64 := rfl
  have hsize : Record.size = 352 := rfl
  unfold Mem.Outside at ha ⊢
  rw [hcontext, hsize] at ha
  rw [hsp]
  rw [BitVec.toNat_sub, BitVec.toNat_ofNat] at *
  omega

theorem hostCall_roundTrip_split :
    ∃ (s' : Emission) (m₁ m₃ : Host.State),
      hostCall .skipContext (.helper 8192) [.reg .context, .imm 5] (asm (Answer.split ⟨0⟩ ⟨9⟩).ops)
        { shape := ⟨true, true⟩ } { regs := someInUse } = .ok () s' ∧
      Leads (instrAt? s'.code) restingState m₁ ∧ m₁.x (.ofNat 1) = 5 ∧
      Leads (instrAt? s'.code) (m₁.skip 1) m₃ ∧ m₃.pc = s'.code.size := by
  have hrun := (hostCall_yields (e := { shape := ⟨true, true⟩ }) (s := { regs := someInUse })
    .skipContext (.helper 8192) [.reg .context, .imm 5] (Answer.split ⟨0⟩ ⟨9⟩).encodable_ops).run
    ⟨by decide, rfl, nofun⟩
  have hbytes : (SpillLayout.compute someInUse ⟨true, true⟩).bytes ≤ 4096 := by decide
  obtain ⟨m₁, hlead, -, h₁, -, hback⟩ := hostCall_roundTrip (m := restingState) hrun (fun _ => rfl)
    (by decide) nofun rfl (restingState_apart hbytes)
  obtain ⟨m₃, hlead₃, hpc₃, -, -⟩ := hback (m₁.skip 1) ⟨fun _ _ _ => rfl, fun _ _ => rfl⟩ rfl
  exact ⟨_, m₁, m₃, hrun, hlead, h₁.args 1 (.imm 5) rfl, hlead₃, hpc₃⟩

end Dynarec.Emit
