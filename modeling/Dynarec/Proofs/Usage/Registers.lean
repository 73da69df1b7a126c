import Dynarec.Proofs.Run.Frame
import Dynarec.Proofs.Usage.Marks
import Mathlib.Data.List.Infix

/-! # Masks of used registers

The masks that a unit ends with are complete. Whatever word touches guest state, the state is marked
as used: the prologue loads it, the trailer stores it, and every call of the host stores it before
and loads it behind. What a unit owes to its caller has a slot in its frame: the prologue stores it
there, and the trailer loads it from there. The other registers of the platform it leaves alone. -/

namespace Dynarec.Compile

open Dynarec.Emit Dynarec.Host Dynarec.Resolve Dynarec.Simulation

/-- Every word from `a` to before `b` hands control on to the next one. -/
def Through (c : Compiled) (a b : Nat) : Prop :=
  ∀ k, a ≤ k → k < b → ∃ i, instrAt? c.code k = some i ∧ i.isStraight = true

/-- A part of the guest state, with the instructions that store it to the record and load it from
there: the prologue loads it, the trailer stores it, and every call of the host comes between the
two. -/
structure Synced (c : Compiled) (store load : List Host.Instr) : Prop where
  prologue : ∃ k, Found (instrAt? c.code) k load ∧ k + load.length ≤ c.stats.prologueWords
  trailer : ∀ n, c.stats.trailer = some n → ∃ k, n ≤ k ∧ Found (instrAt? c.code) k store ∧
    Through c n (k + store.length)
  calls : ∀ k x, instrAt? c.code k = some (.blr x) → ∃ a b, a + store.length ≤ k ∧ k < b ∧
    Found (instrAt? c.code) a store ∧ Found (instrAt? c.code) b load ∧ Through c a (b + load.length)

/-- A part of the state that the caller is owed has the slot `o` bytes above the stack pointer of
the body: the prologue stores it there, and the trailer loads what the slot holds by then. -/
structure Preserved (c : Compiled) (frame : Frame) (value : Host.State → DWord) (o : Nat) :
    Prop where
  slot : frame.spillBytes ≤ o ∧ o + 8 ≤ 16 + frame.bytes
  prologue : ∀ s : Host.State, s.pc = 0 →
    ∃ base, Execs (instrAt? c.code) c.stats.prologueWords s base ∧
      base.x .sp = s.x .sp - BitVec.ofNat 64 (16 + frame.bytes) ∧
      base.mem.dword (base.x .sp + BitVec.ofNat 64 o) = value s
  trailer : ∀ n, c.stats.trailer = some n → ∀ s : Host.State, s.pc = n →
    (∀ a, OnFrame frame (s.x .sp) a → Mem.Outside (s.x .context) Record.size a) →
    ∃ t, Leads (instrAt? c.code) s t ∧ instrAt? c.code t.pc = some (.br .dispatch) ∧
      t.x .sp = s.x .sp + BitVec.ofNat 64 (16 + frame.bytes) ∧
      value t = s.mem.dword (s.x .sp + BitVec.ofNat 64 o)

/-- The masks `u` tell all that the words of a unit touch of the guest state. What the words change
of the caller's registers is in the lists of `frame`, and whatever is there has a slot. -/
structure Masked (t : Guest.Trace) (u : RegisterUse) (frame : Frame) (c : Compiled) : Prop where
  gprs : ∀ k i x, instrAt? c.code k = some i → x ∈ i.reads ++ i.writes →
    guestGprs.contains x.code = true → u.usedGprs.contains x.code = true ∧
      ∃ r, guestOfGpr? x = some r ∧
        Synced c [.str .w x .context (Record.gpr r)] [.ldr .w x .context (Record.gpr r)]
  vregs : ∀ k i v, instrAt? c.code k = some i → v ∈ i.vreads ++ i.vwrites →
    guestVregs.contains v.code = true → u.usedVregs.contains v.code = true ∧
      ∃ d, guestOfVreg? v = some d ∧
        Synced c [.strV .d v .context (Record.dreg d)] [.ldrV .d v .context (Record.dreg d)]
  flags : ∀ k i, instrAt? c.code k = some i → (i.readsFlags || i.writesFlags) = true →
    u.usesFlags = true ∧ Synced c [.mrsFlags .scratch, .str .w .scratch .context Record.nzcv]
      [.ldr .w .scratch .context Record.nzcv, .msrFlags .scratch]
  push : Found (instrAt? c.code) 0 frame.push ∧ frame.push.length ≤ c.stats.prologueWords ∧
    Through c 0 c.stats.prologueWords
  pop : ∀ n, c.stats.trailer = some n → ∃ k, n ≤ k ∧ Found (instrAt? c.code) k frame.pop ∧
    Through c n (k + frame.pop.length)
  saved : ∀ k i x, instrAt? c.code k = some i → c.stats.prologueWords ≤ k →
    (∀ n, c.stats.trailer = some n → k < n) → x ∈ i.writes →
    calleeSavedGprs.contains x.code = true → x ∈ frame.savedGprs
  savedV : ∀ k i v, instrAt? c.code k = some i → c.stats.prologueWords ≤ k →
    (∀ n, c.stats.trailer = some n → k < n) → v ∈ i.vwrites →
    calleeSavedVregs.contains v.code = true → v ∈ frame.savedVregs
  preserved : ∀ x ∈ frame.savedGprs, ∃ o, Preserved c frame (fun s => s.x x) o
  preservedV : ∀ v ∈ frame.savedVregs, ∃ o, Preserved c frame (fun s => (s.v v).setWidth 64) o
  platform : ∀ k i, instrAt? c.code k = some i → ⟨18⟩ ∉ i.writes
  fixed : ∀ k i x, instrAt? c.code k = some i → c.stats.prologueWords ≤ k →
    (∀ n, c.stats.trailer = some n → k < n) → x ∈ i.writes →
    x ∈ [.context, .pageTable, .fp, .sp] →
      i = .ldp .context .pageTable .sp 0 ∧ ReloadAt (instrAt? c.code) (.ofTrace t) u k

theorem through_of_found {c : Compiled} {a : Nat} {is : List Host.Instr}
    (hf : Found (instrAt? c.code) a is) (hs : Straight is) : Through c a (a + is.length) := by
  intro k hlo hhi
  obtain ⟨j, rfl⟩ := Nat.exists_eq_add_of_le hlo
  have hj : is[j]? = some is[j] := List.getElem?_eq_getElem (by omega)
  exact ⟨_, hf j _ hj, straight_iff.mp hs _ (List.mem_of_getElem? hj)⟩

theorem Through.part {c : Compiled} {a b a' b' : Nat} (h : Through c a b) (ha : a ≤ a')
    (hb : b' ≤ b) : Through c a' b' :=
  fun k hlo hhi => h k (Nat.le_trans ha hlo) (Nat.lt_of_lt_of_le hhi hb)

end Dynarec.Compile

namespace Dynarec.Host

theorem Found.infix {fetch : Nat → Option Instr} {k : Nat} {is js : List Instr}
    (h : Found fetch k is) (hj : js <:+: is) :
    ∃ m, k ≤ m ∧ m + js.length ≤ k + is.length ∧ Found fetch m js := by
  obtain ⟨front, back, rfl⟩ := hj
  obtain ⟨hfront, -⟩ := Compile.allFrom_append.mp h
  refine ⟨k + front.length, Nat.le_add_right _ _, ?_, (Compile.allFrom_append.mp hfront).2⟩
  simp only [List.length_append]
  omega

end Dynarec.Host

namespace Dynarec.Emit.RegisterUse

open Dynarec.Host

variable {u : RegisterUse}

/-! ### Guest state in the record -/

theorem gpr_synced {x : Host.Gpr} {r : Guest.Gpr} (hr : guestOfGpr? x = some r)
    (hx : u.usedGprs.contains x.code = true) :
    [.str .w x .context (Record.gpr r)] <:+: u.storeToRecord ∧
      [.ldr .w x .context (Record.gpr r)] <:+: u.loadFromRecord := by
  obtain ⟨hpc, rfl⟩ := guestOfGpr?_eq_some.mp hr
  have hmem : (pinned r, Record.gpr r) ∈ u.gprPlaces := mem_gprPlaces.mpr ⟨r, hpc, hx, rfl⟩
  unfold storeToRecord loadFromRecord
  rw [List.singleton_infix_iff, List.singleton_infix_iff]
  constructor
  · exact List.mem_append_left _ (List.mem_append_left _ (List.mem_map_of_mem hmem))
  · exact List.mem_append_left _ (List.mem_append_left _ (List.mem_map_of_mem hmem))

theorem vreg_synced {v : Vreg} {d : Guest.Dreg} (hd : guestOfVreg? v = some d)
    (hv : u.usedVregs.contains v.code = true) :
    [.strV .d v .context (Record.dreg d)] <:+: u.storeToRecord ∧
      [.ldrV .d v .context (Record.dreg d)] <:+: u.loadFromRecord := by
  have hmem : (v, Record.dreg d) ∈ u.vregPlaces :=
    mem_vregPlaces.mpr ⟨d, v, ⟨guestOfVreg?_eq_some.mp hd, hv⟩, rfl⟩
  unfold storeToRecord loadFromRecord
  rw [List.singleton_infix_iff, List.singleton_infix_iff]
  constructor
  · exact List.mem_append_left _ (List.mem_append_right _ (List.mem_map_of_mem hmem))
  · exact List.mem_append_left _ (List.mem_append_right _ (List.mem_map_of_mem hmem))

theorem flags_synced (h : u.usesFlags = true) :
    [.mrsFlags .scratch, .str .w .scratch .context Record.nzcv] <:+: u.storeToRecord ∧
      [.ldr .w .scratch .context Record.nzcv, .msrFlags .scratch] <:+: u.loadFromRecord := by
  unfold storeToRecord loadFromRecord
  rw [if_pos h, if_pos h]
  exact ⟨(List.suffix_append _ _).isInfix, (List.suffix_append _ _).isInfix⟩

end Dynarec.Emit.RegisterUse

namespace Dynarec.Compile.Built

open Dynarec.Emit Dynarec.Host Dynarec.Resolve Dynarec.Simulation

variable {config : Config} {dispatch : DispatchTable} {t : Guest.Trace} {c : Compiled} {p : Plan}
  {s : Emission} (h : Built config dispatch t c p s)

include h

theorem trailer_eq_some {n : Nat} (hn : c.stats.trailer = some n) :
    p.exits ≠ [] ∧ n = p.finish := by
  have htrailer : (if p.exits = [] then none else some p.finish) = some n := by
    rw [← hn, h.stats]
    rfl
  split at htrailer
  · cases htrailer
  · rename_i hx
    cases htrailer
    exact ⟨hx, rfl⟩

theorem found_trailer {n : Nat} (hn : c.stats.trailer = some n) :
    Found (instrAt? c.code) n (p.frame.trailer p.use) := by
  obtain ⟨hx, rfl⟩ := h.trailer_eq_some hn
  have hstands := Plan.stands_trailer h.fits
  rw [Plan.trailer, if_neg hx] at hstands
  refine h.found hstands fun i hi => ?_
  rw [trailer_eq] at hi
  rcases List.mem_append.mp hi with hi | hi
  · exact canonical_of_straight (straight_trailerOps p.frame p.use) i hi
  · rw [List.mem_singleton.mp hi]
    rfl

/-- Whatever the trailer holds before its jump is reached from its start. -/
theorem trailer_part {n : Nat} (hn : c.stats.trailer = some n) {is : List Host.Instr}
    (his : is <:+: trailerOps p.frame p.use) :
    ∃ k, n ≤ k ∧ Found (instrAt? c.code) k is ∧ Through c n (k + is.length) := by
  have hops := h.found_trailer hn
  rw [trailer_eq] at hops
  have hops := (allFrom_append.mp hops).1
  have hthrough := through_of_found hops (straight_trailerOps _ _)
  obtain ⟨k, hlo, hhi, hfound⟩ := Found.infix hops his
  exact ⟨k, hlo, hfound, hthrough.part (Nat.le_refl n) hhi⟩

/-- What the unit stores to the record and loads from there. -/
theorem synced {store load : List Host.Instr} (hstore : store <:+: p.use.storeToRecord)
    (hload : load <:+: p.use.loadFromRecord) : Synced c store load := by
  refine ⟨?_, fun n hn => ?_, fun k x hi => ?_⟩
  · have hpart : p.use.loadFromRecord <:+: p.prologue := (List.suffix_append _ _).isInfix
    obtain ⟨k, -, hk, hfound⟩ := h.found_prologue.infix (hload.trans hpart)
    exact ⟨k, hfound, by rw [h.prologueWords_eq]; omega⟩
  · have hpart : p.use.storeToRecord <:+: trailerOps p.frame p.use := by
      rw [trailerOps, List.append_assoc]
      exact (List.prefix_append _ _).isInfix
    exact h.trailer_part hn (hstore.trans hpart)
  · obtain ⟨f, -, tier, -, callee, args, after, a, hcall, hafter, rfl⟩ := h.hostCallAt_of_blr hi
    have hthrough := through_of_found hcall (straight_hostCallOps _ _ _ _ _ hafter)
    obtain ⟨hfront, hback⟩ := allFrom_append.mp hcall
    obtain ⟨hbefore, -⟩ := allFrom_append.mp (allFrom_append.mp hfront).1
    have hpart : p.use.storeToRecord <:+: beforeCallOps p.setting.shape p.use tier callee args := by
      rw [beforeCallOps, List.append_assoc, List.append_assoc]
      exact (List.prefix_append _ _).isInfix
    obtain ⟨m, hm, hm', hm''⟩ := Found.infix hbefore (hstore.trans hpart)
    obtain ⟨n, hn, hn', hn''⟩ := Found.infix hback hload
    refine ⟨m, n, hm', ?_, hm'', hn'', hthrough.part hm ?_⟩
    · simp only [List.length_append, List.length_cons] at hn
      omega
    · simp only [hostCallOps, List.length_append] at hn' ⊢
      omega

/-- What has a slot in the frame goes there and comes back. -/
theorem preserved {value : Host.State → DWord} {o : Nat} (hslot : HasSlot p.frame value o) :
    Preserved c p.frame value o := by
  have hfits : FrameFits p.frame := frameFits p.setting.shape p.use
  refine ⟨⟨hslot.above, hslot.inside⟩, fun s hpc => ?_, fun n hn s hpc hapart => ?_⟩
  · obtain ⟨base, hexec, hsp, hstored⟩ := hslot.stored hfits p.use s
    have hat := h.found_prologue
    rw [← hpc] at hat
    refine ⟨base, ?_, hsp, hstored⟩
    rw [h.prologueWords_eq]
    exact (execs_of_execAll hat (straight_prologue p.frame p.use) hexec).1
  · obtain ⟨t, hexec, hsp, hloaded⟩ := hslot.loaded hfits p.use hapart
    have hat := h.found_trailer hn
    rw [← hpc, trailer_eq] at hat
    obtain ⟨hops, hbr⟩ := allFrom_append.mp hat
    obtain ⟨hrun, hend⟩ := execs_of_execAll hops (straight_trailerOps p.frame p.use) hexec
    refine ⟨t, ⟨_, hrun⟩, ?_, hsp, hloaded⟩
    rw [hend]
    exact allFrom_singleton.mp hbr

end Dynarec.Compile.Built

namespace Dynarec.Translated

open Dynarec.Emit Dynarec.Compile Dynarec.Host Dynarec.Resolve Dynarec.Simulation

variable {options : Options} {dispatch : DispatchTable} {img : Guest.Image} {entry : Word}
  {c : Compiled} {t : Guest.Trace} {p : Plan} (h : Translated options dispatch img entry c t p)

include h

theorem takesV_of_vwrites {k : Nat} {i : Host.Instr} (hi : instrAt? c.code k = some i)
    (hlo : c.stats.prologueWords ≤ k) (hhi : ∀ n, c.stats.trailer = some n → k < n) {v : Vreg}
    (hv : v ∈ i.vwrites) : p.use.TakesV v := by
  cases h.uses_of_instrAt? hi hlo hhi with
  | confined hc => exact hc.vregs v (List.mem_append_right _ hv)
  | check _ hi =>
    have hnone : ∀ i ∈ syncOps, i.vwrites = [] := by decide
    rw [hnone i (List.mem_of_getElem? hi)] at hv
    cases hv
  | call _ _ _ _ _ hclobbers =>
    cases hclobbers with
    | call => cases hv
    | reload => cases hv

theorem saved_of_writes {k : Nat} {i : Host.Instr} (hi : instrAt? c.code k = some i)
    (hlo : c.stats.prologueWords ≤ k) (hhi : ∀ n, c.stats.trailer = some n → k < n) {x : Host.Gpr}
    (hx : x ∈ i.writes) (hsaved : calleeSavedGprs.contains x.code = true) :
    x ∈ p.frame.savedGprs := by
  have hspare : ∀ c : BitVec 5, (Host.Gpr.mk c).isSpare = true →
      calleeSavedGprs.contains c = false := by decide +kernel
  refine RegSet.mem_gprs.mpr (contains_savedGprs.mpr ⟨?_, hsaved⟩)
  rcases h.takes_of_writes hi hlo hhi hx with (hx' | ⟨r, -, hr, rfl⟩) | rfl | ⟨rfl, -⟩
  · rw [hspare x.code hx'] at hsaved
    cases hsaved
  · exact hr
  · cases hsaved
  -- The pointers that a reload fetches are in use from the start.
  · have hpair : ∀ y ∈ reload.writes,
        ({} : RegisterUse).usedGprs.contains y.code = true := by decide
    exact h.initial.gprs _ (hpair x hx)

theorem fixed_of_writes {k : Nat} {i : Host.Instr} (hi : instrAt? c.code k = some i)
    (hlo : c.stats.prologueWords ≤ k) (hhi : ∀ n, c.stats.trailer = some n → k < n) {x : Host.Gpr}
    (hx : x ∈ i.writes) (hfixed : x ∈ [.context, .pageTable, .fp, .sp]) :
    i = reload ∧ ReloadAt (instrAt? c.code) p.setting.shape p.use k := by
  have hspare : ∀ x ∈ [Host.Gpr.context, .pageTable, .fp, .sp], x.isSpare = false ∧ x ≠ .lr ∧
      ∀ c : BitVec 4, (Guest.Gpr.mk c).isPc = false → x ≠ pinned ⟨c⟩ := by decide +kernel
  obtain ⟨hs, hlr, hpinned⟩ := hspare x hfixed
  rcases h.takes_of_writes hi hlo hhi hx with (hx' | ⟨r, hpc, -, hr⟩) | hx' | hreload
  · rw [hs] at hx'
    cases hx'
  · exact absurd hr (hpinned r.code hpc)
  · exact absurd hx' hlr
  · exact hreload

theorem masked : Masked t p.use p.frame c := by
  have hshape : p.setting.shape = .ofTrace t := congrArg Setting.shape h.setting
  obtain ⟨em, hbuilt⟩ := h.built
  refine ⟨fun k i x hi hx hg => ?_, fun k i v hi hv hg => ?_, fun k i hi hfl => ?_, ⟨?_, ?_, ?_⟩,
    fun n hn => ?_, fun k i x hi hlo hhi => h.saved_of_writes hi hlo hhi,
    fun k i v hi hlo hhi hv hs => ?_, fun x hx => ?_, fun v hv => ?_,
    fun k i hi => (h.marked hi).platform,
    fun k i x hi hlo hhi hx hfixed => ?_⟩
  · have hused := (h.marked hi).gprs x hx hg
    obtain ⟨r, hr⟩ := exists_guestOfGpr? hg
    obtain ⟨hstore, hload⟩ := RegisterUse.gpr_synced hr hused
    exact ⟨hused, r, hr, hbuilt.synced hstore hload⟩
  · have hused := (h.marked hi).vregs v hv hg
    obtain ⟨d, hd⟩ := exists_guestOfVreg? hg
    obtain ⟨hstore, hload⟩ := RegisterUse.vreg_synced hd hused
    exact ⟨hused, d, hd, hbuilt.synced hstore hload⟩
  · have hused := (h.marked hi).flags hfl
    obtain ⟨hstore, hload⟩ := RegisterUse.flags_synced hused
    exact ⟨hused, hbuilt.synced hstore hload⟩
  · have hprologue := h.found_prologue
    rw [Plan.prologue, Frame.prologue, List.append_assoc] at hprologue
    exact (allFrom_append.mp hprologue).1
  · rw [h.prologueWords_eq, Plan.prologue, Frame.prologue, List.append_assoc, List.length_append]
    exact Nat.le_add_right _ _
  · have hthrough := through_of_found h.found_prologue (straight_prologue p.frame p.use)
    rwa [Nat.zero_add, ← h.prologueWords_eq] at hthrough
  · exact hbuilt.trailer_part hn (List.suffix_append _ p.frame.pop).isInfix
  · rcases h.takesV_of_vwrites hi hlo hhi hv with rfl | ⟨d, hd⟩
    · cases hs
    · have hapart : ∀ c d : BitVec 5, pinnedVreg? ⟨d⟩ = some ⟨c⟩ →
          calleeSavedVregs.contains c = false := by decide +kernel
      rw [hapart v.code d.code hd.1] at hs
      cases hs
  · obtain ⟨o, hslot⟩ := exists_slot hx
    exact ⟨o, hbuilt.preserved hslot⟩
  · obtain ⟨o, hslot⟩ := exists_slotV hv
    exact ⟨o, hbuilt.preserved hslot⟩
  · rw [← hshape]
    exact h.fixed_of_writes hi hlo hhi hx hfixed

end Dynarec.Translated

namespace Dynarec

open Dynarec.Emit Dynarec.Compile Dynarec.Host

/-- Masks of used registers are complete: whatever unit is translated, the registers and flags of
the guest that its words touch are the ones it takes over and gives back, and what a word changes of
the caller's registers is stored to the frame before and loaded from there behind. -/
theorem masks_complete {options : Options} {dispatch : DispatchTable} {img : Guest.Image}
    {entry : Word} {c : Compiled} (h : translate options dispatch img entry = .ok c) :
    ∃ t s frame, Guest.Trace.collect options.limits img entry = .ok t ∧
      Compile.unit lower t { config := options.config, dispatch, shape := .ofTrace t } {} =
        .ok c.stats s ∧ s.code = c.code ∧
      Frame.ofUse s.regs c.stats.spillBytes = .ok frame ∧ Masked t s.regs frame c := by
  obtain ⟨t, p, h⟩ := translate_ok h
  obtain ⟨s, hrun, hcode, hregs⟩ := h.unit
  rw [h.setting] at hrun
  refine ⟨t, s, p.frame, h.trace, hrun, hcode, ?_, hregs ▸ h.masked⟩
  rw [hregs, h.stats]
  exact if_neg (Nat.not_lt.mpr (spillBytes_le p.use p.setting.shape))

/-- An addition that sets flags and a move of a double register, before a system call. -/
def maskedImage : Guest.Image :=
  ⟨0x1000, #[0x01, 0x00, 0x90, 0xE2, 0x42, 0x1B, 0xB0, 0xEE, 0x07, 0x00, 0x00, 0xEF,
    0x1E, 0xFF, 0x2F, 0xE1]⟩

theorem masks_complete_call : ∃ c t s frame,
    translate {} DispatchTable.empty maskedImage 0x1000 = .ok c ∧
    Frame.ofUse (Emission.regs s) c.stats.spillBytes = .ok frame ∧ Masked t s.regs frame c ∧
    (∃ o, Preserved c frame (fun s => s.x ⟨19⟩) o) ∧
    instrAt? c.code 65 = some (.data .adds .w ⟨19⟩ ⟨19⟩ ⟨0⟩) ∧
    instrAt? c.code 66 = some (.fmov ⟨17⟩ ⟨18⟩) ∧ instrAt? c.code 80 = some (.blr ⟨7⟩) := by
  have hunit : (translate {} DispatchTable.empty maskedImage 0x1000).toOption.any (fun c =>
      decide (c.stats.prologueWords ≤ 65 ∧ ∀ n ∈ c.stats.trailer, 65 < n) &&
      (decide (instrAt? c.code 65 = some (.data .adds .w ⟨19⟩ ⟨19⟩ ⟨0⟩)) &&
      (decide (instrAt? c.code 66 = some (.fmov ⟨17⟩ ⟨18⟩)) &&
        decide (instrAt? c.code 80 = some (.blr ⟨7⟩))))) = true := by decide +kernel
  obtain ⟨c, hc, hunit⟩ := exists_ok_of_any hunit
  simp only [Bool.and_eq_true, decide_eq_true_eq] at hunit
  obtain ⟨⟨hlo, hhi⟩, hadds, hrest⟩ := hunit
  obtain ⟨t, s, frame, -, -, -, hframe, hmasked⟩ := masks_complete hc
  have hsaved : ⟨19⟩ ∈ frame.savedGprs :=
    hmasked.saved 65 _ ⟨19⟩ hadds hlo hhi List.mem_cons_self (by decide)
  exact ⟨c, t, s, frame, hc, hframe, hmasked, hmasked.preserved _ hsaved, hadds, hrest⟩

end Dynarec
