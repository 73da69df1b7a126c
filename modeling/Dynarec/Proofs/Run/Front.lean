import Dynarec.Proofs.Run.Exit
import Dynarec.Proofs.Run.Frame

/-! # The prologue in its room

The prologue is written over the first words of a unit if they are enough for it, and else nothing
is written. Control runs through it and comes to the word behind the room. -/

namespace Dynarec.Host

/-- The instruction goes through in every state. -/
def Instr.Executes (i : Instr) : Prop := ∀ s, ∃ t, i.exec s = some t

theorem execAll_of_executes {is : List Instr} (h : ∀ i ∈ is, i.Executes) (s : State) :
    ∃ t, execAll is s = some t := by
  induction is generalizing s with
  | nil => exact ⟨s, rfl⟩
  | cons i is ih =>
    obtain ⟨hi, his⟩ := List.forall_mem_cons.mp h
    obtain ⟨s₁, hs₁⟩ := hi s
    obtain ⟨t, ht⟩ := ih his s₁
    exact ⟨t, (execAll_cons hs₁).trans ht⟩

end Dynarec.Host

namespace Dynarec.Emit

open Dynarec.Host Dynarec.Compile

theorem executes_pushGprs (xs : List Host.Gpr) : ∀ i ∈ Frame.pushGprs xs, i.Executes := by
  fun_induction Frame.pushGprs xs with
  | case1 x y rest ih => exact List.forall_mem_cons.mpr ⟨fun s => ⟨_, rfl⟩, ih⟩
  | case2 x => exact List.forall_mem_singleton.mpr fun s => ⟨_, rfl⟩
  | case3 => exact List.forall_mem_nil _

theorem executes_push (f : Frame) : ∀ i ∈ f.push, i.Executes := by
  refine List.forall_mem_append.mpr ⟨List.forall_mem_append.mpr ⟨List.forall_mem_append.mpr
    ⟨?_, executes_pushGprs _⟩, ?_⟩, ?_⟩
  · refine List.forall_mem_cons.mpr ⟨fun s => ⟨_, rfl⟩, ?_⟩
    exact List.forall_mem_singleton.mpr fun s => ⟨_, rfl⟩
  · exact List.forall_mem_map.mpr fun v _ s => ⟨_, rfl⟩
  · unfold Frame.spillMove
    split
    · exact List.forall_mem_singleton.mpr fun s => ⟨_, rfl⟩
    · exact List.forall_mem_nil _

theorem executes_loadFromRecord (u : RegisterUse) : ∀ i ∈ u.loadFromRecord, i.Executes := by
  refine List.forall_mem_append.mpr ⟨List.forall_mem_append.mpr ⟨?_, ?_⟩, ?_⟩
  · exact List.forall_mem_map.mpr fun p _ s => ⟨_, rfl⟩
  · exact List.forall_mem_map.mpr fun p _ s => ⟨_, rfl⟩
  · split
    · refine List.forall_mem_cons.mpr ⟨fun s => ⟨_, rfl⟩, ?_⟩
      exact List.forall_mem_singleton.mpr fun s => ⟨_, rfl⟩
    · exact List.forall_mem_nil _

theorem executes_prologue (f : Frame) (u : RegisterUse) : ∀ i ∈ f.prologue u, i.Executes := by
  refine List.forall_mem_append.mpr ⟨List.forall_mem_append.mpr ⟨executes_push f, ?_⟩,
    executes_loadFromRecord u⟩
  refine List.forall_mem_cons.mpr ⟨fun s => ⟨_, rfl⟩, ?_⟩
  exact List.forall_mem_singleton.mpr fun s => ⟨_, rfl⟩

/-! ### The words of the room -/

section Words

variable {prologue : List Host.Instr} {old : List Word}

theorem length_frontWords (h : prologue.length ≤ old.length) :
    (frontWords prologue old).length = old.length := by
  rw [frontWords, List.length_append, List.length_map]
  split
  · rw [List.length_cons, List.length_drop]
    omega
  · rw [List.length_nil]
    omega

/-- What control meets in the room: the prologue, and the branch over the rest of it. -/
def frontPath (prologue : List Host.Instr) (room : Nat) : List Host.Instr :=
  prologue ++ if prologue.length < room then [.b (displacement prologue.length room)] else []

theorem frontWords_eq (h : prologue.length ≤ old.length) (hr : old.length < 0x8000000000000000) :
    ∃ unused, frontWords prologue old =
      (frontPath prologue old.length).map Host.Instr.encode ++ unused := by
  unfold frontWords frontPath
  rw [roomSkip_eq h hr]
  split
  · refine ⟨old.drop (prologue.length + 1), ?_⟩
    rw [List.map_append, List.append_assoc]
    rfl
  · refine ⟨[], ?_⟩
    rw [List.append_nil, List.append_nil, List.append_nil]

theorem canonical_frontPath {room : Nat} (hs : Straight prologue) (hr : room < 0x2000000) :
    ∀ i ∈ frontPath prologue room, i.isCanonical = true := by
  refine List.forall_mem_append.mpr ⟨canonical_of_straight hs, ?_⟩
  split
  · refine List.forall_mem_singleton.mpr (fits26_iff.mpr ?_)
    unfold displacement
    omega
  · exact List.forall_mem_nil _

theorem frontFits_iff {room : Nat} (hr : room < 0x8000000000000000) :
    FrontFits prologue room ↔ prologue.length ≤ room := by
  refine ⟨fun h => h.1, fun h => ⟨h, fun _ => ?_⟩⟩
  rw [roomSkip_eq h hr]
  rfl

/-- Control comes through the room to the word behind it. -/
theorem visits_front {fetch : Nat → Option Host.Instr} {room : Nat}
    (hat : Found fetch 0 (frontPath prologue room)) (hst : Straight prologue)
    (hlen : prologue.length ≤ room) {s base : Host.State} (hs : s.pc = 0)
    (hexec : execAll prologue s = some base) :
    Visits fetch (List.range (min (prologue.length + 1) room)) s (base.goto room) := by
  obtain ⟨hat, hskip⟩ := allFrom_append.mp hat
  rw [← hs] at hat
  obtain ⟨hrun, hpc⟩ := visits_of_execAll hat hst hexec
  rw [hs] at hrun hpc
  rw [Nat.zero_add] at hpc hskip
  -- A prologue that fills its room falls through to the word behind it.
  by_cases hlt : prologue.length < room
  · rw [if_pos hlt] at hskip
    have hjump : Visits fetch [prologue.length] base (base.goto room) :=
      .single hpc (allFrom_singleton.mp hskip) (State.jump_displacement hpc)
    have hall := hrun.trans hjump
    rwa [← List.range_eq_range', ← List.range_succ, ← Nat.min_eq_left hlt] at hall
  · have heq : prologue.length = room := Nat.le_antisymm hlen (Nat.not_lt.mp hlt)
    rw [State.goto_self (hpc.trans heq), heq, Nat.min_eq_right (Nat.le_succ room),
      List.range_eq_range']
    rwa [heq] at hrun

end Words

/-! ### Writing the prologue -/

/-- The prologue for the registers in use stands in the first `room` words of `t`, which is else as
`s`, and control comes through it to the word behind the room. -/
structure PrologueLands (s : Emission) (f : Frame) (room : Nat) (t : Emission) : Prop where
  rest : t = { s with code := t.code }
  size : t.code.size = s.code.size
  behind : ∀ k, room ≤ k → t.code[k]? = s.code[k]?
  front : ∀ (k : Nat) (i : Host.Instr),
    (f.prologue s.regs)[k]? = some i → t.code[k]? = some i.encode
  runs : room < 0x2000000 → ∀ m : Host.State, m.pc = 0 →
    ∃ base, execAll (f.prologue s.regs) m = some base ∧
      Visits (instrAt? t.code) (List.range (min ((f.prologue s.regs).length + 1) room)) m
        (base.goto room)

theorem prologueLands_frontWords {s : Emission} (f : Frame) {old rest : List Word}
    (h : s.code.toList = old ++ rest) (hlen : (f.prologue s.regs).length ≤ old.length) :
    PrologueLands s f old.length
      { s with code := (frontWords (f.prologue s.regs) old ++ rest).toArray } := by
  have hst := straight_prologue f s.regs
  have hwords := length_frontWords hlen
  refine ⟨rfl, ?_, fun k hk => ?_, fun k i hi => ?_, fun hsmall m hm => ?_⟩
  · rw [List.size_toArray, List.length_append, hwords, ← Array.length_toList, h, List.length_append]
  · rw [List.getElem?_toArray, List.getElem?_append_right (by rwa [hwords]), hwords,
      ← Array.getElem?_toList, h, List.getElem?_append_right hk]
  · have hk := (List.getElem?_eq_some_iff.mp hi).1
    rw [← List.length_map (f := Host.Instr.encode)] at hk
    rw [List.getElem?_toArray, frontWords, List.append_assoc, List.getElem?_append_left hk,
      List.getElem?_map, hi]
    rfl
  · obtain ⟨base, hbase⟩ := execAll_of_executes (executes_prologue f s.regs) m
    obtain ⟨unused, hfront⟩ := frontWords_eq hlen (by omega)
    have hat := found_of_words [] (unused ++ rest) (canonical_frontPath hst hsmall)
    rw [List.nil_append, ← List.append_assoc, ← hfront] at hat
    exact ⟨base, hbase, visits_front hat hst hlen hm hbase⟩

/-- The branch over the room cannot be counted. -/
theorem writePrologue_abort {e : Setting} {s : Emission} {f : Frame} {old rest : List Word}
    (h : s.code.toList = old ++ rest) (hlt : (f.prologue s.regs).length < old.length)
    (hskip : roomSkip (f.prologue s.regs).length old.length = none) :
    ∃ t, writePrologue old.length f e s = .error .abort t := by
  have hle := Nat.le_of_lt hlt
  have hmatch : displacement? (BitVec.ofNat 64 (f.prologue s.regs).length)
      (BitVec.ofNat 64 old.length) = none := hskip
  have hwrite := writeInstrs_front (e := e) h hle (encodable_prologue f s.regs)
  generalize hfront : Emission.mk _ _ _ _ _ _ _ = t at hwrite
  refine ⟨t, (bind_run_ok (run_get e s)).trans ?_⟩
  simp only [gt_iff_lt, Nat.not_lt.mpr hle, if_false, hlt, if_true, hmatch]
  exact (bind_run_ok hwrite).trans (bind_run_error rfl)

theorem writePrologue_tooLarge (e : Setting) (s : Emission) (f : Frame) {room : Nat}
    (h : room < (f.prologue s.regs).length) : writePrologue room f e s =
      .error (.error (.prologueTooLarge (f.prologue s.regs).length room)) s := by
  simp only [writePrologue, run_bind, run_get, gt_iff_lt, if_pos h, run_fail]

theorem writePrologue_ends (e : Setting) {s : Emission} {f : Frame} {room : Nat}
    (hroom : room ≤ s.code.size) (hlen : (f.prologue s.regs).length ≤ room) :
    (∃ t, writePrologue room f e s = .ok (f.prologue s.regs).length t ∧
      PrologueLands s f room t) ∨
    0x8000000000000000 ≤ room ∧ ∃ t, writePrologue room f e s = .error .abort t := by
  have hold : (s.code.toList.take room).length = room :=
    List.length_take_of_le (by rwa [Array.length_toList])
  have hcode := (List.take_append_drop room s.code.toList).symm
  by_cases hfits : FrontFits (f.prologue s.regs) room
  · have hover := writePrologue_over (e := e) f hcode
    have hlands := prologueLands_frontWords f hcode (by rwa [hold])
    rw [hold] at hover hlands
    exact .inl ⟨_, hover.run hfits, hlands⟩
  · -- The prologue is short enough, so it is the displacement that does not fit.
    refine .inr ⟨Nat.not_lt.mp fun hr => hfits ((frontFits_iff hr).mpr hlen), ?_⟩
    obtain ⟨hlt, hskip⟩ := Classical.not_imp.mp fun h => hfits ⟨hlen, h⟩
    have habort := writePrologue_abort (e := e) hcode (by rwa [hold])
      (by rwa [hold, ← Option.not_isSome_iff_eq_none])
    rwa [hold] at habort

/-- Either the prologue is too long for its room and nothing changes, or it is written and control
lands behind the room. Only a room of 2^63 words, which no buffer has, is too wide to be jumped
over. -/
theorem prologue_lands (e : Setting) (s : Emission) (f : Frame) {room : Nat}
    (hroom : room ≤ s.code.size) :
    (∀ n m t, writePrologue room f e s = .error (.error (.prologueTooLarge n m)) t ↔
      room < (f.prologue s.regs).length ∧ n = (f.prologue s.regs).length ∧ m = room ∧ t = s) ∧
    ((f.prologue s.regs).length ≤ room →
      (∃ t, writePrologue room f e s = .ok (f.prologue s.regs).length t ∧
        PrologueLands s f room t) ∨
      0x8000000000000000 ≤ room ∧ ∃ t, writePrologue room f e s = .error .abort t) := by
  refine ⟨fun n m t => ?_, writePrologue_ends e hroom⟩
  by_cases hlen : (f.prologue s.regs).length ≤ room
  · refine iff_of_false (fun h => ?_) fun h => absurd h.1 (Nat.not_lt.mpr hlen)
    rcases writePrologue_ends e hroom hlen with ⟨t', hok, -⟩ | ⟨-, t', habort⟩
    · cases hok.symm.trans h
    · cases habort.symm.trans h
  · have hgt := Nat.not_le.mp hlen
    rw [writePrologue_tooLarge e s f hgt]
    simp only [EStateM.Result.error.injEq, Fault.error.injEq, EmitError.prologueTooLarge.injEq,
      hgt, true_and, and_assoc, eq_comm]

/-- A frame without saved registers. -/
def bareFrame : Frame where
  savedGprs := []
  savedVregs := []
  spillBytes := 0

theorem prologue_lands_one_spare : (bareFrame.prologue {}).length + 1 = 5 ∧
    ∃ t, writePrologue 5 bareFrame {} { code := Array.replicate 7 0 } = .ok 4 t ∧
      PrologueLands { code := Array.replicate 7 0 } bareFrame 5 t := by
  have hroom : 5 ≤ ({ code := Array.replicate 7 0 } : Emission).code.size := by decide
  refine ⟨by decide, ?_⟩
  rcases (prologue_lands {} _ bareFrame hroom).2 (by decide) with hlands | ⟨hr, -⟩
  · exact hlands
  · exact absurd hr (by decide)

end Dynarec.Emit
