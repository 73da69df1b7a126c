import Dynarec.Proofs.Run.Frame

/-! # Constants in registers

The words that load a constant are run through wherever they stand, leave the constant in the
register whatever the register held, and change nothing else. There is one word for each
sixteen-bit part that is not zero, and one for zero. -/

namespace Dynarec.Host

/-- From `s` to `t` the register got the value, and nothing else has changed. -/
structure Loaded (x : Gpr) (value : DWord) (s t : State) : Prop where
  value : t.x x = value
  gprs : ∀ q, q ≠ x → t.x q = s.x q
  vregs : t.v = s.v
  flags : t.flags = s.flags
  mem : t.mem = s.mem

/-- The words, wherever they stand, are run through and load the value. -/
def Loads (words : List Word) (x : Gpr) (value : DWord) : Prop :=
  ∀ (pre post : List Word) (s : State), s.pc = pre.length →
    ∃ t, Visits (instrAt? (pre ++ (words ++ post)).toArray)
        (List.range' pre.length words.length) s t ∧
      t.pc = pre.length + words.length ∧ Loaded x value s t

/-! ### Running -/

theorem loaded_set {x : Gpr} (hx : x ≠ .zr) (value : DWord) (s : State) (n : Nat) :
    Loaded x value s ((s.set x value).skip n) where
  value := State.x_set_self s x value hx
  gprs q hq := State.x_set_of_ne s x q value hq
  vregs := State.v_set s x value
  flags := State.flags_set s x value
  mem := State.mem_set s x value

/-- Straight code that comes down to one assignment loads a value. -/
theorem loads_of_execAll {is : List Instr} {x : Gpr} {value : DWord} (hx : x ≠ .zr)
    (hst : Straight is)
    (h : ∀ s : State, execAll is s = some ((s.set x value).skip is.length)) :
    Loads (is.map Instr.encode) x value := by
  intro pre post s hs
  have hat := found_of_words pre post (canonical_of_straight hst)
  rw [← hs] at hat
  obtain ⟨hrun, hpc⟩ := visits_of_execAll hat hst (h s)
  rw [hs] at hrun hpc
  rw [List.length_map]
  exact ⟨_, hrun, hpc, loaded_set hx value s is.length⟩

theorem loads_loadWord {x : Gpr} (hx : x ≠ .zr) (v : Word) :
    Loads ((loadWord x v).map Instr.encode) x (v.setWidth 64) :=
  loads_of_execAll hx (straight_loadWord x v) (execAll_loadWord x v)

theorem loads_loadDWord {x : Gpr} (hx : x ≠ .zr) (v : DWord) :
    Loads ((loadDWord x v).map Instr.encode) x v :=
  loads_of_execAll hx (straight_loadDWord x v) (execAll_loadDWord x v)

/-! ### Counting -/

/-- How many of the four sixteen-bit parts of a value are not zero. -/
def partCount (v : DWord) : Nat := [0, 1, 2, 3].countP fun k => v.toNat >>> (16 * k) % 0x10000 ≠ 0

theorem length_nonzeroParts (v : DWord) : (nonzeroParts v).length = partCount v := by
  have hplaces : [0, 1, 2, 3] = ([0, 1, 2, 3] : List (BitVec 2)).map BitVec.toNat := rfl
  rw [nonzeroParts, List.length_filterMap_eq_countP, partCount, hplaces, List.countP_map]
  refine List.countP_congr fun p _ => ?_
  have hzero : (v.extractLsb' (16 * p.toNat) 16 == 0) = true ↔
      v.toNat >>> (16 * p.toNat) % 0x10000 = 0 := by
    rw [beq_iff_eq, ← BitVec.toNat_inj, BitVec.extractLsb'_toNat]
    rfl
  dsimp only [Function.comp_apply]
  rw [decide_eq_true_iff, ne_eq, ← hzero]
  split
  · rename_i h
    simp only [h, Option.isSome_none, Bool.false_eq_true, not_true_eq_false]
  · rename_i h
    simp only [h, Option.isSome_some, Bool.false_eq_true, not_false_eq_true]

/-- One instruction a part that is not zero, and one for zero. -/
theorem length_loadDWord (x : Gpr) (v : DWord) : (loadDWord x v).length = max 1 (partCount v) := by
  rw [← length_nonzeroParts, loadDWord]
  split
  · rename_i hnil
    rw [hnil]
    rfl
  · rename_i p part rest hparts
    rw [hparts, List.length_cons, List.length_map, List.length_cons]
    omega

theorem length_loadWord_pos (x : Gpr) (v : Word) : 1 ≤ (loadWord x v).length := by
  unfold loadWord
  dsimp only
  split
  · exact Nat.le_refl 1
  · split
    · exact Nat.le_refl 1
    · exact Nat.le_succ 1

end Dynarec.Host

namespace Dynarec.Emit

open Dynarec.Host

/-- Appends `words` to the code and does nothing else. -/
def Appends (m : Emit Unit) (words : List Word) : Prop :=
  ∀ (e : Setting) (s : Emission), m e s = .ok () { s with code := s.code ++ words.toArray }

theorem appends_asm {is : List Instr} (h : Encodable is) :
    Appends (asm is) (is.map Instr.encode) := by
  intro e s
  rw [asm_run h, Emission.extend_ops]

/-- A constant of 32 bits takes one or two words, one of 64 bits as many as it has parts that are
not zero, and at least one. Their run leaves exactly the constant in the register. -/
theorem constants_exact (x : Host.Gpr) (hx : x ≠ .zr) :
    (∀ v : Word, ∃ words, Appends (asm (loadWord x v)) words ∧ Loads words x (v.setWidth 64) ∧
      1 ≤ words.length ∧ words.length ≤ 2) ∧
    ∀ v : DWord, ∃ words, Appends (asm (loadDWord x v)) words ∧ Loads words x v ∧
      words.length = max 1 (partCount v) ∧ 1 ≤ words.length ∧ words.length ≤ 4 := by
  refine ⟨fun v => ⟨_, appends_asm (encodable_loadWord x v), loads_loadWord hx v, ?_, ?_⟩,
    fun v => ⟨_, appends_asm (encodable_loadDWord x v), loads_loadDWord hx v, ?_, ?_, ?_⟩⟩
  all_goals rw [List.length_map]
  · exact length_loadWord_pos x v
  · exact Compile.length_loadWord_le x v
  · exact length_loadDWord x v
  · rw [length_loadDWord]
    exact Nat.le_max_left ..
  · exact Compile.length_loadDWord_le x v

/-- Of the four parts of this constant two are zero, so that its second word passes over one. -/
theorem constants_exact_two_parts :
    Host.Gpr.dispatch ≠ .zr ∧ ∃ words, Appends (asm (loadDWord .dispatch 0x7FFF00001000)) words ∧
      Loads words .dispatch 0x7FFF00001000 ∧ words.length = 2 := by
  have hx : Host.Gpr.dispatch ≠ .zr := by decide
  obtain ⟨words, happends, hloads, hlen, -, -⟩ := (constants_exact .dispatch hx).2 0x7FFF00001000
  exact ⟨hx, words, happends, hloads, hlen.trans (by decide)⟩

end Dynarec.Emit
