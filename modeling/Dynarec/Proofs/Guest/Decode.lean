import Dynarec.Guest.Decode

/-! # What decoded instructions are like

Whatever a word is, the instruction that it decodes to takes four bytes, belongs to no if-then
block and no table branch, and has the properties that its kind calls for. -/

namespace Dynarec.Guest

/-- Whether a helper answers the instruction without the full guest state around it. -/
def Kind.isHelped : Kind → Bool
  | supervisorCall _ | breakpoint _ | undefined | readTimer .. => true
  | _ => false

/-- Whether the instruction computes something of which flags can be taken. -/
def Kind.isData : Kind → Bool
  | alu .. | move .. | compare .. => true
  | _ => false

/-- The kinds that a word can have, with their properties. -/
structure Kind.Regular (k : Kind) (f : Flags) : Prop where
  wide : f.thumb16 = false
  noIfThen : ∀ firstcond mask, k ≠ .ifThen firstcond mask
  noTable : ∀ rn rm halfword, k ≠ .tableBranch rn rm halfword
  branch : f.branch = (k.isControlTransfer || k.writesPc)
  hostCall : f.hostCall = k.isCall
  helped : f.hostCallSkipContext = k.isHelped
  timer : ∀ rt rt2, k = .readTimer rt rt2 → rt.isPc = false ∧ rt2.isPc = false
  setsFlags : f.setsFlags = true → k.isData = true ∧ k.writesPc = false
  compare : ∀ op rn operand, k = .compare op rn operand → f.setsFlags = true

def Instr.Regular (i : Instr) : Prop := i.kind.Regular i.flags

namespace Decode

/-- The kind of a helper instruction other than a timer read is regular. -/
theorem regular_helped (name : String) {k : Kind} (h : k.isHelped = true)
    (ht : ∀ rt rt2, k = .readTimer rt rt2 → rt.isPc = false ∧ rt2.isPc = false) :
    (helped name k).kind.Regular (helped name k).flags := by
  cases k with
  | supervisorCall | breakpoint | undefined | readTimer =>
    exact ⟨rfl, nofun, nofun, rfl, rfl, rfl, ht, nofun, nofun⟩
  | _ => cases h

/-- An operation is a compare, by its opcode, or computes into its destination. -/
theorem operation?_kind {opcode : Nat} {rd rn : Gpr} {operand : Operand} {name : String} {k : Kind}
    (h : operation? opcode rd rn operand = some (name, k)) :
    (∃ op, cmpOp? opcode = some op ∧ k = .compare op rn operand) ∨
      cmpOp? opcode = none ∧
        ((∃ op, k = .alu op rd rn operand) ∨ ∃ negate, k = .move rd operand negate) := by
  unfold operation? at h
  cases hc : cmpOp? opcode with
  | some op =>
    simp only [hc] at h
    cases h
    exact .inl ⟨op, rfl, rfl⟩
  | none =>
    refine .inr ⟨rfl, ?_⟩
    cases ha : aluOp? opcode with
    | some op =>
      simp only [hc, ha] at h
      cases h
      exact .inl ⟨op, rfl⟩
    | none =>
      simp only [hc, ha] at h
      split at h
      · contradiction
      · contradiction
      · cases h
        exact .inr ⟨false, rfl⟩
      · cases h
        exact .inr ⟨true, rfl⟩
      · cases h

theorem regular_dataProcessing {w : Word} {b : Body} (h : dataProcessing? w = some b) :
    b.kind.Regular b.flags := by
  unfold dataProcessing? at h
  simp only [Option.bind_eq_bind, Option.bind_eq_some_iff] at h
  obtain ⟨⟨operand, rotated⟩, -, h⟩ := h
  dsimp only at h
  split at h
  · cases h
  · rename_i hs
    obtain ⟨⟨name, k⟩, hk, h⟩ := Option.bind_eq_some_iff.mp h
    cases h
    dsimp only
    -- The two conditions on flags: compares set them, writes to the program counter do not.
    rcases operation?_kind hk with ⟨op, hop, rfl⟩ | ⟨hop, ⟨op, rfl⟩ | ⟨negate, rfl⟩⟩
    · have hset : w.bit 20 = true := by simpa [hop] using hs
      exact ⟨rfl, nofun, nofun, rfl, rfl, rfl, nofun, fun _ => ⟨rfl, rfl⟩, fun _ _ _ _ => hset⟩
    · have hset : w.bit 20 = true → (gpr w 12).isPc = false := by simpa [hop] using hs
      exact ⟨rfl, nofun, nofun, rfl, rfl, rfl, nofun, fun h => ⟨rfl, hset h⟩, nofun⟩
    · have hset : w.bit 20 = true → (gpr w 12).isPc = false := by simpa [hop] using hs
      exact ⟨rfl, nofun, nofun, rfl, rfl, rfl, nofun, fun h => ⟨rfl, hset h⟩, nofun⟩

theorem regular_miscellaneous {w : Word} {b : Body} (h : miscellaneous? w = some b) :
    b.kind.Regular b.flags := by
  unfold miscellaneous? at h
  split at h
  · cases h
    exact ⟨rfl, nofun, nofun, rfl, rfl, rfl, nofun, nofun, nofun⟩
  · split at h
    · cases h
      exact ⟨rfl, nofun, nofun, rfl, rfl, rfl, nofun, nofun, nofun⟩
    · split at h
      · cases h
        exact regular_helped _ rfl nofun
      · cases h

theorem regular_dataSpace {w : Word} {b : Body} (h : dataSpace? w = some b) :
    b.kind.Regular b.flags := by
  unfold dataSpace? at h
  split at h
  · exact regular_miscellaneous h
  · split at h
    · cases h
      exact ⟨rfl, nofun, nofun, rfl, rfl, rfl, nofun, nofun, nofun⟩
    · exact regular_dataProcessing h

theorem regular_branch (w a : Word) : (branch w a).kind.Regular (branch w a).flags := by
  unfold branch
  dsimp only
  split
  · exact ⟨rfl, nofun, nofun, rfl, rfl, rfl, nofun, nofun, nofun⟩
  · exact ⟨rfl, nofun, nofun, rfl, rfl, rfl, nofun, nofun, nofun⟩

theorem regular_timer {w : Word} {b : Body} (h : timer? w = some b) : b.kind.Regular b.flags := by
  unfold timer? at h
  dsimp only at h
  split at h
  · rename_i hw
    simp only [Bool.and_eq_true, Bool.not_eq_true'] at hw
    cases h
    refine regular_helped _ rfl fun rt rt2 heq => ?_
    cases heq
    exact ⟨hw.1.1.2, hw.1.2⟩
  · cases h

theorem regular_callSpace {w : Word} {b : Body} (h : callSpace? w = some b) :
    b.kind.Regular b.flags := by
  unfold callSpace? at h
  split at h
  · cases h
    exact regular_helped _ rfl nofun
  · split at h
    · cases h
      exact ⟨rfl, nofun, nofun, rfl, rfl, rfl, nofun, nofun, nofun⟩
    · cases h

theorem regular_body {w a : Word} {b : Body} (h : body? w a = some b) : b.kind.Regular b.flags := by
  unfold body? at h
  split at h
  · exact regular_dataSpace h
  · exact regular_dataSpace h
  · cases h
    exact regular_branch w a
  · exact regular_timer h
  · exact regular_callSpace h
  · cases h

end Decode

/-- Every word decodes to a regular instruction. -/
theorem decode_regular (w a : Word) : (decode w a).Regular := by
  have hundefined : Decode.undefined.kind.Regular Decode.undefined.flags :=
    Decode.regular_helped "udf" rfl nofun
  unfold Instr.Regular decode
  cases Cond.ofCode? (Decode.field w 28 4) with
  | none => exact hundefined
  | some c =>
    cases hb : Decode.body? w a with
    | none => exact hundefined
    | some b => exact Decode.regular_body hb

end Dynarec.Guest
