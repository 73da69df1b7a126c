import Dynarec.Proofs.Guest.Partition

/-! # How far traces reach

Reading ends for one of two reasons. Either it comes behind an instruction that never falls through
while every branch ahead has its target behind it already, or it meets a limit, and then the trace
is truncated. The limits are looked at before an instruction is read: the number of instructions is
kept exactly, but the last instruction may cross the byte limit. -/

namespace Dynarec.Guest

theorem Instr.Regular.branch_of_endsFlow {i : Instr} (h : i.Regular) (he : i.endsFlow = true) :
    i.flags.branch = true := by
  rw [Instr.endsFlow, Instr.endsFlowUnder, Bool.and_eq_true] at he
  rw [h.branch, Bool.or_eq_true]
  cases hk : i.kind with
  | branch | branchExchange | tableBranch => exact .inl rfl
  | _ =>
    rw [hk] at he
    exact .inr he.2

/-- Every branch ahead among these instructions has its target below `z`. -/
def PointsBelow (is : List Instr) (z : Word) : Prop :=
  ∀ i ∈ is, ∀ a, i.BranchesAhead a → a.toNat < z.toNat

theorem not_pointsBelow {is : List Instr} {z : Word} (h : ¬PointsBelow is z) :
    ∃ i ∈ is, ∃ a, i.BranchesAhead a ∧ z.toNat ≤ a.toNat := by
  simpa [PointsBelow] using h

/-- Other branches lead to themselves or back. -/
theorem pointsBelow_iff {is : List Instr} {z : Word} (h : ∀ i ∈ is, i.address.toNat < z.toNat) :
    PointsBelow is z ↔ ∀ i ∈ is, ∀ a, i.kind = .branch a → a.toNat < z.toNat := by
  constructor
  · intro hbelow i hi a ha
    by_cases hahead : i.address.toNat < a.toNat
    · exact hbelow i hi a ⟨ha, hahead⟩
    · have hi := h i hi
      omega
  · intro hbelow i hi a ha
    exact hbelow i hi a ha.1

namespace Scan

variable {s s' : Scan} {i : Instr}

/-- The targets are those of the branches ahead. -/
def Noted (s : Scan) : Prop := ∀ a, a ∈ s.targets ↔ ∃ i ∈ s.instrs, i.BranchesAhead a

theorem targets_leave (s : Scan) (i : Instr) : (s.leave i).targets = s.targets := by
  unfold leave
  split <;> rfl

theorem Noted.step (h : s.Noted) (i : Instr) : (s.step i).Noted := by
  intro a
  have hnew : a ∈ (s.step i).targets ↔ i.BranchesAhead a ∨ a ∈ s.targets := by
    rw [Scan.step, targets_leave, ← forwardTarget?_eq_some, ← Option.mem_toList,
      ← targets_enter s i.address]
    exact List.mem_append
  rw [hnew, h a, instrs_step]
  simp only [List.mem_append, List.mem_singleton, or_and_right, exists_or, exists_eq_left]
  exact or_comm

/-- Reading ends behind an instruction exactly if it never falls through and everything ahead of it
is no target. -/
theorem endsAfter_step_iff (h : s.Noted) (hi : i.Regular) : (s.step i).endsAfter i = true ↔
    i.endsFlow = true ∧ PointsBelow (s.instrs ++ [i]) i.nextPc := by
  have htargets : (!(s.step i).targets.any fun t => decide (i.nextPc.toNat ≤ t.toNat)) = true ↔
      PointsBelow (s.instrs ++ [i]) i.nextPc := by
    rw [← instrs_step]
    simp only [Bool.not_eq_true', List.any_eq_false, decide_eq_true_eq, Nat.not_le, (h.step i) _,
      PointsBelow]
    constructor
    · intro hall j hj a ha
      exact hall a ⟨j, hj, ha⟩
    · rintro hall a ⟨j, hj, ha⟩
      exact hall j hj a ha
  rw [endsAfter, Bool.and_eq_true, Bool.and_eq_true, htargets]
  constructor
  · rintro ⟨⟨-, hflow⟩, hbelow⟩
    exact ⟨hflow, hbelow⟩
  · rintro ⟨hflow, hbelow⟩
    exact ⟨⟨hi.branch_of_endsFlow hflow, hflow⟩, hbelow⟩

/-- Why reading ended at `z` when the instructions `is` had been read behind those in `before`. -/
structure Ended (img : Image) (entry maxBytes : Word) (budget : Nat) (before is : List Instr)
    (z : Word) (truncated : Bool) : Prop where
  limit : truncated = true → is.length = budget ∨ maxBytes.toNat ≤ (z - entry).toNat ∨
    img.contains z 4 = false
  flow : truncated = false → ∃ init i, is = init ++ [i] ∧ i.endsFlow = true ∧
    PointsBelow (before ++ is) z
  earlier : ∀ pre i post, is = pre ++ i :: post → (post = [] → truncated = true) →
    i.endsFlow = true → ¬PointsBelow (before ++ pre ++ [i]) i.nextPc

theorem Reading.ended {img : Image} {entry maxBytes address : Word} {budget : Nat}
    {truncated : Bool} (h : Reading img entry maxBytes budget address s s' truncated)
    (hn : s.Noted) : ∃ is z, s'.instrs = s.instrs ++ is ∧ Consecutive address is z ∧
      Ended img entry maxBytes budget s.instrs is z truncated := by
  induction h with
  | @limit budget address s hstop =>
    refine ⟨[], address, (List.append_nil _).symm, rfl, fun _ => ?_, fun h => ?_, ?_⟩
    · exact hstop.imp_left Eq.symm
    · cases h
    · simp
  | @last budget s i hi hend =>
    obtain ⟨hflow, hbelow⟩ := (endsAfter_step_iff hn hi.regular).mp hend
    refine ⟨[i], i.nextPc, instrs_step s i, ⟨rfl, rfl⟩, fun h => ?_, fun _ => ?_, ?_⟩
    · cases h
    · exact ⟨[], i, rfl, hflow, hbelow⟩
    · intro pre j post hsplit hpost
      have hnil : post = [] := by
        have hlen := congrArg List.length hsplit
        simp only [List.length_append, List.length_cons, List.length_nil] at hlen
        exact List.length_eq_zero_iff.mp (by omega)
      cases hpost hnil
  | @next budget s s' truncated i hi hgo hrest ih =>
    obtain ⟨is, z, hins, hrun, hended⟩ := ih (hn.step i)
    rw [instrs_step] at hins hended
    refine ⟨i :: is, z, by simpa using hins, ⟨rfl, hrun⟩, fun h => ?_, fun h => ?_, ?_⟩
    · simpa using hended.limit h
    · obtain ⟨init, j, rfl, hflow, hbelow⟩ := hended.flow h
      exact ⟨i :: init, j, rfl, hflow, by simpa using hbelow⟩
    · intro pre j post hsplit hpost hflow
      cases pre with
      | nil =>
        cases hsplit
        rw [List.append_nil]
        intro hbelow
        exact ne_true_of_eq_false hgo ((endsAfter_step_iff hn hi.regular).mpr ⟨hflow, hbelow⟩)
      | cons k pre =>
        cases hsplit
        have hlater := hended.earlier pre j post rfl hpost hflow
        simpa using hlater

end Scan

/-! ### Ends of traces -/

theorem Consecutive.finish_eq {a z : Word} {is : List Instr} (h : Consecutive a is z)
    (hr : ∀ i ∈ is, i.Regular) : z = a + BitVec.ofNat 32 (4 * is.length) := by
  induction is generalizing a with
  | nil =>
    cases h
    simp
  | cons i is ih =>
    have hi := (hr i List.mem_cons_self).nextPc
    have hz := ih h.2 fun j hj => hr j (List.mem_cons_of_mem _ hj)
    rw [hz, hi, h.1, BitVec.add_assoc, List.length_cons, Nat.mul_succ, Nat.add_comm (4 * is.length),
      BitVec.ofNat_add]
    rfl

theorem Consecutive.nextPc_last {a z : Word} {init : List Instr} {i : Instr}
    (h : Consecutive a (init ++ [i]) z) : i.nextPc = z := by
  obtain ⟨m, -, -, hnext⟩ := h.of_append
  exact hnext

/-- Nothing was cut off exactly if the last instruction ends the flow and no branch leads on. -/
theorem Scan.Ended.complete_iff {img : Image} {entry maxBytes z : Word} {budget : Nat}
    {is : List Instr} {truncated : Bool} (h : Ended img entry maxBytes budget [] is z truncated)
    (hrun : Consecutive entry is z) : truncated = false ↔
      (∃ i, is.getLast? = some i ∧ i.endsFlow = true) ∧ PointsBelow is z := by
  constructor
  · intro hc
    obtain ⟨init, i, hi, hflow, hpoints⟩ := h.flow hc
    exact ⟨⟨i, by simp [hi], hflow⟩, hpoints⟩
  · rintro ⟨⟨i, hi, hflow⟩, hpoints⟩
    obtain ⟨init, hinit⟩ := List.getLast?_eq_some_iff.mp hi
    refine eq_false_of_ne_true fun htrue => h.earlier init i [] hinit (fun _ => htrue) hflow ?_
    subst hinit
    rw [hrun.nextPc_last]
    exact hpoints

namespace Trace

variable {limits : Limits} {img : Image} {entry : Word} {t : Trace}

theorem finish?_of_chain {a z : Word} (h : Chain a t.blocks.toList z) (hn : t.instrs ≠ []) :
    t.finish? = some z := by
  have hne : t.blocks.toList ≠ [] := by
    intro hnil
    exact hn (by simp [Trace.instrs, hnil])
  obtain ⟨init, b, hb⟩ := (List.eq_nil_or_concat t.blocks.toList).resolve_left hne
  rw [List.concat_eq_append] at hb
  rw [hb] at h
  obtain ⟨m, -, -, m', hs, hz⟩ := h.of_append
  rw [finish?, ← Array.getLast?_toList, hb, List.getLast?_concat, Option.map_some, hs.finish_eq]
  exact congrArg some hz

theorem exists_ended (h : Trace.collect limits img entry = .ok t) :
    ∃ z, Consecutive entry t.instrs z ∧
      Scan.Ended img entry limits.maxBytes limits.maxInstructions [] t.instrs z t.isTruncated := by
  obtain ⟨s, truncated, -, hrun, rfl⟩ := exists_run h
  have hnoted : Scan.Noted { block := { start := entry } } := by
    intro a
    simp [Scan.instrs]
  obtain ⟨is, z, hins, hconsecutive, hended⟩ := (Scan.reading_of_run hrun).ended hnoted
  have hinstrs : ({ Trace.ofBlocks s.blocks with isTruncated := truncated } : Trace).instrs = is :=
    s.instrs_blocks.trans hins
  rw [hinstrs]
  exact ⟨z, hconsecutive, hended⟩

/-- The trace ends at `z`, and where it has to: behind an instruction that never falls through once
no branch leads further, or at a limit. -/
structure Stops (limits : Limits) (img : Image) (entry : Word) (t : Trace) (z : Word) : Prop where
  finish : t.finish? = some z
  covered : z.toNat = entry.toNat + t.guestBytes
  complete : t.isTruncated = false ↔ (∃ i, t.instrs.getLast? = some i ∧ i.endsFlow = true) ∧
    ∀ i ∈ t.instrs, ∀ a, i.kind = .branch a → a.toNat < z.toNat
  limit : t.isTruncated = true → t.instrCount = limits.maxInstructions ∨
    limits.maxBytes.toNat ≤ t.guestBytes ∨ img.contains z 4 = false
  earlier : ∀ pre i post, t.instrs = pre ++ i :: post → post ≠ [] → i.endsFlow = true →
    ∃ j ∈ pre ++ [i], ∃ a, j.kind = .branch a ∧ i.address.toNat + 4 ≤ a.toNat
  lands : t.isTruncated = false → ∀ i ∈ t.instrs, ∀ a, i.kind = .branch a →
    i.address.toNat < a.toNat → ∃ b ∈ t.blocks.toList, b.start = a

theorem stops_of_collect (hf : img.finish < wordCount)
    (h : Trace.collect limits img entry = .ok t) (hn : t.instrs ≠ []) :
    ∃ z, t.Stops limits img entry z := by
  obtain ⟨s, _, truncated, hkept, -, ht⟩ := exists_kept hf h
  obtain ⟨z, hrun, hended⟩ := exists_ended h
  have hblocks : t.blocks = s.blocks := ht ▸ rfl
  have hinstrs : t.instrs = s.instrs := ht ▸ s.instrs_blocks
  have hholds : ∀ i ∈ t.instrs, img.Holds i := fun i hi => hkept.holds i (hinstrs ▸ hi)
  have hregular : ∀ i ∈ t.instrs, i.Regular := fun i hi => (hholds i hi).regular
  have hlow : ∀ i ∈ t.instrs, i.Low := fun i hi => (hholds i hi).low hf
  have hz := hrun.toNat_finish hlow
  have hbytes := guestBytes_eq hregular
  have hcomplete := hended.complete_iff hrun
  rw [pointsBelow_iff (hrun.below hlow)] at hcomplete
  refine ⟨z, ?_, by omega, hcomplete, fun hl => ?_, ?_, fun hc => ?_⟩
  · obtain ⟨z', hchain⟩ := hkept.inv.chain_blocks fun i hi => (hkept.holds i hi).regular
    rw [← hblocks] at hchain
    have hsame : z' = z :=
      (hchain.consecutive.finish_eq hregular).trans (hrun.finish_eq hregular).symm
    exact hsame ▸ finish?_of_chain hchain hn
  · have hdistance : (z - entry).toNat = t.guestBytes := by
      have hlt := z.isLt
      rw [BitVec.toNat_sub]
      omega
    rw [← hdistance]
    exact hended.limit hl
  · intro pre i post hsplit hpost hflow
    obtain ⟨j, hj, a, ha, hle⟩ :=
      not_pointsBelow (hended.earlier pre i post hsplit (fun hnil => absurd hnil hpost) hflow)
    refine ⟨j, hj, a, ha.1, ?_⟩
    have hi : i ∈ t.instrs := hsplit ▸ List.mem_append_right _ List.mem_cons_self
    rw [← (hlow i hi).toNat_nextPc]
    exact hle
  · intro i hi a ha hahead
    have hlt := (hcomplete.mp hc).2 i hi a ha
    rw [hblocks]
    refine hkept.starts_block hf (hinstrs ▸ hi) ⟨ha, hahead⟩ ?_
    rw [← hinstrs, ← hz]
    exact hlt

/-- A branch over a return, and the return that it leads to. -/
def passingImage : Image :=
  ⟨0x1000, #[0x00, 0x00, 0x00, 0xEA, 0x1E, 0xFF, 0x2F, 0xE1, 0x1E, 0xFF, 0x2F, 0xE1,
    0x00, 0xF0, 0x20, 0xE3]⟩

/-- The first return does not end the trace, but the second does, before the last word. -/
theorem stops_of_collect_passing : ∃ t, Trace.collect {} passingImage 0x1000 = .ok t ∧
    t.isTruncated = false ∧ t.finish? = some 0x100C ∧ ∃ z, t.Stops {} passingImage 0x1000 z := by
  have hread : (Trace.collect {} passingImage 0x1000).toOption.any (fun t =>
      t.isTruncated == false && t.finish? == some 0x100C && !t.instrs.isEmpty) = true := by
    decide +kernel
  cases ht : Trace.collect {} passingImage 0x1000 with
  | error e =>
    rw [ht] at hread
    cases hread
  | ok t =>
    rw [ht] at hread
    simp only [Except.toOption, Option.any_some, Bool.and_eq_true, beq_iff_eq, Bool.not_eq_true',
      List.isEmpty_eq_false_iff] at hread
    obtain ⟨⟨hwhole, hend⟩, hne⟩ := hread
    exact ⟨t, rfl, hwhole, hend, stops_of_collect (by decide) ht hne⟩

/-! ### Limits -/

theorem collected_of_collect (h : Trace.collect limits img entry = .ok t) :
    t.instrs = [] ∨ t.Collected limits img entry := by
  obtain ⟨-, -, hin, -⟩ := exists_run h
  by_cases ha : entry.toNat % 4 = 0
  · obtain ⟨t', ht', hcollected⟩ := collect_ok limits hin ha
    cases h.symm.trans ht'
    exact .inr hcollected
  · by_cases hl : limits.maxInstructions = 0 ∨ limits.maxBytes = 0
    · obtain ⟨t', ht', hblocks⟩ := collect_empty hin hl
      cases h.symm.trans ht'
      exact .inl (by simp [Trace.instrs, hblocks])
    · rw [not_or] at hl
      rw [collect_misaligned hin hl.1 hl.2 ha] at h
      cases h

theorem instrs_regular (h : Trace.collect limits img entry = .ok t) :
    ∀ i ∈ t.instrs, i.Regular := by
  intro i hi
  rcases collected_of_collect h with hnil | hcollected
  · exact absurd (hnil ▸ hi) List.not_mem_nil
  · exact (hcollected.holds i hi).regular

theorem length_le_maxInstructions (h : Trace.collect limits img entry = .ok t) :
    t.instrs.length ≤ limits.maxInstructions := by
  rcases collected_of_collect h with hnil | hcollected
  · simp [hnil]
  · exact hcollected.count

theorem length_lt_of_finish (h : Trace.collect limits img entry = .ok t)
    (hf : img.finish < wordCount) : 4 * t.instrs.length < wordCount := by
  obtain ⟨s, _, truncated, hkept, hin, rfl⟩ := exists_kept hf h
  have hfits := hkept.fits hf hin
  have hinstrs : ({ Trace.ofBlocks s.blocks with isTruncated := truncated } : Trace).instrs =
      s.instrs := s.instrs_blocks
  rw [hinstrs]
  omega

/-- The limit is looked at where an instruction starts, so the last one may cross it. -/
theorem length_lt_of_maxBytes (h : Trace.collect limits img entry = .ok t)
    (hb : limits.maxBytes.toNat ≤ 0xFFFFFFFC ∨ img.finish < wordCount ∨
      4 * limits.maxInstructions ≤ limits.maxBytes.toNat) :
    4 * t.instrs.length < limits.maxBytes.toNat + 4 := by
  by_cases hlow : limits.maxBytes.toNat ≤ 0xFFFFFFFC
  · rcases collected_of_collect h with hnil | hcollected
    · simp [hnil]
    · have hlen := hcollected.length_le hlow
      omega
  · rcases hb.resolve_left hlow with hf | hvoid
    · have hlen := length_lt_of_finish h hf
      unfold wordCount at hlen
      omega
    · have hcount := length_le_maxInstructions h
      omega

theorem length_lt_wordCount (h : Trace.collect limits img entry = .ok t)
    (hb : limits.maxBytes.toNat ≤ 0xFFFFFFFC ∨ img.finish < wordCount ∨
      4 * limits.maxInstructions ≤ limits.maxBytes.toNat) :
    4 * t.instrs.length < wordCount := by
  have hlen := length_lt_of_maxBytes h hb
  have hmax := limits.maxBytes.isLt
  rcases hb with hlow | hf | hvoid
  · unfold wordCount
    omega
  · exact length_lt_of_finish h hf
  · have hcount := length_le_maxInstructions h
    unfold wordCount
    omega

end Trace

/-- An image of conditional instructions, all of which fall through. -/
def Image.blank (n : Nat) : Image := ⟨0, Array.replicate (4 * n) 0⟩

theorem Image.contains_blank (n : Nat) (a : Word) :
    (Image.blank n).contains a 4 = true ↔ a.toNat + 4 ≤ 4 * n := by
  simp [Image.contains, Image.blank, Image.finish]

theorem Image.Holds.endsFlow_blank {n : Nat} {i : Instr} (h : (Image.blank n).Holds i) :
    i.endsFlow = false := by
  obtain ⟨w, hw, hi⟩ := h.decoded
  have hzero : w = 0 := by
    have hbyte : ∀ (k : Nat) (b : Byte), (Image.blank n).bytes[k]? = some b → b = 0 := by
      intro k b hb
      exact Array.eq_of_mem_replicate (Array.mem_of_getElem? hb)
    unfold Image.word? at hw
    split at hw
    · simp only [Option.bind_eq_bind, Option.bind_eq_some_iff, Option.some.injEq] at hw
      obtain ⟨b₀, h₀, b₁, h₁, b₂, h₂, b₃, h₃, rfl⟩ := hw
      rw [hbyte _ b₀ h₀, hbyte _ b₁ h₁, hbyte _ b₂ h₂, hbyte _ b₃ h₃]
      rfl
    · cases hw
  rw [hi, hzero]
  rfl

/-- Over such an image a trace ends at a limit only. -/
theorem Trace.exists_long (limits : Limits) {n : Nat} (hpos : 0 < n)
    (hi : n ≤ limits.maxInstructions) (hb : 4 * n < limits.maxBytes.toNat + 4) :
    ∃ t, Trace.collect limits (Image.blank n) 0 = .ok t ∧ n ≤ t.instrs.length := by
  have hin : (Image.blank n).contains 0 4 = true := by
    have hzero : BitVec.toNat (0 : Word) = 0 := rfl
    rw [Image.contains_blank, hzero]
    omega
  obtain ⟨t, ht, hcollected⟩ := collect_ok limits hin rfl
  refine ⟨t, ht, ?_⟩
  obtain ⟨z, hrun, hended⟩ := exists_ended ht
  have hz : z.toNat ≤ 4 * t.instrs.length := by
    rw [hrun.finish_eq fun i hi => (hcollected.holds i hi).regular]
    simpa using Nat.mod_le (4 * t.instrs.length) _
  cases htruncated : t.isTruncated with
  | false =>
    obtain ⟨init, i, hlast, hflow, -⟩ := hended.flow htruncated
    have hi : i ∈ t.instrs := by simp [hlast]
    rw [(hcollected.holds i hi).endsFlow_blank] at hflow
    cases hflow
  | true =>
    rcases hended.limit htruncated with hcount | hbytes | hout
    · omega
    · have hdistance : z - 0 = z := by simp
      rw [hdistance] at hbytes
      omega
    · have hout := (Image.contains_blank n z).not.mp (ne_true_of_eq_false hout)
      omega

theorem Trace.guestBytes?_eq_some {t : Trace} {n : Nat} :
    t.guestBytes? = some n ↔ n = t.guestBytes ∧ t.guestBytes < wordCount := by
  rw [guestBytes?, Option.ite_none_right_eq_some, Option.some.injEq, and_comm, eq_comm]

theorem Trace.guestBytes?_eq_none {t : Trace} :
    t.guestBytes? = none ↔ wordCount ≤ t.guestBytes := by
  rw [guestBytes?, ite_eq_right_iff, ← Nat.not_lt]
  exact ⟨fun h hlt => absurd (h hlt) (Option.some_ne_none _), fun h hlt => absurd hlt h⟩

theorem Trace.counted_of_limits {limits : Limits} {img : Image} {entry : Word} {t : Trace}
    (h : Trace.collect limits img entry = .ok t)
    (hb : limits.maxBytes.toNat ≤ 0xFFFFFFFC ∨ img.finish < wordCount ∨
      4 * limits.maxInstructions ≤ limits.maxBytes.toNat) :
    t.guestBytes? = some t.guestBytes ∧ t.guestBytes < limits.maxBytes.toNat + 4 := by
  rw [guestBytes?_eq_some, guestBytes_eq (instrs_regular h)]
  exact ⟨⟨rfl, length_lt_wordCount h hb⟩, length_lt_of_maxBytes h hb⟩

/-- The number of instructions is always kept. The byte limit is kept up to the rest of an
instruction, wherever a word can count the bytes. It is kept exactly by the limits that are whole
words, that the number of instructions makes void, or that no count of whole words exceeds. There
are traces whose bytes no word can count exactly if the limits admit as many bytes as there are
addresses. -/
theorem Trace.limits_kept (limits : Limits) :
    (∀ img entry t, Trace.collect limits img entry = .ok t →
      t.instrCount ≤ limits.maxInstructions ∧
      (limits.maxBytes.toNat ≤ 0xFFFFFFFC ∨ img.finish < wordCount ∨
          4 * limits.maxInstructions ≤ limits.maxBytes.toNat →
        t.guestBytes? = some t.guestBytes ∧ t.guestBytes < limits.maxBytes.toNat + 4) ∧
      ∀ n, t.guestBytes? = some n → n < limits.maxBytes.toNat + 4) ∧
    ((∀ img entry t n, Trace.collect limits img entry = .ok t → t.guestBytes? = some n →
        n ≤ limits.maxBytes.toNat) ↔
      limits.maxBytes.toNat % 4 = 0 ∨ 4 * limits.maxInstructions ≤ limits.maxBytes.toNat ∨
        0xFFFFFFFC < limits.maxBytes.toNat) ∧
    ((∃ img entry t, Trace.collect limits img entry = .ok t ∧ t.guestBytes? = none) ↔
      0xFFFFFFFC < limits.maxBytes.toNat ∧ wordCount ≤ 4 * limits.maxInstructions) := by
  have hmax : limits.maxBytes.toNat < wordCount := limits.maxBytes.isLt
  have hword : wordCount = 0x100000000 := rfl
  refine ⟨fun img entry t h => ⟨length_le_maxInstructions h, counted_of_limits h,
    fun n hn => ?_⟩, ⟨?_, ?_⟩, ?_, ?_⟩
  · obtain ⟨rfl, hlt⟩ := guestBytes?_eq_some.mp hn
    by_cases hlow : limits.maxBytes.toNat ≤ 0xFFFFFFFC
    · exact (counted_of_limits h (.inl hlow)).2
    · omega
  · intro hkept
    refine Classical.byContradiction fun hl => ?_
    rw [not_or, not_or] at hl
    obtain ⟨t, ht, hlen⟩ :=
      exists_long limits (n := limits.maxBytes.toNat / 4 + 1) (by omega) (by omega) (by omega)
    have hbytes := hkept _ _ t _ ht (counted_of_limits ht (.inl (by omega))).1
    rw [guestBytes_eq (instrs_regular ht)] at hbytes
    omega
  · intro hl img entry t n h hn
    obtain ⟨rfl, hlt⟩ := guestBytes?_eq_some.mp hn
    rw [guestBytes_eq (instrs_regular h)] at hlt ⊢
    have hcount := length_le_maxInstructions h
    rcases hl with hl | hl | hl
    · have hlen := length_lt_of_maxBytes h (.inl (by omega))
      omega
    · omega
    · omega
  · rintro ⟨img, entry, t, h, hnone⟩
    have hlimits : ¬(limits.maxBytes.toNat ≤ 0xFFFFFFFC ∨ img.finish < wordCount ∨
        4 * limits.maxInstructions ≤ limits.maxBytes.toNat) := by
      intro hb
      rw [(counted_of_limits h hb).1] at hnone
      cases hnone
    omega
  · rintro ⟨hbytes, hcount⟩
    obtain ⟨t, ht, hlen⟩ :=
      exists_long limits (n := 0x40000000) (by omega) (by omega) (by omega)
    refine ⟨_, _, t, ht, guestBytes?_eq_none.mpr ?_⟩
    rw [guestBytes_eq (instrs_regular ht)]
    omega

/-- With room for two bytes the first instruction crosses the limit. -/
theorem Trace.limits_kept_crossed :
    (∃ t, Trace.collect { maxBytes := 2 } (Image.blank 1) 0 = .ok t ∧ t.guestBytes? = some 4 ∧
      t.instrCount ≤ 1024 ∧ t.guestBytes < 2 + 4) ∧
    ¬∀ img entry t n, Trace.collect { maxBytes := 2 } img entry = .ok t → t.guestBytes? = some n →
      n ≤ 2 := by
  obtain ⟨hbounds, hexact, -⟩ := limits_kept { maxBytes := 2 }
  refine ⟨?_, fun h => absurd (hexact.mp h) (by decide)⟩
  have hread : (Trace.collect { maxBytes := 2 } (Image.blank 1) 0).toOption.any
      (fun t => t.guestBytes? == some 4) = true := by
    decide +kernel
  cases ht : Trace.collect { maxBytes := 2 } (Image.blank 1) 0 with
  | error e =>
    rw [ht] at hread
    cases hread
  | ok t =>
    rw [ht] at hread
    obtain ⟨hcount, hbytes, -⟩ := hbounds _ _ t ht
    exact ⟨t, rfl, eq_of_beq hread, hcount, (hbytes (.inl (by decide))).2⟩

end Dynarec.Guest
