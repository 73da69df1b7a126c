import Dynarec.Proofs.Guest.Extent

/-! # Limits and errors

What the limits decide is only how far a trace is read. With wider limits the same instructions are
read first and cut into the same blocks, and a trace that no limit cut short does not change at all.
Nothing that is met on the way is an error: collection fails before the first instruction, or not at
all. -/

namespace Dynarec.Guest

/-! ### Blocks that grow -/

/-- Block `b` is the beginning of block `c`, or all of it. -/
def Block.Begins (b c : Block) : Prop :=
  b.start = c.start ∧ ∃ is, c.instrs.toList = b.instrs.toList ++ is ∧ (is = [] → c = b)

theorem Block.Begins.refl (b : Block) : b.Begins b :=
  ⟨rfl, [], (List.append_nil _).symm, fun _ => rfl⟩

theorem Block.Begins.trans {b c d : Block} (h : b.Begins c) (h' : c.Begins d) : b.Begins d := by
  obtain ⟨hstart, is, his, heq⟩ := h
  obtain ⟨hstart', js, hjs, heq'⟩ := h'
  refine ⟨hstart.trans hstart', is ++ js, ?_, fun hnil => ?_⟩
  · rw [hjs, his, List.append_assoc]
  · obtain ⟨hi, hj⟩ := List.append_eq_nil_iff.mp hnil
    exact (heq' hj).trans (heq hi)

theorem Block.Begins.isEmpty {b c : Block} (h : b.Begins c) (hb : b.isEmpty = false) :
    c.isEmpty = false := by
  obtain ⟨-, is, his, -⟩ := h
  rw [Block.isEmpty, Array.isEmpty_eq_false_iff, ne_eq, ← Array.toList_eq_nil_iff] at hb ⊢
  rw [his, List.append_eq_nil_iff]
  exact fun hnil => hb hnil.1

namespace Scan

/-- The scan `s'` has read on from `s`: blocks that were closed are as they were, and the open one
may have grown. -/
def Ahead (s s' : Scan) : Prop :=
  ∃ c rest, s'.opened = s.done.toList ++ c :: rest ∧ s.block.Begins c

theorem Ahead.refl (s : Scan) : s.Ahead s := ⟨s.block, [], rfl, .refl _⟩

theorem Ahead.trans {s s' s'' : Scan} (h : s.Ahead s') (h' : s'.Ahead s'') : s.Ahead s'' := by
  obtain ⟨c, rest, hopened, hbegins⟩ := h
  obtain ⟨d, rest', hopened', hbegins'⟩ := h'
  unfold opened at hopened
  rcases List.eq_nil_or_concat rest with rfl | ⟨init, b, rfl⟩
  · -- No block was closed in between: the open one goes on growing.
    obtain ⟨hdone, hblock⟩ := List.append_inj' hopened rfl
    cases hblock
    exact ⟨d, rest', hdone ▸ hopened', hbegins.trans hbegins'⟩
  · rw [List.concat_eq_append, ← List.cons_append, ← List.append_assoc] at hopened
    obtain ⟨hdone, -⟩ := List.append_inj' hopened rfl
    refine ⟨c, init ++ d :: rest', ?_, hbegins⟩
    rw [hopened', hdone, List.append_assoc, List.cons_append]

theorem ahead_enter (s : Scan) (a : Word) : s.Ahead (s.enter a) := by
  unfold enter
  split
  · refine ⟨s.block, [{ start := a }], ?_, .refl _⟩
    rw [opened_cut, opened, List.append_assoc, List.singleton_append]
  · exact .refl s

theorem ahead_append_leave (s : Scan) (i : Instr) : s.Ahead ((s.append i).leave i) := by
  have hgrown : ∀ mark : Bool, s.block.Begins
      { s.block with instrs := s.block.instrs.push i, isLoopEnd := mark } :=
    fun _ => ⟨rfl, [i], Array.toList_push, fun h => absurd h (List.cons_ne_nil _ _)⟩
  unfold leave
  split
  · refine ⟨_, [{ start := i.nextPc }], ?_, hgrown (isBackward i)⟩
    rw [opened_cut, opened, List.append_assoc, List.singleton_append]
    rfl
  · exact ⟨_, [], rfl, hgrown s.block.isLoopEnd⟩

theorem ahead_step (s : Scan) (i : Instr) : s.Ahead (s.step i) :=
  (ahead_enter s i.address).trans (ahead_append_leave _ i)

theorem ahead_of_run {img : Image} {entry maxBytes address : Word} {budget : Nat} {s s' : Scan}
    {truncated : Bool} (h : run img entry maxBytes budget address s = .ok (s', truncated)) :
    s.Ahead s' := by
  obtain ⟨-, hahead⟩ :=
    run_induct (P := fun _ t => s.Ahead t) (fun h _ => h.trans (ahead_step _ _)) h (.refl s)
  exact hahead

/-- The same scan under two limits: the narrower one stops it first, unless it ends by itself. -/
theorem ahead_of_limits {img : Image} {entry address maxBytes maxBytes' : Word}
    (hbytes : maxBytes.toNat ≤ maxBytes'.toNat) {budget budget' : Nat} (hbudget : budget ≤ budget')
    {s r r' : Scan} {truncated truncated' : Bool}
    (h : run img entry maxBytes budget address s = .ok (r, truncated))
    (h' : run img entry maxBytes' budget' address s = .ok (r', truncated')) :
    r.Ahead r' ∧ (truncated = false → r' = r ∧ truncated' = false) := by
  induction budget generalizing budget' address s with
  | zero =>
    cases h
    exact ⟨ahead_of_run h', fun h => by cases h⟩
  | succ budget ih =>
    obtain ⟨rest, rfl⟩ := Nat.exists_eq_add_of_le' hbudget
    rw [← Nat.add_assoc] at h'
    have hfull := h'
    unfold run at h h'
    split at h
    · cases h
      exact ⟨ahead_of_run hfull, fun h => by cases h⟩
    · rename_i hgo
      rw [if_neg] at h'
      · cases hi : img.instrAt address with
        | error e =>
          rw [hi] at h
          cases h
        | ok i =>
          rw [hi] at h h'
          have h : (if (s.step i).endsAfter i = true then .ok (s.step i, false)
              else run img entry maxBytes budget i.nextPc (s.step i)) = .ok (r, truncated) := h
          have h' : (if (s.step i).endsAfter i = true then .ok (s.step i, false)
              else run img entry maxBytes' (rest + budget) i.nextPc (s.step i)) =
                .ok (r', truncated') := h'
          split at h
          · rename_i hend
            rw [if_pos hend] at h'
            cases h
            cases h'
            exact ⟨.refl _, fun _ => ⟨rfl, rfl⟩⟩
          · rename_i hend
            rw [if_neg hend] at h'
            exact ih (Nat.le_add_left _ _) h h'
      · simp only [Bool.or_eq_true, decide_eq_true_eq, not_or] at hgo ⊢
        exact ⟨fun hle => hgo.1 (Nat.le_trans hbytes hle), hgo.2⟩

theorem blocks_of_opened {s : Scan} {init rest : List Block} {c : Block}
    (h : s.opened = init ++ c :: rest) (hc : rest = [] → c.isEmpty = false) :
    ∃ rest', s.blocks.toList = init ++ c :: rest' := by
  unfold blocks
  cases he : s.block.isEmpty with
  | false => exact ⟨rest, by simpa [opened] using h⟩
  | true =>
    unfold opened at h
    rcases List.eq_nil_or_concat rest with rfl | ⟨mid, b, rfl⟩
    · obtain ⟨-, hblock⟩ := List.append_inj' h rfl
      cases hblock
      rw [hc rfl] at he
      cases he
    · rw [List.concat_eq_append, ← List.cons_append, ← List.append_assoc] at h
      exact ⟨mid, (List.append_inj' h rfl).1⟩

theorem Ahead.blocks {s s' : Scan} (h : s.Ahead s') {init : List Block} {b : Block}
    (hb : s.blocks.toList = init ++ [b]) :
    ∃ c rest, s'.blocks.toList = init ++ c :: rest ∧ b.Begins c := by
  obtain ⟨c, rest, hopened, hbegins⟩ := h
  unfold Scan.blocks at hb
  cases he : s.block.isEmpty with
  | true =>
    -- The last block of the trace was closed already.
    have hdone : s.done.toList = init ++ [b] := by simpa [he] using hb
    rw [hdone, List.append_assoc, List.singleton_append] at hopened
    obtain ⟨rest', hrest⟩ := blocks_of_opened hopened fun h => by cases h
    exact ⟨b, rest', hrest, .refl b⟩
  | false =>
    have hopen : s.done.toList ++ [s.block] = init ++ [b] := by simpa [he] using hb
    obtain ⟨hdone, hblock⟩ := List.append_inj' hopen rfl
    cases hblock
    rw [hdone] at hopened
    obtain ⟨rest', hrest⟩ := blocks_of_opened hopened fun _ => hbegins.isEmpty he
    exact ⟨c, rest', hrest, hbegins⟩

end Scan

/-! ### Narrower limits -/

/-- The trace `t` is `t'` cut short: its blocks are blocks of `t'`, but the last may be only the
beginning of one. If nothing stopped it, it is all of `t'`. -/
structure Trace.Begins (t t' : Trace) : Prop where
  instrs : t.instrs <+: t'.instrs
  blocks : ∀ init b, t.blocks.toList = init ++ [b] →
    ∃ c rest, t'.blocks.toList = init ++ c :: rest ∧ b.Begins c
  whole : t.isTruncated = false → t' = t

theorem Trace.begins_instrs {t t' : Trace}
    (h : ∀ init b, t.blocks.toList = init ++ [b] →
      ∃ c rest, t'.blocks.toList = init ++ c :: rest ∧ b.Begins c) : t.instrs <+: t'.instrs := by
  unfold Trace.instrs
  rcases List.eq_nil_or_concat t.blocks.toList with hnil | ⟨init, b, hb⟩
  · rw [hnil]
    exact ⟨_, List.nil_append _⟩
  · rw [List.concat_eq_append] at hb
    obtain ⟨c, rest, hc, -, is, his, -⟩ := h init b hb
    refine ⟨is ++ rest.flatMap (·.instrs.toList), ?_⟩
    simp [hb, hc, his]

theorem Trace.begins_of_collect {limits limits' : Limits} {img : Image} {entry : Word}
    {t t' : Trace} (hinstrs : limits.maxInstructions ≤ limits'.maxInstructions)
    (hbytes : limits.maxBytes.toNat ≤ limits'.maxBytes.toNat)
    (h : Trace.collect limits img entry = .ok t) (h' : Trace.collect limits' img entry = .ok t') :
    t.Begins t' := by
  obtain ⟨s, truncated, -, hrun, rfl⟩ := exists_run h
  obtain ⟨s', truncated', -, hrun', rfl⟩ := exists_run h'
  obtain ⟨hahead, hwhole⟩ := Scan.ahead_of_limits hbytes hinstrs hrun hrun'
  have hblocks : ∀ init b, s.blocks.toList = init ++ [b] →
      ∃ c rest, s'.blocks.toList = init ++ c :: rest ∧ b.Begins c :=
    fun init b hb => hahead.blocks hb
  refine ⟨begins_instrs hblocks, hblocks, fun hcut => ?_⟩
  obtain ⟨rfl, rfl⟩ := hwhole hcut
  cases hcut
  rfl

/-- Two additions and a branch back to the first. -/
def risingImage : Image :=
  ⟨0x1000, #[0x01, 0x00, 0x80, 0xE2, 0x01, 0x00, 0x80, 0xE2, 0xFC, 0xFF, 0xFF, 0xEA]⟩

/-- A limit cuts the block before its branch, and so before it is known to end a loop. -/
theorem Trace.begins_of_collect_rising : ∃ t t',
    Trace.collect { maxInstructions := 2 } risingImage 0x1000 = .ok t ∧
    Trace.collect {} risingImage 0x1000 = .ok t' ∧
    t.blocks.toList.map (fun b => (b.instrs.size, b.isLoopEnd)) = [(2, false)] ∧
    t'.blocks.toList.map (fun b => (b.instrs.size, b.isLoopEnd)) = [(3, true)] ∧ t.Begins t' := by
  have hcut : (Trace.collect { maxInstructions := 2 } risingImage 0x1000).toOption.any (fun t =>
      t.blocks.toList.map (fun b => (b.instrs.size, b.isLoopEnd)) == [(2, false)]) = true := by
    decide +kernel
  have hwhole : (Trace.collect {} risingImage 0x1000).toOption.any (fun t =>
      t.blocks.toList.map (fun b => (b.instrs.size, b.isLoopEnd)) == [(3, true)]) = true := by
    decide +kernel
  cases ht : Trace.collect { maxInstructions := 2 } risingImage 0x1000 with
  | error e =>
    rw [ht] at hcut
    cases hcut
  | ok t =>
    cases ht' : Trace.collect {} risingImage 0x1000 with
    | error e =>
      rw [ht'] at hwhole
      cases hwhole
    | ok t' =>
      rw [ht] at hcut
      rw [ht'] at hwhole
      exact ⟨t, t', rfl, rfl, eq_of_beq hcut, eq_of_beq hwhole,
        begins_of_collect (by decide) (by decide) ht ht'⟩

/-! ### Errors -/

theorem Image.exists_instrAt_iff (img : Image) (a : Word) :
    (∃ i, img.instrAt a = .ok i) ↔ a.toNat % 4 = 0 ∧ img.contains a 4 = true := by
  constructor
  · rintro ⟨i, hi⟩
    unfold instrAt at hi
    split at hi
    · cases hi
    · rename_i ha
      rw [img.contains_eq]
      cases hw : img.word? a with
      | none =>
        rw [hw] at hi
        cases hi
      | some w => exact ⟨Decidable.not_not.mp ha, rfl⟩
  · rintro ⟨ha, hin⟩
    obtain ⟨i, hi, -⟩ := instrAt_ok hin ha
    exact ⟨i, hi⟩

/-- Collection fails only at its entry: outside the image, or between two words if anything is to
be read there at all. Behind it every word that lies in the image is read. -/
theorem Trace.fails_at_entry_only (limits : Limits) (img : Image) (entry : Word) :
    (∀ e, Trace.collect limits img entry = .error e ↔
      (e = .entryOutsideImage entry ∧ img.contains entry 4 = false) ∨
      (e = .misaligned entry ∧ img.contains entry 4 = true ∧ entry.toNat % 4 ≠ 0 ∧
        limits.maxInstructions ≠ 0 ∧ limits.maxBytes ≠ 0)) ∧
    ∀ a, (∃ i, img.instrAt a = .ok i) ↔ a.toNat % 4 = 0 ∧ img.contains a 4 = true := by
  refine ⟨fun e => ?_, img.exists_instrAt_iff⟩
  cases hin : img.contains entry 4 with
  | false =>
    have houtside : Trace.collect limits img entry = .error (.entryOutsideImage entry) := by
      rw [Trace.collect, hin]
      rfl
    rw [houtside, Except.error.injEq]
    simp only [and_true, Bool.false_eq_true, false_and, and_false, or_false]
    exact eq_comm
  | true =>
    by_cases ha : entry.toNat % 4 = 0
    · obtain ⟨t, ht, -⟩ := collect_ok limits hin ha
      rw [ht]
      simp [ha]
    · by_cases hl : limits.maxInstructions = 0 ∨ limits.maxBytes = 0
      · obtain ⟨t, ht, -⟩ := collect_empty hin hl
        rw [ht]
        simp only [reduceCtorEq, and_false, false_or, false_iff, not_and]
        intro _ _ _ hi hb
        exact hl.elim hi hb
      · rw [not_or] at hl
        rw [collect_misaligned hin hl.1 hl.2 ha, Except.error.injEq]
        simp only [reduceCtorEq, and_false, false_or, true_and]
        exact ⟨fun h => ⟨h.symm, ha, hl⟩, fun h => h.1.symm⟩

end Dynarec.Guest
