import Dynarec.Guest.Trace.Collect
import Dynarec.Proofs.Guest.Decode

/-! # What collected traces are like

The blocks of a trace stand one behind the other from the entry on. Each is a run of consecutive
instructions, of which only the last can be a branch, and it is a loop end exactly if the last
one branches back. -/

namespace Dynarec.Guest

/-! ### Consecutive instructions -/

/-- Instructions one behind the other, from address `a` to address `z`. -/
def Consecutive (a : Word) : List Instr → Word → Prop
  | [], z => a = z
  | i :: is, z => i.address = a ∧ Consecutive i.nextPc is z

theorem Consecutive.append {a m z : Word} {is js : List Instr} (h : Consecutive a is m)
    (h' : Consecutive m js z) : Consecutive a (is ++ js) z := by
  induction is generalizing a with
  | nil =>
    cases h
    exact h'
  | cons i is ih => exact ⟨h.1, ih h.2⟩

theorem Consecutive.of_append {a z : Word} {is js : List Instr} (h : Consecutive a (is ++ js) z) :
    ∃ m, Consecutive a is m ∧ Consecutive m js z := by
  induction is generalizing a with
  | nil => exact ⟨a, rfl, h⟩
  | cons i is ih =>
    obtain ⟨m, hm, hz⟩ := ih h.2
    exact ⟨m, ⟨h.1, hm⟩, hz⟩

theorem Instr.Regular.nextPc {i : Instr} (h : i.Regular) : i.nextPc = i.address + 4 := by
  simp only [Instr.nextPc, Instr.size, h.wide, Bool.false_eq_true, if_false]
  rfl

theorem Instr.Regular.pcReadValue {i : Instr} (h : i.Regular) : i.pcReadValue = i.address + 8 := by
  simp only [Instr.pcReadValue, h.wide, Bool.false_eq_true, if_false]

/-- The `k`-th of consecutive instructions stands `4 * k` bytes behind the first. -/
theorem Consecutive.address_eq {a z : Word} {is : List Instr} (h : Consecutive a is z)
    (hr : ∀ i ∈ is, i.Regular) {k : Nat} {i : Instr} (hk : is[k]? = some i) :
    i.address = a + BitVec.ofNat 32 (4 * k) := by
  induction is generalizing a k with
  | nil => cases hk
  | cons j is ih =>
    cases k with
    | zero =>
      cases hk
      rw [h.1, Nat.mul_zero, BitVec.add_zero]
    | succ k =>
      have hj := hr j List.mem_cons_self
      have := ih h.2 (fun i hi => hr i (List.mem_cons_of_mem _ hi)) hk
      rw [this, hj.nextPc, h.1]
      have h4 : (4 : Word) = BitVec.ofNat 32 4 := rfl
      rw [BitVec.add_assoc, h4, ← BitVec.ofNat_add, Nat.mul_succ, Nat.add_comm 4]

/-! ### Chains of blocks -/

/-- A block from its start to address `z`, as it is collected. -/
structure Block.Sound (b : Block) (z : Word) : Prop where
  run : Consecutive b.start b.instrs.toList z
  last : ∃ init i, b.instrs.toList = init ++ [i] ∧ (∀ j ∈ init, j.flags.branch = false) ∧
    b.isLoopEnd = Scan.isBackward i

/-- Blocks one behind the other, from address `a` to address `z`. -/
def Chain (a : Word) : List Block → Word → Prop
  | [], z => a = z
  | b :: bs, z => b.start = a ∧ ∃ m, b.Sound m ∧ Chain m bs z

theorem Chain.snoc {a m z : Word} {bs : List Block} {b : Block} (h : Chain a bs m)
    (hb : b.start = m) (hs : b.Sound z) : Chain a (bs ++ [b]) z := by
  induction bs generalizing a with
  | nil => exact ⟨hb.trans (Eq.symm h), z, hs, rfl⟩
  | cons c bs ih =>
    obtain ⟨hc, n, hn, hrest⟩ := h
    exact ⟨hc, n, hn, ih hrest⟩

theorem Block.Sound.finish_eq {b : Block} {z : Word} (h : b.Sound z) : b.finish = z := by
  obtain ⟨init, i, hi, -, -⟩ := h.last
  have hrun := h.run
  rw [hi] at hrun
  obtain ⟨m, -, -, hz⟩ := hrun.of_append
  have hback : b.instrs.back? = some i := by
    rw [← Array.getLast?_toList, hi, List.getLast?_append, List.getLast?_singleton, Option.some_or]
  rw [Block.finish, hback]
  exact hz

/-- The instructions of a chain are consecutive. -/
theorem Chain.consecutive {a z : Word} {bs : List Block} (h : Chain a bs z) :
    Consecutive a (bs.flatMap (·.instrs.toList)) z := by
  induction bs generalizing a with
  | nil => exact h
  | cons b bs ih =>
    obtain ⟨hb, m, hs, hrest⟩ := h
    rw [List.flatMap_cons]
    exact (hb ▸ hs.run).append (ih hrest)

/-! ### Scans -/

namespace Scan

/-- All instructions read so far. -/
def instrs (s : Scan) : List Instr :=
  s.done.toList.flatMap (·.instrs.toList) ++ s.block.instrs.toList

theorem instrs_cut (s : Scan) (a : Word) : (s.cut a).instrs = s.instrs := by
  simp only [instrs, cut, Array.toList_push, List.flatMap_append, List.flatMap_cons,
    List.flatMap_nil, List.append_nil]

theorem instrs_enter (s : Scan) (a : Word) : (s.enter a).instrs = s.instrs := by
  unfold enter
  split
  · exact instrs_cut s a
  · rfl

theorem instrs_append (s : Scan) (i : Instr) : (s.append i).instrs = s.instrs ++ [i] := by
  simp only [instrs, append, Array.toList_push, List.append_assoc]

theorem instrs_leave (s : Scan) (i : Instr) : (s.leave i).instrs = s.instrs := by
  unfold leave
  split
  · exact instrs_cut _ _
  · rfl

theorem instrs_step (s : Scan) (i : Instr) : (s.step i).instrs = s.instrs ++ [i] := by
  rw [step, instrs_leave, instrs_append, instrs_enter]

theorem instrs_blocks (s : Scan) : s.blocks.toList.flatMap (·.instrs.toList) = s.instrs := by
  unfold blocks instrs
  split
  · rename_i h
    rw [Block.isEmpty, Array.isEmpty_iff] at h
    rw [h, Array.toList_empty, List.append_nil]
  · simp only [Array.toList_push, List.flatMap_append, List.flatMap_cons, List.flatMap_nil,
      List.append_nil]

/-- What holds between two instructions: closed blocks form a chain, and the open one has no
branch yet. -/
structure Inv (entry address : Word) (s : Scan) : Prop where
  chain : Chain entry s.done.toList s.block.start
  run : Consecutive s.block.start s.block.instrs.toList address
  plain : ∀ i ∈ s.block.instrs.toList, i.flags.branch = false
  noLoop : s.block.isLoopEnd = false

theorem isBackward_of_plain {i : Instr} (h : i.Regular) (hb : i.flags.branch = false) :
    isBackward i = false := by
  have hkind := h.branch.symm.trans hb
  unfold isBackward
  cases hk : i.kind with
  | branch t =>
    rw [hk] at hkind
    cases hkind
  | _ => rfl

/-- An open block that has instructions is as sound as a closed one. -/
theorem Inv.sound {entry address : Word} {s : Scan} (h : Inv entry address s)
    (hr : ∀ i ∈ s.block.instrs.toList, i.Regular) (hn : s.block.isEmpty = false) :
    s.block.Sound address := by
  refine ⟨h.run, ?_⟩
  have hne : s.block.instrs.toList ≠ [] := by
    intro hnil
    rw [Block.isEmpty, Array.isEmpty_eq_false_iff] at hn
    exact hn (Array.toList_eq_nil_iff.mp hnil)
  obtain ⟨init, i, hi⟩ := List.eq_nil_or_concat s.block.instrs.toList |>.resolve_left hne
  rw [List.concat_eq_append] at hi
  have hmem : i ∈ s.block.instrs.toList := hi ▸ List.mem_append_right _ List.mem_cons_self
  refine ⟨init, i, hi, fun j hj => h.plain j (hi ▸ List.mem_append_left _ hj), ?_⟩
  rw [h.noLoop, isBackward_of_plain (hr i hmem) (h.plain i hmem)]

theorem Inv.enter {entry address : Word} {s : Scan} (h : Inv entry address s)
    (hr : ∀ i ∈ s.block.instrs.toList, i.Regular) : Inv entry address (s.enter address) := by
  unfold Scan.enter
  split
  · rename_i hc
    simp only [Bool.and_eq_true, Bool.not_eq_true'] at hc
    have hs := h.sound hr hc.2
    have hchain := h.chain.snoc rfl hs
    refine ⟨?_, rfl, fun i hi => absurd hi List.not_mem_nil, rfl⟩
    simp only [cut, Array.toList_push]
    exact hchain
  · exact h

/-- One instruction keeps the invariant. -/
theorem Inv.step {entry address : Word} {s : Scan} (h : Inv entry address s)
    (hr : ∀ i ∈ s.block.instrs.toList, i.Regular) {i : Instr} (hi : i.address = address) :
    Inv entry i.nextPc (s.step i) := by
  have he := h.enter hr
  rw [← hi] at he
  have hrun : Consecutive ((s.enter i.address).append i).block.start
      ((s.enter i.address).append i).block.instrs.toList i.nextPc := by
    simp only [Scan.append, Array.toList_push]
    exact he.run.append ⟨rfl, rfl⟩
  unfold Scan.step Scan.leave
  split
  · have hsound : Block.Sound
        { ((s.enter i.address).append i).block with isLoopEnd := isBackward i } i.nextPc := by
      refine ⟨hrun, (s.enter i.address).block.instrs.toList, i, ?_, he.plain, rfl⟩
      simp only [Scan.append, Array.toList_push]
    refine ⟨?_, rfl, fun j hj => absurd hj List.not_mem_nil, rfl⟩
    simp only [cut, Array.toList_push]
    exact he.chain.snoc rfl hsound
  · rename_i hb
    refine ⟨he.chain, hrun, fun j hj => ?_, he.noLoop⟩
    simp only [Scan.append, Array.toList_push] at hj
    rcases List.mem_append.mp hj with hj | hj
    · exact he.plain j hj
    · rw [List.mem_singleton.mp hj]
      exact Bool.eq_false_iff.mpr hb

end Scan

/-! ### Reading -/

/-- The instruction is what the image holds at its address. -/
structure Image.Holds (img : Image) (i : Instr) : Prop where
  inside : img.contains i.address 4 = true
  aligned : i.address.toNat % 4 = 0
  decoded : ∃ w, img.word? i.address = some w ∧ i = decode w i.address

theorem Image.Holds.regular {img : Image} {i : Instr} (h : img.Holds i) : i.Regular := by
  obtain ⟨w, -, hi⟩ := h.decoded
  rw [hi]
  exact decode_regular w i.address

/-- Where four bytes lie in the image there is a word. -/
theorem Image.word?_of_contains {img : Image} {a : Word} (h : img.contains a 4 = true) :
    ∃ w, img.word? a = some w := by
  simp only [contains, Bool.and_eq_true, decide_eq_true_eq] at h
  unfold finish at h
  have hget : ∀ k < 4, ∃ b, img.bytes[a.toNat - img.base.toNat + k]? = some b := by
    intro k hk
    have hlt : a.toNat - img.base.toNat + k < img.bytes.size := by
      omega
    exact ⟨_, Array.getElem?_eq_getElem hlt⟩
  obtain ⟨b0, h0⟩ := hget 0 (by omega)
  obtain ⟨b1, h1⟩ := hget 1 (by omega)
  obtain ⟨b2, h2⟩ := hget 2 (by omega)
  obtain ⟨b3, h3⟩ := hget 3 (by omega)
  rw [Nat.add_zero] at h0
  refine ⟨Word.ofBytes b0 b1 b2 b3, ?_⟩
  simp only [word?, h.1, if_true, h0, h1, h2, h3, Option.bind_eq_bind, Option.bind_some]

/-- A word lies in the image exactly if it can be read. -/
theorem Image.contains_eq (img : Image) (a : Word) : img.contains a 4 = (img.word? a).isSome := by
  cases hw : img.word? a with
  | none =>
    refine Bool.eq_false_iff.mpr fun hin => ?_
    obtain ⟨w, hsome⟩ := word?_of_contains hin
    rw [hw] at hsome
    cases hsome
  | some w =>
    unfold word? at hw
    split at hw
    · rename_i hbase
      simp only [Option.bind_eq_bind, Option.bind_eq_some_iff] at hw
      obtain ⟨-, -, -, -, -, -, b₃, h₃, -⟩ := hw
      obtain ⟨hlt, -⟩ := Array.getElem?_eq_some_iff.mp h₃
      rw [contains, finish, Option.isSome_some, Bool.and_eq_true, decide_eq_true_iff,
        decide_eq_true_iff]
      omega
    · cases hw

/-- At an aligned address inside the image an instruction is read. -/
theorem Image.instrAt_ok {img : Image} {a : Word} (h : img.contains a 4 = true)
    (ha : a.toNat % 4 = 0) : ∃ i, img.instrAt a = .ok i ∧ i.address = a ∧ img.Holds i := by
  obtain ⟨w, hw⟩ := word?_of_contains h
  refine ⟨decode w a, ?_, rfl, h, ha, w, hw, rfl⟩
  simp only [instrAt, ha, ne_eq, not_true_eq_false, if_false, hw]

theorem Instr.Regular.aligned_nextPc {i : Instr} (h : i.Regular) (ha : i.address.toNat % 4 = 0) :
    i.nextPc.toNat % 4 = 0 := by
  have h4 : (4 : Word).toNat = 4 := rfl
  rw [h.nextPc, BitVec.toNat_add, h4]
  omega

namespace Scan

/-- Reading from an aligned address never fails, keeps the invariant, and reads consecutive
instructions within the limits. -/
theorem run_ok (img : Image) (entry maxBytes : Word) (budget : Nat) {address : Word} {s : Scan}
    (ha : address.toNat % 4 = 0) (h : Inv entry address s) (hr : ∀ i ∈ s.instrs, i.Regular) :
    ∃ s' truncated is z, run img entry maxBytes budget address s = .ok (s', truncated) ∧
      Inv entry z s' ∧ s'.instrs = s.instrs ++ is ∧ is.length ≤ budget ∧
      (∀ i ∈ is, img.Holds i ∧ (i.address - entry).toNat < maxBytes.toNat) ∧
      (is = [] → budget = 0 ∨ maxBytes.toNat ≤ (address - entry).toNat ∨
        img.contains address 4 = false) := by
  induction budget generalizing address s with
  | zero =>
    exact ⟨s, true, [], address, rfl, h, (List.append_nil _).symm, Nat.le_refl _,
      fun i hi => absurd hi List.not_mem_nil, fun _ => .inl rfl⟩
  | succ budget ih =>
    unfold run
    by_cases hstop : (maxBytes.toNat ≤ (address - entry).toNat || !img.contains address 4) = true
    · rw [if_pos hstop]
      refine ⟨s, true, [], address, rfl, h, (List.append_nil _).symm, Nat.zero_le _,
        fun i hi => absurd hi List.not_mem_nil, fun _ => .inr ?_⟩
      simpa using hstop
    · have hgo : (address - entry).toNat < maxBytes.toNat ∧ img.contains address 4 = true := by
        simpa using hstop
      obtain ⟨i, hi, rfl, hholds⟩ := Image.instrAt_ok hgo.2 ha
      have hreg := hholds.regular
      have hblock : ∀ j ∈ s.block.instrs.toList, j.Regular :=
        fun j hj => hr j (List.mem_append_right _ hj)
      have hstep := h.step hblock (i := i) rfl
      have hread : ∀ j ∈ [i], img.Holds j ∧ (j.address - entry).toNat < maxBytes.toNat := by
        intro j hj
        rw [List.mem_singleton.mp hj]
        exact ⟨hholds, hgo.1⟩
      rw [if_neg hstop, hi]
      show ∃ s' truncated is z, (if (s.step i).endsAfter i = true then _ else _) = _ ∧ _
      by_cases hend : (s.step i).endsAfter i = true
      · rw [if_pos hend]
        exact ⟨s.step i, false, [i], i.nextPc, rfl, hstep, instrs_step s i,
          Nat.succ_le_succ (Nat.zero_le _), hread, nofun⟩
      · rw [if_neg hend]
        have hr' : ∀ j ∈ (s.step i).instrs, j.Regular := by
          intro j hj
          rw [instrs_step] at hj
          rcases List.mem_append.mp hj with hj | hj
          · exact hr j hj
          · exact (hread j hj).1.regular
        obtain ⟨s', truncated, is, z, hrun, hinv, hins, hlen, hall, -⟩ :=
          ih (hreg.aligned_nextPc ha) hstep hr'
        refine ⟨s', truncated, i :: is, z, hrun, hinv, ?_, Nat.succ_le_succ hlen, fun j hj => ?_,
          nofun⟩
        · rw [hins, instrs_step, List.append_assoc, List.singleton_append]
        · rcases List.mem_cons.mp hj with rfl | hj
          · exact hread j List.mem_cons_self
          · exact hall j hj

end Scan

/-- Whether some instruction of a trace has a property. -/
theorem Trace.any_instrs (t : Trace) (f : Instr → Bool) :
    t.blocks.any (·.instrs.any f) = true ↔ ∃ i ∈ t.instrs, f i = true := by
  simp only [← Array.any_toList, List.any_eq_true, Trace.instrs, List.mem_flatMap]
  constructor
  · rintro ⟨b, hb, i, hi, hf⟩
    exact ⟨i, ⟨b, hb, hi⟩, hf⟩
  · rintro ⟨i, ⟨b, hb, hi⟩, hf⟩
    exact ⟨b, hb, i, hi, hf⟩

/-- What collection makes. -/
structure Trace.Collected (limits : Limits) (img : Image) (entry : Word) (t : Trace) : Prop where
  chain : ∃ z, Chain entry t.blocks.toList z
  holds : ∀ i ∈ t.instrs, img.Holds i
  near : ∀ i ∈ t.instrs, (i.address - entry).toNat < limits.maxBytes.toNat
  count : t.instrs.length ≤ limits.maxInstructions
  nonempty : t.instrs = [] → limits.maxInstructions = 0 ∨ limits.maxBytes = 0
  hostCall : t.hasHostCall =
    (t.blocks.any (·.instrs.any (·.flags.hostCall)) || t.blocks.any (·.isLoopEnd))
  skipContext : t.hasHostCallSkipContext = t.blocks.any (·.instrs.any (·.flags.hostCallSkipContext))

theorem Scan.Inv.chain_blocks {entry z : Word} {s : Scan} (h : Scan.Inv entry z s)
    (hr : ∀ i ∈ s.instrs, i.Regular) : ∃ z, Chain entry s.blocks.toList z := by
  unfold Scan.blocks
  cases he : s.block.isEmpty with
  | true => exact ⟨_, h.chain⟩
  | false =>
    have hs := h.sound (fun i hi => hr i (List.mem_append_right _ hi)) he
    refine ⟨z, ?_⟩
    simp only [Bool.false_eq_true, if_false, Array.toList_push]
    exact h.chain.snoc rfl hs

/-- From an aligned entry inside the image a trace is collected. -/
theorem Trace.collect_ok (limits : Limits) {img : Image} {entry : Word}
    (hin : img.contains entry 4 = true) (ha : entry.toNat % 4 = 0) :
    ∃ t, Trace.collect limits img entry = .ok t ∧ Collected limits img entry t := by
  have hinit : Scan.Inv entry entry { block := { start := entry } } :=
    ⟨rfl, rfl, fun i hi => absurd hi List.not_mem_nil, rfl⟩
  obtain ⟨s, truncated, is, z, hrun, hinv, hins, hlen, hall, hempty⟩ :=
    Scan.run_ok img entry limits.maxBytes limits.maxInstructions ha hinit
      (fun i hi => absurd hi List.not_mem_nil)
  have hins : s.instrs = is := hins
  have hr : ∀ i ∈ s.instrs, i.Regular := fun i hi => (hall i (hins ▸ hi)).1.regular
  have ht : ({ Trace.ofBlocks s.blocks with isTruncated := truncated } : Trace).instrs = is :=
    s.instrs_blocks.trans hins
  refine ⟨{ Trace.ofBlocks s.blocks with isTruncated := truncated }, ?_, ?_⟩
  · unfold Trace.collect
    rw [if_pos hin, hrun]
    rfl
  · refine ⟨hinv.chain_blocks hr, ?_, ?_, ?_, ?_, rfl, rfl⟩
    · intro i hi
      rw [ht] at hi
      exact (hall i hi).1
    · intro i hi
      rw [ht] at hi
      exact (hall i hi).2
    · rw [ht]
      exact hlen
    · intro hnil
      rw [ht] at hnil
      rcases hempty hnil with h | h | h
      · exact .inl h
      · rw [BitVec.sub_self, BitVec.toNat_zero, Nat.le_zero] at h
        exact .inr (BitVec.eq_of_toNat_eq h)
      · rw [hin] at h
        cases h

theorem Trace.Collected.regular {limits : Limits} {img : Image} {entry : Word} {t : Trace}
    (h : Collected limits img entry t) : ∀ b ∈ t.blocks.toList, ∀ i ∈ b.instrs.toList, i.Regular :=
  fun b hb i hi => (h.holds i (List.mem_flatMap.mpr ⟨b, hb, hi⟩)).regular

/-- A trace has no more words than the byte limit has room for. -/
theorem Trace.Collected.length_le {limits : Limits} {img : Image} {entry : Word} {t : Trace}
    (h : Collected limits img entry t) (hb : limits.maxBytes.toNat ≤ 0xFFFFFFFC) :
    t.instrs.length ≤ (limits.maxBytes.toNat + 3) / 4 := by
  obtain ⟨z, hz⟩ := h.chain
  have hrun : Consecutive entry t.instrs z := hz.consecutive
  refine Nat.le_of_not_lt fun hlt => ?_
  -- The first instruction past the limit would lie too far from the entry.
  have hget := List.getElem?_eq_getElem hlt
  have haddr := hrun.address_eq (fun i hi => (h.holds i hi).regular) hget
  have hnear := h.near _ (List.getElem_mem hlt)
  rw [haddr, BitVec.add_comm, BitVec.add_sub_cancel, BitVec.toNat_ofNat] at hnear
  omega

/-- Every block of a chain has an instruction. -/
theorem Chain.nonempty {a z : Word} {bs : List Block} (h : Chain a bs z) :
    ∀ b ∈ bs, 0 < b.instrs.size := by
  induction bs generalizing a with
  | nil => exact fun b hb => absurd hb List.not_mem_nil
  | cons c bs ih =>
    obtain ⟨-, m, hs, hrest⟩ := h
    intro b hb
    rcases List.mem_cons.mp hb with rfl | hb
    · obtain ⟨init, i, hi, -, -⟩ := hs.last
      rw [← Array.length_toList, hi, List.length_append, List.length_singleton]
      omega
    · exact ih hrest b hb

/-- Outside the limits nothing is read. -/
theorem Trace.collect_empty {limits : Limits} {img : Image} {entry : Word}
    (hin : img.contains entry 4 = true) (hl : limits.maxInstructions = 0 ∨ limits.maxBytes = 0) :
    ∃ t, Trace.collect limits img entry = .ok t ∧ t.blocks = #[] := by
  have hrun : Scan.run img entry limits.maxBytes limits.maxInstructions entry
      { block := { start := entry } } = .ok ({ block := { start := entry } }, true) := by
    rcases hl with hl | hl
    · rw [hl, Scan.run]
    · cases hm : limits.maxInstructions with
      | zero => rw [Scan.run]
      | succ budget =>
        have h0 : limits.maxBytes.toNat = 0 := congrArg BitVec.toNat hl
        rw [Scan.run, if_pos]
        simp only [h0, Nat.zero_le, decide_true, Bool.true_or]
  refine ⟨{ Trace.ofBlocks #[] with isTruncated := true }, ?_, rfl⟩
  unfold Trace.collect
  rw [if_pos hin, hrun]
  rfl

/-- At a misaligned entry the first read fails. -/
theorem Trace.collect_misaligned {limits : Limits} {img : Image} {entry : Word}
    (hin : img.contains entry 4 = true) (hi : limits.maxInstructions ≠ 0)
    (hb : limits.maxBytes ≠ 0) (ha : entry.toNat % 4 ≠ 0) :
    Trace.collect limits img entry = .error (.misaligned entry) := by
  obtain ⟨budget, hbudget⟩ := Nat.exists_eq_succ_of_ne_zero hi
  have hpos : 0 < limits.maxBytes.toNat := by
    refine Nat.pos_of_ne_zero fun h => hb (BitVec.eq_of_toNat_eq h)
  have hgo : ¬(limits.maxBytes.toNat ≤ (entry - entry).toNat || !img.contains entry 4) = true := by
    rw [BitVec.sub_self, BitVec.toNat_zero, hin]
    simp only [Bool.not_true, Bool.or_false, decide_eq_true_eq]
    omega
  have hread : img.instrAt entry = .error (.misaligned entry) := by
    simp only [Image.instrAt, ne_eq, ha, not_false_eq_true, if_true]
  unfold Trace.collect
  rw [if_pos hin, hbudget, Scan.run, if_neg hgo, hread]
  rfl

end Dynarec.Guest
