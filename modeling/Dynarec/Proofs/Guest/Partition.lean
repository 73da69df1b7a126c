import Mathlib.Data.List.Chain
import Dynarec.Proofs.Guest.Address

/-! # Traces as partitions

A trace is what the image holds from the entry on, word by word, and its blocks cut it exactly
where they have to: behind every branch, and before every forward target. -/

namespace Dynarec

/-! ### Bytes of words -/

theorem Word.getLsbD_ofBytes (b₀ b₁ b₂ b₃ : Byte) (j : Nat) :
    (Word.ofBytes b₀ b₁ b₂ b₃).getLsbD j =
      if j < 8 then b₀.getLsbD j else if j < 16 then b₁.getLsbD (j - 8)
      else if j < 24 then b₂.getLsbD (j - 16) else b₃.getLsbD (j - 24) := by
  have h₁ : j - 8 < 8 ↔ j < 16 := by omega
  have h₂ : j - 8 - 8 < 8 ↔ j < 24 := by omega
  have h₃ : j - 8 - 8 - 8 = j - 24 := by omega
  have h₄ : j - 8 - 8 = j - 16 := by omega
  unfold Word.ofBytes
  rw [BitVec.getLsbD_append, BitVec.getLsbD_append, BitVec.getLsbD_append]
  simp only [h₁, h₂, h₃]
  rw [h₄]

theorem Word.bytes_ofBytes (b₀ b₁ b₂ b₃ : Byte) :
    (Word.ofBytes b₀ b₁ b₂ b₃).bytes = [b₀, b₁, b₂, b₃] := by
  have hbyte : ∀ (j : Nat) (b : Byte),
      (∀ i < 8, (Word.ofBytes b₀ b₁ b₂ b₃).getLsbD (j + i) = b.getLsbD i) →
      (Word.ofBytes b₀ b₁ b₂ b₃).extractLsb' j 8 = b := by
    intro j b hb
    refine BitVec.eq_of_getLsbD_eq fun i hi => ?_
    rw [BitVec.getLsbD_extractLsb', decide_eq_true hi, Bool.true_and, hb i hi]
  have h₀ := hbyte 0 b₀ fun i hi => by
    rw [Word.getLsbD_ofBytes, Nat.zero_add, if_pos hi]
  have h₁ := hbyte 8 b₁ fun i hi => by
    rw [Word.getLsbD_ofBytes, if_neg (by omega), if_pos (by omega), Nat.add_sub_cancel_left]
  have h₂ := hbyte 16 b₂ fun i hi => by
    rw [Word.getLsbD_ofBytes, if_neg (by omega), if_neg (by omega), if_pos (by omega),
      Nat.add_sub_cancel_left]
  have h₃ := hbyte 24 b₃ fun i hi => by
    rw [Word.getLsbD_ofBytes, if_neg (by omega), if_neg (by omega), if_neg (by omega),
      Nat.add_sub_cancel_left]
  rw [Word.bytes, h₀, h₁, h₂, h₃]

end Dynarec

namespace Dynarec.Guest

/-! ### Targets -/

/-- The instruction is a direct branch to a later address, and no call. -/
def Instr.BranchesAhead (i : Instr) (a : Word) : Prop :=
  i.kind = .branch a ∧ i.address.toNat < a.toNat

/-- The instruction is a direct branch to itself or to an earlier address, and no call. -/
def Instr.BranchesBack (i : Instr) : Prop :=
  ∃ a, i.kind = .branch a ∧ a.toNat ≤ i.address.toNat

theorem Scan.forwardTarget?_eq_some {i : Instr} {a : Word} :
    forwardTarget? i = some a ↔ i.BranchesAhead a := by
  unfold forwardTarget? Instr.BranchesAhead
  cases i.kind with
  | branch t =>
    simp only [Option.ite_none_right_eq_some, Option.some.injEq, Kind.branch.injEq]
    constructor
    · rintro ⟨hlt, rfl⟩
      exact ⟨rfl, hlt⟩
    · rintro ⟨rfl, hlt⟩
      exact ⟨hlt, rfl⟩
  | _ =>
    refine ⟨fun h => ?_, fun h => ?_⟩
    · cases h
    · cases h.1

theorem Scan.isBackward_iff {i : Instr} : isBackward i = true ↔ i.BranchesBack := by
  unfold isBackward Instr.BranchesBack
  cases i.kind with
  | branch t =>
    rw [decide_eq_true_iff]
    constructor
    · exact fun hle => ⟨t, rfl, hle⟩
    · rintro ⟨a, ha, hle⟩
      cases ha
      exact hle
  | _ =>
    refine ⟨fun h => ?_, fun h => ?_⟩
    · cases h
    · obtain ⟨a, ha, -⟩ := h
      cases ha

namespace Decode

variable {w a t : Word} {b : Body}

theorem dataSpace?_ne_branch (h : dataSpace? w = some b) : b.kind ≠ .branch t := by
  unfold dataSpace? at h
  split at h
  · unfold miscellaneous? at h
    split at h
    · cases h
      exact Kind.noConfusion
    · split at h
      · cases h
        exact Kind.noConfusion
      · split at h <;> cases h
        exact Kind.noConfusion
  · split at h
    · cases h
      exact Kind.noConfusion
    · unfold dataProcessing? at h
      simp only [Option.bind_eq_bind, Option.bind_eq_some_iff] at h
      obtain ⟨⟨operand, rotated⟩, -, h⟩ := h
      dsimp only at h
      split at h
      · cases h
      · obtain ⟨⟨name, k⟩, hk, h⟩ := Option.bind_eq_some_iff.mp h
        cases h
        rcases operation?_kind hk with ⟨op, -, rfl⟩ | ⟨-, ⟨op, rfl⟩ | ⟨negate, rfl⟩⟩
        · exact Kind.noConfusion
        · exact Kind.noConfusion
        · exact Kind.noConfusion

/-- The displacement of a branch counts words. -/
theorem branch_aligned (h : (branch w a).kind = .branch t) : t.toNat % 4 = a.toNat % 4 := by
  unfold branch at h
  dsimp only at h
  split at h
  · cases h
  · cases h
    have h8 : BitVec.toNat ((8 : Nat) : Word) = 8 := rfl
    rw [BitVec.toNat_add, BitVec.toNat_add, BitVec.toNat_shiftLeft, Nat.shiftLeft_eq, h8]
    omega

theorem body?_aligned (h : body? w a = some b) (hk : b.kind = .branch t) :
    t.toNat % 4 = a.toNat % 4 := by
  unfold body? at h
  split at h
  · exact absurd hk (dataSpace?_ne_branch h)
  · exact absurd hk (dataSpace?_ne_branch h)
  · cases h
    exact branch_aligned hk
  · unfold timer? at h
    dsimp only at h
    split at h <;> cases h
    cases hk
  · unfold callSpace? at h
    split at h
    · cases h
      cases hk
    · split at h <;> cases h
      cases hk
  · cases h

end Decode

/-- A branch and its target are equally far from a word boundary. -/
theorem decode_aligned {w a t : Word} (h : (decode w a).kind = .branch t) :
    t.toNat % 4 = a.toNat % 4 := by
  unfold decode at h
  cases hc : Cond.ofCode? (Decode.field w 28 4) with
  | none =>
    rw [hc] at h
    cases h
  | some c =>
    cases hb : Decode.body? w a with
    | none =>
      rw [hc, hb] at h
      cases h
    | some b =>
      rw [hc, hb] at h
      exact Decode.body?_aligned hb h

/-! ### Words of an image -/

/-- The image has the bytes of `w` from address `a` on, the lowest first. -/
def Image.Stores (img : Image) (a : Nat) (w : Word) : Prop :=
  img.base.toNat ≤ a ∧ ∀ k < 4, img.bytes[a - img.base.toNat + k]? = w.bytes[k]?

theorem Image.stores_of_word? {img : Image} {a w : Word} (h : img.word? a = some w) :
    img.Stores a.toNat w := by
  unfold word? at h
  split at h
  · rename_i hbase
    simp only [Option.bind_eq_bind, Option.bind_eq_some_iff, Option.some.injEq] at h
    obtain ⟨b₀, h₀, b₁, h₁, b₂, h₂, b₃, h₃, rfl⟩ := h
    refine ⟨hbase, fun k hk => ?_⟩
    rw [Word.bytes_ofBytes]
    obtain rfl | rfl | rfl | rfl : k = 0 ∨ k = 1 ∨ k = 2 ∨ k = 3 := by omega
    · exact h₀
    · exact h₁
    · exact h₂
    · exact h₃
  · cases h

/-! ### Cuts -/

/-- Why a block starts behind block `b`: an instruction branches ahead to it, or `b` ends in a
branch. -/
def Caused (is : List Instr) (b c : Block) : Prop :=
  (∃ i ∈ is, i.BranchesAhead c.start) ∨ ∃ i, b.instrs.back? = some i ∧ i.flags.branch = true

theorem Caused.mono {is js : List Instr} {b c : Block} (h : Caused is b c) :
    Caused (is ++ js) b c := by
  refine h.imp ?_ id
  rintro ⟨i, hi, hahead⟩
  exact ⟨i, List.mem_append_left _ hi, hahead⟩

namespace Scan

/-- All blocks so far, the open one last. -/
def opened (s : Scan) : List Block := s.done.toList ++ [s.block]

theorem opened_cut (s : Scan) (a : Word) : (s.cut a).opened = s.opened ++ [{ start := a }] := by
  simp only [opened, cut, Array.toList_push]

/-- Between two instructions the targets are known, and the blocks are cut where they have to. -/
structure Cuts (s : Scan) : Prop where
  noted : ∀ a, a ∈ s.targets ↔ ∃ i ∈ s.instrs, i.BranchesAhead a
  starts : ∀ i ∈ s.instrs, i.address ∈ s.targets → ∃ b ∈ s.opened, b.start = i.address
  causes : s.opened.IsChain (Caused s.instrs)

theorem Cuts.cut {s : Scan} (h : s.Cuts) {a : Word} (ha : Caused s.instrs s.block { start := a }) :
    (s.cut a).Cuts := by
  refine ⟨?_, ?_, ?_⟩
  · rw [instrs_cut]
    exact h.noted
  · rw [instrs_cut]
    intro i hi ht
    obtain ⟨b, hb, hstart⟩ := h.starts i hi ht
    refine ⟨b, ?_, hstart⟩
    rw [opened_cut]
    exact List.mem_append_left _ hb
  · rw [instrs_cut, opened_cut]
    refine h.causes.append (List.isChain_singleton _) fun b hb c hc => ?_
    rw [opened, List.getLast?_concat] at hb
    cases hb
    cases hc
    exact ha

variable {entry address : Word} {s : Scan}

theorem Cuts.enter (h : s.Cuts) (a : Word) : (s.enter a).Cuts := by
  unfold Scan.enter
  split
  · rename_i hc
    rw [Bool.and_eq_true, List.contains_iff_mem] at hc
    exact h.cut (.inl ((h.noted a).mp hc.1))
  · exact h

theorem targets_enter (s : Scan) (a : Word) : (s.enter a).targets = s.targets := by
  unfold Scan.enter
  split <;> rfl

/-- An address that is a target starts a block. -/
theorem Inv.start_enter (h : Inv entry address s) (ht : address ∈ s.targets) :
    (s.enter address).block.start = address := by
  unfold Scan.enter
  cases he : s.block.isEmpty with
  | false =>
    rw [if_pos]
    · rfl
    · rw [Bool.and_eq_true, List.contains_iff_mem]
      exact ⟨ht, rfl⟩
  | true =>
    rw [if_neg]
    · have hrun := h.run
      rw [Array.isEmpty_iff.mp he] at hrun
      exact hrun
    · rw [Bool.and_eq_true]
      exact fun hc => absurd hc.2 Bool.false_ne_true

/-- Everything read so far lies below the address that is read next. -/
theorem Inv.below (h : Inv entry address s) (hl : ∀ i ∈ s.instrs, i.Low) :
    ∀ i ∈ s.instrs, i.address.toNat < address.toNat :=
  (h.chain.consecutive.append h.run).below hl

/-- The open block may change, but for its start. -/
theorem opened_of_start {r s : Scan} (hd : r.done = s.done)
    (hs : r.block.start = s.block.start) :
    (∀ b ∈ s.opened, ∃ c ∈ r.opened, c.start = b.start) ∧
      ∀ is, s.opened.IsChain (Caused is) → r.opened.IsChain (Caused is) := by
  unfold opened
  rw [hd]
  refine ⟨fun b hb => ?_, fun is h => ?_⟩
  · rcases List.mem_append.mp hb with hb | hb
    · exact ⟨b, List.mem_append_left _ hb, rfl⟩
    · rw [List.mem_singleton.mp hb]
      exact ⟨r.block, List.mem_append_right _ List.mem_cons_self, hs⟩
  · obtain ⟨hdone, -, hlast⟩ := List.isChain_append.mp h
    refine List.IsChain.append hdone (List.isChain_singleton _) fun b hb c hc => ?_
    cases hc
    have hcaused := hlast b hb s.block rfl
    unfold Caused at hcaused ⊢
    rw [hs]
    exact hcaused

/-- Reading one more instruction, all others being below it. -/
theorem Cuts.append (h : s.Cuts) {i : Instr}
    (hbelow : ∀ j ∈ s.instrs, j.address.toNat < i.address.toNat)
    (hstart : i.address ∈ s.targets → s.block.start = i.address) : (s.append i).Cuts := by
  obtain ⟨hstarts, hcauses⟩ := opened_of_start (s := s) (r := s.append i) rfl rfl
  have hmem : ∀ a, a ∈ (s.append i).targets ↔ i.BranchesAhead a ∨ a ∈ s.targets := by
    intro a
    rw [← forwardTarget?_eq_some, ← Option.mem_toList]
    exact List.mem_append
  refine ⟨fun a => ?_, fun j hj ht => ?_, ?_⟩
  · rw [hmem, h.noted, instrs_append]
    simp only [List.mem_append, List.mem_singleton, or_and_right, exists_or, exists_eq_left]
    exact or_comm
  · rw [instrs_append, List.mem_append, List.mem_singleton] at hj
    have hle : j.address.toNat ≤ i.address.toNat := by
      rcases hj with hj | rfl
      · exact Nat.le_of_lt (hbelow j hj)
      · exact Nat.le_refl _
    have hold : j.address ∈ s.targets := by
      refine ((hmem _).mp ht).resolve_left fun hahead => ?_
      exact absurd hahead.2 (Nat.not_lt.mpr hle)
    have hopened : ∃ b ∈ s.opened, b.start = j.address := by
      rcases hj with hj | rfl
      · exact h.starts j hj hold
      · exact ⟨s.block, List.mem_append_right _ List.mem_cons_self, hstart hold⟩
    obtain ⟨b, hb, hb'⟩ := hopened
    rw [← hb']
    exact hstarts b hb
  · rw [instrs_append]
    exact hcauses _ (h.causes.imp fun _ _ => Caused.mono)

/-- One instruction keeps the cuts where they have to be. -/
theorem Cuts.step (h : s.Cuts) (hinv : Inv entry address s) (hl : ∀ i ∈ s.instrs, i.Low)
    {i : Instr} (hi : i.address = address) : (s.step i).Cuts := by
  subst hi
  have happend : ((s.enter i.address).append i).Cuts := by
    refine (h.enter i.address).append ?_ fun ht => ?_
    · rw [instrs_enter]
      exact hinv.below hl
    · rw [targets_enter] at ht
      exact hinv.start_enter ht
  unfold Scan.step Scan.leave
  split
  · rename_i hbranch
    obtain ⟨hstarts, hcauses⟩ := opened_of_start (s := (s.enter i.address).append i)
      (r := { (s.enter i.address).append i with
        block := { ((s.enter i.address).append i).block with isLoopEnd := isBackward i } }) rfl rfl
    refine Cuts.cut (s := { (s.enter i.address).append i with
        block := { ((s.enter i.address).append i).block with isLoopEnd := isBackward i } })
      ⟨happend.noted, fun j hj ht => ?_, hcauses _ happend.causes⟩ (.inr ⟨i, ?_, hbranch⟩)
    · obtain ⟨b, hb, hb'⟩ := happend.starts j hj ht
      rw [← hb']
      exact hstarts b hb
    · exact Array.back?_push ..
  · exact happend

/-- How an image is read on from an address with a budget of instructions: up to a limit, or up to
an instruction behind which reading ends. -/
inductive Reading (img : Image) (entry maxBytes : Word) : Nat → Word → Scan → Scan → Bool → Prop
  | limit {budget : Nat} {address : Word} {s : Scan}
    (hstop : budget = 0 ∨ maxBytes.toNat ≤ (address - entry).toNat ∨
      img.contains address 4 = false) :
    Reading img entry maxBytes budget address s s true
  | last {budget : Nat} {s : Scan} {i : Instr} (hi : img.Holds i)
    (hend : (s.step i).endsAfter i = true) :
    Reading img entry maxBytes (budget + 1) i.address s (s.step i) false
  | next {budget : Nat} {s s' : Scan} {truncated : Bool} {i : Instr} (hi : img.Holds i)
    (hgo : (s.step i).endsAfter i = false)
    (hrest : Reading img entry maxBytes budget i.nextPc (s.step i) s' truncated) :
    Reading img entry maxBytes (budget + 1) i.address s s' truncated

theorem reading_of_run {img : Image} {maxBytes : Word} {budget : Nat} {address : Word}
    {s s' : Scan} {truncated : Bool}
    (h : run img entry maxBytes budget address s = .ok (s', truncated)) :
    Reading img entry maxBytes budget address s s' truncated := by
  induction budget generalizing address s with
  | zero =>
    cases h
    exact .limit (.inl rfl)
  | succ budget ih =>
    unfold run at h
    split at h
    · rename_i hstop
      cases h
      refine .limit (.inr ?_)
      simpa using hstop
    · rename_i hgo
      have hin : img.contains address 4 = true := by
        simp only [Bool.or_eq_true, Bool.not_eq_true', not_or, Bool.not_eq_false] at hgo
        exact hgo.2
      by_cases ha : address.toNat % 4 = 0
      · obtain ⟨i, hi, rfl, hholds⟩ := Image.instrAt_ok hin ha
        rw [hi] at h
        have h : (if (s.step i).endsAfter i = true then .ok (s.step i, false)
            else run img entry maxBytes budget i.nextPc (s.step i)) = .ok (s', truncated) := h
        split at h
        · rename_i hend
          cases h
          exact .last hholds hend
        · rename_i hend
          exact .next hholds (eq_false_of_ne_true hend) (ih h)
      · rw [Image.instrAt, if_pos ha] at h
        cases h

/-- What each instruction read preserves holds in the end. -/
theorem run_induct {img : Image} {maxBytes : Word} {P : Word → Scan → Prop}
    (hstep : ∀ {s i}, P i.address s → img.Holds i → P i.nextPc (s.step i)) {budget : Nat}
    {address : Word} {s s' : Scan} {truncated : Bool}
    (h : run img entry maxBytes budget address s = .ok (s', truncated)) (hP : P address s) :
    ∃ z, P z s' := by
  have hread := reading_of_run h
  clear h
  induction hread with
  | limit => exact ⟨_, hP⟩
  | last hi => exact ⟨_, hstep hP hi⟩
  | next hi _ _ ih => exact ih (hstep hP hi)

/-- What holds between two instructions of an image. -/
structure Kept (img : Image) (entry address : Word) (s : Scan) : Prop where
  inv : Inv entry address s
  holds : ∀ i ∈ s.instrs, img.Holds i
  cuts : s.Cuts

theorem Kept.step {img : Image} (hf : img.finish < wordCount) {i : Instr}
    (h : Kept img entry i.address s) (hi : img.Holds i) : Kept img entry i.nextPc (s.step i) := by
  refine ⟨?_, fun j hj => ?_, ?_⟩
  · exact h.inv.step (fun j hj => (h.holds j (List.mem_append_right _ hj)).regular) rfl
  · rw [instrs_step] at hj
    rcases List.mem_append.mp hj with hj | hj
    · exact h.holds j hj
    · rw [List.mem_singleton.mp hj]
      exact hi
  · exact h.cuts.step h.inv (fun j hj => (h.holds j hj).low hf) rfl

theorem kept_initial (img : Image) (entry : Word) :
    Kept img entry entry { block := { start := entry } } := by
  refine ⟨⟨rfl, rfl, ?_, rfl⟩, ?_, ⟨?_, ?_, List.isChain_singleton _⟩⟩
  · exact fun i hi => absurd hi List.not_mem_nil
  · exact fun i hi => absurd hi List.not_mem_nil
  · refine fun a => ⟨fun ha => absurd ha List.not_mem_nil, ?_⟩
    rintro ⟨i, hi, -⟩
    exact absurd hi List.not_mem_nil
  · exact fun i hi => absurd hi List.not_mem_nil

section Read

variable {img : Image} (hf : img.finish < wordCount) (h : Kept img entry address s)

include h

theorem Kept.consecutive : Consecutive entry s.instrs address :=
  h.inv.chain.consecutive.append h.inv.run

include hf

theorem Kept.low : ∀ i ∈ s.instrs, i.Low := fun i hi => (h.holds i hi).low hf

theorem Kept.toNat_address {k : Nat} {i : Instr} (hk : s.instrs[k]? = some i) :
    i.address.toNat = entry.toNat + 4 * k := by
  obtain ⟨hlt, hi⟩ := List.getElem?_eq_some_iff.mp hk
  have hsplit : s.instrs = s.instrs.take k ++ i :: s.instrs.drop (k + 1) := by
    rw [← hi, List.getElem_cons_drop, List.take_append_drop]
  have hall := h.consecutive
  rw [hsplit] at hall
  rw [hall.toNat_address fun j hj => h.low hf j (List.mem_of_mem_take hj),
    List.length_take_of_le (Nat.le_of_lt hlt)]

/-- The instructions are those of the words from the entry on, one after the other. -/
theorem Kept.words {k : Nat} {i : Instr} (hk : s.instrs[k]? = some i) :
    ∃ w, img.Stores (entry.toNat + 4 * k) w ∧ i = decode w (entry + BitVec.ofNat 32 (4 * k)) := by
  obtain ⟨w, hw, hi⟩ := (h.holds i (List.mem_of_getElem? hk)).decoded
  have haddress := h.consecutive.address_eq (fun j hj => (h.holds j hj).regular) hk
  refine ⟨w, ?_, ?_⟩
  · rw [← h.toNat_address hf hk]
    exact Image.stores_of_word? hw
  · rw [← haddress]
    exact hi

theorem Kept.fits (hin : img.contains entry 4 = true) :
    entry.toNat + 4 * s.instrs.length ≤ img.finish := by
  have hinside : ∀ a : Word, img.contains a 4 = true → a.toNat + 4 ≤ img.finish := by
    intro a ha
    rw [Image.contains, Bool.and_eq_true] at ha
    exact of_decide_eq_true ha.2
  rcases Nat.eq_zero_or_pos s.instrs.length with hz | hpos
  · have hentry := hinside entry hin
    omega
  · have hlast := List.getElem?_eq_getElem (Nat.sub_one_lt_of_lt hpos)
    have haddress := h.toNat_address hf hlast
    have hend := hinside _ (h.holds _ (List.mem_of_getElem? hlast)).inside
    omega

/-- An open block that is empty starts behind everything read. -/
theorem Kept.mem_blocks {i : Instr} (hi : i ∈ s.instrs) {b : Block} (hb : b ∈ s.opened)
    (hstart : b.start = i.address) : b ∈ s.blocks.toList := by
  have hbelow := h.inv.below (h.low hf) i hi
  unfold blocks
  cases he : s.block.isEmpty with
  | true =>
    refine (List.mem_append.mp hb).resolve_right fun hb => ?_
    have hrun := h.inv.run
    rw [Array.isEmpty_iff.mp he] at hrun
    have hrun : s.block.start = address := hrun
    rw [← hstart, List.mem_singleton.mp hb, hrun] at hbelow
    exact absurd hbelow (Nat.lt_irrefl _)
  | false =>
    simp only [Bool.false_eq_true, if_false, Array.toList_push]
    exact hb

/-- A forward target below the end is the address of an instruction, and so it starts a block. -/
theorem Kept.starts_block {i : Instr} (hi : i ∈ s.instrs) {a : Word} (ha : i.BranchesAhead a)
    (hlt : a.toNat < entry.toNat + 4 * s.instrs.length) : ∃ b ∈ s.blocks.toList, b.start = a := by
  obtain ⟨k, hk⟩ := List.mem_iff_getElem?.mp hi
  have haddress := h.toNat_address hf hk
  have haligned : a.toNat % 4 = i.address.toNat % 4 := by
    obtain ⟨w, -, hw⟩ := (h.holds i hi).decoded
    exact decode_aligned (w := w) (hw ▸ ha.1)
  have hahead := ha.2
  have hlt : (a.toNat - entry.toNat) / 4 < s.instrs.length := by omega
  have hget := List.getElem?_eq_getElem hlt
  have htarget : s.instrs[(a.toNat - entry.toNat) / 4].address = a := by
    refine BitVec.eq_of_toNat_eq ?_
    rw [h.toNat_address hf hget]
    omega
  have hmem := List.mem_of_getElem? hget
  have hnoted : s.instrs[(a.toNat - entry.toNat) / 4].address ∈ s.targets := by
    rw [htarget]
    exact (h.cuts.noted a).mpr ⟨i, hi, ha⟩
  obtain ⟨b, hb, hstart⟩ := h.cuts.starts _ hmem hnoted
  exact ⟨b, h.mem_blocks hf hmem hb hstart, hstart.trans htarget⟩

end Read

theorem Cuts.causes_blocks (h : s.Cuts) : s.blocks.toList.IsChain (Caused s.instrs) := by
  unfold blocks
  split
  · exact h.causes.left_of_append
  · rw [Array.toList_push]
    exact h.causes

end Scan

/-! ### Chains -/

theorem Chain.isChain_finish {a z : Word} {bs : List Block} (h : Chain a bs z) :
    bs.IsChain fun b c => c.start = b.finish := by
  induction bs generalizing a with
  | nil => exact List.isChain_nil
  | cons b bs ih =>
    obtain ⟨-, m, hs, hrest⟩ := h
    refine (ih hrest).cons fun c hc => ?_
    cases bs with
    | nil => cases hc
    | cons d bs =>
      cases hc
      rw [hs.finish_eq]
      exact hrest.1

theorem Chain.sound_of_mem {a z : Word} {bs : List Block} (h : Chain a bs z) {b : Block}
    (hb : b ∈ bs) : ∃ m, b.Sound m := by
  obtain ⟨pre, post, hsplit⟩ := List.append_of_mem hb
  exact (hsplit ▸ h).sound

theorem Block.Sound.plain_dropLast {b : Block} {z : Word} (h : b.Sound z) :
    ∀ i ∈ b.instrs.toList.dropLast, i.flags.branch = false := by
  obtain ⟨init, i, hi, hplain, -⟩ := h.last
  rw [hi, List.dropLast_concat]
  exact hplain

theorem Block.Sound.isLoopEnd_iff {b : Block} {z : Word} (h : b.Sound z) :
    b.isLoopEnd = true ↔ ∃ i, b.instrs.back? = some i ∧ i.BranchesBack := by
  obtain ⟨init, i, hi, -, hloop⟩ := h.last
  have hback : b.instrs.back? = some i := by
    rw [← Array.getLast?_toList, hi, List.getLast?_concat]
  rw [hloop, Scan.isBackward_iff, hback]
  simp only [Option.some.injEq, exists_eq_left']

/-! ### Partitions -/

/-- The trace is what the image holds from the entry on, cut into blocks. -/
structure Trace.Partitions (img : Image) (entry : Word) (t : Trace) : Prop where
  /-- The instructions are those of the words from the entry on, one after the other. -/
  words : ∀ k i, t.instrs[k]? = some i → ∃ w, img.Stores (entry.toNat + 4 * k) w ∧
    i = decode w (entry + BitVec.ofNat 32 (4 * k))
  fits : entry.toNat + 4 * t.instrs.length ≤ img.finish
  nonempty : ∀ b ∈ t.blocks.toList, b.instrs ≠ #[]
  first : ∀ b, t.blocks[0]? = some b → b.start = entry
  next : t.blocks.toList.IsChain fun b c => c.start = b.finish
  branches : ∀ i ∈ t.instrs, i.flags.branch = (i.kind.isControlTransfer || i.kind.writesPc)
  last : ∀ b ∈ t.blocks.toList, ∀ i ∈ b.instrs.toList.dropLast, i.flags.branch = false
  targets : ∀ i ∈ t.instrs, ∀ a, i.BranchesAhead a → a.toNat < entry.toNat + t.guestBytes →
    ∃ b ∈ t.blocks.toList, b.start = a
  causes : t.blocks.toList.IsChain (Caused t.instrs)
  loops : ∀ b ∈ t.blocks.toList,
    b.isLoopEnd = true ↔ ∃ i, b.instrs.back? = some i ∧ i.BranchesBack
  hostCall : t.hasHostCall = true ↔
    (∃ b ∈ t.blocks.toList, b.isLoopEnd = true) ∨ ∃ i ∈ t.instrs, i.kind.isCall = true
  skipContext : t.hasHostCallSkipContext = true ↔ ∃ i ∈ t.instrs, i.kind.isHelped = true

theorem Trace.hasHostCall_ofBlocks {blocks : Array Block} {truncated : Bool} {t : Trace}
    (ht : t = { Trace.ofBlocks blocks with isTruncated := truncated })
    (hr : ∀ i ∈ t.instrs, i.Regular) :
    (t.hasHostCall = true ↔
      (∃ b ∈ t.blocks.toList, b.isLoopEnd = true) ∨ ∃ i ∈ t.instrs, i.kind.isCall = true) ∧
    (t.hasHostCallSkipContext = true ↔ ∃ i ∈ t.instrs, i.kind.isHelped = true) := by
  have hkinds : ∀ f g : Instr → Bool, (∀ i, i.Regular → f i = g i) →
      ((∃ i ∈ t.instrs, f i = true) ↔ ∃ i ∈ t.instrs, g i = true) := by
    intro f g hfg
    refine exists_congr fun i => and_congr_right fun hi => ?_
    rw [hfg i (hr i hi)]
  constructor
  · have hcall : t.hasHostCall =
        (t.blocks.any (·.instrs.any (·.flags.hostCall)) || t.blocks.any (·.isLoopEnd)) := ht ▸ rfl
    rw [hcall, Bool.or_eq_true, any_instrs,
      hkinds (·.flags.hostCall) (·.kind.isCall) fun i h => h.hostCall, or_comm, ← Array.any_toList, List.any_eq_true]
  · have hskip : t.hasHostCallSkipContext =
        t.blocks.any (·.instrs.any (·.flags.hostCallSkipContext)) := ht ▸ rfl
    rw [hskip, any_instrs, hkinds (·.flags.hostCallSkipContext) (·.kind.isHelped) fun i h => h.helped]

theorem Trace.exists_run {limits : Limits} {img : Image} {entry : Word} {t : Trace}
    (h : Trace.collect limits img entry = .ok t) :
    ∃ s truncated, img.contains entry 4 = true ∧
      Scan.run img entry limits.maxBytes limits.maxInstructions entry
        { block := { start := entry } } = .ok (s, truncated) ∧
      t = { Trace.ofBlocks s.blocks with isTruncated := truncated } := by
  unfold Trace.collect at h
  split at h
  · rename_i hin
    cases hrun : Scan.run img entry limits.maxBytes limits.maxInstructions entry
        { block := { start := entry } } with
    | error e =>
      rw [hrun] at h
      cases h
    | ok r =>
      rw [hrun] at h
      exact ⟨r.1, r.2, hin, rfl, (Except.ok.inj h).symm⟩
  · cases h

/-- A trace is made of a scan of the image. -/
theorem Trace.exists_kept {limits : Limits} {img : Image} {entry : Word} {t : Trace}
    (hf : img.finish < wordCount) (h : Trace.collect limits img entry = .ok t) :
    ∃ s z truncated, Scan.Kept img entry z s ∧ img.contains entry 4 = true ∧
      t = { Trace.ofBlocks s.blocks with isTruncated := truncated } := by
  obtain ⟨s, truncated, hin, hrun, ht⟩ := exists_run h
  obtain ⟨z, hkept⟩ := Scan.run_induct (P := Scan.Kept img entry) (fun h => h.step hf) hrun
    (Scan.kept_initial img entry)
  exact ⟨s, z, truncated, hkept, hin, ht⟩

/-- Collected traces are partitions. -/
theorem Trace.partitions_of_collect {limits : Limits} {img : Image} {entry : Word} {t : Trace}
    (hf : img.finish < wordCount) (h : Trace.collect limits img entry = .ok t) :
    t.Partitions img entry := by
  obtain ⟨s, z, truncated, hkept, hin, ht⟩ := exists_kept hf h
  have hblocks : t.blocks = s.blocks := ht ▸ rfl
  have hinstrs : t.instrs = s.instrs := ht ▸ s.instrs_blocks
  have hregular : ∀ i ∈ t.instrs, i.Regular := fun i hi => (hkept.holds i (hinstrs ▸ hi)).regular
  obtain ⟨z', hchain⟩ := hkept.inv.chain_blocks fun i hi => (hkept.holds i hi).regular
  rw [← hblocks] at hchain
  obtain ⟨hhost, hskip⟩ := hasHostCall_ofBlocks ht hregular
  refine ⟨fun k i hk => ?_, ?_, fun b hb => ?_, fun b hb => ?_, hchain.isChain_finish, ?_,
    fun b hb => ?_, fun i hi a ha hlt => ?_, ?_, fun b hb => ?_, hhost, hskip⟩
  · exact hkept.words hf (hinstrs ▸ hk)
  · rw [hinstrs]
    exact hkept.fits hf hin
  · exact Array.size_pos_iff.mp (hchain.nonempty b hb)
  · rw [← Array.getElem?_toList] at hb
    cases hbs : t.blocks.toList with
    | nil =>
      rw [hbs] at hb
      cases hb
    | cons c bs =>
      rw [hbs] at hb hchain
      cases hb
      exact hchain.1
  · exact fun i hi => (hregular i hi).branch
  · obtain ⟨m, hm⟩ := hchain.sound_of_mem hb
    exact hm.plain_dropLast
  · rw [hblocks]
    rw [guestBytes_eq hregular, hinstrs] at hlt
    exact hkept.starts_block hf (hinstrs ▸ hi) ha hlt
  · rw [hblocks, hinstrs]
    exact hkept.cuts.causes_blocks
  · obtain ⟨m, hm⟩ := hchain.sound_of_mem hb
    exact hm.isLoopEnd_iff

/-- A loop with a way around an instruction: `beq`, `add` and a branch back. -/
def skippingImage : Image :=
  ⟨0x1000, #[0x00, 0x00, 0x00, 0x0A, 0x01, 0x00, 0x80, 0xE2, 0xFC, 0xFF, 0xFF, 0xEA]⟩

/-- The instruction that is passed over is a block of its own, and the last block ends the loop. -/
theorem Trace.partitions_of_collect_skipping : ∃ t, Trace.collect {} skippingImage 0x1000 = .ok t ∧
    t.Partitions skippingImage 0x1000 ∧
    t.blocks.toList.map (fun b => (b.start, b.isLoopEnd)) =
      [(0x1000, false), (0x1004, false), (0x1008, true)] := by
  have hread : (Trace.collect {} skippingImage 0x1000).toOption.any (fun t =>
      t.blocks.toList.map (fun b => (b.start, b.isLoopEnd)) ==
        [(0x1000, false), (0x1004, false), (0x1008, true)]) = true := by
    decide +kernel
  cases ht : Trace.collect {} skippingImage 0x1000 with
  | error e =>
    rw [ht] at hread
    cases hread
  | ok t =>
    rw [ht] at hread
    exact ⟨t, rfl, partitions_of_collect (by decide) ht, eq_of_beq hread⟩

end Dynarec.Guest
