import Dynarec.Proofs.Guest.Trace

/-! # Addresses in a trace

In an image that ends below the top of the address space, the addresses of a trace count up from
the entry without wrapping around: the instruction with `k` others before it stands `4 * k` bytes
behind the entry, and so does a block behind blocks of `k` instructions. -/

namespace Dynarec.Guest

/-- The instruction does not end at the top of the address space. -/
structure Instr.Low (i : Instr) : Prop where
  regular : i.Regular
  below : i.address.toNat + 4 < wordCount

theorem Image.Holds.low {img : Image} (hf : img.finish < wordCount) {i : Instr} (h : img.Holds i) :
    i.Low := by
  refine ⟨h.regular, ?_⟩
  have hin := h.inside
  simp only [contains, Bool.and_eq_true, decide_eq_true_eq] at hin
  omega

theorem Instr.Low.toNat_nextPc {i : Instr} (h : i.Low) : i.nextPc.toNat = i.address.toNat + 4 := by
  have hb := h.below
  have h4 : (4 : Word).toNat = 4 := rfl
  simp only [wordCount] at hb
  rw [h.regular.nextPc, BitVec.toNat_add, h4, Nat.mod_eq_of_lt (by omega)]

/-- Behind `n` consecutive instructions the address has grown by `4 * n`. -/
theorem Consecutive.toNat_finish {a z : Word} {is : List Instr} (h : Consecutive a is z)
    (hl : ∀ i ∈ is, i.Low) : z.toNat = a.toNat + 4 * is.length := by
  induction is generalizing a with
  | nil =>
    cases h
    rfl
  | cons i is ih =>
    have hi := (hl i List.mem_cons_self).toNat_nextPc
    have hrest := ih h.2 fun j hj => hl j (List.mem_cons_of_mem _ hj)
    rw [h.1] at hi
    rw [List.length_cons]
    omega

theorem Consecutive.toNat_address {a z : Word} {is js : List Instr} {i : Instr}
    (h : Consecutive a (is ++ i :: js) z) (hl : ∀ j ∈ is, j.Low) :
    i.address.toNat = a.toNat + 4 * is.length := by
  obtain ⟨m, hm, hi, -⟩ := h.of_append
  rw [hi, hm.toNat_finish hl]

/-- Everything lies below the address behind it. -/
theorem Consecutive.below {a z : Word} {is : List Instr} (h : Consecutive a is z)
    (hl : ∀ i ∈ is, i.Low) : ∀ i ∈ is, i.address.toNat < z.toNat := by
  intro i hi
  obtain ⟨pre, post, hsplit⟩ := List.append_of_mem hi
  have hend := h.toNat_finish hl
  rw [hsplit] at h hend hl
  have haddr := h.toNat_address fun j hj => hl j (List.mem_append_left _ hj)
  rw [List.length_append, List.length_cons] at hend
  omega

theorem Chain.of_append {a z : Word} {bs cs : List Block} (h : Chain a (bs ++ cs) z) :
    ∃ m, Chain a bs m ∧ Chain m cs z := by
  induction bs generalizing a with
  | nil => exact ⟨a, rfl, h⟩
  | cons b bs ih =>
    obtain ⟨hb, n, hn, hrest⟩ := h
    obtain ⟨m, hm, hz⟩ := ih hrest
    exact ⟨m, ⟨hb, n, hn, hm⟩, hz⟩

/-- The instructions of some blocks. -/
def blockInstrs (bs : List Block) : List Instr := bs.flatMap (·.instrs.toList)

theorem Chain.toNat_start {a z : Word} {bs cs : List Block} {b : Block}
    (h : Chain a (bs ++ b :: cs) z) (hl : ∀ i ∈ blockInstrs bs, i.Low) :
    b.start.toNat = a.toNat + 4 * (blockInstrs bs).length := by
  obtain ⟨m, hm, hb, -⟩ := h.of_append
  rw [hb]
  exact hm.consecutive.toNat_finish hl

/-- The blocks of a chain are sound. -/
theorem Chain.sound {a z : Word} {bs cs : List Block} {b : Block} (h : Chain a (bs ++ b :: cs) z) :
    ∃ m, b.Sound m := by
  obtain ⟨-, -, -, m, hs, -⟩ := h.of_append
  exact ⟨m, hs⟩

/-- The last instruction of a block in a chain. -/
theorem Chain.toNat_last {a z : Word} {bs cs : List Block} {b : Block}
    (h : Chain a (bs ++ b :: cs) z) (hl : ∀ i ∈ blockInstrs (bs ++ [b]), i.Low) {init : List Instr}
    {i : Instr} (hi : b.instrs.toList = init ++ [i]) :
    i.address.toNat = a.toNat + 4 * ((blockInstrs bs).length + init.length) := by
  have hinstrs : blockInstrs (bs ++ [b]) = blockInstrs bs ++ (init ++ [i]) := by
    simp only [blockInstrs, List.flatMap_append, List.flatMap_cons, List.flatMap_nil,
      List.append_nil, hi]
  obtain ⟨m, hm, hb, n, hn, -⟩ := h.of_append
  have hrun := hn.run
  rw [hb, hi] at hrun
  rw [hinstrs] at hl
  have hall := hm.consecutive.append hrun
  rw [← List.append_assoc] at hall
  rw [← List.append_assoc] at hl
  rw [hall.toNat_address fun j hj => hl j (List.mem_append_left _ hj), List.length_append]
  rfl

/-- A trace of instructions that are four bytes long. -/
theorem Trace.guestBytes_eq {t : Trace} (h : ∀ i ∈ t.instrs, i.Regular) :
    t.guestBytes = 4 * t.instrs.length := by
  unfold guestBytes
  generalize t.instrs = is at h ⊢
  induction is with
  | nil => rfl
  | cons i is ih =>
    have hsize : i.size = 4 := by
      simp only [Instr.size, (h i List.mem_cons_self).wide, Bool.false_eq_true, if_false]
    rw [List.foldr_cons, ih fun j hj => h j (List.mem_cons_of_mem _ hj), hsize, List.length_cons]
    omega

end Dynarec.Guest
