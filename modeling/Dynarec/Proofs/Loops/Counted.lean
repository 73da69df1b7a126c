import Dynarec.Proofs.Loops.Order
import Mathlib.Data.List.Cycle

/-! # Loops count down

A unit is laid out so that control passes through its body from front to back: every way but the
branch of a loop leads on, to a later item or within the sequence of one. So every cycle takes the
branch of a loop, and before it the check that guards the branch. The one exception is the branch
over the room that the prologue leaves: cut to its field, it may lead back. -/

namespace Dynarec.Host

open Relation (TransGen)

/-! ### Cycles -/

section Cycle

variable {α : Type} {r : α → α → Prop} {s : Cycle α}

/-- From each element of a cycle the way along the cycle leads to each. -/
theorem transGen_of_chain (h : s.Chain r) {a b : α} (ha : a ∈ s) (hb : b ∈ s) :
    TransGen (fun x y => r x y ∧ x ∈ s ∧ y ∈ s) a b := by
  have hchain : s.Chain (TransGen fun x y => r x y ∧ x ∈ s ∧ y ∈ s) := by
    induction s with
    | nil => exact Cycle.Chain.nil _
    | cons c l =>
      have hmem : ∀ x ∈ c :: (l ++ [c]), x ∈ (↑(c :: l) : Cycle α) := by
        intro x hx
        rw [Cycle.mem_coe_iff]
        rcases List.mem_cons.mp hx with rfl | hx
        · exact List.mem_cons_self
        · rcases List.mem_append.mp hx with hx | hx
          · exact List.mem_cons_of_mem _ hx
          · exact List.mem_singleton.mp hx ▸ List.mem_cons_self
      rw [Cycle.chain_coe_cons] at h ⊢
      exact h.imp_of_mem_imp fun x y hx hy hxy => .single ⟨hxy, hmem x hx, hmem y hy⟩
  exact Cycle.chain_iff_pairwise.mp hchain a ha b hb

/-- Each element of a cycle has one behind it. -/
theorem exists_next (h : s.Chain r) {a : α} (ha : a ∈ s) : ∃ b ∈ s, r a b := by
  obtain ⟨b, ⟨hab, -, hb⟩, -⟩ := TransGen.head'_iff.mp (transGen_of_chain h ha ha)
  exact ⟨b, hb, hab⟩

/-- A cycle that has elements inside and outside of a set comes into the set somewhere. -/
theorem exists_enter (h : s.Chain r) {X : α → Prop} {a b : α} (ha : a ∈ s) (hX : ¬X a) (hb : b ∈ s)
    (hX' : X b) : ∃ x ∈ s, ∃ y ∈ s, r x y ∧ ¬X x ∧ X y := by
  have hway := transGen_of_chain h ha hb
  induction hway with
  | single hxy => exact ⟨a, ha, _, hb, hxy.1, hX, hX'⟩
  | @tail x y _ hxy ih =>
    by_cases hx : X x
    · exact ih hxy.2.1 hx
    · exact ⟨x, hxy.2.1, y, hb, hxy.1, hx, hX'⟩

/-- Not every step of a cycle goes up. -/
theorem exists_not_up (h : s.Chain r) (hne : s ≠ .nil) {P : α → α → Prop}
    (htrans : ∀ {x y z}, P x y → P y z → P x z) (hirrefl : ∀ x, ¬P x x) :
    ∃ x ∈ s, ∃ y ∈ s, r x y ∧ ¬P x y := by
  by_contra hno
  obtain ⟨a, ha⟩ : ∃ a, a ∈ s := by
    induction s with
    | nil => exact absurd rfl hne
    | cons a l => exact ⟨a, Cycle.mem_coe_iff.mpr List.mem_cons_self⟩
  have hup : ∀ x y, r x y ∧ x ∈ s ∧ y ∈ s → P x y := fun x y hxy =>
    Classical.byContradiction fun hn => hno ⟨x, hxy.2.1, y, hxy.2.2, hxy.1, hn⟩
  have hway := transGen_of_chain h ha ha
  refine hirrefl a (hway.trans_induction_on (motive := fun {x y} _ => P x y)
    (fun hxy => hup _ _ hxy) ?_)
  exact fun _ _ hxy hyz => htrans hxy hyz

end Cycle

/-! ### Loops of code -/

open Compile (syncOps)

/-- At index `m` the execution counter is counted down, and control comes behind this check only
through it. -/
structure Check (code : Array Word) (m n n' : Nat) : Prop where
  counts : Found (instrAt? code) m syncOps
  calls : ∃ d, instrAt? code (m + 4) = some (.b d) ∧ (m : Int) + 4 + d = n
  sealed : ∀ j k, Edge code j k → Behind m n n' k → Behind m n n' j ∨ j = m ∧ k = m + 1

/-- No loop escapes the execution counter. -/
structure LoopsCounted (code : Array Word) : Prop where
  /-- Every cycle passes a check, and comes back from behind it. -/
  counted : ∀ s : Cycle Nat, s ≠ .nil → s.Chain (Edge code) → ∃ m n n', Check code m n n' ∧
    (∀ j < 4, m + j ∈ s) ∧ ∃ j ∈ s, ∃ k ∈ s, Edge code j k ∧ Behind m n n' j ∧ k ≤ m
  /-- The counter is counted down by checks alone. -/
  sealed : ∀ m, Found (instrAt? code) m syncOps → ∃ n n', Check code m n n'

/-- From a straight word the only way is on. -/
theorem edge_straight {code : Array Word} {k m : Nat} {i : Instr} (hi : instrAt? code k = some i)
    (hs : i.isStraight = true) : Edge code k m ↔ m = k + 1 := by
  constructor
  · intro he
    cases he with
    | next => rfl
    | jump hj hd =>
      cases hi.symm.trans hj
      rw [(isStraight_iff.mp hs).2.1] at hd
      cases hd
  · rintro rfl
    exact .next hi (falls_of_straight hs)

/-- A cycle that comes to the second word of a check passes all of it. -/
theorem check_passed {code : Array Word} {m : Nat} (hm : Found (instrAt? code) m syncOps)
    {s : Cycle Nat} (hs : s.Chain (Edge code)) (h₀ : m ∈ s) (h₁ : m + 1 ∈ s) :
    ∀ j < 4, m + j ∈ s := by
  have h₂ : m + 2 ∈ s := by
    obtain ⟨b, hb, he⟩ := exists_next hs h₁
    exact (edge_straight (hm 1 _ rfl) rfl).mp he ▸ hb
  have h₃ : m + 3 ∈ s := by
    obtain ⟨b, hb, he⟩ := exists_next hs h₂
    exact (edge_straight (hm 2 _ rfl) rfl).mp he ▸ hb
  intro j hj
  have hcases : j = 0 ∨ j = 1 ∨ j = 2 ∨ j = 3 := by omega
  rcases hcases with rfl | rfl | rfl | rfl
  · exact h₀
  · exact h₁
  · exact h₂
  · exact h₃

end Dynarec.Host

namespace Dynarec.Translated

open Dynarec.Emit Dynarec.Compile Dynarec.Host Dynarec.Resolve

variable {options : Options} {dispatch : DispatchTable} {img : Guest.Image} {entry : Word}
  {c : Compiled} {t : Guest.Trace} {p : Plan} (h : Translated options dispatch img entry c t p)

include h

/-! ### Loops of a unit -/

theorem check_at {pre post : List Part} {i : Guest.Instr}
    (hparts : bodyParts p.blocks = pre ++ .check i :: post) {r : Nat}
    (hr : r = (partsItems p.setting.config pre).length) :
    Check c.code (p.room + r) (p.seqAt (r + 4)) (p.seqAt (r + 6)) := by
  obtain ⟨em, hbuilt⟩ := h.built
  obtain ⟨kind, target, zs, hbody⟩ := h.check_body hparts
  refine ⟨hr ▸ Simulation.found_sync hbuilt hbody, ?_,
    fun j k he => h.check_seals hparts hr (h.passes he)⟩
  rw [syncItems, List.append_assoc, ← List.append_assoc, List.singleton_append] at hbody
  have hlen : (partsItems p.setting.config pre ++ ops syncOps).length = r + 4 := by
    rw [List.length_append, ← hr]
    rfl
  obtain ⟨hfit, hpatch, -⟩ := Plan.settled h.fits hbody rfl
  rw [← (Plan.seqAt_split hbody).1, hlen] at hfit hpatch
  have hcall := hbuilt.found hpatch fun i hi => by
    rw [List.mem_singleton.mp hi]
    exact hfit.1
  refine ⟨_, allFrom_singleton.mp hcall, ?_⟩
  show ((p.room + r : Nat) : Int) + 4 + displacement (p.room + (r + 4)) (p.seqAt (r + 4)) = _
  unfold displacement
  omega

/-- Where the branch over the room does not lead back, no loop escapes. -/
theorem loopsCounted (hf : img.finish < wordCount) (hb : c.guestBytes < 0xFFFFFFFC)
    (hr : p.prologue.length < p.room → p.prologue.length < p.room % 0x4000000) :
    LoopsCounted c.code := by
  refine ⟨fun s hne hs => ?_, fun m hm => ?_⟩
  · obtain ⟨j, hj, k, hk, he, hdown⟩ := exists_not_up hs hne (P := p.Rises) Plan.Rises.trans
      Plan.not_rises_self
    obtain ⟨pre, i, post, hparts, r, hr', hle, hbehind⟩ :=
      (h.rises_or_loops hf hb hr (h.passes he)).resolve_left hdown
    have hcheck := h.check_at hparts hr'
    have hbefore : ¬Behind (p.room + r) (p.seqAt (r + 4)) (p.seqAt (r + 6)) k := by
      have hseq := p.le_seqAt (r + 4)
      have hlt := h.part_before_end hparts nofun
      rintro (hk | hk) <;> omega
    -- The cycle has words behind the check and before it, so it passes the check.
    obtain ⟨x, hx, y, hy, hxy, hnot, hin⟩ := exists_enter hs hk hbefore hj hbehind
    obtain ⟨rfl, rfl⟩ := (hcheck.sealed x y hxy hin).resolve_left hnot
    exact ⟨_, _, _, hcheck, check_passed hcheck.counts hs hx hy, j, hj, k, hk, he, hbehind, hle⟩
  · obtain ⟨pre, i, post, hparts, rfl⟩ := h.check_of_found hm
    exact ⟨_, _, h.check_at hparts rfl⟩

/-- Where it leads back, the prologue is run for ever. -/
theorem not_loopsCounted (hlt : p.prologue.length < p.room)
    (hr : p.room % 0x4000000 ≤ p.prologue.length) : ¬LoopsCounted c.code := by
  intro hcounted
  have hle : p.prologue.length ≤ 56 := length_prologue_le p.setting.shape p.use
  obtain ⟨d, hd⟩ := Option.isSome_iff_exists.mp (h.fits.front.2 hlt)
  -- The branch leads to what is left of the room when it is cut.
  have hback : Edge c.code p.prologue.length (p.room % 0x4000000) := by
    have hfront := (allFrom_append.mp p.stands_front).2
    rw [if_pos hlt, hd, Option.getD_some, Nat.zero_add] at hfront
    have hi : instrAt? c.code p.prologue.length = some (.b (Instr.imm26 d).toInt) := by
      rw [instrAt?, ← Array.getElem?_toList, h.code, List.getElem?_map, (allFrom_cons.mp hfront).1]
      exact decode_b_cut d
    have hcut := imm26_congr d
    have hroom := roomSkip_congr hd
    have hlo : -0x4000000 ≤ 2 * (Instr.imm26 d).toInt := BitVec.le_two_mul_toInt
    have hhi : 2 * (Instr.imm26 d).toInt < 0x4000000 := BitVec.two_mul_toInt_lt
    exact .jump hi rfl (by omega)
  have hnext : ∀ k < p.prologue.length, Edge c.code k (k + 1) := by
    intro k hk
    have hi := h.found_prologue k _ (List.getElem?_eq_getElem hk)
    rw [Nat.zero_add] at hi
    exact (edge_straight hi (straight_iff.mp (straight_prologue p.frame p.use) _
      (List.getElem_mem hk))).mpr rfl
  let s : Cycle Nat :=
    Cycle.map (p.room % 0x4000000 + ·) (List.range (p.prologue.length - p.room % 0x4000000 + 1))
  have hmem : ∀ k, k ∈ s ↔ p.room % 0x4000000 ≤ k ∧ k ≤ p.prologue.length := by
    intro k
    rw [Cycle.mem_map]
    simp only [Cycle.mem_coe_iff, List.mem_range]
    constructor
    · rintro ⟨n, hn, rfl⟩
      omega
    · exact fun hk => ⟨k - p.room % 0x4000000, by omega, by omega⟩
  have hne : s ≠ .nil := by
    intro hnil
    have hin := (hmem p.prologue.length).mpr ⟨hr, Nat.le_refl _⟩
    rw [hnil] at hin
    exact Cycle.notMem_nil _ hin
  have hs : s.Chain (Edge c.code) := by
    rw [Cycle.chain_map, Cycle.chain_range_succ]
    refine ⟨?_, fun m hm => hnext _ (by omega)⟩
    rwa [Nat.add_sub_of_le hr, Nat.add_zero]
  -- No check stands there.
  obtain ⟨m, n, n', hcheck, hin, -⟩ := hcounted.counted s hne hs
  obtain ⟨pre, i, post, -, hm⟩ := h.check_of_found hcheck.counts
  have hfirst := ((hmem _).mp (hin 0 (by omega))).2
  omega

end Dynarec.Translated

namespace Dynarec

open Dynarec.Emit Dynarec.Compile Dynarec.Host

/-- No loop of compiled code escapes the execution counter exactly if the branch over the room that
the prologue leaves, cut to the range of its field, does not lead back. Only a unit that covers the
whole address space is left aside, in which the program counter of the last instruction wraps
around. -/
theorem loopsCounted_iff {options : Options} {dispatch : DispatchTable} {img : Guest.Image}
    {entry : Word} {c : Compiled} (h : translate options dispatch img entry = .ok c)
    (hf : img.finish < wordCount) (hb : c.guestBytes < 0xFFFFFFFC) :
    LoopsCounted c.code ↔ (c.stats.prologueWords < options.config.prologueWords →
      c.stats.prologueWords < options.config.prologueWords % 0x4000000) := by
  obtain ⟨t, p, h⟩ := translate_ok h
  have hroom : p.room = options.config.prologueWords := congrArg (·.config.prologueWords) h.setting
  rw [h.prologueWords_eq, ← hroom]
  refine ⟨fun hcounted hlt => ?_, h.loopsCounted hf hb⟩
  exact Nat.lt_of_not_le fun hle => h.not_loopsCounted hlt hle hcounted

/-- The unit of a loop of one instruction: its branch leads back to the check. -/
theorem loopsCounted_loop : ∃ c, translate {} DispatchTable.empty loopImage 0x1000 = .ok c ∧
    c.guestBytes < 0xFFFFFFFC ∧ LoopsCounted c.code ∧ Edge c.code 69 64 := by
  have htrace : Guest.Trace.collect {} loopImage 0x1000 = .ok loopTrace :=
    eq_ok_of_toOption (by decide +kernel)
  obtain ⟨c, hc⟩ : ∃ c, translate {} DispatchTable.empty loopImage 0x1000 = .ok c :=
    translate_of_aligned DispatchTable.empty_ne (by decide) (by decide) (by decide) (by decide)
  obtain ⟨t, p, h⟩ := translate_ok hc
  obtain rfl : loopTrace = t := Except.ok.inj (htrace.symm.trans h.trace)
  have hb : c.guestBytes < 0xFFFFFFFC := by
    rw [h.guestBytes]
    decide
  refine ⟨c, hc, hb, (loopsCounted_iff hc (by decide) hb).mpr fun hlt => ?_, ?_⟩
  · exact hlt
  · obtain ⟨em, hbuilt⟩ := h.built
    have hbody : p.body = syncItems (Guest.decode 0xEAFFFFFE 0x1000) ++
        .hole .branch (.address 0x1000) (currentOf (Guest.decode 0xEAFFFFFE 0x1000)) :: [] := by
      rw [Plan.body, h.setting, h.blocks]
      rfl
    have hroom : p.room = 64 := congrArg (·.config.prologueWords) h.setting
    have htarget : p.targets 0x1000 = some 64 := by
      rw [Plan.targets, hroom, h.setting, h.blocks]
      rfl
    have hpatch : Stands p.code 69 [.b (-5)] := by
      have hset := (Plan.settled h.fits hbody rfl).patch
      simp only [Resolve.resolved, Resolve.directed, htarget, hroom] at hset
      rwa [if_neg (by decide), if_pos (by decide)] at hset
    exact .jump (allFrom_singleton.mp (hbuilt.found hpatch (by decide))) rfl rfl

end Dynarec
