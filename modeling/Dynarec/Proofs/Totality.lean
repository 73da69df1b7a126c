import Dynarec.Proofs.Bounds
import Dynarec.Proofs.Translation

/-! # Compilation succeeds

Guest code never makes compilation fail: with room for the default prologue, a unit of at most
16384 bytes stays within the reach of every branch, every placeholder can be resolved, and no
pool of registers runs out. -/

namespace Dynarec.Compile

open Dynarec.Emit Dynarec.Lower Dynarec.Resolve Dynarec.Host

/-! ### Reach -/

theorem fits26_displacement {a b : Nat} (ha : a < 0x2000000) (hb : b < 0x2000000) :
    fits26 (displacement a b) = true := by
  rw [fits26_iff, displacement]
  omega

theorem fits19_of_lt {n : Nat} (h : n + 1 < 0x40000) : fits19 (n + 1) = true := by
  rw [fits19_iff]
  omega

/-! ### Regions -/

theorem partsFit_of_lt (config : Config) {ps : List Part} (h : partsLimit ps < 0x3FFFF) :
    PartsFit config ps := by
  intro p hp
  have hl := limit_le_of_mem hp
  cases p with
  | check i => trivial
  | run c is =>
    intro _
    have hi := length_flatMap_instrItems_le config is
    simp only [Part.limit] at hl
    exact fits19_of_lt (by omega)

theorem partsFit_block (config : Config) {b : Guest.Block} (h : b.instrs.size ≤ 4096) :
    PartsFit config (blockParts b) := by
  have hl := partsLimit_parts_le b.isLoopEnd b.instrs.toList
  rw [Array.length_toList] at hl
  exact partsFit_of_lt config (show partsLimit (parts _ _) < _ by omega)

/-! ### Placeholders -/

/-- The fixups that instructions and loop ends have: each names what its kind needs. -/
def Fixable (kind : FixupKind) (target : FixupTarget) : Prop :=
  match kind with
  | .branch | .condBranch _ | .call => ∃ a, target = .address a
  | .indirectBranch => target = .none ∨ ∃ rm, target = .register rm
  | .tableBranch _ => ∃ rn rm, target = .registers rn rm
  | .timerRead => ∃ rt rt2, target = .registers rt rt2 ∧ rt.isPc = false ∧ rt2.isPc = false
  | _ => True

theorem fixable_hole? {c : Current} {i : Guest.Instr} (hi : i.Regular) {kind : FixupKind}
    {target : FixupTarget} (h : hole? c i = some (kind, target)) : Fixable kind target := by
  cases hk : i.kind with
  | alu op rd rn operand =>
    simp only [hole?, hk] at h
    split at h <;> cases h
    exact .inl rfl
  | move rd operand negate =>
    cases operand with
    | imm v =>
      simp only [hole?, hk] at h
      split at h <;> cases h
      exact .inl rfl
    | reg rm =>
      simp only [hole?, hk] at h
      split at h
      · cases h
        exact .inr ⟨rm, rfl⟩
      · split at h <;> cases h
        exact .inl rfl
  | branch t =>
    simp only [hole?, hk] at h
    split at h <;> cases h <;> exact ⟨t, rfl⟩
  | branchLink t =>
    simp only [hole?, hk] at h
    cases h
    exact ⟨t, rfl⟩
  | branchExchange rm =>
    simp only [hole?, hk] at h
    cases h
    exact .inr ⟨rm, rfl⟩
  | tableBranch rn rm halfword =>
    simp only [hole?, hk] at h
    cases h
    exact ⟨rn, rm, rfl⟩
  | readTimer rt rt2 =>
    simp only [hole?, hk] at h
    cases h
    exact ⟨rt, rt2, rfl, hi.timer rt rt2 hk⟩
  | _ =>
    simp only [hole?, hk] at h
    cases h <;> trivial

/-- Every placeholder of a body can be resolved. -/
theorem fixable_bodyItems {e : Setting} {bs : List Guest.Block}
    (h : ∀ b ∈ bs, ∀ i ∈ b.instrs.toList, i.Regular) :
    ∀ x ∈ bodyItems e bs, ∀ k f, x.fixup? k = some f → Fixable f.kind f.target := by
  refine forall_bodyItems (fun i k f hf => nomatch hf) (fun c k f hf => nomatch hf) ?_ ?_
  · intro b hb _ i hi k f hf
    cases hf
    trivial
  · intro b hb i hi x hx k f hf
    exact fixable_hole? (h b hb i hi) (hole?_of_mem hx hf).1

section Total

variable {e : Setting} (hd : ∀ g, e.dispatch g ≠ .unaddressable)

include hd

theorem fitsAfter_of_le (finish : Word) (ended : Bool) {bs : List Guest.Block}
    (h : ∀ b ∈ bs, b.instrs.size ≤ 4096) : FitsAfter e finish ended bs := by
  induction bs generalizing finish ended with
  | nil => exact fun _ => hd finish
  | cons b bs ih =>
    exact ⟨fun _ => hd finish, partsFit_block e.config (h b List.mem_cons_self),
      ih _ _ fun c hc => h c (List.mem_cons_of_mem _ hc)⟩

theorem bodyFits_of_le {bs : List Guest.Block} (h : ∀ b ∈ bs, b.instrs.size ≤ 4096) :
    BodyFits e bs := by
  cases bs with
  | nil => trivial
  | cons b bs =>
    exact ⟨partsFit_block e.config (h b List.mem_cons_self),
      fitsAfter_of_le hd _ _ fun c hc => h c (List.mem_cons_of_mem _ hc)⟩

theorem directed_fits {targets : Word → Option Nat} {site n : Nat}
    (hr : fits26 (displacement site n) = true) (t : Word) :
    (directed e targets site n t).fits := by
  unfold directed
  split
  · exact ⟨hd t, hr⟩
  · split
    · trivial
    · split
      · trivial
      · exact ⟨hd t, hr⟩

theorem condDirected_fits {targets : Word → Option Nat} {site n : Nat}
    (hr : fits26 (displacement site n) = true)
    (hb : fits26 (displacement (n + 1) (site + 1)) = true) (cond : Cond) (t : Word) :
    (condDirected e targets site n cond t).fits := by
  have hlong : ∀ index, (longDirected e site n cond t index).fits :=
    fun index => ⟨hb, fun _ => hd t, hr⟩
  unfold condDirected
  split
  · split
    · trivial
    · split
      · trivial
      · exact hlong _
  · split
    · exact hd t
    · exact hlong _

theorem resolved_fits {u : RegisterUse} {targets : Word → Option Nat} {f : Fixup} {n : Nat}
    (hf : Fixable f.kind f.target) (hsite : f.site + 1 < 0x2000000)
    (hn : n + 181 < 0x2000000) : (resolved e u targets f n).fits := by
  have hr : fits26 (displacement f.site n) = true := fits26_displacement (by omega) (by omega)
  have hback : ∀ {xs : List Item}, xs.length ≤ 180 → (returning f.site n xs).fits :=
    fun hxs => ⟨hr, fits26_displacement (by omega) hsite⟩
  unfold Fixable at hf
  cases hk : f.kind with
  | branch =>
    simp only [hk] at hf
    obtain ⟨t, ht⟩ := hf
    simp only [resolved, hk, ht]
    exact directed_fits hd hr _
  | condBranch cond =>
    simp only [hk] at hf
    obtain ⟨t, ht⟩ := hf
    simp only [resolved, hk, ht]
    exact condDirected_fits hd hr (fits26_displacement (by omega) hsite) _ _
  | call =>
    simp only [hk] at hf
    obtain ⟨t, ht⟩ := hf
    simp only [resolved, hk, ht]
    exact ⟨hd _, hback (length_callItems_le ..)⟩
  | indirectCall =>
    simp only [resolved, hk]
    exact hback (length_callItems_le ..)
  | indirectBranch =>
    simp only [hk] at hf
    rcases hf with ht | ⟨rm, ht⟩
    · simp only [resolved, hk, ht]
      exact hr
    · simp only [resolved, hk, ht]
      split
      · exact directed_fits hd hr _
      · exact hr
  | tableBranch halfword =>
    simp only [hk] at hf
    obtain ⟨rn, rm, ht⟩ := hf
    simp only [resolved, hk, ht]
    exact hr
  | syncPoint =>
    simp only [resolved, hk]
    exact hback (length_syncPointItems_le ..)
  | softwareInterrupt imm =>
    simp only [resolved, hk]
    exact hback (length_trapItems_le _ _ _ _ (Nat.le_of_ble_eq_true rfl))
  | exception kind imm =>
    simp only [resolved, hk]
    exact hback (length_trapItems_le _ _ _ _ (Nat.le_of_ble_eq_true rfl))
  | timerRead =>
    simp only [hk] at hf
    obtain ⟨rt, rt2, ht, hpc⟩ := hf
    simp only [resolved, hk, ht]
    exact ⟨hpc, hback (length_timerReadItems_le ..)⟩

theorem resolveFits_of_lt {u : RegisterUse} {targets : Word → Option Nat} {k n : Nat}
    {xs : List Item} (hx : ∀ x ∈ xs, ∀ k f, x.fixup? k = some f → Fixable f.kind f.target)
    (hk : k + xs.length < 0x2000000) (hn : n + 181 * xs.length < 0x2000000) :
    ResolveFits e u targets k n xs := by
  induction xs generalizing k n with
  | nil => trivial
  | cons x xs ih =>
    rw [List.length_cons] at hk hn
    have hp := length_piece_le e u targets k n x
    refine ⟨fun f hf => ?_, ih (fun y hy => hx y (List.mem_cons_of_mem _ hy)) (by omega) (by omega)⟩
    have hsite := (fixup?_eq_some hf).1
    exact resolved_fits hd (hx x List.mem_cons_self k f hf) (by omega) (by omega)

end Total

/-! ### The unit -/

/-- A plan fits if its instructions are few, its slots addressable, and its prologue has the
default room. -/
theorem Plan.fits {p : Plan} (hd : ∀ g, p.setting.dispatch g ≠ .unaddressable)
    (hroom : p.room = prologueMaxWords) (hn : ∀ b ∈ p.blocks, 0 < b.instrs.size)
    (hcount : instrTotal p.blocks ≤ 4096)
    (hr : ∀ b ∈ p.blocks, ∀ i ∈ b.instrs.toList, i.Regular) : p.Fits := by
  have hroom : p.room = 64 := hroom
  have hbody : p.body.length ≤ 29 * instrTotal p.blocks + 9 := length_bodyItems_le _ _ hn
  have htails : (tailsOf p.pieces).length ≤ 181 * p.body.length :=
    length_tailsOf_pieces_le _ _ _ _ _ _
  have hitems : (itemsOf p.pieces).length = p.body.length := by
    rw [itemsOf, List.length_map]
    exact length_pieces ..
  have hmain : p.main.length ≤ 182 * p.body.length := by
    rw [Plan.main, List.length_append]
    omega
  refine ⟨bodyFits_of_le hd fun b hb => ?_, ?_, fun x hx => ?_, ?_, fun hlt => ?_⟩
  · exact Nat.le_trans (size_le_instrTotal hb) hcount
  · exact resolveFits_of_lt hd (fixable_bodyItems hr) (by omega) (by omega)
  · have hsite : x.site < p.room + p.main.length := exitsFrom_site_lt x hx
    have hfinish : p.finish = p.room + p.main.length := rfl
    exact fits26_displacement (by omega) (by omega)
  · rw [hroom]
    exact Nat.le_trans (length_prologue_le _ _) (by decide)
  · rw [roomSkip_eq (Nat.le_of_lt hlt) (by omega)]
    rfl

end Dynarec.Compile

namespace Dynarec

open Dynarec.Emit Dynarec.Compile

theorem DispatchTable.empty_ne (g : Word) : DispatchTable.empty g ≠ .unaddressable := nofun

theorem eq_ok_of_toOption {ε α : Type} {x : Except ε α} {a : α} (h : x.toOption = some a) :
    x = .ok a := by
  cases x with
  | error e => cases h
  | ok b =>
    cases h
    rfl

theorem exists_ok_of_any {ε α : Type} {x : Except ε α} {f : α → Bool}
    (h : x.toOption.any f = true) : ∃ a, x = .ok a ∧ f a = true := by
  cases x with
  | error e => cases h
  | ok a => exact ⟨a, rfl, h⟩

/-- The trace read from an aligned entry inside the image, with limits that leave something to read,
is compiled. -/
theorem compile_of_aligned {limits : Guest.Limits} {helpers : Helpers} {thumb : Bool}
    {dispatch : DispatchTable} {img : Guest.Image} {entry : Word} {t : Guest.Trace}
    (hd : ∀ g, dispatch g ≠ .unaddressable) (hb : limits.maxBytes.toNat ≤ 16384)
    (hin : img.contains entry 4 = true)
    (hl : limits.maxInstructions ≠ 0 ∧ limits.maxBytes ≠ 0) (ha : entry.toNat % 4 = 0)
    (ht : Guest.Trace.collect limits img entry = .ok t) :
    ∃ c, compile lower { helpers, thumb } dispatch t = .ok c := by
  obtain ⟨t', ht', hcol⟩ := Guest.Trace.collect_ok limits hin ha
  cases ht'.symm.trans ht
  obtain ⟨z, hz⟩ := hcol.chain
  have hn : t.blocks.toList ≠ [] := by
    intro hnil
    have hempty : t.instrs = [] := by
      rw [Guest.Trace.instrs, hnil]
      rfl
    rcases hcol.nonempty hempty with h | h
    · exact hl.1 h
    · exact hl.2 h
  have hcount : instrTotal t.blocks.toList ≤ 4096 := by
    have hlen : t.instrs.length ≤ _ := hcol.length_le (by omega)
    exact Nat.le_trans hlen (by omega)
  obtain ⟨u, -, -, code, -, -, -, hrun, -⟩ :=
    compile_yields { helpers, thumb } dispatch hcol.regular (start?_of_chain hz hn)
  have hfits := Plan.fits (p := ⟨{ config := { helpers, thumb }, dispatch, shape := .ofTrace t }, u,
    t.blocks.toList⟩) hd rfl hz.nonempty hcount hcol.regular
  have hbytes : t.guestBytes < wordCount := by
    rw [Guest.Trace.guestBytes_eq fun i hi => (hcol.holds i hi).regular]
    have hlen : t.instrs.length ≤ 4096 := hcount
    exact Nat.lt_of_le_of_lt (Nat.mul_le_mul_left 4 hlen) (by decide)
  exact ⟨_, hrun hfits hbytes⟩

/-- From an aligned entry inside the image, with limits that leave something to read, a unit is
compiled. -/
theorem translate_of_aligned {limits : Guest.Limits} {helpers : Helpers} {thumb : Bool}
    {dispatch : DispatchTable} {img : Guest.Image} {entry : Word}
    (hd : ∀ g, dispatch g ≠ .unaddressable) (hb : limits.maxBytes.toNat ≤ 16384)
    (hin : img.contains entry 4 = true)
    (hl : limits.maxInstructions ≠ 0 ∧ limits.maxBytes ≠ 0) (ha : entry.toNat % 4 = 0) :
    ∃ c, translate { limits, config := { helpers, thumb } } dispatch img entry = .ok c := by
  obtain ⟨t, ht, -⟩ := Guest.Trace.collect_ok limits hin ha
  simp only [translate, ht]
  exact compile_of_aligned hd hb hin hl ha ht

/-- Whatever the bytes of the image are, translation with the default room for the prologue and at
most 16384 bytes a unit ends in one of four ways, and the entry and the limits tell which: the entry
lies outside the image, there is nothing to read, the entry is misaligned, or a unit is compiled. -/
theorem translate_total (limits : Guest.Limits) (helpers : Helpers) (thumb : Bool)
    (dispatch : DispatchTable) (img : Guest.Image) (entry : Word)
    (hd : ∀ g, dispatch g ≠ .unaddressable) (hb : limits.maxBytes.toNat ≤ 16384) :
    let outcome := translate { limits, config := { helpers, thumb } } dispatch img entry
    let nothing := limits.maxInstructions = 0 ∨ limits.maxBytes = 0
    (img.contains entry 4 = false ∧
      outcome = .error (.error (.decode (.entryOutsideImage entry)))) ∨
    (img.contains entry 4 = true ∧ nothing ∧ outcome = .error (.error .emptyUnit)) ∨
    (img.contains entry 4 = true ∧ ¬nothing ∧ entry.toNat % 4 ≠ 0 ∧
      outcome = .error (.error (.decode (.misaligned entry)))) ∨
    (img.contains entry 4 = true ∧ ¬nothing ∧ entry.toNat % 4 = 0 ∧ ∃ c, outcome = .ok c) := by
  intro outcome nothing
  cases hin : img.contains entry 4 with
  | false =>
    refine .inl ⟨rfl, ?_⟩
    simp only [outcome, translate, Guest.Trace.collect, hin, Bool.false_eq_true, if_false]
  | true =>
    refine .inr ?_
    by_cases hl : nothing
    · obtain ⟨t, ht, hblocks⟩ := Guest.Trace.collect_empty hin hl
      have hstart : t.start? = none := by
        rw [Guest.Trace.start?, hblocks]
        rfl
      refine .inl ⟨rfl, hl, ?_⟩
      simp only [outcome, translate, ht, compile, hstart]
    · have hl' : limits.maxInstructions ≠ 0 ∧ limits.maxBytes ≠ 0 := not_or.mp hl
      by_cases ha : entry.toNat % 4 = 0
      · exact .inr (.inr ⟨rfl, hl, ha, translate_of_aligned hd hb hin hl' ha⟩)
      · refine .inr (.inl ⟨rfl, hl, ha, ?_⟩)
        simp only [outcome, translate, Guest.Trace.collect_misaligned hin hl'.1 hl'.2 ha]

/-- The image of one return to the address in the link register, at 4096. -/
def returnImage : Guest.Image := ⟨0x1000, #[0x1E, 0xFF, 0x2F, 0xE1]⟩

/-- A return alone is compiled under the default limits. -/
theorem translate_total_return :
    ∃ c, translate {} DispatchTable.empty returnImage 0x1000 = .ok c := by
  rcases translate_total {} {} false DispatchTable.empty returnImage 0x1000 (fun g => nofun)
    (by decide) with ⟨h, -⟩ | ⟨-, h, -⟩ | ⟨-, -, h, -⟩ | ⟨-, -, -, h⟩
  · exact absurd h (by decide)
  · exact absurd h (by decide)
  · exact absurd (by decide) h
  · exact h

end Dynarec
