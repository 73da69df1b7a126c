import Dynarec.Proofs.Body.Chain
import Dynarec.Proofs.Guest.Address
import Dynarec.Proofs.Layout

/-! # Translated units

What a translation that ends well has made: a trace, the plan for its unit, and the code of that
plan. -/

namespace Dynarec

open Dynarec.Emit Dynarec.Compile

/-- The unit `c` is made from the trace `t` by the plan `p`. -/
structure Translated (options : Options) (dispatch : DispatchTable) (img : Guest.Image)
    (entry : Word) (c : Compiled) (t : Guest.Trace) (p : Plan) : Prop where
  trace : Guest.Trace.collect options.limits img entry = .ok t
  collected : t.Collected options.limits img entry
  nonempty : t.blocks.toList ≠ []
  setting : p.setting = { config := options.config, dispatch, shape := .ofTrace t }
  blocks : p.blocks = t.blocks.toList
  inUse : ∀ b ∈ p.blocks, ∀ i ∈ b.instrs.toList, InUse p.use i
  initial : RegisterUse.Le {} p.use
  fits : p.Fits
  emitted : ∃ s, (do reservePrologue; body lower p.blocks : Emit Unit) p.setting {} = .ok () s ∧
    p.Emitted s
  /-- The emission of the whole unit ends with the registers of the plan. -/
  unit : ∃ s, Compile.unit lower t p.setting {} = .ok c.stats s ∧ s.code = c.code ∧ s.regs = p.use
  start : c.start = entry
  guestBytes : c.guestBytes = t.guestBytes
  code : c.code.toList = p.code.map Host.Instr.encode
  stats : c.stats = p.stats t

theorem isIfThen_of_regular {i : Guest.Instr} (h : i.Regular) : i.kind.isIfThen = false := by
  cases hk : i.kind with
  | ifThen firstcond mask => exact absurd hk (h.noIfThen firstcond mask)
  | _ => rfl

/-- A trace of regular instructions is compiled exactly if its plan fits and a word can count its
bytes. -/
theorem compile_yields (config : Config) (dispatch : DispatchTable) {t : Guest.Trace}
    (hr : ∀ b ∈ t.blocks.toList, ∀ i ∈ b.instrs.toList, i.Regular) {start : Word}
    (hstart : t.start? = some start) :
    ∃ u, RegisterUse.Le {} u ∧ (∀ b ∈ t.blocks.toList, ∀ i ∈ b.instrs.toList, InUse u i) ∧
      ∃ code : Array Word,
        let p : Plan := ⟨{ config, dispatch, shape := .ofTrace t }, u, t.blocks.toList⟩
        code.toList = p.code.map Host.Instr.encode ∧
        (p.Fits → ∃ s, (do reservePrologue; body lower p.blocks : Emit Unit) p.setting {} =
          .ok () s ∧ p.Emitted s) ∧
        (p.Fits → ∃ s, Compile.unit lower t p.setting {} = .ok (p.stats t) s ∧ s.code = code ∧
          s.regs = p.use) ∧
        (p.Fits → t.guestBytes < wordCount → compile lower config dispatch t =
          .ok { start, guestBytes := t.guestBytes, code, stats := p.stats t }) ∧
        ∀ c, compile lower config dispatch t = .ok c → p.Fits ∧ t.guestBytes < wordCount := by
  let e : Setting := { config, dispatch, shape := .ofTrace t }
  obtain ⟨u, hle, hin, s₁, s, hcode, hregs, hbody, hs₁, hy⟩ :=
    unit_yields e t (Guest.spelledBlocks_eq_self rfl fun b hb i hi =>
      isIfThen_of_regular (hr b hb i hi)).symm
  refine ⟨u, hle, hin, s.code, hcode, fun hfits => ⟨s₁, hbody.run hfits.body, hs₁⟩,
    fun hfits => ⟨s, hy.run hfits, rfl, hregs⟩, fun hfits hbytes => ?_, fun c hc => ?_⟩
  · exact compile_eq_ok.mpr ⟨start, _, s, hstart, hy.run hfits, hbytes, rfl⟩
  · obtain ⟨-, stats, s', -, hrun, hbytes, -⟩ := compile_eq_ok.mp hc
    exact ⟨hy.of_ok stats s' hrun, hbytes⟩

theorem start?_of_chain {t : Guest.Trace} {a z : Word} (h : Guest.Chain a t.blocks.toList z)
    (hn : t.blocks.toList ≠ []) : t.start? = some a := by
  obtain ⟨b, bs, hb⟩ := List.exists_cons_of_ne_nil hn
  rw [hb] at h
  rw [Guest.Trace.start?, ← Array.getElem?_toList, hb, List.getElem?_cons_zero, Option.map_some, h.1]

/-- A translation that ends well has collected a trace and laid out its plan. -/
theorem translate_ok {options : Options} {dispatch : DispatchTable} {img : Guest.Image}
    {entry : Word} {c : Compiled} (h : translate options dispatch img entry = .ok c) :
    ∃ t p, Translated options dispatch img entry c t p := by
  unfold translate at h
  cases hin : img.contains entry 4 with
  | false =>
    simp only [Guest.Trace.collect, hin, Bool.false_eq_true, if_false, reduceCtorEq] at h
  | true =>
    by_cases hl : options.limits.maxInstructions = 0 ∨ options.limits.maxBytes = 0
    · obtain ⟨t, ht, hb⟩ := Guest.Trace.collect_empty hin hl
      have hstart : t.start? = none := by
        rw [Guest.Trace.start?, hb]
        rfl
      rw [ht] at h
      simp only [compile, hstart, reduceCtorEq] at h
    · by_cases ha : entry.toNat % 4 = 0
      · obtain ⟨t, ht, hcol⟩ := Guest.Trace.collect_ok options.limits hin ha
        have hn : t.blocks.toList ≠ [] := by
          intro hnil
          refine hl (hcol.nonempty ?_)
          rw [Guest.Trace.instrs, hnil]
          rfl
        obtain ⟨z, hz⟩ := hcol.chain
        have hstart := start?_of_chain hz hn
        obtain ⟨u, hle, hin, code, hcode, hbody, hunit, hrun, hfits⟩ :=
          compile_yields options.config dispatch hcol.regular hstart
        rw [ht] at h
        obtain ⟨hfits, hbytes⟩ := hfits c h
        have hc := (hrun hfits hbytes).symm.trans h
        cases hc
        exact ⟨t, _, ht, hcol, hn, rfl, rfl, hin, hle, hfits, hbody hfits, hunit hfits, rfl, rfl,
          hcode, rfl⟩
      · rw [Guest.Trace.collect_misaligned hin (fun h => hl (.inl h)) (fun h => hl (.inr h)) ha] at h
        cases h

namespace Translated

variable {options : Options} {dispatch : DispatchTable} {img : Guest.Image} {entry : Word}
  {c : Compiled} {t : Guest.Trace} {p : Plan}

section

variable (h : Translated options dispatch img entry c t p)

include h

theorem chain : ∃ z, Guest.Chain entry p.blocks z := h.blocks ▸ h.collected.chain

theorem blocks_ne_nil : p.blocks ≠ [] := h.blocks ▸ h.nonempty

theorem instrs_eq : t.instrs = Guest.blockInstrs p.blocks := by
  rw [h.blocks]
  rfl

theorem regular : ∀ b ∈ p.blocks, ∀ i ∈ b.instrs.toList, i.Regular :=
  h.blocks ▸ h.collected.regular

theorem low (hf : img.finish < wordCount) : ∀ i ∈ Guest.blockInstrs p.blocks, i.Low :=
  fun i hi => (h.collected.holds i (h.instrs_eq ▸ hi)).low hf

theorem guestBytes_eq : c.guestBytes = 4 * (Guest.blockInstrs p.blocks).length := by
  rw [h.guestBytes, Guest.Trace.guestBytes_eq fun i hi => (h.collected.holds i hi).regular,
    h.instrs_eq]

/-- The body is one list of parts, with an exit behind it if control can pass on there. -/
theorem body_eq {z : Word} (hz : Guest.Chain entry p.blocks z) :
    p.body = partsItems p.setting.config (bodyParts p.blocks) ++
      endItems p.setting z (endsAfter false p.blocks) :=
  bodyItems_chain p.setting hz h.blocks_ne_nil

/-- A known branch target is the start of a block. -/
theorem targets_eq_some {a : Word} {index : Nat} (ht : p.targets a = some index) :
    ∃ pre b post, p.blocks = pre ++ b :: post ∧ a = b.start ∧
      index = p.room + (partsItems p.setting.config (bodyParts pre)).length := by
  obtain ⟨z, hz⟩ := h.chain
  have hmem := lookupStart_mem ht
  rw [bodyStarts_chain p.setting p.room hz] at hmem
  exact mem_startsFrom hmem

theorem targets_bounds {a : Word} {index : Nat} (ht : p.targets a = some index) :
    p.room ≤ index ∧ index < p.room + p.body.length := by
  obtain ⟨pre, b, post, -, -, hindex⟩ := h.targets_eq_some ht
  exact ⟨by omega, bodyStarts_lt p.setting p.room p.blocks _ (lookupStart_mem ht)⟩

end

end Translated

end Dynarec
