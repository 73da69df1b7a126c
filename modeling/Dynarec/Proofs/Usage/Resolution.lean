import Dynarec.Proofs.Usage.Registers

/-! # Resolution leaves the masks

All words of a body stand before its fixups are resolved, and so does the set of registers that it
uses. Resolving the fixups writes over each of their placeholders once, changes no other word that
stands, and only adds words behind. The masks stay as the body left them: so the frame, which is
made from them at the end, and the calls of the host, which are made while fixups are resolved, load
and store the same guest registers. -/

namespace Dynarec.Resolve

open Dynarec.Emit Dynarec.Emit.Emission Dynarec.Compile

/-- All fixups of the emission `s` are resolved, which leaves `s'`. -/
structure AllResolved (e : Setting) (s : Emission) (total : Tally) (s' : Emission) : Prop where
  /-- No two fixups have the same place. -/
  distinct : (s.fixups.toList.map Fixup.site).Nodup
  /-- The placeholder of a fixup stands until the fixup has its turn. Then a word is written over
  it, and that one stays. -/
  once : ∀ pre f post, s.fixups.toList = pre ++ f :: post →
    ∃ tally s₁ how s₂ w, each {} pre e { s with fixups := #[] } = .ok tally s₁ ∧
      one f e s₁ = .ok how s₂ ∧ each (tally.add how) post e s₂ = .ok total s' ∧
      s.code[f.site]? = some f.kind.placeholder.encode ∧ s₁.code[f.site]? = s.code[f.site]? ∧
      Patched f w s₁ s₂ ∧ s'.code[f.site]? = some w
  kept : ∀ k < s.code.size, (∀ f ∈ s.fixups.toList, f.site ≠ k) → s'.code[k]? = s.code[k]?
  grows : s.code.size ≤ s'.code.size
  fixups : s'.fixups = #[]
  regs : s'.regs = s.regs

theorem nodup_sites (k : Nat) (xs : List Item) : ((fixupsFrom k xs).map Fixup.site).Nodup := by
  rw [List.Nodup, List.pairwise_map]
  exact (sites_pairwise k xs).imp Nat.ne_of_lt

/-- One fixup in the course of all. -/
theorem each_once {e : Setting} {s s' : Emission} {tally total : Tally} {pre post : List Fixup}
    {f : Fixup} (hf : Resolvable (pre ++ f :: post) s) (ht : TargetsBelow s)
    (hn : ((pre ++ f :: post).map Fixup.site).Nodup)
    (h : each tally (pre ++ f :: post) e s = .ok total s') :
    ∃ mid s₁ how s₂ w, each tally pre e s = .ok mid s₁ ∧ one f e s₁ = .ok how s₂ ∧
      each (mid.add how) post e s₂ = .ok total s' ∧
      s.code[f.site]? = some f.kind.placeholder.encode ∧ s₁.code[f.site]? = s.code[f.site]? ∧
      Patched f w s₁ s₂ ∧ s'.code[f.site]? = some w := by
  obtain ⟨hpre, hrest⟩ := List.forall_mem_append.mp hf
  obtain ⟨⟨hsite, hpinned⟩, hpost⟩ := List.forall_mem_cons.mp hrest
  obtain ⟨mid, s₁, hrun, h⟩ := each_append_eq_ok.mp h
  obtain ⟨hplace, how, s₂, hone, hbehind⟩ := each_cons_eq_ok.mp h
  have hbefore := each_keepsBut hpre ht hrun
  have hsite₁ := Nat.lt_of_lt_of_le hsite hbefore.size
  obtain ⟨w, hw⟩ := one_patches hsite₁ (hbefore.regs ▸ hpinned) (hbefore.targetsBelow ht) hone
  have hkeeps := hbefore.trans hw.keepsBut
  have hafter := each_keepsBut (hkeeps.resolvable hpost) (hkeeps.targetsBelow ht) hbehind
  -- No other fixup has this place, neither before nor behind.
  rw [List.map_append, List.map_cons] at hn
  obtain ⟨-, htail, hapart⟩ := List.nodup_append.mp hn
  have hpre' : ∀ g ∈ pre, g.site ≠ f.site := fun g hg =>
    hapart g.site (List.mem_map_of_mem hg) f.site List.mem_cons_self
  have hpost' : ∀ g ∈ post, g.site ≠ f.site := fun g hg heq =>
    (List.nodup_cons.mp htail).1 (heq ▸ List.mem_map_of_mem hg)
  have hstands := hbefore.code f.site hsite hpre'
  refine ⟨mid, s₁, how, s₂, w, hrun, hone, hbehind, hstands.symm.trans hplace, hstands, hw, ?_⟩
  rw [hafter.code f.site (Nat.lt_of_lt_of_le hsite₁ hw.size) hpost', hw.written hsite₁]

/-- An emission with a fixup for each placeholder of its items, all of whose fixups are resolved. -/
theorem allResolved_of_emitted {p : Plan} {s s' : Emission} {total : Tally} (hs : p.Emitted s)
    (h : all p.setting s = .ok total s') : AllResolved p.setting s total s' := by
  have htake : takeFixups p.setting s = .ok s.fixups.toList { s with fixups := #[] } := rfl
  have heach : each {} s.fixups.toList p.setting { s with fixups := #[] } = .ok total s' := by
    rw [← h]
    exact (bind_run_ok htake).symm
  have hresolvable : Resolvable s.fixups.toList { s with fixups := #[] } := by
    intro f hf
    refine ⟨?_, hs.regs ▸ hs.pinned f (hs.fixups ▸ hf)⟩
    rw [hs.fixups] at hf
    show f.site < s.code.size
    rw [hs.size]
    exact (site_bounds hf).2
  have hdistinct : (s.fixups.toList.map Fixup.site).Nodup := hs.fixups ▸ nodup_sites p.room p.body
  have hkeeps := each_keepsBut hresolvable hs.below heach
  refine ⟨hdistinct, fun pre f post hsplit => ?_, hkeeps.code, hkeeps.size, hkeeps.fixups,
    hkeeps.regs⟩
  rw [hsplit] at hresolvable hdistinct heach
  exact each_once hresolvable hs.below hdistinct heach

end Dynarec.Resolve

namespace Dynarec.Emit.RegisterUse

/-- What is stored to the record is what is loaded from it. -/
structure Mirrored (store load : List Host.Instr) : Prop where
  gprs : ∀ x offset, .str .w x .context offset ∈ store ↔ .ldr .w x .context offset ∈ load
  vregs : ∀ v offset, .strV .d v .context offset ∈ store ↔ .ldrV .d v .context offset ∈ load
  flags : ∀ x, .mrsFlags x ∈ store ↔ .msrFlags x ∈ load

theorem mirrored_record (u : RegisterUse) : Mirrored u.storeToRecord u.loadFromRecord := by
  refine ⟨fun x offset => ?_, fun v offset => ?_, fun x => ?_⟩
  · cases hu : u.usesFlags <;> simp [storeToRecord, loadFromRecord, hu]
  · cases hu : u.usesFlags <;> simp [storeToRecord, loadFromRecord, hu]
  · cases hu : u.usesFlags <;> simp [storeToRecord, loadFromRecord, hu]

end Dynarec.Emit.RegisterUse

namespace Dynarec.Compile

open Dynarec.Emit Dynarec.Host Dynarec.Resolve

/-- The prologue, the trailer and all calls of the host in a unit go by the registers of `u`. -/
structure Shared (shape : Shape) (u : RegisterUse) (c : Compiled) : Prop where
  frame : ∃ frame, Frame.ofUse u c.stats.spillBytes = .ok frame ∧
    Found (instrAt? c.code) 0 (frame.prologue u) ∧
    c.stats.prologueWords = (frame.prologue u).length ∧
    ∀ n, c.stats.trailer = some n → Found (instrAt? c.code) n (frame.trailer u)
  calls : ∀ k x, instrAt? c.code k = some (.blr x) →
    ∃ tier, HostCallAt (instrAt? c.code) shape u tier k
  synced : Synced c u.storeToRecord u.loadFromRecord
  mirrored : RegisterUse.Mirrored u.storeToRecord u.loadFromRecord

namespace Built

variable {config : Config} {dispatch : DispatchTable} {t : Guest.Trace} {c : Compiled} {p : Plan}
  {s : Emission} (h : Built config dispatch t c p s)

include h

theorem shared : Shared p.setting.shape p.use c := by
  refine ⟨⟨p.frame, ?_, h.found_prologue, h.prologueWords_eq, fun n => h.found_trailer⟩,
    fun k x hi => ?_, h.synced (List.infix_refl _) (List.infix_refl _), p.use.mirrored_record⟩
  · rw [h.stats]
    exact if_neg (Nat.not_lt.mpr (Compile.spillBytes_le p.use p.setting.shape))
  · obtain ⟨-, -, tier, -, hcall⟩ := h.hostCallAt_of_blr hi
    exact ⟨tier, hcall⟩

/-- The fixups of a unit are resolved in the course of its compilation. -/
theorem all_run : ∃ total s', Resolve.all p.setting s = .ok total s' := by
  obtain ⟨total, s', hrun, -⟩ := h.each_run (List.append_nil _).symm
  have htake : takeFixups p.setting s = .ok s.fixups.toList { s with fixups := #[] } := rfl
  exact ⟨total, s', (bind_run_ok htake).trans hrun⟩

end Built

/-- Resolution is confined, and the masks are final before it. Whatever trace is emitted, if its
fixups are resolved each placeholder is written over once, no other word that stands is changed, the
code only grows, no fixup is left, and the registers in use and the free ones are as they were. So
the frame of the unit and all its calls go by the masks that the body left. -/
theorem resolution_confined {config : Config} {dispatch : DispatchTable} {t : Guest.Trace}
    {s s' : Emission} {total : Tally}
    (hbody : (do reservePrologue; Compile.body lower t.blocks.toList : Emit Unit)
      { config, dispatch, shape := .ofTrace t } {} = .ok () s)
    (hall : Resolve.all { config, dispatch, shape := .ofTrace t } s = .ok total s') :
    AllResolved { config, dispatch, shape := .ofTrace t } s total s' ∧
      ∀ c, compile lower config dispatch t = .ok c → Shared (.ofTrace t) s'.regs c := by
  let e : Setting := { config, dispatch, shape := .ofTrace t }
  obtain ⟨u, -, -, s₀, s₁, hreserve, hy, hemitted⟩ :=
    body_yields e (rfl : _ = Guest.spelledBlocks {} t.blocks.toList)
  have hrun : Compile.body lower t.blocks.toList e s₀ = .ok () s :=
    (bind_run_ok hreserve).symm.trans hbody
  have hs : s₁ = s := by
    rw [hy.run (hy.of_ok () s hrun)] at hrun
    cases hrun
    rfl
  rw [hs] at hemitted
  have hresolved := allResolved_of_emitted hemitted hall
  refine ⟨hresolved, fun c hc => ?_⟩
  obtain ⟨p, s₂, hbuilt⟩ := compile_ok hc
  have hs₂ : s₂ = s := by
    have hbody₂ := hbuilt.body
    rw [hbuilt.setting, hbody] at hbody₂
    cases hbody₂
    rfl
  have hshared := hbuilt.shared
  rw [hbuilt.setting] at hshared
  rw [hresolved.regs, ← hs₂, hbuilt.emitted.regs]
  exact hshared

theorem resolution_confined_call : ∃ t c s s' total,
    (do reservePrologue; Compile.body lower (Guest.Trace.blocks t).toList : Emit Unit)
      { config := {}, dispatch := DispatchTable.empty, shape := .ofTrace t } {} = .ok () s ∧
    s.fixups ≠ #[] ∧
    Resolve.all { config := {}, dispatch := DispatchTable.empty, shape := .ofTrace t } s =
      .ok total s' ∧
    AllResolved { config := {}, dispatch := DispatchTable.empty, shape := .ofTrace t } s total s' ∧
    compile lower {} DispatchTable.empty t = .ok c ∧ Shared (.ofTrace t) s'.regs c ∧
    instrAt? c.code 80 = some (.blr ⟨7⟩) := by
  have hunit : (translate {} DispatchTable.empty maskedImage 0x1000).toOption.any (fun c =>
      decide (instrAt? c.code 80 = some (.blr ⟨7⟩))) = true := by decide +kernel
  obtain ⟨c, hc, hcall⟩ := exists_ok_of_any hunit
  have hcall := of_decide_eq_true hcall
  obtain ⟨t, p, htranslated⟩ := translate_ok hc
  obtain ⟨s, hbuilt⟩ := htranslated.built
  obtain ⟨total, s', hall⟩ := hbuilt.all_run
  have hbody := hbuilt.body
  rw [hbuilt.setting] at hall hbody
  have hcompile : compile lower {} DispatchTable.empty t = .ok c := by
    rw [← hc, translate, htranslated.trace]
  have hfixups : s.fixups ≠ #[] := by
    intro hnil
    obtain ⟨f, hf, -⟩ := hbuilt.hostCallAt_of_blr hcall
    rw [← hbuilt.emitted.fixups, hnil] at hf
    exact absurd hf List.not_mem_nil
  obtain ⟨hresolved, hshared⟩ := resolution_confined hbody hall
  exact ⟨t, c, s, s', total, hbody, hfixups, hall, hresolved, hcompile, hshared c hcompile, hcall⟩

end Dynarec.Compile
