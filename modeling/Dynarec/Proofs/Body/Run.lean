import Dynarec.Proofs.Body.IfThen
import Dynarec.Proofs.Host.Branch
import Dynarec.Proofs.Lower.Leases

/-! # Running the emission of a body

The body of a trace is the listing of its blocks, spelled out. While a region is open its branch
still lacks a displacement; `Emission.draft` describes that state, and closing the region turns it
into the finished one. -/

namespace Dynarec.Emit

namespace Emission

/-- The emission that has drafted items under a test since `s`. -/
def draft (s : Emission) (u : RegisterUse) (cur : Current) (c : Cond) (xs : List Item) :
    Emission :=
  { (if c = .al then s.extend xs
      else { s.extend (.op (.bCond c.invert 0) :: xs) with
        region := { s.region with active := c, site := some s.code.size } }) with
    regs := u
    current := cur }

variable {s : Emission} {u : RegisterUse} {cur : Current} {c : Cond} {xs : List Item}

/-- The emission with another if-then state. -/
def withIt (s : Emission) (q : Guest.ItState) : Emission :=
  { s with region := { s.region with it := q } }

/-- No region is open. -/
def Closed (s : Emission) : Prop := s.region.active = .al ∧ s.region.site = none

theorem extend_draft (ys : List Item) :
    (s.draft u cur c xs).extend ys = s.draft u cur c (xs ++ ys) := by
  unfold draft
  by_cases hc : c = .al
  · simp only [hc, if_true]
    rw [← extend_extend]
    rfl
  · simp only [hc, if_false]
    rw [← List.cons_append, ← extend_extend]
    rfl

theorem withRegs_draft (v : RegisterUse) : (s.draft u cur c xs).withRegs v = s.draft v cur c xs :=
  rfl

@[simp] theorem regs_draft : (s.draft u cur c xs).regs = u := rfl

@[simp] theorem current_draft : (s.draft u cur c xs).current = cur := rfl

theorem draft_al_nil : s.draft u cur .al [] = { s.withRegs u with current := cur } := by
  simp only [draft, if_true, extend_nil]
  rfl

theorem draft_al_append (ys : List Item) :
    (s.extend xs).draft u cur .al ys = s.draft u cur .al (xs ++ ys) := by
  simp only [draft, if_true, extend_extend]

theorem active_draft (h : s.Closed) : (s.draft u cur c xs).region.active = c := by
  unfold draft
  by_cases hc : c = .al
  · simp only [hc, if_true]
    exact h.1
  · simp only [hc, if_false]

theorem it_draft : (s.draft u cur c xs).region.it = s.region.it := by
  unfold draft
  by_cases hc : c = .al
  · simp only [hc, if_true]
    rfl
  · simp only [hc, if_false]

theorem withIt_draft (q : Guest.ItState) :
    (s.draft u cur c xs).withIt q = (s.withIt q).draft u cur c xs := by
  unfold draft
  by_cases hc : c = .al
  · simp only [hc, if_true]
    rfl
  · simp only [hc, if_false]
    rfl

end Emission

open Emission

variable {e : Setting} {s : Emission} {u : RegisterUse} {cur : Current} {c : Cond}
  {xs : List Item}

/-! ### Closing and opening regions -/

theorem closeRegion_al (h : s.Closed) :
    closeRegion e (s.draft u cur .al xs) = .ok () ((s.extend xs).draft u cur .al []) := by
  have hregion : ({ active := .al, site := none, it := s.region.it } : Region) = s.region := by
    rw [← h.1, ← h.2]
  have hsite : (s.draft u cur .al xs).region.site = none := by
    simp only [draft, if_true]
    exact h.2
  simp only [closeRegion, takeRegionSite, run_bind, run_modifyGet, hsite, run_pure]
  simp only [draft, if_true, region_extend, hregion, extend_nil]

theorem closeRegion_empty (h : s.Closed) (hc : c ≠ .al) :
    closeRegion e (s.draft u cur c []) = .ok () (s.draft u cur .al []) := by
  have hregion : ({ active := .al, site := none, it := s.region.it } : Region) = s.region := by
    rw [← h.1, ← h.2]
  have hdisp : (displacement s.code.size (s.code.size + 1) == 1) = true := by
    rw [beq_iff_eq]
    unfold displacement
    omega
  have hpop : ∀ w : Word, (s.code.push w).pop = s.code := fun w => Array.pop_push
  simp only [closeRegion, takeRegionSite, draft, hc, if_false, run_bind, run_modifyGet, ip_run,
    size_extend, List.length_singleton, hdisp, if_true, eraseLast, run_pure, hregion]
  simp only [Emission.extend, fixupsFrom, exitsFrom, Item.fixup?, Item.exit?, Option.toList_none,
    List.append_nil, Array.append_empty, List.map_cons, List.map_nil, ← Array.push_eq_append, hpop,
    List.map_nil]

theorem closeRegion_run (h : s.Closed) (hc : c ≠ .al) (hx : xs ≠ []) :
    Yields closeRegion e (s.draft u cur c xs) (Host.fits19 (xs.length + 1) = true) ()
      ((s.extend (.op (.bCond c.invert (xs.length + 1)) :: xs)).draft u cur .al []) := by
  have hregion : ({ active := .al, site := none, it := s.region.it } : Region) = s.region := by
    rw [← h.1, ← h.2]
  have hlen : 0 < xs.length := List.length_pos_iff.mpr hx
  let d := (s.extend (.op (.bCond c.invert 0) :: xs)).draft u cur .al []
  have htake : takeRegionSite e (s.draft u cur c xs) = .ok (some s.code.size) d := by
    simp only [takeRegionSite, run_modifyGet, d, draft, hc, if_false, if_true, extend_nil, hregion,
      region_extend]
  have hcode : d.code = (s.extend (.op (.bCond c.invert 0) :: xs)).code := by
    simp only [d, draft, if_true, extend_nil]
  have hsize : d.code.size = s.code.size + (xs.length + 1) := by
    rw [hcode, size_extend, List.length_cons]
  have hread : d.code[s.code.size]? = some (Host.Instr.bCond c.invert 0).encode := by
    simp only [hcode, Emission.extend, Array.getElem?_append_right (Nat.le_refl _), Nat.sub_self]
    rfl
  have hdisp : displacement s.code.size d.code.size = xs.length + 1 := by
    rw [hsize]
    unfold displacement
    omega
  have hne : ((xs.length + 1 : Int) == 1) = false := by
    rw [beq_eq_false_iff_ne]
    omega
  have hrun : closeRegion e (s.draft u cur c xs) =
      if Host.fits19 (xs.length + 1) = true then
        .ok () ((s.extend (.op (.bCond c.invert (xs.length + 1)) :: xs)).draft u cur .al [])
      else .error (.error (.conditionalRegionTooLong s.code.size (xs.length + 1))) d := by
    refine (bind_run_ok htake).trans ?_
    simp only [run_bind, ip_run, hdisp, hne, Bool.false_eq_true, if_false]
    by_cases hf : Host.fits19 (xs.length + 1) = true
    · have hwrite := writeWord_run (Host.Branch.withDisp (Host.Instr.bCond c.invert 0).encode
        (xs.length + 1)) e (show s.code.size < d.code.size by omega)
      rw [Host.withDisp_bCond] at hwrite
      simp only [hf, Bool.not_true, Bool.false_eq_true, if_false, if_true, run_bind, readWord?,
        run_get, run_pure, hread, Host.withDisp_bCond, hwrite]
      rw [← write_extend_op s (.bCond c.invert 0)]
      simp only [d, draft, if_true, extend_nil]
      rfl
    · simp only [hf, Bool.not_false, if_true, run_fail, Bool.false_eq_true, if_false]
  exact .of_ite hrun

theorem closeRegion_draft (h : s.Closed) :
    Yields closeRegion e (s.draft u cur c xs) (Compile.RegionFits c xs) ()
      ((s.extend (Compile.regionItems c xs)).draft u cur .al []) := by
  unfold Compile.RegionFits Compile.regionItems
  by_cases hc : c = .al
  · subst hc
    simp only [true_or, if_true]
    exact (Yields.of_run (closeRegion_al h)).congr (iff_of_true trivial (fun h => absurd rfl h))
  · by_cases hx : xs = []
    · subst hx
      simp only [or_true, if_true, extend_nil]
      exact (Yields.of_run (closeRegion_empty h hc)).congr (iff_of_true trivial (fun _ => by decide))
    · simp only [hc, hx, or_self, if_false]
      exact (closeRegion_run h hc hx).congr ⟨fun hf _ => hf, fun hf => hf hc⟩

theorem openRegion_run (hc : c ≠ .al) :
    openRegion c e (s.draft u cur .al []) = .ok () (s.draft u cur c []) := by
  refine (bind_run_ok (emitInstr_run rfl e _)).trans ?_
  simp only [run_modify, draft, if_true, hc, if_false, Emission.extend, fixupsFrom,
    exitsFrom, Item.fixup?, Item.exit?, Option.toList_none, List.append_nil, Array.append_empty,
    List.map_cons, List.map_nil, Array.push_eq_append]
  rfl

/-- What is finished, and what is still under test, when the test changes to `c'`. -/
def entered (c : Cond) (xs : List Item) (c' : Cond) : List Item × List Item :=
  if c' = c then ([], xs) else (Compile.regionItems c xs, [])

theorem transition_run (h : s.Closed) (c' : Cond) :
    Yields (transition c') e (s.draft u cur c xs) (c' ≠ c → Compile.RegionFits c xs) ()
      ((s.extend (entered c xs c').1).draft u cur c' (entered c xs c').2) := by
  unfold transition entered
  refine Yields.after (run_get e _) ?_
  rw [active_draft h]
  by_cases hc : c' = c
  · simp only [hc, ne_eq, not_true_eq_false, if_false, if_true, extend_nil, false_implies]
    exact Yields.of_run rfl
  · simp only [ne_eq, hc, not_false_eq_true, if_true, if_false, true_implies]
    refine (closeRegion_draft h).before ?_
    by_cases ha : c' = .al
    · subst ha
      rfl
    · have hal : c'.isAlways = false := by
        rw [Bool.eq_false_iff]
        exact fun h => ha ((Cond.isAlways_iff c').mp h)
      simp only [hal, Bool.not_false, if_true]
      exact openRegion_run ha

end Dynarec.Emit

namespace Dynarec.Compile

open Dynarec.Emit Dynarec.Emit.Emission Dynarec.Lower

variable {e : Setting} {s : Emission} {u : RegisterUse} {cur : Current} {c : Cond}
  {xs : List Item}

/-! ### One instruction -/

/-- Everything that an instruction reads or writes is in use, the flags too. -/
structure InUse (u : RegisterUse) (i : Guest.Instr) : Prop where
  covers : Covers u i.kind
  tested : i.cond ≠ .al → u.usesFlags = true
  flags : i.setsFlags = true → u.usesFlags = true

theorem InUse.mono {u v : RegisterUse} {i : Guest.Instr} (h : InUse u i) (hle : u.Le v) :
    InUse v i :=
  ⟨h.covers.mono hle, fun hc => hle.flags (h.tested hc), fun hs => hle.flags (h.flags hs)⟩

/-- A state between two instructions, or inside one, with an if-then state. -/
structure Ready (q : Guest.ItState) (s : Emission) : Prop where
  closed : s.Closed
  it : s.region.it = q

variable {q q' : Guest.ItState}

theorem Ready.extend (h : Ready q s) (xs : List Item) : Ready q (s.extend xs) := ⟨h.closed, h.it⟩

theorem Ready.withIt (h : Ready q s) (q' : Guest.ItState) : Ready q' (s.withIt q') := ⟨h.closed, rfl⟩

/-- The part of an instruction's emission that begins with its test. -/
def emitUnder (i : Guest.Instr) (predicate : Cond) : Emit Bool := do
  transition ((← get).region.loweredPredicate i)
  lower i
  endInstr
  if i.setsFlags then
    markFlags
    closeRegion
  advanceIt
  return i.endsFlowUnder predicate

theorem predicate_draft (h : Ready q s) (i : Guest.Instr) :
    (s.draft u cur c xs).region.predicate i = (i.under q).cond := by
  simp only [Region.predicate, it_draft, h.it, Guest.Instr.under]

theorem loweredPredicate_draft (h : Ready q s) (i : Guest.Instr) :
    (s.draft u cur c xs).region.loweredPredicate i = lowered (i.under q) := by
  simp only [Region.loweredPredicate, predicate_draft h, lowered]
  rfl

theorem advanceIt_draft (h : Ready q s) {i : Guest.Instr} (hi : i.kind.isIfThen = false) :
    advanceIt e (s.draft u cur c xs) = .ok () ((s.withIt (q.behind i)).draft u cur c xs) := by
  have hbehind : q.behind i = if q.isActive then q.advance else q := by
    unfold Guest.ItState.behind
    split
    · rename_i hk
      rw [hk] at hi
      cases hi
    · rfl
  have hself : s.withIt q = s := by
    unfold Emission.withIt
    rw [← h.it]
  simp only [advanceIt, run_modify, it_draft, h.it, hbehind]
  split
  · rw [← withIt_draft]
    rfl
  · rw [hself]

theorem beginInstr_draft (i : Guest.Instr) :
    beginInstr i (i.under q).cond e (s.draft u cur c xs) =
      .ok () (s.draft u (currentOf (i.under q)) c xs) := rfl

theorem endInstr_draft :
    endInstr e (s.draft u cur c xs) = .ok () (s.draft u {} c xs) := rfl

theorem syncCheck_draft (h : s.Closed) (i : Guest.Instr) :
    Yields (closeRegion >>= fun _ => syncCheck) e (s.draft u (currentOf i) c xs) (RegionFits c xs) ()
      ((s.extend (regionItems c xs ++ syncItems i)).draft u (currentOf i) .al []) := by
  refine (closeRegion_draft h).before ?_
  unfold syncCheck
  refine (bind_run_ok (asm_run (show Encodable syncOps from rfl) e _)).trans ?_
  refine (bind_run_ok (pushFixup_run _ _)).trans ?_
  have hregs : u.afterHole .syncPoint .none = u := rfl
  simp only [run_pure, extend_draft, withRegs_draft, regs_draft, current_draft, hregs]
  rw [← extend_extend, draft_al_append (s := s.extend (regionItems c xs)) [],
    List.append_nil]
  rfl

/-- The draft that an instruction leaves: its condition and the items under it. -/
def drafted (config : Config) (c : Cond) (xs : List Item) (i : Guest.Instr) : List Item :=
  (entered c xs (lowered i)).2 ++ instrItems config i

theorem emitUnder_run (hs : Ready q s) (hu : u.Rested) {i j : Guest.Instr}
    (hi : i.kind.isIfThen = false) (hj : j = i.under q)
    (hflags : j.cond ≠ .al → u.usesFlags = true) (c : Cond) (xs : List Item) :
    ∃ v, u.Le v ∧ v.Rested ∧ InUse v j ∧
      (j.setsFlags = false →
        Yields (emitUnder i j.cond) e (s.draft u (currentOf j) c xs)
          (lowered j ≠ c → RegionFits c xs) j.endsFlow
          (((s.withIt (q.behind i)).extend (entered c xs (lowered j)).1).draft v {} (lowered j)
            (drafted e.config c xs j))) ∧
      (j.setsFlags = true →
        Yields (emitUnder i j.cond) e (s.draft u (currentOf j) c xs)
          ((lowered j ≠ c → RegionFits c xs) ∧ RegionFits (lowered j) (drafted e.config c xs j))
          j.endsFlow
          (((s.withIt (q.behind i)).extend ((entered c xs (lowered j)).1 ++
            regionItems (lowered j) (drafted e.config c xs j))).draft v {} .al [])) := by
  let t := (s.extend (entered c xs (lowered j)).1).draft u (currentOf j) (lowered j)
    (entered c xs (lowered j)).2
  have hready := hs.extend (entered c xs (lowered j)).1
  obtain ⟨v, hv, hle, hrest, hcov⟩ := lower_run (e := e) (s := t) hu j
  rw [withRegs_draft, extend_draft] at hv
  have hlower : lower i = lower j := by rw [hj]; rfl
  have hsets : i.setsFlags = j.setsFlags := by rw [hj]; rfl
  have hends : i.endsFlowUnder j.cond = j.endsFlow := by rw [hj]; rfl
  have htest : (s.draft u (currentOf j) c xs).region.loweredPredicate i = lowered j := by
    rw [loweredPredicate_draft hs, hj]
  unfold emitUnder
  rw [hlower, hsets, hends]
  cases hset : j.setsFlags with
  | false =>
    refine ⟨v, hle, hrest, ⟨hcov, fun hc => hle.flags (hflags hc), by rw [hset]; exact nofun⟩,
      fun _ => ?_, nofun⟩
    refine Yields.after (run_get e _) ?_
    rw [htest]
    refine (transition_run hs.closed (lowered j)).before ?_
    refine (bind_run_ok hv).trans ((bind_run_ok endInstr_draft).trans ?_)
    simp only [Bool.false_eq_true, if_false]
    exact (bind_run_ok (advanceIt_draft hready hi)).trans rfl
  | true =>
    refine ⟨v.markFlags, hle.trans v.le_markFlags, hrest,
      ⟨hcov.mono v.le_markFlags, fun _ => rfl, fun _ => rfl⟩, nofun, fun _ => ?_⟩
    refine Yields.after (run_get e _) ?_
    rw [htest]
    refine (transition_run hs.closed (lowered j)).bind ?_
    refine Yields.after hv (Yields.after endInstr_draft ?_)
    simp only [if_true]
    refine Yields.after (markFlags_run e _) ?_
    rw [← extend_extend]
    refine (closeRegion_draft hready.closed).before ?_
    exact (bind_run_ok (advanceIt_draft (hready.extend _) hi)).trans rfl

/-! ### The instructions of a block -/

/-- What follows in a block, known for every draft with which it may begin: from parts `ps` on,
the code is that of the parts, the if-then state goes from `q` to `q'`, and the register use at the
end satisfies `P`. -/
def Continues (e : Setting) (K : Emit Bool) (q q' : Guest.ItState) (ps : List Part) (b : Bool)
    (P : RegisterUse → Prop) : Prop :=
  ∀ (s : Emission) (u : RegisterUse) (c : Cond) (js : List Guest.Instr),
    Ready q s → u.Rested → ∃ v, u.Le v ∧ v.Rested ∧ P v ∧
      Yields K e (s.draft u {} c (js.flatMap (instrItems e.config)))
        (PartsFit e.config (Part.attach c js ps)) b
        (((s.withIt q').extend (partsItems e.config (Part.attach c js ps))).draft v {} .al [])

theorem emitUnder_continues {K : Bool → Emit Bool} {ps : List Part} {b : Bool}
    {P : RegisterUse → Prop} {i j : Guest.Instr} (hi : i.kind.isIfThen = false)
    (hj : j = i.under q) (hK : Continues e (K j.endsFlow) (q.behind i) q' ps b P)
    (hs : Ready q s) (hu : u.Rested) (hflags : j.cond ≠ .al → u.usesFlags = true) (c : Cond)
    (js : List Guest.Instr) :
    ∃ v, u.Le v ∧ v.Rested ∧ InUse v j ∧ P v ∧
      Yields (emitUnder i j.cond >>= K) e
        (s.draft u (currentOf j) c (js.flatMap (instrItems e.config)))
        (PartsFit e.config (Part.attach c js (Part.cons j ps))) b
        (((s.withIt q').extend
          (partsItems e.config (Part.attach c js (Part.cons j ps)))).draft v {} .al []) := by
  obtain ⟨v, hle, hrest, hin, hplain, hset⟩ :=
    emitUnder_run (e := e) hs hu hi hj hflags c (js.flatMap (instrItems e.config))
  have hsnoc : js.flatMap (instrItems e.config) ++ instrItems e.config j =
      (js ++ [j]).flatMap (instrItems e.config) := by
    simp only [List.flatMap_append, List.flatMap_cons, List.flatMap_nil, List.append_nil]
  have hone : [] ++ instrItems e.config j = [j].flatMap (instrItems e.config) := by
    simp only [List.flatMap_cons, List.flatMap_nil, List.append_nil, List.nil_append]
  have hready := hs.withIt (q.behind i)
  -- What follows starts behind any finished items.
  have hnext := fun ys c js => hK ((s.withIt (q.behind i)).extend ys) v c js (hready.extend ys) hrest
  have hmerge : ∀ ys zs : List Item, (((s.withIt (q.behind i)).extend ys).withIt q').extend zs =
      (s.withIt q').extend (ys ++ zs) := by
    intro ys zs
    rw [← extend_extend]
    rfl
  by_cases hsets : j.setsFlags = true
  · -- The run ends here; what follows begins without one.
    have hy := hset hsets
    obtain ⟨hitems, hfits⟩ := attach_al_nil e.config ps
    unfold Part.cons
    simp only [hsets, if_true]
    by_cases hc : lowered j = c
    · simp only [entered, drafted, hc, if_true, hsnoc, List.nil_append] at hy
      obtain ⟨w, hle', hrest', hp, hw⟩ := hnext _ .al []
      refine ⟨w, hle.trans hle', hrest', hin.mono hle', hp, ?_⟩
      rw [hmerge, hitems] at hw
      rw [hc, attach_run_eq, partsItems_cons]
      exact (hy.bind hw).congr (by
        rw [partsFit_cons, hfits]
        exact and_congr_left fun _ => and_iff_right (fun h => absurd rfl h))
    · simp only [entered, drafted, hc, if_false, hone] at hy
      obtain ⟨w, hle', hrest', hp, hw⟩ := hnext _ .al []
      refine ⟨w, hle.trans hle', hrest', hin.mono hle', hp, ?_⟩
      rw [hmerge, hitems] at hw
      rw [attach_run_ne hc, partsItems_cons, partsItems_cons, ← List.append_assoc]
      exact (hy.bind hw).congr (by
        rw [partsFit_cons, partsFit_cons, hfits, ← and_assoc]
        exact and_congr_left fun _ => and_congr_left fun _ => ⟨fun h => h hc, fun h _ => h⟩)
  · have hy := hplain (by simpa using hsets)
    unfold Part.cons
    simp only [hsets]
    by_cases hc : lowered j = c
    · simp only [entered, drafted, hc, if_true, hsnoc] at hy
      obtain ⟨w, hle', hrest', hp, hw⟩ := hnext [] c (js ++ [j])
      refine ⟨w, hle.trans hle', hrest', hin.mono hle', hp, ?_⟩
      rw [hmerge, List.nil_append] at hw
      simp only [hc, Bool.false_eq_true, if_false]
      rw [attach_attach]
      exact (hy.bind hw).congr (and_iff_right (fun h => absurd rfl h))
    · simp only [entered, drafted, hc, if_false, hone] at hy
      obtain ⟨w, hle', hrest', hp, hw⟩ := hnext _ (lowered j) [j]
      refine ⟨w, hle.trans hle', hrest', hin.mono hle', hp, ?_⟩
      simp only [Bool.false_eq_true, if_false]
      rw [attach_of_ne hc, partsItems_cons, partsFit_cons]
      rw [hmerge] at hw
      exact (hy.bind hw).congr (and_congr_left fun _ => ⟨fun h => h hc, fun h _ => h⟩)

/-- The register use when an instruction begins: a condition reads the flags. -/
def tested (u : RegisterUse) (i : Guest.Instr) : RegisterUse :=
  if i.cond.isAlways then u else u.markFlags

theorem le_tested (u : RegisterUse) (i : Guest.Instr) : u.Le (tested u i) := by
  unfold tested
  split
  · exact .refl u
  · exact u.le_markFlags

theorem rested_tested {u : RegisterUse} (h : u.Rested) (i : Guest.Instr) : (tested u i).Rested := by
  unfold tested
  split <;> exact h

theorem usesFlags_tested (u : RegisterUse) {i : Guest.Instr} (h : i.cond ≠ .al) :
    (tested u i).usesFlags = true := by
  unfold tested
  rw [if_neg (fun ha => h ((Cond.isAlways_iff _).mp ha))]
  rfl

/-- The emission of an instruction up to its test. -/
def instrUnder (atLoopEnd : Bool) (i : Guest.Instr) : Emit Bool := do
  let predicate := (← get).region.predicate i
  if !predicate.isAlways then markFlags
  beginInstr i predicate
  if atLoopEnd then
    closeRegion
    syncCheck
  emitUnder i predicate

theorem instr_eq (atLoopEnd : Bool) {i : Guest.Instr} (hi : i.kind.isIfThen = false) :
    instr lower atLoopEnd i = instrUnder atLoopEnd i := by
  obtain ⟨address, encoding, name, kind, flags, cond⟩ := i
  cases kind with
  | ifThen firstcond mask => cases hi
  | _ => rfl

theorem instr_draft (hs : Ready q s) {i j : Guest.Instr} (hi : i.kind.isIfThen = false)
    (hj : j = i.under q) (atLoopEnd : Bool) :
    instr lower atLoopEnd i e (s.draft u {} c xs) =
      (if atLoopEnd then (closeRegion >>= fun _ => syncCheck) >>= fun _ => emitUnder i j.cond
        else emitUnder i j.cond) e (s.draft (tested u j) (currentOf j) c xs) := by
  subst hj
  rw [instr_eq atLoopEnd hi]
  refine (bind_run_ok (run_get e _)).trans ?_
  simp only [predicate_draft hs]
  generalize hp : (i.under q).cond = predicate
  have hbegin : ∀ v : RegisterUse,
      (beginInstr i predicate >>= fun _ => if atLoopEnd then closeRegion >>= fun _ =>
        syncCheck >>= fun _ => emitUnder i predicate else emitUnder i predicate) e
          (s.draft v {} c xs) =
      (if atLoopEnd then (closeRegion >>= fun _ => syncCheck) >>= fun _ => emitUnder i predicate
        else emitUnder i predicate) e (s.draft v (currentOf (i.under q)) c xs) := by
    intro v
    rw [← hp]
    refine (bind_run_ok (beginInstr_draft i)).trans ?_
    cases atLoopEnd with
    | false => rfl
    | true => simp only [if_true, bind_assoc]
  cases ha : predicate.isAlways with
  | true =>
    simp only [tested, hp, ha, Bool.not_true, Bool.false_eq_true, if_false, if_true]
    exact hbegin u
  | false =>
    simp only [tested, hp, ha, Bool.not_false, Bool.false_eq_true, if_true, if_false]
    exact (bind_run_ok (markFlags_run e _)).trans (hbegin u.markFlags)

theorem instr_continues {K : Bool → Emit Bool} {ps : List Part} {b : Bool}
    {P : RegisterUse → Prop} {i j : Guest.Instr} (hi : i.kind.isIfThen = false)
    (hj : j = i.under q) (atLoopEnd : Bool)
    (hK : Continues e (K j.endsFlow) (q.behind i) q' ps b P) :
    Continues e (instr lower atLoopEnd i >>= K) q q'
      (if atLoopEnd then .check j :: Part.cons j ps else Part.cons j ps) b
      (fun v => InUse v j ∧ P v) := by
  intro s u c js hs hu
  have hle := le_tested u j
  have hu' := rested_tested hu j
  have hflags := usesFlags_tested u (i := j)
  have hrun : instr lower atLoopEnd i e (s.draft u {} c (js.flatMap (instrItems e.config))) = _ :=
    instr_draft hs hi hj atLoopEnd
  cases atLoopEnd with
  | false =>
    obtain ⟨v, hle', hrest, hin, hp, hy⟩ := emitUnder_continues hi hj hK hs hu' hflags c js
    exact ⟨v, hle.trans hle', hrest, ⟨hin, hp⟩, Yields.of_eq (bind_run_eq hrun) hy⟩
  | true =>
    let ys := regionItems c (js.flatMap (instrItems e.config)) ++ syncItems j
    have hsync : Yields _ e (s.draft (tested u j) (currentOf j) c (js.flatMap (instrItems e.config)))
      _ _ _ := syncCheck_draft hs.closed j
    obtain ⟨v, hle', hrest, hin, hp, hy⟩ :=
      emitUnder_continues hi hj hK (hs.extend ys) hu' hflags .al []
    obtain ⟨hitems, hfits⟩ := attach_al_nil e.config (Part.cons j ps)
    refine ⟨v, hle.trans hle', hrest, ⟨hin, hp⟩, Yields.of_eq (bind_run_eq hrun) ?_⟩
    simp only [if_true]
    rw [bind_assoc]
    rw [hitems, show (s.extend ys).withIt q' = (s.withIt q').extend ys from rfl, extend_extend] at hy
    have hattach : Part.attach c js (.check j :: Part.cons j ps) =
        .run c js :: .check j :: Part.cons j ps := rfl
    rw [hattach, partsItems_cons, partsItems_cons, ← List.append_assoc]
    exact (hsync.bind hy).congr (by
      rw [partsFit_cons, partsFit_cons, hfits]
      exact and_congr_right fun _ => (and_iff_right trivial).symm)

theorem instr_ifThen (atLoopEnd : Bool) {i : Guest.Instr} (hi : i.kind.isIfThen = true) :
    instr lower atLoopEnd i e (s.draft u cur c xs) =
      .ok false ((s.withIt (q.behind i)).draft u cur c xs) := by
  obtain ⟨address, encoding, name, kind, flags, cond⟩ := i
  cases kind with
  | ifThen firstcond mask => exact congrArg (EStateM.Result.ok false) (withIt_draft _)
  | _ => cases hi

theorem ifThen_continues {K : Bool → Emit Bool} {ps : List Part} {b : Bool}
    {P : RegisterUse → Prop} {i : Guest.Instr} (hi : i.kind.isIfThen = true) (atLoopEnd : Bool)
    (hK : Continues e (K false) (q.behind i) q' ps b P) :
    Continues e (instr lower atLoopEnd i >>= K) q q' ps b P := by
  intro s u c js hs hu
  obtain ⟨v, hle, hrest, hp, hy⟩ := hK _ u c js (hs.withIt (q.behind i)) hu
  exact ⟨v, hle, hrest, hp, Yields.after (instr_ifThen atLoopEnd hi) hy⟩

/-- Closes the region that is open behind the last instruction. -/
def closing (ended : Bool) : Emit Bool := do
  closeRegion
  return ended

theorem closing_continues (ended : Bool) :
    Continues e (closing ended) q q [] ended (fun _ => True) := by
  intro s u c js hs hu
  have hself : s.withIt q = s := by
    unfold Emission.withIt
    rw [← hs.it]
  have hparts : Part.attach c js [] = [.run c js] := rfl
  have hclose : Yields _ e (s.draft u {} c (js.flatMap (instrItems e.config))) _ _ _ :=
    closeRegion_draft hs.closed
  refine ⟨u, .refl u, hu, trivial, ?_⟩
  simp only [hparts, partsItems_cons, hself]
  refine (hclose.before (f := fun _ => pure ended) ?_).congr ?_
  · simp only [run_pure, partsItems, List.flatMap_nil, List.append_nil]
    rfl
  · rw [partsFit_cons]
    exact (and_iff_left fun p hp => absurd hp List.not_mem_nil).symm

/-- A blank instruction at the end adds neither items nor bounds. -/
theorem attach_blank (config : Config) (c : Cond) (js : List Guest.Instr) (i : Guest.Instr) :
    partsItems config (Part.attach c js [.run .al [i.blank]]) =
        partsItems config (Part.attach c js []) ∧
      (PartsFit config (Part.attach c js [.run .al [i.blank]]) ↔
        PartsFit config (Part.attach c js [])) := by
  have hblank : instrItems config i.blank = [] := rfl
  have hnil : PartsFit config [] := fun p hp => absurd hp List.not_mem_nil
  unfold Part.attach
  split
  · rename_i h
    simp only [List.cons.injEq, Part.run.injEq] at h
    obtain ⟨⟨rfl, rfl⟩, rfl⟩ := h
    by_cases hc : Cond.al = c
    · simp only [hc, if_true, partsItems_cons, Part.items, partsFit_cons, Part.Fits,
        List.flatMap_append, List.flatMap_singleton, hblank, List.append_nil, and_self]
    · simp only [hc, if_false, partsItems_cons, partsFit_cons, Part.items, Part.Fits]
      refine ⟨?_, and_congr_right fun _ => iff_of_true ⟨fun h => absurd rfl h, hnil⟩ hnil⟩
      rw [List.flatMap_singleton, hblank]
      rfl
  · rename_i h
    exact absurd rfl (h _ _ _)

theorem inUse_blank (u : RegisterUse) (i : Guest.Instr) : InUse u i.blank :=
  ⟨⟨fun _ hr => absurd hr List.not_mem_nil, nofun, nofun⟩, fun h => absurd rfl h, nofun⟩

theorem instrs_continues (isLoopEnd : Bool) (q : Guest.ItState) (is : List Guest.Instr)
    (ended : Bool) :
    Continues e (instrs lower isLoopEnd ended is >>= closing) q (is.foldl Guest.ItState.behind q)
      (parts (Guest.checksLoop isLoopEnd is) (Guest.spelled q is))
      (((Guest.spelled q is).getLast?.map (·.endsFlow)).getD ended)
      (fun v => ∀ i ∈ Guest.spelled q is, InUse v i) := by
  induction is generalizing q ended with
  | nil =>
    intro s u c js hs hu
    obtain ⟨v, hle, hrest, -, hy⟩ := closing_continues (e := e) ended s u c js hs hu
    exact ⟨v, hle, hrest, fun i hi => absurd hi List.not_mem_nil, hy⟩
  | cons i is ih =>
    have hbind : instrs lower isLoopEnd ended (i :: is) >>= closing =
        instr lower (isLoopEnd && is.isEmpty) i >>= fun ended =>
          instrs lower isLoopEnd ended is >>= closing := by
      rw [instrs, bind_assoc]
    rw [hbind, List.foldl_cons]
    cases hi : i.kind.isIfThen with
    | true =>
      cases is with
      | nil =>
        intro s u c js hs hu
        obtain ⟨v, hle, hrest, -, hy⟩ := ifThen_continues (e := e) hi (isLoopEnd && true)
          (K := fun ended => instrs lower isLoopEnd ended [] >>= closing)
          (closing_continues (q := q.behind i) false) s u c js hs hu
        obtain ⟨hitems, hfits⟩ := attach_blank e.config c js i
        rw [parts_ifThen_last hi, Guest.spelled_ifThen_last hi]
        refine ⟨v, hle, hrest, fun j hj => ?_, ?_⟩
        · rw [List.mem_singleton.mp hj]
          exact inUse_blank v i
        · rw [hitems]
          exact hy.congr hfits.symm
      | cons j js =>
        have hlast := List.getLast?_eq_some_getLast
          (Guest.spelled_ne_nil (q.behind i) (List.cons_ne_nil j js))
        have hih := ih (q.behind i) false
        rw [parts_ifThen_cons hi, Guest.spelled_ifThen_cons hi]
        rw [hlast] at hih ⊢
        exact ifThen_continues hi _ hih
    | false =>
      have hK := instr_continues (e := e)
        (K := fun ended => instrs lower isLoopEnd ended is >>= closing) hi rfl
        (isLoopEnd && is.isEmpty) (ih (q.behind i) (i.under q).endsFlow)
      rw [parts_spelled_cons hi, Guest.spelled_cons hi, List.getLast?_cons, Option.map_some,
        Option.getD_some, ← Option.getD_map Guest.Instr.endsFlow]
      intro s u c js hs hu
      obtain ⟨v, hle, hrest, ⟨hin, hp⟩, hy⟩ := hK s u c js hs hu
      refine ⟨v, hle, hrest, fun j hj => ?_, hy⟩
      rcases List.mem_cons.mp hj with rfl | hj
      · exact hin
      · exact hp j hj

/-! ### Blocks -/

/-- Notes where blocks start; a block noted before keeps its place. -/
def noteStarts (m : Std.HashMap Word Nat) (starts : List (Word × Nat)) : Std.HashMap Word Nat :=
  starts.foldl (fun m p => m.insertIfNew p.1 p.2) m

/-- The state behind finished blocks: items appended, starts noted, a register use and an if-then
state reached. -/
def finished (s : Emission) (q : Guest.ItState) (u : RegisterUse) (xs : List Item)
    (starts : List (Word × Nat)) : Emission :=
  { ((s.withIt q).withRegs u).extend xs with targets := noteStarts s.targets starts }

theorem finished_finished (s : Emission) (q q' : Guest.ItState) (u v : RegisterUse)
    (xs ys : List Item) (a b : List (Word × Nat)) :
    finished (finished s q u xs a) q' v ys b = finished s q' v (xs ++ ys) (a ++ b) := by
  simp only [finished, noteStarts, List.foldl_append]
  rw [← extend_extend]
  rfl

theorem size_finished (s : Emission) (q : Guest.ItState) (u : RegisterUse) (xs : List Item)
    (starts : List (Word × Nat)) : (finished s q u xs starts).code.size = s.code.size + xs.length :=
  size_extend ((s.withIt q).withRegs u) xs

/-- A state between blocks. -/
structure Idle (q : Guest.ItState) (s : Emission) : Prop where
  ready : Ready q s
  current : s.current = {}
  rested : s.regs.Rested

theorem Idle.finished (h : Idle q s) (q' : Guest.ItState) {u : RegisterUse} (hu : u.Rested)
    (xs : List Item) (starts : List (Word × Nat)) : Idle q' (finished s q' u xs starts) :=
  ⟨⟨h.ready.closed, rfl⟩, h.current, hu⟩

theorem Idle.finished_self (h : Idle q s) (xs : List Item) :
    Compile.finished s q s.regs xs [] = s.extend xs := by
  have hself : s.withIt q = s := by
    unfold Emission.withIt
    rw [← h.ready.it]
  unfold Compile.finished
  rw [hself]
  rfl

theorem block_run (hs : Idle q s) (b : Guest.Block) :
    ∃ v, s.regs.Le v ∧ v.Rested ∧ (∀ i ∈ (b.spelled q).instrs.toList, InUse v i) ∧
      Yields (block lower b) e s (PartsFit e.config (blockParts (b.spelled q)))
        (blockEnds (b.spelled q))
        (finished s (b.behind q) v (blockItems e.config (b.spelled q)) [(b.start, s.code.size)]) := by
  let t : Emission := { s with targets := s.targets.insertIfNew b.start s.code.size }
  have hmark : markBlockStart b.start e s = .ok () t := rfl
  have ht : t.draft t.regs {} .al [] = t := by
    rw [draft_al_nil]
    show { t with current := {} } = t
    rw [← hs.current]
  have hready : Ready q t := ⟨hs.ready.closed, hs.ready.it⟩
  obtain ⟨v, hle, hrest, hin, hy⟩ :=
    instrs_continues (e := e) b.isLoopEnd q b.instrs.toList false t t.regs .al [] hready hs.rested
  obtain ⟨hitems, hfits⟩ := attach_al_nil e.config (blockParts (b.spelled q))
  refine ⟨v, hle, hrest, hin, ?_⟩
  refine Yields.after hmark ?_
  have hparts : parts (Guest.checksLoop b.isLoopEnd b.instrs.toList)
      (Guest.spelled q b.instrs.toList) = blockParts (b.spelled q) := rfl
  rw [List.flatMap_nil, ht, hparts, hitems] at hy
  have hfinal : ((t.withIt (b.behind q)).extend
        (partsItems e.config (blockParts (b.spelled q)))).draft v {} .al [] =
      finished s (b.behind q) v (blockItems e.config (b.spelled q)) [(b.start, s.code.size)] := by
    rw [draft_al_nil]
    show { ((t.withIt (b.behind q)).withRegs v).extend _ with current := {} } = _
    rw [← hs.current]
    rfl
  rw [show b.instrs.toList.foldl Guest.ItState.behind q = b.behind q from rfl, hfinal] at hy
  exact hy.congr hfits

/-- The if-then state behind blocks. -/
def behindBlocks (q : Guest.ItState) (bs : List Guest.Block) : Guest.ItState :=
  bs.foldl (fun q b => b.behind q) q

theorem blocksAfter_run (hs : Idle q s) (bs : List Guest.Block) (finish : Word) (ended : Bool) :
    ∃ v, s.regs.Le v ∧ v.Rested ∧
      (∀ b ∈ Guest.spelledBlocks q bs, ∀ i ∈ b.instrs.toList, InUse v i) ∧
      Yields (blocksAfter lower finish ended bs) e s
        (FitsAfter e finish ended (Guest.spelledBlocks q bs)) ()
        (finished s (behindBlocks q bs) v
          (itemsAfter e finish ended (Guest.spelledBlocks q bs))
          (startsAfter e s.code.size finish ended (Guest.spelledBlocks q bs))) := by
  induction bs generalizing q s finish ended with
  | nil =>
    refine ⟨s.regs, .refl _, hs.rested, fun b hb => absurd hb List.not_mem_nil, ?_⟩
    rw [show behindBlocks q [] = q from rfl, show startsAfter e s.code.size finish ended
      (Guest.spelledBlocks q []) = [] from rfl, hs.finished_self]
    unfold blocksAfter itemsAfter FitsAfter Guest.spelledBlocks
    cases ended with
    | true =>
      refine (Yields.of_run ?_).congr (iff_of_true trivial fun h => absurd h (by decide))
      exact congrArg (EStateM.Result.ok ()) (extend_nil s).symm
    | false =>
      refine ((emitExit_yields finish).before ?_).congr ⟨fun h _ => h, fun h => h rfl⟩
      rfl
  | cons b bs ih =>
    -- First the gap, then the block, then the rest.
    let b' := b.spelled q
    let gap := gapItems e finish ended b.start
    let s₁ := finished s q s.regs gap []
    have hs₁ : Idle q s₁ := hs.finished q hs.rested gap []
    obtain ⟨u, hle, hrest, hin, hblock⟩ := block_run (e := e) hs₁ b
    obtain ⟨v, hle', hrest', hin', hy⟩ := ih
      (hs₁.finished (b.behind q) hrest (blockItems e.config b') [(b.start, s₁.code.size)])
      b.finish (blockEnds b')
    refine ⟨v, hle.trans hle', hrest', fun c hc i hi => ?_, ?_⟩
    · rcases List.mem_cons.mp hc with rfl | hc
      · exact (hin i hi).mono hle'
      · exact hin' c hc i hi
    · have hrest := hblock.bind (f := fun ended => blocksAfter lower b.finish ended bs) hy
      rw [finished_finished, finished_finished, size_finished, size_finished,
        show s₁.code.size = s.code.size + gap.length from size_finished .., List.nil_append,
        List.singleton_append] at hrest
      unfold Guest.spelledBlocks itemsAfter FitsAfter startsAfter
      dsimp only
      rw [List.append_assoc, Guest.Block.finish_spelled]
      by_cases hg : (!ended && finish != b.start) = true
      · have hcond : ended = false ∧ finish ≠ b.start := by
          simpa only [Bool.and_eq_true, Bool.not_eq_true', bne_iff_ne] using hg
        have hgap : gap = exitItems e finish := by
          simp only [gap, gapItems, hg, if_true]
        simp only [blocksAfter, hg, if_true]
        refine ((emitExit_yields finish).bind ?_).congr
          (and_congr_left fun _ => ⟨fun h _ => h, fun h => h hcond⟩)
        have hs₁' : s₁ = s.extend (exitItems e finish) := by
          simp only [s₁, hgap]
          exact hs.finished_self _
        rw [← hs₁']
        exact hrest
      · have hgap : gap = [] := by
          simp only [gap, gapItems, hg]
          rfl
        have hs₁' : s₁ = s := by
          simp only [s₁, hgap]
          exact (hs.finished_self []).trans (extend_nil s)
        simp only [blocksAfter, hg, Bool.false_eq_true, if_false]
        rw [hs₁'] at hrest
        refine hrest.congr (and_iff_right ?_).symm
        intro hcond
        simp [show finish ≠ b.start from hcond.2, hcond.1] at hg

theorem body_run (hs : Idle q s) (bs : List Guest.Block) :
    ∃ v, s.regs.Le v ∧ v.Rested ∧
      (∀ b ∈ Guest.spelledBlocks q bs, ∀ i ∈ b.instrs.toList, InUse v i) ∧
      Yields (body lower bs) e s (BodyFits e (Guest.spelledBlocks q bs)) ()
        (finished s (behindBlocks q bs) v (bodyItems e (Guest.spelledBlocks q bs))
          (bodyStarts e s.code.size (Guest.spelledBlocks q bs))) := by
  cases bs with
  | nil =>
    refine ⟨s.regs, .refl _, hs.rested, fun b hb => absurd hb List.not_mem_nil, ?_⟩
    refine Yields.of_run (congrArg (EStateM.Result.ok ()) ?_)
    exact ((hs.finished_self []).trans (extend_nil s)).symm
  | cons b bs =>
    obtain ⟨u, hle, hrest, hin, hblock⟩ := block_run (e := e) hs b
    obtain ⟨v, hle', hrest', hin', hy⟩ := blocksAfter_run (e := e)
      (hs.finished (b.behind q) hrest (blockItems e.config (b.spelled q)) [(b.start, s.code.size)])
      bs b.finish (blockEnds (b.spelled q))
    refine ⟨v, hle.trans hle', hrest', fun c hc i hi => ?_, ?_⟩
    · rcases List.mem_cons.mp hc with rfl | hc
      · exact (hin i hi).mono hle'
      · exact hin' c hc i hi
    · have hy := hblock.bind (f := fun ended => blocksAfter lower b.finish ended bs) hy
      rw [finished_finished, size_finished] at hy
      unfold Guest.spelledBlocks bodyItems bodyStarts BodyFits
      dsimp only
      rw [Guest.Block.finish_spelled]
      exact hy

end Dynarec.Compile
