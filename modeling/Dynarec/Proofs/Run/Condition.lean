import Dynarec.Proofs.Lower.Flags
import Dynarec.Proofs.Run.Unit

/-! # Conditions of instructions

A run of instructions under one condition has one test, in front of it. No branch but that test
leads into the run, and none of its instructions but the last sets flags. So control comes to each
of them only while the condition holds, whatever the routines of the host do, up to the first that
calls one: behind it the flags are those that the routine leaves in the record, and they are not
tested again. An instruction whose condition is part of its own code needs no test. -/

namespace Dynarec.Compile

open Dynarec.Emit Dynarec.Host Dynarec.Resolve

/-! ### Where branches of the code lead -/

/-- A branch leads to `lo` or before it, or behind `hi`. -/
def Avoids (lo hi : Nat) (_ m : Nat) : Prop := m ≤ lo ∨ hi < m

/-- The branch of the host word at an index leads before the body, or where `P` allows. -/
def WordLands (P : Nat → Nat → Prop) (room k : Nat) (i : Host.Instr) : Prop :=
  ∀ j d, decode i.encode = some j → j.disp? = some d →
    (k : Int) + d ≤ room ∨ ∃ m : Nat, (k : Int) + d = m ∧ P k m

theorem wordLands_of_lands {P : Nat → Nat → Prop} {room k : Nat} {i : Host.Instr}
    (h : i.Lands P k) : WordLands P room k i := by
  intro j d hj hd
  cases hj.symm.trans (decode_encode h.canonical)
  exact .inr (h.lands d hd)

/-- The branch over the room of the prologue leads to its end, or before it if it is cut. -/
theorem front_wordLands (p : Plan) (P : Nat → Nat → Prop) :
    AllFrom (WordLands P p.room) 0 (frontOf p.prologue p.room) := by
  by_cases hr : p.room < p.prologue.length + 0x2000000
  · have hlands := p.front_lands (P := fun _ m => m ≤ p.room) hr fun _ => Nat.le_refl _
    intro k i hk j d hj hd
    cases hj.symm.trans (decode_encode (hlands k i hk).canonical)
    obtain ⟨m, hm, hle⟩ := (hlands k i hk).lands d hd
    exact .inl (by omega)
  · unfold frontOf
    rw [allFrom_append, if_pos (by omega), allFrom_cons]
    refine ⟨fun k i hk => wordLands_of_lands ?_, fun j d hj hd => ?_, fun k i hk => ?_⟩
    · exact allFrom_straight (straight_prologue p.frame p.use) P 0 k i hk
    · rw [decode_b_cut] at hj
      cases hj
      cases hd
      have hlt : 2 * (Instr.imm26 ((roomSkip p.prologue.length p.room).getD 0)).toInt < 0x4000000 :=
        BitVec.two_mul_toInt_lt
      exact .inl (by omega)
    · rw [List.eq_of_mem_replicate (List.mem_of_getElem? hk)]
      exact wordLands_of_lands (lands_of_straight rfl P _)

/-- Where the branches of a unit lead, if those of its body and of the sequences are allowed. -/
theorem Plan.code_wordLands {p : Plan} (hf : p.Fits) {P : Nat → Nat → Prop}
    (hmain : ItemsLand false P p.room p.main) (hend : ∀ j < p.finish, P j p.finish) :
    AllFrom (WordLands P p.room) 0 p.code := by
  refine allFrom_append.mpr ⟨front_wordLands p P, allFrom_append.mpr ⟨fun k i hk => ?_, ?_⟩⟩
  · rw [Nat.zero_add, p.length_front hf]
    exact wordLands_of_lands (closeItems_land hmain hf.exits hend k i hk)
  · unfold Plan.trailer
    split
    · exact allFrom_nil
    · rw [trailer_eq, allFrom_append]
      refine ⟨fun k i hk => wordLands_of_lands ?_, allFrom_singleton.mpr fun j d hj hd => ?_⟩
      · exact allFrom_straight (straight_trailerOps p.frame p.use) P _ k i hk
      · cases hj.symm.trans (decode_encode (i := .br .dispatch) rfl)
        cases hd

/-! ### One run of instructions -/

section Run

variable {bs : List Guest.Block} {pre post : List Part} {cond : Cond} {is : List Guest.Instr}
  (hparts : bodyParts bs = pre ++ .run cond is :: post)

include hparts

theorem mem_bodyParts : .run cond is ∈ bodyParts bs := by
  rw [hparts]
  exact List.mem_append_right _ List.mem_cons_self

theorem run_uniform : (∀ i ∈ is, lowered i = cond) ∧ ∀ i ∈ is.dropLast, i.setsFlags = false :=
  uniform_bodyParts bs _ (mem_bodyParts hparts)

/-- The instructions of a run are some of one block. -/
theorem run_block : ∃ b ∈ bs, ∃ js ks, b.instrs.toList = js ++ (is ++ ks) := by
  obtain ⟨b, hb, hrun⟩ := List.mem_flatMap.mp (mem_bodyParts hparts)
  obtain ⟨qs, rs, hqs⟩ := List.append_of_mem hrun
  have hinstrs : (blockParts b).flatMap Part.instrs = b.instrs.toList := instrs_parts _ _
  rw [hqs, List.flatMap_append, List.flatMap_cons] at hinstrs
  exact ⟨b, hb, _, _, hinstrs.symm⟩

end Run

end Dynarec.Compile

namespace Dynarec.Translated

open Dynarec.Emit Dynarec.Compile Dynarec.Host Dynarec.Lower Dynarec.Resolve Dynarec.Simulation

variable {options : Options} {dispatch : DispatchTable} {img : Guest.Image} {entry : Word}
  {c : Compiled} {t : Guest.Trace} {p : Plan}
  (h : Translated options dispatch img entry c t p)

include h

theorem disp_lands {P : Nat → Nat → Prop} (hmain : ItemsLand false P p.room p.main)
    (hend : ∀ j < p.finish, P j p.finish) {k : Nat} {i : Host.Instr} {d : Int}
    (hi : instrAt? c.code k = some i) (hd : i.disp? = some d) :
    (k : Int) + d ≤ p.room ∨ ∃ m : Nat, (k : Int) + d = m ∧ P k m := by
  rw [instrAt?, ← Array.getElem?_toList, h.code, List.getElem?_map] at hi
  obtain ⟨w, hw, hi⟩ := Option.bind_eq_some_iff.mp hi
  obtain ⟨i₀, hi₀, rfl⟩ := Option.map_eq_some_iff.mp hw
  have hlands := p.code_wordLands h.fits hmain hend k i₀ hi₀ i d hi hd
  rwa [Nat.zero_add] at hlands

section Run

variable {pre post : List Part} {cond : Cond} {is : List Guest.Instr}
  (hparts : bodyParts p.blocks = pre ++ .run cond is :: post)

include hparts

theorem body_run : ∃ zs, p.body = partsItems p.setting.config pre ++
    (regionItems cond (is.flatMap (instrItems p.setting.config)) ++ zs) := by
  obtain ⟨z, hz⟩ := h.chain
  have hbody := h.body_eq hz
  rw [hparts, partsItems_append, partsItems_cons, List.append_assoc, List.append_assoc] at hbody
  exact ⟨_, hbody⟩

theorem run_fits : RegionFits cond (is.flatMap (instrItems p.setting.config)) :=
  bodyFits_parts h.fits.body _ (mem_bodyParts hparts)

/-- What stands before another instruction of a run is quiet, unless a helper answers it. -/
theorem run_quiet {js ks : List Guest.Instr} {i : Guest.Instr} (his : is = js ++ i :: ks)
    (hhelped : ∀ j ∈ js, j.kind.isHelped = false) : ∀ j ∈ js, Quiet j := by
  obtain ⟨z, hz⟩ := h.chain
  obtain ⟨b, hb, as, bs, hbs⟩ := run_block hparts
  obtain ⟨xs, ys, hxs⟩ := List.append_of_mem hb
  obtain ⟨m, hs⟩ := Guest.Chain.sound (hxs ▸ hz)
  obtain ⟨init, l, hinit, hplain, -⟩ := hs.last
  have hdrop : ∀ us vs : List Guest.Instr,
      (us ++ i :: vs).dropLast = us ++ (i :: vs).dropLast :=
    fun us vs => List.dropLast_append_of_ne_nil (List.cons_ne_nil i vs)
  have hbefore : init = as ++ js ++ (i :: (ks ++ bs)).dropLast := by
    have hinit' : b.instrs.toList.dropLast = init := by rw [hinit, List.dropLast_concat]
    rw [← hdrop, ← hinit', hbs, his]
    simp only [List.append_assoc, List.cons_append]
  intro j hj
  refine ⟨h.regular b hb j ?_, (run_uniform hparts).2 j ?_, hplain j ?_, hhelped j hj⟩
  · rw [hbs, his]
    exact List.mem_append_right _ (List.mem_append_left _ (List.mem_append_left _ hj))
  · rw [his, hdrop]
    exact List.mem_append_left _ hj
  · rw [hbefore]
    exact List.mem_append_left _ (List.mem_append_right _ hj)

/-- An instruction of a run that is to take effect, or that has its condition in itself, does so. -/
theorem run_passed {ys zs : List Item}
    (hbody : p.body = ys ++ (is.flatMap (instrItems p.setting.config) ++ zs))
    {js ks : List Guest.Instr} {i : Guest.Instr} (his : is = js ++ i :: ks)
    (hplain : i.kind.isPlain = true) {record table : DWord} {base s : Host.State} {σ : Guest.State}
    (hs : s.pc = p.room + ys.length + (js.flatMap (instrItems p.setting.config)).length)
    (hsim : Sim p.use record table base s σ)
    (hcond : i.absorbsCondition = false → i.cond.holds s.flags = true) :
    Passed p (instrAt? c.code) record table base
      (p.room + ys.length + ((js ++ [i]).flatMap (instrItems p.setting.config)).length) i s σ := by
  obtain ⟨em, hb⟩ := h.built
  obtain ⟨b, hmem, as, bs, hbs⟩ := run_block hparts
  have hi : i ∈ b.instrs.toList := by
    rw [hbs, his]
    exact List.mem_append_right _
      (List.mem_append_left _ (List.mem_append_right _ List.mem_cons_self))
  have hu : InUse p.use i := h.inUse b hmem i hi
  rw [his, List.flatMap_append, List.flatMap_cons, List.append_assoc, List.append_assoc,
    ← List.append_assoc] at hbody
  rw [Nat.add_assoc, ← List.length_append] at hs
  rw [List.flatMap_append, List.flatMap_singleton, Nat.add_assoc, ← List.length_append,
    ← List.append_assoc]
  refine instr_passed hb hbody hs hsim (h.regular b hmem i hi) hu hplain fun hno => ?_
  by_cases hal : i.cond = .al
  · rw [hal]
    rfl
  · rw [← hsim.flags (hu.tested hal)]
    exact hcond hno

variable {k : Nat} (hk : k = p.room + (partsItems p.setting.config pre).length)

include hk

/-- No block starts inside a run. -/
theorem target_avoids {a : Word} {index : Nat} (ha : p.targets a = some index) :
    index ≤ k ∨ k + (regionItems cond (is.flatMap (instrItems p.setting.config))).length ≤ index := by
  obtain ⟨bs, b, cs, hbs, -, rfl⟩ := h.targets_eq_some ha
  have hsplit : bodyParts bs ++ bodyParts (b :: cs) = pre ++ .run cond is :: post := by
    rw [← hparts, hbs]
    exact List.flatMap_append.symm
  rcases List.append_eq_append_iff.mp hsplit with ⟨qs, hpre, -⟩ | ⟨qs, hpre, hqs⟩
  · rw [hpre, partsItems_append, List.length_append] at hk
    exact .inl (by omega)
  · rw [hpre, partsItems_append, List.length_append]
    cases qs with
    | nil => exact .inl (Nat.le_of_eq hk.symm)
    | cons q qs =>
      cases hqs
      rw [partsItems_cons, List.length_append, Part.items]
      exact .inr (by omega)

/-- No branch leads into a run before `w`, if no placeholder stands there. -/
theorem main_avoids {w : Nat}
    (hw : w < k + (regionItems cond (is.flatMap (instrItems p.setting.config))).length)
    (hsite : AllFrom (fun m x => ∀ f, x.fixup? m = some f → m < k ∨ w ≤ m) p.room p.body) :
    ItemsLand false (Avoids k w) p.room p.main := by
  have hfits := bodyFits_parts h.fits.body
  rw [hparts] at hfits
  obtain ⟨hpre, hrest⟩ := List.forall_mem_append.mp hfits
  obtain ⟨hrun, hpost⟩ := List.forall_mem_cons.mp hrest
  refine h.main_lands_of ?_ fun ys x zs f hsplit hfix => ?_
  · rw [hparts, partsItems_append, partsItems_cons]
    refine (itemsLand_forward _ hpre fun j m _ _ hm => .inl (by omega)).append
      ((itemsLand_region _ hrun (.inr ?_)).append
        (itemsLand_forward _ hpost fun j m hj hm _ => .inr (by omega)))
    have hle := length_regionItems_le cond (is.flatMap (instrItems p.setting.config))
    omega
  · obtain ⟨zs, hbody⟩ := h.body_run hparts
    have hlen := congrArg List.length hbody
    rw [List.length_append, List.length_append] at hlen
    have hsite := hsite ys.length x (getElem?_of_split hsplit) f hfix
    rw [← (fixup?_eq_some hfix).1] at hsite
    have hlo := p.le_tailAt ys
    refine ⟨fun _ => .inr (by omega), fun j m hj hm _ => .inr (by omega),
      fun _ _ _ _ => ?_, fun a _ index hindex => ?_⟩
    · exact hsite.imp (fun hlt => hlt) Nat.lt_succ_of_le
    · have hland : Avoids k w f.site index :=
        (h.target_avoids hparts hk hindex).imp_right (Nat.lt_of_lt_of_le hw)
      exact ⟨hland, fun _ _ _ => hland⟩

/-- The test of a run guards what it becomes, up to the first instruction behind one that a helper
answers. -/
theorem run_guards (hcond : cond ≠ .al) {js ks : List Guest.Instr} {i : Guest.Instr}
    (his : is = js ++ i :: ks) (hi : instrItems p.setting.config i ≠ [])
    (hhelped : ∀ j ∈ js, j.kind.isHelped = false) :
    Guards (instrAt? c.code) cond k
      (k + 1 + (js.flatMap (instrItems p.setting.config)).length) := by
  obtain ⟨em, hb⟩ := h.built
  obtain ⟨os, hstraight, hkeep, hos⟩ :=
    flatMap_instrItems_eq (h.run_quiet hparts his hhelped) p.setting.config
  obtain ⟨zs, hbody⟩ := h.body_run hparts
  let test : Host.Instr :=
    .bCond cond.invert ((is.flatMap (instrItems p.setting.config)).length + 1)
  have hxs : is.flatMap (instrItems p.setting.config) = ops os ++
      (instrItems p.setting.config i ++ ks.flatMap (instrItems p.setting.config)) := by
    rw [his, List.flatMap_append, List.flatMap_cons, hos]
  have hregion : regionItems cond (is.flatMap (instrItems p.setting.config)) = ops (test :: os) ++
      (instrItems p.setting.config i ++ ks.flatMap (instrItems p.setting.config)) := by
    have hne : is.flatMap (instrItems p.setting.config) ≠ [] := by
      rw [hxs]
      exact List.append_ne_nil_of_right_ne_nil _ (List.append_ne_nil_of_left_ne_nil hi _)
    rw [regionItems, if_neg (not_or.mpr ⟨hcond, hne⟩)]
    exact congrArg (.op test :: ·) hxs
  have hpos := List.length_pos_iff.mpr hi
  have hlen := congrArg List.length hregion
  have hbodyLen := congrArg List.length hbody
  rw [List.length_append, length_ops, List.length_cons, List.length_append] at hlen
  rw [List.length_append, List.length_append] at hbodyLen
  rw [hregion, List.append_assoc] at hbody
  have hfound := hb.found_ops hbody (List.forall_mem_cons.mpr
    ⟨h.run_fits hparts hcond, canonical_of_straight hstraight⟩)
  rw [← hk] at hfound
  rw [hos, length_ops]
  obtain ⟨htest, hfound⟩ := allFrom_cons.mp hfound
  refine ⟨⟨_, htest⟩, fun j o hlo hhi hj => ?_, fun j o d hj hd => ?_⟩
  · obtain ⟨n, rfl⟩ := Nat.exists_eq_add_of_le (Nat.succ_le_of_lt hlo)
    have hlt : n < os.length := by omega
    have hat := hfound n _ (List.getElem?_eq_getElem hlt)
    rw [Nat.succ_eq_add_one, hat] at hj
    cases hj
    exact hkeep _ (List.getElem_mem hlt)
  · have hmain := h.main_avoids hparts hk (w := k + 1 + os.length) (by omega) ?_
    · have hfinish := p.finish_eq
      rcases h.disp_lands hmain (fun j _ => .inr (by omega)) hj hd with hle | ⟨m, hm, hle | hlt⟩
      · exact .inl (by omega)
      · exact .inl (by omega)
      · exact .inr (by omega)
    · -- Only finished instructions stand there.
      rw [hbody]
      refine allFrom_append.mpr ⟨fun m x hm f hf => .inl ?_, allFrom_append.mpr
        ⟨fun m x hm f hf => ?_, fun m x hm f hf => .inr ?_⟩⟩
      · have hlt := (List.getElem?_eq_some_iff.mp hm).1
        omega
      · obtain ⟨o, -, rfl⟩ := List.mem_map.mp (List.mem_of_getElem? hm)
        cases hf
      · rw [length_ops, List.length_cons]
        omega

end Run

end Dynarec.Translated

namespace Dynarec

open Dynarec.Emit Dynarec.Compile Dynarec.Host Dynarec.Simulation

/-- Instructions at index `k` that no test stands before: where one has a condition, what it becomes
does what the instruction does under that condition. -/
structure SelfTested (p : Plan) (c : Compiled) (k : Nat) (is : List Guest.Instr) : Prop where
  absorbs : ∀ i ∈ is, i.cond ≠ .al → i.absorbsCondition = true
  passed : ∀ js i ks, is = js ++ i :: ks → i.absorbsCondition = true →
    ∀ record table base s σ, s.pc = k + (js.flatMap (instrItems p.setting.config)).length →
      Sim p.use record table base s σ →
      Passed p (instrAt? c.code) record table base
        (k + ((js ++ [i]).flatMap (instrItems p.setting.config)).length) i s σ

/-- Instructions under the test of `cond` at index `k`. -/
structure Guarded (p : Plan) (c : Compiled) (k : Nat) (cond : Cond) (is : List Guest.Instr) :
    Prop where
  same : ∀ i ∈ is, i.cond = cond
  sets : ∀ i ∈ is.dropLast, i.setsFlags = false
  /-- From the test control goes to the first of them if the condition holds, -/
  entered : is.flatMap (instrItems p.setting.config) ≠ [] → ∀ s : Host.State, s.pc = k →
    cond.holds s.flags = true → Leads (instrAt? c.code) s (s.goto (k + 1))
  /-- and else behind the last. -/
  skipped : is.flatMap (instrItems p.setting.config) ≠ [] → ∀ s : Host.State, s.pc = k →
    cond.holds s.flags = false → Leads (instrAt? c.code) s
      (s.goto (k + 1 + (is.flatMap (instrItems p.setting.config)).length))
  /-- Whatever routines have done, control comes to an instruction only while the condition holds;
  but one that a helper answers must not stand before it. -/
  current : ∀ js i ks, is = js ++ i :: ks → instrItems p.setting.config i ≠ [] →
    (∀ j ∈ js, j.kind.isHelped = false) → ∀ call n s s', Run (instrAt? c.code) call n s s' →
      s.pc = 0 → s'.pc = k + 1 + (js.flatMap (instrItems p.setting.config)).length →
      cond.holds s'.flags = true
  /-- Then what it becomes does what the instruction does. -/
  passed : ∀ js i ks, is = js ++ i :: ks → instrItems p.setting.config i ≠ [] →
    i.kind.isPlain = true → ∀ record table base s σ,
      s.pc = k + 1 + (js.flatMap (instrItems p.setting.config)).length →
      Sim p.use record table base s σ → cond.holds s.flags = true →
      Passed p (instrAt? c.code) record table base
        (k + 1 + ((js ++ [i]).flatMap (instrItems p.setting.config)).length) i s σ

theorem isPlain_of_absorbs {i : Guest.Instr} (h : i.absorbsCondition = true) :
    i.kind.isPlain = true := by
  cases hk : i.kind with
  | branch | move => rfl
  | _ =>
    simp only [Guest.Instr.absorbsCondition, hk] at h
    cases h

namespace Translated

variable {options : Options} {dispatch : DispatchTable} {img : Guest.Image} {entry : Word}
  {c : Compiled} {t : Guest.Trace} {p : Plan}
  (h : Translated options dispatch img entry c t p) {pre post : List Part} {cond : Cond}
  {is : List Guest.Instr}

include h

theorem selfTested (hparts : bodyParts p.blocks = pre ++ .run .al is :: post) :
    SelfTested p c (p.room + (partsItems p.setting.config pre).length) is := by
  obtain ⟨zs, hbody⟩ := h.body_run hparts
  rw [regionItems, if_pos (.inl rfl)] at hbody
  refine ⟨fun i hi hcond => ?_, fun js i ks his ha record table base s σ hs hsim => ?_⟩
  · have hlowered := (run_uniform hparts).1 i hi
    unfold lowered at hlowered
    split at hlowered
    · assumption
    · exact absurd hlowered hcond
  · refine h.run_passed hparts hbody his (isPlain_of_absorbs ha) hs hsim fun hno => ?_
    cases hno.symm.trans ha

theorem guarded (hparts : bodyParts p.blocks = pre ++ .run cond is :: post) (hcond : cond ≠ .al) :
    Guarded p c (p.room + (partsItems p.setting.config pre).length) cond is := by
  obtain ⟨hlowered, hsets⟩ := run_uniform hparts
  obtain ⟨zs, hbody⟩ := h.body_run hparts
  have hsame : ∀ i ∈ is, i.cond = cond := by
    intro i hi
    have hi := hlowered i hi
    unfold lowered at hi
    split at hi
    · exact absurd hi.symm hcond
    · exact hi
  -- Where the test leads, as an index.
  have htest : is.flatMap (instrItems p.setting.config) ≠ [] → ∀ s : Host.State,
      s.pc = p.room + (partsItems p.setting.config pre).length → ∃ n,
      Leads (instrAt? c.code) s (s.goto n) ∧
      n + (if cond.holds s.flags then is.flatMap (instrItems p.setting.config) else []).length =
        s.pc + 1 + (is.flatMap (instrItems p.setting.config)).length := by
    intro hne s hs
    obtain ⟨em, hb⟩ := h.built
    obtain ⟨ys, hys, hrun⟩ := test_leads hb hbody hs (h.run_fits hparts)
    have hlen := congrArg List.length (hbody.symm.trans hys)
    rw [regionItems, if_neg (not_or.mpr ⟨hcond, hne⟩)] at hlen
    simp only [List.length_append, List.length_cons] at hlen
    exact ⟨_, hrun, by omega⟩
  refine ⟨hsame, hsets, fun hne s hs hc => ?_, fun hne s hs hc => ?_,
    fun js i ks his hi hhelped call n s s' hrun hs hs' => ?_,
    fun js i ks his hi hplain record table base s σ hs hsim hholds => ?_⟩
  · obtain ⟨n, hrun, hn⟩ := htest hne s hs
    rw [hc, if_pos rfl, hs, Nat.add_right_cancel_iff] at hn
    exact hn ▸ hrun
  · obtain ⟨n, hrun, hn⟩ := htest hne s hs
    rw [hc, if_neg Bool.false_ne_true, hs] at hn
    exact hn ▸ hrun
  · refine (h.run_guards hparts rfl hcond his hi hhelped).run hcond hrun ?_ (by omega) (by omega)
    omega
  · have hne : is.flatMap (instrItems p.setting.config) ≠ [] := by
      rw [his, List.flatMap_append, List.flatMap_cons]
      exact List.append_ne_nil_of_right_ne_nil _ (List.append_ne_nil_of_left_ne_nil hi _)
    have hmem : i ∈ is := his ▸ List.mem_append_right _ List.mem_cons_self
    rw [regionItems, if_neg (not_or.mpr ⟨hcond, hne⟩), List.cons_append,
      ← List.singleton_append, ← List.append_assoc] at hbody
    have hpassed := h.run_passed hparts hbody his hplain (s := s) ?_ hsim fun _ =>
      (congrArg (·.holds s.flags) (hsame i hmem)).trans hholds
    · rwa [List.length_append, List.length_singleton, ← Nat.add_assoc] at hpassed
    · rwa [List.length_append, List.length_singleton, ← Nat.add_assoc]

end Translated

/-- Every instruction is tested as its condition says, in itself or with others that have the same
condition. -/
theorem conditions_tested {options : Options} {dispatch : DispatchTable} {img : Guest.Image}
    {entry : Word} {c : Compiled} (h : translate options dispatch img entry = .ok c) :
    ∃ t p, Translated options dispatch img entry c t p ∧
      (bodyParts p.blocks).flatMap Part.instrs = t.instrs ∧
      ∀ pre cond is post, bodyParts p.blocks = pre ++ .run cond is :: post →
        (cond = .al → SelfTested p c (p.room + (partsItems p.setting.config pre).length) is) ∧
        (cond ≠ .al →
          Guarded p c (p.room + (partsItems p.setting.config pre).length) cond is) := by
  obtain ⟨t, p, h⟩ := translate_ok h
  refine ⟨t, p, h, (instrs_bodyParts p.blocks).trans h.instrs_eq.symm,
    fun pre cond is post hparts => ⟨?_, h.guarded hparts⟩⟩
  rintro rfl
  exact h.selfTested hparts

/-- A comparison with zero, an addition and a subtraction if it was equal, and a return. -/
def pairImage : Guest.Image :=
  ⟨0x1000, #[0x00, 0x00, 0x50, 0xE3, 0x01, 0x10, 0x81, 0x02, 0x01, 0x20, 0x42, 0x02,
    0x1E, 0xFF, 0x2F, 0xE1]⟩

def pairTrace : Guest.Trace :=
  .ofBlocks #[{
    start := 0x1000
    instrs := #[Guest.decode 0xE3500000 0x1000, Guest.decode 0x02811001 0x1004,
      Guest.decode 0x02422001 0x1008, Guest.decode 0xE12FFF1E 0x100C] }]

/-- Control comes to the subtraction only while the flags say that the comparison was equal. -/
theorem conditions_tested_pair : ∃ c, translate {} DispatchTable.empty pairImage 0x1000 = .ok c ∧
    ∀ call n s s', Run (instrAt? c.code) call n s s' → s.pc = 0 → s'.pc = 68 →
      Cond.eq.holds s'.flags = true := by
  have htrace : Guest.Trace.collect {} pairImage 0x1000 = .ok pairTrace :=
    eq_ok_of_toOption (by decide +kernel)
  obtain ⟨c, hc⟩ : ∃ c, translate {} DispatchTable.empty pairImage 0x1000 = .ok c :=
    translate_of_aligned DispatchTable.empty_ne (by decide) (by decide) (by decide) (by decide)
  obtain ⟨t, p, h, -, htested⟩ := conditions_tested hc
  obtain rfl : pairTrace = t := Except.ok.inj (htrace.symm.trans h.trace)
  have hparts : bodyParts p.blocks = [.run .al [Guest.decode 0xE3500000 0x1000]] ++
      .run .eq ([Guest.decode 0x02811001 0x1004] ++ Guest.decode 0x02422001 0x1008 :: []) ::
        [.run .al [Guest.decode 0xE12FFF1E 0x100C]] := by
    rw [h.blocks]
    rfl
  have hguarded := (htested _ _ _ _ hparts).2 (by decide)
  refine ⟨c, hc, fun call n s s' hrun hs hs' => ?_⟩
  have hcurrent := hguarded.current _ _ _ rfl
  rw [Plan.room, h.setting] at hcurrent
  exact hcurrent (by decide) (by decide) call n s s' hrun hs (hs'.trans rfl)

/-- A supervisor call and an addition if the flags say equal. -/
def helpedImage : Guest.Image := ⟨0x1000, #[0x00, 0x00, 0x00, 0x0F, 0x01, 0x00, 0x80, 0x02]⟩

/-- The state in which a helper comes back that clears the flags in the record and sends the guest on
behind the supervisor call. -/
def clearedState (s : Host.State) : Host.State :=
  ((s.set (.ofNat 0) 0x1004).store (s.x .context + BitVec.ofNat 64 Record.nzcv) 4 0).skip 1

/-- Behind an instruction that a helper answers the flags are not tested again: control comes to the
addition while they do not say equal. -/
theorem exists_run_stale : ∃ c n s s',
    translate {} DispatchTable.empty helpedImage 0x1000 = .ok c ∧
    Run (instrAt? c.code) (fun s t => t = clearedState s) n s s' ∧ s.pc = 0 ∧ s'.pc = 66 ∧
    Cond.eq.holds s'.flags = false := by
  let start := callingState.store (0x1000 + BitVec.ofNat 64 Record.nzcv) 4 0x40000000
  have hunit : (translate {} DispatchTable.empty helpedImage 0x1000).toOption.any (fun c =>
      decide (((advance (instrAt? c.code) 21 start).bind fun s =>
        if instrAt? c.code s.pc = some (.blr (.ofNat 7)) then
          (advance (instrAt? c.code) 11 (clearedState s)).map fun s =>
            (s.pc, Cond.eq.holds s.flags)
        else none) = some (66, false))) = true := by decide +kernel
  obtain ⟨c, hc, hunit⟩ := exists_ok_of_any hunit
  obtain ⟨s, hs, hrest⟩ := Option.bind_eq_some_iff.mp (of_decide_eq_true hunit)
  split at hrest
  · rename_i hblr
    obtain ⟨s', hs', hend⟩ := Option.map_eq_some_iff.mp hrest
    obtain ⟨hpc, hflags⟩ := Prod.mk.inj hend
    have hcall : Step (instrAt? c.code) (fun s t => t = clearedState s) s (clearedState s) :=
      .call hblr rfl rfl
    exact ⟨c, _, start, s', hc, (execs_iff_advance.mpr hs).run.trans
      (.step hcall (execs_iff_advance.mpr hs').run), rfl, hpc, hflags⟩
  · cases hrest

end Dynarec
