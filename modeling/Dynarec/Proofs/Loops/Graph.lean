import Dynarec.Proofs.Usage.Unit

/-! # Ways of control through a unit

From one word of a unit to another control passes in few ways: on to the next word, over the room
that the prologue leaves, past the call of a check, over a run of instructions whose condition does
not hold, into a sequence out of line, within it, back behind the placeholder it stands for, to the
block that a branch aims at, and to the trailer. -/

namespace Dynarec.Host

/-- Control can pass from the word at index `k` to another, whatever conditional branches do, if
calls return. -/
inductive Edge (code : Array Word) (k : Nat) : Nat → Prop
  | next {i : Instr} (hi : instrAt? code k = some i) (hf : i.falls = true) : Edge code k (k + 1)
  | jump {i : Instr} {d : Int} {m : Nat} (hi : instrAt? code k = some i) (hd : i.disp? = some d)
      (hm : (k : Int) + d = m) : Edge code k m

/-- The field of a long branch keeps a displacement up to multiples of its range. -/
theorem imm26_congr (d : Int) : ((Instr.imm26 d).toInt - d) % 0x4000000 = 0 := by
  have hcut : (Instr.imm26 d).toInt = Int.bmod d 0x4000000 := BitVec.toInt_ofInt d
  rw [hcut, Int.bmod]
  split <;> omega

end Dynarec.Host

namespace Dynarec.Compile

open Dynarec.Emit Dynarec.Host Dynarec.Lower Dynarec.Resolve

theorem roomSkip_congr {n room : Nat} {d : Int} (h : roomSkip n room = some d) :
    ((n : Int) + d - room) % 0x4000000 = 0 := by
  have hmod : ∀ k : Nat, ((BitVec.ofNat 64 k).toInt - k) % 0x4000000 = 0 := by
    intro k
    have hint : (BitVec.ofNat 64 k).toInt = Int.bmod k 0x10000000000000000 := BitVec.toInt_ofNat' k
    rw [hint, Int.bmod]
    split <;> omega
  unfold roomSkip displacement? at h
  split at h
  · cases h
  · cases h
    have hn := hmod n
    have hroom := hmod room
    omega

namespace Plan

variable (p : Plan)

/-- Where the sequence stands of the item at offset `q` of the body. -/
def seqAt (q : Nat) : Nat := p.tailAt (p.body.take q)

variable {p}

theorem le_seqAt (q : Nat) : p.room + p.body.length ≤ p.seqAt q := p.le_tailAt _

theorem seqAt_mono {q q' : Nat} (h : q ≤ q') : p.seqAt q ≤ p.seqAt q' := by
  obtain ⟨r, rfl⟩ := Nat.exists_eq_add_of_le h
  rw [seqAt, seqAt, List.take_add, tailAt_append]
  exact Nat.le_add_right _ _

theorem seqAt_split {ys zs : List Item} {x : Item} (h : p.body = ys ++ x :: zs) :
    p.seqAt ys.length = p.tailAt ys ∧ p.seqAt (ys.length + 1) = p.tailAt (ys ++ [x]) := by
  have hx : p.body = (ys ++ [x]) ++ zs := by rw [h, List.append_assoc, List.singleton_append]
  constructor
  · rw [seqAt, h, List.take_left']
    rfl
  · rw [seqAt, hx, List.take_left']
    exact List.length_append

theorem seqAt_le_finish (q : Nat) : p.seqAt q ≤ p.finish := by
  have hall : p.seqAt (q + p.body.length) = p.finish := by
    rw [seqAt, List.take_of_length_le (Nat.le_add_left _ _), finish_eq]
    rfl
  exact Nat.le_trans (seqAt_mono (Nat.le_add_right _ _)) (Nat.le_of_eq hall)

variable (p)

/-- The ways that branches between the prologue and the trailer lead. -/
inductive Jumps : Nat → Nat → Prop
  | check {pre post : List Part} {i : Guest.Instr} {k : Nat}
      (h : bodyParts p.blocks = pre ++ .check i :: post)
      (hk : k = p.room + (partsItems p.setting.config pre).length)
      (hm : k + 5 < p.room + p.body.length) : Jumps (k + 3) (k + 5)
  | skip {pre post : List Part} {c : Cond} {is : List Guest.Instr} {k m : Nat}
      (h : bodyParts p.blocks = pre ++ .run c is :: post)
      (hk : k = p.room + (partsItems p.setting.config pre).length)
      (hm : m = k + (Part.items p.setting.config (.run c is)).length) (hlt : k + 1 < m)
      (hm : m < p.room + p.body.length) : Jumps k m
  | enter {q : Nat} (h : p.seqAt q < p.seqAt (q + 1)) : Jumps (p.room + q) (p.seqAt q)
  | inside {q j m : Nat} (hlo : p.seqAt q ≤ j) (hjm : j < m) (hhi : m < p.seqAt (q + 1)) : Jumps j m
  | back {q j : Nat} {x : Item} {f : Fixup} (hx : p.body[q]? = some x)
      (hf : x.fixup? (p.room + q) = some f) (hlo : p.seqAt q < j) (hhi : j < p.seqAt (q + 1))
      (hm : q + 1 < p.body.length) : Jumps j (p.room + q + 1)
  | goal {q j index : Nat} {x : Item} {f : Fixup} {a : Word} (hx : p.body[q]? = some x)
      (hf : x.fixup? (p.room + q) = some f) (hg : goal? f = some a) (ha : p.targets a = some index)
      (hj : j = p.room + q ∨ p.seqAt q < j ∧ j < p.seqAt (q + 1)) : Jumps j index
  | leave {j : Nat} (hj : j < p.finish) : Jumps j p.finish

/-- The ways that control passes through a unit. -/
inductive Passes : Nat → Nat → Prop
  | next {j : Nat} (h : ∀ q, j + 1 ≠ p.seqAt q) : Passes j (j + 1)
  | skipRoom {m : Nat} (hlt : p.prologue.length < p.room) (hle : m ≤ p.room)
      (hmod : m % 0x4000000 = p.room % 0x4000000) : Passes p.prologue.length m
  | jump {j m : Nat} (h : p.Jumps j m) : Passes j m

end Plan

end Dynarec.Compile

namespace Dynarec.Translated

open Dynarec.Emit Dynarec.Compile Dynarec.Host Dynarec.Lower Dynarec.Resolve

variable {options : Options} {dispatch : DispatchTable} {img : Guest.Image} {entry : Word}
  {c : Compiled} {t : Guest.Trace} {p : Plan} (h : Translated options dispatch img entry c t p)

include h

/-! ### The end of the body -/

/-- Where control never passes on behind the last block, its last part has no test. -/
theorem bodyParts_departs (he : endsAfter false p.blocks = true) : ∃ qs is,
    bodyParts p.blocks = qs ++ [.run .al is] ∧ is.flatMap (instrItems p.setting.config) ≠ [] := by
  obtain ⟨pre, b, init, i, ys, kind, target, hpre, hinit, hal, hhole, -⟩ := h.body_departs he
  obtain ⟨qs, cond, is, hparts⟩ := parts_ends b.isLoopEnd init i
  have hends : bodyParts p.blocks = (bodyParts pre ++ qs) ++ [.run cond (is ++ [i])] := by
    rw [hpre, bodyParts, List.flatMap_append, List.flatMap_singleton, blockParts, hinit, hparts,
      ← List.append_assoc]
    rfl
  have hcond : cond = .al := by
    have hlowered := (run_uniform hends).1 i (List.mem_append_right _ List.mem_cons_self)
    unfold lowered at hlowered
    split at hlowered
    · exact hlowered.symm
    · exact hlowered.symm.trans hal
  refine ⟨_, is ++ [i], hcond ▸ hends, ?_⟩
  obtain ⟨os, -, hos⟩ := items_eq p.setting.config (currentOf i) i
  rw [List.flatMap_append, List.flatMap_singleton, instrItems, hos, holeItems, hhole]
  exact List.append_ne_nil_of_right_ne_nil _ (List.append_ne_nil_of_right_ne_nil _
    (List.cons_ne_nil _ _))

/-- Behind a check, and behind a run with a test, more of the body comes. -/
theorem part_before_end {pre post : List Part} {q : Part}
    (hparts : bodyParts p.blocks = pre ++ q :: post) (hq : ∀ is, q ≠ .run .al is) :
    (partsItems p.setting.config pre).length + (q.items p.setting.config).length <
      p.body.length := by
  obtain ⟨z, hz⟩ := h.chain
  have hlen := congrArg List.length (h.body_eq hz)
  rw [hparts, partsItems_append, partsItems_cons, List.length_append, List.length_append,
    List.length_append] at hlen
  cases he : endsAfter false p.blocks with
  | false =>
    have hpos : 0 < (endItems p.setting z (endsAfter false p.blocks)).length := by
      rw [he]
      exact List.length_pos_iff.mpr (exitItems_ne_nil p.setting z)
    omega
  | true =>
    obtain ⟨qs, is, hends, hne⟩ := h.bodyParts_departs he
    have hpos : 0 < (partsItems p.setting.config post).length := by
      rcases List.eq_nil_or_concat post with rfl | ⟨init, last, rfl⟩
      · obtain ⟨-, hlast⟩ := List.append_inj' (hends.symm.trans hparts) rfl
        cases hlast
        exact absurd rfl (hq is)
      · rw [List.concat_eq_append, ← List.cons_append, ← List.append_assoc] at hparts
        obtain ⟨-, hlast⟩ := List.append_inj' (hends.symm.trans hparts) rfl
        cases hlast
        rw [List.concat_eq_append, partsItems_append, List.length_append, partsItems_cons,
          List.length_append, Part.items, regionItems, if_pos (.inl rfl)]
        have := List.length_pos_iff.mpr hne
        omega
    omega

/-- Behind a placeholder to which control comes back, more of the body comes. -/
theorem returns_before_end {ys zs : List Item} {x : Item} {f : Fixup}
    (hbody : p.body = ys ++ x :: zs) (hx : x.fixup? (p.room + ys.length) = some f)
    (hr : f.kind.returns = true) : ys.length + 1 < p.body.length := by
  rw [hbody, List.length_append, List.length_cons]
  cases zs with
  | cons z zs => 
    rw [List.length_cons]
    omega
  | nil =>
    exfalso
    cases he : endsAfter false p.blocks with
    | false =>
      obtain ⟨z, hz⟩ := h.chain
      have hends : p.body = (partsItems p.setting.config (bodyParts p.blocks) ++
          ops (addressOps z ++ dispatchOps p.setting (some z))) ++ [.exit .always] := by
        rw [h.body_eq hz, he, List.append_assoc]
        rfl
      obtain ⟨-, hlast⟩ := List.append_inj' (hends.symm.trans hbody) rfl
      cases hlast
      cases hx
    | true =>
      obtain ⟨-, -, -, i, ys', kind, target, -, -, -, -, hd, hends⟩ := h.body_departs he
      obtain ⟨-, hlast⟩ := List.append_inj' (hends.symm.trans hbody) rfl
      cases hlast
      cases hx
      cases hd <;> cases hr

/-! ### Branches -/

/-- Every branch between the prologue and the trailer leads one of the ways. -/
theorem main_jumps : ItemsLand false p.Jumps p.room p.main := by
  refine h.main_lands_of
    (itemsLand_parts _ (bodyFits_parts h.fits.body) fun pre q post hparts => ?_)
    fun ys x zs f hbody hx => ?_
  · cases q with
    | check i =>
      have hlt := h.part_before_end hparts nofun
      have hlen : (Part.items p.setting.config (.check i)).length = 5 := rfl
      exact .check hparts rfl (by omega)
    | run cond is =>
      intro hal hne
      have hlt := h.part_before_end hparts fun is' heq => hal (Part.run.inj heq).1
      have hlen : (Part.items p.setting.config (.run cond is)).length =
          (is.flatMap (instrItems p.setting.config)).length + 1 := by
        rw [Part.items, regionItems, if_neg (not_or.mpr ⟨hal, hne⟩), List.length_cons]
      have hpos := List.length_pos_iff.mpr hne
      exact .skip hparts rfl (by omega) (by omega) (by omega)
  · obtain ⟨hfirst, hnext⟩ := Plan.seqAt_split hbody
    have hat := getElem?_of_split hbody
    have hsite := (fixup?_eq_some hx).1
    rw [← hfirst, ← hnext]
    refine ⟨fun hlt => ?_, fun j m hj hm hhi => .inside hj hm hhi, fun hr j hlo hhi => ?_,
      fun a ha index hindex => ⟨?_, fun j hlo hhi => .goal hat hx ha hindex (.inr ⟨hlo, hhi⟩)⟩⟩
    · rw [hsite]
      exact .enter hlt
    · rw [hsite]
      exact .back hat hx hlo hhi (h.returns_before_end hbody hx hr)
    · exact .goal hat hx ha hindex (.inl hsite)

/-- The word before a sequence does not lead on. -/
theorem next_ne_seqAt {k : Nat} {i : Host.Instr} (hi : instrAt? c.code k = some i)
    (hfalls : i.falls = true) (q : Nat) : k + 1 ≠ p.seqAt q := by
  intro hk
  obtain ⟨j, hj, hjf⟩ := h.falls_before_tailAt (List.take_append_drop q p.body).symm
  have hk' : p.tailAt (p.body.take q) - 1 = k := by
    rw [← Plan.seqAt, ← hk, Nat.add_sub_cancel]
  rw [hk'] at hj
  have hlo := p.le_seqAt q
  have hhi := p.seqAt_le_finish q
  have hpos := h.body_length_pos
  have hfront := h.fits.front.1
  cases h.at_of_instrAt? hi with
  | prologue hk =>
    have hlt := (List.getElem?_eq_some_iff.mp hk).1
    omega
  | skip hlt => cases hfalls
  | spare _ _ => omega
  | main hmain =>
    cases (Plan.stands_main h.fits _ _ hmain).symm.trans hj
    rw [hfalls] at hjf
    cases hjf
  | trailer _ => omega

/-- The branch over the room that the prologue leaves, as it is read back. -/
theorem skip_passes {m : Nat} (hlt : p.prologue.length < p.room)
    (hm : (p.prologue.length : Int) +
      (Instr.imm26 ((roomSkip p.prologue.length p.room).getD 0)).toInt = m) :
    p.Passes p.prologue.length m := by
  obtain ⟨d, hd⟩ := Option.isSome_iff_exists.mp (h.fits.front.2 hlt)
  rw [hd, Option.getD_some] at hm
  have hcut := imm26_congr d
  have hroom := roomSkip_congr hd
  refine .skipRoom hlt ?_ (by omega)
  have hlands := front_wordLands p (fun _ _ => False) p.prologue.length (.b d) ?_
  · rcases hlands _ _ (decode_b_cut d) rfl with hle | ⟨-, -, hfalse⟩
    · omega
    · exact hfalse.elim
  · unfold frontOf
    rw [if_pos hlt, List.getElem?_append_right (Nat.le_refl _), Nat.sub_self, hd]
    rfl

/-- Control passes only in these ways. -/
theorem passes {k m : Nat} (he : Edge c.code k m) : p.Passes k m := by
  cases he with
  | next hi hf => exact .next (h.next_ne_seqAt hi hf)
  | @jump i d m hi hd hm =>
    have hstraight : ∀ is : List Host.Instr, Straight is → i ∈ is → p.Passes k m := by
      intro is his hmem
      rw [(isStraight_iff.mp (straight_iff.mp his i hmem)).2.1] at hd
      cases hd
    cases h.at_of_instrAt? hi with
    | prologue hk =>
      exact hstraight _ (straight_prologue p.frame p.use) (List.mem_of_getElem? hk)
    | skip hlt =>
      cases hd
      exact h.skip_passes hlt hm
    | spare _ _ => cases hd
    | main hmain =>
      have hlands := closeItems_land h.main_jumps h.fits.exits (fun j hj => .leave hj) _ _ hmain
      obtain ⟨n, hn, hjump⟩ := hlands.lands d hd
      cases Int.ofNat_inj.mp (hn.symm.trans hm)
      exact .jump hjump
    | trailer ht =>
      have hmem := List.mem_of_getElem? ht
      unfold Plan.trailer at hmem
      split at hmem
      · exact absurd hmem List.not_mem_nil
      · rw [trailer_eq] at hmem
        rcases List.mem_append.mp hmem with hmem | hmem
        · exact hstraight _ (straight_trailerOps p.frame p.use) hmem
        · cases List.mem_singleton.mp hmem
          cases hd

end Dynarec.Translated
