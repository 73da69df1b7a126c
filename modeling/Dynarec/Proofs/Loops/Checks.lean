import Dynarec.Proofs.Loops.Graph
import Dynarec.Proofs.Usage.Marks

/-! # Checks of loops

The execution counter is counted down by the checks of loops alone. From a check control comes to
the branch of its loop, at once or through the call for which the check asks, and no other way leads
in between. -/

namespace Dynarec.Host

/-- Index `k` lies behind the check at `m`: before the branch of its loop or at it, or among the
words from `n` to `n'` that the call of the check and the branch have out of line. -/
def Behind (m n n' k : Nat) : Prop := (m < k ∧ k ≤ m + 5) ∨ (n ≤ k ∧ k < n')

end Dynarec.Host

namespace Dynarec.Compile

open Dynarec.Emit Dynarec.Host Dynarec.Lower Dynarec.Resolve

/-! ### Blocks of checks -/

/-- A check stands only before the last instruction of a block that ends a loop. -/
theorem check_parts {isLoopEnd : Bool} {is : List Guest.Instr} {i : Guest.Instr} {qs rs : List Part}
    (h : parts isLoopEnd is = qs ++ .check i :: rs) : isLoopEnd = true ∧
      ∃ init, is = init ++ [i] ∧ qs = parts false init ∧ rs = Part.cons i [] := by
  have hmem : .check i ∈ parts isLoopEnd is := h ▸ List.mem_append_right _ List.mem_cons_self
  obtain ⟨rfl, hlast⟩ := check_mem_parts.mp hmem
  obtain ⟨init, rfl⟩ := List.getLast?_eq_some_iff.mp hlast
  have hno : ∀ j ps ps', parts false init ≠ ps ++ .check j :: ps' := by
    intro j ps ps' hps
    have hin : .check j ∈ parts false init := hps ▸ List.mem_append_right _ List.mem_cons_self
    cases (check_mem_parts.mp hin).1
  rw [parts_loopEnd] at h
  refine ⟨rfl, init, rfl, ?_⟩
  rcases split_cases h with ⟨rfl, -⟩ | ⟨w, hw⟩ | ⟨w, rfl⟩
  · exact ⟨rfl, (List.cons.inj (List.append_cancel_left h)).2.symm⟩
  · exact absurd hw (hno i qs w)
  · rw [List.append_assoc] at h
    have hin : .check i ∈ Part.cons i [] := by
      rw [(List.cons.inj (List.append_cancel_left h)).2]
      exact List.mem_append_right _ List.mem_cons_self
    exact absurd (check_mem_cons.mp hin) List.not_mem_nil

theorem check_block {bs : List Guest.Block} {pre post : List Part} {i : Guest.Instr}
    (h : bodyParts bs = pre ++ .check i :: post) : ∃ as b cs init, bs = as ++ b :: cs ∧
      b.isLoopEnd = true ∧ b.instrs.toList = init ++ [i] ∧
      pre = bodyParts as ++ parts false init ∧ post = Part.cons i [] ++ bodyParts cs := by
  induction bs generalizing pre with
  | nil => exact absurd h.symm (List.append_ne_nil_of_right_ne_nil _ (List.cons_ne_nil _ _))
  | cons b bs ih =>
    have hcons : ∀ cs, bodyParts (b :: cs) = blockParts b ++ bodyParts cs := fun cs =>
      List.flatMap_cons
    -- The check is one of the first block, or of a later one.
    have hcases : (∃ w, blockParts b = pre ++ .check i :: w ∧ post = w ++ bodyParts bs) ∨
        ∃ w, pre = blockParts b ++ w ∧ bodyParts bs = w ++ .check i :: post := by
      rw [hcons] at h
      rcases List.append_eq_append_iff.mp h with ⟨w, hpre, hrest⟩ | ⟨w, hblock, hrest⟩
      · exact .inr ⟨w, hpre, hrest⟩
      · cases w with
        | nil => exact .inr ⟨[], by rw [hblock, List.append_nil, List.append_nil], hrest.symm⟩
        | cons q w =>
          obtain ⟨rfl, rfl⟩ := List.cons_eq_cons.mp hrest
          exact .inl ⟨w, hblock, rfl⟩
    rcases hcases with ⟨w, hblock, rfl⟩ | ⟨w, rfl, hrest⟩
    · obtain ⟨hloop, init, hinit, rfl, rfl⟩ := check_parts hblock
      exact ⟨[], b, bs, init, rfl, hloop, hinit, rfl, rfl⟩
    · obtain ⟨as, b', cs, init, rfl, hloop, hinit, rfl, hpost⟩ := ih hrest
      refine ⟨b :: as, b', cs, init, rfl, hloop, hinit, ?_, hpost⟩
      rw [hcons, List.append_assoc]

end Dynarec.Compile

namespace Dynarec.Translated

open Dynarec.Emit Dynarec.Compile Dynarec.Host Dynarec.Lower Dynarec.Resolve

variable {options : Options} {dispatch : DispatchTable} {img : Guest.Image} {entry : Word}
  {c : Compiled} {t : Guest.Trace} {p : Plan} (h : Translated options dispatch img entry c t p)

include h

/-- Only a check counts down. -/
theorem check_of_found {m : Nat} (hm : Found (instrAt? c.code) m syncOps) :
    ∃ pre i post, bodyParts p.blocks = pre ++ .check i :: post ∧
      m = p.room + (partsItems p.setting.config pre).length := by
  -- The third word of a check stores the counter, which nothing else does.
  have hstr := hm 2 _ rfl
  have hspares : ¬Record.Spares Record.execCounter 4 := by
    unfold Record.Spares
    omega
  have hcounter : ∀ k : Nat, ((Record.execCounter : Nat) : Int) = k → ¬Record.Spares k 4 := by
    intro k hk
    rwa [← Int.ofNat_inj.mp hk]
  have hframes : ¬(Host.Instr.str .w .scratch .context Record.execCounter).Frames p.use := by
    intro hf
    obtain ⟨k, hk, hs⟩ := hf.spares _ _ rfl
    exact hcounter k hk hs
  generalize hat : m + 2 = n at hstr
  cases h.at_of_instrAt? hstr with
  | prologue hk => exact absurd (p.prologue_frames _ (List.mem_of_getElem? hk)) hframes
  | trailer hk => exact absurd (p.trailer_frames _ (List.mem_of_getElem? hk)) hframes
  | @main j _ hmain =>
    have huses := h.main_uses _ _ hmain
    generalize p.room + j = n at hat huses
    generalize hi : Host.Instr.str .w .scratch .context Record.execCounter = i at huses
    cases huses with
    | confined hc =>
      subst hi
      obtain ⟨k, hk, hs⟩ := hc.counter _ _ rfl
      exact absurd hs (hcounter k hk)
    | call _ _ _ _ _ hclobbers =>
      cases hclobbers with
      | call => cases hi
      | reload => cases hi
    | @check pre post i n _ hparts hn =>
      subst hi
      have honly : ∀ n < 4,
          syncOps[n]? = some (.str .w .scratch .context Record.execCounter) → n = 2 := by decide
      have hn' := honly n (List.getElem?_eq_some_iff.mp hn).1 hn
      exact ⟨pre, i, post, hparts, by omega⟩

section Check

variable {pre post : List Part} {i : Guest.Instr}
  (hparts : bodyParts p.blocks = pre ++ .check i :: post)

include hparts

/-- Behind a check the placeholder of the branch comes that ends the loop. -/
theorem check_backward : Guest.Scan.isBackward i = true := by
  obtain ⟨z, hz⟩ := h.chain
  obtain ⟨as, b, cs, init, hbs, hloop, hinit, -, -⟩ := check_block hparts
  obtain ⟨m, hs⟩ := Guest.Chain.sound (hbs ▸ hz)
  obtain ⟨init', i', hinit', -, hback⟩ := hs.last
  obtain ⟨-, hi⟩ := List.append_inj' (hinit.symm.trans hinit') rfl
  cases hi
  exact hback.symm.trans hloop

theorem check_body : ∃ kind target zs, p.body = partsItems p.setting.config pre ++
    (syncItems i ++ .hole kind target (currentOf i) :: zs) := by
  obtain ⟨z, hz⟩ := h.chain
  obtain ⟨as, b, cs, init, -, -, -, -, hpost⟩ := check_block hparts
  obtain ⟨kind, target, hhole⟩ := loopEnd_items p.setting.config (h.check_backward hparts)
  have hbody := h.body_eq hz
  rw [hparts, hpost, partsItems_append, partsItems_cons, partsItems_append, hhole,
    List.append_assoc, List.append_assoc] at hbody
  exact ⟨kind, target, _, hbody⟩

variable {r : Nat} (hr : r = (partsItems p.setting.config pre).length)

include hr

/-- No block starts between a check and the branch of its loop. -/
theorem check_starts {a : Word} {index : Nat} (ha : p.targets a = some index) :
    index ≤ p.room + r ∨ p.room + r + 6 ≤ index := by
  obtain ⟨as, b, cs, init, hbs, hloop, hinit, hpre, -⟩ := check_block hparts
  obtain ⟨kind, target, hhole⟩ := loopEnd_items p.setting.config (h.check_backward hparts)
  obtain ⟨as', b', cs', hbs', -, hindex⟩ := h.targets_eq_some ha
  rw [partsItems_bodyParts] at hindex
  rw [hpre, partsItems_append, partsItems_bodyParts, List.length_append] at hr
  rcases block_cases hbs hbs' with ⟨ds, hds⟩ | ⟨ds, hds⟩
  · rw [hds, List.flatMap_append, List.length_append] at hr
    exact .inl (by omega)
  · have hlen : (blockItems p.setting.config b).length =
        (partsItems p.setting.config (parts false init)).length + 6 := by
      rw [blockItems, blockParts, hinit, hloop, parts_loopEnd, partsItems_append, partsItems_cons,
        hhole, List.length_append, List.length_append]
      rfl
    rw [hds, List.flatMap_append, List.flatMap_cons, List.length_append,
      List.length_append] at hindex
    exact .inr (by omega)

/-- Four finished words stand at a check. -/
theorem check_ops {q : Nat} {x : Item} (hlo : r ≤ q) (hhi : q < r + 4) (hx : p.body[q]? = some x) :
    x.fixup? (p.room + q) = none := by
  obtain ⟨kind, target, zs, hbody⟩ := h.check_body hparts
  obtain ⟨n, rfl⟩ := Nat.exists_eq_add_of_le hlo
  have hn : n < (ops syncOps).length := Nat.lt_of_add_lt_add_left hhi
  rw [hbody, hr, List.getElem?_append_right (Nat.le_add_right _ _), Nat.add_sub_cancel_left,
    syncItems, List.append_assoc, List.getElem?_append_left hn] at hx
  obtain ⟨o, -, rfl⟩ := List.mem_map.mp (List.mem_of_getElem? hx)
  rfl

omit h in
/-- Another part stands before a check or behind it. -/
theorem check_apart {pre' post' : List Part} {q : Part}
    (hparts' : bodyParts p.blocks = pre' ++ q :: post') :
    (r = (partsItems p.setting.config pre').length ∧ .check i = q) ∨
      (partsItems p.setting.config pre').length + (q.items p.setting.config).length ≤ r ∨
      r + 5 ≤ (partsItems p.setting.config pre').length := by
  rcases split_cases (hparts.symm.trans hparts') with ⟨rfl, hq⟩ | ⟨w, rfl⟩ | ⟨w, rfl⟩
  · exact .inl ⟨hr, hq⟩
  · rw [partsItems_append, partsItems_cons, List.length_append, List.length_append] at hr
    exact .inr (.inl (by omega))
  · have hlen : (Part.items p.setting.config (.check i)).length = 5 := rfl
    rw [partsItems_append, partsItems_cons, List.length_append, List.length_append]
    exact .inr (.inr (by omega))

omit h hparts hr in
/-- The sequences of a check and of its loop stand side by side. -/
theorem offset_of_seqAt {q n : Nat} (hlo : p.seqAt q ≤ n) (hhi : n < p.seqAt (q + 1))
    (hn : p.seqAt (r + 4) ≤ n) (hn' : n < p.seqAt (r + 6)) : q = r + 4 ∨ q = r + 5 := by
  rcases Nat.lt_or_ge q (r + 4) with hlt | hge
  · have hle : p.seqAt (q + 1) ≤ p.seqAt (r + 4) := p.seqAt_mono hlt
    omega
  · rcases Nat.lt_or_ge q (r + 6) with hlt | hge'
    · omega
    · have hle := p.seqAt_mono hge'
      omega

/-- From elsewhere, control comes behind a check only through it. -/
theorem check_seals {j m : Nat} (hp : p.Passes j m)
    (hm : Behind (p.room + r) (p.seqAt (r + 4)) (p.seqAt (r + 6)) m) :
    Behind (p.room + r) (p.seqAt (r + 4)) (p.seqAt (r + 6)) j ∨
      j = p.room + r ∧ m = p.room + r + 1 := by
  have hbody : r + 6 ≤ p.body.length := by
    obtain ⟨kind, target, zs, hbody⟩ := h.check_body hparts
    rw [hbody, List.length_append, List.length_append, List.length_cons, ← hr]
    show r + 6 ≤ r + (5 + (zs.length + 1))
    omega
  have hseq := p.le_seqAt (r + 4)
  have hmono := p.seqAt_mono (show r + 4 ≤ r + 5 by omega)
  have hmono' := p.seqAt_mono (show r + 5 ≤ r + 6 by omega)
  cases hp with
  | next hne =>
    have hstart := hne (r + 4)
    rcases hm with hm | hm
    · by_cases hj : j = p.room + r
      · exact .inr ⟨hj, by rw [hj]⟩
      · exact .inl (.inl (by omega))
    · exact .inl (.inr (by omega))
  | skipRoom _ hle _ => rcases hm with hm | hm <;> omega
  | jump hj =>
    refine .inl ?_
    cases hj with
    | @check pre' _ i' k hparts' hk hlt =>
      rcases hm with hm | hm
      · have hlen : (Part.items p.setting.config (.check i')).length = 5 := rfl
        rcases check_apart hparts hr hparts' with ⟨hpre, -⟩ | hle | hle
        · exact .inl (by omega)
        · omega
        · omega
      · omega
    | skip hparts' hk hm' hlt hlt' =>
      rcases hm with hm | hm
      · rcases check_apart hparts hr hparts' with ⟨-, hpart⟩ | hle | hle
        · cases hpart
        · omega
        · omega
      · omega
    | @enter q hne =>
      rcases hm with hm | hm
      · have := p.le_seqAt q
        omega
      · rcases offset_of_seqAt (Nat.le_refl _) hne hm.1 hm.2 with rfl | rfl
        · exact .inl (by omega)
        · exact .inl (by omega)
    | @inside q _ _ hlo hjm hhi =>
      rcases hm with hm | hm
      · have := p.le_seqAt q
        omega
      · rcases offset_of_seqAt (Nat.le_trans hlo (Nat.le_of_lt hjm)) hhi hm.1 hm.2 with rfl | rfl
        · exact .inr (by omega)
        · exact .inr (by omega)
    | @back q _ x f hx hf hlo hhi hlt =>
      rcases hm with hm | hm
      -- Only the call of the check itself returns there: the words before it are no placeholders.
      · have hq : q = r + 4 := by
          rcases Nat.lt_or_ge q (r + 4) with hlt | hge
          · rw [h.check_ops hparts hr (by omega) hlt hx] at hf
            cases hf
          · omega
        subst hq
        exact .inr ⟨Nat.le_of_lt hlo, Nat.lt_of_lt_of_le hhi hmono'⟩
      · omega
    | @goal q _ _ x f a hx hf hg ha hj =>
      have hstart := h.check_starts hparts hr ha
      have hbound := (h.targets_bounds ha).2
      rcases hm with hm | hm <;> omega
    | leave hj =>
      have hfinish := p.seqAt_le_finish (r + 6)
      rcases hm with hm | hm <;> omega

end Check

end Dynarec.Translated
