import Dynarec.Proofs.Flow.Closed
import Dynarec.Proofs.Machine.Exec

/-! # Compiled units

What a compilation of any trace has made if it ends well: the plan of the unit, and its code. Each
placeholder of the body is replaced as its listing says, and the sequence for it stands where the
code ended when it was resolved. All other words of the body stay where they are. -/

namespace Dynarec.Host

open Dynarec.Compile

/-- What stands in a list of instructions is found in its code. -/
theorem found_of_stands {code : Array Word} {is js : List Instr} {k : Nat}
    (hcode : code.toList = is.map Instr.encode) (h : Stands is k js)
    (hc : ∀ j ∈ js, j.isCanonical = true) : Found (instrAt? code) k js := by
  intro j i hj
  rw [instrAt?, ← Array.getElem?_toList, hcode, List.getElem?_map, h j i hj]
  exact decode_encode (hc i (List.mem_of_getElem? hj))

theorem canonical_of_straight {is : List Instr} (h : Straight is) :
    ∀ i ∈ is, i.isCanonical = true :=
  fun i hi => (isStraight_iff.mp (straight_iff.mp h i hi)).1

end Dynarec.Host

namespace Dynarec.Compile

open Dynarec.Emit Dynarec.Lower Dynarec.Resolve Dynarec.Host

/-! ### One placeholder -/

theorem closeItems_ops (trailer k : Nat) (is : List Host.Instr) :
    closeItems trailer k (ops is) = is := by
  induction is generalizing k with
  | nil => rfl
  | cons i is ih => exact congrArg (i :: ·) (ih (k + 1))

/-- The item of the first fixup. -/
theorem fixupsFrom_eq_cons {k : Nat} {xs : List Item} {f : Fixup} {fs : List Fixup}
    (h : fixupsFrom k xs = f :: fs) :
    ∃ ys x zs, xs = ys ++ x :: zs ∧ fixupsFrom k ys = [] ∧ x.fixup? (k + ys.length) = some f := by
  induction xs generalizing k with
  | nil => cases h
  | cons x xs ih =>
    cases hx : x.fixup? k with
    | some g =>
      rw [fixupsFrom, hx] at h
      cases h
      exact ⟨[], x, xs, rfl, rfl, hx⟩
    | none =>
      have hcons : ∀ ws, fixupsFrom k (x :: ws) = fixupsFrom (k + 1) ws := by
        intro ws
        rw [fixupsFrom, hx]
        rfl
      rw [hcons] at h
      obtain ⟨ys, y, zs, hxs, hys, hy⟩ := ih h
      refine ⟨x :: ys, y, zs, congrArg (x :: ·) hxs, (hcons ys).trans hys, ?_⟩
      rwa [List.length_cons, Nat.add_comm ys.length, ← Nat.add_assoc]

/-- The item of a fixup, with the fixups before it. -/
theorem fixupsFrom_eq_append_cons {k : Nat} {xs : List Item} {f : Fixup} {fs rest : List Fixup}
    (h : fixupsFrom k xs = fs ++ f :: rest) :
    ∃ ys x zs, xs = ys ++ x :: zs ∧ fixupsFrom k ys = fs ∧ x.fixup? (k + ys.length) = some f := by
  obtain ⟨ys, zs, rfl, rfl⟩ := fixupsFrom_split h
  rw [fixupsFrom_append] at h
  obtain ⟨ws, x, zs, rfl, hws, hx⟩ := fixupsFrom_eq_cons (List.append_cancel_left h)
  refine ⟨ys ++ ws, x, zs, (List.append_assoc ..).symm, ?_, ?_⟩
  · rw [fixupsFrom_append, hws, List.append_nil]
  · rwa [List.length_append, ← Nat.add_assoc]

/-- Resolving placeholders leaves every other word. -/
theorem getElem?_itemsOf_pieces {e : Setting} {u : RegisterUse} {targets : Word → Option Nat}
    {k n j : Nat} {xs : List Item} (h : ∀ f ∈ fixupsFrom k xs, f.site ≠ k + j) :
    (itemsOf (pieces e u targets k n xs))[j]? = xs[j]? := by
  induction xs generalizing k n j with
  | nil => rfl
  | cons x xs ih =>
    cases j with
    | zero =>
      cases hx : x.fixup? k with
      | none =>
        show some (piece e u targets k n x).1 = some x
        simp only [piece, hx]
      | some f =>
        refine absurd (fixup?_eq_some hx).1 (h f ?_)
        rw [fixupsFrom, hx]
        exact List.mem_cons_self
    | succ j =>
      refine ih fun f hf => ?_
      rw [Nat.add_assoc, Nat.add_comm 1]
      exact h f (List.mem_append_right _ hf)

/-- Closing exits leaves every other instruction. -/
theorem getElem?_closeItems {trailer k j : Nat} {xs : List Item}
    (h : ∀ x ∈ exitsFrom k xs, x.site ≠ k + j) :
    (closeItems trailer k xs)[j]? = xs[j]?.map Item.instr := by
  induction xs generalizing k j with
  | nil => rfl
  | cons x xs ih =>
    cases j with
    | zero =>
      cases x with
      | exit condition => exact absurd rfl (h ⟨condition, k⟩ List.mem_cons_self)
      | op i => rfl
      | hole kind target c => rfl
    | succ j =>
      refine ih fun y hy => ?_
      rw [Nat.add_assoc, Nat.add_comm 1]
      exact h y (List.mem_append_right _ hy)

/-- A fixup in the end, if the code had `n` words when it was resolved: what stands over its
placeholder, and behind the code. -/
structure Plan.Settled (p : Plan) (f : Fixup) (n : Nat) : Prop where
  fits : (resolved p.setting p.use p.targets f n).fits
  patch : Stands p.code f.site [(resolved p.setting p.use p.targets f n).patch]
  tail : Stands p.code n (closeItems p.finish n (resolved p.setting p.use p.targets f n).tail)
  exits : exitsFrom n (resolved p.setting p.use p.targets f n).tail ⊆ p.exits
  ends : n + (resolved p.setting p.use p.targets f n).tail.length ≤ p.finish

theorem Plan.settled {p : Plan} (hf : p.Fits) {ys zs : List Item} {x : Item} {f : Fixup}
    (hbody : p.body = ys ++ x :: zs) (hx : x.fixup? (p.room + ys.length) = some f) :
    p.Settled f (p.tailAt ys) := by
  have hsplit : p.body = ys ++ ([x] ++ zs) := hbody
  have htails : tailsOf (p.piecesAt ys [x]) =
      (resolved p.setting p.use p.targets f (p.tailAt ys)).tail := by
    rw [piecesAt_hole hx]
    exact List.append_nil _
  refine ⟨hf.hole hbody hx, ?_, ?_, ?_, ?_⟩
  · have hat := stands_items hf hsplit
    rw [piecesAt_hole hx] at hat
    rw [(fixup?_eq_some hx).1]
    exact hat
  · rw [← htails]
    exact stands_tails hf hsplit
  · rw [← htails]
    exact exits_tails hsplit
  · obtain ⟨as, bs, hmain, hat⟩ := main_eq_tails hsplit
    rw [← htails, finish, hmain, hat, List.length_append, List.length_append]
    omega

/-- Whether the host reads the item back once exits are closed. -/
def itemReads : Item → Bool
  | .op i => i.isCanonical
  | .hole .. => false
  | .exit _ => true

theorem itemReads_ops {is : List Host.Instr} (h : Straight is) : ∀ x ∈ ops is, itemReads x = true := by
  intro x hx
  obtain ⟨i, hi, rfl⟩ := List.mem_map.mp hx
  exact canonical_of_straight h i hi

theorem canonical_closeItems {trailer k : Nat} {xs : List Item}
    (h : ∀ x ∈ xs, itemReads x = true) (hx : ExitsFit trailer (exitsFrom k xs)) :
    ∀ i ∈ closeItems trailer k xs, i.isCanonical = true := by
  induction xs generalizing k with
  | nil => exact fun i hi => absurd hi List.not_mem_nil
  | cons x xs ih =>
    obtain ⟨hfirst, hrest⟩ := List.forall_mem_cons.mp h
    refine List.forall_mem_cons.mpr ⟨?_, ih hrest fun y hy => hx y (List.mem_append_right _ hy)⟩
    cases x with
    | op i => exact hfirst
    | hole kind target c => cases hfirst
    | exit condition => exact hx ⟨condition, k⟩ List.mem_cons_self

/-! ### Compilations that end well -/

/-- The unit `c` is made from the trace `t` by the plan `p`, and `s` is its emission up to the
resolution of fixups. -/
structure Built (config : Config) (dispatch : DispatchTable) (t : Guest.Trace) (c : Compiled)
    (p : Plan) (s : Emission) : Prop where
  setting : p.setting = { config, dispatch, shape := .ofTrace t }
  blocks : p.blocks = Guest.spelledBlocks {} t.blocks.toList
  inUse : ∀ b ∈ p.blocks, ∀ i ∈ b.instrs.toList, InUse p.use i
  initial : RegisterUse.Le {} p.use
  fits : p.Fits
  body : (do reservePrologue; Compile.body lower t.blocks.toList : Emit Unit) p.setting {} = .ok () s
  emitted : p.Emitted s
  code : c.code.toList = p.code.map Host.Instr.encode
  stats : c.stats = p.stats t

theorem compile_ok {config : Config} {dispatch : DispatchTable} {t : Guest.Trace} {c : Compiled}
    (h : compile lower config dispatch t = .ok c) : ∃ p s, Built config dispatch t c p s := by
  obtain ⟨start, stats, s', -, hrun, -, rfl⟩ := compile_eq_ok.mp h
  obtain ⟨u, hle, hin, s₁, s, hcode, -, hbody, hs₁, hy⟩ := unit_yields _ t rfl
  have hfits := hy.of_ok stats s' hrun
  cases (hy.run hfits).symm.trans hrun
  exact ⟨_, s₁, rfl, rfl, hin, hle, hfits, hbody.run hfits.body, hs₁, hcode, rfl⟩

namespace Built

variable {config : Config} {dispatch : DispatchTable} {t : Guest.Trace} {c : Compiled} {p : Plan}
  {s : Emission} (h : Built config dispatch t c p s)

include h

theorem found {k : Nat} {is : List Host.Instr} (hat : Stands p.code k is)
    (hc : ∀ i ∈ is, i.isCanonical = true) : Found (instrAt? c.code) k is :=
  found_of_stands h.code hat hc

theorem found_items {k : Nat} {xs : List Item} (hat : Stands p.code k (closeItems p.finish k xs))
    (hr : ∀ x ∈ xs, itemReads x = true) (hx : exitsFrom k xs ⊆ p.exits) :
    Found (instrAt? c.code) k (closeItems p.finish k xs) :=
  h.found hat (canonical_closeItems hr fun x hm => h.fits.exits x (hx hm))

/-- A unit that has an exit has a trailer. -/
theorem trailer (hx : p.exits ≠ []) : c.stats.trailer = some p.finish := by
  rw [h.stats]
  exact if_neg hx

/-- Every block starts inside the body. -/
theorem targets_bounds {a : Word} {k : Nat} (hk : s.targets[a]? = some k) :
    p.room ≤ k ∧ k < s.code.size := by
  have hstart : p.targets a = some k := (congrFun h.emitted.targets a).symm.trans hk
  exact ⟨le_bodyStarts p.setting p.room p.blocks _ (lookupStart_mem hstart),
    h.emitted.below a k hk⟩

/-- A word of the body that is neither a placeholder nor an exit stays as it was emitted. -/
theorem kept {j : Nat} (hlo : p.room ≤ j) (hhi : j < s.code.size)
    (hfix : ∀ f ∈ s.fixups.toList, f.site ≠ j) (hexit : ∀ x ∈ s.exits.toList, x.site ≠ j) :
    c.code[j]? = s.code[j]? := by
  obtain ⟨i, rfl⟩ := Nat.exists_eq_add_of_le hlo
  rw [h.emitted.fixups] at hfix
  rw [h.emitted.exits] at hexit
  rw [h.emitted.size, Nat.add_lt_add_iff_left] at hhi
  have hitems : (itemsOf p.pieces).length = p.body.length := p.length_itemsOf_piecesAt [] p.body
  have hlen : (frontOf p.prologue p.room).length = p.room := Plan.length_front h.fits
  have hclosed : (closeItems p.finish p.room p.main)[i]? = p.body[i]?.map Item.instr := by
    rw [Plan.main, closeItems_append, List.getElem?_append_left (by rw [length_closeItems]; omega),
      getElem?_closeItems, Plan.pieces, getElem?_itemsOf_pieces hfix]
    rw [Plan.pieces, exitsFrom_itemsOf_pieces]
    exact hexit
  rw [← Array.getElem?_toList, ← Array.getElem?_toList, h.code, h.emitted.code, List.getElem?_map,
    List.getElem?_append_right (by rw [List.length_replicate]; omega), List.length_replicate,
    Nat.add_sub_cancel_left, List.getElem?_map, Plan.code,
    List.getElem?_append_right (by rw [hlen]; omega), hlen, Nat.add_sub_cancel_left,
    List.getElem?_append_left (by rw [length_closeItems, Plan.main, List.length_append]; omega),
    hclosed, Option.map_map]
  rfl

/-- Every prefix of the fixups can be resolved, which leaves the block starts. -/
theorem each_run {pre post : List Fixup} (hf : s.fixups.toList = pre ++ post) :
    ∃ tally s', Resolve.each {} pre p.setting { s with fixups := #[] } = .ok tally s' ∧
      s'.targets = s.targets ∧ s.code.size ≤ s'.code.size := by
  rw [h.emitted.fixups] at hf
  obtain ⟨ys, zs, hbody, rfl⟩ := fixupsFrom_split hf
  obtain ⟨tally, hrun⟩ := h.emitted.each_eq h.fits hbody
  obtain ⟨_, s', hrun', hsize⟩ := h.emitted.each_run h.fits hbody
  rw [hrun] at hrun'
  cases hrun'
  refine ⟨tally, _, hrun, rfl, ?_⟩
  rw [hsize, h.emitted.size]
  exact p.le_tailAt ys

/-- Every placeholder is in the body. -/
theorem site_lt {f : Fixup} (hf : f ∈ s.fixups.toList) : f.site < s.code.size := by
  obtain ⟨pre, post, hsplit⟩ := List.append_of_mem hf
  rw [h.emitted.fixups] at hsplit
  obtain ⟨ys, x, zs, hbody, -, hx⟩ := fixupsFrom_eq_append_cons hsplit
  rw [(fixup?_eq_some hx).1, h.emitted.size, hbody, List.length_append, List.length_cons]
  omega

/-- A fixup is settled at the end of the code that the fixups before it leave. -/
theorem settled {pre post : List Fixup} {f : Fixup} (hf : s.fixups.toList = pre ++ f :: post)
    {tally : Tally} {s' : Emission}
    (hrun : Resolve.each {} pre p.setting { s with fixups := #[] } = .ok tally s') :
    p.Settled f s'.code.size := by
  rw [h.emitted.fixups] at hf
  obtain ⟨ys, x, zs, hbody, rfl, hx⟩ := fixupsFrom_eq_append_cons hf
  obtain ⟨_, s'', hrun', hsize⟩ := h.emitted.each_run h.fits hbody
  rw [hrun] at hrun'
  cases hrun'
  rw [hsize]
  exact Plan.settled h.fits hbody hx

end Built

end Dynarec.Compile
