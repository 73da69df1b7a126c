import Dynarec.Proofs.Flow.Ends
import Dynarec.Proofs.Host.ReadBack
import Dynarec.Proofs.Totality

/-! # Compiled code is closed under control flow

Control that starts at the first word of a unit never leaves its code but through the jump in the
last word, whatever its conditional branches do. No placeholder survives, every branch lands
behind the room for the prologue, and control runs neither from the body into a sequence out of
line nor from one of these into the next. The one thing to ask is that the branch over the room
that the prologue leaves can reach. -/

namespace Dynarec.Host

/-- The instruction that the host reads at an index. -/
def instrAt? (code : Array Word) (k : Nat) : Option Instr := code[k]?.bind decode

/-- The indexes that control can come to from the first word on, whatever conditional branches do,
if calls return. -/
inductive Reaches (code : Array Word) : Int → Prop
  | start : Reaches code 0
  | next {k : Nat} {i : Instr} (h : Reaches code k) (hi : instrAt? code k = some i)
      (hf : i.falls = true) : Reaches code (k + 1)
  | jump {k : Nat} {i : Instr} {d : Int} (h : Reaches code k) (hi : instrAt? code k = some i)
      (hd : i.disp? = some d) : Reaches code (k + d)

/-- Control stays in the code until it leaves through the last word. -/
structure Closed (room : Nat) (code : Array Word) : Prop where
  /-- Every word is an instruction. -/
  known : ∀ k < code.size, ∃ i, instrAt? code k = some i
  /-- No branch is a placeholder any more. -/
  settled : ∀ k i, instrAt? code k = some i → i.disp? ≠ some 0
  /-- Branches land behind the room for the prologue. -/
  lands : ∀ k i d, instrAt? code k = some i → i.disp? = some d →
    (room : Int) ≤ k + d ∧ k + d < code.size
  /-- Control never runs past the end, or before the start. -/
  inside : ∀ k, Reaches code k → 0 ≤ k ∧ k < code.size
  last : instrAt? code (code.size - 1) = some (.br .dispatch)
  /-- Only the last word leaves. -/
  single : ∀ k i, instrAt? code k = some i → i.leaves = true → k + 1 = code.size

section Code

open Dynarec.Compile

variable {code : Array Word} {is : List Instr}

/-- Code of instructions that fit their fields is read back. -/
theorem instrAt?_eq (hcode : code.toList = is.map Instr.encode)
    (hc : ∀ i ∈ is, i.isCanonical = true) (k : Nat) : instrAt? code k = is[k]? := by
  rw [instrAt?, ← Array.getElem?_toList, hcode, List.getElem?_map]
  cases hi : is[k]? with
  | none => rfl
  | some i => exact decode_encode (hc i (List.mem_of_getElem? hi))

/-- Instructions that land before the last word, and a jump behind them, are closed. -/
theorem closed_of_lands {room hi : Nat}
    (hcode : code.toList = (is ++ [Instr.br .dispatch]).map Instr.encode)
    (h : AllFrom (fun k i => i.Lands (Within room hi) k) 0 is) (hhi : hi ≤ is.length) :
    Closed room code := by
  have hsize : code.size = is.length + 1 := by
    rw [← Array.length_toList, hcode, List.length_map, List.length_append, List.length_singleton]
  have hlands : ∀ (k : Nat) (i : Instr), is[k]? = some i → i.Lands (Within room hi) k := by
    intro k i hk
    have hki := h k i hk
    rwa [Nat.zero_add] at hki
  have hat : ∀ k, instrAt? code k = (is ++ [Instr.br .dispatch])[k]? := by
    refine instrAt?_eq hcode fun i hi => ?_
    rcases List.mem_append.mp hi with hi | hi
    · obtain ⟨k, hk⟩ := List.mem_iff_getElem?.mp hi
      exact (hlands k i hk).canonical
    · rw [List.mem_singleton.mp hi]
      rfl
  -- An instruction is one of those before the last, or the jump.
  have hcases : ∀ (k : Nat) (i : Instr), instrAt? code k = some i →
      i.Lands (Within room hi) k ∧ k < is.length ∨ i = .br .dispatch ∧ k = is.length := by
    intro k i hk
    rw [hat] at hk
    by_cases hlt : k < is.length
    · rw [List.getElem?_append_left hlt] at hk
      exact .inl ⟨hlands k i hk, hlt⟩
    · have hle := (List.getElem?_eq_some_iff.mp hk).1
      rw [List.length_append, List.length_singleton] at hle
      have hk' : k = is.length := by omega
      rw [hk', List.getElem?_append_right (Nat.le_refl _), Nat.sub_self] at hk
      exact .inr ⟨(Option.some.inj hk).symm, hk'⟩
  have hdisp : ∀ (k : Nat) (i : Instr) (d : Int), instrAt? code k = some i → i.disp? = some d →
      d ≠ 0 ∧ (room : Int) ≤ k + d ∧ k + d < code.size := by
    intro k i d hk hd
    rcases hcases k i hk with ⟨hl, -⟩ | ⟨rfl, -⟩
    · obtain ⟨m, hm, hne, hlo, hle⟩ := hl.lands d hd
      exact ⟨by omega, by omega, by omega⟩
    · cases hd
  refine ⟨fun k hk => ?_, fun k i hk hd => (hdisp k i 0 hk hd).1 rfl,
    fun k i d hk hd => (hdisp k i d hk hd).2, fun k hk => ?_, ?_, fun k i hk hl => ?_⟩
  · rw [hat]
    have hlt : k < (is ++ [Instr.br .dispatch]).length := by
      rw [List.length_append, List.length_singleton]
      omega
    exact ⟨_, List.getElem?_eq_getElem hlt⟩
  · cases hk with
    | start => omega
    | next h hi hf =>
      rcases hcases _ _ hi with ⟨-, hlt⟩ | ⟨rfl, -⟩
      · omega
      · cases hf
    | jump h hi hd =>
      obtain ⟨-, h1, h2⟩ := hdisp _ _ _ hi hd
      omega
  · rw [hat, hsize, Nat.add_sub_cancel, List.getElem?_append_right (Nat.le_refl _), Nat.sub_self]
    rfl
  · rcases hcases k i hk with ⟨hl', -⟩ | ⟨-, hk'⟩
    · rw [hl'.stays] at hl
      cases hl
    · omega

/-- A branch over more words than its field can count does not lead over all of them. -/
theorem not_closed_of_far {room n : Nat} {d : Int} (hat : code[n]? = some (Instr.b d).encode)
    (hfar : n + 0x2000000 ≤ room) : ¬Closed room code := by
  intro h
  have hi : instrAt? code n = some (.b (Instr.imm26 d).toInt) := by
    rw [instrAt?, hat, Option.bind_some, decode_b_cut]
  have hlands := (h.lands n _ _ hi rfl).1
  have hlt : 2 * (Instr.imm26 d).toInt < 0x4000000 := BitVec.two_mul_toInt_lt
  omega

end Code

end Dynarec.Host

namespace Dynarec.Compile

open Dynarec.Emit Dynarec.Lower Dynarec.Resolve Dynarec.Host

/-! ### All instructions of a unit -/

theorem closeItems_land {P : Nat → Nat → Prop} {trailer k : Nat} {xs : List Item}
    (h : ItemsLand false P k xs) (hf : ExitsFit trailer (exitsFrom k xs))
    (hend : ∀ j < k + xs.length, P j trailer) :
    AllFrom (fun m i => i.Lands P m) k (closeItems trailer k xs) := by
  induction xs generalizing k with
  | nil => exact allFrom_nil
  | cons x xs ih =>
    obtain ⟨hx, hxs⟩ := allFrom_cons.mp h
    rw [List.length_cons] at hend
    refine allFrom_cons.mpr ⟨?_, ih hxs (fun y hy => hf y (List.mem_append_right _ hy))
      fun j hj => hend j (by omega)⟩
    cases x with
    | op i => exact hx
    | hole kind target c => cases hx
    | exit condition =>
      exact lands_b (hf ⟨condition, k⟩ List.mem_cons_self) (hend k (by omega))

theorem allFrom_straight {is : List Host.Instr} (h : Straight is) (P : Nat → Nat → Prop) (k : Nat) :
    AllFrom (fun m i => i.Lands P m) k is := by
  intro j i hj
  exact lands_of_straight (straight_iff.mp h i (List.mem_of_getElem? hj)) P (k + j)

namespace Plan

variable {p : Plan}

/-- All of the code but the jump in the last word. -/
def lead (p : Plan) : List Host.Instr :=
  frontOf p.prologue p.room ++ (closeItems p.finish p.room p.main ++ trailerOps p.frame p.use)

theorem code_eq_lead (h : p.exits ≠ []) : p.code = p.lead ++ [.br .dispatch] := by
  simp only [code, trailer, h, if_false, trailer_eq, lead, List.append_assoc]

theorem finish_le_length_lead (hf : p.Fits) : p.finish ≤ p.lead.length := by
  simp only [lead, List.length_append, length_front hf, length_closeItems, finish]
  omega

theorem front_lands {P : Nat → Nat → Prop} (hr : p.room < p.prologue.length + 0x2000000)
    (hp : p.prologue.length < p.room → P p.prologue.length p.room) :
    AllFrom (fun m i => i.Lands P m) 0 (frontOf p.prologue p.room) := by
  unfold frontOf
  rw [allFrom_append]
  refine ⟨allFrom_straight (straight_prologue p.frame p.use) _ _, ?_⟩
  split
  · rename_i hlt
    have hle : p.prologue.length ≤ 56 := length_prologue_le p.setting.shape p.use
    have hskip : ((roomSkip p.prologue.length p.room).getD 0) =
        displacement p.prologue.length p.room := by
      rw [roomSkip_eq (Nat.le_of_lt hlt) (by omega)]
      rfl
    refine allFrom_cons.mpr ⟨?_, ?_⟩
    · rw [hskip, Nat.zero_add]
      refine lands_b ?_ (hp hlt)
      rw [fits26_iff, displacement]
      omega
    · refine allFrom_straight (straight_iff.mpr fun i hi => ?_) _ _
      rw [List.eq_of_mem_replicate hi]
      rfl
  · exact allFrom_nil

/-- All of the code but the last jump keeps control where its parts are allowed to. -/
theorem lead_lands_of {P : Nat → Nat → Prop} (hf : p.Fits)
    (hr : p.room < p.prologue.length + 0x2000000)
    (hp : p.prologue.length < p.room → P p.prologue.length p.room)
    (hmain : ItemsLand false P p.room p.main) (hend : ∀ j < p.finish, P j p.finish) :
    AllFrom (fun m i => i.Lands P m) 0 p.lead := by
  refine allFrom_append.mpr ⟨p.front_lands hr hp, allFrom_append.mpr ⟨?_, ?_⟩⟩
  · rw [Nat.zero_add, p.length_front hf]
    exact closeItems_land hmain hf.exits hend
  · exact allFrom_straight (straight_trailerOps p.frame p.use) _ _

/-- Where the prologue leaves room, a branch stands behind it. -/
theorem code_skip (hlt : p.prologue.length < p.room) :
    ∃ d, p.code[p.prologue.length]? = some (.b d) := by
  have hfront := p.stands_front
  unfold frontOf at hfront
  rw [if_pos hlt] at hfront
  have hskip := (allFrom_cons.mp (allFrom_append.mp hfront).2).1
  rw [Nat.zero_add] at hskip
  exact ⟨_, hskip⟩

end Plan

theorem fixupsFrom_split {k : Nat} {xs : List Item} {fs rest : List Fixup}
    (h : fixupsFrom k xs = fs ++ rest) : ∃ ys zs, xs = ys ++ zs ∧ fixupsFrom k ys = fs := by
  induction xs generalizing k fs with
  | nil =>
    obtain ⟨rfl, -⟩ := List.append_eq_nil_iff.mp h.symm
    exact ⟨[], [], rfl, rfl⟩
  | cons x xs ih =>
    cases fs with
    | nil => exact ⟨[], x :: xs, rfl, rfl⟩
    | cons f fs =>
      cases hx : x.fixup? k with
      | none =>
        have hcons : ∀ ws, fixupsFrom k (x :: ws) = fixupsFrom (k + 1) ws := by
          intro ws
          rw [fixupsFrom, hx]
          rfl
        rw [hcons] at h
        obtain ⟨ys, zs, hxs, hys⟩ := ih h
        exact ⟨x :: ys, zs, congrArg (x :: ·) hxs, (hcons ys).trans hys⟩
      | some g =>
        have hcons : ∀ ws, fixupsFrom k (x :: ws) = g :: fixupsFrom (k + 1) ws := by
          intro ws
          rw [fixupsFrom, hx]
          rfl
        rw [hcons, List.cons_append] at h
        obtain ⟨rfl, hrest⟩ := List.cons_eq_cons.mp h
        obtain ⟨ys, zs, hxs, hys⟩ := ih hrest
        exact ⟨x :: ys, zs, congrArg (x :: ·) hxs, by rw [hcons, hys]⟩

theorem size_replaced (s : Emission) (before after : List Word) (ps : List (Item × List Item)) :
    (replaced s before ps after).code.size =
      before.length + ps.length + after.length + (tailsOf ps).length := by
  rw [replaced, Emission.size_extend, List.size_toArray, List.length_append, List.length_append,
    List.length_map, itemsOf, List.length_map]

/-- What is emitted when the placeholders of the first items are resolved. -/
theorem Plan.Emitted.each_eq {p : Plan} {s : Emission} (hs : p.Emitted s) (hf : p.Fits)
    {ys zs : List Item} (hbody : p.body = ys ++ zs) :
    ∃ tally, Resolve.each {} (fixupsFrom p.room ys) p.setting { s with fixups := #[] } =
      .ok tally (replaced { s with fixups := #[] } (List.replicate p.room Host.Instr.nop.encode)
        (p.piecesAt [] ys) (zs.map Item.word)) := by
  have hroom : (List.replicate p.room Host.Instr.nop.encode).length = p.room := List.length_replicate
  have hcode : { s with fixups := #[] : Emission }.code.toList =
      List.replicate p.room Host.Instr.nop.encode ++ ys.map Item.word ++ zs.map Item.word := by
    rw [List.append_assoc, ← List.map_append, ← hbody]
    exact hs.code
  have hpinned : ∀ f ∈ fixupsFrom (List.replicate p.room Host.Instr.nop.encode).length ys,
      Pinned s.regs f := by
    rw [hroom]
    intro f hmem
    refine hs.pinned f ?_
    rw [hbody, fixupsFrom_append]
    exact List.mem_append_left _ hmem
  have hy := each_yields (e := p.setting) hcode hs.below hpinned {}
  rw [hroom] at hy
  have hsplit : ResolveFits p.setting p.use p.targets p.room (p.room + p.body.length) (ys ++ zs) :=
    hbody ▸ hf.resolve
  have hfits : ResolveFits p.setting s.regs (fun a => s.targets[a]?) p.room s.code.size ys := by
    rw [hs.regs, hs.targets, hs.size]
    exact (resolveFits_append.mp hsplit).1
  have hpieces : Resolve.pieces p.setting s.regs (fun a => s.targets[a]?) p.room s.code.size ys =
      p.piecesAt [] ys := by
    rw [hs.regs, hs.targets, hs.size]
    rfl
  exact ⟨_, hpieces ▸ hy.run hfits⟩

/-- When the placeholders of the first items are resolved, the code ends where the next sequence
comes. -/
theorem Plan.Emitted.each_run {p : Plan} {s : Emission} (hs : p.Emitted s) (hf : p.Fits)
    {ys zs : List Item} (hbody : p.body = ys ++ zs) :
    ∃ tally s', Resolve.each {} (fixupsFrom p.room ys) p.setting { s with fixups := #[] } =
      .ok tally s' ∧ s'.code.size = p.tailAt ys := by
  obtain ⟨tally, hrun⟩ := hs.each_eq hf hbody
  refine ⟨tally, _, hrun, ?_⟩
  have hlen : (p.piecesAt [] ys).length = ys.length := length_pieces ..
  rw [size_replaced, hlen, List.length_replicate, List.length_map, Plan.tailAt, Nat.add_assoc p.room,
    ← List.length_append, ← hbody]
  rfl

end Dynarec.Compile

namespace Dynarec

open Dynarec.Emit Dynarec.Lower Dynarec.Resolve Dynarec.Compile Dynarec.Host

/-- Control runs neither from the body into a sequence out of line, nor from one into the next, nor
from the last one into the trailer: when the first of the placeholders are resolved, possibly none
or all of them, the word that is the last so far does not lead on. -/
def SequencesApart (options : Options) (dispatch : DispatchTable) (img : Guest.Image) (entry : Word)
    (code : Array Word) : Prop :=
  ∃ t s, Guest.Trace.collect options.limits img entry = .ok t ∧
    let setting : Setting := { config := options.config, dispatch, shape := .ofTrace t }
    (do reservePrologue; body lower t.blocks.toList : Emit Unit) setting {} = .ok () s ∧
    ∀ fs rest, s.fixups.toList = fs ++ rest →
      ∃ tally s', Resolve.each {} fs setting { s with fixups := #[] } = .ok tally s' ∧
        ∃ i, instrAt? code (s'.code.size - 1) = some i ∧ i.falls = false

namespace Translated

variable {options : Options} {dispatch : DispatchTable} {img : Guest.Image} {entry : Word}
  {c : Compiled} {t : Guest.Trace} {p : Plan}
  (h : Translated options dispatch img entry c t p) (hf : img.finish < wordCount)
  (hb : c.guestBytes < 0xFFFFFFFC)

include h hf hb

theorem lead_lands (hr : p.room < p.prologue.length + 0x2000000) :
    AllFrom (fun k i => i.Lands (Within p.room p.finish) k) 0 p.lead := by
  have hfinish : p.finish = p.room + p.main.length := rfl
  refine p.lead_lands_of h.fits hr (fun _ => ⟨by omega, by omega, by omega⟩)
    (h.main_lands hf hb) fun j hj => ⟨by omega, by omega, by omega⟩

omit hf hb in
theorem body_length_pos : 0 < p.body.length := by
  obtain ⟨b, bs, hbs⟩ := List.exists_cons_of_ne_nil h.blocks_ne_nil
  have := block_and_after_pos p.setting b bs
  rw [Plan.body, hbs, bodyItems, List.length_append]
  omega

omit hf hb in
/-- The word before the place of a sequence does not lead on. -/
theorem falls_before_tailAt {ys zs : List Item} (hbody : p.body = ys ++ zs) :
    ∃ i, p.code[p.tailAt ys - 1]? = some i ∧ i.falls = false := by
  have hpieces : p.pieces = p.piecesAt [] ys ++ p.piecesAt ys zs := by
    rw [Plan.pieces_eq_piecesAt, hbody, Plan.piecesAt_append, List.nil_append]
  have hended : Ended (itemsOf p.pieces ++ tailsOf (p.piecesAt [] ys)) := by
    refine h.body_ended.append (ended_tailsOf fun q hq => h.pieces_ended q ?_)
    rw [hpieces]
    exact List.mem_append_left _ hq
  have hlen : (itemsOf p.pieces ++ tailsOf (p.piecesAt [] ys)).length + p.room = p.tailAt ys := by
    have hitems : (itemsOf p.pieces).length = p.body.length := p.length_itemsOf_piecesAt [] p.body
    rw [List.length_append, hitems, Nat.add_comm, ← Nat.add_assoc]
    rfl
  have hmain : p.main = (itemsOf p.pieces ++ tailsOf (p.piecesAt [] ys)) ++
      tailsOf (p.piecesAt ys zs) := by
    rw [Plan.main, List.append_assoc, ← tailsOf_append, ← hpieces]
  have hne : itemsOf p.pieces ++ tailsOf (p.piecesAt [] ys) ≠ [] := by
    have hpos := h.body_length_pos
    intro hnil
    have hzero := congrArg List.length hnil
    have hitems : (itemsOf p.pieces).length = p.body.length := p.length_itemsOf_piecesAt [] p.body
    rw [List.length_append, hitems, List.length_nil] at hzero
    omega
  generalize itemsOf p.pieces ++ tailsOf (p.piecesAt [] ys) = xs at hended hlen hmain hne
  obtain ⟨init, x, rfl⟩ := List.eq_nil_or_concat xs |>.resolve_left hne
  rw [List.concat_eq_append] at hended hlen hmain
  rw [List.append_assoc] at hmain
  rw [List.length_append, List.length_singleton] at hlen
  have hat := Plan.stands_part h.fits hmain (Nat.add_comm _ _)
  have hx : itemFalls x = false := hended x List.getLast?_concat
  have hindex : p.tailAt ys - 1 = init.length + p.room := by omega
  rw [hindex]
  refine ⟨_, (allFrom_cons.mp hat).1, ?_⟩
  cases x with
  | op i => exact hx
  | hole kind target c => cases hx
  | exit condition => rfl

theorem canonical (hr : p.room < p.prologue.length + 0x2000000) :
    ∀ i ∈ p.code, i.isCanonical = true := by
  rw [p.code_eq_lead (h.exits_ne_nil hf hb)]
  intro i hi
  rcases List.mem_append.mp hi with hi | hi
  · obtain ⟨k, hk⟩ := List.mem_iff_getElem?.mp hi
    exact (h.lead_lands hf hb hr k i hk).canonical
  · rw [List.mem_singleton.mp hi]
    rfl

theorem sequencesApart (hr : p.room < p.prologue.length + 0x2000000) :
    SequencesApart options dispatch img entry c.code := by
  obtain ⟨s, hrun, hs⟩ := h.emitted
  rw [h.blocks] at hrun
  refine ⟨t, s, h.trace, h.setting ▸ hrun, fun fs rest hsplit => ?_⟩
  rw [hs.fixups] at hsplit
  obtain ⟨ys, zs, hbody, rfl⟩ := fixupsFrom_split hsplit
  obtain ⟨tally, s', heach, hsize⟩ := hs.each_run h.fits hbody
  obtain ⟨i, hi, hfalls⟩ := h.falls_before_tailAt hbody
  refine ⟨tally, s', h.setting ▸ heach, i, ?_, hfalls⟩
  rw [instrAt?_eq h.code (h.canonical hf hb hr), hsize]
  exact hi

end Translated

/-- Compiled code is closed under control flow, and has a trailer. -/
structure FlowClosed (options : Options) (dispatch : DispatchTable) (img : Guest.Image)
    (entry : Word) (c : Compiled) : Prop where
  closed : Host.Closed options.config.prologueWords c.code
  apart : SequencesApart options dispatch img entry c.code
  trailer : c.stats.trailer.isSome = true

/-- Compiled code is closed under control flow exactly if the branch over the room that the
prologue leaves can reach. Only a unit that covers the whole address space is left aside, in which
the program counter of the last instruction wraps around. -/
theorem flowClosed_iff {options : Options} {dispatch : DispatchTable} {img : Guest.Image}
    {entry : Word} {c : Compiled} (h : translate options dispatch img entry = .ok c)
    (hf : img.finish < wordCount) (hb : c.guestBytes < 0xFFFFFFFC) :
    FlowClosed options dispatch img entry c ↔
      options.config.prologueWords < c.stats.prologueWords + 0x2000000 := by
  obtain ⟨t, p, h⟩ := translate_ok h
  have hroom : p.room = options.config.prologueWords := congrArg (·.config.prologueWords) h.setting
  have hwords : c.stats.prologueWords = p.prologue.length := congrArg Stats.prologueWords h.stats
  have htrailer : c.stats.trailer = if p.exits = [] then none else some p.finish :=
    congrArg Stats.trailer h.stats
  have hexits := h.exits_ne_nil hf hb
  rw [hwords, ← hroom]
  constructor
  · intro hclosed
    refine Nat.lt_of_not_le fun hfar => ?_
    obtain ⟨d, hd⟩ := p.code_skip (by omega)
    refine not_closed_of_far (d := d) (n := p.prologue.length) ?_ hfar (hroom ▸ hclosed.closed)
    rw [← Array.getElem?_toList, h.code, List.getElem?_map, hd]
    rfl
  · intro hr
    refine ⟨?_, h.sequencesApart hf hb hr, ?_⟩
    · rw [← hroom]
      exact closed_of_lands (by rw [h.code, p.code_eq_lead hexits]) (h.lead_lands hf hb hr)
        (p.finish_le_length_lead h.fits)
    · rw [htrailer, if_neg hexits]
      rfl

/-- The unit of a return alone is closed under control flow. -/
theorem flowClosed_return :
    ∃ c, translate {} DispatchTable.empty returnImage 0x1000 = .ok c ∧ c.guestBytes < 0xFFFFFFFC ∧
      FlowClosed {} DispatchTable.empty returnImage 0x1000 c := by
  obtain ⟨c, hc⟩ : ∃ c, translate {} DispatchTable.empty returnImage 0x1000 = .ok c :=
    translate_of_aligned DispatchTable.empty_ne (by decide) (by decide) (by decide) (by decide)
  obtain ⟨t, p, h⟩ := translate_ok hc
  have hb : c.guestBytes < 0xFFFFFFFC := by
    have hlen := h.collected.length_le (by decide)
    have hmax : ({} : Options).limits.maxBytes.toNat = 16384 := rfl
    rw [h.guestBytes_eq, ← h.instrs_eq]
    omega
  refine ⟨c, hc, hb, (flowClosed_iff hc (by decide) hb).mpr ?_⟩
  show 64 < _
  omega

end Dynarec
