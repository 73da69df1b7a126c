import Dynarec.Proofs.Body.Items
import Dynarec.Proofs.Body.Run
import Dynarec.Proofs.Resolve.Run

/-! # The layout of a unit

The code of a unit as one list of instructions: the prologue with the room kept for it, the body
with its placeholders resolved, the sequences out of line, and the trailer. -/

namespace Dynarec.Compile

open Dynarec.Emit Dynarec.Emit.Emission Dynarec.Lower Dynarec.Resolve

/-! ### Where blocks start -/

/-- The start of a block, if it is noted. -/
def lookupStart (starts : List (Word × Nat)) (a : Word) : Option Nat :=
  (starts.find? (·.1 == a)).map (·.2)

theorem getElem?_noteStarts (m : Std.HashMap Word Nat) (starts : List (Word × Nat)) (a : Word) :
    (noteStarts m starts)[a]? = m[a]?.or (lookupStart starts a) := by
  unfold noteStarts
  induction starts generalizing m with
  | nil => simp only [List.foldl_nil, lookupStart, List.find?_nil, Option.map_none, Option.or_none]
  | cons p starts ih =>
    rw [List.foldl_cons, ih, Std.HashMap.getElem?_insertIfNew]
    by_cases hp : p.1 = a
    · subst hp
      have hfind : lookupStart (p :: starts) p.1 = some p.2 := by
        simp only [lookupStart, List.find?_cons, beq_self_eq_true, Option.map_some]
      by_cases hm : p.1 ∈ m
      · rw [if_neg (fun h => h.2 hm), Std.HashMap.getElem?_eq_some_getElem hm]
        rfl
      · rw [if_pos ⟨beq_self_eq_true _, hm⟩, hfind, Std.HashMap.getElem?_eq_none hm]
        rfl
    · have hfind : lookupStart (p :: starts) a = lookupStart starts a := by
        simp only [lookupStart, List.find?_cons, beq_eq_false_iff_ne.mpr hp]
      rw [if_neg (fun h => hp (beq_iff_eq.mp h.1)), hfind]

theorem lookupStart_mem {starts : List (Word × Nat)} {a : Word} {k : Nat}
    (h : lookupStart starts a = some k) : (a, k) ∈ starts := by
  obtain ⟨p, hp, rfl⟩ := Option.map_eq_some_iff.mp h
  have ha : p.1 = a := beq_iff_eq.mp (List.find?_some (p := fun q : Word × Nat => q.1 == a) hp)
  rw [← ha]
  exact List.mem_of_find?_eq_some hp

/-! ### Exits -/

/-- The instruction of an item at index `k` when the trailer stands at `trailer`. -/
def closeItem (trailer k : Nat) : Item → Host.Instr
  | .exit _ => .b (displacement k trailer)
  | x => x.instr

/-- The instructions of items from index `k` on. -/
def closeItems (trailer k : Nat) : List Item → List Host.Instr
  | [] => []
  | x :: rest => closeItem trailer k x :: closeItems trailer (k + 1) rest

@[simp] theorem length_closeItems (trailer k : Nat) (xs : List Item) :
    (closeItems trailer k xs).length = xs.length := by
  induction xs generalizing k with
  | nil => rfl
  | cons x xs ih => simp only [closeItems, List.length_cons, ih]

theorem closeItems_append (trailer k : Nat) (xs ys : List Item) :
    closeItems trailer k (xs ++ ys) =
      closeItems trailer k xs ++ closeItems trailer (k + xs.length) ys := by
  induction xs generalizing k with
  | nil => rfl
  | cons x xs ih =>
    have hk : k + 1 + xs.length = k + (x :: xs).length := by
      rw [List.length_cons]
      omega
    simp only [List.cons_append, closeItems, ih, hk]

/-- Every exit reaches the trailer. -/
def ExitsFit (trailer : Nat) (exits : List Exit) : Prop :=
  ∀ x ∈ exits, Host.fits26 (displacement x.site trailer) = true

theorem exitsFrom_site_lt {k : Nat} {xs : List Item} :
    ∀ x ∈ exitsFrom k xs, x.site < k + xs.length := by
  induction xs generalizing k with
  | nil => exact fun x hx => absurd hx List.not_mem_nil
  | cons y xs ih =>
    intro x hx
    rw [List.length_cons]
    rcases List.mem_append.mp hx with hx | hx
    · cases y with
      | exit c =>
        rw [List.mem_singleton.mp hx]
        show k < _
        omega
      | op i => exact absurd hx List.not_mem_nil
      | hole kind target c => exact absurd hx List.not_mem_nil
    · have := ih x hx
      omega

/-- Words with every exit among them pointed at the trailer. -/
def pointed (trailer : Nat) (exits : List Exit) (words : List Word) : List Word :=
  exits.foldl (fun ws x => ws.set x.site (Host.Instr.b (displacement x.site trailer)).encode) words

theorem pointed_cons (trailer : Nat) (c : ExitCondition) (exits : List Exit) (before : List Word)
    (w : Word) (rest : List Word) :
    pointed trailer (⟨c, before.length⟩ :: exits) (before ++ w :: rest) = pointed trailer exits
      (before ++ (Host.Instr.b (displacement before.length trailer)).encode :: rest) := by
  rw [pointed, List.foldl_cons, List.set_append_right _ _ (Nat.le_refl _), Nat.sub_self,
    List.set_cons_zero]
  rfl

theorem patchExits_yields {e : Setting} {s : Emission} (trailer : Nat) {exits : List Exit}
    (h : ∀ x ∈ exits, x.site < s.code.size) :
    Yields (patchExits trailer exits) e s (ExitsFit trailer exits) ()
      { s with code := (pointed trailer exits s.code.toList).toArray } := by
  induction exits generalizing s with
  | nil =>
    refine (Yields.of_run ?_).congr (iff_of_true trivial fun x hx => absurd hx List.not_mem_nil)
    simp only [patchExits, run_pure, pointed, List.foldl_nil, Array.toArray_toList]
  | cons x exits ih =>
    obtain ⟨hx, hexits⟩ := List.forall_mem_cons.mp h
    let i : Host.Instr := .b (displacement x.site trailer)
    have hcode : (s.write x.site i).code.toList = s.code.toList.set x.site i.encode :=
      Array.toList_setIfInBounds
    have hrest := ih (s := s.write x.site i) fun y hy => by
      rw [← Array.length_toList, hcode, List.length_set, Array.length_toList]
      exact hexits y hy
    rw [hcode] at hrest
    simp only [patchExits]
    by_cases hf : Host.fits26 (displacement x.site trailer) = true
    · simp only [hf, Bool.not_true, Bool.false_eq_true, if_false]
      refine (Yields.after (writeInstr_run rfl e hx) hrest).congr ?_
      unfold ExitsFit
      rw [List.forall_mem_cons, and_iff_right hf]
    · simp only [hf, Bool.not_false, if_true]
      refine (Yields.of_error (bind_run_error rfl)).congr ?_
      exact iff_of_false id fun hall => hf (hall _ List.mem_cons_self)

/-- Exits are merged exactly if all of them reach the end of the code, where the trailer is
appended unless there are none. -/
theorem mergeExits_yields {e : Setting} {s : Emission} {trailer : Emit Unit} {ws : List Word}
    (h : ∀ x ∈ s.exits.toList, x.site < s.code.size)
    (ht : trailer e { s with exits := #[] } =
      .ok () { s with exits := #[], code := s.code ++ ws.toArray }) :
    Yields (mergeExits trailer) e s (ExitsFit s.code.size s.exits.toList)
      (if s.exits.toList = [] then none else some s.code.size)
      { s with
        exits := #[]
        code := (pointed s.code.size s.exits.toList
          (s.code.toList ++ if s.exits.toList = [] then [] else ws)).toArray } := by
  have htake : (modifyGet fun s => (s.exits.toList, { s with exits := #[] }) :
      Emit (List Exit)) e s = .ok s.exits.toList { s with exits := #[] } := run_modifyGet ..
  unfold mergeExits
  by_cases hn : s.exits.toList = []
  · have hall : ExitsFit s.code.size s.exits.toList := by
      rw [hn]
      exact fun x hx => absurd hx List.not_mem_nil
    refine (Yields.of_run ((bind_run_ok htake).trans ?_)).congr (iff_of_true trivial hall)
    simp only [hn, List.isEmpty_nil, if_true, run_pure, List.append_nil, pointed, List.foldl_nil,
      Array.toArray_toList]
  · have hne : s.exits.toList.isEmpty = false := List.isEmpty_eq_false_iff.mpr hn
    let s₁ : Emission := { s with exits := #[], code := s.code ++ ws.toArray }
    have hcode : s₁.code.toList = s.code.toList ++ ws := Array.toList_append
    have hpatch := patchExits_yields (e := e) (s := s₁) s.code.size fun x hx => by
      rw [← Array.length_toList, hcode, List.length_append, Array.length_toList]
      exact Nat.lt_add_right _ (h x hx)
    rw [hcode] at hpatch
    refine Yields.after htake ?_
    simp only [hne, Bool.false_eq_true, if_false, if_neg hn]
    refine Yields.after (ip_run e _) (Yields.after ht ?_)
    exact hpatch.before rfl

theorem pointed_items (trailer : Nat) (before after : List Word) (xs : List Item) :
    pointed trailer (exitsFrom before.length xs) (before ++ xs.map Item.word ++ after) =
      before ++ (closeItems trailer before.length xs).map Host.Instr.encode ++ after := by
  induction xs generalizing before with
  | nil => rfl
  | cons x xs ih =>
    -- One word further on, with the word of `x` or the one written over it.
    have hnext (w : Word) : pointed trailer (exitsFrom (before.length + 1) xs)
        (before ++ w :: (xs.map Item.word ++ after)) =
        before ++ w :: ((closeItems trailer (before.length + 1) xs).map Host.Instr.encode ++
          after) := by
      have hw := ih (before ++ [w])
      simpa only [List.length_append, List.length_singleton, List.append_assoc, List.cons_append,
        List.nil_append] using hw
    simp only [List.map_cons, closeItems, List.append_assoc, List.cons_append]
    rw [← hnext]
    cases x with
    | exit condition => exact pointed_cons ..
    | op i => rfl
    | hole kind target c => rfl

theorem finalizeExits_yields {e : Setting} {s : Emission} {before : List Word} {xs : List Item}
    (h : s.code.toList = before ++ xs.map Item.word)
    (hx : s.exits.toList = exitsFrom before.length xs) {trailer : List Host.Instr}
    (ht : Encodable trailer) :
    let exits := exitsFrom before.length xs
    let start := before.length + xs.length
    Yields (finalizeExits trailer) e s (ExitsFit start exits)
      (if exits = [] then none else some start)
      { s with
        exits := #[]
        code := (before ++ (closeItems start before.length xs ++
          if exits = [] then [] else trailer).map Host.Instr.encode).toArray } := by
  intro exits start
  have hsize : s.code.size = start := by
    rw [← Array.length_toList, h, List.length_append, List.length_map]
  have hin : ∀ x ∈ s.exits.toList, x.site < s.code.size := by
    rw [hx, hsize]
    exact exitsFrom_site_lt
  have happend : asm trailer e { s with exits := #[] } = .ok ()
      { s with exits := #[], code := s.code ++ (trailer.map Host.Instr.encode).toArray } := by
    rw [asm_run ht, extend_ops]
  have hmerge := mergeExits_yields hin happend
  rw [hx, hsize, h] at hmerge
  have hwords : (if exits = [] then [] else trailer.map Host.Instr.encode) =
      (if exits = [] then [] else trailer).map Host.Instr.encode := by
    split <;> rfl
  rw [hwords, pointed_items, List.append_assoc, ← List.map_append] at hmerge
  exact hmerge

/-! ### Prologue and trailer -/

/-- The frame of a unit. -/
def frameOf (shape : Shape) (u : RegisterUse) : Frame where
  savedGprs := u.savedGprs.gprs
  savedVregs := u.savedVregs.vregs
  spillBytes := (SpillLayout.compute u shape).bytes

theorem spillBytes_le (u : RegisterUse) (shape : Shape) :
    (SpillLayout.compute u shape).bytes ≤ maxSpillBytes := by
  have hv := size_regSet_le (SpillLayout.compute u shape).vregs
  have hg := size_regSet_le (SpillLayout.compute u shape).gprs
  have hfull : (SpillLayout.compute u shape).fullBytes ≤ 776 := by
    have hf : (if (SpillLayout.compute u shape).flags = true then 8 else 0) ≤ 8 := by
      split <;> omega
    show (SpillLayout.compute u shape).vregs.size * 16 + (SpillLayout.compute u shape).gprs.size * 8 +
      (if (SpillLayout.compute u shape).flags = true then 8 else 0) ≤ 776
    omega
  have hskip : (if shape.hasHostCallSkipContext then SpillLayout.skipBytes else 0) ≤ 16 := by
    split
    · exact Nat.le_refl _
    · omega
  have hmax := Nat.max_le.mpr ⟨hfull, Nat.le_trans hskip (show 16 ≤ 776 by decide)⟩
  show (max (SpillLayout.compute u shape).fullBytes
    (if shape.hasHostCallSkipContext then SpillLayout.skipBytes else 0) + 15) / 16 * 16 ≤ 0xFF0
  omega

theorem spillBytes_mod (u : RegisterUse) (shape : Shape) :
    (SpillLayout.compute u shape).bytes % 16 = 0 := Nat.mul_mod_left _ 16

theorem currentFrame_run (e : Setting) (s : Emission) :
    currentFrame none e s = .ok (frameOf e.shape s.regs) s := by
  have h : ¬ (SpillLayout.compute s.regs e.shape).bytes > maxSpillBytes :=
    Nat.not_lt.mpr (spillBytes_le s.regs e.shape)
  simp only [currentFrame, run_bind, run_get, run_read, Frame.ofUse, Option.getD_none, if_neg h,
    run_pure, frameOf]

theorem encodable_pushGprs (xs : List Host.Gpr) : Encodable (Frame.pushGprs xs) := by
  fun_induction Frame.pushGprs xs with
  | case1 x y rest ih => exact encodable_cons.mpr ⟨rfl, ih⟩
  | case2 x => rfl
  | case3 => rfl

theorem encodable_popGprs (xs : List Host.Gpr) : Encodable (Frame.popGprs xs) := by
  fun_induction Frame.popGprs xs with
  | case1 x y rest ih => exact ih.append rfl
  | case2 x => rfl
  | case3 => rfl

theorem encodable_spillMove (f : Frame) {move : Host.Gpr → Host.Gpr → BitVec 12 → Host.Instr}
    (h : ∀ x y imm, (move x y imm).isEncodable = true) : Encodable (f.spillMove move) := by
  unfold Frame.spillMove
  split
  · exact encodable_cons.mpr ⟨h _ _ _, encodable_nil⟩
  · exact encodable_nil

theorem encodable_prologue (f : Frame) (u : RegisterUse) : Encodable (f.prologue u) := by
  have hrecord : Encodable [.stpPre .fp .lr .sp (-16), .addImm .x .fp .sp 0] := rfl
  have hpointers : Encodable
      [.mov .x .context (.ofNat 0), .mov .x .pageTable (.ofNat 1)] := rfl
  have hpush : Encodable f.push :=
    ((hrecord.append (encodable_pushGprs _)).append (encodable_map fun _ _ => rfl)).append
      (encodable_spillMove f fun _ _ _ => rfl)
  exact (hpush.append hpointers).append (encodable_loadFromRecord u)

theorem encodable_trailer (f : Frame) (u : RegisterUse) : Encodable (f.trailer u) := by
  have hrecord : Encodable [.ldpPost .fp .lr .sp 16] := rfl
  have hpointers : Encodable
      [.mov .x (.ofNat 0) .context, .mov .x (.ofNat 1) .pageTable] := rfl
  have hjump : Encodable [.br .dispatch] := rfl
  have hpop : Encodable f.pop :=
    (((encodable_spillMove f fun _ _ _ => rfl).append (encodable_map fun _ _ => rfl)).append
      (encodable_popGprs _)).append hrecord
  exact (((encodable_storeToRecord u).append hpointers).append hpop).append hjump

theorem writeInstrs_run {e : Setting} {s : Emission} {before old after : List Word}
    {is : List Host.Instr} (h : s.code.toList = before ++ old ++ after)
    (hlen : old.length = is.length) (hi : Encodable is) :
    writeInstrs before.length is e s =
      .ok () { s with code := (before ++ is.map Host.Instr.encode ++ after).toArray } := by
  induction is generalizing s before old with
  | nil =>
    rw [List.eq_nil_of_length_eq_zero hlen] at h
    simp only [writeInstrs, run_pure, List.map_nil, ← h, Array.toArray_toList]
  | cons i is ih =>
    obtain ⟨w, old, rfl⟩ := List.exists_cons_of_length_eq_add_one hlen
    obtain ⟨hi, his⟩ := encodable_cons.mp hi
    rw [List.append_assoc, List.cons_append] at h
    have hlt : before.length < s.code.size := by
      rw [← Array.length_toList, h, List.length_append, List.length_cons]
      omega
    have hcode : (s.write before.length i).code.toList = before ++ [i.encode] ++ old ++ after := by
      simp only [Emission.write, Array.toList_setIfInBounds, h, List.append_assoc,
        List.cons_append, List.nil_append,
        List.set_append_right _ _ (Nat.le_refl _), Nat.sub_self, List.set_cons_zero]
    have hrest := ih hcode (Nat.succ.inj hlen) his
    rw [List.length_append, List.length_singleton] at hrest
    unfold writeInstrs
    refine (bind_run_ok (writeInstr_run hi e hlt)).trans (hrest.trans ?_)
    simp only [List.map_cons, List.append_assoc, List.cons_append, List.nil_append]
    rfl

theorem writeInstrs_front {e : Setting} {s : Emission} {old rest : List Word}
    {is : List Host.Instr} (h : s.code.toList = old ++ rest) (hlen : is.length ≤ old.length)
    (hi : Encodable is) : writeInstrs 0 is e s = .ok ()
      { s with code := (is.map Host.Instr.encode ++ (old.drop is.length ++ rest)).toArray } := by
  have hsplit : s.code.toList = [] ++ old.take is.length ++ (old.drop is.length ++ rest) := by
    rw [h, List.nil_append, ← List.append_assoc, List.take_append_drop]
  exact writeInstrs_run hsplit (List.length_take_of_le hlen) hi

/-- The branch over the room that a prologue of `n` words leaves. -/
def roomSkip (n room : Nat) : Option Int :=
  displacement? (BitVec.ofNat 64 n) (BitVec.ofNat 64 room)

theorem roomSkip_eq {n room : Nat} (h : n ≤ room) (hr : room < 0x8000000000000000) :
    roomSkip n room = some (displacement n room) := by
  have hint : ∀ m ≤ room, (BitVec.ofNat 64 m).toInt = m := by
    intro m hm
    have hmod : m % 18446744073709551616 = m := Nat.mod_eq_of_lt (by omega)
    rw [BitVec.toInt_eq_toNat_of_lt, BitVec.toNat_ofNat, hmod]
    rw [BitVec.toNat_ofNat, hmod]
    omega
  have hover : (BitVec.ofNat 64 room).ssubOverflow (BitVec.ofNat 64 n) = false := by
    simp only [BitVec.ssubOverflow, hint n h, hint room (Nat.le_refl _), Bool.or_eq_false_iff,
      decide_eq_false_iff_not]
    omega
  rw [roomSkip, displacement?, hover, hint n h, hint room (Nat.le_refl _)]
  rfl

/-- The first words of a unit: the prologue and the room that it leaves. -/
def frontOf (prologue : List Host.Instr) (room : Nat) : List Host.Instr :=
  prologue ++ if prologue.length < room then
    .b ((roomSkip prologue.length room).getD 0) ::
      List.replicate (room - prologue.length - 1) .nop
  else []

/-- The prologue fits its room, and the branch over what it leaves can be counted. -/
def FrontFits (prologue : List Host.Instr) (room : Nat) : Prop :=
  prologue.length ≤ room ∧
    (prologue.length < room → (roomSkip prologue.length room).isSome = true)

/-- The words of a room with a prologue written over the first of them, and the branch over those
that are left. -/
def frontWords (prologue : List Host.Instr) (old : List Word) : List Word :=
  prologue.map Host.Instr.encode ++ if prologue.length < old.length then
    (Host.Instr.b ((roomSkip prologue.length old.length).getD 0)).encode ::
      old.drop (prologue.length + 1)
  else []

theorem writePrologue_over {e : Setting} {s : Emission} {old rest : List Word} (f : Frame)
    (h : s.code.toList = old ++ rest) :
    Yields (writePrologue old.length f) e s (FrontFits (f.prologue s.regs) old.length)
      (f.prologue s.regs).length
      { s with code := (frontWords (f.prologue s.regs) old ++ rest).toArray } := by
  unfold writePrologue FrontFits
  generalize hp : f.prologue s.regs = prologue
  have hi : Encodable prologue := hp ▸ encodable_prologue f s.regs
  refine Yields.after (run_get e s) ?_
  dsimp only
  rw [hp]
  by_cases hlen : prologue.length > old.length
  · simp only [hlen, if_true]
    exact (Yields.of_error (bind_run_error rfl)).congr
      (iff_of_false id fun hf => absurd hf.1 (Nat.not_le.mpr hlen))
  simp only [hlen, if_false]
  refine Yields.after (writeInstrs_front h (Nat.not_lt.mp hlen) hi) ?_
  let ws := prologue.map Host.Instr.encode
  by_cases hlt : prologue.length < old.length
  · have hroom := List.drop_eq_getElem_cons hlt
    simp only [hlt, if_true, frontWords]
    cases hskip : roomSkip prologue.length old.length with
    | none =>
      rw [show displacement? (BitVec.ofNat 64 prologue.length) (BitVec.ofNat 64 old.length) = _ from
        hskip]
      exact (Yields.of_error (bind_run_error rfl)).congr
        (iff_of_false id fun hf => by cases hf.2 trivial)
    | some disp =>
      rw [show displacement? (BitVec.ofNat 64 prologue.length) (BitVec.ofNat 64 old.length) = _ from
        hskip]
      have hsite : prologue.length < (ws ++ (old.drop prologue.length ++ rest)).toArray.size := by
        simp only [ws, List.size_toArray, List.length_append, List.length_map, List.length_drop]
        omega
      refine (Yields.of_run ((bind_run_ok (writeInstr_run rfl e hsite)).trans ?_)).congr
        (iff_of_true trivial ⟨Nat.not_lt.mp hlen, fun _ => rfl⟩)
      simp only [run_pure, Emission.write, hroom, Option.getD_some]
      congr 2
      apply Array.ext'
      have hw : ws.length = prologue.length := List.length_map _
      rw [Array.toList_setIfInBounds]
      simp only [List.append_assoc, List.cons_append, ← hw,
        List.set_append_right _ _ (Nat.le_refl _), Nat.sub_self, List.set_cons_zero, ws]
  · have hnil : old.drop prologue.length = [] := List.drop_eq_nil_of_le (Nat.not_lt.mp hlt)
    simp only [hlt, if_false, frontWords, List.append_nil]
    refine (Yields.of_run ?_).congr
      (iff_of_true trivial ⟨Nat.not_lt.mp hlen, fun hf => absurd hf not_false⟩)
    simp only [run_pure, hnil, List.nil_append]

theorem frontWords_replicate (prologue : List Host.Instr) (room : Nat) :
    frontWords prologue (List.replicate room Host.Instr.nop.encode) =
      (frontOf prologue room).map Host.Instr.encode := by
  have hdrop : room - (prologue.length + 1) = room - prologue.length - 1 := by omega
  rw [frontWords, frontOf, List.map_append, List.length_replicate, List.drop_replicate, hdrop]
  split
  · rw [List.map_cons, List.map_replicate]
  · rfl

theorem writePrologue_yields {e : Setting} {s : Emission} {room : Nat} {rest : List Word} (f : Frame)
    (h : s.code.toList = List.replicate room Host.Instr.nop.encode ++ rest) :
    Yields (writePrologue room f) e s (FrontFits (f.prologue s.regs) room)
      (f.prologue s.regs).length
      { s with code :=
          ((frontOf (f.prologue s.regs) room).map Host.Instr.encode ++ rest).toArray } := by
  have hover := writePrologue_over (e := e) f h
  rwa [List.length_replicate, frontWords_replicate] at hover

/-! ### The whole unit -/

/-- What the code of a unit depends on: the setting, the registers that the unit uses in the end,
and its blocks. -/
structure Plan where
  setting : Setting
  use : RegisterUse
  blocks : List Guest.Block

namespace Plan

variable (p : Plan)

/-- The words kept for the prologue. -/
def room : Nat := p.setting.config.prologueWords

/-- The body before its placeholders are resolved. -/
def body : List Item := bodyItems p.setting p.blocks

/-- Where the block at a guest address starts. -/
def targets (a : Word) : Option Nat := lookupStart (bodyStarts p.setting p.room p.blocks) a

/-- The items of the body as they are in the end, each with the sequence that it needs out of
line. -/
def pieces : List (Item × List Item) :=
  Resolve.pieces p.setting p.use p.targets p.room (p.room + p.body.length) p.body

/-- Everything between the prologue and the trailer. -/
def main : List Item := itemsOf p.pieces ++ tailsOf p.pieces

/-- Where the trailer stands, if there is one. -/
def finish : Nat := p.room + p.main.length

def exits : List Exit := exitsFrom p.room p.main

def frame : Frame := frameOf p.setting.shape p.use

def prologue : List Host.Instr := p.frame.prologue p.use

def trailer : List Host.Instr := if p.exits = [] then [] else p.frame.trailer p.use

/-- All instructions of the unit. -/
def code : List Host.Instr :=
  frontOf p.prologue p.room ++ (closeItems p.finish p.room p.main ++ p.trailer)

/-- Everything reaches where it leads, every exit has a slot, and the prologue has room. -/
structure Fits : Prop where
  body : BodyFits p.setting p.blocks
  resolve :
    ResolveFits p.setting p.use p.targets p.room (p.room + p.body.length) p.body
  exits : ExitsFit p.finish p.exits
  front : FrontFits p.prologue p.room

def stats (t : Guest.Trace) : Stats where
  blocks := t.blocks.size
  guestInstructions := t.instrCount
  resolved := tallied p.setting p.use p.targets p.room (p.room + p.body.length) {} p.body
  exits := p.exits.length
  conditionalExits := p.exits.countP (·.condition.isConditional)
  trailer := if p.exits = [] then none else some p.finish
  prologueWords := p.prologue.length
  spillBytes := p.frame.spillBytes
  truncated := t.isTruncated

end Plan

/-- Resolving placeholders neither adds nor takes away exits in the body. -/
theorem exitsFrom_itemsOf_pieces (e : Setting) (u : RegisterUse) (targets : Word → Option Nat)
    (k n : Nat) (xs : List Item) :
    exitsFrom k (itemsOf (pieces e u targets k n xs)) = exitsFrom k xs := by
  induction xs generalizing k n with
  | nil => rfl
  | cons x xs ih =>
    have hx : (piece e u targets k n x).1.exit? k = x.exit? k := by
      cases x <;> rfl
    show ((piece e u targets k n x).1.exit? k).toList ++ exitsFrom (k + 1) (itemsOf _) = _
    rw [hx, ih]
    rfl

/-- Every placeholder of a body names registers in use. -/
theorem pinned_of_inUse {e : Setting} {u : RegisterUse} {bs : List Guest.Block}
    (h : ∀ b ∈ bs, ∀ i ∈ b.instrs.toList, InUse u i) (n : Nat) :
    ∀ f ∈ fixupsFrom n (bodyItems e bs), Pinned u f := by
  have hitem : ∀ x ∈ bodyItems e bs, ∀ k f, x.fixup? k = some f → Pinned u f := by
    refine forall_bodyItems (fun i k f hf => nomatch hf) (fun c k f hf => nomatch hf) ?_ ?_
    · intro b hb _ i hi k f hf
      cases hf
      exact fun r hr => absurd hr List.not_mem_nil
    · intro b hb i hi x hx k f hf
      have hregs := hole?_regs (hole?_of_mem hx hf).1
      exact fun r hr hpc => (h b hb i hi).covers.gprs r (hregs r hr) hpc
  generalize bodyItems e bs = xs at hitem
  induction xs generalizing n with
  | nil => exact fun f hf => absurd hf List.not_mem_nil
  | cons x xs ih =>
    intro f hf
    rcases List.mem_append.mp hf with hf | hf
    · exact hitem x List.mem_cons_self n f (Option.mem_toList.mp hf)
    · exact ih (n + 1) (fun y hy => hitem y (List.mem_cons_of_mem _ hy)) f hf

/-- What is emitted before any placeholder is resolved. -/
structure Plan.Emitted (p : Plan) (s : Emission) : Prop where
  regs : s.regs = p.use
  code : s.code.toList = List.replicate p.room Host.Instr.nop.encode ++ p.body.map Item.word
  fixups : s.fixups.toList = fixupsFrom p.room p.body
  exits : s.exits.toList = exitsFrom p.room p.body
  targets : (fun a => s.targets[a]?) = p.targets
  below : TargetsBelow s
  pinned : ∀ f ∈ fixupsFrom p.room p.body, Pinned s.regs f

/-- Behind the room for the prologue the body is emitted, if it fits. -/
theorem body_yields (e : Setting) {bs blocks : List Guest.Block}
    (hb : blocks = Guest.spelledBlocks {} bs) :
    ∃ u, RegisterUse.Le {} u ∧ (∀ b ∈ blocks, ∀ i ∈ b.instrs.toList, InUse u i) ∧
      ∃ s₀ s, reservePrologue e {} = .ok () s₀ ∧
        Yields (Compile.body lower bs) e s₀ (BodyFits e blocks) () s ∧
        Plan.Emitted ⟨e, u, blocks⟩ s := by
  let before := List.replicate e.config.prologueWords Host.Instr.nop.encode
  let s₀ : Emission := { code := before.toArray }
  have hreserve : reservePrologue e {} = .ok () s₀ := by
    have hrun : reservePrologue e {} =
        .ok () { code := #[] ++ Array.replicate e.config.prologueWords Host.Instr.nop.encode } := rfl
    simp only [hrun, Array.empty_append, s₀, before, List.toArray_replicate]
  have hroom : before.length = e.config.prologueWords := List.length_replicate
  have hidle : Idle {} s₀ := ⟨⟨⟨rfl, rfl⟩, rfl⟩, rfl, RegisterUse.rested_initial⟩
  obtain ⟨u, hle, -, hin, hbody⟩ := body_run (e := e) hidle bs
  rw [← hb] at hin hbody
  let p : Plan := ⟨e, u, blocks⟩
  rw [show s₀.code.size = p.room from hroom] at hbody
  let s₁ := finished s₀ (behindBlocks {} bs) u p.body (bodyStarts e p.room blocks)
  have hcode : s₁.code.toList = before ++ p.body.map Item.word := Array.toList_append
  have htargets : (fun a => s₁.targets[a]?) = p.targets := by
    funext a
    show (noteStarts {} _)[a]? = _
    rw [getElem?_noteStarts, Std.HashMap.getElem?_empty, Option.none_or]
    rfl
  refine ⟨u, hle, hin, s₀, s₁, hreserve, hbody, rfl, hcode, ?_, ?_, htargets, ?_,
    pinned_of_inUse hin _⟩
  · show (#[] ++ (fixupsFrom s₀.code.size p.body).toArray).toList = _
    rw [Array.empty_append, show s₀.code.size = p.room from hroom]
  · show (#[] ++ (exitsFrom s₀.code.size p.body).toArray).toList = _
    rw [Array.empty_append, show s₀.code.size = p.room from hroom]
  · intro a k hk
    rw [show s₁.targets[a]? = p.targets a from congrFun htargets a] at hk
    rw [← Array.length_toList, hcode, List.length_append, List.length_map, hroom]
    exact bodyStarts_lt e p.room _ _ (lookupStart_mem hk)

theorem Plan.Emitted.size {p : Plan} {s : Emission} (h : p.Emitted s) :
    s.code.size = p.room + p.body.length := by
  rw [← Array.length_toList, h.code, List.length_append, List.length_map, List.length_replicate]

/-- The emission of a unit ends well exactly when its plan fits, and then with the code of the
plan. Whatever comes behind the body leaves the registers in use. -/
theorem unit_yields (e : Setting) (t : Guest.Trace) {blocks : List Guest.Block}
    (hb : blocks = Guest.spelledBlocks {} t.blocks.toList) :
    ∃ u, RegisterUse.Le {} u ∧ (∀ b ∈ blocks, ∀ i ∈ b.instrs.toList, InUse u i) ∧
      ∃ s₁ s : Emission, s.code.toList = (Plan.code ⟨e, u, blocks⟩).map Host.Instr.encode ∧
        s.regs = u ∧
        Yields (do reservePrologue; body lower t.blocks.toList) e {} (BodyFits e blocks) () s₁ ∧
        Plan.Emitted ⟨e, u, blocks⟩ s₁ ∧
        Yields (unit lower t) e {} (Plan.Fits ⟨e, u, blocks⟩) (Plan.stats ⟨e, u, blocks⟩ t) s := by
  obtain ⟨u, hle, hin, s₀, s₁, hreserve, hbody, hs₁⟩ := body_yields e hb
  obtain rfl : s₁.regs = u := hs₁.regs
  let p : Plan := ⟨e, s₁.regs, blocks⟩
  let before := List.replicate p.room Host.Instr.nop.encode
  have hroom : before.length = p.room := List.length_replicate
  have hfixups : s₁.fixups.toList = fixupsFrom before.length p.body := hroom ▸ hs₁.fixups
  have hpinned : ∀ f ∈ fixupsFrom before.length p.body, Pinned s₁.regs f := hroom ▸ hs₁.pinned
  have hall := all_yields (e := e) hs₁.code hfixups hs₁.below hpinned
  rw [hs₁.size, hs₁.targets, hroom] at hall
  -- Behind the fixups.
  let s₂ := replaced { s₁ with fixups := #[] } before p.pieces []
  have hcode₂ : s₂.code.toList = before ++ p.main.map Item.word := by
    show ((before ++ (itemsOf p.pieces).map Item.word ++ []).toArray ++ _).toList = _
    rw [Array.toList_append, List.append_nil, List.append_assoc, ← List.map_append]
    rfl
  have hexits₂ : s₂.exits.toList = exitsFrom before.length p.main := by
    have hbodyExits : s₁.exits.toList = exitsFrom p.room (itemsOf p.pieces) := by
      rw [hs₁.exits, Plan.pieces, exitsFrom_itemsOf_pieces]
    have hlen : (before ++ (itemsOf p.pieces).map Item.word ++ []).toArray.size =
        p.room + (itemsOf p.pieces).length := by
      rw [List.size_toArray, List.append_nil, List.length_append, List.length_map, hroom]
    show (s₁.exits ++ (exitsFrom _ (tailsOf p.pieces)).toArray).toList = _
    rw [hlen, Array.toList_append, hbodyExits, hroom, Plan.main, exitsFrom_append]
  have hfinal := finalizeExits_yields (e := e) hcode₂ hexits₂ (encodable_trailer p.frame p.use)
  rw [hroom] at hfinal
  -- Behind the trailer.
  let s₃ : Emission := { s₂ with
    exits := #[]
    code := (before ++ (closeItems p.finish p.room p.main ++ p.trailer).map
      Host.Instr.encode).toArray }
  have hcode₃ : s₃.code.toList = List.replicate p.room Host.Instr.nop.encode ++
      (closeItems p.finish p.room p.main ++ p.trailer).map Host.Instr.encode := rfl
  have hfront := writePrologue_yields (e := e) p.frame hcode₃
  let s₄ : Emission := { s₃ with
    code := (p.code.map Host.Instr.encode).toArray }
  have hcode₄ : { s₃ with code := ((frontOf p.prologue p.room).map Host.Instr.encode ++
      (closeItems p.finish p.room p.main ++ p.trailer).map Host.Instr.encode).toArray } = s₄ := by
    simp only [s₄, Plan.code, List.map_append]
  refine ⟨s₁.regs, hle, hin, s₁, s₄, rfl, rfl, Yields.after hreserve hbody, hs₁, ?_⟩
  have hrun : Yields (unit lower t) e {} (BodyFits e blocks ∧
      ResolveFits e p.use p.targets p.room (p.room + p.body.length) p.body ∧
      ExitsFit p.finish p.exits ∧ FrontFits p.prologue p.room) (p.stats t) s₄ := by
    unfold unit
    refine Yields.after hreserve ?_
    refine hbody.bind ?_
    refine hall.bind ?_
    refine Yields.after (currentFrame_run e s₂) ?_
    refine Yields.after (run_get e s₂) ?_
    refine Yields.after (run_get e s₂) ?_
    refine hfinal.bind ?_
    refine Yields.after (run_read e s₃) ?_
    rw [← hcode₄]
    refine hfront.before ?_
    have hexits : s₂.exits = p.exits.toArray := Array.ext' (hexits₂.trans (by rw [hroom]; rfl))
    simp only [run_pure, hexits, List.countP_toArray, List.size_toArray]
    rfl
  exact hrun.congr ⟨fun h => ⟨h.1, h.2.1, h.2.2.1, h.2.2.2⟩,
    fun h => ⟨h.body, h.resolve, h.exits, h.front⟩⟩

end Dynarec.Compile

namespace Dynarec

open Dynarec.Emit Dynarec.Compile

/-- A compilation ends well exactly if the emission of its unit does and a word can count the bytes
that the unit covers. -/
theorem compile_eq_ok {lowering : Guest.Instr → Emit Unit} {config : Config}
    {dispatch : DispatchTable} {t : Guest.Trace} {c : Compiled} :
    compile lowering config dispatch t = .ok c ↔ ∃ start stats s, t.start? = some start ∧
      Compile.unit lowering t { config, dispatch, shape := .ofTrace t } {} = .ok stats s ∧
      t.guestBytes < wordCount ∧
      c = { start, guestBytes := t.guestBytes, code := s.code, stats } := by
  unfold compile
  constructor
  · intro h
    split at h
    · cases h
    · rename_i start hstart
      split at h
      · rename_i stats s hunit
        by_cases hbytes : t.guestBytes < wordCount
        · simp only [Guest.Trace.guestBytes?, if_pos hbytes] at h
          cases h
          exact ⟨start, stats, s, hstart, hunit, hbytes, rfl⟩
        · simp only [Guest.Trace.guestBytes?, if_neg hbytes, reduceCtorEq] at h
      · cases h
      · cases h
  · rintro ⟨start, stats, s, hstart, hunit, hbytes, rfl⟩
    simp only [hstart, hunit, Guest.Trace.guestBytes?, if_pos hbytes]

end Dynarec
