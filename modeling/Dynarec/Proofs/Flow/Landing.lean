import Dynarec.Proofs.Placement
import Dynarec.Proofs.Straight

/-! # Where branches land

Every branch between the prologue and the trailer leads to an index there, or to the first word of
the trailer, and never to itself. Each sequence out of line ends in a branch, so that control does
not run from one into the next. -/

namespace Dynarec.Host

open Dynarec.Emit

/-- At index `k` the instruction is read back and keeps control within the code: it goes on to the
next word, or to one that `P` allows to branch to from there. -/
structure Instr.Lands (P : Nat → Nat → Prop) (k : Nat) (i : Instr) : Prop where
  canonical : i.isCanonical = true
  stays : i.leaves = false
  lands : ∀ d, i.disp? = some d → ∃ m : Nat, (k : Int) + d = m ∧ P k m

theorem lands_of_straight {i : Instr} (h : i.isStraight = true) (P : Nat → Nat → Prop) (k : Nat) :
    i.Lands P k := by
  obtain ⟨hc, hd, hl⟩ := isStraight_iff.mp h
  refine ⟨hc, hl, fun d hdisp => ?_⟩
  rw [hd] at hdisp
  cases hdisp

/-- A branch from `k` leads to another index from `lo` to `hi`. -/
def Within (lo hi k m : Nat) : Prop := m ≠ k ∧ lo ≤ m ∧ m ≤ hi

variable {P : Nat → Nat → Prop} {k m : Nat}

theorem lands_of_disp {i : Instr} (hc : i.isCanonical = true) (hl : i.leaves = false)
    (hd : i.disp? = some (displacement k m)) (hp : P k m) : i.Lands P k := by
  refine ⟨hc, hl, fun d hdisp => ⟨m, ?_, hp⟩⟩
  cases hd.symm.trans hdisp
  unfold displacement
  omega

theorem lands_b (hf : fits26 (displacement k m) = true) (hp : P k m) :
    (Instr.b (displacement k m)).Lands P k :=
  lands_of_disp hf rfl rfl hp

theorem lands_bCond {c : Cond} (hf : fits19 (displacement k m) = true) (hp : P k m) :
    (Instr.bCond c (displacement k m)).Lands P k :=
  lands_of_disp hf rfl rfl hp

/-- A branch over the next word. -/
theorem lands_two {i : Instr} (hc : i.isCanonical = true) (hl : i.leaves = false)
    (hd : i.disp? = some 2) (hp : P k (k + 2)) : i.Lands P k := by
  refine ⟨hc, hl, fun d hdisp => ⟨k + 2, ?_, hp⟩⟩
  cases hd.symm.trans hdisp
  rfl

end Dynarec.Host

namespace Dynarec.Emit

/-- Whether control may come back behind the placeholder of a fixup. -/
def FixupKind.returns : FixupKind → Bool
  | branch | indirectBranch | tableBranch _ => false
  | _ => true

end Dynarec.Emit

namespace Dynarec.Compile

open Dynarec.Emit Dynarec.Lower Dynarec.Resolve Dynarec.Host

/-! ### Items -/

/-- An item at index `k` keeps control where `P` allows. Nothing is asked of an exit, which is given
its branch later, or of a placeholder, where `holes` allows any. -/
def ItemLands (holes : Bool) (P : Nat → Nat → Prop) (k : Nat) : Item → Prop
  | .op i => i.Lands P k
  | .hole .. => holes = true
  | .exit _ => True

/-- The items from index `k` on keep control where `P` allows. -/
def ItemsLand (holes : Bool) (P : Nat → Nat → Prop) : Nat → List Item → Prop :=
  AllFrom (ItemLands holes P)

/-- Branches forward between the indexes `a` and `b` are allowed. -/
def Forward (P : Nat → Nat → Prop) (a b : Nat) : Prop := ∀ j m, a ≤ j → j < m → m ≤ b → P j m

theorem Forward.mono {P : Nat → Nat → Prop} {a a' b b' : Nat} (h : Forward P a b) (ha : a ≤ a')
    (hb : b' ≤ b) : Forward P a' b' :=
  fun j m hj hm hle => h j m (Nat.le_trans ha hj) hm (Nat.le_trans hle hb)

section Items

variable {holes : Bool} {P : Nat → Nat → Prop} {k : Nat}

theorem ItemsLand.append {xs ys : List Item} (hx : ItemsLand holes P k xs)
    (hy : ItemsLand holes P (k + xs.length) ys) : ItemsLand holes P k (xs ++ ys) :=
  allFrom_append.mpr ⟨hx, hy⟩

theorem ItemsLand.cons {x : Item} {xs : List Item} (hx : ItemLands holes P k x)
    (hxs : ItemsLand holes P (k + 1) xs) : ItemsLand holes P k (x :: xs) :=
  allFrom_cons.mpr ⟨hx, hxs⟩

theorem itemsLand_singleton {x : Item} (h : ItemLands holes P k x) :
    ItemsLand holes P k [x] := allFrom_singleton.mpr h

theorem itemsLand_ops {is : List Host.Instr} (h : Straight is) :
    ItemsLand holes P k (ops is) := by
  induction is generalizing k with
  | nil => exact allFrom_nil
  | cons i is ih =>
    obtain ⟨hi, his⟩ := straight_cons.mp h
    exact .cons (lands_of_straight hi _ _) (ih his)

end Items

/-! ### The body -/

section Body

variable {P : Nat → Nat → Prop}

theorem itemsLand_instrItems (config : Config) (i : Guest.Instr) (k : Nat) :
    ItemsLand true P k (instrItems config i) := by
  obtain ⟨is, hs, his⟩ := items_eq config (currentOf i) i
  unfold instrItems
  rw [his]
  refine (itemsLand_ops hs).append ?_
  unfold holeItems
  cases hole? (currentOf i) i with
  | none => exact allFrom_nil
  | some p => exact itemsLand_singleton rfl

theorem itemsLand_instrs (config : Config) (is : List Guest.Instr) (k : Nat) :
    ItemsLand true P k (is.flatMap (instrItems config)) := by
  induction is generalizing k with
  | nil => exact allFrom_nil
  | cons i is ih =>
    rw [List.flatMap_cons]
    exact (itemsLand_instrItems config i k).append (ih _)

theorem itemsLand_syncItems (i : Guest.Instr) {k : Nat} (h : P (k + 3) (k + 5)) :
    ItemsLand true P k (syncItems i) := by
  have hcbnz : (Host.Instr.cbnz .scratch 2).Lands P (k + 3) := lands_two rfl rfl rfl h
  exact .cons (lands_of_straight rfl _ _) (.cons (lands_of_straight rfl _ _)
    (.cons (lands_of_straight rfl _ _) (.cons hcbnz (itemsLand_singleton rfl))))

/-- The only branch of a region is the one over it. -/
theorem itemsLand_region (config : Config) {c : Cond} {is : List Guest.Instr}
    (hf : RegionFits c (is.flatMap (instrItems config))) {k : Nat}
    (h : P k (k + (is.flatMap (instrItems config)).length + 1)) :
    ItemsLand true P k (regionItems c (is.flatMap (instrItems config))) := by
  unfold regionItems
  split
  · exact itemsLand_instrs config is k
  · rename_i hc
    refine .cons ⟨hf fun hal => hc (.inl hal), rfl, fun d hd => ⟨_, ?_, h⟩⟩
      (itemsLand_instrs config is _)
    cases hd
    omega

/-- The branches of a part that stands at index `k` are allowed. -/
def Part.Allowed (config : Config) (P : Nat → Nat → Prop) (k : Nat) : Part → Prop
  | .check _ => P (k + 3) (k + 5)
  | .run c is => c ≠ .al → is.flatMap (instrItems config) ≠ [] →
    P k (k + (is.flatMap (instrItems config)).length + 1)

theorem itemsLand_part (config : Config) {p : Part} (hf : p.Fits config) {k : Nat}
    (h : p.Allowed config P k) : ItemsLand true P k (p.items config) := by
  cases p with
  | check i => exact itemsLand_syncItems i h
  | run c is =>
    by_cases hc : c = .al ∨ is.flatMap (instrItems config) = []
    · rw [Part.items, regionItems, if_pos hc]
      exact itemsLand_instrs config is k
    · obtain ⟨hal, hne⟩ := not_or.mp hc
      exact itemsLand_region config hf (h hal hne)

theorem itemsLand_parts (config : Config) {ps : List Part} (hf : PartsFit config ps) {k : Nat}
    (h : ∀ pre p post, ps = pre ++ p :: post →
      p.Allowed config P (k + (partsItems config pre).length)) :
    ItemsLand true P k (partsItems config ps) :=
  allFrom_flatMap fun pre p post hps => itemsLand_part config
    (hf p (hps ▸ List.mem_append_right _ List.mem_cons_self)) (h pre p post hps)

/-- All branches of parts lead forward, to the end of the parts at most. -/
theorem itemsLand_forward (config : Config) {ps : List Part} (hf : PartsFit config ps) {k : Nat}
    (h : Forward P k (k + (partsItems config ps).length)) :
    ItemsLand true P k (partsItems config ps) := by
  refine itemsLand_parts config hf fun pre p post hps => ?_
  rw [hps, partsItems_append, partsItems_cons, List.length_append, List.length_append] at h
  cases p with
  | check i =>
    have hlen : (Part.items config (.check i)).length = 5 := rfl
    exact h _ _ (by omega) (by omega) (by omega)
  | run c is =>
    intro hal hne
    have hlen : (Part.items config (.run c is)).length =
        (is.flatMap (instrItems config)).length + 1 := by
      rw [Part.items, regionItems, if_neg (not_or.mpr ⟨hal, hne⟩), List.length_cons]
    exact h _ _ (by omega) (by omega) (by omega)

end Body

/-! ### Sequences out of line -/

/-- Whether control can pass on behind an item. -/
def itemFalls : Item → Bool
  | .op i => i.falls
  | .hole .. => true
  | .exit _ => false

/-- Control does not run past the last of some items. -/
def Ended (xs : List Item) : Prop := ∀ x, xs.getLast? = some x → itemFalls x = false

theorem ended_nil : Ended [] := by
  intro x hx
  rw [List.getLast?_nil] at hx
  cases hx

theorem ended_snoc (xs : List Item) {x : Item} (h : itemFalls x = false) : Ended (xs ++ [x]) := by
  intro y hy
  rw [List.getLast?_append, List.getLast?_singleton, Option.some_or] at hy
  cases hy
  exact h

theorem Ended.append {xs ys : List Item} (hx : Ended xs) (hy : Ended ys) : Ended (xs ++ ys) := by
  intro x h
  rw [List.getLast?_append] at h
  cases hlast : ys.getLast? with
  | none =>
    rw [hlast, Option.none_or] at h
    exact hx x h
  | some y =>
    rw [hlast, Option.some_or] at h
    cases h
    exact hy _ hlast

theorem ended_exitItems (e : Setting) (guest : Word) : Ended (exitItems e guest) :=
  ended_snoc _ rfl

section Tail

variable (e : Setting) (u : RegisterUse) {P : Nat → Nat → Prop} {n : Nat}

theorem itemsLand_exitItems {holes : Bool} (guest : Word) :
    ItemsLand holes P n (exitItems e guest) :=
  (itemsLand_ops ((straight_addressOps _).append (straight_dispatchOps _ _))).append
    (itemsLand_singleton trivial)

theorem itemsLand_leaveItems : ItemsLand false P n (leaveItems e) :=
  (itemsLand_ops (straight_dispatchOps _ _)).append (itemsLand_singleton trivial)

theorem itemsLand_leaveNonzeroItems (h : Forward P n (n + (leaveNonzeroItems e).length)) :
    ItemsLand false P n (leaveNonzeroItems e) := by
  simp only [leaveNonzeroItems, List.length_append, length_ops, List.length_singleton] at h
  unfold leaveNonzeroItems
  rw [ops_append, List.append_assoc]
  refine (itemsLand_ops (straight_dispatchOps _ _)).append
    (.cons (lands_two rfl rfl rfl (h _ _ ?_ ?_ ?_)) (itemsLand_singleton trivial))
  all_goals
    rw [length_ops]
    omega

theorem itemsLand_continuationItems (expected : Word)
    (h : Forward P n (n + (continuationItems e expected).length)) :
    ItemsLand false P n (continuationItems e expected) := by
  have hload : Straight ([.ldr .w .scratch .context Record.dispatchAddress] ++
      loadWord .dispatch expected ++ [.data .eor .w .scratch .scratch .dispatch]) :=
    (Straight.append (show Straight [.ldr .w .scratch .context Record.dispatchAddress] from rfl)
      (straight_loadWord _ _)).append rfl
  unfold continuationItems at h ⊢
  rw [List.length_append, ← Nat.add_assoc] at h
  exact (itemsLand_ops hload).append
    (itemsLand_leaveNonzeroItems e (h.mono (Nat.le_add_right _ _) (Nat.le_refl _)))

theorem itemsLand_callItems (nextPc : Word) (target : Option Word)
    (h : Forward P n (n + (callItems e u nextPc target).length)) :
    ItemsLand false P n (callItems e u nextPc target) := by
  have haddress : Straight (target.elim [] addressOps) := by
    cases target with
    | none => rfl
    | some a => exact straight_addressOps a
  have hcall := (haddress.append (straight_dispatchOps e target)).append
    (straight_hostCallOps e.shape u .full (.register .dispatch) contextArgs
      (show Straight answerOps from rfl))
  unfold callItems at h ⊢
  rw [List.length_append, ← Nat.add_assoc] at h
  exact (itemsLand_ops hcall).append
    (itemsLand_continuationItems e _ (h.mono (Nat.le_add_right _ _) (Nat.le_refl _)))

theorem itemsLand_trapItems (nextPc : Word) (helper : DWord) (args : List CallArg)
    (h : Forward P n (n + (trapItems e u nextPc helper args).length)) :
    ItemsLand false P n (trapItems e u nextPc helper args) := by
  have hcall := straight_hostCallOps e.shape u .skipContext (.helper helper) args
    (show Straight answerOps from rfl)
  unfold trapItems at h ⊢
  rw [List.length_append, ← Nat.add_assoc] at h
  exact (itemsLand_ops hcall).append
    (itemsLand_continuationItems e _ (h.mono (Nat.le_add_right _ _) (Nat.le_refl _)))

theorem itemsLand_syncPointItems (pc : Word)
    (h : Forward P n (n + (syncPointItems e u pc).length)) :
    ItemsLand false P n (syncPointItems e u pc) := by
  have hanswer : Straight [.mov .x .dispatch (.ofNat 0)] := rfl
  have hscratch : Straight [.mov .w .scratch .dispatch] := rfl
  have hcall := ((straight_hostCallOps e.shape u .full (.helper e.config.helpers.syncCheck)
    [.reg .context] hanswer).append (straight_addressOps pc)).append hscratch
  unfold syncPointItems at h ⊢
  rw [List.length_append, ← Nat.add_assoc] at h
  exact (itemsLand_ops hcall).append
    (itemsLand_leaveNonzeroItems e (h.mono (Nat.le_add_right _ _) (Nat.le_refl _)))

theorem itemsLand_timerReadItems (rt rt2 : Guest.Gpr) :
    ItemsLand false P n (timerReadItems e u rt rt2) := by
  refine itemsLand_ops (straight_hostCallOps _ _ _ _ _ ?_)
  refine straight_cons.mpr ⟨isStraight_iff.mpr ⟨offsetFits_gpr rt, rfl, rfl⟩, straight_cons.mpr
    ⟨rfl, straight_cons.mpr ⟨isStraight_iff.mpr ⟨offsetFits_gpr rt2, rfl, rfl⟩, straight_nil⟩⟩⟩

theorem itemsLand_tableBranchItems (pcValue : Word) (rn rm : Guest.Gpr) (halfword : Bool) :
    ItemsLand false P n (tableBranchItems e u pcValue rn rm halfword) :=
  (itemsLand_ops (straight_hostCallOps _ _ _ _ _ (show Straight answerOps from rfl))).append
    (itemsLand_leaveItems e)

end Tail

/-! ### Resolved placeholders -/

/-- A placeholder at `site` is resolved so that control stays where `P` allows, with a sequence at
`n` that control does not run past. -/
structure ResolvedLands (P : Nat → Nat → Prop) (site n : Nat) (r : Resolved) : Prop where
  patch : r.patch.Lands P site
  tail : ItemsLand false P n r.tail
  ended : Ended r.tail

/-- The guest address that a fixup branches to directly, if it is known. -/
def goal? (f : Fixup) : Option Word :=
  match f.kind, f.target with
  | .branch, .address t => some t
  | .condBranch _, .address t => some t
  | .indirectBranch, .register rm => if rm.isPc then some f.pcValue else none
  | _, _ => none

/-- What a fixup has to branch to is allowed, if its sequence stands from `n` up to `finish`: the
sequence, the places in it, the word behind the placeholder, and the target. -/
structure Allowed (P : Nat → Nat → Prop) (targets : Word → Option Nat) (f : Fixup)
    (n finish : Nat) : Prop where
  enter : n < finish → P f.site n
  inside : ∀ j m, n ≤ j → j < m → m < finish → P j m
  back : f.kind.returns = true → ∀ j, n < j → j < finish → P j (f.site + 1)
  goal : ∀ t, goal? f = some t → ∀ index, targets t = some index →
    P f.site index ∧ ∀ j, n < j → j < finish → P j index

/-- A placeholder over which nothing is left to branch. -/
theorem elided_lands {P : Nat → Nat → Prop} {site n : Nat} :
    ResolvedLands P site n { patch := .nop, how := .elided } :=
  ⟨lands_of_straight rfl _ _, allFrom_nil, ended_nil⟩

theorem nearBranch_eq_some {n : Nat} {index : Option Nat} {disp : Int}
    (h : nearBranch n index = some disp) :
    ∃ k, index = some k ∧ disp = displacement (n + 2) k ∧ fits26 disp = true := by
  obtain ⟨hm, hf⟩ := Option.filter_eq_some_iff.mp h
  obtain ⟨k, hk, hd⟩ := Option.map_eq_some_iff.mp hm
  exact ⟨k, hk, hd.symm, hf⟩

section Resolved

variable {e : Setting} {P : Nat → Nat → Prop} {site n : Nat}

theorem returning_lands (hp : P site n) {xs : List Item} (hx : ItemsLand false P n xs)
    (hback : P (n + xs.length) (site + 1)) (hf : (returning site n xs).fits) :
    ResolvedLands P site n (returning site n xs) :=
  ⟨lands_b hf.1 hp, hx.append (itemsLand_singleton (lands_b hf.2 hback)), ended_snoc _ rfl⟩

theorem leaving_lands (hp : P site n) {xs : List Item} (hx : ItemsLand false P n xs) (he : Ended xs)
    (hf : (leaving site n xs).fits) : ResolvedLands P site n (leaving site n xs) :=
  ⟨lands_b hf hp, hx, he⟩

variable {finish : Nat} (hp : n < finish → P site n)

include hp

theorem enter_of_exitItems {t : Word} (hfin : n + (exitItems e t).length ≤ finish) : P site n := by
  have hpos := List.length_pos_iff.mpr (exitItems_ne_nil e t)
  exact hp (by omega)

theorem trampolined_lands {t : Word} (hf : (trampolined e site n t).fits)
    (hfin : n + (trampolined e site n t).tail.length ≤ finish) :
    ResolvedLands P site n (trampolined e site n t) :=
  ⟨lands_b hf.2 (enter_of_exitItems hp hfin), itemsLand_exitItems e t, ended_exitItems e t⟩

variable {targets : Word → Option Nat} {t : Word}
  (ht : ∀ index, targets t = some index →
    P site index ∧ ∀ j, n < j → j < finish → P j index)

include ht

theorem directed_lands (hf : (directed e targets site n t).fits)
    (hfin : n + (directed e targets site n t).tail.length ≤ finish) :
    ResolvedLands P site n (directed e targets site n t) := by
  unfold directed at hf hfin ⊢
  cases hi : targets t with
  | none =>
    simp only [hi] at hf hfin ⊢
    exact trampolined_lands hp hf hfin
  | some index =>
    simp only [hi] at hf hfin ⊢
    split
    · exact elided_lands
    · rename_i hd
      split
      · rename_i hr
        exact ⟨lands_b hr (ht index hi).1, allFrom_nil, ended_nil⟩
      · rename_i hr
        rw [if_neg hd, if_neg hr] at hf hfin
        exact trampolined_lands hp hf hfin

theorem longDirected_lands {cond : Cond} {index : Option Nat} (hindex : index = targets t)
    (hin : ∀ j m, n ≤ j → j < m → m < finish → P j m)
    (hback : ∀ j, n < j → j < finish → P j (site + 1))
    (hf : (longDirected e site n cond t index).fits)
    (hfin : n + (longDirected e site n cond t index).tail.length ≤ finish) :
    ResolvedLands P site n (longDirected e site n cond t index) := by
  obtain ⟨hreturn, -, hsite⟩ := hf
  have hlen : n + 2 < finish := by
    unfold longDirected at hfin
    rw [List.length_append] at hfin
    cases hnear : nearBranch n index with
    | none =>
      have hpos := List.length_pos_iff.mpr (exitItems_ne_nil e t)
      simp only [hnear, length_ops, List.length_cons, List.length_nil] at hfin
      omega
    | some disp =>
      simp only [hnear, length_ops, List.length_cons, List.length_nil] at hfin
      omega
  have hskip : (Host.Instr.bCond cond 2).Lands P n :=
    lands_two rfl rfl rfl (hin _ _ (Nat.le_refl n) (by omega) hlen)
  have hreturn : (Host.Instr.b (displacement (n + 1) (site + 1))).Lands P (n + 1) :=
    lands_b hreturn (hback _ (by omega) (by omega))
  have hfront : ItemsLand false P n
      (ops [.bCond cond 2, .b (displacement (n + 1) (site + 1))]) :=
    .cons hskip (itemsLand_singleton hreturn)
  refine ⟨lands_b hsite (hp (by omega)), hfront.append ?_, ?_⟩
  · cases hnear : nearBranch n index with
    | none => exact itemsLand_exitItems e t
    | some disp =>
      obtain ⟨k, hk, rfl, hfits⟩ := nearBranch_eq_some hnear
      have hgoal := (ht k (hindex.symm.trans hk)).2 (n + 2) (by omega) hlen
      exact itemsLand_singleton (lands_b hfits hgoal)
  · refine Ended.append (ended_snoc [_] rfl) ?_
    cases nearBranch n index with
    | none => exact ended_exitItems e t
    | some disp => exact ended_snoc [] rfl

theorem condDirected_lands {cond : Cond} (hin : ∀ j m, n ≤ j → j < m → m < finish → P j m)
    (hback : ∀ j, n < j → j < finish → P j (site + 1))
    (hf : (condDirected e targets site n cond t).fits)
    (hfin : n + (condDirected e targets site n cond t).tail.length ≤ finish) :
    ResolvedLands P site n (condDirected e targets site n cond t) := by
  unfold condDirected at hf hfin ⊢
  cases hi : targets t with
  | none =>
    simp only [hi] at hf hfin ⊢
    split
    · rename_i hr
      rw [if_pos hr] at hfin
      exact ⟨lands_bCond hr (enter_of_exitItems hp hfin), itemsLand_exitItems e t,
        ended_exitItems e t⟩
    · rename_i hr
      rw [if_neg hr] at hf hfin
      exact longDirected_lands hp ht hi.symm hin hback hf hfin
  | some index =>
    simp only [hi] at hf hfin ⊢
    split
    · exact elided_lands
    · rename_i hd
      rw [if_neg hd] at hf hfin
      split
      · rename_i hr
        exact ⟨lands_bCond hr (ht index hi).1, allFrom_nil, ended_nil⟩
      · rename_i hr
        rw [if_neg hr] at hf hfin
        exact longDirected_lands hp ht hi.symm hin hback hf hfin

end Resolved

theorem ops_append_ne_nil (is : List Host.Instr) {xs : List Item} (h : xs ≠ []) :
    ops is ++ xs ≠ [] := List.append_ne_nil_of_right_ne_nil _ h

theorem leaveNonzeroItems_ne_nil (e : Setting) : leaveNonzeroItems e ≠ [] :=
  ops_append_ne_nil _ (List.cons_ne_nil _ _)

theorem continuationItems_ne_nil (e : Setting) (expected : Word) :
    continuationItems e expected ≠ [] := ops_append_ne_nil _ (leaveNonzeroItems_ne_nil e)

theorem timerReadItems_ne_nil (e : Setting) (u : RegisterUse) (rt rt2 : Guest.Gpr) :
    timerReadItems e u rt rt2 ≠ [] := by
  have hmem : Item.op (.blr (Callee.helper e.config.helpers.timerRead).load.1) ∈
      timerReadItems e u rt rt2 := by
    unfold timerReadItems hostCallOps
    rw [ops_append, ops_append, ops_append]
    exact List.mem_append_left _ (List.mem_append_left _
      (List.mem_append_right _ List.mem_cons_self))
  exact List.ne_nil_of_mem hmem

/-- However a placeholder is resolved, control stays where it is allowed. -/
theorem resolved_lands {e : Setting} {u : RegisterUse} {targets : Word → Option Nat} {f : Fixup}
    {P : Nat → Nat → Prop} {n finish : Nat} (ha : Allowed P targets f n finish)
    (hf : (resolved e u targets f n).fits)
    (hfin : n + (resolved e u targets f n).tail.length ≤ finish) :
    ResolvedLands P f.site n (resolved e u targets f n) := by
  have hcall : f.kind.returns = true → ∀ xs : List Item, xs ≠ [] →
      (Forward P n (n + xs.length) → ItemsLand false P n xs) → (returning f.site n xs).fits →
      n + (returning f.site n xs).tail.length ≤ finish →
      ResolvedLands P f.site n (returning f.site n xs) := by
    intro hreturns xs hne hx hfits hlen
    have hpos := List.length_pos_iff.mpr hne
    have hlen' : (returning f.site n xs).tail.length = xs.length + 1 := List.length_append
    exact returning_lands (ha.enter (by omega))
      (hx fun j m hj hm hle => ha.inside j m hj hm (by omega))
      (ha.back hreturns _ (by omega) (by omega)) hfits
  have hleave : ∀ xs : List Item, ItemsLand false P n (xs ++ leaveItems e) →
      (leaving f.site n (xs ++ leaveItems e)).fits →
      n + (leaving f.site n (xs ++ leaveItems e)).tail.length ≤ finish →
      ResolvedLands P f.site n (leaving f.site n (xs ++ leaveItems e)) := by
    intro xs hx hfits hlen
    have hpos : 0 < (xs ++ leaveItems e).length :=
      List.length_pos_iff.mpr (List.append_ne_nil_of_right_ne_nil _
        (List.append_ne_nil_of_right_ne_nil _ (List.cons_ne_nil _ _)))
    have hlen' : (leaving f.site n (xs ++ leaveItems e)).tail.length =
      (xs ++ leaveItems e).length := rfl
    refine leaving_lands (ha.enter (by omega)) hx ?_ hfits
    unfold leaveItems
    rw [← List.append_assoc]
    exact ended_snoc _ rfl
  cases hk : f.kind with
  | branch =>
    cases htarget : f.target with
    | address t =>
      have hgt : goal? f = some t := by simp only [goal?, hk, htarget]
      simp only [resolved, hk, htarget] at hf hfin ⊢
      exact directed_lands ha.enter (ha.goal t hgt) hf hfin
    | _ =>
      simp only [resolved, hk, htarget] at hf
      exact hf.elim
  | condBranch cond =>
    cases htarget : f.target with
    | address t =>
      have hgt : goal? f = some t := by simp only [goal?, hk, htarget]
      simp only [resolved, hk, htarget] at hf hfin ⊢
      exact condDirected_lands ha.enter (ha.goal t hgt) ha.inside (ha.back (by rw [hk]; rfl)) hf hfin
    | _ =>
      simp only [resolved, hk, htarget] at hf
      exact hf.elim
  | call =>
    cases htarget : f.target with
    | address t =>
      simp only [resolved, hk, htarget] at hf hfin ⊢
      have hr := hcall (by rw [hk]; rfl) _ (ops_append_ne_nil _ (continuationItems_ne_nil _ _))
        (itemsLand_callItems e u f.nextPc (some t)) hf.2 hfin
      exact ⟨hr.patch, hr.tail, hr.ended⟩
    | _ =>
      simp only [resolved, hk, htarget] at hf
      exact hf.elim
  | indirectCall =>
    simp only [resolved, hk] at hf hfin ⊢
    exact hcall (by rw [hk]; rfl) _ (ops_append_ne_nil _ (continuationItems_ne_nil _ _))
      (itemsLand_callItems e u f.nextPc none) hf hfin
  | indirectBranch =>
    cases htarget : f.target with
    | register rm =>
      simp only [resolved, hk, htarget] at hf hfin ⊢
      cases hpc : rm.isPc with
      | true =>
        have hgt : goal? f = some f.pcValue := by simp only [goal?, hk, htarget, hpc, if_true]
        simp only [hpc, if_true] at hf hfin ⊢
        exact directed_lands ha.enter (ha.goal _ hgt) hf hfin
      | false =>
        simp only [hpc, Bool.false_eq_true, if_false] at hf hfin ⊢
        have hstore : Straight [.str .w (pinned rm) .context Record.dispatchAddress] := rfl
        exact hleave _ ((itemsLand_ops hstore).append (itemsLand_leaveItems e)) hf hfin
    | none =>
      simp only [resolved, hk, htarget] at hf hfin ⊢
      exact hleave [] (itemsLand_leaveItems e) hf hfin
    | _ =>
      simp only [resolved, hk, htarget] at hf
      exact hf.elim
  | tableBranch halfword =>
    cases htarget : f.target with
    | registers rn rm =>
      simp only [resolved, hk, htarget] at hf hfin ⊢
      exact hleave _ (itemsLand_tableBranchItems e u _ _ _ _) hf hfin
    | _ =>
      simp only [resolved, hk, htarget] at hf
      exact hf.elim
  | syncPoint =>
    simp only [resolved, hk] at hf hfin ⊢
    exact hcall (by rw [hk]; rfl) _ (ops_append_ne_nil _ (leaveNonzeroItems_ne_nil _))
      (itemsLand_syncPointItems e u _) hf hfin
  | softwareInterrupt imm =>
    simp only [resolved, hk] at hf hfin ⊢
    exact hcall (by rw [hk]; rfl) _ (ops_append_ne_nil _ (continuationItems_ne_nil _ _))
      (itemsLand_trapItems e u _ _ _) hf hfin
  | exception kind imm =>
    simp only [resolved, hk] at hf hfin ⊢
    exact hcall (by rw [hk]; rfl) _ (ops_append_ne_nil _ (continuationItems_ne_nil _ _))
      (itemsLand_trapItems e u _ _ _) hf hfin
  | timerRead =>
    cases htarget : f.target with
    | registers rt rt2 =>
      simp only [resolved, hk, htarget] at hf hfin ⊢
      have hr := hcall (by rw [hk]; rfl) _ (timerReadItems_ne_nil e u rt rt2)
        (fun _ => itemsLand_timerReadItems e u rt rt2) hf.2 hfin
      exact ⟨hr.patch, hr.tail, hr.ended⟩
    | _ =>
      simp only [resolved, hk, htarget] at hf
      exact hf.elim

end Dynarec.Compile
