import Dynarec.Proofs.Layout

/-! # Where the pieces of a unit stand

The instructions at the indexes of a unit's code: its front, the items of its body, each
placeholder with the sequence that stands out of line for it, and its trailer. -/

namespace Dynarec.Compile

open Dynarec.Emit Dynarec.Lower Dynarec.Resolve

/-! ### Instructions at indexes -/

/-- What stands in a list that is counted from index `k` on has the property there. -/
def AllFrom {α : Type} (P : Nat → α → Prop) (k : Nat) (xs : List α) : Prop :=
  ∀ j x, xs[j]? = some x → P (k + j) x

section AllFrom

variable {α : Type} {P : Nat → α → Prop} {k : Nat}

theorem allFrom_nil : AllFrom P k [] := fun _ _ h => nomatch h

theorem allFrom_append {xs ys : List α} :
    AllFrom P k (xs ++ ys) ↔ AllFrom P k xs ∧ AllFrom P (k + xs.length) ys := by
  constructor
  · intro h
    refine ⟨fun j x hj => h j x ?_, fun j x hj => ?_⟩
    · rw [List.getElem?_append_left (List.getElem?_eq_some_iff.mp hj).1, hj]
    · rw [Nat.add_assoc]
      refine h (xs.length + j) x ?_
      rw [List.getElem?_append_right (Nat.le_add_right _ _), Nat.add_sub_cancel_left, hj]
  · rintro ⟨hx, hy⟩ j x h
    by_cases hlt : j < xs.length
    · rw [List.getElem?_append_left hlt] at h
      exact hx j x h
    · rw [List.getElem?_append_right (Nat.le_of_not_lt hlt)] at h
      have hat := hy (j - xs.length) x h
      rwa [show k + xs.length + (j - xs.length) = k + j by omega] at hat

theorem allFrom_singleton {x : α} : AllFrom P k [x] ↔ P k x := by
  refine ⟨fun h => h 0 x rfl, fun h j y hj => ?_⟩
  cases j with
  | zero =>
    cases hj
    exact h
  | succ j => cases hj

theorem allFrom_cons {x : α} {xs : List α} :
    AllFrom P k (x :: xs) ↔ P k x ∧ AllFrom P (k + 1) xs := by
  rw [← List.singleton_append, allFrom_append, allFrom_singleton, List.length_singleton]

theorem getElem?_of_split {xs ys zs : List α} {x : α} (h : xs = ys ++ x :: zs) :
    xs[ys.length]? = some x := by
  rw [h, List.getElem?_append_right (Nat.le_refl _), Nat.sub_self]
  rfl

/-- Side by side, each of some lists can be looked at on its own. -/
theorem allFrom_flatMap {β : Type} {f : β → List α} {bs : List β}
    (h : ∀ pre b post, bs = pre ++ b :: post → AllFrom P (k + (pre.flatMap f).length) (f b)) :
    AllFrom P k (bs.flatMap f) := by
  induction bs generalizing k with
  | nil => exact allFrom_nil
  | cons b bs ih =>
    rw [List.flatMap_cons, allFrom_append]
    refine ⟨h [] b bs rfl, ih fun pre c post hbs => ?_⟩
    have hc := h (b :: pre) c post (congrArg (b :: ·) hbs)
    rwa [List.flatMap_cons, List.length_append, ← Nat.add_assoc] at hc

/-- Closing exits, each item is looked at where it stands. -/
theorem allFrom_closeItems {P : Nat → Host.Instr → Prop} {trailer k : Nat} {xs : List Item}
    (h : AllFrom (fun m x => P m (closeItem trailer m x)) k xs) :
    AllFrom P k (closeItems trailer k xs) := by
  induction xs generalizing k with
  | nil => exact fun _ _ hj => nomatch hj
  | cons x xs ih =>
    obtain ⟨hx, hxs⟩ := allFrom_cons.mp h
    exact allFrom_cons.mpr ⟨hx, ih hxs⟩

end AllFrom

/-- The instructions stand in the code from index `k` on. -/
def Stands (code : List Host.Instr) : Nat → List Host.Instr → Prop :=
  AllFrom fun k i => code[k]? = some i

theorem stands_of_eq {code pre is post : List Host.Instr} {k : Nat}
    (h : code = pre ++ (is ++ post)) (hk : pre.length = k) : Stands code k is := by
  intro j i hj
  have hlt := (List.getElem?_eq_some_iff.mp hj).1
  rw [h, ← hk, List.getElem?_append_right (Nat.le_add_right _ _), Nat.add_sub_cancel_left,
    List.getElem?_append_left hlt, hj]

/-- A part of what stands somewhere stands there too. -/
theorem Stands.part {code pre is post : List Host.Instr} {k m : Nat}
    (h : Stands code k (pre ++ (is ++ post))) (hm : m = k + pre.length) : Stands code m is := by
  rw [hm]
  exact (allFrom_append.mp (allFrom_append.mp h).2).1

/-! ### Pieces -/

theorem itemsOf_append (ps qs : List (Item × List Item)) :
    itemsOf (ps ++ qs) = itemsOf ps ++ itemsOf qs := List.map_append

theorem tailsOf_append (ps qs : List (Item × List Item)) :
    tailsOf (ps ++ qs) = tailsOf ps ++ tailsOf qs := List.flatMap_append

theorem pieces_append (e : Setting) (u : RegisterUse) (targets : Word → Option Nat) (k n : Nat)
    (xs ys : List Item) :
    pieces e u targets k n (xs ++ ys) = pieces e u targets k n xs ++
      pieces e u targets (k + xs.length) (n + (tailsOf (pieces e u targets k n xs)).length) ys := by
  induction xs generalizing k n with
  | nil => rfl
  | cons x xs ih =>
    have htails : tailsOf (pieces e u targets k n (x :: xs)) =
        (piece e u targets k n x).2 ++ tailsOf (pieces e u targets (k + 1)
          (n + (piece e u targets k n x).2.length) xs) := List.flatMap_cons
    rw [List.cons_append, pieces, ih, htails, List.length_append, List.length_cons]
    simp only [pieces, List.cons_append, Nat.add_assoc, Nat.add_comm 1]

theorem resolveFits_append {e : Setting} {u : RegisterUse} {targets : Word → Option Nat} {k n : Nat}
    {xs ys : List Item} :
    ResolveFits e u targets k n (xs ++ ys) ↔ ResolveFits e u targets k n xs ∧
      ResolveFits e u targets (k + xs.length) (n + (tailsOf (pieces e u targets k n xs)).length)
        ys := by
  induction xs generalizing k n with
  | nil => exact (and_iff_right trivial).symm
  | cons x xs ih =>
    have htails : tailsOf (pieces e u targets k n (x :: xs)) =
        (piece e u targets k n x).2 ++ tailsOf (pieces e u targets (k + 1)
          (n + (piece e u targets k n x).2.length) xs) := List.flatMap_cons
    rw [List.cons_append, ResolveFits, ResolveFits, ih, htails, List.length_append,
      List.length_cons, and_assoc]
    simp only [Nat.add_assoc, Nat.add_comm 1]

namespace Plan

variable {p : Plan}

/-- Where the sequence of the next placeholder behind the items `ys` of the body stands. -/
def tailAt (p : Plan) (ys : List Item) : Nat :=
  p.room + p.body.length +
    (tailsOf (Resolve.pieces p.setting p.use p.targets p.room (p.room + p.body.length) ys)).length

/-- What becomes of the items `xs` of the body that stand behind the items `ys`. -/
def piecesAt (p : Plan) (ys xs : List Item) : List (Item × List Item) :=
  Resolve.pieces p.setting p.use p.targets (p.room + ys.length) (p.tailAt ys) xs

theorem length_itemsOf_piecesAt (ys xs : List Item) :
    (itemsOf (p.piecesAt ys xs)).length = xs.length := by
  rw [itemsOf, List.length_map]
  exact length_pieces ..

theorem tailAt_append (ys xs : List Item) :
    p.tailAt (ys ++ xs) = p.tailAt ys + (tailsOf (p.piecesAt ys xs)).length := by
  simp only [tailAt, piecesAt, pieces_append, tailsOf_append, List.length_append, Nat.add_assoc]

theorem le_tailAt (ys : List Item) : p.room + p.body.length ≤ p.tailAt ys := Nat.le_add_right _ _

theorem piecesAt_append (ys xs zs : List Item) :
    p.piecesAt ys (xs ++ zs) = p.piecesAt ys xs ++ p.piecesAt (ys ++ xs) zs := by
  have hnext : p.tailAt (ys ++ xs) = p.tailAt ys + _ := tailAt_append ys xs
  have hlen : p.room + (ys ++ xs).length = p.room + ys.length + xs.length := by
    rw [List.length_append, Nat.add_assoc]
  unfold piecesAt at *
  rw [hnext, hlen, pieces_append]

theorem pieces_eq_piecesAt : p.pieces = p.piecesAt [] p.body := rfl

theorem pieces_eq {ys xs zs : List Item} (h : p.body = ys ++ (xs ++ zs)) :
    p.pieces = p.piecesAt [] ys ++ (p.piecesAt ys xs ++ p.piecesAt (ys ++ xs) zs) := by
  rw [pieces_eq_piecesAt, h, piecesAt_append, piecesAt_append, List.nil_append]

/-- What becomes of a placeholder of the body. -/
theorem piecesAt_hole {ys : List Item} {x : Item} {f : Fixup}
    (hf : x.fixup? (p.room + ys.length) = some f) :
    p.piecesAt ys [x] = [(.op (resolved p.setting p.use p.targets f (p.tailAt ys)).patch,
      (resolved p.setting p.use p.targets f (p.tailAt ys)).tail)] := by
  simp only [piecesAt, Resolve.pieces, piece, hf]

/-- The sequence of a placeholder stands between those of the placeholders around it. -/
theorem tailAt_hole {ys : List Item} {x : Item} {f : Fixup}
    (hf : x.fixup? (p.room + ys.length) = some f) :
    p.tailAt (ys ++ [x]) = p.tailAt ys +
      (resolved p.setting p.use p.targets f (p.tailAt ys)).tail.length := by
  rw [tailAt_append, piecesAt_hole hf, tailsOf, List.flatMap_singleton]

/-- A placeholder of the body is resolved where it can reach what it leads to. -/
theorem Fits.hole (hf : p.Fits) {ys zs : List Item} {x : Item} (h : p.body = ys ++ x :: zs) {f : Fixup}
    (hx : x.fixup? (p.room + ys.length) = some f) :
    (resolved p.setting p.use p.targets f (p.tailAt ys)).fits := by
  have hfits := hf.resolve
  rw [h] at hfits
  have hrest := (resolveFits_append.mp hfits).2
  rw [← h] at hrest
  exact hrest.1 f hx

/-- Each piece belongs to an item of the body. -/
theorem mem_pieces {q : Item × List Item} (hq : q ∈ p.pieces) :
    ∃ ys x zs, p.body = ys ++ x :: zs ∧ p.piecesAt ys [x] = [q] := by
  obtain ⟨as, bs, has⟩ := List.append_of_mem hq
  have hlen : p.pieces.length = p.body.length := length_pieces ..
  have hlt : as.length < p.body.length := by
    rw [← hlen, has, List.length_append, List.length_cons]
    omega
  have hbody : p.body = p.body.take as.length ++ p.body[as.length] :: p.body.drop (as.length + 1) := by
    rw [← List.drop_eq_getElem_cons hlt, List.take_append_drop]
  refine ⟨_, _, _, hbody, ?_⟩
  rw [← List.singleton_append] at hbody
  have hpieces := (pieces_eq hbody).symm.trans has
  have htake : (p.piecesAt [] (p.body.take as.length)).length = as.length := by
    rw [show (p.piecesAt [] (p.body.take as.length)).length = _ from length_pieces ..,
      List.length_take]
    omega
  have hrest := (List.append_inj hpieces htake).2
  rw [← List.singleton_append] at hrest
  exact (List.append_inj hrest (length_pieces ..)).1

/-- What holds of everything between the prologue and the trailer: it is enough to look at the
finished items of the body, and at each placeholder with its sequence. -/
theorem allFrom_main {P : Nat → Item → Prop}
    (hplain : ∀ ys x zs, p.body = ys ++ x :: zs → x.fixup? (p.room + ys.length) = none →
      P (p.room + ys.length) x)
    (hfix : ∀ ys x zs f, p.body = ys ++ x :: zs → x.fixup? (p.room + ys.length) = some f →
      P (p.room + ys.length) (.op (resolved p.setting p.use p.targets f (p.tailAt ys)).patch) ∧
        AllFrom P (p.tailAt ys) (resolved p.setting p.use p.targets f (p.tailAt ys)).tail) :
    AllFrom P p.room p.main := by
  have hpieces : ∀ xs ys, p.body = ys ++ xs →
      AllFrom P (p.room + ys.length) (itemsOf (p.piecesAt ys xs)) ∧
        AllFrom P (p.tailAt ys) (tailsOf (p.piecesAt ys xs)) := by
    intro xs
    induction xs with
    | nil => exact fun ys _ => ⟨allFrom_nil, allFrom_nil⟩
    | cons x xs ih =>
      intro ys hys
      have hlen : p.room + (ys ++ [x]).length = p.room + ys.length + 1 := by
        rw [List.length_append, List.length_singleton, Nat.add_assoc]
      obtain ⟨hitems, htails⟩ := ih (ys ++ [x]) (by rw [hys, List.append_assoc]; rfl)
      rw [← List.singleton_append, piecesAt_append, itemsOf_append, tailsOf_append, allFrom_append,
        allFrom_append, length_itemsOf_piecesAt, List.length_singleton, ← hlen, ← tailAt_append]
      cases hx : x.fixup? (p.room + ys.length) with
      | none =>
        have hpiece : p.piecesAt ys [x] = [(x, [])] := by
          simp only [piecesAt, Resolve.pieces, piece, hx]
        rw [hpiece]
        exact ⟨⟨allFrom_singleton.mpr (hplain ys x xs hys hx), hitems⟩, allFrom_nil, htails⟩
      | some f =>
        obtain ⟨hpatch, htail⟩ := hfix ys x xs f hys hx
        rw [piecesAt_hole hx]
        refine ⟨⟨allFrom_singleton.mpr hpatch, hitems⟩, ?_, htails⟩
        rwa [tailsOf, List.flatMap_singleton]
  obtain ⟨hitems, htails⟩ := hpieces p.body [] rfl
  refine allFrom_append.mpr ⟨hitems, ?_⟩
  rw [show (itemsOf p.pieces).length = p.body.length from length_itemsOf_piecesAt [] p.body]
  exact htails

theorem length_front (hf : p.Fits) : (frontOf p.prologue p.room).length = p.room := by
  have hle := hf.front.1
  unfold frontOf
  split
  · rw [List.length_append, List.length_cons, List.length_replicate]
    omega
  · rw [List.length_append, List.length_nil]
    omega

theorem stands_front : Stands p.code 0 (frontOf p.prologue p.room) :=
  stands_of_eq (List.nil_append p.code).symm rfl

theorem stands_main (hf : p.Fits) : Stands p.code p.room (closeItems p.finish p.room p.main) :=
  stands_of_eq rfl (length_front hf)

theorem stands_trailer (hf : p.Fits) : Stands p.code p.finish p.trailer := by
  have hcode : p.code = (frontOf p.prologue p.room ++ closeItems p.finish p.room p.main) ++
      (p.trailer ++ []) := by
    rw [List.append_nil, List.append_assoc]
    rfl
  refine stands_of_eq hcode ?_
  rw [List.length_append, length_front hf, length_closeItems]
  rfl

/-- Items between the prologue and the trailer stand where they are counted. -/
theorem stands_part (hf : p.Fits) {ys xs zs : List Item} (h : p.main = ys ++ (xs ++ zs)) {k : Nat}
    (hk : k = p.room + ys.length) : Stands p.code k (closeItems p.finish k xs) := by
  have hmain := stands_main hf
  rw [h, closeItems_append, closeItems_append, ← hk] at hmain
  exact hmain.part (by rw [length_closeItems, hk])

/-- The items of the body that stand behind `ys` come right there, in the form they have in the
end. -/
theorem stands_items (hf : p.Fits) {ys xs zs : List Item} (h : p.body = ys ++ (xs ++ zs)) :
    Stands p.code (p.room + ys.length)
      (closeItems p.finish (p.room + ys.length) (itemsOf (p.piecesAt ys xs))) := by
  have hmain : p.main = itemsOf (p.piecesAt [] ys) ++ (itemsOf (p.piecesAt ys xs) ++
      (itemsOf (p.piecesAt (ys ++ xs) zs) ++ tailsOf p.pieces)) := by
    rw [Plan.main, pieces_eq h]
    simp only [itemsOf_append, List.append_assoc]
  exact stands_part hf hmain (by rw [length_itemsOf_piecesAt])

/-- The sequences for items of the body behind `ys` are counted from where `tailAt` says. -/
theorem main_eq_tails {ys xs zs : List Item} (h : p.body = ys ++ (xs ++ zs)) :
    ∃ as bs, p.main = as ++ (tailsOf (p.piecesAt ys xs) ++ bs) ∧ p.tailAt ys = p.room + as.length := by
  refine ⟨itemsOf p.pieces ++ tailsOf (p.piecesAt [] ys), tailsOf (p.piecesAt (ys ++ xs) zs), ?_, ?_⟩
  · rw [Plan.main, pieces_eq h]
    simp only [itemsOf_append, tailsOf_append, List.append_assoc]
  · have hitems : (itemsOf p.pieces).length = p.body.length := by
      rw [itemsOf, List.length_map]
      exact length_pieces ..
    rw [List.length_append, hitems, ← Nat.add_assoc]
    rfl

/-- The sequences for items of the body behind `ys` come one after the other. -/
theorem stands_tails (hf : p.Fits) {ys xs zs : List Item} (h : p.body = ys ++ (xs ++ zs)) :
    Stands p.code (p.tailAt ys) (closeItems p.finish (p.tailAt ys) (tailsOf (p.piecesAt ys xs))) := by
  obtain ⟨as, bs, hmain, hat⟩ := main_eq_tails h
  exact stands_part hf hmain hat

theorem exits_tails {ys xs zs : List Item} (h : p.body = ys ++ (xs ++ zs)) :
    exitsFrom (p.tailAt ys) (tailsOf (p.piecesAt ys xs)) ⊆ p.exits := by
  obtain ⟨as, bs, hmain, hat⟩ := main_eq_tails h
  intro x hx
  rw [Plan.exits, hmain, exitsFrom_append, exitsFrom_append, ← hat]
  exact List.mem_append_right _ (List.mem_append_left _ hx)

end Plan

end Dynarec.Compile
