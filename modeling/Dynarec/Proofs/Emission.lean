import Dynarec.Emit.Exit
import Dynarec.Emit.Region

/-! # Runs of emission actions

What the actions of an emission do to its state. Code in the making is a list of items: finished
instructions, placeholders with their fixups, and branches to the trailer. Almost every action
only extends the code by items, so one operation, `Emission.extend`, describes them all. -/

namespace Dynarec.Emit

/-! ### Sequencing -/

section Sequencing

variable {α β : Type} (st : Setting) (s : Emission)

@[simp] theorem run_pure (a : α) : (pure a : Emit α) st s = .ok a s := rfl

@[simp] theorem run_bind (m : Emit α) (f : α → Emit β) :
    (m >>= f) st s = match m st s with
      | .ok a s' => f a st s'
      | .error e s' => .error e s' := by
  show EStateM.bind (m st) (fun a => f a st) s = _
  unfold EStateM.bind
  cases m st s <;> rfl

@[simp] theorem run_get : (get : Emit Emission) st s = .ok s s := rfl

@[simp] theorem run_read : (read : Emit Setting) st s = .ok st s := rfl

@[simp] theorem run_modify (f : Emission → Emission) :
    (modify f : Emit Unit) st s = .ok () (f s) := rfl

@[simp] theorem run_modifyGet (f : Emission → α × Emission) :
    (modifyGet f : Emit α) st s = .ok (f s).1 (f s).2 := rfl

@[simp] theorem run_fail (e : EmitError) : (fail e : Emit α) st s = .error (.error e) s := rfl

@[simp] theorem run_abort : (abort : Emit α) st s = .error .abort s := rfl

@[simp] theorem run_ite (p : Prop) [Decidable p] (m n : Emit α) :
    (if p then m else n) st s = if p then m st s else n st s := by
  split <;> rfl

@[simp] theorem run_discard (m : Emit α) :
    (discard m) st s = match m st s with
      | .ok _ s' => .ok () s'
      | .error e s' => .error e s' := by
  show EStateM.map _ (m st) s = _
  unfold EStateM.map
  cases m st s <;> rfl

/-- The first of two actions done, the second remains. -/
theorem bind_run_ok {m : Emit α} {f : α → Emit β} {st : Setting} {s s' : Emission} {a : α}
    (h : m st s = .ok a s') : (m >>= f) st s = f a st s' := by
  rw [run_bind, h]

theorem bind_run_error {m : Emit α} {f : α → Emit β} {st : Setting} {s s' : Emission} {e : Fault}
    (h : m st s = .error e s') : (m >>= f) st s = .error e s' := by
  rw [run_bind, h]

section Finally

variable {m : Emit α} {last : Emit Unit} {st : Setting} {s s' s'' : Emission}

theorem finally_run_ok {a : α} (h : m st s = .ok a s') (hlast : last st s' = .ok () s'') :
    (try m finally last) st s = .ok a s'' := by
  simp only [tryFinally, tryFinally', Functor.map, EStateM.map, h, hlast]

/-- What is done at last does not hide a fault. -/
theorem finally_run_error {e : Fault} (h : m st s = .error e s') (hlast : last st s' = .ok () s'') :
    (try m finally last) st s = .error e s'' := by
  simp only [tryFinally, tryFinally', Functor.map, EStateM.map, h, hlast]

end Finally

/-- A sequence of two actions ends well exactly when both do. -/
theorem bind_eq_ok {m : Emit α} {f : α → Emit β} {st : Setting} {s s'' : Emission} {b : β} :
    (m >>= f) st s = .ok b s'' ↔ ∃ a s', m st s = .ok a s' ∧ f a st s' = .ok b s'' := by
  rw [run_bind]
  constructor
  · intro h
    cases hm : m st s with
    | ok a s' => exact ⟨a, s', rfl, by simpa only [hm] using h⟩
    | error e s' => simp only [hm, reduceCtorEq] at h
  · rintro ⟨a, s', hm, hf⟩
    simp only [hm, hf]

/-- From `s` the action ends well exactly when `p` holds, and then with `a` and `s'`. -/
structure Yields (m : Emit α) (st : Setting) (s : Emission) (p : Prop) (a : α) (s' : Emission) :
    Prop where
  run : p → m st s = .ok a s'
  of_ok : ∀ b t, m st s = .ok b t → p

variable {st} {s} {s' s'' : Emission} {p q : Prop} {a : α} {b : β}

theorem Yields.of_run {m : Emit α} (h : m st s = .ok a s') : Yields m st s True a s' :=
  ⟨fun _ => h, fun _ _ _ => trivial⟩

theorem Yields.of_error {m : Emit α} {f : Fault} (h : m st s = .error f s'') :
    Yields m st s False a s' := by
  refine ⟨False.elim, fun c t hok => ?_⟩
  rw [h] at hok
  cases hok

theorem Yields.of_ite {m : Emit α} [Decidable p] {f : Fault}
    (h : m st s = if p then .ok a s' else .error f s'') : Yields m st s p a s' := by
  constructor
  · intro hp
    rw [h, if_pos hp]
  · intro c t hok
    by_cases hp : p
    · exact hp
    · rw [h, if_neg hp] at hok
      cases hok

theorem Yields.bind {m : Emit α} {f : α → Emit β} (h : Yields m st s p a s')
    (h' : Yields (f a) st s' q b s'') : Yields (m >>= f) st s (p ∧ q) b s'' := by
  constructor
  · intro hpq
    rw [bind_run_ok (h.run hpq.1), h'.run hpq.2]
  · intro c t hok
    obtain ⟨a', t', hm, hf⟩ := bind_eq_ok.mp hok
    have hp := h.of_ok a' t' hm
    rw [h.run hp] at hm
    cases hm
    exact ⟨hp, h'.of_ok c t hf⟩

/-- An action that always ends well adds no condition. -/
theorem Yields.after {m : Emit α} {f : α → Emit β} (h : m st s = .ok a s')
    (h' : Yields (f a) st s' p b s'') : Yields (m >>= f) st s p b s'' := by
  constructor
  · intro hp
    rw [bind_run_ok h, h'.run hp]
  · intro c t hok
    rw [bind_run_ok h] at hok
    exact h'.of_ok c t hok

/-- An action that always ends well may also come last. -/
theorem Yields.before {m : Emit α} {f : α → Emit β} (h : Yields m st s p a s')
    (h' : f a st s' = .ok b s'') : Yields (m >>= f) st s p b s'' := by
  constructor
  · intro hp
    rw [bind_run_ok (h.run hp), h']
  · intro c t hok
    obtain ⟨a', t', hm, -⟩ := bind_eq_ok.mp hok
    exact h.of_ok a' t' hm

/-- Actions that run alike yield alike. -/
theorem Yields.of_eq {m n : Emit α} {t : Emission} (heq : m st s = n st t)
    (h : Yields n st t p a s') : Yields m st s p a s' :=
  ⟨fun hp => heq.trans (h.run hp), fun c r hok => h.of_ok c r (heq.symm.trans hok)⟩

theorem bind_run_eq {m n : Emit α} {f : α → Emit β} {t : Emission} (heq : m st s = n st t) :
    (m >>= f) st s = (n >>= f) st t := by
  rw [run_bind, run_bind, heq]

theorem Yields.congr {m : Emit α} (h : Yields m st s p a s') (hpq : p ↔ q) :
    Yields m st s q a s' :=
  ⟨fun hq => h.run (hpq.mpr hq), fun c t hok => hpq.mp (h.of_ok c t hok)⟩

end Sequencing

/-! ### Items -/

/-- One word of code in the making. -/
inductive Item where
  /-- A finished instruction. -/
  | op (i : Host.Instr)
  /-- A placeholder and what its fixup says, the place apart. -/
  | hole (kind : FixupKind) (target : FixupTarget) (current : Current)
  /-- The branch of an exit, which will lead to the trailer. -/
  | exit (condition : ExitCondition)

namespace Item

/-- The instruction that stands for the item until it is finished. -/
def instr : Item → Host.Instr
  | op i => i
  | hole kind _ _ => kind.placeholder
  | exit _ => .b 0

def word (x : Item) : Word := x.instr.encode

/-- The fixup of an item at an index. -/
def fixup? (site : Nat) : Item → Option Fixup
  | hole kind target c => some ⟨kind, target, site, c.pc, c.nextPc, c.pcValue⟩
  | _ => none

/-- The exit of an item at an index. -/
def exit? (site : Nat) : Item → Option Exit
  | exit condition => some ⟨condition, site⟩
  | _ => none

end Item

/-- Finished instructions as items. -/
def ops (is : List Host.Instr) : List Item := is.map .op

/-- The fixups of items that stand from index `n` on. -/
def fixupsFrom (n : Nat) : List Item → List Fixup
  | [] => []
  | x :: rest => (x.fixup? n).toList ++ fixupsFrom (n + 1) rest

/-- The exits of items that stand from index `n` on. -/
def exitsFrom (n : Nat) : List Item → List Exit
  | [] => []
  | x :: rest => (x.exit? n).toList ++ exitsFrom (n + 1) rest

@[simp] theorem ops_nil : ops [] = [] := rfl

@[simp] theorem ops_cons (i : Host.Instr) (is : List Host.Instr) :
    ops (i :: is) = .op i :: ops is := rfl

@[simp] theorem ops_append (is js : List Host.Instr) : ops (is ++ js) = ops is ++ ops js :=
  List.map_append

@[simp] theorem length_ops (is : List Host.Instr) : (ops is).length = is.length :=
  List.length_map ..

theorem fixupsFrom_append (n : Nat) (xs ys : List Item) :
    fixupsFrom n (xs ++ ys) = fixupsFrom n xs ++ fixupsFrom (n + xs.length) ys := by
  induction xs generalizing n with
  | nil => rfl
  | cons x xs ih =>
    have hn : n + 1 + xs.length = n + (x :: xs).length := by
      rw [List.length_cons]
      omega
    simp only [List.cons_append, fixupsFrom, ih, hn, List.append_assoc]

theorem exitsFrom_append (n : Nat) (xs ys : List Item) :
    exitsFrom n (xs ++ ys) = exitsFrom n xs ++ exitsFrom (n + xs.length) ys := by
  induction xs generalizing n with
  | nil => rfl
  | cons x xs ih =>
    have hn : n + 1 + xs.length = n + (x :: xs).length := by
      rw [List.length_cons]
      omega
    simp only [List.cons_append, exitsFrom, ih, hn, List.append_assoc]

@[simp] theorem fixupsFrom_ops (n : Nat) (is : List Host.Instr) : fixupsFrom n (ops is) = [] := by
  induction is generalizing n with
  | nil => rfl
  | cons i is ih => exact ih (n + 1)

@[simp] theorem exitsFrom_ops (n : Nat) (is : List Host.Instr) : exitsFrom n (ops is) = [] := by
  induction is generalizing n with
  | nil => rfl
  | cons i is ih => exact ih (n + 1)

/-! ### Extending the code -/

namespace Emission

/-- The emission with items appended to its code. -/
def extend (s : Emission) (xs : List Item) : Emission :=
  { s with
    code := s.code ++ (xs.map Item.word).toArray
    fixups := s.fixups ++ (fixupsFrom s.code.size xs).toArray
    exits := s.exits ++ (exitsFrom s.code.size xs).toArray }

/-- The emission with another register use. -/
def withRegs (s : Emission) (u : RegisterUse) : Emission := { s with regs := u }

@[simp] theorem extend_nil (s : Emission) : s.extend [] = s := by
  simp only [extend, List.map_nil, fixupsFrom, exitsFrom, Array.append_empty]

/-- Finished instructions only add their words. -/
theorem extend_ops (s : Emission) (is : List Host.Instr) :
    s.extend (ops is) = { s with code := s.code ++ (is.map Host.Instr.encode).toArray } := by
  have hwords : (ops is).map Item.word = is.map Host.Instr.encode := List.map_map
  simp only [extend, fixupsFrom_ops, exitsFrom_ops, Array.append_empty, hwords]

@[simp] theorem extend_extend (s : Emission) (xs ys : List Item) :
    (s.extend xs).extend ys = s.extend (xs ++ ys) := by
  have hsize : (s.code ++ (xs.map Item.word).toArray).size = s.code.size + xs.length := by
    simp only [Array.size_append, List.size_toArray, List.length_map]
  simp only [extend, hsize, fixupsFrom_append, exitsFrom_append, List.map_append,
    Array.append_assoc, List.append_toArray]

@[simp] theorem size_extend (s : Emission) (xs : List Item) :
    (s.extend xs).code.size = s.code.size + xs.length := by
  simp only [extend, Array.size_append, List.size_toArray, List.length_map]

@[simp] theorem regs_extend (s : Emission) (xs : List Item) : (s.extend xs).regs = s.regs := rfl

@[simp] theorem region_extend (s : Emission) (xs : List Item) :
    (s.extend xs).region = s.region := rfl

@[simp] theorem targets_extend (s : Emission) (xs : List Item) :
    (s.extend xs).targets = s.targets := rfl

@[simp] theorem current_extend (s : Emission) (xs : List Item) :
    (s.extend xs).current = s.current := rfl

@[simp] theorem regs_withRegs (s : Emission) (u : RegisterUse) : (s.withRegs u).regs = u := rfl

@[simp] theorem code_withRegs (s : Emission) (u : RegisterUse) :
    (s.withRegs u).code = s.code := rfl

@[simp] theorem current_withRegs (s : Emission) (u : RegisterUse) :
    (s.withRegs u).current = s.current := rfl

@[simp] theorem withRegs_withRegs (s : Emission) (u v : RegisterUse) :
    (s.withRegs u).withRegs v = s.withRegs v := rfl

@[simp] theorem withRegs_self (s : Emission) : s.withRegs s.regs = s := rfl

@[simp] theorem withRegs_extend (s : Emission) (xs : List Item) (u : RegisterUse) :
    (s.extend xs).withRegs u = (s.withRegs u).extend xs := rfl

/-- The emission with an instruction written over one word. -/
def write (s : Emission) (k : Nat) (i : Host.Instr) : Emission :=
  { s with code := s.code.setIfInBounds k i.encode }

/-- An instruction behind which nothing was noted can be replaced. -/
theorem write_extend_op (s : Emission) (i j : Host.Instr) (xs : List Item) :
    (s.extend (.op i :: xs)).write s.code.size j = s.extend (.op j :: xs) := by
  have hcode : (s.code ++ ((Item.op i :: xs).map Item.word).toArray).setIfInBounds s.code.size
      j.encode = s.code ++ ((Item.op j :: xs).map Item.word).toArray := by
    apply Array.ext'
    simp only [Array.toList_setIfInBounds, Array.toList_append, List.map_cons,
      ← Array.length_toList, List.set_append_right _ _ (Nat.le_refl _), Nat.sub_self,
      List.set_cons_zero]
    rfl
  simp only [write, extend, hcode]
  rfl

end Emission

theorem writeWord_run {k : Nat} (w : Word) (st : Setting) {s : Emission} (h : k < s.code.size) :
    writeWord k w st s = .ok () { s with code := s.code.setIfInBounds k w } := by
  simp only [writeWord, run_bind, run_get, run_ite, h, if_true, run_modify]

theorem writeInstr_run {k : Nat} {i : Host.Instr} (hi : i.isEncodable = true) (st : Setting)
    {s : Emission} (h : k < s.code.size) : writeInstr k i st s = .ok () (s.write k i) := by
  simp only [writeInstr, Host.Instr.encode?, hi, if_true]
  exact writeWord_run _ st h

@[simp] theorem ip_run (st : Setting) (s : Emission) : ip st s = .ok s.code.size s := rfl

theorem emitInstr_run {i : Host.Instr} (hi : i.isEncodable = true) (st : Setting) (s : Emission) :
    emitInstr i st s =
      .ok s.code.size { s with code := s.code.push i.encode } := by
  simp only [emitInstr, Host.Instr.encode?, hi, if_true, emitWord, run_modifyGet]

/-- Every instruction of a list can be written. -/
def Encodable (is : List Host.Instr) : Prop := is.all Host.Instr.isEncodable = true

theorem Encodable.append {is js : List Host.Instr} (hi : Encodable is) (hj : Encodable js) :
    Encodable (is ++ js) := by
  unfold Encodable at *
  rw [List.all_append, hi, hj, Bool.true_and]

theorem encodable_iff {is : List Host.Instr} :
    Encodable is ↔ ∀ i ∈ is, i.isEncodable = true := List.all_eq_true

@[simp] theorem encodable_nil : Encodable [] := rfl

@[simp] theorem encodable_cons {i : Host.Instr} {is : List Host.Instr} :
    Encodable (i :: is) ↔ i.isEncodable = true ∧ Encodable is := by
  unfold Encodable
  rw [List.all_cons, Bool.and_eq_true]

/-- Instructions that can be written extend the code. -/
theorem asm_run {is : List Host.Instr} (h : Encodable is) (st : Setting) (s : Emission) :
    asm is st s = .ok () (s.extend (ops is)) := by
  induction is generalizing s with
  | nil => simp only [asm, run_pure, ops_nil, Emission.extend_nil]
  | cons i is ih =>
    obtain ⟨hi, his⟩ := encodable_cons.mp h
    have hpush : { s with code := s.code.push i.encode } = s.extend [.op i] := by
      simp only [Emission.extend, fixupsFrom, exitsFrom, Item.fixup?, Item.exit?, Item.word,
        Item.instr, List.map_cons, List.map_nil, Option.toList_none, List.append_nil,
        Array.append_empty, Array.push_eq_append]
    simp only [asm, run_bind, emitInstr_run hi, hpush]
    rw [ih his, Emission.extend_extend]
    rfl

end Dynarec.Emit
