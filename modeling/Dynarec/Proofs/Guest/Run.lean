import Dynarec.Proofs.Guest.Address
import Dynarec.Proofs.Machine.Guest

/-! # Runs of consecutive instructions

Consecutive instructions have addresses of their own, so the instruction at the program counter is
the one that stands there. -/

namespace Dynarec.Guest

theorem steps_add (is : List Instr) (n k : Nat) (σ : State) :
    steps is (n + k) σ = (steps is n σ).bind (steps is k) := by
  induction n generalizing σ with
  | zero =>
    rw [Nat.zero_add]
    rfl
  | succ n ih =>
    rw [Nat.add_right_comm, steps, steps]
    cases step is σ with
    | none => rfl
    | some σ' => exact ih σ'

theorem steps_one (is : List Instr) (σ : State) : steps is 1 σ = step is σ := by
  show (step is σ).bind some = step is σ
  cases step is σ <;> rfl

/-- The instruction at the program counter is the one that stands there. -/
theorem step_eq {a z : Word} {is js : List Instr} {i : Instr}
    (h : Consecutive a (is ++ i :: js) z) (hl : ∀ j ∈ is ++ i :: js, j.Low) {σ : State}
    (hpc : σ.pc = i.address) : step (is ++ i :: js) σ = i.step σ := by
  have hi := h.toNat_address fun j hj => hl j (List.mem_append_left _ hj)
  have hnone : is.find? (·.address == σ.pc) = none := by
    refine List.find?_eq_none.mpr fun j hj heq => ?_
    obtain ⟨ks, ls, rfl⟩ := List.append_of_mem hj
    rw [List.append_assoc, List.cons_append] at h hl
    have hj := h.toNat_address fun k hk => hl k (List.mem_append_left _ hk)
    rw [beq_iff_eq.mp heq, hpc, List.length_append, List.length_cons] at *
    omega
  have hfound : (i :: js).find? (·.address == σ.pc) = some i :=
    List.find?_cons_of_pos (beq_iff_eq.mpr hpc.symm)
  unfold step
  rw [List.find?_append, hnone, Option.none_or, hfound]
  rfl

/-- An instruction that sets no flags leaves them. -/
theorem flags_step {i : Instr} (hi : i.Regular) (hs : i.setsFlags = false) {σ σ' : State}
    (h : i.step σ = some σ') : σ'.flags = σ.flags := by
  have hput : ∀ (rd : Gpr) (value next : Word),
      ((σ.setFlags σ.flags).put rd value next).flags = σ.flags := by
    intro rd value next
    unfold State.put
    split <;> rfl
  unfold Instr.step at h
  split at h
  · unfold Instr.effect at h
    cases hk : i.kind with
    | alu op rd rn o =>
      simp only [hk, hs, Bool.false_eq_true, if_false] at h
      cases h
      exact hput ..
    | move rd o negate =>
      simp only [hk, hs, Bool.false_eq_true, if_false] at h
      cases h
      exact hput ..
    | compare op rn o =>
      rw [Instr.setsFlags, hi.compare op rn o hk] at hs
      cases hs
    | vmove | branch | branchExchange | nop =>
      simp only [hk] at h
      cases h
      rfl
    | _ => simp only [hk, reduceCtorEq] at h
  · cases h
    rfl

/-- Consecutive instructions that do not take effect are passed over. -/
theorem steps_skip {a z : Word} {is js ks : List Instr} (h : Consecutive a (is ++ (js ++ ks)) z)
    (hl : ∀ j ∈ is ++ (js ++ ks), j.Low) {σ : State} {m : Word} (hjs : Consecutive σ.pc js m)
    (hc : ∀ j ∈ js, j.cond.holds σ.flags = false) :
    steps (is ++ (js ++ ks)) js.length σ = some (σ.goto m) := by
  induction js generalizing is σ with
  | nil =>
    cases hjs
    rfl
  | cons j js ih =>
    obtain ⟨hj, hrest⟩ := hjs
    have hstep : step (is ++ (j :: js ++ ks)) σ = some (σ.goto j.nextPc) := by
      rw [List.cons_append] at h hl ⊢
      rw [step_eq h hl hj.symm, (hl j ?_).regular.nextPc]
      · exact if_neg (by rw [hc j List.mem_cons_self]; exact Bool.false_ne_true)
      · exact List.mem_append_right _ List.mem_cons_self
    have hassoc : is ++ (j :: js ++ ks) = (is ++ [j]) ++ (js ++ ks) := by
      rw [List.append_assoc]
      rfl
    rw [List.length_cons, steps, hstep, Option.bind_some]
    rw [hassoc] at h hl ⊢
    exact ih h hl (σ := σ.goto j.nextPc) hrest fun k hk => hc k (List.mem_cons_of_mem _ hk)

end Dynarec.Guest
