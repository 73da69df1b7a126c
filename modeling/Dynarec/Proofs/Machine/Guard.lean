import Dynarec.Proofs.Machine.Exec

/-! # Words under a test

A branch on a condition guards the words behind it: if no other branch leads there, and what stands
before one of them leaves the flags, then control comes to that word only while the condition
holds, whatever has been called before. -/

namespace Dynarec.Host

def DataOp.setsFlags : DataOp → Bool
  | adds | subs | adcs | sbcs | ands => true
  | _ => false

/-- Whether the instruction leaves the flags, and calls nothing that could change them. -/
def Instr.keepsFlags : Instr → Bool
  | data op .. => !op.setsFlags
  | msrFlags _ | bl _ | blr _ => false
  | _ => true

theorem DataOp.flags_eval {op : DataOp} (h : op.setsFlags = false) {n : Nat} (f : Nzcv)
    (a b : BitVec n) : (op.eval f a b).2 = f := by
  cases op with
  | adds | subs | adcs | sbcs | ands => cases h
  | _ => rfl

theorem State.jump_eq_some {s t : State} {d : Int} (h : s.jump d = some t) :
    (t.pc : Int) = s.pc + d ∧ t.flags = s.flags := by
  unfold jump at h
  split at h
  · rename_i hd
    cases h
    exact ⟨Int.toNat_of_nonneg hd, rfl⟩
  · cases h

namespace Instr

variable {i : Instr} {s t : State}

/-- A branch is taken, or control goes on to the next word. -/
theorem exec_branch {d : Int} (hd : i.disp? = some d) (h : i.exec s = some t) :
    s.jump d = some t ∨ s.skip 1 = t := by
  cases i with
  | b =>
    cases hd
    exact .inl h
  | bCond c =>
    cases hd
    by_cases hc : c.holds s.flags = true
    · exact .inl ((if_pos hc).symm.trans h)
    · exact .inr (Option.some.inj ((if_neg hc).symm.trans h))
  | cbz rt =>
    cases hd
    by_cases hz : s.low .w rt = 0
    · exact .inl ((if_pos hz).symm.trans h)
    · exact .inr (Option.some.inj ((if_neg hz).symm.trans h))
  | cbnz rt =>
    cases hd
    by_cases hz : s.low .w rt = 0
    · exact .inr (Option.some.inj ((if_pos hz).symm.trans h))
    · exact .inl ((if_neg hz).symm.trans h)
  | bl => cases h
  | _ => cases hd

/-- Control goes on to the next word, or by the displacement. -/
theorem pc_exec_cases (h : i.exec s = some t) :
    t.pc = s.pc + 1 ∨ ∃ d, i.disp? = some d ∧ (t.pc : Int) = s.pc + d := by
  cases hd : i.disp? with
  | none => exact .inl (pc_exec hd h)
  | some d =>
    rcases exec_branch hd h with hjump | rfl
    · exact .inr ⟨d, rfl, (State.jump_eq_some hjump).1⟩
    · exact .inl rfl

theorem flags_exec (hi : i.keepsFlags = true) (h : i.exec s = some t) : t.flags = s.flags := by
  cases hd : i.disp? with
  | some d =>
    rcases exec_branch hd h with hjump | rfl
    · exact (State.jump_eq_some hjump).2
    · rfl
  | none =>
    cases i with
    | b | bCond | cbz | cbnz => cases hd
    | data op width rd rn rm =>
      cases h
      exact DataOp.flags_eval (eq_false_of_ne_true fun hop => by
        rw [keepsFlags, hop] at hi
        cases hi) ..
    | msrFlags rt => cases hi
    | bl | br | blr | ret | brk => cases h
    | _ =>
      cases h
      simp only [State.flags_skip, State.setLow, State.setBase, State.store, State.setV,
        State.flags_set]

end Instr

/-- The branch at `k` guards the words behind it up to `w`. -/
structure Guards (fetch : Nat → Option Instr) (cond : Cond) (k w : Nat) : Prop where
  test : ∃ d, fetch k = some (.bCond cond.invert d)
  keeps : ∀ j i, k < j → j < w → fetch j = some i → i.keepsFlags = true
  avoids : ∀ j i d, fetch j = some i → i.disp? = some d →
    (j : Int) + d ≤ k ∨ (w : Int) < j + d

section Guards

variable {fetch : Nat → Option Instr} {call : State → State → Prop} {cond : Cond} {k w n : Nat}
  {s t : State} (h : Guards fetch cond k w) (hcond : cond ≠ .al)

include h hcond

/-- Control comes to a guarded word from the word before it. -/
theorem Guards.step (hstep : Step fetch call s t)
    (hs : k < s.pc → s.pc ≤ w → cond.holds s.flags = true) (hlo : k < t.pc) (hhi : t.pc ≤ w) :
    cond.holds t.flags = true := by
  cases hstep with
  | call hi hcall hpc =>
    obtain ⟨d, htest⟩ := h.test
    have hne : s.pc ≠ k := by
      rintro rfl
      cases hi.symm.trans htest
    cases h.keeps s.pc _ (by omega) (by omega) hi
  | @exec i _ _ hi hexec =>
    have hpc : t.pc = s.pc + 1 := by
      refine (Instr.pc_exec_cases hexec).resolve_right ?_
      rintro ⟨d, hd, hjump⟩
      have havoid := h.avoids s.pc i d hi hd
      omega
    by_cases hk : s.pc = k
    · -- The branch has not been taken.
      obtain ⟨d, htest⟩ := h.test
      rw [← hk, hi] at htest
      cases htest
      by_cases hfails : cond.invert.holds s.flags = true
      · have havoid := h.avoids s.pc _ d hi rfl
        have hjump := (State.jump_eq_some ((if_pos hfails).symm.trans hexec)).1
        omega
      · cases (if_neg hfails).symm.trans hexec
        rwa [Cond.holds_invert hcond, Bool.not_eq_true, Bool.not_eq_false'] at hfails
    · rw [Instr.flags_exec (h.keeps s.pc i (by omega) (by omega) hi) hexec]
      exact hs (by omega) (by omega)

/-- Along every run that starts elsewhere. -/
theorem Guards.run (hrun : Run fetch call n s t)
    (hs : k < s.pc → s.pc ≤ w → cond.holds s.flags = true) :
    k < t.pc → t.pc ≤ w → cond.holds t.flags = true := by
  induction hrun with
  | refl s => exact hs
  | step hstep _ ih => exact ih (h.step hcond hstep hs)

end Guards

end Dynarec.Host
