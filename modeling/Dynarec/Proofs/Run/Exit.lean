import Dynarec.Proofs.Compiled

/-! # Branches and exits of running code

Where control comes from a branch whose displacement was counted, and how an exit leaves for the
trailer: the guest address is written to the record, and the code address for it is loaded. -/

namespace Dynarec.Host

open Dynarec.Emit

/-! ### Control -/

/-- Control comes from `s` to `t` without a call. -/
def Leads (fetch : Nat → Option Instr) (s t : State) : Prop := ∃ n, Execs fetch n s t

/-- Control comes from `s` to `t` without a call, and not without a step. -/
def Advances (fetch : Nat → Option Instr) (s t : State) : Prop := ∃ n, Execs fetch (n + 1) s t

section Leads

variable {fetch : Nat → Option Instr} {s s' t : State}

theorem Leads.refl (s : State) : Leads fetch s s := ⟨0, rfl⟩

theorem Leads.trans (h : Leads fetch s s') (h' : Leads fetch s' t) : Leads fetch s t := by
  obtain ⟨n, hn⟩ := h
  obtain ⟨k, hk⟩ := h'
  exact ⟨n + k, hn.trans hk⟩

theorem Leads.single {i : Instr} (hi : fetch s.pc = some i) (hs : i.exec s = some t) :
    Leads fetch s t :=
  ⟨1, .single hi hs⟩

theorem Advances.single {i : Instr} (hi : fetch s.pc = some i) (hs : i.exec s = some t) :
    Advances fetch s t :=
  ⟨0, .single hi hs⟩

theorem Advances.leads (h : Advances fetch s t) : Leads fetch s t := by
  obtain ⟨n, hn⟩ := h
  exact ⟨n + 1, hn⟩

theorem Advances.trans (h : Advances fetch s s') (h' : Leads fetch s' t) : Advances fetch s t := by
  obtain ⟨n, hn⟩ := h
  obtain ⟨k, hk⟩ := h'
  refine ⟨n + k, ?_⟩
  rw [Nat.add_right_comm]
  exact hn.trans hk

theorem Advances.after (h : Advances fetch s' t) (h' : Leads fetch s s') : Advances fetch s t := by
  obtain ⟨n, hn⟩ := h
  obtain ⟨k, hk⟩ := h'
  exact ⟨k + n, hk.trans hn⟩

theorem leads_of_execAll {is : List Instr} (hat : Found fetch s.pc is) (hs : Straight is)
    (h : execAll is s = some t) : Leads fetch s t ∧ t.pc = s.pc + is.length := by
  obtain ⟨hrun, hpc⟩ := execs_of_execAll hat hs h
  exact ⟨⟨_, hrun⟩, hpc⟩

end Leads

/-- The state with control at an index. -/
def State.goto (s : State) (k : Nat) : State := { s with pc := k }

theorem State.goto_self {s : State} {k : Nat} (h : s.pc = k) : s.goto k = s := by
  rw [← h]
  rfl

/-- A counted displacement leads where it was counted to. -/
theorem State.jump_displacement {s : State} {k m : Nat} (h : s.pc = k) :
    s.jump (displacement k m) = some (s.goto m) := by
  unfold jump displacement
  have hm : (s.pc : Int) + (m - k) = m := by omega
  rw [hm, if_pos (Int.natCast_nonneg m), Int.toNat_natCast]
  rfl

theorem State.jump_two (s : State) : s.jump 2 = some (s.goto (s.pc + 2)) := by
  have hd : displacement s.pc (s.pc + 2) = 2 := by
    unfold displacement
    omega
  rw [← hd]
  exact jump_displacement rfl

section Branch

variable {fetch : Nat → Option Instr} {s t : State} {k m : Nat}

theorem advances_b (hi : fetch k = some (.b (displacement k m))) (hs : s.pc = k) :
    Advances fetch s (s.goto m) := by
  subst hs
  exact .single hi (State.jump_displacement rfl)

theorem leads_b (hi : fetch k = some (.b (displacement k m))) (hs : s.pc = k) :
    Leads fetch s (s.goto m) :=
  (advances_b hi hs).leads

/-- Straight code that ends in a branch. -/
theorem leads_then_b {is : List Instr}
    (hat : Found fetch k (is ++ [.b (displacement (k + is.length) m)])) (hst : Straight is)
    (hs : s.pc = k) (hexec : execAll is s = some t) : Leads fetch s (t.goto m) := by
  subst hs
  obtain ⟨his, hb⟩ := Compile.allFrom_append.mp hat
  obtain ⟨hrun, hpc⟩ := leads_of_execAll his hst hexec
  exact hrun.trans (leads_b (Compile.allFrom_singleton.mp hb) hpc)

end Branch

end Dynarec.Host

namespace Dynarec.Emit

open Dynarec.Host Dynarec.Compile Dynarec.Resolve

/-! ### Exits -/

/-- The code address where a guest address goes on: what its slot holds, or else the fallback
dispatcher. -/
def Setting.codeAddress (e : Setting) (guest : Option Word) (m : Mem) : DWord :=
  match e.lookup guest with
  | .found slot => m.dword slot
  | _ => e.config.helpers.fallbackDispatcher

/-- The state with the guest address where the guest goes on written to the record. -/
def writeNext (s : Host.State) (a : Word) : Host.State :=
  (s.setLow .scratch a).store (s.x .context + BitVec.ofNat 64 Record.dispatchAddress) 4 a

/-- The state in which control has left for a guest address and come to the trailer at `k`. -/
def leave (e : Setting) (a : Word) (k : Nat) (s : Host.State) : Host.State :=
  ((writeNext s a).set .dispatch (e.codeAddress (some a) (writeNext s a).mem)).goto k

theorem execAll_addressOps (a : Word) (s : Host.State) :
    execAll (addressOps a) s = some ((writeNext s a).skip (addressOps a).length) := by
  have hx : (s.setLow .scratch a).x .context = s.x .context :=
    State.x_set_of_ne s .scratch .context _ (by decide)
  have hlow : (s.setLow .scratch a).low .w .scratch = a :=
    State.low_setLow_self s .scratch (by decide) a
  unfold addressOps
  rw [execAll_append (execAll_loadWord .scratch a s), List.length_append, List.length_singleton,
    ← State.skip_skip]
  refine execAll_singleton ?_
  show some (State.skip (State.store (State.skip (s.setLow .scratch a) _)
    ((s.setLow .scratch a).x .context + _) 4 ((s.setLow .scratch a).low .w .scratch)) 1) = _
  rw [hx, hlow]
  rfl

theorem execAll_dispatchOps (e : Setting) (guest : Option Word) (s : Host.State) :
    execAll (dispatchOps e guest) s =
      some ((s.set .dispatch (e.codeAddress guest s.mem)).skip (dispatchOps e guest).length) := by
  unfold dispatchOps Setting.codeAddress
  cases e.lookup guest with
  | absent => exact execAll_loadDWord ..
  | unaddressable => exact execAll_loadDWord ..
  | found slot =>
    have hx : (s.set .dispatch slot).x .dispatch = slot := State.x_set_self s _ slot (by decide)
    have hmem : (s.set .dispatch slot).mem = s.mem := State.mem_set s .dispatch slot
    dsimp only
    rw [execAll_append (execAll_loadDWord .dispatch slot s), List.length_append,
      List.length_singleton, ← State.skip_skip]
    refine execAll_singleton ?_
    show some (State.skip (State.set (State.skip (s.set .dispatch slot) _) .dispatch
      (((s.set .dispatch slot).mem.read ((s.set .dispatch slot).x .dispatch + 0#64) 8).setWidth
        64)) 1) = _
    rw [hx, hmem, BitVec.add_zero, BitVec.setWidth_eq, State.set_skip, State.set_set]
    rfl

theorem closeItems_exit (finish k : Nat) (is : List Host.Instr) (condition : ExitCondition) :
    closeItems finish k (ops is ++ [.exit condition]) =
      is ++ [.b (displacement (k + is.length) finish)] := by
  rw [closeItems_append, closeItems_ops, length_ops]
  rfl

theorem reads_exitItems (e : Setting) (a : Word) : ∀ x ∈ exitItems e a, itemReads x = true := by
  refine List.forall_mem_append.mpr ⟨itemReads_ops ?_, fun x hx => ?_⟩
  · exact (straight_addressOps a).append (straight_dispatchOps e _)
  · rw [List.mem_singleton.mp hx]
    rfl

theorem reads_leaveItems (e : Setting) : ∀ x ∈ leaveItems e, itemReads x = true := by
  refine List.forall_mem_append.mpr ⟨itemReads_ops (straight_dispatchOps e none), fun x hx => ?_⟩
  obtain rfl : x = .exit .always := List.mem_singleton.mp hx
  rfl

theorem exits_leaveItems (e : Setting) (i : Nat) : exitsFrom i (leaveItems e) ≠ [] := by
  rw [leaveItems, exitsFrom_append, exitsFrom_ops]
  exact List.cons_ne_nil _ _

section Exits

variable {fetch : Nat → Option Host.Instr} {e : Setting} {s : Host.State} {k finish : Nat}

theorem leads_exit {a : Word} (hat : Found fetch k (closeItems finish k (exitItems e a)))
    (hs : s.pc = k) : Leads fetch s (leave e a finish s) := by
  rw [exitItems, closeItems_exit] at hat
  have hexec := (execAll_append (execAll_addressOps a s)).trans (execAll_dispatchOps e (some a) _)
  rw [State.set_skip, State.skip_skip] at hexec
  have hrun := leads_then_b hat ((straight_addressOps a).append (straight_dispatchOps e _)) hs hexec
  exact hrun

/-- Leaves for the address that is written already. -/
theorem leads_leaveItems (hat : Found fetch k (closeItems finish k (leaveItems e))) (hs : s.pc = k) :
    Leads fetch s ((s.set .dispatch e.config.helpers.fallbackDispatcher).goto finish) := by
  rw [leaveItems, closeItems_exit] at hat
  have hrun := leads_then_b hat (straight_dispatchOps e none) hs (execAll_dispatchOps e none s)
  exact hrun

/-- Leaves if the scratch register is not zero, and else goes on behind the exit. -/
theorem leads_leaveNonzeroItems
    (hat : Found fetch k (closeItems finish k (leaveNonzeroItems e))) (hs : s.pc = k) :
    Leads fetch s ((s.set .dispatch e.config.helpers.fallbackDispatcher).goto
      (if s.low .w .scratch = 0 then k + (leaveNonzeroItems e).length else finish)) := by
  subst hs
  let t := (s.set .dispatch e.config.helpers.fallbackDispatcher).skip (dispatchOps e none).length
  rw [leaveNonzeroItems, closeItems_exit, List.append_assoc] at hat
  obtain ⟨hops, hrest⟩ := allFrom_append.mp hat
  obtain ⟨hrun, hpc⟩ :=
    leads_of_execAll hops (straight_dispatchOps e none) (execAll_dispatchOps e none s)
  obtain ⟨hcbz, hb⟩ := allFrom_append.mp hrest
  have hcbz := allFrom_singleton.mp hcbz
  have hlow : t.low .w .scratch = s.low .w .scratch :=
    congrArg (BitVec.setWidth 32) (State.reg_set_of_ne s .dispatch .scratch
      e.config.helpers.fallbackDispatcher (by decide))
  have hlen : (leaveNonzeroItems e).length = (dispatchOps e none).length + 2 := by
    rw [leaveNonzeroItems, List.length_append, length_ops, List.length_append]
    rfl
  refine hrun.trans ?_
  by_cases hz : s.low .w .scratch = 0
  · have hstep : (Host.Instr.cbz .scratch 2).exec t = some (t.goto (t.pc + 2)) := by
      show (if t.low .w .scratch = 0 then t.jump 2 else some (t.skip 1)) = _
      rw [hlow, if_pos hz, State.jump_two]
    rw [if_pos hz, hlen, ← Nat.add_assoc, ← hpc]
    exact .single (hpc ▸ hcbz) hstep
  · have hstep : (Host.Instr.cbz .scratch 2).exec t = some (t.skip 1) := by
      show (if t.low .w .scratch = 0 then t.jump 2 else some (t.skip 1)) = _
      rw [hlow, if_neg hz]
    have hb := allFrom_singleton.mp hb
    rw [List.length_append, ← Nat.add_assoc] at hb
    rw [if_neg hz]
    refine (Leads.single (hpc ▸ hcbz) hstep).trans (leads_b hb ?_)
    exact congrArg (· + 1) hpc

end Exits

/-! ### What leaving changes -/

theorem x_leave {e : Setting} {a : Word} {k : Nat} {s : Host.State} {q : Host.Gpr}
    (h : q ≠ .scratch) (h' : q ≠ .dispatch) : (leave e a k s).x q = s.x q :=
  (State.x_set_of_ne _ _ _ _ h').trans (State.x_set_of_ne s .scratch q _ h)

variable (e : Setting) (a : Word) (k : Nat) (s : Host.State)

theorem mem_leave : (leave e a k s).mem =
    s.mem.write (s.x .context + BitVec.ofNat 64 Record.dispatchAddress) 4 a := by
  simp only [leave, writeNext, State.goto, State.store, State.setLow, State.mem_set]

theorem flags_leave : (leave e a k s).flags = s.flags := by
  simp only [leave, writeNext, State.goto, State.store, State.setLow, State.flags_set]

theorem v_leave : (leave e a k s).v = s.v := by
  simp only [leave, writeNext, State.goto, State.store, State.setLow, State.v_set]

end Dynarec.Emit
