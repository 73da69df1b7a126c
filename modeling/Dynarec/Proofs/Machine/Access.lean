import Dynarec.Proofs.Machine.Exec

/-! # Lists of stores and loads

Registers go to memory and come back one by one, at offsets from an address. Stores at offsets
that are apart do not disturb each other, and a load disturbs only its own register. -/

namespace Dynarec.Host

/-! ### Stores -/

namespace Mem

variable {α : Type} {n : Nat}

/-- The memory with values written at offsets from an address, one after the other. -/
def writeAll (m : Mem) (base : DWord) (off : α → Nat) (value : α → BitVec (8 * n)) (ps : List α) :
    Mem :=
  ps.foldl (fun m p => m.write (base + BitVec.ofNat 64 (off p)) n (value p)) m

variable {m : Mem} {base : DWord} {off : α → Nat} {value : α → BitVec (8 * n)} {ps : List α}

theorem writeAll_of_outside {a : DWord}
    (h : ∀ p ∈ ps, Outside (base + BitVec.ofNat 64 (off p)) n a) :
    m.writeAll base off value ps a = m a := by
  induction ps generalizing m with
  | nil => rfl
  | cons p ps ih =>
    refine (ih fun q hq => h q (List.mem_cons_of_mem _ hq)).trans ?_
    exact write_of_outside (h p List.mem_cons_self) (value p)

theorem read_writeAll_of_apart {o k : Nat} (ho : o + k ≤ dwordCount)
    (h : ∀ p ∈ ps, (off p + n ≤ o ∨ o + k ≤ off p) ∧ off p + n ≤ dwordCount) :
    (m.writeAll base off value ps).read (base + BitVec.ofNat 64 o) k =
      m.read (base + BitVec.ofNat 64 o) k := by
  refine read_congr fun j hj => writeAll_of_outside fun p hp => ?_
  exact outside_of_offsets base (h p hp).1 (h p hp).2 ho j hj

theorem read_writeAll_of_mem (hn : n ≤ dwordCount) (hlt : ∀ p ∈ ps, off p + n ≤ dwordCount)
    (hps : ps.Pairwise fun p q => off p + n ≤ off q ∨ off q + n ≤ off p) {p : α} (hp : p ∈ ps) :
    (m.writeAll base off value ps).read (base + BitVec.ofNat 64 (off p)) n = value p := by
  induction ps generalizing m with
  | nil => exact absurd hp List.not_mem_nil
  | cons q ps ih =>
    obtain ⟨hq, hps⟩ := List.pairwise_cons.mp hps
    have hrest : ∀ p ∈ ps, off p + n ≤ dwordCount := fun p hp => hlt p (List.mem_cons_of_mem _ hp)
    rcases List.mem_cons.mp hp with rfl | hp
    · refine (read_writeAll_of_apart (m := m.write _ n (value p)) (hlt p List.mem_cons_self)
        fun q hq' => ⟨(hq q hq').symm, hrest q hq'⟩).trans ?_
      exact read_write_self m _ (value p) hn
    · exact ih hrest hps hp

end Mem

def State.withMem (s : State) (m : Mem) : State := { s with mem := m }

variable {s : State}

/-- A list of instructions that each store a value at an offset. -/
theorem execAll_stores {α : Type} {n : Nat} {base : DWord} {off : α → Nat}
    {value : α → BitVec (8 * n)} {f : α → Instr} {ps : List α}
    (h : ∀ p ∈ ps, ∀ m k, (f p).exec ((s.withMem m).skip k) =
      some (((s.withMem m).store (base + BitVec.ofNat 64 (off p)) n (value p)).skip (k + 1))) :
    execAll (ps.map f) s =
      some ((s.withMem (s.mem.writeAll base off value ps)).skip ps.length) := by
  have hall : ∀ (qs : List α) (m : Mem) (k : Nat), (∀ q ∈ qs, q ∈ ps) →
      execAll (qs.map f) ((s.withMem m).skip k) =
        some ((s.withMem (m.writeAll base off value qs)).skip (k + qs.length)) := by
    intro qs
    induction qs with
    | nil => exact fun m k _ => rfl
    | cons q qs ih =>
      intro m k hqs
      rw [List.map_cons, execAll_cons (h q (hqs q List.mem_cons_self) m k)]
      refine (ih _ (k + 1) fun p hp => hqs p (List.mem_cons_of_mem _ hp)).trans ?_
      rw [List.length_cons, Nat.add_right_comm, ← Nat.add_assoc]
      rfl
  have hrun := hall ps s.mem 0 fun p hp => hp
  rw [Nat.zero_add] at hrun
  exact hrun

theorem execAll_strs (width : Width) (base : Gpr) (ps : List (Gpr × Nat)) :
    execAll (ps.map fun p => .str width p.1 base p.2) s =
      some ((s.withMem (s.mem.writeAll (s.x base) Prod.snd
        (fun p => (s.reg p.1).setWidth (8 * width.bytes)) ps)).skip ps.length) :=
  execAll_stores fun _ _ _ _ => rfl

theorem execAll_strVs (width : VWidth) (base : Gpr) (ps : List (Vreg × Nat)) :
    execAll (ps.map fun p => .strV width p.1 base p.2) s =
      some ((s.withMem (s.mem.writeAll (s.x base) Prod.snd
        (fun p => (s.v p.1).setWidth (8 * width.bytes)) ps)).skip ps.length) :=
  execAll_stores fun _ _ _ _ => rfl

/-! ### Loads -/

namespace State

/-- The state with values written to registers, one after the other. -/
def setAll (s : State) (ps : List (Gpr × DWord)) : State := ps.foldl (fun s p => s.set p.1 p.2) s

def setVAll (s : State) (ps : List (Vreg × BitVec 128)) : State :=
  ps.foldl (fun s p => s.setV p.1 p.2) s

variable (s) (ps : List (Gpr × DWord)) (vs : List (Vreg × BitVec 128))

theorem setAll_frame : (s.setAll ps).pc = s.pc ∧ (s.setAll ps).v = s.v ∧
    (s.setAll ps).flags = s.flags ∧ (s.setAll ps).mem = s.mem := by
  induction ps generalizing s with
  | nil => exact ⟨rfl, rfl, rfl, rfl⟩
  | cons p ps ih =>
    obtain ⟨hpc, hv, hf, hm⟩ := ih (s.set p.1 p.2)
    exact ⟨hpc.trans (pc_set ..), hv.trans (v_set ..), hf.trans (flags_set ..), hm.trans (mem_set ..)⟩

theorem setVAll_frame : (s.setVAll vs).pc = s.pc ∧ (s.setVAll vs).x = s.x ∧
    (s.setVAll vs).flags = s.flags ∧ (s.setVAll vs).mem = s.mem := by
  induction vs generalizing s with
  | nil => exact ⟨rfl, rfl, rfl, rfl⟩
  | cons p vs ih => exact ih (s.setV p.1 p.2)

theorem setAll_skip (n : Nat) : (s.skip n).setAll ps = (s.setAll ps).skip n := by
  induction ps generalizing s with
  | nil => rfl
  | cons p ps ih =>
    show ((s.skip n).set p.1 p.2).setAll ps = _
    rw [set_skip]
    exact ih _

theorem setVAll_skip (n : Nat) : (s.skip n).setVAll vs = (s.setVAll vs).skip n := by
  induction vs generalizing s with
  | nil => rfl
  | cons p vs ih => exact ih (s.setV p.1 p.2)

variable {s} {ps} {vs}

theorem x_setAll_of_not_mem {x : Gpr} (h : x ∉ ps.map Prod.fst) : (s.setAll ps).x x = s.x x := by
  induction ps generalizing s with
  | nil => rfl
  | cons p ps ih =>
    rw [List.map_cons, List.mem_cons, not_or] at h
    exact (ih h.2).trans (x_set_of_ne s p.1 x p.2 h.1)

theorem x_setAll_of_mem (hps : (ps.map Prod.fst).Nodup) {x : Gpr} {w : DWord} (h : (x, w) ∈ ps)
    (hx : x ≠ .zr) : (s.setAll ps).x x = w := by
  induction ps generalizing s with
  | nil => exact absurd h List.not_mem_nil
  | cons p ps ih =>
    obtain ⟨hp, hps⟩ := List.nodup_cons.mp hps
    rcases List.mem_cons.mp h with rfl | h
    · exact (x_setAll_of_not_mem (s := s.set x w) hp).trans (x_set_self s x w hx)
    · exact ih hps h

theorem v_setVAll_of_not_mem {v : Vreg} (h : v ∉ vs.map Prod.fst) : (s.setVAll vs).v v = s.v v := by
  induction vs generalizing s with
  | nil => rfl
  | cons p vs ih =>
    rw [List.map_cons, List.mem_cons, not_or] at h
    exact (ih h.2).trans (if_neg h.1)

theorem v_setVAll_of_mem (hvs : (vs.map Prod.fst).Nodup) {v : Vreg} {w : BitVec 128}
    (h : (v, w) ∈ vs) : (s.setVAll vs).v v = w := by
  induction vs generalizing s with
  | nil => exact absurd h List.not_mem_nil
  | cons p vs ih =>
    obtain ⟨hp, hvs⟩ := List.nodup_cons.mp hvs
    rcases List.mem_cons.mp h with rfl | h
    · exact (v_setVAll_of_not_mem (s := s.setV v w) hp).trans (if_pos rfl)
    · exact ih hvs h

end State

/-- Loads into registers other than the one that holds the address. -/
theorem execAll_ldrs (width : Width) {base : Gpr} {ps : List (Gpr × Nat)}
    (h : base ∉ ps.map Prod.fst) :
    execAll (ps.map fun p => .ldr width p.1 base p.2) s =
      some ((s.setAll (ps.map fun p =>
        (p.1, (s.mem.read (s.x base + BitVec.ofNat 64 p.2) width.bytes).setWidth 64))).skip
          ps.length) := by
  induction ps generalizing s with
  | nil => rfl
  | cons p ps ih =>
    rw [List.map_cons, List.mem_cons, not_or] at h
    let w : DWord := (s.mem.read (s.x base + BitVec.ofNat 64 p.2) width.bytes).setWidth 64
    have hfirst : (Instr.ldr width p.1 base p.2).exec s = some ((s.skip 1).set p.1 w) := by
      rw [State.set_skip]
      rfl
    have hmem : ((s.skip 1).set p.1 w).mem = s.mem := State.mem_set ..
    have hx : ((s.skip 1).set p.1 w).x base = s.x base := State.x_set_of_ne _ _ _ _ h.1
    rw [List.map_cons, execAll_cons hfirst, ih h.2, hmem, hx, State.set_skip, State.setAll_skip,
      State.skip_skip, List.length_cons, Nat.add_comm 1]
    rfl

theorem execAll_ldrVs (width : VWidth) (base : Gpr) (ps : List (Vreg × Nat)) :
    execAll (ps.map fun p => .ldrV width p.1 base p.2) s =
      some ((s.setVAll (ps.map fun p =>
        (p.1, (s.mem.read (s.x base + BitVec.ofNat 64 p.2) width.bytes).setWidth 128))).skip
          ps.length) := by
  induction ps generalizing s with
  | nil => rfl
  | cons p ps ih =>
    let w : BitVec 128 := (s.mem.read (s.x base + BitVec.ofNat 64 p.2) width.bytes).setWidth 128
    have hfirst : (Instr.ldrV width p.1 base p.2).exec s = some ((s.skip 1).setV p.1 w) := rfl
    rw [List.map_cons, execAll_cons hfirst, ih, State.setV_skip, State.setVAll_skip,
      State.skip_skip, List.length_cons, Nat.add_comm 1]
    rfl

end Dynarec.Host
