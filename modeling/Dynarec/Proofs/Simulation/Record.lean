import Dynarec.Emit.Spill
import Dynarec.Proofs.Machine.Access
import Dynarec.Proofs.Simulation.Relation

/-! # Guest registers to and from the record

Storing the registers in use completes the record, and loading them takes over what the record
holds. Neither touches the places of registers that are not in use. -/

namespace Dynarec.Host

theorem guestOfGpr?_eq_some {x : Gpr} {r : Guest.Gpr} :
    guestOfGpr? x = some r ↔ r.isPc = false ∧ x = pinned r := by
  have h : ∀ (c : BitVec 5) (d : BitVec 4), guestOfGpr? ⟨c⟩ = some ⟨d⟩ ↔
      (Guest.Gpr.mk d).isPc = false ∧ (⟨c⟩ : Gpr) = pinned ⟨d⟩ := by decide +kernel
  exact h x.code r.code

theorem guestOfVreg?_eq_some {v : Vreg} {d : Guest.Dreg} :
    guestOfVreg? v = some d ↔ pinnedVreg? d = some v := by
  have h : ∀ c d : BitVec 5, guestOfVreg? ⟨c⟩ = some ⟨d⟩ ↔ pinnedVreg? ⟨d⟩ = some ⟨c⟩ := by
    decide +kernel
  exact h v.code d.code

theorem guestGprs_pinned {r : Guest.Gpr} (h : r.isPc = false) :
    guestGprs.contains (pinned r).code = true := by
  have hall : ∀ d : BitVec 4, (Guest.Gpr.mk d).isPc = false →
      guestGprs.contains (pinned ⟨d⟩).code = true := by decide +kernel
  exact hall r.code h

theorem guestVregs_pinned {d : Guest.Dreg} {v : Vreg} (h : pinnedVreg? d = some v) :
    guestVregs.contains v.code = true := by
  have hall : ∀ c d : BitVec 5, pinnedVreg? ⟨d⟩ = some ⟨c⟩ → guestVregs.contains c = true := by
    decide +kernel
  exact hall v.code d.code h

end Dynarec.Host

namespace Dynarec.Emit

open Dynarec.Host

/-! ### Places -/

namespace Record

theorem gpr_apart {r q : Guest.Gpr} (h : r ≠ q) : gpr r + 4 ≤ gpr q ∨ gpr q + 4 ≤ gpr r := by
  have hne : r.index ≠ q.index := by
    intro hi
    obtain ⟨a⟩ := r
    obtain ⟨b⟩ := q
    exact h (congrArg Guest.Gpr.mk (BitVec.eq_of_toNat_eq hi))
  unfold gpr
  omega

theorem dreg_apart {d e : Guest.Dreg} (h : d ≠ e) : dreg d + 8 ≤ dreg e ∨ dreg e + 8 ≤ dreg d := by
  have hne : d.index ≠ e.index := by
    intro hi
    obtain ⟨a⟩ := d
    obtain ⟨b⟩ := e
    exact h (congrArg Guest.Dreg.mk (BitVec.eq_of_toNat_eq hi))
  unfold dreg
  omega

end Record

namespace RegisterUse

variable (u : RegisterUse)

/-- The guest double register is in use, in its own register. -/
def HasD (d : Guest.Dreg) (v : Vreg) : Prop :=
  pinnedVreg? d = some v ∧ u.usedVregs.contains v.code = true

variable {u}

theorem mem_gprPlaces {p : Host.Gpr × Nat} :
    p ∈ u.gprPlaces ↔ ∃ r, r.isPc = false ∧ u.Holds r ∧ p = (pinned r, Record.gpr r) := by
  unfold gprPlaces
  rw [List.mem_filterMap]
  constructor
  · rintro ⟨x, hx, hp⟩
    obtain ⟨r, hr, rfl⟩ := Option.map_eq_some_iff.mp hp
    obtain ⟨hpc, rfl⟩ := guestOfGpr?_eq_some.mp hr
    rw [RegSet.mem_gprs, contextGprs, RegSet.contains_inter, Bool.and_eq_true] at hx
    exact ⟨r, hpc, hx.1, rfl⟩
  · rintro ⟨r, hpc, hu, rfl⟩
    refine ⟨pinned r, ?_, ?_⟩
    · rw [RegSet.mem_gprs, contextGprs, RegSet.contains_inter, Bool.and_eq_true]
      exact ⟨hu, guestGprs_pinned hpc⟩
    · rw [guestOfGpr?_eq_some.mpr ⟨hpc, rfl⟩]
      rfl

theorem mem_vregPlaces {p : Vreg × Nat} :
    p ∈ u.vregPlaces ↔ ∃ d v, u.HasD d v ∧ p = (v, Record.dreg d) := by
  unfold vregPlaces
  rw [List.mem_filterMap]
  constructor
  · rintro ⟨v, hv, hp⟩
    obtain ⟨d, hd, rfl⟩ := Option.map_eq_some_iff.mp hp
    rw [RegSet.mem_vregs, contextVregs, RegSet.contains_inter, Bool.and_eq_true] at hv
    exact ⟨d, v, ⟨guestOfVreg?_eq_some.mp hd, hv.1⟩, rfl⟩
  · rintro ⟨d, v, ⟨hd, hu⟩, rfl⟩
    refine ⟨v, ?_, ?_⟩
    · rw [RegSet.mem_vregs, contextVregs, RegSet.contains_inter, Bool.and_eq_true]
      exact ⟨hu, guestVregs_pinned hd⟩
    · rw [guestOfVreg?_eq_some.mpr hd]
      rfl

theorem gprPlaces_pairwise (u : RegisterUse) : u.gprPlaces.Pairwise fun p q => p.1 ≠ q.1 := by
  refine List.Pairwise.filterMap _ (fun x y hne p hp q hq => ?_) u.contextGprs.nodup_gprs
  obtain ⟨r, -, rfl⟩ := Option.map_eq_some_iff.mp hp
  obtain ⟨r', -, rfl⟩ := Option.map_eq_some_iff.mp hq
  exact hne

theorem vregPlaces_pairwise (u : RegisterUse) : u.vregPlaces.Pairwise fun p q => p.1 ≠ q.1 := by
  refine List.Pairwise.filterMap _ (fun x y hne p hp q hq => ?_) u.contextVregs.nodup_vregs
  obtain ⟨d, -, rfl⟩ := Option.map_eq_some_iff.mp hp
  obtain ⟨d', -, rfl⟩ := Option.map_eq_some_iff.mp hq
  exact hne

theorem gprPlaces_apart (u : RegisterUse) :
    u.gprPlaces.Pairwise fun p q => p.2 + 4 ≤ q.2 ∨ q.2 + 4 ≤ p.2 := by
  refine u.gprPlaces_pairwise.imp_of_mem fun hp hq hne => ?_
  obtain ⟨r, -, -, rfl⟩ := mem_gprPlaces.mp hp
  obtain ⟨r', -, -, rfl⟩ := mem_gprPlaces.mp hq
  exact Record.gpr_apart fun h => hne (congrArg pinned h)

theorem vregPlaces_apart (u : RegisterUse) :
    u.vregPlaces.Pairwise fun p q => p.2 + 8 ≤ q.2 ∨ q.2 + 8 ≤ p.2 := by
  refine u.vregPlaces_pairwise.imp_of_mem fun hp hq hne => ?_
  obtain ⟨d, v, hd, rfl⟩ := mem_vregPlaces.mp hp
  obtain ⟨d', v', hd', rfl⟩ := mem_vregPlaces.mp hq
  refine Record.dreg_apart fun h => hne ?_
  exact Option.some.inj (hd.1.symm.trans (h ▸ hd'.1))

/-- The byte is in the place of a register in use, or of the flags in use. -/
def Owns (u : RegisterUse) (record a : DWord) : Prop :=
  (∃ r, r.isPc = false ∧ u.Holds r ∧
      ¬Mem.Outside (record + BitVec.ofNat 64 (Record.gpr r)) 4 a) ∨
    (∃ d v, u.HasD d v ∧ ¬Mem.Outside (record + BitVec.ofNat 64 (Record.dreg d)) 8 a) ∨
    u.usesFlags = true ∧ ¬Mem.Outside (record + BitVec.ofNat 64 Record.nzcv) 4 a

/-- What is apart from the places of all registers in use does not belong to any. -/
theorem not_owns_of_apart {record : DWord} {o n : Nat} (ho : o + n ≤ dwordCount)
    (hg : ∀ r, r.isPc = false → u.Holds r → Record.gpr r + 4 ≤ o ∨ o + n ≤ Record.gpr r)
    (hd : ∀ d v, u.HasD d v → Record.dreg d + 8 ≤ o ∨ o + n ≤ Record.dreg d)
    (hf : u.usesFlags = true → Record.nzcv + 4 ≤ o ∨ o + n ≤ Record.nzcv) :
    ∀ j < n, ¬u.Owns record (record + BitVec.ofNat 64 o + BitVec.ofNat 64 j) := by
  have hsize : Record.size ≤ dwordCount := Nat.le_of_ble_eq_true rfl
  have hnzcv : Record.nzcv + 4 ≤ Record.size := Nat.le_of_ble_eq_true rfl
  intro j hj howns
  rcases howns with ⟨r, hpc, hu, hin⟩ | ⟨d, v, hv, hin⟩ | ⟨hu, hin⟩
  · have hle := Record.gpr_le r
    have hlow : Record.dregs ≤ Record.size := Nat.le_of_ble_eq_true rfl
    exact hin (Mem.outside_of_offsets record (hg r hpc hu) (by omega) ho j hj)
  · have hle := Record.dreg_bounds d
    exact hin (Mem.outside_of_offsets record (hd d v hv) (by omega) ho j hj)
  · exact hin (Mem.outside_of_offsets record (hf hu) (by omega) ho j hj)

theorem not_owns_gpr {record : DWord} {r : Guest.Gpr} (h : r.isPc = true ∨ ¬u.Holds r) :
    ∀ j < 4, ¬u.Owns record
      (record + BitVec.ofNat 64 (Record.gpr r) + BitVec.ofNat 64 j) := by
  have hsize : Record.dregs ≤ dwordCount := Nat.le_of_ble_eq_true rfl
  have hle := Record.gpr_le r
  refine not_owns_of_apart (by omega) (fun q hpc hu => ?_) (fun d v _ => ?_) (fun _ => ?_)
  · refine Record.gpr_apart ?_
    rintro rfl
    rcases h with h | h
    · rw [hpc] at h
      cases h
    · exact h hu
  · exact .inr (Nat.le_trans hle (Record.dreg_bounds d).1)
  · exact .inr (Nat.le_trans hle (Nat.le_of_ble_eq_true rfl))

theorem not_owns_dreg {record : DWord} {d : Guest.Dreg} (h : ∀ v, ¬u.HasD d v) :
    ∀ j < 8, ¬u.Owns record
      (record + BitVec.ofNat 64 (Record.dreg d) + BitVec.ofNat 64 j) := by
  have hsize : Record.nzcv ≤ dwordCount := Nat.le_of_ble_eq_true rfl
  obtain ⟨hlo, hhi⟩ := Record.dreg_bounds d
  refine not_owns_of_apart (by omega) (fun q _ _ => ?_) (fun e v hv => ?_) (fun _ => .inr hhi)
  · exact .inl (Nat.le_trans (Record.gpr_le q) hlo)
  · refine Record.dreg_apart ?_
    rintro rfl
    exact h v hv

/-- The flags' place, and what stands behind it, belongs to no register. -/
theorem not_owns_status {record : DWord} {o n : Nat} (ho : Record.nzcv ≤ o)
    (hf : u.usesFlags = true → Record.nzcv + 4 ≤ o) (hs : o + n ≤ Record.size) :
    ∀ j < n, ¬u.Owns record (record + BitVec.ofNat 64 o + BitVec.ofNat 64 j) := by
  have hsize : Record.size ≤ dwordCount := Nat.le_of_ble_eq_true rfl
  have hlow : Record.dregs ≤ Record.nzcv := Nat.le_of_ble_eq_true rfl
  refine not_owns_of_apart (by omega) (fun q _ _ => ?_) (fun d v _ => ?_) fun hu => .inl (hf hu)
  · exact .inl (Nat.le_trans (Record.gpr_le q) (Nat.le_trans hlow ho))
  · exact .inl (Nat.le_trans (Record.dreg_bounds d).2 ho)

theorem not_owns_of_outside {record a : DWord} (h : Mem.Outside record Record.size a) :
    ¬u.Owns record a := by
  have hlow : Record.dregs ≤ Record.size := Nat.le_of_ble_eq_true rfl
  have hnzcv : Record.nzcv + 4 ≤ Record.size := Nat.le_of_ble_eq_true rfl
  rintro (⟨r, -, -, hin⟩ | ⟨d, v, -, hin⟩ | ⟨-, hin⟩)
  · exact hin (h.part (Nat.le_trans (Record.gpr_le r) hlow))
  · exact hin (h.part (by have := Record.dreg_bounds d; omega))
  · exact hin (h.part hnzcv)

end RegisterUse

end Dynarec.Emit

namespace Dynarec.Simulation

open Dynarec.Emit Dynarec.Host

/-! ### Storing -/

/-- From `s` to `s'` the registers in use have been written to the record. -/
structure Stored (u : RegisterUse) (record : DWord) (s s' : Host.State) : Prop where
  x : ∀ q, q ≠ .scratch → s'.x q = s.x q
  v : s'.v = s.v
  flags : s'.flags = s.flags
  gprs : ∀ r : Guest.Gpr, r.isPc = false → u.Holds r →
    s'.mem.word (record + BitVec.ofNat 64 (Record.gpr r)) = (s.x (pinned r)).setWidth 32
  dregs : ∀ d v, u.HasD d v →
    s'.mem.dword (record + BitVec.ofNat 64 (Record.dreg d)) = (s.v v).setWidth 64
  nzcv : u.usesFlags = true →
    s'.mem.word (record + BitVec.ofNat 64 Record.nzcv) = s.flags.toWord
  kept : ∀ a, ¬u.Owns record a → s'.mem a = s.mem a

/-- What the stores of all registers in use leave in memory. -/
theorem storePlaces_run (u : RegisterUse) {record : DWord} {s : Host.State}
    (hs : s.x .context = record) :
    ∃ m n, execAll ((u.gprPlaces.map fun p => .str .w p.1 .context p.2) ++
          u.vregPlaces.map fun p => .strV .d p.1 .context p.2) s = some ((s.withMem m).skip n) ∧
      (∀ r : Guest.Gpr, r.isPc = false → u.Holds r →
        m.word (record + BitVec.ofNat 64 (Record.gpr r)) = (s.x (pinned r)).setWidth 32) ∧
      (∀ d v, u.HasD d v →
        m.dword (record + BitVec.ofNat 64 (Record.dreg d)) = (s.v v).setWidth 64) ∧
      ∀ a, ¬u.Owns record a → m a = s.mem a := by
  have hsize : Record.nzcv ≤ dwordCount := Nat.le_of_ble_eq_true rfl
  have hdregs : Record.dregs ≤ Record.nzcv := Nat.le_of_ble_eq_true rfl
  have hgfit : ∀ p ∈ u.gprPlaces, p.2 + 4 ≤ Record.dregs := by
    intro p hp
    obtain ⟨r, -, -, rfl⟩ := RegisterUse.mem_gprPlaces.mp hp
    exact Record.gpr_le r
  have hvfit : ∀ p ∈ u.vregPlaces, Record.dregs ≤ p.2 ∧ p.2 + 8 ≤ Record.nzcv := by
    intro p hp
    obtain ⟨d, v, -, rfl⟩ := RegisterUse.mem_vregPlaces.mp hp
    exact Record.dreg_bounds d
  have hgfits : ∀ p ∈ u.gprPlaces, p.2 + 4 ≤ dwordCount := fun p hp =>
    Nat.le_trans (hgfit p hp) (Nat.le_trans hdregs hsize)
  have hvfits : ∀ p ∈ u.vregPlaces, p.2 + 8 ≤ dwordCount := fun p hp =>
    Nat.le_trans (hvfit p hp).2 hsize
  let m := s.mem.writeAll (n := 4) record Prod.snd (fun p => (s.reg p.1).setWidth 32) u.gprPlaces
  let m' := m.writeAll (n := 8) record Prod.snd (fun p => (s.v p.1).setWidth 64) u.vregPlaces
  have hg : execAll (u.gprPlaces.map fun p => .str .w p.1 .context p.2) s =
      some ((s.withMem m).skip u.gprPlaces.length) := by
    rw [execAll_strs .w .context u.gprPlaces, hs]
    rfl
  have hv : execAll (u.vregPlaces.map fun p => .strV .d p.1 .context p.2)
      ((s.withMem m).skip u.gprPlaces.length) =
        some ((s.withMem m').skip (u.gprPlaces.length + u.vregPlaces.length)) := by
    rw [execAll_strVs .d .context u.vregPlaces, ← State.skip_skip]
    exact congrArg (fun a => some (State.skip (State.withMem ((s.withMem m).skip _)
      (m.writeAll (n := 8) a Prod.snd (fun p => (s.v p.1).setWidth 64) u.vregPlaces)) _)) hs
  refine ⟨m', u.gprPlaces.length + u.vregPlaces.length, ?_, fun r hpc hu => ?_, fun d v hd => ?_,
    fun a ha => ?_⟩
  · rw [execAll_append hg, hv]
  · have hp := RegisterUse.mem_gprPlaces.mpr ⟨r, hpc, hu, rfl⟩
    have hle := Record.gpr_le r
    have hread : m.read (record + BitVec.ofNat 64 (Prod.snd (pinned r, Record.gpr r))) 4 =
        (s.reg (pinned r)).setWidth 32 :=
      Mem.read_writeAll_of_mem (by decide) hgfits u.gprPlaces_apart hp
    rw [State.reg, if_neg (pinned_ne_zr hpc)] at hread
    refine Eq.trans ?_ hread
    refine Mem.read_writeAll_of_apart (hgfits _ hp) fun q hq => ⟨?_, hvfits q hq⟩
    exact .inr (Nat.le_trans hle (hvfit q hq).1)
  · have hp := RegisterUse.mem_vregPlaces.mpr ⟨d, v, hd, rfl⟩
    have hread : m'.read (record + BitVec.ofNat 64 (Prod.snd (v, Record.dreg d))) 8 =
        (s.v v).setWidth 64 :=
      Mem.read_writeAll_of_mem (by decide) hvfits u.vregPlaces_apart hp
    exact hread
  · refine (Mem.writeAll_of_outside fun p hp => ?_).trans (Mem.writeAll_of_outside fun p hp => ?_)
    · obtain ⟨d, v, hd, rfl⟩ := RegisterUse.mem_vregPlaces.mp hp
      exact Classical.not_not.mp fun hin => ha (.inr (.inl ⟨d, v, hd, hin⟩))
    · obtain ⟨r, hpc, hu, rfl⟩ := RegisterUse.mem_gprPlaces.mp hp
      exact Classical.not_not.mp fun hin => ha (.inl ⟨r, hpc, hu, hin⟩)

theorem storeFlags_run (s : Host.State) :
    execAll [.mrsFlags .scratch, .str .w .scratch .context Record.nzcv] s =
      some (((s.setLow .scratch s.flags.toWord).store (s.x .context + BitVec.ofNat 64 Record.nzcv) 4
        s.flags.toWord).skip 2) := by
  have hx : (s.setLow .scratch s.flags.toWord).x .context = s.x .context :=
    State.x_set_of_ne s .scratch .context _ (by decide)
  have hlow : (s.setLow .scratch s.flags.toWord).low .w .scratch = s.flags.toWord :=
    State.low_setLow_self s .scratch (by decide) _
  have hfirst : (Host.Instr.mrsFlags .scratch).exec s =
      some ((s.setLow .scratch s.flags.toWord).skip 1) := rfl
  rw [execAll_cons hfirst]
  refine execAll_singleton ?_
  show some (State.skip (State.store (State.skip (s.setLow .scratch s.flags.toWord) 1)
    ((s.setLow .scratch s.flags.toWord).x .context + _) 4
      ((s.setLow .scratch s.flags.toWord).low .w .scratch)) 1) = _
  rw [hx, hlow]
  rfl

theorem storeToRecord_run (u : RegisterUse) {record : DWord} {s : Host.State}
    (hs : s.x .context = record) :
    ∃ s', execAll u.storeToRecord s = some s' ∧ Stored u record s s' := by
  obtain ⟨m, n, hexec, hg, hd, hkept⟩ := storePlaces_run u hs
  unfold RegisterUse.storeToRecord
  rw [execAll_append hexec]
  cases hf : u.usesFlags with
  | false =>
    refine ⟨_, rfl, fun _ _ => rfl, rfl, rfl, hg, hd, fun hu => ?_, hkept⟩
    rw [hf] at hu
    cases hu
  | true =>
    have hnzcv : Record.nzcv + 4 ≤ Record.size := Nat.le_of_ble_eq_true rfl
    have hdregs : Record.dregs ≤ Record.nzcv := Nat.le_of_ble_eq_true rfl
    let t := (s.withMem m).skip n
    have hmem : (t.setLow .scratch s.flags.toWord).mem = m := State.mem_set t .scratch _
    have hx : t.x .context = record := hs
    refine ⟨_, storeFlags_run t, fun q hq => ?_, ?_, ?_, fun r hpc hu => ?_, fun d v hv => ?_,
      fun _ => ?_, fun a ha => ?_⟩
    · exact State.x_set_of_ne t .scratch q (s.flags.toWord.setWidth 64) hq
    · exact State.v_set t .scratch (s.flags.toWord.setWidth 64)
    · exact State.flags_set t .scratch (s.flags.toWord.setWidth 64)
    · have hle := Nat.le_trans (Record.gpr_le r) hdregs
      refine Eq.trans ?_ (hg r hpc hu)
      rw [← hmem, ← hx]
      exact Record.read_write (.inr hle) hnzcv (by omega) _
    · have hle := (Record.dreg_bounds d).2
      refine Eq.trans ?_ (hd d v hv)
      rw [← hmem, ← hx]
      exact Record.read_write (.inr hle) hnzcv (by omega) _
    · rw [← hx]
      exact Mem.read_write_self (n := 4) _ _ _ (Nat.le_of_ble_eq_true rfl)
    · have hout : Mem.Outside (t.x .context + BitVec.ofNat 64 Record.nzcv) 4 a := by
        rw [hx]
        exact Classical.not_not.mp fun hin => ha (.inr (.inr ⟨hf, hin⟩))
      exact (Mem.write_of_outside hout _).trans ((congrFun hmem a).trans (hkept a ha))

/-! ### Loading -/

/-- From `s` to `s'` the registers in use have been read from the record. -/
structure Loaded (u : RegisterUse) (record : DWord) (s s' : Host.State) : Prop where
  mem : s'.mem = s.mem
  gprs : ∀ r : Guest.Gpr, r.isPc = false → u.Holds r →
    s'.x (pinned r) = (s.mem.word (record + BitVec.ofNat 64 (Record.gpr r))).setWidth 64
  x : ∀ q, q ≠ .scratch → (∀ r : Guest.Gpr, r.isPc = false → u.Holds r → q ≠ pinned r) →
    s'.x q = s.x q
  dregs : ∀ d v, u.HasD d v →
    s'.v v = (s.mem.dword (record + BitVec.ofNat 64 (Record.dreg d))).setWidth 128
  v : ∀ v, (∀ d, ¬u.HasD d v) → s'.v v = s.v v
  flags : s'.flags = if u.usesFlags then
    .ofWord (s.mem.word (record + BitVec.ofNat 64 Record.nzcv)) else s.flags

/-- From `s` to `s'` the general registers in use have been read from the record. -/
structure LoadedGprs (u : RegisterUse) (record : DWord) (s s' : Host.State) : Prop where
  mem : s'.mem = s.mem
  v : s'.v = s.v
  flags : s'.flags = s.flags
  gprs : ∀ r : Guest.Gpr, r.isPc = false → u.Holds r →
    s'.x (pinned r) = (s.mem.word (record + BitVec.ofNat 64 (Record.gpr r))).setWidth 64
  x : ∀ q, (∀ r : Guest.Gpr, r.isPc = false → u.Holds r → q ≠ pinned r) → s'.x q = s.x q

theorem loadGprs_run (u : RegisterUse) {record : DWord} {s : Host.State}
    (hs : s.x .context = record) :
    ∃ s', execAll (u.gprPlaces.map fun p => .ldr .w p.1 .context p.2) s = some s' ∧
      LoadedGprs u record s s' := by
  subst hs
  let gs : List (Host.Gpr × DWord) := u.gprPlaces.map fun p =>
    (p.1, (s.mem.word (s.x .context + BitVec.ofNat 64 p.2)).setWidth 64)
  have hfst : gs.map Prod.fst = u.gprPlaces.map Prod.fst := List.map_map
  have hnodup : (gs.map Prod.fst).Nodup := by
    rw [hfst]
    exact List.pairwise_map.mpr u.gprPlaces_pairwise
  have hnot : ∀ q, (∀ r : Guest.Gpr, r.isPc = false → u.Holds r → q ≠ pinned r) →
      q ∉ u.gprPlaces.map Prod.fst := by
    intro q hq hmem
    obtain ⟨p, hp, rfl⟩ := List.mem_map.mp hmem
    obtain ⟨r, hpc, hu, rfl⟩ := RegisterUse.mem_gprPlaces.mp hp
    exact hq r hpc hu rfl
  have hcontext : Host.Gpr.context ∉ u.gprPlaces.map Prod.fst :=
    hnot _ fun r hpc _ => ne_pinned hpc (by decide)
  obtain ⟨-, hv, hf, hm⟩ := State.setAll_frame s gs
  refine ⟨_, execAll_ldrs .w hcontext, hm, hv, hf, fun r hpc hu => ?_, fun q hq => ?_⟩
  · refine State.x_setAll_of_mem hnodup ?_ (pinned_ne_zr hpc)
    exact List.mem_map_of_mem (RegisterUse.mem_gprPlaces.mpr ⟨r, hpc, hu, rfl⟩)
  · have hfree : q ∉ gs.map Prod.fst := hfst ▸ hnot q hq
    exact State.x_setAll_of_not_mem hfree

/-- From `s` to `s'` the vector registers in use have been read from the record. -/
structure LoadedVregs (u : RegisterUse) (record : DWord) (s s' : Host.State) : Prop where
  mem : s'.mem = s.mem
  x : s'.x = s.x
  flags : s'.flags = s.flags
  dregs : ∀ d v, u.HasD d v →
    s'.v v = (s.mem.dword (record + BitVec.ofNat 64 (Record.dreg d))).setWidth 128
  v : ∀ v, (∀ d, ¬u.HasD d v) → s'.v v = s.v v

theorem loadVregs_run (u : RegisterUse) {record : DWord} {s : Host.State}
    (hs : s.x .context = record) :
    ∃ s', execAll (u.vregPlaces.map fun p => .ldrV .d p.1 .context p.2) s = some s' ∧
      LoadedVregs u record s s' := by
  subst hs
  let loaded : Vreg × Nat → Vreg × BitVec 128 := fun p =>
    (p.1, (s.mem.dword (s.x .context + BitVec.ofNat 64 p.2)).setWidth 128)
  have hfst : (u.vregPlaces.map loaded).map Prod.fst = u.vregPlaces.map Prod.fst := List.map_map
  have hnodup : ((u.vregPlaces.map loaded).map Prod.fst).Nodup := by
    rw [hfst]
    exact List.pairwise_map.mpr u.vregPlaces_pairwise
  obtain ⟨-, hx, hf, hm⟩ := State.setVAll_frame s (u.vregPlaces.map loaded)
  refine ⟨_, execAll_ldrVs .d .context u.vregPlaces, hm, hx, hf, fun d v hd => ?_, fun v hv => ?_⟩
  · refine State.v_setVAll_of_mem hnodup ?_
    exact List.mem_map_of_mem (f := loaded) (RegisterUse.mem_vregPlaces.mpr ⟨d, v, hd, rfl⟩)
  · have hfree : v ∉ (u.vregPlaces.map loaded).map Prod.fst := by
      rw [hfst]
      intro hmem
      obtain ⟨p, hp, rfl⟩ := List.mem_map.mp hmem
      obtain ⟨d, w, hd, rfl⟩ := RegisterUse.mem_vregPlaces.mp hp
      exact hv d hd
    exact State.v_setVAll_of_not_mem hfree

theorem loadFlags_run {s : Host.State} {w : Word}
    (hw : s.mem.word (s.x .context + BitVec.ofNat 64 Record.nzcv) = w) :
    execAll [.ldr .w .scratch .context Record.nzcv, .msrFlags .scratch] s =
      some (((s.setLow .scratch w).setFlags (.ofWord w)).skip 2) := by
  have hload : (Host.Instr.ldr .w .scratch .context Record.nzcv).exec s =
      some ((s.setLow .scratch w).skip 1) :=
    congrArg (fun w : Word => some ((s.setLow .scratch w).skip 1)) hw
  rw [execAll_cons hload]
  refine execAll_singleton ?_
  show some ((State.setFlags (State.skip _ 1) (.ofWord (State.low (State.skip _ 1) .w
    .scratch))).skip 1) = _
  rw [State.low_skip, State.low_setLow_self s .scratch (by decide) w]
  rfl

theorem loadFromRecord_run (u : RegisterUse) {record : DWord} {s : Host.State}
    (hs : s.x .context = record) :
    ∃ s', execAll u.loadFromRecord s = some s' ∧ Loaded u record s s' := by
  obtain ⟨s₁, hs₁, hg⟩ := loadGprs_run u hs
  have hcontext₁ : s₁.x .context = record :=
    (hg.x .context fun r hpc _ => ne_pinned hpc (by decide)).trans hs
  obtain ⟨s₂, hs₂, hv⟩ := loadVregs_run u hcontext₁
  have hmem : s₂.mem = s.mem := hv.mem.trans hg.mem
  have hgprs : ∀ r : Guest.Gpr, r.isPc = false → u.Holds r →
      s₂.x (pinned r) = (s.mem.word (record + BitVec.ofNat 64 (Record.gpr r))).setWidth 64 :=
    fun r hpc hu => (congrFun hv.x _).trans (hg.gprs r hpc hu)
  have hx : ∀ q, (∀ r : Guest.Gpr, r.isPc = false → u.Holds r → q ≠ pinned r) →
      s₂.x q = s.x q := fun q hq => (congrFun hv.x q).trans (hg.x q hq)
  have hdregs : ∀ d v, u.HasD d v →
      s₂.v v = (s.mem.dword (record + BitVec.ofNat 64 (Record.dreg d))).setWidth 128 :=
    fun d v hd => hg.mem ▸ hv.dregs d v hd
  have hvregs : ∀ v, (∀ d, ¬u.HasD d v) → s₂.v v = s.v v :=
    fun v hn => (hv.v v hn).trans (congrFun hg.v v)
  unfold RegisterUse.loadFromRecord
  rw [List.append_assoc, execAll_append hs₁, execAll_append hs₂]
  cases hf : u.usesFlags with
  | false =>
    refine ⟨s₂, rfl, hmem, hgprs, fun q _ => hx q, hdregs, hvregs, ?_⟩
    rw [hf]
    exact hv.flags.trans hg.flags
  | true =>
    let w := s.mem.word (record + BitVec.ofNat 64 Record.nzcv)
    have hw : s₂.mem.word (s₂.x .context + BitVec.ofNat 64 Record.nzcv) = w := by
      rw [hmem, hv.x, hcontext₁]
    refine ⟨_, loadFlags_run hw, ?_, fun r hpc hu => ?_, fun q hq hne => ?_, fun d v hd => ?_,
      fun v hn => ?_, ?_⟩
    · exact (State.mem_set s₂ .scratch (w.setWidth 64)).trans hmem
    · refine (State.x_set_of_ne s₂ .scratch (pinned r) _ ?_).trans (hgprs r hpc hu)
      exact ne_of_isSpare (x := .scratch) rfl (isSpare_pinned hpc)
    · exact (State.x_set_of_ne s₂ .scratch q _ hq).trans (hx q hne)
    · exact (congrFun (State.v_set s₂ .scratch (w.setWidth 64)) v).trans (hdregs d v hd)
    · exact (congrFun (State.v_set s₂ .scratch (w.setWidth 64)) v).trans (hvregs v hn)
    · rw [hf]
      rfl

end Dynarec.Simulation
