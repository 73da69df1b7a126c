import Dynarec.Proofs.Usage.Unit

/-! # Registers that a unit marks

The registers that hold guest state are marked as used before any word of a unit touches them, in
its prologue and its trailer as much as between them. Every call of the host stands in one sequence
for a fixup of the body. -/

namespace Dynarec.Emit

open Host

/-- A register that holds guest state is marked as used. -/
def RegisterUse.Marks (u : RegisterUse) (x : Host.Gpr) : Prop :=
  guestGprs.contains x.code = true → u.usedGprs.contains x.code = true

end Dynarec.Emit

namespace Dynarec.Host

open Dynarec.Emit

/-- What the instruction touches of the guest state is marked as used, and the platform register is
left alone. -/
structure Instr.Marked (u : RegisterUse) (i : Instr) : Prop where
  gprs : ∀ x ∈ i.reads ++ i.writes, u.Marks x
  vregs : ∀ v ∈ i.vreads ++ i.vwrites, guestVregs.contains v.code = true →
    u.usedVregs.contains v.code = true
  flags : (i.readsFlags || i.writesFlags) = true → u.usesFlags = true
  platform : ⟨18⟩ ∉ i.writes

section Marked

variable {u : RegisterUse} {i : Instr}

theorem marks_fixed {x : Gpr} (h : x.isSpare = true ∨ 27 ≤ x.index) : u.Marks x := by
  have hall : ∀ c : BitVec 5, (Gpr.mk c).isSpare = true ∨ 27 ≤ (Gpr.mk c).index →
      guestGprs.contains c = false := by
    decide +kernel
  intro hguest
  rw [hall x.code h] at hguest
  cases hguest

theorem marks_takes {x : Gpr} (h : u.Takes x) : u.Marks x := by
  rcases h with hspare | ⟨r, -, hr, rfl⟩
  · exact marks_fixed (.inl hspare)
  · exact fun _ => hr

theorem marks_sees {x : Gpr} (h : u.Sees x) : u.Marks x :=
  h.elim marks_takes fun hx => marks_fixed (.inr hx)

theorem marks_operand {x : Gpr} (h : u.Marks x) : ∀ q ∈ x.operand, u.Marks q := by
  intro q hq
  rw [(Gpr.mem_operand.mp hq).1]
  exact h

theorem pinned_ne_platform {r : Guest.Gpr} (h : r.isPc = false) : pinned r ≠ ⟨18⟩ := by
  have hall : ∀ c : BitVec 4, (Guest.Gpr.mk c).isPc = false → pinned ⟨c⟩ ≠ ⟨18⟩ := by
    decide +kernel
  exact hall r.code h

/-- An instruction that keeps within what the unit has. -/
theorem Instr.Confined.marked {bytes : Nat} (h : i.Confined u bytes) : i.Marked u := by
  refine ⟨List.forall_mem_append.mpr ⟨fun x hx => marks_sees (h.reads x hx),
    fun x hx => marks_takes (h.writes x hx)⟩, fun v hv hguest => ?_, h.flags, fun hmem => ?_⟩
  · rcases h.vregs v hv with rfl | ⟨d, hd⟩
    · cases hguest
    · exact hd.2
  · rcases h.writes _ hmem with hspare | ⟨r, hpc, -, hr⟩
    · cases hspare
    · exact pinned_ne_platform hpc hr.symm

theorem Instr.Confined.not_blr {bytes : Nat} {x : Gpr} (h : i.Confined u bytes) : i ≠ .blr x := by
  rintro rfl
  rcases h.writes .lr List.mem_cons_self with hspare | ⟨r, hpc, -, hr⟩
  · cases hspare
  · have hall : ∀ c : BitVec 4, (Guest.Gpr.mk c).isPc = false → Gpr.lr ≠ pinned ⟨c⟩ := by
      decide +kernel
    exact hall r.code hpc hr

/-- A word of a prologue or a trailer: it touches what is marked, calls nothing, and leaves the
execution counter alone. -/
structure Instr.Frames (u : RegisterUse) (i : Instr) : Prop where
  marked : i.Marked u
  quiet : ∀ x, i ≠ .blr x
  spares : ∀ offset n, i.access? = some (.context, offset, n) →
    ∃ k : Nat, offset = k ∧ Record.Spares k n

/-- Words that keep within what the unit has, whatever its spill area. -/
theorem frames_of_confined {is : List Instr} (h : Confined u 0 is) : ∀ i ∈ is, i.Frames u :=
  fun i hi => ⟨(h i hi).marked, fun _ => (h i hi).not_blr, (h i hi).counter⟩

/-- A word that uses nothing of the record. -/
theorem spares_of_all (h : i.access?.all (·.1 != .context) = true) :
    ∀ offset n, i.access? = some (.context, offset, n) →
      ∃ k : Nat, offset = k ∧ Record.Spares k n := by
  intro offset n hi
  rw [hi] at h
  cases h

/-- A push, a pop or a move, on general registers alone. -/
theorem frames_plain (hr : ∀ x ∈ i.reads, u.Marks x) (hw : ∀ x ∈ i.writes, u.Marks x)
    (hv : i.vreads ++ i.vwrites = []) (hf : (i.readsFlags || i.writesFlags) = false)
    (hp : ⟨18⟩ ∉ i.writes) (hq : ∀ x, i ≠ .blr x) (ha : i.access?.all (·.1 != .context) = true) :
    i.Frames u := by
  refine ⟨⟨List.forall_mem_append.mpr ⟨hr, hw⟩, fun v hmem => ?_, fun hflags => ?_, hp⟩, hq,
    spares_of_all ha⟩
  · rw [hv] at hmem
    exact absurd hmem List.not_mem_nil
  · rw [hf] at hflags
    cases hflags

end Marked

end Dynarec.Host

namespace Dynarec.Emit

open Host

variable {u : RegisterUse}

/-! ### Frames -/

theorem contains_savedGprs {c : BitVec 5} : u.savedGprs.contains c = true ↔
    u.usedGprs.contains c = true ∧ calleeSavedGprs.contains c = true := by
  rw [RegisterUse.savedGprs, RegSet.contains_inter, Bool.and_eq_true]

theorem marks_saved {x : Host.Gpr} (h : u.savedGprs.contains x.code = true) : u.Marks x :=
  fun _ => (contains_savedGprs.mp h).1

theorem marks_sp : u.Marks .sp := marks_fixed (.inr (Nat.le_of_ble_eq_true rfl))

theorem platform_not_mem_sp : ⟨18⟩ ∉ [Host.Gpr.sp] := by decide

theorem platform_not_mem_operand {x : Host.Gpr} (h : u.savedGprs.contains x.code = true) :
    ⟨18⟩ ∉ x.operand := by
  intro hmem
  rw [← (Gpr.mem_operand.mp hmem).1] at h
  cases (contains_savedGprs.mp h).2

/-- Pairs of saved registers, and a last one alone. -/
theorem frames_pushGprs {xs : List Host.Gpr} (h : ∀ x ∈ xs, u.savedGprs.contains x.code = true) :
    ∀ i ∈ Frame.pushGprs xs, i.Frames u := by
  fun_induction Frame.pushGprs xs with
  | case1 x y rest ih =>
    obtain ⟨hx, hxs⟩ := List.forall_mem_cons.mp h
    obtain ⟨hy, hrest⟩ := List.forall_mem_cons.mp hxs
    refine List.forall_mem_cons.mpr ⟨frames_plain ?_ ?_ rfl rfl platform_not_mem_sp
      (fun _ hq => by cases hq) rfl, ih hrest⟩
    · exact List.forall_mem_cons.mpr ⟨marks_sp, List.forall_mem_append.mpr
        ⟨marks_operand (marks_saved hx), marks_operand (marks_saved hy)⟩⟩
    · exact List.forall_mem_singleton.mpr marks_sp
  | case2 x =>
    have hx := List.forall_mem_singleton.mp h
    refine List.forall_mem_singleton.mpr (frames_plain ?_ ?_ rfl rfl platform_not_mem_sp
      (fun _ hq => by cases hq) rfl)
    · exact List.forall_mem_cons.mpr ⟨marks_sp, marks_operand (marks_saved hx)⟩
    · exact List.forall_mem_singleton.mpr marks_sp
  | case3 => exact nothing_of_nil

theorem frames_popGprs {xs : List Host.Gpr} (h : ∀ x ∈ xs, u.savedGprs.contains x.code = true) :
    ∀ i ∈ Frame.popGprs xs, i.Frames u := by
  have hplatform : ⟨18⟩ ≠ Host.Gpr.sp := by decide
  fun_induction Frame.popGprs xs with
  | case1 x y rest ih =>
    obtain ⟨hx, hxs⟩ := List.forall_mem_cons.mp h
    obtain ⟨hy, hrest⟩ := List.forall_mem_cons.mp hxs
    refine List.forall_mem_append.mpr ⟨ih hrest, List.forall_mem_singleton.mpr
      (frames_plain (List.forall_mem_singleton.mpr marks_sp) ?_ rfl rfl ?_
        (fun _ hq => by cases hq) rfl)⟩
    · exact List.forall_mem_cons.mpr ⟨marks_sp, List.forall_mem_append.mpr
        ⟨marks_operand (marks_saved hx), marks_operand (marks_saved hy)⟩⟩
    · exact List.not_mem_cons_of_ne_of_not_mem hplatform (List.not_mem_append
        (platform_not_mem_operand hx) (platform_not_mem_operand hy))
  | case2 x =>
    have hx := List.forall_mem_singleton.mp h
    refine List.forall_mem_singleton.mpr
      (frames_plain (List.forall_mem_singleton.mpr marks_sp) ?_ rfl rfl ?_
        (fun _ hq => by cases hq) rfl)
    · exact List.forall_mem_cons.mpr ⟨marks_sp, marks_operand (marks_saved hx)⟩
    · exact List.not_mem_cons_of_ne_of_not_mem hplatform (platform_not_mem_operand hx)
  | case3 => exact nothing_of_nil

/-- Saved vector registers hold no guest state. -/
theorem frames_vreg {v : Vreg} (h : u.savedVregs.contains v.code = true) {i : Host.Instr}
    (hr : i.reads = [.sp]) (hw : i.writes = [.sp]) (hv : i.vreads ++ i.vwrites = [v])
    (hf : (i.readsFlags || i.writesFlags) = false) (hq : ∀ x, i ≠ .blr x)
    (ha : i.access?.all (·.1 != .context) = true) : i.Frames u := by
  have hguest : ∀ c : BitVec 5,
      calleeSavedVregs.contains c = true → guestVregs.contains c = false := by
    decide +kernel
  rw [RegisterUse.savedVregs, RegSet.contains_inter, Bool.and_eq_true] at h
  refine ⟨⟨?_, ?_, fun hflags => ?_, ?_⟩, hq, spares_of_all ha⟩
  · rw [hr, hw]
    exact List.forall_mem_cons.mpr ⟨marks_sp, List.forall_mem_singleton.mpr marks_sp⟩
  · rw [hv]
    refine List.forall_mem_singleton.mpr fun hv => ?_
    rw [hguest v.code h.2] at hv
    cases hv
  · rw [hf] at hflags
    cases hflags
  · rw [hw]
    exact platform_not_mem_sp

theorem frames_spillMove (f : Frame) {move : Host.Gpr → Host.Gpr → BitVec 12 → Host.Instr}
    (h : ∀ n, (move .sp .sp n).Frames u) : ∀ i ∈ f.spillMove move, i.Frames u := by
  unfold Frame.spillMove
  split
  · exact List.forall_mem_singleton.mpr (h _)
  · exact nothing_of_nil

/-- A move between fixed registers. -/
theorem frames_mov {x y : Host.Gpr} (hx : x.isSpare = true ∨ 27 ≤ x.index)
    (hy : y.isSpare = true ∨ 27 ≤ y.index) : (Host.Instr.mov .x x y).Frames u := by
  refine frames_plain (List.forall_mem_append.mpr ⟨nothing_of_nil, marks_operand (marks_fixed hy)⟩)
    (marks_operand (marks_fixed hx)) rfl rfl (fun hmem => ?_) nofun rfl
  rw [← (Gpr.mem_operand.mp hmem).1] at hx
  exact absurd hx (by decide)

end Dynarec.Emit

namespace Dynarec.Compile.Plan

open Dynarec.Emit Dynarec.Host

variable (p : Plan)

theorem saved_of_mem {x : Host.Gpr} (h : x ∈ p.frame.savedGprs) :
    p.use.savedGprs.contains x.code = true := RegSet.mem_gprs.mp h

theorem savedV_of_mem {v : Vreg} (h : v ∈ p.frame.savedVregs) :
    p.use.savedVregs.contains v.code = true := RegSet.mem_vregs.mp h

theorem prologue_frames : ∀ i ∈ p.prologue, i.Frames p.use := by
  have hmove : ∀ n, (Host.Instr.subImm .x .sp .sp n).Frames p.use := fun n =>
    frames_plain (List.forall_mem_singleton.mpr marks_sp) (List.forall_mem_singleton.mpr marks_sp)
      rfl rfl platform_not_mem_sp nofun rfl
  have hrecord : ∀ i ∈ [Host.Instr.stpPre .fp .lr .sp (-16), .addImm .x .fp .sp 0],
      i.Frames p.use := by
    refine List.forall_mem_cons.mpr ⟨?_, List.forall_mem_singleton.mpr ?_⟩
    · refine frames_plain (List.forall_mem_cons.mpr ⟨marks_sp, List.forall_mem_append.mpr
        ⟨marks_operand ?_, marks_operand ?_⟩⟩) (List.forall_mem_singleton.mpr marks_sp) rfl rfl
        platform_not_mem_sp nofun rfl
      · exact marks_fixed (.inr (Nat.le_of_ble_eq_true rfl))
      · exact marks_fixed (.inr (Nat.le_of_ble_eq_true rfl))
    · exact frames_plain (List.forall_mem_singleton.mpr marks_sp) (List.forall_mem_singleton.mpr
        (marks_fixed (.inr (Nat.le_of_ble_eq_true rfl)))) rfl rfl (by decide) nofun rfl
  have hpush : ∀ i ∈ p.frame.push, i.Frames p.use := by
    refine List.forall_mem_append.mpr ⟨List.forall_mem_append.mpr ⟨List.forall_mem_append.mpr
      ⟨hrecord, frames_pushGprs fun x => p.saved_of_mem⟩, List.forall_mem_map.mpr fun v hv => ?_⟩,
      frames_spillMove _ hmove⟩
    exact frames_vreg (p.savedV_of_mem hv) rfl rfl rfl rfl nofun rfl
  refine List.forall_mem_append.mpr ⟨List.forall_mem_append.mpr ⟨hpush, List.forall_mem_cons.mpr
    ⟨?_, List.forall_mem_singleton.mpr ?_⟩⟩, frames_of_confined (confined_loadFromRecord p.use)⟩
  · exact frames_mov (by decide) (by decide)
  · exact frames_mov (by decide) (by decide)

theorem trailer_frames : ∀ i ∈ p.trailer, i.Frames p.use := by
  have hmove : ∀ n, (Host.Instr.addImm .x .sp .sp n).Frames p.use := fun n =>
    frames_plain (List.forall_mem_singleton.mpr marks_sp) (List.forall_mem_singleton.mpr marks_sp)
      rfl rfl platform_not_mem_sp nofun rfl
  have hrecord : ∀ i ∈ [Host.Instr.ldpPost .fp .lr .sp 16], i.Frames p.use := by
    refine List.forall_mem_singleton.mpr (frames_plain (List.forall_mem_singleton.mpr marks_sp)
      (List.forall_mem_cons.mpr ⟨marks_sp, List.forall_mem_append.mpr
        ⟨marks_operand ?_, marks_operand ?_⟩⟩) rfl rfl (by decide) nofun rfl)
    · exact marks_fixed (.inr (Nat.le_of_ble_eq_true rfl))
    · exact marks_fixed (.inr (Nat.le_of_ble_eq_true rfl))
  have hpop : ∀ i ∈ p.frame.pop, i.Frames p.use := by
    refine List.forall_mem_append.mpr ⟨List.forall_mem_append.mpr ⟨List.forall_mem_append.mpr
      ⟨frames_spillMove _ hmove, List.forall_mem_map.mpr fun v hv => ?_⟩,
      frames_popGprs fun x => p.saved_of_mem⟩, hrecord⟩
    exact frames_vreg (p.savedV_of_mem (List.mem_reverse.mp hv)) rfl rfl rfl rfl nofun rfl
  have hjump : (Host.Instr.br .dispatch).Frames p.use := by
    refine frames_plain (marks_operand (marks_fixed (.inl rfl))) nothing_of_nil rfl rfl ?_ nofun rfl
    exact List.not_mem_nil
  unfold trailer
  split
  · exact nothing_of_nil
  · refine List.forall_mem_append.mpr ⟨List.forall_mem_append.mpr ⟨List.forall_mem_append.mpr
      ⟨frames_of_confined (confined_storeToRecord p.use), List.forall_mem_cons.mpr
        ⟨?_, List.forall_mem_singleton.mpr ?_⟩⟩, hpop⟩, List.forall_mem_singleton.mpr hjump⟩
    · exact frames_mov (by decide) (by decide)
    · exact frames_mov (by decide) (by decide)

end Dynarec.Compile.Plan

namespace Dynarec.Host

open Dynarec.Emit Dynarec.Compile Dynarec.Resolve

/-! ### Checks and calls -/

theorem marked_syncOps {u : RegisterUse} : ∀ i ∈ syncOps, i.Marked u := by
  have hscratch : u.Marks .scratch := marks_fixed (.inl rfl)
  have hcontext : u.Marks .context := marks_fixed (.inr (Nat.le_refl _))
  have hoperand := marks_operand hscratch
  refine List.forall_mem_cons.mpr ⟨?_, List.forall_mem_cons.mpr ⟨?_, List.forall_mem_cons.mpr ⟨?_,
    List.forall_mem_singleton.mpr ?_⟩⟩⟩
  · exact ⟨List.forall_mem_append.mpr ⟨List.forall_mem_singleton.mpr hcontext, hoperand⟩,
      nothing_of_nil, nofun, by decide⟩
  · exact ⟨List.forall_mem_append.mpr ⟨List.forall_mem_singleton.mpr hscratch,
      List.forall_mem_singleton.mpr hscratch⟩, nothing_of_nil, nofun, by decide⟩
  · exact ⟨List.forall_mem_append.mpr ⟨List.forall_mem_cons.mpr ⟨hcontext, hoperand⟩,
      nothing_of_nil⟩, nothing_of_nil, nofun, List.not_mem_nil⟩
  · exact ⟨List.forall_mem_append.mpr ⟨hoperand, nothing_of_nil⟩, nothing_of_nil, nofun,
      List.not_mem_nil⟩

theorem marked_blr {u : RegisterUse} {x : Gpr} (h : x.isSpare = true) : (Instr.blr x).Marked u :=
  ⟨List.forall_mem_append.mpr ⟨marks_operand (marks_fixed (.inl h)), List.forall_mem_singleton.mpr
    (marks_fixed (.inr (Nat.le_of_ble_eq_true rfl)))⟩, nothing_of_nil, nofun,
    (by decide : ⟨18⟩ ∉ [Gpr.lr])⟩

theorem marked_reload {u : RegisterUse} : reload.Marked u := by
  refine ⟨List.forall_mem_append.mpr ⟨List.forall_mem_singleton.mpr marks_sp,
    List.forall_mem_append.mpr ⟨marks_operand ?_, marks_operand ?_⟩⟩, nothing_of_nil, nofun,
    by decide⟩
  · exact marks_fixed (.inr (Nat.le_refl _))
  · exact marks_fixed (.inr (Nat.le_of_ble_eq_true rfl))

end Dynarec.Host

namespace Dynarec.Compile

open Dynarec.Emit Dynarec.Host Dynarec.Lower Dynarec.Resolve

theorem Plan.Uses.marked {p : Plan} {k : Nat} {i : Host.Instr} (h : p.Uses k i) :
    i.Marked p.use := by
  cases h with
  | confined h => exact h.marked
  | check _ hi => exact marked_syncOps i (List.mem_of_getElem? hi)
  | call _ _ hst _ _ hi =>
    cases hi with
    | call => exact marked_blr hst.callee
    | reload => exact marked_reload

/-- The word at index `k` calls the host. Around it the registers of `u` are stored and loaded, and
as much as the tier says is kept on the stack. -/
def HostCallAt (fetch : Nat → Option Host.Instr) (shape : Shape) (u : RegisterUse) (tier : CallTier)
    (k : Nat) : Prop :=
  ∃ callee args after a, Found fetch a (hostCallOps shape u tier callee args after) ∧
    Straight after ∧ k = a + (beforeCallOps shape u tier callee args).length

/-- The word at index `k` takes the fixed pointers back behind a call that kept only them. -/
def ReloadAt (fetch : Nat → Option Host.Instr) (shape : Shape) (u : RegisterUse) (k : Nat) : Prop :=
  ∃ callee args after a, Found fetch a (hostCallOps shape u .skipContext callee args after) ∧
    k = a + (beforeCallOps shape u .skipContext callee args).length + (1 + after.length)

/-- Only the sequences behind a body call the host. -/
theorem quiet_bodyItems {e : Setting} {u : RegisterUse} {bs : List Guest.Block}
    (h : ∀ b ∈ bs, ∀ i ∈ b.instrs.toList, InUse u i) (y : Host.Gpr) :
    ∀ x ∈ bodyItems e bs, x ≠ .op (.blr y) := by
  refine forall_bodyItems_of_blocks (fun guest x hx heq => ?_) fun b hb x hx heq => ?_
  · have hexit : ItemsConfined u 0 (exitItems e guest) := itemsConfined_exitItems e guest
    exact (hexit _ (heq ▸ hx)).not_blr rfl
  · obtain ⟨q, hq, hx⟩ := List.mem_flatMap.mp hx
    subst heq
    cases q with
    | check i => exact absurd hx (by simp [Part.items, syncItems, syncOps, ops])
    | run cond is =>
      -- Whether the flags are in use does not matter here.
      have hrun : ItemsConfined u.markFlags 0 (is.flatMap (instrItems e.config)) := by
        intro op hop
        obtain ⟨i, hi, hop⟩ := List.mem_flatMap.mp hop
        have hmem : i ∈ b.instrs.toList := by
          rw [← instrs_parts b.isLoopEnd b.instrs.toList]
          exact List.mem_flatMap.mpr ⟨_, hq, hi⟩
        exact itemsConfined_instrItems ((h b hb i hmem).mono u.le_markFlags) (fun _ _ _ _ => rfl) _
          op hop
      exact (itemsConfined_regionItems hrun (fun _ _ => rfl) _ hx).not_blr rfl

/-- Every fixup of a body has what it needs, if there is room for both tiers on the stack. -/
theorem provided_bodyItems {e : Setting} {u : RegisterUse} {bs : List Guest.Block}
    (h : ∀ b ∈ bs, ∀ i ∈ b.instrs.toList, InUse u i) {shape : Shape} {bytes : Nat}
    (hroom : ∀ tier : CallTier, tier.needs shape u ≤ bytes) :
    ∀ x ∈ bodyItems e bs, ∀ k f, x.fixup? k = some f → f.Provided u shape bytes := by
  refine forall_bodyItems (fun i k f hf => ?_) (fun c k f hf => ?_) (fun b hb hloop i hi k f hf => ?_)
    fun b hb i hi x hx k f hf => ?_
  · cases hf
  · cases hf
  · cases hf
    exact ⟨nothing_of_nil, fun _ hk => (by cases hk), fun tier _ => hroom tier⟩
  · exact provided_of_hole? (h b hb i hi) (hole?_of_mem hx hf).1 fun tier _ => hroom tier

namespace Built

variable {config : Config} {dispatch : DispatchTable} {t : Guest.Trace} {c : Compiled} {p : Plan}
  {s : Emission} (h : Built config dispatch t c p s)

include h

/-- The sequence for a fixup stands behind the body. -/
theorem found_calling {ys zs : List Item} {x : Item} {f : Fixup} (hbody : p.body = ys ++ x :: zs)
    (hx : x.fixup? (p.room + ys.length) = some f) {st : Stub}
    (htail : (resolved p.setting p.use p.targets f (p.tailAt ys)).tail =
      st.items p.setting p.use f (p.tailAt ys)) :
    Found (instrAt? c.code) (p.tailAt ys + st.before.length)
      (hostCallOps p.setting.shape p.use st.tier st.callee st.args st.answer.ops) := by
  have hat := (Plan.settled h.fits hbody hx).tail
  rw [htail, Stub.items, closeItems_append, closeItems_ops] at hat
  have hfound : Found (instrAt? c.code) (p.tailAt ys) (st.calling p.setting p.use) := by
    refine h.found (allFrom_append.mp hat).1 fun i hi => ?_
    have hmem : .op i ∈ p.main := by
      refine p.mem_main_of_tail hbody hx ?_
      rw [htail]
      exact List.mem_append_left _ (List.mem_map_of_mem hi)
    exact h.main_reads _ hmem
  exact (allFrom_append.mp hfound).2

/-- Every call between the prologue and the trailer is one for a fixup of the body. -/
theorem main_calls : AllFrom (fun k x => ∀ y, x = .op (.blr y) →
    ∃ f ∈ fixupsFrom p.room p.body, ∃ tier, f.kind.tier? = some tier ∧
      HostCallAt (instrAt? c.code) p.setting.shape p.use tier k) p.room p.main := by
  refine Plan.allFrom_main (fun ys x zs hbody hx y heq => ?_) fun ys x zs f hbody hx => ?_
  · exact absurd heq (quiet_bodyItems h.inUse y x (hbody ▸ List.mem_append_right _ List.mem_cons_self))
  · have hroom : ∀ tier : CallTier, tier.needs p.setting.shape p.use ≤
        CallTier.full.needs p.setting.shape p.use +
          CallTier.skipContext.needs p.setting.shape p.use := by
      intro tier
      cases tier <;> omega
    have hprovided := provided_bodyItems h.inUse hroom x
      (hbody ▸ List.mem_append_right _ List.mem_cons_self) _ f hx
    obtain ⟨hpatch, htail⟩ : (resolved p.setting p.use p.targets f (p.tailAt ys)).Confined
        p.setting p.use _ f (p.tailAt ys) := confined_resolved hprovided
    refine ⟨fun y heq => ?_, fun n z hz y heq => ?_⟩
    · exact absurd (Item.op.inj heq) hpatch.not_blr
    · rcases htail with htail | ⟨st, hst, htier, htail⟩
      · exact absurd rfl (htail _ (heq ▸ List.mem_of_getElem? hz)).not_blr
      · have hz' := hz
        rw [htail] at hz'
        rcases hst.items n z hz' _ heq with hconfined | hclobbers
        · exact absurd rfl hconfined.not_blr
        · generalize hword : Host.Instr.blr y = i at hclobbers
          generalize hindex : p.tailAt ys + n = k at hclobbers ⊢
          cases hclobbers with
          | reload _ => cases hword
          | call =>
            refine ⟨f, ?_, st.tier, htier, _, _, _, _, h.found_calling hbody hx htail,
              Answer.straight_ops _, ?_⟩
            · rw [hbody, fixupsFrom_append]
              exact List.mem_append_right _ (List.mem_append_left _ (Option.mem_toList.mpr hx))
            · rw [Stub.callIndex, List.length_append, Nat.add_assoc]

/-- Every call of the host is one for a fixup of the body. -/
theorem hostCallAt_of_blr {k : Nat} {x : Host.Gpr} (hi : instrAt? c.code k = some (.blr x)) :
    ∃ f ∈ fixupsFrom p.room p.body, ∃ tier, f.kind.tier? = some tier ∧
      HostCallAt (instrAt? c.code) p.setting.shape p.use tier k := by
  generalize hword : Host.Instr.blr x = i at hi
  cases h.at_of_instrAt? hi with
  | prologue hk => exact absurd hword.symm ((p.prologue_frames _ (List.mem_of_getElem? hk)).quiet x)
  | skip _ => cases hword
  | spare _ _ => cases hword
  | trailer hj => exact absurd hword.symm ((p.trailer_frames _ (List.mem_of_getElem? hj)).quiet x)
  | main hj =>
    have hcalls : AllFrom (fun k i => i = .blr x → ∃ f ∈ fixupsFrom p.room p.body, ∃ tier,
        f.kind.tier? = some tier ∧ HostCallAt (instrAt? c.code) p.setting.shape p.use tier k)
        p.room (closeItems p.finish p.room p.main) := by
      refine allFrom_closeItems fun n y hy heq => ?_
      cases y with
      | op i => exact h.main_calls n _ hy x (congrArg Item.op heq)
      | hole kind target e => cases h.main_reads _ (List.mem_of_getElem? hy)
      | exit condition => cases heq
    exact hcalls _ _ hj hword.symm

end Built

end Dynarec.Compile

namespace Dynarec.Translated

open Dynarec.Emit Dynarec.Compile Dynarec.Host Dynarec.Lower Dynarec.Resolve

variable {options : Options} {dispatch : DispatchTable} {img : Guest.Image} {entry : Word}
  {c : Compiled} {t : Guest.Trace} {p : Plan} (h : Translated options dispatch img entry c t p)

include h

/-- Every word of a unit. -/
theorem marked {k : Nat} {i : Host.Instr} (hi : instrAt? c.code k = some i) : i.Marked p.use := by
  cases h.at_of_instrAt? hi with
  | prologue hk => exact (p.prologue_frames i (List.mem_of_getElem? hk)).marked
  | skip _ => exact (show (Host.Instr.b _).Confined p.use 0 from confined_b _).marked
  | spare _ _ => exact (show Host.Instr.nop.Confined p.use 0 from confined_nop).marked
  | main hj => exact (h.main_uses _ _ hj).marked
  | trailer hj => exact (p.trailer_frames i (List.mem_of_getElem? hj)).marked

/-- Every call of the host is one for a fixup of the body. -/
theorem hostCallAt_of_blr {k : Nat} {x : Host.Gpr} (hi : instrAt? c.code k = some (.blr x)) :
    ∃ f ∈ fixupsFrom p.room p.body, ∃ tier, f.kind.tier? = some tier ∧
      HostCallAt (instrAt? c.code) p.setting.shape p.use tier k := by
  obtain ⟨s, hbuilt⟩ := h.built
  exact hbuilt.hostCallAt_of_blr hi

/-- Between the prologue and the trailer, only calls and reloads change registers that the unit does
not have. -/
theorem takes_of_writes {k : Nat} {i : Host.Instr} (hi : instrAt? c.code k = some i)
    (hlo : c.stats.prologueWords ≤ k) (hhi : ∀ n, c.stats.trailer = some n → k < n) {x : Host.Gpr}
    (hx : x ∈ i.writes) : p.use.Takes x ∨ x = .lr ∨
      i = reload ∧ ReloadAt (instrAt? c.code) p.setting.shape p.use k := by
  cases h.uses_of_instrAt? hi hlo hhi with
  | confined hc => exact .inl (hc.writes x hx)
  | check _ hi =>
    have hscratch : ∀ i ∈ syncOps, ∀ x ∈ i.writes, x = .scratch := by decide
    rw [hscratch i (List.mem_of_getElem? hi) x hx]
    exact .inl (.inl rfl)
  | call hbody hx' _ _ htail hclobbers =>
    cases hclobbers with
    | call => exact .inr (.inl (List.mem_singleton.mp hx))
    | reload htier =>
      obtain ⟨s, hbuilt⟩ := h.built
      have hfound := hbuilt.found_calling hbody hx' htail
      rw [htier] at hfound
      refine .inr (.inr ⟨rfl, _, _, _, _, hfound, ?_⟩)
      rw [Stub.callIndex, List.length_append, htier]
      omega

end Dynarec.Translated
